import HelionDb.Executor
import HelionDb.Wal

/-! Replay of a log record by record, with what has opened each row: an insertion says nothing of the place of its row,
while an update and a deletion address a row by its place. A record changes the table of a name by what is in it, and where
it addresses no row from a lost one on but the last, it does the same to the table without the lost row. -/

namespace HelionDb

namespace WalRecord

/-- The row that a record addresses. -/
def target? : WalRecord → Option (String × Nat)
  | .update table rowIdx _ _ | .delete table rowIdx _ => some (table, rowIdx)
  | _ => none

/-- What a record does to the table of a name. -/
def effect (name : String) : WalRecord → Option Table → Option Table
  | .createTable created columns, found => if created = name then some (found.getD (Table.new created columns)) else found
  | .dropTable dropped, found => if dropped = name then none else found
  | .insert table row txid, found => if table = name then found.map (Table.replayInsert row txid) else found
  | .update table rowIdx newRow txid, found =>
      if table = name then found.map (Table.replayUpdate rowIdx newRow txid) else found
  | .delete table rowIdx txid, found => if table = name then found.map (Table.replayDelete rowIdx txid) else found
  | .checkpoint _ images, _ => findTable name (images.map TableImage.restore)
  | .commit _, found | .createUser _ _, found | .dropUser _, found | .grant _ _ _, found | .revoke _ _ _, found => found

/-- The table of a name is another one from here on. -/
def Resets (name : String) : WalRecord → Prop
  | .dropTable dropped => dropped = name
  | .checkpoint _ _ => True
  | _ => False

end WalRecord

section

variable {tables : List Table} {name : String} {record : WalRecord}

theorem replayInsert_name (row : Row) (txid : Nat) (table : Table) : (table.replayInsert row txid).name = table.name := by
  unfold Table.replayInsert
  split <;> rfl

theorem replayUpdate_name (rowIdx : Nat) (newRow : Row) (txid : Nat) (table : Table) :
    (table.replayUpdate rowIdx newRow txid).name = table.name := by
  unfold Table.replayUpdate
  split <;> rfl

theorem replayDelete_name (rowIdx txid : Nat) (table : Table) : (table.replayDelete rowIdx txid).name = table.name := by
  unfold Table.replayDelete
  split
  · rfl
  · split <;> rfl

theorem findTable_updateTable (changed name : String) {f : Table → Table} (hf : ∀ table, (f table).name = table.name)
    (tables : List Table) :
    findTable name (updateTable changed f tables) =
      if changed = name then (findTable name tables).map f else findTable name tables := by
  by_cases hname : changed = name
  · subst hname
    rw [if_pos rfl]
    exact KeyedList.lookup_update_self hf
  · rw [if_neg hname]
    exact KeyedList.lookup_update_of_ne hf (Ne.symm hname)

/-- Replay of a record changes the table of a name by what is in it. -/
theorem findTable_applyWalRecord (name : String) (tables : List Table) (record : WalRecord) :
    findTable name (applyWalRecord tables record) = record.effect name (findTable name tables) := by
  cases record with
  | createTable created columns =>
      rw [applyWalRecord, WalRecord.effect]
      by_cases hany : tables.any fun table => table.name == created
      · rw [if_pos hany]
        split
        · rename_i hname
          obtain ⟨table, hmem, hsame⟩ := List.any_eq_true.mp hany
          have hfound : findTable name tables ≠ none := fun hnone =>
            KeyedList.lookup_eq_none_iff.mp hnone table hmem (hname ▸ beq_iff_eq.mp hsame)
          obtain ⟨found, hfound⟩ := Option.ne_none_iff_exists'.mp hfound
          rw [hfound, Option.getD_some]
        · rfl
      · rw [if_neg hany]
        have happend : findTable name (tables ++ [Table.new created columns]) =
            (findTable name tables).or (findTable name [Table.new created columns]) := List.find?_append
        rw [happend]
        split
        · rename_i hname
          have hnone : findTable name tables = none := KeyedList.lookup_eq_none_iff.mpr fun table hmem hsame =>
            hany (List.any_eq_true.mpr ⟨table, hmem, beq_iff_eq.mpr (hsame.trans hname.symm)⟩)
          rw [hnone]
          simp [KeyedList.lookup, hname]
        · rename_i hname
          simp [KeyedList.lookup, hname]
  | dropTable dropped =>
      rw [applyWalRecord, WalRecord.effect]
      simp only [findTable, KeyedList.lookup, List.find?_filter]
      split
      · rename_i hname
        apply List.find?_eq_none.mpr
        simp [hname]
      · rename_i hname
        congr
        funext table
        by_cases htable : table.name = name
        · simp [htable, Ne.symm hname]
        · simp [htable]
  | insert table row txid => exact findTable_updateTable table name (replayInsert_name row txid) tables
  | update table rowIdx newRow txid => exact findTable_updateTable table name (replayUpdate_name rowIdx newRow txid) tables
  | delete table rowIdx txid => exact findTable_updateTable table name (replayDelete_name rowIdx txid) tables
  | checkpoint count images => rfl
  | commit | createUser | dropUser | grant | revoke => rfl

end

/-! ### Rows and the records that have opened them -/

/-- The version chains of the table of a name, none where there is no such table. -/
def chainsIn (name : String) (tables : List Table) : List Chain := ((findTable name tables).map (·.versionChains)).getD []

/-- Tables with what has opened each of their rows: the position of an insertion in the log, or that of a checkpoint and
the place of the row in it. -/
structure Traced where
  tables : List Table
  rows : String → List (Nat × Nat)

namespace Traced

/-- Nothing has been replayed. -/
def start : Traced := { tables := [], rows := fun _ => [] }

/-- Replay of a record at a position of the log. -/
def step (traced : Traced) (position : Nat) (record : WalRecord) : Traced :=
  let tables := applyWalRecord traced.tables record
  { tables
    rows := fun name =>
      match record with
      | .insert table _ _ =>
          if table = name ∧ (chainsIn name tables).length ≠ (chainsIn name traced.tables).length then
            traced.rows name ++ [(position, 0)]
          else traced.rows name
      | .dropTable dropped => if dropped = name then [] else traced.rows name
      | .checkpoint _ _ => (List.range (chainsIn name tables).length).map (position, ·)
      | _ => traced.rows name }

/-- Replay of records from a position of the log on. -/
def run (traced : Traced) (position : Nat) : List WalRecord → Traced
  | [] => traced
  | record :: rest => (traced.step position record).run (position + 1) rest

/-- Every row has one record, of those before a position. -/
structure Sound (traced : Traced) (position : Nat) : Prop where
  length : ∀ name, (traced.rows name).length = (chainsIn name traced.tables).length
  nodup : ∀ name, (traced.rows name).Nodup
  before : ∀ name, ∀ opened ∈ traced.rows name, opened.1 < position

section

variable {traced : Traced} {position : Nat} {name : String} {record : WalRecord} {records : List WalRecord}

theorem run_append (traced : Traced) (position : Nat) (first second : List WalRecord) :
    traced.run position (first ++ second) = (traced.run position first).run (position + first.length) second := by
  induction first generalizing traced position with
  | nil => rfl
  | cons record rest ih =>
      rw [List.cons_append, run, ih, run, List.length_cons, Nat.add_assoc, Nat.add_comm 1]

theorem tables_run (traced : Traced) (position : Nat) (records : List WalRecord) :
    (traced.run position records).tables = replayRecords traced.tables records := by
  induction records generalizing traced position with
  | nil => rfl
  | cons record rest ih =>
      rw [run, ih]
      rfl

theorem chainsIn_applyWalRecord (name : String) (tables : List Table) (record : WalRecord) :
    chainsIn name (applyWalRecord tables record) =
      ((record.effect name (findTable name tables)).map (·.versionChains)).getD [] := by
  rw [chainsIn, findTable_applyWalRecord]

/-- An insertion adds one row to its table, or none. -/
theorem replayInsert_cases (row : Row) (txid : Nat) (table : Table) :
    (table.validateRow row = .ok () ∧ table.replayInsert row txid =
        { table with versionChains := table.versionChains ++ [[.newInsert txid row]] }) ∨
      (table.validateRow row ≠ .ok () ∧ table.replayInsert row txid = table) := by
  unfold Table.replayInsert
  cases hvalid : table.validateRow row with
  | ok => exact .inl ⟨rfl, rfl⟩
  | error => exact .inr ⟨by simp, rfl⟩

theorem chainsIn_insert_of_ne {table : String} (hname : name ≠ table) (tables : List Table) (row : Row) (txid : Nat) :
    chainsIn name (applyWalRecord tables (.insert table row txid)) = chainsIn name tables := by
  rw [chainsIn_applyWalRecord, WalRecord.effect, if_neg (Ne.symm hname), chainsIn]

theorem chainsIn_insert_cases (table : String) (tables : List Table) (row : Row) (txid : Nat) :
    chainsIn table (applyWalRecord tables (.insert table row txid)) = chainsIn table tables ++ [[.newInsert txid row]] ∨
      chainsIn table (applyWalRecord tables (.insert table row txid)) = chainsIn table tables := by
  rw [chainsIn_applyWalRecord, WalRecord.effect, if_pos rfl, chainsIn]
  cases findTable table tables with
  | none => exact .inr rfl
  | some found =>
      rcases replayInsert_cases row txid found with ⟨-, hadded⟩ | ⟨-, hsame⟩
      · left
        rw [Option.map_some, hadded]
        rfl
      · right
        rw [Option.map_some, hsame]

@[simp] theorem length_replayUpdate (rowIdx : Nat) (newRow : Row) (txid : Nat) (table : Table) :
    (table.replayUpdate rowIdx newRow txid).versionChains.length = table.versionChains.length := by
  unfold Table.replayUpdate
  split <;> simp

@[simp] theorem length_replayDelete (rowIdx txid : Nat) (table : Table) :
    (table.replayDelete rowIdx txid).versionChains.length = table.versionChains.length := by
  unfold Table.replayDelete
  split
  · rfl
  · split <;> simp

theorem Sound.before_succ (h : traced.Sound position) (name : String) :
    ∀ opened ∈ traced.rows name, opened.1 < position + 1 :=
  fun opened hmem => Nat.lt_succ_of_lt (h.before name opened hmem)

/-- A record that adds no row and takes none leaves the rows their records. -/
theorem Sound.keep (h : traced.Sound position) {tables : List Table}
    (hlength : ∀ name, (chainsIn name tables).length = (chainsIn name traced.tables).length) :
    ({ tables, rows := traced.rows } : Traced).Sound (position + 1) :=
  ⟨fun name => (h.length name).trans (hlength name).symm, h.nodup, h.before_succ⟩

/-- A row that an insertion adds has the insertion for its record. -/
theorem Sound.insert (h : traced.Sound position) (table : String) (row : Row) (txid : Nat) :
    (traced.step position (.insert table row txid)).Sound (position + 1) := by
  refine ⟨fun name => ?_, fun name => ?_, fun name opened hmem => ?_⟩
  · dsimp only [Traced.step]
    split
    · rename_i hadded
      obtain ⟨rfl, hne⟩ := hadded
      rcases chainsIn_insert_cases table traced.tables row txid with hadded | hkept
      · rw [hadded, List.length_append, List.length_append, h.length table]
        rfl
      · exact absurd (congrArg List.length hkept) hne
    · rename_i hkept
      rw [h.length name]
      by_cases hname : table = name
      · exact (not_not.mp fun hne => hkept ⟨hname, hne⟩).symm
      · rw [chainsIn_insert_of_ne (Ne.symm hname)]
  · dsimp only [Traced.step]
    split
    · apply (h.nodup name).append (List.nodup_singleton _)
      rw [List.disjoint_singleton]
      exact fun hmem => Nat.lt_irrefl _ (h.before name _ hmem)
    · exact h.nodup name
  · dsimp only [Traced.step] at hmem
    split at hmem
    · rcases List.mem_append.mp hmem with hmem | hnew
      · exact h.before_succ name opened hmem
      · rw [List.mem_singleton.mp hnew]
        exact Nat.lt_succ_self position
    · exact h.before_succ name opened hmem

/-- A change that keeps the rows of a table keeps the rows of every table. -/
theorem length_chainsIn_of_effect {change : Table → Table} {changed : String}
    (heffect : ∀ name found, record.effect name found = if changed = name then found.map change else found)
    (hchange : ∀ table : Table, (change table).versionChains.length = table.versionChains.length) (tables : List Table)
    (name : String) : (chainsIn name (applyWalRecord tables record)).length = (chainsIn name tables).length := by
  rw [chainsIn_applyWalRecord, heffect, chainsIn]
  split
  · cases findTable name tables <;> simp [hchange]
  · rfl

theorem Sound.step (h : traced.Sound position) (record : WalRecord) : (traced.step position record).Sound (position + 1) := by
  cases record with
  | createTable created columns =>
      apply h.keep
      intro name
      rw [chainsIn_applyWalRecord, WalRecord.effect, chainsIn]
      split
      · cases findTable name traced.tables <;> simp
      · rfl
  | dropTable dropped =>
      refine ⟨fun name => ?_, fun name => ?_, fun name opened hmem => ?_⟩
      · dsimp only [Traced.step]
        rw [chainsIn_applyWalRecord, WalRecord.effect]
        split
        · rfl
        · exact h.length name
      · dsimp only [Traced.step]
        split
        · exact List.nodup_nil
        · exact h.nodup name
      · dsimp only [Traced.step] at hmem
        split at hmem
        · cases hmem
        · exact h.before_succ name opened hmem
  | insert table row txid => exact h.insert table row txid
  | update table rowIdx newRow txid =>
      exact h.keep (length_chainsIn_of_effect (fun _ _ => rfl) (length_replayUpdate rowIdx newRow txid) traced.tables)
  | delete table rowIdx txid =>
      exact h.keep (length_chainsIn_of_effect (fun _ _ => rfl) (length_replayDelete rowIdx txid) traced.tables)
  | checkpoint count images =>
      refine ⟨fun name => ?_, fun name => ?_, fun name opened hmem => ?_⟩
      · exact (List.length_map _).trans List.length_range
      · exact List.nodup_range.map fun left right heq => (Prod.mk.inj heq).2
      · obtain ⟨place, -, rfl⟩ := List.mem_map.mp hmem
        exact Nat.lt_succ_self position
  | commit | createUser | dropUser | grant | revoke => exact h.keep fun _ => rfl

theorem sound_start : start.Sound 0 := ⟨fun _ => rfl, fun _ => List.nodup_nil, fun _ _ h => by cases h⟩

theorem Sound.run (h : traced.Sound position) (records : List WalRecord) :
    (traced.run position records).Sound (position + records.length) := by
  induction records generalizing traced position with
  | nil => exact h
  | cons record rest ih =>
      rw [Traced.run, List.length_cons, Nat.add_comm rest.length, ← Nat.add_assoc]
      exact ih (h.step record)

end

end Traced

/-- A row as it was opened. -/
def reopen (chain : Chain) : Chain := (chain.take 1).map fun version => { version with txidMax := u64Max }

/-- The rows without one of them, and those behind it as they were opened. -/
def withoutRow (lost : Nat) (chains : List Chain) : List Chain :=
  chains.take lost ++ (chains.drop (lost + 1)).map reopen

section

variable {lost rowIdx txid : Nat} {row : Row} {version : RowVersion} {chains : List Chain} {chain : Chain}

theorem reopen_extendChain (hne : chain ≠ []) : reopen (extendChain txid version chain) = reopen chain := by
  match chain with
  | [] => exact absurd rfl hne
  | [latest] => rfl
  | first :: second :: rest => rfl

/-- The rows behind one have been opened by an insertion. -/
def OpenedBehind (lost : Nat) (chains : List Chain) : Prop :=
  ∀ place chain, lost < place → chains[place]? = some chain → chain ≠ []

theorem extendChain_ne_nil : extendChain txid version chain ≠ [] := List.append_ne_nil_of_right_ne_nil _ (List.cons_ne_nil _ _)

theorem length_withoutRow (hlost : lost < chains.length) : (withoutRow lost chains).length + 1 = chains.length := by
  simp only [withoutRow, List.length_append, List.length_take, List.length_map, List.length_drop]
  omega

theorem getElem?_withoutRow_of_lt (hlost : lost < chains.length) (hrow : rowIdx < lost) :
    (withoutRow lost chains)[rowIdx]? = chains[rowIdx]? := by
  have htake : rowIdx < (chains.take lost).length := by
    rw [List.length_take]
    omega
  rw [withoutRow, List.getElem?_append_left htake, List.getElem?_take_of_lt hrow]

theorem getElem?_withoutRow_of_le (hlost : lost < chains.length) (hrow : lost ≤ rowIdx) :
    (withoutRow lost chains)[rowIdx]? = chains[rowIdx + 1]?.map reopen := by
  have htake : (chains.take lost).length = lost := List.length_take_of_le hlost.le
  rw [withoutRow, List.getElem?_append_right (htake.le.trans hrow), htake, List.getElem?_map, List.getElem?_drop]
  congr 2
  omega

theorem withoutRow_append (hlost : lost < chains.length) (added : List Chain) :
    withoutRow lost (chains ++ added) = withoutRow lost chains ++ added.map reopen := by
  simp only [withoutRow, List.take_append_of_le_length hlost.le, List.drop_append_of_le_length hlost, List.map_append,
    List.append_assoc]

/-- A change of a row before the lost one is the same change. -/
theorem withoutRow_modify_of_lt (hlost : lost < chains.length) (hrow : rowIdx < lost) (f : Chain → Chain) :
    withoutRow lost (chains.modify rowIdx f) = (withoutRow lost chains).modify rowIdx f := by
  have hmodified : lost < (chains.modify rowIdx f).length := by rwa [List.length_modify]
  apply List.ext_getElem?
  intro place
  by_cases hplace : place < lost
  · rw [getElem?_withoutRow_of_lt hmodified hplace, List.getElem?_modify, List.getElem?_modify,
      getElem?_withoutRow_of_lt hlost hplace]
  · have hbehind : lost ≤ place := Nat.le_of_not_lt hplace
    rw [getElem?_withoutRow_of_le hmodified hbehind, List.getElem?_modify_ne _ _ (by omega),
      List.getElem?_modify_ne _ _ (by omega), getElem?_withoutRow_of_le hlost hbehind]

/-- A version that is added to a row from the lost one on leaves the others as they are. -/
theorem withoutRow_modify_of_le (hlost : lost < chains.length) (hrow : lost ≤ rowIdx)
    (hbehind : OpenedBehind lost chains) :
    withoutRow lost (chains.modify rowIdx (extendChain txid version)) = withoutRow lost chains := by
  have hmodified : lost < (chains.modify rowIdx (extendChain txid version)).length := by rwa [List.length_modify]
  apply List.ext_getElem?
  intro place
  by_cases hplace : place < lost
  · rw [getElem?_withoutRow_of_lt hmodified hplace, getElem?_withoutRow_of_lt hlost hplace,
      List.getElem?_modify_ne _ _ (by omega)]
  · have hafter : lost ≤ place := Nat.le_of_not_lt hplace
    rw [getElem?_withoutRow_of_le hmodified hafter, getElem?_withoutRow_of_le hlost hafter, List.getElem?_modify]
    cases hchain : chains[place + 1]? with
    | none => rfl
    | some chain =>
        simp only [Option.map_eq_map, Option.map_some, Option.some.injEq]
        split
        · exact reopen_extendChain (hbehind (place + 1) chain (by omega) hchain)
        · rfl

theorem OpenedBehind.append (h : OpenedBehind lost chains) (hne : chain ≠ []) : OpenedBehind lost (chains ++ [chain]) := by
  intro place found hplace hfound
  rcases Nat.lt_or_ge place chains.length with hold | hnew
  · rw [List.getElem?_append_left hold] at hfound
    exact h place found hplace hfound
  · rw [List.getElem?_append_right hnew] at hfound
    exact List.mem_singleton.mp (List.mem_of_getElem? hfound) ▸ hne

theorem OpenedBehind.modify (h : OpenedBehind lost chains) (rowIdx txid : Nat) (version : RowVersion) :
    OpenedBehind lost (chains.modify rowIdx (extendChain txid version)) := by
  intro place found hplace hfound
  rw [List.getElem?_modify, Option.map_eq_map, Option.map_eq_some_iff] at hfound
  obtain ⟨chain, hchain, rfl⟩ := hfound
  split
  · exact extendChain_ne_nil
  · exact h place chain hplace hchain

/-- A version that is added to a row before the lost one or to the last row. -/
theorem withoutRow_modify (hlost : lost < chains.length) (hbehind : OpenedBehind lost chains)
    (hnear : rowIdx < lost ∨ chains.length ≤ rowIdx + 1) :
    withoutRow lost (chains.modify rowIdx (extendChain txid version)) =
      (withoutRow lost chains).modify rowIdx (extendChain txid version) := by
  rcases hnear with hbefore | hlast
  · exact withoutRow_modify_of_lt hlost hbefore _
  · have hlength := length_withoutRow hlost
    rw [withoutRow_modify_of_le hlost (by omega) hbehind, List.modify_eq_self (by omega)]

end

/-! ### Replay with the insertion and without it -/

namespace Table

/-- The table without one of its rows. -/
def without (lost : Nat) (table : Table) : Table := { table with versionChains := withoutRow lost table.versionChains }

section

variable {lost : Nat} {table next : Table} {name : String} {record : WalRecord}

theorem without_replayInsert (hlost : lost < table.versionChains.length) (row : Row) (txid : Nat) :
    (table.replayInsert row txid).without lost = (table.without lost).replayInsert row txid := by
  have hvalid : (table.without lost).validateRow row = table.validateRow row := rfl
  rw [replayInsert, replayInsert, hvalid]
  cases table.validateRow row with
  | error => rfl
  | ok =>
      dsimp only [without]
      rw [withoutRow_append hlost]
      rfl

theorem replayUpdate_eq (rowIdx txid : Nat) (newRow : Row) (table : Table) :
    table.replayUpdate rowIdx newRow txid =
      { table with versionChains := table.versionChains.modify rowIdx (extendChain txid (.newUpdate txid newRow)) } := by
  unfold replayUpdate
  split
  · rfl
  · rw [List.modify_eq_self (by omega)]

theorem without_replayUpdate {rowIdx : Nat} (hlost : lost < table.versionChains.length)
    (hbehind : OpenedBehind lost table.versionChains)
    (hnear : rowIdx < lost ∨ table.versionChains.length ≤ rowIdx + 1) (newRow : Row) (txid : Nat) :
    (table.replayUpdate rowIdx newRow txid).without lost = (table.without lost).replayUpdate rowIdx newRow txid := by
  rw [replayUpdate_eq, replayUpdate_eq]
  exact congrArg (fun chains => { table with versionChains := chains }) (withoutRow_modify hlost hbehind hnear)

theorem without_replayDelete {rowIdx : Nat} (hlost : lost < table.versionChains.length)
    (hbehind : OpenedBehind lost table.versionChains)
    (hnear : rowIdx < lost ∨ table.versionChains.length ≤ rowIdx + 1) (txid : Nat) :
    (table.replayDelete rowIdx txid).without lost = (table.without lost).replayDelete rowIdx txid := by
  have hchains : (table.without lost).versionChains = withoutRow lost table.versionChains := rfl
  have hmodify : ∀ version : RowVersion,
      ({ table with versionChains := table.versionChains.modify rowIdx (extendChain txid version) } : Table).without lost =
        { table.without lost with
          versionChains := (table.without lost).versionChains.modify rowIdx (extendChain txid version) } := fun version =>
    congrArg (fun chains => { table with versionChains := chains }) (withoutRow_modify hlost hbehind hnear)
  rw [replayDelete, replayDelete, hchains]
  rcases hnear with hbefore | hlast
  · rw [getElem?_withoutRow_of_lt hlost hbefore]
    cases table.versionChains[rowIdx]? with
    | none => rfl
    | some chain =>
        dsimp only
        cases chain.getLast? with
        | none => rfl
        | some latest => exact hmodify _
  · have hlength := length_withoutRow hlost
    have hnone : (withoutRow lost table.versionChains)[rowIdx]? = none := List.getElem?_eq_none (by omega)
    rw [hnone]
    cases table.versionChains[rowIdx]? with
    | none => rfl
    | some chain =>
        dsimp only
        cases chain.getLast? with
        | none => rfl
        | some latest =>
            refine (hmodify _).trans ?_
            rw [hchains, List.modify_eq_self (by omega)]
            rfl

/-- The rows that a record leaves behind are opened too. -/
theorem openedBehind_effect (hbehind : OpenedBehind lost table.versionChains) (hreset : ¬ record.Resets name) :
    ∃ next, record.effect name (some table) = some next ∧ table.versionChains.length ≤ next.versionChains.length ∧
      OpenedBehind lost next.versionChains := by
  have hsame : ∃ next, some table = some next ∧ table.versionChains.length ≤ next.versionChains.length ∧
      OpenedBehind lost next.versionChains := ⟨table, rfl, le_rfl, hbehind⟩
  cases record with
  | createTable created columns =>
      rw [WalRecord.effect]
      split
      · exact hsame
      · exact hsame
  | dropTable dropped =>
      have hname : ¬dropped = name := hreset
      rw [WalRecord.effect, if_neg hname]
      exact hsame
  | insert changed row txid =>
      rw [WalRecord.effect]
      split
      · refine ⟨_, rfl, ?_⟩
        rcases Traced.replayInsert_cases row txid table with ⟨-, hadded⟩ | ⟨-, hkept⟩
        · rw [hadded]
          exact ⟨by simp, hbehind.append (List.cons_ne_nil _ _)⟩
        · rw [hkept]
          exact ⟨le_rfl, hbehind⟩
      · exact hsame
  | update changed rowIdx newRow txid =>
      rw [WalRecord.effect]
      split
      · refine ⟨_, rfl, (Traced.length_replayUpdate _ _ _ _).ge, ?_⟩
        rw [replayUpdate_eq]
        exact hbehind.modify _ _ _
      · exact hsame
  | delete changed rowIdx txid =>
      rw [WalRecord.effect]
      split
      · refine ⟨_, rfl, (Traced.length_replayDelete _ _ _).ge, ?_⟩
        unfold replayDelete
        split
        · exact hbehind
        · split
          · exact hbehind
          · exact hbehind.modify _ _ _
      · exact hsame
  | checkpoint count images => exact absurd trivial hreset
  | commit | createUser | dropUser | grant | revoke => exact hsame

/-- A record that addresses no row from the lost one on but the last has the same effect without the lost row. -/
theorem effect_without (hlost : lost < table.versionChains.length) (hbehind : OpenedBehind lost table.versionChains)
    (hreset : ¬ record.Resets name)
    (hnear : ∀ rowIdx, record.target? = some (name, rowIdx) → rowIdx < lost ∨ table.versionChains.length ≤ rowIdx + 1) :
    record.effect name (some (table.without lost)) = (record.effect name (some table)).map (Table.without lost) := by
  cases record with
  | createTable created columns =>
      rw [WalRecord.effect, WalRecord.effect]
      split
      · rfl
      · rfl
  | dropTable dropped =>
      have hname : ¬dropped = name := hreset
      rw [WalRecord.effect, WalRecord.effect, if_neg hname, if_neg hname]
      rfl
  | insert changed row txid =>
      rw [WalRecord.effect, WalRecord.effect]
      split
      · exact congrArg some (without_replayInsert hlost row txid).symm
      · rfl
  | update changed rowIdx newRow txid =>
      rw [WalRecord.effect, WalRecord.effect]
      split
      · rename_i hname
        have hrow := hnear rowIdx (by rw [WalRecord.target?, hname])
        exact congrArg some (without_replayUpdate hlost hbehind hrow newRow txid).symm
      · rfl
  | delete changed rowIdx txid =>
      rw [WalRecord.effect, WalRecord.effect]
      split
      · rename_i hname
        have hrow := hnear rowIdx (by rw [WalRecord.target?, hname])
        exact congrArg some (without_replayDelete hlost hbehind hrow txid).symm
      · rfl
  | checkpoint count images => exact absurd trivial hreset
  | commit | createUser | dropUser | grant | revoke => rfl

end

end Table

end HelionDb
