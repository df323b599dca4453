import HelionDb.Chains
import HelionDb.Reach

/-! Reading the past. The versions of a row that one transaction after the other writes cover the ids from the first
writer on without gaps and without overlaps, so a snapshot selects the last version that had been written at its id. A
table read at an id is therefore the table that the transactions up to this id have made. -/

namespace HelionDb

/-! ### Chains without gaps -/

/-- Each version ends where the next one begins, and the last one is open. -/
def Contiguous : Chain → Prop
  | [] => False
  | [latest] => latest.txidMax = u64Max
  | version :: next :: rest =>
      version.txidMax = next.txidMin ∧ version.txidMin ≤ next.txidMin ∧ Contiguous (next :: rest)

/-- The row of a chain at an id, if there is one. -/
def rowAsOf (txid : Nat) (chain : Chain) : Option Row := (latestVisible chain txid ∅).map (·.row)

section Contiguous

variable {txid id : Nat} {chain : Chain} {version : RowVersion}

theorem isVersionVisible_empty_iff :
    isVersionVisible version txid ∅ = true ↔
      version.txidMin ≤ txid ∧ (version.txidMax = u64Max ∨ txid < version.txidMax) := by
  simp [isVersionVisible_iff]

theorem Contiguous.concat (h : Contiguous chain) :
    ∃ prior latest, chain = prior ++ [latest] ∧ latest.txidMax = u64Max := by
  fun_induction Contiguous chain with
  | case1 => exact h.elim
  | case2 latest => exact ⟨[], latest, rfl, h⟩
  | case3 version next rest ih =>
      obtain ⟨prior, latest, hchain, hopen⟩ := ih h.2.2
      exact ⟨version :: prior, latest, congrArg (List.cons version) hchain, hopen⟩

/-- A version of a later or the same transaction continues a chain. -/
theorem Contiguous.extend (h : Contiguous chain) (hmin : ∀ old ∈ chain, old.txidMin ≤ id) (hversion : version.txidMin = id)
    (hopen : version.txidMax = u64Max) : Contiguous (extendChain id version chain) := by
  fun_induction Contiguous chain with
  | case1 => exact h.elim
  | case2 latest => exact ⟨hversion.symm, hversion.symm ▸ hmin latest List.mem_cons_self, hopen⟩
  | case3 old next rest ih =>
      obtain ⟨hmax, hle, hrest⟩ := h
      have htail := ih hrest fun other hother => hmin other (List.mem_cons_of_mem _ hother)
      -- Closing the latest version keeps where the next one begins.
      cases rest with
      | nil => exact ⟨hmax, hle, htail⟩
      | cons third rest => exact ⟨hmax, hle, htail⟩

/-- Nothing of a chain is in sight before its first version. -/
theorem Contiguous.hidden_before {rest : Chain} (h : Contiguous (version :: rest)) (hlt : txid < version.txidMin) :
    ∀ old ∈ version :: rest, isVersionVisible old txid ∅ = false := by
  induction rest generalizing version with
  | nil =>
      intro old hold
      obtain rfl := List.mem_singleton.mp hold
      exact Bool.eq_false_iff.mpr fun hsees => absurd (isVersionVisible_empty_iff.mp hsees).1 (Nat.not_le.mpr hlt)
  | cons next rest ih =>
      obtain ⟨-, hle, hrest⟩ := h
      intro old hold
      rcases List.mem_cons.mp hold with rfl | hold
      · exact Bool.eq_false_iff.mpr fun hsees => absurd (isVersionVisible_empty_iff.mp hsees).1 (Nat.not_le.mpr hlt)
      · exact ih hrest (hlt.trans_le hle) old hold

/-- At most one version of a chain is in sight, unless the id that stands for no end has been given to a writer and is
asked for. -/
theorem Contiguous.visible_le_one (h : Contiguous chain)
    (hid : txid < u64Max ∨ ∀ old ∈ chain, old.txidMin ≠ u64Max) :
    (chain.filter fun old => isVersionVisible old txid ∅).length ≤ 1 := by
  fun_induction Contiguous chain with
  | case1 => exact h.elim
  | case2 latest => exact List.length_filter_le _ [latest]
  | case3 old next rest ih =>
      obtain ⟨hmax, -, hrest⟩ := h
      rcases Nat.lt_or_ge txid next.txidMin with hlt | hge
      · rw [List.filter_cons, List.filter_eq_nil_iff.mpr fun other hother =>
          Bool.eq_false_iff.mp (hrest.hidden_before hlt other hother)]
        split <;> simp
      · have hclosed : isVersionVisible old txid ∅ = false := by
          apply Bool.eq_false_iff.mpr
          intro hsees
          rcases (isVersionVisible_empty_iff.mp hsees).2 with hopen | hlt
          · rw [hmax] at hopen
            rcases hid with hid | hid
            · omega
            · exact hid next (List.mem_cons_of_mem _ List.mem_cons_self) hopen
          · omega
        rw [List.filter_cons_of_neg (by rw [hclosed]; exact Bool.false_ne_true)]
        exact ih hrest (hid.imp_right fun hnone other hother => hnone other (List.mem_cons_of_mem _ hother))

/-- A later writer changes nothing before its id. -/
theorem rowAsOf_extendChain_of_lt (h : Contiguous chain) (hversion : version.txidMin = id) (hlt : txid < id) :
    rowAsOf txid (extendChain id version chain) = rowAsOf txid chain := by
  obtain ⟨prior, latest, rfl, hopen⟩ := h.concat
  have hnew : isVersionVisible version txid ∅ = false :=
    Bool.eq_false_iff.mpr fun hsees => by
      have hle := (isVersionVisible_empty_iff.mp hsees).1
      omega
  have hclosed : isVersionVisible { latest with txidMax := id } txid ∅ = isVersionVisible latest txid ∅ := by
    apply Bool.eq_iff_iff.mpr
    rw [isVersionVisible_empty_iff, isVersionVisible_empty_iff]
    exact ⟨fun hsees => ⟨hsees.1, .inl hopen⟩, fun hsees => ⟨hsees.1, .inr hlt⟩⟩
  rw [extendChain, closeLatest_concat]
  unfold rowAsOf latestVisible selectVersion
  rw [List.reverse_append, List.reverse_append, List.reverse_append]
  simp only [List.reverse_singleton, List.singleton_append, List.find?_cons, hnew, hclosed]
  cases isVersionVisible latest txid ∅ with
  | false => rfl
  | true =>
      obtain ⟨minimum, maximum, row, deleted⟩ := latest
      cases deleted <;> rfl

/-- From its id on a writer's version is the row. -/
theorem rowAsOf_extendChain_of_le (hversion : version.txidMin = id) (hopen : version.txidMax = u64Max) (hle : id ≤ txid) :
    rowAsOf txid (extendChain id version chain) = if version.isDeleted then none else some version.row := by
  have hnew : isVersionVisible version txid ∅ = true :=
    isVersionVisible_empty_iff.mpr ⟨hversion.symm ▸ hle, .inl hopen⟩
  rw [extendChain]
  unfold rowAsOf latestVisible selectVersion
  rw [List.reverse_append]
  simp only [List.reverse_singleton, List.singleton_append, List.find?_cons, hnew]
  cases hdeleted : version.isDeleted <;> simp [hdeleted]

theorem rowAsOf_single (hversion : version.txidMin = id) (hopen : version.txidMax = u64Max) :
    rowAsOf txid [version] = if txid < id ∨ version.isDeleted then none else some version.row := by
  have hsees : isVersionVisible version txid ∅ = decide (id ≤ txid) := by
    apply Bool.eq_iff_iff.mpr
    rw [isVersionVisible_empty_iff, hversion, decide_eq_true_eq]
    exact and_iff_left (.inl hopen)
  unfold rowAsOf latestVisible selectVersion
  rw [List.reverse_singleton, List.find?_cons, hsees]
  rcases Nat.lt_or_ge txid id with hlt | hge
  · simp [hlt, Nat.not_le.mpr hlt]
  · cases hdeleted : version.isDeleted <;> simp [hdeleted, hge, Nat.not_lt.mpr hge]

end Contiguous

/-- The row at each index of a table, none where it has been deleted. -/
abbrev TableState := List (Option Row)

namespace TableState

/-- The rows there are, in the order of their indices. -/
def pairs (state : TableState) : List (Nat × Row) := state.zipIdx.filterMap fun (row, idx) => row.map (idx, ·)

/-- What a write does. -/
def apply (state : TableState) (entry : WriteEntry) : TableState :=
  match entry.operation with
  | .insert row => state ++ [some row]
  | .update row => state.set entry.rowIdx (some row)
  | .delete => state.set entry.rowIdx none

/-- The state of a table after some transactions. -/
def after (name : String) (txs : List Transaction) : TableState :=
  txs.foldl (fun state tx => (tx.entriesOf name).foldl apply state) []

theorem after_concat (name : String) (txs : List Transaction) (tx : Transaction) :
    after name (txs ++ [tx]) = (tx.entriesOf name).foldl apply (after name txs) := List.foldl_append

end TableState

/-- The entry adds a row. -/
def WriteEntry.inserts (entry : WriteEntry) : Bool :=
  match entry.operation with
  | .insert _ => true
  | .update _ | .delete => false

/-- The writes of the executor to a table: new rows one after the other behind its end, and at most one update or
deletion for a row, of a row that is there. -/
structure ExecutorShaped (state : TableState) (entries : List WriteEntry) : Prop where
  appended : (entries.filter WriteEntry.inserts).map (·.rowIdx) =
    List.range' state.length (entries.countP WriteEntry.inserts)
  once : ((entries.filter fun entry => !entry.inserts).map (·.rowIdx)).Nodup
  live : ∀ entry ∈ entries, entry.inserts = false → state[entry.rowIdx]?.join.isSome = true

instance (state : TableState) (entries : List WriteEntry) : Decidable (ExecutorShaped state entries) :=
  decidable_of_iff (_ ∧ _ ∧ _) ⟨fun h => ⟨h.1, h.2.1, h.2.2⟩, fun h => ⟨h.appended, h.once, h.live⟩⟩

/-- The entries of a list that numbers its elements, selected by the element. -/
theorem filterMap_zipIdx {α β : Type} {pick : α → Option β} {list : List α} {offset count : Nat} {row : Nat → Option β}
    (hrow : ∀ idx, row (offset + idx) = list[idx]?.bind pick) (hcount : list.length ≤ count) :
    ((list.zipIdx offset).filterMap fun (element, idx) => (pick element).map (idx, ·)) =
      (List.range' offset count).filterMap fun idx => (row idx).map (idx, ·) := by
  induction list generalizing offset count with
  | nil =>
      symm
      apply List.filterMap_eq_nil_iff.mpr
      intro idx hidx
      obtain ⟨position, -, rfl⟩ := List.mem_range'.mp hidx
      rw [Nat.one_mul, hrow]
      rfl
  | cons element rest ih =>
      obtain ⟨count, rfl⟩ := Nat.exists_eq_add_of_lt (Nat.lt_of_lt_of_le (Nat.succ_pos _) hcount)
      rw [Nat.zero_add, List.zipIdx_cons, List.range'_succ, List.filterMap_cons, List.filterMap_cons]
      have hfirst : row offset = pick element := hrow 0
      have hrest := @ih (offset + 1) count (fun idx => by
        rw [Nat.add_assoc, Nat.add_comm 1]
        exact hrow (idx + 1)) (by simpa using hcount)
      rw [hfirst, hrest]

/-- A scan lists the table that its chains hold at the id. -/
theorem scanVisible_eq_pairs {table : Table} {txid : Nat} {state : TableState}
    (h : ∀ idx : Nat, table.versionChains[idx]?.bind (rowAsOf txid) = state[idx]?.join) :
    table.scanVisible txid ∅ = state.pairs := by
  have hscan := @filterMap_zipIdx _ _ (rowAsOf txid) table.versionChains 0
    (max table.versionChains.length state.length) (fun idx => table.versionChains[idx]?.bind (rowAsOf txid))
    (fun idx => by rw [Nat.zero_add]) (le_max_left _ _)
  have hpairs := @filterMap_zipIdx _ _ id state 0 (max table.versionChains.length state.length)
    (fun idx => table.versionChains[idx]?.bind (rowAsOf txid)) (fun idx => by
      rw [Nat.zero_add, h]
      rfl) (le_max_right _ _)
  rw [TableState.pairs]
  refine Eq.trans ?_ (hscan.trans hpairs.symm)
  apply List.filterMap_congr
  rintro ⟨chain, idx⟩ hentry
  exact (Option.map_map _ _ _).symm

/-! ### The writes of a transaction -/

/-- The chains of a table while a transaction writes: as before at all earlier ids, the table with the writes so far from
its own id on. -/
structure Tracks (id : Nat) (old chains : List Chain) (state : TableState) : Prop where
  length : chains.length = state.length
  contiguous : ∀ chain ∈ chains, Contiguous chain
  creators : ∀ chain ∈ chains, ∀ version ∈ chain, version.txidMin ≤ id
  past : ∀ txid < id, ∀ idx : Nat, chains[idx]?.bind (rowAsOf txid) = old[idx]?.bind (rowAsOf txid)
  now : ∀ txid, id ≤ txid → ∀ idx : Nat, chains[idx]?.bind (rowAsOf txid) = state[idx]?.join

section Tracks

variable {id : Nat} {old chains : List Chain} {state : TableState} {version : RowVersion} {rowIdx : Nat}

theorem Tracks.append (h : Tracks id old chains state) (hrow : rowIdx = chains.length) (hversion : version.txidMin = id)
    (hopen : version.txidMax = u64Max) (hlive : version.isDeleted = false) :
    Tracks id old (placeVersion id chains (rowIdx, version)) (state ++ [some version.row]) := by
  have hend := hrow.symm.le
  have hplaced := @placeVersion_of_le id chains rowIdx version hend
  rw [hplaced]
  refine ⟨?_, ?_, ?_, ?_, ?_⟩
  · rw [List.length_append, List.length_append, h.length]
    rfl
  · intro chain hchain
    rcases List.mem_append.mp hchain with hbefore | hnew
    · exact h.contiguous chain hbefore
    · rw [List.mem_singleton.mp hnew]
      exact hopen
  · intro chain hchain other hother
    rcases List.mem_append.mp hchain with hbefore | hnew
    · exact h.creators chain hbefore other hother
    · rw [List.mem_singleton.mp hnew] at hother
      rw [List.mem_singleton.mp hother, hversion]
  · intro txid hlt idx
    rw [← h.past txid hlt idx]
    rcases Nat.lt_trichotomy idx chains.length with hidx | rfl | hidx
    · rw [List.getElem?_append_left hidx]
    · rw [List.getElem?_concat_length, List.getElem?_eq_none le_rfl]
      show rowAsOf txid [version] = none
      rw [rowAsOf_single hversion hopen, if_pos (.inl hlt)]
    · rw [List.getElem?_eq_none (by simp; omega), List.getElem?_eq_none (by omega)]
  · intro txid hle idx
    rcases Nat.lt_trichotomy idx chains.length with hidx | rfl | hidx
    · rw [List.getElem?_append_left hidx, List.getElem?_append_left (h.length ▸ hidx)]
      exact h.now txid hle idx
    · rw [List.getElem?_concat_length, h.length, List.getElem?_concat_length]
      show rowAsOf txid [version] = some version.row
      rw [rowAsOf_single hversion hopen, if_neg (by simp [hlive, Nat.not_lt.mpr hle])]
    · rw [List.getElem?_eq_none (by simp; omega), List.getElem?_eq_none (by simp; have := h.length; omega)]
      rfl

theorem Tracks.extend (h : Tracks id old chains state) (hrow : rowIdx < chains.length) (hversion : version.txidMin = id)
    (hopen : version.txidMax = u64Max) :
    Tracks id old (placeVersion id chains (rowIdx, version))
      (state.set rowIdx (if version.isDeleted then none else some version.row)) := by
  have hmem : chains[rowIdx] ∈ chains := List.getElem_mem hrow
  have hother {idx : Nat} (hne : idx ≠ rowIdx) : (placeVersion id chains (rowIdx, version))[idx]? = chains[idx]? := by
    rw [placeVersion_of_lt hrow, List.getElem?_modify_ne _ _ (Ne.symm hne)]
  refine ⟨?_, ?_, ?_, ?_, ?_⟩
  · rw [placeVersion_of_lt hrow, List.length_modify, List.length_set]
    exact h.length
  · intro chain hchain
    rcases mem_placeVersion hchain with hbefore | ⟨before, hbefore, rfl⟩ | rfl
    · exact h.contiguous chain hbefore
    · exact (h.contiguous before hbefore).extend (h.creators before hbefore) hversion hopen
    · exact hopen
  · intro chain hchain other hmember
    rcases mem_placeVersion hchain with hbefore | ⟨before, hbefore, rfl⟩ | rfl
    · exact h.creators chain hbefore other hmember
    · obtain ⟨prior, latest, rfl, -⟩ := (h.contiguous before hbefore).concat
      rw [extendChain, closeLatest_concat] at hmember
      rcases List.mem_append.mp hmember with hclosed | hnew
      · rcases List.mem_append.mp hclosed with hprior | hlatest
        · exact h.creators _ hbefore other (List.mem_append_left _ hprior)
        · rw [List.mem_singleton.mp hlatest]
          exact h.creators _ hbefore latest (List.mem_append_right _ (List.mem_singleton_self _))
      · rw [List.mem_singleton.mp hnew, hversion]
    · rw [List.mem_singleton.mp hmember, hversion]
  · intro txid hlt idx
    rw [← h.past txid hlt idx]
    by_cases hidx : idx = rowIdx
    · subst hidx
      rw [getElem?_placeVersion_self hrow, List.getElem?_eq_getElem hrow]
      exact rowAsOf_extendChain_of_lt (h.contiguous _ hmem) hversion hlt
    · rw [hother hidx]
  · intro txid hle idx
    by_cases hidx : idx = rowIdx
    · subst hidx
      rw [getElem?_placeVersion_self hrow, List.getElem?_set_self (h.length ▸ hrow)]
      exact rowAsOf_extendChain_of_le hversion hopen hle
    · rw [hother hidx, List.getElem?_set_ne (Ne.symm hidx)]
      exact h.now txid hle idx

end Tracks

/-- Entry after entry of an executor-shaped write set. -/
theorem Tracks.placeAll {id base : Nat} {tables : String → Option Table} {name : String} {table : Table}
    (htable : tables name = some table) (hbase : table.versionChains.length = base)
    (hold : ∀ chain ∈ table.versionChains, Contiguous chain) {entries : List WriteEntry} {chains : List Chain}
    {state : TableState} (h : Tracks id table.versionChains chains state) (hlength : base ≤ chains.length)
    (hname : ∀ entry ∈ entries, entry.tableName = name)
    (happended : (entries.filter WriteEntry.inserts).map (·.rowIdx) =
      List.range' chains.length (entries.countP WriteEntry.inserts))
    (hlive : ∀ entry ∈ entries, entry.inserts = false → entry.rowIdx < base) :
    Tracks id table.versionChains (HelionDb.placeAll id chains (entries.filterMap (entryVersion id tables)))
      (entries.foldl TableState.apply state) := by
  induction entries generalizing chains state with
  | nil => exact h
  | cons entry rest ih =>
      obtain ⟨hfirst, hothers⟩ := List.forall_mem_cons.mp hname
      obtain ⟨hliveFirst, hliveRest⟩ := List.forall_mem_cons.mp hlive
      rw [placeAll_filterMap_cons, List.foldl_cons]
      have hplaced {version : RowVersion} (hversion : entryVersion id tables entry = some (entry.rowIdx, version)) :
          placeEntry id tables chains entry = placeVersion id chains (entry.rowIdx, version) := by
        rw [placeEntry, hversion]
        rfl
      -- An update and a deletion put a version behind the latest one of the row.
      have hchanged {version : RowVersion} (hinserts : entry.inserts = false)
          (hversion : entryVersion id tables entry = some (entry.rowIdx, version))
          (hstate : state.apply entry = state.set entry.rowIdx (if version.isDeleted then none else some version.row)) :
          Tracks id table.versionChains
            (HelionDb.placeAll id (placeEntry id tables chains entry) (rest.filterMap (entryVersion id tables)))
            (rest.foldl TableState.apply (state.apply entry)) := by
        have hrow : entry.rowIdx < chains.length := (hliveFirst hinserts).trans_le hlength
        obtain ⟨-, hmin, hopen⟩ := entryVersion_some hversion
        have hsame : (placeVersion id chains (entry.rowIdx, version)).length = chains.length := by
          rw [placeVersion_of_lt hrow, List.length_modify]
        rw [List.filter_cons_of_neg (by simp [hinserts]), List.countP_cons_of_neg (by simp [hinserts])] at happended
        rw [hplaced hversion, hstate]
        apply ih (h.extend hrow hmin hopen) _ hothers _ hliveRest
        · exact hsame ▸ hlength
        · rw [hsame]
          exact happended
      cases hoperation : entry.operation with
      | insert row =>
          have hinserts : entry.inserts = true := by rw [WriteEntry.inserts, hoperation]
          have hversion : entryVersion id tables entry = some (entry.rowIdx, .newInsert id row) := by
            rw [entryVersion, hoperation]
          rw [List.filter_cons_of_pos hinserts, List.countP_cons_of_pos hinserts, List.range'_succ, List.map_cons] at happended
          obtain ⟨hrow, htail⟩ := List.cons.inj happended
          have hgrown : (placeVersion id chains (entry.rowIdx, .newInsert id row)).length = chains.length + 1 := by
            rw [placeVersion_of_le hrow.symm.le, List.length_append]
            rfl
          have hstate : state.apply entry = state ++ [some row] := by rw [TableState.apply, hoperation]
          rw [hplaced hversion, hstate]
          apply ih (@Tracks.append _ _ _ _ (.newInsert id row) _ h hrow rfl rfl rfl) _ hothers _ hliveRest
          · rw [hgrown]
            omega
          · rw [hgrown]
            exact htail
      | update row =>
          apply @hchanged (.newUpdate id row)
          · rw [WriteEntry.inserts, hoperation]
          · rw [entryVersion, hoperation]
          · rw [TableState.apply, hoperation]
            rfl
      | delete =>
          have hinserts : entry.inserts = false := by rw [WriteEntry.inserts, hoperation]
          have hrow : entry.rowIdx < table.versionChains.length := (hliveFirst hinserts).trans_eq hbase.symm
          obtain ⟨prior, latest, hchain, -⟩ := (hold _ (List.getElem_mem hrow)).concat
          apply @hchanged (.newDelete id latest.row) hinserts
          · exact entryVersion_delete hoperation (hfirst ▸ htable) hrow hchain
          · rw [TableState.apply, hoperation]
            rfl

/-- The tables with the chains that `apply_write_set` computes. -/
def installAll (tables : String → Option Table) (tx : Transaction) (name : String) : Option Table :=
  match applyWriteSet tx tables name with
  | none => tables name
  | some chains => (tables name).map fun table => { table with versionChains := chains }

/-- The chains of a table hold, at each id, what the transactions up to it have made of the table. -/
structure Records (txs : List Transaction) (name : String) (chains : List Chain) : Prop where
  length : chains.length = (TableState.after name txs).length
  contiguous : ∀ chain ∈ chains, Contiguous chain
  creators : ∀ id, (∀ tx ∈ txs, tx.txId ≤ id) → ∀ chain ∈ chains, ∀ version ∈ chain, version.txidMin ≤ id
  rows : ∀ txid, ∀ idx : Nat, chains[idx]?.bind (rowAsOf txid) =
    (TableState.after name (txs.filter fun tx => tx.txId ≤ txid))[idx]?.join

theorem Records.concat {txs : List Transaction} {tables : String → Option Table} {name : String} {table : Table}
    {tx : Transaction} (h : Records txs name table.versionChains) (htable : tables name = some table)
    (hlater : ∀ earlier ∈ txs, earlier.txId < tx.txId)
    (hshaped : ExecutorShaped (TableState.after name txs) (tx.entriesOf name)) :
    Records (txs ++ [tx]) name (placeAll tx.txId table.versionChains (tableChanges tx tables name)) := by
  have hall {txid : Nat} (hle : tx.txId ≤ txid) : (txs.filter fun tx => tx.txId ≤ txid) = txs :=
    List.filter_eq_self.mpr fun earlier hearlier => decide_eq_true ((hlater earlier hearlier).le.trans hle)
  have hstart : Tracks tx.txId table.versionChains table.versionChains (TableState.after name txs) := by
    refine ⟨h.length, h.contiguous, h.creators _ fun earlier hearlier => (hlater earlier hearlier).le, fun _ _ _ => rfl, ?_⟩
    intro txid hle idx
    rw [h.rows, hall hle]
  have hend : Tracks tx.txId table.versionChains
      (placeAll tx.txId table.versionChains (tableChanges tx tables name)) (TableState.after name (txs ++ [tx])) := by
    rw [TableState.after_concat]
    apply hstart.placeAll htable rfl h.contiguous le_rfl
    · exact fun entry hentry => (Transaction.mem_entriesOf.mp hentry).2
    · rw [h.length]
      exact hshaped.appended
    · intro entry hentry hinserts
      rw [h.length]
      by_contra hlength
      have hlive := hshaped.live entry hentry hinserts
      rw [List.getElem?_eq_none (Nat.not_lt.mp hlength)] at hlive
      cases hlive
  refine ⟨hend.length, hend.contiguous, ?_, ?_⟩
  · intro id hid chain hchain version hversion
    exact (hend.creators chain hchain version hversion).trans (hid tx (List.mem_append_right _ (List.mem_singleton_self _)))
  · intro txid idx
    rw [List.filter_append]
    rcases Nat.lt_or_ge txid tx.txId with hlt | hge
    · rw [hend.past txid hlt, h.rows, List.filter_singleton, decide_eq_false (Nat.not_le.mpr hlt)]
      rw [cond_false, List.append_nil]
    · rw [hend.now txid hge, hall hge, List.filter_singleton, decide_eq_true hge]
      rfl

/-- After a serial run of executor-shaped transactions, a scan at an id returns the table that the transactions up to
the id have made, and sees at most one version of each row, unless it is the last id, which also stands for no end, and
has been given to a writer. -/
theorem scan_as_of {tables : String → Option Table} {txs : List Transaction} {name : String} {table : Table}
    (hstart : tables name = some table) (hempty : table.versionChains = [])
    (hserial : (txs.map Transaction.txId).Pairwise (· < ·))
    (hshaped : ∀ before tx later, txs = before ++ tx :: later →
      ExecutorShaped (TableState.after name before) (tx.entriesOf name)) :
    ∃ final, txs.foldl installAll tables name = some final ∧ ∀ txid,
      final.scanVisible txid ∅ = (TableState.after name (txs.filter fun tx => tx.txId ≤ txid)).pairs ∧
        ((txid < u64Max ∨ ∀ tx ∈ txs, tx.txId < u64Max) → ∀ chain ∈ final.versionChains,
          (chain.filter fun version => isVersionVisible version txid ∅).length ≤ 1) := by
  have hrecords : ∃ final, txs.foldl installAll tables name = some final ∧ Records txs name final.versionChains := by
    induction txs using List.reverseRecOn with
    | nil =>
        refine ⟨table, hstart, ?_⟩
        rw [hempty]
        exact ⟨rfl, nofun, nofun, fun _ _ => rfl⟩
    | append_singleton txs tx ih =>
        rw [List.map_append, List.pairwise_append] at hserial
        obtain ⟨final, hfinal, hrecords⟩ := ih hserial.1 fun before earlier later hsplit =>
          hshaped before earlier (later ++ [tx]) (by rw [hsplit, List.append_assoc]; rfl)
        have hnext := hrecords.concat hfinal
          (fun earlier hearlier => hserial.2.2 _ (List.mem_map_of_mem hearlier) _ (List.mem_singleton_self _))
          (hshaped txs tx [] rfl)
        rw [List.foldl_concat, installAll, applyWriteSet]
        by_cases hnamed : name ∈ tx.tableNames
        · rw [if_pos hnamed, hfinal]
          exact ⟨_, rfl, hnext⟩
        · rw [if_neg hnamed]
          refine ⟨final, hfinal, ?_⟩
          rw [tableChanges, Transaction.entriesOf_eq_nil hnamed] at hnext
          exact hnext
  obtain ⟨final, hfinal, hrecords⟩ := hrecords
  refine ⟨final, hfinal, fun txid => ⟨?_, fun hid chain hchain => ?_⟩⟩
  · exact scanVisible_eq_pairs fun idx => hrecords.rows txid idx
  · apply (hrecords.contiguous chain hchain).visible_le_one
    refine hid.imp_right fun hids version hversion => ?_
    have hle :=
      hrecords.creators (u64Max - 1) (fun tx htx => Nat.le_sub_one_of_lt (hids tx htx)) chain hchain version hversion
    unfold u64Max at hle ⊢
    omega

section

/-- One table without rows. -/
def noRows (name : String) : Option Table := if name = "t" then some (.new "t" [.new "a" .integer]) else none

/-- A transaction on the table. -/
def writesTo (txId : Nat) (writes : List (Nat × WriteOp)) : Transaction :=
  { Transaction.new txId { txid := txId, active := ∅ } with
    writeSet := writes.map fun (rowIdx, operation) =>
      { tableName := "t", rowIdx, oldTxidMax := u64Max, operation } }

/-- Two rows come, one changes, the other goes. -/
def threeWrites : List Transaction :=
  [writesTo 3 [(0, .insert ⟨[.integer 1]⟩), (1, .insert ⟨[.integer 2]⟩)], writesTo 5 [(0, .update ⟨[.integer 9]⟩)],
    writesTo 8 [(1, .delete)]]

theorem scan_as_of_six :
    ∃ final, threeWrites.foldl installAll noRows "t" = some final ∧
      final.scanVisible 6 ∅ = [(0, ⟨[.integer 9]⟩), (1, ⟨[.integer 2]⟩)] := by
  have hshaped : ∀ before tx later, threeWrites = before ++ tx :: later →
      ExecutorShaped (TableState.after "t" before) (tx.entriesOf "t") := by
    intro before tx later hsplit
    match before with
    | [] => cases hsplit; decide
    | [_] => cases hsplit; decide
    | [_, _] => cases hsplit; decide
    | _ :: _ :: _ :: rest => cases rest <;> cases hsplit
  obtain ⟨final, hfinal, hscan⟩ := @scan_as_of noRows threeWrites "t" _ rfl rfl (by decide) hshaped
  exact ⟨final, hfinal, (hscan 6).1⟩

/-- A writer with the last id leaves the version that it replaces open. -/
theorem not_one_version_as_of :
    ¬∀ (tables : String → Option Table) (txs : List Transaction) (name : String) (table : Table),
      tables name = some table → table.versionChains = [] → (txs.map Transaction.txId).Pairwise (· < ·) →
      (∀ before tx later, txs = before ++ tx :: later →
        ExecutorShaped (TableState.after name before) (tx.entriesOf name)) →
      ∀ final, txs.foldl installAll tables name = some final → ∀ txid ≤ u64Max, ∀ chain ∈ final.versionChains,
        (chain.filter fun version => isVersionVisible version txid ∅).length ≤ 1 := by
  intro h
  have hshaped : ∀ before tx later,
      [writesTo 1 [(0, .insert ⟨[.integer 1]⟩)], writesTo u64Max [(0, .update ⟨[.integer 2]⟩)]] = before ++ tx :: later →
      ExecutorShaped (TableState.after "t" before) (tx.entriesOf "t") := by
    intro before tx later hsplit
    match before with
    | [] => cases hsplit; decide
    | [_] => cases hsplit; decide
    | _ :: _ :: rest => cases rest <;> cases hsplit
  have hone := h noRows _ "t" _ rfl rfl (by decide) hshaped _ rfl u64Max le_rfl _ List.mem_cons_self
  exact absurd hone (by decide)

end

end HelionDb
