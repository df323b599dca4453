import HelionDb.RecoveryChains
import HelionDb.TracedReplay

/-! Replay of a log in which one insertion is passed over. Its row is missing, the rows behind it are one place further up,
and what is written to them by place finds another row or none. -/

namespace HelionDb

/-- The row and the deletion mark of the last version. -/
def contentOf (chain : Chain) : Option (Row × Bool) := chain.getLast?.map fun version => (version.row, version.isDeleted)

namespace Traced

/-- The log up to some records behind one at hand. -/
def whole (before : List WalRecord) (lost : WalRecord) (after : List WalRecord) : Traced :=
  ((start.run 0 before).step before.length lost).run (before.length + 1) after

/-- The same log where this one is passed over. -/
def skipping (before after : List WalRecord) : Traced := (start.run 0 before).run (before.length + 1) after

/-- The tables agree in a name. -/
structure SameAt (name : String) (whole skipping : Traced) : Prop where
  table : findTable name skipping.tables = findTable name whole.tables
  rows : skipping.rows name = whole.rows name

/-- A table is without one row, and the rows behind it are as they were opened. -/
structure Shifted (name : String) (lost : Nat) (opened : Nat × Nat) (whole skipping : Traced) (table : Table) : Prop where
  found : findTable name whole.tables = some table
  left : findTable name skipping.tables = some (table.without lost)
  place : lost < table.versionChains.length
  behind : OpenedBehind lost table.versionChains
  opened : (whole.rows name)[lost]? = some opened
  rows : skipping.rows name = (whole.rows name).eraseIdx lost

section

variable {name : String} {lost position : Nat} {opened : Nat × Nat} {whole skipping : Traced} {table : Table} {record : WalRecord}

theorem SameAt.chainsIn (h : SameAt name whole skipping) : chainsIn name skipping.tables = chainsIn name whole.tables := by
  rw [HelionDb.chainsIn, HelionDb.chainsIn, h.table]

/-- Where the tables agree in a name, every row has its contents. -/
theorem SameAt.stays (h : SameAt name whole skipping) {place : Nat} (hopened : (whole.rows name)[place]? = some opened) :
    ∃ found : Nat, (skipping.rows name)[found]? = some opened ∧
      (HelionDb.chainsIn name skipping.tables)[found]?.bind contentOf =
        (HelionDb.chainsIn name whole.tables)[place]?.bind contentOf :=
  ⟨place, by rw [h.rows, hopened], by rw [h.chainsIn]⟩

/-- What has opened the rows of a name after a record depends on this name alone. -/
theorem rows_step_congr {left right : Traced} (hrows : left.rows name = right.rows name)
    (hbefore : (HelionDb.chainsIn name left.tables).length = (HelionDb.chainsIn name right.tables).length)
    (hafter : (HelionDb.chainsIn name (applyWalRecord left.tables record)).length =
      (HelionDb.chainsIn name (applyWalRecord right.tables record)).length) :
    (left.step position record).rows name = (right.step position record).rows name := by
  cases record <;> simp only [step, hrows, hbefore, hafter]

theorem SameAt.step (h : SameAt name whole skipping) (position : Nat) (record : WalRecord) :
    SameAt name (whole.step position record) (skipping.step position record) := by
  have htable : findTable name (applyWalRecord skipping.tables record) = findTable name (applyWalRecord whole.tables record) := by
    rw [findTable_applyWalRecord, findTable_applyWalRecord, h.table]
  refine ⟨htable, rows_step_congr h.rows (congrArg List.length h.chainsIn) ?_⟩
  rw [HelionDb.chainsIn, HelionDb.chainsIn, htable]

/-- After a table is dropped, or a checkpoint, nothing is left of what was there. -/
theorem SameAt.of_resets (hreset : record.Resets name) :
    SameAt name (whole.step position record) (skipping.step position record) := by
  cases record with
  | dropTable dropped =>
      have hname : dropped = name := hreset
      constructor
      · dsimp only [Traced.step]
        rw [findTable_applyWalRecord, findTable_applyWalRecord, WalRecord.effect, WalRecord.effect, if_pos hname,
          if_pos hname]
      · dsimp only [Traced.step]
        rw [if_pos hname, if_pos hname]
  | checkpoint count images => exact ⟨rfl, rfl⟩
  | createTable | insert | update | delete | commit | createUser | dropUser | grant | revoke => exact hreset.elim

theorem Shifted.chainsIn_whole (h : Shifted name lost opened whole skipping table) :
    chainsIn name whole.tables = table.versionChains := by
  rw [chainsIn, h.found]
  rfl

theorem Shifted.chainsIn_skipping (h : Shifted name lost opened whole skipping table) :
    chainsIn name skipping.tables = withoutRow lost table.versionChains := by
  rw [chainsIn, h.left]
  rfl

/-- A record that addresses no row from the lost one on but the last. -/
theorem Shifted.step (h : Shifted name lost opened whole skipping table) (hsound : whole.Sound position)
    (hreset : ¬ record.Resets name)
    (hnear : ∀ rowIdx, record.target? = some (name, rowIdx) → rowIdx < lost ∨ table.versionChains.length ≤ rowIdx + 1) :
    ∃ next, Shifted name lost opened (whole.step position record) (skipping.step position record) next := by
  obtain ⟨next, hnext, hlength, hbehind⟩ := Table.openedBehind_effect h.behind hreset
  have hwhole : findTable name (applyWalRecord whole.tables record) = some next := by
    rw [findTable_applyWalRecord, h.found, hnext]
  have hskipping : findTable name (applyWalRecord skipping.tables record) = some (next.without lost) := by
    rw [findTable_applyWalRecord, h.left, Table.effect_without h.place h.behind hreset hnear, hnext]
    rfl
  have hplace : lost < next.versionChains.length := h.place.trans_le hlength
  have hbefore : (chainsIn name skipping.tables).length + 1 = (chainsIn name whole.tables).length := by
    rw [h.chainsIn_skipping, h.chainsIn_whole, length_withoutRow h.place]
  have hafter : (chainsIn name (applyWalRecord skipping.tables record)).length + 1 =
      (chainsIn name (applyWalRecord whole.tables record)).length := by
    rw [chainsIn, chainsIn, hwhole, hskipping]
    exact length_withoutRow hplace
  have hrows : lost < (whole.rows name).length := by
    rw [hsound.length, h.chainsIn_whole]
    exact h.place
  have hsame : skipping.rows name = (whole.rows name).eraseIdx lost := h.rows
  suffices hopened : ((whole.step position record).rows name)[lost]? = some opened ∧
      (skipping.step position record).rows name = ((whole.step position record).rows name).eraseIdx lost from
    ⟨next, hwhole, hskipping, hplace, hbehind, hopened.1, hopened.2⟩
  cases record with
  | insert changed row txid =>
      dsimp only [Traced.step]
      by_cases hadded : changed = name ∧ (chainsIn name (applyWalRecord whole.tables (.insert changed row txid))).length ≠
          (chainsIn name whole.tables).length
      · rw [if_pos hadded, if_pos ⟨hadded.1, by omega⟩, hsame, List.eraseIdx_append_of_lt_length hrows,
          List.getElem?_append_left hrows]
        exact ⟨h.opened, rfl⟩
      · rw [if_neg hadded, if_neg fun hother => hadded ⟨hother.1, by omega⟩]
        exact ⟨h.opened, hsame⟩
  | dropTable dropped =>
      have hname : ¬dropped = name := hreset
      dsimp only [Traced.step]
      rw [if_neg hname, if_neg hname]
      exact ⟨h.opened, hsame⟩
  | checkpoint count images => exact absurd trivial hreset
  | createTable | update | delete | commit | createUser | dropUser | grant | revoke => exact ⟨h.opened, hsame⟩

/-! ### Records that address a row -/

/-- A record that addresses no row of its table changes nothing. -/
theorem applyWalRecord_of_le {tables : List Table} {rowIdx : Nat} (htarget : record.target? = some (name, rowIdx))
    (hrow : (HelionDb.chainsIn name tables).length ≤ rowIdx) : applyWalRecord tables record = tables := by
  have hlength : ∀ found, findTable name tables = some found → found.versionChains.length ≤ rowIdx := by
    intro found hfound
    rw [HelionDb.chainsIn, hfound] at hrow
    exact hrow
  cases record with
  | update changed place newRow txid =>
      obtain ⟨rfl, rfl⟩ := Prod.mk.inj (Option.some.inj htarget)
      apply KeyedList.update_eq_self
      intro found hfound
      exact if_neg (Nat.not_lt.mpr (hlength found hfound))
  | delete changed place txid =>
      obtain ⟨rfl, rfl⟩ := Prod.mk.inj (Option.some.inj htarget)
      apply KeyedList.update_eq_self
      intro found hfound
      rw [Table.replayDelete, List.getElem?_eq_none (hlength found hfound)]
  | createTable | dropTable | insert | checkpoint | commit | createUser | dropUser | grant | revoke => cases htarget

/-- A record that addresses a row with versions adds one to it. -/
theorem applyWalRecord_ne {tables : List Table} {rowIdx : Nat} {chain : Chain}
    (htarget : record.target? = some (name, rowIdx)) (hchain : (HelionDb.chainsIn name tables)[rowIdx]? = some chain)
    (hne : chain ≠ []) : applyWalRecord tables record ≠ tables := by
  intro heq
  have hlookup := findTable_applyWalRecord name tables record
  rw [heq] at hlookup
  cases hfound : findTable name tables with
  | none =>
      rw [HelionDb.chainsIn, hfound] at hchain
      cases hchain
  | some found =>
      rw [HelionDb.chainsIn, hfound] at hchain
      have hrow : found.versionChains[rowIdx]? = some chain := hchain
      rw [hfound] at hlookup
      have hextended : ∀ txid version,
          ({ found with versionChains := found.versionChains.modify rowIdx (extendChain txid version) } : Table) ≠ found := by
        intro txid version hsame
        have hchains := congrArg (fun table : Table => table.versionChains[rowIdx]?.map List.length) hsame
        dsimp only at hchains
        rw [List.getElem?_modify_eq, hrow] at hchains
        simp [extendChain] at hchains
      cases record with
      | update changed place newRow txid =>
          obtain ⟨rfl, rfl⟩ := Prod.mk.inj (Option.some.inj htarget)
          rw [WalRecord.effect, if_pos rfl, Option.map_some, Table.replayUpdate_eq, Option.some.injEq] at hlookup
          exact hextended _ _ hlookup.symm
      | delete changed place txid =>
          obtain ⟨rfl, rfl⟩ := Prod.mk.inj (Option.some.inj htarget)
          obtain ⟨latest, hlatest⟩ := Option.ne_none_iff_exists'.mp (mt List.getLast?_eq_none_iff.mp hne)
          rw [WalRecord.effect, if_pos rfl, Option.map_some, Table.replayDelete, hrow] at hlookup
          dsimp only at hlookup
          rw [hlatest, Option.some.injEq] at hlookup
          exact hextended _ _ hlookup.symm
      | createTable | dropTable | insert | checkpoint | commit | createUser | dropUser | grant | revoke => cases htarget

/-- A record finds the row that it was written for, or none, exactly where this is a row before the lost one or the last. -/
theorem Shifted.target_iff (h : Shifted name lost opened whole skipping table) (hsound : whole.Sound position) {rowIdx : Nat}
    (htarget : record.target? = some (name, rowIdx)) :
    (applyWalRecord skipping.tables record ≠ skipping.tables →
        (skipping.rows name)[rowIdx]? = (whole.rows name)[rowIdx]?) ↔
      rowIdx < lost ∨ table.versionChains.length ≤ rowIdx + 1 := by
  have hlength := length_withoutRow h.place
  have hrows : (whole.rows name).length = table.versionChains.length := by rw [hsound.length, h.chainsIn_whole]
  rw [h.rows]
  constructor
  · intro hfinds
    by_contra hneither
    have hbehind : lost ≤ rowIdx := by omega
    have hinside : rowIdx + 1 < table.versionChains.length := by omega
    have hfound := List.getElem?_eq_getElem hinside
    have hchain : (chainsIn name skipping.tables)[rowIdx]? = some (reopen (table.versionChains.get ⟨rowIdx + 1, hinside⟩)) := by
      rw [h.chainsIn_skipping, getElem?_withoutRow_of_le h.place hbehind, hfound]
      rfl
    have hopen := h.behind (rowIdx + 1) _ (by omega) hfound
    have happlied : applyWalRecord skipping.tables record ≠ skipping.tables := by
      apply applyWalRecord_ne htarget hchain
      simpa [reopen] using hopen
    have hsame := hfinds happlied
    rw [List.getElem?_eraseIdx_of_ge hbehind] at hsame
    have hnext : rowIdx + 1 < (whole.rows name).length := by omega
    exact absurd ((List.getElem?_inj hnext (hsound.nodup name)).mp hsame) (Nat.succ_ne_self rowIdx)
  · rintro (hbefore | hlast) happlied
    · exact List.getElem?_eraseIdx_of_lt hbefore
    · refine absurd (applyWalRecord_of_le htarget ?_) happlied
      rw [h.chainsIn_skipping]
      omega

theorem contentOf_reopen (chain : Chain) : contentOf (reopen chain) = contentOf (chain.take 1) := by
  cases chain <;> rfl

/-- All other rows have their contents exactly where those behind the lost one still have what they were opened with. -/
theorem Shifted.rows_iff (h : Shifted name lost opened whole skipping table) (hsound : whole.Sound position) :
    (∀ (place : Nat) (other : Nat × Nat), (whole.rows name)[place]? = some other → other ≠ opened →
        ∃ found : Nat, (skipping.rows name)[found]? = some other ∧
          (chainsIn name skipping.tables)[found]?.bind contentOf = (chainsIn name whole.tables)[place]?.bind contentOf) ↔
      ∀ (place : Nat) (chain : Chain), lost < place → table.versionChains[place]? = some chain → contentOf chain = contentOf (chain.take 1) := by
  have hrows : (whole.rows name).length = table.versionChains.length := by rw [hsound.length, h.chainsIn_whole]
  have hnodup := hsound.nodup name
  rw [h.chainsIn_whole, h.chainsIn_skipping, h.rows]
  constructor
  · intro hrecovered place chain hplace hchain
    have hinside : place < table.versionChains.length := (List.getElem?_eq_some_iff.mp hchain).1
    have hlisted : place < (whole.rows name).length := by omega
    obtain ⟨other, hother⟩ : ∃ other, (whole.rows name)[place]? = some other := ⟨_, List.getElem?_eq_getElem hlisted⟩
    have hne : other ≠ opened := by
      rintro rfl
      rw [← h.opened] at hother
      exact absurd ((List.getElem?_inj hlisted hnodup).mp hother) (Nat.ne_of_gt hplace)
    obtain ⟨found, hfound, hcontent⟩ := hrecovered place other hother hne
    obtain ⟨before, rfl⟩ := Nat.exists_eq_add_of_lt hplace
    have hmoved : ((whole.rows name).eraseIdx lost)[lost + before]? = ((whole.rows name).eraseIdx lost)[found]? := by
      rw [List.getElem?_eraseIdx_of_ge (by omega), hother, hfound]
    have hshort : ((whole.rows name).eraseIdx lost).length + 1 = (whole.rows name).length :=
      List.length_eraseIdx_add_one (by omega)
    have hinner : lost + before < ((whole.rows name).eraseIdx lost).length := by omega
    have hsame := (List.getElem?_inj hinner (hnodup.sublist (List.eraseIdx_sublist _ _))).mp hmoved
    rw [← hsame, getElem?_withoutRow_of_le h.place (by omega), hchain] at hcontent
    rw [← contentOf_reopen]
    exact hcontent.symm
  · intro hkept place other hother hne
    rcases Nat.lt_trichotomy place lost with hbefore | rfl | hbehind
    · refine ⟨place, ?_, ?_⟩
      · rw [List.getElem?_eraseIdx_of_lt hbefore, hother]
      · rw [getElem?_withoutRow_of_lt h.place hbefore]
    · rw [h.opened] at hother
      exact absurd (Option.some.inj hother).symm hne
    · obtain ⟨before, rfl⟩ := Nat.exists_eq_add_of_lt hbehind
      refine ⟨lost + before, ?_, ?_⟩
      · rw [List.getElem?_eraseIdx_of_ge (by omega), hother]
      · rw [getElem?_withoutRow_of_le h.place (by omega)]
        cases hchain : table.versionChains[lost + before + 1]? with
        | none => rfl
        | some chain =>
            change contentOf (reopen chain) = contentOf chain
            rw [contentOf_reopen, hkept _ chain hbehind hchain]

section

variable {traced : Traced} {row : Row} {txid : Nat} {found : Table}

/-- An insertion that goes in opens a row behind the others. -/
theorem shifted_of_insert (hsound : traced.Sound position) (hfound : findTable name traced.tables = some found)
    (hvalid : found.validateRow row = .ok ()) (txid : Nat) :
    ∃ table, Shifted name found.versionChains.length (position, 0)
      (traced.step position (.insert name row txid)) traced table := by
  have hadded : found.replayInsert row txid =
      { found with versionChains := found.versionChains ++ [[.newInsert txid row]] } := by
    rw [Table.replayInsert, hvalid]
  have hwhole : findTable name (applyWalRecord traced.tables (.insert name row txid)) = some (found.replayInsert row txid) := by
    rw [findTable_applyWalRecord, hfound, WalRecord.effect, if_pos rfl]
    rfl
  have hchains : (found.replayInsert row txid).versionChains = found.versionChains ++ [[.newInsert txid row]] := by
    rw [hadded]
  have hrows : (traced.rows name).length = found.versionChains.length := by
    rw [hsound.length, chainsIn, hfound]
    rfl
  have hstep : (traced.step position (.insert name row txid)).rows name = traced.rows name ++ [(position, 0)] := by
    have hlonger : (chainsIn name (applyWalRecord traced.tables (.insert name row txid))).length ≠
        (chainsIn name traced.tables).length := by
      rw [chainsIn, chainsIn, hwhole, hfound, Option.map_some, Option.map_some, Option.getD_some, Option.getD_some,
        hchains, List.length_append]
      simp
    exact if_pos ⟨rfl, hlonger⟩
  refine ⟨found.replayInsert row txid, hwhole, ?_, ?_, ?_, ?_, ?_⟩
  · rw [hfound, Table.without, hchains, withoutRow, List.take_left, List.drop_eq_nil_of_le (by simp), List.map_nil,
      List.append_nil, hadded]
  · rw [hchains, List.length_append]
    exact Nat.lt_succ_self _
  · intro place chain hplace hchain
    rw [hchains, List.getElem?_eq_none (by simp; omega)] at hchain
    cases hchain
  · rw [hstep, ← hrows, List.getElem?_concat_length]
  · rw [hstep, ← hrows, List.eraseIdx_append_of_length_le le_rfl, Nat.sub_self]
    exact (List.append_nil _).symm

/-- An insertion changes no other table, and where it does not go in it changes none. -/
theorem sameAt_insert {other : String}
    (hout : other = name → ∀ found, findTable name traced.tables = some found → found.validateRow row ≠ .ok ()) :
    SameAt other (traced.step position (.insert name row txid)) traced := by
  have htable : findTable other (applyWalRecord traced.tables (.insert name row txid)) = findTable other traced.tables := by
    rw [findTable_applyWalRecord, WalRecord.effect]
    split
    · rename_i hname
      subst hname
      cases hfound : findTable name traced.tables with
      | none => rfl
      | some found =>
          rcases replayInsert_cases row txid found with ⟨hvalid, -⟩ | ⟨-, hkept⟩
          · exact absurd hvalid (hout rfl found hfound)
          · rw [Option.map_some, hkept]
    · rfl
  refine ⟨htable.symm, ?_⟩
  dsimp only [Traced.step]
  rw [if_neg]
  rintro ⟨-, hne⟩
  apply hne
  rw [chainsIn, chainsIn, htable]

end

end

section

variable {name : String} {before after done : List WalRecord} {lost : WalRecord}

theorem tables_whole (before : List WalRecord) (lost : WalRecord) (after : List WalRecord) :
    (whole before lost after).tables = replayRecords [] (before ++ lost :: after) := by
  have hrun : whole before lost after = start.run 0 (before ++ lost :: after) := by
    rw [run_append, Nat.zero_add]
    rfl
  rw [hrun, tables_run]
  rfl

theorem whole_concat (before : List WalRecord) (lost : WalRecord) (done : List WalRecord) (record : WalRecord) :
    whole before lost (done ++ [record]) = (whole before lost done).step (before.length + 1 + done.length) record :=
  run_append _ _ _ _

theorem skipping_concat (before done : List WalRecord) (record : WalRecord) :
    skipping before (done ++ [record]) = (skipping before done).step (before.length + 1 + done.length) record :=
  run_append _ _ _ _

theorem sound_before (before : List WalRecord) : (start.run 0 before).Sound before.length := by
  have hsound := sound_start.run before
  rwa [Nat.zero_add] at hsound

theorem sound_whole (before : List WalRecord) (lost : WalRecord) (after : List WalRecord) :
    (whole before lost after).Sound (before.length + 1 + after.length) :=
  ((sound_before before).step lost).run after

theorem SameAt.run (h : SameAt name (whole before lost []) (skipping before [])) (after : List WalRecord) :
    SameAt name (whole before lost after) (skipping before after) := by
  induction after using List.reverseRecOn with
  | nil => exact h
  | append_singleton done record ih =>
      rw [whole_concat, skipping_concat]
      exact ih.step _ record

end

end Traced

/-! ### Locality -/

/-- The loss of a record stays local: every other row has its contents, and a later update or deletion, where it changes
anything, changes the row that it was written for. -/
structure StaysLocal (before : List WalRecord) (lost : WalRecord) (after : List WalRecord) : Prop where
  rows : ∀ (name : String) (place : Nat) (opened : Nat × Nat),
    ((Traced.whole before lost after).rows name)[place]? = some opened → opened ≠ (before.length, 0) →
      ∃ found : Nat, ((Traced.skipping before after).rows name)[found]? = some opened ∧
        (chainsIn name (Traced.skipping before after).tables)[found]?.bind contentOf =
          (chainsIn name (Traced.whole before lost after).tables)[place]?.bind contentOf
  targets : ∀ done record rest name rowIdx, after = done ++ record :: rest → record.target? = some (name, rowIdx) →
    applyWalRecord (Traced.skipping before done).tables record ≠ (Traced.skipping before done).tables →
      ((Traced.skipping before done).rows name)[rowIdx]? = ((Traced.whole before lost done).rows name)[rowIdx]?

/-- The record addresses a row of the table before the lost one, or the last one of those there are, or none. -/
def Near (name : String) (lost rows : Nat) (record : WalRecord) : Prop :=
  ∀ rowIdx, record.target? = some (name, rowIdx) → rowIdx < lost ∨ rows ≤ rowIdx + 1

/-- Until the table is dropped or a checkpoint is taken, later updates and deletions leave alone the rows from the lost one
on, but for the last one at the time; and if neither comes, every row behind the lost one ends as it was inserted. -/
structure Harmless (before : List WalRecord) (name : String) (lost : WalRecord) (after : List WalRecord) (row : Nat) : Prop where
  targets : ∀ done record rest, after = done ++ record :: rest → (∀ earlier ∈ done, ¬ earlier.Resets name) →
    Near name row (chainsIn name (replayRecords [] (before ++ lost :: done))).length record
  rows : (∀ record ∈ after, ¬ record.Resets name) → ∀ (place : Nat) (chain : Chain), row < place →
    (chainsIn name (replayRecords [] (before ++ lost :: after)))[place]? = some chain →
      contentOf chain = contentOf (chain.take 1)

section

variable {before after : List WalRecord} {name : String} {row : Row} {txid : Nat} {found : Table}

open Traced

/-- Without a reset the table is shifted, as long as the records are near; after one it is the same again. -/
theorem shifted_of_near (hfound : findTable name (replayRecords [] before) = some found)
    (hvalid : found.validateRow row = .ok ())
    (hnear : ∀ done record rest, after = done ++ record :: rest → (∀ earlier ∈ done, ¬ earlier.Resets name) →
      Near name found.versionChains.length
        (chainsIn name (replayRecords [] (before ++ .insert name row txid :: done))).length record) :
    ((∀ record ∈ after, ¬ record.Resets name) → ∃ table, Shifted name found.versionChains.length (before.length, 0)
        (whole before (.insert name row txid) after) (skipping before after) table) ∧
      ((∃ record ∈ after, record.Resets name) →
        SameAt name (whole before (.insert name row txid) after) (skipping before after)) := by
  induction after using List.reverseRecOn with
  | nil =>
      refine ⟨fun _ => ?_, fun ⟨_, hmem, _⟩ => by cases hmem⟩
      have hstart : findTable name (start.run 0 before).tables = some found := by
        rw [tables_run]
        exact hfound
      exact shifted_of_insert (sound_before before) hstart hvalid txid
  | append_singleton done record ih =>
      obtain ⟨hshifted, hsame⟩ := ih fun earlier next rest heq =>
        hnear earlier next (rest ++ [record]) (by rw [heq, List.append_assoc, List.cons_append])
      rw [whole_concat, skipping_concat]
      constructor
      · intro hreset
        have hdone : ∀ earlier ∈ done, ¬ earlier.Resets name := fun earlier hmem =>
          hreset earlier (List.mem_append_left _ hmem)
        obtain ⟨table, htable⟩ := hshifted hdone
        apply htable.step (sound_whole _ _ _) (hreset record (List.mem_append_right _ (List.mem_singleton_self _)))
        have hlast := hnear done record [] rfl hdone
        rwa [← tables_whole, htable.chainsIn_whole] at hlast
      · rintro ⟨reset, hmem, hreset⟩
        rcases List.mem_append.mp hmem with hold | hnew
        · exact (hsame ⟨reset, hold, hreset⟩).step _ record
        · exact SameAt.of_resets (List.mem_singleton.mp hnew ▸ hreset)

theorem sameAt_of_ne {other : String} (hother : other ≠ name) (records : List WalRecord) :
    SameAt other (whole before (.insert name row txid) records) (skipping before records) :=
  SameAt.run (sameAt_insert fun heq => absurd heq hother) records

/-- The loss of an insertion that opens a row is harmless where it stays local. -/
theorem StaysLocal.harmless (hfound : findTable name (replayRecords [] before) = some found)
    (hvalid : found.validateRow row = .ok ()) (hlocal : StaysLocal before (.insert name row txid) after) :
    Harmless before name (.insert name row txid) after found.versionChains.length := by
  have htargets : ∀ done record rest, after = done ++ record :: rest → (∀ earlier ∈ done, ¬ earlier.Resets name) →
      Near name found.versionChains.length
        (chainsIn name (replayRecords [] (before ++ .insert name row txid :: done))).length record := by
    intro done
    induction hcount : done.length using Nat.strong_induction_on generalizing done with
    | _ count ih =>
        intro record rest heq hdone rowIdx htarget
        obtain ⟨table, htable⟩ := (@shifted_of_near before done name row txid found hfound hvalid
          (fun earlier next last hsplit hearlier => ih earlier.length (by
            rw [← hcount, hsplit, List.length_append, List.length_cons]
            omega) earlier rfl next (last ++ record :: rest)
            (by rw [heq, hsplit, List.append_assoc, List.cons_append]) hearlier)).1 hdone
        have hnear := (htable.target_iff (sound_whole _ _ _) htarget).mp (hlocal.targets done record rest name rowIdx heq htarget)
        rwa [← tables_whole, htable.chainsIn_whole]
  refine ⟨htargets, ?_⟩
  intro hreset
  obtain ⟨table, htable⟩ := (shifted_of_near hfound hvalid htargets).1 hreset
  have hkept := (htable.rows_iff (sound_whole _ _ _)).mp (hlocal.rows name)
  rw [← tables_whole, htable.chainsIn_whole]
  exact hkept

/-- The loss of an insertion that opens a row stays local where it is harmless. -/
theorem Harmless.staysLocal (hfound : findTable name (replayRecords [] before) = some found)
    (hvalid : found.validateRow row = .ok ())
    (hharmless : Harmless before name (.insert name row txid) after found.versionChains.length) :
    StaysLocal before (.insert name row txid) after := by
  constructor
  · intro other place opened hopened hne
    by_cases hother : other = name
    · subst hother
      obtain ⟨hshifted, hsame⟩ := shifted_of_near hfound hvalid hharmless.targets
      by_cases hreset : ∀ record ∈ after, ¬ record.Resets other
      · obtain ⟨table, htable⟩ := hshifted hreset
        apply (htable.rows_iff (sound_whole _ _ _)).mpr _ place opened hopened hne
        have hkept := hharmless.rows hreset
        rwa [← tables_whole, htable.chainsIn_whole] at hkept
      · simp only [not_forall, not_not, exists_prop] at hreset
        exact (hsame hreset).stays hopened
    · exact (sameAt_of_ne hother after).stays hopened
  · intro done record rest other rowIdx heq htarget happlied
    by_cases hother : other = name
    · subst hother
      obtain ⟨hshifted, hsame⟩ := @shifted_of_near before done other row txid found hfound hvalid
        (fun earlier next last hsplit hearlier => hharmless.targets earlier next (last ++ record :: rest)
          (by rw [heq, hsplit, List.append_assoc, List.cons_append]) hearlier)
      by_cases hreset : ∀ record ∈ done, ¬ record.Resets other
      · obtain ⟨table, htable⟩ := hshifted hreset
        refine (htable.target_iff (sound_whole _ _ _) htarget).mpr ?_ happlied
        have hnear := hharmless.targets done record rest heq hreset rowIdx htarget
        rwa [← tables_whole, htable.chainsIn_whole] at hnear
      · simp only [not_forall, not_not, exists_prop] at hreset
        rw [(hsame hreset).rows]
    · rw [(sameAt_of_ne hother done).rows]

/-- The loss of an insertion that opens a row stays local exactly where it is harmless. -/
theorem staysLocal_iff_harmless (hfound : findTable name (replayRecords [] before) = some found)
    (hvalid : found.validateRow row = .ok ()) :
    StaysLocal before (.insert name row txid) after ↔
      Harmless before name (.insert name row txid) after found.versionChains.length :=
  ⟨StaysLocal.harmless hfound hvalid, Harmless.staysLocal hfound hvalid⟩

/-- In every log, the loss of the record of an insertion stays local exactly where it opens no row anyway, or is harmless. -/
theorem staysLocal_iff :
    StaysLocal before (.insert name row txid) after ↔
      ∀ found, findTable name (replayRecords [] before) = some found → found.validateRow row = .ok () →
        Harmless before name (.insert name row txid) after found.versionChains.length := by
  by_cases hopens : ∃ found, findTable name (replayRecords [] before) = some found ∧ found.validateRow row = .ok ()
  · obtain ⟨found, hfound, hvalid⟩ := hopens
    rw [staysLocal_iff_harmless hfound hvalid]
    constructor
    · intro hharmless other hother _
      rwa [← Option.some.inj (hfound.symm.trans hother)]
    · intro hharmless
      exact hharmless found hfound hvalid
  · refine iff_of_true ?_ fun found hfound hvalid => absurd ⟨found, hfound, hvalid⟩ hopens
    have hagree : ∀ other records,
        SameAt other (whole before (.insert name row txid) records) (skipping before records) := by
      intro other records
      apply SameAt.run
      apply sameAt_insert
      intro _ found hfound hvalid
      rw [tables_run] at hfound
      exact hopens ⟨found, hfound, hvalid⟩
    constructor
    · intro other place opened hopened _
      exact ⟨place, by rw [(hagree other after).rows, hopened], by rw [(hagree other after).chainsIn]⟩
    · intro done record rest other rowIdx _ _ _
      rw [(hagree other done).rows]

end

namespace DatabaseEngine

/-- Two rows are inserted and the first one is deleted. -/
def insertsAndDelete : List SerialCall :=
  [{ op := .execute (.createTable "t" [.new "a" .integer] none), orders := .asGiven },
    { op := .execute (.insert "t" [{ values := [.integer 5] }]), orders := .asGiven },
    { op := .execute (.insert "t" [{ values := [.integer 6] }]), orders := .asGiven },
    { op := .execute (.delete "t" fun row => row.values == [.integer 5]), orders := .asGiven }]

theorem wal_insertsAndDelete :
    (insertsAndDelete.foldl serialStep (fresh "disk")).walOld ++ (insertsAndDelete.foldl serialStep (fresh "disk")).wal =
      [.createTable "t" [.new "a" .integer]] ++ .insert "t" { values := [.integer 5] } 1 ::
        ([.commit 1, .insert "t" { values := [.integer 6] } 2, .commit 2] ++ .delete "t" 0 4 :: [.commit 4]) := by
  decide

/-- The row of the second insertion takes the place of the first one, and is deleted. -/
theorem not_staysLocal :
    ¬ ∀ engine : DatabaseEngine, engine.SerialReachable (fun _ _ => True) → ∀ before name row txid after,
      engine.walOld ++ engine.wal = before ++ .insert name row txid :: after →
        StaysLocal before (.insert name row txid) after := by
  intro h
  have hlocal := h _ ⟨"disk", .foldl insertsAndDelete _⟩ _ _ _ _ _ wal_insertsAndDelete
  have hsame := hlocal.targets [.commit 1, .insert "t" { values := [.integer 6] } 2, .commit 2] (.delete "t" 0 4) [.commit 4]
    "t" 0 rfl rfl (@Traced.applyWalRecord_ne "t" _ _ 0 [.newInsert 2 { values := [.integer 6] }] rfl (by decide) (by simp))
  revert hsame
  decide

/-- In a guarded run the rows of the undamaged log are those that were in memory. -/
theorem SerialReachable.chainsIn_replayWal {engine : DatabaseEngine} (h : engine.SerialReachable ReplayGuard) (name : String) :
    chainsIn name (replayRecords [] (engine.walOld ++ engine.wal)) = chainsIn name engine.tables := by
  have himages := recovered_image_eq h
  have hlookup : ∀ tables : List Table, chainsIn name tables =
      ((KeyedList.lookup TableImage.name name (tables.map Table.image)).map (·.versionChains)).getD [] := by
    intro tables
    rw [KeyedList.lookup_map (fun table => Table.image_name table), Option.map_map]
    rfl
  rw [hlookup, hlookup, ← himages]
  rfl

end DatabaseEngine

end HelionDb
