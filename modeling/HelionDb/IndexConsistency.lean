import HelionDb.IndexDefinitions
import HelionDb.Steady

/-! Indexes against version chains. Index maintenance takes the old row of an entry from the copy of the
tables that the commit began with, so it misses what earlier entries of the same transaction did to that
row, and it files an inserted row under the position the entry names. While every entry finds the key it
takes out, and inserts where the chains put it, every index stays the one a rebuild computes. -/

namespace HelionDb

/-- The pairs that a definition reads off the live rows of some chains. -/
def keysOf (definition : IndexMeta) (chains : List Chain) : Set (List Datum × Nat) :=
  { pair | ∃ row, rowAt chains pair.2 = some row ∧ definition.extractKey row = pair.1 }

theorem mem_keysOf {definition : IndexMeta} {chains : List Chain} {key : List Datum} {rowIdx : Nat} :
    (key, rowIdx) ∈ keysOf definition chains ↔
      (rowAt chains rowIdx).map definition.extractKey = some key := Option.map_eq_some_iff.symm

theorem livePairs_eq {table : Table} {next : Nat} (h : ChainsWf next table.versionChains)
    (hnext : next ≤ u64Max) (definition : IndexMeta) :
    table.livePairs definition = keysOf definition table.versionChains :=
  Set.ext fun ⟨_, _⟩ => h.mem_livePairs hnext

/-! ### One entry -/

/-- Maintenance for an entry changes an index of this definition as the entry changes the live rows of
the chains: an insertion goes where it says, and the live key of the row, if there is one, is the key
that maintenance takes out or the one it puts in. -/
def EntryExact (definition : IndexMeta) (txId : Nat) (snapshot : String → Option Table) (chains : List Chain)
    (entry : WriteEntry) : Prop :=
  let liveKey := (rowAt chains entry.rowIdx).map definition.extractKey
  let oldKey := (oldRowOf snapshot entry).map definition.extractKey
  match entry.operation with
  | .insert row =>
      entry.rowIdx ≤ chains.length ∧ (liveKey = none ∨ liveKey = some (definition.extractKey row))
  | .update row => liveKey = none ∨ liveKey = oldKey ∨ liveKey = some (definition.extractKey row)
  | .delete => entryVersion txId snapshot entry = none ∨ liveKey = none ∨ liveKey = oldKey

/-- Every entry is exact when its turn comes. -/
def EntriesExact (definition : IndexMeta) (txId : Nat) (snapshot : String → Option Table) :
    List Chain → List WriteEntry → Prop
  | _, [] => True
  | chains, entry :: rest =>
      EntryExact definition txId snapshot chains entry ∧
        EntriesExact definition txId snapshot (placeEntry txId snapshot chains entry) rest

section Entry

variable {definition : IndexMeta} {txId : Nat} {snapshot : String → Option Table} {chains : List Chain}
  {entry : WriteEntry} {copy : Table}

/-- Replacing the live row of a position is taking its key out and putting the new one in. -/
private theorem keysOf_placeVersion {rowIdx : Nat} {version : RowVersion} (hrow : rowIdx ≤ chains.length)
    {key : List Datum} {other : Nat} :
    (key, other) ∈ keysOf definition (placeVersion txId chains (rowIdx, version)) ↔
      if other = rowIdx then version.isDeleted = false ∧ definition.extractKey version.row = key
      else (key, other) ∈ keysOf definition chains := by
  have hrowAt : rowAt (placeVersion txId chains (rowIdx, version)) other =
      if other = rowIdx then if version.isDeleted then none else some version.row
      else rowAt chains other := by
    rcases Nat.lt_or_ge rowIdx chains.length with hlt | hge
    · exact rowAt_placeVersion_of_lt hlt
    · rw [rowAt_placeVersion_of_le hge, Nat.le_antisymm hrow hge]
  rw [mem_keysOf, mem_keysOf, hrowAt]
  by_cases hother : other = rowIdx
  · rw [if_pos hother, if_pos hother]
    cases version.isDeleted <;> simp
  · rw [if_neg hother, if_neg hother]

theorem oldRowOf_lt (hcopy : snapshot entry.tableName = some copy) {row : Row}
    (hold : oldRowOf snapshot entry = some row) : entry.rowIdx < copy.versionChains.length := by
  rw [oldRowOf, hcopy, Option.bind_some, Table.getVisibleRow] at hold
  split at hold
  · rename_i chain hchain
    exact (List.getElem?_eq_some_iff.mp hchain).1
  · cases hold

theorem entryVersion_deletes (hdelete : entry.operation = .delete)
    (hcopy : snapshot entry.tableName = some copy) {change : Nat × RowVersion}
    (h : entryVersion txId snapshot entry = some change) :
    entry.rowIdx < copy.versionChains.length ∧ change.1 = entry.rowIdx ∧ change.2.isDeleted = true := by
  unfold entryVersion at h
  rw [hdelete, hcopy] at h
  dsimp only at h
  split at h
  · cases h
  · rename_i chain hchain
    obtain ⟨latest, -, rfl⟩ := Option.map_eq_some_iff.mp h
    exact ⟨(List.getElem?_eq_some_iff.mp hchain).1, rfl, rfl⟩

/-- A row that maintenance finds can be deleted. -/
theorem entryVersion_delete_isSome (hdelete : entry.operation = .delete)
    (hcopy : snapshot entry.tableName = some copy) {row : Row} (hold : oldRowOf snapshot entry = some row) :
    entryVersion txId snapshot entry ≠ none := by
  rw [oldRowOf, hcopy, Option.bind_some, Table.getVisibleRow] at hold
  unfold entryVersion
  rw [hdelete, hcopy]
  dsimp only
  split at hold
  · rename_i chain hchain
    rw [hchain]
    rcases List.eq_nil_or_concat chain with rfl | ⟨prior, latest, rfl⟩
    · cases hold
    · simp
  · cases hold

/-- An exact entry changes the pairs of an index as it changes the keys of the live rows. -/
theorem keysOf_placeEntry (hcopy : snapshot entry.tableName = some copy)
    (hlength : copy.versionChains.length ≤ chains.length)
    (hold : ¬ entry.operation.LacksOldRow (oldRowOf snapshot entry))
    (hexact : EntryExact definition txId snapshot chains entry) :
    KeyPairs.applyAll (keysOf definition chains)
        (entry.operation.keyChanges definition (oldRowOf snapshot entry) entry.rowIdx) =
      keysOf definition (placeEntry txId snapshot chains entry) := by
  ext ⟨key, other⟩
  unfold EntryExact at hexact
  unfold placeEntry
  have hlive : (key, entry.rowIdx) ∈ keysOf definition chains ↔
      (rowAt chains entry.rowIdx).map definition.extractKey = some key := mem_keysOf
  generalize (rowAt chains entry.rowIdx).map definition.extractKey = liveKey at hexact hlive
  cases hoperation : entry.operation with
  | insert row =>
      rw [hoperation] at hexact
      obtain ⟨hrow, hexact⟩ := hexact
      have hversion : entryVersion txId snapshot entry = some (entry.rowIdx, .newInsert txId row) := by
        rw [entryVersion, hoperation]
      rw [hversion]
      change (key, other) ∈ KeyPairs.apply _ (.add _ _) ↔
        (key, other) ∈ keysOf definition (placeVersion txId chains (entry.rowIdx, .newInsert txId row))
      rw [keysOf_placeVersion hrow, KeyPairs.mem_apply_add, Prod.mk.injEq]
      by_cases hother : other = entry.rowIdx
      · subst hother
        rw [hlive]
        rcases hexact with rfl | rfl <;> simp [RowVersion.newInsert, eq_comm]
      · simp [hother]
  | update row =>
      rw [hoperation] at hexact hold
      have hversion : entryVersion txId snapshot entry = some (entry.rowIdx, .newUpdate txId row) := by
        rw [entryVersion, hoperation]
      cases holdRow : oldRowOf snapshot entry with
      | none => exact absurd holdRow hold
      | some old =>
          rw [holdRow] at hexact
          have hrow := (oldRowOf_lt hcopy holdRow).trans_le hlength
          rw [hversion]
          change (key, other) ∈ KeyPairs.apply (KeyPairs.apply _ (.drop _ _)) (.add _ _) ↔
            (key, other) ∈ keysOf definition (placeVersion txId chains (entry.rowIdx, .newUpdate txId row))
          rw [keysOf_placeVersion hrow.le, KeyPairs.mem_apply_add, KeyPairs.mem_apply_drop, Ne, Prod.mk.injEq,
            Prod.mk.injEq]
          by_cases hother : other = entry.rowIdx
          · subst hother
            rw [hlive]
            rcases hexact with rfl | rfl | rfl <;> simp [RowVersion.newUpdate, eq_comm]
            tauto
          · simp [hother]
  | delete =>
      rw [hoperation] at hexact
      cases hversion : entryVersion txId snapshot entry with
      | none =>
          cases holdRow : oldRowOf snapshot entry with
          | none => rfl
          | some old => exact absurd hversion (entryVersion_delete_isSome hoperation hcopy holdRow)
      | some change =>
          obtain ⟨hlt, hrow, hdeleted⟩ := entryVersion_deletes hoperation hcopy hversion
          obtain ⟨rowIdx, version⟩ := change
          dsimp only at hrow hdeleted
          subst hrow
          have hexact := hexact.resolve_left (by rw [hversion]; exact Option.some_ne_none _)
          change (key, other) ∈ KeyPairs.applyAll _ _ ↔
            (key, other) ∈ keysOf definition (placeVersion txId chains (entry.rowIdx, version))
          rw [keysOf_placeVersion (hlt.le.trans hlength), hdeleted]
          cases holdRow : oldRowOf snapshot entry with
          | none =>
              rw [holdRow] at hexact
              change (key, other) ∈ keysOf definition chains ↔ _
              by_cases hother : other = entry.rowIdx
              · subst hother
                rw [hlive]
                rcases hexact with rfl | rfl <;> simp
              · simp [hother]
          | some old =>
              rw [holdRow] at hexact
              change (key, other) ∈ KeyPairs.apply _ (.drop _ _) ↔ _
              rw [KeyPairs.mem_apply_drop, Ne, Prod.mk.injEq]
              by_cases hother : other = entry.rowIdx
              · subst hother
                rw [hlive]
                rcases hexact with rfl | rfl <;> simp [eq_comm]
              · simp [hother]

/-- Exact entries, carried out in order on the pairs of an index, give the keys of the live rows. -/
theorem keysOf_placeEntries {entries : List WriteEntry} {name : String} (hcopy : snapshot name = some copy)
    (hentries : ∀ entry ∈ entries, entry.tableName = name)
    (hold : ∀ entry ∈ entries, ¬ entry.operation.LacksOldRow (oldRowOf snapshot entry))
    (hlength : copy.versionChains.length ≤ chains.length)
    (hexact : EntriesExact definition txId snapshot chains entries) :
    KeyPairs.applyAll (keysOf definition chains) (indexChanges snapshot definition entries) =
      keysOf definition (placeAll txId chains (entries.filterMap (entryVersion txId snapshot))) := by
  induction entries generalizing chains with
  | nil => rfl
  | cons entry rest ih =>
      obtain ⟨hhead, hrest⟩ := hexact
      have hname := hentries entry List.mem_cons_self
      have hstep := keysOf_placeEntry (hname ▸ hcopy) hlength (hold entry List.mem_cons_self) hhead
      rw [indexChanges_cons, KeyPairs.applyAll_append, hstep,
        ih (fun other hother => hentries other (List.mem_cons_of_mem _ hother))
          (fun other hother => hold other (List.mem_cons_of_mem _ hother))
          (hlength.trans (length_le_placeEntry _ _ _ _)) hrest, placeAll_filterMap_cons]

end Entry

/-! ### Runs -/

namespace DatabaseEngine

/-- The entries of a call's commit, if its checks accept it, are exact for every index. -/
def WritesExact (engine : DatabaseEngine) (call : SerialCall) : Prop :=
  ∀ begun tx, engine.pending call.op = some (begun, tx) → ChecksAccept tx (snapshotTables engine.tables) →
    ∀ table ∈ engine.tables, ∀ index ∈ table.indexes,
      EntriesExact index.definition tx.txId (snapshotTables engine.tables) table.versionChains
        (tx.entriesOf table.name)

/-- Calls under which indexes follow the chains: ids are left, and the commit, if its checks accept it, is
safe and exact. -/
structure IndexGuard (engine : DatabaseEngine) (call : SerialCall) : Prop where
  room : engine.CounterRoom
  safe : engine.AcceptedSafe call
  exact : engine.WritesExact call

theorem indexGuard_of_none {engine : DatabaseEngine} {call : SerialCall} (hroom : engine.CounterRoom)
    (hpending : engine.pending call.op = none) : engine.IndexGuard call where
  room := hroom
  safe := acceptedSafe_of_none hpending
  exact begun tx hsome := by
    rw [hpending] at hsome
    cases hsome

/-- Every index holds exactly the keys of the live rows. -/
def Consistent (engine : DatabaseEngine) : Prop :=
  ∀ table ∈ engine.tables, ∀ index ∈ table.indexes, index.pairs = keysOf index.definition table.versionChains

variable {engine : DatabaseEngine}

theorem Consistent.rebuildIndexes_eq (h : engine.Consistent) (hdated : engine.Dated) {table : Table}
    (htable : table ∈ engine.tables) : table.rebuildIndexes = table :=
  Table.rebuildIndexes_eq_iff.mpr fun index hindex =>
    (h table htable index hindex).trans (livePairs_eq (hdated.live table htable) hdated.bounded _).symm

/-- An accepted commit that is safe and exact keeps the indexes of a table consistent. -/
theorem Consistent.commit (h : engine.Consistent) (hwf : engine.WellFormed) {orders : CommitOrders}
    {tx : Transaction} (hok : (engine.commit orders tx).1 = .ok ())
    (hexact : ∀ table ∈ engine.tables, ∀ index ∈ table.indexes,
      EntriesExact index.definition tx.txId (snapshotTables engine.tables) table.versionChains
        (tx.entriesOf table.name)) : (engine.commit orders tx).2.2.Consistent := by
  intro after hafter index' hindex'
  obtain ⟨table, htable, -, hchains, hmaintained, hadmissible⟩ := table_of_commit_ok hwf hok hafter
  obtain ⟨index, hindex, hdefinition, hpairs⟩ := exists_of_maintained hmaintained hindex'
  rw [hpairs, hdefinition, h table htable index hindex, hchains]
  exact keysOf_placeEntries ((hwf.snapshotTables_eq table.name).trans (hwf.findTable_self htable))
    (fun entry hentry => (Transaction.mem_entriesOf.mp hentry).2) (hadmissible index hindex).1 le_rfl
    (hexact table htable index hindex)

/-- Opening builds the indexes of every table from its chains. -/
theorem consistent_rebuildIfEmpty {table : Table} (hbuilt : table.Built) {next : Nat}
    (hchains : ChainsWf next table.versionChains) (hnext : next ≤ u64Max) {index : Index}
    (hindex : index ∈ (rebuildIfEmpty table).indexes) :
    index.pairs = keysOf index.definition (rebuildIfEmpty table).versionChains := by
  unfold rebuildIfEmpty at hindex ⊢
  split
  · rename_i hempty
    rw [if_pos hempty] at hindex
    rw [Table.rebuildIndexes_consistent hindex]
    exact livePairs_eq hchains hnext _
  · rename_i hempty
    rw [if_neg hempty, hbuilt] at hindex
    refine absurd (List.any_eq_true.mpr ⟨index, hbuilt ▸ hindex, ?_⟩) hempty
    rw [Table.index_new hindex, Index.isEmpty_iff, Index.pairs_new]

/-- Calls that meet the guard keep indexes consistent. -/
theorem Consistent.transition (h : engine.Consistent) (hwf : engine.WellFormed) (hdated : engine.Dated)
    {call : SerialCall} (hguard : engine.IndexGuard call) {after : DatabaseEngine}
    (htransition : Transition engine call after) : after.Consistent := by
  cases htransition with
  | same | ids | migrate | checkpoint | shutdown => exact h
  | write start entries hcommit hstart =>
      have hpending : engine.pending call.op = some (start.begin.2, start.beginWith entries) := by
        rw [pending, hcommit]
        rfl
      have hbegun := begun_of_pending hguard.room hpending
      have htables := hbegun.tables
      have hconsistent : (start.begin.2).Consistent := by
        rw [Consistent, htables]
        exact h
      by_cases haccept : ChecksAccept (start.beginWith entries) (snapshotTables engine.tables)
      · have hok := hbegun.commit_ok hwf haccept (hguard.safe _ _ hpending haccept) call.orders
        refine hconsistent.commit (hbegun.wellFormed hwf) hok ?_
        rw [htables]
        exact hguard.exact _ _ hpending haccept
      · rw [← htables] at haccept
        rw [commit_of_not_accepted haccept]
        exact hconsistent
  | create name columns engineName catalog hfresh hcatalog =>
      intro table htable index hindex
      rcases List.mem_append.mp htable with hold | hnew
      · exact h table hold index hindex
      · rw [List.mem_singleton.mp hnew] at hindex ⊢
        rw [Table.index_new hindex, Index.pairs_new, Table.new_versionChains]
        refine (Set.eq_empty_of_forall_notMem ?_).symm
        rintro ⟨key, rowId⟩ hmem
        simp [mem_keysOf, rowAt] at hmem
  | drop name catalog hcatalog => exact fun table htable => h table (List.mem_filter.mp htable).1
  | createIndex tableName table next name columns unique htable hnext =>
      have hmem := (hwf.findTable_eq_some.mp htable).1
      obtain ⟨index, rfl, -, hpairs, -⟩ := Table.addIndex_ok hnext
      intro other hother index' hindex'
      rcases KeyedList.mem_update hother with hold | ⟨-, -, -, rfl⟩
      · exact h other hold index' hindex'
      · rcases List.mem_append.mp hindex' with hold | hnew
        · exact h table hmem index' hold
        · rw [List.mem_singleton.mp hnew, hpairs]
          exact livePairs_eq (hdated.live table hmem) hdated.bounded _
  | dropIndex tableName table next name ifExists hop htable hnext =>
      have hmem := (hwf.findTable_eq_some.mp htable).1
      obtain ⟨pos, rfl⟩ := Table.dropIndex_ok hnext
      intro other hother index' hindex'
      rcases KeyedList.mem_update hother with hold | ⟨-, -, -, rfl⟩
      · exact h other hold index' hindex'
      · exact h table hmem index' (List.mem_of_mem_eraseIdx hindex')
  | reopen defaultEngine loaded next hop hopen =>
      obtain ⟨opened, hopened, htables, -⟩ := hwf.reopen defaultEngine loaded
      have hsame : opened = after := Except.ok.inj (hopened.symm.trans hopen)
      subst hsame
      intro table htable index hindex
      rw [htables] at htable
      obtain ⟨replayed, hreplayed, rfl⟩ := List.mem_map.mp htable
      exact consistent_rebuildIfEmpty (built_recovered engine replayed hreplayed)
        (hdated.logged replayed hreplayed) hdated.bounded hindex

/-- What serial calls under the guard keep. -/
theorem SerialReachable.consistent (h : SerialReachable IndexGuard engine) :
    engine.WellFormed ∧ engine.Dated ∧ engine.Consistent := by
  obtain ⟨defaultEngine, run⟩ := h
  refine run.invariant (P := fun state => state.WellFormed ∧ state.Dated ∧ state.Consistent)
    (fun state call hstate hguard => ?_)
    ⟨WellFormed.fresh defaultEngine, Dated.fresh defaultEngine, fun _ htable => by cases htable⟩
  obtain ⟨hwf, hdated, hconsistent⟩ := hstate
  have htransition := serialStep_transition state call
  exact ⟨hwf.transition htransition, hdated.transition hwf hguard.room htransition,
    hconsistent.transition hwf hdated hguard htransition⟩

/-- In every serial run under the guard, every index is the one that a rebuild computes. -/
theorem indexes_eq_rebuilt (h : SerialReachable IndexGuard engine) :
    ∀ table ∈ engine.tables, table.rebuildIndexes = table := by
  obtain ⟨-, hdated, hconsistent⟩ := h.consistent
  exact fun table htable => hconsistent.rebuildIndexes_eq hdated htable

/-- An INSERT of one row into the table with a UNIQUE column. -/
def insertOne : SerialCall := { op := .execute (.insert "t" [{ values := [.integer 1] }]), orders := .asGiven }

private theorem pending_insertOne :
    (uniqueColumnRun.foldl serialStep (fresh "disk")).pending insertOne.op =
      some (uniqueColumnEngine, insertingRows [.integer 1]) := rfl

theorem insertOne_reachable :
    SerialReachable IndexGuard ((uniqueColumnRun ++ [insertOne]).foldl serialStep (fresh "disk")) := by
  refine ⟨"disk", .of_meets ⟨indexGuard_of_none (by unfold CounterRoom; decide) rfl, ?_, trivial⟩⟩
  refine ⟨by unfold CounterRoom; decide, ?_, ?_⟩
  · exact acceptedSafe_of_ok pending_insertOne uniqueColumnEngine_reachable.sound.wellFormed rfl
  · intro begun tx hsome _ table htable index hindex
    obtain ⟨rfl, rfl⟩ := Prod.mk.inj (Option.some.inj (pending_insertOne.symm.trans hsome))
    obtain rfl := List.mem_singleton.mp htable
    obtain rfl := List.mem_singleton.mp hindex
    exact ⟨⟨by decide, Or.inl rfl⟩, trivial⟩

/-- An UPDATE of one of two rows, and a DELETE of the other. -/
def changeHeld : List SerialCall :=
  [{ op := .execute (.update "t" [(0, .integer 3)] fun row => row.values = [.integer 1]), orders := .asGiven },
    { op := .execute (.delete "t" fun row => row.values = [.integer 2]), orders := .asGiven }]

theorem indexes_eq_rebuilt_changeHeld :
    ((heldRowsRun ++ changeHeld).foldl serialStep (fresh "disk")).tables.map Table.rebuildIndexes =
      ((heldRowsRun ++ changeHeld).foldl serialStep (fresh "disk")).tables := by
  have hwf : ∀ calls : List SerialCall, (calls.foldl serialStep (fresh "disk")).WellFormed := fun calls =>
    SerialReachable.wellFormed ⟨"disk", .foldl calls _⟩
  have hguarded : Meets serialStep IndexGuard (fresh "disk") (heldRowsRun ++ changeHeld) := by
    refine ⟨indexGuard_of_none (by unfold CounterRoom; decide) rfl, ⟨by unfold CounterRoom; decide, ?_, ?_⟩,
      ⟨by unfold CounterRoom; decide, ?_, ?_⟩, ⟨by unfold CounterRoom; decide, ?_, ?_⟩, trivial⟩
    · exact acceptedSafe_of_ok rfl ((hwf uniqueColumnRun).of_frame rfl (.refl _) rfl) rfl
    · rintro begun tx ⟨⟩ _ table htable index hindex
      obtain rfl := List.mem_singleton.mp htable
      obtain rfl := List.mem_singleton.mp hindex
      exact ⟨⟨by decide, Or.inl rfl⟩, ⟨by decide, Or.inl rfl⟩, trivial⟩
    · exact acceptedSafe_of_ok rfl ((hwf heldRowsRun).of_frame rfl (.refl _) rfl) rfl
    · rintro begun tx ⟨⟩ _ table htable index hindex
      obtain rfl := List.mem_singleton.mp htable
      obtain rfl := List.mem_singleton.mp hindex
      exact ⟨Or.inr (Or.inl rfl), trivial⟩
    · exact acceptedSafe_of_ok rfl ((hwf (heldRowsRun ++ changeHeld.take 1)).of_frame rfl (.refl _) rfl) rfl
    · rintro begun tx ⟨⟩ _ table htable index hindex
      obtain rfl := List.mem_singleton.mp htable
      obtain rfl := List.mem_singleton.mp hindex
      exact ⟨Or.inr (Or.inr rfl), trivial⟩
  have hrebuilt := indexes_eq_rebuilt ⟨"disk", .of_meets hguarded⟩
  exact (List.map_congr_left hrebuilt).trans (List.map_id _)

/-- One transaction that updates the same row twice. -/
def updateTwice : SerialCall where
  op := .writeTxn fun _ _ => .ok
    [{ tableName := "t", rowIdx := 0, oldTxidMax := u64Max, operation := .update { values := [.integer 2] } },
      { tableName := "t", rowIdx := 0, oldTxidMax := u64Max, operation := .update { values := [.integer 3] } }]
  orders := .asGiven

/-- The key of the first of two updates of one row stays in the index. -/
theorem not_rebuilt_updateTwice :
    SerialReachable (fun _ _ => True)
        ((uniqueColumnRun ++ [insertOne, updateTwice]).foldl serialStep (fresh "disk")) ∧
      ¬ ∀ table ∈ ((uniqueColumnRun ++ [insertOne, updateTwice]).foldl serialStep (fresh "disk")).tables,
        table.rebuildIndexes = table := by
  refine ⟨⟨"disk", .foldl _ _⟩, fun h => ?_⟩
  have hstale : ((uniqueColumnRun ++ [insertOne, updateTwice]).foldl serialStep (fresh "disk")).tables.map
      (fun table => table.indexes.map fun index => index.get [.integer 2]) = [[some {0}]] := by decide
  have hrebuilt : ((uniqueColumnRun ++ [insertOne, updateTwice]).foldl serialStep (fresh "disk")).tables.map
      (fun table => table.rebuildIndexes.indexes.map fun index => index.get [.integer 2]) = [[none]] := by decide
  have hsame := List.map_congr_left fun table htable =>
    congrArg (fun table : Table => table.indexes.map fun index => index.get [.integer 2]) (h table htable)
  rw [hstale, hrebuilt] at hsame
  exact absurd hsame (by decide)

end DatabaseEngine

end HelionDb
