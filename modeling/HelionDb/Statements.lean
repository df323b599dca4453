import HelionDb.Serial

/-! The write sets of SQL statements. An INSERT takes consecutive positions from the end of its table on;
an UPDATE or a DELETE has one entry for each row it selected, and a scan selects no position twice. -/

namespace HelionDb

theorem insertEntries_cons (tableName : String) (startIdx : Nat) (row : Row) (rest : List Row) :
    insertEntries tableName startIdx (row :: rest) =
      { tableName, rowIdx := startIdx, oldTxidMax := u64Max, operation := .insert row } ::
        insertEntries tableName (startIdx + 1) rest := by
  rw [insertEntries, List.zipIdx_cons, List.map_cons, insertEntries]
  refine congrArg _ ?_
  rw [Nat.zero_add, List.zipIdx_eq_map_add, List.map_map]
  refine List.map_congr_left ?_
  rintro ⟨added, i⟩ -
  simp only [Function.comp_apply, Nat.add_assoc]

theorem tableName_of_mem_insertEntries {tableName : String} {startIdx : Nat} {rows : List Row}
    {entry : WriteEntry} (h : entry ∈ insertEntries tableName startIdx rows) : entry.tableName = tableName := by
  obtain ⟨_, -, rfl⟩ := List.mem_map.mp h
  rfl

/-- A scan gives every position once. -/
theorem Table.nodup_scanVisible (table : Table) (snapshotTxid : Nat) (activeTxns : Finset Nat) :
    ((table.scanVisible snapshotTxid activeTxns).map Prod.fst).Nodup := by
  have hpositions : ∀ (chains : List Chain) (start : Nat),
      let scanned := (chains.zipIdx start).filterMap fun entry =>
        (latestVisible entry.1 snapshotTxid activeTxns).map fun version => (entry.2, version.row)
      (scanned.map Prod.fst).Nodup ∧ ∀ entry ∈ scanned, start ≤ entry.1 := by
    intro chains
    induction chains with
    | nil => exact fun start => ⟨List.nodup_nil, by simp⟩
    | cons chain rest ih =>
        intro start
        obtain ⟨hnodup, hlow⟩ := ih (start + 1)
        simp only [List.zipIdx_cons, List.filterMap_cons]
        split
        · exact ⟨hnodup, fun entry hentry => (Nat.le_succ _).trans (hlow entry hentry)⟩
        · rename_i first hfirst
          obtain ⟨version, -, rfl⟩ := Option.map_eq_some_iff.mp hfirst
          refine ⟨List.nodup_cons.mpr ⟨fun hmem => ?_, hnodup⟩, fun entry hentry => ?_⟩
          · obtain ⟨entry, hentry, heq⟩ := List.mem_map.mp hmem
            exact absurd (hlow entry hentry) (by rw [heq]; exact Nat.not_succ_le_self start)
          · rcases List.mem_cons.mp hentry with rfl | hmem
            · exact le_rfl
            · exact (Nat.le_succ _).trans (hlow entry hmem)
  exact (hpositions table.versionChains 0).1

theorem Table.lt_of_mem_scanVisible {table : Table} {snapshotTxid : Nat} {activeTxns : Finset Nat}
    {entry : Nat × Row} (h : entry ∈ table.scanVisible snapshotTxid activeTxns) :
    entry.1 < table.versionChains.length := by
  obtain ⟨chain, hchain, -⟩ := mem_scanVisible.mp h
  exact (List.getElem?_eq_some_iff.mp hchain).1

/-! ### Updates and deletions -/

/-- One update or deletion for each of some selected rows of a table. -/
structure OverRows (tableName : String) (selected : List (Nat × Row)) (entries : List WriteEntry) : Prop where
  named : ∀ entry ∈ entries, entry.tableName = tableName
  positions : entries.map (·.rowIdx) = selected.map Prod.fst
  noInsert : ∀ entry ∈ entries, ∀ row, entry.operation ≠ .insert row

theorem overRows_updateEntries {tableName : String} {assignments : List (Nat × Datum)}
    {selected : List (Nat × Row)} {entries : List WriteEntry}
    (h : updateEntries tableName assignments selected = some entries) : OverRows tableName selected entries := by
  induction selected generalizing entries with
  | nil =>
      cases h
      exact ⟨by simp, rfl, by simp⟩
  | cons first rest ih =>
      obtain ⟨rowIdx, row⟩ := first
      rw [updateEntries] at h
      split at h
      · rename_i values others hassign hothers
        cases h
        obtain ⟨hnamed, hpositions, hnoInsert⟩ := ih hothers
        refine ⟨List.forall_mem_cons.mpr ⟨rfl, hnamed⟩, ?_, List.forall_mem_cons.mpr ⟨fun _ => by simp, hnoInsert⟩⟩
        rw [List.map_cons, List.map_cons, hpositions]
      · cases h

theorem overRows_deleteEntries (tableName : String) (selected : List (Nat × Row)) :
    OverRows tableName selected (deleteEntries tableName selected) := by
  refine ⟨fun entry hentry => ?_, by simp [deleteEntries, Function.comp_def], fun entry hentry row => ?_⟩
  · obtain ⟨_, -, rfl⟩ := List.mem_map.mp hentry
    rfl
  · obtain ⟨_, -, rfl⟩ := List.mem_map.mp hentry
    simp

namespace OverRows

variable {engine : DatabaseEngine} {tableName : String} {table : Table} {filter : Row → Bool}
  {entries : List WriteEntry}

theorem nodup (h : OverRows tableName (engine.selectRows table filter) entries) :
    (entries.map (·.rowIdx)).Nodup :=
  h.positions ▸ (table.nodup_scanVisible _ _).sublist (List.filter_sublist.map _)

theorem lt_length (h : OverRows tableName (engine.selectRows table filter) entries) {entry : WriteEntry}
    (hentry : entry ∈ entries) : entry.rowIdx < table.versionChains.length := by
  have hposition : entry.rowIdx ∈ (engine.selectRows table filter).map Prod.fst :=
    h.positions ▸ List.mem_map_of_mem hentry
  obtain ⟨selected, hselected, heq⟩ := List.mem_map.mp hposition
  exact heq ▸ Table.lt_of_mem_scanVisible (List.mem_filter.mp hselected).1

end OverRows

namespace DatabaseEngine

variable {engine : DatabaseEngine}

/-- What a statement commits: entries for one table, either an INSERT or one entry a selected row. -/
inductive StatementWrites (engine : DatabaseEngine) (tableName : String) (table : Table) (plan : LogicalPlan) :
    List WriteEntry → Prop
  | insert (rows : List Row) (hplan : plan = .insert tableName rows) :
      StatementWrites engine tableName table plan (insertEntries tableName table.versionChains.length rows)
  | over (filter : Row → Bool) (entries : List WriteEntry)
      (hover : OverRows tableName (engine.selectRows table filter) entries) :
      StatementWrites engine tableName table plan entries

theorem StatementWrites.named {tableName : String} {table : Table} {plan : LogicalPlan} {entries : List WriteEntry}
    (h : StatementWrites engine tableName table plan entries) : ∀ entry ∈ entries, entry.tableName = tableName := by
  cases h with
  | insert rows hplan => exact fun entry hentry => tableName_of_mem_insertEntries hentry
  | «over» filter _ hover => exact hover.named

theorem pending_execute {plan : LogicalPlan} {begun : DatabaseEngine} {tx : Transaction}
    (h : engine.pending (.execute plan) = some (begun, tx)) :
    ∃ tableName table, findTable tableName engine.tables = some table ∧
      StatementWrites engine tableName table plan tx.writeSet := by
  obtain ⟨⟨start, entries⟩, hcommit, heq⟩ := Option.map_eq_some_iff.mp h
  obtain ⟨rfl, rfl⟩ := Prod.mk.inj heq
  cases plan with
  | insert tableName rows =>
      obtain ⟨table, htable, heq⟩ := Option.map_eq_some_iff.mp hcommit
      obtain ⟨-, rfl⟩ := Prod.mk.inj heq
      exact ⟨tableName, table, htable, .insert rows rfl⟩
  | update tableName assignments filter =>
      obtain ⟨table, htable, hcommit⟩ := Option.bind_eq_some_iff.mp hcommit
      obtain ⟨given, hgiven, hcommit⟩ := Option.bind_eq_some_iff.mp hcommit
      split at hcommit
      · cases hcommit
      · obtain ⟨-, rfl⟩ := Prod.mk.inj (Option.some.inj hcommit)
        exact ⟨tableName, table, htable, .over filter _ (overRows_updateEntries hgiven)⟩
  | delete tableName filter =>
      obtain ⟨table, htable, hcommit⟩ := Option.bind_eq_some_iff.mp hcommit
      dsimp only at hcommit
      split at hcommit
      · cases hcommit
      · obtain ⟨-, rfl⟩ := Prod.mk.inj (Option.some.inj hcommit)
        exact ⟨tableName, table, htable, .over filter _ (overRows_deleteEntries tableName _)⟩
  | createTable | dropTable | alterTableEngine | createIndex | dropIndex => cases hcommit

/-- The entries for a table when all entries are for one table. -/
theorem entriesOf_of_named {tx : Transaction} {tableName : String}
    (hnamed : ∀ entry ∈ tx.writeSet, entry.tableName = tableName) (name : String) :
    tx.entriesOf name = if name = tableName then tx.writeSet else [] := by
  rw [Transaction.entriesOf]
  split
  · rename_i heq
    refine List.filter_eq_self.mpr fun entry hentry => ?_
    rw [hnamed entry hentry, heq]
    exact beq_self_eq_true _
  · rename_i hne
    refine List.filter_eq_nil_iff.mpr fun entry hentry hsame => hne ?_
    rw [← hnamed entry hentry]
    exact (eq_of_beq hsame).symm

end DatabaseEngine

end HelionDb
