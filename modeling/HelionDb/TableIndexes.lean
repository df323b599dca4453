import HelionDb.Table

/-! Index management of `table.rs`: rebuilding, adding and dropping indexes, the uniqueness check
before a commit and the maintenance after it. -/

namespace HelionDb

/-- The pairs a write entry takes out of and puts into an index with this definition. -/
def WriteOp.keyChanges (definition : IndexMeta) (oldRow : Option Row) (rowIdx : Nat) :
    WriteOp → List (KeyPairs.Change (List Datum) Nat)
  | .insert row => [.add (definition.extractKey row) rowIdx]
  | .update newRow =>
      match oldRow with
      | some old => [.drop (definition.extractKey old) rowIdx, .add (definition.extractKey newRow) rowIdx]
      | none => []
  | .delete =>
      match oldRow with
      | some old => [.drop (definition.extractKey old) rowIdx]
      | none => []

/-- An update whose old row could not be found. -/
def WriteOp.LacksOldRow (oldRow : Option Row) : WriteOp → Prop
  | .update _ => oldRow = none
  | _ => False

namespace Index

/-- The part of `apply_index_changes` that concerns one index. -/
def applyChange (operation : WriteOp) (oldRow : Option Row) (rowIdx : Nat) (index : Index) :
    Loop.Outcome HelionError Index :=
  match operation with
  | .insert row =>
      Loop.mapError (.internalFrom "Index insert failed after commit: ")
        (index.insert (index.extractKey row) rowIdx)
  | .update newRow =>
      match oldRow with
      | none => (.error (.internal "Missing old row for index update"), index)
      | some old =>
          Loop.mapError (.internalFrom "Index update failed after commit: ")
            (index.update (index.extractKey old) (index.extractKey newRow) rowIdx)
  | .delete =>
      match oldRow with
      | none => (.ok (), index)
      | some old => (.ok (), index.remove (index.extractKey old) rowIdx)

variable {operation : WriteOp} {oldRow : Option Row} {rowIdx : Nat} {index : Index}

/-- Maintenance of one index succeeds when the old row is there and each pair is admitted. -/
theorem applyChange_ok_iff :
    (index.applyChange operation oldRow rowIdx).1 = .ok () ↔
      ¬ operation.LacksOldRow oldRow ∧
        KeyPairs.Admissible index.definition.isUnique index.pairs
          (operation.keyChanges index.definition oldRow rowIdx) := by
  cases operation with
  | insert row =>
      simp [applyChange, insert_ok_iff, WriteOp.LacksOldRow, WriteOp.keyChanges, KeyPairs.Admissible,
        extractKey]
  | update newRow =>
      cases oldRow with
      | none => simp [applyChange, WriteOp.LacksOldRow]
      | some old => simp [applyChange, update_ok_iff, WriteOp.LacksOldRow, WriteOp.keyChanges, extractKey]
  | delete =>
      cases oldRow with
      | none => simp [applyChange, WriteOp.LacksOldRow, WriteOp.keyChanges, KeyPairs.Admissible]
      | some old =>
          simp [applyChange, WriteOp.LacksOldRow, WriteOp.keyChanges, KeyPairs.Admissible, KeyPairs.Admits]

theorem pairs_applyChange (hok : (index.applyChange operation oldRow rowIdx).1 = .ok ()) :
    (index.applyChange operation oldRow rowIdx).2.pairs =
      KeyPairs.applyAll index.pairs (operation.keyChanges index.definition oldRow rowIdx) := by
  cases operation with
  | insert row =>
      have hinsert := Loop.mapError_ok_iff.mp hok
      change (index.insert (index.extractKey row) rowIdx).2.pairs = _
      rw [insert_of_ok hinsert, pairs_insertEntry]
      rfl
  | update newRow =>
      cases oldRow with
      | none => cases hok
      | some old => exact pairs_update_of_ok (Loop.mapError_ok_iff.mp hok)
  | delete =>
      cases oldRow with
      | none => rfl
      | some old => exact pairs_remove index _ rowIdx

@[simp] theorem applyChange_definition (operation : WriteOp) (oldRow : Option Row) (rowIdx : Nat)
    (index : Index) : (index.applyChange operation oldRow rowIdx).2.definition = index.definition := by
  cases operation with
  | insert row => exact insert_definition _ _ _
  | update newRow =>
      cases oldRow with
      | none => rfl
      | some old => exact (insert_definition _ _ _).trans (remove_definition _ _ _)
  | delete =>
      cases oldRow with
      | none => rfl
      | some old => exact remove_definition _ _ _

/-- Insert the key of every listed row. -/
def fill (index : Index) (visible : List (Nat × Row)) : Index :=
  visible.foldl (fun current entry => current.insertEntry (current.extractKey entry.2) entry.1) index

@[simp] theorem fill_definition (index : Index) (visible : List (Nat × Row)) :
    (index.fill visible).definition = index.definition := by
  induction visible generalizing index with
  | nil => rfl
  | cons entry rest ih => exact ih _

theorem mem_pairs_fill {index : Index} {visible : List (Nat × Row)} {key : List Datum} {row : Nat} :
    (key, row) ∈ (index.fill visible).pairs ↔
      (key, row) ∈ index.pairs ∨
        ∃ entry ∈ visible, entry.1 = row ∧ index.definition.extractKey entry.2 = key := by
  induction visible generalizing index with
  | nil => simp [fill]
  | cons entry rest ih =>
      change (key, row) ∈ ((index.insertEntry (index.extractKey entry.2) entry.1).fill rest).pairs ↔ _
      rw [ih, pairs_insertEntry, KeyPairs.mem_apply_add, insertEntry_definition, List.exists_mem_cons_iff,
        Prod.mk.injEq, extractKey]
      tauto

end Index

namespace Table

/-- The pairs a definition reads off the rows that are live, as a full scan sees them. -/
def livePairs (table : Table) (definition : IndexMeta) : Set (List Datum × Nat) :=
  { pair | ∃ row, (pair.2, row) ∈ table.scanVisible u64Max ∅ ∧ definition.extractKey row = pair.1 }

/-- `Table::rebuild_indexes`. -/
def rebuildIndexes (table : Table) : Table :=
  { table with
    indexes := (table.scanVisible u64Max ∅).foldl
      (fun indexes visible =>
        indexes.map fun index => index.insertEntry (index.extractKey visible.2) visible.1)
      (table.indexes.map Index.clear) }

private theorem foldl_insertEntry_map (visible : List (Nat × Row)) (indexes : List Index) :
    visible.foldl
        (fun indexes visible =>
          indexes.map fun index => index.insertEntry (index.extractKey visible.2) visible.1) indexes =
      indexes.map fun index => index.fill visible := by
  induction visible generalizing indexes with
  | nil => simp [Index.fill]
  | cons entry rest ih =>
      rw [List.foldl_cons, ih, List.map_map]
      rfl

theorem rebuildIndexes_indexes (table : Table) :
    table.rebuildIndexes.indexes =
      table.indexes.map fun index => (Index.new index.definition).fill (table.scanVisible u64Max ∅) := by
  change List.foldl _ _ _ = _
  rw [foldl_insertEntry_map, List.map_map]
  rfl

theorem pairs_fill_scan (table : Table) (definition : IndexMeta) :
    ((Index.new definition).fill (table.scanVisible u64Max ∅)).pairs = table.livePairs definition := by
  ext ⟨key, row⟩
  rw [Index.mem_pairs_fill, Index.pairs_new]
  constructor
  · rintro (hnone | ⟨⟨idx, found⟩, hmem, rfl, hkey⟩)
    · exact absurd hnone (Set.notMem_empty _)
    · exact ⟨found, hmem, hkey⟩
  · rintro ⟨found, hmem, hkey⟩
    exact Or.inr ⟨(row, found), hmem, rfl, hkey⟩

@[simp] theorem rebuildIndexes_definitions (table : Table) :
    table.rebuildIndexes.definitions = table.definitions := by
  rw [definitions, rebuildIndexes_indexes, List.map_map]
  exact List.map_congr_left fun index _ => Index.fill_definition _ _

/-- An index agrees with the chains when it holds exactly the keys of the live rows. -/
theorem rebuildIndexes_eq_iff {table : Table} :
    table.rebuildIndexes = table ↔
      ∀ index ∈ table.indexes, index.pairs = table.livePairs index.definition := by
  have hfields : table.rebuildIndexes = table ↔ table.rebuildIndexes.indexes = table.indexes :=
    ⟨congrArg indexes, fun heq => congrArg (fun indexes => { table with indexes := indexes }) heq⟩
  rw [hfields, rebuildIndexes_indexes]
  nth_rewrite 2 [← List.map_id table.indexes]
  rw [List.map_inj_left]
  constructor
  · intro heq index hindex
    rw [← pairs_fill_scan, heq index hindex, id]
  · intro hpairs index hindex
    exact Index.ext_pairs (Index.fill_definition _ _)
      ((pairs_fill_scan table _).trans (hpairs index hindex).symm)

/-- A rebuild makes every index agree with the chains. -/
theorem rebuildIndexes_consistent {table : Table} {index : Index} (hindex : index ∈ table.rebuildIndexes.indexes) :
    index.pairs = table.livePairs index.definition := by
  rw [rebuildIndexes_indexes] at hindex
  obtain ⟨old, -, rfl⟩ := List.mem_map.mp hindex
  rw [pairs_fill_scan, Index.fill_definition, Index.new_definition]

/-- One round of the loop of `add_index`. -/
def populate (name : String) (isUnique : Bool) (entry : Nat × Row) (index : Index) :
    Loop.Outcome HelionError Index :=
  if isUnique then
    Loop.mapError (fun _ => .duplicateKey name (index.extractKey entry.2))
      (index.insert (index.extractKey entry.2) entry.1)
  else (.ok (), index.insertEntry (index.extractKey entry.2) entry.1)

/-- `Table::add_index`. -/
def addIndex (table : Table) (name : String) (columns : List Nat) (isUnique : Bool) :
    Except HelionError Table :=
  if table.indexes.any fun index => index.definition.name == name then .error (.indexAlreadyExists name)
  else
    match Loop.runAll (populate name isUnique) (table.scanVisible u64Max ∅)
        (Index.new { name, columns, isUnique }) with
    | (.ok (), index) => .ok { table with indexes := table.indexes ++ [index] }
    | (.error err, _) => .error err

private theorem populate_of_ok {name : String} {isUnique : Bool} {entry : Nat × Row} {index : Index}
    (hok : (populate name isUnique entry index).1 = .ok ()) :
    (populate name isUnique entry index).2 = index.insertEntry (index.extractKey entry.2) entry.1 := by
  cases isUnique with
  | false => rfl
  | true => exact Index.insert_of_ok (Loop.mapError_ok_iff.mp hok)

private theorem populate_uniqueKeys {name : String} {entry : Nat × Row} {index : Index}
    (hunique : index.definition.isUnique = true) (hkeys : KeyPairs.UniqueKeys index.pairs)
    (hok : (populate name true entry index).1 = .ok ()) :
    KeyPairs.UniqueKeys (populate name true entry index).2.pairs := by
  have hadmits := Index.insert_ok_iff.mp (Loop.mapError_ok_iff.mp hok)
  rw [populate_of_ok hok, Index.pairs_insertEntry]
  rw [hunique] at hadmits
  exact hkeys.apply hadmits

private theorem runAll_populate {name : String} {isUnique : Bool} {visible : List (Nat × Row)}
    {index : Index} (hdefinition : index.definition.isUnique = isUnique)
    (hok : (Loop.runAll (populate name isUnique) visible index).1 = .ok ()) :
    (Loop.runAll (populate name isUnique) visible index).2 = index.fill visible ∧
      (isUnique = true → KeyPairs.UniqueKeys index.pairs → KeyPairs.UniqueKeys (index.fill visible).pairs) := by
  induction visible generalizing index with
  | nil => exact ⟨rfl, fun _ hkeys => hkeys⟩
  | cons entry rest ih =>
      obtain ⟨hhead, hrest⟩ := (Loop.runAll_cons_ok_iff _).mp hok
      rw [Loop.runAll_cons_ok _ hhead]
      have hstep := populate_of_ok hhead
      rw [hstep] at hrest ⊢
      obtain ⟨hfill, hkeys⟩ := ih (by simpa using hdefinition) hrest
      refine ⟨hfill, fun hunique hindex => hkeys hunique ?_⟩
      subst hunique
      rw [← hstep]
      exact populate_uniqueKeys hdefinition hindex hhead

/-- What a successful `add_index` adds: one index with the given definition that holds the keys of
the live rows, all different if it is unique. -/
theorem addIndex_ok {table next : Table} {name : String} {columns : List Nat} {isUnique : Bool}
    (hok : table.addIndex name columns isUnique = .ok next) :
    ∃ index : Index, next = { table with indexes := table.indexes ++ [index] } ∧
      index.definition = { name, columns, isUnique } ∧
      index.pairs = table.livePairs index.definition ∧
      (isUnique = true → KeyPairs.UniqueKeys index.pairs) := by
  unfold addIndex at hok
  split at hok
  · cases hok
  · split at hok
    · rename_i index hrun
      cases hok
      have hnew : (Index.new { name, columns, isUnique }).definition.isUnique = isUnique := rfl
      obtain ⟨hfill, hkeys⟩ := runAll_populate hnew (congrArg Prod.fst hrun)
      rw [hrun] at hfill
      change index = _ at hfill
      refine ⟨index, rfl, ?_, ?_, ?_⟩
      · rw [hfill, Index.fill_definition, Index.new_definition]
      · rw [hfill, Index.fill_definition, Index.new_definition]
        exact pairs_fill_scan table _
      · intro hunique
        rw [hfill]
        refine hkeys hunique ?_
        rw [Index.pairs_new]
        exact fun _ _ _ hmem => absurd hmem (Set.notMem_empty _)
    · cases hok

/-- `Table::drop_index`. -/
def dropIndex (table : Table) (name : String) : Except HelionError Table :=
  match table.indexes.findIdx? fun index => index.definition.name == name with
  | some pos => .ok { table with indexes := table.indexes.eraseIdx pos }
  | none => .error (.indexNotFound name)

theorem dropIndex_ok {table next : Table} {name : String} (hok : table.dropIndex name = .ok next) :
    ∃ pos, next = { table with indexes := table.indexes.eraseIdx pos } := by
  unfold dropIndex at hok
  split at hok
  · rename_i pos _
    exact ⟨pos, (Except.ok.inj hok).symm⟩
  · cases hok

end Table

/-! ### The check before a commit and the maintenance after it -/

/-- One round of the loop of `check_unique_constraints`: a key of nothing but NULLs passes. -/
def Index.checkUnique (isInsert : Bool) (rowIdx : Nat) (row : Row) (index : Index) :
    Except HelionError Unit :=
  if !index.definition.isUnique then .ok ()
  else if (index.extractKey row).all Datum.isNull then .ok ()
  else
    match index.get (index.extractKey row) with
    | some existing =>
        if existing.card = 1 ∧ rowIdx ∈ existing then .ok ()
        else if isInsert ∨ rowIdx ∉ existing then
          .error (.duplicateKey index.definition.name (index.extractKey row))
        else .ok ()
    | none => .ok ()

namespace Table

/-- `Table::check_unique_constraints`. -/
def checkUniqueConstraints (table : Table) (isInsert : Bool) (rowIdx : Nat) (row : Row) :
    Except HelionError Unit :=
  Loop.checkAll (Index.checkUnique isInsert rowIdx row) table.indexes

/-- `Table::apply_index_changes`: the indexes before the one that fails stay changed. -/
def applyIndexChanges (operation : WriteOp) (oldRow : Option Row) (rowIdx : Nat) (table : Table) :
    Loop.Outcome HelionError Table :=
  let outcome := Loop.updateEach (Index.applyChange operation oldRow rowIdx) table.indexes
  (outcome.1, { table with indexes := outcome.2 })

end Table

end HelionDb
