import HelionDb.KeyedList
import HelionDb.Mvcc

/-! The write-ahead log of `wal.rs` at the level of its records, and their replay. Replay is a second
interpreter of write sets: it validates inserted rows and places them by arrival, and reads the row a
deletion repeats off the table it has rebuilt so far. What it does to names, columns and chains
depends on nothing else, so an image of the tables is enough to follow it. -/

namespace HelionDb

inductive Permission where
  | select (columns : List String)
  | insert (columns : List String)
  | update (columns : List String)
  | delete
  | all
  deriving DecidableEq, Repr

/-- What a checkpoint keeps of a table. -/
structure TableImage where
  name : String
  columns : List ColumnMeta
  versionChains : List Chain
  deriving DecidableEq

def Table.image (table : Table) : TableImage :=
  { name := table.name, columns := table.columns, versionChains := table.versionChains }

/-- A table as recovery rebuilds it from a checkpoint: the indexes are those of `Table::new`. -/
def TableImage.restore (image : TableImage) : Table :=
  { Table.new image.name image.columns with versionChains := image.versionChains }

inductive WalRecord where
  | createTable (name : String) (columns : List ColumnMeta)
  | dropTable (name : String)
  | insert (table : String) (row : Row) (txid : Nat)
  | update (table : String) (rowIdx : Nat) (newRow : Row) (txid : Nat)
  | delete (table : String) (rowIdx : Nat) (txid : Nat)
  | commit (txid : Nat)
  | checkpoint (tableCount : Nat) (tables : List TableImage)
  | createUser (username passwordHash : String)
  | dropUser (username : String)
  | grant (username table : String) (permission : Permission)
  | revoke (username table : String) (permission : Permission)
  deriving DecidableEq

/-- `tables.iter().find(|t| t.name == name)`. -/
abbrev findTable (name : String) (tables : List Table) : Option Table :=
  KeyedList.lookup Table.name name tables

/-- Update the table `iter_mut().find(|t| t.name == name)` gives. -/
abbrev updateTable (name : String) (f : Table → Table) (tables : List Table) : List Table :=
  KeyedList.update Table.name name f tables

namespace Table

/-- The `Insert` arm of `apply_wal_record`: an invalid row is skipped. -/
def replayInsert (row : Row) (txid : Nat) (table : Table) : Table :=
  match table.validateRow row with
  | .error _ => table
  | .ok () => { table with versionChains := table.versionChains ++ [[.newInsert txid row]] }

/-- The `Update` arm of `apply_wal_record`. -/
def replayUpdate (rowIdx : Nat) (newRow : Row) (txid : Nat) (table : Table) : Table :=
  if rowIdx < table.versionChains.length then
    { table with
      versionChains := table.versionChains.modify rowIdx (extendChain txid (.newUpdate txid newRow)) }
  else table

/-- The `Delete` arm of `apply_wal_record`. -/
def replayDelete (rowIdx : Nat) (txid : Nat) (table : Table) : Table :=
  match table.versionChains[rowIdx]? with
  | none => table
  | some chain =>
      match chain.getLast? with
      | none => table
      | some latest =>
          { table with
            versionChains :=
              table.versionChains.modify rowIdx (extendChain txid (.newDelete txid latest.row)) }

end Table

/-- `apply_wal_record`. -/
def applyWalRecord (tables : List Table) : WalRecord → List Table
  | .createTable name columns =>
      if tables.any fun table => table.name == name then tables else tables ++ [Table.new name columns]
  | .dropTable name => tables.filter fun table => table.name != name
  | .insert table row txid => updateTable table (Table.replayInsert row txid) tables
  | .update table rowIdx newRow txid => updateTable table (Table.replayUpdate rowIdx newRow txid) tables
  | .delete table rowIdx txid => updateTable table (Table.replayDelete rowIdx txid) tables
  | .commit _ => tables
  | .checkpoint _ images => images.map TableImage.restore
  | .createUser _ _ => tables
  | .dropUser _ => tables
  | .grant _ _ _ => tables
  | .revoke _ _ _ => tables

/-- Replay records on top of some tables. -/
def replayRecords (tables : List Table) (records : List WalRecord) : List Table :=
  records.foldl applyWalRecord tables

/-- The record a commit appends for one entry of its write set. -/
def WriteEntry.walRecord (txId : Nat) (entry : WriteEntry) : WalRecord :=
  match entry.operation with
  | .insert row => .insert entry.tableName row txId
  | .update newRow => .update entry.tableName entry.rowIdx newRow txId
  | .delete => .delete entry.tableName entry.rowIdx txId

/-- The records a commit appends. -/
def Transaction.walRecords (tx : Transaction) : List WalRecord :=
  tx.writeSet.map (WriteEntry.walRecord tx.txId) ++ [.commit tx.txId]

namespace Table

/-- A round of index building only adds an index, which is empty. -/
private theorem buildUniqueIndex_cases (table : Table) (column : ColumnMeta × Nat) :
    ∃ added : List Index, buildUniqueIndex table column = { table with indexes := table.indexes ++ added } ∧
      ∀ index ∈ added, index = Index.new index.definition := by
  unfold buildUniqueIndex
  split
  · dsimp only
    split
    · exact ⟨[], by simp, by simp⟩
    · exact ⟨[_], rfl, by simp [Index.newUnique]⟩
  · exact ⟨[], by simp, by simp⟩

private theorem foldl_buildUniqueIndex_cases (columns : List (ColumnMeta × Nat)) (table : Table) :
    ∃ added : List Index,
      columns.foldl buildUniqueIndex table = { table with indexes := table.indexes ++ added } ∧
      ∀ index ∈ added, index = Index.new index.definition := by
  induction columns generalizing table with
  | nil => exact ⟨[], by simp, by simp⟩
  | cons column rest ih =>
      obtain ⟨first, hfirst, hnew⟩ := buildUniqueIndex_cases table column
      obtain ⟨added, hadded, hrest⟩ := ih (buildUniqueIndex table column)
      refine ⟨first ++ added, ?_, fun index hindex => ?_⟩
      · rw [List.foldl_cons, hadded, hfirst, List.append_assoc]
      · exact (List.mem_append.mp hindex).elim (hnew index) (hrest index)

/-- `Table::new` gives an empty table whose indexes are empty. -/
theorem new_cases (name : String) (columns : List ColumnMeta) :
    (new name columns).name = name ∧ (new name columns).columns = columns ∧
      (new name columns).versionChains = [] ∧
      ∀ index ∈ (new name columns).indexes, index = Index.new index.definition := by
  have hpk : ∀ table : Table, table.indexes = [] → ∃ added : List Index,
      buildPkIndex table = { table with indexes := added } ∧
        ∀ index ∈ added, index = Index.new index.definition := by
    intro table hindexes
    unfold buildPkIndex
    split
    · exact ⟨[], by simp [← hindexes], by simp⟩
    · simp only [hindexes, List.any_nil, Bool.false_eq_true, if_false, List.nil_append]
      exact ⟨_, rfl, by simp [Index.newUnique]⟩
  obtain ⟨first, hfirst, hnew⟩ := hpk
    { name, columns, versionChains := [], primaryKeyIdx := columns.findIdx? (·.isPrimaryKey), indexes := [] } rfl
  obtain ⟨added, hadded, hrest⟩ := foldl_buildUniqueIndex_cases columns.zipIdx
    { name, columns, versionChains := [], primaryKeyIdx := columns.findIdx? (·.isPrimaryKey), indexes := first }
  have hnewTable : new name columns =
      { name, columns, versionChains := [], primaryKeyIdx := columns.findIdx? (·.isPrimaryKey),
        indexes := first ++ added } := by
    rw [new, buildUniqueIndexes, hfirst]
    exact hadded
  rw [hnewTable]
  exact ⟨rfl, rfl, rfl, fun index hindex => (List.mem_append.mp hindex).elim (hnew index) (hrest index)⟩

@[simp] theorem new_name (name : String) (columns : List ColumnMeta) : (new name columns).name = name :=
  (new_cases name columns).1

@[simp] theorem new_columns (name : String) (columns : List ColumnMeta) :
    (new name columns).columns = columns := (new_cases name columns).2.1

@[simp] theorem new_versionChains (name : String) (columns : List ColumnMeta) :
    (new name columns).versionChains = [] := (new_cases name columns).2.2.1

theorem index_new {name : String} {columns : List ColumnMeta} {index : Index}
    (hindex : index ∈ (new name columns).indexes) : index = Index.new index.definition :=
  (new_cases name columns).2.2.2 index hindex

end Table

@[simp] theorem TableImage.image_restore (image : TableImage) : image.restore.image = image := by
  simp [TableImage.restore, Table.image]

/-! ### Replay on images -/

@[simp] theorem Table.image_name (table : Table) : table.image.name = table.name := rfl

private theorem replayInsert_congr {row : Row} {txid : Nat} {left right : Table}
    (h : left.image = right.image) :
    (left.replayInsert row txid).image = (right.replayInsert row txid).image := by
  obtain ⟨hname, hcolumns, hchains⟩ := TableImage.mk.inj h
  have hvalid : left.validateRow row = right.validateRow row := by
    simp only [Table.validateRow, hname, hcolumns]
  unfold Table.replayInsert
  rw [hvalid]
  split
  · exact h
  · simp only [Table.image, hname, hcolumns, hchains]

private theorem replayUpdate_congr {rowIdx : Nat} {newRow : Row} {txid : Nat} {left right : Table}
    (h : left.image = right.image) :
    (left.replayUpdate rowIdx newRow txid).image = (right.replayUpdate rowIdx newRow txid).image := by
  obtain ⟨hname, hcolumns, hchains⟩ := TableImage.mk.inj h
  unfold Table.replayUpdate
  rw [hchains]
  split
  · simp only [Table.image, hname, hcolumns]
  · exact h

private theorem replayDelete_congr {rowIdx txid : Nat} {left right : Table} (h : left.image = right.image) :
    (left.replayDelete rowIdx txid).image = (right.replayDelete rowIdx txid).image := by
  obtain ⟨hname, hcolumns, hchains⟩ := TableImage.mk.inj h
  unfold Table.replayDelete
  rw [hchains]
  split
  · exact h
  · split
    · exact h
    · simp only [Table.image, hname, hcolumns]

/-- Replay of a record depends on the images of the tables alone. -/
theorem applyWalRecord_congr {left right : List Table} (h : left.map Table.image = right.map Table.image)
    (record : WalRecord) :
    (applyWalRecord left record).map Table.image = (applyWalRecord right record).map Table.image := by
  have hnames : ∀ p : String → Bool,
      (left.any fun table => p table.name) = right.any fun table => p table.name := by
    intro p
    have hany : ∀ tables : List Table, (tables.any fun table => p table.name) =
        (tables.map Table.image).any fun image => p image.name := by simp [Function.comp_def]
    rw [hany, hany, h]
  have hfilter : ∀ p : String → Bool, (left.filter fun table => p table.name).map Table.image =
      (right.filter fun table => p table.name).map Table.image := by
    intro p
    have hmap : ∀ tables : List Table, (tables.filter fun table => p table.name).map Table.image =
        (tables.map Table.image).filter fun image => p image.name := by
      intro tables
      rw [List.filter_map]
      rfl
    rw [hmap, hmap, h]
  have hkey : ∀ table : Table, table.image.name = table.name := fun _ => rfl
  cases record with
  | createTable name columns =>
      have hexists := hnames fun other => other == name
      simp only [applyWalRecord, hexists]
      split
      · exact h
      · rw [List.map_append, List.map_append, h]
  | dropTable name => exact hfilter fun other => other != name
  | insert table row txid => exact KeyedList.map_update_congr hkey (fun _ _ => replayInsert_congr) h
  | update table rowIdx newRow txid =>
      exact KeyedList.map_update_congr hkey (fun _ _ => replayUpdate_congr) h
  | delete table rowIdx txid => exact KeyedList.map_update_congr hkey (fun _ _ => replayDelete_congr) h
  | checkpoint tableCount images => rfl
  | commit | createUser | dropUser | grant | revoke => exact h

theorem replayRecords_congr {left right : List Table} (h : left.map Table.image = right.map Table.image)
    (records : List WalRecord) :
    (replayRecords left records).map Table.image = (replayRecords right records).map Table.image := by
  induction records generalizing left right with
  | nil => exact h
  | cons record rest ih => exact ih (applyWalRecord_congr h record)

theorem replayRecords_append (tables : List Table) (first second : List WalRecord) :
    replayRecords tables (first ++ second) = replayRecords (replayRecords tables first) second :=
  List.foldl_append

/-- A checkpoint makes replay forget everything before it. -/
theorem replayRecords_checkpoint (tables : List Table) (prior : List WalRecord) (count : Nat)
    (images : List TableImage) :
    (replayRecords tables (prior ++ [.checkpoint count images])).map Table.image = images := by
  rw [replayRecords_append]
  change (images.map TableImage.restore).map Table.image = images
  rw [List.map_map]
  conv_rhs => rw [← List.map_id images]
  exact List.map_congr_left fun image _ => TableImage.image_restore image

end HelionDb
