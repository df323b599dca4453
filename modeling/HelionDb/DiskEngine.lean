import HelionDb.ChangeReplay
import Mathlib.Data.List.Sort

/-! The disk engine of `disk.rs`: the tables it serves from memory, and their directories. A directory has the schema, full
copies of the table (bases) and lists of changes (deltas), the latter two named by a transaction id. What is written is
read back as it was, and the files of a table lie in the directory of its name. -/

namespace HelionDb

/-- The files in the directory of a table. -/
structure TableDir where
  schema : Option (String × List ColumnMeta)
  bases : List (Nat × Table)
  deltas : List (Nat × List (Nat × RowVersion))

namespace TableDir

/-- A directory that is not there, or has no files. -/
def empty : TableDir := { schema := none, bases := [], deltas := [] }

/-- The base with the highest id above 0, which is what `base_txid` starts at. -/
def latestBase (dir : TableDir) : Nat × Option Table :=
  dir.bases.foldl (fun latest base => if latest.1 < base.1 then (base.1, some base.2) else latest) (0, none)

/-- The deltas newer than the base, in the order of their ids. -/
def newerDeltas (dir : TableDir) : List (Nat × List (Nat × RowVersion)) :=
  (dir.deltas.filter fun delta => dir.latestBase.1 < delta.1).insertionSort fun left right => left.1 ≤ right.1

/-- The changes of some deltas one after the other. -/
def changesOf (deltas : List (Nat × List (Nat × RowVersion))) : List (Nat × RowVersion) := deltas.flatMap (·.2)

/-- `load_table_from_delta`, where there is a schema. -/
def loadTableFromDelta (dir : TableDir) : Option Table :=
  dir.schema.map fun schema =>
    let table := dir.latestBase.2.getD (Table.new schema.1 schema.2)
    { table with versionChains := dir.newerDeltas.foldl (fun chains delta => replay chains delta.2) table.versionChains }

/-! ### Writing -/

/-- `write_delta`: a file that is there stays. -/
def writeDelta (dir : TableDir) (changes : List (Nat × RowVersion)) (txid : Nat) : TableDir :=
  if dir.deltas.any fun delta => delta.1 = txid then dir else { dir with deltas := dir.deltas ++ [(txid, changes)] }

/-- `write_base`: the file is named by the highest writer among the last versions, and replaced where it is there. -/
def writeBase (dir : TableDir) (table : Table) : TableDir :=
  let txid := lastWriter table.versionChains
  { dir with bases := (dir.bases.filter fun base => base.1 ≠ txid) ++ [(txid, table)] }

/-- `clean_deltas`. -/
def cleanDeltas (dir : TableDir) : TableDir := { dir with deltas := [] }

end TableDir

/-- `DiskEngine`. -/
structure DiskEngine where
  dirs : String → TableDir
  tables : String → Option Table
  nextDeltaId : Nat

namespace DiskEngine

/-- The engine opened on an empty directory. -/
def opened : DiskEngine := { dirs := fun _ => .empty, tables := fun _ => none, nextDeltaId := 1 }

/-- `DiskEngine::create_table`. -/
def createTable (engine : DiskEngine) (name : String) (columns : List ColumnMeta) : DiskEngine :=
  { engine with
    dirs := Function.update engine.dirs name { engine.dirs name with schema := some (name, columns) }
    tables := Function.update engine.tables name (some (Table.new name columns)) }

/-- `DiskEngine::drop_table`. -/
def dropTable (engine : DiskEngine) (name : String) : DiskEngine :=
  { engine with
    dirs := Function.update engine.dirs name .empty
    tables := Function.update engine.tables name none }

/-- The id of a delta: the highest writer in it, or the next one of a counter. -/
def deltaId (engine : DiskEngine) (changes : List (Nat × RowVersion)) : Nat × DiskEngine :=
  match (changes.map fun change => change.2.txidMin).max? with
  | some txid => (txid, engine)
  | none => (engine.nextDeltaId, { engine with nextDeltaId := engine.nextDeltaId + 1 })

/-- `DiskEngine::apply_write_set`: the delta is written before the table is looked for. -/
def applyWriteSet (engine : DiskEngine) (name : String) (changes : List (Nat × RowVersion)) :
    Loop.Outcome HelionError DiskEngine :=
  let (txid, engine) := engine.deltaId changes
  let written := { engine with dirs := Function.update engine.dirs name ((engine.dirs name).writeDelta changes txid) }
  match engine.tables name with
  | none => (.error (.tableNotFound name), written)
  | some table =>
      (.ok (), { written with
        tables := Function.update engine.tables name
          (some { table with versionChains := replay table.versionChains changes }) })

/-- `DiskEngine::flush`. -/
def flush (engine : DiskEngine) : DiskEngine :=
  { engine with
    dirs := fun name =>
      match engine.tables name with
      | some table => ((engine.dirs name).writeBase table).cleanDeltas
      | none => engine.dirs name }

end DiskEngine

/-- A call of the disk engine that changes it. -/
inductive DiskCall where
  | createTable (name : String) (columns : List ColumnMeta)
  | dropTable (name : String)
  | applyWriteSet (name : String) (changes : List (Nat × RowVersion))
  | flush

namespace DiskEngine

/-- What a call leaves, also where it fails. -/
def step (engine : DiskEngine) : DiskCall → DiskEngine
  | .createTable name columns => engine.createTable name columns
  | .dropTable name => engine.dropTable name
  | .applyWriteSet name changes => (engine.applyWriteSet name changes).2
  | .flush => engine.flush

/-- The engine after some calls on an empty directory. -/
def after (calls : List DiskCall) : DiskEngine := calls.foldl step opened

/-- The changes of a call have the same effect in memory as in the catalog's disk engine. -/
theorem applyWriteSet_eq_applyChanges {engine : DiskEngine} {catalog : Catalog} (h : catalog.engines .disk = engine.tables)
    (name : String) (changes : List (Nat × RowVersion)) :
    (engine.applyWriteSet name changes).1 = (catalog.applyChanges .disk name changes).1 ∧
      (engine.applyWriteSet name changes).2.tables = (catalog.applyChanges .disk name changes).2.engines .disk := by
  have htables : (engine.deltaId changes).2.tables = engine.tables := by
    unfold deltaId
    split <;> rfl
  unfold applyWriteSet Catalog.applyChanges
  dsimp only
  rw [h, htables]
  cases htable : engine.tables name with
  | none => exact ⟨rfl, h.symm⟩
  | some table =>
      refine ⟨rfl, ?_⟩
      simp [Catalog.setTable, h]
      rfl

end DiskEngine

end HelionDb
