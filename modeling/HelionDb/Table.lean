import HelionDb.Btree

/-! Tables of `table.rs`: version chains, the visibility rule, schema validation and index
maintenance. A write entry asks an index for a list of pair changes; maintaining the index over a
write set carries those changes out in order and stops at the first one that is not admitted. -/

namespace HelionDb

structure RowVersion where
  txidMin : Nat
  txidMax : Nat
  row : Row
  isDeleted : Bool
  deriving DecidableEq, Repr

namespace RowVersion

def newInsert (txid : Nat) (row : Row) : RowVersion :=
  { txidMin := txid, txidMax := u64Max, row, isDeleted := false }

def newUpdate (txid : Nat) (row : Row) : RowVersion :=
  { txidMin := txid, txidMax := u64Max, row, isDeleted := false }

def newDelete (txid : Nat) (row : Row) : RowVersion :=
  { txidMin := txid, txidMax := u64Max, row, isDeleted := true }

end RowVersion

/-- `mvcc::WriteOp`. -/
inductive WriteOp where
  | insert (row : Row)
  | update (row : Row)
  | delete
  deriving DecidableEq, Repr

abbrev Chain := List RowVersion

/-- `is_version_visible`. The transaction behind `txid_max` is not looked up in the active set. -/
def isVersionVisible (version : RowVersion) (snapshotTxid : Nat)
    (activeTxns : Finset Nat) : Bool :=
  if snapshotTxid < version.txidMin then false
  else if version.txidMax ≠ u64Max ∧ version.txidMax ≤ snapshotTxid then false
  else if version.txidMin ∈ activeTxns ∧ version.txidMin ≠ snapshotTxid then false
  else true

theorem isVersionVisible_iff {version : RowVersion} {snapshotTxid : Nat}
    {activeTxns : Finset Nat} :
    isVersionVisible version snapshotTxid activeTxns = true ↔
      version.txidMin ≤ snapshotTxid ∧
        (version.txidMax = u64Max ∨ snapshotTxid < version.txidMax) ∧
        (version.txidMin ∈ activeTxns → version.txidMin = snapshotTxid) := by
  unfold isVersionVisible
  split
  · simp
    omega
  · split
    · simp
      omega
    · split
      · simp
        tauto
      · simp
        refine ⟨by omega, by omega, by tauto⟩

/-- The version a snapshot selects from a chain: the last visible one, deleted or not. -/
def selectVersion (chain : Chain) (snapshotTxid : Nat) (activeTxns : Finset Nat) :
    Option RowVersion :=
  chain.reverse.find? fun version => isVersionVisible version snapshotTxid activeTxns

/-- `Table::latest_visible`. -/
def latestVisible (chain : Chain) (snapshotTxid : Nat) (activeTxns : Finset Nat) :
    Option RowVersion :=
  (selectVersion chain snapshotTxid activeTxns).filter fun version => !version.isDeleted

/-- The current version of a chain: the last one with `txid_max == u64::MAX`. -/
def currentVersion (chain : Chain) : Option RowVersion :=
  chain.reverse.find? fun version => version.txidMax == u64Max

structure Table where
  name : String
  columns : List ColumnMeta
  versionChains : List Chain
  primaryKeyIdx : Option Nat
  indexes : List Index

namespace Table

/-- `Table::build_pk_index`. -/
def buildPkIndex (table : Table) : Table :=
  match table.primaryKeyIdx with
  | none => table
  | some pkCol =>
      let pkName := "pk_" ++ table.name
      if table.indexes.any fun index => index.definition.name == pkName then table
      else { table with indexes := table.indexes ++ [Index.newUnique pkName [pkCol]] }

/-- One round of the loop of `build_unique_indexes`. -/
def buildUniqueIndex (table : Table) (column : ColumnMeta × Nat) : Table :=
  if column.1.isUnique && !column.1.isPrimaryKey then
    let uqName := "uq_" ++ table.name ++ "_" ++ column.1.name
    if table.indexes.any fun index => index.definition.name == uqName then table
    else { table with indexes := table.indexes ++ [Index.newUnique uqName [column.2]] }
  else table

/-- `Table::build_unique_indexes`. -/
def buildUniqueIndexes (table : Table) : Table :=
  table.columns.zipIdx.foldl buildUniqueIndex table

/-- `Table::new`. -/
def new (name : String) (columns : List ColumnMeta) : Table :=
  buildUniqueIndexes <| buildPkIndex
    { name, columns, versionChains := [], primaryKeyIdx := columns.findIdx? (·.isPrimaryKey),
      indexes := [] }

def rowCount (table : Table) : Nat := table.versionChains.length

/-- `Table::scan_visible`. -/
def scanVisible (table : Table) (snapshotTxid : Nat) (activeTxns : Finset Nat) :
    List (Nat × Row) :=
  table.versionChains.zipIdx.filterMap fun (chain, idx) =>
    (latestVisible chain snapshotTxid activeTxns).map fun version => (idx, version.row)

theorem mem_scanVisible {table : Table} {snapshotTxid : Nat}
    {activeTxns : Finset Nat} {idx : Nat} {row : Row} :
    (idx, row) ∈ table.scanVisible snapshotTxid activeTxns ↔
      ∃ chain, table.versionChains[idx]? = some chain ∧
        ∃ version, latestVisible chain snapshotTxid activeTxns = some version ∧ version.row = row := by
  simp only [scanVisible, List.mem_filterMap, Prod.exists, List.mem_zipIdx_iff_getElem?,
    Option.map_eq_some_iff, Prod.mk.injEq]
  constructor
  · rintro ⟨chain, position, hchain, version, hversion, rfl, hrow⟩
    exact ⟨chain, hchain, version, hversion, hrow⟩
  · rintro ⟨chain, hchain, version, hversion, hrow⟩
    exact ⟨chain, idx, hchain, version, hversion, rfl, hrow⟩

/-- `get_visible_row` of the engine: the row of the last version that is neither replaced nor a
tombstone. -/
def getVisibleRow (table : Table) (rowIdx : Nat) : Option Row :=
  match table.versionChains[rowIdx]? with
  | some chain =>
      (chain.reverse.find? fun version => version.txidMax == u64Max && !version.isDeleted).map (·.row)
  | none => none

/-- The index definitions of a table. -/
def definitions (table : Table) : List IndexMeta := table.indexes.map (·.definition)

/-! ### Schema validation -/

end Table

/-- `types_compatible`. -/
def typesCompatible (expected actual : DataType) : Bool :=
  if expected = actual then true
  else
    match expected, actual with
    | .integer, .bigInt => true
    | .bigInt, .integer => true
    | .integer, .smallInt => true
    | .smallInt, .integer => true
    | .bigInt, .smallInt => true
    | .smallInt, .bigInt => true
    | .double, .integer => true
    | .double, .bigInt => true
    | .integer, .double => true
    | .bigInt, .double => true
    | .real, .double => true
    | .double, .real => true
    | .varChar _, .text => true
    | .text, .varChar _ => true
    | .varChar _, .varChar _ => true
    | .char _, .text => true
    | .text, .char _ => true
    | .varChar _, .char _ => true
    | .char _, .varChar _ => true
    | .char _, .char _ => true
    | _, _ => false

/-- One round of the loop of `validate_row`. -/
def validateColumn (column : ColumnMeta) (datum : Datum) : Except HelionError Unit :=
  if datum.isNull then
    if !column.nullable then
      .error (.constraintViolation ("Column '" ++ column.name ++ "' cannot be null"))
    else .ok ()
  else if !typesCompatible column.dataType datum.dataType then
    .error (.typeMismatch column.dataType.name datum.dataType.name)
  else .ok ()

namespace Table

/-- `Table::validate_row`. -/
def validateRow (table : Table) (row : Row) : Except HelionError Unit :=
  if row.values.length ≠ table.columns.length then
    .error (.internal ("Row has " ++ toString row.values.length ++ " columns but table '" ++ table.name ++
      "' has " ++ toString table.columns.length ++ " columns"))
  else Loop.checkAll (fun pair => validateColumn pair.1 pair.2) (table.columns.zip row.values)

end Table

/-- A row that fits a schema: as many values as columns, each of which its column takes. -/
def RowFits (columns : List ColumnMeta) (row : Row) : Prop :=
  row.values.length = columns.length ∧
    ∀ pair ∈ columns.zip row.values, validateColumn pair.1 pair.2 = .ok ()

theorem Table.validateRow_ok_iff {table : Table} {row : Row} :
    table.validateRow row = .ok () ↔ RowFits table.columns row := by
  unfold Table.validateRow RowFits
  split
  · rename_i hlength
    simp [hlength]
  · rename_i hlength
    rw [Loop.checkAll_ok_iff]
    exact (and_iff_right (not_not.mp hlength)).symm

instance (columns : List ColumnMeta) (row : Row) : Decidable (RowFits columns row) :=
  decidable_of_iff (Table.validateRow { Table.new "" [] with columns := columns } row = .ok ())
    Table.validateRow_ok_iff

end HelionDb
