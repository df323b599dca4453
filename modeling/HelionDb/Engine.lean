import HelionDb.Catalog
import HelionDb.Wal

/-! The storage side of `engine.rs`: transactions, table DDL, checkpoints, shutdown and recovery. A
commit is the composition of its phases, each of which works on the copy of the tables the first one
takes: conflict check, uniqueness check, log append, storage engines, in-memory tables. A phase that
fails leaves behind what the earlier ones did. -/

namespace HelionDb

/-- `DatabaseEngine` without users and permissions. The log is the rotated file followed by the
current one. -/
structure DatabaseEngine where
  tables : List Table
  catalog : Catalog
  mvcc : MvccStore
  walOld : List WalRecord
  wal : List WalRecord

/-- The orders in which a commit goes through its two hash maps of changes. -/
structure CommitOrders where
  engines : HashOrder
  memory : HashOrder

def CommitOrders.asGiven : CommitOrders := { engines := .asGiven, memory := .asGiven }

/-! ### The phases of a commit -/

/-- The copy a commit works on: the tables collected by name. -/
def snapshotTables (tables : List Table) (name : String) : Option Table :=
  KeyedList.lookupLast Table.name name tables

/-- The uniqueness check of one write entry. -/
def checkUniqueEntry (snapshot : String → Option Table) (entry : WriteEntry) : Except HelionError Unit :=
  match snapshot entry.tableName with
  | none => .ok ()
  | some table =>
      match entry.operation with
      | .insert row => table.checkUniqueConstraints true entry.rowIdx row
      | .update newRow => table.checkUniqueConstraints false entry.rowIdx newRow
      | .delete => .ok ()

/-- The uniqueness check of a commit. -/
def checkUniqueWrites (tx : Transaction) (snapshot : String → Option Table) : Except HelionError Unit :=
  Loop.checkAll (checkUniqueEntry snapshot) tx.writeSet

/-- The storage-engine phase at one table. -/
def applyToEngine (tx : Transaction) (snapshot : String → Option Table) (name : String) (catalog : Catalog) :
    Loop.Outcome HelionError Catalog :=
  match catalog.routeOf name with
  | .error err => (.error err, catalog)
  | .ok kind => catalog.applyChanges kind name (tableChanges tx snapshot name)

/-- The storage-engine phase of a commit. -/
def applyToEngines (order : HashOrder) (tx : Transaction) (snapshot : String → Option Table)
    (catalog : Catalog) : Loop.Outcome HelionError Catalog :=
  Loop.runAll (applyToEngine tx snapshot) (order.order tx.tableNames) catalog

/-- Index maintenance for one entry; the old row comes from the copy. -/
def maintainEntry (snapshot : String → Option Table) (entry : WriteEntry) (table : Table) :
    Loop.Outcome HelionError Table :=
  table.applyIndexChanges entry.operation
    ((snapshot entry.tableName).bind fun copy => copy.getVisibleRow entry.rowIdx) entry.rowIdx

/-- The new chains of one table and then its indexes, entry by entry. -/
def installOn (tx : Transaction) (snapshot : String → Option Table) (name : String) (chains : List Chain)
    (table : Table) : Loop.Outcome HelionError Table :=
  Loop.runAll (maintainEntry snapshot) (tx.entriesOf name) { table with versionChains := chains }

/-- The in-memory phase at one table. -/
def installTable (tx : Transaction) (snapshot : String → Option Table) (name : String)
    (tables : List Table) : Loop.Outcome HelionError (List Table) :=
  match applyWriteSet tx snapshot name with
  | none => (.ok (), tables)
  | some chains =>
      match findTable name tables with
      | none => (.ok (), tables)
      | some table =>
          ((installOn tx snapshot name chains table).1,
            updateTable name (fun table => (installOn tx snapshot name chains table).2) tables)

/-- The in-memory phase of a commit. -/
def installWrites (order : HashOrder) (tx : Transaction) (snapshot : String → Option Table)
    (tables : List Table) : Loop.Outcome HelionError (List Table) :=
  Loop.runAll (installTable tx snapshot) (order.order tx.tableNames) tables

/-- Both checks of a commit pass. -/
def ChecksAccept (tx : Transaction) (snapshot : String → Option Table) : Prop :=
  checkConflicts tx snapshot = .ok () ∧ checkUniqueWrites tx snapshot = .ok ()

namespace DatabaseEngine

/-- `DatabaseEngine::begin`. -/
def begin (engine : DatabaseEngine) : Transaction × DatabaseEngine :=
  (engine.mvcc.beginTransaction.1, { engine with mvcc := engine.mvcc.beginTransaction.2 })

/-- The log phase of a commit. -/
def logWrites (engine : DatabaseEngine) (tx : Transaction) : DatabaseEngine :=
  { engine with wal := engine.wal ++ tx.walRecords }

/-- The phases of a commit after its checks. -/
def commitChecked (engine : DatabaseEngine) (orders : CommitOrders) (tx : Transaction)
    (snapshot : String → Option Table) : Loop.Outcome HelionError (Transaction × DatabaseEngine) :=
  let logged := engine.logWrites tx
  let stored := applyToEngines orders.engines tx snapshot logged.catalog
  match stored.1 with
  | .error err => (.error err, tx, { logged with catalog := stored.2 })
  | .ok () =>
      let installed := installWrites orders.memory tx snapshot logged.tables
      match installed.1 with
      | .error err => (.error err, tx, { logged with catalog := stored.2, tables := installed.2 })
      | .ok () =>
          (.ok (), { tx with status := .committed },
            { logged with
              catalog := stored.2, tables := installed.2, mvcc := engine.mvcc.commitTransaction tx })

/-- `DatabaseEngine::commit`. -/
def commit (engine : DatabaseEngine) (orders : CommitOrders) (tx : Transaction) :
    Loop.Outcome HelionError (Transaction × DatabaseEngine) :=
  if tx.status ≠ .inProgress then
    (.error (.transaction ("Transaction " ++ toString tx.txId ++ " is not in progress")), tx, engine)
  else
    match checkConflicts tx (snapshotTables engine.tables) with
    | .error _ =>
        (.error (.conflict tx.txId), { tx with status := .aborted },
          { engine with mvcc := engine.mvcc.rollbackTransaction tx })
    | .ok () =>
        match checkUniqueWrites tx (snapshotTables engine.tables) with
        | .error err => (.error err, tx, engine)
        | .ok () => engine.commitChecked orders tx (snapshotTables engine.tables)

/-- `DatabaseEngine::rollback`. -/
def rollback (engine : DatabaseEngine) (tx : Transaction) : Transaction × DatabaseEngine :=
  if tx.status ≠ .inProgress then (tx, engine)
  else ({ tx with status := .aborted }, { engine with mvcc := engine.mvcc.rollbackTransaction tx })

/-- `DatabaseEngine::with_write_txn`. -/
def withWriteTxn (engine : DatabaseEngine) (orders : CommitOrders)
    (f : Transaction → List Table → Except HelionError (List WriteEntry)) :
    Loop.Outcome HelionError DatabaseEngine :=
  let begun := engine.begin
  match f begun.1 engine.tables with
  | .error err => (.error err, begun.2)
  | .ok entries =>
      let outcome := begun.2.commit orders (entries.foldl Transaction.addWrite begun.1)
      (outcome.1, outcome.2.2)

/-- `DatabaseEngine::create_table`. -/
def createTable (engine : DatabaseEngine) (name : String) (columns : List ColumnMeta)
    (engineName : Option String) : Loop.Outcome HelionError DatabaseEngine :=
  if engine.tables.any fun table => eqIgnoreAsciiCase table.name name then
    (.error (.tableAlreadyExists name), engine)
  else
    let engineName :=
      match engineName with
      | some given => normalizeEngineName given
      | none => engine.catalog.defaultEngine
    match engine.catalog.createTable name columns engineName with
    | .error err => (.error err, engine)
    | .ok catalog =>
        (.ok (), { engine with
          catalog, tables := engine.tables ++ [Table.new name columns],
          wal := engine.wal ++ [.createTable name columns] })

/-- `DatabaseEngine::drop_table`. -/
def dropTable (engine : DatabaseEngine) (name : String) : Loop.Outcome HelionError DatabaseEngine :=
  if engine.tables.any fun table => eqIgnoreAsciiCase table.name name then
    match engine.catalog.dropTable name with
    | .error err => (.error err, engine)
    | .ok catalog =>
        (.ok (), { engine with
          catalog, tables := engine.tables.filter fun table => !eqIgnoreAsciiCase table.name name,
          wal := engine.wal ++ [.dropTable name] })
  else (.error (.tableNotFound name), engine)

/-- `DatabaseEngine::alter_table_engine`. -/
def alterTableEngine (engine : DatabaseEngine) (name targetEngine : String) :
    Loop.Outcome HelionError DatabaseEngine :=
  let outcome := engine.catalog.migrateTable name targetEngine
  (outcome.1, { engine with catalog := outcome.2 })

/-- The record `write_checkpoint` makes from its copy of the tables. -/
def checkpointRecord (tables : List Table) : WalRecord :=
  .checkpoint (tables.length % 2 ^ 32) (tables.map Table.image)

/-- `write_checkpoint` with nothing in between its two steps. -/
def writeCheckpoint (engine : DatabaseEngine) : DatabaseEngine :=
  { engine with wal := engine.wal ++ [checkpointRecord engine.tables] }

/-- `DatabaseEngine::shutdown`: a checkpoint, then the log is rotated. -/
def shutdown (engine : DatabaseEngine) : DatabaseEngine :=
  { engine with walOld := engine.writeCheckpoint.wal, wal := [] }

/-- `replay_wal`: the rotated log, then the current one. -/
def replayWal (walOld wal : List WalRecord) : List Table := replayRecords [] (walOld ++ wal)

/-- One round of the loops of `compute_max_txid`. -/
def raiseMaxTxid (maxTxid : Option Nat) (version : RowVersion) : Option Nat :=
  let current := max (maxTxid.getD 0) version.txidMin
  some (if version.txidMax ≠ u64Max then max current version.txidMax else current)

/-- `compute_max_txid`. -/
def computeMaxTxid (tables : List Table) : Option Nat :=
  (tables.flatMap fun table => table.versionChains.flatten).foldl raiseMaxTxid none

/-- The first id after recovery. -/
def startIdOf (tables : List Table) : Nat :=
  match computeMaxTxid tables with
  | some id => id + 1
  | none => 1

/-- The rebuild of `open_with_durability`: a table one of whose indexes is empty. -/
def rebuildIfEmpty (table : Table) : Table :=
  if table.indexes.any Index.isEmpty then table.rebuildIndexes else table

/-- One round of the loop of `restore_tables_to_engines`. -/
def restoreToEngine (table : Table) (catalog : Catalog) : Loop.Outcome HelionError Catalog :=
  match catalog.routeOf table.name with
  | .error err => (.error err, catalog)
  | .ok kind => (.ok (), catalog.restoreTable kind table)

/-- `DatabaseEngine::open_with_durability` on a directory with these logs and this catalog file. -/
def openWithDurability (walOld wal : List WalRecord) (saved : Option CatalogData) (defaultEngine : String)
    (loaded : String → Option Table) : Except HelionError DatabaseEngine :=
  let replayed := replayWal walOld wal
  let tables := replayed.map rebuildIfEmpty
  let restored := Loop.runAll restoreToEngine tables (Catalog.openSaved saved defaultEngine loaded)
  match restored.1 with
  | .error err => .error err
  | .ok () => .ok { tables, catalog := restored.2, mvcc := .withStartId (startIdOf replayed), walOld, wal }

/-- Opening succeeds when every table gets restored into an engine. -/
theorem openWithDurability_of_restored {walOld wal : List WalRecord} {saved : Option CatalogData}
    {defaultEngine : String} {loaded : String → Option Table}
    (hok : (Loop.runAll restoreToEngine ((replayWal walOld wal).map rebuildIfEmpty)
      (Catalog.openSaved saved defaultEngine loaded)).1 = .ok ()) :
    openWithDurability walOld wal saved defaultEngine loaded =
      .ok { tables := (replayWal walOld wal).map rebuildIfEmpty
            catalog := (Loop.runAll restoreToEngine ((replayWal walOld wal).map rebuildIfEmpty)
              (Catalog.openSaved saved defaultEngine loaded)).2
            mvcc := .withStartId (startIdOf (replayWal walOld wal)), walOld, wal } := by
  dsimp only [openWithDurability]
  rw [hok]

end DatabaseEngine

end HelionDb
