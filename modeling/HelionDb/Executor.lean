import HelionDb.Engine

/-! The statements of `executor/ops.rs` that change tables, and the planning of INSERT and UPDATE. A
WHERE clause is the predicate on rows it evaluates to: a row is taken when the clause gives TRUE. -/

namespace HelionDb

namespace Table

/-- `Table::column_index`. -/
def columnIndex (table : Table) (name : String) : Option Nat :=
  table.columns.findIdx? fun column => eqIgnoreAsciiCase column.name name

end Table

/-- `coerce_datum` to the type of a column. -/
def coerceTo (table : Table) (idx : Nat) (value : Datum) : Except HelionError Datum :=
  match table.columns[idx]? with
  | some column => coerceDatum value column.dataType
  | none => .ok value

/-- The positions of the named columns, of all columns when none is named. -/
def resolveColumns (table : Table) (tableName : String) (columns : List String) :
    Except HelionError (List Nat) :=
  if columns.isEmpty then .ok (List.range table.columns.length)
  else columns.mapM fun column =>
    match table.columnIndex column with
    | some idx => .ok idx
    | none => .error (.columnNotFound (tableName ++ "." ++ column))

/-- One row of a VALUES list: coerced, filled up with NULLs and validated. -/
def planInsertRow (table : Table) (colIndices : List Nat) (rowValues : List Datum) :
    Except HelionError Row := do
  let fullRow ← (colIndices.zip rowValues).foldlM
    (fun fullRow (idx, value) => return fullRow.set idx (← coerceTo table idx value))
    (List.replicate table.columns.length Datum.null)
  let row : Row := { values := fullRow }
  table.validateRow row
  return row

/-- `plan` of an INSERT: the rows it hands to the executor. -/
def planInsert (tables : List Table) (tableName : String) (columns : List String)
    (values : List (List Datum)) : Except HelionError (List Row) :=
  match findTable tableName tables with
  | none => .error (.tableNotFound tableName)
  | some table => do
      let colIndices ← resolveColumns table tableName columns
      values.mapM (planInsertRow table colIndices)

/-- `plan` of an UPDATE: the positions and the coerced values to set. -/
def planUpdate (tables : List Table) (tableName : String) (assignments : List (String × Datum)) :
    Except HelionError (List (Nat × Datum)) :=
  match findTable tableName tables with
  | none => .error (.tableNotFound tableName)
  | some table => assignments.mapM fun (column, value) =>
      match table.columnIndex column with
      | some idx => return (idx, ← coerceTo table idx value)
      | none => .error (.columnNotFound (tableName ++ "." ++ column))

/-! ### Execution -/

/-- `LogicalPlan`: the statements that change tables. -/
inductive LogicalPlan where
  | createTable (name : String) (columns : List ColumnMeta) (engine : Option String)
  | dropTable (name : String) (ifExists : Bool)
  | alterTableEngine (name engine : String)
  | insert (tableName : String) (rows : List Row)
  | update (tableName : String) (assignments : List (Nat × Datum)) (filter : Row → Bool)
  | delete (tableName : String) (filter : Row → Bool)
  | createIndex (name table : String) (columns : List String) (unique ifNotExists : Bool)
  | dropIndex (name table : String) (ifExists : Bool)

/-- Neither CREATE TABLE nor DROP TABLE. -/
def LogicalPlan.KeepsTables : LogicalPlan → Prop
  | createTable _ _ _ | dropTable _ _ => False
  | _ => True

/-- What executing a statement gives: the number of rows affected, and the engine after it. -/
abbrev Executed := Except HelionError Nat × DatabaseEngine

/-- Report the rows affected when the engine call succeeds. -/
def affecting (count : Nat) (outcome : Loop.Outcome HelionError DatabaseEngine) : Executed :=
  (outcome.1.map fun _ => count, outcome.2)

/-- The entries of an INSERT: consecutive positions from the end of the table. -/
def insertEntries (tableName : String) (startIdx : Nat) (rows : List Row) : List WriteEntry :=
  rows.zipIdx.map fun (row, i) =>
    { tableName, rowIdx := startIdx + i, oldTxidMax := u64Max, operation := .insert row }

/-- `new_values[set_idx] = val` for every assignment; `none` where the source would panic. -/
def assign : List Datum → List (Nat × Datum) → Option (List Datum)
  | values, [] => some values
  | values, (idx, value) :: rest =>
      if idx < values.length then assign (values.set idx value) rest else none

/-- The entries of an UPDATE over the rows it selected. -/
def updateEntries (tableName : String) (assignments : List (Nat × Datum)) :
    List (Nat × Row) → Option (List WriteEntry)
  | [] => some []
  | (rowIdx, row) :: rest =>
      match assign row.values assignments, updateEntries tableName assignments rest with
      | some values, some entries =>
          some ({ tableName, rowIdx, oldTxidMax := u64Max, operation := .update { values } } :: entries)
      | _, _ => none

/-- The entries of a DELETE over the rows it selected. -/
def deleteEntries (tableName : String) (selected : List (Nat × Row)) : List WriteEntry :=
  selected.map fun (rowIdx, _) => { tableName, rowIdx, oldTxidMax := u64Max, operation := .delete }

namespace DatabaseEngine

/-- The transaction a statement opens for its snapshot and closes again. -/
def readSnapshot (engine : DatabaseEngine) : Snapshot × DatabaseEngine :=
  let begun := engine.begin
  (begun.1.snapshot, { begun.2 with mvcc := begun.2.mvcc.commitTransaction begun.1 })

/-- The rows of a table that a statement sees and its WHERE clause takes. -/
def selectRows (engine : DatabaseEngine) (table : Table) (filter : Row → Bool) : List (Nat × Row) :=
  (table.scanVisible engine.readSnapshot.1.txid engine.readSnapshot.1.active).filter fun entry =>
    filter entry.2

/-- Run a write transaction unless there is nothing to write. -/
def writeEntries (engine : DatabaseEngine) (orders : CommitOrders) (entries : List WriteEntry) : Executed :=
  if entries.isEmpty then (.ok 0, engine)
  else affecting entries.length (engine.withWriteTxn orders fun _ _ => .ok entries)

/-- The positions of the columns an index is created on. -/
def indexColumns (table : Table) (tableName : String) (columns : List String) :
    Except HelionError (List Nat) :=
  columns.mapM fun column =>
    match table.columns.findIdx? fun candidate => candidate.name == column with
    | some idx => .ok idx
    | none => .error (.columnNotFound (tableName ++ "." ++ column))

/-- The `CreateIndex` arm of `execute_as`. -/
def executeCreateIndex (engine : DatabaseEngine) (name tableName : String) (columns : List String)
    (unique ifNotExists : Bool) : Executed :=
  match findTable tableName engine.tables with
  | none => (.error (.tableNotFound tableName), engine)
  | some table =>
      if table.indexes.any fun index => index.definition.name == name then
        if ifNotExists then (.ok 0, engine) else (.error (.indexAlreadyExists name), engine)
      else
        match indexColumns table tableName columns with
        | .error err => (.error err, engine)
        | .ok colIndices =>
            match table.addIndex name colIndices unique with
            | .error err => (.error err, engine)
            | .ok next => (.ok 1, { engine with tables := updateTable tableName (fun _ => next) engine.tables })

/-- The `DropIndex` arm of `execute_as`. -/
def executeDropIndex (engine : DatabaseEngine) (name tableName : String) (ifExists : Bool) : Executed :=
  match findTable tableName engine.tables with
  | none => if ifExists then (.ok 1, engine) else (.error (.tableNotFound tableName), engine)
  | some table =>
      match table.dropIndex name with
      | .error err => if ifExists then (.ok 1, engine) else (.error err, engine)
      | .ok next => (.ok 1, { engine with tables := updateTable tableName (fun _ => next) engine.tables })

/-- The arms of `execute_as` for these statements, without permissions. -/
def execute (engine : DatabaseEngine) (orders : CommitOrders) : LogicalPlan → Executed
  | .createTable name columns engineName => affecting 0 (engine.createTable name columns engineName)
  | .dropTable name ifExists =>
      let outcome := engine.dropTable name
      match outcome.1 with
      | .error (.tableNotFound table) =>
          if ifExists then (.ok 0, outcome.2) else (.error (.tableNotFound table), outcome.2)
      | _ => affecting 0 outcome
  | .alterTableEngine name targetEngine => affecting 0 (engine.alterTableEngine name targetEngine)
  | .insert tableName rows =>
      match findTable tableName engine.tables with
      | none => (.error (.tableNotFound tableName), engine)
      | some table =>
          affecting rows.length
            (engine.withWriteTxn orders fun _ _ => .ok (insertEntries tableName table.rowCount rows))
  | .update tableName assignments filter =>
      match findTable tableName engine.tables with
      | none => (.error (.tableNotFound tableName), engine)
      | some table =>
          match updateEntries tableName assignments (engine.selectRows table filter) with
          | none => (.error (.internal "index out of bounds"), engine.readSnapshot.2)
          | some entries => engine.readSnapshot.2.writeEntries orders entries
  | .delete tableName filter =>
      match findTable tableName engine.tables with
      | none => (.error (.tableNotFound tableName), engine)
      | some table =>
          engine.readSnapshot.2.writeEntries orders
            (deleteEntries tableName (engine.selectRows table filter))
  | .createIndex name table columns unique ifNotExists =>
      engine.executeCreateIndex name table columns unique ifNotExists
  | .dropIndex name table ifExists => engine.executeDropIndex name table ifExists

/-- What a statement does to an engine unless it creates or drops a table. -/
inductive Reworked (engine : DatabaseEngine) : DatabaseEngine → Prop
  | same : Reworked engine engine
  | read : Reworked engine engine.readSnapshot.2
  | committed (start : DatabaseEngine) (hstart : start = engine ∨ start = engine.readSnapshot.2)
      (orders : CommitOrders) (tx : Transaction) : Reworked engine (start.begin.2.commit orders tx).2.2
  | migrated (name targetEngine : String) :
      Reworked engine { engine with catalog := (engine.catalog.migrateTable name targetEngine).2 }
  | reindexed (tableName : String) (table : Table) (indexes : List Index)
      (htable : findTable tableName engine.tables = some table) :
      Reworked engine
        { engine with tables := updateTable tableName (fun _ => { table with indexes }) engine.tables }

section Reworked

variable (engine : DatabaseEngine) (orders : CommitOrders)

private theorem reworked_withWriteTxn {start : DatabaseEngine} (hstart : start = engine ∨ start = engine.readSnapshot.2)
    (entries : List WriteEntry) :
    Reworked engine (start.withWriteTxn orders fun _ _ => .ok entries).2 := .committed start hstart orders _

private theorem reworked_writeEntries (entries : List WriteEntry) :
    Reworked engine (engine.readSnapshot.2.writeEntries orders entries).2 := by
  unfold writeEntries
  split
  · exact .read
  · exact reworked_withWriteTxn engine orders (.inr rfl) entries

theorem reworked_execute {statement : LogicalPlan} (hkeeps : statement.KeepsTables) :
    Reworked engine (engine.execute orders statement).2 := by
  cases statement with
  | createTable name columns engineName => exact hkeeps.elim
  | dropTable name ifExists => exact hkeeps.elim
  | alterTableEngine name targetEngine => exact .migrated name targetEngine
  | insert tableName rows =>
      simp only [execute]
      split
      · exact .same
      · exact reworked_withWriteTxn engine orders (.inl rfl) _
  | update tableName assignments filter =>
      simp only [execute]
      split
      · exact .same
      · split
        · exact .read
        · exact reworked_writeEntries engine orders _
  | delete tableName filter =>
      simp only [execute]
      split
      · exact .same
      · exact reworked_writeEntries engine orders _
  | createIndex name table columns unique ifNotExists =>
      simp only [execute, executeCreateIndex]
      split
      · exact .same
      · rename_i found htable
        split
        · split <;> exact .same
        · split
          · exact .same
          · split
            · exact .same
            · rename_i hadded
              obtain ⟨index, rfl, -⟩ := Table.addIndex_ok hadded
              exact .reindexed table found _ htable
  | dropIndex name table ifExists =>
      simp only [execute, executeDropIndex]
      split
      · split <;> exact .same
      · rename_i found htable
        split
        · split <;> exact .same
        · rename_i hdropped
          obtain ⟨pos, rfl⟩ := Table.dropIndex_ok hdropped
          exact .reindexed table found _ htable

end Reworked

end DatabaseEngine

end HelionDb
