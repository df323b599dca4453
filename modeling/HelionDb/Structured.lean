import HelionDb.Planner
import HelionDb.WhereClause

/-! Structured creates, updates and deletions of `structured.rs`. Each looks its table up, turns its JSON into a plan of
the executor and runs it; nothing checks the values against the schema on the way. The data of a request stand in the
order its hash map goes through them. -/

namespace HelionDb

structure CreateInput where
  fromTable : String
  data : List (String × Json)

structure UpdateInput where
  fromTable : String
  whereClause : Json
  data : List (String × Json)

structure DeleteInput where
  fromTable : String
  whereClause : Json

namespace Json

/-- `json_value_to_datum` for the column at a position. -/
def toColumn (table : Table) (idx : Nat) (value : Json) : Datum :=
  match table.columns[idx]? with
  | some column => value.toDatumAs column.dataType
  | none => .null

end Json

/-- The position of a column that a structured request names. -/
def requireColumn (table : Table) (fromTable colName : String) : Except HelionError Nat :=
  match table.columnIndex colName with
  | some idx => .ok idx
  | none => .error (.columnNotFound (fromTable ++ "." ++ colName))

/-- The row that `execute_create` hands to the executor. -/
def createRow (table : Table) (input : CreateInput) : Except HelionError Row := do
  let values ← input.data.foldlM
    (fun values (colName, jsonVal) => do
      let idx ← requireColumn table input.fromTable colName
      return values.set idx (jsonVal.toColumn table idx))
    (List.replicate table.columns.length Datum.null)
  return { values }

/-- `set_indices` and `set_values` of `execute_update`. -/
def setValues (table : Table) (input : UpdateInput) : Except HelionError (List (Nat × Datum)) :=
  input.data.mapM fun (colName, jsonVal) => do
    let idx ← requireColumn table input.fromTable colName
    return (idx, jsonVal.toColumn table idx)

namespace DatabaseEngine

/-- `execute_create` up to its response, with the count of the INSERT. The response has the row that is read again after the
INSERT in place of the count. -/
def executeCreate (engine : DatabaseEngine) (orders : CommitOrders) (input : CreateInput) : Executed :=
  match requireTable engine.tables input.fromTable with
  | .error err => (.error err, engine)
  | .ok table =>
      match createRow table input with
      | .error err => (.error err, engine)
      | .ok row =>
          let inserted := engine.execute orders (.insert input.fromTable [row])
          match inserted.1 with
          | .error err => (.error err, inserted.2)
          | .ok rowsAffected => (.ok rowsAffected, if 0 < rowsAffected then inserted.2.readSnapshot.2 else inserted.2)

section

variable [CaseMapping] [Rendering] [NumberText]

/-- The rows that a where clause takes; its filters call no function, so that no identifier is drawn. -/
def whereFilter (whereExpr : Expression) (columns : List ColumnMeta) (row : Row) : Bool :=
  Expression.passes (whereExpr.evaluate 0 row.values columns)

/-- `execute_update`. -/
def executeUpdate (engine : DatabaseEngine) (orders : CommitOrders) (input : UpdateInput) : Executed :=
  match requireTable engine.tables input.fromTable with
  | .error err => (.error err, engine)
  | .ok table =>
      match input.whereClause.parseWhereClause with
      | .error err => (.error err, engine)
      | .ok whereExpr =>
          match setValues table input with
          | .error err => (.error err, engine)
          | .ok assignments =>
              engine.execute orders (.update input.fromTable assignments (whereFilter whereExpr table.columns))

/-- `execute_delete`. -/
def executeDelete (engine : DatabaseEngine) (orders : CommitOrders) (input : DeleteInput) : Executed :=
  match requireTable engine.tables input.fromTable with
  | .error err => (.error err, engine)
  | .ok table =>
      match input.whereClause.parseWhereClause with
      | .error err => (.error err, engine)
      | .ok whereExpr => engine.execute orders (.delete input.fromTable (whereFilter whereExpr table.columns))

end

end DatabaseEngine

end HelionDb
