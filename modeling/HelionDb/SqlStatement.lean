import HelionDb.SqlExpr

/-! The statements that `sqlparser` reads, with the parts that `parser.rs` looks at and a mark for the ones it does not,
and `convert_statement`, which makes statements of the engine of them. -/

namespace HelionDb

/-- `ast::TableFactor`. A table is `modified` when it has arguments, hints, a sample or another addition; derived tables,
functions and nested joins are only their text. -/
inductive SqlTableFactor where
  | table (name : String) (aliasName : Option Ident) (modified : Bool)
  | other (text : String)
  deriving DecidableEq

/-- `ast::JoinConstraint`. -/
inductive SqlJoinConstraint where
  | on (expr : SqlExpr)
  | «using» (columns : List String)
  | natural
  | none

/-- `ast::JoinOperator`; semi and anti joins, APPLY and the like are one. -/
inductive SqlJoinOperator where
  | join (constraint : SqlJoinConstraint)
  | inner (constraint : SqlJoinConstraint)
  | left (constraint : SqlJoinConstraint)
  | leftOuter (constraint : SqlJoinConstraint)
  | right (constraint : SqlJoinConstraint)
  | rightOuter (constraint : SqlJoinConstraint)
  | fullOuter (constraint : SqlJoinConstraint)
  | crossJoin
  | other (name : String)

/-- `ast::Join`. -/
structure SqlJoin where
  relation : SqlTableFactor
  joinOperator : SqlJoinOperator

/-- `ast::TableWithJoins`. -/
structure SqlTableWithJoins where
  relation : SqlTableFactor
  joins : List SqlJoin

/-- What the crate prints for a table, by `to_string` and by `{:?}`. -/
class SqlTableText where
  display : SqlTableFactor → String
  debug : SqlTableFactor → String
  display_table : ∀ name, display (.table name none false) = name

namespace PlainText

/-- A stand-in that prints a table by its name; opened where statements are converted. -/
scoped instance sqlTableText : SqlTableText where
  display
    | .table name none _ => name
    | .table name (some aliasName) _ => name ++ " AS " ++ aliasName.value
    | .other text => text
  debug
    | .table name _ _ => name
    | .other text => text
  display_table _ := rfl

end PlainText

/-- `constraint_to_expr`. -/
def constraintToExpr [SqlExprText] : SqlJoinConstraint → Option Expression
  | .on expr => some (sqlExprToExpression expr)
  | _ => none

/-- The arms of `extract_joins`. -/
def convertJoinOperator [SqlExprText] : SqlJoinOperator → JoinType × Option Expression
  | .inner constraint | .join constraint => (.inner, constraintToExpr constraint)
  | .leftOuter constraint | .left constraint => (.left, constraintToExpr constraint)
  | .rightOuter constraint | .right constraint => (.right, constraintToExpr constraint)
  | .crossJoin => (.cross, none)
  | .fullOuter _ => (.inner, none)
  | .other _ => (.inner, none)

section

variable [SqlExprText] [SqlTableText]

def convertJoin (join : SqlJoin) : JoinClause :=
  let rightTable :=
    match join.relation with
    | .table name _ _ => name
    | other => SqlTableText.debug other
  let (joinType, onClause) := convertJoinOperator join.joinOperator
  { rightTable, joinType, onClause }

/-- `extract_joins`. -/
def extractJoins («from» : SqlTableWithJoins) : List JoinClause := «from».joins.map convertJoin

end

/-! ### Queries -/

/-- `ast::SelectItem`. -/
inductive SqlSelectItem where
  | unnamedExpr (expr : SqlExpr)
  | exprWithAlias (expr : SqlExpr) (aliasName : Ident)
  | qualifiedWildcard (name : String)
  | wildcard

/-- `ast::OrderByExpr`. -/
structure SqlOrderByExpr where
  expr : SqlExpr
  asc : Option Bool
  nullsFirst : Option Bool

/-- `ast::OrderByKind`. -/
inductive SqlOrderByKind where
  | expressions (exprs : List SqlOrderByExpr)
  | all

/-- `ast::Select`; the names of the clauses that are not listed here, as PREWHERE and QUALIFY, are `otherClauses`. -/
structure SqlSelect where
  distinct : Bool
  projection : List SqlSelectItem
  «from» : List SqlTableWithJoins
  selection : Option SqlExpr
  groupBy : List SqlExpr
  having : Option SqlExpr
  otherClauses : List String

/-- `ast::SetExpr`; set operations and parenthesised queries are one. -/
inductive SqlSetExpr where
  | select (select : SqlSelect)
  | values (rows : List (List SqlExpr))
  | other (text : String)

/-- `ast::Query`; WITH, FETCH, FOR UPDATE and the like are `otherClauses`. -/
structure SqlQuery where
  body : SqlSetExpr
  orderBy : Option SqlOrderByKind
  limit : Option SqlExpr
  offset : Option SqlExpr
  otherClauses : List String

/-- `n.parse::<u64>()` of a number token, which has no sign. -/
def parseU64 (text : String) : Option Nat :=
  (decimalValue text).bind fun value => if value ≤ u64Max then some value else none

/-- The number of rows that a LIMIT or an OFFSET gives, if it is a plain number. -/
def rowCount : SqlExpr → Option Nat
  | .value (.number n) => parseU64 n
  | _ => none

section

variable [SqlExprText] [SqlTableText]

/-- The item of a SELECT list in `convert_query`. -/
def convertSelectItem : SqlSelectItem → SelectColumn
  | .wildcard => .wildcard
  | .unnamedExpr expr => .expr (sqlExprToExpression expr)
  | .exprWithAlias expr aliasName => .qualified (SqlExprText.display expr) (some aliasName.text)
  -- The wildcard is printed whole, so what is kept is no table's name.
  | .qualifiedWildcard name => .qualWildcard (name ++ ".*")

/-- The item of an ORDER BY in `convert_query`. -/
def convertOrderByExpr (item : SqlOrderByExpr) : OrderByExpr where
  expr := sqlExprToExpression item.expr
  direction :=
    match item.asc with
    | some false => .desc
    | _ => .asc

/-- The SELECT arm of `convert_query`. -/
def convertSelect (query : SqlQuery) (select : SqlSelect) : Except HelionError SelectStatement :=
  match select.from with
  | [] => .error (.parse "SELECT requires a FROM clause")
  | «from» :: _ =>
      match «from».relation with
      | .table name _ _ =>
          .ok {
            tableName := name
            columns := select.projection.map convertSelectItem
            whereClause := select.selection.map sqlExprToExpression
            orderBy :=
              match query.orderBy with
              | some (.expressions exprs) => exprs.map convertOrderByExpr
              | _ => []
            limit := query.limit.bind rowCount
            offset := query.offset.bind rowCount
            joins := extractJoins «from» }
      | other => .error (.parse ("Unsupported table expression: " ++ SqlTableText.debug other))

/-- `convert_query`. -/
def convertQuery (query : SqlQuery) : Except HelionError HelionStatement :=
  match query.body with
  | .select select => (convertSelect query select).map .select
  | _ => .error (.parse "Only SELECT queries are supported")

end

/-- `ast::TableObject`. -/
inductive SqlTableObject where
  | tableName (name : String)
  | tableFunction (text : String)

/-- `ast::AssignmentTarget`. -/
inductive SqlAssignmentTarget where
  | columnName (name : String)
  | tuple (names : List String)

/-- `ast::Assignment`. -/
structure SqlAssignment where
  target : SqlAssignmentTarget
  value : SqlExpr

/-- `ast::Insert`; what is not listed here, as OR REPLACE, PARTITION and SETTINGS, is `otherClauses`. -/
structure SqlInsert where
  table : SqlTableObject
  columns : List Ident
  source : Option SqlQuery
  assignments : List SqlAssignment
  on : Bool
  returning : Bool
  otherClauses : List String

/-- The fields of `ast::Statement::Update`. -/
structure SqlUpdate where
  table : SqlTableWithJoins
  assignments : List SqlAssignment
  «from» : Bool
  selection : Option SqlExpr
  returning : Bool
  otherClauses : List String

/-- `ast::Delete`; `tables` are the ones before FROM. -/
structure SqlDelete where
  tables : List String
  «from» : List SqlTableWithJoins
  «using» : Bool
  selection : Option SqlExpr
  returning : Bool
  orderBy : List SqlOrderByExpr
  limit : Option SqlExpr

section

variable [CaseMapping] [SqlExprText] [SqlTableText] (uuidv7 : BitVec 128)

/-- The rows of the source of an INSERT. -/
def convertSource (source : Option SqlQuery) : Except HelionError (List (List Datum)) :=
  match source with
  | some { body := .values rows, .. } => rows.mapM fun row => row.mapM (sqlExprToDatum uuidv7)
  | _ => .ok []

/-- The INSERT arm of `convert_statement`; assignments are one more row. -/
def convertInsert (insert : SqlInsert) : Except HelionError HelionStatement :=
  match insert.table with
  | .tableFunction _ => .error (.parse "Only named tables supported in INSERT")
  | .tableName name => do
      let values ← convertSource uuidv7 insert.source
      let assigned ←
        if insert.assignments.isEmpty then pure []
        else do
          let row ← insert.assignments.mapM fun assignment => sqlExprToDatum uuidv7 assignment.value
          pure [row]
      return .insert name (insert.columns.map Ident.text) (values ++ assigned)

/-- An assignment of an UPDATE. -/
def convertAssignment (assignment : SqlAssignment) : Except HelionError (String × Datum) :=
  match assignment.target with
  | .tuple _ => .error (.parse "Only simple column assignments supported")
  | .columnName name => do
      let datum ← sqlExprToDatum uuidv7 assignment.value
      return (name, datum)

/-- The UPDATE arm of `convert_statement`. -/
def convertUpdate (update : SqlUpdate) : Except HelionError HelionStatement := do
  let assignments ← update.assignments.mapM (convertAssignment uuidv7)
  return .update (SqlTableText.display update.table.relation) assignments (update.selection.map sqlExprToExpression)

omit [CaseMapping] in
/-- The DELETE arm of `convert_statement`. -/
def convertDelete (delete : SqlDelete) : HelionStatement :=
  .delete ((delete.from.head?.map fun table => SqlTableText.display table.relation).getD "")
    (delete.selection.map sqlExprToExpression)

end

/-! ### Table definitions -/

/-- `ast::DataType`, of which only the lengths of character types count. -/
inductive SqlDataType where
  | boolean
  | smallInt
  | int
  | bigInt
  | real
  | double
  | varchar (length : Option (Option Nat))
  | char (length : Option (Option Nat))
  | text
  | date
  | time
  | timestamp
  | uuid
  | custom (name : String)
  | other (text : String)
  deriving DecidableEq

/-- `DataType::from_sql`. -/
def DataType.fromSql [CaseMapping] [Rendering] : SqlDataType → Except HelionError DataType
  | .boolean => .ok .boolean
  | .smallInt => .ok .smallInt
  | .int => .ok .integer
  | .bigInt => .ok .bigInt
  | .real => .ok .real
  | .double => .ok .double
  | .varchar length => .ok (.varChar length.join)
  | .char length => .ok (.char length.join)
  | .text => .ok .text
  | .date => .ok .date
  | .time => .ok .time
  | .timestamp => .ok .timestamp
  | .uuid => .ok .uuid
  | .custom name =>
      let raw := CaseMapping.toUppercase name
      if raw = "U_SMALLINT" then .ok .unsignedSmallInt
      else if raw = "U_INTEGER" then .ok .unsignedInteger
      else if raw = "U_BIGINT" then .ok .unsignedBigInt
      else if raw = "UUIDV7" then .ok .uuidV7
      else .error (.internal ("Unsupported SQL type: " ++ Rendering.debug raw))
  | .other printed => .error (.internal ("Unsupported SQL type: " ++ printed))

/-- `ast::ColumnOption`. -/
inductive SqlColumnOption where
  | notNull
  | null
  | unique (isPrimary : Bool)
  | default (expr : SqlExpr)
  | foreignKey (foreignTable : String) (referredColumns : List String)
  | other (text : String)

/-- `ast::ColumnDef`. -/
structure SqlColumnDef where
  name : String
  dataType : SqlDataType
  options : List SqlColumnOption

/-- `ast::TableConstraint`. -/
inductive SqlTableConstraint where
  | foreignKey (columns : List String) (foreignTable : String) (referredColumns : List String)
  | other (text : String)

/-- `ast::CreateTable`. -/
structure SqlCreateTable where
  name : String
  columns : List SqlColumnDef
  constraints : List SqlTableConstraint

section

variable [CaseMapping] [Rendering]

/-- The arms for the options of a column. -/
def applyColumnOption (column : ColumnMeta) : SqlColumnOption → ColumnMeta
  | .notNull => { column with nullable := false }
  | .null => { column with nullable := true }
  | .unique true => { column with isPrimaryKey := true, isUnique := true, nullable := false }
  | .unique false => { column with isUnique := true }
  | .default expr =>
      match sqlExprToDatumOpt expr with
      | some datum => { column with default := some datum }
      | none => column
  | .foreignKey foreignTable referredColumns =>
      match referredColumns with
      | foreignColumn :: _ => { column with references := some { foreignTable, foreignColumn } }
      | [] => column
  | .other _ => column

def convertColumnDef (column : SqlColumnDef) : Except HelionError ColumnMeta := do
  let dataType ← DataType.fromSql column.dataType
  return column.options.foldl applyColumnOption (.new column.name dataType)

omit [CaseMapping] [Rendering] in
/-- The first column of a name gets a reference. -/
def setReference (name foreignTable foreignColumn : String) : List ColumnMeta → List ColumnMeta
  | [] => []
  | column :: rest =>
      if eqIgnoreAsciiCase column.name name then
        { column with references := some { foreignTable, foreignColumn } } :: rest
      else column :: setReference name foreignTable foreignColumn rest

omit [CaseMapping] [Rendering] in
def applyTableConstraint (columns : List ColumnMeta) : SqlTableConstraint → List ColumnMeta
  | .foreignKey names foreignTable referredColumns =>
      (names.zip referredColumns).foldl (fun columns pair => setReference pair.1 foreignTable pair.2 columns) columns
  | .other _ => columns

/-- The CREATE TABLE arm of `convert_statement`. -/
def convertCreateTable (create : SqlCreateTable) : Except HelionError HelionStatement := do
  let columns ← create.columns.mapM convertColumnDef
  return .createTable create.name (create.constraints.foldl applyTableConstraint columns) none

end

/-- `ast::Statement`. -/
inductive SqlStatement where
  | createTable (create : SqlCreateTable)
  | explain (analyze verbose : Bool) (statement : String)
  | drop (isTable ifExists : Bool) (names : List String)
  | insert (insert : SqlInsert)
  | query (query : SqlQuery)
  | update (update : SqlUpdate)
  | delete (delete : SqlDelete)
  | other (text : String)

/-- `convert_statement`; `uuidv7` is the identifier that a literal would draw. -/
def convertStatement [CaseMapping] [Rendering] [SqlExprText] [SqlTableText] (uuidv7 : BitVec 128) :
    SqlStatement → Except HelionError HelionStatement
  | .createTable create => convertCreateTable create
  | .explain analyze verbose statement => .ok (.explain analyze verbose statement)
  | .drop isTable ifExists names =>
      if isTable then .ok (.dropTable (names.head?.getD "") ifExists)
      else .error (.parse "Only DROP TABLE is supported")
  | .insert insert => convertInsert uuidv7 insert
  | .query query => convertQuery query
  | .update update => convertUpdate uuidv7 update
  | .delete delete => .ok (convertDelete delete)
  | .other text => .error (.parse ("Unsupported statement: " ++ text))

end HelionDb
