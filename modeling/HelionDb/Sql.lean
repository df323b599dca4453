import HelionDb.Types

/-! The statements of `parser.rs`: what `parse` makes of a text. -/

namespace HelionDb

inductive BinaryOperator where
  | eq
  | ne
  | lt
  | le
  | gt
  | ge
  | and
  | or
  | add
  | sub
  | mul
  | div
  deriving DecidableEq, Repr

inductive UnaryOperator where
  | not
  | neg
  deriving DecidableEq, Repr

inductive Expression where
  | column (name : String)
  | qualifiedColumn (table column : String)
  | literal (value : Datum)
  | binaryOp (left : Expression) (op : BinaryOperator) (right : Expression)
  | unaryOp (op : UnaryOperator) (expr : Expression)
  | isNull (expr : Expression)
  | isNotNull (expr : Expression)
  | inList (expr : Expression) (list : List Datum)
  | between (expr low high : Expression)
  | like (expr : Expression) (pattern : String)
  | function (name : String) (args : List Expression)

inductive JoinType where
  | inner
  | left
  | right
  | cross
  deriving DecidableEq, Repr

structure JoinClause where
  rightTable : String
  joinType : JoinType
  onClause : Option Expression

inductive GrantPermissionType where
  | select
  | insert
  | update
  | delete
  | all
  deriving DecidableEq, Repr

inductive SelectColumn where
  | wildcard
  | qualified (name : String) (aliasName : Option String)
  | qualWildcard (table : String)
  | expr (expr : Expression)

inductive OrderByDesc where
  | asc
  | desc
  deriving DecidableEq, Repr

structure OrderByExpr where
  expr : Expression
  direction : OrderByDesc

/-- The fields of `HelionStatement::Select`. -/
structure SelectStatement where
  tableName : String
  columns : List SelectColumn
  whereClause : Option Expression
  orderBy : List OrderByExpr
  limit : Option Nat
  offset : Option Nat
  joins : List JoinClause

inductive HelionStatement where
  | createTable (name : String) (columns : List ColumnMeta) (engine : Option String)
  | explain (analyze verbose : Bool) (statement : String)
  | dropTable (name : String) (ifExists : Bool)
  | alterTableEngine (name engine : String)
  | insert (tableName : String) (columns : List String) (values : List (List Datum))
  | select (statement : SelectStatement)
  | update (tableName : String) (assignments : List (String × Datum)) (whereClause : Option Expression)
  | delete (tableName : String) (whereClause : Option Expression)
  | createUser (username password : String)
  | dropUser (username : String) (ifExists : Bool)
  | alterUser (username password : String)
  | grant (username table : String) (columns : List String) (permissionType : GrantPermissionType)
  | revoke (username table : String) (columns : List String) (permissionType : GrantPermissionType)
  | createIndex (name table : String) (columns : List String) (unique ifNotExists : Bool)
  | dropIndex (name table : String) (ifExists : Bool)
  | showTables
  | showDatabases
  | useDatabase (name : String)

end HelionDb
