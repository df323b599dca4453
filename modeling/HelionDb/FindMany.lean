import HelionDb.Query
import HelionDb.WhereClause

/-! The findMany request of `structured.rs`. It becomes one tree, in which every include is a join to the scan of the related
table, and the flat rows of the tree become nested JSON again: a parent for each text of the first columns, and in it the
rest of the rows that have this text. -/

namespace HelionDb

structure OrderByInput where
  field : String
  direction : String

structure IncludeInput where
  relation : String
  whereClause : Option Json

structure FindManyInput where
  fromTable : String
  whereClause : Option Json
  select : Option (List String)
  includes : List IncludeInput
  orderBy : List OrderByInput
  take : Option UInt64
  skip : Option UInt64

structure FkRelationship where
  childColumn : String
  parentColumn : String

/-- `str::trim_end_matches` of a character. -/
def trimEndMatches (text : String) (c : Char) : String :=
  .ofList (text.toList.reverse.dropWhile (· = c)).reverse

/-- `find_relationship`. The table in the result is the parent. -/
def findRelationship (tables : List Table) (parentTable childTable : String) : Option (Table × FkRelationship) :=
  match findTable childTable tables with
  | none => none
  | some child =>
      let declared := child.columns.findSome? fun col =>
        (col.references.filter fun fk => fk.foreignTable = parentTable).map fun fk => (col.name, fk.foreignColumn)
      -- A column that only has the name of a reference is taken to refer to `id`.
      let conventionCol := trimEndMatches parentTable 's' ++ "_id"
      let convention := (child.columns.find? fun col => col.name = conventionCol).map fun col => (col.name, "id")
      (declared.or convention).bind fun (childColumn, parentColumn) =>
        (findTable parentTable tables).map fun parent => (parent, { childColumn, parentColumn })

structure FkInfo where
  parentIdx : Nat
  childIdx : Nat
  parentCol : String
  childCol : String
  parentTable : String
  childTable : String

/-- The loop of `resolve_fk_for_includes`, with the offset of the next table. -/
def resolveInclude (tables : List Table) (fromTable : String) (state : List FkInfo × Nat) (inc : IncludeInput) :
    List FkInfo × Nat :=
  match findRelationship tables fromTable inc.relation, findTable inc.relation tables with
  | some (_, fk), some childTable =>
      (state.1 ++ [{
        parentIdx := 0
        childIdx := state.2
        parentCol := fk.parentColumn
        childCol := fk.childColumn
        parentTable := fromTable
        childTable := inc.relation }], state.2 + childTable.columns.length)
  | _, _ => state

/-- `resolve_fk_for_includes`. -/
def resolveFkForIncludes (input : FindManyInput) (tables : List Table) : List FkInfo :=
  match findTable input.fromTable tables with
  | none => []
  | some parent => (input.includes.foldl (resolveInclude tables input.fromTable) ([], parent.columns.length)).1

/-! ### The tree -/

section

variable [NumberText]

/-- The scan of an include, under its own filter. -/
def includeInput (inc : IncludeInput) (rightTable : Table) : Except HelionError QueryPlan :=
  let rightScan := .tableScan inc.relation rightTable.columns none none none
  match inc.whereClause with
  | none => .ok rightScan
  | some clause => do
      let predicate ← clause.parseWhereClause
      return .filter rightScan predicate

/-- The condition of the join to an include. -/
def includeOn (fromTable relation : String) (fk : FkRelationship) : Expression :=
  .binaryOp (.qualifiedColumn fromTable fk.parentColumn) .eq (.qualifiedColumn relation fk.childColumn)

/-- The loop of `build_find_many_plan` over the includes. -/
def joinInclude (tables : List Table) (fromTable : String) (state : QueryPlan × List (String × List ColumnMeta))
    (inc : IncludeInput) : Except HelionError (QueryPlan × List (String × List ColumnMeta)) :=
  match findRelationship tables fromTable inc.relation with
  | none => .ok state
  | some (rightTable, fk) => do
      let rightInput ← includeInput inc rightTable
      return (.join state.1 rightInput .left (.nestedLoop (some (includeOn fromTable inc.relation fk))),
        state.2 ++ [(inc.relation, rightTable.columns)])

/-- A tree under the filter, if there is one. -/
def QueryPlan.filtered (input : QueryPlan) : Option Expression → QueryPlan
  | none => input
  | some predicate => .filter input predicate

def OrderByInput.expr (order : OrderByInput) : OrderByExpr where
  expr := .column order.field
  direction := if eqIgnoreAsciiCase order.direction "desc" then .desc else .asc

/-- A tree under the ORDER BY, the LIMIT and the OFFSET of a request. -/
def QueryPlan.paged (tree : QueryPlan) (input : FindManyInput) : QueryPlan :=
  let sorted := if input.orderBy.isEmpty then tree else .sort tree (input.orderBy.map OrderByInput.expr)
  if input.take.isSome || 0 < input.skip.getD 0 then
    .limit sorted (input.take.getD (.ofNat (2 ^ 64 - 1))).toNat (input.skip.getD 0).toNat
  else sorted

/-- `build_find_many_plan`. -/
def buildFindManyPlan (input : FindManyInput) (tables : List Table) : Except HelionError QueryPlan := do
  let table ← requireTable tables input.fromTable
  let whereFilter ← Json.parseWhereClauseOpt input.whereClause
  let scan := (QueryPlan.tableScan input.fromTable table.columns none none none).filtered whereFilter
  let (joined, tableMap) ← input.includes.foldlM (joinInclude tables input.fromTable)
    (scan, [(input.fromTable, table.columns)])
  let projIndices :=
    match input.select with
    | some selectCols => selectCols.filterMap (Expression.positionOf (allColumns tableMap))
    | none => List.range (combinedLen tableMap)
  return .projection (joined.paged input) projIndices tableMap

end

/-- `Map::get`. -/
def getField (name : String) (fields : List (String × Json)) : Option Json :=
  (fields.find? fun entry => entry.1 = name).map Prod.snd

/-- `Map::insert`. Nothing looks at the order of the fields. -/
def insertField (name : String) (value : Json) : List (String × Json) → List (String × Json)
  | [] => [(name, value)]
  | entry :: rest => if entry.1 = name then (name, value) :: rest else entry :: insertField name value rest

/-- `Map::remove`. -/
def removeField (name : String) (fields : List (String × Json)) : List (String × Json) :=
  fields.filter fun entry => entry.1 ≠ name

namespace Json

/-- `Value::as_str`. -/
def asStr : Json → Option String
  | string s => some s
  | _ => none

/-- `Value::get` under a name. -/
def get (name : String) : Json → Option Json
  | object entries => getField name entries
  | _ => none

end Json

/-- The object of some columns with the texts they have. -/
def rowFields (entries : List (String × String)) : List (String × Json) :=
  entries.foldl (fun fields entry => insertField entry.1 (.string entry.2) fields) []

/-- `rows_to_json`. -/
def rowsToJson (columns : List String) (rows : List (List String)) : List Json :=
  rows.map fun row => .object (rowFields (columns.zip row))

/-- The object of a parent has this key. -/
def hasKey (parentKey : List String) (parent : List (String × Json)) : Bool :=
  match (getField "_key" parent).bind Json.asArray with
  | none => false
  | some key => (key.zip parentKey).all fun (a, b) => a.asStr = some b

/-- A new object of a parent, with an empty array for each include. -/
def newParent (columns : List String) (fkInfo : List FkInfo) (firstChildOffset : Nat) (row : List String) :
    List (String × Json) :=
  let own := rowFields ((columns.zip row).take firstChildOffset)
  let arrays := fkInfo.foldl (fun fields fk => insertField fk.childTable (.array []) fields) own
  insertField "_key" (.array ((row.take firstChildOffset).map .string)) arrays

/-- The first loop of `build_nested_json`, which leaves a parent that is there as it is. -/
def addParent (columns : List String) (fkInfo : List FkInfo) (firstChildOffset : Nat)
    (grouped : List (List (String × Json))) (row : List String) : List (List (String × Json)) :=
  if grouped.any (hasKey (row.take firstChildOffset)) then grouped
  else grouped ++ [newParent columns fkInfo firstChildOffset row]

/-- A child with all the fields of the object is there. -/
def isListed (child : List (String × Json)) (listed : List Json) : Bool :=
  listed.any fun item => child.all fun (name, value) => (item.get name).bind Json.asStr = value.asStr

/-- Put a child into the array of its parent. -/
def nestChild (childTable : String) (child parent : List (String × Json)) : List (String × Json) :=
  match (getField childTable parent).bind Json.asArray with
  | none => parent
  | some listed =>
      if isListed child listed then parent
      else insertField childTable (.array (listed ++ [.object child])) parent

/-- The second loop of `build_nested_json`, for the first include only. -/
def addChild (columns : List String) (fkInfo : List FkInfo) (firstChildOffset : Nat)
    (grouped : List (List (String × Json))) (row : List String) : List (List (String × Json)) :=
  match grouped.findIdx? (hasKey (row.take firstChildOffset)), fkInfo.head? with
  | some parentIdx, some fk =>
      if row.length ≤ fk.childIdx then grouped
      else if ((row.take columns.length).drop fk.childIdx).all (· = "NULL") then grouped
      else grouped.modify parentIdx (nestChild fk.childTable (rowFields ((columns.zip row).drop fk.childIdx)))
  | _, _ => grouped

/-- `build_nested_json`. -/
def buildNestedJson (columns : List String) (rows : List (List String)) (fkInfo : List FkInfo) : List Json :=
  if fkInfo.isEmpty || columns.isEmpty then rowsToJson columns rows
  else
    let firstChildOffset := (fkInfo.map FkInfo.childIdx).min?.getD columns.length
    let grouped := rows.foldl (addParent columns fkInfo firstChildOffset) []
    let nested := rows.foldl (addChild columns fkInfo firstChildOffset) grouped
    nested.map fun parent => .object (removeField "_key" parent)

/-- `execute_find_many`, without the text of the response. -/
def Database.executeFindMany [CaseMapping] [Rendering] [NumberText] (db : Database) (choices : QueryChoices)
    (input : FindManyInput) (currentUser : Option String) : Except HelionError Json := do
  let plan ← buildFindManyPlan input db.engine.tables
  let result ← db.queryResult choices plan currentUser
  let data :=
    if input.includes.isEmpty then rowsToJson result.columns result.rows
    else buildNestedJson result.columns result.rows (resolveFkForIncludes input db.engine.tables)
  return .object [("data", .array data)]

end HelionDb
