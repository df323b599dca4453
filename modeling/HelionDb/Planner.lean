import HelionDb.Eval
import HelionDb.Executor
import Mathlib.Data.List.Dedup
import Mathlib.Data.List.Sort
import Mathlib.Data.String.Basic

/-! The planner of `planner.rs`. A SELECT becomes a tree: scans joined from left to right under the filter
of WHERE, then the sort, the limit and the projection. The optimizer moves parts of the filter into the
scans, turns a filter of a scan into the lookup of an index and chooses the algorithm of each join. -/

namespace HelionDb

inductive JoinAlgorithm where
  | nestedLoop (onClause : Option Expression)
  | indexNestedLoop (innerTable : String) (innerColumns : List ColumnMeta) (indexName : String)
      (outerKeyIndices : List Nat) (remainingOn : Option Expression)
  | hashJoin (buildLeft : Bool) (buildKeyIndices probeKeyIndices : List Nat) (remainingOn : Option Expression)

/-- The nodes of `LogicalPlan` that make up a query. -/
inductive QueryPlan where
  | tableScan (table : String) (tableColumns : List ColumnMeta) (filter : Option Expression)
      (indexName : Option String) (indexKeys : Option (List Datum))
  | join (left right : QueryPlan) (joinType : JoinType) (algorithm : JoinAlgorithm)
  | filter (input : QueryPlan) (predicate : Expression)
  | projection (input : QueryPlan) (columns : List Nat) (tableMap : List (String × List ColumnMeta))
  | sort (input : QueryPlan) (orderBy : List OrderByExpr)
  | limit (input : QueryPlan) (limit offset : Nat)

/-- `LogicalPlan`. -/
inductive Plan where
  | query (tree : QueryPlan)
  | createTable (name : String) (columns : List ColumnMeta) (engine : Option String)
  | explain (analyze verbose : Bool) (statement : String)
  | dropTable (name : String) (ifExists : Bool)
  | alterTableEngine (name engine : String)
  | insert (tableName : String) (rows : List Row)
  | update (tableName : String) (assignments : List (Nat × Datum)) (whereClause : Option Expression)
      (tableColumns : List ColumnMeta)
  | delete (tableName : String) (whereClause : Option Expression) (tableColumns : List ColumnMeta)
  | createUser (username password : String)
  | dropUser (username : String) (ifExists : Bool)
  | alterUser (username password : String)
  | grant (username table : String) (columns : List String) (permission : Permission)
  | revoke (username table : String) (columns : List String) (permission : Permission)
  | createIndex (name table : String) (columns : List String) (unique ifNotExists : Bool)
  | dropIndex (name table : String) (ifExists : Bool)
  | showTables
  | showDatabases
  | useDatabase (name : String)

/-- `find_table` of the planner. -/
def requireTable (tables : List Table) (name : String) : Except HelionError Table :=
  match findTable name tables with
  | some table => .ok table
  | none => .error (.tableNotFound name)

section

variable (tableMap : List (String × List ColumnMeta))

/-- The number of columns of the joined tables. -/
def combinedLen : Nat := (tableMap.map fun entry => entry.2.length).sum

/-- Where the columns of the first table of this name start. -/
def offsetOf (name : String) : Nat := combinedLen (tableMap.takeWhile fun entry => entry.1 ≠ name)

/-- The tables with the positions their columns start at. -/
def tableOffsets : (offset : Nat) → List (String × List ColumnMeta) → List (String × Nat)
  | _, [] => []
  | offset, (name, columns) :: rest => (name, offset) :: tableOffsets (offset + columns.length) rest

/-- `resolve_qualified_column`. -/
def resolveQualifiedColumn (table column : String) : Except HelionError Nat :=
  let notFound : Except HelionError Nat := .error (.columnNotFound (table ++ "." ++ column))
  match tableMap.find? fun entry => eqIgnoreAsciiCase entry.1 table with
  | some (name, columns) =>
      match Expression.positionOf columns column with
      | some idx => .ok (offsetOf tableMap name + idx)
      | none => notFound
  | none =>
      match tableMap with
      | [(_, columns)] =>
          match Expression.positionOf columns column with
          | some idx => .ok idx
          | none => notFound
      | _ => notFound

/-- The positions of a column name in the tables that have it. -/
def positionsOf (name : String) : (offset : Nat) → List (String × List ColumnMeta) → List Nat
  | _, [] => []
  | offset, (_, columns) :: rest =>
      match Expression.positionOf columns name with
      | some idx => (offset + idx) :: positionsOf name (offset + columns.length) rest
      | none => positionsOf name (offset + columns.length) rest

/-- `resolve_unqualified_column`. -/
def resolveUnqualifiedColumn (name : String) : Except HelionError Nat :=
  match positionsOf name 0 tableMap with
  | [] => .error (.columnNotFound name)
  | [position] => .ok position
  | _ => .error (.ambiguousColumn name)

/-- `name.find('.')`: the text before and behind the first dot. -/
def splitAtDot (name : String) : Option (String × String) :=
  let before := name.toList.takeWhile (· ≠ '.')
  match name.toList.drop before.length with
  | [] => none
  | _ :: behind => some (String.ofList before, String.ofList behind)

/-- The positions a selected column stands for; `none` where it asks for all of them. -/
def resolveSelectColumn : SelectColumn → Except HelionError (Option (List Nat))
  | .wildcard => .ok none
  | .qualWildcard table =>
      match (tableOffsets 0 tableMap).find? fun entry => eqIgnoreAsciiCase entry.1 table with
      | none => .ok (some [])
      | some (name, offset) =>
          match tableMap.find? fun entry => entry.1 = name with
          | none => .ok (some [])
          | some (_, columns) => .ok (some ((List.range columns.length).map (offset + ·)))
  | .qualified name _ =>
      match splitAtDot name with
      | some (table, column) => (resolveQualifiedColumn tableMap table column).map fun idx => some [idx]
      | none => (resolveUnqualifiedColumn tableMap name).map fun idx => some [idx]
  | .expr (.column name) => (resolveUnqualifiedColumn tableMap name).map fun idx => some [idx]
  | .expr (.qualifiedColumn table column) => (resolveQualifiedColumn tableMap table column).map fun idx => some [idx]
  | .expr _ => .ok none

/-- `resolve_select_columns`; a wildcard counts only when nothing else is selected. -/
def resolveSelectColumns (columns : List SelectColumn) : Except HelionError (List Nat) :=
  if columns.isEmpty then .ok (List.range (combinedLen tableMap))
  else do
    let resolved ← columns.mapM (resolveSelectColumn tableMap)
    let result := (resolved.filterMap id).flatten
    if resolved.any Option.isNone && result.isEmpty then return List.range (combinedLen tableMap)
    else return result

end

/-- The scan of a table before optimization. -/
def scanOf (name : String) (table : Table) : QueryPlan := .tableScan name table.columns none none none

/-- One round of the loop over the joins of `plan_select`. -/
def planJoin (tables : List Table) (plan : QueryPlan) (clause : JoinClause) : Except HelionError QueryPlan := do
  let rightTable ← requireTable tables clause.rightTable
  return .join plan (scanOf clause.rightTable rightTable) clause.joinType (.nestedLoop clause.onClause)

/-- `resolve_table_list`, as the pairs `table_map` is made of. -/
def resolveTableList (tables : List Table) (statement : SelectStatement) :
    Except HelionError (List (String × List ColumnMeta)) := do
  let resolved ← (statement.tableName :: statement.joins.map (·.rightTable)).mapM (requireTable tables)
  return resolved.map fun table => (table.name, table.columns)

/-- `plan_select`. -/
def planSelect (tables : List Table) (statement : SelectStatement) : Except HelionError QueryPlan := do
  let primaryTable ← requireTable tables statement.tableName
  let joined ← statement.joins.foldlM (planJoin tables) (scanOf statement.tableName primaryTable)
  let filtered :=
    match statement.whereClause with
    | some predicate => QueryPlan.filter joined predicate
    | none => joined
  let tableMap ← resolveTableList tables statement
  let columns ← resolveSelectColumns tableMap statement.columns
  let sorted := if statement.orderBy.isEmpty then filtered else .sort filtered statement.orderBy
  let limited :=
    if statement.limit.isSome || 0 < statement.offset.getD 0 then
      QueryPlan.limit sorted (statement.limit.getD u64Max) (statement.offset.getD 0)
    else sorted
  return .projection limited columns tableMap

/-! ### Predicate pushdown -/

/-- `decompose_conjunction`. -/
def decomposeConjunction : Expression → List Expression
  | .binaryOp left .and right => decomposeConjunction left ++ decomposeConjunction right
  | other => [other]

/-- `recompose_conjunction`. -/
def recomposeConjunction : List Expression → Expression
  | [] => .literal (.boolean true)
  | first :: rest => rest.foldl (fun whole part => .binaryOp whole .and part) first

/-- `l.sort(); l.dedup()`. -/
def sortDedup (names : List String) : List String := (names.insertionSort (· ≤ ·)).dedup

mutual

/-- `referenced_tables`: an unqualified column names every table that has it, a qualified one the table as
it is written. -/
def referencedTables (tables : List (String × List ColumnMeta)) : Expression → Except HelionError (List String)
  | .column name =>
      let found := (tables.filter fun entry => (Expression.positionOf entry.2 name).isSome).map Prod.fst
      if found.isEmpty then .error (.columnNotFound name) else .ok found
  | .qualifiedColumn table _ => .ok [table]
  | .literal _ => .ok []
  | .binaryOp left _ right => do
      let l ← referencedTables tables left
      let r ← referencedTables tables right
      return sortDedup (l ++ r)
  | .unaryOp _ inner | .isNull inner | .isNotNull inner | .inList inner _ | .like inner _ =>
      referencedTables tables inner
  | .between inner low high => do
      let t ← referencedTables tables inner
      let l ← referencedTables tables low
      let h ← referencedTables tables high
      return sortDedup (t ++ l ++ h)
  | .function _ args => do
      let found ← referencedTablesAll tables args
      return sortDedup found

/-- The tables that the arguments of a function name. -/
def referencedTablesAll (tables : List (String × List ColumnMeta)) :
    List Expression → Except HelionError (List String)
  | [] => .ok []
  | arg :: rest => do
      let first ← referencedTables tables arg
      let others ← referencedTablesAll tables rest
      return first ++ others

end

namespace QueryPlan

/-- `collect_table_info`. -/
def tableInfo : QueryPlan → List (String × List ColumnMeta)
  | tableScan table tableColumns _ _ _ => [(table, tableColumns)]
  | join left right _ _ => left.tableInfo ++ right.tableInfo
  | filter input _ | projection input _ _ | sort input _ | limit input _ _ => input.tableInfo

/-- The predicate names one table, and it is one of these. -/
def belongsTo (info names : List (String × List ColumnMeta)) (predicate : Expression) : Bool :=
  match referencedTables info predicate with
  | .ok [table] => names.any fun entry => entry.1 = table
  | _ => false

/-- `push_predicates_into`. -/
def pushPredicatesInto : QueryPlan → List Expression → QueryPlan
  | plan, [] => plan
  | tableScan table tableColumns existing indexName indexKeys, predicates =>
      let combined :=
        match existing with
        | some existing => recomposeConjunction (decomposeConjunction existing ++ predicates)
        | none => recomposeConjunction predicates
      tableScan table tableColumns (some combined) indexName indexKeys
  | join left right joinType algorithm, predicates =>
      let info := left.tableInfo ++ right.tableInfo
      let pushLeft := predicates.filter (belongsTo info left.tableInfo)
      let rest := predicates.filter fun predicate => !belongsTo info left.tableInfo predicate
      let pushRight := rest.filter (belongsTo info right.tableInfo)
      let keep := rest.filter fun predicate => !belongsTo info right.tableInfo predicate
      let result := join (left.pushPredicatesInto pushLeft) (right.pushPredicatesInto pushRight) joinType algorithm
      if keep.isEmpty then result else filter result (recomposeConjunction keep)
  | projection input columns tableMap, predicates => projection (input.pushPredicatesInto predicates) columns tableMap
  | sort input orderBy, predicates => sort (input.pushPredicatesInto predicates) orderBy
  | limit input count offset, predicates => limit (input.pushPredicatesInto predicates) count offset
  | filter input predicate, predicates => filter (filter input predicate) (recomposeConjunction predicates)

/-- The predicate names at most one table. -/
def isPushable (info : List (String × List ColumnMeta)) (predicate : Expression) : Bool :=
  match referencedTables info predicate with
  | .ok tables => tables.length ≤ 1
  | .error _ => false

/-- `push_down_predicates`. -/
def pushDownPredicates : QueryPlan → QueryPlan
  | filter input predicate =>
      let conjuncts := decomposeConjunction predicate
      let pushable := conjuncts.filter (isPushable input.tableInfo)
      let keep := conjuncts.filter fun conjunct => !isPushable input.tableInfo conjunct
      let pushed := input.pushPredicatesInto pushable
      if keep.isEmpty then pushed else filter pushed (recomposeConjunction keep)
  | join left right joinType algorithm =>
      join left.pushDownPredicates right.pushDownPredicates joinType algorithm
  | projection input columns tableMap => projection input.pushDownPredicates columns tableMap
  | sort input orderBy => sort input.pushDownPredicates orderBy
  | limit input count offset => limit input.pushDownPredicates count offset
  | scan@(tableScan _ _ _ _ _) => scan

/-- A column compared with a literal, either way round. -/
def columnAndLiteral : Expression → Option (String × Datum)
  | .binaryOp (.column name) .eq (.literal value) => some (name, value)
  | .binaryOp (.literal value) .eq (.column name) => some (name, value)
  | _ => none

/-- `choose_index_for_filter`. -/
def chooseIndexForFilter (table : Table) (condition : Expression) : Option (String × List Datum) :=
  match columnAndLiteral condition with
  | none => none
  | some (name, value) =>
      match Expression.positionOf table.columns name with
      | none => none
      | some idx =>
          match coerceTo table idx value with
          | .error _ => none
          | .ok coerced =>
              (table.indexes.find? fun index => index.definition.columns = [idx]).map
                fun index => (index.definition.name, [coerced])

/-- `matches_indexed_predicate`. -/
def matchesIndexedPredicate (columns : List ColumnMeta) (predicate : Expression) : Bool :=
  match columnAndLiteral predicate with
  | none => false
  | some (name, _) => columns.any fun column => eqIgnoreAsciiCase column.name name

/-- `remove_indexed_predicate`. -/
def removeIndexedPredicate (condition : Expression) (columns : List ColumnMeta) : Option Expression :=
  let remaining := (decomposeConjunction condition).filter fun part => !matchesIndexedPredicate columns part
  if remaining.isEmpty then none else some (recomposeConjunction remaining)

/-- `select_indexes`. -/
def selectIndexes (tables : List Table) : QueryPlan → QueryPlan
  | tableScan table tableColumns condition (some indexName) indexKeys =>
      tableScan table tableColumns condition (some indexName) indexKeys
  | tableScan table tableColumns condition none _ =>
      let chosen := (findTable table tables).bind fun found => condition.bind (chooseIndexForFilter found)
      match chosen with
      | some (indexName, keys) =>
          tableScan table tableColumns (condition.bind (removeIndexedPredicate · tableColumns)) (some indexName)
            (some keys)
      | none => tableScan table tableColumns condition none none
  | join left right joinType algorithm =>
      join (left.selectIndexes tables) (right.selectIndexes tables) joinType algorithm
  | filter input predicate => filter (input.selectIndexes tables) predicate
  | projection input columns tableMap => projection (input.selectIndexes tables) columns tableMap
  | sort input orderBy => sort (input.selectIndexes tables) orderBy
  | limit input count offset => limit (input.selectIndexes tables) count offset

/-! ### Join algorithms -/

/-- `extract_equi_join_pairs`. -/
def extractEquiJoinPairs : Expression → List (Expression × Expression)
  | .binaryOp left .eq right => [(left, right)]
  | .binaryOp left .and right => extractEquiJoinPairs left ++ extractEquiJoinPairs right
  | _ => []

/-- `extract_column_indices`, which finds one column or none. -/
def extractColumnIndex (expr : Expression) (plan : QueryPlan) : Option Nat :=
  match expr, plan with
  | .column name, tableScan _ tableColumns _ _ _ => Expression.positionOf tableColumns name
  | _, _ => none

/-- `count_output_columns`. -/
def countOutputColumns : QueryPlan → Nat
  | tableScan _ tableColumns _ _ _ => tableColumns.length
  | join left right _ _ => left.countOutputColumns + right.countOutputColumns
  | projection _ columns _ => columns.length
  | filter input _ | sort input _ | limit input _ _ => input.countOutputColumns

/-- The position of a column of a table, when the expression is one. -/
def columnIn (table : Table) : Expression → Option Nat
  | .column name => Expression.positionOf table.columns name
  | _ => none

/-- The side of a pair that is a column of the inner table, and the other side. -/
def innerColumn (table : Table) (pair : Expression × Expression) : Option (Nat × Expression) :=
  match columnIn table pair.1 with
  | some idx => some (idx, pair.2)
  | none => (columnIn table pair.2).map fun idx => (idx, pair.1)

/-- The index nested-loop join that `select_join_algorithm` finds, if there is one. -/
def chooseIndexJoin (tables : List Table) (left right : QueryPlan) (on : Expression) : Option JoinAlgorithm :=
  match right with
  | tableScan rightName rightColumns _ _ _ =>
      match findTable rightName tables with
      | none => none
      | some inner =>
          (extractEquiJoinPairs on).findSome? fun pair =>
            match innerColumn inner pair with
            | none => none
            | some (idx, outer) =>
                inner.indexes.findSome? fun index =>
                  if index.definition.columns = [idx] then
                    (extractColumnIndex outer left).map fun key =>
                      .indexNestedLoop rightName rightColumns index.definition.name [key] (some on)
                  else none
  | _ => none

/-- The key columns of a hash join: the pairs of a column on the left and one on the right. -/
def hashJoinKeys (left right : QueryPlan) (on : Expression) : List (Nat × Nat) :=
  (extractEquiJoinPairs on).filterMap fun pair =>
    match extractColumnIndex pair.1 left, extractColumnIndex pair.2 right with
    | some l, some r => some (l, r)
    | _, _ => none

/-- `select_join_algorithm`. -/
def selectJoinAlgorithm (tables : List Table) (left right : QueryPlan) (onClause : Option Expression) :
    JoinAlgorithm :=
  match onClause with
  | none => .nestedLoop none
  | some on =>
      match chooseIndexJoin tables left right on with
      | some algorithm => algorithm
      | none =>
          let keys := hashJoinKeys left right on
          if keys.isEmpty then .nestedLoop (some on)
          else if left.countOutputColumns ≤ right.countOutputColumns then
            .hashJoin true (keys.map Prod.fst) (keys.map Prod.snd) (some on)
          else .hashJoin false (keys.map Prod.snd) (keys.map Prod.fst) (some on)

/-- `choose_join_algorithms`. -/
def chooseJoinAlgorithms (tables : List Table) : QueryPlan → QueryPlan
  | join left right joinType (.nestedLoop onClause) =>
      let left := left.chooseJoinAlgorithms tables
      let right := right.chooseJoinAlgorithms tables
      join left right joinType (selectJoinAlgorithm tables left right onClause)
  | join left right joinType algorithm =>
      join (left.chooseJoinAlgorithms tables) (right.chooseJoinAlgorithms tables) joinType algorithm
  | filter input predicate => filter (input.chooseJoinAlgorithms tables) predicate
  | projection input columns tableMap => projection (input.chooseJoinAlgorithms tables) columns tableMap
  | sort input orderBy => sort (input.chooseJoinAlgorithms tables) orderBy
  | limit input count offset => limit (input.chooseJoinAlgorithms tables) count offset
  | tableScan table tableColumns condition indexName indexKeys =>
      tableScan table tableColumns condition indexName indexKeys

/-- `optimize`. -/
def optimize (tables : List Table) (plan : QueryPlan) : QueryPlan :=
  (plan.pushDownPredicates.selectIndexes tables).chooseJoinAlgorithms tables

end QueryPlan

/-- The permission that GRANT and REVOKE are about. -/
def GrantPermissionType.permission (columns : List String) : GrantPermissionType → Permission
  | .select => .select columns
  | .insert => .insert columns
  | .update => .update columns
  | .delete => .delete
  | .all => .all

/-- `plan`. -/
def plan (tables : List Table) : HelionStatement → Except HelionError Plan
  | .createTable name columns engine => .ok (.createTable name columns engine)
  | .explain analyze verbose statement => .ok (.explain analyze verbose statement)
  | .dropTable name ifExists => .ok (.dropTable name ifExists)
  | .alterTableEngine name engine => .ok (.alterTableEngine name engine)
  | .insert tableName columns values => do
      let rows ← planInsert tables tableName columns values
      return .insert tableName rows
  | .select statement => do
      let tree ← planSelect tables statement
      return .query (tree.optimize tables)
  | .update tableName assignments whereClause => do
      let table ← requireTable tables tableName
      let coerced ← planUpdate tables tableName assignments
      return .update tableName coerced whereClause table.columns
  | .delete tableName whereClause => do
      let table ← requireTable tables tableName
      return .delete tableName whereClause table.columns
  | .createUser username password => .ok (.createUser username password)
  | .dropUser username ifExists => .ok (.dropUser username ifExists)
  | .alterUser username password => .ok (.alterUser username password)
  | .grant username table columns permissionType =>
      .ok (.grant username table columns (permissionType.permission columns))
  | .revoke username table columns permissionType =>
      .ok (.revoke username table columns (permissionType.permission columns))
  | .createIndex name table columns unique ifNotExists => do
      let _ ← requireTable tables table
      return .createIndex name table columns unique ifNotExists
  | .dropIndex name table ifExists => .ok (.dropIndex name table ifExists)
  | .showTables => .ok .showTables
  | .showDatabases => .ok .showDatabases
  | .useDatabase name => .ok (.useDatabase name)

end HelionDb
