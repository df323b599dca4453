import HelionDb.IndexJoin
import HelionDb.NestedRows
import HelionDb.OutputCoverage

/-! The flat rows of a findMany request with one include. The scan of the related table has the columns of the table the
request is from, since that is the table that `find_relationship` returns. So every column name of the join is ambiguous,
ORDER BY compares nothing, and the ON condition reads the related row by the positions of the other table's columns. -/

namespace HelionDb

/-- The items that `skip` and `take` leave. -/
def FindManyInput.page {α : Type} (input : FindManyInput) (items : List α) : List α :=
  if input.take.isSome || 0 < input.skip.getD 0 then
    (items.drop (input.skip.getD 0).toNat).take (input.take.getD (.ofNat (2 ^ 64 - 1))).toNat
  else items

theorem FindManyInput.map_page {α β : Type} (input : FindManyInput) (f : α → β) (items : List α) :
    (input.page items).map f = input.page (items.map f) := by
  unfold page
  split
  · rw [List.map_take, List.map_drop]
  · rfl

theorem FindManyInput.mem_of_mem_page {α : Type} {input : FindManyInput} {items : List α} {item : α}
    (h : item ∈ input.page items) : item ∈ items := by
  unfold page at h
  split at h
  · exact List.mem_of_mem_drop (List.mem_of_mem_take h)
  · exact h

/-- The rows of a table that are visible in a context. -/
def ExecContext.rowsIn (ctx : ExecContext) (table : Table) : DataRows :=
  (table.scanVisible ctx.snapshot.txid ctx.snapshot.active).map fun entry => entry.2.values

/-- A row at all of its positions. -/
theorem take_eq_filterMap_range {α : Type} (count : Nat) (items : List α) :
    ((List.range count).filterMap fun i => items[i]?) = items.take count := by
  induction count with
  | zero => rfl
  | succ count ih =>
      rw [List.range_succ, List.filterMap_append, ih, List.take_add_one]
      congr 1

/-- The names of columns with their table. -/
def namesUnder (table : String) (columns : List ColumnMeta) : List String :=
  columns.map fun column => table ++ "." ++ column.name

/-- Columns that stand twice in a join are all told apart by their tables. -/
theorem qualifiedNames_twice (left right : String) (columns : List ColumnMeta) :
    qualifiedNames [(left, columns), (right, columns)] = namesUnder left columns ++ namesUnder right columns := by
  have htwice :
      ∀ column ∈ columns, 1 < (columns.map ColumnMeta.name ++ columns.map ColumnMeta.name).count column.name := by
    intro column hcolumn
    have hone := List.one_le_count_iff.mpr (List.mem_map_of_mem (f := ColumnMeta.name) hcolumn)
    rw [List.count_append]
    omega
  have hnames : ∀ table : String, (columns.map fun column =>
      if 1 < (columns.map ColumnMeta.name ++ columns.map ColumnMeta.name).count column.name then
        table ++ "." ++ column.name else column.name) = namesUnder table columns := by
    intro table
    apply List.map_congr_left
    intro column hcolumn
    rw [if_pos (htwice column hcolumn)]
  rw [← hnames left, ← hnames right]
  simp [qualifiedNames]

section

variable [NumberText]

/-- The filter of an include. -/
def IncludeInput.filter (inc : IncludeInput) : Except HelionError (Option Expression) :=
  match inc.whereClause with
  | none => .ok none
  | some clause => clause.parseWhereClause.map some

/-- A request without a selection, with one include of a table that `find_relationship` finds to refer to its own. -/
structure IncludeRequest (tables : List Table) where
  input : FindManyInput
  inc : IncludeInput
  parent : Table
  child : Table
  fk : FkRelationship
  filter : Option Expression
  childFilter : Option Expression
  includes : input.includes = [inc]
  select : input.select = none
  parentFound : findTable input.fromTable tables = some parent
  childFound : findTable inc.relation tables = some child
  related : findRelationship tables input.fromTable inc.relation = some (parent, fk)
  filterParsed : Json.parseWhereClauseOpt input.whereClause = .ok filter
  childFilterParsed : inc.filter = .ok childFilter

end

namespace IncludeRequest

section Plan

variable [NumberText] {tables : List Table} (request : IncludeRequest tables)

/-- The two scans that are joined, both with the columns of the parent. -/
def parentInput : QueryPlan :=
  (QueryPlan.tableScan request.input.fromTable request.parent.columns none none none).filtered request.filter

def childInput : QueryPlan :=
  (QueryPlan.tableScan request.inc.relation request.parent.columns none none none).filtered request.childFilter

def onClause : Expression := includeOn request.input.fromTable request.inc.relation request.fk

def joinTree : QueryPlan :=
  .join request.parentInput request.childInput .left (.nestedLoop (some request.onClause))

def tableMap : List (String × List ColumnMeta) :=
  [(request.input.fromTable, request.parent.columns), (request.inc.relation, request.parent.columns)]

theorem includeInput_eq :
    includeInput request.inc request.parent = .ok request.childInput := by
  have hfilter := request.childFilterParsed
  unfold IncludeInput.filter at hfilter
  unfold includeInput childInput
  cases hclause : request.inc.whereClause with
  | none =>
      rw [hclause] at hfilter
      rw [← Except.ok.inj hfilter]
      rfl
  | some clause =>
      rw [hclause] at hfilter
      dsimp only at hfilter ⊢
      cases hparsed : clause.parseWhereClause with
      | error err =>
          rw [hparsed] at hfilter
          cases hfilter
      | ok predicate =>
          rw [hparsed] at hfilter
          rw [← Except.ok.inj hfilter]
          rfl

theorem buildFindManyPlan_eq :
    buildFindManyPlan request.input tables =
      .ok (.projection (request.joinTree.paged request.input) (List.range (combinedLen request.tableMap))
        request.tableMap) := by
  rw [buildFindManyPlan, requireTable, request.parentFound, request.filterParsed, request.includes, request.select]
  simp only [List.foldlM_cons, List.foldlM_nil, joinInclude, request.related, request.includeInput_eq]
  rfl

theorem resolveFkForIncludes_eq :
    resolveFkForIncludes request.input tables =
      [{ parentIdx := 0, childIdx := request.parent.columns.length, parentCol := request.fk.parentColumn
         childCol := request.fk.childColumn, parentTable := request.input.fromTable
         childTable := request.inc.relation }] := by
  rw [resolveFkForIncludes, request.parentFound, request.includes]
  simp only [List.foldl_cons, List.foldl_nil, resolveInclude, request.related, request.childFound]
  rfl

end Plan

section Names

variable [NumberText] {tables : List Table} (request : IncludeRequest tables)

theorem combinedLen_tableMap : combinedLen request.tableMap = 2 * request.parent.columns.length := by
  rw [combinedLen, tableMap]
  simp [Nat.two_mul]

theorem colNames_projection (input : QueryPlan) :
    (QueryPlan.projection input (List.range (combinedLen request.tableMap)) request.tableMap).colNames =
      namesUnder request.input.fromTable request.parent.columns ++
        namesUnder request.inc.relation request.parent.columns := by
  rw [QueryPlan.colNames, ← length_qualifiedNames, tableMap, qualifiedNames_twice]
  rw [take_eq_filterMap_range, List.take_length]

end Names

end IncludeRequest

/-! ### Rows -/

section Rows

variable [CaseMapping] [Rendering]

/-- A scan of a table under a filter. -/
theorem executeTree_filtered {ctx : ExecContext} {name : String} {table : Table}
    (htable : findTable name ctx.tables = some table) (columns : List ColumnMeta) (condition : Option Expression) :
    executeTree ctx ((QueryPlan.tableScan name columns none none none).filtered condition) =
      .ok ((ctx.rowsIn table).filter (satisfies ctx.choices [{ name, offset := 0, columns }] condition)) := by
  have hscan : executeTree ctx (.tableScan name columns none none none) = .ok (ctx.rowsIn table) := by
    rw [QueryPlan.executeTableScan_eq htable rfl]
    exact congrArg Except.ok (List.filter_eq_self.mpr fun _ _ => rfl)
  cases condition with
  | none =>
      rw [QueryPlan.filtered, hscan]
      exact congrArg Except.ok (List.filter_eq_self.mpr fun _ _ => rfl).symm
  | some predicate =>
      rw [QueryPlan.filtered, executeTree, hscan]
      rfl

/-- Rows that no expression tells apart stay in their order. -/
theorem sortRows_of_eq {choices : QueryChoices} {slots : List Expression.TableSlot} {orderBy : List OrderByExpr}
    (hsame : ∀ left right, compareRows choices slots left right orderBy = .eq) (rows : DataRows) :
    sortRows choices slots orderBy rows = rows := by
  have hpreorders : Comparator.PreordersOn (fun left right => compareRows choices slots left right orderBy) rows :=
    { reversed := by simp [hsame], transitive := by simp [hsame] }
  rw [sortRows_eq_insertionSort hpreorders]
  apply List.Pairwise.insertionSort_eq
  rw [List.pairwise_iff_getElem]
  intro i j hi hj _
  rw [hsame]
  decide

omit [CaseMapping] [Rendering] in
/-- A column without its table cannot be found where two tables have the same columns. -/
theorem lookupJoin_twice {left right : Expression.TableSlot} (hcolumns : left.columns = right.columns)
    (row : List Datum) (name : String) : ∃ err, Expression.lookupJoin row [left, right] none name = .error err := by
  rw [Expression.lookupJoin]
  cases hposition : Expression.positionOf right.columns name with
  | none => simp [Expression.findUnqualified, hcolumns, hposition]
  | some idx => simp [Expression.findUnqualified, hcolumns, hposition]

theorem compareRows_twice (choices : QueryChoices) {left right : Expression.TableSlot}
    (hcolumns : left.columns = right.columns) (orders : List OrderByInput) (row other : List Datum) :
    compareRows choices [left, right] row other (orders.map OrderByInput.expr) = .eq := by
  induction orders with
  | nil => rfl
  | cons order rest ih =>
      obtain ⟨err, herr⟩ := lookupJoin_twice hcolumns row order.field
      have hvalue : order.expr.expr.evaluateJoin choices.uuidv7 row [left, right] = .error err := by
        rw [Expression.evaluateJoin, OrderByInput.expr, Expression.evaluateWith, herr]
      rw [List.map_cons, compareRows, hvalue]
      exact ih

/-- What the request's order, skip and take leave of the rows of a tree. -/
theorem executeTree_paged {ctx : ExecContext} {tree : QueryPlan} {rows : DataRows} (hrows : executeTree ctx tree = .ok rows)
    (input : FindManyInput) :
    executeTree ctx (tree.paged input) =
      .ok (input.page (sortRows ctx.choices tree.slots (input.orderBy.map OrderByInput.expr) rows)) := by
  have hsorted :
      executeTree ctx (if input.orderBy.isEmpty then tree else .sort tree (input.orderBy.map OrderByInput.expr)) =
      .ok (sortRows ctx.choices tree.slots (input.orderBy.map OrderByInput.expr) rows) := by
    by_cases hempty : input.orderBy.isEmpty = true
    · rw [if_pos hempty, hrows, List.isEmpty_iff.mp hempty]
      exact congrArg Except.ok (sortRows_of_eq (fun _ _ => rfl) rows).symm
    · rw [if_neg hempty, executeTree, hrows]
      rfl
  rw [QueryPlan.paged, FindManyInput.page]
  split
  · rw [executeTree, hsorted]
    rfl
  · exact hsorted

end Rows

namespace IncludeRequest

section Pairs

variable [CaseMapping] [Rendering] [NumberText] {ctx : ExecContext} (request : IncludeRequest ctx.tables)

/-- The rows of the parent that the filter of the request takes. -/
def taken : DataRows :=
  (ctx.rowsIn request.parent).filter
    (satisfies ctx.choices [{ name := request.input.fromTable, offset := 0, columns := request.parent.columns }]
      request.filter)

/-- The rows of the child that the join sees. -/
def joinable : DataRows :=
  (ctx.rowsIn request.child).filter
    (satisfies ctx.choices [{ name := request.inc.relation, offset := 0, columns := request.parent.columns }]
      request.childFilter)

/-- The tables of the join. -/
def slots : List Expression.TableSlot :=
  [{ name := request.input.fromTable, offset := 0, columns := request.parent.columns },
    { name := request.inc.relation, offset := request.parent.columns.length, columns := request.parent.columns }]

/-- The ON condition holds of two rows. -/
def finds (row other : List Datum) : Bool :=
  satisfies ctx.choices request.slots (some request.onClause) (row ++ other)

/-- The rows of the request, in the order of the table, with each row that is found for them or with none. -/
def pairs : List (List Datum × Option (List Datum)) :=
  request.taken.flatMap fun row =>
    match request.joinable.filter (request.finds row) with
    | [] => [(row, none)]
    | found => found.map fun other => (row, some other)

/-- A joined row. -/
def joinedRow (pair : List Datum × Option (List Datum)) : List Datum :=
  pair.1 ++ pair.2.getD (padding request.parent.columns.length)

omit [CaseMapping] [Rendering] [NumberText] in
theorem slots_filtered (name : String) (columns : List ColumnMeta) (condition : Option Expression) :
    ((QueryPlan.tableScan name columns none none none).filtered condition).slots =
      [{ name, offset := 0, columns }] := by
  cases condition <;> rfl

omit [CaseMapping] [Rendering] in
theorem slots_joinTree : request.joinTree.slots = request.slots := by
  rw [joinTree, QueryPlan.slots, parentInput, childInput, slots_filtered, slots_filtered]
  simp [joinSlots, shiftSlots, slotsWidth, slots]

/-- The combinations of a row are its pairs. -/
theorem combineLeft_eq (row : List Datum) :
    combineLeft ctx.choices request.slots .left (some request.onClause) request.parent.columns.length row
        request.joinable =
      (match request.joinable.filter (request.finds row) with
        | [] => [(row, none)]
        | found => found.map fun other => (row, some other)).map request.joinedRow := by
  have hfound : (request.joinable.map (row ++ ·)).filter (satisfies ctx.choices request.slots (some request.onClause)) =
      (request.joinable.filter (request.finds row)).map (row ++ ·) := by
    rw [List.filter_map]
    rfl
  rw [combineLeft, hfound]
  cases request.joinable.filter (request.finds row) with
  | nil => rfl
  | cons first rest =>
      simp only [List.map_cons, List.isEmpty_cons, Bool.false_and, Bool.false_eq_true, if_false, List.map_map]
      rfl

theorem executeTree_joinTree : executeTree ctx request.joinTree = .ok (request.pairs.map request.joinedRow) := by
  have hleft : executeTree ctx request.parentInput = .ok request.taken :=
    executeTree_filtered request.parentFound _ _
  have hright : executeTree ctx request.childInput = .ok request.joinable :=
    executeTree_filtered request.childFound _ _
  have hslots : joinSlots request.parentInput.slots request.childInput.slots = request.slots := request.slots_joinTree
  have hwidth : slotsWidth request.childInput.slots = request.parent.columns.length := by
    rw [childInput, slots_filtered]
    simp [slotsWidth]
  rw [joinTree, QueryPlan.executeTree_nestedLoop hleft hright, nestedLoopJoin, hslots, hwidth]
  rw [if_neg (by decide), List.append_nil, pairs, List.map_flatMap]
  congr 1
  apply List.flatMap_congr
  intro row _
  exact request.combineLeft_eq row

/-- The rows of the request: the page of the pairs in the order of the table, cut to the columns of the join. -/
theorem executeTree_request :
    executeTree ctx (.projection (request.joinTree.paged request.input) (List.range (combinedLen request.tableMap))
      request.tableMap) =
      .ok ((request.input.page request.pairs).map fun pair =>
        (request.joinedRow pair).take (2 * request.parent.columns.length)) := by
  have hsorted : sortRows ctx.choices request.joinTree.slots (request.input.orderBy.map OrderByInput.expr)
      (request.pairs.map request.joinedRow) = request.pairs.map request.joinedRow := by
    rw [slots_joinTree, slots]
    apply sortRows_of_eq
    intro left right
    apply compareRows_twice
    rfl
  have hpaged := executeTree_paged request.executeTree_joinTree request.input
  rw [hsorted, ← FindManyInput.map_page] at hpaged
  rw [executeTree, hpaged]
  show Except.ok (projectRows _ _ _) = _
  have hnone : (List.range (combinedLen request.tableMap)).any (combinedLen request.tableMap ≤ ·) = false := by
    rw [List.any_eq_false]
    intro idx hidx hwide
    exact Nat.not_le.mpr (List.mem_range.mp hidx) (of_decide_eq_true hwide)
  rw [projectRows, hnone, if_neg Bool.false_ne_true, List.map_map]
  congr 2
  funext pair
  rw [Function.comp_apply, keyAt, take_eq_filterMap_range, combinedLen_tableMap]

end Pairs

end IncludeRequest

/-- A query that the user may run gives the rows of its tree. -/
theorem queryResult_of_rows [CaseMapping] [Rendering] {db : Database} {choices : QueryChoices} {tree : QueryPlan}
    {currentUser : Option String} {rows : DataRows}
    (hpermitted : ∀ user, currentUser = some user → db.checkPlanPermissions choices tree user = .ok ())
    (hrows : executeTree (db.execContext choices) tree = .ok rows) :
    db.queryResult choices tree currentUser =
      .ok { columns := tree.colNames, columnTypes := tree.colTypes, rows := rows.map fun row => row.map Datum.display
            rowsAffected := rows.length } := by
  unfold Database.queryResult
  cases currentUser with
  | none =>
      rw [hrows]
      rfl
  | some user =>
      dsimp only
      rw [hpermitted user rfl, hrows]
      rfl

/-- What a request with one include returns, if the user may run it. -/
theorem executeFindMany_eq [CaseMapping] [Rendering] [NumberText] {db : Database} {choices : QueryChoices}
    (request : IncludeRequest (db.execContext choices).tables) {currentUser : Option String}
    (hpermitted : ∀ user, currentUser = some user → ∀ tree,
      buildFindManyPlan request.input db.engine.tables = .ok tree → db.checkPlanPermissions choices tree user = .ok ()) :
    db.executeFindMany choices request.input currentUser =
      .ok (.object [("data", .array (buildNestedJson
        (namesUnder request.input.fromTable request.parent.columns ++
          namesUnder request.inc.relation request.parent.columns)
        ((request.input.page request.pairs).map fun pair =>
          ((request.joinedRow pair).take (2 * request.parent.columns.length)).map Datum.display)
        [{ parentIdx := 0, childIdx := request.parent.columns.length, parentCol := request.fk.parentColumn
           childCol := request.fk.childColumn, parentTable := request.input.fromTable
           childTable := request.inc.relation }]))]) := by
  have hplan : buildFindManyPlan request.input db.engine.tables = .ok _ := request.buildFindManyPlan_eq
  have hfk : resolveFkForIncludes request.input db.engine.tables = _ := request.resolveFkForIncludes_eq
  have hresult := queryResult_of_rows (fun user huser => hpermitted user huser _ hplan) request.executeTree_request
  rw [request.colNames_projection] at hresult
  rw [Database.executeFindMany, hplan, hfk, request.includes]
  show (db.queryResult choices _ currentUser).bind _ = _
  rw [hresult, List.map_map]
  rfl

end HelionDb
