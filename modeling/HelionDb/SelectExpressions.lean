import HelionDb.IncludeJoin
import HelionDb.OutputCoverage
import HelionDb.RowWrites
import HelionDb.SelectLists
import HelionDb.SqlStatement

/-! SELECT lists with items that are computed. The projection takes columns only: an item that is an expression is left
out, all columns stand in where nothing else is selected, and an expression with an alias is looked up as a column that
has its text for a name. What an item is worth is said here in the terms of SQL, the aggregates over all filtered rows. -/

namespace HelionDb

/-! ### Aggregates -/

namespace Expression

section

variable [CaseMapping]

/-- The functions of the column list that are taken over all rows. -/
def isAggregateName (name : String) : Bool :=
  CaseMapping.toLowercase name ∈ ["count", "sum", "avg", "min", "max"]

mutual

/-- An aggregate stands in the expression. -/
def hasAggregate : Expression → Bool
  | .column _ | .qualifiedColumn _ _ | .literal _ => false
  | .binaryOp left _ right => hasAggregate left || hasAggregate right
  | .unaryOp _ inner | .isNull inner | .isNotNull inner | .inList inner _ | .like inner _ => hasAggregate inner
  | .between inner low high => hasAggregate inner || hasAggregate low || hasAggregate high
  | .function name args => isAggregateName name || haveAggregate args

def haveAggregate : List Expression → Bool
  | [] => false
  | arg :: rest => hasAggregate arg || haveAggregate rest

end

mutual

/-- A column stands in the expression that is not under an aggregate. -/
def readsRow : Expression → Bool
  | .column _ | .qualifiedColumn _ _ => true
  | .literal _ => false
  | .binaryOp left _ right => readsRow left || readsRow right
  | .unaryOp _ inner | .isNull inner | .isNotNull inner | .inList inner _ | .like inner _ => readsRow inner
  | .between inner low high => readsRow inner || readsRow low || readsRow high
  | .function name args => !isAggregateName name && readRow args

def readRow : List Expression → Bool
  | [] => false
  | arg :: rest => readsRow arg || readRow rest

end

variable [Rendering] (uuidv7 : BitVec 128)

/-- The aggregate of the values of its arguments in each row. COUNT without an argument counts the rows; the others leave
NULLs out, and over nothing they are NULL, or 0 for COUNT. -/
def aggregate (name : String) (args : List (List Datum)) : Except HelionError Datum :=
  let values := args.flatten.filter fun value => !value.isNull
  if CaseMapping.toLowercase name = "count" then
    if args.all List.isEmpty then .ok (.bigInt (.ofNat args.length)) else .ok (.bigInt (.ofNat values.length))
  else if values.isEmpty then .ok .null
  else evaluateFunction uuidv7 name values

mutual

/-- The expression with the aggregates over rows in their places; an aggregate has one argument, or none for COUNT, in
which there is no other. -/
def overRows (rows : List (Option String → String → Except HelionError Datum)) : Expression → Except HelionError Expression
  | .column name => .ok (.column name)
  | .qualifiedColumn table name => .ok (.qualifiedColumn table name)
  | .literal value => .ok (.literal value)
  | .binaryOp left op right => do
      let left ← overRows rows left
      let right ← overRows rows right
      return .binaryOp left op right
  | .unaryOp op inner => (overRows rows inner).map (.unaryOp op)
  | .isNull inner => (overRows rows inner).map .isNull
  | .isNotNull inner => (overRows rows inner).map .isNotNull
  | .inList inner list => (overRows rows inner).map (.inList · list)
  | .between inner low high => do
      let inner ← overRows rows inner
      let low ← overRows rows low
      let high ← overRows rows high
      return .between inner low high
  | .like inner pattern => (overRows rows inner).map (.like · pattern)
  | .function name args =>
      if isAggregateName name then
        if haveAggregate args || 1 < args.length || (args.isEmpty && CaseMapping.toLowercase name ≠ "count") then
          .error (.internal ("Unknown function: " ++ name))
        else do
          let values ← rows.mapM fun lookup => evaluateAll uuidv7 lookup args
          let value ← aggregate uuidv7 name values
          return .literal value
      else (overRowsAll rows args).map (.function name)

def overRowsAll (rows : List (Option String → String → Except HelionError Datum)) :
    List Expression → Except HelionError (List Expression)
  | [] => .ok []
  | arg :: rest => do
      let arg ← overRows rows arg
      let rest ← overRowsAll rows rest
      return arg :: rest

end

end

end Expression

namespace SqlSelectItem

section

variable [SqlExprText]

/-- The item as a column or a wildcard, or else the expression that is to be computed. -/
def denoted : SqlSelectItem → SelectItem ⊕ Expression
  | .wildcard => .inl .all
  | .qualifiedWildcard table => .inl (.allOf table)
  | .unnamedExpr expr | .exprWithAlias expr _ =>
      match sqlExprToExpression expr with
      | .column name => .inl (.column name)
      | .qualifiedColumn table name => .inl (.columnOf table name)
      | computed => .inr computed

/-- An item that is computed. -/
def isComputed (item : SqlSelectItem) : Bool := item.denoted.isRight

/-- A wildcard of one table. -/
def isQualified : SqlSelectItem → Bool
  | .qualifiedWildcard _ => true
  | _ => false

/-- A computed item without an alias. -/
def isNameless : SqlSelectItem → Bool
  | .exprWithAlias _ _ => false
  | item => item.isComputed

/-- An item that an aggregate gives one value for all rows. -/
def isAggregated [CaseMapping] (item : SqlSelectItem) : Bool :=
  match item.denoted with
  | .inl _ => false
  | .inr expr => expr.hasAggregate && !expr.readsRow

/-- The column or the wildcard that the planner takes the item for: its own, or for an alias the one that its text names. -/
def taken (item : SqlSelectItem) : Option SelectItem := (convertSelectItem item).item?

variable (tableMap : List (String × List ColumnMeta))

/-- The number of columns that an item gives, if it names a table or a column that there is. -/
def width (item : SqlSelectItem) : Option Nat :=
  match item.denoted with
  | .inl column => (column.positions tableMap).map List.length
  | .inr _ => some 1

/-- The values of an item in a row, among all filtered rows. -/
def values [CaseMapping] [Rendering] (uuidv7 : BitVec 128) (slots : List Expression.TableSlot)
    (filtered : DataRows) (row : List Datum) (item : SqlSelectItem) : Except HelionError (List Datum) :=
  match item.denoted with
  | .inl column =>
      match column.positions tableMap with
      | some positions => .ok (keyAt positions row)
      | none => .error (.columnNotFound "")
  | .inr expr => do
      let settled ← expr.overRows uuidv7 (filtered.map fun row => Expression.lookupJoin row slots)
      let value ← settled.evaluateJoin uuidv7 row slots
      return [value]

end

end SqlSelectItem

namespace SelectStatement

/-- The plan of the joins and the filter. -/
def source (tables : List Table) (statement : SelectStatement) : Except HelionError QueryPlan := do
  let primaryTable ← requireTable tables statement.tableName
  let joined ← statement.joins.foldlM (planJoin tables) (scanOf statement.tableName primaryTable)
  return match statement.whereClause with
    | some predicate => QueryPlan.filter joined predicate
    | none => joined

/-- The plan with the order and the page of a statement on top. -/
def ordered (statement : SelectStatement) (tree : QueryPlan) : QueryPlan :=
  let sorted := if statement.orderBy.isEmpty then tree else .sort tree statement.orderBy
  if statement.limit.isSome || 0 < statement.offset.getD 0 then
    .limit sorted (statement.limit.getD u64Max) (statement.offset.getD 0)
  else sorted

/-- The rows that LIMIT and OFFSET leave. -/
def page {α : Type} (statement : SelectStatement) (rows : List α) : List α :=
  if statement.limit.isSome || 0 < statement.offset.getD 0 then
    (rows.drop (statement.offset.getD 0)).take (statement.limit.getD u64Max)
  else rows

/-- The statement with another SELECT list. -/
def selecting [SqlExprText] (statement : SelectStatement) (items : List SqlSelectItem) : SelectStatement :=
  { statement with columns := items.map convertSelectItem }

end SelectStatement

section

variable [CaseMapping] [Rendering] [SqlExprText] (ctx : ExecContext) (statement : SelectStatement)
  (items : List SqlSelectItem)

/-- The filtered rows of a statement, and what is known of their columns. -/
structure FilteredRows where
  tree : QueryPlan
  tableMap : List (String × List ColumnMeta)
  rows : DataRows

/-- The rows that the joins and the filter of a statement give. -/
def FilteredRows.Of (filtered : FilteredRows) : Prop :=
  ∃ source, statement.source ctx.tables = .ok source ∧ filtered.tree = source.optimize ctx.tables ∧
    resolveTableList ctx.tables statement = .ok filtered.tableMap ∧ executeTree ctx filtered.tree = .ok filtered.rows

/-- The filtered rows in the order of the statement, without the ones that are skipped. -/
def FilteredRows.page (filtered : FilteredRows) : DataRows :=
  statement.page (sortRows ctx.choices filtered.tree.slots statement.orderBy filtered.rows)

/-- The values of the items in a row. -/
def FilteredRows.itemRow (filtered : FilteredRows) (row : List Datum) : Except HelionError (List Datum) :=
  (items.mapM (SqlSelectItem.values filtered.tableMap ctx.choices.uuidv7 filtered.tree.slots filtered.rows row)).map
    List.flatten

/-- What a SELECT list is to give: a column for each item, wildcards expanded, and in each row the values of the items;
a list of aggregates is one row. -/
structure Answered (filtered : FilteredRows) (names : List String) (rows : DataRows) : Prop where
  width : (items.mapM (SqlSelectItem.width filtered.tableMap)).map List.sum = some names.length
  rows : if items.all SqlSelectItem.isAggregated then
      ∃ row, filtered.itemRow ctx items [] = .ok row ∧ rows = statement.page [row]
    else (filtered.page ctx statement).mapM (filtered.itemRow ctx items) = .ok rows

/-- A statement is rejected, or it gives what its SELECT list says. -/
def SelectsItems : Prop :=
  ∀ tree rows, planSelect ctx.tables (statement.selecting items) = .ok tree →
    executeTree ctx (tree.optimize ctx.tables) = .ok rows →
      ∃ filtered : FilteredRows, filtered.Of ctx statement ∧
        Answered ctx statement items filtered (tree.optimize ctx.tables).colNames rows

omit [CaseMapping] [Rendering] in
/-- The columns that stand in for the items. With computed items that have no alias these are all columns, if there are
as many such items and no other item gives a column; otherwise each item is looked up, by its text if it has an alias. -/
def standIns (tableMap : List (String × List ColumnMeta)) : Option (List Nat) :=
  if items.any SqlSelectItem.isNameless then
    if (∀ item ∈ items, item.isNameless = false →
          (item.taken.bind fun column => column.resolved tableMap) = some (some [])) ∧
        items.countP SqlSelectItem.isNameless = combinedLen tableMap
    then some (List.range (combinedLen tableMap)) else none
  else
    (items.mapM fun item : SqlSelectItem => (item.taken.bind fun column => column.resolved tableMap).join).map List.flatten

/-- The statements whose computed items come out right: some item is refused, or no item is the wildcard of one table,
which is kept under a name that no table has, and the columns that stand in for the items have their values in every
filtered row; a list of aggregates has the one row that they are. -/
def ItemsSafe : Prop :=
  ∀ filtered : FilteredRows, filtered.Of ctx statement →
    (∃ item ∈ items, ∃ column, item.taken = some column ∧ column.Refused filtered.tableMap) ∨
      (∀ item ∈ items, item.isQualified = false) ∧ (∀ item ∈ items, (item.width filtered.tableMap).isSome) ∧
        ∃ positions, standIns items filtered.tableMap = some positions ∧
          if items.all SqlSelectItem.isAggregated then
            ∃ row, filtered.itemRow ctx items [] = .ok row ∧ filtered.rows.map (keyAt positions) = [row]
          else ∀ row ∈ filtered.rows, filtered.itemRow ctx items row = .ok (keyAt positions row)

end

/-! ### Resolution -/

section

variable [SqlExprText] {tableMap : List (String × List ColumnMeta)}

namespace SqlSelectItem

theorem taken_eq_none_iff {item : SqlSelectItem} : item.taken = none ↔ item.isNameless = true := by
  cases item with
  | wildcard => exact iff_of_false (Option.some_ne_none _) Bool.false_ne_true
  | qualifiedWildcard table => exact iff_of_false (Option.some_ne_none _) Bool.false_ne_true
  | exprWithAlias expr aliasName =>
      refine iff_of_false (fun h => ?_) Bool.false_ne_true
      rw [taken, convertSelectItem, SelectColumn.item?] at h
      split at h <;> cases h
  | unnamedExpr expr =>
      rw [taken, convertSelectItem, isNameless, isComputed, denoted]
      · cases sqlExprToExpression expr <;> simp [SelectColumn.item?]
      · intro inner aliasName hsame
        cases hsame

/-- How the planner resolves an item: nothing yet for a `*` and for a computed item without an alias. -/
def resolution (tableMap : List (String × List ColumnMeta)) (item : SqlSelectItem) : Option (Option (List Nat)) :=
  match item.taken with
  | some column => column.resolved tableMap
  | none => some none

theorem toOption_resolveSelectColumn_convert (item : SqlSelectItem) :
    (resolveSelectColumn tableMap (convertSelectItem item)).toOption = item.resolution tableMap := by
  rw [resolution]
  cases htaken : item.taken with
  | some column => exact toOption_resolveSelectColumn htaken
  | none =>
      have hnameless := taken_eq_none_iff.mp htaken
      cases item with
      | unnamedExpr expr =>
          rw [taken, convertSelectItem] at htaken
          rw [convertSelectItem]
          cases hexpr : sqlExprToExpression expr <;> rw [hexpr] at htaken <;> first | rfl | cases htaken
      | wildcard => cases htaken
      | qualifiedWildcard table => cases hnameless
      | exprWithAlias expr aliasName => cases hnameless

end SqlSelectItem

/-- A column of its own or of a table. -/
def SelectItem.IsColumn : SelectItem → Prop
  | .column _ | .columnOf _ _ => True
  | .all | .allOf _ => False

omit [SqlExprText] in
theorem SelectItem.resolved_column {column : SelectItem} {mark : Option (List Nat)} (hcolumn : column.IsColumn)
    (h : column.resolved tableMap = some mark) : ∃ position, mark = some [position] := by
  cases column with
  | all => exact hcolumn.elim
  | allOf table => exact hcolumn.elim
  | column name =>
      obtain ⟨positions, hpositions, rfl⟩ := Option.map_eq_some_iff.mp h
      rw [SelectItem.positions] at hpositions
      split at hpositions
      · cases hpositions
        exact ⟨_, rfl⟩
      · cases hpositions
  | columnOf table name =>
      rw [resolved] at h
      split at h
      · obtain ⟨position, -, rfl⟩ := Option.map_eq_some_iff.mp h
        exact ⟨position, rfl⟩
      · split at h
        · obtain ⟨position, -, rfl⟩ := Option.map_eq_some_iff.mp h
          exact ⟨position, rfl⟩
        · cases h

omit [SqlExprText] in
theorem SelectItem.width_column {column : SelectItem} {count : Nat} (hcolumn : column.IsColumn)
    (h : (column.positions tableMap).map List.length = some count) : count = 1 := by
  obtain ⟨positions, hpositions, rfl⟩ := Option.map_eq_some_iff.mp h
  cases column with
  | all => exact hcolumn.elim
  | allOf table => exact hcolumn.elim
  | column name =>
      rw [SelectItem.positions] at hpositions
      split at hpositions <;> cases hpositions
      rfl
  | columnOf table name =>
      obtain ⟨i, -, hpositions⟩ := Option.bind_eq_some_iff.mp hpositions
      obtain ⟨position, -, hpositions⟩ := Option.bind_eq_some_iff.mp hpositions
      cases hpositions
      rfl

namespace SqlSelectItem

/-- An expression is one column, whether it is computed or not. -/
theorem width_expr {item : SqlSelectItem} {expr : SqlExpr} {count : Nat}
    (hitem : item = .unnamedExpr expr ∨ ∃ aliasName, item = .exprWithAlias expr aliasName)
    (h : item.width tableMap = some count) : count = 1 := by
  have hdenoted : item.denoted =
      match sqlExprToExpression expr with
      | .column name => .inl (.column name)
      | .qualifiedColumn table name => .inl (.columnOf table name)
      | computed => .inr computed := by
    rcases hitem with rfl | ⟨aliasName, rfl⟩ <;> rfl
  rw [width, hdenoted] at h
  split at h
  · rename_i column hcolumn
    refine SelectItem.width_column ?_ h
    split at hcolumn <;> cases hcolumn <;> trivial
  · cases h
    rfl

/-- Apart from wildcards and the computed items without an alias, an item that is resolved and known has as many positions
as columns. -/
theorem exists_positions {item : SqlSelectItem} {mark : Option (List Nat)} {count : Nat}
    (hresolution : item.resolution tableMap = some mark) (hwidth : item.width tableMap = some count)
    (hnameless : item.isNameless = false) (hstar : item ≠ .wildcard) (hqualified : item.isQualified = false) :
    ∃ positions, mark = some positions ∧ positions.length = count := by
  obtain ⟨column, htaken⟩ : ∃ column, item.taken = some column := by
    apply Option.ne_none_iff_exists'.mp
    intro hnone
    rw [taken_eq_none_iff.mp hnone] at hnameless
    cases hnameless
  rw [resolution, htaken] at hresolution
  have hone (hcolumn : column.IsColumn) (hcount : count = 1) :
      ∃ positions, mark = some positions ∧ positions.length = count := by
    obtain ⟨position, rfl⟩ := SelectItem.resolved_column hcolumn hresolution
    exact ⟨[position], rfl, hcount.symm⟩
  cases item with
  | wildcard => exact absurd rfl hstar
  | qualifiedWildcard table => cases hqualified
  | unnamedExpr expr =>
      refine hone ?_ (width_expr (.inl rfl) hwidth)
      rw [taken, convertSelectItem] at htaken
      cases hexpr : sqlExprToExpression expr <;> rw [hexpr] at htaken <;> cases htaken <;> trivial
  | exprWithAlias expr aliasName =>
      refine hone ?_ (width_expr (.inr ⟨aliasName, rfl⟩) hwidth)
      rw [taken, convertSelectItem, SelectColumn.item?] at htaken
      split at htaken <;> cases htaken <;> trivial

end SqlSelectItem

/-- The items of a list are resolved one by one. -/
theorem toOption_resolve_items {items : List SqlSelectItem} (hne : items ≠ []) :
    (resolveSelectColumns tableMap (items.map convertSelectItem)).toOption =
      (items.mapM (SqlSelectItem.resolution tableMap)).map (combined tableMap) := by
  have hmapM : ((items.map convertSelectItem).mapM (resolveSelectColumn tableMap)).toOption =
      items.mapM (SqlSelectItem.resolution tableMap) := by
    clear hne
    induction items with
    | nil => rfl
    | cons item rest ih =>
        rw [List.map_cons, List.mapM_cons, List.mapM_cons, ← SqlSelectItem.toOption_resolveSelectColumn_convert, ← ih]
        cases resolveSelectColumn tableMap (convertSelectItem item) with
        | error err => rfl
        | ok first => cases (rest.map convertSelectItem).mapM (resolveSelectColumn tableMap) <;> rfl
  rw [← hmapM, resolveSelectColumns, List.isEmpty_map, if_neg (by simpa using hne)]
  cases (items.map convertSelectItem).mapM (resolveSelectColumn tableMap) with
  | error err => rfl
  | ok resolved =>
      show Except.toOption (if _ then _ else _) = some (combined tableMap resolved)
      rw [combined]
      split <;> rfl

/-! ### Counting columns -/

omit [SqlExprText] in
/-- A resolved position is one of the combined row. -/
theorem SelectItem.resolved_lt {column : SelectItem} {positions : List Nat}
    (h : column.resolved tableMap = some (some positions)) : ∀ position ∈ positions, position < combinedLen tableMap := by
  intro position hposition
  cases column with
  | all => cases h
  | allOf table =>
      have hpositions : ((SelectItem.allOf table).positions tableMap).getD [] = positions :=
        Option.some.inj (Option.some.inj h)
      cases hknown : (SelectItem.allOf table).positions tableMap with
      | none =>
          rw [hknown] at hpositions
          rw [← hpositions] at hposition
          cases hposition
      | some found =>
          rw [hknown] at hpositions
          rw [Option.getD_some] at hpositions
          exact positions_lt hknown position (hpositions ▸ hposition)
  | column name =>
      obtain ⟨found, hfound, heq⟩ := Option.map_eq_some_iff.mp h
      exact positions_lt hfound position (Option.some.inj heq ▸ hposition)
  | columnOf table name =>
      rw [resolved] at h
      split at h
      · obtain ⟨found, hfound, heq⟩ := Option.map_eq_some_iff.mp h
        obtain rfl := Option.some.inj heq
        obtain rfl := List.mem_singleton.mp hposition
        exact columnAt_lt hfound
      · split at h
        · obtain ⟨found, hfound, heq⟩ := Option.map_eq_some_iff.mp h
          obtain rfl := Option.some.inj heq
          obtain rfl := List.mem_singleton.mp hposition
          exact columnAt_lt hfound
        · cases h

namespace SqlSelectItem

def isStar : SqlSelectItem → Bool
  | .wildcard => true
  | _ => false

omit [SqlExprText] in
theorem isStar_iff {item : SqlSelectItem} : item.isStar = true ↔ item = .wildcard := by
  cases item <;> simp [isStar]

theorem resolution_of_nameless {item : SqlSelectItem} (h : item.isNameless = true) :
    item.resolution tableMap = some none := by
  rw [resolution, taken_eq_none_iff.mpr h]

theorem width_of_nameless {item : SqlSelectItem} {count : Nat} (h : item.isNameless = true)
    (hwidth : item.width tableMap = some count) : count = 1 := by
  cases item with
  | wildcard => cases h
  | qualifiedWildcard table => cases h
  | unnamedExpr expr => exact width_expr (.inl rfl) hwidth
  | exprWithAlias expr aliasName => exact width_expr (.inr ⟨aliasName, rfl⟩) hwidth

theorem resolution_of_taken {item : SqlSelectItem} (h : item.isNameless = false) :
    (item.taken.bind fun column => column.resolved tableMap) = item.resolution tableMap := by
  cases htaken : item.taken with
  | none =>
      rw [taken_eq_none_iff.mp htaken] at h
      cases h
  | some column => rw [resolution, htaken, Option.bind_some]

/-- A computed item asks for one column. -/
theorem width_of_computed {item : SqlSelectItem} {count : Nat} (hcomputed : item.isComputed = true)
    (hwidth : item.width tableMap = some count) : count = 1 := by
  rw [width] at hwidth
  unfold isComputed at hcomputed
  split at hwidth
  · rename_i hdenoted
    rw [hdenoted] at hcomputed
    cases hcomputed
  · exact (Option.some.inj hwidth).symm

end SqlSelectItem

section Counts

variable {items : List SqlSelectItem} (mark : SqlSelectItem → Option (List Nat)) (count : SqlSelectItem → Nat)

/-- The columns of a list: one for each computed item without an alias, all for each `*`, and the resolved ones. -/
theorem sum_width (hqualified : ∀ item ∈ items, item.isQualified = false)
    (hmark : ∀ item ∈ items, item.resolution tableMap = some (mark item))
    (hcount : ∀ item ∈ items, item.width tableMap = some (count item)) :
    (items.map count).sum =
      items.countP SqlSelectItem.isNameless + combinedLen tableMap * items.countP SqlSelectItem.isStar +
        (items.flatMap fun item => (mark item).getD []).length := by
  induction items with
  | nil => simp
  | cons item rest ih =>
      obtain ⟨hitem, hitems⟩ := List.forall_mem_cons.mp hqualified
      obtain ⟨hmark, hmarks⟩ := List.forall_mem_cons.mp hmark
      obtain ⟨hcount, hcounts⟩ := List.forall_mem_cons.mp hcount
      have hrest := ih hitems hmarks hcounts
      rw [List.map_cons, List.sum_cons, hrest, List.countP_cons, List.countP_cons, List.flatMap_cons, List.length_append]
      by_cases hnameless : item.isNameless = true
      · have hnone : mark item = none := Option.some.inj (hmark.symm.trans (SqlSelectItem.resolution_of_nameless hnameless))
        have hstar : ¬ item.isStar = true := by
          intro hstar
          rw [SqlSelectItem.isStar_iff.mp hstar] at hnameless
          cases hnameless
        rw [SqlSelectItem.width_of_nameless hnameless hcount, hnone, if_pos hnameless, if_neg hstar]
        simp only [Option.getD_none, List.length_nil, Nat.add_zero]
        omega
      · rw [if_neg hnameless]
        by_cases hstar : item.isStar = true
        · obtain rfl := SqlSelectItem.isStar_iff.mp hstar
          have hnone : mark .wildcard = none := (Option.some.inj hmark).symm
          have hall : count .wildcard = combinedLen tableMap := by
            have hlength : (List.range (combinedLen tableMap)).length = count .wildcard := Option.some.inj hcount
            rw [← hlength, List.length_range]
          rw [hnone, hall, if_pos hstar, Nat.mul_add]
          simp only [Option.getD_none, List.length_nil]
          omega
        · obtain ⟨positions, hpositions, hlength⟩ := SqlSelectItem.exists_positions hmark hcount
            (Bool.eq_false_iff.mpr hnameless) (fun heq => hstar (SqlSelectItem.isStar_iff.mpr heq)) hitem
          rw [if_neg hstar, hpositions, Option.getD_some, hlength]
          simp only [Nat.add_zero]
          omega

omit [SqlExprText] in
theorem flatten_marks (items : List SqlSelectItem) :
    ((items.map mark).filterMap id).flatten = items.flatMap fun item => (mark item).getD [] := by
  induction items with
  | nil => rfl
  | cons item rest ih =>
      rw [List.map_cons, List.flatMap_cons, ← ih]
      cases hmark : mark item with
      | none => rfl
      | some positions => rfl

/-- With computed items that have no alias, all columns are in the projection exactly if no other item gives one; they
are as many as the items ask for exactly if they are as many as these. -/
theorem standIns_nameless_iff {nameless : SqlSelectItem} (hqualified : ∀ item ∈ items, item.isQualified = false)
    (hmem : nameless ∈ items) (hname : nameless.isNameless = true)
    (hmark : ∀ item ∈ items, item.resolution tableMap = some (mark item))
    (hcount : ∀ item ∈ items, item.width tableMap = some (count item)) {positions : List Nat} :
    standIns items tableMap = some positions ↔
      positions = combined tableMap (items.map mark) ∧
        (items.map count).sum = (combined tableMap (items.map mark)).length := by
  have hsum := sum_width mark count hqualified hmark hcount
  have hpositive : 0 < items.countP SqlSelectItem.isNameless := List.countP_pos_iff.mpr ⟨nameless, hmem, hname⟩
  have hany : (items.map mark).any Option.isNone = true := by
    refine List.any_eq_true.mpr ⟨mark nameless, List.mem_map_of_mem hmem, ?_⟩
    rw [Option.some.inj ((hmark nameless hmem).symm.trans (SqlSelectItem.resolution_of_nameless hname))]
    rfl
  rw [combined, flatten_marks]
  generalize hresolved : (items.flatMap fun item => (mark item).getD []) = resolved at hsum
  rw [standIns, if_pos (List.any_eq_true.mpr ⟨nameless, hmem, hname⟩), hany, Bool.true_and]
  constructor
  · intro h
    split at h
    · rename_i hothers
      obtain ⟨hempty, hwidth⟩ := hothers
      have hnone : resolved = [] := by
        rw [← hresolved, List.flatMap_eq_nil_iff]
        intro item hitem
        cases hother : item.isNameless with
        | true =>
            rw [Option.some.inj ((hmark item hitem).symm.trans (SqlSelectItem.resolution_of_nameless hother))]
            rfl
        | false =>
            have hresolution := (SqlSelectItem.resolution_of_taken hother).symm.trans (hempty item hitem hother)
            rw [Option.some.inj ((hmark item hitem).symm.trans hresolution)]
            rfl
      have hstars : items.countP SqlSelectItem.isStar = 0 := by
        refine List.countP_eq_zero.mpr fun item hitem hstar => ?_
        obtain rfl := SqlSelectItem.isStar_iff.mp hstar
        have hnot := hempty .wildcard hitem rfl
        cases hnot
      rw [hnone, List.isEmpty_nil, if_pos rfl]
      rw [hnone, hstars, hwidth, Nat.mul_zero, List.length_nil] at hsum
      exact ⟨(Option.some.inj h).symm, by rw [hsum, List.length_range]; omega⟩
    · cases h
  · rintro ⟨rfl, hlength⟩
    have hnone : resolved = [] := by
      by_contra hne
      rw [if_neg (by simpa using hne), hsum] at hlength
      omega
    rw [hnone, List.isEmpty_nil, if_pos rfl, List.length_range, hsum, hnone, List.length_nil, Nat.add_zero] at hlength
    have hstars : items.countP SqlSelectItem.isStar = 0 := by
      rcases Nat.eq_zero_or_pos (items.countP SqlSelectItem.isStar) with hzero | hpos
      · exact hzero
      · have hle := Nat.le_mul_of_pos_right (combinedLen tableMap) hpos
        omega
    rw [hstars, Nat.mul_zero, Nat.add_zero] at hlength
    rw [hnone, List.isEmpty_nil, if_pos rfl, if_pos]
    refine ⟨fun item hitem hother => ?_, hlength⟩
    have hstar : item ≠ .wildcard := by
      rintro rfl
      exact List.countP_eq_zero.mp hstars .wildcard hitem rfl
    obtain ⟨positions, hpositions, -⟩ :=
      SqlSelectItem.exists_positions (hmark item hitem) (hcount item hitem) hother hstar (hqualified item hitem)
    have hpositions' : (mark item).getD [] = [] := by
      rw [← hresolved, List.flatMap_eq_nil_iff] at hnone
      exact hnone item hitem
    rw [hpositions, Option.getD_some] at hpositions'
    rw [SqlSelectItem.resolution_of_taken hother, hmark item hitem, hpositions, hpositions']

/-- A computed item with an alias has a column that it is looked up as. -/
theorem exists_mem_mark {item : SqlSelectItem} (hmark : item.resolution tableMap = some (mark item))
    (hcount : item.width tableMap = some (count item)) (hnameless : item.isNameless = false)
    (hcomputed : item.isComputed = true) : ∃ position, position ∈ (mark item).getD [] := by
  have hstar : item ≠ .wildcard := by
    rintro rfl
    cases hcomputed
  have hqualified : item.isQualified = false := by
    cases item with
    | qualifiedWildcard table => cases hcomputed
    | _ => rfl
  obtain ⟨positions, hpositions, hlength⟩ := SqlSelectItem.exists_positions hmark hcount hnameless hstar hqualified
  have hone := SqlSelectItem.width_of_computed hcomputed hcount
  rw [hpositions, Option.getD_some]
  exact List.exists_mem_of_length_pos (by omega : 0 < positions.length)

/-- A column that is looked up is one of a table. -/
theorem lt_of_mem_mark {item : SqlSelectItem} (hmark : item.resolution tableMap = some (mark item))
    (hnameless : item.isNameless = false) {position : Nat} (hmem : position ∈ (mark item).getD []) :
    position < combinedLen tableMap := by
  cases hmarked : mark item with
  | none =>
      rw [hmarked] at hmem
      cases hmem
  | some positions =>
      rw [hmarked] at hmem
      have hresolution := (SqlSelectItem.resolution_of_taken hnameless).trans hmark
      obtain ⟨column, -, hcolumn⟩ := Option.bind_eq_some_iff.mp hresolution
      exact SelectItem.resolved_lt (hcolumn.trans (congrArg some hmarked)) position hmem

/-- Without a `*`, every item that has a name is looked up. -/
theorem mapM_taken_of_no_star (hqualified : ∀ item ∈ items, item.isQualified = false)
    (hnameless : ∀ item ∈ items, item.isNameless = false)
    (hstars : items.countP SqlSelectItem.isStar = 0)
    (hmark : ∀ item ∈ items, item.resolution tableMap = some (mark item))
    (hcount : ∀ item ∈ items, item.width tableMap = some (count item)) :
    (items.mapM fun item : SqlSelectItem => (item.taken.bind fun column => column.resolved tableMap).join) =
      some (items.map fun item => (mark item).getD []) := by
  apply mapM_eq_some_map
  intro item hitem
  have hstar : item ≠ .wildcard := by
    rintro rfl
    exact List.countP_eq_zero.mp hstars .wildcard hitem rfl
  obtain ⟨positions, hpositions, -⟩ :=
    SqlSelectItem.exists_positions (hmark item hitem) (hcount item hitem) (hnameless item hitem) hstar
      (hqualified item hitem)
  rw [SqlSelectItem.resolution_of_taken (hnameless item hitem), hmark item hitem, hpositions]
  rfl

/-- Where every computed item has an alias, the projection has the columns that the items are looked up as; they are as
many as the items ask for exactly if there is no `*`. -/
theorem standIns_aliased_iff (hqualified : ∀ item ∈ items, item.isQualified = false)
    (hnameless : ∀ item ∈ items, item.isNameless = false)
    (hcomputed : ∃ item ∈ items, item.isComputed = true)
    (hmark : ∀ item ∈ items, item.resolution tableMap = some (mark item))
    (hcount : ∀ item ∈ items, item.width tableMap = some (count item)) {positions : List Nat} :
    standIns items tableMap = some positions ↔
      positions = combined tableMap (items.map mark) ∧
        (items.map count).sum = (combined tableMap (items.map mark)).length := by
  have hsum := sum_width mark count hqualified hmark hcount
  rw [combined, flatten_marks]
  generalize hresolved : (items.flatMap fun item => (mark item).getD []) = resolved at hsum
  rw [standIns, if_neg]
  swap
  · intro hany
    obtain ⟨item, hitem, hname⟩ := List.any_eq_true.mp hany
    rw [hnameless item hitem] at hname
    cases hname
  have hnames : items.countP SqlSelectItem.isNameless = 0 :=
    List.countP_eq_zero.mpr fun item hitem hname => by
      rw [hnameless item hitem] at hname
      cases hname
  obtain ⟨item, hitem, hcomputed⟩ := hcomputed
  obtain ⟨position, hposition⟩ :=
    exists_mem_mark mark count (hmark item hitem) (hcount item hitem) (hnameless item hitem) hcomputed
  have hcolumns : 0 < combinedLen tableMap :=
    Nat.zero_lt_of_lt (lt_of_mem_mark mark (hmark item hitem) (hnameless item hitem) hposition)
  have hne : resolved ≠ [] := by
    rw [← hresolved]
    exact List.ne_nil_of_mem (List.mem_flatMap.mpr ⟨item, hitem, hposition⟩)
  have hempty : resolved.isEmpty = false := by simpa using hne
  rw [hempty, Bool.and_false, if_neg Bool.false_ne_true, hsum, hnames]
  by_cases hstars : items.countP SqlSelectItem.isStar = 0
  · rw [mapM_taken_of_no_star mark count hqualified hnameless hstars hmark hcount, hstars, Option.map_some, ← List.flatMap_def,
      hresolved, Option.some_inj]
    constructor
    · rintro rfl
      exact ⟨rfl, by omega⟩
    · exact fun h => h.1.symm
  · have hmapM : (items.mapM fun item : SqlSelectItem => (item.taken.bind fun column => column.resolved tableMap).join) =
        none := by
      obtain ⟨item, hitem, hstar⟩ := List.countP_pos_iff.mp (Nat.pos_of_ne_zero hstars)
      obtain rfl := SqlSelectItem.isStar_iff.mp hstar
      exact mapM_eq_none_iff.mpr ⟨.wildcard, hitem, rfl⟩
    rw [hmapM]
    apply iff_of_false (Option.some_ne_none _).symm
    rintro ⟨-, hlength⟩
    have hpos := Nat.mul_pos hcolumns (Nat.pos_of_ne_zero hstars)
    omega

/-- The columns that stand in for the items are the ones of the projection exactly if there are as many as the items
ask for. -/
theorem standIns_eq_some_iff (hqualified : ∀ item ∈ items, item.isQualified = false)
    (hcomputed : ∃ item ∈ items, item.isComputed = true)
    (hmark : ∀ item ∈ items, item.resolution tableMap = some (mark item))
    (hcount : ∀ item ∈ items, item.width tableMap = some (count item)) {positions : List Nat} :
    standIns items tableMap = some positions ↔
      positions = combined tableMap (items.map mark) ∧
        (items.map count).sum = (combined tableMap (items.map mark)).length := by
  by_cases hnameless : items.any SqlSelectItem.isNameless = true
  · obtain ⟨nameless, hmem, hname⟩ := List.any_eq_true.mp hnameless
    exact standIns_nameless_iff mark count hqualified hmem hname hmark hcount
  · refine standIns_aliased_iff mark count hqualified (fun item hitem => ?_) hcomputed hmark hcount
    exact Bool.eq_false_iff.mpr fun hname => hnameless (List.any_eq_true.mpr ⟨item, hitem, hname⟩)

end Counts

end

/-! ### Runs -/

section

variable [CaseMapping] [Rendering] [SqlExprText] {ctx : ExecContext} {statement : SelectStatement}
  {items : List SqlSelectItem}

omit [CaseMapping] [Rendering] in
theorem planSelect_selecting :
    planSelect ctx.tables (statement.selecting items) = (do
      let source ← statement.source ctx.tables
      let tableMap ← resolveTableList ctx.tables statement
      let columns ← resolveSelectColumns tableMap (items.map convertSelectItem)
      return .projection (statement.ordered source) columns tableMap) := by
  rw [planSelect, SelectStatement.source]
  simp only [bind_assoc, pure_bind]
  rfl

omit [CaseMapping] [Rendering] [SqlExprText] in
/-- The optimizer works below the order and the page of a statement. -/
theorem optimize_projection (source : QueryPlan) (columns : List Nat) (tableMap : List (String × List ColumnMeta)) :
    (QueryPlan.projection (statement.ordered source) columns tableMap).optimize ctx.tables =
      .projection (statement.ordered (source.optimize ctx.tables)) columns tableMap := by
  unfold SelectStatement.ordered
  dsimp only
  split <;> split <;> rfl

omit [SqlExprText] in
theorem executeTree_ordered {tree : QueryPlan} {rows : DataRows} (hrows : executeTree ctx tree = .ok rows) :
    executeTree ctx (statement.ordered tree) =
      .ok (statement.page (sortRows ctx.choices tree.slots statement.orderBy rows)) := by
  have hsorted : executeTree ctx (if statement.orderBy.isEmpty then tree else .sort tree statement.orderBy) =
      .ok (sortRows ctx.choices tree.slots statement.orderBy rows) := by
    by_cases hempty : statement.orderBy.isEmpty = true
    · rw [if_pos hempty, hrows, List.isEmpty_iff.mp hempty]
      exact congrArg Except.ok (sortRows_of_eq (fun _ _ => rfl) rows).symm
    · rw [if_neg hempty, executeTree, hrows]
      rfl
  rw [SelectStatement.ordered, SelectStatement.page]
  split
  · rw [executeTree, hsorted]
    rfl
  · exact hsorted

omit [SqlExprText] in
theorem ok_of_executeTree_ordered {tree : QueryPlan} {rows : DataRows}
    (hrows : executeTree ctx (statement.ordered tree) = .ok rows) : ∃ filtered, executeTree ctx tree = .ok filtered := by
  cases hfiltered : executeTree ctx tree with
  | ok filtered => exact ⟨filtered, rfl⟩
  | error err =>
      have hsorted : executeTree ctx (if statement.orderBy.isEmpty then tree else .sort tree statement.orderBy) =
          .error err := by
        split
        · exact hfiltered
        · rw [executeTree, hfiltered]
          rfl
      rw [SelectStatement.ordered] at hrows
      split at hrows
      · rw [executeTree, hsorted] at hrows
        cases hrows
      · rw [hsorted] at hrows
        cases hrows

/-- A statement gives the columns that its list is resolved to, in the filtered rows that it orders. -/
theorem selects_iff {tree : QueryPlan} {rows : DataRows} :
    (planSelect ctx.tables (statement.selecting items) = .ok tree ∧
        executeTree ctx (tree.optimize ctx.tables) = .ok rows) ↔
      ∃ (filtered : FilteredRows) (source : QueryPlan) (columns : List Nat), filtered.Of ctx statement ∧
        statement.source ctx.tables = .ok source ∧
        resolveSelectColumns filtered.tableMap (items.map convertSelectItem) = .ok columns ∧
        tree = .projection (statement.ordered source) columns filtered.tableMap ∧
        rows = projectRows columns (combinedLen filtered.tableMap) (filtered.page ctx statement) := by
  rw [planSelect_selecting]
  constructor
  · rintro ⟨hplan, hrun⟩
    obtain ⟨source, hsource, hplan⟩ := Loop.bind_ok_iff.mp hplan
    obtain ⟨tableMap, hmap, hplan⟩ := Loop.bind_ok_iff.mp hplan
    obtain ⟨columns, hcolumns, hplan⟩ := Loop.bind_ok_iff.mp hplan
    obtain rfl := Except.ok.inj hplan
    rw [optimize_projection, executeTree] at hrun
    obtain ⟨ordered, hordered, hrun⟩ := Loop.bind_ok_iff.mp hrun
    obtain ⟨filtered, hfiltered⟩ := ok_of_executeTree_ordered hordered
    obtain rfl := Except.ok.inj ((executeTree_ordered hfiltered).symm.trans hordered)
    exact ⟨⟨source.optimize ctx.tables, tableMap, filtered⟩, source, columns, ⟨source, hsource, rfl, hmap, hfiltered⟩,
      hsource, hcolumns, rfl, (Except.ok.inj hrun).symm⟩
  · rintro ⟨filtered, source, columns, ⟨other, hother, htree, hmap, hfiltered⟩, hsource, hcolumns, rfl, rfl⟩
    obtain rfl := Except.ok.inj (hsource.symm.trans hother)
    refine ⟨?_, ?_⟩
    · rw [hsource, hmap]
      show (resolveSelectColumns _ _ >>= _) = _
      rw [hcolumns]
      rfl
    · rw [optimize_projection, executeTree, ← htree, executeTree_ordered hfiltered]
      rfl

omit [SqlExprText] in
theorem FilteredRows.Of.unique {filtered other : FilteredRows} (h : filtered.Of ctx statement)
    (hother : other.Of ctx statement) : filtered = other := by
  obtain ⟨source, hsource, htree, hmap, hrows⟩ := h
  obtain ⟨source', hsource', htree', hmap', hrows'⟩ := hother
  obtain rfl := Except.ok.inj (hsource.symm.trans hsource')
  obtain ⟨tree, tableMap, rows⟩ := filtered
  obtain ⟨tree', tableMap', rows'⟩ := other
  dsimp only at *
  obtain rfl : tree = tree' := htree.trans htree'.symm
  rw [Except.ok.inj (hmap.symm.trans hmap'), Except.ok.inj (hrows.symm.trans hrows')]

omit [CaseMapping] [Rendering] in
theorem refused_iff_resolution {tableMap : List (String × List ColumnMeta)} :
    (∃ item ∈ items, ∃ column, item.taken = some column ∧ column.Refused tableMap) ↔
      items.mapM (SqlSelectItem.resolution tableMap) = none := by
  rw [mapM_eq_none_iff]
  refine exists_congr fun item => and_congr_right fun _ => ?_
  rw [SqlSelectItem.resolution]
  cases item.taken with
  | none => simp
  | some column => simp [refused_iff]

omit [CaseMapping] [Rendering] [SqlExprText] in
theorem mapM_eq_ok_map_iff {ε α β : Type} {f : α → Except ε β} {g : α → β} {items : List α} :
    items.mapM f = .ok (items.map g) ↔ ∀ item ∈ items, f item = .ok (g item) := by
  rw [mapM_ok_iff_forall₂, List.forall₂_map_right_iff, List.forall₂_same]

omit [CaseMapping] [Rendering] in
/-- A list that is resolved, item by item. -/
theorem exists_marks {tableMap : List (String × List ColumnMeta)} {columns : List Nat} (hne : items ≠ [])
    (hcolumns : resolveSelectColumns tableMap (items.map convertSelectItem) = .ok columns) :
    ∃ mark : SqlSelectItem → Option (List Nat), (∀ item ∈ items, item.resolution tableMap = some (mark item)) ∧
      combined tableMap (items.map mark) = columns := by
  have hresolved := @toOption_resolve_items _ tableMap _ hne
  rw [hcolumns] at hresolved
  obtain ⟨marks, hmarks, hcombined⟩ := Option.map_eq_some_iff.mp hresolved.symm
  have hmark : ∀ item ∈ items, item.resolution tableMap = some ((item.resolution tableMap).getD none) := by
    intro item hitem
    cases hresolution : item.resolution tableMap with
    | some mark => rfl
    | none =>
        rw [mapM_eq_none_iff.mpr ⟨item, hitem, hresolution⟩] at hmarks
        cases hmarks
  refine ⟨fun item => (item.resolution tableMap).getD none, hmark, ?_⟩
  rw [← hcombined, ← Option.some.inj ((mapM_eq_some_map hmark).symm.trans hmarks)]

omit [CaseMapping] [Rendering] in
theorem combined_lt {tableMap : List (String × List ColumnMeta)} (mark : SqlSelectItem → Option (List Nat))
    (hmark : ∀ item ∈ items, item.resolution tableMap = some (mark item)) :
    ∀ idx ∈ combined tableMap (items.map mark), idx < combinedLen tableMap := by
  intro idx hidx
  rw [combined, flatten_marks] at hidx
  split at hidx
  · exact List.mem_range.mp hidx
  · obtain ⟨item, hitem, hmem⟩ := List.mem_flatMap.mp hidx
    cases hmarked : mark item with
    | none =>
        rw [hmarked] at hmem
        cases hmem
    | some positions =>
        rw [hmarked] at hmem
        have hresolution := hmark item hitem
        rw [SqlSelectItem.resolution, hmarked] at hresolution
        split at hresolution
        · exact SelectItem.resolved_lt hresolution idx hmem
        · cases hresolution

/-- What a statement answers whose list is resolved. -/
theorem answered_iff {filtered : FilteredRows} {columns : List Nat} (hcomputed : ∃ item ∈ items, item.isComputed = true)
    (hqualified : ∀ item ∈ items, item.isQualified = false)
    (hcolumns : resolveSelectColumns filtered.tableMap (items.map convertSelectItem) = .ok columns) (input : QueryPlan) :
    Answered ctx statement items filtered (QueryPlan.projection input columns filtered.tableMap).colNames
        (projectRows columns (combinedLen filtered.tableMap) (filtered.page ctx statement)) ↔
      (∀ item ∈ items, (item.width filtered.tableMap).isSome) ∧
        ∃ positions, standIns items filtered.tableMap = some positions ∧
          if items.all SqlSelectItem.isAggregated then
            ∃ row, filtered.itemRow ctx items [] = .ok row ∧
              (filtered.page ctx statement).map (keyAt positions) = statement.page [row]
          else ∀ row ∈ filtered.page ctx statement, filtered.itemRow ctx items row = .ok (keyAt positions row) := by
  obtain ⟨item, hitem, -⟩ := id hcomputed
  obtain ⟨mark, hmark, hcombined⟩ := exists_marks (List.ne_nil_of_mem hitem) hcolumns
  have hlt : ∀ idx ∈ columns, idx < combinedLen filtered.tableMap := by
    rw [← hcombined]
    exact combined_lt mark hmark
  have hproject : projectRows columns (combinedLen filtered.tableMap) (filtered.page ctx statement) =
      (filtered.page ctx statement).map (keyAt columns) := by
    rw [projectRows, if_neg]
    simpa using hlt
  have hnames : (QueryPlan.projection input columns filtered.tableMap).colNames.length = columns.length :=
    length_colNames hlt
  rw [hproject]
  by_cases hknown : ∀ item ∈ items, (item.width filtered.tableMap).isSome
  · rw [and_iff_right hknown]
    let count (item : SqlSelectItem) : Nat := (item.width filtered.tableMap).getD 0
    have hcount : ∀ item ∈ items, item.width filtered.tableMap = some (count item) := by
      intro item hitem
      obtain ⟨found, hfound⟩ := Option.isSome_iff_exists.mp (hknown item hitem)
      show _ = some ((item.width filtered.tableMap).getD 0)
      rw [hfound, Option.getD_some]
    have hwidths : items.mapM (SqlSelectItem.width filtered.tableMap) = some (items.map count) :=
      mapM_eq_some_map hcount
    have hstand := @standIns_eq_some_iff _ _ _ mark count hqualified hcomputed hmark hcount
    rw [hcombined] at hstand
    constructor
    · rintro ⟨hwidth, hrows⟩
      rw [hwidths, hnames] at hwidth
      refine ⟨columns, hstand.mpr ⟨rfl, Option.some.inj hwidth⟩, ?_⟩
      by_cases haggregated : items.all SqlSelectItem.isAggregated = true
      · rw [if_pos haggregated] at hrows ⊢
        exact hrows
      · rw [if_neg haggregated] at hrows ⊢
        exact mapM_eq_ok_map_iff.mp hrows
    · rintro ⟨positions, hpositions, hrows⟩
      obtain ⟨rfl, hlength⟩ := hstand.mp hpositions
      refine ⟨by rw [hwidths, hnames, Option.map_some, hlength], ?_⟩
      by_cases haggregated : items.all SqlSelectItem.isAggregated = true
      · rw [if_pos haggregated] at hrows ⊢
        exact hrows
      · rw [if_neg haggregated] at hrows ⊢
        exact mapM_eq_ok_map_iff.mpr hrows
  · refine iff_of_false (fun h => hknown fun item hitem => ?_) fun h => hknown h.1
    apply Option.isSome_iff_ne_none.mpr
    intro hnone
    have hwidth := h.width
    rw [mapM_eq_none_iff.mpr ⟨item, hitem, hnone⟩] at hwidth
    cases hwidth

omit [CaseMapping] [Rendering] [SqlExprText] in
theorem SelectStatement.map_page {α β : Type} (f : α → β) (rows : List α) :
    (statement.page rows).map f = statement.page (rows.map f) := by
  rw [SelectStatement.page, SelectStatement.page]
  split
  · rw [List.map_take, List.map_drop]
  · rfl

omit [SqlExprText] in
/-- The rows of a page are filtered rows. -/
theorem FilteredRows.mem_of_mem_page {filtered : FilteredRows} {row : List Datum}
    (h : row ∈ filtered.page ctx statement) : row ∈ filtered.rows := by
  rw [FilteredRows.page, SelectStatement.page] at h
  apply sortRows_perm.mem_iff.mp
  split at h
  · exact List.mem_of_mem_drop (List.mem_of_mem_take h)
  · exact h

omit [SqlExprText] in
/-- Without LIMIT and OFFSET the page has all filtered rows. -/
theorem FilteredRows.page_perm {filtered : FilteredRows} (hlimit : statement.limit = none)
    (hoffset : statement.offset = none) : (filtered.page ctx statement).Perm filtered.rows := by
  rw [FilteredRows.page, SelectStatement.page, hlimit, hoffset, if_neg (by decide)]
  exact sortRows_perm

end

namespace PairTable

open AsciiCase PlainText

/-- A table of two columns with two rows. -/
def ctx : ExecContext where
  tables := [{ Table.new "t" [.new "a" .integer, .new "b" .text] with
    versionChains := [[.newInsert 1 { values := [.integer 1, .text "x"] }], [.newInsert 1 { values := [.integer 2, .text "y"] }]] }]
  snapshot := { txid := 5, active := ∅ }
  choices := .asGiven

/-- A SELECT from the table. -/
def selectAll : SelectStatement where
  tableName := "t"
  columns := []
  whereClause := none
  orderBy := []
  limit := none
  offset := none
  joins := []

def named (name : String) : SqlExpr := .identifier { value := name, quoteStyle := none }

/-- `UPPER(b)`. -/
def upper : SqlExpr := .function "UPPER" [.unnamed (named "b")] false

/-- `COUNT( * )`. -/
def count : SqlExpr := .function "COUNT" [.other "*"] false

/-- A table of two texts, all in capitals. -/
def capitals : ExecContext where
  tables := [{ Table.new "t" [.new "a" .text, .new "b" .text] with
    versionChains := [[.newInsert 1 { values := [.text "B", .text "X"] }], [.newInsert 1 { values := [.text "A", .text "Y"] }]] }]
  snapshot := { txid := 5, active := ∅ }
  choices := .asGiven

/-- A list that is answered with another number of columns than it has. -/
theorem not_selectsItems_of_width {items : List SqlSelectItem} {tree : QueryPlan} {rows : DataRows}
    (hplan : planSelect ctx.tables (selectAll.selecting items) = .ok tree)
    (hrun : executeTree ctx (tree.optimize ctx.tables) = .ok rows)
    (hwidth : (items.mapM (SqlSelectItem.width [("t", [.new "a" .integer, .new "b" .text])])).map List.sum ≠
      some (tree.optimize ctx.tables).colNames.length) : ¬ SelectsItems ctx selectAll items := by
  intro h
  obtain ⟨filtered, ⟨source, -, -, hmap, -⟩, hanswered⟩ := h tree rows hplan hrun
  have htables : [("t", [ColumnMeta.new "a" .integer, .new "b" .text])] = filtered.tableMap := Except.ok.inj hmap
  apply hwidth
  rw [htables]
  exact hanswered.width

end PairTable

end HelionDb
