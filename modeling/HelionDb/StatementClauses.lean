import HelionDb.FromClauses
import HelionDb.InsertPlans

/-! What a statement says, clause by clause. A tree of SELECT, INSERT, UPDATE or DELETE says what stands in each of its
parts; a statement of the engine says the same of the few parts that it has, and nothing of the others. The expressions
and the literals are given by what they mean, on both sides alike, since their conversion is another matter. -/

namespace HelionDb

/-- What a constraint of a join says. -/
inductive ConstraintSense (V : Type) where
  | on (condition : V)
  | using (columns : List String)
  | natural
  | none

/-- What a join operator says; INNER and OUTER may be left out. -/
inductive JoinSense (V : Type) where
  | inner (constraint : ConstraintSense V)
  | left (constraint : ConstraintSense V)
  | right (constraint : ConstraintSense V)
  | full (constraint : ConstraintSense V)
  | cross
  | other (name : String)

/-- What an item of a SELECT list says. -/
inductive ItemSense (V : Type) where
  | all
  | allOf (table : String)
  | value (value : V) (aliasName : Option String)

/-- What an item of an ORDER BY says. -/
structure OrderSense (V : Type) where
  value : V
  direction : OrderByDesc
  nullsFirst : Option Bool

/-- A table of a FROM clause with its joins. -/
structure TableSense (V : Type) where
  table : SqlTableFactor
  joins : List (SqlTableFactor × JoinSense V)

/-- A number of rows, or an expression that is none. -/
abbrev CountSense (V : Type) := Nat ⊕ V

/-- What the clauses around a query body say. -/
structure QueryClauses (V : Type) where
  orderBy : Option (List (OrderSense V))
  limit : Option (CountSense V)
  offset : Option (CountSense V)
  otherClauses : List String

/-- Where the rows of an INSERT come from. -/
inductive SourceSense (V D : Type) where
  | defaults
  | values (rows : List (List D)) (clauses : QueryClauses V)
  | query

/-- What a statement says, over the meanings of expressions and of literals. -/
inductive StatementSense (V D : Type) where
  | select (items : List (ItemSense V)) (tables : List (TableSense V)) (filter : Option V) (distinct : Bool)
      (groupBy : List V) (having : Option V) (otherClauses : List String) (clauses : QueryClauses V)
  | insert (table : String) (columns : List String) (source : SourceSense V D)
      (assignments : List (SqlAssignmentTarget × D)) (on returning : Bool) (otherClauses : List String)
  | update (table : TableSense V) (assignments : List (SqlAssignmentTarget × D)) («from» : Bool) (filter : Option V)
      (returning : Bool) (otherClauses : List String)
  | delete (tables : List String) («from» : List (TableSense V)) («using» : Bool) (filter : Option V) (returning : Bool)
      (orderBy : List (OrderSense V)) (limit : Option (CountSense V))
  | unsupported

section

variable [SqlExprText] {V D : Type} (value : SqlExpr → V) (literal : SqlExpr → D)

def SqlJoinConstraint.sense : SqlJoinConstraint → ConstraintSense V
  | .on expr => .on (value expr)
  | .using columns => .using columns
  | .natural => .natural
  | .none => .none

def SqlJoinOperator.sense : SqlJoinOperator → JoinSense V
  | .join constraint | .inner constraint => .inner (constraint.sense value)
  | .left constraint | .leftOuter constraint => .left (constraint.sense value)
  | .right constraint | .rightOuter constraint => .right (constraint.sense value)
  | .fullOuter constraint => .full (constraint.sense value)
  | .crossJoin => .cross
  | .other name => .other name

def SqlTableWithJoins.sense (item : SqlTableWithJoins) : TableSense V where
  table := item.relation
  joins := item.joins.map fun join => (join.relation, join.joinOperator.sense value)

def SqlSelectItem.sense : SqlSelectItem → ItemSense V
  | .wildcard => .all
  | .qualifiedWildcard name => .allOf name
  | .unnamedExpr expr => .value (value expr) none
  | .exprWithAlias expr aliasName => .value (value expr) (some aliasName.text)

/-- An item without a direction is ascending. -/
def SqlOrderByExpr.sense (item : SqlOrderByExpr) : OrderSense V where
  value := value item.expr
  direction := if item.asc = some false then .desc else .asc
  nullsFirst := item.nullsFirst

def SqlOrderByKind.sense : SqlOrderByKind → Option (List (OrderSense V))
  | .expressions exprs => some (exprs.map (SqlOrderByExpr.sense value))
  | .all => none

/-- A number of rows that is written out, or else the expression. -/
def SqlExpr.countSense (expr : SqlExpr) : CountSense V :=
  match rowCount expr with
  | some count => .inl count
  | none => .inr (value expr)

/-- Without an ORDER BY no order is said. -/
def SqlQuery.clauses (query : SqlQuery) : QueryClauses V where
  orderBy := (query.orderBy.map (SqlOrderByKind.sense value)).getD (some [])
  limit := query.limit.map (SqlExpr.countSense value)
  offset := query.offset.map (SqlExpr.countSense value)
  otherClauses := query.otherClauses

def SqlSelect.sense (query : SqlQuery) (select : SqlSelect) : StatementSense V D :=
  .select (select.projection.map (SqlSelectItem.sense value)) (select.from.map (SqlTableWithJoins.sense value))
    (select.selection.map value) select.distinct (select.groupBy.map value) (select.having.map value) select.otherClauses
    (query.clauses value)

def sourceSense (source : Option SqlQuery) : SourceSense V D :=
  match source with
  | none => .defaults
  | some query =>
      match query.body with
      | .values rows => .values (rows.map fun row => row.map literal) (query.clauses value)
      | _ => .query

def SqlAssignment.sense (assignment : SqlAssignment) : SqlAssignmentTarget × D :=
  (assignment.target, literal assignment.value)

/-- What a tree says. -/
def sqlSense : SqlStatement → StatementSense V D
  | .query query =>
      match query.body with
      | .select select => select.sense value query
      | _ => .unsupported
  | .insert insert =>
      match insert.table with
      | .tableName name =>
          .insert name (insert.columns.map Ident.text) (sourceSense value literal insert.source)
            (insert.assignments.map (SqlAssignment.sense literal)) insert.on insert.returning insert.otherClauses
      | .tableFunction _ => .unsupported
  | .update update =>
      .update (update.table.sense value) (update.assignments.map (SqlAssignment.sense literal)) update.from
        (update.selection.map value) update.returning update.otherClauses
  | .delete delete =>
      .delete delete.tables (delete.from.map (SqlTableWithJoins.sense value)) delete.using (delete.selection.map value)
        delete.returning (delete.orderBy.map (SqlOrderByExpr.sense value)) (delete.limit.map (SqlExpr.countSense value))
  | _ => .unsupported

end

/-! ### What a statement of the engine says -/

/-- The column that a name in a SELECT list names. -/
def columnNamed (name : String) : Expression :=
  match splitAtDot name with
  | some (table, column) => .qualifiedColumn table column
  | none => .column name

section

variable {V D : Type} (value : Expression → V) (literal : Datum → D)

/-- The engine joins without a constraint where it has no ON. -/
def JoinClause.sense (clause : JoinClause) : SqlTableFactor × JoinSense V :=
  let constraint : ConstraintSense V :=
    match clause.onClause with
    | some expr => .on (value expr)
    | none => .none
  let operator : JoinSense V :=
    match clause.joinType, clause.onClause with
    | .cross, none => .cross
    | .cross, some _ | .inner, _ => .inner constraint
    | .left, _ => .left constraint
    | .right, _ => .right constraint
  (.table clause.rightTable none false, operator)

def SelectColumn.sense : SelectColumn → ItemSense V
  | .wildcard => .all
  | .qualWildcard table => .allOf table
  | .expr computed => .value (value computed) none
  | .qualified name aliasName => .value (value (columnNamed name)) aliasName

def OrderByExpr.sense (item : OrderByExpr) : OrderSense V where
  value := value item.expr
  direction := item.direction
  nullsFirst := none

/-- A query without any clauses around it. -/
def QueryClauses.plain : QueryClauses V where
  orderBy := some []
  limit := none
  offset := none
  otherClauses := []

def SelectStatement.sense (statement : SelectStatement) : StatementSense V D :=
  .select (statement.columns.map (SelectColumn.sense value))
    [{ table := .table statement.tableName none false, joins := statement.joins.map (JoinClause.sense value) }]
    (statement.whereClause.map value) false [] none []
    { orderBy := some (statement.orderBy.map (OrderByExpr.sense value))
      limit := statement.limit.map .inl
      offset := statement.offset.map .inl
      otherClauses := [] }

/-- A table alone. -/
def TableSense.named (name : String) : TableSense V where
  table := .table name none false
  joins := []

/-- What a statement of the engine says; the parts that it does not have are absent. -/
def HelionStatement.sense : HelionStatement → StatementSense V D
  | .select statement => statement.sense value
  | .insert tableName columns values =>
      .insert tableName columns (.values (values.map fun row => row.map literal) .plain) [] false false []
  | .update tableName assignments whereClause =>
      .update (.named tableName) (assignments.map fun assignment => (.columnName assignment.1, literal assignment.2)) false
        (whereClause.map value) false []
  | .delete tableName whereClause => .delete [] [.named tableName] false (whereClause.map value) false [] none
  | _ => .unsupported

end

/-- The expression of an item. -/
def SqlSelectItem.expr? : SqlSelectItem → Option SqlExpr
  | .unnamedExpr expr | .exprWithAlias expr _ => some expr
  | .wildcard | .qualifiedWildcard _ => none

/-- The expressions of the parts that a statement of the engine has. -/
def sqlExprs : SqlStatement → List SqlExpr
  | .query query =>
      match query.body with
      | .select select =>
          fromConditions select.from ++ select.projection.filterMap SqlSelectItem.expr? ++ select.selection.toList ++
            match query.orderBy with
            | some (.expressions exprs) => exprs.map SqlOrderByExpr.expr
            | _ => []
      | _ => []
  | .update update => update.selection.toList
  | .delete delete => delete.selection.toList
  | _ => []

/-- The literals of VALUES. -/
def sourceLiterals : Option SqlQuery → List SqlExpr
  | some { body := .values rows, .. } => rows.flatten
  | _ => []

/-- The literals of the parts that a statement of the engine has. -/
def sqlLiterals : SqlStatement → List SqlExpr
  | .insert insert => sourceLiterals insert.source ++ insert.assignments.map SqlAssignment.value
  | .update update => update.assignments.map SqlAssignment.value
  | _ => []

/-- A tree is rejected, or its statement says all that the tree says, whatever the expressions and the literals mean, if
they mean what they are converted to. -/
def ConvertsWhole [CaseMapping] [Rendering] [SqlExprText] [SqlTableText] (uuidv7 : BitVec 128) (tree : SqlStatement) : Prop :=
  ∀ statement, convertStatement uuidv7 tree = .ok statement →
    ∀ (V D : Type) (sqlValue : SqlExpr → V) (value : Expression → V) (sqlLiteral : SqlExpr → D) (literal : Datum → D),
      (∀ expr ∈ sqlExprs tree, value (sqlExprToExpression expr) = sqlValue expr) →
      (∀ expr ∈ sqlLiterals tree, ∀ datum, sqlExprToDatum uuidv7 expr = .ok datum → literal datum = sqlLiteral expr) →
        statement.sense value literal = sqlSense sqlValue sqlLiteral tree

/-- An aliased item is the column that its text names, and no item is a wildcard of a table. -/
def SqlSelectItem.IsPlain [SqlExprText] : SqlSelectItem → Prop
  | .exprWithAlias expr _ => columnNamed (SqlExprText.display expr) = sqlExprToExpression expr
  | .qualifiedWildcard _ => False
  | .unnamedExpr _ | .wildcard => True

/-- No ORDER BY, or one of expressions that says nothing about NULLs. -/
def SqlOrderByKind.IsPlain : SqlOrderByKind → Prop
  | .expressions exprs => ∀ item ∈ exprs, item.nullsFirst = none
  | .all => False

/-- A query around a body with LIMIT and OFFSET written out. -/
def SqlQuery.IsPlain (query : SqlQuery) : Prop :=
  (∀ kind ∈ query.orderBy, kind.IsPlain) ∧ (∀ expr ∈ query.limit, (rowCount expr).isSome) ∧
    (∀ expr ∈ query.offset, (rowCount expr).isSome) ∧ query.otherClauses = []

/-- A selection from one table with joins, without DISTINCT, GROUP BY, HAVING and the like. -/
def SqlSelect.IsPlain [SqlExprText] (select : SqlSelect) : Prop :=
  (∀ item ∈ select.projection, item.IsPlain) ∧ (∃ item, select.from = [item] ∧ item.IsPlain) ∧
    select.distinct = false ∧ select.groupBy = [] ∧ select.having = none ∧ select.otherClauses = []

/-- VALUES with nothing around them. -/
def SqlQuery.IsValues (query : SqlQuery) : Prop :=
  (∃ rows, query.body = .values rows) ∧ (∀ kind ∈ query.orderBy, kind = .expressions []) ∧ query.limit = none ∧
    query.offset = none ∧ query.otherClauses = []

def SqlInsert.IsPlain (insert : SqlInsert) : Prop :=
  (∃ query, insert.source = some query ∧ query.IsValues) ∧ insert.assignments = [] ∧ insert.on = false ∧
    insert.returning = false ∧ insert.otherClauses = []

def SqlUpdate.IsPlain (update : SqlUpdate) : Prop :=
  update.table.relation.IsPlain ∧ update.table.joins = [] ∧ update.from = false ∧ update.returning = false ∧
    update.otherClauses = []

def SqlDelete.IsPlain (delete : SqlDelete) : Prop :=
  delete.tables = [] ∧ (∃ factor, delete.from = [{ relation := factor, joins := [] }] ∧ factor.IsPlain) ∧
    delete.using = false ∧ delete.returning = false ∧ delete.orderBy = [] ∧ delete.limit = none

/-- A tree of which the engine can represent every part. -/
def SqlStatement.IsPlain [SqlExprText] : SqlStatement → Prop
  | .query { body := .select select, orderBy, limit, offset, otherClauses } =>
      select.IsPlain ∧ SqlQuery.IsPlain { body := .select select, orderBy, limit, offset, otherClauses }
  | .insert added => added.IsPlain
  | .update changed => changed.IsPlain
  | .delete removed => removed.IsPlain
  | _ => True

/-- A tree that is rejected for its first FROM item, its table, a target or a literal. -/
def SqlStatement.IsRefused [CaseMapping] [SqlExprText] (uuidv7 : BitVec 128) (tree : SqlStatement) : Prop :=
  match tree with
  | .query { body := .select select, .. } => ∀ item ∈ select.from.head?, ∃ text, item.relation = .other text
  | .insert added =>
      (∃ text, added.table = .tableFunction text) ∨
        ∃ expr ∈ sqlLiterals tree, ∃ err, sqlExprToDatum uuidv7 expr = .error err
  | .update changed =>
      (∃ assignment ∈ changed.assignments, ∃ names, assignment.target = .tuple names) ∨
        ∃ expr ∈ sqlLiterals tree, ∃ err, sqlExprToDatum uuidv7 expr = .error err
  | _ => False

/-! ### Clauses -/

section

variable [SqlExprText] {V : Type} {sqlValue : SqlExpr → V} {value : Expression → V}

omit [SqlExprText] in
theorem named_eq_iff {factor : SqlTableFactor} {text : String} (h : ∀ name, factor = .table name none false → text = name) :
    SqlTableFactor.table text none false = factor ↔ factor.IsPlain := by
  cases factor with
  | other printed => exact iff_of_false nofun id
  | table name aliasName modified =>
      constructor
      · rintro ⟨⟩
        exact ⟨rfl, rfl⟩
      · rintro ⟨rfl, rfl⟩
        rw [h name rfl]

/-- A clause says the constraint of its join exactly if that is an ON or none. -/
theorem constraintSense_eq_iff {constraint : SqlJoinConstraint}
    (hagree : ∀ expr, constraint.condition? = some expr → value (sqlExprToExpression expr) = sqlValue expr) :
    (match constraintToExpr constraint with
      | some expr => ConstraintSense.on (value expr)
      | none => .none) = constraint.sense sqlValue ↔ constraint.IsPlain := by
  cases constraint with
  | on expr => exact iff_of_true (congrArg ConstraintSense.on (hagree expr rfl)) trivial
  | «using» columns => exact iff_of_false nofun id
  | natural => exact iff_of_false nofun id
  | none => exact iff_of_true rfl trivial

theorem sense_convertJoin_iff [SqlTableText] {join : SqlJoin}
    (hagree : ∀ expr, join.joinOperator.condition? = some expr → value (sqlExprToExpression expr) = sqlValue expr) :
    (convertJoin join).sense value = (join.relation, join.joinOperator.sense sqlValue) ↔
      join.relation.IsPlain ∧ join.joinOperator.IsPlain := by
  obtain ⟨relation, joinOperator⟩ := join
  rw [convertJoin, JoinClause.sense, Prod.mk.injEq]
  refine and_congr (named_eq_iff ?_) ?_
  · rintro name rfl
    rfl
  · cases joinOperator with
    | join constraint => exact (JoinSense.inner.injEq _ _).to_iff.trans (constraintSense_eq_iff hagree)
    | inner constraint => exact (JoinSense.inner.injEq _ _).to_iff.trans (constraintSense_eq_iff hagree)
    | left constraint => exact (JoinSense.left.injEq _ _).to_iff.trans (constraintSense_eq_iff hagree)
    | leftOuter constraint => exact (JoinSense.left.injEq _ _).to_iff.trans (constraintSense_eq_iff hagree)
    | right constraint => exact (JoinSense.right.injEq _ _).to_iff.trans (constraintSense_eq_iff hagree)
    | rightOuter constraint => exact (JoinSense.right.injEq _ _).to_iff.trans (constraintSense_eq_iff hagree)
    | crossJoin => exact iff_of_true rfl trivial
    | fullOuter constraint => exact iff_of_false (by rintro ⟨⟩) id
    | other name => exact iff_of_false (by rintro ⟨⟩) id

/-- The first item of a FROM clause says all of the clause exactly if it is the only one and plain. -/
theorem senses_from_iff [SqlTableText] {items : List SqlTableWithJoins} {first : SqlTableWithJoins} {text : String}
    (htext : ∀ name, first.relation = .table name none false → text = name) (hfirst : items.head? = some first)
    (hagree : ∀ expr ∈ fromConditions items, value (sqlExprToExpression expr) = sqlValue expr) :
    [{ table := .table text none false, joins := (extractJoins first).map (JoinClause.sense value) }] =
        items.map (SqlTableWithJoins.sense sqlValue) ↔
      ∃ item, items = [item] ∧ item.IsPlain := by
  cases items with
  | nil => cases hfirst
  | cons item rest =>
      obtain rfl := Option.some.inj hfirst
      have hjoins : (extractJoins item).map (JoinClause.sense value) =
          item.joins.map (fun join => (join.relation, join.joinOperator.sense sqlValue)) ↔
          ∀ join ∈ item.joins, join.relation.IsPlain ∧ join.joinOperator.IsPlain := by
        rw [extractJoins, List.map_map, List.map_inj_left]
        refine forall₂_congr fun join hjoin => sense_convertJoin_iff fun expr hexpr => hagree expr ?_
        refine List.mem_flatMap.mpr ⟨item, List.mem_cons_self, ?_⟩
        exact List.mem_filterMap.mpr ⟨join, hjoin, hexpr⟩
      rw [List.map_cons, List.cons.injEq, SqlTableWithJoins.sense, TableSense.mk.injEq, named_eq_iff htext, hjoins]
      constructor
      · rintro ⟨hplain, hrest⟩
        exact ⟨item, by rw [List.map_eq_nil_iff.mp hrest.symm], hplain⟩
      · rintro ⟨other, hother, hplain⟩
        obtain ⟨rfl, rfl⟩ := List.cons.inj hother
        exact ⟨hplain, rfl⟩

theorem sense_convertOrderByExpr_iff {item : SqlOrderByExpr}
    (hagree : value (sqlExprToExpression item.expr) = sqlValue item.expr) :
    (convertOrderByExpr item).sense value = item.sense sqlValue ↔ item.nullsFirst = none := by
  rw [OrderByExpr.sense, SqlOrderByExpr.sense, OrderSense.mk.injEq]
  have hdirection : (convertOrderByExpr item).direction = if item.asc = some false then .desc else .asc := by
    rw [convertOrderByExpr]
    rcases item.asc with _ | _ | _ <;> rfl
  exact ⟨fun h => h.2.2.symm, fun h => ⟨hagree, hdirection, h.symm⟩⟩

omit [SqlExprText] in
/-- The count that is converted says the clause exactly if that is written out. -/
theorem count_eq_iff {clause : Option SqlExpr} :
    (clause.bind rowCount).map Sum.inl = clause.map (SqlExpr.countSense sqlValue) ↔
      ∀ expr ∈ clause, (rowCount expr).isSome := by
  cases clause with
  | none => exact iff_of_true rfl nofun
  | some expr =>
      rw [Option.bind_some, Option.map_some, SqlExpr.countSense]
      constructor
      · rintro h other ⟨⟩
        cases hcount : rowCount expr with
        | none =>
            rw [hcount] at h
            cases h
        | some count => rfl
      · intro h
        obtain ⟨count, hcount⟩ := Option.isSome_iff_exists.mp (h expr rfl)
        rw [hcount]
        rfl

/-- A statement has the order and the page of a query, as far as they are converted. -/
structure SelectStatement.PagesLike (statement : SelectStatement) (query : SqlQuery) : Prop where
  orderBy : statement.orderBy =
    match query.orderBy with
    | some (.expressions exprs) => exprs.map convertOrderByExpr
    | _ => []
  limit : statement.limit = query.limit.bind rowCount
  offset : statement.offset = query.offset.bind rowCount

/-- The clauses of a statement say the ones around the body exactly if those are plain. -/
theorem clauses_eq_iff {query : SqlQuery} {statement : SelectStatement} (hstatement : statement.PagesLike query)
    (hagree : ∀ items, query.orderBy = some (.expressions items) →
      ∀ item ∈ items, value (sqlExprToExpression item.expr) = sqlValue item.expr) :
    { orderBy := some (statement.orderBy.map (OrderByExpr.sense value))
      limit := statement.limit.map .inl
      offset := statement.offset.map .inl
      otherClauses := [] } = query.clauses sqlValue ↔ query.IsPlain := by
  have horder : some (statement.orderBy.map (OrderByExpr.sense value)) =
      (query.orderBy.map (SqlOrderByKind.sense sqlValue)).getD (some []) ↔ ∀ kind ∈ query.orderBy, kind.IsPlain := by
    rw [hstatement.orderBy]
    rcases hkind : query.orderBy with _ | kind
    · exact iff_of_true rfl nofun
    · cases kind with
      | all => exact iff_of_false nofun fun h => h .all rfl
      | expressions items =>
          have hitems : (items.map convertOrderByExpr).map (OrderByExpr.sense value) =
              items.map (SqlOrderByExpr.sense sqlValue) ↔ ∀ item ∈ items, item.nullsFirst = none := by
            rw [List.map_map, List.map_inj_left]
            exact forall₂_congr fun item hitem => sense_convertOrderByExpr_iff (hagree items hkind item hitem)
          refine (Option.some_inj.trans hitems).trans ⟨fun h kind => ?_, fun h => h _ rfl⟩
          rintro ⟨⟩
          exact h
  rw [SqlQuery.clauses, QueryClauses.mk.injEq, horder, hstatement.limit, hstatement.offset, count_eq_iff, count_eq_iff,
    SqlQuery.IsPlain]
  exact and_congr_right fun _ => and_congr_right fun _ => and_congr_right fun _ => eq_comm

/-- A column with an alias says what the item says, if its text names what the item is converted to. -/
theorem sense_convertSelectItem {item : SqlSelectItem} (hplain : item.IsPlain)
    (hagree : ∀ expr, item.expr? = some expr → value (sqlExprToExpression expr) = sqlValue expr) :
    (convertSelectItem item).sense value = item.sense sqlValue := by
  cases item with
  | wildcard => rfl
  | qualifiedWildcard name => exact hplain.elim
  | unnamedExpr expr => exact congrArg (ItemSense.value · none) (hagree expr rfl)
  | exprWithAlias expr aliasName =>
      rw [convertSelectItem, SelectColumn.sense, SqlSelectItem.sense, show columnNamed _ = _ from hplain, hagree expr rfl]

theorem isPlain_of_sense_eq {item : SqlSelectItem}
    (h : (convertSelectItem item).sense id = item.sense sqlExprToExpression) : item.IsPlain := by
  cases item with
  | exprWithAlias expr aliasName => exact (ItemSense.value.inj h).1
  | qualifiedWildcard name =>
      have hlength := congrArg String.length (ItemSense.allOf.inj h)
      simp at hlength
  | unnamedExpr expr => trivial
  | wildcard => trivial

/-- What a selection is converted to: everything of its body comes from the list, the first FROM item and the filter. -/
theorem convertSelect_ok [SqlTableText] {query : SqlQuery} {select : SqlSelect} {statement : SelectStatement}
    (h : convertSelect query select = .ok statement) :
    ∃ first, select.from.head? = some first ∧
      (∃ aliasName modified, first.relation = .table statement.tableName aliasName modified) ∧
      statement.joins = extractJoins first ∧ statement.columns = select.projection.map convertSelectItem ∧
      statement.whereClause = select.selection.map sqlExprToExpression ∧ statement.PagesLike query := by
  rw [convertSelect] at h
  cases hfrom : select.from with
  | nil =>
      rw [hfrom] at h
      cases h
  | cons first rest =>
      rw [hfrom] at h
      dsimp only at h
      split at h
      next name aliasName modified hrelation =>
        obtain rfl := Except.ok.inj h
        exact ⟨first, rfl, ⟨aliasName, modified, hrelation⟩, rfl, rfl, rfl, rfl, rfl, rfl⟩
      next => cases h

/-- A selection says all of its tree exactly if each item does and the other parts are plain. -/
theorem sense_convertSelect_iff [SqlTableText] {D : Type} {query : SqlQuery} {select : SqlSelect}
    {statement : SelectStatement} (hbody : query.body = .select select)
    (hconverted : convertSelect query select = .ok statement)
    (hagree : ∀ expr ∈ sqlExprs (.query query), value (sqlExprToExpression expr) = sqlValue expr) :
    (statement.sense value : StatementSense V D) = select.sense sqlValue query ↔
      (∀ item ∈ select.projection, (convertSelectItem item).sense value = item.sense sqlValue) ∧
        (∃ item, select.from = [item] ∧ item.IsPlain) ∧ select.distinct = false ∧ select.groupBy = [] ∧
        select.having = none ∧ select.otherClauses = [] ∧ query.IsPlain := by
  rw [sqlExprs, hbody] at hagree
  simp only [List.forall_mem_append] at hagree
  obtain ⟨⟨⟨hfromAgree, -⟩, hfilterAgree⟩, horderAgree⟩ := hagree
  obtain ⟨first, hfirst, ⟨aliasName, modified, hrelation⟩, hjoins, hcolumns, hwhere, hpages⟩ :=
    convertSelect_ok hconverted
  have htext : ∀ text, first.relation = .table text none false → statement.tableName = text := by
    rintro text htable
    rw [hrelation] at htable
    exact (SqlTableFactor.table.inj htable).1
  have hfilter : statement.whereClause.map value = select.selection.map sqlValue := by
    rw [hwhere, Option.map_map]
    exact Option.map_congr fun expr hexpr => hfilterAgree expr (Option.mem_toList.mpr hexpr)
  have hitems :
      statement.columns.map (SelectColumn.sense value) = select.projection.map (SqlSelectItem.sense sqlValue) ↔
      ∀ item ∈ select.projection, (convertSelectItem item).sense value = item.sense sqlValue := by
    rw [hcolumns, List.map_map, List.map_inj_left]
    rfl
  have hclauses := @clauses_eq_iff _ _ sqlValue value query statement hpages fun items hitems item hitem =>
    horderAgree item.expr (by rw [hitems]; exact List.mem_map_of_mem hitem)
  rw [SelectStatement.sense, SqlSelect.sense, StatementSense.select.injEq, hitems, hjoins,
    senses_from_iff htext hfirst hfromAgree, hclauses]
  refine and_congr_right fun _ => and_congr_right fun _ => ?_
  constructor
  · rintro ⟨-, hdistinct, hgroup, hhaving, hother, hplain⟩
    exact ⟨hdistinct.symm, List.map_eq_nil_iff.mp hgroup.symm, Option.map_eq_none_iff.mp hhaving.symm, hother.symm, hplain⟩
  · rintro ⟨hdistinct, hgroup, hhaving, hother, hplain⟩
    exact ⟨hfilter, hdistinct.symm, by rw [hgroup]; rfl, by rw [hhaving]; rfl, hother.symm, hplain⟩

end

/-- A query is converted whole or rejected exactly if its first FROM item is no table or all of it is plain. -/
theorem convertsWhole_query_iff [CaseMapping] [Rendering] [SqlExprText] [SqlTableText] (uuidv7 : BitVec 128)
    {query : SqlQuery} {select : SqlSelect} (hbody : query.body = .select select) :
    ConvertsWhole uuidv7 (.query query) ↔
      (∀ item ∈ select.from.head?, ∃ text, item.relation = .other text) ∨ select.IsPlain ∧ query.IsPlain := by
  have hquery : convertStatement uuidv7 (.query query) = (convertSelect query select).map .select := by
    rw [convertStatement, convertQuery, hbody]
  have hsense {V D : Type} (value : SqlExpr → V) (literal : SqlExpr → D) :
      sqlSense value literal (.query query) = select.sense value query := by
    rw [sqlSense, hbody]
  constructor
  · intro h
    refine or_iff_not_imp_left.mpr fun hrefused => ?_
    obtain ⟨statement, hstatement⟩ : ∃ statement, convertSelect query select = .ok statement := by
      rw [convertSelect]
      cases hfrom : select.from with
      | nil =>
          refine absurd ?_ hrefused
          rw [hfrom]
          rintro item ⟨⟩
      | cons first rest =>
          cases hrelation : first.relation with
          | other text =>
              refine absurd ?_ hrefused
              rw [hfrom]
              rintro item ⟨⟩
              exact ⟨text, hrelation⟩
          | table name aliasName modified =>
              dsimp only
              rw [hrelation]
              exact ⟨_, rfl⟩
    -- Meaning by what an expression is converted to tells any two statements apart.
    have hsame := h (.select statement) (by rw [hquery, hstatement]; rfl) Expression Unit sqlExprToExpression id
      (fun _ => ()) (fun _ => ()) (fun _ _ => rfl) fun _ _ _ _ => rfl
    rw [hsense] at hsame
    obtain ⟨hitems, hfrom, hdistinct, hgroup, hhaving, hother, hplain⟩ :=
      (sense_convertSelect_iff hbody hstatement fun _ _ => rfl).mp hsame
    exact ⟨⟨fun item hitem => isPlain_of_sense_eq (hitems item hitem), hfrom, hdistinct, hgroup, hhaving, hother⟩, hplain⟩
  · rintro h statement hconverted V D sqlValue value sqlLiteral literal hagree -
    rw [hquery] at hconverted
    cases hselect : convertSelect query select with
    | error err =>
        rw [hselect] at hconverted
        cases hconverted
    | ok selected =>
        rw [hselect] at hconverted
        obtain rfl := Except.ok.inj hconverted
        rw [hsense]
        rcases h with hrefused | ⟨⟨hitems, hfrom, hdistinct, hgroup, hhaving, hother⟩, hplain⟩
        · obtain ⟨first, hfirst, ⟨aliasName, modified, htable⟩, -⟩ := convertSelect_ok hselect
          obtain ⟨text, htext⟩ := hrefused first hfirst
          rw [htable] at htext
          cases htext
        · refine (sense_convertSelect_iff hbody hselect hagree).mpr
            ⟨fun item hitem => sense_convertSelectItem (hitems item hitem) fun expr hexpr => hagree expr ?_, hfrom,
              hdistinct, hgroup, hhaving, hother, hplain⟩
          rw [sqlExprs, hbody]
          refine List.mem_append_left _ (List.mem_append_left _ (List.mem_append_right _ ?_))
          exact List.mem_filterMap.mpr ⟨item, hitem, hexpr⟩

/-! ### Changes of rows -/

/-- The results of a traversal mean what its items do, if each one does. -/
theorem map_eq_of_mapM_ok {ε α β γ : Type} {f : α → Except ε β} {g : β → γ} {k : α → γ} {items : List α}
    {results : List β} (h : items.mapM f = .ok results) (hagree : ∀ item ∈ items, ∀ result, f item = .ok result → g result = k item) :
    results.map g = items.map k := by
  have hrelated := mapM_ok_iff_forall₂.mp h
  clear h
  induction hrelated with
  | nil => rfl
  | cons hfirst _ ih =>
      obtain ⟨hhead, hrest⟩ := List.forall_mem_cons.mp hagree
      rw [List.map_cons, List.map_cons, hhead _ hfirst, ih hrest]

section

variable [CaseMapping] [SqlExprText] {uuidv7 : BitVec 128}

theorem exists_convertSource {source : Option SqlQuery}
    (h : ∀ expr ∈ sourceLiterals source, ∃ datum, sqlExprToDatum uuidv7 expr = .ok datum) :
    ∃ values, convertSource uuidv7 source = .ok values := by
  unfold convertSource
  split
  next rows _ _ _ _ =>
    refine exists_mapM_ok_iff.mpr fun row hrow => exists_mapM_ok_iff.mpr fun expr hexpr => h expr ?_
    exact List.mem_flatten.mpr ⟨row, hrow, hexpr⟩
  next => exact ⟨[], rfl⟩

theorem exists_of_convertSource {source : Option SqlQuery} {values : List (List Datum)}
    (h : convertSource uuidv7 source = .ok values) :
    ∀ expr ∈ sourceLiterals source, ∃ datum, sqlExprToDatum uuidv7 expr = .ok datum := by
  unfold convertSource at h
  split at h
  next rows _ _ _ _ =>
    intro expr hexpr
    obtain ⟨row, hrow, hmem⟩ := List.mem_flatten.mp hexpr
    obtain ⟨_, hresult⟩ := exists_mapM_ok_iff.mp ⟨values, h⟩ row hrow
    exact exists_mapM_ok_iff.mp ⟨_, hresult⟩ expr hmem
  next hother =>
    unfold sourceLiterals
    split
    next rows _ _ _ _ => exact absurd rfl (hother rows _ _ _ _)
    next =>
      intro expr hexpr
      cases hexpr

/-- What an INSERT is converted to: the rows of VALUES, and the assignments as one more. -/
theorem convertInsert_ok_iff {insert : SqlInsert} {statement : HelionStatement} :
    convertInsert uuidv7 insert = .ok statement ↔
      ∃ name values row, insert.table = .tableName name ∧ convertSource uuidv7 insert.source = .ok values ∧
        insert.assignments.mapM (fun assignment => sqlExprToDatum uuidv7 assignment.value) = .ok row ∧
        statement = .insert name (insert.columns.map Ident.text)
          (values ++ if insert.assignments.isEmpty then [] else [row]) := by
  rw [convertInsert]
  cases insert.table with
  | tableFunction text => exact iff_of_false nofun nofun
  | tableName name =>
      dsimp only
      rw [Loop.bind_ok_iff]
      cases hempty : insert.assignments.isEmpty with
      | true =>
          rw [List.isEmpty_iff.mp hempty]
          constructor
          · rintro ⟨values, hvalues, h⟩
            exact ⟨name, values, [], rfl, hvalues, rfl, (Except.ok.inj h).symm⟩
          · rintro ⟨_, values, row, ⟨⟩, hvalues, -, rfl⟩
            exact ⟨values, hvalues, rfl⟩
      | false =>
          constructor
          · rintro ⟨values, hvalues, h⟩
            obtain ⟨row, hrow, h⟩ := Loop.bind_ok_iff.mp h
            exact ⟨name, values, row, rfl, hvalues, hrow, (Except.ok.inj h).symm⟩
          · rintro ⟨_, values, row, ⟨⟩, hvalues, hrow, rfl⟩
            exact ⟨values, hvalues, Loop.bind_ok_iff.mpr ⟨row, hrow, rfl⟩⟩

/-- An INSERT is rejected exactly for a table function or a literal. -/
theorem exists_convertInsert_iff {insert : SqlInsert} :
    (∃ statement, convertInsert uuidv7 insert = .ok statement) ↔
      (∃ name, insert.table = .tableName name) ∧
        ∀ expr ∈ sqlLiterals (.insert insert), ∃ datum, sqlExprToDatum uuidv7 expr = .ok datum := by
  rw [sqlLiterals, List.forall_mem_append, List.forall_mem_map]
  constructor
  · rintro ⟨statement, hconverted⟩
    obtain ⟨name, values, row, htable, hvalues, hrow, -⟩ := convertInsert_ok_iff.mp hconverted
    exact ⟨⟨name, htable⟩, exists_of_convertSource hvalues, exists_mapM_ok_iff.mp ⟨row, hrow⟩⟩
  · rintro ⟨⟨name, htable⟩, hsource, hassignments⟩
    obtain ⟨values, hvalues⟩ := exists_convertSource hsource
    obtain ⟨row, hrow⟩ := exists_mapM_ok_iff.mpr hassignments
    exact ⟨_, convertInsert_ok_iff.mpr ⟨name, values, row, htable, hvalues, hrow, rfl⟩⟩

/-- What an UPDATE is converted to. -/
theorem convertUpdate_ok_iff [SqlTableText] {update : SqlUpdate} {statement : HelionStatement} :
    convertUpdate uuidv7 update = .ok statement ↔
      ∃ assignments, update.assignments.mapM (convertAssignment uuidv7) = .ok assignments ∧
        statement = .update (SqlTableText.display update.table.relation) assignments
          (update.selection.map sqlExprToExpression) := by
  rw [convertUpdate, Loop.bind_ok_iff]
  exact exists_congr fun assignments => and_congr_right fun _ => ⟨fun h => (Except.ok.inj h).symm, fun h => congrArg _ h.symm⟩

theorem convertAssignment_ok_iff {assignment : SqlAssignment} {converted : String × Datum} :
    convertAssignment uuidv7 assignment = .ok converted ↔
      assignment.target = .columnName converted.1 ∧ sqlExprToDatum uuidv7 assignment.value = .ok converted.2 := by
  obtain ⟨column, datum⟩ := converted
  rw [convertAssignment]
  cases assignment.target with
  | tuple names => exact iff_of_false nofun nofun
  | columnName name =>
      dsimp only
      rw [Loop.bind_ok_iff, SqlAssignmentTarget.columnName.injEq]
      constructor
      · rintro ⟨datum, hdatum, ⟨⟩⟩
        exact ⟨rfl, hdatum⟩
      · rintro ⟨rfl, hdatum⟩
        exact ⟨datum, hdatum, rfl⟩

/-- An UPDATE is rejected exactly for a target of several columns or a literal. -/
theorem exists_convertUpdate_iff [SqlTableText] {update : SqlUpdate} :
    (∃ statement, convertUpdate uuidv7 update = .ok statement) ↔
      (∀ assignment ∈ update.assignments, ∃ name, assignment.target = .columnName name) ∧
        ∀ expr ∈ sqlLiterals (.update update), ∃ datum, sqlExprToDatum uuidv7 expr = .ok datum := by
  have hassignments : (∃ statement, convertUpdate uuidv7 update = .ok statement) ↔
      ∃ assignments, update.assignments.mapM (convertAssignment uuidv7) = .ok assignments := by
    constructor
    · rintro ⟨statement, hconverted⟩
      obtain ⟨assignments, hassignments, -⟩ := convertUpdate_ok_iff.mp hconverted
      exact ⟨assignments, hassignments⟩
    · rintro ⟨assignments, hassignments⟩
      exact ⟨_, convertUpdate_ok_iff.mpr ⟨assignments, hassignments, rfl⟩⟩
  rw [hassignments, exists_mapM_ok_iff, sqlLiterals, List.forall_mem_map]
  constructor
  · intro h
    refine ⟨fun assignment hmem => ?_, fun assignment hmem => ?_⟩
    · obtain ⟨converted, hconverted⟩ := h assignment hmem
      exact ⟨converted.1, (convertAssignment_ok_iff.mp hconverted).1⟩
    · obtain ⟨converted, hconverted⟩ := h assignment hmem
      exact ⟨converted.2, (convertAssignment_ok_iff.mp hconverted).2⟩
  · rintro ⟨htargets, hliterals⟩ assignment hmem
    obtain ⟨name, hname⟩ := htargets assignment hmem
    obtain ⟨datum, hdatum⟩ := hliterals assignment hmem
    exact ⟨(name, datum), convertAssignment_ok_iff.mpr ⟨hname, hdatum⟩⟩

/-- A literal is not converted exactly if it is rejected. -/
theorem exists_datum_error_iff {exprs : List SqlExpr} :
    (∃ expr ∈ exprs, ∃ err, sqlExprToDatum uuidv7 expr = .error err) ↔
      ¬ ∀ expr ∈ exprs, ∃ datum, sqlExprToDatum uuidv7 expr = .ok datum := by
  push Not
  refine exists_congr fun expr => and_congr_right fun _ => ?_
  cases sqlExprToDatum uuidv7 expr with
  | error err => exact iff_of_true ⟨err, rfl⟩ nofun
  | ok datum => exact iff_of_false nofun fun h => h datum rfl

section

variable {V D : Type} {sqlValue : SqlExpr → V} {value : Expression → V} {sqlLiteral : SqlExpr → D} {literal : Datum → D}

omit [CaseMapping] [SqlExprText] in
theorem clauses_eq_plain_iff {query : SqlQuery} :
    query.clauses sqlValue = .plain ↔
      (∀ kind ∈ query.orderBy, kind = .expressions []) ∧ query.limit = none ∧ query.offset = none ∧
        query.otherClauses = [] := by
  rw [SqlQuery.clauses, QueryClauses.plain, QueryClauses.mk.injEq, Option.map_eq_none_iff, Option.map_eq_none_iff]
  refine and_congr_left fun _ => ?_
  rcases query.orderBy with _ | kind
  · exact iff_of_true rfl nofun
  · cases kind with
    | all => exact iff_of_false nofun fun h => nomatch h _ rfl
    | expressions exprs =>
        constructor
        · rintro h kind ⟨⟩
          rw [List.map_eq_nil_iff.mp (Option.some.inj h)]
        · intro h
          rw [SqlOrderByKind.expressions.inj (h _ rfl)]
          rfl

/-- The rows of an INSERT say its source exactly if that is VALUES and nothing else. -/
theorem sourceSense_eq_iff {source : Option SqlQuery} {values : List (List Datum)}
    (hvalues : convertSource uuidv7 source = .ok values)
    (hagree : ∀ expr ∈ sourceLiterals source, ∀ datum, sqlExprToDatum uuidv7 expr = .ok datum →
      literal datum = sqlLiteral expr) :
    .values (values.map fun row => row.map literal) .plain = sourceSense sqlValue sqlLiteral source ↔
      ∃ query, source = some query ∧ query.IsValues := by
  cases source with
  | none => exact iff_of_false nofun nofun
  | some query =>
      rw [sourceSense]
      simp only [Option.some.injEq, exists_eq_left']
      cases hbody : query.body with
      | select select => exact iff_of_false nofun fun h => by obtain ⟨⟨_, h⟩, -⟩ := h; rw [h] at hbody; cases hbody
      | other text => exact iff_of_false nofun fun h => by obtain ⟨⟨_, h⟩, -⟩ := h; rw [h] at hbody; cases hbody
      | values rows =>
          obtain ⟨body, orderBy, limit, offset, otherClauses⟩ := query
          subst hbody
          have hrows : values.map (fun row => row.map literal) = rows.map fun row => row.map sqlLiteral := by
            refine map_eq_of_mapM_ok hvalues fun row hrow result hresult => ?_
            refine map_eq_of_mapM_ok hresult fun expr hexpr => hagree expr ?_
            exact List.mem_flatten.mpr ⟨row, hrow, hexpr⟩
          dsimp only
          rw [hrows, SourceSense.values.injEq, eq_self, true_and, eq_comm, clauses_eq_plain_iff, SqlQuery.IsValues]
          exact ⟨fun h => ⟨⟨rows, rfl⟩, h⟩, And.right⟩

/-- An INSERT says all of its tree exactly if that is VALUES into a table and nothing else. -/
theorem sense_convertInsert_iff {insert : SqlInsert} {statement : HelionStatement}
    (hconverted : convertInsert uuidv7 insert = .ok statement)
    (hagree : ∀ expr ∈ sqlLiterals (.insert insert), ∀ datum, sqlExprToDatum uuidv7 expr = .ok datum →
      literal datum = sqlLiteral expr) :
    statement.sense value literal = sqlSense sqlValue sqlLiteral (.insert insert) ↔ insert.IsPlain := by
  obtain ⟨name, values, row, htable, hvalues, -, rfl⟩ := convertInsert_ok_iff.mp hconverted
  have hsource := @sourceSense_eq_iff _ _ uuidv7 _ _ sqlValue sqlLiteral literal _ _ hvalues
    fun expr hexpr => hagree expr (List.mem_append_left _ hexpr)
  rw [sqlSense, htable, HelionStatement.sense, StatementSense.insert.injEq, SqlInsert.IsPlain]
  constructor
  · rintro ⟨-, -, hsame, hassignments, hon, hreturning, hother⟩
    have hnone := List.map_eq_nil_iff.mp hassignments.symm
    rw [hnone, List.isEmpty_nil, if_pos rfl, List.append_nil] at hsame
    exact ⟨hsource.mp hsame, hnone, hon.symm, hreturning.symm, hother.symm⟩
  · rintro ⟨hvaluesOnly, hnone, hon, hreturning, hother⟩
    refine ⟨rfl, rfl, ?_, by rw [hnone]; rfl, hon.symm, hreturning.symm, hother.symm⟩
    rw [hnone, List.isEmpty_nil, if_pos rfl, List.append_nil]
    exact hsource.mpr hvaluesOnly

variable [SqlTableText]

omit [CaseMapping] [SqlExprText] in
/-- A table alone says all of what stands there exactly if that is a plain table without joins. -/
theorem named_sense_iff {item : SqlTableWithJoins} :
    TableSense.named (SqlTableText.display item.relation) = item.sense sqlValue ↔
      item.relation.IsPlain ∧ item.joins = [] := by
  rw [TableSense.named, SqlTableWithJoins.sense, TableSense.mk.injEq, named_eq_iff, eq_comm, List.map_eq_nil_iff]
  intro name hname
  rw [hname, SqlTableText.display_table]

omit [CaseMapping] [SqlTableText] in
theorem filter_eq {selection : Option SqlExpr}
    (hagree : ∀ expr ∈ selection.toList, value (sqlExprToExpression expr) = sqlValue expr) :
    (selection.map sqlExprToExpression).map value = selection.map sqlValue := by
  rw [Option.map_map]
  exact Option.map_congr fun expr hexpr => hagree expr (Option.mem_toList.mpr hexpr)

/-- An UPDATE says all of its tree exactly if that changes a table alone and nothing else. -/
theorem sense_convertUpdate_iff {update : SqlUpdate} {statement : HelionStatement}
    (hconverted : convertUpdate uuidv7 update = .ok statement)
    (hexprs : ∀ expr ∈ sqlExprs (.update update), value (sqlExprToExpression expr) = sqlValue expr)
    (hagree : ∀ expr ∈ sqlLiterals (.update update), ∀ datum, sqlExprToDatum uuidv7 expr = .ok datum →
      literal datum = sqlLiteral expr) :
    statement.sense value literal = sqlSense sqlValue sqlLiteral (.update update) ↔ update.IsPlain := by
  obtain ⟨assignments, hassignments, rfl⟩ := convertUpdate_ok_iff.mp hconverted
  have hsame : assignments.map (fun assignment => (SqlAssignmentTarget.columnName assignment.1, literal assignment.2)) =
      update.assignments.map (SqlAssignment.sense sqlLiteral) := by
    refine map_eq_of_mapM_ok hassignments fun assignment hmem converted hconverted => ?_
    obtain ⟨htarget, hdatum⟩ := convertAssignment_ok_iff.mp hconverted
    rw [SqlAssignment.sense, htarget, hagree assignment.value (List.mem_map_of_mem hmem) _ hdatum]
  rw [HelionStatement.sense, sqlSense, StatementSense.update.injEq, named_sense_iff, hsame, filter_eq hexprs, SqlUpdate.IsPlain]
  constructor
  · rintro ⟨⟨hplain, hjoins⟩, -, hfrom, -, hreturning, hother⟩
    exact ⟨hplain, hjoins, hfrom.symm, hreturning.symm, hother.symm⟩
  · rintro ⟨hplain, hjoins, hfrom, hreturning, hother⟩
    exact ⟨⟨hplain, hjoins⟩, rfl, hfrom.symm, rfl, hreturning.symm, hother.symm⟩

omit [CaseMapping] in
/-- A DELETE says all of its tree exactly if that names a table alone after FROM and nothing else. -/
theorem sense_convertDelete_iff {delete : SqlDelete}
    (hexprs : ∀ expr ∈ sqlExprs (.delete delete), value (sqlExprToExpression expr) = sqlValue expr) :
    (convertDelete delete).sense value literal = sqlSense sqlValue sqlLiteral (.delete delete) ↔ delete.IsPlain := by
  have hfrom : [TableSense.named ((delete.from.head?.map fun table => SqlTableText.display table.relation).getD "")] =
      delete.from.map (SqlTableWithJoins.sense sqlValue) ↔
      ∃ factor, delete.from = [{ relation := factor, joins := [] }] ∧ factor.IsPlain := by
    cases hitems : delete.from with
    | nil => exact iff_of_false nofun nofun
    | cons item rest =>
        obtain ⟨relation, joins⟩ := item
        rw [List.map_cons, List.cons.injEq, List.head?_cons, Option.map_some, Option.getD_some, named_sense_iff]
        constructor
        · rintro ⟨⟨hplain, rfl⟩, hrest⟩
          exact ⟨relation, by rw [List.map_eq_nil_iff.mp hrest.symm], hplain⟩
        · rintro ⟨factor, hone, hplain⟩
          obtain ⟨⟨⟩, rfl⟩ := List.cons.inj hone
          exact ⟨⟨hplain, rfl⟩, rfl⟩
  rw [convertDelete, HelionStatement.sense, sqlSense, StatementSense.delete.injEq, hfrom, filter_eq hexprs, SqlDelete.IsPlain]
  constructor
  · rintro ⟨htables, hplain, husing, -, hreturning, horder, hlimit⟩
    exact ⟨htables.symm, hplain, husing.symm, hreturning.symm, List.map_eq_nil_iff.mp horder.symm,
      Option.map_eq_none_iff.mp hlimit.symm⟩
  · rintro ⟨htables, hplain, husing, hreturning, horder, hlimit⟩
    exact ⟨htables.symm, hplain, husing.symm, rfl, hreturning.symm, by rw [horder]; rfl, by rw [hlimit]; rfl⟩

end

end

/-! ### Statements -/

section

variable [CaseMapping] [Rendering] [SqlExprText] [SqlTableText] (uuidv7 : BitVec 128)

/-- A tree whose senses are told apart by a condition is converted whole exactly if it is rejected or meets that. -/
theorem convertsWhole_iff_of_sense {tree : SqlStatement} {plain : Prop}
    (hsense : ∀ statement, convertStatement uuidv7 tree = .ok statement →
      ∀ (V D : Type) (sqlValue : SqlExpr → V) (value : Expression → V) (sqlLiteral : SqlExpr → D) (literal : Datum → D),
        (∀ expr ∈ sqlExprs tree, value (sqlExprToExpression expr) = sqlValue expr) →
        (∀ expr ∈ sqlLiterals tree, ∀ datum, sqlExprToDatum uuidv7 expr = .ok datum → literal datum = sqlLiteral expr) →
          (statement.sense value literal = sqlSense sqlValue sqlLiteral tree ↔ plain)) :
    ConvertsWhole uuidv7 tree ↔ (¬ ∃ statement, convertStatement uuidv7 tree = .ok statement) ∨ plain := by
  constructor
  · intro h
    refine or_iff_not_imp_left.mpr fun haccepted => ?_
    obtain ⟨statement, hstatement⟩ := not_not.mp haccepted
    exact (hsense statement hstatement Unit Unit (fun _ => ()) (fun _ => ()) (fun _ => ()) (fun _ => ()) (fun _ _ => rfl)
      fun _ _ _ _ => rfl).mp (h statement hstatement _ _ _ _ _ _ (fun _ _ => rfl) fun _ _ _ _ => rfl)
  · rintro (hrejected | hplain) statement hstatement V D sqlValue value sqlLiteral literal hexprs hagree
    · exact absurd ⟨statement, hstatement⟩ hrejected
    · exact (hsense statement hstatement V D sqlValue value sqlLiteral literal hexprs hagree).mpr hplain

/-- A statement of a kind that says nothing here is converted to another one. -/
theorem convertsWhole_of_unsupported {tree : SqlStatement}
    (h : ∀ statement, convertStatement uuidv7 tree = .ok statement → ∀ (V D : Type) (sqlValue : SqlExpr → V)
      (value : Expression → V) (sqlLiteral : SqlExpr → D) (literal : Datum → D),
        statement.sense value literal = sqlSense sqlValue sqlLiteral tree) : ConvertsWhole uuidv7 tree :=
  fun statement hconverted V D sqlValue value sqlLiteral literal _ _ =>
    h statement hconverted V D sqlValue value sqlLiteral literal

/-- A statement is converted whole or rejected exactly if it is of another kind, or rejected for its first FROM item, its
table, a target or a literal, or plain in all of its parts. -/
theorem convertsWhole_iff {tree : SqlStatement} :
    ConvertsWhole uuidv7 tree ↔ tree.IsRefused uuidv7 ∨ tree.IsPlain := by
  cases tree with
  | query query =>
      obtain ⟨body, orderBy, limit, offset, otherClauses⟩ := query
      cases body with
      | select select => exact convertsWhole_query_iff uuidv7 rfl
      | values rows => exact iff_of_true (convertsWhole_of_unsupported uuidv7 nofun) (.inr trivial)
      | other text => exact iff_of_true (convertsWhole_of_unsupported uuidv7 nofun) (.inr trivial)
  | insert insert =>
      rw [convertsWhole_iff_of_sense uuidv7 fun statement hconverted V D sqlValue value sqlLiteral literal _ hagree =>
        sense_convertInsert_iff hconverted hagree]
      refine or_congr ?_ Iff.rfl
      rw [convertStatement, exists_convertInsert_iff, not_and_or, SqlStatement.IsRefused, exists_datum_error_iff]
      refine or_congr ?_ Iff.rfl
      cases insert.table with
      | tableName name => exact iff_of_false (fun h => h ⟨name, rfl⟩) nofun
      | tableFunction text => exact iff_of_true nofun ⟨text, rfl⟩
  | update update =>
      rw [convertsWhole_iff_of_sense uuidv7 fun statement hconverted V D sqlValue value sqlLiteral literal hexprs hagree =>
        sense_convertUpdate_iff hconverted hexprs hagree]
      refine or_congr ?_ Iff.rfl
      rw [convertStatement, exists_convertUpdate_iff, not_and_or, SqlStatement.IsRefused, exists_datum_error_iff]
      refine or_congr ?_ Iff.rfl
      push Not
      refine exists_congr fun assignment => and_congr_right fun _ => ?_
      cases assignment.target with
      | columnName name => exact iff_of_false (fun h => h name rfl) nofun
      | tuple names => exact iff_of_true nofun ⟨names, rfl⟩
  | delete delete =>
      rw [convertsWhole_iff_of_sense uuidv7 fun statement hconverted V D sqlValue value sqlLiteral literal hexprs _ => by
        obtain rfl := Except.ok.inj hconverted
        exact sense_convertDelete_iff hexprs]
      exact or_congr (iff_of_false (fun h => h ⟨_, rfl⟩) id) Iff.rfl
  | createTable create =>
      refine iff_of_true (convertsWhole_of_unsupported uuidv7 fun statement hconverted => ?_) (.inr trivial)
      obtain ⟨columns, -, hstatement⟩ := Loop.bind_ok_iff.mp hconverted
      obtain rfl := Except.ok.inj hstatement
      exact fun _ _ _ _ _ _ => rfl
  | explain analyze verbose statement =>
      refine iff_of_true (convertsWhole_of_unsupported uuidv7 fun statement hconverted => ?_) (.inr trivial)
      obtain rfl := Except.ok.inj hconverted
      exact fun _ _ _ _ _ _ => rfl
  | drop isTable ifExists names =>
      refine iff_of_true (convertsWhole_of_unsupported uuidv7 fun statement hconverted => ?_) (.inr trivial)
      rw [convertStatement] at hconverted
      split at hconverted
      · obtain rfl := Except.ok.inj hconverted
        exact fun _ _ _ _ _ _ => rfl
      · cases hconverted
  | other text => exact iff_of_true (convertsWhole_of_unsupported uuidv7 nofun) (.inr trivial)

end

namespace TwoTables

open AsciiCase PlainText

/-- `SELECT DISTINCT * FROM a`. -/
def selectDistinct : SqlStatement :=
  .query (.mk (.select { selectFrom [⟨table "a", []⟩] with distinct := true }) none none none [])

/-- `SELECT * FROM a ORDER BY x NULLS FIRST`. -/
def selectNullsFirst : SqlStatement :=
  .query { query [⟨table "a", []⟩] with
    orderBy := some (.expressions [{ expr := column "a" "x", asc := none, nullsFirst := some true }]) }

/-- `SELECT * FROM a LIMIT a.x`. -/
def selectLimit : SqlStatement := .query { query [⟨table "a", []⟩] with limit := some (column "a" "x") }

/-- `INSERT INTO a SELECT * FROM b`. -/
def insertSelect : SqlStatement :=
  .insert {
    table := .tableName "a"
    columns := []
    source := some (query [⟨table "b", []⟩])
    assignments := []
    on := false
    returning := false
    otherClauses := [] }

/-- `UPDATE a SET x = NULL FROM b`. -/
def updateFrom : SqlStatement :=
  .update {
    table := ⟨table "a", []⟩
    assignments := [{ target := .columnName "x", value := .value .null }]
    «from» := true
    selection := none
    returning := false
    otherClauses := [] }

/-- `DELETE FROM a USING b`. -/
def deleteUsing : SqlStatement :=
  .delete {
    tables := []
    «from» := [⟨table "a", []⟩]
    «using» := true
    selection := none
    returning := false
    orderBy := []
    limit := none }

/-- DISTINCT, NULLS FIRST, a LIMIT that is no number, the query of an INSERT, FROM of an UPDATE and USING of a DELETE are
all dropped, and none of the trees is rejected. -/
theorem not_convertsWhole :
    ¬ ConvertsWhole 0 selectDistinct ∧ ¬ ConvertsWhole 0 selectNullsFirst ∧ ¬ ConvertsWhole 0 selectLimit ∧
      ¬ ConvertsWhole 0 insertSelect ∧ ¬ ConvertsWhole 0 updateFrom ∧ ¬ ConvertsWhole 0 deleteUsing := by
  have hdropped {tree : SqlStatement} {statement : HelionStatement} (hconverted : convertStatement 0 tree = .ok statement)
      (hdiffer : (statement.sense (fun _ => ()) fun _ => () : StatementSense Unit Unit) ≠
        sqlSense (fun _ => ()) (fun _ => ()) tree) : ¬ ConvertsWhole 0 tree :=
    fun h => hdiffer (h statement hconverted _ _ _ _ _ _ (fun _ _ => rfl) fun _ _ _ _ => rfl)
  exact ⟨hdropped rfl nofun, hdropped rfl nofun, hdropped rfl nofun, hdropped rfl nofun, hdropped rfl nofun,
    hdropped rfl nofun⟩

end TwoTables

end HelionDb
