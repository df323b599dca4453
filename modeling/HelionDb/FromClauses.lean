import HelionDb.Query
import HelionDb.SqlStatement

/-! FROM clauses and what `extract_joins` makes of them. A clause denotes a relation: the product of its items, each a
table with joins. The conversion keeps the first item, four kinds of joins and an ON; a join of any other kind or with
another constraint becomes an inner join without a condition. What the conditions themselves convert to is left open
here: the two sides only have to give them the same truth. -/

namespace HelionDb

open Expression (TableSlot)

/-- The rows of a FROM clause, with the tables that they are pieced together from. -/
structure Relation where
  slots : List TableSlot
  rows : DataRows

/-- The kinds of joins that have a meaning by a condition on pairs of rows. -/
inductive JoinKind where
  | inner
  | left
  | right
  | full
  deriving DecidableEq, Repr

namespace Relation

/-- The join of two relations: the pairs that meet the condition, and the rows without a partner that the kind keeps. -/
def join (kind : JoinKind) (on : List Datum → Bool) (left right : Relation) : Relation :=
  let matched := left.rows.flatMap fun l => (right.rows.filter fun r => on (l ++ r)).map (l ++ ·)
  let leftOnly := (left.rows.filter fun l => !right.rows.any fun r => on (l ++ r)).map
    (· ++ List.replicate (slotsWidth right.slots) .null)
  let rightOnly := (right.rows.filter fun r => !left.rows.any fun l => on (l ++ r)).map
    (List.replicate (slotsWidth left.slots) .null ++ ·)
  { slots := joinSlots left.slots right.slots
    rows :=
      match kind with
      | .inner => matched
      | .left => matched ++ leftOnly
      | .right => matched ++ rightOnly
      | .full => matched ++ leftOnly ++ rightOnly }

/-- The product of two relations. -/
def product (left right : Relation) : Relation := left.join .inner (fun _ => true) right

/-- The names that the tables of a relation go by. -/
def names (relation : Relation) : List String := relation.slots.map TableSlot.name

theorem names_join (kind : JoinKind) (on : List Datum → Bool) (left right : Relation) :
    (left.join kind on right).names = left.names ++ right.names := by
  simp [names, join, joinSlots, shiftSlots]

end Relation

/-- The tables that there are: columns and rows. -/
abbrev StoredTables := String → Option (List ColumnMeta × DataRows)

/-- A table as a relation under a name. -/
def StoredTables.relation (tables : StoredTables) (table name : String) : Option Relation :=
  (tables table).map fun stored => { slots := [{ name, offset := 0, columns := stored.1 }], rows := stored.2 }

/-! ### The relation of the text

`truth` says whether a condition holds of a row of some tables. -/

section

variable [SqlExprText] (truth : SqlExpr → List TableSlot → List Datum → Bool) (tables : StoredTables)

/-- The name that a table goes by: its alias, if it has one. -/
def SqlTableFactor.shownName : SqlTableFactor → String
  | .table name aliasName _ => (aliasName.map Ident.text).getD name
  | .other text => text

/-- A table under its alias; samples, hints, derived tables and the like are given no meaning here. -/
def SqlTableFactor.denoted (factor : SqlTableFactor) : Option Relation :=
  match factor with
  | .table name _ false => tables.relation name factor.shownName
  | .table _ _ true | .other _ => none

/-- The kind of a join and its constraint; semi joins and the like are given no meaning here. -/
def SqlJoinOperator.kind : SqlJoinOperator → Option (JoinKind × SqlJoinConstraint)
  | .join constraint | .inner constraint => some (.inner, constraint)
  | .left constraint | .leftOuter constraint => some (.left, constraint)
  | .right constraint | .rightOuter constraint => some (.right, constraint)
  | .fullOuter constraint => some (.full, constraint)
  | .crossJoin => some (.inner, .none)
  | .other _ => none

/-- The condition of a constraint; NATURAL and USING also merge columns and are given no meaning here. -/
def SqlJoinConstraint.holds (slots : List TableSlot) : SqlJoinConstraint → Option (List Datum → Bool)
  | .on expr => some (truth expr slots)
  | .none => some fun _ => true
  | .using _ | .natural => Option.none

/-- A relation joined with one more table. -/
def SqlJoin.denoted (left : Relation) (join : SqlJoin) : Option Relation := do
  let right ← join.relation.denoted tables
  let (kind, constraint) ← join.joinOperator.kind
  let holds ← constraint.holds truth (joinSlots left.slots right.slots)
  return left.join kind holds right

/-- A table with its joins, from left to right. -/
def SqlTableWithJoins.denoted (item : SqlTableWithJoins) : Option Relation := do
  let first ← item.relation.denoted tables
  item.joins.foldlM (SqlJoin.denoted truth tables) first

/-- The product of the items of a FROM clause. -/
def fromRelation (items : List SqlTableWithJoins) : Option Relation :=
  match items with
  | [] => none
  | first :: rest => do
      let relation ← first.denoted truth tables
      rest.foldlM (fun left item => (item.denoted truth tables).map left.product) relation

end

section

variable (truth : Expression → List TableSlot → List Datum → Bool) (tables : StoredTables)

/-- The kind of a join clause. -/
def JoinType.kind : JoinType → JoinKind
  | .inner | .cross => .inner
  | .left => .left
  | .right => .right

/-- A relation joined with the table of a clause; without an ON every pair meets it. -/
def JoinClause.denoted (left : Relation) (clause : JoinClause) : Option Relation := do
  let right ← tables.relation clause.rightTable clause.rightTable
  let holds :=
    match clause.onClause with
    | some expr => truth expr (joinSlots left.slots right.slots)
    | none => fun _ => true
  return left.join clause.joinType.kind holds right

/-- The relation that a statement selects from. -/
def SelectStatement.selected (statement : SelectStatement) : Option Relation := do
  let first ← tables.relation statement.tableName statement.tableName
  statement.joins.foldlM (JoinClause.denoted truth tables) first

end

/-- A plain table: no alias, no addition, no derived table. -/
def SqlTableFactor.IsPlain : SqlTableFactor → Prop
  | .table _ aliasName modified => aliasName = none ∧ modified = false
  | .other _ => False

/-- A table of the engine under its own name: an alias is no other name, and nothing is added. -/
def SqlTableFactor.IsOwn [SqlExprText] : SqlTableFactor → Prop
  | .table name aliasName modified => (∀ other ∈ aliasName, other.text = name) ∧ modified = false
  | .other _ => False

/-- A constraint that a clause has: an ON or none. -/
def SqlJoinConstraint.IsPlain : SqlJoinConstraint → Prop
  | .on _ | .none => True
  | .using _ | .natural => False

/-- A join of a kind and with a constraint that a clause has. -/
def SqlJoinOperator.IsPlain : SqlJoinOperator → Prop
  | .join constraint | .inner constraint | .left constraint | .leftOuter constraint | .right constraint
  | .rightOuter constraint => constraint.IsPlain
  | .crossJoin => True
  | .fullOuter _ | .other _ => False

/-- A table with joins of which the engine can represent every part. -/
def SqlTableWithJoins.IsPlain (item : SqlTableWithJoins) : Prop :=
  item.relation.IsPlain ∧ ∀ join ∈ item.joins, join.relation.IsPlain ∧ join.joinOperator.IsPlain

/-- A table with joins, all tables under their own names, of kinds and with constraints that clauses have. -/
def SqlTableWithJoins.IsOwn [SqlExprText] (item : SqlTableWithJoins) : Prop :=
  item.relation.IsOwn ∧ ∀ join ∈ item.joins, join.relation.IsOwn ∧ join.joinOperator.IsPlain

/-- The condition of an ON. -/
def SqlJoinConstraint.condition? : SqlJoinConstraint → Option SqlExpr
  | .on expr => some expr
  | _ => Option.none

def SqlJoinOperator.condition? (operator : SqlJoinOperator) : Option SqlExpr :=
  operator.kind.bind fun found => found.2.condition?

/-- The conditions of a FROM clause. -/
def fromConditions (items : List SqlTableWithJoins) : List SqlExpr :=
  items.flatMap fun item => item.joins.filterMap fun join => join.joinOperator.condition?

/-- The FROM clause of a query is rejected, or the engine can represent every kind and constraint in it and the statement
selects from the relation that the clause denotes, whatever the tables and whatever the conditions mean, if they mean
what they are converted to. -/
def ConvertsFrom [SqlExprText] [SqlTableText] (query : SqlQuery) (select : SqlSelect) : Prop :=
  ∀ statement, convertSelect query select = .ok statement →
    (∀ item ∈ select.from, ∀ join ∈ item.joins, join.joinOperator.IsPlain) ∧
      ∀ (sqlTruth : SqlExpr → List TableSlot → List Datum → Bool) (truth : Expression → List TableSlot → List Datum → Bool),
        (∀ expr ∈ fromConditions select.from, truth (sqlExprToExpression expr) = sqlTruth expr) →
          ∀ tables, statement.selected truth tables = fromRelation sqlTruth tables select.from

section

variable [SqlExprText] [SqlTableText] {sqlTruth : SqlExpr → List TableSlot → List Datum → Bool}
  {truth : Expression → List TableSlot → List Datum → Bool} {tables : StoredTables}

omit [SqlTableText] in
theorem SqlTableFactor.denoted_of_own {factor : SqlTableFactor} (h : factor.IsOwn) :
    ∃ name aliasName, factor = .table name aliasName false ∧ factor.denoted tables = tables.relation name name := by
  cases factor with
  | table name aliasName modified =>
      obtain ⟨halias, rfl⟩ := h
      refine ⟨name, aliasName, rfl, ?_⟩
      cases aliasName with
      | none => rfl
      | some other => exact congrArg (tables.relation name) (halias other rfl)
  | other text => exact h.elim

omit [SqlTableText] in
theorem SqlTableFactor.of_denoted {factor : SqlTableFactor} {relation : Relation}
    (h : factor.denoted tables = some relation) :
    ∃ name aliasName, factor = .table name aliasName false ∧ relation.names = [factor.shownName] := by
  cases factor with
  | other text => cases h
  | table name aliasName modified =>
      cases modified with
      | true => cases h
      | false =>
          obtain ⟨stored, -, rfl⟩ := Option.map_eq_some_iff.mp h
          exact ⟨name, aliasName, rfl, rfl⟩

/-- A join of a table under its own name is the clause that it is converted to. -/
theorem denoted_convertJoin {join : SqlJoin} (hrelation : join.relation.IsOwn) (hoperator : join.joinOperator.IsPlain)
    (hagree : ∀ expr, join.joinOperator.condition? = some expr → truth (sqlExprToExpression expr) = sqlTruth expr)
    (left : Relation) : JoinClause.denoted truth tables left (convertJoin join) = SqlJoin.denoted sqlTruth tables left join := by
  obtain ⟨relation, joinOperator⟩ := join
  obtain ⟨name, aliasName, rfl, hdenoted⟩ := @SqlTableFactor.denoted_of_own _ tables _ hrelation
  -- Whatever the kind, what is left to compare is the condition.
  have hcompare {kind : JoinKind} {constraint : SqlJoinConstraint} (joinType : JoinType) (hkind : joinType.kind = kind)
      (hconstraint : constraint.IsPlain)
      (hagree : ∀ expr, constraint.condition? = some expr → truth (sqlExprToExpression expr) = sqlTruth expr)
      (hfound : joinOperator.kind = some (kind, constraint))
      (hconverted : convertJoinOperator joinOperator = (joinType, constraintToExpr constraint)) :
      JoinClause.denoted truth tables left (convertJoin ⟨.table name aliasName false, joinOperator⟩) =
        SqlJoin.denoted sqlTruth tables left ⟨.table name aliasName false, joinOperator⟩ := by
    rw [SqlJoin.denoted, JoinClause.denoted, convertJoin, hfound, hconverted, ← hkind, hdenoted]
    cases tables.relation name name with
    | none => rfl
    | some right =>
        cases constraint with
        | on expr =>
            show some _ = some _
            rw [← hagree expr rfl]
            rfl
        | none => rfl
        | «using» columns => exact hconstraint.elim
        | natural => exact hconstraint.elim
  cases joinOperator with
  | join constraint => exact hcompare .inner rfl hoperator hagree rfl rfl
  | inner constraint => exact hcompare .inner rfl hoperator hagree rfl rfl
  | left constraint => exact hcompare .left rfl hoperator hagree rfl rfl
  | leftOuter constraint => exact hcompare .left rfl hoperator hagree rfl rfl
  | right constraint => exact hcompare .right rfl hoperator hagree rfl rfl
  | rightOuter constraint => exact hcompare .right rfl hoperator hagree rfl rfl
  | crossJoin => exact @hcompare _ .none .cross rfl trivial nofun rfl rfl
  | fullOuter constraint => exact hoperator.elim
  | other name => exact hoperator.elim

/-- The joins of a table are the clauses that they are converted to, one after another. -/
theorem foldlM_convertJoin {joins : List SqlJoin}
    (hplain : ∀ join ∈ joins, join.relation.IsOwn ∧ join.joinOperator.IsPlain)
    (hagree : ∀ expr ∈ joins.filterMap fun join => join.joinOperator.condition?,
      truth (sqlExprToExpression expr) = sqlTruth expr) (left : Relation) :
    (joins.map convertJoin).foldlM (JoinClause.denoted truth tables) left =
      joins.foldlM (SqlJoin.denoted sqlTruth tables) left := by
  induction joins generalizing left with
  | nil => rfl
  | cons join rest ih =>
      obtain ⟨⟨hrelation, hoperator⟩, hrest⟩ := List.forall_mem_cons.mp hplain
      have hfirst : JoinClause.denoted truth tables left (convertJoin join) =
          SqlJoin.denoted sqlTruth tables left join := by
        refine denoted_convertJoin hrelation hoperator (fun expr hexpr => hagree expr ?_) left
        exact List.mem_filterMap.mpr ⟨join, List.mem_cons_self, hexpr⟩
      rw [List.map_cons, List.foldlM_cons, List.foldlM_cons, hfirst]
      congr 1
      funext next
      refine ih hrest (fun expr hexpr => hagree expr ?_) next
      obtain ⟨other, hother, hcondition⟩ := List.mem_filterMap.mp hexpr
      exact List.mem_filterMap.mpr ⟨other, List.mem_cons_of_mem _ hother, hcondition⟩

/-- Tables that all exist and have nothing in them. -/
def StoredTables.empty : StoredTables := fun _ => some ([], [])

omit [SqlTableText] in
/-- Joins that have a relation name the tables they go by, and no table in them has an addition. -/
theorem names_foldlM_joins {joins : List SqlJoin} {left relation : Relation}
    (h : joins.foldlM (SqlJoin.denoted sqlTruth tables) left = some relation) :
    relation.names = left.names ++ joins.map (·.relation.shownName) ∧
      ∀ join ∈ joins, ∃ name aliasName, join.relation = .table name aliasName false := by
  induction joins generalizing left with
  | nil =>
      obtain rfl := Option.some.inj h
      exact ⟨(List.append_nil _).symm, by simp⟩
  | cons join rest ih =>
      obtain ⟨next, hnext, hrest⟩ := Option.bind_eq_some_iff.mp h
      obtain ⟨right, hright, hnext⟩ := Option.bind_eq_some_iff.mp hnext
      obtain ⟨⟨kind, constraint⟩, -, hnext⟩ := Option.bind_eq_some_iff.mp hnext
      obtain ⟨holds, -, hnext⟩ := Option.bind_eq_some_iff.mp hnext
      obtain rfl := Option.some.inj hnext
      obtain ⟨name, aliasName, htable, hnames⟩ := SqlTableFactor.of_denoted hright
      obtain ⟨hrelation, htables⟩ := ih hrest
      refine ⟨?_, List.forall_mem_cons.mpr ⟨⟨name, aliasName, htable⟩, htables⟩⟩
      rw [hrelation, Relation.names_join, hnames, List.append_assoc]
      rfl

omit [SqlTableText] in
theorem names_item {item : SqlTableWithJoins} {relation : Relation}
    (h : item.denoted sqlTruth tables = some relation) :
    relation.names = item.relation.shownName :: item.joins.map (·.relation.shownName) ∧
      (∃ name aliasName, item.relation = .table name aliasName false) ∧
        ∀ join ∈ item.joins, ∃ name aliasName, join.relation = .table name aliasName false := by
  obtain ⟨first, hfirst, hjoins⟩ := Option.bind_eq_some_iff.mp h
  obtain ⟨name, aliasName, htable, hnames⟩ := SqlTableFactor.of_denoted hfirst
  obtain ⟨hrelation, htables⟩ := names_foldlM_joins hjoins
  rw [hnames] at hrelation
  exact ⟨hrelation, ⟨name, aliasName, htable⟩, htables⟩

omit [SqlTableText] in
/-- Every further item of a FROM clause adds a table. -/
theorem length_names_product {items : List SqlTableWithJoins} {left relation : Relation}
    (h : items.foldlM (fun left item => (item.denoted sqlTruth tables).map left.product) left = some relation) :
    left.names.length + items.length ≤ relation.names.length := by
  induction items generalizing left with
  | nil =>
      obtain rfl := Option.some.inj h
      exact le_rfl
  | cons item rest ih =>
      obtain ⟨next, hnext, hrest⟩ := Option.bind_eq_some_iff.mp h
      obtain ⟨right, hright, rfl⟩ := Option.map_eq_some_iff.mp hnext
      have hlength := ih hrest
      rw [Relation.product, Relation.names_join, (names_item hright).1] at hlength
      simp only [List.length_append, List.length_cons] at hlength ⊢
      omega

omit [SqlExprText] [SqlTableText] in
/-- Over tables that all exist, the clauses of a statement name the tables that they name. -/
theorem names_foldlM_clauses (clauses : List JoinClause) (left : Relation) :
    ∃ relation, clauses.foldlM (JoinClause.denoted truth .empty) left = some relation ∧
      relation.names = left.names ++ clauses.map JoinClause.rightTable := by
  induction clauses generalizing left with
  | nil => exact ⟨left, rfl, (List.append_nil _).symm⟩
  | cons clause rest ih =>
      obtain ⟨relation, hfold, hnames⟩ := ih
        (left.join clause.joinType.kind
          (match clause.onClause with
            | some expr => truth expr (joinSlots left.slots [⟨clause.rightTable, 0, []⟩])
            | none => fun _ => true)
          { slots := [⟨clause.rightTable, 0, []⟩], rows := [] })
      refine ⟨relation, hfold, ?_⟩
      rw [hnames, Relation.names_join, List.append_assoc]
      rfl

/-! ### FROM clauses -/

variable {query : SqlQuery} {select : SqlSelect}

theorem selected_eq_fromRelation {item : SqlTableWithJoins} {statement : SelectStatement} (hown : item.IsOwn)
    (hfrom : select.from = [item]) (hconverted : convertSelect query select = .ok statement)
    (hagree : ∀ expr ∈ fromConditions select.from, truth (sqlExprToExpression expr) = sqlTruth expr) :
    statement.selected truth tables = fromRelation sqlTruth tables select.from := by
  obtain ⟨name, aliasName, hname, hdenoted⟩ := @SqlTableFactor.denoted_of_own _ tables _ hown.1
  rw [convertSelect, hfrom] at hconverted
  dsimp only at hconverted
  rw [hname] at hconverted
  obtain rfl := Except.ok.inj hconverted
  rw [hfrom] at hagree ⊢
  rw [SelectStatement.selected, fromRelation, SqlTableWithJoins.denoted, hdenoted]
  dsimp only
  cases tables.relation name name with
  | none => rfl
  | some first =>
      have hjoins := @foldlM_convertJoin _ _ sqlTruth truth tables item.joins hown.2
        (fun expr hexpr => hagree expr (List.mem_flatMap.mpr ⟨item, List.mem_singleton_self item, hexpr⟩)) first
      show (extractJoins item).foldlM _ first = item.joins.foldlM _ first >>= fun relation => some relation
      rw [extractJoins, hjoins]
      exact (bind_pure _).symm

omit [SqlTableText] in
theorem SqlTableFactor.isOwn_of_shownName {name : String} {aliasName : Option Ident}
    (h : (SqlTableFactor.table name aliasName false).shownName = name) :
    (SqlTableFactor.table name aliasName false).IsOwn := by
  refine ⟨?_, rfl⟩
  rintro other ⟨⟩
  exact h

/-- Where the statement selects from the relation of the text over tables that all exist, there is one item, and its
tables go by their own names. -/
theorem isOwn_of_selected {item : SqlTableWithJoins} {rest : List SqlTableWithJoins} {name : String}
    {aliasName : Option Ident} {modified : Bool} {statement : SelectStatement}
    (hrelation : item.relation = .table name aliasName modified) (hname : statement.tableName = name)
    (hjoins : statement.joins = extractJoins item)
    (hplain : ∀ join ∈ item.joins, join.joinOperator.IsPlain)
    (hsame : statement.selected truth .empty = fromRelation sqlTruth .empty (item :: rest)) :
    rest = [] ∧ item.IsOwn := by
  obtain ⟨selected, hselected, hclauses⟩ := @names_foldlM_clauses truth statement.joins
    { slots := [⟨statement.tableName, 0, []⟩], rows := [] }
  have hall : fromRelation sqlTruth .empty (item :: rest) = some selected := by
    rw [← hsame]
    exact hselected
  obtain ⟨first, hfirst, hproduct⟩ := Option.bind_eq_some_iff.mp hall
  obtain ⟨hnames, ⟨_, _, htable⟩, htables⟩ := names_item hfirst
  obtain ⟨rfl, rfl, rfl⟩ : name = _ ∧ aliasName = _ ∧ modified = _ := by simpa [hrelation] using htable
  have hlength := length_names_product hproduct
  have hclauses' : selected.names = name :: item.joins.map fun join => (convertJoin join).rightTable := by
    rw [hclauses, hjoins, hname, extractJoins, List.map_map]
    rfl
  obtain rfl : rest = [] := by
    apply List.length_eq_zero_iff.mp
    rw [hnames, hclauses'] at hlength
    simp only [List.length_cons, List.length_map] at hlength
    omega
  obtain rfl := Option.some.inj hproduct
  rw [hnames, List.cons.injEq] at hclauses'
  obtain ⟨hfirstName, hjoinNames⟩ := hclauses'
  refine ⟨rfl, ?_, fun join hjoin => ⟨?_, hplain join hjoin⟩⟩
  · rw [hrelation] at hfirstName ⊢
    exact SqlTableFactor.isOwn_of_shownName hfirstName
  · obtain ⟨joinName, joinAlias, hjoined⟩ := htables join hjoin
    have hown := List.map_eq_map_iff.mp hjoinNames join hjoin
    rw [convertJoin, hjoined] at hown
    rw [hjoined]
    exact SqlTableFactor.isOwn_of_shownName hown

/-- A FROM clause is converted to the relation that it denotes, or rejected, exactly if its first item is no table, or
there is one item with tables under their own names, kinds that a clause has, and ON or no constraint. -/
theorem convertsFrom_iff :
    ConvertsFrom query select ↔
      (∀ item ∈ select.from.head?, ∃ text, item.relation = .other text) ∨
        ∃ item, select.from = [item] ∧ item.IsOwn := by
  constructor
  · intro h
    cases hfrom : select.from with
    | nil => exact .inl nofun
    | cons item rest =>
        cases hrelation : item.relation with
        | other text =>
            left
            rintro other ⟨⟩
            exact ⟨text, hrelation⟩
        | table name aliasName modified =>
            right
            obtain ⟨statement, hstatement, hname, hjoins⟩ : ∃ statement, convertSelect query select = .ok statement ∧
                statement.tableName = name ∧ statement.joins = extractJoins item := by
              rw [convertSelect, hfrom]
              dsimp only
              rw [hrelation]
              exact ⟨_, rfl, rfl, rfl⟩
            obtain ⟨hplain, hsame⟩ := h statement hstatement
            rw [hfrom] at hplain hsame
            have hsame := hsame (fun _ _ _ => true) (fun _ _ _ => true) (fun _ _ => rfl) .empty
            obtain ⟨rfl, hown⟩ := isOwn_of_selected hrelation hname hjoins (hplain item List.mem_cons_self) hsame
            exact ⟨item, rfl, hown⟩
  · rintro (hrejected | ⟨item, hfrom, hown⟩) statement hstatement
    · rw [convertSelect] at hstatement
      cases hfrom : select.from with
      | nil =>
          rw [hfrom] at hstatement
          cases hstatement
      | cons item rest =>
          rw [hfrom] at hstatement hrejected
          obtain ⟨text, htext⟩ := hrejected item rfl
          dsimp only at hstatement
          rw [htext] at hstatement
          cases hstatement
    · refine ⟨fun other hother => ?_, fun sqlTruth truth hagree tables =>
        selected_eq_fromRelation hown hfrom hstatement hagree⟩
      rw [hfrom] at hother
      obtain rfl := List.mem_singleton.mp hother
      exact fun join hjoin => (hown.2 join hjoin).2

end

namespace TwoTables

open scoped PlainText

def table (name : String) : SqlTableFactor := .table name none false

def column (tableName name : String) : SqlExpr :=
  .compoundIdentifier [{ value := tableName, quoteStyle := none }, { value := name, quoteStyle := none }]

/-- `SELECT * FROM` with a clause. -/
def selectFrom (items : List SqlTableWithJoins) : SqlSelect where
  distinct := false
  projection := [.wildcard]
  «from» := items
  selection := none
  groupBy := []
  having := none
  otherClauses := []

def query (items : List SqlTableWithJoins) : SqlQuery where
  body := .select (selectFrom items)
  orderBy := none
  limit := none
  offset := none
  otherClauses := []

/-- `a FULL JOIN b ON a.x = b.x`. -/
def fullJoin : SqlTableWithJoins where
  relation := table "a"
  joins := [{ relation := table "b", joinOperator := .fullOuter (.on (.binaryOp (column "a" "x") .eq (column "b" "x"))) }]

/-- `a JOIN b USING (x)`. -/
def joinUsing : SqlTableWithJoins where
  relation := table "a"
  joins := [{ relation := table "b", joinOperator := .join (.using ["x"]) }]

/-- `a NATURAL LEFT JOIN b`. -/
def naturalJoin : SqlTableWithJoins where
  relation := table "a"
  joins := [{ relation := table "b", joinOperator := .left .natural }]

/-- The full join becomes an inner join without a condition, the other two lose their constraints, and of `a, b` only the
first table is left; none of them is rejected. -/
theorem not_convertsFrom :
    ¬ ConvertsFrom (query [fullJoin]) (selectFrom [fullJoin]) ∧
      ¬ ConvertsFrom (query [joinUsing]) (selectFrom [joinUsing]) ∧
      ¬ ConvertsFrom (query [naturalJoin]) (selectFrom [naturalJoin]) ∧
      ¬ ConvertsFrom (query [⟨table "a", []⟩, ⟨table "b", []⟩]) (selectFrom [⟨table "a", []⟩, ⟨table "b", []⟩]) := by
  refine ⟨fun h => ?_, fun h => ?_, fun h => ?_, fun h => ?_⟩
  · obtain ⟨hplain, -⟩ := h _ rfl
    exact hplain fullJoin List.mem_cons_self _ List.mem_cons_self
  · obtain ⟨hplain, -⟩ := h _ rfl
    exact hplain joinUsing List.mem_cons_self _ List.mem_cons_self
  · obtain ⟨hplain, -⟩ := h _ rfl
    exact hplain naturalJoin List.mem_cons_self _ List.mem_cons_self
  · obtain ⟨-, hsame⟩ := h _ rfl
    have hsame := hsame (fun _ _ _ => true) (fun _ _ _ => true) (fun _ _ => rfl) .empty
    have hlengths := congrArg (Option.map fun relation => relation.slots.length) hsame
    have hdiffer : some 1 = some 2 := hlengths
    cases hdiffer

/-- On two tables with a row each and no row in common, the statement of the full join has one row and the clause two. -/
example :
    let tables : StoredTables := fun name => some ([.new "x" .integer], if name = "a" then [[.integer 1]] else [[.integer 2]])
    let statement := (convertSelect (query [fullJoin]) (selectFrom [fullJoin])).toOption
    (statement.bind fun statement => (statement.selected (fun _ _ _ => false) tables).map (·.rows.length)) = some 1 ∧
      (fromRelation (fun _ _ _ => false) tables [fullJoin]).map (·.rows.length) = some 2 := by
  decide

end TwoTables

end HelionDb
