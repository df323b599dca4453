import HelionDb.Planner

/-! What the planner makes of a SELECT. Every scan reads one of the tables of the statement with all its
columns, the conditions in the tree are made of the conditions of the statement, and a column that chooses an
index or a key of a join stands in one of them. The passes of the optimizer keep all of this, whatever the
rules for conditions and columns are. -/

namespace HelionDb

/-- Rules for the conditions of a query and for the columns that its scans and joins look rows up by. A
condition that is an unqualified column stands for the column of every table of the query. -/
structure PlanRules where
  entries : List (String × List ColumnMeta)
  expr : Expression → Prop
  column : String → List ColumnMeta → Nat → Prop
  literal : ∀ value, expr (.literal value)
  binaryOp : ∀ left op right, expr (.binaryOp left op right) ↔ expr left ∧ expr right
  named : ∀ name, expr (.column name) → ∀ entry ∈ entries, ∀ idx, Expression.positionOf entry.2 name = some idx →
    column entry.1 entry.2 idx

/-- No rule but that the tables are those of the query. -/
def PlanRules.any (entries : List (String × List ColumnMeta)) : PlanRules where
  entries := entries
  expr _ := True
  column _ _ _ := True
  literal _ := trivial
  binaryOp _ _ _ := by simp
  named _ _ _ _ _ _ := trivial

namespace QueryPlan

/-- The tree has an outer join. -/
def outer : QueryPlan → Bool
  | tableScan _ _ _ _ _ => false
  | join left right joinType _ => left.outer || right.outer || joinType = .left || joinType = .right
  | filter input _ | projection input _ _ | sort input _ | limit input _ _ => input.outer

/-- Every hash join builds from its left side. -/
def BuildsLeft : QueryPlan → Prop
  | tableScan _ _ _ _ _ => True
  | join left right _ (.hashJoin buildLeft _ _ _) => left.BuildsLeft ∧ right.BuildsLeft ∧ buildLeft = true
  | join left right _ _ => left.BuildsLeft ∧ right.BuildsLeft
  | filter input _ | projection input _ _ | sort input _ | limit input _ _ => input.BuildsLeft

/-- An index of a table on columns that the rules allow. -/
def IndexAllowed (rules : PlanRules) (tables : List Table) (name : String) (columns : List ColumnMeta)
    (indexName : String) : Prop :=
  ∃ table, findTable name tables = some table ∧ ∃ index ∈ table.indexes, index.definition.name = indexName ∧
    ∀ idx ∈ index.definition.columns, rules.column name columns idx

/-- A scan reads a table of the query under its own columns. -/
def ScanAllowed (rules : PlanRules) (tables : List Table) (name : String) (columns : List ColumnMeta) : Prop :=
  (name, columns) ∈ rules.entries ∧ ∃ table, findTable name tables = some table ∧ table.columns = columns

/-- A position in the rows of a scan that the rules allow as a key. -/
def KeyAllowed (rules : PlanRules) (info : List (String × List ColumnMeta)) (idx : Nat) : Prop :=
  ∃ name columns, info = [(name, columns)] ∧ rules.column name columns idx

/-- What the planner guarantees of the part of a tree below the projection. -/
def WellPlanned (rules : PlanRules) (tables : List Table) : QueryPlan → Prop
  | tableScan name columns condition indexName _ =>
      ScanAllowed rules tables name columns ∧ (∀ part, condition = some part → rules.expr part) ∧
        ∀ chosen, indexName = some chosen → IndexAllowed rules tables name columns chosen
  | join left right _ algorithm =>
      left.WellPlanned rules tables ∧ right.WellPlanned rules tables ∧
        match algorithm with
        | .nestedLoop onClause => ∀ on, onClause = some on → rules.expr on
        | .indexNestedLoop innerTable innerColumns indexName keys remainingOn =>
            right.tableInfo = [(innerTable, innerColumns)] ∧ ScanAllowed rules tables innerTable innerColumns ∧
              IndexAllowed rules tables innerTable innerColumns indexName ∧
              (∀ idx ∈ keys, KeyAllowed rules left.tableInfo idx) ∧ ∀ on, remainingOn = some on → rules.expr on
        | .hashJoin buildLeft buildKeys probeKeys remainingOn =>
            (buildLeft = true → (∀ idx ∈ buildKeys, KeyAllowed rules left.tableInfo idx) ∧
              ∀ idx ∈ probeKeys, KeyAllowed rules right.tableInfo idx) ∧ ∀ on, remainingOn = some on → rules.expr on
  | filter input predicate => input.WellPlanned rules tables ∧ rules.expr predicate
  | projection _ _ _ => False
  | sort input orderBy => input.WellPlanned rules tables ∧ ∀ order ∈ orderBy, rules.expr order.expr
  | limit input _ _ => input.WellPlanned rules tables

/-- What a pass of the optimizer keeps. -/
structure Keeps (rules : PlanRules) (tables : List Table) (plan next : QueryPlan) : Prop where
  info : next.tableInfo = plan.tableInfo
  outer : next.outer = plan.outer
  planned : plan.WellPlanned rules tables → next.WellPlanned rules tables

variable {rules : PlanRules} {tables : List Table}

theorem Keeps.refl (plan : QueryPlan) : Keeps rules tables plan plan := ⟨rfl, rfl, id⟩

theorem Keeps.trans {plan next last : QueryPlan} (first : Keeps rules tables plan next)
    (second : Keeps rules tables next last) : Keeps rules tables plan last :=
  ⟨second.info.trans first.info, second.outer.trans first.outer, fun h => second.planned (first.planned h)⟩

theorem keeps_join {left right nextLeft nextRight : QueryPlan} (hleft : Keeps rules tables left nextLeft)
    (hright : Keeps rules tables right nextRight) (joinType : JoinType) (algorithm : JoinAlgorithm) :
    Keeps rules tables (join left right joinType algorithm) (join nextLeft nextRight joinType algorithm) := by
  refine ⟨?_, ?_, ?_⟩
  · simp only [tableInfo, hleft.info, hright.info]
  · simp only [outer, hleft.outer, hright.outer]
  · rintro ⟨hplannedLeft, hplannedRight, halgorithm⟩
    refine ⟨hleft.planned hplannedLeft, hright.planned hplannedRight, ?_⟩
    rw [hleft.info, hright.info]
    exact halgorithm

theorem expr_decomposeConjunction {whole : Expression} (h : rules.expr whole) :
    ∀ part ∈ decomposeConjunction whole, rules.expr part := by
  intro part hpart
  fun_induction decomposeConjunction whole with
  | case1 left right ihLeft ihRight =>
      obtain ⟨hleft, hright⟩ := (rules.binaryOp left .and right).mp h
      exact (List.mem_append.mp hpart).elim (ihLeft hleft) (ihRight hright)
  | case2 other => exact List.mem_singleton.mp hpart ▸ h

theorem expr_recomposeConjunction {parts : List Expression} (h : ∀ part ∈ parts, rules.expr part) :
    rules.expr (recomposeConjunction parts) := by
  cases parts with
  | nil => exact rules.literal _
  | cons first rest =>
      rw [List.forall_mem_cons] at h
      obtain ⟨hfirst, hrest⟩ := h
      unfold recomposeConjunction
      induction rest generalizing first with
      | nil => exact hfirst
      | cons next rest ih =>
          rw [List.forall_mem_cons] at hrest
          exact ih _ ((rules.binaryOp first .and next).mpr ⟨hfirst, hrest.1⟩) hrest.2

theorem keeps_filter (input : QueryPlan) {parts : List Expression} (h : ∀ part ∈ parts, rules.expr part) :
    Keeps rules tables input (if parts.isEmpty then input else filter input (recomposeConjunction parts)) := by
  split
  · exact .refl input
  · exact ⟨rfl, rfl, fun hinput => ⟨hinput, expr_recomposeConjunction h⟩⟩

theorem keeps_pushPredicatesInto {plan : QueryPlan} {predicates : List Expression}
    (h : ∀ predicate ∈ predicates, rules.expr predicate) :
    Keeps rules tables plan (plan.pushPredicatesInto predicates) := by
  induction plan generalizing predicates with
  | tableScan name columns condition indexName indexKeys =>
      cases predicates with
      | nil => exact .refl _
      | cons first rest =>
          refine ⟨rfl, rfl, fun ⟨hscan, hcondition, hindex⟩ => ⟨hscan, fun part hpart => ?_, hindex⟩⟩
          obtain rfl := Option.some.inj hpart
          cases condition with
          | none => exact expr_recomposeConjunction h
          | some existing =>
              refine expr_recomposeConjunction fun part hmem => ?_
              exact (List.mem_append.mp hmem).elim (expr_decomposeConjunction (hcondition existing rfl) part) (h part)
  | join left right joinType algorithm ihLeft ihRight =>
      cases predicates with
      | nil => exact .refl _
      | cons first rest =>
          have hpart (keep : Expression → Bool) {parts : List Expression} (hparts : ∀ part ∈ parts, rules.expr part) :
              ∀ part ∈ parts.filter keep, rules.expr part := fun part hmem => hparts part (List.mem_filter.mp hmem).1
          simp only [pushPredicatesInto]
          refine Keeps.trans ?_ (keeps_filter _ (hpart _ (hpart _ h)))
          exact keeps_join (ihLeft (hpart _ h)) (ihRight (hpart _ (hpart _ h))) joinType algorithm
  | filter input predicate ih =>
      cases predicates with
      | nil => exact .refl _
      | cons first rest => exact ⟨rfl, rfl, fun hinput => ⟨hinput, expr_recomposeConjunction h⟩⟩
  | projection input columns tableMap ih =>
      cases predicates with
      | nil => exact .refl _
      | cons first rest => exact ⟨(ih h).info, (ih h).outer, False.elim⟩
  | sort input orderBy ih =>
      cases predicates with
      | nil => exact .refl _
      | cons first rest => exact ⟨(ih h).info, (ih h).outer, fun ⟨hinput, horder⟩ => ⟨(ih h).planned hinput, horder⟩⟩
  | limit input count offset ih =>
      cases predicates with
      | nil => exact .refl _
      | cons first rest => exact ⟨(ih h).info, (ih h).outer, (ih h).planned⟩

theorem keeps_pushDownPredicates (plan : QueryPlan) : Keeps rules tables plan plan.pushDownPredicates := by
  induction plan with
  | tableScan name columns condition indexName indexKeys => exact .refl _
  | join left right joinType algorithm ihLeft ihRight => exact keeps_join ihLeft ihRight joinType algorithm
  | filter input predicate ih =>
      simp only [pushDownPredicates]
      have hpushed := @keeps_pushPredicatesInto (.any []) tables input
        ((decomposeConjunction predicate).filter (isPushable input.tableInfo)) fun _ _ => trivial
      have hkept := @keeps_filter (.any []) tables
        (input.pushPredicatesInto ((decomposeConjunction predicate).filter (isPushable input.tableInfo)))
        ((decomposeConjunction predicate).filter fun part => !isPushable input.tableInfo part) fun _ _ => trivial
      refine ⟨hkept.info.trans hpushed.info, hkept.outer.trans hpushed.outer, fun ⟨hinput, hpredicate⟩ => ?_⟩
      have hpart (keep : Expression → Bool) : ∀ part ∈ (decomposeConjunction predicate).filter keep, rules.expr part :=
        fun part hmem => expr_decomposeConjunction hpredicate part (List.mem_filter.mp hmem).1
      exact (keeps_filter _ (hpart _)).planned ((keeps_pushPredicatesInto (hpart _)).planned hinput)
  | projection input columns tableMap ih => exact ⟨ih.info, ih.outer, False.elim⟩
  | sort input orderBy ih => exact ⟨ih.info, ih.outer, fun ⟨hinput, horder⟩ => ⟨ih.planned hinput, horder⟩⟩
  | limit input count offset ih => exact ⟨ih.info, ih.outer, ih.planned⟩

theorem expr_columnAndLiteral {condition : Expression} {name : String} {value : Datum} (h : rules.expr condition)
    (hparts : columnAndLiteral condition = some (name, value)) : rules.expr (.column name) := by
  unfold columnAndLiteral at hparts
  split at hparts
  · cases hparts
    exact ((rules.binaryOp _ _ _).mp h).1
  · cases hparts
    exact ((rules.binaryOp _ _ _).mp h).2
  · cases hparts

/-- The index that is chosen for a condition is on a column that the condition names. -/
theorem indexAllowed_of_chooseIndexForFilter {name : String} {table : Table} {condition : Expression}
    {indexName : String} {keys : List Datum} (htable : findTable name tables = some table)
    (hentry : (name, table.columns) ∈ rules.entries) (hcondition : rules.expr condition)
    (hchosen : chooseIndexForFilter table condition = some (indexName, keys)) :
    IndexAllowed rules tables name table.columns indexName := by
  unfold chooseIndexForFilter at hchosen
  split at hchosen
  · cases hchosen
  · rename_i columnName value hparts
    split at hchosen
    · cases hchosen
    · rename_i idx hposition
      split at hchosen
      · cases hchosen
      · obtain ⟨index, hindex, hname⟩ := Option.map_eq_some_iff.mp hchosen
        have hcolumns := List.find?_some hindex
        refine ⟨table, htable, index, List.mem_of_find?_eq_some hindex, congrArg Prod.fst hname, ?_⟩
        intro position hmem
        rw [of_decide_eq_true hcolumns, List.mem_singleton] at hmem
        exact hmem ▸ rules.named columnName (expr_columnAndLiteral hcondition hparts) _ hentry idx hposition

theorem expr_removeIndexedPredicate {condition part : Expression} {columns : List ColumnMeta}
    (h : rules.expr condition) (hpart : removeIndexedPredicate condition columns = some part) : rules.expr part := by
  unfold removeIndexedPredicate at hpart
  dsimp only at hpart
  split at hpart
  · cases hpart
  · obtain rfl := Option.some.inj hpart
    exact expr_recomposeConjunction fun part hmem => expr_decomposeConjunction h part (List.mem_filter.mp hmem).1

theorem keeps_selectIndexes (plan : QueryPlan) : Keeps rules tables plan (plan.selectIndexes tables) := by
  induction plan with
  | tableScan name columns condition indexName indexKeys =>
      cases indexName with
      | some indexName => exact .refl _
      | none =>
          simp only [selectIndexes]
          split
          · rename_i indexName keys hchosen
            refine ⟨rfl, rfl, fun ⟨hscan, hcondition, _⟩ => ⟨hscan, fun part hpart => ?_, fun chosen hsome => ?_⟩⟩
            · obtain ⟨whole, hwhole, hremoved⟩ := Option.bind_eq_some_iff.mp hpart
              exact expr_removeIndexedPredicate (hcondition whole hwhole) hremoved
            · obtain rfl := Option.some.inj hsome
              obtain ⟨table, htable, hbound⟩ := Option.bind_eq_some_iff.mp hchosen
              obtain ⟨whole, hwhole, hindex⟩ := Option.bind_eq_some_iff.mp hbound
              obtain ⟨hentry, found, hfound, rfl⟩ := hscan
              obtain rfl := Option.some.inj (htable.symm.trans hfound)
              exact indexAllowed_of_chooseIndexForFilter htable hentry (hcondition whole hwhole) hindex
          · exact ⟨rfl, rfl, fun ⟨hscan, hcondition, _⟩ => ⟨hscan, hcondition, fun _ hsome => by cases hsome⟩⟩
  | join left right joinType algorithm ihLeft ihRight => exact keeps_join ihLeft ihRight joinType algorithm
  | filter input predicate ih => exact ⟨ih.info, ih.outer, fun ⟨hinput, hpredicate⟩ => ⟨ih.planned hinput, hpredicate⟩⟩
  | projection input columns tableMap ih => exact ⟨ih.info, ih.outer, False.elim⟩
  | sort input orderBy ih => exact ⟨ih.info, ih.outer, fun ⟨hinput, horder⟩ => ⟨ih.planned hinput, horder⟩⟩
  | limit input count offset ih => exact ⟨ih.info, ih.outer, ih.planned⟩

/-! ### Join algorithms -/

theorem expr_extractEquiJoinPairs {on : Expression} (h : rules.expr on) :
    ∀ pair ∈ extractEquiJoinPairs on, rules.expr pair.1 ∧ rules.expr pair.2 := by
  intro pair hpair
  fun_induction extractEquiJoinPairs on with
  | case1 left right =>
      obtain rfl := List.mem_singleton.mp hpair
      exact (rules.binaryOp left .eq right).mp h
  | case2 left right ihLeft ihRight =>
      obtain ⟨hleft, hright⟩ := (rules.binaryOp left .and right).mp h
      exact (List.mem_append.mp hpair).elim (ihLeft hleft) (ihRight hright)
  | case3 other => cases hpair

/-- A column that a join looks up in a side of it is a column of the scan that the side is. -/
theorem keyAllowed_of_extractColumnIndex {expr : Expression} {plan : QueryPlan} {idx : Nat} (hexpr : rules.expr expr)
    (hplan : plan.WellPlanned rules tables) (h : extractColumnIndex expr plan = some idx) :
    KeyAllowed rules plan.tableInfo idx := by
  unfold extractColumnIndex at h
  split at h
  · rename_i name table columns condition indexName indexKeys
    exact ⟨table, columns, rfl, rules.named name hexpr _ hplan.1.1 idx h⟩
  · cases h

theorem column_of_columnIn {name : String} {table : Table} {expr : Expression} {idx : Nat} (hexpr : rules.expr expr)
    (hentry : (name, table.columns) ∈ rules.entries) (h : columnIn table expr = some idx) :
    rules.column name table.columns idx := by
  unfold columnIn at h
  split at h
  · exact rules.named _ hexpr _ hentry idx h
  · cases h

theorem expr_innerColumn {name : String} {table : Table} {pair : Expression × Expression} {idx : Nat}
    {outerExpr : Expression} (hpair : rules.expr pair.1 ∧ rules.expr pair.2)
    (hentry : (name, table.columns) ∈ rules.entries) (h : innerColumn table pair = some (idx, outerExpr)) :
    rules.column name table.columns idx ∧ rules.expr outerExpr := by
  unfold innerColumn at h
  split at h
  · rename_i hcolumn
    cases h
    exact ⟨column_of_columnIn hpair.1 hentry hcolumn, hpair.2⟩
  · obtain ⟨position, hcolumn, hsame⟩ := Option.map_eq_some_iff.mp h
    cases hsame
    exact ⟨column_of_columnIn hpair.2 hentry hcolumn, hpair.1⟩

/-- The algorithm chosen for a join of planned sides goes with the rules. -/
theorem planned_selectJoinAlgorithm {left right : QueryPlan} (hleft : left.WellPlanned rules tables)
    (hright : right.WellPlanned rules tables) (joinType : JoinType) {onClause : Option Expression}
    (hon : ∀ on, onClause = some on → rules.expr on) :
    (join left right joinType (selectJoinAlgorithm tables left right onClause)).WellPlanned rules tables := by
  refine ⟨hleft, hright, ?_⟩
  cases onClause with
  | none => exact fun _ hsome => by cases hsome
  | some on =>
      have hexpr := hon on rfl
      have hremaining : ∀ remaining, some on = some remaining → rules.expr remaining :=
        fun _ hsome => Option.some.inj hsome ▸ hexpr
      have hpairs := expr_extractEquiJoinPairs hexpr
      unfold selectJoinAlgorithm
      dsimp only
      cases hindex : chooseIndexJoin tables left right on with
      | some algorithm =>
          unfold chooseIndexJoin at hindex
          split at hindex
          · rename_i innerName innerColumns condition scanIndex scanKeys
            split at hindex
            · cases hindex
            · rename_i inner hinner
              obtain ⟨pair, hpair, hfound⟩ := List.exists_of_findSome?_eq_some hindex
              split at hfound
              · cases hfound
              · rename_i idx outerExpr hcolumn
                obtain ⟨index, hmem, hchosen⟩ := List.exists_of_findSome?_eq_some hfound
                split at hchosen
                · rename_i hcolumns
                  obtain ⟨key, hkey, rfl⟩ := Option.map_eq_some_iff.mp hchosen
                  obtain ⟨⟨hentry, found, hscan, rfl⟩, -⟩ := hright
                  obtain rfl := Option.some.inj (hinner.symm.trans hscan)
                  obtain ⟨hnamed, houter⟩ := expr_innerColumn (hpairs pair hpair) hentry hcolumn
                  refine ⟨rfl, ⟨hentry, inner, hinner, rfl⟩, ⟨inner, hinner, index, hmem, rfl, ?_⟩, ?_, hremaining⟩
                  · intro position hposition
                    rw [hcolumns, List.mem_singleton] at hposition
                    exact hposition ▸ hnamed
                  · intro position hposition
                    obtain rfl := List.mem_singleton.mp hposition
                    exact keyAllowed_of_extractColumnIndex houter hleft hkey
                · cases hchosen
          · cases hindex
      | none =>
          have hkeys : ∀ key ∈ hashJoinKeys left right on,
              KeyAllowed rules left.tableInfo key.1 ∧ KeyAllowed rules right.tableInfo key.2 := by
            intro key hkey
            obtain ⟨pair, hpair, hfound⟩ := List.mem_filterMap.mp hkey
            split at hfound
            · rename_i l r hl hr
              cases hfound
              exact ⟨keyAllowed_of_extractColumnIndex (hpairs pair hpair).1 hleft hl,
                keyAllowed_of_extractColumnIndex (hpairs pair hpair).2 hright hr⟩
            · cases hfound
          dsimp only
          by_cases hnone : (hashJoinKeys left right on).isEmpty = true
          · rw [if_pos hnone]
            exact hremaining
          rw [if_neg hnone]
          by_cases hbuild : left.countOutputColumns ≤ right.countOutputColumns
          · rw [if_pos hbuild]
            refine ⟨fun _ => ⟨fun idx hidx => ?_, fun idx hidx => ?_⟩, hremaining⟩
            · obtain ⟨key, hkey, rfl⟩ := List.mem_map.mp hidx
              exact (hkeys key hkey).1
            · obtain ⟨key, hkey, rfl⟩ := List.mem_map.mp hidx
              exact (hkeys key hkey).2
          · rw [if_neg hbuild]
            exact ⟨fun hfalse => Bool.noConfusion hfalse, hremaining⟩

theorem keeps_chooseJoinAlgorithms (plan : QueryPlan) : Keeps rules tables plan (plan.chooseJoinAlgorithms tables) := by
  induction plan with
  | tableScan name columns condition indexName indexKeys => exact .refl _
  | join left right joinType algorithm ihLeft ihRight =>
      have hjoined := keeps_join ihLeft ihRight joinType algorithm
      cases algorithm with
      | nestedLoop onClause =>
          refine ⟨hjoined.info, hjoined.outer, fun hplanned => ?_⟩
          obtain ⟨hleft, hright, hon⟩ := hjoined.planned hplanned
          exact planned_selectJoinAlgorithm hleft hright joinType hon
      | indexNestedLoop innerTable innerColumns indexName keys remainingOn => exact hjoined
      | hashJoin buildLeft buildKeys probeKeys remainingOn => exact hjoined
  | filter input predicate ih => exact ⟨ih.info, ih.outer, fun ⟨hinput, hpredicate⟩ => ⟨ih.planned hinput, hpredicate⟩⟩
  | projection input columns tableMap ih => exact ⟨ih.info, ih.outer, False.elim⟩
  | sort input orderBy ih => exact ⟨ih.info, ih.outer, fun ⟨hinput, horder⟩ => ⟨ih.planned hinput, horder⟩⟩
  | limit input count offset ih => exact ⟨ih.info, ih.outer, ih.planned⟩

/-- The optimizer keeps what the planner guarantees. -/
theorem keeps_optimize (plan : QueryPlan) : Keeps rules tables plan (plan.optimize tables) :=
  ((keeps_pushDownPredicates plan).trans (keeps_selectIndexes _)).trans (keeps_chooseJoinAlgorithms _)

end QueryPlan

/-! ### The tree of a SELECT -/

/-- The entry of a table map for a table that a statement names. -/
def Sourced (tables : List Table) (name : String) (entry : String × List ColumnMeta) : Prop :=
  ∃ table, findTable name tables = some table ∧ entry = (name, table.columns)

section

variable {tables : List Table}

theorem name_of_findTable {name : String} {table : Table} (h : findTable name tables = some table) :
    table.name = name := (KeyedList.mem_of_lookup h).2

theorem requireTable_ok_iff {name : String} {table : Table} :
    requireTable tables name = .ok table ↔ findTable name tables = some table := by
  unfold requireTable
  split
  · rename_i found hfound
    rw [hfound]
    exact ⟨fun h => congrArg some (Except.ok.inj h), fun h => congrArg Except.ok (Option.some.inj h)⟩
  · rename_i hnone
    rw [hnone]
    exact ⟨fun h => (nomatch h), fun h => (nomatch h)⟩

theorem Sourced.unique {name : String} {left right : String × List ColumnMeta} (hleft : Sourced tables name left)
    (hright : Sourced tables name right) : left = right := by
  obtain ⟨table, htable, rfl⟩ := hleft
  obtain ⟨found, hfound, rfl⟩ := hright
  obtain rfl := Option.some.inj (htable.symm.trans hfound)
  rfl

theorem Sourced.all_unique {names : List String} {left right : List (String × List ColumnMeta)}
    (hleft : List.Forall₂ (Sourced tables) names left) (hright : List.Forall₂ (Sourced tables) names right) :
    left = right := by
  induction hleft generalizing right with
  | nil =>
      cases hright
      rfl
  | cons hfirst hrest ih =>
      cases hright with
      | cons hother hothers => rw [hfirst.unique hother, ih hothers]

/-- The tables that a statement names, the first one and the joined ones. -/
def SelectStatement.names (statement : SelectStatement) : List String :=
  statement.tableName :: statement.joins.map (·.rightTable)

/-- The statement asks for a join that pads rows with NULLs. -/
def SelectStatement.padded (statement : SelectStatement) : Bool :=
  statement.joins.any fun clause => clause.joinType = .left || clause.joinType = .right

/-- The conditions of a statement: WHERE, the ON clauses and the expressions of ORDER BY. -/
def SelectStatement.conditions (statement : SelectStatement) : List Expression :=
  statement.whereClause.toList ++ statement.joins.filterMap (·.onClause) ++ statement.orderBy.map (·.expr)

theorem Sourced.names {names : List String} {tableMap : List (String × List ColumnMeta)}
    (h : List.Forall₂ (Sourced tables) names tableMap) : names = tableMap.map Prod.fst := by
  induction h with
  | nil => rfl
  | cons hfirst hrest ih =>
      obtain ⟨table, -, rfl⟩ := hfirst
      rw [ih]
      rfl

theorem Sourced.all {names : List String} {tableMap : List (String × List ColumnMeta)}
    (h : List.Forall₂ (Sourced tables) names tableMap) : ∀ entry ∈ tableMap, Sourced tables entry.1 entry := by
  have hsame := Sourced.names h ▸ h
  exact List.forall₂_same.mp (List.forall₂_map_left_iff.mp hsame)

/-- Entries of one name are one entry. -/
theorem Sourced.same {names : List String} {tableMap : List (String × List ColumnMeta)}
    (h : List.Forall₂ (Sourced tables) names tableMap) :
    ∀ left ∈ tableMap, ∀ right ∈ tableMap, left.1 = right.1 → left = right := by
  intro left hleft right hright hname
  exact (Sourced.all h left hleft).unique (hname ▸ Sourced.all h right hright)

theorem sourced_mapM {names : List String} {resolved : List Table} (h : names.mapM (requireTable tables) = .ok resolved) :
    List.Forall₂ (Sourced tables) names (resolved.map fun table => (table.name, table.columns)) := by
  induction names generalizing resolved with
  | nil =>
      cases h
      exact .nil
  | cons name rest ih =>
      rw [List.mapM_cons] at h
      obtain ⟨table, htable, h⟩ := Loop.bind_ok_iff.mp h
      obtain ⟨others, hrest, h⟩ := Loop.bind_ok_iff.mp h
      cases h
      have hfound := requireTable_ok_iff.mp htable
      exact .cons ⟨table, hfound, congrArg (·, table.columns) (name_of_findTable hfound)⟩ (ih hrest)

theorem sourced_resolveTableList {statement : SelectStatement} {tableMap : List (String × List ColumnMeta)}
    (h : resolveTableList tables statement = .ok tableMap) :
    List.Forall₂ (Sourced tables) statement.names tableMap := by
  unfold resolveTableList at h
  obtain ⟨resolved, hresolved, h⟩ := Loop.bind_ok_iff.mp h
  cases h
  exact sourced_mapM hresolved

end

namespace QueryPlan

variable {rules : PlanRules} {tables : List Table}

/-- The joins of a statement put their tables behind those there are. -/
theorem joins_planned {clauses : List JoinClause} {plan joined : QueryPlan} {names : List String}
    (hjoined : clauses.foldlM (planJoin tables) plan = .ok joined)
    (hplan : List.Forall₂ (Sourced tables) names plan.tableInfo) :
    List.Forall₂ (Sourced tables) (names ++ clauses.map (·.rightTable)) joined.tableInfo ∧
      joined.outer = (plan.outer || clauses.any fun clause => clause.joinType = .left || clause.joinType = .right) ∧
      ((∀ entry ∈ joined.tableInfo, entry ∈ rules.entries) → (∀ on ∈ clauses.filterMap (·.onClause), rules.expr on) →
        plan.WellPlanned rules tables → joined.WellPlanned rules tables) ∧
      ∀ entry ∈ plan.tableInfo, entry ∈ joined.tableInfo := by
  induction clauses generalizing plan names with
  | nil =>
      cases hjoined
      refine ⟨by simpa using hplan, by simp, fun _ _ h => h, fun _ h => h⟩
  | cons clause rest ih =>
      rw [List.foldlM_cons] at hjoined
      obtain ⟨next, hstep, hjoined⟩ := Loop.bind_ok_iff.mp hjoined
      obtain ⟨right, hright, hstep⟩ := Loop.bind_ok_iff.mp hstep
      cases hstep
      have hfound := requireTable_ok_iff.mp hright
      have hnext : List.Forall₂ (Sourced tables) (names ++ [clause.rightTable])
          (plan.tableInfo ++ [(clause.rightTable, right.columns)]) :=
        List.rel_append hplan (.cons ⟨right, hfound, rfl⟩ .nil)
      obtain ⟨hinfo, houter, hplanned, hkeep⟩ := ih hjoined hnext
      refine ⟨?_, ?_, fun hentries hon hwell => ?_, fun entry hentry => ?_⟩
      · rw [List.append_assoc] at hinfo
        exact hinfo
      · rw [houter, List.any_cons]
        simp only [outer, scanOf, Bool.or_false, Bool.or_assoc]
      · have hall : (clause :: rest).filterMap (·.onClause) = clause.onClause.toList ++ rest.filterMap (·.onClause) := by
          cases honClause : clause.onClause with
          | none => simp [honClause]
          | some on => simp [honClause]
        rw [hall] at hon
        refine hplanned hentries (fun on hmem => hon on (List.mem_append_right _ hmem)) ⟨hwell, ?_, ?_⟩
        · refine ⟨⟨hentries _ (hkeep _ ?_), right, hfound, rfl⟩, fun _ h => (nomatch h), fun _ h => (nomatch h)⟩
          exact List.mem_append_right _ (List.mem_singleton_self _)
        · intro on hsome
          exact hon on (List.mem_append_left _ (by rw [hsome]; exact List.mem_singleton_self _))
      · exact hkeep entry (List.mem_append_left _ hentry)

end QueryPlan

/-! ### The positions of the selected columns -/

section

variable {tableMap : List (String × List ColumnMeta)}

theorem combinedLen_cons (entry : String × List ColumnMeta) (rest : List (String × List ColumnMeta)) :
    combinedLen (entry :: rest) = entry.2.length + combinedLen rest := by simp [combinedLen]

theorem lt_of_positionOf {columns : List ColumnMeta} {name : String} {idx : Nat}
    (h : Expression.positionOf columns name = some idx) : idx < columns.length := by
  obtain ⟨hlt, -⟩ := List.findIdx?_eq_some_iff_getElem.mp h
  exact hlt

theorem le_of_mem_tableOffsets {offset start : Nat} {name : String}
    (h : (name, start) ∈ tableOffsets offset tableMap) :
    ∃ columns, (name, columns) ∈ tableMap ∧ start + columns.length ≤ offset + combinedLen tableMap := by
  induction tableMap generalizing offset with
  | nil => cases h
  | cons entry rest ih =>
      rw [combinedLen_cons]
      rcases List.mem_cons.mp h with heq | hrest
      · obtain ⟨rfl, rfl⟩ := Prod.mk.inj heq
        exact ⟨entry.2, List.mem_cons_self, by omega⟩
      · obtain ⟨columns, hmem, hle⟩ := ih hrest
        exact ⟨columns, List.mem_cons_of_mem _ hmem, by omega⟩

theorem offsetOf_le {name : String} {columns : List ColumnMeta}
    (hsame : ∀ left ∈ tableMap, ∀ right ∈ tableMap, left.1 = right.1 → left = right)
    (h : (name, columns) ∈ tableMap) : offsetOf tableMap name + columns.length ≤ combinedLen tableMap := by
  induction tableMap with
  | nil => cases h
  | cons entry rest ih =>
      rw [combinedLen_cons, offsetOf]
      by_cases hname : entry.1 = name
      · obtain rfl : entry = (name, columns) := hsame _ List.mem_cons_self _ h hname
        rw [List.takeWhile_cons_of_neg (by simp)]
        simp [combinedLen]
      · rw [List.takeWhile_cons_of_pos (by simpa using hname), combinedLen_cons]
        have hrest : (name, columns) ∈ rest :=
          (List.mem_cons.mp h).resolve_left fun heq => hname (congrArg Prod.fst heq).symm
        have hle := ih (fun left hleft right hright =>
          hsame left (List.mem_cons_of_mem _ hleft) right (List.mem_cons_of_mem _ hright)) hrest
        rw [offsetOf] at hle
        omega

theorem lt_of_mem_positionsOf {name : String} {offset position : Nat}
    (h : position ∈ positionsOf name offset tableMap) : position < offset + combinedLen tableMap := by
  induction tableMap generalizing offset with
  | nil => cases h
  | cons entry rest ih =>
      rw [combinedLen_cons]
      rw [positionsOf] at h
      split at h
      · rename_i idx hidx
        have hlt := lt_of_positionOf hidx
        rcases List.mem_cons.mp h with rfl | hrest
        · omega
        · have := ih hrest
          omega
      · have := ih h
        omega

theorem lt_of_resolveUnqualifiedColumn {name : String} {idx : Nat}
    (h : resolveUnqualifiedColumn tableMap name = .ok idx) : idx < combinedLen tableMap := by
  unfold resolveUnqualifiedColumn at h
  split at h
  · cases h
  · rename_i hpositions
    cases h
    have hmem : idx ∈ positionsOf name 0 tableMap := hpositions ▸ List.mem_singleton_self idx
    simpa using lt_of_mem_positionsOf hmem
  · cases h

theorem lt_of_resolveQualifiedColumn
    (hsame : ∀ left ∈ tableMap, ∀ right ∈ tableMap, left.1 = right.1 → left = right) {table column : String}
    {idx : Nat} (h : resolveQualifiedColumn tableMap table column = .ok idx) : idx < combinedLen tableMap := by
  unfold resolveQualifiedColumn at h
  dsimp only at h
  split at h
  · rename_i name columns hfound
    split at h
    · rename_i position hposition
      cases h
      have hle := offsetOf_le hsame (List.mem_of_find?_eq_some hfound)
      have hlt := lt_of_positionOf hposition
      omega
    · cases h
  · split at h
    · rename_i single columns hnone
      split at h
      · rename_i position hposition
        cases h
        simpa [combinedLen] using lt_of_positionOf hposition
      · cases h
    · cases h

theorem lt_of_resolveSelectColumn
    (hsame : ∀ left ∈ tableMap, ∀ right ∈ tableMap, left.1 = right.1 → left = right) {selected : SelectColumn}
    {columns : List Nat} (h : resolveSelectColumn tableMap selected = .ok (some columns)) :
    ∀ idx ∈ columns, idx < combinedLen tableMap := by
  have hone {resolved : Except HelionError Nat} (hlt : ∀ idx, resolved = .ok idx → idx < combinedLen tableMap)
      (hmap : resolved.map (fun idx => some [idx]) = .ok (some columns)) :
      ∀ idx ∈ columns, idx < combinedLen tableMap := by
    cases resolved with
    | error err => cases hmap
    | ok position =>
        cases hmap
        intro idx hidx
        exact hlt idx (congrArg Except.ok (List.mem_singleton.mp hidx).symm)
  unfold resolveSelectColumn at h
  split at h
  · cases h
  · split at h
    · cases h
      exact fun _ hidx => (nomatch hidx)
    · rename_i name offset hfound
      split at h
      · cases h
        exact fun _ hidx => (nomatch hidx)
      · rename_i found tableColumns hentry
        cases h
        intro idx hidx
        obtain ⟨position, hposition, rfl⟩ := List.mem_map.mp hidx
        obtain ⟨columns, hmem, hle⟩ := le_of_mem_tableOffsets (List.mem_of_find?_eq_some hfound)
        have hname : found = name := by simpa using List.find?_some hentry
        have heq := hsame _ (List.mem_of_find?_eq_some hentry) _ hmem hname
        obtain rfl : tableColumns = columns := congrArg Prod.snd heq
        have hlt := List.mem_range.mp hposition
        omega
  · split at h
    · exact hone (fun _ hidx => lt_of_resolveQualifiedColumn hsame hidx) h
    · exact hone (fun _ hidx => lt_of_resolveUnqualifiedColumn hidx) h
  · exact hone (fun _ hidx => lt_of_resolveUnqualifiedColumn hidx) h
  · exact hone (fun _ hidx => lt_of_resolveQualifiedColumn hsame hidx) h
  · cases h

/-- The selected columns are columns of the joined tables. -/
theorem lt_of_resolveSelectColumns
    (hsame : ∀ left ∈ tableMap, ∀ right ∈ tableMap, left.1 = right.1 → left = right) {selected : List SelectColumn}
    {columns : List Nat} (h : resolveSelectColumns tableMap selected = .ok columns) :
    ∀ idx ∈ columns, idx < combinedLen tableMap := by
  have hrange : ∀ idx ∈ List.range (combinedLen tableMap), idx < combinedLen tableMap := by simp
  unfold resolveSelectColumns at h
  split at h
  · cases h
    exact hrange
  · obtain ⟨resolved, hresolved, h⟩ := Loop.bind_ok_iff.mp h
    dsimp only at h
    split at h
    · cases h
      exact hrange
    · cases h
      intro idx hidx
      obtain ⟨positions, hpositions, hmem⟩ := List.mem_flatten.mp hidx
      obtain ⟨result, hresult, hsome⟩ := List.mem_filterMap.mp hpositions
      obtain ⟨column, -, hcolumn⟩ := Loop.exists_of_mapM_ok hresolved hresult
      exact lt_of_resolveSelectColumn hsame (hcolumn.trans (congrArg Except.ok hsome)) idx hmem

end

/-- What the planner makes of a SELECT: a projection over a tree of the tables of the statement, which goes with all
rules that its conditions go with. -/
theorem planSelect_ok {tables : List Table} {statement : SelectStatement} {tree : QueryPlan}
    (h : planSelect tables statement = .ok tree) :
    ∃ input columns tableMap, tree = .projection input columns tableMap ∧
      List.Forall₂ (Sourced tables) statement.names tableMap ∧
      resolveSelectColumns tableMap statement.columns = .ok columns ∧ input.tableInfo = tableMap ∧
      input.outer = statement.padded ∧
      ∀ rules : PlanRules, rules.entries = tableMap → (∀ condition ∈ statement.conditions, rules.expr condition) →
        input.WellPlanned rules tables := by
  unfold planSelect at h
  obtain ⟨primary, hprimary, h⟩ := Loop.bind_ok_iff.mp h
  obtain ⟨joined, hjoined, h⟩ := Loop.bind_ok_iff.mp h
  obtain ⟨tableMap, hmap, h⟩ := Loop.bind_ok_iff.mp h
  obtain ⟨columns, hcolumns, h⟩ := Loop.bind_ok_iff.mp h
  cases h
  have hfound := requireTable_ok_iff.mp hprimary
  have hsourced := sourced_resolveTableList hmap
  have hjoins (rules : PlanRules) := @QueryPlan.joins_planned rules tables _ _ _ [statement.tableName] hjoined
    (.cons ⟨primary, hfound, rfl⟩ .nil)
  obtain ⟨hinfo, houter, -, hkeep⟩ := hjoins (.any [])
  obtain rfl : joined.tableInfo = tableMap := Sourced.all_unique hinfo hsourced
  refine ⟨_, columns, _, rfl, hsourced, hcolumns, ?_, ?_, fun rules hentries hconditions => ?_⟩
  · split <;> split <;> split <;> rfl
  · refine Eq.trans (b := joined.outer) ?_ houter
    split <;> split <;> split <;> rfl
  · have hplanned : joined.WellPlanned rules tables := by
      refine (hjoins rules).2.2.1 (fun entry hentry => hentries ▸ hentry) (fun on hon => ?_) ?_
      · exact hconditions on (List.mem_append_left _ (List.mem_append_right _ hon))
      · refine ⟨⟨hentries ▸ hkeep _ (List.mem_singleton_self _), primary, hfound, rfl⟩, ?_, ?_⟩
        · intro _ h
          cases h
        · intro _ h
          cases h
    have hsorted : ∀ order ∈ statement.orderBy, rules.expr order.expr := fun order horder =>
      hconditions order.expr (List.mem_append_right _ (List.mem_map_of_mem horder))
    have hlimited (filtered : QueryPlan) (hfiltered : filtered.WellPlanned rules tables) :
        let sorted := if statement.orderBy.isEmpty then filtered else .sort filtered statement.orderBy
        QueryPlan.WellPlanned rules tables (if statement.limit.isSome || 0 < statement.offset.getD 0 then
          .limit sorted (statement.limit.getD u64Max) (statement.offset.getD 0) else sorted) := by
      dsimp only
      split <;> split
      · exact hfiltered
      · exact ⟨hfiltered, hsorted⟩
      · exact hfiltered
      · exact ⟨hfiltered, hsorted⟩
    cases hwhere : statement.whereClause with
    | none => exact hlimited joined hplanned
    | some predicate =>
        refine hlimited (.filter joined predicate)
          ⟨hplanned, hconditions predicate (List.mem_append_left _ (List.mem_append_left _ ?_))⟩
        rw [hwhere]
        exact List.mem_singleton_self _

end HelionDb
