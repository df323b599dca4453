import HelionDb.Pushdown

/-! Predicate pushdown over whole plans. Each conjunct of WHERE ends up in one place of the join tree and filters the
rows there, so the rows that are left at the top are those that every conjunct keeps, provided a conjunct means the same
at its place and no outer join brings back, padded, a row that the place gave up. -/

namespace HelionDb

namespace QueryPlan

/-! ### The places of conjuncts -/

/-- The predicates that `push_predicates_into` hands to the left side of a join. -/
def pushedLeft (left right : QueryPlan) (predicates : List Expression) : List Expression :=
  predicates.filter (belongsTo (left.tableInfo ++ right.tableInfo) left.tableInfo)

/-- The predicates that it does not. -/
def pastLeft (left right : QueryPlan) (predicates : List Expression) : List Expression :=
  predicates.filter fun predicate => !belongsTo (left.tableInfo ++ right.tableInfo) left.tableInfo predicate

/-- The predicates that it hands to the right side. -/
def pushedRight (left right : QueryPlan) (predicates : List Expression) : List Expression :=
  (pastLeft left right predicates).filter (belongsTo (left.tableInfo ++ right.tableInfo) right.tableInfo)

/-- The predicates that stay with the join. -/
def keptAt (left right : QueryPlan) (predicates : List Expression) : List Expression :=
  (pastLeft left right predicates).filter fun predicate =>
    !belongsTo (left.tableInfo ++ right.tableInfo) right.tableInfo predicate

/-- A filter by predicates, if there are any. -/
def keptOver (plan : QueryPlan) (keep : List Expression) : QueryPlan :=
  if keep.isEmpty then plan else filter plan (recomposeConjunction keep)

theorem pushPredicatesInto_nil (plan : QueryPlan) : plan.pushPredicatesInto [] = plan := by
  cases plan <;> rfl

theorem pushPredicatesInto_join (left right : QueryPlan) (joinType : JoinType) (algorithm : JoinAlgorithm)
    (predicates : List Expression) :
    (join left right joinType algorithm).pushPredicatesInto predicates =
      (join (left.pushPredicatesInto (pushedLeft left right predicates))
        (right.pushPredicatesInto (pushedRight left right predicates)) joinType algorithm).keptOver
          (keptAt left right predicates) := by
  cases predicates with
  | nil =>
      show join left right joinType algorithm = join (left.pushPredicatesInto []) (right.pushPredicatesInto []) _ _
      rw [pushPredicatesInto_nil, pushPredicatesInto_nil]
  | cons first rest => rfl

/-- The subtrees that predicates are pushed to, with the predicates that end up there. -/
def landings : QueryPlan → List Expression → List (QueryPlan × List Expression)
  | join left right joinType algorithm, predicates =>
      left.landings (pushedLeft left right predicates) ++ right.landings (pushedRight left right predicates) ++
        [(join left right joinType algorithm, keptAt left right predicates)]
  | plan, predicates => [(plan, predicates)]

theorem belongsTo_iff {info names : List (String × List ColumnMeta)} {predicate : Expression} :
    belongsTo info names predicate = true ↔
      ∃ table, referencedTables info predicate = .ok [table] ∧ table ∈ names.map Prod.fst := by
  unfold belongsTo
  constructor
  · intro h
    split at h
    · rename_i table htable
      obtain ⟨entry, hentry, hname⟩ := List.any_eq_true.mp h
      exact ⟨table, htable, List.mem_map.mpr ⟨entry, hentry, of_decide_eq_true hname⟩⟩
    · cases h
  · rintro ⟨table, htable, hmem⟩
    obtain ⟨entry, hentry, rfl⟩ := List.mem_map.mp hmem
    rw [htable]
    exact List.any_eq_true.mpr ⟨entry, hentry, decide_eq_true rfl⟩

/-- A predicate is not pushed to the side that an outer join pads, and no table that stands before its own hides it. -/
def movesSafely : QueryPlan → Expression → Bool
  | join left right joinType _, predicate =>
      let info := left.tableInfo ++ right.tableInfo
      if belongsTo info left.tableInfo predicate then joinType ≠ .right && left.movesSafely predicate
      else if belongsTo info right.tableInfo predicate then
        joinType ≠ .left && hidesNone left.tableInfo predicate && right.movesSafely predicate
      else true
  | _, _ => true

theorem movesSafely_left {left right : QueryPlan} {joinType : JoinType} {algorithm : JoinAlgorithm}
    {predicates : List Expression}
    (h : ∀ predicate ∈ predicates, (join left right joinType algorithm).movesSafely predicate = true) :
    ∀ predicate ∈ left.pushedLeft right predicates, joinType ≠ .right ∧ left.movesSafely predicate = true := by
  intro predicate hpredicate
  obtain ⟨hmem, hbelongs⟩ := List.mem_filter.mp hpredicate
  have hmoves := h predicate hmem
  simp only [movesSafely] at hmoves
  rw [if_pos hbelongs, Bool.and_eq_true] at hmoves
  exact ⟨of_decide_eq_true hmoves.1, hmoves.2⟩

theorem movesSafely_right {left right : QueryPlan} {joinType : JoinType} {algorithm : JoinAlgorithm}
    {predicates : List Expression}
    (h : ∀ predicate ∈ predicates, (join left right joinType algorithm).movesSafely predicate = true) :
    ∀ predicate ∈ left.pushedRight right predicates,
      joinType ≠ .left ∧ hidesNone left.tableInfo predicate = true ∧ right.movesSafely predicate = true := by
  intro predicate hpredicate
  obtain ⟨hpast, hbelongs⟩ := List.mem_filter.mp hpredicate
  obtain ⟨hmem, hother⟩ := List.mem_filter.mp hpast
  have hmoves := h predicate hmem
  simp only [movesSafely] at hmoves
  rw [if_neg (by simpa using hother), if_pos hbelongs, Bool.and_eq_true, Bool.and_eq_true] at hmoves
  exact ⟨of_decide_eq_true hmoves.1.1, hmoves.1.2, hmoves.2⟩

/-- The conjuncts of a filter that are pushed into the tree below it. -/
def pushable (input : QueryPlan) (predicate : Expression) : List Expression :=
  (decomposeConjunction predicate).filter (isPushable input.tableInfo)

/-- The conjuncts that stay above it. -/
def unpushable (input : QueryPlan) (predicate : Expression) : List Expression :=
  (decomposeConjunction predicate).filter fun conjunct => !isPushable input.tableInfo conjunct

theorem pushDownPredicates_filter (input : QueryPlan) (predicate : Expression) :
    (filter input predicate).pushDownPredicates =
      (input.pushPredicatesInto (input.pushable predicate)).keptOver (input.unpushable predicate) := rfl

/-- The subtrees with the conjuncts of a filter over them. -/
def places (input : QueryPlan) (predicate : Expression) : List (QueryPlan × List Expression) :=
  input.landings (input.pushable predicate) ++ [(input, input.unpushable predicate)]

/-- Scans without a condition under nested-loop joins. -/
inductive JoinTree : QueryPlan → Prop
  | scan (table : String) (columns : List ColumnMeta) : JoinTree (.tableScan table columns none none none)
  | join {left right : QueryPlan} (joinType : JoinType) (onClause : Option Expression) (hleft : JoinTree left)
      (hright : JoinTree right) : JoinTree (.join left right joinType (.nestedLoop onClause))

/-- What `plan_select` builds below the projection: joins, then perhaps a filter, a sort and a limit. -/
inductive SelectTree : QueryPlan → Prop
  | joins {plan : QueryPlan} (htree : JoinTree plan) : SelectTree plan
  | filter {input : QueryPlan} (predicate : Expression) (htree : JoinTree input) : SelectTree (.filter input predicate)
  | sort {input : QueryPlan} (orderBy : List OrderByExpr) (htree : SelectTree input) : SelectTree (.sort input orderBy)
  | limit {input : QueryPlan} (count offset : Nat) (htree : SelectTree input) : SelectTree (.limit input count offset)

theorem JoinTree.pushDownPredicates_eq {plan : QueryPlan} (h : JoinTree plan) : plan.pushDownPredicates = plan := by
  induction h with
  | scan table columns => rfl
  | join joinType onClause hleft hright ihLeft ihRight => rw [pushDownPredicates, ihLeft, ihRight]

theorem slots_of_tableInfo {plan next : QueryPlan} (h : next.tableInfo = plan.tableInfo) : next.slots = plan.slots := by
  rw [slots_eq, slots_eq, h]

theorem slots_pushPredicatesInto (plan : QueryPlan) (predicates : List Expression) :
    (plan.pushPredicatesInto predicates).slots = plan.slots :=
  slots_of_tableInfo (@keeps_pushPredicatesInto (.any []) [] plan predicates fun _ _ => trivial).info

theorem slots_pushDownPredicates (plan : QueryPlan) : plan.pushDownPredicates.slots = plan.slots :=
  slots_of_tableInfo (@keeps_pushDownPredicates (.any []) [] plan).info

theorem joinTree_planJoins {tables : List Table} {clauses : List JoinClause} {plan joined : QueryPlan}
    (hplan : JoinTree plan) (h : clauses.foldlM (planJoin tables) plan = .ok joined) : JoinTree joined := by
  induction clauses generalizing plan with
  | nil =>
      cases h
      exact hplan
  | cons clause rest ih =>
      rw [List.foldlM_cons] at h
      obtain ⟨next, hnext, hrest⟩ := Loop.bind_ok_iff.mp h
      obtain ⟨right, hright, hsame⟩ := Loop.bind_ok_iff.mp hnext
      cases hsame
      exact ih (.join _ _ hplan (.scan _ _)) hrest

theorem selectTree_planSelect {tables : List Table} {statement : SelectStatement} {plan : QueryPlan}
    (h : planSelect tables statement = .ok plan) :
    ∃ input columns tableMap, plan = .projection input columns tableMap ∧ SelectTree input := by
  unfold planSelect at h
  obtain ⟨primary, hprimary, h⟩ := Loop.bind_ok_iff.mp h
  obtain ⟨joined, hjoined, h⟩ := Loop.bind_ok_iff.mp h
  obtain ⟨tableMap, hmap, h⟩ := Loop.bind_ok_iff.mp h
  obtain ⟨columns, hcolumns, h⟩ := Loop.bind_ok_iff.mp h
  cases h
  have htree := joinTree_planJoins (.scan _ _) hjoined
  have hlimited (filtered : QueryPlan) (hfiltered : SelectTree filtered) :
      let sorted := if statement.orderBy.isEmpty then filtered else .sort filtered statement.orderBy
      SelectTree (if statement.limit.isSome || 0 < statement.offset.getD 0 then
        .limit sorted (statement.limit.getD u64Max) (statement.offset.getD 0) else sorted) := by
    dsimp only
    split <;> split
    · exact .limit _ _ hfiltered
    · exact .limit _ _ (.sort _ hfiltered)
    · exact hfiltered
    · exact .sort _ hfiltered
  refine ⟨_, columns, tableMap, rfl, ?_⟩
  cases statement.whereClause with
  | none => exact hlimited joined (.joins htree)
  | some predicate => exact hlimited (.filter joined predicate) (.filter predicate htree)

end QueryPlan

/-! ### Rows at a place -/

section Rows

variable [CaseMapping] [Rendering] {ctx : ExecContext} {counts : Except HelionError Datum → Bool}

/-- Each of the predicates counts on a row, in the sense that is asked for. -/
def countsAll (ctx : ExecContext) (counts : Except HelionError Datum → Bool) (slots : List Expression.TableSlot)
    (parts : List Expression) (row : List Datum) : Bool :=
  parts.all fun part => counts (part.evaluateJoin ctx.choices.uuidv7 row slots)

/-- The predicates at a place filter its rows as one by one. -/
def FiltersAll (ctx : ExecContext) (counts : Except HelionError Datum → Bool)
    (place : QueryPlan × List Expression) : Prop :=
  ∀ row, JoinedRow ctx place.1.outer place.1.tableInfo row →
    Expression.passes ((recomposeConjunction place.2).evaluateJoin ctx.choices.uuidv7 row place.1.slots) =
      countsAll ctx counts place.1.slots place.2 row

/-- A predicate that stands alone at its place is TRUE on the rows there that it counts as true on. -/
def LoneTrue (ctx : ExecContext) (place : QueryPlan × List Expression) : Prop :=
  ∀ part, place.2 = [part] → ∀ row, JoinedRow ctx place.1.outer place.1.tableInfo row →
    TrueOnly (part.evaluateJoin ctx.choices.uuidv7 row place.1.slots)

theorem LoneTrue.filtersAll {place : QueryPlan × List Expression} (h : LoneTrue ctx place) :
    FiltersAll ctx isTrue place := by
  obtain ⟨plan, parts⟩ := place
  intro row hrow
  match parts with
  | [] => rfl
  | [part] =>
      rw [countsAll, List.all_cons, List.all_nil, Bool.and_true]
      exact (h part rfl row hrow).passes_eq
  | first :: second :: rest => exact passes_foldl first second rest

theorem filtersAll_of_length_le {place : QueryPlan × List Expression} (h : place.2.length ≤ 1) :
    FiltersAll ctx Expression.passes place := by
  obtain ⟨plan, parts⟩ := place
  intro row hrow
  match parts with
  | [] => rfl
  | [part] =>
      rw [countsAll, List.all_cons, List.all_nil, Bool.and_true]
      rfl
  | first :: second :: rest => exact absurd h (by simp)

omit [CaseMapping] [Rendering] in
/-- No place holds more predicates than are pushed. -/
theorem length_le_of_mem_landings {plan : QueryPlan} {predicates : List Expression}
    {place : QueryPlan × List Expression} (h : place ∈ plan.landings predicates) :
    place.2.length ≤ predicates.length := by
  have hpast (left right : QueryPlan) (predicates : List Expression) :
      (left.pastLeft right predicates).length ≤ predicates.length := List.length_filter_le _ _
  induction plan generalizing predicates with
  | join left right joinType algorithm ihLeft ihRight =>
      rcases List.mem_append.mp h with hside | hkept
      · rcases List.mem_append.mp hside with hleft | hright
        · exact (ihLeft hleft).trans (List.length_filter_le _ _)
        · exact (ihRight hright).trans ((List.length_filter_le _ _).trans (hpast left right predicates))
      · obtain rfl := List.mem_singleton.mp hkept
        exact (List.length_filter_le _ _).trans (hpast left right predicates)
  | tableScan table columns condition indexName indexKeys =>
      obtain rfl := List.mem_singleton.mp h
      exact le_rfl
  | filter input predicate ih =>
      obtain rfl := List.mem_singleton.mp h
      exact le_rfl
  | projection input columns tableMap ih =>
      obtain rfl := List.mem_singleton.mp h
      exact le_rfl
  | sort input orderBy ih =>
      obtain rfl := List.mem_singleton.mp h
      exact le_rfl
  | limit input count offset ih =>
      obtain rfl := List.mem_singleton.mp h
      exact le_rfl

theorem countsAll_filter_split {slots : List Expression.TableSlot} {parts : List Expression} (test : Expression → Bool)
    (row : List Datum) :
    (countsAll ctx counts slots (parts.filter fun part => !test part) row &&
      countsAll ctx counts slots (parts.filter test) row) = countsAll ctx counts slots parts row := by
  unfold countsAll
  induction parts with
  | nil => rfl
  | cons part parts ih =>
      rw [List.all_cons, ← ih]
      cases htest : test part with
      | true => simp [htest, Bool.and_left_comm]
      | false => simp [htest, Bool.and_assoc]

theorem filter_countsAll_nil (slots : List Expression.TableSlot) (rows : DataRows) :
    rows.filter (countsAll ctx counts slots []) = rows :=
  List.filter_eq_self.mpr fun _ _ => rfl

/-- A filter by predicates keeps the rows that they all count on. -/
theorem executeTree_keptOver {plan next : QueryPlan} {keep : List Expression} (hslots : next.slots = plan.slots)
    (hrows : ∀ rows, executeTree ctx next = .ok rows → ∀ row ∈ rows, JoinedRow ctx plan.outer plan.tableInfo row)
    (hfilters : FiltersAll ctx counts (plan, keep)) :
    executeTree ctx (next.keptOver keep) =
      (executeTree ctx next).map (List.filter (countsAll ctx counts plan.slots keep)) := by
  unfold QueryPlan.keptOver
  cases hrun : executeTree ctx next with
  | error err =>
      split
      · exact hrun
      · rw [executeTree, hrun]
        rfl
  | ok rows =>
      split
      · rename_i hnone
        obtain rfl := List.isEmpty_iff.mp hnone
        rw [Except.map, filter_countsAll_nil]
        exact hrun
      · rw [executeTree, hrun]
        apply congrArg Except.ok
        apply List.filter_congr
        intro row hrow
        show Expression.passes _ = _
        rw [hslots]
        exact hfilters row (hrows rows hrun row hrow)

omit [CaseMapping] [Rendering] in
theorem length_of_joinedRow {padded : Bool} (hfit : ∀ table ∈ ctx.tables, table.RowsFit)
    {info : List (String × List ColumnMeta)}
    (hknown : ∀ entry ∈ info, ∃ table, findTable entry.1 ctx.tables = some table ∧ table.columns = entry.2)
    {row : List Datum} (h : JoinedRow ctx padded info row) : row.length = combinedLen info := by
  obtain ⟨pieces, hpieces, rfl⟩ := h
  induction hpieces with
  | nil => rfl
  | cons hfirst hrest ih =>
      obtain ⟨⟨table, htable, hcolumns⟩, hothers⟩ := List.forall_mem_cons.mp hknown
      rw [List.flatten_cons, List.length_append, combinedLen_cons, ih hothers, width_of_piece hfit htable hfirst, hcolumns]

theorem countsAll_congr {slots others : List Expression.TableSlot} {parts : List Expression} {row other : List Datum}
    (h : ∀ part ∈ parts, part.evaluateJoin ctx.choices.uuidv7 row slots =
      part.evaluateJoin ctx.choices.uuidv7 other others) :
    countsAll ctx counts slots parts row = countsAll ctx counts others parts other := by
  apply Bool.eq_iff_iff.mpr
  simp only [countsAll, List.all_eq_true]
  apply forall₂_congr
  intro part hpart
  rw [h part hpart]

/-- Predicates of the left side count on a combined row where they count on its left part. -/
theorem countsAll_left {left right : QueryPlan} {joinType : JoinType} {algorithm : JoinAlgorithm}
    {predicates : List Expression} (hnodup : ((left.tableInfo ++ right.tableInfo).map Prod.fst).Nodup)
    {leftRow : List Datum} (hwidth : leftRow.length = combinedLen left.tableInfo) (rightRow : List Datum) :
    countsAll ctx counts (QueryPlan.join left right joinType algorithm).slots (left.pushedLeft right predicates)
        (leftRow ++ rightRow) =
      countsAll ctx counts left.slots (left.pushedLeft right predicates) leftRow := by
  apply countsAll_congr
  intro part hpart
  obtain ⟨table, htable, hmem⟩ := QueryPlan.belongsTo_iff.mp (List.mem_filter.mp hpart).2
  rw [slots_eq, slots_eq]
  refine evaluateJoin_left hwidth hnodup htable fun name hname => ?_
  rw [List.mem_singleton.mp hname]
  exact hmem

/-- Predicates of the right side count on a combined row where they count on its right part. -/
theorem countsAll_right {left right : QueryPlan} {joinType : JoinType} {algorithm : JoinAlgorithm}
    {predicates : List Expression} (hnodup : ((left.tableInfo ++ right.tableInfo).map Prod.fst).Nodup)
    (hclear : ∀ predicate ∈ left.pushedRight right predicates, hidesNone left.tableInfo predicate = true)
    {leftRow : List Datum} (hwidth : leftRow.length = combinedLen left.tableInfo) (rightRow : List Datum) :
    countsAll ctx counts (QueryPlan.join left right joinType algorithm).slots (left.pushedRight right predicates)
        (leftRow ++ rightRow) =
      countsAll ctx counts right.slots (left.pushedRight right predicates) rightRow := by
  apply countsAll_congr
  intro part hpart
  obtain ⟨table, htable, hmem⟩ := QueryPlan.belongsTo_iff.mp (List.mem_filter.mp hpart).2
  rw [slots_eq, slots_eq]
  refine evaluateJoin_right hwidth hnodup htable (fun name hname => ?_) (hclear part hpart)
  rw [List.mem_singleton.mp hname]
  exact hmem

/-- Filters on the sides of a join filter its rows. -/
theorem executeTree_join_filter {rules : PlanRules} {left right nextLeft nextRight : QueryPlan} {joinType : JoinType}
    {onClause : Option Expression} {predicates : List Expression} (hfit : ∀ table ∈ ctx.tables, table.RowsFit)
    (hplannedLeft : left.WellPlanned rules ctx.tables)
    (hnodup : ((left.tableInfo ++ right.tableInfo).map Prod.fst).Nodup)
    (hmovesLeft : ∀ predicate ∈ left.pushedLeft right predicates, joinType ≠ .right)
    (hmovesRight : ∀ predicate ∈ left.pushedRight right predicates,
      joinType ≠ .left ∧ hidesNone left.tableInfo predicate = true)
    (hslotsLeft : nextLeft.slots = left.slots) (hslotsRight : nextRight.slots = right.slots)
    (hnextLeft : executeTree ctx nextLeft = (executeTree ctx left).map
      (List.filter (countsAll ctx counts left.slots (left.pushedLeft right predicates))))
    (hnextRight : executeTree ctx nextRight = (executeTree ctx right).map
      (List.filter (countsAll ctx counts right.slots (left.pushedRight right predicates)))) :
    executeTree ctx (.join nextLeft nextRight joinType (.nestedLoop onClause)) =
      (executeTree ctx (.join left right joinType (.nestedLoop onClause))).map (List.filter fun row =>
        countsAll ctx counts (QueryPlan.join left right joinType (.nestedLoop onClause)).slots
            (left.pushedRight right predicates) row &&
          countsAll ctx counts (QueryPlan.join left right joinType (.nestedLoop onClause)).slots
            (left.pushedLeft right predicates) row) := by
  rw [executeTree, executeTree, hnextLeft, hnextRight, hslotsLeft, hslotsRight]
  cases hrunLeft : executeTree ctx left with
  | error err => rfl
  | ok leftRows =>
      cases hrunRight : executeTree ctx right with
      | error err => rfl
      | ok rightRows =>
          apply congrArg Except.ok
          have hwidth : ∀ leftRow ∈ leftRows, leftRow.length = combinedLen left.tableInfo := fun leftRow hleft =>
            length_of_joinedRow hfit (known_of_wellPlanned hplannedLeft)
              (joinedRow_executeTree hplannedLeft id hrunLeft leftRow hleft)
          have hpadding : (padding (slotsWidth left.slots)).length = combinedLen left.tableInfo := by
            rw [slotsWidth_slots]
            exact List.length_replicate
          calc nestedLoopJoin ctx.choices left.slots right.slots joinType onClause
                (leftRows.filter (countsAll ctx counts left.slots (left.pushedLeft right predicates)))
                (rightRows.filter (countsAll ctx counts right.slots (left.pushedRight right predicates)))
            _ = (nestedLoopJoin ctx.choices left.slots right.slots joinType onClause
                  (leftRows.filter (countsAll ctx counts left.slots (left.pushedLeft right predicates))) rightRows).filter
                    (countsAll ctx counts (left.join right joinType (.nestedLoop onClause)).slots
                      (left.pushedRight right predicates)) := by
                rcases eq_or_ne (left.pushedRight right predicates) [] with hnone | hsome
                · rw [hnone, filter_countsAll_nil, filter_countsAll_nil]
                · obtain ⟨part, hpart⟩ := List.exists_mem_of_ne_nil _ hsome
                  apply nestedLoopJoin_filter_right (hmovesRight part hpart).1
                  intro rightRow hright leftRow hleft
                  refine countsAll_right hnodup (fun part hpart => (hmovesRight part hpart).2) ?_ rightRow
                  rcases hleft with hleft | rfl
                  · exact hwidth leftRow (List.mem_filter.mp hleft).1
                  · exact hpadding
            _ = ((nestedLoopJoin ctx.choices left.slots right.slots joinType onClause leftRows rightRows).filter
                  (countsAll ctx counts (left.join right joinType (.nestedLoop onClause)).slots
                    (left.pushedLeft right predicates))).filter
                      (countsAll ctx counts (left.join right joinType (.nestedLoop onClause)).slots
                        (left.pushedRight right predicates)) := by
                rcases eq_or_ne (left.pushedLeft right predicates) [] with hnone | hsome
                · rw [hnone, filter_countsAll_nil, filter_countsAll_nil]
                · obtain ⟨part, hpart⟩ := List.exists_mem_of_ne_nil _ hsome
                  congr 1
                  apply nestedLoopJoin_filter_left (hmovesLeft part hpart)
                  intro leftRow hleft rightRow hright
                  exact countsAll_left hnodup (hwidth leftRow hleft) rightRow
            _ = _ := List.filter_filter

/-- What is filtered at the top by predicates that move safely is filtered at their places. -/
theorem executeTree_pushPredicatesInto {rules : PlanRules} {plan : QueryPlan} {predicates : List Expression}
    (hfit : ∀ table ∈ ctx.tables, table.RowsFit) (htree : QueryPlan.JoinTree plan)
    (hplanned : plan.WellPlanned rules ctx.tables) (hnodup : (plan.tableInfo.map Prod.fst).Nodup)
    (hmoves : ∀ predicate ∈ predicates, plan.movesSafely predicate = true)
    (hfilters : ∀ place ∈ plan.landings predicates, FiltersAll ctx counts place) :
    executeTree ctx (plan.pushPredicatesInto predicates) =
      (executeTree ctx plan).map (List.filter (countsAll ctx counts plan.slots predicates)) := by
  induction htree generalizing predicates with
  | scan table columns =>
      have hrows {rows : DataRows} (hrun : executeTree ctx (.tableScan table columns none none none) = .ok rows) :=
        joinedRow_executeTree hplanned id hrun
      cases predicates with
      | nil =>
          rw [QueryPlan.pushPredicatesInto_nil]
          cases executeTree ctx (.tableScan table columns none none none) with
          | error err => rfl
          | ok rows => exact congrArg Except.ok (filter_countsAll_nil _ rows).symm
      | cons first rest =>
          have hplace := hfilters _ (List.mem_singleton_self _)
          show executeTree ctx (.tableScan table columns (some (recomposeConjunction (first :: rest))) none none) = _
          rw [executeTree, executeTableScan] at hrows ⊢
          rw [executeTree, executeTableScan]
          cases hfound : requireTable ctx.tables table with
          | error err => rfl
          | ok found =>
              rw [hfound] at hrows
              apply congrArg Except.ok
              have hall {rows : DataRows} :
                  rows.filter (satisfies ctx.choices [{ name := table, offset := 0, columns := columns }] none) = rows :=
                List.filter_eq_self.mpr fun _ _ => rfl
              rw [hall]
              apply List.filter_congr
              intro row hrow
              exact hplace row (hrows rfl row (by rw [hall]; exact hrow))
  | @join left right joinType onClause hleft hright ihLeft ihRight =>
      obtain ⟨hplannedLeft, hplannedRight, hon⟩ := hplanned
      rw [QueryPlan.tableInfo] at hnodup
      have hnodups := List.nodup_append.mp (List.map_append ▸ hnodup)
      have hmovesLeft := QueryPlan.movesSafely_left hmoves
      have hmovesRight := QueryPlan.movesSafely_right hmoves
      have hpushedLeft :=
        ihLeft hplannedLeft hnodups.1 (fun part hpart => (hmovesLeft part hpart).2) fun place hplace =>
        hfilters place (List.mem_append_left _ (List.mem_append_left _ hplace))
      have hpushedRight := ihRight hplannedRight hnodups.2.1 (fun part hpart => (hmovesRight part hpart).2.2)
        fun place hplace => hfilters place (List.mem_append_left _ (List.mem_append_right _ hplace))
      have hkept := hfilters _ (List.mem_append_right _ (List.mem_singleton_self _))
      have hpushed := @executeTree_join_filter _ _ ctx counts _ left right _ _ joinType onClause predicates hfit
        hplannedLeft hnodup (fun part hpart => (hmovesLeft part hpart).1)
        (fun part hpart => ⟨(hmovesRight part hpart).1, (hmovesRight part hpart).2.1⟩)
        (QueryPlan.slots_pushPredicatesInto left _) (QueryPlan.slots_pushPredicatesInto right _) hpushedLeft hpushedRight
      have hslots : (QueryPlan.join (left.pushPredicatesInto (left.pushedLeft right predicates))
          (right.pushPredicatesInto (left.pushedRight right predicates)) joinType (.nestedLoop onClause)).slots =
          (QueryPlan.join left right joinType (.nestedLoop onClause)).slots := by
        rw [QueryPlan.slots, QueryPlan.slots, QueryPlan.slots_pushPredicatesInto, QueryPlan.slots_pushPredicatesInto]
      have hrows := @joinedRow_executeTree ctx _ _ _ rules (.join left right joinType (.nestedLoop onClause))
        ⟨hplannedLeft, hplannedRight, hon⟩ id
      cases hrun : executeTree ctx (.join left right joinType (.nestedLoop onClause)) with
      | error err =>
          rw [hrun] at hpushed
          rw [QueryPlan.pushPredicatesInto_join, executeTree_keptOver hslots (fun rows hok => ?_) hkept, hpushed]
          · rfl
          · cases hpushed.symm.trans hok
      | ok rows =>
          rw [hrun] at hpushed
          rw [QueryPlan.pushPredicatesInto_join, executeTree_keptOver hslots (fun next hok => ?_) hkept, hpushed]
          · apply congrArg Except.ok
            rw [List.filter_filter]
            apply List.filter_congr
            intro row hrow
            rw [← Bool.and_assoc]
            exact (congrArg (· && _) (countsAll_filter_split _ row)).trans (countsAll_filter_split _ row)
          · obtain rfl := Except.ok.inj (hpushed.symm.trans hok)
            exact fun row hrow => hrows hrun row (List.mem_filter.mp hrow).1

/-- A plan whose conjuncts are pushed safely: none moves where it means something else, and none that counts as true
without being TRUE ends up alone, unless it was alone before. -/
def QueryPlan.PushesSafely (ctx : ExecContext) : QueryPlan → Prop
  | .filter input predicate =>
      (∀ conjunct ∈ input.pushable predicate, input.movesSafely conjunct = true) ∧
        ((decomposeConjunction predicate).length ≤ 1 ∨ ∀ place ∈ input.places predicate, LoneTrue ctx place)
  | .projection input _ _ | .sort input _ | .limit input _ _ => input.PushesSafely ctx
  | .tableScan _ _ _ _ _ | .join _ _ _ _ => True

/-- The conjuncts of a filter keep, at their places, the rows that the filter keeps. -/
theorem executeTree_pushDown_filter {rules : PlanRules} {input : QueryPlan} {predicate : Expression}
    (hfit : ∀ table ∈ ctx.tables, table.RowsFit) (htree : QueryPlan.JoinTree input)
    (hplanned : input.WellPlanned rules ctx.tables) (hnodup : (input.tableInfo.map Prod.fst).Nodup)
    (hmoves : ∀ conjunct ∈ input.pushable predicate, input.movesSafely conjunct = true)
    (hfilters : ∀ place ∈ input.places predicate, FiltersAll ctx counts place)
    (hpasses : ∀ row, Expression.passes (predicate.evaluateJoin ctx.choices.uuidv7 row input.slots) =
      countsAll ctx counts input.slots (decomposeConjunction predicate) row) :
    executeTree ctx (QueryPlan.filter input predicate).pushDownPredicates = executeTree ctx (.filter input predicate) := by
  have hpushed := executeTree_pushPredicatesInto hfit htree hplanned hnodup hmoves
    fun place hplace => hfilters place (List.mem_append_left _ hplace)
  have hkept := hfilters _ (List.mem_append_right _ (List.mem_singleton_self _))
  rw [QueryPlan.pushDownPredicates_filter, executeTree_keptOver (QueryPlan.slots_pushPredicatesInto _ _) ?_ hkept, hpushed,
    executeTree]
  · cases executeTree ctx input with
    | error err => rfl
    | ok rows =>
        apply congrArg Except.ok
        rw [List.filter_filter]
        apply List.filter_congr
        intro row hrow
        exact (countsAll_filter_split _ row).trans (hpasses row).symm
  · intro next hok row hrow
    rw [hpushed] at hok
    cases hrun : executeTree ctx input with
    | error err =>
        rw [hrun] at hok
        cases hok
    | ok rows =>
        rw [hrun] at hok
        obtain rfl := Except.ok.inj hok
        exact joinedRow_executeTree hplanned id hrun row (List.mem_filter.mp hrow).1

theorem executeTree_pushDownPredicates {rules : PlanRules} {plan : QueryPlan}
    (hfit : ∀ table ∈ ctx.tables, table.RowsFit) (htree : QueryPlan.SelectTree plan)
    (hplanned : plan.WellPlanned rules ctx.tables) (hnodup : (plan.tableInfo.map Prod.fst).Nodup)
    (hsafe : plan.PushesSafely ctx) : executeTree ctx plan.pushDownPredicates = executeTree ctx plan := by
  induction htree with
  | joins htree => rw [htree.pushDownPredicates_eq]
  | filter predicate htree =>
      obtain ⟨hmoves, hplaces⟩ := hsafe
      by_cases hsingle : (decomposeConjunction predicate).length ≤ 1
      · apply @executeTree_pushDown_filter _ _ ctx Expression.passes _ _ _ hfit htree hplanned.1 hnodup hmoves
        · intro place hplace
          apply filtersAll_of_length_le
          refine le_trans ?_ hsingle
          rcases List.mem_append.mp hplace with hlanding | hkept
          · exact (length_le_of_mem_landings hlanding).trans (List.length_filter_le _ _)
          · obtain rfl := List.mem_singleton.mp hkept
            exact List.length_filter_le _ _
        · exact fun row => passes_of_single hsingle
      · apply @executeTree_pushDown_filter _ _ ctx isTrue _ _ _ hfit htree hplanned.1 hnodup hmoves
        · exact fun place hplace => (hplaces.resolve_left hsingle place hplace).filtersAll
        · exact fun row => passes_decomposeConjunction (by omega)
  | sort orderBy htree ih =>
      rw [QueryPlan.pushDownPredicates, executeTree, executeTree, ih hplanned.1 hnodup hsafe,
        QueryPlan.slots_pushDownPredicates]
  | limit count offset htree ih =>
      rw [QueryPlan.pushDownPredicates, executeTree, executeTree, ih hplanned hnodup hsafe]

/-- The plan of a SELECT over distinct tables returns the rows that it returned before predicate pushdown, where its
conjuncts are pushed safely. -/
theorem pushdown_preserves_rows {statement : SelectStatement} {plan : QueryPlan}
    (hfit : ∀ table ∈ ctx.tables, table.RowsFit) (hplan : planSelect ctx.tables statement = .ok plan)
    (hdistinct : statement.names.Nodup) (hsafe : plan.PushesSafely ctx) :
    executeTree ctx plan.pushDownPredicates = executeTree ctx plan := by
  obtain ⟨input, columns, tableMap, rfl, hsourced, hcolumns, hinfo, houter, hplanned⟩ := planSelect_ok hplan
  obtain ⟨tree, others, entries, hsame, htree⟩ := QueryPlan.selectTree_planSelect hplan
  cases hsame
  have hnodup : (input.tableInfo.map Prod.fst).Nodup := by
    rw [hinfo, ← Sourced.names hsourced]
    exact hdistinct
  rw [QueryPlan.pushDownPredicates, executeTree, executeTree,
    executeTree_pushDownPredicates hfit htree (hplanned (.any tableMap) rfl fun _ _ => trivial) hnodup hsafe]

end Rows

section

open scoped AsciiCase PlainText

/-- The labels of the items that meet a condition. -/
def labelsWhere (condition : Expression) : SelectStatement := { labels with whereClause := some condition }

/-- WHERE id = 1 AND price = 7. -/
def firstItem : Expression :=
  .binaryOp (.binaryOp (.column "id") .eq (.literal (.integer 1))) .and
    (.binaryOp (.column "price") .eq (.literal (.integer 7)))

/-- The items with their tags. -/
def labelsJoin : QueryPlan :=
  .join (.tableScan "item" [.new "id" .integer, .new "price" .integer] none none none)
    (.tableScan "tag" [.new "item" .integer, .new "label" .text] none none none) .left
    (.nestedLoop (some (.binaryOp (.column "id") .eq (.column "item"))))

/-- The plan of a query for labels. -/
def labelsTree (condition : Expression) : QueryPlan :=
  .projection (.filter labelsJoin condition) [0, 3] labelsJoin.tableInfo

theorem pushdown_preserves_first_item :
    executeTree ((shop (.integer 7)).execContext .asGiven) (labelsTree firstItem).pushDownPredicates =
      executeTree ((shop (.integer 7)).execContext .asGiven) (labelsTree firstItem) := by
  have hfit : ∀ table ∈ (shop (.integer 7)).engine.tables, table.RowsFit := by
    unfold Table.RowsFit
    decide
  have hplan : planSelect (shop (.integer 7)).engine.tables (labelsWhere firstItem) = .ok (labelsTree firstItem) := rfl
  refine pushdown_preserves_rows hfit hplan (by decide) ⟨by decide, .inr fun place hplace part hpart => ?_⟩
  -- Both conjuncts go to the items, and none stays anywhere else.
  have hplaces : ∀ place ∈ labelsJoin.places firstItem, place.2.length ≠ 1 := by decide
  exact fun _ _ => absurd (congrArg List.length hpart) (hplaces place hplace)

/-- A condition on the tags lets the items without a tag through when it moves to the tags. -/
theorem not_pushdown_preserves_rows :
    ¬∀ (ctx : ExecContext) (statement : SelectStatement) (plan : QueryPlan), (∀ table ∈ ctx.tables, table.RowsFit) →
      planSelect ctx.tables statement = .ok plan → statement.names.Nodup →
      executeTree ctx plan.pushDownPredicates = executeTree ctx plan := by
  intro h
  have hfit : ∀ table ∈ (shop (.integer 7)).engine.tables, table.RowsFit := by
    unfold Table.RowsFit
    decide
  have hsame := h ((shop (.integer 7)).execContext .asGiven)
    (labelsWhere (.binaryOp (.column "label") .eq (.literal (.text "new")))) (labelsTree _) hfit rfl (by decide)
  exact absurd hsame (by decide)

end

end HelionDb
