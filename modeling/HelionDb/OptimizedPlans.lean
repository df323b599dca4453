import HelionDb.Contents
import HelionDb.HashJoin
import HelionDb.IndexConsistency
import HelionDb.PushedPlans

/-! The optimizer as a whole. Predicate pushdown and index selection leave the rows of a plan where they are; a hash join
may bring them in another order, which no node above it can tell but a limit. So the optimized plan of a SELECT returns the
rows of the plan it was made from, up to their order, where each rewriting is safe at the node it is made at. -/

namespace HelionDb

open Expression (TableSlot)

namespace QueryPlan

open scoped List

section

variable [CaseMapping] [Rendering] {ctx : ExecContext} {rules : PlanRules}

theorem executeTableScan_ok {name : String} {columns : List ColumnMeta} {condition : Option Expression}
    {indexName : Option String} {keys : Option (List Datum)}
    (hplanned : (QueryPlan.tableScan name columns condition indexName keys).WellPlanned rules ctx.tables) :
    ∃ rows, executeTree ctx (.tableScan name columns condition indexName keys) = .ok rows := by
  obtain ⟨⟨-, table, htable, -⟩, -, hindex⟩ := hplanned
  rw [executeTree, executeTableScan, requireTable, htable]
  dsimp only [bind, Except.bind]
  cases indexName with
  | none => exact ⟨_, rfl⟩
  | some indexName =>
      obtain ⟨other, hother, index, hmem, hname, -⟩ := hindex indexName rfl
      obtain rfl := Option.some.inj (htable.symm.trans hother)
      have hfound : (table.indexes.find? fun index => index.definition.name = indexName).isSome = true :=
        List.find?_isSome.mpr ⟨index, hmem, decide_eq_true hname⟩
      obtain ⟨found, hfound⟩ := Option.isSome_iff_exists.mp hfound
      rw [scanRows, hfound]
      exact ⟨_, rfl⟩

/-- A planned tree reads tables and indexes that there are, so it returns rows. -/
theorem executeTree_ok {plan : QueryPlan} (hplanned : plan.WellPlanned rules ctx.tables) :
    ∃ rows, executeTree ctx plan = .ok rows := by
  induction plan with
  | tableScan name columns condition indexName keys => exact executeTableScan_ok hplanned
  | join left right joinType algorithm ihLeft ihRight =>
      obtain ⟨hplannedLeft, hplannedRight, halgorithm⟩ := hplanned
      obtain ⟨leftRows, hleft⟩ := ihLeft hplannedLeft
      obtain ⟨rightRows, hright⟩ := ihRight hplannedRight
      cases algorithm with
      | nestedLoop onClause => exact ⟨_, executeTree_nestedLoop hleft hright⟩
      | hashJoin buildLeft buildKeys probeKeys remainingOn => exact ⟨_, executeTree_hashJoin hleft hright⟩
      | indexNestedLoop innerTable innerColumns indexName keys remainingOn =>
          obtain ⟨-, -, ⟨table, htable, index, hmem, hname, -⟩, -⟩ := halgorithm
          have hfound : (table.indexes.find? fun index => index.definition.name = indexName).isSome = true :=
            List.find?_isSome.mpr ⟨index, hmem, decide_eq_true hname⟩
          obtain ⟨found, hfound⟩ := Option.isSome_iff_exists.mp hfound
          rw [executeTree, hleft, requireTable, htable]
          dsimp only [bind, Except.bind]
          rw [hfound]
          exact ⟨_, rfl⟩
  | filter input predicate ih =>
      obtain ⟨rows, hrows⟩ := ih hplanned.1
      rw [executeTree, hrows]
      exact ⟨_, rfl⟩
  | projection input columns tableMap ih => exact hplanned.elim
  | sort input orderBy ih =>
      obtain ⟨rows, hrows⟩ := ih hplanned.1
      rw [executeTree, hrows]
      exact ⟨_, rfl⟩
  | limit input count offset ih =>
      obtain ⟨rows, hrows⟩ := ih hplanned
      rw [executeTree, hrows]
      exact ⟨_, rfl⟩

/-- A planned tree returns rows as wide as the columns of its tables. -/
theorem length_of_executeTree {plan : QueryPlan} (hfit : ∀ table ∈ ctx.tables, table.RowsFit)
    (hplanned : plan.WellPlanned rules ctx.tables) {rows : DataRows} (hrows : executeTree ctx plan = .ok rows) :
    ∀ row ∈ rows, row.length = slotsWidth plan.slots := by
  intro row hrow
  rw [slotsWidth_slots]
  exact length_of_joinedRow hfit (known_of_wellPlanned hplanned) (joinedRow_executeTree hplanned id hrows row hrow)

/-- At every scan with a condition, the lookup of an index that takes the place of the condition agrees with it. -/
def LookupsAgree (ctx : ExecContext) : QueryPlan → Prop
  | .tableScan name _ condition _ _ =>
      ∀ table expr, findTable name ctx.tables = some table → condition = some expr → LookupAgrees table expr
  | .join left right _ _ => left.LookupsAgree ctx ∧ right.LookupsAgree ctx
  | .filter input _ | .projection input _ _ | .sort input _ | .limit input _ _ => input.LookupsAgree ctx

omit [CaseMapping] [Rendering] in
theorem slots_selectIndexes (tables : List Table) (plan : QueryPlan) : (plan.selectIndexes tables).slots = plan.slots :=
  slots_of_tableInfo (@keeps_selectIndexes (.any []) tables plan).info

omit [CaseMapping] [Rendering] in
theorem slots_chooseJoinAlgorithms (tables : List Table) (plan : QueryPlan) :
    (plan.chooseJoinAlgorithms tables).slots = plan.slots :=
  slots_of_tableInfo (@keeps_chooseJoinAlgorithms (.any []) tables plan).info

/-- The tables of a query as it is run at rest: it sees the live rows, and the indexes are the ones they give. -/
structure AtRest (ctx : ExecContext) : Prop where
  consistent : ∀ table ∈ ctx.tables, table.rebuildIndexes = table
  latest : ∀ table ∈ ctx.tables, table.scanVisible ctx.snapshot.txid ctx.snapshot.active = table.scanVisible u64Max ∅

/-- A lookup that agrees with the condition it takes the place of has the rows of the scan, in their order. -/
theorem executeTree_selectIndexes_scan (hrest : AtRest ctx) {name : String} {table : Table}
    (htable : findTable name ctx.tables = some table) {condition : Option Expression} {keys : Option (List Datum)}
    (hagrees : ∀ expr, condition = some expr → LookupAgrees table expr) :
    executeTree ctx ((QueryPlan.tableScan name table.columns condition none keys).selectIndexes ctx.tables) =
      executeTree ctx (.tableScan name table.columns condition none keys) := by
  have hmem := List.mem_of_find?_eq_some htable
  have hunindexed : executeTree ctx (.tableScan name table.columns condition none keys) =
      executeTree ctx (.tableScan name table.columns condition none none) := rfl
  rw [selectIndexes, htable, Option.bind_some, hunindexed]
  cases condition with
  | none => rfl
  | some expr =>
      rw [Option.bind_some]
      cases hchosen : chooseIndexForFilter table expr with
      | none => rfl
      | some lookup =>
          obtain ⟨indexName, keys⟩ := lookup
          obtain ⟨column, literal, idx, coerced, chosen, hcondition, hidx, hcoerced, hfound, rfl, rfl⟩ :=
            chooseIndexForFilter_eq_some.mp hchosen
          have hnamed : (table.indexes.find? fun index => index.definition.name = chosen.definition.name).isSome = true :=
            List.find?_isSome.mpr ⟨chosen, List.mem_of_find?_eq_some hfound, decide_eq_true rfl⟩
          obtain ⟨index, hindex⟩ := Option.isSome_iff_exists.mp hnamed
          have hlookup : lookupIndex table idx = some index := by rw [lookupIndex, hfound, Option.bind_some, hindex]
          dsimp only
          rw [Option.bind_some, removeIndexedPredicate_eq_none hcondition hidx,
            executeTree_lookup htable (hrest.consistent table hmem) (hrest.latest table hmem) hindex,
            executeTree_scan htable (hrest.latest table hmem)]
          apply congrArg Except.ok
          apply List.filter_congr
          intro values hvalues
          rw [satisfies_columnAndLiteral hcondition hidx, Bool.eq_iff_iff, decide_eq_true_iff]
          exact hagrees expr rfl column literal idx coerced index hcondition hidx hcoerced hlookup values hvalues

/-- Index selection leaves the rows of a planned tree as they are where its lookups agree. -/
theorem executeTree_selectIndexes {plan : QueryPlan} (hrest : AtRest ctx) (hplanned : plan.WellPlanned rules ctx.tables)
    (hagrees : plan.LookupsAgree ctx) : executeTree ctx (plan.selectIndexes ctx.tables) = executeTree ctx plan := by
  induction plan with
  | tableScan name columns condition indexName keys =>
      obtain ⟨⟨-, table, htable, rfl⟩, -, -⟩ := hplanned
      cases indexName with
      | some chosen => rw [selectIndexes]
      | none => exact executeTree_selectIndexes_scan hrest htable fun expr => hagrees table expr htable
  | join left right joinType algorithm ihLeft ihRight =>
      have hleft := ihLeft hplanned.1 hagrees.1
      have hright := ihRight hplanned.2.1 hagrees.2
      rw [selectIndexes]
      cases algorithm with
      | nestedLoop onClause =>
          rw [executeTree, executeTree, hleft, hright, slots_selectIndexes, slots_selectIndexes]
      | hashJoin buildLeft buildKeys probeKeys remainingOn =>
          rw [executeTree, executeTree, hleft, hright, slots_selectIndexes, slots_selectIndexes]
      | indexNestedLoop innerTable innerColumns indexName keys remainingOn =>
          rw [executeTree, executeTree, hleft, slots_selectIndexes]
  | filter input predicate ih => rw [selectIndexes, executeTree, executeTree, ih hplanned.1 hagrees, slots_selectIndexes]
  | projection input columns tableMap ih => exact hplanned.elim
  | sort input orderBy ih => rw [selectIndexes, executeTree, executeTree, ih hplanned.1 hagrees, slots_selectIndexes]
  | limit input count offset ih => rw [selectIndexes, executeTree, executeTree, ih hplanned hagrees]

/-! ### Join algorithms -/

omit [CaseMapping] [Rendering] in
theorem countOutputColumns_chooseJoinAlgorithms (tables : List Table) (plan : QueryPlan) :
    (plan.chooseJoinAlgorithms tables).countOutputColumns = plan.countOutputColumns := by
  induction plan with
  | tableScan name columns condition indexName keys => rfl
  | join left right joinType algorithm ihLeft ihRight =>
      have hsum := congrArg₂ (· + ·) ihLeft ihRight
      cases algorithm <;> exact hsum
  | filter input predicate ih => exact ih
  | projection input columns tableMap ih => rfl
  | sort input orderBy ih => exact ih
  | limit input count offset ih => exact ih

omit [CaseMapping] [Rendering] in
theorem extractColumnIndex_chooseJoinAlgorithms (tables : List Table) (expr : Expression) (plan : QueryPlan) :
    extractColumnIndex expr (plan.chooseJoinAlgorithms tables) = extractColumnIndex expr plan := by
  cases plan with
  | tableScan name columns condition indexName keys => rfl
  | join left right joinType algorithm => cases algorithm <;> cases expr <;> rfl
  | filter input predicate => cases expr <;> rfl
  | projection input columns tableMap => cases expr <;> rfl
  | sort input orderBy => cases expr <;> rfl
  | limit input count offset => cases expr <;> rfl

omit [CaseMapping] [Rendering] in
/-- What is chosen at a join does not depend on what is chosen below it. -/
theorem selectJoinAlgorithm_chooseJoinAlgorithms (tables : List Table) (left right : QueryPlan)
    (onClause : Option Expression) :
    selectJoinAlgorithm tables (left.chooseJoinAlgorithms tables) (right.chooseJoinAlgorithms tables) onClause =
      selectJoinAlgorithm tables left right onClause := by
  cases onClause with
  | none => rfl
  | some on =>
      have hindexed : chooseIndexJoin tables (left.chooseJoinAlgorithms tables) (right.chooseJoinAlgorithms tables) on =
          chooseIndexJoin tables left right on := by
        unfold chooseIndexJoin
        simp only [extractColumnIndex_chooseJoinAlgorithms]
        cases right with
        | tableScan name columns condition indexName keys => rfl
        | join left right joinType algorithm => cases algorithm <;> rfl
        | filter input predicate => rfl
        | projection input columns tableMap => rfl
        | sort input orderBy => rfl
        | limit input count offset => rfl
      have hkeys : hashJoinKeys (left.chooseJoinAlgorithms tables) (right.chooseJoinAlgorithms tables) on =
          hashJoinKeys left right on := by
        unfold hashJoinKeys
        simp only [extractColumnIndex_chooseJoinAlgorithms]
      unfold selectJoinAlgorithm
      simp only [hindexed, hkeys, countOutputColumns_chooseJoinAlgorithms]

omit [CaseMapping] [Rendering] in
theorem eq_of_selectJoinAlgorithm_nestedLoop {tables : List Table} {left right : QueryPlan}
    {onClause on : Option Expression} (h : selectJoinAlgorithm tables left right onClause = .nestedLoop on) :
    on = onClause := by
  unfold selectJoinAlgorithm at h
  cases onClause with
  | none => exact (JoinAlgorithm.nestedLoop.inj h).symm
  | some condition =>
      dsimp only at h
      cases hchosen : chooseIndexJoin tables left right condition with
      | some algorithm =>
          rw [hchosen] at h
          obtain ⟨_, _, _, _, _, _, _, _, _, _, _, _, _, _, hcompared⟩ := of_chooseIndexJoin hchosen
          obtain ⟨_, _, _, _, _, _, _, _, _, _, _, halgorithm⟩ := hcompared
          cases halgorithm.symm.trans h
      | none =>
          rw [hchosen] at h
          dsimp only at h
          split at h
          · exact (JoinAlgorithm.nestedLoop.inj h).symm
          · split at h <;> cases h

omit [CaseMapping] [Rendering] in
/-- Another algorithm than the nested-loop join is chosen between scans only, below which nothing is chosen. -/
theorem selectJoinAlgorithm_cases (tables : List Table) (left right : QueryPlan) (onClause : Option Expression) :
    selectJoinAlgorithm tables left right onClause = .nestedLoop onClause ∨
      (left.chooseJoinAlgorithms tables = left ∧ right.chooseJoinAlgorithms tables = right) := by
  cases hchosen : selectJoinAlgorithm tables left right onClause with
  | nestedLoop on =>
      rw [eq_of_selectJoinAlgorithm_nestedLoop hchosen]
      exact .inl rfl
  | hashJoin buildLeft buildKeys probeKeys remainingOn =>
      obtain ⟨on, -, -, hkeys, -, -⟩ := of_selectJoinAlgorithm_hash hchosen
      obtain ⟨_, _, _, _, _, _, _, _, _, _, rfl, rfl, -⟩ := of_hashJoinKeys hkeys
      exact .inr ⟨rfl, rfl⟩
  | indexNestedLoop innerName innerColumns indexName keys remainingOn =>
      obtain ⟨on, -, hjoin⟩ := of_selectJoinAlgorithm_index hchosen
      obtain ⟨_, _, _, _, _, _, _, _, _, _, _, rfl, rfl, -⟩ := of_chooseIndexJoin hjoin
      exact .inr ⟨rfl, rfl⟩

/-- The algorithm chosen for a join finds the pairs of the nested-loop join, and pads the same rows. -/
def AlgorithmAgrees (ctx : ExecContext) (left right : QueryPlan) (joinType : JoinType) (onClause : Option Expression)
    (leftRows rightRows : DataRows) : Prop :=
  match selectJoinAlgorithm ctx.tables left right onClause with
  | .nestedLoop _ => True
  | .hashJoin buildLeft buildKeys probeKeys _ =>
      KeysAgree ctx.choices left.slots right.slots onClause buildKeys probeKeys leftRows rightRows ∧
        PadsUnmatched ctx.choices left.slots right.slots joinType onClause buildLeft buildKeys probeKeys leftRows rightRows
  | .indexNestedLoop innerName _ indexName outerKeys _ =>
      ∀ inner index, findTable innerName ctx.tables = some inner →
        inner.indexes.find? (fun index => index.definition.name = indexName) = some index →
        IndexJoinAgrees ctx left.slots right.slots joinType onClause index outerKeys inner.liveRows leftRows rightRows

/-- No join is executed as a hash join. -/
def HashesNone (tables : List Table) : QueryPlan → Prop
  | .tableScan _ _ _ _ _ => True
  | .join left right _ algorithm => left.HashesNone tables ∧ right.HashesNone tables ∧
      ∀ onClause, algorithm = .nestedLoop onClause → ∀ buildLeft buildKeys probeKeys remainingOn,
        selectJoinAlgorithm tables left right onClause ≠ .hashJoin buildLeft buildKeys probeKeys remainingOn
  | .filter input _ | .projection input _ _ | .sort input _ | .limit input _ _ => input.HashesNone tables

/-- At every join, which is a nested-loop join, the chosen algorithm agrees, and under a limit none is a hash join. -/
def JoinsAgree (ctx : ExecContext) : QueryPlan → Prop
  | .tableScan _ _ _ _ _ => True
  | .join left right joinType algorithm => left.JoinsAgree ctx ∧ right.JoinsAgree ctx ∧
      ∃ onClause, algorithm = .nestedLoop onClause ∧ ∀ leftRows rightRows, executeTree ctx left = .ok leftRows →
        executeTree ctx right = .ok rightRows → AlgorithmAgrees ctx left right joinType onClause leftRows rightRows
  | .limit input _ _ => input.JoinsAgree ctx ∧ input.HashesNone ctx.tables
  | .filter input _ | .projection input _ _ | .sort input _ => input.JoinsAgree ctx

variable {left right : QueryPlan} {joinType : JoinType} {onClause : Option Expression} {leftRows rightRows : DataRows}

/-- An index nested-loop join that agrees has the rows of the nested-loop join in their order. -/
theorem executeTree_chosen_index (hrest : AtRest ctx)
    (hplanned : (QueryPlan.join left right joinType (.nestedLoop onClause)).WellPlanned rules ctx.tables)
    (hagrees : AlgorithmAgrees ctx left right joinType onClause leftRows rightRows)
    (hleft : executeTree ctx left = .ok leftRows) (hright : executeTree ctx right = .ok rightRows)
    {innerName indexName : String} {innerColumns : List ColumnMeta} {keys : List Nat} {remainingOn : Option Expression}
    (hchosen : selectJoinAlgorithm ctx.tables left right onClause =
      .indexNestedLoop innerName innerColumns indexName keys remainingOn) :
    executeTree ctx (.join left right joinType (.indexNestedLoop innerName innerColumns indexName keys remainingOn)) =
      executeTree ctx (.join left right joinType (.nestedLoop onClause)) := by
  have hjoined := planned_selectJoinAlgorithm hplanned.1 hplanned.2.1 joinType hplanned.2.2
  rw [hchosen] at hjoined
  obtain ⟨-, -, -, -, ⟨inner, hinner, other, hother, hname, -⟩, -⟩ := hjoined
  have hnamed : (inner.indexes.find? fun index => index.definition.name = indexName).isSome = true :=
    List.find?_isSome.mpr ⟨other, hother, decide_eq_true hname⟩
  obtain ⟨index, hindex⟩ := Option.isSome_iff_exists.mp hnamed
  rw [AlgorithmAgrees, hchosen] at hagrees
  have hagrees := hagrees inner index hinner hindex
  have hmem := List.mem_of_find?_eq_some hinner
  obtain ⟨on, rfl, hjoin⟩ := of_selectJoinAlgorithm_index hchosen
  obtain ⟨_, _, _, _, _, rightName, rightColumns, _, _, _, found, rfl, rfl, hfound, _, _, _, _, _, _, _, -, -, -, -,
    halgorithm⟩ := of_chooseIndexJoin hjoin
  injection halgorithm with hname' hcolumns hindexName hkeys hremaining
  subst hname' hcolumns hremaining
  obtain rfl := Option.some.inj (hfound.symm.trans hinner)
  obtain ⟨keep, rfl⟩ := exists_filter_of_scan hinner (hrest.consistent _ hmem) (hrest.latest _ hmem) hright
  rw [executeTree_indexJoin hinner hindex (hrest.consistent _ hmem) (hrest.latest _ hmem) hleft,
    executeTree_nestedLoop hleft hright]
  exact congrArg Except.ok (indexNestedLoopJoin_eq hagrees)

/-- Without rows to keep, a hash join whose keys agree has the rows of the nested-loop join. -/
theorem hashJoin_perm_of_keys {choices : QueryChoices} {leftSlots rightSlots : List TableSlot} {buildLeft : Bool}
    {buildKeys probeKeys : List Nat} {on : Option Expression} (hnotLeft : joinType ≠ .left) (hnotRight : joinType ≠ .right)
    (hkeys : KeysAgree choices leftSlots rightSlots on buildKeys probeKeys leftRows rightRows) :
    hashJoin choices leftSlots rightSlots joinType buildLeft buildKeys probeKeys on leftRows rightRows ~
      nestedLoopJoin choices leftSlots rightSlots joinType on leftRows rightRows := by
  rw [hashJoin_perm.congr_left, nestedLoopJoin_perm.congr_right]
  simp only [hnotLeft, hnotRight, false_and, decide_false, List.filter_false, List.map_nil, List.append_nil]
  exact joined_sameKey_perm_iff.mpr hkeys

/-- A hash join that agrees has the rows of the nested-loop join up to their order. -/
theorem hashJoin_perm_nestedLoopJoin (hagrees : AlgorithmAgrees ctx left right joinType onClause leftRows rightRows)
    (hwidth : ∀ row ∈ leftRows, row.length = slotsWidth left.slots) {buildLeft : Bool} {buildKeys probeKeys : List Nat}
    {remainingOn : Option Expression}
    (hchosen : selectJoinAlgorithm ctx.tables left right onClause =
      .hashJoin buildLeft buildKeys probeKeys remainingOn) :
    hashJoin ctx.choices left.slots right.slots joinType buildLeft buildKeys probeKeys remainingOn leftRows rightRows ~
      nestedLoopJoin ctx.choices left.slots right.slots joinType onClause leftRows rightRows := by
  rw [AlgorithmAgrees, hchosen] at hagrees
  obtain ⟨on, rfl, rfl, hkeys, -, -⟩ := of_selectJoinAlgorithm_hash hchosen
  obtain ⟨leftName, leftColumns, _, _, _, rightName, rightColumns, _, _, _, rfl, rfl, pair, hpair, _, _, _, _, hfirst,
    hsecond, hleftIdx, hrightIdx⟩ := of_hashJoinKeys hkeys
  have hvalues : ComparesValues ctx.choices [{ name := leftName, offset := 0, columns := leftColumns }]
      [{ name := rightName, offset := 0, columns := rightColumns }] (some on) :=
    comparesValues_of_scans hpair (.inl hfirst) (.inr hsecond) hleftIdx hrightIdx
  cases joinType with
  | inner => exact hashJoin_perm_of_keys (by decide) (by decide) hagrees.1
  | cross => exact hashJoin_perm_of_keys (by decide) (by decide) hagrees.1
  | left => exact (hashJoin_left_iff hvalues hwidth).mpr hagrees
  | right => exact (hashJoin_right_iff hvalues hwidth).mpr hagrees

/-! ### Nodes above a join -/

/-- The order of the rows of its sides decides about the order of the rows of a join only. -/
theorem nestedLoopJoin_perm_of_perm {choices : QueryChoices} {leftSlots rightSlots : List TableSlot}
    {on : Option Expression} {leftRows' rightRows' : DataRows} (hleft : leftRows ~ leftRows')
    (hright : rightRows ~ rightRows') :
    nestedLoopJoin choices leftSlots rightSlots joinType on leftRows rightRows ~
      nestedLoopJoin choices leftSlots rightSlots joinType on leftRows' rightRows' := by
  have hpadsLeft : (leftRows.filter fun leftRow => joinType = .left ∧
        ∀ rightRow ∈ rightRows, joinPasses choices leftSlots rightSlots on leftRow rightRow = false) ~
      (leftRows'.filter fun leftRow => joinType = .left ∧
        ∀ rightRow ∈ rightRows', joinPasses choices leftSlots rightSlots on leftRow rightRow = false) := by
    simp only [hright.mem_iff]
    exact hleft.filter _
  have hpadsRight : (rightRows.filter fun rightRow => joinType = .right ∧
        ∀ leftRow ∈ leftRows, joinPasses choices leftSlots rightSlots on leftRow rightRow = false) ~
      (rightRows'.filter fun rightRow => joinType = .right ∧
        ∀ leftRow ∈ leftRows', joinPasses choices leftSlots rightSlots on leftRow rightRow = false) := by
    simp only [hleft.mem_iff]
    exact hright.filter _
  calc nestedLoopJoin choices leftSlots rightSlots joinType on leftRows rightRows
    _ ~ _ := nestedLoopJoin_perm
    _ ~ _ := (JoinedLists.joined_perm hleft hright).append ((hpadsLeft.map _).append (hpadsRight.map _))
    _ ~ _ := nestedLoopJoin_perm.symm

omit [CaseMapping] [Rendering] in
theorem projectRows_perm {columns : List Nat} {width : Nat} {rows rows' : DataRows} (h : rows ~ rows') :
    projectRows columns width rows ~ projectRows columns width rows' := by
  unfold projectRows
  split
  · exact h
  · exact h.map _

theorem sortRows_perm_sortRows {choices : QueryChoices} {slots : List TableSlot} {orderBy : List OrderByExpr}
    {rows rows' : DataRows} (h : rows ~ rows') : sortRows choices slots orderBy rows ~ sortRows choices slots orderBy rows' :=
  calc sortRows choices slots orderBy rows
    _ ~ rows := sortRows_perm
    _ ~ rows' := h
    _ ~ sortRows choices slots orderBy rows' := sortRows_perm.symm

/-- Without a hash join, the rows of a planned tree whose joins agree stay as they are. -/
theorem executeTree_chooseJoinAlgorithms_eq {plan : QueryPlan} (hrest : AtRest ctx)
    (hplanned : plan.WellPlanned rules ctx.tables) (hagrees : plan.JoinsAgree ctx) (hnone : plan.HashesNone ctx.tables) :
    executeTree ctx (plan.chooseJoinAlgorithms ctx.tables) = executeTree ctx plan := by
  induction plan with
  | tableScan name columns condition indexName keys => rfl
  | join left right joinType algorithm ihLeft ihRight =>
      obtain ⟨hagreesLeft, hagreesRight, onClause, rfl, hchosen⟩ := hagrees
      obtain ⟨leftRows, hleft⟩ := executeTree_ok hplanned.1
      obtain ⟨rightRows, hright⟩ := executeTree_ok hplanned.2.1
      rw [chooseJoinAlgorithms, selectJoinAlgorithm_chooseJoinAlgorithms]
      rcases selectJoinAlgorithm_cases ctx.tables left right onClause with hloop | ⟨hsameLeft, hsameRight⟩
      · rw [hloop, executeTree, executeTree, ihLeft hplanned.1 hagreesLeft hnone.1,
          ihRight hplanned.2.1 hagreesRight hnone.2.1, slots_chooseJoinAlgorithms, slots_chooseJoinAlgorithms]
      · rw [hsameLeft, hsameRight]
        have hagreesHere := hchosen leftRows rightRows hleft hright
        cases halgorithm : selectJoinAlgorithm ctx.tables left right onClause with
        | nestedLoop on => rw [eq_of_selectJoinAlgorithm_nestedLoop halgorithm]
        | hashJoin buildLeft buildKeys probeKeys remainingOn => exact absurd halgorithm (hnone.2.2 onClause rfl _ _ _ _)
        | indexNestedLoop innerName innerColumns indexName keys remainingOn =>
            exact executeTree_chosen_index hrest hplanned hagreesHere hleft hright halgorithm
  | filter input predicate ih =>
      rw [chooseJoinAlgorithms, executeTree, executeTree, ih hplanned.1 hagrees hnone, slots_chooseJoinAlgorithms]
  | projection input columns tableMap ih => exact hplanned.elim
  | sort input orderBy ih =>
      rw [chooseJoinAlgorithms, executeTree, executeTree, ih hplanned.1 hagrees hnone, slots_chooseJoinAlgorithms]
  | limit input count offset ih => rw [chooseJoinAlgorithms, executeTree, executeTree, ih hplanned hagrees.1 hnone]

/-- The rows of a planned tree whose joins agree stay the same, up to their order. -/
theorem executeTree_chooseJoinAlgorithms {plan : QueryPlan} (hrest : AtRest ctx)
    (hfit : ∀ table ∈ ctx.tables, table.RowsFit) (hplanned : plan.WellPlanned rules ctx.tables)
    (hagrees : plan.JoinsAgree ctx) {rows : DataRows} (hrows : executeTree ctx plan = .ok rows) :
    ∃ chosen, executeTree ctx (plan.chooseJoinAlgorithms ctx.tables) = .ok chosen ∧ chosen ~ rows := by
  induction plan generalizing rows with
  | tableScan name columns condition indexName keys => exact ⟨rows, hrows, .refl rows⟩
  | join left right joinType algorithm ihLeft ihRight =>
      obtain ⟨hagreesLeft, hagreesRight, onClause, rfl, hchosen⟩ := hagrees
      obtain ⟨leftRows, hleft⟩ := executeTree_ok hplanned.1
      obtain ⟨rightRows, hright⟩ := executeTree_ok hplanned.2.1
      have hloop := @executeTree_nestedLoop _ _ ctx joinType _ _ _ onClause _ hleft hright
      rw [hrows] at hloop
      obtain rfl := Except.ok.inj hloop
      rw [chooseJoinAlgorithms, selectJoinAlgorithm_chooseJoinAlgorithms]
      rcases selectJoinAlgorithm_cases ctx.tables left right onClause with hnested | ⟨hsameLeft, hsameRight⟩
      · obtain ⟨leftChosen, hleftChosen, hpermLeft⟩ := ihLeft hplanned.1 hagreesLeft hleft
        obtain ⟨rightChosen, hrightChosen, hpermRight⟩ := ihRight hplanned.2.1 hagreesRight hright
        rw [hnested]
        refine ⟨_, executeTree_nestedLoop hleftChosen hrightChosen, ?_⟩
        rw [slots_chooseJoinAlgorithms, slots_chooseJoinAlgorithms]
        exact nestedLoopJoin_perm_of_perm hpermLeft hpermRight
      · rw [hsameLeft, hsameRight]
        have hagreesHere := hchosen leftRows rightRows hleft hright
        cases halgorithm : selectJoinAlgorithm ctx.tables left right onClause with
        | nestedLoop on =>
            rw [eq_of_selectJoinAlgorithm_nestedLoop halgorithm]
            exact ⟨_, hrows, .refl _⟩
        | hashJoin buildLeft buildKeys probeKeys remainingOn =>
            exact ⟨_, executeTree_hashJoin hleft hright, hashJoin_perm_nestedLoopJoin hagreesHere
              (length_of_executeTree hfit hplanned.1 hleft) halgorithm⟩
        | indexNestedLoop innerName innerColumns indexName keys remainingOn =>
            refine ⟨_, ?_, .refl _⟩
            rw [executeTree_chosen_index hrest hplanned hagreesHere hleft hright halgorithm]
            exact hrows
  | filter input predicate ih =>
      obtain ⟨before, hbefore⟩ := executeTree_ok hplanned.1
      obtain ⟨chosen, hchosen, hperm⟩ := ih hplanned.1 hagrees hbefore
      rw [executeTree, hbefore] at hrows
      obtain rfl := Except.ok.inj hrows
      rw [chooseJoinAlgorithms, executeTree, hchosen, slots_chooseJoinAlgorithms]
      exact ⟨_, rfl, hperm.filter _⟩
  | projection input columns tableMap ih => exact hplanned.elim
  | sort input orderBy ih =>
      obtain ⟨before, hbefore⟩ := executeTree_ok hplanned.1
      obtain ⟨chosen, hchosen, hperm⟩ := ih hplanned.1 hagrees hbefore
      rw [executeTree, hbefore] at hrows
      obtain rfl := Except.ok.inj hrows
      rw [chooseJoinAlgorithms, executeTree, hchosen, slots_chooseJoinAlgorithms]
      exact ⟨_, rfl, sortRows_perm_sortRows hperm⟩
  | limit input count offset ih =>
      have hinput : input.WellPlanned rules ctx.tables := hplanned
      rw [executeTree, ← executeTree_chooseJoinAlgorithms_eq hrest hinput hagrees.1 hagrees.2] at hrows
      exact ⟨rows, hrows, .refl rows⟩

/-- What the three passes of the optimizer ask for, each of the plan that it is given. -/
structure OptimizesSafely (ctx : ExecContext) (plan : QueryPlan) : Prop where
  pushes : plan.PushesSafely ctx
  looksUp : plan.pushDownPredicates.LookupsAgree ctx
  joins : (plan.pushDownPredicates.selectIndexes ctx.tables).JoinsAgree ctx

theorem executeTree_optimize (hrest : AtRest ctx) (hfit : ∀ table ∈ ctx.tables, table.RowsFit)
    {statement : SelectStatement} {plan : QueryPlan} (hplan : planSelect ctx.tables statement = .ok plan)
    (hdistinct : statement.names.Nodup) (hsafe : plan.OptimizesSafely ctx) :
    ∃ fast slow, executeTree ctx (plan.optimize ctx.tables) = .ok fast ∧ executeTree ctx plan = .ok slow ∧
      fast ~ slow := by
  obtain ⟨input, columns, tableMap, rfl, hsourced, -, hinfo, -, hplanned⟩ := planSelect_ok hplan
  obtain ⟨_, _, _, hsame, htree⟩ := selectTree_planSelect hplan
  cases hsame
  have hinput := hplanned (.any tableMap) rfl fun _ _ => trivial
  have hnodup : (input.tableInfo.map Prod.fst).Nodup := by
    rw [hinfo, ← Sourced.names hsourced]
    exact hdistinct
  have hpushed := (keeps_pushDownPredicates input).planned hinput
  have hselected := (@keeps_selectIndexes (.any tableMap) ctx.tables _).planned hpushed
  obtain ⟨rows, hrows⟩ := executeTree_ok hinput
  have hunmoved : executeTree ctx (input.pushDownPredicates.selectIndexes ctx.tables) = .ok rows := by
    rw [executeTree_selectIndexes hrest hpushed hsafe.looksUp,
      executeTree_pushDownPredicates hfit htree hinput hnodup hsafe.pushes, hrows]
  obtain ⟨chosen, hchosen, hperm⟩ := executeTree_chooseJoinAlgorithms hrest hfit hselected hsafe.joins hunmoved
  refine ⟨projectRows columns (combinedLen tableMap) chosen, projectRows columns (combinedLen tableMap) rows, ?_, ?_,
    projectRows_perm hperm⟩
  · rw [optimize, pushDownPredicates, selectIndexes, chooseJoinAlgorithms, executeTree, hchosen]
    rfl
  · rw [executeTree, hrows]
    rfl

end

end QueryPlan

namespace Database

open scoped List

variable {db : Database} {choices : QueryChoices}

/-- After serial calls that keep its indexes, a database is at rest for its queries. -/
theorem atRest_execContext (hreach : db.engine.SerialReachable DatabaseEngine.IndexGuard) :
    QueryPlan.AtRest (db.execContext choices) := by
  obtain ⟨-, hdated, hconsistent⟩ := hreach.consistent
  obtain ⟨defaultEngine, hrun⟩ := hreach
  have hsteady : db.engine.Steady :=
    DatabaseEngine.SerialReachable.isSteady ⟨defaultEngine, hrun.mono fun _ _ hguard => ⟨hguard.room, hguard.safe⟩⟩
  constructor
  · intro table htable
    exact hconsistent.rebuildIndexes_eq hdated htable
  · intro table htable
    have hchains := hdated.live table htable
    calc table.scanVisible db.engine.readSnapshot.1.txid db.engine.readSnapshot.1.active
      _ = table.contents.entries := ChainsWf.scanVisible_eq hchains le_rfl (hsteady.settled.live table htable)
      _ = table.scanVisible u64Max ∅ :=
        (ChainsWf.scanVisible_eq hchains hdated.bounded fun _ _ _ _ => Finset.notMem_empty _).symm

variable [CaseMapping] [Rendering]

/-- What a query shows of the rows of its tree. -/
def shownRows (tree : QueryPlan) (rows : DataRows) : QueryResult :=
  { columns := tree.colNames, columnTypes := tree.colTypes, rows := rows.map fun row => row.map Datum.display
    rowsAffected := rows.length }

theorem queryResult_none {tree : QueryPlan} {rows : DataRows} (hrows : executeTree (db.execContext choices) tree = .ok rows) :
    db.queryResult choices tree none = .ok (shownRows tree rows) := by
  unfold queryResult
  rw [hrows]
  rfl

theorem queryResult_some {tree : QueryPlan} {rows : DataRows} (hrows : executeTree (db.execContext choices) tree = .ok rows)
    (user : String) :
    db.queryResult choices tree (some user) =
      (db.checkPlanPermissions choices tree user).map fun _ => shownRows tree rows := by
  unfold queryResult
  rw [hrows]
  dsimp only
  cases hcheck : db.checkPlanPermissions choices tree user with
  | error err => rfl
  | ok granted => rfl

end Database

section

open scoped AsciiCase PlainText List

/-- The database in which a row has been inserted into the table with a UNIQUE column. -/
def insertedOnce : Database where
  engine := (DatabaseEngine.uniqueColumnRun ++ [DatabaseEngine.insertOne]).foldl DatabaseEngine.serialStep (.fresh "disk")
  users := .new
  permissions := .new

/-- `a = 1`. -/
def isOne : Expression := .binaryOp (.column "a") .eq (.literal (.integer 1))

/-- `SELECT * FROM t WHERE a = 1`. -/
def selectOne : SelectStatement :=
  { columns := [.wildcard], tableName := "t", joins := [], whereClause := some isOne, orderBy := [], limit := none
    offset := none }

/-- Its plan. -/
def onePlan : QueryPlan :=
  .projection (.filter (.tableScan "t" [{ ColumnMeta.new "a" .integer with isUnique := true }] none none none) isOne) [0]
    [("t", [{ ColumnMeta.new "a" .integer with isUnique := true }])]

end

end HelionDb
