import HelionDb.EquiJoins

/-! The index nested-loop join beside the nested-loop join. It looks the inner rows up by key and never executes the inner
scan, so what the scan filters comes back, and what a key tells apart from the comparison of the ON clause is missing.
Both joins keep an outer row in a LEFT JOIN, and in a RIGHT JOIN the lookup has no inner row without a partner. -/

namespace HelionDb

open Expression (TableSlot positionOf)

namespace QueryPlan

section

variable {tables : List Table} {left right : QueryPlan}

theorem extractColumnIndex_eq_some {expr : Expression} {plan : QueryPlan} {idx : Nat} :
    extractColumnIndex expr plan = some idx ↔ ∃ name table columns condition indexName keys, expr = .column name ∧
      plan = .tableScan table columns condition indexName keys ∧ positionOf columns name = some idx := by
  unfold extractColumnIndex
  constructor
  · intro h
    split at h
    · exact ⟨_, _, _, _, _, _, rfl, rfl, h⟩
    · cases h
  · rintro ⟨name, table, columns, condition, indexName, keys, rfl, rfl, h⟩
    exact h

theorem columnIn_eq_some {table : Table} {expr : Expression} {idx : Nat} :
    columnIn table expr = some idx ↔ ∃ name, expr = .column name ∧ positionOf table.columns name = some idx := by
  unfold columnIn
  constructor
  · intro h
    split at h
    · exact ⟨_, rfl, h⟩
    · cases h
  · rintro ⟨name, rfl, h⟩
    exact h

/-- One side of the pair is a column of the inner table and the other side is left. -/
theorem of_innerColumn {inner : Table} {pair : Expression × Expression} {idx : Nat} {outer : Expression}
    (h : innerColumn inner pair = some (idx, outer)) :
    ∃ name, positionOf inner.columns name = some idx ∧
      ((pair.1 = .column name ∧ pair.2 = outer) ∨ (pair.1 = outer ∧ pair.2 = .column name)) := by
  unfold innerColumn at h
  cases hfirst : columnIn inner pair.1 with
  | some position =>
      rw [hfirst] at h
      obtain ⟨rfl, rfl⟩ := Prod.mk.inj (Option.some.inj h)
      obtain ⟨name, hname, hposition⟩ := columnIn_eq_some.mp hfirst
      exact ⟨name, hposition, .inl ⟨hname, rfl⟩⟩
  | none =>
      rw [hfirst] at h
      obtain ⟨position, hsecond, heq⟩ := Option.map_eq_some_iff.mp h
      obtain ⟨rfl, rfl⟩ := Prod.mk.inj heq
      obtain ⟨name, hname, hposition⟩ := columnIn_eq_some.mp hsecond
      exact ⟨name, hposition, .inr ⟨rfl, hname⟩⟩

/-- An index nested-loop join compares a column of an outer scan with a column of an inner scan. -/
theorem of_chooseIndexJoin {on : Expression} {algorithm : JoinAlgorithm}
    (h : chooseIndexJoin tables left right on = some algorithm) :
    ∃ leftName leftColumns leftFilter leftIndex leftKeys rightName rightColumns rightFilter rightIndex rightKeys inner,
      left = .tableScan leftName leftColumns leftFilter leftIndex leftKeys ∧
      right = .tableScan rightName rightColumns rightFilter rightIndex rightKeys ∧
      findTable rightName tables = some inner ∧
      ∃ pair ∈ extractEquiJoinPairs on, ∃ outerColumn innerColumn outerIdx innerIdx indexName,
        (pair.1 = .column outerColumn ∨ pair.2 = .column outerColumn) ∧
        (pair.1 = .column innerColumn ∨ pair.2 = .column innerColumn) ∧
        positionOf leftColumns outerColumn = some outerIdx ∧ positionOf inner.columns innerColumn = some innerIdx ∧
        algorithm = .indexNestedLoop rightName rightColumns indexName [outerIdx] (some on) := by
  unfold chooseIndexJoin at h
  split at h
  next rightName rightColumns rightFilter rightIndex rightKeys =>
      split at h
      · cases h
      next inner hinner =>
          obtain ⟨pair, hpair, hfound⟩ := List.exists_of_findSome?_eq_some h
          split at hfound
          · cases hfound
          next innerIdx outer hcolumn =>
              obtain ⟨index, -, hindex⟩ := List.exists_of_findSome?_eq_some hfound
              split at hindex
              · obtain ⟨outerIdx, houter, halgorithm⟩ := Option.map_eq_some_iff.mp hindex
                obtain ⟨outerColumn, leftName, leftColumns, leftFilter, leftIndex, leftKeys, rfl, rfl, hposition⟩ :=
                  extractColumnIndex_eq_some.mp houter
                obtain ⟨innerColumn, hinnerPosition, hsides⟩ := of_innerColumn hcolumn
                refine ⟨leftName, leftColumns, leftFilter, leftIndex, leftKeys, rightName, rightColumns, rightFilter,
                  rightIndex, rightKeys, inner, rfl, rfl, hinner, pair, hpair, outerColumn, innerColumn, outerIdx, innerIdx,
                  index.definition.name, ?_, ?_, hposition, hinnerPosition, halgorithm.symm⟩
                · exact hsides.elim (fun h => .inr h.2) fun h => .inl h.1
                · exact hsides.imp And.left And.right
              · cases hindex
  · cases h

theorem of_selectJoinAlgorithm_index {onClause remainingOn : Option Expression} {innerName indexName : String}
    {innerColumns : List ColumnMeta} {outerKeyIndices : List Nat}
    (h : selectJoinAlgorithm tables left right onClause =
      .indexNestedLoop innerName innerColumns indexName outerKeyIndices remainingOn) :
    ∃ on, onClause = some on ∧ chooseIndexJoin tables left right on =
      some (.indexNestedLoop innerName innerColumns indexName outerKeyIndices remainingOn) := by
  unfold selectJoinAlgorithm at h
  cases onClause with
  | none => cases h
  | some on =>
      dsimp only at h
      cases hchosen : chooseIndexJoin tables left right on with
      | some algorithm =>
          rw [hchosen] at h
          exact ⟨on, rfl, by rw [← h, hchosen]⟩
      | none =>
          rw [hchosen] at h
          dsimp only at h
          split at h
          · cases h
          · split at h <;> cases h

end

/-! ### The two joins -/

section

variable [CaseMapping] [Rendering] {ctx : ExecContext} {inner : Table}

/-- A scan has some of the live rows, in their order. -/
theorem exists_filter_of_scan {name : String} {columns : List ColumnMeta} {condition : Option Expression}
    {indexName : Option String} {keys : Option (List Datum)} {rows : DataRows}
    (htable : findTable name ctx.tables = some inner) (hconsistent : inner.rebuildIndexes = inner)
    (hlatest : inner.scanVisible ctx.snapshot.txid ctx.snapshot.active = inner.scanVisible u64Max ∅)
    (hrows : executeTree ctx (.tableScan name columns condition indexName keys) = .ok rows) :
    ∃ keep : List Datum → Bool, rows = inner.liveRows.filter keep := by
  cases indexName with
  | none =>
      have hscan : scanRows ctx inner none keys = .ok inner.liveRows := by
        rw [scanRows, hlatest]
        rfl
      rw [executeTableScan_eq htable hscan] at hrows
      exact ⟨_, (Except.ok.inj hrows).symm⟩
  | some indexName =>
      cases hindex : inner.indexes.find? fun index => index.definition.name = indexName with
      | none =>
          rw [executeTree, executeTableScan, requireTable, htable] at hrows
          dsimp only [bind, Except.bind] at hrows
          rw [scanRows, hindex] at hrows
          cases hrows
      | some index =>
          have hscan :
              scanRows ctx inner (some indexName) keys = .ok (indexedRows inner index ctx.snapshot (keys.getD [])) := by
            rw [scanRows, hindex]
          have hpairs := Table.rebuildIndexes_eq_iff.mp hconsistent index (List.mem_of_find?_eq_some hindex)
          rw [executeTableScan_eq htable hscan, Table.indexedRows_liveRows hpairs hlatest, List.filter_filter] at hrows
          exact ⟨_, (Except.ok.inj hrows).symm⟩

/-- Both joins find the same inner rows for the outer rows. A pair of an outer row and a live inner row that passes the ON
clause has the key of the lookup exactly where the inner scan has the inner row, and in a RIGHT JOIN every row of the inner
scan has a partner. -/
structure IndexJoinAgrees (ctx : ExecContext) (leftSlots rightSlots : List TableSlot) (joinType : JoinType)
    (on : Option Expression) (index : Index) (outerKeyIndices : List Nat) (liveRows leftRows rightRows : DataRows) : Prop where
  found : ∀ leftRow ∈ leftRows, ∀ rightRow ∈ liveRows,
    joinPasses ctx.choices leftSlots rightSlots on leftRow rightRow = true →
      (index.definition.extractKey { values := rightRow } = keyAt outerKeyIndices leftRow ↔ rightRow ∈ rightRows)
  matched : joinType = .right → ∀ rightRow ∈ rightRows, ∃ leftRow ∈ leftRows,
    joinPasses ctx.choices leftSlots rightSlots on leftRow rightRow = true

variable {leftSlots : List TableSlot} {innerSlot : TableSlot} {joinType : JoinType} {on : Option Expression} {index : Index}
  {outerKeyIndices : List Nat} {liveRows leftRows : DataRows} {keep : List Datum → Bool}

/-- The join of the rows that a key has among the live ones. -/
theorem indexNestedLoopJoin_eq
    (hagrees : IndexJoinAgrees ctx leftSlots [innerSlot] joinType on index outerKeyIndices liveRows leftRows
      (liveRows.filter keep)) :
    indexNestedLoopJoin ctx.choices leftSlots innerSlot joinType outerKeyIndices on
        (fun key => liveRows.filter fun values => index.definition.extractKey { values } = key) leftRows =
      nestedLoopJoin ctx.choices leftSlots [innerSlot] joinType on leftRows (liveRows.filter keep) := by
  have hunmatched : (if joinType = .right then
      ((liveRows.filter keep).filter fun rightRow => !leftRows.any fun leftRow =>
        satisfies ctx.choices (joinSlots leftSlots [innerSlot]) on (leftRow ++ rightRow)).map
          (padding (slotsWidth leftSlots) ++ ·)
      else []) = [] := by
    by_cases hright : joinType = .right
    · rw [if_pos hright, List.map_eq_nil_iff, List.filter_eq_nil_iff]
      intro rightRow hmem
      obtain ⟨leftRow, hleft, hpasses⟩ := hagrees.matched hright rightRow hmem
      rw [Bool.not_eq_true', Bool.not_eq_false, List.any_eq_true]
      exact ⟨leftRow, hleft, hpasses⟩
    · exact if_neg hright
  unfold nestedLoopJoin indexNestedLoopJoin
  dsimp only
  rw [hunmatched, List.append_nil]
  apply List.flatMap_congr
  intro leftRow hleft
  have hwidth : slotsWidth [innerSlot] = innerSlot.columns.length := by simp [slotsWidth]
  have hfound : ((liveRows.filter fun values => index.definition.extractKey { values } =
        keyAt outerKeyIndices leftRow).map (leftRow ++ ·)).filter
          (satisfies ctx.choices (joinSlots leftSlots [innerSlot]) on) =
      ((liveRows.filter keep).map (leftRow ++ ·)).filter
        (satisfies ctx.choices (joinSlots leftSlots [innerSlot]) on) := by
    rw [List.filter_map, List.filter_map, List.filter_filter, List.filter_filter]
    apply congrArg (List.map _)
    apply List.filter_congr
    intro rightRow hlive
    by_cases hpasses : joinPasses ctx.choices leftSlots [innerSlot] on leftRow rightRow = true
    · have hkey := hagrees.found leftRow hleft rightRow hlive hpasses
      rw [List.mem_filter, and_iff_right hlive] at hkey
      rw [Bool.eq_iff_iff, Bool.and_eq_true_iff, Bool.and_eq_true_iff, decide_eq_true_iff, hkey]
    · rw [Function.comp_apply, show satisfies ctx.choices (joinSlots leftSlots [innerSlot]) on (leftRow ++ rightRow) = false
        from Bool.eq_false_of_not_eq_true hpasses, Bool.false_and, Bool.false_and]
  unfold combineLeft
  dsimp only
  rw [hfound, hwidth]

/-- The two joins give the same rows, order apart, exactly where they agree on the pairs that pass. -/
theorem indexNestedLoopJoin_perm_iff (hvalues : ComparesValues ctx.choices leftSlots [innerSlot] on)
    (hwidth : ∀ row ∈ leftRows, row.length = slotsWidth leftSlots) :
    (indexNestedLoopJoin ctx.choices leftSlots innerSlot joinType outerKeyIndices on
        (fun key => liveRows.filter fun values => index.definition.extractKey { values } = key) leftRows).Perm
      (nestedLoopJoin ctx.choices leftSlots [innerSlot] joinType on leftRows (liveRows.filter keep)) ↔
    IndexJoinAgrees ctx leftSlots [innerSlot] joinType on index outerKeyIndices liveRows leftRows
      (liveRows.filter keep) := by
  have hslots : slotsWidth [innerSlot] = innerSlot.columns.length := by simp [slotsWidth]
  constructor
  · intro hperm
    constructor
    · intro leftRow hleft rightRow hlive hpasses
      rw [← append_mem_nestedLoopJoin hvalues hwidth hleft hpasses, ← hperm.mem_iff, indexNestedLoopJoin,
        List.mem_flatMap]
      have hcombined := fun other hother =>
        @append_mem_combineLeft _ _ ctx.choices leftSlots [innerSlot] on joinType
          (liveRows.filter fun values => index.definition.extractKey { values } = keyAt outerKeyIndices other) leftRow rightRow
          hvalues other (hwidth other hother) (hwidth _ hleft) hpasses
      rw [hslots] at hcombined
      constructor
      · intro hkey
        exact ⟨leftRow, hleft, (hcombined leftRow hleft).mpr
          ⟨rfl, List.mem_filter.mpr ⟨hlive, decide_eq_true hkey⟩⟩⟩
      · rintro ⟨other, hother, hrow⟩
        obtain ⟨rfl, hfound⟩ := (hcombined other hother).mp hrow
        exact of_decide_eq_true (List.mem_filter.mp hfound).2
    · intro hright rightRow hmem
      by_contra hnone
      have hunmatched :
          ∀ leftRow ∈ leftRows, joinPasses ctx.choices leftSlots [innerSlot] on leftRow rightRow = false :=
        fun leftRow hleft => Bool.eq_false_of_not_eq_true fun hpasses => hnone ⟨leftRow, hleft, hpasses⟩
      have hslow : padding (slotsWidth leftSlots) ++ rightRow ∈
          nestedLoopJoin ctx.choices leftSlots [innerSlot] joinType on leftRows (liveRows.filter keep) :=
        mem_nestedLoopJoin.mpr (.inr ⟨hright, rightRow, hmem, hunmatched, rfl⟩)
      rw [← hperm.mem_iff, indexNestedLoopJoin, List.mem_flatMap, ← hslots] at hslow
      obtain ⟨leftRow, hleft, hrow⟩ := hslow
      exact padding_notMem_combineLeft hvalues (by rw [hright]; decide) (hwidth _ hleft) hrow
  · intro hagrees
    exact .of_eq (indexNestedLoopJoin_eq hagrees)

variable {left right : QueryPlan} {onClause remainingOn : Option Expression} {innerName indexName : String}
  {innerColumns : List ColumnMeta} {rightRows : DataRows}

/-- The index nested-loop join of a tree, by the live rows of the inner table. -/
theorem executeTree_indexJoin (hinner : findTable innerName ctx.tables = some inner)
    (hindex : inner.indexes.find? (fun index => index.definition.name = indexName) = some index)
    (hconsistent : inner.rebuildIndexes = inner)
    (hlatest : inner.scanVisible ctx.snapshot.txid ctx.snapshot.active = inner.scanVisible u64Max ∅)
    (hleft : executeTree ctx left = .ok leftRows) :
    executeTree ctx
        (.join left right joinType (.indexNestedLoop innerName innerColumns indexName outerKeyIndices remainingOn)) =
      .ok (indexNestedLoopJoin ctx.choices left.slots { name := innerName, offset := 0, columns := innerColumns } joinType
        outerKeyIndices remainingOn
        (fun key => inner.liveRows.filter fun values => index.definition.extractKey { values } = key) leftRows) := by
  have hpairs := Table.rebuildIndexes_eq_iff.mp hconsistent index (List.mem_of_find?_eq_some hindex)
  have hrows : indexedRows inner index ctx.snapshot =
      fun key => inner.liveRows.filter fun values => index.definition.extractKey { values } = key := by
    funext key
    exact Table.indexedRows_liveRows hpairs hlatest key
  rw [executeTree, hleft, requireTable, hinner]
  dsimp only [bind, Except.bind]
  rw [hindex]
  dsimp only
  rw [hrows]
  rfl

theorem executeTree_nestedLoop (hleft : executeTree ctx left = .ok leftRows)
    (hright : executeTree ctx right = .ok rightRows) :
    executeTree ctx (.join left right joinType (.nestedLoop onClause)) =
      .ok (nestedLoopJoin ctx.choices left.slots right.slots joinType onClause leftRows rightRows) := by
  rw [executeTree, hleft, hright]
  rfl

/-- Where the planner chooses the index nested-loop join, it gives the rows of the nested-loop join exactly where the two
agree on the pairs that pass. -/
theorem indexJoin_perm_iff
    (hchosen : selectJoinAlgorithm ctx.tables left right onClause =
      .indexNestedLoop innerName innerColumns indexName outerKeyIndices remainingOn)
    (hinner : findTable innerName ctx.tables = some inner) (hcolumns : innerColumns = inner.columns)
    (hindex : inner.indexes.find? (fun index => index.definition.name = indexName) = some index)
    (hconsistent : inner.rebuildIndexes = inner)
    (hlatest : inner.scanVisible ctx.snapshot.txid ctx.snapshot.active = inner.scanVisible u64Max ∅)
    (hleft : executeTree ctx left = .ok leftRows) (hright : executeTree ctx right = .ok rightRows)
    (hwidth : ∀ row ∈ leftRows, row.length = slotsWidth left.slots) :
    ∃ fast slow,
      executeTree ctx (.join left right joinType (selectJoinAlgorithm ctx.tables left right onClause)) = .ok fast ∧
      executeTree ctx (.join left right joinType (.nestedLoop onClause)) = .ok slow ∧
      (fast.Perm slow ↔ IndexJoinAgrees ctx left.slots right.slots joinType onClause index outerKeyIndices inner.liveRows
        leftRows rightRows) := by
  obtain ⟨on, rfl, hjoin⟩ := of_selectJoinAlgorithm_index hchosen
  obtain ⟨leftName, leftColumns, leftFilter, leftIndex, leftKeys, rightName, rightColumns, rightFilter, rightIndex,
    rightKeys, found, rfl, rfl, hfound, pair, hpair, outerColumn, innerColumn, outerIdx, innerIdx, _, houter, hinnerSide,
    houterIdx, hinnerIdx, halgorithm⟩ := of_chooseIndexJoin hjoin
  injection halgorithm with hname hcolumns' hindexName hkeys hremaining
  subst hname hcolumns' hremaining
  obtain rfl := Option.some.inj (hfound.symm.trans hinner)
  obtain ⟨keep, rfl⟩ := exists_filter_of_scan hinner hconsistent hlatest hright
  have hposition : positionOf innerColumns innerColumn = some innerIdx := by
    rw [hcolumns]
    exact hinnerIdx
  have hvalues : ComparesValues ctx.choices [{ name := leftName, offset := 0, columns := leftColumns }]
      [{ name := innerName, offset := 0, columns := innerColumns }] (some on) :=
    comparesValues_of_scans hpair houter hinnerSide houterIdx hposition
  rw [hchosen]
  exact ⟨_, _, executeTree_indexJoin hinner hindex hconsistent hlatest hleft, executeTree_nestedLoop hleft hright,
    indexNestedLoopJoin_perm_iff hvalues hwidth⟩

end

/-- Two tables of one INTEGER column each, both with one row, where the second is indexed. -/
def joinedContext : ExecContext :=
  { tables := [
      { name := "s", columns := [.new "b" .integer], versionChains := [[.newInsert 1 { values := [.integer 5] }]]
        primaryKeyIdx := none, indexes := [] },
      indexedColumn (.integer 5)]
    snapshot := { txid := 2, active := {0} }, choices := .asGiven }

/-- The scan of the first table. -/
def outerScan : QueryPlan := .tableScan "s" [.new "b" .integer] none none none

/-- The scan of the second table, with what was pushed into it. -/
def innerScan (condition : Option Expression) : QueryPlan := .tableScan "t" [.new "a" .integer] condition none none

/-- `b = a`. -/
def equalColumns : Expression := .binaryOp (.column "b") .eq (.column "a")

section

open AsciiCase PlainText

theorem selectJoinAlgorithm_indexed (condition : Option Expression) :
    selectJoinAlgorithm joinedContext.tables outerScan (innerScan condition) (some equalColumns) =
      .indexNestedLoop "t" [.new "a" .integer] "i" [0] (some equalColumns) := rfl

/-- The same tables with several rows: two of the outer table have partners, and both have a NULL. -/
def changedJoinContext : ExecContext :=
  { tables := [
      { name := "s", columns := [.new "b" .integer]
        versionChains := [[.newInsert 1 { values := [.integer 5] }], [.newInsert 1 { values := [.null] }],
          [.newInsert 1 { values := [.integer 8] }], [.newInsert 2 { values := [.integer 7] }]]
        primaryKeyIdx := none, indexes := [] },
      changedColumn]
    snapshot := { txid := 3, active := {0} }, choices := .asGiven }

theorem indexJoin_perm_changed :
    ∃ fast slow,
      executeTree changedJoinContext (.join outerScan (innerScan none) .left
        (selectJoinAlgorithm changedJoinContext.tables outerScan (innerScan none) (some equalColumns))) = .ok fast ∧
      executeTree changedJoinContext (.join outerScan (innerScan none) .left (.nestedLoop (some equalColumns))) = .ok slow ∧
      fast.Perm slow := by
  have hlive : changedColumn.liveRows = [[.integer 5], [.integer 7], [.null], [.integer 5]] := by decide
  obtain ⟨fast, slow, hfast, hslow, hperm⟩ :=
    @indexJoin_perm_iff _ _ changedJoinContext changedColumn .left _ [0] [[.integer 5], [.null], [.integer 8], [.integer 7]]
      outerScan (innerScan none) (some equalColumns) (some equalColumns) "t" "i" [.new "a" .integer] changedColumn.liveRows
      rfl rfl rfl rfl changedColumn_consistent (by decide) rfl rfl (by decide)
  refine ⟨fast, slow, hfast, hslow, hperm.mpr ⟨?_, ?_⟩⟩
  · rw [hlive]
    decide
  · intro hright
    cases hright

/-- The lookup has the row that the scan of the inner side filters out. -/
theorem not_indexJoin_perm :
    ¬ ∀ (ctx : ExecContext) (left right : QueryPlan) (joinType : JoinType) (onClause remainingOn : Option Expression)
      (inner : Table) (innerName indexName : String) (outerKeyIndices : List Nat) (leftRows rightRows : DataRows),
      selectJoinAlgorithm ctx.tables left right onClause =
        .indexNestedLoop innerName inner.columns indexName outerKeyIndices remainingOn →
      findTable innerName ctx.tables = some inner → inner.rebuildIndexes = inner →
      inner.scanVisible ctx.snapshot.txid ctx.snapshot.active = inner.scanVisible u64Max ∅ →
      executeTree ctx left = .ok leftRows → executeTree ctx right = .ok rightRows →
      (∀ row ∈ leftRows, row.length = slotsWidth left.slots) →
      ∃ fast slow,
        executeTree ctx (.join left right joinType (selectJoinAlgorithm ctx.tables left right onClause)) = .ok fast ∧
        executeTree ctx (.join left right joinType (.nestedLoop onClause)) = .ok slow ∧ fast.Perm slow := by
  intro h
  obtain ⟨fast, slow, hfast, hslow, hperm⟩ := h joinedContext outerScan (innerScan (some (.isNull (.column "a")))) .inner
    (some equalColumns) (some equalColumns) (indexedColumn (.integer 5)) "t" "i" [0] [[.integer 5]] []
    (selectJoinAlgorithm_indexed _) rfl (indexedColumn_consistent _) rfl rfl rfl (by decide)
  have hnested : executeTree joinedContext (.join outerScan (innerScan (some (.isNull (.column "a")))) .inner
      (.nestedLoop (some equalColumns))) = .ok [] := rfl
  have hjoined :=
    @executeTree_indexJoin _ _ joinedContext (indexedColumn (.integer 5)) .inner _ [0] [[.integer 5]] outerScan
    (innerScan (some (.isNull (.column "a")))) (some equalColumns) "t" "i" [.new "a" .integer] rfl rfl
    (indexedColumn_consistent _) rfl rfl
  rw [selectJoinAlgorithm_indexed, hjoined] at hfast
  have hempty := Except.ok.inj (hslow.symm.trans hnested)
  rw [hempty, ← Except.ok.inj hfast] at hperm
  have hlength := hperm.length_eq
  revert hlength
  decide

end

end QueryPlan

end HelionDb
