import HelionDb.KeyEquality
import HelionDb.Query
import HelionDb.TableIndexes

/-! The lookup of an index in the place of a scan and a filter. Where the index is the one that the live rows give, it
finds the rows whose key is the one looked up, in the order of the scan. A filter finds the rows that `datum_eq` lets
through, so the two agree exactly where equal keys and `datum_eq` do. -/

namespace HelionDb

namespace Table

variable {table : Table} {snapshot : Snapshot}

theorem visibleAt_eq_some {rowIdx : Nat} {row : Row} :
    table.visibleAt snapshot rowIdx = some row ↔ (rowIdx, row) ∈ table.scanVisible snapshot.txid snapshot.active := by
  rw [mem_scanVisible, visibleAt, Option.map_eq_some_iff]
  constructor
  · rintro ⟨version, hversion, hrow⟩
    obtain ⟨chain, hchain, hlatest⟩ := Option.bind_eq_some_iff.mp hversion
    exact ⟨chain, hchain, version, hlatest, hrow⟩
  · rintro ⟨chain, hchain, version, hlatest, hrow⟩
    exact ⟨version, Option.bind_eq_some_iff.mpr ⟨chain, hchain, hlatest⟩, hrow⟩

/-- A scan goes through the positions in their order. -/
theorem pairwise_scanVisible (table : Table) (snapshotTxid : Nat) (activeTxns : Finset Nat) :
    (table.scanVisible snapshotTxid activeTxns).Pairwise fun left right => left.1 < right.1 := by
  have hpositions : (table.versionChains.zipIdx).Pairwise fun left right => left.2 < right.2 := by
    rw [← List.pairwise_map, List.zipIdx_map_snd]
    exact List.pairwise_lt_range'
  refine List.Pairwise.filterMap _ ?_ hpositions
  rintro ⟨chain, idx⟩ ⟨other, otherIdx⟩ hlt left hleft right hright
  obtain ⟨_, -, rfl⟩ := Option.map_eq_some_iff.mp hleft
  obtain ⟨_, -, rfl⟩ := Option.map_eq_some_iff.mp hright
  exact hlt

/-- The rows of a consistent index under a key are those of the scan that have the key. -/
theorem indexedRows_eq {index : Index} (hconsistent : index.pairs = table.livePairs index.definition)
    (hlatest : table.scanVisible snapshot.txid snapshot.active = table.scanVisible u64Max ∅) (key : List Datum) :
    indexedRows table index snapshot key =
      ((table.scanVisible u64Max ∅).filter fun entry => index.definition.extractKey entry.2 = key).map
        fun entry => entry.2.values := by
  let found := (table.scanVisible u64Max ∅).filter fun entry => index.definition.extractKey entry.2 = key
  have hmem : ∀ rowIdx, (key, rowIdx) ∈ index.pairs ↔ rowIdx ∈ found.map Prod.fst := by
    intro rowIdx
    rw [hconsistent, List.mem_map]
    constructor
    · rintro ⟨row, hrow, hkey⟩
      exact ⟨(rowIdx, row), List.mem_filter.mpr ⟨hrow, decide_eq_true hkey⟩, rfl⟩
    · rintro ⟨⟨idx, row⟩, hentry, rfl⟩
      obtain ⟨hrow, hkey⟩ := List.mem_filter.mp hentry
      exact ⟨row, hrow, of_decide_eq_true hkey⟩
  have hsorted : (found.map Prod.fst).Pairwise (· < ·) :=
    List.pairwise_map.mpr ((table.pairwise_scanVisible u64Max ∅).filter _)
  have hread : ∀ entry ∈ found, (table.visibleAt snapshot entry.1).map (·.values) = some entry.2.values := by
    rintro ⟨rowIdx, row⟩ hentry
    have hseen : table.visibleAt snapshot rowIdx = some row := by
      rw [visibleAt_eq_some, hlatest]
      exact (List.mem_filter.mp hentry).1
    rw [hseen]
    rfl
  unfold indexedRows
  cases hget : index.get key with
  | none =>
      have hempty : found = [] := by
        rw [List.eq_nil_iff_forall_not_mem]
        intro entry hentry
        exact Index.get_eq_none_iff.mp hget entry.1 ((hmem entry.1).mpr (List.mem_map_of_mem hentry))
      exact (congrArg (List.map _) hempty).symm
  | some rows =>
      have hrows : rows = (found.map Prod.fst).toFinset := by
        ext rowIdx
        rw [← Index.mem_pairs_of_get hget, hmem, List.mem_toFinset]
      have hsort : rows.sort = found.map Prod.fst := by
        rw [hrows]
        exact (List.toFinset_sort _ (hsorted.imp Nat.ne_of_lt)).mpr (hsorted.imp Nat.le_of_lt)
      dsimp only
      rw [hsort, List.filterMap_map]
      exact (List.filterMap_congr hread).trans (congrFun List.filterMap_eq_map' found)

/-- The rows of a table now, in their order. -/
def liveRows (table : Table) : DataRows := (table.scanVisible u64Max ∅).map fun entry => entry.2.values

/-- The rows of a consistent index under a key are the live ones that have the key. -/
theorem indexedRows_liveRows {index : Index} (hconsistent : index.pairs = table.livePairs index.definition)
    (hlatest : table.scanVisible snapshot.txid snapshot.active = table.scanVisible u64Max ∅) (key : List Datum) :
    indexedRows table index snapshot key =
      table.liveRows.filter fun values => index.definition.extractKey { values } = key := by
  rw [indexedRows_eq hconsistent hlatest, liveRows, List.filter_map]
  rfl

end Table

/-! ### A filter and its lookup -/

namespace QueryPlan

/-- What `datum_eq` says of a column that is compared with a literal, where the column has this value. -/
def comparesEqual : Expression → Datum → Bool
  | .binaryOp (.column _) .eq (.literal literal), value => value.datumEq literal
  | .binaryOp (.literal literal) .eq (.column _), value => literal.datumEq value
  | _, _ => false

/-- The index that a scan looks a column up in: the first that has the name of the first on this column. -/
def lookupIndex (table : Table) (idx : Nat) : Option Index :=
  (table.indexes.find? fun index => index.definition.columns = [idx]).bind fun chosen =>
    table.indexes.find? fun index => index.definition.name = chosen.definition.name

/-- Where a lookup takes the place of a condition, a live row has the key that is looked up exactly when `datum_eq`
finds its value equal to the literal. -/
def LookupAgrees (table : Table) (condition : Expression) : Prop :=
  ∀ column literal idx coerced index, columnAndLiteral condition = some (column, literal) →
    Expression.positionOf table.columns column = some idx → coerceTo table idx literal = .ok coerced →
    lookupIndex table idx = some index → ∀ values ∈ table.liveRows,
      (index.definition.extractKey { values } = [coerced] ↔ comparesEqual condition (values[idx]?.getD .null) = true)

theorem passes_eq (left right : Datum) :
    Expression.passes (Expression.applyBinary .eq left right) = left.datumEq right := by
  unfold Expression.applyBinary
  by_cases hnull : (left.isNull || right.isNull) = true
  · rw [if_pos hnull]
    have hnone : left.compareDatums right = none := by
      rcases Bool.or_eq_true_iff.mp hnull with hleft | hright
      · cases left <;> first | rfl | cases hleft
      · have hnullRight : right = .null := by cases right <;> first | rfl | cases hright
        subst hnullRight
        cases left <;> rfl
    rw [Datum.datumEq, hnone]
    rfl
  · rw [if_neg hnull]
    cases left.datumEq right <;> rfl

theorem filter_eq_filter_iff {α : Type} {first second : α → Bool} {items : List α} :
    items.filter first = items.filter second ↔ ∀ item ∈ items, first item = second item := by
  constructor
  · intro hsame item hitem
    rw [Bool.eq_iff_iff]
    have hmem := congrArg (item ∈ ·) hsame
    simpa only [List.mem_filter, hitem, true_and, eq_iff_iff] using hmem
  · exact List.filter_congr

section

variable [CaseMapping] [Rendering]

theorem evaluateJoin_column {uuidv7 : BitVec 128} {name column : String} {columns : List ColumnMeta} {idx : Nat}
    (hidx : Expression.positionOf columns column = some idx) (values : List Datum) :
    (Expression.column column).evaluateJoin uuidv7 values [{ name, offset := 0, columns }] =
      .ok (values[idx]?.getD .null) := by
  rw [Expression.evaluateJoin, Expression.evaluateWith, Expression.lookupJoin, Expression.findUnqualified, hidx]
  dsimp only [Expression.findUnqualified]
  rw [Nat.zero_add]

/-- The condition of a scan that compares a column with a literal. -/
theorem satisfies_columnAndLiteral {choices : QueryChoices} {condition : Expression} {name column : String}
    {literal : Datum} {columns : List ColumnMeta} {idx : Nat}
    (hcondition : columnAndLiteral condition = some (column, literal))
    (hidx : Expression.positionOf columns column = some idx) (values : List Datum) :
    satisfies choices [{ name, offset := 0, columns }] (some condition) values =
      comparesEqual condition (values[idx]?.getD .null) := by
  have hcolumn := @evaluateJoin_column _ _ choices.uuidv7 name column columns idx hidx values
  unfold Expression.evaluateJoin at hcolumn
  unfold columnAndLiteral at hcondition
  split at hcondition
  · obtain ⟨rfl, rfl⟩ := Prod.mk.inj (Option.some.inj hcondition)
    rw [satisfies, Expression.evaluateJoin, Expression.evaluateWith, hcolumn, comparesEqual, ← passes_eq]
    rfl
  · obtain ⟨rfl, rfl⟩ := Prod.mk.inj (Option.some.inj hcondition)
    rw [satisfies, Expression.evaluateJoin, Expression.evaluateWith, hcolumn, comparesEqual, ← passes_eq]
    rfl
  · cases hcondition

variable {ctx : ExecContext} {name : String} {table : Table}

theorem executeTableScan_eq (htable : findTable name ctx.tables = some table) {indexName : Option String}
    {keys : Option (List Datum)} {rows : DataRows} (hrows : scanRows ctx table indexName keys = .ok rows)
    (columns : List ColumnMeta) (condition : Option Expression) :
    executeTree ctx (.tableScan name columns condition indexName keys) =
      .ok (rows.filter (satisfies ctx.choices [{ name, offset := 0, columns }] condition)) := by
  rw [executeTree, executeTableScan, requireTable, htable]
  dsimp only [bind, Except.bind]
  rw [hrows]
  rfl

/-- A scan in full, with its filter. -/
theorem executeTree_scan (htable : findTable name ctx.tables = some table)
    (hlatest : table.scanVisible ctx.snapshot.txid ctx.snapshot.active = table.scanVisible u64Max ∅)
    (columns : List ColumnMeta) (condition : Option Expression) :
    executeTree ctx (.tableScan name columns condition none none) =
      .ok (table.liveRows.filter (satisfies ctx.choices [{ name, offset := 0, columns }] condition)) := by
  apply executeTableScan_eq htable
  rw [scanRows, hlatest]
  rfl

/-- A scan of what an index has under some keys. -/
theorem executeTree_lookup (htable : findTable name ctx.tables = some table) (hconsistent : table.rebuildIndexes = table)
    (hlatest : table.scanVisible ctx.snapshot.txid ctx.snapshot.active = table.scanVisible u64Max ∅)
    {indexName : String} {index : Index}
    (hindex : table.indexes.find? (fun index => index.definition.name = indexName) = some index)
    (columns : List ColumnMeta) (keys : List Datum) :
    executeTree ctx (.tableScan name columns none (some indexName) (some keys)) =
      .ok (table.liveRows.filter fun values => index.definition.extractKey { values } = keys) := by
  have hpairs := Table.rebuildIndexes_eq_iff.mp hconsistent index (List.mem_of_find?_eq_some hindex)
  have hrows : scanRows ctx table (some indexName) (some keys) = .ok (indexedRows table index ctx.snapshot keys) := by
    rw [scanRows, hindex]
    rfl
  rw [executeTableScan_eq htable hrows, Table.indexedRows_liveRows hpairs hlatest]
  exact congrArg Except.ok (List.filter_true _)

omit [CaseMapping] [Rendering] in
theorem chooseIndexForFilter_eq_some {condition : Expression} {indexName : String} {keys : List Datum} :
    chooseIndexForFilter table condition = some (indexName, keys) ↔
      ∃ column literal idx coerced chosen, columnAndLiteral condition = some (column, literal) ∧
        Expression.positionOf table.columns column = some idx ∧ coerceTo table idx literal = .ok coerced ∧
        table.indexes.find? (fun index => index.definition.columns = [idx]) = some chosen ∧
        chosen.definition.name = indexName ∧ [coerced] = keys := by
  unfold chooseIndexForFilter
  cases hcondition : columnAndLiteral condition with
  | none => simp
  | some compared =>
      obtain ⟨column, literal⟩ := compared
      dsimp only
      cases hidx : Expression.positionOf table.columns column with
      | none => simp [hidx]
      | some idx =>
          dsimp only
          cases hcoerced : coerceTo table idx literal with
          | error err => simp [hidx, hcoerced]
          | ok coerced => simp [hidx, hcoerced, Option.map_eq_some_iff]

omit [CaseMapping] [Rendering] in
/-- The condition that a lookup stands for goes. -/
theorem removeIndexedPredicate_eq_none {condition : Expression} {column : String} {literal : Datum}
    {columns : List ColumnMeta} {idx : Nat} (hcondition : columnAndLiteral condition = some (column, literal))
    (hidx : Expression.positionOf columns column = some idx) : removeIndexedPredicate condition columns = none := by
  have halone : decomposeConjunction condition = [condition] := by
    unfold columnAndLiteral at hcondition
    split at hcondition
    · rfl
    · rfl
    · cases hcondition
  have hmatches : matchesIndexedPredicate columns condition = true := by
    rw [matchesIndexedPredicate, hcondition]
    exact List.findIdx?_isSome.symm.trans (congrArg Option.isSome hidx)
  rw [removeIndexedPredicate, halone]
  simp [hmatches]

/-- The lookup of an index gives the rows of the filter in their order exactly where the lookup agrees with the filter on
every live row. -/
theorem selectIndexes_transparent_iff (htable : findTable name ctx.tables = some table)
    (hconsistent : table.rebuildIndexes = table)
    (hlatest : table.scanVisible ctx.snapshot.txid ctx.snapshot.active = table.scanVisible u64Max ∅)
    (condition : Option Expression) :
    executeTree ctx ((QueryPlan.tableScan name table.columns condition none none).selectIndexes ctx.tables) =
        executeTree ctx (.tableScan name table.columns condition none none) ↔
      ∀ expr, condition = some expr → LookupAgrees table expr := by
  cases condition with
  | none =>
      have hsame : (QueryPlan.tableScan name table.columns none none none).selectIndexes ctx.tables =
          .tableScan name table.columns none none none := by
        rw [selectIndexes, htable]
        rfl
      rw [hsame]
      exact iff_of_true rfl fun _ hnone => by cases hnone
  | some expr =>
      have hexpr : (∀ other, some expr = some other → LookupAgrees table other) ↔ LookupAgrees table expr := by simp
      rw [hexpr]
      cases hchosen : chooseIndexForFilter table expr with
      | none =>
          have hsame : (QueryPlan.tableScan name table.columns (some expr) none none).selectIndexes ctx.tables =
              .tableScan name table.columns (some expr) none none := by
            rw [selectIndexes, htable, Option.bind_some, Option.bind_some, hchosen]
          rw [hsame]
          refine iff_of_true rfl fun column literal idx coerced index hcondition hidx hcoerced hindex => ?_
          obtain ⟨chosen, hfound, -⟩ := Option.bind_eq_some_iff.mp hindex
          rw [chooseIndexForFilter_eq_some.mpr ⟨column, literal, idx, coerced, chosen, hcondition, hidx, hcoerced, hfound,
            rfl, rfl⟩] at hchosen
          cases hchosen
      | some lookup =>
          obtain ⟨indexName, keys⟩ := lookup
          obtain ⟨column, literal, idx, coerced, chosen, hcondition, hidx, hcoerced, hfound, rfl, rfl⟩ :=
            chooseIndexForFilter_eq_some.mp hchosen
          obtain ⟨index, hindex⟩ : ∃ index, table.indexes.find? (fun index =>
              index.definition.name = chosen.definition.name) = some index := by
            rw [← Option.isSome_iff_exists, List.find?_isSome]
            exact ⟨chosen, List.mem_of_find?_eq_some hfound, decide_eq_true rfl⟩
          have hlookup : lookupIndex table idx = some index := by rw [lookupIndex, hfound, Option.bind_some, hindex]
          have hplan : (QueryPlan.tableScan name table.columns (some expr) none none).selectIndexes ctx.tables =
              .tableScan name table.columns none (some chosen.definition.name) (some [coerced]) := by
            rw [selectIndexes, htable, Option.bind_some, Option.bind_some, hchosen]
            dsimp only
            rw [Option.bind_some, removeIndexedPredicate_eq_none hcondition hidx]
          rw [hplan, executeTree_lookup htable hconsistent hlatest hindex, executeTree_scan htable hlatest, Except.ok.injEq,
            filter_eq_filter_iff]
          constructor
          · intro h column' literal' idx' coerced' index' hcondition' hidx' hcoerced' hindex' values hvalues
            obtain ⟨rfl, rfl⟩ := Prod.mk.inj (Option.some.inj (hcondition.symm.trans hcondition'))
            obtain rfl := Option.some.inj (hidx.symm.trans hidx')
            obtain rfl := Except.ok.inj (hcoerced.symm.trans hcoerced')
            obtain rfl := Option.some.inj (hlookup.symm.trans hindex')
            have hagree := h values hvalues
            rw [satisfies_columnAndLiteral hcondition hidx, Bool.eq_iff_iff, decide_eq_true_iff] at hagree
            exact hagree
          · intro h values hvalues
            rw [satisfies_columnAndLiteral hcondition hidx, Bool.eq_iff_iff, decide_eq_true_iff]
            exact h column literal idx coerced index hcondition hidx hcoerced hlookup values hvalues

end

theorem extractKey_singleton {definition : IndexMeta} {idx : Nat} (hcolumns : definition.columns = [idx])
    {values : List Datum} {key : Datum} :
    definition.extractKey { values } = [key] ↔ values[idx]? = some key := by
  rw [IndexMeta.extractKey, hcolumns]
  cases hvalue : values[idx]? with
  | none => simp [hvalue]
  | some value => simp [hvalue]

/-- Where index names differ, the index looked up is one on the column. -/
theorem lookupIndex_columns {table : Table} (hnames : (table.indexes.map fun index => index.definition.name).Nodup)
    {idx : Nat} {index : Index} (hindex : lookupIndex table idx = some index) : index.definition.columns = [idx] := by
  obtain ⟨chosen, hchosen, hfound⟩ := Option.bind_eq_some_iff.mp hindex
  have hname := List.find?_some hfound
  have hsame : index = chosen := List.inj_on_of_nodup_map hnames (List.mem_of_find?_eq_some hfound)
    (List.mem_of_find?_eq_some hchosen) (of_decide_eq_true hname)
  have hcolumns := List.find?_some hchosen
  rw [hsame]
  exact of_decide_eq_true hcolumns

theorem comparesEqual_iff {condition : Expression} {column : String} {value literal coerced : Datum} {target : DataType}
    (hcondition : columnAndLiteral condition = some (column, literal)) (hstored : coerceDatum value target = .ok value)
    (hcoerced : coerceDatum literal target = .ok coerced) (hreal : target ≠ .real) (hdouble : target ≠ .double) :
    comparesEqual condition value = true ↔ value = coerced ∧ (value.compareDatums literal).isSome = true := by
  obtain ⟨hvalueFirst, hliteralFirst⟩ := Datum.datumEq_iff_key hstored hcoerced hreal hdouble
  unfold columnAndLiteral at hcondition
  split at hcondition
  · obtain ⟨rfl, rfl⟩ := Prod.mk.inj (Option.some.inj hcondition)
    exact hvalueFirst
  · obtain ⟨rfl, rfl⟩ := Prod.mk.inj (Option.some.inj hcondition)
    exact hliteralFirst
  · cases hcondition

/-- In a column of a type other than REAL and DOUBLE whose values are stored as the type has them, a lookup goes wrong
on the rows it finds that `datum_eq` does not compare with the literal, and on no others. -/
theorem lookupAgrees_iff {table : Table} (hnames : (table.indexes.map fun index => index.definition.name).Nodup)
    {condition : Expression} {column : String} {literal coerced : Datum} {idx : Nat} {columnMeta : ColumnMeta} {index : Index}
    (hcondition : columnAndLiteral condition = some (column, literal))
    (hidx : Expression.positionOf table.columns column = some idx) (hcolumn : table.columns[idx]? = some columnMeta)
    (hcoerced : coerceTo table idx literal = .ok coerced) (hindex : lookupIndex table idx = some index)
    (hreal : columnMeta.dataType ≠ .real) (hdouble : columnMeta.dataType ≠ .double)
    (hstored : ∀ values ∈ table.liveRows, ∃ value, values[idx]? = some value ∧
      coerceDatum value columnMeta.dataType = .ok value) :
    LookupAgrees table condition ↔
      ∀ values ∈ table.liveRows, values[idx]? = some coerced → (coerced.compareDatums literal).isSome = true := by
  have hcolumns := lookupIndex_columns hnames hindex
  have htarget : coerceDatum literal columnMeta.dataType = .ok coerced := by
    rw [coerceTo, hcolumn] at hcoerced
    exact hcoerced
  have hrow : ∀ values ∈ table.liveRows,
      (index.definition.extractKey { values } = [coerced] ↔
        comparesEqual condition (values[idx]?.getD .null) = true) ↔
      (values[idx]? = some coerced → (coerced.compareDatums literal).isSome = true) := by
    intro values hvalues
    obtain ⟨value, hvalue, hfits⟩ := hstored values hvalues
    rw [extractKey_singleton hcolumns, hvalue, Option.getD_some, Option.some.injEq,
      comparesEqual_iff hcondition hfits htarget hreal hdouble]
    constructor
    · rintro h rfl
      exact (h.mp rfl).2
    · intro h
      exact ⟨fun hsame => ⟨hsame, hsame ▸ h hsame⟩, And.left⟩
  constructor
  · intro h values hvalues
    exact (hrow values hvalues).mp (h column literal idx coerced index hcondition hidx hcoerced hindex values hvalues)
  · intro h column' literal' idx' coerced' index' hcondition' hidx' hcoerced' hindex' values hvalues
    obtain ⟨rfl, rfl⟩ := Prod.mk.inj (Option.some.inj (hcondition.symm.trans hcondition'))
    obtain rfl := Option.some.inj (hidx.symm.trans hidx')
    obtain rfl := Except.ok.inj (hcoerced.symm.trans hcoerced')
    obtain rfl := Option.some.inj (hindex.symm.trans hindex')
    exact (hrow values hvalues).mpr (h values hvalues)

/-! ### An indexed INTEGER column -/

/-- A table of one INTEGER column with an index, and one row. -/
def indexedColumn (value : Datum) : Table :=
  Table.rebuildIndexes
    { name := "t", columns := [.new "a" .integer], versionChains := [[.newInsert 1 { values := [value] }]]
      primaryKeyIdx := none, indexes := [.newNonUnique "i" [0]] }

/-- A query after that row. -/
def indexedContext (value : Datum) : ExecContext :=
  { tables := [indexedColumn value], snapshot := { txid := 2, active := {0} }, choices := .asGiven }

theorem indexedColumn_consistent (value : Datum) : (indexedColumn value).rebuildIndexes = indexedColumn value :=
  Table.rebuildIndexes_eq_iff.mpr fun _ hindex => Table.rebuildIndexes_consistent hindex

/-- Such a table with several rows: two hold 5, one was updated from 5 to 7, one holds NULL, and one was deleted. -/
def changedColumn : Table :=
  Table.rebuildIndexes
    { name := "t", columns := [.new "a" .integer]
      versionChains := [[.newInsert 1 { values := [.integer 5] }],
        [{ RowVersion.newInsert 1 { values := [.integer 5] } with txidMax := 2 },
          .newUpdate 2 { values := [.integer 7] }],
        [.newInsert 1 { values := [.null] }],
        [{ RowVersion.newInsert 1 { values := [.integer 5] } with txidMax := 2 },
          .newDelete 2 { values := [.integer 5] }],
        [.newInsert 2 { values := [.integer 5] }]]
      primaryKeyIdx := none, indexes := [.newNonUnique "i" [0]] }

/-- A query after these rows. -/
def changedContext : ExecContext :=
  { tables := [changedColumn], snapshot := { txid := 3, active := {0} }, choices := .asGiven }

theorem changedColumn_consistent : changedColumn.rebuildIndexes = changedColumn :=
  Table.rebuildIndexes_eq_iff.mpr fun _ hindex => Table.rebuildIndexes_consistent hindex

section

open AsciiCase PlainText

theorem selectIndexes_transparent_changed :
    executeTree changedContext
        ((QueryPlan.tableScan "t" [.new "a" .integer] (some (.binaryOp (.column "a") .eq (.literal (.integer 5)))) none
          none).selectIndexes [changedColumn]) =
      executeTree changedContext
        (.tableScan "t" [.new "a" .integer] (some (.binaryOp (.column "a") .eq (.literal (.integer 5)))) none none) := by
  have hagrees : LookupAgrees changedColumn (.binaryOp (.column "a") .eq (.literal (.integer 5))) := by
    intro column literal idx coerced index hcondition hidx hcoerced hindex values hvalues
    obtain ⟨rfl, rfl⟩ := Prod.mk.inj (Option.some.inj hcondition)
    obtain rfl : 0 = idx := Option.some.inj hidx
    obtain rfl : Datum.integer 5 = coerced := Except.ok.inj hcoerced
    rw [extractKey_singleton (lookupIndex_columns (by decide) hindex)]
    have hlive : changedColumn.liveRows = [[.integer 5], [.integer 7], [.null], [.integer 5]] := by decide
    rw [hlive] at hvalues
    revert values
    decide
  refine (@selectIndexes_transparent_iff _ _ changedContext "t" changedColumn rfl changedColumn_consistent (by decide) _).mpr ?_
  rintro expr ⟨⟩
  exact hagrees

/-- The lookup of NULL finds the row that stores it, which no comparison does. -/
theorem not_selectIndexes_transparent :
    ¬ ∀ (ctx : ExecContext) (name : String) (table : Table) (condition : Option Expression),
      findTable name ctx.tables = some table → table.rebuildIndexes = table →
      table.scanVisible ctx.snapshot.txid ctx.snapshot.active = table.scanVisible u64Max ∅ →
        executeTree ctx ((QueryPlan.tableScan name table.columns condition none none).selectIndexes ctx.tables) =
          executeTree ctx (.tableScan name table.columns condition none none) := by
  intro h
  have hsame :=
    h (indexedContext .null) "t" (indexedColumn .null) (some (.binaryOp (.column "a") .eq (.literal .null))) rfl
    (indexedColumn_consistent _) rfl
  have hscan : executeTree (indexedContext .null) (.tableScan "t" (indexedColumn .null).columns
      (some (.binaryOp (.column "a") .eq (.literal .null))) none none) = .ok [] := rfl
  have hlookup :=
    @executeTree_lookup _ _ (indexedContext .null) "t" (indexedColumn .null) rfl (indexedColumn_consistent _)
    rfl "i" _ rfl (indexedColumn .null).columns [.null]
  have hempty := Except.ok.inj (hlookup.symm.trans (hsame.trans hscan))
  revert hempty
  decide

end

end QueryPlan

end HelionDb
