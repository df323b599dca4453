import HelionDb.Comparators
import HelionDb.Database
import HelionDb.Planner
import Mathlib.Data.Finset.Sort

/-! The execution of queries in `ops.rs`. A tree is executed on the tables under one snapshot, after the
check that the user may select every column that the projection outputs. The joins take the rows of their
sides apart from the tables they come from, so each is a function on lists of rows. -/

namespace HelionDb

/-- What a statement draws while it runs: the identifier of UUIDV7, the orders in which hash maps are iterated, one over
texts and one over the positions of the entries of join keys, and the order of positions that `sort_by` leaves a list in,
which is told where the comparison is a total preorder only. -/
structure QueryChoices where
  uuidv7 : BitVec 128
  nameOrder : List String → List String
  nameOrder_perm : ∀ names, (nameOrder names).Perm names
  entryOrder : List (List Datum) → List Nat
  entryOrder_perm : ∀ keys, (entryOrder keys).Perm (List.range keys.length)
  sortOrder : Nat → (Nat → Nat → Ordering) → List Nat
  sortOrder_perm : ∀ count cmp, (sortOrder count cmp).Perm (List.range count)
  sortOrder_stable : ∀ count cmp, Comparator.PreordersOn cmp (List.range count) →
    sortOrder count cmp = (List.range count).insertionSort fun a b => cmp a b ≠ .gt

/-- Hash maps iterated in the order of insertion, and lists sorted by insertion. -/
def QueryChoices.asGiven : QueryChoices where
  uuidv7 := 0
  nameOrder names := names
  nameOrder_perm _ := .refl _
  entryOrder keys := List.range keys.length
  entryOrder_perm _ := .refl _
  sortOrder count cmp := (List.range count).insertionSort fun a b => cmp a b ≠ .gt
  sortOrder_perm _ _ := List.perm_insertionSort _ _
  sortOrder_stable _ _ _ := rfl

structure QueryResult where
  columns : List String
  columnTypes : List String
  rows : List (List String)
  rowsAffected : Nat
  deriving DecidableEq, Repr

/-- A result without rows. -/
def QueryResult.affected (count : Nat) : QueryResult :=
  { columns := [], columnTypes := [], rows := [], rowsAffected := count }

abbrev DataRows := List (List Datum)

/-- `ExecContext`, without the user, whom no step asks for. -/
structure ExecContext where
  tables : List Table
  snapshot : Snapshot
  choices : QueryChoices

/-- `Table::get_visible_version`, as the row it has. -/
def Table.visibleAt (table : Table) (snapshot : Snapshot) (rowIdx : Nat) : Option Row :=
  (table.versionChains[rowIdx]?.bind fun chain => latestVisible chain snapshot.txid snapshot.active).map (·.row)

section

open Expression (TableSlot)

/-- Tables shifted to the right. -/
def shiftSlots (width : Nat) (slots : List TableSlot) : List TableSlot :=
  slots.map fun slot => { slot with offset := slot.offset + width }

/-- The number of columns of some tables. -/
def slotsWidth (slots : List TableSlot) : Nat := (slots.map fun slot => slot.columns.length).sum

/-- The tables of a combined row. -/
def joinSlots (left right : List TableSlot) : List TableSlot := left ++ shiftSlots (slotsWidth left) right

/-- `collect_expr_table_info`. -/
def QueryPlan.slots : QueryPlan → List TableSlot
  | .tableScan table tableColumns _ _ _ => [{ name := table, offset := 0, columns := tableColumns }]
  | .join left right _ _ => joinSlots left.slots right.slots
  | .filter input _ | .projection input _ _ | .sort input _ | .limit input _ _ => input.slots

/-- The names of the columns of tables, with the table where a name is not unique. -/
def qualifiedNames (tables : List (String × List ColumnMeta)) : List String :=
  let names := tables.flatMap fun entry => entry.2.map (·.name)
  tables.flatMap fun entry => entry.2.map fun column =>
    if 1 < names.count column.name then entry.1 ++ "." ++ column.name else column.name

/-- `build_combined_col_names`. -/
def buildCombinedColNames (slots : List TableSlot) : List String :=
  qualifiedNames (slots.map fun slot => (slot.name, slot.columns))

/-- `build_combined_col_types`. -/
def buildCombinedColTypes (slots : List TableSlot) : List String :=
  slots.flatMap fun slot => slot.columns.map fun column => column.dataType.name

/-- The columns of joined tables one after the other. -/
def allColumns (tableMap : List (String × List ColumnMeta)) : List ColumnMeta := tableMap.flatMap (·.2)

end

/-! ### Joins -/

/-- The values of a row at some positions, as a key. -/
def keyAt (indices : List Nat) (row : List Datum) : List Datum := indices.filterMap fun i => row[i]?

/-- A key with a NULL matches nothing. -/
def hasNull (key : List Datum) : Bool := key.any Datum.isNull

/-- The derived `==` of `Datum`: zeros are equal whatever their sign, and a NaN is equal to nothing. -/
def Datum.partialEq : Datum → Datum → Bool
  | .real a, .real b => realToF64 a == realToF64 b
  | .double a, .double b => doubleToF64 a == doubleToF64 b
  | a, b => a = b

/-- `==` of two keys. -/
def keyEq (left right : List Datum) : Bool := left.isEqv right Datum.partialEq

/-- A hash map finds the entry of a key under another one: they are equal, and have the same bits, which the hash is of. -/
def findsKey (entry key : List Datum) : Bool := entry = key && keyEq entry key

theorem findsKey_iff {entry key : List Datum} : findsKey entry key = true ↔ entry = key ∧ keyEq entry key = true := by
  rw [findsKey, Bool.and_eq_true_iff, decide_eq_true_iff]

/-- The hash table of a hash join: the rows under each key. -/
abbrev HashTable := List (List Datum × DataRows)

namespace HashTable

/-- `hash_table.entry(key).or_default().push(row)`. -/
def push (key row : List Datum) : HashTable → HashTable
  | [] => [(key, [row])]
  | entry :: rest =>
      if findsKey entry.1 key then (entry.1, entry.2 ++ [row]) :: rest else entry :: push key row rest

/-- `hash_table.get(&key)`, nothing where there is no such entry. -/
def lookup (key : List Datum) : HashTable → DataRows
  | [] => []
  | entry :: rest => if findsKey entry.1 key then entry.2 else lookup key rest

/-- The table of some rows, without the rows that have a NULL in their key. -/
def build (keyIndices : List Nat) (rows : DataRows) : HashTable :=
  rows.foldl (fun table row =>
    let key := keyAt keyIndices row
    if hasNull key then table else push key row table) []

/-- The entries in the order in which the map is iterated. -/
def iterated (choices : QueryChoices) (table : HashTable) : HashTable :=
  (choices.entryOrder (table.map Prod.fst)).filterMap fun position => table[position]?

variable {key row : List Datum} {table : HashTable} {keyIndices : List Nat} {rows : DataRows}

theorem lookup_push {probe : List Datum} :
    (table.push key row).lookup probe = table.lookup probe ++ if findsKey key probe then [row] else [] := by
  induction table with
  | nil =>
      rw [push, lookup, lookup, List.nil_append]
      rfl
  | cons entry rest ih =>
      rw [push]
      by_cases hsame : findsKey entry.1 key = true
      · rw [if_pos hsame, lookup, lookup, ← (findsKey_iff.mp hsame).1]
        by_cases hfinds : findsKey entry.1 probe = true
        · rw [if_pos hfinds, if_pos hfinds, if_pos hfinds]
        · rw [if_neg hfinds, if_neg hfinds, if_neg hfinds, List.append_nil]
      · rw [if_neg hsame, lookup, lookup, ih]
        by_cases hfinds : findsKey entry.1 probe = true
        · have hother : ¬ findsKey key probe = true := by
            intro hkey
            obtain ⟨hprobe, heq⟩ := findsKey_iff.mp hfinds
            rw [(findsKey_iff.mp hkey).1, ← hprobe] at hsame
            exact hsame (findsKey_iff.mpr ⟨rfl, hprobe ▸ heq⟩)
          rw [if_pos hfinds, if_pos hfinds, if_neg hother, List.append_nil]
        · rw [if_neg hfinds, if_neg hfinds]

/-- A table has under a key the rows whose key it finds, in their order. -/
theorem lookup_build {probe : List Datum} :
    (build keyIndices rows).lookup probe = rows.filter fun row =>
      !hasNull (keyAt keyIndices row) && findsKey (keyAt keyIndices row) probe := by
  have hfold : ∀ start : HashTable, (rows.foldl (fun table row =>
        let key := keyAt keyIndices row
        if hasNull key then table else push key row table) start).lookup probe =
      start.lookup probe ++ rows.filter fun row =>
        !hasNull (keyAt keyIndices row) && findsKey (keyAt keyIndices row) probe := by
    induction rows with
    | nil => intro start; rw [List.foldl_nil, List.filter_nil, List.append_nil]
    | cons row rest ih =>
        intro start
        rw [List.foldl_cons, ih, List.filter_cons]
        by_cases hnull : hasNull (keyAt keyIndices row) = true
        · simp [hnull]
        · rw [Bool.not_eq_true] at hnull
          by_cases hfinds : findsKey (keyAt keyIndices row) probe = true
          · simp [hnull, hfinds, lookup_push]
          · simp [hnull, hfinds, lookup_push]
  exact (hfold []).trans (List.nil_append _)

/-- The rows of the entries whose keys pass a test. -/
def rowsWhere (test : List Datum → Bool) (table : HashTable) : DataRows :=
  (table.filter fun entry => test entry.1).flatMap Prod.snd

theorem rowsWhere_push_perm (test : List Datum → Bool) :
    (rowsWhere test (table.push key row)).Perm (rowsWhere test table ++ if test key then [row] else []) := by
  induction table with
  | nil => by_cases htest : test key = true <;> simp [push, rowsWhere, htest]
  | cons entry rest ih =>
      rw [push]
      by_cases hsame : findsKey entry.1 key = true
      · rw [if_pos hsame, ← (findsKey_iff.mp hsame).1]
        by_cases htest : test entry.1 = true
        · simp only [rowsWhere, List.filter_cons, htest, if_true, List.flatMap_cons, List.append_assoc]
          exact List.perm_append_comm.append_left _
        · simp [rowsWhere, htest]
      · rw [if_neg hsame]
        by_cases htest : test entry.1 = true
        · simp only [rowsWhere, List.filter_cons, htest, if_true, List.flatMap_cons, List.append_assoc]
          exact ih.append_left _
        · simp only [rowsWhere, List.filter_cons, htest, Bool.false_eq_true, if_false]
          exact ih

/-- Every row without a NULL in its key is under its key once. -/
theorem rowsWhere_build_perm (test : List Datum → Bool) :
    (rowsWhere test (build keyIndices rows)).Perm (rows.filter fun row =>
      !hasNull (keyAt keyIndices row) && test (keyAt keyIndices row)) := by
  have hfold : ∀ start : HashTable, (rowsWhere test (rows.foldl (fun table row =>
        let key := keyAt keyIndices row
        if hasNull key then table else push key row table) start)).Perm
      (rowsWhere test start ++ rows.filter fun row =>
        !hasNull (keyAt keyIndices row) && test (keyAt keyIndices row)) := by
    induction rows with
    | nil => intro start; rw [List.foldl_nil, List.filter_nil, List.append_nil]
    | cons row rest ih =>
        intro start
        rw [List.foldl_cons, List.filter_cons]
        refine (ih _).trans ?_
        by_cases hnull : hasNull (keyAt keyIndices row) = true
        · simp [hnull]
        · rw [Bool.not_eq_true] at hnull
          have hpush := @rowsWhere_push_perm (keyAt keyIndices row) row start test
          by_cases htest : test (keyAt keyIndices row) = true
          · simpa [hnull, htest] using hpush.append_right _
          · simpa [hnull, htest] using hpush.append_right _
  exact (hfold []).trans (.of_eq (List.nil_append _))

theorem iterated_perm {choices : QueryChoices} : (table.iterated choices).Perm table := by
  apply Comparator.perm_of_positions
  rw [← List.length_map (f := Prod.fst)]
  exact choices.entryOrder_perm _

end HashTable

section

variable [CaseMapping] [Rendering] (choices : QueryChoices)

/-- A row passes the condition, if there is one. -/
def satisfies (slots : List Expression.TableSlot) (condition : Option Expression) (row : List Datum) : Bool :=
  match condition with
  | none => true
  | some condition => Expression.passes (condition.evaluateJoin choices.uuidv7 row slots)

/-- The NULLs that stand for the columns of a missing row. -/
def padding (width : Nat) : List Datum := List.replicate width .null

/-- The combinations of a row with candidates that pass, or the row padded in a LEFT JOIN. -/
def combineLeft (slots : List Expression.TableSlot) (joinType : JoinType) (condition : Option Expression)
    (rightWidth : Nat) (leftRow : List Datum) (candidates : DataRows) : DataRows :=
  let found := (candidates.map (leftRow ++ ·)).filter (satisfies choices slots condition)
  if found.isEmpty && joinType = .left then [leftRow ++ padding rightWidth] else found

/-- `execute_nested_loop_join`. -/
def nestedLoopJoin (leftSlots rightSlots : List Expression.TableSlot) (joinType : JoinType)
    (onClause : Option Expression) (leftRows rightRows : DataRows) : DataRows :=
  let slots := joinSlots leftSlots rightSlots
  let matched := leftRows.flatMap fun leftRow =>
    combineLeft choices slots joinType onClause (slotsWidth rightSlots) leftRow rightRows
  let unmatched :=
    if joinType = .right then
      (rightRows.filter fun rightRow =>
        !leftRows.any fun leftRow => satisfies choices slots onClause (leftRow ++ rightRow)).map
          (padding (slotsWidth leftSlots) ++ ·)
    else []
  matched ++ unmatched

/-- The rows of a table that an index has under a key, in the order of their positions. -/
def indexedRows (table : Table) (index : Index) (snapshot : Snapshot) (key : List Datum) : DataRows :=
  match index.get key with
  | none => []
  | some rowIndices => rowIndices.sort.filterMap fun rowIdx => (table.visibleAt snapshot rowIdx).map (·.values)

/-- `execute_index_nested_loop_join` on the rows of the outer side. -/
def indexNestedLoopJoin (outerSlots : List Expression.TableSlot) (innerSlot : Expression.TableSlot)
    (joinType : JoinType) (outerKeyIndices : List Nat) (remainingOn : Option Expression)
    (innerRows : List Datum → DataRows) (outerRows : DataRows) : DataRows :=
  let slots := joinSlots outerSlots [innerSlot]
  outerRows.flatMap fun outerRow =>
    combineLeft choices slots joinType remainingOn innerSlot.columns.length outerRow
      (innerRows (keyAt outerKeyIndices outerRow))

/-- `probe_has_key`. -/
def probeHasKey (key : List Datum) (probeRows : DataRows) (probeKeys : List Nat) : Bool :=
  probeRows.any fun row => keyEq (keyAt probeKeys row) key

/-- `execute_hash_join`, from the side `buildLeft` tells. -/
def hashJoin (leftSlots rightSlots : List Expression.TableSlot) (joinType : JoinType) (buildLeft : Bool)
    (buildKeyIndices probeKeyIndices : List Nat) (remainingOn : Option Expression) (leftRows rightRows : DataRows) :
    DataRows :=
  let slots := joinSlots leftSlots rightSlots
  -- Where the right side is built from, the two lists of key positions change places.
  let buildRows := if buildLeft then leftRows else rightRows
  let probeRows := if buildLeft then rightRows else leftRows
  let buildKeys := if buildLeft then buildKeyIndices else probeKeyIndices
  let probeKeys := if buildLeft then probeKeyIndices else buildKeyIndices
  let combine (buildRow probeRow : List Datum) := if buildLeft then buildRow ++ probeRow else probeRow ++ buildRow
  let table := HashTable.build buildKeys buildRows
  let matched := probeRows.flatMap fun probeRow =>
    let key := keyAt probeKeys probeRow
    if hasNull key then []
    else
      ((table.lookup key).map fun buildRow => combine buildRow probeRow).filter (satisfies choices slots remainingOn)
  let unmatchedRows :=
    ((table.iterated choices).filter fun entry => !probeHasKey entry.1 probeRows probeKeys).flatMap Prod.snd
  let unmatched :=
    if joinType = .left ∧ buildLeft then unmatchedRows.map (· ++ padding (slotsWidth rightSlots))
    else if joinType = .right ∧ !buildLeft then unmatchedRows.map (padding (slotsWidth leftSlots) ++ ·)
    else []
  matched ++ unmatched

end

/-! ### Trees -/

section

variable [CaseMapping] [Rendering]

/-- The comparison of ORDER BY: the first expression that tells the rows apart decides. -/
def compareRows (choices : QueryChoices) (slots : List Expression.TableSlot) (left right : List Datum) :
    List OrderByExpr → Ordering
  | [] => .eq
  | order :: rest =>
      let cmp :=
        match order.expr.evaluateJoin choices.uuidv7 left slots, order.expr.evaluateJoin choices.uuidv7 right slots with
        | .ok a, .ok b => a.orEqual b
        | _, _ => .eq
      if cmp = .eq then compareRows choices slots left right rest
      else if order.direction = .desc then cmp.swap
      else cmp

/-- `rows.sort_by`, which sees the rows through the comparison only. -/
def sortRows (choices : QueryChoices) (slots : List Expression.TableSlot) (orderBy : List OrderByExpr)
    (rows : DataRows) : DataRows :=
  (choices.sortOrder rows.length fun i j =>
    compareRows choices slots (rows[i]?.getD []) (rows[j]?.getD []) orderBy).filterMap fun position => rows[position]?

theorem sortRows_perm {choices : QueryChoices} {slots : List Expression.TableSlot} {orderBy : List OrderByExpr}
    {rows : DataRows} : (sortRows choices slots orderBy rows).Perm rows :=
  Comparator.perm_of_positions (choices.sortOrder_perm _ _)

/-- Where the comparison is a total preorder on the rows, they are sorted by it, and equal ones stay as they stood. -/
theorem sortRows_eq_insertionSort {choices : QueryChoices} {slots : List Expression.TableSlot}
    {orderBy : List OrderByExpr} {rows : DataRows}
    (h : Comparator.PreordersOn (fun left right => compareRows choices slots left right orderBy) rows) :
    sortRows choices slots orderBy rows =
      rows.insertionSort fun left right => compareRows choices slots left right orderBy ≠ .gt := by
  rw [sortRows, choices.sortOrder_stable _ _ (h.positions [])]
  exact @Comparator.filterMap_insertionSort_positions _
    (fun left right => compareRows choices slots left right orderBy) rows []

/-- The rows a scan starts from. -/
def scanRows (ctx : ExecContext) (table : Table) (indexName : Option String) (indexKeys : Option (List Datum)) :
    Except HelionError DataRows :=
  match indexName with
  | none => .ok ((table.scanVisible ctx.snapshot.txid ctx.snapshot.active).map fun entry => entry.2.values)
  | some name =>
      match table.indexes.find? fun index => index.definition.name = name with
      | none => .error (.indexNotFound name)
      | some index => .ok (indexedRows table index ctx.snapshot (indexKeys.getD []))

/-- `execute_table_scan`. -/
def executeTableScan (ctx : ExecContext) (table : String) (tableColumns : List ColumnMeta)
    (condition : Option Expression) (indexName : Option String) (indexKeys : Option (List Datum)) :
    Except HelionError DataRows := do
  let found ← requireTable ctx.tables table
  let visible ← scanRows ctx found indexName indexKeys
  return visible.filter (satisfies ctx.choices [{ name := table, offset := 0, columns := tableColumns }] condition)

/-- `Projection` of `execute_tree`: the rows. -/
def projectRows (columns : List Nat) (width : Nat) (rows : DataRows) : DataRows :=
  if columns.any (width ≤ ·) then rows else rows.map (keyAt columns)

/-- `execute_tree`: the rows. -/
def executeTree (ctx : ExecContext) : QueryPlan → Except HelionError DataRows
  | .tableScan table tableColumns condition indexName indexKeys =>
      executeTableScan ctx table tableColumns condition indexName indexKeys
  | .join left right joinType (.nestedLoop onClause) => do
      let leftRows ← executeTree ctx left
      let rightRows ← executeTree ctx right
      return nestedLoopJoin ctx.choices left.slots right.slots joinType onClause leftRows rightRows
  | .join left _ joinType (.indexNestedLoop innerTable innerColumns indexName outerKeyIndices remainingOn) => do
      let outerRows ← executeTree ctx left
      let inner ← requireTable ctx.tables innerTable
      match inner.indexes.find? fun index => index.definition.name = indexName with
      | none => .error (.indexNotFound indexName)
      | some index =>
          return indexNestedLoopJoin ctx.choices left.slots { name := innerTable, offset := 0, columns := innerColumns }
            joinType outerKeyIndices remainingOn (indexedRows inner index ctx.snapshot) outerRows
  | .join left right joinType (.hashJoin buildLeft buildKeyIndices probeKeyIndices remainingOn) => do
      let leftRows ← executeTree ctx left
      let rightRows ← executeTree ctx right
      return hashJoin ctx.choices left.slots right.slots joinType buildLeft buildKeyIndices probeKeyIndices remainingOn
        leftRows rightRows
  | .filter input predicate => do
      let rows ← executeTree ctx input
      return rows.filter (satisfies ctx.choices input.slots (some predicate))
  | .projection input columns tableMap => do
      let rows ← executeTree ctx input
      return projectRows columns (combinedLen tableMap) rows
  | .sort input orderBy => do
      let rows ← executeTree ctx input
      return sortRows ctx.choices input.slots orderBy rows
  | .limit input limit offset => do
      let rows ← executeTree ctx input
      return (rows.drop offset).take limit

/-- `execute_tree`: the names of the columns. -/
def QueryPlan.colNames : QueryPlan → List String
  | .tableScan _ tableColumns _ _ _ => tableColumns.map (·.name)
  | .join left _ _ (.indexNestedLoop innerTable innerColumns _ _ _) =>
      buildCombinedColNames (joinSlots left.slots [{ name := innerTable, offset := 0, columns := innerColumns }])
  | .join left right _ _ => buildCombinedColNames (joinSlots left.slots right.slots)
  | .filter input _ | .sort input _ | .limit input _ _ => input.colNames
  | .projection _ columns tableMap => columns.filterMap fun i => (qualifiedNames tableMap)[i]?

/-- `execute_tree`: the types of the columns. -/
def QueryPlan.colTypes : QueryPlan → List String
  | .tableScan _ tableColumns _ _ _ => tableColumns.map (·.dataType.name)
  | .join left _ _ (.indexNestedLoop innerTable innerColumns _ _ _) =>
      buildCombinedColTypes (joinSlots left.slots [{ name := innerTable, offset := 0, columns := innerColumns }])
  | .join left right _ _ => buildCombinedColTypes (joinSlots left.slots right.slots)
  | .filter input _ | .sort input _ | .limit input _ _ => input.colTypes
  | .projection _ columns tableMap => columns.filterMap fun i => ((allColumns tableMap)[i]?).map (·.dataType.name)

/-- The column of a table that starts at an offset, when a position falls into it. -/
def locateIn (tableMap : List (String × List ColumnMeta)) (idx : Nat) (entry : String × Nat) :
    Option (String × String) :=
  match tableMap.find? fun other => other.1 = entry.1 with
  | none => none
  | some (_, columns) =>
      if entry.2 ≤ idx ∧ idx < entry.2 + columns.length then
        columns[idx - entry.2]?.map fun column => (entry.1, column.name)
      else none

/-- The table and the column that a position of the projection stands for. -/
def locateColumn (tableMap : List (String × List ColumnMeta)) (idx : Nat) : Option (String × String) :=
  (tableOffsets 0 tableMap).findSome? (locateIn tableMap idx)

/-- `collect_plan_tables`. -/
def QueryPlan.tableNames : QueryPlan → List String
  | .tableScan table _ _ _ _ => [table]
  | .join left right _ _ => left.tableNames ++ right.tableNames
  | .filter input _ | .projection input _ _ | .sort input _ | .limit input _ _ => input.tableNames

/-- The columns of each table that `check_plan_permissions` asks for. -/
def requiredColumns (tables : List Table) : QueryPlan → List (String × List String)
  | .projection _ columns tableMap =>
      let needed := columns.filterMap (locateColumn tableMap)
      (needed.map Prod.fst).dedup.map fun name => (name, (needed.filter fun entry => entry.1 = name).map Prod.snd)
  | other =>
      (sortDedup other.tableNames).filterMap fun name =>
        (findTable name tables).map fun table => (name, table.columns.map (·.name))

/-- `{:?}` of a list of texts. -/
def debugList (items : List String) : String := "[" ++ ", ".intercalate (items.map Rendering.debug) ++ "]"

namespace Database

/-- `DatabaseEngine::check_select`, and its siblings with their word for the kind. -/
def checkAccess (db : Database) (word : String) (kind : Permission.Kind) (username table : String)
    (columns : List String) : Except HelionError Unit :=
  if db.permissions.can username table kind columns then .ok ()
  else
    .error (.permissionDenied ("User '" ++ username ++ "' does not have " ++ word ++ " permission on '" ++ table ++
      "' for columns " ++ debugList columns))

/-- `DatabaseEngine::check_select`. -/
def checkSelect (db : Database) (username table : String) (columns : List String) : Except HelionError Unit :=
  db.checkAccess "SELECT" .select username table columns

/-- `DatabaseEngine::check_insert`. -/
def checkInsert (db : Database) (username table : String) (columns : List String) : Except HelionError Unit :=
  db.checkAccess "INSERT" .insert username table columns

/-- `DatabaseEngine::check_update`. -/
def checkUpdate (db : Database) (username table : String) (columns : List String) : Except HelionError Unit :=
  db.checkAccess "UPDATE" .update username table columns

/-- `DatabaseEngine::check_delete`. -/
def checkDelete (db : Database) (username table : String) : Except HelionError Unit :=
  if db.permissions.canDelete username table then .ok ()
  else
    .error (.permissionDenied ("User '" ++ username ++ "' does not have DELETE permission on '" ++ table ++ "'"))

/-- `check_plan_permissions`; the tables are asked for in the order of a hash map. -/
def checkPlanPermissions (db : Database) (choices : QueryChoices) (tree : QueryPlan) (username : String) :
    Except HelionError Unit :=
  let required := requiredColumns db.engine.tables tree
  Loop.checkAll (fun table =>
    db.checkSelect username table (((required.find? fun entry => entry.1 = table).map Prod.snd).getD []))
    (choices.nameOrder (required.map Prod.fst))

/-- The context of a query on this engine. -/
def execContext (db : Database) (choices : QueryChoices) : ExecContext :=
  { tables := db.engine.tables, snapshot := db.engine.readSnapshot.1, choices }

/-- The query arm of `execute_as`: the result it returns. -/
def queryResult (db : Database) (choices : QueryChoices) (tree : QueryPlan) (currentUser : Option String) :
    Except HelionError QueryResult := do
  match currentUser with
  | none => .ok ()
  | some user => db.checkPlanPermissions choices tree user
  let rows ← executeTree (db.execContext choices) tree
  return {
    columns := tree.colNames
    columnTypes := tree.colTypes
    rows := rows.map fun row => row.map Datum.display
    rowsAffected := rows.length }

end Database

end

end HelionDb
