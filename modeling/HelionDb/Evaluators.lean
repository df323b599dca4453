import HelionDb.ExecuteAs
import HelionDb.IndexScan
import HelionDb.Noninterference

/-! The two evaluators of `eval.rs` as the source has them, one recursion for the rows of a single table and one for the
combined rows of a join. Both are the recursion of the model under their own lookup of columns, so on a single table
they give the same, and the statements that use the one choose the rows that the statements that use the other choose. -/

namespace HelionDb

namespace Eval

open Expression (TableSlot positionOf findUnqualified lookupColumn lookupJoin)

section

variable [CaseMapping] [Rendering] (uuidv7 : BitVec 128)

/-! ### The recursions -/

mutual

/-- `evaluate`. -/
def evaluate (row : List Datum) (columns : List ColumnMeta) : Expression → Except HelionError Datum
  | .literal d => .ok d
  | .column name =>
      match positionOf columns name with
      | none => .error (.columnNotFound name)
      | some idx => .ok (row[idx]?.getD .null)
  | .qualifiedColumn table col =>
      match positionOf columns col with
      | none => .error (.columnNotFound (table ++ "." ++ col))
      | some idx => .ok (row[idx]?.getD .null)
  | .binaryOp left op right => do
      let leftVal ← evaluate row columns left
      let rightVal ← evaluate row columns right
      if leftVal.isNull || rightVal.isNull then return .null
      else match op with
        | .eq => return .boolean (leftVal.datumEq rightVal)
        | .ne => return .boolean (!leftVal.datumEq rightVal)
        | .lt => return .boolean (leftVal.compareDatums rightVal = some .lt)
        | .le => return .boolean (((leftVal.compareDatums rightVal).map (· != .gt)).getD false)
        | .gt => return .boolean (leftVal.compareDatums rightVal = some .gt)
        | .ge => return .boolean (((leftVal.compareDatums rightVal).map (· != .lt)).getD false)
        | .and =>
            let lb := leftVal.datumToBool
            let rb := rightVal.datumToBool
            return .boolean (lb && rb)
        | .or =>
            let lb := leftVal.datumToBool
            let rb := rightVal.datumToBool
            return .boolean (lb || rb)
        | .add => leftVal.datumArith rightVal fun a b => a + b
        | .sub => leftVal.datumArith rightVal fun a b => a - b
        | .mul => leftVal.datumArith rightVal fun a b => a * b
        | .div => leftVal.datumArith rightVal fun a b => a / b
  | .unaryOp op inner => do
      let val ← evaluate row columns inner
      match op with
      | .not => return .boolean (!val.datumToBool)
      | .neg => val.negateDatum
  | .isNull inner => do
      let val ← evaluate row columns inner
      return .boolean val.isNull
  | .isNotNull inner => do
      let val ← evaluate row columns inner
      return .boolean (!val.isNull)
  | .inList inner list => do
      let val ← evaluate row columns inner
      return .boolean (list.any fun d => d.datumEq val)
  | .between inner low high => do
      let val ← evaluate row columns inner
      let lowVal ← evaluate row columns low
      let highVal ← evaluate row columns high
      if val.isNull || lowVal.isNull || highVal.isNull then return .null
      else
        let geLow := ((val.compareDatums lowVal).map (· != .lt)).getD false
        let leHigh := ((val.compareDatums highVal).map (· != .gt)).getD false
        return .boolean (geLow && leHigh)
  | .like inner pattern => do
      let val ← evaluate row columns inner
      let s := val.datumToString
      let regexPattern := likeToRegex pattern
      return .boolean (regexLite regexPattern s)
  | .function name args => do
      let args ← evaluateArgs row columns args
      evaluateFunction uuidv7 name args

/-- The arguments of a function in `evaluate`. -/
def evaluateArgs (row : List Datum) (columns : List ColumnMeta) : List Expression → Except HelionError (List Datum)
  | [] => return []
  | arg :: rest => do
      let value ← evaluate row columns arg
      let values ← evaluateArgs row columns rest
      return value :: values

end

/-- The loop of `evaluate_join` for a qualified column: the first table of the name decides. -/
def findQualified (row : List Datum) (table col : String) : List TableSlot → Except HelionError Datum
  | [] => .error (.columnNotFound (table ++ "." ++ col))
  | slot :: rest =>
      if eqIgnoreAsciiCase slot.name table then
        match positionOf slot.columns col with
        | none => .error (.columnNotFound (table ++ "." ++ col))
        | some idx => .ok (row[slot.offset + idx]?.getD .null)
      else findQualified row table col rest

mutual

/-- `evaluate_join`. -/
def evaluateJoin (row : List Datum) (tableMap : List TableSlot) : Expression → Except HelionError Datum
  | .qualifiedColumn table col => findQualified row table col tableMap
  | .column name => do
      let found ← findUnqualified name none tableMap
      match found with
      | some idx => return row[idx]?.getD .null
      | none => .error (.columnNotFound name)
  | .literal d => .ok d
  | .binaryOp left op right => do
      let leftVal ← evaluateJoin row tableMap left
      let rightVal ← evaluateJoin row tableMap right
      if leftVal.isNull || rightVal.isNull then return .null
      else match op with
        | .eq => return .boolean (leftVal.datumEq rightVal)
        | .ne => return .boolean (!leftVal.datumEq rightVal)
        | .lt => return .boolean (leftVal.compareDatums rightVal = some .lt)
        | .le => return .boolean (((leftVal.compareDatums rightVal).map (· != .gt)).getD false)
        | .gt => return .boolean (leftVal.compareDatums rightVal = some .gt)
        | .ge => return .boolean (((leftVal.compareDatums rightVal).map (· != .lt)).getD false)
        | .and => return .boolean (leftVal.datumToBool && rightVal.datumToBool)
        | .or => return .boolean (leftVal.datumToBool || rightVal.datumToBool)
        | .add => leftVal.datumArith rightVal fun a b => a + b
        | .sub => leftVal.datumArith rightVal fun a b => a - b
        | .mul => leftVal.datumArith rightVal fun a b => a * b
        | .div => leftVal.datumArith rightVal fun a b => a / b
  | .unaryOp op inner => do
      let val ← evaluateJoin row tableMap inner
      match op with
      | .not => return .boolean (!val.datumToBool)
      | .neg => val.negateDatum
  | .isNull inner => do
      let val ← evaluateJoin row tableMap inner
      return .boolean val.isNull
  | .isNotNull inner => do
      let val ← evaluateJoin row tableMap inner
      return .boolean (!val.isNull)
  | .inList inner list => do
      let val ← evaluateJoin row tableMap inner
      return .boolean (list.any fun d => d.datumEq val)
  | .between inner low high => do
      let val ← evaluateJoin row tableMap inner
      let lowVal ← evaluateJoin row tableMap low
      let highVal ← evaluateJoin row tableMap high
      if val.isNull || lowVal.isNull || highVal.isNull then return .null
      else
        let geLow := ((val.compareDatums lowVal).map (· != .lt)).getD false
        let leHigh := ((val.compareDatums highVal).map (· != .gt)).getD false
        return .boolean (geLow && leHigh)
  | .like inner pattern => do
      let val ← evaluateJoin row tableMap inner
      let s := val.datumToString
      let regexPattern := likeToRegex pattern
      return .boolean (regexLite regexPattern s)
  | .function name args => do
      let args ← evaluateJoinArgs row tableMap args
      evaluateFunction uuidv7 name args

/-- The arguments of a function in `evaluate_join`. -/
def evaluateJoinArgs (row : List Datum) (tableMap : List TableSlot) :
    List Expression → Except HelionError (List Datum)
  | [] => return []
  | arg :: rest => do
      let value ← evaluateJoin row tableMap arg
      let values ← evaluateJoinArgs row tableMap rest
      return value :: values

end

variable {uuidv7} {row : List Datum} {columns : List ColumnMeta} {tableMap : List TableSlot}

/-! ### The recursion they share -/

omit [CaseMapping] [Rendering] in
/-- How an evaluator goes on from two operands, if it knows the operator on values that are not NULL. -/
theorem binary_eq {op : BinaryOperator} {table : Datum → Datum → Except HelionError Datum}
    (htable : ∀ left right, (left.isNull || right.isNull) = false → table left right = Expression.applyBinary op left right)
    (left right : Except HelionError Datum) :
    (do
      let leftVal ← left
      let rightVal ← right
      if leftVal.isNull || rightVal.isNull then return .null
      else table leftVal rightVal) =
    (do
      let leftVal ← left
      let rightVal ← right
      Expression.applyBinary op leftVal rightVal) := by
  apply bind_congr
  intro leftVal
  apply bind_congr
  intro rightVal
  by_cases hnull : (leftVal.isNull || rightVal.isNull) = true
  · unfold Expression.applyBinary
    rw [if_pos hnull, if_pos hnull]
    rfl
  · rw [if_neg hnull]
    exact htable leftVal rightVal (Bool.eq_false_iff.mpr hnull)

omit [CaseMapping] [Rendering] in
theorem between_eq (inner low high : Except HelionError Datum) :
    (do
      let val ← inner
      let lowVal ← low
      let highVal ← high
      if val.isNull || lowVal.isNull || highVal.isNull then return .null
      else
        let geLow := ((val.compareDatums lowVal).map (· != .lt)).getD false
        let leHigh := ((val.compareDatums highVal).map (· != .gt)).getD false
        return .boolean (geLow && leHigh)) =
    (do
      let val ← inner
      let lowVal ← low
      let highVal ← high
      return Expression.applyBetween val lowVal highVal : Except HelionError Datum) := by
  apply bind_congr
  intro val
  apply bind_congr
  intro lowVal
  apply bind_congr
  intro highVal
  rw [Expression.applyBetween]
  by_cases hnull : (val.isNull || lowVal.isNull || highVal.isNull) = true
  · rw [if_pos hnull, if_pos hnull]
  · rw [if_neg hnull, if_neg hnull]

mutual

/-- By induction on the expression, one case for each constructor. -/
theorem evaluate_eq : ∀ expr : Expression, evaluate uuidv7 row columns expr = expr.evaluate uuidv7 row columns
  | .literal _ => rfl
  | .column name => by
      rw [evaluate, Expression.evaluate, Expression.evaluateWith, lookupColumn]
      cases positionOf columns name <;> rfl
  | .qualifiedColumn table col => by
      rw [evaluate, Expression.evaluate, Expression.evaluateWith, lookupColumn]
      cases positionOf columns col <;> rfl
  | .binaryOp left op right => by
      rw [evaluate, evaluate_eq left, evaluate_eq right]
      apply binary_eq
      intro leftVal rightVal hvalues
      unfold Expression.applyBinary
      rw [if_neg (Bool.eq_false_iff.mp hvalues)]
      cases op <;> rfl
  | .unaryOp op inner => by
      rw [evaluate, evaluate_eq inner]
      cases op <;> rfl
  | .isNull inner => by
      rw [evaluate, evaluate_eq inner]
      rfl
  | .isNotNull inner => by
      rw [evaluate, evaluate_eq inner]
      rfl
  | .inList inner list => by
      rw [evaluate, evaluate_eq inner]
      rfl
  | .between inner low high => by
      rw [evaluate, evaluate_eq inner, evaluate_eq low, evaluate_eq high]
      exact between_eq _ _ _
  | .like inner pattern => by
      rw [evaluate, evaluate_eq inner]
      rfl
  | .function name args => by
      rw [evaluate, evaluateArgs_eq args]
      rfl

theorem evaluateArgs_eq : ∀ args : List Expression,
    evaluateArgs uuidv7 row columns args = Expression.evaluateAll uuidv7 (lookupColumn row columns) args
  | [] => rfl
  | arg :: rest => by
      rw [evaluateArgs, evaluate_eq arg, evaluateArgs_eq rest]
      rfl

end

omit [CaseMapping] [Rendering] in
theorem findQualified_eq (table col : String) :
    findQualified row table col tableMap = lookupJoin row tableMap (some table) col := by
  rw [lookupJoin]
  induction tableMap with
  | nil => rfl
  | cons slot rest ih =>
      rw [findQualified, List.find?_cons]
      cases eqIgnoreAsciiCase slot.name table with
      | true => rfl
      | false => exact ih

mutual

theorem evaluateJoin_eq : ∀ expr : Expression,
    evaluateJoin uuidv7 row tableMap expr = expr.evaluateJoin uuidv7 row tableMap
  | .literal _ => rfl
  | .column name => by
      rw [evaluateJoin, Expression.evaluateJoin, Expression.evaluateWith, lookupJoin]
      cases findUnqualified name none tableMap with
      | error err => rfl
      | ok found => cases found <;> rfl
  | .qualifiedColumn table col => by
      rw [evaluateJoin, findQualified_eq]
      rfl
  | .binaryOp left op right => by
      rw [evaluateJoin, evaluateJoin_eq left, evaluateJoin_eq right]
      apply binary_eq
      intro leftVal rightVal hvalues
      unfold Expression.applyBinary
      rw [if_neg (Bool.eq_false_iff.mp hvalues)]
      cases op <;> rfl
  | .unaryOp op inner => by
      rw [evaluateJoin, evaluateJoin_eq inner]
      cases op <;> rfl
  | .isNull inner => by
      rw [evaluateJoin, evaluateJoin_eq inner]
      rfl
  | .isNotNull inner => by
      rw [evaluateJoin, evaluateJoin_eq inner]
      rfl
  | .inList inner list => by
      rw [evaluateJoin, evaluateJoin_eq inner]
      rfl
  | .between inner low high => by
      rw [evaluateJoin, evaluateJoin_eq inner, evaluateJoin_eq low, evaluateJoin_eq high]
      exact between_eq _ _ _
  | .like inner pattern => by
      rw [evaluateJoin, evaluateJoin_eq inner]
      rfl
  | .function name args => by
      rw [evaluateJoin, evaluateJoinArgs_eq args]
      rfl

theorem evaluateJoinArgs_eq : ∀ args : List Expression,
    evaluateJoinArgs uuidv7 row tableMap args = Expression.evaluateAll uuidv7 (lookupJoin row tableMap) args
  | [] => rfl
  | arg :: rest => by
      rw [evaluateJoinArgs, evaluateJoin_eq arg, evaluateJoinArgs_eq rest]
      rfl

end

/-- Every qualified reference names the table. -/
def NamesTable (name : String) (expr : Expression) : Prop :=
  ∀ table col, (some table, col) ∈ expr.references → eqIgnoreAsciiCase name table = true

omit [CaseMapping] [Rendering] in
theorem findUnqualified_single (name col : String) :
    findUnqualified col none [{ name, offset := 0, columns }] = .ok (positionOf columns col) := by
  rw [findUnqualified]
  cases positionOf columns col with
  | none => rfl
  | some idx =>
      show Except.ok (some (0 + idx)) = _
      rw [Nat.zero_add]

omit [CaseMapping] [Rendering] in
/-- On one table the lookups find the same columns and miss the same. -/
theorem lookupColumn_eq_lookupJoin {name : String} {table : Option String} {col : String}
    (htable : ∀ given, table = some given → eqIgnoreAsciiCase name given = true) :
    lookupColumn row columns table col = lookupJoin row [{ name, offset := 0, columns }] table col := by
  unfold lookupColumn lookupJoin
  cases table with
  | none =>
      rw [findUnqualified_single]
      cases positionOf columns col <;> rfl
  | some given =>
      dsimp only
      rw [List.find?_cons, htable given rfl]
      dsimp only
      cases positionOf columns col with
      | none => rfl
      | some idx =>
          dsimp only
          rw [Nat.zero_add]

theorem evaluate_eq_evaluateJoin {name : String} {expr : Expression} (hnames : NamesTable name expr) :
    expr.evaluate uuidv7 row columns = expr.evaluateJoin uuidv7 row [{ name, offset := 0, columns }] := by
  rw [Expression.evaluate, Expression.evaluateJoin]
  apply Expression.evaluateWith_congr
  rintro ⟨table, col⟩ hreference
  apply lookupColumn_eq_lookupJoin
  rintro given rfl
  exact hnames given col hreference

/-- On one table `evaluate` and `evaluate_join` have the same outcome for every expression that names no other table. So
UPDATE and DELETE choose the rows that the scan of a SELECT with the same condition gives, as well as the filter over
the scan. -/
theorem evaluators_agree {name : String} {expr : Expression} (hnames : NamesTable name expr) :
    (∀ (uuidv7 : BitVec 128) (row : List Datum) (columns : List ColumnMeta),
      evaluate uuidv7 row columns expr = evaluateJoin uuidv7 row [{ name, offset := 0, columns }] expr) ∧
    ∀ (engine : DatabaseEngine) (table : Table) (choices : Choices), findTable name engine.tables = some table →
      let ctx : ExecContext := { tables := engine.tables, snapshot := engine.readSnapshot.1, choices := choices.toQueryChoices }
      let chosen := (engine.selectRows table (rowFilter choices (some expr) table.columns)).map fun entry => entry.2.values
      executeTree ctx (.tableScan name table.columns (some expr) none none) = .ok chosen ∧
        executeTree ctx (.filter (.tableScan name table.columns none none none) expr) = .ok chosen := by
  refine ⟨fun uuidv7 row columns => ?_, fun engine table choices htable => ?_⟩
  · rw [evaluate_eq, evaluateJoin_eq]
    exact evaluate_eq_evaluateJoin hnames
  · intro ctx chosen
    have hfilter : (fun entry : Nat × Row => rowFilter choices (some expr) table.columns entry.2) =
        satisfies ctx.choices [{ name, offset := 0, columns := table.columns }] (some expr) ∘ fun entry => entry.2.values := by
      funext entry
      show Expression.passes _ = Expression.passes _
      rw [evaluate_eq_evaluateJoin hnames]
    have hchosen :
        chosen = ((table.scanVisible ctx.snapshot.txid ctx.snapshot.active).map fun entry => entry.2.values).filter
        (satisfies ctx.choices [{ name, offset := 0, columns := table.columns }] (some expr)) := by
      rw [List.filter_map, ← hfilter]
      rfl
    have hscan : ∀ condition, executeTree ctx (.tableScan name table.columns condition none none) =
        .ok (((table.scanVisible ctx.snapshot.txid ctx.snapshot.active).map fun entry => entry.2.values).filter
          (satisfies ctx.choices [{ name, offset := 0, columns := table.columns }] condition)) := by
      intro condition
      exact QueryPlan.executeTableScan_eq htable rfl table.columns condition
    constructor
    · rw [hscan, hchosen]
    · rw [executeTree, hscan, hchosen]
      show Except.ok (List.filter _ (List.filter (fun _ => true) _)) = _
      rw [List.filter_true]
      rfl

end

section Samples

open AsciiCase PlainText

/-- `T.a = 5`. -/
def isFive : Expression := .binaryOp (.qualifiedColumn "T" "a") .eq (.literal (.integer 5))

/-- An engine with a table `t` that has one row. -/
def oneTable : DatabaseEngine := { DatabaseEngine.fresh "disk" with tables := [QueryPlan.indexedColumn (.integer 5)] }

theorem evaluators_agree_five :
    evaluate 0 [.integer 5] [.new "a" .integer] isFive =
        evaluateJoin 0 [.integer 5] [{ name := "t", offset := 0, columns := [.new "a" .integer] }] isFive ∧
      executeTree { tables := oneTable.tables, snapshot := oneTable.readSnapshot.1, choices := QueryChoices.asGiven }
          (.tableScan "t" [.new "a" .integer] (some isFive) none none) =
        .ok ((oneTable.selectRows (QueryPlan.indexedColumn (.integer 5))
          (rowFilter Choices.asGiven (some isFive) [.new "a" .integer])).map fun entry => entry.2.values) := by
  have hnames : NamesTable "t" isFive := by
    intro table col hreference
    obtain ⟨htable, -⟩ := Prod.mk.inj (List.mem_singleton.mp hreference)
    rw [Option.some.inj htable]
    decide
  obtain ⟨hvalues, hrows⟩ := evaluators_agree hnames
  exact ⟨hvalues 0 _ _, (hrows oneTable (QueryPlan.indexedColumn (.integer 5)) Choices.asGiven rfl).1⟩

end Samples

end Eval

end HelionDb
