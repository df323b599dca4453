import HelionDb.SqlConversion

/-! The evaluator against Kleene's logic, on the expressions that the reference calls three-valued: columns, literals,
comparisons, connectives, tests for NULL, ranges and lists. A part of an expression is settled when no NULL among its
operands keeps the evaluator from what SQL decides; all parts have their value exactly if all of them are settled. -/

namespace HelionDb

/-- A comparison or a connective. -/
def BinaryOperator.isLogical : BinaryOperator → Bool
  | .eq | .ne | .lt | .le | .gt | .ge | .and | .or => true
  | .add | .sub | .mul | .div => false

namespace Datum

/-- A value is found among items, or missed, whatever its NULLs stand for. -/
theorem among_eq_iff {value : Datum} {items : List Datum} :
    some (items.any fun item => item.datumEq value) = value.among items ↔ value.amongDecided items = true := by
  constructor
  · intro h
    unfold among at h
    unfold amongDecided
    cases hfound : items.any fun item => item.datumEq value with
    | true => rfl
    | false =>
        rw [hfound, if_neg Bool.false_ne_true] at h
        by_cases hnull : items ≠ [] ∧ (value.isNull || items.any isNull) = true
        · rw [if_pos hnull] at h
          cases h
        · rw [Bool.false_or, Bool.or_eq_true, List.isEmpty_iff, Bool.not_eq_true']
          by_cases hitems : items = []
          · exact Or.inl hitems
          · apply Or.inr
            apply Bool.eq_false_iff.mpr
            exact fun hsome => hnull ⟨hitems, hsome⟩
  · exact fun h => (among_of_decided h).symm

theorem ofTruth_injective : Function.Injective ofTruth := by
  intro left right h
  cases left <;> cases right <;> simp_all [ofTruth]

/-- NOT of the evaluator takes a NULL for FALSE. -/
theorem applyNot_iff (value : Datum) :
    Expression.applyUnary .not value = .ok (.ofTruth (Kleene.not value.truth)) ↔ value.isNull = false := by
  cases hvalue : value.isNull with
  | true =>
      rw [truth_of_null hvalue]
      simp [Expression.applyUnary, Kleene.not, ofTruth]
  | false =>
      rw [truth_of_not_null hvalue]
      simp [Expression.applyUnary, Kleene.not, ofTruth]

end Datum

namespace Expression

/-- An expression of columns, literals, comparisons, connectives, tests for NULL, ranges and lists. -/
def isLogical : Expression → Bool
  | .literal _ | .column _ | .qualifiedColumn _ _ => true
  | .binaryOp left op right => op.isLogical && left.isLogical && right.isLogical
  | .unaryOp .not inner | .isNull inner | .isNotNull inner | .inList inner _ => inner.isLogical
  | .between inner low high => inner.isLogical && low.isLogical && high.isLogical
  | .unaryOp .neg _ | .like _ _ | .function _ _ => false

/-- What Kleene's logic gives for an operator: a connective knows its result as soon as one operand decides it. -/
def kleeneBinary (op : BinaryOperator) (left right : Datum) : Except HelionError Datum :=
  match op with
  | .and => .ok (.ofTruth (Kleene.and left.truth right.truth))
  | .or => .ok (.ofTruth (Kleene.or left.truth right.truth))
  | op => applyBinary op left right

section

variable (lookup : Option String → String → Except HelionError Datum)

/-- What Kleene's logic gives for a logical expression. -/
def kleene : Expression → Except HelionError Datum
  | .literal value => .ok value
  | .column name => lookup none name
  | .qualifiedColumn table name => lookup (some table) name
  | .binaryOp left op right => do
      let leftVal ← kleene left
      let rightVal ← kleene right
      kleeneBinary op leftVal rightVal
  | .unaryOp .not inner => do
      let val ← kleene inner
      return .ofTruth (Kleene.not val.truth)
  | .isNull inner => do
      let val ← kleene inner
      return .boolean val.isNull
  | .isNotNull inner => do
      let val ← kleene inner
      return .boolean (!val.isNull)
  | .inList inner list => do
      let val ← kleene inner
      return .ofTruth (val.among list)
  | .between inner low high => do
      let val ← kleene inner
      let lowVal ← kleene low
      let highVal ← kleene high
      return .ofTruth (Kleene.and (val.atLeast lowVal) (val.atMost highVal))
  | .unaryOp .neg _ | .like _ _ | .function _ _ => .error (.internal "No logical expression")

/-- No NULL among the operands keeps the evaluator from what Kleene's logic gives: both operands of a connective are
known or none decides it alone, NOT has a known operand, and a value that is not found in a list is not compared with
a NULL. -/
def Settled : Expression → Prop
  | .binaryOp left .and right =>
      ∀ leftVal, left.kleene lookup = .ok leftVal → ∀ rightVal, right.kleene lookup = .ok rightVal →
        Kleene.Decided false leftVal.truth rightVal.truth
  | .binaryOp left .or right =>
      ∀ leftVal, left.kleene lookup = .ok leftVal → ∀ rightVal, right.kleene lookup = .ok rightVal →
        Kleene.Decided true leftVal.truth rightVal.truth
  | .unaryOp .not inner => ∀ val, inner.kleene lookup = .ok val → val.isNull = false
  | .inList inner list => ∀ val, inner.kleene lookup = .ok val → val.amongDecided list = true
  | .between inner low high =>
      ∀ val, inner.kleene lookup = .ok val → ∀ lowVal, low.kleene lookup = .ok lowVal →
        ∀ highVal, high.kleene lookup = .ok highVal →
          Kleene.Decided false (val.atLeast lowVal) (val.atMost highVal)
  | _ => True

end

/-- A logical expression and the expressions it is built from. -/
def parts : Expression → List Expression
  | .binaryOp left op right => .binaryOp left op right :: (left.parts ++ right.parts)
  | .unaryOp op inner => .unaryOp op inner :: inner.parts
  | .isNull inner => .isNull inner :: inner.parts
  | .isNotNull inner => .isNotNull inner :: inner.parts
  | .inList inner list => .inList inner list :: inner.parts
  | .between inner low high => .between inner low high :: (inner.parts ++ (low.parts ++ high.parts))
  | leaf => [leaf]

theorem self_mem_parts (expr : Expression) : expr ∈ expr.parts := by
  cases expr <;> exact List.mem_cons_self

section Parts

variable [CaseMapping] [Rendering] {uuidv7 : BitVec 128} {lookup : Option String → String → Except HelionError Datum}
  {left right inner low high : Expression}

/-- The evaluator gives for an expression what Kleene's logic gives. -/
abbrev IsKleene (uuidv7 : BitVec 128) (lookup : Option String → String → Except HelionError Datum)
    (expr : Expression) : Prop :=
  expr.evaluateWith uuidv7 lookup = expr.kleene lookup

omit [CaseMapping] [Rendering] in
theorem bind_eq_bind_iff {outcome : Except HelionError Datum} {first second : Datum → Except HelionError Datum} :
    outcome >>= first = outcome >>= second ↔ ∀ val, outcome = .ok val → first val = second val := by
  cases outcome with
  | error err => exact iff_of_true rfl nofun
  | ok value =>
      constructor
      · rintro h val ⟨⟩
        exact h
      · exact fun h => h value rfl

omit [CaseMapping] [Rendering] in
theorem bind_bind_eq_iff {first second : Except HelionError Datum} {f g : Datum → Datum → Except HelionError Datum} :
    (first >>= fun x => second >>= f x) = (first >>= fun x => second >>= g x) ↔
      ∀ x, first = .ok x → ∀ y, second = .ok y → f x y = g x y := by
  rw [bind_eq_bind_iff]
  apply forall₂_congr
  intro x _
  exact bind_eq_bind_iff

/-- An operator, given its operands. -/
theorem isKleene_binary_iff {op : BinaryOperator} (hleft : IsKleene uuidv7 lookup left)
    (hright : IsKleene uuidv7 lookup right) :
    IsKleene uuidv7 lookup (.binaryOp left op right) ↔ Settled lookup (.binaryOp left op right) := by
  unfold IsKleene at hleft hright ⊢
  rw [evaluateWith, kleene, hleft, hright]
  cases op with
  | and =>
      rw [Settled, bind_bind_eq_iff]
      apply forall₂_congr
      intro leftVal _
      apply forall₂_congr
      intro rightVal _
      rw [kleeneBinary, Datum.applyBinary_and, Except.ok.injEq, Datum.ofTruth_injective.eq_iff,
        Kleene.strict_and_eq_iff]
  | or =>
      rw [Settled, bind_bind_eq_iff]
      apply forall₂_congr
      intro leftVal _
      apply forall₂_congr
      intro rightVal _
      rw [kleeneBinary, Datum.applyBinary_or, Except.ok.injEq, Datum.ofTruth_injective.eq_iff,
        Kleene.strict_or_eq_iff]
  | _ => exact iff_of_true rfl trivial

theorem isKleene_not_iff (hinner : IsKleene uuidv7 lookup inner) :
    IsKleene uuidv7 lookup (.unaryOp .not inner) ↔ Settled lookup (.unaryOp .not inner) := by
  unfold IsKleene at hinner ⊢
  rw [evaluateWith, kleene, hinner, Settled, bind_eq_bind_iff]
  apply forall₂_congr
  intro val _
  exact Datum.applyNot_iff val

theorem isKleene_inList_iff {list : List Datum} (hinner : IsKleene uuidv7 lookup inner) :
    IsKleene uuidv7 lookup (.inList inner list) ↔ Settled lookup (.inList inner list) := by
  unfold IsKleene at hinner ⊢
  rw [evaluateWith, kleene, hinner, Settled, bind_eq_bind_iff]
  apply forall₂_congr
  intro val _
  show Except.ok (Datum.ofTruth (some (list.any fun item => item.datumEq val))) = .ok (.ofTruth (val.among list)) ↔ _
  rw [Except.ok.injEq, Datum.ofTruth_injective.eq_iff, Datum.among_eq_iff]

theorem isKleene_between_iff (hinner : IsKleene uuidv7 lookup inner) (hlow : IsKleene uuidv7 lookup low)
    (hhigh : IsKleene uuidv7 lookup high) :
    IsKleene uuidv7 lookup (.between inner low high) ↔ Settled lookup (.between inner low high) := by
  unfold IsKleene at hinner hlow hhigh ⊢
  rw [evaluateWith, kleene, hinner, hlow, hhigh, Settled, bind_eq_bind_iff]
  apply forall₂_congr
  intro val _
  rw [bind_bind_eq_iff]
  apply forall₂_congr
  intro lowVal _
  apply forall₂_congr
  intro highVal _
  show Except.ok (applyBetween val lowVal highVal) =
    .ok (.ofTruth (Kleene.and (val.atLeast lowVal) (val.atMost highVal))) ↔ _
  rw [Datum.applyBetween_eq, Except.ok.injEq, Datum.ofTruth_injective.eq_iff, Kleene.strict_and_eq_iff]

/-! ### All parts -/

theorem isKleene_leaf_iff {leaf : Expression} (hparts : leaf.parts = [leaf]) (hkleene : IsKleene uuidv7 lookup leaf)
    (hsettled : Settled lookup leaf) :
    (∀ part ∈ leaf.parts, IsKleene uuidv7 lookup part) ↔ ∀ part ∈ leaf.parts, Settled lookup part := by
  rw [hparts, List.forall_mem_singleton, List.forall_mem_singleton]
  exact iff_of_true hkleene hsettled

/-- By induction on the expression: where the operands of a part have their values, the part has its own exactly if it
is settled. -/
theorem isKleene_parts_iff : ∀ expr : Expression, expr.isLogical = true →
    ((∀ part ∈ expr.parts, IsKleene uuidv7 lookup part) ↔ ∀ part ∈ expr.parts, Settled lookup part)
  | .literal _, _ => isKleene_leaf_iff rfl rfl trivial
  | .column _, _ => isKleene_leaf_iff rfl rfl trivial
  | .qualifiedColumn _ _, _ => isKleene_leaf_iff rfl rfl trivial
  | .binaryOp left op right, h => by
      obtain ⟨h, hright⟩ := (Bool.and_eq_true _ _).mp h
      obtain ⟨-, hleft⟩ := (Bool.and_eq_true _ _).mp h
      rw [parts, List.forall_mem_cons, List.forall_mem_cons, List.forall_mem_append, List.forall_mem_append,
        ← isKleene_parts_iff left hleft, ← isKleene_parts_iff right hright]
      apply and_congr_left
      intro hparts
      exact isKleene_binary_iff (hparts.1 left left.self_mem_parts) (hparts.2 right right.self_mem_parts)
  | .unaryOp .not inner, h => by
      rw [parts, List.forall_mem_cons, List.forall_mem_cons, ← isKleene_parts_iff inner h]
      apply and_congr_left
      intro hparts
      exact isKleene_not_iff (hparts inner inner.self_mem_parts)
  | .isNull inner, h => by
      rw [parts, List.forall_mem_cons, List.forall_mem_cons, ← isKleene_parts_iff inner h]
      apply and_congr_left
      intro hparts
      apply iff_of_true _ trivial
      have hinner : IsKleene uuidv7 lookup inner := hparts inner inner.self_mem_parts
      unfold IsKleene at hinner ⊢
      rw [evaluateWith, kleene, hinner]
  | .isNotNull inner, h => by
      rw [parts, List.forall_mem_cons, List.forall_mem_cons, ← isKleene_parts_iff inner h]
      apply and_congr_left
      intro hparts
      apply iff_of_true _ trivial
      have hinner : IsKleene uuidv7 lookup inner := hparts inner inner.self_mem_parts
      unfold IsKleene at hinner ⊢
      rw [evaluateWith, kleene, hinner]
  | .inList inner list, h => by
      rw [parts, List.forall_mem_cons, List.forall_mem_cons, ← isKleene_parts_iff inner h]
      apply and_congr_left
      intro hparts
      exact isKleene_inList_iff (hparts inner inner.self_mem_parts)
  | .between inner low high, h => by
      obtain ⟨h, hhigh⟩ := (Bool.and_eq_true _ _).mp h
      obtain ⟨hinner, hlow⟩ := (Bool.and_eq_true _ _).mp h
      rw [parts, List.forall_mem_cons, List.forall_mem_cons, List.forall_mem_append, List.forall_mem_append,
        List.forall_mem_append, List.forall_mem_append, ← isKleene_parts_iff inner hinner,
        ← isKleene_parts_iff low hlow, ← isKleene_parts_iff high hhigh]
      apply and_congr_left
      intro hparts
      exact isKleene_between_iff (hparts.1 inner inner.self_mem_parts) (hparts.2.1 low low.self_mem_parts)
        (hparts.2.2 high high.self_mem_parts)

/-- On every row, the parts of a logical expression have the values that Kleene's logic gives them exactly if no NULL
unsettles one of them. -/
theorem evaluate_kleene_iff {expr : Expression} (h : expr.isLogical = true) (row : List Datum)
    (columns : List ColumnMeta) :
    (∀ part ∈ expr.parts, part.evaluate uuidv7 row columns = part.kleene (lookupColumn row columns)) ↔
      ∀ part ∈ expr.parts, part.Settled (lookupColumn row columns) :=
  isKleene_parts_iff expr h

end Parts

section Samples

open AsciiCase PlainText

/-- A table with a column `b` of type BIGINT. -/
def nullableColumn : List ColumnMeta :=
  [{ name := "b", dataType := .bigInt, nullable := true, isPrimaryKey := false, isUnique := false, default := none,
     references := none }]

/-- `NOT (b = 1)`. -/
def notOne : Expression := .unaryOp .not (.binaryOp (.column "b") .eq (.literal (.bigInt 1)))

/-- A second such column `c`. -/
def nullableColumns : List ColumnMeta := nullableColumn ++ nullableColumn.map fun column => { column with name := "c" }

/-- `c IS NULL AND (c = 1 AND NOT (b = 1))`. -/
def missingAndNotOne : Expression :=
  .binaryOp (.isNull (.column "c")) .and (.binaryOp (.binaryOp (.column "c") .eq (.literal (.bigInt 1))) .and notOne)

/-- With a NULL in `c` the comparison is unknown, and the connectives around it leave it so. -/
theorem evaluate_kleene_missing :
    missingAndNotOne.evaluate 0 [.bigInt 2, .null] nullableColumns = .ok .null ∧ missingAndNotOne.isLogical = true ∧
      ∀ part ∈ missingAndNotOne.parts, part.evaluate 0 [.bigInt 2, .null] nullableColumns =
        part.kleene (lookupColumn [.bigInt 2, .null] nullableColumns) := by
  have hlogical : missingAndNotOne.isLogical = true := rfl
  refine ⟨rfl, hlogical, (evaluate_kleene_iff hlogical [.bigInt 2, .null] nullableColumns).mpr ?_⟩
  -- The connectives and NOT have to be settled; the parts below them always are.
  refine List.forall_mem_cons.mpr ⟨?outer, List.forall_mem_cons.mpr ⟨trivial, List.forall_mem_cons.mpr ⟨trivial,
    List.forall_mem_cons.mpr ⟨?inner, List.forall_mem_cons.mpr ⟨trivial, List.forall_mem_cons.mpr ⟨trivial,
      List.forall_mem_cons.mpr ⟨trivial, List.forall_mem_cons.mpr ⟨?negation, List.forall_mem_cons.mpr ⟨trivial,
        List.forall_mem_cons.mpr ⟨trivial, List.forall_mem_singleton.mpr trivial⟩⟩⟩⟩⟩⟩⟩⟩⟩⟩
  case outer =>
    rintro leftVal ⟨⟩ rightVal ⟨⟩
    decide
  case inner =>
    rintro leftVal ⟨⟩ rightVal ⟨⟩
    decide
  case negation =>
    rintro val ⟨⟩
    rfl

/-- With a NULL in the column: `NOT (b = 1)`, `FALSE AND b = 1`, `TRUE OR b = 1` and `b IN (1)`. -/
theorem not_evaluate_kleene_null :
    let unknown := Expression.binaryOp (.column "b") .eq (.literal (.bigInt 1))
    let exprs := [notOne, .binaryOp (.literal (.boolean false)) .and unknown,
      .binaryOp (.literal (.boolean true)) .or unknown, .inList (.column "b") [.bigInt 1]]
    exprs.all isLogical = true ∧
      exprs.map (fun expr => expr.evaluate 0 [.null] nullableColumn) =
        [.ok (.boolean true), .ok .null, .ok .null, .ok (.boolean false)] ∧
      exprs.map (fun expr => expr.kleene (lookupColumn [.null] nullableColumn)) =
        [.ok .null, .ok (.boolean false), .ok (.boolean true), .ok .null] := by
  refine ⟨rfl, ?_, ?_⟩
  · rfl
  · rfl

end Samples

end Expression

end HelionDb
