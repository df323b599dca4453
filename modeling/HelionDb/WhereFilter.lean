import HelionDb.RowWrites
import HelionDb.WhereMeaning

/-! The filter of a where object against what the object says. The outcome of a filter stands for a verdict: whether it
knows all columns, whether it comes out NULL, and whether it holds. The connectives of the evaluator follow the verdicts,
OR only where no NULL hides a condition that holds. -/

namespace HelionDb

/-! ### Verdicts -/

/-- What the evaluation of a filter shows. -/
structure Verdict where
  known : Bool
  unknown : Bool
  holds : Bool

namespace Verdict

def datum (verdict : Verdict) : Datum := if verdict.unknown then .null else .boolean verdict.holds

/-- The outcome of an evaluation shows the verdict. -/
structure Of (verdict : Verdict) (outcome : Except HelionError Datum) : Prop where
  unheld : verdict.unknown = true → verdict.holds = false
  value : verdict.known = true → outcome = .ok verdict.datum
  failed : verdict.known = false → ∃ err, outcome = .error err

def and (left right : Verdict) : Verdict where
  known := left.known && right.known
  unknown := left.unknown || right.unknown
  holds := left.holds && right.holds

def or (left right : Verdict) : Verdict where
  known := left.known && right.known
  unknown := left.unknown || right.unknown
  holds := left.holds || right.holds

def not (verdict : Verdict) : Verdict where
  known := verdict.known
  unknown := false
  holds := !verdict.holds

def allOf (verdicts : List Verdict) : Verdict where
  known := verdicts.all known
  unknown := verdicts.any unknown
  holds := verdicts.all holds

def anyOf (verdicts : List Verdict) : Verdict where
  known := verdicts.all known
  unknown := verdicts.any unknown
  holds := verdicts.any holds

theorem allOf_and (left right : Verdict) (rest : List Verdict) :
    allOf (left.and right :: rest) = allOf (left :: right :: rest) := by
  simp only [allOf, and, List.all_cons, List.any_cons, Bool.and_assoc, Bool.or_assoc]

theorem anyOf_or (left right : Verdict) (rest : List Verdict) :
    anyOf (left.or right :: rest) = anyOf (left :: right :: rest) := by
  simp only [anyOf, or, List.all_cons, List.any_cons, Bool.and_assoc, Bool.or_assoc]

theorem allOf_singleton (verdict : Verdict) : allOf [verdict] = verdict := by
  simp only [allOf, List.all_cons, List.any_cons, List.all_nil, List.any_nil, Bool.and_true, Bool.or_false]

theorem anyOf_singleton (verdict : Verdict) : anyOf [verdict] = verdict := by
  simp only [anyOf, List.all_cons, List.any_cons, List.all_nil, List.any_nil, Bool.and_true, Bool.or_false]

/-- An evaluation that knows its columns passes exactly when the verdict is that it holds. -/
theorem Of.passes_iff {verdict : Verdict} {outcome : Except HelionError Datum} (h : verdict.Of outcome) :
    Expression.passes outcome = true ↔ verdict.known = true ∧ verdict.holds = true := by
  cases hknown : verdict.known with
  | false =>
      obtain ⟨err, rfl⟩ := h.failed hknown
      exact iff_of_false Bool.false_ne_true fun h => Bool.false_ne_true h.1
  | true =>
      rw [h.value hknown, datum]
      cases hunknown : verdict.unknown with
      | true =>
          rw [h.unheld hunknown]
          exact iff_of_false Bool.false_ne_true fun h => Bool.false_ne_true h.2
      | false => cases verdict.holds <;> simp [Expression.passes]

section Connectives

variable {left right : Verdict} {first second : Except HelionError Datum}

/-- Two operands of a connective: both outcomes are values, or the whole is an error. -/
theorem Of.bind (hleft : left.Of first) (hright : right.Of second) (op : BinaryOperator) {whole : Verdict}
    (hknown : whole.known = (left.known && right.known))
    (hunheld : whole.unknown = true → whole.holds = false)
    (hvalue : Expression.applyBinary op left.datum right.datum = .ok whole.datum) :
    whole.Of (first.bind fun l => second.bind fun r => Expression.applyBinary op l r) := by
  refine ⟨hunheld, fun h => ?_, fun h => ?_⟩
  · obtain ⟨hl, hr⟩ := (Bool.and_eq_true _ _).mp (hknown.symm.trans h)
    rw [hleft.value hl, hright.value hr]
    exact hvalue
  · cases hl : left.known with
    | false =>
        obtain ⟨err, rfl⟩ := hleft.failed hl
        exact ⟨err, rfl⟩
    | true =>
        rw [hknown, hl, Bool.true_and] at h
        obtain ⟨err, rfl⟩ := hright.failed h
        rw [hleft.value hl]
        exact ⟨err, rfl⟩

/-- AND of two verdicts; a NULL on one side leaves it NULL, and it does not hold either way. -/
theorem Of.and (hleft : left.Of first) (hright : right.Of second) :
    (left.and right).Of (first.bind fun l => second.bind fun r => Expression.applyBinary .and l r) := by
  apply hleft.bind hright .and rfl
  · intro hunknown
    obtain h | h := (Bool.or_eq_true _ _).mp hunknown
    · rw [Verdict.and, hleft.unheld h, Bool.false_and]
    · rw [Verdict.and, hright.unheld h, Bool.and_false]
  · cases hl : left.unknown <;> cases hr : right.unknown <;>
      simp [datum, Verdict.and, hl, hr, Expression.applyBinary, Datum.isNull, Datum.datumToBool]

/-- OR of two verdicts, where no NULL hides the side that holds. -/
theorem Of.or (hleft : left.Of first) (hright : right.Of second)
    (hunheld : (left.or right).unknown = true → (left.or right).holds = false) :
    (left.or right).Of (first.bind fun l => second.bind fun r => Expression.applyBinary .or l r) := by
  apply hleft.bind hright .or rfl hunheld
  cases hl : left.unknown <;> cases hr : right.unknown <;>
    simp [datum, Verdict.or, hl, hr, Expression.applyBinary, Datum.isNull, Datum.datumToBool]

/-- NOT takes a NULL for what does not hold. -/
theorem Of.not (hleft : left.Of first) : left.not.Of (first.bind fun l => Expression.applyUnary .not l) := by
  refine ⟨fun h => absurd h Bool.false_ne_true, fun h => ?_, fun h => ?_⟩
  · rw [hleft.value h, datum, datum]
    cases hunknown : left.unknown with
    | true =>
        show Except.ok (Datum.boolean _) = Except.ok (Datum.boolean (!left.holds))
        rw [hleft.unheld hunknown]
        rfl
    | false => rfl
  · obtain ⟨err, rfl⟩ := hleft.failed h
    exact ⟨err, rfl⟩

end Connectives

end Verdict

section Filters

variable [CaseMapping] [Rendering] (uuidv7 : BitVec 128) (lookup : Option String → String → Except HelionError Datum)

/-- The verdicts of filters, one by one. -/
def Verdicts (verdicts : List Verdict) (filters : List Expression) : Prop :=
  List.Forall₂ (fun verdict filter => verdict.Of (filter.evaluateWith uuidv7 lookup)) verdicts filters

variable {uuidv7 lookup}

theorem foldl_and_verdict {verdicts : List Verdict} {filters : List Expression}
    (h : Verdicts uuidv7 lookup verdicts filters) {verdict : Verdict} {first : Expression}
    (hfirst : verdict.Of (first.evaluateWith uuidv7 lookup)) :
    (Verdict.allOf (verdict :: verdicts)).Of
      ((filters.foldl (fun whole part => .binaryOp whole .and part) first).evaluateWith uuidv7 lookup) := by
  induction h generalizing verdict first with
  | nil =>
      rw [Verdict.allOf_singleton]
      exact hfirst
  | @cons second filter rest filters hsecond _ ih =>
      rw [← Verdict.allOf_and, List.foldl_cons]
      apply ih
      rw [Expression.evaluateWith]
      exact hfirst.and hsecond

theorem foldl_or_verdict {verdicts : List Verdict} {filters : List Expression}
    (h : Verdicts uuidv7 lookup verdicts filters) {verdict : Verdict} {first : Expression}
    (hfirst : verdict.Of (first.evaluateWith uuidv7 lookup))
    (hunheld : (Verdict.anyOf (verdict :: verdicts)).unknown = true →
      (Verdict.anyOf (verdict :: verdicts)).holds = false) :
    (Verdict.anyOf (verdict :: verdicts)).Of
      ((filters.foldl (fun whole part => .binaryOp whole .or part) first).evaluateWith uuidv7 lookup) := by
  induction h generalizing verdict first with
  | nil =>
      rw [Verdict.anyOf_singleton]
      exact hfirst
  | @cons second filter rest filters hsecond _ ih =>
      rw [← Verdict.anyOf_or, List.foldl_cons]
      rw [← Verdict.anyOf_or] at hunheld
      refine ih ?_ hunheld
      rw [Expression.evaluateWith]
      apply hfirst.or hsecond
      intro hunknown
      have hwhole := hunheld (Bool.or_eq_true _ _ |>.mpr (.inl hunknown))
      exact (Bool.or_eq_false_iff.mp hwhole).1

theorem combineAnd_verdict {verdicts : List Verdict} {filters : List Expression}
    (h : Verdicts uuidv7 lookup verdicts filters) {filter : Expression} (hfilter : Expression.combineAnd filters = some filter) :
    (Verdict.allOf verdicts).Of (filter.evaluateWith uuidv7 lookup) := by
  cases h with
  | nil => cases hfilter
  | cons hfirst hrest =>
      cases hfilter
      exact foldl_and_verdict hrest hfirst

theorem combineOr_verdict {verdicts : List Verdict} {filters : List Expression}
    (h : Verdicts uuidv7 lookup verdicts filters) {filter : Expression} (hfilter : Expression.combineOr filters = some filter)
    (hunheld : (Verdict.anyOf verdicts).unknown = true → (Verdict.anyOf verdicts).holds = false) :
    (Verdict.anyOf verdicts).Of (filter.evaluateWith uuidv7 lookup) := by
  cases h with
  | nil => cases hfilter
  | cons hfirst hrest =>
      cases hfilter
      exact foldl_or_verdict hrest hfirst hunheld

end Filters

end HelionDb
