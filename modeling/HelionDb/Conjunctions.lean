import HelionDb.Pushdown

/-! Splitting a condition into its conjuncts and putting them together again. The parts come back grouped to the left,
however they were nested, so that the condition means the same because AND is associative on outcomes: on values, on
NULL, which it passes on, and on errors, of which it keeps the first. -/

namespace HelionDb

theorem Datum.eq_null_of_isNull {value : Datum} (h : value.isNull = true) : value = .null := by
  cases value <;> first | rfl | cases h

namespace Expression

/-- AND on what its operands come to. -/
def andOutcomes (left right : Except HelionError Datum) : Except HelionError Datum :=
  left.bind fun leftVal => right.bind fun rightVal => applyBinary .and leftVal rightVal

section Outcomes

@[simp] theorem andOutcomes_error (err : HelionError) (right : Except HelionError Datum) :
    andOutcomes (.error err) right = .error err := rfl

@[simp] theorem andOutcomes_ok_error (value : Datum) (err : HelionError) :
    andOutcomes (.ok value) (.error err) = .error err := rfl

theorem andOutcomes_ok (left right : Datum) :
    andOutcomes (.ok left) (.ok right) =
      if left.isNull || right.isNull then .ok .null else .ok (.boolean (left.datumToBool && right.datumToBool)) := rfl

theorem andOutcomes_null_left (right : Datum) : andOutcomes (.ok .null) (.ok right) = .ok .null := rfl

theorem andOutcomes_null_right (left : Datum) : andOutcomes (.ok left) (.ok .null) = .ok .null := by
  simp [andOutcomes_ok, Datum.isNull]

theorem andOutcomes_not_null {left right : Datum} (hleft : left.isNull = false) (hright : right.isNull = false) :
    andOutcomes (.ok left) (.ok right) = .ok (.boolean (left.datumToBool && right.datumToBool)) := by
  simp [andOutcomes_ok, hleft, hright]

/-- On values: NULL wherever it stands, and else the conjunction of three booleans. -/
theorem andOutcomes_values (first second third : Datum) :
    andOutcomes (andOutcomes (.ok first) (.ok second)) (.ok third) =
      andOutcomes (.ok first) (andOutcomes (.ok second) (.ok third)) := by
  cases hfirst : first.isNull with
  | true =>
      obtain rfl := Datum.eq_null_of_isNull hfirst
      rw [andOutcomes_null_left, andOutcomes_null_left, andOutcomes_ok second third]
      split <;> rw [andOutcomes_null_left]
  | false =>
      cases hsecond : second.isNull with
      | true =>
          obtain rfl := Datum.eq_null_of_isNull hsecond
          rw [andOutcomes_null_right, andOutcomes_null_left, andOutcomes_null_right]
      | false =>
          cases hthird : third.isNull with
          | true =>
              obtain rfl := Datum.eq_null_of_isNull hthird
              rw [andOutcomes_null_right second, andOutcomes_null_right first, andOutcomes_not_null hfirst hsecond,
                andOutcomes_null_right]
          | false =>
              rw [andOutcomes_not_null hfirst hsecond, andOutcomes_not_null hsecond hthird,
                andOutcomes_not_null rfl hthird, andOutcomes_not_null hfirst rfl]
              simp only [Datum.datumToBool, Bool.and_assoc]

theorem andOutcomes_assoc (first second third : Except HelionError Datum) :
    andOutcomes (andOutcomes first second) third = andOutcomes first (andOutcomes second third) := by
  cases first with
  | error err => rfl
  | ok firstVal =>
      cases second with
      | error err => rfl
      | ok secondVal =>
          cases third with
          | ok thirdVal => exact andOutcomes_values firstVal secondVal thirdVal
          | error err =>
              rw [andOutcomes_ok_error, andOutcomes_ok_error, andOutcomes_ok]
              split <;> rfl

instance : Std.Associative andOutcomes := ⟨andOutcomes_assoc⟩

end Outcomes

section Recomposed

variable [CaseMapping] [Rendering] {uuidv7 : BitVec 128} {lookup : Option String → String → Except HelionError Datum}

theorem evaluateWith_and (left right : Expression) :
    (Expression.binaryOp left .and right).evaluateWith uuidv7 lookup =
      andOutcomes (left.evaluateWith uuidv7 lookup) (right.evaluateWith uuidv7 lookup) := by
  rw [evaluateWith]
  rfl

/-- Conjuncts that are put together come to AND of what each comes to. -/
theorem evaluateWith_recompose (first : Expression) (rest : List Expression) :
    (recomposeConjunction (first :: rest)).evaluateWith uuidv7 lookup =
      (rest.map (evaluateWith uuidv7 lookup)).foldl andOutcomes (first.evaluateWith uuidv7 lookup) := by
  show (rest.foldl (fun whole part => Expression.binaryOp whole .and part) first).evaluateWith uuidv7 lookup = _
  induction rest generalizing first with
  | nil => rfl
  | cons part rest ih => rw [List.foldl_cons, ih, evaluateWith_and, List.map_cons, List.foldl_cons]

/-- Two lists of conjuncts together come to AND of the two. -/
theorem evaluateWith_recompose_append {parts others : List Expression} (hparts : parts ≠ []) (hothers : others ≠ []) :
    (recomposeConjunction (parts ++ others)).evaluateWith uuidv7 lookup =
      andOutcomes ((recomposeConjunction parts).evaluateWith uuidv7 lookup)
        ((recomposeConjunction others).evaluateWith uuidv7 lookup) := by
  obtain ⟨first, rest, rfl⟩ := List.exists_cons_of_ne_nil hparts
  obtain ⟨other, tail, rfl⟩ := List.exists_cons_of_ne_nil hothers
  rw [List.cons_append, evaluateWith_recompose, evaluateWith_recompose, evaluateWith_recompose, List.map_append,
    List.foldl_append, List.map_cons, List.foldl_cons, List.foldl_assoc]

/-- The conjuncts of a condition, put together, come to what the condition comes to, in every scope. -/
theorem evaluateWith_recompose_decompose (expr : Expression) :
    (recomposeConjunction (decomposeConjunction expr)).evaluateWith uuidv7 lookup = expr.evaluateWith uuidv7 lookup := by
  fun_induction decomposeConjunction expr with
  | case1 left right ihLeft ihRight =>
      rw [evaluateWith_recompose_append (decomposeConjunction_ne_nil left) (decomposeConjunction_ne_nil right), ihLeft,
        ihRight, evaluateWith_and]
  | case2 other hother => rfl

end Recomposed

variable [CaseMapping] [Rendering]

/-- A condition that is split and put together again evaluates to the same value, to NULL or to the same error. -/
theorem evaluateJoin_recomposed (uuidv7 : BitVec 128) (expr : Expression) (row : List Datum)
    (tableMap : List TableSlot) :
    (recomposeConjunction (decomposeConjunction expr)).evaluateJoin uuidv7 row tableMap =
      expr.evaluateJoin uuidv7 row tableMap :=
  evaluateWith_recompose_decompose expr

end Expression

end HelionDb
