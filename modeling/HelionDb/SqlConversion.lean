import HelionDb.SqlMeaning

/-! The conversion of `parser.rs` against SQL. An expression converts on a row when it has none of the parts that the
conversion drops and no NULL that a connective of the evaluator gives up on; then the expression of the engine has the
value that SQL gives. -/

namespace HelionDb

/-! ### Values -/

namespace Datum

/-- A value that is found among the items, or that no NULL keeps from being missing. -/
def amongDecided (value : Datum) (items : List Datum) : Bool :=
  (items.any fun item => item.datumEq value) || items.isEmpty || !(value.isNull || items.any isNull)

theorem among_of_decided {value : Datum} {items : List Datum} (h : value.amongDecided items = true) :
    value.among items = some (items.any fun item => item.datumEq value) := by
  unfold among
  cases hfound : items.any fun item => item.datumEq value with
  | true => rw [if_pos rfl]
  | false =>
      rw [if_neg Bool.false_ne_true, if_neg]
      rintro ⟨hne, hnull⟩
      rw [amongDecided, hfound, hnull, Bool.false_or, Bool.not_true, Bool.or_false] at h
      exact hne (List.isEmpty_iff.mp h)

theorem truth_of_not_null {value : Datum} (h : value.isNull = false) : value.truth = some value.datumToBool := by
  cases value with
  | null => cases h
  | _ => rfl

theorem truth_of_null {value : Datum} (h : value.isNull = true) : value.truth = none := by
  cases value with
  | null => rfl
  | _ => cases h

/-- AND and OR of the evaluator give up on a NULL. -/
theorem applyBinary_and (left right : Datum) :
    Expression.applyBinary .and left right = .ok (.ofTruth (Kleene.strict (· && ·) left.truth right.truth)) := by
  unfold Expression.applyBinary
  cases hleft : left.isNull with
  | true =>
      rw [truth_of_null hleft]
      rfl
  | false =>
      rw [truth_of_not_null hleft]
      cases hright : right.isNull with
      | true =>
          rw [truth_of_null hright]
          rfl
      | false =>
          rw [truth_of_not_null hright]
          rfl

theorem applyBinary_or (left right : Datum) :
    Expression.applyBinary .or left right = .ok (.ofTruth (Kleene.strict (· || ·) left.truth right.truth)) := by
  unfold Expression.applyBinary
  cases hleft : left.isNull with
  | true =>
      rw [truth_of_null hleft]
      rfl
  | false =>
      rw [truth_of_not_null hleft]
      cases hright : right.isNull with
      | true =>
          rw [truth_of_null hright]
          rfl
      | false =>
          rw [truth_of_not_null hright]
          rfl

theorem applyBetween_eq (value low high : Datum) :
    Expression.applyBetween value low high =
      .ofTruth (Kleene.strict (· && ·) (value.atLeast low) (value.atMost high)) := by
  unfold Expression.applyBetween atLeast atMost
  cases value.isNull with
  | true => rfl
  | false =>
      cases low.isNull with
      | true => rfl
      | false =>
          cases high.isNull with
          | true => rfl
          | false => rfl

end Datum

namespace SqlValue

/-- An integer up to the greatest `i64`, or a number with a point; a text, a boolean or NULL. -/
def keeps : SqlValue → Bool
  | number text =>
      match decimalValue text with
      | some value => value ≤ 2 ^ 63 - 1
      | none => hasPoint text && (parseF64 text).isSome
  | other _ => false
  | _ => true

theorem meaning_of_keeps {v : SqlValue} (h : v.keeps = true) : v.meaning = .ok (sqlValueToDatum v) := by
  cases v with
  | number text =>
      rw [keeps] at h
      rw [meaning]
      cases htext : decimalValue text with
      | some value =>
          rw [htext] at h
          have hvalue : value ≤ 2 ^ 63 - 1 := of_decide_eq_true h
          rw [sqlValueToDatum_number htext, if_pos hvalue]
          exact if_pos hvalue
      | none =>
          rw [htext] at h
          obtain ⟨hpoint, hbits⟩ := (Bool.and_eq_true _ _).mp h
          obtain ⟨bits, hbits⟩ := Option.isSome_iff_exists.mp hbits
          rw [sqlValueToDatum, if_pos hpoint, hbits]
          rfl
  | other text => cases h
  | _ => rfl

end SqlValue

namespace SqlBinaryOperator

/-- An operator of the engine, with no NULL that it gives up on where SQL decides. -/
def decided (op : SqlBinaryOperator) (left right : Datum) : Bool :=
  match op with
  | .and => Kleene.Decided false left.truth right.truth
  | .or => Kleene.Decided true left.truth right.truth
  | op => op.toOperator.isSome

theorem exists_operator_of_decided {op : SqlBinaryOperator} {left right : Datum} (h : op.decided left right = true) :
    ∃ binOp, op.toOperator = some binOp ∧ Expression.applyBinary binOp left right = op.meaning left right := by
  cases op with
  | and =>
      refine ⟨.and, rfl, ?_⟩
      rw [Datum.applyBinary_and, Kleene.strict_and_eq_iff.mpr (of_decide_eq_true h)]
      rfl
  | or =>
      refine ⟨.or, rfl, ?_⟩
      rw [Datum.applyBinary_or, Kleene.strict_or_eq_iff.mpr (of_decide_eq_true h)]
      rfl
  | other symbol => cases h
  | _ => exact ⟨_, rfl, rfl⟩

end SqlBinaryOperator

theorem sqlTokens_none : ∀ pattern : List Char, sqlTokens none pattern = .ok (pattern.map likeToken)
  | [] => rfl
  | [_] => rfl
  | c :: next :: rest => by
      rw [sqlTokens, if_neg nofun, sqlTokens_none (next :: rest)]
      rfl

/-- LIKE of a value that is not NULL, without an escape. -/
theorem sqlLike_eq [Rendering] {value : Datum} (h : value.isNull = false) (pattern : String) :
    sqlLike none value (.text pattern) = .ok (some (regexLite (likeToRegex pattern) value.datumToString)) := by
  have hmatch : regexLite (likeToRegex pattern) value.datumToString =
      decide (Wildcard.Matches (likeTokens pattern) value.datumToString.toList) :=
    Bool.eq_iff_iff.mpr ((regexLite_iff _ _).trans decide_eq_true_iff.symm)
  rw [sqlLike, h, hmatch]
  show Except.map _ (sqlTokens none pattern.toList) = _
  rw [sqlTokens_none]
  rfl

/-! ### Expressions -/

/-- A test of the values of two operands, if both have one. -/
def bothValues (left right : Except HelionError Datum) (test : Datum → Datum → Bool) : Bool :=
  match left, right with
  | .ok leftVal, .ok rightVal => test leftVal rightVal
  | _, _ => true

/-- A literal of a list. -/
def SqlExpr.isKept : SqlExpr → Bool
  | .value v => v.keeps
  | _ => false

/-- A pattern that is a plain string. -/
def SqlExpr.isText : SqlExpr → Bool
  | .value (.singleQuotedString _) => true
  | _ => false

namespace SqlExpr

variable [CaseMapping] [Rendering] (uuidv7 : BitVec 128) (lookup : Option String → String → Except HelionError Datum)

mutual

/-- The conversion drops nothing of the expression, and the evaluator gives up on no NULL that SQL does not. -/
def converts : SqlExpr → Bool
  | .identifier id => id.quoteStyle.isNone
  | .compoundIdentifier parts =>
      (parts.length = 1 || parts.length = 2) && parts.all fun part => part.quoteStyle.isNone
  | .value v => v.keeps
  | .binaryOp left op right =>
      converts left && converts right && op.toOperator.isSome &&
        bothValues (meaning uuidv7 lookup left) (meaning uuidv7 lookup right) op.decided
  | .unaryOp op inner =>
      converts inner && op.toOperator.isSome && (meaning uuidv7 lookup inner).toOption.all fun val => !val.isNull
  | .isNull inner | .isNotNull inner => converts inner
  | .inList inner list negated =>
      !negated && converts inner && list.all isKept &&
        (meaning uuidv7 lookup inner).toOption.all fun val =>
          (meanings uuidv7 lookup list).toOption.all fun items => val.amongDecided items
  | .between inner negated low high =>
      !negated && converts inner && converts low && converts high &&
        (meaning uuidv7 lookup inner).toOption.all fun val =>
          bothValues (meaning uuidv7 lookup low) (meaning uuidv7 lookup high) fun lowVal highVal =>
            Kleene.Decided false (val.atLeast lowVal) (val.atMost highVal)
  | .like negated inner pattern escapeChar =>
      !negated && escapeChar.isNone && pattern.isText && converts inner &&
        (meaning uuidv7 lookup inner).toOption.all fun val => !val.isNull
  | .function _ args modified => !modified && argsConvert args
  | .nested inner => converts inner
  | .cast _ _ | .other _ => false

def argsConvert : List SqlFunctionArg → Bool
  | [] => true
  | .unnamed expr :: rest => converts expr && argsConvert rest
  | .other _ :: _ => false

end

variable {uuidv7 lookup} [SqlExprText]

omit [CaseMapping] [Rendering] [SqlExprText] in
theorem sizeOf_lt_of_unnamed {expr : SqlExpr} {args : List SqlFunctionArg} (h : .unnamed expr ∈ args) :
    sizeOf expr < sizeOf args := by
  have hmem := List.sizeOf_lt_of_mem h
  rw [SqlFunctionArg.unnamed.sizeOf_spec] at hmem
  omega

omit [CaseMapping] [Rendering] in
/-- An unquoted name is printed as it is. -/
theorem text_of_unquoted {part : Ident} (h : part.quoteStyle.isNone = true) : part.text = part.value := by
  have hpart : part = { value := part.value, quoteStyle := none } := by
    rw [← Option.isNone_iff_eq_none.mp h]
  rw [Ident.text, hpart, SqlExprText.ident_unquoted]

theorem evaluate_compoundIdentifier {parts : List Ident} (h : converts uuidv7 lookup (.compoundIdentifier parts) = true) :
    (sqlExprToExpression (.compoundIdentifier parts)).evaluateWith uuidv7 lookup = resolve lookup parts := by
  obtain ⟨hlength, hparts⟩ := (Bool.and_eq_true _ _).mp (by rw [converts] at h; exact h)
  match parts with
  | [] => cases hlength
  | [column] =>
      have hconverted : sqlExprToExpression (.compoundIdentifier [column]) = .column column.text := by
        simp [sqlExprToExpression]
      rw [hconverted, Expression.evaluateWith,
        text_of_unquoted (List.all_eq_true.mp hparts column List.mem_cons_self)]
      rfl
  | [table, column] =>
      obtain ⟨htable, hcolumn⟩ := List.forall_mem_cons.mp (List.all_eq_true.mp hparts)
      rw [sqlExprToExpression, Expression.evaluateWith, text_of_unquoted htable,
        text_of_unquoted (hcolumn column List.mem_cons_self)]
      rfl
  | _ :: _ :: _ :: _ => simp at hlength

omit [SqlExprText] in
/-- The literals of a list are all kept, with the values that SQL gives them. -/
theorem meanings_of_kept {list : List SqlExpr} (h : list.all isKept = true) :
    meanings uuidv7 lookup list = .ok (list.filterMap sqlExprToDatumOpt) := by
  induction list with
  | nil => rw [meanings]; rfl
  | cons expr list ih =>
      obtain ⟨hexpr, hlist⟩ := (Bool.and_eq_true _ _).mp h
      cases expr with
      | value v =>
          rw [meanings, meaning, SqlValue.meaning_of_keeps hexpr, ih hlist]
          rfl
      | _ => cases hexpr

omit [CaseMapping] [Rendering] [SqlExprText] in
/-- Two ways to go on that agree on the value there is. -/
theorem bind_congr_ok {first : Except HelionError Datum} {next other : Datum → Except HelionError Datum}
    (h : ∀ value, first = .ok value → next value = other value) : (first >>= next) = (first >>= other) := by
  cases first with
  | error err => rfl
  | ok value => exact h value rfl

/-- The arguments of a function, from what their conversions give. -/
theorem evaluateAll_sqlArgsToExpressions {args : List SqlFunctionArg} (h : argsConvert uuidv7 lookup args = true)
    (hargs : ∀ expr, .unnamed expr ∈ args → converts uuidv7 lookup expr = true →
      (sqlExprToExpression expr).evaluateWith uuidv7 lookup = meaning uuidv7 lookup expr) :
    Expression.evaluateAll uuidv7 lookup (sqlArgsToExpressions args) = argMeanings uuidv7 lookup args := by
  induction args with
  | nil => rw [sqlArgsToExpressions, Expression.evaluateAll, argMeanings]
  | cons arg args ih =>
      cases arg with
      | other text =>
          rw [argsConvert] at h
          cases h
      | unnamed expr =>
          rw [argsConvert, Bool.and_eq_true] at h
          rw [sqlArgsToExpressions, Expression.evaluateAll, argMeanings, hargs expr List.mem_cons_self h.1,
            ih h.2 fun other hother => hargs other (List.mem_cons_of_mem _ hother)]

/-- The expression of the engine has the value that SQL gives. The induction is on the expression; each form needs that
nothing is dropped and that the evaluator combines the values of its parts as SQL does. -/
theorem evaluateWith_sqlExprToExpression (expr : SqlExpr) (h : converts uuidv7 lookup expr = true) :
    (sqlExprToExpression expr).evaluateWith uuidv7 lookup = meaning uuidv7 lookup expr := by
  match expr with
  | .identifier id =>
      rw [converts] at h
      rw [sqlExprToExpression, Expression.evaluateWith, text_of_unquoted h, meaning]
  | .compoundIdentifier parts =>
      rw [evaluate_compoundIdentifier h, meaning]
  | .value v =>
      rw [converts] at h
      rw [sqlExprToExpression, Expression.evaluateWith, meaning, SqlValue.meaning_of_keeps h]
  | .binaryOp left op right =>
      simp only [converts, Bool.and_eq_true] at h
      obtain ⟨⟨⟨hleft, hright⟩, hop⟩, hdecided⟩ := h
      obtain ⟨binOp, hbinOp⟩ := Option.isSome_iff_exists.mp hop
      rw [sqlExprToExpression, hbinOp, Expression.evaluateWith, evaluateWith_sqlExprToExpression left hleft,
        evaluateWith_sqlExprToExpression right hright, meaning]
      apply bind_congr_ok
      intro leftVal hl
      apply bind_congr_ok
      intro rightVal hr
      rw [hl, hr] at hdecided
      obtain ⟨other, hother, happly⟩ := SqlBinaryOperator.exists_operator_of_decided hdecided
      obtain rfl : binOp = other := Option.some.inj (hbinOp.symm.trans hother)
      exact happly
  | .unaryOp op inner =>
      simp only [converts, Bool.and_eq_true] at h
      obtain ⟨⟨hinner, hop⟩, hnull⟩ := h
      obtain ⟨unOp, hunOp⟩ := Option.isSome_iff_exists.mp hop
      rw [sqlExprToExpression, hunOp, Expression.evaluateWith, evaluateWith_sqlExprToExpression inner hinner, meaning]
      apply bind_congr_ok
      intro val hval
      rw [hval] at hnull
      have hnull : val.isNull = false := by simpa [Except.toOption] using hnull
      cases op with
      | not =>
          cases hunOp
          rw [SqlUnaryOperator.meaning, Datum.truth_of_not_null hnull]
          rfl
      | minus =>
          cases hunOp
          rw [SqlUnaryOperator.meaning, hnull]
          rfl
      | plus => cases hunOp
      | other symbol => cases hunOp
  | .isNull inner =>
      rw [converts] at h
      rw [sqlExprToExpression, Expression.evaluateWith, evaluateWith_sqlExprToExpression inner h, meaning]
  | .isNotNull inner =>
      rw [converts] at h
      rw [sqlExprToExpression, Expression.evaluateWith, evaluateWith_sqlExprToExpression inner h, meaning]
  | .inList inner list negated =>
      simp only [converts, Bool.and_eq_true, Bool.not_eq_true'] at h
      obtain ⟨⟨⟨rfl, hinner⟩, hlist⟩, hdecided⟩ := h
      rw [sqlExprToExpression, Expression.evaluateWith, evaluateWith_sqlExprToExpression inner hinner, meaning]
      apply bind_congr_ok
      intro val hval
      rw [hval, meanings_of_kept hlist] at hdecided
      rw [meanings_of_kept hlist]
      show Except.ok _ = Except.ok (Datum.ofTruth (val.among (list.filterMap sqlExprToDatumOpt)))
      rw [Datum.among_of_decided hdecided]
      rfl
  | .between inner negated low high =>
      simp only [converts, Bool.and_eq_true, Bool.not_eq_true'] at h
      obtain ⟨⟨⟨⟨rfl, hinner⟩, hlow⟩, hhigh⟩, hdecided⟩ := h
      rw [sqlExprToExpression, Expression.evaluateWith, evaluateWith_sqlExprToExpression inner hinner,
        evaluateWith_sqlExprToExpression low hlow, evaluateWith_sqlExprToExpression high hhigh, meaning]
      apply bind_congr_ok
      intro val hval
      apply bind_congr_ok
      intro lowVal hlowVal
      apply bind_congr_ok
      intro highVal hhighVal
      rw [hval, hlowVal, hhighVal] at hdecided
      show Except.ok _ = Except.ok (Datum.ofTruth (Kleene.and (val.atLeast lowVal) (val.atMost highVal)))
      rw [Datum.applyBetween_eq, Kleene.strict_and_eq_iff.mpr (of_decide_eq_true hdecided)]
  | .like negated inner pattern escapeChar =>
      simp only [converts, Bool.and_eq_true, Bool.not_eq_true'] at h
      obtain ⟨⟨⟨⟨rfl, hescape⟩, htext⟩, hinner⟩, hnull⟩ := h
      obtain rfl := Option.isNone_iff_eq_none.mp hescape
      obtain ⟨text, rfl⟩ : ∃ text, pattern = .value (.singleQuotedString text) := by
        cases pattern with
        | value v => cases v <;> first | exact ⟨_, rfl⟩ | cases htext
        | _ => cases htext
      rw [sqlExprToExpression, Expression.evaluateWith, evaluateWith_sqlExprToExpression inner hinner, meaning]
      apply bind_congr_ok
      intro val hval
      rw [hval] at hnull
      have hnull : val.isNull = false := by simpa [Except.toOption] using hnull
      rw [meaning]
      show _ = Except.bind (sqlLike none val (.text text)) _
      rw [sqlLike_eq hnull]
      rfl
  | .function name args modified =>
      simp only [converts, Bool.and_eq_true, Bool.not_eq_true'] at h
      obtain ⟨rfl, hargs⟩ := h
      have hparts : ∀ expr, .unnamed expr ∈ args → converts uuidv7 lookup expr = true →
          (sqlExprToExpression expr).evaluateWith uuidv7 lookup = meaning uuidv7 lookup expr := by
        intro expr hexpr hconverts
        have hsize := sizeOf_lt_of_unnamed hexpr
        exact evaluateWith_sqlExprToExpression expr hconverts
      rw [sqlExprToExpression, Expression.evaluateWith, meaning, evaluateAll_sqlArgsToExpressions hargs hparts]
  | .nested inner =>
      rw [converts] at h
      rw [sqlExprToExpression, evaluateWith_sqlExprToExpression inner h, meaning]
  | .cast inner dataType =>
      rw [converts] at h
      cases h
  | .other text =>
      rw [converts] at h
      cases h
termination_by sizeOf expr

end SqlExpr

/-- An expression that converts on a row has the value that SQL gives, for a row of one table and for one of a join. -/
theorem sql_expression_meaning [CaseMapping] [Rendering] [SqlExprText] (uuidv7 : BitVec 128) (expr : SqlExpr) :
    (∀ row columns, expr.converts uuidv7 (Expression.lookupColumn row columns) = true →
        (sqlExprToExpression expr).evaluate uuidv7 row columns =
          expr.meaning uuidv7 (Expression.lookupColumn row columns)) ∧
      ∀ row tableMap, expr.converts uuidv7 (Expression.lookupJoin row tableMap) = true →
        (sqlExprToExpression expr).evaluateJoin uuidv7 row tableMap =
          expr.meaning uuidv7 (Expression.lookupJoin row tableMap) :=
  ⟨fun _ _ h => SqlExpr.evaluateWith_sqlExprToExpression expr h,
    fun _ _ h => SqlExpr.evaluateWith_sqlExprToExpression expr h⟩

namespace Items

open Expression (lookupColumn)
open scoped AsciiCase PlainText

def columns : List ColumnMeta := [.new "size" .bigInt, .new "name" .text]

def named (name : String) : SqlExpr := .identifier { value := name, quoteStyle := none }

def number (text : String) : SqlExpr := .value (.number text)

def string (text : String) : SqlExpr := .value (.singleQuotedString text)

/-- `size BETWEEN 1 AND 10 AND NOT (name LIKE 'A%')`. -/
def small : SqlExpr :=
  .binaryOp (.between (named "size") false (number "1") (number "10")) .and
    (.unaryOp .not (.nested (.like false (named "name") (string "A%") none)))

theorem sql_expression_meaning_small :
    (sqlExprToExpression small).evaluate 0 [.bigInt 5, .text "Nut"] columns =
      small.meaning 0 (lookupColumn [.bigInt 5, .text "Nut"] columns) :=
  (sql_expression_meaning 0 small).1 [.bigInt 5, .text "Nut"] columns (by decide)

/-- The conversion loses the NOT of a list, a range and a pattern, an item that is no literal and the operand of a plus;
the evaluator takes NOT of NULL for true. -/
theorem not_sql_expression_meaning :
    let row : List Datum := [.bigInt 1, .null]
    let value := fun expr => (sqlExprToExpression expr).evaluate 0 row columns
    let sql := fun expr : SqlExpr => expr.meaning 0 (lookupColumn row columns)
    (value (.inList (named "size") [number "1"] true) = .ok (.boolean true) ∧
        sql (.inList (named "size") [number "1"] true) = .ok (.boolean false)) ∧
      (value (.between (named "size") true (number "0") (number "2")) = .ok (.boolean true) ∧
        sql (.between (named "size") true (number "0") (number "2")) = .ok (.boolean false)) ∧
      (value (.like true (named "size") (string "%") none) = .ok (.boolean true) ∧
        sql (.like true (named "size") (string "%") none) = .ok (.boolean false)) ∧
      (value (.inList (.unaryOp .minus (named "size")) [.unaryOp .minus (number "1")] false) = .ok (.boolean false) ∧
        sql (.inList (.unaryOp .minus (named "size")) [.unaryOp .minus (number "1")] false) = .ok (.boolean true)) ∧
      (value (.unaryOp .plus (named "size")) = .ok .null ∧ sql (.unaryOp .plus (named "size")) = .ok (.bigInt 1)) ∧
      value (.unaryOp .not (.binaryOp (named "name") .eq (string "Nut"))) = .ok (.boolean true) ∧
        sql (.unaryOp .not (.binaryOp (named "name") .eq (string "Nut"))) = .ok .null := by
  have hlike : regexLite (likeToRegex "%") "1" = true := (regexLite_iff "%" "1").mpr (by decide)
  refine ⟨⟨rfl, rfl⟩, ⟨rfl, rfl⟩, ⟨?_, rfl⟩, ⟨rfl, rfl⟩, ⟨rfl, rfl⟩, rfl, rfl⟩
  exact congrArg (fun found => Except.ok (Datum.boolean found)) hlike

end Items

end HelionDb
