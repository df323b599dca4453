import HelionDb.KeyEquality
import HelionDb.SqlExpr

/-! What the parser makes of a numeric literal: where a statement assigns it (a value of an INSERT or an UPDATE), where
it is an operand of an expression, and where it stands in the list of an IN. -/

namespace HelionDb

/-- Where a literal stands. -/
inductive LiteralPlace where
  | assigned
  | operand
  | listed

/-- A numeric literal, with a minus sign in front or without. -/
def numericLiteral (negative : Bool) (text : String) : SqlExpr :=
  if negative then .unaryOp .minus (.value (.number text)) else .value (.number text)

/-- The expression of an operand with a minus sign, or without. -/
def signed (negative : Bool) (expr : Expression) : Expression := if negative then .unaryOp .neg expr else expr

/-- A number without the marks that may stand between its digits. -/
def unmarked (text : String) : String := String.ofList (text.toList.filter (· ≠ '_'))

/-- Digits around a point, with an exponent or without, and marks between them. -/
def IsNumeric (text : String) : Prop := (parseF64 (unmarked text)).isSome = true

/-- The value is the one that the literal writes: the integer, or the nearest double where there is a fraction or an
exponent. -/
def Writes (negative : Bool) (text : String) (value : Datum) : Prop :=
  match decimalValue (unmarked text) with
  | some n => value.intValue = some (if negative then -(n : Int) else n)
  | none => ∃ bits, parseF64 (unmarked text) = some bits ∧ value = .double (if negative then negateBits bits else bits)

theorem not_writes_null (negative : Bool) (text : String) : ¬ Writes negative text .null := by
  unfold Writes
  cases decimalValue (unmarked text) with
  | some n => nofun
  | none =>
      rintro ⟨bits, -, h⟩
      cases h

theorem unmarked_of_not_mem {text : String} (h : '_' ∉ text.toList) : unmarked text = text := by
  have hall : text.toList.filter (· ≠ '_') = text.toList := by
    apply List.filter_eq_self.mpr
    intro c hc
    apply decide_eq_true
    rintro rfl
    exact h hc
  rw [unmarked, hall, String.ofList_toList]

theorem not_mem_of_decimalValue {text : String} {n : Nat} (h : decimalValue text = some n) : '_' ∉ text.toList := by
  unfold decimalValue at h
  split at h
  · rename_i hdigits
    intro hmem
    have hdigit := List.all_eq_true.mp hdigits.2 _ hmem
    revert hdigit
    decide
  · cases h

theorem decimalValue_of_hasPoint {text : String} (h : hasPoint text = true) : decimalValue (unmarked text) = none := by
  cases hvalue : decimalValue (unmarked text) with
  | none => rfl
  | some n =>
      have hno := hasPoint_eq_false hvalue
      have hpoint : '.' ∈ (unmarked text).toList := by
        rw [unmarked, String.toList_ofList, List.mem_filter]
        exact ⟨of_decide_eq_true h, by decide⟩
      exact absurd hpoint (of_decide_eq_false hno)

/-- The characters of a number. -/
def isNumberChar (c : Char) : Bool := c.isDigit || c = '.' || c = 'e' || c = 'E' || c = '+' || c = '-'

theorem isNumberChar_of_isDigit {c : Char} (h : c.isDigit = true) : isNumberChar c = true := by
  simp [isNumberChar, h]

theorem exponentValue_chars {chars : List Char} {exponent : Int} (h : exponentValue chars = some exponent) :
    ∀ c ∈ chars, isNumberChar c = true := by
  unfold exponentValue at h
  split at h
  · nofun
  · split at h
    · rename_i hdigits
      refine List.forall_mem_cons.mpr ⟨by decide, fun c hc => ?_⟩
      exact isNumberChar_of_isDigit (List.all_eq_true.mp hdigits.2 c hc)
    · cases h
  · split at h
    · rename_i hdigits
      refine List.forall_mem_cons.mpr ⟨by decide, fun c hc => ?_⟩
      exact isNumberChar_of_isDigit (List.all_eq_true.mp hdigits.2 c hc)
    · cases h
  · split at h
    · rename_i hdigits
      intro c hc
      exact isNumberChar_of_isDigit (List.all_eq_true.mp hdigits c hc)
    · cases h

/-- What holds of the front of a list, of every item that can end it, and of what comes behind the end. -/
theorem forall_of_takeWhile {α : Type} (holds test : α → Bool) {items : List α}
    (hfront : ∀ item ∈ items.takeWhile test, holds item = true) (hend : ∀ item, test item = false → holds item = true)
    (hback : ∀ item ∈ (items.drop (items.takeWhile test).length).drop 1, holds item = true) :
    ∀ item ∈ items, holds item = true := by
  induction items with
  | nil => nofun
  | cons item items ih =>
      by_cases htest : test item = true
      · rw [List.takeWhile_cons_of_pos htest] at hfront hback
        obtain ⟨hitem, hfront⟩ := List.forall_mem_cons.mp hfront
        exact List.forall_mem_cons.mpr ⟨hitem, ih hfront hback⟩
      · rw [List.takeWhile_cons_of_neg htest] at hback
        exact List.forall_mem_cons.mpr ⟨hend item (Bool.eq_false_iff.mpr htest), hback⟩

/-- A text that parses as a number has the characters of one. -/
theorem parseF64_chars {text : String} {bits : BitVec 64} (h : parseF64 text = some bits) :
    ∀ c ∈ text.toList, isNumberChar c = true := by
  unfold parseF64 at h
  dsimp only at h
  split at h
  · rename_i hdigits
    obtain ⟨hdigits, -⟩ := (Bool.and_eq_true _ _).mp hdigits
    rw [List.all_append] at hdigits
    obtain ⟨hwhole, hfraction⟩ := (Bool.and_eq_true _ _).mp hdigits
    obtain ⟨exponent, hexponent, -⟩ := Option.map_eq_some_iff.mp h
    apply forall_of_takeWhile isNumberChar fun c => !decide (c = 'e' ∨ c = 'E')
    · apply forall_of_takeWhile isNumberChar fun c => decide (c ≠ '.')
      · intro c hc
        exact isNumberChar_of_isDigit (List.all_eq_true.mp hwhole c hc)
      · intro c hc
        rw [not_not.mp (of_decide_eq_false hc)]
        decide
      · intro c hc
        exact isNumberChar_of_isDigit (List.all_eq_true.mp hfraction c hc)
    · intro c hc
      rcases of_decide_eq_true ((Bool.not_eq_eq_eq_not ..).mp hc) with rfl | rfl
      · decide
      · decide
    · split at hexponent
      · rename_i hempty
        rw [List.isEmpty_iff.mp hempty]
        nofun
      · exact exponentValue_chars hexponent
  · cases h

theorem not_mem_of_parseF64 {text : String} {bits : BitVec 64} (h : parseF64 text = some bits) : '_' ∉ text.toList := by
  intro hmem
  have hchar := parseF64_chars h '_' hmem
  revert hchar
  decide

/-! ### Literals that keep their value -/

section

variable [CaseMapping] [SqlExprText]

/-- A literal keeps the value that it writes: as the value that it is assigned as, unless the statement is refused; as
the literal of an operand, to which the minus sign is applied; as an item of the list. -/
def LiteralKept (uuidv7 : BitVec 128) (place : LiteralPlace) (negative : Bool) (text : String) : Prop :=
  match place with
  | .assigned => ∀ value, sqlExprToDatum uuidv7 (numericLiteral negative text) = .ok value → Writes negative text value
  | .operand => ∃ value, sqlExprToExpression (numericLiteral negative text) = signed negative (.literal value) ∧
      Writes false text value
  | .listed => ∃ value, sqlExprToDatumOpt (numericLiteral negative text) = some value ∧ Writes negative text value

/-- The literals that keep their value. Without a sign, and as operands: integers up to the greatest `i64`, and numbers
with a point and without marks. With a sign, assigned: all but the integers that fit an `i64` and no `i32`. -/
def LiteralSafe (place : LiteralPlace) (negative : Bool) (text : String) : Prop :=
  match place, negative with
  | .assigned, true => ∀ n, decimalValue text = some n → n ≤ 2 ^ 31 ∨ 2 ^ 63 - 1 < n
  | .listed, true => False
  | _, _ => (∃ n, decimalValue text = some n ∧ n ≤ 2 ^ 63 - 1) ∨ (hasPoint text = true ∧ '_' ∉ text.toList)

omit [CaseMapping] [SqlExprText] in
/-- What holds of the value, if there is one. -/
theorem forall_ok_iff {p : Datum → Prop} {datum : Datum} :
    (∀ value, (.ok datum : Except HelionError Datum) = .ok value → p value) ↔ p datum := by
  constructor
  · intro h
    exact h datum rfl
  · rintro h value ⟨⟩
    exact h

omit [CaseMapping] [SqlExprText] in
theorem forall_error {p : Datum → Prop} (err : HelionError) :
    ∀ value, (.error err : Except HelionError Datum) = .ok value → p value := nofun

omit [CaseMapping] [SqlExprText] in
theorem writes_of_decimalValue {negative : Bool} {text : String} {n : Nat} {value : Datum}
    (htext : decimalValue text = some n) :
    Writes negative text value ↔ value.intValue = some (if negative then -(n : Int) else n) := by
  unfold Writes
  rw [unmarked_of_not_mem (not_mem_of_decimalValue htext), htext]

omit [CaseMapping] [SqlExprText] in
theorem writes_double {negative : Bool} {text : String} {bits : BitVec 64} (hpoint : hasPoint text = true)
    (hbits : parseF64 text = some bits) :
    Writes negative text (.double (if negative then negateBits bits else bits)) := by
  unfold Writes
  rw [decimalValue_of_hasPoint hpoint, unmarked_of_not_mem (not_mem_of_parseF64 hbits)]
  exact ⟨bits, hbits, rfl⟩

omit [CaseMapping] [SqlExprText] in
theorem parseF64_of_isNumeric {text : String} (hnumeric : IsNumeric text) (hmarks : '_' ∉ text.toList) :
    ∃ bits, parseF64 text = some bits := by
  unfold IsNumeric at hnumeric
  rw [unmarked_of_not_mem hmarks] at hnumeric
  exact Option.isSome_iff_exists.mp hnumeric

omit [CaseMapping] [SqlExprText] in
/-- A literal without a sign. -/
theorem writes_sqlValueToDatum_iff {text : String} (hnumeric : IsNumeric text) :
    Writes false text (sqlValueToDatum (.number text)) ↔
      (∃ n, decimalValue text = some n ∧ n ≤ 2 ^ 63 - 1) ∨ (hasPoint text = true ∧ '_' ∉ text.toList) := by
  cases htext : decimalValue text with
  | some n =>
      have hpoint := hasPoint_eq_false htext
      rw [sqlValueToDatum_number htext, writes_of_decimalValue htext]
      by_cases hle : n ≤ 2 ^ 63 - 1
      · rw [if_pos hle]
        apply iff_of_true
        · show some (Int64.ofNat n).toInt = some (n : Int)
          rw [Int64.toInt_ofNat_of_lt (by omega)]
        · exact Or.inl ⟨n, rfl, hle⟩
      · rw [if_neg hle]
        apply iff_of_false nofun
        rintro (⟨m, hm, hle'⟩ | ⟨hpoint', -⟩)
        · obtain rfl := Option.some.inj hm
          exact hle hle'
        · rw [hpoint] at hpoint'
          cases hpoint'
  | none =>
      rw [sqlValueToDatum]
      by_cases hpoint : hasPoint text = true
      · rw [if_pos hpoint]
        cases hbits : parseF64 text with
        | some bits => exact iff_of_true (writes_double hpoint hbits) (Or.inr ⟨hpoint, not_mem_of_parseF64 hbits⟩)
        | none =>
            apply iff_of_false (not_writes_null false text)
            rintro (⟨n, hn, -⟩ | ⟨-, hmarks⟩)
            · cases hn
            · obtain ⟨bits, hsome⟩ := parseF64_of_isNumeric hnumeric hmarks
              rw [hbits] at hsome
              cases hsome
      · rw [if_neg hpoint, parseI64, htext]
        apply iff_of_false (not_writes_null false text)
        rintro (⟨n, hn, -⟩ | ⟨hpoint', -⟩)
        · cases hn
        · exact hpoint hpoint'

omit [CaseMapping] [SqlExprText] in
/-- The negation of an `i64` as an `i32` is itself if it fits one. -/
theorem negatedI32_toInt_iff {n : Nat} (hn : n ≤ 2 ^ 63 - 1) :
    (negatedI32 (.ofNat n)).toInt = -(n : Int) ↔ n ≤ 2 ^ 31 := by
  rw [negatedI32, Int64.toInt_ofNat_of_lt (by omega)]
  constructor
  · intro h
    have hlow := (Int32.ofInt (-(n : Int))).le_toInt
    omega
  · intro h
    exact Int32.toInt_ofInt_of_le (by omega) (by omega)

/-- A value that is assigned with a minus sign. -/
theorem assigned_negative_iff (uuidv7 : BitVec 128) (text : String) :
    LiteralKept uuidv7 .assigned true text ↔ ∀ n, decimalValue text = some n → n ≤ 2 ^ 31 ∨ 2 ^ 63 - 1 < n := by
  show (∀ value, sqlExprToDatum uuidv7 (.unaryOp .minus (.value (.number text))) = .ok value → Writes true text value) ↔ _
  rw [sqlExprToDatum]
  by_cases hpoint : hasPoint text = true
  · rw [if_pos hpoint]
    apply iff_of_true
    · cases hbits : parseF64 text with
      | none => exact forall_error _
      | some bits => exact forall_ok_iff.mpr (writes_double hpoint hbits)
    · intro n hn
      rw [hasPoint_eq_false hn] at hpoint
      cases hpoint
  · rw [if_neg hpoint]
    cases htext : decimalValue text with
    | none =>
        rw [parseI64, htext]
        exact iff_of_true (forall_error _) fun n hn => by cases hn
    | some n =>
        by_cases hle : n ≤ 2 ^ 63 - 1
        · rw [parseI64_of_le htext hle]
          refine forall_ok_iff.trans ((writes_of_decimalValue htext).trans ?_)
          constructor
          · intro hwrites m hm
            obtain rfl := Option.some.inj hm
            exact Or.inl ((negatedI32_toInt_iff hle).mp (Option.some.inj hwrites))
          · intro h
            have hsmall : n ≤ 2 ^ 31 := by
              rcases h n rfl with hsmall | hlarge
              · exact hsmall
              · omega
            exact congrArg some ((negatedI32_toInt_iff hle).mpr hsmall)
        · rw [parseI64_of_gt htext (by omega)]
          apply iff_of_true (forall_error _)
          intro m hm
          obtain rfl := Option.some.inj hm
          exact Or.inr (by omega)

/-- A numeric literal keeps its value exactly if it is safe where it stands. -/
theorem literalKept_iff (uuidv7 : BitVec 128) (place : LiteralPlace) (negative : Bool) {text : String}
    (hnumeric : IsNumeric text) : LiteralKept uuidv7 place negative text ↔ LiteralSafe place negative text := by
  have hplain := writes_sqlValueToDatum_iff hnumeric
  cases place with
  | assigned =>
      cases negative with
      | true => exact assigned_negative_iff uuidv7 text
      | false =>
          apply Iff.trans _ hplain
          exact forall_ok_iff
  | operand =>
      apply Iff.trans _ (hplain.trans (by cases negative <;> exact Iff.rfl))
      constructor
      · rintro ⟨value, hvalue, hwrites⟩
        have hsame : sqlValueToDatum (.number text) = value := by
          cases negative with
          | true => exact Expression.literal.inj (Expression.unaryOp.inj hvalue).2
          | false => exact Expression.literal.inj hvalue
        rw [hsame]
        exact hwrites
      · intro hwrites
        refine ⟨sqlValueToDatum (.number text), ?_, hwrites⟩
        cases negative <;> rfl
  | listed =>
      cases negative with
      | true => exact iff_of_false (by rintro ⟨value, hvalue, -⟩; cases hvalue) id
      | false =>
          apply Iff.trans _ hplain
          constructor
          · rintro ⟨value, hvalue, hwrites⟩
            obtain rfl := Option.some.inj hvalue
            exact hwrites
          · exact fun hwrites => ⟨_, rfl, hwrites⟩

end

section Samples

open AsciiCase PlainText

/-- A negative integer that fits an `i32`. -/
theorem literalKept_negative : LiteralKept 0 .assigned true "2147483648" := by
  have hdigits : decimalValue "2147483648" = some 2147483648 := by decide
  have hnumeric : IsNumeric "2147483648" := by
    unfold IsNumeric
    decide
  apply (literalKept_iff 0 .assigned true hnumeric).mpr
  intro n hn
  obtain rfl := Option.some.inj (hdigits.symm.trans hn)
  exact Or.inl (by decide)

/-- `-3000000000` is stored as `1294967296`, and `9223372036854775808` and `1e5` as NULL. -/
theorem not_literalKept :
    (sqlExprToDatum 0 (numericLiteral true "3000000000") = .ok (.integer 1294967296) ∧
        ¬ LiteralKept 0 .assigned true "3000000000") ∧
      (sqlExprToDatum 0 (numericLiteral false "9223372036854775808") = .ok .null ∧
        ¬ LiteralKept 0 .assigned false "9223372036854775808") ∧
      sqlExprToDatum 0 (numericLiteral false "1e5") = .ok .null ∧ ¬ LiteralKept 0 .assigned false "1e5" := by
  refine ⟨⟨rfl, fun h => ?_⟩, ⟨rfl, fun h => ?_⟩, rfl, fun h => ?_⟩
  · rcases (assigned_negative_iff 0 "3000000000").mp h 3000000000 (by decide) with hsmall | hlarge
    · exact absurd hsmall (by decide)
    · exact absurd hlarge (by decide)
  · exact not_writes_null _ _ (h .null rfl)
  · exact not_writes_null _ _ (h .null rfl)

end Samples

end HelionDb
