import HelionDb.Doubles
import HelionDb.IntegerColumns

/-! Arithmetic on integers. Both operands become doubles, the operation rounds its result to a double, and a cast brings
that back to the type of the operands, or to BIGINT or U_BIGINT if their types differ, from outside the range to its nearest
end. So a result is exact as long as rounding keeps it and the range holds it. -/

namespace HelionDb

/-- The operators that `datum_arith` serves. -/
inductive ArithmeticOperator where
  | add
  | sub
  | mul
  | div

namespace ArithmeticOperator

def operator : ArithmeticOperator → BinaryOperator
  | add => .add
  | sub => .sub
  | mul => .mul
  | div => .div

def onFloats : ArithmeticOperator → Float → Float → Float
  | add => (· + ·)
  | sub => (· - ·)
  | mul => (· * ·)
  | div => (· / ·)

def onRationals : ArithmeticOperator → ℚ → ℚ → ℚ
  | add => (· + ·)
  | sub => (· - ·)
  | mul => (· * ·)
  | div => (· / ·)

/-- The exact result on integers. -/
def result : ArithmeticOperator → Int → Int → Option Int
  | add, m, n => some (m + n)
  | sub, m, n => some (m - n)
  | mul, m, n => some (m * n)
  | div, m, n => if n = 0 then none else some (m.tdiv n)

/-- The operation on numbers of 53 bits. -/
def rounded (op : ArithmeticOperator) (m n : Int) : ℚ := nearest (op.onRationals (nearest m) (nearest n))

/-- Rounding keeps the result: a product if it has at most 53 bits, whatever its factors are. -/
def Keeps (op : ArithmeticOperator) (m n e : Int) : Prop :=
  match op with
  | mul => FitsDouble e
  | _ => truncate (op.rounded m n) = e

end ArithmeticOperator

/-- BIGINT and U_BIGINT together. -/
def wideRange : Int × Int := (-2 ^ 63, 2 ^ 64 - 1)

/-- The range of the result of operands of these types. -/
def resultRange (left right : DataType) : Int × Int :=
  if left = right then left.integerRange.getD wideRange else wideRange

/-- The outcome is the exact result, or an error if the range does not hold that or there is none. -/
def ExactOrError (range : Int × Int) (expected : Option Int) : Except HelionError Datum → Prop
  | .ok value => ∃ e, expected = some e ∧ value.intValue = some e
  | .error _ => ∀ e, expected = some e → ¬ InRange range e

/-- There is an exact result in the range, and the operands and the result are small, or rounding keeps the result, or it
is an end of the range and rounding leads out of the range there. -/
def ArithmeticSafe (op : ArithmeticOperator) (range : Int × Int) (m n : Int) : Prop :=
  ∃ e, op.result m n = some e ∧ InRange range e ∧
    (|m| < 2 ^ 53 ∧ |n| < 2 ^ 53 ∧ |e| < 2 ^ 53 ∨ op.Keeps m n e ∨
      e = range.2 ∧ e < truncate (op.rounded m n) ∨ e = range.1 ∧ truncate (op.rounded m n) < e)

/-- The nearest integer of a range. -/
def saturate (range : Int × Int) (n : Int) : Int := max range.1 (min range.2 n)

theorem saturate_eq_iff {range : Int × Int} (hrange : range.1 ≤ range.2) (n e : Int) :
    saturate range n = e ↔ InRange range e ∧ (n = e ∨ e = range.2 ∧ e < n ∨ e = range.1 ∧ n < e) := by
  unfold saturate InRange
  omega

theorem saturate_inRange {least greatest : Int} (hrange : least ≤ greatest) (n : Int) :
    InRange (least, greatest) (saturate (least, greatest) n) := by
  unfold saturate InRange
  omega

section

variable {x : Float} {s : Float.Model.UnpackedFloat.Sign} {v : ℚ}

theorem castSigned_eq (hx : IsNumber x s v) {width : Nat} (hwidth : width ≤ 64) :
    castSigned width x = saturate (-2 ^ (width - 1), 2 ^ (width - 1) - 1) (truncate v) := by
  have hle : (2 : Int) ^ (width - 1) ≤ 2 ^ 63 := pow_le_pow_right₀ (by norm_num) (by omega)
  have hpos : (0 : Int) < 2 ^ (width - 1) := by positivity
  unfold castSigned saturate
  generalize (2 : Int) ^ (width - 1) = limit at hle hpos ⊢
  by_cases hneg : v < 0
  · have hnonpos := truncate_nonpos hneg.le
    rw [if_pos (hx.lt_zero_iff.mpr hneg), hx.abs.toUInt64, abs_of_neg hneg, truncate_neg]
    omega
  · have hnonneg := truncate_nonneg (not_lt.mp hneg)
    rw [if_neg (mt hx.lt_zero_iff.mp hneg), hx.toUInt64]
    omega

theorem castUnsigned_eq (hx : IsNumber x s v) {width : Nat} (hwidth : width ≤ 64) :
    (castUnsigned width x : Int) = saturate (0, 2 ^ width - 1) (truncate v) := by
  have hle : 2 ^ width ≤ 2 ^ 64 := Nat.pow_le_pow_right (by norm_num) hwidth
  have hpos : 0 < 2 ^ width := by positivity
  have hcast : (2 : Int) ^ width = (2 ^ width : Nat) := by norm_num
  unfold castUnsigned saturate
  rw [hx.toUInt64, hcast]
  generalize 2 ^ width = limit at hle hpos ⊢
  omega

end

/-! ### Operations -/

/-- Rounded integers of 64 bits. -/
theorem nearest_bounds {n : Int} (hn : |n| < 2 ^ 64) :
    ∃ k : Int, nearest n = k ∧ |k| ≤ 2 ^ 65 ∧ (n ≠ 0 → k ≠ 0) := by
  obtain ⟨k, hk⟩ := exists_nearest_eq n
  obtain ⟨hlow, hhigh⟩ := abs_nearest_bounds n
  rw [hk] at hlow hhigh
  refine ⟨k, hk, ?_, ?_⟩
  · have hle : (|n| : ℚ) ≤ 2 ^ 64 := by exact_mod_cast hn.le
    have : (|k| : ℚ) ≤ 2 ^ 65 := by linarith
    exact_mod_cast this
  · rintro hne rfl
    rw [Int.cast_zero, abs_zero] at hlow
    have : (0 : ℚ) < |(n : ℚ)| := abs_pos.mpr (by exact_mod_cast hne)
    linarith

/-- No integer within the range of normal numbers is too small for it. -/
theorem inNormalRange_intCast {q : ℚ} {k : Int} (hq : q = k) (hk : |k| ≤ 2 ^ 130) :
    q ≠ 0 → InNormalRange |q| := by
  rintro hne
  subst hq
  have hone : (1 : ℚ) ≤ |(k : ℚ)| := by
    have : 0 < |k| := abs_pos.mpr (by exact_mod_cast hne)
    exact_mod_cast this
  have hle : |(k : ℚ)| ≤ 2 ^ 130 := by exact_mod_cast hk
  apply inNormalRange_of_le
  · linarith
  · linarith

/-- An operator on doubles that stand for integers. -/
theorem isNumber_onFloats (op : ArithmeticOperator) {x y : Float} {s t : Float.Model.UnpackedFloat.Sign} {m n : Int}
    (hx : IsNumber x s (nearest m)) (hy : IsNumber y t (nearest n)) (hm : |m| < 2 ^ 64) (hn : |n| < 2 ^ 64)
    (hresult : op.result m n ≠ none) : ∃ sign, IsNumber (op.onFloats x y) sign (op.rounded m n) := by
  obtain ⟨k, hk, hkle, -⟩ := nearest_bounds hm
  obtain ⟨l, hl, hlle, hlne⟩ := nearest_bounds hn
  have hkbounds := abs_le.mp hkle
  have hlbounds := abs_le.mp hlle
  unfold ArithmeticOperator.rounded
  rw [hk] at hx ⊢
  rw [hl] at hy ⊢
  cases op with
  | add =>
      apply hx.add hy
      apply @inNormalRange_intCast _ (k + l) (by push_cast; rfl)
      rw [abs_le]
      omega
  | sub =>
      apply hx.sub hy
      apply @inNormalRange_intCast _ (k - l) (by push_cast; rfl)
      rw [abs_le]
      omega
  | mul =>
      refine ⟨_, hx.mul hy ?_⟩
      apply @inNormalRange_intCast _ (k * l) (by push_cast; rfl)
      calc |k * l| = |k| * |l| := abs_mul k l
        _ ≤ 2 ^ 65 * 2 ^ 65 := mul_le_mul hkle hlle (abs_nonneg l) (by norm_num)
        _ = 2 ^ 130 := by norm_num
  | div =>
      have hzero : n ≠ 0 := by
        rintro rfl
        exact hresult rfl
      have hne : (l : ℚ) ≠ 0 := by exact_mod_cast hlne hzero
      refine ⟨_, hx.div hy hne fun hquotient => ?_⟩
      have hkone : (1 : ℚ) ≤ |(k : ℚ)| := by
        have : 0 < |k| := abs_pos.mpr fun h => hquotient (by rw [h, Int.cast_zero, zero_div])
        exact_mod_cast this
      have hlone : (1 : ℚ) ≤ |(l : ℚ)| := by
        have : 0 < |l| := abs_pos.mpr (hlne hzero)
        exact_mod_cast this
      have hkhigh : |(k : ℚ)| ≤ 2 ^ 65 := by exact_mod_cast hkle
      have hlhigh : |(l : ℚ)| ≤ 2 ^ 65 := by exact_mod_cast hlle
      rw [abs_div]
      apply inNormalRange_of_le
      · rw [div_le_div_iff₀ (by norm_num) (by linarith)]
        linarith
      · rw [div_le_iff₀ (by linarith)]
        linarith

/-- Rounding keeps what is below 2^53. -/
theorem truncate_rounded_of_small {op : ArithmeticOperator} {m n e : Int} (hresult : op.result m n = some e)
    (hm : |m| < 2 ^ 53) (hn : |n| < 2 ^ 53) (he : |e| < 2 ^ 53) : truncate (op.rounded m n) = e := by
  rw [ArithmeticOperator.rounded, nearest_intCast hm, nearest_intCast hn]
  cases op with
  | add =>
      cases hresult
      show truncate (nearest ((m : ℚ) + n)) = m + n
      rw [← Int.cast_add, nearest_intCast he, truncate_intCast]
  | sub =>
      cases hresult
      show truncate (nearest ((m : ℚ) - n)) = m - n
      rw [← Int.cast_sub, nearest_intCast he, truncate_intCast]
  | mul =>
      cases hresult
      show truncate (nearest ((m : ℚ) * n)) = m * n
      rw [← Int.cast_mul, nearest_intCast he, truncate_intCast]
  | div =>
      simp only [ArithmeticOperator.result] at hresult
      split at hresult
      · cases hresult
      · rename_i hne
        cases hresult
        exact truncate_nearest_div hm hne

theorem keeps_iff {op : ArithmeticOperator} {m n e : Int} (hresult : op.result m n = some e) :
    op.Keeps m n e ↔ truncate (op.rounded m n) = e := by
  cases op with
  | add => exact Iff.rfl
  | sub => exact Iff.rfl
  | div => exact Iff.rfl
  | mul =>
      cases hresult
      show FitsDouble (m * n) ↔ truncate (nearest (nearest m * nearest n)) = m * n
      obtain ⟨k, hk⟩ := exists_nearest_eq m
      obtain ⟨l, hl⟩ := exists_nearest_eq n
      obtain ⟨product, hproduct⟩ := exists_nearest_eq (k * l)
      have hvalue : nearest (nearest m * nearest n) = product := by
        rw [hk, hl, ← Int.cast_mul, hproduct]
      rw [← nearest_mul_eq_iff, hvalue, truncate_intCast, Int.cast_inj]

/-- What the cast gives is the exact result. -/
theorem saturate_rounded_iff {op : ArithmeticOperator} {range : Int × Int} {m n e : Int}
    (hresult : op.result m n = some e) (hrange : range.1 ≤ range.2) :
    saturate range (truncate (op.rounded m n)) = e ↔ ArithmeticSafe op range m n := by
  rw [saturate_eq_iff hrange, ← keeps_iff hresult]
  constructor
  · rintro ⟨hin, hkept⟩
    exact ⟨e, hresult, hin, .inr hkept⟩
  · rintro ⟨e', hresult', hin, hkept⟩
    obtain rfl : e' = e := Option.some.inj (hresult'.symm.trans hresult)
    refine ⟨hin, ?_⟩
    rcases hkept with ⟨hm, hn, he⟩ | hkept
    · exact .inl ((keeps_iff hresult).mpr (truncate_rounded_of_small hresult hm hn he))
    · exact hkept

/-! ### Values -/

/-- An integer lies in the range of its type. -/
theorem Datum.intValue_range {value : Datum} {m : Int} (hvalue : value.intValue = some m) :
    ∃ range, value.dataType.integerRange = some range ∧ InRange range m := by
  cases value <;> cases hvalue
  case smallInt v => exact ⟨_, rfl, v.le_toInt, Int.le_sub_one_of_lt v.toInt_lt⟩
  case integer v => exact ⟨_, rfl, v.le_toInt, Int.le_sub_one_of_lt v.toInt_lt⟩
  case bigInt v => exact ⟨_, rfl, v.le_toInt, Int.le_sub_one_of_lt v.toInt_lt⟩
  case unsignedSmallInt v => exact ⟨_, rfl, Int.natCast_nonneg _, Int.le_sub_one_of_lt (by exact_mod_cast v.toNat_lt)⟩
  case unsignedInteger v => exact ⟨_, rfl, Int.natCast_nonneg _, Int.le_sub_one_of_lt (by exact_mod_cast v.toNat_lt)⟩
  case unsignedBigInt v => exact ⟨_, rfl, Int.natCast_nonneg _, Int.le_sub_one_of_lt (by exact_mod_cast v.toNat_lt)⟩

theorem DataType.integerRange_wide {type : DataType} {range : Int × Int} (hrange : type.integerRange = some range) :
    wideRange.1 ≤ range.1 ∧ range.1 ≤ 0 ∧ 0 < range.2 ∧ range.2 ≤ wideRange.2 := by
  cases type <;> cases hrange <;> decide

theorem Datum.abs_intValue_lt {value : Datum} {m : Int} (hvalue : value.intValue = some m) : |m| < 2 ^ 64 := by
  obtain ⟨range, hrange, hlow, hhigh⟩ := Datum.intValue_range hvalue
  obtain ⟨hwide, -, -, hwide'⟩ := DataType.integerRange_wide hrange
  simp only [wideRange] at hwide hwide'
  rw [abs_lt]
  omega

theorem resultRange_nonempty (left right : DataType) : (resultRange left right).1 ≤ (resultRange left right).2 := by
  unfold resultRange
  split
  · cases hrange : left.integerRange with
    | none => decide
    | some range =>
        obtain ⟨-, hlow, hhigh, -⟩ := DataType.integerRange_wide hrange
        exact hlow.trans hhigh.le
  · decide

/-- An integer as a double. -/
theorem Datum.isNumber_numericToF64 {value : Datum} {m : Int} (hvalue : value.intValue = some m) :
    ∃ sign, IsNumber value.numericToF64 sign (nearest m) := by
  have hlt := Datum.abs_intValue_lt hvalue
  have hnat {n : Nat} (hn : |(n : Int)| < 2 ^ 64) : ∃ sign, IsNumber (.ofNat n) sign (nearest (n : Int)) := by
    rw [Int.cast_natCast]
    exact isNumber_ofNat (by exact_mod_cast (abs_lt.mp hn).2)
  cases value <;> cases hvalue
  case smallInt v => exact isNumber_ofInt hlt
  case integer v => exact isNumber_ofInt hlt
  case bigInt v => exact isNumber_ofInt hlt
  case unsignedSmallInt v => exact hnat hlt
  case unsignedInteger v => exact hnat hlt
  case unsignedBigInt v => exact hnat hlt

section

variable {x : Float} {s : Float.Model.UnpackedFloat.Sign} {v : ℚ}

theorem toInt_castSigned_16 (hx : IsNumber x s v) :
    (Int16.ofInt (castSigned 16 x)).toInt = saturate (-2 ^ 15, 2 ^ 15 - 1) (truncate v) := by
  obtain ⟨hlow, hhigh⟩ := saturate_inRange (show (-2 ^ 15 : Int) ≤ 2 ^ 15 - 1 by decide) (truncate v)
  rw [castSigned_eq hx (by decide)]
  exact Int16.toInt_ofInt_of_le hlow (Int.lt_of_le_sub_one hhigh)

theorem toInt_castSigned_32 (hx : IsNumber x s v) :
    (Int32.ofInt (castSigned 32 x)).toInt = saturate (-2 ^ 31, 2 ^ 31 - 1) (truncate v) := by
  obtain ⟨hlow, hhigh⟩ := saturate_inRange (show (-2 ^ 31 : Int) ≤ 2 ^ 31 - 1 by decide) (truncate v)
  rw [castSigned_eq hx (by decide)]
  exact Int32.toInt_ofInt_of_le hlow (Int.lt_of_le_sub_one hhigh)

theorem toInt_castSigned_64 (hx : IsNumber x s v) :
    (Int64.ofInt (castSigned 64 x)).toInt = saturate (-2 ^ 63, 2 ^ 63 - 1) (truncate v) := by
  obtain ⟨hlow, hhigh⟩ := saturate_inRange (show (-2 ^ 63 : Int) ≤ 2 ^ 63 - 1 by decide) (truncate v)
  rw [castSigned_eq hx (by decide)]
  exact Int64.toInt_ofInt_of_le hlow (Int.lt_of_le_sub_one hhigh)

theorem castUnsigned_lt (width : Nat) (x : Float) : castUnsigned width x < 2 ^ width :=
  (Nat.min_le_right _ _).trans_lt (Nat.sub_one_lt (by positivity))

theorem toNat_castUnsigned_16 (hx : IsNumber x s v) :
    ((UInt16.ofNat (castUnsigned 16 x)).toNat : Int) = saturate (0, 2 ^ 16 - 1) (truncate v) := by
  rw [UInt16.toNat_ofNat_of_lt' (castUnsigned_lt 16 x)]
  exact castUnsigned_eq hx (by decide)

theorem toNat_castUnsigned_32 (hx : IsNumber x s v) :
    ((UInt32.ofNat (castUnsigned 32 x)).toNat : Int) = saturate (0, 2 ^ 32 - 1) (truncate v) := by
  rw [UInt32.toNat_ofNat_of_lt' (castUnsigned_lt 32 x)]
  exact castUnsigned_eq hx (by decide)

theorem toNat_castUnsigned_64 (hx : IsNumber x s v) :
    ((UInt64.ofNat (castUnsigned 64 x)).toNat : Int) = saturate (0, 2 ^ 64 - 1) (truncate v) := by
  rw [UInt64.toNat_ofNat_of_lt' (castUnsigned_lt 64 x)]
  exact castUnsigned_eq hx (by decide)

/-- The result of operands of one type. -/
theorem datumArith_same {left right : Datum} {m : Int} {op : Float → Float → Float} (hleft : left.intValue = some m)
    (htype : left.dataType = right.dataType) (hx : IsNumber (op left.numericToF64 right.numericToF64) s v) :
    ∃ value, left.datumArith right op = .ok value ∧
      value.intValue = some (saturate (resultRange left.dataType right.dataType) (truncate v)) := by
  cases left <;> cases hleft <;> cases right <;> cases htype
  case smallInt.refl.smallInt.refl => exact ⟨_, rfl, congrArg some (toInt_castSigned_16 hx)⟩
  case integer.refl.integer.refl => exact ⟨_, rfl, congrArg some (toInt_castSigned_32 hx)⟩
  case bigInt.refl.bigInt.refl => exact ⟨_, rfl, congrArg some (toInt_castSigned_64 hx)⟩
  case unsignedSmallInt.refl.unsignedSmallInt.refl => exact ⟨_, rfl, congrArg some (toNat_castUnsigned_16 hx)⟩
  case unsignedInteger.refl.unsignedInteger.refl => exact ⟨_, rfl, congrArg some (toNat_castUnsigned_32 hx)⟩
  case unsignedBigInt.refl.unsignedBigInt.refl => exact ⟨_, rfl, congrArg some (toNat_castUnsigned_64 hx)⟩

theorem datumArith_of_ne {left right : Datum} {m n : Int} {op : Float → Float → Float} (hleft : left.intValue = some m)
    (hright : right.intValue = some n) (htype : left.dataType ≠ right.dataType) :
    left.datumArith right op =
      if isSignNegative (op left.numericToF64 right.numericToF64) then
        .ok (.bigInt (.ofInt (castSigned 64 (op left.numericToF64 right.numericToF64))))
      else .ok (.unsignedBigInt (.ofNat (castUnsigned 64 (op left.numericToF64 right.numericToF64)))) := by
  cases left <;> cases hleft <;> cases right <;> cases hright <;>
    first
      | rfl
      | exact absurd rfl htype

/-- The result of operands of two types. -/
theorem datumArith_mixed {left right : Datum} {m n : Int} {op : Float → Float → Float} (hleft : left.intValue = some m)
    (hright : right.intValue = some n) (htype : left.dataType ≠ right.dataType)
    (hx : IsNumber (op left.numericToF64 right.numericToF64) s v) :
    ∃ value, left.datumArith right op = .ok value ∧
      value.intValue = some (saturate (resultRange left.dataType right.dataType) (truncate v)) := by
  rw [datumArith_of_ne hleft hright htype, resultRange, if_neg htype]
  cases s with
  | negative =>
      have hsign : isSignNegative (op left.numericToF64 right.numericToF64) = true :=
        decide_eq_true (hx.sign_bit.mpr rfl)
      have hnonpos := truncate_nonpos hx.nonpos
      refine ⟨_, if_pos hsign, congrArg some ?_⟩
      rw [toInt_castSigned_64 hx]
      unfold saturate wideRange
      omega
  | positive =>
      have hsign : isSignNegative (op left.numericToF64 right.numericToF64) = false :=
        decide_eq_false fun h => nomatch hx.sign_bit.mp h
      have hnonneg := truncate_nonneg hx.nonneg
      refine ⟨_, if_neg (ne_true_of_eq_false hsign), congrArg some ?_⟩
      rw [toNat_castUnsigned_64 hx]
      unfold saturate wideRange
      omega

end

/-- Arithmetic on integers never fails, not even where there is no result. -/
theorem datumArith_ok {left right : Datum} {m n : Int} (op : Float → Float → Float) (hleft : left.intValue = some m)
    (hright : right.intValue = some n) : ∃ value, left.datumArith right op = .ok value := by
  by_cases htype : left.dataType = right.dataType
  · cases left <;> cases hleft <;> cases right <;> cases htype <;> exact ⟨_, rfl⟩
  · rw [datumArith_of_ne hleft hright htype]
    split <;> exact ⟨_, rfl⟩

/-- An operator is exact exactly on its safe operands. -/
theorem exactOrError_datumArith_iff (op : ArithmeticOperator) {left right : Datum} {m n : Int}
    (hleft : left.intValue = some m) (hright : right.intValue = some n) :
    ExactOrError (resultRange left.dataType right.dataType) (op.result m n) (left.datumArith right op.onFloats) ↔
      ArithmeticSafe op (resultRange left.dataType right.dataType) m n := by
  cases hresult : op.result m n with
  | none =>
      obtain ⟨value, hvalue⟩ := datumArith_ok op.onFloats hleft hright
      rw [hvalue]
      apply iff_of_false
      · rintro ⟨e, he, -⟩
        cases he
      · rintro ⟨e, he, -⟩
        rw [hresult] at he
        cases he
  | some e =>
      obtain ⟨s, hx⟩ := Datum.isNumber_numericToF64 hleft
      obtain ⟨t, hy⟩ := Datum.isNumber_numericToF64 hright
      obtain ⟨sign, hnumber⟩ := isNumber_onFloats op hx hy (Datum.abs_intValue_lt hleft)
        (Datum.abs_intValue_lt hright) (by rw [hresult]; exact Option.some_ne_none e)
      have hvalue : ∃ value, left.datumArith right op.onFloats = .ok value ∧
          value.intValue =
            some (saturate (resultRange left.dataType right.dataType) (truncate (op.rounded m n))) := by
        by_cases htype : left.dataType = right.dataType
        · exact datumArith_same hleft htype hnumber
        · exact datumArith_mixed hleft hright htype hnumber
      obtain ⟨value, harith, hint⟩ := hvalue
      rw [harith, ← saturate_rounded_iff hresult (resultRange_nonempty _ _)]
      constructor
      · rintro ⟨e', he, hexact⟩
        cases he
        exact Option.some.inj (hint.symm.trans hexact)
      · intro hsaturate
        exact ⟨e, rfl, by rw [hint, hsaturate]⟩

theorem exactOrError_ok_iff {range : Int × Int} {e : Int} {value : Datum} :
    ExactOrError range (some e) (.ok value) ↔ value.intValue = some e := by
  constructor
  · rintro ⟨e', he, hvalue⟩
    cases he
    exact hvalue
  · intro hvalue
    exact ⟨e, rfl, hvalue⟩

/-- Of the integers of a width only the least has no opposite. -/
theorem bmod_neg_eq_iff {half m : Int} {size : Nat} (hsize : (size : Int) = 2 * half) (hpos : 0 < half) (hlow : -half ≤ m)
    (hhigh : m < half) : (-m).bmod size = -m ↔ m ≠ -half := by
  constructor
  · rintro hself rfl
    have hlt := Int.bmod_lt (x := - -half) (m := size) (by omega)
    rw [hself, hsize] at hlt
    omega
  · intro hne
    exact Int.bmod_eq_of_le (by omega) (by omega)

theorem toInt_neg_iff_16 (v : Int16) : (-v).toInt = -v.toInt ↔ v.toInt ≠ -2 ^ 15 := by
  rw [Int16.toInt_neg]
  exact bmod_neg_eq_iff (by norm_num) (by norm_num) v.le_toInt v.toInt_lt

theorem toInt_neg_iff_32 (v : Int32) : (-v).toInt = -v.toInt ↔ v.toInt ≠ -2 ^ 31 := by
  rw [Int32.toInt_neg]
  exact bmod_neg_eq_iff (by norm_num) (by norm_num) v.le_toInt v.toInt_lt

theorem toInt_neg_iff_64 (v : Int64) : (-v).toInt = -v.toInt ↔ v.toInt ≠ -2 ^ 63 := by
  rw [Int64.toInt_neg]
  exact bmod_neg_eq_iff (by norm_num) (by norm_num) v.le_toInt v.toInt_lt

/-- Negation of an unsigned integer is refused, so the opposite of zero is missed. -/
theorem exactOrError_mismatch_iff {range : Int × Int} {n : Nat} {e : HelionError} (hlow : range.1 = 0)
    (hhigh : 0 ≤ range.2) : ExactOrError range (some (-(n : Int))) (.error e) ↔ (n : Int) ≠ range.1 := by
  constructor
  · intro h
    have := h _ rfl
    unfold InRange at this
    omega
  · rintro hne m hm
    cases hm
    unfold InRange
    omega

theorem exactOrError_negateDatum_iff {value : Datum} {m : Int} {range : Int × Int} (hvalue : value.intValue = some m)
    (hrange : value.dataType.integerRange = some range) :
    ExactOrError range (some (-m)) value.negateDatum ↔ m ≠ range.1 := by
  cases value <;> cases hvalue <;> cases hrange
  case smallInt.refl.refl v =>
      exact exactOrError_ok_iff.trans (Option.some_inj.trans (toInt_neg_iff_16 v))
  case integer.refl.refl v =>
      exact exactOrError_ok_iff.trans (Option.some_inj.trans (toInt_neg_iff_32 v))
  case bigInt.refl.refl v =>
      exact exactOrError_ok_iff.trans (Option.some_inj.trans (toInt_neg_iff_64 v))
  case unsignedSmallInt.refl.refl v => exact exactOrError_mismatch_iff rfl (by norm_num)
  case unsignedInteger.refl.refl v => exact exactOrError_mismatch_iff rfl (by norm_num)
  case unsignedBigInt.refl.refl v => exact exactOrError_mismatch_iff rfl (by norm_num)

/-- An absolute value is exact where the opposite is, or needs none. -/
theorem ite_eq_abs_iff {m opposite least : Int} (hneg : opposite = -m ↔ m ≠ least) (hleast : least < 0) :
    (if m < 0 then opposite else m) = |m| ↔ m ≠ least ∨ 0 ≤ m := by
  split
  · rename_i hm
    rw [abs_of_neg hm, hneg]
    omega
  · rename_i hm
    rw [abs_of_nonneg (not_lt.mp hm)]
    exact iff_of_true rfl (.inr (not_lt.mp hm))

theorem exactOrError_absDatum_iff {value : Datum} {m : Int} {range : Int × Int} (hvalue : value.intValue = some m)
    (hrange : value.dataType.integerRange = some range) :
    ExactOrError range (some |m|) value.absDatum ↔ m ≠ range.1 ∨ 0 ≤ m := by
  have hunsigned (n : Nat) {least : Int} : (n : Int) = |(n : Int)| ↔ (n : Int) ≠ least ∨ 0 ≤ (n : Int) :=
    iff_of_true (abs_of_nonneg (Int.natCast_nonneg n)).symm (.inr (Int.natCast_nonneg n))
  cases value <;> cases hvalue <;> cases hrange
  case smallInt.refl.refl v =>
      rw [Datum.absDatum, exactOrError_ok_iff, Datum.intValue, Option.some_inj, apply_ite Int16.toInt,
        ← ite_eq_abs_iff (toInt_neg_iff_16 v) (by norm_num)]
      simp only [Int16.lt_iff_toInt_lt, Int16.toInt_zero]
  case integer.refl.refl v =>
      rw [Datum.absDatum, exactOrError_ok_iff, Datum.intValue, Option.some_inj, apply_ite Int32.toInt,
        ← ite_eq_abs_iff (toInt_neg_iff_32 v) (by norm_num)]
      simp only [Int32.lt_iff_toInt_lt, Int32.toInt_zero]
  case bigInt.refl.refl v =>
      rw [Datum.absDatum, exactOrError_ok_iff, Datum.intValue, Option.some_inj, apply_ite Int64.toInt,
        ← ite_eq_abs_iff (toInt_neg_iff_64 v) (by norm_num)]
      simp only [Int64.lt_iff_toInt_lt, Int64.toInt_zero]
  case unsignedSmallInt.refl.refl v => exact exactOrError_ok_iff.trans (Option.some_inj.trans (hunsigned v.toNat))
  case unsignedInteger.refl.refl v => exact exactOrError_ok_iff.trans (Option.some_inj.trans (hunsigned v.toNat))
  case unsignedBigInt.refl.refl v => exact exactOrError_ok_iff.trans (Option.some_inj.trans (hunsigned v.toNat))

section

variable [CaseMapping] [Rendering] (uuidv7 : BitVec 128)
  (lookup : Option String → String → Except HelionError Datum)

open Expression (evaluateWith evaluateAll)

theorem evaluateWith_arithmetic (op : ArithmeticOperator) {a b : Expression} {left right : Datum} {m n : Int}
    (ha : evaluateWith uuidv7 lookup a = .ok left) (hb : evaluateWith uuidv7 lookup b = .ok right)
    (hleft : left.intValue = some m) (hright : right.intValue = some n) :
    evaluateWith uuidv7 lookup (.binaryOp a op.operator b) = left.datumArith right op.onFloats := by
  have hnull : (left.isNull || right.isNull) = false := by
    cases left <;> cases hleft <;> cases right <;> cases hright <;> rfl
  unfold evaluateWith
  rw [ha, hb]
  show Expression.applyBinary op.operator left right = _
  unfold Expression.applyBinary
  rw [hnull]
  cases op <;> rfl

theorem evaluateWith_neg {a : Expression} {left : Datum} (ha : evaluateWith uuidv7 lookup a = .ok left) :
    evaluateWith uuidv7 lookup (.unaryOp .neg a) = left.negateDatum := by
  unfold evaluateWith
  rw [ha]
  rfl

theorem evaluateWith_abs {name : String} (hname : CaseMapping.toLowercase name = "abs") {a : Expression} {left : Datum}
    (ha : evaluateWith uuidv7 lookup a = .ok left) :
    evaluateWith uuidv7 lookup (.function name [a]) = left.absDatum := by
  unfold evaluateWith
  simp only [evaluateAll, ha]
  show evaluateFunction uuidv7 name [left] = _
  rw [evaluateFunction, hname]
  rfl

/-- Arithmetic on two integers, wherever their columns are looked up: each operator is exact or an error exactly on its
safe operands, negation exactly off the least integer of the type, and ABS exactly off a negative one. -/
theorem exactOrError_evaluateWith_iff {name : String} (hname : CaseMapping.toLowercase name = "abs") {a b : Expression}
    {left right : Datum} {m n : Int} {range : Int × Int} (ha : evaluateWith uuidv7 lookup a = .ok left)
    (hb : evaluateWith uuidv7 lookup b = .ok right) (hleft : left.intValue = some m) (hright : right.intValue = some n)
    (hrange : left.dataType.integerRange = some range) :
    (∀ op : ArithmeticOperator,
      ExactOrError (resultRange left.dataType right.dataType) (op.result m n)
          (evaluateWith uuidv7 lookup (.binaryOp a op.operator b)) ↔
        ArithmeticSafe op (resultRange left.dataType right.dataType) m n) ∧
      (ExactOrError range (some (-m)) (evaluateWith uuidv7 lookup (.unaryOp .neg a)) ↔ m ≠ range.1) ∧
      (ExactOrError range (some |m|) (evaluateWith uuidv7 lookup (.function name [a])) ↔ m ≠ range.1 ∨ 0 ≤ m) := by
  refine ⟨fun op => ?_, ?_, ?_⟩
  · rw [evaluateWith_arithmetic uuidv7 lookup op ha hb hleft hright]
    exact exactOrError_datumArith_iff op hleft hright
  · rw [evaluateWith_neg uuidv7 lookup ha]
    exact exactOrError_negateDatum_iff hleft hrange
  · rw [evaluateWith_abs uuidv7 lookup hname ha]
    exact exactOrError_absDatum_iff hleft hrange

end

section Samples

open AsciiCase PlainText

/-- 2^60 · 4, -2^60 and ABS(2^60) on BIGINT. -/
theorem exactOrError_evaluateWith_large :
    ExactOrError (-2 ^ 63, 2 ^ 63 - 1) (some (2 ^ 62))
        (Expression.evaluate 0 (.binaryOp (.literal (.bigInt 1152921504606846976)) .mul (.literal (.bigInt 4))) [] []) ∧
      ExactOrError (-2 ^ 63, 2 ^ 63 - 1) (some (-2 ^ 60))
        (Expression.evaluate 0 (.unaryOp .neg (.literal (.bigInt 1152921504606846976))) [] []) ∧
      ExactOrError (-2 ^ 63, 2 ^ 63 - 1) (some |2 ^ 60|)
        (Expression.evaluate 0 (.function "ABS" [.literal (.bigInt 1152921504606846976)]) [] []) := by
  have hname : CaseMapping.toLowercase "ABS" = "abs" := by decide
  have ha : Expression.evaluateWith 0 (Expression.lookupColumn [] []) (.literal (.bigInt 1152921504606846976)) =
      .ok (.bigInt 1152921504606846976) := rfl
  have hb : Expression.evaluateWith 0 (Expression.lookupColumn [] []) (.literal (.bigInt 4)) = .ok (.bigInt 4) := rfl
  have hleft : Datum.intValue (.bigInt 1152921504606846976) = some (2 ^ 60) := by decide
  have hright : Datum.intValue (.bigInt 4) = some 4 := by decide
  obtain ⟨hoperators, hneg, habs⟩ := exactOrError_evaluateWith_iff 0 _ hname ha hb hleft hright rfl
  have hsafe : ArithmeticSafe .mul (-2 ^ 63, 2 ^ 63 - 1) (2 ^ 60) 4 :=
    ⟨2 ^ 62, rfl, by decide, .inr (.inl ⟨1, 62, by norm_num, by norm_num⟩)⟩
  exact ⟨(hoperators .mul).mpr hsafe, hneg.mpr (by decide), habs.mpr (.inr (by decide))⟩

/-- On BIGINT `9007199254740993 + 1` loses the last digit, on INTEGER `2147483647 + 1` stays where it is, `1 / 0` is the
greatest INTEGER, the least INTEGER is its own opposite and absolute value, and the opposite of an unsigned zero is an
error. -/
theorem not_exactOrError_evaluateWith :
    ¬ ExactOrError (-2 ^ 63, 2 ^ 63 - 1) (some 9007199254740994)
        (Expression.evaluate 0 (.binaryOp (.literal (.bigInt 9007199254740993)) .add (.literal (.bigInt 1))) [] []) ∧
      ¬ ExactOrError (-2 ^ 31, 2 ^ 31 - 1) (some 2147483648)
        (Expression.evaluate 0 (.binaryOp (.literal (.integer 2147483647)) .add (.literal (.integer 1))) [] []) ∧
      ¬ ExactOrError (-2 ^ 31, 2 ^ 31 - 1) none
        (Expression.evaluate 0 (.binaryOp (.literal (.integer 1)) .div (.literal (.integer 0))) [] []) ∧
      ¬ ExactOrError (-2 ^ 31, 2 ^ 31 - 1) (some 2147483648)
        (Expression.evaluate 0 (.unaryOp .neg (.literal (.integer (-2147483648)))) [] []) ∧
      ¬ ExactOrError (-2 ^ 31, 2 ^ 31 - 1) (some 2147483648)
        (Expression.evaluate 0 (.function "ABS" [.literal (.integer (-2147483648))]) [] []) ∧
      ¬ ExactOrError (0, 2 ^ 16 - 1) (some 0)
        (Expression.evaluate 0 (.unaryOp .neg (.literal (.unsignedSmallInt 0))) [] []) := by
  have hadd :
      Expression.evaluate 0 (.binaryOp (.literal (.bigInt 9007199254740993)) .add (.literal (.bigInt 1))) [] [] =
      .ok (.bigInt 9007199254740992) := rfl
  have hhigh : Expression.evaluate 0 (.binaryOp (.literal (.integer 2147483647)) .add (.literal (.integer 1))) [] [] =
      .ok (.integer 2147483647) := rfl
  have hzero : Expression.evaluate 0 (.binaryOp (.literal (.integer 1)) .div (.literal (.integer 0))) [] [] =
      .ok (.integer 2147483647) := rfl
  have hneg : Expression.evaluate 0 (.unaryOp .neg (.literal (.integer (-2147483648)))) [] [] =
      .ok (.integer (-2147483648)) := rfl
  have habs : Expression.evaluate 0 (.function "ABS" [.literal (.integer (-2147483648))]) [] [] =
      .ok (.integer (-2147483648)) := rfl
  have hunsigned : Expression.evaluate 0 (.unaryOp .neg (.literal (.unsignedSmallInt 0))) [] [] =
      .error (.typeMismatch "numeric" (DataType.name .unsignedSmallInt)) := rfl
  rw [hadd, hhigh, hzero, hneg, habs, hunsigned]
  refine ⟨?_, ?_, ?_, ?_, ?_, ?_⟩
  · exact mt exactOrError_ok_iff.mp (by decide)
  · exact mt exactOrError_ok_iff.mp (by decide)
  · rintro ⟨e, he, -⟩
    cases he
  · exact mt exactOrError_ok_iff.mp (by decide)
  · exact mt exactOrError_ok_iff.mp (by decide)
  · intro h
    exact h 0 rfl (by decide)

end Samples

end HelionDb
