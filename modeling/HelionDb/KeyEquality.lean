import HelionDb.Eval

/-! Equal keys and `datum_eq`. An index compares keys as they are stored, `datum_eq` compares integers of any width and
does not compare everything. On a value of a column and a literal coerced to its type the two differ in floats, and in
the values that `datum_eq` has no order for: NULL, CHAR, dates and times, binary data. -/

namespace HelionDb

namespace Datum

/-- The integer that a value of an integer type is. -/
def intValue : Datum → Option Int
  | smallInt v => some v.toInt
  | unsignedSmallInt v => some v.toNat
  | integer v => some v.toInt
  | unsignedInteger v => some v.toNat
  | bigInt v => some v.toInt
  | unsignedBigInt v => some v.toNat
  | _ => none

theorem compare_natCast (left right : Nat) : compare (left : Int) (right : Int) = compare left right := by
  rcases lt_trichotomy left right with h | h | h
  · rw [compare_lt_iff_lt.mpr h, compare_lt_iff_lt.mpr (by exact_mod_cast h)]
  · subst h
    rw [compare_eq_iff_eq.mpr rfl, compare_eq_iff_eq.mpr rfl]
  · rw [compare_gt_iff_gt.mpr h, compare_gt_iff_gt.mpr (by exact_mod_cast h)]

theorem compare_signed_unsigned (left : Int) (right : Nat) :
    (if left < 0 then some .lt else some (compare left.toNat right)) = some (compare left (right : Int)) := by
  split
  · rename_i hneg
    rw [compare_lt_iff_lt.mpr (by omega)]
  · rename_i hpos
    rw [← compare_natCast, Int.toNat_of_nonneg (by omega)]

theorem compare_unsigned_signed (left : Nat) (right : Int) :
    (if right < 0 then some .gt else some (compare left right.toNat)) = some (compare (left : Int) right) := by
  split
  · rename_i hneg
    rw [compare_gt_iff_gt.mpr (by omega)]
  · rename_i hpos
    rw [← compare_natCast, Int.toNat_of_nonneg (by omega)]

/-- Integers are compared as such, whatever their types. -/
theorem compareDatums_of_intValue {left right : Datum} {m n : Int} (hleft : left.intValue = some m)
    (hright : right.intValue = some n) : left.compareDatums right = some (compare m n) := by
  cases left <;> cases hleft <;> cases right <;> cases hright <;>
    first
      | rfl
      | exact congrArg some (compare_natCast _ _).symm
      | exact compare_signed_unsigned _ _
      | exact compare_unsigned_signed _ _

theorem eq_of_intValue {left right : Datum} {n : Int} (hleft : left.intValue = some n) (hright : right.intValue = some n)
    (htype : left.dataType = right.dataType) : left = right := by
  cases left <;> cases hleft <;> cases right <;> cases htype <;>
    simp only [intValue, Option.some.injEq, Int.natCast_inj] at hright <;>
    first
      | rw [Int16.toInt_inj.mp hright]
      | rw [Int32.toInt_inj.mp hright]
      | rw [Int64.toInt_inj.mp hright]
      | rw [UInt16.toNat_inj.mp hright]
      | rw [UInt32.toNat_inj.mp hright]
      | rw [UInt64.toNat_inj.mp hright]

theorem toNat_ofNat16 {n : Int} (hlow : 0 ≤ n) (hhigh : n < 2 ^ 16) : ((UInt16.ofNat n.toNat).toNat : Int) = n := by
  rw [UInt16.toNat_ofNat_of_lt' (by simp only [UInt16.size]; omega), Int.toNat_of_nonneg hlow]

theorem toNat_ofNat32 {n : Int} (hlow : 0 ≤ n) (hhigh : n < 2 ^ 32) : ((UInt32.ofNat n.toNat).toNat : Int) = n := by
  rw [UInt32.toNat_ofNat_of_lt' (by simp only [UInt32.size]; omega), Int.toNat_of_nonneg hlow]

theorem toNat_ofNat64 {n : Int} (hlow : 0 ≤ n) (hhigh : n < 2 ^ 64) : ((UInt64.ofNat n.toNat).toNat : Int) = n := by
  rw [UInt64.toNat_ofNat_of_lt' (by simp only [UInt64.size]; omega), Int.toNat_of_nonneg hlow]

/-- Coercion between integer types keeps the integer. -/
theorem coerceDatum_intValue {literal coerced : Datum} {target : DataType} {n : Int}
    (hvalue : literal.intValue = some n) (hcoerced : coerceDatum literal target = .ok coerced) :
    coerced.intValue = some n ∧ coerced.dataType = target := by
  cases literal with
  | smallInt v =>
      obtain rfl := Option.some.inj hvalue
      have hlow := v.le_toInt
      have hhigh := v.toInt_lt
      have hsign : 0 ≤ v ↔ 0 ≤ v.toInt := Int16.le_iff_toInt_le
      cases target <;>
        first
          | cases hcoerced
          | simp only [coerceDatum, hsign] at hcoerced
            split at hcoerced <;> cases hcoerced
      all_goals refine ⟨congrArg some ?_, rfl⟩
      · rfl
      · exact toNat_ofNat16 (by omega) (by omega)
      · exact Int32.toInt_ofInt_of_le (by omega) (by omega)
      · exact toNat_ofNat32 (by omega) (by omega)
      · exact Int64.toInt_ofInt_of_le (by omega) (by omega)
      · exact toNat_ofNat64 (by omega) (by omega)
  | unsignedSmallInt v =>
      obtain rfl := Option.some.inj hvalue
      have hhigh := v.toNat_lt
      cases target <;> cases hcoerced
      all_goals refine ⟨congrArg some ?_, rfl⟩
      · rfl
      · exact Int32.toInt_ofInt_of_le (by omega) (by omega)
      · exact @toNat_ofNat32 v.toNat (by omega) (by omega)
      · exact Int64.toInt_ofInt_of_le (by omega) (by omega)
      · exact @toNat_ofNat64 v.toNat (by omega) (by omega)
  | integer v =>
      obtain rfl := Option.some.inj hvalue
      have hlow := v.le_toInt
      have hhigh := v.toInt_lt
      have hsign : 0 ≤ v ↔ 0 ≤ v.toInt := Int32.le_iff_toInt_le
      cases target <;>
        first
          | cases hcoerced
          | simp only [coerceDatum, hsign] at hcoerced
            split at hcoerced <;> cases hcoerced
      all_goals refine ⟨congrArg some ?_, rfl⟩
      · rfl
      · exact toNat_ofNat32 (by omega) (by omega)
      · exact Int64.toInt_ofInt_of_le (by omega) (by omega)
      · exact toNat_ofNat64 (by omega) (by omega)
  | unsignedInteger v =>
      obtain rfl := Option.some.inj hvalue
      have hhigh := v.toNat_lt
      cases target <;>
        first
          | cases hcoerced
          | simp only [coerceDatum] at hcoerced
            split at hcoerced <;> cases hcoerced
      all_goals refine ⟨congrArg some ?_, rfl⟩
      · exact Int32.toInt_ofInt_of_le (by omega) (by omega)
      · rfl
      · exact Int64.toInt_ofInt_of_le (by omega) (by omega)
      · exact @toNat_ofNat64 v.toNat (by omega) (by omega)
  | bigInt v =>
      obtain rfl := Option.some.inj hvalue
      have hlow := v.le_toInt
      have hhigh := v.toInt_lt
      have hsign : 0 ≤ v ↔ 0 ≤ v.toInt := Int64.le_iff_toInt_le
      cases target <;>
        first
          | cases hcoerced
          | simp only [coerceDatum, hsign] at hcoerced
            split at hcoerced <;> cases hcoerced
      all_goals refine ⟨congrArg some ?_, rfl⟩
      · exact Int32.toInt_ofInt_of_le (by omega) (by omega)
      · rfl
      · exact toNat_ofNat64 (by omega) (by omega)
  | unsignedBigInt v =>
      obtain rfl := Option.some.inj hvalue
      have hhigh := v.toNat_lt
      cases target <;>
        first
          | cases hcoerced
          | simp only [coerceDatum] at hcoerced
            split at hcoerced <;> cases hcoerced
      all_goals refine ⟨congrArg some ?_, rfl⟩
      · exact Int32.toInt_ofInt_of_le (by omega) (by omega)
      · exact Int64.toInt_ofInt_of_le (by omega) (by omega)
      · rfl
  | _ => cases hvalue

theorem compareDatums_null_right (left : Datum) : left.compareDatums .null = none := by cases left <;> rfl

/-- Where a value is stored in a column that the literal is coerced to, and it is no float, `datum_eq` holds exactly of
equal keys among the values that are compared at all. -/
theorem datumEq_iff_key {value literal coerced : Datum} {target : DataType}
    (hstored : coerceDatum value target = .ok value) (hcoerced : coerceDatum literal target = .ok coerced)
    (hreal : target ≠ .real) (hdouble : target ≠ .double) :
    (value.datumEq literal = true ↔ value = coerced ∧ (value.compareDatums literal).isSome = true) ∧
      (literal.datumEq value = true ↔ value = coerced ∧ (value.compareDatums literal).isSome = true) := by
  rw [datumEq, datumEq, decide_eq_true_iff, decide_eq_true_iff]
  cases hvalue : value.intValue with
  | some m =>
      have htype := (coerceDatum_intValue hvalue hstored).2
      cases hliteral : literal.intValue with
      | some n =>
          obtain ⟨hkey, hkeyType⟩ := coerceDatum_intValue hliteral hcoerced
          have hsame : m = n ↔ value = coerced := by
            constructor
            · rintro rfl
              exact eq_of_intValue hvalue hkey (htype.trans hkeyType.symm)
            · rintro rfl
              exact Option.some.inj (hvalue.symm.trans hkey)
          rw [compareDatums_of_intValue hvalue hliteral, compareDatums_of_intValue hliteral hvalue, Option.some.injEq,
            Option.some.injEq, compare_eq_iff_eq, compare_eq_iff_eq, eq_comm (a := n), hsame]
          simp
      | none =>
          have hnull : literal = .null := by
            subst htype
            cases value <;> cases hvalue <;> cases literal <;>
              first
                | rfl
                | cases hliteral
                  done
                | cases hcoerced
          rw [hnull, compareDatums_null_right]
          simp [compareDatums]
  | none =>
      cases value <;> cases hvalue <;> cases target <;>
        first
          | exact absurd rfl hreal
          | exact absurd rfl hdouble
          | cases hstored
          | simp only [coerceDatum] at hstored
            split at hstored <;> cases hstored
      all_goals
        cases literal <;>
          first
            | cases hcoerced
              done
            | cases hcoerced
              simp [compareDatums, isNumeric, BitVec.toNat_inj]
              try exact eq_comm
            | simp [compareDatums, isNumeric]

end Datum

end HelionDb
