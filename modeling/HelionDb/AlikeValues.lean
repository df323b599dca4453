import HelionDb.KeyEquality
import HelionDb.Relational

/-! Integers of different types. The values of the six integer types are ordered as the integers that they are, so that
`datum_eq` is an equivalence on them and `<` is transitive, across types too. Two values are alike when they are the same
or the same integer; what compares values or prints them does not tell alike values apart. -/

namespace HelionDb

open Relational (SameOutcome)

/-- A value of one of the integer types. -/
structure IntegerDatum where
  value : Datum
  isInteger : value.intValue.isSome = true

namespace IntegerDatum

/-- The integer that it is. -/
def toInt (datum : IntegerDatum) : Int := datum.value.intValue.get datum.isInteger

theorem intValue_eq (datum : IntegerDatum) : datum.value.intValue = some datum.toInt := (Option.some_get _).symm

theorem compareDatums_eq (left right : IntegerDatum) :
    left.value.compareDatums right.value = some (compare left.toInt right.toInt) :=
  Datum.compareDatums_of_intValue left.intValue_eq right.intValue_eq

theorem datumEq_iff (left right : IntegerDatum) : left.value.datumEq right.value = true ↔ left.toInt = right.toInt := by
  rw [Datum.datumEq, compareDatums_eq, decide_eq_true_iff, Option.some_inj, compare_eq_iff_eq]

theorem compareDatums_lt_iff (left right : IntegerDatum) :
    left.value.compareDatums right.value = some .lt ↔ left.toInt < right.toInt := by
  rw [compareDatums_eq, Option.some_inj, compare_lt_iff_lt]

theorem equivalence_datumEq : Equivalence fun left right : IntegerDatum => left.value.datumEq right.value = true := by
  simp only [datumEq_iff]
  exact ⟨fun _ => rfl, fun h => h.symm, fun h hnext => h.trans hnext⟩

theorem compareDatums_lt_trans (left middle right : IntegerDatum)
    (h : left.value.compareDatums middle.value = some .lt) (hnext : middle.value.compareDatums right.value = some .lt) :
    left.value.compareDatums right.value = some .lt := by
  rw [compareDatums_lt_iff] at h hnext ⊢
  exact h.trans hnext

end IntegerDatum

namespace Datum

/-! ### Alike values -/

/-- The same value, or the same integer in two types. -/
def Alike (left right : Datum) : Prop := left = right ∨ ∃ n, left.intValue = some n ∧ right.intValue = some n

section Integers

variable {value : Datum} {n : Int}

theorem isNull_of_intValue (h : value.intValue = some n) : value.isNull = false := by
  cases value <;> first | rfl | cases h

theorem datumToBool_of_intValue (h : value.intValue = some n) : value.datumToBool = decide (n ≠ 0) := by
  cases value <;> cases h <;> simp only [datumToBool, ne_eq, decide_eq_decide, not_iff_not] <;>
    first
      | exact Int16.toInt_inj.symm
      | exact Int32.toInt_inj.symm
      | exact Int64.toInt_inj.symm
      | (rw [Int.natCast_eq_zero]; first
          | exact UInt16.toNat_inj.symm
          | exact UInt32.toNat_inj.symm
          | exact UInt64.toNat_inj.symm)

theorem datumToString_of_intValue [Rendering] (h : value.intValue = some n) : value.datumToString = toString n := by
  cases value <;> cases h <;> rfl

theorem asF64_of_intValue (h : value.intValue = some n) :
    value.numericRank.map NumericRank.asF64 = some (Float.ofInt n) := by
  cases value <;> cases h <;> rfl

/-- How an integer compares with a value of no integer type: as a number with a float, and not with anything else. -/
theorem compareDatums_of_intValue_left {other : Datum} (h : value.intValue = some n) (hother : other.intValue = none) :
    value.compareDatums other =
      match other with
      | real bits => partialCmp (.ofInt n) (realToF64 bits)
      | double bits => partialCmp (.ofInt n) (doubleToF64 bits)
      | _ => none := by
  cases value <;> cases h <;> cases other <;> first | rfl | cases hother

theorem compareDatums_of_intValue_right {other : Datum} (h : value.intValue = some n) (hother : other.intValue = none) :
    other.compareDatums value =
      match other with
      | real bits => partialCmp (realToF64 bits) (.ofInt n)
      | double bits => partialCmp (doubleToF64 bits) (.ofInt n)
      | _ => none := by
  cases value <;> cases h <;> cases other <;> first | rfl | cases hother

end Integers

section Alike

variable {left right other other' : Datum}

@[simp] theorem Alike.refl (value : Datum) : Alike value value := .inl rfl

/-- What is read off integers by their value alone is the same on alike values. -/
theorem Alike.apply_eq {β : Type} {f : Datum → β} {onIntegers : Int → β}
    (hf : ∀ {value : Datum} {n : Int}, value.intValue = some n → f value = onIntegers n) (h : Alike left right) :
    f left = f right := by
  rcases h with rfl | ⟨n, hleft, hright⟩
  · rfl
  · rw [hf hleft, hf hright]

theorem Alike.isNull_eq (h : Alike left right) : left.isNull = right.isNull :=
  h.apply_eq isNull_of_intValue

theorem Alike.datumToBool_eq (h : Alike left right) : left.datumToBool = right.datumToBool :=
  h.apply_eq datumToBool_of_intValue

theorem Alike.datumToString_eq [Rendering] (h : Alike left right) : left.datumToString = right.datumToString :=
  h.apply_eq datumToString_of_intValue

theorem Alike.asF64_eq (h : Alike left right) :
    left.numericRank.map NumericRank.asF64 = right.numericRank.map NumericRank.asF64 :=
  h.apply_eq asF64_of_intValue

theorem Alike.compareDatums_left (h : Alike left right) (other : Datum) :
    left.compareDatums other = right.compareDatums other := by
  cases hother : other.intValue with
  | some m => exact h.apply_eq fun hvalue => compareDatums_of_intValue hvalue hother
  | none => exact h.apply_eq fun hvalue => compareDatums_of_intValue_left hvalue hother

theorem Alike.compareDatums_right (h : Alike left right) (other : Datum) :
    other.compareDatums left = other.compareDatums right := by
  cases hother : other.intValue with
  | some m => exact h.apply_eq fun hvalue => compareDatums_of_intValue hother hvalue
  | none => exact h.apply_eq fun hvalue => compareDatums_of_intValue_right hvalue hother

theorem Alike.compareDatums_eq (h : Alike left right) (hother : Alike other other') :
    left.compareDatums other = right.compareDatums other' :=
  (h.compareDatums_left other).trans (hother.compareDatums_right right)

theorem Alike.datumEq_eq (h : Alike left right) (hother : Alike other other') :
    left.datumEq other = right.datumEq other' := by
  rw [datumEq, datumEq, h.compareDatums_eq hother]

theorem Alike.orEqual_eq (h : Alike left right) (hother : Alike other other') :
    left.orEqual other = right.orEqual other' := by
  rw [orEqual, orEqual, h.compareDatums_eq hother]

end Alike

end Datum

end HelionDb
