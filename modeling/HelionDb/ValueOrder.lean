import HelionDb.Comparators
import HelionDb.KeyEquality

/-! How the evaluator compares two values of one column, beside the order of index keys. The table of `compare_datums`
has no entry for a VARCHAR beside a VARCHAR, and none for CHAR, binary data, dates and times, so on the columns of these
types no comparison holds; on all other columns, floats apart, it is the total order of the index keys. -/

namespace HelionDb

/-- A type without its length. -/
def DataType.unsized : DataType → DataType
  | .varChar _ => .varChar none
  | .char _ => .char none
  | other => other

namespace Datum

/-- `variant_idx`. -/
def variantIdx : Datum → Nat
  | boolean _ => 0
  | smallInt _ => 1
  | unsignedSmallInt _ => 2
  | integer _ => 3
  | unsignedInteger _ => 4
  | bigInt _ => 5
  | unsignedBigInt _ => 6
  | real _ => 7
  | double _ => 8
  | varChar _ => 9
  | char _ => 10
  | text _ => 11
  | binary _ => 12
  | date _ => 13
  | time _ => 14
  | timestamp _ => 15
  | timestampTz _ => 16
  | uuid _ => 17
  | uuidV7 _ => 18
  | null => 19

/-- The integer that `total_cmp` compares: the bits of a float, those of a negative one flipped behind the sign. -/
def totalKey {width : Nat} (bits : BitVec width) : Int :=
  if bits.msb then (bits ^^^ (BitVec.allOnes width >>> 1)).toInt else bits.toInt

/-- `Ord::cmp` of `Datum`. -/
def cmp (self other : Datum) : Ordering :=
  if self.variantIdx ≠ other.variantIdx then compare self.variantIdx other.variantIdx
  else
    match self, other with
    | boolean a, boolean b => compare a b
    | smallInt a, smallInt b => compare a.toInt b.toInt
    | unsignedSmallInt a, unsignedSmallInt b => compare a.toNat b.toNat
    | integer a, integer b => compare a.toInt b.toInt
    | unsignedInteger a, unsignedInteger b => compare a.toNat b.toNat
    | bigInt a, bigInt b => compare a.toInt b.toInt
    | unsignedBigInt a, unsignedBigInt b => compare a.toNat b.toNat
    | real a, real b => compare (totalKey a) (totalKey b)
    | double a, double b => compare (totalKey a) (totalKey b)
    | varChar a, varChar b => compare a b
    | char a, char b => compare a b
    | text a, text b => compare a b
    | binary a, binary b => List.compareLex compare a b
    | date a, date b => compare a b
    | time a, time b => compare a b
    | timestamp a, timestamp b => compare a b
    | timestampTz a, timestampTz b => compare a.toInt b.toInt
    | uuid a, uuid b => compare a.toNat b.toNat
    | uuidV7 a, uuidV7 b => compare a.toNat b.toNat
    | null, null => .eq
    | _, _ => compare self.variantIdx other.variantIdx

/-- A value that is not NULL and that a column of a type stores for some value. -/
def StoredIn (target : DataType) (stored : Datum) : Prop := stored ≠ null ∧ ∃ value, coerceDatum value target = .ok stored

theorem dataType_of_stored {target : DataType} {stored : Datum} (h : StoredIn target stored) :
    stored.dataType = target.unsized := by
  obtain ⟨hnull, value, hvalue⟩ := h
  have hrefused : coerceDatum.mismatch value target ≠ .ok stored := nofun
  unfold coerceDatum at hvalue
  split at hvalue
  case h_1 => exact absurd (Except.ok.inj hvalue).symm hnull
  all_goals
    first
      | (cases hvalue; rfl)
      | exact absurd hvalue hrefused
      | (split at hvalue
         · cases hvalue; rfl
         · cases hvalue)

/-- The comparison of the evaluator is a total order on the values of a column, the one of the index keys. -/
structure ComparesTotally (target : DataType) : Prop extends
    Comparator.OrdersTotally compareDatums (StoredIn target) where
  asKeys : ∀ a b, StoredIn target a → StoredIn target b → a.compareDatums b = some (a.cmp b)

end Datum

/-- A type whose values `compare_datums` has an entry for. -/
def DataType.comparable : DataType → Bool
  | .varChar _ | .char _ | .binary | .date | .time | .timestamp | .timestampTz => false
  | _ => true

namespace Datum

/-! ### The types -/

/-- The column holds what one constructor makes, and both orders are that of a key of it. -/
theorem comparesTotally_of_key {β γ : Type} [Ord β] [Std.TransOrd β] [Std.LawfulEqOrd β] {target : DataType}
    (make : γ → Datum) (key : γ → β) (hkey : Function.Injective key)
    (hmake : ∀ a : Datum, a.dataType = target.unsized → ∃ x, a = make x)
    (hcompare : ∀ x y, (make x).compareDatums (make y) = some (compare (key x) (key y)))
    (hcmp : ∀ x y, (make x).cmp (make y) = compare (key x) (key y)) : ComparesTotally target where
  toOrdersTotally := by
    apply Comparator.ordersTotally_of_key make key hkey _ hcompare
    intro a ha
    exact hmake a (dataType_of_stored ha)
  asKeys a b ha hb := by
    obtain ⟨x, rfl⟩ := hmake a (dataType_of_stored ha)
    obtain ⟨y, rfl⟩ := hmake b (dataType_of_stored hb)
    rw [hcompare, hcmp]

theorem not_storedIn_null (a : Datum) : ¬ StoredIn .null a := by
  intro ha
  have htype := dataType_of_stored ha
  cases a <;> cases htype
  exact ha.1 rfl

/-- A column of type NULL has no values, and every other comparable one those of its own constructor. -/
theorem comparesTotally_of_comparable {target : DataType} (htarget : target.comparable = true) (hreal : target ≠ .real)
    (hdouble : target ≠ .double) : ComparesTotally target := by
  cases target with
  | null =>
      exact
        { defined := fun a _ ha => absurd ha (not_storedIn_null a)
          reversed := fun a _ ha => absurd ha (not_storedIn_null a)
          same := fun a _ ha => absurd ha (not_storedIn_null a)
          transitive := fun a _ _ ha => absurd ha (not_storedIn_null a)
          asKeys := fun a _ ha => absurd ha (not_storedIn_null a) }
  | boolean =>
      apply comparesTotally_of_key boolean id Function.injective_id _ (fun _ _ => rfl) (fun _ _ => rfl)
      intro a ha
      cases a <;> cases ha
      exact ⟨_, rfl⟩
  | smallInt =>
      apply comparesTotally_of_key smallInt Int16.toInt (fun _ _ => Int16.toInt_inj.mp) _ (fun _ _ => rfl) (fun _ _ => rfl)
      intro a ha
      cases a <;> cases ha
      exact ⟨_, rfl⟩
  | unsignedSmallInt =>
      apply comparesTotally_of_key unsignedSmallInt UInt16.toNat (fun _ _ => UInt16.toNat_inj.mp) _ (fun _ _ => rfl)
        (fun _ _ => rfl)
      intro a ha
      cases a <;> cases ha
      exact ⟨_, rfl⟩
  | integer =>
      apply comparesTotally_of_key integer Int32.toInt (fun _ _ => Int32.toInt_inj.mp) _ (fun _ _ => rfl) (fun _ _ => rfl)
      intro a ha
      cases a <;> cases ha
      exact ⟨_, rfl⟩
  | unsignedInteger =>
      apply comparesTotally_of_key unsignedInteger UInt32.toNat (fun _ _ => UInt32.toNat_inj.mp) _ (fun _ _ => rfl)
        (fun _ _ => rfl)
      intro a ha
      cases a <;> cases ha
      exact ⟨_, rfl⟩
  | bigInt =>
      apply comparesTotally_of_key bigInt Int64.toInt (fun _ _ => Int64.toInt_inj.mp) _ (fun _ _ => rfl) (fun _ _ => rfl)
      intro a ha
      cases a <;> cases ha
      exact ⟨_, rfl⟩
  | unsignedBigInt =>
      apply comparesTotally_of_key unsignedBigInt UInt64.toNat (fun _ _ => UInt64.toNat_inj.mp) _ (fun _ _ => rfl)
        (fun _ _ => rfl)
      intro a ha
      cases a <;> cases ha
      exact ⟨_, rfl⟩
  | text =>
      apply comparesTotally_of_key text id Function.injective_id _ (fun _ _ => rfl) (fun _ _ => rfl)
      intro a ha
      cases a <;> cases ha
      exact ⟨_, rfl⟩
  | uuid =>
      apply comparesTotally_of_key uuid BitVec.toNat (fun _ _ => BitVec.eq_of_toNat_eq) _ (fun _ _ => rfl) (fun _ _ => rfl)
      intro a ha
      cases a <;> cases ha
      exact ⟨_, rfl⟩
  | uuidV7 =>
      apply comparesTotally_of_key uuidV7 BitVec.toNat (fun _ _ => BitVec.eq_of_toNat_eq) _ (fun _ _ => rfl)
        (fun _ _ => rfl)
      intro a ha
      cases a <;> cases ha
      exact ⟨_, rfl⟩
  | real => exact absurd rfl hreal
  | double => exact absurd rfl hdouble
  | varChar _ | char _ | binary | date | time | timestamp | timestampTz => cases htarget

/-- A value of a type without an entry in the table is not even comparable with itself. -/
theorem exists_incomparable {target : DataType} (htarget : target.comparable = false) :
    ∃ a, StoredIn target a ∧ a.compareDatums a = none := by
  cases target with
  | varChar length => exact ⟨varChar "", ⟨nofun, text "", rfl⟩, rfl⟩
  | char length => exact ⟨char "", ⟨nofun, text "", rfl⟩, rfl⟩
  | binary => exact ⟨binary [], ⟨nofun, binary [], rfl⟩, rfl⟩
  | date => exact ⟨date 0, ⟨nofun, date 0, rfl⟩, rfl⟩
  | time => exact ⟨time 0, ⟨nofun, time 0, rfl⟩, rfl⟩
  | timestamp => exact ⟨timestamp 0, ⟨nofun, timestamp 0, rfl⟩, rfl⟩
  | timestampTz => exact ⟨timestampTz 0, ⟨nofun, timestampTz 0, rfl⟩, rfl⟩
  | _ => cases htarget

/-- Floats apart, the evaluator compares the values of a column totally, and in the order of the index keys, exactly if
its type has an entry in the table. -/
theorem comparesTotally_iff {target : DataType} (hreal : target ≠ .real) (hdouble : target ≠ .double) :
    ComparesTotally target ↔ target.comparable = true := by
  constructor
  · intro h
    by_contra hcomparable
    obtain ⟨a, ha, hnone⟩ := exists_incomparable (Bool.eq_false_iff.mpr hcomparable)
    have hdefined := h.defined a a ha ha
    rw [hnone] at hdefined
    cases hdefined
  · intro hcomparable
    exact comparesTotally_of_comparable hcomparable hreal hdouble

theorem comparesTotally_text : ComparesTotally .text ↔ DataType.comparable .text = true :=
  comparesTotally_iff nofun nofun

/-- A VARCHAR is not equal to itself. -/
theorem not_comparesTotally_varChar :
    StoredIn (.varChar (some 20)) (varChar "nut") ∧ (varChar "nut").compareDatums (varChar "nut") = none ∧
      (varChar "nut").cmp (varChar "nut") = .eq ∧ ¬ ComparesTotally (.varChar (some 20)) := by
  have hstored : StoredIn (.varChar (some 20)) (varChar "nut") := ⟨nofun, text "nut", rfl⟩
  have hnone : (varChar "nut").compareDatums (varChar "nut") = none := rfl
  refine ⟨hstored, hnone, by decide, fun h => ?_⟩
  have hdefined := h.defined _ _ hstored hstored
  rw [hnone] at hdefined
  cases hdefined

end Datum

end HelionDb
