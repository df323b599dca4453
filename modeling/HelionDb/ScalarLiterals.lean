import HelionDb.SchemaInvariant
import HelionDb.SqlExpr
import Mathlib.Data.Nat.Cast.Order.Ring
import Mathlib.Algebra.Order.Ring.Int

/-! JSON scalars and the SQL literals that write them. A structured request casts a scalar to the type of its column,
and SQL checks its literal against it. The two agree on a column, and keep to its constraints, exactly for the common
scalars of the column. -/

namespace HelionDb

/-- The SQL literal that writes a JSON scalar. -/
inductive Corresponds : Json → SqlExpr → Prop
  | null : Corresponds .null (.value .null)
  | bool (b : Bool) : Corresponds (.bool b) (.value (.boolean b))
  | string (s : String) : Corresponds (.string s) (.value (.singleQuotedString s))
  | posInt (value : UInt64) (text : String) (htext : decimalValue text = some value.toNat) :
      Corresponds (.number (.posInt value)) (.value (.number text))
  | negInt (value : Int64) (negative : value < 0) (text : String)
      (htext : decimalValue text = some value.toInt.natAbs) :
      Corresponds (.number (.negInt value negative)) (.unaryOp .minus (.value (.number text)))
  | float (bits : BitVec 64) (finite : bits.toNat / 2 ^ 52 % 2 ^ 11 ≠ 2047) (text : String)
      (hpoint : hasPoint text = true) (htext : parseF64 text = some bits) :
      Corresponds (.number (.float bits finite)) (.value (.number text))
  | negFloat (bits : BitVec 64) (finite : bits.toNat / 2 ^ 52 % 2 ^ 11 ≠ 2047) (text : String)
      (hpoint : hasPoint text = true) (htext : parseF64 text = some (negateBits bits)) :
      Corresponds (.number (.float bits finite)) (.unaryOp .minus (.value (.number text)))

/-- The integers of a type. -/
def DataType.integerRange : DataType → Option (Int × Int)
  | .smallInt => some (-2 ^ 15, 2 ^ 15 - 1)
  | .unsignedSmallInt => some (0, 2 ^ 16 - 1)
  | .integer => some (-2 ^ 31, 2 ^ 31 - 1)
  | .unsignedInteger => some (0, 2 ^ 32 - 1)
  | .bigInt => some (-2 ^ 63, 2 ^ 63 - 1)
  | .unsignedBigInt => some (0, 2 ^ 64 - 1)
  | _ => none

/-- The types of texts. -/
def DataType.isText : DataType → Bool
  | .text | .varChar _ | .char _ => true
  | _ => false

/-- The integer that a JSON value is. -/
def Json.toInt : Json → Option Int
  | .number (.posInt value) => some value.toNat
  | .number (.negInt value _) => some value.toInt
  | _ => none

/-- An integer outside the range of the type of its column. -/
def Json.OutOfRange (column : ColumnMeta) (value : Json) : Prop :=
  ∃ i range, value.toInt = some i ∧ column.dataType.integerRange = some range ∧ ¬ (range.1 ≤ i ∧ i ≤ range.2)

/-- The scalars that both kinds of request store alike in a column. -/
def Json.Common (column : ColumnMeta) : Json → Prop
  | .null => column.nullable = true
  | .bool _ => column.dataType = .boolean
  | .number (.posInt value) =>
      column.dataType = .integer ∧ value.toNat ≤ 2 ^ 31 - 1 ∨ column.dataType = .bigInt ∧ value.toNat ≤ 2 ^ 63 - 1
  | .number (.negInt value _) => (column.dataType = .integer ∨ column.dataType = .bigInt) ∧ -2 ^ 31 ≤ value.toInt
  | .number (.float _ _) => column.dataType = .double
  | .string _ => column.dataType.isText = true
  | .array _ | .object _ => False

instance (column : ColumnMeta) (value : Json) : Decidable (value.Common column) :=
  match value with
  | .null => inferInstanceAs (Decidable (column.nullable = true))
  | .bool _ => inferInstanceAs (Decidable (column.dataType = .boolean))
  | .number (.float _ _) => inferInstanceAs (Decidable (column.dataType = .double))
  | .string _ => inferInstanceAs (Decidable (column.dataType.isText = true))
  | .number (.posInt _) => inferInstanceAs (Decidable (_ ∧ _ ∨ _ ∧ _))
  | .number (.negInt _ _) => inferInstanceAs (Decidable ((_ ∨ _) ∧ _))
  | .array _ | .object _ => inferInstanceAs (Decidable False)

/-- A column stores the same for a scalar and for a literal, lets it in, and could hold the integer. -/
structure StoredAlike (column : ColumnMeta) (value : Json) (literal : Datum) : Prop where
  coerced : coerceDatum literal column.dataType = .ok (value.toDatumAs column.dataType)
  valid : validateColumn column (value.toDatumAs column.dataType) = .ok ()
  inRange : ¬ value.OutOfRange column

theorem storedAlike_iff {column : ColumnMeta} {value : Json} {literal : Datum} :
    StoredAlike column value literal ↔ coerceDatum literal column.dataType = .ok (value.toDatumAs column.dataType) ∧
      validateColumn column (value.toDatumAs column.dataType) = .ok () ∧ ¬ value.OutOfRange column :=
  ⟨fun h => ⟨h.coerced, h.valid, h.inRange⟩, fun h => ⟨h.1, h.2.1, h.2.2⟩⟩

theorem negateBits_negateBits (bits : BitVec 64) : negateBits (negateBits bits) = bits := by
  rw [negateBits, negateBits, BitVec.xor_assoc, BitVec.xor_self, BitVec.xor_zero]

theorem toInt_ofNat_of_le {value : Nat} (hvalue : value ≤ 2 ^ 63 - 1) : (Int64.ofNat value).toInt = value :=
  Int64.toInt_ofNat_of_lt (by omega)

theorem not_outOfRange {column : ColumnMeta} {value : Json} (hvalue : value.toInt = none) :
    ¬ value.OutOfRange column := by
  rintro ⟨i, range, hi, -⟩
  rw [hvalue] at hi
  cases hi

/-! ### Scalar by scalar -/

section Scalars

variable {column : ColumnMeta}

theorem storedAlike_null : StoredAlike column .null .null ↔ Json.Common column .null := by
  have hrange : ¬ Json.null.OutOfRange column := not_outOfRange rfl
  cases hnullable : column.nullable <;>
    simp [storedAlike_iff, Json.Common, hnullable, coerceDatum, Json.toDatumAs, validateColumn, Datum.isNull, hrange]

/-- Of a literal that is not NULL, the column takes what it stores. -/
theorem storedAlike_iff_of_ne_null {value : Json} {literal : Datum} (hliteral : literal ≠ .null) :
    StoredAlike column value literal ↔
      coerceDatum literal column.dataType = .ok (value.toDatumAs column.dataType) ∧ ¬ value.OutOfRange column := by
  constructor
  · intro h
    exact ⟨h.coerced, h.inRange⟩
  · rintro ⟨hcoerced, hrange⟩
    exact ⟨hcoerced, (takes_coerced hcoerced fun hnull => absurd hnull hliteral).1, hrange⟩

theorem storedAlike_bool (b : Bool) : StoredAlike column (.bool b) (.boolean b) ↔ Json.Common column (.bool b) := by
  have hrange : ¬ (Json.bool b).OutOfRange column := not_outOfRange rfl
  have hliteral : Datum.boolean b ≠ .null := nofun
  rw [storedAlike_iff_of_ne_null hliteral, and_iff_left hrange, Json.Common]
  cases column.dataType <;> simp [coerceDatum, coerceDatum.mismatch, Json.toDatumAs]

theorem storedAlike_string (s : String) :
    StoredAlike column (.string s) (.text s) ↔ Json.Common column (.string s) := by
  have hrange : ¬ (Json.string s).OutOfRange column := not_outOfRange rfl
  have hliteral : Datum.text s ≠ .null := nofun
  rw [storedAlike_iff_of_ne_null hliteral, and_iff_left hrange, Json.Common]
  cases column.dataType <;> simp [DataType.isText, coerceDatum, coerceDatum.mismatch, Json.toDatumAs]

theorem storedAlike_float {bits : BitVec 64} (finite : bits.toNat / 2 ^ 52 % 2 ^ 11 ≠ 2047) :
    StoredAlike column (.number (.float bits finite)) (.double bits) ↔
      Json.Common column (.number (.float bits finite)) := by
  have hrange : ¬ (Json.number (.float bits finite)).OutOfRange column := not_outOfRange rfl
  have hliteral : Datum.double bits ≠ .null := nofun
  rw [storedAlike_iff_of_ne_null hliteral, and_iff_left hrange, Json.Common]
  cases column.dataType <;> simp [coerceDatum, coerceDatum.mismatch, Json.toDatumAs, JsonNumber.asF64]

/-- A JSON number is never stored as a NULL. -/
theorem not_storedAlike_null (n : JsonNumber) : ¬ StoredAlike column (.number n) .null := by
  intro h
  have hcoerced := h.coerced
  revert hcoerced
  cases column.dataType <;> simp [coerceDatum, Json.toDatumAs]

theorem storedAlike_posInt (value : UInt64) (hvalue : value.toNat ≤ 2 ^ 63 - 1) :
    StoredAlike column (.number (.posInt value)) (.bigInt (.ofNat value.toNat)) ↔
      Json.Common column (.number (.posInt value)) := by
  have hint := toInt_ofNat_of_le hvalue
  have hasI64 : (JsonNumber.posInt value).asI64 = some (.ofNat value.toNat) := if_pos hvalue
  have hrange : (Json.number (.posInt value)).toInt = some (value.toNat : Int) := rfl
  cases htype : column.dataType <;>
    simp [storedAlike_iff, Json.Common, htype, coerceDatum, coerceDatum.mismatch, Json.toDatumAs, validateColumn,
      Datum.isNull, typesCompatible, Datum.dataType, hasI64, hint, Json.OutOfRange, hrange, DataType.integerRange,
      Json.castI32]

/-- The low 32 bits of a negative integer give it back unless it is too small. -/
theorem wrapped_eq_iff {value : Int64} (negative : value < 0) :
    Int64.ofInt (value.toInt.bmod 4294967296) = value ↔ -2147483648 ≤ value.toInt := by
  have hneg : value.toInt < 0 := Int64.lt_iff_toInt_lt.mp negative
  have hlow : -2147483648 ≤ value.toInt.bmod 4294967296 := @Int.le_bmod value.toInt 4294967296 (by decide)
  have hhigh : value.toInt.bmod 4294967296 < 2147483648 := @Int.bmod_lt value.toInt 4294967296 (by decide)
  have hsame : (Int64.ofInt (value.toInt.bmod 4294967296)).toInt = value.toInt.bmod 4294967296 :=
    Int64.toInt_ofInt_of_le (by omega) (by omega)
  rw [← Int64.toInt_inj, hsame]
  constructor
  · intro h
    omega
  · intro h
    exact Int.bmod_eq_of_le (by omega) (by omega)

theorem storedAlike_negInt (value : Int64) (negative : value < 0) :
    StoredAlike column (.number (.negInt value negative)) (.integer (.ofInt value.toInt)) ↔
      Json.Common column (.number (.negInt value negative)) := by
  have hneg : value.toInt < 0 := Int64.lt_iff_toInt_lt.mp negative
  have hlow : -2 ^ 63 ≤ value.toInt := value.le_toInt
  have hasI64 : (JsonNumber.negInt value negative).asI64 = some value := rfl
  have hrange : (Json.number (.negInt value negative)).toInt = some value.toInt := rfl
  cases htype : column.dataType <;>
    simp [storedAlike_iff, Json.Common, htype, coerceDatum, coerceDatum.mismatch, Json.toDatumAs, validateColumn,
      Datum.isNull, typesCompatible, Datum.dataType, hasI64, Json.OutOfRange, hrange, DataType.integerRange,
      Json.castI32]
  · omega
  · rw [wrapped_eq_iff negative]
    omega

variable [CaseMapping] [SqlExprText] {uuidv7 : BitVec 128}

/-- The literal of a scalar is stored like the scalar. -/
def LiteralStoredAlike (column : ColumnMeta) (uuidv7 : BitVec 128) (value : Json) (expr : SqlExpr) : Prop :=
  ∃ literal, sqlExprToDatum uuidv7 expr = .ok literal ∧ StoredAlike column value literal

theorem literalStoredAlike_of_ok {value : Json} {expr : SqlExpr} {literal : Datum}
    (hliteral : sqlExprToDatum uuidv7 expr = .ok literal) :
    LiteralStoredAlike column uuidv7 value expr ↔ StoredAlike column value literal := by
  constructor
  · rintro ⟨other, hother, halike⟩
    rw [Except.ok.inj (hliteral.symm.trans hother)]
    exact halike
  · exact fun halike => ⟨literal, hliteral, halike⟩

/-- A scalar and its literal are stored alike exactly when the scalar is common. -/
theorem literalStoredAlike_iff {value : Json} {expr : SqlExpr} (h : Corresponds value expr) :
    LiteralStoredAlike column uuidv7 value expr ↔ value.Common column := by
  cases h with
  | null => exact (literalStoredAlike_of_ok rfl).trans storedAlike_null
  | bool b => exact (literalStoredAlike_of_ok rfl).trans (storedAlike_bool b)
  | string s => exact (literalStoredAlike_of_ok rfl).trans (storedAlike_string s)
  | posInt value text htext =>
      have hliteral : sqlExprToDatum uuidv7 (.value (.number text)) = .ok _ :=
        congrArg Except.ok (sqlValueToDatum_number htext)
      refine (literalStoredAlike_of_ok hliteral).trans ?_
      split
      · rename_i hvalue
        exact storedAlike_posInt value hvalue
      · rename_i hvalue
        refine iff_of_false (not_storedAlike_null _) ?_
        rw [Json.Common]
        omega
  | negInt value negative text htext =>
      have hneg : value.toInt < 0 := Int64.lt_iff_toInt_lt.mp negative
      by_cases hvalue : value.toInt.natAbs ≤ 2 ^ 63 - 1
      · have hliteral : sqlExprToDatum uuidv7 (.unaryOp .minus (.value (.number text))) =
            .ok (.integer (.ofInt value.toInt)) := by
          simp only [sqlExprToDatum, hasPoint_eq_false htext, parseI64_of_le htext hvalue, negatedI32,
            toInt_ofNat_of_le hvalue, Bool.false_eq_true, if_false]
          congr 3
          omega
        exact (literalStoredAlike_of_ok hliteral).trans (storedAlike_negInt value negative)
      · have hliteral : sqlExprToDatum uuidv7 (.unaryOp .minus (.value (.number text))) =
            .error (.parse ("Invalid integer: " ++ text)) := by
          simp only [sqlExprToDatum, hasPoint_eq_false htext, parseI64_of_gt htext (not_le.mp hvalue),
            Bool.false_eq_true, if_false]
        refine iff_of_false ?_ ?_
        · rintro ⟨literal, hok, -⟩
          rw [hliteral] at hok
          cases hok
        · rw [Json.Common]
          omega
  | float bits finite text hpoint htext =>
      have hliteral : sqlExprToDatum uuidv7 (.value (.number text)) = .ok (.double bits) := by
        simp only [sqlExprToDatum, sqlValueToDatum, hpoint, htext, if_true, Option.map_some, Option.getD_some]
      exact (literalStoredAlike_of_ok hliteral).trans (storedAlike_float finite)
  | negFloat bits finite text hpoint htext =>
      have hliteral : sqlExprToDatum uuidv7 (.unaryOp .minus (.value (.number text))) = .ok (.double bits) := by
        simp only [sqlExprToDatum, hpoint, htext, if_true, negateBits_negateBits]
      exact (literalStoredAlike_of_ok hliteral).trans (storedAlike_float finite)

end Scalars

end HelionDb
