import HelionDb.Executor
import HelionDb.NumericLiterals
import HelionDb.ScalarLiterals

/-! Integer literals and the ranges of numeric columns. The parser makes a value of the literal by its size and its sign,
the table of `coerce_datum` takes that value or refuses it, and the reference says which integers a type should take. -/

namespace HelionDb

/-- The integers that a numeric column takes: the range of its type, and 64 bits for a floating type. -/
def DataType.literalRange : DataType → Option (Int × Int)
  | .real | .double => some (-2 ^ 63, 2 ^ 64 - 1)
  | target => target.integerRange

/-- An integer lies in a range. -/
def InRange (range : Int × Int) (n : Int) : Prop := range.1 ≤ n ∧ n ≤ range.2

instance (range : Int × Int) (n : Int) : Decidable (InRange range n) := inferInstanceAs (Decidable (_ ∧ _))

/-- The number that a value is: an integer, or a double. -/
def Datum.number : Datum → Option (Int ⊕ Float)
  | .real bits => some (.inr (realToF64 bits))
  | .double bits => some (.inr (doubleToF64 bits))
  | value => value.intValue.map .inl

/-- A value denotes an integer, as an integer or as the nearest double. -/
def Datum.Denotes (value : Datum) (n : Int) : Prop :=
  value.number = some (.inl n) ∨ value.number = some (.inr (.ofInt n))

/-- The literals of an integer. -/
def WritesInteger (n : Int) (literal : SqlExpr) : Prop :=
  ∃ text, decimalValue text = some n.natAbs ∧ literal = numericLiteral (decide (n < 0)) text

/-- The statements that store a literal. -/
inductive StoringStatement where
  | insert
  | update

/-- What a statement stores in a column: the planner of an INSERT validates the row, that of an UPDATE does not. -/
def storeValue (statement : StoringStatement) (column : ColumnMeta) (value : Datum) : Except HelionError Datum := do
  let stored ← coerceDatum value column.dataType
  match statement with
  | .insert =>
      validateColumn column stored
      return stored
  | .update => return stored

/-- What a statement stores in a column for a literal. -/
def storeLiteral [CaseMapping] [SqlExprText] (uuidv7 : BitVec 128) (statement : StoringStatement) (column : ColumnMeta)
    (literal : SqlExpr) : Except HelionError Datum :=
  sqlExprToDatum uuidv7 literal >>= storeValue statement column

/-- An integer is accepted exactly if it lies in the range, and then stored. -/
def StoresInteger (range : Int × Int) (n : Int) (result : Except HelionError Datum) : Prop :=
  ((∃ stored, result = .ok stored) ↔ InRange range n) ∧ ∀ stored, result = .ok stored → stored.Denotes n

/-- The integers that are stored as they should be. Without a sign up to the greatest `i64`: those of the three types
that take a BIGINT, and what lies out of range. Above it the literal is NULL. With a sign, down to the least `i64` but one,
it is an `i32`, by the remainder. -/
def IntegerSafe (statement : StoringStatement) (column : ColumnMeta) (range : Int × Int) (n : Int) : Prop :=
  if 2 ^ 63 - 1 < n then statement = .insert ∧ column.nullable = false ∧ ¬ InRange range n
  else if 0 ≤ n then
    column.dataType ∈ [DataType.integer, .bigInt, .unsignedBigInt] ∨ ¬ InRange range n
  else if -(2 ^ 63 - 1) ≤ n then
    match column.dataType with
    | .integer | .bigInt => -2 ^ 31 ≤ n
    | .unsignedInteger | .unsignedBigInt => n.bmod (2 ^ 32) < 0
    | _ => ¬ InRange range n
  else ¬ InRange range n

theorem Datum.number_of_intValue {value : Datum} {n : Int} (hvalue : value.intValue = some n) :
    value.number = some (.inl n) := by
  cases value <;> cases hvalue <;> rfl

/-- Coercion keeps the number that a value is. -/
theorem coerceDatum_number {value stored : Datum} {target : DataType} (hcoerced : coerceDatum value target = .ok stored) :
    stored.number = value.number := by
  cases hvalue : value.intValue with
  | some n =>
      obtain ⟨hstored, -⟩ := Datum.coerceDatum_intValue hvalue hcoerced
      rw [Datum.number_of_intValue hvalue, Datum.number_of_intValue hstored]
  | none =>
      cases value <;> cases hvalue <;> cases target <;>
        first
          | (cases hcoerced <;> rfl)
          | simp only [coerceDatum] at hcoerced
            split at hcoerced <;> cases hcoerced
            rfl

/-- The columns that take a BIGINT. -/
theorem coerceDatum_bigInt_iff {v : Int64} {target : DataType} :
    (∃ stored, coerceDatum (.bigInt v) target = .ok stored) ↔
      target = .bigInt ∨ (target = .unsignedBigInt ∧ 0 ≤ v.toInt) ∨
        target = .integer ∧ -2 ^ 31 ≤ v.toInt ∧ v.toInt ≤ 2 ^ 31 - 1 := by
  have hsign : 0 ≤ v ↔ 0 ≤ v.toInt := Int64.le_iff_toInt_le
  cases target <;> simp [coerceDatum, coerceDatum.mismatch, hsign]
  all_goals
    split <;> simp <;> omega

/-- The columns that take an INTEGER. -/
theorem coerceDatum_integer_iff {v : Int32} {target : DataType} :
    (∃ stored, coerceDatum (.integer v) target = .ok stored) ↔
      target = .integer ∨ target = .bigInt ∨
        (target = .unsignedInteger ∨ target = .unsignedBigInt) ∧ 0 ≤ v.toInt := by
  have hsign : 0 ≤ v ↔ 0 ≤ v.toInt := Int32.le_iff_toInt_le
  cases target <;> simp [coerceDatum, coerceDatum.mismatch, hsign]
  all_goals
    split <;> simp <;> omega

/-! ### What a column stores -/

theorem storesInteger_error {range : Int × Int} {n : Int} {e : HelionError} :
    StoresInteger range n (.error e) ↔ ¬ InRange range n := by
  constructor
  · rintro ⟨haccepted, -⟩ hrange
    obtain ⟨stored, hstored⟩ := haccepted.mpr hrange
    cases hstored
  · intro hrange
    refine ⟨iff_of_false ?_ hrange, nofun⟩
    rintro ⟨stored, hstored⟩
    cases hstored

theorem not_storesInteger_null {range : Int × Int} {n : Int} : ¬ StoresInteger range n (.ok .null) := by
  rintro ⟨-, hdenotes⟩
  rcases hdenotes .null rfl with h | h
  · cases h
  · cases h

/-- A coerced integer is valid in its column. -/
theorem storeValue_of_intValue {statement : StoringStatement} {column : ColumnMeta} {value : Datum} {m : Int}
    (hvalue : value.intValue = some m) :
    storeValue statement column value = coerceDatum value column.dataType := by
  unfold storeValue
  cases hcoerced : coerceDatum value column.dataType with
  | error e => rfl
  | ok stored =>
      cases statement with
      | update => rfl
      | insert =>
          obtain ⟨hstored, htype⟩ := Datum.coerceDatum_intValue hvalue hcoerced
          have hnull : stored.isNull = false := by
            cases stored <;> cases hstored <;> rfl
          have hvalid : validateColumn column stored = .ok () := by
            simp [validateColumn, hnull, htype, typesCompatible]
          show (validateColumn column stored >>= fun _ => pure stored) = _
          rw [hvalid]
          rfl

theorem storesInteger_iff {statement : StoringStatement} {column : ColumnMeta} {range : Int × Int} {value : Datum}
    {m n : Int} (hvalue : value.intValue = some m) :
    StoresInteger range n (storeValue statement column value) ↔
      ((∃ stored, coerceDatum value column.dataType = .ok stored) ↔ InRange range n) ∧
        ((∃ stored, coerceDatum value column.dataType = .ok stored) → m = n) := by
  rw [storeValue_of_intValue hvalue, StoresInteger]
  apply and_congr_right'
  have hnumber := Datum.number_of_intValue hvalue
  constructor
  · rintro h ⟨stored, hstored⟩
    rcases h stored hstored with hdenotes | hdenotes
    · rw [coerceDatum_number hstored, hnumber] at hdenotes
      exact Sum.inl.inj (Option.some.inj hdenotes)
    · rw [coerceDatum_number hstored, hnumber] at hdenotes
      cases hdenotes
  · intro h stored hstored
    left
    rw [coerceDatum_number hstored, hnumber, h ⟨stored, hstored⟩]

/-- An integer that the literal makes NULL. -/
theorem storesInteger_ofNull {statement : StoringStatement} {column : ColumnMeta} {range : Int × Int} {n : Int} :
    StoresInteger range n (storeValue statement column .null) ↔
      statement = .insert ∧ column.nullable = false ∧ ¬ InRange range n := by
  cases statement with
  | update => exact iff_of_false not_storesInteger_null fun h => StoringStatement.noConfusion h.1
  | insert =>
      cases hnullable : column.nullable with
      | true =>
          have hstored : storeValue .insert column .null = .ok .null := by
            simp [storeValue, coerceDatum, validateColumn, Datum.isNull, hnullable, bind, Except.bind, pure, Except.pure]
          rw [hstored]
          exact iff_of_false not_storesInteger_null fun h => Bool.noConfusion h.2.1
      | false =>
          have hrefused : storeValue .insert column .null =
              .error (.constraintViolation ("Column '" ++ column.name ++ "' cannot be null")) := by
            simp [storeValue, coerceDatum, validateColumn, Datum.isNull, hnullable, bind, Except.bind]
          rw [hrefused, storesInteger_error]
          exact ⟨fun h => ⟨rfl, rfl, h⟩, fun h => h.2.2⟩

/-- An integer that the literal makes a BIGINT. -/
theorem storesInteger_ofBigInt {statement : StoringStatement} {column : ColumnMeta} {range : Int × Int} {v : Int64}
    (hrange : column.dataType.literalRange = some range) (hsign : 0 ≤ v.toInt) :
    StoresInteger range v.toInt (storeValue statement column (.bigInt v)) ↔
      column.dataType ∈ [DataType.integer, .bigInt, .unsignedBigInt] ∨ ¬ InRange range v.toInt := by
  have hhigh := v.toInt_lt
  rw [storesInteger_iff rfl, coerceDatum_bigInt_iff]
  cases htype : column.dataType <;> rw [htype] at hrange <;> cases hrange <;> simp [InRange]
  all_goals omega

/-- An integer that the literal makes an INTEGER. -/
theorem storesInteger_ofInteger {statement : StoringStatement} {column : ColumnMeta} {range : Int × Int} {n : Int}
    {v : Int32} (hrange : column.dataType.literalRange = some range) (hvalue : v.toInt = n.bmod (2 ^ 32))
    (hlow : -(2 ^ 63 - 1) ≤ n) (hneg : n < 0) :
    StoresInteger range n (storeValue statement column (.integer v)) ↔
      match column.dataType with
      | .integer | .bigInt => -2 ^ 31 ≤ n
      | .unsignedInteger | .unsignedBigInt => n.bmod (2 ^ 32) < 0
      | _ => ¬ InRange range n := by
  have hself : n.bmod (2 ^ 32) = n ↔ -2 ^ 31 ≤ n := by
    constructor
    · intro h
      have := v.le_toInt
      omega
    · intro h
      exact Int.bmod_eq_of_le (by omega) (by omega)
  rw [storesInteger_iff rfl, coerceDatum_integer_iff, hvalue]
  generalize n.bmod (2 ^ 32) = m at hself ⊢
  cases htype : column.dataType <;> rw [htype] at hrange <;> cases hrange <;> simp [InRange]
  all_goals omega

section

variable [CaseMapping] [SqlExprText]

theorem storeLiteral_number (uuidv7 : BitVec 128) {statement : StoringStatement} {column : ColumnMeta} {text : String}
    {value : Nat} (htext : decimalValue text = some value) :
    storeLiteral uuidv7 statement column (.value (.number text)) =
      storeValue statement column (if value ≤ 2 ^ 63 - 1 then .bigInt (.ofNat value) else .null) := by
  show storeValue statement column (sqlValueToDatum (.number text)) = _
  rw [sqlValueToDatum_number htext]

theorem storeLiteral_minus (uuidv7 : BitVec 128) {statement : StoringStatement} {column : ColumnMeta} {text : String}
    {value : Nat} (htext : decimalValue text = some value) (hle : value ≤ 2 ^ 63 - 1) :
    storeLiteral uuidv7 statement column (.unaryOp .minus (.value (.number text))) =
      storeValue statement column (.integer (negatedI32 (.ofNat value))) := by
  rw [storeLiteral, sqlExprToDatum, hasPoint_eq_false htext, parseI64_of_le htext hle]
  rfl

theorem storeLiteral_minus_large (uuidv7 : BitVec 128) {statement : StoringStatement} {column : ColumnMeta}
    {text : String} {value : Nat} (htext : decimalValue text = some value) (hlarge : 2 ^ 63 - 1 < value) :
    storeLiteral uuidv7 statement column (.unaryOp .minus (.value (.number text))) =
      .error (.parse ("Invalid integer: " ++ text)) := by
  rw [storeLiteral, sqlExprToDatum, hasPoint_eq_false htext, parseI64_of_gt htext (by omega)]
  rfl

/-- A statement accepts and stores an integer as it should exactly if the integer is safe in the column, and no coercion
changes a number. -/
theorem storesInteger_literal_iff (uuidv7 : BitVec 128) (statement : StoringStatement) {column : ColumnMeta}
    {range : Int × Int} {n : Int} {literal : SqlExpr} (hrange : column.dataType.literalRange = some range)
    (hwrites : WritesInteger n literal) :
    (StoresInteger range n (storeLiteral uuidv7 statement column literal) ↔ IntegerSafe statement column range n) ∧
      ∀ value target stored, coerceDatum value target = .ok stored → stored.number = value.number := by
  refine ⟨?_, fun value target stored => coerceDatum_number⟩
  obtain ⟨text, htext, rfl⟩ := hwrites
  unfold IntegerSafe
  by_cases hneg : n < 0
  · rw [decide_eq_true hneg, if_neg (by omega), if_neg (by omega)]
    show StoresInteger range n (storeLiteral uuidv7 statement column (.unaryOp .minus (.value (.number text)))) ↔ _
    by_cases hlow : -(2 ^ 63 - 1) ≤ n
    · rw [if_pos hlow, storeLiteral_minus uuidv7 htext (by omega)]
      have hvalue : (negatedI32 (.ofNat n.natAbs)).toInt = n.bmod (2 ^ 32) := by
        rw [negatedI32, Int64.toInt_ofNat_of_lt (by omega), Int32.toInt_ofInt]
        congr 1
        omega
      exact storesInteger_ofInteger hrange hvalue hlow hneg
    · rw [if_neg hlow, storeLiteral_minus_large uuidv7 htext (by omega)]
      exact storesInteger_error
  · rw [decide_eq_false hneg]
    show StoresInteger range n (storeLiteral uuidv7 statement column (.value (.number text))) ↔ _
    rw [storeLiteral_number uuidv7 htext]
    by_cases hlarge : 2 ^ 63 - 1 < n
    · rw [if_pos hlarge, if_neg (by omega)]
      exact storesInteger_ofNull
    · rw [if_neg hlarge, if_pos (by omega), if_pos (by omega)]
      have hvalue : (Int64.ofNat n.natAbs).toInt = n := by
        rw [Int64.toInt_ofNat_of_lt (by omega)]
        omega
      have h := @storesInteger_ofBigInt statement column range (.ofNat n.natAbs) hrange (by omega)
      rw [hvalue] at h
      exact h

end

/-! ### Statements -/

section Plans

variable {tables : List Table} {table : Table} {tableName columnName : String} {idx : Nat} {column : ColumnMeta}

theorem coerceTo_of_get (hcolumn : table.columns[idx]? = some column) (value : Datum) :
    coerceTo table idx value = coerceDatum value column.dataType := by
  rw [coerceTo, hcolumn]

/-- The plan of an UPDATE that assigns one value. -/
theorem planUpdate_single (htable : findTable tableName tables = some table)
    (hindex : table.columnIndex columnName = some idx) (hcolumn : table.columns[idx]? = some column) (value : Datum) :
    planUpdate tables tableName [(columnName, value)] =
      (storeValue .update column value).map fun stored => [(idx, stored)] := by
  simp only [planUpdate, htable, List.mapM_cons, List.mapM_nil, hindex, coerceTo_of_get hcolumn, storeValue]
  cases coerceDatum value column.dataType with
  | error e => rfl
  | ok stored => rfl

/-- A row that is NULL but for one value. -/
theorem rowFits_set_iff (hcolumn : table.columns[idx]? = some column)
    (hothers : ∀ other position, table.columns[position]? = some other → position ≠ idx → other.nullable = true)
    (stored : Datum) :
    RowFits table.columns { values := (List.replicate table.columns.length Datum.null).set idx stored } ↔
      validateColumn column stored = .ok () := by
  obtain ⟨hlt, hget⟩ := List.getElem?_eq_some_iff.mp hcolumn
  constructor
  · rintro ⟨hlength, hpairs⟩
    apply hpairs (column, stored)
    apply List.mem_iff_getElem?.mpr
    refine ⟨idx, ?_⟩
    rw [List.getElem?_zip_eq_some]
    exact ⟨hcolumn, by simp [hlt]⟩
  · intro hvalid
    refine ⟨by simp, fun pair hpair => ?_⟩
    obtain ⟨position, hposition⟩ := List.mem_iff_getElem?.mp hpair
    obtain ⟨hother, hvalue⟩ := List.getElem?_zip_eq_some.mp hposition
    by_cases hsame : position = idx
    · subst hsame
      rw [List.getElem?_set_self (by simpa using hlt)] at hvalue
      rw [← Option.some.inj (hcolumn.symm.trans hother), ← Option.some.inj hvalue]
      exact hvalid
    · rw [List.getElem?_set_ne (Ne.symm hsame), List.getElem?_replicate] at hvalue
      split at hvalue
      · rw [← Option.some.inj hvalue]
        simp [validateColumn, Datum.isNull, hothers pair.1 position hother hsame]
      · cases hvalue

section Insert

variable (hcolumn : table.columns[idx]? = some column)
  (hothers : ∀ other position, table.columns[position]? = some other → position ≠ idx → other.nullable = true)

include hcolumn hothers

theorem planInsertRow_single (value : Datum) (row : Row) :
    planInsertRow table [idx] [value] = .ok row ↔
      ∃ stored, storeValue .insert column value = .ok stored ∧
        row = { values := (List.replicate table.columns.length Datum.null).set idx stored } := by
  simp only [planInsertRow, storeValue, List.zip_cons_cons, List.zip_nil_right, List.foldlM_cons, List.foldlM_nil,
    coerceTo_of_get hcolumn, Loop.bind_ok_iff]
  constructor
  · rintro ⟨values, ⟨filled, ⟨stored, hstored, ⟨⟩⟩, ⟨⟩⟩, ⟨⟩, hvalid, ⟨⟩⟩
    have hcolumnValid := (rowFits_set_iff hcolumn hothers stored).mp (Table.validateRow_ok_iff.mp hvalid)
    exact ⟨stored, ⟨stored, hstored, (), hcolumnValid, rfl⟩, rfl⟩
  · rintro ⟨stored, ⟨coerced, hcoerced, ⟨⟩, hvalid, hsame⟩, rfl⟩
    cases hsame
    have hfits := (rowFits_set_iff hcolumn hothers stored).mpr hvalid
    exact ⟨_, ⟨_, ⟨stored, hcoerced, rfl⟩, rfl⟩, (), Table.validateRow_ok_iff.mpr hfits, rfl⟩

/-- The plan of an INSERT of one value into a table whose other columns may be NULL. -/
theorem planInsert_single (htable : findTable tableName tables = some table)
    (hindex : table.columnIndex columnName = some idx) (value : Datum) {rows : List Row} :
    planInsert tables tableName [columnName] [[value]] = .ok rows ↔
      ∃ stored, storeValue .insert column value = .ok stored ∧
        rows = [{ values := (List.replicate table.columns.length Datum.null).set idx stored }] := by
  have hresolved : resolveColumns table tableName [columnName] = .ok [idx] := by
    simp [resolveColumns, hindex, pure, Except.pure, bind, Except.bind]
  have hrow := planInsertRow_single hcolumn hothers value
  simp only [planInsert, htable, hresolved, List.mapM_cons, List.mapM_nil, Loop.bind_ok_iff]
  constructor
  · rintro ⟨indices, hindices, row, hplanned, rest, hrest, hrows⟩
    cases hindices
    cases hrest
    cases hrows
    obtain ⟨stored, hstored, rfl⟩ := (hrow row).mp hplanned
    exact ⟨stored, hstored, rfl⟩
  · rintro ⟨stored, hstored, rfl⟩
    exact ⟨[idx], rfl, _, (hrow _).mpr ⟨stored, hstored, rfl⟩, [], rfl, rfl⟩

end Insert

end Plans

section Samples

open AsciiCase PlainText

/-- A BIGINT column stores a negative integer that fits an `i32`. -/
theorem storesInteger_literal_negative :
    StoresInteger (-2 ^ 63, 2 ^ 63 - 1) (-5)
        (storeLiteral 0 .insert (.new "a" .bigInt) (numericLiteral true "5")) ∧
      Datum.number (.bigInt 5) = Datum.number (.integer 5) := by
  have hwrites : WritesInteger (-5) (numericLiteral true "5") := ⟨"5", by decide, rfl⟩
  have hrange : DataType.literalRange (ColumnMeta.new "a" .bigInt).dataType = some (-2 ^ 63, 2 ^ 63 - 1) := rfl
  have hsafe : IntegerSafe .insert (.new "a" .bigInt) (-2 ^ 63, 2 ^ 63 - 1) (-5) := by
    rw [IntegerSafe, if_neg (by decide), if_neg (by decide), if_pos (by decide)]
    show (-2 : Int) ^ 31 ≤ -5
    decide
  obtain ⟨hstores, hcoerce⟩ := storesInteger_literal_iff 0 .insert hrange hwrites
  exact ⟨hstores.mpr hsafe, hcoerce (.integer 5) .bigInt (.bigInt 5) rfl⟩

/-- `5` is refused by SMALLINT and by REAL, and `-4294967291` is stored as `5` in U_INTEGER. -/
theorem not_storesInteger_literal :
    ¬ StoresInteger (-2 ^ 15, 2 ^ 15 - 1) 5 (storeLiteral 0 .insert (.new "a" .smallInt) (numericLiteral false "5")) ∧
      ¬ StoresInteger (-2 ^ 63, 2 ^ 64 - 1) 5 (storeLiteral 0 .update (.new "a" .real) (numericLiteral false "5")) ∧
      storeLiteral 0 .insert (.new "a" .unsignedInteger) (numericLiteral true "4294967291") =
        .ok (.unsignedInteger 5) ∧
      ¬ StoresInteger (0, 2 ^ 32 - 1) (-4294967291)
        (storeLiteral 0 .insert (.new "a" .unsignedInteger) (numericLiteral true "4294967291")) := by
  have hwrapped : storeLiteral 0 .insert (.new "a" .unsignedInteger) (numericLiteral true "4294967291") =
      .ok (.unsignedInteger 5) := rfl
  refine ⟨?_, ?_, hwrapped, ?_⟩
  · rintro ⟨haccepted, -⟩
    obtain ⟨stored, hstored⟩ := haccepted.mpr (by decide)
    cases hstored
  · rintro ⟨haccepted, -⟩
    obtain ⟨stored, hstored⟩ := haccepted.mpr (by decide)
    cases hstored
  · rintro ⟨haccepted, -⟩
    exact absurd (haccepted.mp ⟨_, hwrapped⟩) (by decide)

end Samples

end HelionDb
