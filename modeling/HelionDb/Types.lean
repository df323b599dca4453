import Mathlib.Algebra.Group.Int.Defs
import Mathlib.Algebra.GroupWithZero.Nat
import Mathlib.Data.List.Basic
import Mathlib.Logic.Function.Basic

/-! Values, column types and errors. Fixed-width integers keep their width; the two floating types
are carried as bit patterns, since storage only compares them by `total_cmp`, which tells two of
them apart exactly when their bits differ. Transaction ids are `u64` counters modelled by naturals,
with the wrap written out where the source lets one happen. -/

namespace HelionDb

/-- `u64::MAX`, the `txid_max` of a version that nothing has replaced yet. -/
def u64Max : Nat := 2 ^ 64 - 1

/-- `str::eq_ignore_ascii_case`. -/
def eqIgnoreAsciiCase (left right : String) : Bool :=
  left.toList.map Char.toLower == right.toList.map Char.toLower

theorem eqIgnoreAsciiCase_iff {left right : String} :
    eqIgnoreAsciiCase left right = true ↔
      left.toList.map Char.toLower = right.toList.map Char.toLower := by
  simp [eqIgnoreAsciiCase]

/-- A name as `eq_ignore_ascii_case` compares it. -/
def lowerName (name : String) : List Char := name.toList.map Char.toLower

theorem eqIgnoreAsciiCase_eq {left right : String} :
    eqIgnoreAsciiCase left right = true ↔ lowerName left = lowerName right := eqIgnoreAsciiCase_iff

@[simp] theorem eqIgnoreAsciiCase_refl (name : String) : eqIgnoreAsciiCase name name = true := by
  simp [eqIgnoreAsciiCase]

inductive DataType where
  | boolean
  | smallInt
  | unsignedSmallInt
  | integer
  | unsignedInteger
  | bigInt
  | unsignedBigInt
  | real
  | double
  | varChar (length : Option Nat)
  | char (length : Option Nat)
  | text
  | binary
  | date
  | time
  | timestamp
  | timestampTz
  | uuid
  | uuidV7
  | null
  deriving DecidableEq, Repr

/-- `DataType::name`, which is also how a type is displayed in an error. -/
def DataType.name : DataType → String
  | .boolean => "BOOLEAN"
  | .smallInt => "SMALLINT"
  | .unsignedSmallInt => "U_SMALLINT"
  | .integer => "INTEGER"
  | .unsignedInteger => "U_INTEGER"
  | .bigInt => "BIGINT"
  | .unsignedBigInt => "U_BIGINT"
  | .real => "REAL"
  | .double => "DOUBLE"
  | .varChar _ => "VARCHAR"
  | .char _ => "CHAR"
  | .text => "TEXT"
  | .binary => "BINARY"
  | .date => "DATE"
  | .time => "TIME"
  | .timestamp => "TIMESTAMP"
  | .timestampTz => "TIMESTAMPTZ"
  | .uuid => "UUID"
  | .uuidV7 => "UUIDV7"
  | .null => "NULL"

/-- A stored value. Floats are bit patterns; dates and times are their offsets in the calendar. -/
inductive Datum where
  | boolean (value : Bool)
  | smallInt (value : Int16)
  | unsignedSmallInt (value : UInt16)
  | integer (value : Int32)
  | unsignedInteger (value : UInt32)
  | bigInt (value : Int64)
  | unsignedBigInt (value : UInt64)
  | real (bits : BitVec 32)
  | double (bits : BitVec 64)
  | varChar (value : String)
  | char (value : String)
  | text (value : String)
  | binary (value : List UInt8)
  | date (days : Int)
  | time (nanos : Int)
  | timestamp (nanos : Int)
  | timestampTz (seconds : Int64)
  | uuid (value : BitVec 128)
  | uuidV7 (value : BitVec 128)
  | null
  deriving DecidableEq, Repr

namespace Datum

/-- `Datum::data_type`. -/
def dataType : Datum → DataType
  | boolean _ => .boolean
  | smallInt _ => .smallInt
  | unsignedSmallInt _ => .unsignedSmallInt
  | integer _ => .integer
  | unsignedInteger _ => .unsignedInteger
  | bigInt _ => .bigInt
  | unsignedBigInt _ => .unsignedBigInt
  | real _ => .real
  | double _ => .double
  | varChar _ => .varChar none
  | char _ => .char none
  | text _ => .text
  | binary _ => .binary
  | date _ => .date
  | time _ => .time
  | timestamp _ => .timestamp
  | timestampTz _ => .timestampTz
  | uuid _ => .uuid
  | uuidV7 _ => .uuidV7
  | null => .null

/-- `Datum::is_null`. -/
def isNull : Datum → Bool
  | null => true
  | _ => false

end Datum

structure ForeignKeyInfo where
  foreignTable : String
  foreignColumn : String
  deriving DecidableEq, Repr

structure ColumnMeta where
  name : String
  dataType : DataType
  nullable : Bool
  isPrimaryKey : Bool
  isUnique : Bool
  default : Option Datum
  references : Option ForeignKeyInfo
  deriving DecidableEq, Repr

namespace ColumnMeta

/-- `ColumnMeta::new`. -/
def new (name : String) (dataType : DataType) : ColumnMeta :=
  { name, dataType, nullable := true, isPrimaryKey := false, isUnique := false, default := none,
    references := none }

def notNull (column : ColumnMeta) : ColumnMeta := { column with nullable := false }

def primaryKey (column : ColumnMeta) : ColumnMeta :=
  { column with nullable := false, isPrimaryKey := true, isUnique := true }

end ColumnMeta

structure Row where
  values : List Datum
  deriving DecidableEq, Repr

/-- `HelionError`. A key violation carries the key itself where the source renders it, and
`internalFrom message cause` is `Internal` with the cause rendered behind the message. -/
inductive HelionError where
  | parse (message : String)
  | tableNotFound (table : String)
  | columnNotFound (column : String)
  | ambiguousColumn (column : String)
  | tableAlreadyExists (table : String)
  | typeMismatch (expected actual : String)
  | transaction (message : String)
  | constraintViolation (message : String)
  | duplicateKey (index : String) (key : List Datum)
  | indexNotFound (index : String)
  | indexAlreadyExists (index : String)
  | conflict (txid : Nat)
  | io (message : String)
  | serialization (message : String)
  | protocol (message : String)
  | permissionDenied (message : String)
  | auth (message : String)
  | internal (message : String)
  | internalFrom (message : String) (cause : HelionError)
  deriving DecidableEq, Repr

/-! ### Coercion to a column type -/

/-- `Uuid::get_version_num`: the high half of byte 6. -/
def uuidVersion (value : BitVec 128) : Nat := (value.extractLsb' 76 4).toNat

/-- `coerce_datum`: the value a column of type `target` stores for `value`. -/
def coerceDatum (value : Datum) (target : DataType) : Except HelionError Datum :=
  match value, target with
  | .null, _ => .ok .null
  | .boolean v, .boolean => .ok (.boolean v)
  | .smallInt v, .smallInt => .ok (.smallInt v)
  | .smallInt v, .integer => .ok (.integer (.ofInt v.toInt))
  | .smallInt v, .bigInt => .ok (.bigInt (.ofInt v.toInt))
  | .smallInt v, .unsignedSmallInt =>
      if 0 ≤ v then .ok (.unsignedSmallInt (.ofNat v.toInt.toNat)) else mismatch
  | .smallInt v, .unsignedInteger =>
      if 0 ≤ v then .ok (.unsignedInteger (.ofNat v.toInt.toNat)) else mismatch
  | .smallInt v, .unsignedBigInt =>
      if 0 ≤ v then .ok (.unsignedBigInt (.ofNat v.toInt.toNat)) else mismatch
  | .unsignedSmallInt v, .unsignedSmallInt => .ok (.unsignedSmallInt v)
  | .unsignedSmallInt v, .unsignedInteger => .ok (.unsignedInteger (.ofNat v.toNat))
  | .unsignedSmallInt v, .unsignedBigInt => .ok (.unsignedBigInt (.ofNat v.toNat))
  | .unsignedSmallInt v, .integer => .ok (.integer (.ofInt v.toNat))
  | .unsignedSmallInt v, .bigInt => .ok (.bigInt (.ofInt v.toNat))
  | .integer v, .integer => .ok (.integer v)
  | .integer v, .bigInt => .ok (.bigInt (.ofInt v.toInt))
  | .integer v, .unsignedInteger =>
      if 0 ≤ v then .ok (.unsignedInteger (.ofNat v.toInt.toNat)) else mismatch
  | .integer v, .unsignedBigInt =>
      if 0 ≤ v then .ok (.unsignedBigInt (.ofNat v.toInt.toNat)) else mismatch
  | .unsignedInteger v, .unsignedInteger => .ok (.unsignedInteger v)
  | .unsignedInteger v, .unsignedBigInt => .ok (.unsignedBigInt (.ofNat v.toNat))
  | .unsignedInteger v, .bigInt => .ok (.bigInt (.ofInt v.toNat))
  | .unsignedInteger v, .integer =>
      if v.toNat ≤ 2 ^ 31 - 1 then .ok (.integer (.ofInt v.toNat)) else mismatch
  | .bigInt v, .bigInt => .ok (.bigInt v)
  | .bigInt v, .unsignedBigInt =>
      if 0 ≤ v then .ok (.unsignedBigInt (.ofNat v.toInt.toNat)) else mismatch
  | .bigInt v, .integer =>
      if -2 ^ 31 ≤ v.toInt ∧ v.toInt ≤ 2 ^ 31 - 1 then .ok (.integer (.ofInt v.toInt)) else mismatch
  | .unsignedBigInt v, .unsignedBigInt => .ok (.unsignedBigInt v)
  | .unsignedBigInt v, .bigInt =>
      if v.toNat ≤ 2 ^ 63 - 1 then .ok (.bigInt (.ofInt v.toNat)) else mismatch
  | .unsignedBigInt v, .integer =>
      if v.toNat ≤ 2 ^ 31 - 1 then .ok (.integer (.ofInt v.toNat)) else mismatch
  | .real v, .real => .ok (.real v)
  | .double v, .double => .ok (.double v)
  | .text v, .text => .ok (.text v)
  | .text v, .varChar _ => .ok (.varChar v)
  | .text v, .char _ => .ok (.char v)
  | .varChar v, .text => .ok (.text v)
  | .varChar v, .varChar _ => .ok (.varChar v)
  | .varChar v, .char _ => .ok (.char v)
  | .char v, .text => .ok (.text v)
  | .char v, .varChar _ => .ok (.varChar v)
  | .char v, .char _ => .ok (.char v)
  | .binary v, .binary => .ok (.binary v)
  | .date v, .date => .ok (.date v)
  | .time v, .time => .ok (.time v)
  | .timestamp v, .timestamp => .ok (.timestamp v)
  | .timestampTz v, .timestampTz => .ok (.timestampTz v)
  | .uuid v, .uuid => .ok (.uuid v)
  | .uuidV7 v, .uuidV7 => .ok (.uuidV7 v)
  | .uuid v, .uuidV7 => if uuidVersion v = 7 then .ok (.uuidV7 v) else mismatch
  | _, _ => mismatch
where
  mismatch : Except HelionError Datum := .error (.typeMismatch target.name value.dataType.name)

end HelionDb
