import HelionDb.Eval

/-! The JSON values of structured queries and how `structured.rs` turns them into stored values. A number is one of
the three kinds that `serde_json` keeps apart. What it prints for a float is a parameter. -/

namespace HelionDb

/-- `serde_json::Number`: an integer that is not negative, one that is, or a finite float. -/
inductive JsonNumber where
  | posInt (value : UInt64)
  | negInt (value : Int64) (negative : value < 0)
  | float (bits : BitVec 64) (finite : bits.toNat / 2 ^ 52 % 2 ^ 11 ≠ 2047)

/-- `serde_json::Value`. The entries of an object stand in the order its map goes through them. -/
inductive Json where
  | null
  | bool (value : Bool)
  | number (value : JsonNumber)
  | string (value : String)
  | array (items : List Json)
  | object (entries : List (String × Json))

/-- What `Number::to_string` prints for a float. -/
class NumberText where
  float : BitVec 64 → String

namespace PlainText

/-- A stand-in that prints a float by its bits. -/
scoped instance numberText : NumberText where
  float bits := toString bits.toNat

end PlainText

namespace JsonNumber

/-- `Number::is_f64`. -/
def isF64 : JsonNumber → Bool
  | float _ _ => true
  | _ => false

/-- `Number::as_i64`. -/
def asI64 : JsonNumber → Option Int64
  | posInt value => if value.toNat ≤ 2 ^ 63 - 1 then some (.ofNat value.toNat) else none
  | negInt value _ => some value
  | float _ _ => none

/-- `Number::as_f64`, which every number has; the bits of the `f64`. -/
def asF64 : JsonNumber → BitVec 64
  | posInt value => (Float.ofNat value.toNat).toBits.toBitVec
  | negInt value _ => (Float.ofInt value.toInt).toBits.toBitVec
  | float bits _ => bits

/-- `Number::to_string`. -/
def text [NumberText] : JsonNumber → String
  | posInt value => toString value.toNat
  | negInt value _ => toString value.toInt
  | float bits _ => NumberText.float bits

end JsonNumber

namespace Json

/-- `Value::as_array`. -/
def asArray : Json → Option (List Json)
  | array items => some items
  | _ => none

/-- `value as i32` of an `i64`. -/
def castI32 (value : Int64) : Int32 := .ofInt value.toInt

/-- `json_to_datum`. -/
def toDatum : Json → Datum
  | null => .null
  | bool b => .boolean b
  | number n => if n.isF64 then .double n.asF64 else .bigInt (n.asI64.getD 0)
  | string s => .text s
  | _ => .null

/-- `json_value_to_datum`. -/
def toDatumAs (value : Json) (targetType : DataType) : Datum :=
  match value, targetType with
  | null, _ => .null
  | bool b, _ => .boolean b
  | number n, .integer => .integer (castI32 (n.asI64.getD 0))
  | number n, .bigInt => .bigInt (n.asI64.getD 0)
  | number n, .double => .double n.asF64
  | number n, .real => .double n.asF64
  | number n, _ => .bigInt (n.asI64.getD 0)
  | string s, .text => .text s
  | string s, .varChar _ => .varChar s
  | string s, .char _ => .char s
  | string s, _ => .text s
  | _, _ => .null

/-- `string_from_value`. -/
def toText [NumberText] : Json → String
  | string s => s
  | number n => n.text
  | bool b => toString b
  | _ => ""

end Json

end HelionDb
