import HelionDb.Permissions
import HelionDb.Sql

/-! The evaluator of `eval.rs`. Floating-point values are IEEE 754 numbers given by their bits. The two
evaluators of the source differ only in how they look a column up, so here they are one recursion. What
other crates print and the identifier that UUIDV7 draws are parameters. -/

namespace HelionDb

/-- What `to_string` of floats and of the crates `chrono`, `uuid` and `hex` prints, and `{:?}` of a text. -/
class Rendering where
  debug : String → String
  real : BitVec 32 → String
  double : BitVec 64 → String
  hex : List UInt8 → String
  date : Int → String
  time : Int → String
  timestamp : Int → String
  timestampTz : Int64 → String
  uuid : BitVec 128 → String

namespace PlainText

/-- A stand-in that prints plain texts as they are and numbers by their bits; opened where runs are evaluated. -/
scoped instance rendering : Rendering where
  debug text := "\"" ++ text ++ "\""
  real bits := toString bits.toNat
  double bits := toString bits.toNat
  hex bytes := String.join (bytes.map toString)
  date days := toString days
  time nanos := toString nanos
  timestamp nanos := toString nanos
  timestampTz seconds := toString seconds.toInt
  uuid value := toString value.toNat

end PlainText

/-- The sign bit. -/
def isSignNegative (value : Float) : Bool := 2 ^ 63 ≤ value.toBits.toNat

/-- An `f32` as an `f64`. -/
def realToF64 (bits : BitVec 32) : Float :=
  let exponent := bits.toNat / 2 ^ 23 % 2 ^ 8
  let fraction := bits.toNat % 2 ^ 23
  let magnitude : Float :=
    if exponent = 255 then .ofBits (.ofNat (2047 * 2 ^ 52 + fraction * 2 ^ 29))
    else if exponent = 0 then .ofNat fraction * .ofBits (.ofNat ((1023 - 149) * 2 ^ 52))
    else .ofBits (.ofNat ((exponent + (1023 - 127)) * 2 ^ 52 + fraction * 2 ^ 29))
  if bits.msb then -magnitude else magnitude

/-- The `f64` with these bits. -/
def doubleToF64 (bits : BitVec 64) : Float := .ofBits (.ofBitVec bits)

def f64ToDouble (value : Float) : Datum := .double value.toBits.toBitVec

/-- `PartialOrd` of `f64`. -/
def partialCmp (left right : Float) : Option Ordering :=
  if left < right then some .lt
  else if right < left then some .gt
  else if left == right then some .eq
  else none

/-- `value as iN`: towards zero, and to the nearest end of the range from outside it. -/
def castSigned (width : Nat) (value : Float) : Int :=
  if value < 0 then -min (value.abs.toUInt64.toNat : Int) (2 ^ (width - 1))
  else min (value.toUInt64.toNat : Int) (2 ^ (width - 1) - 1)

/-- `value as uN`. -/
def castUnsigned (width : Nat) (value : Float) : Nat := min value.toUInt64.toNat (2 ^ width - 1)

/-- `f64::round`, half away from zero; from 2^52 on every number is integral. -/
def roundF64 (value : Float) : Float :=
  if value.abs < .ofNat (2 ^ 52) then
    let whole : Float := .ofNat value.abs.toUInt64.toNat
    let rounded := if value.abs - whole < 0.5 then whole else whole + 1
    if isSignNegative value then -rounded else rounded
  else value

/-- The squarings and multiplications of `f64::powi`. -/
def powi (result base : Float) : (exponent steps : Nat) → Float
  | _, 0 => result
  | exponent, steps + 1 =>
      let result := if exponent % 2 = 1 then result * base else result
      if exponent / 2 = 0 then result else powi result (base * base) (exponent / 2) steps

/-- `10f64.powi(decimals)`. -/
def powTen (decimals : Int) : Float :=
  let power := powi 1 10 decimals.natAbs 32
  if decimals < 0 then 1 / power else power

/-! ### Values -/

namespace Datum

/-- `is_numeric`. -/
def isNumeric : Datum → Bool
  | smallInt _ | unsignedSmallInt _ | integer _ | unsignedInteger _ | bigInt _ | unsignedBigInt _ | real _
  | double _ => true
  | _ => false

/-- `NumericRank`. -/
inductive NumericRank where
  | signed (value : Int)
  | unsigned (value : Nat)
  | float (value : Float)

/-- `NumericRank::as_f64`. -/
def NumericRank.asF64 : NumericRank → Float
  | signed value => .ofInt value
  | unsigned value => .ofNat value
  | float value => value

/-- `numeric_rank`. -/
def numericRank : Datum → Option NumericRank
  | smallInt v => some (.signed v.toInt)
  | integer v => some (.signed v.toInt)
  | bigInt v => some (.signed v.toInt)
  | unsignedSmallInt v => some (.unsigned v.toNat)
  | unsignedInteger v => some (.unsigned v.toNat)
  | unsignedBigInt v => some (.unsigned v.toNat)
  | real bits => some (.float (realToF64 bits))
  | double bits => some (.float (doubleToF64 bits))
  | _ => none

/-- `numeric_to_f64`. -/
def numericToF64 (datum : Datum) : Float :=
  match datum.numericRank with
  | some rank => rank.asF64
  | none => 0

/-- `compare_numeric`. -/
def compareNumeric (left right : Datum) : Option Ordering :=
  match left.numericRank, right.numericRank with
  | some (.float a), some other => partialCmp a other.asF64
  | some other, some (.float b) => partialCmp other.asF64 b
  | some (.signed a), some (.signed b) => some (compare a b)
  | some (.unsigned a), some (.unsigned b) => some (compare a b)
  | some (.signed a), some (.unsigned b) => if a < 0 then some .lt else some (compare a.toNat b)
  | some (.unsigned a), some (.signed b) => if b < 0 then some .gt else some (compare a b.toNat)
  | _, _ => none

/-- `compare_datums`. -/
def compareDatums (left right : Datum) : Option Ordering :=
  match left, right with
  | null, _ | _, null => none
  | smallInt a, smallInt b => some (compare a.toInt b.toInt)
  | unsignedSmallInt a, unsignedSmallInt b => some (compare a.toNat b.toNat)
  | integer a, integer b => some (compare a.toInt b.toInt)
  | unsignedInteger a, unsignedInteger b => some (compare a.toNat b.toNat)
  | bigInt a, bigInt b => some (compare a.toInt b.toInt)
  | unsignedBigInt a, unsignedBigInt b => some (compare a.toNat b.toNat)
  | real a, real b => partialCmp (realToF64 a) (realToF64 b)
  | double a, double b => partialCmp (doubleToF64 a) (doubleToF64 b)
  | real a, double b => partialCmp (realToF64 a) (doubleToF64 b)
  | double a, real b => partialCmp (doubleToF64 a) (realToF64 b)
  | text a, text b => some (compare a b)
  | varChar a, text b => some (compare a b)
  | text a, varChar b => some (compare a b)
  | boolean a, boolean b => some (compare a b)
  | uuid a, uuid b => some (compare a.toNat b.toNat)
  | uuidV7 a, uuidV7 b => some (compare a.toNat b.toNat)
  | a, b => if a.isNumeric && b.isNumeric then compareNumeric a b else none

/-- `datum_eq`. -/
def datumEq (left right : Datum) : Bool := left.compareDatums right = some .eq

/-- `datum_to_bool`. -/
def datumToBool : Datum → Bool
  | boolean b => b
  | null => false
  | smallInt i => i ≠ 0
  | unsignedSmallInt i => i ≠ 0
  | integer i => i ≠ 0
  | unsignedInteger i => i ≠ 0
  | bigInt i => i ≠ 0
  | unsignedBigInt i => i ≠ 0
  | real bits => realToF64 bits != 0
  | double bits => doubleToF64 bits != 0
  | text s => !s.isEmpty
  | _ => true

/-- `Datum::display`. -/
def display [Rendering] : Datum → String
  | null => "NULL"
  | boolean b => toString b
  | smallInt i => toString i.toInt
  | unsignedSmallInt i => toString i.toNat
  | integer i => toString i.toInt
  | unsignedInteger i => toString i.toNat
  | bigInt i => toString i.toInt
  | unsignedBigInt i => toString i.toNat
  | real bits => Rendering.real bits
  | double bits => Rendering.double bits
  | varChar s | char s | text s => s
  | binary b => Rendering.hex b
  | date d => Rendering.date d
  | time t => Rendering.time t
  | timestamp ts => Rendering.timestamp ts
  | timestampTz ts => Rendering.timestampTz ts
  | uuid u => Rendering.uuid u
  | uuidV7 u => Rendering.uuid u

/-- `datum_to_string`. -/
def datumToString [Rendering] : Datum → String
  | null => ""
  | other => other.display

/-- `datum_arith`. -/
def datumArith (left right : Datum) (op : Float → Float → Float) : Except HelionError Datum :=
  if !left.isNumeric || !right.isNumeric then
    .error (.typeMismatch left.dataType.name right.dataType.name)
  else
    let result := op left.numericToF64 right.numericToF64
    match left, right with
    | smallInt _, smallInt _ => .ok (.smallInt (.ofInt (castSigned 16 result)))
    | unsignedSmallInt _, unsignedSmallInt _ => .ok (.unsignedSmallInt (.ofNat (castUnsigned 16 result)))
    | integer _, integer _ => .ok (.integer (.ofInt (castSigned 32 result)))
    | unsignedInteger _, unsignedInteger _ => .ok (.unsignedInteger (.ofNat (castUnsigned 32 result)))
    | bigInt _, bigInt _ => .ok (.bigInt (.ofInt (castSigned 64 result)))
    | unsignedBigInt _, unsignedBigInt _ => .ok (.unsignedBigInt (.ofNat (castUnsigned 64 result)))
    | real _, real _ | double _, double _ => .ok (f64ToDouble result)
    | _, _ =>
        if isSignNegative result then .ok (.bigInt (.ofInt (castSigned 64 result)))
        else .ok (.unsignedBigInt (.ofNat (castUnsigned 64 result)))

/-- `negate_datum`; the least integer of a type wraps to itself, as in a build without overflow checks. -/
def negateDatum : Datum → Except HelionError Datum
  | smallInt i => .ok (.smallInt (-i))
  | integer i => .ok (.integer (-i))
  | bigInt i => .ok (.bigInt (-i))
  | double bits => .ok (f64ToDouble (-doubleToF64 bits))
  | other => .error (.typeMismatch "numeric" other.dataType.name)

/-- The comparison under MIN and MAX. -/
def orEqual (left right : Datum) : Ordering := (left.compareDatums right).getD .eq

/-- `Iterator::min_by`: the first of the least. -/
def minBy : List Datum → Option Datum
  | [] => none
  | first :: rest => some (rest.foldl (fun best next => if best.orEqual next = .gt then next else best) first)

/-- `Iterator::max_by`: the last of the greatest. -/
def maxBy : List Datum → Option Datum
  | [] => none
  | first :: rest => some (rest.foldl (fun best next => if best.orEqual next = .gt then best else next) first)

/-- The numbers among the arguments. -/
def numbers (args : List Datum) : List Float := args.filterMap fun arg => arg.numericRank.map NumericRank.asF64

/-- `sum` of an iterator of `f64`, which starts from -0. -/
def sumF64 (numbers : List Float) : Float := numbers.foldl (· + ·) (-0)

/-- The ABS arm of `evaluate_function`. -/
def absDatum : Datum → Except HelionError Datum
  | smallInt i => .ok (.smallInt (if i < 0 then -i else i))
  | integer i => .ok (.integer (if i < 0 then -i else i))
  | bigInt i => .ok (.bigInt (if i < 0 then -i else i))
  | unsignedSmallInt i => .ok (.unsignedSmallInt i)
  | unsignedInteger i => .ok (.unsignedInteger i)
  | unsignedBigInt i => .ok (.unsignedBigInt i)
  | real bits => .ok (f64ToDouble (realToF64 bits).abs)
  | double bits => .ok (f64ToDouble (doubleToF64 bits).abs)
  | other => .error (.typeMismatch "numeric" other.dataType.name)

/-- The ROUND arm of `evaluate_function`. -/
def roundDatum (value : Datum) (decimals : Option Datum) : Datum :=
  let decimals : Int :=
    match decimals with
    | some (integer i) => i.toInt
    | _ => 0
  match value with
  | double bits => f64ToDouble (roundF64 (doubleToF64 bits * powTen decimals) / powTen decimals)
  | other => other

end Datum

/-- `evaluate_function`. One identifier stands for all that UUIDV7 draws within a statement. -/
def evaluateFunction [CaseMapping] [Rendering] (uuidv7 : BitVec 128) (name : String) (args : List Datum) :
    Except HelionError Datum :=
  let firstText := (args.head?.map Datum.datumToString).getD ""
  match CaseMapping.toLowercase name with
  | "count" => .ok (.bigInt (.ofNat (args.filter fun arg => !arg.isNull).length))
  | "uuidv7" | "uuid_v7" =>
      if args.isEmpty then .ok (.uuidV7 uuidv7) else .error (.internal "UUIDV7 takes no arguments")
  | "sum" => .ok (f64ToDouble (Datum.sumF64 (Datum.numbers args)))
  | "avg" =>
      let numbers := Datum.numbers args
      if numbers.isEmpty then .ok .null
      else .ok (f64ToDouble (Datum.sumF64 numbers / .ofNat numbers.length))
  | "min" =>
      match Datum.minBy args with
      | some value => .ok value
      | none => .error (.internal "MIN of empty set")
  | "max" =>
      match Datum.maxBy args with
      | some value => .ok value
      | none => .error (.internal "MAX of empty set")
  | "lower" | "lcase" => .ok (.text (CaseMapping.toLowercase firstText))
  | "upper" | "ucase" => .ok (.text (CaseMapping.toUppercase firstText))
  | "length" | "len" => .ok (.integer (.ofNat firstText.utf8ByteSize))
  | "coalesce" => .ok ((args.find? fun arg => !arg.isNull).getD .null)
  | "ifnull" =>
      match args with
      | [] => .ok .null
      | first :: rest => .ok (if first.isNull then rest.head?.getD .null else first)
  | "abs" =>
      match args with
      | [] => .error (.internal "ABS requires 1 argument")
      | value :: _ => value.absDatum
  | "round" =>
      match args with
      | [] => .error (.internal "ROUND requires 1 argument")
      | value :: rest => .ok (value.roundDatum rest.head?)
  | _ => .error (.internal ("Unknown function: " ++ name))

/-- `like_to_regex`. -/
def likeToRegex (pattern : String) : List Char :=
  pattern.toList.flatMap fun c =>
    if c = '%' then ['.', '*']
    else if c = '_' then ['.']
    else if c ∈ ".*+?^$|()[]\x7b\x7d\\".toList then ['\\', c]
    else [c]

/-- `simple_match` on what is left of the pattern and of the text. -/
def simpleMatch : (pattern text : List Char) → Bool
  | [], text => text.isEmpty
  | '.' :: '*' :: rest, [] => simpleMatch rest []
  | _ :: _, [] => false
  | '.' :: '*' :: rest, c :: text => simpleMatch rest (c :: text) || simpleMatch ('.' :: '*' :: rest) text
  | '.' :: rest, _ :: text => simpleMatch rest text
  | '\\' :: escaped :: rest, c :: text => escaped = c && simpleMatch rest text
  | expected :: rest, c :: text => expected = c && simpleMatch rest text
termination_by pattern text => pattern.length + text.length

theorem simpleMatch_nil (text : List Char) : simpleMatch [] text = text.isEmpty := by
  rw [simpleMatch]

/-- `regex_lite`. -/
def regexLite (pattern : List Char) (text : String) : Bool := simpleMatch pattern text.toList

/-! ### Expressions -/

namespace Expression

variable [CaseMapping] [Rendering] (uuidv7 : BitVec 128)

/-- The value of a binary operator on the values of its operands. -/
def applyBinary (op : BinaryOperator) (left right : Datum) : Except HelionError Datum :=
  if left.isNull || right.isNull then .ok .null
  else
    match op with
    | .eq => .ok (.boolean (left.datumEq right))
    | .ne => .ok (.boolean (!left.datumEq right))
    | .lt => .ok (.boolean (left.compareDatums right = some .lt))
    | .le => .ok (.boolean (((left.compareDatums right).map (· != .gt)).getD false))
    | .gt => .ok (.boolean (left.compareDatums right = some .gt))
    | .ge => .ok (.boolean (((left.compareDatums right).map (· != .lt)).getD false))
    | .and => .ok (.boolean (left.datumToBool && right.datumToBool))
    | .or => .ok (.boolean (left.datumToBool || right.datumToBool))
    | .add => left.datumArith right (· + ·)
    | .sub => left.datumArith right (· - ·)
    | .mul => left.datumArith right (· * ·)
    | .div => left.datumArith right (· / ·)

/-- The value of a unary operator on the value of its operand. -/
def applyUnary (op : UnaryOperator) (value : Datum) : Except HelionError Datum :=
  match op with
  | .not => .ok (.boolean (!value.datumToBool))
  | .neg => value.negateDatum

/-- The value of BETWEEN. -/
def applyBetween (value low high : Datum) : Datum :=
  if value.isNull || low.isNull || high.isNull then .null
  else
    .boolean (((value.compareDatums low).map (· != .lt)).getD false &&
      ((value.compareDatums high).map (· != .gt)).getD false)

mutual

/-- The recursion that `evaluate` and `evaluate_join` share; `lookup` finds the value of a column, given
with its table when it is qualified. -/
def evaluateWith (lookup : Option String → String → Except HelionError Datum) : Expression → Except HelionError Datum
  | .literal value => .ok value
  | .column name => lookup none name
  | .qualifiedColumn table name => lookup (some table) name
  | .binaryOp left op right => do
      let leftVal ← evaluateWith lookup left
      let rightVal ← evaluateWith lookup right
      applyBinary op leftVal rightVal
  | .unaryOp op inner => do
      let val ← evaluateWith lookup inner
      applyUnary op val
  | .isNull inner => do
      let val ← evaluateWith lookup inner
      return .boolean val.isNull
  | .isNotNull inner => do
      let val ← evaluateWith lookup inner
      return .boolean (!val.isNull)
  | .inList inner list => do
      let val ← evaluateWith lookup inner
      return .boolean (list.any fun candidate => candidate.datumEq val)
  | .between inner low high => do
      let val ← evaluateWith lookup inner
      let lowVal ← evaluateWith lookup low
      let highVal ← evaluateWith lookup high
      return applyBetween val lowVal highVal
  | .like inner pattern => do
      let val ← evaluateWith lookup inner
      return .boolean (regexLite (likeToRegex pattern) val.datumToString)
  | .function name args => do
      let values ← evaluateAll lookup args
      evaluateFunction uuidv7 name values

/-- The values of the arguments of a function. -/
def evaluateAll (lookup : Option String → String → Except HelionError Datum) :
    List Expression → Except HelionError (List Datum)
  | [] => .ok []
  | arg :: rest => do
      let value ← evaluateWith lookup arg
      let values ← evaluateAll lookup rest
      return value :: values

end

/-- The position of the first column of a name. -/
def positionOf (columns : List ColumnMeta) (name : String) : Option Nat :=
  columns.findIdx? fun column => eqIgnoreAsciiCase column.name name

/-- How `evaluate` finds a column: the name of the table does not matter. -/
def lookupColumn (row : List Datum) (columns : List ColumnMeta) (table : Option String) (name : String) :
    Except HelionError Datum :=
  match positionOf columns name with
  | some idx => .ok (row[idx]?.getD .null)
  | none =>
      match table with
      | none => .error (.columnNotFound name)
      | some table => .error (.columnNotFound (table ++ "." ++ name))

/-- `evaluate`. -/
def evaluate (expr : Expression) (row : List Datum) (columns : List ColumnMeta) : Except HelionError Datum :=
  expr.evaluateWith uuidv7 (lookupColumn row columns)

/-- A table of a combined row: its name, where its columns start in the row, and the columns. -/
structure TableSlot where
  name : String
  offset : Nat
  columns : List ColumnMeta

/-- The scan of `evaluate_join` for an unqualified column, `found` being where it was seen before. -/
def findUnqualified (name : String) : Option Nat → List TableSlot → Except HelionError (Option Nat)
  | found, [] => .ok found
  | found, slot :: rest =>
      match positionOf slot.columns name with
      | none => findUnqualified name found rest
      | some idx =>
          match found with
          | some _ => .error (.ambiguousColumn name)
          | none => findUnqualified name (some (slot.offset + idx)) rest

/-- How `evaluate_join` finds a column. -/
def lookupJoin (row : List Datum) (tableMap : List TableSlot) (table : Option String) (name : String) :
    Except HelionError Datum :=
  match table with
  | some table =>
      match tableMap.find? fun slot => eqIgnoreAsciiCase slot.name table with
      | none => .error (.columnNotFound (table ++ "." ++ name))
      | some slot =>
          match positionOf slot.columns name with
          | none => .error (.columnNotFound (table ++ "." ++ name))
          | some idx => .ok (row[slot.offset + idx]?.getD .null)
  | none =>
      match findUnqualified name none tableMap with
      | .error err => .error err
      | .ok none => .error (.columnNotFound name)
      | .ok (some idx) => .ok (row[idx]?.getD .null)

/-- `evaluate_join`. -/
def evaluateJoin (expr : Expression) (row : List Datum) (tableMap : List TableSlot) : Except HelionError Datum :=
  expr.evaluateWith uuidv7 (lookupJoin row tableMap)

/-- A row passes a condition that evaluates to TRUE; an error is not TRUE. -/
def passes (outcome : Except HelionError Datum) : Bool :=
  match outcome with
  | .ok (.boolean true) => true
  | _ => false

end Expression

end HelionDb
