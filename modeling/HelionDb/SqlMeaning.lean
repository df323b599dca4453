import HelionDb.Kleene
import HelionDb.Like
import HelionDb.SqlExpr

/-! What SQL gives for an expression on a row: the connectives of three values, lists, ranges, patterns and negations,
over the comparisons, the arithmetic and the functions of the engine. -/

namespace HelionDb

namespace Datum

/-- The truth of a value. -/
def truth : Datum → Option Bool
  | null => none
  | value => some value.datumToBool

/-- The value of a truth. -/
def ofTruth : Option Bool → Datum
  | none => null
  | some b => boolean b

/-- `value >= low`. -/
def atLeast (value low : Datum) : Option Bool :=
  if value.isNull || low.isNull then none else some (((value.compareDatums low).map (· != .lt)).getD false)

/-- `value <= high`. -/
def atMost (value high : Datum) : Option Bool :=
  if value.isNull || high.isNull then none else some (((value.compareDatums high).map (· != .gt)).getD false)

/-- `value IN (items)`. -/
def among (value : Datum) (items : List Datum) : Option Bool :=
  if items.any fun item => item.datumEq value then some true
  else if items ≠ [] ∧ (value.isNull || items.any isNull) then none
  else some false

end Datum

/-- The tokens of a pattern; a character behind the escape stands for itself. -/
def sqlTokens (escape : Option Char) : List Char → Except HelionError (List (Wildcard.Token Char))
  | [] => .ok []
  | [c] =>
      if escape = some c then .error (.parse "LIKE pattern must not end with escape character")
      else .ok [likeToken c]
  | c :: next :: rest =>
      if escape = some c then (sqlTokens escape rest).map (.exactly next :: ·)
      else (sqlTokens escape (next :: rest)).map (likeToken c :: ·)

/-- `value LIKE pattern ESCAPE escape`. -/
def sqlLike [Rendering] (escape : Option String) (value pattern : Datum) : Except HelionError (Option Bool) :=
  if value.isNull || pattern.isNull then .ok none
  else
    (sqlTokens (escape.bind fun text => text.toList.head?) pattern.datumToString.toList).map fun tokens =>
      some (decide (Wildcard.Matches tokens value.datumToString.toList))

/-- NOT in front of a predicate. -/
def negateIf (negated : Bool) (truth : Option Bool) : Option Bool := if negated then Kleene.not truth else truth

namespace SqlValue

/-- The value that a literal writes: an integer is one of the engine's if it has room for it, and a `f64` otherwise. -/
def meaning : SqlValue → Except HelionError Datum
  | number text =>
      match decimalValue text with
      | some value =>
          if value ≤ 2 ^ 63 - 1 then .ok (.bigInt (.ofNat value))
          else if value ≤ 2 ^ 64 - 1 then .ok (.unsignedBigInt (.ofNat value))
          else .ok (f64ToDouble (scientific value 0))
      | none =>
          match parseF64 text with
          | some bits => .ok (.double bits)
          | none => .error (.parse ("Invalid number: " ++ text))
  | singleQuotedString text | nationalStringLiteral text => .ok (.text text)
  | boolean value => .ok (.boolean value)
  | null => .ok .null
  | other text => .error (.parse ("Unsupported value: " ++ text))

end SqlValue

/-- What SQL gives for a binary operator. -/
def SqlBinaryOperator.meaning (op : SqlBinaryOperator) (left right : Datum) : Except HelionError Datum :=
  match op with
  | .and => .ok (.ofTruth (Kleene.and left.truth right.truth))
  | .or => .ok (.ofTruth (Kleene.or left.truth right.truth))
  | op =>
      match op.toOperator with
      | some op => Expression.applyBinary op left right
      | none => .error (.parse "Unsupported operator")

/-- What SQL gives for a unary operator. -/
def SqlUnaryOperator.meaning (op : SqlUnaryOperator) (value : Datum) : Except HelionError Datum :=
  match op with
  | .not => .ok (.ofTruth (Kleene.not value.truth))
  | .minus => if value.isNull then .ok .null else value.negateDatum
  | .plus => .ok value
  | .other _ => .error (.parse "Unsupported operator")

namespace SqlExpr

variable [CaseMapping] [Rendering] (uuidv7 : BitVec 128) (lookup : Option String → String → Except HelionError Datum)

/-- The column of a compound name; what stands in front of the table is the schema. -/
def resolve (parts : List Ident) : Except HelionError Datum :=
  match parts.reverse with
  | column :: table :: _ => lookup (some table.value) column.value
  | [column] => lookup none column.value
  | [] => .error (.parse "Empty identifier")

mutual

/-- What SQL gives for an expression. -/
def meaning : SqlExpr → Except HelionError Datum
  | .identifier id => lookup none id.value
  | .compoundIdentifier parts => resolve lookup parts
  | .value v => v.meaning
  | .binaryOp left op right => do
      let leftVal ← meaning left
      let rightVal ← meaning right
      op.meaning leftVal rightVal
  | .unaryOp op inner => do
      let val ← meaning inner
      op.meaning val
  | .isNull inner => do
      let val ← meaning inner
      return .boolean val.isNull
  | .isNotNull inner => do
      let val ← meaning inner
      return .boolean (!val.isNull)
  | .inList inner list negated => do
      let val ← meaning inner
      let items ← meanings list
      return .ofTruth (negateIf negated (val.among items))
  | .between inner negated low high => do
      let val ← meaning inner
      let lowVal ← meaning low
      let highVal ← meaning high
      return .ofTruth (negateIf negated (Kleene.and (val.atLeast lowVal) (val.atMost highVal)))
  | .like negated inner pattern escapeChar => do
      let val ← meaning inner
      let patternVal ← meaning pattern
      let truth ← sqlLike escapeChar val patternVal
      return .ofTruth (negateIf negated truth)
  | .function _ _ true => .error (.parse "Unsupported clause")
  | .function name args false => do
      let values ← argMeanings args
      evaluateFunction uuidv7 name values
  | .nested inner => meaning inner
  | .cast _ _ => .error (.parse "Unsupported expression")
  | .other _ => .error (.parse "Unsupported expression")

def meanings : List SqlExpr → Except HelionError (List Datum)
  | [] => .ok []
  | expr :: rest => do
      let value ← meaning expr
      let values ← meanings rest
      return value :: values

def argMeanings : List SqlFunctionArg → Except HelionError (List Datum)
  | [] => .ok []
  | .unnamed expr :: rest => do
      let value ← meaning expr
      let values ← argMeanings rest
      return value :: values
  | .other _ :: _ => .error (.parse "Unsupported argument")

end

end SqlExpr

end HelionDb
