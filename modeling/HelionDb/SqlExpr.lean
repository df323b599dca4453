import HelionDb.Eval

/-! The expressions that `sqlparser` reads, and what `parser.rs` makes of them: a value where a statement needs a
literal, an expression of the engine where it needs a condition. What the crate prints for an expression is a
parameter. -/

namespace HelionDb

/-- `ast::Value`; the kinds of quoted text and the placeholders that the parser does not look at are one. -/
inductive SqlValue where
  | number (text : String)
  | singleQuotedString (text : String)
  | nationalStringLiteral (text : String)
  | boolean (value : Bool)
  | null
  | other (text : String)
  deriving DecidableEq

/-- `ast::BinaryOperator`. -/
inductive SqlBinaryOperator where
  | eq
  | notEq
  | lt
  | ltEq
  | gt
  | gtEq
  | and
  | or
  | plus
  | minus
  | multiply
  | divide
  | other (symbol : String)
  deriving DecidableEq

/-- `ast::UnaryOperator`. -/
inductive SqlUnaryOperator where
  | not
  | minus
  | plus
  | other (symbol : String)
  deriving DecidableEq

/-- `ast::Ident`. -/
structure Ident where
  value : String
  quoteStyle : Option Char
  deriving DecidableEq

mutual

/-- `ast::Expr`. A function is `modified` when it has a DISTINCT, a FILTER, an OVER or another clause that the parser does
not look at, or arguments that are no list. -/
inductive SqlExpr where
  | identifier (id : Ident)
  | compoundIdentifier (parts : List Ident)
  | value (value : SqlValue)
  | binaryOp (left : SqlExpr) (op : SqlBinaryOperator) (right : SqlExpr)
  | unaryOp (op : SqlUnaryOperator) (expr : SqlExpr)
  | isNull (expr : SqlExpr)
  | isNotNull (expr : SqlExpr)
  | inList (expr : SqlExpr) (list : List SqlExpr) (negated : Bool)
  | between (expr : SqlExpr) (negated : Bool) (low high : SqlExpr)
  | like (negated : Bool) (expr pattern : SqlExpr) (escapeChar : Option String)
  | function (name : String) (args : List SqlFunctionArg) (modified : Bool)
  | nested (expr : SqlExpr)
  | cast (expr : SqlExpr) (dataType : String)
  | other (text : String)

/-- `ast::FunctionArg`; a wildcard or a named argument is not an unnamed expression. -/
inductive SqlFunctionArg where
  | unnamed (expr : SqlExpr)
  | other (text : String)

end

/-- What the crate prints for a name, and for an expression by `to_string` and by `{:?}`. A name without quotes is printed
as it is. -/
class SqlExprText where
  ident : Ident → String
  display : SqlExpr → String
  debug : SqlExpr → String
  ident_unquoted : ∀ value, ident { value, quoteStyle := none } = value

/-- `Ident::to_string`. -/
def Ident.text [SqlExprText] (ident : Ident) : String := SqlExprText.ident ident

namespace PlainText

/-- A stand-in that prints every expression alike, and names without what quotes them. -/
scoped instance sqlExprText : SqlExprText where
  ident name := name.value
  display _ := "expr"
  debug _ := "expr"
  ident_unquoted _ := rfl

end PlainText

/-- The number that decimal digits write. -/
def digitsValue (digits : List Char) : Nat :=
  digits.foldl (fun value digit => 10 * value + (digit.toNat - '0'.toNat)) 0

/-- The number that a text of decimal digits writes. -/
def decimalValue (text : String) : Option Nat :=
  if text.toList ≠ [] ∧ text.toList.all Char.isDigit then some (digitsValue text.toList) else none

/-- `n.parse::<i64>()` of a number token, which has no sign. -/
def parseI64 (text : String) : Option Int64 :=
  (decimalValue text).bind fun value => if value ≤ 2 ^ 63 - 1 then some (.ofNat value) else none

/-- The exponent of a number token. -/
def exponentValue : List Char → Option Int
  | [] => none
  | '-' :: digits => if digits ≠ [] ∧ digits.all Char.isDigit then some (-digitsValue digits) else none
  | '+' :: digits => if digits ≠ [] ∧ digits.all Char.isDigit then some (digitsValue digits) else none
  | digits => if digits.all Char.isDigit then some (digitsValue digits) else none

/-- The nearest `f64` to `mantissa * 10 ^ exponent`. -/
def scientific (mantissa : Nat) (exponent : Int) : Float :=
  if exponent < 0 then .ofScientific mantissa true exponent.natAbs else .ofScientific mantissa false exponent.natAbs

/-- `n.parse::<f64>()` of a number token: digits around a point, and an exponent behind them. -/
def parseF64 (text : String) : Option (BitVec 64) :=
  let isMark (c : Char) : Bool := c = 'e' ∨ c = 'E'
  let number := text.toList.takeWhile fun c => !isMark c
  let behind := text.toList.drop number.length
  let whole := number.takeWhile (· ≠ '.')
  let fraction := (number.drop whole.length).drop 1
  if (whole ++ fraction).all Char.isDigit && !(whole ++ fraction).isEmpty then
    let exponent := if behind.isEmpty then some 0 else exponentValue (behind.drop 1)
    exponent.map fun exponent =>
      (scientific (digitsValue (whole ++ fraction)) (exponent - fraction.length)).toBits.toBitVec
  else none

/-- `n.contains('.')`. -/
def hasPoint (text : String) : Bool := '.' ∈ text.toList

/-- `-x` of an `f64`: the other sign. -/
def negateBits (bits : BitVec 64) : BitVec 64 := bits ^^^ 1#64 <<< 63

/-! ### Literals -/

/-- `sql_value_to_datum`. -/
def sqlValueToDatum : SqlValue → Datum
  | .number n =>
      if hasPoint n then ((parseF64 n).map Datum.double).getD .null
      else ((parseI64 n).map Datum.bigInt).getD .null
  | .singleQuotedString s | .nationalStringLiteral s => .text s
  | .boolean b => .boolean b
  | .null => .null
  | .other _ => .null

theorem parseI64_of_le {text : String} {value : Nat} (htext : decimalValue text = some value)
    (hvalue : value ≤ 2 ^ 63 - 1) : parseI64 text = some (.ofNat value) := by
  rw [parseI64, htext, Option.bind_some, if_pos hvalue]

theorem parseI64_of_gt {text : String} {value : Nat} (htext : decimalValue text = some value)
    (hvalue : 2 ^ 63 - 1 < value) : parseI64 text = none := by
  rw [parseI64, htext, Option.bind_some, if_neg (by omega)]

/-- A text of digits has no point. -/
theorem hasPoint_eq_false {text : String} {value : Nat} (htext : decimalValue text = some value) :
    hasPoint text = false := by
  unfold decimalValue at htext
  split at htext
  · rename_i hdigits
    refine decide_eq_false fun hmem => ?_
    have hdigit := List.all_eq_true.mp hdigits.2 _ hmem
    revert hdigit
    decide
  · cases htext

/-- An integer literal without a sign. -/
theorem sqlValueToDatum_number {text : String} {value : Nat} (htext : decimalValue text = some value) :
    sqlValueToDatum (.number text) = if value ≤ 2 ^ 63 - 1 then .bigInt (.ofNat value) else .null := by
  rw [sqlValueToDatum, hasPoint_eq_false htext, if_neg Bool.false_ne_true]
  split
  · rename_i hvalue
    rw [parseI64_of_le htext hvalue]
    rfl
  · rename_i hvalue
    rw [parseI64_of_gt htext (by omega)]
    rfl

/-- `value as i32` of the negation of an `i64`. -/
def negatedI32 (value : Int64) : Int32 := .ofInt (-value.toInt)

/-- `sql_expr_to_datum`; `uuidv7` is the identifier it would draw. -/
def sqlExprToDatum [CaseMapping] [SqlExprText] (uuidv7 : BitVec 128) : SqlExpr → Except HelionError Datum
  | .value v => .ok (sqlValueToDatum v)
  | .function name _ _ =>
      if CaseMapping.toUppercase name = "UUIDV7" then .ok (.uuidV7 uuidv7)
      else .error (.parse ("Unsupported function in literal context: " ++ name))
  | .unaryOp .minus (.value (.number n)) =>
      if hasPoint n then
        match parseF64 n with
        | some bits => .ok (.double (negateBits bits))
        | none => .error (.parse ("Invalid number: " ++ n))
      else
        match parseI64 n with
        | some value => .ok (.integer (negatedI32 value))
        | none => .error (.parse ("Invalid integer: " ++ n))
  | .unaryOp .minus _ => .error (.parse "Invalid negative expression")
  | other => .error (.parse ("Expected literal value, got: " ++ SqlExprText.debug other))

/-- `sql_expr_to_datum_opt`. -/
def sqlExprToDatumOpt : SqlExpr → Option Datum
  | .value v => some (sqlValueToDatum v)
  | _ => none

/-- The operator of the engine for one of SQL, if it has it. -/
def SqlBinaryOperator.toOperator : SqlBinaryOperator → Option BinaryOperator
  | eq => some .eq
  | notEq => some .ne
  | lt => some .lt
  | ltEq => some .le
  | gt => some .gt
  | gtEq => some .ge
  | and => some .and
  | or => some .or
  | plus => some .add
  | minus => some .sub
  | multiply => some .mul
  | divide => some .div
  | other _ => none

/-- The operator of the engine for one of SQL, if it has it. -/
def SqlUnaryOperator.toOperator : SqlUnaryOperator → Option UnaryOperator
  | not => some .not
  | minus => some .neg
  | plus => none
  | other _ => none

/-- The pattern that the conversion of a LIKE takes. -/
def sqlPattern [SqlExprText] : SqlExpr → String
  | .value (.singleQuotedString s) => s
  | pattern => SqlExprText.display pattern

mutual

/-- `sql_expr_to_expression`. -/
def sqlExprToExpression [SqlExprText] : SqlExpr → Expression
  | .identifier id => .column id.text
  | .compoundIdentifier parts =>
      match parts with
      | [table, column] => .qualifiedColumn table.text column.text
      | _ => .column (".".intercalate (parts.map Ident.text))
  | .value v => .literal (sqlValueToDatum v)
  | .binaryOp left op right =>
      match op.toOperator with
      | some binOp => .binaryOp (sqlExprToExpression left) binOp (sqlExprToExpression right)
      | none => .literal .null
  | .unaryOp op inner =>
      match op.toOperator with
      | some unOp => .unaryOp unOp (sqlExprToExpression inner)
      | none => .literal .null
  | .isNull inner => .isNull (sqlExprToExpression inner)
  | .isNotNull inner => .isNotNull (sqlExprToExpression inner)
  | .inList inner list _ => .inList (sqlExprToExpression inner) (list.filterMap sqlExprToDatumOpt)
  | .between inner _ low high =>
      .between (sqlExprToExpression inner) (sqlExprToExpression low) (sqlExprToExpression high)
  | .like _ inner pattern _ => .like (sqlExprToExpression inner) (sqlPattern pattern)
  | .function name args _ => .function name (sqlArgsToExpressions args)
  | .nested inner => sqlExprToExpression inner
  | .cast inner _ => sqlExprToExpression inner
  | .other _ => .literal .null

/-- The arguments of a function that are unnamed expressions. -/
def sqlArgsToExpressions [SqlExprText] : List SqlFunctionArg → List Expression
  | [] => []
  | .unnamed expr :: rest => sqlExprToExpression expr :: sqlArgsToExpressions rest
  | .other _ :: rest => sqlArgsToExpressions rest

end

end HelionDb
