import HelionDb.Json

/-! The where objects of structured queries and the filters that `structured.rs` makes of them. The look-up of a
logical key and the recursion into what it finds are one function here, so that the recursion follows the entries. -/

namespace HelionDb

namespace Expression

/-- `binary_op`. -/
def compareWith (left : Expression) (op : BinaryOperator) (right : Datum) : Expression :=
  .binaryOp left op (.literal right)

/-- `Iterator::reduce` with a binary operator. -/
def reduce (op : BinaryOperator) : List Expression → Option Expression
  | [] => none
  | first :: rest => some (rest.foldl (fun whole part => .binaryOp whole op part) first)

/-- `combine_and`. -/
def combineAnd : List Expression → Option Expression := reduce .and

/-- `combine_or`. -/
def combineOr : List Expression → Option Expression := reduce .or

end Expression

namespace Json

section

variable [NumberText]

/-- `parse_operator_condition`. -/
def parseOperatorCondition (field op : String) (val : Json) : Except HelionError Expression :=
  let col : Expression := .column field
  let datum := val.toDatum
  match op with
  | "eq" => .ok (col.compareWith .eq datum)
  | "ne" | "not" => .ok (col.compareWith .ne datum)
  | "gt" => .ok (col.compareWith .gt datum)
  | "gte" => .ok (col.compareWith .ge datum)
  | "lt" => .ok (col.compareWith .lt datum)
  | "lte" => .ok (col.compareWith .le datum)
  | "contains" => .ok (.like col ("%" ++ val.toText ++ "%"))
  | "startsWith" => .ok (.like col (val.toText ++ "%"))
  | "endsWith" => .ok (.like col ("%" ++ val.toText))
  | "in" =>
      match val.asArray with
      | some items => .ok (.inList col (items.map toDatum))
      | none => .error (.parse "'in' requires an array")
  | _ => .error (.parse ("Unknown operator: " ++ op))

/-- `parse_field_condition`. -/
def parseFieldCondition (field : String) (condition : Json) : Except HelionError (Option Expression) :=
  let col : Expression := .column field
  match condition with
  | .null => .ok (some (.isNull col))
  | .bool b => .ok (some (col.compareWith .eq (.boolean b)))
  | .number n => .ok (some (col.compareWith .eq (Json.number n).toDatum))
  | .string s => .ok (some (col.compareWith .eq (.text s)))
  | .object ops => do
      let parts ← ops.mapM fun entry => parseOperatorCondition field entry.1 entry.2
      return Expression.combineAnd parts
  | .array items => .ok (some (.inList col (items.map toDatum)))

mutual

/-- `parse_where_opt`. -/
def parseWhereOpt : Json → Except HelionError (Option Expression)
  | .null => .ok none
  | .object entries =>
      match conditionsUnder "AND" entries with
      | some exprs => exprs.map Expression.combineAnd
      | none =>
          match conditionsUnder "OR" entries with
          | some exprs => exprs.map Expression.combineOr
          | none =>
              match conditionUnder "NOT" entries with
              | some inner => inner.map fun filter => filter.map (Expression.unaryOp .not)
              | none =>
                  match entries with
                  | [] => .ok none
                  | (field, condition) :: _ => parseFieldCondition field condition
  | _ => .error (.parse "Invalid WHERE clause: expected object")

/-- The filters of the conditions in an array, those without one left out. -/
def parseConditions : List Json → Except HelionError (List Expression)
  | [] => .ok []
  | condition :: rest => do
      let filter ← parseWhereOpt condition
      let filters ← parseConditions rest
      return filter.toList ++ filters

/-- The filters of the array that an object has under a key, if it has one there. -/
def conditionsUnder (key : String) : List (String × Json) → Option (Except HelionError (List Expression))
  | [] => none
  | (name, value) :: rest =>
      if name = key then
        match value with
        | .array items => some (parseConditions items)
        | _ => none
      else conditionsUnder key rest

/-- The filter of the value that an object has under a key, if it has one there. -/
def conditionUnder (key : String) : List (String × Json) → Option (Except HelionError (Option Expression))
  | [] => none
  | (name, value) :: rest => if name = key then some (parseWhereOpt value) else conditionUnder key rest

end

/-- `parse_where_clause`. -/
def parseWhereClause (value : Json) : Except HelionError Expression :=
  match parseWhereOpt value with
  | .ok (some expr) => .ok expr
  | .ok none => .error (.parse "Empty WHERE clause")
  | .error err => .error err

/-- `parse_where_clause_opt`. -/
def parseWhereClauseOpt : Option Json → Except HelionError (Option Expression)
  | some value => parseWhereOpt value
  | none => .ok none

end

end Json

end HelionDb
