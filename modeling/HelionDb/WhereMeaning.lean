import HelionDb.Like
import HelionDb.WhereClause

/-! What a where object says about a row, in two values: all of its entries hold, an AND needs all of its conditions and
an OR one of them. Beside it the conditions under which the filter of `structured.rs` says the same. -/

namespace HelionDb

/-- Texts are texts in every type of column. -/
def Datum.asText : Datum → Datum
  | varChar s | char s => text s
  | other => other

/-- The value of each column of a row. -/
abbrev StoredRow := String → Option Datum

namespace Json

section

variable [Rendering] [NumberText]

/-- The value of a literal; every integer keeps its own. -/
def literal : Json → Datum
  | number (.posInt value) =>
      if value.toNat ≤ 2 ^ 63 - 1 then .bigInt (.ofNat value.toNat) else .unsignedBigInt value
  | other => other.toDatum

/-- How a stored value compares with a literal. -/
def against (stored : Datum) (operand : Json) : Option Ordering := stored.asText.compareDatums operand.literal

/-- The stored value is the one written, a null for a NULL. -/
def isEqual (stored : Datum) : Json → Bool
  | null => stored.isNull
  | operand => against stored operand = some .eq

/-- The stored value is among the items of a list. -/
def isAmong (stored : Datum) (items : List Json) : Bool :=
  items.any fun item =>
    match item with
    | null => stored.isNull
    | item => item.literal.datumEq stored.asText

/-- The text of a scalar. -/
def scalarText : Json → Option String
  | string s => some s
  | number n => some n.text
  | bool b => some (toString b)
  | _ => none

/-- A text stands in the stored value, where the relation puts it. -/
def hasText (stored : Datum) (operand : Json) (within : List Char → List Char → Bool) : Bool :=
  match operand.scalarText with
  | some text => !stored.isNull && within text.toList stored.datumToString.toList
  | none => false

/-- What an operator says of the value of its field. -/
def operatorHolds (stored : Datum) (op : String) (operand : Json) : Bool :=
  match op with
  | "eq" => isEqual stored operand
  | "ne" | "not" => !stored.isNull && !isEqual stored operand
  | "gt" => against stored operand = some .gt
  | "gte" => against stored operand = some .gt || against stored operand = some .eq
  | "lt" => against stored operand = some .lt
  | "lte" => against stored operand = some .lt || against stored operand = some .eq
  | "contains" => hasText stored operand fun text whole => text <:+: whole
  | "startsWith" => hasText stored operand fun text whole => text <+: whole
  | "endsWith" => hasText stored operand fun text whole => text <:+ whole
  | "in" => isAmong stored (operand.asArray.getD [])
  | _ => false

/-- What the condition of a field says of its value; nothing holds of a column that is not there. -/
def fieldHolds (stored : Option Datum) : Json → Bool
  | object ops => ops.all fun entry => stored.any fun stored => operatorHolds stored entry.1 entry.2
  | array items => stored.any fun stored => isAmong stored items
  | scalar => stored.any fun stored => isEqual stored scalar

/-! ### Where objects -/

mutual

/-- Every condition written in a where object holds for the row. -/
def holds (row : StoredRow) : Json → Bool
  | null => true
  | object entries => entriesHold row entries
  | _ => false

/-- Every entry holds. -/
def entriesHold (row : StoredRow) : List (String × Json) → Bool
  | [] => true
  | (key, array items) :: rest =>
      (if key = "AND" then allHold row items
        else if key = "OR" then anyHolds row items
        else fieldHolds (row key) (array items)) && entriesHold row rest
  | (key, value) :: rest =>
      (if key = "NOT" then !holds row value else fieldHolds (row key) value) && entriesHold row rest

def allHold (row : StoredRow) : List Json → Bool
  | [] => true
  | condition :: rest => holds row condition && allHold row rest

def anyHolds (row : StoredRow) : List Json → Bool
  | [] => false
  | condition :: rest => holds row condition || anyHolds row rest

end

end

mutual

/-- The fields with a condition; without any, a where object says nothing. -/
def conditionFields : Json → List String
  | object entries => entryFields entries
  | _ => []

def entryFields : List (String × Json) → List String
  | [] => []
  | (key, array items) :: rest =>
      (if key = "AND" ∨ key = "OR" then itemFields items else [key]) ++ entryFields rest
  | (key, object ops) :: rest =>
      (if key = "NOT" then conditionFields (object ops) else if ops.isEmpty then [] else [key]) ++ entryFields rest
  | (key, value) :: rest => (if key = "NOT" then conditionFields value else [key]) ++ entryFields rest

def itemFields : List Json → List String
  | [] => []
  | condition :: rest => conditionFields condition ++ itemFields rest

end

/-- All fields with a condition are columns. -/
def namesColumns (row : StoredRow) (condition : Json) : Bool :=
  condition.conditionFields.all fun field => (row field).isSome

/-- An operator compares a NULL. -/
def operatorComparesNull (stored : Datum) (op : String) (operand : Json) : Bool :=
  match op with
  | "eq" | "ne" | "not" | "gt" | "gte" | "lt" | "lte" => stored.isNull || operand.literal.isNull
  | _ => false

/-- The condition of a field compares a NULL. -/
def fieldComparesNull (stored : Datum) : Json → Bool
  | object ops => ops.any fun entry => operatorComparesNull stored entry.1 entry.2
  | null | array _ => false
  | _ => stored.isNull

mutual

/-- Somewhere outside of a NOT, a NULL is compared. -/
def comparesNull (row : StoredRow) : Json → Bool
  | object entries => entriesCompareNull row entries
  | _ => false

def entriesCompareNull (row : StoredRow) : List (String × Json) → Bool
  | [] => false
  | (key, array items) :: rest =>
      (if key = "AND" ∨ key = "OR" then anyComparesNull row items
        else (row key).any fun stored => fieldComparesNull stored (array items)) || entriesCompareNull row rest
  | (key, value) :: rest =>
      (if key = "NOT" then false
        else (row key).any fun stored => fieldComparesNull stored value) || entriesCompareNull row rest

def anyComparesNull (row : StoredRow) : List Json → Bool
  | [] => false
  | condition :: rest => comparesNull row condition || anyComparesNull row rest

end

section

variable [Rendering] [NumberText]

/-- A literal that keeps its value, not a text for a CHAR. -/
def comparable (stored : Datum) : Json → Bool
  | number (.posInt value) => value.toNat ≤ 2 ^ 63 - 1
  | string _ =>
      match stored with
      | .char _ => false
      | _ => true
  | _ => true

/-- A literal for a list, which is no null either. -/
def listable (stored : Datum) (item : Json) : Bool :=
  match item with
  | null => false
  | item => item.comparable stored

/-- The operand of an operator is one that the filter takes as it is written. -/
def operatorFaithful (stored : Datum) (op : String) (operand : Json) : Bool :=
  match op with
  | "eq" => operand.listable stored
  | "ne" | "not" => operand.scalarText.isSome && operand.comparable stored
  | "gt" | "gte" | "lt" | "lte" => operand.comparable stored
  | "contains" | "startsWith" | "endsWith" =>
      operand.scalarText.any fun text => Plain text && (!stored.isNull || text ≠ "")
  | "in" => (operand.asArray.getD []).all (listable stored)
  | _ => true

/-- All operands of a field are such. -/
def fieldFaithful (stored : Datum) : Json → Bool
  | object ops => ops.all fun entry => operatorFaithful stored entry.1 entry.2
  | array items => items.all (listable stored)
  | scalar => scalar.comparable stored

mutual

/-- Every object has at most one key; an OR has conditions that all say something, and none of them holds where one
compares a NULL; a NOT has a condition that says something; all operands are faithful. -/
def faithful (row : StoredRow) : Json → Bool
  | object entries => entries.length ≤ 1 && entriesFaithful row entries
  | _ => true

def entriesFaithful (row : StoredRow) : List (String × Json) → Bool
  | [] => true
  | (key, array items) :: rest =>
      (if key = "AND" then allFaithful row items
        else if key = "OR" then
          !items.isEmpty && (items.all fun item => !item.conditionFields.isEmpty) && allFaithful row items &&
            (!anyComparesNull row items || !anyHolds row items)
        else (row key).all fun stored => fieldFaithful stored (array items)) && entriesFaithful row rest
  | (key, value) :: rest =>
      (if key = "NOT" then !value.conditionFields.isEmpty && faithful row value
        else (row key).all fun stored => fieldFaithful stored value) && entriesFaithful row rest

def allFaithful (row : StoredRow) : List Json → Bool
  | [] => true
  | condition :: rest => faithful row condition && allFaithful row rest

end

end

end Json

end HelionDb
