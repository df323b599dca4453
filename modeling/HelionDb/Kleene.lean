import Mathlib.Data.Option.Basic

/-! Kleene's logic of three values, `none` for the unknown one, and where a connective that gives up on unknown operands
agrees with it. -/

namespace Kleene

/-- A false operand decides. -/
def and : Option Bool → Option Bool → Option Bool
  | some false, _ | _, some false => some false
  | some true, some true => some true
  | _, _ => none

/-- A true operand decides. -/
def or : Option Bool → Option Bool → Option Bool
  | some true, _ | _, some true => some true
  | some false, some false => some false
  | _, _ => none

def not (value : Option Bool) : Option Bool := value.map Bool.not

/-- A connective that needs both of its operands. -/
def strict (op : Bool → Bool → Bool) (left right : Option Bool) : Option Bool :=
  left.bind fun l => right.map fun r => op l r

/-- Both operands are known, or none of them decides. -/
def Decided (decider : Bool) (left right : Option Bool) : Prop :=
  (left.isSome = true ∧ right.isSome = true) ∨ (left ≠ some decider ∧ right ≠ some decider)

instance (decider : Bool) (left right : Option Bool) : Decidable (Decided decider left right) :=
  inferInstanceAs (Decidable (_ ∨ _))

theorem strict_and_eq_iff {left right : Option Bool} :
    strict (· && ·) left right = and left right ↔ Decided false left right := by
  rcases left with _ | _ | _ <;> rcases right with _ | _ | _ <;> decide

theorem strict_or_eq_iff {left right : Option Bool} :
    strict (· || ·) left right = or left right ↔ Decided true left right := by
  rcases left with _ | _ | _ <;> rcases right with _ | _ | _ <;> decide

end Kleene
