import Mathlib.Data.List.Forall2
import Mathlib.Data.Option.Basic

/-! Two runs of one program on related data. `SameOutcome` relates two fallible results that fail with the
same error or succeed with related values, and the operations on lists keep their elements related.
Functions that take related elements to equal values take related lists to equal lists. -/

namespace Relational

variable {ε α β γ δ : Type}

/-- Both fail with the same error, or both succeed with related values. -/
inductive SameOutcome (R : α → β → Prop) : Except ε α → Except ε β → Prop where
  | ok {left : α} {right : β} (h : R left right) : SameOutcome R (.ok left) (.ok right)
  | error (err : ε) : SameOutcome R (.error err) (.error err)

namespace SameOutcome

variable {R : α → β → Prop} {S : γ → δ → Prop} {left : Except ε α} {right : Except ε β}

theorem bind {f : α → Except ε γ} {g : β → Except ε δ} (h : SameOutcome R left right)
    (hnext : ∀ a b, R a b → SameOutcome S (f a) (g b)) : SameOutcome S (left >>= f) (right >>= g) := by
  cases h with
  | ok hvalues => exact hnext _ _ hvalues
  | error err => exact .error err

theorem eq {left right : Except ε α} (h : SameOutcome Eq left right) : left = right := by
  cases h with
  | ok hvalues => exact congrArg Except.ok hvalues
  | error err => rfl

theorem bind_eq {f : α → Except ε γ} {g : β → Except ε γ} (h : SameOutcome R left right)
    (hnext : ∀ a b, R a b → f a = g b) : (left >>= f) = (right >>= g) := by
  cases h with
  | ok hvalues => exact hnext _ _ hvalues
  | error err => rfl

theorem mapM {f : γ → Except ε α} {g : γ → Except ε β} (h : ∀ item, SameOutcome R (f item) (g item)) (items : List γ) :
    SameOutcome (List.Forall₂ R) (items.mapM f) (items.mapM g) := by
  induction items with
  | nil => exact .ok .nil
  | cons item rest ih =>
      rw [List.mapM_cons, List.mapM_cons]
      refine (h item).bind fun a b hfirst => ih.bind fun as bs hrest => ?_
      exact .ok (.cons hfirst hrest)

end SameOutcome

section

variable {R : α → β → Prop} {left : List α} {right : List β}

theorem map_eq {f : α → γ} {g : β → γ} (h : List.Forall₂ R left right) (hfun : ∀ a b, R a b → f a = g b) :
    left.map f = right.map g := by
  induction h with
  | nil => rfl
  | cons hfirst hrest ih => rw [List.map_cons, List.map_cons, hfun _ _ hfirst, ih]

theorem any_eq {p : α → Bool} {q : β → Bool} (h : List.Forall₂ R left right) (htest : ∀ a b, R a b → p a = q b) :
    left.any p = right.any q := by
  induction h with
  | nil => rfl
  | cons hfirst hrest ih => rw [List.any_cons, List.any_cons, htest _ _ hfirst, ih]

theorem isEmpty_eq (h : List.Forall₂ R left right) : left.isEmpty = right.isEmpty := by
  cases h with
  | nil => rfl
  | cons hfirst hrest => rfl

theorem findSome?_eq {f : α → Option γ} {g : β → Option γ} (h : List.Forall₂ R left right)
    (hfun : ∀ a b, R a b → f a = g b) : left.findSome? f = right.findSome? g := by
  induction h with
  | nil => rfl
  | cons hfirst hrest ih => rw [List.findSome?_cons, List.findSome?_cons, hfun _ _ hfirst, ih]

theorem rel_find? {p : α → Bool} {q : β → Bool} (h : List.Forall₂ R left right)
    (htest : ∀ a b, R a b → p a = q b) : Option.Rel R (left.find? p) (right.find? q) := by
  induction h with
  | nil => exact .none
  | @cons a b as bs hfirst hrest ih =>
      rw [List.find?_cons, List.find?_cons, htest _ _ hfirst]
      split
      · exact .some hfirst
      · exact ih

theorem rel_getElem? (h : List.Forall₂ R left right) (idx : Nat) : Option.Rel R left[idx]? right[idx]? := by
  induction h generalizing idx with
  | nil => exact .none
  | cons hfirst hrest ih =>
      cases idx with
      | zero => exact .some hfirst
      | succ idx => exact ih idx

theorem rel_filter {p : α → Bool} {q : β → Bool} (h : List.Forall₂ R left right)
    (htest : ∀ a b, R a b → p a = q b) : List.Forall₂ R (left.filter p) (right.filter q) :=
  List.rel_filter (fun a b hab => iff_of_eq (congrArg (· = true) (htest a b hab))) h

/-- The elements at some positions of related lists are related. -/
theorem rel_positions (h : List.Forall₂ R left right) (positions : List Nat) :
    List.Forall₂ R (positions.filterMap fun idx => left[idx]?) (positions.filterMap fun idx => right[idx]?) := by
  refine List.rel_filterMap (R := Eq) (fun idx idx' hsame => ?_) (List.forall₂_same.mpr fun _ _ => rfl)
  rw [hsame]
  exact rel_getElem? h idx'

end

end Relational
