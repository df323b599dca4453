import Mathlib.Data.Set.Insert

/-! A relation between keys and rows under additions and removals of single pairs. With the
uniqueness rule on, an addition is admitted when its key is free or already held by the same row;
a list of changes is admissible when each addition is admitted at its turn. Admissible changes keep
"no key belongs to two rows". -/

namespace KeyPairs

variable {κ ρ : Type}

inductive Change (κ ρ : Type) where
  | add (key : κ) (row : ρ)
  | drop (key : κ) (row : ρ)

/-- The pairs after one change. -/
def apply (pairs : Set (κ × ρ)) : Change κ ρ → Set (κ × ρ)
  | .add key row => insert (key, row) pairs
  | .drop key row => pairs \ {(key, row)}

/-- The pairs after a list of changes. -/
def applyAll (pairs : Set (κ × ρ)) (changes : List (Change κ ρ)) : Set (κ × ρ) :=
  changes.foldl apply pairs

/-- Under the uniqueness rule a key that is held may only be added for a row that holds it. -/
def Admits (unique : Bool) (pairs : Set (κ × ρ)) : Change κ ρ → Prop
  | .add key row => unique = true → (∃ other, (key, other) ∈ pairs) → (key, row) ∈ pairs
  | .drop _ _ => True

/-- Every change is admitted when its turn comes. -/
def Admissible (unique : Bool) : Set (κ × ρ) → List (Change κ ρ) → Prop
  | _, [] => True
  | pairs, change :: rest => Admits unique pairs change ∧ Admissible unique (apply pairs change) rest

/-- No key belongs to two rows. -/
def UniqueKeys (pairs : Set (κ × ρ)) : Prop :=
  ∀ key row other, (key, row) ∈ pairs → (key, other) ∈ pairs → row = other

@[simp] theorem mem_apply_add {pairs : Set (κ × ρ)} {key : κ} {row : ρ} {pair : κ × ρ} :
    pair ∈ apply pairs (.add key row) ↔ pair = (key, row) ∨ pair ∈ pairs :=
  Set.mem_insert_iff

@[simp] theorem mem_apply_drop {pairs : Set (κ × ρ)} {key : κ} {row : ρ} {pair : κ × ρ} :
    pair ∈ apply pairs (.drop key row) ↔ pair ∈ pairs ∧ pair ≠ (key, row) :=
  Iff.rfl

@[simp] theorem applyAll_nil (pairs : Set (κ × ρ)) : applyAll pairs [] = pairs := rfl

theorem applyAll_cons (pairs : Set (κ × ρ)) (change : Change κ ρ) (rest : List (Change κ ρ)) :
    applyAll pairs (change :: rest) = applyAll (apply pairs change) rest := rfl

theorem applyAll_append (pairs : Set (κ × ρ)) (first second : List (Change κ ρ)) :
    applyAll pairs (first ++ second) = applyAll (applyAll pairs first) second :=
  List.foldl_append

theorem admissible_append {unique : Bool} {pairs : Set (κ × ρ)} {first second : List (Change κ ρ)} :
    Admissible unique pairs (first ++ second) ↔
      Admissible unique pairs first ∧ Admissible unique (applyAll pairs first) second := by
  induction first generalizing pairs with
  | nil => simp [Admissible]
  | cons change rest ih => simp only [List.cons_append, Admissible, ih, applyAll_cons, and_assoc]

/-- Without the uniqueness rule everything is admissible. -/
theorem admissible_of_not_unique (pairs : Set (κ × ρ)) (changes : List (Change κ ρ)) :
    Admissible false pairs changes := by
  induction changes generalizing pairs with
  | nil => trivial
  | cons change rest ih =>
      refine ⟨?_, ih _⟩
      cases change with
      | add key row => exact fun h => absurd h (by decide)
      | drop key row => trivial

theorem UniqueKeys.apply {pairs : Set (κ × ρ)} (h : UniqueKeys pairs) {change : Change κ ρ}
    (hadmits : Admits true pairs change) : UniqueKeys (apply pairs change) := by
  intro key row other hrow hother
  cases change with
  | add added holder =>
      have hheld := hadmits rfl
      rcases mem_apply_add.mp hrow with hnew | hold <;> rcases mem_apply_add.mp hother with hnew' | hold'
      · exact (Prod.mk.inj hnew).2.trans (Prod.mk.inj hnew').2.symm
      · obtain ⟨rfl, rfl⟩ := Prod.mk.inj hnew
        exact h key row other (hheld ⟨other, hold'⟩) hold'
      · obtain ⟨rfl, rfl⟩ := Prod.mk.inj hnew'
        exact h key row other hold (hheld ⟨row, hold⟩)
      · exact h key row other hold hold'
  | drop dropped holder => exact h key row other hrow.1 hother.1

theorem UniqueKeys.applyAll {pairs : Set (κ × ρ)} (h : UniqueKeys pairs) {changes : List (Change κ ρ)}
    (hadmissible : Admissible true pairs changes) : UniqueKeys (applyAll pairs changes) := by
  induction changes generalizing pairs with
  | nil => exact h
  | cons change rest ih => exact ih (h.apply hadmissible.1) hadmissible.2

/-- Additions are admitted where each key goes to one row only and no other row has it before. -/
theorem admissible_of_apart {pairs : Set (κ × ρ)} {changes : List (Change κ ρ)}
    (hfree : ∀ (key : κ) (row other : ρ), .add key row ∈ changes → (key, other) ∈ pairs → other = row)
    (honce : ∀ (key : κ) (row other : ρ), .add key row ∈ changes → .add key other ∈ changes → other = row) :
    Admissible true pairs changes := by
  induction changes generalizing pairs with
  | nil => trivial
  | cons change rest ih =>
      refine ⟨?_, ih (fun key row other hrow hother => ?_) fun key row other hrow hother =>
        honce key row other (List.mem_cons_of_mem _ hrow) (List.mem_cons_of_mem _ hother)⟩
      · cases change with
        | add key row =>
            rintro - ⟨other, hother⟩
            rwa [← hfree key row other List.mem_cons_self hother]
        | drop key row => trivial
      · have hlater := List.mem_cons_of_mem change hrow
        cases change with
        | add added holder =>
            rcases mem_apply_add.mp hother with heq | hold
            · obtain ⟨rfl, rfl⟩ := Prod.mk.inj heq
              exact honce key row other hlater List.mem_cons_self
            · exact hfree key row other hlater hold
        | drop dropped holder => exact hfree key row other hlater (mem_apply_drop.mp hother).1

end KeyPairs
