import HelionDb.JoinedLists

/-! Joins of multisets. A join is given by the relation between the elements of its sides, by what becomes of a pair and
of an element that is alone, and by the sides that keep theirs. -/

/-- A join of elements of `α` with elements of `β` to elements of `γ`. -/
structure OuterJoin (α β γ : Type) where
  on : α → β → Prop
  combine : α → β → γ
  keepsLeft : Prop
  padLeft : α → γ
  keepsRight : Prop
  padRight : β → γ

namespace OuterJoin

variable {α β γ : Type} (join : OuterJoin α β γ)

open scoped Classical in
/-- One element for each related pair, and one for each element that is alone on a side that keeps its elements. -/
noncomputable def result (lefts : Multiset α) (rights : Multiset β) : Multiset γ :=
  ((lefts ×ˢ rights).filter fun pair => join.on pair.1 pair.2).map (fun pair => join.combine pair.1 pair.2) +
    ((lefts.filter fun left => join.keepsLeft ∧ ∀ right ∈ rights, ¬ join.on left right).map join.padLeft +
      (rights.filter fun right => join.keepsRight ∧ ∀ left ∈ lefts, ¬ join.on left right).map join.padRight)

variable {join} {lefts : Multiset α} {rights : Multiset β}

theorem mem_result {item : γ} : item ∈ join.result lefts rights ↔
    (∃ left ∈ lefts, ∃ right ∈ rights, join.on left right ∧ join.combine left right = item) ∨
    (join.keepsLeft ∧ ∃ left ∈ lefts, (∀ right ∈ rights, ¬ join.on left right) ∧ join.padLeft left = item) ∨
    (join.keepsRight ∧ ∃ right ∈ rights, (∀ left ∈ lefts, ¬ join.on left right) ∧ join.padRight right = item) := by
  simp only [result, Multiset.mem_add, Multiset.mem_map, Multiset.mem_filter, Multiset.mem_product, Prod.exists]
  constructor
  · rintro (⟨left, right, ⟨⟨hleft, hright⟩, hon⟩, rfl⟩ | ⟨left, ⟨hleft, hkeeps, halone⟩, rfl⟩ |
      ⟨right, ⟨hright, hkeeps, halone⟩, rfl⟩)
    · exact .inl ⟨left, hleft, right, hright, hon, rfl⟩
    · exact .inr (.inl ⟨hkeeps, left, hleft, halone, rfl⟩)
    · exact .inr (.inr ⟨hkeeps, right, hright, halone, rfl⟩)
  · rintro (⟨left, hleft, right, hright, hon, rfl⟩ | ⟨hkeeps, left, hleft, halone, rfl⟩ |
      ⟨hkeeps, right, hright, halone, rfl⟩)
    · exact .inl ⟨left, right, ⟨⟨hleft, hright⟩, hon⟩, rfl⟩
    · exact .inr (.inl ⟨left, ⟨hleft, hkeeps, halone⟩, rfl⟩)
    · exact .inr (.inr ⟨right, ⟨hright, hkeeps, halone⟩, rfl⟩)

/-- The result on lists: the combinations of the pairs that pass a test, and the elements that are alone. -/
theorem result_coe {test : α → β → Bool} (htest : ∀ left right, test left right = true ↔ join.on left right)
    {keepsLeft keepsRight : Prop} [Decidable keepsLeft] [Decidable keepsRight] (hkeepsLeft : join.keepsLeft ↔ keepsLeft)
    (hkeepsRight : join.keepsRight ↔ keepsRight) (lefts : List α) (rights : List β) :
    join.result lefts rights =
      ↑(JoinedLists.joined test join.combine lefts rights ++
        ((lefts.filter fun left => keepsLeft ∧ ∀ right ∈ rights, test left right = false).map join.padLeft ++
          (rights.filter fun right => keepsRight ∧ ∀ left ∈ lefts, test left right = false).map join.padRight)) := by
  have hfalse : ∀ left right, ¬ join.on left right ↔ test left right = false := by
    intro left right
    rw [← htest, Bool.not_eq_true]
  have hpairs : ((lefts ×ˢ rights).filter fun pair => test pair.1 pair.2) =
      (lefts ×ˢ rights).filter fun pair => decide (test pair.1 pair.2 = true) := by
    simp only [Bool.decide_eq_true]
  rw [JoinedLists.joined_eq_product, hpairs, ← Multiset.coe_add, ← Multiset.coe_add, ← Multiset.map_coe,
    ← Multiset.map_coe, ← Multiset.map_coe, ← Multiset.filter_coe, ← Multiset.filter_coe, ← Multiset.filter_coe,
    ← Multiset.coe_product]
  unfold result
  classical
  congr 1
  · apply congrArg
    apply Multiset.filter_congr
    intro pair _
    exact (htest pair.1 pair.2).symm
  · congr 1
    · apply congrArg
      apply Multiset.filter_congr
      intro left _
      simp only [hkeepsLeft, hfalse, Multiset.mem_coe]
    · apply congrArg
      apply Multiset.filter_congr
      intro right _
      simp only [hkeepsRight, hfalse, Multiset.mem_coe]

end OuterJoin
