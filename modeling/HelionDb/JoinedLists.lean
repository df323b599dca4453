import Mathlib.Data.List.ProdSigma
import Mathlib.Data.Multiset.Bind

/-! Combinations of two lists. `joined` combines the pairs that a test lets through, in the order of the first list.
Which list goes first changes the order of the combinations only, and a test that lets fewer pairs through gives the same
combinations only where it lets the same pairs through. -/

namespace JoinedLists

variable {α β γ κ : Type}

/-- The combinations of the pairs that pass a test. -/
def joined (test : α → β → Bool) (combine : α → β → γ) (lefts : List α) (rights : List β) : List γ :=
  lefts.flatMap fun left => (rights.filter (test left)).map (combine left)

section

variable {test : α → β → Bool} {combine : α → β → γ} {lefts : List α} {rights : List β}

theorem mem_joined {item : γ} :
    item ∈ joined test combine lefts rights ↔
      ∃ left ∈ lefts, ∃ right ∈ rights, test left right = true ∧ combine left right = item := by
  simp only [joined, List.mem_flatMap, List.mem_map, List.mem_filter, and_assoc]

theorem joined_eq_product :
    joined test combine lefts rights =
      ((lefts ×ˢ rights).filter fun pair => test pair.1 pair.2).map fun pair => combine pair.1 pair.2 := by
  change _ = ((lefts.flatMap fun left => rights.map (Prod.mk left)).filter _).map _
  rw [List.filter_flatMap, List.map_flatMap]
  apply congrArg (List.flatMap · lefts)
  funext left
  rw [List.filter_map, List.map_map]
  rfl

/-- The list that goes first decides about the order only. -/
theorem joined_swap :
    (joined (fun right left => test left right) (fun right left => combine left right) rights lefts).Perm
      (joined test combine lefts rights) := by
  have hswap : ((rights ×ˢ lefts).map Prod.swap).Perm (lefts ×ˢ rights) := by
    apply Multiset.coe_eq_coe.mp
    have h := Multiset.map_swap_product (rights : Multiset β) (lefts : Multiset α)
    rwa [Multiset.coe_product, Multiset.coe_product, Multiset.map_coe] at h
  rw [joined_eq_product, joined_eq_product]
  have h := (hswap.filter fun pair => test pair.1 pair.2).map fun pair => combine pair.1 pair.2
  rw [List.filter_map, List.map_map] at h
  exact h

/-- The order of the two lists decides about the order of the combinations only. -/
theorem joined_perm {lefts' : List α} {rights' : List β} (hlefts : lefts.Perm lefts') (hrights : rights.Perm rights') :
    (joined test combine lefts rights).Perm (joined test combine lefts' rights') := by
  rw [joined_eq_product, joined_eq_product]
  exact ((hlefts.product hrights).filter _).map _

/-- A test that lets fewer pairs through gives as many combinations only where it lets the same pairs through. -/
theorem joined_perm_iff {strict : α → β → Bool} (hstrict : ∀ left right, strict left right = true → test left right = true) :
    (joined strict combine lefts rights).Perm (joined test combine lefts rights) ↔
      ∀ left ∈ lefts, ∀ right ∈ rights, test left right = true → strict left right = true := by
  constructor
  · intro hperm left hleft right hright htest
    have hlength := hperm.length_eq
    rw [joined_eq_product, joined_eq_product, List.length_map, List.length_map] at hlength
    have hsub : ((lefts ×ˢ rights).filter fun pair => strict pair.1 pair.2).Sublist
        ((lefts ×ˢ rights).filter fun pair => test pair.1 pair.2) :=
      List.monotone_filter_right _ fun pair => hstrict pair.1 pair.2
    have hmem : (left, right) ∈ (lefts ×ˢ rights).filter fun pair => test pair.1 pair.2 :=
      List.mem_filter.mpr ⟨List.mem_product.mpr ⟨hleft, hright⟩, htest⟩
    rw [← hsub.eq_of_length hlength] at hmem
    exact (List.mem_filter.mp hmem).2
  · intro h
    have hsame : joined strict combine lefts rights = joined test combine lefts rights := by
      unfold joined
      apply List.flatMap_congr
      intro left hleft
      apply congrArg (List.map (combine left))
      apply List.filter_congr
      intro right hright
      exact Bool.eq_iff_iff.mpr ⟨hstrict left right, h left hleft right hright⟩
    rw [hsame]

end

/-- Elements that stand for an empty list come behind the rest, where the order does not matter. -/
theorem flatMap_orElse_perm (found : α → List γ) (pad : α → γ) (items : List α) :
    (items.flatMap fun item => if (found item).isEmpty then [pad item] else found item).Perm
      (items.flatMap found ++ (items.filter fun item => (found item).isEmpty).map pad) := by
  induction items with
  | nil => exact .refl _
  | cons item rest ih =>
      rw [List.flatMap_cons, List.flatMap_cons]
      by_cases hempty : (found item).isEmpty = true
      · rw [if_pos hempty, List.filter_cons, if_pos hempty, List.isEmpty_iff.mp hempty, List.map_cons]
        exact (ih.cons _).trans List.perm_middle.symm
      · rw [if_neg hempty, List.filter_cons, if_neg hempty, List.append_assoc]
        exact ih.append_left _

/-- Two lists in two parts that a test tells apart are the same, order apart, where their parts are. -/
theorem append_perm_append_iff {second : α → Bool} {heads tails heads' tails' : List α}
    (hheads : ∀ item ∈ heads ++ heads', second item = false) (htails : ∀ item ∈ tails ++ tails', second item = true) :
    (heads ++ tails).Perm (heads' ++ tails') ↔ heads.Perm heads' ∧ tails.Perm tails' := by
  have hsecond : ∀ (first rest : List α), (∀ item ∈ first, second item = false) → (∀ item ∈ rest, second item = true) →
      (first ++ rest).filter second = rest ∧ (first ++ rest).filter (fun item => !second item) = first := by
    intro first rest hfirst hrest
    rw [List.filter_append, List.filter_append]
    have hnone : first.filter second = [] := List.filter_eq_nil_iff.mpr fun item hmem => by simp [hfirst item hmem]
    have hall : rest.filter second = rest := List.filter_eq_self.mpr hrest
    have hall' : first.filter (fun item => !second item) = first :=
      List.filter_eq_self.mpr fun item hmem => by simp [hfirst item hmem]
    have hnone' : rest.filter (fun item => !second item) = [] :=
      List.filter_eq_nil_iff.mpr fun item hmem => by simp [hrest item hmem]
    rw [hnone, hall, hall', hnone', List.nil_append, List.append_nil]
    exact ⟨rfl, rfl⟩
  have hhere := hsecond heads tails (fun item h => hheads item (List.mem_append_left _ h))
    fun item h => htails item (List.mem_append_left _ h)
  have hthere := hsecond heads' tails' (fun item h => hheads item (List.mem_append_right _ h))
    fun item h => htails item (List.mem_append_right _ h)
  constructor
  · intro hperm
    constructor
    · have h := hperm.filter fun item => !second item
      rwa [hhere.2, hthere.2] at h
    · have h := hperm.filter second
      rwa [hhere.1, hthere.1] at h
  · rintro ⟨hfirst, hrest⟩
    exact hfirst.append hrest

/-- Two parts of one list are the same, order apart, where they have the same elements of it. -/
theorem filter_perm_filter_iff {test other : α → Bool} {items : List α} :
    (items.filter test).Perm (items.filter other) ↔ ∀ item ∈ items, test item = other item := by
  constructor
  · intro hperm item hitem
    have hmem := @List.Perm.mem_iff _ item _ _ hperm
    rw [List.mem_filter, List.mem_filter, and_iff_right hitem, and_iff_right hitem] at hmem
    exact Bool.eq_iff_iff.mpr hmem
  · intro h
    rw [List.filter_congr h]

end JoinedLists
