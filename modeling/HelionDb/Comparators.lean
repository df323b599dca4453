import Mathlib.Data.List.Sort
import Mathlib.Order.Compare

/-! Comparisons of values that may not be comparable, and comparisons by one key after the other. -/

namespace Comparator

universe u v w

variable {α : Type u}

/-- A comparison orders the values of a kind totally: any two can be compared, the other way round with the reverse
outcome, only a value and itself are equal, and the order is transitive. -/
structure OrdersTotally (cmp : α → α → Option Ordering) (kind : α → Prop) : Prop where
  defined : ∀ a b, kind a → kind b → (cmp a b).isSome = true
  reversed : ∀ a b, kind a → kind b → cmp b a = (cmp a b).map Ordering.swap
  same : ∀ a b, kind a → kind b → (cmp a b = some .eq ↔ a = b)
  transitive : ∀ a b c, kind a → kind b → kind c → cmp a b ≠ some .gt → cmp b c ≠ some .gt → cmp a c ≠ some .gt

/-- A comparison by a key that tells the values of a kind apart, where these are made from what has the key. -/
theorem ordersTotally_of_key {β : Type v} {γ : Type w} [Ord β] [Std.TransOrd β] [Std.LawfulEqOrd β]
    {cmp : α → α → Option Ordering} {kind : α → Prop} (make : γ → α) (key : γ → β) (hkey : Function.Injective key)
    (hmake : ∀ a, kind a → ∃ x, a = make x)
    (hcmp : ∀ x y, cmp (make x) (make y) = some (compare (key x) (key y))) : OrdersTotally cmp kind where
  defined a b ha hb := by
    obtain ⟨x, rfl⟩ := hmake a ha
    obtain ⟨y, rfl⟩ := hmake b hb
    rw [hcmp]
    rfl
  reversed a b ha hb := by
    obtain ⟨x, rfl⟩ := hmake a ha
    obtain ⟨y, rfl⟩ := hmake b hb
    rw [hcmp, hcmp, Option.map_some, ← Std.OrientedCmp.eq_swap]
  same a b ha hb := by
    obtain ⟨x, rfl⟩ := hmake a ha
    obtain ⟨y, rfl⟩ := hmake b hb
    constructor
    · intro hsame
      rw [hcmp, Option.some.injEq, Std.LawfulEqCmp.compare_eq_iff_eq] at hsame
      rw [hkey hsame]
    · intro hsame
      rw [← hsame, hcmp]
      exact congrArg some Std.ReflCmp.compare_self
  transitive a b c ha hb hc := by
    obtain ⟨x, rfl⟩ := hmake a ha
    obtain ⟨y, rfl⟩ := hmake b hb
    obtain ⟨z, rfl⟩ := hmake c hc
    have hle : ∀ m n : β, some (compare m n) ≠ some .gt ↔ (compare m n).isLE = true := by
      intro m n
      cases compare m n <;> simp
    rw [hcmp, hcmp, hcmp, hle, hle, hle]
    exact Std.TransCmp.isLE_trans

/-! ### One comparison after the other -/

/-- The first comparison that tells the values apart decides. -/
def lexicographic : List (α → α → Ordering) → α → α → Ordering
  | [], _, _ => .eq
  | cmp :: rest, a, b => (cmp a b).then (lexicographic rest a b)

theorem transCmp_lexicographic {cmps : List (α → α → Ordering)} (h : ∀ cmp ∈ cmps, Std.TransCmp cmp) :
    Std.TransCmp (lexicographic cmps) := by
  induction cmps with
  | nil =>
      exact { eq_swap := rfl, isLE_trans := fun _ _ => rfl }
  | cons cmp rest ih =>
      have hfirst : Std.TransCmp cmp := h cmp List.mem_cons_self
      have hrest : Std.TransCmp (lexicographic rest) := ih fun other hother => h other (List.mem_cons_of_mem cmp hother)
      exact inferInstanceAs (Std.TransCmp (compareLex cmp (lexicographic rest)))

variable {cmps front back : List (α → α → Ordering)} {cmp : α → α → Ordering} {a b : α}

theorem lexicographic_eq_eq_iff : lexicographic cmps a b = .eq ↔ ∀ cmp ∈ cmps, cmp a b = .eq := by
  induction cmps with
  | nil => exact iff_of_true rfl nofun
  | cons cmp rest ih => rw [lexicographic, Ordering.then_eq_eq, ih, List.forall_mem_cons]

/-- What comes in front of a comparison that tells the values apart, if it does not. -/
theorem lexicographic_append (hfront : ∀ cmp ∈ front, cmp a b = .eq) (hcmp : cmp a b ≠ .eq) :
    lexicographic (front ++ cmp :: back) a b = cmp a b := by
  induction front with
  | nil =>
      show (cmp a b).then _ = cmp a b
      cases hvalue : cmp a b with
      | eq => exact absurd hvalue hcmp
      | lt => rfl
      | gt => rfl
  | cons first rest ih =>
      rw [List.cons_append, lexicographic, hfront first List.mem_cons_self]
      exact ih fun other hother => hfront other (List.mem_cons_of_mem first hother)

/-- The first of the keys that an outcome is not equal for. -/
theorem exists_first {κ : Type v} {keys : List κ} {outcome : κ → Ordering} (h : ¬ ∀ key ∈ keys, outcome key = .eq) :
    ∃ front key back, keys = front ++ key :: back ∧ (∀ other ∈ front, outcome other = .eq) ∧ outcome key ≠ .eq := by
  induction keys with
  | nil => exact absurd nofun h
  | cons first rest ih =>
      by_cases hfirst : outcome first = .eq
      · have hrest : ¬ ∀ key ∈ rest, outcome key = .eq := fun hrest => h (List.forall_mem_cons.mpr ⟨hfirst, hrest⟩)
        obtain ⟨front, key, back, rfl, hfront, hkey⟩ := ih hrest
        exact ⟨first :: front, key, back, rfl, List.forall_mem_cons.mpr ⟨hfirst, hfront⟩, hkey⟩
      · exact ⟨[], first, rest, rfl, nofun, hfirst⟩

section Masked

variable {κ : Type v} (cmp : κ → α → α → Ordering) (visible : κ → α → α → Bool)

/-- A comparison by keys of which some cannot be seen. -/
def masked (key : κ) (a b : α) : Ordering := if visible key a b then cmp key a b else .eq

variable {cmp visible}

theorem lexicographic_map_append {front back : List κ} {key : κ} {outcome : κ → α → α → Ordering}
    (hfront : ∀ other ∈ front, outcome other a b = .eq) (hkey : outcome key a b ≠ .eq) :
    lexicographic ((front ++ key :: back).map outcome) a b = outcome key a b := by
  rw [List.map_append, List.map_cons]
  apply lexicographic_append _ hkey
  intro cmp hcmp
  obtain ⟨other, hother, rfl⟩ := List.mem_map.mp hcmp
  exact hfront other hother

theorem lexicographic_map_eq_eq_iff {keys : List κ} {outcome : κ → α → α → Ordering} :
    lexicographic (keys.map outcome) a b = .eq ↔ ∀ key ∈ keys, outcome key a b = .eq := by
  rw [lexicographic_eq_eq_iff, List.forall_mem_map]

/-- The keys that can be seen order two values as all keys do exactly if the first key that they differ in orders them
as the first that they differ in and that can be seen. -/
theorem lexicographic_masked_iff {keys : List κ} :
    lexicographic (keys.map (masked cmp visible)) a b = lexicographic (keys.map cmp) a b ↔
      ∀ front key back, keys = front ++ key :: back → (∀ other ∈ front, cmp other a b = .eq) → cmp key a b ≠ .eq →
        ∃ front' seen back', keys = front' ++ seen :: back' ∧
          (∀ other ∈ front', visible other a b = true → cmp other a b = .eq) ∧ visible seen a b = true ∧
          cmp seen a b = cmp key a b := by
  constructor
  · rintro h front key back rfl hfront hkey
    rw [lexicographic_map_append hfront hkey] at h
    have hdiffer : ¬ ∀ other ∈ front ++ key :: back, masked cmp visible other a b = .eq := by
      intro hall
      rw [lexicographic_map_eq_eq_iff.mpr hall] at h
      exact hkey h.symm
    obtain ⟨front', seen, back', hsplit, hfront', hseen⟩ := exists_first hdiffer
    have hvisible : visible seen a b = true := by
      by_contra hhidden
      exact hseen (if_neg hhidden)
    refine ⟨front', seen, back', hsplit, ?_, hvisible, ?_⟩
    · intro other hother hvisible
      have heq := hfront' other hother
      rw [masked, if_pos hvisible] at heq
      exact heq
    · rw [hsplit, lexicographic_map_append hfront' hseen, masked, if_pos hvisible] at h
      exact h
  · intro h
    by_cases hall : ∀ key ∈ keys, cmp key a b = .eq
    · rw [lexicographic_map_eq_eq_iff.mpr hall, lexicographic_map_eq_eq_iff]
      intro key hkey
      rw [masked, hall key hkey, ite_self]
    · obtain ⟨front, key, back, hsplit, hfront, hkey⟩ := exists_first hall
      obtain ⟨front', seen, back', hsplit', hfront', hvisible, hsame⟩ := h front key back hsplit hfront hkey
      have hseen : masked cmp visible seen a b = cmp key a b := by
        rw [masked, if_pos hvisible, hsame]
      have hmasked : lexicographic (keys.map (masked cmp visible)) a b = cmp key a b := by
        rw [hsplit', lexicographic_map_append _ (hseen ▸ hkey), hseen]
        intro other hother
        rw [masked]
        by_cases hother' : visible other a b = true
        · rw [if_pos hother', hfront' other hother hother']
        · rw [if_neg hother']
      rw [hmasked, hsplit, lexicographic_map_append hfront hkey]

end Masked

/-- The order of images. -/
theorem transCmp_comap {β : Type v} {cmp : β → β → Ordering} [Std.TransCmp cmp] (f : α → β) :
    Std.TransCmp fun a b => cmp (f a) (f b) where
  eq_swap := Std.OrientedCmp.eq_swap
  isLE_trans := Std.TransCmp.isLE_trans

theorem transCmp_swap {cmp : α → α → Ordering} [Std.TransCmp cmp] : Std.TransCmp fun a b => (cmp a b).swap where
  eq_swap {a b} := by
    rw [← @Std.OrientedCmp.eq_swap _ cmp _ b a, Ordering.swap_swap]
  isLE_trans {a b c} hab hbc := by
    rw [← @Std.OrientedCmp.eq_swap _ cmp] at hab hbc ⊢
    exact Std.TransCmp.isLE_trans hbc hab

/-- The output has the values of the input in order, and equal values as they stood. -/
structure StablySorted (cmp : α → α → Ordering) (input output : List α) : Prop where
  perm : output.Perm input
  ordered : output.Pairwise fun a b => cmp a b ≠ .gt
  stable : ∀ a b, cmp a b = .eq → List.Sublist [a, b] input → List.Sublist [a, b] output

theorem ne_gt_iff_isLE {order : Ordering} : order ≠ .gt ↔ order.isLE = true := by
  cases order <;> simp

theorem stablySorted_insertionSort [Std.TransCmp cmp] (input : List α) :
    StablySorted cmp input (input.insertionSort fun a b => cmp a b ≠ .gt) where
  perm := List.perm_insertionSort _ _
  ordered := by
    have : Std.Total fun a b => cmp a b ≠ .gt := by
      constructor
      intro a b
      rw [@Std.OrientedCmp.eq_swap _ cmp _ a b]
      cases cmp b a <;> simp
    have : IsTrans α fun a b => cmp a b ≠ .gt := by
      constructor
      intro a b c hab hbc
      rw [ne_gt_iff_isLE] at hab hbc ⊢
      exact Std.TransCmp.isLE_trans hab hbc
    exact List.pairwise_insertionSort _ _
  stable a b heq hsublist := by
    apply List.pair_sublist_insertionSort _ hsublist
    rw [heq]
    exact nofun

/-- Comparisons that agree on the values of a list sort it alike. -/
theorem insertionSort_congr {first second : α → α → Ordering} {input : List α}
    (h : ∀ a ∈ input, ∀ b ∈ input, first a b = second a b) :
    (input.insertionSort fun a b => first a b ≠ .gt) = input.insertionSort fun a b => second a b ≠ .gt := by
  have hmap := List.map_insertionSort (fun a b => first a b ≠ .gt) (fun a b => second a b ≠ .gt) id input ?_
  · rw [List.map_id, List.map_id] at hmap
    exact hmap
  · intro a ha b hb
    rw [h a ha b hb]
    exact Iff.rfl

/-- A comparison is a total preorder on the values of a list. -/
structure PreordersOn (cmp : α → α → Ordering) (items : List α) : Prop where
  reversed : ∀ a ∈ items, ∀ b ∈ items, cmp a b = (cmp b a).swap
  transitive : ∀ a ∈ items, ∀ b ∈ items, ∀ c ∈ items, cmp a b ≠ .gt → cmp b c ≠ .gt → cmp a c ≠ .gt

theorem getElem?_getD_mem {items : List α} (absent : α) {position : Nat} (h : position ∈ List.range items.length) :
    items[position]?.getD absent ∈ items := by
  rw [List.getElem?_eq_getElem (List.mem_range.mp h), Option.getD_some]
  exact List.getElem_mem _

/-- The positions of preordered values are preordered by what stands at them. -/
theorem PreordersOn.positions {cmp : α → α → Ordering} {items : List α} (h : PreordersOn cmp items) (absent : α) :
    PreordersOn (fun i j => cmp (items[i]?.getD absent) (items[j]?.getD absent)) (List.range items.length) where
  reversed _ hi _ hj := h.reversed _ (getElem?_getD_mem absent hi) _ (getElem?_getD_mem absent hj)
  transitive _ hi _ hj _ hk :=
    h.transitive _ (getElem?_getD_mem absent hi) _ (getElem?_getD_mem absent hj) _ (getElem?_getD_mem absent hk)

theorem map_positions (items : List α) (absent : α) :
    (List.range items.length).map (fun position => items[position]?.getD absent) = items := by
  apply List.ext_getElem
  · simp
  · intro position hposition hitem
    rw [List.getElem_map, List.getElem_range, List.getElem?_eq_getElem hitem, Option.getD_some]

theorem filterMap_positions {items : List α} (absent : α) {positions : List Nat}
    (h : ∀ position ∈ positions, position < items.length) :
    (positions.filterMap fun position => items[position]?) = positions.map fun position => items[position]?.getD absent := by
  rw [← List.filterMap_eq_map]
  apply List.filterMap_congr
  intro position hposition
  rw [Function.comp_apply, List.getElem?_eq_getElem (h position hposition), Option.getD_some]

/-- Each position once gives each value once. -/
theorem perm_of_positions {items : List α} {positions : List Nat} (h : positions.Perm (List.range items.length)) :
    (positions.filterMap fun position => items[position]?).Perm items := by
  have hall : (List.range items.length).filterMap (fun position => items[position]?) = items := by
    apply List.ext_getElem?
    intro position
    cases items with
    | nil => rfl
    | cons first rest =>
        rw [filterMap_positions first fun _ hmem => List.mem_range.mp hmem, map_positions]
  exact (h.filterMap _).trans (.of_eq hall)

/-- Sorting the positions sorts the values. -/
theorem filterMap_insertionSort_positions {cmp : α → α → Ordering} {items : List α} (absent : α) :
    (((List.range items.length).insertionSort fun i j =>
        cmp (items[i]?.getD absent) (items[j]?.getD absent) ≠ .gt).filterMap fun position => items[position]?) =
      items.insertionSort fun a b => cmp a b ≠ .gt := by
  rw [filterMap_positions absent fun position hmem => List.mem_range.mp ((List.mem_insertionSort _).mp hmem),
    List.map_insertionSort _ (fun a b => cmp a b ≠ .gt), map_positions]
  intro i _ j _
  exact Iff.rfl

end Comparator
