import HelionDb.Comparators
import Mathlib.Data.Finmap
import Mathlib.Data.Finset.Sort

/-! Maps read in the order of their keys. A comparison may rank values first and order those of one rank totally; it is
then a total order. The entries of a map between two bounds are listed from the lowest key up. -/

namespace Comparator

universe u v

/-! ### Ranks -/

/-- A comparison goes by a rank first, and orders the values of one rank totally. -/
structure OrdersByRank {α : Type u} (cmp : α → α → Ordering) (rank : α → Nat) : Prop where
  apart : ∀ a b, rank a ≠ rank b → cmp a b = compare (rank a) (rank b)
  within : ∀ a, OrdersTotally (fun b c => some (cmp b c)) fun b => rank b = rank a

namespace OrdersByRank

variable {α : Type u} {cmp : α → α → Ordering} {rank : α → Nat} (h : OrdersByRank cmp rank)

include h

theorem eq_swap (a b : α) : cmp a b = (cmp b a).swap := by
  by_cases hrank : rank a = rank b
  · exact Option.some.inj ((h.within a).reversed b a hrank.symm rfl)
  · rw [h.apart a b hrank, h.apart b a (Ne.symm hrank)]
    exact Std.OrientedCmp.eq_swap

/-- A value that is not above another one has no higher rank. -/
theorem rank_le {a b : α} (hle : (cmp a b).isLE = true) : rank a ≤ rank b := by
  by_cases hrank : rank a = rank b
  · exact hrank.le
  · rw [h.apart a b hrank, Nat.isLE_compare] at hle
    exact hle

theorem transCmp : Std.TransCmp cmp where
  eq_swap {a b} := h.eq_swap a b
  isLE_trans {a b c} hab hbc := by
    have hfirst := h.rank_le hab
    have hsecond := h.rank_le hbc
    by_cases hrank : rank a = rank c
    · have hle : ∀ x y, some (cmp x y) ≠ some Ordering.gt ↔ (cmp x y).isLE = true := by
        intro x y
        rw [← ne_gt_iff_isLE, Ne, Option.some.injEq]
      exact (hle a c).mp ((h.within a).transitive a b c rfl (by omega) hrank.symm ((hle a b).mpr hab) ((hle b c).mpr hbc))
    · rw [h.apart a c hrank, Nat.isLE_compare]
      omega

theorem lawfulEqCmp : Std.LawfulEqCmp cmp where
  compare_self {a} := Option.some.inj (((h.within a).same a a rfl rfl).mpr rfl)
  eq_of_compare {a b} heq := by
    by_cases hrank : rank a = rank b
    · exact ((h.within a).same a b rfl hrank.symm).mp (congrArg some heq)
    · rw [h.apart a b hrank, compare_eq_iff_eq] at heq
      exact absurd heq hrank

end OrdersByRank

end Comparator

/-- A bound of a range of keys. -/
inductive Bound (κ : Type) where
  | included (key : κ)
  | excluded (key : κ)
  | unbounded
  deriving Repr, DecidableEq

namespace Bound

variable {κ : Type} (cmp : κ → κ → Ordering)

/-- The key lies on the right side of a lower bound. -/
def below : Bound κ → κ → Bool
  | included low, key => (cmp low key).isLE
  | excluded low, key => (cmp low key).isLT
  | unbounded, _ => true

/-- The key lies on the left side of an upper bound. -/
def above : Bound κ → κ → Bool
  | included high, key => (cmp key high).isLE
  | excluded high, key => (cmp key high).isLT
  | unbounded, _ => true

/-- The bounds leave a gap the wrong way round: the start is above the end, or it is the end and both are left out. -/
def inverted : Bound κ → Bound κ → Bool
  | excluded start, excluded stop => (cmp start stop).isGE
  | included start, included stop | included start, excluded stop | excluded start, included stop =>
      (cmp start stop).isGT
  | _, _ => false

/-- Between inverted bounds there is no key. -/
theorem not_between_of_inverted [Std.TransCmp cmp] {start stop : Bound κ} (h : inverted cmp start stop = true) (key : κ) :
    ¬ (start.below cmp key = true ∧ stop.above cmp key = true) := by
  rintro ⟨hbelow, habove⟩
  have hle : ∀ low high, (cmp low key).isLE = true → (cmp key high).isLE = true → (cmp low high).isGT = true → False := by
    intro low high hlow hhigh hgt
    have htrans := @Std.TransCmp.isLE_trans _ cmp _ _ _ _ hlow hhigh
    cases hcmp : cmp low high <;> rw [hcmp] at htrans hgt <;> cases htrans <;> cases hgt
  cases start with
  | unbounded => cases stop <;> cases h
  | included low =>
      cases stop with
      | unbounded => cases h
      | included high => exact hle low high hbelow habove h
      | excluded high => exact hle low high hbelow (Ordering.isLE_of_eq_lt (Ordering.isLT_iff_eq_lt.mp habove)) h
  | excluded low =>
      cases stop with
      | unbounded => cases h
      | included high => exact hle low high (Ordering.isLE_of_eq_lt (Ordering.isLT_iff_eq_lt.mp hbelow)) habove h
      | excluded high =>
          have hlt := Std.TransCmp.lt_trans (Ordering.isLT_iff_eq_lt.mp hbelow) (Ordering.isLT_iff_eq_lt.mp habove)
          rw [inverted, hlt] at h
          cases h

end Bound

namespace OrderedMap

variable {κ β : Type} [DecidableEq κ] (cmp : κ → κ → Ordering) [Std.TransCmp cmp] [Std.LawfulEqCmp cmp]

instance total_isLE : Std.Total fun a b => (cmp a b).isLE = true where
  total := by
    intro a b
    rw [@Std.OrientedCmp.eq_swap _ cmp _ a b]
    cases cmp b a <;> simp

instance isTrans_isLE : IsTrans κ fun a b => (cmp a b).isLE = true where
  trans _ _ _ := Std.TransCmp.isLE_trans

instance antisymm_isLE : Std.Antisymm fun a b => (cmp a b).isLE = true where
  antisymm _ _ hab hba := Std.LawfulEqCmp.eq_of_compare (Std.OrientedCmp.isLE_antisymm hab hba)

/-- The keys of a map from the lowest up. -/
def keysInOrder (entries : Finmap fun _ : κ => β) : List κ := entries.keys.sort fun a b => (cmp a b).isLE = true

/-- The entries of a map between two bounds, from the lowest key up. -/
def between (entries : Finmap fun _ : κ => β) (start stop : Bound κ) : List (κ × β) :=
  (keysInOrder cmp entries).filterMap fun key =>
    if start.below cmp key && stop.above cmp key then (entries.lookup key).map fun value => (key, value) else none

variable {cmp} {entries : Finmap fun _ : κ => β} {start stop : Bound κ}

theorem mem_keysInOrder {key : κ} : key ∈ keysInOrder cmp entries ↔ ∃ value, entries.lookup key = some value := by
  rw [keysInOrder, Finset.mem_sort, Finmap.mem_keys, ← Finmap.lookup_isSome, Option.isSome_iff_exists]

omit [DecidableEq κ] in
theorem pairwise_keysInOrder (entries : Finmap fun _ : κ => β) :
    (keysInOrder cmp entries).Pairwise fun a b => cmp a b = .lt := by
  have hsorted := Finset.pairwise_sort entries.keys fun a b => (cmp a b).isLE = true
  have hdistinct := Finset.sort_nodup entries.keys fun a b => (cmp a b).isLE = true
  refine (hsorted.and hdistinct).imp ?_
  rintro a b ⟨hle, hne⟩
  cases hcmp : cmp a b with
  | lt => rfl
  | eq => exact absurd (Std.LawfulEqCmp.eq_of_compare hcmp) hne
  | gt =>
      rw [hcmp] at hle
      cases hle

theorem mem_between {key : κ} {value : β} :
    (key, value) ∈ between cmp entries start stop ↔
      entries.lookup key = some value ∧ start.below cmp key = true ∧ stop.above cmp key = true := by
  rw [between, List.mem_filterMap]
  constructor
  · rintro ⟨other, -, hentry⟩
    split at hentry
    · rename_i hbounds
      obtain ⟨found, hfound, hpair⟩ := Option.map_eq_some_iff.mp hentry
      obtain ⟨rfl, rfl⟩ := Prod.mk.inj hpair
      exact ⟨hfound, by simpa using hbounds⟩
    · cases hentry
  · rintro ⟨hlookup, hstart, hstop⟩
    refine ⟨key, mem_keysInOrder.mpr ⟨value, hlookup⟩, ?_⟩
    rw [hstart, hstop, hlookup]
    rfl

/-- The entries come from the lowest key up. -/
theorem pairwise_between (entries : Finmap fun _ : κ => β) (start stop : Bound κ) :
    (between cmp entries start stop).Pairwise fun a b => cmp a.1 b.1 = .lt := by
  have hkey : ∀ key : κ, ∀ entry ∈ (if start.below cmp key && stop.above cmp key then
      (entries.lookup key).map fun value => (key, value) else none), entry.1 = key := by
    intro key entry hentry
    split at hentry
    · obtain ⟨value, -, rfl⟩ := Option.map_eq_some_iff.mp hentry
      rfl
    · cases hentry
  refine (pairwise_keysInOrder entries).filterMap _ fun a b hlt entry hentry entry' hentry' => ?_
  rw [hkey a entry hentry, hkey b entry' hentry']
  exact hlt

end OrderedMap
