import Mathlib.Algebra.GroupWithZero.Nat
import Mathlib.Data.List.Nodup

/-! Lists whose items carry a key. `lookup` finds the first item with a key and `update` changes it.
While the keys are distinct, the list is a finite map: a lookup after an update is the updated item
at its key and the old item elsewhere. -/

namespace KeyedList

variable {α β κ : Type} [DecidableEq κ]

/-- The first item with the key. -/
def lookup (key : α → κ) (k : κ) (items : List α) : Option α := items.find? fun item => key item == k

/-- The last item with the key, as a map collected from the list holds it. -/
def lookupLast (key : α → κ) (k : κ) (items : List α) : Option α :=
  items.reverse.find? fun item => key item == k

/-- Change the first item with the key. -/
def update (key : α → κ) (k : κ) (f : α → α) : List α → List α
  | [] => []
  | item :: rest => if key item = k then f item :: rest else item :: update key k f rest

section

variable {key : α → κ} {k : κ} {f : α → α} {items : List α}

theorem lookup_cons (item : α) (rest : List α) :
    lookup key k (item :: rest) = if key item = k then some item else lookup key k rest := by
  rw [lookup, List.find?_cons]
  by_cases hkey : key item = k
  · simp [hkey]
  · rw [beq_false_of_ne hkey, if_neg hkey]
    rfl

theorem mem_of_lookup {item : α} (h : lookup key k items = some item) : item ∈ items ∧ key item = k :=
  ⟨List.mem_of_find?_eq_some h, by simpa using List.find?_some h⟩

theorem lookup_eq_none_iff : lookup key k items = none ↔ ∀ item ∈ items, key item ≠ k := by
  simp [lookup]

theorem lookup_eq_some_iff (hnodup : (items.map key).Nodup) {item : α} :
    lookup key k items = some item ↔ item ∈ items ∧ key item = k := by
  refine ⟨mem_of_lookup, ?_⟩
  rintro ⟨hmem, rfl⟩
  induction items with
  | nil => cases hmem
  | cons first rest ih =>
      obtain ⟨hfirst, hrest⟩ := List.nodup_cons.mp (List.map_cons ▸ hnodup)
      rw [lookup_cons]
      rcases List.mem_cons.mp hmem with rfl | hmem
      · rw [if_pos rfl]
      · have hne : key first ≠ key item := fun heq => hfirst (heq ▸ List.mem_map_of_mem hmem)
        rw [if_neg hne]
        exact ih hrest hmem

theorem lookup_self (hnodup : (items.map key).Nodup) {item : α} (hmem : item ∈ items) :
    lookup key (key item) items = some item :=
  (lookup_eq_some_iff hnodup).mpr ⟨hmem, rfl⟩

/-- With distinct keys the first and the last item with a key are one. -/
theorem lookupLast_eq (hnodup : (items.map key).Nodup) : lookupLast key k items = lookup key k items := by
  have hreverse : (items.reverse.map key).Nodup := by
    rw [List.map_reverse, List.nodup_reverse]
    exact hnodup
  change lookup key k items.reverse = _
  cases h : lookup key k items with
  | none =>
      rw [lookup_eq_none_iff] at h ⊢
      exact fun item hmem => h item (List.mem_reverse.mp hmem)
  | some item =>
      rw [lookup_eq_some_iff hnodup] at h
      rw [lookup_eq_some_iff hreverse, List.mem_reverse]
      exact h

/-- Whatever the change keeps of each item is kept of the list. -/
theorem map_update_of_keeps {γ : Type} {g : α → γ} (hg : ∀ item, g (f item) = g item) :
    (update key k f items).map g = items.map g := by
  induction items with
  | nil => rfl
  | cons item rest ih =>
      rw [update]
      split
      · rw [List.map_cons, List.map_cons, hg]
      · rw [List.map_cons, List.map_cons, ih]

theorem lookup_update_self (hf : ∀ item, key (f item) = key item) :
    lookup key k (update key k f items) = (lookup key k items).map f := by
  induction items with
  | nil => rfl
  | cons item rest ih =>
      rw [update]
      by_cases hkey : key item = k
      · rw [if_pos hkey, lookup_cons, lookup_cons, if_pos hkey, if_pos ((hf item).trans hkey)]
        rfl
      · rw [if_neg hkey, lookup_cons, lookup_cons, if_neg hkey, if_neg hkey, ih]

theorem lookup_update_of_ne (hf : ∀ item, key (f item) = key item) {other : κ} (hother : other ≠ k) :
    lookup key other (update key k f items) = lookup key other items := by
  induction items with
  | nil => rfl
  | cons item rest ih =>
      rw [update]
      by_cases hkey : key item = k
      · have hne : key item ≠ other := fun heq => hother (heq.symm.trans hkey)
        rw [if_pos hkey, lookup_cons, lookup_cons, if_neg hne, if_neg (by rw [hf]; exact hne)]
      · rw [if_neg hkey, lookup_cons, lookup_cons, ih]

theorem mem_update {item : α} (h : item ∈ update key k f items) :
    item ∈ items ∨ ∃ old ∈ items, key old = k ∧ item = f old := by
  induction items with
  | nil => cases h
  | cons first rest ih =>
      rw [update] at h
      split at h
      · rename_i hkey
        rcases List.mem_cons.mp h with rfl | hmem
        · exact Or.inr ⟨first, List.mem_cons_self, hkey, rfl⟩
        · exact Or.inl (List.mem_cons_of_mem _ hmem)
      · rcases List.mem_cons.mp h with rfl | hmem
        · exact Or.inl List.mem_cons_self
        · rcases ih hmem with hold | ⟨old, hold, hkey, heq⟩
          · exact Or.inl (List.mem_cons_of_mem _ hold)
          · exact Or.inr ⟨old, List.mem_cons_of_mem _ hold, hkey, heq⟩

/-- Looking up in a view is viewing what is looked up. -/
theorem lookup_map {g : α → β} {key' : β → κ} (hkey : ∀ item, key' (g item) = key item) :
    lookup key' k (items.map g) = (lookup key k items).map g := by
  induction items with
  | nil => rfl
  | cons item rest ih =>
      rw [List.map_cons, lookup_cons, lookup_cons, hkey, ih]
      split <;> rfl

/-- A change that respects a view turns lists with one view into lists with one view. -/
theorem map_update_congr {g : α → β} {key' : β → κ} (hkey : ∀ item, key' (g item) = key item)
    (hf : ∀ left right, g left = g right → g (f left) = g (f right)) {left right : List α}
    (h : left.map g = right.map g) : (update key k f left).map g = (update key k f right).map g := by
  induction left generalizing right with
  | nil => rw [List.map_eq_nil_iff.mp h.symm]
  | cons item rest ih =>
      cases right with
      | nil => cases h
      | cons item' rest' =>
          obtain ⟨hhead, htail⟩ := List.cons.inj h
          have hsame : key item = key item' := by rw [← hkey, ← hkey, hhead]
          rw [update, update, hsame]
          split
          · rw [List.map_cons, List.map_cons, hf _ _ hhead, htail]
          · rw [List.map_cons, List.map_cons, hhead, ih htail]

/-- A change that leaves the first item with the key as it is changes nothing. -/
theorem update_eq_self (h : ∀ item, lookup key k items = some item → f item = item) :
    update key k f items = items := by
  induction items with
  | nil => rfl
  | cons item rest ih =>
      rw [update]
      split
      · rename_i hkey
        rw [h item (by rw [lookup_cons, if_pos hkey])]
      · rename_i hkey
        rw [ih fun other hother => h other (by rw [lookup_cons, if_neg hkey]; exact hother)]

/-- A change of the first item with the key moves a sum over the items by what it moves that item's. -/
theorem sum_map_update {measure : α → Nat} {item : α} {gain : Nat} (hitem : lookup key k items = some item)
    (hgain : measure (f item) = measure item + gain) :
    ((update key k f items).map measure).sum = (items.map measure).sum + gain := by
  induction items with
  | nil => cases hitem
  | cons first rest ih =>
      rw [lookup_cons] at hitem
      rw [update]
      split
      · rename_i hkey
        rw [if_pos hkey] at hitem
        obtain rfl := Option.some.inj hitem
        rw [List.map_cons, List.map_cons, List.sum_cons, List.sum_cons, hgain]
        omega
      · rename_i hkey
        rw [if_neg hkey] at hitem
        rw [List.map_cons, List.map_cons, List.sum_cons, List.sum_cons, ih hitem]
        omega

theorem update_congr {f' : α → α} (h : ∀ item ∈ items, key item = k → f item = f' item) :
    update key k f items = update key k f' items := by
  induction items with
  | nil => rfl
  | cons item rest ih =>
      rw [update, update, ih fun other hother => h other (List.mem_cons_of_mem _ hother)]
      split
      · rename_i hkey
        rw [h item List.mem_cons_self hkey]
      · rfl

/-- With distinct keys a list is determined by its keys and its lookups. -/
theorem ext_lookup {left right : List α} (hkeys : left.map key = right.map key)
    (hnodup : (left.map key).Nodup) (hlookup : ∀ k, lookup key k left = lookup key k right) :
    left = right := by
  induction left generalizing right with
  | nil => exact (List.map_eq_nil_iff.mp hkeys.symm).symm
  | cons item rest ih =>
      cases right with
      | nil => cases hkeys
      | cons item' rest' =>
          obtain ⟨hhead, htail⟩ := List.cons.inj hkeys
          obtain ⟨hitem, hrest⟩ := List.nodup_cons.mp (List.map_cons ▸ hnodup)
          have hself := hlookup (key item)
          rw [lookup_cons, lookup_cons, if_pos rfl, if_pos hhead.symm] at hself
          obtain rfl := Option.some.inj hself
          refine congrArg _ (ih htail hrest fun k => ?_)
          have hother := hlookup k
          rw [lookup_cons, lookup_cons] at hother
          by_cases hkey : key item = k
          · subst hkey
            have hleft : lookup key (key item) rest = none :=
              lookup_eq_none_iff.mpr fun other hmem heq => hitem (heq ▸ List.mem_map_of_mem hmem)
            have hright : lookup key (key item) rest' = none :=
              lookup_eq_none_iff.mpr fun other hmem heq =>
                hitem (htail ▸ heq ▸ List.mem_map_of_mem hmem)
            rw [hleft, hright]
          · rwa [if_neg hkey, if_neg hkey] at hother

end

end KeyedList
