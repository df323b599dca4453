import Mathlib.Data.List.Forall2
import Mathlib.Data.List.Infix
import Mathlib.Data.List.Nodup
import Mathlib.Data.List.Perm.Subperm

/-! Lists that are related item by item, and the representatives of a list: its items in their order, less those that an
item kept before stands for. -/

section Paired

variable {α β : Type} {items : List α}

/-- Every member of one of two related lists is related to one of the other. -/
theorem exists_of_mem_forall₂ {R : α → β → Prop} {xs : List α} {ys : List β} (h : List.Forall₂ R xs ys) {x : α}
    (hx : x ∈ xs) : ∃ y ∈ ys, R x y := by
  induction h with
  | nil => cases hx
  | cons hfirst _ ih =>
      rcases List.mem_cons.mp hx with rfl | hmem
      · exact ⟨_, List.mem_cons_self, hfirst⟩
      · obtain ⟨y, hy, hR⟩ := ih hmem
        exact ⟨y, List.mem_cons_of_mem _ hy, hR⟩

/-- Related lists may take each other's place where the relation makes no difference. -/
theorem forall₂_congr_left {α β γ : Type} {R : α → β → Prop} {P : β → γ → Prop} {Q : α → γ → Prop} {left : List α}
    {middle : List β} (h : List.Forall₂ R left middle) (hcongr : ∀ a b c, R a b → (P b c ↔ Q a c)) (right : List γ) :
    List.Forall₂ P middle right ↔ List.Forall₂ Q left right := by
  induction h generalizing right with
  | nil =>
      rw [List.forall₂_nil_left_iff, List.forall₂_nil_left_iff]
  | cons hfirst hrest ih =>
      cases right with
      | nil => exact iff_of_false (fun h => by cases h) fun h => by cases h
      | cons last more => rw [List.forall₂_cons, List.forall₂_cons, hcongr _ _ _ hfirst, ih]

theorem forall₂_and_right {α β : Type} {R : α → β → Prop} {P : β → Prop} {left : List α} {right : List β} :
    List.Forall₂ (fun a b => R a b ∧ P b) left right ↔ List.Forall₂ R left right ∧ ∀ b ∈ right, P b := by
  induction left generalizing right with
  | nil =>
      cases right with
      | nil => simp
      | cons b rest => exact iff_of_false (fun h => by cases h) fun h => by cases h.1
  | cons a left ih =>
      cases right with
      | nil => exact iff_of_false (fun h => by cases h) fun h => by cases h.1
      | cons b rest =>
          rw [List.forall₂_cons, List.forall₂_cons, ih, List.forall_mem_cons]
          exact and_and_and_comm

/-- What each pair decides is decided of the whole lists. -/
theorem forall₂_iff_of_forall₂ {R S : α → β → Prop} {P : α → Prop} {values : List β} (h : List.Forall₂ R items values)
    (hiff : ∀ item ∈ items, ∀ value, R item value → (S item value ↔ P item)) :
    List.Forall₂ S items values ↔ ∀ item ∈ items, P item := by
  induction h with
  | nil => simp
  | cons hfirst _ ih =>
      rw [List.forall₂_cons, List.forall_mem_cons, hiff _ List.mem_cons_self _ hfirst,
        ih fun item hitem => hiff item (List.mem_cons_of_mem _ hitem)]

theorem exists_forall₂ {P : α → β → Prop} (h : ∀ item ∈ items, ∃ value, P item value) :
    ∃ values, List.Forall₂ P items values := by
  induction items with
  | nil => exact ⟨[], .nil⟩
  | cons first rest ih =>
      obtain ⟨value, hvalue⟩ := h first List.mem_cons_self
      obtain ⟨values, hvalues⟩ := ih fun item hitem => h item (List.mem_cons_of_mem _ hitem)
      exact ⟨value :: values, .cons hvalue hvalues⟩

theorem forall₂_trans {γ : Type} {R : α → β → Prop} {S : β → γ → Prop} {values : List β} {others : List γ}
    (h : List.Forall₂ R items values) (h' : List.Forall₂ S values others) :
    List.Forall₂ (fun item other => ∃ value, R item value ∧ S value other) items others := by
  induction h generalizing others with
  | nil =>
      cases h'
      exact .nil
  | cons hfirst _ ih =>
      cases h' with
      | cons hsecond hrest => exact .cons ⟨_, hfirst, hsecond⟩ (ih hrest)

theorem forall₂_modify {α β : Type} {R : α → β → Prop} {f : α → α} {g : β → β} {items : List α} {others : List β}
    (h : List.Forall₂ R items others) (hstep : ∀ item other, R item other → R (f item) (g other)) (idx : Nat) :
    List.Forall₂ R (items.modify idx f) (others.modify idx g) := by
  induction h generalizing idx with
  | nil => simp
  | cons hfirst hrest ih =>
      cases idx with
      | zero => exact .cons (hstep _ _ hfirst) hrest
      | succ idx => exact .cons hfirst (ih idx)

/-- Related lists, of which the first has no two items that are related to one value. -/
theorem nodup_of_forall₂ {R : α → β → Prop} {values : List β} (h : List.Forall₂ R items values)
    (hone : items.Pairwise fun earlier later => ∀ value, R earlier value → ¬ R later value) : values.Nodup := by
  induction h with
  | nil => exact List.nodup_nil
  | @cons item value items values hfirst hrest ih =>
      obtain ⟨hlater, hone⟩ := List.pairwise_cons.mp hone
      refine List.nodup_cons.mpr ⟨fun hmem => ?_, ih hone⟩
      obtain ⟨later, hmem, hrel⟩ := exists_of_mem_forall₂ hrest.flip hmem
      exact hlater later hmem value hfirst hrel

end Paired

section Modify

variable {κ β : Type} {R Q : κ → β → Prop} {p : β → Bool} {f : β → β} {key : κ} {keys : List κ} {items : List β}

theorem forall₂_of_missing (h : List.Forall₂ R keys items) (hkey : key ∉ keys)
    (hmiss : ∀ other item, other ≠ key → R other item → Q other item) : List.Forall₂ Q keys items := by
  induction h with
  | nil => exact .nil
  | cons hfirst hrest ih =>
      rw [List.mem_cons, not_or] at hkey
      exact .cons (hmiss _ _ (Ne.symm hkey.1) hfirst) (ih hkey.2)

/-- Items that belong to different keys, of which the item of one key is found and changed. -/
theorem forall₂_modify_found (h : List.Forall₂ R keys items) (hnodup : keys.Nodup) (hkey : key ∈ keys)
    (hfound : ∀ other ∈ keys, ∀ item, R other item → (p item = true ↔ other = key)) (hhit : ∀ item, R key item → Q key (f item))
    (hmiss : ∀ other item, other ≠ key → R other item → Q other item) :
    ∃ idx, items.findIdx? p = some idx ∧ List.Forall₂ Q keys (items.modify idx f) := by
  induction h with
  | nil => cases hkey
  | @cons first item rest others hfirst hrest ih =>
      obtain ⟨hnew, hnodup⟩ := List.nodup_cons.mp hnodup
      rw [List.findIdx?_cons]
      by_cases hsame : first = key
      · subst hsame
        rw [if_pos ((hfound first List.mem_cons_self item hfirst).mpr rfl)]
        exact ⟨0, rfl, .cons (hhit item hfirst) (forall₂_of_missing hrest hnew hmiss)⟩
      · obtain ⟨idx, hidx, hmodified⟩ := ih hnodup ((List.mem_cons.mp hkey).resolve_left (Ne.symm hsame))
          fun other hother => hfound other (List.mem_cons_of_mem _ hother)
        rw [if_neg (mt (hfound first List.mem_cons_self item hfirst).mp hsame), hidx]
        exact ⟨idx + 1, rfl, .cons (hmiss first item hsame hfirst) hmodified⟩

end Modify

/-- The items in their order, less those that an item kept before is known for. -/
def keepNew {α : Type} (known : α → α → Bool) (items : List α) : List α :=
  items.foldl (fun kept item => if kept.any (known item) then kept else kept ++ [item]) []

section KeepNew

variable {α : Type} {known : α → α → Bool}

theorem keepNew_concat (items : List α) (item : α) :
    keepNew known (items ++ [item]) =
      if (keepNew known items).any (known item) then keepNew known items else keepNew known items ++ [item] := by
  rw [keepNew, List.foldl_append]
  rfl

/-- The items of a list without repetitions. -/
abbrev distinct [DecidableEq α] (items : List α) : List α := keepNew (fun item kept => kept = item) items

variable [DecidableEq α]

theorem any_known_eq {items : List α} {item : α} :
    items.any (fun kept => decide (kept = item)) = true ↔ item ∈ items := by
  rw [List.any_eq_true]
  constructor
  · rintro ⟨kept, hkept, hsame⟩
    exact of_decide_eq_true hsame ▸ hkept
  · intro hitem
    exact ⟨item, hitem, decide_eq_true rfl⟩

theorem mem_distinct {items : List α} {item : α} : item ∈ distinct items ↔ item ∈ items := by
  induction items using List.reverseRecOn with
  | nil => rfl
  | append_singleton items last ih =>
      rw [distinct, keepNew_concat, List.mem_append, List.mem_singleton]
      split
      · rename_i hknown
        have hlast : last ∈ distinct items := any_known_eq.mp hknown
        rw [ih]
        constructor
        · exact .inl
        · rintro (hold | rfl)
          · exact hold
          · exact ih.mp hlast
      · rw [List.mem_append, List.mem_singleton, ih]

theorem nodup_distinct (items : List α) : (distinct items).Nodup := by
  induction items using List.reverseRecOn with
  | nil => exact List.nodup_nil
  | append_singleton items last ih =>
      rw [distinct, keepNew_concat]
      split
      · exact ih
      · rename_i hknown
        rw [← List.concat_eq_append]
        exact ih.concat (mt any_known_eq.mpr hknown)

end KeepNew

section Representatives

variable {α β : Type} {known : α → α → Bool} {items : List α}

theorem mem_of_mem_keepNew {item : α} (h : item ∈ keepNew known items) : item ∈ items := by
  induction items using List.reverseRecOn with
  | nil => exact h
  | append_singleton items last ih =>
      rw [keepNew_concat] at h
      rw [List.mem_append, List.mem_singleton]
      split at h
      · exact .inl (ih h)
      · rcases List.mem_append.mp h with h | h
        · exact .inl (ih h)
        · exact .inr (List.mem_singleton.mp h)

theorem keepNew_subset_concat (items : List α) (last : α) : keepNew known items ⊆ keepNew known (items ++ [last]) := by
  rw [keepNew_concat]
  split
  · exact List.Subset.refl _
  · exact List.subset_append_left _ _

/-- Each item is known for one that is kept. -/
theorem exists_mem_keepNew (hrefl : ∀ item, known item item = true) {item : α} (h : item ∈ items) :
    ∃ kept ∈ keepNew known items, known item kept = true := by
  induction items using List.reverseRecOn with
  | nil => cases h
  | append_singleton items last ih =>
      rcases List.mem_append.mp h with h | h
      · obtain ⟨kept, hkept, hknown⟩ := ih h
        exact ⟨kept, keepNew_subset_concat items last hkept, hknown⟩
      · obtain rfl := List.mem_singleton.mp h
        rw [keepNew_concat]
        split
        · rename_i hany
          exact List.any_eq_true.mp hany
        · exact ⟨item, by simp, hrefl item⟩

/-- No item that is kept is known for an earlier one. -/
theorem pairwise_keepNew : (keepNew known items).Pairwise fun earlier later => known later earlier = false := by
  induction items using List.reverseRecOn with
  | nil => exact .nil
  | append_singleton items last ih =>
      rw [keepNew_concat]
      split
      · exact ih
      · rename_i hnew
        refine List.pairwise_append.mpr ⟨ih, List.pairwise_singleton _ _, fun earlier hearlier later hlater => ?_⟩
        obtain rfl := List.mem_singleton.mp hlater
        rw [Bool.not_eq_true, List.any_eq_false] at hnew
        exact Bool.eq_false_iff.mpr (hnew earlier hearlier)

theorem keepNew_map (f : β → α) (items : List β) :
    keepNew known (items.map f) = (keepNew (fun item kept => known (f item) (f kept)) items).map f := by
  induction items using List.reverseRecOn with
  | nil => rfl
  | append_singleton items last ih =>
      rw [List.map_append, List.map_singleton, keepNew_concat, keepNew_concat, ih, List.any_map]
      rw [apply_ite (List.map f), List.map_append, List.map_singleton]
      rfl

theorem keepNew_congr {known' : α → α → Bool}
    (h : ∀ item ∈ items, ∀ other ∈ items, known item other = known' item other) :
    keepNew known items = keepNew known' items := by
  induction items using List.reverseRecOn with
  | nil => rfl
  | append_singleton items last ih =>
      have hsame : keepNew known items = keepNew known' items :=
        ih fun item hitem other hother => h item (List.mem_append_left _ hitem) other (List.mem_append_left _ hother)
      have hany : (keepNew known' items).any (known last) = (keepNew known' items).any (known' last) := by
        rw [Bool.eq_iff_iff, List.any_eq_true, List.any_eq_true]
        refine exists_congr fun kept => and_congr_right fun hkept => ?_
        rw [h last (by simp) kept (List.mem_append_left _ (mem_of_mem_keepNew hkept))]
      rw [keepNew_concat, keepNew_concat, hsame, hany]

/-- A function that tells the items of a list apart keeps their repetitions. -/
theorem distinct_map [DecidableEq α] [DecidableEq β] {f : α → β}
    (hinj : ∀ item ∈ items, ∀ other ∈ items, f item = f other → item = other) :
    distinct (items.map f) = (distinct items).map f := by
  rw [distinct, keepNew_map]
  congr 1
  refine keepNew_congr fun item hitem other hother => ?_
  rw [decide_eq_decide]
  exact ⟨hinj other hother item hitem, congrArg f⟩

/-- A function with as many values on a list as there are items tells the items apart. -/
theorem eq_of_length_distinct [DecidableEq α] [DecidableEq β] {f : α → β}
    (h : (distinct (items.map f)).length = (distinct items).length) :
    ∀ item ∈ items, ∀ other ∈ items, f item = f other → item = other := by
  have hsubset : distinct (items.map f) ⊆ (distinct items).map f := by
    intro value hvalue
    obtain ⟨item, hitem, rfl⟩ := List.mem_map.mp (mem_distinct.mp hvalue)
    exact List.mem_map_of_mem (mem_distinct.mpr hitem)
  have hperm : (distinct (items.map f)).Perm ((distinct items).map f) :=
    ((nodup_distinct _).subperm hsubset).perm_of_length_le (by rw [List.length_map, h])
  have hnodup := hperm.nodup_iff.mp (nodup_distinct _)
  exact fun item hitem other hother heq =>
    List.inj_on_of_nodup_map hnodup (mem_distinct.mpr hitem) (mem_distinct.mpr hother) heq

/-- No item shows the values of two representatives, as these would be known for each other. -/
theorem eq_of_forall₂_keepNew {R : α → β → Prop} {order : List β} (hrel : List.Forall₂ R (keepNew known items) order)
    (hsame : ∀ item ∈ items, ∀ other ∈ items, known item other = true → ∀ value, R item value ↔ R other value)
    (hknown : ∀ item ∈ items, ∀ other ∈ items, ∀ value ∈ order, R item value → R other value → known item other = true)
    {item : α} (hitem : item ∈ items) {value other : β} (hvalue : value ∈ order) (hother : other ∈ order)
    (hone : R item value) (htwo : R item other) : value = other := by
  obtain ⟨hlength, hget⟩ := List.forall₂_iff_get.mp hrel
  have hshown : ∀ i (hi : i < order.length), R ((keepNew known items).get ⟨i, hlength ▸ hi⟩) order[i] :=
    fun i hi => hget i (hlength ▸ hi) hi
  have hnot : ∀ i j (hi : i < order.length) (hj : j < order.length), R item order[i] → R item order[j] → ¬ i < j := by
    intro i j hi hj hfirst hsecond hlt
    have hkeptI := mem_of_mem_keepNew (List.getElem_mem (hlength ▸ hi : i < (keepNew known items).length))
    have hkeptJ := mem_of_mem_keepNew (List.getElem_mem (hlength ▸ hj : j < (keepNew known items).length))
    have hknows := hknown item hitem _ hkeptI _ (List.getElem_mem hi) hfirst (hshown i hi)
    have hmoved := (hsame item hitem _ hkeptI hknows _).mp hsecond
    have hpair := List.pairwise_iff_getElem.mp pairwise_keepNew i j (hlength ▸ hi) (hlength ▸ hj) hlt
    rw [hknown _ hkeptJ _ hkeptI _ (List.getElem_mem hj) (hshown j hj) hmoved] at hpair
    cases hpair
  obtain ⟨i, hi, rfl⟩ := List.mem_iff_getElem.mp hvalue
  obtain ⟨j, hj, rfl⟩ := List.mem_iff_getElem.mp hother
  obtain rfl : i = j :=
    Nat.le_antisymm (Nat.not_lt.mp (hnot j i hj hi htwo hone)) (Nat.not_lt.mp (hnot i j hi hj hone htwo))
  rfl

/-- The representatives of some items are, one by one, the values without repetitions exactly if the items show all
values and nothing else, and none shows two. -/
theorem exists_perm_forall₂_iff [DecidableEq β] {R : α → β → Prop} {values : List β}
    (hrefl : ∀ item, known item item = true)
    (hsame : ∀ item ∈ items, ∀ other ∈ items, known item other = true → ∀ value, R item value ↔ R other value)
    (hknown : ∀ item ∈ items, ∀ other ∈ items, ∀ value ∈ values, R item value → R other value → known item other = true) :
    (∃ order, order.Perm (distinct values) ∧ List.Forall₂ R (keepNew known items) order) ↔
      (∀ item ∈ items, ∃ value ∈ values, R item value) ∧ (∀ value ∈ values, ∃ item ∈ items, R item value) ∧
        ∀ item ∈ items, ∀ value ∈ values, ∀ other ∈ values, R item value → R item other → value = other := by
  constructor
  · rintro ⟨order, hperm, hrel⟩
    have hmem : ∀ value, value ∈ order ↔ value ∈ values := fun value => hperm.mem_iff.trans mem_distinct
    have hfound : ∀ value ∈ values, ∃ kept ∈ keepNew known items, R kept value := fun value hvalue =>
      exists_of_mem_forall₂ hrel.flip ((hmem value).mpr hvalue)
    refine ⟨fun item hitem => ?_, fun value hvalue => ?_, fun item hitem value hvalue other hother hone htwo => ?_⟩
    · obtain ⟨kept, hkept, hknows⟩ := exists_mem_keepNew hrefl hitem
      obtain ⟨value, hvalue, hshown⟩ := exists_of_mem_forall₂ hrel hkept
      exact ⟨value, (hmem value).mp hvalue, (hsame item hitem kept (mem_of_mem_keepNew hkept) hknows value).mpr hshown⟩
    · obtain ⟨kept, hkept, hshown⟩ := hfound value hvalue
      exact ⟨kept, mem_of_mem_keepNew hkept, hshown⟩
    · exact eq_of_forall₂_keepNew hrel hsame
        (fun item hitem other hother value hvalue => hknown item hitem other hother value ((hmem value).mp hvalue)) hitem
        ((hmem value).mpr hvalue) ((hmem other).mpr hother) hone htwo
  · rintro ⟨hall, hfound, hone⟩
    obtain ⟨order, hrel⟩ := exists_forall₂ fun kept (hkept : kept ∈ keepNew known items) =>
      hall kept (mem_of_mem_keepNew hkept)
    have hshown : List.Forall₂ R (keepNew known items) order := hrel.imp fun _ _ h => h.2
    have hnodup : order.Nodup := by
      refine nodup_of_forall₂ hrel (pairwise_keepNew.imp_of_mem fun {earlier later} hearlier hlater hnew value hone htwo => ?_)
      rw [hknown later (mem_of_mem_keepNew hlater) earlier (mem_of_mem_keepNew hearlier) value hone.1 htwo.2 hone.2] at hnew
      cases hnew
    refine ⟨order, (List.perm_ext_iff_of_nodup hnodup (nodup_distinct values)).mpr fun value => ?_, hshown⟩
    rw [mem_distinct]
    constructor
    · intro hvalue
      obtain ⟨kept, -, hin, -⟩ := exists_of_mem_forall₂ hrel.flip hvalue
      exact hin
    · intro hvalue
      obtain ⟨item, hitem, hitemShows⟩ := hfound value hvalue
      obtain ⟨kept, hkept, hknows⟩ := exists_mem_keepNew hrefl hitem
      obtain ⟨other, hother, hin, hkeptShows⟩ := exists_of_mem_forall₂ hrel hkept
      have hmoved := (hsame item hitem kept (mem_of_mem_keepNew hkept) hknows value).mp hitemShows
      exact hone kept (mem_of_mem_keepNew hkept) other hin value hvalue hkeptShows hmoved ▸ hother

end Representatives
