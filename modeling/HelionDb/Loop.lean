import Mathlib.Data.List.Nodup

/-! Loops that stop at their first error and keep what they did before it. `checkAll` only checks,
`runAll` threads one state through a list of items, and `updateEach` updates the items of a list in
place. The last two commute: threading a list of cells through the items succeeds when every single
cell gets through them. -/

namespace Loop

variable {ε σ α β : Type}

/-- What a fallible update leaves behind: its result, and the state it had reached by then. -/
abbrev Outcome (ε σ : Type) := Except ε Unit × σ

/-- Rename the error of an outcome and keep the state. -/
def mapError {ε' : Type} (rename : ε → ε') (outcome : Outcome ε σ) : Outcome ε' σ :=
  (outcome.1.mapError rename, outcome.2)

@[simp] theorem mapError_ok_iff {ε' : Type} {rename : ε → ε'} {outcome : Outcome ε σ} :
    (mapError rename outcome).1 = .ok () ↔ outcome.1 = .ok () := by
  rw [mapError]
  cases outcome.1 <;> simp [Except.mapError]

@[simp] theorem mapError_snd {ε' : Type} (rename : ε → ε') (outcome : Outcome ε σ) :
    (mapError rename outcome).2 = outcome.2 := rfl

/-- Check each item in turn, up to the first error. -/
def checkAll (f : α → Except ε Unit) : List α → Except ε Unit
  | [] => .ok ()
  | item :: rest =>
      match f item with
      | .ok () => checkAll f rest
      | .error err => .error err

theorem checkAll_ok_iff {f : α → Except ε Unit} {items : List α} :
    checkAll f items = .ok () ↔ ∀ item ∈ items, f item = .ok () := by
  induction items with
  | nil => simp [checkAll]
  | cons item rest ih =>
      rw [checkAll, List.forall_mem_cons]
      split
      · rename_i hhead
        simp [ih, hhead]
      · rename_i hhead
        simp [hhead]

/-- Two steps succeed when the first does and the second does with what it returned. -/
theorem bind_ok_iff {first : Except ε α} {next : α → Except ε β} {result : β} :
    (first >>= next) = .ok result ↔ ∃ value, first = .ok value ∧ next value = .ok result := by
  cases first with
  | error err =>
      constructor
      · intro h
        cases h
      · rintro ⟨value, h, -⟩
        cases h
  | ok value =>
      constructor
      · exact fun h => ⟨value, rfl, h⟩
      · rintro ⟨value, ⟨⟩, h⟩
        exact h

/-- A fold over items that do nothing changes nothing. -/
theorem foldl_eq_self {f : σ → α → σ} {items : List α} (h : ∀ item ∈ items, ∀ state, f state item = state)
    (state : σ) : items.foldl f state = state := by
  induction items generalizing state with
  | nil => rfl
  | cons item rest ih =>
      obtain ⟨hitem, hrest⟩ := List.forall_mem_cons.mp h
      rw [List.foldl_cons, hitem]
      exact ih hrest state

/-- Every result of a traversal that succeeds is the result of one of its items. -/
theorem exists_of_mapM_ok {f : α → Except ε β} {items : List α} {results : List β}
    (hok : items.mapM f = .ok results) {result : β} (hresult : result ∈ results) :
    ∃ item ∈ items, f item = .ok result := by
  induction items generalizing results with
  | nil =>
      cases hok
      cases hresult
  | cons item rest ih =>
      rw [List.mapM_cons] at hok
      simp only [bind, Except.bind, pure, Except.pure] at hok
      split at hok
      · cases hok
      · rename_i first hfirst
        split at hok
        · cases hok
        · rename_i others hothers
          cases hok
          rcases List.mem_cons.mp hresult with rfl | hmem
          · exact ⟨item, List.mem_cons_self, hfirst⟩
          · obtain ⟨source, hsource, heq⟩ := ih hothers hmem
            exact ⟨source, List.mem_cons_of_mem _ hsource, heq⟩

/-- Update a state with each item in turn, up to the first error. -/
def runAll (f : α → σ → Outcome ε σ) : List α → σ → Outcome ε σ
  | [], state => (.ok (), state)
  | item :: rest, state =>
      match f item state with
      | (.ok (), next) => runAll f rest next
      | (.error err, next) => (.error err, next)

/-- Update each item of a list in place, up to the first error. -/
def updateEach (f : α → Outcome ε α) : List α → Outcome ε (List α)
  | [] => (.ok (), [])
  | item :: rest =>
      match f item with
      | (.ok (), item') => ((updateEach f rest).1, item' :: (updateEach f rest).2)
      | (.error err, item') => (.error err, item' :: rest)

section RunAll

variable (f : α → σ → Outcome ε σ)

@[simp] theorem runAll_nil (state : σ) : runAll f [] state = (.ok (), state) := rfl

theorem runAll_cons_ok {item : α} {state : σ} (h : (f item state).1 = .ok ()) (rest : List α) :
    runAll f (item :: rest) state = runAll f rest (f item state).2 := by
  rw [runAll]
  split
  · rename_i heq
    rw [heq]
  · rename_i heq
    rw [heq] at h
    cases h

theorem runAll_cons_error {item : α} {state : σ} {err : ε} (h : (f item state).1 = .error err)
    (rest : List α) : runAll f (item :: rest) state = (.error err, (f item state).2) := by
  rw [runAll]
  split
  · rename_i heq
    rw [heq] at h
    cases h
  · rename_i heq
    rw [heq] at h ⊢
    cases h
    rfl

theorem runAll_cons_ok_iff {item : α} {state : σ} {rest : List α} :
    (runAll f (item :: rest) state).1 = .ok () ↔
      (f item state).1 = .ok () ∧ (runAll f rest (f item state).2).1 = .ok () := by
  cases h : (f item state).1 with
  | ok u =>
      rw [runAll_cons_ok f h]
      simp
  | error err =>
      rw [runAll_cons_error f h]
      simp

/-- Two bodies that agree on the items of a loop make one loop. -/
theorem runAll_congr {g : α → σ → Outcome ε σ} {items : List α}
    (h : ∀ item ∈ items, ∀ state, f item state = g item state) (state : σ) :
    runAll f items state = runAll g items state := by
  induction items generalizing state with
  | nil => rfl
  | cons item rest ih =>
      have hitem := h item List.mem_cons_self state
      have hrest := ih fun next hnext => h next (List.mem_cons_of_mem _ hnext)
      cases hfirst : (f item state).1 with
      | ok u => rw [runAll_cons_ok f hfirst, runAll_cons_ok g (hitem ▸ hfirst), hrest, hitem]
      | error err => rw [runAll_cons_error f hfirst, runAll_cons_error g (hitem ▸ hfirst), hitem]

/-- A property that every step keeps is kept by the whole loop, also when it stops early. -/
theorem runAll_invariant {P : σ → Prop} {items : List α}
    (hstep : ∀ item ∈ items, ∀ state, P state → P (f item state).2) {state : σ}
    (hstate : P state) : P (runAll f items state).2 := by
  induction items generalizing state with
  | nil => exact hstate
  | cons item rest ih =>
      have hitem := hstep item List.mem_cons_self state hstate
      cases h : (f item state).1 with
      | ok u =>
          rw [runAll_cons_ok f h]
          exact ih (fun next hnext => hstep next (List.mem_cons_of_mem _ hnext)) hitem
      | error err =>
          rw [runAll_cons_error f h]
          exact hitem

/-- When success of an item depends only on what no other item changes, the loop succeeds exactly
when every item would from the start. -/
theorem runAll_ok_iff_forall {P : α → σ → Prop} (hstep : ∀ item state, (f item state).1 = .ok () ↔ P item state)
    (hstable : ∀ item other state, other ≠ item → (P other (f item state).2 ↔ P other state))
    {items : List α} (hnodup : items.Nodup) {state : σ} :
    (runAll f items state).1 = .ok () ↔ ∀ item ∈ items, P item state := by
  induction items generalizing state with
  | nil => simp
  | cons item rest ih =>
      obtain ⟨hitem, hrest⟩ := List.nodup_cons.mp hnodup
      rw [runAll_cons_ok_iff, ih hrest, hstep, List.forall_mem_cons]
      refine and_congr_right fun _ => forall₂_congr fun other hother => hstable item other state ?_
      exact fun heq => hitem (heq ▸ hother)

/-- A loop over a part of the state is a loop over the state. -/
theorem runAll_lift {τ : Type} {g : α → τ → Outcome ε τ} (put : τ → σ)
    (h : ∀ item part, f item (put part) = ((g item part).1, put (g item part).2)) (items : List α) (part : τ) :
    runAll f items (put part) = ((runAll g items part).1, put (runAll g items part).2) := by
  induction items generalizing part with
  | nil => rfl
  | cons item rest ih =>
      cases hitem : (g item part).1 with
      | ok u =>
          rw [runAll_cons_ok g hitem, ← ih, runAll_cons_ok f (by rw [h, hitem]), h]
      | error err =>
          rw [runAll_cons_error g hitem, runAll_cons_error f (by rw [h, hitem]), h]

end RunAll

section UpdateEach

variable (f : α → Outcome ε α)

theorem updateEach_ok_iff {items : List α} :
    (updateEach f items).1 = .ok () ↔ ∀ item ∈ items, (f item).1 = .ok () := by
  induction items with
  | nil => simp [updateEach]
  | cons item rest ih =>
      rw [updateEach]
      split
      · rename_i heq
        simp [ih, heq]
      · rename_i heq
        simp [heq]

theorem updateEach_of_ok {items : List α} (h : ∀ item ∈ items, (f item).1 = .ok ()) :
    (updateEach f items).2 = items.map fun item => (f item).2 := by
  induction items with
  | nil => rfl
  | cons item rest ih =>
      have hitem := h item List.mem_cons_self
      rw [updateEach]
      split
      · rename_i heq
        simp only [List.map_cons, heq]
        rw [ih fun next hnext => h next (List.mem_cons_of_mem _ hnext)]
      · rename_i heq
        rw [heq] at hitem
        cases hitem

/-- Up to the first item that fails the items are updated, the failing one is left as it fails, the rest as they are. -/
theorem updateEach_of_first_error {before after : List α} {item : α} {err : ε}
    (hbefore : ∀ earlier ∈ before, (f earlier).1 = .ok ()) (hitem : (f item).1 = .error err) :
    updateEach f (before ++ item :: after) =
      (.error err, before.map (fun earlier => (f earlier).2) ++ (f item).2 :: after) := by
  induction before with
  | nil =>
      rw [List.nil_append, updateEach]
      split
      · next heq => simp [heq] at hitem
      · next heq =>
          obtain rfl : _ = err := by simpa [heq] using hitem
          simp [heq]
  | cons first rest ih =>
      obtain ⟨hfirst, hrest⟩ := List.forall_mem_cons.mp hbefore
      rw [List.cons_append, updateEach]
      split
      · next heq => simp [ih hrest, heq]
      · next heq => simp [heq] at hfirst

theorem exists_first_error {items : List α} {err : ε} (h : (updateEach f items).1 = .error err) :
    ∃ before item after, items = before ++ item :: after ∧ (∀ earlier ∈ before, (f earlier).1 = .ok ()) ∧
      (f item).1 = .error err := by
  induction items with
  | nil => cases h
  | cons item rest ih =>
      rw [updateEach] at h
      split at h
      · next heq =>
          obtain ⟨before, found, after, rfl, hbefore, hfound⟩ := ih h
          refine ⟨item :: before, found, after, rfl, List.forall_mem_cons.mpr ⟨?_, hbefore⟩, hfound⟩
          rw [heq]
      · next heq => exact ⟨[], item, rest, rfl, nofun, (congrArg Prod.fst heq).trans h⟩

end UpdateEach

section Cells

variable (g : α → β → Outcome ε β)

/-- A list of cells gets through the items exactly when every cell does. -/
theorem runAll_updateEach_ok_iff {items : List α} {cells : List β} :
    (runAll (fun item => updateEach (g item)) items cells).1 = .ok () ↔
      ∀ cell ∈ cells, (runAll g items cell).1 = .ok () := by
  induction items generalizing cells with
  | nil => simp
  | cons item rest ih =>
      rw [runAll_cons_ok_iff, updateEach_ok_iff]
      constructor
      · rintro ⟨hitem, hrest⟩ cell hcell
        rw [updateEach_of_ok _ hitem, ih] at hrest
        rw [runAll_cons_ok_iff]
        exact ⟨hitem cell hcell, hrest _ (List.mem_map_of_mem hcell)⟩
      · intro h
        have hitem : ∀ cell ∈ cells, (g item cell).1 = .ok () :=
          fun cell hcell => ((runAll_cons_ok_iff g).mp (h cell hcell)).1
        refine ⟨hitem, ?_⟩
        rw [updateEach_of_ok _ hitem, ih]
        intro next hnext
        obtain ⟨cell, hcell, rfl⟩ := List.mem_map.mp hnext
        exact ((runAll_cons_ok_iff g).mp (h cell hcell)).2

theorem runAll_updateEach_of_ok {items : List α} {cells : List β}
    (h : ∀ cell ∈ cells, (runAll g items cell).1 = .ok ()) :
    (runAll (fun item => updateEach (g item)) items cells).2 =
      cells.map fun cell => (runAll g items cell).2 := by
  induction items generalizing cells with
  | nil => simp
  | cons item rest ih =>
      have hitem : ∀ cell ∈ cells, (g item cell).1 = .ok () :=
        fun cell hcell => ((runAll_cons_ok_iff g).mp (h cell hcell)).1
      have hrest : ∀ next ∈ cells.map fun cell => (g item cell).2, (runAll g rest next).1 = .ok () := by
        intro next hnext
        obtain ⟨cell, hcell, rfl⟩ := List.mem_map.mp hnext
        exact ((runAll_cons_ok_iff g).mp (h cell hcell)).2
      rw [runAll_cons_ok (fun item => updateEach (g item)) ((updateEach_ok_iff _).mpr hitem),
        updateEach_of_ok _ hitem, ih hrest, List.map_map]
      refine List.map_congr_left fun cell hcell => ?_
      rw [Function.comp_apply, runAll_cons_ok g (hitem cell hcell)]

end Cells

/-! ### Errors -/

section Errors

variable {P : ε → Prop}

/-- What holds of the errors of every item holds of the error of a loop. -/
theorem checkAll_error {f : α → Except ε Unit} (hstep : ∀ item err, f item = .error err → P err) {items : List α}
    {err : ε} (h : checkAll f items = .error err) : P err := by
  induction items with
  | nil => cases h
  | cons item rest ih =>
      rw [checkAll] at h
      split at h
      · exact ih h
      · rename_i hfirst
        cases h
        exact hstep item err hfirst

theorem runAll_error {f : α → σ → Outcome ε σ} (hstep : ∀ item state err, (f item state).1 = .error err → P err)
    {items : List α} {state : σ} {err : ε} (h : (runAll f items state).1 = .error err) : P err := by
  induction items generalizing state with
  | nil => cases h
  | cons item rest ih =>
      cases hfirst : (f item state).1 with
      | ok _ =>
          rw [runAll_cons_ok f hfirst] at h
          exact ih h
      | error other =>
          rw [runAll_cons_error f hfirst] at h
          cases h
          exact hstep item state err hfirst

theorem updateEach_error {f : α → Outcome ε α} (hstep : ∀ item err, (f item).1 = .error err → P err) {items : List α}
    {err : ε} (h : (updateEach f items).1 = .error err) : P err := by
  induction items with
  | nil => cases h
  | cons item rest ih =>
      rw [updateEach] at h
      split at h
      · exact ih h
      · rename_i hfirst
        cases h
        exact hstep item err (congrArg Prod.fst hfirst)

end Errors

end Loop
