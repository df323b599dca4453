import Mathlib.Data.List.Induction

/-! What a run of events leaves behind. A state holds items; an event puts some of them in, which may depend on the state
it finds, and takes others away. Where every step of a run does no more than that, the items that are held at the end are
those that an event put in and no later one took away. -/

namespace Histories

variable {σ ε ι : Type} (step : σ → ε → σ)

/-- Every event of a run is a good one in the state that it finds. -/
def AllAlong (good : σ → ε → Prop) : σ → List ε → Prop
  | _, [] => True
  | state, event :: rest => good state event ∧ AllAlong good (step state event) rest

/-- Some event of the run put the item in, and no event after it took the item away. -/
def PutAndKept (puts : σ → ε → ι → Prop) (takes : ε → ι → Prop) (start : σ) (events : List ε) (item : ι) : Prop :=
  ∃ done event rest, events = done ++ event :: rest ∧ puts (done.foldl step start) event item ∧
    ∀ later ∈ rest, ¬ takes later item

variable {step} {good : σ → ε → Prop} {puts : σ → ε → ι → Prop} {takes : ε → ι → Prop} {start : σ} {events : List ε}
  {item : ι}

theorem allAlong_append_singleton {last : ε} :
    AllAlong step good start (events ++ [last]) ↔
      AllAlong step good start events ∧ good (events.foldl step start) last := by
  induction events generalizing start with
  | nil => simp [AllAlong]
  | cons event rest ih => simp only [List.cons_append, AllAlong, ih, List.foldl_cons, and_assoc]

theorem not_putAndKept_nil : ¬ PutAndKept step puts takes start [] item := by
  rintro ⟨done, event, rest, hevents, -⟩
  simp at hevents

/-- After one more event: put in by it, or put in before and not taken away by it. -/
theorem putAndKept_append_singleton {last : ε} :
    PutAndKept step puts takes start (events ++ [last]) item ↔
      puts (events.foldl step start) last item ∨ (PutAndKept step puts takes start events item ∧ ¬ takes last item) := by
  constructor
  · rintro ⟨done, event, rest, hevents, hputs, hkept⟩
    cases rest using List.reverseRecOn with
    | nil =>
        obtain ⟨rfl, hlast⟩ := List.append_inj' hevents rfl
        obtain rfl := List.singleton_inj.mp hlast
        exact .inl hputs
    | append_singleton rest other =>
        rw [← List.cons_append, ← List.append_assoc] at hevents
        obtain ⟨rfl, hlast⟩ := List.append_inj' hevents rfl
        obtain rfl := List.singleton_inj.mp hlast
        refine .inr ⟨⟨done, event, rest, rfl, hputs, fun later hlater => ?_⟩, ?_⟩
        · exact hkept later (List.mem_append_left _ hlater)
        · exact hkept last (List.mem_append_right _ (List.mem_singleton_self last))
  · rintro (hputs | ⟨⟨done, event, rest, rfl, hputs, hkept⟩, hlast⟩)
    · exact ⟨events, last, [], rfl, hputs, nofun⟩
    · refine ⟨done, event, rest ++ [last], by simp, hputs, fun later hlater => ?_⟩
      rcases List.mem_append.mp hlater with hmem | hmem
      · exact hkept later hmem
      · rw [List.mem_singleton.mp hmem]
        exact hlast

/-- From a state that holds nothing, a run of good events ends with the items that were put in and kept. -/
theorem holds_iff_putAndKept {P : σ → ι → Prop}
    (hstep : ∀ state event, good state event →
      ∀ item, P (step state event) item ↔ puts state event item ∨ (P state item ∧ ¬ takes event item))
    (hstart : ∀ item, ¬ P start item) (hgood : AllAlong step good start events) (item : ι) :
    P (events.foldl step start) item ↔ PutAndKept step puts takes start events item := by
  induction events using List.reverseRecOn with
  | nil => exact iff_of_false (hstart item) not_putAndKept_nil
  | append_singleton events last ih =>
      obtain ⟨hbefore, hlast⟩ := allAlong_append_singleton.mp hgood
      rw [List.foldl_append, List.foldl_cons, List.foldl_nil, hstep _ _ hlast, ih hbefore, putAndKept_append_singleton]

/-- What every step keeps, a run keeps. -/
theorem foldl_keeps {P : σ → Prop} (hstep : ∀ state event, P state → P (step state event)) (hstart : P start) :
    P (events.foldl step start) := by
  induction events generalizing start with
  | nil => exact hstart
  | cons event rest ih => exact ih (hstep start event hstart)

end Histories
