import Mathlib.Data.List.Infix
import Mathlib.Logic.Basic
import Mathlib.Order.Nat

/-! Guarded runs of a deterministic labelled system. `Reaches step guard start` holds of the states
that `start` leads to by labels each of which met the guard in the state it was taken in. The rules
say how an invariant, a relation to the first state and a weaker guard carry over from one step to a
run. -/

variable {σ α : Type}

/-- The states a run from `start` ends in when every label it takes meets the guard. -/
inductive Reaches (step : σ → α → σ) (guard : σ → α → Prop) (start : σ) : σ → Prop
  | refl : Reaches step guard start start
  | tail {state : σ} (label : α) (run : Reaches step guard start state) (meets : guard state label) :
      Reaches step guard start (step state label)

/-- Every label of a list meets the guard at its turn. -/
def Meets (step : σ → α → σ) (guard : σ → α → Prop) : σ → List α → Prop
  | _, [] => True
  | state, label :: rest => guard state label ∧ Meets step guard (step state label) rest

theorem Meets.take {step : σ → α → σ} {guard : σ → α → Prop} {start : σ} {labels : List α}
    (h : Meets step guard start labels) (count : Nat) : Meets step guard start (labels.take count) := by
  induction labels generalizing start count with
  | nil => exact by rwa [List.take_nil]
  | cons label rest ih =>
      cases count with
      | zero => trivial
      | succ count => exact ⟨h.1, ih h.2 count⟩

theorem Meets.append_iff {step : σ → α → σ} {guard : σ → α → Prop} {start : σ} {first second : List α} :
    Meets step guard start (first ++ second) ↔
      Meets step guard start first ∧ Meets step guard (first.foldl step start) second := by
  induction first generalizing start with
  | nil => exact ⟨fun h => ⟨trivial, h⟩, fun h => h.2⟩
  | cons label rest ih => exact (and_congr_right fun _ => ih).trans and_assoc.symm

theorem Meets.concat {step : σ → α → σ} {guard : σ → α → Prop} {start : σ} {labels : List α} {label : α}
    (h : Meets step guard start labels) (hlast : guard (labels.foldl step start) label) :
    Meets step guard start (labels ++ [label]) := Meets.append_iff.mpr ⟨h, hlast, trivial⟩

/-- Where an invariant shows itself, and a step whose label meets a first guard keeps it exactly when the label meets a
second one, it shows after every prefix of labels that all meet the first exactly when they all meet the second. -/
theorem Meets.iff_shown_within {step : σ → α → σ} {base guard : σ → α → Prop} {P Q : σ → Prop}
    (hshows : ∀ state, P state → Q state)
    (hkeeps : ∀ state label, P state → base state label → guard state label → P (step state label))
    (hmisses : ∀ state label, P state → base state label → Q (step state label) → guard state label) {start : σ}
    (hstart : P start) {labels : List α} (hbase : Meets step base start labels) :
    Meets step guard start labels ↔ ∀ taken, taken <+: labels → Q (taken.foldl step start) := by
  induction labels generalizing start with
  | nil =>
      refine ⟨fun _ taken htaken => ?_, fun _ => trivial⟩
      rw [List.prefix_nil.mp htaken]
      exact hshows start hstart
  | cons label rest ih =>
      obtain ⟨hbaseFirst, hbaseRest⟩ := hbase
      constructor
      · rintro ⟨hfirst, hrest⟩ taken htaken
        rcases List.prefix_cons_iff.mp htaken with rfl | ⟨tail, rfl, htail⟩
        · exact hshows start hstart
        · exact (ih (hkeeps start label hstart hbaseFirst hfirst) hbaseRest).mp hrest tail htail
      · intro h
        have hnext := h [label] (List.prefix_cons_iff.mpr (.inr ⟨[], rfl, List.nil_prefix⟩))
        have hfirst := hmisses start label hstart hbaseFirst hnext
        refine ⟨hfirst, (ih (hkeeps start label hstart hbaseFirst hfirst) hbaseRest).mpr fun taken htaken => ?_⟩
        exact h (label :: taken) (List.prefix_cons_iff.mpr (.inr ⟨taken, rfl, htaken⟩))

theorem Meets.of_forall {step : σ → α → σ} {guard : σ → α → Prop} (h : ∀ state label, guard state label) (start : σ)
    (labels : List α) : Meets step guard start labels := by
  induction labels generalizing start with
  | nil => trivial
  | cons label rest ih => exact ⟨h start label, ih _⟩

/-- Where an invariant shows itself, and a step keeps it exactly when its label meets the guard, it shows after
every prefix of the labels exactly when they all do. -/
theorem Meets.iff_shown {step : σ → α → σ} {guard : σ → α → Prop} {P Q : σ → Prop} (hshows : ∀ state, P state → Q state)
    (hkeeps : ∀ state label, P state → guard state label → P (step state label))
    (hmisses : ∀ state label, P state → Q (step state label) → guard state label) {start : σ} (hstart : P start)
    (labels : List α) :
    Meets step guard start labels ↔ ∀ taken, taken <+: labels → Q (taken.foldl step start) :=
  iff_shown_within hshows (fun state label h _ => hkeeps state label h) (fun state label h _ => hmisses state label h)
    hstart (of_forall (fun _ _ => trivial) start labels : Meets step (fun _ _ => True) start labels)

/-- Where a step keeps a property exactly when its label meets the guard, the property holds after every
prefix of the labels exactly when they all do. -/
theorem Meets.iff_prefixes {step : σ → α → σ} {guard : σ → α → Prop} {P : σ → Prop}
    (hstep : ∀ state label, P state → (P (step state label) ↔ guard state label)) {start : σ} (hstart : P start)
    (labels : List α) :
    Meets step guard start labels ↔ ∀ taken, taken <+: labels → P (taken.foldl step start) :=
  iff_shown (fun _ h => h) (fun state label h => (hstep state label h).mpr) (fun state label h => (hstep state label h).mp)
    hstart labels

/-- The labels of a run meet a guard when each of them does in the state that the labels before it lead to. -/
theorem Meets.iff_splits {step : σ → α → σ} {guard : σ → α → Prop} {start : σ} {labels : List α} :
    Meets step guard start labels ↔
      ∀ before label after, labels = before ++ label :: after → guard (before.foldl step start) label := by
  induction labels generalizing start with
  | nil => exact iff_of_true trivial fun before label after hsplit => absurd hsplit.symm (by simp)
  | cons first rest ih =>
      constructor
      · rintro ⟨hfirst, hrest⟩ before label after hsplit
        obtain ⟨rfl, hsame⟩ | ⟨tail, rfl, hsame⟩ := List.cons_eq_append_iff.mp hsplit
        · obtain ⟨rfl, -⟩ := List.cons.inj hsame
          exact hfirst
        · exact ih.mp hrest tail label after hsame
      · intro h
        refine ⟨h [] first rest rfl, ih.mpr fun before label after hsplit => ?_⟩
        exact h (first :: before) label after (by rw [hsplit, List.cons_append])

/-- Guards that agree wherever an invariant holds are met by the same labels. -/
theorem Meets.congr {step : σ → α → σ} {guard other : σ → α → Prop} {P : σ → Prop}
    (hstep : ∀ state label, P state → P (step state label))
    (hguard : ∀ state label, P state → (guard state label ↔ other state label)) {start : σ} (hstart : P start)
    (labels : List α) : Meets step guard start labels ↔ Meets step other start labels := by
  induction labels generalizing start with
  | nil => exact Iff.rfl
  | cons label rest ih => exact and_congr (hguard start label hstart) (ih (hstep start label hstart))

/-- A measure that no step lowers, and that a step keeps exactly when its label meets the guard, is the same after the
labels exactly when they all do. -/
theorem Meets.iff_constant {step : σ → α → σ} {guard : σ → α → Prop} {P : σ → Prop} {measure : σ → Nat}
    (hinv : ∀ state label, P state → P (step state label))
    (hmono : ∀ state label, P state → measure state ≤ measure (step state label))
    (hguard : ∀ state label, P state → (measure (step state label) = measure state ↔ guard state label)) {start : σ}
    (hstart : P start) (labels : List α) :
    Meets step guard start labels ↔ measure (labels.foldl step start) = measure start := by
  have hrises : ∀ (rest : List α) (state : σ), P state → measure state ≤ measure (rest.foldl step state) := by
    intro rest
    induction rest with
    | nil => exact fun state _ => le_rfl
    | cons label rest ih => exact fun state h => (hmono state label h).trans (ih _ (hinv state label h))
  induction labels generalizing start with
  | nil => exact iff_of_true trivial rfl
  | cons label rest ih =>
      have hfirst := hmono start label hstart
      have hrest := hrises rest _ (hinv start label hstart)
      refine (and_congr (hguard start label hstart).symm (ih (hinv start label hstart))).trans ?_
      rw [List.foldl_cons]
      omega

namespace Reaches

variable {step : σ → α → σ} {guard : σ → α → Prop} {start state : σ}

/-- What every guarded step keeps holds in every state reached. -/
theorem invariant {P : σ → Prop}
    (hstep : ∀ state label, P state → guard state label → P (step state label))
    (run : Reaches step guard start state) (hstart : P start) : P state := by
  induction run with
  | refl => exact hstart
  | tail label _ meets ih => exact hstep _ label ih meets

theorem mono {weaker : σ → α → Prop} (hguard : ∀ state label, guard state label → weaker state label)
    (run : Reaches step guard start state) : Reaches step weaker start state := by
  induction run with
  | refl => exact .refl
  | tail label _ meets ih => exact .tail label ih (hguard _ label meets)

theorem trans {last : σ} (first : Reaches step guard start state)
    (second : Reaches step guard state last) : Reaches step guard start last := by
  induction second with
  | refl => exact first
  | tail label _ meets ih => exact .tail label ih meets

theorem single (label : α) (meets : guard start label) : Reaches step guard start (step start label) :=
  .tail label .refl meets

theorem of_meets {labels : List α} (h : Meets step guard start labels) :
    Reaches step guard start (labels.foldl step start) := by
  induction labels generalizing start with
  | nil => exact .refl
  | cons label rest ih => exact (single label h.1).trans (ih h.2)

/-- Without a guard every list of labels is a run. -/
theorem foldl (labels : List α) (start : σ) :
    Reaches step (fun _ _ => True) start (labels.foldl step start) := by
  induction labels generalizing start with
  | nil => exact .refl
  | cons label rest ih => exact (single label trivial).trans (ih _)

end Reaches
