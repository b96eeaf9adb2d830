import Mathlib.Data.Option.Basic
import Mathlib.Tactic.SplitIfs

set_option autoImplicit false

/-!
# Runs of a labelled transition system

A system is given by a partial step function: in state `s` the label `l` leads to `step s l`, or
cannot happen there. A run is a finite sequence of steps that all meet a condition on the state
before the step and the label.

## Main definitions

* `Transition.Reach` — the states a run can reach.
* `Transition.stepsIf` — follow a list of labels as long as the condition holds.

## Main results

* `Transition.Reach.invariant` — what holds at the start and survives every step holds in every
  state a run reaches.
* `Transition.Reach.exists_of_stepsIf` — a list of labels that can be followed is a run.
-/

namespace Transition

variable {S L : Type*}

/-- The states reachable from `s` by steps that all meet `P`. -/
inductive Reach (step : S → L → Option S) (P : S → L → Prop) (s : S) : S → Prop
  | refl : Reach step P s s
  | tail {t u : S} (l : L) : Reach step P s t → P t l → step t l = some u → Reach step P s u

variable {step : S → L → Option S} {P Q : S → L → Prop}

/-- **Invariants of runs.** The step may use that its state is reachable. -/
theorem Reach.invariant {s t : S} {I : S → Prop} (h : Reach step P s t) (start : I s)
    (next : ∀ t l u, Reach step P s t → I t → P t l → step t l = some u → I u) : I t := by
  induction h with
  | refl => exact start
  | tail l hr hP hstep ih => exact next _ l _ hr ih hP hstep

/-- A run under a condition is a run under every weaker one. -/
lemma Reach.mono {s t : S} (h : Reach step P s t) (hPQ : ∀ t l, P t l → Q t l) :
    Reach step Q s t := by
  induction h with
  | refl => exact .refl
  | tail l _ hP hstep ih => exact .tail l ih (hPQ _ _ hP) hstep

/-- Runs compose. -/
lemma Reach.trans {s t u : S} (h : Reach step P s t) (h' : Reach step P t u) :
    Reach step P s u := by
  induction h' with
  | refl => exact h
  | tail l _ hP hstep ih => exact .tail l ih hP hstep

/-- Follow a list of labels; `none` when a step cannot happen or does not meet the condition. -/
def stepsIf (step : S → L → Option S) (P : S → L → Prop) [∀ s l, Decidable (P s l)] (s : S) :
    List L → Option S
  | [] => some s
  | l :: ls => if P s l then (step s l).bind fun t => stepsIf step P t ls else none

/-- A list of labels that can be followed is a run. -/
theorem Reach.of_stepsIf [∀ s l, Decidable (P s l)] {ls : List L} :
    ∀ {s t : S}, stepsIf step P s ls = some t → Reach step P s t := by
  induction ls with
  | nil =>
    intro s t h
    obtain rfl : s = t := by simpa [stepsIf] using h
    exact .refl
  | cons l ls ih =>
    intro s t h
    simp only [stepsIf] at h
    split_ifs at h with hl
    obtain ⟨u, hu, ht⟩ := Option.bind_eq_some_iff.mp h
    exact (Reach.tail l .refl hl hu).trans (ih ht)

/-- What a run along a list of labels ends in. -/
lemma Reach.exists_of_stepsIf [∀ s l, Decidable (P s l)] {s : S} (ls : List L) {p : S → Prop}
    [DecidablePred p] (h : ((stepsIf step P s ls).any fun t => decide (p t)) = true) :
    ∃ t, Reach step P s t ∧ p t := by
  cases ht : stepsIf step P s ls with
  | none => simp [ht] at h
  | some t => exact ⟨t, Reach.of_stepsIf ht, by simpa [ht] using h⟩

end Transition
