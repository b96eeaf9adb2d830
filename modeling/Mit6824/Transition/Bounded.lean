import Mathlib.Data.Nat.Notation
import Mathlib.Tactic.Common
import Mit6824.Transition.Basic

set_option autoImplicit false

/-!
# Schedules and bounded runs

A schedule is a list of labels that are followed one after the other. If every step makes a measure
smaller, no schedule is longer than the measure of its first state.

## Main definitions

* `Transition.follow` — the state at the end of a schedule.

## Main results

* `Transition.follow_invariant` — invariants hold at the end of every schedule.
* `Transition.follow_length_le` — the bound.
* `Transition.Reach.exists_of_measure` — a goal that can always be brought nearer can be reached.
-/

namespace Transition

variable {S L : Type*} {step : S → L → Option S} {I : S → Prop} {s t : S} {ls : List L}

/-- Follow a list of labels; `none` when one of them is not possible in its turn. -/
def follow (step : S → L → Option S) (s : S) : List L → Option S
  | [] => some s
  | l :: ls => (step s l).bind fun t => follow step t ls

/-- What holds at the start and survives every step holds at the end. -/
theorem follow_invariant (keep : ∀ s l t, I s → step s l = some t → I t) :
    ∀ {ls : List L} {s : S}, I s → follow step s ls = some t → I t := by
  intro ls
  induction ls with
  | nil =>
    intro s hs h
    obtain rfl : s = t := by simpa [follow] using h
    exact hs
  | cons l ls ih =>
    intro s hs h
    obtain ⟨u, hu, ht⟩ := Option.bind_eq_some_iff.mp h
    exact ih (keep s l u hs hu) ht

/-- A schedule has at most as many steps as the measure says. -/
theorem follow_length_le {μ : S → ℕ} (keep : ∀ s l t, I s → step s l = some t → I t)
    (decrease : ∀ s l t, I s → step s l = some t → μ t < μ s) :
    ∀ {ls : List L} {s : S}, I s → follow step s ls = some t → ls.length + μ t ≤ μ s := by
  intro ls
  induction ls with
  | nil =>
    intro s _ h
    obtain rfl : s = t := by simpa [follow] using h
    simp
  | cons l ls ih =>
    intro s hs h
    obtain ⟨u, hu, ht⟩ := Option.bind_eq_some_iff.mp h
    have hrest := ih (keep s l u hs hu) ht
    have hfirst := decrease s l u hs hu
    simp only [List.length_cons]
    omega

/-- **Reaching a goal.** As long as the goal is not reached, some run brings it nearer.

**Proof sketch.** Induction on a bound of the measure. -/
theorem Reach.exists_of_measure {P : S → L → Prop} {G : S → Prop} (μ : S → ℕ)
    (next : ∀ s, I s → ¬ G s → ∃ t, Reach step P s t ∧ I t ∧ μ t < μ s) :
    ∀ {s : S}, I s → ∃ t, Reach step P s t ∧ I t ∧ G t := by
  have hall : ∀ n s, I s → μ s ≤ n → ∃ t, Reach step P s t ∧ I t ∧ G t := by
    intro n
    induction n with
    | zero =>
      intro s hs hn
      by_cases hgoal : G s
      · exact ⟨s, .refl, hs, hgoal⟩
      · obtain ⟨t, -, -, hlt⟩ := next s hs hgoal
        omega
    | succ n ih =>
      intro s hs hn
      by_cases hgoal : G s
      · exact ⟨s, .refl, hs, hgoal⟩
      · obtain ⟨t, hst, ht, hlt⟩ := next s hs hgoal
        obtain ⟨u, htu, hu, hgoal⟩ := ih t ht (by omega)
        exact ⟨u, hst.trans htu, hu, hgoal⟩
  exact fun {s} hs => hall (μ s) s hs (Nat.le_refl _)

end Transition
