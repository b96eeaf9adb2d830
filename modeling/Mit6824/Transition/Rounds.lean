import Mathlib.Data.Nat.Notation
import Mathlib.Data.Option.Basic

set_option autoImplicit false

/-!
# Rounds until success

A loop makes one round after the other; a round may fail, and some rounds are successful. Some
states are traps: no round from them is successful, and the loop stays among them. If every other
state is successful or its round makes a measure smaller, then the loop is successful after
finitely many rounds exactly when it does not meet a trap before.

## Main definitions

* `Transition.rounds` — the state after a number of rounds.
* `Transition.Eventually` — some round is successful.
* `Transition.Avoids` — no trap is met before the first successful round.

## Main results

* `Transition.eventually_of_measure` — a measure that becomes smaller leads to success.
* `Transition.not_eventually_of_trap` — a trap does not.
* `Transition.eventually_iff_avoids` — success is the absence of traps on the way.
-/

namespace Transition

variable {S : Type*} {next : S → Option S} {done trap I : S → Prop} {s t : S}

/-- The state after `k` rounds; `none` when a round fails. -/
def rounds (next : S → Option S) : ℕ → S → Option S
  | 0, s => some s
  | k + 1, s => (next s).bind (rounds next k)

/-- After finitely many rounds there is a successful one. -/
def Eventually (next : S → Option S) (done : S → Prop) (s : S) : Prop :=
  ∃ k t, rounds next k s = some t ∧ done t

/-- No state before the first successful round is a trap. -/
def Avoids (next : S → Option S) (done trap : S → Prop) (s : S) : Prop :=
  ∀ k t, rounds next k s = some t →
    (∀ j < k, ∀ u, rounds next j s = some u → ¬ done u) → ¬ trap t

/-- The first round, and the others. -/
lemma rounds_succ (h : next s = some t) (k : ℕ) : rounds next (k + 1) s = rounds next k t := by
  simp [rounds, h]

/-- One more round before a successful one. -/
lemma Eventually.of_next (h : next s = some t) (ht : Eventually next done t) :
    Eventually next done s := by
  obtain ⟨k, u, hu, hdone⟩ := ht
  exact ⟨k + 1, u, by rw [rounds_succ h, hu], hdone⟩

/-- What lies behind an unsuccessful round of a loop without traps has no traps. -/
lemma Avoids.of_next (h : Avoids next done trap s) (hs : ¬ done s) (hnext : next s = some t) :
    Avoids next done trap t := by
  intro k u hu hbefore
  refine h (k + 1) u (by rw [rounds_succ hnext, hu]) fun j hj v hv => ?_
  cases j with
  | zero =>
    obtain rfl : s = v := Option.some.inj hv
    exact hs
  | succ j =>
    rw [rounds_succ hnext] at hv
    exact hbefore j (by omega) v hv

/-- The start of a loop without traps is none. -/
lemma Avoids.not_trap (h : Avoids next done trap s) : ¬ trap s :=
  h 0 s rfl fun j hj => absurd hj (Nat.not_lt_zero j)

/-- No trap at the start, and none behind it unless the start is successful. -/
lemma Avoids.of_start (hs : ¬ trap s)
    (hnext : ¬ done s → ∀ t, next s = some t → Avoids next done trap t) :
    Avoids next done trap s := by
  intro k u hu hbefore
  cases k with
  | zero =>
    obtain rfl : s = u := Option.some.inj hu
    exact hs
  | succ k =>
    obtain ⟨t, ht, hu⟩ := Option.bind_eq_some_iff.mp hu
    refine hnext (hbefore 0 k.succ_pos s rfl) t ht k u hu fun j hj v hv => ?_
    exact hbefore (j + 1) (by omega) v (by rw [rounds_succ ht, hv])

/-- **A measure leads to success.** The invariant holds up to the first successful round, and every
unsuccessful round makes the measure smaller.

**Proof sketch.** Strong induction on the measure: the first round is successful, or its outcome
has a smaller measure. -/
theorem eventually_of_measure (measure : S → ℕ)
    (keep : ∀ s t, I s → ¬ done s → next s = some t → I t)
    (progress : ∀ s, I s → ¬ done s → ∃ t, next s = some t ∧ measure t < measure s) (hs : I s) :
    Eventually next done s := by
  induction hm : measure s using Nat.strongRecOn generalizing s with
  | _ m ih =>
    by_cases hdone : done s
    · exact ⟨0, s, rfl, hdone⟩
    · obtain ⟨t, ht, hlt⟩ := progress s hs hdone
      exact (ih (measure t) (hm ▸ hlt) (keep s t hs hdone ht) rfl).of_next ht

/-- **From a trap no round is successful.** -/
theorem not_eventually_of_trap
    (trapped : ∀ s, trap s → ¬ done s ∧ ∀ t, next s = some t → trap t) (hs : trap s) :
    ¬ Eventually next done s := by
  rintro ⟨k, t, ht, hdone⟩
  induction k generalizing s with
  | zero =>
    obtain rfl : s = t := Option.some.inj ht
    exact (trapped s hs).1 hdone
  | succ k ih =>
    obtain ⟨u, hu, ht⟩ := Option.bind_eq_some_iff.mp ht
    exact ih ((trapped s hs).2 u hu) ht

/-- **Success, unless there is a trap.** The invariant holds up to the first trap or successful
round; a round from a state that is no trap is successful or makes the measure smaller; and behind a
trap the loop stays among states from which no round is successful.

**Proof sketch.** If some round is successful, none of the states before it is a trap, by induction
on the number of rounds. Without traps on the way, the measure leads to success. -/
theorem eventually_iff_avoids {stay : S → Prop} (measure : S → ℕ)
    (keep : ∀ s t, I s → ¬ trap s → ¬ done s → next s = some t → I t)
    (progress : ∀ s, I s → ¬ trap s → ¬ done s → ∃ t, next s = some t ∧ measure t < measure s)
    (enter : ∀ s, I s → trap s → stay s)
    (trapped : ∀ s, stay s → ¬ done s ∧ ∀ t, next s = some t → stay t) (hs : I s) :
    Eventually next done s ↔ Avoids next done trap s := by
  constructor
  · intro hdone
    have hnot : ∀ s, I s → Eventually next done s → ¬ trap s := fun s hs hdone htrap =>
      not_eventually_of_trap trapped (enter s hs htrap) hdone
    obtain ⟨k, t, ht, hdone'⟩ := id hdone
    induction k generalizing s with
    | zero =>
      obtain rfl : s = t := Option.some.inj ht
      refine .of_start (hnot s hs hdone) fun hnotdone => absurd hdone' hnotdone
    | succ k ih =>
      refine .of_start (hnot s hs hdone) fun hnotdone u hu => ?_
      rw [rounds_succ hu] at ht
      exact ih (keep s u hs (hnot s hs hdone) hnotdone hu) ⟨k, t, ht, hdone'⟩ ht
  · intro havoids
    exact eventually_of_measure (I := fun s => I s ∧ Avoids next done trap s) measure
      (fun s t h hnot ht => ⟨keep s t h.1 h.2.not_trap hnot ht, h.2.of_next hnot ht⟩)
      (fun s h hnot => progress s h.1 h.2.not_trap hnot) ⟨hs, havoids⟩

end Transition
