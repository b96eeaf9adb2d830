import Mit6824.Transition.Basic

set_option autoImplicit false

/-!
# Simulation of one transition system by another

A relation between the states of a system and those of a more abstract one is a simulation when the
abstract system can answer every step by a run of its own, which may be empty, so that the relation
holds again. Then every run of the first system is matched by a run of the second.

## Main results

* `Transition.Reach.simulate` — simulation of runs.
* `Transition.Reach.lift` — a run of a component is a run of the system it is part of.
-/

namespace Transition

variable {S T L M : Type*} {step : S → L → Option S} {P : S → L → Prop} {step' : T → M → Option T}
  {P' : T → M → Prop}

/-- **Simulation.** A step may use that its two states are reachable. -/
theorem Reach.simulate {R : S → T → Prop} {s₀ s : S} {t₀ : T} (h : Reach step P s₀ s)
    (start : R s₀ t₀)
    (next : ∀ s l u t, Reach step P s₀ s → Reach step' P' t₀ t → R s t → P s l →
      step s l = some u → ∃ v, Reach step' P' t v ∧ R u v) :
    ∃ t, Reach step' P' t₀ t ∧ R s t := by
  induction h with
  | refl => exact ⟨t₀, .refl, start⟩
  | tail l hr hP hstep ih =>
    obtain ⟨t, ht, hR⟩ := ih
    obtain ⟨v, hv, hR'⟩ := next _ l _ t hr ht hR hP hstep
    exact ⟨v, ht.trans hv, hR'⟩

/-- A run of a component, seen in the system through `f`. -/
theorem Reach.lift {f : S → T} {s u : S} (h : Reach step P s u)
    (next : ∀ s l u, P s l → step s l = some u → Reach step' P' (f s) (f u)) :
    Reach step' P' (f s) (f u) := by
  induction h with
  | refl => exact .refl
  | tail l _ hP hstep ih => exact ih.trans (next _ l _ hP hstep)

/-- One step as a run. -/
lemma Reach.single {s u : S} (l : L) (hP : P s l) (hstep : step s l = some u) :
    Reach step P s u :=
  .tail l .refl hP hstep

end Transition
