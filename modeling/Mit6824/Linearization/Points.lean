import Mit6824.Linearization.Basic

set_option autoImplicit false

/-!
# Linearization points

A sequence of states, for example the states along a log, linearizes a history when every operation
has a place of its own in the sequence at which it makes the step that the object allows, and when
nothing changes at the other places.

## Main results

* `Linearization.linearizable_of_points` — operations with such points are linearizable for every
  order that the points keep.
-/

namespace Linearization

variable {σ α ι : Type*} {step : σ → α → Option σ} {op : ι → α} {before : ι → ι → Prop}
variable {P : List ι} {point : ι → ℕ} {st : ℕ → σ} {N : ℕ}

/-- The operations up to a place, in the order of their points, lead to the state of this place.

**Proof sketch.** Induction on the place. If an operation has its point there, it is put at the end,
and no other one has its point there. If none has, the state does not change. -/
lemma exists_replay_of_points
    (hinj : ∀ i ∈ P, ∀ j ∈ P, point i = point j → i = j)
    (hstep : ∀ i ∈ P, step (st (point i)) (op i) = some (st (point i + 1)))
    (hidle : ∀ k < N, (∀ i ∈ P, point i ≠ k) → st (k + 1) = st k) :
    ∀ k ≤ N, ∃ l : List ι, (∀ i, i ∈ l ↔ i ∈ P ∧ point i < k) ∧
      l.Pairwise (fun i j => point i < point j) ∧
      replay step (st 0) (l.map op) = some (st k) := by
  intro k
  induction k with
  | zero => exact fun _ => ⟨[], by simp, List.Pairwise.nil, rfl⟩
  | succ k ih =>
    intro hk
    obtain ⟨l, hmem, hsorted, hreplay⟩ := ih (by omega)
    by_cases hpoint : ∃ i ∈ P, point i = k
    · obtain ⟨i, hi, rfl⟩ := hpoint
      refine ⟨l ++ [i], fun j => ?_, ?_, ?_⟩
      · rw [List.mem_append, List.mem_singleton, hmem]
        constructor
        · rintro (⟨hj, hlt⟩ | rfl)
          · exact ⟨hj, by omega⟩
          · exact ⟨hi, by omega⟩
        · rintro ⟨hj, hlt⟩
          rcases Nat.lt_succ_iff_lt_or_eq.mp hlt with hlt | heq
          · exact .inl ⟨hj, hlt⟩
          · exact .inr (hinj j hj i hi heq)
      · refine List.pairwise_append.mpr ⟨hsorted, List.pairwise_singleton _ _, ?_⟩
        intro j hj j' hj'
        rw [List.mem_singleton.mp hj']
        exact ((hmem j).mp hj).2
      · rw [List.map_append, List.map_singleton, replay_concat, hreplay]
        exact hstep i hi
    · have hno : ∀ i ∈ P, point i ≠ k := fun i hi hik => hpoint ⟨i, hi, hik⟩
      refine ⟨l, fun j => ?_, hsorted, by rw [hreplay, hidle k (by omega) hno]⟩
      rw [hmem]
      refine and_congr_right fun hj => ?_
      have := hno j hj
      omega

/-- **Linearization points.** Operations that each make a step of the object at a place of their
own, where nothing changes at the other places, are linearizable. -/
theorem linearizable_of_points (point : ι → ℕ) (st : ℕ → σ) (hP : P.Nodup)
    (hlt : ∀ i ∈ P, point i < N)
    (hinj : ∀ i ∈ P, ∀ j ∈ P, point i = point j → i = j)
    (hstep : ∀ i ∈ P, step (st (point i)) (op i) = some (st (point i + 1)))
    (hidle : ∀ k < N, (∀ i ∈ P, point i ≠ k) → st (k + 1) = st k)
    (hbefore : ∀ i ∈ P, ∀ j ∈ P, before i j → point i < point j) :
    Linearizable step op before (st 0) P := by
  obtain ⟨l, hmem, hsorted, hreplay⟩ := exists_replay_of_points hinj hstep hidle N le_rfl
  have hnodup : l.Nodup := hsorted.imp fun {i j} hij heq => absurd (heq ▸ hij) (lt_irrefl _)
  have hset : ∀ i, i ∈ l ↔ i ∈ P := fun i => (hmem i).trans (and_iff_left_of_imp (hlt i))
  refine ⟨l, (List.perm_ext_iff_of_nodup hnodup hP).mpr hset, ?_, ?_⟩
  · refine hsorted.imp_of_mem fun {i j} hi hj hij hb => ?_
    have := hbefore j ((hset j).mp hj) i ((hset i).mp hi) hb
    omega
  · rw [hreplay]
    rfl

end Linearization
