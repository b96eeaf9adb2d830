import Mathlib.Data.List.Infix
import Mathlib.Data.List.TakeDrop

set_option autoImplicit false

/-!
# State machines driven by a log

A deterministic machine reads a log from its beginning. Some entries are invisible to it. The
state after index `i` of the log is a function of the log; a copy of the machine may also jump
to the state of a later index, by restoring that state over its own.

## Main definitions

* `LogMachine.Machine` — step function, visible entries, and how a stored state is restored.
* `LogMachine.Machine.stateAt` — the state after the entries up to an index.
* `LogMachine.Machine.Next` — the next visible entry after an index.

## Main results

* `LogMachine.Machine.Next.stateAt_eq` — one step from any index between two neighbouring
  visible entries leads to the state at the later one.
* `LogMachine.Machine.restore_stateAt` — restoring the state of a later index gives that state.

## Design

Restoring may keep parts of the state it is applied to. The relation `covers` says of two states
that the second hides whatever the first holds; it is what `restore` needs and every step
provides it.
-/

namespace LogMachine

/-- What is appended later does not change an entry. -/
lemma getElem?_extend {E : Type*} {log log' : List E} {i : ℕ} (h : log <+: log')
    (hi : i < log.length) : log'[i]? = log[i]? := by
  obtain ⟨rest, rfl⟩ := h
  exact List.getElem?_append_left hi

/-- A deterministic machine over a log of entries `E`. -/
structure Machine (S E : Type*) where
  init : S
  step : S → E → S
  visible : E → Prop
  restore : S → S → S
  covers : S → S → Prop
  covers_refl : ∀ s, covers s s
  covers_trans : ∀ s t u, covers s t → covers t u → covers s u
  covers_step : ∀ s e, covers s (step s e)
  restore_of_covers : ∀ s t, covers s t → restore t s = t
  step_of_invisible : ∀ s e, ¬ visible e → step s e = s

namespace Machine

variable {S E : Type*} (M : Machine S E)

/-- The state after the entries of index at most `i`. -/
def stateAt (log : List E) (i : ℕ) : S := (log.take (i + 1)).foldl M.step M.init

/-- `e` is the first visible entry after index `p`, and its index is `i`. -/
structure Next (log : List E) (p i : ℕ) (e : E) : Prop where
  lt : p < i
  get : log[i]? = some e
  visible : M.visible e
  skips : ∀ k e', p < k → k < i → log[k]? = some e' → ¬ M.visible e'

variable {M} {log log' : List E} {i j p : ℕ} {e : E}

/-- The state at an index does not depend on what is appended later. -/
lemma stateAt_extend (h : log <+: log') (hi : i < log.length) :
    M.stateAt log' i = M.stateAt log i := by
  obtain ⟨rest, rfl⟩ := h
  simp only [stateAt]
  rw [List.take_append_of_le_length (by omega)]

/-- One entry more of the log is one step more of the machine. -/
lemma stateAt_succ (h : log[i + 1]? = some e) :
    M.stateAt log (i + 1) = M.step (M.stateAt log i) e := by
  obtain ⟨hlt, rfl⟩ := List.getElem?_eq_some_iff.mp h
  simp only [stateAt]
  rw [List.take_add_one, List.getElem?_eq_getElem hlt, List.foldl_append]
  simp

/-- Past the end of the log the state does not change. -/
lemma stateAt_succ_of_none (h : log[i + 1]? = none) : M.stateAt log (i + 1) = M.stateAt log i := by
  have hlen := List.getElem?_eq_none_iff.mp h
  simp only [stateAt]
  rw [List.take_of_length_le hlen, List.take_of_length_le (by omega)]

/-- Invisible entries do not change the state. -/
lemma stateAt_eq_of_invisible (hij : i ≤ j)
    (h : ∀ k e, i < k → k ≤ j → log[k]? = some e → ¬ M.visible e) :
    M.stateAt log j = M.stateAt log i := by
  induction j, hij using Nat.le_induction with
  | base => rfl
  | succ j hij ih =>
    have hj := ih fun k e hk hkj => h k e hk (by omega)
    cases hget : log[j + 1]? with
    | none => rw [stateAt_succ_of_none hget, hj]
    | some e =>
      rw [stateAt_succ hget, M.step_of_invisible _ _ (h (j + 1) e (by omega) le_rfl hget), hj]

/-- Between a position and the next visible entry after it, the state does not change. -/
lemma Next.stateAt_pred (h : M.Next log p i e) (hp : p ≤ j) (hj : j < i) :
    M.stateAt log (i - 1) = M.stateAt log j :=
  stateAt_eq_of_invisible (by omega) fun l e' hl hli hget =>
    h.skips l e' (by omega) (by omega) hget

/-- **One step to the next visible entry.** A copy that stands anywhere between a position and
the next visible entry after it reaches the state of that entry by a single step. -/
theorem Next.stateAt_eq (h : M.Next log p i e) (hp : p ≤ j) (hj : j < i) :
    M.stateAt log i = M.step (M.stateAt log j) e := by
  have hpred := h.stateAt_pred hp hj
  obtain ⟨k, rfl⟩ : ∃ k, i = k + 1 := ⟨i - 1, by omega⟩
  rw [stateAt_succ h.get, ← hpred, Nat.add_sub_cancel]

/-- The next visible entry stays the next one when the log grows. -/
lemma Next.extend (h : M.Next log p i e) (hlog : log <+: log') : M.Next log' p i e := by
  obtain ⟨hi, hget⟩ := List.getElem?_eq_some_iff.mp h.get
  refine ⟨h.lt, by rw [getElem?_extend hlog hi, h.get], h.visible, fun k e' hk hki hget' => ?_⟩
  exact h.skips k e' hk hki (by rw [← getElem?_extend hlog (by omega), hget'])

/-- Later states cover earlier ones. -/
lemma covers_stateAt (hij : i ≤ j) : M.covers (M.stateAt log i) (M.stateAt log j) := by
  induction j, hij using Nat.le_induction with
  | base => exact M.covers_refl _
  | succ j hij ih =>
    cases hget : log[j + 1]? with
    | none => rwa [stateAt_succ_of_none hget]
    | some e =>
      rw [stateAt_succ hget]
      exact M.covers_trans _ _ _ ih (M.covers_step _ _)

/-- **Jumping ahead.** Restoring the state of a later index over an earlier one gives exactly
the later state. -/
theorem restore_stateAt (hij : i ≤ j) :
    M.restore (M.stateAt log j) (M.stateAt log i) = M.stateAt log j :=
  M.restore_of_covers _ _ (covers_stateAt hij)

end Machine

end LogMachine
