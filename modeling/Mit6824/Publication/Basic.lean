import Mathlib.Logic.Function.Basic
import Mathlib.Tactic.Common

set_option autoImplicit false

/-!
# Publication of files by renaming

Several agents write to one store. An agent that wants to put content under a public name first
fills a file under a private name, which no other agent uses, and then renames it. So whatever
happens to the other agents, a public name holds either what it held before or a content that was
complete when it was renamed.

## Main definitions

* `Publication.rename` — move a file, over the one that has the new name.
* `Publication.Effect` — what one agent may do to the store in one step, with the private name it
  has before and after it.
* `Publication.Private` — private names are in use, differ from agent to agent, and are not public.

## Main results

* `Publication.Private.effect` — every effect keeps this.
* `Publication.Private.apply_other`, `Publication.Effect.apply_of_notMem` — the files of other
  agents stay, and so does every other file that is in use and is not public.
-/

namespace Publication

variable {N C I : Type*} [DecidableEq N]

/-- Move the file `old` to the name `new`; what was there is lost. -/
def rename (d : N → Option C) (old new : N) : N → Option C :=
  Function.update (Function.update d old none) new (d old)

/-- The new name has the content of the old one. -/
@[simp] lemma rename_apply_new (d : N → Option C) (old new : N) :
    rename d old new new = d old :=
  Function.update_self ..

/-- Renaming leaves all other names. -/
lemma rename_apply_of_ne {d : N → Option C} {old new n : N} (hold : n ≠ old) (hnew : n ≠ new) :
    rename d old new n = d n := by
  rw [rename, Function.update_of_ne hnew, Function.update_of_ne hold]

/-- Filling a new file and moving it writes its content under the new name. -/
lemma rename_update {d : N → Option C} {old : N} (hold : d old = none) (c : C) (new : N) :
    rename (Function.update d old (some c)) old new = Function.update d new (some c) := by
  rw [rename, Function.update_idem, Function.update_self, ← hold, Function.update_eq_self]

/-- One step of an agent. It has the private name `t` before and `t'` after the step. -/
inductive Effect (isPublic : N → Prop) (d : N → Option C) : Option N → Option N →
    (N → Option C) → Prop
  /-- Nothing happens to the store; the agent may forget its file. -/
  | keep {t t' : Option N} (temp : t' = none ∨ t' = t) : Effect isPublic d t t' d
  /-- A private name that is not in use. -/
  | create {n : N} (c : C) (hidden : ¬ isPublic n) (fresh : d n = none) :
      Effect isPublic d none (some n) (Function.update d n (some c))
  /-- The agent writes to its file, which it may forget then. -/
  | write {n : N} {t' : Option N} (c : C) (temp : t' = none ∨ t' = some n) :
      Effect isPublic d (some n) t' (Function.update d n (some c))
  | publish {n m : N} (target : isPublic m) : Effect isPublic d (some n) none (rename d n m)

/-- The private names of all agents. -/
structure Private (isPublic : N → Prop) (d : N → Option C) (temp : I → Option N) : Prop where
  hidden : ∀ i, ∀ n ∈ temp i, ¬ isPublic n
  present : ∀ i, ∀ n ∈ temp i, d n ≠ none
  apart : ∀ i j, ∀ n ∈ temp i, n ∈ temp j → i = j

variable {isPublic : N → Prop} {d d' : N → Option C} {temp : I → Option N} {t t' : Option N}
  {i : I}

/-- A file that is in use, is not public and does not belong to the agent stays as it is.

**Proof sketch.** A name that is created was not in use, one that is written is the agent's own, and
renaming changes the agent's name and a public one. -/
lemma Effect.apply_of_notMem (h : Effect isPublic d t t' d') {n : N} (hn : d n ≠ none)
    (hidden : ¬ isPublic n) (hown : n ∉ t) : d' n = d n := by
  cases h with
  | keep => rfl
  | create c _ fresh =>
    refine Function.update_of_ne ?_ _ _
    rintro rfl
    exact hn fresh
  | write c =>
    refine Function.update_of_ne ?_ _ _
    rintro rfl
    exact hown rfl
  | publish target =>
    refine rename_apply_of_ne ?_ ?_
    · rintro rfl
      exact hown rfl
    · rintro rfl
      exact hidden target

/-- A file that is in use does not become the agent's own. -/
lemma Effect.notMem (h : Effect isPublic d t t' d') {n : N} (hn : d n ≠ none) (hown : n ∉ t) :
    n ∉ t' := by
  cases h with
  | keep ht =>
    rcases ht with rfl | rfl
    · simp
    · exact hown
  | create c _ fresh =>
    rintro ⟨⟩
    exact hn fresh
  | write c ht =>
    rcases ht with rfl | rfl
    · simp
    · exact hown
  | publish target => simp

/-- **The files of other agents stay.** -/
theorem Private.apply_other (hp : Private isPublic d temp) (h : Effect isPublic d (temp i) t' d')
    {j : I} (hj : j ≠ i) {n : N} (hn : n ∈ temp j) : d' n = d n :=
  h.apply_of_notMem (hp.present j n hn) (hp.hidden j n hn) fun hown => hj (hp.apart j i n hn hown)

/-- **Private names stay private.**

**Proof sketch.** The name that the agent has now was its own, or is new and was not in use; so it
is nobody else's. The others keep their names, which the effect leaves alone. -/
theorem Private.effect [DecidableEq I] (hp : Private isPublic d temp)
    (h : Effect isPublic d (temp i) t' d') :
    Private isPublic d' (Function.update temp i t') := by
  have hother : ∀ j ≠ i, Function.update temp i t' j = temp j :=
    fun j hj => Function.update_of_ne hj _ _
  have hself : Function.update temp i t' i = t' := Function.update_self ..
  -- the name the agent has now is hidden, in use, and nobody else's
  have hnew : ∀ n ∈ t', ¬ isPublic n ∧ d' n ≠ none ∧ ∀ j ≠ i, n ∉ temp j := by
    intro n hn
    have hown : n ∈ temp i → ∀ j ≠ i, n ∉ temp j :=
      fun hi j hj hmem => hj (hp.apart j i n hmem hi)
    generalize htemp : temp i = t at h hown
    cases h with
    | keep ht =>
      rcases ht with rfl | rfl
      · simp at hn
      · rw [← htemp] at hn
        exact ⟨hp.hidden i n hn, hp.present i n hn, hown (htemp ▸ hn)⟩
    | create c hidden fresh =>
      obtain rfl := Option.mem_some_iff.mp hn
      exact ⟨hidden, by simp, fun j _ hmem => hp.present j _ hmem fresh⟩
    | write c ht =>
      rcases ht with rfl | rfl
      · simp at hn
      · obtain rfl := Option.mem_some_iff.mp hn
        exact ⟨hp.hidden i _ htemp, by simp, hown rfl⟩
    | publish target => simp at hn
  refine ⟨fun j n hn => ?_, fun j n hn => ?_, fun j k n hj hk => ?_⟩
  · by_cases hji : j = i
    · subst hji
      rw [hself] at hn
      exact (hnew n hn).1
    · rw [hother j hji] at hn
      exact hp.hidden j n hn
  · by_cases hji : j = i
    · subst hji
      rw [hself] at hn
      exact (hnew n hn).2.1
    · rw [hother j hji] at hn
      rw [hp.apply_other h hji hn]
      exact hp.present j n hn
  · by_cases hji : j = i <;> by_cases hki : k = i
    · rw [hji, hki]
    · subst hji
      rw [hself] at hj
      rw [hother k hki] at hk
      exact absurd hk ((hnew n hj).2.2 k hki)
    · subst hki
      rw [hself] at hk
      rw [hother j hji] at hj
      exact absurd hj ((hnew n hk).2.2 j hji)
    · rw [hother j hji] at hj
      rw [hother k hki] at hk
      exact hp.apart j k n hj hk

end Publication
