import Mit6824.Porcupine.Correct
import Mit6824.Transition.Bounded
import Mathlib.Data.Fintype.Card
import Mathlib.Algebra.BigOperators.Group.Finset.Basic
import Mathlib.Algebra.Order.BigOperators.Group.Finset

set_option autoImplicit false

/-!
# Checking the partitions in parallel

`checkParallel` of `checker.go`: one goroutine for each partition runs `checkSingle`, stores the
sequences it found and sends its answer; the main routine receives the answers until all are there,
until one is negative, or until the timer fires, and then sets `kill`. A step here is one iteration
of some goroutine's loop, its store or its send, or one turn of the main routine, so that a schedule
is any interleaving of them. What the main routine does between two receives touches nothing but its
own variables and `kill`, and a send never blocks because the channel has room for every answer.

## Main definitions

* `Porcupine.Routine`, `Porcupine.Parallel` — the goroutines and the variables of `checkParallel`.
* `Porcupine.Parallel.step` — one step, `Porcupine.Parallel.result` — the value returned.

## Main results

* `Porcupine.Parallel.Sound.step` — the invariant of all interleavings.
* `Porcupine.Parallel.Sound.can_step` — somebody can go on as long as nothing has been returned.
* `Porcupine.Parallel.Sound.weight_lt` — every step makes a measure smaller.
-/

namespace Porcupine

variable {ι ο σ : Type} {n : ℕ}

/-- `CheckResult`. -/
inductive CheckResult where
  | unknown
  | ok
  | illegal
  deriving DecidableEq

/-- A goroutine: before and in `checkSingle`, after it, after `longest[i] = l`, after
`results <- ok`. -/
inductive Routine (ι ο σ : Type) where
  | fresh
  | running (s : Search ι ο σ)
  | returned (ok : Bool) (s : Search ι ο σ)
  | stored (ok : Bool)
  | ended (ok : Bool)

/-- The answer that a goroutine has sent. -/
def Routine.sent : Routine ι ο σ → Option Bool
  | .ended ok => some ok
  | _ => none

/-- A goroutine that has not started has sent nothing. -/
@[simp] lemma Routine.sent_fresh : (.fresh : Routine ι ο σ).sent = none := rfl

/-- A goroutine in `checkSingle` has sent nothing. -/
@[simp] lemma Routine.sent_running (s : Search ι ο σ) : (Routine.running s).sent = none := rfl

/-- A goroutine that has just returned from `checkSingle` has sent nothing. -/
@[simp] lemma Routine.sent_returned (ok : Bool) (s : Search ι ο σ) :
    (Routine.returned ok s).sent = none := rfl

/-- A goroutine that has stored its sequences has sent nothing. -/
@[simp] lemma Routine.sent_stored (ok : Bool) : (.stored ok : Routine ι ο σ).sent = none := rfl

/-- A goroutine that has ended has sent its answer. -/
@[simp] lemma Routine.sent_ended (ok : Bool) : (.ended ok : Routine ι ο σ).sent = some ok := rfl

/-- Only a goroutine that has ended has sent an answer. -/
lemma Routine.eq_ended {r : Routine ι ο σ} {ok : Bool} (h : r.sent = some ok) : r = .ended ok := by
  cases r <;> simp_all

/-- Where the main routine is: in the loop, waiting for the other goroutines, or at its end. -/
inductive Phase where
  | loop
  | drain
  | returned
  deriving DecidableEq

/-- The variables of `checkParallel` with `n` partitions. -/
structure Parallel (ι ο σ : Type) (n : ℕ) where
  ok : Bool
  timedOut : Bool
  results : List Bool
  longest : Fin n → Option (Search ι ο σ)
  kill : Bool
  routines : Fin n → Routine ι ο σ
  count : ℕ
  phase : Phase

/-- A goroutine goes on, the main routine receives an answer, or the timer fires. -/
inductive ParallelEvent (n : ℕ) where
  | routine (i : Fin n)
  | receive
  | timeout

namespace Parallel

/-- The variables when all goroutines have been started. -/
def start (ι ο σ : Type) (n : ℕ) : Parallel ι ο σ n where
  ok := true
  timedOut := false
  results := []
  longest _ := none
  kill := false
  routines _ := .fresh
  count := 0
  phase := .loop

/-- Goroutine `i` goes on. -/
def stepRoutine (model : FullModel ι ο σ) (history : Fin n → List (Entry ι ο)) (computeInfo : Bool)
    (p : Parallel ι ο σ n) (i : Fin n) : Option (Parallel ι ο σ n) :=
  let put (r : Routine ι ο σ) : Parallel ι ο σ n :=
    { p with routines := Function.update p.routines i r }
  match p.routines i with
  | .fresh => (Search.start model (history i)).map fun s => put (.running s)
  | .running s => (s.step model computeInfo p.kill).map fun
      | .next s' => put (.running s')
      | .done ok s' => put (.returned ok s')
  | .returned ok s => some
      { put (.stored ok) with longest := Function.update p.longest i (some s) }
  | .stored ok => some { put (.ended ok) with results := p.results ++ [ok] }
  | .ended _ => none

/-- `break loop` and the test for what comes after it. -/
def leave (computeInfo : Bool) (p : Parallel ι ο σ n) : Parallel ι ο σ n :=
  { p with phase := if computeInfo ∧ p.count < n then .drain else .returned }

/-- The main routine receives an answer. -/
def receive (computeInfo : Bool) (p : Parallel ι ο σ n) : Option (Parallel ι ο σ n) :=
  match p.phase, p.results with
  | .loop, result :: rest =>
    let p := { p with results := rest, count := p.count + 1, ok := p.ok && result }
    if !p.ok && !computeInfo then some (leave computeInfo { p with kill := true })
    else if p.count ≥ n then some (leave computeInfo p)
    else some p
  | .drain, _ :: rest =>
    let p := { p with results := rest, count := p.count + 1 }
    some { p with phase := if p.count < n then .drain else .returned }
  | _, _ => none

/-- The timer fires; without a timeout there is no timer. -/
def timeout (computeInfo hasTimeout : Bool) (p : Parallel ι ο σ n) : Option (Parallel ι ο σ n) :=
  if hasTimeout ∧ p.phase = .loop then
    some (leave computeInfo { p with timedOut := true, kill := true })
  else none

/-- One step. -/
def step (model : FullModel ι ο σ) (history : Fin n → List (Entry ι ο))
    (computeInfo hasTimeout : Bool) (p : Parallel ι ο σ n) :
    ParallelEvent n → Option (Parallel ι ο σ n)
  | .routine i => p.stepRoutine model history computeInfo i
  | .receive => p.receive computeInfo
  | .timeout => p.timeout computeInfo hasTimeout

/-- The value returned, once there is one. -/
def result (p : Parallel ι ο σ n) : Option CheckResult :=
  if p.phase = .returned then
    some (if !p.ok then .illegal else if p.timedOut then .unknown else .ok)
  else none

/-! ## The invariant -/

section Sound

variable (model : FullModel ι ο σ) (parts : Fin n → History ι ο) (computeInfo : Bool)

/-- What is known of goroutine `i`. -/
def RoutineSound (kill : Bool) (H : History ι ο) : Routine ι ο σ → Prop
  | .fresh => True
  | .running s => ∃ path, H.complete.layout.Inv model computeInfo s path
  | .returned ok s => H.complete.layout.Answered model kill ok s
  | .stored ok => (ok = true → H.Linearizable model) ∧
      (ok = false → kill = true ∨ ¬ H.Linearizable model)
  | .ended ok => (ok = true → H.Linearizable model) ∧
      (ok = false → kill = true ∨ ¬ H.Linearizable model)

/-- The goroutines that have sent their answer. -/
def ended (p : Parallel ι ο σ n) : Finset (Fin n) :=
  Finset.univ.filter fun i => (p.routines i).sent.isSome

/-- The goroutines that have sent a positive answer. -/
def endedOk (p : Parallel ι ο σ n) : Finset (Fin n) :=
  Finset.univ.filter fun i => (p.routines i).sent = some true

/-- The goroutines that have ended are those that have sent an answer. -/
@[simp] lemma mem_ended {p : Parallel ι ο σ n} {i : Fin n} :
    i ∈ p.ended ↔ (p.routines i).sent.isSome := by
  simp [ended]

/-- The goroutines that have ended well are those that have sent `true`. -/
@[simp] lemma mem_endedOk {p : Parallel ι ο σ n} {i : Fin n} :
    i ∈ p.endedOk ↔ (p.routines i).sent = some true := by
  simp [endedOk]

/-- The invariant of all interleavings. -/
structure Sound (p : Parallel ι ο σ n) : Prop where
  routine : ∀ i, RoutineSound model computeInfo p.kill (parts i) (p.routines i)
  balance : p.phase ≠ .returned → p.ended.card = p.count + p.results.length
  busy : p.phase = .drain → p.count < n
  loop_kill : p.phase = .loop → p.kill = false ∧ p.timedOut = false
  loop_ok : p.phase = .loop → p.ok = true →
    p.endedOk.card = p.count + p.results.count true ∧ (p.count < n ∨ p.count = 0)
  loop_not_ok : p.phase = .loop → p.ok = false →
    computeInfo = true ∧ p.count < n ∧ ∃ i, ¬ (parts i).Linearizable model
  after_ok : p.phase ≠ .loop → p.ok = true → p.timedOut = false → ∀ i, (parts i).Linearizable model
  after_not_ok : p.phase ≠ .loop → p.ok = false → ∃ i, ¬ (parts i).Linearizable model
  stored : ∀ i s, p.longest i = some s → ∀ j q : ℕ, s.longest[j]? = some (some q) → ∃ l,
    s.seqs[q]? = some (l.map fun k : ℕ => (k : ℤ)) ∧ j ∈ l ∧
      (parts i).complete.layout.Beginning model l

variable {model parts computeInfo} {p p' : Parallel ι ο σ n}

/-- A goroutine stays sound when the kill flag is set. -/
lemma RoutineSound.mono {kill kill' : Bool} {H : History ι ο} {r : Routine ι ο σ}
    (h : RoutineSound model computeInfo kill H r) (hk : kill = true → kill' = true) :
    RoutineSound model computeInfo kill' H r := by
  cases r with
  | fresh => trivial
  | running s => exact h
  | returned ok s => exact ⟨h.of_true, fun hok => (h.of_false hok).imp_left hk, h.sound⟩
  | stored ok => exact ⟨h.1, fun hok => (h.2 hok).imp_left hk⟩
  | ended ok => exact ⟨h.1, fun hok => (h.2 hok).imp_left hk⟩

/-- The invariant holds when the goroutines are started. -/
lemma Sound.start : Sound model parts computeInfo (start ι ο σ n) where
  routine _ := trivial
  balance _ := by simp [ended, Parallel.start]
  busy h := by simp [Parallel.start] at h
  loop_kill _ := ⟨rfl, rfl⟩
  loop_ok _ _ := ⟨by simp [endedOk, Parallel.start], .inr rfl⟩
  loop_not_ok _ h := by simp [Parallel.start] at h
  after_ok h := absurd rfl h
  after_not_ok h := absurd rfl h
  stored i s h := by simp [Parallel.start] at h

/-! ### What is left to do -/

/-- How much a goroutine still has to do at most. -/
def routineWeight (H : History ι ο) : Routine ι ο σ → ℕ
  | .fresh => H.bound + 4
  | .running s => H.bound - s.place + 3
  | .returned _ _ => 2
  | .stored _ => 1
  | .ended _ => 0

/-- How much the main routine still has to do at most. -/
def mainWeight (p : Parallel ι ο σ n) : ℕ :=
  match p.phase with
  | .loop => n - p.count + n + 2
  | .drain => n - p.count + 1
  | .returned => 0

variable (parts) in
/-- How much is still to be done at most. -/
def weight (p : Parallel ι ο σ n) : ℕ :=
  ∑ i, routineWeight (parts i) (p.routines i) + p.mainWeight

/-- A step of one goroutine makes the sum smaller. -/
lemma sum_routineWeight_lt {i : Fin n} {r : Routine ι ο σ}
    (h : routineWeight (parts i) r < routineWeight (parts i) (p.routines i)) :
    ∑ j, routineWeight (parts j) (Function.update p.routines i r j) <
      ∑ j, routineWeight (parts j) (p.routines j) := by
  refine Finset.sum_lt_sum (fun j _ => ?_) ⟨i, Finset.mem_univ i, by simpa using h⟩
  by_cases hj : j = i
  · subst hj
    simpa using h.le
  · simp [hj]

/-! ### Goroutines -/

/-- A goroutine that has not sent its answer goes on, without sending it.

**Proof sketch.** No answer has been sent, so the goroutines that have ended are the same, and
nothing else speaks about this one. -/
lemma Sound.put (hp : Sound model parts computeInfo p) {i : Fin n} {r : Routine ι ο σ}
    (hold : (p.routines i).sent = none) (hnew : r.sent = none)
    (hr : RoutineSound model computeInfo p.kill (parts i) r) :
    Sound model parts computeInfo { p with routines := Function.update p.routines i r } := by
  have hsent : ∀ j, (Function.update p.routines i r j).sent = (p.routines j).sent := by
    intro j
    by_cases hj : j = i
    · subst hj
      rw [Function.update_self, hnew, hold]
    · rw [Function.update_of_ne hj]
  have hended : Parallel.ended { p with routines := Function.update p.routines i r } = p.ended := by
    simp only [ended, hsent]
  have hendedOk :
      Parallel.endedOk { p with routines := Function.update p.routines i r } = p.endedOk := by
    simp only [endedOk, hsent]
  refine ⟨fun j => ?_, fun h => hended ▸ hp.balance h, hp.busy, hp.loop_kill,
    fun h hok => hendedOk ▸ hp.loop_ok h hok, hp.loop_not_ok, hp.after_ok, hp.after_not_ok,
    hp.stored⟩
  by_cases hj : j = i
  · subst hj
    simpa using hr
  · simpa [hj] using hp.routine j

/-- A goroutine sends its answer.

**Proof sketch.** One more goroutine has ended and one more answer is in the channel. If the answer
is positive, one more of them has ended with `ok`. -/
lemma Sound.send (hp : Sound model parts computeInfo p) {i : Fin n} {ok : Bool}
    (hi : p.routines i = .stored ok) :
    Sound model parts computeInfo
      { p with
        routines := Function.update p.routines i (.ended ok)
        results := p.results ++ [ok] } := by
  have hold : (p.routines i).sent = none := by rw [hi]; rfl
  have hended : Parallel.ended { p with
      routines := Function.update p.routines i (.ended ok), results := p.results ++ [ok] } =
      insert i p.ended := by
    ext j
    by_cases hj : j = i
    · subst hj
      simp
    · simp [hj]
  have hi' : i ∉ p.ended := by simp [hold]
  refine ⟨fun j => ?_, fun h => ?_, hp.busy, hp.loop_kill, fun h hok => ?_, hp.loop_not_ok,
    hp.after_ok, hp.after_not_ok, hp.stored⟩
  · by_cases hj : j = i
    · subst hj
      have := hp.routine j
      rw [hi] at this
      simpa [RoutineSound] using this
    · simpa [hj] using hp.routine j
  · rw [hended, Finset.card_insert_of_notMem hi', hp.balance h, List.length_append]
    rfl
  · refine ⟨?_, (hp.loop_ok h hok).2⟩
    have hcard := (hp.loop_ok h hok).1
    cases ok with
    | true =>
      have : Parallel.endedOk { p with
          routines := Function.update p.routines i (.ended true), results := p.results ++ [true] } =
          insert i p.endedOk := by
        ext j
        by_cases hj : j = i
        · subst hj
          simp
        · simp [hj]
      have hi'' : i ∉ p.endedOk := by simp [hold]
      rw [this, Finset.card_insert_of_notMem hi'', hcard]
      simp
      omega
    | false =>
      have : Parallel.endedOk { p with
          routines := Function.update p.routines i (.ended false)
          results := p.results ++ [false] } = p.endedOk := by
        ext j
        by_cases hj : j = i
        · subst hj
          simp [hi]
        · simp [hj]
      rw [this, hcard]
      simp

variable (parts) in
/-- The entries of the partitions. -/
def entriesOf (i : Fin n) : List (Entry ι ο) := (parts i).entries

/-- **A goroutine goes on** until it has sent its answer. This keeps the invariant and leaves less
to do.

**Proof sketch.** By the state of the goroutine. A new one starts its search, a running one makes an
iteration (`step_answered`), and the answer is stored and then sent. Each of these makes its weight
smaller. -/
lemma Sound.routine_step (heq : model.EqualSound) (hp : Sound model parts computeInfo p)
    (i : Fin n) :
    (∃ ok, p.routines i = .ended ok) ∧
        p.stepRoutine model (entriesOf parts) computeInfo i = none ∨
      ∃ p', p.stepRoutine model (entriesOf parts) computeInfo i = some p' ∧
        Sound model parts computeInfo p' ∧ weight parts p' < weight parts p := by
  have hi := hp.routine i
  cases hr : p.routines i with
  | fresh =>
    have hstart := (parts i).complete.start_spec model
    refine .inr ⟨_, by simp only [stepRoutine, hr, entriesOf, hstart]; rfl, ?_, ?_⟩
    · exact hp.put (by simp [hr]) rfl ⟨[], Layout.Inv.start⟩
    · refine Nat.add_lt_add_right (sum_routineWeight_lt ?_) _
      rw [hr]
      simp only [routineWeight]
      omega
  | running s =>
    rw [hr] at hi
    obtain ⟨path, hI⟩ := hi
    rcases hI.step_answered heq p.kill with ⟨ok, s', hstep, hans⟩ | ⟨s', path', hstep, hI', hlt⟩
    · refine .inr ⟨_, by simp only [stepRoutine, hr, hstep]; rfl,
        hp.put (r := .returned ok s') (by simp [hr]) rfl hans, ?_⟩
      refine Nat.add_lt_add_right (sum_routineWeight_lt ?_) _
      rw [hr]
      simp only [routineWeight]
      omega
    · refine .inr ⟨_, by simp only [stepRoutine, hr, hstep]; rfl,
        hp.put (r := .running s') (by simp [hr]) rfl ⟨path', hI'⟩, ?_⟩
      refine Nat.add_lt_add_right (sum_routineWeight_lt ?_) _
      have hbound : s'.place < (parts i).bound := by
        rw [hI'.place_eq]
        exact Layout.progress_lt path' s'.entry
      rw [← hI.place_eq, ← hI'.place_eq] at hlt
      rw [hr]
      simp only [routineWeight]
      omega
  | returned ok s =>
    rw [hr] at hi
    have hans : (parts i).complete.layout.Answered model p.kill ok s := hi
    refine .inr ⟨_, by simp only [stepRoutine, hr]; rfl, ?_, ?_⟩
    · have hput := hp.put (i := i) (r := .stored ok) (by simp [hr]) rfl
        ⟨fun hok => History.layout_linearizable_iff.mp (hans.of_true hok),
          fun hok => (hans.of_false hok).imp_right (mt History.layout_linearizable_iff.mpr)⟩
      refine ⟨hput.routine, hput.balance, hput.busy, hput.loop_kill, hput.loop_ok,
        hput.loop_not_ok, hput.after_ok, hput.after_not_ok, fun j s' hs' => ?_⟩
      by_cases hj : j = i
      · subst hj
        obtain rfl : s = s' := by simpa using hs'
        exact hans.sound
      · exact hp.stored j s' (by simpa [hj] using hs')
    · exact Nat.add_lt_add_right (sum_routineWeight_lt (by simp [hr, routineWeight])) _
  | stored ok =>
    refine .inr ⟨_, by simp only [stepRoutine, hr], hp.send hr, ?_⟩
    exact Nat.add_lt_add_right (sum_routineWeight_lt (by simp [hr, routineWeight])) _
  | ended ok => exact .inl ⟨⟨ok, rfl⟩, by simp [stepRoutine, hr]⟩

/-! ### The main routine -/

/-- Leaving the loop with an answer that is right. -/
lemma Sound.leave (hroutine : ∀ i, RoutineSound model computeInfo p.kill (parts i) (p.routines i))
    (hbalance : p.ended.card = p.count + p.results.length)
    (hok : p.ok = true → p.timedOut = false → ∀ i, (parts i).Linearizable model)
    (hnot : p.ok = false → ∃ i, ¬ (parts i).Linearizable model)
    (hstored : ∀ i s, p.longest i = some s → ∀ j q : ℕ, s.longest[j]? = some (some q) → ∃ l,
      s.seqs[q]? = some (l.map fun k : ℕ => (k : ℤ)) ∧ j ∈ l ∧
        (parts i).complete.layout.Beginning model l) :
    Sound model parts computeInfo (p.leave computeInfo) := by
  have hloop : (p.leave computeInfo).phase ≠ .loop := by
    simp only [Parallel.leave]
    split_ifs <;> simp
  refine ⟨hroutine, fun _ => hbalance, fun h => ?_, fun h => absurd h hloop,
    fun h => absurd h hloop, fun h => absurd h hloop, fun _ => hok, fun _ => hnot, hstored⟩
  simp only [Parallel.leave] at h
  split_ifs at h with hcond
  exact hcond.2

/-- A negative answer in the channel was sent by a goroutine whose partition is not linearizable,
because nobody has set `kill`.

**Proof sketch.** There are more goroutines that have ended than ones that have ended with `ok`,
since the channel has a negative answer. Take one of the others; its search was not killed, so its
answer is right. -/
lemma Sound.not_linearizable_of_false (hp : Sound model parts computeInfo p)
    (hphase : p.phase = .loop) (hok : p.ok = true) (hfalse : false ∈ p.results) :
    ∃ i, ¬ (parts i).Linearizable model := by
  have hbalance := hp.balance (by simp [hphase])
  have hcard := (hp.loop_ok hphase hok).1
  have hcount : p.results.count true < p.results.length :=
    List.count_lt_length_iff.mpr ⟨false, hfalse, by simp⟩
  obtain ⟨i, hi, hi'⟩ : ∃ i ∈ p.ended, i ∉ p.endedOk := by
    by_contra hall
    push Not at hall
    have := Finset.card_le_card hall
    omega
  obtain ⟨ok, hsent⟩ := Option.isSome_iff_exists.mp (mem_ended.mp hi)
  have hokf : ok = false := by
    cases ok with
    | false => rfl
    | true => exact absurd (mem_endedOk.mpr hsent) hi'
  subst hokf
  have hr := hp.routine i
  rw [Routine.eq_ended hsent] at hr
  rcases hr.2 rfl with hkill | hlin
  · simp [(hp.loop_kill hphase).1] at hkill
  · exact ⟨i, hlin⟩

/-- When the last answer is positive as all others were, everything is linearizable.

**Proof sketch.** All goroutines have ended and all answers were positive, so all have ended with
`ok`; a positive answer is right. -/
lemma Sound.linearizable_of_last (hp : Sound model parts computeInfo p) {rest : List Bool}
    (hphase : p.phase = .loop) (hok : p.ok = true) (hresults : p.results = true :: rest)
    (hlast : p.count + 1 ≥ n) : ∀ i, (parts i).Linearizable model := by
  have hbalance := hp.balance (by simp [hphase])
  have hcard := (hp.loop_ok hphase hok).1
  have hle : p.ended.card ≤ n := by simpa using Finset.card_le_univ p.ended
  rw [hresults, List.length_cons] at hbalance
  obtain rfl : rest = [] := List.length_eq_zero_iff.mp (by omega)
  rw [hresults] at hcard
  have hall : p.endedOk = Finset.univ := by
    rw [← Finset.card_eq_iff_eq_univ, Fintype.card_fin]
    simp at hcard
    omega
  intro i
  have hi : i ∈ p.endedOk := hall ▸ Finset.mem_univ i
  have hr := hp.routine i
  rw [Routine.eq_ended (mem_endedOk.mp hi)] at hr
  exact hr.1 rfl

/-- The main routine receives an answer in its loop.

**Proof sketch.** A negative answer is right, as nobody has set `kill` before. The routine leaves
its loop at such an answer, if no more is wanted, or at the last answer; if all were positive then
all partitions are linearizable. Otherwise it waits for the next answer. -/
lemma Sound.receive_loop (hp : Sound model parts computeInfo p) {result : Bool} {rest : List Bool}
    (hphase : p.phase = .loop) (hresults : p.results = result :: rest)
    (h : p.receive computeInfo = some p') : Sound model parts computeInfo p' := by
  have hbalance := hp.balance (by simp [hphase])
  have hkill := (hp.loop_kill hphase).1
  have htimed := (hp.loop_kill hphase).2
  -- the answers so far, this one included
  have hnot : (p.ok && result) = false → ∃ i, ¬ (parts i).Linearizable model := by
    intro hand
    cases hok : p.ok with
    | false => exact (hp.loop_not_ok hphase hok).2.2
    | true =>
      have hfalse : result = false := by simpa [hok] using hand
      exact hp.not_linearizable_of_false hphase hok (by simp [hresults, hfalse])
  have hbalance' : p.ended.card = p.count + 1 + rest.length := by
    rw [hbalance, hresults, List.length_cons]
    omega
  simp only [receive, hphase, hresults] at h
  split_ifs at h with hkillnow hlast
  · -- negative, and nobody wants to know more
    obtain rfl := Option.some.inj h
    have hand : (p.ok && result) = false := by
      simp only [Bool.and_eq_true, Bool.not_eq_true'] at hkillnow
      exact hkillnow.1
    refine Sound.leave (fun i => (hp.routine i).mono (by simp)) hbalance' (fun hok => ?_)
      (fun _ => hnot hand) hp.stored
    simp [hand] at hok
  · -- the last answer
    obtain rfl := Option.some.inj h
    refine Sound.leave hp.routine hbalance' (fun hok _ => ?_) hnot hp.stored
    obtain ⟨hpok, hres⟩ := Bool.and_eq_true_iff.mp hok
    exact hp.linearizable_of_last hphase hpok (by rw [hresults, hres]) hlast
  · obtain rfl := Option.some.inj h
    refine ⟨hp.routine, fun _ => hbalance', by simp, fun _ => ⟨hkill, htimed⟩, fun _ hok => ?_,
      fun _ hok => ?_, by simp, by simp, hp.stored⟩
    · obtain ⟨hpok, hres⟩ := Bool.and_eq_true_iff.mp hok
      have hcard := (hp.loop_ok hphase hpok).1
      rw [hresults, hres, List.count_cons_self] at hcard
      refine ⟨?_, .inl (Nat.not_le.mp hlast)⟩
      show p.endedOk.card = p.count + 1 + rest.count true
      omega
    · refine ⟨?_, Nat.not_le.mp hlast, hnot hok⟩
      cases hc : computeInfo with
      | true => rfl
      | false =>
        have hand : (p.ok && result) = false := hok
        exact absurd (by simp [hand, hc]) hkillnow

/-- **Every step keeps the invariant.**

**Proof sketch.** By the event: a goroutine goes on (`Sound.routine_step`), the main routine
receives in its loop (`Sound.receive_loop`) or behind it, where the answer is not looked at, or the
timer fires in the loop. -/
theorem Sound.step (heq : model.EqualSound) {hasTimeout : Bool}
    (hp : Sound model parts computeInfo p) {ev : ParallelEvent n}
    (h : p.step model (entriesOf parts) computeInfo hasTimeout ev = some p') :
    Sound model parts computeInfo p' := by
  cases ev with
  | routine i =>
    rcases hp.routine_step heq i with ⟨-, hnone⟩ | ⟨p'', hsome, hsound, -⟩
    · exact absurd (hnone.symm.trans h) (by simp)
    · rwa [← Option.some.inj (hsome.symm.trans h)]
  | receive =>
    have h : p.receive computeInfo = some p' := h
    cases hphase : p.phase with
    | loop =>
      cases hresults : p.results with
      | nil => simp [receive, hphase, hresults] at h
      | cons result rest => exact hp.receive_loop hphase hresults h
    | drain =>
      cases hresults : p.results with
      | nil => simp [receive, hphase, hresults] at h
      | cons result rest =>
        simp only [receive, hphase, hresults, Option.some.injEq] at h
        have hbalance := hp.balance (by simp [hphase])
        rw [hresults, List.length_cons] at hbalance
        have hne : p'.phase ≠ .loop := by
          rw [← h]
          dsimp only
          split_ifs <;> simp
        have hnl : p.phase ≠ .loop := by simp [hphase]
        subst h
        refine ⟨hp.routine, fun _ => ?_, fun hd => ?_, fun hl => absurd hl hne,
          fun hl => absurd hl hne, fun hl => absurd hl hne, fun _ => hp.after_ok hnl,
          fun _ => hp.after_not_ok hnl, hp.stored⟩
        · show p.ended.card = p.count + 1 + rest.length
          omega
        · dsimp only at hd ⊢
          split_ifs at hd with hlt
          exact hlt
    | returned => simp [receive, hphase] at h
  | timeout =>
    have h : p.timeout computeInfo hasTimeout = some p' := h
    simp only [timeout] at h
    split_ifs at h with hcond
    obtain rfl := Option.some.inj h
    refine Sound.leave (fun i => (hp.routine i).mono (by simp)) (hp.balance (by simp [hcond.2]))
      (fun _ ht => by simp at ht) (fun hok => ?_) hp.stored
    exact (hp.loop_not_ok hcond.2 hok).2.2

/-! ### Every schedule ends -/

/-- Leaving the loop makes the weight of the main goroutine smaller. -/
lemma mainWeight_leave_lt {m : ℕ} (hm : n - p.count + 1 < m) :
    (p.leave computeInfo).mainWeight < m := by
  simp only [mainWeight, leave]
  split_ifs <;> dsimp only <;> omega

/-- There is room for every answer, so a received one was not counted before. -/
lemma Sound.count_lt (hp : Sound model parts computeInfo p) (hphase : p.phase ≠ .returned)
    (hresults : p.results ≠ []) : p.count < n := by
  have hbalance := hp.balance hphase
  have hle : p.ended.card ≤ n := by simpa using Finset.card_le_univ p.ended
  have := List.length_pos_iff.mpr hresults
  omega

/-- **Every step leaves less to do.**

**Proof sketch.** A step of a goroutine makes its own weight smaller. An answer that is received
makes the weight of the main routine smaller, since fewer answers are left, and so does leaving the
loop. -/
theorem Sound.weight_lt (heq : model.EqualSound) {hasTimeout : Bool}
    (hp : Sound model parts computeInfo p) {ev : ParallelEvent n}
    (h : p.step model (entriesOf parts) computeInfo hasTimeout ev = some p') :
    weight parts p' < weight parts p := by
  cases ev with
  | routine i =>
    rcases hp.routine_step heq i with ⟨-, hnone⟩ | ⟨p'', hsome, -, hlt⟩
    · exact absurd (hnone.symm.trans h) (by simp)
    · rwa [← Option.some.inj (hsome.symm.trans h)]
  | receive =>
    have h : p.receive computeInfo = some p' := h
    suffices p'.routines = p.routines ∧ p'.mainWeight < p.mainWeight by
      rw [weight, weight, this.1]
      exact Nat.add_lt_add_left this.2 _
    cases hphase : p.phase with
    | loop =>
      cases hresults : p.results with
      | nil => simp [receive, hphase, hresults] at h
      | cons result rest =>
        have hlt := hp.count_lt (by simp [hphase]) (by simp [hresults])
        have hw : p.mainWeight = n - p.count + n + 2 := by simp [mainWeight, hphase]
        simp only [receive, hphase, hresults] at h
        split_ifs at h with hkill hlast
        · obtain rfl := Option.some.inj h
          exact ⟨rfl, mainWeight_leave_lt (by rw [hw]; dsimp only; omega)⟩
        · obtain rfl := Option.some.inj h
          exact ⟨rfl, mainWeight_leave_lt (by rw [hw]; dsimp only; omega)⟩
        · obtain rfl := Option.some.inj h
          refine ⟨rfl, ?_⟩
          rw [hw]
          simp only [mainWeight]
          omega
    | drain =>
      cases hresults : p.results with
      | nil => simp [receive, hphase, hresults] at h
      | cons result rest =>
        have hlt := hp.count_lt (by simp [hphase]) (by simp [hresults])
        have hw : p.mainWeight = n - p.count + 1 := by simp [mainWeight, hphase]
        simp only [receive, hphase, hresults, Option.some.injEq] at h
        subst h
        refine ⟨rfl, ?_⟩
        rw [hw]
        simp only [mainWeight]
        split_ifs <;> dsimp only <;> omega
    | returned => simp [receive, hphase] at h
  | timeout =>
    have h : p.timeout computeInfo hasTimeout = some p' := h
    simp only [timeout] at h
    split_ifs at h with hcond
    obtain rfl := Option.some.inj h
    have hw : p.mainWeight = n - p.count + n + 2 := by simp [mainWeight, hcond.2]
    refine Nat.add_lt_add_left (mainWeight_leave_lt ?_) _
    rw [hw]
    dsimp only
    omega

/-- **Somebody can go on** as long as nothing has been returned and there is a partition.

**Proof sketch.** If there is an answer in the channel, it can be received. If there is none, fewer
goroutines have ended than there are, since the main routine still waits; one of them can go on. -/
theorem Sound.can_step (heq : model.EqualSound) (hasTimeout : Bool)
    (hp : Sound model parts computeInfo p) (hn : 0 < n) (hphase : p.phase ≠ .returned) :
    ∃ ev p', p.step model (entriesOf parts) computeInfo hasTimeout ev = some p' := by
  cases hresults : p.results with
  | cons result rest =>
    refine ⟨.receive, ?_⟩
    cases hph : p.phase with
    | loop =>
      simp only [Parallel.step, receive, hph, hresults]
      split_ifs <;> exact ⟨_, rfl⟩
    | drain => exact ⟨_, by simp only [Parallel.step, receive, hph, hresults]; rfl⟩
    | returned => exact absurd hph hphase
  | nil =>
    have hbalance := hp.balance hphase
    have hlt : p.count < n := by
      cases hph : p.phase with
      | loop =>
        cases hok : p.ok with
        | true => exact (hp.loop_ok hph hok).2.elim id fun h => h ▸ hn
        | false => exact (hp.loop_not_ok hph hok).2.1
      | drain => exact hp.busy hph
      | returned => exact absurd hph hphase
    rw [hresults, List.length_nil, Nat.add_zero] at hbalance
    obtain ⟨i, hi⟩ : ∃ i, i ∉ p.ended := by
      by_contra hall
      push Not at hall
      have : p.ended = Finset.univ := Finset.eq_univ_iff_forall.mpr hall
      rw [this, Finset.card_univ, Fintype.card_fin] at hbalance
      omega
    rcases hp.routine_step heq i with ⟨⟨ok, hr⟩, -⟩ | ⟨p', hstep, -⟩
    · exact absurd (mem_ended.mpr (by simp [hr])) hi
    · exact ⟨.routine i, p', hstep⟩

/-! ## All schedules -/

/-- Without a timer nothing times out. -/
lemma timedOut_step {history : Fin n → List (Entry ι ο)} {ev : ParallelEvent n}
    (hp : p.timedOut = false) (h : p.step model history computeInfo false ev = some p') :
    p'.timedOut = false := by
  cases ev with
  | routine i =>
    have h : p.stepRoutine model history computeInfo i = some p' := h
    cases hr : p.routines i with
    | fresh =>
      simp only [stepRoutine, hr, Option.map_eq_some_iff] at h
      obtain ⟨s, -, rfl⟩ := h
      exact hp
    | running s =>
      simp only [stepRoutine, hr, Option.map_eq_some_iff] at h
      obtain ⟨pr, -, rfl⟩ := h
      cases pr <;> exact hp
    | returned ok s =>
      simp only [stepRoutine, hr, Option.some.injEq] at h
      subst h
      exact hp
    | stored ok =>
      simp only [stepRoutine, hr, Option.some.injEq] at h
      subst h
      exact hp
    | ended ok => simp [stepRoutine, hr] at h
  | receive =>
    have h : p.receive computeInfo = some p' := h
    simp only [receive] at h
    split at h
    · split_ifs at h <;> obtain rfl := Option.some.inj h <;> exact hp
    · obtain rfl := Option.some.inj h
      exact hp
    · simp at h
  | timeout => simp [step, timeout] at h

/-- The invariant holds after every schedule. -/
lemma Sound.of_follow (heq : model.EqualSound) {hasTimeout : Bool} {evs : List (ParallelEvent n)}
    (h : Transition.follow (Parallel.step model (entriesOf parts) computeInfo hasTimeout)
      (Parallel.start ι ο σ n) evs = some p) : Sound model parts computeInfo p :=
  Transition.follow_invariant (I := Sound model parts computeInfo)
    (fun _ _ _ hs hstep => hs.step heq hstep) Sound.start h

/-- What has been returned comes from outside of the loop. -/
lemma phase_of_result {r : CheckResult} (h : p.result = some r) : p.phase ≠ .loop ∧
    r = if !p.ok then .illegal else if p.timedOut then .unknown else .ok := by
  by_cases hphase : p.phase = .returned
  · rw [result, if_pos hphase] at h
    exact ⟨by simp [hphase], (Option.some.inj h).symm⟩
  · simp [result, hphase] at h

/-- A verdict of `Ok` means that all partitions are linearizable. -/
lemma Sound.of_result_ok (hp : Sound model parts computeInfo p) (h : p.result = some .ok) :
    ∀ i, (parts i).Linearizable model := by
  obtain ⟨hne, hval⟩ := phase_of_result h
  cases hok : p.ok with
  | false => simp [hok] at hval
  | true =>
    cases ht : p.timedOut with
    | true => simp [hok, ht] at hval
    | false => exact hp.after_ok hne hok ht

/-- A verdict of `Illegal` means that some partition is not linearizable. -/
lemma Sound.of_result_illegal (hp : Sound model parts computeInfo p)
    (h : p.result = some .illegal) : ∃ i, ¬ (parts i).Linearizable model := by
  obtain ⟨hne, hval⟩ := phase_of_result h
  cases hok : p.ok with
  | false => exact hp.after_not_ok hne hok
  | true => cases ht : p.timedOut <;> simp [hok, ht] at hval

/-- **The verdict of `checkParallel` can be trusted under every schedule**: `Ok` is returned only
when every partition is linearizable, `Illegal` only when some partition is not, and `Unknown` only
when there is a timer.

**Proof sketch.** The invariant `Sound` holds along every schedule and says what each result means.
Without a timer `timedOut` is never set. -/
theorem verdict_correct (heq : model.EqualSound) {hasTimeout : Bool}
    {evs : List (ParallelEvent n)}
    (h : Transition.follow (step model (entriesOf parts) computeInfo hasTimeout) (start ι ο σ n)
      evs = some p) :
    (p.result = some .ok → ∀ i, (parts i).Linearizable model) ∧
      (p.result = some .illegal → ∃ i, ¬ (parts i).Linearizable model) ∧
      (p.result = some .unknown → hasTimeout = true) := by
  have hp := Sound.of_follow heq h
  refine ⟨hp.of_result_ok, hp.of_result_illegal, fun hr => ?_⟩
  cases hasTimeout with
  | true => rfl
  | false =>
    obtain ⟨-, hval⟩ := phase_of_result hr
    have ht : p.timedOut = false :=
      Transition.follow_invariant (I := fun p : Parallel ι ο σ n => p.timedOut = false)
        (fun _ _ _ hs hstep => timedOut_step hs hstep) rfl h
    cases hok : p.ok <;> simp [hok, ht] at hval

/-- Two partitions of which the second one is not linearizable. -/
def twoParts (i : Fin 2) : History (Option ℕ) ℕ := .twoWrites (if i = Fin.last 1 then 3 else 1)

/-- The two goroutines take turns for three rounds. -/
def turns : List (ParallelEvent 2) :=
  (List.replicate 3 ((List.finRange 2).map .routine)).flatten

/-- The second goroutine gets to its end and sends its answer, and the main routine receives it
while the first one is still at work. -/
def refusal : List (ParallelEvent 2) :=
  turns ++ List.replicate 11 (.routine (Fin.last 1)) ++ [.receive]

/-- The timer fires while both goroutines are at work; they find `kill` set and send their
answers. -/
def interruption : List (ParallelEvent 2) := turns ++ [.timeout] ++ turns ++ [.receive, .receive]

/-- In one interleaving the second partition is found not to be linearizable, in another one the
timer fires before anything is known. -/
theorem verdict_correct_twoParts :
    (∃ p, Transition.follow (step (fillDefault registerModel) (entriesOf twoParts) false true)
        (start (Option ℕ) ℕ ℕ 2) refusal = some p ∧ p.result = some .illegal ∧
      ∃ i, ¬ (twoParts i).Linearizable (fillDefault registerModel)) ∧
    ∃ p, Transition.follow (step (fillDefault registerModel) (entriesOf twoParts) true true)
        (start (Option ℕ) ℕ ℕ 2) interruption = some p ∧ p.result = some .unknown := by
  have hbad : (Transition.follow (step (fillDefault registerModel) (entriesOf twoParts) false true)
      (start (Option ℕ) ℕ ℕ 2) refusal).bind result = some .illegal := by
    decide +kernel
  have htime : (Transition.follow (step (fillDefault registerModel) (entriesOf twoParts) true true)
      (start (Option ℕ) ℕ ℕ 2) interruption).bind result = some .unknown := by
    decide +kernel
  obtain ⟨p, hp, hresult⟩ := Option.bind_eq_some_iff.mp hbad
  obtain ⟨q, hq, hresult'⟩ := Option.bind_eq_some_iff.mp htime
  exact ⟨⟨p, hp, hresult, (verdict_correct (fillDefault_equalSound rfl) hp).2.1 hresult⟩, q, hq,
    hresult'⟩

/-- **`checkParallel` returns under every schedule**: no schedule is longer than a bound that
depends on the histories only, and one that cannot go on has returned, except that without any
partition and without a timer nothing is ever returned.

**Proof sketch.** Every step makes the weight smaller, which gives the bound. A schedule that cannot
go on has returned by `Sound.can_step`; without partitions only the timer can do something. -/
theorem schedule_ends (heq : model.EqualSound) {hasTimeout : Bool} {evs : List (ParallelEvent n)}
    (h : Transition.follow (step model (entriesOf parts) computeInfo hasTimeout) (.start ι ο σ n)
      evs = some p) :
    evs.length ≤ ∑ i, ((parts i).bound + 4) + (2 * n + 2) ∧
      ((∀ ev, p.step model (entriesOf parts) computeInfo hasTimeout ev = none) →
        (p.result = none ↔ n = 0 ∧ hasTimeout = false)) := by
  constructor
  · have hle := Transition.follow_length_le (I := Sound model parts computeInfo)
      (μ := weight parts) (fun _ _ _ hs hstep => hs.step heq hstep)
      (fun _ _ _ hs hstep => hs.weight_lt heq hstep) Sound.start h
    have hstart : weight parts (.start ι ο σ n) = ∑ i, ((parts i).bound + 4) + (2 * n + 2) := by
      simp only [weight, Parallel.start, routineWeight, mainWeight]
      omega
    omega
  · intro hstuck
    have hp := Sound.of_follow heq h
    constructor
    · intro hnone
      have hphase : p.phase ≠ .returned := by
        intro hph
        simp [result, hph] at hnone
      rcases Nat.eq_zero_or_pos n with rfl | hn
      · refine ⟨rfl, ?_⟩
        cases ht : hasTimeout with
        | false => rfl
        | true =>
          -- the timer could fire: the main routine waits in its loop
          have hloop : p.phase = .loop := by
            cases hph : p.phase with
            | loop => rfl
            | drain => exact absurd (hp.busy hph) (Nat.not_lt_zero _)
            | returned => exact absurd hph hphase
          have := hstuck .timeout
          simp [step, timeout, ht, hloop] at this
      · obtain ⟨ev, p', hstep⟩ := hp.can_step heq hasTimeout hn hphase
        exact absurd (hstuck ev) (by simp [hstep])
    · rintro ⟨rfl, rfl⟩
      -- no step is possible from the start
      have hevs : evs = [] := by
        cases evs with
        | nil => rfl
        | cons ev evs =>
          cases ev with
          | routine i => exact i.elim0
          | receive => simp [Transition.follow, step, receive, Parallel.start] at h
          | timeout => simp [Transition.follow, step, timeout] at h
      subst hevs
      obtain rfl : Parallel.start ι ο σ 0 = p := by simpa [Transition.follow] using h
      simp [result, Parallel.start]

/-- After the refusal the first goroutine finds `kill` set, stores and sends. -/
def afterRefusal : List (ParallelEvent 2) :=
  refusal ++ List.replicate 3 (.routine (Fin.last 1).rev)

/-- Then nobody can go on, and a result has been returned. -/
theorem schedule_ends_twoParts : ∃ p : Parallel (Option ℕ) ℕ ℕ 2,
    Transition.follow (step (fillDefault registerModel) (entriesOf twoParts) false true)
      (start (Option ℕ) ℕ ℕ 2) afterRefusal = some p ∧
    afterRefusal.length ≤ ∑ i, ((twoParts i).bound + 4) + (2 * 2 + 2) ∧
    (∀ ev, p.step (fillDefault registerModel) (entriesOf twoParts) false true ev = none) ∧
    p.result ≠ none := by
  have hrun : (Transition.follow
      (step (fillDefault registerModel) (entriesOf twoParts) false true)
      (start (Option ℕ) ℕ ℕ 2) afterRefusal).any (fun p =>
        [.routine 0, .routine 1, .receive, .timeout].all fun ev =>
          (p.step (fillDefault registerModel) (entriesOf twoParts) false true ev).isNone) =
        true := by
    decide +kernel
  obtain ⟨p, hp, hall⟩ := (Option.any_eq_true _ _).mp hrun
  simp only [List.all_cons, List.all_nil, Bool.and_true, Bool.and_eq_true,
    Option.isNone_iff_eq_none] at hall
  obtain ⟨h0, h1, hreceive, htimeout⟩ := hall
  have hstuck : ∀ ev,
      p.step (fillDefault registerModel) (entriesOf twoParts) false true ev = none
    | .routine 0 => h0
    | .routine 1 => h1
    | .receive => hreceive
    | .timeout => htimeout
  have hends := schedule_ends (fillDefault_equalSound rfl) hp
  exact ⟨p, hp, hends.1, hstuck, fun hnone => absurd ((hends.2 hstuck).mp hnone).1 (by decide)⟩

end Sound

end Parallel

end Porcupine
