import Mit6824.ReplicatedLog.Basic

set_option autoImplicit false

/-!
# The steps of the replicated-log protocol

Every change of the abstract state that a concrete protocol needs, each with two lemmas: it
extends the state (`Ext`), and it keeps the invariant under its precondition.

## Main definitions

* `ReplicatedLog.State.raise` — a server enters a later term.
* `ReplicatedLog.State.extend` — a leader appends an entry of its term to its log, which becomes
  the leader log; the first such entry is its election.
* `ReplicatedLog.State.setLog` — a server replaces its log.
* `ReplicatedLog.State.addAck` — a server acknowledges a prefix of its log.

## Main results

* `ReplicatedLog.Inv.raise`, `ReplicatedLog.Inv.append`, `ReplicatedLog.Inv.elect`,
  `ReplicatedLog.Inv.addAck` — the invariant under each step.
* `ReplicatedLog.Inv.adopt`, `ReplicatedLog.Inv.truncate`, `ReplicatedLog.Inv.install` — the three
  reasons for which a server replaces its log.
* `ReplicatedLog.Inv.pledged_self`, `ReplicatedLog.Inv.pledged_of_upToDate` — why a candidate,
  and a voter with a log no newer than the candidate's, are pledged.
-/

namespace ReplicatedLog

variable {S E : Type*} [DecidableEq S]

namespace State

omit [DecidableEq S] in
/-- The initial state: term 0 everywhere, no entries and no leaders. -/
def init : State S E := ⟨fun _ => 0, fun _ => [], fun _ => none, fun _ _ _ => False⟩

/-- Server `j` enters term `t`. -/
def raise (g : State S E) (j : S) (t : ℕ) : State S E :=
  { g with term := Function.update g.term j t }

/-- Server `s` appends `e` and its log is the leader log of `t` from then on. -/
def extend (g : State S E) (s : S) (t : ℕ) (e : E) : State S E :=
  { g with
    log := Function.update g.log s (g.log s ++ [e])
    leaderLog := Function.update g.leaderLog t (some (g.log s ++ [e])) }

/-- Server `j` replaces its log. -/
def setLog (g : State S E) (j : S) (M : List E) : State S E :=
  { g with log := Function.update g.log j M }

/-- Giving a server its own log changes nothing. -/
@[simp] lemma setLog_self (g : State S E) (j : S) : g.setLog j (g.log j) = g := by
  simp [setLog]

omit [DecidableEq S] in
/-- Server `j` acknowledges `X` in term `t`. -/
def addAck (g : State S E) (j : S) (t : ℕ) (X : List E) : State S E :=
  { g with ack := fun k t' Y => g.ack k t' Y ∨ (k = j ∧ t' = t ∧ Y = X) }

end State

variable {tm : E → ℕ} {qs : QuorumSystem S} {g : State S E}

omit [DecidableEq S] in
/-- The invariant holds at the start. -/
lemma Inv.init : Inv tm qs (State.init : State S E) where
  anchored_log j P e hP := by simp [State.init] at hP
  anchored_leader t L hL := by simp [State.init] at hL
  ends t L hL := by simp [State.init] at hL
  le_term t L hL := by simp [State.init] at hL
  log_le j e he := by simp [State.init] at he
  elected t L hL := by simp [State.init] at hL
  ack_leader j t X hX := hX.elim
  ack_held j t X hX := by
    obtain ⟨Y, hY, -⟩ := hX
    exact hY.elim
  complete t t' L L' X _ hL := by simp [State.init] at hL

/-! ## Every step extends the state -/

/-- Raising a term is a step. -/
lemma Ext.raise {j : S} {t : ℕ} (ht : g.term j ≤ t) : Ext g (g.raise j t) where
  term_le k := by
    by_cases hk : k = j
    · subst hk; simpa [State.raise] using ht
    · simp [State.raise, hk]
  leaderLog_le _ L h := ⟨L, h, List.prefix_rfl⟩
  ack_le _ _ _ h := h
  frozen _ _ _ h := Or.inl h

/-- Appending to the leader log of a term is a step. -/
lemma Ext.extend {s : S} {t : ℕ} {e : E}
    (h : g.leaderLog t = none ∨ g.leaderLog t = some (g.log s)) : Ext g (g.extend s t e) where
  term_le _ := le_rfl
  leaderLog_le t' L hL := by
    by_cases ht : t' = t
    · subst ht
      rcases h with h | h
      · rw [h] at hL; simp at hL
      · rw [h] at hL
        obtain rfl : g.log s = L := by simpa using hL
        exact ⟨g.log s ++ [e], by simp [State.extend], List.prefix_append _ _⟩
    · exact ⟨L, by simpa [State.extend, ht] using hL, List.prefix_rfl⟩
  ack_le _ _ _ h := h
  frozen _ _ _ h := Or.inl h

/-- Changing the log of a server is a step. -/
lemma Ext.setLog {j : S} {M : List E} : Ext g (g.setLog j M) where
  term_le _ := le_rfl
  leaderLog_le _ L h := ⟨L, h, List.prefix_rfl⟩
  ack_le _ _ _ h := h
  frozen _ _ _ h := Or.inl h

omit [DecidableEq S] in
/-- An acknowledgement in the present or a later term is a step. -/
lemma Ext.addAck {j : S} {t : ℕ} {X : List E} (ht : g.term j ≤ t) : Ext g (g.addAck j t X) where
  term_le _ := le_rfl
  leaderLog_le _ L h := ⟨L, h, List.prefix_rfl⟩
  ack_le _ _ _ h := Or.inl h
  frozen k t' Y h := by
    rcases h with h | ⟨rfl, rfl, -⟩
    · exact Or.inl h
    · exact Or.inr ht

/-! ## Terms -/

/-- Entering a later term keeps the invariant.

**Proof sketch.** Terms occur in the invariant as upper bounds only, apart from `Blocked`, which is
kept by every extension (`Ext.blocked`). -/
lemma Inv.raise (hg : Inv tm qs g) {j : S} {t : ℕ} (ht : g.term j ≤ t) :
    Inv tm qs (g.raise j t) := by
  have hx : Ext g (g.raise j t) := Ext.raise ht
  refine ⟨hg.anchored_log, hg.anchored_leader, hg.ends, hg.le_term, ?_, ?_, ?_, ?_, ?_⟩
  · intro k e he
    exact (hg.log_le k e he).trans (hx.term_le k)
  · intro t' L hL
    obtain ⟨A, hA, hk⟩ := hg.elected t' L hL
    exact ⟨A, hA, fun k hkA => (hk k hkA).trans (hx.term_le k)⟩
  · intro k t' X hX
    obtain ⟨h1, h2⟩ := hg.ack_leader k t' X hX
    exact ⟨h1.trans (hx.term_le k), h2⟩
  · intro k t' X hX
    rcases hg.ack_held k t' X hX with h | ⟨t'', L, h1, h2, h3⟩
    · exact Or.inl h
    · exact Or.inr ⟨t'', L, h1, h2.trans (hx.term_le k), h3⟩
  · intro t₁ t₂ L L' X hlt hL hL' hends hp hnot
    exact hx.blocked (hg.complete t₁ t₂ L L' X hlt hL hL' hends hp hnot)

/-! ## Acknowledgements -/

omit [DecidableEq S] in
/-- Acknowledging a prefix of the own log that is in the leader log keeps the invariant.

**Proof sketch.** The new acknowledgement is a prefix of the leader log and of the server's own log.
The other ones are as before. -/
lemma Inv.addAck (hg : Inv tm qs g) {j : S} {t : ℕ} {X L : List E} (ht : g.term j = t)
    (hL : g.leaderLog t = some L) (hXL : X <+: L) (hX : X <+: g.log j) :
    Inv tm qs (g.addAck j t X) := by
  have hx : Ext g (g.addAck j t X) := Ext.addAck ht.le
  refine ⟨hg.anchored_log, hg.anchored_leader, hg.ends, hg.le_term, hg.log_le, hg.elected,
    ?_, ?_, ?_⟩
  · intro k t' Y hY
    rcases hY with hY | ⟨rfl, rfl, rfl⟩
    · exact hg.ack_leader k t' Y hY
    · exact ⟨ht.ge, L, hL, hXL⟩
  · intro k t' Y hY
    obtain ⟨Z, hZ, hp⟩ := hY
    rcases hZ with hZ | ⟨rfl, rfl, rfl⟩
    · exact hg.ack_held k t' Y ⟨Z, hZ, hp⟩
    · exact Or.inl (hp.trans hX)
  · intro t₁ t₂ L₁ L₂ Y hlt hL₁ hL₂ hends hp hnot
    exact hx.blocked (hg.complete t₁ t₂ L₁ L₂ Y hlt hL₁ hL₂ hends hp hnot)

/-! ## Replacing a log -/

/-- Replacing a log keeps the invariant when the new one is anchored and drops nothing the
server acknowledged, except what some later leader log lacks.

**Proof sketch.** Only the log of `j` changes, so only the statements about the log of `j` are new,
and they are assumed. -/
lemma Inv.setLog (hg : Inv tm qs g) {j : S} {M : List E} (hM : g.Anchored tm M)
    (hle : ∀ e ∈ M, tm e ≤ g.term j)
    (hack : ∀ t X, g.Acked j t X → X <+: g.log j → X <+: M ∨
      ∃ t' L', t < t' ∧ t' ≤ g.term j ∧ g.leaderLog t' = some L' ∧ ¬ X <+: L') :
    Inv tm qs (g.setLog j M) := by
  have hself : (g.setLog j M).log j = M := by simp [State.setLog]
  have hother : ∀ k, k ≠ j → (g.setLog j M).log k = g.log k := by
    intro k hk; simp [State.setLog, hk]
  refine ⟨?_, hg.anchored_leader, hg.ends, hg.le_term, ?_, hg.elected, hg.ack_leader, ?_,
    hg.complete⟩
  · intro k
    by_cases hk : k = j
    · subst hk; rw [hself]; exact hM
    · rw [hother k hk]; exact hg.anchored_log k
  · intro k e he
    by_cases hk : k = j
    · subst hk; rw [hself] at he; exact hle e he
    · rw [hother k hk] at he; exact hg.log_le k e he
  · intro k t X hX
    by_cases hk : k = j
    · subst hk
      rw [hself]
      rcases hg.ack_held k t X hX with h | h
      · exact hack t X hX h
      · exact Or.inr h
    · rw [hother k hk]
      exact hg.ack_held k t X hX

/-- A server adopts `M`, an earlier state of the leader log of its term, unless its own log
continues `M`.

**Proof sketch.** Let `X` be an acknowledged prefix of the old log. If `X` is a prefix of `L`, then
it is one of `M`, or `M` is one of `X` and the log has not changed. If it is not, then it was
acknowledged in an earlier term, and `L` is a later leader log without it. -/
lemma Inv.adopt (hg : Inv tm qs g) {j : S} {L M : List E} (hL : g.leaderLog (g.term j) = some L)
    (hML : M <+: L) (hlong : M <+: g.log j → M = g.log j) :
    Inv tm qs (g.setLog j M) := by
  refine hg.setLog ((hg.anchored_leader _ L hL).shorten hML)
    (fun e he => hg.le_term _ L hL e (hML.subset he)) ?_
  intro t X hack hX
  obtain ⟨ht, L₀, hL₀, hXL₀⟩ := hg.acked_le hack
  by_cases hXL : X <+: L
  · left
    rcases List.prefix_or_prefix_of_prefix hXL hML with h | h
    · exact h
    -- `M` is a prefix of `X`, hence of the own log: it is the own log
    · rw [hlong (h.trans hX)]; exact hX
  · rcases ht.eq_or_lt with rfl | hlt
    · rw [hL] at hL₀
      obtain rfl : L = L₀ := by simpa using hL₀
      exact absurd hXL₀ hXL
    · exact Or.inr ⟨g.term j, L, hlt, le_rfl, hL, hXL⟩

/-- A server cuts its log before an entry that differs from the one at the same place in the
leader log of its term.

**Proof sketch.** Let `X` be acknowledged. If the cut does not keep it, `X` holds the differing
entry, so it is not in the leader log of the server's term. It was then acknowledged in an earlier
term, and this leader log lacks it. -/
lemma Inv.truncate (hg : Inv tm qs g) {j : S} {L : List E} {k : ℕ} {a b : E}
    (hL : g.leaderLog (g.term j) = some L) (ha : (g.log j)[k]? = some a) (hb : L[k]? = some b)
    (hab : a ≠ b) : Inv tm qs (g.setLog j ((g.log j).take k)) := by
  have hP : (g.log j).take k <+: g.log j := List.take_prefix k _
  refine hg.setLog ((hg.anchored_log j).shorten hP)
    (fun e he => hg.log_le j e (hP.subset he)) ?_
  intro t X hack hX
  obtain ⟨ht, L₀, hL₀, hXL₀⟩ := hg.acked_le hack
  by_cases hXP : X <+: (g.log j).take k
  · exact Or.inl hXP
  -- otherwise `X` holds the differing entry, so it is not in the leader log
  have hk : k < X.length := by
    by_contra hle
    have hXlen := hX.length_le
    exact hXP (List.prefix_of_prefix_length_le hX hP (by rw [List.length_take]; omega))
  have hXL : ¬ X <+: L := by
    intro hp
    have haX := List.prefix_iff_getElem?.mp hX k hk
    have hbX := List.prefix_iff_getElem?.mp hp k hk
    rw [ha] at haX
    rw [hb] at hbX
    exact hab (Option.some.inj (haX.trans hbX.symm))
  rcases ht.eq_or_lt with rfl | hlt
  · rw [hL] at hL₀
    obtain rfl : L = L₀ := by simpa using hL₀
    exact absurd hXL₀ hXL
  · exact Or.inr ⟨g.term j, L, hlt, le_rfl, hL, hXL⟩

/-- A committed prefix that the own log does not hold replaces it.

**Proof sketch.** Let `Z` be acknowledged and held. Compare it with the committed `X` in the leader
log of the later of their two terms: `Z` is a prefix of `X`, or it is not in that leader log. That
`X` is a prefix of `Z` is impossible, because the log does not hold `X`. -/
lemma Inv.install (hg : Inv tm qs g) {j : S} {X : List E}
    (hX : g.CommittedBy tm qs (g.term j) X) (hnot : ¬ X <+: g.log j) :
    Inv tm qs (g.setLog j X) := by
  obtain rfl | ⟨t₀, ht₀, Y, hY, hXY⟩ := id hX
  · exact absurd List.nil_prefix hnot
  obtain ⟨-, ⟨L₀, hL₀, hYL₀⟩, -⟩ := id hY
  have hXL₀ := hXY.trans hYL₀
  refine hg.setLog ((hg.anchored_leader _ L₀ hL₀).shorten hXL₀)
    (fun e he => (hg.le_term _ L₀ hL₀ e (hXL₀.subset he)).trans ht₀) ?_
  intro t Z hack hZ
  obtain ⟨ht, L, hL, hZL⟩ := hg.acked_le hack
  -- compare `X` and `Z` in the leader log of the later of their two terms
  rcases le_or_gt t₀ t with hle | hlt
  · have hXL : X <+: L := hXY.trans (hg.committed_prefix_leaderLog hY hle hL)
    rcases List.prefix_or_prefix_of_prefix hZL hXL with h | h
    · exact Or.inl h
    · exact absurd (h.trans hZ) hnot
  · by_cases hZL₀ : Z <+: L₀
    · rcases List.prefix_or_prefix_of_prefix hZL₀ hXL₀ with h | h
      · exact Or.inl h
      · exact absurd (h.trans hZ) hnot
    · exact Or.inr ⟨t₀, L₀, hlt, ht₀, hL₀, hZL₀⟩

/-! ## Leaders -/

section Leader

variable {s : S} {t : ℕ} {e : E}

/-- The leader logs after `s` has extended its log. -/
lemma State.leaderLog_extend {t' : ℕ} {L : List E} (hL : (g.extend s t e).leaderLog t' = some L) :
    (t' = t ∧ L = g.log s ++ [e]) ∨ (t' ≠ t ∧ g.leaderLog t' = some L) := by
  by_cases ht : t' = t
  · subst ht
    exact Or.inl ⟨rfl, by simpa [State.extend, eq_comm] using hL⟩
  · exact Or.inr ⟨ht, by simpa [State.extend, ht] using hL⟩

/-- The logs after `s` has extended its log. -/
lemma State.log_extend (g : State S E) (s : S) (t : ℕ) (e : E) (k : S) :
    (k = s ∧ (g.extend s t e).log k = g.log s ++ [e]) ∨ (g.extend s t e).log k = g.log k := by
  by_cases hk : k = s
  · subst hk
    exact Or.inl ⟨rfl, by simp [State.extend]⟩
  · exact Or.inr (by simp [State.extend, hk])

/-- What was acknowledged is still held, or given up for a later leader log.

**Proof sketch.** Logs only grow. If something was given up for the leader log of `t`, the longer
leader log lacks it too, because it ends in an earlier term than the new entry. -/
lemma Inv.ack_held_extend (hg : Inv tm qs g) (he : tm e = t)
    (h : g.leaderLog t = none ∨ g.leaderLog t = some (g.log s)) {k : S} {t' : ℕ} {X : List E}
    (hX : g.Acked k t' X) : X <+: (g.extend s t e).log k ∨
      ∃ t'' L', t' < t'' ∧ t'' ≤ g.term k ∧ (g.extend s t e).leaderLog t'' = some L' ∧
        ¬ X <+: L' := by
  rcases hg.ack_held k t' X hX with hp | ⟨t'', L', h1, h2, hL', hnot⟩
  · left
    rcases State.log_extend g s t e k with ⟨rfl, hlog⟩ | hlog <;> rw [hlog]
    · exact hp.trans (List.prefix_append _ _)
    · exact hp
  · right
    by_cases ht : t'' = t
    · subst ht
      obtain rfl : g.log s = L' := by
        rcases h with h | h <;> rw [h] at hL'
        · simp at hL'
        · exact Option.some.inj hL'
      refine ⟨t'', g.log s ++ [e], h1, h2, by simp [State.extend], fun hp => ?_⟩
      -- the new entry is of a later term than all of `X`
      rcases List.prefix_concat_iff.mp hp with heq | hp
      · obtain ⟨-, L, hL, hXL⟩ := hg.acked_le hX
        exact hg.not_endsIn_of_lt hL hXL h1 ⟨_, e, heq, he⟩
      · exact hnot hp
    · exact ⟨t'', L', h1, h2, by simpa [State.extend, ht] using hL', hnot⟩

/-- The parts of the invariant that do not depend on why a leader may extend its log.

**Proof sketch.** Each statement is about a log that has not changed or about the log with the new
entry, which is anchored in itself and of terms up to `t`. -/
lemma Inv.extend (hg : Inv tm qs g) (hs : g.term s = t) (he : tm e = t)
    (h : g.leaderLog t = none ∨ g.leaderLog t = some (g.log s))
    (helected : ∃ A ∈ qs.quorums, ∀ k ∈ A, t ≤ g.term k)
    (hcomplete : ∀ t₁ t₂ L₁ L₂ X, t₁ < t₂ → (g.extend s t e).leaderLog t₁ = some L₁ →
      (g.extend s t e).leaderLog t₂ = some L₂ → EndsIn tm X t₁ → X <+: L₁ → ¬ X <+: L₂ →
      g.Blocked qs t₁ X) : Inv tm qs (g.extend s t e) := by
  have hx : Ext g (g.extend s t e) := Ext.extend h
  have hanch : (g.extend s t e).Anchored tm (g.log s ++ [e]) := by
    refine (hx.anchored (hg.anchored_log s)).concat (L := g.log s ++ [e]) ?_ List.prefix_rfl
    simp [State.extend, he]
  have hle : ∀ a ∈ g.log s ++ [e], tm a ≤ t := by
    intro a ha
    rcases List.mem_append.mp ha with ha | ha
    · exact hs ▸ hg.log_le s a ha
    · obtain rfl : a = e := by simpa using ha
      exact he.le
  refine ⟨?_, ?_, ?_, ?_, ?_, ?_, ?_, fun k t' X hX => hg.ack_held_extend he h hX, ?_⟩
  · intro k
    rcases State.log_extend g s t e k with ⟨-, hlog⟩ | hlog <;> rw [hlog]
    · exact hanch
    · exact hx.anchored (hg.anchored_log k)
  · intro t' L hL
    rcases State.leaderLog_extend hL with ⟨-, rfl⟩ | ⟨-, hL⟩
    · exact hanch
    · exact hx.anchored (hg.anchored_leader t' L hL)
  · intro t' L hL
    rcases State.leaderLog_extend hL with ⟨rfl, rfl⟩ | ⟨-, hL⟩
    · exact ⟨g.log s, e, rfl, he⟩
    · exact hg.ends t' L hL
  · intro t' L hL a ha
    rcases State.leaderLog_extend hL with ⟨rfl, rfl⟩ | ⟨-, hL⟩
    · exact hle a ha
    · exact hg.le_term t' L hL a ha
  · intro k a ha
    rcases State.log_extend g s t e k with ⟨rfl, hlog⟩ | hlog <;> rw [hlog] at ha
    · exact (hle a ha).trans hs.ge
    · exact hg.log_le k a ha
  · intro t' L hL
    rcases State.leaderLog_extend hL with ⟨rfl, -⟩ | ⟨-, hL⟩
    · exact helected
    · exact hg.elected t' L hL
  · intro k t' X hX
    obtain ⟨h1, L, hL, hp⟩ := hg.ack_leader k t' X hX
    obtain ⟨L', hL', hp'⟩ := hx.leaderLog_le t' L hL
    exact ⟨h1, L', hL', hp.trans hp'⟩
  · intro t₁ t₂ L₁ L₂ X hlt hL₁ hL₂ hends hp hnot
    exact hx.blocked (hcomplete t₁ t₂ L₁ L₂ X hlt hL₁ hL₂ hends hp hnot)

omit [DecidableEq S] in
/-- A prefix that nobody acknowledged in a term with a later leader is blocked. -/
lemma Inv.blocked_of_unacked (hg : Inv tm qs g) {t₁ t₂ : ℕ} {L₂ X : List E} (hlt : t₁ < t₂)
    (hL₂ : g.leaderLog t₂ = some L₂) (hX : ∀ k, ¬ g.Acked k t₁ X) : g.Blocked qs t₁ X := by
  intro A hA
  obtain ⟨B, hB, hterm⟩ := hg.elected t₂ L₂ hL₂
  obtain ⟨k, hkA, hkB⟩ := qs.inter A hA B hB
  exact ⟨k, hkA, hlt.trans_le (hterm k hkB), hX k⟩

/-- **Append**: the leader of a term appends an entry of that term.

**Proof sketch.** What remains of `Inv.extend` is completeness. If `X` ends with the new entry,
nobody has acknowledged it, and the servers of a later term never will. Otherwise `X` was a prefix
before, and the leader logs of later terms lacked it then. -/
theorem Inv.append (hg : Inv tm qs g) (hs : g.term s = t) (he : tm e = t)
    (h : g.leaderLog t = some (g.log s)) : Inv tm qs (g.extend s t e) := by
  refine hg.extend hs he (Or.inr h) (hg.elected t _ h) ?_
  intro t₁ t₂ L₁ L₂ X hlt hL₁ hL₂ hends hp hnot
  -- the leader log of `t₂` before the step lacks `X` too
  obtain ⟨L₂', hL₂', hp₂⟩ : ∃ L₂', g.leaderLog t₂ = some L₂' ∧ L₂' <+: L₂ := by
    rcases State.leaderLog_extend hL₂ with ⟨rfl, rfl⟩ | ⟨-, hL₂⟩
    · exact ⟨_, h, List.prefix_append _ _⟩
    · exact ⟨L₂, hL₂, List.prefix_rfl⟩
  have hnot' : ¬ X <+: L₂' := fun hp' => hnot (hp'.trans hp₂)
  rcases State.leaderLog_extend hL₁ with ⟨rfl, rfl⟩ | ⟨-, hL₁⟩
  · rcases List.prefix_concat_iff.mp hp with heq | hp
    · -- `X` ends with the new entry: nobody has acknowledged it
      refine hg.blocked_of_unacked hlt hL₂' fun k hk => ?_
      obtain ⟨-, L, hL, hXL⟩ := hg.acked_le hk
      rw [h] at hL
      obtain rfl : g.log s = L := by simpa using hL
      have := hXL.length_le
      simp only [heq, List.length_append, List.length_singleton] at this
      omega
    · exact hg.complete t₁ t₂ _ L₂' X hlt h hL₂' hends hp hnot'
  · exact hg.complete t₁ t₂ L₁ L₂' X hlt hL₁ hL₂' hends hp hnot'

/-- **Election**: a server that a quorum is pledged to becomes the leader of a term without a
leader log, with one entry of that term on top of its log.

**Proof sketch.** Two quorums have a server in common. In the quorum that would commit `X` in an
earlier term there is thus a server that is pledged: it has not acknowledged `X` and will not, or
the log of the new leader has `X`, or `X` is blocked already. -/
theorem Inv.elect (hg : Inv tm qs g) (hs : g.term s = t) (he : tm e = t)
    (hnone : g.leaderLog t = none) {A : Finset S} (hA : A ∈ qs.quorums)
    (hpledge : ∀ k ∈ A, g.Pledged tm qs k t (g.log s)) : Inv tm qs (g.extend s t e) := by
  refine hg.extend hs he (Or.inl hnone) ⟨A, hA, fun k hk => (hpledge k hk).1⟩ ?_
  intro t₁ t₂ L₁ L₂ X hlt hL₁ hL₂ hends hp hnot
  rcases State.leaderLog_extend hL₂ with ⟨rfl, rfl⟩ | ⟨-, hL₂'⟩
  · intro B hB
    obtain ⟨k, hkB, hkA⟩ := qs.inter B hB A hA
    obtain ⟨hterm, hX⟩ := hpledge k hkA
    by_cases hack : g.Acked k t₁ X
    · rcases hX t₁ hlt X hends hack with hp' | hb
      · exact absurd (hp'.trans (List.prefix_append _ _)) hnot
      · exact hb B hB
    · exact ⟨k, hkB, hlt.trans_le hterm, hack⟩
  · rcases State.leaderLog_extend hL₁ with ⟨rfl, -⟩ | ⟨-, hL₁⟩
    · refine hg.blocked_of_unacked hlt hL₂' fun k hk => ?_
      obtain ⟨-, L, hL, -⟩ := hg.acked_le hk
      rw [hnone] at hL
      simp at hL
    · exact hg.complete t₁ t₂ L₁ L₂ X hlt hL₁ hL₂' hends hp hnot

end Leader

/-! ## Pledges -/

omit [DecidableEq S]

/-- A server is pledged to its own log. -/
lemma Inv.pledged_self (hg : Inv tm qs g) {j : S} {t : ℕ} (ht : t ≤ g.term j) :
    g.Pledged tm qs j t (g.log j) := by
  refine ⟨ht, fun t' _ X hends hack => ?_⟩
  rcases hg.ack_held j t' X hack with h | ⟨t'', L'', hlt, -, hL'', hnot⟩
  · exact Or.inl h
  · obtain ⟨-, L, hL, hp⟩ := hg.acked_le hack
    exact Or.inr (hg.complete t' t'' L L'' X hlt hL hL'' hends hp hnot)

/-- A server is pledged to an anchored log that is at least as new as its own: its last entry is
of a later term, or of the same term and the log is no shorter.

**Proof sketch.** Let `X` be acknowledged, held by the server and not blocked. If the last entry of
`L` is of a later term, the leader log of that term has `X`, by completeness, and `L` cannot end
before `X` does. If the terms are equal, both logs are prefixes of one leader log and `L` is the
longer one. -/
lemma Inv.pledged_of_upToDate (hg : Inv tm qs g) {j : S} {t : ℕ} {L : List E}
    (ht : t ≤ g.term j) (hL : g.Anchored tm L)
    (hnew : ∀ P a, g.log j = P ++ [a] → ∃ P' b, L = P' ++ [b] ∧
      (tm a < tm b ∨ tm a = tm b ∧ (g.log j).length ≤ L.length)) :
    g.Pledged tm qs j t L := by
  refine ⟨ht, fun t' ht' X hends hack => ?_⟩
  rcases (hg.pledged_self ht).2 t' ht' X hends hack with hX | hb
  swap
  · exact Or.inr hb
  obtain ⟨P, a, ha⟩ : ∃ P a, g.log j = P ++ [a] := by
    rcases List.eq_nil_or_concat' (g.log j) with h | ⟨P, a, h⟩
    · rw [h] at hX
      exact absurd (List.prefix_nil.mp hX) hends.ne_nil
    · exact ⟨P, a, h⟩
  obtain ⟨P', b, hb, hcmp⟩ := hnew P a ha
  -- both logs are prefixes of the leader logs of their last terms
  obtain ⟨La, hLa, hpa⟩ := (hg.anchored_log j).prefix_leaderLog ⟨P, a, ha, rfl⟩
  obtain ⟨Lb, hLb, hpb⟩ := hL.prefix_leaderLog ⟨P', b, hb, rfl⟩
  rcases hcmp with hlt | ⟨heq, hlen⟩
  · obtain ⟨x, hx, hxt⟩ := hends.exists_mem
    have hxa : tm x ≤ tm a := hg.le_term _ La hLa x (hpa.subset (hX.subset hx))
    obtain ⟨-, L₀, hL₀, hXL₀⟩ := hg.acked_le hack
    by_cases hXb : X <+: Lb
    · rcases List.prefix_or_prefix_of_prefix hXb hpb with h | h
      · exact Or.inl h
      · -- all of `L`, its last entry included, would be in the leader log of `t'`
        have : tm b ≤ t' := hg.le_term t' L₀ hL₀ b ((h.trans hXL₀).subset (by rw [hb]; simp))
        omega
    · exact Or.inr (hg.complete t' (tm b) L₀ Lb X (by omega) hL₀ hLb hends hXL₀ hXb)
  · rw [heq, hLb] at hLa
    obtain rfl : Lb = La := by simpa using hLa
    exact Or.inl (hX.trans (List.prefix_of_prefix_length_le hpa hpb hlen))

/-- What is committed is in a log that a quorum is pledged to, before it becomes the leader log
of its term. -/
lemma State.CommittedBy.prefix_of_pledged {t : ℕ} {A : Finset S} {L X : List E}
    (hX : g.CommittedBy tm qs t X) (hnone : g.leaderLog t = none) (hA : A ∈ qs.quorums)
    (hpledge : ∀ k ∈ A, g.Pledged tm qs k t L) : X <+: L := by
  rcases hX with rfl | ⟨t₀, ht₀, Y, hY, hXY⟩
  · exact List.nil_prefix
  obtain ⟨hends, ⟨L₀, hL₀, -⟩, B, hB, hack⟩ := id hY
  have hlt : t₀ < t := by
    rcases ht₀.eq_or_lt with rfl | h
    · rw [hnone] at hL₀
      simp at hL₀
    · exact h
  obtain ⟨k, hkA, hkB⟩ := qs.inter A hA B hB
  rcases (hpledge k hkA).2 t₀ hlt Y hends (hack k hkB) with h | h
  · exact hXY.trans h
  · exact absurd h hY.not_blocked

end ReplicatedLog
