import Mathlib.Order.Lattice.Nat
import Mit6824.Raft.RootedLog

set_option autoImplicit false

/-!
# Fast backup

A follower that refuses an `AppendEntries` request cuts its log and tells the leader where to try
next: the conflicting term and the first index of that term in its log, or the length of its log
(`AppendEntries` and the conflict case of `doAppendEntriesRPC` in `raft/raft.go`). Let `A` be the
largest index at which the two logs have the same term. The follower keeps its log up to `A`, and
the leader goes back to an index above `A`.

## Main definitions

* `Mit6824.Raft.Mirrors` — what is assumed of the two logs.
* `Mit6824.Raft.Asks` — a request that goes out from a leader with its log.

## Main results

* `Mit6824.fast_backup`.
-/

namespace Mit6824

variable {n : ℕ} {Cmd Snap : Type}

namespace Raft

/-- Two logs with their roots and ascending terms that satisfy log matching, the leader's with an
entry for the follower's sentinel. -/
structure Mirrors (ld fl : Raft n Cmd Snap) : Prop where
  leader : ld.Rooted
  follower : fl.Rooted
  leaderTerms : ld.Ascending
  followerTerms : fl.Ascending
  matching : ∀ i, AgreeAt ld fl i → ∀ j ≤ i, ∀ a b, ld.logAt j = some a → fl.logAt j = some b →
    a.logTerm = b.logTerm
  base : AgreeAt ld fl fl.lastIncludedIndex

/-- A request of the leader `ld` with entries behind the index `prev` of its log. -/
structure Asks (ld : Raft n Cmd Snap) (args : AppendEntriesArgs n Cmd) (prev : ℕ) : Prop where
  term : args.leaderTerm = ld.currentTerm
  index : args.prevLogIndex = some prev
  entry : ∃ pe, ld.logAt prev = some pe ∧ args.prevLogTerm = some pe.logTerm

namespace Mirrors

variable {ld fl : Raft n Cmd Snap}

/-- There is a largest index at which the logs agree. -/
lemma exists_isGreatest (h : Mirrors ld fl) : ∃ A, IsGreatest {i | AgreeAt ld fl i} A := by
  have hbdd : BddAbove {i | AgreeAt ld fl i} := by
    refine ⟨fl.lastIndex, ?_⟩
    rintro i ⟨a, b, -, hb, -⟩
    exact (h.follower.le_of_logAt hb).2
  exact ⟨_, Nat.sSup_mem ⟨_, h.base⟩ hbdd, fun _ hi => le_csSup hbdd hi⟩

/-- At and above an index where the entries differ, the logs do not agree. -/
lemma lt_of_conflict (h : Mirrors ld fl) {A prev : ℕ} (hA : AgreeAt ld fl A) {pe old : LogEntry Cmd}
    (hpe : ld.logAt prev = some pe) (hold : fl.logAt prev = some old)
    (hne : pe.logTerm ≠ old.logTerm) : A < prev := by
  by_contra hle
  exact hne (h.matching A hA prev (not_lt.mp hle) pe old hpe hold)

/-- **The search stays above the agreement.** The leader looks for the last entry of the term `t`
that the follower has at a conflicting index, and goes back behind it, or to the follower's first
entry of that term if it has none. Both are above the largest index of agreement.

**Proof sketch.** The leader's entry at `A` has a term up to `t`, so the search finds an entry, at
`A` or above. If its term is `t` the next index is above it. If it is of an earlier term, the
leader has no entry of term `t`, so the term at `A` is earlier than `t`, and the follower's first
entry of term `t` is above `A`. -/
lemma lt_backup (h : Mirrors ld fl) {A : ℕ} (hA : AgreeAt ld fl A) {prev x : ℕ}
    {old first : LogEntry Cmd} (hold : fl.logAt prev = some old) (hlt : A < prev)
    (hfirst : fl.logAt x = some first) (hterm : first.logTerm = old.logTerm) (hx : x ≤ prev)
    (hprev : prev ≤ ld.lastIndex) :
    ∃ next, ld.backupScan old.logTerm x ld.lastIncludedIndex ld.lastIndex = some (some next) ∧
      A < next ∧ next ≤ ld.lastIndex + 1 := by
  obtain ⟨a, b, ha, hb, hab⟩ := hA
  have hle : a.logTerm ≤ old.logTerm := hab ▸ h.followerTerms.logTerm_le hlt.le hb hold
  obtain ⟨-, hAlast⟩ := h.leader.le_of_logAt ha
  obtain ⟨r, hr, ⟨-, hlater⟩ | ⟨i, e, he, hi, hlater, ⟨heq, rfl⟩ | ⟨hearlier, rfl⟩⟩⟩ :=
    backupScan_spec h.leader old.logTerm x ld.lastIndex le_rfl
  · have := hlater A a hAlast ha
    omega
  · refine ⟨i + 1, hr, ?_, by omega⟩
    by_contra hiA
    have := hlater A a (by omega) hAlast ha
    omega
  · refine ⟨x, hr, ?_, by omega⟩
    -- the leader has no entry of the conflicting term
    have hne : a.logTerm ≠ old.logTerm := by
      intro heq
      rcases Nat.lt_or_ge i A with hiA | hAi
      · have := hlater A a hiA hAlast ha
        omega
      · have := h.leaderTerms.logTerm_le hAi ha he
        omega
    by_contra hxA
    have := h.followerTerms.logTerm_le (not_lt.mp hxA) hfirst hb
    omega

section Refused

variable {l : Leader n} (hl : ld.leaderPtr = some l) (peer : Fin n)
  {args : AppendEntriesArgs n Cmd} {prev A : ℕ} (hasks : ld.Asks args prev)
  (hA : AgreeAt ld fl A) {reply : AppendEntriesReply} (hs : reply.success = false)
  (hterm : reply.followerTerm = args.leaderTerm)

include hl hasks hA hs hterm

/-- The previous entry is beyond the follower's log: the leader goes back to the end of that log. -/
lemma backup_beyond (h : Mirrors ld fl) (hx : reply.xterm = none)
    (hlen : reply.xlen = fl.lastIndex) (hlt : fl.lastIndex < prev) :
    ∃ ld', ld.appendReply peer args reply = .ok ld' () ∧ A < ld'.nextIndex peer ∧
      ld'.nextIndex peer ≤ ld.lastIndex + 1 := by
  obtain ⟨pe, hpe, -⟩ := hasks.entry
  obtain ⟨-, hprev⟩ := h.leader.le_of_logAt hpe
  obtain ⟨a, b, -, hb, -⟩ := hA
  obtain ⟨-, hAlast⟩ := h.follower.le_of_logAt hb
  refine ⟨_, (appendReply_refused peer hs hterm hasks.term.symm).trans
    (appendConflict_short hl peer hx), ?_⟩
  rw [nextIndex_setPeer]
  omega

/-- The previous entry differs: `A` is before it, and the leader's search ends above `A`. -/
lemma backup_conflict (h : Mirrors ld fl) {old : LogEntry Cmd} (hlow : fl.lastIncludedIndex ≤ prev)
    (hpos : fl.logs[prev - fl.lastIncludedIndex]? = some old)
    (hne : some old.logTerm ≠ args.prevLogTerm) (hx : reply.xterm = some old.logTerm)
    (hindex : reply.xindex =
      firstOfTerm fl.logs (prev - fl.lastIncludedIndex) old.logTerm) :
    A < prev ∧ ∃ ld', ld.appendReply peer args reply = .ok ld' () ∧ A < ld'.nextIndex peer ∧
      ld'.nextIndex peer ≤ ld.lastIndex + 1 := by
  obtain ⟨pe, hpe, hpt⟩ := hasks.entry
  obtain ⟨-, hprev⟩ := h.leader.le_of_logAt hpe
  have hold : fl.logAt prev = some old := logAt_eq_some_iff.mpr ⟨hlow, hpos⟩
  have hdiff : pe.logTerm ≠ old.logTerm := fun heq => hne (by rw [hpt, heq])
  have hlt := h.lt_of_conflict hA hpe hold hdiff
  have hbase := h.lt_of_conflict h.base hpe hold hdiff
  obtain ⟨-, hle, first, hfirst, hft⟩ := firstOfTerm_spec h.follower hpos (by omega)
  rw [← hindex] at hle hfirst
  obtain ⟨next, hscan, hAnext, hnext⟩ := h.lt_backup hA hold hlt hfirst hft (by omega) hprev
  refine ⟨hlt, _, (appendReply_refused peer hs hterm hasks.term.symm).trans
    (h.leader.appendConflict_term hl peer hx hscan), ?_⟩
  rw [nextIndex_setPeer]
  exact ⟨hAnext, hnext⟩

end Refused

end Mirrors

end Raft

open Raft

/-- **Fast backup never overshoots.** When the follower refuses a request whose previous index is
not under its snapshot, it keeps every entry up to the largest index `A` at which its log and the
leader's have the same term, and the leader's next index for it is above `A` and at most one behind
the leader's log.

**Proof sketch.** The request is refused because its previous entry is beyond the follower's log,
and then the next index is the one behind that log (`Mirrors.backup_beyond`); or because that entry
differs, and then `A` is below it by log matching, and the search of the leader ends above `A`
(`Mirrors.backup_conflict`). -/
theorem fast_backup {ld fl fl' : Raft n Cmd Snap} (h : Mirrors ld fl) {l : Leader n}
    (hl : ld.leaderPtr = some l) (peer : Fin n) {args : AppendEntriesArgs n Cmd} {prev : ℕ}
    (hasks : ld.Asks args prev) (hterm : fl.currentTerm ≤ args.leaderTerm)
    (hlow : fl.lastIncludedIndex ≤ prev) {reply : AppendEntriesReply}
    (hhandle : fl.appendEntries args = .ok fl' reply) (hs : reply.success = false) :
    ∃ A, IsGreatest {i | AgreeAt ld fl i} A ∧ (∀ i ≤ A, fl'.logAt i = fl.logAt i) ∧
      ∃ ld', ld.appendReply peer args reply = .ok ld' () ∧ A < ld'.nextIndex peer ∧
        ld'.nextIndex peer ≤ ld.lastIndex + 1 := by
  obtain ⟨A, hA⟩ := h.exists_isGreatest
  refine ⟨A, hA, ?_⟩
  have hspec := appendEntries_spec fl args
  rw [hhandle] at hspec
  generalize ho : Outcome.ok fl' reply = o at hspec
  cases hspec with
  | stale hlt => omega
  | heartbeat =>
    rw [reply_of_advanceCommit ho.symm] at hs
    cases hs
  | below _ _ hunder => exact absurd (hunder prev hasks.index) (not_lt.mpr hlow)
  | empty => cases ho
  | beyond _ _ prev' hprev' last hlast hlt =>
    cases ho
    obtain rfl : prev = prev' := Option.some.inj (hasks.index.symm.trans hprev')
    obtain ⟨last', hlast', hidx⟩ := h.follower.getLastLog
    obtain rfl : last' = last := Option.some.inj (hlast'.symm.trans hlast)
    exact ⟨fun i _ => rfl, h.backup_beyond hl peer hasks hA.1 hs rfl rfl hidx (hidx ▸ hlt)⟩
  | outside => cases ho
  | accept =>
    rw [reply_of_advanceCommit ho.symm] at hs
    cases hs
  | conflict _ _ prev' hprev' _ old hpos hne =>
    injection ho with hfl' hreply
    subst hreply
    obtain rfl : prev = prev' := Option.some.inj (hasks.index.symm.trans hprev')
    obtain ⟨hlt, hleader⟩ :=
      h.backup_conflict hl peer hasks hA.1 hs rfl hlow hpos hne rfl rfl
    have hlogs : fl'.logs = fl.logs.take (prev - fl.lastIncludedIndex) := by rw [hfl']; rfl
    have hbase : fl'.lastIncludedIndex = fl.lastIncludedIndex := by rw [hfl']; rfl
    refine ⟨fun i hi => ?_, hleader⟩
    rw [logAt_cut hlow hlogs hbase, if_pos (by omega)]

/-- A leader with two entries of term 2 behind the sentinel. -/
def freshLeader : Raft 3 Unit Unit :=
  { (Raft.make 0 {} : Raft 3 Unit Unit) with
    currentTerm := 2
    role := .leader
    logs := [⟨0, 0, none, 0, false⟩, ⟨2, 1, none, 0, true⟩, ⟨2, 2, some (), 1, false⟩]
    leaderPtr := some ⟨fun _ => 2, fun _ => 0⟩ }

/-- A follower with one entry of term 1 behind the sentinel. -/
def divergedFollower : Raft 3 Unit Unit :=
  { (Raft.make 1 {} : Raft 3 Unit Unit) with
    currentTerm := 1
    logs := [⟨0, 0, none, 0, false⟩, ⟨1, 1, none, 0, true⟩] }

/-- The leader sends its last entry. -/
def probe : AppendEntriesArgs 3 Unit :=
  ⟨2, 0, some 1, some 2, [⟨2, 2, some (), 1, false⟩], 0⟩

/-- The two logs match up to index 3. -/
lemma mirrors_diverged : Mirrors freshLeader divergedFollower where
  leader := ⟨rfl, _, rfl, rfl⟩
  follower := ⟨rfl, _, rfl, rfl⟩
  leaderTerms := by unfold Ascending; decide +kernel
  followerTerms := by unfold Ascending; decide +kernel
  matching := by
    rintro (_ | _ | i) ⟨a, b, ha, hb, hab⟩ j hj a' b' ha' hb'
    · obtain rfl : j = 0 := by omega
      cases ha'
      cases hb'
      rfl
    · cases ha
      cases hb
      cases hab
    · cases hb
  base := ⟨_, _, rfl, rfl, rfl⟩

/-- The follower refuses, and the leader goes back to the first entry that differs. -/
theorem fast_backup_diverged : ∃ fl' reply, divergedFollower.appendEntries probe = .ok fl' reply ∧
    reply.success = false ∧
    ∃ A, IsGreatest {i | AgreeAt freshLeader divergedFollower i} A ∧
      (∀ i ≤ A, fl'.logAt i = divergedFollower.logAt i) ∧
      ∃ ld', freshLeader.appendReply 1 probe reply = .ok ld' () ∧ A < ld'.nextIndex 1 ∧
        ld'.nextIndex 1 ≤ freshLeader.lastIndex + 1 :=
  ⟨_, _, rfl, rfl, fast_backup mirrors_diverged rfl 1 ⟨rfl, rfl, _, rfl, rfl⟩ (by decide)
    (by decide) rfl rfl⟩

end Mit6824
