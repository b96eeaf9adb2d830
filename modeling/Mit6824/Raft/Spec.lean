import Mathlib.Tactic.SplitIfs
import Mit6824.Raft.Calls

set_option autoImplicit false

/-!
# The cases of the critical sections that touch the log

For the handlers of `AppendEntries` and `InstallSnapshot`, for the requests a leader builds and
for its reply handling, the list of all ways in which they can end, each with what it has
checked. Later proofs go through these cases and never unfold the functions.

## Main definitions

* `Mit6824.Raft.AppendSpec`, `Mit6824.Raft.InstallSpec` — the ends of the two handlers.
* `Mit6824.Raft.AppendReplySpec`, `Mit6824.Raft.InstallReplySpec` — the ends of the reply handling
  of `doAppendEntriesRPC` and `doInstallSnapshotRPC`.
* `Mit6824.Raft.observe` — become a follower if the term is higher.

## Main results

* `Mit6824.Raft.appendEntries_spec`, `Mit6824.Raft.installSnapshot_spec`,
  `Mit6824.Raft.logsAfterInstall_cases`, `Mit6824.Raft.buildAppend_eq_some`.
* `Mit6824.Raft.appendReply_spec`, `Mit6824.Raft.installReply_spec`,
  `Mit6824.Raft.commitScan_cases`.
* `Mit6824.Raft.start_cases`, `Mit6824.Raft.becomeLeader_cases`,
  `Mit6824.Raft.startElection_cases`, `Mit6824.Raft.takeSnapshot_cases`,
  `Mit6824.Raft.requestVoteCheck_cases`.
* `Mit6824.Raft.observe_rule`, `Mit6824.Raft.requestVoteGrant_rule` — properties of the server
  after a step of a handler.
-/

namespace Mit6824

namespace Raft

variable {n : ℕ} {Cmd Snap : Type}

/-! ## `AppendEntries` -/

/-- The ends of `AppendEntries`. -/
inductive AppendSpec (rf : Raft n Cmd Snap) (args : AppendEntriesArgs n Cmd) :
    Outcome n Cmd Snap AppendEntriesReply → Prop
  /-- the request is of an old term -/
  | stale (h : args.leaderTerm < rf.currentTerm) :
      AppendSpec rf args (.ok rf { followerTerm := rf.currentTerm, success := false })
  /-- a heartbeat: only the commit index moves -/
  | heartbeat (h : rf.currentTerm ≤ args.leaderTerm) (he : args.entries = []) :
      AppendSpec rf args ((rf.becomeFollower args.leaderTerm).advanceCommit args.leaderCommit
        { followerTerm := args.leaderTerm, success := true })
  /-- the previous entry is under the snapshot -/
  | below (h : rf.currentTerm ≤ args.leaderTerm) (he : args.entries ≠ [])
      (hprev : ∀ prev ∈ args.prevLogIndex, prev < rf.lastIncludedIndex) :
      AppendSpec rf args (.ok (rf.becomeFollower args.leaderTerm)
        { followerTerm := args.leaderTerm, success := false, xterm := none })
  /-- the log has no last entry -/
  | empty (h : rf.currentTerm ≤ args.leaderTerm) (hlast : rf.getLastLog = none) :
      AppendSpec rf args (.panic .indexOutOfRange (rf.becomeFollower args.leaderTerm))
  /-- the previous entry is beyond the end of the log -/
  | beyond (h : rf.currentTerm ≤ args.leaderTerm) (he : args.entries ≠ []) (prev : ℕ)
      (hprev : args.prevLogIndex = some prev) (last : LogEntry Cmd)
      (hlast : rf.getLastLog = some last) (hlt : last.logIndex < prev) :
      AppendSpec rf args (.ok (rf.becomeFollower args.leaderTerm)
        { followerTerm := args.leaderTerm, success := false, xterm := none,
          xlen := last.logIndex })
  /-- the position of the previous entry is outside the slice -/
  | outside (h : rf.currentTerm ≤ args.leaderTerm) (prev : ℕ) (last : LogEntry Cmd)
      (hlow : rf.lastIncludedIndex ≤ prev) (hlast : rf.getLastLog = some last)
      (hle : prev ≤ last.logIndex) (hpos : rf.logs[prev - rf.lastIncludedIndex]? = none) :
      AppendSpec rf args (.panic .indexOutOfRange (rf.becomeFollower args.leaderTerm))
  /-- the previous entry agrees: the log is cut and the entries are appended -/
  | accept (h : rf.currentTerm ≤ args.leaderTerm) (he : args.entries ≠ []) (prev : ℕ)
      (hprev : args.prevLogIndex = some prev) (hlow : rf.lastIncludedIndex ≤ prev)
      (old : LogEntry Cmd) (hpos : rf.logs[prev - rf.lastIncludedIndex]? = some old)
      (hterm : some old.logTerm = args.prevLogTerm) :
      AppendSpec rf args (((rf.becomeFollower args.leaderTerm).adopt (prev - rf.lastIncludedIndex)
        args.entries).advanceCommit args.leaderCommit
        { followerTerm := args.leaderTerm, success := true })
  /-- the previous entry differs: the log is cut before it -/
  | conflict (h : rf.currentTerm ≤ args.leaderTerm) (he : args.entries ≠ []) (prev : ℕ)
      (hprev : args.prevLogIndex = some prev) (hlow : rf.lastIncludedIndex ≤ prev)
      (old : LogEntry Cmd) (hpos : rf.logs[prev - rf.lastIncludedIndex]? = some old)
      (hterm : some old.logTerm ≠ args.prevLogTerm) :
      AppendSpec rf args (.ok (persist { rf.becomeFollower args.leaderTerm with
          logs := rf.logs.take (prev - rf.lastIncludedIndex) })
        { followerTerm := args.leaderTerm, success := false, xterm := some old.logTerm,
          xindex := firstOfTerm rf.logs (prev - rf.lastIncludedIndex) old.logTerm })

/-- `AppendEntries` ends in one of these ways.

**Proof sketch.** By the branches of the handler, in the order of the source. -/
theorem appendEntries_spec (rf : Raft n Cmd Snap) (args : AppendEntriesArgs n Cmd) :
    AppendSpec rf args (rf.appendEntries args) := by
  unfold appendEntries
  split_ifs with hlt
  · exact .stale hlt
  · have h : rf.currentTerm ≤ args.leaderTerm := not_lt.mp hlt
    dsimp only
    split
    · rename_i he
      exact .heartbeat h he
    · rename_i he hprev
      exact .below h (by simp [he]) (by simp [hprev])
    · rename_i e es prev he hprev
      have hne : args.entries ≠ [] := by simp [he]
      have hlogs : (rf.becomeFollower args.leaderTerm).getLastLog = rf.getLastLog := rfl
      split_ifs with hlow
      · refine .below h hne fun p hp => ?_
        obtain rfl : prev = p := by simpa [hprev] using hp
        exact hlow
      · have hlow' : rf.lastIncludedIndex ≤ prev := not_lt.mp hlow
        split
        · rename_i hnone
          exact .empty h (hlogs ▸ hnone)
        · rename_i last hlast
          rw [hlogs] at hlast
          split_ifs with hle
          · split
            · rename_i hpos
              exact .outside h prev last hlow' hlast hle hpos
            · rename_i old hpos
              split_ifs with hterm
              · rw [← he]
                exact .accept h hne prev hprev hlow' old hpos hterm
              · exact .conflict h hne prev hprev hlow' old hpos hterm
          · exact .beyond h hne prev hprev last hlast (not_le.mp hle)

/-! ## `InstallSnapshot` -/

/-- Become a follower if the term is higher than the present one. -/
def observe (rf : Raft n Cmd Snap) (t : ℕ) : Raft n Cmd Snap :=
  if rf.currentTerm < t then rf.becomeFollower t else rf

/-- What holds of the server, and of the server as a follower of a later term. -/
lemma observe_rule {P : Raft n Cmd Snap → Prop} {rf : Raft n Cmd Snap} (t : ℕ) (h : P rf)
    (hfollow : rf.currentTerm < t → P (rf.becomeFollower t)) : P (rf.observe t) := by
  unfold observe
  split_ifs with hlt
  · exact hfollow hlt
  · exact h

/-- Seeing a term leaves the log. -/
@[simp] lemma logs_observe (rf : Raft n Cmd Snap) (t : ℕ) : (rf.observe t).logs = rf.logs :=
  observe_rule (P := fun r => r.logs = rf.logs) t rfl fun _ => rfl

/-- Seeing a term leaves the last entry. -/
lemma getLastLog_observe (rf : Raft n Cmd Snap) (t : ℕ) :
    (rf.observe t).getLastLog = rf.getLastLog := by
  rw [getLastLog, logs_observe, getLastLog]

/-- Seeing a term leaves the index of the snapshot. -/
@[simp] lemma lastIncludedIndex_observe (rf : Raft n Cmd Snap) (t : ℕ) :
    (rf.observe t).lastIncludedIndex = rf.lastIncludedIndex :=
  observe_rule (P := fun r => r.lastIncludedIndex = rf.lastIncludedIndex) t rfl fun _ => rfl

/-- Seeing a term leaves the term of the snapshot. -/
@[simp] lemma lastIncludedTerm_observe (rf : Raft n Cmd Snap) (t : ℕ) :
    (rf.observe t).lastIncludedTerm = rf.lastIncludedTerm :=
  observe_rule (P := fun r => r.lastIncludedTerm = rf.lastIncludedTerm) t rfl fun _ => rfl

/-- Seeing a term leaves the commit index. -/
@[simp] lemma commitIndex_observe (rf : Raft n Cmd Snap) (t : ℕ) :
    (rf.observe t).commitIndex = rf.commitIndex :=
  observe_rule (P := fun r => r.commitIndex = rf.commitIndex) t rfl fun _ => rfl

/-- Seeing a term sends nothing. -/
@[simp] lemma applyChan_observe (rf : Raft n Cmd Snap) (t : ℕ) :
    (rf.observe t).applyChan = rf.applyChan :=
  observe_rule (P := fun r => r.applyChan = rf.applyChan) t rfl fun _ => rfl

/-- The term is the larger one. -/
lemma currentTerm_observe (rf : Raft n Cmd Snap) (t : ℕ) :
    (rf.observe t).currentTerm = max rf.currentTerm t := by
  unfold observe
  split_ifs with hlt
  · exact (max_eq_right hlt.le).symm
  · exact (max_eq_left (not_lt.mp hlt)).symm

/-- What a snapshot leaves of the log does not depend on the term. -/
lemma logsAfterInstall_observe (rf : Raft n Cmd Snap) (t : ℕ) (args : InstallSnapshotArgs n Snap) :
    (rf.observe t).logsAfterInstall args = rf.logsAfterInstall args := by
  unfold logsAfterInstall logAt
  rw [getLastLog_observe, logs_observe, lastIncludedIndex_observe]

/-- The ends of `InstallSnapshot`. -/
inductive InstallSpec (rf : Raft n Cmd Snap) (args : InstallSnapshotArgs n Snap) :
    Outcome n Cmd Snap InstallSnapshotReply → Prop
  | stale (h : args.term < rf.currentTerm) : InstallSpec rf args (.ok rf ⟨rf.currentTerm⟩)
  | behind (h : rf.currentTerm ≤ args.term) (hle : args.lastIncludedIndex ≤ rf.lastIncludedIndex) :
      InstallSpec rf args (.ok (rf.observe args.term) ⟨rf.currentTerm⟩)
  | panic (h : rf.currentTerm ≤ args.term) (hlt : rf.lastIncludedIndex < args.lastIncludedIndex)
      (hlogs : rf.logsAfterInstall args = none) :
      InstallSpec rf args (.panic .indexOutOfRange (rf.observe args.term))
  | install (h : rf.currentTerm ≤ args.term)
      (hlt : rf.lastIncludedIndex < args.lastIncludedIndex) (logs : List (LogEntry Cmd))
      (hlogs : rf.logsAfterInstall args = some logs) :
      InstallSpec rf args (.ok (installSnapshotToApplication (saveStateAndSnapshot
        { rf.observe args.term with
          logs := logs
          lastIncludedIndex := args.lastIncludedIndex
          lastIncludedTerm := args.lastIncludedTerm
          lastIncludedCmdIndex := args.lastIncludedCmdIndex } args.data)) ⟨rf.currentTerm⟩)

/-- `InstallSnapshot` ends in one of these ways.

**Proof sketch.** By the branches of the handler; noting the term changes neither the snapshot nor
the log. -/
theorem installSnapshot_spec (rf : Raft n Cmd Snap) (args : InstallSnapshotArgs n Snap) :
    InstallSpec rf args (rf.installSnapshot args) := by
  unfold installSnapshot
  dsimp only
  split
  · rename_i hlt
    exact .stale hlt
  · rename_i hlt
    have h : rf.currentTerm ≤ args.term := not_lt.mp hlt
    rw [show (if rf.currentTerm < args.term then rf.becomeFollower args.term else rf) =
      rf.observe args.term from rfl, lastIncludedIndex_observe, logsAfterInstall_observe]
    split
    · rename_i hle
      exact .behind h hle
    · rename_i hle
      have hlt' := not_le.mp hle
      split
      · rename_i hnone
        exact .panic h hlt' hnone
      · rename_i logs hsome
        exact .install h hlt' logs hsome

/-- What remains of the log under an installed snapshot: nothing, because the snapshot reaches
the end of the log or disagrees with it; or the entries above it.

**Proof sketch.** By the branches of the function; the two that panic return no log. -/
lemma logsAfterInstall_cases {rf : Raft n Cmd Snap} {args : InstallSnapshotArgs n Snap}
    {logs : List (LogEntry Cmd)} (h : rf.logsAfterInstall args = some logs) :
    ∃ last, rf.getLastLog = some last ∧
      ((last.logIndex ≤ args.lastIncludedIndex ∧ logs = [dummyLog args.lastIncludedIndex
          args.lastIncludedTerm args.lastIncludedCmdIndex]) ∨
        ∃ e, args.lastIncludedIndex < last.logIndex ∧ rf.logAt args.lastIncludedIndex = some e ∧
          ((e.logTerm ≠ args.lastIncludedTerm ∧ logs = [dummyLog args.lastIncludedIndex
            args.lastIncludedTerm args.lastIncludedCmdIndex]) ∨
          (e.logTerm = args.lastIncludedTerm ∧
            logs = markSentinel (copyInto (last.logIndex - args.lastIncludedIndex + 1)
              (rf.logs.drop (args.lastIncludedIndex - rf.lastIncludedIndex)))))) := by
  unfold logsAfterInstall at h
  dsimp only at h
  split at h
  · simp at h
  · rename_i last hlast
    refine ⟨last, hlast, ?_⟩
    split_ifs at h with hlt
    · split at h
      · simp at h
      · rename_i e he
        split_ifs at h with hterm
        · exact Or.inr ⟨e, hlt, he, Or.inl ⟨hterm, (Option.some.inj h).symm⟩⟩
        · exact Or.inr ⟨e, hlt, he, Or.inr ⟨not_not.mp hterm, (Option.some.inj h).symm⟩⟩
    · exact Or.inl ⟨not_lt.mp hlt, (Option.some.inj h).symm⟩

/-! ## Replies -/

/-- The ends of the commit rule: there is nothing to commit, an entry is outside the slice, or
the first entry from above that has enough replicas is committed.

**Proof sketch.** Induction on the index from which the scan starts. -/
lemma commitScan_cases (rf : Raft n Cmd Snap) (l : Leader n) (peer : Fin n) (k : ℕ) :
    rf.commitScan l peer k = .ok rf () ∨
    (∃ i ≤ k, rf.commitIndex < i ∧ rf.logAt i = none ∧
      rf.commitScan l peer k = .panic .indexOutOfRange rf) ∨
    ∃ i ≤ k, ∃ e, rf.commitIndex < i ∧ rf.logAt i = some e ∧ e.logTerm = rf.currentTerm ∧
      quorumSize n ≤ rf.replicaCount l peer i ∧ rf.commitScan l peer k = rf.commitUpTo i := by
  induction k with
  | zero => exact Or.inl rfl
  | succ k ih =>
    unfold commitScan
    split
    · rename_i hlt
      split
      · rename_i hnone
        exact Or.inr (Or.inl ⟨k + 1, le_rfl, hlt, hnone, rfl⟩)
      · rename_i e he
        split_ifs with hterm hcount
        · exact Or.inr (Or.inr ⟨k + 1, le_rfl, e, hlt, he, hterm, hcount, rfl⟩)
        · rcases ih with ih | ⟨i, hi, ih⟩ | ⟨i, hi, ih⟩
          · exact Or.inl ih
          · exact Or.inr (Or.inl ⟨i, hi.trans (Nat.le_succ k), ih⟩)
          · exact Or.inr (Or.inr ⟨i, hi.trans (Nat.le_succ k), ih⟩)
        · exact Or.inl rfl
    · exact Or.inl rfl

/-- The ends of the handling of a success reply. -/
lemma appendSuccess_cases (rf : Raft n Cmd Snap) (peer : Fin n) (last : ℕ) :
    (rf.leaderPtr = none ∧ rf.appendSuccess peer last = .panic .nilPointer rf) ∨
    ∃ l, rf.leaderPtr = some l ∧
      (rf.appendSuccess peer last =
          .ok { rf with leaderPtr := some (setPeer l peer (last + 1) last) } () ∨
        rf.appendSuccess peer last =
          commitScan { rf with leaderPtr := some (setPeer l peer (last + 1) last) }
            (setPeer l peer (last + 1) last) peer last) := by
  unfold appendSuccess
  split
  · rename_i hptr
    exact Or.inl ⟨hptr, rfl⟩
  · rename_i l hptr
    refine Or.inr ⟨l, hptr, ?_⟩
    dsimp only
    split_ifs
    · exact Or.inr rfl
    · exact Or.inl rfl

/-- The handling of a conflict reply changes the next index of the peer or panics. -/
lemma appendConflict_cases (rf : Raft n Cmd Snap) (peer : Fin n) (reply : AppendEntriesReply) :
    (∃ l next, rf.leaderPtr = some l ∧ rf.appendConflict peer reply =
      .ok { rf with leaderPtr := some (setPeer l peer next (l.matchIndexs peer)) } ()) ∨
    (rf.leaderPtr = none ∧ rf.appendConflict peer reply = .panic .nilPointer rf) ∨
    rf.appendConflict peer reply = .panic .indexOutOfRange rf := by
  unfold appendConflict
  split
  · split
    · rename_i hptr
      exact Or.inr (Or.inl ⟨hptr, rfl⟩)
    · rename_i l hptr
      exact Or.inl ⟨l, _, hptr, rfl⟩
  · split
    · split
      · exact Or.inr (Or.inr rfl)
      · split
        · rename_i hptr
          exact Or.inr (Or.inl ⟨hptr, rfl⟩)
        · rename_i l hptr
          exact Or.inl ⟨l, _, hptr, rfl⟩
    · exact Or.inr (Or.inr rfl)

/-- The ends of the reply handling of `doAppendEntriesRPC`. -/
inductive AppendReplySpec (rf : Raft n Cmd Snap) (peer : Fin n) (args : AppendEntriesArgs n Cmd)
    (reply : AppendEntriesReply) : Outcome n Cmd Snap Unit → Prop
  /-- the reply is to a request of another term, or to a heartbeat -/
  | keep (hnot : ¬ (reply.success = false ∧ args.leaderTerm < reply.followerTerm)) :
      AppendReplySpec rf peer args reply (.ok rf ())
  /-- a heartbeat whose server is no leader any more -/
  | noLeader (hs : reply.success = true) (hptr : rf.leaderPtr = none) :
      AppendReplySpec rf peer args reply (.panic .nilPointer rf)
  /-- a heartbeat, and the log has no last entry -/
  | empty (hs : reply.success = true) (hlast : rf.getLastLog = none) :
      AppendReplySpec rf peer args reply (.panic .indexOutOfRange rf)
  | success (hs : reply.success = true) (hT : rf.currentTerm = args.leaderTerm)
      (e : LogEntry Cmd) (he : args.entries.getLast? = some e) :
      AppendReplySpec rf peer args reply (rf.appendSuccess peer e.logIndex)
  /-- the reply is of a higher term than the request -/
  | follow (hs : reply.success = false) (hlt : args.leaderTerm < reply.followerTerm) :
      AppendReplySpec rf peer args reply (.ok (rf.becomeFollower reply.followerTerm) ())
  | conflict (hs : reply.success = false) (hle : reply.followerTerm ≤ args.leaderTerm)
      (hT : rf.currentTerm = args.leaderTerm) :
      AppendReplySpec rf peer args reply (rf.appendConflict peer reply)

/-- The reply handling ends in one of these ways. -/
theorem appendReply_spec (rf : Raft n Cmd Snap) (peer : Fin n) (args : AppendEntriesArgs n Cmd)
    (reply : AppendEntriesReply) :
    AppendReplySpec rf peer args reply (rf.appendReply peer args reply) := by
  unfold appendReply
  split
  · rename_i hs
    split
    · exact .keep (by simp [hs])
    · rename_i hT
      split
      · rename_i e he
        exact .success hs (not_not.mp hT) e he
      · split
        · rename_i hptr
          exact .noLeader hs hptr
        · rename_i hlast
          exact .empty hs hlast
        · exact .keep (by simp [hs])
  · rename_i hs
    rw [Bool.not_eq_true] at hs
    split_ifs with hlt hT
    · exact .follow hs hlt
    · exact .keep fun h => hlt h.2
    · exact .conflict hs (not_lt.mp hlt) (not_not.mp hT)

/-- The ends of the reply handling of `doInstallSnapshotRPC`. -/
inductive InstallReplySpec (rf : Raft n Cmd Snap) (peer : Fin n)
    (args : InstallSnapshotArgs n Snap) (reply : InstallSnapshotReply) :
    Outcome n Cmd Snap Unit → Prop
  | stale (hT : rf.currentTerm ≠ args.term) : InstallReplySpec rf peer args reply (.ok rf ())
  | follow (hT : rf.currentTerm = args.term) (hlt : rf.currentTerm < reply.term) :
      InstallReplySpec rf peer args reply (.ok (rf.becomeFollower reply.term) ())
  | noLeader (hT : rf.currentTerm = args.term) (hle : reply.term ≤ rf.currentTerm)
      (hptr : rf.leaderPtr = none) : InstallReplySpec rf peer args reply (.panic .nilPointer rf)
  | record (hT : rf.currentTerm = args.term) (hle : reply.term ≤ rf.currentTerm) (l : Leader n)
      (hptr : rf.leaderPtr = some l) : InstallReplySpec rf peer args reply (.ok { rf with
        leaderPtr := some (setPeer l peer (args.lastIncludedIndex + 1) args.lastIncludedIndex) } ())

/-- The reply handling ends in one of these ways. -/
theorem installReply_spec (rf : Raft n Cmd Snap) (peer : Fin n) (args : InstallSnapshotArgs n Snap)
    (reply : InstallSnapshotReply) :
    InstallReplySpec rf peer args reply (rf.installReply peer args reply) := by
  unfold installReply
  split_ifs with hT hlt
  · exact .stale hT
  · exact .follow (not_not.mp hT) hlt
  · split
    · rename_i hptr
      exact .noLeader (not_not.mp hT) (not_lt.mp hlt) hptr
    · rename_i l hptr
      exact .record (not_not.mp hT) (not_lt.mp hlt) l hptr

/-! ## The other sections -/

/-- The requests of a leader: a heartbeat when the peer has everything, else all entries from
the next index on. -/
lemma buildAppend_eq_some {rf rf' : Raft n Cmd Snap} {peer : Fin n}
    {args : AppendEntriesArgs n Cmd} (h : rf.buildAppend peer = .ok rf' (some args)) :
    rf' = rf ∧ ∃ last l, rf.getLastLog = some last ∧ rf.leaderPtr = some l ∧
      ((last.logIndex < l.nextIndexs peer ∧
          args = ⟨rf.currentTerm, rf.me, none, none, [], rf.commitIndex⟩) ∨
        ∃ prev, rf.lastIncludedIndex < l.nextIndexs peer ∧ l.nextIndexs peer ≤ last.logIndex ∧
          rf.logs[l.nextIndexs peer - rf.lastIncludedIndex - 1]? = some prev ∧
          args = ⟨rf.currentTerm, rf.me, some prev.logIndex, some prev.logTerm,
            rf.logs.drop (l.nextIndexs peer - rf.lastIncludedIndex), rf.commitIndex⟩) := by
  unfold buildAppend at h
  split at h
  · simp at h
  · simp at h
  · rename_i last l hlast hl
    dsimp only at h
    split_ifs at h with h1 h2
    · simp at h
    · split at h
      · simp at h
      · rename_i prev hprev
        simp only [Outcome.ok.injEq, Option.some.injEq] at h
        exact ⟨h.1.symm, last, l, hlast, hl, Or.inr ⟨prev, not_le.mp h2, h1, hprev, h.2.symm⟩⟩
    · simp only [Outcome.ok.injEq, Option.some.injEq] at h
      exact ⟨h.1.symm, last, l, hlast, hl, Or.inl ⟨not_le.mp h1, h.2.symm⟩⟩

/-- The ends of `TakeSnapshot`. -/
lemma takeSnapshot_cases (rf : Raft n Cmd Snap) (snapshot : Option Snap) (k : ℕ) :
    (k ≤ rf.lastIncludedIndex ∧ rf.takeSnapshot snapshot k = .ok rf ()) ∨
    (rf.lastIncludedIndex < k ∧ rf.logAt k = none ∧
      rf.takeSnapshot snapshot k = .panic .indexOutOfRange rf) ∨
    ∃ e, rf.lastIncludedIndex < k ∧ rf.logAt k = some e ∧
      rf.takeSnapshot snapshot k = .ok (saveStateAndSnapshot { rf with
        logs := dropCommand (rf.logs.drop (k - rf.lastIncludedIndex))
        lastIncludedIndex := k
        lastIncludedTerm := e.logTerm
        lastIncludedCmdIndex := e.commandIndex } snapshot) () := by
  unfold takeSnapshot
  split_ifs with hle
  · exact Or.inl ⟨hle, rfl⟩
  · have hlt := not_le.mp hle
    split
    · rename_i hnone
      exact Or.inr (Or.inl ⟨hlt, hnone, rfl⟩)
    · rename_i e he
      exact Or.inr (Or.inr ⟨e, hlt, he, rfl⟩)

/-- The ends of `Start`. -/
lemma start_cases (rf : Raft n Cmd Snap) (command : Cmd) :
    (rf.role ≠ .leader ∧ rf.start command = .ok rf none) ∨
    (rf.getLastLog = none ∧ rf.start command = .panic .indexOutOfRange rf) ∨
    ∃ last, rf.getLastLog = some last ∧
      rf.start command = .ok (persist { rf with logs := rf.logs ++
        [⟨rf.currentTerm, last.logIndex + 1, some command, last.commandIndex + 1, false⟩] })
        (some (last.commandIndex + 1, rf.currentTerm)) := by
  unfold start
  split_ifs with hrole
  · exact Or.inl ⟨hrole, rfl⟩
  · split
    · rename_i hnone
      exact Or.inr (Or.inl ⟨hnone, rfl⟩)
    · rename_i last hlast
      exact Or.inr (Or.inr ⟨last, hlast, rfl⟩)

/-- The ends of `becomeLeader`. -/
lemma becomeLeader_cases (rf : Raft n Cmd Snap) :
    (rf.getLastLog = none ∧ rf.becomeLeader = .panic .indexOutOfRange
      { rf with role := .leader, leaderPtr := some ⟨fun _ => 0, fun _ => 0⟩ }) ∨
    ∃ last, rf.getLastLog = some last ∧ rf.becomeLeader = .ok (persist { rf with
      role := .leader
      leaderPtr := some ⟨fun _ => last.logIndex + 1, fun _ => 0⟩
      logs := rf.logs ++ [⟨rf.currentTerm, last.logIndex + 1, none, last.commandIndex, true⟩] })
      () := by
  unfold becomeLeader
  split
  · rename_i hnone
    exact Or.inl ⟨hnone, rfl⟩
  · rename_i last hlast
    exact Or.inr ⟨last, hlast, rfl⟩

/-- The server as a candidate of the next term. -/
def candidacy (rf : Raft n Cmd Snap) : Raft n Cmd Snap :=
  persist { rf with currentTerm := rf.currentTerm + 1, role := .candicate, votedFor := some rf.me }

/-- The ends of a turn of `StartElection`. -/
lemma startElection_cases (rf : Raft n Cmd Snap) :
    (rf.role = .leader ∧ rf.startElection = .ok rf none) ∨
    (rf.role ≠ .leader ∧ rf.getLastLog = none ∧
      rf.startElection = .panic .indexOutOfRange rf.candidacy) ∨
    ∃ last, rf.role ≠ .leader ∧ rf.getLastLog = some last ∧ rf.startElection =
      .ok rf.candidacy (some ⟨rf.currentTerm + 1, rf.me, last.logIndex, last.logTerm⟩) := by
  unfold startElection
  split_ifs with hrole
  · exact Or.inl ⟨hrole, rfl⟩
  · dsimp only
    split
    · rename_i hnone
      exact Or.inr (Or.inl ⟨hrole, hnone, rfl⟩)
    · rename_i last hlast
      exact Or.inr (Or.inr ⟨last, hrole, hlast, rfl⟩)

/-- What holds of the server, and of the server with its vote given. -/
lemma requestVoteGrant_rule {P : Raft n Cmd Snap → Prop} {rf : Raft n Cmd Snap}
    (args : RequestVoteArgs n) (h : P rf)
    (hgrant : P (persist { rf with votedFor := some args.candicateId })) :
    P (rf.requestVoteGrant args).1 := by
  unfold requestVoteGrant
  split_ifs
  · exact hgrant
  · exact h

/-- The first section of `RequestVote`. -/
lemma requestVoteCheck_cases (rf : Raft n Cmd Snap) (args : RequestVoteArgs n) :
    (rf.getLastLog = none ∧ rf.requestVoteCheck args =
      .panic .indexOutOfRange (rf.observe args.candicateTerm)) ∨
    ∃ last, rf.getLastLog = some last ∧ rf.requestVoteCheck args =
      .ok (rf.observe args.candicateTerm) ⟨(rf.observe args.candicateTerm).role,
        (rf.observe args.candicateTerm).currentTerm, last.logIndex, last.logTerm⟩ := by
  unfold requestVoteCheck
  rw [show (if rf.currentTerm < args.candicateTerm then rf.becomeFollower args.candicateTerm
    else rf) = rf.observe args.candicateTerm from rfl]
  dsimp only
  rw [getLastLog_observe]
  split
  · rename_i hnone
    exact Or.inl ⟨hnone, rfl⟩
  · rename_i last hsome
    exact Or.inr ⟨last, hsome, rfl⟩

end Raft

end Mit6824
