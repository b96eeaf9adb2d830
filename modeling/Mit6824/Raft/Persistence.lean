import Mit6824.Raft.Operations

set_option autoImplicit false

/-!
# A crash loses nothing persistent

After every sequence of operations a fresh `Make` over the persister finds the six persistent
values as they are in memory, provided the log is not empty, and the stored snapshot is the one
that was saved together with the present `lastIncludedIndex`.

## Main definitions

* `Mit6824.Raft.saves` — the index and the snapshot that an operation hands to
  `SaveStateAndSnapshot`, if it gets there.
* `Mit6824.Raft.lastSaved` — the pair saved last in a sequence of operations.

## Main results

* `Mit6824.crash_loses_nothing`.
-/

namespace Mit6824

variable {n : ℕ} {Cmd Snap : Type}

namespace Raft

/-- The index and the snapshot that an operation saves in one call: `InstallSnapshot` when the
request is neither old nor behind, `TakeSnapshot` when it is not behind, both unless they
panic first. -/
def saves (rf : Raft n Cmd Snap) : Operation n Cmd Snap → Option (ℕ × Option Snap)
  | .installSnapshot args =>
    if rf.currentTerm ≤ args.term ∧ rf.lastIncludedIndex < args.lastIncludedIndex ∧
        (rf.logsAfterInstall args).isSome then
      some (args.lastIncludedIndex, args.data)
    else none
  | .takeSnapshot snapshot index =>
    if rf.lastIncludedIndex < index ∧ (rf.logAt index).isSome then some (index, snapshot) else none
  | _ => none

/-- The index and the snapshot that were saved together last, `pair` being the one before the
operations. -/
def lastSaved (rf : Raft n Cmd Snap) (pair : ℕ × Option Snap) :
    List (Operation n Cmd Snap) → ℕ × Option Snap
  | [] => pair
  | op :: ops => (rf.perform op).state.lastSaved ((rf.saves op).getD pair) ops

/-- The index of the snapshot in use and the stored snapshot. -/
def stored (rf : Raft n Cmd Snap) : ℕ × Option Snap := (rf.lastIncludedIndex, rf.persister.snapshot)

/-! ## One operation -/

variable {rf : Raft n Cmd Snap}

/-- `RequestVote` leaves the persister up to date. -/
lemma Saved.requestVote (h : rf.Saved) (args : RequestVoteArgs n) :
    (rf.requestVote args).state.Saved := by
  rcases state_requestVote rf args with heq | heq <;> rw [heq]
  · exact h.requestVoteCheck args
  · exact (h.requestVoteCheck args).requestVoteGrant args

/-- Every operation saves what it changes. -/
lemma Saved.perform (h : rf.Saved) (op : Operation n Cmd Snap) : (rf.perform op).state.Saved := by
  cases op with
  | becomeFollower t => exact saved_becomeFollower rf t
  | becomeLeader => simpa [Raft.perform] using h.becomeLeader
  | requestVoteCheck args => simpa [Raft.perform] using h.requestVoteCheck args
  | requestVoteGrant args => exact h.requestVoteGrant args
  | requestVote args => simpa [Raft.perform] using h.requestVote args
  | appendEntries args => simpa [Raft.perform] using h.appendEntries args
  | startElection => simpa [Raft.perform] using h.startElection
  | start command => simpa [Raft.perform] using h.start command
  | installSnapshot args => simpa [Raft.perform] using h.installSnapshot args
  | takeSnapshot snapshot k => simpa [Raft.perform] using h.takeSnapshot snapshot k
  | appendReply peer args reply => simpa [Raft.perform] using h.appendReply peer args reply
  | installReply peer args reply => simpa [Raft.perform] using h.installReply peer args reply
  | crash => exact saved_make _ _

/-- After every sequence of operations the persister is up to date. -/
lemma saved_after (me : Fin n) (p : Persister n Cmd Snap) (ops : List (Operation n Cmd Snap)) :
    ((make me p).after ops).Saved :=
  after_induct (saved_make me p) (fun _ op h => h.perform op) ops

/-- Seeing a term leaves the snapshot. -/
lemma stored_observe (rf : Raft n Cmd Snap) (t : ℕ) : (rf.observe t).stored = rf.stored :=
  observe_rule (P := fun r => r.stored = rf.stored) t rfl fun _ => rfl

/-- Committing leaves the snapshot. -/
lemma stored_advanceCommit (rf : Raft n Cmd Snap) (leaderCommit : ℕ) (reply : AppendEntriesReply) :
    (rf.advanceCommit leaderCommit reply).state.stored = rf.stored := by
  obtain ⟨ms, i, j, heq⟩ := advanceCommit_eq rf leaderCommit reply
  rw [heq]
  rfl

/-- The first section of `RequestVote` leaves the snapshot. -/
lemma stored_requestVoteCheck (rf : Raft n Cmd Snap) (args : RequestVoteArgs n) :
    (rf.requestVoteCheck args).state.stored = rf.stored := by
  obtain ⟨-, heq⟩ | ⟨last, -, heq⟩ := requestVoteCheck_cases rf args <;> rw [heq] <;>
    exact stored_observe rf args.candicateTerm

/-- The second section of `RequestVote` leaves the snapshot. -/
lemma stored_requestVoteGrant (rf : Raft n Cmd Snap) (args : RequestVoteArgs n) :
    (rf.requestVoteGrant args).1.stored = rf.stored :=
  requestVoteGrant_rule (P := fun r => r.stored = rf.stored) args rfl rfl

/-- `AppendEntries` leaves the snapshot. -/
lemma stored_appendEntries (rf : Raft n Cmd Snap) (args : AppendEntriesArgs n Cmd) :
    (rf.appendEntries args).state.stored = rf.stored :=
  appendEntries_rule (P := fun r => r.stored = rf.stored) rfl
    (fun rf' k reply h => (stored_advanceCommit rf' k reply).trans h) (fun _ => rfl)
    (fun _ _ _ _ _ _ _ => rfl) (fun _ _ _ _ _ _ _ => rfl)

/-- `InstallSnapshot` stores what it saves, and leaves the stored pair alone otherwise. -/
lemma stored_installSnapshot (rf : Raft n Cmd Snap) (args : InstallSnapshotArgs n Snap) :
    (rf.installSnapshot args).state.stored = (rf.saves (.installSnapshot args)).getD rf.stored := by
  have hspec := installSnapshot_spec rf args
  generalize rf.installSnapshot args = o at hspec ⊢
  cases hspec with
  | stale h => rw [saves, if_neg fun hc => absurd hc.1 (not_le.mpr h)]; rfl
  | behind _ hle =>
    rw [saves, if_neg fun hc => absurd hc.2.1 (not_lt.mpr hle)]
    exact stored_observe rf args.term
  | panic _ _ hnone =>
    rw [saves, if_neg fun hc => by simp [hnone] at hc]
    exact stored_observe rf args.term
  | install hle hlt logs hsome => rw [saves, if_pos ⟨hle, hlt, by simp [hsome]⟩]; rfl

/-- `TakeSnapshot` saves its snapshot and index, or nothing. -/
lemma stored_takeSnapshot (rf : Raft n Cmd Snap) (snapshot : Option Snap) (k : ℕ) :
    (rf.takeSnapshot snapshot k).state.stored =
      (rf.saves (.takeSnapshot snapshot k)).getD rf.stored := by
  obtain ⟨hle, heq⟩ | ⟨hlt, hnone, heq⟩ | ⟨e, hlt, he, heq⟩ := takeSnapshot_cases rf snapshot k <;>
    rw [heq]
  · rw [saves, if_neg fun hc => absurd hc.1 (not_lt.mpr hle)]; rfl
  · rw [saves, if_neg fun hc => by simp [hnone] at hc]; rfl
  · rw [saves, if_pos ⟨hlt, by simp [he]⟩]; rfl

/-- A reply to `AppendEntries` leaves the snapshot. -/
lemma stored_appendReply (rf : Raft n Cmd Snap) (peer : Fin n) (args : AppendEntriesArgs n Cmd)
    (reply : AppendEntriesReply) : (rf.appendReply peer args reply).state.stored = rf.stored := by
  rcases appendReply_eq rf peer args reply with ⟨-, -, heq⟩ | ⟨-, l, ms, i, j, heq⟩ <;> rw [heq] <;>
    rfl

/-- A reply to `InstallSnapshot` leaves the snapshot. -/
lemma stored_installReply (rf : Raft n Cmd Snap) (peer : Fin n) (args : InstallSnapshotArgs n Snap)
    (reply : InstallSnapshotReply) :
    (rf.installReply peer args reply).state.stored = rf.stored := by
  have hspec := installReply_spec rf peer args reply
  generalize rf.installReply peer args reply = o at hspec
  cases hspec <;> rfl

/-- A restart finds the index of the stored snapshot. -/
lemma stored_make (h : rf.Saved) : (make rf.me rf.persister).stored = rf.stored := by
  have hidx : (make rf.me rf.persister).lastIncludedIndex = rf.addSentinel.lastIncludedIndex :=
    congrArg RaftState.lastIncludedIndex h
  have hadd : rf.addSentinel.lastIncludedIndex = rf.lastIncludedIndex := by
    unfold addSentinel
    split_ifs <;> rfl
  rw [stored, stored, hidx, hadd, persister_make]

/-- Every operation leaves in store the pair it saves, or the old one.

**Proof sketch.** By the operation. One that changes the term, the vote or the log saves in the same
section; each has its own lemma where there are cases. -/
lemma stored_perform (h : rf.Saved) (op : Operation n Cmd Snap) :
    (rf.perform op).state.stored = (rf.saves op).getD rf.stored := by
  cases op with
  | becomeFollower t => rfl
  | becomeLeader =>
    simp only [perform, Outcome.state_map, saves, Option.getD_none]
    obtain ⟨-, heq⟩ | ⟨last, -, heq⟩ := becomeLeader_cases rf <;> rw [heq] <;> rfl
  | requestVoteCheck args =>
    rw [perform, Outcome.state_map]
    exact stored_requestVoteCheck rf args
  | requestVoteGrant args => exact stored_requestVoteGrant rf args
  | requestVote args =>
    simp only [perform, Outcome.state_map, saves, Option.getD_none]
    rcases state_requestVote rf args with heq | heq <;> rw [heq]
    · exact stored_requestVoteCheck rf args
    · rw [stored_requestVoteGrant, stored_requestVoteCheck]
  | appendEntries args =>
    rw [perform, Outcome.state_map]
    exact stored_appendEntries rf args
  | startElection =>
    simp only [perform, Outcome.state_map, saves, Option.getD_none, state_startElection]
    split_ifs <;> rfl
  | start command =>
    simp only [perform, Outcome.state_map, saves, Option.getD_none]
    obtain ⟨-, heq⟩ | ⟨-, heq⟩ | ⟨last, -, heq⟩ := start_cases rf command <;> rw [heq] <;> rfl
  | installSnapshot args =>
    rw [perform, Outcome.state_map]
    exact stored_installSnapshot rf args
  | takeSnapshot snapshot k =>
    rw [perform, Outcome.state_map]
    exact stored_takeSnapshot rf snapshot k
  | appendReply peer args reply =>
    rw [perform, Outcome.state_map]
    exact stored_appendReply rf peer args reply
  | installReply peer args reply =>
    rw [perform, Outcome.state_map]
    exact stored_installReply rf peer args reply
  | crash => exact stored_make h

/-! ## Sequences of operations -/

/-- The snapshot in use and the stored one are those saved together last. The induction is on the
operations. -/
lemma stored_after : ∀ (ops : List (Operation n Cmd Snap)) (rf : Raft n Cmd Snap), rf.Saved →
    (rf.after ops).stored = rf.lastSaved rf.stored ops
  | [], _, _ => rfl
  | op :: ops, rf, h => by
    have hrest := stored_after ops (rf.perform op).state (h.perform op)
    rw [stored_perform h op] at hrest
    exact hrest

end Raft

/-- **A crash loses nothing persistent.** After every sequence of operations that leaves the log
non-empty, a fresh `Make` over the persister restores `currentTerm`, `votedFor`, `logs` and the
three values of the snapshot as they are in memory, and the stored snapshot is the one saved
together with the present `lastIncludedIndex`.

**Proof sketch.** Every operation saves what it changes, so `Make` restores the server up to the
sentinel of an empty log; and every operation that saves a snapshot saves it with its index. -/
theorem crash_loses_nothing (me : Fin n) (p : Persister n Cmd Snap)
    (ops : List (Operation n Cmd Snap)) {rf : Raft n Cmd Snap}
    (hrf : rf = (Raft.make me p).after ops) (hlogs : rf.logs ≠ []) :
    (Raft.make rf.me rf.persister).encodeRaftState = rf.encodeRaftState ∧
    (rf.lastIncludedIndex, rf.persister.snapshot) =
      (Raft.make me p).lastSaved ((Raft.make me p).lastIncludedIndex, p.snapshot) ops := by
  subst hrf
  have hsaved := Raft.saved_after me p ops
  refine ⟨?_, ?_⟩
  · have h : (Raft.make ((Raft.make me p).after ops).me
        ((Raft.make me p).after ops).persister).encodeRaftState =
        ((Raft.make me p).after ops).addSentinel.encodeRaftState := hsaved
    rwa [Raft.addSentinel_of_ne_nil hlogs] at h
  · have h := Raft.stored_after ops (Raft.make me p) (Raft.saved_make me p)
    rw [Raft.stored, Raft.stored, Raft.persister_make] at h
    exact h

/-- A server enters term 1, leads it, and its service takes a snapshot of the first entry; then a
request of term 2 arrives, and the server crashes before it votes. -/
def snapshotThenCrash : List (Operation 3 ℕ ℕ) :=
  [.startElection, .becomeLeader, .start 10, .takeSnapshot (some 7) 1,
    .requestVoteCheck ⟨2, 1, 5, 1⟩, .crash, .requestVoteGrant ⟨2, 1, 5, 1⟩]

/-- All six values and the snapshot are there after one more crash. -/
theorem crash_loses_nothing_first : ∃ rf : Raft 3 ℕ ℕ,
    rf = (Raft.make 0 {}).after snapshotThenCrash ∧
    rf.encodeRaftState =
      ⟨2, some 1, [⟨1, 1, none, 0, true⟩, ⟨1, 2, some 10, 1, false⟩], 1, 1, 0⟩ ∧
    (Raft.make rf.me rf.persister).encodeRaftState = rf.encodeRaftState ∧
    (rf.lastIncludedIndex, rf.persister.snapshot) = (1, some 7) := by
  have h := crash_loses_nothing 0 {} snapshotThenCrash rfl (by decide +kernel)
  exact ⟨_, rfl, by decide +kernel, h.1, h.2.trans (by decide +kernel)⟩

end Mit6824
