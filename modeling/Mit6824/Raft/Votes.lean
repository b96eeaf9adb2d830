import Mathlib.Data.Prod.Lex
import Mit6824.Raft.Elections
import Mit6824.Raft.Steering

set_option autoImplicit false

/-!
# What a server knows when it votes

`RequestVote` in `raft/raft.go` reads role, term and last log entry in one critical section,
compares them with the request with no lock held, and votes in a second critical section that looks
only at `votedFor` again. A vote is as good as its checks as long as nothing they looked at changes
between the two sections. It is shown here that this is enough, and that each of the three checks
can be out of date when the vote is given.

## Main definitions

* `Mit6824.Raft.MayVote` — what the checks of `RequestVote` are to ensure.
* `Mit6824.VoteSteady` — a step that keeps role and term and adds nothing to the log while a handler
  is between its sections.

## Main results

* `Mit6824.Node.mayVote_of_exec` — a handler that waits after a step has waited before it, or has
  just passed its checks.
* `Mit6824.granted_vote_valid`, `Mit6824.granted_vote_outdated`.
-/

namespace Mit6824

variable {n : ℕ} {Cmd Snap : Type}

/-! ## The checks -/

/-- How recent a log is by its last entry: term first, then index. -/
def LogEntry.recency (e : LogEntry Cmd) : ℕ ×ₗ ℕ := toLex (e.logTerm, e.logIndex)

/-- How recent the log of the candidate is. -/
def RequestVoteArgs.recency (args : RequestVoteArgs n) : ℕ ×ₗ ℕ :=
  toLex (args.lastLogTerm, args.lastLogIndex)

/-- The server may vote for the sender of this request: it is a follower in the term of the
request, and the candidate's log is at least as recent as its own. -/
structure Raft.MayVote (rf : Raft n Cmd Snap) (args : RequestVoteArgs n) : Prop where
  role : rf.role = .follower
  term : rf.currentTerm = args.candicateTerm
  log : ∃ last, rf.getLastLog = some last ∧ last.recency ≤ args.recency

/-- What lets checks made in `rf` stand in `rf'`: role and term are the same, and the log is not
more recent. -/
structure Raft.Steady (rf rf' : Raft n Cmd Snap) : Prop where
  role : rf'.role = rf.role
  term : rf'.currentTerm = rf.currentTerm
  log : ∀ last ∈ rf.getLastLog, ∃ last' ∈ rf'.getLastLog, last'.recency ≤ last.recency

instance (rf rf' : Raft n Cmd Snap) : Decidable (rf.Steady rf') :=
  decidable_of_iff (rf'.role = rf.role ∧ rf'.currentTerm = rf.currentTerm ∧
      ∀ last ∈ rf.getLastLog, ∃ last' ∈ rf'.getLastLog, last'.recency ≤ last.recency)
    ⟨fun h => ⟨h.1, h.2.1, h.2.2⟩, fun h => ⟨h.role, h.term, h.log⟩⟩

/-- A request that is not refused is not of an older term, and its log is as recent. -/
lemma VoteCheck.refuses_eq_false_iff {chk : VoteCheck} {args : RequestVoteArgs n} :
    chk.refuses args = false ↔
      chk.curTerm ≤ args.candicateTerm ∧
        toLex (chk.lastLogTerm, chk.lastLogIdx) ≤ args.recency := by
  simp only [VoteCheck.refuses, RequestVoteArgs.recency, Prod.Lex.toLex_le_toLex,
    Bool.or_eq_false_iff, Bool.and_eq_false_iff, decide_eq_false_iff_not]
  omega

namespace Raft

variable {rf rf' : Raft n Cmd Snap} {args : RequestVoteArgs n}

/-- A server that may vote for a candidate still may while its role and term stay and its log does
not become more recent. -/
lemma MayVote.mono (h : rf.MayVote args) (hs : rf.Steady rf') : rf'.MayVote args := by
  obtain ⟨last, hlast, hle⟩ := h.log
  obtain ⟨last', hlast', hle'⟩ := hs.log last hlast
  exact ⟨hs.role.trans h.role, hs.term.trans h.term, last', hlast', hle'.trans hle⟩

/-- The first section of `RequestVote` with the comparison after it makes sure that the server may
vote.

**Proof sketch.** The section has raised the term to that of the request, so a term that is not
above it is equal to it. -/
lemma mayVote_of_requestVoteCheck {chk : VoteCheck}
    (ho : rf.requestVoteCheck args = .ok rf' chk) (hpass : chk.refuses args = false)
    (hrole : chk.curRole = .follower) : rf'.MayVote args := by
  rcases requestVoteCheck_cases rf args with ⟨-, hp⟩ | ⟨last, hlast, hok⟩
  · rw [hp] at ho
    cases ho
  · rw [hok] at ho
    injection ho with hrf hchk
    subst hrf hchk
    obtain ⟨hterm, hlog⟩ := VoteCheck.refuses_eq_false_iff.mp hpass
    refine ⟨hrole, le_antisymm hterm ?_, last, (rf.getLastLog_observe _).trans hlast, hlog⟩
    rw [currentTerm_observe]
    exact le_max_right _ _

/-- The second section keeps all that the checks looked at. -/
lemma steady_requestVoteGrant (rf : Raft n Cmd Snap) (args : RequestVoteArgs n) :
    rf.Steady (rf.requestVoteGrant args).1 := by
  refine requestVoteGrant_rule (P := fun r => rf.Steady r) args ?_ ?_
  · exact ⟨rfl, rfl, fun last hlast => ⟨last, hlast, le_rfl⟩⟩
  · exact ⟨rfl, rfl, fun last hlast => ⟨last, hlast, le_rfl⟩⟩

/-- A granted vote is in `votedFor`. -/
lemma votedFor_of_requestVoteGrant (h : rf.requestVoteGrant args = (rf', true)) :
    rf'.votedFor = some args.candicateId := by
  unfold requestVoteGrant at h
  split_ifs at h with hfree
  · rw [← (Prod.mk.inj h).1]
    rfl
  · simp at h

end Raft

/-! ## Handlers between their sections -/

/-- While a handler of `RequestVote` is between its two sections, a step keeps role and term and
does not make the log more recent. -/
def VoteSteady [DecidableEq Cmd] [DecidableEq Snap] (nd : Node n Cmd Snap)
    (inp : Input n Cmd Snap) : Prop :=
  ∀ o ∈ nd.exec inp, nd.voteHandlers ≠ [] → (Node.finish o).node.voteHandlers ≠ [] →
    nd.rf.Steady (Node.finish o).node.rf

section Waiting

variable [DecidableEq Cmd] [DecidableEq Snap] {nd : Node n Cmd Snap} {inp : Input n Cmd Snap}
  {o : NodeOutcome n Cmd Snap} {hd : VoteHandler n}

instance (nd : Node n Cmd Snap) (inp : Input n Cmd Snap) : Decidable (VoteSteady nd inp) :=
  inferInstanceAs (Decidable (∀ o ∈ nd.exec inp, _))

omit [DecidableEq Cmd] [DecidableEq Snap] in
/-- The handlers after a request for a vote: at most the one of this request is new. -/
lemma Node.mayVote_of_requestVote {args : RequestVoteArgs n} {eff : Effect n Cmd Snap}
    (ho : nd.requestVote args = .ok eff) (hmem : hd ∈ eff.node.voteHandlers) :
    hd ∈ nd.voteHandlers ∨ eff.node.rf.MayVote hd.args := by
  obtain ⟨rf, chk, hchk, rfl⟩ := of_critical_eq_ok ho.symm
  split_ifs at hmem ⊢ with hpass
  · rcases List.mem_append.mp hmem with hmem | hmem
    · exact Or.inl hmem
    · obtain rfl := List.mem_singleton.mp hmem
      exact Or.inr (Raft.mayVote_of_requestVoteCheck hchk hpass.1 hpass.2)
  · exact Or.inl hmem

/-- **A handler that waits after a step has waited before it, or has just passed its checks.** -/
theorem Node.mayVote_of_exec (ho : nd.exec inp = some o)
    (hmem : hd ∈ (Node.finish o).node.voteHandlers) :
    hd ∈ nd.voteHandlers ∨ (Node.finish o).node.rf.MayVote hd.args := by
  cases o with
  | panic p nd' => exact absurd hmem List.not_mem_nil
  | ok eff =>
    by_cases hr : inp = .act .restart
    · subst hr
      obtain rfl := NodeOutcome.ok.inj (Option.some.inj ho)
      exact absurd hmem List.not_mem_nil
    · rcases (steered_of_exec ho hr).handlers hd hmem with hold | ⟨dst, g, rfl⟩
      · exact Or.inl hold
      · exact mayVote_of_requestVote (Option.some.inj ho) hmem

end Waiting

section Granted

variable [DecidableEq Cmd] [DecidableEq Snap] {c : Cluster n Cmd Snap}

/-- Where every step is steady, the checks of every waiting handler stand.

**Proof sketch.** By induction on the run. A handler that was waiting before the step passed its
checks then, and the step keeps them; a new one has just passed them. -/
lemma Run.mayVote (h : Run VoteSteady .init c) :
    ∀ i, ∀ hd ∈ (c.nodes i).voteHandlers, (c.nodes i).rf.MayVote hd.args := by
  refine h.induct (I := fun c => ∀ i, ∀ hd ∈ (c.nodes i).voteHandlers,
    (c.nodes i).rf.MayVote hd.args) ?_ ?_ ?_
  · intro i hd hmem
    exact absurd hmem List.not_mem_nil
  · intro c d hI hnodes _
    rw [hnodes]
    exact hI
  · intro c i inp o hI hP _ ho
    refine Cluster.forall_nodes_after
      (P := fun _ nd => ∀ hd ∈ nd.voteHandlers, nd.rf.MayVote hd.args) (fun hd hmem => ?_)
      fun k _ => hI k
    rcases Node.mayVote_of_exec ho hmem with hold | hnew
    · have hsteady := hP o ho (List.ne_nil_of_mem hold) (List.ne_nil_of_mem hmem)
      exact (hI i hd hold).mono hsteady
    · exact hnew

/-- **A vote is valid when it is given, as long as nothing its checks looked at changes between the
two sections.** In every state of such a run, the second section of a waiting handler that grants
its vote leaves the server a follower in the term of the request, with its vote for the candidate
and a log that is not more recent than the candidate's.

**Proof sketch.** While a handler waits, what its checks looked at does not change, so they still
hold when it grants; and granting changes only the vote. -/
theorem granted_vote_valid (h : Run VoteSteady .init c) (i : Fin n) (hd : VoteHandler n)
    (hwait : hd ∈ (c.nodes i).voteHandlers) (rf' : Raft n Cmd Snap)
    (hgrant : (c.nodes i).rf.requestVoteGrant hd.args = (rf', true)) :
    rf'.votedFor = some hd.args.candicateId ∧ rf'.MayVote hd.args := by
  have hsteady := (c.nodes i).rf.steady_requestVoteGrant hd.args
  rw [hgrant] at hsteady
  exact ⟨Raft.votedFor_of_requestVoteGrant hgrant, (h.mayVote i hd hwait).mono hsteady⟩

end Granted

/-- Two requests of one term wait at server 2, and the vote goes to the first that gets the lock. -/
theorem granted_vote_valid_two_waiting : ∃ c : Cluster 3 ℕ ℕ, Run VoteSteady .init c ∧
    ∃ hd ∈ (c.nodes 2).voteHandlers, ∃ rf',
      (c.nodes 2).rf.requestVoteGrant hd.args = (rf', true) ∧
      rf'.votedFor = some hd.args.candicateId ∧ rf'.MayVote hd.args := by
  obtain ⟨c, hrun, hd, hwait, hgrant⟩ : ∃ c : Cluster 3 ℕ ℕ, Run VoteSteady .init c ∧
      ∃ hd ∈ (c.nodes 2).voteHandlers,
        ((c.nodes 2).rf.requestVoteGrant hd.args).2 = true :=
    Run.exists_of_stepsIf (splitVote.take 6) (by decide +kernel)
  have heq : (c.nodes 2).rf.requestVoteGrant hd.args =
      (((c.nodes 2).rf.requestVoteGrant hd.args).1, true) := by
    rw [← hgrant]
  exact ⟨c, hrun, hd, hwait, _, heq, granted_vote_valid hrun 2 hd hwait _ heq⟩

/-! ## Checks that are out of date -/

/-- A request of server 0 of term 1 waits at server 2 when one of server 1 of term 2 arrives. -/
def laterTerm : List (Label 3 ℕ ℕ) :=
  [.act 0 .startElection, .act 0 (.askVote 0 2), .recv 0 0, .act 1 .startElection,
    .act 1 (.electionTimeout 0), .act 1 (.askVote 1 2), .recv 0 0]

/-- **Each check can be out of date when the vote is given.** The handler of a request of term 1
votes in term 2; a handler whose candidate has an empty log votes when the log has an entry; and
a handler votes when the server has become leader, by a vote that was late for its own election. -/
theorem granted_vote_outdated :
    (∃ c : Cluster 3 ℕ ℕ, Cluster.init.steps laterTerm = some c ∧
      ∃ hd ∈ (c.nodes 2).granting (.act (.grantVote 0)),
        hd.args.candicateTerm = 1 ∧ (c.nodes 2).rf.currentTerm = 2) ∧
    (∃ c : Cluster 3 ℕ ℕ, Cluster.init.steps (splitVote.take 11) = some c ∧
      ∃ hd ∈ (c.nodes 2).granting (.act (.grantVote 0)),
        ∃ last ∈ (c.nodes 2).rf.getLastLog, hd.args.recency < last.recency) ∧
    (∃ c : Cluster 3 ℕ ℕ, Cluster.init.steps (lateVote ++ [.recv 0 0]) = some c ∧
      ∃ hd ∈ (c.nodes 0).granting (.act (.grantVote 0)), (c.nodes 0).rf.role = .leader) :=
  ⟨Cluster.exists_of_steps laterTerm (by decide +kernel),
    Cluster.exists_of_steps (splitVote.take 11) (by decide +kernel),
    Cluster.exists_of_steps (lateVote ++ [.recv 0 0]) (by decide +kernel)⟩

end Mit6824
