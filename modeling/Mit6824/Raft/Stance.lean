import Mit6824.Raft.View
import Mit6824.Raft.Transitions

set_option autoImplicit false

/-!
# What one input does to a server's stance in elections

The stance of a server is its term, vote and role with the history of its votes. One input
changes it in one of five ways, whatever else it does: it stays, the server follows in some
term, starts an election of its own, grants a vote, or becomes leader. A panic in between only
adds a restart, which makes a follower of the server.

## Main definitions

* `Mit6824.Stance`, `Mit6824.Node.stance` — term, vote, role and vote history.
* `Mit6824.Move` — the five changes, with the reason for each.

## Main results

* `Mit6824.Node.exec_moved` — every input moves the stance in one of the five ways, and the
  server's state stays saved.
-/

namespace Mit6824

variable {n : ℕ} {Cmd Snap : Type}

/-- A server's part in elections. -/
structure Stance (n : ℕ) where
  term : ℕ
  vote : Option (Fin n)
  role : Role
  votes : List (ℕ × Fin n)
  erased : Option (Fin n)

namespace Stance

/-- Follow in term `t`: the vote is cleared, and remembered if the term is the same. -/
def follow (s : Stance n) (t : ℕ) : Stance n where
  term := t
  vote := none
  role := .follower
  votes := s.votes
  erased := if t ≠ s.term then none else if s.vote ≠ none then s.vote else s.erased

/-- Enter the next term as a candidate. -/
def own (s : Stance n) (me : Fin n) : Stance n where
  term := s.term + 1
  vote := some me
  role := .candicate
  votes := s.votes ++ [(s.term + 1, me)]
  erased := none

/-- Grant a vote. -/
def grant (s : Stance n) (t : ℕ) (cand : Fin n) : Stance n :=
  { s with vote := some cand, votes := s.votes ++ [(t, cand)] }

/-- Become leader. -/
def lead (s : Stance n) : Stance n := { s with role := .leader }

/-- Restart. -/
def down (s : Stance n) : Stance n := { s with role := .follower }

end Stance

/-- The stance of a server. -/
def Node.stance (nd : Node n Cmd Snap) : Stance n :=
  ⟨nd.rf.currentTerm, nd.rf.votedFor, nd.rf.role, nd.votes, nd.erased⟩

/-- The stances an input can lead to before a possible restart. -/
inductive Move (nd : Node n Cmd Snap) (inp : Input n Cmd Snap) : Stance n → Prop
  | keep : Move nd inp nd.stance
  | follow (t : ℕ) (h : nd.rf.currentTerm ≤ t ∨ t ∈ nd.following inp) :
      Move nd inp (nd.stance.follow t)
  | own (h : nd.rf.role ≠ .leader) : Move nd inp (nd.stance.own nd.rf.me)
  | grant (hd : VoteHandler n) (h : hd ∈ nd.granting inp) :
      Move nd inp (nd.stance.grant hd.args.candicateTerm hd.args.candicateId)
  | lead (e : Election n) (h : e ∈ nd.winning inp) : Move nd inp nd.stance.lead

/-- `nd'` is `nd` after one of the moves, possibly restarted; its state is saved. -/
structure Moved (nd : Node n Cmd Snap) (inp : Input n Cmd Snap) (nd' : Node n Cmd Snap) : Prop where
  me : nd'.rf.me = nd.rf.me
  saved : nd'.rf.Saved
  move : ∃ s, Move nd inp s ∧ (nd'.stance = s ∨ nd'.stance = s.down)

/-! ## Putting a Raft state in place -/

section SetRaft

variable {nd : Node n Cmd Snap} {rf : Raft n Cmd Snap}

/-- A section that leaves id, term, vote and role leaves the stance. -/
lemma stance_setRaft_keep (h : rf.view = nd.rf.view) : (nd.setRaft rf).stance = nd.stance := by
  simp only [Raft.view, View.mk.injEq] at h
  obtain ⟨-, hterm, hvote, hrole⟩ := h
  simp only [Node.stance, Node.setRaft, hterm, hvote, hrole, Stance.mk.injEq, true_and]
  split_ifs <;> simp_all

/-- A section that ends in following a term follows it in the stance. -/
lemma stance_setRaft_follow {t : ℕ} (h : rf.view = nd.rf.followed t) :
    (nd.setRaft rf).stance = nd.stance.follow t := by
  simp only [Raft.view, Raft.followed, View.mk.injEq] at h
  obtain ⟨-, hterm, hvote, hrole⟩ := h
  simp only [Node.stance, Node.setRaft, hterm, hvote, hrole, Stance.follow, and_true,
    Stance.mk.injEq, true_and]
  congr

/-- A section that ends in leading leads in the stance. -/
lemma stance_setRaft_lead (h : rf.view = { nd.rf.view with role := .leader }) :
    (nd.setRaft rf).stance = nd.stance.lead := by
  simp only [Raft.view, View.mk.injEq] at h
  obtain ⟨-, hterm, hvote, hrole⟩ := h
  simp only [Node.stance, Node.setRaft, hterm, hvote, hrole, Stance.lead, Stance.mk.injEq, true_and]
  split_ifs <;> simp_all

/-- A restart from a saved state keeps all but the role. -/
lemma stance_restart (h : nd.rf.Saved) : nd.restart.stance = nd.stance.down := by
  have hv := Raft.view_make h
  simp only [Raft.view, View.mk.injEq] at hv
  obtain ⟨-, hterm, hvote, hrole⟩ := hv
  simp only [Node.stance, Node.restart, Node.setRaft, hterm, hvote, hrole, Stance.down,
    Stance.mk.injEq, true_and]
  split_ifs <;> simp_all

end SetRaft

/-! ## Critical sections -/

section Critical

variable {nd nd₀ nd' : Node n Cmd Snap} {inp : Input n Cmd Snap} {α : Type}

/-- A server that starts again has the stance it had persisted. -/
lemma Moved.restart (hs : nd'.rf.Saved) (hme : nd'.rf.me = nd.rf.me)
    (hm : Move nd inp nd'.stance) : Moved nd inp nd'.restart where
  me := by simp [Node.restart, Node.setRaft, hme]
  saved := Raft.saved_make _ _
  move := ⟨_, hm, Or.inr (stance_restart hs)⟩

/-- A critical section that moves the stance, whether it finishes or panics. -/
lemma moved_critical {o : Outcome n Cmd Snap α} {k : Node n Cmd Snap → α → Effect n Cmd Snap}
    (hs : o.state.Saved) (hme : o.state.me = nd.rf.me)
    (hm : Move nd inp (nd₀.setRaft o.state).stance)
    (hk : ∀ nd a, (k nd a).node.stance = nd.stance ∧ (k nd a).node.rf = nd.rf) :
    Moved nd inp (Node.finish (Node.critical nd₀ o k)).node := by
  cases o with
  | ok rf a =>
    obtain ⟨hst, hrf⟩ := hk (nd₀.setRaft rf) a
    exact ⟨(congrArg Raft.me hrf).trans hme, hrf ▸ hs, _, hm, Or.inl hst⟩
  | panic p rf => exact Moved.restart hs hme hm

/-- A critical section that does not change term, vote and role. -/
lemma moved_critical_keep {o : Outcome n Cmd Snap α}
    {k : Node n Cmd Snap → α → Effect n Cmd Snap} (hs : o.state.Saved)
    (hv : o.state.view = nd.rf.view) (h₀ : nd₀.rf = nd.rf) (hst : nd₀.stance = nd.stance)
    (hk : ∀ nd a, (k nd a).node.stance = nd.stance ∧ (k nd a).node.rf = nd.rf) :
    Moved nd inp (Node.finish (Node.critical nd₀ o k)).node := by
  refine moved_critical hs (congrArg View.me hv) ?_ hk
  rw [stance_setRaft_keep (by rw [h₀, hv]), hst]
  exact .keep

/-- A critical section that may make the server a follower. -/
lemma moved_critical_follow {o : Outcome n Cmd Snap α}
    {k : Node n Cmd Snap → α → Effect n Cmd Snap} {p : Prop} [Decidable p] {t : ℕ}
    (hs : o.state.Saved) (hv : o.state.view = if p then nd.rf.followed t else nd.rf.view)
    (ht : p → nd.rf.currentTerm ≤ t ∨ t ∈ nd.following inp)
    (hk : ∀ nd a, (k nd a).node.stance = nd.stance ∧ (k nd a).node.rf = nd.rf) :
    Moved nd inp (Node.finish (Node.critical nd o k)).node := by
  split_ifs at hv with hp
  · refine moved_critical hs (congrArg View.me hv) ?_ hk
    rw [stance_setRaft_follow hv]
    exact .follow t (ht hp)
  · exact moved_critical_keep hs hv rfl rfl hk

/-- An input that leaves the Raft state and the history alone. -/
lemma Moved.of_eq (hs : nd.rf.Saved) (hrf : nd'.rf = nd.rf) (hst : nd'.stance = nd.stance) :
    Moved nd inp nd' :=
  ⟨by rw [hrf], hrf ▸ hs, _, .keep, Or.inl hst⟩

end Critical

/-! ## All inputs -/

namespace Node

variable {nd : Node n Cmd Snap} {o : NodeOutcome n Cmd Snap}

/-- A turn of `StartElection` moves to the next term with the own vote.

**Proof sketch.** A leader returns and changes nothing. Otherwise the section raises the term and
votes for the server itself, which is the move `own`. -/
lemma turn_moved {inp : Input n Cmd Snap} (hs : nd.rf.Saved) {nd₀ : Node n Cmd Snap}
    (h₀ : nd₀.rf = nd.rf) (hst : nd₀.stance = nd.stance) :
    Moved nd inp (finish nd₀.turn).node := by
  have hv := Raft.view_startElection nd.rf
  obtain ⟨hvotes, herased⟩ : nd₀.votes = nd.votes ∧ nd₀.erased = nd.erased :=
    ⟨congrArg Stance.votes hst, congrArg Stance.erased hst⟩
  have hk : ∀ (nd : Node n Cmd Snap) a,
      (askPeers nd a).node.stance = nd.stance ∧ (askPeers nd a).node.rf = nd.rf := by
    intro nd a
    cases a <;> exact ⟨rfl, rfl⟩
  unfold turn
  simp only [h₀]
  split_ifs at hv ⊢ with hl
  · exact moved_critical_keep hs.startElection hv rfl (by simp [stance, hvotes, herased]) hk
  · refine moved_critical hs.startElection (congrArg View.me hv) ?_ hk
    simp only [Raft.view, View.mk.injEq] at hv
    obtain ⟨-, hterm, hvote, hrole⟩ := hv
    have hown : Move nd inp (nd.stance.own nd.rf.me) := .own hl
    simpa [stance, setRaft, hterm, hvote, hrole, hvotes, Stance.own] using hown

/-- The second section of `RequestVote` moves by a vote, or not at all. -/
lemma grantVote_moved {h : ℕ} {hd : VoteHandler n} (hs : nd.rf.Saved)
    (hh : nd.voteHandlers[h]? = some hd) {nd' : Node n Cmd Snap}
    (hrf : nd'.rf = (nd.rf.requestVoteGrant hd.args).1)
    (hst : nd'.stance = { (nd.setRaft (nd.rf.requestVoteGrant hd.args).1).stance with
      votes := nd.votes ++ if (nd.rf.requestVoteGrant hd.args).2 then
        [(hd.args.candicateTerm, hd.args.candicateId)] else [] }) :
    Moved nd (.act (.grantVote h)) nd' := by
  by_cases hv : nd.rf.votedFor = none ∨ nd.rf.votedFor = some hd.args.candicateId
  · have hg : hd ∈ nd.granting (.act (.grantVote h)) := by
      simpa [granting, hh, Option.mem_def, Option.filter_eq_some_iff] using hv
    refine ⟨?_, hrf ▸ hs.requestVoteGrant hd.args, _, .grant hd hg, Or.inl (hst.trans ?_)⟩
    · simp [hrf, Raft.requestVoteGrant, hv, Raft.persist]
    · simp [stance, setRaft, Raft.requestVoteGrant, hv, Raft.persist, Stance.grant]
  · have hkeep : nd.rf.requestVoteGrant hd.args = (nd.rf, false) := if_neg hv
    rw [hkeep] at hrf hst
    refine Moved.of_eq hs hrf (hst.trans ?_)
    rw [stance_setRaft_keep rfl]
    simp [stance]

variable [DecidableEq Cmd] [DecidableEq Snap]

/-- **Every input makes one of the five moves**, and leaves nothing unsaved.

**Proof sketch.** By the transition. Inputs that leave term, vote and role alone keep the stance;
handlers that may follow a later term are `moved_critical_follow`; elections, granted votes and wins
are the moves of their own. -/
theorem exec_moved {inp : Input n Cmd Snap} (hs : nd.rf.Saved) (ho : nd.exec inp = some o) :
    Moved nd inp (finish o).node := by
  cases trans_of_exec ho with
  | restart => exact Moved.restart hs rfl .keep
  | startElection => exact turn_moved hs rfl rfl
  | electionTimeout => exact turn_moved hs rfl rfl
  | electionQuit => exact Moved.of_eq hs rfl rfl
  | askVote => exact Moved.of_eq hs rfl rfl
  | askNothing => exact Moved.of_eq hs rfl rfl
  | stepDown he ht =>
    exact ⟨rfl, Raft.saved_becomeFollower _ _, _, .follow _ (Or.inr (mem_following_stepDown he ht)),
      Or.inl (stance_setRaft_follow (Raft.view_becomeFollower nd.rf _))⟩
  | grantVote hh => exact grantVote_moved hs hh rfl rfl
  | @beat b bt =>
    have hst := Raft.state_heartBeatToServer nd.rf bt.peer
    refine moved_critical_keep (by rw [hst]; exact hs) (by rw [hst]) rfl rfl fun nd' a => ?_
    cases a <;> exact ⟨rfl, rfl⟩
  | @sendAppend b bt =>
    have hst := Raft.state_buildAppend nd.rf bt.peer
    refine moved_critical_keep (by rw [hst]; exact hs) (by rw [hst]) rfl rfl fun nd' a => ?_
    cases a <;> exact ⟨rfl, rfl⟩
  | sendInstall => exact Moved.of_eq hs rfl rfl
  | beatRetry => exact Moved.of_eq hs rfl rfl
  | start command =>
    exact moved_critical_keep (hs.start command) (Raft.view_start _ _) rfl rfl
      fun nd' a => ⟨rfl, rfl⟩
  | deliver => exact Moved.of_eq hs rfl rfl
  | capture => exact Moved.of_eq hs rfl rfl
  | takeSnapshot =>
    exact moved_critical_keep (hs.takeSnapshot _ _) (Raft.view_takeSnapshot _ _ _) rfl rfl
      fun nd' a => ⟨rfl, rfl⟩
  | requestVote dst args =>
    refine moved_critical_follow (hs.requestVoteCheck args) (Raft.view_requestVoteCheck _ _)
      (fun h => Or.inl h.le) fun nd' a => ?_
    split_ifs <;> exact ⟨rfl, rfl⟩
  | win he hl hsrc hw =>
    have hv := Raft.view_becomeLeader nd.rf
    refine moved_critical hs.becomeLeader (congrArg View.me hv) ?_ fun nd' a => ⟨rfl, rfl⟩
    rw [stance_setRaft_lead hv]
    exact .lead _ (mem_winning he hl hsrc hw)
  | count => exact Moved.of_eq hs rfl rfl
  | refusal => exact Moved.of_eq hs rfl rfl
  | appendEntries dst args =>
    refine moved_critical_follow (p := ¬ args.leaderTerm < nd.rf.currentTerm)
      (hs.appendEntries args) ?_ (fun h => Or.inl (not_lt.mp h)) fun nd' a => ⟨rfl, rfl⟩
    rw [Raft.view_appendEntries, ite_not]
  | appendReply reply =>
    refine moved_critical_follow (hs.appendReply _ _ reply) (Raft.view_appendReply _ _ _ _)
      (fun h => Or.inr ?_) fun nd' a => ⟨rfl, rfl⟩
    simp [following, h]
  | installSnapshot dst args =>
    exact moved_critical_follow (hs.installSnapshot args) (Raft.view_installSnapshot _ _)
      (fun h => Or.inl h.le) fun nd' a => ⟨rfl, rfl⟩
  | installReply reply =>
    exact moved_critical_follow (hs.installReply _ _ reply) (Raft.view_installReply _ _ _ _)
      (fun h => Or.inl h.2.le) fun nd' a => ⟨rfl, rfl⟩

end Node

end Mit6824
