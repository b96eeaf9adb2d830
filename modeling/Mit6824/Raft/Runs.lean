import Mathlib.Data.Option.Basic
import Mit6824.Transition.Basic
import Mit6824.Raft.Cluster

set_option autoImplicit false

/-!
# Runs, and the conditions under which the servers keep their promises

How to prove a property of every state of a run, and the conditions on single steps that the
results about elections and logs need. Each condition is about one place of `raft/raft.go`
that acts on something it read before it took the lock, or that a later request has made stale.

## Main definitions

* `Mit6824.VoteFresh` — `RequestVote` grants in the term of the request, and not after a
  `becomeFollower` of that term has cleared a vote for someone else.
* `Mit6824.TermFresh` — a reply makes the server a follower only in a term that is not behind.
* `Mit6824.WinFresh` — the vote that completes a majority finds the server still a candidate in
  the term of the election.
* `Mit6824.LogFresh` — no accepted `AppendEntries` is an old, shorter state of what the follower
  already holds.
* `Mit6824.SnapFresh`, `Mit6824.InstallFresh` — `TakeSnapshot` is not ahead of `commitIndex`, and
  `InstallSnapshot` is not behind it.

## Main results

* `Mit6824.Run.induct` — invariants of runs, step by step.
* `Mit6824.Run.of_stepsIf` — a computed sequence of steps is a run.
-/

namespace Mit6824

variable {n : ℕ} {Cmd Snap : Type}

/-! ## What an input is about to do -/

namespace Node

/-- The handler whose second critical section grants its vote. -/
def granting (nd : Node n Cmd Snap) : Input n Cmd Snap → Option (VoteHandler n)
  | .act (.grantVote h) => (nd.voteHandlers[h]?).filter fun hd =>
      nd.rf.votedFor = none ∨ nd.rf.votedFor = some hd.args.candicateId
  | _ => none

/-- The term in which a reply makes the server a follower without comparing it with the present
term: in the loop of `StartElection`, and in `doAppendEntriesRPC`. -/
def following (nd : Node n Cmd Snap) : Input n Cmd Snap → Option ℕ
  | .act (.stepDown k) => (nd.elections[k]?).bind Election.stepDown
  | .recv (.appendEntriesReply _ args reply) _ =>
      if reply.success = false ∧ args.leaderTerm < reply.followerTerm then some reply.followerTerm
      else none
  | _ => none

/-- The election that a vote completes: `becomeLeader` runs. -/
def winning (nd : Node n Cmd Snap) : Input n Cmd Snap → Option (Election n)
  | .recv (.requestVoteReply src args reply) k => (nd.elections[k]?).filter fun e =>
      Awaits e src args ∧ countWins e reply
  | _ => none

/-- The `AppendEntries` request that arrives. -/
def appending (_ : Node n Cmd Snap) : Input n Cmd Snap → Option (AppendEntriesArgs n Cmd)
  | .recv (.appendEntries _ args) _ => some args
  | _ => none

/-- The index of the snapshot that `TakeSnapshot` is called with. -/
def snapshotting (nd : Node n Cmd Snap) : Input n Cmd Snap → Option ℕ
  | .act .takeSnapshot => nd.captured.map Prod.snd
  | _ => none

/-- The index of the snapshot that `InstallSnapshot` puts in place. -/
def installing (nd : Node n Cmd Snap) : Input n Cmd Snap → Option ℕ
  | .recv (.installSnapshot _ args) _ =>
      if nd.rf.currentTerm ≤ args.term ∧ nd.rf.lastIncludedIndex < args.lastIncludedIndex
      then some args.lastIncludedIndex else none
  | _ => none

variable {nd : Node n Cmd Snap} {inp : Input n Cmd Snap}

/-- A vote is granted to a request that has passed the checks, if `votedFor` allows it. -/
lemma of_mem_granting {hd : VoteHandler n} (h : hd ∈ nd.granting inp) :
    hd ∈ nd.voteHandlers ∧
      (nd.rf.votedFor = none ∨ nd.rf.votedFor = some hd.args.candicateId) := by
  unfold granting at h
  split at h
  · obtain ⟨hmem, hfree⟩ := Option.filter_eq_some_iff.mp (Option.mem_def.mp h)
    exact ⟨List.mem_of_getElem? hmem, by simpa using hfree⟩
  · simp at h

/-- An election is won by a reply that it waits for and that completes the count. -/
lemma of_mem_winning {e : Election n} (h : e ∈ nd.winning inp) :
    ∃ src reply k, inp = .recv (.requestVoteReply src e.args reply) k ∧
      nd.elections[k]? = some e ∧ src ∈ e.waiting ∧ countWins e reply = true := by
  unfold winning at h
  split at h
  · rename_i src args reply k
    obtain ⟨hmem, hc⟩ := Option.filter_eq_some_iff.mp (Option.mem_def.mp h)
    obtain ⟨⟨-, -, rfl, hsrc⟩, hw⟩ := of_decide_eq_true hc
    exact ⟨src, reply, k, rfl, hmem, hsrc, hw⟩
  · simp at h

end Node

/-- The request passes the check of its previous entry, the log agrees with its entries as far as
they go, and the log goes on behind them: accepting it only cuts the log. -/
def Raft.Shortens (rf : Raft n Cmd Snap) (args : AppendEntriesArgs n Cmd) : Prop :=
  rf.currentTerm ≤ args.leaderTerm ∧ args.entries ≠ [] ∧
    ∃ prev ∈ args.prevLogIndex,
      rf.lastIncludedIndex ≤ prev ∧
      (rf.logs[prev - rf.lastIncludedIndex]?).map LogEntry.logTerm = args.prevLogTerm ∧
      args.entries.map LogEntry.logTerm <+:
        (rf.logs.drop (prev - rf.lastIncludedIndex + 1)).map LogEntry.logTerm ∧
      args.entries.length < (rf.logs.drop (prev - rf.lastIncludedIndex + 1)).length

instance (rf : Raft n Cmd Snap) (args : AppendEntriesArgs n Cmd) : Decidable (rf.Shortens args) :=
  inferInstanceAs (Decidable (_ ∧ _ ∧ ∃ prev ∈ args.prevLogIndex, _))

/-! ## The conditions -/

/-- A vote is given in the term of its request, and no vote for another candidate has been
cleared in this term. -/
def VoteFresh (nd : Node n Cmd Snap) (inp : Input n Cmd Snap) : Prop :=
  ∀ hd ∈ nd.granting inp, nd.rf.currentTerm = hd.args.candicateTerm ∧
    (nd.rf.votedFor = none → nd.erased = none ∨ nd.erased = some hd.args.candicateId)

/-- A reply does not make the server a follower in a term behind its own. -/
def TermFresh (nd : Node n Cmd Snap) (inp : Input n Cmd Snap) : Prop :=
  ∀ t ∈ nd.following inp, nd.rf.currentTerm ≤ t

/-- The server whose vote count is complete is still a candidate in the term it counted for. -/
def WinFresh (nd : Node n Cmd Snap) (inp : Input n Cmd Snap) : Prop :=
  ∀ e ∈ nd.winning inp, nd.rf.role = .candicate ∧ nd.rf.currentTerm = e.args.candicateTerm

/-- No accepted request only cuts the log. -/
def LogFresh (nd : Node n Cmd Snap) (inp : Input n Cmd Snap) : Prop :=
  ∀ args ∈ nd.appending inp, ¬ nd.rf.Shortens args

/-- The service's snapshot does not cover more than is committed here. -/
def SnapFresh (nd : Node n Cmd Snap) (inp : Input n Cmd Snap) : Prop :=
  ∀ k ∈ nd.snapshotting inp, k ≤ nd.rf.commitIndex

/-- An installed snapshot covers at least what is committed here. -/
def InstallFresh (nd : Node n Cmd Snap) (inp : Input n Cmd Snap) : Prop :=
  ∀ k ∈ nd.installing inp, nd.rf.commitIndex ≤ k

section Decidable

variable (nd : Node n Cmd Snap) (inp : Input n Cmd Snap)

instance : Decidable (VoteFresh nd inp) := inferInstanceAs (Decidable (∀ hd ∈ nd.granting inp, _))

instance : Decidable (TermFresh nd inp) := inferInstanceAs (Decidable (∀ t ∈ nd.following inp, _))

instance : Decidable (WinFresh nd inp) := inferInstanceAs (Decidable (∀ e ∈ nd.winning inp, _))

instance : Decidable (LogFresh nd inp) :=
  inferInstanceAs (Decidable (∀ args ∈ nd.appending inp, _))

instance : Decidable (SnapFresh nd inp) :=
  inferInstanceAs (Decidable (∀ k ∈ nd.snapshotting inp, _))

instance : Decidable (InstallFresh nd inp) :=
  inferInstanceAs (Decidable (∀ k ∈ nd.installing inp, _))

end Decidable

/-! ## Steps -/

/-- A message delivered to server `i` is in the network and addressed to it. -/
def Cluster.Deliverable (c : Cluster n Cmd Snap) (i : Fin n) (inp : Input n Cmd Snap) : Prop :=
  ∀ m g, inp = .recv m g → m ∈ c.net ∧ m.dst = i

/-- What is left is part of the list. -/
lemma Label.remove_subset {α : Type} (l : Label n Cmd Snap) (xs : List α) : l.remove xs ⊆ xs := by
  cases l with
  | act i ev => exact List.Subset.refl _
  | recv k g => exact (List.eraseIdx_sublist _ _).subset
  | lose k => exact (List.eraseIdx_sublist _ _).subset

/-- The input of a step can be delivered. -/
lemma Cluster.deliverable_of_pick {c c' : Cluster n Cmd Snap} {l : Label n Cmd Snap} {i : Fin n}
    {inp : Input n Cmd Snap} (h : c.pick l = some (i, inp, c')) : c.Deliverable i inp := by
  cases l with
  | lose k => simp [Cluster.pick] at h
  | act j ev =>
    obtain ⟨rfl, rfl, rfl⟩ : j = i ∧ .act ev = inp ∧ c = c' := by simpa [Cluster.pick] using h
    simp [Cluster.Deliverable]
  | recv k g =>
    obtain ⟨m, hm, heq⟩ := Option.map_eq_some_iff.mp h
    obtain ⟨rfl, rfl, rfl⟩ : m.dst = i ∧ .recv m g = inp ∧ c.dropMsg k = c' := by simpa using heq
    rintro m' g' ⟨⟩
    exact ⟨List.mem_of_getElem? hm, rfl⟩

/-- The cluster after server `i` has handled an input, with every message still in flight. -/
def Cluster.after (c : Cluster n Cmd Snap) (i : Fin n) (o : NodeOutcome n Cmd Snap) :
    Cluster n Cmd Snap :=
  c.put i (Node.finish o)

/-- The server that has moved. -/
lemma Cluster.nodes_after_self (c : Cluster n Cmd Snap) (i : Fin n) (o : NodeOutcome n Cmd Snap) :
    (c.after i o).nodes i = (Node.finish o).node := by
  simp [Cluster.after, Cluster.put]

/-- The servers that have not moved. -/
lemma Cluster.nodes_after_of_ne (c : Cluster n Cmd Snap) {i k : Fin n} (hk : k ≠ i)
    (o : NodeOutcome n Cmd Snap) : (c.after i o).nodes k = c.nodes k := by
  simp [Cluster.after, Cluster.put, hk]

/-- What holds of the server that has moved and of the others holds of all servers. -/
lemma Cluster.forall_nodes_after {P : Fin n → Node n Cmd Snap → Prop} {c : Cluster n Cmd Snap}
    {i : Fin n} {o : NodeOutcome n Cmd Snap} (hi : P i (Node.finish o).node)
    (h : ∀ k ≠ i, P k (c.nodes k)) (k : Fin n) : P k ((c.after i o).nodes k) := by
  by_cases hk : k = i
  · subst hk
    rw [Cluster.nodes_after_self]
    exact hi
  · rw [Cluster.nodes_after_of_ne c hk]
    exact h k hk

/-- Messages in flight are old or have just been sent. -/
lemma Cluster.mem_net_after {c : Cluster n Cmd Snap} {i : Fin n} {o : NodeOutcome n Cmd Snap}
    {m : Msg n Cmd Snap} (h : m ∈ (c.after i o).net) : m ∈ c.net ∨ m ∈ (Node.finish o).sends := by
  simpa [Cluster.after, Cluster.put] using h

variable [DecidableEq Cmd] [DecidableEq Snap]

/-- A step takes at most one message out of its place and puts the new ones behind the others.

**Proof sketch.** By the label. A loss only takes the message out; an event of a server takes none;
a delivery takes its message. -/
lemma Cluster.step_places {c d : Cluster n Cmd Snap} {l : Label n Cmd Snap}
    (h : c.step l = some d) :
    (c.pick l = none ∧ d.nodes = c.nodes ∧ d.net = l.remove c.net) ∨
    ∃ i inp c' o, c.pick l = some (i, inp, c') ∧ c.Deliverable i inp ∧
      (c.nodes i).exec inp = some o ∧ d.nodes = (c.after i o).nodes ∧
      d.net = l.remove c.net ++ (Node.finish o).sends := by
  cases l with
  | lose k =>
    obtain rfl := Option.some.inj h
    exact Or.inl ⟨rfl, rfl, rfl⟩
  | act i ev =>
    obtain ⟨o, ho, rfl⟩ := Option.map_eq_some_iff.mp h
    have hpick : c.pick (.act i ev) = some (i, .act ev, c) := rfl
    exact Or.inr ⟨i, .act ev, c, o, hpick, Cluster.deliverable_of_pick hpick, ho, rfl, rfl⟩
  | recv k g =>
    cases hk : c.net[k]? with
    | none => simp [Cluster.step, Cluster.pick, hk] at h
    | some m =>
      have hpick : c.pick (.recv k g) = some (m.dst, .recv m g, c.dropMsg k) := by
        simp [Cluster.pick, hk]
      simp only [Cluster.step, hpick] at h
      obtain ⟨o, ho, rfl⟩ := Option.map_eq_some_iff.mp h
      exact Or.inr ⟨m.dst, .recv m g, c.dropMsg k, o, hpick, Cluster.deliverable_of_pick hpick, ho,
        rfl, rfl⟩

/-- A step is the loss of a message, or one server handles one input and at most one message
leaves the network. -/
lemma Cluster.step_cases {c d : Cluster n Cmd Snap} {l : Label n Cmd Snap}
    (h : c.step l = some d) :
    (d.nodes = c.nodes ∧ d.net ⊆ c.net) ∨
    ∃ i inp c' o, c.pick l = some (i, inp, c') ∧ c.Deliverable i inp ∧
      (c.nodes i).exec inp = some o ∧ d.nodes = (c.after i o).nodes ∧
      d.net ⊆ (c.after i o).net := by
  obtain ⟨-, hnodes, hnet⟩ | ⟨i, inp, c', o, hpick, hdel, ho, hnodes, hnet⟩ :=
    Cluster.step_places h
  · exact Or.inl ⟨hnodes, hnet ▸ l.remove_subset _⟩
  · refine Or.inr ⟨i, inp, c', o, hpick, hdel, ho, hnodes, ?_⟩
    rw [hnet]
    exact List.append_subset.mpr ⟨List.Subset.trans (l.remove_subset _)
      (List.subset_append_left _ _), List.subset_append_right _ _⟩

/-! ## Runs -/

section Runs

variable {P Q : Node n Cmd Snap → Input n Cmd Snap → Prop}

/-- A run of the cluster is a run of its transition system. -/
lemma run_iff_reach {c d : Cluster n Cmd Snap} :
    Run P c d ↔ Transition.Reach Cluster.step (StepMeets P) c d := by
  constructor
  · intro h
    induction h with
    | refl => exact .refl
    | tail l _ hP hstep ih => exact .tail l ih hP hstep
  · intro h
    induction h with
    | refl => exact .refl
    | tail l _ hP hstep ih => exact .tail l ih hP hstep

/-- **Invariants of runs.** What holds at the start, survives the loss of messages, and survives
one input at one server with every message kept, holds in every state of the run. -/
theorem Run.induct {c d : Cluster n Cmd Snap} {I : Cluster n Cmd Snap → Prop} (h : Run P c d)
    (start : I c)
    (lose : ∀ c d : Cluster n Cmd Snap, I c → d.nodes = c.nodes → d.net ⊆ c.net → I d)
    (exec : ∀ (c : Cluster n Cmd Snap) i inp o, I c → P (c.nodes i) inp → c.Deliverable i inp →
      (c.nodes i).exec inp = some o → I (c.after i o)) : I d := by
  refine (run_iff_reach.mp h).invariant start fun c l d _ hI hP hstep => ?_
  rcases Cluster.step_cases hstep with ⟨hn, hnet⟩ | ⟨i, inp, c', o, hpick, hdel, ho, hn, hnet⟩
  · exact lose _ _ hI hn hnet
  · exact lose _ _ (exec _ i inp o hI (hP i inp c' hpick) hdel ho) hn hnet

/-- A run under a condition is a run under every weaker one. -/
lemma Run.mono {c d : Cluster n Cmd Snap} (h : Run P c d)
    (hPQ : ∀ nd inp, P nd inp → Q nd inp) : Run Q c d :=
  run_iff_reach.mpr <| (run_iff_reach.mp h).mono fun _ _ hP i inp c' hp => hPQ _ _ (hP i inp c' hp)

/-- Runs compose. -/
lemma Run.trans {c d e : Cluster n Cmd Snap} (h : Run P c d) (h' : Run P d e) : Run P c e :=
  run_iff_reach.mpr <| (run_iff_reach.mp h).trans (run_iff_reach.mp h')

omit [DecidableEq Cmd] [DecidableEq Snap] in
/-- The condition of a step is about the server that moves and its input. -/
lemma stepMeets_iff {c : Cluster n Cmd Snap} {l : Label n Cmd Snap} :
    StepMeets P c l ↔ ∀ x ∈ c.pick l, P (c.nodes x.1) x.2.1 :=
  ⟨fun h x hx => h x.1 x.2.1 x.2.2 hx, fun h i inp c' hx => h (i, inp, c') hx⟩

instance [∀ nd inp, Decidable (P nd inp)] (c : Cluster n Cmd Snap) (l : Label n Cmd Snap) :
    Decidable (StepMeets P c l) :=
  decidable_of_iff _ stepMeets_iff.symm

/-- A sequence of steps that all meet the condition. -/
def Cluster.stepsIf (P : Node n Cmd Snap → Input n Cmd Snap → Prop)
    [∀ nd inp, Decidable (P nd inp)] (c : Cluster n Cmd Snap) :
    List (Label n Cmd Snap) → Option (Cluster n Cmd Snap)
  | [] => some c
  | l :: ls => if StepMeets P c l then (c.step l).bind fun d => d.stepsIf P ls else none

/-- Computed runs are those of the transition system. -/
lemma Cluster.stepsIf_eq [∀ nd inp, Decidable (P nd inp)] (c : Cluster n Cmd Snap)
    (ls : List (Label n Cmd Snap)) :
    c.stepsIf P ls = Transition.stepsIf Cluster.step (StepMeets P) c ls := by
  induction ls generalizing c with
  | nil => rfl
  | cons l ls ih => simp only [Cluster.stepsIf, Transition.stepsIf, ih]

/-- A computed sequence of steps is a run. -/
theorem Run.of_stepsIf [∀ nd inp, Decidable (P nd inp)] {ls : List (Label n Cmd Snap)}
    {c d : Cluster n Cmd Snap} (h : c.stepsIf P ls = some d) : Run P c d := by
  rw [Cluster.stepsIf_eq] at h
  exact run_iff_reach.mpr (Transition.Reach.of_stepsIf h)

/-- A sequence of steps is a run without a condition. -/
lemma Run.of_steps {ls : List (Label n Cmd Snap)} {c d : Cluster n Cmd Snap}
    (h : c.steps ls = some d) : Run (fun _ _ => True) c d := by
  induction ls generalizing c with
  | nil =>
    obtain rfl := Option.some.inj h
    exact .refl
  | cons l ls ih =>
    obtain ⟨e, he, hd⟩ := Option.bind_eq_some_iff.mp h
    exact Run.trans (.tail l .refl (fun _ _ _ _ => trivial) he) (ih hd)

/-- What a computed sequence of steps ends in. -/
lemma Cluster.exists_of_steps {c : Cluster n Cmd Snap} (ls : List (Label n Cmd Snap))
    {p : Cluster n Cmd Snap → Prop} [DecidablePred p]
    (h : ((c.steps ls).any fun d => decide (p d)) = true) : ∃ d, c.steps ls = some d ∧ p d := by
  cases hd : c.steps ls with
  | none => simp [hd] at h
  | some d => exact ⟨d, rfl, by simpa [hd] using h⟩

/-- What a computed run ends in. -/
lemma Run.exists_of_stepsIf [∀ nd inp, Decidable (P nd inp)] {c : Cluster n Cmd Snap}
    (ls : List (Label n Cmd Snap)) {p : Cluster n Cmd Snap → Prop} [DecidablePred p]
    (h : ((c.stepsIf P ls).any fun d => decide (p d)) = true) : ∃ d, Run P c d ∧ p d := by
  cases hd : c.stepsIf P ls with
  | none => simp [hd] at h
  | some d => exact ⟨d, Run.of_stepsIf hd, by simpa [hd] using h⟩

end Runs

end Mit6824
