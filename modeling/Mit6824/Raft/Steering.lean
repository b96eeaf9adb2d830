import Mit6824.Raft.Server

set_option autoImplicit false

/-!
# What a critical section does to the goroutines

Role, elections in their loops and handlers between their two sections after a critical section
that does not crash, in one list of cases.

## Main definitions

* `Mit6824.Drive` — what happens to the role and to the elections in their loops.
* `Mit6824.Steered` — the same with the handlers, and with what needs no lock.

## Main results

* `Mit6824.Node.steered_of_exec` — every section that does not crash is among the cases.
-/

namespace Mit6824

variable {n : ℕ} {Cmd Snap : Type}

/-! ## What a section does to role and elections -/

/-- What a section that does not crash does to the role and to the elections in their loops. -/
inductive Drive (nd : Node n Cmd Snap) (inp : Input n Cmd Snap) (nd' : Node n Cmd Snap) : Prop
  | same (hrole : nd'.rf.role = nd.rf.role) (hinp : inp ≠ .act .startElection)
      (hpush : nd.pushes inp = false)
      (hlisten : (∃ e ∈ nd.elections, e.listening = true) →
        ∃ e ∈ nd'.elections, e.listening = true)
  | grant (hrole : nd'.rf.role = nd.rf.role) (h : ℕ) (hinp : inp = .act (.grantVote h))
      (hpush : nd.pushes inp = true)
  | quit (hrole : nd'.rf.role = nd.rf.role) (k : ℕ) (hinp : inp = .act (.electionQuit k))
  | follow (hrole : nd'.rf.role = .follower) (hinp : inp ≠ .act .startElection)
  | bump (hinp : inp = .act .startElection ∨ ∃ k, inp = .act (.electionTimeout k))
      (hrole : nd.rf.role ≠ .leader) (hrole' : nd'.rf.role = .candicate)
      (hlisten : ∃ e ∈ nd'.elections, e.listening = true)
  | lead (hrole : nd'.rf.role = .leader) (hpush : nd.pushes inp = false)

/-- The same with the handlers that are between their two sections, and what an input does that
is not handled under the lock. -/
structure Steered (nd : Node n Cmd Snap) (inp : Input n Cmd Snap) (nd' : Node n Cmd Snap) :
    Prop where
  drive : Drive nd inp nd'
  handlers : ∀ hd ∈ nd'.voteHandlers,
    hd ∈ nd.voteHandlers ∨ ∃ dst g, inp = .recv (.requestVote dst hd.args) g
  unlocked : nd.locks inp = false → nd'.rf = nd.rf ∧ nd'.voteHandlers = nd.voteHandlers

section Steered

open Node

variable {nd nd₀ : Node n Cmd Snap} {inp : Input n Cmd Snap} {eff : Effect n Cmd Snap} {α : Type}

/-- A section that finishes has left a Raft state and a result. -/
lemma Node.of_critical_eq_ok {o : Outcome n Cmd Snap α}
    {k : Node n Cmd Snap → α → Effect n Cmd Snap} (h : NodeOutcome.ok eff = critical nd₀ o k) :
    ∃ rf a, o = .ok rf a ∧ eff = k (nd₀.setRaft rf) a := by
  cases o with
  | ok rf a => exact ⟨rf, a, rfl, NodeOutcome.ok.inj h⟩
  | panic p rf => cases h

/-- An input that keeps the role, the handlers and the elections. -/
lemma Steered.of_same {nd' : Node n Cmd Snap} (hrole : nd'.rf.role = nd.rf.role)
    (hinp : inp ≠ .act .startElection) (hpush : nd.pushes inp = false)
    (helections : nd'.elections = nd.elections)
    (hhandlers : nd'.voteHandlers = nd.voteHandlers)
    (hlock : nd.locks inp = false → nd'.rf = nd.rf) : Steered nd inp nd' where
  drive := .same hrole hinp hpush (by rw [helections]; exact id)
  handlers hd hhd := Or.inl (hhandlers ▸ hhd)
  unlocked h := ⟨hlock h, hhandlers⟩

/-- One election is replaced by a state of it that is in its loop if it was.

**Proof sketch.** An election in its loop is the one that is replaced, and then its new state is in
the loop, or it is still there. -/
lemma Steered.of_set {k : ℕ} {e e' : Election n} {nd' : Node n Cmd Snap}
    (hk : nd.elections[k]? = some e) (helections : nd'.elections = nd.elections.set k e')
    (hlisten : e'.listening = e.listening) (hrf : nd'.rf = nd.rf)
    (hhandlers : nd'.voteHandlers = nd.voteHandlers) (hinp : inp ≠ .act .startElection)
    (hpush : nd.pushes inp = false) : Steered nd inp nd' where
  drive := by
    refine .same (by rw [hrf]) hinp hpush ?_
    rintro ⟨a, ha, hal⟩
    rw [helections]
    obtain ⟨j, hj⟩ := List.getElem?_of_mem ha
    by_cases hjk : k = j
    · subst hjk
      obtain rfl : e = a := Option.some.inj (hk.symm.trans hj)
      have hlt : k < nd.elections.length := (List.getElem?_eq_some_iff.mp hj).1
      exact ⟨e', List.mem_set hlt e', hlisten.trans hal⟩
    · have hj' : (nd.elections.set k e')[j]? = some a := by rw [List.getElem?_set_ne hjk, hj]
      exact ⟨a, List.mem_of_getElem? hj', hal⟩
  handlers hd hhd := Or.inl (hhandlers ▸ hhd)
  unlocked _ := ⟨hrf, hhandlers⟩

/-- A section that makes the server a follower or keeps its role. -/
lemma Steered.of_follow {o : Outcome n Cmd Snap α}
    {k : Node n Cmd Snap → α → Effect n Cmd Snap} {p : Prop} [Decidable p] {t : ℕ}
    (h : NodeOutcome.ok eff = critical nd o k)
    (hv : o.state.view = if p then nd.rf.followed t else nd.rf.view)
    (hinp : inp ≠ .act .startElection) (hpush : ¬ p → nd.pushes inp = false)
    (hlock : nd.locks inp = true)
    (hk : ∀ nd' a, (k nd' a).node.rf = nd'.rf ∧ (k nd' a).node.elections = nd'.elections ∧
      ∀ hd ∈ (k nd' a).node.voteHandlers,
        hd ∈ nd'.voteHandlers ∨ ∃ dst g, inp = .recv (.requestVote dst hd.args) g) :
    Steered nd inp eff.node := by
  obtain ⟨rf, a, rfl, rfl⟩ := of_critical_eq_ok h
  obtain ⟨hrf, helections, hhandlers⟩ := hk (nd.setRaft rf) a
  refine ⟨?_, hhandlers, fun hl => by simp [hlock] at hl⟩
  rw [Outcome.state_ok] at hv
  split_ifs at hv with hp
  · simp only [Raft.view, Raft.followed, View.mk.injEq] at hv
    exact .follow (by rw [hrf]; exact hv.2.2.2) hinp
  · simp only [Raft.view, View.mk.injEq] at hv
    refine .same (by rw [hrf]; exact hv.2.2.2) hinp (hpush hp) ?_
    rw [helections]
    exact id

/-- A section that keeps term, vote and role. -/
lemma Steered.of_keep {o : Outcome n Cmd Snap α}
    {k : Node n Cmd Snap → α → Effect n Cmd Snap}
    (h : NodeOutcome.ok eff = critical nd₀ o k) (hv : o.state.view = nd.rf.view)
    (hinp : inp ≠ .act .startElection) (hpush : nd.pushes inp = false)
    (hlock : nd.locks inp = true) (helections₀ : nd₀.elections = nd.elections)
    (hhandlers₀ : nd₀.voteHandlers = nd.voteHandlers)
    (hk : ∀ nd' a, (k nd' a).node.rf = nd'.rf ∧ (k nd' a).node.elections = nd'.elections ∧
      (k nd' a).node.voteHandlers = nd'.voteHandlers) : Steered nd inp eff.node := by
  obtain ⟨rf, a, rfl, rfl⟩ := of_critical_eq_ok h
  obtain ⟨hrf, helections, hhandlers⟩ := hk (nd₀.setRaft rf) a
  rw [Outcome.state_ok] at hv
  simp only [Raft.view, View.mk.injEq] at hv
  exact Steered.of_same (by rw [hrf]; exact hv.2.2.2) hinp hpush (helections.trans helections₀)
    (hhandlers.trans hhandlers₀) fun hl => by simp [hlock] at hl

/-- A turn of `StartElection` starts a term and listens, unless the server leads.

**Proof sketch.** A leader returns no request and stays leader. Any other server returns one, starts
a new term and has a new election in its loop. -/
lemma Steered.of_turn (h : NodeOutcome.ok eff = nd₀.turn) (h₀ : nd₀.rf = nd.rf)
    (hhandlers₀ : nd₀.voteHandlers = nd.voteHandlers)
    (hinp : inp = .act .startElection ∨ ∃ k, inp = .act (.electionTimeout k)) :
    Steered nd inp eff.node := by
  have hlock : nd.locks inp = true := by
    rcases hinp with rfl | ⟨k, rfl⟩ <;> rfl
  obtain ⟨rf, a, ho, rfl⟩ := of_critical_eq_ok h
  have hstate := congrArg Outcome.state ho
  rw [h₀, Raft.state_startElection, Outcome.state_ok] at hstate
  refine ⟨?_, ?_, fun hl => by simp [hlock] at hl⟩
  · cases a with
    | none =>
      refine .lead ?_ (by rcases hinp with rfl | ⟨k, rfl⟩ <;> rfl)
      change rf.role = .leader
      -- a server that is not leader returns a request
      rw [h₀] at ho
      obtain ⟨hl, heq⟩ | ⟨-, -, heq⟩ | ⟨last, -, -, heq⟩ := Raft.startElection_cases nd.rf <;>
        rw [heq] at ho
      · obtain rfl := (Outcome.ok.inj ho).1
        exact hl
      · simp at ho
      · simp at ho
    | some args =>
      obtain ⟨hrole, -⟩ := Raft.startElection_eq_some (h₀ ▸ ho)
      rw [if_neg hrole] at hstate
      refine .bump hinp hrole (by change rf.role = _; rw [← hstate]; rfl) ?_
      exact ⟨_, List.mem_append_right _ (List.mem_singleton.mpr rfl), rfl⟩
  · intro hd hhd
    left
    rw [← hhandlers₀]
    cases a <;> exact hhd

/-- The second section of `RequestVote`. -/
lemma Steered.of_grantVote {h : ℕ} {hd : VoteHandler n} {nd' : Node n Cmd Snap}
    (hrf : nd'.rf = (nd.rf.requestVoteGrant hd.args).1) (helections : nd'.elections = nd.elections)
    (hhandlers : nd'.voteHandlers = nd.voteHandlers.eraseIdx h) :
    Steered nd (.act (.grantVote h)) nd' := by
  have hrole : nd'.rf.role = nd.rf.role := by
    rw [hrf]
    exact Raft.requestVoteGrant_rule (P := fun r => r.role = nd.rf.role) hd.args rfl rfl
  refine ⟨?_, fun a ha => ?_, fun hl => by cases hl⟩
  · by_cases hpush : nd.pushes (.act (.grantVote h)) = true
    · exact .grant hrole h rfl hpush
    · refine .same hrole (by simp) (by simpa using hpush) ?_
      rw [helections]
      exact id
  · rw [hhandlers] at ha
    exact Or.inl ((List.eraseIdx_sublist _ _).subset ha)

variable [DecidableEq Cmd] [DecidableEq Snap]

/-- **Every section that does not crash steers the server in one of these ways.**

**Proof sketch.** By the transition. Inputs that leave the role alone are `Steered.of_same` and
`Steered.of_keep`, handlers that may follow a later term are `Steered.of_follow`, and a reply to
`RequestVote` changes one election. -/
theorem Node.steered_of_exec (ho : nd.exec inp = some (.ok eff)) (hr : inp ≠ .act .restart) :
    Steered nd inp eff.node := by
  have htrans := trans_of_exec ho
  generalize hout : NodeOutcome.ok eff = o at htrans
  cases htrans with
  | restart => exact absurd rfl hr
  | startElection => exact .of_turn hout rfl rfl (Or.inl rfl)
  | electionTimeout => exact .of_turn hout rfl rfl (Or.inr ⟨_, rfl⟩)
  | electionQuit =>
    obtain rfl := NodeOutcome.ok.inj hout
    exact ⟨.quit rfl _ rfl, fun _ => Or.inl, fun _ => ⟨rfl, rfl⟩⟩
  | askVote =>
    obtain rfl := NodeOutcome.ok.inj hout
    exact .of_same rfl (by simp) rfl rfl rfl fun _ => rfl
  | askNothing he =>
    obtain rfl := NodeOutcome.ok.inj hout
    exact .of_set he rfl rfl rfl rfl (by simp) rfl
  | stepDown =>
    obtain rfl := NodeOutcome.ok.inj hout
    exact ⟨.follow rfl (by simp), fun _ => Or.inl, fun hl => by cases hl⟩
  | grantVote =>
    obtain rfl := NodeOutcome.ok.inj hout
    exact .of_grantVote rfl rfl rfl
  | @beat b bt =>
    refine .of_keep hout (by rw [Raft.state_heartBeatToServer]) (by simp) rfl rfl rfl rfl
      fun nd' a => ?_
    cases a <;> exact ⟨rfl, rfl, rfl⟩
  | @sendAppend b bt =>
    refine .of_keep hout (by rw [Raft.state_buildAppend]) (by simp) rfl rfl rfl rfl
      fun nd' a => ?_
    cases a <;> exact ⟨rfl, rfl, rfl⟩
  | sendInstall =>
    obtain rfl := NodeOutcome.ok.inj hout
    exact .of_same rfl (by simp) rfl rfl rfl fun _ => rfl
  | beatRetry =>
    obtain rfl := NodeOutcome.ok.inj hout
    exact .of_same rfl (by simp) rfl rfl rfl fun _ => rfl
  | start command =>
    exact .of_keep hout (Raft.view_start _ _) (by simp) rfl rfl rfl rfl
      fun _ _ => ⟨rfl, rfl, rfl⟩
  | deliver =>
    obtain rfl := NodeOutcome.ok.inj hout
    exact .of_same rfl (by simp) rfl rfl rfl fun _ => rfl
  | capture =>
    obtain rfl := NodeOutcome.ok.inj hout
    exact .of_same rfl (by simp) rfl rfl rfl fun _ => rfl
  | takeSnapshot =>
    exact .of_keep hout (Raft.view_takeSnapshot _ _ _) (by simp) rfl rfl rfl rfl
      fun _ _ => ⟨rfl, rfl, rfl⟩
  | requestVote dst args g =>
    refine .of_follow hout (Raft.view_requestVoteCheck _ _) (by simp) (fun _ => rfl) rfl
      fun nd' a => ?_
    split_ifs
    · refine ⟨rfl, rfl, fun hd hhd => ?_⟩
      rcases List.mem_append.mp hhd with hold | hnew
      · exact Or.inl hold
      · obtain rfl := List.mem_singleton.mp hnew
        exact Or.inr ⟨dst, g, rfl⟩
    · exact ⟨rfl, rfl, fun _ => Or.inl⟩
  | win he hl hsrc hw =>
    obtain ⟨rf, a, hok, rfl⟩ := of_critical_eq_ok hout
    have hv := Raft.view_becomeLeader nd.rf
    simp only [hok, Outcome.state_ok, Raft.view, View.mk.injEq] at hv
    refine ⟨.lead hv.2.2.2 rfl, fun _ => Or.inl, fun hunlocked => ?_⟩
    have hmem := mem_winning he hl hsrc hw
    simp [locks, Option.mem_def.mp hmem] at hunlocked
  | count he =>
    obtain rfl := NodeOutcome.ok.inj hout
    exact .of_set he rfl rfl rfl rfl (by simp) rfl
  | refusal _ he =>
    obtain rfl := NodeOutcome.ok.inj hout
    exact .of_set he rfl rfl rfl rfl (by simp) rfl
  | appendEntries dst args =>
    refine .of_follow (p := ¬ args.leaderTerm < nd.rf.currentTerm) (t := args.leaderTerm) hout ?_
      (by simp) (fun hlt => ?_) rfl fun _ _ => ⟨rfl, rfl, fun _ => Or.inl⟩
    · rw [Raft.view_appendEntries, ite_not]
    · have hlt' := not_not.mp hlt
      simp [pushes, Nat.not_le.mpr hlt']
  | appendReply reply =>
    exact .of_follow hout (Raft.view_appendReply _ _ _ _) (by simp) (fun _ => rfl) rfl
      fun _ _ => ⟨rfl, rfl, fun _ => Or.inl⟩
  | installSnapshot dst args =>
    exact .of_follow hout (Raft.view_installSnapshot _ _) (by simp) (fun _ => rfl) rfl
      fun _ _ => ⟨rfl, rfl, fun _ => Or.inl⟩
  | installReply reply =>
    exact .of_follow hout (Raft.view_installReply _ _ _ _) (by simp) (fun _ => rfl) rfl
      fun _ _ => ⟨rfl, rfl, fun _ => Or.inl⟩

end Steered

end Mit6824
