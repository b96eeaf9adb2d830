import Mit6824.Raft.Steering

set_option autoImplicit false

/-!
# Every role has a live driver

A follower needs a `TimeOutToElection` goroutine, or a `StartElection` goroutine that has stopped
one; a candidate needs a `StartElection` goroutine inside its loop. The first is so in every run.
The second fails when a token that was meant for the follower is left in `heartBeatCh` and ends
the election, and the goroutines are of no use when a handler keeps the lock because nobody reads
`heartBeatCh`. Here is that nothing else goes wrong.

## Main definitions

* `Mit6824.Server.Ok` — the goroutines of a server are in order.

## Main results

* `Mit6824.Server.Ok.step` — every fresh step keeps them in order.
* `Mit6824.Server.every_role_driven` — in every run whose steps are fresh, every role has its
  goroutine, and a server that is not leader can start an election by itself.
* `Mit6824.Server.role_without_driver` — what happens otherwise.
-/

namespace Mit6824

variable {n : ℕ} {Cmd Snap : Type}

/-! ## The invariant -/

namespace Server

variable {s : Server n Cmd Snap} {nd : Node n Cmd Snap} {inp : Input n Cmd Snap}

section Fields

/-- The node that is put in place. -/
@[simp] lemma node_put : (s.put nd).node = nd := by
  unfold put; split_ifs <;> rfl

/-- Putting a node in place leaves the goroutines that enter `StartElection`. -/
@[simp] lemma entering_put : (s.put nd).entering = s.entering := by
  unfold put; split_ifs <;> rfl

/-- Putting a node in place leaves the tokens. -/
@[simp] lemma tokens_put : (s.put nd).tokens = s.tokens := by
  unfold put; split_ifs <;> rfl

/-- Putting a node in place leaves the handler that waits. -/
@[simp] lemma sending_put : (s.put nd).sending = s.sending := by
  unfold put; split_ifs <;> rfl

/-- A server that becomes a follower has a `TimeOutToElection` goroutine more. -/
lemma timers_put_of_follow (h : s.node.rf.role ≠ .follower) (h' : nd.rf.role = .follower) :
    (s.put nd).timers = s.timers + 1 := by
  unfold put; rw [if_pos ⟨h, h'⟩]

/-- Putting a node in place ends no `TimeOutToElection` goroutine. -/
lemma le_timers_put : s.timers ≤ (s.put nd).timers := by
  unfold put; split_ifs
  · exact Nat.le_succ _
  · exact le_rfl

/-- What an input uses up is not in the node. -/
@[simp] lemma node_charge : (s.charge inp).node = s.node := by
  unfold charge; split <;> rfl

/-- No input uses up a `TimeOutToElection` goroutine. -/
@[simp] lemma timers_charge : (s.charge inp).timers = s.timers := by
  unfold charge; split <;> rfl

/-- No input uses up the handler that waits. -/
@[simp] lemma sending_charge : (s.charge inp).sending = s.sending := by
  unfold charge; split <;> rfl

/-- An input uses up at most a token. -/
lemma tokens_charge_le (s : Server n Cmd Snap) (inp : Input n Cmd Snap) :
    (s.charge inp).tokens ≤ s.tokens := by
  unfold charge; split <;> simp

/-- Only the start of an election uses up a goroutine that enters `StartElection`. -/
lemma entering_charge (h : inp ≠ .act .startElection) : (s.charge inp).entering = s.entering := by
  unfold charge; split
  · exact absurd rfl h
  · rfl
  · rfl

/-- The server after a section that does not crash. -/
lemma settle_ok {eff : Effect n Cmd Snap} (hr : inp ≠ .act .restart) :
    s.settle inp (.ok eff) =
      { (s.charge inp).put eff.node with
        tokens := (s.charge inp).tokens + if s.node.pushes inp = true then 1 else 0 } := by
  unfold settle
  split
  · rename_i h
    cases h
  · rename_i h
    obtain rfl := NodeOutcome.ok.inj h
    split
    · exact absurd rfl hr
    · dsimp only
      split_ifs
      · rw [tokens_put]
      · have htokens : ((s.charge inp).put eff.node).tokens = (s.charge inp).tokens := tokens_put
        rw [← htokens]
        rfl

end Fields

/-- The node of a server whose goroutines are in order: it is saved, no handler grants a vote in
the server's own name, and a candidate has voted for itself. -/
structure NodeOk (nd : Node n Cmd Snap) : Prop where
  saved : nd.rf.Saved
  foreign : ∀ hd ∈ nd.voteHandlers, hd.args.candicateId ≠ nd.rf.me
  own : nd.rf.role = .candicate → nd.rf.votedFor = some nd.rf.me

/-- The goroutines of a server are in order. -/
structure Ok (s : Server n Cmd Snap) : Prop where
  node : NodeOk s.node
  follower : s.node.rf.role = .follower → 0 < s.timers ∨ 0 < s.entering
  candidate : s.node.rf.role = .candicate →
    s.tokens = 0 ∧ s.sending = none ∧ ∃ e ∈ s.node.elections, e.listening = true
  sending : ∀ inp ∈ s.sending, s.node.pushes inp = true
  drained : s.sending.isSome = true → 0 < s.timers

/-- A candidate does not push tokens: it becomes a follower first, or its vote is taken. -/
lemma NodeOk.pushes_of_candidate (h : NodeOk nd) (hrole : nd.rf.role = .candicate) {k : ℕ} :
    nd.pushes (.act (.grantVote k)) = false := by
  by_contra hpush
  rw [Bool.not_eq_false] at hpush
  obtain ⟨hd, hgrant⟩ := Option.isSome_iff_exists.mp hpush
  obtain ⟨hmem, hfree⟩ := Node.of_mem_granting (Option.mem_def.mpr hgrant)
  rw [h.own hrole] at hfree
  have hself : nd.rf.me = hd.args.candicateId := by simpa using hfree
  exact h.foreign hd hmem hself.symm

/-- A server that has just started is in order. -/
lemma ok_boot (hsaved : nd.rf.Saved) (hrole : nd.rf.role = .follower)
    (hhandlers : nd.voteHandlers = []) : (boot nd).Ok where
  node := ⟨hsaved, fun hd hhd => by simp [boot, hhandlers] at hhd,
    fun hr => by simp [boot, hrole] at hr⟩
  follower _ := Or.inl Nat.one_pos
  candidate hr := by simp [boot, hrole] at hr
  sending inp hinp := by cases hinp
  drained hs := by cases hs

/-- A server that starts again is in order. -/
lemma ok_boot_restart (nd : Node n Cmd Snap) : (boot nd.restart).Ok :=
  ok_boot (Raft.saved_make _ _) (by simp [Node.restart, Node.setRaft]) rfl

variable [DecidableEq Cmd] [DecidableEq Snap]

/-- A section keeps the node in order. -/
lemma NodeOk.exec {eff : Effect n Cmd Snap} (h : NodeOk nd)
    (hforeign : ∀ dst args g, inp = .recv (.requestVote dst args) g → args.candicateId ≠ nd.rf.me)
    (hr : inp ≠ .act .restart) (ho : nd.exec inp = some (.ok eff)) : NodeOk eff.node := by
  have hm : Moved nd inp eff.node := Node.exec_moved h.saved ho
  refine ⟨hm.saved, fun hd hhd => ?_, fun hrole => ?_⟩
  · rw [hm.me]
    rcases (Node.steered_of_exec ho hr).handlers hd hhd with hold | ⟨dst, g, hinp⟩
    · exact h.foreign hd hold
    · exact hforeign dst hd.args g hinp
  · rw [hm.me]
    exact hm.candidate h.own hrole

omit [DecidableEq Cmd] [DecidableEq Snap] in
/-- The token depends on the Raft state and on the handlers. -/
lemma pushes_congr {nd' : Node n Cmd Snap} (hrf : nd'.rf = nd.rf)
    (hhandlers : nd'.voteHandlers = nd.voteHandlers) : nd'.pushes inp = nd.pushes inp := by
  unfold Node.pushes Node.granting
  split <;> simp [hrf, hhandlers]

/-- The conditions under which the section of an input keeps the goroutines in order. -/
structure Runs (s : Server n Cmd Snap) (inp : Input n Cmd Snap) : Prop where
  foreign : ∀ dst args g, inp = .recv (.requestVote dst args) g →
    args.candicateId ≠ s.node.rf.me
  token : ∀ k, inp = .act (.electionQuit k) → 0 < s.tokens
  empty : s.bumps (.node inp) = true → s.tokens = 0
  lock : s.sending = none ∨ s.node.locks inp = false

omit [DecidableEq Cmd] [DecidableEq Snap] in
/-- A follower after a section: an old one keeps its goroutine, a new one gets one.

**Proof sketch.** A section that leaves a follower is not the start of an election, so the
goroutines of a follower stay; a server that becomes one gets a `TimeOutToElection` goroutine. -/
lemma Ok.follower_put {nd' : Node n Cmd Snap} (h : s.Ok) (hsteered : Steered s.node inp nd')
    (hrole : nd'.rf.role = .follower) :
    0 < ((s.charge inp).put nd').timers ∨ 0 < (s.charge inp).entering := by
  have hne : inp ≠ .act .startElection := by
    cases hsteered.drive with
    | same _ hinp => exact hinp
    | grant _ k hinp => rw [hinp]; simp
    | quit _ k hinp => rw [hinp]; simp
    | follow _ hinp => exact hinp
    | bump _ _ hrole' => rw [hrole'] at hrole; cases hrole
    | lead hrole' => rw [hrole'] at hrole; cases hrole
  rw [entering_charge hne]
  by_cases hold : s.node.rf.role = .follower
  · refine (h.follower hold).imp (fun ht => ?_) id
    have hle : (s.charge inp).timers ≤ ((s.charge inp).put nd').timers := le_timers_put
    rw [timers_charge] at hle
    exact ht.trans_le hle
  · left
    rw [timers_put_of_follow (by simpa using hold) hrole]
    exact Nat.succ_pos _

omit [DecidableEq Cmd] [DecidableEq Snap] in
/-- A candidate after a section: its term is new, or nothing has happened to its election.

**Proof sketch.** By what the input did to role and term. If the role is the same, no token was
there and none is pushed; a grant or a stopped election is impossible for a candidate. A new term is
begun with an empty channel and with the lock, so that no handler waits. -/
lemma Ok.candidate_put {nd' : Node n Cmd Snap} (h : s.Ok) (hruns : s.Runs inp)
    (hsteered : Steered s.node inp nd') (hrole : nd'.rf.role = .candicate) :
    (s.charge inp).tokens = 0 ∧ s.node.pushes inp = false ∧ s.sending = none ∧
      ∃ e ∈ nd'.elections, e.listening = true := by
  have hle := tokens_charge_le s inp
  cases hsteered.drive with
  | same hsame _ hpush hlisten =>
    obtain ⟨htokens, hsending, hl⟩ := h.candidate (hsame ▸ hrole)
    exact ⟨by omega, hpush, hsending, hlisten hl⟩
  | grant hsame k hinp hpush =>
    subst hinp
    rw [h.node.pushes_of_candidate (hsame ▸ hrole)] at hpush
    cases hpush
  | quit hsame k hinp =>
    have htoken := hruns.token k hinp
    rw [(h.candidate (hsame ▸ hrole)).1] at htoken
    cases htoken
  | follow hrole' => rw [hrole'] at hrole; cases hrole
  | bump hinp hne _ hlisten =>
    have hfacts : s.bumps (.node inp) = true ∧ s.node.locks inp = true ∧
        s.node.pushes inp = false := by
      rcases hinp with rfl | ⟨k, rfl⟩ <;> exact ⟨by simpa [bumps] using hne, rfl, rfl⟩
    obtain ⟨hbumps, hlocks, hpush⟩ := hfacts
    have htokens := hruns.empty hbumps
    refine ⟨by omega, hpush, ?_, hlisten⟩
    rcases hruns.lock with hnone | hfree
    · exact hnone
    · rw [hlocks] at hfree; cases hfree
  | lead hrole' => rw [hrole'] at hrole; cases hrole

/-- A section that does not crash keeps the goroutines in order.

**Proof sketch.** By the role afterwards: `Ok.follower_put` and `Ok.candidate_put`. A handler that
waits has the lock, so the section changed nothing on which its token depends. -/
lemma Ok.settle_ok {eff : Effect n Cmd Snap} (h : s.Ok) (hruns : s.Runs inp)
    (hr : inp ≠ .act .restart) (ho : s.node.exec inp = some (.ok eff))
    (hdrained : s.sending.isSome = true → 0 < (s.settle inp (.ok eff)).timers) :
    (s.settle inp (.ok eff)).Ok := by
  have hsteered := Node.steered_of_exec ho hr
  have hnode := h.node.exec hruns.foreign hr ho
  rw [Server.settle_ok hr] at hdrained ⊢
  refine ⟨by simpa using hnode, fun hrole => ?_, fun hrole => ?_, fun a ha => ?_, ?_⟩
  · simp only [node_put, entering_put] at hrole ⊢
    exact h.follower_put hsteered hrole
  · simp only [node_put, sending_put, sending_charge] at hrole ⊢
    obtain ⟨htokens, hpush, hrest⟩ := h.candidate_put hruns hsteered hrole
    exact ⟨by simp [htokens, hpush], hrest⟩
  · -- the input put aside still has its token to push
    simp only [node_put, sending_put, sending_charge] at ha ⊢
    rcases hruns.lock with hnone | hfree
    · rw [hnone] at ha; cases ha
    · obtain ⟨hrf, hhandlers⟩ := hsteered.unlocked hfree
      rw [pushes_congr hrf hhandlers]
      exact h.sending a ha
  · simpa using hdrained

/-- A section keeps the goroutines in order; a crash starts the server anew. -/
lemma Ok.run {s' : Server n Cmd Snap} (h : s.Ok) (hruns : s.Runs inp) (hs : s.run inp = some s')
    (hdrained : s'.sending.isSome = true → 0 < s'.timers) : s'.Ok := by
  obtain ⟨o, ho, rfl⟩ := Option.map_eq_some_iff.mp hs
  cases o with
  | panic p nd => exact ok_boot_restart nd
  | ok eff =>
    by_cases hr : inp = .act .restart
    · subst hr
      have heff : NodeOutcome.ok { node := s.node.restart } = NodeOutcome.ok eff :=
        Option.some.inj ho
      obtain rfl := NodeOutcome.ok.inj heff
      exact ok_boot_restart s.node
    · refine h.settle_ok hruns hr ho fun hsome => hdrained ?_
      rw [Server.settle_ok hr]
      simpa using hsome

omit [DecidableEq Cmd] [DecidableEq Snap] in
/-- A handler that finds `heartBeatCh` full keeps the goroutines in order.

**Proof sketch.** By the handler. Before it pushes, `AppendEntries` has made the server a follower,
and a vote is granted by a follower only. In both cases the goroutine that drains the channel is
there. -/
lemma Ok.block (h : s.Ok) (hpush : s.node.pushes inp = true)
    (hdrained : 0 < (s.put (s.node.untilPush inp)).timers) :
    Ok { s.put (s.node.untilPush inp) with sending := some inp } := by
  rcases Node.pushes_cases hpush with ⟨dst, args, g, rfl⟩ | ⟨k, rfl⟩
  · have hrole : (s.node.untilPush (.recv (.appendEntries dst args) g)).rf.role = .follower := rfl
    refine ⟨⟨?_, ?_, ?_⟩, fun _ => Or.inl hdrained, fun hc => ?_, fun a ha => ?_,
      fun _ => hdrained⟩
    · rw [node_put]
      exact Raft.saved_becomeFollower s.node.rf args.leaderTerm
    · simpa [Node.untilPush, Node.setRaft, Raft.becomeFollower, Raft.persist] using h.node.foreign
    · intro hc
      simp [hrole] at hc
    · simp [hrole] at hc
    · obtain rfl := Option.mem_some.mp ha
      simp [Node.pushes, Node.untilPush, Node.setRaft, Raft.becomeFollower, Raft.persist]
  · refine ⟨by simpa [Node.untilPush] using h.node, fun _ => Or.inl hdrained, fun hc => ?_,
      fun a ha => ?_, fun _ => hdrained⟩
    · rw [h.node.pushes_of_candidate (by simpa [Node.untilPush] using hc)] at hpush
      cases hpush
    · obtain rfl := Option.mem_some.mp ha
      simpa [Node.untilPush] using hpush

omit [DecidableEq Cmd] [DecidableEq Snap] in
/-- The handler that waits for room may go on. -/
lemma Ok.resume (h : s.Ok) (hs : s.sending = some inp) :
    Ok { s with sending := none } ∧ Runs { s with sending := none } inp := by
  refine ⟨⟨h.node, h.follower, fun hc => ?_, (fun a ha => by cases ha), (fun hd => by cases hd)⟩,
    ?_⟩
  · obtain ⟨htokens, -, hlisten⟩ := h.candidate hc
    exact ⟨htokens, rfl, hlisten⟩
  · rcases Node.pushes_cases (h.sending inp hs) with ⟨dst, args, g, rfl⟩ | ⟨k, rfl⟩ <;>
      exact ⟨by simp, by simp, by simp [bumps], Or.inl rfl⟩

/-- **Every fresh step keeps the goroutines in order.**

**Proof sketch.** By the action. A goroutine that takes a token is not one of a candidate, because a
candidate has none. A handler that waited, or an input that does not push into a full channel, runs
(`Ok.run`); one that does waits (`Ok.block`). -/
theorem Ok.step {s' : Server n Cmd Snap} {a : Act n Cmd Snap} (h : s.Ok) (hfresh : s.Fresh a)
    (hs : s.step a = some s') : s'.Ok := by
  have hdrained := hfresh.2 s' hs
  cases a with
  | tick =>
    simp only [Server.step] at hs
    split_ifs at hs
    · obtain rfl := Option.some.inj hs
      exact ⟨h.node, h.follower, h.candidate, h.sending, h.drained⟩
    · obtain rfl := Option.some.inj hs
      exact ⟨h.node, h.follower, h.candidate, h.sending, h.drained⟩
  | take =>
    simp only [Server.step] at hs
    split_ifs at hs with htake
    obtain rfl := Option.some.inj hs
    refine ⟨h.node, h.follower, fun hc => ?_, h.sending, h.drained⟩
    -- a candidate has no token to take
    rw [(h.candidate hc).1] at htake
    exact absurd htake.2 (Nat.lt_irrefl 0)
  | quit =>
    simp only [Server.step] at hs
    split_ifs at hs
    obtain rfl := Option.some.inj hs
    exact ⟨h.node, fun _ => Or.inr (Nat.succ_pos _), h.candidate, h.sending, hdrained⟩
  | resume =>
    simp only [Server.step] at hs
    split at hs
    · cases hs
    · rename_i inp hsending
      split_ifs at hs
      obtain ⟨hok, hruns⟩ := h.resume hsending
      exact hok.run hruns hs hdrained
  | node inp =>
    simp only [Server.step] at hs
    split_ifs at hs with hguard hfull
    · obtain rfl := Option.some.inj hs
      exact h.block hfull.1 (hdrained rfl)
    · refine h.run ⟨?_, ?_, hfresh.1, ?_⟩ hs hdrained
      · rintro dst args g rfl
        exact of_decide_eq_true hguard.1
      · rintro k rfl
        exact of_decide_eq_true hguard.1
      · exact hguard.2.imp_left Option.isNone_iff_eq_none.mp

/-! ## Starting an election -/

/-- A `StartElection` goroutine that got through starts a term. -/
lemma canElect_of_entering (hrole : s.node.rf.role ≠ .leader) (hfree : s.sending = none)
    (he : 0 < s.entering) : s.CanElect := by
  refine .now (.node (.act .startElection)) (by simpa [bumps] using hrole) ?_
  simp [Server.step, ready, he, hfree, Node.pushes, Server.run, Node.exec, Node.act]

/-- A `StartElection` goroutine that waits at `quitElection` gets through. -/
lemma canElect_of_blocked (hrole : s.node.rf.role ≠ .leader) (hfree : s.sending = none)
    (ht : 0 < s.timers) (hb : 0 < s.blocked) : s.CanElect :=
  .after .quit rfl (if_pos ⟨ht, hb⟩) (canElect_of_entering hrole hfree (Nat.succ_pos _))

/-- A `TimeOutToElection` goroutine whose ticker has counted no heartbeat spawns one. -/
lemma canElect_of_silence (hrole : s.node.rf.role ≠ .leader) (hfree : s.sending = none)
    (ht : 0 < s.timers) (hcnt : s.heartBeatCnt = 0) : s.CanElect := by
  have hstep : s.step .tick = some { s with blocked := s.blocked + 1 } := by
    simp [Server.step, ht, hcnt]
  exact .after .tick rfl hstep (canElect_of_blocked hrole hfree ht (Nat.succ_pos _))

/-- A `TimeOutToElection` goroutine is enough: its second tick counts no heartbeat. -/
lemma canElect_of_timer (hrole : s.node.rf.role ≠ .leader) (hfree : s.sending = none)
    (ht : 0 < s.timers) : s.CanElect := by
  rcases Nat.eq_zero_or_pos s.heartBeatCnt with hcnt | hcnt
  · exact canElect_of_silence hrole hfree ht hcnt
  · have hstep : s.step .tick = some { s with heartBeatCnt := 0 } := by
      simp [Server.step, ht, hcnt]
    exact .after .tick rfl hstep (canElect_of_silence hrole hfree ht rfl)

/-- A candidate's election ends its turn with a new term, or steps down and leaves a
`TimeOutToElection` goroutine.

**Proof sketch.** If the election has not been told to step down, its timeout begins a new term at
once. Otherwise it steps down first, which starts a `TimeOutToElection` goroutine. -/
lemma canElect_of_candidate (hrole : s.node.rf.role = .candicate) (hfree : s.sending = none)
    {e : Election n} (he : e ∈ s.node.elections) (hlisten : e.listening = true) :
    s.CanElect := by
  obtain ⟨k, hk⟩ := List.getElem?_of_mem he
  cases hdown : e.stepDown with
  | none =>
    refine .now (.node (.act (.electionTimeout k))) (by simp [bumps, hrole]) ?_
    simp [Server.step, ready, hfree, Node.pushes, Server.run, Node.exec, Node.act, hk, hlisten,
      hdown]
  | some t =>
    have hexec : s.node.exec (.act (.stepDown k)) = some (.ok
        { node := (s.node.setRaft (s.node.rf.becomeFollower t)).stopListening k }) := by
      simp [Node.exec, Node.act, hk, hlisten, hdown]
    have hstep : s.step (.node (.act (.stepDown k))) = some (s.settle (.act (.stepDown k)) (.ok
        { node := (s.node.setRaft (s.node.rf.becomeFollower t)).stopListening k })) := by
      simp [Server.step, ready, hfree, Node.pushes, Server.run, hexec]
    refine .after _ rfl hstep ?_
    rw [Server.settle_ok (by simp)]
    refine canElect_of_timer ?_ (by simpa using hfree) ?_
    · simp [Node.stopListening, Node.setRaft, Raft.becomeFollower, Raft.persist]
    · rw [timers_put_of_follow]
      · exact Nat.succ_pos _
      · simp [hrole]
      · rfl

omit [DecidableEq Cmd] [DecidableEq Snap] in
/-- A crash leaves a follower with a `TimeOutToElection` goroutine. -/
lemma boot_restart_follower (nd : Node n Cmd Snap) :
    (boot nd.restart).node.rf.role = .follower ∧ (boot nd.restart).sending = none ∧
      0 < (boot nd.restart).timers := by
  simp [boot, Node.restart, Node.setRaft]

/-- A handler that pushes its token leaves a follower a follower, with its goroutines.

**Proof sketch.** The handler can run. If it panics, the server starts again as a follower.
Otherwise no case of `Steered` that pushes makes the server something else. -/
lemma run_of_pushes (hrole : s.node.rf.role = .follower) (hfree : s.sending = none)
    (ht : 0 < s.timers) (hpush : s.node.pushes inp = true) :
    ∃ s', s.run inp = some s' ∧ s'.node.rf.role = .follower ∧ s'.sending = none ∧
      0 < s'.timers := by
  obtain ⟨o, ho⟩ : ∃ o, s.node.exec inp = some o := by
    rcases Node.pushes_cases hpush with ⟨dst, args, g, rfl⟩ | ⟨k, rfl⟩
    · exact ⟨_, rfl⟩
    · obtain ⟨hd, hgrant⟩ := Option.isSome_iff_exists.mp hpush
      obtain ⟨hk, -⟩ := Option.filter_eq_some_iff.mp hgrant
      simp [Node.exec, Node.act, Node.grantVote, hk]
  refine ⟨s.settle inp o, by rw [Server.run, ho, Option.map_some], ?_⟩
  cases o with
  | panic p nd => exact boot_restart_follower nd
  | ok eff =>
    have hr : inp ≠ .act .restart := by rintro rfl; cases hpush
    have hfollower : eff.node.rf.role = .follower := by
      cases (Node.steered_of_exec ho hr).drive with
      | same _ _ hno => rw [hpush] at hno; cases hno
      | grant hsame => rw [hsame, hrole]
      | quit hsame => rw [hsame, hrole]
      | follow hf => exact hf
      | bump hinp => rcases hinp with rfl | ⟨k, rfl⟩ <;> cases hpush
      | lead _ hno => rw [hpush] at hno; cases hno
    rw [Server.settle_ok hr]
    refine ⟨by simpa using hfollower, by simpa using hfree, ?_⟩
    have hle : (s.charge inp).timers ≤ ((s.charge inp).put eff.node).timers := le_timers_put
    rw [timers_charge] at hle
    exact ht.trans_le hle

/-- A handler that waits for room gets it from a `TimeOutToElection` goroutine.

**Proof sketch.** Induction on the number of tokens: while the channel is full, the goroutine
takes one; then the handler goes on and leaves a follower with the goroutine. -/
lemma canElect_of_sending {m : ℕ} (hm : s.tokens = m) (hrole : s.node.rf.role = .follower)
    (hs : s.sending = some inp) (ht : 0 < s.timers) (hpush : s.node.pushes inp = true) :
    s.CanElect := by
  induction m generalizing s with
  | zero =>
    obtain ⟨s', hrun, hrole', hfree', ht'⟩ := run_of_pushes
      (show ({ s with sending := none } : Server n Cmd Snap).node.rf.role = .follower from hrole)
      rfl ht hpush
    have hroom : s.tokens < heartBeatCap := by
      rw [hm]
      decide
    have hstep : s.step .resume = some s' := by
      simp only [Server.step, hs, if_pos hroom, hrun]
    exact .after .resume rfl hstep (canElect_of_timer (by simp [hrole']) hfree' ht')
  | succ m ih =>
    have hstep : s.step .take =
        some { s with tokens := s.tokens - 1, heartBeatCnt := s.heartBeatCnt + 1 } :=
      if_pos ⟨ht, by omega⟩
    have hm' : s.tokens - 1 = m := by omega
    exact .after .take rfl hstep (ih hm' hrole hs ht hpush)

/-- Goroutines in order are enough to start an election. -/
lemma Ok.canElect (h : s.Ok) (hrole : s.node.rf.role ≠ .leader) : s.CanElect := by
  cases hr : s.node.rf.role with
  | follower =>
    cases hs : s.sending with
    | none =>
      rcases h.follower hr with ht | he
      · exact canElect_of_timer hrole hs ht
      · exact canElect_of_entering hrole hs he
    | some inp => exact canElect_of_sending rfl hr hs (h.drained (by simp [hs])) (h.sending inp hs)
  | candicate =>
    obtain ⟨-, hfree, e, he, hlisten⟩ := h.candidate hr
    exact canElect_of_candidate hr hfree he hlisten
  | leader => exact absurd hr hrole

/-- **Every role has a live driver.** When every new term finds `heartBeatCh` empty, and a
handler that waits at a full `heartBeatCh` has a `TimeOutToElection` goroutine: in every state
that a server reaches, a follower has a `TimeOutToElection` goroutine or a `StartElection`
goroutine about to enter its loop, a candidate has a `StartElection` goroutine inside its loop,
and a server that is not leader can start an election without any message.

**Proof sketch.** `Ok` is an invariant of fresh steps (`Ok.step`). It names the goroutines of each
role, and from it a server that is not leader can be led into an election. -/
theorem every_role_driven {me : Fin n} {s : Server n Cmd Snap}
    (h : Transition.Reach Server.step Server.Fresh (boot (Node.init me)) s) :
    s.Driven ∧ (s.node.rf.role ≠ .leader → s.CanElect) := by
  have hok : s.Ok := by
    refine h.invariant (ok_boot (Raft.saved_make me {}) (Raft.role_make me {}) rfl) ?_
    intro s a s' _ hs hfresh hstep
    exact hs.step hfresh hstep
  exact ⟨⟨hok.follower, fun hc => (hok.candidate hc).2.2⟩, hok.canElect⟩

/-- A heartbeat of leader 1 of term 1 arrives at server 0. -/
def heartbeat : Input 3 ℕ ℕ := .recv (.appendEntries 0 ⟨1, 1, none, none, [], 0⟩) 0

/-- The ticker of server 0 spawns `StartElection`, and a heartbeat arrives before this goroutine
starts a term; `TimeOutToElection` reads its token, and then it is stopped. -/
def freshTerm : List (Act 3 ℕ ℕ) :=
  [.tick, .node heartbeat, .take, .quit, .node (.act .startElection)]

/-- The candidate of term 2 has a `StartElection` goroutine inside its loop. -/
theorem every_role_driven_first : ∃ s : Server 3 ℕ ℕ,
    Transition.Reach Server.step Server.Fresh (boot (Node.init 0)) s ∧
    s.node.rf.role = .candicate ∧ s.node.rf.currentTerm = 2 ∧
    (∃ e ∈ s.node.elections, e.listening = true) ∧ s.CanElect := by
  obtain ⟨s, hreach, hrole, hterm⟩ : ∃ s : Server 3 ℕ ℕ,
      Transition.Reach Server.step Server.Fresh (boot (Node.init 0)) s ∧
      s.node.rf.role = .candicate ∧ s.node.rf.currentTerm = 2 :=
    Transition.Reach.exists_of_stepsIf freshTerm (by decide +kernel)
  obtain ⟨hdriven, helect⟩ := every_role_driven hreach
  exact ⟨s, hreach, hrole, hterm, hdriven.2 hrole, helect (by simp [hrole])⟩

/-! ## Roles without a driver -/

/-- A server without a `TimeOutToElection` goroutine and without an election in its loop, whose
lock is kept by a handler at a full `heartBeatCh` or that has no `StartElection` goroutine left,
does nothing by itself.

**Proof sketch.** By the action. Three of them need a `TimeOutToElection` goroutine and three an
election in its loop; the waiting handler finds the channel full, and a `StartElection` goroutine
does not exist or cannot get the lock. -/
lemma step_eq_none {a : Act n Cmd Snap} (ht : s.timers = 0)
    (hlisten : ∀ e ∈ s.node.elections, e.listening = false)
    (hstuck : (s.sending = none ∧ s.entering = 0) ∨
      (s.sending.isSome = true ∧ heartBeatCap ≤ s.tokens)) (hi : a.internal = true) :
    s.step a = none := by
  have hexec : ∀ k, s.node.exec (.act (.electionTimeout k)) = none ∧
      s.node.exec (.act (.electionQuit k)) = none ∧ s.node.exec (.act (.stepDown k)) = none := by
    intro k
    cases hk : s.node.elections[k]? with
    | none => simp [Node.exec, Node.act, hk]
    | some e =>
      have hoff := hlisten e (List.mem_of_getElem? hk)
      cases hdown : e.stepDown <;> simp [Node.exec, Node.act, hk, hoff, hdown]
  unfold Act.internal at hi
  split at hi
  · simp [Server.step, ht]
  · simp [Server.step, ht]
  · simp [Server.step, ht]
  · rcases hstuck with ⟨hfree, -⟩ | ⟨hsome, hfull⟩
    · simp [Server.step, hfree]
    · obtain ⟨inp, hs⟩ := Option.isSome_iff_exists.mp hsome
      simp [Server.step, hs, hfull]
  · rcases hstuck with ⟨-, hent⟩ | ⟨hsome, -⟩
    · simp [Server.step, ready, hent]
    · obtain ⟨inp, hs⟩ := Option.isSome_iff_exists.mp hsome
      simp [Server.step, hs, Node.locks]
  · simp [Server.step, Server.run, hexec, Node.pushes]
  · simp [Server.step, Server.run, hexec, Node.pushes]
  · simp [Server.step, Server.run, hexec, Node.pushes]
  · cases hi

/-- Such a server never starts an election by itself. -/
lemma not_canElect (ht : s.timers = 0)
    (hlisten : ∀ e ∈ s.node.elections, e.listening = false)
    (hstuck : (s.sending = none ∧ s.entering = 0) ∨
      (s.sending.isSome = true ∧ heartBeatCap ≤ s.tokens)) : ¬ s.CanElect := by
  intro h
  cases h with
  | now a hb hs =>
    have hi : a.internal = true := by
      unfold bumps at hb
      split at hb
      · rfl
      · rfl
      · cases hb
    rw [step_eq_none ht hlisten hstuck hi] at hs
    cases hs
  | after a hi hs =>
    rw [step_eq_none ht hlisten hstuck hi] at hs
    cases hs

/-- The same start as `freshTerm`, but `TimeOutToElection` is stopped before it reads the token,
and the new election reads it. -/
def staleToken : List (Act 3 ℕ ℕ) :=
  [.tick, .node heartbeat, .quit, .node (.act .startElection), .node (.act (.electionQuit 0))]

/-- Eight heartbeats fill `heartBeatCh`, `TimeOutToElection` is stopped, and the handler of the
ninth one waits with the lock. -/
def fullChannel : List (Act 3 ℕ ℕ) :=
  .tick :: List.replicate 8 (.node heartbeat) ++ [.quit, .node heartbeat]

/-- Without the condition a candidate loses its last goroutine to a token left in `heartBeatCh`,
and a follower's last goroutine waits for a lock that is never released. -/
theorem role_without_driver :
    (∃ s : Server 3 ℕ ℕ,
      Transition.Reach Server.step (fun _ _ => True) (boot (Node.init 0)) s ∧
      s.node.rf.role = .candicate ∧ ¬ s.Driven ∧ ¬ s.CanElect) ∧
    ∃ s : Server 3 ℕ ℕ,
      Transition.Reach Server.step (fun _ _ => True) (boot (Node.init 0)) s ∧
      s.node.rf.role = .follower ∧ ¬ s.CanElect := by
  constructor
  · obtain ⟨s, hreach, hrole, hdriven, ht, hlisten, hstuck⟩ : ∃ s : Server 3 ℕ ℕ,
        Transition.Reach Server.step (fun _ _ => True) (boot (Node.init 0)) s ∧
        s.node.rf.role = .candicate ∧ ¬ s.Driven ∧ s.timers = 0 ∧
        (∀ e ∈ s.node.elections, e.listening = false) ∧
        s.sending.isNone = true ∧ s.entering = 0 :=
      Transition.Reach.exists_of_stepsIf staleToken (by decide +kernel)
    exact ⟨s, hreach, hrole, hdriven, not_canElect ht hlisten
      (Or.inl ⟨Option.isNone_iff_eq_none.mp hstuck.1, hstuck.2⟩)⟩
  · obtain ⟨s, hreach, hrole, ht, hlisten, hstuck⟩ : ∃ s : Server 3 ℕ ℕ,
        Transition.Reach Server.step (fun _ _ => True) (boot (Node.init 0)) s ∧
        s.node.rf.role = .follower ∧ s.timers = 0 ∧
        (∀ e ∈ s.node.elections, e.listening = false) ∧
        s.sending.isSome = true ∧ heartBeatCap ≤ s.tokens :=
      Transition.Reach.exists_of_stepsIf fullChannel (by decide +kernel)
    exact ⟨s, hreach, hrole, not_canElect ht hlisten (Or.inr hstuck)⟩

end Server

end Mit6824
