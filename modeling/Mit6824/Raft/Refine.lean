import Mit6824.Raft.Replication

set_option autoImplicit false

/-!
# The cluster refines the replicated log

Every input of every server, put together from the critical sections: the server that handles it
agrees with a later abstract state, and so do the messages it sends. By induction, every state of
a run that meets the conditions refines the abstract protocol.

## Main definitions

* `Mit6824.NodeSound` — an input ends in agreement with a later abstract state.
* `Mit6824.Sane` — the conditions on a step.
* `Mit6824.Simulates` — the invariant of runs that meet them.

## Main results

* `Mit6824.exec_sound` — every input is sound.
* `Mit6824.refines_of_run` — every state of a sane run refines the replicated log.
-/

namespace Mit6824

open ReplicatedLog (EndsIn)

variable {n : ℕ} {Cmd Snap : Type} {tidy : Prop} {q : ℕ → Fin n → Prop} {i : Fin n}
  {G G' : Ghost n Cmd} {rf : Raft n Cmd Snap} {nd : Node n Cmd Snap}

/-- The end of an input at server `i` agrees with a later abstract state; a panic is no access
outside the log in a tidy run. -/
structure NodeSound (tidy : Prop) (q : ℕ → Fin n → Prop) (i : Fin n) (G : Ghost n Cmd)
    (o : NodeOutcome n Cmd Snap) (G' : Ghost n Cmd) : Prop where
  step : G.Step q i G'
  ghost : G'.Ok
  node : NodeOk tidy G' i (Node.finish o).node
  msg : ∀ m ∈ (Node.finish o).sends, MsgOk G' m
  panic : ∀ p nd, o = .panic p nd → tidy → p ≠ .indexOutOfRange

/-! ## Putting a Raft state in place -/

/-- What the goroutines and the service know stays true, and the Raft state is a new one. -/
lemma NodeOk.setRaft (h : NodeOk tidy G i nd) (hstep : G.Step q i G') (hrf : RaftOk tidy G' i rf) :
    NodeOk tidy G' i (nd.setRaft rf) where
  raft := hrf
  applied := h.applied.trans hstep.done_le.length_le
  captured s k hk := (h.captured s k hk).trans hstep.done_le.length_le
  past m hm := (h.past m hm).mono hstep.done_le
  handlers hd hmem := (h.handlers hd hmem).stable hstep
  votes T A hmem := (h.votes T A hmem).stable hstep
  elections e he := (h.elections e he).stable hstep
  beats := h.beats

/-- **A restart** finds the persistent values; everything else starts afresh.

**Proof sketch.** What was saved is what the server had, so term, log and snapshot are those of
before. The new server is a follower that has only delivered its snapshot, and it has no handlers,
elections or heartbeats. -/
lemma CrashOk.restart (h : CrashOk tidy G i nd.rf) (hpast : ∀ m ∈ nd.past, ChanOk tidy (G.done i) m)
    (hvotes : ∀ T A, (T, A) ∈ nd.votes → VoteOk G i T A) : NodeOk tidy G i nd.restart := by
  have henc : (Raft.make nd.rf.me nd.rf.persister).encodeRaftState = nd.rf.encodeRaftState := by
    have := h.saved
    rwa [Raft.Saved, Raft.addSentinel_of_ne_nil h.log.ne_nil] at this
  have hterm : (Raft.make nd.rf.me nd.rf.persister).currentTerm = nd.rf.currentTerm :=
    congrArg RaftState.currentTerm henc
  have hbase : (Raft.make nd.rf.me nd.rf.persister).lastIncludedIndex = nd.rf.lastIncludedIndex :=
    congrArg RaftState.lastIncludedIndex henc
  have hsnap : (Raft.make nd.rf.me nd.rf.persister).lastIncludedIndex ≤ (G.done i).length := by
    rw [hbase]
    exact h.snap_le
  refine ⟨RunningOk.follower ⟨⟨⟨?_, Raft.saved_make _ _, hterm.trans h.term, h.log.of_encode henc,
    h.base.trans hbase.symm, h.done_le, h.committed, hsnap⟩, fun m hm => .of_make hm hsnap⟩, ?_, ?_⟩
    (Raft.role_make _ _) (Raft.leaderPtr_make _ _), Nat.zero_le _, fun s k hk => ?_, fun m hm => ?_,
    fun hd hmem => ?_, hvotes, fun e he => ?_, fun b hb => ?_⟩
  · exact (Raft.me_make _ _).trans h.me
  · exact hsnap
  · exact fun _ => le_rfl
  · simp [Node.restart] at hk
  · rcases List.mem_append.mp hm with hm | hm
    · exact hpast m hm
    · exact h.chan m hm
  · simp [Node.restart] at hmem
  · simp [Node.restart] at he
  · simp [Node.restart] at hb

/-- A critical section, then code that continues with its result. -/
lemma critical_sound {α : Type} {Q : Ghost n Cmd → α → Prop} (h : NodeOk tidy G i nd)
    {out : Outcome n Cmd Snap α} (hs : Sound tidy q i G out Q)
    {k : Node n Cmd Snap → α → Effect n Cmd Snap}
    (hk : ∀ G' rf a, out = .ok rf a → G.Step q i G' → Q G' a → NodeOk tidy G' i (nd.setRaft rf) →
      NodeOk tidy G' i (k (nd.setRaft rf) a).node ∧
        ∀ m ∈ (k (nd.setRaft rf) a).sends, MsgOk G' m) :
    ∃ G', NodeSound tidy q i G (Node.critical nd out k) G' := by
  obtain ⟨G', hstep, hok, hend⟩ := hs
  cases out with
  | ok rf a =>
    obtain ⟨hnode, hmsg⟩ := hk G' rf a rfl hstep hend.2 (h.setRaft hstep hend.1)
    exact ⟨G', hstep, hok, hnode, hmsg, fun p nd hp => by simp [Node.critical] at hp⟩
  | panic p rf =>
    refine ⟨G', hstep, hok, ?_, fun m hm => by simp [Node.finish, Node.critical] at hm, ?_⟩
    · have hcrash : CrashOk tidy G' i (nd.setRaft rf).rf := hend.1
      exact hcrash.restart (fun m hm => (h.past m hm).mono hstep.done_le)
        fun T A hmem => (h.votes T A hmem).stable hstep
    · intro p' nd' hp
      simp only [Node.critical, NodeOutcome.panic.injEq] at hp
      exact hp.1 ▸ hend.2

/-- An input that runs no critical section. -/
lemma quiet_sound (hG : G.Ok) {eff : Effect n Cmd Snap} (hnode : NodeOk tidy G i eff.node)
    (hmsg : ∀ m ∈ eff.sends, MsgOk G m) : ∃ G', NodeSound tidy q i G (.ok eff) G' :=
  ⟨G, Ghost.Step.refl q i G, hG, hnode, hmsg, fun p nd hp => by simp at hp⟩

/-! ## Goroutines -/

/-- The elections of the server may change, as long as they ask for votes with known requests. -/
lemma NodeOk.setElections (h : NodeOk tidy G i nd) {es : List (Election n)}
    (hes : ∀ e ∈ es, ReqOk G e.args) : NodeOk tidy G i { nd with elections := es } :=
  ⟨h.raft, h.applied, h.captured, h.past, h.handlers, h.votes, hes, h.beats⟩

/-- The invariant does not speak of the votes an election has counted. -/
lemma NodeOk.setElection (h : NodeOk tidy G i nd) {k : ℕ} {e e' : Election n}
    (he : nd.elections[k]? = some e) (hargs : e'.args = e.args) :
    NodeOk tidy G i { nd with elections := nd.elections.set k e' } := by
  refine h.setElections fun a ha => ?_
  rcases List.mem_or_eq_of_mem_set ha with ha | rfl
  · exact h.elections a ha
  · rw [hargs]
    exact h.elections e (List.mem_of_getElem? he)

/-- The invariant does not speak of the loops that listen. -/
lemma NodeOk.stopListening (h : NodeOk tidy G i nd) (k : ℕ) :
    NodeOk tidy G i (nd.stopListening k) := by
  refine h.setElections fun a ha => ?_
  obtain ⟨j, hj⟩ := List.getElem?_of_mem ha
  rw [List.getElem?_modify] at hj
  obtain ⟨b, hb, rfl⟩ := Option.map_eq_some_iff.mp hj
  have hreq := h.elections b (List.mem_of_getElem? hb)
  split_ifs <;> exact hreq

/-- The heartbeat goroutines may change as long as none is for the server itself. -/
lemma NodeOk.setBeats (h : NodeOk tidy G i nd) {bs : List (Beat n Cmd Snap)}
    (hbs : ∀ b ∈ bs, b.peer ≠ i) : NodeOk tidy G i { nd with beats := bs } :=
  ⟨h.raft, h.applied, h.captured, h.past, h.handlers, h.votes, h.elections, hbs⟩

/-- A heartbeat goroutine may go on. -/
lemma NodeOk.setBeat (h : NodeOk tidy G i nd) (b : ℕ) (s : BeatState n Cmd Snap) :
    NodeOk tidy G i (nd.setBeat b s) := by
  refine h.setBeats fun a ha => ?_
  obtain ⟨j, hj⟩ := List.getElem?_of_mem ha
  rw [List.getElem?_modify] at hj
  obtain ⟨bt, hbt, rfl⟩ := Option.map_eq_some_iff.mp hj
  have hpeer := h.beats bt (List.mem_of_getElem? hbt)
  split_ifs <;> exact hpeer

/-- A turn of `StartElection`.

**Proof sketch.** The turn does not panic, as the log is never empty. The candidate's own vote is
sound, and so is the request that the new election will send. -/
lemma turn_sound (hG : G.Ok) (h : NodeOk tidy G i nd) :
    ∃ G', NodeSound tidy q i G nd.turn G' := by
  obtain ⟨G', hstep, hok, hend⟩ := startElection_sound (q := q) hG h.raft
  cases hout : nd.rf.startElection with
  | panic p rf =>
    -- the log is never empty
    obtain ⟨last, hlast, -⟩ := h.raft.log.getLastLog (hG.numbered_log i)
    have hlast' : ∀ T r v, (Raft.persist { nd.rf with
        currentTerm := T, role := r, votedFor := v }).getLastLog = some last := fun _ _ _ => hlast
    simp only [Raft.startElection, hlast'] at hout
    split_ifs at hout
  | ok rf a =>
    rw [hout] at hend
    obtain ⟨hrf, hQ⟩ := hend
    have hnode := h.setRaft hstep hrf
    have hvotes : ∀ T A, (T, A) ∈ nd.votes ++
        (if nd.rf.role = .leader then [] else [(nd.rf.currentTerm + 1, nd.rf.me)]) →
        VoteOk G' i T A := by
      intro T A hmem
      rcases List.mem_append.mp hmem with hmem | hmem
      · exact hnode.votes T A hmem
      · split_ifs at hmem with hrole
        · simp at hmem
        · obtain ⟨rfl, rfl⟩ : T = nd.rf.currentTerm + 1 ∧ A = nd.rf.me := by simpa using hmem
          rw [h.raft.me]
          exact (hQ hrole).1
    have hnode' : NodeOk tidy G' i { nd.setRaft rf with votes := nd.votes ++
        (if nd.rf.role = .leader then [] else [(nd.rf.currentTerm + 1, nd.rf.me)]) } :=
      ⟨hnode.raft, hnode.applied, hnode.captured, hnode.past, hnode.handlers, hvotes,
        hnode.elections, hnode.beats⟩
    refine ⟨G', hstep, hok, ?_, ?_, ?_⟩
    · cases a with
      | none =>
        simp only [Node.turn, hout, Node.critical, Node.finish]
        exact hnode'
      | some args =>
        obtain ⟨hrole, -⟩ := Raft.startElection_eq_some hout
        simp only [Node.turn, hout, Node.critical, Node.finish, Node.askPeers]
        refine hnode'.setElections fun e he => ?_
        rcases List.mem_append.mp he with he | he
        · exact hnode.elections e he
        · obtain rfl := List.mem_singleton.mp he
          exact (hQ hrole).2 args rfl
    · intro m hm
      cases a <;> simp [Node.turn, hout, Node.critical, Node.finish, Node.askPeers] at hm
    · intro p nd' hp
      simp [Node.turn, hout, Node.critical] at hp

/-- What must be known of a server that wins an election in term `T`. -/
def WinOk (q : ℕ → Fin n → Prop) (G : Ghost n Cmd) (i : Fin n) (T : ℕ) : Prop :=
  q T i ∧ (∀ s, G.lead T = some s → s = i) ∧
    ∃ A ∈ (majority n).quorums, ∀ k ∈ A, VoteOk G k T i

/-- The vote that completes the majority. -/
lemma win_sound (hG : G.Ok) (h : NodeOk tidy G i nd) {k : ℕ} {e e' : Election n}
    (he : nd.elections[k]? = some e) (hargs : e'.args = e.args) (hrole : nd.rf.role = .candicate)
    (hterm : nd.rf.currentTerm = e.args.candicateTerm) (hwin : WinOk q G i e.args.candicateTerm) :
    ∃ G', NodeSound tidy q i G (Node.critical nd nd.rf.becomeLeader fun nd _ =>
      { node := { nd with
        elections := nd.elections.set k e'
        beats := nd.beats ++ nd.peers.map fun p => ⟨p, .top⟩ } }) G' := by
  obtain ⟨hq, hlead, A, hA, hvote⟩ := hwin
  rw [← hterm, h.raft.term] at hq hlead hvote
  refine critical_sound h (becomeLeader_sound hG h.raft hrole hq hlead hA hvote) ?_
  intro G' rf a _ hstep _ hnode
  have hcounted : NodeOk tidy G' i { nd.setRaft rf with elections := nd.elections.set k e' } :=
    hnode.setElection he hargs
  refine ⟨hcounted.setBeats fun b hb => ?_, fun m hm => by simp at hm⟩
  rcases List.mem_append.mp hb with hb | hb
  · exact hnode.beats b hb
  · obtain ⟨p, hp, rfl⟩ := List.mem_map.mp hb
    have hne := (List.mem_filter.mp hp).2
    rw [hnode.raft.me] at hne
    simpa using hne

/-- The first section of `RequestVote` is a step of the abstract state. -/
lemma requestVote_sound (hG : G.Ok) (h : NodeOk tidy G i nd) {args : RequestVoteArgs n}
    (hm : ReqOk G args) : ∃ G', NodeSound tidy q i G (nd.requestVote args) G' := by
  refine critical_sound h (requestVoteCheck_sound hG h.raft hm) ?_
  intro G' rf chk _ _ hvote hnode
  split_ifs with hyes
  · refine ⟨⟨hnode.raft, hnode.applied, hnode.captured, hnode.past, fun hd hmem => ?_, hnode.votes,
      hnode.elections, hnode.beats⟩, fun m hm => by simp at hm⟩
    rcases List.mem_append.mp hmem with hmem | hmem
    · exact hnode.handlers hd hmem
    · obtain rfl := List.mem_singleton.mp hmem
      exact hvote hyes.1
  · refine ⟨hnode, fun m hm => ?_⟩
    obtain rfl := List.mem_singleton.mp hm
    trivial

/-- The second critical section of `RequestVote`.

**Proof sketch.** The vote was sound when the handler began to wait, and it still is; granting it
changes only `votedFor`. -/
lemma grantVote_ok (h : NodeOk tidy G i nd) {k : ℕ} {hd : VoteHandler n}
    (hh : nd.voteHandlers[k]? = some hd) :
    NodeOk tidy G i { Node.setRaft { nd with voteHandlers := nd.voteHandlers.eraseIdx k }
        (nd.rf.requestVoteGrant hd.args).1 with
      votes := nd.votes ++ if (nd.rf.requestVoteGrant hd.args).2 then
        [(hd.args.candicateTerm, hd.args.candicateId)] else [] } := by
  have hvote := h.handlers hd (List.mem_of_getElem? hh)
  have hnode := h.setRaft (Ghost.Step.refl (fun _ _ => True) i G) (h.raft.requestVoteGrant hd.args)
  refine ⟨hnode.raft, hnode.applied, hnode.captured, hnode.past, ?_, ?_, hnode.elections,
    hnode.beats⟩
  · exact fun hd' hmem => h.handlers hd' ((List.eraseIdx_sublist _ _).subset hmem)
  · intro T A hmem
    rcases List.mem_append.mp hmem with hmem | hmem
    · exact h.votes T A hmem
    · split_ifs at hmem
      · obtain ⟨rfl, rfl⟩ : T = hd.args.candicateTerm ∧ A = hd.args.candicateId := by
          simpa using hmem
        exact hvote
      · simp at hmem

/-- A turn of a heartbeat goroutine is a step of the abstract state. -/
lemma beat_sound (hG : G.Ok) (h : NodeOk tidy G i nd) (b : ℕ) (peer : Fin n) :
    ∃ G', NodeSound tidy q i G
      (Node.critical nd (nd.rf.heartBeatToServer peer) (Node.turnBeat b)) G' := by
  have hs : Sound tidy q i G (nd.rf.heartBeatToServer peer) (fun _ _ => True) := by
    refine ⟨G, Ghost.Step.refl q i G, hG, ?_⟩
    unfold Raft.heartBeatToServer
    split
    · exact ⟨h.raft, trivial⟩
    · split
      · exact ⟨h.raft.toCrashOk, fun _ => by simp⟩
      · exact ⟨h.raft, trivial⟩
  refine critical_sound h hs fun G' rf a _ _ _ hnode => ?_
  cases a with
  | quit =>
    exact ⟨hnode.setBeats fun b' hb' => hnode.beats b' ((List.eraseIdx_sublist _ _).subset hb'),
      fun m hm => by simp [Node.turnBeat] at hm⟩
  | append => exact ⟨hnode.setBeat b _, fun m hm => by simp [Node.turnBeat] at hm⟩
  | install => exact ⟨hnode.setBeat b _, fun m hm => by simp [Node.turnBeat] at hm⟩

/-- Sending an `AppendEntries` request is a step of the abstract state. -/
lemma sendAppend_sound (hG : G.Ok) (h : NodeOk tidy G i nd) (b : ℕ) {peer : Fin n}
    (hpeer : peer ≠ i) :
    ∃ G', NodeSound tidy q i G
      (Node.critical nd (nd.rf.buildAppend peer) (Node.postAppend b peer)) G' := by
  have hs : Sound tidy q i G (nd.rf.buildAppend peer) (fun G r => ∀ args, r = some args →
      args.leaderId = i ∧ AppendOk G peer args) :=
    ⟨G, Ghost.Step.refl q i G, hG, buildAppend_endOk hG h.raft hpeer⟩
  refine critical_sound h hs fun G' rf a _ _ hargs hnode => ?_
  cases a with
  | none => exact ⟨hnode.setBeat b _, fun m hm => by simp [Node.postAppend] at hm⟩
  | some args =>
    refine ⟨hnode.setBeat b _, fun m hm => ?_⟩
    obtain rfl := List.mem_singleton.mp hm
    obtain ⟨hid, hok⟩ := hargs args rfl
    exact ⟨hid ▸ hpeer, hok⟩

/-! ## The initial state -/

/-- The initial state: no entries, no leaders, term 0 everywhere. -/
def Ghost.init : Ghost n Cmd where
  st := ReplicatedLog.State.init
  lead _ := none
  cand _ _ := none
  done _ := []
  base _ := 0

/-- The abstract state of new servers is in order. -/
lemma Ghost.Ok.init : (Ghost.init : Ghost n Cmd).Ok where
  inv := ReplicatedLog.Inv.init
  numbered T L hL := by simp [Ghost.init, ReplicatedLog.State.init] at hL
  has_lead T L hL := by simp [Ghost.init, ReplicatedLog.State.init] at hL
  lead_le T s hs := by simp [Ghost.init] at hs
  cand_le T A C hC := by simp [Ghost.init] at hC
  cand_anchored T A C hC := by simp [Ghost.init] at hC

/-- New servers refine the abstract state of new servers. -/
lemma Refines.init : Refines tidy (Cluster.init : Cluster n Cmd Snap) Ghost.init := by
  refine ⟨Ghost.Ok.init, fun T s hs => by simp [Ghost.init] at hs, fun i => ?_,
    fun m hm => by simp [Cluster.init] at hm⟩
  have hcommitted : (Ghost.init : Ghost n Cmd).Committed 0 [] := Or.inl rfl
  refine ⟨RunningOk.follower ⟨⟨⟨Raft.me_make i {}, Raft.saved_make i {}, rfl,
    ⟨Nat.zero_le _, ⟨Raft.dummyLog 0 0 0, rfl, rfl, rfl, rfl⟩, rfl, rfl⟩, rfl, List.prefix_rfl,
    hcommitted, Nat.zero_le _⟩, fun m hm => .of_make hm (Nat.zero_le _)⟩, Nat.zero_le _,
    fun _ => le_rfl⟩ (Raft.role_make i {}) (Raft.leaderPtr_make i {}), Nat.zero_le _,
    ?_, ?_, ?_, ?_, ?_, ?_⟩
  all_goals simp [Cluster.init, Node.init]

/-! ## All inputs -/

/-- The conditions under which the cluster refines the replicated log: fresh elections, no request
that only cuts the log and, in a tidy run, no snapshot ahead of `commitIndex`. -/
def Sane (tidy : Prop) (nd : Node n Cmd Snap) (inp : Input n Cmd Snap) : Prop :=
  ElectionFresh nd inp ∧ LogFresh nd inp ∧ (tidy → SnapFresh nd inp)

/-- The service never gets ahead of what was sent to it. -/
lemma nextApplied_le (a : ℕ) (m : ApplyMsg Cmd Snap) : nextApplied a m ≤ max a m.upTo := by
  unfold nextApplied ApplyMsg.upTo
  split_ifs <;> omega

/-- A reply makes the server a follower in a term that is not behind. -/
lemma stepDown_sound (hG : G.Ok) (h : NodeOk tidy G i nd) (k : ℕ) {t : ℕ}
    (hle : nd.rf.currentTerm ≤ t) : ∃ G', NodeSound tidy q i G
      (.ok { node := (nd.setRaft (nd.rf.becomeFollower t)).stopListening k }) G' := by
  have hle' : G.st.term i ≤ t := h.raft.term ▸ hle
  have hstep : G.Step q i (G.raise i t) := Ghost.step_raise hle'
  have hnode := h.setRaft hstep (h.raft.toRunningOk.becomeFollower hle)
  exact ⟨_, hstep, hG.raise hle', hnode.stopListening k, fun m hm => by simp [Node.finish] at hm,
    fun p nd hp => by simp at hp⟩

/-- The service hands over the snapshot it has captured. -/
lemma takeSnapshot_node_sound (hG : G.Ok) (h : NodeOk tidy G i nd) {snapshot : Snap} {k : ℕ}
    (hcap : nd.captured = some (snapshot, k)) (htidy : tidy → k ≤ nd.rf.commitIndex) :
    ∃ G', NodeSound tidy q i G (Node.critical { nd with captured := none }
      (nd.rf.takeSnapshot (some snapshot) k) fun nd _ => { node := nd }) G' := by
  have hnode : NodeOk tidy G i { nd with captured := none } :=
    ⟨h.raft, h.applied, fun s k hk => by simp at hk, h.past, h.handlers, h.votes, h.elections,
      h.beats⟩
  exact critical_sound hnode
    (takeSnapshot_sound hG h.raft (some snapshot) (h.captured snapshot k hcap) htidy)
    fun G' rf a _ _ _ hnode => ⟨hnode, fun m hm => by simp at hm⟩

variable [DecidableEq Cmd] [DecidableEq Snap]

/-- **Every input is sound**: a server that agrees with the abstract state handles it and agrees
with a later one.

**Proof sketch.** By the transition. Inputs that do not touch the Raft state keep the abstract one;
each critical section has its own lemma. A reply that lowers the term, a request that only shortens
the log and a stale win are excluded by `Sane`. -/
theorem exec_sound (hn : Odd n) (hG : G.Ok) (h : NodeOk tidy G i nd) {inp : Input n Cmd Snap}
    {o : NodeOutcome n Cmd Snap} (hm : ∀ m g, inp = .recv m g → MsgOk G m ∧ m.dst = i)
    (hP : Sane tidy nd inp) (hwin : ∀ e ∈ nd.winning inp, WinOk q G i e.args.candicateTerm)
    (ho : nd.exec inp = some o) : ∃ G', NodeSound tidy q i G o G' := by
  have quiet : ∀ {nd' : Node n Cmd Snap}, NodeOk tidy G i nd' →
      ∃ G', NodeSound tidy q i G (.ok { node := nd' }) G' :=
    fun h' => quiet_sound hG h' fun m hm => by simp at hm
  cases Node.trans_of_exec ho with
  | restart => exact quiet (h.raft.toCrashOk.restart h.past h.votes)
  | startElection => exact turn_sound hG h
  | electionTimeout => exact turn_sound hG (h.stopListening _)
  | electionQuit => exact quiet (h.stopListening _)
  | askVote he =>
    refine quiet_sound hG h fun m hm => ?_
    obtain rfl := List.mem_singleton.mp hm
    exact h.elections _ (List.mem_of_getElem? he)
  | askNothing he => exact quiet (h.setElection he rfl)
  | stepDown he ht =>
    exact stepDown_sound hG h _ (hP.1.2.1 _ (Node.mem_following_stepDown he ht))
  | grantVote hh =>
    refine quiet_sound hG (grantVote_ok h hh) fun m hm => ?_
    obtain rfl := List.mem_singleton.mp hm
    trivial
  | beat => exact beat_sound hG h _ _
  | sendAppend hb => exact sendAppend_sound hG h _ (h.beats _ (List.mem_of_getElem? hb))
  | sendInstall hb =>
    refine quiet_sound hG (h.setBeat _ _) fun m hm => ?_
    obtain rfl := List.mem_singleton.mp hm
    refine ⟨?_, h.raft.snapOk⟩
    rw [Raft.buildInstall, h.raft.me]
    exact h.beats _ (List.mem_of_getElem? hb)
  | beatRetry => exact quiet (h.setBeat _ _)
  | start command =>
    exact critical_sound h (start_sound hG h.raft command) fun G' rf a _ _ _ hnode =>
      ⟨hnode, fun m hm => by simp at hm⟩
  | @deliver m hsent =>
    have hle := (h.raft.chan m (List.mem_of_getElem? hsent)).upTo_le
    have happ := nextApplied_le nd.lastAppliedIndex m
    exact quiet ⟨h.raft, happ.trans (max_le h.applied hle), h.captured, h.past, h.handlers, h.votes,
      h.elections, h.beats⟩
  | capture snapshot =>
    refine quiet ⟨h.raft, h.applied, fun s k hk => ?_, h.past, h.handlers, h.votes, h.elections,
      h.beats⟩
    obtain ⟨-, rfl⟩ : snapshot = s ∧ nd.lastAppliedIndex = k := by simpa using hk
    exact h.applied
  | takeSnapshot hcap =>
    exact takeSnapshot_node_sound hG h hcap fun ht =>
      hP.2.2 ht _ (by simp [Node.snapshotting, hcap])
  | requestVote => exact requestVote_sound hG h (hm _ _ rfl).1
  | win he hl hsrc hw =>
    have hmem := Node.mem_winning he hl hsrc hw
    obtain ⟨hrole, hterm⟩ := hP.1.2.2 _ hmem
    exact win_sound hG h he rfl hrole hterm (hwin _ hmem)
  | count he => exact quiet (h.setElection he rfl)
  | refusal _ he => exact quiet (h.setElection he rfl)
  | appendEntries dst args =>
    obtain ⟨hok, rfl⟩ := hm _ _ rfl
    refine critical_sound h (appendEntries_sound hG h.raft hok.2 (hP.2.1 args rfl)) ?_
    intro G' rf reply _ _ hreply hnode
    refine ⟨hnode, fun m' hm' => ?_⟩
    obtain rfl := List.mem_singleton.mp hm'
    rw [hnode.raft.me]
    exact ⟨hok.1, hreply⟩
  | @appendReply b src args reply hb =>
    obtain ⟨hok, rfl⟩ := hm _ _ rfl
    have hfresh : reply.success = false → args.leaderTerm < reply.followerTerm →
        nd.rf.currentTerm ≤ reply.followerTerm :=
      fun hs hlt => hP.1.2.1 _ (by simp [Node.following, hs, hlt])
    exact critical_sound h (appendReply_sound hn hG h.raft hok.1 hok.2 hfresh)
      fun G' rf a _ _ _ hnode => ⟨hnode.setBeat b _, fun m hm => by simp at hm⟩
  | installSnapshot dst args =>
    obtain ⟨hok, rfl⟩ := hm _ _ rfl
    refine critical_sound h (installSnapshot_sound hG h.raft hok.2) ?_
    intro G' rf reply _ _ hreply hnode
    refine ⟨hnode, fun m' hm' => ?_⟩
    obtain rfl := List.mem_singleton.mp hm'
    rw [hnode.raft.me]
    exact ⟨hok.1, hreply⟩
  | installReply reply =>
    exact critical_sound h (installReply_sound hG h.raft (hm _ _ rfl).1.2)
      fun G' rf a _ _ _ hnode => ⟨hnode.setBeat _ _, fun m hm => by simp at hm⟩

/-! ## Runs -/

section Runs

variable {c d : Cluster n Cmd Snap}

/-- A step of a cluster that refines the abstract state. -/
lemma Refines.exec (hn : Odd n) (h : Refines tidy c G) (hE : Elections c)
    (hone : ∀ v, (c.nodes v).stance.OneVote) {inp : Input n Cmd Snap} {o : NodeOutcome n Cmd Snap}
    (hP : Sane tidy (c.nodes i) inp) (hdel : c.Deliverable i inp)
    (ho : (c.nodes i).exec inp = some o) :
    ∃ G', NodeSound tidy (fun T s => quorumSize n ≤ (c.voters T s).card) i G o G' := by
  refine exec_sound hn h.ghost (h.node i) (fun m g hm => ?_) hP (fun e he => ?_) ho
  · obtain ⟨hnet, hdst⟩ := hdel m g hm
    exact ⟨h.msg m hnet, hdst⟩
  · obtain ⟨-, hq⟩ := hE.quorum_of_winning hdel he
    refine ⟨hq, fun s hs => eq_of_quorums hn hone (h.lead_votes _ s hs) hq, _, mem_majority hn hq,
      fun k hk => (h.node k).votes _ _ ?_⟩
    simpa [Cluster.voters] using hk

/-- The cluster after a sound input.

**Proof sketch.** The server that has stepped agrees with the later abstract state; the other
servers and the messages are stable under a step. A new leader has the votes of a majority. -/
lemma NodeSound.refines (h : Refines tidy c G) (hE : Elections c) {inp : Input n Cmd Snap}
    {o : NodeOutcome n Cmd Snap} (ho : (c.nodes i).exec inp = some o)
    (hs : NodeSound tidy (fun T s => quorumSize n ≤ (c.voters T s).card) i G o G') :
    Refines tidy (c.after i o) G' where
  ghost := hs.ghost
  lead_votes T s hlead := by
    have hcard := Finset.card_le_card (voters_mono (hE.votes_subset ho) T s)
    rcases hs.step.lead_new T s hlead with hold | ⟨-, hq⟩
    · exact (h.lead_votes T s hold).trans hcard
    · exact hq.trans hcard
  node := Cluster.forall_nodes_after (P := fun k nd => NodeOk tidy G' k nd) hs.node
    fun k hk => (h.node k).stable hk hs.step
  msg m hm := by
    rcases Cluster.mem_net_after hm with hm | hm
    · exact (h.msg m hm).stable hs.step
    · exact hs.msg m hm

/-- The invariant of sane runs: votes are in order, and the cluster refines an abstract state. -/
structure Simulates (tidy : Prop) (c : Cluster n Cmd Snap) : Prop where
  elections : Elections c
  oneVote : ∀ v, (c.nodes v).stance.OneVote
  refines : ∃ G : Ghost n Cmd, Refines tidy c G

/-- New servers are simulated. -/
lemma Simulates.init : Simulates tidy (Cluster.init : Cluster n Cmd Snap) :=
  ⟨Elections.init, fun v => oneVote_of_run .refl v, _, Refines.init⟩

omit [DecidableEq Cmd] [DecidableEq Snap] in
/-- The loss of messages is no step of the abstract state. -/
lemma Simulates.lose (h : Simulates tidy c) (hnodes : d.nodes = c.nodes) (hnet : d.net ⊆ c.net) :
    Simulates tidy d := by
  obtain ⟨hE, hone, G, hG⟩ := h
  refine ⟨hE.lose hnodes hnet, fun v => by rw [hnodes]; exact hone v, G, hG.ghost,
    fun T s hs => ?_, fun i => by rw [hnodes]; exact hG.node i, fun m hm => hG.msg m (hnet hm)⟩
  have := hG.lead_votes T s hs
  rwa [Cluster.voters, ← hnodes] at this

/-- **One step of the cluster** is simulated.

**Proof sketch.** `Refines.exec` finds the step of the abstract state for the server that moves. Its
votes stay apart by `Moved.oneVote`, and those of the other servers have not changed. -/
lemma Simulates.after (hn : Odd n) (h : Simulates tidy c) {inp : Input n Cmd Snap}
    {o : NodeOutcome n Cmd Snap} (hP : Sane tidy (c.nodes i) inp) (hdel : c.Deliverable i inp)
    (ho : (c.nodes i).exec inp = some o) : Simulates tidy (c.after i o) := by
  obtain ⟨hE, hone, G, hG⟩ := h
  obtain ⟨G', hs⟩ := hG.exec hn hE hone hP hdel ho
  have hvote := (Node.exec_moved (hE.saved i) ho).oneVote (hone i) hP.1.1 hP.1.2.1
  exact ⟨hE.after hdel ho, Cluster.forall_nodes_after (P := fun _ nd => nd.stance.OneVote) hvote
    fun v _ => hone v, G', hs.refines hG hE ho⟩

/-- **Sane runs refine the replicated log.** -/
theorem refines_of_run (hn : Odd n) (h : Run (Sane tidy) Cluster.init c) : Simulates tidy c :=
  h.induct Simulates.init (fun _ _ hc hnodes hnet => hc.lose hnodes hnet)
    fun _ _ _ _ hc hP hdel ho => hc.after hn hP hdel ho

end Runs

end Mit6824
