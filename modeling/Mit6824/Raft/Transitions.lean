import Mit6824.Raft.Runs

set_option autoImplicit false

/-!
# The transitions of one server

`Node.exec` is a function that looks up goroutines and checks guards before it runs a critical
section. Here is the same thing as a relation, one constructor for each thing that can happen,
so that a property of every input is proved by one case for each.

## Main definitions

* `Mit6824.Node.Trans` — what an input can do to a server.

## Main results

* `Mit6824.Node.trans_of_exec` — `Node.exec` does nothing else.
-/

namespace Mit6824

variable {n : ℕ} {Cmd Snap : Type}

namespace Node

/-- What an input can do to a server, with the guards that were passed. -/
inductive Trans (nd : Node n Cmd Snap) : Input n Cmd Snap → NodeOutcome n Cmd Snap → Prop
  | restart : Trans nd (.act .restart) (.ok { node := nd.restart })
  | startElection : Trans nd (.act .startElection) nd.turn
  | electionTimeout {k : ℕ} {e : Election n} (he : nd.elections[k]? = some e)
      (hl : e.listening = true ∧ e.stepDown = none) :
      Trans nd (.act (.electionTimeout k)) (nd.stopListening k).turn
  | electionQuit {k : ℕ} {e : Election n} (he : nd.elections[k]? = some e)
      (hl : e.listening = true ∧ e.stepDown = none) :
      Trans nd (.act (.electionQuit k)) (.ok { node := nd.stopListening k })
  | askVote {k : ℕ} {peer : Fin n} {e : Election n} (he : nd.elections[k]? = some e)
      (hw : peer ∈ e.waiting)
      (hc : nd.rf.role = .candicate ∧ nd.rf.currentTerm = e.args.candicateTerm) :
      Trans nd (.act (.askVote k peer)) (.ok { node := nd, sends := [.requestVote peer e.args] })
  /-- the goroutine for `peer` finds that the election is over -/
  | askNothing {k : ℕ} {peer : Fin n} {e : Election n} (he : nd.elections[k]? = some e)
      (hw : peer ∈ e.waiting)
      (hc : ¬ (nd.rf.role = .candicate ∧ nd.rf.currentTerm = e.args.candicateTerm)) :
      Trans nd (.act (.askVote k peer)) (.ok { node := { nd with
        elections := nd.elections.set k { e with waiting := e.waiting.erase peer } } })
  | stepDown {k t : ℕ} {e : Election n} (he : nd.elections[k]? = some e)
      (ht : e.stepDown = some t) (hl : e.listening = true) :
      Trans nd (.act (.stepDown k))
        (.ok { node := (nd.setRaft (nd.rf.becomeFollower t)).stopListening k })
  | grantVote {h : ℕ} {hd : VoteHandler n} (hh : nd.voteHandlers[h]? = some hd) :
      Trans nd (.act (.grantVote h)) (.ok {
        node := { setRaft { nd with voteHandlers := nd.voteHandlers.eraseIdx h }
            (nd.rf.requestVoteGrant hd.args).1 with
          votes := nd.votes ++ if (nd.rf.requestVoteGrant hd.args).2 then
            [(hd.args.candicateTerm, hd.args.candicateId)] else [] }
        sends := [.requestVoteReply nd.rf.me hd.args
          ⟨hd.curTerm, (nd.rf.requestVoteGrant hd.args).2⟩] })
  | beat {b : ℕ} {bt : Beat n Cmd Snap} (hb : nd.beats[b]? = some bt) (hs : bt.state = .top) :
      Trans nd (.act (.beat b)) (critical nd (nd.rf.heartBeatToServer bt.peer) (turnBeat b))
  | sendAppend {b : ℕ} {bt : Beat n Cmd Snap} (hb : nd.beats[b]? = some bt)
      (hs : bt.state = .append) :
      Trans nd (.act (.sendAppend b))
        (critical nd (nd.rf.buildAppend bt.peer) (postAppend b bt.peer))
  | sendInstall {b : ℕ} {bt : Beat n Cmd Snap} (hb : nd.beats[b]? = some bt)
      (hs : bt.state = .install) :
      Trans nd (.act (.sendInstall b)) (.ok {
        node := nd.setBeat b (.waitInstall nd.rf.buildInstall)
        sends := [.installSnapshot bt.peer nd.rf.buildInstall] })
  | beatRetry {b : ℕ} {bt : Beat n Cmd Snap} (hb : nd.beats[b]? = some bt) :
      Trans nd (.act (.beatRetry b)) (.ok { node := nd.setBeat b .top })
  | start (command : Cmd) :
      Trans nd (.act (.start command))
        (critical nd (nd.rf.start command) fun nd _ => { node := nd })
  | deliver {m : ApplyMsg Cmd Snap} (hm : nd.rf.applyChan[nd.received]? = some m) :
      Trans nd (.act .deliver) (.ok { node := { nd with
        received := nd.received + 1
        lastAppliedIndex := nextApplied nd.lastAppliedIndex m } })
  | capture (snapshot : Snap) : Trans nd (.act (.capture snapshot))
      (.ok { node := { nd with captured := some (snapshot, nd.lastAppliedIndex) } })
  | takeSnapshot {snapshot : Snap} {index : ℕ} (hcap : nd.captured = some (snapshot, index)) :
      Trans nd (.act .takeSnapshot) (critical { nd with captured := none }
        (nd.rf.takeSnapshot (some snapshot) index) fun nd _ => { node := nd })
  | requestVote (dst : Fin n) (args : RequestVoteArgs n) (g : ℕ) :
      Trans nd (.recv (.requestVote dst args) g) (nd.requestVote args)
  /-- the vote completes the majority -/
  | win {k : ℕ} {src : Fin n} {reply : RequestVoteReply} {e : Election n}
      (he : nd.elections[k]? = some e) (hl : e.listening = true ∧ e.stepDown = none)
      (hsrc : src ∈ e.waiting) (hw : countWins e reply = true) :
      Trans nd (.recv (.requestVoteReply src e.args reply) k)
        (critical nd nd.rf.becomeLeader fun nd _ => { node := { nd with
          elections := nd.elections.set k { e with
            waiting := e.waiting.erase src, getVote := e.getVote + 1, listening := false }
          beats := nd.beats ++ nd.peers.map fun p => ⟨p, .top⟩ } })
  /-- one more vote -/
  | count {k : ℕ} {src : Fin n} {reply : RequestVoteReply} {e : Election n}
      (he : nd.elections[k]? = some e) (hl : e.listening = true ∧ e.stepDown = none)
      (hsrc : src ∈ e.waiting) (hg : reply.voteGranted = true) :
      Trans nd (.recv (.requestVoteReply src e.args reply) k) (.ok { node := { nd with
        elections := nd.elections.set k { e with
          waiting := e.waiting.erase src, getVote := e.getVote + 1 } } })
  /-- no vote, and a higher term to step down for or not -/
  | refusal {k : ℕ} {src : Fin n} {reply : RequestVoteReply} {e : Election n} (s : Option ℕ)
      (he : nd.elections[k]? = some e) (hl : e.listening = true ∧ e.stepDown = none)
      (hsrc : src ∈ e.waiting) (hg : reply.voteGranted = false)
      (hs : s = if nd.rf.currentTerm < reply.followerTerm then some reply.followerTerm else none) :
      Trans nd (.recv (.requestVoteReply src e.args reply) k) (.ok { node := { nd with
        elections := nd.elections.set k { e with
          waiting := e.waiting.erase src, stepDown := s } } })
  | appendEntries (dst : Fin n) (args : AppendEntriesArgs n Cmd) (g : ℕ) :
      Trans nd (.recv (.appendEntries dst args) g)
        (critical nd (nd.rf.appendEntries args) fun nd reply =>
          { node := nd, sends := [.appendEntriesReply nd.rf.me args reply] })
  | appendReply {b : ℕ} {src : Fin n} {args : AppendEntriesArgs n Cmd}
      (reply : AppendEntriesReply) (hb : nd.beats[b]? = some ⟨src, .waitAppend args⟩) :
      Trans nd (.recv (.appendEntriesReply src args reply) b)
        (critical nd (nd.rf.appendReply src args reply) fun nd _ => { node := nd.setBeat b .top })
  | installSnapshot (dst : Fin n) (args : InstallSnapshotArgs n Snap) (g : ℕ) :
      Trans nd (.recv (.installSnapshot dst args) g)
        (critical nd (nd.rf.installSnapshot args) fun nd reply =>
          { node := nd, sends := [.installSnapshotReply nd.rf.me args reply] })
  | installReply {b : ℕ} {src : Fin n} {args : InstallSnapshotArgs n Snap}
      (reply : InstallSnapshotReply) (hb : nd.beats[b]? = some ⟨src, .waitInstall args⟩) :
      Trans nd (.recv (.installSnapshotReply src args reply) b)
        (critical nd (nd.rf.installReply src args reply) fun nd _ => { node := nd.setBeat b .top })

variable {nd : Node n Cmd Snap} {o : NodeOutcome n Cmd Snap}

/-- An election that has seen a higher term makes its server follow it. -/
lemma mem_following_stepDown {k t : ℕ} {e : Election n} (he : nd.elections[k]? = some e)
    (ht : e.stepDown = some t) : t ∈ nd.following (.act (.stepDown k)) := by
  simp [following, he, ht]

/-- A reply that completes the count of an open election wins it. -/
lemma mem_winning {k : ℕ} {src : Fin n} {reply : RequestVoteReply} {e : Election n}
    (he : nd.elections[k]? = some e) (hl : e.listening = true ∧ e.stepDown = none)
    (hsrc : src ∈ e.waiting) (hw : countWins e reply = true) :
    e ∈ nd.winning (.recv (.requestVoteReply src e.args reply) k) := by
  simp [winning, he, Option.filter_eq_some_iff, Awaits, hl.1, hl.2, hsrc, hw]

/-! ## `Node.exec` makes these transitions -/

/-- A vote reply wins, counts, notes a higher term, or is dropped.

**Proof sketch.** By the branches of the loop that counts the votes. -/
lemma trans_of_voteReply {k : ℕ} {src : Fin n} {args : RequestVoteArgs n}
    {reply : RequestVoteReply} (ho : nd.voteReply k src args reply = some o) :
    Trans nd (.recv (.requestVoteReply src args reply) k) o := by
  unfold voteReply at ho
  cases he : nd.elections[k]? with
  | none => simp [he] at ho
  | some e =>
    simp only [he] at ho
    split_ifs at ho with hc hw hg hlt
    all_goals
      obtain ⟨hl, hs, rfl, hsrc⟩ := hc
      obtain rfl := Option.some.inj ho
    · exact .win he ⟨hl, hs⟩ hsrc hw
    · exact .count he ⟨hl, hs⟩ hsrc hg
    · exact .refusal _ he ⟨hl, hs⟩ hsrc (by simpa using hg) (if_pos hlt).symm
    · have hstay : Trans nd _ _ :=
        .refusal none he ⟨hl, hs⟩ hsrc (by simpa using hg) (if_neg hlt).symm
      rwa [← hs] at hstay

/-- The events of a heartbeat goroutine are transitions, if it is in the right place. -/
lemma trans_of_beatEvent {b : ℕ} {ev : Event n Cmd Snap}
    (hev : ev = .beat b ∨ ev = .sendAppend b ∨ ev = .sendInstall b ∨ ev = .beatRetry b)
    (ho : nd.beatEvent b ev = some o) : Trans nd (.act ev) o := by
  unfold beatEvent at ho
  cases hb : nd.beats[b]? with
  | none => simp [hb] at ho
  | some bt =>
    simp only [hb] at ho
    -- the goroutine is at the place where the event can happen, or `ho` is absurd
    rcases hev with rfl | rfl | rfl | rfl <;> cases hs : bt.state <;> simp only [hs] at ho <;>
      cases ho
    · exact .beat hb hs
    · exact .sendAppend hb hs
    · exact .sendInstall hb hs
    · exact .beatRetry hb
    · exact .beatRetry hb

/-- **The goroutines of a server** make only the listed transitions.

**Proof sketch.** The cases are those of `Node.act`: for each event, the tests that `act` makes
before its section are the premises of one constructor. The four events of a heartbeat goroutine are
in `trans_of_beatEvent`. -/
lemma trans_of_act {ev : Event n Cmd Snap} (ho : nd.act ev = some o) : Trans nd (.act ev) o := by
  cases ev with
  | restart => obtain rfl := Option.some.inj ho; exact .restart
  | startElection => obtain rfl := Option.some.inj ho; exact .startElection
  | electionTimeout k =>
    simp only [act] at ho
    split at ho
    · rename_i e he
      split_ifs at ho with hl
      obtain rfl := Option.some.inj ho
      exact .electionTimeout he hl
    · simp at ho
  | electionQuit k =>
    simp only [act] at ho
    split at ho
    · rename_i e he
      split_ifs at ho with hl
      obtain rfl := Option.some.inj ho
      exact .electionQuit he hl
    · simp at ho
  | askVote k peer =>
    simp only [act] at ho
    split at ho
    · rename_i e he
      split_ifs at ho with hw hc
      · obtain rfl := Option.some.inj ho
        exact .askVote he hw hc
      · obtain rfl := Option.some.inj ho
        exact .askNothing he hw hc
    · simp at ho
  | stepDown k =>
    simp only [act] at ho
    split at ho
    · rename_i e he
      split at ho
      · rename_i t ht
        split_ifs at ho with hl
        obtain rfl := Option.some.inj ho
        exact .stepDown he ht hl
      · simp at ho
    · simp at ho
  | grantVote h =>
    simp only [act, grantVote] at ho
    split at ho
    · simp at ho
    · rename_i hd hh
      obtain rfl := Option.some.inj ho
      exact .grantVote hh
  | beat b => exact trans_of_beatEvent (by simp) ho
  | sendAppend b => exact trans_of_beatEvent (by simp) ho
  | sendInstall b => exact trans_of_beatEvent (by simp) ho
  | beatRetry b => exact trans_of_beatEvent (by simp) ho
  | start command => obtain rfl := Option.some.inj ho; exact .start command
  | deliver =>
    simp only [act] at ho
    split at ho
    · rename_i m hm
      obtain rfl := Option.some.inj ho
      exact .deliver hm
    · simp at ho
  | capture snapshot => obtain rfl := Option.some.inj ho; exact .capture snapshot
  | takeSnapshot =>
    simp only [act] at ho
    split at ho
    · rename_i snapshot index hcap
      obtain rfl := Option.some.inj ho
      exact .takeSnapshot hcap
    · simp at ho

variable [DecidableEq Cmd] [DecidableEq Snap]

/-- **The messages that arrive** make only the listed transitions.

**Proof sketch.** By the message. A reply is handled only when the goroutine that sent the request
still waits for it. -/
lemma trans_of_receive {g : ℕ} {m : Msg n Cmd Snap} (ho : nd.receive g m = some o) :
    Trans nd (.recv m g) o := by
  cases m with
  | requestVote dst args => obtain rfl := Option.some.inj ho; exact .requestVote dst args g
  | requestVoteReply src args reply => exact trans_of_voteReply ho
  | appendEntries dst args => obtain rfl := Option.some.inj ho; exact .appendEntries dst args g
  | appendEntriesReply src args reply =>
    simp only [receive, appendReply] at ho
    split at ho
    · rename_i peer args' hb
      split_ifs at ho with hc
      obtain ⟨rfl, rfl⟩ := hc
      obtain rfl := Option.some.inj ho
      exact .appendReply reply hb
    · simp at ho
  | installSnapshot dst args => obtain rfl := Option.some.inj ho; exact .installSnapshot dst args g
  | installSnapshotReply src args reply =>
    simp only [receive, installReply] at ho
    split at ho
    · rename_i peer args' hb
      split_ifs at ho with hc
      obtain ⟨rfl, rfl⟩ := hc
      obtain rfl := Option.some.inj ho
      exact .installReply reply hb
    · simp at ho

/-- **Every input makes one of the transitions.** -/
theorem trans_of_exec {inp : Input n Cmd Snap} (ho : nd.exec inp = some o) : Trans nd inp o := by
  cases inp with
  | act ev => exact trans_of_act ho
  | recv m g => exact trans_of_receive ho

end Node

end Mit6824
