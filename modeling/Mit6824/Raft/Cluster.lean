import Mathlib.Logic.Function.Basic
import Mathlib.Data.List.FinRange
import Mit6824.Raft.Calls

set_option autoImplicit false

/-!
# A cluster of Raft servers

Every server with its goroutines, its service, and the messages in flight. One step is one
critical section under `rf.mu` (with the lock-free code up to it), one step of the service, or
the loss of a message.

## Main definitions

* `Mit6824.Node` — a server: the Raft peer, the goroutines between two critical sections, what
  the service (`kvraft/server.go`) has applied, and two history variables.
* `Mit6824.Node.exec` — what one input does to a server; a panic ends the process, which then
  restarts from its persister (`Mit6824.Node.step`).
* `Mit6824.Cluster.step`, `Mit6824.Run` — steps of the cluster and runs whose steps all meet a
  condition.

## Design

* A request stays in the network until it is delivered or lost, in any order. A reply carries
  the request it answers, and only a goroutine that waits for a reply to this request takes it.
* A request arrives as it was built. The entries of an `AppendEntries` request share the array of
  the sender's log until they are encoded; this cluster over the shared arrays is
  `Mit6824.Host.sharedStep`, and without disturbance both have the same runs
  (`Mit6824.Host.reach_of_shared`).
* The timers, `heartBeatCh` and `quitElection` are left out: an election may start at any time,
  and the loop of `StartElection` may end at any time.
* A crash is followed at once by the restart; a server that stays down is one that takes no
  step.
* The goroutines that ask for votes outlive the loop that reads their answers (`listening`).
* `Node.votes` and `Node.erased` record history; no step of the source depends on them.
-/

namespace Mit6824

/-! ## Messages and goroutines -/

/-- The messages in flight. -/
inductive Msg (n : ℕ) (Cmd Snap : Type)
  | requestVote (dst : Fin n) (args : RequestVoteArgs n)
  | requestVoteReply (src : Fin n) (args : RequestVoteArgs n) (reply : RequestVoteReply)
  | appendEntries (dst : Fin n) (args : AppendEntriesArgs n Cmd)
  | appendEntriesReply (src : Fin n) (args : AppendEntriesArgs n Cmd) (reply : AppendEntriesReply)
  | installSnapshot (dst : Fin n) (args : InstallSnapshotArgs n Snap)
  | installSnapshotReply (src : Fin n) (args : InstallSnapshotArgs n Snap)
      (reply : InstallSnapshotReply)

/-- The server a message is delivered to; a reply goes to the one that made the call. -/
def Msg.dst {n : ℕ} {Cmd Snap : Type} : Msg n Cmd Snap → Fin n
  | .requestVote dst _ => dst
  | .requestVoteReply _ args _ => args.candicateId
  | .appendEntries dst _ => dst
  | .appendEntriesReply _ args _ => args.leaderId
  | .installSnapshot dst _ => dst
  | .installSnapshotReply _ args _ => args.leaderId

/-- A `RequestVote` handler that has passed its checks and waits for the lock again. -/
structure VoteHandler (n : ℕ) where
  args : RequestVoteArgs n
  curTerm : ℕ

/-- One turn of `StartElection` with the goroutines it started: `waiting` are the peers whose
goroutine has not delivered a reply yet, `listening` says whether the loop still reads
`voteCh`, and `stepDown` is the higher term it has just seen. -/
structure Election (n : ℕ) where
  args : RequestVoteArgs n
  waiting : List (Fin n)
  getVote : ℕ
  listening : Bool
  stepDown : Option ℕ

/-- Where a `HeartBeatToServer` goroutine stands. -/
inductive BeatState (n : ℕ) (Cmd Snap : Type)
  | top
  | append
  | install
  | waitAppend (args : AppendEntriesArgs n Cmd)
  | waitInstall (args : InstallSnapshotArgs n Snap)

/-- A `HeartBeatToServer` goroutine. -/
structure Beat (n : ℕ) (Cmd Snap : Type) where
  peer : Fin n
  state : BeatState n Cmd Snap

/-- A server of the cluster. -/
structure Node (n : ℕ) (Cmd Snap : Type) where
  rf : Raft n Cmd Snap
  voteHandlers : List (VoteHandler n)
  elections : List (Election n)
  beats : List (Beat n Cmd Snap)
  /-- how many messages of `rf.applyChan` the service has handled -/
  received : ℕ
  /-- `lastAppliedIndex` of the service -/
  lastAppliedIndex : ℕ
  /-- the snapshot `snapshotLoop` has encoded but not handed over yet -/
  captured : Option (Snap × ℕ)
  /-- history: the messages earlier incarnations sent on the apply channel -/
  past : List (ApplyMsg Cmd Snap)
  /-- history: the votes given, as the request's term and candidate; own votes included -/
  votes : List (ℕ × Fin n)
  /-- history: the vote a call of `becomeFollower` cleared without changing the term -/
  erased : Option (Fin n)

/-- What one input makes of a server. -/
structure Effect (n : ℕ) (Cmd Snap : Type) where
  node : Node n Cmd Snap
  sends : List (Msg n Cmd Snap) := []

/-- The end of one input: an effect, or a panic at a server state. -/
inductive NodeOutcome (n : ℕ) (Cmd Snap : Type)
  | ok (eff : Effect n Cmd Snap)
  | panic (p : Panic) (nd : Node n Cmd Snap)

/-- What a server can do by itself; the number names one of its goroutines. -/
inductive Event (n : ℕ) (Cmd Snap : Type)
  | restart
  | startElection
  | electionTimeout (k : ℕ)
  | electionQuit (k : ℕ)
  | askVote (k : ℕ) (peer : Fin n)
  | stepDown (k : ℕ)
  | grantVote (h : ℕ)
  | beat (b : ℕ)
  | sendAppend (b : ℕ)
  | sendInstall (b : ℕ)
  | beatRetry (b : ℕ)
  | start (command : Cmd)
  | deliver
  | capture (snapshot : Snap)
  | takeSnapshot

/-- An event of the server, or a message delivered to it (and to goroutine `g`, for a reply). -/
inductive Input (n : ℕ) (Cmd Snap : Type)
  | act (ev : Event n Cmd Snap)
  | recv (m : Msg n Cmd Snap) (g : ℕ)

/-- `lastAppliedIndex` after `applyMsgLoop` has handled a message. -/
def nextApplied {Cmd Snap : Type} (applied : ℕ) (m : ApplyMsg Cmd Snap) : ℕ :=
  if m.commandValid then (if m.logIndex ≤ applied then applied else m.logIndex)
  else (if m.lastIncludedIndex ≤ applied then applied else m.lastIncludedIndex)

namespace Node

variable {n : ℕ} {Cmd Snap : Type}

/-- Put a new Raft state in place and keep the history of cleared votes. -/
def setRaft (nd : Node n Cmd Snap) (rf : Raft n Cmd Snap) : Node n Cmd Snap :=
  { nd with
    rf := rf
    erased :=
      if rf.currentTerm ≠ nd.rf.currentTerm then none
      else if nd.rf.votedFor ≠ none ∧ rf.votedFor = none then nd.rf.votedFor
      else nd.erased }

/-- Run a critical section and continue with its result. -/
def critical {α : Type} (nd : Node n Cmd Snap) (o : Outcome n Cmd Snap α)
    (k : Node n Cmd Snap → α → Effect n Cmd Snap) : NodeOutcome n Cmd Snap :=
  match o with
  | .ok rf a => .ok (k (nd.setRaft rf) a)
  | .panic p rf => .panic p (nd.setRaft rf)

/-- The server after a crash: `Make` over what the persister holds. -/
def restart (nd : Node n Cmd Snap) : Node n Cmd Snap :=
  { nd.setRaft (Raft.make nd.rf.me nd.rf.persister) with
    voteHandlers := []
    elections := []
    beats := []
    received := 0
    lastAppliedIndex := 0
    captured := none
    past := nd.past ++ nd.rf.applyChan }

/-- Every message the server ever sent on its apply channel. -/
def applied (nd : Node n Cmd Snap) : List (ApplyMsg Cmd Snap) := nd.past ++ nd.rf.applyChan

/-- The peers of a server. -/
def peers (nd : Node n Cmd Snap) : List (Fin n) := (List.finRange n).filter (· ≠ nd.rf.me)

/-! ## Elections -/

/-- Start one goroutine for every peer, and count the own vote. -/
def askPeers (nd : Node n Cmd Snap) : Option (RequestVoteArgs n) → Effect n Cmd Snap
  | none => { node := nd }
  | some args =>
    { node := { nd with elections := nd.elections ++ [⟨args, nd.peers, 1, true, none⟩] } }

/-- A turn of `StartElection`: the term bump, then the requests. The own vote is part of the
history whether or not the section goes on to panic. -/
def turn (nd : Node n Cmd Snap) : NodeOutcome n Cmd Snap :=
  let own := if nd.rf.role = .leader then [] else [(nd.rf.currentTerm + 1, nd.rf.me)]
  critical { nd with votes := nd.votes ++ own } nd.rf.startElection askPeers

/-- The loop of election `k` stops reading its votes. -/
def stopListening (nd : Node n Cmd Snap) (k : ℕ) : Node n Cmd Snap :=
  { nd with elections := nd.elections.modify k fun e => { e with listening := false } }

/-- The loop of an election still waits for the reply of `src` to `args`. -/
def Awaits (e : Election n) (src : Fin n) (args : RequestVoteArgs n) : Prop :=
  e.listening ∧ e.stepDown = none ∧ e.args = args ∧ src ∈ e.waiting

instance (e : Election n) (src : Fin n) (args : RequestVoteArgs n) :
    Decidable (Awaits e src args) :=
  inferInstanceAs (Decidable (_ ∧ _ ∧ _ ∧ _))

/-- Does this granted vote make the count of election `e` large enough? -/
def countWins (e : Election n) (reply : RequestVoteReply) : Bool :=
  reply.voteGranted && quorumSize n ≤ e.getVote + 1

/-- A vote reply arrives at the loop of election `k`: count it and win, or note a higher term,
or go on. The term is compared before the lock is taken. -/
def voteReply (nd : Node n Cmd Snap) (k : ℕ) (src : Fin n) (args : RequestVoteArgs n)
    (reply : RequestVoteReply) : Option (NodeOutcome n Cmd Snap) :=
  match nd.elections[k]? with
  | none => none
  | some e =>
    if Awaits e src args then
      let e := { e with waiting := e.waiting.erase src }
      if countWins e reply then
        some (critical nd nd.rf.becomeLeader fun nd _ =>
          { node := { nd with
            elections := nd.elections.set k { e with getVote := e.getVote + 1, listening := false }
            beats := nd.beats ++ nd.peers.map fun p => ⟨p, .top⟩ } })
      else if reply.voteGranted then
        some (.ok { node := { nd with
          elections := nd.elections.set k { e with getVote := e.getVote + 1 } } })
      else if nd.rf.currentTerm < reply.followerTerm then
        some (.ok { node := { nd with
          elections := nd.elections.set k { e with stepDown := some reply.followerTerm } } })
      else some (.ok { node := { nd with elections := nd.elections.set k e } })
    else none

/-- A vote request arrives: the first critical section and the unlocked checks. -/
def requestVote (nd : Node n Cmd Snap) (args : RequestVoteArgs n) : NodeOutcome n Cmd Snap :=
  critical nd (nd.rf.requestVoteCheck args) fun nd chk =>
    if chk.refuses args = false ∧ chk.curRole = .follower then
      { node := { nd with voteHandlers := nd.voteHandlers ++ [⟨args, chk.curTerm⟩] } }
    else
      { node := nd
        sends := [.requestVoteReply nd.rf.me args ⟨chk.curTerm, false⟩] }

/-- The second critical section of handler `h`. -/
def grantVote (nd : Node n Cmd Snap) (h : ℕ) : Option (NodeOutcome n Cmd Snap) :=
  match nd.voteHandlers[h]? with
  | none => none
  | some hd =>
    let (rf, granted) := nd.rf.requestVoteGrant hd.args
    let nd := { nd with voteHandlers := nd.voteHandlers.eraseIdx h }
    let own := if granted then [(hd.args.candicateTerm, hd.args.candicateId)] else []
    some (.ok {
      node := { nd.setRaft rf with votes := nd.votes ++ own }
      sends := [.requestVoteReply nd.rf.me hd.args ⟨hd.curTerm, granted⟩] })

/-! ## Replication -/

/-- Set the state of heartbeat goroutine `b`. -/
def setBeat (nd : Node n Cmd Snap) (b : ℕ) (s : BeatState n Cmd Snap) : Node n Cmd Snap :=
  { nd with beats := nd.beats.modify b fun bt => { bt with state := s } }

/-- Heartbeat goroutine `b` ends, or goes on to one of its two calls. -/
def turnBeat (b : ℕ) (nd : Node n Cmd Snap) : Raft.BeatChoice → Effect n Cmd Snap
  | .quit => { node := { nd with beats := nd.beats.eraseIdx b } }
  | .append => { node := nd.setBeat b .append }
  | .install => { node := nd.setBeat b .install }

/-- Heartbeat goroutine `b` sends its request, if there is one to send. -/
def postAppend (b : ℕ) (peer : Fin n) (nd : Node n Cmd Snap) :
    Option (AppendEntriesArgs n Cmd) → Effect n Cmd Snap
  | none => { node := nd.setBeat b .top }
  | some args => { node := nd.setBeat b (.waitAppend args), sends := [.appendEntries peer args] }

/-- The events of heartbeat goroutine `b`. -/
def beatEvent (nd : Node n Cmd Snap) (b : ℕ) (ev : Event n Cmd Snap) :
    Option (NodeOutcome n Cmd Snap) :=
  match nd.beats[b]? with
  | none => none
  | some bt =>
    match ev, bt.state with
    | .beat _, .top =>
      some (critical nd (nd.rf.heartBeatToServer bt.peer) (turnBeat b))
    | .sendAppend _, .append =>
      some (critical nd (nd.rf.buildAppend bt.peer) (postAppend b bt.peer))
    | .sendInstall _, .install =>
      some (.ok { node := nd.setBeat b (.waitInstall nd.rf.buildInstall)
                  sends := [.installSnapshot bt.peer nd.rf.buildInstall] })
    | .beatRetry _, .waitAppend _ => some (.ok { node := nd.setBeat b .top })
    | .beatRetry _, .waitInstall _ => some (.ok { node := nd.setBeat b .top })
    | _, _ => none

/-- A reply to `AppendEntries` arrives at heartbeat goroutine `b`. -/
def appendReply [DecidableEq Cmd] (nd : Node n Cmd Snap) (b : ℕ) (src : Fin n)
    (args : AppendEntriesArgs n Cmd) (reply : AppendEntriesReply) :
    Option (NodeOutcome n Cmd Snap) :=
  match nd.beats[b]? with
  | some ⟨peer, .waitAppend args'⟩ =>
    if peer = src ∧ args' = args then
      some (critical nd (nd.rf.appendReply src args reply) fun nd _ =>
        { node := nd.setBeat b .top })
    else none
  | _ => none

/-- A reply to `InstallSnapshot` arrives at heartbeat goroutine `b`. -/
def installReply [DecidableEq Snap] (nd : Node n Cmd Snap) (b : ℕ) (src : Fin n)
    (args : InstallSnapshotArgs n Snap) (reply : InstallSnapshotReply) :
    Option (NodeOutcome n Cmd Snap) :=
  match nd.beats[b]? with
  | some ⟨peer, .waitInstall args'⟩ =>
    if peer = src ∧ args' = args then
      some (critical nd (nd.rf.installReply src args reply) fun nd _ =>
        { node := nd.setBeat b .top })
    else none
  | _ => none

/-! ## All inputs -/

/-- The events of a server. -/
def act (nd : Node n Cmd Snap) : Event n Cmd Snap → Option (NodeOutcome n Cmd Snap)
  | .restart => some (.ok { node := nd.restart })
  | .startElection => some nd.turn
  | .electionTimeout k =>
    match nd.elections[k]? with
    | some e => if e.listening ∧ e.stepDown = none then some (nd.stopListening k).turn else none
    | none => none
  | .electionQuit k =>
    match nd.elections[k]? with
    | some e =>
      if e.listening ∧ e.stepDown = none then some (.ok { node := nd.stopListening k }) else none
    | none => none
  | .askVote k peer =>
    match nd.elections[k]? with
    | some e =>
      if peer ∈ e.waiting then
        if nd.rf.role = .candicate ∧ nd.rf.currentTerm = e.args.candicateTerm then
          some (.ok { node := nd, sends := [.requestVote peer e.args] })
        else
          some (.ok { node := { nd with
            elections := nd.elections.set k { e with waiting := e.waiting.erase peer } } })
      else none
    | none => none
  | .stepDown k =>
    match nd.elections[k]? with
    | some e =>
      match e.stepDown with
      | some t =>
        if e.listening then
          some (.ok { node := (nd.setRaft (nd.rf.becomeFollower t)).stopListening k })
        else none
      | none => none
    | none => none
  | .grantVote h => nd.grantVote h
  | .beat b => nd.beatEvent b (.beat b)
  | .sendAppend b => nd.beatEvent b (.sendAppend b)
  | .sendInstall b => nd.beatEvent b (.sendInstall b)
  | .beatRetry b => nd.beatEvent b (.beatRetry b)
  | .start command => some (critical nd (nd.rf.start command) fun nd _ => { node := nd })
  | .deliver =>
    match nd.rf.applyChan[nd.received]? with
    | some m => some (.ok { node := { nd with
        received := nd.received + 1
        lastAppliedIndex := nextApplied nd.lastAppliedIndex m } })
    | none => none
  | .capture snapshot =>
    some (.ok { node := { nd with captured := some (snapshot, nd.lastAppliedIndex) } })
  | .takeSnapshot =>
    match nd.captured with
    | some (snapshot, index) =>
      some (critical { nd with captured := none } (nd.rf.takeSnapshot (some snapshot) index)
        fun nd _ => { node := nd })
    | none => none

/-- A message delivered to a server. -/
def receive [DecidableEq Cmd] [DecidableEq Snap] (nd : Node n Cmd Snap) (g : ℕ) :
    Msg n Cmd Snap → Option (NodeOutcome n Cmd Snap)
  | .requestVote _ args => some (nd.requestVote args)
  | .requestVoteReply src args reply => nd.voteReply g src args reply
  | .appendEntries _ args =>
    some (critical nd (nd.rf.appendEntries args) fun nd reply =>
      { node := nd, sends := [.appendEntriesReply nd.rf.me args reply] })
  | .appendEntriesReply src args reply => nd.appendReply g src args reply
  | .installSnapshot _ args =>
    some (critical nd (nd.rf.installSnapshot args) fun nd reply =>
      { node := nd, sends := [.installSnapshotReply nd.rf.me args reply] })
  | .installSnapshotReply src args reply => nd.installReply g src args reply

/-- What an input does to a server, `none` when it cannot happen there. -/
def exec [DecidableEq Cmd] [DecidableEq Snap] (nd : Node n Cmd Snap) :
    Input n Cmd Snap → Option (NodeOutcome n Cmd Snap)
  | .act ev => nd.act ev
  | .recv m g => nd.receive g m

/-- The end of an input for the rest of the cluster: a panicking server restarts. -/
def finish : NodeOutcome n Cmd Snap → Effect n Cmd Snap
  | .ok eff => eff
  | .panic _ nd => { node := nd.restart }

/-- The input ends the incarnation: a crash, or a panic. -/
def restarts [DecidableEq Cmd] [DecidableEq Snap] (nd : Node n Cmd Snap) (inp : Input n Cmd Snap) :
    Bool :=
  match inp, nd.exec inp with
  | .act .restart, _ => true
  | _, some (.panic _ _) => true
  | _, _ => false

/-- The initial state of server `me`. -/
def init (me : Fin n) : Node n Cmd Snap where
  rf := Raft.make me {}
  voteHandlers := []
  elections := []
  beats := []
  received := 0
  lastAppliedIndex := 0
  captured := none
  past := []
  votes := []
  erased := none

end Node

/-! ## The cluster -/

/-- All servers and the messages in flight. -/
structure Cluster (n : ℕ) (Cmd Snap : Type) where
  nodes : Fin n → Node n Cmd Snap
  net : List (Msg n Cmd Snap)

/-- A step of the cluster: an event of server `i`, the delivery of message `k` of the network,
or its loss. -/
inductive Label (n : ℕ) (Cmd Snap : Type)
  | act (i : Fin n) (ev : Event n Cmd Snap)
  | recv (k g : ℕ)
  | lose (k : ℕ)

/-- A list with a place for every message in flight, without the message that a step takes. -/
def Label.remove {n : ℕ} {Cmd Snap α : Type} : Label n Cmd Snap → List α → List α
  | .act _ _, l => l
  | .recv k _, l => l.eraseIdx k
  | .lose k, l => l.eraseIdx k

namespace Cluster

variable {n : ℕ} {Cmd Snap : Type}

/-- The initial cluster. -/
def init : Cluster n Cmd Snap := ⟨Node.init, []⟩

/-- Put the effect of one server in place. -/
def put (c : Cluster n Cmd Snap) (i : Fin n) (eff : Effect n Cmd Snap) : Cluster n Cmd Snap :=
  ⟨Function.update c.nodes i eff.node, c.net ++ eff.sends⟩

/-- Take message `k` out of the network. -/
def dropMsg (c : Cluster n Cmd Snap) (k : ℕ) : Cluster n Cmd Snap := ⟨c.nodes, c.net.eraseIdx k⟩

/-- The server and its input in a step of the cluster, and the cluster without the message that
the step takes. -/
def pick (c : Cluster n Cmd Snap) :
    Label n Cmd Snap → Option (Fin n × Input n Cmd Snap × Cluster n Cmd Snap)
  | .act i ev => some (i, .act ev, c)
  | .recv k g => (c.net[k]?).map fun m => (m.dst, .recv m g, c.dropMsg k)
  | .lose _ => none

/-- One step of the cluster, `none` when it cannot happen. -/
def step [DecidableEq Cmd] [DecidableEq Snap] (c : Cluster n Cmd Snap) (l : Label n Cmd Snap) :
    Option (Cluster n Cmd Snap) :=
  match l with
  | .lose k => some (c.dropMsg k)
  | l =>
    match c.pick l with
    | none => none
    | some (i, inp, c') => ((c.nodes i).exec inp).map fun o => c'.put i (Node.finish o)

/-- A sequence of steps. -/
def steps [DecidableEq Cmd] [DecidableEq Snap] (c : Cluster n Cmd Snap) :
    List (Label n Cmd Snap) → Option (Cluster n Cmd Snap)
  | [] => some c
  | l :: ls => (c.step l).bind fun c => c.steps ls

end Cluster

/-- A condition on a server and its input, as a condition on the steps of the cluster. -/
def StepMeets {n : ℕ} {Cmd Snap : Type} (P : Node n Cmd Snap → Input n Cmd Snap → Prop)
    (c : Cluster n Cmd Snap) (l : Label n Cmd Snap) : Prop :=
  ∀ i inp c', c.pick l = some (i, inp, c') → P (c.nodes i) inp

/-- Runs whose steps all meet a condition. -/
inductive Run {n : ℕ} {Cmd Snap : Type} [DecidableEq Cmd] [DecidableEq Snap]
    (P : Node n Cmd Snap → Input n Cmd Snap → Prop) (c : Cluster n Cmd Snap) :
    Cluster n Cmd Snap → Prop
  | refl : Run P c c
  | tail {d e : Cluster n Cmd Snap} (l : Label n Cmd Snap) :
      Run P c d → StepMeets P d l → d.step l = some e → Run P c e

end Mit6824
