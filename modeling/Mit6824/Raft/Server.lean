import Mit6824.Raft.Replicators

set_option autoImplicit false

/-!
# One server with the goroutines that start elections

A server that is not leader is driven by two kinds of goroutines: `TimeOutToElection`, whose
ticker spawns `StartElection`, and `StartElection`, which stops one `TimeOutToElection` through
`quitElection` and then runs one election after the other. Both read `heartBeatCh`, into which the
handlers of `AppendEntries` and `RequestVote` put a token while they hold the lock
(`raft/raft.go`). The critical sections are those of `Mit6824.Node`; here are the goroutines
around them.

## Main definitions

* `Mit6824.Server` — a node with its goroutines and the tokens in `heartBeatCh`.
* `Mit6824.Server.step` — a goroutine moves, or a critical section runs.
* `Mit6824.Server.Fresh` — a new term finds `heartBeatCh` empty, and a handler that waits at a
  full `heartBeatCh` has a `TimeOutToElection` goroutine to drain it.
* `Mit6824.Server.Driven`, `Mit6824.Server.CanElect` — the goroutine each role needs, and what the
  server can do without any message.

## Design

`quitElection` is unbuffered, so sending and receiving are one step. `heartBeatCh` holds eight
tokens; a handler that finds it full keeps the lock and waits, and the input it handles is put
aside in `sending`. The messages that arrive are arbitrary, except that a request for a vote is
never in the server's own name (`StartElection` leaves out `rf.me`). A `StartElection` goroutine
inside its loop is a listening election of the node; the tick that ends its turn and the next term
are one step.
-/

namespace Mit6824

variable {n : ℕ} {Cmd Snap : Type}

/-! ## The model -/

/-- The capacity of `heartBeatCh`. -/
def heartBeatCap : ℕ := 8

namespace Node

/-- The section of this input puts a token into `heartBeatCh`: `AppendEntries` unless it is
refused or the server leads, and `RequestVote` when it grants its vote. -/
def pushes (nd : Node n Cmd Snap) : Input n Cmd Snap → Bool
  | .recv (.appendEntries _ args) _ =>
      decide (nd.rf.currentTerm ≤ args.leaderTerm ∧ nd.rf.role ≠ .leader)
  | .act (.grantVote h) => (nd.granting (.act (.grantVote h))).isSome
  | _ => false

/-- What a section does before it puts its token into `heartBeatCh`; the vote that `RequestVote`
grants is not visible before it releases the lock. -/
def untilPush (nd : Node n Cmd Snap) : Input n Cmd Snap → Node n Cmd Snap
  | .recv (.appendEntries _ args) _ => nd.setRaft (nd.rf.becomeFollower args.leaderTerm)
  | _ => nd

/-- The input is handled under the lock: all but a crash, what the service does by itself, a
timeout or a token that a goroutine reads, and a vote reply that does not complete an election. -/
def locks (nd : Node n Cmd Snap) : Input n Cmd Snap → Bool
  | .act .restart => false
  | .act (.electionQuit _) => false
  | .act (.beatRetry _) => false
  | .act .deliver => false
  | .act (.capture _) => false
  | .recv (.requestVoteReply src args reply) k =>
      (nd.winning (.recv (.requestVoteReply src args reply) k)).isSome
  | _ => true

end Node

/-- A server with the goroutines that start elections. -/
structure Server (n : ℕ) (Cmd Snap : Type) where
  node : Node n Cmd Snap
  /-- `TimeOutToElection` goroutines -/
  timers : ℕ
  /-- `StartElection` goroutines that wait at `quitElection` -/
  blocked : ℕ
  /-- `StartElection` goroutines that got through and are about to enter their loop -/
  entering : ℕ
  /-- tokens in `heartBeatCh` -/
  tokens : ℕ
  heartBeatCnt : ℕ
  /-- the input of the handler that holds the lock and waits for room in `heartBeatCh` -/
  sending : Option (Input n Cmd Snap)

namespace Server

/-- What can happen at a server. -/
inductive Act (n : ℕ) (Cmd Snap : Type)
  /-- the ticker of a `TimeOutToElection` goroutine -/
  | tick
  /-- a `TimeOutToElection` goroutine reads `heartBeatCh` -/
  | take
  /-- a `StartElection` goroutine stops a `TimeOutToElection` goroutine -/
  | quit
  /-- the handler that waits for room in `heartBeatCh` goes on -/
  | resume
  | node (inp : Input n Cmd Snap)

/-- A server that starts: `Make` starts one `TimeOutToElection` goroutine. -/
def boot (nd : Node n Cmd Snap) : Server n Cmd Snap := ⟨nd, 1, 0, 0, 0, 0, none⟩

/-- Put a node in place. Only `becomeFollower` makes a follower of another role, and it starts a
`TimeOutToElection` goroutine then. -/
def put (s : Server n Cmd Snap) (nd : Node n Cmd Snap) : Server n Cmd Snap :=
  if s.node.rf.role ≠ .follower ∧ nd.rf.role = .follower then
    { s with node := nd, timers := s.timers + 1, heartBeatCnt := 0 }
  else { s with node := nd }

/-- The input can be handled: the goroutine or the token it needs is there, and nobody asks the
server for a vote in its own name. -/
def ready (s : Server n Cmd Snap) : Input n Cmd Snap → Bool
  | .act .startElection => decide (0 < s.entering)
  | .act (.electionQuit _) => decide (0 < s.tokens)
  | .recv (.requestVote _ args) _ => decide (args.candicateId ≠ s.node.rf.me)
  | _ => true

/-- Take away the goroutine or the token that the input uses up. -/
def charge (s : Server n Cmd Snap) : Input n Cmd Snap → Server n Cmd Snap
  | .act .startElection => { s with entering := s.entering - 1 }
  | .act (.electionQuit _) => { s with tokens := s.tokens - 1 }
  | _ => s

/-- The server after a section: a crash starts it anew. -/
def settle (s : Server n Cmd Snap) (inp : Input n Cmd Snap) :
    NodeOutcome n Cmd Snap → Server n Cmd Snap
  | .panic _ nd => boot nd.restart
  | .ok eff =>
    match inp with
    | .act .restart => boot eff.node
    | inp =>
      let s' := (s.charge inp).put eff.node
      if s.node.pushes inp then { s' with tokens := s'.tokens + 1 } else s'

variable [DecidableEq Cmd] [DecidableEq Snap]

/-- Run the section of an input. -/
def run (s : Server n Cmd Snap) (inp : Input n Cmd Snap) : Option (Server n Cmd Snap) :=
  (s.node.exec inp).map (s.settle inp)

/-- A step of the server; `none` when it cannot happen. -/
def step (s : Server n Cmd Snap) : Act n Cmd Snap → Option (Server n Cmd Snap)
  | .tick =>
    if 0 < s.timers then
      if 0 < s.heartBeatCnt then some { s with heartBeatCnt := 0 }
      else some { s with blocked := s.blocked + 1 }
    else none
  | .take =>
    if 0 < s.timers ∧ 0 < s.tokens then
      some { s with tokens := s.tokens - 1, heartBeatCnt := s.heartBeatCnt + 1 }
    else none
  | .quit =>
    if 0 < s.timers ∧ 0 < s.blocked then
      some { s with
        timers := s.timers - 1, blocked := s.blocked - 1, entering := s.entering + 1 }
    else none
  | .resume =>
    match s.sending with
    | none => none
    | some inp =>
      if s.tokens < heartBeatCap then { s with sending := none }.run inp else none
  | .node inp =>
    if s.ready inp = true ∧ (s.sending.isNone = true ∨ s.node.locks inp = false) then
      if s.node.pushes inp = true ∧ heartBeatCap ≤ s.tokens then
        some { s.put (s.node.untilPush inp) with sending := some inp }
      else s.run inp
    else none

/-- The act is the start of a new term by a `StartElection` goroutine: its first turn or the next
one after its ticker. -/
def bumps (s : Server n Cmd Snap) : Act n Cmd Snap → Bool
  | .node (.act .startElection) => decide (s.node.rf.role ≠ .leader)
  | .node (.act (.electionTimeout _)) => decide (s.node.rf.role ≠ .leader)
  | _ => false

/-- A new term finds `heartBeatCh` empty, and a handler that waits for room in it has a
`TimeOutToElection` goroutine that can make room. -/
def Fresh (s : Server n Cmd Snap) (a : Act n Cmd Snap) : Prop :=
  (s.bumps a = true → s.tokens = 0) ∧
    ∀ s' ∈ s.step a, s'.sending.isSome = true → 0 < s'.timers

instance (s : Server n Cmd Snap) (a : Act n Cmd Snap) : Decidable (s.Fresh a) :=
  inferInstanceAs (Decidable (_ ∧ ∀ s' ∈ s.step a, _))

/-- A follower has a `TimeOutToElection` goroutine, or a `StartElection` goroutine that is about
to enter its loop; a candidate has a `StartElection` goroutine inside its loop. -/
def Driven (s : Server n Cmd Snap) : Prop :=
  (s.node.rf.role = .follower → 0 < s.timers ∨ 0 < s.entering) ∧
  (s.node.rf.role = .candicate → ∃ e ∈ s.node.elections, e.listening = true)

instance (s : Server n Cmd Snap) : Decidable s.Driven :=
  inferInstanceAs (Decidable ((_ → _) ∧ (_ → ∃ e ∈ s.node.elections, _)))

/-- What the election goroutines do without any message: they read tickers, tokens and
`quitElection`, start terms, and step down for a term they have seen. -/
def Act.internal : Act n Cmd Snap → Bool
  | .tick => true
  | .take => true
  | .quit => true
  | .resume => true
  | .node (.act .startElection) => true
  | .node (.act (.electionTimeout _)) => true
  | .node (.act (.electionQuit _)) => true
  | .node (.act (.stepDown _)) => true
  | _ => false

/-- The server can start an election by itself. -/
inductive CanElect : Server n Cmd Snap → Prop
  | now {s : Server n Cmd Snap} (a : Act n Cmd Snap) (hb : s.bumps a = true)
      (hs : (s.step a).isSome = true) : CanElect s
  | after {s s' : Server n Cmd Snap} (a : Act n Cmd Snap) (hi : a.internal = true)
      (hs : s.step a = some s') (h : CanElect s') : CanElect s

end Server

/-- Only `AppendEntries` and `RequestVote` put tokens into `heartBeatCh`. -/
lemma Node.pushes_cases {nd : Node n Cmd Snap} {inp : Input n Cmd Snap}
    (h : nd.pushes inp = true) :
    (∃ dst args g, inp = .recv (.appendEntries dst args) g) ∨ ∃ k, inp = .act (.grantVote k) := by
  unfold Node.pushes at h
  split at h
  · exact Or.inl ⟨_, _, _, rfl⟩
  · exact Or.inr ⟨_, rfl⟩
  · cases h

end Mit6824
