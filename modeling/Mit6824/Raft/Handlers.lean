import Mit6824.Raft.Basic

set_option autoImplicit false

/-!
# The RPC handlers and the calls of the service

The critical sections that run when a request arrives (`RequestVote`, `AppendEntries`,
`InstallSnapshot`) or when the service calls the peer (`Start`, `TakeSnapshot`), in
`raft/raft.go`. `RequestVote` takes the lock twice and is two functions with the unlocked
comparison `VoteCheck.refuses` between them.

## Main definitions

* `Mit6824.Raft.requestVoteCheck`, `Mit6824.Raft.requestVoteGrant` — the two halves of
  `RequestVote`.
* `Mit6824.Raft.appendEntries` — `AppendEntries`; its parts are `adopt`, `conflict` and the
  commit loop `commitLoop`.
* `Mit6824.Raft.installSnapshot`, `Mit6824.Raft.takeSnapshot`, `Mit6824.Raft.start`.
-/

namespace Mit6824

/-- Arguments of `RequestVote`. -/
structure RequestVoteArgs (n : ℕ) where
  candicateTerm : ℕ
  candicateId : Fin n
  lastLogIndex : ℕ
  lastLogTerm : ℕ
deriving DecidableEq, Repr

/-- Reply of `RequestVote`. -/
structure RequestVoteReply where
  followerTerm : ℕ
  voteGranted : Bool
deriving DecidableEq, Repr

/-- Arguments of `AppendEntries`. A heartbeat has no entries, and `-1` for the previous index
and term is `none`. -/
structure AppendEntriesArgs (n : ℕ) (Cmd : Type) where
  leaderTerm : ℕ
  leaderId : Fin n
  prevLogIndex : Option ℕ
  prevLogTerm : Option ℕ
  entries : List (LogEntry Cmd)
  leaderCommit : ℕ
deriving DecidableEq, Repr

/-- Reply of `AppendEntries`; `xterm = none` is the `-1` of a missing previous entry. -/
structure AppendEntriesReply where
  followerTerm : ℕ
  success : Bool
  xterm : Option ℕ := some 0
  xindex : ℕ := 0
  xlen : ℕ := 0
deriving DecidableEq, Repr

/-- Arguments of `InstallSnapshot`. The snapshot is always one chunk, so `Offset` and `Done`
carry nothing and are left out. -/
structure InstallSnapshotArgs (n : ℕ) (Snap : Type) where
  term : ℕ
  leaderId : Fin n
  lastIncludedIndex : ℕ
  lastIncludedTerm : ℕ
  lastIncludedCmdIndex : ℕ
  data : Option Snap
deriving DecidableEq, Repr

/-- Reply of `InstallSnapshot`. -/
structure InstallSnapshotReply where
  term : ℕ
deriving DecidableEq, Repr

/-! ## `RequestVote` -/

/-- What the first critical section of `RequestVote` reads. -/
structure VoteCheck where
  curRole : Role
  curTerm : ℕ
  lastLogIdx : ℕ
  lastLogTerm : ℕ
deriving DecidableEq, Repr

/-- The comparison made with no lock held: the request is refused when its term is behind, or
its log is. -/
def VoteCheck.refuses {n : ℕ} (chk : VoteCheck) (args : RequestVoteArgs n) : Bool :=
  args.candicateTerm < chk.curTerm ||
    (args.lastLogTerm < chk.lastLogTerm ||
      (args.lastLogTerm = chk.lastLogTerm && args.lastLogIndex < chk.lastLogIdx))

namespace Raft

variable {n : ℕ} {Cmd Snap : Type}

/-- First critical section of `RequestVote`. -/
def requestVoteCheck (rf : Raft n Cmd Snap) (args : RequestVoteArgs n) :
    Outcome n Cmd Snap VoteCheck :=
  let rf := if rf.currentTerm < args.candicateTerm then rf.becomeFollower args.candicateTerm else rf
  match rf.getLastLog with
  | none => .panic .indexOutOfRange rf
  | some last => .ok rf ⟨rf.role, rf.currentTerm, last.logIndex, last.logTerm⟩

/-- Second critical section of `RequestVote`, entered by a server that was a follower in the
first one. Only `votedFor` is looked at again. -/
def requestVoteGrant (rf : Raft n Cmd Snap) (args : RequestVoteArgs n) : Raft n Cmd Snap × Bool :=
  if rf.votedFor = none ∨ rf.votedFor = some args.candicateId then
    (persist { rf with votedFor := some args.candicateId }, true)
  else (rf, false)

/-! ## Sending committed entries to the service -/

/-- Send entry `i` on the apply channel unless it is internal; `none` is the panic of an
access outside the slice. -/
def sendEntry (rf : Raft n Cmd Snap) (i : ℕ) : Option (Raft n Cmd Snap) :=
  match rf.logAt i with
  | none => none
  | some e =>
    if e.isInternalLog then some rf
    else some { rf with applyChan := rf.applyChan ++ [{
      commandValid := true
      command := e.command
      commandIndex := e.commandIndex
      logIndex := e.logIndex }] }

/-- The commit loop of `AppendEntries`, whose index is `commitIndex + 1` at every turn; `fuel`
bounds the number of turns. -/
def commitLoop (leaderCommit : ℕ) : ℕ → Raft n Cmd Snap → Outcome n Cmd Snap Unit
  | 0, rf => .ok rf ()
  | fuel + 1, rf =>
    match rf.getLastLog with
    | none => .panic .indexOutOfRange rf
    | some last =>
      let i := rf.commitIndex + 1
      if i ≤ leaderCommit ∧ i ≤ last.logIndex then
        match rf.sendEntry i with
        | none => .panic .indexOutOfRange rf
        | some rf => commitLoop leaderCommit fuel { rf with commitIndex := i, lastApplied := i }
      else .ok rf ()

/-- Advance `commitIndex` towards the leader's: the loop runs at most `leaderCommit` minus
`commitIndex` times. -/
def advanceCommit (rf : Raft n Cmd Snap) (leaderCommit : ℕ) (reply : AppendEntriesReply) :
    Outcome n Cmd Snap AppendEntriesReply :=
  if rf.commitIndex < leaderCommit then
    match commitLoop leaderCommit (leaderCommit - rf.commitIndex) rf with
    | .ok rf () => .ok rf reply
    | .panic p rf => .panic p rf
  else .ok rf reply

/-! ## `AppendEntries` -/

/-- Cut the log after position `logPos` and append the leader's entries. -/
def adopt (rf : Raft n Cmd Snap) (logPos : ℕ) (entries : List (LogEntry Cmd)) : Raft n Cmd Snap :=
  persist { rf with logs := rf.logs.take (logPos + 1) ++ entries }

/-- The index of the first entry of term `xterm` at positions `1..logPos`; `0`, the zero value
of the reply, when there is none. -/
def firstOfTerm (logs : List (LogEntry Cmd)) (logPos xterm : ℕ) : ℕ :=
  match ((logs.take (logPos + 1)).tail).find? (fun e => e.logTerm = xterm) with
  | some e => e.logIndex
  | none => 0

/-- `AppendEntries`: heartbeat and replication. Any request of at least the current term makes
the server a follower and clears its vote. -/
def appendEntries (rf : Raft n Cmd Snap) (args : AppendEntriesArgs n Cmd) :
    Outcome n Cmd Snap AppendEntriesReply :=
  if args.leaderTerm < rf.currentTerm then
    .ok rf { followerTerm := rf.currentTerm, success := false }
  else
    let rf := rf.becomeFollower args.leaderTerm
    let reply : AppendEntriesReply := { followerTerm := args.leaderTerm, success := true }
    match args.entries, args.prevLogIndex with
    | [], _ => rf.advanceCommit args.leaderCommit reply
    -- the code builds no request with entries and previous index -1; it lies below every snapshot
    | _ :: _, none => .ok rf { reply with success := false, xterm := none }
    | e :: es, some prev =>
      if prev < rf.lastIncludedIndex then
        .ok rf { reply with success := false, xterm := none }
      else
        match rf.getLastLog with
        | none => .panic .indexOutOfRange rf
        | some last =>
          if prev ≤ last.logIndex then
            let logPos := prev - rf.lastIncludedIndex
            match rf.logs[logPos]? with
            | none => .panic .indexOutOfRange rf
            | some old =>
              if some old.logTerm = args.prevLogTerm then
                (rf.adopt logPos (e :: es)).advanceCommit args.leaderCommit reply
              else
                .ok (persist { rf with logs := rf.logs.take logPos })
                  { reply with
                    success := false
                    xterm := some old.logTerm
                    xindex := firstOfTerm rf.logs logPos old.logTerm }
          else .ok rf { reply with success := false, xterm := none, xlen := last.logIndex }

/-! ## Snapshots -/

/-- `copy(make([]LogEntry, m), l)`. -/
def copyInto (m : ℕ) (l : List (LogEntry Cmd)) : List (LogEntry Cmd) :=
  l.take m ++ List.replicate (m - l.length) LogEntry.zero

/-- Turn the first entry into a sentinel: internal and without a command. -/
def markSentinel : List (LogEntry Cmd) → List (LogEntry Cmd)
  | [] => []
  | e :: es => { e with isInternalLog := true, command := none } :: es

/-- The log that remains under an installed snapshot: the entries above it when the local log
agrees with it at its last index, else the sentinel alone. `none` is a panic. -/
def logsAfterInstall (rf : Raft n Cmd Snap) (args : InstallSnapshotArgs n Snap) :
    Option (List (LogEntry Cmd)) :=
  let sentinel :=
    dummyLog args.lastIncludedIndex args.lastIncludedTerm args.lastIncludedCmdIndex
  match rf.getLastLog with
  | none => none
  | some last =>
    if args.lastIncludedIndex < last.logIndex then
      match rf.logAt args.lastIncludedIndex with
      | none => none
      | some e =>
        if e.logTerm ≠ args.lastIncludedTerm then some [sentinel]
        else some (markSentinel (copyInto (last.logIndex - args.lastIncludedIndex + 1)
          (rf.logs.drop (args.lastIncludedIndex - rf.lastIncludedIndex))))
    else some [sentinel]

/-- `InstallSnapshot`. The reply carries the term before the request was looked at. -/
def installSnapshot (rf : Raft n Cmd Snap) (args : InstallSnapshotArgs n Snap) :
    Outcome n Cmd Snap InstallSnapshotReply :=
  let reply : InstallSnapshotReply := ⟨rf.currentTerm⟩
  if args.term < rf.currentTerm then .ok rf reply
  else
    let rf := if rf.currentTerm < args.term then rf.becomeFollower args.term else rf
    if args.lastIncludedIndex ≤ rf.lastIncludedIndex then .ok rf reply
    else
      match rf.logsAfterInstall args with
      | none => .panic .indexOutOfRange rf
      | some logs =>
        .ok (installSnapshotToApplication (saveStateAndSnapshot { rf with
          logs := logs
          lastIncludedIndex := args.lastIncludedIndex
          lastIncludedTerm := args.lastIncludedTerm
          lastIncludedCmdIndex := args.lastIncludedCmdIndex } args.data)) reply

/-- Drop the command of the first entry, as `TakeSnapshot` does (it stays a non-internal entry
if it was one). -/
def dropCommand : List (LogEntry Cmd) → List (LogEntry Cmd)
  | [] => []
  | e :: es => { e with command := none } :: es

/-- `TakeSnapshot`, called by the service with the index its snapshot covers. -/
def takeSnapshot (rf : Raft n Cmd Snap) (snapshot : Option Snap) (lastIncludedIndex : ℕ) :
    Outcome n Cmd Snap Unit :=
  if lastIncludedIndex ≤ rf.lastIncludedIndex then .ok rf ()
  else
    match rf.logAt lastIncludedIndex with
    | none => .panic .indexOutOfRange rf
    | some e =>
      .ok (saveStateAndSnapshot { rf with
        logs := dropCommand (rf.logs.drop (lastIncludedIndex - rf.lastIncludedIndex))
        lastIncludedIndex := lastIncludedIndex
        lastIncludedTerm := e.logTerm
        lastIncludedCmdIndex := e.commandIndex } snapshot) ()

/-! ## `Start` -/

/-- `Start`: a leader appends the command and returns its command index and the term. -/
def start (rf : Raft n Cmd Snap) (command : Cmd) : Outcome n Cmd Snap (Option (ℕ × ℕ)) :=
  if rf.role ≠ .leader then .ok rf none
  else
    match rf.getLastLog with
    | none => .panic .indexOutOfRange rf
    | some last =>
      .ok (persist { rf with logs := rf.logs ++
        [⟨rf.currentTerm, last.logIndex + 1, some command, last.commandIndex + 1, false⟩] })
        (some (last.commandIndex + 1, rf.currentTerm))

end Raft

end Mit6824
