import Mathlib.Data.Fin.Basic
import Mathlib.Data.List.Basic

set_option autoImplicit false

/-!
# The Raft peer: data, persistence, role changes

The state of one Raft server (`raft/raft.go`, `raft/persister.go`) and the operations that every
critical section is built from. A critical section is a function from the state to an
`Outcome`: it either finishes, or it panics at some point and leaves the state it had reached
(what it persisted and sent before the panic has happened).

## Main definitions

* `Mit6824.LogEntry`, `Mit6824.ApplyMsg`, `Mit6824.Persister`, `Mit6824.Raft` — the structs of
  the source, `-1` being `none` and a `nil` command being `none`.
* `Mit6824.Raft.becomeFollower`, `Mit6824.Raft.becomeLeader` — the role changes.
* `Mit6824.Raft.persist`, `Mit6824.Raft.make` — saving the state and restarting from it.

## Design

Servers are `Fin n`, where `n = len(peers)`. Commands and snapshots are values of arbitrary
types. Logs are lists; the arrays that they share with requests are those of `Mit6824.Memory`.
`applyChan` is the sequence of messages this incarnation of the server has sent on its channel.
The timers, `heartBeatCh` and `quitElection` only decide when an election starts or ends and are
not part of this state.
-/

namespace Mit6824

/-- Numerals for the servers of a cluster of three. -/
instance instNeZeroThree : @NeZero ℕ Zero.ofOfNat0 3 := inferInstance

/-- Server roles: `FOLLOWER`, `CANDICATE` and `LEADER`. -/
inductive Role
  | follower
  | candicate
  | leader
deriving DecidableEq, Repr

/-- A log entry. A `nil` command is `none`. -/
structure LogEntry (Cmd : Type) where
  logTerm : ℕ
  logIndex : ℕ
  command : Option Cmd
  commandIndex : ℕ
  isInternalLog : Bool
deriving DecidableEq, Repr

/-- The zero value of a log entry, which `make` fills a slice with. -/
def LogEntry.zero {Cmd : Type} : LogEntry Cmd := ⟨0, 0, none, 0, false⟩

/-- A message to the service: a log entry (`commandValid`) or a snapshot. An empty snapshot is
`none`. -/
structure ApplyMsg (Cmd Snap : Type) where
  commandValid : Bool
  command : Option Cmd := none
  commandIndex : ℕ := 0
  logIndex : ℕ := 0
  snapshot : Option Snap := none
  lastIncludedIndex : ℕ := 0
  lastIncludedTerm : ℕ := 0
  lastIncludedCmdIndex : ℕ := 0
deriving DecidableEq, Repr

/-- What a leader keeps about its peers. -/
structure Leader (n : ℕ) where
  nextIndexs : Fin n → ℕ
  matchIndexs : Fin n → ℕ

/-- The six values that `encodeRaftState` writes, in its order. -/
structure RaftState (n : ℕ) (Cmd : Type) where
  currentTerm : ℕ
  votedFor : Option (Fin n)
  logs : List (LogEntry Cmd)
  lastIncludedIndex : ℕ
  lastIncludedTerm : ℕ
  lastIncludedCmdIndex : ℕ
deriving DecidableEq, Repr

/-- Stable storage: the encoded Raft state and the service's snapshot, both empty at first. -/
structure Persister (n : ℕ) (Cmd Snap : Type) where
  raftstate : Option (RaftState n Cmd) := none
  snapshot : Option Snap := none

/-- One Raft peer. -/
structure Raft (n : ℕ) (Cmd Snap : Type) where
  me : Fin n
  currentTerm : ℕ
  votedFor : Option (Fin n)
  logs : List (LogEntry Cmd)
  lastIncludedIndex : ℕ
  lastIncludedTerm : ℕ
  lastIncludedCmdIndex : ℕ
  commitIndex : ℕ
  lastApplied : ℕ
  role : Role
  leaderPtr : Option (Leader n)
  persister : Persister n Cmd Snap
  applyChan : List (ApplyMsg Cmd Snap)

/-- The run-time panics of the modelled code. -/
inductive Panic
  | indexOutOfRange
  | nilPointer
deriving DecidableEq, Repr

/-- The end of a critical section: it finishes with a state and a result, or it panics and the
state is the one reached at the panic. -/
inductive Outcome (n : ℕ) (Cmd Snap α : Type)
  | ok (rf : Raft n Cmd Snap) (a : α)
  | panic (p : Panic) (rf : Raft n Cmd Snap)

namespace Raft

variable {n : ℕ} {Cmd Snap : Type}

/-! ## Persistence -/

/-- The encoded state; decoding is assumed to undo encoding, so the bytes are the values. -/
def encodeRaftState (rf : Raft n Cmd Snap) : RaftState n Cmd :=
  ⟨rf.currentTerm, rf.votedFor, rf.logs, rf.lastIncludedIndex, rf.lastIncludedTerm,
    rf.lastIncludedCmdIndex⟩

/-- Save the Raft state (`SaveRaftState`). -/
def persist (rf : Raft n Cmd Snap) : Raft n Cmd Snap :=
  { rf with persister := { rf.persister with raftstate := some rf.encodeRaftState } }

/-- Save the Raft state and a snapshot in one go (`SaveStateAndSnapshot`). -/
def saveStateAndSnapshot (rf : Raft n Cmd Snap) (snapshot : Option Snap) : Raft n Cmd Snap :=
  { rf with persister := ⟨some rf.encodeRaftState, snapshot⟩ }

/-- Restore the persisted values; nothing happens when none were saved. -/
def readPersist (rf : Raft n Cmd Snap) (data : Option (RaftState n Cmd)) : Raft n Cmd Snap :=
  match data with
  | none => rf
  | some d =>
    { rf with
      currentTerm := d.currentTerm
      votedFor := d.votedFor
      logs := d.logs
      lastIncludedIndex := d.lastIncludedIndex
      lastIncludedTerm := d.lastIncludedTerm
      lastIncludedCmdIndex := d.lastIncludedCmdIndex }

/-! ## The log -/

/-- `rf.logs[rf.logIndex2LogPos(i)]`: the entry of index `i`, `none` where the slice access
panics (a negative position or one past the end). -/
def logAt (rf : Raft n Cmd Snap) (i : ℕ) : Option (LogEntry Cmd) :=
  if i < rf.lastIncludedIndex then none else rf.logs[i - rf.lastIncludedIndex]?

/-- The last entry; `none` (an empty slice) panics in the source. -/
def getLastLog (rf : Raft n Cmd Snap) : Option (LogEntry Cmd) := rf.logs.getLast?

/-- The entry at position 0 for a snapshot position. -/
def dummyLog (index term cmdIndex : ℕ) : LogEntry Cmd := ⟨term, index, none, cmdIndex, true⟩

/-! ## Role changes -/

/-- Become a follower in `newTerm`, whatever the present term is. The vote is cleared. -/
def becomeFollower (rf : Raft n Cmd Snap) (newTerm : ℕ) : Raft n Cmd Snap :=
  persist { rf with
    currentTerm := newTerm
    votedFor := none
    leaderPtr := none
    role := .follower }

/-- Become the leader in the current term: reset the peer indexes and append a `no-op` entry,
which keeps the command index. -/
def becomeLeader (rf : Raft n Cmd Snap) : Outcome n Cmd Snap Unit :=
  match rf.getLastLog with
  | none =>
    .panic .indexOutOfRange { rf with role := .leader, leaderPtr := some ⟨fun _ => 0, fun _ => 0⟩ }
  | some last =>
    .ok (persist { rf with
      role := .leader
      leaderPtr := some ⟨fun _ => last.logIndex + 1, fun _ => 0⟩
      logs := rf.logs ++ [⟨rf.currentTerm, last.logIndex + 1, none, last.commandIndex, true⟩] }) ()

/-! ## Delivery to the service and start-up -/

/-- Hand the persisted snapshot to the service; this also sets both indexes to its position. -/
def installSnapshotToApplication (rf : Raft n Cmd Snap) : Raft n Cmd Snap :=
  { rf with
    lastApplied := rf.lastIncludedIndex
    commitIndex := rf.lastIncludedIndex
    applyChan := rf.applyChan ++ [{
      commandValid := false
      snapshot := rf.persister.snapshot
      lastIncludedIndex := rf.lastIncludedIndex
      lastIncludedTerm := rf.lastIncludedTerm
      lastIncludedCmdIndex := rf.lastIncludedCmdIndex }] }

/-- Add the sentinel entry to an empty log. -/
def addSentinel (rf : Raft n Cmd Snap) : Raft n Cmd Snap :=
  if rf.logs = [] then
    { rf with logs :=
      [dummyLog rf.lastIncludedIndex rf.lastIncludedTerm rf.lastIncludedCmdIndex] }
  else rf

/-- The state `Make` starts from, before it reads the persister. -/
def blank (me : Fin n) (persister : Persister n Cmd Snap) : Raft n Cmd Snap where
  me := me
  currentTerm := 0
  votedFor := none
  logs := []
  lastIncludedIndex := 0
  lastIncludedTerm := 0
  lastIncludedCmdIndex := 0
  commitIndex := 0
  lastApplied := 0
  role := .follower
  leaderPtr := none
  persister := persister
  applyChan := []

/-- `Make`: start a server from what its persister holds. -/
def make (me : Fin n) (persister : Persister n Cmd Snap) : Raft n Cmd Snap :=
  (((blank me persister).readPersist persister.raftstate).addSentinel).installSnapshotToApplication

end Raft

end Mit6824
