import Mathlib.Data.Fintype.Basic
import Mathlib.Data.Finset.Card
import Mit6824.Raft.Handlers

set_option autoImplicit false

/-!
# The calls a server makes: elections and replication

The critical sections of the goroutines that call other servers: the term bump of
`StartElection`, the request building and the reply handling of `doAppendEntriesRPC` and
`doInstallSnapshotRPC`, and the role check of `HeartBeatToServer` (`raft/raft.go`).

## Main definitions

* `Mit6824.Raft.startElection` — the first critical section of one turn of `StartElection`.
* `Mit6824.Raft.buildAppend`, `Mit6824.Raft.appendReply` — `doAppendEntriesRPC` before and after
  the call; `commitScan` is its commit rule and `backupScan` its search for a conflicting term.
* `Mit6824.Raft.buildInstall`, `Mit6824.Raft.installReply` — the same for `doInstallSnapshotRPC`.
-/

namespace Mit6824

/-- The number of servers that decides an election and a commit: `(len(peers) + 1) / 2`. -/
def quorumSize (n : ℕ) : ℕ := (n + 1) / 2

namespace Raft

variable {n : ℕ} {Cmd Snap : Type}

/-! ## Elections -/

/-- One turn of `StartElection` up to its first unlock: a server that is not a leader enters the
next term as a candidate and votes for itself. The result is the request it will send. -/
def startElection (rf : Raft n Cmd Snap) : Outcome n Cmd Snap (Option (RequestVoteArgs n)) :=
  if rf.role = .leader then .ok rf none
  else
    let rf := persist { rf with
      currentTerm := rf.currentTerm + 1
      role := .candicate
      votedFor := some rf.me }
    match rf.getLastLog with
    | none => .panic .indexOutOfRange rf
    | some last => .ok rf (some ⟨rf.currentTerm, rf.me, last.logIndex, last.logTerm⟩)

/-! ## `doAppendEntriesRPC` -/

/-- The request for `peer`; `none` when the next entry has been compacted. The role is not
checked here, but a server without `leaderPtr` panics. In the source `Entries` is a slice of
`rf.logs`, read again when the request is encoded; here are the entries as they are when the request
is built, and `Mit6824.Memory` says what is encoded of them. -/
def buildAppend (rf : Raft n Cmd Snap) (peer : Fin n) :
    Outcome n Cmd Snap (Option (AppendEntriesArgs n Cmd)) :=
  match rf.getLastLog, rf.leaderPtr with
  | none, _ => .panic .indexOutOfRange rf
  | some _, none => .panic .nilPointer rf
  | some last, some l =>
    let heartbeat : AppendEntriesArgs n Cmd :=
      ⟨rf.currentTerm, rf.me, none, none, [], rf.commitIndex⟩
    if l.nextIndexs peer ≤ last.logIndex then
      if l.nextIndexs peer ≤ rf.lastIncludedIndex then .ok rf none
      else
        let logPos := l.nextIndexs peer - rf.lastIncludedIndex
        match rf.logs[logPos - 1]? with
        | none => .panic .indexOutOfRange rf
        | some prev =>
          .ok rf (some { heartbeat with
            prevLogIndex := some prev.logIndex
            prevLogTerm := some prev.logTerm
            entries := rf.logs.drop logPos })
    else .ok rf (some heartbeat)

/-- Record in `leaderPtr` what a reply of `peer` says. -/
def setPeer (l : Leader n) (peer : Fin n) (next mtch : ℕ) : Leader n :=
  ⟨Function.update l.nextIndexs peer next, Function.update l.matchIndexs peer mtch⟩

/-- The replicas of entry `i` that a success reply of `peer` lets the leader count: itself,
`peer`, and the others whose `matchIndexs` reach `i`. -/
def replicaCount (rf : Raft n Cmd Snap) (l : Leader n) (peer : Fin n) (i : ℕ) : ℕ :=
  2 + (Finset.univ.filter fun j => j ≠ peer ∧ j ≠ rf.me ∧ i ≤ l.matchIndexs j).card

/-- Send the `m` entries from index `k` on. -/
def sendRange : ℕ → ℕ → Raft n Cmd Snap → Outcome n Cmd Snap Unit
  | 0, _, rf => .ok rf ()
  | m + 1, k, rf =>
    match rf.sendEntry k with
    | none => .panic .indexOutOfRange rf
    | some rf => sendRange m (k + 1) rf

/-- Commit every entry up to `i`. -/
def commitUpTo (rf : Raft n Cmd Snap) (i : ℕ) : Outcome n Cmd Snap Unit :=
  match sendRange (i - rf.commitIndex) (rf.commitIndex + 1) rf with
  | .panic p rf => .panic p rf
  | .ok rf () => .ok { rf with commitIndex := i, lastApplied := i } ()

/-- The commit rule of the leader: from the acknowledged index down to `commitIndex`, while the
entry is of the current term, look for the first one with enough replicas. -/
def commitScan (rf : Raft n Cmd Snap) (l : Leader n) (peer : Fin n) :
    ℕ → Outcome n Cmd Snap Unit
  | 0 => .ok rf ()
  | i + 1 =>
    if rf.commitIndex < i + 1 then
      match rf.logAt (i + 1) with
      | none => .panic .indexOutOfRange rf
      | some e =>
        if e.logTerm = rf.currentTerm then
          if quorumSize n ≤ rf.replicaCount l peer (i + 1) then rf.commitUpTo (i + 1)
          else commitScan rf l peer i
        else .ok rf ()
    else .ok rf ()

/-- The search for the conflicting term from index `i` down to `low`: the new next index, or
`some none` when the search runs out. `none` is a panic. -/
def backupScan (rf : Raft n Cmd Snap) (xterm xindex low : ℕ) : ℕ → Option (Option ℕ)
  | 0 =>
    if 0 < low then some none
    else match rf.logAt 0 with
      | none => none
      | some e =>
        if e.logTerm = xterm then some (some 1)
        else if e.logTerm < xterm then some (some xindex)
        else some none
  | i + 1 =>
    if i + 1 < low then some none
    else match rf.logAt (i + 1) with
      | none => none
      | some e =>
        if e.logTerm = xterm then some (some (i + 2))
        else if e.logTerm < xterm then some (some xindex)
        else backupScan rf xterm xindex low i

/-- A success reply to a request whose last entry has index `last`. -/
def appendSuccess (rf : Raft n Cmd Snap) (peer : Fin n) (last : ℕ) : Outcome n Cmd Snap Unit :=
  match rf.leaderPtr with
  | none => .panic .nilPointer rf
  | some l =>
    let l := setPeer l peer (last + 1) last
    let rf := { rf with leaderPtr := some l }
    if rf.commitIndex < last then rf.commitScan l peer last else .ok rf ()

/-- A conflict reply: move `nextIndexs` back. -/
def appendConflict (rf : Raft n Cmd Snap) (peer : Fin n) (reply : AppendEntriesReply) :
    Outcome n Cmd Snap Unit :=
  match reply.xterm with
  | none =>
    match rf.leaderPtr with
    | none => .panic .nilPointer rf
    | some l =>
      let l := setPeer l peer (reply.xlen + 1) (l.matchIndexs peer)
      .ok { rf with leaderPtr := some l } ()
  | some xterm =>
    match rf.logs.head?, rf.getLastLog with
    | some first, some last =>
      match rf.backupScan xterm reply.xindex first.logIndex last.logIndex with
      | none => .panic .indexOutOfRange rf
      | some next =>
        match rf.leaderPtr with
        | none => .panic .nilPointer rf
        | some l =>
          let l := setPeer l peer (next.getD (l.nextIndexs peer)) (l.matchIndexs peer)
          .ok { rf with leaderPtr := some l } ()
    | _, _ => .panic .indexOutOfRange rf

/-- The reply handling of `doAppendEntriesRPC`. A reply of a higher term is compared with the
term of the request, not with the present one. -/
def appendReply (rf : Raft n Cmd Snap) (peer : Fin n) (args : AppendEntriesArgs n Cmd)
    (reply : AppendEntriesReply) : Outcome n Cmd Snap Unit :=
  if reply.success then
    if rf.currentTerm ≠ args.leaderTerm then .ok rf ()
    else match args.entries.getLast? with
      | some e => rf.appendSuccess peer e.logIndex
      | none =>
        -- a heartbeat: the indexes are only read, to decide whether to wait
        match rf.leaderPtr, rf.getLastLog with
        | none, _ => .panic .nilPointer rf
        | some _, none => .panic .indexOutOfRange rf
        | some _, some _ => .ok rf ()
  else if args.leaderTerm < reply.followerTerm then .ok (rf.becomeFollower reply.followerTerm) ()
  else if rf.currentTerm ≠ args.leaderTerm then .ok rf ()
  else rf.appendConflict peer reply

/-! ## `doInstallSnapshotRPC` and `HeartBeatToServer` -/

/-- The snapshot request; neither the role nor `leaderPtr` is looked at. -/
def buildInstall (rf : Raft n Cmd Snap) : InstallSnapshotArgs n Snap :=
  ⟨rf.currentTerm, rf.me, rf.lastIncludedIndex, rf.lastIncludedTerm, rf.lastIncludedCmdIndex,
    rf.persister.snapshot⟩

/-- The reply handling of `doInstallSnapshotRPC`. -/
def installReply (rf : Raft n Cmd Snap) (peer : Fin n) (args : InstallSnapshotArgs n Snap)
    (reply : InstallSnapshotReply) : Outcome n Cmd Snap Unit :=
  if rf.currentTerm ≠ args.term then .ok rf ()
  else if rf.currentTerm < reply.term then .ok (rf.becomeFollower reply.term) ()
  else match rf.leaderPtr with
    | none => .panic .nilPointer rf
    | some l =>
      let l := setPeer l peer (args.lastIncludedIndex + 1) args.lastIncludedIndex
      .ok { rf with leaderPtr := some l } ()

/-- What a turn of `HeartBeatToServer` does next. -/
inductive BeatChoice
  | quit
  | install
  | append
deriving DecidableEq, Repr

/-- The critical section at the top of the loop of `HeartBeatToServer`. -/
def heartBeatToServer (rf : Raft n Cmd Snap) (peer : Fin n) : Outcome n Cmd Snap BeatChoice :=
  if rf.role ≠ .leader then .ok rf .quit
  else match rf.leaderPtr with
    | none => .panic .nilPointer rf
    | some l => .ok rf (if l.nextIndexs peer ≤ rf.lastIncludedIndex then .install else .append)

end Raft

end Mit6824
