import Mit6824.Transition.Basic
import Mit6824.KvRaft.Server

set_option autoImplicit false

/-!
# The replicated key/value service

All servers, clerks and RPC handlers over one committed log. A step is one critical section of
a server or of a handler, one message of the Raft layer, or one action of a clerk; the Raft
layer itself is reduced to what it promises the service.

## Main definitions

* `Mit6824.KvRaft.Replica` — a `KVServer` with its `snapshotLoop` and with what the Raft layer
  keeps for it: the delivery position, the messages on `applyCh`, and the persisted snapshot.
* `Mit6824.KvRaft.Call` — one run of a `Get` or `PutAppend` handler.
* `Mit6824.KvRaft.Service`, `Mit6824.KvRaft.Event`, `Mit6824.KvRaft.Service.step` — the system.
* `Mit6824.KvRaft.Service.Assumed` — what Raft promises about `Start` and the committed log.

## Design

* The committed log begins with the sentinel at index 0 and grows at its end. Raft delivers the
  next entry after the position that is not internal, or a snapshot, which sets the position.
* Raft replicates a pointer to the operation whose `CmdIndex` and `Term` are filled in after
  `Start` has published it, so a delivered operation may carry any value in these two fields.
* `Start` accepts only in a positive term, as the Raft model does (`Mit6824.start_pos`).
* `applyCh` may hold any number of messages, although the channel of the source holds none.
* A request that was sent may arrive at any server, any number of times and at any later time;
  a request in flight for `InstallSnapshot` likewise.
* A crash is followed at once by the restart, and ends the handlers that run on the server.
-/

namespace Mit6824

namespace KvRaft

/-! ## Servers -/

/-- A server with what surrounds it. -/
structure Replica where
  kv : KVServer
  /-- the delivery position of the Raft layer -/
  pos : ℕ
  /-- the messages sent on `applyCh` and not handled yet -/
  applyCh : List (ApplyMsg Op KVState)
  /-- what `snapshotLoop` has encoded but not handed over yet -/
  captured : Option (KVState × ℕ)
  /-- the index of the persisted snapshot -/
  lastIncludedIndex : ℕ
  /-- the persisted snapshot -/
  snapshot : Option KVState

/-- The message for an entry; the two fields filled in by the handler are as given. -/
def entryMsg (entry : LogEntry Op) (index : ℕ) (cmdIndex term : ℤ) : ApplyMsg Op KVState where
  commandValid := true
  command := entry.command.map fun op => { op with cmdIndex := cmdIndex, term := term }
  commandIndex := entry.commandIndex
  logIndex := index

/-- The message for a snapshot (`installSnapshotToApplication`). -/
def snapshotMsg (index : ℕ) (snapshot : Option KVState) : ApplyMsg Op KVState where
  commandValid := false
  snapshot := snapshot
  lastIncludedIndex := index

namespace Replica

/-- A server on a new machine: no snapshot, and Raft sends the empty one first. -/
def init : Replica := ⟨startKVServer, 0, [snapshotMsg 0 none], none, 0, none⟩

/-- Raft sends the entry at `index`, the next one that is not internal. -/
def deliver (log : List (LogEntry Op)) (r : Replica) (index : ℕ) (cmdIndex term : ℤ) :
    Option Replica :=
  match log[index]? with
  | none => none
  | some entry =>
    if entry.isInternalLog = false ∧ r.pos < index ∧
        ∀ k < index, r.pos < k → ∀ e ∈ log[k]?, e.isInternalLog = true then
      some { r with
        pos := index
        applyCh := r.applyCh ++ [entryMsg entry index cmdIndex term] }
    else none

/-- `applyMsgLoop` handles the next message. -/
def apply (r : Replica) : Option Replica :=
  match r.applyCh with
  | [] => none
  | msg :: msgs => (r.kv.applyMsg msg).map fun kv => { r with kv := kv, applyCh := msgs }

/-- `snapshotLoop` encodes the maps. -/
def capture (r : Replica) : Replica := { r with captured := some r.kv.capture }

/-- `snapshotLoop` calls `TakeSnapshot`, which ignores an old snapshot. -/
def takeSnapshot (r : Replica) : Option Replica :=
  match r.captured with
  | none => none
  | some (snapshot, index) =>
    if index ≤ r.lastIncludedIndex then some { r with captured := none }
    else some { r with
      captured := none
      lastIncludedIndex := index
      snapshot := some snapshot }

/-- `InstallSnapshot`: ignore an old snapshot, else persist it and send it to the service. -/
def installSnapshot (r : Replica) (index : ℕ) (snapshot : Option KVState) : Replica :=
  if index ≤ r.lastIncludedIndex then r
  else { r with
    pos := index
    applyCh := r.applyCh ++ [snapshotMsg index snapshot]
    lastIncludedIndex := index
    snapshot := snapshot }

/-- Restart over the persisted snapshot, which `Make` sends to the service. -/
def restart (r : Replica) : Replica where
  kv := startKVServer
  pos := r.lastIncludedIndex
  applyCh := [snapshotMsg r.lastIncludedIndex r.snapshot]
  captured := none
  lastIncludedIndex := r.lastIncludedIndex
  snapshot := r.snapshot

end Replica

/-! ## Handlers and clerks -/

/-- Where a handler stands: before `Start`, after `Start` has returned, waiting on its channel,
answered (with the log indexes at which its channel was closed) before and after its cleanup,
and killed with its server. -/
inductive Phase
  | received
  | started
  | waiting
  | answered (reply : Reply) (signals : List ℕ)
  | replied (reply : Reply) (signals : List ℕ)
  | lost
deriving DecidableEq, Repr

/-- A `Get` or `PutAppend` handler, by the type of its operation. -/
structure Call (n : ℕ) where
  server : Fin n
  op : Op
  phase : Phase
deriving DecidableEq, Repr

/-- What a handler does next. `Start` may find the server killed, not leading, or leading; a
leader's term is not 0. -/
inductive CallEvent
  | startKilled
  | startRefused
  | startAccepted (cmdIndex term : ℕ)
  | register
  | signal
  | timeout
  | cleanup
deriving DecidableEq, Repr

/-- The crash of server `i` ends a handler that has not returned. -/
def Call.crash {n : ℕ} (i : Fin n) (call : Call n) : Call n :=
  match call.phase with
  | .replied _ _ => call
  | _ => if call.server = i then { call with phase := .lost } else call

/-- `Start` has returned these values to the handler. -/
def Call.start {n : ℕ} (call : Call n) (cmdIndex term : ℤ) (phase : Phase) : Call n :=
  { call with op := { call.op with cmdIndex := cmdIndex, term := term }, phase := phase }

/-- A clerk: its last number, and the operation it has not been answered yet. -/
structure Clerk where
  seqId : ℤ
  pending : Option Op

/-! ## The service -/

/-- The state of the whole service. A call is named by its position in `calls`, which is also
the address of its context. -/
structure Service (n : ℕ) where
  log : List (LogEntry Op)
  replicas : Fin n → Replica
  installs : List (ℕ × Option KVState)
  requests : List Op
  calls : List (Call n)
  clerks : ℤ → Clerk

/-- The steps of the service. -/
inductive Event (n : ℕ)
  | commit (entry : LogEntry Op)
  | deliver (i : Fin n) (index : ℕ) (cmdIndex term : ℤ)
  | apply (i : Fin n)
  | capture (i : Fin n)
  | takeSnapshot (i : Fin n)
  | sendInstall (i : Fin n)
  | installSnapshot (i : Fin n) (m : ℕ)
  | restart (i : Fin n)
  | issue (client : ℤ) (type : OpType) (key value : String)
  | receive (i : Fin n) (r : ℕ)
  | call (k : ℕ) (ev : CallEvent)
  | acknowledge (client : ℤ) (k : ℕ)

namespace Service

variable {n : ℕ}

/-- No operation, no request, new servers. -/
def init : Service n :=
  ⟨[Raft.dummyLog 0 0 0], fun _ => .init, [], [], [], fun _ => ⟨0, none⟩⟩

/-- Put the new state of server `i` in place. -/
def setReplica (σ : Service n) (i : Fin n) (r : Replica) : Service n :=
  { σ with replicas := Function.update σ.replicas i r }

/-- Put the new state of call `k` in place. -/
def setCall (σ : Service n) (k : ℕ) (call : Call n) : Service n :=
  { σ with calls := σ.calls.set k call }

/-- Change the key/value part of server `i`. -/
def setKV (σ : Service n) (i : Fin n) (kv : KVServer) : Service n :=
  σ.setReplica i { σ.replicas i with kv := kv }

/-- The steps of handler `k`, which stands at `call`. -/
def callStep (σ : Service n) (k : ℕ) (call : Call n) (ev : CallEvent) : Option (Service n) :=
  match ev, call.phase with
  | .startKilled, .received => some (σ.setCall k (call.start (-1) (-1) .started))
  | .startRefused, .received =>
    some (σ.setCall k (call.start (-1) (-1) (.replied { err := .errWrongLeader } [])))
  | .startAccepted cmdIndex term, .received =>
    if 0 < term then some (σ.setCall k (call.start cmdIndex term .started)) else none
  | .register, .started =>
    some ((σ.setKV call.server ((σ.replicas call.server).kv.register k call.op)).setCall k
      { call with phase := .waiting })
  | .signal, .waiting =>
    match (σ.replicas call.server).kv.contexts k with
    | none => none
    | some ctx =>
      if ctx.commitedChan = [] then none
      else some (σ.setCall k { call with phase := .answered ctx.reply ctx.commitedChan })
  | .timeout, .waiting =>
    some (σ.setCall k { call with phase := .answered { err := .errWrongLeader } [] })
  | .cleanup, .answered reply signals =>
    some ((σ.setKV call.server ((σ.replicas call.server).kv.cleanup k call.op)).setCall k
      { call with phase := .replied reply signals })
  | _, _ => none

/-- A clerk with no operation under way sends its next one. -/
def issue (σ : Service n) (client : ℤ) (op : Op) : Option (Service n) :=
  match (σ.clerks client).pending with
  | some _ => none
  | none => some { σ with
      requests := σ.requests ++ [op]
      clerks := Function.update σ.clerks client ⟨op.seqId, some op⟩ }

/-- A clerk takes the answer of call `k` to its operation; it repeats its request as long as it
is told `ErrWrongLeader`. -/
def acknowledge (σ : Service n) (client : ℤ) (call : Call n) : Option (Service n) :=
  match call.phase, (σ.clerks client).pending with
  | .replied reply _, some op =>
    if reply.err ≠ .errWrongLeader ∧ call.op.request = op then
      some { σ with clerks := Function.update σ.clerks client ⟨(σ.clerks client).seqId, none⟩ }
    else none
  | _, _ => none

/-- One step of the service, `none` when it cannot happen. -/
def step (σ : Service n) : Event n → Option (Service n)
  | .commit entry =>
    if entry.isInternalLog = true ∨ entry.command.isSome then
      some { σ with log := σ.log ++ [{ entry with logIndex := σ.log.length }] }
    else none
  | .deliver i index cmdIndex term =>
    ((σ.replicas i).deliver σ.log index cmdIndex term).map (σ.setReplica i)
  | .apply i => (σ.replicas i).apply.map (σ.setReplica i)
  | .capture i => some (σ.setReplica i (σ.replicas i).capture)
  | .takeSnapshot i => (σ.replicas i).takeSnapshot.map (σ.setReplica i)
  | .sendInstall i => some { σ with
      installs := σ.installs ++ [((σ.replicas i).lastIncludedIndex, (σ.replicas i).snapshot)] }
  | .installSnapshot i m =>
    (σ.installs[m]?).map fun s => σ.setReplica i ((σ.replicas i).installSnapshot s.1 s.2)
  | .restart i => some { σ.setReplica i (σ.replicas i).restart with
      calls := σ.calls.map (Call.crash i) }
  | .issue client type key value =>
    σ.issue client {
      key := key
      value := if type = .get then "" else value
      type := type
      clientId := client
      seqId := (σ.clerks client).seqId + 1 }
  | .receive i r =>
    (σ.requests[r]?).map fun op => { σ with calls := σ.calls ++ [⟨i, op, .received⟩] }
  | .call k ev => (σ.calls[k]?).bind fun call => σ.callStep k call ev
  | .acknowledge client k => (σ.calls[k]?).bind fun call => σ.acknowledge client call

end Service

/-! ## What Raft promises -/

/-- `Start` has accepted the operation at this command index and term. -/
def Op.AcceptedAt (op : Op) (cmdIndex term : ℕ) : Prop :=
  op.cmdIndex = cmdIndex ∧ op.term = term ∧ 0 < term

instance (op : Op) (cmdIndex term : ℕ) : Decidable (op.AcceptedAt cmdIndex term) :=
  inferInstanceAs (Decidable (_ ∧ _ ∧ _))

/-- Of the operations of all calls, the entry carries the one of call `k`, and no other is
accepted at its command index and term. -/
def ComesFrom (ops : List Op) (entry : LogEntry Op) (k : ℕ) : Prop :=
  (∃ op ∈ ops[k]?, op.AcceptedAt entry.commandIndex entry.logTerm ∧
      entry.command.map Op.request = some op.request) ∧
    ∀ k' < ops.length, (∃ op ∈ ops[k']?, op.AcceptedAt entry.commandIndex entry.logTerm) → k' = k

instance (ops : List Op) (entry : LogEntry Op) (k : ℕ) : Decidable (ComesFrom ops entry k) :=
  inferInstanceAs (Decidable ((∃ op ∈ ops[k]?, _) ∧ ∀ k' < ops.length, (∃ op ∈ ops[k']?, _) → _))

namespace Service

variable {n : ℕ}

/-- The operations of all calls. -/
def ops (σ : Service n) : List Op := σ.calls.map Call.op

/-- What Raft promises the service about a step. An operation is committed behind all others,
with a larger command index, and it is the only one that `Start` accepts at its command index
and term. A delivered operation carries its term, or 0. -/
def Assumed (σ : Service n) : Event n → Prop
  | .commit entry => entry.isInternalLog = true ∨
      (∃ k < σ.ops.length, ComesFrom σ.ops entry k) ∧
      ∀ e ∈ σ.log, e.isInternalLog = false → e.commandIndex < entry.commandIndex
  | .call _ (.startAccepted cmdIndex term) =>
      ∀ e ∈ σ.log, e.isInternalLog = false → ¬ (e.commandIndex = cmdIndex ∧ e.logTerm = term)
  | .deliver _ index _ term => term = 0 ∨ ∃ e ∈ σ.log[index]?, term = e.logTerm
  | _ => True

instance (σ : Service n) (ev : Event n) : Decidable (σ.Assumed ev) := by
  unfold Assumed
  split <;> infer_instance

end Service

end KvRaft

end Mit6824
