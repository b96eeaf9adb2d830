import Mit6824.Raft.Refine
import Mit6824.Raft.Delivery
import Mit6824.Raft.Encoding
import Mit6824.KvRaft.Service

set_option autoImplicit false

/-!
# The key/value servers over Raft

The service with the Raft cluster itself under it (`kvraft/server.go` over `raft/raft.go`): the
handlers call `Start` of their peer, `applyMsgLoop` reads the channel that the peer sends on, and
`snapshotLoop` hands its snapshots to `TakeSnapshot`. Handlers and clerks are those of `Service`.

## Main definitions

* `Mit6824.KvRaft.System` — the cluster, the key/value servers, the handlers and the clerks.
* `Mit6824.KvRaft.System.service` — the service that a system is, over a given committed log.
* `Mit6824.KvRaft.System.step` — one step of the cluster, of a server, of a handler or of a clerk.
* `Mit6824.KvRaft.System.Fresh` — the conditions under which Raft keeps its promises.
* `Mit6824.KvRaft.System.host` — the system over the memory that requests share with the logs.

## Design

* A command in a Raft log is a pointer to the operation of a call, here the number of the call. The
  two fields that the handler fills in after `Start` may or may not be filled in where the pointer
  is followed, at another server because a copy was sent before. `filled i m` says which, for the
  message number `m` of server `i`, so that all choices are covered by quantifying over `filled`.
* A snapshot in the Raft layer is the number of an encoded state.
* A server that starts again, after a crash or a panic, loses its maps and its handlers.
-/

namespace Mit6824

namespace KvRaft

/-- The key/value servers over a Raft cluster. -/
structure System (n : ℕ) where
  cluster : Cluster n ℕ ℕ
  /-- the states that were encoded as snapshots, by their numbers -/
  encoded : List KVState
  kv : Fin n → KVServer
  requests : List Op
  calls : List (Call n)
  clerks : ℤ → Clerk

/-- A step of the Raft layer by itself, a turn of `applyMsgLoop`, the first half of `snapshotLoop`,
the call of `Start` by handler `k`, and a step of a handler or of a clerk. -/
inductive SystemEvent (n : ℕ)
  | raft (l : Label n ℕ ℕ)
  | apply (i : Fin n)
  | capture (i : Fin n)
  | start (k : ℕ)
  | front (ev : Event n)

/-- The steps of the cluster that the service takes part in. -/
def ofService {n : ℕ} : Label n ℕ ℕ → Bool
  | .act _ (.start _) => true
  | .act _ .deliver => true
  | .act _ (.capture _) => true
  | _ => false

/-- The steps of handlers and clerks that do not call `Start`. -/
def Event.ofFront {n : ℕ} : Event n → Bool
  | .issue _ _ _ _ => true
  | .receive _ _ => true
  | .acknowledge _ _ => true
  | .call _ .startRefused => false
  | .call _ (.startAccepted _ _) => false
  | .call _ _ => true
  | _ => false

/-! ## Following pointers -/

section Pointers

variable {n : ℕ} (calls : List (Call n)) (encoded : List KVState)

/-- The operation behind a pointer, with or without the fields that its handler fills in. -/
def opAt (filled : Bool) (k : ℕ) : Option Op :=
  (calls[k]?).map fun call => if filled then call.op else call.op.request

/-- The state behind a snapshot. -/
def stateOf (snapshot : Option ℕ) : Option KVState := snapshot.bind fun k => encoded[k]?

/-- An entry with its operation as the clerk sent it. -/
def entryOf (e : LogEntry ℕ) : LogEntry Op where
  logTerm := e.logTerm
  logIndex := e.logIndex
  command := if e.isInternalLog then none else e.command.bind (opAt calls false)
  commandIndex := e.commandIndex
  isInternalLog := e.isInternalLog

/-- A message as `applyMsgLoop` reads it. -/
def messageOf (filled : Bool) (m : ApplyMsg ℕ ℕ) : ApplyMsg Op KVState :=
  if m.commandValid then
    { commandValid := true
      command := m.command.bind (opAt calls filled)
      commandIndex := m.commandIndex
      logIndex := m.logIndex }
  else
    { commandValid := false
      snapshot := stateOf encoded m.snapshot
      lastIncludedIndex := m.lastIncludedIndex }

end Pointers

namespace System

variable {n : ℕ}

/-- New servers, no request. -/
def init : System n := ⟨.init, [], fun _ => startKVServer, [], [], fun _ => ⟨0, none⟩⟩

variable (filled : Fin n → ℕ → Bool)

/-- Everything that server `i` has sent on its channel since it started. -/
def channel (s : System n) (i : Fin n) : List (ApplyMsg Op KVState) :=
  ((s.cluster.nodes i).rf.applyChan.zipIdx (s.cluster.nodes i).past.length).map fun p =>
    messageOf s.calls s.encoded (filled i p.2) p.1

/-- Server `i` with what its Raft peer keeps for it. -/
def replica (s : System n) (i : Fin n) (pos : ℕ) : Replica where
  kv := s.kv i
  pos := pos
  applyCh := (s.channel filled i).drop (s.cluster.nodes i).received
  captured := (s.cluster.nodes i).captured.bind fun p =>
    (stateOf s.encoded (some p.1)).map fun st => (st, p.2)
  lastIncludedIndex := (s.cluster.nodes i).rf.lastIncludedIndex
  snapshot := stateOf s.encoded (s.cluster.nodes i).rf.persister.snapshot

/-- The service that the system is, over the committed entries `D`, with these delivery positions
and these snapshots on their way. -/
def service (s : System n) (D : List (LogEntry ℕ)) (pos : Fin n → ℕ)
    (installs : List (ℕ × Option KVState)) : Service n where
  log := Raft.dummyLog 0 0 0 :: D.map (entryOf s.calls)
  replicas i := s.replica filled i (pos i)
  installs := installs
  requests := s.requests
  calls := s.calls
  clerks := s.clerks

/-! ## Steps -/

/-- Handlers and clerks have made a step of the service. -/
def setFront (s : System n) (σ : Service n) : System n :=
  { s with
    kv := fun i => (σ.replicas i).kv
    requests := σ.requests
    calls := σ.calls
    clerks := σ.clerks }

/-- Server `i` has started again. -/
def restarted (s : System n) (i : Fin n) : System n :=
  { s with
    kv := Function.update s.kv i startKVServer
    calls := s.calls.map (Call.crash i) }

/-- The rest of the system after a step of the cluster. -/
def after (s : System n) (l : Label n ℕ ℕ) : System n :=
  match s.cluster.pick l with
  | some (i, inp, _) => if (s.cluster.nodes i).restarts inp then s.restarted i else s
  | none => s

/-- What the handler of `call` does with the result of `Start`. -/
def startResult (call : Call n) : Outcome n ℕ ℕ (Option (ℕ × ℕ)) → Call n
  | .ok _ (some (cmdIndex, term)) => call.start cmdIndex term .started
  | .ok _ none => call.start (-1) (-1) (.replied { err := .errWrongLeader } [])
  | .panic _ _ => call

/-- Put a step of the cluster in place. -/
def setCluster (s : System n) (l : Label n ℕ ℕ) : Option (System n) :=
  (s.cluster.step l).map fun c => { s.after l with cluster := c }

/-- One step of the system, `none` when it cannot happen. -/
def step (s : System n) : SystemEvent n → Option (System n)
  | .raft l => if ofService l then none else s.setCluster l
  | .apply i =>
    match ((s.channel filled i)[(s.cluster.nodes i).received]?).bind (s.kv i).applyMsg with
    | none => none
    | some kv => setCluster { s with kv := Function.update s.kv i kv } (.act i .deliver)
  | .capture i =>
    setCluster { s with encoded := s.encoded ++ [(s.kv i).toKVState] }
      (.act i (.capture s.encoded.length))
  | .start k =>
    match s.calls[k]? with
    | none => none
    | some call =>
      if call.phase = .received then
        let call' := startResult call ((s.cluster.nodes call.server).rf.start k)
        setCluster { s with calls := s.calls.set k call' } (.act call.server (.start k))
      else none
  | .front ev =>
    if ev.ofFront then ((s.service filled [] (fun _ => 0) []).step ev).map s.setFront else none

/-- What Raft needs to keep its promises. -/
def Fresh (s : System n) : SystemEvent n → Prop
  | .raft l => StepMeets (fun nd inp => ElectionFresh nd inp ∧ LogFresh nd inp ∧ SnapFresh nd inp)
      s.cluster l
  | _ => True

instance (s : System n) (ev : SystemEvent n) : Decidable (s.Fresh ev) := by
  unfold Fresh
  split <;> infer_instance

/-! ## The memory behind the logs -/

/-- The step of the cluster in a step of the system. -/
def label (s : System n) : SystemEvent n → Option (Label n ℕ ℕ)
  | .raft l => some l
  | .apply i => some (.act i .deliver)
  | .capture i => some (.act i (.capture s.encoded.length))
  | .start k => (s.calls[k]?).map fun call => .act call.server (.start k)
  | .front _ => none

/-- A step of the cluster is put in place. -/
lemma cluster_of_setCluster {s s' t : System n} {l : Label n ℕ ℕ} (h : t.setCluster l = some s')
    (ht : t.cluster = s.cluster) : s.cluster.step l = some s'.cluster := by
  rw [← ht]
  obtain ⟨c, hc, rfl⟩ := Option.map_eq_some_iff.mp h
  exact hc

/-- The system makes the step of the cluster that its label says. -/
lemma step_cluster {s s' : System n} {ev : SystemEvent n} {l : Label n ℕ ℕ}
    (h : s.step filled ev = some s') (hl : s.label ev = some l) :
    s.cluster.step l = some s'.cluster := by
  cases ev with
  | raft l' =>
    obtain rfl := Option.some.inj hl
    simp only [step] at h
    split_ifs at h
    exact cluster_of_setCluster h rfl
  | apply i =>
    obtain rfl := Option.some.inj hl
    simp only [step] at h
    split at h
    · simp at h
    · exact cluster_of_setCluster h rfl
  | capture i =>
    obtain rfl := Option.some.inj hl
    exact cluster_of_setCluster h rfl
  | start k =>
    obtain ⟨call, hcall, rfl⟩ := Option.map_eq_some_iff.mp hl
    simp only [step, hcall] at h
    split_ifs at h
    exact cluster_of_setCluster h rfl
  | front ev => simp [label] at hl

/-- Handlers and clerks leave the cluster alone. -/
lemma cluster_eq_of_label {s s' : System n} {ev : SystemEvent n} (h : s.step filled ev = some s')
    (hl : s.label ev = none) : s'.cluster = s.cluster := by
  cases ev with
  | start k =>
    have hcall : s.calls[k]? = none := Option.map_eq_none_iff.mp hl
    simp [step, hcall] at h
  | front ev =>
    simp only [step] at h
    split_ifs at h
    obtain ⟨σ, -, rfl⟩ := Option.map_eq_some_iff.mp h
    rfl
  | _ => simp [label] at hl

/-- The system as a host of its cluster. -/
def host : Host n ℕ ℕ (System n) (SystemEvent n) where
  step := step filled
  cluster := cluster
  put s c := { s with cluster := c }
  label := label
  put_cluster _ := rfl
  cluster_put _ _ := rfl
  label_put _ _ ev := by cases ev <;> rfl
  step_label := step_cluster filled
  step_other := cluster_eq_of_label filled

/-- New servers, with some room in the arrays of their logs. -/
def shared (spare : Fin n → ℕ) : Shared n ℕ (System n) := ⟨.init, .init spare⟩

/-- The memory of new servers is in order. -/
lemma undisturbed_shared (spare : Fin n → ℕ) : (host filled).Undisturbed (shared spare) :=
  Memory.Holds.init spare

end System

end KvRaft

end Mit6824
