import Mit6824.Slices.Basic
import Mit6824.Raft.Runs

set_option autoImplicit false

/-!
# Requests share the log until they are encoded

`doAppendEntriesRPC` makes `args.Entries` a slice of `rf.logs` and releases the lock
(`raft/raft.go`). The call encodes the request after that (`labrpc/labrpc.go`, `Call`), while other
sections of the server may cut the log and append to it, in the same array. The receiver gets the
entries as they were when each of them was encoded. Here the arrays behind the logs and the slices
of the requests are part of the state, next to a cluster or a system with a cluster in it.

## Main definitions

* `Mit6824.Memory` — the arrays behind the logs, and the slices of the messages in flight.
* `Mit6824.Host` — a system with a Raft cluster in it.
* `Mit6824.Host.sharedStep` — a step of the system over the shared memory, or the encoding of one
  more entry of a request.
* `Mit6824.Memory.Undisturbed`, `Mit6824.Host.Fresh` — no entry that a request has still to encode
  is overwritten.

## Design

* An entry is encoded at once. The goroutine that makes the call encodes the entries in order, and
  it goes on when the goroutine that waits for the reply has given up.
* `append` writes in place if the array has room. A new array has as much room as the step says.
  `TakeSnapshot`, `InstallSnapshot` and a new process make new arrays; they are the sections that
  change `lastIncludedIndex`, and the restarts.
* A reply goes back to its call, so that it carries the request as it was built. Of its entries the
  leader reads only how many there are and the index of the last one, and a cell of an array keeps
  its index whatever is written to it (`Mit6824.Host.logIndex_kept`).
-/

namespace Mit6824

open Slices

variable {n : ℕ} {Cmd Snap : Type}

/-! ## Memory -/

/-- The slice of a log that the entries of a request are. -/
structure Sharing (n : ℕ) (Cmd : Type) where
  owner : Fin n
  slice : Slice (LogEntry Cmd)

/-- The arrays behind the log of every server, and the slice of every message in flight, `none` if
it is not an `AppendEntries` request. -/
structure Memory (n : ℕ) (Cmd : Type) where
  arrays : Fin n → Arrays (LogEntry Cmd)
  slices : List (Option (Sharing n Cmd))

/-- The log of the server is in a new array after the input. -/
def Node.renews [DecidableEq Cmd] [DecidableEq Snap] (nd : Node n Cmd Snap)
    (inp : Input n Cmd Snap) (nd' : Node n Cmd Snap) : Bool :=
  nd.restarts inp || nd'.rf.lastIncludedIndex != nd.rf.lastIncludedIndex

namespace Memory

/-- New servers; the arrays of their logs have some room. -/
def init (spare : Fin n → ℕ) : Memory n Cmd :=
  ⟨fun i => .start [Raft.dummyLog 0 0 0] (spare i), []⟩

/-- The slice of a message that server `i` has just sent: the entries of a request are the last ones
of its log, which has `len` entries. -/
def share (i : Fin n) (as : Arrays (LogEntry Cmd)) (len : ℕ) :
    Msg n Cmd Snap → Option (Sharing n Cmd)
  | .appendEntries _ args =>
    some ⟨i, as.slice (len - args.entries.length) args.entries.length⟩
  | _ => none

/-- The memory after a step of the cluster from `c` to `d`; `spare` is the room in a new array. -/
def after [DecidableEq Cmd] [DecidableEq Snap] (mem : Memory n Cmd) (c : Cluster n Cmd Snap)
    (l : Label n Cmd Snap) (d : Cluster n Cmd Snap) (spare : ℕ) : Memory n Cmd :=
  match c.pick l with
  | none => { mem with slices := l.remove mem.slices }
  | some (i, inp, _) =>
    let logs := (d.nodes i).rf.logs
    let as := if (c.nodes i).renews inp (d.nodes i) then (mem.arrays i).move logs spare
      else (mem.arrays i).store logs spare
    ⟨Function.update mem.arrays i as, l.remove mem.slices ++
      (d.net.drop (l.remove c.net).length).map (share i as logs.length)⟩

/-- The goroutine that makes call `k` encodes the next entry of the request. -/
def encode (mem : Memory n Cmd) (k : ℕ) : Option (Memory n Cmd) :=
  match mem.slices[k]? with
  | some (some sh) => (sh.slice.next (mem.arrays sh.owner)).map fun sl =>
      { mem with slices := mem.slices.set k (some ⟨sh.owner, sl⟩) }
  | _ => none

/-- A request is delivered when it is encoded. -/
def Ready (mem : Memory n Cmd) : Label n Cmd Snap → Prop
  | .recv k _ => ∀ sh ∈ (mem.slices[k]?).join, sh.slice.Done
  | _ => True

instance (mem : Memory n Cmd) (l : Label n Cmd Snap) : Decidable (mem.Ready l) := by
  unfold Ready
  split <;> infer_instance

/-- No entry that a request has still to encode is overwritten by another one. -/
def Undisturbed (mem mem' : Memory n Cmd) : Prop :=
  ∀ o ∈ mem.slices, ∀ sh ∈ o,
    sh.slice.unread (mem'.arrays sh.owner) = sh.slice.unread (mem.arrays sh.owner)

instance [DecidableEq Cmd] (mem mem' : Memory n Cmd) : Decidable (mem.Undisturbed mem') :=
  inferInstanceAs (Decidable (∀ o ∈ mem.slices, ∀ sh ∈ o, _))

end Memory

/-! ## Encoded requests -/

/-- A message as its receiver decodes it. -/
def Msg.decoded : Msg n Cmd Snap → Option (Sharing n Cmd) → Msg n Cmd Snap
  | .appendEntries dst args, some sh => .appendEntries dst { args with entries := sh.slice.read }
  | m, _ => m

/-- A message that is sent in answer to another one: a reply goes to the call as it was built. -/
def Msg.answering : Option (Msg n Cmd Snap) → Msg n Cmd Snap → Msg n Cmd Snap
  | some (.appendEntries _ args), .appendEntriesReply src _ reply =>
    .appendEntriesReply src args reply
  | _, m => m

namespace Cluster

/-- The cluster as a step finds it: a message that is delivered is the one that was encoded. -/
def decode (c : Cluster n Cmd Snap) (mem : Memory n Cmd) : Label n Cmd Snap → Cluster n Cmd Snap
  | .recv k _ => { c with net := c.net.modify k fun m => m.decoded (mem.slices[k]?).join }
  | _ => c

/-- The cluster `d` after a step from `c`, with the new reply addressed to its call. -/
def answer (c : Cluster n Cmd Snap) (l : Label n Cmd Snap) (d : Cluster n Cmd Snap) :
    Cluster n Cmd Snap :=
  match l with
  | .recv k _ => { d with
      net := d.net.take (c.net.length - 1) ++
        (d.net.drop (c.net.length - 1)).map (Msg.answering c.net[k]?) }
  | _ => d

end Cluster

/-! ## Systems with a cluster in them -/

/-- A system with a Raft cluster in it: its steps are steps of the cluster, or leave it alone. -/
structure Host (n : ℕ) (Cmd Snap S E : Type) [DecidableEq Cmd] [DecidableEq Snap] where
  step : S → E → Option S
  cluster : S → Cluster n Cmd Snap
  put : S → Cluster n Cmd Snap → S
  /-- the step of the cluster in a step of the system -/
  label : S → E → Option (Label n Cmd Snap)
  put_cluster : ∀ s, put s (cluster s) = s
  cluster_put : ∀ s c, cluster (put s c) = c
  label_put : ∀ s c e, label (put s c) e = label s e
  step_label : ∀ {s e s' l}, step s e = some s' → label s e = some l →
    (cluster s).step l = some (cluster s')
  step_other : ∀ {s e s'}, step s e = some s' → label s e = none → cluster s' = cluster s

/-- A system with the memory behind its logs. -/
structure Shared (n : ℕ) (Cmd S : Type) where
  state : S
  memory : Memory n Cmd

/-- A step of the system, with the room in a new array, or the encoding of an entry of message
`k`. -/
inductive SharedEvent (E : Type)
  | run (ev : E) (spare : ℕ)
  | encode (k : ℕ)

namespace Host

variable {S E : Type} [DecidableEq Cmd] [DecidableEq Snap] (H : Host n Cmd Snap S E)

/-- The system as a step finds it. -/
def seen (x : Shared n Cmd S) (ev : E) : S :=
  match H.label x.state ev with
  | some l => H.put x.state ((H.cluster x.state).decode x.memory l)
  | none => x.state

/-- The system and its memory after a step to `s`. -/
def settle (x : Shared n Cmd S) (ev : E) (spare : ℕ) (s : S) : Shared n Cmd S :=
  match H.label x.state ev with
  | some l =>
    let d := (H.cluster x.state).answer l (H.cluster s)
    ⟨H.put s d, x.memory.after (H.cluster (H.seen x ev)) l d spare⟩
  | none => { x with state := s }

/-- One step over the shared memory, `none` when it cannot happen. -/
def sharedStep (x : Shared n Cmd S) : SharedEvent E → Option (Shared n Cmd S)
  | .run ev spare =>
    if ∀ l ∈ H.label x.state ev, x.memory.Ready l then
      (H.step (H.seen x ev) ev).map (H.settle x ev spare)
    else none
  | .encode k => (x.memory.encode k).map fun mem => { x with memory := mem }

/-- The step meets a condition on the system as the step finds it. -/
def Meets (P : S → E → Prop) (x : Shared n Cmd S) : SharedEvent E → Prop
  | .run ev _ => P (H.seen x ev) ev
  | .encode _ => True

/-- The step meets the condition, and overwrites no entry that is still to be encoded. -/
def Fresh (P : S → E → Prop) (x : Shared n Cmd S) (ev : SharedEvent E) : Prop :=
  H.Meets P x ev ∧ ∀ y ∈ H.sharedStep x ev, x.memory.Undisturbed y.memory

section Decidable

variable (P : S → E → Prop) [∀ s ev, Decidable (P s ev)] (x : Shared n Cmd S)
  (ev : SharedEvent E)

instance : Decidable (H.Meets P x ev) := by
  unfold Meets
  split <;> infer_instance

instance : Decidable (H.Fresh P x ev) :=
  inferInstanceAs (Decidable (_ ∧ ∀ y ∈ H.sharedStep x ev, _))

end Decidable

end Host

end Mit6824
