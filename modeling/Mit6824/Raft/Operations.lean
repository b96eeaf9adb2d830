import Mit6824.Raft.Shape

set_option autoImplicit false

/-!
# The operations of one server

Everything that changes the state of a Raft peer, as one type of operations with arbitrary
arguments: the role changes, the critical sections of the handlers and of the calls, the two
entry points of the service, and a crash followed by `Make`. A statement about all sequences of
operations covers every environment of a server; in particular the states of the servers of a
cluster are reached by such sequences.

## Main definitions

* `Mit6824.Operation`, `Mit6824.Answer` — an operation and what it returns.
* `Mit6824.Raft.requestVote` — both sections of `RequestVote` with nothing in between.
* `Mit6824.Raft.perform`, `Mit6824.Raft.performAll` — one operation, and a sequence of them with
  their answers.
* `Mit6824.Raft.after` — the state after a sequence, whatever its operations return.
* `Mit6824.Raft.Throughout` — a condition on every operation of a sequence.

## Main results

* `Mit6824.exists_operations_of_run` — the servers of a cluster perform operations.
-/

namespace Mit6824

variable {n : ℕ} {Cmd Snap : Type}

/-- An operation on a server. -/
inductive Operation (n : ℕ) (Cmd Snap : Type)
  | becomeFollower (newTerm : ℕ)
  | becomeLeader
  | requestVoteCheck (args : RequestVoteArgs n)
  | requestVoteGrant (args : RequestVoteArgs n)
  | requestVote (args : RequestVoteArgs n)
  | appendEntries (args : AppendEntriesArgs n Cmd)
  | startElection
  | start (command : Cmd)
  | installSnapshot (args : InstallSnapshotArgs n Snap)
  | takeSnapshot (snapshot : Option Snap) (lastIncludedIndex : ℕ)
  | appendReply (peer : Fin n) (args : AppendEntriesArgs n Cmd) (reply : AppendEntriesReply)
  | installReply (peer : Fin n) (args : InstallSnapshotArgs n Snap) (reply : InstallSnapshotReply)
  | crash

/-- What an operation returns. -/
inductive Answer (n : ℕ)
  | done
  | checked (chk : VoteCheck)
  | granted (vote : Bool)
  | voted (reply : RequestVoteReply)
  | appended (reply : AppendEntriesReply)
  | standing (args : Option (RequestVoteArgs n))
  | started (result : Option (ℕ × ℕ))
  | installed (reply : InstallSnapshotReply)
deriving DecidableEq, Repr

/-- Change the result of a section. -/
def Outcome.map {α β : Type} (f : α → β) : Outcome n Cmd Snap α → Outcome n Cmd Snap β
  | .ok rf a => .ok rf (f a)
  | .panic p rf => .panic p rf

/-- A function of the result leaves the state. -/
@[simp] lemma Outcome.state_map {α β : Type} (f : α → β) (o : Outcome n Cmd Snap α) :
    (o.map f).state = o.state := by
  cases o <;> rfl

/-- The result of a section, or its panic. -/
def Outcome.result {α : Type} : Outcome n Cmd Snap α → Except Panic α
  | .ok _ a => .ok a
  | .panic p _ => .error p

namespace Raft

/-- `RequestVote` when nothing happens between its two sections. -/
def requestVote (rf : Raft n Cmd Snap) (args : RequestVoteArgs n) :
    Outcome n Cmd Snap RequestVoteReply :=
  match rf.requestVoteCheck args with
  | .panic p rf => .panic p rf
  | .ok rf chk =>
    if chk.refuses args = false ∧ chk.curRole = .follower then
      let (rf, granted) := rf.requestVoteGrant args
      .ok rf ⟨chk.curTerm, granted⟩
    else .ok rf ⟨chk.curTerm, false⟩

/-- One operation. -/
def perform (rf : Raft n Cmd Snap) : Operation n Cmd Snap → Outcome n Cmd Snap (Answer n)
  | .becomeFollower newTerm => .ok (rf.becomeFollower newTerm) .done
  | .becomeLeader => rf.becomeLeader.map fun _ => .done
  | .requestVoteCheck args => (rf.requestVoteCheck args).map .checked
  | .requestVoteGrant args =>
    .ok (rf.requestVoteGrant args).1 (.granted (rf.requestVoteGrant args).2)
  | .requestVote args => (rf.requestVote args).map .voted
  | .appendEntries args => (rf.appendEntries args).map .appended
  | .startElection => rf.startElection.map .standing
  | .start command => (rf.start command).map .started
  | .installSnapshot args => (rf.installSnapshot args).map .installed
  | .takeSnapshot snapshot index => (rf.takeSnapshot snapshot index).map fun _ => .done
  | .appendReply peer args reply => (rf.appendReply peer args reply).map fun _ => .done
  | .installReply peer args reply => (rf.installReply peer args reply).map fun _ => .done
  | .crash => .ok (make rf.me rf.persister) .done

/-- A sequence of operations with their answers; a panic ends it. -/
def performAll (rf : Raft n Cmd Snap) :
    List (Operation n Cmd Snap) → Outcome n Cmd Snap (List (Answer n))
  | [] => .ok rf []
  | op :: ops =>
    match rf.perform op with
    | .panic p rf => .panic p rf
    | .ok rf a => (performAll rf ops).map (a :: ·)

/-- The state after a sequence of operations. An operation that panics leaves the state it had
reached. -/
def after (rf : Raft n Cmd Snap) (ops : List (Operation n Cmd Snap)) : Raft n Cmd Snap :=
  ops.foldl (fun rf op => (rf.perform op).state) rf

/-- The last operation is performed last. -/
lemma after_concat (rf : Raft n Cmd Snap) (ops : List (Operation n Cmd Snap))
    (op : Operation n Cmd Snap) : rf.after (ops ++ [op]) = ((rf.after ops).perform op).state := by
  simp [after]

/-- What every operation keeps holds after every sequence of them. -/
lemma after_induct {I : Raft n Cmd Snap → Prop} {rf : Raft n Cmd Snap} (start : I rf)
    (step : ∀ rf op, I rf → I (perform rf op).state) (ops : List (Operation n Cmd Snap)) :
    I (rf.after ops) := by
  induction ops using List.reverseRecOn with
  | nil => exact start
  | append_singleton ops op ih =>
    rw [after_concat]
    exact step _ op ih

/-- Every operation of a sequence meets `C` in the state in which it is performed. -/
def Throughout (C : Raft n Cmd Snap → Operation n Cmd Snap → Prop) :
    Raft n Cmd Snap → List (Operation n Cmd Snap) → Prop
  | _, [] => True
  | rf, op :: ops => C rf op ∧ Throughout C (rf.perform op).state ops

/-- What every operation that meets `C` keeps holds after every sequence of such operations. -/
lemma Throughout.keeps {C : Raft n Cmd Snap → Operation n Cmd Snap → Prop}
    {I : Raft n Cmd Snap → Prop} (step : ∀ rf op, I rf → C rf op → I (perform rf op).state) :
    ∀ (ops : List (Operation n Cmd Snap)) (rf : Raft n Cmd Snap), Throughout C rf ops → I rf →
      I (rf.after ops)
  | [], _, _, hI => hI
  | op :: ops, rf, ⟨hop, hops⟩, hI =>
    Throughout.keeps step ops (rf.perform op).state hops (step rf op hI hop)

/-- The whole handler of `RequestVote` is its first section, or its first and its second one. -/
lemma state_requestVote (rf : Raft n Cmd Snap) (args : RequestVoteArgs n) :
    (rf.requestVote args).state = (rf.requestVoteCheck args).state ∨
    (rf.requestVote args).state = ((rf.requestVoteCheck args).state.requestVoteGrant args).1 := by
  unfold requestVote
  cases rf.requestVoteCheck args with
  | panic p rf' => exact Or.inl rfl
  | ok rf' chk =>
    dsimp only
    split_ifs
    · exact Or.inr rfl
    · exact Or.inl rfl

end Raft

/-! ## The servers of a cluster -/

/-- The critical section of an input is an operation, or there is none. -/
lemma Section.exists_operation {nd : Node n Cmd Snap} {inp : Input n Cmd Snap}
    {rf : Raft n Cmd Snap} (h : Section nd inp rf) :
    rf = nd.rf ∨ ∃ op, rf = (nd.rf.perform op).state := by
  cases h with
  | none => exact Or.inl rfl
  | startElection => exact Or.inr ⟨.startElection, by simp [Raft.perform]⟩
  | stepDown k t => exact Or.inr ⟨.becomeFollower t, rfl⟩
  | grantVote h args => exact Or.inr ⟨.requestVoteGrant args, rfl⟩
  | start command => exact Or.inr ⟨.start command, by simp [Raft.perform]⟩
  | takeSnapshot snapshot k =>
    exact Or.inr ⟨.takeSnapshot (some snapshot) k, by simp [Raft.perform]⟩
  | requestVote dst args => exact Or.inr ⟨.requestVoteCheck args, by simp [Raft.perform]⟩
  | becomeLeader => exact Or.inr ⟨.becomeLeader, by simp [Raft.perform]⟩
  | appendEntries dst args => exact Or.inr ⟨.appendEntries args, by simp [Raft.perform]⟩
  | appendReply src args reply =>
    exact Or.inr ⟨.appendReply src args reply, by simp [Raft.perform]⟩
  | installSnapshot dst args => exact Or.inr ⟨.installSnapshot args, by simp [Raft.perform]⟩
  | installReply src args reply =>
    exact Or.inr ⟨.installReply src args reply, by simp [Raft.perform]⟩

section Runs

variable [DecidableEq Cmd] [DecidableEq Snap] {c : Cluster n Cmd Snap}

/-- One input is a sequence of at most two operations: a section and possibly a restart. -/
lemma Node.exists_operations {nd : Node n Cmd Snap} {inp : Input n Cmd Snap}
    {o : NodeOutcome n Cmd Snap} (ho : nd.exec inp = some o) :
    ∃ ops, (Node.finish o).node.rf = nd.rf.after ops := by
  obtain ⟨rf, hsec, hend⟩ := (Node.exec_handled ho).raft
  obtain ⟨ops, rfl⟩ : ∃ ops, rf = nd.rf.after ops := by
    rcases hsec.exists_operation with rfl | ⟨op, rfl⟩
    · exact ⟨[], rfl⟩
    · exact ⟨[op], rfl⟩
  rcases hend with he | he
  · exact ⟨ops, he⟩
  · exact ⟨ops ++ [.crash], by rw [he, Raft.after_concat]; rfl⟩

/-- **The servers of a cluster perform operations**: every state of a server in a run is reached
from its first start by a sequence of operations.

**Proof sketch.** Induction on the run; the server that steps performs the operations of its input
(`Node.exists_operations`). -/
theorem exists_operations_of_run {P : Node n Cmd Snap → Input n Cmd Snap → Prop}
    (h : Run P Cluster.init c) (i : Fin n) :
    ∃ ops, (c.nodes i).rf = (Raft.make i {}).after ops := by
  refine Run.induct (I := fun c => ∀ i, ∃ ops, (c.nodes i).rf = (Raft.make i {}).after ops) h
    (fun i => ⟨[], rfl⟩) ?_ ?_ i
  · intro c d hc hn _ i
    rw [hn]
    exact hc i
  · intro c i inp o hc _ _ ho
    refine Cluster.forall_nodes_after
      (P := fun k nd => ∃ ops, nd.rf = (Raft.make k {}).after ops) ?_ fun k _ => hc k
    obtain ⟨ops, hrf⟩ := hc i
    obtain ⟨ops', hrf'⟩ := Node.exists_operations ho
    refine ⟨ops ++ ops', ?_⟩
    rw [hrf', hrf, Raft.after, Raft.after, Raft.after, List.foldl_append]

end Runs

end Mit6824
