import Mathlib.Logic.Function.Basic
import Mit6824.Raft.Cluster

set_option autoImplicit false

/-!
# The key/value server

The state of a `KVServer` (`kvraft/server.go`) and its critical sections: the body of
`applyMsgLoop`, the registration, the answer and the cleanup of the two RPC handlers, and the
part of `snapshotLoop` under the lock.

## Main definitions

* `Mit6824.KvRaft.Op`, `Mit6824.KvRaft.OpContext`, `Mit6824.KvRaft.KVServer` — the structs.
* `Mit6824.KvRaft.KVState.applyOp` — what a committed operation does to `kvStore` and `seqMap`.
* `Mit6824.KvRaft.KVServer.applyMsg` — one turn of `applyMsgLoop`.
* `Mit6824.KvRaft.KVServer.register`, `Mit6824.KvRaft.OpContext.getReply`,
  `Mit6824.KvRaft.OpContext.putAppendReply`, `Mit6824.KvRaft.KVServer.cleanup` — the handlers.

## Design

A Go map is the function that looks a key up. A pointer to an `OpContext` is an address, and
`contexts` is the memory behind the addresses, so that an overwritten context lives on. A
closed channel is one with a non-empty list of the log indexes at which it was closed; closing
it again, a panic in the source, makes the list longer.
-/

namespace Mit6824

namespace KvRaft

/-! ## Data -/

/-- `OP_TYPE_GET`, `OP_TYPE_PUT` and `OP_TYPE_APPEND`. -/
inductive OpType
  | get
  | put
  | append
deriving DecidableEq, Repr

/-- An operation in the log. `CmdIndex` and `Term` are zero until `Start` has returned. -/
structure Op where
  key : String
  value : String := ""
  type : OpType
  cmdIndex : ℤ := 0
  term : ℤ := 0
  clientId : ℤ
  seqId : ℤ
deriving DecidableEq, Repr

/-- The operation as its clerk sent it, before `Start`. -/
def Op.request (op : Op) : Op := { op with cmdIndex := 0, term := 0 }

/-- What tells the operations of all clerks apart. -/
def Op.tag (op : Op) : ℤ × ℤ := (op.clientId, op.seqId)

/-- The context of a handler that waits for its operation. -/
structure OpContext where
  op : Op
  commitedChan : List ℕ := []
  wrongLeader : Bool := false
  ignored : Bool := false
  keyExist : Bool := false
  value : String := ""
deriving DecidableEq, Repr

/-- The two maps that the log determines; also what a snapshot holds. -/
structure KVState where
  kvStore : String → Option String
  seqMap : ℤ → Option ℤ

/-- Two freshly made maps. -/
def KVState.empty : KVState := ⟨fun _ => none, fun _ => none⟩

/-- A server. `cmdMap` leads from a command index to the address of a context. -/
structure KVServer extends KVState where
  cmdMap : ℤ → Option ℕ
  contexts : ℕ → Option OpContext
  lastAppliedIndex : ℕ

/-- `StartKVServer`. -/
def startKVServer : KVServer := ⟨.empty, fun _ => none, fun _ => none, 0⟩

/-- `OK`, `ErrNoKey` and `ErrWrongLeader`. -/
inductive Err
  | ok
  | errNoKey
  | errWrongLeader
deriving DecidableEq, Repr

/-- The reply of a handler; the one of `PutAppend` carries no value. -/
structure Reply where
  err : Err
  value : String := ""
deriving DecidableEq, Repr

/-! ## Applying an operation -/

/-- `!existSeq || op.SeqId > prevSeq`: the operation is newer than the client's last one. -/
def KVState.newer (st : KVState) (op : Op) : Bool :=
  match st.seqMap op.clientId with
  | none => true
  | some prevSeq => prevSeq < op.seqId

/-- Put or append to the store; a read leaves it alone. -/
def write (kvStore : String → Option String) (op : Op) : String → Option String :=
  match op.type with
  | .put => Function.update kvStore op.key (some op.value)
  | .append =>
    match kvStore op.key with
    | some val => Function.update kvStore op.key (some (val ++ op.value))
    | none => Function.update kvStore op.key (some op.value)
  | .get => kvStore

/-- A committed operation: a write is made when it is newer than the client's last operation,
and the client's number is replaced in any case. -/
def KVState.applyOp (st : KVState) (op : Op) : KVState where
  kvStore := if st.newer op then write st.kvStore op else st.kvStore
  seqMap := Function.update st.seqMap op.clientId (some op.seqId)

/-- What the loop leaves in the context that waits at the operation's command index; `st` is the
state before the operation. -/
def OpContext.notify (ctx : OpContext) (st : KVState) (op : Op) (logIndex : ℕ) : OpContext :=
  let ctx := if op.term ≠ ctx.op.term then { ctx with wrongLeader := true } else ctx
  let ctx :=
    match op.type with
    | .get =>
      { ctx with
        value := (st.kvStore op.key).getD ""
        keyExist := (st.kvStore op.key).isSome }
    | _ => if st.newer op then ctx else { ctx with ignored := true }
  { ctx with commitedChan := ctx.commitedChan ++ [logIndex] }

/-! ## Snapshots -/

/-- `Decode` of a map into a live map: the encoded entries are added or overwrite, and the other
entries stay. -/
def overlay {K V : Type} (encoded live : K → Option V) : K → Option V :=
  fun k => (encoded k).or (live k)

/-- Decode a snapshot into the live maps. -/
def KVState.decodeInto (encoded live : KVState) : KVState :=
  ⟨overlay encoded.kvStore live.kvStore, overlay encoded.seqMap live.seqMap⟩

/-- What a snapshot message makes of the maps; an empty snapshot clears them. -/
def KVState.install (live : KVState) : Option KVState → KVState
  | none => .empty
  | some encoded => encoded.decodeInto live

namespace KVServer

/-- The part of `snapshotLoop` under the lock: the encoded maps and the index they stand for. -/
def capture (kv : KVServer) : KVState × ℕ := (kv.toKVState, kv.lastAppliedIndex)

/-! ## `applyMsgLoop` -/

/-- Write to the context behind the address, if there is one. -/
def notifyAt (kv : KVServer) (addr : Option ℕ) (op : Op) (logIndex : ℕ) : ℕ → Option OpContext :=
  match addr with
  | none => kv.contexts
  | some a =>
    Function.update kv.contexts a ((kv.contexts a).map (·.notify kv.toKVState op logIndex))

/-- One turn of `applyMsgLoop`. A message that is not ahead of `lastAppliedIndex` is skipped, and
a message without a command makes the conversion to `*Op` panic (`none`). -/
def applyMsg (kv : KVServer) (msg : ApplyMsg Op KVState) : Option KVServer :=
  if msg.commandValid then
    if msg.logIndex ≤ kv.lastAppliedIndex then some kv
    else match msg.command with
      | none => none
      | some op => some { kv with
          toKVState := kv.toKVState.applyOp op
          contexts := kv.notifyAt (kv.cmdMap msg.commandIndex) op msg.logIndex
          lastAppliedIndex := msg.logIndex }
  else if msg.lastIncludedIndex ≤ kv.lastAppliedIndex then some kv
  else some { kv with
    toKVState := kv.toKVState.install msg.snapshot
    lastAppliedIndex := msg.lastIncludedIndex }

/-- The whole loop over a sequence of messages. -/
def applyMsgLoop (kv : KVServer) : List (ApplyMsg Op KVState) → Option KVServer
  | [] => some kv
  | msg :: msgs => (kv.applyMsg msg).bind fun kv => kv.applyMsgLoop msgs

/-! ## The RPC handlers -/

/-- Save the context at address `a` under the command index that `Start` returned. A context
that is already there is overwritten. -/
def register (kv : KVServer) (a : ℕ) (op : Op) : KVServer :=
  { kv with
    contexts := Function.update kv.contexts a (some { op := op })
    cmdMap := Function.update kv.cmdMap op.cmdIndex (some a) }

/-- The deferred cleanup: remove the own context unless another one has replaced it. -/
def cleanup (kv : KVServer) (a : ℕ) (op : Op) : KVServer :=
  if kv.cmdMap op.cmdIndex = some a then
    { kv with cmdMap := Function.update kv.cmdMap op.cmdIndex none }
  else kv

end KVServer

/-- The answer of `Get` once its channel is closed. -/
def OpContext.getReply (ctx : OpContext) : Reply :=
  if ctx.wrongLeader then { err := .errWrongLeader }
  else if ctx.keyExist = false then { err := .errNoKey }
  else { err := .ok, value := ctx.value }

/-- The answer of `PutAppend` once its channel is closed; an ignored write is answered `OK`. -/
def OpContext.putAppendReply (ctx : OpContext) : Reply :=
  if ctx.wrongLeader then { err := .errWrongLeader } else { err := .ok }

/-- The answer of the handler that made the context. -/
def OpContext.reply (ctx : OpContext) : Reply :=
  match ctx.op.type with
  | .get => ctx.getReply
  | _ => ctx.putAppendReply

/-! ## First facts -/

section Lemmas

variable {kv kv' : KVServer} {msg : ApplyMsg Op KVState} {st : KVState} {op : Op}

/-- Copies of one request have one client id and number. -/
lemma Op.tag_eq_of_request_eq {op op' : Op} (h : op.request = op'.request) : op.tag = op'.tag := by
  have htag : op.request.tag = op'.request.tag := by rw [h]
  exact htag

/-- An operation is new if its client has no number yet, or a smaller one. -/
lemma KVState.newer_eq_true_iff :
    st.newer op = true ↔ ∀ prevSeq ∈ st.seqMap op.clientId, prevSeq < op.seqId := by
  unfold KVState.newer
  cases st.seqMap op.clientId <;> simp

section Notify

variable (ctx : OpContext) (kv : KVServer) (st : KVState) (op : Op) (logIndex : ℕ)

/-- A signal leaves the operation of the context. -/
@[simp]
lemma OpContext.op_notify : (ctx.notify st op logIndex).op = ctx.op := by
  unfold OpContext.notify
  dsimp only
  split <;> split_ifs <;> rfl

/-- A signal puts the index it was sent for into the channel. -/
lemma OpContext.commitedChan_notify :
    (ctx.notify st op logIndex).commitedChan = ctx.commitedChan ++ [logIndex] := by
  unfold OpContext.notify
  dsimp only
  split <;> split_ifs <;> rfl

/-- A signal marks a context whose term is not the one of the operation. -/
lemma OpContext.wrongLeader_notify :
    (ctx.notify st op logIndex).wrongLeader = (ctx.wrongLeader || op.term ≠ ctx.op.term) := by
  unfold OpContext.notify
  dsimp only
  split <;> split_ifs <;> simp_all

/-- A signal for a read brings what its key holds. -/
lemma OpContext.notify_of_get (h : op.type = .get) :
    (ctx.notify st op logIndex).keyExist = (st.kvStore op.key).isSome ∧
      (ctx.notify st op logIndex).value = (st.kvStore op.key).getD "" := by
  simp [OpContext.notify, h]

/-- A context after a message is an old one, or the one at the address, notified. -/
lemma KVServer.mem_notifyAt {addr : Option ℕ} {a : ℕ} {ctx' : OpContext}
    (h : ctx' ∈ kv.notifyAt addr op logIndex a) : ∃ ctx ∈ kv.contexts a,
      ctx' = ctx ∨ (a ∈ addr ∧ ctx' = ctx.notify kv.toKVState op logIndex) := by
  unfold KVServer.notifyAt at h
  cases addr with
  | none => exact ⟨ctx', h, .inl rfl⟩
  | some b =>
    simp only [Function.update_apply] at h
    split_ifs at h with hab
    · subst hab
      obtain ⟨ctx, hctx, rfl⟩ := Option.map_eq_some_iff.mp (Option.mem_def.mp h)
      exact ⟨ctx, hctx, .inr ⟨rfl, rfl⟩⟩
    · exact ⟨ctx', h, .inl rfl⟩

/-- No context is lost by a message. -/
lemma KVServer.exists_notifyAt {a : ℕ} {ctx : OpContext} (h : ctx ∈ kv.contexts a)
    (addr : Option ℕ) : ∃ ctx' ∈ kv.notifyAt addr op logIndex a, ctx'.op = ctx.op := by
  unfold KVServer.notifyAt
  cases addr with
  | none => exact ⟨ctx, h, rfl⟩
  | some b =>
    simp only [Function.update_apply]
    split_ifs with hab
    · subst hab
      refine ⟨ctx.notify kv.toKVState op logIndex, ?_, OpContext.op_notify ..⟩
      simp [Option.mem_def.mp h]
    · exact ⟨ctx, h, rfl⟩

end Notify

/-- The index that a server keeps is the one the Raft side assumes of its service. -/
lemma KVServer.lastAppliedIndex_applyMsg (h : kv.applyMsg msg = some kv') :
    kv'.lastAppliedIndex = nextApplied kv.lastAppliedIndex msg := by
  unfold KVServer.applyMsg at h
  unfold nextApplied
  split_ifs at h ⊢ with hv hi hi
  · rw [Option.some.inj h]
  · cases hc : msg.command with
    | none => simp [hc] at h
    | some op =>
      simp only [hc] at h
      rw [← Option.some.inj h]
  · rw [Option.some.inj h]
  · rw [← Option.some.inj h]

end Lemmas

end KvRaft

end Mit6824
