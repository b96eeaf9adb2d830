import Mit6824.KvRaft.Ledger

set_option autoImplicit false

/-!
# What an answered handler may rely on

A handler finds out about its operation through a context that is matched to a committed entry
by the command index and by a term, which the handler fills in after `Start` has published the
operation. This module shows that the match is never wrong: a context is signalled at most once,
an answered write has been applied, and an answered read is a read at its own place in the log.

## Main definitions

* `Mit6824.KvRaft.OpContext.Sound`, `Mit6824.KvRaft.ReplySound` — what contexts and answers say.
* `Mit6824.KvRaft.Service.Waiters` — the invariant of the servers and the handlers.

## Main results

* `Mit6824.KvRaft.OpContext.Sound.notify` — a context is matched to the right entry.
* `Mit6824.KvRaft.replies_sound` — the promises to the handlers, in every state of every run.
-/

namespace Mit6824

namespace KvRaft

open LogMachine

variable {log log' : List (LogEntry Op)}

/-! ## Contexts and answers -/

/-- `Start` has returned to the call: the server was killed, or it accepted the operation. -/
def Started (op : Op) : Prop := op.cmdIndex = -1 ∨ 0 < op.term

/-- What an answer says: unless it is `ErrWrongLeader`, the channel was closed once, at the index
of the call's own operation; a read was answered with what its key held just before, and a write
with `OK`. -/
def ReplySound (log : List (LogEntry Op)) (op : Op) (reply : Reply) (signals : List ℕ) : Prop :=
  reply.err ≠ .errWrongLeader → ∃ p, signals = [p] ∧ Own log op p ∧
    (op.type = .get →
      (reply.err = .ok ∧ (stateAt log (p - 1)).kvStore op.key = some reply.value) ∨
        (reply.err = .errNoKey ∧ (stateAt log (p - 1)).kvStore op.key = none))

/-- What a context says: its channel is open, or it was closed once, by an entry at the command
index it waits for; if the term matched, this entry is the call's own operation, and the context
of a read holds what its key held just before. -/
def OpContext.Sound (ctx : OpContext) (log : List (LogEntry Op)) (applied : ℕ) : Prop :=
  (ctx.commitedChan = [] ∧ ctx.wrongLeader = false) ∨
    ∃ p ≤ applied, ctx.commitedChan = [p] ∧
      (∃ entry op, Visible log p entry op ∧ (entry.commandIndex : ℤ) = ctx.op.cmdIndex) ∧
      (ctx.wrongLeader = false → Own log ctx.op p ∧ (ctx.op.type = .get →
        ctx.keyExist = ((stateAt log (p - 1)).kvStore ctx.op.key).isSome ∧
          ctx.value = ((stateAt log (p - 1)).kvStore ctx.op.key).getD ""))

/-- A reply that is sound for a log is sound for a longer one. -/
lemma ReplySound.extend {op : Op} {reply : Reply} {signals : List ℕ}
    (h : ReplySound log op reply signals) (hlog : log <+: log') :
    ReplySound log' op reply signals := by
  intro hreply
  obtain ⟨p, hp, hown, hread⟩ := h hreply
  refine ⟨p, hp, hown.extend hlog, ?_⟩
  rwa [stateAt_pred_extend hown.lt hlog]

namespace OpContext.Sound

variable {ctx : OpContext} {applied : ℕ}

/-- A context stays sound for a longer log. -/
lemma extend (h : ctx.Sound log applied) (hlog : log <+: log') : ctx.Sound log' applied := by
  rcases h with hopen | ⟨p, hp, hchan, ⟨entry, op, hvis, hidx⟩, hown⟩
  · exact .inl hopen
  · refine .inr ⟨p, hp, hchan, ⟨entry, op, hvis.extend hlog, hidx⟩, fun hright => ?_⟩
    have hlt := (List.getElem?_eq_some_iff.mp hvis.get).1
    rw [stateAt_pred_extend hlt hlog]
    exact (hown hright).imp_left fun hown => hown.extend hlog

/-- A context stays sound when more is applied. -/
lemma mono {applied' : ℕ} (h : ctx.Sound log applied) (hle : applied ≤ applied') :
    ctx.Sound log applied' := by
  rcases h with hopen | ⟨p, hp, hrest⟩
  · exact .inl hopen
  · exact .inr ⟨p, hp.trans hle, hrest⟩

/-- The answer a handler finds in its context.

**Proof sketch.** A closed context was signalled once, at an entry. If the reply is not
`ErrWrongLeader`, the terms matched, so the entry is the call's own, and a read finds in the context
what its key held before the entry. -/
lemma reply (h : ctx.Sound log applied) (hclosed : ctx.commitedChan ≠ []) :
    ReplySound log ctx.op ctx.reply ctx.commitedChan := by
  rcases h with ⟨hopen, -⟩ | ⟨p, -, hchan, -, hown⟩
  · exact absurd hopen hclosed
  · intro hreply
    have hright : ctx.wrongLeader = false := by
      by_contra hwrong
      simp only [Bool.not_eq_false] at hwrong
      refine hreply ?_
      unfold OpContext.reply OpContext.getReply OpContext.putAppendReply
      split <;> simp [hwrong]
    obtain ⟨hown, hread⟩ := hown hright
    refine ⟨p, hchan, hown, fun hget => ?_⟩
    obtain ⟨hexist, hvalue⟩ := hread hget
    cases hval : (stateAt log (p - 1)).kvStore ctx.op.key with
    | none =>
      right
      simp [OpContext.reply, hget, OpContext.getReply, hright, hexist, hval]
    | some v =>
      left
      simp [OpContext.reply, hget, OpContext.getReply, hright, hexist, hvalue, hval]

/-- **A signal.** An open context that waits at the command index of a committed entry is closed
soundly by it.

**Proof sketch.** If the terms agree, the delivered term is not 0, since the call was accepted in
a positive term; so it is the term of the entry. The call was then accepted at the command index
and in the term of the entry, and the entry comes from the only such call. -/
lemma notify {ops : List Op} {a k p : ℕ} {entry : LogEntry Op} {op : Op} {cmdIndex term : ℤ}
    (hopen : ctx.commitedChan = [] ∧ ctx.wrongLeader = false) (hstart : Started ctx.op)
    (hcall : ops[a]? = some ctx.op) (hvis : Visible log p entry op) (hfrom : ComesFrom ops entry k)
    (hidx : (entry.commandIndex : ℤ) = ctx.op.cmdIndex) (hterm : term = 0 ∨ term = entry.logTerm) :
    (ctx.notify (stateAt log (p - 1)) { op with cmdIndex := cmdIndex, term := term } p).Sound
      log p := by
  have hchan : (ctx.notify (stateAt log (p - 1)) { op with cmdIndex := cmdIndex, term := term }
      p).commitedChan = [p] := by
    rw [OpContext.commitedChan_notify, hopen.1, List.nil_append]
  refine .inr ⟨p, le_rfl, hchan, ⟨entry, op, hvis, by simpa using hidx⟩, ?_⟩
  intro hright
  rw [OpContext.wrongLeader_notify, hopen.2] at hright
  have hsame : term = ctx.op.term := by simpa using hright
  have hacc : ctx.op.AcceptedAt entry.commandIndex entry.logTerm := by
    unfold Started at hstart
    refine ⟨hidx.symm, ?_, ?_⟩ <;> omega
  have hown : op.request = ctx.op.request := by
    obtain ⟨⟨op', hop', -, hreq⟩, honly⟩ := hfrom
    obtain rfl : a = k :=
      honly a (List.getElem?_eq_some_iff.mp hcall).1 ⟨ctx.op, hcall, hacc⟩
    obtain rfl : ctx.op = op' := Option.some.inj (hcall.symm.trans hop')
    simpa [hvis.command] using hreq
  rw [OpContext.op_notify]
  refine ⟨⟨entry, op, hvis, hown, hacc⟩, fun hget => ?_⟩
  obtain ⟨hkey, htype⟩ : op.key = ctx.op.key ∧ op.type = ctx.op.type := by
    simp only [Op.request, Op.mk.injEq] at hown
    exact ⟨hown.1, hown.2.2.1⟩
  rw [← hkey]
  exact OpContext.notify_of_get ctx _ _ p (htype.trans hget)

end OpContext.Sound

/-! ## Servers and their handlers -/

variable {n : ℕ} {calls calls' : List (Call n)}

/-- What a call says in each phase. -/
def Call.Sound (call : Call n) (log : List (LogEntry Op)) : Prop :=
  match call.phase with
  | .received => call.op.request = call.op
  | .started => Started call.op
  | .answered reply signals => ReplySound log call.op reply signals
  | .replied reply signals => ReplySound log call.op reply signals
  | _ => True

/-- The call at this address has been to `Start` with this operation. -/
def Asked (calls : List (Call n)) (a : ℕ) (op : Op) : Prop :=
  ∃ call, calls[a]? = some call ∧ call.phase ≠ .received ∧ call.op = op

/-- The call at an address has one operation. -/
lemma Asked.eq {a : ℕ} {op op' : Op} (h : Asked calls a op) (h' : Asked calls a op') :
    op = op' := by
  obtain ⟨call, hcall, -, rfl⟩ := h
  obtain ⟨call', hcall', -, rfl⟩ := h'
  rw [Option.some.inj (hcall.symm.trans hcall')]

/-- A call that has been to `Start` is among the operations of all calls. -/
lemma Asked.getElem?_map {a : ℕ} {op : Op} (h : Asked calls a op) :
    (calls.map Call.op)[a]? = some op := by
  obtain ⟨call, hcall, -, rfl⟩ := h
  rw [List.getElem?_map, hcall, Option.map_some]

/-- The invariant of a server that handlers wait on: every context belongs to a call and is
sound, `cmdMap` leads to contexts that wait at its keys, and a delivered term is 0 or the term of
its entry. -/
structure Replica.Waits (r : Replica) (log : List (LogEntry Op)) (calls : List (Call n)) :
    Prop where
  contexts : ∀ a, ∀ ctx ∈ r.kv.contexts a,
    Asked calls a ctx.op ∧ Started ctx.op ∧ ctx.Sound log r.kv.lastAppliedIndex
  cmdMap : ∀ cmdIndex, ∀ a ∈ r.kv.cmdMap cmdIndex,
    ∃ ctx ∈ r.kv.contexts a, ctx.op.cmdIndex = cmdIndex
  terms : ∀ msg ∈ r.applyCh, ∀ op ∈ msg.command,
    op.term = 0 ∨ ∃ e ∈ log[msg.logIndex]?, op.term = e.logTerm

/-- What a call says stays true of a longer log. -/
lemma Call.Sound.extend {call : Call n} (h : call.Sound log) (hlog : log <+: log') :
    call.Sound log' := by
  unfold Call.Sound at h ⊢
  cases hphase : call.phase with
  | answered reply signals =>
    simp only [hphase] at h ⊢
    exact h.extend hlog
  | replied reply signals =>
    simp only [hphase] at h ⊢
    exact h.extend hlog
  | received | started => simpa only [hphase] using h
  | waiting | lost => trivial

namespace Replica.Waits

variable {r r' : Replica}

/-- The contexts of a server stay in order for a longer log. -/
lemma extend (h : r.Waits log calls) (hlog : log <+: log') : r.Waits log' calls where
  contexts a ctx hctx := by
    obtain ⟨hasked, hstart, hsound⟩ := h.contexts a ctx hctx
    exact ⟨hasked, hstart, hsound.extend hlog⟩
  cmdMap := h.cmdMap
  terms msg hmsg op hop := by
    refine (h.terms msg hmsg op hop).imp_right ?_
    rintro ⟨e, he, hterm⟩
    refine ⟨e, ?_, hterm⟩
    have hlt := (List.getElem?_eq_some_iff.mp (Option.mem_def.mp he)).1
    rwa [getElem?_extend hlog hlt]

/-- The calls go on; none that has been to `Start` goes back. -/
lemma setCalls (h : r.Waits log calls) (hcalls : ∀ a op, Asked calls a op → Asked calls' a op) :
    r.Waits log calls' where
  contexts a ctx hctx := (h.contexts a ctx hctx).imp_left (hcalls a ctx.op)
  cmdMap := h.cmdMap
  terms := h.terms

/-- Only the key/value part and the messages matter. -/
lemma congr (h : r.Waits log calls) (hkv : r'.kv = r.kv)
    (hch : ∀ msg ∈ r'.applyCh, msg ∈ r.applyCh ∨ ∀ op ∈ msg.command,
      op.term = 0 ∨ ∃ e ∈ log[msg.logIndex]?, op.term = e.logTerm) : r'.Waits log calls where
  contexts := hkv ▸ h.contexts
  cmdMap := hkv ▸ h.cmdMap
  terms msg hmsg := (hch msg hmsg).elim (h.terms msg) id

/-- A delivered entry has its term or 0, so that the contexts stay in order. -/
lemma deliver {index : ℕ} {cmdIndex term : ℤ} (h : r.Waits log calls)
    (hterm : term = 0 ∨ ∃ e ∈ log[index]?, term = e.logTerm)
    (hd : r.deliver log index cmdIndex term = some r') : r'.Waits log calls := by
  unfold Replica.deliver at hd
  split at hd
  · simp at hd
  · rename_i entry hentry
    split_ifs at hd
    obtain rfl := Option.some.inj hd
    refine h.congr rfl fun msg hmsg => ?_
    rcases List.mem_append.mp hmsg with hmsg | hmsg
    · exact .inl hmsg
    · obtain rfl : msg = entryMsg entry index cmdIndex term := by simpa using hmsg
      right
      intro op hop
      obtain ⟨op₀, -, rfl⟩ := Option.map_eq_some_iff.mp (Option.mem_def.mp hop)
      exact hterm

/-- Taking a snapshot touches no context. -/
lemma takeSnapshot (h : r.Waits log calls) (ht : r.takeSnapshot = some r') :
    r'.Waits log calls := by
  unfold Replica.takeSnapshot at ht
  split at ht
  · simp at ht
  · split_ifs at ht <;>
    · obtain rfl := Option.some.inj ht
      exact h.congr rfl fun _ => .inl

/-- A delivered snapshot touches no context. -/
lemma installSnapshot {index : ℕ} {snapshot : Option KVState} (h : r.Waits log calls) :
    (r.installSnapshot index snapshot).Waits log calls := by
  unfold Replica.installSnapshot
  split_ifs
  · exact h
  · refine h.congr rfl fun msg hmsg => ?_
    rcases List.mem_append.mp hmsg with hmsg | hmsg
    · exact .inl hmsg
    · obtain rfl : msg = snapshotMsg index snapshot := by simpa using hmsg
      right
      simp [snapshotMsg]

/-- A server that has just started: no context, and one message without a command. -/
lemma fresh {index : ℕ} {snapshot : Option KVState} (hkv : r.kv = startKVServer)
    (hch : r.applyCh = [snapshotMsg index snapshot]) : r.Waits log calls where
  contexts := by simp [hkv, startKVServer]
  cmdMap := by simp [hkv, startKVServer]
  terms := by simp [hch, snapshotMsg]

/-- A new context belongs to the call that registers it.

**Proof sketch.** The new context is the only one at its address, and `cmdMap` leads to it at its
own command index. From another index it cannot be reached, because the context at that index
belongs to a call with that index. -/
lemma register {k : ℕ} {op : Op} (h : r.Waits log calls) (hasked : Asked calls' k op)
    (hcalls : ∀ a op, Asked calls a op → Asked calls' a op) (hstart : Started op) :
    Replica.Waits { r with kv := r.kv.register k op } log calls' := by
  have hnew : ∀ a, ∀ ctx ∈ (r.kv.register k op).contexts a,
      (a = k ∧ ctx = { op := op }) ∨ (a ≠ k ∧ ctx ∈ r.kv.contexts a) := by
    intro a ctx hctx
    simp only [KVServer.register, Function.update_apply] at hctx
    split_ifs at hctx with ha
    · exact .inl ⟨ha, (Option.some.inj hctx).symm⟩
    · exact .inr ⟨ha, hctx⟩
  refine ⟨?_, ?_, h.terms⟩
  · intro a ctx hctx
    rcases hnew a ctx hctx with ⟨rfl, rfl⟩ | ⟨-, hctx⟩
    · exact ⟨hasked, hstart, .inl ⟨rfl, rfl⟩⟩
    · exact (h.contexts a ctx hctx).imp_left (hcalls a ctx.op)
  · intro cmdIndex a ha
    simp only [KVServer.register, Function.update_apply, Option.mem_def] at ha ⊢
    split_ifs at ha with hidx
    · obtain rfl := Option.some.inj ha
      exact ⟨{ op := op }, by simp, hidx.symm⟩
    · obtain ⟨ctx, hctx, hold⟩ := h.cmdMap cmdIndex a ha
      refine ⟨ctx, ?_, hold⟩
      rw [if_neg, hctx]
      -- the own context is not reachable from another index
      rintro rfl
      have hsame := (hcalls a ctx.op (h.contexts a ctx hctx).1).eq hasked
      exact hidx (by rw [← hold, hsame])

/-- A context that is taken away leaves the others in order. -/
lemma cleanup {k : ℕ} {op : Op} (h : r.Waits log calls)
    (hcalls : ∀ a op, Asked calls a op → Asked calls' a op) :
    Replica.Waits { r with kv := r.kv.cleanup k op } log calls' := by
  obtain ⟨-, hidx, hctxs⟩ := KVServer.cleanup_frame r.kv k op
  refine ⟨?_, ?_, h.terms⟩
  · intro a ctx hctx
    rw [hctxs] at hctx
    rw [hidx]
    exact (h.contexts a ctx hctx).imp_left (hcalls a ctx.op)
  · intro cmdIndex a ha
    rw [hctxs]
    refine h.cmdMap cmdIndex a ?_
    unfold KVServer.cleanup at ha
    split_ifs at ha
    · simp only [Function.update_apply] at ha
      split_ifs at ha
      · simp at ha
      · exact ha
    · exact ha

/-- The context that waits for an entry not applied yet is open: it was not closed by another
entry, since command indexes increase along the log. -/
lemma isOpen (h : r.Waits log calls)
    (hinc : ∀ (i j : ℕ) (e e' : LogEntry Op), i < j → log[i]? = some e → log[j]? = some e' →
      e.isInternalLog = false → e'.isInternalLog = false → e.commandIndex < e'.commandIndex)
    {q : ℕ} {entry : LogEntry Op} {op : Op} (hvis : Visible log q entry op)
    (hq : r.kv.lastAppliedIndex < q) {a : ℕ} {ctx : OpContext} (hctx : ctx ∈ r.kv.contexts a)
    (hwaits : ctx.op.cmdIndex = entry.commandIndex) :
    ctx.commitedChan = [] ∧ ctx.wrongLeader = false := by
  obtain ⟨-, -, hopen | ⟨i, hi, -, ⟨e, o, hv, hidx⟩, -⟩⟩ := h.contexts a ctx hctx
  · exact hopen
  · have hlt := hinc i q e entry (by omega) hv.get hvis.get hv.visible hvis.visible
    omega

/-- An entry is applied, and the context that waits at its command index is notified.

**Proof sketch.** Only the context at the command index of the entry changes. It is open, since no
earlier entry has its command index, and it is closed soundly by this entry
(`OpContext.Sound.notify`). -/
lemma applyEntry (h : r.Waits log calls)
    (hinc : ∀ (i j : ℕ) (e e' : LogEntry Op), i < j → log[i]? = some e → log[j]? = some e' →
      e.isInternalLog = false → e'.isInternalLog = false → e.commandIndex < e'.commandIndex)
    {q k : ℕ} {entry : LogEntry Op} {op : Op} (hvis : Visible log q entry op)
    (hfrom : ComesFrom (calls.map Call.op) entry k) (hq : r.kv.lastAppliedIndex < q)
    (hstate : r.kv.toKVState = stateAt log (q - 1)) (cmdIndex : ℤ) {term : ℤ}
    (hterm : term = 0 ∨ term = entry.logTerm) (hkv : r'.kv = { r.kv with
      toKVState := r.kv.toKVState.applyOp op
      contexts := r.kv.notifyAt (r.kv.cmdMap entry.commandIndex)
        { op with cmdIndex := cmdIndex, term := term } q
      lastAppliedIndex := q }) (hch : r'.applyCh ⊆ r.applyCh) : r'.Waits log calls := by
  refine ⟨fun a ctx' hctx' => ?_, fun c a ha => ?_, fun m hm => h.terms m (hch hm)⟩
  · rw [hkv] at hctx' ⊢
    obtain ⟨ctx, hctx, hsame | ⟨haddr, rfl⟩⟩ := KVServer.mem_notifyAt _ _ _ hctx'
    · subst hsame
      obtain ⟨hasked, hstart, hsound⟩ := h.contexts a ctx' hctx
      exact ⟨hasked, hstart, hsound.mono hq.le⟩
    · obtain ⟨hasked, hstart, -⟩ := h.contexts a ctx hctx
      obtain ⟨ctx₀, hctx₀, hwaits⟩ := h.cmdMap _ a haddr
      obtain rfl : ctx₀ = ctx := Option.mem_unique hctx₀ hctx
      rw [OpContext.op_notify, hstate]
      exact ⟨hasked, hstart, OpContext.Sound.notify (h.isOpen hinc hvis hq hctx hwaits) hstart
        hasked.getElem?_map hvis hfrom hwaits.symm hterm⟩
  · rw [hkv] at ha ⊢
    obtain ⟨ctx, hctx, hidx⟩ := h.cmdMap c a ha
    obtain ⟨ctx', hctx', hop'⟩ := KVServer.exists_notifyAt r.kv
      { op with cmdIndex := cmdIndex, term := term } q hctx (r.kv.cmdMap entry.commandIndex)
    exact ⟨ctx', hctx', by rw [hop', hidx]⟩

/-- **The loop signals soundly**, whatever message it handles.

**Proof sketch.** The message is for the next entry or for a snapshot. An entry that is new closes
the context at its command index; a new snapshot touches no context; an old message is skipped. -/
lemma apply (h : r.Waits log calls) (hr : r.Sound log)
    (horigin : ∀ e ∈ log, e.isInternalLog = false → ∃ k, ComesFrom (calls.map Call.op) e k)
    (hinc : ∀ (i j : ℕ) (e e' : LogEntry Op), i < j → log[i]? = some e → log[j]? = some e' →
      e.isInternalLog = false → e'.isInternalLog = false → e.commandIndex < e'.commandIndex)
    (ha : r.apply = some r') : r'.Waits log calls := by
  obtain ⟨p, hp, hfeed⟩ := hr.feed
  unfold Replica.apply at ha
  split at ha
  · simp at ha
  · rename_i msg msgs hch
    rw [hch] at hfeed
    obtain ⟨q, hmsg, -⟩ := hfeed
    have hmsgs : msgs ⊆ r.applyCh := hch ▸ List.subset_cons_self msg msgs
    rcases Nat.lt_or_ge r.kv.lastAppliedIndex q with hq | hq
    · cases hmsg with
      | @entry entry op cmdIndex term hnext hop =>
        rw [KVServer.applyMsg_entryMsg cmdIndex term hop hq, Option.map_some] at ha
        obtain rfl := Option.some.inj ha
        have hterm : term = 0 ∨ term = entry.logTerm := by
          have hmem : entryMsg entry q cmdIndex term ∈ r.applyCh := hch ▸ List.mem_cons_self
          refine (h.terms _ hmem { op with cmdIndex := cmdIndex, term := term }
            (by simp [entryMsg, hop])).imp_right ?_
          rintro ⟨e, he, heq⟩
          obtain rfl : entry = e := Option.some.inj (hnext.get.symm.trans he)
          exact heq
        obtain ⟨k, hfrom⟩ := horigin entry (List.mem_of_getElem? hnext.get) hnext.visible
        exact h.applyEntry hinc ⟨hnext.get, hnext.visible, hop⟩ hfrom hq
          (hr.follows.state.trans (hnext.stateAt_pred hp hq).symm) cmdIndex hterm rfl hmsgs
      | @snapshot snapshot hlab =>
        rw [KVServer.applyMsg_snapshotMsg hq, Option.map_some] at ha
        obtain rfl := Option.some.inj ha
        refine ⟨fun a ctx hctx => ?_, h.cmdMap, fun m hm => h.terms m (hmsgs hm)⟩
        obtain ⟨hasked, hstart, hsound⟩ := h.contexts a ctx hctx
        exact ⟨hasked, hstart, hsound.mono hq.le⟩
    · rw [hmsg.applyMsg_of_le hq, Option.map_some] at ha
      obtain rfl := Option.some.inj ha
      exact h.congr rfl fun m hm => .inl (hmsgs hm)

end Replica.Waits

/-! ## The service -/

/-- Calls keep their addresses. -/
lemma Asked.append {a : ℕ} {op : Op} (h : Asked calls a op) (rest : List (Call n)) :
    Asked (calls ++ rest) a op := by
  obtain ⟨call, hcall, hphase, hop⟩ := h
  refine ⟨call, ?_, hphase, hop⟩
  rwa [List.getElem?_append_left (List.getElem?_eq_some_iff.mp hcall).1]

/-- A call that goes on keeps its operation once it has been to `Start`. -/
lemma Asked.set {a k : ℕ} {op : Op} {call call' : Call n} (h : Asked calls a op)
    (hk : calls[k]? = some call)
    (hgo : call.phase ≠ .received → call'.phase ≠ .received ∧ call'.op = call.op) :
    Asked (calls.set k call') a op := by
  obtain ⟨c, hc, hphase, hop⟩ := h
  by_cases hak : k = a
  · subst hak
    obtain rfl : call = c := Option.some.inj (hk.symm.trans hc)
    refine ⟨call', ?_, (hgo hphase).1, (hgo hphase).2.trans hop⟩
    rw [List.getElem?_set_self (List.getElem?_eq_some_iff.mp hk).1]
  · exact ⟨c, by rwa [List.getElem?_set_ne hak], hphase, hop⟩

/-- A crash leaves the operations of the calls. -/
lemma Call.op_crash (i : Fin n) (call : Call n) : (call.crash i).op = call.op := by
  unfold Call.crash
  split
  · rfl
  · split_ifs <;> rfl

/-- A crash leaves what has been to `Start`. -/
lemma Asked.crash {a : ℕ} {op : Op} (h : Asked calls a op) (i : Fin n) :
    Asked (calls.map (Call.crash i)) a op := by
  obtain ⟨call, hcall, hphase, hop⟩ := h
  refine ⟨call.crash i, by rw [List.getElem?_map, hcall, Option.map_some], ?_, ?_⟩
  · unfold Call.crash
    split
    · exact hphase
    · split_ifs
      · simp
      · exact hphase
  · rw [Call.op_crash, hop]

/-- A handler that a crash has ended says nothing. -/
lemma Call.Sound.crash {call : Call n} (h : call.Sound log) (i : Fin n) :
    (call.crash i).Sound log := by
  unfold Call.crash
  split
  · exact h
  · split_ifs
    · trivial
    · exact h

namespace Service

variable {σ σ' : Service n}

/-- The invariant of the whole service under what Raft promises. -/
structure Waiters (σ : Service n) : Prop where
  sound : σ.Sound
  ledger : σ.Ledger
  calls : ∀ call ∈ σ.calls, call.Sound σ.log
  waits : ∀ i, (σ.replicas i).Waits σ.log σ.calls

namespace Waiters

/-- A new service has no contexts. -/
lemma init : (Service.init : Service n).Waiters where
  sound := .init
  ledger := .init
  calls := by simp [Service.init]
  waits _ := .fresh rfl rfl

/-- One server changes. -/
lemma setReplica (h : σ.Waiters) {i : Fin n} {r : Replica} (hs : (σ.setReplica i r).Sound)
    (hr : r.Waits σ.log σ.calls) : (σ.setReplica i r).Waiters where
  sound := hs
  ledger := h.ledger.congr rfl rfl rfl rfl
  calls := h.calls
  waits j := by
    simp only [Service.setReplica, Function.update_apply]
    split_ifs
    · exact hr
    · exact h.waits j

/-- A call goes on, and its operation stays. -/
lemma setCall (h : σ.Waiters) {k : ℕ} {call call' : Call n} (hk : σ.calls[k]? = some call)
    (hop : call'.op = call.op) (hphase : call'.phase ≠ .received) (hc : call'.Sound σ.log) :
    (σ.setCall k call').Waiters where
  sound := h.sound.congr rfl rfl rfl
  ledger := by
    refine h.ledger.congr rfl rfl rfl ?_
    obtain ⟨hlt, rfl⟩ := List.getElem?_eq_some_iff.mp hk
    have hop' : call'.op = (σ.calls.map Call.op).get ⟨k, by simpa using hlt⟩ := by simpa using hop
    rw [Service.ops, Service.setCall, List.map_set, hop']
    exact List.set_getElem_self _
  calls c hmem := (List.mem_or_eq_of_mem_set hmem).elim (h.calls c) fun heq => heq ▸ hc
  waits i := (h.waits i).setCalls fun _ _ hasked => hasked.set hk fun _ => ⟨hphase, hop⟩

/-- A call goes on and changes the contexts of its server. -/
lemma setKV (h : σ.Waiters) {k : ℕ} {call call' : Call n} {kv : KVServer}
    (hk : σ.calls[k]? = some call) (hop : call'.op = call.op) (hphase : call'.phase ≠ .received)
    (hc : call'.Sound σ.log) (hs : ((σ.setKV call.server kv).setCall k call').Sound)
    (hw : Replica.Waits { σ.replicas call.server with kv := kv } σ.log (σ.calls.set k call')) :
    ((σ.setKV call.server kv).setCall k call').Waiters where
  sound := hs
  ledger := (h.setCall hk hop hphase hc).ledger.congr rfl rfl rfl rfl
  calls := (h.setCall hk hop hphase hc).calls
  waits i := by
    simp only [Service.setCall, Service.setKV, Service.setReplica, Function.update_apply]
    split_ifs
    · exact hw
    · exact (h.setCall hk hop hphase hc).waits i

/-- `Start` returns to a call. -/
lemma start (h : σ.Waiters) {k : ℕ} {call : Call n} {cmdIndex term : ℤ} {phase : Phase}
    (hk : σ.calls[k]? = some call) (hphase : call.phase = .received)
    (hfree : ∀ e ∈ σ.log, e.isInternalLog = false →
      ¬ (call.start cmdIndex term phase).op.AcceptedAt e.commandIndex e.logTerm)
    (hc : (call.start cmdIndex term phase).Sound σ.log) :
    (σ.setCall k (call.start cmdIndex term phase)).Waiters where
  sound := h.sound.congr rfl rfl rfl
  ledger := by
    have hget : σ.ops[k]? = some call.op := by
      rw [Service.ops, List.getElem?_map, hk, Option.map_some]
    have hbare : call.op.request = call.op := by
      have := h.calls call (List.mem_of_getElem? hk)
      simpa only [Call.Sound, hphase] using this
    have hsame : (call.start cmdIndex term phase).op.request = call.op.request := rfl
    exact h.ledger.start hget hbare hsame hfree rfl rfl rfl List.map_set
  calls c hmem := (List.mem_or_eq_of_mem_set hmem).elim (h.calls c) fun heq => heq ▸ hc
  waits i := (h.waits i).setCalls fun _ _ hasked => hasked.set hk fun hne => absurd hphase hne

/-- The steps of a handler.

**Proof sketch.** By the phase of the call. `Start` accepts at an index and term that no committed
entry has, by assumption; a registered context belongs to its call; an answered call takes its reply
from a sound context. -/
lemma callStep (h : σ.Waiters) {k : ℕ} {call : Call n} {ev : CallEvent}
    (hk : σ.calls[k]? = some call) (hass : σ.Assumed (.call k ev))
    (hs : σ.callStep k call ev = some σ') : σ'.Waiters := by
  have hcall := h.calls call (List.mem_of_getElem? hk)
  have hsound' := h.sound.callStep hs
  have hkilled : ∀ phase, ∀ e ∈ σ.log, e.isInternalLog = false →
      ¬ (call.start (-1) (-1) phase).op.AcceptedAt e.commandIndex e.logTerm := by
    rintro phase e - - ⟨hidx, -⟩
    simp only [Call.start] at hidx
    omega
  unfold Service.callStep at hs
  split at hs
  · rename_i hphase
    exact Option.some.inj hs ▸ h.start hk hphase (hkilled _) (.inl rfl)
  · rename_i hphase
    exact Option.some.inj hs ▸ h.start hk hphase (hkilled _) (fun hne => absurd rfl hne)
  · rename_i cmdIndex term hphase
    split_ifs at hs with hpos
    refine Option.some.inj hs ▸ h.start hk hphase ?_ (.inr (Int.natCast_pos.mpr hpos))
    rintro e he hvis ⟨hidx, hterm, -⟩
    exact hass e he hvis ⟨(Int.ofNat.inj hidx).symm, (Int.ofNat.inj hterm).symm⟩
  · rename_i hphase
    rw [← Option.some.inj hs] at hsound' ⊢
    have hgo : ∀ a op, Asked σ.calls a op →
        Asked (σ.calls.set k { call with phase := .waiting }) a op := fun _ _ hasked =>
      hasked.set hk fun _ => ⟨by simp, rfl⟩
    refine h.setKV hk rfl (by simp) trivial hsound' ((h.waits call.server).register ?_ hgo ?_)
    · refine ⟨{ call with phase := .waiting }, ?_, by simp, rfl⟩
      rw [List.getElem?_set_self (List.getElem?_eq_some_iff.mp hk).1]
    · simpa only [Call.Sound, hphase] using hcall
  · rename_i hphase
    split at hs
    · simp at hs
    · rename_i ctx hctx
      split_ifs at hs with hclosed
      obtain ⟨hasked, -, hsound⟩ := (h.waits call.server).contexts k ctx hctx
      have hop : call.op = ctx.op := by
        obtain ⟨c, hc, -, hop⟩ := hasked
        rw [Option.some.inj (hk.symm.trans hc), hop]
      refine Option.some.inj hs ▸ h.setCall hk rfl (by simp) ?_
      have hreply := hsound.reply hclosed
      rwa [← hop] at hreply
  · exact Option.some.inj hs ▸ h.setCall hk rfl (by simp) fun hne => absurd rfl hne
  · rename_i reply signals hphase
    rw [← Option.some.inj hs] at hsound' ⊢
    have hgo : ∀ a op, Asked σ.calls a op →
        Asked (σ.calls.set k { call with phase := .replied reply signals }) a op :=
      fun _ _ hasked => hasked.set hk fun _ => ⟨by simp, rfl⟩
    refine h.setKV hk rfl (by simp) ?_ hsound' ((h.waits call.server).cleanup hgo)
    simpa only [Call.Sound, hphase] using hcall
  · simp at hs

/-- A clerk takes an answer to its operation, which is in the log.

**Proof sketch.** The answer is sound, so the call's own entry is in the log, and it has the tag of
the clerk's pending operation. -/
lemma acknowledge (h : σ.Waiters) {client : ℤ} {call : Call n} (hmem : call ∈ σ.calls)
    (hs : σ.acknowledge client call = some σ') : σ'.Waiters := by
  unfold Service.acknowledge at hs
  split at hs
  · rename_i reply signals op hphase hpend
    split_ifs at hs with hreply
    rw [← Option.some.inj hs]
    refine ⟨h.sound.congr rfl rfl rfl, h.ledger.acknowledge ?_, h.calls, h.waits⟩
    have hsound : ReplySound σ.log call.op reply signals := by
      have := h.calls call hmem
      simpa only [Call.Sound, hphase] using this
    obtain ⟨p, -, ⟨e, own, hvis, hown, -⟩, -⟩ := hsound hreply.1
    obtain ⟨hclient, hseq⟩ := h.ledger.pending client op hpend
    refine List.mem_map.mpr ⟨own, mem_opsOf_iff.mpr ⟨p, e, hvis⟩, ?_⟩
    rw [Op.tag_eq_of_request_eq hown, ← hseq, ← hclient, ← hreply.2]
    rfl
  · simp at hs

/-- **One step of the service** keeps the invariant, as long as Raft keeps its promises.

**Proof sketch.** The cases are the events; the servers are sound by `Service.Sound.step`. Raft's
promises are used when an entry is committed or delivered and when `Start` accepts a call. An
applied message is `Replica.Waits.apply`, and a step of a handler is `callStep`. -/
theorem step (h : σ.Waiters) {ev : Event n} (hass : σ.Assumed ev) (hs : σ.step ev = some σ') :
    σ'.Waiters := by
  have hsound := h.sound.step hs
  cases ev with
  | commit entry =>
    simp only [Service.step] at hs
    split_ifs at hs with hentry
    rw [← Option.some.inj hs] at hsound ⊢
    have hlog := List.prefix_append σ.log [{ entry with logIndex := σ.log.length }]
    exact ⟨hsound, h.ledger.commit hentry hass, fun call hcall => (h.calls call hcall).extend hlog,
      fun i => (h.waits i).extend hlog⟩
  | deliver i index cmdIndex term =>
    obtain ⟨r, hr, rfl⟩ := Option.map_eq_some_iff.mp hs
    exact h.setReplica hsound ((h.waits i).deliver hass hr)
  | apply i =>
    obtain ⟨r, hr, rfl⟩ := Option.map_eq_some_iff.mp hs
    exact h.setReplica hsound
      ((h.waits i).apply (h.sound.replicas i) h.ledger.origin h.ledger.increasing hr)
  | capture i =>
    rw [← Option.some.inj hs] at hsound ⊢
    exact h.setReplica hsound ((h.waits i).congr rfl fun _ => .inl)
  | takeSnapshot i =>
    obtain ⟨r, hr, rfl⟩ := Option.map_eq_some_iff.mp hs
    exact h.setReplica hsound ((h.waits i).takeSnapshot hr)
  | sendInstall i =>
    rw [← Option.some.inj hs] at hsound ⊢
    exact ⟨hsound, h.ledger.congr rfl rfl rfl rfl, h.calls, h.waits⟩
  | installSnapshot i m =>
    obtain ⟨s, -, rfl⟩ := Option.map_eq_some_iff.mp hs
    exact h.setReplica hsound (h.waits i).installSnapshot
  | restart i =>
    rw [← Option.some.inj hs] at hsound ⊢
    have hops : (σ.calls.map (Call.crash i)).map Call.op = σ.calls.map Call.op := by
      rw [List.map_map]
      exact List.map_congr_left fun call _ => Call.op_crash i call
    refine ⟨hsound, h.ledger.congr rfl rfl rfl hops, ?_, fun j => ?_⟩
    · intro call hcall
      obtain ⟨c, hc, rfl⟩ := List.mem_map.mp hcall
      exact (h.calls c hc).crash i
    · simp only [Service.setReplica, Function.update_apply]
      split_ifs
      · exact .fresh rfl rfl
      · exact (h.waits j).setCalls fun _ _ hasked => hasked.crash i
  | issue client type key value =>
    simp only [Service.step, Service.issue] at hs
    split at hs
    · simp at hs
    · rename_i hfree
      rw [← Option.some.inj hs] at hsound ⊢
      exact ⟨hsound, h.ledger.issue hfree rfl rfl, h.calls, h.waits⟩
  | receive i m =>
    obtain ⟨op, hop, rfl⟩ := Option.map_eq_some_iff.mp hs
    have hmem := List.mem_of_getElem? hop
    refine ⟨hsound, h.ledger.receive hmem rfl rfl rfl (by simp [Service.ops]), ?_, fun j => ?_⟩
    · intro call hcall
      rcases List.mem_append.mp hcall with hcall | hcall
      · exact h.calls call hcall
      · obtain rfl : call = ⟨i, op, .received⟩ := by simpa using hcall
        exact h.ledger.bare op hmem
    · exact (h.waits j).setCalls fun _ _ hasked => hasked.append _
  | call k ev =>
    obtain ⟨call, hcall, hstep⟩ := Option.bind_eq_some_iff.mp hs
    exact h.callStep hcall hass hstep
  | acknowledge client k =>
    obtain ⟨call, hcall, hack⟩ := Option.bind_eq_some_iff.mp hs
    exact h.acknowledge (List.mem_of_getElem? hcall) hack

/-- The invariant holds in every state of every run. -/
theorem of_reach (h : Transition.Reach Service.step Service.Assumed Service.init σ) :
    σ.Waiters :=
  h.invariant .init fun _ _ _ _ ih hass hs => ih.step hass hs

end Waiters

end Service

/-! ## The result -/

/-- The handler has made up its answer; `signals` are the log indexes at which its channel was
closed before. -/
def Call.Answers (call : Call n) (reply : Reply) (signals : List ℕ) : Prop :=
  call.phase = .answered reply signals ∨ call.phase = .replied reply signals

/-- The reply of an answered call is sound. -/
lemma Call.Sound.reply {call : Call n} {reply : Reply} {signals : List ℕ} (h : call.Sound log)
    (hans : call.Answers reply signals) : ReplySound log call.op reply signals := by
  rcases hans with hphase | hphase <;> simpa only [Call.Sound, hphase] using h

end KvRaft

end Mit6824
