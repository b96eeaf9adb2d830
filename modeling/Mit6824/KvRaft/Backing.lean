import Mit6824.Transition.Simulation
import Mit6824.Raft.Conveyance
import Mit6824.Raft.Provenance
import Mit6824.Raft.Safety
import Mit6824.KvRaft.Replies
import Mit6824.KvRaft.System

set_option autoImplicit false

/-!
# The committed log behind a system

What the service has to be told so that it follows a Raft cluster: the entries that have been
committed, one after the other, and then the messages that a server sends on its channel. Both are
runs of the service without its clients. They need that an entry can be traced back to the call that
`Start` accepted for it, and that the operation behind a pointer stays what it was.

## Main definitions

* `Mit6824.KvRaft.Origin` — the call that made an entry.
* `Mit6824.KvRaft.Keeps`, `Mit6824.KvRaft.Apart` — accepted calls keep their operations, and no two
  calls are accepted at one command index and term.
* `Mit6824.KvRaft.Quiet` — the steps of the service that its clients have no part in.
* `Mit6824.KvRaft.Silent` — a part of the log with internal entries only.

## Main results

* `Mit6824.KvRaft.reach_commit` — the service can commit what Raft has committed.
* `Mit6824.KvRaft.reach_deliver` — the service can be sent what Raft sends, internal entries left
  out.
-/

namespace Mit6824

namespace KvRaft

variable {n : ℕ}

/-! ## Pointers -/

section Pointers

variable {calls calls' : List (Call n)} {encoded encoded' : List KVState}

/-- The entry was made by a call that `Start` accepted at its command index and term. -/
def Origin (calls : List (Call n)) (e : LogEntry ℕ) : Prop :=
  ∃ k ∈ e.command, ∃ call ∈ calls[k]?, call.op.AcceptedAt e.commandIndex e.logTerm

/-- Accepted calls keep their operations. -/
def Keeps (calls calls' : List (Call n)) : Prop :=
  ∀ k : ℕ, ∀ call ∈ calls[k]?, ∀ cmdIndex term, call.op.AcceptedAt cmdIndex term →
    ∃ call' ∈ calls'[k]?, call'.op = call.op

/-- Nothing has changed. -/
lemma Keeps.refl (calls : List (Call n)) : Keeps calls calls :=
  fun _ call hcall _ _ _ => ⟨call, hcall, rfl⟩

/-- No call has another operation than before. -/
lemma Keeps.of_op (h : ∀ k : ℕ, ∀ call ∈ calls[k]?, ∃ call' ∈ calls'[k]?, call'.op = call.op) :
    Keeps calls calls' :=
  fun k call hcall _ _ _ => h k call hcall

/-- The calls at a server that crashes keep their operations. -/
lemma Keeps.crash (calls : List (Call n)) (i : Fin n) : Keeps calls (calls.map (Call.crash i)) :=
  .of_op fun k call hcall =>
    ⟨call.crash i, by simp [Option.mem_def.mp hcall], Call.op_crash i call⟩

/-- The call that made an entry stays accepted. -/
lemma Origin.keep {e : LogEntry ℕ} (h : Origin calls e) (hk : Keeps calls calls') :
    Origin calls' e := by
  obtain ⟨k, hcmd, call, hcall, hacc⟩ := h
  obtain ⟨call', hcall', hop⟩ := hk k call hcall _ _ hacc
  exact ⟨k, hcmd, call', hcall', hop ▸ hacc⟩

/-- The operation behind an entry stays the same. -/
lemma Origin.opAt_keep {e : LogEntry ℕ} (h : Origin calls e) (hk : Keeps calls calls')
    (filled : Bool) : e.command.bind (opAt calls' filled) = e.command.bind (opAt calls filled) := by
  obtain ⟨k, hcmd, call, hcall, hacc⟩ := h
  obtain ⟨call', hcall', hop⟩ := hk k call hcall _ _ hacc
  rw [Option.mem_def.mp hcmd]
  simp [opAt, Option.mem_def.mp hcall, Option.mem_def.mp hcall', hop]

/-- An entry stays the same entry of the service. -/
lemma entryOf_keep {e : LogEntry ℕ} (h : e.isInternalLog = false → Origin calls e)
    (hk : Keeps calls calls') : entryOf calls' e = entryOf calls e := by
  cases hint : e.isInternalLog with
  | true => simp [entryOf, hint]
  | false => simp [entryOf, hint, (h hint).opAt_keep hk]

/-- A number that stands for an encoded state keeps its meaning. -/
lemma stateOf_extend {snapshot : Option ℕ} (h : ∀ k ∈ snapshot, k < encoded.length)
    (henc : encoded <+: encoded') : stateOf encoded' snapshot = stateOf encoded snapshot := by
  cases snapshot with
  | none => rfl
  | some k =>
    obtain ⟨rest, rfl⟩ := henc
    exact List.getElem?_append_left (h k rfl)

/-- The message of an entry, as the service reads it. -/
lemma entryMsg_entryOf {e : LogEntry ℕ} (hint : e.isInternalLog = false) (h : Origin calls e)
    (encoded : List KVState) (filled : Bool) :
    ∃ (cmdIndex term : ℤ), (term = 0 ∨ term = e.logTerm) ∧
      ∀ m : ApplyMsg ℕ ℕ, m.commandValid = true → m.command = e.command →
        m.commandIndex = e.commandIndex →
        messageOf calls encoded filled m = entryMsg (entryOf calls e) m.logIndex cmdIndex term := by
  obtain ⟨k, hcmd, call, hcall, hacc⟩ := h
  refine ⟨if filled then call.op.cmdIndex else 0, if filled then call.op.term else 0, ?_, ?_⟩
  · cases filled with
    | true => exact Or.inr hacc.2.1
    | false => exact Or.inl rfl
  · intro m hvalid hcommand hindex
    have hcmd' := Option.mem_def.mp hcmd
    have hcall' := Option.mem_def.mp hcall
    cases filled <;>
      simp [messageOf, hvalid, hcommand, hindex, entryMsg, entryOf, hint, hcmd', opAt, hcall',
        Op.request]

/-- No two calls were accepted at one command index and term. -/
def Apart (calls : List (Call n)) : Prop :=
  ∀ k k' : ℕ, ∀ call ∈ calls[k]?, ∀ call' ∈ calls[k']?, ∀ cmdIndex term,
    call.op.AcceptedAt cmdIndex term → call'.op.AcceptedAt cmdIndex term → k = k'

/-- Only the operations of the calls count. -/
lemma Apart.congr (h : Apart calls) (hop : calls'.map Call.op = calls.map Call.op) :
    Apart calls' := by
  have hold : ∀ k : ℕ, ∀ call' ∈ calls'[k]?, ∃ call ∈ calls[k]?, call.op = call'.op := by
    intro k call' hcall'
    have hget := congrArg (·[k]?) hop
    simp only [List.getElem?_map, Option.mem_def.mp hcall', Option.map_some] at hget
    exact Option.map_eq_some_iff.mp hget.symm
  intro k k' call hcall call' hcall' cmdIndex term hacc hacc'
  obtain ⟨old, hmem, hop⟩ := hold k call hcall
  obtain ⟨old', hmem', hop'⟩ := hold k' call' hcall'
  exact h k k' old hmem old' hmem' cmdIndex term (hop ▸ hacc) (hop' ▸ hacc')

/-- An entry of the Raft log comes from its call, as the service wants it. -/
lemma Origin.comesFrom {e : LogEntry ℕ} (h : Origin calls e) (hint : e.isInternalLog = false)
    (hapart : Apart calls) :
    ∃ k < (calls.map Call.op).length, ComesFrom (calls.map Call.op) (entryOf calls e) k := by
  obtain ⟨k, hcmd, call, hcall, hacc⟩ := h
  have hcmd' := Option.mem_def.mp hcmd
  have hcall' := Option.mem_def.mp hcall
  refine ⟨k, ?_, ⟨call.op, by simp [hcall'], hacc, ?_⟩, ?_⟩
  · simpa using (List.getElem?_eq_some_iff.mp hcall').1
  · simp [entryOf, hint, hcmd', opAt, hcall', Op.request]
  · rintro k' - ⟨op, hop, hacc'⟩
    rw [List.getElem?_map] at hop
    obtain ⟨call', hcall'', rfl⟩ := Option.map_eq_some_iff.mp (Option.mem_def.mp hop)
    exact hapart k' k call' hcall'' call hcall _ _ hacc' hacc

end Pointers

/-! ## Runs of the service -/

/-- The steps of the service that its clients have no part in. -/
def Quiet (σ : Service n) (ev : Event n) : Prop := σ.Assumed ev ∧ ev.ofFront = false

/-- An entry of a client counts. -/
lemma clientEntries_take_succ {F : List (LogEntry ℕ)} {k : ℕ} {e : LogEntry ℕ}
    (he : F[k]? = some e) (hint : e.isInternalLog = false) :
    clientEntries (F.take (k + 1)) = clientEntries (F.take k) + 1 := by
  rw [List.take_add_one, he, clientEntries, List.countP_append]
  simp [hint, clientEntries]

/-- Behind an entry, an operation has a larger command index. -/
lemma commandIndex_lt_of_numbered {F : List (LogEntry ℕ)} (h : Numbered F) {k k' : ℕ}
    {e e' : LogEntry ℕ} (hk : k < k') (he : F[k]? = some e) (he' : F[k']? = some e')
    (hint' : e'.isInternalLog = false) : e.commandIndex < e'.commandIndex := by
  have hcount := clientEntries_take_succ he' hint'
  have hmono : clientEntries (F.take (k + 1)) ≤ clientEntries (F.take k') :=
    (List.take_prefix_take_left hk).sublist.countP_le
  rw [(h k e he).2, (h k' e' he').2]
  omega

/-- The service commits the entries behind `D`, one after the other.

**Proof sketch.** Induction on the entries. The next entry has the index of its place, comes from
the only call accepted at its command index and term, and has a larger command index than all before
it; so the service may commit it. -/
lemma reach_commit : ∀ (es D : List (LogEntry ℕ)) (σ : Service n),
    σ.log = Raft.dummyLog 0 0 0 :: D.map (entryOf σ.calls) → Numbered (D ++ es) →
    (∀ e ∈ D ++ es, e.isInternalLog = false → Origin σ.calls e) → Apart σ.calls →
    Transition.Reach Service.step Quiet σ
      { σ with log := Raft.dummyLog 0 0 0 :: (D ++ es).map (entryOf σ.calls) }
  | [], D, σ, hlog, _, _, _ => by
    rw [List.append_nil, ← hlog]
    exact .refl
  | e :: es, D, σ, hlog, hnum, horigin, hapart => by
    have hget : (D ++ e :: es)[D.length]? = some e := by simp
    have hmem : e ∈ D ++ e :: es := List.mem_of_getElem? hget
    -- the entry gets the index it has
    have hentry : σ.log ++ [{ entryOf σ.calls e with logIndex := σ.log.length }] =
        Raft.dummyLog 0 0 0 :: (D ++ [e]).map (entryOf σ.calls) := by
      have hidx : e.logIndex = σ.log.length := by
        rw [(hnum _ e hget).1, hlog]
        simp
      have hsame : { entryOf σ.calls e with logIndex := σ.log.length } = entryOf σ.calls e := by
        rw [← hidx]
        rfl
      rw [hsame, hlog, List.map_append]
      rfl
    have hassumed : Quiet σ (.commit (entryOf σ.calls e)) := by
      refine ⟨?_, rfl⟩
      cases hint : e.isInternalLog with
      | true => exact Or.inl hint
      | false =>
        refine Or.inr ⟨(horigin e hmem hint).comesFrom hint hapart, fun a ha hvis => ?_⟩
        rw [hlog] at ha
        rcases List.mem_cons.mp ha with rfl | ha
        · simp [Raft.dummyLog] at hvis
        · obtain ⟨b, hb, rfl⟩ := List.mem_map.mp ha
          obtain ⟨k, hk⟩ := List.getElem?_of_mem hb
          have hlt := (List.getElem?_eq_some_iff.mp hk).1
          refine commandIndex_lt_of_numbered hnum hlt ?_ hget hint
          rwa [List.getElem?_append_left hlt]
    have hstep : σ.step (.commit (entryOf σ.calls e)) =
        some { σ with log := Raft.dummyLog 0 0 0 :: (D ++ [e]).map (entryOf σ.calls) } := by
      have hguard : (entryOf σ.calls e).isInternalLog = true ∨
          (entryOf σ.calls e).command.isSome = true := by
        cases hint : e.isInternalLog with
        | true => exact Or.inl hint
        | false =>
          obtain ⟨k, hcmd, call, hcall, -⟩ := horigin e hmem hint
          right
          simp [entryOf, hint, Option.mem_def.mp hcmd, opAt, Option.mem_def.mp hcall]
      simp only [Service.step]
      rw [if_pos hguard, hentry]
    have hrest := reach_commit es (D ++ [e])
      { σ with log := Raft.dummyLog 0 0 0 :: (D ++ [e]).map (entryOf σ.calls) } rfl
      (by simpa using hnum) (by simpa using horigin) hapart
    rw [List.append_assoc, List.singleton_append] at hrest
    exact (Transition.Reach.single _ hassumed hstep).trans hrest

/-- Putting a replica back in its place changes nothing. -/
lemma setReplica_self (σ : Service n) (i : Fin n) : σ.setReplica i (σ.replicas i) = σ := by
  rw [Service.setReplica, Function.update_eq_self]

/-- The second of two replicas that are put in one place stays. -/
lemma setReplica_setReplica (σ : Service n) (i : Fin n) (r r' : Replica) :
    (σ.setReplica i r).setReplica i r' = σ.setReplica i r' := by
  simp [Service.setReplica]

/-- All entries from place `a` up to place `b` are internal. -/
def Silent (D : List (LogEntry ℕ)) (a b : ℕ) : Prop :=
  ∀ k e, a ≤ k → k < b → D[k]? = some e → e.isInternalLog = true

/-- The service may be sent the next entry that is not internal.

**Proof sketch.** The log of the service is the committed log behind the sentinel. All entries
between the position and this one are internal, so this is the next one to be delivered. -/
lemma deliver_entry {σ : Service n} {D : List (LogEntry ℕ)} {i : Fin n} {a : ℕ} {e : LogEntry ℕ}
    (hlog : σ.log = Raft.dummyLog 0 0 0 :: D.map (entryOf σ.calls)) (he : D[a]? = some e)
    (hint : e.isInternalLog = false) (hpos : (σ.replicas i).pos ≤ a)
    (hgap : Silent D (σ.replicas i).pos a) (cmdIndex : ℤ) {term : ℤ}
    (hterm : term = 0 ∨ term = e.logTerm) :
    Transition.Reach Service.step Quiet σ (σ.setReplica i { σ.replicas i with
      pos := a + 1
      applyCh := (σ.replicas i).applyCh ++
        [entryMsg (entryOf σ.calls e) (a + 1) cmdIndex term] }) := by
  have hget : σ.log[a + 1]? = some (entryOf σ.calls e) := by
    rw [hlog, List.getElem?_cons_succ, List.getElem?_map, he, Option.map_some]
  refine .single (.deliver i (a + 1) cmdIndex term) ⟨?_, rfl⟩ ?_
  · exact hterm.imp_right fun h => ⟨_, hget, h⟩
  · have hguard : (entryOf σ.calls e).isInternalLog = false ∧ (σ.replicas i).pos < a + 1 ∧
        ∀ k < a + 1, (σ.replicas i).pos < k → ∀ e ∈ σ.log[k]?, e.isInternalLog = true := by
      refine ⟨hint, by omega, fun k hk hlow b hb => ?_⟩
      obtain ⟨j, rfl⟩ : ∃ j, k = j + 1 := ⟨k - 1, by omega⟩
      rw [hlog, List.getElem?_cons_succ, List.getElem?_map] at hb
      obtain ⟨c, hc, rfl⟩ := Option.map_eq_some_iff.mp (Option.mem_def.mp hb)
      exact hgap j c (by omega) (by omega) hc
    simp only [Service.step, Replica.deliver]
    rw [hget]
    dsimp only
    rw [if_pos hguard, Option.map_some]

/-- The service is sent the entries that a section of the Raft layer conveys.

**Proof sketch.** Induction on the number of indexes. An internal entry is passed over, and any
other one is the next that the service may be sent. -/
lemma reach_deliver {D : List (LogEntry ℕ)} {i : Fin n} {b : ℕ} (rf : Raft n ℕ ℕ)
    (encoded : List KVState) (filled : ℕ → Bool) : ∀ (m a num : ℕ) (σ : Service n), a + m = b →
    σ.log = Raft.dummyLog 0 0 0 :: D.map (entryOf σ.calls) →
    (∀ k, a ≤ k → k < b → ∃ e, rf.logAt (k + 1) = some e ∧ e.logIndex = k + 1 ∧ D[k]? = some e ∧
      (e.isInternalLog = false → Origin σ.calls e)) →
    (σ.replicas i).pos ≤ a → Silent D (σ.replicas i).pos a →
    ∃ p ≤ b, Silent D p b ∧
      Transition.Reach Service.step Quiet σ (σ.setReplica i { σ.replicas i with
        pos := p
        applyCh := (σ.replicas i).applyCh ++ ((rf.applyMsgs a b).zipIdx num).map fun x =>
          messageOf σ.calls encoded (filled x.2) x.1 })
  | 0, a, num, σ, hab, _, _, hpos, hgap => by
    obtain rfl : a = b := by omega
    refine ⟨(σ.replicas i).pos, hpos, hgap, ?_⟩
    rw [Raft.applyMsgs_self, List.zipIdx_nil, List.map_nil, List.append_nil, setReplica_self]
    exact .refl
  | m + 1, a, num, σ, hab, hlog, hat, hpos, hgap => by
    obtain ⟨e, he, hidx, hD, horigin⟩ := hat a le_rfl (by omega)
    have hat' : ∀ k, a + 1 ≤ k → k < b → ∃ e, rf.logAt (k + 1) = some e ∧ e.logIndex = k + 1 ∧
        D[k]? = some e ∧ (e.isInternalLog = false → Origin σ.calls e) :=
      fun k hk => hat k (by omega)
    rw [Raft.applyMsgs_of_lt rf (show a < b by omega)]
    cases hint : e.isInternalLog with
    | true =>
      have hnone : rf.applyMsgAt (a + 1) = none := by simp [Raft.applyMsgAt, he, hint]
      rw [hnone, Option.toList_none, List.nil_append]
      refine reach_deliver rf encoded filled m (a + 1) num σ (by omega) hlog hat' (by omega) ?_
      intro k e' hlow hk he'
      rcases Nat.lt_succ_iff_lt_or_eq.mp hk with hk | rfl
      · exact hgap k e' hlow hk he'
      · obtain rfl := Option.some.inj (hD.symm.trans he')
        exact hint
    | false =>
      obtain ⟨cmdIndex, term, hterm, hmsg⟩ :=
        entryMsg_entryOf hint (horigin hint) encoded (filled num)
      have hsome : rf.applyMsgAt (a + 1) = some {
          commandValid := true
          command := e.command
          commandIndex := e.commandIndex
          logIndex := e.logIndex } := by
        simp [Raft.applyMsgAt, he, hint]
      have hsent := hmsg {
        commandValid := true
        command := e.command
        commandIndex := e.commandIndex
        logIndex := e.logIndex } rfl rfl rfl
      rw [hidx] at hsent
      have hfirst := deliver_entry hlog hD hint hpos hgap cmdIndex hterm
      rw [← hsent] at hfirst
      generalize hr : ({ σ.replicas i with
        pos := a + 1
        applyCh := (σ.replicas i).applyCh ++ [messageOf σ.calls encoded (filled num) {
          commandValid := true
          command := e.command
          commandIndex := e.commandIndex
          logIndex := a + 1 }] } : Replica) = r at hfirst
      have hself : (σ.setReplica i r).replicas i = r := by simp [Service.setReplica]
      have hrpos : r.pos = a + 1 := by rw [← hr]
      obtain ⟨p, hp, hsilent, hrest⟩ := reach_deliver rf encoded filled m (a + 1) (num + 1)
        (σ.setReplica i r) (by omega) hlog hat' (by rw [hself, hrpos])
        (by rw [hself, hrpos]; intro k e' hlow hk; omega)
      refine ⟨p, hp, hsilent, hfirst.trans ?_⟩
      rw [setReplica_setReplica, hself] at hrest
      rw [hsome, hidx, Option.toList_some, List.singleton_append, List.zipIdx_cons, List.map_cons,
        List.append_cons]
      subst hr
      exact hrest

end KvRaft

end Mit6824
