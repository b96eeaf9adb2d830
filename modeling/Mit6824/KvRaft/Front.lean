import Mit6824.KvRaft.Advances

set_option autoImplicit false

/-!
# Handlers and clerks over the Raft cluster

Handlers and clerks work on the maps of their server, on the calls and on the requests, and on
nothing else of the service. A step of theirs is therefore the same step whatever the log, the apply
channels and the snapshots are, and it leaves a system with a committed log behind it as it was.

## Main definitions

* `Mit6824.KvRaft.Steady` — accepted calls stay, and no call is accepted.
* `Mit6824.KvRaft.Service.over` — the handlers and clerks of one service over the rest of another.

## Main results

* `Mit6824.KvRaft.step_over` — handlers and clerks see nothing else of a service.
* `Mit6824.KvRaft.System.Backed.front_step` — a step of a handler or a clerk of the system is one of
  the service, and the system stays backed.
-/

namespace Mit6824

namespace KvRaft

variable {n : ℕ}

/-! ## Handlers and clerks -/

/-- No call is accepted that was not, and accepted calls keep their operations. -/
structure Steady (calls calls' : List (Call n)) : Prop where
  keeps : Keeps calls calls'
  back : ∀ k : ℕ, ∀ call' ∈ calls'[k]?, ∀ cmdIndex term, call'.op.AcceptedAt cmdIndex term →
    ∃ call ∈ calls[k]?, call.op.AcceptedAt cmdIndex term

section Steady

variable {calls calls' : List (Call n)}

/-- Only the operations of the calls count. -/
lemma Steady.of_op (h : calls'.map Call.op = calls.map Call.op) : Steady calls calls' := by
  have hget : ∀ k : ℕ, (calls'[k]?).map Call.op = (calls[k]?).map Call.op := fun k => by
    rw [← List.getElem?_map, h, List.getElem?_map]
  refine ⟨.of_op fun k call hcall => ?_, fun k call' hcall' cmdIndex term hacc => ?_⟩
  · have hk := hget k
    rw [Option.mem_def.mp hcall] at hk
    exact Option.map_eq_some_iff.mp hk
  · have hk := (hget k).symm
    rw [Option.mem_def.mp hcall'] at hk
    obtain ⟨call, hcall, hop⟩ := Option.map_eq_some_iff.mp hk
    exact ⟨call, hcall, hop ▸ hacc⟩

/-- A call that is replaced without being accepted before or after. -/
lemma Steady.set {k : ℕ} {call call' : Call n} (hcall : calls[k]? = some call)
    (hbare : call.op.request = call.op)
    (hnot : ∀ cmdIndex term, ¬ call'.op.AcceptedAt cmdIndex term) :
    Steady calls (calls.set k call') := by
  refine ⟨fun j old hold cmdIndex term hacc => ?_, fun j new hnew cmdIndex term hacc => ?_⟩
  · have hne : k ≠ j := by
      rintro rfl
      obtain rfl : call = old := Option.some.inj (hcall.symm.trans hold)
      exact ComesFrom.not_acceptedAt hbare _ _ hacc
    exact ⟨old, by rwa [Option.mem_def, List.getElem?_set_ne hne], rfl⟩
  · by_cases hj : k = j
    · subst hj
      rw [Option.mem_def, List.getElem?_set_self (List.getElem?_eq_some_iff.mp hcall).1] at hnew
      obtain rfl := Option.some.inj hnew
      exact absurd hacc (hnot _ _)
    · rw [Option.mem_def, List.getElem?_set_ne hj] at hnew
      exact ⟨new, hnew, hacc⟩

/-- A call that is new and has not been to `Start`. -/
lemma Steady.concat {call : Call n} (hbare : call.op.request = call.op) :
    Steady calls (calls ++ [call]) := by
  refine ⟨.of_op fun k old hold => ?_, fun k new hnew cmdIndex term hacc => ?_⟩
  · refine ⟨old, ?_, rfl⟩
    rw [Option.mem_def, List.getElem?_append_left (List.getElem?_eq_some_iff.mp hold).1]
    exact hold
  · rcases Nat.lt_or_ge k calls.length with hlt | hge
    · rw [Option.mem_def, List.getElem?_append_left hlt] at hnew
      exact ⟨new, hnew, hacc⟩
    · rw [Option.mem_def, List.getElem?_append_right hge] at hnew
      have hmem := List.mem_of_getElem? hnew
      obtain rfl := List.mem_singleton.mp hmem
      exact absurd hacc (ComesFrom.not_acceptedAt hbare _ _)

/-- A call that is accepted now was there before, with the same operation. -/
lemma Steady.old (h : Steady calls calls') {k : ℕ} {call' : Call n} (hcall' : call' ∈ calls'[k]?)
    {cmdIndex term : ℕ} (hacc : call'.op.AcceptedAt cmdIndex term) :
    ∃ call ∈ calls[k]?, call.op = call'.op := by
  obtain ⟨call, hcall, hacc'⟩ := h.back k call' hcall' _ _ hacc
  obtain ⟨call'', hcall'', hop⟩ := h.keeps k call hcall _ _ hacc'
  obtain rfl := Option.some.inj ((Option.mem_def.mp hcall').symm.trans hcall'')
  exact ⟨call, hcall, hop.symm⟩

/-- Calls stay apart when no call is accepted that was not. -/
lemma Apart.steady (h : Apart calls) (hs : Steady calls calls') : Apart calls' := by
  intro k k' call hcall call' hcall' cmdIndex term hacc hacc'
  obtain ⟨old, hold, hacc⟩ := hs.back k call hcall _ _ hacc
  obtain ⟨old', hold', hacc'⟩ := hs.back k' call' hcall' _ _ hacc'
  exact h k k' old hold old' hold' cmdIndex term hacc hacc'

/-- A call that `Start` refused is accepted nowhere. -/
lemma not_acceptedAt_neg {call : Call n} (phase : Phase) (cmdIndex term : ℕ) :
    ¬ (call.start (-1) (-1) phase).op.AcceptedAt cmdIndex term := by
  rintro ⟨-, hterm, -⟩
  change (-1 : ℤ) = term at hterm
  omega

end Steady

/-- The key/value servers, handlers and clerks of `τ` over the rest of `σ`. -/
def Service.over (τ σ : Service n) : Service n where
  log := σ.log
  replicas i := { σ.replicas i with kv := (τ.replicas i).kv }
  installs := σ.installs
  requests := τ.requests
  calls := τ.calls
  clerks := τ.clerks

/-- The key/value servers come from the first service. -/
@[simp]
lemma kv_over (τ σ : Service n) (i : Fin n) :
    ((τ.over σ).replicas i).kv = (τ.replicas i).kv := rfl

/-- A change of a key/value server is a change in the first service. -/
lemma setKV_over (τ σ : Service n) (i : Fin n) (kv : KVServer) :
    (τ.over σ).setKV i kv = (τ.setKV i kv).over σ := by
  have hreplicas : Function.update (τ.over σ).replicas i { (τ.over σ).replicas i with kv := kv } =
      ((τ.setKV i kv).over σ).replicas := by
    funext j
    by_cases hj : j = i
    · subst hj
      simp [Service.over, Service.setKV, Service.setReplica]
    · simp [Service.over, Service.setKV, Service.setReplica, hj]
  unfold Service.setKV Service.setReplica
  rw [hreplicas]
  rfl

/-- Handlers see nothing else. -/
lemma callStep_over (τ σ : Service n) (k : ℕ) (call : Call n) (ev : CallEvent) :
    (τ.over σ).callStep k call ev = (τ.callStep k call ev).map fun ρ => ρ.over σ := by
  cases ev <;> cases hphase : call.phase <;> simp only [Service.callStep, hphase] <;> try rfl
  case startAccepted.received => split_ifs <;> rfl
  case register.started =>
    rw [Option.map_some]
    rw [setKV_over]
    rfl
  case signal.waiting =>
    rw [kv_over]
    cases (τ.replicas call.server).kv.contexts k with
    | none => rfl
    | some ctx =>
      dsimp only
      split_ifs <;> rfl
  case cleanup.answered =>
    rw [Option.map_some]
    rw [setKV_over]
    rfl

/-- **Handlers and clerks see nothing else** of a service. -/
lemma step_over (τ σ : Service n) {ev : Event n} (hev : ev.ofFront = true) :
    (τ.over σ).step ev = (τ.step ev).map fun ρ => ρ.over σ := by
  cases ev with
  | issue client type key value =>
    simp only [Service.step, Service.issue, Service.over]
    cases (τ.clerks client).pending <;> rfl
  | receive i r =>
    simp only [Service.step, Service.over]
    cases τ.requests[r]? <;> rfl
  | call k ev =>
    change τ.calls[k]?.bind _ = (τ.calls[k]?.bind _).map _
    cases τ.calls[k]? with
    | none => rfl
    | some call => exact callStep_over τ σ k call ev
  | acknowledge client k =>
    change τ.calls[k]?.bind _ = (τ.calls[k]?.bind _).map _
    cases τ.calls[k]? with
    | none => rfl
    | some call =>
      simp only [Option.bind_some, Service.acknowledge, Service.over]
      cases call.phase <;> cases (τ.clerks client).pending <;> dsimp only <;> try rfl
      split_ifs <;> rfl
  | _ => simp [Event.ofFront] at hev

/-- Nothing is assumed about handlers and clerks. -/
lemma Service.assumed_of_front (σ : Service n) {ev : Event n} (hev : ev.ofFront = true) :
    σ.Assumed ev := by
  unfold Event.ofFront at hev
  split at hev
  case h_6 hcall =>
    unfold Service.Assumed
    split <;> simp_all
  all_goals first
    | exact trivial
    | simp at hev

/-- A handler goes on with its operation. -/
lemma Steady.phase {calls : List (Call n)} {k : ℕ} {call : Call n} (hcall : calls[k]? = some call)
    (phase : Phase) : Steady calls (calls.set k { call with phase := phase }) := by
  obtain ⟨hlt, rfl⟩ := List.getElem?_eq_some_iff.mp hcall
  refine .of_op ?_
  rw [List.map_set]
  simpa using List.set_getElem_self (show k < (calls.map Call.op).length by simpa using hlt)

/-- A change that leaves the index applied last leaves it for all servers. -/
lemma setKV_lastAppliedIndex (σ : Service n) {i : Fin n} {kv : KVServer}
    (h : kv.lastAppliedIndex = (σ.replicas i).kv.lastAppliedIndex) (j : Fin n) :
    ((σ.setKV i kv).replicas j).kv.lastAppliedIndex = (σ.replicas j).kv.lastAppliedIndex := by
  by_cases hj : j = i
  · subst hj
    simpa [Service.setKV, Service.setReplica] using h
  · simp [Service.setKV, Service.setReplica, hj]

/-- A step of a handler accepts no call and leaves the index applied last.

**Proof sketch.** By the phase of the call. Only `Start` can accept a call, and its events are not
those of handlers; a refusal brings `-1`, at which no call is accepted. -/
lemma callStep_effect {σ τ : Service n} (h : σ.Waiters) {k : ℕ} {call : Call n} {ev : CallEvent}
    (hcall : σ.calls[k]? = some call) (hev : Event.ofFront (n := n) (.call k ev) = true)
    (hstep : σ.callStep k call ev = some τ) : Steady σ.calls τ.calls ∧
      ∀ i, (τ.replicas i).kv.lastAppliedIndex = (σ.replicas i).kv.lastAppliedIndex := by
  unfold Service.callStep at hstep
  split at hstep
  · rename_i hphase
    obtain rfl := Option.some.inj hstep
    have hsound := h.calls call (List.mem_of_getElem? hcall)
    rw [Call.Sound, hphase] at hsound
    exact ⟨.set hcall hsound fun _ _ => not_acceptedAt_neg _ _ _, fun _ => rfl⟩
  · simp [Event.ofFront] at hev
  · simp [Event.ofFront] at hev
  · obtain rfl := Option.some.inj hstep
    exact ⟨.phase hcall _, setKV_lastAppliedIndex σ rfl⟩
  · split at hstep
    · simp at hstep
    · split_ifs at hstep
      obtain rfl := Option.some.inj hstep
      exact ⟨.phase hcall _, fun _ => rfl⟩
  · obtain rfl := Option.some.inj hstep
    exact ⟨.phase hcall _, fun _ => rfl⟩
  · obtain rfl := Option.some.inj hstep
    exact ⟨.phase hcall _, setKV_lastAppliedIndex σ (KVServer.cleanup_frame _ _ _).2.1⟩
  · simp at hstep

/-- What a step of a handler or a clerk does to the calls and the servers. -/
lemma front_effect {σ τ : Service n} (h : σ.Waiters) {ev : Event n} (hev : ev.ofFront = true)
    (hstep : σ.step ev = some τ) : Steady σ.calls τ.calls ∧
      ∀ i, (τ.replicas i).kv.lastAppliedIndex = (σ.replicas i).kv.lastAppliedIndex := by
  cases ev with
  | issue client type key value =>
    simp only [Service.step, Service.issue] at hstep
    split at hstep
    · simp at hstep
    · obtain rfl := Option.some.inj hstep
      exact ⟨.of_op rfl, fun _ => rfl⟩
  | receive i r =>
    obtain ⟨op, hop, rfl⟩ := Option.map_eq_some_iff.mp hstep
    exact ⟨.concat (h.ledger.bare op (List.mem_of_getElem? hop)), fun _ => rfl⟩
  | call k ev =>
    obtain ⟨call, hcall, hcs⟩ := Option.bind_eq_some_iff.mp hstep
    exact callStep_effect h hcall hev hcs
  | acknowledge client k =>
    obtain ⟨call, -, hack⟩ := Option.bind_eq_some_iff.mp hstep
    unfold Service.acknowledge at hack
    split at hack
    · split_ifs at hack
      obtain rfl := Option.some.inj hack
      exact ⟨.of_op rfl, fun _ => rfl⟩
    · simp at hack
  | _ => simp [Event.ofFront] at hev

namespace System.Backed

variable {filled : Fin n → ℕ → Bool} {s s' : System n} {G G' : Ghost n ℕ}
  {D : List (LogEntry ℕ)} {pos : Fin n → ℕ} {installs : List (ℕ × Option KVState)}

/-! ## Steps of handlers and clerks -/

/-- The system with other handlers, clerks and key/value servers. -/
lemma front (h : s.Backed G D pos installs) (τ : Service n) (hkeeps : Keeps s.calls τ.calls)
    (hapart : Apart τ.calls)
    (happlied : ∀ i, (τ.replicas i).kv.lastAppliedIndex = (s.kv i).lastAppliedIndex) :
    (s.setFront τ).Backed G D pos installs where
  run := h.run
  refines := h.refines
  done_le := h.done_le
  done_eq := h.done_eq
  origin e he hint := (h.origin e he hint).keep hkeeps
  entries := h.entries.mono fun e he => he.keep hkeeps
  apart := hapart
  seats i := by
    have hseat := h.seats i
    exact ⟨hseat.pos_le, hseat.silent, hseat.captured, hseat.snapshot, hseat.chan, hseat.received,
      hseat.applied.trans (happlied i).symm⟩
  installed := h.installed

/-- The service behind a system whose handlers and clerks are replaced.

**Proof sketch.** The entries of the committed log and the messages in the channels mean the same,
because accepted calls keep their operations. -/
lemma service_front (h : s.Backed G D pos installs) (τ : Service n)
    (hkeeps : Keeps s.calls τ.calls) :
    (s.setFront τ).service filled D pos installs = τ.over (s.service filled D pos installs) := by
  have hlog : D.map (entryOf τ.calls) = D.map (entryOf s.calls) :=
    List.map_congr_left fun e he => entryOf_keep (h.origin e he) hkeeps
  have hreplica : ∀ i, (s.setFront τ).replica filled i (pos i) =
      { s.replica filled i (pos i) with kv := (τ.replicas i).kv } := by
    intro i
    have hchannel : (s.setFront τ).channel filled i = s.channel filled i := by
      refine h.channel_keep ?_ ?_ ?_ ?_
      · exact hkeeps
      · exact List.prefix_rfl
      · rfl
      · rfl
    unfold System.replica
    rw [hchannel]
    rfl
  unfold System.service Service.over
  simp only [hreplica]
  rw [show (s.setFront τ).calls = τ.calls from rfl, hlog]
  rfl

/-- A step of a handler or of a clerk is one of the service. -/
lemma front_step (h : s.Backed G D pos installs)
    (hreach : Transition.Reach Service.step Service.Assumed Service.init
      (s.service filled D pos installs)) {ev : Event n}
    (hstep : s.step filled (.front ev) = some s') :
    (s.service filled D pos installs).step ev = some (s'.service filled D pos installs) ∧
      s'.Backed G D pos installs ∧ Steady s.calls s'.calls := by
  simp only [System.step] at hstep
  split_ifs at hstep with hev
  obtain ⟨τ, hτ, rfl⟩ := Option.map_eq_some_iff.mp hstep
  have hover : (s.service filled [] (fun _ => 0) []).over (s.service filled D pos installs) =
      s.service filled D pos installs := rfl
  have hstep' : (s.service filled D pos installs).step ev =
      some (τ.over (s.service filled D pos installs)) := by
    rw [← hover, step_over _ _ hev, hτ, hover]
    rfl
  obtain ⟨hs, happlied⟩ := front_effect (Service.Waiters.of_reach hreach) hev hstep'
  replace hs : Steady s.calls τ.calls := hs
  exact ⟨by rw [h.service_front τ hs.keeps]; exact hstep',
    h.front τ hs.keeps (h.apart.steady hs) happlied, hs⟩

end System.Backed

end KvRaft

end Mit6824
