import Mit6824.KvRaft.Replies
import Mit6824.Models.Kv

set_option autoImplicit false

/-!
# The history that the test records

The clients of `GenericTestLinearizability` (`kvraft/test_test.go`) over the service. A client reads
the time, has its clerk do an operation, reads the time again and adds the operation to the history.
The invariant gives every operation of the history a place in the committed log: a write takes
effect at its first entry, and a read at the entry of the call that was answered.

## Main definitions

* `Mit6824.KvRaft.Stage`, `Mit6824.KvRaft.Clients` — the clients.
* `Mit6824.KvRaft.Tested`, `Mit6824.KvRaft.Tested.step` — the clients with the service.
* `Mit6824.KvRaft.Effect` — the place in the log where a request takes effect.
* `Mit6824.KvRaft.Mark` — an operation of the history with its request and its place.
* `Mit6824.KvRaft.Tested.Inv` — the invariant.

## Main results

* `Mit6824.KvRaft.Tested.Inv.of_reach` — every state of every run has its marks.

## Design

* The clock counts the readings of the time, so that no two of them are the same.
* Each clerk belongs to one client, which is named by the clerk's id; the number that goes into the
  history is chosen when the client starts.
* The kind of an operation, its key and its value are chosen at random by the source and arbitrary
  here.
-/

namespace Mit6824

namespace KvRaft

open LogMachine Models Porcupine

/-! ## The clients -/

/-- The input of an operation as the test records it. -/
def kvInput (type : OpType) (key value : String) : KvInput :=
  match type with
  | .get => ⟨0, key, ""⟩
  | .put => ⟨1, key, value⟩
  | .append => ⟨2, key, value⟩

/-- What `Get` returns for a reply that ends its loop; the output of a write is left empty. -/
def kvOutput (type : OpType) (reply : Reply) : KvOutput :=
  match type, reply.err with
  | .get, .ok => ⟨reply.value⟩
  | _, _ => ⟨""⟩

/-- Where a client of the test stands: before an operation, after the first reading of the time,
during the operation, after it, and after the second reading of the time. -/
inductive Stage
  | idle
  | timed (cli start : ℤ)
  | called (cli start : ℤ) (inp : KvInput)
  | returned (cli start : ℤ) (inp : KvInput) (out : KvOutput)
  | finished (operation : Porcupine.Operation KvInput KvOutput)
deriving DecidableEq

/-- The client has an operation that is not in the history. -/
def Stage.busy : Stage → Bool
  | .idle => false
  | .timed _ _ => false
  | _ => true

/-- The clients of the test: the time, where each client stands, and the history. -/
structure Clients where
  clock : ℤ
  stage : ℤ → Stage
  operations : List (Porcupine.Operation KvInput KvOutput)

/-- What a client does outside of its clerk: it reads the time before and after an operation, and
records the operation. -/
inductive ClientEvent
  | start (client cli : ℤ)
  | finish (client : ℤ)
  | record (client : ℤ)

namespace Clients

/-- No operation so far. -/
def init : Clients := ⟨0, fun _ => .idle, []⟩

/-- One client goes on. -/
def setStage (cs : Clients) (client : ℤ) (s : Stage) : Clients :=
  { cs with stage := Function.update cs.stage client s }

/-- What a step of the service with these calls means for the clients: a clerk is called after the
time has been read, and it returns what the reply says. -/
def serve {n : ℕ} (cs : Clients) (calls : List (Call n)) : Event n → Option Clients
  | .issue client type key value =>
    match cs.stage client with
    | .timed cli start => some (cs.setStage client (.called cli start (kvInput type key value)))
    | _ => none
  | .acknowledge client k =>
    match cs.stage client, calls[k]? with
    | .called cli start inp, some call =>
      match call.phase with
      | .replied reply _ =>
        some (cs.setStage client (.returned cli start inp (kvOutput call.op.type reply)))
      | _ => none
    | _, _ => none
  | _ => some cs

/-- One step of a client; every reading of the time advances the clock. -/
def step (cs : Clients) : ClientEvent → Option Clients
  | .start client cli =>
    match cs.stage client with
    | .idle => some { cs.setStage client (.timed cli cs.clock) with clock := cs.clock + 1 }
    | _ => none
  | .finish client =>
    match cs.stage client with
    | .returned cli start inp out => some
        { cs.setStage client (.finished ⟨cli, inp, start, out, cs.clock⟩) with
          clock := cs.clock + 1 }
    | _ => none
  | .record client =>
    match cs.stage client with
    | .finished operation =>
      some { cs.setStage client .idle with operations := cs.operations ++ [operation] }
    | _ => none

end Clients

/-- The service under test. -/
structure Tested (n : ℕ) extends Clients where
  service : Service n

/-- A step of the service, or one of a client outside of its clerk. -/
inductive TestEvent (n : ℕ)
  | service (ev : Event n)
  | client (ev : ClientEvent)

namespace Tested

variable {n : ℕ}

/-- A new service and no operation. -/
def init : Tested n := ⟨.init, .init⟩

/-- One step of the test, `none` when it cannot happen. -/
def step (t : Tested n) : TestEvent n → Option (Tested n)
  | .service ev =>
    match t.service.step ev, t.toClients.serve t.service.calls ev with
    | some σ, some cs => some ⟨cs, σ⟩
    | _, _ => none
  | .client ev => (t.toClients.step ev).map fun cs => { t with toClients := cs }

/-- Raft keeps its promises. -/
def Assumed (t : Tested n) : TestEvent n → Prop
  | .service ev => t.service.Assumed ev
  | .client _ => True

instance (t : Tested n) (ev : TestEvent n) : Decidable (t.Assumed ev) := by
  unfold Assumed
  split <;> infer_instance

end Tested

/-! ## Steps of the service, as the clerks see them -/

namespace Service

variable {n : ℕ} {σ σ' : Service n}

/-- The last request of a clerk. -/
structure LastRequest (σ : Service n) (client : ℤ) (op : Op) : Prop where
  mem : op ∈ σ.requests
  clientId : op.clientId = client
  seqId : op.seqId = (σ.clerks client).seqId

/-- A step of a handler leaves the log, the requests and the clerks. -/
lemma callStep_frame {k : ℕ} {call : Call n} {ev : CallEvent}
    (h : σ.callStep k call ev = some σ') :
    σ'.log = σ.log ∧ σ'.requests = σ.requests ∧ σ'.clerks = σ.clerks := by
  unfold Service.callStep at h
  split at h
  case h_3 => split_ifs at h; exact Option.some.inj h ▸ ⟨rfl, rfl, rfl⟩
  case h_5 =>
    split at h
    · simp at h
    · split_ifs at h
      exact Option.some.inj h ▸ ⟨rfl, rfl, rfl⟩
  case h_8 => simp at h
  all_goals exact Option.some.inj h ▸ ⟨rfl, rfl, rfl⟩

/-- All other steps leave requests and clerks alone, and the log grows at its end. -/
lemma step_frame {ev : Event n} (h : σ.step ev = some σ')
    (hissue : ∀ client type key value, ev ≠ .issue client type key value)
    (hack : ∀ client k, ev ≠ .acknowledge client k) :
    σ.log <+: σ'.log ∧ σ'.requests = σ.requests ∧ σ'.clerks = σ.clerks := by
  cases ev with
  | commit entry =>
    simp only [Service.step] at h
    split_ifs at h
    exact Option.some.inj h ▸ ⟨List.prefix_append _ _, rfl, rfl⟩
  | deliver i index cmdIndex term =>
    obtain ⟨r, -, rfl⟩ := Option.map_eq_some_iff.mp h
    exact ⟨List.prefix_rfl, rfl, rfl⟩
  | apply i | takeSnapshot i =>
    obtain ⟨r, -, rfl⟩ := Option.map_eq_some_iff.mp h
    exact ⟨List.prefix_rfl, rfl, rfl⟩
  | capture i | sendInstall i | restart i =>
    exact Option.some.inj h ▸ ⟨List.prefix_rfl, rfl, rfl⟩
  | installSnapshot i m | receive i m =>
    obtain ⟨s, -, rfl⟩ := Option.map_eq_some_iff.mp h
    exact ⟨List.prefix_rfl, rfl, rfl⟩
  | issue client type key value => exact absurd rfl (hissue client type key value)
  | call k ev =>
    obtain ⟨call, -, hstep⟩ := Option.bind_eq_some_iff.mp h
    obtain ⟨hlog, hrest⟩ := callStep_frame hstep
    exact ⟨hlog ▸ List.prefix_rfl, hrest⟩
  | acknowledge client k => exact absurd rfl (hack client k)

/-- A clerk without a pending operation issues its next request. -/
lemma step_issue {client : ℤ} {type : OpType} {key value : String}
    (h : σ.step (.issue client type key value) = some σ') :
    ∃ op : Op, op.clientId = client ∧ op.seqId = (σ.clerks client).seqId + 1 ∧
      op.request = op ∧ kvInput op.type op.key op.value = kvInput type key value ∧
      (σ.clerks client).pending = none ∧ σ'.log = σ.log ∧ σ'.requests = σ.requests ++ [op] ∧
      σ'.clerks = Function.update σ.clerks client ⟨op.seqId, some op⟩ := by
  simp only [Service.step, Service.issue] at h
  split at h
  · simp at h
  · rename_i hfree
    refine ⟨{
      key := key
      value := if type = .get then "" else value
      type := type
      clientId := client
      seqId := (σ.clerks client).seqId + 1 }, rfl, rfl, rfl, ?_, hfree, ?_⟩
    · cases type <;> rfl
    · exact Option.some.inj h ▸ ⟨rfl, rfl, rfl⟩

/-- A clerk takes the reply of a call to its pending operation. -/
lemma step_acknowledge {client : ℤ} {k : ℕ}
    (h : σ.step (.acknowledge client k) = some σ') :
    ∃ call ∈ σ.calls[k]?, ∃ reply signals op, call.phase = .replied reply signals ∧
      (σ.clerks client).pending = some op ∧ reply.err ≠ .errWrongLeader ∧
      call.op.request = op ∧ σ'.log = σ.log ∧ σ'.requests = σ.requests ∧
      σ'.clerks = Function.update σ.clerks client ⟨(σ.clerks client).seqId, none⟩ := by
  obtain ⟨call, hcall, hack⟩ := Option.bind_eq_some_iff.mp h
  unfold Service.acknowledge at hack
  split at hack
  · rename_i reply signals op hphase hpend
    split_ifs at hack with hreply
    refine ⟨call, hcall, reply, signals, op, hphase, hpend, hreply.1, hreply.2, ?_⟩
    exact Option.some.inj hack ▸ ⟨rfl, rfl, rfl⟩
  · simp at hack

end Service

/-! ## Places in the log -/

section Effect

variable {log log' : List (LogEntry Op)} {op : Op} {out : KvOutput} {p : ℕ}

/-- The request takes effect at index `p`, with this output: a write at its first entry, a read at
an entry of its own, where it sees what its key held just before. -/
structure Effect (log : List (LogEntry Op)) (op : Op) (out : KvOutput) (p : ℕ) : Prop where
  entry : ∃ e op', Visible log p e op' ∧ op'.request = op.request
  read : op.type = .get → out.value = ((stateAt log (p - 1)).kvStore op.key).getD ""
  first : op.type ≠ .get → op.tag ∉ (opsOf (log.take p)).map Op.tag

/-- The place of an effect is in the log. -/
lemma Effect.lt (h : Effect log op out p) : p < log.length := by
  obtain ⟨e, op', hvis, -⟩ := h.entry
  exact (List.getElem?_eq_some_iff.mp hvis.get).1

/-- An effect stays in its place in a longer log. -/
lemma Effect.extend (h : Effect log op out p) (hlog : log <+: log') : Effect log' op out p := by
  refine ⟨?_, ?_, ?_⟩
  · obtain ⟨e, op', hvis, hreq⟩ := h.entry
    exact ⟨e, op', hvis.extend hlog, hreq⟩
  · rw [stateAt_pred_extend h.lt hlog]
    exact h.read
  · obtain ⟨rest, rfl⟩ := hlog
    rw [List.take_append_of_le_length h.lt.le]
    exact h.first

/-- A committed write has a first entry.

**Proof sketch.** Take the first entry with the tag of the write; before it the tag does not occur.
-/
lemma exists_effect_of_write (hwrite : op.type ≠ .get)
    (huniq : ∀ op' ∈ opsOf log, op'.tag = op.tag → op'.request = op.request)
    (hmem : op.tag ∈ (opsOf log).map Op.tag) (out : KvOutput) : ∃ p, Effect log op out p := by
  classical
  have hex : ∃ p e op', Visible log p e op' ∧ op'.tag = op.tag := by
    obtain ⟨op', hop', htag⟩ := List.mem_map.mp hmem
    obtain ⟨p, e, hvis⟩ := mem_opsOf_iff.mp hop'
    exact ⟨p, e, op', hvis, htag⟩
  obtain ⟨e, op', hvis, htag⟩ := Nat.find_spec hex
  refine ⟨Nat.find hex, ⟨e, op', hvis, huniq op' (mem_opsOf_iff.mpr ⟨_, _, hvis⟩) htag⟩,
    fun hget => absurd hget hwrite, fun _ hseen => ?_⟩
  obtain ⟨old, hold, hsame⟩ := List.mem_map.mp hseen
  obtain ⟨i, e', hv⟩ := mem_opsOf_iff.mp hold
  have hi := (List.getElem?_eq_some_iff.mp hv.get).1
  rw [List.length_take] at hi
  exact Nat.find_min hex (lt_of_lt_of_le hi (min_le_left _ _))
    ⟨e', old, hv.extend (List.take_prefix _ _), hsame⟩

/-- **An answered request has had its effect.** A read is answered from its own entry, and a write
that is answered has an entry, so it has a first one. -/
lemma Service.Waiters.exists_effect {n : ℕ} {σ : Service n} (h : σ.Waiters) {k : ℕ} {call : Call n}
    {reply : Reply} {signals : List ℕ} (hcall : σ.calls[k]? = some call)
    (hphase : call.phase = .replied reply signals) (hreply : reply.err ≠ .errWrongLeader) :
    ∃ p, Effect σ.log call.op.request (kvOutput call.op.type reply) p := by
  have hsound := (h.calls call (List.mem_of_getElem? hcall)).reply (.inr hphase)
  obtain ⟨p, -, ⟨e, own, hvis, hown, -⟩, hread⟩ := hsound hreply
  by_cases hget : call.op.type = .get
  · refine ⟨p, ⟨e, own, hvis, hown⟩, fun _ => ?_, fun hwrite => absurd hget hwrite⟩
    rcases hread hget with ⟨hok, hval⟩ | ⟨hno, hval⟩
    · simp [kvOutput, hget, hok, Op.request, hval]
    · simp [kvOutput, hget, hno, Op.request, hval]
  · have hmem : own ∈ opsOf σ.log := mem_opsOf_iff.mpr ⟨p, e, hvis⟩
    have hwrite : call.op.request.type ≠ .get := hget
    refine exists_effect_of_write hwrite (fun op' hop' htag => ?_) ?_ _
    · have hasked := h.ledger.request_mem hmem
      rw [hown] at hasked
      exact h.ledger.request_unique (h.ledger.request_mem hop') hasked htag
    · exact List.mem_map.mpr ⟨own, hmem, Op.tag_eq_of_request_eq hown⟩

/-- All entries of the request have at least this index. -/
def Late (log : List (LogEntry Op)) (op : Op) (k : ℕ) : Prop :=
  ∀ p e op', Visible log p e op' → op'.request = op.request → k ≤ p

/-- New entries are behind the old ones. -/
lemma Late.extend {k : ℕ} (h : Late log op k) (hk : k ≤ log.length) (hlog : log <+: log') :
    Late log' op k := by
  intro p e op' hvis hreq
  rcases Nat.lt_or_ge p log.length with hp | hp
  · refine h p e op' ⟨?_, hvis.visible, hvis.command⟩ hreq
    rw [← getElem?_extend hlog hp, hvis.get]
  · omega

/-- An effect is not before the first possible index. -/
lemma Late.le_of_effect {k : ℕ} (h : Late log op k) (he : Effect log op out p) : k ≤ p := by
  obtain ⟨e, op', hvis, hreq⟩ := he.entry
  exact h p e op' hvis hreq

end Effect

/-! ## The invariant -/

/-- An operation of the history with its request and its place in the log. -/
structure Mark where
  request : Op
  operation : Porcupine.Operation KvInput KvOutput
  point : ℕ

/-- The place of the mark lies between the readings of the time; `len` is the length of the log at
each time. -/
structure Mark.Fits (m : Mark) (log : List (LogEntry Op)) (len : ℤ → ℕ) : Prop where
  input : m.operation.input = kvInput m.request.type m.request.key m.request.value
  effect : Effect log m.request m.operation.output m.point
  after : len m.operation.call ≤ m.point
  upto : m.point < len m.operation.ret
  order : m.operation.call < m.operation.ret

section Fits

variable {n : ℕ} {σ σ' : Service n} {len : ℤ → ℕ} {clock clock' : ℤ} {client : ℤ}

/-- What holds of a client at each stage. -/
def Stage.Fits (σ : Service n) (len : ℤ → ℕ) (clock client : ℤ) : Stage → Prop
  | .idle => (σ.clerks client).pending = none
  | .timed _ start => (σ.clerks client).pending = none ∧ start < clock
  | .called _ start inp => start < clock ∧ ∃ op, σ.LastRequest client op ∧
      (σ.clerks client).pending = some op ∧ inp = kvInput op.type op.key op.value ∧
      Late σ.log op (len start)
  | .returned _ start inp out => start < clock ∧ (σ.clerks client).pending = none ∧
      ∃ op, σ.LastRequest client op ∧ inp = kvInput op.type op.key op.value ∧
        ∃ p, len start ≤ p ∧ Effect σ.log op out p
  | .finished operation => (σ.clerks client).pending = none ∧ operation.ret < clock ∧
      ∃ m : Mark, m.operation = operation ∧ σ.LastRequest client m.request ∧ m.Fits σ.log len

/-- The lengths of the log when its present length is `length`; what was read before stays. -/
def nextLen (len : ℤ → ℕ) (clock : ℤ) (length : ℕ) (k : ℤ) : ℕ :=
  if k < clock then len k else length

/-- What was read before stays. -/
lemma nextLen_of_lt {length : ℕ} {k : ℤ} (h : k < clock) : nextLen len clock length k = len k :=
  if_pos h

/-- A mark of the past stays in its place. -/
lemma Mark.Fits.next {m : Mark} {log log' : List (LogEntry Op)} (h : m.Fits log len)
    (hpast : m.operation.ret < clock) (hlog : log <+: log') :
    m.Fits log' (nextLen len clock log'.length) where
  input := h.input
  effect := h.effect.extend hlog
  after := by
    rw [nextLen_of_lt (h.order.trans hpast)]
    exact h.after
  upto := by
    rw [nextLen_of_lt hpast]
    exact h.upto
  order := h.order

/-- The last request of a clerk stays the last until the clerk counts on. -/
lemma Service.LastRequest.frame {op : Op} (h : σ.LastRequest client op)
    (hreq : σ.requests ⊆ σ'.requests)
    (hclerk : (σ'.clerks client).seqId = (σ.clerks client).seqId) : σ'.LastRequest client op :=
  ⟨hreq h.mem, h.clientId, by rw [hclerk, h.seqId]⟩

/-- A client whose clerk does nothing stays where it is.

**Proof sketch.** By the stage. What was read of the clock lies in the past, so the length of the
log at that time is kept, and effects keep their places in a longer log. -/
lemma Stage.Fits.next {s : Stage} (h : s.Fits σ len clock client) (hclock : clock ≤ clock')
    (hlog : σ.log <+: σ'.log) (hlen : ∀ k, len k ≤ σ.log.length)
    (hreq : σ.requests ⊆ σ'.requests) (hclerk : σ'.clerks client = σ.clerks client) :
    s.Fits σ' (nextLen len clock σ'.log.length) clock' client := by
  have hlast : ∀ op, σ.LastRequest client op → σ'.LastRequest client op :=
    fun op hop => hop.frame hreq (by rw [hclerk])
  cases s with
  | idle => simpa only [Stage.Fits, hclerk] using h
  | timed cli start =>
    obtain ⟨hpend, hstart⟩ := h
    exact ⟨by rw [hclerk, hpend], hstart.trans_le hclock⟩
  | called cli start inp =>
    obtain ⟨hstart, op, hop, hpend, hinp, hlate⟩ := h
    refine ⟨hstart.trans_le hclock, op, hlast op hop, by rw [hclerk, hpend], hinp, ?_⟩
    rw [nextLen_of_lt hstart]
    exact hlate.extend (hlen _) hlog
  | returned cli start inp out =>
    obtain ⟨hstart, hpend, op, hop, hinp, p, hp, heff⟩ := h
    refine ⟨hstart.trans_le hclock, by rw [hclerk, hpend], op, hlast op hop, hinp, p, ?_,
      heff.extend hlog⟩
    rwa [nextLen_of_lt hstart]
  | finished operation =>
    obtain ⟨hpend, hpast, m, rfl, hop, hfits⟩ := h
    exact ⟨by rw [hclerk, hpend], hpast.trans_le hclock, m, rfl, hlast _ hop,
      hfits.next hpast hlog⟩

end Fits

namespace Tested

variable {n : ℕ} {t t' : Tested n} {len : ℤ → ℕ} {marks : List Mark} {client : ℤ}

/-- The request is its clerk's last one, and the client has not recorded it yet. -/
def Open (t : Tested n) (op : Op) : Prop :=
  (t.stage op.clientId).busy = true ∧ op.seqId = (t.service.clerks op.clientId).seqId

/-- The invariant: `marks` are the operations of the history with their places in the log, and
every request is in the history unless its client is still busy with it. -/
structure Inv (t : Tested n) (len : ℤ → ℕ) (marks : List Mark) : Prop where
  waiters : t.service.Waiters
  mono : ∀ j k, j ≤ k → len j ≤ len k
  now : ∀ k, t.clock ≤ k → len k = t.service.log.length
  marked : marks.map Mark.operation = t.operations
  nodup : (marks.map Mark.request).Nodup
  fits : ∀ m ∈ marks, m.Fits t.service.log len
  past : ∀ m ∈ marks, m.operation.ret < t.clock
  asked : ∀ m ∈ marks, m.request ∈ t.service.requests
  recorded : ∀ op ∈ t.service.requests, op ∈ marks.map Mark.request ↔ ¬ t.Open op
  stages : ∀ client, (t.stage client).Fits t.service len t.clock client

namespace Inv

/-- The invariant holds before the first operation. -/
lemma init : (Tested.init : Tested n).Inv (fun _ => 1) [] where
  waiters := .init
  mono _ _ _ := le_rfl
  now _ _ := rfl
  marked := rfl
  nodup := List.nodup_nil
  fits := by simp
  past := by simp
  asked := by simp
  recorded := by simp [Tested.init, Service.init]
  stages _ := rfl

/-- The log only grows. -/
lemma len_le (h : t.Inv len marks) (k : ℤ) : len k ≤ t.service.log.length :=
  (h.mono _ _ (le_max_left k t.clock)).trans (h.now _ (le_max_right _ _)).le

/-- A step that records nothing: what is left to show is about the client that takes it.

**Proof sketch.** Marks of the past stay in their places, and clients whose clerks do nothing stay
in their stages. What was read of the length of the log before the clock stays, and the present
length is read from now on. -/
lemma next (h : t.Inv len marks) (client : ℤ) (hclock : t.clock ≤ t'.clock)
    (hw : t'.service.Waiters) (hlog : t.service.log <+: t'.service.log)
    (hreq : t.service.requests ⊆ t'.service.requests) (hops : t'.operations = t.operations)
    (hrec : ∀ op ∈ t'.service.requests, op ∈ marks.map Mark.request ↔ ¬ t'.Open op)
    (hother : ∀ c, c ≠ client →
      t'.stage c = t.stage c ∧ t'.service.clerks c = t.service.clerks c)
    (hself : (t'.stage client).Fits t'.service (nextLen len t.clock t'.service.log.length)
      t'.clock client) :
    t'.Inv (nextLen len t.clock t'.service.log.length) marks where
  waiters := hw
  mono := by
    intro j k hjk
    unfold nextLen
    split_ifs with hj hk
    · exact h.mono j k hjk
    · exact (h.len_le j).trans hlog.length_le
    · omega
    · exact le_rfl
  now := by
    intro k hk
    exact if_neg (by omega)
  marked := by rw [h.marked, hops]
  nodup := h.nodup
  fits m hm := (h.fits m hm).next (h.past m hm) hlog
  past m hm := (h.past m hm).trans_le hclock
  asked m hm := hreq (h.asked m hm)
  recorded := hrec
  stages c := by
    by_cases hc : c = client
    · exact hc ▸ hself
    · rw [(hother c hc).1]
      exact (h.stages c).next hclock hlog h.len_le hreq (hother c hc).2

/-- A client reads the time, and it is busy as before. -/
lemma read (h : t.Inv len marks) {s : Stage} (hbusy : s.busy = (t.stage client).busy)
    (hs : s.Fits t.service (nextLen len t.clock t.service.log.length) (t.clock + 1) client) :
    Inv ⟨{ t.setStage client s with clock := t.clock + 1 }, t.service⟩
      (nextLen len t.clock t.service.log.length) marks := by
  refine h.next client (by simp) h.waiters List.prefix_rfl (List.Subset.refl _) rfl
    (fun op hop => ?_) (fun c hc => ⟨Function.update_of_ne hc _ _, rfl⟩) ?_
  · rw [h.recorded op hop, Open, Open, Clients.setStage]
    simp only [Function.update_apply]
    split_ifs with hc
    · rw [hbusy, hc]
    · rfl
  · simp only [Clients.setStage, Function.update_self]
    exact hs

/-- A step of the service in which no clerk takes part. -/
lemma quiet (h : t.Inv len marks) {σ' : Service n} (hw : σ'.Waiters)
    (hframe : t.service.log <+: σ'.log ∧ σ'.requests = t.service.requests ∧
      σ'.clerks = t.service.clerks) :
    Inv ⟨t.toClients, σ'⟩ (nextLen len t.clock σ'.log.length) marks := by
  obtain ⟨hlog, hreq, hclerks⟩ := hframe
  have hsub : t.service.requests ⊆ σ'.requests := by
    rw [hreq]
    exact List.Subset.refl _
  refine h.next 0 le_rfl hw hlog hsub rfl ?_ (fun c _ => ⟨rfl, congrFun hclerks c⟩) ?_
  · intro op hop
    rw [hreq] at hop
    rw [h.recorded op hop, Open, Open]
    simp only [hclerks]
  · exact (h.stages 0).next le_rfl hlog h.len_le hsub (congrFun hclerks 0)

/-- A clerk issues a request: no entry of the log is its.

**Proof sketch.** The number of the request is larger than those of all earlier requests of the
clerk, so no entry of the log carries it: all its entries will come behind the present end of the
log. For the same reason the request is open. -/
lemma issue (h : t.Inv len marks) {σ' : Service n} {type : OpType} {key value : String}
    {cli start : ℤ} (hstage : t.stage client = .timed cli start) (hw : σ'.Waiters)
    (hs : t.service.step (.issue client type key value) = some σ') :
    Inv ⟨t.setStage client (.called cli start (kvInput type key value)), σ'⟩
      (nextLen len t.clock σ'.log.length) marks := by
  obtain ⟨op, hc, hseq, hbare, hinp, -, hlog, hreq, hclerks⟩ := Service.step_issue hs
  have hstart : start < t.clock := by
    have := h.stages client
    rw [hstage] at this
    exact this.2
  have hledger := h.waiters.ledger
  -- the number of the request is larger than those of all requests of its clerk
  have hold : ∀ op' ∈ t.service.requests, op'.clientId = client → op'.seqId < op.seqId := by
    intro op' hop' hc'
    have := (hledger.numbered op' hop').2
    rw [hc'] at this
    omega
  refine h.next client le_rfl hw (by rw [hlog]) (by rw [hreq]; exact List.subset_append_left _ _)
    rfl ?_ (fun c hne => ⟨Function.update_of_ne hne _ _, ?_⟩) ?_
  · intro op' hop'
    simp only [hreq] at hop'
    rcases List.mem_append.mp hop' with hop' | hop'
    · rw [h.recorded op' hop', Open, Open]
      simp only [hclerks, Clients.setStage]
      by_cases hc' : op'.clientId = client
      · have hlt := hold op' hop' hc'
        simp [hc', hstage, Stage.busy, hlt.ne]
      · simp only [Function.update_of_ne hc']
    · obtain rfl : op' = op := by simpa using hop'
      constructor
      · intro hmem
        obtain ⟨m, hm, hmop⟩ := List.mem_map.mp hmem
        have hasked := h.asked m hm
        rw [hmop] at hasked
        exact absurd (hold op' hasked hc) (lt_irrefl _)
      · intro hopen
        refine absurd ?_ hopen
        simp [Open, hc, hclerks, Stage.busy, Clients.setStage]
  · simp only [hclerks]
    exact Function.update_of_ne hne _ _
  · simp only [Clients.setStage, Function.update_self]
    refine ⟨hstart, op, ⟨?_, hc, ?_⟩, ?_, hinp.symm, ?_⟩
    · rw [hreq]
      exact List.mem_append_right _ List.mem_cons_self
    · rw [hclerks, Function.update_self]
    · rw [hclerks, Function.update_self]
    · intro p e op' hvis hsame
      rw [hlog] at hvis
      have hmem := hledger.request_mem (mem_opsOf_iff.mpr ⟨p, e, hvis⟩)
      rw [hsame, hbare] at hmem
      exact absurd (hold op hmem hc) (lt_irrefl _)

/-- A clerk is answered: the request has had its effect.

**Proof sketch.** The reply of the call is sound, so the request has its effect at an index of the
log, which is not before the end of the log at the time of the call. No request becomes open or is
closed. -/
lemma acknowledge (h : t.Inv len marks) {σ' : Service n} {k : ℕ} {call : Call n} {reply : Reply}
    {signals : List ℕ} {cli start : ℤ} {inp : KvInput}
    (hstage : t.stage client = .called cli start inp) (hcall : t.service.calls[k]? = some call)
    (hphase : call.phase = .replied reply signals) (hw : σ'.Waiters)
    (hs : t.service.step (.acknowledge client k) = some σ') :
    Inv ⟨t.setStage client (.returned cli start inp (kvOutput call.op.type reply)), σ'⟩
      (nextLen len t.clock σ'.log.length) marks := by
  obtain ⟨call', hcall', reply', signals', op, hphase', hpend, hreply, hsame, hlog, hreq,
    hclerks⟩ := Service.step_acknowledge hs
  obtain rfl : call = call' := Option.some.inj (hcall.symm.trans hcall')
  obtain ⟨rfl, rfl⟩ : reply = reply' ∧ signals = signals' := by
    simpa using hphase.symm.trans hphase'
  obtain ⟨hstart, op', hlast, hpend', hinp, hlate⟩ : Stage.Fits t.service len t.clock client
      (.called cli start inp) := hstage ▸ h.stages client
  obtain rfl : op = op' := Option.some.inj (hpend.symm.trans hpend')
  have hsub : t.service.requests ⊆ σ'.requests := by
    rw [hreq]
    exact List.Subset.refl _
  have hseq : ∀ c, (σ'.clerks c).seqId = (t.service.clerks c).seqId := by
    intro c
    rw [hclerks, Function.update_apply]
    split_ifs with hc
    · rw [hc]
    · rfl
  refine h.next client le_rfl hw (by rw [hlog]) hsub rfl ?_
    (fun c hne => ⟨Function.update_of_ne hne _ _, ?_⟩) ?_
  · intro op' hop'
    rw [hreq] at hop'
    rw [h.recorded op' hop', Open, Open]
    simp only [hseq, Clients.setStage, Function.update_apply]
    split_ifs with hc
    · rw [hc, hstage]
      rfl
    · rfl
  · simp only [hclerks]
    exact Function.update_of_ne hne _ _
  · simp only [Clients.setStage, Function.update_self]
    obtain ⟨p, hp⟩ := h.waiters.exists_effect hcall hphase hreply
    have heff : Effect t.service.log op (kvOutput call.op.type reply) p := hsame ▸ hp
    refine ⟨hstart, by rw [hclerks, Function.update_self], op, hlast.frame hsub (hseq client),
      hinp, p, ?_, ?_⟩
    · rw [nextLen_of_lt hstart]
      exact hlate.le_of_effect heff
    · rwa [hlog]

/-- A client adds its operation to the history.

**Proof sketch.** The finished operation has its mark. Its request was open, hence not in the
history, and it is the only open request of the client. -/
lemma record (h : t.Inv len marks) {operation : Porcupine.Operation KvInput KvOutput}
    (hstage : t.stage client = .finished operation) :
    ∃ m, Inv ⟨{ t.setStage client .idle with operations := t.operations ++ [operation] },
      t.service⟩ len (marks ++ [m]) := by
  obtain ⟨hpend, hpast, m, rfl, hlast, hfits⟩ : Stage.Fits t.service len t.clock client
      (.finished operation) := hstage ▸ h.stages client
  have hopen : t.Open m.request := by
    refine ⟨?_, by rw [hlast.clientId, hlast.seqId]⟩
    rw [hlast.clientId, hstage]
    rfl
  have hnew : m.request ∉ marks.map Mark.request :=
    fun hmem => (h.recorded _ hlast.mem).mp hmem hopen
  have hsplit : ∀ m' ∈ marks ++ [m], m' ∈ marks ∨ m' = m := by simp
  refine ⟨m, h.waiters, h.mono, h.now, ?_, ?_, ?_, ?_, ?_, ?_, ?_⟩
  · rw [List.map_append, h.marked]
    rfl
  · rw [List.map_append, List.map_singleton]
    exact (List.perm_append_singleton _ _).nodup_iff.mpr (List.nodup_cons.mpr ⟨hnew, h.nodup⟩)
  · exact fun m' hm' => (hsplit m' hm').elim (h.fits m') fun heq => heq ▸ hfits
  · exact fun m' hm' => (hsplit m' hm').elim (h.past m') fun heq => heq ▸ hpast
  · exact fun m' hm' => (hsplit m' hm').elim (h.asked m') fun heq => heq ▸ hlast.mem
  · intro op hop
    rw [List.map_append, List.map_singleton, List.mem_append, List.mem_singleton,
      h.recorded op hop, Open, Open]
    simp only [Clients.setStage, Function.update_apply]
    split_ifs with hc
    · -- the request of the client is the one that has been added
      simp only [Stage.busy, Bool.false_eq_true, false_and, not_false_eq_true, iff_true]
      by_cases hseq : op.seqId = (t.service.clerks op.clientId).seqId
      · refine .inr (h.waiters.ledger.unique op hop _ hlast.mem (Prod.ext ?_ ?_))
        · exact hc.trans hlast.clientId.symm
        · exact hseq.trans (by rw [hc]; exact hlast.seqId.symm)
      · exact .inl fun hopen => hseq hopen.2
    · refine ⟨fun hmem => hmem.elim id fun heq => ?_, .inl⟩
      exact absurd (heq ▸ hlast.clientId) hc
  · intro c
    by_cases hc : c = client
    · subst hc
      simp only [Clients.setStage, Function.update_self]
      exact hpend
    · simp only [Clients.setStage, Function.update_of_ne hc]
      exact h.stages c

/-- A step of the service keeps the invariant. -/
lemma serviceStep (h : t.Inv len marks) {ev : Event n} {σ' : Service n} {cs' : Clients}
    (hw : σ'.Waiters) (hσ' : t.service.step ev = some σ')
    (hcs' : t.serve t.service.calls ev = some cs') :
    Inv ⟨cs', σ'⟩ (nextLen len t.clock σ'.log.length) marks := by
  cases ev with
  | issue client type key value =>
    simp only [Clients.serve] at hcs'
    split at hcs'
    · rename_i cli start hst
      obtain rfl := Option.some.inj hcs'
      exact h.issue hst hw hσ'
    · simp at hcs'
  | acknowledge client k =>
    simp only [Clients.serve] at hcs'
    split at hcs'
    · rename_i cli start inp call hst hcall
      split at hcs'
      · rename_i reply signals hphase
        obtain rfl := Option.some.inj hcs'
        exact h.acknowledge hst hcall hphase hw hσ'
      · simp at hcs'
    · simp at hcs'
  | _ =>
    obtain rfl := Option.some.inj hcs'
    exact h.quiet hw (Service.step_frame hσ' (by simp) (by simp))

/-- A step of a client keeps the invariant.

**Proof sketch.** By the event. Reading the time first starts the stage; reading it again fixes that
the place lies before the present end of the log; recording is `Inv.record`. -/
lemma clientStep (h : t.Inv len marks) {ev : ClientEvent} {cs' : Clients}
    (hcs' : t.toClients.step ev = some cs') :
    ∃ len' marks', Inv ⟨cs', t.service⟩ len' marks' := by
  cases ev with
  | start client cli =>
    simp only [Clients.step] at hcs'
    split at hcs'
    · rename_i hst
      obtain rfl := Option.some.inj hcs'
      have hpend : Stage.Fits t.service len t.clock client .idle := hst ▸ h.stages client
      exact ⟨_, _, h.read (by rw [hst]; rfl) ⟨hpend, by omega⟩⟩
    · simp at hcs'
  | finish client =>
    simp only [Clients.step] at hcs'
    split at hcs'
    · rename_i cli start inp out hst
      obtain rfl := Option.some.inj hcs'
      obtain ⟨hstart, hpend, op, hlast, hinp, p, hp, heff⟩ : Stage.Fits t.service len t.clock client
          (.returned cli start inp out) := hst ▸ h.stages client
      refine ⟨_, _, h.read (by rw [hst]; rfl) ⟨hpend, by simp, ⟨op, _, p⟩, rfl, hlast, ?_⟩⟩
      -- the place is in the log, and the log has its present length at the second reading
      refine ⟨hinp, heff, ?_, ?_, hstart⟩
      · simpa only [nextLen_of_lt hstart] using hp
      · simpa [nextLen] using heff.lt
    · simp at hcs'
  | record client =>
    simp only [Clients.step] at hcs'
    split at hcs'
    · rename_i operation hst
      obtain rfl := Option.some.inj hcs'
      obtain ⟨m, hm⟩ := h.record hst
      exact ⟨_, _, hm⟩
    · simp at hcs'

/-- **One step of the test** keeps the invariant. -/
theorem step (h : t.Inv len marks) {ev : TestEvent n} (hass : t.Assumed ev)
    (hs : t.step ev = some t') : ∃ len' marks', t'.Inv len' marks' := by
  cases ev with
  | service ev =>
    simp only [Tested.step] at hs
    split at hs
    · rename_i σ' cs' hσ' hcs'
      obtain rfl := Option.some.inj hs
      exact ⟨_, _, h.serviceStep (h.waiters.step hass hσ') hσ' hcs'⟩
    · simp at hs
  | client ev =>
    obtain ⟨cs', hcs', rfl⟩ := Option.map_eq_some_iff.mp hs
    exact h.clientStep hcs'

/-- Every state of every run has its marks. -/
theorem of_reach (h : Transition.Reach Tested.step Tested.Assumed Tested.init t) :
    ∃ len marks, t.Inv len marks := by
  refine h.invariant (I := fun t => ∃ len marks, t.Inv len marks) ⟨_, _, .init⟩ ?_
  rintro t ev t' - ⟨len, marks, ih⟩ hass hs
  exact ih.step hass hs

end Inv

end Tested

end KvRaft

end Mit6824
