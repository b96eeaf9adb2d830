import Mathlib.Data.List.Permutation
import Mit6824.Linearization.Points
import Mit6824.KvRaft.Tester

set_option autoImplicit false

/-!
# Is the service linearizable?

The committed log puts the operations of the history into one order. This order is legal for a
key/value store and keeps the order in time as long as the log has no rewound repeat with an effect:
then a write changes the store at its first entry only. The test therefore never finds a history
that is not linearizable, unless an old request has been committed again.

## Main definitions

* `Mit6824.KvRaft.Unrewound` — no rewound repeat of the sequence has an effect.
* `Mit6824.KvRaft.Stage.Completes` — an operation as its client may still record it.

## Main results

* `Mit6824.KvRaft.linearizable_of_marks` — operations with places in the log are linearizable.
* `Mit6824.KvRaft.Tested.history_linearizable` — the history of every run, completed by operations
  that clients are busy with.
* `Mit6824.KvRaft.Tested.never_illegal` — the verdict of the checker when all clients are done.
* `Mit6824.KvRaft.Tested.not_linearizable_after_rewind` — a run with two late repeats, whose history
  is not linearizable.
-/

namespace Mit6824

namespace KvRaft

open LogMachine Models Porcupine

/-! ## The store along the log -/

/-- No rewound repeat of the sequence has an effect. -/
def Unrewound (ops : List Op) : Prop :=
  ∀ i < ops.length, ∀ op ∈ ops[i]?, Rewound (ops.take i) op → Idle (applyOnce (ops.take i)) op

instance (ops : List Op) : Decidable (Unrewound ops) :=
  inferInstanceAs (Decidable (∀ i < ops.length, ∀ op ∈ ops[i]?, _))

/-- A store as its clients see it: a missing key reads as the empty string. -/
def seen (kvStore : String → Option String) (key : String) : String := (kvStore key).getD ""

/-- A write does to the store what the model says.

**Proof sketch.** By the kind of the write; `seen` commutes with an update, and a missing key is
seen as the empty string. -/
lemma kvNext_seen_of_write {op : Op} (hwrite : op.type ≠ .get)
    (kvStore : String → Option String) (out : KvOutput) :
    kvNext (seen kvStore) (kvInput op.type op.key op.value, out) =
      some (seen (write kvStore op)) := by
  have hupdate : ∀ v : String, Function.update (seen kvStore) op.key v =
      seen (Function.update kvStore op.key (some v)) := by
    intro v
    funext key
    unfold seen
    rw [Function.update_apply, Function.update_apply]
    split_ifs <;> rfl
  cases htype : op.type with
  | get => exact absurd htype hwrite
  | put => simp [kvNext, kvInput, write, htype, hupdate]
  | append =>
    have happend : kvNext (seen kvStore) (kvInput .append op.key op.value, out) =
        some (Function.update (seen kvStore) op.key (seen kvStore op.key ++ op.value)) := rfl
    rw [happend, hupdate]
    cases hval : kvStore op.key <;> simp [write, htype, seen, hval]

/-- A read is legal for what the model says its key holds. -/
lemma kvNext_seen_of_get {op : Op} (hget : op.type = .get) {kvStore : String → Option String}
    {out : KvOutput} (hout : out.value = (kvStore op.key).getD "") :
    kvNext (seen kvStore) (kvInput op.type op.key op.value, out) = some (seen kvStore) := by
  simp [kvNext, kvInput, hget, hout, seen]

/-- A read writes nothing. -/
lemma write_of_get {op : Op} (hget : op.type = .get) (kvStore : String → Option String) :
    write kvStore op = kvStore := by
  simp [write, hget]

/-- The fields that `Start` fills in do not matter for the store. -/
lemma write_request (kvStore : String → Option String) (op : Op) :
    write kvStore op.request = write kvStore op := rfl

section Log

variable {log : List (LogEntry Op)} {p q : ℕ} {e : LogEntry Op} {op op' : Op}

/-- The next entry of the log. -/
lemma opsOf_take_succ (hvis : Visible log p e op) :
    opsOf (log.take (p + 1)) = opsOf (log.take p) ++ [op] := by
  rw [List.take_add_one, hvis.get, opsOf_append]
  simp [opsOf, hvis.visible, hvis.command]

/-- An operation is among the first ones up to any later index. -/
lemma mem_opsOf_take (hvis : Visible log p e op) (hpq : p < q) : op ∈ opsOf (log.take q) := by
  have hmem : op ∈ opsOf (log.take (p + 1)) := by
    rw [opsOf_take_succ hvis]
    exact List.mem_append_right _ List.mem_cons_self
  exact (opsOf_extend (List.take_prefix_take_left hpq)).subset hmem

/-- A request has one first entry. -/
lemma first_unique {e' : LogEntry Op} (hvis : Visible log p e op) (hvis' : Visible log q e' op')
    (htag : op.tag = op'.tag) (hp : op.tag ∉ (opsOf (log.take p)).map Op.tag)
    (hq : op'.tag ∉ (opsOf (log.take q)).map Op.tag) : p = q := by
  rcases Nat.lt_trichotomy p q with hpq | hpq | hpq
  · exact absurd (htag ▸ List.mem_map_of_mem (mem_opsOf_take hvis hpq)) hq
  · exact hpq
  · exact absurd (htag ▸ List.mem_map_of_mem (mem_opsOf_take hvis' hpq)) hp

/-- An index has one operation. -/
lemma Visible.op_eq {e' : LogEntry Op} (hvis : Visible log p e op) (hvis' : Visible log p e' op') :
    op = op' := by
  obtain rfl : e = e' := Option.some.inj (hvis.get.symm.trans hvis'.get)
  exact Option.some.inj (hvis.command.symm.trans hvis'.command)

/-- A read leaves the exactly-once store alone. -/
lemma applyOnce_concat_of_get {ops : List Op} (hget : op.type = .get) :
    applyOnce (ops ++ [op]) = applyOnce ops := by
  by_cases hmem : op.tag ∈ ops.map Op.tag
  · exact applyOnce_concat_of_mem hmem
  · rw [applyOnce_concat_of_notMem hmem, write_of_get hget]

/-- The exactly-once store changes only at the first entry of a write.

**Proof sketch.** A read writes nothing, and a write whose tag has occurred before is a repeat. An
entry without an operation adds nothing to the list. -/
lemma applyOnce_take_succ (hp : p < log.length)
    (hno : ∀ e op, Visible log p e op → op.type ≠ .get →
      op.tag ∉ (opsOf (log.take p)).map Op.tag → False) :
    applyOnce (opsOf (log.take (p + 1))) = applyOnce (opsOf (log.take p)) := by
  by_cases hex : ∃ e op, Visible log p e op
  · obtain ⟨e, op, hvis⟩ := hex
    rw [opsOf_take_succ hvis]
    by_cases hget : op.type = .get
    · exact applyOnce_concat_of_get hget
    · exact applyOnce_concat_of_mem (not_not.mp fun hfirst => hno e op hvis hget hfirst)
  · -- an internal entry, or one without a command
    have hnone : opsOf [log[p]] = [] := by
      unfold opsOf
      rw [List.filterMap_cons_none, List.filterMap_nil]
      split_ifs with hint
      · rfl
      · cases hcmd : log[p].command with
        | none => rfl
        | some op =>
          exact absurd ⟨_, op, List.getElem?_eq_getElem hp, by simpa using hint, hcmd⟩ hex
    rw [List.take_add_one, List.getElem?_eq_getElem hp, Option.toList_some, opsOf_append, hnone,
      List.append_nil]

/-- Along a log without rewound repeats the servers have the exactly-once store. -/
lemma Unrewound.kvStore_eq (h : Unrewound (opsOf log)) (hseq : Sequential (opsOf log)) (k : ℕ) :
    (applyAll (opsOf (log.take k))).kvStore = applyOnce (opsOf (log.take k)) := by
  rw [← exactlyOnce_iff, List.prefix_iff_eq_take.mp (opsOf_extend (List.take_prefix k log))]
  exact exactlyOnce_take hseq
    (fun i op hop => h i (List.getElem?_eq_some_iff.mp hop).1 op hop) _

end Log

/-! ## Operations with places in the log -/

/-- **The log linearizes operations that have their places in it**, provided that every write in
the log is one of them.

**Proof sketch.** The points of `Linearization.linearizable_of_points` are the places of the marks,
and the states are the exactly-once stores along the log. At its place a write is a first
occurrence, and a read sees the store. At every other place of the log there is an internal entry,
a read, or the repeat of a write. -/
theorem linearizable_of_marks {log : List (LogEntry Op)} {P : List Mark} {len : ℤ → ℕ}
    (hroot : Rooted log) (hseq : Sequential (opsOf log)) (hlog : Unrewound (opsOf log))
    (hmono : ∀ j k, j ≤ k → len j ≤ len k) (hnodup : (P.map Mark.request).Nodup)
    (hbare : ∀ m ∈ P, m.request.request = m.request) (hfits : ∀ m ∈ P, m.Fits log len)
    (hwrites : ∀ op ∈ opsOf log, op.type ≠ .get → op.request ∈ P.map Mark.request) :
    LinearizableOps kvNext (fun _ => "") Porcupine.Operation.Touches (P.map Mark.operation) := by
  refine (Linearization.linearizable_map Mark.operation).mpr ?_
  have hstart : (fun _ => "") = seen (applyOnce (opsOf (log.take 0))) := rfl
  rw [hstart]
  refine Linearization.linearizable_of_points Mark.point
    (fun k => seen (applyOnce (opsOf (log.take k)))) (List.Nodup.of_map _ hnodup)
    (fun m hm => (hfits m hm).effect.lt) ?_ ?_ ?_ ?_
  · -- one entry, one request
    intro m hm m' hm' hpoint
    obtain ⟨e, op, hvis, hreq⟩ := (hfits m hm).effect.entry
    obtain ⟨e', op', hvis', hreq'⟩ := (hfits m' hm').effect.entry
    rw [← hpoint] at hvis'
    refine List.inj_on_of_nodup_map hnodup hm hm' ?_
    rw [← hbare m hm, ← hbare m' hm', ← hreq, ← hreq', hvis.op_eq hvis']
  · intro m hm
    obtain ⟨hinput, heff, -, -, -⟩ := hfits m hm
    obtain ⟨e, op, hvis, hreq⟩ := heff.entry
    have htype : op.type = m.request.type := by
      simp only [Op.request, Op.mk.injEq] at hreq
      exact hreq.2.2.1
    have htag : op.tag = m.request.tag := Op.tag_eq_of_request_eq hreq
    rw [hinput, opsOf_take_succ hvis]
    by_cases hget : m.request.type = .get
    · rw [applyOnce_concat_of_get (htype.trans hget)]
      refine kvNext_seen_of_get hget ?_
      have hread := heff.read hget
      rwa [stateAt_eq_applyAll, Nat.sub_add_cancel (hroot.pos_of_visible hvis),
        hlog.kvStore_eq hseq] at hread
    · rw [applyOnce_concat_of_notMem (htag ▸ heff.first hget), ← write_request _ op, hreq,
        write_request]
      exact kvNext_seen_of_write hget _ _
  · intro k hk hno
    rw [applyOnce_take_succ hk fun e op hvis hwrite hfirst => ?_]
    -- a first occurrence of a write is the place of a mark
    obtain ⟨m, hm, hmreq⟩ := List.mem_map.mp
      (hwrites op (mem_opsOf_iff.mpr ⟨k, e, hvis⟩) hwrite)
    obtain ⟨e', op', hvis', hreq'⟩ := (hfits m hm).effect.entry
    have hsame : op'.request = op.request := by rw [hreq', hbare m hm, hmreq]
    have htag : op'.tag = op.tag := Op.tag_eq_of_request_eq hsame
    have hmtag : m.request.tag = op'.tag := (Op.tag_eq_of_request_eq hreq').symm
    have hmwrite : m.request.type ≠ .get := by
      rw [hmreq]
      exact hwrite
    refine hno m hm (first_unique hvis' hvis htag ?_ hfirst)
    rw [← hmtag]
    exact (hfits m hm).effect.first hmwrite
  · intro m hm m' hm' hbefore
    calc m.point < len m.operation.ret := (hfits m hm).upto
      _ ≤ len m'.operation.call := hmono _ _ hbefore
      _ ≤ m'.point := (hfits m' hm').after

/-! ## The history of a run -/

/-- An operation that its client is busy with, as the client may still record it. -/
def Stage.Completes (clock : ℤ) : Stage → Porcupine.Operation KvInput KvOutput → Prop
  | .called cli start inp, o => ∃ out, o = ⟨cli, inp, start, out, clock⟩
  | .returned cli start inp out, o => o = ⟨cli, inp, start, out, clock⟩
  | .finished operation, o => o = operation
  | _, _ => False

/-- Only a busy client completes an operation. -/
lemma Stage.Completes.busy {clock : ℤ} {s : Stage} {o : Porcupine.Operation KvInput KvOutput}
    (h : s.Completes clock o) : s.busy = true := by
  cases s with
  | idle | timed => exact h.elim
  | called | returned | finished => rfl

namespace Tested

variable {n : ℕ} {t : Tested n} {len : ℤ → ℕ} {marks : List Mark}

/-- A busy client has sent a request. -/
lemma Inv.exists_request_of_busy (h : t.Inv len marks) {client : ℤ}
    (hbusy : (t.stage client).busy = true) : ∃ op ∈ t.service.requests, op.clientId = client := by
  have hstage := h.stages client
  cases hst : t.stage client with
  | idle | timed => simp [hst, Stage.busy] at hbusy
  | called =>
    rw [hst] at hstage
    obtain ⟨-, op, hlast, -⟩ := hstage
    exact ⟨op, hlast.mem, hlast.clientId⟩
  | returned =>
    rw [hst] at hstage
    obtain ⟨-, -, op, hlast, -⟩ := hstage
    exact ⟨op, hlast.mem, hlast.clientId⟩
  | finished =>
    rw [hst] at hstage
    obtain ⟨-, -, m, -, hlast, -⟩ := hstage
    exact ⟨m.request, hlast.mem, hlast.clientId⟩

/-- The operation a clerk is busy with is its last request. -/
lemma Inv.lastRequest_eq (h : t.Inv len marks) {op op' : Op} (hop : op ∈ t.service.requests)
    (hopen : t.Open op) (hlast : t.service.LastRequest op.clientId op') : op' = op :=
  h.waiters.ledger.unique op' hlast.mem op hop
    (Prod.ext hlast.clientId (hlast.seqId.trans hopen.2.symm))

/-- A write that is in the log and not in the history can be completed.

**Proof sketch.** By the stage of the client. If the clerk has not been answered, the write has its
effect at its first entry, and the client may still record it now. If it has been answered or the
operation is finished, the invariant gives the place. -/
lemma Inv.exists_completion (h : t.Inv len marks) {op : Op} (hop : op ∈ t.service.requests)
    (hopen : t.Open op) (hwrite : op.type ≠ .get)
    (hmem : op.tag ∈ (opsOf t.service.log).map Op.tag) :
    ∃ m : Mark, m.request = op ∧ (t.stage op.clientId).Completes t.clock m.operation ∧
      m.Fits t.service.log len := by
  have hledger := h.waiters.ledger
  have hnow := h.now t.clock le_rfl
  have hstage := h.stages op.clientId
  have hbusy := hopen.1
  cases hst : t.stage op.clientId with
  | idle => simp [hst, Stage.busy] at hbusy
  | timed cli start => simp [hst, Stage.busy] at hbusy
  | called cli start inp =>
    rw [hst] at hstage
    obtain ⟨hstart, op', hlast, -, hinp, hlate⟩ := hstage
    obtain rfl := h.lastRequest_eq hop hopen hlast
    have huniq : ∀ o ∈ opsOf t.service.log, o.tag = op'.tag → o.request = op'.request := by
      intro o ho htag
      refine hledger.request_unique (hledger.request_mem ho) ?_ htag
      rwa [hledger.bare op' hop]
    obtain ⟨p, heff⟩ := exists_effect_of_write hwrite huniq hmem ⟨""⟩
    refine ⟨⟨op', ⟨cli, inp, start, ⟨""⟩, t.clock⟩, p⟩, rfl, ⟨_, rfl⟩, ?_⟩
    exact ⟨hinp, heff, hlate.le_of_effect heff, by simpa only [hnow] using heff.lt, hstart⟩
  | returned cli start inp out =>
    rw [hst] at hstage
    obtain ⟨hstart, -, op', hlast, hinp, p, hp, heff⟩ := hstage
    obtain rfl := h.lastRequest_eq hop hopen hlast
    refine ⟨⟨op', ⟨cli, inp, start, out, t.clock⟩, p⟩, rfl, rfl, ?_⟩
    exact ⟨hinp, heff, hp, by simpa only [hnow] using heff.lt, hstart⟩
  | finished operation =>
    rw [hst] at hstage
    obtain ⟨-, -, m, hm, hlast, hfits⟩ := hstage
    exact ⟨m, h.lastRequest_eq hop hopen hlast, hm, hfits⟩

/-- There are marks for the writes that are in the log and not in the history, one for each.

**Proof sketch.** Take the open writes of the log, without repeats, and for each of them a mark from
`Inv.exists_completion`. -/
lemma Inv.exists_late (h : t.Inv len marks) :
    ∃ late : List Mark, (late.map Mark.request).Nodup ∧
      (∀ m ∈ late, m.request ∈ t.service.requests ∧ t.Open m.request ∧
        (t.stage m.request.clientId).Completes t.clock m.operation ∧
        m.Fits t.service.log len) ∧
      ∀ op ∈ opsOf t.service.log, op.type ≠ .get → t.Open op.request →
        op.request ∈ late.map Mark.request := by
  classical
  let writes : List Op := t.service.requests.dedup.filter fun op =>
    t.Open op ∧ op.type ≠ .get ∧ op.tag ∈ (opsOf t.service.log).map Op.tag
  have hmem : ∀ op, op ∈ writes ↔ op ∈ t.service.requests ∧ t.Open op ∧ op.type ≠ .get ∧
      op.tag ∈ (opsOf t.service.log).map Op.tag := by
    intro op
    simp [writes, List.mem_filter]
  have hcomplete : ∀ op ∈ writes, ∃ m : Mark, m.request = op ∧
      (t.stage op.clientId).Completes t.clock m.operation ∧ m.Fits t.service.log len := by
    intro op hop
    obtain ⟨hreq, hopen, hwrite, htag⟩ := (hmem op).mp hop
    exact h.exists_completion hreq hopen hwrite htag
  have : Nonempty Mark := ⟨⟨⟨"", "", .get, 0, 0, 0, 0⟩, default, 0⟩⟩
  choose! mark hmark using hcomplete
  have hreqs : (writes.map mark).map Mark.request = writes := by
    rw [List.map_map]
    exact (List.map_congr_left fun op hop => (hmark op hop).1).trans (List.map_id _)
  refine ⟨writes.map mark, ?_, fun m hm => ?_, fun op hop hwrite hopen => ?_⟩
  · rw [hreqs]
    exact (List.nodup_dedup _).filter _
  · obtain ⟨op, hop, rfl⟩ := List.mem_map.mp hm
    obtain ⟨hreq, hcomp, hfits⟩ := hmark op hop
    rw [hreq]
    exact ⟨((hmem op).mp hop).1, ((hmem op).mp hop).2.1, hcomp, hfits⟩
  · rw [hreqs, hmem]
    exact ⟨h.waiters.ledger.request_mem hop, hopen, hwrite, List.mem_map.mpr ⟨op, hop, rfl⟩⟩

/-- The history can be completed by writes that are in the log already.

**Proof sketch.** The history has marks, and so have the open writes of the log (`Inv.exists_late`).
Together they cover every write of the log, each request once, and lie between the readings of the
time; so the log is a linearization of them. A client is busy with one request, so it completes one
operation. -/
lemma Inv.linearizable (h : t.Inv len marks) (hlog : Unrewound (opsOf t.service.log)) :
    ∃ clients late, clients.Nodup ∧
      List.Forall₂ (fun client o => (t.stage client).Completes t.clock o) clients late ∧
      LinearizableOps kvNext (fun _ => "") Porcupine.Operation.Touches (t.operations ++ late) := by
  have hledger := h.waiters.ledger
  obtain ⟨late, hnodup, hlate, hwrites⟩ := h.exists_late
  refine ⟨late.map fun m => m.request.clientId, late.map Mark.operation, ?_, ?_, ?_⟩
  · -- a client is busy with one request
    refine (List.nodup_map_iff_inj_on (List.Nodup.of_map _ hnodup)).mpr fun m hm m' hm' hc => ?_
    obtain ⟨hreq, hopen, -⟩ := hlate m hm
    obtain ⟨hreq', hopen', -⟩ := hlate m' hm'
    refine List.inj_on_of_nodup_map hnodup hm hm' (hledger.unique _ hreq _ hreq' (Prod.ext hc ?_))
    exact hopen.2.trans (hc ▸ hopen'.2.symm)
  · rw [List.forall₂_map_left_iff, List.forall₂_map_right_iff]
    exact List.forall₂_same.mpr fun m hm => (hlate m hm).2.2.1
  · rw [← h.marked, ← List.map_append]
    have hfits : ∀ m ∈ marks ++ late, m.Fits t.service.log len := fun m hm =>
      (List.mem_append.mp hm).elim (h.fits m) fun hm => (hlate m hm).2.2.2
    refine linearizable_of_marks h.waiters.sound.rooted hledger.sequential hlog h.mono ?_
      (fun m hm => ?_) hfits fun op hop hwrite => ?_
    · rw [List.map_append]
      refine List.nodup_append'.mpr ⟨h.nodup, hnodup, fun op hop hop' => ?_⟩
      obtain ⟨m, hm, rfl⟩ := List.mem_map.mp hop'
      obtain ⟨hreq, hopen, -⟩ := hlate m hm
      exact (h.recorded _ hreq).mp hop hopen
    · exact hledger.bare _ ((List.mem_append.mp hm).elim (h.asked m) fun hm => (hlate m hm).1)
    · rw [List.map_append, List.mem_append]
      by_cases hopen : t.Open op.request
      · exact .inr (hwrites op hop hwrite hopen)
      · exact .inl ((h.recorded _ (hledger.request_mem hop)).mpr hopen)

/-- **The service is linearizable as long as nothing is rewound.** In every run of the clients, the
servers, the network and the Raft layer in which Raft keeps its promises and no rewound repeat has
an effect, the history recorded so far, completed by some of the operations that clients are busy
with, can be put into one order that a key/value store allows and that keeps the order in time.

**Proof sketch.** In every state there are marks for the recorded operations in the committed log
(`Inv.of_reach`), and a history with marks is linearizable along the log. -/
theorem history_linearizable (h : Transition.Reach Tested.step Tested.Assumed Tested.init t)
    (hlog : Unrewound (opsOf t.service.log)) :
    ∃ clients late, clients.Nodup ∧
      List.Forall₂ (fun client o => (t.stage client).Completes t.clock o) clients late ∧
      LinearizableOps kvNext (fun _ => "") Porcupine.Operation.Touches (t.operations ++ late) := by
  obtain ⟨len, marks, hinv⟩ := Inv.of_reach h
  exact hinv.linearizable hlog

/-! Runs in which only server 0 works, and the entries of the log are operations on key `x`. -/

/-- An operation on `x`. -/
def opX (client seqId : ℤ) (type : OpType) (value : String) : Op :=
  { key := "x", value := value, type := type, clientId := client, seqId := seqId }

/-- Request `r` arrives as call `k`, is committed at `index` and answered. -/
def served (k r index : ℕ) (op : Op) : List (TestEvent 3) :=
  [.service (.receive 0 r), .service (.call k (.startAccepted index 1)),
    .service (.call k .register), .service (.commit ⟨1, 0, some op, index, false⟩),
    .service (.deliver 0 index index 1), .service (.apply 0), .service (.call k .signal),
    .service (.call k .cleanup)]

/-- A client does an operation and records it. -/
def performed (k r index : ℕ) (op : Op) : List (TestEvent 3) :=
  [.client (.start op.clientId 0), .service (.issue op.clientId op.type "x" op.value)] ++
    served k r index op ++
    [.service (.acknowledge op.clientId k), .client (.finish op.clientId),
      .client (.record op.clientId)]

/-- Client 1 puts `a`. Client 2 appends `b` and has not taken the answer when client 1 reads. -/
def readOfUnanswered : List (TestEvent 3) :=
  .service (.apply 0) :: performed 0 0 1 (opX 1 1 .put "a") ++
    [.client (.start 2 0), .service (.issue 2 .append "x" "b")] ++
    served 1 1 2 (opX 2 1 .append "b") ++ performed 2 2 3 (opX 1 2 .get "")

/-- The read sees `ab`, so that the append has to be completed. -/
theorem history_linearizable_of_read :
    ∃ t : Tested 3, Transition.Reach Tested.step Tested.Assumed Tested.init t ∧
      Unrewound (opsOf t.service.log) ∧
      t.operations.map (fun o => (o.input, o.output)) =
        [(⟨1, "x", "a"⟩, ⟨""⟩), (⟨0, "x", ""⟩, ⟨"ab"⟩)] ∧
      ∃ clients late, clients.Nodup ∧
        List.Forall₂ (fun client o => (t.stage client).Completes t.clock o) clients late ∧
        LinearizableOps kvNext (fun _ => "") Porcupine.Operation.Touches
          (t.operations ++ late) := by
  obtain ⟨t, ht, hlog, hops⟩ : ∃ t : Tested 3,
      Transition.Reach Tested.step Tested.Assumed Tested.init t ∧
        Unrewound (opsOf t.service.log) ∧
        t.operations.map (fun o => (o.input, o.output)) =
          [(⟨1, "x", "a"⟩, ⟨""⟩), (⟨0, "x", ""⟩, ⟨"ab"⟩)] :=
    Transition.Reach.exists_of_stepsIf readOfUnanswered (by decide +kernel)
  exact ⟨t, ht, hlog, hops, history_linearizable ht hlog⟩

/-- The checker does not find a history illegal when all clients are done. -/
lemma Inv.result_ne_illegal (hinv : t.Inv len marks) (hlog : Unrewound (opsOf t.service.log))
    (hdone : ∀ op ∈ t.service.requests, (t.stage op.clientId).busy = false)
    {sorter : EntrySorter KvInput KvOutput} {verbose hasTimeout : Bool}
    {evs : List (ParallelEvent ((fillDefault kvModel).partition t.operations).length)}
    {p : Parallel KvInput KvOutput String ((fillDefault kvModel).partition t.operations).length}
    (hcheck : Transition.follow (checkOperations sorter kvModel t.operations verbose hasTimeout)
      (Parallel.start KvInput KvOutput String _) evs = some p) :
    p.result ≠ some .illegal := by
  obtain ⟨clients, late, -, hcomp, hlin⟩ := hinv.linearizable hlog
  obtain rfl : late = [] := by
    cases hcomp with
    | nil => rfl
    | @cons client o _ _ ho _ =>
      obtain ⟨op, hop, rfl⟩ := hinv.exists_request_of_busy ho.busy
      simpa [ho.busy] using hdone op hop
  rw [List.append_nil] at hlin
  refine fun hbad => not_linearizable_of_result_illegal (fun o ho => ?_) hcheck hbad hlin
  rw [← hinv.marked] at ho
  obtain ⟨m, hm, rfl⟩ := List.mem_map.mp ho
  exact (hinv.fits m hm).order

/-- **The test does not fail.** When every client is done with its requests and nothing was rewound,
the checker does not find the recorded history illegal, whatever its goroutines do and whatever
order it gives to entries of the same time.

**Proof sketch.** No client is busy, so the history is linearizable as it is, and `Illegal` would
contradict this. -/
theorem never_illegal (h : Transition.Reach Tested.step Tested.Assumed Tested.init t)
    (hlog : Unrewound (opsOf t.service.log))
    (hdone : ∀ op ∈ t.service.requests, (t.stage op.clientId).busy = false)
    {sorter : EntrySorter KvInput KvOutput} {verbose hasTimeout : Bool}
    {evs : List (ParallelEvent ((fillDefault kvModel).partition t.operations).length)}
    {p : Parallel KvInput KvOutput String ((fillDefault kvModel).partition t.operations).length}
    (hcheck : Transition.follow (checkOperations sorter kvModel t.operations verbose hasTimeout)
      (Parallel.start KvInput KvOutput String _) evs = some p) :
    p.result ≠ some .illegal := by
  obtain ⟨len, marks, hinv⟩ := Inv.of_reach h
  exact hinv.result_ne_illegal hlog hdone hcheck

/-- A put and a read, both recorded. -/
def putAndGet : List (TestEvent 3) :=
  .service (.apply 0) :: performed 0 0 1 (opX 1 1 .put "a") ++ performed 1 1 2 (opX 1 2 .get "")

/-- The history of the put and the read. -/
def putAndGetHistory : List (Porcupine.Operation KvInput KvOutput) :=
  [⟨0, ⟨1, "x", "a"⟩, 0, ⟨""⟩, 1⟩, ⟨0, ⟨0, "x", ""⟩, 2, ⟨"a"⟩, 3⟩]

/-- It has one partition. -/
lemma length_partition_putAndGet :
    0 < ((fillDefault kvModel).partition putAndGetHistory).length := by
  decide +kernel

/-- The goroutine of the only partition takes both operations; then the checker returns. -/
def putAndGetSchedule :
    List (ParallelEvent ((fillDefault kvModel).partition putAndGetHistory).length) :=
  List.replicate 6 (.routine ⟨0, length_partition_putAndGet⟩) ++ [.receive]

/-- The checker comes to a verdict on the history of the put and the get. -/
lemma exists_verdict_putAndGet : ∃ p,
    Transition.follow (checkOperations insertionSorter kvModel putAndGetHistory true false)
        (Parallel.start KvInput KvOutput String _) putAndGetSchedule = some p ∧
      p.result.isSome := by
  have hrun : ((Transition.follow
      (checkOperations insertionSorter kvModel putAndGetHistory true false)
      (Parallel.start KvInput KvOutput String _) putAndGetSchedule).bind
        Parallel.result).isSome = true := by
    decide +kernel
  obtain ⟨r, hr⟩ := Option.isSome_iff_exists.mp hrun
  obtain ⟨p, hp, hresult⟩ := Option.bind_eq_some_iff.mp hr
  exact ⟨p, hp, by rw [hresult]; rfl⟩

/-- A put and a read, both recorded, and a verdict. -/
theorem never_illegal_of_put_and_get :
    ∃ t : Tested 3, Transition.Reach Tested.step Tested.Assumed Tested.init t ∧
      t.operations = putAndGetHistory ∧
      ∃ p, Transition.follow (checkOperations insertionSorter kvModel putAndGetHistory true false)
          (Parallel.start KvInput KvOutput String _) putAndGetSchedule = some p ∧
        p.result.isSome ∧ p.result ≠ some .illegal := by
  obtain ⟨t, ht, hlog, hdone, hops⟩ : ∃ t : Tested 3,
      Transition.Reach Tested.step Tested.Assumed Tested.init t ∧
        Unrewound (opsOf t.service.log) ∧
        (∀ op ∈ t.service.requests, (t.stage op.clientId).busy = false) ∧
        t.operations = putAndGetHistory :=
    Transition.Reach.exists_of_stepsIf putAndGet (by decide +kernel)
  have hverdict : ∀ history, t.operations = history → ∀
      (evs : List (ParallelEvent ((fillDefault kvModel).partition history).length)) p,
      Transition.follow (checkOperations insertionSorter kvModel history true false)
        (Parallel.start KvInput KvOutput String _) evs = some p → p.result ≠ some .illegal := by
    rintro _ rfl evs p hp
    exact never_illegal ht hlog hdone hp
  obtain ⟨p, hp, hresult⟩ := exists_verdict_putAndGet
  exact ⟨t, ht, hops, p, hp, hresult, hverdict _ hops _ p hp⟩

/-- Client 1 appends `a` and `b`; then both requests arrive once more; then client 1 reads. -/
def lateRepeats : List (TestEvent 3) :=
  .service (.apply 0) :: performed 0 0 1 (opX 1 1 .append "a") ++
    performed 1 1 2 (opX 1 2 .append "b") ++ served 2 0 3 (opX 1 1 .append "a") ++
    served 3 1 4 (opX 1 2 .append "b") ++ performed 4 2 5 (opX 1 3 .get "")

/-- **A rewound repeat shows in the history.** Raft keeps its promises and every client is done, but
the client reads `abb`, which no order of its two appends explains. -/
theorem not_linearizable_after_rewind :
    ∃ t : Tested 3, Transition.Reach Tested.step Tested.Assumed Tested.init t ∧
      (∀ op ∈ t.service.requests, (t.stage op.clientId).busy = false) ∧
      ¬ LinearizableOps kvNext (fun _ => "") Porcupine.Operation.Ends t.operations := by
  obtain ⟨t, ht, hdone, hops⟩ : ∃ t : Tested 3,
      Transition.Reach Tested.step Tested.Assumed Tested.init t ∧
        (∀ op ∈ t.service.requests, (t.stage op.clientId).busy = false) ∧
        t.operations.map (fun o => (o.input, o.output)) =
          [(⟨2, "x", "a"⟩, ⟨""⟩), (⟨2, "x", "b"⟩, ⟨""⟩), (⟨0, "x", ""⟩, ⟨"abb"⟩)] :=
    Transition.Reach.exists_of_stepsIf lateRepeats (by decide +kernel)
  refine ⟨t, ht, hdone, ?_⟩
  rintro ⟨l, hperm, -, hlegal⟩
  have hmem := List.mem_permutations'.mpr (hperm.map fun o => (o.input, o.output))
  rw [hops] at hmem
  revert hlegal
  rw [imp_false, Bool.not_eq_true]
  generalize l.map (fun o => (o.input, o.output)) = l' at hmem ⊢
  revert l'
  decide +kernel

end Tested

end KvRaft

end Mit6824
