import Mathlib.Data.List.Infix
import Mit6824.KvRaft.Server

set_option autoImplicit false

/-!
# Are writes applied exactly once?

Clerks number their operations 1, 2, 3, … and repeat an operation until it is acknowledged, so
the committed sequence holds the operations of a clerk in order, and any of them again at any
later place. `applyMsgLoop` filters the repeats by one number for each client, which it replaces
with the number of every operation it sees, old ones included.

A repeat therefore slips through when the client's operation before it in the sequence is an
older one: the repeat of an old operation *rewinds* the client's number, and the repeat of a
newer one is applied a second time. This module shows that nothing else goes wrong.

## Main definitions

* `Mit6824.KvRaft.Sequential` — the committed sequences of sequential clerks.
* `Mit6824.KvRaft.applyOnce` — every operation is applied at its first occurrence only.
* `Mit6824.KvRaft.Rewound` — a repeat right after an older operation of the same client.
* `Mit6824.KvRaft.Idle` — an operation that would not change the store.

## Main results

* `Mit6824.KvRaft.exactly_once_iff` — the store is the exactly-once store all along the sequence
  if and only if every rewound repeat is idle where it stands.
* `Mit6824.KvRaft.exactly_once_for_all_contents_iff` — the final store is the exactly-once store
  for all operations with these tags if and only if nothing is rewound.
* `Mit6824.KvRaft.append_applied_twice` — two appends, both repeated: the second is applied
  twice.
-/

namespace Mit6824

namespace KvRaft

/-! ## Sequences and stores -/

/-- The committed sequences that sequential clerks can produce: a clerk's next operation enters
after its previous one, and any operation of the sequence may enter again. -/
inductive Sequential : List Op → Prop
  | nil : Sequential []
  | issue {ops : List Op} {op : Op} : Sequential ops → op.tag ∉ ops.map Op.tag →
      (op.seqId = 1 ∨ (op.clientId, op.seqId - 1) ∈ ops.map Op.tag) → Sequential (ops ++ [op])
  | again {ops : List Op} {op op' : Op} : Sequential ops → op' ∈ ops →
      op.request = op'.request → Sequential (ops ++ [op])

/-- The messages for a committed sequence whose first entry has index `first`. -/
def messages (first : ℕ) : List Op → List (ApplyMsg Op KVState)
  | [] => []
  | op :: ops =>
    { commandValid := true
      command := some op
      commandIndex := first
      logIndex := first } :: messages (first + 1) ops

/-- `applyMsgLoop` of a new server over a committed sequence. -/
def commitAll (ops : List Op) : Option KVServer := startKVServer.applyMsgLoop (messages 1 ops)

/-- One operation of the exactly-once store, with the tags seen so far. -/
def onceStep (s : List (ℤ × ℤ) × (String → Option String)) (op : Op) :
    List (ℤ × ℤ) × (String → Option String) :=
  if op.tag ∈ s.1 then s else (op.tag :: s.1, write s.2 op)

/-- The store when every operation is applied at its first occurrence only. -/
def applyOnce (ops : List Op) : String → Option String :=
  (ops.foldl onceStep ([], fun _ => none)).2

/-- The last operation of a client. -/
def lastOf (client : ℤ) (ops : List Op) : Option Op :=
  (ops.filter fun op => op.clientId = client).getLast?

/-- After `ops`, the operation is a repeat, and the client's last operation is an older one. -/
def Rewound (ops : List Op) (op : Op) : Prop :=
  op.tag ∈ ops.map Op.tag ∧ ∃ prev ∈ lastOf op.clientId ops, prev.seqId < op.seqId

instance (ops : List Op) (op : Op) : Decidable (Rewound ops op) :=
  inferInstanceAs (Decidable (_ ∧ ∃ prev ∈ lastOf op.clientId ops, _))

/-- The operation leaves this store as it is: a read, a `Put` of the present value, or an
`Append` of nothing. -/
def Idle (kvStore : String → Option String) (op : Op) : Prop :=
  match op.type with
  | .put => kvStore op.key = some op.value
  | .append => (kvStore op.key).isSome ∧ op.value = ""
  | .get => True

instance (kvStore : String → Option String) (op : Op) : Decidable (Idle kvStore op) := by
  unfold Idle
  split <;> infer_instance

/-! ## The loop as a fold -/

/-- The two maps after a committed sequence. -/
def applyAll (ops : List Op) : KVState := ops.foldl KVState.applyOp .empty

/-- The applier goes through the messages of a list of operations and applies them in order. -/
lemma applyMsgLoop_messages (ops : List Op) :
    ∀ (kv : KVServer) (first : ℕ), kv.lastAppliedIndex < first →
      ∃ kv', kv.applyMsgLoop (messages first ops) = some kv' ∧
        kv'.toKVState = ops.foldl KVState.applyOp kv.toKVState := by
  induction ops with
  | nil => exact fun kv _ _ => ⟨kv, rfl, rfl⟩
  | cons op ops ih =>
    intro kv first hfirst
    obtain ⟨kv₁, hkv₁, hst, hidx⟩ : ∃ kv₁, kv.applyMsg
        { commandValid := true, command := some op, commandIndex := first, logIndex := first } =
          some kv₁ ∧ kv₁.toKVState = kv.toKVState.applyOp op ∧ kv₁.lastAppliedIndex = first := by
      simp [KVServer.applyMsg, Nat.not_le.mpr hfirst]
    obtain ⟨kv', hkv', hst'⟩ := ih kv₁ (first + 1) (by omega)
    refine ⟨kv', ?_, ?_⟩
    · rw [messages, KVServer.applyMsgLoop, hkv₁, Option.bind_some, hkv']
    · rw [hst', hst, List.foldl_cons]

/-- The loop never panics on a committed sequence, and its store is the fold's. -/
lemma kvStore_commitAll (ops : List Op) :
    (commitAll ops).map (fun kv => kv.kvStore) = some (applyAll ops).kvStore := by
  obtain ⟨kv, hkv, hst⟩ := applyMsgLoop_messages ops startKVServer 1 (by decide)
  rw [commitAll, hkv, Option.map_some, hst]
  rfl

/-- The last operation is applied last. -/
lemma applyAll_concat (ops : List Op) (op : Op) :
    applyAll (ops ++ [op]) = (applyAll ops).applyOp op := by
  simp [applyAll]

/-! ## What `seqMap` remembers -/

/-- The last operation of a list is the last one of its client. -/
lemma lastOf_concat_self (ops : List Op) (op : Op) :
    lastOf op.clientId (ops ++ [op]) = some op := by
  simp [lastOf]

/-- An operation of another client does not count. -/
lemma lastOf_concat_of_ne {client : ℤ} {op : Op} (h : op.clientId ≠ client) (ops : List Op) :
    lastOf client (ops ++ [op]) = lastOf client ops := by
  simp [lastOf, h]

/-- `seqMap` holds the number of each client's last operation. -/
lemma seqMap_applyAll (ops : List Op) (client : ℤ) :
    (applyAll ops).seqMap client = (lastOf client ops).map Op.seqId := by
  induction ops using List.reverseRecOn with
  | nil => rfl
  | append_singleton ops op ih =>
    rw [applyAll_concat]
    by_cases hc : op.clientId = client
    · subst hc
      simp [KVState.applyOp, lastOf_concat_self]
    · rw [lastOf_concat_of_ne hc, ← ih]
      simp [KVState.applyOp, Function.update_of_ne (Ne.symm hc)]

/-- The test of the applier compares with the client's last operation, whether that was applied or
not. -/
lemma newer_applyAll_iff {ops : List Op} {op : Op} :
    (applyAll ops).newer op = true ↔ ∀ prev ∈ lastOf op.clientId ops, prev.seqId < op.seqId := by
  rw [KVState.newer_eq_true_iff, seqMap_applyAll]
  cases lastOf op.clientId ops <;> simp

/-- The last operation of a client is one of its operations. -/
lemma mem_of_lastOf {client : ℤ} {ops : List Op} {op : Op} (h : op ∈ lastOf client ops) :
    op ∈ ops ∧ op.clientId = client := by
  have hmem := List.mem_of_getLast? (Option.mem_def.mp h)
  simpa using List.mem_filter.mp hmem

/-- A client that has an operation in the sequence has a last one. -/
lemma exists_lastOf {ops : List Op} {op : Op} (h : op.tag ∈ ops.map Op.tag) :
    ∃ prev, prev ∈ lastOf op.clientId ops := by
  obtain ⟨op', hop', htag⟩ := List.mem_map.mp h
  have hc : op'.clientId = op.clientId := congrArg Prod.fst htag
  have hne : ops.filter (fun o => o.clientId = op.clientId) ≠ [] :=
    List.ne_nil_of_mem (List.mem_filter.mpr ⟨hop', by simpa using hc⟩)
  exact ⟨_, Option.mem_def.mpr (List.getLast?_eq_some_getLast hne)⟩

/-! ## Sequential clerks -/

namespace Sequential

variable {ops : List Op} {op : Op}

/-- Numbers start at 1, and below an operation of a client lies the one before it.

**Proof sketch.** Induction on the sequence. A new operation has number 1 or follows one that is
there, whose number is at least 1; a repeat has the tag of an operation that is there. -/
lemma tag_cases (h : Sequential ops) : ∀ tag ∈ ops.map Op.tag,
    1 ≤ tag.2 ∧ (tag.2 = 1 ∨ (tag.1, tag.2 - 1) ∈ ops.map Op.tag) := by
  -- appending an operation keeps the facts about the tags that were there
  have old : ∀ {ops : List Op} {tag : ℤ × ℤ} (op : Op),
      1 ≤ tag.2 ∧ (tag.2 = 1 ∨ (tag.1, tag.2 - 1) ∈ ops.map Op.tag) →
      1 ≤ tag.2 ∧ (tag.2 = 1 ∨ (tag.1, tag.2 - 1) ∈ (ops ++ [op]).map Op.tag) := by
    intro ops tag op h
    refine h.imp_right (Or.imp_right fun hmem => ?_)
    rw [List.map_append]
    exact List.mem_append_left _ hmem
  induction h with
  | nil => simp
  | @issue ops op _ _ hprev ih =>
    intro tag htag
    rw [List.map_append, List.mem_append] at htag
    rcases htag with htag | htag
    · exact old op (ih tag htag)
    · obtain rfl : tag = op.tag := by simpa using htag
      refine old op ⟨?_, hprev⟩
      rcases hprev with h1 | hprev
      · exact h1.ge
      · have hpos := (ih _ hprev).1
        simp only [Op.tag] at hpos ⊢
        omega
  | @again ops op op' _ hop' hreq ih =>
    intro tag htag
    apply old op
    rw [List.map_append, List.mem_append] at htag
    rcases htag with htag | htag
    · exact ih tag htag
    · obtain rfl : tag = op.tag := by simpa using htag
      rw [Op.tag_eq_of_request_eq hreq]
      exact ih _ (List.mem_map_of_mem hop')

/-- With an operation of a client, all its earlier operations are in the sequence. -/
lemma mem_of_le (h : Sequential ops) {client s : ℤ} (hs : 1 ≤ s) (k : ℕ) :
    (client, s + k) ∈ ops.map Op.tag → (client, s) ∈ ops.map Op.tag := by
  induction k with
  | zero => simp
  | succ k ih =>
    intro hmem
    rcases (h.tag_cases _ hmem).2 with h1 | hpred
    · simp only at h1
      omega
    · apply ih
      have heq : s + ((k + 1 : ℕ) : ℤ) - 1 = s + k := by omega
      rwa [heq] at hpred

/-- An operation that is not in the sequence yet is newer than all of its client's. -/
lemma newer_of_fresh (h : Sequential ops) (hs : 1 ≤ op.seqId) (hop : op.tag ∉ ops.map Op.tag) :
    (applyAll ops).newer op = true := by
  rw [newer_applyAll_iff]
  intro prev hprev
  obtain ⟨hmem, hc⟩ := mem_of_lastOf hprev
  by_contra hle
  obtain ⟨k, hk⟩ := Int.eq_ofNat_of_zero_le (a := prev.seqId - op.seqId) (by omega)
  have hmem' : (op.clientId, op.seqId + k) ∈ ops.map Op.tag := by
    refine List.mem_map.mpr ⟨prev, hmem, ?_⟩
    rw [Op.tag, hc]
    congr 1
    omega
  exact hop (h.mem_of_le hs k hmem')

/-- A prefix of a sequence of sequential clerks is one too. -/
lemma init (h : Sequential (ops ++ [op])) : Sequential ops := by
  generalize hl : ops ++ [op] = l at h
  cases h with
  | nil => simp at hl
  | issue h _ _ => exact (List.append_inj_left' hl rfl) ▸ h
  | again h _ _ => exact (List.append_inj_left' hl rfl) ▸ h

/-- The first operations of a sequential list are sequential. -/
lemma take (h : Sequential ops) (i : ℕ) : Sequential (ops.take i) := by
  induction ops using List.reverseRecOn with
  | nil => simpa using h
  | append_singleton ops op ih =>
    rcases Nat.lt_or_ge ops.length i with hi | hi
    · rwa [List.take_of_length_le (by simp; omega)]
    · rw [List.take_append_of_le_length hi]
      exact ih h.init

/-- A prefix of a sequential list is sequential. -/
lemma extend {ops' : List Op} (h : Sequential ops') (hops : ops <+: ops') : Sequential ops := by
  rw [List.prefix_iff_eq_take.mp hops]
  exact h.take _

end Sequential

/-! ## The exactly-once store -/

/-- The tags seen are those of the sequence. -/
lemma mem_seen_iff (ops : List Op) :
    ∀ tag, tag ∈ (ops.foldl onceStep ([], fun _ => none)).1 ↔ tag ∈ ops.map Op.tag := by
  induction ops using List.reverseRecOn with
  | nil => simp
  | append_singleton ops op ih =>
    intro tag
    rw [List.foldl_append, List.foldl_cons, List.foldl_nil, onceStep, List.map_append,
      List.mem_append, List.map_singleton, List.mem_singleton]
    split_ifs with hseen
    · rw [ih] at hseen ⊢
      exact ⟨Or.inl, fun h => h.elim id fun h => h ▸ hseen⟩
    · rw [List.mem_cons, ih, or_comm]

/-- A repeat writes nothing. -/
lemma applyOnce_concat_of_mem {ops : List Op} {op : Op} (h : op.tag ∈ ops.map Op.tag) :
    applyOnce (ops ++ [op]) = applyOnce ops := by
  rw [applyOnce, List.foldl_append, List.foldl_cons, List.foldl_nil, onceStep,
    if_pos ((mem_seen_iff ops _).mpr h), applyOnce]

/-- The first occurrence of an operation writes. -/
lemma applyOnce_concat_of_notMem {ops : List Op} {op : Op} (h : op.tag ∉ ops.map Op.tag) :
    applyOnce (ops ++ [op]) = write (applyOnce ops) op := by
  rw [applyOnce, List.foldl_append, List.foldl_cons, List.foldl_nil, onceStep,
    if_neg fun hseen => h ((mem_seen_iff ops _).mp hseen), applyOnce]

/-- Exactly the idle operations leave the store as it is. -/
lemma write_eq_self_iff {kvStore : String → Option String} {op : Op} :
    write kvStore op = kvStore ↔ Idle kvStore op := by
  unfold write Idle
  cases op.type with
  | get => simp
  | put => rw [Function.update_eq_self_iff, eq_comm]
  | append =>
    cases hval : kvStore op.key with
    | none =>
      simp only [Function.update_eq_self_iff, hval]
      simp
    | some val =>
      simp only [Function.update_eq_self_iff, hval, Option.some.injEq]
      simp [String.append_eq_left_iff]

/-! ## The result -/

/-- After the sequence, the loop's store is the exactly-once store. -/
def ExactlyOnce (ops : List Op) : Prop :=
  (commitAll ops).map (fun kv => kv.kvStore) = some (applyOnce ops)

/-- The loop applies all operations in order, so that only the resulting store counts. -/
lemma exactlyOnce_iff {ops : List Op} :
    ExactlyOnce ops ↔ (applyAll ops).kvStore = applyOnce ops := by
  rw [ExactlyOnce, kvStore_commitAll, Option.some.injEq]

/-- A repeat is applied again exactly when it is rewound. -/
lemma newer_iff_rewound {ops : List Op} {op : Op} (h : op.tag ∈ ops.map Op.tag) :
    (applyAll ops).newer op = true ↔ Rewound ops op := by
  rw [newer_applyAll_iff, Rewound]
  obtain ⟨prev, hprev⟩ := exists_lastOf h
  constructor
  · exact fun hall => ⟨h, prev, hprev, hall prev hprev⟩
  · rintro ⟨-, prev', hprev', hlt⟩ prev'' hprev''
    rwa [Option.mem_unique hprev'' hprev']

/-- **One more operation.** Where the two stores agree, they agree after the next operation
exactly if this is not a rewound repeat with an effect.

**Proof sketch.** A first occurrence is newer than every operation of its client, so both stores
take it. A repeat is ignored by the exactly-once store, and the loop takes it only if it is
rewound; then the stores still agree exactly if it is idle. -/
lemma exactlyOnce_concat_iff {ops : List Op} {op : Op} (h : Sequential (ops ++ [op]))
    (hops : ExactlyOnce ops) :
    ExactlyOnce (ops ++ [op]) ↔ (Rewound ops op → Idle (applyOnce ops) op) := by
  rw [exactlyOnce_iff] at hops ⊢
  rw [applyAll_concat]
  by_cases hmem : op.tag ∈ ops.map Op.tag
  · rw [applyOnce_concat_of_mem hmem, ← newer_iff_rewound hmem, ← write_eq_self_iff]
    by_cases hnew : (applyAll ops).newer op = true
    · simp [KVState.applyOp, hnew, hops]
    · simp [KVState.applyOp, hnew, hops]
  · have hpos : 1 ≤ op.seqId := (h.tag_cases op.tag (by simp)).1
    have hnew := h.init.newer_of_fresh hpos hmem
    rw [applyOnce_concat_of_notMem hmem]
    simp [KVState.applyOp, hnew, hops, Rewound, hmem]

/-- One operation more. -/
lemma take_succ_of_getElem? {ops : List Op} {i : ℕ} {op : Op} (h : ops[i]? = some op) :
    ops.take (i + 1) = ops.take i ++ [op] := by
  rw [List.take_add_one, h, Option.toList_some]

/-- The stores agree all along when every rewound repeat is idle. -/
lemma exactlyOnce_take {ops : List Op} (h : Sequential ops)
    (hidle : ∀ i op, ops[i]? = some op → Rewound (ops.take i) op → Idle (applyOnce (ops.take i)) op)
    (i : ℕ) : ExactlyOnce (ops.take i) := by
  induction i with
  | zero =>
    rw [List.take_zero, exactlyOnce_iff]
    rfl
  | succ i ih =>
    cases hop : ops[i]? with
    | none => rwa [List.take_add_one, hop, Option.toList_none, List.append_nil]
    | some op =>
      have hseq := h.take (i + 1)
      rw [take_succ_of_getElem? hop] at hseq ⊢
      exact (exactlyOnce_concat_iff hseq ih).mpr (hidle i op hop)

/-- **Exactly-once writes.** For every committed sequence of sequential clerks, the store of the
loop is the exactly-once store at every point of the sequence if and only if every rewound
repeat in it is idle: a `Put` of the value that its key has at this point, an `Append` of the
empty string, or a read.

**Proof sketch.** One more operation keeps the two stores equal just when it is not a rewound repeat
with an effect (`exactlyOnce_concat_iff`). From right to left this is an induction along the
sequence. -/
theorem exactly_once_iff {ops : List Op} (h : Sequential ops) :
    (∀ i, ExactlyOnce (ops.take i)) ↔
      ∀ i op, ops[i]? = some op → Rewound (ops.take i) op → Idle (applyOnce (ops.take i)) op := by
  refine ⟨fun hall i op hop => ?_, exactlyOnce_take h⟩
  have hseq := h.take (i + 1)
  have hnext := hall (i + 1)
  rw [take_succ_of_getElem? hop] at hseq hnext
  exact (exactlyOnce_concat_iff hseq (hall i)).mp hnext

/-- Client 1 appends `value` to key `x`. -/
def appendX (seqId : ℤ) (value : String) : Op :=
  { key := "x", value := value, type := .append, clientId := 1, seqId := seqId }

/-- Client 1 reads key `x`. -/
def readX (seqId : ℤ) : Op := { key := "x", type := .get, clientId := 1, seqId := seqId }

/-- The second read is rewound, but a read is idle. -/
theorem exactly_once_of_repeated_read :
    Sequential [appendX 1 "a", readX 2, appendX 1 "a", readX 2] ∧
      ∀ i, ExactlyOnce ([appendX 1 "a", readX 2, appendX 1 "a", readX 2].take i) := by
  have h : Sequential [appendX 1 "a", readX 2, appendX 1 "a", readX 2] :=
    (((Sequential.nil.issue (by decide) (by decide)).issue (by decide) (by decide)).again
      List.mem_cons_self rfl).again (List.mem_cons_of_mem _ List.mem_cons_self) rfl
  refine ⟨h, (exactly_once_iff h).mpr fun i op hop => ?_⟩
  match i with
  | 0 | 1 | 2 | 3 =>
    obtain rfl := Option.some.inj hop
    decide
  | i + 4 => simp at hop

/-- **An append is applied twice.** Client 1 appends `a`, then `b`; both are committed a second
time. The repeat of the first sets the client's number back to 1, and the repeat of the second
is then taken for a new operation. -/
theorem append_applied_twice :
    Sequential [appendX 1 "a", appendX 2 "b", appendX 1 "a", appendX 2 "b"] ∧
      ((commitAll [appendX 1 "a", appendX 2 "b", appendX 1 "a", appendX 2 "b"]).map
        fun kv => kv.kvStore "x") = some (some "abb") ∧
      applyOnce [appendX 1 "a", appendX 2 "b", appendX 1 "a", appendX 2 "b"] "x" = some "ab" ∧
      ¬ ExactlyOnce [appendX 1 "a", appendX 2 "b", appendX 1 "a", appendX 2 "b"] := by
  refine ⟨(((Sequential.nil.issue (by decide) (by decide)).issue (by decide) (by decide)).again
    List.mem_cons_self rfl).again (List.mem_cons_of_mem _ List.mem_cons_self) rfl,
    by decide, by decide, fun h => ?_⟩
  have hx : (applyAll _).kvStore "x" = applyOnce _ "x" := congrFun (exactlyOnce_iff.mp h) "x"
  revert hx
  decide

/-! ## Whatever is written

Whether a sequence of tags can go wrong for some operations that carry these tags depends on the
tags alone: give the rewound tag an append and make everything else a read. -/

/-- `seqMap` depends on the tags only. -/
lemma seqMap_eq_of_tags {ops ops' : List Op} (h : ops'.map Op.tag = ops.map Op.tag) :
    (applyAll ops').seqMap = (applyAll ops).seqMap := by
  have hfold : ∀ ops : List Op, (applyAll ops).seqMap =
      (ops.map Op.tag).foldl (fun (m : ℤ → Option ℤ) tag => Function.update m tag.1 (some tag.2))
        fun _ => none := by
    intro ops
    induction ops using List.reverseRecOn with
    | nil => rfl
    | append_singleton ops op ih => simp [applyAll_concat, KVState.applyOp, ih, Op.tag]
  rw [hfold, hfold, h]

/-- The test of the applier sees only client ids and numbers. -/
lemma newer_eq_of_tags {ops ops' : List Op} {op op' : Op}
    (h : ops'.map Op.tag = ops.map Op.tag) (htag : op'.tag = op.tag) :
    (applyAll ops').newer op' = (applyAll ops).newer op := by
  obtain ⟨hc, hs⟩ := Prod.mk.inj htag
  rw [KVState.newer, KVState.newer, seqMap_eq_of_tags h, hc, hs]

/-- Whether an operation repeats after an older one depends only on client ids and numbers. -/
lemma rewound_of_tags {ops ops' : List Op} {op op' : Op}
    (h : ops'.map Op.tag = ops.map Op.tag) (htag : op'.tag = op.tag) (hrew : Rewound ops' op') :
    Rewound ops op := by
  have hmem : op.tag ∈ ops.map Op.tag := by
    rw [← h, ← htag]
    exact hrew.1
  rw [← newer_iff_rewound hmem, ← newer_eq_of_tags h htag, newer_iff_rewound hrew.1]
  exact hrew

/-- Operations with the same tags and consistent contents are a sequence of the same clerks.

**Proof sketch.** Induction on the sequence. Tags decide which operations are new and which come
again, and they are the same. -/
lemma Sequential.map {ops : List Op} (h : Sequential ops) (f : Op → Op)
    (htag : ∀ op, (f op).tag = op.tag)
    (hreq : ∀ op op', op.request = op'.request → (f op).request = (f op').request) :
    Sequential (ops.map f) := by
  have htags : ∀ ops : List Op, (ops.map f).map Op.tag = ops.map Op.tag := by
    intro ops
    rw [List.map_map]
    exact List.map_congr_left fun op _ => htag op
  induction h with
  | nil => exact .nil
  | @issue ops op _ hfresh hprev ih =>
    obtain ⟨hc, hs⟩ : (f op).clientId = op.clientId ∧ (f op).seqId = op.seqId :=
      ⟨congrArg Prod.fst (htag op), congrArg Prod.snd (htag op)⟩
    rw [List.map_append]
    refine ih.issue ?_ ?_
    · rwa [htags, htag]
    · rwa [htags, hc, hs]
  | @again ops op op' _ hop' hsame ih =>
    rw [List.map_append]
    exact ih.again (List.mem_map_of_mem hop') (hreq op op' hsame)

/-- Make the operations with one tag appends of one character, and all others reads. -/
def spotlight (tag : ℤ × ℤ) (op : Op) : Op :=
  if op.tag = tag then { op with key := "", value := "x", type := .append }
  else { op with key := "", value := "", type := .get }

/-- The length of what is stored under the empty key. -/
def storedLength (kvStore : String → Option String) : ℕ := ((kvStore "").map String.length).getD 0

section Spotlight

variable {tag : ℤ × ℤ} {kvStore : String → Option String} {op : Op} {ops : List Op}

/-- The spotlight leaves client ids and numbers. -/
lemma tag_spotlight (tag : ℤ × ℤ) (op : Op) : (spotlight tag op).tag = op.tag := by
  unfold spotlight
  split_ifs <;> rfl

/-- The spotlight changes all copies of an operation alike. -/
lemma request_spotlight {op op' : Op} (h : op.request = op'.request) :
    (spotlight tag op).request = (spotlight tag op').request := by
  have htag := Op.tag_eq_of_request_eq h
  simp only [Op.request, Op.mk.injEq] at h
  unfold spotlight
  rw [htag]
  split_ifs <;> simp [Op.request, h]

/-- The spotlight leaves the client ids and numbers of a list. -/
lemma map_tag_spotlight (tag : ℤ × ℤ) (ops : List Op) :
    (ops.map (spotlight tag)).map Op.tag = ops.map Op.tag := by
  rw [List.map_map]
  exact List.map_congr_left fun op _ => tag_spotlight tag op

/-- A list stays sequential under the spotlight. -/
lemma Sequential.spotlight (h : Sequential ops) (tag : ℤ × ℤ) :
    Sequential (ops.map (spotlight tag)) :=
  h.map _ (tag_spotlight tag) fun _ _ => request_spotlight

/-- Under the spotlight, writing an operation makes the stored value longer by one character if it
has the tag. -/
lemma storedLength_write :
    storedLength (write kvStore (spotlight tag op)) =
      storedLength kvStore + if op.tag = tag then 1 else 0 := by
  unfold spotlight
  split_ifs with htag
  · have hx : "x".length = 1 := rfl
    cases hval : kvStore "" <;> simp [write, storedLength, hval, hx]
  · simp [write]

/-- The exactly-once store holds one character at most.

**Proof sketch.** Induction on the sequence. An operation with a known tag writes nothing, and a new
one writes a character just when it has the tag. -/
lemma storedLength_applyOnce (tag : ℤ × ℤ) (ops : List Op) :
    storedLength (applyOnce (ops.map (KvRaft.spotlight tag))) =
      if tag ∈ ops.map Op.tag then 1 else 0 := by
  induction ops using List.reverseRecOn with
  | nil => rfl
  | append_singleton ops op ih =>
    rw [List.map_append, List.map_singleton]
    by_cases hmem : op.tag ∈ ops.map Op.tag
    · rw [applyOnce_concat_of_mem (by rwa [map_tag_spotlight, tag_spotlight]), ih]
      by_cases htag : op.tag = tag
      · subst htag
        simp [hmem]
      · simp [Ne.symm htag]
    · rw [applyOnce_concat_of_notMem (by rwa [map_tag_spotlight, tag_spotlight]),
        storedLength_write, ih]
      by_cases htag : op.tag = tag
      · subst htag
        simp [hmem]
      · simp [htag, Ne.symm htag]

/-- The next operation adds a character when it has the tag and is taken. -/
lemma storedLength_applyAll_concat :
    storedLength (applyAll ((ops ++ [op]).map (KvRaft.spotlight tag))).kvStore =
      storedLength (applyAll (ops.map (KvRaft.spotlight tag))).kvStore +
        if op.tag = tag ∧ (applyAll ops).newer op = true then 1 else 0 := by
  have hnewer : (applyAll (ops.map (KvRaft.spotlight tag))).newer (KvRaft.spotlight tag op) =
      (applyAll ops).newer op :=
    newer_eq_of_tags (map_tag_spotlight tag ops) (tag_spotlight tag op)
  rw [List.map_append, List.map_singleton, applyAll_concat, KVState.applyOp, hnewer]
  by_cases hnew : (applyAll ops).newer op = true
  · simp [hnew, storedLength_write]
  · simp [hnew]

/-- What has been appended stays. -/
lemma storedLength_applyAll_take_le (tag : ℤ × ℤ) (ops : List Op) {i j : ℕ} (hij : i ≤ j) :
    storedLength (applyAll ((ops.take i).map (KvRaft.spotlight tag))).kvStore ≤
      storedLength (applyAll ((ops.take j).map (KvRaft.spotlight tag))).kvStore := by
  induction j, hij using Nat.le_induction with
  | base => exact le_rfl
  | succ j _ ih =>
    cases hop : ops[j]? with
    | none => rwa [List.take_add_one, hop, Option.toList_none, List.append_nil]
    | some op =>
      rw [take_succ_of_getElem? hop, storedLength_applyAll_concat]
      omega

/-- The first occurrence of the tag has been appended. -/
lemma one_le_storedLength (h : Sequential ops) (hmem : tag ∈ ops.map Op.tag) :
    1 ≤ storedLength (applyAll (ops.map (KvRaft.spotlight tag))).kvStore := by
  induction ops using List.reverseRecOn with
  | nil => simp at hmem
  | append_singleton ops op ih =>
    rw [storedLength_applyAll_concat]
    by_cases hold : tag ∈ ops.map Op.tag
    · have := ih h.init hold
      omega
    · obtain rfl : tag = op.tag := by
        rw [List.map_append, List.mem_append] at hmem
        simpa using hmem.resolve_left hold
      have hpos : 1 ≤ op.seqId := (h.tag_cases op.tag (by simp)).1
      rw [if_pos ⟨rfl, h.init.newer_of_fresh hpos hold⟩]
      omega

end Spotlight

/-- **Exactly-once writes, whatever is written.** The final store is the exactly-once store for
all operations that carry these tags if and only if no repeat in the sequence is rewound.

**Proof sketch.** If a repeat is rewound, put the spotlight on its tag: the character is appended
once before it and once again by it, but exactly once in the exactly-once store. Conversely, whether
a repeat is rewound depends on the tags only. -/
theorem exactly_once_for_all_contents_iff {ops : List Op} (h : Sequential ops) :
    (∀ ops', Sequential ops' → ops'.map Op.tag = ops.map Op.tag → ExactlyOnce ops') ↔
      ∀ i op, ops[i]? = some op → ¬ Rewound (ops.take i) op := by
  constructor
  · intro hall i op hop hrew
    have honce := hall _ (h.spotlight op.tag) (map_tag_spotlight op.tag ops)
    rw [exactlyOnce_iff] at honce
    -- the append is made before position `i`, and a second time there
    have hone := one_le_storedLength (h.take i) hrew.1
    have hnew := (newer_iff_rewound hrew.1).mpr hrew
    have htwo : 2 ≤ storedLength (applyAll (ops.map (spotlight op.tag))).kvStore := by
      have hle : i + 1 ≤ ops.length := (List.getElem?_eq_some_iff.mp hop).1
      have hgrow := storedLength_applyAll_take_le op.tag ops hle
      rw [List.take_length, take_succ_of_getElem? hop, storedLength_applyAll_concat,
        if_pos ⟨rfl, hnew⟩] at hgrow
      omega
    rw [honce, storedLength_applyOnce] at htwo
    split_ifs at htwo <;> omega
  · intro hnone ops' h' htags
    have hlen : ops'.take ops'.length = ops' := List.take_length
    rw [← hlen]
    refine exactlyOnce_take h' (fun i op' hop' hrew => ?_) ops'.length
    -- the same place of `ops` holds an operation with the same tag
    have hget : (ops.map Op.tag)[i]? = some op'.tag := by
      rw [← htags, List.getElem?_map, hop', Option.map_some]
    rw [List.getElem?_map] at hget
    obtain ⟨op, hop, htag⟩ := Option.map_eq_some_iff.mp hget
    refine absurd (rewound_of_tags ?_ htag.symm hrew) (hnone i op hop)
    rw [List.map_take, List.map_take, htags]

end KvRaft

end Mit6824
