import Mit6824.Porcupine.Operations
import Mathlib.Data.List.Dedup
import Mathlib.Data.List.Sort
import Mathlib.Data.String.Basic

set_option autoImplicit false

/-!
# The model of a key/value store

`models/kv.go`: histories are partitioned by key, and each partition is checked against a single
value that starts empty. The store itself has a value for every key; the partition is right because
operations on different keys have nothing to do with each other.

## Main definitions

* `Models.KvInput`, `Models.KvOutput`, `Models.kvModel`.
* `Models.kvNext` — the store as one object.

## Main results

* `Models.partitionByKey_eq` — the partitions are the operations of the single keys.
* `Models.product_next` — the store is the product of the values of its keys.
* `Models.check_correct` — the verdict on a history is about the store.
-/

namespace Models

open Porcupine

/-- `KvInput`; `op` is 0 for a get, 1 for a put, 2 for an append. -/
structure KvInput where
  op : UInt8
  key : String
  value : String
  deriving DecidableEq, Inhabited

/-- `KvOutput`. -/
structure KvOutput where
  value : String
  deriving DecidableEq, Inhabited

/-- The map of `Partition`: the operations of each key, in their order in the history. -/
def operationsByKey (history : List (Operation KvInput KvOutput)) :
    String → List (Operation KvInput KvOutput) :=
  history.foldl (fun m v => Function.update m v.input.key (m v.input.key ++ [v])) fun _ => []

/-- The sorted keys of the map. -/
def sortedKeys (history : List (Operation KvInput KvOutput)) : List String :=
  (history.map fun v => v.input.key).dedup.insertionSort fun a b => a ≤ b

/-- `Partition`. -/
def partitionByKey (history : List (Operation KvInput KvOutput)) :
    List (List (Operation KvInput KvOutput)) :=
  (sortedKeys history).map (operationsByKey history)

/-- `KvModel`. -/
def kvModel : Model KvInput KvOutput String where
  partition := some partitionByKey
  partitionEvent := none
  init := ""
  step state inp out :=
    if inp.op = 0 then (out.value = state, state)
    else if inp.op = 1 then (true, inp.value)
    else (true, state ++ inp.value)
  equal := none

/-- The store as one object. -/
def kvNext (store : String → String) (a : KvInput × KvOutput) : Option (String → String) :=
  if a.1.op = 0 then if a.2.value = store a.1.key then some store else none
  else if a.1.op = 1 then some (Function.update store a.1.key a.1.value)
  else some (Function.update store a.1.key (store a.1.key ++ a.1.value))

/-! ## Partitions -/

variable {history : List (Operation KvInput KvOutput)}

/-- The operations of a key. -/
def ofKey (history : List (Operation KvInput KvOutput)) (k : String) :
    List (Operation KvInput KvOutput) :=
  history.filter fun v => v.input.key = k

/-- The partition of the source by keys takes the operations of each key in their order.

**Proof sketch.** Induction over the loop that fills the map of the keys. -/
lemma operationsByKey_eq (history : List (Operation KvInput KvOutput)) (k : String) :
    operationsByKey history k = ofKey history k := by
  have hfold : ∀ (l : List (Operation KvInput KvOutput))
      (m : String → List (Operation KvInput KvOutput)),
      l.foldl (fun m v => Function.update m v.input.key (m v.input.key ++ [v])) m k =
        m k ++ ofKey l k := by
    intro l
    induction l with
    | nil => simp [ofKey]
    | cons v l ih =>
      intro m
      rw [List.foldl_cons, ih]
      by_cases hk : v.input.key = k
      · subst hk
        simp [ofKey]
      · simp [ofKey, hk, Ne.symm hk]
  rw [operationsByKey, hfold]
  exact List.nil_append _

/-- The partitions are the operations of the single keys. -/
theorem partitionByKey_eq (history : List (Operation KvInput KvOutput)) :
    partitionByKey history = (sortedKeys history).map (ofKey history) := by
  rw [partitionByKey]
  exact List.map_congr_left fun k _ => operationsByKey_eq history k

/-- The keys are those of the operations. -/
lemma mem_sortedKeys {k : String} :
    k ∈ sortedKeys history ↔ ∃ v ∈ history, v.input.key = k := by
  simp [sortedKeys]

/-- A key without operations has nothing to be checked. -/
lemma ofKey_eq_nil {k : String} (hk : k ∉ sortedKeys history) : ofKey history k = [] := by
  rw [ofKey, List.filter_eq_nil_iff]
  intro v hv hvk
  exact hk (mem_sortedKeys.mpr ⟨v, hv, by simpa using hvk⟩)

/-! ## The store and its keys -/

/-- **The store is made of one value for each key.** -/
theorem product_next :
    Linearization.product (fillDefault kvModel).next (fun a : KvInput × KvOutput => a.1.key) =
      kvNext := by
  funext store a
  simp only [Linearization.product, FullModel.next, fillDefault, kvModel, kvNext]
  by_cases h0 : a.1.op = 0
  · by_cases hv : a.2.value = store a.1.key
    · simp [h0, hv]
    · simp [h0, hv]
  · by_cases h1 : a.1.op = 1
    · simp [h1]
    · simp [h0, h1]

/-- A linearization of the store's history linearizes the operations of every key. -/
lemma linearizable_ofKey {before : Operation KvInput KvOutput → Operation KvInput KvOutput → Prop}
    (h : LinearizableOps kvNext (fun _ => "") before history) (k : String) :
    LinearizableOps (fillDefault kvModel).next "" before (ofKey history k) := by
  obtain ⟨l, hl⟩ := h
  rw [← product_next] at hl
  exact ⟨_, hl.filter k⟩

/-- Operations of single keys can be merged. -/
lemma linearizable_of_keys (hops : ∀ o ∈ history, o.call < o.ret)
    (h : ∀ k, LinearizableOps (fillDefault kvModel).next "" Operation.Ends (ofKey history k)) :
    LinearizableOps kvNext (fun _ => "") Operation.Ends history := by
  rw [LinearizableOps, ← product_next]
  exact (Linearization.linearizable_product_iff fun o ho => (hops o ho).le).mpr h

/-! ## The verdict -/

variable (sorter : EntrySorter KvInput KvOutput)

/-- The partitions of a history as complete histories. -/
def keyHistories (hops : ∀ o ∈ history, o.call < o.ret)
    (i : Fin ((fillDefault kvModel).partition history).length) : History KvInput KvOutput :=
  .ofOperations sorter (((fillDefault kvModel).partition history).get i) fun o ho => by
    have hmem : ((fillDefault kvModel).partition history).get i ∈ partitionByKey history :=
      List.get_mem _ i
    rw [partitionByKey_eq] at hmem
    obtain ⟨k, -, hk⟩ := List.mem_map.mp hmem
    rw [← hk] at ho
    exact hops o (List.mem_filter.mp ho).1

variable {sorter}

section Verdict

variable {verbose hasTimeout : Bool}
variable {evs : List (ParallelEvent ((fillDefault kvModel).partition history).length)}
variable {p : Parallel KvInput KvOutput String ((fillDefault kvModel).partition history).length}

/-- The invariant of the checker for the partitions of the history. -/
lemma sound_of_follow (hops : ∀ o ∈ history, o.call < o.ret)
    (h : Transition.follow (checkOperations sorter kvModel history verbose hasTimeout)
      (Parallel.start KvInput KvOutput String _) evs = some p) :
    Parallel.Sound (fillDefault kvModel) (keyHistories sorter hops) verbose p :=
  Parallel.Sound.of_follow (fillDefault_equalSound rfl) h

/-- `Ok`: the operations of every key are linearizable, so the history is. -/
lemma linearizable_of_result_ok (hops : ∀ o ∈ history, o.call < o.ret)
    (h : Transition.follow (checkOperations sorter kvModel history verbose hasTimeout)
      (Parallel.start KvInput KvOutput String _) evs = some p) (hok : p.result = some .ok) :
    LinearizableOps kvNext (fun _ => "") Operation.Ends history := by
  refine linearizable_of_keys hops fun k => ?_
  by_cases hk : k ∈ sortedKeys history
  · obtain ⟨i, hi⟩ : ∃ i, ((fillDefault kvModel).partition history).get i = ofKey history k := by
      have hmem : ofKey history k ∈ partitionByKey history := by
        rw [partitionByKey_eq]
        exact List.mem_map_of_mem hk
      exact List.get_of_mem hmem
    rw [← hi]
    exact (History.ofOperations_linearizable (fillDefault kvModel) _).2
      ((sound_of_follow hops h).of_result_ok hok i)
  · rw [ofKey_eq_nil hk]
    exact ⟨[], List.Perm.refl _, List.Pairwise.nil, rfl⟩

/-- `Illegal`: the operations of some key are not linearizable, so the history is not. -/
lemma not_linearizable_of_result_illegal (hops : ∀ o ∈ history, o.call < o.ret)
    (h : Transition.follow (checkOperations sorter kvModel history verbose hasTimeout)
      (Parallel.start KvInput KvOutput String _) evs = some p) (hbad : p.result = some .illegal) :
    ¬ LinearizableOps kvNext (fun _ => "") Operation.Touches history := by
  intro hlin
  obtain ⟨i, hi⟩ := (sound_of_follow hops h).of_result_illegal hbad
  have hmem : ((fillDefault kvModel).partition history).get i ∈ partitionByKey history :=
    List.get_mem _ i
  rw [partitionByKey_eq] at hmem
  obtain ⟨k, -, hk⟩ := List.mem_map.mp hmem
  refine hi ((History.ofOperations_linearizable (fillDefault kvModel) _).1 ?_)
  rw [← hk]
  exact linearizable_ofKey hlin k

/-- **The verdict on a key/value history is about the whole store**, although the checker looks at
one key at a time: `Ok` means that the operations can be put into one order of the store that keeps
their order in time, and `Illegal` that this is not possible if operations that touch count as
ordered. -/
theorem check_correct (hops : ∀ o ∈ history, o.call < o.ret)
    (h : Transition.follow (checkOperations sorter kvModel history verbose hasTimeout)
      (Parallel.start KvInput KvOutput String _) evs = some p) :
    (p.result = some .ok → LinearizableOps kvNext (fun _ => "") Operation.Ends history) ∧
      (p.result = some .illegal →
        ¬ LinearizableOps kvNext (fun _ => "") Operation.Touches history) :=
  ⟨linearizable_of_result_ok hops h, not_linearizable_of_result_illegal hops h⟩

end Verdict

/-- A sort that leaves entries of the same time where they are. -/
def insertionSorter : EntrySorter KvInput KvOutput where
  sort l := l.insertionSort fun a b => a.time ≤ b.time
  perm l := List.perm_insertionSort _ l
  sorted l := by
    have : Std.Total fun a b : Entry KvInput KvOutput => a.time ≤ b.time :=
      ⟨fun a b => le_total _ _⟩
    have : IsTrans (Entry KvInput KvOutput) fun a b => a.time ≤ b.time :=
      ⟨fun _ _ _ hab hbc => le_trans hab hbc⟩
    exact List.pairwise_insertionSort _ l

/-- Four clients, two keys: on each key a `Get` overlaps a `Put` or `Append`. The `Get` of the first
key returns `value`. -/
def overlapping (value : String) : List (Operation KvInput KvOutput) :=
  [⟨0, ⟨1, "x", "a"⟩, 0, ⟨""⟩, 3⟩, ⟨1, ⟨2, "y", "b"⟩, 1, ⟨""⟩, 4⟩, ⟨2, ⟨0, "x", ""⟩, 2, ⟨value⟩, 5⟩,
    ⟨3, ⟨0, "y", ""⟩, 3, ⟨"b"⟩, 6⟩]

/-- The goroutines of the two keys, one after the other, and `receive` for each of the answers. -/
def oneAfterOther {n : ℕ} (hn : 1 < n) (first second answers : ℕ) : List (ParallelEvent n) :=
  List.replicate first (.routine ⟨0, by omega⟩) ++ List.replicate second (.routine ⟨1, hn⟩) ++
    List.replicate answers .receive

/-- The history is accepted when the first `Get` returns what was put, and refused when it returns
what nobody wrote. -/
theorem check_correct_overlapping :
    (∃ p, Transition.follow (checkOperations insertionSorter kvModel (overlapping "a") false false)
        (Parallel.start KvInput KvOutput String _) (oneAfterOther (by decide +kernel) 6 6 2) =
          some p ∧ p.result = some .ok ∧
      LinearizableOps kvNext (fun _ => "") Operation.Ends (overlapping "a")) ∧
    ∃ p, Transition.follow (checkOperations insertionSorter kvModel (overlapping "c") false false)
        (Parallel.start KvInput KvOutput String _) (oneAfterOther (by decide +kernel) 8 3 1) =
          some p ∧ p.result = some .illegal ∧
      ¬ LinearizableOps kvNext (fun _ => "") Operation.Touches (overlapping "c") := by
  have hgood : (Transition.follow
      (checkOperations insertionSorter kvModel (overlapping "a") false false)
      (Parallel.start KvInput KvOutput String _)
      (oneAfterOther (by decide +kernel) 6 6 2)).bind Parallel.result = some .ok := by
    decide +kernel
  have hbad : (Transition.follow
      (checkOperations insertionSorter kvModel (overlapping "c") false false)
      (Parallel.start KvInput KvOutput String _)
      (oneAfterOther (by decide +kernel) 8 3 1)).bind Parallel.result = some .illegal := by
    decide +kernel
  obtain ⟨p, hp, hok⟩ := Option.bind_eq_some_iff.mp hgood
  obtain ⟨q, hq, hillegal⟩ := Option.bind_eq_some_iff.mp hbad
  exact ⟨⟨p, hp, hok, (check_correct (by decide) hp).1 hok⟩, q, hq, hillegal,
    (check_correct (by decide) hq).2 hillegal⟩

end Models
