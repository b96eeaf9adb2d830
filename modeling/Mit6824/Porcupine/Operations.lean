import Mit6824.Porcupine.Parallel
import Mathlib.Data.List.GetD

set_option autoImplicit false

/-!
# Histories of operations

`checkOperations` of `checker.go` partitions a history of operations and makes the entries of each
partition. As long as every operation is called before it returns, whatever order the sort gives to
entries of the same time, they are the entries of a complete history. Where the return of one
operation and the call of another have the same time, the sort decides which of them is first.

## Main definitions

* `Porcupine.LinearizableOps` — a history of operations is linearizable for an order on times.
* `Porcupine.History.ofOperations` — the entries of operations.
* `Porcupine.operationEntries`, `Porcupine.checkOperations` — the partitions as `checkParallel`
  checks them.

## Main results

* `Porcupine.makeEntries_complete` — the entries of operations are complete.
* `Porcupine.History.ofOperations_linearizable` — what is checked lies between two notions that only
  differ for operations that touch.
-/

namespace Porcupine

variable {ι ο σ : Type}

/-- The operations can be put into one order that the object allows and that keeps `before`. -/
def LinearizableOps (next : σ → ι × ο → Option σ) (init : σ)
    (before : Operation ι ο → Operation ι ο → Prop) (ops : List (Operation ι ο)) : Prop :=
  Linearization.Linearizable next (fun o => (o.input, o.output)) before init ops

/-- The operation has returned before the other one is called. -/
def Operation.Ends (o o' : Operation ι ο) : Prop := o.ret < o'.call

/-- The operation has returned when the other one is called, or at the same time. -/
def Operation.Touches (o o' : Operation ι ο) : Prop := o.ret ≤ o'.call

instance [Inhabited ι] [Inhabited ο] : Inhabited (Operation ι ο) := ⟨⟨0, default, 0, default, 0⟩⟩

/-- The entries that `checkOperations` makes of the partitions of a history. -/
def operationEntries (sorter : EntrySorter ι ο) (model : FullModel ι ο σ)
    (history : List (Operation ι ο)) (i : Fin (model.partition history).length) :
    List (Entry ι ο) :=
  makeEntries sorter ((model.partition history).get i)

/-- The steps of `checkOperations`, which are those of `checkParallel` on these entries. -/
def checkOperations [DecidableEq σ] (sorter : EntrySorter ι ο) (model : Model ι ο σ)
    (history : List (Operation ι ο)) (verbose hasTimeout : Bool) :
    Parallel ι ο σ ((fillDefault model).partition history).length →
      ParallelEvent ((fillDefault model).partition history).length →
      Option (Parallel ι ο σ ((fillDefault model).partition history).length) :=
  Parallel.step (fillDefault model) (operationEntries sorter (fillDefault model) history) verbose
    hasTimeout

/-! ## The entries of operations -/

variable {ops : List (Operation ι ο)} {sorter : EntrySorter ι ο}

/-- Every entry is the call or the return of the operation at its place. -/
lemma mem_appendEntries {e : Entry ι ο} {id : ℕ} :
    e ∈ appendEntries ops id ↔
      ∃ (k : ℕ) (o : Operation ι ο), ops[k]? = some o ∧
        (e = o.callEntry (id + k) ∨ e = o.returnEntry (id + k)) := by
  induction ops generalizing id with
  | nil => simp [appendEntries]
  | cons o ops ih =>
    rw [appendEntries, List.mem_cons, List.mem_cons, ih]
    constructor
    · rintro (rfl | rfl | ⟨k, o', hk, he⟩)
      · exact ⟨0, o, rfl, .inl rfl⟩
      · exact ⟨0, o, rfl, .inr rfl⟩
      · exact ⟨k + 1, o', hk, by rwa [Nat.add_assoc, Nat.add_comm 1 k] at he⟩
    · rintro ⟨k, o', hk, he⟩
      cases k with
      | zero =>
        obtain rfl : o = o' := by simpa using hk
        exact he.imp_right fun h => .inl h
      | succ k =>
        refine .inr (.inr ⟨k, o', by simpa using hk, ?_⟩)
        rwa [Nat.add_assoc, Nat.add_comm 1 k]

/-- No two entries are of the same kind and the same operation.

**Proof sketch.** Induction on the operations. All entries of later operations have higher numbers.
-/
lemma appendEntries_nodup (ops : List (Operation ι ο)) (id : ℕ) :
    ((appendEntries ops id).map Entry.mark).Nodup := by
  induction ops generalizing id with
  | nil => exact List.nodup_nil
  | cons o ops ih =>
    -- later operations have higher numbers
    have hid : ∀ kind, (kind, (id : ℤ)) ∉ (appendEntries ops (id + 1)).map Entry.mark := by
      intro kind hmem
      obtain ⟨e, he, hmark⟩ := List.mem_map.mp hmem
      obtain ⟨k, o', -, rfl | rfl⟩ := mem_appendEntries.mp he
      · have := (Prod.mk.inj hmark).2
        simp only [Operation.callEntry] at this
        omega
      · have := (Prod.mk.inj hmark).2
        simp only [Operation.returnEntry] at this
        omega
    rw [appendEntries, List.map_cons, List.map_cons, List.nodup_cons, List.nodup_cons]
    refine ⟨?_, hid _, ih (id + 1)⟩
    rw [List.mem_cons, not_or]
    exact ⟨by simp [Entry.mark, Operation.callEntry, Operation.returnEntry], hid _⟩

/-- The entries are the calls and the returns of the operations. -/
lemma mem_makeEntries {e : Entry ι ο} :
    e ∈ makeEntries sorter ops ↔
      ∃ (k : ℕ) (o : Operation ι ο), ops[k]? = some o ∧
        (e = o.callEntry k ∨ e = o.returnEntry k) := by
  rw [makeEntries, (sorter.perm _).mem_iff, mem_appendEntries]
  simp only [Nat.zero_add]

/-- No call or return occurs twice. -/
lemma makeEntries_nodup (sorter : EntrySorter ι ο) (ops : List (Operation ι ο)) :
    ((makeEntries sorter ops).map Entry.mark).Nodup :=
  ((sorter.perm _).map Entry.mark).nodup_iff.mpr (appendEntries_nodup ops 0)

/-- The entry with a given mark, and the time at its place. -/
lemma makeEntries_idxOf {m : EntryKind × ℤ} {e : Entry ι ο} (he : e ∈ makeEntries sorter ops)
    (hm : e.mark = m) :
    ∃ hi : ((makeEntries sorter ops).map Entry.mark).idxOf m < (makeEntries sorter ops).length,
      (makeEntries sorter ops)[((makeEntries sorter ops).map Entry.mark).idxOf m] = e := by
  obtain ⟨i, hi, rfl⟩ := List.mem_iff_getElem.mp he
  have hidx := (makeEntries_nodup sorter ops).idxOf_getElem i (by simpa using hi)
  rw [List.getElem_map, hm] at hidx
  simp only [hidx]
  exact ⟨hi, trivial⟩

/-- An entry at an earlier place does not have a later time. -/
lemma makeEntries_sorted {i j : ℕ} (hi : i < (makeEntries sorter ops).length)
    (hj : j < (makeEntries sorter ops).length) (hij : i < j) :
    (makeEntries sorter ops)[i].time ≤ (makeEntries sorter ops)[j].time :=
  List.pairwise_iff_getElem.mp (sorter.sorted _) i j hi hj hij

section Times

variable {k j : ℕ} {o o' : Operation ι ο}

/-- The call of an operation is among the entries. -/
lemma callIdx_makeEntries (sorter : EntrySorter ι ο) (hk : ops[k]? = some o) :
    ∃ hi : callIdx (makeEntries sorter ops) k < (makeEntries sorter ops).length,
      (makeEntries sorter ops)[callIdx (makeEntries sorter ops) k] = o.callEntry k :=
  makeEntries_idxOf (mem_makeEntries.mpr ⟨k, o, hk, .inl rfl⟩) rfl

/-- The return of an operation is among the entries. -/
lemma returnIdx_makeEntries (sorter : EntrySorter ι ο) (hk : ops[k]? = some o) :
    ∃ hi : returnIdx (makeEntries sorter ops) k < (makeEntries sorter ops).length,
      (makeEntries sorter ops)[returnIdx (makeEntries sorter ops) k] = o.returnEntry k :=
  makeEntries_idxOf (mem_makeEntries.mpr ⟨k, o, hk, .inr rfl⟩) rfl

/-- The entries of two different kinds do not stand at the same place. -/
lemma returnIdx_ne_callIdx (sorter : EntrySorter ι ο) (hk : ops[k]? = some o)
    (hj : ops[j]? = some o') :
    returnIdx (makeEntries sorter ops) k ≠ callIdx (makeEntries sorter ops) j := by
  intro h
  obtain ⟨_, hr⟩ := returnIdx_makeEntries sorter hk
  obtain ⟨_, hc⟩ := callIdx_makeEntries sorter hj
  simp only [h] at hr
  have := congrArg Entry.kind (hr.symm.trans hc)
  simp [Operation.callEntry, Operation.returnEntry] at this

/-- An operation that returns earlier than another one is called precedes it. -/
lemma precedes_of_lt (hk : ops[k]? = some o) (hj : ops[j]? = some o') (hlt : o.ret < o'.call) :
    Precedes (makeEntries sorter ops) k j := by
  obtain ⟨hr, hre⟩ := returnIdx_makeEntries sorter hk
  obtain ⟨hc, hce⟩ := callIdx_makeEntries sorter hj
  by_contra hnot
  have hne := returnIdx_ne_callIdx sorter hk hj
  have hle := makeEntries_sorted hc hr (by simp only [Precedes] at hnot; omega)
  rw [hre, hce] at hle
  exact absurd hle (Int.not_le.mpr hlt)

/-- An operation that precedes another one does not return later than that one is called. -/
lemma le_of_precedes (hk : ops[k]? = some o) (hj : ops[j]? = some o')
    (h : Precedes (makeEntries sorter ops) k j) : o.ret ≤ o'.call := by
  obtain ⟨hr, hre⟩ := returnIdx_makeEntries sorter hk
  obtain ⟨hc, hce⟩ := callIdx_makeEntries sorter hj
  have hle := makeEntries_sorted hr hc h
  rwa [hre, hce] at hle

/-- An operation that is called before it returns has its call first. -/
lemma callIdx_lt_returnIdx (hk : ops[k]? = some o) (hlt : o.call < o.ret) :
    callIdx (makeEntries sorter ops) k < returnIdx (makeEntries sorter ops) k := by
  obtain ⟨hr, hre⟩ := returnIdx_makeEntries sorter hk
  obtain ⟨hc, hce⟩ := callIdx_makeEntries sorter hk
  by_contra hnot
  have hne := returnIdx_ne_callIdx sorter hk hk
  have hle := makeEntries_sorted hr hc (by omega)
  rw [hre, hce] at hle
  exact absurd hle (Int.not_le.mpr hlt)

end Times

variable [Inhabited ι] [Inhabited ο]

/-- The operation at a place. -/
def opAt (ops : List (Operation ι ο)) (k : ℕ) : Operation ι ο := ops.getD k default

/-- The operation of a number. -/
lemma getElem?_opAt {k : ℕ} (hk : k < ops.length) : ops[k]? = some (opAt ops k) := by
  rw [opAt, List.getD_eq_getElem _ _ hk, List.getElem?_eq_getElem hk]

/-- The operations in their order. -/
lemma map_opAt (ops : List (Operation ι ο)) : (List.range ops.length).map (opAt ops) = ops := by
  refine List.ext_getElem (by simp) fun i hi hi' => ?_
  rw [List.getElem_map, List.getElem_range, opAt, List.getD_eq_getElem _ _ hi']

/-- **The entries of operations are complete** when every operation is called before it returns. -/
theorem makeEntries_complete (sorter : EntrySorter ι ο) (hops : ∀ o ∈ ops, o.call < o.ret) :
    Complete ops.length (fun k => (opAt ops k).input) (fun k => (opAt ops k).output)
      (makeEntries sorter ops) where
  entry e he := by
    obtain ⟨k, o, hk, he⟩ := mem_makeEntries.mp he
    have hlt : k < ops.length := (List.getElem?_eq_some_iff.mp hk).1
    obtain rfl : opAt ops k = o := Option.some.inj ((getElem?_opAt hlt).symm.trans hk)
    rcases he with rfl | rfl
    · exact ⟨k, hlt, rfl, .inl ⟨rfl, rfl⟩⟩
    · exact ⟨k, hlt, rfl, .inr ⟨rfl, rfl⟩⟩
  nodup := makeEntries_nodup sorter ops
  matched k hk := by
    have hget := getElem?_opAt hk
    exact ⟨callIdx_lt_returnIdx hget (hops _ (List.mem_of_getElem? hget)),
      (returnIdx_makeEntries sorter hget).1⟩

namespace History

/-- The complete history of operations. -/
def ofOperations (sorter : EntrySorter ι ο) (ops : List (Operation ι ο))
    (hops : ∀ o ∈ ops, o.call < o.ret) : History ι ο where
  entries := makeEntries sorter ops
  count := ops.length
  inp k := (opAt ops k).input
  out k := (opAt ops k).output
  complete := makeEntries_complete sorter hops

/-- **What the sort leaves open.** A history is linearizable for the checker when it is so with
operations that touch taken as ordered, and then it is so with such operations taken as
concurrent.

**Proof sketch.** Both relations are compared with the order of the sorted entries: an operation
whose return comes before a call ended not later than the call, and one that ended earlier has its
return before it. Fewer constraints leave more histories linearizable. -/
theorem ofOperations_linearizable (model : FullModel ι ο σ) (hops : ∀ o ∈ ops, o.call < o.ret) :
    (LinearizableOps model.next model.init Operation.Touches ops →
        (ofOperations sorter ops hops).Linearizable model) ∧
      ((ofOperations sorter ops hops).Linearizable model →
        LinearizableOps model.next model.init Operation.Ends ops) := by
  have hmap : ∀ before : Operation ι ο → Operation ι ο → Prop,
      LinearizableOps model.next model.init before ops ↔
        Linearization.Linearizable model.next
          (fun k => ((opAt ops k).input, (opAt ops k).output))
          (fun i j => before (opAt ops i) (opAt ops j)) model.init (List.range ops.length) := by
    intro before
    rw [LinearizableOps]
    conv_lhs => rw [← map_opAt ops]
    exact Linearization.linearizable_map (opAt ops)
  rw [hmap, hmap]
  constructor
  · refine fun h => Linearization.Linearizable.mono h fun i hi j hj hb => ?_
    exact le_of_precedes (getElem?_opAt (List.mem_range.mp hi))
      (getElem?_opAt (List.mem_range.mp hj))
      hb
  · refine fun h => Linearization.Linearizable.mono h fun i hi j hj hb => ?_
    exact precedes_of_lt (getElem?_opAt (List.mem_range.mp hi))
      (getElem?_opAt (List.mem_range.mp hj))
      hb

end History

end Porcupine
