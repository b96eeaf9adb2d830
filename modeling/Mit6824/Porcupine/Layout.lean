import Mit6824.Porcupine.Checker
import Mathlib.Data.List.Nodup
import Mathlib.Data.List.Perm.Basic

set_option autoImplicit false

/-!
# Complete histories in memory

The entries of a complete history have one call and one later return for each operation and nothing
else. Their nodes are laid out in memory in falling order, with the head of the list at the address
after all of them, so that the order of the entries is the order of addresses.

## Main definitions

* `Porcupine.callIdx`, `Porcupine.returnIdx` — the places of the entries of an operation.
* `Porcupine.Precedes` — an operation returns before another one is called.
* `Porcupine.Complete` — the entries of a complete history.
* `Porcupine.Layout` — how its nodes lie in memory, `Porcupine.Complete.layout`.

## Main results

* `Porcupine.Complete.start_spec` — the variables of the search before its loop.
-/

namespace Porcupine

variable {ι ο σ : Type}

open DoublyLinked (Chain)

/-- Which entry of which operation an entry is. -/
def Entry.mark (e : Entry ι ο) : EntryKind × ℤ := (e.kind, e.id)

/-- The place of the call of operation `k`. -/
def callIdx (l : List (Entry ι ο)) (k : ℕ) : ℕ := (l.map Entry.mark).idxOf (.callEntry, (k : ℤ))

/-- The place of the return of operation `k`. -/
def returnIdx (l : List (Entry ι ο)) (k : ℕ) : ℕ := (l.map Entry.mark).idxOf (.returnEntry, (k : ℤ))

/-- Operation `i` returns before operation `j` is called. -/
def Precedes (l : List (Entry ι ο)) (i j : ℕ) : Prop := returnIdx l i < callIdx l j

instance (l : List (Entry ι ο)) (i j : ℕ) : Decidable (Precedes l i j) :=
  inferInstanceAs (Decidable (_ < _))

/-- The entries of the `n` operations with the inputs `inp` and the outputs `out`. -/
structure Complete (n : ℕ) (inp : ℕ → ι) (out : ℕ → ο) (l : List (Entry ι ο)) : Prop where
  entry : ∀ e ∈ l, ∃ k < n, e.id = (k : ℤ) ∧
    (e.kind = .callEntry ∧ e.value = .input (inp k) ∨
      e.kind = .returnEntry ∧ e.value = .output (out k))
  nodup : (l.map Entry.mark).Nodup
  matched : ∀ k < n, callIdx l k < returnIdx l k ∧ returnIdx l k < l.length

/-- The nodes of `count` operations at the addresses below `size`, linked in falling order behind
the head of the list. -/
structure Layout (ι ο : Type) where
  heap : Heap ι ο
  size : ℕ
  count : ℕ
  inp : ℕ → ι
  out : ℕ → ο
  callAt : ℕ → ℕ
  retAt : ℕ → ℕ
  chain : Chain heap.links size (down size)
  call_lt : ∀ k < count, callAt k < size
  ret_lt : ∀ k < count, retAt k < callAt k
  call_datum : ∀ k < count, heap.datum (callAt k) = (.input (inp k), some (retAt k), (k : ℤ))
  ret_datum : ∀ k < count, heap.datum (retAt k) = (.output (out k), none, (k : ℤ))
  cover : ∀ a < size, ∃ k < count, a = callAt k ∨ a = retAt k

/-- The variables of the search before its loop. -/
def Layout.search (L : Layout ι ο) (model : FullModel ι ο σ) : Search ι ο σ where
  heap := L.heap
  headEntry := L.size
  entry := (down L.size).head?
  linearized := newBitset L.count
  cache := fun _ => []
  calls := []
  longest := List.replicate L.count none
  seqs := []
  state := model.init

namespace Complete

variable {n : ℕ} {inp : ℕ → ι} {out : ℕ → ο} {l : List (Entry ι ο)}

/-- Every operation has a call among the entries. -/
lemma callIdx_lt (hc : Complete n inp out l) {k : ℕ} (hk : k < n) : callIdx l k < l.length :=
  (hc.matched k hk).1.trans (hc.matched k hk).2

/-- The place of an entry is the place of its mark. -/
lemma idxOf_mark (hc : Complete n inp out l) {i : ℕ} (hi : i < l.length) :
    (l.map Entry.mark).idxOf l[i].mark = i := by
  have := hc.nodup.idxOf_getElem i (by simpa using hi)
  simpa using this

/-- The entry at the place of a mark. -/
lemma mark_getElem {m : EntryKind × ℤ} (h : (l.map Entry.mark).idxOf m < l.length) :
    (l[(l.map Entry.mark).idxOf m]).mark = m := by
  have hlt : (l.map Entry.mark).idxOf m < (l.map Entry.mark).length := by simpa using h
  have := List.getElem_idxOf hlt
  rwa [List.getElem_map] at this

/-- The entries at the two places of an operation. -/
lemma getElem_callIdx (hc : Complete n inp out l) {k : ℕ} (hk : k < n) :
    ∃ hi : callIdx l k < l.length, l[callIdx l k].kind = .callEntry ∧ l[callIdx l k].id = (k : ℤ) ∧
      l[callIdx l k].value = .input (inp k) := by
  refine ⟨hc.callIdx_lt hk, ?_⟩
  have hmark := mark_getElem (hc.callIdx_lt hk)
  obtain ⟨hkind, hid⟩ := Prod.mk.injEq .. ▸ hmark
  obtain ⟨k', -, hid', hval⟩ := hc.entry _ (List.getElem_mem (hc.callIdx_lt hk))
  obtain rfl : k = k' := by
    have := hid.symm.trans hid'
    exact_mod_cast this
  refine ⟨hkind, hid, ?_⟩
  rcases hval with hval | hval
  · exact hval.2
  · exact absurd (hkind.symm.trans hval.1) (by simp)

/-- Every operation has a return among the entries, with its output. -/
lemma getElem_returnIdx (hc : Complete n inp out l) {k : ℕ} (hk : k < n) :
    ∃ hi : returnIdx l k < l.length, l[returnIdx l k].kind = .returnEntry ∧
      l[returnIdx l k].id = (k : ℤ) ∧ l[returnIdx l k].value = .output (out k) := by
  refine ⟨(hc.matched k hk).2, ?_⟩
  have hmark := mark_getElem (hc.matched k hk).2
  obtain ⟨hkind, hid⟩ := Prod.mk.injEq .. ▸ hmark
  obtain ⟨k', -, hid', hval⟩ := hc.entry _ (List.getElem_mem (hc.matched k hk).2)
  obtain rfl : k = k' := by
    have := hid.symm.trans hid'
    exact_mod_cast this
  refine ⟨hkind, hid, ?_⟩
  rcases hval with hval | hval
  · exact absurd (hkind.symm.trans hval.1) (by simp)
  · exact hval.2

/-- There are two entries for each operation.

**Proof sketch.** The kinds and numbers of the entries are those of the calls and returns of all
operations, each once. -/
lemma length_eq (hc : Complete n inp out l) : l.length = 2 * n := by
  let all : List (EntryKind × ℤ) :=
    (List.range n).map (fun k : ℕ => (EntryKind.callEntry, (k : ℤ))) ++
      (List.range n).map fun k : ℕ => (EntryKind.returnEntry, (k : ℤ))
  have hall : all.Nodup := by
    refine List.nodup_append.mpr ⟨?_, ?_, ?_⟩
    · exact List.nodup_range.map fun a b hab => Int.natCast_inj.mp (Prod.mk.inj hab).2
    · exact List.nodup_range.map fun a b hab => Int.natCast_inj.mp (Prod.mk.inj hab).2
    · rintro a ha b hb rfl
      simp only [List.mem_map] at ha hb
      obtain ⟨_, _, rfl⟩ := ha
      obtain ⟨_, _, hb⟩ := hb
      simp at hb
  have hperm : (l.map Entry.mark).Perm all := by
    refine (List.perm_ext_iff_of_nodup hc.nodup hall).mpr fun m => ⟨fun hm => ?_, fun hm => ?_⟩
    · obtain ⟨e, he, rfl⟩ := List.mem_map.mp hm
      obtain ⟨k, hk, hid, hval⟩ := hc.entry e he
      rcases hval with hval | hval
      · simp only [all, Entry.mark, hid, hval.1]
        exact List.mem_append_left _ (List.mem_map.mpr ⟨k, List.mem_range.mpr hk, rfl⟩)
      · simp only [all, Entry.mark, hid, hval.1]
        exact List.mem_append_right _ (List.mem_map.mpr ⟨k, List.mem_range.mpr hk, rfl⟩)
    · rw [← List.idxOf_lt_length_iff, List.length_map]
      simp only [all, List.mem_append, List.mem_map, List.mem_range] at hm
      rcases hm with ⟨k, hk, rfl⟩ | ⟨k, hk, rfl⟩
      · exact hc.callIdx_lt hk
      · exact (hc.matched k hk).2
  have := hperm.length_eq
  simp only [all, List.length_map, List.length_append, List.length_range] at this
  omega

/-- What the node of the entry at place `i` holds. -/
lemma datum_getElem {i : ℕ} (hi : i < l.length) :
    (makeLinkedEntries l).heap.datum (l.length - 1 - i) =
      (l[i].value, (entryNode l[i] (makeLinkedEntries (l.drop (i + 1))).returns).matching,
        l[i].id) := by
  have hsplit : l = l.take i ++ l[i] :: l.drop (i + 1) := by
    rw [← List.drop_eq_getElem_cons hi, List.take_append_drop]
  have := makeLinkedEntries_datum (l.take i) l[i] (l.drop (i + 1))
  rw [← hsplit, List.length_drop] at this
  rwa [Nat.sub_sub, Nat.add_comm 1 i]

/-- The call of an operation finds its return.

**Proof sketch.** Split the list at the return. Behind the call and before it there is no other
return of the operation, so the table has the one at this place. -/
lemma returns_callIdx (hc : Complete n inp out l) {k : ℕ} (hk : k < n) :
    (makeLinkedEntries (l.drop (callIdx l k + 1))).returns (k : ℤ) =
      some (l.length - 1 - returnIdx l k) := by
  obtain ⟨hj, hkind, hid, -⟩ := hc.getElem_returnIdx hk
  have hlt := (hc.matched k hk).1
  set i := callIdx l k
  set j := returnIdx l k with hjdef
  have hsplit : l.drop (i + 1) = (l.drop (i + 1)).take (j - (i + 1)) ++ l[j] :: l.drop (j + 1) := by
    have hdrop : (l.drop (i + 1)).drop (j - (i + 1)) = l[j] :: l.drop (j + 1) := by
      rw [List.drop_drop, show i + 1 + (j - (i + 1)) = j by omega, List.drop_eq_getElem_cons hj]
    rw [← hdrop, List.take_append_drop]
  rw [hsplit, ← hid, makeLinkedEntries_returns hkind, List.length_drop]
  · congr 1
    omega
  · intro e he hke hide
    -- the same return would stand at an earlier place
    obtain ⟨x, hx, rfl⟩ := List.mem_iff_getElem.mp he
    simp only [List.length_take, List.length_drop] at hx
    simp only [List.getElem_take, List.getElem_drop] at hke hide
    have hmark : l[i + 1 + x].mark = (.returnEntry, (k : ℤ)) := by
      simp [Entry.mark, hke, hide, hid]
    have := hc.idxOf_mark (i := i + 1 + x) (by omega)
    rw [hmark] at this
    have : j = i + 1 + x := this
    omega

/-- The nodes of the entries and the head of the list. -/
def headed (l : List (Entry ι ο)) : Heap ι ο :=
  insertBefore ((makeLinkedEntries l).heap.alloc (Node.fresh .nil none (-1))) l.length
    (makeLinkedEntries l).root

/-- The linked entries with the head form one chain, in the order of the entries. -/
lemma headed_chain (l : List (Entry ι ο)) : Chain (headed l).links l.length (down l.length) := by
  have hsize := makeLinkedEntries_size l
  have hpush := (makeLinkedEntries_stacked l).push (n := Node.fresh .nil none (-1)) rfl rfl
  rw [hsize] at hpush
  exact (hpush.chain l.length (by simp [hsize])).1

/-- What the node of an entry holds. -/
lemma headed_datum {i : ℕ} (hi : i < l.length) :
    (headed l).datum (l.length - 1 - i) =
      (l[i].value, (entryNode l[i] (makeLinkedEntries (l.drop (i + 1))).returns).matching,
        l[i].id) := by
  rw [headed, insertBefore_datum, Heap.datum_alloc_of_ne, datum_getElem hi]
  rw [makeLinkedEntries_size]
  omega

/-- The address of the call of operation `k`: the entries are linked from the last one on. -/
def callAddr (l : List (Entry ι ο)) (k : ℕ) : ℕ := l.length - 1 - callIdx l k

/-- The address of the return of operation `k`. -/
def returnAddr (l : List (Entry ι ο)) (k : ℕ) : ℕ := l.length - 1 - returnIdx l k

/-- The address of a call is below the head's. -/
lemma callAddr_lt (hc : Complete n inp out l) (k : ℕ) (hk : k < n) : callAddr l k < l.length := by
  have := hc.callIdx_lt hk
  unfold callAddr
  omega

/-- The return of an operation comes behind its call, so its address is smaller. -/
lemma returnAddr_lt (hc : Complete n inp out l) (k : ℕ) (hk : k < n) :
    returnAddr l k < callAddr l k := by
  have := hc.matched k hk
  unfold returnAddr callAddr
  omega

/-- The node of a call has its input and the address of its return. -/
lemma datum_callAddr (hc : Complete n inp out l) (k : ℕ) (hk : k < n) :
    (headed l).datum (callAddr l k) = (.input (inp k), some (returnAddr l k), (k : ℤ)) := by
  obtain ⟨hi, hkind, hid, hval⟩ := hc.getElem_callIdx hk
  rw [callAddr, headed_datum hi, hval, hid]
  simp [entryNode, Node.fresh, hkind, hid, hc.returns_callIdx hk, returnAddr]

/-- The node of a return has its output. -/
lemma datum_returnAddr (hc : Complete n inp out l) (k : ℕ) (hk : k < n) :
    (headed l).datum (returnAddr l k) = (.output (out k), none, (k : ℤ)) := by
  obtain ⟨hi, hkind, hid, hval⟩ := hc.getElem_returnIdx hk
  rw [returnAddr, headed_datum hi, hval, hid]
  simp [entryNode, Node.fresh, hkind]

/-- Every address is that of a call or a return.

**Proof sketch.** The entry at this address is a call or a return, and each of them stands in one
place only. -/
lemma exists_addr (hc : Complete n inp out l) (a : ℕ) (ha : a < l.length) :
    ∃ k < n, a = callAddr l k ∨ a = returnAddr l k := by
  have hi : l.length - 1 - a < l.length := by omega
  obtain ⟨k, hk, hid, hval⟩ := hc.entry _ (List.getElem_mem hi)
  have hidx := hc.idxOf_mark hi
  refine ⟨k, hk, ?_⟩
  rcases hval with hval | hval
  · left
    have : callIdx l k = l.length - 1 - a := by
      rw [← hidx, callIdx, Entry.mark, hval.1, hid]
    unfold callAddr
    omega
  · right
    have : returnIdx l k = l.length - 1 - a := by
      rw [← hidx, returnIdx, Entry.mark, hval.1, hid]
    unfold returnAddr
    omega

/-- The layout of a complete history. -/
def layout (hc : Complete n inp out l) : Layout ι ο where
  heap := headed l
  size := l.length
  count := n
  inp := inp
  out := out
  callAt := callAddr l
  retAt := returnAddr l
  chain := headed_chain l
  call_lt := hc.callAddr_lt
  ret_lt := hc.returnAddr_lt
  call_datum := hc.datum_callAddr
  ret_datum := hc.datum_returnAddr
  cover := hc.exists_addr

/-- The search for a complete history starts. -/
theorem start_spec (hc : Complete n inp out l) (model : FullModel ι ο σ) :
    Search.start model l = some (hc.layout.search model) := by
  have hstack := makeLinkedEntries_stacked l
  have hsize := makeLinkedEntries_size l
  have hroot := hstack.root_eq
  rw [hsize] at hroot
  have hlen : length (makeLinkedEntries l).heap (l.length + 1) (makeLinkedEntries l).root =
      some l.length := by
    cases hN : l.length with
    | zero => rw [hroot, hN]; rfl
    | succ m =>
      rw [hroot, hN, down_succ]
      have hfuel : (down m).length < m + 2 := by simp
      simpa using length_chain (hstack.chain m (hsize.trans hN)).1 hfuel
  have hhalf : l.length / 2 = n := by
    rw [hc.length_eq]
    omega
  simp only [Search.start, hsize, hlen, Option.bind_eq_bind, Option.bind_some, hhalf, Layout.search,
    layout, headed, ← hroot]

/-- The order of the operations is the order of the addresses of their entries. -/
lemma layout_precedes (hc : Complete n inp out l) {i j : ℕ} (hi : i < n) (hj : j < n) :
    hc.layout.callAt j < hc.layout.retAt i ↔ Precedes l i j := by
  have := (hc.matched i hi).2
  have := hc.callIdx_lt hj
  simp only [layout, Precedes, callAddr, returnAddr]
  omega

end Complete

end Porcupine
