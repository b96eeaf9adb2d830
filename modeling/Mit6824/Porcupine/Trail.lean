import Mit6824.Linearization.Basic
import Mit6824.Porcupine.Layout
import Mathlib.Data.List.Basic
import Mathlib.Data.Finset.Card

set_option autoImplicit false

/-!
# The operations taken by the search

At any time the search has taken some operations, one after the other. They are a beginning of a
linearization, and the entries of all others are linked in memory in their old order: every lift has
been made on such a list, so it can be undone.

## Main definitions

* `Porcupine.FullModel.next` — the model as a sequential object.
* `Porcupine.Layout.live` — the entries that are left when some operations have been lifted.
* `Porcupine.Layout.Trail` — operations taken in a row, with the states and the memory.

## Main results

* `Porcupine.Layout.Trail.toPartial` — a trail is a beginning of a linearization.
* `Porcupine.Layout.Trail.chain` — the entries that are left are linked.
* `Porcupine.Layout.Trail.liftable` — an operation that has not been taken can be lifted.
-/

namespace Porcupine

variable {ι ο σ : Type}

open DoublyLinked (Chain)
open Linearization (Partial)

/-- The model as a sequential object: an operation with its output is allowed or not. -/
def FullModel.next (model : FullModel ι ο σ) (s : σ) (a : ι × ο) : Option σ :=
  let (ok, t) := model.step s a.1 a.2
  if ok then some t else none

/-- The model's `Equal` holds only between states that cannot be told apart. -/
def FullModel.EqualSound (model : FullModel ι ο σ) : Prop :=
  ∀ s t, model.equal s t = true → Linearization.Indist model.next s t

/-- Equality of states is sound. -/
lemma fillDefault_equalSound [DecidableEq σ] {model : Model ι ο σ} (h : model.equal = none) :
    (fillDefault model).EqualSound := by
  intro s t hst
  have : s = t := by simpa [fillDefault, h, shallowEqual] using hst
  exact this ▸ Linearization.Indist.refl s

namespace Layout

variable (L : Layout ι ο)

/-- What operation `k` did. -/
def op (k : ℕ) : ι × ο := (L.inp k, L.out k)

/-- Operation `i` returns before operation `j` is called. -/
def Before (i j : ℕ) : Prop := L.callAt j < L.retAt i

variable {L} {j k a : ℕ} {q : List ℕ}

/-- No operation precedes itself. -/
lemma not_before_self (hk : k < L.count) : ¬ L.Before k k := Nat.not_lt.mpr (L.ret_lt k hk).le

/-- Returns have addresses below the head's. -/
lemma ret_lt_size (hk : k < L.count) : L.retAt k < L.size :=
  (L.ret_lt k hk).trans (L.call_lt k hk)

/-- A node is not both a call and a return. -/
lemma callAt_ne_retAt (hj : j < L.count) (hk : k < L.count) : L.callAt j ≠ L.retAt k := by
  intro h
  have := (L.call_datum j hj).symm.trans (h ▸ L.ret_datum k hk)
  simp at this

/-- Different operations have different calls. -/
lemma callAt_inj (hj : j < L.count) (hk : k < L.count) (h : L.callAt j = L.callAt k) : j = k := by
  have := (L.call_datum j hj).symm.trans (h ▸ L.call_datum k hk)
  exact Int.natCast_inj.mp (Prod.mk.inj (Prod.mk.inj this).2).2

/-- Different operations have different returns. -/
lemma retAt_inj (hj : j < L.count) (hk : k < L.count) (h : L.retAt j = L.retAt k) : j = k := by
  have := (L.ret_datum j hj).symm.trans (h ▸ L.ret_datum k hk)
  exact Int.natCast_inj.mp (Prod.mk.inj (Prod.mk.inj this).2).2

/-! ## The entries that are left -/

variable (L) in
/-- The entries that are left when the operations `q` have been lifted. -/
def live (q : List ℕ) : List ℕ :=
  (down L.size).filter fun a => ∀ k ∈ q, a ≠ L.callAt k ∧ a ≠ L.retAt k

/-- The live entries are those of the operations that have not been lifted out. -/
lemma mem_live : a ∈ L.live q ↔ a < L.size ∧ ∀ k ∈ q, a ≠ L.callAt k ∧ a ≠ L.retAt k := by
  simp [live]

/-- At the start all entries are live. -/
@[simp] lemma live_nil : L.live [] = down L.size := by simp [live]

/-- Addresses fall along the list. -/
lemma live_pairwise (q : List ℕ) : (L.live q).Pairwise fun a b => b < a :=
  (down_pairwise L.size).filter _

/-- No entry is live twice, and the head is none of them. -/
lemma live_nodup (q : List ℕ) : (L.size :: L.live q).Nodup := by
  refine List.nodup_cons.mpr ⟨fun h => ?_, (live_pairwise q).imp fun h => h.ne'⟩
  exact Nat.lt_irrefl _ (mem_live.mp h).1

/-- The call of an operation that has not been lifted out is live. -/
lemma callAt_mem_live (hk : k < L.count) (hkq : k ∉ q) (hq : ∀ j ∈ q, j < L.count) :
    L.callAt k ∈ L.live q := by
  refine mem_live.mpr ⟨L.call_lt k hk, fun j hj => ⟨fun h => hkq ?_, ?_⟩⟩
  · rwa [callAt_inj hk (hq j hj) h]
  · exact callAt_ne_retAt hk (hq j hj)

/-- The return of an operation that has not been lifted out is live. -/
lemma retAt_mem_live (hk : k < L.count) (hkq : k ∉ q) (hq : ∀ j ∈ q, j < L.count) :
    L.retAt k ∈ L.live q := by
  refine mem_live.mpr ⟨ret_lt_size hk, fun j hj => ⟨?_, fun h => hkq ?_⟩⟩
  · exact (callAt_ne_retAt (hq j hj) hk).symm
  · rwa [retAt_inj hk (hq j hj) h]

/-- An entry that is left is one of an operation that has not been taken. -/
lemma exists_of_mem_live (ha : a ∈ L.live q) :
    ∃ k < L.count, k ∉ q ∧ (a = L.callAt k ∨ a = L.retAt k) := by
  obtain ⟨hlt, hne⟩ := mem_live.mp ha
  obtain ⟨k, hk, hka⟩ := L.cover a hlt
  refine ⟨k, hk, fun hkq => ?_, hka⟩
  rcases hka with rfl | rfl
  · exact (hne k hkq).1 rfl
  · exact (hne k hkq).2 rfl

/-- Taking one more operation removes its two entries. -/
lemma live_concat (q : List ℕ) (k : ℕ) :
    L.live (q ++ [k]) = ((L.live q).erase (L.callAt k)).erase (L.retAt k) := by
  have hnd : (L.live q).Nodup := (List.nodup_cons.mp (live_nodup q)).2
  rw [(hnd.erase _).erase_eq_filter, hnd.erase_eq_filter, List.filter_filter, live, live,
    List.filter_filter]
  refine List.filter_congr fun a _ => ?_
  rw [Bool.eq_iff_iff]
  simp only [decide_eq_true_eq, Bool.and_eq_true, bne_iff_ne, List.mem_append, List.mem_singleton,
    or_imp, forall_and, forall_eq]
  tauto

/-! ## Trails -/

variable (L) in
/-- The operations `path`, each with the state before it, have been taken one after the other; this
leads to the state and the memory that are the last two arguments. -/
inductive Trail (model : FullModel ι ο σ) : List (ℕ × σ) → σ → Heap ι ο → Prop
  | nil : Trail model [] model.init L.heap
  | snoc {path : List (ℕ × σ)} {s t : σ} {h h' : Heap ι ο} {k : ℕ} : Trail model path s h →
      k < L.count → k ∉ path.map Prod.fst →
      (∀ j < L.count, L.Before j k → j ∈ path.map Prod.fst) →
      model.next s (L.op k) = some t → lift h (L.callAt k) = some h' →
      Trail model (path ++ [(k, s)]) t h'

namespace Trail

variable {model : FullModel ι ο σ} {path : List (ℕ × σ)} {s t : σ} {h h' : Heap ι ο}

/-- A trail is a beginning of a linearization. -/
theorem toPartial (ht : L.Trail model path s h) :
    Partial model.next L.op L.Before model.init (List.range L.count) (path.map Prod.fst) s := by
  induction ht with
  | nil => exact .nil
  | snoc _ hk hkp hmin hnext _ ih =>
    rw [List.map_append, List.map_singleton]
    refine ih.snoc (List.mem_range.mpr hk) hkp (fun j hj hb => ?_) hnext
    exact hmin j (List.mem_range.mp hj) hb

/-- The operations of a trail are operations of the history. -/
lemma lt_count (ht : L.Trail model path s h) : ∀ j ∈ path.map Prod.fst, j < L.count :=
  fun j hj => List.mem_range.mp (ht.toPartial.subset j hj)

/-- A trail has each operation at most once. -/
lemma length_le (ht : L.Trail model path s h) : path.length ≤ L.count := by
  have hsub : path.map Prod.fst ⊆ List.range L.count := fun j hj => ht.toPartial.subset j hj
  have := (List.subperm_of_subset ht.toPartial.nodup hsub).length_le
  simpa using this

/-- What a trail does to the memory: it unlinks entries. -/
structure Linked (L : Layout ι ο) (q : List ℕ) (h : Heap ι ο) : Prop where
  chain : Chain h.links L.size (L.live q)
  datum : ∀ x, h.datum x = L.heap.datum x

/-- What the node of a call holds. -/
lemma Linked.call_node (hl : Linked L q h) (hk : k < L.count) :
    (h.node (L.callAt k)).value = .input (L.inp k) ∧
      (h.node (L.callAt k)).matching = some (L.retAt k) ∧ (h.node (L.callAt k)).id = (k : ℤ) := by
  have := (hl.datum (L.callAt k)).trans (L.call_datum k hk)
  simpa only [Heap.datum, Prod.mk.injEq] using this

/-- What the node of a return holds. -/
lemma Linked.ret_node (hl : Linked L q h) (hk : k < L.count) :
    (h.node (L.retAt k)).value = .output (L.out k) ∧ (h.node (L.retAt k)).matching = none := by
  have := (hl.datum (L.retAt k)).trans (L.ret_datum k hk)
  simp only [Heap.datum, Prod.mk.injEq] at this
  exact ⟨this.1, this.2.1⟩

/-- An operation that has not been taken can be lifted.

**Proof sketch.** Call and return are in the list, so they are linked to their neighbours; the
return is still linked when the call has been taken out. The return stands behind the call, so the
call has a next entry. -/
lemma Linked.liftable (hl : Linked L q h) (hq : ∀ j ∈ q, j < L.count) (hk : k < L.count)
    (hkq : k ∉ q) : Liftable h (L.callAt k) (L.retAt k) := by
  have hcall := callAt_mem_live hk hkq hq
  have hret := retAt_mem_live hk hkq hq
  have hnd := live_nodup (L := L) q
  obtain ⟨hlinked, hprev⟩ := hl.chain.linked_of_mem hnd hcall
  have hret' : L.retAt k ∈ (L.live q).erase (L.callAt k) :=
    (List.mem_erase_of_ne (callAt_ne_retAt hk hk).symm).mpr hret
  have hnd' : (L.size :: (L.live q).erase (L.callAt k)).Nodup :=
    hnd.sublist (List.Sublist.cons_cons _ (List.erase_sublist ..))
  obtain ⟨hlinked', hprev'⟩ := (hl.chain.erase hnd hcall).linked_of_mem hnd' hret'
  refine ⟨hlinked, hprev, ?_, ?_, hlinked', hprev'⟩
  · -- the return stands behind the call, so something does
    obtain ⟨l₁, l₂, hsplit⟩ := List.append_of_mem hcall
    have hchain := hl.chain
    rw [hsplit] at hchain hret
    have hpair := live_pairwise (L := L) q
    rw [hsplit] at hpair
    have hmem : L.retAt k ∈ l₂ := by
      rcases List.mem_append.mp hret with h₁ | h₂
      · have := (List.pairwise_append.mp hpair).2.2 _ h₁ _ List.mem_cons_self
        exact absurd this (Nat.not_lt.mpr (L.ret_lt k hk).le)
      · rcases List.mem_cons.mp h₂ with h₂ | h₂
        · exact absurd h₂.symm (callAt_ne_retAt hk hk)
        · exact h₂
    rw [hchain.drop.next_eq]
    cases l₂ with
    | nil => simp at hmem
    | cons b l₂ => rfl
  · exact (hl.call_node hk).2.1

/-- Lifting one more operation. -/
lemma Linked.lift (hl : Linked L q h) (hq : ∀ j ∈ q, j < L.count) (hk : k < L.count)
    (hkq : k ∉ q) : ∃ h', Porcupine.lift h (L.callAt k) = some h' ∧ Linked L (q ++ [k]) h' := by
  obtain ⟨h', hlift, -, hdatum, hlinks⟩ := lift_spec (hl.liftable hq hk hkq)
  refine ⟨h', hlift, ?_, fun x => (hdatum x).trans (hl.datum x)⟩
  have hcall := callAt_mem_live hk hkq hq
  have hnd := live_nodup (L := L) q
  have hret : L.retAt k ∈ (L.live q).erase (L.callAt k) :=
    (List.mem_erase_of_ne (callAt_ne_retAt hk hk).symm).mpr (retAt_mem_live hk hkq hq)
  have hnd' : (L.size :: (L.live q).erase (L.callAt k)).Nodup :=
    hnd.sublist (List.Sublist.cons_cons _ (List.erase_sublist ..))
  rw [hlinks, live_concat]
  exact (hl.chain.erase hnd hcall).erase hnd' hret

/-- The entries that are left are linked. -/
theorem linked (ht : L.Trail model path s h) : Linked L (path.map Prod.fst) h := by
  induction ht with
  | nil => exact ⟨by simpa using L.chain, fun _ => rfl⟩
  | snoc hpre hk hkp _ _ hlift ih =>
    obtain ⟨g, hg, hlinked⟩ := ih.lift hpre.lt_count hk hkp
    obtain rfl := Option.some_injective _ (hg.symm.trans hlift)
    simpa using hlinked

/-- The operation taken last can be given up: this leads back to where the search was before. -/
theorem unsnoc {x : ℕ × σ} (ht : L.Trail model (path ++ [x]) t h') :
    x.1 < L.count ∧ x.1 ∉ path.map Prod.fst ∧
      (∀ j < L.count, L.Before j x.1 → j ∈ path.map Prod.fst) ∧
      ∃ h, L.Trail model path x.2 h ∧ unlift h' (L.callAt x.1) = some h := by
  generalize hp : path ++ [x] = p at ht
  cases ht with
  | nil => simp at hp
  | snoc hpre hk hkp hmin _ hlift =>
    obtain ⟨rfl, hx⟩ := List.append_inj' hp rfl
    obtain rfl := List.singleton_inj.mp hx
    exact ⟨hk, hkp, hmin, _, hpre, unlift_lift (hpre.linked.liftable hpre.lt_count hk hkp) hlift⟩

end Trail

end Layout

end Porcupine
