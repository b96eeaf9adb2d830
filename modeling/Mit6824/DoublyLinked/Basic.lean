import Mathlib.Data.List.Nodup
import Mathlib.Data.Option.Basic
import Mathlib.Logic.Function.Basic
import Mathlib.Tactic.Common

set_option autoImplicit false

/-!
# Doubly linked lists whose cells can be taken out and put back

Every cell has a `next` and a `prev` link. Taking a cell out makes its neighbours point past it and
leaves its own links alone, so that the same cell can be put back later by making its neighbours
point to it again. Putting back undoes taking out as long as everything done in between has been
undone before.

## Main definitions

* `DoublyLinked.Links` — the links of all cells.
* `DoublyLinked.Chain` — the cells that follow a given cell, in order, with links both ways.
* `DoublyLinked.Links.unlink`, `DoublyLinked.Links.relink`.

## Main results

* `DoublyLinked.Links.relink_unlink` — putting back restores the links.
* `DoublyLinked.Chain.unlink` — taking a cell out removes it from the chain.
* `DoublyLinked.Chain.consFront` — a new cell in front.
-/

namespace DoublyLinked

variable {α : Type*}

/-- The links of all cells. -/
@[ext] structure Links (α : Type*) where
  next : α → Option α
  prev : α → Option α

/-- Following `next` from `a` visits exactly the cells of the list and ends there; each visited cell
points back to the one before it. -/
def Chain (L : Links α) : α → List α → Prop
  | a, [] => L.next a = none
  | a, b :: l => L.next a = some b ∧ L.prev b = some a ∧ Chain L b l

namespace Links

variable [DecidableEq α]

/-- Change the `next` link of a cell. -/
def setNext (L : Links α) (a : α) (v : Option α) : Links α :=
  { L with next := Function.update L.next a v }

/-- Change the `prev` link of a cell. -/
def setPrev (L : Links α) (a : α) (v : Option α) : Links α :=
  { L with prev := Function.update L.prev a v }

/-- A change of a `next` link leaves the `prev` links. -/
@[simp] lemma setNext_prev (L : Links α) (a : α) (v : Option α) : (L.setNext a v).prev = L.prev :=
  rfl

/-- A change of a `prev` link leaves the `next` links. -/
@[simp] lemma setPrev_next (L : Links α) (a : α) (v : Option α) : (L.setPrev a v).next = L.next :=
  rfl

/-- The `next` links after a change of one of them. -/
@[simp] lemma setNext_next (L : Links α) (a : α) (v : Option α) :
    (L.setNext a v).next = Function.update L.next a v := rfl

/-- The `prev` links after a change of one of them. -/
@[simp] lemma setPrev_prev (L : Links α) (a : α) (v : Option α) :
    (L.setPrev a v).prev = Function.update L.prev a v := rfl

/-- Make the neighbours of `a` point to `v` on the side of its predecessor and to `w` on the side of
its successor. -/
def around (L : Links α) (a : α) (v w : Option α) : Links α where
  next := (L.prev a).elim L.next fun p => Function.update L.next p v
  prev := (L.next a).elim L.prev fun q => Function.update L.prev q w

/-- Take `a` out: its neighbours point past it. -/
def unlink (L : Links α) (a : α) : Links α := L.around a (L.next a) (L.prev a)

/-- Put `a` back: its neighbours point to it. -/
def relink (L : Links α) (a : α) : Links α := L.around a (some a) (some a)

/-- The neighbours of `a` point to `a`, and they are not `a`. -/
structure Linked (L : Links α) (a : α) : Prop where
  next_prev : ∀ p, L.prev a = some p → p ≠ a ∧ L.next p = some a
  prev_next : ∀ q, L.next a = some q → q ≠ a ∧ L.prev q = some a

variable {L : Links α} {a b : α}

/-- Only the cell before the one that is taken out gets a new `next` link. -/
lemma unlink_next_of_ne (h : L.prev a ≠ some b) : (L.unlink a).next b = L.next b := by
  cases hp : L.prev a with
  | none => simp [unlink, around, hp]
  | some p =>
    have hpb : b ≠ p := fun hbp => h (hbp ▸ hp)
    simp [unlink, around, hp, hpb]

/-- Only the cell after the one that is taken out gets a new `prev` link. -/
lemma unlink_prev_of_ne (h : L.next a ≠ some b) : (L.unlink a).prev b = L.prev b := by
  cases hq : L.next a with
  | none => simp [unlink, around, hq]
  | some q =>
    have hqb : b ≠ q := fun hbq => h (hbq ▸ hq)
    simp [unlink, around, hq, hqb]

/-- The cell before the one that is taken out then points past it. -/
lemma unlink_next_prev (h : L.prev a = some b) : (L.unlink a).next b = L.next a := by
  simp [unlink, around, h]

/-- The cell after the one that is taken out then points back past it. -/
lemma unlink_prev_next (h : L.next a = some b) : (L.unlink a).prev b = L.prev a := by
  simp [unlink, around, h]

/-- A cell that is taken out keeps its own links. -/
lemma Linked.unlink_next_self (h : L.Linked a) : (L.unlink a).next a = L.next a :=
  unlink_next_of_ne fun hp => (h.next_prev a hp).1 rfl

/-- A cell that is taken out keeps its `prev` link, so that it can be put back. -/
lemma Linked.unlink_prev_self (h : L.Linked a) : (L.unlink a).prev a = L.prev a :=
  unlink_prev_of_ne fun hq => (h.prev_next a hq).1 rfl

/-- **Putting back restores the links.** -/
theorem relink_unlink (h : L.Linked a) : (L.unlink a).relink a = L := by
  have hprev := h.unlink_prev_self
  have hnext := h.unlink_next_self
  ext1
  · show ((L.unlink a).prev a).elim _ _ = _
    rw [hprev]
    cases hp : L.prev a with
    | none => simp [unlink, around, hp]
    | some p => simp [unlink, around, hp, ← (h.next_prev p hp).2]
  · show ((L.unlink a).next a).elim _ _ = _
    rw [hnext]
    cases hq : L.next a with
    | none => simp [unlink, around, hq]
    | some q => simp [unlink, around, hq, ← (h.prev_next q hq).2]

end Links

/-! ## Chains -/

namespace Chain

variable {L L' : Links α} {a b h : α} {l l₁ l₂ : List α}

/-- A chain depends on the links of its cells only. -/
lemma congr (hc : Chain L h l) (hnext : ∀ x ∈ h :: l, L'.next x = L.next x)
    (hprev : ∀ x ∈ l, L'.prev x = L.prev x) : Chain L' h l := by
  induction l generalizing h with
  | nil => exact (hnext h List.mem_cons_self).trans hc
  | cons b l ih =>
    obtain ⟨hn, hp, hrest⟩ := hc
    refine ⟨(hnext h List.mem_cons_self).trans hn, (hprev b List.mem_cons_self).trans hp, ?_⟩
    exact ih hrest (fun x hx => hnext x (List.mem_cons_of_mem _ hx))
      fun x hx => hprev x (List.mem_cons_of_mem _ hx)

/-- The chain behind one of its cells. -/
lemma drop (hc : Chain L h (l₁ ++ a :: l₂)) : Chain L a l₂ := by
  induction l₁ generalizing h with
  | nil => exact hc.2.2
  | cons b l₁ ih => exact ih hc.2.2

/-- The predecessor of a cell of the chain stands before it. -/
lemma prev_mem (hc : Chain L h (l₁ ++ a :: l₂)) :
    ∃ p ∈ h :: l₁, L.prev a = some p ∧ L.next p = some a := by
  induction l₁ generalizing h with
  | nil => exact ⟨h, List.mem_cons_self, hc.2.1, hc.1⟩
  | cons b l₁ ih =>
    obtain ⟨p, hp, hpa⟩ := ih hc.2.2
    exact ⟨p, List.mem_cons_of_mem _ hp, hpa⟩

/-- The successor of a cell is the first one behind it. -/
lemma next_eq (hc : Chain L h l) : L.next h = l.head? := by
  cases l with
  | nil => exact hc
  | cons b l => exact hc.1

/-- The first cell of a chain points back to the head. -/
lemma prev_next (hc : Chain L h l) (hb : L.next h = some b) : b ∈ l ∧ L.prev b = some h := by
  cases l with
  | nil => exact absurd (hc.symm.trans hb) (by simp)
  | cons c l =>
    obtain rfl : c = b := Option.some_injective _ (hc.1.symm.trans hb)
    exact ⟨List.mem_cons_self, hc.2.1⟩

/-- A new cell in front of a chain, linked both ways. -/
lemma consFront [DecidableEq α] (hc : Chain L h l) (ha : a ∉ h :: l) (hh : h ∉ l) :
    Chain ((L.setPrev h (some a)).setNext a (some h)) a (h :: l) := by
  refine ⟨by simp, by simp, hc.congr (fun x hx => ?_) fun x hx => ?_⟩
  · have hxa : x ≠ a := fun hxa => ha (hxa ▸ hx)
    simp [hxa]
  · have hxh : x ≠ h := fun hxh => hh (hxh ▸ hx)
    simp [hxh]

/-- A cell of a chain is linked with its neighbours. -/
lemma linked (hc : Chain L h (l₁ ++ a :: l₂)) (hnd : (h :: (l₁ ++ a :: l₂)).Nodup) :
    L.Linked a := by
  obtain ⟨p, hp, hpa⟩ := hc.prev_mem
  rw [← List.cons_append] at hnd
  obtain ⟨-, hnd₂, hdis⟩ := List.nodup_append.mp hnd
  constructor
  · intro p' hp'
    obtain rfl : p = p' := Option.some_injective _ (hpa.1.symm.trans hp')
    exact ⟨hdis p hp a List.mem_cons_self, hpa.2⟩
  · intro q hq
    obtain ⟨hql, hqa⟩ := hc.drop.prev_next hq
    exact ⟨fun hqa => (List.nodup_cons.mp hnd₂).1 (hqa ▸ hql), hqa⟩

/-- Every cell of a chain is linked and has a cell before it. -/
lemma linked_of_mem (hc : Chain L h l) (hnd : (h :: l).Nodup) (ha : a ∈ l) :
    L.Linked a ∧ (L.prev a).isSome := by
  obtain ⟨l₁, l₂, rfl⟩ := List.append_of_mem ha
  obtain ⟨p, -, hp, -⟩ := hc.prev_mem
  exact ⟨hc.linked hnd, by rw [hp]; rfl⟩

variable [DecidableEq α]

/-- **Taking a cell out of a chain.**

**Proof sketch.** Induction on the cells before `a`. If there are none, the head gets the `next`
link of `a`, and the first cell behind `a` points back to the head. Otherwise the first cell is not
the one before `a` and keeps its links, because no cell occurs twice. -/
theorem unlink (hc : Chain L h (l₁ ++ a :: l₂)) (hnd : (h :: (l₁ ++ a :: l₂)).Nodup) :
    Chain (L.unlink a) h (l₁ ++ l₂) := by
  induction l₁ generalizing h with
  | nil =>
    obtain ⟨hn, hp, hrest⟩ := hc
    obtain ⟨hh, hnd'⟩ := List.nodup_cons.mp hnd
    obtain ⟨-, hnd₂⟩ := List.nodup_cons.mp hnd'
    have hfirst : (L.unlink a).next h = L.next a := Links.unlink_next_prev hp
    have hsame : ∀ x ∈ l₂, (L.unlink a).next x = L.next x := by
      intro x hx
      refine Links.unlink_next_of_ne fun hpx => hh ?_
      rw [Option.some_injective _ (hp.symm.trans hpx)]
      exact List.mem_cons_of_mem _ hx
    cases l₂ with
    | nil => exact hfirst.trans hrest
    | cons b l₂ =>
      obtain ⟨hnb, hpb, hrest⟩ := hrest
      refine ⟨hfirst.trans hnb, (Links.unlink_prev_next hnb).trans hp, ?_⟩
      refine hrest.congr hsame fun x hx => Links.unlink_prev_of_ne fun hnx => ?_
      rw [Option.some_injective _ (hnb.symm.trans hnx)] at hnd₂
      exact (List.nodup_cons.mp hnd₂).1 hx
  | cons b l₁ ih =>
    obtain ⟨hn, hp, hrest⟩ := hc
    obtain ⟨hh, hnd'⟩ := List.nodup_cons.mp hnd
    refine ⟨?_, ?_, ih hrest hnd'⟩
    · rw [Links.unlink_next_of_ne, hn]
      obtain ⟨p, hpmem, hpa, -⟩ := hrest.prev_mem
      intro hph
      rw [Option.some_injective _ (hpa.symm.trans hph)] at hpmem
      exact hh (List.mem_append_left _ hpmem)
    · rw [Links.unlink_prev_of_ne, hp]
      intro hnb
      have hb : b ∈ l₂ := (hrest.drop.prev_next hnb).1
      exact (List.nodup_cons.mp hnd').1 (List.mem_append_right _ (List.mem_cons_of_mem _ hb))

/-- The same for a cell that is given by itself. -/
lemma erase (hc : Chain L h l) (hnd : (h :: l).Nodup) (ha : a ∈ l) :
    Chain (L.unlink a) h (l.erase a) := by
  obtain ⟨l₁, l₂, rfl⟩ := List.append_of_mem ha
  have hal : a ∉ l₁ := by
    intro hal
    exact (List.nodup_append.mp (List.nodup_cons.mp hnd).2).2.2 a hal a List.mem_cons_self rfl
  rw [List.erase_append_right _ hal, List.erase_cons_head]
  exact hc.unlink hnd

end Chain

end DoublyLinked
