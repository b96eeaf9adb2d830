import Mathlib.Data.List.Basic
import Mathlib.Data.List.Infix
import Mathlib.Data.List.Range

set_option autoImplicit false

/-!
# Slices that share an array

A variable of a slice type points to the first cells of an array. Cutting the slice and appending to
it writes into the same array as long as there is room, and else moves to a new one. A slice of the
variable's content that was taken before shares the array: a reader that goes through it cell by
cell sees what is written in the meantime.

## Main definitions

* `Slices.Backing`, `Slices.Arrays` — an array with its capacity, and the arrays a variable has
  pointed to.
* `Slices.Arrays.store`, `Slices.Arrays.move` — assign by cutting and appending, and assign a new
  array.
* `Slices.Slice` — a shared slice with what has been read of it.
* `Slices.Slice.view` — what the reader ends up with if nothing more is written.

## Main results

* `Slices.Slice.view_next` — reading a cell does not change the view.
* `Slices.Arrays.view_slice` — the view of a slice that was just taken is the content.
* `Slices.Arrays.Extends` — arrays whose cells keep a label; the labels of a view are kept with
  them (`Slices.Slice.map_view_of_extends`).
-/

namespace Slices

variable {α β : Type*}

/-! ## Arrays -/

/-- An array: the cells that have been written, and how many there is room for. -/
structure Backing (α : Type*) where
  cells : List α
  capacity : ℕ

/-- The arrays that a variable has pointed to, in order, and the one it points to. -/
structure Arrays (α : Type*) where
  old : List (Backing α)
  present : Backing α

namespace Arrays

/-- The cells of array number `k`. -/
def cellsAt (as : Arrays α) (k : ℕ) : List α :=
  (((as.old ++ [as.present])[k]?).map Backing.cells).getD []

/-- A new array with the content `l` and room for `spare` more. -/
def move (as : Arrays α) (l : List α) (spare : ℕ) : Arrays α :=
  ⟨as.old ++ [as.present], ⟨l, l.length + spare⟩⟩

/-- The variable is cut and appended to, and its content is `l` then: in place if there is room. The
cells behind `l` stay as they are. -/
def store (as : Arrays α) (l : List α) (spare : ℕ) : Arrays α :=
  if l.length ≤ as.present.capacity then
    { as with present := { as.present with cells := l ++ as.present.cells.drop l.length } }
  else as.move l spare

/-- The first array of a variable. -/
def start (l : List α) (spare : ℕ) : Arrays α := ⟨[], ⟨l, l.length + spare⟩⟩

variable {as as' : Arrays α} {l : List α} {spare k : ℕ}

/-- The content is at the start of the array. -/
lemma prefix_store (as : Arrays α) (l : List α) (spare : ℕ) :
    l <+: (as.store l spare).present.cells := by
  unfold store
  split_ifs
  · exact List.prefix_append _ _
  · exact List.prefix_rfl

/-- Moving leaves the arrays before it alone. -/
lemma cellsAt_move (hk : k ≤ as.old.length) : (as.move l spare).cellsAt k = as.cellsAt k := by
  unfold cellsAt move
  rw [List.getElem?_append_left (by simp; omega)]

/-- Writing in place changes the present array only. -/
lemma cellsAt_store_of_lt (hk : k < as.old.length) :
    (as.store l spare).cellsAt k = as.cellsAt k := by
  unfold store
  split_ifs
  · unfold cellsAt
    rw [List.getElem?_append_left hk, List.getElem?_append_left hk]
  · exact cellsAt_move hk.le

/-- The cells of the present array. -/
lemma cellsAt_present (as : Arrays α) : as.cellsAt as.old.length = as.present.cells := by
  simp [cellsAt]

end Arrays

/-! ## Readers -/

/-- A slice of `length` cells from `start` on of array number `array`, and what has been read of
it. -/
structure Slice (α : Type*) where
  array : ℕ
  start : ℕ
  length : ℕ
  read : List α
deriving DecidableEq

namespace Slice

variable {as as' : Arrays α} {sl sl' : Slice α}

/-- The cells that are still to be read, as they are now. -/
def unread (as : Arrays α) (sl : Slice α) : List α :=
  ((as.cellsAt sl.array).drop (sl.start + sl.read.length)).take (sl.length - sl.read.length)

/-- What the reader ends up with if nothing more is written. -/
def view (as : Arrays α) (sl : Slice α) : List α := sl.read ++ sl.unread as

/-- Everything has been read. -/
def Done (sl : Slice α) : Prop := sl.length ≤ sl.read.length

instance : Decidable sl.Done := inferInstanceAs (Decidable (_ ≤ _))

/-- Read the next cell. -/
def next (as : Arrays α) (sl : Slice α) : Option (Slice α) :=
  (sl.unread as).head?.map fun x => { sl with read := sl.read ++ [x] }

/-- Nothing is left of a slice that has been read. -/
lemma Done.unread_eq (h : sl.Done) : sl.unread as = [] := by
  rw [unread, Nat.sub_eq_zero_of_le h, List.take_zero]

/-- A slice that has been read was read as its view says. -/
lemma Done.view_eq (h : sl.Done) (as : Arrays α) : sl.view as = sl.read := by
  rw [view, h.unread_eq, List.append_nil]

/-- **Reading a cell does not change the view.** -/
lemma view_next (h : sl.next as = some sl') : sl'.view as = sl.view as := by
  obtain ⟨x, hx, rfl⟩ := Option.map_eq_some_iff.mp h
  obtain ⟨xs, hxs⟩ := List.head?_eq_some_iff.mp hx
  have hrest : ({ sl with read := sl.read ++ [x] } : Slice α).unread as = xs := by
    have htail : (sl.unread as).drop 1 = xs := by rw [hxs, List.drop_one, List.tail_cons]
    rw [← htail, unread, unread, List.length_append, List.length_singleton, List.drop_take,
      List.drop_drop, Nat.sub_sub, Nat.add_assoc]
  rw [view, hrest, view, hxs, List.append_assoc, List.singleton_append]

/-- A read cell is a cell less to read. -/
lemma next_eq (h : sl.next as = some sl') : sl'.array = sl.array ∧ sl'.start = sl.start ∧
    sl'.length = sl.length ∧ sl'.read.length = sl.read.length + 1 := by
  obtain ⟨x, -, rfl⟩ := Option.map_eq_some_iff.mp h
  exact ⟨rfl, rfl, rfl, by simp⟩

/-- There is a next cell if the view is as long as the slice. -/
lemma exists_next (hlen : (sl.view as).length = sl.length) (h : ¬ sl.Done) :
    ∃ sl', sl.next as = some sl' := by
  unfold Done at h
  have hpos : sl.unread as ≠ [] := by
    intro hnil
    rw [view, hnil, List.append_nil] at hlen
    omega
  obtain ⟨x, xs, hxs⟩ := List.exists_cons_of_ne_nil hpos
  exact ⟨_, by rw [next, hxs, List.head?_cons, Option.map_some]⟩

end Slice

/-! ## Taking a slice -/

namespace Arrays

variable {as as' : Arrays α} {l : List α} {spare k : ℕ}

/-- The slice of `length` cells from `start` on of the present array. -/
def slice (as : Arrays α) (start length : ℕ) : Slice α := ⟨as.old.length, start, length, []⟩

/-- **The view of a new slice is the content.** -/
lemma view_slice (h : l <+: as.present.cells) (k : ℕ) :
    (as.slice k (l.length - k)).view as = l.drop k := by
  obtain ⟨rest, hrest⟩ := h
  rw [Slice.view, Slice.unread, slice, cellsAt_present, ← hrest]
  rcases Nat.lt_or_ge l.length k with hk | hk
  · rw [Nat.sub_eq_zero_of_le hk.le, List.drop_of_length_le hk.le]
    simp
  · simp [List.drop_append_of_le_length hk]

/-! ## Labels of cells -/

/-- No array becomes shorter, and the cells keep their labels. -/
def Extends (f : α → β) (as as' : Arrays α) : Prop :=
  ∀ k, (as.cellsAt k).map f <+: (as'.cellsAt k).map f

/-- A new array leaves the others alone. -/
lemma extends_move (f : α → β) (as : Arrays α) (l : List α) (spare : ℕ) :
    Extends f as (as.move l spare) := by
  intro k
  rcases Nat.lt_or_ge as.old.length k with hk | hk
  · rw [cellsAt, List.getElem?_eq_none (by simp; omega)]
    exact List.nil_prefix
  · rw [cellsAt_move hk]

/-- Labels are kept when the written content continues the labels of the array, or the other way
round.

**Proof sketch.** Arrays that have been left keep their cells. The present one keeps them behind the
written content, or it is left by this write. -/
lemma extends_store {f : α → β} (h : l.map f <+: as.present.cells.map f ∨
    as.present.cells.map f <+: l.map f) (spare : ℕ) : Extends f as (as.store l spare) := by
  intro k
  rcases lt_trichotomy k as.old.length with hk | rfl | hk
  · rw [cellsAt_store_of_lt hk]
  · unfold store
    split_ifs
    · have hsame := cellsAt_present
        ({ as with present := { as.present with cells := l ++ as.present.cells.drop l.length } } :
          Arrays α)
      simp only at hsame
      rw [cellsAt_present, hsame, List.map_append, List.map_drop]
      rcases h with ⟨rest, hrest⟩ | hpre
      · rw [← hrest, List.drop_left' (List.length_map f)]
      · exact hpre.trans (List.prefix_append _ _)
    · exact extends_move f as l spare _
  · rw [cellsAt, List.getElem?_eq_none (by simp; omega)]
    exact List.nil_prefix

end Arrays

namespace Slice

variable {as as' : Arrays α} {sl : Slice α}

/-- **The labels of a view are kept** with those of the cells.

**Proof sketch.** The part that was read is fixed. The other part lies within the old cells, whose
labels are kept. -/
lemma map_view_of_extends {f : α → β} (h : Arrays.Extends f as as')
    (hlen : (sl.view as).length = sl.length) : (sl.view as').map f = (sl.view as).map f := by
  obtain ⟨rest, hrest⟩ := h sl.array
  have hunread : (sl.unread as).length = sl.length - sl.read.length := by
    rw [view, List.length_append] at hlen
    omega
  have hroom : sl.length - sl.read.length ≤
      (((as.cellsAt sl.array).map f).drop (sl.start + sl.read.length)).length := by
    rw [← hunread, ← List.map_drop, List.length_map, unread]
    exact (List.take_sublist _ _).length_le
  rcases Nat.eq_zero_or_pos (sl.length - sl.read.length) with hzero | hpos
  · simp [view, unread, hzero]
  · have hlow : sl.start + sl.read.length ≤ ((as.cellsAt sl.array).map f).length := by
      rw [List.length_drop] at hroom
      omega
    simp only [view, unread, List.map_append, List.map_take, List.map_drop, ← hrest]
    rw [List.drop_append_of_le_length hlow, List.take_append_of_le_length hroom]

end Slice

end Slices
