import Mit6824.DoublyLinked.Basic
import Mathlib.Data.Int.Order.Basic
import Mathlib.Tactic.Common

set_option autoImplicit false

/-!
# Histories, their entries and the linked list of entries

`model.go` and the first half of `checker.go`: a history of operations or of events becomes a list
of call and return entries, and the entries become a doubly linked list of nodes in memory. Inputs
and outputs have types of their own; a value that is passed around as `interface{}` is one of them
or nil.

## Main definitions

* `Porcupine.Operation`, `Porcupine.Event`, `Porcupine.Model`, `Porcupine.fillDefault`.
* `Porcupine.makeEntries`, `Porcupine.renumber`, `Porcupine.convertEntries`.
* `Porcupine.Heap`, `Porcupine.insertBefore`, `Porcupine.length`, `Porcupine.makeLinkedEntries`.

## Main results

* `Porcupine.Stacked.push` — a new node is linked in front of all others.
* `Porcupine.makeLinkedEntries_stacked` — the nodes are linked in the order of the entries.
* `Porcupine.makeLinkedEntries_datum`, `Porcupine.makeLinkedEntries_returns` — what a node holds.
-/

namespace Porcupine

/-! ## Histories and models -/

/-- `Operation`, with its invocation and response times. -/
structure Operation (ι ο : Type) where
  clientId : ℤ
  input : ι
  call : ℤ
  output : ο
  ret : ℤ
  deriving DecidableEq

/-- What an `interface{}` holds: nil, an input or an output. -/
inductive Value (ι ο : Type) where
  | nil
  | input (i : ι)
  | output (o : ο)

/-- `EventKind`. -/
inductive EventKind where
  | callEvent
  | returnEvent
  deriving DecidableEq

/-- `Event`. -/
structure Event (ι ο : Type) where
  clientId : ℤ
  kind : EventKind
  value : Value ι ο
  id : ℤ

/-- `Model`, without the functions that describe operations and states for a visualization. A
function that is not given is `none`. -/
structure Model (ι ο σ : Type) where
  partition : Option (List (Operation ι ο) → List (List (Operation ι ο)))
  partitionEvent : Option (List (Event ι ο) → List (List (Event ι ο)))
  init : σ
  step : σ → ι → ο → Bool × σ
  equal : Option (σ → σ → Bool)

/-- A model all of whose functions are given. -/
structure FullModel (ι ο σ : Type) where
  partition : List (Operation ι ο) → List (List (Operation ι ο))
  partitionEvent : List (Event ι ο) → List (List (Event ι ο))
  init : σ
  step : σ → ι → ο → Bool × σ
  equal : σ → σ → Bool

variable {ι ο σ : Type}

/-- `NoPartition`. -/
def noPartition (history : List (Operation ι ο)) : List (List (Operation ι ο)) := [history]

/-- `NoPartitionEvent`. -/
def noPartitionEvent (history : List (Event ι ο)) : List (List (Event ι ο)) := [history]

/-- `ShallowEqual`. -/
def shallowEqual [DecidableEq σ] (state1 state2 : σ) : Bool := state1 = state2

/-- `fillDefault`. -/
def fillDefault [DecidableEq σ] (model : Model ι ο σ) : FullModel ι ο σ where
  partition := model.partition.getD noPartition
  partitionEvent := model.partitionEvent.getD noPartitionEvent
  init := model.init
  step := model.step
  equal := model.equal.getD shallowEqual

/-- `Step` on what nodes hold. The step function of a model asserts that it is given an input and an
output; an assertion that fails panics. -/
def FullModel.stepValue (model : FullModel ι ο σ) (state : σ) :
    Value ι ο → Value ι ο → Option (Bool × σ)
  | .input i, .output o => some (model.step state i o)
  | _, _ => none

/-! ## Entries -/

/-- `entryKind`. -/
inductive EntryKind where
  | callEntry
  | returnEntry
  deriving DecidableEq

/-- `entry`. -/
structure Entry (ι ο : Type) where
  kind : EntryKind
  value : Value ι ο
  id : ℤ
  time : ℤ
  clientId : ℤ

/-- `sort.Sort(byTime(entries))`: some reordering in which the times do not decrease. The source
does not ask for a stable sort, so nothing is known about entries of the same time. -/
structure EntrySorter (ι ο : Type) where
  sort : List (Entry ι ο) → List (Entry ι ο)
  perm : ∀ l, (sort l).Perm l
  sorted : ∀ l, (sort l).Pairwise fun a b => a.time ≤ b.time

/-- The call entry of an operation. -/
def Operation.callEntry (elem : Operation ι ο) (id : ℕ) : Entry ι ο :=
  ⟨.callEntry, .input elem.input, id, elem.call, elem.clientId⟩

/-- The return entry of an operation. -/
def Operation.returnEntry (elem : Operation ι ο) (id : ℕ) : Entry ι ο :=
  ⟨.returnEntry, .output elem.output, id, elem.ret, elem.clientId⟩

/-- The loop of `makeEntries`: two entries for each operation, which is numbered by its place. -/
def appendEntries (history : List (Operation ι ο)) (id : ℕ) : List (Entry ι ο) :=
  match history with
  | [] => []
  | elem :: history => elem.callEntry id :: elem.returnEntry id :: appendEntries history (id + 1)

/-- `makeEntries`. -/
def makeEntries (sorter : EntrySorter ι ο) (history : List (Operation ι ο)) : List (Entry ι ο) :=
  sorter.sort (appendEntries history 0)

/-- The loop of `renumber`, with the numbers given so far. -/
def renumberFrom (m : ℤ → Option ℤ) (id : ℤ) : List (Event ι ο) → List (Event ι ο)
  | [] => []
  | v :: events =>
    match m v.id with
    | some r => { v with id := r } :: renumberFrom m id events
    | none =>
      { v with id := id } :: renumberFrom (Function.update m v.id (some id)) (id + 1) events

/-- `renumber`. -/
def renumber (events : List (Event ι ο)) : List (Event ι ο) := renumberFrom (fun _ => none) 0 events

/-- `convertEntries`: the place of an event is its time. -/
def convertEntries (events : List (Event ι ο)) : List (Entry ι ο) :=
  events.mapIdx fun i elem =>
    { kind := if elem.kind = .returnEvent then .returnEntry else .callEntry
      value := elem.value, id := elem.id, time := i, clientId := elem.clientId }

/-! ## Nodes in memory -/

/-- `node`; pointers are addresses, nil is `none`. -/
structure Node (ι ο : Type) where
  value : Value ι ο
  matching : Option ℕ
  id : ℤ
  next : Option ℕ
  prev : Option ℕ

/-- A node that is not linked. -/
def Node.fresh (value : Value ι ο) (matching : Option ℕ) (id : ℤ) : Node ι ο :=
  ⟨value, matching, id, none, none⟩

/-- The nodes that have been made, at the addresses below `size`. -/
structure Heap (ι ο : Type) where
  size : ℕ
  node : ℕ → Node ι ο

namespace Heap

variable (h : Heap ι ο)

/-- Nothing has been made. -/
def empty : Heap ι ο := ⟨0, fun _ => Node.fresh .nil none 0⟩

/-- `&node{...}`; its address is the old `size`. -/
def alloc (n : Node ι ο) : Heap ι ο := ⟨h.size + 1, Function.update h.node h.size n⟩

/-- `p.next = v`. -/
def setNext (p : ℕ) (v : Option ℕ) : Heap ι ο :=
  { h with node := Function.update h.node p { h.node p with next := v } }

/-- `p.prev = v`. -/
def setPrev (p : ℕ) (v : Option ℕ) : Heap ι ο :=
  { h with node := Function.update h.node p { h.node p with prev := v } }

/-- The links between the nodes. -/
def links : DoublyLinked.Links ℕ := ⟨fun p => (h.node p).next, fun p => (h.node p).prev⟩

/-- The parts of a node that are set once and for all. -/
def datum (p : ℕ) : Value ι ο × Option ℕ × ℤ :=
  ((h.node p).value, (h.node p).matching, (h.node p).id)

variable (p q : ℕ) (v : Option ℕ) (n : Node ι ο)

/-- Setting a link makes no node. -/
@[simp] lemma setNext_size : (h.setNext p v).size = h.size := rfl

/-- Setting a link makes no node. -/
@[simp] lemma setPrev_size : (h.setPrev p v).size = h.size := rfl

/-- A new node is one node more. -/
@[simp] lemma alloc_size : (h.alloc n).size = h.size + 1 := rfl

/-- Setting `next` in a node changes one link. -/
@[simp] lemma links_setNext : (h.setNext p v).links = h.links.setNext p v := by
  ext1
  · funext q
    by_cases hq : q = p <;> simp [links, setNext, hq]
  · funext q
    by_cases hq : q = p <;> simp [links, setNext, hq]

/-- Setting `prev` in a node changes one link. -/
@[simp] lemma links_setPrev : (h.setPrev p v).links = h.links.setPrev p v := by
  ext1
  · funext q
    by_cases hq : q = p <;> simp [links, setPrev, hq]
  · funext q
    by_cases hq : q = p <;> simp [links, setPrev, hq]

/-- Setting a link leaves what the nodes hold. -/
@[simp] lemma datum_setNext : (h.setNext p v).datum q = h.datum q := by
  by_cases hq : q = p <;> simp [datum, setNext, hq]

/-- Setting a link leaves what the nodes hold. -/
@[simp] lemma datum_setPrev : (h.setPrev p v).datum q = h.datum q := by
  by_cases hq : q = p <;> simp [datum, setPrev, hq]

variable {h h' : Heap ι ο}

/-- A heap is its size, its links and the data of its nodes. -/
lemma ext_parts (hsize : h.size = h'.size) (hlinks : h.links = h'.links)
    (hdatum : ∀ q, h.datum q = h'.datum q) : h = h' := by
  obtain ⟨size, node⟩ := h
  obtain ⟨size', node'⟩ := h'
  obtain rfl : size = size' := hsize
  congr 1
  funext q
  have hn : (node q).next = (node' q).next := congrFun (congrArg DoublyLinked.Links.next hlinks) q
  have hp : (node q).prev = (node' q).prev := congrFun (congrArg DoublyLinked.Links.prev hlinks) q
  have hd := hdatum q
  simp only [datum, Prod.mk.injEq] at hd
  cases hq : node q with
  | mk value matching id next prev =>
    cases hq' : node' q with
    | mk value' matching' id' next' prev' => simp_all

end Heap

/-- `insertBefore`; the source returns the node it was given. -/
def insertBefore (h : Heap ι ο) (n : ℕ) (mark : Option ℕ) : Heap ι ο :=
  match mark with
  | none => h
  | some mark =>
    let beforeMark := (h.node mark).prev
    let h := (h.setPrev mark (some n)).setNext n (some mark)
    match beforeMark with
    | none => h
    | some beforeMark => (h.setPrev n (some beforeMark)).setNext beforeMark (some n)

/-- `length`, as long as `fuel` lasts. -/
def length (h : Heap ι ο) : ℕ → Option ℕ → Option ℕ
  | _, none => some 0
  | 0, some _ => none
  | fuel + 1, some n => (length h fuel (h.node n).next).map fun l => l + 1

/-- What the loop of `makeLinkedEntries` works on: the nodes, `root` and `match`. -/
structure Linking (ι ο : Type) where
  heap : Heap ι ο
  root : Option ℕ
  returns : ℤ → Option ℕ

/-- The body of the loop of `makeLinkedEntries`. -/
def linkEntry (elem : Entry ι ο) (acc : Linking ι ο) : Linking ι ο :=
  let p := acc.heap.size
  match elem.kind with
  | .returnEntry =>
    let h := acc.heap.alloc (Node.fresh elem.value none elem.id)
    ⟨insertBefore h p acc.root, some p, Function.update acc.returns elem.id (some p)⟩
  | .callEntry =>
    let h := acc.heap.alloc (Node.fresh elem.value (acc.returns elem.id) elem.id)
    ⟨insertBefore h p acc.root, some p, acc.returns⟩

/-- `makeLinkedEntries`, which goes through the entries from the last one to the first one. -/
def makeLinkedEntries (entries : List (Entry ι ο)) : Linking ι ο :=
  entries.foldr linkEntry ⟨Heap.empty, none, fun _ => none⟩

/-! ## The linked entries

Nodes are made from the last entry to the first, so that the node of an entry has as its address the
number of entries behind it, and addresses fall along the list. -/

open DoublyLinked (Chain)

/-- The addresses below `n` in falling order. -/
def down (n : ℕ) : List ℕ := (List.range n).reverse

/-- No addresses. -/
@[simp] lemma down_zero : down 0 = [] := rfl

/-- The largest address comes first. -/
lemma down_succ (n : ℕ) : down (n + 1) = n :: down n := by
  simp [down, List.range_succ]

/-- The addresses below `n`. -/
@[simp] lemma mem_down {a n : ℕ} : a ∈ down n ↔ a < n := by simp [down]

/-- There are `n` addresses below `n`. -/
@[simp] lemma length_down (n : ℕ) : (down n).length = n := by simp [down]

/-- Addresses fall along the list. -/
lemma down_pairwise (n : ℕ) : (down n).Pairwise (fun a b => b < a) :=
  List.pairwise_reverse.mpr List.pairwise_lt_range

section Heap

variable {h : Heap ι ο} {n : Node ι ο} {root : Option ℕ}

/-- A new node leaves the links of the others. -/
lemma Heap.links_alloc_of_ne {q : ℕ} (hq : q ≠ h.size) :
    (h.alloc n).links.next q = h.links.next q ∧ (h.alloc n).links.prev q = h.links.prev q := by
  simp [Heap.links, Heap.alloc, hq]

/-- A new node leaves what the others hold. -/
lemma Heap.datum_alloc_of_ne {q : ℕ} (hq : q ≠ h.size) : (h.alloc n).datum q = h.datum q := by
  simp [Heap.datum, Heap.alloc, hq]

/-- What a new node holds. -/
lemma Heap.datum_alloc_size : (h.alloc n).datum h.size = (n.value, n.matching, n.id) := by
  simp [Heap.datum, Heap.alloc]

/-- Inserting a node makes no other one. -/
@[simp] lemma insertBefore_size (p : ℕ) : (insertBefore h p root).size = h.size := by
  unfold insertBefore
  split
  · rfl
  · dsimp only
    split <;> rfl

/-- Inserting a node leaves what the nodes hold. -/
@[simp] lemma insertBefore_datum (p q : ℕ) : (insertBefore h p root).datum q = h.datum q := by
  unfold insertBefore
  split
  · rfl
  · dsimp only
    split <;> simp

/-- All nodes are linked, the newest one in front, and `root` is the newest one. -/
structure Stacked (h : Heap ι ο) (root : Option ℕ) : Prop where
  root_eq : root = (down h.size).head?
  chain : ∀ m, h.size = m + 1 → Chain h.links m (down m) ∧ h.links.prev m = none

/-- Nothing has been made, and there is no root. -/
lemma stacked_empty : Stacked (Heap.empty : Heap ι ο) none :=
  ⟨rfl, fun m hm => absurd hm (by simp [Heap.empty])⟩

/-- A new node in front of all others.

**Proof sketch.** If there was no node, the new one is alone. Otherwise it is put before the root;
the chain from the root on is not touched, since the new node is behind all others in the heap. -/
lemma Stacked.push (hs : Stacked h root) (hnext : n.next = none) (hprev : n.prev = none) :
    Stacked (insertBefore (h.alloc n) h.size root) (some h.size) := by
  refine ⟨by simp [down_succ], fun m hm => ?_⟩
  obtain rfl : h.size = m := by simpa using hm
  have hfresh : (h.alloc n).links.next h.size = none ∧ (h.alloc n).links.prev h.size = none := by
    simp [Heap.links, Heap.alloc, hnext, hprev]
  cases hsize : h.size with
  | zero =>
    have hroot : root = none := by rw [hs.root_eq, hsize]; rfl
    rw [hsize] at hfresh
    rw [hroot, insertBefore]
    exact hfresh
  | succ m =>
    have hroot : root = some m := by rw [hs.root_eq, hsize, down_succ]; rfl
    obtain ⟨hchain, hm⟩ := hs.chain m hsize
    have hold : ∀ x, x ≤ m → (h.alloc n).links.next x = h.links.next x ∧
        (h.alloc n).links.prev x = h.links.prev x :=
      fun x hx => Heap.links_alloc_of_ne (by omega)
    have hchain' : Chain (h.alloc n).links m (down m) := by
      refine hchain.congr (fun x hx => (hold x ?_).1) fun x hx => (hold x ?_).2
      · rcases List.mem_cons.mp hx with rfl | hx
        · exact Nat.le_refl _
        · exact Nat.le_of_lt (mem_down.mp hx)
      · exact Nat.le_of_lt (mem_down.mp hx)
    have hbefore : ((h.alloc n).node m).prev = none := (hold m (Nat.le_refl m)).2.trans hm
    rw [hroot, insertBefore]
    simp only [hbefore, Heap.links_setNext, Heap.links_setPrev]
    rw [← hsize]
    constructor
    · rw [hsize, down_succ, ← hsize]
      refine hchain'.consFront ?_ (by simp)
      simp [hsize]
    · have hne : h.size ≠ m := by omega
      simpa [hne] using hfresh.2

/-- `length` counts the nodes of a chain. -/
lemma length_chain {a : ℕ} {l : List ℕ} (hc : Chain h.links a l) {fuel : ℕ}
    (hfuel : l.length < fuel) : length h fuel (some a) = some (l.length + 1) := by
  induction l generalizing a fuel with
  | nil =>
    obtain ⟨fuel, rfl⟩ : ∃ k, fuel = k + 1 := ⟨fuel - 1, by simp at hfuel; omega⟩
    have hnext : (h.node a).next = none := hc
    simp [length, hnext]
  | cons b l ih =>
    obtain ⟨fuel, rfl⟩ : ∃ k, fuel = k + 1 := ⟨fuel - 1, by simp at hfuel; omega⟩
    have hnext : (h.node a).next = some b := hc.1
    rw [length, hnext, ih hc.2.2 (by simpa using hfuel)]
    rfl

end Heap

variable {l t : List (Entry ι ο)}

/-- The node that an entry becomes. -/
def entryNode (elem : Entry ι ο) (returns : ℤ → Option ℕ) : Node ι ο :=
  Node.fresh elem.value
    (match elem.kind with
      | .returnEntry => none
      | .callEntry => returns elem.id) elem.id

/-- Every entry becomes a new root, in front of the old one. -/
lemma linkEntry_heap (elem : Entry ι ο) (acc : Linking ι ο) :
    (linkEntry elem acc).heap =
      insertBefore (acc.heap.alloc (entryNode elem acc.returns)) acc.heap.size acc.root ∧
    (linkEntry elem acc).root = some acc.heap.size := by
  cases hk : elem.kind <;> simp [linkEntry, entryNode, hk]

/-- The return of an operation is remembered for its call. -/
lemma linkEntry_returns (elem : Entry ι ο) (acc : Linking ι ο) :
    (linkEntry elem acc).returns = if elem.kind = .returnEntry then
      Function.update acc.returns elem.id (some acc.heap.size) else acc.returns := by
  cases hk : elem.kind <;> simp [linkEntry, hk]

/-- The first entry is linked last. -/
lemma makeLinkedEntries_cons (elem : Entry ι ο) (l : List (Entry ι ο)) :
    makeLinkedEntries (elem :: l) = linkEntry elem (makeLinkedEntries l) := rfl

/-- There is one node for each entry. -/
lemma makeLinkedEntries_size (l : List (Entry ι ο)) :
    (makeLinkedEntries l).heap.size = l.length := by
  induction l with
  | nil => rfl
  | cons elem l ih => simp [makeLinkedEntries_cons, linkEntry_heap, ih]

/-- The nodes are linked in the order of the entries. -/
theorem makeLinkedEntries_stacked (l : List (Entry ι ο)) :
    Stacked (makeLinkedEntries l).heap (makeLinkedEntries l).root := by
  induction l with
  | nil => exact stacked_empty
  | cons elem l ih =>
    rw [makeLinkedEntries_cons, (linkEntry_heap _ _).1, (linkEntry_heap _ _).2]
    exact ih.push rfl rfl

/-- What the node of an entry holds. -/
theorem makeLinkedEntries_datum (l : List (Entry ι ο)) (elem : Entry ι ο) (t : List (Entry ι ο)) :
    (makeLinkedEntries (l ++ elem :: t)).heap.datum t.length =
      (elem.value, (entryNode elem (makeLinkedEntries t).returns).matching, elem.id) := by
  induction l with
  | nil =>
    rw [List.nil_append, makeLinkedEntries_cons, (linkEntry_heap _ _).1, insertBefore_datum,
      ← makeLinkedEntries_size t, Heap.datum_alloc_size]
    rfl
  | cons e l ih =>
    rw [List.cons_append, makeLinkedEntries_cons, (linkEntry_heap _ _).1, insertBefore_datum,
      Heap.datum_alloc_of_ne, ih]
    rw [makeLinkedEntries_size]
    simp
    omega

/-- The return entry that is found for an id is the next one with that id. -/
theorem makeLinkedEntries_returns {l t : List (Entry ι ο)} {elem : Entry ι ο}
    (hk : elem.kind = .returnEntry)
    (hl : ∀ e ∈ l, e.kind = .returnEntry → e.id ≠ elem.id) :
    (makeLinkedEntries (l ++ elem :: t)).returns elem.id = some t.length := by
  induction l with
  | nil =>
    rw [List.nil_append, makeLinkedEntries_cons, linkEntry_returns, if_pos hk,
      makeLinkedEntries_size]
    simp
  | cons e l ih =>
    have hrest := ih fun e' he' => hl e' (List.mem_cons_of_mem _ he')
    rw [List.cons_append, makeLinkedEntries_cons, linkEntry_returns]
    split_ifs with hke
    · rw [Function.update_of_ne (hl e List.mem_cons_self hke).symm, hrest]
    · exact hrest

end Porcupine
