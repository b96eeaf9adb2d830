import Mit6824.Porcupine.Bitset
import Mit6824.Porcupine.Model

set_option autoImplicit false

/-!
# The search for a linearization

`checkSingle` of `checker.go`. It walks along the linked entries. At a call whose operation the
model allows next, and which leads to a configuration that it has not seen, it takes the operation:
the call and its return are lifted out of the list, and the walk starts over. At a return it gives
up the operation taken last, puts its entries back and goes on behind its call. One iteration of the
loop is one step here, so that the value of `kill` can be different at every one of them.

Dereferencing nil, an index out of range and a failed type assertion panic; the result is then
`none`.

## Main definitions

* `Porcupine.lift`, `Porcupine.unlift`, `Porcupine.cacheContains`.
* `Porcupine.Search` — the variables of `checkSingle`, `Porcupine.Search.start` — before the loop.
* `Porcupine.Search.step` — one iteration, `Porcupine.checkSingle` — the whole function.

## Main results

* `Porcupine.lift_spec` — what `lift` does to the links.
* `Porcupine.unlift_lift` — `unlift` undoes `lift`.
-/

namespace Porcupine

variable {ι ο σ : Type}

/-- `cacheEntry`. -/
structure CacheEntry (σ : Type) where
  linearized : Bitset
  state : σ

/-- `callsEntry`. -/
structure CallsEntry (σ : Type) where
  entry : ℕ
  state : σ

/-- `map[uint64][]cacheEntry`. -/
abbrev Cache (σ : Type) := BitVec 64 → List (CacheEntry σ)

/-- `cacheContains`. -/
def cacheContains (model : FullModel ι ο σ) (cache : Cache σ) (entry : CacheEntry σ) : Bool :=
  (cache entry.linearized.hash).any fun elem =>
    entry.linearized.equals elem.linearized && model.equal entry.state elem.state

/-- `cache[hash] = append(cache[hash], newCacheEntry)`. -/
def Cache.add (cache : Cache σ) (entry : CacheEntry σ) : Cache σ :=
  let hash := entry.linearized.hash
  Function.update cache hash (cache hash ++ [entry])

/-- `lift`. -/
def lift (h : Heap ι ο) (entry : ℕ) : Option (Heap ι ο) := do
  let entryPrev ← (h.node entry).prev
  let h := h.setNext entryPrev (h.node entry).next
  let entryNext ← (h.node entry).next
  let h := h.setPrev entryNext (h.node entry).prev
  let matching ← (h.node entry).matching
  let matchPrev ← (h.node matching).prev
  let h := h.setNext matchPrev (h.node matching).next
  match (h.node matching).next with
  | none => some h
  | some matchNext => some (h.setPrev matchNext (h.node matching).prev)

/-- `unlift`. -/
def unlift (h : Heap ι ο) (entry : ℕ) : Option (Heap ι ο) := do
  let matching ← (h.node entry).matching
  let matchPrev ← (h.node matching).prev
  let h := h.setNext matchPrev (some matching)
  let h := match (h.node matching).next with
    | none => h
    | some matchNext => h.setPrev matchNext (some matching)
  let entryPrev ← (h.node entry).prev
  let h := h.setNext entryPrev (some entry)
  let entryNext ← (h.node entry).next
  some (h.setPrev entryNext (some entry))

/-- The variables of `checkSingle`. `longest` has pointers to the sequences in `seqs`. -/
structure Search (ι ο σ : Type) where
  heap : Heap ι ο
  headEntry : ℕ
  entry : Option ℕ
  linearized : Bitset
  cache : Cache σ
  calls : List (CallsEntry σ)
  longest : List (Option ℕ)
  seqs : List (List ℤ)
  state : σ

/-- How an iteration ends: the loop goes on, or the function returns. -/
inductive Progress (ι ο σ : Type) where
  | next (s : Search ι ο σ)
  | done (ok : Bool) (s : Search ι ο σ)

/-- The answer, if there is one. -/
def Progress.answer : Progress ι ο σ → Option Bool
  | .next _ => none
  | .done ok _ => some ok

/-- The variables at the end of an iteration. -/
def Progress.search : Progress ι ο σ → Search ι ο σ
  | .next s => s
  | .done _ s => s

/-- An index; a negative one is out of every range, also after its conversion by `uint`. -/
def index (id : ℤ) : Option ℕ := if id < 0 then none else some id.toNat

namespace Search

/-- The ids of the operations taken so far, `seq[i] = v.entry.id`. -/
def seq (s : Search ι ο σ) : List ℤ := s.calls.map fun v => (s.heap.node v.entry).id

/-- The variables before the loop. -/
def start (model : FullModel ι ο σ) (history : List (Entry ι ο)) : Option (Search ι ο σ) := do
  let linked := makeLinkedEntries history
  let len ← length linked.heap (linked.heap.size + 1) linked.root
  let n := len / 2
  let headEntry := linked.heap.size
  let heap := insertBefore (linked.heap.alloc (Node.fresh .nil none (-1))) headEntry linked.root
  some
    { heap := heap, headEntry := headEntry, entry := linked.root, linearized := newBitset n
      cache := fun _ => [], calls := [], longest := List.replicate n none, seqs := []
      state := model.init }

/-- The branch for a call whose return is the node `matching`. -/
def tryCall (model : FullModel ι ο σ) (s : Search ι ο σ) (entry matching : ℕ) :
    Option (Search ι ο σ) := do
  let node := s.heap.node entry
  let (ok, newState) ← model.stepValue s.state node.value (s.heap.node matching).value
  if ok then
    let pos ← index node.id
    let newLinearized ← s.linearized.clone.set pos
    let newCacheEntry : CacheEntry σ := ⟨newLinearized, newState⟩
    if !cacheContains model s.cache newCacheEntry then
      let linearized ← s.linearized.set pos
      let heap ← lift s.heap entry
      some
        { s with
          cache := s.cache.add newCacheEntry
          calls := s.calls ++ [⟨entry, s.state⟩]
          state := newState
          linearized := linearized
          heap := heap
          entry := (heap.node s.headEntry).next }
    else some { s with entry := node.next }
  else some { s with entry := node.next }

/-- One round of the loop that keeps the sequence `seqs[ptr]` of length `callsLen` for the id of a
call when nothing longer is known for it. -/
def keepLonger (seqs : List (List ℤ)) (ptr callsLen : ℕ) (longest : List (Option ℕ)) (id : ℤ) :
    Option (List (Option ℕ)) := do
  let pos ← index id
  let slot ← longest[pos]?
  match slot with
  | none => some (longest.set pos (some ptr))
  | some old =>
    let oldSeq ← seqs[old]?
    if callsLen > oldSeq.length then some (longest.set pos (some ptr)) else some longest

/-- `longest` at a return entry. The source makes the new sequence when it first needs it; before
that nothing points to it. -/
def noteLongest (s : Search ι ο σ) : Option (Search ι ο σ) := do
  let seqs := s.seqs ++ [s.seq]
  let longest ← s.seq.foldlM (keepLonger seqs s.seqs.length s.calls.length) s.longest
  some { s with longest := longest, seqs := seqs }

/-- The branch for a return, or for a call that has none. -/
def backtrack (computePartial : Bool) (s : Search ι ο σ) : Option (Progress ι ο σ) :=
  match s.calls.getLast? with
  | none => some (.done false s)
  | some callsTop => do
    let s ← if computePartial then s.noteLongest else some s
    let pos ← index (s.heap.node callsTop.entry).id
    let linearized ← s.linearized.clear pos
    let heap ← unlift s.heap callsTop.entry
    some (.next
      { s with
        state := callsTop.state
        linearized := linearized
        calls := s.calls.dropLast
        heap := heap
        entry := (heap.node callsTop.entry).next })

/-- After the loop: `calls` is a linearization of everything. -/
def finish (s : Search ι ο σ) : Search ι ο σ :=
  { s with
    longest := List.replicate s.longest.length (some s.seqs.length)
    seqs := s.seqs ++ [s.seq] }

/-- One iteration of the loop. -/
def step (model : FullModel ι ο σ) (computePartial kill : Bool) (s : Search ι ο σ) :
    Option (Progress ι ο σ) :=
  if (s.heap.node s.headEntry).next = none then some (.done true s.finish)
  else if kill then some (.done false s)
  else
    match s.entry with
    | none => none
    | some entry =>
      match (s.heap.node entry).matching with
      | some matching => (s.tryCall model entry matching).map .next
      | none => s.backtrack computePartial

/-- At most `fuel` iterations; `kill` has the values that the iterations read. -/
def run (model : FullModel ι ο σ) (computePartial : Bool) :
    ℕ → (ℕ → Bool) → Search ι ο σ → Option (Progress ι ο σ)
  | 0, _, s => some (.next s)
  | fuel + 1, kill, s =>
    match s.step model computePartial (kill 0) with
    | some (.next s') => run model computePartial fuel (fun k => kill (k + 1)) s'
    | result => result

/-- What `longest` points to. -/
def partials (s : Search ι ο σ) : List (Option (List ℤ)) :=
  s.longest.map fun slot => slot.bind fun ptr => s.seqs[ptr]?

end Search

/-- `checkSingle`, with at most `fuel` iterations of its loop. -/
def checkSingle (model : FullModel ι ο σ) (history : List (Entry ι ο)) (computePartial : Bool)
    (kill : ℕ → Bool) (fuel : ℕ) : Option (Progress ι ο σ) :=
  (Search.start model history).bind fun s => s.run model computePartial fuel kill

/-! ## Lifting and unlifting -/

section Lift

variable {h h' : Heap ι ο} {a m p : ℕ}

/-- Make the predecessor `p` of a node point to `v`, and the successor, if there is one, to `w`. -/
def redirect (h : Heap ι ο) (a p : ℕ) (v w : Option ℕ) : Heap ι ο :=
  match (h.node a).next with
  | none => h.setNext p v
  | some q => (h.setNext p v).setPrev q w

/-- Changing links makes no nodes. -/
@[simp] lemma redirect_size (v w : Option ℕ) : (redirect h a p v w).size = h.size := by
  unfold redirect
  split <;> rfl

/-- Changing links leaves what the nodes hold. -/
@[simp] lemma redirect_datum (v w : Option ℕ) (x : ℕ) :
    (redirect h a p v w).datum x = h.datum x := by
  unfold redirect
  split <;> simp

/-- The links after both neighbours of a node have been changed. -/
lemma redirect_links (hp : h.links.prev a = some p) (v w : Option ℕ) :
    (redirect h a p v w).links = h.links.around a v w := by
  have hnext : (h.node a).next = h.links.next a := rfl
  rw [redirect, hnext]
  cases hq : h.links.next a with
  | none =>
    simp only [Heap.links_setNext]
    ext1 <;> simp [DoublyLinked.Links.around, hp, hq]
  | some q =>
    simp only [Heap.links_setNext, Heap.links_setPrev]
    ext1 <;> simp [DoublyLinked.Links.around, hp, hq]

/-- A changed link leaves the other nodes. -/
lemma Heap.setNext_node_of_ne (hne : a ≠ p) (v : Option ℕ) : (h.setNext p v).node a = h.node a := by
  simp [Heap.setNext, hne]

/-- `lift` redirects the neighbours of the call, then those of the return. -/
lemma lift_eq {g : Heap ι ο} {mp : ℕ} (hne : a ≠ p) (hne' : m ≠ mp)
    (hp : (h.node a).prev = some p) (hq : (h.node a).next ≠ none)
    (hg : redirect h a p (h.node a).next (h.node a).prev = g) (hm : (g.node a).matching = some m)
    (hmp : (g.node m).prev = some mp) :
    lift h a = some (redirect g m mp (g.node m).next (g.node m).prev) := by
  obtain ⟨q, hq⟩ := Option.ne_none_iff_exists'.mp hq
  simp only [redirect, hq] at hg
  simp only [lift, hp, hq, Heap.setNext_node_of_ne hne, Option.bind_eq_bind, Option.bind_some]
  rw [hp] at hg
  simp only [hg, hm, hmp, Heap.setNext_node_of_ne hne', Option.bind_some, redirect]
  split <;> rfl

/-- `unlift` makes the neighbours of the return point to it, then those of the call. -/
lemma unlift_eq {g : Heap ι ο} {mp : ℕ} (hne : a ≠ p) (hne' : m ≠ mp)
    (hm : (h.node a).matching = some m) (hmp : (h.node m).prev = some mp)
    (hg : redirect h m mp (some m) (some m) = g) (hp : (g.node a).prev = some p)
    (hq : (g.node a).next ≠ none) :
    unlift h a = some (redirect g a p (some a) (some a)) := by
  obtain ⟨q, hq⟩ := Option.ne_none_iff_exists'.mp hq
  simp only [unlift, hm, hmp, Heap.setNext_node_of_ne hne', Option.bind_eq_bind, Option.bind_some]
  rw [redirect] at hg
  simp only [hg, hp, hq, Heap.setNext_node_of_ne hne, Option.bind_some, redirect]

/-- The call `a` and its return `m` can be taken out of the list, one after the other. -/
structure Liftable (h : Heap ι ο) (a m : ℕ) : Prop where
  linked : h.links.Linked a
  prev : (h.links.prev a).isSome
  next : (h.links.next a).isSome
  matching : (h.node a).matching = some m
  linkedMatch : (h.links.unlink a).Linked m
  prevMatch : ((h.links.unlink a).prev m).isSome

/-- The matching return is part of what a node holds. -/
lemma Heap.matching_eq_of_datum {x : ℕ} (hd : h'.datum x = h.datum x) :
    (h'.node x).matching = (h.node x).matching := by
  simp only [Heap.datum, Prod.mk.injEq] at hd
  exact hd.2.1

/-- **What `lift` does.** Both entries are taken out of the list and nothing else changes.

**Proof sketch.** Each half of `lift` redirects the neighbours of one entry, which unlinks it
(`redirect_links`). The second half finds what the first one left. -/
theorem lift_spec (hl : Liftable h a m) :
    ∃ h', lift h a = some h' ∧ h'.size = h.size ∧ (∀ x, h'.datum x = h.datum x) ∧
      h'.links = (h.links.unlink a).unlink m := by
  obtain ⟨p, hp⟩ := Option.isSome_iff_exists.mp hl.prev
  obtain ⟨mp, hmp⟩ := Option.isSome_iff_exists.mp hl.prevMatch
  -- the heap between the two halves
  obtain ⟨g, hg⟩ : ∃ g, redirect h a p (h.links.next a) (h.links.prev a) = g := ⟨_, rfl⟩
  have hglinks : g.links = h.links.unlink a := by
    rw [← hg]
    exact redirect_links hp _ _
  have hgm : (g.node a).matching = some m := by
    rw [← hl.matching]
    exact Heap.matching_eq_of_datum (by rw [← hg, redirect_datum])
  have hgmp : g.links.prev m = some mp := by rw [hglinks, hmp]
  refine ⟨redirect g m mp (g.links.next m) (g.links.prev m), ?_, ?_, fun x => ?_, ?_⟩
  · exact lift_eq (hl.linked.next_prev p hp).1.symm (hl.linkedMatch.next_prev mp hmp).1.symm hp
      (Option.isSome_iff_ne_none.mp hl.next) hg hgm hgmp
  · rw [redirect_size, ← hg, redirect_size]
  · rw [redirect_datum, ← hg, redirect_datum]
  · rw [redirect_links hgmp, hglinks]
    rfl

/-- **`unlift` undoes `lift`.**

**Proof sketch.** The halves are undone in the opposite order. Each relinks an entry that has kept
its own links (`Links.relink_unlink`). -/
theorem unlift_lift (hl : Liftable h a m) (hlift : lift h a = some h') : unlift h' a = some h := by
  obtain ⟨g', hg', hsize, hdatum, hlinks⟩ := lift_spec hl
  obtain rfl : g' = h' := Option.some_injective _ (hg'.symm.trans hlift)
  obtain ⟨p, hp⟩ := Option.isSome_iff_exists.mp hl.prev
  obtain ⟨mp, hmp⟩ := Option.isSome_iff_exists.mp hl.prevMatch
  have hmatch : (g'.node a).matching = some m :=
    (Heap.matching_eq_of_datum (hdatum a)).trans hl.matching
  have hgmp : g'.links.prev m = some mp := by
    rw [hlinks, hl.linkedMatch.unlink_prev_self, hmp]
  -- the heap when the return is back
  obtain ⟨g, hg⟩ : ∃ g, redirect g' m mp (some m) (some m) = g := ⟨_, rfl⟩
  have hglinks : g.links = h.links.unlink a := by
    rw [← hg, redirect_links hgmp, hlinks]
    exact DoublyLinked.Links.relink_unlink hl.linkedMatch
  have hgp : g.links.prev a = some p := by rw [hglinks, hl.linked.unlink_prev_self, hp]
  have hgq : g.links.next a ≠ none := by
    rw [hglinks, hl.linked.unlink_next_self]
    exact Option.isSome_iff_ne_none.mp hl.next
  rw [unlift_eq (hl.linked.next_prev p hp).1.symm (hl.linkedMatch.next_prev mp hmp).1.symm hmatch
    hgmp hg hgp hgq]
  congr 1
  refine Heap.ext_parts ?_ ?_ fun x => ?_
  · rw [redirect_size, ← hg, redirect_size, hsize]
  · rw [redirect_links hgp, hglinks]
    exact DoublyLinked.Links.relink_unlink hl.linked
  · rw [redirect_datum, ← hg, redirect_datum, hdatum]

end Lift

end Porcupine
