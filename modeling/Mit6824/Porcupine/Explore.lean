import Mit6824.DepthFirst.Rank
import Mit6824.Porcupine.Longest
import Mit6824.Porcupine.Trail

set_option autoImplicit false

/-!
# What the search has explored

A configuration is the set of the operations taken so far with the state they lead to; the cache has
the configurations that have been visited. The invariant of the loop says that a visited
configuration has all its successors visited, up to states that cannot be told apart, unless it is
one of those that the search is still busy with. Those are the ones along the operations taken so
far, and for them it holds of the successors whose calls the walk has passed.

## Main definitions

* `Porcupine.Layout.Visited`, `Porcupine.Layout.Succ`, `Porcupine.Layout.Explored`.
* `Porcupine.Layout.Inv` — the invariant of the loop.
* `Porcupine.Layout.progress` — a number that grows with every iteration.

## Main results

* `Porcupine.Layout.Inv.step_cases` — one iteration.
-/

namespace Porcupine

variable {ι ο σ : Type}

open Linearization (Partial Indist)

/-- A new cache entry comes to those under its hash. -/
lemma Cache.mem_add {cache : Cache σ} {x : BitVec 64} {e e' : CacheEntry σ} :
    e' ∈ cache.add e x ↔ e' ∈ cache x ∨ e' = e ∧ x = e.linearized.hash := by
  by_cases hx : x = e.linearized.hash
  · subst hx
    simp [Cache.add]
  · simp [Cache.add, hx]

/-- The place of a walk as a number: one digit for the address of each call taken, and one for the
present entry. -/
def walkRank (size count : ℕ) (calls : List ℕ) (entry : Option ℕ) : ℕ :=
  DepthFirst.rank (size + 2) (count + 1)
    (calls.map (fun a => size - a) ++ [entry.elim (size + 1) fun a => size - a])

namespace Layout

/-! ## Visited configurations -/

section Visited

variable (L : Layout ι ο) (model : FullModel ι ο σ)

/-- The search has been at this configuration. -/
def Visited (cache : Cache σ) (S : Finset ℕ) (t : σ) : Prop :=
  S = ∅ ∧ t = model.init ∨
    (∀ i ∈ S, i < L.count) ∧ ∃ b : Bitset, b.Represents L.count S ∧ ⟨b, t⟩ ∈ cache b.hash

/-- Operation `k` may be taken next and leads to the state `u`. -/
structure Succ (S : Finset ℕ) (t : σ) (k : ℕ) (u : σ) : Prop where
  lt : k < L.count
  not_mem : k ∉ S
  minimal : ∀ j < L.count, L.Before j k → j ∈ S
  next : model.next t (L.op k) = some u

/-- The successors whose calls are at `a` or before `a` in the list have been visited, up to states
that cannot be told apart. -/
def Explored (cache : Cache σ) (S : Finset ℕ) (t : σ) (a : ℕ) : Prop :=
  ∀ k u, L.Succ model S t k u → a ≤ L.callAt k →
    ∃ v, L.Visited model cache (insert k S) v ∧ Indist model.next u v

variable {L model} {cache cache' : Cache σ} {S : Finset ℕ} {t : σ} {a : ℕ}

/-- What is visited stays visited when the cache grows. -/
lemma Visited.mono (h : L.Visited model cache S t) (hle : ∀ x e, e ∈ cache x → e ∈ cache' x) :
    L.Visited model cache' S t := by
  rcases h with h | ⟨hS, b, hb, hmem⟩
  · exact .inl h
  · exact .inr ⟨hS, b, hb, hle _ _ hmem⟩

/-- What is explored stays explored when the cache grows. -/
lemma Explored.mono (h : L.Explored model cache S t a)
    (hle : ∀ x e, e ∈ cache x → e ∈ cache' x) : L.Explored model cache' S t a := by
  intro k u hk ha
  obtain ⟨v, hv, hind⟩ := h k u hk ha
  exact ⟨v, hv.mono hle, hind⟩

/-- What a new entry of the cache adds. -/
lemma Visited.of_add {b : Bitset} {u : σ} {T : Finset ℕ} (hT : ∀ i ∈ T, i < L.count)
    (hb : b.Represents L.count T) (h : L.Visited model (cache.add ⟨b, u⟩) S t) :
    L.Visited model cache S t ∨ S = T ∧ t = u := by
  rcases h with h | ⟨hS, b', hb', hmem⟩
  · exact .inl (.inl h)
  · rcases Cache.mem_add.mp hmem with hmem | ⟨heq, -⟩
    · exact .inl (.inr ⟨hS, b', hb', hmem⟩)
    · obtain ⟨rfl, rfl⟩ : b' = b ∧ t = u := by simpa using heq
      exact .inr ⟨hb'.unique hb hS hT, rfl⟩

/-- The pair that is put into the cache is visited. -/
lemma visited_add {b : Bitset} {u : σ} {T : Finset ℕ} (hT : ∀ i ∈ T, i < L.count)
    (hb : b.Represents L.count T) : L.Visited model (cache.add ⟨b, u⟩) T u :=
  .inr ⟨hT, b, hb, Cache.mem_add.mpr (.inr ⟨rfl, rfl⟩)⟩

/-- What is found in the cache has been visited. -/
lemma visited_of_cacheContains (heq : model.EqualSound) {b : Bitset} {u : σ} {T : Finset ℕ}
    (hT : ∀ i ∈ T, i < L.count) (hb : b.Represents L.count T)
    (h : cacheContains model cache ⟨b, u⟩ = true) :
    ∃ v, L.Visited model cache T v ∧ Indist model.next u v := by
  obtain ⟨⟨b', v⟩, hmem, hboth⟩ := List.any_eq_true.mp h
  obtain ⟨hbits, hstate⟩ := Bool.and_eq_true_iff.mp hboth
  obtain rfl : b = b' := Bitset.eq_of_equals hbits
  exact ⟨v, .inr ⟨hT, b, hb, hmem⟩, heq u v hstate⟩

end Visited

/-! ## The invariant of the loop -/

section Inv

variable (L : Layout ι ο) (model : FullModel ι ο σ)

/-- The walk has come to the entry `a`: everything before it is a call that has been explored. -/
structure Scan (cache : Cache σ) (q : List ℕ) (t : σ) (a : ℕ) : Prop where
  mem : a ∈ L.live q
  calls : ∀ x ∈ L.live q, a < x → ∃ k < L.count, x = L.callAt k
  explored : L.Explored model cache q.toFinset t (a + 1)

/-- The configurations that the search is busy with. -/
def OnTrail (path : List (ℕ × σ)) (s : σ) (S : Finset ℕ) (t : σ) : Prop :=
  S = (path.map Prod.fst).toFinset ∧ t = s ∨
    ∃ q x r, path = q ++ x :: r ∧ S = (q.map Prod.fst).toFinset ∧ t = x.2

/-- The configurations that the search is done with. None of them has everything, and the sequences
kept for their operations are long enough. -/
structure Finished (computePartial : Bool) (s : Search ι ο σ) (S : Finset ℕ) (t : σ) : Prop where
  incomplete : ∃ k < L.count, k ∉ S
  explored : L.Explored model s.cache S t 0
  kept : computePartial = true → ∀ i ∈ S, AtLeast s.seqs s.longest i S.card

/-- The invariant of the loop; `path` are the operations taken so far with the states before
them. -/
structure Inv (computePartial : Bool) (s : Search ι ο σ) (path : List (ℕ × σ)) : Prop where
  head : s.headEntry = L.size
  trail : L.Trail model path s.state s.heap
  calls : s.calls = path.map fun x => ⟨L.callAt x.1, x.2⟩
  bits : s.linearized.Represents L.count (path.map Prod.fst).toFinset
  slots : Slots L.count s.seqs s.longest
  sound : ∀ i p : ℕ, s.longest[i]? = some (some p) → ∃ l t,
    s.seqs[p]? = some (l.map fun k : ℕ => (k : ℤ)) ∧ i ∈ l ∧
      Partial model.next L.op L.Before model.init (List.range L.count) l t
  entry : L.live (path.map Prod.fst) ≠ [] →
    ∃ a, s.entry = some a ∧ L.Scan model s.cache (path.map Prod.fst) s.state a
  frames : ∀ q x r, path = q ++ x :: r →
    L.Explored model s.cache (q.map Prod.fst).toFinset x.2 (L.callAt x.1)
  visited : ∀ S t, L.Visited model s.cache S t →
    OnTrail path s.state S t ∨ L.Finished model computePartial s S t

/-- The place of the walk as a number. -/
def progress (path : List (ℕ × σ)) (entry : Option ℕ) : ℕ :=
  walkRank L.size L.count (path.map fun x => L.callAt x.1) entry

variable {L model} {cache : Cache σ} {q : List ℕ} {t : σ} {k a : ℕ} {h : Heap ι ο}
  {computePartial : Bool} {s : Search ι ο σ} {path : List (ℕ × σ)}

/-- The walk goes on behind the call of `k` when `k` has been explored.

**Proof sketch.** The entry behind the call is the next one that is left, so nothing that is left
lies between the two. What was explored from the call on is what was explored behind the new entry.
-/
lemma Scan.next (hl : Trail.Linked L q h) (hq : ∀ j ∈ q, j < L.count) (hk : k < L.count)
    (hkq : k ∉ q) (hcalls : ∀ x ∈ L.live q, L.callAt k < x → ∃ k < L.count, x = L.callAt k)
    (hexp : L.Explored model cache q.toFinset t (L.callAt k)) :
    ∃ a < L.callAt k, (h.node (L.callAt k)).next = some a ∧ L.Scan model cache q t a := by
  obtain ⟨l₁, l₂, hsplit⟩ := List.append_of_mem (callAt_mem_live hk hkq hq)
  have hpair := live_pairwise (L := L) q
  have hchain := hl.chain
  rw [hsplit] at hpair hchain
  obtain ⟨a, ha⟩ := Option.isSome_iff_exists.mp (hl.liftable hq hk hkq).next
  have hnext : l₂.head? = some a := hchain.drop.next_eq.symm.trans ha
  obtain ⟨l₃, rfl⟩ : ∃ l₃, l₂ = a :: l₃ := by
    cases l₂ with
    | nil => simp at hnext
    | cons b l₃ => exact ⟨l₃, by rw [Option.some_injective _ hnext]⟩
  obtain ⟨-, hpair₂, hpair₁₂⟩ := List.pairwise_append.mp hpair
  obtain ⟨hcall, hpair₃⟩ := List.pairwise_cons.mp hpair₂
  -- nothing that is left lies between the call and `a`
  have hbetween : ∀ x ∈ L.live q, a < x → L.callAt k ≤ x := by
    intro x hx hax
    rw [hsplit] at hx
    rcases List.mem_append.mp hx with hx | hx
    · exact (hpair₁₂ x hx _ List.mem_cons_self).le
    · rcases List.mem_cons.mp hx with rfl | hx
      · exact le_rfl
      · rcases List.mem_cons.mp hx with rfl | hx
        · exact absurd hax (Nat.lt_irrefl _)
        · exact absurd ((List.pairwise_cons.mp hpair₃).1 x hx) (Nat.not_lt.mpr hax.le)
  refine ⟨a, hcall a List.mem_cons_self, ha, ?_, fun x hx hax => ?_, fun j u hj haj => ?_⟩
  · rw [hsplit]
    simp
  · rcases (hbetween x hx hax).eq_or_lt with rfl | hlt
    · exact ⟨k, hk, rfl⟩
    · exact hcalls x hx hlt
  · refine hexp j u hj (hbetween _ (callAt_mem_live hj.lt ?_ hq) haj)
    simpa using hj.not_mem

/-- The walk starts at the first entry that is left.

**Proof sketch.** Addresses go down along the list, so nothing that is left lies before the first
entry, and there is nothing to have been explored. -/
lemma Scan.first (hl : Trail.Linked L q h) (hq : ∀ j ∈ q, j < L.count) (hne : L.live q ≠ []) :
    ∃ a < L.size, (h.node L.size).next = some a ∧ L.Scan model cache q t a := by
  obtain ⟨a, l, hsplit⟩ := List.exists_cons_of_ne_nil hne
  have hchain := hl.chain
  have hpair := live_pairwise (L := L) q
  rw [hsplit] at hchain hpair
  have hmax : ∀ x ∈ L.live q, x ≤ a := by
    intro x hx
    rw [hsplit] at hx
    rcases List.mem_cons.mp hx with rfl | hx
    · exact le_rfl
    · exact ((List.pairwise_cons.mp hpair).1 x hx).le
  have hmem : a ∈ L.live q := by simp [hsplit]
  refine ⟨a, (mem_live.mp hmem).1, hchain.1, hmem, fun x hx hax => ?_, fun j u hj haj => ?_⟩
  · exact absurd (hmax x hx) (Nat.not_le.mpr hax)
  · have := hmax _ (callAt_mem_live hj.lt (by simpa using hj.not_mem) hq)
    exact absurd haj (by omega)

/-! ## One iteration -/

/-- The element that a list with a last element is split at is the last one or an earlier one. -/
lemma concat_eq_append_cons {α : Type} {l q r : List α} {x z : α} (h : l ++ [z] = q ++ x :: r) :
    r = [] ∧ q = l ∧ x = z ∨ ∃ r', r = r' ++ [z] ∧ l = q ++ x :: r' := by
  rcases List.eq_nil_or_concat' r with rfl | ⟨r', y, rfl⟩
  · obtain ⟨rfl, hx⟩ := List.append_inj' h rfl
    exact .inl ⟨rfl, rfl, (List.singleton_inj.mp hx).symm⟩
  · rw [← List.cons_append, ← List.append_assoc] at h
    obtain ⟨rfl, hy⟩ := List.append_inj' h rfl
    exact .inr ⟨r', by rw [List.singleton_inj.mp hy], rfl⟩

/-- The branch for a call, in terms of the sequential object. -/
lemma tryCall_eq (hl : Trail.Linked L q s.heap) (hk : k < L.count) :
    s.tryCall model (L.callAt k) (L.retAt k) =
      match model.next s.state (L.op k) with
      | none => some { s with entry := (s.heap.node (L.callAt k)).next }
      | some u => (s.linearized.set k).bind fun b =>
        if cacheContains model s.cache ⟨b, u⟩ then
          some { s with entry := (s.heap.node (L.callAt k)).next }
        else (lift s.heap (L.callAt k)).bind fun h => some
          { s with
            cache := s.cache.add ⟨b, u⟩
            calls := s.calls ++ [⟨L.callAt k, s.state⟩]
            state := u
            linearized := b
            heap := h
            entry := (h.node s.headEntry).next } := by
  obtain ⟨hv, -, hid⟩ := hl.call_node hk
  obtain ⟨hv', -⟩ := hl.ret_node hk
  obtain ⟨ok, u, hstep⟩ : ∃ ok u, model.step s.state (L.inp k) (L.out k) = (ok, u) :=
    ⟨_, _, rfl⟩
  have hnext : model.next s.state (L.op k) = if ok then some u else none := by
    simp [FullModel.next, op, hstep]
  rw [hnext]
  simp only [Search.tryCall, hv, hv', hid, FullModel.stepValue, hstep, index_natCast,
    Option.bind_eq_bind, Option.bind_some, Bitset.clone]
  cases ok with
  | false => rfl
  | true =>
    cases hset : s.linearized.set k with
    | none => rfl
    | some b => cases hc : cacheContains model s.cache ⟨b, u⟩ <;> simp [hc]

/-- A search that has tried nothing is in the first state of the object. -/
lemma Inv.state_nil (hI : L.Inv model computePartial s []) : s.state = model.init :=
  (Option.some.inj hI.trail.toPartial.replay_eq).symm

/-- The list is empty exactly when every operation has been taken. -/
lemma Inv.head_next (hI : L.Inv model computePartial s path) :
    (s.heap.node s.headEntry).next = none ↔ L.live (path.map Prod.fst) = [] := by
  have : (s.heap.node L.size).next = (L.live (path.map Prod.fst)).head? :=
    hI.trail.linked.chain.next_eq
  rw [hI.head, this, List.head?_eq_none_iff]

/-- Everything before the first return that is left is a call, so an operation whose call stands
there is not preceded by one that has not been taken. -/
lemma Scan.minimal (hs : L.Scan model cache q t (L.callAt k)) (hq : ∀ j ∈ q, j < L.count) :
    ∀ j < L.count, L.Before j k → j ∈ q := by
  intro j hj hb
  by_contra hjq
  obtain ⟨i, hi, heq⟩ := hs.calls _ (retAt_mem_live hj hjq hq) hb
  exact callAt_ne_retAt hi hj heq.symm

/-- The walk goes on to the next entry. -/
lemma Inv.advance (hI : L.Inv model computePartial s path) {a a' : ℕ}
    (ha : s.entry = some a) (hlt : a' < a) (hsize : a ≤ L.size)
    (hs : L.Scan model s.cache (path.map Prod.fst) s.state a') :
    L.Inv model computePartial { s with entry := some a' } path ∧
      L.progress path s.entry < L.progress path (some a') := by
  constructor
  · exact
      { head := hI.head, trail := hI.trail, calls := hI.calls, bits := hI.bits, slots := hI.slots
        sound := hI.sound, entry := fun _ => ⟨a', rfl, hs⟩, frames := hI.frames
        visited := fun S t hv => (hI.visited S t hv).imp_right fun hf => ⟨hf.1, hf.2, hf.3⟩ }
  · rw [ha]
    refine DepthFirst.rank_lt_rank_of_lt (by omega) ?_ ?_ (by simp)
    · simpa using Nat.lt_succ_of_le hI.trail.length_le
    · simp only [Option.elim]
      omega

/-- The operations of the configuration after `k` has been taken are operations of the history. -/
lemma lt_count_of_mem_insert (hk : k < L.count) (hq : ∀ i ∈ q, i < L.count) :
    ∀ i ∈ insert k q.toFinset, i < L.count := by
  intro i hi
  rcases Finset.mem_insert.mp hi with rfl | hi
  · exact hk
  · exact hq i (List.mem_toFinset.mp hi)

/-- When `k` has been taken, everything up to its call is explored: its successor is the new
configuration itself. -/
lemma Scan.explored_add (hs : L.Scan model cache q t (L.callAt k)) (hk : k < L.count)
    (hq : ∀ i ∈ q, i < L.count) {u : σ} (hnext : model.next t (L.op k) = some u) {b : Bitset}
    (hb : b.Represents L.count (insert k q.toFinset)) :
    L.Explored model (cache.add ⟨b, u⟩) q.toFinset t (L.callAt k) := by
  intro j v hj hle
  rcases hle.eq_or_lt with heq | hlt
  · obtain rfl := callAt_inj hk hj.lt heq
    obtain rfl : u = v := Option.some_injective _ (hnext.symm.trans hj.next)
    exact ⟨u, visited_add (lt_count_of_mem_insert hk hq) hb, Indist.refl u⟩
  · exact hs.explored.mono (fun x e he => Cache.mem_add.mpr (.inl he)) j v hj hlt

/-- One more operation on the path is progress, wherever the walk goes on. -/
lemma progress_lt_push (hlen : path.length < L.count) {e : Option ℕ} (he : ∀ a ∈ e, a < L.size) :
    L.progress path (some (L.callAt k)) < L.progress (path ++ [(k, t)]) e := by
  rw [progress, progress, walkRank, walkRank]
  simp only [List.map_append, List.map_singleton, Option.elim]
  refine DepthFirst.rank_lt_rank_append (by omega) ?_ ?_
  · simpa using hlen
  · cases e with
    | none => exact Nat.succ_pos _
    | some a =>
      have := he a rfl
      simp only
      omega

/-- Giving up the operation taken last is progress, if the walk goes on behind its call. -/
lemma progress_lt_pop {x : ℕ × σ} (hlen : path.length ≤ L.count) (hx : x.1 < L.count)
    (ha : a < L.callAt x.1) (e : Option ℕ) :
    L.progress (path ++ [x]) e < L.progress path (some a) := by
  rw [progress, progress, walkRank, walkRank]
  simp only [List.map_append, List.map_singleton, Option.elim, List.append_assoc,
    List.singleton_append]
  have := L.call_lt x.1 hx
  refine DepthFirst.rank_lt_rank_of_lt (by omega) ?_ (by omega) ?_
  · simpa using Nat.lt_succ_of_le hlen
  · intro d hd
    rw [List.mem_singleton.mp hd]
    cases e <;> simp only <;> omega

/-- An operation is taken.

**Proof sketch.** The new configuration is put into the cache, and the one before it becomes a
frame; its successor by `k` is the new configuration itself, so it is explored from the call of `k`
on. What was finished stays so in a larger cache. The path is longer, which is progress whatever
comes behind. -/
lemma Inv.push (hI : L.Inv model computePartial s path) (hk : k < L.count)
    (hkp : k ∉ path.map Prod.fst) (ha : s.entry = some (L.callAt k))
    (hs : L.Scan model s.cache (path.map Prod.fst) s.state (L.callAt k)) {u : σ}
    (hnext : model.next s.state (L.op k) = some u) {b : Bitset}
    (hb : b.Represents L.count (insert k (path.map Prod.fst).toFinset)) {h : Heap ι ο}
    (hlift : lift s.heap (L.callAt k) = some h) :
    L.Inv model computePartial
      { s with
        cache := s.cache.add ⟨b, u⟩
        calls := s.calls ++ [⟨L.callAt k, s.state⟩]
        state := u
        linearized := b
        heap := h
        entry := (h.node s.headEntry).next } (path ++ [(k, s.state)]) ∧
      L.progress path s.entry < L.progress (path ++ [(k, s.state)]) (h.node s.headEntry).next := by
  have hq := hI.trail.lt_count
  have htrail : L.Trail model (path ++ [(k, s.state)]) u h :=
    hI.trail.snoc hk hkp (hs.minimal hq) hnext hlift
  have hle : ∀ x e, e ∈ s.cache x → e ∈ s.cache.add ⟨b, u⟩ x :=
    fun x e he => Cache.mem_add.mpr (.inl he)
  have hset : ((path ++ [(k, s.state)]).map Prod.fst).toFinset =
      insert k (path.map Prod.fst).toFinset := by
    ext i
    simp
  constructor
  · refine
      { head := hI.head, trail := htrail, calls := ?_, bits := ?_, slots := hI.slots
        sound := hI.sound, entry := fun hne => ?_, frames := fun q x r heq => ?_
        visited := fun S t hv => ?_ }
    · simp [hI.calls]
    · exact hset ▸ hb
    · obtain ⟨a, -, ha, hscan⟩ : ∃ a < L.size, (h.node L.size).next = some a ∧
          L.Scan model (s.cache.add ⟨b, u⟩) ((path ++ [(k, s.state)]).map Prod.fst) u a :=
        Scan.first htrail.linked htrail.lt_count hne
      exact ⟨a, by rw [hI.head]; exact ha, hscan⟩
    · rcases concat_eq_append_cons heq with ⟨rfl, rfl, rfl⟩ | ⟨r', rfl, hpath⟩
      · exact hs.explored_add hk hq hnext hb
      · exact (hI.frames q x r' hpath).mono hle
    · rcases hv.of_add (lt_count_of_mem_insert hk hq) hb with hv | ⟨rfl, rfl⟩
      · rcases hI.visited S t hv with (⟨rfl, rfl⟩ | ⟨q, x, r, rfl, rfl, rfl⟩) | hf
        · exact .inl (.inr ⟨path, (k, s.state), [], rfl, rfl, rfl⟩)
        · exact .inl (.inr ⟨q, x, r ++ [(k, s.state)], by simp, rfl, rfl⟩)
        · exact .inr ⟨hf.1, hf.2.mono hle, hf.3⟩
      · exact .inl (.inl ⟨hset.symm, rfl⟩)
  · rw [ha]
    refine progress_lt_push (Nat.lt_of_succ_le (by simpa using htrail.length_le)) fun a hnode => ?_
    rw [hI.head] at hnode
    exact (mem_live.mp (htrail.linked.chain.prev_next hnode).1).1

/-- At a return every successor has been explored. -/
lemma Scan.explored_of_ret (hs : L.Scan model cache q t (L.retAt k)) (hk : k < L.count)
    (hkq : k ∉ q) : L.Explored model cache q.toFinset t 0 := by
  intro j u hj _
  refine hs.explored j u hj ?_
  by_contra hlt
  have hne : L.callAt j ≠ L.retAt k := callAt_ne_retAt hj.lt hk
  have hb : L.Before k j := by
    simp only [Before]
    omega
  exact hkq (List.mem_toFinset.mp (hj.minimal k hk hb))

/-- The operation taken last is given up; `longest` may have been updated before.

**Proof sketch.** The walk stands at a return, so the configuration that is left is explored: it is
finished. The walk goes on behind the call of the operation that was taken last, up to which its
frame was explored. This is progress, because the entry there is nearer to the end than the call. -/
lemma Inv.pop {x : ℕ × σ} (hI : L.Inv model computePartial s (path ++ [x])) (hk : k < L.count)
    (hkp : k ∉ (path ++ [x]).map Prod.fst)
    (hs : L.Scan model s.cache ((path ++ [x]).map Prod.fst) s.state (L.retAt k))
    {longest : List (Option ℕ)} {seqs : List (List ℤ)} (hslots : Slots L.count seqs longest)
    (hsound : ∀ i p : ℕ, longest[i]? = some (some p) → ∃ l t,
      seqs[p]? = some (l.map fun k : ℕ => (k : ℤ)) ∧ i ∈ l ∧
        Partial model.next L.op L.Before model.init (List.range L.count) l t)
    (hmono : ∀ i m, AtLeast s.seqs s.longest i m → AtLeast seqs longest i m)
    (hkept : computePartial = true → ∀ i ∈ (path ++ [x]).map Prod.fst,
      AtLeast seqs longest i (path.length + 1))
    {b : Bitset} (hb : b.Represents L.count (path.map Prod.fst).toFinset) {h : Heap ι ο}
    (htrail : L.Trail model path x.2 h) :
    ∃ a, (h.node (L.callAt x.1)).next = some a ∧
      L.Inv model computePartial
        { s with
          longest := longest
          seqs := seqs
          state := x.2
          linearized := b
          calls := s.calls.dropLast
          heap := h
          entry := some a } path ∧
      L.progress (path ++ [x]) s.entry < L.progress path (some a) := by
  obtain ⟨hx, hxp, hmin, -⟩ := hI.trail.unsnoc
  have hq := htrail.lt_count
  -- the walk goes on behind the call of the operation
  have hcalls : ∀ y ∈ L.live (path.map Prod.fst), L.callAt x.1 < y →
      ∃ k < L.count, y = L.callAt k := by
    intro y hy hlt
    obtain ⟨j, hj, hjp, rfl | rfl⟩ := exists_of_mem_live hy
    · exact ⟨j, hj, rfl⟩
    · exact absurd (hmin j hj hlt) hjp
  obtain ⟨a, halt, hnext, hscan⟩ := Scan.next htrail.linked hq hx hxp hcalls
    (hI.frames path x [] rfl)
  refine ⟨a, hnext, ?_, progress_lt_pop htrail.length_le hx halt _⟩
  refine
    { head := hI.head, trail := htrail, calls := ?_, bits := hb, slots := hslots
      sound := hsound, entry := fun _ => ⟨a, rfl, hscan⟩
      frames := fun q y r heq => hI.frames q y (r ++ [x]) (by simp [heq])
      visited := fun S t hv => ?_ }
  · simp [hI.calls]
  · rcases hI.visited S t hv with (⟨rfl, rfl⟩ | ⟨q, y, r, heq, rfl, rfl⟩) | hf
    · -- the configuration that is left is finished
      refine .inr ⟨⟨k, hk, fun hmem => hkp (List.mem_toFinset.mp hmem)⟩,
        hs.explored_of_ret hk hkp, fun hc i hi => ?_⟩
      have hcard : ((path ++ [x]).map Prod.fst).toFinset.card = path.length + 1 := by
        rw [List.toFinset_card_of_nodup hI.trail.toPartial.nodup]
        simp
      rw [hcard]
      exact hkept hc i (List.mem_toFinset.mp hi)
    · rcases concat_eq_append_cons heq with ⟨rfl, rfl, rfl⟩ | ⟨r', rfl, hpath⟩
      · exact .inl (.inl ⟨rfl, rfl⟩)
      · exact .inl (.inr ⟨q, y, r', hpath, rfl, rfl⟩)
    · exact .inr ⟨hf.1, hf.2, fun hc i hi => hmono i _ (hf.3 hc i hi)⟩

/-- The ids of the operations taken so far. -/
lemma Inv.seq_eq (hI : L.Inv model computePartial s path) :
    s.seq = (path.map Prod.fst).map fun k : ℕ => (k : ℤ) := by
  rw [Search.seq, hI.calls, List.map_map, List.map_map]
  refine List.map_congr_left fun x hx => ?_
  have hlt : x.1 < L.count := hI.trail.lt_count x.1 (List.mem_map_of_mem hx)
  exact (hI.trail.linked.call_node hlt).2.2

/-- Keeping the operations taken so far as the longest sequences.

**Proof sketch.** A slot is what it was or points to the new sequence, which is the path and a
beginning of a linearization. -/
lemma Inv.noteLongest (hI : L.Inv model computePartial s path) :
    ∃ longest, s.noteLongest = some { s with longest := longest, seqs := s.seqs ++ [s.seq] } ∧
      Slots L.count (s.seqs ++ [s.seq]) longest ∧
      (∀ i p : ℕ, longest[i]? = some (some p) → ∃ l t,
        (s.seqs ++ [s.seq])[p]? = some (l.map fun k : ℕ => (k : ℤ)) ∧ i ∈ l ∧
          Partial model.next L.op L.Before model.init (List.range L.count) l t) ∧
      (∀ i m, AtLeast s.seqs s.longest i m → AtLeast (s.seqs ++ [s.seq]) longest i m) ∧
      ∀ i ∈ path.map Prod.fst, AtLeast (s.seqs ++ [s.seq]) longest i path.length := by
  obtain ⟨longest, hnote, hslots, hat, hgrow⟩ :=
    noteLongest_spec hI.slots hI.seq_eq hI.trail.lt_count
  refine ⟨longest, hnote, hslots, fun i p hp => ?_, fun i m hm => ?_, fun i hi => ?_⟩
  · rcases hgrow.slot i with hold | ⟨hi, hnew⟩
    · have hp' := hold.symm.trans hp
      obtain ⟨l, t, hl, hrest⟩ := hI.sound i p hp'
      refine ⟨l, t, ?_, hrest⟩
      rw [List.getElem?_append_left (hI.slots.pointer i p hp')]
      exact hl
    · obtain rfl : s.seqs.length = p := by simpa using hnew.symm.trans hp
      exact ⟨_, _, by simp [hI.seq_eq], hi, hI.trail.toPartial⟩
  · exact hgrow.mono i m (hm.append _)
  · simpa using hat i hi

/-- The branch for a return when no operation is left to be given up. -/
lemma backtrack_nil (hcalls : s.calls = []) :
    s.backtrack computePartial = some (.done false s) := by
  simp [Search.backtrack, hcalls]

/-- The branch for a return when the operation taken last is given up.

**Proof sketch.** `unlift` gives back the list of the shorter path and `clear` its bitset. The rest
is `Inv.pop`, with or without the longest sequences noted before. -/
lemma Inv.backtrack {x : ℕ × σ} (hI : L.Inv model computePartial s (path ++ [x]))
    (hk : k < L.count) (hkp : k ∉ (path ++ [x]).map Prod.fst)
    (hs : L.Scan model s.cache ((path ++ [x]).map Prod.fst) s.state (L.retAt k)) :
    ∃ s', s.backtrack computePartial = some (.next s') ∧
      L.Inv model computePartial s' path ∧
      L.progress (path ++ [x]) s.entry < L.progress path s'.entry := by
  obtain ⟨hx, hxp, -, h, htrail, hunlift⟩ := hI.trail.unsnoc
  have hlast : s.calls.getLast? = some ⟨L.callAt x.1, x.2⟩ := by simp [hI.calls]
  have hid : (s.heap.node (L.callAt x.1)).id = (x.1 : ℤ) := (hI.trail.linked.call_node hx).2.2
  obtain ⟨b, hclear, hb⟩ := hI.bits.clear hx
  have herase : ((path ++ [x]).map Prod.fst).toFinset.erase x.1 = (path.map Prod.fst).toFinset := by
    ext i
    simp only [List.map_append, List.map_singleton, List.toFinset_append, Finset.mem_erase,
      Finset.mem_union, List.mem_toFinset, List.mem_singleton]
    constructor
    · rintro ⟨hne, hi | hi⟩
      · exact hi
      · exact absurd hi hne
    · intro hi
      exact ⟨fun heq => hxp (heq ▸ hi), .inl hi⟩
  rw [herase] at hb
  cases computePartial with
  | false =>
    obtain ⟨a, hnext, hI', hlt⟩ := hI.pop hk hkp hs hI.slots hI.sound (fun _ _ h => h)
      (by simp) hb htrail
    refine ⟨_, ?_, hI', hlt⟩
    simp [Search.backtrack, hlast, hid, hclear, hunlift, hnext]
  | true =>
    obtain ⟨longest, hnote, hslots, hsound, hmono, hkept⟩ := hI.noteLongest
    obtain ⟨a, hnext, hI', hlt⟩ := hI.pop hk hkp hs hslots hsound hmono
      (fun _ i hi => by simpa using hkept i hi) hb htrail
    refine ⟨_, ?_, hI', hlt⟩
    simp [Search.backtrack, hlast, hnote, hid, hclear, hunlift, hnext]

/-- The walk goes on behind a call that has been explored. -/
lemma Inv.pass (hI : L.Inv model computePartial s path) (hk : k < L.count)
    (hkp : k ∉ path.map Prod.fst) (ha : s.entry = some (L.callAt k))
    (hs : L.Scan model s.cache (path.map Prod.fst) s.state (L.callAt k))
    (hexp : L.Explored model s.cache (path.map Prod.fst).toFinset s.state (L.callAt k)) :
    L.Inv model computePartial { s with entry := (s.heap.node (L.callAt k)).next } path ∧
      L.progress path s.entry < L.progress path (s.heap.node (L.callAt k)).next := by
  obtain ⟨a, halt, hnext, hscan⟩ :=
    Scan.next hI.trail.linked hI.trail.lt_count hk hkp hs.calls hexp
  rw [hnext]
  exact hI.advance ha halt (L.call_lt k hk).le hscan

/-- At a call, everything is explored up to it if its own operation is. -/
lemma Scan.explored_call (hs : L.Scan model cache q t (L.callAt k)) (hk : k < L.count)
    (hown : ∀ u, model.next t (L.op k) = some u →
      ∃ w, L.Visited model cache (insert k q.toFinset) w ∧ Indist model.next u w) :
    L.Explored model cache q.toFinset t (L.callAt k) := by
  intro j v hj hle
  rcases hle.eq_or_lt with heq | hlt
  · obtain rfl := callAt_inj hk hj.lt heq
    exact hown v hj.next
  · exact hs.explored j v hj hlt

/-- The branch for a call.

**Proof sketch.** If the operation cannot be done, or leads to a configuration of the cache, it has
been explored, and the walk goes on behind it (`Inv.pass`). Otherwise it is taken (`Inv.push`). -/
lemma Inv.tryCall (heq : model.EqualSound) (hI : L.Inv model computePartial s path)
    (hk : k < L.count) (hkp : k ∉ path.map Prod.fst) (ha : s.entry = some (L.callAt k))
    (hs : L.Scan model s.cache (path.map Prod.fst) s.state (L.callAt k)) :
    ∃ s' path', s.tryCall model (L.callAt k) (L.retAt k) = some s' ∧
      L.Inv model computePartial s' path' ∧
      L.progress path s.entry < L.progress path' s'.entry := by
  have hq := hI.trail.lt_count
  have hlinked := hI.trail.linked
  rw [tryCall_eq hlinked hk]
  cases hnext : model.next s.state (L.op k) with
  | none =>
    have hexp := hs.explored_call hk fun u hu => absurd (hnext.symm.trans hu) (by simp)
    exact ⟨_, path, rfl, hI.pass hk hkp ha hs hexp⟩
  | some u =>
    obtain ⟨b, hset, hb⟩ := hI.bits.set hk
    simp only [hset, Option.bind_some]
    cases hc : cacheContains model s.cache ⟨b, u⟩ with
    | true =>
      have hexp := hs.explored_call hk fun v hv => by
        obtain rfl : u = v := Option.some_injective _ (hnext.symm.trans hv)
        exact visited_of_cacheContains heq (lt_count_of_mem_insert hk hq) hb hc
      exact ⟨_, path, if_pos rfl, hI.pass hk hkp ha hs hexp⟩
    | false =>
      obtain ⟨h, hlift, -⟩ := hlinked.lift hq hk hkp
      rw [if_neg (by simp), hlift, Option.bind_some]
      exact ⟨_, _, rfl, hI.push hk hkp ha hs hnext hb hlift⟩

/-- **One iteration of the loop.** The search ends with a linearization, or it ends with everything
explored, or it goes on, never in the same place again.

**Proof sketch.** An empty list is the end with a linearization. At a call, the walk goes on behind
it or the operation is taken (`Inv.tryCall`). At a return, the search is at its beginning and ends,
or it gives up the operation taken last (`Inv.backtrack`). -/
theorem Inv.step_cases (heq : model.EqualSound) (hI : L.Inv model computePartial s path) :
    L.live (path.map Prod.fst) = [] ∧
        s.step model computePartial false = some (.done true s.finish) ∨
      L.live (path.map Prod.fst) ≠ [] ∧ path = [] ∧
        s.step model computePartial false = some (.done false s) ∧
        L.Explored model s.cache ∅ model.init 0 ∨
      ∃ s' path', s.step model computePartial false = some (.next s') ∧
        L.Inv model computePartial s' path' ∧
        L.progress path s.entry < L.progress path' s'.entry := by
  by_cases hlive : L.live (path.map Prod.fst) = []
  · exact .inl ⟨hlive, by simp [Search.step, hI.head_next, hlive]⟩
  right
  have hhead : (s.heap.node s.headEntry).next ≠ none := mt hI.head_next.mp hlive
  obtain ⟨a, ha, hs⟩ := hI.entry hlive
  obtain ⟨k, hk, hkp, rfl | rfl⟩ := exists_of_mem_live hs.mem
  · -- the entry is a call
    right
    have hmatch := (hI.trail.linked.call_node hk).2.1
    obtain ⟨s', path', hcall, hI', hlt⟩ := hI.tryCall heq hk hkp ha hs
    refine ⟨s', path', ?_, hI', hlt⟩
    simp [Search.step, hhead, ha, hmatch, hcall]
  · -- the entry is a return
    have hmatch := (hI.trail.linked.ret_node hk).2
    have hstep : s.step model computePartial false = s.backtrack computePartial := by
      simp [Search.step, hhead, ha, hmatch]
    rcases List.eq_nil_or_concat' path with rfl | ⟨path, x, rfl⟩
    · left
      have hcalls : s.calls = [] := by simpa using hI.calls
      refine ⟨hlive, rfl, hstep.trans (backtrack_nil hcalls), ?_⟩
      have := hs.explored_of_ret hk hkp
      rwa [hI.state_nil] at this
    · right
      obtain ⟨s', hback, hI', hlt⟩ := hI.backtrack hk hkp hs
      exact ⟨s', path, hstep.trans hback, hI', hlt⟩

end Inv

end Layout

end Porcupine
