import Mit6824.Porcupine.Checker
import Mathlib.Order.Basic

set_option autoImplicit false

/-!
# The longest sequences found so far

When the search is about to give up an operation, the operations taken so far are kept for each of
them that has no longer sequence yet.

## Main definitions

* `Porcupine.Slots` — every pointer of `longest` points to a sequence.
* `Porcupine.AtLeast` — the sequence kept for an operation has at least a given length.

## Main results

* `Porcupine.noteLongest_spec` — what `longest` is afterwards.
-/

namespace Porcupine

variable {ι ο σ : Type}

/-- `longest` has a place for each of `n` operations, and its pointers point to sequences. -/
structure Slots (n : ℕ) (seqs : List (List ℤ)) (longest : List (Option ℕ)) : Prop where
  length_eq : longest.length = n
  pointer : ∀ i p : ℕ, longest[i]? = some (some p) → p < seqs.length

/-- The sequence kept for operation `i` has at least `m` elements. -/
def AtLeast (seqs : List (List ℤ)) (longest : List (Option ℕ)) (i m : ℕ) : Prop :=
  ∃ (p : ℕ) (seq : List ℤ), longest[i]? = some (some p) ∧ seqs[p]? = some seq ∧ m ≤ seq.length

/-- What one operation's turn, or those of several, may do to `longest`: places get the new pointer
only, and no kept sequence gets shorter. -/
structure Grows (seqs : List (List ℤ)) (ptr : ℕ) (ids : List ℕ)
    (longest longest' : List (Option ℕ)) : Prop where
  slot : ∀ i : ℕ, longest'[i]? = longest[i]? ∨ i ∈ ids ∧ longest'[i]? = some (some ptr)
  mono : ∀ i m, AtLeast seqs longest i m → AtLeast seqs longest' i m

variable {n ptr i : ℕ} {seqs : List (List ℤ)} {longest : List (Option ℕ)} {seq : List ℤ}

/-- A number of an operation is an index. -/
@[simp] lemma index_natCast (k : ℕ) : index (k : ℤ) = some k := by
  have : ¬ (k : ℤ) < 0 := Int.not_lt.mpr (Int.natCast_nonneg k)
  simp [index, this]

/-- One operation's turn.

**Proof sketch.** By what the slot holds. If it is empty or its sequence is shorter, the new pointer
is put in, which changes this slot only; otherwise the sequence there is long enough. -/
lemma keepLonger_spec (hs : Slots n seqs longest) (hptr : seqs[ptr]? = some seq) (hi : i < n) :
    ∃ longest', Search.keepLonger seqs ptr seq.length longest (i : ℤ) = some longest' ∧
      Slots n seqs longest' ∧ AtLeast seqs longest' i seq.length ∧
      Grows seqs ptr [i] longest longest' := by
  have hlt : i < longest.length := hs.length_eq ▸ hi
  have hptr' : ptr < seqs.length := (List.getElem?_eq_some_iff.mp hptr).1
  -- the new pointer is put in
  have hset : ∀ hold : (∀ (p : ℕ) (old : List ℤ), longest[i]? = some (some p) →
        seqs[p]? = some old → old.length ≤ seq.length),
      Slots n seqs (longest.set i (some ptr)) ∧
      AtLeast seqs (longest.set i (some ptr)) i seq.length ∧
      Grows seqs ptr [i] longest (longest.set i (some ptr)) := by
    intro hold
    have hself : (longest.set i (some ptr))[i]? = some (some ptr) := by simp [hlt]
    have hother : ∀ j, j ≠ i → (longest.set i (some ptr))[j]? = longest[j]? := fun j hj => by
      simp [hj.symm]
    refine ⟨⟨by simp [hs.length_eq], fun j p hp => ?_⟩, ⟨ptr, seq, hself, hptr, le_rfl⟩,
      ⟨fun j => ?_, fun j m => ?_⟩⟩
    · by_cases hj : j = i
      · subst hj
        obtain rfl : ptr = p := by simpa using hself.symm.trans hp
        exact hptr'
      · exact hs.pointer j p ((hother j hj).symm.trans hp)
    · by_cases hj : j = i
      · subst hj
        exact .inr ⟨by simp, hself⟩
      · exact .inl (hother j hj)
    · rintro ⟨p, old, hp, hold', hm⟩
      by_cases hj : j = i
      · subst hj
        exact ⟨ptr, seq, hself, hptr, hm.trans (hold p old hp hold')⟩
      · exact ⟨p, old, (hother j hj).trans hp, hold', hm⟩
  cases hslot : longest[i] with
  | none =>
    have hget : longest[i]? = some none := by rw [List.getElem?_eq_getElem hlt, hslot]
    refine ⟨longest.set i (some ptr), ?_, hset fun p old hp _ => ?_⟩
    · simp [Search.keepLonger, hget]
    · exact absurd (hget.symm.trans hp) (by simp)
  | some p =>
    have hget : longest[i]? = some (some p) := by rw [List.getElem?_eq_getElem hlt, hslot]
    obtain ⟨old, hold⟩ : ∃ old, seqs[p]? = some old :=
      ⟨_, List.getElem?_eq_getElem (hs.pointer i p hget)⟩
    by_cases hlen : seq.length > old.length
    · refine ⟨longest.set i (some ptr), ?_, hset fun p' old' hp' hold' => ?_⟩
      · simp [Search.keepLonger, hget, hold, hlen]
      · obtain rfl : p = p' := by simpa using hget.symm.trans hp'
        obtain rfl : old = old' := by simpa using hold.symm.trans hold'
        exact hlen.le
    · refine ⟨longest, ?_, hs, ⟨p, old, hget, hold, Nat.not_lt.mp hlen⟩, ⟨fun j => .inl rfl,
        fun _ _ h => h⟩⟩
      simp [Search.keepLonger, hget, hold, hlen]

/-- The turns of several operations.

**Proof sketch.** Induction on the list, with one turn for each operation; slots never get shorter
sequences. -/
lemma foldlM_keepLonger_spec (hptr : seqs[ptr]? = some seq) :
    ∀ {l : List ℕ} {longest : List (Option ℕ)}, Slots n seqs longest → (∀ i ∈ l, i < n) →
      ∃ longest', (l.map fun k : ℕ => (k : ℤ)).foldlM
          (Search.keepLonger seqs ptr seq.length) longest = some longest' ∧
        Slots n seqs longest' ∧ (∀ i ∈ l, AtLeast seqs longest' i seq.length) ∧
        Grows seqs ptr l longest longest' := by
  intro l
  induction l with
  | nil =>
    intro longest hs _
    exact ⟨longest, rfl, hs, by simp, ⟨fun i => .inl rfl, fun _ _ h => h⟩⟩
  | cons k l ih =>
    intro longest hs hl
    obtain ⟨lg, hlg, hslots, hk, hgrow⟩ := keepLonger_spec hs hptr (hl k List.mem_cons_self)
    obtain ⟨lg', hlg', hslots', hl', hgrow'⟩ :=
      ih hslots fun i hi => hl i (List.mem_cons_of_mem _ hi)
    refine ⟨lg', ?_, hslots', fun i hi => ?_, ⟨fun i => ?_, fun i m h => ?_⟩⟩
    · rw [List.map_cons, List.foldlM_cons, hlg]
      exact hlg'
    · rcases List.mem_cons.mp hi with rfl | hi
      · exact hgrow'.mono _ _ hk
      · exact hl' i hi
    · rcases hgrow'.slot i with h | ⟨hi, h⟩
      · rcases hgrow.slot i with h' | ⟨hi, h'⟩
        · exact .inl (h.trans h')
        · exact .inr ⟨List.mem_cons.mpr (.inl (List.mem_singleton.mp hi)), h.trans h'⟩
      · exact .inr ⟨List.mem_cons_of_mem _ hi, h⟩
    · exact hgrow'.mono i m (hgrow.mono i m h)

/-- **The sequences kept when an operation is about to be given up.**

**Proof sketch.** The new sequence is put at the end, where older pointers stay valid. Then each of
its operations has its turn (`foldlM_keepLonger_spec`). -/
theorem noteLongest_spec {s : Search ι ο σ} {l : List ℕ} (hs : Slots n s.seqs s.longest)
    (hseq : s.seq = l.map fun k : ℕ => (k : ℤ)) (hl : ∀ i ∈ l, i < n) :
    ∃ longest', s.noteLongest = some
        { s with longest := longest', seqs := s.seqs ++ [s.seq] } ∧
      Slots n (s.seqs ++ [s.seq]) longest' ∧
      (∀ i ∈ l, AtLeast (s.seqs ++ [s.seq]) longest' i l.length) ∧
      Grows (s.seqs ++ [s.seq]) s.seqs.length l s.longest longest' := by
  have hptr : (s.seqs ++ [s.seq])[s.seqs.length]? = some s.seq := by simp
  have hslots : Slots n (s.seqs ++ [s.seq]) s.longest :=
    ⟨hs.length_eq, fun i p hp => by
      have := hs.pointer i p hp
      simp
      omega⟩
  obtain ⟨lg, hlg, hslots', hat, hgrow⟩ := foldlM_keepLonger_spec hptr hslots hl
  have hlen : s.seq.length = l.length := by rw [hseq, List.length_map]
  have hcalls : s.calls.length = s.seq.length := by simp [Search.seq]
  refine ⟨lg, ?_, hslots', fun i hi => hlen ▸ hat i hi, hgrow⟩
  simp only [Search.noteLongest, hcalls]
  rw [← hseq] at hlg
  rw [hlg]
  rfl

/-- Sequences that are added later do not disturb the ones kept. -/
lemma AtLeast.append {m : ℕ} (h : AtLeast seqs longest i m) (more : List (List ℤ)) :
    AtLeast (seqs ++ more) longest i m := by
  obtain ⟨p, seq, hp, hseq, hm⟩ := h
  refine ⟨p, seq, hp, ?_, hm⟩
  rw [List.getElem?_append_left (List.getElem?_eq_some_iff.mp hseq).1]
  exact hseq

end Porcupine
