import Mathlib.Data.Finset.Basic
import Mathlib.Tactic.Common

set_option autoImplicit false

/-!
# Bit sets of the checker

`bitset.go`: a set of numbers as words of 64 bits. Reading or writing a bit outside of the words is
an index out of range, which is `none` here.

## Main definitions

* `Porcupine.Bitset`, `Porcupine.newBitset` and the operations of the source.
* `Porcupine.Bitset.Represents` — the set below a bound that the bits stand for.

## Main results

* `Porcupine.Bitset.Represents.set`, `Porcupine.Bitset.Represents.clear` — the operations on bits
  are insertion and removal, and do not fail below the bound.
-/

namespace Porcupine

/-- `type bitset []uint64`; bits 0-63 are in the first word, and so on. -/
structure Bitset where
  words : List (BitVec 64)
  deriving DecidableEq

/-- `newBitset`. -/
def newBitset (bits : ℕ) : Bitset :=
  let extra := if bits % 64 ≠ 0 then 1 else 0
  ⟨List.replicate (bits / 64 + extra) 0⟩

/-- `bitsetIndex`. -/
def bitsetIndex (pos : ℕ) : ℕ × ℕ := (pos / 64, pos % 64)

/-- `bits.OnesCount64`. -/
def onesCount64 (v : BitVec 64) : ℕ := v.cpop.toNat

namespace Bitset

/-- `clone`: words are values, a copy of them is the same list. -/
def clone (b : Bitset) : Bitset := b

/-- Replace the word that has the bit `pos`. -/
def modify (b : Bitset) (pos : ℕ) (f : BitVec 64 → BitVec 64 → BitVec 64) : Option Bitset :=
  let (major, minor) := bitsetIndex pos
  (b.words[major]?).map fun w => ⟨b.words.set major (f w (1#64 <<< minor))⟩

/-- `set`: `b[major] |= (1 << minor)`. -/
def set (b : Bitset) (pos : ℕ) : Option Bitset := b.modify pos fun w m => w ||| m

/-- `clear`: `b[major] &^= (1 << minor)`. -/
def clear (b : Bitset) (pos : ℕ) : Option Bitset := b.modify pos fun w m => w &&& ~~~m

/-- `get`: `b[major]&(1<<minor) != 0`. -/
def get (b : Bitset) (pos : ℕ) : Option Bool :=
  let (major, minor) := bitsetIndex pos
  (b.words[major]?).map fun w => w &&& (1#64 <<< minor) != 0

/-- `popcnt`. -/
def popcnt (b : Bitset) : ℕ := b.words.foldl (fun total v => total + onesCount64 v) 0

/-- `hash`. -/
def hash (b : Bitset) : BitVec 64 :=
  b.words.foldl (fun hash v => hash ^^^ v) (BitVec.ofNat 64 b.popcnt)

/-- `equals`. -/
def equals (b b2 : Bitset) : Bool :=
  if b.words.length ≠ b2.words.length then false
  else (List.zipWith (fun v w => v == w) b.words b2.words).all id

/-! ## What the bits stand for -/

/-- Bit `i` of the mask for bit `j`. -/
lemma getLsbD_mask {i j : ℕ} (hj : j < 64) : (1#64 <<< j).getLsbD i = decide (i = j) := by
  rw [← BitVec.twoPow_eq, BitVec.getLsbD_twoPow]
  simp [hj, eq_comm]

/-- Testing a word against a mask reads the bit. -/
lemma and_mask_ne_zero (w : BitVec 64) {i : ℕ} (hi : i < 64) :
    (w &&& (1#64 <<< i) != 0) = w.getLsbD i := by
  have hmask : BitVec.twoPow 64 i ≠ 0#64 := by
    intro h
    have := congrArg (fun v => v.getLsbD i) h
    simp [hi] at this
  rw [← BitVec.twoPow_eq, BitVec.and_twoPow]
  cases w.getLsbD i with
  | true => simpa using hmask
  | false => simp

/-- A bit after its word has been changed by a mask.

**Proof sketch.** A position is a word and a bit in it. In the word of `pos` the mask changes the
bit of `pos` only, and other words are left alone. -/
lemma get_modify {b b' : Bitset} {pos : ℕ} {f : BitVec 64 → BitVec 64 → BitVec 64}
    {g : Bool → Bool → Bool} (hg : ∀ x, g x false = x)
    (hf : ∀ w m i, i < 64 → (f w m).getLsbD i = g (w.getLsbD i) (m.getLsbD i))
    (h : b.modify pos f = some b') (q : ℕ) :
    b'.get q = (b.get q).map fun x => g x (decide (q = pos)) := by
  obtain ⟨w, hw, rfl⟩ := Option.map_eq_some_iff.mp h
  have hbit : ∀ i : ℕ, i % 64 < 64 := fun i => Nat.mod_lt i (by omega)
  simp only [get, bitsetIndex, List.getElem?_set]
  have hlen : pos / 64 < b.words.length := (List.getElem?_eq_some_iff.mp hw).1
  by_cases hmaj : pos / 64 = q / 64
  · have hwq : b.words[q / 64]? = some w := hmaj ▸ hw
    rw [if_pos hmaj, if_pos hlen, hwq]
    simp only [Option.map_some, and_mask_ne_zero _ (hbit q), hf _ _ _ (hbit q),
      getLsbD_mask (hbit pos)]
    have hsame : (q % 64 = pos % 64) = (q = pos) := propext ⟨by omega, by omega⟩
    simp only [hsame]
  · rw [if_neg hmaj]
    have hne : q ≠ pos := fun hqp => hmaj (by rw [hqp])
    simp only [hne, decide_false, hg, Option.map_id']

/-- The bits below `n` are those of `S`. -/
def Represents (b : Bitset) (n : ℕ) (S : Finset ℕ) : Prop :=
  ∀ i < n, b.get i = some (decide (i ∈ S))

/-- A new bitset is the empty set. -/
lemma represents_newBitset (n : ℕ) : (newBitset n).Represents n ∅ := by
  intro i hi
  have hlt : i / 64 < n / 64 + if n % 64 ≠ 0 then 1 else 0 := by
    split_ifs <;> omega
  simp only [newBitset, get, bitsetIndex, List.getElem?_replicate, if_pos hlt]
  simp

namespace Represents

variable {b : Bitset} {n i : ℕ} {S T : Finset ℕ}

/-- The word of a position below the size is there. -/
lemma modify_isSome (h : b.Represents n S) (hi : i < n)
    (f : BitVec 64 → BitVec 64 → BitVec 64) : ∃ b', b.modify i f = some b' := by
  have hget := h i hi
  simp only [get, bitsetIndex] at hget
  obtain ⟨w, hw, -⟩ := Option.map_eq_some_iff.mp hget
  exact ⟨_, by simp only [modify, bitsetIndex, hw, Option.map_some]; rfl⟩

/-- Setting a bit inserts. -/
theorem set (h : b.Represents n S) (hi : i < n) :
    ∃ b', b.set i = some b' ∧ b'.Represents n (insert i S) := by
  obtain ⟨b', hb'⟩ := h.modify_isSome hi fun w m => w ||| m
  refine ⟨b', hb', fun q hq => ?_⟩
  have hget := get_modify (g := fun x y => x || y) (by simp) (by simp) hb' q
  rw [hget, h q hq]
  simp [Bool.or_comm]

/-- Clearing a bit removes. -/
theorem clear (h : b.Represents n S) (hi : i < n) :
    ∃ b', b.clear i = some b' ∧ b'.Represents n (S.erase i) := by
  obtain ⟨b', hb'⟩ := h.modify_isSome hi fun w m => w &&& ~~~m
  refine ⟨b', hb', fun q hq => ?_⟩
  have hget := get_modify (g := fun x y => x && !y) (by simp)
    (fun w m j hj => by simp [hj]) hb' q
  rw [hget, h q hq]
  simp [Bool.and_comm]

/-- The bits determine the set. -/
lemma unique (h : b.Represents n S) (h' : b.Represents n T) (hS : ∀ i ∈ S, i < n)
    (hT : ∀ i ∈ T, i < n) : S = T := by
  have hiff : ∀ i < n, (i ∈ S ↔ i ∈ T) := fun i hi => by
    simpa using (h i hi).symm.trans (h' i hi)
  ext i
  exact ⟨fun hi => (hiff i (hS i hi)).mp hi, fun hi => (hiff i (hT i hi)).mpr hi⟩

end Represents

/-- `equals` is equality of the words. -/
lemma eq_of_equals {b b' : Bitset} (h : b.equals b' = true) : b = b' := by
  obtain ⟨ws⟩ := b
  obtain ⟨ws'⟩ := b'
  simp only [equals] at h
  split_ifs at h with hlen
  simp only [ne_eq, not_not] at hlen
  rw [Bitset.mk.injEq]
  refine List.ext_getElem hlen fun i hi hi' => ?_
  have hmem : (ws[i] == ws'[i]) ∈ List.zipWith (fun v w => v == w) ws ws' :=
    List.mem_iff_getElem.mpr ⟨i, by simp [hi, hi'], by simp⟩
  simpa using List.all_eq_true.mp h _ hmem

end Bitset

end Porcupine
