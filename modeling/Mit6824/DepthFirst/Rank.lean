import Mathlib.Algebra.Order.Ring.Nat
import Mathlib.Tactic.Common
import Mathlib.Tactic.Ring

set_option autoImplicit false

/-!
# The rank of a position in a depth first traversal

A traversal of a tree of bounded depth visits words: the choices made on the way down. Going on to a
later choice, going down, and going back up to continue behind the choice made there all lead to a
word that is later in the lexicographic order. Read as a number with one digit for each level, the
word grows with every move, so there is a bound on the number of moves.

## Main definitions

* `DepthFirst.rank` — the number that a word of at most `d` digits below `b` stands for.

## Main results

* `DepthFirst.rank_lt` — the bound.
* `DepthFirst.rank_lt_rank_of_lt`, `DepthFirst.rank_lt_rank_append` — the moves.
-/

namespace DepthFirst

/-- A word as a number with `d` digits, the first one being the most significant. -/
def rank (b : ℕ) : ℕ → List ℕ → ℕ
  | _, [] => 0
  | 0, _ :: _ => 0
  | d + 1, a :: l => a * b ^ d + rank b d l

variable {b d x y : ℕ} {l v w : List ℕ}

/-- A path with children below `b` has a rank below `b ^ d`. -/
lemma rank_lt (hb : 0 < b) (hl : ∀ a ∈ l, a < b) : rank b d l < b ^ d := by
  induction d generalizing l with
  | zero => cases l <;> simp [rank]
  | succ d ih =>
    cases l with
    | nil => exact Nat.pow_pos hb
    | cons a l =>
      have hrest := ih fun c hc => hl c (List.mem_cons_of_mem _ hc)
      have ha : a + 1 ≤ b := hl a List.mem_cons_self
      calc a * b ^ d + rank b d l < a * b ^ d + b ^ d := by omega
        _ = (a + 1) * b ^ d := by ring
        _ ≤ b * b ^ d := Nat.mul_le_mul_right _ ha
        _ = b ^ (d + 1) := by ring

/-- A later choice after the same choices before, whatever has been or will be chosen below. -/
theorem rank_lt_rank_of_lt (hb : 0 < b) (hl : l.length < d) (hxy : x < y) (hv : ∀ a ∈ v, a < b) :
    rank b d (l ++ x :: v) < rank b d (l ++ y :: w) := by
  induction l generalizing d with
  | nil =>
    obtain ⟨d, rfl⟩ : ∃ k, d = k + 1 := ⟨d - 1, by simp at hl; omega⟩
    have hlt := rank_lt (d := d) hb hv
    calc x * b ^ d + rank b d v < x * b ^ d + b ^ d := by omega
      _ = (x + 1) * b ^ d := by ring
      _ ≤ y * b ^ d := Nat.mul_le_mul_right _ hxy
      _ ≤ y * b ^ d + rank b d w := Nat.le_add_right _ _
  | cons a l ih =>
    obtain ⟨d, rfl⟩ : ∃ k, d = k + 1 := ⟨d - 1, by simp at hl; omega⟩
    have := ih (d := d) (by simpa using hl)
    simp only [List.cons_append, rank]
    omega

/-- One choice more. -/
theorem rank_lt_rank_append (hb : 0 < b) (hl : l.length < d) (hx : 0 < x) :
    rank b d l < rank b d (l ++ [x]) := by
  induction l generalizing d with
  | nil =>
    obtain ⟨d, rfl⟩ : ∃ k, d = k + 1 := ⟨d - 1, by simp at hl; omega⟩
    simpa [rank] using Nat.mul_pos hx (Nat.pow_pos hb)
  | cons a l ih =>
    obtain ⟨d, rfl⟩ : ∃ k, d = k + 1 := ⟨d - 1, by simp at hl; omega⟩
    have := ih (d := d) (by simpa using hl)
    simp only [List.cons_append, rank]
    omega

end DepthFirst
