import Mathlib.Data.List.Infix
import Mathlib.Data.Finset.Basic
import Mathlib.Logic.Function.Basic

set_option autoImplicit false

/-!
# Replicated logs with terms, leaders and quorums

An abstract protocol in which servers hold logs, every term has at most one leader log that only
grows, and a server acknowledges a prefix of the leader log of the term it is in. An entry of a
leader's own term is *committed* when a quorum has acknowledged the log up to it.

The development is about any type of servers, any type of entries with a term, and any quorum
system. It says nothing about messages, roles or storage: a concrete protocol uses it by naming
its servers' logs, its leaders' logs and the acknowledgements it has seen.

## Main definitions

* `ReplicatedLog.QuorumSystem` — families of sets that pairwise meet.
* `ReplicatedLog.State` — terms, logs, leader logs and acknowledgements.
* `ReplicatedLog.Inv` — the invariant; `ReplicatedLog.Ext` — what every step preserves.
* `ReplicatedLog.Blocked` — no quorum can acknowledge this prefix any more.
* `ReplicatedLog.Committed`, `ReplicatedLog.CommittedBy` — committed prefixes.

## Main results

* `ReplicatedLog.Inv.committedBy_comparable` — two committed prefixes are comparable.
* `ReplicatedLog.Inv.committedBy_prefix_leaderLog` — later leader logs hold what is committed.
* `ReplicatedLog.Inv.acked_committed` — a server that acknowledged a committed prefix holds it.

## Design

Completeness of later leaders is an invariant about what *can still* be committed: where a later
leader log lacks a prefix that ends in its own term, every quorum has a member that left that
term without acknowledging it (`Inv.complete`). Such a member never acknowledges it later, so
the statement is stable, and no induction over terms or over the history is needed.
-/

namespace ReplicatedLog

/-- A quorum system: sets of servers any two of which meet. -/
structure QuorumSystem (S : Type*) where
  quorums : Set (Finset S)
  inter : ∀ A ∈ quorums, ∀ B ∈ quorums, ∃ k, k ∈ A ∧ k ∈ B

/-- Terms and logs of the servers, the leader log of each term, and the acknowledgements:
`ack k t X` when server `k` has acknowledged `X` in term `t`. -/
structure State (S E : Type*) where
  term : S → ℕ
  log : S → List E
  leaderLog : ℕ → Option (List E)
  ack : S → ℕ → List E → Prop

variable {S E : Type*} (tm : E → ℕ) (qs : QuorumSystem S)

/-! ## Vocabulary -/

/-- The last entry of the list is of term `t`. -/
def EndsIn (X : List E) (t : ℕ) : Prop := ∃ P e, X = P ++ [e] ∧ tm e = t

namespace State

/-- Server `k` has acknowledged at least `X` in term `t`. -/
def Acked (g : State S E) (k : S) (t : ℕ) (X : List E) : Prop := ∃ Y, g.ack k t Y ∧ X <+: Y

/-- Every entry of `X` comes from the leader log of its term, with all that precedes it. -/
def Anchored (g : State S E) (X : List E) : Prop :=
  ∀ P e, P ++ [e] <+: X → ∃ L, g.leaderLog (tm e) = some L ∧ P ++ [e] <+: L

/-- Every quorum has a member that left term `t` without acknowledging `X`. -/
def Blocked (g : State S E) (t : ℕ) (X : List E) : Prop :=
  ∀ A ∈ qs.quorums, ∃ k ∈ A, t < g.term k ∧ ¬ g.Acked k t X

/-- `X` ends in its leader's own term and a quorum has acknowledged it in that term. -/
def Committed (g : State S E) (t : ℕ) (X : List E) : Prop :=
  EndsIn tm X t ∧ (∃ L, g.leaderLog t = some L ∧ X <+: L) ∧
    ∃ A ∈ qs.quorums, ∀ k ∈ A, g.Acked k t X

/-- `X` is part of what was committed in a term up to `t`. -/
def CommittedBy (g : State S E) (t : ℕ) (X : List E) : Prop :=
  X = [] ∨ ∃ t' ≤ t, ∃ Y, g.Committed tm qs t' Y ∧ X <+: Y

/-- Server `k` supports `L` as a leader log of term `t`: whatever it acknowledged in an earlier
term is in `L` or can no longer be committed. -/
def Pledged (g : State S E) (k : S) (t : ℕ) (L : List E) : Prop :=
  t ≤ g.term k ∧ ∀ t' < t, ∀ X, EndsIn tm X t' → g.Acked k t' X → X <+: L ∨ g.Blocked qs t' X

end State

/-- The invariant of the protocol. -/
structure Inv (g : State S E) : Prop where
  anchored_log : ∀ j, g.Anchored tm (g.log j)
  anchored_leader : ∀ t L, g.leaderLog t = some L → g.Anchored tm L
  ends : ∀ t L, g.leaderLog t = some L → EndsIn tm L t
  le_term : ∀ t L, g.leaderLog t = some L → ∀ e ∈ L, tm e ≤ t
  log_le : ∀ j, ∀ e ∈ g.log j, tm e ≤ g.term j
  elected : ∀ t L, g.leaderLog t = some L → ∃ A ∈ qs.quorums, ∀ k ∈ A, t ≤ g.term k
  ack_leader : ∀ j t X, g.ack j t X → t ≤ g.term j ∧ ∃ L, g.leaderLog t = some L ∧ X <+: L
  ack_held : ∀ j t X, g.Acked j t X → X <+: g.log j ∨
    ∃ t' L', t < t' ∧ t' ≤ g.term j ∧ g.leaderLog t' = some L' ∧ ¬ X <+: L'
  complete : ∀ t t' L L' X, t < t' → g.leaderLog t = some L → g.leaderLog t' = some L' →
    EndsIn tm X t → X <+: L → ¬ X <+: L' → g.Blocked qs t X

/-- What every step of the protocol preserves: terms and leader logs grow, acknowledgements
stay, and a server acknowledges nothing more in a term it has left. -/
structure Ext (g g' : State S E) : Prop where
  term_le : ∀ k, g.term k ≤ g'.term k
  leaderLog_le : ∀ t L, g.leaderLog t = some L → ∃ L', g'.leaderLog t = some L' ∧ L <+: L'
  ack_le : ∀ k t X, g.ack k t X → g'.ack k t X
  frozen : ∀ k t X, g'.ack k t X → g.ack k t X ∨ g.term k ≤ t

/-! ## Stability -/

section Stable

variable {tm qs} {g g' g'' : State S E}

/-- No step at all. -/
lemma Ext.refl (g : State S E) : Ext g g where
  term_le _ := le_rfl
  leaderLog_le _ L h := ⟨L, h, List.prefix_rfl⟩
  ack_le _ _ _ h := h
  frozen _ _ _ h := Or.inl h

/-- One step after another. -/
lemma Ext.trans (h : Ext g g') (h' : Ext g' g'') : Ext g g'' where
  term_le k := (h.term_le k).trans (h'.term_le k)
  leaderLog_le t L hL := by
    obtain ⟨L', hL', hp⟩ := h.leaderLog_le t L hL
    obtain ⟨L'', hL'', hp'⟩ := h'.leaderLog_le t L' hL'
    exact ⟨L'', hL'', hp.trans hp'⟩
  ack_le k t X hX := h'.ack_le k t X (h.ack_le k t X hX)
  frozen k t X hX := by
    rcases h'.frozen k t X hX with hX' | hk
    · exact h.frozen k t X hX'
    · exact Or.inr ((h.term_le k).trans hk)

/-- Acknowledgements stay. -/
lemma Ext.acked (h : Ext g g') {k : S} {t : ℕ} {X : List E} (hX : g.Acked k t X) :
    g'.Acked k t X := by
  obtain ⟨Y, hY, hp⟩ := hX
  exact ⟨Y, h.ack_le k t Y hY, hp⟩

/-- A server has acknowledged nothing new in a term it had left. -/
lemma Ext.acked_of_lt (h : Ext g g') {k : S} {t : ℕ} {X : List E} (hk : t < g.term k)
    (hX : g'.Acked k t X) : g.Acked k t X := by
  obtain ⟨Y, hY, hp⟩ := hX
  rcases h.frozen k t Y hY with hY' | hle
  · exact ⟨Y, hY', hp⟩
  · omega

/-- A list whose entries come from leader logs stays one, since leader logs only grow. -/
lemma Ext.anchored (h : Ext g g') {X : List E} (hX : g.Anchored tm X) : g'.Anchored tm X := by
  intro P e hP
  obtain ⟨L, hL, hp⟩ := hX P e hP
  obtain ⟨L', hL', hp'⟩ := h.leaderLog_le _ L hL
  exact ⟨L', hL', hp.trans hp'⟩

/-- A member that left a term without acknowledging a list never does so later. -/
lemma Ext.blocked (h : Ext g g') {t : ℕ} {X : List E} (hX : g.Blocked qs t X) :
    g'.Blocked qs t X := by
  intro A hA
  obtain ⟨k, hk, hlt, hnot⟩ := hX A hA
  exact ⟨k, hk, hlt.trans_le (h.term_le k), fun hack => hnot (h.acked_of_lt hlt hack)⟩

/-- The support of a server for a leader log stays. -/
lemma Ext.pledged (h : Ext g g') {k : S} {t : ℕ} {L : List E} (hL : g.Pledged tm qs k t L) :
    g'.Pledged tm qs k t L := by
  obtain ⟨ht, hX⟩ := hL
  refine ⟨ht.trans (h.term_le k), fun t' ht' X hends hack => ?_⟩
  rcases hX t' ht' X hends (h.acked_of_lt (ht'.trans_le ht) hack) with hp | hb
  · exact Or.inl hp
  · exact Or.inr (h.blocked hb)

/-- What is committed stays committed. -/
lemma Ext.committed (h : Ext g g') {t : ℕ} {X : List E} (hX : g.Committed tm qs t X) :
    g'.Committed tm qs t X := by
  obtain ⟨hends, ⟨L, hL, hp⟩, A, hA, hack⟩ := hX
  obtain ⟨L', hL', hp'⟩ := h.leaderLog_le t L hL
  exact ⟨hends, ⟨L', hL', hp.trans hp'⟩, A, hA, fun k hk => h.acked (hack k hk)⟩

/-- What is committed up to a term stays so. -/
lemma Ext.committedBy (h : Ext g g') {t : ℕ} {X : List E} (hX : g.CommittedBy tm qs t X) :
    g'.CommittedBy tm qs t X := by
  rcases hX with rfl | ⟨t', ht', Y, hY, hp⟩
  · exact Or.inl rfl
  · exact Or.inr ⟨t', ht', Y, h.committed hY, hp⟩

end Stable

/-! ## Prefixes and anchored lists -/

section Lists

variable {tm} {g : State S E}

/-- A list that ends in a term is not empty. -/
lemma EndsIn.ne_nil {X : List E} {t : ℕ} (h : EndsIn tm X t) : X ≠ [] := by
  obtain ⟨P, e, rfl, -⟩ := h
  simp

/-- A list that ends in a term has an entry of that term. -/
lemma EndsIn.exists_mem {X : List E} {t : ℕ} (h : EndsIn tm X t) : ∃ e ∈ X, tm e = t := by
  obtain ⟨P, e, rfl, he⟩ := h
  exact ⟨e, by simp, he⟩

/-- Who acknowledges a list acknowledges its prefixes. -/
lemma State.Acked.shorten {k : S} {t : ℕ} {X Y : List E} (h : g.Acked k t X) (hp : Y <+: X) :
    g.Acked k t Y := by
  obtain ⟨Z, hZ, hp'⟩ := h
  exact ⟨Z, hZ, hp.trans hp'⟩

/-- The prefixes of an anchored list are anchored. -/
lemma State.Anchored.shorten {X Y : List E} (h : g.Anchored tm X) (hp : Y <+: X) :
    g.Anchored tm Y :=
  fun P e hP => h P e (hP.trans hp)

/-- An anchored list extends by an entry that its leader log holds at the same place. -/
lemma State.Anchored.concat {X L : List E} {e : E} (h : g.Anchored tm X)
    (hL : g.leaderLog (tm e) = some L) (hp : X ++ [e] <+: L) : g.Anchored tm (X ++ [e]) := by
  intro P a hP
  rcases List.prefix_concat_iff.mp hP with heq | hpre
  · obtain ⟨rfl, rfl⟩ : P = X ∧ a = e := by simpa using heq
    exact ⟨L, hL, hp⟩
  · exact h P a hpre

/-- An anchored list that ends in term `t` is a prefix of the leader log of `t`. -/
lemma State.Anchored.prefix_leaderLog {X : List E} {t : ℕ} (h : g.Anchored tm X)
    (hX : EndsIn tm X t) : ∃ L, g.leaderLog t = some L ∧ X <+: L := by
  obtain ⟨P, e, rfl, rfl⟩ := hX
  exact h P e List.prefix_rfl

/-- **Log matching**: anchored lists of one length that end in the same term are equal. -/
lemma State.Anchored.eq_of_endsIn {X Y : List E} {t : ℕ} (hX : g.Anchored tm X)
    (hY : g.Anchored tm Y) (hlen : X.length = Y.length) (htX : EndsIn tm X t)
    (htY : EndsIn tm Y t) : X = Y := by
  obtain ⟨L, hL, hXL⟩ := hX.prefix_leaderLog htX
  obtain ⟨L', hL', hYL⟩ := hY.prefix_leaderLog htY
  rw [hL] at hL'
  obtain rfl : L = L' := by simpa using hL'
  exact (List.prefix_of_prefix_length_le hXL hYL hlen.le).eq_of_length hlen

end Lists

/-- What is committed up to a term is so up to every later one. -/
lemma State.CommittedBy.mono {tm : E → ℕ} {qs : QuorumSystem S} {g : State S E} {t t' : ℕ}
    {X : List E} (h : g.CommittedBy tm qs t X) (ht : t ≤ t') : g.CommittedBy tm qs t' X := by
  rcases h with rfl | ⟨t₀, ht₀, Y, hY, hp⟩
  · exact Or.inl rfl
  · exact Or.inr ⟨t₀, ht₀.trans ht, Y, hY, hp⟩

/-- The prefixes of a committed list are committed. -/
lemma State.CommittedBy.shorten {tm : E → ℕ} {qs : QuorumSystem S} {g : State S E} {t : ℕ}
    {X Z : List E} (h : g.CommittedBy tm qs t X) (hZ : Z <+: X) : g.CommittedBy tm qs t Z := by
  rcases h with rfl | ⟨t₀, ht₀, Y, hY, hp⟩
  · exact Or.inl (List.prefix_nil.mp hZ)
  · exact Or.inr ⟨t₀, ht₀, Y, hY, hZ.trans hp⟩

/-- What is committed is not blocked. -/
lemma State.Committed.not_blocked {tm : E → ℕ} {qs : QuorumSystem S} {g : State S E} {t : ℕ}
    {X : List E} (h : g.Committed tm qs t X) : ¬ g.Blocked qs t X := by
  intro hb
  obtain ⟨-, -, A, hA, hack⟩ := h
  obtain ⟨k, hk, -, hnot⟩ := hb A hA
  exact hnot (hack k hk)

/-! ## Consequences of the invariant -/

namespace Inv

variable {tm qs} {g : State S E} (hg : Inv tm qs g)
include hg

/-- The entries of a prefix that ends in term `t` are of terms up to `t`. -/
lemma le_of_endsIn {X Y : List E} {t : ℕ} (hY : g.Anchored tm Y) (hX : EndsIn tm X t)
    (hp : X <+: Y) : ∀ e ∈ X, tm e ≤ t := by
  obtain ⟨L, hL, hXL⟩ := (hY.shorten hp).prefix_leaderLog hX
  exact fun e he => hg.le_term t L hL e (hXL.subset he)

/-- A prefix of the leader log of `t` cannot end in a later term. -/
lemma not_endsIn_of_lt {X L : List E} {t t' : ℕ} (hL : g.leaderLog t = some L) (hp : X <+: L)
    (h : t < t') : ¬ EndsIn tm X t' := by
  intro hX
  obtain ⟨e, he, rfl⟩ := hX.exists_mem
  have := hg.le_term t L hL e (hp.subset he)
  omega

/-- An acknowledgement is of a term that the server has reached, and for a prefix of the leader log
of that term. -/
lemma acked_le {j : S} {t : ℕ} {X : List E} (h : g.Acked j t X) :
    t ≤ g.term j ∧ ∃ L, g.leaderLog t = some L ∧ X <+: L := by
  obtain ⟨Y, hY, hp⟩ := h
  obtain ⟨ht, L, hL, hp'⟩ := hg.ack_leader j t Y hY
  exact ⟨ht, L, hL, hp.trans hp'⟩

/-- A server still in the term holds all it acknowledged there. -/
lemma acked_held {j : S} {t : ℕ} {X : List E} (h : g.Acked j t X) (ht : g.term j ≤ t) :
    X <+: g.log j := by
  rcases hg.ack_held j t X h with hp | ⟨t', L', h1, h2, -⟩
  · exact hp
  · omega

/-- **Leader completeness**: a leader log of the same or a later term holds what is committed. -/
lemma committed_prefix_leaderLog {t t' : ℕ} {X L' : List E} (h : g.Committed tm qs t X)
    (ht : t ≤ t') (hL' : g.leaderLog t' = some L') : X <+: L' := by
  have hb := h.not_blocked
  obtain ⟨hends, ⟨L, hL, hp⟩, -⟩ := h
  rcases ht.eq_or_lt with rfl | hlt
  · rw [hL] at hL'
    obtain rfl : L = L' := by simpa using hL'
    exact hp
  · by_contra hnot
    exact hb (hg.complete t t' L L' X hlt hL hL' hends hp hnot)

/-- **Leader completeness.** The leader log of a term holds all that is committed up to that term.
-/
lemma committedBy_prefix_leaderLog {t t' : ℕ} {X L' : List E} (h : g.CommittedBy tm qs t X)
    (ht : t ≤ t') (hL' : g.leaderLog t' = some L') : X <+: L' := by
  rcases h with rfl | ⟨t₀, ht₀, Y, hY, hp⟩
  · exact List.nil_prefix
  · exact hp.trans (hg.committed_prefix_leaderLog hY (ht₀.trans ht) hL')

/-- A committed prefix is anchored. -/
lemma anchored_of_committedBy {t : ℕ} {X : List E} (h : g.CommittedBy tm qs t X) :
    g.Anchored tm X := by
  rcases h with rfl | ⟨t₀, -, Y, ⟨-, ⟨L, hL, hYL⟩, -⟩, hXY⟩
  · intro P e hP
    simp at hP
  · exact (hg.anchored_leader t₀ L hL).shorten (hXY.trans hYL)

/-- **Agreement**: two committed prefixes are comparable. -/
theorem committedBy_comparable {t t' : ℕ} {X X' : List E} (h : g.CommittedBy tm qs t X)
    (h' : g.CommittedBy tm qs t' X') : X <+: X' ∨ X' <+: X := by
  rcases h with rfl | ⟨t₀, -, Y, hY, hp⟩
  · exact Or.inl List.nil_prefix
  rcases h' with rfl | ⟨t₁, -, Y', hY', hp'⟩
  · exact Or.inr List.nil_prefix
  -- both prefixes lie in the leader log of the later of the two terms
  rcases le_total t₀ t₁ with hle | hle
  · obtain ⟨-, ⟨L', hL', hpL'⟩, -⟩ := id hY'
    exact List.prefix_or_prefix_of_prefix
      (hp.trans (hg.committed_prefix_leaderLog hY hle hL')) (hp'.trans hpL')
  · obtain ⟨-, ⟨L, hL, hpL⟩, -⟩ := id hY
    exact List.prefix_or_prefix_of_prefix
      (hp.trans hpL) (hp'.trans (hg.committed_prefix_leaderLog hY' hle hL))

/-- A server that acknowledged a committed prefix still holds it. -/
lemma acked_committed {j : S} {t : ℕ} {X : List E} (hack : g.Acked j t X)
    (h : g.CommittedBy tm qs t X) : X <+: g.log j := by
  rcases hg.ack_held j t X hack with hp | ⟨t', L', hlt, -, hL', hnot⟩
  · exact hp
  · exact absurd (hg.committedBy_prefix_leaderLog h hlt.le hL') hnot

/-- A log that ends in the term its server is in is part of that term's leader log.

**Proof sketch.** The server still holds `X`, so its last entry is behind an entry of term `t` or is
one. Terms grow along a log and are at most that of the server, so the log ends in term `t`, and it
is anchored. -/
lemma log_prefix_of_acked {j : S} {t : ℕ} {X : List E} (hX : EndsIn tm X t)
    (hack : g.Acked j t X) (ht : g.term j ≤ t) : ∃ L, g.leaderLog t = some L ∧ g.log j <+: L := by
  have hp := hg.acked_held hack ht
  -- the last entry of the log comes after `X`, so its term is `t` as well
  obtain ⟨P, e, he⟩ : ∃ P e, g.log j = P ++ [e] := by
    rcases List.eq_nil_or_concat' (g.log j) with h | ⟨P, e, h⟩
    · rw [h] at hp
      exact absurd (List.prefix_nil.mp hp) hX.ne_nil
    · exact ⟨P, e, h⟩
  obtain ⟨x, hx, hxt⟩ := hX.exists_mem
  have hends : EndsIn tm (g.log j) (tm e) := ⟨P, e, he, rfl⟩
  have h1 : tm x ≤ tm e :=
    hg.le_of_endsIn (hg.anchored_log j) hends List.prefix_rfl x (hp.subset hx)
  have h2 : tm e ≤ g.term j := hg.log_le j e (by rw [he]; simp)
  obtain rfl : tm e = t := by omega
  exact (hg.anchored_log j).prefix_leaderLog hends

end Inv

end ReplicatedLog
