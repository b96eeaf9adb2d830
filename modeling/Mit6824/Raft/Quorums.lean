import Mathlib.Algebra.Ring.Parity
import Mathlib.Data.Fintype.Card
import Mit6824.Raft.Cluster

set_option autoImplicit false

/-!
# Quorums

The test of an election and the test of a commit compare a count with `(len(peers)+1)/2`
(`StartElection` and `doAppendEntriesRPC` in `raft/raft.go`). Here the counts are turned into the
sets of servers behind them, and it is settled for which cluster sizes such sets always meet: for
odd ones, and for two servers because both tests are made only when two servers have been counted.

## Main definitions

* `Mit6824.Elects` — a candidate with the voters of its granted replies, when the test holds.
* `Mit6824.Raft.replicas` — the servers that `replicaCount` counts.
* `Mit6824.Commits` — the replicas of an entry, when the test holds.
* `Mit6824.Overlap` — election sets meet commit sets and each other.

## Main results

* `Mit6824.overlap_iff_odd`, `Mit6824.disjoint_quorums_of_four`.
-/

namespace Mit6824

/-! ## Sets of a given size -/

section Threshold

variable {S : Type*} [Fintype S] [DecidableEq S]

/-- There are disjoint sets of `k` elements when `2 * k` elements are there. -/
lemma exists_disjoint_of_two_mul_le {k : ℕ} (hk : 2 * k ≤ Fintype.card S) :
    ∃ V W : Finset S, V.card = k ∧ W.card = k ∧ V ∩ W = ∅ := by
  obtain ⟨V, -, hV⟩ := Finset.exists_subset_card_eq
    (s := (Finset.univ : Finset S)) (show k ≤ Finset.univ.card by rw [Finset.card_univ]; omega)
  have hrest : k ≤ Vᶜ.card := by
    rw [Finset.card_compl]
    omega
  obtain ⟨W, hW, hcard⟩ := Finset.exists_subset_card_eq hrest
  refine ⟨V, W, hV, hcard, ?_⟩
  rw [← Finset.disjoint_iff_inter_eq_empty]
  exact Finset.disjoint_of_subset_right hW disjoint_compl_right

/-- Sets of at least `k` elements always meet just when twice `k` is more than there are. -/
lemma forall_inter_nonempty_iff (k : ℕ) :
    (∀ V W : Finset S, k ≤ V.card → k ≤ W.card → (V ∩ W).Nonempty) ↔ Fintype.card S < 2 * k := by
  constructor
  · intro h
    by_contra hle
    obtain ⟨V, W, hV, hW, hdisj⟩ := exists_disjoint_of_two_mul_le (not_lt.mp hle)
    have hmeet := h V W hV.ge hW.ge
    rw [hdisj] at hmeet
    exact Finset.not_nonempty_empty hmeet
  · intro hlt V W hV hW
    refine Finset.inter_nonempty_of_card_lt_card_add_card (Finset.subset_univ V)
      (Finset.subset_univ W) ?_
    rw [Finset.card_univ]
    omega

end Threshold

variable {n : ℕ}

/-! ## The sets behind the tests -/

/-- `V` is a candidate with the peers whose granted votes its loop has counted, the last of them
just now, and `getVote >= (len(peers)+1)/2` holds. -/
def Elects (V : Finset (Fin n)) : Prop :=
  ∃ (me : Fin n) (granted : Finset (Fin n)) (e : Election n) (reply : RequestVoteReply),
    me ∉ granted ∧ granted.Nonempty ∧ e.getVote = granted.card ∧
    Node.countWins e reply = true ∧ V = insert me granted

/-- The servers that count for entry `i` when `peer` has replied: the leader, `peer`, and the
others whose `matchIndexs` reach `i`. -/
def Raft.replicas {Cmd Snap : Type} (rf : Raft n Cmd Snap) (l : Leader n) (peer : Fin n) (i : ℕ) :
    Finset (Fin n) :=
  insert rf.me (insert peer
    (Finset.univ.filter fun j => j ≠ peer ∧ j ≠ rf.me ∧ i ≤ l.matchIndexs j))

/-- `W` is the set of the replicas of an entry, and `cnt >= (len(peers)+1)/2` holds. -/
def Commits (W : Finset (Fin n)) : Prop :=
  ∃ (rf : Raft n Unit Unit) (l : Leader n) (peer : Fin n) (i : ℕ),
    peer ≠ rf.me ∧ quorumSize n ≤ rf.replicaCount l peer i ∧ W = rf.replicas l peer i

/-- Every set of the first kind meets every one of the second kind, and any two of the first kind
meet. -/
def Overlap (elects commits : Finset (Fin n) → Prop) : Prop :=
  (∀ V W, elects V → commits W → (V ∩ W).Nonempty) ∧
    ∀ V V', elects V → elects V' → (V ∩ V').Nonempty

/-- The replicas that the commit rule counts: the leader, the peer whose reply it handles, and those
whose recorded index is large enough. -/
lemma Raft.mem_replicas {Cmd Snap : Type} {rf : Raft n Cmd Snap} {l : Leader n} {peer : Fin n}
    {i : ℕ} {j : Fin n} :
    j ∈ rf.replicas l peer i ↔ j = rf.me ∨ j = peer ∨ i ≤ l.matchIndexs j := by
  simp only [replicas, Finset.mem_insert, Finset.mem_filter, Finset.mem_univ, true_and]
  tauto

/-- `replicaCount` counts the replicas. -/
lemma Raft.card_replicas {Cmd Snap : Type} (rf : Raft n Cmd Snap) (l : Leader n) {peer : Fin n}
    (hpeer : peer ≠ rf.me) (i : ℕ) : (rf.replicas l peer i).card = rf.replicaCount l peer i := by
  unfold replicas replicaCount
  rw [Finset.card_insert_of_notMem, Finset.card_insert_of_notMem]
  · omega
  · simp
  · simp [hpeer.symm]

/-- An election is won with two votes at least, and with `(n + 1) / 2` of them.

**Proof sketch.** An election counts the candidate and one reply at least. Conversely, let a member
of `V` be the candidate and the others its voters. -/
lemma elects_iff (V : Finset (Fin n)) : Elects V ↔ max 2 (quorumSize n) ≤ V.card := by
  constructor
  · rintro ⟨me, granted, e, reply, hme, hne, hcount, hwins, rfl⟩
    have hpos := Finset.card_pos.mpr hne
    have hquorum : quorumSize n ≤ e.getVote + 1 := by
      simpa using (Bool.and_eq_true_iff.mp hwins).2
    rw [Finset.card_insert_of_notMem hme]
    omega
  · intro hcard
    obtain ⟨me, hme⟩ : V.Nonempty := Finset.card_pos.mp (by omega)
    have herase := Finset.card_erase_of_mem hme
    refine ⟨me, V.erase me, ⟨⟨0, me, 0, 0⟩, [], (V.erase me).card, true, none⟩, ⟨0, true⟩,
      Finset.notMem_erase me V, Finset.card_pos.mp (by omega), rfl, ?_,
      (Finset.insert_erase hme).symm⟩
    simp only [Node.countWins, Bool.true_and, decide_eq_true_eq]
    omega

/-- An entry is committed with two replicas at least, and with `(n + 1) / 2` of them.

**Proof sketch.** A leader counts itself and the peer of the reply, so there are two at least.
Conversely, take two members of `W` as leader and peer, and let the members have a match index of 1
and all others of 0. -/
lemma commits_iff (W : Finset (Fin n)) : Commits W ↔ max 2 (quorumSize n) ≤ W.card := by
  constructor
  · rintro ⟨rf, l, peer, i, hpeer, hquorum, rfl⟩
    rw [rf.card_replicas l hpeer]
    have htwo : 2 ≤ rf.replicaCount l peer i := Nat.le_add_right _ _
    omega
  · intro hcard
    obtain ⟨me, hme, peer, hpeer, hne⟩ := Finset.one_lt_card.mp (show 1 < W.card by omega)
    -- the members have a match index of 1, the other servers of 0
    let l : Leader n := ⟨fun _ => 0, fun j => if j ∈ W then 1 else 0⟩
    let rf : Raft n Unit Unit := Raft.make me {}
    have hrf : rf.me = me := rfl
    have hW : rf.replicas l peer 1 = W := by
      ext j
      have hl : 1 ≤ l.matchIndexs j ↔ j ∈ W := by
        show 1 ≤ (if j ∈ W then 1 else 0) ↔ j ∈ W
        split_ifs with hj <;> simp [hj]
      rw [Raft.mem_replicas, hl, hrf]
      constructor
      · rintro (rfl | rfl | hj) <;> assumption
      · exact fun hj => Or.inr (Or.inr hj)
    have hcount := rf.card_replicas l (hrf ▸ hne.symm) 1
    rw [hW] at hcount
    exact ⟨rf, l, peer, 1, hrf ▸ hne.symm, by omega, hW.symm⟩

/-! ## When they meet -/

/-- Sets of at least `k` servers overlap just when twice `k` is more than there are. -/
lemma overlap_card_iff (k : ℕ) {elects commits : Finset (Fin n) → Prop}
    (he : ∀ V, elects V ↔ k ≤ V.card) (hc : ∀ W, commits W ↔ k ≤ W.card) :
    Overlap elects commits ↔ n < 2 * k := by
  have hiff := forall_inter_nonempty_iff (S := Fin n) k
  rw [Fintype.card_fin] at hiff
  simp only [Overlap, he, hc]
  rw [← hiff]
  exact and_self_iff

/-- **When quorums intersect.** Sets whose sizes pass the two tests always have a server in common
just when the cluster size is odd. The sets that the code counts have at least two members, so
those also meet in a cluster of two servers, and in no other one of even size.

**Proof sketch.** Both kinds of sets are given by a least size, `(n+1)/2` or the greater of that
and 2. Sets of at least `k` of `n` servers always meet just when `n < 2 * k`. -/
theorem overlap_iff_odd (hn : 2 ≤ n) :
    (Overlap (fun V : Finset (Fin n) => quorumSize n ≤ V.card)
      (fun W => quorumSize n ≤ W.card) ↔ Odd n) ∧
    (Overlap (Elects (n := n)) Commits ↔ Odd n ∨ n = 2) := by
  constructor
  · rw [overlap_card_iff (quorumSize n) (fun _ => Iff.rfl) fun _ => Iff.rfl, quorumSize,
      Nat.odd_iff]
    omega
  · rw [overlap_card_iff (max 2 (quorumSize n)) elects_iff commits_iff, quorumSize, Nat.odd_iff]
    omega

/-- Three servers. -/
theorem overlap_three : 2 ≤ 3 ∧ Overlap (Elects (n := 3)) Commits :=
  ⟨by decide, (overlap_iff_odd (n := 3) (by decide)).2.mpr (Or.inl (by decide))⟩

/-- **Disjoint quorums.** Of four servers, two can elect one of them while the other two commit an
entry; and two can elect a leader while the other two elect another one. -/
theorem disjoint_quorums_of_four :
    Elects (Finset.univ.filter fun i : Fin 4 => i.val < 2) ∧
    Elects (Finset.univ.filter fun i : Fin 4 => 2 ≤ i.val) ∧
    Commits (Finset.univ.filter fun i : Fin 4 => 2 ≤ i.val) ∧
    (Finset.univ.filter fun i : Fin 4 => i.val < 2) ∩
      (Finset.univ.filter fun i : Fin 4 => 2 ≤ i.val) = ∅ := by
  rw [elects_iff, elects_iff, commits_iff]
  decide

end Mit6824
