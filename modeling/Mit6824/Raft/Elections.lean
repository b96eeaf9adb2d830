import Mathlib.Algebra.Ring.Parity
import Mathlib.Data.Fintype.Card
import Mit6824.ReplicatedLog.Basic
import Mit6824.Raft.Stance
import Mit6824.Raft.Inversion

set_option autoImplicit false

/-!
# Votes and elections

One vote per term, leadership that is earned, and one leader per term, in runs that keep the
conditions of `Mit6824.Raft.Runs`; and a run of three servers that breaks the first and the last.

## Main definitions

* `Mit6824.Stance.OneVote` — the votes of a server name one candidate per term, and the vote of
  the present term is in `votedFor` unless `becomeFollower` has cleared it.
* `Mit6824.Elections` — every vote that was counted was given.

## Main results

* `Mit6824.one_vote_per_term`, `Mit6824.two_votes_in_one_term`.
* `Mit6824.becomeLeader_earned`, `Mit6824.becomeLeader_as_follower`.
* `Mit6824.one_leader_per_term`, `Mit6824.two_leaders_in_one_term`.
-/

namespace Mit6824

variable {n : ℕ} {Cmd Snap : Type}

/-! ## One vote per term -/

/-- The votes name one candidate per term, none is of a later term, and the vote of the present
term is still in `votedFor` or has been cleared. -/
structure Stance.OneVote (s : Stance n) : Prop where
  le : ∀ T A, (T, A) ∈ s.votes → T ≤ s.term
  current : ∀ A, (s.term, A) ∈ s.votes → s.vote = some A ∨ s.vote = none ∧ s.erased = some A
  unique : ∀ T A B, (T, A) ∈ s.votes → (T, B) ∈ s.votes → A = B

namespace Stance.OneVote

variable {s : Stance n}

/-- Following a term that is not older keeps the votes apart. -/
lemma follow (h : s.OneVote) {t : ℕ} (ht : s.term ≤ t) : (s.follow t).OneVote where
  le T A hA := (h.le T A hA).trans ht
  current A hA := by
    obtain rfl : t = s.term := le_antisymm (h.le t A hA) ht
    right
    rcases h.current A hA with hv | ⟨hv, he⟩
    · simp [Stance.follow, hv]
    · simp [Stance.follow, hv, he]
  unique := h.unique

/-- A candidate votes for itself in a new term, which has no other vote.

**Proof sketch.** The votes so far are for earlier terms, so there is none for the new one. -/
lemma own (h : s.OneVote) (me : Fin n) : (s.own me).OneVote := by
  have hnew : ∀ A, (s.term + 1, A) ∉ s.votes := by
    intro A hA
    have := h.le _ A hA
    omega
  refine ⟨?_, ?_, ?_⟩
  · intro T A hA
    rcases List.mem_append.mp hA with hA | hA
    · exact (h.le T A hA).trans (Nat.le_succ _)
    · obtain ⟨rfl, -⟩ : T = s.term + 1 ∧ A = me := by simpa using hA
      exact le_rfl
  · intro A hA
    rcases List.mem_append.mp hA with hA | hA
    · exact absurd hA (hnew A)
    · left
      obtain rfl : A = me := by simpa [Stance.own] using hA
      rfl
  · intro T A B hA hB
    rcases List.mem_append.mp hA with hA | hA <;> rcases List.mem_append.mp hB with hB | hB
    · exact h.unique T A B hA hB
    · obtain ⟨rfl, -⟩ : T = s.term + 1 ∧ B = me := by simpa using hB
      exact absurd hA (hnew A)
    · obtain ⟨rfl, -⟩ : T = s.term + 1 ∧ A = me := by simpa using hA
      exact absurd hB (hnew B)
    · obtain ⟨-, rfl⟩ : T = s.term + 1 ∧ A = me := by simpa using hA
      obtain ⟨-, rfl⟩ : T = s.term + 1 ∧ B = A := by simpa using hB
      rfl

/-- A granted vote that no earlier vote of the term contradicts.

**Proof sketch.** A vote of the current term is in `votedFor` or was erased; in both cases it is for
the candidate. So the new vote contradicts none. -/
lemma grant (h : s.OneVote) {cand : Fin n} (hfree : s.vote = none ∨ s.vote = some cand)
    (herased : s.vote = none → s.erased = none ∨ s.erased = some cand) :
    (s.grant s.term cand).OneVote := by
  have hcur : ∀ A, (s.term, A) ∈ s.votes → A = cand := by
    intro A hA
    rcases h.current A hA with hv | ⟨hv, he⟩
    · rcases hfree with hf | hf <;> simp_all
    · rcases herased hv with hf | hf <;> simp_all
  have hmem : ∀ T A, (T, A) ∈ (s.grant s.term cand).votes →
      (T, A) ∈ s.votes ∨ T = s.term ∧ A = cand := by
    intro T A hA
    simpa [Stance.grant] using hA
  refine ⟨?_, ?_, ?_⟩
  · intro T A hA
    rcases hmem T A hA with hA | ⟨rfl, -⟩
    · exact h.le T A hA
    · exact le_rfl
  · intro A hA
    left
    rcases hmem _ A hA with hA | ⟨-, rfl⟩
    · rw [hcur A hA]; rfl
    · rfl
  · intro T A B hA hB
    rcases hmem T A hA with hA | ⟨hT, hA⟩ <;> rcases hmem T B hB with hB | ⟨hT', hB⟩
    · exact h.unique T A B hA hB
    · rw [hcur A (hT' ▸ hA), hB]
    · rw [hcur B (hT ▸ hB), hA]
    · rw [hA, hB]

/-- The role is not part of it. -/
lemma ofRole (h : s.OneVote) (r : Role) : { s with role := r }.OneVote :=
  ⟨h.le, h.current, h.unique⟩

end Stance.OneVote

/-- An input that meets the two conditions on votes and terms keeps one vote per term.

**Proof sketch.** By the move. A new term has no votes yet, and a granted vote is fresh, so it
contradicts no earlier one. -/
lemma Moved.oneVote {nd nd' : Node n Cmd Snap} {inp : Input n Cmd Snap} (hm : Moved nd inp nd')
    (h : nd.stance.OneVote) (hV : VoteFresh nd inp) (hM : TermFresh nd inp) :
    nd'.stance.OneVote := by
  obtain ⟨s, hs, hend⟩ := hm.move
  have hone : s.OneVote := by
    cases hs with
    | keep => exact h
    | follow t ht => exact h.follow (ht.elim id (hM t))
    | own => exact h.own _
    | grant hd hg =>
      obtain ⟨hterm, herased⟩ := hV hd hg
      obtain ⟨-, hfree⟩ := Node.of_mem_granting hg
      have hgrant := h.grant hfree herased
      rwa [show nd.stance.term = hd.args.candicateTerm from hterm] at hgrant
    | lead => exact h.ofRole _
  rcases hend with he | he
  · rw [he]; exact hone
  · rw [he]; exact hone.ofRole _

/-- Votes are never forgotten. -/
lemma Moved.votes_subset {nd nd' : Node n Cmd Snap} {inp : Input n Cmd Snap}
    (hm : Moved nd inp nd') : nd.votes ⊆ nd'.votes := by
  obtain ⟨s, hs, hend⟩ := hm.move
  have hsub : nd.votes ⊆ s.votes := by
    cases hs with
    | keep => exact List.Subset.refl _
    | follow => exact List.Subset.refl _
    | own => exact List.subset_append_left _ _
    | grant => exact List.subset_append_left _ _
    | lead => exact List.Subset.refl _
  have hv : nd'.votes = s.votes := by
    rcases hend with he | he <;> exact congrArg Stance.votes he
  rw [hv]
  exact hsub

/-! ## Counting votes -/

/-- The servers that voted for `s` in term `T`. -/
def Cluster.voters (c : Cluster n Cmd Snap) (T : ℕ) (s : Fin n) : Finset (Fin n) :=
  Finset.univ.filter fun v => (T, s) ∈ (c.nodes v).votes

/-- An election of server `i` has counted no more votes than were given by servers it waits for
no longer, its own among them. -/
structure ElectionOk (c : Cluster n Cmd Snap) (i : Fin n) (e : Election n) : Prop where
  id : e.args.candicateId = i
  nodup : e.waiting.Nodup
  own : (e.args.candicateTerm, i) ∈ (c.nodes i).votes
  count : e.getVote ≤ (Finset.univ.filter fun v =>
    v ∉ e.waiting ∧ (e.args.candicateTerm, i) ∈ (c.nodes v).votes).card

/-- Every vote counted or on its way was given, and a candidate has voted for itself. -/
structure Elections (c : Cluster n Cmd Snap) : Prop where
  me : ∀ i, (c.nodes i).rf.me = i
  saved : ∀ i, (c.nodes i).rf.Saved
  ok : ∀ i, ∀ e ∈ (c.nodes i).elections, ElectionOk c i e
  granted : ∀ src args reply, .requestVoteReply src args reply ∈ c.net → reply.voteGranted = true →
    (args.candicateTerm, args.candicateId) ∈ (c.nodes src).votes
  candidate : ∀ i, (c.nodes i).rf.role = .candicate → (c.nodes i).rf.votedFor = some i

/-- There are no votes at the start. -/
lemma Elections.init : Elections (Cluster.init : Cluster n Cmd Snap) where
  me i := Raft.me_make i {}
  saved i := Raft.saved_make i {}
  ok i e he := by simp [Cluster.init, Node.init] at he
  granted src args reply hm := by simp [Cluster.init] at hm
  candidate i hr := by
    simp [Cluster.init, Node.init] at hr

/-- The loss of messages takes no vote back. -/
lemma Elections.lose {c d : Cluster n Cmd Snap} (h : Elections c) (hn : d.nodes = c.nodes)
    (hnet : d.net ⊆ c.net) : Elections d := by
  obtain ⟨nodes, net⟩ := d
  obtain rfl : nodes = c.nodes := hn
  exact ⟨h.me, h.saved, fun i e he => ⟨(h.ok i e he).id, (h.ok i e he).nodup, (h.ok i e he).own,
    (h.ok i e he).count⟩, fun src args reply hm => h.granted src args reply (hnet hm), h.candidate⟩

/-- Fewer peers to wait for and more votes keep an election in order. -/
lemma ElectionOk.mono {c d : Cluster n Cmd Snap} {i : Fin n} {e e' : Election n}
    (h : ElectionOk c i e) (hv : ∀ v, (c.nodes v).votes ⊆ (d.nodes v).votes)
    (hargs : e'.args = e.args) (hw : e'.waiting.Sublist e.waiting)
    (hg : e'.getVote = e.getVote) : ElectionOk d i e' where
  id := by rw [hargs]; exact h.id
  nodup := h.nodup.sublist hw
  own := by rw [hargs]; exact hv i h.own
  count := by
    rw [hg, hargs]
    refine h.count.trans (Finset.card_le_card fun v hmem => ?_)
    simp only [Finset.mem_filter, Finset.mem_univ, true_and] at hmem ⊢
    exact ⟨fun hmem' => hmem.1 (hw.subset hmem'), hv v hmem.2⟩

/-- A server the election is waiting for is none of those whose votes it has counted. -/
lemma ElectionOk.getVote_lt_card {c : Cluster n Cmd Snap} {i src : Fin n} {e : Election n}
    (h : ElectionOk c i e) (hsrc : src ∈ e.waiting) {S : Finset (Fin n)} (hmem : src ∈ S)
    (hS : ∀ v, v ∉ e.waiting → (e.args.candicateTerm, i) ∈ (c.nodes v).votes → v ∈ S) :
    e.getVote + 1 ≤ S.card := by
  have hnot : src ∉ Finset.univ.filter fun v =>
      v ∉ e.waiting ∧ (e.args.candicateTerm, i) ∈ (c.nodes v).votes := by simp [hsrc]
  calc e.getVote + 1 ≤ _ + 1 := Nat.add_le_add_right h.count 1
    _ = _ := (Finset.card_insert_of_notMem hnot).symm
    _ ≤ S.card := Finset.card_le_card fun v hv => ?_
  rcases Finset.mem_insert.mp hv with rfl | hv
  · exact hmem
  · obtain ⟨hwait, hvote⟩ := (Finset.mem_filter.mp hv).2
    exact hS v hwait hvote

/-- One more vote, given by a server the election was waiting for. -/
lemma ElectionOk.counted {c d : Cluster n Cmd Snap} {i src : Fin n} {e e' : Election n}
    (h : ElectionOk c i e) (hv : ∀ v, (c.nodes v).votes ⊆ (d.nodes v).votes)
    (hsrc : src ∈ e.waiting) (hvote : (e.args.candicateTerm, i) ∈ (c.nodes src).votes)
    (hargs : e'.args = e.args) (hw : e'.waiting = e.waiting.erase src)
    (hg : e'.getVote = e.getVote + 1) : ElectionOk d i e' := by
  refine ⟨by rw [hargs]; exact h.id, by rw [hw]; exact h.nodup.erase src,
    by rw [hargs]; exact hv i h.own, ?_⟩
  rw [hg, hargs, hw]
  refine h.getVote_lt_card hsrc ?_ fun v hwait hv' => ?_
  · simpa [h.nodup.not_mem_erase] using hv src hvote
  · exact Finset.mem_filter.mpr ⟨Finset.mem_univ v,
      fun hmem => hwait (List.mem_of_mem_erase hmem), hv v hv'⟩

/-- A new election has one vote, the server's own. -/
lemma ElectionOk.new {d : Cluster n Cmd Snap} {i : Fin n} {e : Election n}
    (hid : e.args.candicateId = i) (hw : e.waiting = (List.finRange n).filter (· ≠ i))
    (hg : e.getVote = 1) (hown : (e.args.candicateTerm, i) ∈ (d.nodes i).votes) :
    ElectionOk d i e := by
  refine ⟨hid, by rw [hw]; exact (List.nodup_finRange n).filter _, hown, ?_⟩
  rw [hg]
  refine Finset.card_pos.mpr ⟨i, ?_⟩
  simp [hw, hown]

/-- A candidate that handles an input and is a candidate afterwards has voted for itself.

**Proof sketch.** By the move. Only an election makes a candidate, and it votes for itself; the vote
of a candidate is taken, so it can only be granted to itself again. -/
lemma Moved.candidate {nd nd' : Node n Cmd Snap} {inp : Input n Cmd Snap} (hm : Moved nd inp nd')
    (h : nd.rf.role = .candicate → nd.rf.votedFor = some nd.rf.me)
    (hr : nd'.rf.role = .candicate) : nd'.rf.votedFor = some nd.rf.me := by
  obtain ⟨s, hs, he | he⟩ := hm.move
  · have hrole : s.role = .candicate := by rw [← he]; exact hr
    have hvote : nd'.rf.votedFor = s.vote := congrArg Stance.vote he
    rw [hvote]
    cases hs with
    | keep => exact h hrole
    | follow => simp [Stance.follow] at hrole
    | own => rfl
    | grant hd hg =>
      -- a candidate's vote is taken, so it can only vote for itself again
      obtain ⟨-, hfree⟩ := Node.of_mem_granting hg
      rw [h hrole] at hfree
      simpa [Stance.grant, eq_comm] using hfree
    | lead => simp [Stance.lead] at hrole
  · have hdown : nd'.rf.role = .follower := congrArg Stance.role he
    simp [hdown] at hr

section Runs

variable [DecidableEq Cmd] [DecidableEq Snap] {c : Cluster n Cmd Snap} {i : Fin n}
  {inp : Input n Cmd Snap} {o : NodeOutcome n Cmd Snap}

/-- Votes are never forgotten in a step of the cluster. -/
lemma Elections.votes_subset (h : Elections c) (ho : (c.nodes i).exec inp = some o) (v : Fin n) :
    (c.nodes v).votes ⊆ ((c.after i o).nodes v).votes :=
  Cluster.forall_nodes_after (P := fun v nd => (c.nodes v).votes ⊆ nd.votes)
    (Node.exec_moved (h.saved i) ho).votes_subset (fun _ _ => List.Subset.refl _) v

/-- Every input keeps the accounting of votes.

**Proof sketch.** Only server `i` has moved, and no vote is lost. Its elections are old, new, or
have counted one more reply; that reply was sent by a server that had voted. A reply that is sent
now is of a vote that is now recorded. -/
lemma Elections.after (h : Elections c) (hdel : c.Deliverable i inp)
    (ho : (c.nodes i).exec inp = some o) : Elections (c.after i o) := by
  have hm := Node.exec_moved (h.saved i) ho
  have hh := Node.exec_handled ho
  have hv := h.votes_subset ho
  have hme : (Node.finish o).node.rf.me = i := hm.me.trans (h.me i)
  refine ⟨Cluster.forall_nodes_after (P := fun k nd => nd.rf.me = k) hme fun k _ => h.me k,
    Cluster.forall_nodes_after (P := fun _ nd => nd.rf.Saved) hm.saved fun k _ => h.saved k,
    ?_, ?_, ?_⟩
  · intro k e he
    by_cases hk : k = i
    · subst hk
      rw [Cluster.nodes_after_self] at he
      cases hh.elections e he with
      | old _ a _ ha hargs hw hg => exact (h.ok k a ha).mono hv hargs hw hg
      | counted g src reply a _ ha hsrc hr hargs hw hg =>
        obtain ⟨hnet, -⟩ := hdel _ _ rfl
        have hvote := h.granted src a.args reply hnet hr
        rw [(h.ok k a ha).id] at hvote
        exact (h.ok k a ha).counted hv hsrc hvote hargs hw hg
      | new _ _ hid hvote hw hg =>
        rw [h.me k] at hid hvote
        refine ElectionOk.new hid ?_ hg ?_
        · rw [hw, Node.peers, h.me k]
        · rw [Cluster.nodes_after_self]; exact hvote
    · rw [Cluster.nodes_after_of_ne c hk] at he
      exact (h.ok k e he).mono hv rfl (List.Sublist.refl _) rfl
  · intro src args reply hmem hr
    rcases Cluster.mem_net_after hmem with hmem | hmem
    · exact hv src (h.granted src args reply hmem hr)
    · cases hh.sent _ hmem with
      | refused => simp at hr
      | granted hd t hvote =>
        rw [h.me i, Cluster.nodes_after_self]
        exact hvote
  · refine Cluster.forall_nodes_after
      (P := fun k nd => nd.rf.role = .candicate → nd.rf.votedFor = some k) (fun hr => ?_)
      fun k _ => h.candidate k
    have := hm.candidate (fun hr' => by rw [h.me i]; exact h.candidate i hr') hr
    rwa [h.me i] at this

/-- The accounting of votes holds in every reachable state. -/
theorem Elections.of_run {P : Node n Cmd Snap → Input n Cmd Snap → Prop}
    (h : Run P .init c) : Elections c :=
  h.induct Elections.init (fun _ _ hc hn hnet => hc.lose hn hnet)
    fun _ _ _ _ hc _ hdel ho => hc.after hdel ho

/-- An invariant of single servers that every input keeps holds in every reachable state. -/
lemma forall_node_of_run {P : Node n Cmd Snap → Input n Cmd Snap → Prop}
    {I : Node n Cmd Snap → Prop} (h : Run P .init c) (hinit : ∀ i, I (Node.init i))
    (hexec : ∀ (nd : Node n Cmd Snap) inp o, nd.rf.Saved → I nd → P nd inp →
      nd.exec inp = some o → I (Node.finish o).node) (i : Fin n) : I (c.nodes i) := by
  suffices hc : Elections c ∧ ∀ i, I (c.nodes i) from hc.2 i
  refine Run.induct (I := fun c => Elections c ∧ ∀ i, I (c.nodes i)) h ⟨Elections.init, hinit⟩ ?_ ?_
  · rintro c d ⟨he, hI⟩ hn hnet
    exact ⟨he.lose hn hnet, fun i => by rw [hn]; exact hI i⟩
  · rintro c i inp o ⟨he, hI⟩ hP hdel ho
    exact ⟨he.after hdel ho, Cluster.forall_nodes_after (P := fun _ nd => I nd)
      (hexec _ inp o (he.saved i) (hI i) hP ho) fun k _ => hI k⟩

/-! ## One vote per term -/

/-- In every run of fresh votes and terms each server has voted for one candidate per term. -/
lemma oneVote_of_run (h : Run (fun nd inp => VoteFresh nd inp ∧ TermFresh nd inp) Cluster.init c)
    (i : Fin n) : (c.nodes i).stance.OneVote := by
  refine forall_node_of_run (I := fun nd => nd.stance.OneVote) h (fun i => ⟨?_, ?_, ?_⟩) ?_ i
  · simp [Node.stance, Node.init]
  · simp [Node.stance, Node.init]
  · simp [Node.stance, Node.init]
  · intro nd inp o hs hone hP ho
    exact (Node.exec_moved hs ho).oneVote hone hP.1 hP.2

/-- **One vote per term.** When votes are fresh and no reply lowers the term, the votes of a
server name one candidate per term, and every granted reply is one of these votes.

**Proof sketch.** Every granted reply is recorded as a vote of its sender, and a fresh vote
contradicts no earlier one of its term. -/
theorem one_vote_per_term
    (h : Run (fun nd inp => VoteFresh nd inp ∧ TermFresh nd inp) Cluster.init c) (i : Fin n) :
    (∀ args reply, .requestVoteReply i args reply ∈ c.net → reply.voteGranted = true →
      (args.candicateTerm, args.candicateId) ∈ (c.nodes i).votes) ∧
    ∀ T A B, (T, A) ∈ (c.nodes i).votes → (T, B) ∈ (c.nodes i).votes → A = B :=
  ⟨(Elections.of_run h).granted i, (oneVote_of_run h i).unique⟩

end Runs

/-- Servers 0 and 1 ask server 2 for its vote in term 1, and both requests pass its checks. It
votes for 0, which wins and sends its first `AppendEntries`; that clears the vote, and server 2
votes for 1, which wins too. -/
def splitVote : List (Label 3 ℕ ℕ) :=
  [.act 0 .startElection, .act 0 (.askVote 0 2), .act 1 .startElection, .act 1 (.askVote 0 2),
    .recv 1 0, .recv 0 0, .act 2 (.grantVote 1), .recv 0 0, .act 0 (.beat 1),
    .act 0 (.sendAppend 1), .recv 0 0, .act 2 (.grantVote 0), .recv 1 0]

/-- A fresh vote: the same run up to the vote for server 0. -/
theorem one_vote_per_term_first : ∃ c : Cluster 3 ℕ ℕ,
    Run (fun nd inp => VoteFresh nd inp ∧ TermFresh nd inp) .init c ∧
    (1, 0) ∈ (c.nodes 2).votes ∧ ∀ A, (1, A) ∈ (c.nodes 2).votes → A = 0 := by
  obtain ⟨c, hrun, hv⟩ : ∃ c : Cluster 3 ℕ ℕ,
      Run (fun nd inp => VoteFresh nd inp ∧ TermFresh nd inp) .init c ∧
      (1, 0) ∈ (c.nodes 2).votes :=
    Run.exists_of_stepsIf (splitVote.take 11) (by decide +kernel)
  exact ⟨c, hrun, hv, fun A hA => (one_vote_per_term hrun 2).2 1 A 0 hA hv⟩

/-- Without the condition a server can vote twice in one term. -/
theorem two_votes_in_one_term : ∃ c : Cluster 3 ℕ ℕ, Cluster.init.steps splitVote = some c ∧
    (1, 0) ∈ (c.nodes 2).votes ∧ (1, 1) ∈ (c.nodes 2).votes :=
  Cluster.exists_of_steps splitVote (by decide +kernel)

/-! ## Leadership is earned -/

section Earned

variable [DecidableEq Cmd] [DecidableEq Snap] {c : Cluster n Cmd Snap} {i : Fin n}
  {inp : Input n Cmd Snap}

omit [DecidableEq Cmd] [DecidableEq Snap] in
/-- The vote that completes an election is the vote of a majority for its term.

**Proof sketch.** The votes counted so far come from servers the election no longer waits for;
the reply that arrives was granted by one it still waits for, which makes one more. -/
lemma Elections.quorum_of_winning (h : Elections c) (hdel : c.Deliverable i inp) {e : Election n}
    (he : e ∈ (c.nodes i).winning inp) :
    i ∈ c.voters e.args.candicateTerm i ∧
      quorumSize n ≤ (c.voters e.args.candicateTerm i).card := by
  obtain ⟨src, reply, k, rfl, hk, hsrc, hwins⟩ := Node.of_mem_winning he
  have hok := h.ok i e (List.mem_of_getElem? hk)
  simp only [Node.countWins, Bool.and_eq_true, decide_eq_true_eq] at hwins
  obtain ⟨hgranted, hcount⟩ := hwins
  obtain ⟨hnet, -⟩ := hdel _ _ rfl
  have hvote := h.granted src e.args reply hnet hgranted
  rw [hok.id] at hvote
  refine ⟨by simpa [Cluster.voters] using hok.own, hcount.trans ?_⟩
  refine hok.getVote_lt_card hsrc ?_ fun v _ hv => ?_
  · simpa [Cluster.voters] using hvote
  · simpa [Cluster.voters] using hv

/-- In step `l`, `becomeLeader` runs on server `i`. -/
def Cluster.BecomesLeader (c : Cluster n Cmd Snap) (l : Label n Cmd Snap) (i : Fin n) : Prop :=
  ∃ x ∈ c.pick l, x.1 = i ∧ ((c.nodes i).winning x.2.1).isSome = true

instance (c : Cluster n Cmd Snap) (l : Label n Cmd Snap) (i : Fin n) :
    Decidable (c.BecomesLeader l i) :=
  inferInstanceAs (Decidable (∃ x ∈ c.pick l, _))

/-- **Leadership is earned.** When the vote that completes an election finds the server still a
candidate in the term of the election, `becomeLeader` runs on a candidate that has voted for
itself, and a majority that includes it has voted for it in its present term.

**Proof sketch.** The election that is won has counted granted replies of a majority, and each of
them is a vote for its candidate and its term. Since the win is fresh, this is the server's present
term. -/
theorem becomeLeader_earned (h : Run (fun nd inp => WinFresh nd inp) Cluster.init c)
    {l : Label n Cmd Snap} (hl : StepMeets WinFresh c l) (hwin : c.BecomesLeader l i) :
    (c.nodes i).rf.role = .candicate ∧ (c.nodes i).rf.votedFor = some i ∧
      i ∈ c.voters (c.nodes i).rf.currentTerm i ∧
      quorumSize n ≤ (c.voters (c.nodes i).rf.currentTerm i).card := by
  have hE := Elections.of_run h
  obtain ⟨⟨j, inp, c'⟩, hpick, rfl, hsome⟩ := hwin
  obtain ⟨e, he⟩ := Option.isSome_iff_exists.mp hsome
  obtain ⟨hrole, hterm⟩ := hl j inp c' hpick e he
  have hq := hE.quorum_of_winning (Cluster.deliverable_of_pick hpick) he
  rw [hterm]
  exact ⟨hrole, hE.candidate j hrole, hq⟩

end Earned

/-- Server 0 is about to count the vote of server 2 and to become leader of term 1. -/
theorem becomeLeader_earned_first : ∃ c : Cluster 3 ℕ ℕ,
    Run (fun nd inp => WinFresh nd inp) .init c ∧ c.BecomesLeader (.recv 0 0) 0 ∧
    (c.nodes 0).rf.role = .candicate ∧ 2 ≤ (c.voters (c.nodes 0).rf.currentTerm 0).card := by
  obtain ⟨c, hrun, hmeets, hwin⟩ : ∃ c : Cluster 3 ℕ ℕ,
      Run (fun nd inp => WinFresh nd inp) .init c ∧
      StepMeets WinFresh c (.recv 0 0) ∧ c.BecomesLeader (.recv 0 0) 0 :=
    Run.exists_of_stepsIf (splitVote.take 7) (by decide +kernel)
  obtain ⟨hrole, -, -, hq⟩ := becomeLeader_earned hrun hmeets hwin
  exact ⟨c, hrun, hwin, hrole, hq⟩

/-- Server 0 asks for votes in term 1, and server 1 grants its vote. Before the reply arrives,
a request of server 2 of term 2 makes server 0 a follower. -/
def lateVote : List (Label 3 ℕ ℕ) :=
  [.act 0 .startElection, .act 0 (.askVote 0 1), .act 2 .startElection, .act 2 .startElection,
    .act 2 (.askVote 1 0), .recv 0 0, .act 1 (.grantVote 0), .recv 0 0]

/-- Without the condition a follower becomes leader of a term in which nobody voted for it. -/
theorem becomeLeader_as_follower : ∃ c : Cluster 3 ℕ ℕ, Cluster.init.steps lateVote = some c ∧
    c.BecomesLeader (.recv 0 0) 0 ∧ (c.nodes 0).rf.role = .follower ∧
    (c.nodes 0).rf.votedFor = none ∧ (c.nodes 0).rf.currentTerm = 2 ∧ c.voters 2 0 = ∅ :=
  Cluster.exists_of_steps lateVote (by decide +kernel)

/-! ## One leader per term -/

/-- More than half of the servers. -/
def majority (n : ℕ) : ReplicatedLog.QuorumSystem (Fin n) where
  quorums := {A | n < A.card + A.card}
  inter A hA B hB := by
    have hlt : (Finset.univ : Finset (Fin n)).card < A.card + B.card := by
      simp only [Set.mem_ofPred_eq, Finset.card_univ, Fintype.card_fin] at *
      omega
    obtain ⟨v, hv⟩ := Finset.inter_nonempty_of_card_lt_card_add_card (Finset.subset_univ A)
      (Finset.subset_univ B) hlt
    exact ⟨v, Finset.mem_inter.mp hv⟩

/-- For an odd number of servers, `(n + 1) / 2` of them are a majority. -/
lemma mem_majority (hn : Odd n) {A : Finset (Fin n)} (hA : quorumSize n ≤ A.card) :
    A ∈ (majority n).quorums := by
  obtain ⟨k, rfl⟩ := hn
  simp only [majority, quorumSize, Set.mem_ofPred_eq] at *
  omega

section OneLeader

variable [DecidableEq Cmd] [DecidableEq Snap] {c d : Cluster n Cmd Snap}

/-- A server that leads a term has the votes of a majority in it. -/
def LeadersElected (c : Cluster n Cmd Snap) : Prop :=
  ∀ i, (c.nodes i).rf.role = .leader →
    quorumSize n ≤ (c.voters (c.nodes i).rf.currentTerm i).card

omit [DecidableEq Cmd] [DecidableEq Snap] in
/-- Votes stay votes. -/
lemma voters_mono (h : ∀ v, (c.nodes v).votes ⊆ (d.nodes v).votes) (T : ℕ) (s : Fin n) :
    c.voters T s ⊆ d.voters T s := by
  intro v hv
  simp only [Cluster.voters, Finset.mem_filter, Finset.mem_univ, true_and] at hv ⊢
  exact h v hv

/-- One step keeps the leaders elected: a server becomes leader only by a majority, and one that
leads stays in its term.

**Proof sketch.** A server becomes leader only when it wins, and then it has the votes of a
majority, in its own term since the win is fresh. A leader keeps its term as long as it leads, and
voters are never lost. -/
lemma LeadersElected.after {i : Fin n} {inp : Input n Cmd Snap} {o : NodeOutcome n Cmd Snap}
    (h : LeadersElected c) (hE : Elections c) (hW : WinFresh (c.nodes i) inp)
    (hdel : c.Deliverable i inp) (ho : (c.nodes i).exec inp = some o) :
    LeadersElected (c.after i o) := by
  have hcard : ∀ T s, (c.voters T s).card ≤ ((c.after i o).voters T s).card :=
    fun T s => Finset.card_le_card (voters_mono (hE.votes_subset ho) T s)
  intro k hr
  by_cases hk : k = i
  · subst hk
    rw [Cluster.nodes_after_self] at hr ⊢
    refine le_trans ?_ (hcard _ _)
    obtain ⟨s, hs, he | he⟩ := (Node.exec_moved (hE.saved k) ho).move
    · have hrole : s.role = .leader := by rw [← he]; exact hr
      have hterm : (Node.finish o).node.rf.currentTerm = s.term := congrArg Stance.term he
      rw [hterm]
      cases hs with
      | keep => exact h k hrole
      | follow => simp [Stance.follow] at hrole
      | own => simp [Stance.own] at hrole
      | grant => exact h k hrole
      | lead e hwin =>
        have hq := (hE.quorum_of_winning hdel hwin).2
        rw [← (hW e hwin).2] at hq
        exact hq
    · have hdown : (Node.finish o).node.rf.role = .follower := congrArg Stance.role he
      rw [hdown] at hr
      cases hr
  · rw [Cluster.nodes_after_of_ne c hk] at hr ⊢
    exact (h k hr).trans (hcard _ _)

/-- In every run of fresh wins the leaders are elected. -/
lemma leadersElected_of_run (h : Run (fun nd inp => WinFresh nd inp) Cluster.init c) :
    LeadersElected c := by
  suffices hc : Elections c ∧ LeadersElected c from hc.2
  refine Run.induct (I := fun c => Elections c ∧ LeadersElected c) h ⟨Elections.init, ?_⟩ ?_ ?_
  · intro i hr
    simp [Cluster.init, Node.init] at hr
  · rintro c d ⟨hE, hL⟩ hn hnet
    refine ⟨hE.lose hn hnet, fun i hr => ?_⟩
    simp only [Cluster.voters, hn] at hr ⊢
    exact hL i hr
  · rintro c i inp o ⟨hE, hL⟩ hW hdel ho
    exact ⟨hE.after hdel ho, hL.after hE hW hdel ho⟩

/-- Votes are never forgotten along a run. -/
lemma votes_subset_of_run {P : Node n Cmd Snap → Input n Cmd Snap → Prop} (h : Run P .init c)
    (h' : Run P c d) (v : Fin n) : (c.nodes v).votes ⊆ (d.nodes v).votes := by
  suffices hd : Elections d ∧ ∀ v, (c.nodes v).votes ⊆ (d.nodes v).votes from hd.2 v
  refine Run.induct (I := fun d => Elections d ∧ ∀ v, (c.nodes v).votes ⊆ (d.nodes v).votes) h'
    ⟨Elections.of_run h, fun _ => List.Subset.refl _⟩ ?_ ?_
  · rintro d e ⟨hE, hv⟩ hn hnet
    exact ⟨hE.lose hn hnet, fun v => by rw [hn]; exact hv v⟩
  · rintro d i inp o ⟨hE, hv⟩ - hdel ho
    exact ⟨hE.after hdel ho, fun v => List.Subset.trans (hv v) (hE.votes_subset ho v)⟩

/-- The condition under which elections are safe. -/
def ElectionFresh (nd : Node n Cmd Snap) (inp : Input n Cmd Snap) : Prop :=
  VoteFresh nd inp ∧ TermFresh nd inp ∧ WinFresh nd inp

instance (nd : Node n Cmd Snap) (inp : Input n Cmd Snap) : Decidable (ElectionFresh nd inp) :=
  inferInstanceAs (Decidable (_ ∧ _ ∧ _))

omit [DecidableEq Cmd] [DecidableEq Snap] in
/-- Two servers with a majority of the votes of one term are the same server. -/
lemma eq_of_quorums (hn : Odd n) (hone : ∀ v, (c.nodes v).stance.OneVote) {T : ℕ} {s s' : Fin n}
    (hs : quorumSize n ≤ (c.voters T s).card) (hs' : quorumSize n ≤ (c.voters T s').card) :
    s = s' := by
  obtain ⟨v, hv, hv'⟩ := (majority n).inter _ (mem_majority hn hs) _ (mem_majority hn hs')
  simp only [Cluster.voters, Finset.mem_filter, Finset.mem_univ, true_and] at hv hv'
  exact (hone v).unique T s s' hv hv'

/-- **One leader per term.** For an odd number of servers, and when votes, terms and wins are
fresh, two servers that lead one term, at whatever two moments of the run, are the same.

**Proof sketch.** A leader has the votes of a majority in its term, and votes stay. Two majorities
of an odd number of servers have a common member, which has one vote in the term. -/
theorem one_leader_per_term (hn : Odd n)
    (h : Run (fun nd inp => ElectionFresh nd inp) Cluster.init c)
    (h' : Run (fun nd inp => ElectionFresh nd inp) c d) {T : ℕ} {s s' : Fin n}
    (hs : (c.nodes s).rf.role = .leader ∧ (c.nodes s).rf.currentTerm = T)
    (hs' : (d.nodes s').rf.role = .leader ∧ (d.nodes s').rf.currentTerm = T) : s = s' := by
  obtain ⟨hrole, rfl⟩ := hs
  obtain ⟨hrole', hterm⟩ := hs'
  have hq := leadersElected_of_run (h.mono fun _ _ hP => hP.2.2) s hrole
  have hq' := leadersElected_of_run ((h.trans h').mono fun _ _ hP => hP.2.2) s' hrole'
  rw [hterm] at hq'
  have hsub := voters_mono (votes_subset_of_run h h') (c.nodes s).rf.currentTerm s
  have hone := oneVote_of_run ((h.trans h').mono fun _ _ hP => ⟨hP.1, hP.2.1⟩)
  exact eq_of_quorums hn hone (hq.trans (Finset.card_le_card hsub)) hq'

end OneLeader

/-- Server 0 leads term 1 after its first vote, and so it does after its first
`AppendEntries`. -/
theorem one_leader_per_term_first : ∃ c d : Cluster 3 ℕ ℕ,
    Run (fun nd inp => ElectionFresh nd inp) .init c ∧
    Run (fun nd inp => ElectionFresh nd inp) c d ∧
    (c.nodes 0).rf.role = .leader ∧ (c.nodes 0).rf.currentTerm = 1 ∧
    ∀ s, (d.nodes s).rf.role = .leader → (d.nodes s).rf.currentTerm = 1 → 0 = s := by
  obtain ⟨c, hc, ⟨hrole, hterm⟩, hsome⟩ : ∃ c : Cluster 3 ℕ ℕ,
      Run (fun nd inp => ElectionFresh nd inp) .init c ∧
      ((c.nodes 0).rf.role = .leader ∧ (c.nodes 0).rf.currentTerm = 1) ∧
      ((c.stepsIf ElectionFresh [.act 0 (.beat 1), .act 0 (.sendAppend 1), .recv 0 0]).isSome
        = true) :=
    Run.exists_of_stepsIf (splitVote.take 8) (by decide +kernel)
  obtain ⟨d, hd⟩ := Option.isSome_iff_exists.mp hsome
  have hrun := Run.of_stepsIf hd
  exact ⟨c, d, hc, hrun, hrole, hterm,
    fun s hs ht => one_leader_per_term ⟨1, rfl⟩ hc hrun ⟨hrole, hterm⟩ ⟨hs, ht⟩⟩

/-- Without the condition two servers lead one term at the same time. -/
theorem two_leaders_in_one_term : ∃ c : Cluster 3 ℕ ℕ, Cluster.init.steps splitVote = some c ∧
    (c.nodes 0).rf.role = .leader ∧ (c.nodes 0).rf.currentTerm = 1 ∧
    (c.nodes 1).rf.role = .leader ∧ (c.nodes 1).rf.currentTerm = 1 :=
  Cluster.exists_of_steps splitVote (by decide +kernel)

end Mit6824
