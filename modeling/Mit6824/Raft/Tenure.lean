import Mathlib.Order.Bounds.Basic
import Mit6824.Transition.Basic
import Mit6824.Raft.Roots
import Mit6824.Raft.Terms

set_option autoImplicit false

/-!
# The commit rule of a leader

A leader that gets a `Success` reply looks for an entry of its term with enough replicas, from the
last entry of the request down, and stops at its commit index or at an entry of an older term
(`doAppendEntriesRPC` in `raft/raft.go`). So it does not look at the entries behind the request,
and `matchIndexs` may have moved back meanwhile. Here it is shown that in a whole tenure the rule
finds what it should: after every such reply the commit index is the largest index of an entry of
the term that enough servers are known to have, or has been that far already.

## Main definitions

* `Mit6824.Raft.Replicated` — enough servers are known to have this entry of the present term.
* `Mit6824.Raft.Leading` — what holds throughout a tenure.
* `Mit6824.Tenure`, `Mit6824.Tenure.step` — a leader with the requests it has sent, and what may
  happen to it.

## Main results

* `Mit6824.Raft.Leading.commitScan_exact` — what the search finds.
* `Mit6824.leader_commit_exact`.
-/

namespace Mit6824

variable {n : ℕ} {Cmd Snap : Type}

namespace Raft

/-- The leader and the other servers whose `matchIndexs` reach `N`. -/
def holders (me : Fin n) (l : Leader n) (N : ℕ) : ℕ :=
  1 + (Finset.univ.filter fun j => j ≠ me ∧ N ≤ l.matchIndexs j).card

/-- The entry at index `N` is of the present term, and enough servers are known to have it. -/
def Replicated (rf : Raft n Cmd Snap) (N : ℕ) : Prop :=
  (∃ e, rf.logAt N = some e ∧ e.logTerm = rf.currentTerm) ∧
    ∃ l, rf.leaderPtr = some l ∧ quorumSize n ≤ holders rf.me l N

/-- A leader in its tenure: the log has its root and is in order, the commit index is between the
snapshot and the last entry, no match index is behind the log, and every entry with enough replicas
is committed. -/
structure Leading (rf : Raft n Cmd Snap) : Prop where
  rooted : rf.Rooted
  order : rf.InOrder
  low : rf.lastIncludedIndex ≤ rf.commitIndex
  high : rf.commitIndex ≤ rf.lastIndex
  peers : ∃ l, rf.leaderPtr = some l ∧ ∀ j, l.matchIndexs j ≤ rf.lastIndex
  committed : ∀ N, rf.Replicated N → N ≤ rf.commitIndex

/-! ## Counting -/

section Counting

variable {me : Fin n} {l : Leader n}

/-- Nobody else has an entry that is above all match indexes. -/
lemma holders_of_lt {N : ℕ} (h : ∀ j, l.matchIndexs j < N) : holders me l N = 1 := by
  unfold holders
  rw [Finset.filter_false_of_mem]
  · rfl
  · rintro j - ⟨-, hj⟩
    exact absurd hj (not_le.mpr (h j))

/-- A new match index below `N` brings no replica of entry `N`. -/
lemma holders_setPeer_le {peer : Fin n} {next m N : ℕ} (hm : m < N) :
    holders me (setPeer l peer next m) N ≤ holders me l N := by
  refine Nat.add_le_add_left (Finset.card_le_card fun j hj => ?_) 1
  simp only [Finset.mem_filter, Finset.mem_univ, true_and] at hj ⊢
  obtain ⟨hne, hle⟩ := hj
  by_cases hp : j = peer
  · subst hp
    simp only [setPeer, Function.update_self] at hle
    omega
  · simp only [setPeer, Function.update_of_ne hp] at hle
    exact ⟨hne, hle⟩

/-- What the commit rule counts, for an entry that the request has brought. -/
lemma replicaCount_eq_holders (rf : Raft n Cmd Snap) {peer : Fin n} (hpeer : peer ≠ rf.me)
    {next last N : ℕ} (hN : N ≤ last) :
    rf.replicaCount (setPeer l peer next last) peer N =
      holders rf.me (setPeer l peer next last) N := by
  have hset : (Finset.univ.filter fun j => j ≠ rf.me ∧
      N ≤ (setPeer l peer next last).matchIndexs j) =
      insert peer (Finset.univ.filter fun j => j ≠ peer ∧ j ≠ rf.me ∧
        N ≤ (setPeer l peer next last).matchIndexs j) := by
    ext j
    simp only [Finset.mem_filter, Finset.mem_univ, true_and, Finset.mem_insert]
    by_cases hj : j = peer
    · subst hj
      simp [setPeer, hpeer, hN]
    · simp [hj]
  unfold replicaCount holders
  rw [hset, Finset.card_insert_of_notMem (by simp)]
  omega

end Counting

/-! ## The log -/

section Log

variable {rf rf' : Raft n Cmd Snap}

/-- The last index is that of the entry appended last. -/
lemma lastIndex_concat {logs : List (LogEntry Cmd)} {e : LogEntry Cmd}
    (hlogs : rf.logs = logs ++ [e]) : rf.lastIndex = e.logIndex := by
  simp [lastIndex, getLastLog, hlogs]

/-- The entries of a log with one more entry. -/
lemma logAt_concat (h : rf.Rooted) {e : LogEntry Cmd} (hlogs : rf'.logs = rf.logs ++ [e])
    (hbase : rf'.lastIncludedIndex = rf.lastIncludedIndex) {i : ℕ} {a : LogEntry Cmd}
    (ha : rf'.logAt i = some a) : rf.logAt i = some a ∨ i = rf.lastIndex + 1 := by
  obtain ⟨hlow, hget⟩ := logAt_eq_some_iff.mp ha
  rw [hlogs, hbase] at hget
  have hlast := h.lastIndex_succ
  rcases Nat.lt_or_ge (i - rf.lastIncludedIndex) rf.logs.length with hlt | hge
  · rw [List.getElem?_append_left hlt] at hget
    exact Or.inl (logAt_eq_some_iff.mpr ⟨hbase ▸ hlow, hget⟩)
  · have hbound := (List.getElem?_eq_some_iff.mp hget).1
    simp only [List.length_append, List.length_singleton] at hbound
    exact Or.inr (by omega)

/-- Compaction leaves the last index. -/
lemma lastIndex_compact (h : rf.Rooted) (h' : rf'.Rooted) {k : ℕ} (hlt : rf.lastIncludedIndex < k)
    (hk : k ≤ rf.lastIndex)
    (hlogs : rf'.logs = dropCommand (rf.logs.drop (k - rf.lastIncludedIndex)))
    (hbase : rf'.lastIncludedIndex = k) : rf'.lastIndex = rf.lastIndex := by
  have hmap := congrArg List.length (map_logIndex_dropCommand
    (rf.logs.drop (k - rf.lastIncludedIndex)))
  rw [← hlogs, List.length_map, List.length_map, List.length_drop] at hmap
  have h1 := h.lastIndex_succ
  have h2 := h'.lastIndex_succ
  omega

/-- The entries above a snapshot have the terms they had before. -/
lemma logAt_compact {k : ℕ} (hlow : rf.lastIncludedIndex < k)
    (hlogs : rf'.logs = dropCommand (rf.logs.drop (k - rf.lastIncludedIndex)))
    (hbase : rf'.lastIncludedIndex = k) {i : ℕ} {a : LogEntry Cmd} (ha : rf'.logAt i = some a) :
    ∃ b, rf.logAt i = some b ∧ b.logTerm = a.logTerm := by
  obtain ⟨hi, hget⟩ := logAt_eq_some_iff.mp ha
  rw [hbase] at hi hget
  have hterms : (rf'.logs.map LogEntry.logTerm) =
      (rf.logs.drop (k - rf.lastIncludedIndex)).map LogEntry.logTerm := by
    rw [hlogs]
    cases rf.logs.drop (k - rf.lastIncludedIndex) <;> rfl
  have hterm : (rf'.logs.map LogEntry.logTerm)[i - k]? = some a.logTerm := by simp [hget]
  rw [hterms, List.getElem?_map, List.getElem?_drop, Option.map_eq_some_iff] at hterm
  obtain ⟨b, hb, hterm⟩ := hterm
  refine ⟨b, logAt_eq_some_iff.mpr ⟨by omega, ?_⟩, hterm⟩
  rw [← hb]
  congr 1
  omega

end Log

/-! ## Changes of a leader -/

namespace Leading

variable {rf rf' : Raft n Cmd Snap}

/-- Other match indexes, as long as every entry they complete has been committed. -/
lemma of_peers (h : rf.Leading) {l : Leader n} (hmatch : ∀ j, l.matchIndexs j ≤ rf.lastIndex)
    (hcommitted : ∀ N, ({ rf with leaderPtr := some l } : Raft n Cmd Snap).Replicated N →
      N ≤ rf.commitIndex) :
    ({ rf with leaderPtr := some l } : Raft n Cmd Snap).Leading :=
  ⟨h.rooted.congr rfl rfl rfl, ⟨h.order.logs, h.order.snap⟩, h.low, h.high, ⟨l, rfl, hmatch⟩,
    hcommitted⟩

/-- One more entry of the present term: nobody else has it yet.

**Proof sketch.** An index that is replicated now was replicated before, unless it is that of the
new entry; but only the leader has this entry, and one of three or more servers is no quorum. -/
lemma concat (hn : 3 ≤ n) (h : rf.Leading) {e : LogEntry Cmd} (hlogs : rf'.logs = rf.logs ++ [e])
    (hidx : e.logIndex = rf.lastIndex + 1)
    (hbase : rf'.lastIncludedIndex = rf.lastIncludedIndex) (hme : rf'.me = rf.me)
    (hterm : rf'.currentTerm = rf.currentTerm) (hcommit : rf'.commitIndex = rf.commitIndex)
    (hptr : rf'.leaderPtr = rf.leaderPtr) (hroot : rf'.Rooted) (horder : rf'.InOrder) :
    rf'.Leading := by
  have hlow := h.low
  have hhigh := h.high
  have hlast : rf'.lastIndex = rf.lastIndex + 1 := (lastIndex_concat hlogs).trans hidx
  obtain ⟨l, hl, hmatch⟩ := h.peers
  refine ⟨hroot, horder, by omega, by omega, ⟨l, hptr.trans hl, fun j => ?_⟩, ?_⟩
  · have := hmatch j
    omega
  · rintro N ⟨⟨a, ha, hta⟩, l', hl', hquorum⟩
    rw [hptr] at hl'
    rw [hme] at hquorum
    rw [hcommit]
    rcases logAt_concat h.rooted hlogs hbase ha with hold | hnew
    · exact h.committed N ⟨⟨a, hold, hta.trans hterm⟩, l', hl', hquorum⟩
    · obtain rfl : l = l' := Option.some.inj (hl.symm.trans hl')
      rw [holders_of_lt fun j => by have := hmatch j; omega, quorumSize] at hquorum
      omega

/-- `Start` keeps the leader's records in order. -/
lemma start (hn : 3 ≤ n) (h : rf.Leading) (command : Cmd) : (rf.start command).state.Leading := by
  have hroot := h.rooted.grown (.start rf command)
  have horder := h.order.start command
  obtain ⟨last, hlast, hidx⟩ := h.rooted.getLastLog
  obtain ⟨-, heq⟩ | ⟨-, heq⟩ | ⟨last', hlast', heq⟩ := start_cases rf command <;>
    rw [heq] at hroot horder ⊢
  · exact h
  · exact h
  · obtain rfl : last = last' := Option.some.inj (hlast.symm.trans hlast')
    exact h.concat hn rfl (congrArg (· + 1) hidx) rfl rfl rfl rfl rfl hroot horder

/-- The start of a tenure: only index 0 is known to be on the other servers.

**Proof sketch.** The entry that is appended is the last one, so all is within the log. All match
indexes are 0, so that no index above 0 is held by a majority of three or more servers. -/
lemma of_becomeLeader (hn : 3 ≤ n) (hroot : rf.Rooted) (horder : rf.InOrder)
    (hlow : rf.lastIncludedIndex ≤ rf.commitIndex) (hhigh : rf.commitIndex ≤ rf.lastIndex)
    (h : rf.becomeLeader = .ok rf' ()) : rf'.Leading := by
  have hroot' := hroot.grown (.becomeLeader rf)
  have horder' := horder.becomeLeader
  obtain ⟨last, hlast, hidx⟩ := hroot.getLastLog
  obtain ⟨-, heq⟩ | ⟨last', hlast', heq⟩ := becomeLeader_cases rf
  · cases heq.symm.trans h
  · rw [heq] at hroot' horder'
    cases heq.symm.trans h
    obtain rfl : last = last' := Option.some.inj (hlast.symm.trans hlast')
    refine ⟨hroot', horder', hlow, ?_, ⟨_, rfl, fun _ => Nat.zero_le _⟩, ?_⟩
    · rw [lastIndex_concat rfl]
      show rf.commitIndex ≤ last.logIndex + 1
      omega
    · rintro N ⟨-, l, hl, hquorum⟩
      obtain rfl := Option.some.inj hl
      rcases Nat.eq_zero_or_pos N with rfl | hpos
      · exact Nat.zero_le _
      · rw [holders_of_lt fun _ => hpos, quorumSize] at hquorum
        omega

/-- Compaction of committed entries. -/
lemma compact (h : rf.Leading) {k : ℕ} (hlt : rf.lastIncludedIndex < k) (hk : k ≤ rf.commitIndex)
    (hlogs : rf'.logs = dropCommand (rf.logs.drop (k - rf.lastIncludedIndex)))
    (hbase : rf'.lastIncludedIndex = k) (hme : rf'.me = rf.me)
    (hterm : rf'.currentTerm = rf.currentTerm) (hcommit : rf'.commitIndex = rf.commitIndex)
    (hptr : rf'.leaderPtr = rf.leaderPtr) (hroot : rf'.Rooted) (horder : rf'.InOrder) :
    rf'.Leading := by
  have hhigh := h.high
  have hlast : rf'.lastIndex = rf.lastIndex :=
    lastIndex_compact h.rooted hroot hlt (hk.trans hhigh) hlogs hbase
  obtain ⟨l, hl, hmatch⟩ := h.peers
  refine ⟨hroot, horder, by omega, by omega, ⟨l, hptr.trans hl, by rwa [hlast]⟩, ?_⟩
  rintro N ⟨⟨a, ha, hta⟩, l', hl', hquorum⟩
  rw [hptr] at hl'
  rw [hme] at hquorum
  rw [hcommit]
  obtain ⟨b, hb, htb⟩ := logAt_compact hlt hlogs hbase ha
  exact h.committed N ⟨⟨b, hb, htb.trans (hta.trans hterm)⟩, l', hl', hquorum⟩

/-- Compacting up to the commit index keeps the leader's records in order. -/
lemma takeSnapshot (h : rf.Leading) (snapshot : Option Snap) {k : ℕ} (hk : k ≤ rf.commitIndex) :
    (rf.takeSnapshot snapshot k).state.Leading := by
  have hroot := h.rooted.takeSnapshot snapshot k
  have horder := h.order.takeSnapshot snapshot k
  obtain ⟨-, heq⟩ | ⟨-, -, heq⟩ | ⟨e, hlt, he, heq⟩ := takeSnapshot_cases rf snapshot k <;>
    rw [heq] at hroot horder ⊢
  · exact h
  · exact h
  · exact h.compact hlt hk rfl rfl rfl rfl rfl rfl hroot horder

/-! ## Replies -/

/-- A new match index completes entries up to that index only. -/
lemma le_of_replicated_setPeer (h : rf.Leading) {l : Leader n} (hl : rf.leaderPtr = some l)
    {peer : Fin n} {next m N : ℕ}
    (hN : ({ rf with leaderPtr := some (setPeer l peer next m) } : Raft n Cmd Snap).Replicated N)
    (hm : m < N) : N ≤ rf.commitIndex := by
  obtain ⟨hentry, l', hl', hquorum⟩ := hN
  obtain rfl := Option.some.inj hl'
  exact h.committed N ⟨hentry, l, hl, hquorum.trans (holders_setPeer_le hm)⟩

/-- Recorded indexes stay below a bound if the new one is. -/
lemma matchIndexs_setPeer_le {l : Leader n} {b : ℕ} (h : ∀ j, l.matchIndexs j ≤ b) {peer : Fin n}
    {next m : ℕ} (hm : m ≤ b) (j : Fin n) : (setPeer l peer next m).matchIndexs j ≤ b := by
  by_cases hj : j = peer
  · subst hj
    simpa [setPeer] using hm
  · simpa [setPeer, Function.update_of_ne hj] using h j

/-- The reply to a snapshot, which has nothing behind the commit index.

**Proof sketch.** The recorded index is that of a snapshot, which the leader has committed. So an
index behind it has no new holder. -/
lemma installReply (h : rf.Leading) (peer : Fin n) {args : InstallSnapshotArgs n Snap}
    {reply : InstallSnapshotReply} (hargs : args.lastIncludedIndex ≤ rf.lastIncludedIndex)
    (hterm : reply.term ≤ rf.currentTerm) : (rf.installReply peer args reply).state.Leading := by
  have hlow := h.low
  have hhigh := h.high
  obtain ⟨l, hl, hmatch⟩ := h.peers
  have hspec := installReply_spec rf peer args reply
  generalize rf.installReply peer args reply = o at hspec
  cases hspec with
  | stale => exact h
  | follow _ hlt => omega
  | noLeader => exact h
  | record _ _ l' hl' =>
    obtain rfl : l = l' := Option.some.inj (hl.symm.trans hl')
    refine h.of_peers (matchIndexs_setPeer_le hmatch (by omega)) fun N hN => ?_
    rcases Nat.lt_or_ge args.lastIncludedIndex N with hlt | hge
    · exact h.le_of_replicated_setPeer hl hN hlt
    · omega

/-- A conflict moves the next index only. -/
lemma appendConflict (h : rf.Leading) (peer : Fin n) (reply : AppendEntriesReply) :
    (rf.appendConflict peer reply).state.Leading := by
  obtain ⟨l, hl, hmatch⟩ := h.peers
  obtain ⟨l', next, hl', heq⟩ | ⟨-, heq⟩ | heq := appendConflict_cases rf peer reply <;> rw [heq]
  · obtain rfl : l = l' := Option.some.inj (hl.symm.trans hl')
    have hsame : (setPeer l peer next (l.matchIndexs peer)).matchIndexs = l.matchIndexs := by
      simp [setPeer]
    refine h.of_peers (fun j => by rw [hsame]; exact hmatch j) fun N hN => ?_
    obtain ⟨hentry, l', hl', hquorum⟩ := hN
    obtain rfl := Option.some.inj hl'
    rw [holders, hsame] at hquorum
    exact h.committed N ⟨hentry, l, hl, hquorum⟩
  · exact h
  · exact h

end Leading

/-! ## The search -/

/-- The commit rule takes the entry at index `i`. -/
def Passes (rf : Raft n Cmd Snap) (l : Leader n) (peer : Fin n) (i : ℕ) : Prop :=
  (∃ e, rf.logAt i = some e ∧ e.logTerm = rf.currentTerm) ∧ quorumSize n ≤ rf.replicaCount l peer i

/-- **What the search finds**: the last entry above the commit index and up to `k` that passes.

**Proof sketch.** Induction on `k`. An entry of an older term ends the search; as the terms
ascend, no entry below it passes. -/
lemma commitScan_exact {rf : Raft n Cmd Snap} (h : rf.Rooted) (horder : rf.InOrder)
    (hlow : rf.lastIncludedIndex ≤ rf.commitIndex) (l : Leader n) (peer : Fin n) :
    ∀ k, k ≤ rf.lastIndex →
      (rf.commitScan l peer k = .ok rf () ∧
        ∀ i, rf.commitIndex < i → i ≤ k → ¬ rf.Passes l peer i) ∨
      ∃ i, rf.commitIndex < i ∧ i ≤ k ∧ rf.Passes l peer i ∧
        (∀ j, i < j → j ≤ k → ¬ rf.Passes l peer j) ∧
        rf.commitScan l peer k = rf.commitUpTo i := by
  intro k
  induction k with
  | zero =>
    intro _
    exact Or.inl ⟨rfl, fun i hi hi' => by omega⟩
  | succ k ih =>
    intro hk
    rw [commitScan]
    by_cases hlt : rf.commitIndex < k + 1
    · obtain ⟨e, he⟩ := h.exists_logAt (i := k + 1) (by omega) hk
      rw [if_pos hlt, he]
      dsimp only
      split_ifs with hterm hcount
      · exact Or.inr ⟨k + 1, hlt, le_rfl, ⟨⟨e, he, hterm⟩, hcount⟩, fun j hj hj' => by omega, rfl⟩
      · -- the entry has too few replicas, so the search goes on below it
        have hnot : ¬ rf.Passes l peer (k + 1) := fun hp => hcount hp.2
        rcases ih (by omega) with ⟨heq, hnone⟩ | ⟨i, hi, hik, hp, hnone, heq⟩
        · refine Or.inl ⟨heq, fun i hi hik => ?_⟩
          rcases Nat.lt_or_ge k i with hki | hki
          · obtain rfl : i = k + 1 := by omega
            exact hnot
          · exact hnone i hi hki
        · refine Or.inr ⟨i, hi, by omega, hp, fun j hj hjk => ?_, heq⟩
          rcases Nat.lt_or_ge k j with hkj | hkj
          · obtain rfl : j = k + 1 := by omega
            exact hnot
          · exact hnone j hj hkj
      · refine Or.inl ⟨rfl, fun i _ hik hp => ?_⟩
        obtain ⟨⟨a, ha, hta⟩, -⟩ := hp
        have hle : a.logTerm ≤ e.logTerm := Ascending.logTerm_le horder.logs.sorted hik ha he
        have hbound : e.logTerm ≤ rf.currentTerm := horder.logs.le _
          (List.mem_map_of_mem (List.mem_of_getElem? (logAt_eq_some_iff.mp he).2))
        omega
    · rw [if_neg hlt]
      exact Or.inl ⟨rfl, fun i hi hik => by omega⟩

/-- The leader after it has recorded that `peer` has the entries up to `last`. -/
def record (rf : Raft n Cmd Snap) (l : Leader n) (peer : Fin n) (last : ℕ) : Raft n Cmd Snap :=
  { rf with leaderPtr := some (setPeer l peer (last + 1) last) }

/-- A success reply that goes beyond the commit index starts the commit rule. -/
lemma appendSuccess_eq {rf : Raft n Cmd Snap} {l : Leader n} (hl : rf.leaderPtr = some l)
    (peer : Fin n) (last : ℕ) : rf.appendSuccess peer last =
      if rf.commitIndex < last then
        (rf.record l peer last).commitScan (setPeer l peer (last + 1) last) peer last
      else .ok (rf.record l peer last) () := by
  rw [appendSuccess, hl]
  rfl

/-- For the entries of the request the rule counts what it should. -/
lemma passes_of_replicated {rf : Raft n Cmd Snap} {l : Leader n} {peer : Fin n}
    (hpeer : peer ≠ rf.me) {last N : ℕ} (hN : N ≤ last)
    (h : (rf.record l peer last).Replicated N) :
    (rf.record l peer last).Passes (setPeer l peer (last + 1) last) peer N := by
  obtain ⟨hentry, l', hl', hquorum⟩ := h
  obtain rfl := Option.some.inj hl'
  exact ⟨hentry, hquorum.trans_eq (replicaCount_eq_holders _ hpeer hN).symm⟩

/-- An index that passes the test of the commit rule is on a majority. -/
lemma replicated_of_passes {rf : Raft n Cmd Snap} {l : Leader n} {peer : Fin n}
    (hpeer : peer ≠ rf.me) {last N : ℕ} (hN : N ≤ last)
    (h : (rf.record l peer last).Passes (setPeer l peer (last + 1) last) peer N) :
    (rf.record l peer last).Replicated N :=
  ⟨h.1, _, rfl, h.2.trans_eq (replicaCount_eq_holders _ hpeer hN)⟩

/-- The commit index of `rf'` is the larger one of its value in `rf` and of the largest index with
enough replicas, and the entries in between have been sent. -/
structure CommitsExactly (rf rf' : Raft n Cmd Snap) : Prop where
  greatest : IsGreatest (insert rf.commitIndex {N | rf'.Replicated N}) rf'.commitIndex
  sent : rf'.applyChan = rf.applyChan ++ rf.applyMsgs rf.commitIndex rf'.commitIndex

namespace Leading

variable {rf : Raft n Cmd Snap} {l : Leader n} {peer : Fin n} {last : ℕ}

/-- The reply completes no entry behind the commit index. -/
lemma record_of_le (h : rf.Leading) (hmatch : ∀ j, l.matchIndexs j ≤ rf.lastIndex)
    (hlast : last ≤ rf.lastIndex)
    (hle : ∀ N, (rf.record l peer last).Replicated N → N ≤ rf.commitIndex) :
    (rf.record l peer last).Leading ∧ rf.CommitsExactly (rf.record l peer last) := by
  refine ⟨h.of_peers (matchIndexs_setPeer_le hmatch hlast) hle, ⟨Or.inl rfl, ?_⟩, ?_⟩
  · rintro N (rfl | hN)
    · exact le_rfl
    · exact hle N hN
  · simp [record, applyMsgs]

/-- The reply completes the entry at index `i` and none behind it. -/
lemma record_of_lt (h : rf.Leading) (hmatch : ∀ j, l.matchIndexs j ≤ rf.lastIndex)
    (hlast : last ≤ rf.lastIndex) {i : ℕ} (hi : rf.commitIndex < i) (hilast : i ≤ last)
    (hreplicated : (rf.record l peer last).Replicated i)
    (hle : ∀ N, (rf.record l peer last).Replicated N → N ≤ i) :
    ∃ rf', (rf.record l peer last).commitUpTo i = .ok rf' () ∧ rf'.Leading ∧
      rf.CommitsExactly rf' := by
  have hlow := h.low
  have hroot : (rf.record l peer last).Rooted := h.rooted.congr rfl rfl rfl
  refine ⟨_, hroot.commitUpTo_ok hlow hi.le (hilast.trans hlast), ?_, ⟨?_, ?_⟩, rfl⟩
  · exact ⟨hroot.congr rfl rfl rfl, ⟨h.order.logs, h.order.snap⟩, hlow.trans hi.le,
      hilast.trans hlast, ⟨_, rfl, matchIndexs_setPeer_le hmatch hlast⟩, hle⟩
  · exact Or.inr hreplicated
  · rintro N (rfl | hN)
    · exact hi.le
    · exact hle N hN

/-- **A success reply** to a request with entries up to index `last`.

**Proof sketch.** The new match index can complete entries up to `last` only, and for those the
rule counts what `Replicated` counts. So the entries behind `last` with enough replicas had them
before and are committed, and of the others the search finds the last one. -/
lemma appendSuccess (h : rf.Leading) (hpeer : peer ≠ rf.me) (hlast : last ≤ rf.lastIndex) :
    ∃ rf', rf.appendSuccess peer last = .ok rf' () ∧ rf'.Leading ∧ rf.CommitsExactly rf' := by
  obtain ⟨l, hl, hmatch⟩ := h.peers
  have habove : ∀ N, (rf.record l peer last).Replicated N → last < N → N ≤ rf.commitIndex :=
    fun N hN => h.le_of_replicated_setPeer hl hN
  rw [appendSuccess_eq hl]
  split_ifs with hlt
  · have hroot : (rf.record l peer last).Rooted := h.rooted.congr rfl rfl rfl
    have horder : (rf.record l peer last).InOrder := ⟨h.order.logs, h.order.snap⟩
    rcases commitScan_exact hroot horder h.low _ peer last hlast with
      ⟨heq, hnone⟩ | ⟨i, hi, hilast, hp, hnone, heq⟩
    · refine ⟨_, heq, h.record_of_le hmatch hlast fun N hN => ?_⟩
      by_contra hgt
      rcases Nat.lt_or_ge last N with hN' | hN'
      · exact hgt (habove N hN hN')
      · exact hnone N (not_le.mp hgt) hN' (passes_of_replicated hpeer hN' hN)
    · rw [heq]
      refine h.record_of_lt hmatch hlast hi hilast (replicated_of_passes hpeer hilast hp)
        fun N hN => ?_
      by_contra hgt
      rcases Nat.lt_or_ge last N with hN' | hN'
      · exact hgt ((habove N hN hN').trans hi.le)
      · exact hnone N (not_le.mp hgt) hN' (passes_of_replicated hpeer hN' hN)
  · refine ⟨_, rfl, h.record_of_le hmatch hlast fun N hN => ?_⟩
    rcases Nat.lt_or_ge last N with hN' | hN'
    · exact habove N hN hN'
    · omega

/-- A reply within the term to a request whose entries are in the log. -/
lemma appendReply (h : rf.Leading) (hpeer : peer ≠ rf.me) {args : AppendEntriesArgs n Cmd}
    {reply : AppendEntriesReply} (hlast : ∀ e ∈ args.entries.getLast?, e.logIndex ≤ rf.lastIndex)
    (hreply : reply.success = false → reply.followerTerm ≤ args.leaderTerm) :
    (rf.appendReply peer args reply).state.Leading := by
  have hspec := appendReply_spec rf peer args reply
  generalize rf.appendReply peer args reply = o at hspec
  cases hspec with
  | keep => exact h
  | noLeader => exact h
  | empty => exact h
  | success _ _ e he =>
    obtain ⟨rf', heq, hlead, -⟩ := h.appendSuccess hpeer (hlast e he)
    rw [heq]
    exact hlead
  | follow hs hlt => exact absurd (hreply hs) (not_le.mpr hlt)
  | conflict => exact h.appendConflict _ _

end Leading

end Raft

/-! ## Tenures -/

/-- A leader and the requests it has sent to its peers. -/
structure Tenure (n : ℕ) (Cmd Snap : Type) where
  rf : Raft n Cmd Snap
  appends : List (Fin n × AppendEntriesArgs n Cmd)
  installs : List (Fin n × InstallSnapshotArgs n Snap)

/-- What may happen in a tenure; a reply is to the request at position `k`. -/
inductive Tenure.Act (n : ℕ) (Cmd Snap : Type)
  | start (command : Cmd)
  | takeSnapshot (snapshot : Option Snap) (lastIncludedIndex : ℕ)
  | sendAppend (peer : Fin n)
  | sendInstall (peer : Fin n)
  | appendReply (k : ℕ) (reply : AppendEntriesReply)
  | installReply (k : ℕ) (reply : InstallSnapshotReply)

namespace Tenure

/-- One step of a tenure. The service takes snapshots of what has been committed, and the replies
are within the term; a request may be answered many times or never. -/
def step (t : Tenure n Cmd Snap) : Act n Cmd Snap → Option (Tenure n Cmd Snap)
  | .start command => some { t with rf := (t.rf.start command).state }
  | .takeSnapshot snapshot index =>
    if index ≤ t.rf.commitIndex then
      some { t with rf := (t.rf.takeSnapshot snapshot index).state }
    else none
  | .sendAppend peer =>
    if peer = t.rf.me then none
    else match t.rf.buildAppend peer with
      | .ok _ (some args) => some { t with appends := t.appends ++ [(peer, args)] }
      | .ok _ none => some t
      | .panic _ _ => none
  | .sendInstall peer =>
    if peer = t.rf.me then none
    else some { t with installs := t.installs ++ [(peer, t.rf.buildInstall)] }
  | .appendReply k reply =>
    match t.appends[k]? with
    | none => none
    | some (peer, args) =>
      if reply.success = false ∧ args.leaderTerm < reply.followerTerm then none
      else some { t with rf := (t.rf.appendReply peer args reply).state }
  | .installReply k reply =>
    match t.installs[k]? with
    | none => none
    | some (peer, args) =>
      if t.rf.currentTerm < reply.term then none
      else some { t with rf := (t.rf.installReply peer args reply).state }

/-- What a tenure does not take back: the server and its term stay, and neither the log nor the
snapshot gets shorter. -/
structure Onward (rf rf' : Raft n Cmd Snap) : Prop where
  me : rf'.me = rf.me
  term : rf'.currentTerm = rf.currentTerm
  last : rf.lastIndex ≤ rf'.lastIndex
  base : rf.lastIncludedIndex ≤ rf'.lastIncludedIndex

namespace Onward

variable {rf : Raft n Cmd Snap}

/-- Nothing has happened. -/
lemma refl (rf : Raft n Cmd Snap) : Onward rf rf := ⟨rfl, rfl, le_rfl, le_rfl⟩

/-- `Start` stays in the tenure. -/
lemma start (h : rf.Rooted) (command : Cmd) : Onward rf (rf.start command).state := by
  obtain ⟨last, hlast, hidx⟩ := h.getLastLog
  obtain ⟨-, heq⟩ | ⟨-, heq⟩ | ⟨last', hlast', heq⟩ := Raft.start_cases rf command <;> rw [heq]
  · exact refl rf
  · exact refl rf
  · obtain rfl : last = last' := Option.some.inj (hlast.symm.trans hlast')
    refine ⟨rfl, rfl, le_of_le_of_eq ?_ (Raft.lastIndex_concat rfl).symm, le_rfl⟩
    show rf.lastIndex ≤ last.logIndex + 1
    omega

/-- `TakeSnapshot` stays in the tenure. -/
lemma takeSnapshot (h : rf.Rooted) (snapshot : Option Snap) {k : ℕ} (hk : k ≤ rf.lastIndex) :
    Onward rf (rf.takeSnapshot snapshot k).state := by
  have hroot := h.takeSnapshot snapshot k
  obtain ⟨-, heq⟩ | ⟨-, -, heq⟩ | ⟨e, hlt, he, heq⟩ := Raft.takeSnapshot_cases rf snapshot k <;>
    rw [heq] at hroot ⊢
  · exact refl rf
  · exact refl rf
  · exact ⟨rfl, rfl, (Raft.lastIndex_compact h hroot hlt hk rfl rfl).ge, hlt.le⟩

/-- A reply that does not end the tenure stays in it. -/
lemma appendReply (rf : Raft n Cmd Snap) (peer : Fin n) {args : AppendEntriesArgs n Cmd}
    {reply : AppendEntriesReply}
    (hreply : ¬ (reply.success = false ∧ args.leaderTerm < reply.followerTerm)) :
    Onward rf (rf.appendReply peer args reply).state := by
  rcases Raft.appendReply_eq rf peer args reply with ⟨hs, hlt, -⟩ | ⟨-, l, ms, i, j, heq⟩
  · exact absurd ⟨hs, hlt⟩ hreply
  · rw [heq]
    exact ⟨rfl, rfl, le_rfl, le_rfl⟩

/-- A reply that does not end the tenure stays in it. -/
lemma installReply (rf : Raft n Cmd Snap) (peer : Fin n) (args : InstallSnapshotArgs n Snap)
    {reply : InstallSnapshotReply} (hreply : reply.term ≤ rf.currentTerm) :
    Onward rf (rf.installReply peer args reply).state := by
  have hspec := Raft.installReply_spec rf peer args reply
  generalize rf.installReply peer args reply = o at hspec
  cases hspec with
  | follow _ hlt => exact absurd hreply (not_le.mpr hlt)
  | stale => exact refl rf
  | noLeader => exact refl rf
  | record => exact ⟨rfl, rfl, le_rfl, le_rfl⟩

end Onward

/-- A request for entries of the leader's log, in its term. -/
def Asked (rf : Raft n Cmd Snap) (peer : Fin n) (args : AppendEntriesArgs n Cmd) : Prop :=
  peer ≠ rf.me ∧ args.leaderTerm = rf.currentTerm ∧
    ∀ e ∈ args.entries.getLast?, e.logIndex ≤ rf.lastIndex

/-- A request that has been sent may still be answered later in the tenure. -/
lemma Asked.onward {rf rf' : Raft n Cmd Snap} {peer : Fin n} {args : AppendEntriesArgs n Cmd}
    (h : Asked rf peer args) (hon : Onward rf rf') : Asked rf' peer args :=
  ⟨hon.me ▸ h.1, hon.term ▸ h.2.1, fun e he => (h.2.2 e he).trans hon.last⟩

/-- What the leader asks for is in its log. -/
lemma Asked.of_buildAppend {rf rf' : Raft n Cmd Snap} {peer : Fin n}
    {args : AppendEntriesArgs n Cmd} (hpeer : peer ≠ rf.me)
    (h : rf.buildAppend peer = .ok rf' (some args)) : Asked rf peer args := by
  obtain ⟨-, last, l, hlast, -, ⟨-, rfl⟩ | ⟨prev, -, -, -, rfl⟩⟩ := Raft.buildAppend_eq_some h
  · exact ⟨hpeer, rfl, fun e he => by simp at he⟩
  · refine ⟨hpeer, rfl, fun e he => ?_⟩
    rw [List.getLast?_drop] at he
    split_ifs at he with hlen
    · simp at he
    · have he' : rf.getLastLog = some e := he
      simp [Raft.lastIndex, he']

/-- What holds throughout a tenure. -/
structure Ok (t : Tenure n Cmd Snap) : Prop where
  leading : t.rf.Leading
  appends : ∀ p ∈ t.appends, Asked t.rf p.1 p.2
  installs : ∀ p ∈ t.installs, p.2.lastIncludedIndex ≤ t.rf.lastIncludedIndex

namespace Ok

variable {t t' : Tenure n Cmd Snap}

/-- What holds of a tenure holds after a step that stays in it. -/
lemma onward (h : t.Ok) {rf : Raft n Cmd Snap} (hlead : rf.Leading) (hon : Onward t.rf rf) :
    ({ t with rf := rf } : Tenure n Cmd Snap).Ok :=
  ⟨hlead, fun p hp => (h.appends p hp).onward hon,
    fun p hp => (h.installs p hp).trans hon.base⟩

/-- **One step of a tenure** keeps its invariant.

**Proof sketch.** By the action. `Start` and snapshots change the leader only; a request that is
sent ends within the log, and a reply is to a request that was sent. -/
lemma step (hn : 3 ≤ n) (h : t.Ok) {a : Act n Cmd Snap} (hstep : t.step a = some t') : t'.Ok := by
  have hroot := h.leading.rooted
  cases a with
  | start command =>
    obtain rfl := Option.some.inj hstep
    exact h.onward (h.leading.start hn command) (.start hroot command)
  | takeSnapshot snapshot k =>
    simp only [Tenure.step] at hstep
    split_ifs at hstep with hk
    obtain rfl := Option.some.inj hstep
    exact h.onward (h.leading.takeSnapshot snapshot hk)
      (.takeSnapshot hroot snapshot (hk.trans h.leading.high))
  | sendAppend peer =>
    simp only [Tenure.step] at hstep
    split_ifs at hstep with hpeer
    split at hstep
    · rename_i rf args hbuild
      obtain rfl := Option.some.inj hstep
      refine ⟨h.leading, fun p hp => ?_, h.installs⟩
      rcases List.mem_append.mp hp with hp | hp
      · exact h.appends p hp
      · obtain rfl := List.mem_singleton.mp hp
        exact .of_buildAppend hpeer hbuild
    · obtain rfl := Option.some.inj hstep
      exact h
    · cases hstep
  | sendInstall peer =>
    simp only [Tenure.step] at hstep
    split_ifs at hstep with hpeer
    obtain rfl := Option.some.inj hstep
    refine ⟨h.leading, h.appends, fun p hp => ?_⟩
    rcases List.mem_append.mp hp with hp | hp
    · exact h.installs p hp
    · obtain rfl := List.mem_singleton.mp hp
      exact le_rfl
  | appendReply k reply =>
    simp only [Tenure.step] at hstep
    split at hstep
    · cases hstep
    · rename_i peer args hk
      split_ifs at hstep with hreply
      obtain rfl := Option.some.inj hstep
      obtain ⟨hpeer, hterm, hlast⟩ := h.appends _ (List.mem_of_getElem? hk)
      refine h.onward (h.leading.appendReply hpeer hlast fun hs => ?_) (.appendReply _ peer hreply)
      exact not_lt.mp fun hlt => hreply ⟨hs, hlt⟩
  | installReply k reply =>
    simp only [Tenure.step] at hstep
    split at hstep
    · cases hstep
    · rename_i peer args hk
      split_ifs at hstep with hreply
      obtain rfl := Option.some.inj hstep
      exact h.onward (h.leading.installReply peer (h.installs _ (List.mem_of_getElem? hk))
        (not_lt.mp hreply)) (.installReply _ peer args (not_lt.mp hreply))

end Ok

end Tenure

/-- **The commit rule of a leader is exact.** In a tenure that starts with `becomeLeader`, the
commit index between the snapshot and the last entry, and goes on with any sequence of commands,
snapshots of what is committed, and replies within the term to the requests of the tenure: a
success reply to a request with entries does not panic, the commit index is the larger one of its
old value and of the largest index `N` of an entry of the present term such that the leader and the
servers with a match index from `N` on are enough, and the messages sent are those of the entries
between the two, in order, the internal ones left out.

**Proof sketch.** The tenure keeps an invariant: the log is in order, everything is within it, and
no index above the commit index is replicated. The scan goes down from the index of the reply and
commits the first index that is. -/
theorem leader_commit_exact (hn : 3 ≤ n) {rf₀ rf₁ : Raft n Cmd Snap} (hroot : rf₀.Rooted)
    (horder : rf₀.InOrder) (hlow : rf₀.lastIncludedIndex ≤ rf₀.commitIndex)
    (hhigh : rf₀.commitIndex ≤ rf₀.lastIndex) (hlead : rf₀.becomeLeader = .ok rf₁ ())
    {t : Tenure n Cmd Snap}
    (hrun : Transition.Reach Tenure.step (fun _ _ => True) ⟨rf₁, [], []⟩ t)
    {peer : Fin n} {args : AppendEntriesArgs n Cmd} (hsent : (peer, args) ∈ t.appends)
    (hne : args.entries ≠ []) {reply : AppendEntriesReply} (hs : reply.success = true) :
    ∃ rf', t.rf.appendReply peer args reply = .ok rf' () ∧
      IsGreatest (insert t.rf.commitIndex {N | rf'.Replicated N}) rf'.commitIndex ∧
      rf'.applyChan = t.rf.applyChan ++ t.rf.applyMsgs t.rf.commitIndex rf'.commitIndex := by
  have hok : t.Ok := hrun.invariant
    ⟨.of_becomeLeader hn hroot horder hlow hhigh hlead, by simp, by simp⟩
    fun _ _ _ _ h _ hstep => h.step hn hstep
  obtain ⟨hpeer, hterm, hlast⟩ := hok.appends _ hsent
  obtain ⟨e, he⟩ : ∃ e, args.entries.getLast? = some e :=
    ⟨_, List.getLast?_eq_some_getLast hne⟩
  obtain ⟨rf', heq, -, hexact⟩ := hok.leading.appendSuccess hpeer (hlast e he)
  refine ⟨rf', ?_, hexact.greatest, hexact.sent⟩
  have hT : t.rf.currentTerm = args.leaderTerm := hterm.symm
  rw [← heq]
  simp [Raft.appendReply, hs, hT, he]

/-- A candidate with an empty log. -/
def firstCandidate : Raft 3 Unit Unit :=
  { (Raft.make 0 {} : Raft 3 Unit Unit) with
    currentTerm := 1
    role := .candicate
    votedFor := some 0 }

/-- The request with the no-op and one command. -/
def firstRequest : AppendEntriesArgs 3 Unit :=
  ⟨1, 0, some 0, some 0, [⟨1, 1, none, 0, true⟩, ⟨1, 2, some (), 1, false⟩], 0⟩

/-- The candidate wins, takes a command and sends it to server 1, whose reply commits both
entries. -/
theorem leader_commit_exact_first : ∃ rf₁ t rf', firstCandidate.becomeLeader = .ok rf₁ () ∧
    Transition.Reach Tenure.step (fun _ _ => True) ⟨rf₁, [], []⟩ t ∧
    t.rf.appendReply 1 firstRequest ⟨1, true, none, 0, 0⟩ = .ok rf' () ∧
    t.rf.commitIndex = 0 ∧ rf'.commitIndex = 2 ∧
    IsGreatest (insert t.rf.commitIndex {N | rf'.Replicated N}) rf'.commitIndex ∧
    rf'.applyChan = t.rf.applyChan ++ t.rf.applyMsgs t.rf.commitIndex rf'.commitIndex := by
  have hroot : firstCandidate.Rooted := ⟨rfl, _, rfl, rfl⟩
  have horder : firstCandidate.InOrder := ⟨⟨rfl, by decide, by decide⟩, by decide⟩
  obtain ⟨t, hrun, hsent, hold, hnew⟩ : ∃ t, Transition.Reach Tenure.step (fun _ _ => True)
      ⟨firstCandidate.becomeLeader.state, [], []⟩ t ∧ (1, firstRequest) ∈ t.appends ∧
      t.rf.commitIndex = 0 ∧
      (t.rf.appendReply 1 firstRequest ⟨1, true, none, 0, 0⟩).state.commitIndex = 2 :=
    Transition.Reach.exists_of_stepsIf (P := fun _ _ => True) [.start (), .sendAppend 1]
      (by decide +kernel)
  have hsuccess : AppendEntriesReply.success ⟨1, true, none, 0, 0⟩ = true := rfl
  obtain ⟨rf', heq, hgreatest, hchan⟩ := leader_commit_exact (by decide) hroot horder (by decide)
    (by decide) rfl hrun hsent (by decide) hsuccess
  rw [heq] at hnew
  exact ⟨_, t, rf', rfl, hrun, heq, hold, hnew, hgreatest, hchan⟩

end Mit6824
