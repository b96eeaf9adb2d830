import Mit6824.Raft.Leader

set_option autoImplicit false

/-!
# Replication refines the replicated log

The requests a leader builds and the replies it handles: its records about a peer are backed by
what the peer acknowledged, and an entry that it commits is held by a quorum.

## Main results

* `Mit6824.buildAppend_endOk` — a request says what is true of the abstract state.
* `Mit6824.LeaderOk.committed` — the count of `matchIndexs` is a quorum of acknowledgements.
* `Mit6824.appendReply_sound`, `Mit6824.installReply_sound`.
-/

namespace Mit6824

open ReplicatedLog (EndsIn)

variable {n : ℕ} {Cmd Snap : Type} {tidy : Prop} {q : ℕ → Fin n → Prop} {i : Fin n}
  {G : Ghost n Cmd} {rf : Raft n Cmd Snap} {l : Leader n}

/-! ## Records about a peer -/

/-- The next index after a matching one. -/
lemma MatchOk.next {j : Fin n} {T m : ℕ} {F : List (LogEntry Cmd)} (h : MatchOk G j T F m)
    (hF : EndsIn LogEntry.logTerm F T) : NextOk G j T F (m + 1) := by
  have hpos : 0 < F.length := List.length_pos_iff.mpr hF.ne_nil
  rcases h with rfl | ⟨hle, h⟩
  · exact Or.inl hpos
  · rcases hle.eq_or_lt with rfl | hlt
    · rw [List.take_length] at h
      rcases h with hack | ⟨-, hold⟩
      · exact Or.inr ⟨rfl, hack⟩
      · obtain ⟨e, he, heT⟩ := hF.exists_mem
        exact absurd heT (hold e he).ne
    · exact Or.inl hlt

/-- A matching index is backed by an acknowledgement, for entries of the leader's own term. -/
lemma MatchOk.acked {j : Fin n} {T m k : ℕ} {F : List (LogEntry Cmd)} (h : MatchOk G j T F m)
    (hk : k ≤ m) (hF : EndsIn LogEntry.logTerm (F.take k) T) : G.st.Acked j T (F.take k) := by
  have hpre : F.take k <+: F.take m := List.take_prefix_take_left hk
  rcases h with rfl | ⟨-, hack | ⟨-, hold⟩⟩
  · obtain rfl : k = 0 := by omega
    exact absurd (List.take_zero) hF.ne_nil
  · exact hack.shorten hpre
  · obtain ⟨e, he, heT⟩ := hF.exists_mem
    exact absurd heT (hold e (hpre.subset he)).ne

/-- Recording a reply of a peer. -/
lemma RaftOk.setPeer (h : RaftOk tidy G i rf) (hl : rf.leaderPtr = some l) {peer : Fin n}
    {next m : ℕ} (hm : MatchOk G peer (G.st.term i) (G.st.log i) m)
    (hn : NextOk G peer (G.st.term i) (G.st.log i) next) :
    RaftOk tidy G i { rf with leaderPtr := some (Raft.setPeer l peer next m) } := by
  have hl' := h.leader l hl
  refine ⟨⟨⟨⟨h.me, h.saved.congr rfl rfl rfl, h.term,
    ⟨h.log.le, h.log.logs, h.log.term, h.log.cmd⟩, h.base, h.done_le, h.committed, h.snap_le⟩,
    h.chan⟩, h.commit_le, h.tidy_le⟩, ?_, fun l₁ hl₁ => ?_, h.candidate⟩
  · simpa [hl] using h.role
  · obtain rfl := Option.some.inj hl₁
    refine ⟨hl'.lead, hl'.log, hl'.self, fun j => ?_, fun j hj => ?_⟩ <;>
      by_cases hjp : j = peer
    · subst hjp
      simpa [Raft.setPeer] using hm
    · simpa [Raft.setPeer, hjp] using hl'.mtch j
    · subst hjp
      simpa [Raft.setPeer] using hn
    · simpa [Raft.setPeer, hjp] using hl'.next j hj

/-! ## Requests -/

/-- **The requests of a leader.** A heartbeat goes only to a peer that has everything; else the
request carries the rest of the leader log.

**Proof sketch.** The entry before those that are sent is in the log, because the next index is
above the snapshot and not behind the log. The entries are the rest of the leader log. If there is
nothing to send, the next index is past the end, and so the peer has acknowledged everything. -/
lemma buildAppend_endOk (hG : G.Ok) (h : RaftOk tidy G i rf) {peer : Fin n} (hpeer : peer ≠ i) :
    EndOk tidy G i (fun r => ∀ args, r = some args → args.leaderId = i ∧ AppendOk G peer args)
      (rf.buildAppend peer) := by
  have hnum := hG.numbered_log i
  obtain ⟨last, hlast, hidx, -⟩ := h.log.getLastLog hnum
  cases hb : rf.buildAppend peer with
  | panic p rf' =>
    have hst := Raft.state_buildAppend rf peer
    rw [hb] at hst
    obtain rfl : rf' = rf := hst
    refine ⟨h.toCrashOk, fun _ => ?_⟩
    rintro rfl
    -- the position of the previous entry is in the slice
    simp only [Raft.buildAppend, hlast] at hb
    split at hb
    · simp_all
    · simp at hb
    · rename_i last' l hl hp
      obtain rfl := Option.some.inj hl
      split_ifs at hb with h1 h2
      split at hb
      · rename_i hnone
        obtain ⟨e, he, -⟩ := h.log.getElem? hnum (k := l.nextIndexs peer - 1) (by omega) (by omega)
        rw [show l.nextIndexs peer - 1 - rf'.lastIncludedIndex =
          l.nextIndexs peer - rf'.lastIncludedIndex - 1 by omega, hnone] at he
        simp at he
      · simp at hb
  | ok rf' r =>
    have hst := Raft.state_buildAppend rf peer
    rw [hb] at hst
    obtain rfl : rf' = rf := hst
    refine ⟨h, ?_⟩
    rintro args rfl
    obtain ⟨-, last', l, hlast', hl, hcases⟩ := Raft.buildAppend_eq_some hb
    rw [hlast] at hlast'
    obtain rfl := Option.some.inj hlast'
    have hl' := h.leader l hl
    have hF := hG.inv.ends _ _ hl'.log
    have hcommit : ∃ D, G.Committed (G.st.term i) D ∧ D.length = rf'.commitIndex := by
      have hpre : (G.done i).take rf'.commitIndex <+: G.done i := List.take_prefix _ _
      exact ⟨_, h.committed.shorten hpre, List.length_take_of_le h.commit_le⟩
    rcases hcases with ⟨hlt, rfl⟩ | ⟨prev, hlow, hle, hprev, rfl⟩
    · refine ⟨h.me, ⟨?_, fun _ => ?_, fun hne => absurd rfl hne⟩⟩ <;> simp only [h.term]
      · exact hcommit
      · rcases hl'.next peer hpeer with hn | ⟨-, hack⟩
        · omega
        · exact ⟨_, hF, hack⟩
    · have hlow' : rf'.lastIncludedIndex ≤ l.nextIndexs peer - 1 := by omega
      obtain ⟨e, he, heidx, het, -⟩ := h.log.getElem? hnum hlow' (by omega)
      rw [show l.nextIndexs peer - 1 - rf'.lastIncludedIndex =
        l.nextIndexs peer - rf'.lastIncludedIndex - 1 by omega, hprev] at he
      obtain rfl := Option.some.inj he
      have hent : rf'.logs.drop (l.nextIndexs peer - rf'.lastIncludedIndex) =
          (G.st.log i).drop (l.nextIndexs peer - 1) := by
        rw [← h.log.drop hlow']
        congr 1
        omega
      refine ⟨h.me, ⟨?_, fun hnil => ?_, fun _ => ?_⟩⟩ <;> simp only [h.term]
      · exact hcommit
      · rw [hent, List.drop_eq_nil_iff] at hnil
        omega
      · exact ⟨_, G.st.log i, G.st.log i, by rw [heidx], by rw [het], by omega, hent, hF, hl'.log,
          List.prefix_rfl⟩

/-! ## The commit rule -/

/-- **The commit rule is sound**: the servers that the leader counts have acknowledged the entry
in its term.

**Proof sketch.** The leader, the peer of the reply and the servers that are counted are a majority,
and each of them has acknowledged the entry in the leader's term. -/
theorem LeaderOk.committed (hn : Odd n) (h : RaftOk tidy G i rf) (hl : LeaderOk G i l)
    {peer : Fin n} (hpeer : peer ≠ i) {k : ℕ} (hk : k ≤ l.matchIndexs peer)
    (hends : EndsIn LogEntry.logTerm ((G.st.log i).take k) (G.st.term i))
    (hcount : quorumSize n ≤ rf.replicaCount l peer k) :
    G.st.Committed LogEntry.logTerm (majority n) (G.st.term i) ((G.st.log i).take k) := by
  refine ⟨hends, ⟨_, hl.log, List.take_prefix _ _⟩,
    insert i (insert peer (Finset.univ.filter fun j => j ≠ peer ∧ j ≠ i ∧ k ≤ l.matchIndexs j)),
    mem_majority hn ?_, fun j hj => ?_⟩
  · rw [Finset.card_insert_of_notMem (by simp [hpeer.symm]), Finset.card_insert_of_notMem (by simp)]
    rw [Raft.replicaCount, h.me] at hcount
    omega
  · by_cases hji : j = i
    · subst hji
      exact hl.self.shorten (List.take_prefix _ _)
    · refine (hl.mtch j).acked ?_ hends
      rcases Finset.mem_insert.mp hj with rfl | hj
      · exact absurd rfl hji
      · rcases Finset.mem_insert.mp hj with rfl | hj
        · exact hk
        · exact (Finset.mem_filter.mp hj).2.2.2

/-- Sending a range of entries that the server knows to be committed. -/
lemma sendRange_endOk (hG : G.Ok) : ∀ (m k : ℕ) (rf : Raft n Cmd Snap), RaftOk tidy G i rf →
    rf.commitIndex < k → k + m ≤ (G.done i).length + 1 →
    EndOk tidy G i (fun _ => True) (Raft.sendRange m k rf)
  | 0, _, rf, h, _, _ => ⟨h, trivial⟩
  | m + 1, k, rf, h, hlow, hle => by
    unfold Raft.sendRange
    split
    · rename_i hsend
      have hk : k ≤ (G.st.log i).length := (by omega : k ≤ (G.done i).length).trans
        h.done_le.length_le
      exact ⟨h.toCrashOk, fun ht => absurd ht (h.sendEntry_none hG hsend hlow hk)⟩
    · rename_i rf' hsend
      obtain ⟨h', hc⟩ := h.sendEntry hG hsend hlow (by omega)
      exact sendRange_endOk hG m (k + 1) rf' h' (by omega) (by omega)

/-- A leader that commits up to an index it knows to be committed agrees with the abstract state. -/
lemma commitUpTo_endOk (hG : G.Ok) (h : RaftOk tidy G i rf) {k : ℕ} (hlow : rf.commitIndex < k)
    (hk : k ≤ (G.done i).length) : EndOk tidy G i (fun _ => True) (rf.commitUpTo k) := by
  have hsend := sendRange_endOk hG (k - rf.commitIndex) (rf.commitIndex + 1) rf h
    (Nat.lt_succ_self _) (by omega)
  unfold Raft.commitUpTo
  split
  · rename_i heq
    rw [heq] at hsend
    exact hsend
  · rename_i rf' heq
    rw [heq] at hsend
    refine ⟨hsend.1.setCommit hk fun ht => ?_, trivial⟩
    have hbase : rf'.lastIncludedIndex = rf.lastIncludedIndex := hsend.1.base.symm.trans h.base
    have := h.tidy_le ht
    omega

/-- An entry of the current term with enough replicas is committed: the server learns of it and
delivers up to it. -/
lemma commitUpTo_sound (hn : Odd n) (hG : G.Ok) (h : RaftOk tidy G i rf)
    (hl : rf.leaderPtr = some l) {peer : Fin n} (hpeer : peer ≠ i) {k : ℕ}
    (hmatch : k ≤ l.matchIndexs peer) (hlen : k ≤ (G.st.log i).length) (hlow : rf.commitIndex < k)
    {e : LogEntry Cmd} (he : rf.logAt k = some e) (hterm : e.logTerm = rf.currentTerm)
    (hcount : quorumSize n ≤ rf.replicaCount l peer k) :
    Sound tidy q i G (rf.commitUpTo k) (fun _ _ => True) := by
  obtain ⟨-, -, -, het, -⟩ := h.log.of_logAt (hG.numbered_log i) he
  have hends : EndsIn LogEntry.logTerm ((G.st.log i).take k) (G.st.term i) := by
    have hlast := endsIn_take (Nat.zero_lt_of_lt hlow) hlen
    rwa [← het, hterm, h.term] at hlast
  have hcom := (h.leader l hl).committed hn h hpeer hmatch hends hcount
  obtain ⟨D, hD, hXD, hDlog, hDc⟩ := h.toPersistOk.exists_learn (List.take_prefix k (G.st.log i))
    (Or.inr ⟨_, le_rfl, _, hcom, List.prefix_rfl⟩)
  have hXlen := hXD.length_le
  rw [List.length_take_of_le hlen] at hXlen
  have hok : (G.learn i D).Ok := hG.of_done _
  exact ⟨G.learn i D, Ghost.Step.of_done hD, hok, commitUpTo_endOk hok
    (h.learn hD hDlog hDc) hlow (by rw [Ghost.done_learn]; exact hXlen)⟩

/-- The search for an entry to commit. -/
lemma commitScan_sound (hn : Odd n) (hG : G.Ok) (h : RaftOk tidy G i rf)
    (hl : rf.leaderPtr = some l) {peer : Fin n} (hpeer : peer ≠ i) {k : ℕ}
    (hmatch : k ≤ l.matchIndexs peer) (hlen : k ≤ (G.st.log i).length) :
    Sound tidy q i G (rf.commitScan l peer k) (fun _ _ => True) := by
  obtain heq | ⟨j, hj, hlow, hnone, heq⟩ | ⟨j, hj, e, hlow, he, hterm, hcount, heq⟩ :=
    Raft.commitScan_cases rf l peer k <;> rw [heq]
  · exact ⟨G, Ghost.Step.refl q i G, hG, h, trivial⟩
  · refine ⟨G, Ghost.Step.refl q i G, hG, h.toCrashOk, fun ht => ?_⟩
    obtain ⟨e, he, -⟩ := h.log.logAt (hG.numbered_log i) ((h.tidy_le ht).trans hlow.le)
      (hj.trans hlen)
    rw [hnone] at he
    simp at he
  · exact commitUpTo_sound hn hG h hl hpeer (hj.trans hmatch) (hj.trans hlen) hlow he hterm hcount

/-! ## Replies -/

/-- A success reply.

**Proof sketch.** What the peer has acknowledged is a prefix of the leader log, so its length may be
recorded; then the commit rule runs. -/
lemma appendSuccess_sound (hn : Odd n) (hG : G.Ok) (h : RaftOk tidy G i rf) {peer : Fin n}
    (hpeer : peer ≠ i) {M : List (LogEntry Cmd)} (hM : G.st.Acked peer (G.st.term i) M) :
    Sound tidy q i G (rf.appendSuccess peer M.length) (fun _ _ => True) := by
  obtain ⟨-, heq⟩ | ⟨l, hl, hcases⟩ := Raft.appendSuccess_cases rf peer M.length
  · rw [heq]
    exact ⟨G, Ghost.Step.refl q i G, hG, h.toCrashOk, fun _ => by simp⟩
  · have hl' := h.leader l hl
    obtain ⟨-, L, hL, hML⟩ := hG.inv.acked_le hM
    rw [hl'.log] at hL
    obtain rfl := Option.some.inj hL
    have hm : MatchOk G peer (G.st.term i) (G.st.log i) M.length := by
      refine Or.inr ⟨hML.length_le, Or.inl ?_⟩
      rwa [← List.prefix_iff_eq_take.mp hML]
    have hrf := h.setPeer hl hm (hm.next (hG.inv.ends _ _ hl'.log))
    rcases hcases with heq | heq <;> rw [heq]
    · exact ⟨G, Ghost.Step.refl q i G, hG, hrf, trivial⟩
    · exact commitScan_sound hn hG hrf rfl hpeer (by simp [Raft.setPeer]) hML.length_le

/-- The search for the conflicting term stays within the log. Where the last entry is of another
term, the index it finds is not past the end.

**Proof sketch.** Induction on the index. Every entry down to the snapshot can be read. An entry of
the term that is looked for is not the last one, so that the index behind it is in the log. -/
lemma Raft.Holds.backupScan {F : List (LogEntry Cmd)} (h : rf.Holds F) (hF : Numbered F)
    (xterm xindex : ℕ) : ∀ k, k ≤ F.length →
      ∃ next, rf.backupScan xterm xindex rf.lastIncludedIndex k = some next ∧
        ((lastOf F).logTerm ≠ xterm → xindex ≤ F.length → ∀ j, next = some j → j ≤ F.length) := by
  -- an entry of the term that is looked for is not the last one
  have hfound : ∀ k e, rf.logAt k = some e → e.logTerm = xterm → (lastOf F).logTerm ≠ xterm →
      k + 1 ≤ F.length := by
    intro k e he ht hlast
    obtain ⟨-, hk, -, het, -⟩ := h.of_logAt hF he
    rcases hk.eq_or_lt with rfl | hlt
    · rw [List.take_length] at het
      exact absurd (het ▸ ht) hlast
    · exact hlt
  intro k
  induction k with
  | zero =>
    intro hk
    unfold Raft.backupScan
    split_ifs with hlow
    · exact ⟨none, rfl, by simp⟩
    · obtain ⟨e, he, -⟩ := h.logAt hF (k := 0) (by omega) hk
      rw [he]
      dsimp only
      split_ifs with h1 h2
      · exact ⟨_, rfl, fun hlast _ j hj => Option.some.inj hj ▸ hfound 0 e he h1 hlast⟩
      · exact ⟨_, rfl, fun _ hx j hj => Option.some.inj hj ▸ hx⟩
      · exact ⟨none, rfl, by simp⟩
  | succ k ih =>
    intro hk
    unfold Raft.backupScan
    split_ifs with hlow
    · exact ⟨none, rfl, by simp⟩
    · obtain ⟨e, he, -⟩ := h.logAt hF (not_lt.mp hlow) hk
      rw [he]
      dsimp only
      split_ifs with h1 h2
      · exact ⟨_, rfl, fun hlast _ j hj => Option.some.inj hj ▸ hfound (k + 1) e he h1 hlast⟩
      · exact ⟨_, rfl, fun _ hx j hj => Option.some.inj hj ▸ hx⟩
      · exact ih (by omega)

/-- A conflict reply moves the next index back, to one within the log.

**Proof sketch.** Without a term the next index is set to one behind the follower's log, which is
within the leader log. With a term the search finds an index within the log, since the leader's last
entry is of its own, later term. -/
lemma appendConflict_endOk (hG : G.Ok) (h : RaftOk tidy G i rf) {peer : Fin n} (hpeer : peer ≠ i)
    {reply : AppendEntriesReply} {L : List (LogEntry Cmd)}
    (hL : G.st.leaderLog (G.st.term i) = some L)
    (hlen : reply.xterm = none → reply.xlen + 1 ≤ L.length)
    (hterm : ∀ t, reply.xterm = some t → t < G.st.term i ∧ reply.xindex ≤ L.length) :
    EndOk tidy G i (fun _ => True) (rf.appendConflict peer reply) := by
  have hnum := hG.numbered_log i
  unfold Raft.appendConflict
  split
  · rename_i hx
    split
    · exact ⟨h.toCrashOk, fun _ => by simp⟩
    · rename_i l hl
      have hl' := h.leader l hl
      obtain rfl := Option.some.inj (hL.symm.trans hl'.log)
      exact ⟨h.setPeer hl (hl'.mtch peer) (Or.inl (hlen hx)), trivial⟩
  · rename_i xterm hx
    obtain ⟨s, hs, hsidx, -⟩ := h.log.logs
    obtain ⟨last, hlast, hidx, -⟩ := h.log.getLastLog hnum
    obtain ⟨next, hnext, hle⟩ := h.log.backupScan hnum xterm reply.xindex _ le_rfl
    have hhead : rf.logs.head? = some s := by rw [hs, List.head?_cons]
    simp only [hhead, hlast, hsidx, hidx, hnext]
    split
    · exact ⟨h.toCrashOk, fun _ => by simp⟩
    · rename_i l hl
      have hl' := h.leader l hl
      obtain rfl := Option.some.inj (hL.symm.trans hl'.log)
      obtain ⟨hlt, hxi⟩ := hterm xterm hx
      refine ⟨h.setPeer hl (hl'.mtch peer) ?_, trivial⟩
      cases next with
      | none => exact hl'.next peer hpeer
      | some j =>
        refine Or.inl (hle ?_ hxi j rfl)
        -- the log ends in the leader's own term
        obtain ⟨P, e, heq, he⟩ := hG.inv.ends _ _ hl'.log
        rw [heq, lastOf_concat, he]
        exact hlt.ne'

/-- **The reply handling of `doAppendEntriesRPC` refines the replicated log**, when it does not
lower the term.

**Proof sketch.** By the cases of the handler. A success says that the peer has acknowledged the
leader log up to the last entry that was sent; a reply of a later term raises the term; a conflict
only moves a next index. -/
theorem appendReply_sound (hn : Odd n) (hG : G.Ok) (h : RaftOk tidy G i rf) {peer : Fin n}
    (hpeer : peer ≠ i) {args : AppendEntriesArgs n Cmd} {reply : AppendEntriesReply}
    (hm : ReplyOk G peer args reply)
    (hfresh : reply.success = false → args.leaderTerm < reply.followerTerm →
      rf.currentTerm ≤ reply.followerTerm) :
    Sound tidy q i G (rf.appendReply peer args reply) (fun _ _ => True) := by
  have hspec := Raft.appendReply_spec rf peer args reply
  generalize rf.appendReply peer args reply = o at hspec
  cases hspec with
  | keep => exact ⟨G, Ghost.Step.refl q i G, hG, h, trivial⟩
  | noLeader => exact ⟨G, Ghost.Step.refl q i G, hG, h.toCrashOk, fun _ => by simp⟩
  | empty _ hnone =>
    obtain ⟨last, hlast, -⟩ := h.log.getLastLog (hG.numbered_log i)
    rw [hnone] at hlast
    simp at hlast
  | success hs hT e he =>
    obtain ⟨M, hMlen, hM⟩ := hm.success hs e he
    rw [hMlen]
    exact appendSuccess_sound hn hG h hpeer (h.term ▸ hT ▸ hM)
  | follow hs hlt =>
    have hle := hfresh hs hlt
    have hle' : G.st.term i ≤ reply.followerTerm := h.term ▸ hle
    exact ⟨_, Ghost.step_raise hle', hG.raise hle', h.toRunningOk.becomeFollower hle, trivial⟩
  | conflict hs hle hT =>
    obtain ⟨L, hL, hlen, hterm⟩ := hm.conflict hs hle
    rw [← hT, h.term] at hL hterm
    exact ⟨G, Ghost.Step.refl q i G, hG, appendConflict_endOk hG h hpeer hL hlen hterm⟩

/-- **The reply handling of `doInstallSnapshotRPC` refines the replicated log.**

**Proof sketch.** By the cases of the handler. A reply of the own term says that the peer holds a
committed prefix, which is a prefix of the leader log, so the match index may be set to its length.
-/
theorem installReply_sound (hG : G.Ok) (h : RaftOk tidy G i rf) {peer : Fin n}
    {args : InstallSnapshotArgs n Snap} {reply : InstallSnapshotReply}
    (hm : reply.term ≤ args.term → InstalledOk G peer args) :
    Sound tidy q i G (rf.installReply peer args reply) (fun _ _ => True) := by
  have hspec := Raft.installReply_spec rf peer args reply
  generalize rf.installReply peer args reply = o at hspec
  cases hspec with
  | stale => exact ⟨G, Ghost.Step.refl q i G, hG, h, trivial⟩
  | follow _ hlt =>
    have hle' : G.st.term i ≤ reply.term := h.term ▸ hlt.le
    exact ⟨_, Ghost.step_raise hle', hG.raise hle', h.toRunningOk.becomeFollower hlt.le, trivial⟩
  | noLeader => exact ⟨G, Ghost.Step.refl q i G, hG, h.toCrashOk, fun _ => by simp⟩
  | record hT hle l hl =>
    have hl' := h.leader l hl
    obtain ⟨P, hP, hlen, hrest⟩ := hm (hT ▸ hle)
    rw [← hT, h.term] at hP hrest
    have hPL := hG.inv.committedBy_prefix_leaderLog hP le_rfl hl'.log
    have hmatch : MatchOk G peer (G.st.term i) (G.st.log i) args.lastIncludedIndex := by
      rw [← hlen] at hrest ⊢
      refine Or.inr ⟨hPL.length_le, ?_⟩
      rwa [← List.prefix_iff_eq_take.mp hPL]
    exact ⟨G, Ghost.Step.refl q i G, hG,
      h.setPeer hl hmatch (hmatch.next (hG.inv.ends _ _ hl'.log)), trivial⟩

end Mit6824
