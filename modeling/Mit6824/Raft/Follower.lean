import Mit6824.Raft.Ghost
import Mit6824.Raft.Runs

set_option autoImplicit false

/-!
# Followers refine the replicated log

Following in a term, delivering committed entries, and the handlers of the three requests:
each takes a server that agrees with the abstract state to one that agrees with a later one.

## Main definitions

* `Mit6824.Sound` — a critical section ends in agreement with a later abstract state.

## Main results

* `Mit6824.appendEntries_sound`, `Mit6824.installSnapshot_sound`, `Mit6824.requestVoteCheck_sound`.
-/

namespace Mit6824

open ReplicatedLog (EndsIn)

variable {n : ℕ} {Cmd Snap : Type} {tidy : Prop} {q : ℕ → Fin n → Prop} {i : Fin n}
  {G : Ghost n Cmd} {rf : Raft n Cmd Snap}

/-- The end of a critical section agrees with the abstract state; a panic is no access outside
the log in a tidy run. -/
def EndOk {α : Type} (tidy : Prop) (G : Ghost n Cmd) (i : Fin n) (Q : α → Prop) :
    Outcome n Cmd Snap α → Prop
  | .ok rf a => RaftOk tidy G i rf ∧ Q a
  | .panic p rf => CrashOk tidy G i rf ∧ (tidy → p ≠ .indexOutOfRange)

/-- A critical section of server `i` ends in agreement with a later abstract state, and its
result with `Q`. -/
def Sound {α : Type} (tidy : Prop) (q : ℕ → Fin n → Prop) (i : Fin n) (G : Ghost n Cmd)
    (o : Outcome n Cmd Snap α) (Q : Ghost n Cmd → α → Prop) : Prop :=
  ∃ G', G.Step q i G' ∧ G'.Ok ∧ EndOk tidy G' i (Q G') o

/-- A running follower keeps no records about peers. -/
lemma RunningOk.follower (h : RunningOk tidy G i rf) (hrole : rf.role = .follower)
    (hptr : rf.leaderPtr = none) : RaftOk tidy G i rf where
  toRunningOk := h
  role := by simp [hrole, hptr]
  leader l hl := by simp [hptr] at hl
  candidate hc := by simp [hrole] at hc

/-! ## Entering a later term -/

/-- Server `i` enters term `t`. -/
def Ghost.raise (G : Ghost n Cmd) (i : Fin n) (t : ℕ) : Ghost n Cmd :=
  { G with st := G.st.raise i t }

/-- The server is in the new term. -/
lemma Ghost.term_raise (G : Ghost n Cmd) (i : Fin n) (t : ℕ) : (G.raise i t).st.term i = t := by
  simp [Ghost.raise, ReplicatedLog.State.raise]

/-- Entering its own term changes nothing. -/
lemma Ghost.raise_self (G : Ghost n Cmd) (i : Fin n) : G.raise i (G.st.term i) = G := by
  simp [Ghost.raise, ReplicatedLog.State.raise]

/-- Entering a later term is a step. -/
lemma Ghost.step_raise {t : ℕ} (ht : G.st.term i ≤ t) : G.Step q i (G.raise i t) :=
  Ghost.Step.of_st (ReplicatedLog.Ext.raise ht)
    (fun k hk => by simp [ReplicatedLog.State.raise, hk]) (fun _ _ => rfl) rfl

/-- Entering a later term keeps the abstract invariant. -/
lemma Ghost.Ok.raise (h : G.Ok) {t : ℕ} (ht : G.st.term i ≤ t) : (G.raise i t).Ok :=
  h.of_st (h.inv.raise ht) (ReplicatedLog.Ext.raise ht) rfl

/-- `becomeFollower` in a term that is not behind. -/
lemma RunningOk.becomeFollower (h : RunningOk tidy G i rf) {t : ℕ} (ht : rf.currentTerm ≤ t) :
    RaftOk tidy (G.raise i t) i (rf.becomeFollower t) := by
  have hle : G.st.term i ≤ t := h.term ▸ ht
  have hstep : G.Step (fun _ _ => True) i (G.raise i t) := Ghost.step_raise hle
  refine RunningOk.follower ⟨⟨⟨h.me, Raft.saved_becomeFollower _ _, (G.term_raise i t).symm, ?_,
    h.base, h.done_le, ?_, h.snap_le⟩, h.chan⟩, h.commit_le, h.tidy_le⟩ rfl rfl
  · exact ⟨h.log.le, h.log.logs, h.log.term, h.log.cmd⟩
  · have hc := hstep.committed h.committed
    rw [G.term_raise i t]
    exact hc.mono hle

/-- `observe` enters the later of the two terms. -/
lemma RaftOk.observe (h : RaftOk tidy G i rf) (t : ℕ) :
    RaftOk tidy (G.raise i (max (G.st.term i) t)) i (rf.observe t) := by
  unfold Raft.observe
  split_ifs with hlt
  · rw [h.term] at hlt
    rw [max_eq_right hlt.le]
    exact h.toRunningOk.becomeFollower (h.term ▸ hlt.le)
  · rw [h.term] at hlt
    rw [max_eq_left (not_lt.mp hlt), Ghost.raise_self]
    exact h

/-! ## Learning of committed entries -/

/-- Server `i` has been told that `D` is committed. -/
def Ghost.learn (G : Ghost n Cmd) (i : Fin n) (D : List (LogEntry Cmd)) : Ghost n Cmd :=
  { G with done := Function.update G.done i D }

/-- The server knows what it has been told. -/
lemma Ghost.done_learn (G : Ghost n Cmd) (i : Fin n) (D : List (LogEntry Cmd)) :
    (G.learn i D).done i = D := by
  simp [Ghost.learn]

/-- A server may be told of committed entries that it has. -/
lemma RaftOk.learn (h : RaftOk tidy G i rf) {D : List (LogEntry Cmd)} (hD : G.done i <+: D)
    (hlog : D <+: G.st.log i) (hc : G.Committed (G.st.term i) D) :
    RaftOk tidy (G.learn i D) i rf := by
  have hlen := hD.length_le
  refine ⟨⟨⟨⟨h.me, h.saved, h.term, h.log, h.base, ?_, ?_, ?_⟩, ?_⟩, ?_, h.tidy_le⟩, h.role,
    fun l hl => ?_, h.candidate⟩
  · rw [Ghost.done_learn]; exact hlog
  · rw [Ghost.done_learn]; exact hc
  · rw [Ghost.done_learn]; exact h.snap_le.trans hlen
  · rw [Ghost.done_learn]; exact fun m hm => (h.chan m hm).mono hD
  · rw [Ghost.done_learn]; exact h.commit_le.trans hlen
  · exact ⟨(h.leader l hl).lead, (h.leader l hl).log, (h.leader l hl).self, (h.leader l hl).mtch,
      (h.leader l hl).next⟩

/-- A committed prefix of its log is within some committed prefix that contains all that the
server has been told. -/
lemma PersistOk.exists_learn (h : PersistOk G i rf) {X : List (LogEntry Cmd)}
    (hX : X <+: G.st.log i) (hc : G.Committed (G.st.term i) X) :
    ∃ D, G.done i <+: D ∧ X <+: D ∧ D <+: G.st.log i ∧ G.Committed (G.st.term i) D := by
  rcases List.prefix_or_prefix_of_prefix hX h.done_le with hle | hle
  · exact ⟨G.done i, List.prefix_rfl, hle, h.done_le, h.committed⟩
  · exact ⟨X, hle, List.prefix_rfl, hX, hc⟩

/-! ## Delivering entries -/

/-- The end of `sendEntry`. -/
lemma Raft.sendEntry_cases {rf' : Raft n Cmd Snap} {k : ℕ} (h : rf.sendEntry k = some rf') :
    ∃ e, rf.logAt k = some e ∧ ((e.isInternalLog = true ∧ rf' = rf) ∨
      (e.isInternalLog = false ∧ rf' = { rf with applyChan := rf.applyChan ++ [{
        commandValid := true
        command := e.command
        commandIndex := e.commandIndex
        logIndex := e.logIndex }] })) := by
  unfold Raft.sendEntry at h
  split at h
  · simp at h
  · rename_i e he
    refine ⟨e, he, ?_⟩
    split_ifs at h with hint
    · exact Or.inl ⟨hint, (Option.some.inj h).symm⟩
    · exact Or.inr ⟨by simpa using hint, (Option.some.inj h).symm⟩

/-- Sending an entry that the server knows to be committed.

**Proof sketch.** An internal entry sends nothing. The message of another one is within the
committed part, and above the snapshot it is the entry of the full log at its index. -/
lemma RaftOk.sendEntry (hG : G.Ok) (h : RaftOk tidy G i rf) {rf' : Raft n Cmd Snap} {k : ℕ}
    (hsend : rf.sendEntry k = some rf') (hlow : rf.commitIndex < k)
    (hk : k ≤ (G.done i).length) : RaftOk tidy G i rf' ∧ rf'.commitIndex = rf.commitIndex := by
  obtain ⟨e, he, ⟨-, rfl⟩ | ⟨hint, rfl⟩⟩ := Raft.sendEntry_cases hsend
  · exact ⟨h, rfl⟩
  obtain ⟨-, -, hidx, -, -, hentry⟩ := h.log.of_logAt (hG.numbered_log i) he
  refine ⟨⟨⟨⟨⟨h.me, ?_, h.term, ?_, h.base, h.done_le, h.committed, h.snap_le⟩, ?_⟩, h.commit_le,
    h.tidy_le⟩, h.role, h.leader, h.candidate⟩, rfl⟩
  · exact h.saved.congr rfl rfl rfl
  · exact ⟨h.log.le, h.log.logs, h.log.term, h.log.cmd⟩
  · intro m hm
    rcases List.mem_append.mp hm with hm | hm
    · exact h.chan m hm
    · obtain rfl := List.mem_singleton.mp hm
      refine ⟨?_, fun ht _ => ?_⟩
      · simp only [ApplyMsg.upTo, if_true]
        omega
      · -- above the snapshot, the entry is the one of the full log
        have hlt : rf.lastIncludedIndex < k := (h.tidy_le ht).trans_lt hlow
        have hget := hentry hlt
        obtain ⟨R, hR⟩ := h.done_le
        rw [← hR, List.getElem?_append_left (by omega)] at hget
        exact ⟨k - 1, e, hget, by simp only; omega, rfl, rfl, hint⟩

/-- Moving the two indexes. -/
lemma RaftOk.setCommit (h : RaftOk tidy G i rf) {k : ℕ} (hk : k ≤ (G.done i).length)
    (hlow : tidy → rf.lastIncludedIndex ≤ k) :
    RaftOk tidy G i { rf with commitIndex := k, lastApplied := k } :=
  ⟨⟨⟨⟨h.me, h.saved.congr rfl rfl rfl, h.term, ⟨h.log.le, h.log.logs, h.log.term, h.log.cmd⟩,
    h.base, h.done_le, h.committed, h.snap_le⟩, h.chan⟩, hk, hlow⟩, h.role, h.leader, h.candidate⟩

/-- In a tidy run `sendEntry` finds every committed entry that was not sent yet. -/
lemma RaftOk.sendEntry_none (hG : G.Ok) (h : RaftOk tidy G i rf) {k : ℕ}
    (hsend : rf.sendEntry k = none) (hlow : rf.commitIndex < k) (hk : k ≤ (G.st.log i).length) :
    ¬ tidy := by
  intro ht
  obtain ⟨e, he, -⟩ := h.log.logAt (hG.numbered_log i) ((h.tidy_le ht).trans hlow.le) hk
  simp only [Raft.sendEntry, he] at hsend
  split_ifs at hsend

/-- The commit loop stays within what the server knows to be committed.

**Proof sketch.** Induction on the fuel. The next index is in the log and not above the leader's
commit index, so it is committed; if the entry cannot be read, the server was not tidy. -/
lemma commitLoop_endOk (hG : G.Ok) {leaderCommit : ℕ}
    (hlc : ∀ k ≤ leaderCommit, k ≤ (G.st.log i).length → k ≤ (G.done i).length) :
    ∀ (fuel : ℕ) (rf : Raft n Cmd Snap), RaftOk tidy G i rf →
      EndOk tidy G i (fun _ => True) (Raft.commitLoop leaderCommit fuel rf)
  | 0, rf, h => ⟨h, trivial⟩
  | fuel + 1, rf, h => by
    obtain ⟨last, hlast, hidx, -, -⟩ := h.log.getLastLog (hG.numbered_log i)
    unfold Raft.commitLoop
    rw [hlast]
    dsimp only
    split_ifs with hcond
    · have hk : rf.commitIndex + 1 ≤ (G.st.log i).length := hidx ▸ hcond.2
      have hdone := hlc _ hcond.1 hk
      split
      · rename_i hsend
        exact ⟨h.toCrashOk, fun ht => absurd ht (h.sendEntry_none hG hsend (Nat.lt_succ_self _) hk)⟩
      · rename_i rf' hsend
        obtain ⟨h', -⟩ := h.sendEntry hG hsend (Nat.lt_succ_self _) hdone
        have hbase : rf'.lastIncludedIndex = rf.lastIncludedIndex := h'.base.symm.trans h.base
        refine commitLoop_endOk hG hlc fuel _ (h'.setCommit hdone fun ht => ?_)
        rw [hbase]
        exact (h.tidy_le ht).trans (Nat.le_succ _)
    · exact ⟨h, trivial⟩

/-- **The commit loop of a follower** agrees with the abstract state when what it is told to commit
is committed. -/
lemma advanceCommit_endOk (hG : G.Ok) (h : RaftOk tidy G i rf) {leaderCommit : ℕ}
    (hlc : ∀ k ≤ leaderCommit, k ≤ (G.st.log i).length → k ≤ (G.done i).length)
    (reply : AppendEntriesReply) :
    EndOk tidy G i (fun r => r = reply) (rf.advanceCommit leaderCommit reply) := by
  unfold Raft.advanceCommit
  split_ifs
  · have hloop := commitLoop_endOk hG hlc (leaderCommit - rf.commitIndex) rf h
    split
    · rename_i heq
      rw [heq] at hloop
      exact ⟨hloop.1, rfl⟩
    · rename_i heq
      rw [heq] at hloop
      exact hloop
  · exact ⟨h, rfl⟩

/-- The commit loop after a request of the leader of the server's term: the log and the committed
entries the request speaks of lie in one leader log.

**Proof sketch.** The part of the log that is as long as `D` lies in the same leader log as `D`, so
it is a prefix of `D` and committed. The server learns it, and then the loop stays within what it
knows. -/
lemma advanceCommit_sound (hG : G.Ok) (h : RaftOk tidy G i rf) {D L : List (LogEntry Cmd)}
    (hD : G.Committed (G.st.term i) D) (hDL : D <+: L) (hlog : G.st.log i <+: L)
    (reply : AppendEntriesReply) {Q : Ghost n Cmd → AppendEntriesReply → Prop}
    (hQ : ∀ G', G'.st = G.st → Q G' reply) :
    Sound tidy q i G (rf.advanceCommit D.length reply) Q := by
  have hXD : (G.st.log i).take D.length <+: D :=
    List.prefix_of_prefix_length_le ((List.take_prefix _ _).trans hlog) hDL (by simp)
  obtain ⟨E, hE, hXE, hElog, hEc⟩ :=
    h.toPersistOk.exists_learn (List.take_prefix D.length (G.st.log i)) (hD.shorten hXD)
  have hlc : ∀ k ≤ D.length, k ≤ ((G.learn i E).st.log i).length →
      k ≤ ((G.learn i E).done i).length := by
    intro k hk hkl
    have hlen := hXE.length_le
    rw [List.length_take] at hlen
    rw [Ghost.done_learn]
    have hkl' : k ≤ (G.st.log i).length := hkl
    omega
  refine ⟨G.learn i E, Ghost.Step.of_done hE, hG.of_done _, ?_⟩
  have hend := advanceCommit_endOk (hG.of_done _) (h.learn hE hElog hEc) hlc reply
  generalize rf.advanceCommit D.length reply = o at hend
  cases o with
  | ok rf' r => exact ⟨hend.1, hend.2 ▸ hQ _ rfl⟩
  | panic p rf' => exact hend

/-! ## `AppendEntries` -/

section AppendEntries

variable {args : AppendEntriesArgs n Cmd}

/-- A heartbeat finds the log of the server within the leader log. -/
lemma heartbeat_sound (hG : G.Ok) (h : RaftOk tidy G i rf) (hm : AppendOk G i args)
    (he : args.entries = []) (hterm : G.st.term i = args.leaderTerm) :
    Sound tidy q i G (rf.advanceCommit args.leaderCommit
      { followerTerm := args.leaderTerm, success := true })
      (fun G' reply => ReplyOk G' i args reply) := by
  obtain ⟨X, hX, hack⟩ := hm.heartbeat he
  obtain ⟨L, hL, hlog⟩ := hG.inv.log_prefix_of_acked hX hack hterm.le
  obtain ⟨D, hD, hlen⟩ := hm.commit
  have hDL := hG.inv.committedBy_prefix_leaderLog hD le_rfl hL
  rw [← hlen]
  refine advanceCommit_sound hG h (hterm ▸ hD) hDL hlog _ fun G' _ => ⟨?_, ?_⟩
  · intro _ e he'
    simp [he] at he'
  · intro hs
    simp at hs

/-- What a server has been told is committed lies in the leader log of its term. -/
lemma PersistOk.done_prefix (hG : G.Ok) (h : PersistOk G i rf) {L : List (LogEntry Cmd)}
    (hL : G.st.leaderLog (G.st.term i) = some L) : G.done i <+: L :=
  hG.inv.committedBy_prefix_leaderLog h.committed le_rfl hL

/-- The place of the previous entry is within the log. -/
lemma PersistOk.prev_le (h : PersistOk G i rf) {prev : ℕ} {old : LogEntry Cmd}
    (hpos : rf.logs[prev - rf.lastIncludedIndex]? = some old) :
    prev ≤ (G.st.log i).length := by
  by_contra hlt
  rw [h.log.getElem?_of_lt (not_le.mp hlt)] at hpos
  simp at hpos

/-- A request that does not only cut the log carries `M`, and `M` is not a proper prefix of the
log.

**Proof sketch.** Otherwise the log goes on behind `M`, and the request would have been one that
shortens it. -/
lemma eq_of_not_shortens (h : PersistOk G i rf) (hle : rf.currentTerm ≤ args.leaderTerm)
    (hfresh : ¬ rf.Shortens args) {prev : ℕ} {M : List (LogEntry Cmd)} {old : LogEntry Cmd}
    (hprev : args.prevLogIndex = some prev) (hlow : rf.lastIncludedIndex ≤ prev)
    (hpos : rf.logs[prev - rf.lastIncludedIndex]? = some old)
    (hterm : some old.logTerm = args.prevLogTerm) (hlt : prev < M.length)
    (hent : args.entries = M.drop prev) (hM : M <+: G.st.log i) : M = G.st.log i := by
  by_contra hne
  obtain ⟨R, hR⟩ := hM
  have hRne : R ≠ [] := by
    rintro rfl
    exact hne (by simpa using hR)
  have hdrop : rf.logs.drop (prev - rf.lastIncludedIndex + 1) = M.drop prev ++ R := by
    rw [h.log.drop hlow, ← hR, List.drop_append_of_le_length hlt.le]
  refine hfresh ⟨hle, ?_, prev, hprev, hlow, ?_, ?_, ?_⟩
  · rw [hent]
    intro hnil
    have := congrArg List.length hnil
    simp only [List.length_drop, List.length_nil] at this
    omega
  · rw [hpos, Option.map_some, hterm]
  · rw [hdrop, hent, List.map_append]
    exact List.prefix_append _ _
  · rw [hdrop, hent, List.length_append]
    have := List.length_pos_iff.mpr hRne
    omega

/-- The request's entries replace the log behind the previous entry: the log is `M` now, and the
server has acknowledged it.

**Proof sketch.** The previous entry has the term that `M` has there, so both logs agree up to
it, and the new log is `M`. The request does not only cut the log, so nothing the server
acknowledged in this term is lost; what it acknowledged in an older term is in `M`, or is not in
this leader log at all. -/
lemma accept_sound (hG : G.Ok) (h : RaftOk tidy G i rf) (hm : AppendOk G i args)
    (hT : G.st.term i = args.leaderTerm) (hrole : rf.role = .follower)
    (hptr : rf.leaderPtr = none) (hfresh : ¬ rf.Shortens args) (he : args.entries ≠ []) {prev : ℕ}
    (hprev : args.prevLogIndex = some prev) (hlow : rf.lastIncludedIndex ≤ prev)
    {old : LogEntry Cmd} (hpos : rf.logs[prev - rf.lastIncludedIndex]? = some old)
    (hterm : some old.logTerm = args.prevLogTerm) :
    Sound tidy q i G ((rf.adopt (prev - rf.lastIncludedIndex) args.entries).advanceCommit
      args.leaderCommit { followerTerm := args.leaderTerm, success := true })
      (fun G' reply => ReplyOk G' i args reply) := by
  obtain ⟨p, M, L, hprev', hterm', hlt, hent, hends, hL, hML⟩ := hm.entries he
  obtain rfl : prev = p := by simpa [hprev] using hprev'
  have hinv := hG.inv
  have hLi : G.st.leaderLog (G.st.term i) = some L := hT ▸ hL
  have hnum : Numbered M := (hG.numbered _ L hL).shorten hML
  have hkF := h.toPersistOk.prev_le hpos
  have hM_eq : M <+: G.st.log i → M = G.st.log i :=
    eq_of_not_shortens h.toPersistOk (h.term.trans hT).le hfresh hprev hlow hpos hterm hlt hent
  -- the two logs agree up to the previous entry
  have htake : (G.st.log i).take prev = M.take prev := by
    obtain ⟨e, he', -, het, -⟩ := h.log.getElem? (hG.numbered_log i) hlow hkF
    rw [hpos] at he'
    obtain rfl := Option.some.inj he'
    refine take_eq_take (hinv.anchored_log i) ((hinv.anchored_leader _ L hL).shorten hML) hkF
      hlt.le ?_
    rw [hterm'] at hterm
    exact het.symm.trans (Option.some.inj hterm)
  have hdone : G.done i <+: M := by
    rcases List.prefix_or_prefix_of_prefix (h.toPersistOk.done_prefix hG hLi) hML with hp | hp
    · exact hp
    · rw [hM_eq (hp.trans h.done_le)]
      exact h.done_le
  -- the abstract steps: adopt `M`, then acknowledge it
  have hself : (G.st.setLog i M).log i = M := by simp [ReplicatedLog.State.setLog]
  have hinv₁ := hinv.adopt hLi hML hM_eq
  have hinv₂ := hinv₁.addAck hT hL hML (by rw [hself])
  have hx₂ : ReplicatedLog.Ext G.st ((G.st.setLog i M).addAck i args.leaderTerm M) :=
    ReplicatedLog.Ext.setLog.trans (ReplicatedLog.Ext.addAck hT.le)
  have hstep : G.Step q i { G with st := (G.st.setLog i M).addAck i args.leaderTerm M } :=
    Ghost.Step.of_st hx₂ (fun _ _ => rfl)
      (fun k hk => by simp [ReplicatedLog.State.setLog, ReplicatedLog.State.addAck, hk]) rfl
  have hok := hG.of_st hinv₂ hx₂ rfl
  have hlog₂ : ((G.st.setLog i M).addAck i args.leaderTerm M).log i = M := hself
  have hrf : RaftOk tidy { G with st := (G.st.setLog i M).addAck i args.leaderTerm M } i
      (rf.adopt (prev - rf.lastIncludedIndex) args.entries) := by
    refine RunningOk.follower ⟨⟨⟨h.me, Raft.saved_persist _, h.term, ?_, h.base, ?_,
      hstep.committed h.committed, h.snap_le⟩, h.chan⟩, h.commit_le, h.tidy_le⟩ hrole hptr
    · have hH : (rf.adopt (prev - rf.lastIncludedIndex) args.entries).Holds
          ((G.st.log i).take prev ++ args.entries) := h.log.replace hlow hkF rfl rfl
      rw [htake, hent, List.take_append_drop] at hH
      rw [hlog₂, hent]
      exact hH
    · rw [hlog₂]; exact hdone
  have hreply : ∀ G' : Ghost n Cmd, G'.st = (G.st.setLog i M).addAck i args.leaderTerm M →
      ReplyOk G' i args { followerTerm := args.leaderTerm, success := true } := by
    intro G' hG'
    refine ⟨fun _ e he' => ⟨M, ?_, ?_⟩, fun hs => by simp at hs⟩
    · have hlast : M.getLast? = some e := by
        rw [hent] at he'
        rw [← List.take_append_drop prev M, List.getLast?_append, he']
        rfl
      have := hnum.logIndex_lastOf
      rwa [lastOf, hlast] at this
    · rw [hG']
      exact ⟨M, Or.inr ⟨rfl, rfl, rfl⟩, List.prefix_rfl⟩
  obtain ⟨D, hD, hlen⟩ := hm.commit
  rw [← hlen]
  obtain ⟨G', hstep', hok', hend⟩ := advanceCommit_sound (q := q) hok hrf
    (hstep.committed (hT ▸ hD)) (hinv.committedBy_prefix_leaderLog hD le_rfl hL)
    (by rw [hlog₂]; exact hML) _ hreply
  exact ⟨G', hstep.trans hstep', hok', hend⟩

/-- The first entry of a term up to a position has an index up to that of the position.

**Proof sketch.** The entry that is found stands at the position or before it, and its index is that
of its place. -/
lemma Raft.Holds.firstOfTerm_le {F : List (LogEntry Cmd)} (h : rf.Holds F) (hF : Numbered F)
    {k : ℕ} (hlow : rf.lastIncludedIndex ≤ k) (t : ℕ) :
    Raft.firstOfTerm rf.logs (k - rf.lastIncludedIndex) t ≤ k := by
  unfold Raft.firstOfTerm
  split
  · rename_i e he
    have hmem := List.mem_of_mem_tail (List.mem_of_find?_eq_some he)
    obtain ⟨j, hj⟩ := List.getElem?_of_mem hmem
    have hjk : j < k - rf.lastIncludedIndex + 1 := by
      have := (List.getElem?_eq_some_iff.mp hj).1
      rw [List.length_take] at this
      omega
    rw [List.getElem?_take_of_lt hjk] at hj
    have hlen := h.length_logs
    have hjl := (List.getElem?_eq_some_iff.mp hj).1
    have hle := h.le
    obtain ⟨a, ha, hidx, -⟩ := h.getElem? hF (Nat.le_add_left _ j) (by omega)
    rw [Nat.add_sub_cancel, hj] at ha
    obtain rfl := Option.some.inj ha
    omega
  · exact Nat.zero_le _

/-- Two logs agree up to `k` when the first is up to there in a log that holds the second. -/
lemma take_eq_take_within {E : Type*} {F M L : List E} {k : ℕ} (hF : F.take k <+: L) (hM : M <+: L)
    (hkF : k ≤ F.length) (hkM : k ≤ M.length) : F.take k = M.take k := by
  have hle := List.prefix_of_prefix_length_le hF ((List.take_prefix k M).trans hM)
    (by simp only [List.length_take]; omega)
  exact hle.eq_of_length (by simp only [List.length_take]; omega)

/-- The last entries of two logs up to `k + 1` are the ones at position `k`. -/
lemma ne_of_lastOf_take {F M : List (LogEntry Cmd)} {k : ℕ} {a b : LogEntry Cmd}
    (ha : F[k]? = some a) (hb : M[k]? = some b)
    (hne : (lastOf (F.take (k + 1))).logTerm ≠ (lastOf (M.take (k + 1))).logTerm) : a ≠ b := by
  rintro rfl
  rw [List.take_add_one, List.take_add_one, ha, hb] at hne
  exact hne (by simp only [Option.toList_some, lastOf_concat])

/-- An entry that differs from the leader log is behind what is known to be committed. -/
lemma PersistOk.done_lt_of_ne (hG : G.Ok) (h : PersistOk G i rf) {L M : List (LogEntry Cmd)}
    (hL : G.st.leaderLog (G.st.term i) = some L) (hML : M <+: L) {k : ℕ}
    (hkF : k ≤ (G.st.log i).length) (hkM : k ≤ M.length) (hne : (G.st.log i).take k ≠ M.take k) :
    (G.done i).length < k := by
  by_contra hle
  have hdone : (G.st.log i).take k <+: G.done i :=
    List.prefix_of_prefix_length_le (List.take_prefix _ _) h.done_le
      ((List.length_take_le _ _).trans (not_lt.mp hle))
  exact hne (take_eq_take_within (hdone.trans (h.done_prefix hG hL)) hML hkF hkM)

/-- An entry that differs from the leader log of term `T` is of an earlier term: the entries of
the leader's own term are where the leader log has them. -/
lemma Ghost.Ok.logTerm_lt_of_ne (hG : G.Ok) {T : ℕ} (hT : G.st.term i = T)
    {L M : List (LogEntry Cmd)} (hL : G.st.leaderLog T = some L) (hML : M <+: L) {k : ℕ}
    {old : LogEntry Cmd} (hold : (G.st.log i)[k]? = some old) (hkM : k < M.length)
    (hne : (G.st.log i).take (k + 1) ≠ M.take (k + 1)) : old.logTerm < T := by
  have hle : old.logTerm ≤ T := hT ▸ hG.inv.log_le i old (List.mem_of_getElem? hold)
  refine lt_of_le_of_ne hle fun heq => hne ?_
  have hends : (G.st.log i).take (k + 1) = (G.st.log i).take k ++ [old] := by
    rw [List.take_add_one, hold]
    rfl
  obtain ⟨L', hL', hpre⟩ := ((hG.inv.anchored_log i).shorten
    (List.take_prefix (k + 1) (G.st.log i))).prefix_leaderLog ⟨_, old, hends, heq⟩
  obtain rfl := Option.some.inj (hL.symm.trans hL')
  exact take_eq_take_within hpre hML (List.getElem?_eq_some_iff.mp hold).1 hkM

/-- The previous entry differs: the log is cut before it.

**Proof sketch.** What the server has been told is committed lies in the leader log, so the
difference is behind it. Nothing acknowledged in this term is cut, because that would be in the
leader log too. -/
lemma conflict_sound (hG : G.Ok) (h : RaftOk tidy G i rf) (hm : AppendOk G i args)
    (hT : G.st.term i = args.leaderTerm) (hrole : rf.role = .follower)
    (hptr : rf.leaderPtr = none) (he : args.entries ≠ []) {prev : ℕ}
    (hprev : args.prevLogIndex = some prev) (hlow : rf.lastIncludedIndex ≤ prev)
    {old : LogEntry Cmd} (hpos : rf.logs[prev - rf.lastIncludedIndex]? = some old)
    (hterm : some old.logTerm ≠ args.prevLogTerm) :
    Sound tidy q i G (.ok (Raft.persist { rf with
          logs := rf.logs.take (prev - rf.lastIncludedIndex) })
        { followerTerm := args.leaderTerm, success := false, xterm := some old.logTerm,
          xindex := Raft.firstOfTerm rf.logs (prev - rf.lastIncludedIndex) old.logTerm })
      (fun G' reply => ReplyOk G' i args reply) := by
  obtain ⟨p, M, L, hprev', hterm', hlt, -, -, hL, hML⟩ := hm.entries he
  obtain rfl : prev = p := by simpa [hprev] using hprev'
  have hLi : G.st.leaderLog (G.st.term i) = some L := hT ▸ hL
  have hkF := h.toPersistOk.prev_le hpos
  obtain ⟨e, he', -, het, -, hentry⟩ := h.log.getElem? (hG.numbered_log i) hlow hkF
  rw [hpos] at he'
  obtain rfl := Option.some.inj he'
  have hdiff : (lastOf ((G.st.log i).take prev)).logTerm ≠ (lastOf (M.take prev)).logTerm := by
    rw [hterm', het] at hterm
    exact fun heq => hterm (congrArg some heq)
  have hne : (G.st.log i).take prev ≠ M.take prev := fun heq => hdiff (by rw [heq])
  have hdone : (G.done i).length < prev :=
    h.toPersistOk.done_lt_of_ne hG hLi hML hkF hlt.le hne
  have hdone' : G.done i <+: (G.st.log i).take (prev - 1) :=
    List.prefix_of_prefix_length_le h.done_le (List.take_prefix _ _)
      (by rw [List.length_take]; omega)
  have hsnap := h.snap_le
  obtain ⟨k, rfl⟩ : ∃ k, prev = k + 1 := ⟨prev - 1, by omega⟩
  rw [Nat.add_sub_cancel] at hdone' hentry
  have hold := hentry (by omega)
  -- the abstract step: cut the log before the entry that differs
  have hb : M[k]? = some M[k] := List.getElem?_eq_getElem (by omega)
  have hinv₁ := hG.inv.truncate hLi hold (List.prefix_iff_getElem?.mp hML k (by omega))
    (ne_of_lastOf_take hold hb hdiff)
  have hx₁ : ReplicatedLog.Ext G.st (G.st.setLog i ((G.st.log i).take k)) :=
    ReplicatedLog.Ext.setLog
  have hlog₁ : (G.st.setLog i ((G.st.log i).take k)).log i = (G.st.log i).take k := by
    simp [ReplicatedLog.State.setLog]
  have hstep : G.Step q i { G with st := G.st.setLog i ((G.st.log i).take k) } :=
    Ghost.Step.of_st hx₁ (fun _ _ => rfl)
      (fun k hk => by simp [ReplicatedLog.State.setLog, hk]) rfl
  refine ⟨_, hstep, hG.of_st hinv₁ hx₁ rfl, RunningOk.follower ⟨⟨⟨h.me, Raft.saved_persist _,
    h.term, ?_, h.base, ?_, hstep.committed h.committed, h.snap_le⟩, h.chan⟩, h.commit_le,
    h.tidy_le⟩ hrole hptr, fun hs => by simp at hs, fun _ _ => ?_⟩
  · have hcut : k - rf.lastIncludedIndex + 1 = k + 1 - rf.lastIncludedIndex := by omega
    have hl : rf.logs.take (k + 1 - rf.lastIncludedIndex) =
        rf.logs.take (k - rf.lastIncludedIndex + 1) ++ [] := by
      rw [hcut, List.append_nil]
    rw [hlog₁, ← List.append_nil ((G.st.log i).take k)]
    exact h.log.replace (by omega) (by omega) hl rfl
  · rw [hlog₁]
    exact hdone'
  · refine ⟨L, hL, fun hx => by simp at hx, fun t ht => ?_⟩
    obtain rfl : old.logTerm = t := by simpa using ht
    refine ⟨hG.logTerm_lt_of_ne hT hL hML hold (by omega) hne, ?_⟩
    have hfirst := h.log.firstOfTerm_le (hG.numbered_log i) hlow old.logTerm
    have hlen := hML.length_le
    simp only
    omega

/-- **`AppendEntries` refines the replicated log.**

**Proof sketch.** By the cases of the handler. All but the first start with `becomeFollower`, which
raises the term. A refused request leaves the log; its reply names an index within the leader's log.
The three cases that change something have their own lemmas. -/
theorem appendEntries_sound (hG : G.Ok) (h : RaftOk tidy G i rf) (hm : AppendOk G i args)
    (hfresh : ¬ rf.Shortens args) :
    Sound tidy q i G (rf.appendEntries args) (fun G' reply => ReplyOk G' i args reply) := by
  have hspec := Raft.appendEntries_spec rf args
  generalize rf.appendEntries args = o at hspec
  -- every case but the first starts with `becomeFollower`
  have hfollow : rf.currentTerm ≤ args.leaderTerm →
      G.Step q i (G.raise i args.leaderTerm) ∧ (G.raise i args.leaderTerm).Ok ∧
      RaftOk tidy (G.raise i args.leaderTerm) i (rf.becomeFollower args.leaderTerm) ∧
      AppendOk (G.raise i args.leaderTerm) i args := by
    intro hle
    have hle' : G.st.term i ≤ args.leaderTerm := h.term ▸ hle
    have hstep : G.Step q i (G.raise i args.leaderTerm) := Ghost.step_raise hle'
    exact ⟨hstep, hG.raise hle', h.toRunningOk.becomeFollower hle, hm.stable hstep⟩
  have hthen : ∀ {o : Outcome n Cmd Snap AppendEntriesReply},
      rf.currentTerm ≤ args.leaderTerm →
      Sound tidy q i (G.raise i args.leaderTerm) o (fun G' reply => ReplyOk G' i args reply) →
      Sound tidy q i G o (fun G' reply => ReplyOk G' i args reply) := by
    rintro o hle ⟨G', hstep', hok', hend⟩
    exact ⟨G', (hfollow hle).1.trans hstep', hok', hend⟩
  have hT := G.term_raise i args.leaderTerm
  have hnum := hG.numbered_log i
  cases hspec with
  | stale hlt =>
    refine ⟨G, Ghost.Step.refl q i G, hG, h, fun hs => by simp at hs, fun _ hle => ?_⟩
    simp only at hle
    omega
  | heartbeat hle he =>
    obtain ⟨-, hok, hrf, hm'⟩ := hfollow hle
    exact hthen hle (heartbeat_sound hok hrf hm' he hT)
  | below hle he hprev =>
    obtain ⟨hstep, hok, hrf, hm'⟩ := hfollow hle
    refine ⟨_, hstep, hok, hrf, fun hs => by simp at hs, fun _ _ => ?_⟩
    obtain ⟨p, M, L, -, -, hlt, -, -, hL, hML⟩ := hm'.entries he
    have := hML.length_le
    exact ⟨L, hL, fun _ => by simp only; omega, fun t ht => by simp at ht⟩
  | empty hle hlast =>
    obtain ⟨last, hlast', -⟩ := h.log.getLastLog hnum
    rw [hlast] at hlast'
    simp at hlast'
  | beyond hle he prev hprev last hlast hlt =>
    obtain ⟨hstep, hok, hrf, hm'⟩ := hfollow hle
    refine ⟨_, hstep, hok, hrf, fun hs => by simp at hs, fun _ _ => ?_⟩
    obtain ⟨p, M, L, hprev', -, hltM, -, -, hL, hML⟩ := hm'.entries he
    obtain rfl : prev = p := by simpa [hprev] using hprev'
    have := hML.length_le
    exact ⟨L, hL, fun _ => by simp only; omega, fun t ht => by simp at ht⟩
  | outside hle prev last hlow hlast hprev hpos =>
    obtain ⟨last', hlast', hidx, -⟩ := h.log.getLastLog hnum
    rw [hlast] at hlast'
    obtain rfl := Option.some.inj hlast'
    obtain ⟨e, he, -⟩ := h.log.getElem? hnum hlow (hidx ▸ hprev)
    rw [hpos] at he
    simp at he
  | accept hle he prev hprev hlow old hpos hterm =>
    obtain ⟨-, hok, hrf, hm'⟩ := hfollow hle
    refine hthen hle (accept_sound hok hrf hm' hT rfl rfl ?_ he hprev hlow hpos hterm)
    exact fun hs => hfresh ⟨hle, hs.2⟩
  | conflict hle he prev hprev hlow old hpos hterm =>
    obtain ⟨-, hok, hrf, hm'⟩ := hfollow hle
    exact hthen hle (conflict_sound hok hrf hm' hT rfl rfl he hprev hlow hpos hterm)

end AppendEntries

/-! ## `RequestVote` -/

/-- **The first section of `RequestVote` refines the replicated log**: a server that does not
refuse a candidate may vote for it, now and later.

**Proof sketch.** The candidate's log ends as the request says. If the server does not refuse, the
last term is later, or the same with a log that is not shorter; so the log of the candidate is up to
date, and the server may pledge (`pledged_of_upToDate`). -/
theorem requestVoteCheck_sound (hG : G.Ok) (h : RaftOk tidy G i rf) {args : RequestVoteArgs n}
    (hm : ReqOk G args) :
    Sound tidy q i G (rf.requestVoteCheck args) (fun G' chk => chk.refuses args = false →
      VoteOk G' i args.candicateTerm args.candicateId) := by
  have hle : G.st.term i ≤ max (G.st.term i) args.candicateTerm := le_max_left _ _
  have hstep : G.Step q i (G.raise i (max (G.st.term i) args.candicateTerm)) := Ghost.step_raise hle
  have hok := hG.raise hle
  have hrf := h.observe args.candicateTerm
  have hterm := G.term_raise i (max (G.st.term i) args.candicateTerm)
  obtain ⟨last, hlast, hidx, hlt, -⟩ := h.log.getLastLog (hG.numbered_log i)
  obtain ⟨hnone, -⟩ | ⟨last', hlast', heq⟩ := Raft.requestVoteCheck_cases rf args
  · rw [hlast] at hnone
    simp at hnone
  rw [hlast] at hlast'
  obtain rfl := Option.some.inj hlast'
  rw [heq]
  refine ⟨_, hstep, hok, hrf, fun hyes => ?_⟩
  obtain ⟨C, hC, hlen, hCt⟩ := hm.stable hstep
  refine ⟨C, hC, hok.inv.pledged_of_upToDate (by rw [hterm]; exact le_max_right _ _)
    (hok.cand_anchored _ _ C hC) fun P a ha => ?_⟩
  have hlog : G.st.log i = P ++ [a] := ha
  simp only [VoteCheck.refuses, Bool.or_eq_false_iff, Bool.and_eq_false_iff,
    decide_eq_false_iff_not, hidx, hlt, ← hCt, ← hlen, hlog, lastOf_concat, List.length_append,
    List.length_singleton] at hyes
  obtain ⟨-, hge, hsame⟩ := hyes
  rcases List.eq_nil_or_concat' C with rfl | ⟨P', b, rfl⟩
  · -- the empty log is behind every other one
    simp only [lastOf_nil, Raft.dummyLog, List.length_nil] at hge hsame
    omega
  · refine ⟨P', b, rfl, ?_⟩
    rw [lastOf_concat] at hge hsame
    rw [ha]
    simp only [List.length_append, List.length_singleton] at hsame ⊢
    omega

/-- Recording the vote changes nothing that the abstract state shows. -/
lemma RaftOk.requestVoteGrant (h : RaftOk tidy G i rf) (args : RequestVoteArgs n) :
    RaftOk tidy G i (rf.requestVoteGrant args).1 := by
  refine Raft.requestVoteGrant_rule args h ?_
  exact ⟨⟨⟨⟨h.me, Raft.saved_persist _, h.term, ⟨h.log.le, h.log.logs, h.log.term, h.log.cmd⟩,
    h.base, h.done_le, h.committed, h.snap_le⟩, h.chan⟩, h.commit_le, h.tidy_le⟩, h.role,
    h.leader, h.candidate⟩

end Mit6824
