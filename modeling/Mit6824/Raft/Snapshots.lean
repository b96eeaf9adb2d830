import Mit6824.Raft.Follower
import Mit6824.Raft.Terms

set_option autoImplicit false

/-!
# Snapshots refine the replicated log

`InstallSnapshot`, `TakeSnapshot` and the request of `doInstallSnapshotRPC`. A snapshot stands for
a committed prefix of the full log: compacting the log keeps the full log, and installing a
snapshot keeps it when it has that prefix and replaces it by the prefix otherwise.

## Main results

* `Mit6824.installSnapshot_sound`, `Mit6824.takeSnapshot_sound`.
* `Mit6824.RaftOk.snapOk` — the snapshot a server sends covers committed entries.
-/

namespace Mit6824

open ReplicatedLog (EndsIn)

variable {n : ℕ} {Cmd Snap : Type} {tidy : Prop} {q : ℕ → Fin n → Prop} {i : Fin n}
  {G : Ghost n Cmd} {rf : Raft n Cmd Snap}

/-! ## Acknowledging a committed prefix -/

/-- Server `i` acknowledges `X` in its term. -/
def Ghost.acknowledge (G : Ghost n Cmd) (i : Fin n) (X : List (LogEntry Cmd)) : Ghost n Cmd :=
  { G with st := G.st.addAck i (G.st.term i) X }

/-- An acknowledgement is a step. -/
lemma Ghost.step_acknowledge (X : List (LogEntry Cmd)) : G.Step q i (G.acknowledge i X) :=
  Ghost.Step.of_st (ReplicatedLog.Ext.addAck le_rfl) (fun _ _ => rfl) (fun _ _ => rfl) rfl

/-- The server has acknowledged what it acknowledges. -/
lemma Ghost.acked_acknowledge (G : Ghost n Cmd) (i : Fin n) (X : List (LogEntry Cmd)) :
    (G.acknowledge i X).st.Acked i (G.st.term i) X :=
  ⟨X, Or.inr ⟨rfl, rfl, rfl⟩, List.prefix_rfl⟩

/-- A server may acknowledge a prefix of its log and of the leader log. -/
lemma Ghost.Ok.acknowledge (h : G.Ok) {X L : List (LogEntry Cmd)}
    (hL : G.st.leaderLog (G.st.term i) = some L) (hXL : X <+: L) (hX : X <+: G.st.log i) :
    (G.acknowledge i X).Ok :=
  h.of_st (h.inv.addAck rfl hL hXL hX) (ReplicatedLog.Ext.addAck le_rfl) rfl

/-- An acknowledgement leaves the server as it is. -/
lemma RaftOk.acknowledge (h : RaftOk tidy G i rf) (X : List (LogEntry Cmd)) :
    RaftOk tidy (G.acknowledge i X) i rf := by
  have hstep : G.Step (fun _ _ => True) i (G.acknowledge i X) := Ghost.step_acknowledge X
  refine ⟨⟨⟨⟨h.me, h.saved, h.term, h.log, h.base, h.done_le, hstep.committed h.committed,
    h.snap_le⟩, h.chan⟩, h.commit_le, h.tidy_le⟩, h.role, fun l hl => ?_, fun hc => ?_⟩
  · have hl' := h.leader l hl
    exact ⟨hl'.lead, hl'.log, hstep.ext.acked hl'.self, fun j => (hl'.mtch j).stable hstep,
      fun j hj => (hl'.next j hj).stable hstep⟩
  · obtain ⟨hlead, C, hC, hrest⟩ := h.candidate hc
    refine ⟨hlead, C, hC, hrest.imp_right ?_⟩
    rintro ⟨P, hP, hnot⟩
    exact ⟨P, hstep.committed hP, hnot⟩

/-- A committed prefix of a term without a leader log has only older entries. -/
lemma Ghost.Ok.logTerm_lt_of_committed (hG : G.Ok) {T : ℕ} {P : List (LogEntry Cmd)}
    (hP : G.Committed T P) (hnone : G.st.leaderLog T = none) : ∀ e ∈ P, e.logTerm < T := by
  intro e he
  rcases hP with rfl | ⟨t, ht, Y, ⟨-, ⟨L, hL, hYL⟩, -⟩, hPY⟩
  · simp at he
  · have hlt : t < T := lt_of_le_of_ne ht (by rintro rfl; rw [hnone] at hL; simp at hL)
    exact (hG.inv.le_term t L hL e ((hPY.trans hYL).subset he)).trans_lt hlt

/-- A server whose snapshot covers the committed prefix `P` acknowledges it, unless there is no
leader log to hold it against. -/
lemma installed_sound (hG : G.Ok) (h : RaftOk tidy G i rf) {args : InstallSnapshotArgs n Snap}
    (hT : G.st.term i = args.term) {P : List (LogEntry Cmd)} (hP : G.Committed args.term P)
    (hlen : P.length = args.lastIncludedIndex) (hlog : P <+: G.st.log i)
    (hbase : args.lastIncludedIndex ≤ G.base i) (reply : InstallSnapshotReply) :
    Sound tidy q i G (.ok rf reply)
      (fun G' reply => reply.term ≤ args.term → InstalledOk G' i args) := by
  cases hL : G.st.leaderLog args.term with
  | none =>
    exact ⟨G, Ghost.Step.refl q i G, hG, h, fun _ => ⟨P, hP, hlen,
      Or.inr ⟨hbase, hG.logTerm_lt_of_committed hP hL⟩⟩⟩
  | some L =>
    have hPL := hG.inv.committedBy_prefix_leaderLog hP le_rfl hL
    have hstep : G.Step q i (G.acknowledge i P) := Ghost.step_acknowledge P
    exact ⟨_, hstep, hG.acknowledge (hT ▸ hL) hPL hlog, h.acknowledge P, fun _ =>
      ⟨P, hstep.committed hP, hlen, Or.inl (hT ▸ G.acked_acknowledge i P)⟩⟩

/-! ## `InstallSnapshot` -/

section Install

variable {args : InstallSnapshotArgs n Snap} {P : List (LogEntry Cmd)}

/-- Server `i` has the log `F` now, knows that `D` is committed, and its snapshot reaches `b`. -/
def Ghost.install (G : Ghost n Cmd) (i : Fin n) (F D : List (LogEntry Cmd)) (b : ℕ) :
    Ghost n Cmd :=
  { G with
    st := G.st.setLog i F
    done := Function.update G.done i D
    base := Function.update G.base i b }

/-- The log after a snapshot. -/
lemma Ghost.log_install (G : Ghost n Cmd) (i : Fin n) (F D : List (LogEntry Cmd)) (b : ℕ) :
    (G.install i F D b).st.log i = F := by
  simp [Ghost.install, ReplicatedLog.State.setLog]

/-- What the server knows to be committed after a snapshot. -/
lemma Ghost.done_install (G : Ghost n Cmd) (i : Fin n) (F D : List (LogEntry Cmd)) (b : ℕ) :
    (G.install i F D b).done i = D := by
  simp [Ghost.install]

/-- The index of the snapshot. -/
lemma Ghost.base_install (G : Ghost n Cmd) (i : Fin n) (F D : List (LogEntry Cmd)) (b : ℕ) :
    (G.install i F D b).base i = b := by
  simp [Ghost.install]

/-- Installing a snapshot is a step if it moves nothing back. -/
lemma Ghost.step_install {F D : List (LogEntry Cmd)} {b : ℕ} (hD : G.done i <+: D)
    (hb : G.base i ≤ b) : G.Step q i (G.install i F D b) := by
  have hs : G.Step q i { G with st := G.st.setLog i F } :=
    Ghost.Step.of_st ReplicatedLog.Ext.setLog (fun _ _ => rfl)
      (fun k hk => by simp [ReplicatedLog.State.setLog, hk]) rfl
  exact (hs.trans (Ghost.Step.of_done hD)).trans (Ghost.Step.of_base hb)

/-- There is a log to keep or to drop, so `InstallSnapshot` does not panic. -/
lemma Raft.Holds.logsAfterInstall_ne_none {F : List (LogEntry Cmd)} (h : rf.Holds F)
    (hF : Numbered F) (hlt : rf.lastIncludedIndex < args.lastIncludedIndex) :
    rf.logsAfterInstall args ≠ none := by
  obtain ⟨last, hlast, hidx, -⟩ := h.getLastLog hF
  simp only [Raft.logsAfterInstall, hlast]
  split_ifs with hlong
  · obtain ⟨e, he, -⟩ := h.logAt hF hlt.le (hidx ▸ hlong).le
    rw [he]
    dsimp only
    split_ifs <;> simp
  · simp

/-- The full log under an installed snapshot of `P` is the old one if that has `P`, and `P`
otherwise.

**Proof sketch.** Where the log reaches past the snapshot and has the snapshot's term at its index,
it agrees with `P` up to there and the entries above stay. Otherwise only the sentinel is left,
and that is `P`; the log has no other way to have the prefix `P` than to be `P`. -/
lemma Raft.Holds.install {F : List (LogEntry Cmd)} (h : rf.Holds F) (hF : Numbered F)
    (hlen : P.length = args.lastIncludedIndex) (hterm : args.lastIncludedTerm = (lastOf P).logTerm)
    (hcmd : args.lastIncludedCmdIndex = (lastOf P).commandIndex)
    (hmatch : P.length ≤ F.length → (lastOf (F.take P.length)).logTerm = (lastOf P).logTerm →
      F.take P.length = P)
    {logs : List (LogEntry Cmd)} (hlogs : rf.logsAfterInstall args = some logs)
    {rf' : Raft n Cmd Snap} (he' : rf'.encodeRaftState = ⟨rf'.currentTerm, rf'.votedFor, logs,
      args.lastIncludedIndex, args.lastIncludedTerm, args.lastIncludedCmdIndex⟩) :
    ∃ F', rf'.Holds F' ∧ (F' = F ∧ P <+: F ∨ F' = P ∧ ¬ P <+: F) := by
  simp only [Raft.encodeRaftState, RaftState.mk.injEq, true_and] at he'
  obtain ⟨hl, hii, hit, hic⟩ := he'
  have hholdsP : logs = [Raft.dummyLog args.lastIncludedIndex args.lastIncludedTerm
      args.lastIncludedCmdIndex] → rf'.Holds P := by
    intro hone
    have htake : P.take rf'.lastIncludedIndex = P := by rw [hii, ← hlen, List.take_length]
    refine ⟨by rw [hii, hlen], ⟨_, by rw [hl, hone, hii, List.drop_eq_nil_of_le hlen.le],
      ?_⟩, ?_, ?_⟩
    · rw [htake, hii]
      exact ⟨rfl, hterm, hcmd⟩
    · rw [htake, hit, hterm]
    · rw [htake, hic, hcmd]
  obtain ⟨last, hlast, hcases⟩ := Raft.logsAfterInstall_cases hlogs
  obtain ⟨last', hlast', hidx, -⟩ := h.getLastLog hF
  rw [hlast] at hlast'
  obtain rfl := Option.some.inj hlast'
  rcases hcases with ⟨hshort, hone⟩ | ⟨e, hlong, hat, hcases⟩
  · refine ⟨P, hholdsP hone, ?_⟩
    by_cases hP : P <+: F
    · exact Or.inl ⟨hP.eq_of_length (by have := hP.length_le; omega), hP⟩
    · exact Or.inr ⟨rfl, hP⟩
  · obtain ⟨hlow, hle, heidx, het, hec, -⟩ := h.of_logAt hF hat
    rw [← hlen] at hle het hec
    rcases hcases with ⟨hne, hone⟩ | ⟨heq, hkeep⟩
    · refine ⟨P, hholdsP hone, Or.inr ⟨rfl, fun hP => hne ?_⟩⟩
      rw [het, hterm, ← List.prefix_iff_eq_take.mp hP]
    · have htake := hmatch hle (by rw [← het, heq, hterm])
      have hpos : rf.logs[args.lastIncludedIndex - rf.lastIncludedIndex]? = some e := by
        simpa [Raft.logAt, not_lt.mpr hlow] using hat
      have hdrop := h.drop_cons hlow hpos
      have hcopy : last.logIndex - args.lastIncludedIndex + 1 =
          (e :: F.drop args.lastIncludedIndex).length := by
        simp only [List.length_cons, List.length_drop]
        omega
      rw [hdrop, hcopy, Raft.copyInto_length] at hkeep
      have htake' : F.take rf'.lastIncludedIndex = P := by rw [hii, ← hlen, htake]
      refine ⟨F, ⟨by rw [hii]; omega, ⟨_, by rw [hl, hkeep, hii]; rfl, ?_⟩, ?_, ?_⟩,
        Or.inl ⟨rfl, htake ▸ List.take_prefix _ _⟩⟩
      · rw [hii, heidx, het, hec, htake, ← hlen, htake]
        exact ⟨rfl, rfl, rfl⟩
      · rw [htake', hit, hterm]
      · rw [htake', hic, hcmd]

/-- A leader has every committed prefix, so a snapshot does not replace its log. -/
lemma LeaderOk.install (hG : G.Ok) {l : Leader n} (h : LeaderOk G i l)
    (hP : G.Committed (G.st.term i) P) {F D : List (LogEntry Cmd)} {b : ℕ}
    (hF : F = G.st.log i ∨ ¬ P <+: G.st.log i) (hstep : G.Step q i (G.install i F D b)) :
    LeaderOk (G.install i F D b) i l := by
  obtain rfl : F = G.st.log i :=
    hF.resolve_right fun hnot => hnot (hG.inv.committedBy_prefix_leaderLog hP le_rfl h.log)
  refine ⟨h.lead, ?_, ?_, fun j => ?_, fun j hj => ?_⟩ <;> rw [Ghost.log_install]
  · exact h.log
  · exact hstep.ext.acked h.self
  · exact (h.mtch j).stable hstep
  · exact (h.next j hj).stable hstep

/-- A candidate stays one when a snapshot replaces its log, since the snapshot is committed. -/
lemma CandidateOk.install (h : CandidateOk G i) (hP : G.Committed (G.st.term i) P)
    {F D : List (LogEntry Cmd)} {b : ℕ} (hF : F = G.st.log i ∨ ¬ P <+: G.st.log i)
    (hstep : G.Step q i (G.install i F D b)) : CandidateOk (G.install i F D b) i := by
  obtain ⟨hlead, C, hC, hlog⟩ := h
  refine ⟨hlead, C, hC, ?_⟩
  rw [Ghost.log_install]
  rcases hlog with rfl | ⟨X, hX, hnot⟩
  · exact hF.imp_right fun hnot => ⟨P, hstep.committed hP, hnot⟩
  · exact Or.inr ⟨X, hstep.committed hX, hnot⟩

/-- The server after `InstallSnapshot` has taken the snapshot of `P`.

**Proof sketch.** The new log is the old one, if this has `P`, or it is `P`. In the first case the
server learns that `P` is committed; in the second the log is replaced by a committed prefix, which
comes behind all that it knew to be committed. -/
lemma install_sound (hG : G.Ok) (h : RaftOk tidy G i rf) (hT : G.st.term i = args.term)
    (hP : G.Committed args.term P) (hlen : P.length = args.lastIncludedIndex)
    (hterm : args.lastIncludedTerm = (lastOf P).logTerm)
    (hcmd : args.lastIncludedCmdIndex = (lastOf P).commandIndex)
    (hlt : rf.lastIncludedIndex < args.lastIncludedIndex) {logs : List (LogEntry Cmd)}
    (hlogs : rf.logsAfterInstall args = some logs) (reply : InstallSnapshotReply) :
    Sound tidy q i G (.ok (Raft.installSnapshotToApplication (Raft.saveStateAndSnapshot
        { rf with
          logs := logs
          lastIncludedIndex := args.lastIncludedIndex
          lastIncludedTerm := args.lastIncludedTerm
          lastIncludedCmdIndex := args.lastIncludedCmdIndex } args.data)) reply)
      (fun G' reply => reply.term ≤ args.term → InstalledOk G' i args) := by
  have hinv := hG.inv
  have hmatch : P.length ≤ (G.st.log i).length →
      (lastOf ((G.st.log i).take P.length)).logTerm = (lastOf P).logTerm →
      (G.st.log i).take P.length = P := by
    intro hle ht
    have := take_eq_take (hinv.anchored_log i) (hinv.anchored_of_committedBy hP) hle le_rfl
      (by rw [List.take_length]; exact ht)
    rwa [List.take_length] at this
  obtain ⟨rf', hrf'⟩ : ∃ rf', rf' = Raft.installSnapshotToApplication (Raft.saveStateAndSnapshot
      { rf with
        logs := logs
        lastIncludedIndex := args.lastIncludedIndex
        lastIncludedTerm := args.lastIncludedTerm
        lastIncludedCmdIndex := args.lastIncludedCmdIndex } args.data) := ⟨_, rfl⟩
  have henc : rf'.encodeRaftState = ⟨rf'.currentTerm, rf'.votedFor, logs, args.lastIncludedIndex,
      args.lastIncludedTerm, args.lastIncludedCmdIndex⟩ := by rw [hrf']; rfl
  obtain ⟨F', hF', hcases⟩ :=
    h.log.install (hG.numbered_log i) hlen hterm hcmd hmatch hlogs henc
  -- the abstract step: the log, the committed prefix and the index of the snapshot
  have hinv' : ReplicatedLog.Inv LogEntry.logTerm (majority n) (G.st.setLog i F') := by
    rcases hcases with ⟨rfl, -⟩ | ⟨rfl, hnot⟩
    · rwa [ReplicatedLog.State.setLog_self]
    · exact hinv.install (hT ▸ hP) hnot
  obtain ⟨D, hD, hPD, hDF, hDc⟩ : ∃ D, G.done i <+: D ∧ P <+: D ∧ D <+: F' ∧
      G.Committed (G.st.term i) D := by
    rcases hcases with ⟨rfl, hpre⟩ | ⟨rfl, hnot⟩
    · exact h.toPersistOk.exists_learn hpre (hT ▸ hP)
    · refine ⟨F', ?_, List.prefix_rfl, List.prefix_rfl, hT ▸ hP⟩
      rcases hinv.committedBy_comparable h.committed hP with hle | hle
      · exact hle
      · exact absurd (hle.trans h.done_le) hnot
  have hstep : G.Step q i (G.install i F' D args.lastIncludedIndex) :=
    Ghost.step_install hD (h.base.trans_le hlt.le)
  have hok : (G.install i F' D args.lastIncludedIndex).Ok :=
    ((hG.of_st hinv' ReplicatedLog.Ext.setLog rfl).of_done _).of_base _
  have hDlen : args.lastIncludedIndex ≤ D.length := hlen ▸ hPD.length_le
  have hkept : F' = G.st.log i ∨ ¬ P <+: G.st.log i := hcases.imp And.left And.right
  have hrf : RaftOk tidy (G.install i F' D args.lastIncludedIndex) i rf' := by
    subst hrf'
    refine ⟨⟨⟨⟨h.me, (Raft.saved_saveStateAndSnapshot _ _).congr rfl rfl rfl, h.term, ?_, ?_, ?_,
      ?_, ?_⟩, ?_⟩, ?_, fun _ => le_rfl⟩, h.role,
      fun l hl => (h.leader l hl).install hG (hT ▸ hP) hkept hstep,
      fun hc => (h.candidate hc).install (hT ▸ hP) hkept hstep⟩
    · rw [Ghost.log_install]; exact hF'
    · exact Ghost.base_install _ _ _ _ _
    · rw [Ghost.log_install, Ghost.done_install]; exact hDF
    · rw [Ghost.done_install]; exact hstep.committed hDc
    · rw [Ghost.done_install]; exact hDlen
    · rw [Ghost.done_install]
      intro m hm
      rcases List.mem_append.mp hm with hm | hm
      · exact (h.chan m hm).mono hD
      · obtain rfl := List.mem_singleton.mp hm
        exact ⟨hDlen, fun _ hv => by simp at hv⟩
    · rw [Ghost.done_install]; exact hDlen
  subst hrf'
  obtain ⟨G', hstep', hok', hend⟩ := installed_sound (q := q) hok hrf hT (hstep.committed hP) hlen
    (by rw [Ghost.log_install]; exact hPD.trans hDF)
    (G.base_install i F' D _).ge reply
  exact ⟨G', hstep.trans hstep', hok', hend⟩

/-- **`InstallSnapshot` refines the replicated log.**

**Proof sketch.** A stale request is refused. Any other raises the term first. If the server's own
snapshot is not behind, it has the prefix already; if not, the handler does not panic and it is
`install_sound`. -/
theorem installSnapshot_sound (hG : G.Ok) (h : RaftOk tidy G i rf) (hm : SnapOk G args) :
    Sound tidy q i G (rf.installSnapshot args)
      (fun G' reply => reply.term ≤ args.term → InstalledOk G' i args) := by
  have hspec := Raft.installSnapshot_spec rf args
  generalize rf.installSnapshot args = o at hspec
  obtain ⟨P, hP, hlen, hterm, hcmd⟩ := hm
  -- a request that is not of an old term brings the server to its term
  have hthen : rf.currentTerm ≤ args.term → ∀ o : Outcome n Cmd Snap InstallSnapshotReply,
      (∀ G₁ : Ghost n Cmd, G₁.Ok → RaftOk tidy G₁ i (rf.observe args.term) →
        G₁.st.term i = args.term → G₁.Committed args.term P →
        Sound tidy q i G₁ o (fun G' reply => reply.term ≤ args.term → InstalledOk G' i args)) →
      Sound tidy q i G o (fun G' reply => reply.term ≤ args.term → InstalledOk G' i args) := by
    intro hle o hcont
    have hle' : G.st.term i ≤ args.term := h.term ▸ hle
    have hstep : G.Step q i (G.raise i args.term) := Ghost.step_raise hle'
    have hrf := h.observe args.term
    rw [max_eq_right hle'] at hrf
    obtain ⟨G', hstep', hrest⟩ := hcont _ (hG.raise hle') hrf (G.term_raise i args.term)
      (hstep.committed hP)
    exact ⟨G', hstep.trans hstep', hrest⟩
  cases hspec with
  | stale hlt =>
    refine ⟨G, Ghost.Step.refl q i G, hG, h, fun hle => ?_⟩
    simp only at hle
    omega
  | behind hle hbelow =>
    refine hthen hle _ fun G₁ hG₁ h₁ hT hP₁ => ?_
    have hbase : G₁.base i = rf.lastIncludedIndex :=
      h₁.base.trans (Raft.lastIncludedIndex_observe _ _)
    have hsnap := h₁.snap_le
    rw [Raft.lastIncludedIndex_observe] at hsnap
    have hdone : P <+: G₁.done i := by
      rcases hG₁.inv.committedBy_comparable hP₁ h₁.committed with hpre | hpre
      · exact hpre
      · exact (hpre.eq_of_length (by have := hpre.length_le; omega)) ▸ List.prefix_rfl
    exact installed_sound hG₁ h₁ hT hP₁ hlen (hdone.trans h₁.done_le) (hbelow.trans hbase.ge) _
  | panic hle hlt hnone =>
    exact absurd hnone (h.log.logsAfterInstall_ne_none (hG.numbered_log i) hlt)
  | install hle hlt logs hlogs =>
    refine hthen hle _ fun G₁ hG₁ h₁ hT hP₁ => ?_
    exact install_sound hG₁ h₁ hT hP₁ hlen hterm hcmd
      (by rw [Raft.lastIncludedIndex_observe]; exact hlt)
      ((rf.logsAfterInstall_observe _ _).trans hlogs) _

end Install

/-! ## `TakeSnapshot` and the snapshot request -/

/-- **`TakeSnapshot` refines the replicated log**, when the service asks for what it was sent.

**Proof sketch.** The index is committed, so it is in the log and the entry can be read. Only the
base of the snapshot changes in the abstract state. -/
theorem takeSnapshot_sound (hG : G.Ok) (h : RaftOk tidy G i rf) (snapshot : Option Snap) {k : ℕ}
    (hk : k ≤ (G.done i).length) (htidy : tidy → k ≤ rf.commitIndex) :
    Sound tidy q i G (rf.takeSnapshot snapshot k) (fun _ _ => True) := by
  have hnum := hG.numbered_log i
  have hkF : k ≤ (G.st.log i).length := hk.trans h.done_le.length_le
  obtain ⟨-, heq⟩ | ⟨hlt, hnone, -⟩ | ⟨e, hlt, he, heq⟩ := Raft.takeSnapshot_cases rf snapshot k
  · rw [heq]
    exact ⟨G, Ghost.Step.refl q i G, hG, h, trivial⟩
  · obtain ⟨e, he, -⟩ := h.log.logAt hnum hlt.le hkF
    rw [hnone] at he
    simp at he
  · rw [heq]
    obtain ⟨-, -, heidx, het, hec, -⟩ := h.log.of_logAt hnum he
    have hpos : rf.logs[k - rf.lastIncludedIndex]? = some e := by
      simpa [Raft.logAt, not_lt.mpr hlt.le] using he
    have hstep : G.Step q i { G with base := Function.update G.base i k } :=
      Ghost.Step.of_base (h.base.trans_le hlt.le)
    refine ⟨_, hstep, hG.of_base _, ⟨⟨⟨⟨h.me, Raft.saved_saveStateAndSnapshot _ _, h.term,
      ⟨hkF, ⟨{ e with command := none }, ?_, heidx, het, hec⟩, het, hec⟩, ?_, h.done_le,
      h.committed, hk⟩, h.chan⟩, h.commit_le, htidy⟩, h.role, fun l hl => ?_, h.candidate⟩, trivial⟩
    · change Raft.dropCommand (rf.logs.drop (k - rf.lastIncludedIndex)) = _
      rw [h.log.drop_cons hlt.le hpos]
      rfl
    · exact Function.update_self i k G.base
    · have hl' := h.leader l hl
      exact ⟨hl'.lead, hl'.log, hl'.self, fun j => (hl'.mtch j).stable hstep,
        fun j hj => (hl'.next j hj).stable hstep⟩

/-- The snapshot request of any server covers committed entries. -/
lemma RaftOk.snapOk (h : RaftOk tidy G i rf) : SnapOk G rf.buildInstall := by
  refine ⟨(G.st.log i).take rf.lastIncludedIndex, ?_, List.length_take_of_le h.log.le, h.log.term,
    h.log.cmd⟩
  have hpre : (G.st.log i).take rf.lastIncludedIndex <+: G.done i :=
    List.prefix_of_prefix_length_le (List.take_prefix _ _) h.done_le
      ((List.length_take_le _ _).trans h.snap_le)
  have hterm : rf.buildInstall.term = G.st.term i := h.term
  rw [hterm]
  exact h.committed.shorten hpre

end Mit6824
