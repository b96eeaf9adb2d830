import Mit6824.ReplicatedLog.Steps
import Mit6824.Raft.FullLog
import Mit6824.Raft.Elections

set_option autoImplicit false

/-!
# The replicated log behind a cluster

The abstract state of `ReplicatedLog` that a cluster refines, with what is needed besides it to
say what a message or a goroutine knows, and the relation of every server and every message to it.

## Main definitions

* `Mit6824.Ghost` — full logs and acknowledgements, the leader of each term, the logs of the
  candidates, and for each server the prefix it has been told is committed.
* `Mit6824.Ghost.Ok` — the invariant of the ghost state itself.
* `Mit6824.Ghost.Step` — what a step of server `i` may change in it.
* `Mit6824.PersistOk`, `Mit6824.RunningOk`, `Mit6824.RaftOk`, `Mit6824.NodeOk`, `Mit6824.MsgOk` —
  servers and messages agree with the ghost state.
* `Mit6824.Refines` — all of this for a cluster.

## Design

* `tidy` is a proposition that the results switch on when snapshots never run ahead of
  `commitIndex`: then the log above the snapshot is all the commit loops read.
* A server's `done` may be ahead of its `commitIndex`, which moves back when a snapshot is
  installed or the server restarts.
* The facts about messages and about servers that do not move are stable under `Ghost.Step`, so
  a step needs to be checked only for the server that makes it and for what it sends.
-/

namespace Mit6824

open ReplicatedLog (EndsIn)

variable {n : ℕ} {Cmd Snap : Type}

/-- The abstract state behind a cluster. -/
structure Ghost (n : ℕ) (Cmd : Type) where
  /-- terms, full logs, leader logs and acknowledgements -/
  st : ReplicatedLog.State (Fin n) (LogEntry Cmd)
  /-- the leader of a term -/
  lead : ℕ → Option (Fin n)
  /-- the log of a candidate when it entered the term -/
  cand : ℕ → Fin n → Option (List (LogEntry Cmd))
  /-- what the server has been told is committed -/
  done : Fin n → List (LogEntry Cmd)
  /-- `lastIncludedIndex` of the server -/
  base : Fin n → ℕ

namespace Ghost

/-- `X` was committed in a term up to `t`. -/
def Committed (G : Ghost n Cmd) (t : ℕ) (X : List (LogEntry Cmd)) : Prop :=
  G.st.CommittedBy LogEntry.logTerm (majority n) t X

/-- Server `k` has voted, or may vote, for a candidate of term `t` with log `C`. -/
def Pledged (G : Ghost n Cmd) (k : Fin n) (t : ℕ) (C : List (LogEntry Cmd)) : Prop :=
  G.st.Pledged LogEntry.logTerm (majority n) k t C

/-- The invariant of the abstract state. -/
structure Ok (G : Ghost n Cmd) : Prop where
  inv : ReplicatedLog.Inv LogEntry.logTerm (majority n) G.st
  numbered : ∀ T L, G.st.leaderLog T = some L → Numbered L
  has_lead : ∀ T L, G.st.leaderLog T = some L → ∃ s, G.lead T = some s
  lead_le : ∀ T s, G.lead T = some s → T ≤ G.st.term s
  cand_le : ∀ T A C, G.cand T A = some C → T ≤ G.st.term A
  cand_anchored : ∀ T A C, G.cand T A = some C → G.st.Anchored LogEntry.logTerm C

/-- Every anchored log is numbered. -/
lemma Ok.numbered_of_anchored {G : Ghost n Cmd} (h : G.Ok) {F : List (LogEntry Cmd)}
    (hF : G.st.Anchored LogEntry.logTerm F) : Numbered F := by
  rcases List.eq_nil_or_concat' F with rfl | ⟨P, e, rfl⟩
  · exact Numbered.nil
  · obtain ⟨L, hL, hp⟩ := hF P e List.prefix_rfl
    exact (h.numbered _ L hL).shorten hp

/-- All logs are numbered. -/
lemma Ok.numbered_log {G : Ghost n Cmd} (h : G.Ok) (i : Fin n) : Numbered (G.st.log i) :=
  h.numbered_of_anchored (h.inv.anchored_log i)

/-- What a step of server `i` may change: its own term, log, committed prefix and snapshot
index, new candidates, and the leader log of a term that it leads. A new leader is server `i`,
and `q` says why. -/
structure Step (q : ℕ → Fin n → Prop) (i : Fin n) (G G' : Ghost n Cmd) : Prop where
  ext : ReplicatedLog.Ext G.st G'.st
  term : ∀ k, k ≠ i → G'.st.term k = G.st.term k
  log : ∀ k, k ≠ i → G'.st.log k = G.st.log k
  done : ∀ k, k ≠ i → G'.done k = G.done k
  done_le : G.done i <+: G'.done i
  base : ∀ k, k ≠ i → G'.base k = G.base k
  base_le : G.base i ≤ G'.base i
  cand : ∀ T A C, G.cand T A = some C → G'.cand T A = some C
  lead : ∀ T s, G.lead T = some s → G'.lead T = some s
  lead_new : ∀ T s, G'.lead T = some s → G.lead T = some s ∨ s = i ∧ q T s
  leaderLog : ∀ T, G'.st.leaderLog T = G.st.leaderLog T ∨ G'.lead T = some i

namespace Step

variable {q : ℕ → Fin n → Prop} {i : Fin n} {G G' G'' : Ghost n Cmd}

/-- A step that changes nothing. -/
lemma refl (q : ℕ → Fin n → Prop) (i : Fin n) (G : Ghost n Cmd) : Step q i G G where
  ext := ReplicatedLog.Ext.refl _
  term _ _ := rfl
  log _ _ := rfl
  done _ _ := rfl
  done_le := List.prefix_rfl
  base _ _ := rfl
  base_le := le_rfl
  cand _ _ _ h := h
  lead _ _ h := h
  lead_new _ _ h := Or.inl h
  leaderLog _ := Or.inl rfl

/-- One step after another. -/
lemma trans (h : Step q i G G') (h' : Step q i G' G'') : Step q i G G'' where
  ext := h.ext.trans h'.ext
  term k hk := (h'.term k hk).trans (h.term k hk)
  log k hk := (h'.log k hk).trans (h.log k hk)
  done k hk := (h'.done k hk).trans (h.done k hk)
  done_le := h.done_le.trans h'.done_le
  base k hk := (h'.base k hk).trans (h.base k hk)
  base_le := h.base_le.trans h'.base_le
  cand T A C hC := h'.cand T A C (h.cand T A C hC)
  lead T s hs := h'.lead T s (h.lead T s hs)
  lead_new T s hs := by
    rcases h'.lead_new T s hs with hs' | hq
    · exact h.lead_new T s hs'
    · exact Or.inr hq
  leaderLog T := by
    rcases h'.leaderLog T with heq | hl
    · rcases h.leaderLog T with heq' | hl'
      · exact Or.inl (heq.trans heq')
      · exact Or.inr (h'.lead T i hl')
    · exact Or.inr hl

/-- Snapshot indexes do not go back. -/
lemma base_mono (h : Step q i G G') (k : Fin n) : G.base k ≤ G'.base k := by
  by_cases hk : k = i
  · subst hk; exact h.base_le
  · exact (h.base k hk).ge

/-- What is committed stays committed. -/
lemma committed (h : Step q i G G') {t : ℕ} {X : List (LogEntry Cmd)} (hX : G.Committed t X) :
    G'.Committed t X :=
  h.ext.committedBy hX

/-- A step that changes the abstract state, but no leader log. -/
lemma of_st {g : ReplicatedLog.State (Fin n) (LogEntry Cmd)} (hx : ReplicatedLog.Ext G.st g)
    (hterm : ∀ k, k ≠ i → g.term k = G.st.term k) (hlog : ∀ k, k ≠ i → g.log k = G.st.log k)
    (hll : g.leaderLog = G.st.leaderLog) : Step q i G { G with st := g } where
  ext := hx
  term := hterm
  log := hlog
  done _ _ := rfl
  done_le := List.prefix_rfl
  base _ _ := rfl
  base_le := le_rfl
  cand _ _ _ h := h
  lead _ _ h := h
  lead_new _ _ h := Or.inl h
  leaderLog T := Or.inl (congrFun hll T)

/-- A step in which server `i` learns of more committed entries. -/
lemma of_done {D : List (LogEntry Cmd)} (hD : G.done i <+: D) :
    Step q i G { G with done := Function.update G.done i D } where
  ext := ReplicatedLog.Ext.refl _
  term _ _ := rfl
  log _ _ := rfl
  done k hk := by simp [hk]
  done_le := by simpa using hD
  base _ _ := rfl
  base_le := le_rfl
  cand _ _ _ h := h
  lead _ _ h := h
  lead_new _ _ h := Or.inl h
  leaderLog _ := Or.inl rfl

/-- A step in which the snapshot of server `i` grows. -/
lemma of_base {b : ℕ} (hb : G.base i ≤ b) :
    Step q i G { G with base := Function.update G.base i b } where
  ext := ReplicatedLog.Ext.refl _
  term _ _ := rfl
  log _ _ := rfl
  done _ _ := rfl
  done_le := List.prefix_rfl
  base k hk := by simp [hk]
  base_le := by simpa using hb
  cand _ _ _ h := h
  lead _ _ h := h
  lead_new _ _ h := Or.inl h
  leaderLog _ := Or.inl rfl

end Step

/-- A step of the replicated log that leaves the leader logs keeps the invariant. -/
lemma Ok.of_st {G : Ghost n Cmd} {g : ReplicatedLog.State (Fin n) (LogEntry Cmd)} (h : G.Ok)
    (hinv : ReplicatedLog.Inv LogEntry.logTerm (majority n) g) (hx : ReplicatedLog.Ext G.st g)
    (hll : g.leaderLog = G.st.leaderLog) : Ok { G with st := g } where
  inv := hinv
  numbered T L hL := h.numbered T L (hll ▸ hL)
  has_lead T L hL := h.has_lead T L (hll ▸ hL)
  lead_le T s hs := (h.lead_le T s hs).trans (hx.term_le s)
  cand_le T A C hC := (h.cand_le T A C hC).trans (hx.term_le A)
  cand_anchored T A C hC := hx.anchored (h.cand_anchored T A C hC)

/-- The invariant does not speak of what the servers know to be committed. -/
lemma Ok.of_done {G : Ghost n Cmd} (h : G.Ok) (f : Fin n → List (LogEntry Cmd)) :
    Ok { G with done := f } :=
  ⟨h.inv, h.numbered, h.has_lead, h.lead_le, h.cand_le, h.cand_anchored⟩

/-- The invariant does not speak of the snapshot indexes. -/
lemma Ok.of_base {G : Ghost n Cmd} (h : G.Ok) (f : Fin n → ℕ) : Ok { G with base := f } :=
  ⟨h.inv, h.numbered, h.has_lead, h.lead_le, h.cand_le, h.cand_anchored⟩

end Ghost

/-! ## Messages -/

/-- A vote request describes the log its candidate entered the term with. -/
def ReqOk (G : Ghost n Cmd) (args : RequestVoteArgs n) : Prop :=
  ∃ C, G.cand args.candicateTerm args.candicateId = some C ∧ C.length = args.lastLogIndex ∧
    (lastOf C).logTerm = args.lastLogTerm

/-- Server `i` may vote for the candidate of this request. -/
def VoteOk (G : Ghost n Cmd) (i : Fin n) (T : ℕ) (cand : Fin n) : Prop :=
  ∃ C, G.cand T cand = some C ∧ G.Pledged i T C

/-- An `AppendEntries` request: its commit index is that of committed entries, a heartbeat goes
to a server that has acknowledged an entry of the term, and entries are the rest of an earlier
state of the leader log. -/
structure AppendOk (G : Ghost n Cmd) (dst : Fin n) (args : AppendEntriesArgs n Cmd) : Prop where
  commit : ∃ D, G.Committed args.leaderTerm D ∧ D.length = args.leaderCommit
  heartbeat : args.entries = [] →
    ∃ X, EndsIn LogEntry.logTerm X args.leaderTerm ∧ G.st.Acked dst args.leaderTerm X
  entries : args.entries ≠ [] → ∃ prev M L, args.prevLogIndex = some prev ∧
    args.prevLogTerm = some (lastOf (M.take prev)).logTerm ∧ prev < M.length ∧
    args.entries = M.drop prev ∧ EndsIn LogEntry.logTerm M args.leaderTerm ∧
    G.st.leaderLog args.leaderTerm = some L ∧ M <+: L

/-- The reply to an `AppendEntries` request. -/
structure ReplyOk (G : Ghost n Cmd) (src : Fin n) (args : AppendEntriesArgs n Cmd)
    (reply : AppendEntriesReply) : Prop where
  success : reply.success = true → ∀ e, args.entries.getLast? = some e →
    ∃ M, e.logIndex = M.length ∧ G.st.Acked src args.leaderTerm M
  conflict : reply.success = false → reply.followerTerm ≤ args.leaderTerm →
    ∃ L, G.st.leaderLog args.leaderTerm = some L ∧
      (reply.xterm = none → reply.xlen + 1 ≤ L.length) ∧
      ∀ t, reply.xterm = some t → t < args.leaderTerm ∧ reply.xindex ≤ L.length

/-- A snapshot covers committed entries. -/
def SnapOk (G : Ghost n Cmd) (args : InstallSnapshotArgs n Snap) : Prop :=
  ∃ P, G.Committed args.term P ∧ P.length = args.lastIncludedIndex ∧
    args.lastIncludedTerm = (lastOf P).logTerm ∧
    args.lastIncludedCmdIndex = (lastOf P).commandIndex

/-- The receiver of a snapshot has acknowledged what it covers, or has it under its own snapshot
and it is older than the term. -/
def InstalledOk (G : Ghost n Cmd) (src : Fin n) (args : InstallSnapshotArgs n Snap) : Prop :=
  ∃ P, G.Committed args.term P ∧ P.length = args.lastIncludedIndex ∧
    (G.st.Acked src args.term P ∨
      args.lastIncludedIndex ≤ G.base src ∧ ∀ e ∈ P, e.logTerm < args.term)

/-- What a message says is true of the abstract state. -/
def MsgOk (G : Ghost n Cmd) : Msg n Cmd Snap → Prop
  | .requestVote _ args => ReqOk G args
  | .requestVoteReply _ _ _ => True
  | .appendEntries dst args => dst ≠ args.leaderId ∧ AppendOk G dst args
  | .appendEntriesReply src args reply => src ≠ args.leaderId ∧ ReplyOk G src args reply
  | .installSnapshot dst args => dst ≠ args.leaderId ∧ SnapOk G args
  | .installSnapshotReply src args reply =>
    src ≠ args.leaderId ∧ (reply.term ≤ args.term → InstalledOk G src args)

/-! ## Servers -/

/-- The index that the service's `lastAppliedIndex` reaches with this message. -/
def ApplyMsg.upTo (m : ApplyMsg Cmd Snap) : ℕ :=
  if m.commandValid then m.logIndex else m.lastIncludedIndex

/-- A message on the apply channel lies within the committed entries `D`, and in a tidy run a
command is the entry of its index. -/
structure ChanOk (tidy : Prop) (D : List (LogEntry Cmd)) (m : ApplyMsg Cmd Snap) : Prop where
  upTo_le : m.upTo ≤ D.length
  entry : tidy → m.commandValid = true → ∃ k e, D[k]? = some e ∧ m.logIndex = k + 1 ∧
    m.command = e.command ∧ m.commandIndex = e.commandIndex ∧ e.isInternalLog = false

/-- What survives a crash of server `i`. -/
structure PersistOk (G : Ghost n Cmd) (i : Fin n) (rf : Raft n Cmd Snap) : Prop where
  me : rf.me = i
  saved : rf.Saved
  term : rf.currentTerm = G.st.term i
  log : rf.Holds (G.st.log i)
  base : G.base i = rf.lastIncludedIndex
  done_le : G.done i <+: G.st.log i
  committed : G.Committed (G.st.term i) (G.done i)
  snap_le : rf.lastIncludedIndex ≤ (G.done i).length

/-- The state of a crashed server. -/
structure CrashOk (tidy : Prop) (G : Ghost n Cmd) (i : Fin n) (rf : Raft n Cmd Snap) : Prop
    extends PersistOk G i rf where
  chan : ∀ m ∈ rf.applyChan, ChanOk tidy (G.done i) m

/-- The state of a running server, whatever its role. -/
structure RunningOk (tidy : Prop) (G : Ghost n Cmd) (i : Fin n) (rf : Raft n Cmd Snap) : Prop
    extends CrashOk tidy G i rf where
  commit_le : rf.commitIndex ≤ (G.done i).length
  tidy_le : tidy → rf.lastIncludedIndex ≤ rf.commitIndex

/-- A recorded `matchIndexs` value `m` for peer `j`: it has acknowledged the log up to there, or
has it under its snapshot and no entry of it is of the leader's term. -/
def MatchOk (G : Ghost n Cmd) (j : Fin n) (T : ℕ) (F : List (LogEntry Cmd)) (m : ℕ) : Prop :=
  m = 0 ∨ m ≤ F.length ∧ (G.st.Acked j T (F.take m) ∨
    m ≤ G.base j ∧ ∀ e ∈ F.take m, e.logTerm < T)

/-- A recorded `nextIndexs` value for peer `j`: it is past the end only if the peer has
acknowledged everything. -/
def NextOk (G : Ghost n Cmd) (j : Fin n) (T : ℕ) (F : List (LogEntry Cmd)) (next : ℕ) : Prop :=
  next ≤ F.length ∨ next = F.length + 1 ∧ G.st.Acked j T F

/-- A leader: its log is the leader log of its term, and its records about its peers are backed. -/
structure LeaderOk (G : Ghost n Cmd) (i : Fin n) (l : Leader n) : Prop where
  lead : G.lead (G.st.term i) = some i
  log : G.st.leaderLog (G.st.term i) = some (G.st.log i)
  self : G.st.Acked i (G.st.term i) (G.st.log i)
  mtch : ∀ j, MatchOk G j (G.st.term i) (G.st.log i) (l.matchIndexs j)
  next : ∀ j, j ≠ i → NextOk G j (G.st.term i) (G.st.log i) (l.nextIndexs j)

/-- A candidate: it does not lead its term, and its log is the one it entered the term with,
unless a committed prefix that this log lacks has replaced it. -/
def CandidateOk (G : Ghost n Cmd) (i : Fin n) : Prop :=
  G.lead (G.st.term i) ≠ some i ∧ ∃ C, G.cand (G.st.term i) i = some C ∧
    (G.st.log i = C ∨ ∃ P, G.Committed (G.st.term i) P ∧ ¬ P <+: C)

/-- The Raft state of server `i`. -/
structure RaftOk (tidy : Prop) (G : Ghost n Cmd) (i : Fin n) (rf : Raft n Cmd Snap) : Prop
    extends RunningOk tidy G i rf where
  role : rf.role = .leader ↔ rf.leaderPtr.isSome = true
  leader : ∀ l, rf.leaderPtr = some l → LeaderOk G i l
  candidate : rf.role = .candicate → CandidateOk G i

/-- A server with its goroutines and its service. -/
structure NodeOk (tidy : Prop) (G : Ghost n Cmd) (i : Fin n) (nd : Node n Cmd Snap) : Prop where
  raft : RaftOk tidy G i nd.rf
  applied : nd.lastAppliedIndex ≤ (G.done i).length
  captured : ∀ s k, nd.captured = some (s, k) → k ≤ (G.done i).length
  past : ∀ m ∈ nd.past, ChanOk tidy (G.done i) m
  handlers : ∀ hd ∈ nd.voteHandlers, VoteOk G i hd.args.candicateTerm hd.args.candicateId
  votes : ∀ T A, (T, A) ∈ nd.votes → VoteOk G i T A
  elections : ∀ e ∈ nd.elections, ReqOk G e.args
  beats : ∀ b ∈ nd.beats, b.peer ≠ i

/-- The cluster refines the abstract state. -/
structure Refines (tidy : Prop) (c : Cluster n Cmd Snap) (G : Ghost n Cmd) : Prop where
  ghost : G.Ok
  lead_votes : ∀ T s, G.lead T = some s → quorumSize n ≤ (c.voters T s).card
  node : ∀ i, NodeOk tidy G i (c.nodes i)
  msg : ∀ m ∈ c.net, MsgOk G m

/-! ## Stability -/

section Stable

variable {q : ℕ → Fin n → Prop} {i k : Fin n} {G G' : Ghost n Cmd} {tidy : Prop}

/-- A vote request in flight stays right. -/
lemma ReqOk.stable {args : RequestVoteArgs n} (hr : ReqOk G args) (h : Ghost.Step q i G G') :
    ReqOk G' args := by
  obtain ⟨C, hC, hrest⟩ := hr
  exact ⟨C, h.cand _ _ C hC, hrest⟩

/-- A vote stays right. -/
lemma VoteOk.stable {T : ℕ} {A : Fin n} (hv : VoteOk G k T A) (h : Ghost.Step q i G G') :
    VoteOk G' k T A := by
  obtain ⟨C, hC, hp⟩ := hv
  exact ⟨C, h.cand _ _ C hC, h.ext.pledged hp⟩

/-- An `AppendEntries` request in flight stays right. -/
lemma AppendOk.stable {dst : Fin n} {args : AppendEntriesArgs n Cmd} (ha : AppendOk G dst args)
    (h : Ghost.Step q i G G') : AppendOk G' dst args where
  commit := by
    obtain ⟨D, hD, hlen⟩ := ha.commit
    exact ⟨D, h.committed hD, hlen⟩
  heartbeat he := by
    obtain ⟨X, hX, hack⟩ := ha.heartbeat he
    exact ⟨X, hX, h.ext.acked hack⟩
  entries he := by
    obtain ⟨prev, M, L, h1, h2, h3, h4, h5, hL, hML⟩ := ha.entries he
    obtain ⟨L', hL', hLL'⟩ := h.ext.leaderLog_le _ L hL
    exact ⟨prev, M, L', h1, h2, h3, h4, h5, hL', hML.trans hLL'⟩

/-- A reply in flight stays right. -/
lemma ReplyOk.stable {src : Fin n} {args : AppendEntriesArgs n Cmd} {reply : AppendEntriesReply}
    (hr : ReplyOk G src args reply) (h : Ghost.Step q i G G') : ReplyOk G' src args reply where
  success hs e he := by
    obtain ⟨M, hM, hack⟩ := hr.success hs e he
    exact ⟨M, hM, h.ext.acked hack⟩
  conflict hs ht := by
    obtain ⟨L, hL, h1, h2⟩ := hr.conflict hs ht
    obtain ⟨L', hL', hLL'⟩ := h.ext.leaderLog_le _ L hL
    have hle := hLL'.length_le
    exact ⟨L', hL', fun hx => (h1 hx).trans hle, fun t hx => ⟨(h2 t hx).1, (h2 t hx).2.trans hle⟩⟩

/-- **Messages in flight stay right** under the steps of other servers and of their senders. -/
lemma MsgOk.stable {m : Msg n Cmd Snap} (hm : MsgOk G m) (h : Ghost.Step q i G G') :
    MsgOk G' m := by
  cases m with
  | requestVote dst args => exact ReqOk.stable hm h
  | requestVoteReply src args reply => trivial
  | appendEntries dst args => exact ⟨hm.1, hm.2.stable h⟩
  | appendEntriesReply src args reply => exact ⟨hm.1, hm.2.stable h⟩
  | installSnapshot dst args =>
    obtain ⟨hne, P, hP, hrest⟩ := hm
    exact ⟨hne, P, h.committed hP, hrest⟩
  | installSnapshotReply src args reply =>
    refine ⟨hm.1, fun ht => ?_⟩
    obtain ⟨P, hP, hlen, hack | ⟨hb, hold⟩⟩ := hm.2 ht
    · exact ⟨P, h.committed hP, hlen, Or.inl (h.ext.acked hack)⟩
    · exact ⟨P, h.committed hP, hlen, Or.inr ⟨hb.trans (h.base_mono src), hold⟩⟩

/-- What a new process has sent reaches as far as its `commitIndex`. -/
lemma upTo_of_mem_applyChan_make {me : Fin n} {p : Persister n Cmd Snap} {m : ApplyMsg Cmd Snap}
    (hm : m ∈ (Raft.make me p).applyChan) : m.upTo = (Raft.make me p).commitIndex := by
  obtain ⟨hvalid, hidx⟩ := Raft.of_mem_applyChan_make hm
  rw [ApplyMsg.upTo, hvalid, hidx]
  rfl

/-- A restarted server has sent at most its snapshot. -/
lemma ChanOk.of_make {me : Fin n} {p : Persister n Cmd Snap} {D : List (LogEntry Cmd)}
    {m : ApplyMsg Cmd Snap} (hm : m ∈ (Raft.make me p).applyChan)
    (hle : (Raft.make me p).lastIncludedIndex ≤ D.length) : ChanOk tidy D m where
  upTo_le := (upTo_of_mem_applyChan_make hm).trans_le hle
  entry _ hv := by
    rw [(Raft.of_mem_applyChan_make hm).1] at hv
    simp at hv

/-- A message stays within the committed entries. -/
lemma ChanOk.mono {D D' : List (LogEntry Cmd)} {m : ApplyMsg Cmd Snap} (hm : ChanOk tidy D m)
    (hD : D <+: D') : ChanOk tidy D' m where
  upTo_le := hm.upTo_le.trans hD.length_le
  entry ht hv := by
    obtain ⟨k, e, he, hrest⟩ := hm.entry ht hv
    obtain ⟨R, rfl⟩ := hD
    have hk : k < D.length := (List.getElem?_eq_some_iff.mp he).1
    exact ⟨k, e, by rw [List.getElem?_append_left hk]; exact he, hrest⟩

/-- A recorded `matchIndexs` value stays backed. -/
lemma MatchOk.stable {j : Fin n} {T m : ℕ} {F : List (LogEntry Cmd)} (hm : MatchOk G j T F m)
    (h : Ghost.Step q i G G') : MatchOk G' j T F m := by
  rcases hm with rfl | ⟨hle, hack | ⟨hb, hold⟩⟩
  · exact Or.inl rfl
  · exact Or.inr ⟨hle, Or.inl (h.ext.acked hack)⟩
  · exact Or.inr ⟨hle, Or.inr ⟨hb.trans (h.base_mono j), hold⟩⟩

/-- A recorded `nextIndexs` value stays backed. -/
lemma NextOk.stable {j : Fin n} {T next : ℕ} {F : List (LogEntry Cmd)} (hm : NextOk G j T F next)
    (h : Ghost.Step q i G G') : NextOk G' j T F next := by
  rcases hm with hle | ⟨heq, hack⟩
  · exact Or.inl hle
  · exact Or.inr ⟨heq, h.ext.acked hack⟩

section Other

variable {rf : Raft n Cmd Snap} (hk : k ≠ i) (h : Ghost.Step q i G G')
include hk h

/-- What survives a crash is not touched by other servers. -/
lemma PersistOk.stable (hp : PersistOk G k rf) : PersistOk G' k rf where
  me := hp.me
  saved := hp.saved
  term := by rw [h.term k hk]; exact hp.term
  log := by rw [h.log k hk]; exact hp.log
  base := by rw [h.base k hk]; exact hp.base
  done_le := by rw [h.done k hk, h.log k hk]; exact hp.done_le
  committed := by rw [h.done k hk, h.term k hk]; exact h.committed hp.committed
  snap_le := by rw [h.done k hk]; exact hp.snap_le

/-- A leader is not touched by other servers. -/
lemma LeaderOk.stable {l : Leader n} (hl : LeaderOk G k l) : LeaderOk G' k l := by
  have hterm := h.term k hk
  have hlog := h.log k hk
  have hlead : G'.lead (G.st.term k) = some k := h.lead _ k hl.lead
  refine ⟨by rw [hterm]; exact hlead, ?_, by rw [hterm, hlog]; exact h.ext.acked hl.self,
    fun j => by rw [hterm, hlog]; exact (hl.mtch j).stable h,
    fun j hj => by rw [hterm, hlog]; exact (hl.next j hj).stable h⟩
  -- only the leader of a term extends its leader log
  rw [hterm, hlog]
  rcases h.leaderLog (G.st.term k) with heq | hl'
  · rw [heq]; exact hl.log
  · rw [hlead] at hl'
    exact absurd (Option.some.inj hl') hk

/-- A candidate is not touched by other servers. -/
lemma CandidateOk.stable (hc : CandidateOk G k) : CandidateOk G' k := by
  obtain ⟨hlead, C, hC, hrest⟩ := hc
  refine ⟨?_, C, by rw [h.term k hk]; exact h.cand _ _ C hC, ?_⟩
  · rw [h.term k hk]
    intro hl
    rcases h.lead_new _ k hl with hl' | ⟨heq, -⟩
    · exact hlead hl'
    · exact hk heq
  · rw [h.term k hk, h.log k hk]
    rcases hrest with hrest | ⟨P, hP, hnot⟩
    · exact Or.inl hrest
    · exact Or.inr ⟨P, h.committed hP, hnot⟩

/-- **A server is not touched by the steps of others.** -/
lemma RaftOk.stable (hr : RaftOk tidy G k rf) : RaftOk tidy G' k rf where
  toPersistOk := hr.toPersistOk.stable hk h
  chan m hm := by rw [h.done k hk]; exact hr.chan m hm
  commit_le := by rw [h.done k hk]; exact hr.commit_le
  tidy_le := hr.tidy_le
  role := hr.role
  leader l hl := (hr.leader l hl).stable hk h
  candidate hc := (hr.candidate hc).stable hk h

/-- A server that does not move still agrees with the abstract state. -/
lemma NodeOk.stable {nd : Node n Cmd Snap} (hn : NodeOk tidy G k nd) : NodeOk tidy G' k nd where
  raft := hn.raft.stable hk h
  applied := by rw [h.done k hk]; exact hn.applied
  captured := by rw [h.done k hk]; exact hn.captured
  past := by rw [h.done k hk]; exact hn.past
  handlers hd hmem := (hn.handlers hd hmem).stable h
  votes T A hmem := (hn.votes T A hmem).stable h
  elections e hmem := (hn.elections e hmem).stable h
  beats := hn.beats

end Other

end Stable

end Mit6824
