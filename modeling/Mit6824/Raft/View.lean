import Mathlib.Tactic.SplitIfs
import Mit6824.Raft.Spec

set_option autoImplicit false

/-!
# What a critical section does to term, vote and role, and to the persister

For every critical section, the term, vote and role at its end (whether it finishes or panics)
as a function of those at its start, and the fact that it leaves nothing unsaved.

## Main definitions

* `Mit6824.Raft.view` — the server's id, term, vote and role.
* `Mit6824.Raft.Saved` — a restart would find the present persistent state.

## Main results

* `Mit6824.Raft.appendEntries_rule`, `Mit6824.Raft.installSnapshot_rule` — how to prove a property
  of the state after these handlers.
* `Mit6824.Raft.view_appendEntries` and its siblings — the view after each section.
* `Mit6824.Raft.Saved.appendEntries` and its siblings — each section saves what it changes.
* `Mit6824.Raft.view_make` — a restart keeps term and vote.
-/

namespace Mit6824

variable {n : ℕ} {Cmd Snap : Type}

/-- The Raft state at the end of a section. -/
def Outcome.state {α : Type} : Outcome n Cmd Snap α → Raft n Cmd Snap
  | .ok rf _ => rf
  | .panic _ rf => rf

/-- The state of a section that finishes. -/
@[simp] lemma Outcome.state_ok {α : Type} (rf : Raft n Cmd Snap) (a : α) :
    (Outcome.ok rf a).state = rf := rfl

/-- The state of a section that panics. -/
@[simp] lemma Outcome.state_panic {α : Type} (p : Panic) (rf : Raft n Cmd Snap) :
    (Outcome.panic p rf : Outcome n Cmd Snap α).state = rf := rfl

/-- Id, term, vote and role of a server. -/
structure View (n : ℕ) where
  me : Fin n
  term : ℕ
  vote : Option (Fin n)
  role : Role

namespace Raft

/-- The part of the state that elections are about. -/
def view (rf : Raft n Cmd Snap) : View n := ⟨rf.me, rf.currentTerm, rf.votedFor, rf.role⟩

/-- What `becomeFollower t` makes of a view. -/
def followed (rf : Raft n Cmd Snap) (t : ℕ) : View n := ⟨rf.me, t, none, .follower⟩

/-- Starting again from the persister gives back the present persistent values (and a sentinel,
should the log be empty). -/
def Saved (rf : Raft n Cmd Snap) : Prop :=
  (make rf.me rf.persister).encodeRaftState = rf.addSentinel.encodeRaftState

/-! ## The building blocks -/

/-- Following a term clears the vote. -/
@[simp] lemma view_becomeFollower (rf : Raft n Cmd Snap) (t : ℕ) :
    (rf.becomeFollower t).view = rf.followed t := rfl

/-- The persistent values after a start from saved ones. -/
lemma encode_make_of_some (me : Fin n) (p : Persister n Cmd Snap) (rf : Raft n Cmd Snap)
    (h : p.raftstate = some rf.encodeRaftState) :
    (make me p).encodeRaftState = rf.addSentinel.encodeRaftState := by
  simp only [make, h, readPersist, installSnapshotToApplication, addSentinel, encodeRaftState]
  split_ifs <;> rfl

/-- `persist` brings the persister up to date. -/
lemma saved_persist (rf : Raft n Cmd Snap) : Saved rf.persist :=
  encode_make_of_some rf.me _ rf.persist rfl

/-- `becomeFollower` persists. -/
lemma saved_becomeFollower (rf : Raft n Cmd Snap) (t : ℕ) : Saved (rf.becomeFollower t) :=
  saved_persist _

/-- Saving a snapshot persists the state with it. -/
lemma saved_saveStateAndSnapshot (rf : Raft n Cmd Snap) (snapshot : Option Snap) :
    Saved (rf.saveStateAndSnapshot snapshot) :=
  encode_make_of_some rf.me _ (rf.saveStateAndSnapshot snapshot) rfl

/-- A change that leaves the persistent values and the persister alone saves what was saved. -/
lemma Saved.congr {rf rf' : Raft n Cmd Snap} (h : Saved rf)
    (henc : rf'.encodeRaftState = rf.encodeRaftState) (hper : rf'.persister = rf.persister)
    (hme : rf'.me = rf.me) : Saved rf' := by
  have hadd : rf'.addSentinel.encodeRaftState = rf.addSentinel.encodeRaftState := by
    simp only [encodeRaftState, RaftState.mk.injEq] at henc
    obtain ⟨h1, h2, h3, h4, h5, h6⟩ := henc
    simp only [addSentinel, h3, encodeRaftState]
    split_ifs <;> simp [h1, h2, h3, h4, h5, h6]
  unfold Saved
  rw [hme, hper, hadd]
  exact h

/-! ## Delivery -/

/-- Sending an entry changes the channel and nothing else. -/
lemma sendEntry_eq {rf rf' : Raft n Cmd Snap} {i : ℕ} (h : rf.sendEntry i = some rf') :
    ∃ ms, rf' = { rf with applyChan := rf.applyChan ++ ms } := by
  unfold sendEntry at h
  split at h
  · cases h
  · split at h
    · exact ⟨[], by simpa using h.symm⟩
    · exact ⟨_, by simpa using h.symm⟩

/-- The commit loop changes the channel and the two indexes and nothing else.

**Proof sketch.** Induction on the fuel; one turn sends the messages of one entry and moves the
indexes. -/
lemma commitLoop_eq (leaderCommit : ℕ) :
    ∀ (fuel : ℕ) (rf : Raft n Cmd Snap), ∃ ms i j, (commitLoop leaderCommit fuel rf).state =
      { rf with applyChan := rf.applyChan ++ ms, commitIndex := i, lastApplied := j }
  | 0, rf => ⟨[], rf.commitIndex, rf.lastApplied, by simp [commitLoop]⟩
  | fuel + 1, rf => by
    have hid : ∃ ms i j, rf =
        { rf with applyChan := rf.applyChan ++ ms, commitIndex := i, lastApplied := j } :=
      ⟨[], rf.commitIndex, rf.lastApplied, by simp⟩
    unfold commitLoop
    split
    · exact hid
    · dsimp only
      split_ifs
      · split
        · exact hid
        · rename_i hsend
          obtain ⟨ms, rfl⟩ := sendEntry_eq hsend
          obtain ⟨ms', i, j, h⟩ := commitLoop_eq leaderCommit fuel
            { rf with
              applyChan := rf.applyChan ++ ms
              commitIndex := rf.commitIndex + 1
              lastApplied := rf.commitIndex + 1 }
          exact ⟨ms ++ ms', i, j, by rw [h]; simp⟩
      · exact hid

/-- Committing as a follower changes `applyChan`, `commitIndex` and `lastApplied` only. -/
lemma advanceCommit_eq (rf : Raft n Cmd Snap) (leaderCommit : ℕ) (reply : AppendEntriesReply) :
    ∃ ms i j, (rf.advanceCommit leaderCommit reply).state =
      { rf with applyChan := rf.applyChan ++ ms, commitIndex := i, lastApplied := j } := by
  unfold advanceCommit
  split_ifs
  · have h := commitLoop_eq leaderCommit (leaderCommit - rf.commitIndex) rf
    split
    all_goals
      rename_i heq
      rw [heq] at h
      exact h
  · exact ⟨[], rf.commitIndex, rf.lastApplied, by simp⟩

/-- Sending a range of entries changes the channel and nothing else. -/
lemma sendRange_eq : ∀ (m k : ℕ) (rf : Raft n Cmd Snap), ∃ ms, (sendRange m k rf).state =
      { rf with applyChan := rf.applyChan ++ ms }
  | 0, _, rf => ⟨[], by simp [sendRange]⟩
  | m + 1, k, rf => by
    unfold sendRange
    split
    · exact ⟨[], by simp⟩
    · rename_i hsend
      obtain ⟨ms, rfl⟩ := sendEntry_eq hsend
      obtain ⟨ms', h⟩ := sendRange_eq m (k + 1) { rf with applyChan := rf.applyChan ++ ms }
      exact ⟨ms ++ ms', by rw [h]; simp⟩

/-- Committing as a leader changes `applyChan`, `commitIndex` and `lastApplied` only. -/
lemma commitUpTo_eq (rf : Raft n Cmd Snap) (i : ℕ) : ∃ ms j k, (rf.commitUpTo i).state =
      { rf with applyChan := rf.applyChan ++ ms, commitIndex := j, lastApplied := k } := by
  obtain ⟨ms, h⟩ := sendRange_eq (i - rf.commitIndex) (rf.commitIndex + 1) rf
  unfold commitUpTo
  split
  all_goals
    rename_i heq
    rw [heq] at h
    simp only [Outcome.state_ok, Outcome.state_panic] at h
    subst h
    exact ⟨ms, _, _, rfl⟩

/-- The commit rule changes `applyChan`, `commitIndex` and `lastApplied` only. -/
lemma commitScan_eq (rf : Raft n Cmd Snap) (l : Leader n) (peer : Fin n) (k : ℕ) :
    ∃ ms i j, (rf.commitScan l peer k).state =
      { rf with applyChan := rf.applyChan ++ ms, commitIndex := i, lastApplied := j } := by
  have hid : ∃ ms i j, rf =
      { rf with applyChan := rf.applyChan ++ ms, commitIndex := i, lastApplied := j } :=
    ⟨[], rf.commitIndex, rf.lastApplied, by simp⟩
  rcases commitScan_cases rf l peer k with h | ⟨-, -, -, -, h⟩ | ⟨i, -, -, -, -, -, -, h⟩ <;> rw [h]
  · exact hid
  · exact hid
  · exact commitUpTo_eq rf i

/-! ## The state after a handler -/

/-- What the commit loop keeps holds at the end of `AppendEntries` if it holds of the server, of the
follower that the request makes of it, and of that follower with the two changes of its log.

**Proof sketch.** By the ways in which the handler ends (`appendEntries_spec`); the commit loop runs
after a heartbeat and after a match. -/
lemma appendEntries_rule {P : Raft n Cmd Snap → Prop} {rf : Raft n Cmd Snap}
    {args : AppendEntriesArgs n Cmd} (h : P rf)
    (hcommit : ∀ rf' k reply, P rf' → P (rf'.advanceCommit k reply).state)
    (hfollow : rf.currentTerm ≤ args.leaderTerm → P (rf.becomeFollower args.leaderTerm))
    (haccept : ∀ prev old, rf.currentTerm ≤ args.leaderTerm → args.prevLogIndex = some prev →
      rf.lastIncludedIndex ≤ prev → rf.logs[prev - rf.lastIncludedIndex]? = some old →
      some old.logTerm = args.prevLogTerm →
      P ((rf.becomeFollower args.leaderTerm).adopt (prev - rf.lastIncludedIndex) args.entries))
    (hconflict : ∀ prev old, rf.currentTerm ≤ args.leaderTerm → args.prevLogIndex = some prev →
      rf.lastIncludedIndex ≤ prev → rf.logs[prev - rf.lastIncludedIndex]? = some old →
      some old.logTerm ≠ args.prevLogTerm →
      P (persist { rf.becomeFollower args.leaderTerm with
        logs := rf.logs.take (prev - rf.lastIncludedIndex) })) :
    P (rf.appendEntries args).state := by
  have hspec := appendEntries_spec rf args
  generalize rf.appendEntries args = o at hspec ⊢
  cases hspec with
  | stale => exact h
  | heartbeat hle => exact hcommit _ _ _ (hfollow hle)
  | below hle => exact hfollow hle
  | empty hle => exact hfollow hle
  | beyond hle => exact hfollow hle
  | outside hle => exact hfollow hle
  | accept hle _ prev hprev hlow old hpos hterm =>
    exact hcommit _ _ _ (haccept prev old hle hprev hlow hpos hterm)
  | conflict hle _ prev hprev hlow old hpos hterm =>
    exact hconflict prev old hle hprev hlow hpos hterm

/-- What holds of the server when it has seen the term of the request, and of that server with the
snapshot in place, holds at the end of `InstallSnapshot`. -/
lemma installSnapshot_rule {P : Raft n Cmd Snap → Prop} {rf : Raft n Cmd Snap}
    {args : InstallSnapshotArgs n Snap} (h : P rf) (hobserve : P (rf.observe args.term))
    (hinstall : ∀ logs, rf.lastIncludedIndex < args.lastIncludedIndex →
      rf.logsAfterInstall args = some logs →
      P (installSnapshotToApplication (saveStateAndSnapshot
        { rf.observe args.term with
          logs := logs
          lastIncludedIndex := args.lastIncludedIndex
          lastIncludedTerm := args.lastIncludedTerm
          lastIncludedCmdIndex := args.lastIncludedCmdIndex } args.data))) :
    P (rf.installSnapshot args).state := by
  have hspec := installSnapshot_spec rf args
  generalize rf.installSnapshot args = o at hspec ⊢
  cases hspec with
  | stale => exact h
  | behind => exact hobserve
  | panic => exact hobserve
  | install _ hlt logs hlogs => exact hinstall logs hlt hlogs

/-! ## Views -/

/-- Seeing a later term is following it. -/
lemma view_observe (rf : Raft n Cmd Snap) (t : ℕ) :
    (rf.observe t).view = if rf.currentTerm < t then rf.followed t else rf.view := by
  unfold observe
  split_ifs <;> rfl

/-- The first section of `RequestVote` follows a later term. -/
@[simp] lemma view_requestVoteCheck (rf : Raft n Cmd Snap) (args : RequestVoteArgs n) :
    (rf.requestVoteCheck args).state.view =
      if rf.currentTerm < args.candicateTerm then rf.followed args.candicateTerm else rf.view := by
  obtain ⟨-, h⟩ | ⟨last, -, h⟩ := requestVoteCheck_cases rf args <;> rw [h] <;>
    exact view_observe rf args.candicateTerm

/-- Committing leaves id, term, vote and role. -/
@[simp] lemma view_advanceCommit (rf : Raft n Cmd Snap) (leaderCommit : ℕ)
    (reply : AppendEntriesReply) : (rf.advanceCommit leaderCommit reply).state.view = rf.view := by
  obtain ⟨ms, i, j, h⟩ := advanceCommit_eq rf leaderCommit reply
  rw [h]; rfl

/-- `AppendEntries` follows a term that is not older. -/
@[simp] lemma view_appendEntries (rf : Raft n Cmd Snap) (args : AppendEntriesArgs n Cmd) :
    (rf.appendEntries args).state.view =
      if args.leaderTerm < rf.currentTerm then rf.view else rf.followed args.leaderTerm := by
  have hspec := appendEntries_spec rf args
  generalize rf.appendEntries args = o at hspec ⊢
  cases hspec with
  | stale h => rw [if_pos h]; rfl
  | heartbeat h => rw [if_neg (not_lt.mpr h), view_advanceCommit]; rfl
  | below h => rw [if_neg (not_lt.mpr h)]; rfl
  | empty h => rw [if_neg (not_lt.mpr h)]; rfl
  | beyond h => rw [if_neg (not_lt.mpr h)]; rfl
  | outside h => rw [if_neg (not_lt.mpr h)]; rfl
  | accept h => rw [if_neg (not_lt.mpr h), view_advanceCommit]; rfl
  | conflict h => rw [if_neg (not_lt.mpr h)]; rfl

/-- `InstallSnapshot` follows a later term. -/
@[simp] lemma view_installSnapshot (rf : Raft n Cmd Snap) (args : InstallSnapshotArgs n Snap) :
    (rf.installSnapshot args).state.view =
      if rf.currentTerm < args.term then rf.followed args.term else rf.view := by
  have hspec := installSnapshot_spec rf args
  generalize rf.installSnapshot args = o at hspec ⊢
  cases hspec with
  | stale h => rw [if_neg h.not_gt]; rfl
  | behind => exact view_observe rf args.term
  | panic => exact view_observe rf args.term
  | install => exact view_observe rf args.term

/-- `TakeSnapshot` leaves id, term, vote and role. -/
@[simp] lemma view_takeSnapshot (rf : Raft n Cmd Snap) (snapshot : Option Snap) (i : ℕ) :
    (rf.takeSnapshot snapshot i).state.view = rf.view := by
  obtain ⟨-, h⟩ | ⟨-, -, h⟩ | ⟨e, -, -, h⟩ := takeSnapshot_cases rf snapshot i <;> rw [h] <;> rfl

/-- `Start` leaves id, term, vote and role. -/
@[simp] lemma view_start (rf : Raft n Cmd Snap) (command : Cmd) :
    (rf.start command).state.view = rf.view := by
  obtain ⟨-, h⟩ | ⟨-, h⟩ | ⟨last, -, h⟩ := start_cases rf command <;> rw [h] <;> rfl

/-- A server that does not lead becomes a candidate of the next term and votes for itself. -/
@[simp] lemma view_startElection (rf : Raft n Cmd Snap) :
    rf.startElection.state.view =
      if rf.role = .leader then rf.view
      else ⟨rf.me, rf.currentTerm + 1, some rf.me, .candicate⟩ := by
  obtain ⟨hrole, h⟩ | ⟨hrole, -, h⟩ | ⟨last, hrole, -, h⟩ := startElection_cases rf <;> rw [h]
  · rw [if_pos hrole]; rfl
  · rw [if_neg hrole]; rfl
  · rw [if_neg hrole]; rfl

/-- The state after the term bump. -/
lemma state_startElection (rf : Raft n Cmd Snap) : rf.startElection.state =
    if rf.role = .leader then rf
    else persist { rf with
      currentTerm := rf.currentTerm + 1
      role := .candicate
      votedFor := some rf.me } := by
  obtain ⟨hrole, h⟩ | ⟨hrole, -, h⟩ | ⟨last, hrole, -, h⟩ := startElection_cases rf <;> rw [h]
  · rw [if_pos hrole]; rfl
  · rw [if_neg hrole]; rfl
  · rw [if_neg hrole]; rfl

/-- The request of a server that enters an election. -/
lemma startElection_eq_some {rf rf' : Raft n Cmd Snap} {args : RequestVoteArgs n}
    (h : rf.startElection = .ok rf' (some args)) :
    rf.role ≠ .leader ∧ ∃ last, rf.getLastLog = some last ∧
      args = ⟨rf.currentTerm + 1, rf.me, last.logIndex, last.logTerm⟩ ∧
      rf' = persist { rf with
        currentTerm := rf.currentTerm + 1
        role := .candicate
        votedFor := some rf.me } := by
  obtain ⟨-, heq⟩ | ⟨-, -, heq⟩ | ⟨last, hl, hlast, heq⟩ := startElection_cases rf <;>
    rw [heq] at h
  · simp at h
  · simp at h
  · simp only [Outcome.ok.injEq, Option.some.injEq] at h
    exact ⟨hl, last, hlast, h.2.symm, h.1.symm⟩

/-- Becoming leader changes the role. -/
@[simp] lemma view_becomeLeader (rf : Raft n Cmd Snap) :
    rf.becomeLeader.state.view = { rf.view with role := .leader } := by
  obtain ⟨-, h⟩ | ⟨last, -, h⟩ := becomeLeader_cases rf <;> rw [h] <;> rfl

/-- Building a request changes nothing. -/
lemma state_buildAppend (rf : Raft n Cmd Snap) (peer : Fin n) :
    (rf.buildAppend peer).state = rf := by
  unfold buildAppend
  split
  · rfl
  · rfl
  · dsimp only
    split_ifs
    · rfl
    · split <;> rfl
    · rfl

/-- The check of `HeartBeatToServer` changes nothing. -/
lemma state_heartBeatToServer (rf : Raft n Cmd Snap) (peer : Fin n) :
    (rf.heartBeatToServer peer).state = rf := by
  unfold heartBeatToServer
  split_ifs
  · rfl
  · split <;> rfl

/-- A reply changes the leader's indexes, the channel and the commit indexes, unless it makes
the server a follower.

**Proof sketch.** By the cases of the handler. A success runs the commit scan, a conflict changes a
next index, and a later term makes the server a follower. -/
lemma appendReply_eq (rf : Raft n Cmd Snap) (peer : Fin n) (args : AppendEntriesArgs n Cmd)
    (reply : AppendEntriesReply) :
    (reply.success = false ∧ args.leaderTerm < reply.followerTerm ∧
      rf.appendReply peer args reply = .ok (rf.becomeFollower reply.followerTerm) ()) ∨
    (¬ (reply.success = false ∧ args.leaderTerm < reply.followerTerm) ∧
      ∃ l ms i j, (rf.appendReply peer args reply).state =
        { rf with leaderPtr := l, applyChan := rf.applyChan ++ ms, commitIndex := i,
                  lastApplied := j }) := by
  have hid : ∃ l ms i j, rf = { rf with
      leaderPtr := l, applyChan := rf.applyChan ++ ms, commitIndex := i, lastApplied := j } :=
    ⟨rf.leaderPtr, [], rf.commitIndex, rf.lastApplied, by simp⟩
  have hl : ∀ l, ∃ l' ms i j, { rf with leaderPtr := l } = { rf with
      leaderPtr := l', applyChan := rf.applyChan ++ ms, commitIndex := i, lastApplied := j } :=
    fun l => ⟨l, [], rf.commitIndex, rf.lastApplied, by simp⟩
  have hspec := appendReply_spec rf peer args reply
  generalize rf.appendReply peer args reply = o at hspec ⊢
  cases hspec with
  | keep hnot => exact Or.inr ⟨hnot, hid⟩
  | noLeader hs => exact Or.inr ⟨by simp [hs], hid⟩
  | empty hs => exact Or.inr ⟨by simp [hs], hid⟩
  | success hs _ e =>
    refine Or.inr ⟨by simp [hs], ?_⟩
    obtain ⟨-, h⟩ | ⟨l, -, h | h⟩ := appendSuccess_cases rf peer e.logIndex <;> rw [h]
    · exact hid
    · exact hl _
    · obtain ⟨ms, i, j, hscan⟩ := commitScan_eq
        { rf with leaderPtr := some (setPeer l peer (e.logIndex + 1) e.logIndex) }
        (setPeer l peer (e.logIndex + 1) e.logIndex) peer e.logIndex
      exact ⟨_, ms, i, j, hscan⟩
  | follow hs hlt => exact Or.inl ⟨hs, hlt, rfl⟩
  | conflict _ hle =>
    refine Or.inr ⟨fun h => absurd h.2 (not_lt.mpr hle), ?_⟩
    obtain ⟨l, next, -, h⟩ | ⟨-, h⟩ | h := appendConflict_cases rf peer reply <;> rw [h]
    · exact hl _
    · exact hid
    · exact hid

/-- A refusal with a later term than the request's is followed, whatever the own term. -/
@[simp] lemma view_appendReply (rf : Raft n Cmd Snap) (peer : Fin n)
    (args : AppendEntriesArgs n Cmd) (reply : AppendEntriesReply) :
    (rf.appendReply peer args reply).state.view =
      if reply.success = false ∧ args.leaderTerm < reply.followerTerm
      then rf.followed reply.followerTerm else rf.view := by
  rcases appendReply_eq rf peer args reply with ⟨h1, h2, h⟩ | ⟨hn, l, ms, i, j, h⟩
  · rw [h, if_pos ⟨h1, h2⟩]; rfl
  · rw [h, if_neg hn]; rfl

/-- A later term in the reply to a request of the present term is followed. -/
@[simp] lemma view_installReply (rf : Raft n Cmd Snap) (peer : Fin n)
    (args : InstallSnapshotArgs n Snap) (reply : InstallSnapshotReply) :
    (rf.installReply peer args reply).state.view =
      if rf.currentTerm = args.term ∧ rf.currentTerm < reply.term
      then rf.followed reply.term else rf.view := by
  have hspec := installReply_spec rf peer args reply
  generalize rf.installReply peer args reply = o at hspec ⊢
  cases hspec with
  | stale hT => rw [if_neg fun h => hT h.1]; rfl
  | follow hT hlt => rw [if_pos ⟨hT, hlt⟩]; rfl
  | noLeader _ hle => rw [if_neg fun h => absurd h.2 (not_lt.mpr hle)]; rfl
  | record _ hle => rw [if_neg fun h => absurd h.2 (not_lt.mpr hle)]; rfl

/-! ## Saving -/

/-- Seeing a term leaves the persister up to date. -/
lemma Saved.observe {rf : Raft n Cmd Snap} (h : Saved rf) (t : ℕ) : Saved (rf.observe t) :=
  observe_rule t h fun _ => saved_becomeFollower rf t

/-- The first section of `RequestVote` leaves the persister up to date. -/
lemma Saved.requestVoteCheck {rf : Raft n Cmd Snap} (h : Saved rf) (args : RequestVoteArgs n) :
    Saved (rf.requestVoteCheck args).state := by
  obtain ⟨-, heq⟩ | ⟨last, -, heq⟩ := requestVoteCheck_cases rf args <;> rw [heq] <;>
    exact h.observe args.candicateTerm

/-- The second section of `RequestVote` leaves the persister up to date. -/
lemma Saved.requestVoteGrant {rf : Raft n Cmd Snap} (h : Saved rf) (args : RequestVoteArgs n) :
    Saved (rf.requestVoteGrant args).1 :=
  requestVoteGrant_rule args h (saved_persist _)

/-- Committing touches nothing that is persisted. -/
lemma Saved.advanceCommit {rf : Raft n Cmd Snap} (h : Saved rf) (leaderCommit : ℕ)
    (reply : AppendEntriesReply) : Saved (rf.advanceCommit leaderCommit reply).state := by
  obtain ⟨ms, i, j, he⟩ := advanceCommit_eq rf leaderCommit reply
  rw [he]
  exact h.congr rfl rfl rfl

/-- `AppendEntries` leaves the persister up to date. -/
lemma Saved.appendEntries {rf : Raft n Cmd Snap} (h : Saved rf) (args : AppendEntriesArgs n Cmd) :
    Saved (rf.appendEntries args).state :=
  appendEntries_rule h (fun _ k reply hs => hs.advanceCommit k reply)
    (fun _ => saved_becomeFollower rf args.leaderTerm)
    (fun _ _ _ _ _ _ _ => saved_persist _) (fun _ _ _ _ _ _ _ => saved_persist _)

/-- `InstallSnapshot` leaves the persister up to date. -/
lemma Saved.installSnapshot {rf : Raft n Cmd Snap} (h : Saved rf)
    (args : InstallSnapshotArgs n Snap) : Saved (rf.installSnapshot args).state :=
  installSnapshot_rule h (h.observe args.term) fun _ _ _ =>
    (saved_saveStateAndSnapshot _ _).congr rfl rfl rfl

/-- `TakeSnapshot` leaves the persister up to date. -/
lemma Saved.takeSnapshot {rf : Raft n Cmd Snap} (h : Saved rf) (snapshot : Option Snap) (i : ℕ) :
    Saved (rf.takeSnapshot snapshot i).state := by
  obtain ⟨-, heq⟩ | ⟨-, -, heq⟩ | ⟨e, -, -, heq⟩ := takeSnapshot_cases rf snapshot i <;> rw [heq]
  · exact h
  · exact h
  · exact saved_saveStateAndSnapshot _ _

/-- `Start` leaves the persister up to date. -/
lemma Saved.start {rf : Raft n Cmd Snap} (h : Saved rf) (command : Cmd) :
    Saved (rf.start command).state := by
  obtain ⟨-, heq⟩ | ⟨-, heq⟩ | ⟨last, -, heq⟩ := start_cases rf command <;> rw [heq]
  · exact h
  · exact h
  · exact saved_persist _

/-- Starting an election leaves the persister up to date. -/
lemma Saved.startElection {rf : Raft n Cmd Snap} (h : Saved rf) :
    Saved rf.startElection.state := by
  obtain ⟨-, heq⟩ | ⟨-, -, heq⟩ | ⟨last, -, -, heq⟩ := startElection_cases rf <;> rw [heq]
  · exact h
  · exact saved_persist _
  · exact saved_persist _

/-- Becoming leader leaves the persister up to date. -/
lemma Saved.becomeLeader {rf : Raft n Cmd Snap} (h : Saved rf) :
    Saved rf.becomeLeader.state := by
  obtain ⟨-, heq⟩ | ⟨last, -, heq⟩ := becomeLeader_cases rf <;> rw [heq]
  · exact h.congr rfl rfl rfl
  · exact saved_persist _

/-- A reply to `AppendEntries` leaves the persister up to date. -/
lemma Saved.appendReply {rf : Raft n Cmd Snap} (h : Saved rf) (peer : Fin n)
    (args : AppendEntriesArgs n Cmd) (reply : AppendEntriesReply) :
    Saved (rf.appendReply peer args reply).state := by
  rcases appendReply_eq rf peer args reply with ⟨-, -, he⟩ | ⟨-, l, ms, i, j, he⟩
  · rw [he]; exact saved_becomeFollower _ _
  · rw [he]; exact h.congr rfl rfl rfl

/-- A reply to `InstallSnapshot` leaves the persister up to date. -/
lemma Saved.installReply {rf : Raft n Cmd Snap} (h : Saved rf) (peer : Fin n)
    (args : InstallSnapshotArgs n Snap) (reply : InstallSnapshotReply) :
    Saved (rf.installReply peer args reply).state := by
  have hspec := installReply_spec rf peer args reply
  generalize rf.installReply peer args reply = o at hspec ⊢
  cases hspec with
  | stale => exact h
  | follow => exact saved_becomeFollower _ _
  | noLeader => exact h
  | record => exact h.congr rfl rfl rfl

/-! ## Restarting -/

section Make

variable (me : Fin n) (p : Persister n Cmd Snap)

/-- A restarted server keeps its id. -/
@[simp] lemma me_make : (make me p).me = me := by
  simp only [make, installSnapshotToApplication, addSentinel]
  split_ifs <;> cases p.raftstate <;> rfl

/-- A restarted server keeps its persister. -/
@[simp] lemma persister_make : (make me p).persister = p := by
  simp only [make, installSnapshotToApplication, addSentinel]
  split_ifs <;> cases p.raftstate <;> rfl

/-- A restarted server is a follower. -/
@[simp] lemma role_make : (make me p).role = .follower := by
  simp only [make, installSnapshotToApplication, addSentinel]
  split_ifs <;> cases p.raftstate <;> rfl

/-- A restarted server has no `leaderPtr`. -/
@[simp] lemma leaderPtr_make : (make me p).leaderPtr = none := by
  simp only [make, installSnapshotToApplication, addSentinel]
  split_ifs <;> cases p.raftstate <;> rfl

/-- Before `make` sends the snapshot, nothing has been sent. -/
lemma applyChan_readPersist :
    ((blank me p).readPersist p.raftstate).addSentinel.applyChan = [] := by
  unfold addSentinel
  split_ifs <;> cases p.raftstate <;> rfl

variable {me p} in
/-- A new process has sent its service the stored snapshot and nothing else. -/
lemma of_mem_applyChan_make {m : ApplyMsg Cmd Snap} (hm : m ∈ (make me p).applyChan) :
    m.commandValid = false ∧ m.lastIncludedIndex = (make me p).lastIncludedIndex := by
  simp only [make, installSnapshotToApplication, applyChan_readPersist, List.nil_append,
    List.mem_singleton] at hm
  subst hm
  exact ⟨rfl, rfl⟩

/-- A restarted server has at least the sentinel in its log. -/
lemma logs_make_ne_nil : (make me p).logs ≠ [] := by
  simp only [make, installSnapshotToApplication, addSentinel]
  split_ifs with h
  · simp
  · exact h

end Make

/-- A log that is not empty needs no sentinel. -/
lemma addSentinel_of_ne_nil {rf : Raft n Cmd Snap} (h : rf.logs ≠ []) : rf.addSentinel = rf :=
  if_neg h

/-- A restarted server is up to date with its persister. -/
lemma saved_make (me : Fin n) (p : Persister n Cmd Snap) : Saved (make me p) := by
  unfold Saved
  rw [addSentinel_of_ne_nil (logs_make_ne_nil me p), me_make, persister_make]

/-- A restart keeps id, term and vote and makes the server a follower. -/
lemma view_make {rf : Raft n Cmd Snap} (h : Saved rf) :
    (make rf.me rf.persister).view = { rf.view with role := .follower } := by
  have hterm := congrArg RaftState.currentTerm h
  have hvote := congrArg RaftState.votedFor h
  have hadd : rf.addSentinel.currentTerm = rf.currentTerm ∧
      rf.addSentinel.votedFor = rf.votedFor := by
    unfold addSentinel
    split_ifs <;> exact ⟨rfl, rfl⟩
  simp only [encodeRaftState] at hterm hvote
  simp only [view, me_make, role_make, hterm, hvote, hadd.1, hadd.2]

end Raft

end Mit6824
