import Mit6824.Raft.Inversion

set_option autoImplicit false

/-!
# The leader's indexes

`leaderPtr` holds the indexes a leader keeps for its peers. The sections that read them do so
through a pointer that `becomeFollower` sets to nil, and reading it then is a panic. Here is that
the pointer is set exactly while the server is leader, and which sections can read it.

## Main definitions

* `Mit6824.Raft.Led` — `leaderPtr` is set exactly while the server is leader.
* `Mit6824.Outcome.NilFree` — the section does not read it while it is nil.

## Main results

* `Mit6824.Handled.led` — every input keeps the pointer in step with the role.
* `Mit6824.Raft.nilFree_buildAppend`, `Mit6824.Raft.nilFree_appendReply`,
  `Mit6824.Raft.nilFree_installReply` — what the three sections that use the pointer need.
-/

namespace Mit6824

variable {n : ℕ} {Cmd Snap : Type}

/-! ## `leaderPtr` -/

namespace Raft

/-- `leaderPtr` is set exactly while the server is leader. -/
def Led (rf : Raft n Cmd Snap) : Prop := rf.role = .leader ↔ rf.leaderPtr.isSome = true

variable {rf : Raft n Cmd Snap}

/-- A section that leaves the role alone and does not set or clear `leaderPtr`. -/
lemma Led.congr {rf' : Raft n Cmd Snap} (h : rf.Led) (hrole : rf'.role = rf.role)
    (hptr : rf'.leaderPtr.isSome = rf.leaderPtr.isSome) : rf'.Led := by
  unfold Led
  rw [hrole, hptr]
  exact h

/-- While `leaderPtr` is set, new values in it change nothing. -/
lemma Led.setPtr {l : Leader n} (h : rf.Led) (hptr : rf.leaderPtr = some l) (l' : Leader n) :
    Led { rf with leaderPtr := some l' } :=
  h.congr rfl (by simp [hptr])

/-- A follower has no `leaderPtr`. -/
lemma led_becomeFollower (rf : Raft n Cmd Snap) (t : ℕ) : (rf.becomeFollower t).Led := by
  simp [Led, becomeFollower, persist]

/-- A new server has no `leaderPtr`. -/
lemma led_make (me : Fin n) (p : Persister n Cmd Snap) : (make me p).Led := by
  simp [Led]

/-- Seeing a term clears both or neither. -/
lemma Led.observe (h : rf.Led) (t : ℕ) : (rf.observe t).Led :=
  observe_rule t h fun _ => led_becomeFollower rf t

/-- Committing leaves the role and `leaderPtr`. -/
lemma Led.advanceCommit (h : rf.Led) (leaderCommit : ℕ) (reply : AppendEntriesReply) :
    (rf.advanceCommit leaderCommit reply).state.Led := by
  obtain ⟨ms, i, j, hstate⟩ := advanceCommit_eq rf leaderCommit reply
  rw [hstate]
  exact h

/-- Adopting entries leaves the role and `leaderPtr`. -/
lemma Led.adopt (h : rf.Led) (logPos : ℕ) (entries : List (LogEntry Cmd)) :
    (rf.adopt logPos entries).Led :=
  h.congr rfl rfl

/-- Only a server that does not lead becomes a candidate. -/
lemma Led.startElection (h : rf.Led) : rf.startElection.state.Led := by
  rw [state_startElection]
  split_ifs with hl
  · exact h
  · have hptr : ¬ rf.leaderPtr.isSome = true := fun hptr => hl (h.mpr hptr)
    simpa [Led, persist] using hptr

/-- Giving a vote leaves the role and `leaderPtr`. -/
lemma Led.requestVoteGrant (h : rf.Led) (args : RequestVoteArgs n) :
    (rf.requestVoteGrant args).1.Led :=
  requestVoteGrant_rule args h h

/-- `Start` leaves the role and `leaderPtr`. -/
lemma Led.start (h : rf.Led) (command : Cmd) : (rf.start command).state.Led := by
  obtain ⟨-, heq⟩ | ⟨-, heq⟩ | ⟨last, -, heq⟩ := start_cases rf command <;> rw [heq] <;> exact h

/-- `TakeSnapshot` leaves the role and `leaderPtr`. -/
lemma Led.takeSnapshot (h : rf.Led) (snapshot : Option Snap) (k : ℕ) :
    (rf.takeSnapshot snapshot k).state.Led := by
  obtain ⟨-, heq⟩ | ⟨-, -, heq⟩ | ⟨e, -, -, heq⟩ := takeSnapshot_cases rf snapshot k <;>
    rw [heq] <;> exact h

/-- The first section of `RequestVote` clears both or neither. -/
lemma Led.requestVoteCheck (h : rf.Led) (args : RequestVoteArgs n) :
    (rf.requestVoteCheck args).state.Led := by
  obtain ⟨-, heq⟩ | ⟨last, -, heq⟩ := requestVoteCheck_cases rf args <;> rw [heq] <;>
    exact h.observe _

/-- A new leader has a `leaderPtr`, unless it panics before. -/
lemma led_becomeLeader (rf : Raft n Cmd Snap) : rf.becomeLeader.state.Led := by
  obtain ⟨-, heq⟩ | ⟨last, -, heq⟩ := becomeLeader_cases rf <;> rw [heq] <;> simp [Led, persist]

/-- `AppendEntries` clears both or neither. -/
lemma Led.appendEntries (h : rf.Led) (args : AppendEntriesArgs n Cmd) :
    (rf.appendEntries args).state.Led := by
  have hfollow := led_becomeFollower rf args.leaderTerm
  exact appendEntries_rule h (fun _ k reply hled => hled.advanceCommit k reply) (fun _ => hfollow)
    (fun _ _ _ _ _ _ _ => hfollow.adopt _ _) (fun _ _ _ _ _ _ _ => hfollow.congr rfl rfl)

/-- `InstallSnapshot` clears both or neither. -/
lemma Led.installSnapshot (h : rf.Led) (args : InstallSnapshotArgs n Snap) :
    (rf.installSnapshot args).state.Led :=
  installSnapshot_rule h (h.observe args.term) fun _ _ _ => (h.observe args.term).congr rfl rfl

/-- A success reply changes only the values behind `leaderPtr`. -/
lemma Led.appendSuccess (h : rf.Led) (peer : Fin n) (last : ℕ) :
    (rf.appendSuccess peer last).state.Led := by
  obtain ⟨-, heq⟩ | ⟨l, hptr, heq | heq⟩ := appendSuccess_cases rf peer last <;> rw [heq]
  · exact h
  · exact h.setPtr hptr _
  · obtain ⟨ms, i, j, hstate⟩ := commitScan_eq
      { rf with leaderPtr := some (setPeer l peer (last + 1) last) }
      (setPeer l peer (last + 1) last) peer last
    rw [hstate]
    exact (h.setPtr hptr _).congr rfl rfl

/-- A conflict reply changes only the values behind `leaderPtr`. -/
lemma Led.appendConflict (h : rf.Led) (peer : Fin n) (reply : AppendEntriesReply) :
    (rf.appendConflict peer reply).state.Led := by
  obtain ⟨l, next, hptr, heq⟩ | ⟨-, heq⟩ | heq := appendConflict_cases rf peer reply <;> rw [heq]
  · exact h.setPtr hptr _
  · exact h
  · exact h

/-- A reply to `AppendEntries` clears both or neither. -/
lemma Led.appendReply (h : rf.Led) (peer : Fin n) (args : AppendEntriesArgs n Cmd)
    (reply : AppendEntriesReply) : (rf.appendReply peer args reply).state.Led := by
  have hspec := appendReply_spec rf peer args reply
  generalize rf.appendReply peer args reply = o at hspec ⊢
  cases hspec with
  | keep => exact h
  | noLeader => exact h
  | empty => exact h
  | success => exact h.appendSuccess _ _
  | follow => exact led_becomeFollower _ _
  | conflict => exact h.appendConflict _ _

/-- A reply to `InstallSnapshot` clears both or neither. -/
lemma Led.installReply (h : rf.Led) (peer : Fin n) (args : InstallSnapshotArgs n Snap)
    (reply : InstallSnapshotReply) : (rf.installReply peer args reply).state.Led := by
  have hspec := installReply_spec rf peer args reply
  generalize rf.installReply peer args reply = o at hspec ⊢
  cases hspec with
  | stale => exact h
  | follow => exact led_becomeFollower _ _
  | noLeader => exact h
  | record _ _ l hptr => exact h.setPtr hptr _

end Raft

/-- Every critical section keeps `leaderPtr` in step with the role. -/
lemma Section.led {nd : Node n Cmd Snap} {inp : Input n Cmd Snap} {rf : Raft n Cmd Snap}
    (hs : Section nd inp rf) (h : nd.rf.Led) : rf.Led := by
  cases hs with
  | none => exact h
  | startElection => exact h.startElection
  | stepDown k t => exact Raft.led_becomeFollower _ t
  | grantVote h' args => exact h.requestVoteGrant args
  | start command => exact h.start command
  | takeSnapshot snapshot k => exact h.takeSnapshot _ k
  | requestVote dst args => exact h.requestVoteCheck args
  | becomeLeader => exact Raft.led_becomeLeader _
  | appendEntries dst args => exact h.appendEntries args
  | appendReply src args reply => exact h.appendReply src args reply
  | installSnapshot dst args => exact h.installSnapshot args
  | installReply src args reply => exact h.installReply src args reply

/-- **Every input keeps `leaderPtr` with the role.** -/
lemma Handled.led {nd : Node n Cmd Snap} {inp : Input n Cmd Snap} {eff : Effect n Cmd Snap}
    (hh : Handled nd inp eff) (h : nd.rf.Led) : eff.node.rf.Led := by
  obtain ⟨rf, hsec, hrf | hrf⟩ := hh.raft <;> rw [hrf]
  · exact hsec.led h
  · exact Raft.led_make _ _

/-! ## Sections that do not read a nil pointer -/

/-- The section does not read `leaderPtr` while it is nil. -/
def Outcome.NilFree {α : Type} (o : Outcome n Cmd Snap α) : Prop :=
  ∀ rf, o ≠ .panic .nilPointer rf

/-- A section that finishes has read no nil pointer. -/
lemma nilFree_ok {α : Type} (rf : Raft n Cmd Snap) (a : α) : (Outcome.ok rf a).NilFree :=
  fun _ h => by cases h

/-- A panic at an index is none at a nil pointer. -/
lemma nilFree_indexOutOfRange {α : Type} (rf : Raft n Cmd Snap) :
    (Outcome.panic .indexOutOfRange rf : Outcome n Cmd Snap α).NilFree :=
  fun _ h => by cases h

/-- A panic that is passed on. -/
lemma Outcome.NilFree.panic {α β : Type} {p : Panic} {rf : Raft n Cmd Snap}
    (h : (Outcome.panic p rf : Outcome n Cmd Snap α).NilFree) (rf' : Raft n Cmd Snap) :
    (Outcome.panic p rf' : Outcome n Cmd Snap β).NilFree := by
  rintro r ⟨⟩
  exact h rf rfl

namespace Raft

/-- The commit loop does not read `leaderPtr`. -/
lemma nilFree_commitLoop (leaderCommit : ℕ) :
    ∀ (fuel : ℕ) (rf : Raft n Cmd Snap), (commitLoop leaderCommit fuel rf).NilFree
  | 0, rf => nilFree_ok rf ()
  | fuel + 1, rf => by
    unfold commitLoop
    split
    · exact nilFree_indexOutOfRange rf
    · dsimp only
      split_ifs
      · split
        · exact nilFree_indexOutOfRange rf
        · exact nilFree_commitLoop leaderCommit fuel _
      · exact nilFree_ok rf ()

/-- Committing as a follower does not read `leaderPtr`. -/
lemma nilFree_advanceCommit (rf : Raft n Cmd Snap) (leaderCommit : ℕ)
    (reply : AppendEntriesReply) : (rf.advanceCommit leaderCommit reply).NilFree := by
  unfold advanceCommit
  split_ifs
  · have hloop := nilFree_commitLoop leaderCommit (leaderCommit - rf.commitIndex) rf
    split
    · exact nilFree_ok _ _
    · rename_i heq
      rw [heq] at hloop
      exact hloop.panic _
  · exact nilFree_ok _ _

/-- Sending entries does not read `leaderPtr`. -/
lemma nilFree_sendRange :
    ∀ (m k : ℕ) (rf : Raft n Cmd Snap), (sendRange m k rf).NilFree
  | 0, _, rf => nilFree_ok rf ()
  | m + 1, k, rf => by
    unfold sendRange
    split
    · exact nilFree_indexOutOfRange rf
    · exact nilFree_sendRange m (k + 1) _

/-- Committing as a leader does not read `leaderPtr`. -/
lemma nilFree_commitUpTo (rf : Raft n Cmd Snap) (i : ℕ) : (rf.commitUpTo i).NilFree := by
  have hrange := nilFree_sendRange (i - rf.commitIndex) (rf.commitIndex + 1) rf
  unfold commitUpTo
  split
  · rename_i heq
    rw [heq] at hrange
    exact hrange.panic _
  · exact nilFree_ok _ _

/-- The commit rule has `leaderPtr` at hand. -/
lemma nilFree_commitScan (rf : Raft n Cmd Snap) (l : Leader n) (peer : Fin n) (k : ℕ) :
    (rf.commitScan l peer k).NilFree := by
  obtain h | ⟨-, -, -, -, h⟩ | ⟨i, -, -, -, -, -, -, h⟩ := commitScan_cases rf l peer k <;> rw [h]
  · exact nilFree_ok _ _
  · exact nilFree_indexOutOfRange _
  · exact nilFree_commitUpTo rf i

/-- Starting an election does not read `leaderPtr`. -/
lemma nilFree_startElection (rf : Raft n Cmd Snap) : rf.startElection.NilFree := by
  obtain ⟨-, h⟩ | ⟨-, -, h⟩ | ⟨last, -, -, h⟩ := startElection_cases rf <;> rw [h]
  · exact nilFree_ok _ _
  · exact nilFree_indexOutOfRange _
  · exact nilFree_ok _ _

/-- Becoming leader sets `leaderPtr`. -/
lemma nilFree_becomeLeader (rf : Raft n Cmd Snap) : rf.becomeLeader.NilFree := by
  obtain ⟨-, h⟩ | ⟨last, -, h⟩ := becomeLeader_cases rf <;> rw [h]
  · exact nilFree_indexOutOfRange _
  · exact nilFree_ok _ _

/-- `Start` does not read `leaderPtr`. -/
lemma nilFree_start (rf : Raft n Cmd Snap) (command : Cmd) : (rf.start command).NilFree := by
  obtain ⟨-, h⟩ | ⟨-, h⟩ | ⟨last, -, h⟩ := start_cases rf command <;> rw [h]
  · exact nilFree_ok _ _
  · exact nilFree_indexOutOfRange _
  · exact nilFree_ok _ _

/-- `TakeSnapshot` does not read `leaderPtr`. -/
lemma nilFree_takeSnapshot (rf : Raft n Cmd Snap) (snapshot : Option Snap) (k : ℕ) :
    (rf.takeSnapshot snapshot k).NilFree := by
  obtain ⟨-, h⟩ | ⟨-, -, h⟩ | ⟨e, -, -, h⟩ := takeSnapshot_cases rf snapshot k <;> rw [h]
  · exact nilFree_ok _ _
  · exact nilFree_indexOutOfRange _
  · exact nilFree_ok _ _

/-- The first section of `RequestVote` does not read `leaderPtr`. -/
lemma nilFree_requestVoteCheck (rf : Raft n Cmd Snap) (args : RequestVoteArgs n) :
    (rf.requestVoteCheck args).NilFree := by
  obtain ⟨-, h⟩ | ⟨last, -, h⟩ := requestVoteCheck_cases rf args <;> rw [h]
  · exact nilFree_indexOutOfRange _
  · exact nilFree_ok _ _

/-- `AppendEntries` does not read `leaderPtr`. -/
lemma nilFree_appendEntries (rf : Raft n Cmd Snap) (args : AppendEntriesArgs n Cmd) :
    (rf.appendEntries args).NilFree := by
  have hspec := appendEntries_spec rf args
  generalize rf.appendEntries args = o at hspec ⊢
  cases hspec with
  | stale => exact nilFree_ok _ _
  | heartbeat => exact nilFree_advanceCommit _ _ _
  | below => exact nilFree_ok _ _
  | empty => exact nilFree_indexOutOfRange _
  | beyond => exact nilFree_ok _ _
  | outside => exact nilFree_indexOutOfRange _
  | accept => exact nilFree_advanceCommit _ _ _
  | conflict => exact nilFree_ok _ _

/-- `InstallSnapshot` does not read `leaderPtr`. -/
lemma nilFree_installSnapshot (rf : Raft n Cmd Snap) (args : InstallSnapshotArgs n Snap) :
    (rf.installSnapshot args).NilFree := by
  have hspec := installSnapshot_spec rf args
  generalize rf.installSnapshot args = o at hspec ⊢
  cases hspec with
  | stale => exact nilFree_ok _ _
  | behind => exact nilFree_ok _ _
  | panic => exact nilFree_indexOutOfRange _
  | install => exact nilFree_ok _ _

section Leader

variable {rf : Raft n Cmd Snap} {peer : Fin n}

/-- The check of `HeartBeatToServer` reads `leaderPtr` only as a leader. -/
lemma Led.nilFree_heartBeatToServer (h : rf.Led) (peer : Fin n) :
    (rf.heartBeatToServer peer).NilFree := by
  unfold heartBeatToServer
  split_ifs with hrole
  · exact nilFree_ok _ _
  · split
    · rename_i hptr
      have hsome := h.mp (not_not.mp hrole)
      simp [hptr] at hsome
    · exact nilFree_ok _ _

/-- With `leaderPtr` set, a request is built without a nil access. -/
lemma nilFree_buildAppend (h : rf.leaderPtr.isSome = true) : (rf.buildAppend peer).NilFree := by
  unfold buildAppend
  split
  · exact nilFree_indexOutOfRange _
  · rename_i hptr
    simp [hptr] at h
  · dsimp only
    split_ifs
    · exact nilFree_ok _ _
    · split
      · exact nilFree_indexOutOfRange _
      · exact nilFree_ok _ _
    · exact nilFree_ok _ _

/-- A conflict reply needs `leaderPtr`. -/
lemma nilFree_appendConflict (h : rf.leaderPtr.isSome = true) (reply : AppendEntriesReply) :
    (rf.appendConflict peer reply).NilFree := by
  obtain ⟨l, next, -, heq⟩ | ⟨hptr, -⟩ | heq := appendConflict_cases rf peer reply
  · rw [heq]
    exact nilFree_ok _ _
  · simp [hptr] at h
  · rw [heq]
    exact nilFree_indexOutOfRange _

/-- A success reply needs `leaderPtr`. -/
lemma nilFree_appendSuccess (h : rf.leaderPtr.isSome = true) (last : ℕ) :
    (rf.appendSuccess peer last).NilFree := by
  obtain ⟨hptr, -⟩ | ⟨l, -, heq | heq⟩ := appendSuccess_cases rf peer last
  · simp [hptr] at h
  · rw [heq]
    exact nilFree_ok _ _
  · rw [heq]
    exact nilFree_commitScan _ _ _ _

/-- A reply is handled without a nil access if the server still leads the term of the request,
should that be the present term. -/
lemma nilFree_appendReply {args : AppendEntriesArgs n Cmd}
    (h : args.leaderTerm = rf.currentTerm → rf.leaderPtr.isSome = true)
    (reply : AppendEntriesReply) : (rf.appendReply peer args reply).NilFree := by
  unfold appendReply
  split
  · split_ifs with hT
    · exact nilFree_ok _ _
    · have hptr := h (not_not.mp hT).symm
      split
      · exact nilFree_appendSuccess hptr _
      · split
        · rename_i hnone
          simp [hnone] at hptr
        · exact nilFree_indexOutOfRange _
        · exact nilFree_ok _ _
  · split_ifs with hlt hT
    · exact nilFree_ok _ _
    · exact nilFree_ok _ _
    · exact nilFree_appendConflict (h (not_not.mp hT).symm) reply

/-- A reply to `InstallSnapshot` needs `leaderPtr` if it is of the present term. -/
lemma nilFree_installReply {args : InstallSnapshotArgs n Snap}
    (h : args.term = rf.currentTerm → rf.leaderPtr.isSome = true)
    (reply : InstallSnapshotReply) : (rf.installReply peer args reply).NilFree := by
  have hspec := installReply_spec rf peer args reply
  generalize rf.installReply peer args reply = o at hspec ⊢
  cases hspec with
  | stale => exact nilFree_ok _ _
  | follow => exact nilFree_ok _ _
  | noLeader hT _ hptr =>
    have hsome := h hT.symm
    simp [hptr] at hsome
  | record => exact nilFree_ok _ _

end Leader

end Raft

end Mit6824
