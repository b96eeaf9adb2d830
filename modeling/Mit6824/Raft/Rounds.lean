import Mit6824.Raft.RootedLog

set_option autoImplicit false

/-!
# A round of replication

What one round of `HeartBeatToServer` does for one peer when nothing is lost: the leader sends a
snapshot or entries, the follower handles the request, and the leader handles the reply
(`raft/raft.go`). The two servers are in any state in which the leader leads, the logs are in
sequence, and the leader's log has every entry the follower knows to be committed.

## Main definitions

* `Mit6824.Pair`, `Mit6824.Pair.round` — leader and follower, and a round.
* `Mit6824.Pair.Ready` — what is assumed of the two servers.
* `Mit6824.Pair.Succeeds` — the round sends entries, and they are accepted.
* `Mit6824.Pair.Idle` — there is nothing to send.
* `Mit6824.Pair.Failed` — the ways in which a round with something to send is not successful.

## Main results

* `Mit6824.Pair.round_spec` — a round with something to send panics nowhere, and is successful or
  fails in one of these ways.
* `Mit6824.Pair.round_idle` — a round with nothing to send is a heartbeat.
-/

namespace Mit6824

variable {n : ℕ} {Cmd Snap : Type}

/-! ## Rounds -/

/-- A leader and a follower. -/
structure Pair (n : ℕ) (Cmd Snap : Type) where
  leader : Raft n Cmd Snap
  follower : Raft n Cmd Snap

namespace Pair

/-- An `AppendEntries` request and the reply to it. -/
abbrev Exchange (n : ℕ) (Cmd : Type) := AppendEntriesArgs n Cmd × AppendEntriesReply

/-- A round of `HeartBeatToServer` for `peer`, with its `AppendEntries` request, if there is one,
and the reply; `none` when a server panics or the leader does not lead. -/
def round (peer : Fin n) (p : Pair n Cmd Snap) :
    Option (Pair n Cmd Snap × Option (Exchange n Cmd)) :=
  match p.leader.heartBeatToServer peer with
  | .ok leader .install =>
    match p.follower.installSnapshot leader.buildInstall with
    | .ok follower reply =>
      match leader.installReply peer leader.buildInstall reply with
      | .ok leader () => some (⟨leader, follower⟩, none)
      | .panic _ _ => none
    | .panic _ _ => none
  | .ok leader .append =>
    match leader.buildAppend peer with
    | .ok leader (some args) =>
      match p.follower.appendEntries args with
      | .ok follower reply =>
        match leader.appendReply peer args reply with
        | .ok leader () => some (⟨leader, follower⟩, some (args, reply))
        | .panic _ _ => none
      | .panic _ _ => none
    | .ok leader none => some (⟨leader, p.follower⟩, none)
    | .panic _ _ => none
  | _ => none

/-- The two servers of a round: the leader leads and keeps a next index for the peer that is at
most one behind its log, the follower is in no later term, both logs are in sequence, and the
leader's log has every entry the follower knows to be committed, the snapshot included. -/
structure Ready (peer : Fin n) (p : Pair n Cmd Snap) : Prop where
  role : p.leader.role = .leader
  ptr : p.leader.leaderPtr.isSome = true
  next : p.leader.nextIndex peer ≤ p.leader.lastIndex + 1
  leaderRooted : p.leader.Rooted
  leaderCommit : p.leader.lastIncludedIndex ≤ p.leader.commitIndex
  term : p.follower.currentTerm ≤ p.leader.currentTerm
  followerRooted : p.follower.Rooted
  followerCommit : p.follower.lastIncludedIndex ≤ p.follower.commitIndex
  agree : ∀ i ≤ p.follower.commitIndex, i ≤ p.leader.lastIndex ∧
    ∀ a b, p.leader.logAt i = some a → p.follower.logAt i = some b → a.logTerm = b.logTerm

/-- The round is successful: it sends entries, the reply is `Success`, and the next index is behind
the leader's log after it. -/
def Succeeds (peer : Fin n) (p : Pair n Cmd Snap) : Prop :=
  ∃ q args reply, p.round peer = some (q, some (args, reply)) ∧ args.entries ≠ [] ∧
    reply.success = true ∧ q.leader.nextIndex peer = q.leader.lastIndex + 1

/-- There is nothing to send: the next index is behind the leader's log, or that log ends with the
snapshot. -/
def Idle (peer : Fin n) (p : Pair n Cmd Snap) : Prop :=
  p.leader.lastIndex < p.leader.nextIndex peer ∨
    p.leader.lastIndex ≤ p.leader.lastIncludedIndex

instance (peer : Fin n) (p : Pair n Cmd Snap) : Decidable (p.Idle peer) :=
  inferInstanceAs (Decidable (_ ∨ _))

/-- Where the leader goes on after a conflict with an entry of term `t` of the follower: its search
from the end of its log has ended. -/
inductive GoesBack (peer : Fin n) (p : Pair n Cmd Snap) (t : ℕ) : ℕ → Prop
  /-- all entries are of later terms, and the next index stays -/
  | unchanged (hlater : p.leader.LaterUpTo t p.leader.lastIndex) :
      GoesBack peer p t (p.leader.nextIndex peer)
  /-- there is an entry of this term: behind the last one of them -/
  | found {i : ℕ} {e : LogEntry Cmd} (he : p.leader.logAt i = some e) (hterm : e.logTerm = t)
      (hlater : p.leader.LaterAbove t i p.leader.lastIndex) : GoesBack peer p t (i + 1)
  /-- there is none: to the follower's first entry of this term -/
  | absent {i x : ℕ} {e first : LogEntry Cmd} (he : p.leader.logAt i = some e)
      (hterm : e.logTerm < t) (hlater : p.leader.LaterAbove t i p.leader.lastIndex)
      (hbase : p.follower.lastIncludedIndex < x) (hx : x < p.leader.nextIndex peer)
      (hfirst : p.follower.logAt x = some first) (hfirst' : first.logTerm = t) :
      GoesBack peer p t x

/-- The ways in which a round with something to send is not successful, with what is left for the
next one. -/
inductive Failed (peer : Fin n) (p q : Pair n Cmd Snap) : Option (Exchange n Cmd) → Prop
  /-- the follower has put the leader's snapshot in place -/
  | install (hnext : p.leader.nextIndex peer ≤ p.leader.lastIncludedIndex)
      (hlt : p.follower.lastIncludedIndex < p.leader.lastIncludedIndex)
      (hbase : q.follower.lastIncludedIndex = p.leader.lastIncludedIndex)
      (hterms : p.follower.Ascending → q.follower.Ascending)
      (hnext' : q.leader.nextIndex peer = p.leader.lastIncludedIndex + 1) : Failed peer p q none
  /-- the follower's own snapshot covers the leader's -/
  | ignore (hnext : p.leader.nextIndex peer ≤ p.leader.lastIncludedIndex)
      (hle : p.leader.lastIncludedIndex ≤ p.follower.lastIncludedIndex)
      (hlogs : q.follower.logs = p.follower.logs)
      (hbase : q.follower.lastIncludedIndex = p.follower.lastIncludedIndex)
      (hnext' : q.leader.nextIndex peer = p.leader.lastIncludedIndex + 1) : Failed peer p q none
  /-- the previous entry is under the follower's snapshot -/
  | below (args : AppendEntriesArgs n Cmd) (reply : AppendEntriesReply)
      (hs : reply.success = false)
      (hnext : p.leader.lastIncludedIndex < p.leader.nextIndex peer)
      (hle : p.leader.nextIndex peer ≤ p.follower.lastIncludedIndex)
      (hlogs : q.follower.logs = p.follower.logs)
      (hbase : q.follower.lastIncludedIndex = p.follower.lastIncludedIndex)
      (hnext' : q.leader.nextIndex peer = 1) : Failed peer p q (some (args, reply))
  /-- the previous entry is behind the follower's log -/
  | beyond (args : AppendEntriesArgs n Cmd) (reply : AppendEntriesReply)
      (hs : reply.success = false)
      (hnext : p.leader.lastIncludedIndex < p.leader.nextIndex peer)
      (hlt : p.follower.lastIndex + 1 < p.leader.nextIndex peer)
      (hlogs : q.follower.logs = p.follower.logs)
      (hbase : q.follower.lastIncludedIndex = p.follower.lastIncludedIndex)
      (hnext' : q.leader.nextIndex peer = p.follower.lastIndex + 1) :
      Failed peer p q (some (args, reply))
  /-- the previous entry differs: the follower cuts its log, and the leader goes back -/
  | conflict (args : AppendEntriesArgs n Cmd) (reply : AppendEntriesReply)
      (hs : reply.success = false) {prev : ℕ} {pe old : LogEntry Cmd}
      (hnext : p.leader.nextIndex peer = prev + 1)
      (hpe : p.leader.logAt prev = some pe) (hold : p.follower.logAt prev = some old)
      (hne : old.logTerm ≠ pe.logTerm) (hcommit : p.follower.commitIndex < prev)
      (hlogs : q.follower.logs = p.follower.logs.take (prev - p.follower.lastIncludedIndex))
      (hlast : q.follower.lastIndex + 1 = prev)
      (hbase : q.follower.lastIncludedIndex = p.follower.lastIncludedIndex)
      (hnext' : GoesBack peer p old.logTerm (q.leader.nextIndex peer)) :
      Failed peer p q (some (args, reply))

variable {peer : Fin n} {p : Pair n Cmd Snap}

/-- New indexes for the peer, and a follower that fits. -/
lemma Ready.of_follower (h : p.Ready peer) {l : Leader n} {follower : Raft n Cmd Snap}
    (hnext : l.nextIndexs peer ≤ p.leader.lastIndex + 1)
    (hterm : follower.currentTerm ≤ p.leader.currentTerm) (hroot : follower.Rooted)
    (hcommit : follower.lastIncludedIndex ≤ follower.commitIndex)
    (hagree : ∀ i ≤ follower.commitIndex, i ≤ p.leader.lastIndex ∧
      ∀ a b, p.leader.logAt i = some a → follower.logAt i = some b → a.logTerm = b.logTerm) :
    Ready peer ⟨{ p.leader with leaderPtr := some l }, follower⟩ :=
  ⟨h.role, rfl, hnext, h.leaderRooted.congr rfl rfl rfl, h.leaderCommit, hterm, hroot, hcommit,
    hagree⟩

/-- The same when the follower's log and commit index stay. -/
lemma Ready.of_same (h : p.Ready peer) {l : Leader n} {follower : Raft n Cmd Snap}
    (hnext : l.nextIndexs peer ≤ p.leader.lastIndex + 1)
    (hterm : follower.currentTerm ≤ p.leader.currentTerm)
    (hlogs : follower.logs = p.follower.logs)
    (hbase : follower.lastIncludedIndex = p.follower.lastIncludedIndex)
    (hroot : follower.lastIncludedTerm = p.follower.lastIncludedTerm)
    (hcommit : follower.commitIndex = p.follower.commitIndex) :
    Ready peer ⟨{ p.leader with leaderPtr := some l }, follower⟩ := by
  refine h.of_follower hnext hterm (h.followerRooted.congr hlogs hbase hroot) ?_ ?_
  · rw [hbase, hcommit]
    exact h.followerCommit
  · rw [hcommit]
    intro i hi
    rw [Raft.logAt_congr hlogs hbase]
    exact h.agree i hi

/-- The leader of a pair has a next index for its peer. -/
lemma Ready.exists_ptr (h : p.Ready peer) :
    ∃ l, p.leader.leaderPtr = some l ∧ p.leader.nextIndex peer = l.nextIndexs peer := by
  obtain ⟨l, hl⟩ := Option.isSome_iff_exists.mp h.ptr
  exact ⟨l, hl, by simp [Raft.nextIndex, hl]⟩

/-- The heartbeat goroutine chooses by the next index alone. -/
lemma Ready.heartBeatToServer (h : p.Ready peer) :
    p.leader.heartBeatToServer peer = .ok p.leader
      (if p.leader.nextIndex peer ≤ p.leader.lastIncludedIndex then .install else .append) := by
  obtain ⟨l, hl, hnext⟩ := h.exists_ptr
  simp [Raft.heartBeatToServer, h.role, hl, hnext]

/-- The leader records a snapshot that the follower has accepted or does not need. -/
lemma Ready.installReply (h : p.Ready peer) (reply : InstallSnapshotReply)
    (hterm : reply.term ≤ p.leader.currentTerm) :
    ∃ l : Leader n, l.nextIndexs peer = p.leader.lastIncludedIndex + 1 ∧
      p.leader.installReply peer p.leader.buildInstall reply =
        .ok { p.leader with leaderPtr := some l } () := by
  obtain ⟨l, hl, -⟩ := h.exists_ptr
  refine ⟨Raft.setPeer l peer (p.leader.lastIncludedIndex + 1) p.leader.lastIncludedIndex,
    by simp [Raft.setPeer], ?_⟩
  simp [Raft.installReply, Raft.buildInstall, not_lt.mpr hterm, hl]

/-- A round in which the leader sends its snapshot.

**Proof sketch.** By what the follower does with the snapshot: it has a later one and ignores it, or
it puts it in place. The terms agree, so it is not stale, and the follower's log has what the
installation reads. What is committed then ends with the sentinel. -/
lemma round_install (h : p.Ready peer)
    (hnext : p.leader.nextIndex peer ≤ p.leader.lastIncludedIndex) :
    ∃ q r, p.round peer = some (q, r) ∧ q.Ready peer ∧
      (∃ l, q.leader = { p.leader with leaderPtr := some l }) ∧ Failed peer p q r := by
  have hbeat := h.heartBeatToServer
  rw [if_pos hnext] at hbeat
  have hbase := h.leaderRooted.base_le
  obtain ⟨l, hl, hreply⟩ := h.installReply ⟨p.follower.currentTerm⟩ h.term
  have hobserve : (p.follower.observe p.leader.currentTerm).currentTerm ≤
      p.leader.currentTerm := by
    rw [Raft.currentTerm_observe]
    exact max_le h.term le_rfl
  have hseq := h.followerRooted.index.installSnapshot p.leader.buildInstall
  have hspec := Raft.installSnapshot_spec p.follower p.leader.buildInstall
  unfold round
  rw [hbeat]
  dsimp only
  generalize p.follower.installSnapshot p.leader.buildInstall = o at hspec hseq
  cases hspec with
  | stale hlt => exact absurd hlt (not_lt.mpr h.term)
  | behind _ hle =>
    dsimp only
    rw [hreply]
    exact ⟨_, _, rfl, h.of_same (by omega) hobserve (Raft.logs_observe _ _)
      (Raft.lastIncludedIndex_observe _ _) (Raft.lastIncludedTerm_observe _ _)
      (Raft.commitIndex_observe _ _), ⟨l, rfl⟩,
      .ignore hnext hle (Raft.logs_observe _ _) (Raft.lastIncludedIndex_observe _ _) hl⟩
  | panic _ hlt hnone => exact absurd hnone (h.followerRooted.logsAfterInstall_ne_none hlt.le)
  | install _ hlt logs hlogs =>
    dsimp only
    rw [hreply]
    have hroot := Raft.Rooted.of_install hlogs hseq rfl rfl
    refine ⟨_, _, rfl, h.of_follower (by omega) hobserve hroot le_rfl ?_, ⟨l, rfl⟩,
      .install hnext hlt rfl (fun hasc => hasc.of_install h.followerRooted hlogs) hl⟩
    -- what is committed now ends with the sentinel, which is the leader's
    intro i hi
    have hi' : i ≤ p.leader.lastIncludedIndex := hi
    refine ⟨by omega, fun a b ha hb => ?_⟩
    obtain rfl : i = p.leader.lastIncludedIndex := le_antisymm hi' (hroot.le_of_logAt hb).1
    obtain ⟨a', ha', hta⟩ := h.leaderRooted.logAt_base
    obtain ⟨b', hb', htb⟩ := hroot.logAt_base
    obtain rfl := Option.some.inj (ha'.symm.trans ha)
    obtain rfl := Option.some.inj (hb'.symm.trans hb)
    exact hta.trans htb.symm

/-- The leader sends all entries from the next index on.

**Proof sketch.** The next index lies in the log of the leader, behind the sentinel, so the previous
entry is there and its index is that of its place. -/
lemma Ready.buildAppend_entries (h : p.Ready peer)
    (hlow : p.leader.lastIncludedIndex < p.leader.nextIndex peer)
    (hle : p.leader.nextIndex peer ≤ p.leader.lastIndex) :
    ∃ pe, p.leader.logAt (p.leader.nextIndex peer - 1) = some pe ∧
      p.leader.buildAppend peer = .ok p.leader (some ⟨p.leader.currentTerm, p.leader.me,
        some (p.leader.nextIndex peer - 1), some pe.logTerm,
        p.leader.logs.drop (p.leader.nextIndex peer - p.leader.lastIncludedIndex),
        p.leader.commitIndex⟩) := by
  obtain ⟨l, hl, hnext⟩ := h.exists_ptr
  obtain ⟨last, hlast, hidx⟩ := h.leaderRooted.getLastLog
  obtain ⟨pe, hpe⟩ := h.leaderRooted.exists_logAt (i := p.leader.nextIndex peer - 1) (by omega)
    (by omega)
  have hpos : p.leader.logs[l.nextIndexs peer - p.leader.lastIncludedIndex - 1]? = some pe := by
    rw [← (Raft.logAt_eq_some_iff.mp hpe).2]
    congr 1
    omega
  have hpidx : pe.logIndex = l.nextIndexs peer - 1 := by
    rw [h.leaderRooted.index.logIndex_of_logAt hpe, hnext]
  have h1 : l.nextIndexs peer ≤ last.logIndex := by omega
  have h2 : ¬ l.nextIndexs peer ≤ p.leader.lastIncludedIndex := by omega
  refine ⟨pe, hpe, ?_⟩
  simp [Raft.buildAppend, hl, hlast, h1, h2, hpos, hpidx, hnext]

/-- What a leader needs for a heartbeat, and what a follower keeps under it. -/
structure Quiet (peer : Fin n) (p : Pair n Cmd Snap) : Prop where
  role : p.leader.role = .leader
  ptr : p.leader.leaderPtr.isSome = true
  leaderRooted : p.leader.Rooted
  next : p.leader.lastIndex < p.leader.nextIndex peer
  term : p.follower.currentTerm ≤ p.leader.currentTerm

/-- A leader that is ready and has nothing to send. -/
lemma Ready.quiet (h : p.Ready peer) (hnext : p.leader.lastIndex < p.leader.nextIndex peer) :
    p.Quiet peer :=
  ⟨h.role, h.ptr, h.leaderRooted, hnext, h.term⟩

/-- With nothing to send the leader sends a heartbeat. -/
lemma Quiet.buildAppend (h : p.Quiet peer) :
    p.leader.buildAppend peer = .ok p.leader
      (some ⟨p.leader.currentTerm, p.leader.me, none, none, [], p.leader.commitIndex⟩) := by
  obtain ⟨l, hl⟩ := Option.isSome_iff_exists.mp h.ptr
  obtain ⟨last, hlast, hidx⟩ := h.leaderRooted.getLastLog
  have hnext := h.next
  have hnot : ¬ l.nextIndexs peer ≤ last.logIndex := by
    simp only [Raft.nextIndex, hl, Option.map_some, Option.getD_some] at hnext
    omega
  simp [Raft.buildAppend, hl, hlast, hnot]

/-- **A round with nothing to send** is a heartbeat, which changes nothing at the leader; only the
follower's commit index may move.

**Proof sketch.** The leader sends a request without entries. The follower runs its commit loop,
which changes no log, and the leader finds no last entry in its request. -/
lemma round_idle (h : p.Quiet peer) {q : Pair n Cmd Snap} {r : Option (Exchange n Cmd)}
    (hround : p.round peer = some (q, r)) :
    q.Quiet peer ∧ ∃ args reply, r = some (args, reply) ∧ args.entries = [] := by
  obtain ⟨l, hl⟩ := Option.isSome_iff_exists.mp h.ptr
  obtain ⟨last, hlast, -⟩ := h.leaderRooted.getLastLog
  have hbase := h.leaderRooted.base_le
  have hnext := h.next
  have hbeat : p.leader.heartBeatToServer peer = .ok p.leader .append := by
    simp only [Raft.nextIndex, hl, Option.map_some, Option.getD_some] at hnext
    have hnot : ¬ l.nextIndexs peer ≤ p.leader.lastIncludedIndex := by omega
    simp [Raft.heartBeatToServer, h.role, hl, hnot]
  have hhandle : p.follower.appendEntries
      ⟨p.leader.currentTerm, p.leader.me, none, none, [], p.leader.commitIndex⟩ =
      (p.follower.becomeFollower p.leader.currentTerm).advanceCommit p.leader.commitIndex
        { followerTerm := p.leader.currentTerm, success := true } := by
    have hnot : ¬ p.leader.currentTerm < p.follower.currentTerm := not_lt.mpr h.term
    simp [Raft.appendEntries, hnot]
  obtain ⟨ms, i, j, hstate⟩ := Raft.advanceCommit_eq
    (p.follower.becomeFollower p.leader.currentTerm) p.leader.commitIndex
    { followerTerm := p.leader.currentTerm, success := true }
  simp only [round, hbeat, h.buildAppend, hhandle] at hround
  generalize hcommit : Raft.advanceCommit _ _ _ = o at hround hstate
  cases o with
  | panic => simp at hround
  | ok follower reply =>
    obtain rfl := Raft.reply_of_advanceCommit hcommit
    simp only [Raft.appendReply, hl, hlast, if_true, ne_eq, not_true_eq_false, if_false,
      List.getLast?_nil] at hround
    obtain ⟨rfl, rfl⟩ := Prod.mk.inj (Option.some.inj hround)
    refine ⟨⟨h.role, h.ptr, h.leaderRooted, h.next, ?_⟩, _, _, rfl, rfl⟩
    rw [show follower = _ from hstate]
    exact le_rfl

/-- A round in which the leader sends entries. -/
lemma Ready.round_eq (h : p.Ready peer)
    (hlow : p.leader.lastIncludedIndex < p.leader.nextIndex peer)
    {args : AppendEntriesArgs n Cmd} {leader follower : Raft n Cmd Snap}
    {reply : AppendEntriesReply} (hbuild : p.leader.buildAppend peer = .ok p.leader (some args))
    (hhandle : p.follower.appendEntries args = .ok follower reply)
    (hreply : p.leader.appendReply peer args reply = .ok leader ()) :
    p.round peer = some (⟨leader, follower⟩, some (args, reply)) := by
  have hbeat := h.heartBeatToServer
  rw [if_neg (not_le.mpr hlow)] at hbeat
  simp [round, hbeat, hbuild, hhandle, hreply]

/-- A refusal without a conflicting term. -/
lemma Ready.appendConflict_short (h : p.Ready peer) (reply : AppendEntriesReply)
    (hx : reply.xterm = none) : ∃ l : Leader n, l.nextIndexs peer = reply.xlen + 1 ∧
      p.leader.appendConflict peer reply = .ok { p.leader with leaderPtr := some l } () := by
  obtain ⟨l, hl, -⟩ := h.exists_ptr
  exact ⟨_, by simp [Raft.setPeer], Raft.appendConflict_short hl peer hx⟩

/-- A refusal with a conflicting term, and the follower's first entry of this term. -/
lemma Ready.appendConflict_term (h : p.Ready peer) {reply : AppendEntriesReply} {t : ℕ}
    (hx : reply.xterm = some t) (hbase : p.follower.lastIncludedIndex < reply.xindex)
    (hlt : reply.xindex < p.leader.nextIndex peer) {first : LogEntry Cmd}
    (hfirst : p.follower.logAt reply.xindex = some first) (hfirst' : first.logTerm = t) :
    ∃ l : Leader n,
      p.leader.appendConflict peer reply = .ok { p.leader with leaderPtr := some l } () ∧
      GoesBack peer p t (l.nextIndexs peer) := by
  obtain ⟨l, hl, hnext⟩ := h.exists_ptr
  obtain ⟨r, hr, hcases⟩ := Raft.backupScan_spec h.leaderRooted t reply.xindex
    p.leader.lastIndex le_rfl
  refine ⟨_, h.leaderRooted.appendConflict_term hl peer hx hr, ?_⟩
  simp only [Raft.setPeer, Function.update_self]
  rcases hcases with ⟨rfl, hlater⟩ | ⟨i, e, he, -, hlater, ⟨hterm, rfl⟩ | ⟨hterm, rfl⟩⟩
  · rw [Option.getD_none, ← hnext]
    exact .unchanged hlater
  · exact .found he hterm hlater
  · exact .absent he hterm hlater hbase hlt hfirst hfirst'

/-- After a conflict the next index is at most one behind the leader's log. -/
lemma GoesBack.le (h : p.Ready peer) {t next : ℕ} (hback : GoesBack peer p t next) :
    next ≤ p.leader.lastIndex + 1 := by
  have hnext := h.next
  cases hback with
  | unchanged => exact hnext
  | found he =>
    have := (h.leaderRooted.le_of_logAt he).2
    omega
  | absent => omega

/-- The entries that go out end with the leader's last one. -/
lemma getLast?_entries {rf : Raft n Cmd Snap} (h : rf.Rooted) {k : ℕ}
    (hk : k < rf.logs.length) :
    ∃ last, (rf.logs.drop k).getLast? = some last ∧ last.logIndex = rf.lastIndex := by
  obtain ⟨last, hlast, hidx⟩ := h.getLastLog
  refine ⟨last, ?_, hidx⟩
  rw [List.getLast?_drop, if_neg (not_le.mpr hk)]
  exact hlast

/-- A round whose previous entry the follower has.

**Proof sketch.** The last entry of the request is the last one of the leader, so the leader sets
the next index of the peer behind its log. -/
lemma succeeds_of_match (h : p.Ready peer)
    (hlow : p.leader.lastIncludedIndex < p.leader.nextIndex peer)
    (hle : p.leader.nextIndex peer ≤ p.leader.lastIndex)
    {args : AppendEntriesArgs n Cmd} (hbuild : p.leader.buildAppend peer = .ok p.leader (some args))
    (hterm : args.leaderTerm = p.leader.currentTerm)
    (hentries : args.entries =
      p.leader.logs.drop (p.leader.nextIndex peer - p.leader.lastIncludedIndex))
    {reply : AppendEntriesReply} (hs : reply.success = true)
    {follower : Raft n Cmd Snap} (hhandle : p.follower.appendEntries args = .ok follower reply) :
    p.Succeeds peer := by
  obtain ⟨l, hl, -⟩ := h.exists_ptr
  have hlast := h.leaderRooted.lastIndex_succ
  obtain ⟨e, he, hidx⟩ := getLast?_entries h.leaderRooted
    (k := p.leader.nextIndex peer - p.leader.lastIncludedIndex) (by omega)
  obtain ⟨leader, hsuccess, hnext, hlogs⟩ := h.leaderRooted.appendSuccess_ok h.leaderCommit hl peer
    (show e.logIndex ≤ p.leader.lastIndex by omega)
  have hreply : p.leader.appendReply peer args reply = .ok leader () := by
    simp [Raft.appendReply, hs, hterm, hentries, he, hsuccess]
  have hne : args.entries ≠ [] := by
    rintro hnil
    rw [← hentries, hnil] at he
    simp at he
  refine ⟨_, args, reply, h.round_eq hlow hbuild hhandle hreply, hne, hs, ?_⟩
  rw [hnext, hidx, Raft.lastIndex_congr hlogs]

/-- A conflict is above what the follower knows to be committed. -/
lemma Ready.commit_lt_conflict (h : p.Ready peer) {prev : ℕ} {pe old : LogEntry Cmd}
    (hpe : p.leader.logAt prev = some pe) (hold : p.follower.logAt prev = some old)
    (hne : old.logTerm ≠ pe.logTerm) : p.follower.commitIndex < prev := by
  by_contra hle
  exact hne ((h.agree prev (not_lt.mp hle)).2 pe old hpe hold).symm

/-- The follower cuts its log before a conflict, and the leader goes back.

**Proof sketch.** The follower's log is cut before the conflict, which is above its commit index, so
the committed entries still agree. Its first entry of the conflicting term is above its root and not
behind the conflict, and from there the leader's search goes back (`appendConflict_term`). -/
lemma Ready.failed_conflict (h : p.Ready peer) {prev : ℕ} {pe old : LogEntry Cmd}
    (hnext : p.leader.nextIndex peer = prev + 1)
    (hpe : p.leader.logAt prev = some pe) (hold : p.follower.logAt prev = some old)
    (hne : old.logTerm ≠ pe.logTerm) {follower : Raft n Cmd Snap}
    (hfollower : follower = Raft.persist { p.follower.becomeFollower p.leader.currentTerm with
      logs := p.follower.logs.take (prev - p.follower.lastIncludedIndex) })
    {reply : AppendEntriesReply}
    (hrefusal : reply = {
      followerTerm := p.leader.currentTerm, success := false, xterm := some old.logTerm,
      xindex := Raft.firstOfTerm p.follower.logs (prev - p.follower.lastIncludedIndex)
        old.logTerm }) :
    ∃ l : Leader n,
      p.leader.appendConflict peer reply = .ok { p.leader with leaderPtr := some l } () ∧
      Ready peer ⟨{ p.leader with leaderPtr := some l }, follower⟩ ∧
      ∀ args, Failed peer p ⟨{ p.leader with leaderPtr := some l }, follower⟩
        (some (args, reply)) := by
  have hlt := h.commit_lt_conflict hpe hold hne
  have hfc := h.followerCommit
  obtain ⟨-, hprev⟩ := h.leaderRooted.le_of_logAt hpe
  obtain ⟨-, hprev'⟩ := h.followerRooted.le_of_logAt hold
  obtain ⟨hle, hget⟩ := Raft.logAt_eq_some_iff.mp hold
  have hlogs : follower.logs = p.follower.logs.take (prev - p.follower.lastIncludedIndex) := by
    rw [hfollower]; rfl
  have hbase : follower.lastIncludedIndex = p.follower.lastIncludedIndex := by
    rw [hfollower]; rfl
  have hroot : follower.lastIncludedTerm = p.follower.lastIncludedTerm := by
    rw [hfollower]; rfl
  have hcommit : follower.commitIndex = p.follower.commitIndex := by
    rw [hfollower]; rfl
  have hterm : follower.currentTerm ≤ p.leader.currentTerm := by
    rw [hfollower]; exact le_rfl
  have hxi : reply.xindex = Raft.firstOfTerm p.follower.logs
      (prev - p.follower.lastIncludedIndex) old.logTerm := by rw [hrefusal]
  have hrooted : follower.Rooted := h.followerRooted.cut (by omega) hlogs hbase hroot
  have hlast : follower.lastIndex + 1 = prev := by
    have h1 := hrooted.lastIndex_succ
    have h2 := (List.getElem?_eq_some_iff.mp hget).1
    rw [hbase, hlogs, List.length_take] at h1
    omega
  obtain ⟨hlow', hle', first, hfirst, hft⟩ :=
    Raft.firstOfTerm_spec h.followerRooted hget (by omega)
  rw [← hxi] at hlow' hle' hfirst
  obtain ⟨l, hreply, hback⟩ := h.appendConflict_term
    (show reply.xterm = some old.logTerm by rw [hrefusal]) hlow' (by omega) hfirst hft
  refine ⟨l, hreply, h.of_follower (hback.le h) hterm hrooted (by omega) ?_, fun args =>
    .conflict args reply (by rw [hrefusal]) hnext hpe hold hne hlt hlogs hlast hbase hback⟩
  -- the cut is above the commit index, so the lookups below it are the old ones
  rw [hcommit]
  intro i hi
  rw [Raft.logAt_cut hle hlogs hbase, if_pos (by omega)]
  exact h.agree i hi

/-- The follower takes the entries behind a previous entry it has, and finds what it commits. -/
lemma Ready.adopt_ok (h : p.Ready peer) {prev next : ℕ} {old : LogEntry Cmd}
    (hlow : p.follower.lastIncludedIndex ≤ prev)
    (hpos : p.follower.logs[prev - p.follower.lastIncludedIndex]? = some old)
    (hnext : next = prev + 1) {entries : List (LogEntry Cmd)} (hentries : Consecutive next entries)
    (term leaderCommit : ℕ) (reply : AppendEntriesReply) :
    ∃ follower, ((p.follower.becomeFollower term).adopt (prev - p.follower.lastIncludedIndex)
      entries).advanceCommit leaderCommit reply = .ok follower reply := by
  have hroot : (p.follower.becomeFollower term).Rooted := h.followerRooted.congr rfl rfl rfl
  have hadopt : ((p.follower.becomeFollower term).adopt (prev - p.follower.lastIncludedIndex)
      entries).Rooted := by
    refine hroot.adopt (List.getElem?_eq_some_iff.mp hpos).1 ?_
    show Consecutive (p.follower.lastIncludedIndex + _ + 1) entries
    rw [Nat.add_sub_cancel' hlow, ← hnext]
    exact hentries
  exact hadopt.advanceCommit_ok h.followerCommit leaderCommit reply

/-- The entries that go out have the indexes from the next index on. -/
lemma Ready.consecutive_entries (h : p.Ready peer)
    (hlow : p.leader.lastIncludedIndex < p.leader.nextIndex peer) :
    Consecutive (p.leader.nextIndex peer) (p.leader.logs.drop
      (p.leader.nextIndex peer - p.leader.lastIncludedIndex)) := by
  have hdrop := Consecutive.drop h.leaderRooted.index
    (p.leader.nextIndex peer - p.leader.lastIncludedIndex)
  rwa [Nat.add_sub_cancel' hlow.le] at hdrop

/-- A round in which the leader sends entries is successful, with a previous entry that both have,
or it fails.

**Proof sketch.** The ends of `AppendEntries`, one by one. The request is of the leader's term and
has entries, so it is not stale and no heartbeat; the follower's log has its root, so no lookup is
outside of it. -/
lemma round_append (h : p.Ready peer)
    (hlow : p.leader.lastIncludedIndex < p.leader.nextIndex peer)
    (hle : p.leader.nextIndex peer ≤ p.leader.lastIndex) :
    (p.Succeeds peer ∧
      Raft.AgreeAt p.leader p.follower (p.leader.nextIndex peer - 1)) ∨
    ∃ q r, p.round peer = some (q, r) ∧ q.Ready peer ∧
      (∃ l, q.leader = { p.leader with leaderPtr := some l }) ∧ Failed peer p q r := by
  obtain ⟨pe, hpe, hbuild⟩ := h.buildAppend_entries hlow hle
  obtain ⟨prev, hprev⟩ : ∃ prev, p.leader.nextIndex peer = prev + 1 :=
    ⟨p.leader.nextIndex peer - 1, by omega⟩
  have hlast := h.leaderRooted.lastIndex_succ
  have hlen : p.leader.nextIndex peer - p.leader.lastIncludedIndex < p.leader.logs.length := by
    omega
  have hidx : p.leader.nextIndex peer - 1 = prev := by omega
  rw [hidx] at hpe hbuild
  obtain ⟨fl, hfl, hflidx⟩ := h.followerRooted.getLastLog
  have hspec := Raft.appendEntries_spec p.follower ⟨p.leader.currentTerm, p.leader.me, some prev,
    some pe.logTerm, p.leader.logs.drop (p.leader.nextIndex peer - p.leader.lastIncludedIndex),
    p.leader.commitIndex⟩
  generalize hhandle : p.follower.appendEntries _ = o at hspec
  cases hspec with
  | stale hlt => exact absurd hlt (not_lt.mpr h.term)
  | heartbeat _ he => exact absurd (List.drop_eq_nil_iff.mp he) (not_le.mpr hlen)
  | below _ _ hunder =>
    have hunder' := hunder prev rfl
    obtain ⟨l, hl, hconflict⟩ := h.appendConflict_short
      ⟨p.leader.currentTerm, false, none, 0, 0⟩ rfl
    have hl' : l.nextIndexs peer = 1 := hl
    refine Or.inr ⟨_, _, h.round_eq hlow hbuild hhandle
      ((Raft.appendReply_refused peer rfl rfl rfl).trans hconflict), ?_, ⟨l, rfl⟩, ?_⟩
    · exact h.of_same (by omega) le_rfl rfl rfl rfl rfl
    · exact .below _ _ rfl hlow (by omega) rfl rfl hl'
  | empty _ hnone => exact absurd (hnone.symm.trans hfl) (by simp)
  | beyond _ _ prev' hprev' last hlast' hlt =>
    obtain rfl : prev = prev' := Option.some.inj hprev'
    obtain rfl : fl = last := Option.some.inj (hfl.symm.trans hlast')
    obtain ⟨l, hl, hconflict⟩ := h.appendConflict_short
      ⟨p.leader.currentTerm, false, none, 0, fl.logIndex⟩ rfl
    have hl' : l.nextIndexs peer = p.follower.lastIndex + 1 := by rw [hl, hflidx]
    refine Or.inr ⟨_, _, h.round_eq hlow hbuild hhandle
      ((Raft.appendReply_refused peer rfl rfl rfl).trans hconflict), ?_, ⟨l, rfl⟩, ?_⟩
    · exact h.of_same (by omega) le_rfl rfl rfl rfl rfl
    · exact .beyond _ _ rfl hlow (by omega) rfl rfl hl'
  | outside _ prev' last hlow' hlast' hle' hnone =>
    obtain rfl : fl = last := Option.some.inj (hfl.symm.trans hlast')
    obtain ⟨e, he⟩ := h.followerRooted.exists_logAt hlow' (by omega)
    exact absurd (hnone.symm.trans (Raft.logAt_eq_some_iff.mp he).2) (by simp)
  | accept _ _ prev' hprev' hlow' old hpos hterm =>
    obtain rfl : prev = prev' := Option.some.inj hprev'
    obtain ⟨follower, hadvance⟩ := h.adopt_ok hlow' hpos hprev (h.consecutive_entries hlow)
      p.leader.currentTerm p.leader.commitIndex
      { followerTerm := p.leader.currentTerm, success := true }
    exact Or.inl ⟨succeeds_of_match h hlow hle hbuild rfl rfl rfl (hhandle.trans hadvance), pe, old,
      hidx.symm ▸ hpe, hidx.symm ▸ Raft.logAt_eq_some_iff.mpr ⟨hlow', hpos⟩,
      (Option.some.inj hterm).symm⟩
  | conflict _ _ prev' hprev' hlow' old hpos hterm =>
    obtain rfl : prev = prev' := Option.some.inj hprev'
    have hold : p.follower.logAt prev = some old := Raft.logAt_eq_some_iff.mpr ⟨hlow', hpos⟩
    obtain ⟨l, hconflict, hready, hfailed⟩ := h.failed_conflict hprev hpe hold
      (fun heq => hterm (congrArg some heq)) rfl rfl
    exact Or.inr ⟨_, _, h.round_eq hlow hbuild hhandle
      ((Raft.appendReply_refused peer rfl rfl rfl).trans hconflict), hready, ⟨l, rfl⟩,
      hfailed _⟩

/-- **What a round with something to send does.** It panics nowhere. It is successful, with a
previous entry that both have, or it fails in one of the known ways and leaves two servers that are
ready for the next round. -/
theorem round_spec (h : p.Ready peer) (hidle : ¬ p.Idle peer) :
    (p.Succeeds peer ∧
      Raft.AgreeAt p.leader p.follower (p.leader.nextIndex peer - 1)) ∨
    ∃ q r, p.round peer = some (q, r) ∧ q.Ready peer ∧
      (∃ l, q.leader = { p.leader with leaderPtr := some l }) ∧ Failed peer p q r := by
  unfold Idle at hidle
  rcases Nat.lt_or_ge p.leader.lastIncludedIndex (p.leader.nextIndex peer) with hlow | hlow
  · exact round_append h hlow (by omega)
  · exact Or.inr (round_install h hlow)

end Pair

end Mit6824
