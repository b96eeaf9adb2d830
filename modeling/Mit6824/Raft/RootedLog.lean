import Mit6824.Raft.Shape

set_option autoImplicit false

/-!
# Logs with a root

A log that is in sequence and starts with an entry of the snapshot's term: every index from the
snapshot to the last entry has its entry, so the accesses of the commit loops and of the searches
for a conflicting term are in the log (`raft/raft.go`).

## Main definitions

* `Mit6824.Raft.Ascending` — the terms of the log do not decrease.
* `Mit6824.Raft.AgreeAt` — both logs have an entry of the same term at an index.

## Main results

* `Mit6824.Raft.Rooted.adopt`, `Mit6824.Raft.Rooted.cut`, `Mit6824.Raft.Rooted.of_install` — the
  changes of the log that keep the root.
* `Mit6824.Raft.Rooted.commitUpTo_ok`, `Mit6824.Raft.Rooted.appendSuccess_ok` — committing panics
  nowhere, and what it sends.
* `Mit6824.Raft.backupScan_spec`, `Mit6824.Raft.firstOfTerm_spec` — where the searches of leader and
  follower for a conflicting term end.
-/

namespace Mit6824

variable {n : ℕ} {Cmd Snap : Type}

namespace Raft

/-- The index of the last entry. -/
def lastIndex (rf : Raft n Cmd Snap) : ℕ := (rf.getLastLog.map LogEntry.logIndex).getD 0

/-- The next index for a peer. -/
def nextIndex (rf : Raft n Cmd Snap) (peer : Fin n) : ℕ :=
  (rf.leaderPtr.map fun l => l.nextIndexs peer).getD 0

/-- The next index that has just been recorded. -/
lemma nextIndex_setPeer (rf : Raft n Cmd Snap) (l : Leader n) (peer : Fin n) (next m : ℕ) :
    ({ rf with leaderPtr := some (setPeer l peer next m) } : Raft n Cmd Snap).nextIndex peer =
      next := by
  simp [nextIndex, setPeer]

/-- The terms of the log do not decrease. -/
def Ascending (rf : Raft n Cmd Snap) : Prop := (rf.logs.map LogEntry.logTerm).Pairwise (· ≤ ·)

instance (rf : Raft n Cmd Snap) : Decidable rf.Ascending :=
  inferInstanceAs (Decidable (List.Pairwise _ _))

/-- Both logs have an entry of the same term at index `i`. -/
def AgreeAt (ld fl : Raft n Cmd Snap) (i : ℕ) : Prop :=
  ∃ a b, ld.logAt i = some a ∧ fl.logAt i = some b ∧ a.logTerm = b.logTerm

/-! ## Logs with a root -/

section Rooted

variable {rf rf' : Raft n Cmd Snap}

/-- Only the log and the snapshot count. -/
lemma Rooted.congr (h : rf.Rooted) (hlogs : rf'.logs = rf.logs)
    (hbase : rf'.lastIncludedIndex = rf.lastIncludedIndex)
    (hterm : rf'.lastIncludedTerm = rf.lastIncludedTerm) : rf'.Rooted := by
  refine ⟨h.index.congr hlogs hbase, ?_⟩
  rw [hlogs, hterm]
  exact h.sentinel

/-- The last index depends on the log only. -/
lemma lastIndex_congr (hlogs : rf'.logs = rf.logs) : rf'.lastIndex = rf.lastIndex := by
  unfold lastIndex getLastLog
  rw [hlogs]

/-- A log with a root is not empty. -/
lemma Rooted.length_pos (h : rf.Rooted) : 0 < rf.logs.length := by
  obtain ⟨e, he, -⟩ := h.sentinel
  rw [List.length_pos_iff]
  rintro hnil
  simp [hnil] at he

/-- A log with a root has a last entry. -/
lemma Rooted.getLastLog (h : rf.Rooted) :
    ∃ last, rf.getLastLog = some last ∧ last.logIndex = rf.lastIndex := by
  have hne : rf.logs ≠ [] := List.length_pos_iff.mp h.length_pos
  have hlast : rf.getLastLog = some (rf.logs.getLast hne) := List.getLast?_eq_some_getLast hne
  exact ⟨_, hlast, by simp [lastIndex, hlast]⟩

/-- The last index is the one at which the log ends. -/
lemma Rooted.lastIndex_succ (h : rf.Rooted) :
    rf.lastIndex + 1 = rf.lastIncludedIndex + rf.logs.length := by
  obtain ⟨last, hlast, hidx⟩ := h.getLastLog
  rw [← hidx]
  exact Consecutive.logIndex_of_getLast? h.index hlast

/-- The root is not behind the last entry. -/
lemma Rooted.base_le (h : rf.Rooted) : rf.lastIncludedIndex ≤ rf.lastIndex := by
  have := h.lastIndex_succ
  have := h.length_pos
  omega

/-- Between the root and the last index there is an entry. -/
lemma Rooted.exists_logAt (h : rf.Rooted) {i : ℕ} (hlow : rf.lastIncludedIndex ≤ i)
    (hi : i ≤ rf.lastIndex) : ∃ e, rf.logAt i = some e := by
  have hlast := h.lastIndex_succ
  have hlt : i - rf.lastIncludedIndex < rf.logs.length := by omega
  exact ⟨_, logAt_eq_some_iff.mpr ⟨hlow, List.getElem?_eq_getElem hlt⟩⟩

/-- An entry is found between the root and the last index. -/
lemma Rooted.le_of_logAt (h : rf.Rooted) {i : ℕ} {e : LogEntry Cmd} (he : rf.logAt i = some e) :
    rf.lastIncludedIndex ≤ i ∧ i ≤ rf.lastIndex := by
  obtain ⟨hlow, hget⟩ := logAt_eq_some_iff.mp he
  have hlt := (List.getElem?_eq_some_iff.mp hget).1
  have hlast := h.lastIndex_succ
  exact ⟨hlow, by omega⟩

/-- In an ascending log, earlier entries have smaller terms. -/
lemma Ascending.logTerm_le (h : rf.Ascending) {i j : ℕ} (hij : i ≤ j) {a b : LogEntry Cmd}
    (ha : rf.logAt i = some a) (hb : rf.logAt j = some b) : a.logTerm ≤ b.logTerm := by
  obtain ⟨hi, hgeta⟩ := logAt_eq_some_iff.mp ha
  obtain ⟨hj, hgetb⟩ := logAt_eq_some_iff.mp hb
  rcases Nat.lt_or_ge i j with hlt | hge
  · obtain ⟨hia, rfl⟩ := List.getElem?_eq_some_iff.mp hgeta
    obtain ⟨hjb, rfl⟩ := List.getElem?_eq_some_iff.mp hgetb
    have hpair := List.pairwise_iff_getElem.mp h (i - rf.lastIncludedIndex)
      (j - rf.lastIncludedIndex) (by simpa using hia) (by simpa using hjb) (by omega)
    simpa using hpair
  · obtain rfl : i = j := by omega
    obtain rfl : a = b := Option.some.inj (ha.symm.trans hb)
    exact le_rfl

/-- Adopting entries that go on where the log was cut keeps the root. -/
lemma Rooted.adopt (h : rf.Rooted) {k : ℕ} (hk : k < rf.logs.length)
    {entries : List (LogEntry Cmd)}
    (hentries : Consecutive (rf.lastIncludedIndex + k + 1) entries) :
    (rf.adopt k entries).Rooted := by
  constructor
  · refine Consecutive.append (Consecutive.take h.index _) ?_
    rw [List.length_take, Nat.min_eq_left hk]
    exact hentries
  · obtain ⟨e, he, hterm⟩ := h.sentinel
    refine ⟨e, ?_, hterm⟩
    show e ∈ (rf.logs.take (k + 1) ++ entries).head?
    cases hlogs : rf.logs with
    | nil => simp [hlogs] at he
    | cons a as => simpa [hlogs] using he

/-- Cutting the log above its root keeps the root. -/
lemma Rooted.cut (h : rf.Rooted) {k : ℕ} (hk : 0 < k)
    (hlogs : rf'.logs = rf.logs.take k) (hbase : rf'.lastIncludedIndex = rf.lastIncludedIndex)
    (hterm : rf'.lastIncludedTerm = rf.lastIncludedTerm) : rf'.Rooted := by
  constructor
  · unfold InSequence
    rw [hlogs, hbase]
    exact Consecutive.take h.index k
  · rw [hlogs, hterm, List.head?_take, if_neg (by omega)]
    exact h.sentinel

/-- The log that an installed snapshot leaves has its root. -/
lemma Rooted.of_install {args : InstallSnapshotArgs n Snap}
    {logs : List (LogEntry Cmd)} (hlogs : rf.logsAfterInstall args = some logs)
    (hseq : rf'.InSequence) (hlogs' : rf'.logs = logs)
    (hterm : rf'.lastIncludedTerm = args.lastIncludedTerm) : rf'.Rooted := by
  refine ⟨hseq, ?_⟩
  rw [hlogs', hterm]
  obtain ⟨last, -, ⟨-, rfl⟩ | ⟨e, hlt, he, ⟨-, rfl⟩ | ⟨heq, rfl⟩⟩⟩ :=
    logsAfterInstall_cases hlogs
  · exact ⟨_, rfl, rfl⟩
  · exact ⟨_, rfl, rfl⟩
  · -- the entry at the snapshot stays as the sentinel
    obtain ⟨-, hget⟩ := logAt_eq_some_iff.mp he
    obtain ⟨hpos, hval⟩ := List.getElem?_eq_some_iff.mp hget
    rw [copyInto, List.drop_eq_getElem_cons hpos, hval, List.take_succ_cons]
    exact ⟨_, rfl, heq⟩

/-- The log that an installed snapshot leaves has ascending terms if the old one had: it is new, or
a part of the old one. -/
lemma Ascending.of_install (h : rf.Ascending) (hroot : rf.Rooted)
    {args : InstallSnapshotArgs n Snap} {logs : List (LogEntry Cmd)}
    (hlogs : rf.logsAfterInstall args = some logs) :
    (logs.map LogEntry.logTerm).Pairwise (· ≤ ·) := by
  obtain ⟨last, hlast, ⟨-, rfl⟩ | ⟨e, hlt, he, ⟨-, rfl⟩ | ⟨-, rfl⟩⟩⟩ :=
    logsAfterInstall_cases hlogs
  · exact List.pairwise_singleton _ _
  · exact List.pairwise_singleton _ _
  · rw [hroot.index.copyInto_eq hlast (logAt_eq_some_iff.mp he).1 hlt, map_logTerm_markSentinel,
      List.map_drop]
    exact List.Pairwise.sublist (List.drop_sublist _ _) h

/-- A snapshot above the root finds what it needs in the log. -/
lemma Rooted.logsAfterInstall_ne_none (h : rf.Rooted)
    {args : InstallSnapshotArgs n Snap} (hle : rf.lastIncludedIndex ≤ args.lastIncludedIndex) :
    rf.logsAfterInstall args ≠ none := by
  obtain ⟨last, hlast, hidx⟩ := h.getLastLog
  unfold logsAfterInstall
  rw [hlast]
  dsimp only
  split_ifs with hlt
  · obtain ⟨e, he⟩ := h.exists_logAt hle (by omega)
    rw [he]
    dsimp only
    split_ifs <;> simp
  · simp

end Rooted

/-! ## Sections that do not panic -/

section Commit

variable {rf : Raft n Cmd Snap}

/-- The message that sends the entry at index `k`; there is none for an internal entry. -/
def applyMsgAt (rf : Raft n Cmd Snap) (k : ℕ) : Option (ApplyMsg Cmd Snap) :=
  (rf.logAt k).bind fun e =>
    if e.isInternalLog then none
    else some {
      commandValid := true
      command := e.command
      commandIndex := e.commandIndex
      logIndex := e.logIndex }

/-- The messages for the entries above index `a` and up to index `b`. -/
def applyMsgs (rf : Raft n Cmd Snap) (a b : ℕ) : List (ApplyMsg Cmd Snap) :=
  (List.range' (a + 1) (b - a)).filterMap rf.applyMsgAt

/-- Sending an entry that is there. -/
lemma sendEntry_of_logAt {k : ℕ} {e : LogEntry Cmd} (he : rf.logAt k = some e) :
    rf.sendEntry k = some { rf with applyChan := rf.applyChan ++ (rf.applyMsgAt k).toList } := by
  unfold sendEntry applyMsgAt
  rw [he]
  dsimp only [Option.bind_some]
  split_ifs <;> simp

/-- The commit loop finds every entry it sends. -/
lemma commitLoop_ok (leaderCommit : ℕ) : ∀ (fuel : ℕ) (rf : Raft n Cmd Snap), rf.Rooted →
    rf.lastIncludedIndex ≤ rf.commitIndex →
    ∃ rf', commitLoop leaderCommit fuel rf = .ok rf' ()
  | 0, rf, _, _ => ⟨rf, rfl⟩
  | fuel + 1, rf, hroot, hlow => by
    obtain ⟨last, hlast, hidx⟩ := hroot.getLastLog
    unfold commitLoop
    rw [hlast]
    dsimp only
    split_ifs with hc
    · obtain ⟨e, he⟩ := hroot.exists_logAt (i := rf.commitIndex + 1) (by omega) (by omega)
      rw [sendEntry_of_logAt he]
      exact commitLoop_ok leaderCommit fuel _ (hroot.congr rfl rfl rfl) (by
        show rf.lastIncludedIndex ≤ rf.commitIndex + 1
        omega)
    · exact ⟨rf, rfl⟩

/-- Committing as a follower panics nowhere. -/
lemma Rooted.advanceCommit_ok (h : rf.Rooted) (hlow : rf.lastIncludedIndex ≤ rf.commitIndex)
    (leaderCommit : ℕ) (reply : AppendEntriesReply) :
    ∃ rf', rf.advanceCommit leaderCommit reply = .ok rf' reply := by
  unfold advanceCommit
  split_ifs
  · obtain ⟨rf', hloop⟩ := commitLoop_ok leaderCommit (leaderCommit - rf.commitIndex) rf h hlow
    rw [hloop]
    exact ⟨rf', rfl⟩
  · exact ⟨rf, rfl⟩

/-- Advancing the commit index leaves the reply alone. -/
lemma reply_of_advanceCommit {rf rf' : Raft n Cmd Snap} {leaderCommit : ℕ}
    {reply r : AppendEntriesReply} (h : rf.advanceCommit leaderCommit reply = .ok rf' r) :
    r = reply := by
  unfold advanceCommit at h
  split_ifs at h
  · split at h <;> cases h
    rfl
  · cases h
    rfl

/-- Sending the entries of a range that is in the log appends their messages. The induction is on
the number of entries. -/
lemma sendRange_ok : ∀ (m k : ℕ) (rf : Raft n Cmd Snap), rf.Rooted →
    rf.lastIncludedIndex ≤ k → k + m ≤ rf.lastIndex + 1 → sendRange m k rf = .ok { rf with
      applyChan := rf.applyChan ++ (List.range' k m).filterMap rf.applyMsgAt } ()
  | 0, _, rf, _, _, _ => by simp [sendRange]
  | m + 1, k, rf, hroot, hlow, hk => by
    obtain ⟨e, he⟩ := hroot.exists_logAt hlow (by omega)
    have hrest := sendRange_ok m (k + 1)
      { rf with applyChan := rf.applyChan ++ (rf.applyMsgAt k).toList } (hroot.congr rfl rfl rfl)
      (Nat.le_succ_of_le hlow) (show k + 1 + m ≤ rf.lastIndex + 1 by omega)
    unfold sendRange
    rw [sendEntry_of_logAt he]
    dsimp only
    rw [hrest, List.range'_succ, List.filterMap_cons]
    cases hmsg : rf.applyMsgAt k with
    | none => simp only [Option.toList_none, List.append_nil]
    | some msg =>
      simp only [Option.toList_some, List.append_assoc, List.singleton_append]
      rfl

/-- Committing up to `i` sends the entries up to `i`. -/
lemma Rooted.commitUpTo_ok (h : rf.Rooted) (hlow : rf.lastIncludedIndex ≤ rf.commitIndex) {i : ℕ}
    (hlt : rf.commitIndex ≤ i) (hi : i ≤ rf.lastIndex) :
    rf.commitUpTo i = .ok { rf with
      applyChan := rf.applyChan ++ rf.applyMsgs rf.commitIndex i
      commitIndex := i
      lastApplied := i } () := by
  rw [commitUpTo, sendRange_ok (i - rf.commitIndex) (rf.commitIndex + 1) rf h (by omega) (by omega)]
  rfl

/-- The commit rule finds every entry it looks at. -/
lemma Rooted.commitScan_ok (h : rf.Rooted) (hlow : rf.lastIncludedIndex ≤ rf.commitIndex)
    (l : Leader n) (peer : Fin n) {k : ℕ} (hk : k ≤ rf.lastIndex) :
    ∃ rf', rf.commitScan l peer k = .ok rf' () := by
  obtain heq | ⟨i, hi, hlt, hnone, -⟩ | ⟨i, hi, e, hlt, -, -, -, heq⟩ :=
    commitScan_cases rf l peer k
  · exact ⟨rf, heq⟩
  · obtain ⟨e, he⟩ := h.exists_logAt (i := i) (by omega) (by omega)
    simp [hnone] at he
  · exact ⟨_, heq.trans (h.commitUpTo_ok hlow hlt.le (by omega))⟩

/-- A success reply sets the next index of the peer behind the last entry that was sent. -/
lemma Rooted.appendSuccess_ok (h : rf.Rooted) (hlow : rf.lastIncludedIndex ≤ rf.commitIndex)
    {l : Leader n} (hptr : rf.leaderPtr = some l) (peer : Fin n) {last : ℕ}
    (hlast : last ≤ rf.lastIndex) :
    ∃ rf', rf.appendSuccess peer last = .ok rf' () ∧ rf'.nextIndex peer = last + 1 ∧
      rf'.logs = rf.logs := by
  obtain ⟨hnone, -⟩ | ⟨l', hptr', heq | heq⟩ := appendSuccess_cases rf peer last
  · simp [hnone] at hptr
  · exact ⟨_, heq, nextIndex_setPeer _ _ _ _ _, rfl⟩
  · have hroot : Rooted { rf with leaderPtr := some (setPeer l' peer (last + 1) last) } :=
      h.congr rfl rfl rfl
    obtain ⟨rf', hscan⟩ := hroot.commitScan_ok hlow (setPeer l' peer (last + 1) last) peer hlast
    obtain ⟨ms, i, j, hstate⟩ := commitScan_eq
      { rf with leaderPtr := some (setPeer l' peer (last + 1) last) }
      (setPeer l' peer (last + 1) last) peer last
    rw [hscan, Outcome.state_ok] at hstate
    exact ⟨rf', heq.trans hscan, by simp [hstate, nextIndex, setPeer], by rw [hstate]⟩

end Commit

/-! ## Finding the conflict -/

section Backup

variable {rf : Raft n Cmd Snap}

/-- All entries above `i` and up to `k` are of later terms than `t`. -/
def LaterAbove (rf : Raft n Cmd Snap) (t i k : ℕ) : Prop :=
  ∀ j e, i < j → j ≤ k → rf.logAt j = some e → t < e.logTerm

/-- There are no entries in between. -/
lemma LaterAbove.self (t k : ℕ) : rf.LaterAbove t k k := by
  intro j e hlt hle
  omega

/-- One entry more at the upper end. -/
lemma LaterAbove.succ {t i k : ℕ} (h : rf.LaterAbove t i k) {e : LogEntry Cmd}
    (he : rf.logAt (k + 1) = some e) (hterm : t < e.logTerm) : rf.LaterAbove t i (k + 1) := by
  intro j a hlt hle ha
  rcases Nat.lt_or_ge k j with hk | hk
  · obtain rfl : j = k + 1 := by omega
    obtain rfl : e = a := Option.some.inj (he.symm.trans ha)
    exact hterm
  · exact h j a hlt hk ha

/-- All entries up to `k` are of later terms than `t`. -/
def LaterUpTo (rf : Raft n Cmd Snap) (t k : ℕ) : Prop :=
  ∀ j e, j ≤ k → rf.logAt j = some e → t < e.logTerm

/-- One entry more at the upper end. -/
lemma LaterUpTo.succ {t k : ℕ} (h : rf.LaterUpTo t k) {e : LogEntry Cmd}
    (he : rf.logAt (k + 1) = some e) (hterm : t < e.logTerm) : rf.LaterUpTo t (k + 1) := by
  intro j a hle ha
  rcases Nat.lt_or_ge k j with hk | hk
  · obtain rfl : j = k + 1 := by omega
    obtain rfl : e = a := Option.some.inj (he.symm.trans ha)
    exact hterm
  · exact h j a hk ha

/-- There are no entries before the root. -/
lemma LaterUpTo.of_lt {t k : ℕ} (hk : k < rf.lastIncludedIndex) : rf.LaterUpTo t k := by
  intro j e hj he
  have := (logAt_eq_some_iff.mp he).1
  omega

/-- **Where the search for the conflicting term ends.** From above, the first entry whose term is
not later decides: the next index is the one behind it if the term is the same, else `xindex`. When
all entries are later the next index stays.

**Proof sketch.** Induction on the index from which the search starts. Every entry down to the root
can be read; one of a later term is skipped. -/
lemma backupScan_spec (h : rf.Rooted) (t xindex : ℕ) : ∀ k, k ≤ rf.lastIndex →
    ∃ r, rf.backupScan t xindex rf.lastIncludedIndex k = some r ∧
      ((r = none ∧ rf.LaterUpTo t k) ∨
        ∃ i e, rf.logAt i = some e ∧ i ≤ k ∧ rf.LaterAbove t i k ∧
          ((e.logTerm = t ∧ r = some (i + 1)) ∨ (e.logTerm < t ∧ r = some xindex)))
  | 0, hk => by
    unfold backupScan
    split_ifs with hlow
    · exact ⟨none, rfl, Or.inl ⟨rfl, .of_lt hlow⟩⟩
    · obtain ⟨e, he⟩ := h.exists_logAt (i := 0) (by omega) hk
      rw [he]
      dsimp only
      split_ifs with heq hlt
      · exact ⟨_, rfl, Or.inr ⟨0, e, he, le_rfl, .self t 0, Or.inl ⟨heq, rfl⟩⟩⟩
      · exact ⟨_, rfl, Or.inr ⟨0, e, he, le_rfl, .self t 0, Or.inr ⟨hlt, rfl⟩⟩⟩
      · refine ⟨none, rfl, Or.inl ⟨rfl, fun j a hj ha => ?_⟩⟩
        obtain rfl : j = 0 := by omega
        obtain rfl : e = a := Option.some.inj (he.symm.trans ha)
        omega
  | k + 1, hk => by
    unfold backupScan
    split_ifs with hlow
    · exact ⟨none, rfl, Or.inl ⟨rfl, .of_lt hlow⟩⟩
    · obtain ⟨e, he⟩ := h.exists_logAt (i := k + 1) (by omega) hk
      rw [he]
      dsimp only
      split_ifs with heq hlt
      · exact ⟨_, rfl, Or.inr ⟨k + 1, e, he, le_rfl, .self t (k + 1), Or.inl ⟨heq, rfl⟩⟩⟩
      · exact ⟨_, rfl, Or.inr ⟨k + 1, e, he, le_rfl, .self t (k + 1), Or.inr ⟨hlt, rfl⟩⟩⟩
      · have hterm : t < e.logTerm := by omega
        obtain ⟨r, hr, ⟨hnone, hlater⟩ | ⟨i, a, ha, hi, hlater, hend⟩⟩ :=
          backupScan_spec h t xindex k (by omega)
        · exact ⟨r, hr, Or.inl ⟨hnone, hlater.succ he hterm⟩⟩
        · exact ⟨r, hr, Or.inr ⟨i, a, ha, by omega, hlater.succ he hterm, hend⟩⟩

/-- The leader takes a refusal of its own term for a conflict. -/
lemma appendReply_refused (peer : Fin n) {args : AppendEntriesArgs n Cmd}
    {reply : AppendEntriesReply} (hs : reply.success = false)
    (hterm : reply.followerTerm = args.leaderTerm) (hT : rf.currentTerm = args.leaderTerm) :
    rf.appendReply peer args reply = rf.appendConflict peer reply := by
  simp [appendReply, hs, hterm, hT]

/-- A refusal without a conflicting term: the log is too short, or its snapshot is above. -/
lemma appendConflict_short {l : Leader n} (hl : rf.leaderPtr = some l) (peer : Fin n)
    {reply : AppendEntriesReply} (hx : reply.xterm = none) :
    rf.appendConflict peer reply = .ok { rf with
      leaderPtr := some (setPeer l peer (reply.xlen + 1) (l.matchIndexs peer)) } () := by
  simp [appendConflict, hx, hl]

/-- A refusal with a conflicting term: the search decides. -/
lemma Rooted.appendConflict_term (h : rf.Rooted) {l : Leader n} (hl : rf.leaderPtr = some l)
    (peer : Fin n) {reply : AppendEntriesReply} {t : ℕ} (hx : reply.xterm = some t)
    {r : Option ℕ}
    (hr : rf.backupScan t reply.xindex rf.lastIncludedIndex rf.lastIndex = some r) :
    rf.appendConflict peer reply = .ok { rf with
      leaderPtr := some
        (setPeer l peer (r.getD (l.nextIndexs peer)) (l.matchIndexs peer)) } () := by
  obtain ⟨last, hlast, hidx⟩ := h.getLastLog
  obtain ⟨first, hfirst, -⟩ := h.sentinel
  have hfidx : first.logIndex = rf.lastIncludedIndex := by
    rw [List.head?_eq_getElem?] at hfirst
    exact Consecutive.logIndex_of_getElem? h.index hfirst
  simp only [appendConflict, hx, Option.mem_def.mp hfirst, hlast, hfidx, hidx, hr, hl]

/-- The first entry of the term of the entry at position `k` is above the root and not behind
that entry.

**Proof sketch.** The entry at position `k` itself is among those that are searched, so one is
found. It stands behind the root and not behind position `k`, and its index is that of its position.
-/
lemma firstOfTerm_spec (h : rf.Rooted) {k : ℕ} {old : LogEntry Cmd}
    (hk : rf.logs[k]? = some old) (hpos : 0 < k) :
    rf.lastIncludedIndex < firstOfTerm rf.logs k old.logTerm ∧
      firstOfTerm rf.logs k old.logTerm ≤ rf.lastIncludedIndex + k ∧
      ∃ e, rf.logAt (firstOfTerm rf.logs k old.logTerm) = some e ∧ e.logTerm = old.logTerm := by
  have hmem : old ∈ (rf.logs.take (k + 1)).tail := by
    have hget : (rf.logs.take (k + 1)).tail[k - 1]? = some old := by
      rw [List.getElem?_tail, List.getElem?_take_of_lt (by omega), Nat.sub_add_cancel hpos, hk]
    exact List.mem_of_getElem? hget
  unfold firstOfTerm
  split
  · rename_i e he
    obtain ⟨j, hj⟩ := List.getElem?_of_mem (List.mem_of_find?_eq_some he)
    rw [List.getElem?_tail] at hj
    have hjk : j + 1 < k + 1 := by
      have hlt := (List.getElem?_eq_some_iff.mp hj).1
      rw [List.length_take] at hlt
      omega
    rw [List.getElem?_take_of_lt hjk] at hj
    have hidx := Consecutive.logIndex_of_getElem? h.index hj
    refine ⟨by omega, by omega, e, ?_, by simpa using List.find?_some he⟩
    rw [hidx]
    exact logAt_of_getElem? hj
  · rename_i hnone
    have := List.find?_eq_none.mp hnone old hmem
    simp at this

end Backup

end Raft

end Mit6824
