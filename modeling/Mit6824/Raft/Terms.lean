import Mit6824.Raft.Shape

set_option autoImplicit false

/-!
# Terms grow, and logs are ordered by term

When no reply makes a server a follower in an old term, `currentTerm` never decreases, in memory
or as a restart would find it, and every log is ordered: its indexes are consecutive, its terms
do not decrease, and none is beyond the server's term. A run of three servers shows that a
stale reply breaks this.

## Main definitions

* `Mit6824.Ordered` — consecutive indexes and nondecreasing terms up to a bound.
* `Mit6824.OrderedMsg` — what a request must carry for a log to stay ordered.

## Main results

* `Mit6824.Run.terms_grow` — terms only grow, in memory, in the persister and along a log.
-/

namespace Mit6824

variable {n : ℕ} {Cmd Snap : Type}

/-- The entries have consecutive indexes from `base` on, and nondecreasing terms up to
`bound`. -/
structure Ordered (base bound : ℕ) (l : List (LogEntry Cmd)) : Prop where
  index : Consecutive base l
  sorted : (l.map LogEntry.logTerm).Pairwise (· ≤ ·)
  le : ∀ t ∈ l.map LogEntry.logTerm, t ≤ bound

namespace Ordered

variable {base bound : ℕ} {l l' : List (LogEntry Cmd)}

/-- One entry. -/
lemma singleton {e : LogEntry Cmd} (hi : e.logIndex = base) (ht : e.logTerm ≤ bound) :
    Ordered base bound [e] :=
  ⟨.singleton hi, by simp, by simpa using ht⟩

/-- A larger bound. -/
lemma mono {bound' : ℕ} (h : Ordered base bound l) (hb : bound ≤ bound') :
    Ordered base bound' l :=
  ⟨h.index, h.sorted, fun t ht => (h.le t ht).trans hb⟩

/-- Only indexes and terms count. -/
lemma congr (h : Ordered base bound l) (hi : l'.map LogEntry.logIndex = l.map LogEntry.logIndex)
    (ht : l'.map LogEntry.logTerm = l.map LogEntry.logTerm) : Ordered base bound l' := by
  exact ⟨Consecutive.congr h.index hi, by rw [ht]; exact h.sorted, by rw [ht]; exact h.le⟩

/-- The first entries. -/
lemma take (h : Ordered base bound l) (k : ℕ) : Ordered base bound (l.take k) := by
  refine ⟨Consecutive.take h.index k, ?_, ?_⟩
  · rw [List.map_take]
    exact h.sorted.sublist (List.take_sublist _ _)
  · intro t ht
    rw [List.map_take] at ht
    exact h.le t (List.mem_of_mem_take ht)

/-- The entries behind some position. -/
lemma drop (h : Ordered base bound l) (k : ℕ) : Ordered (base + k) bound (l.drop k) := by
  refine ⟨Consecutive.drop h.index k, ?_, ?_⟩
  · rw [List.map_drop]
    exact h.sorted.sublist (List.drop_sublist _ _)
  · intro t ht
    rw [List.map_drop] at ht
    exact h.le t (List.mem_of_mem_drop ht)

/-- Entries that continue others, with terms that are not smaller. -/
lemma append (h : Ordered base bound l) (h' : Ordered (base + l.length) bound l')
    (hle : ∀ a ∈ l, ∀ b ∈ l', a.logTerm ≤ b.logTerm) : Ordered base bound (l ++ l') := by
  refine ⟨Consecutive.append h.index h'.index, ?_, ?_⟩
  · rw [List.map_append, List.pairwise_append]
    refine ⟨h.sorted, h'.sorted, ?_⟩
    intro s hs t ht
    obtain ⟨a, ha, rfl⟩ := List.mem_map.mp hs
    obtain ⟨b, hb, rfl⟩ := List.mem_map.mp ht
    exact hle a ha b hb
  · intro t ht
    rw [List.map_append] at ht
    rcases List.mem_append.mp ht with ht | ht
    · exact h.le t ht
    · exact h'.le t ht

/-- The index of the entry at a position. -/
lemma logIndex_of_getElem? (h : Ordered base bound l) {k : ℕ} {e : LogEntry Cmd}
    (he : l[k]? = some e) : e.logIndex = base + k :=
  Consecutive.logIndex_of_getElem? h.index he

/-- The index of the last entry. -/
lemma logIndex_of_getLast? (h : Ordered base bound l) {e : LogEntry Cmd}
    (he : l.getLast? = some e) : e.logIndex + 1 = base + l.length :=
  Consecutive.logIndex_of_getLast? h.index he

/-- The entries up to some position have terms up to the one at that position.

**Proof sketch.** The terms of the log are sorted. -/
lemma logTerm_le_of_mem_take (h : Ordered base bound l) {k : ℕ} {e : LogEntry Cmd}
    (he : l[k]? = some e) : ∀ a ∈ l.take (k + 1), a.logTerm ≤ e.logTerm := by
  intro a ha
  obtain ⟨j, hj⟩ := List.getElem?_of_mem ha
  have hjk : j < k + 1 := by
    have := (List.getElem?_eq_some_iff.mp hj).1
    rw [List.length_take] at this
    omega
  rw [List.getElem?_take_of_lt hjk] at hj
  rcases Nat.lt_succ_iff_lt_or_eq.mp hjk with hlt | rfl
  · have hpair := h.sorted
    rw [List.pairwise_iff_getElem] at hpair
    obtain ⟨hj1, hj2⟩ := List.getElem?_eq_some_iff.mp hj
    obtain ⟨hk1, hk2⟩ := List.getElem?_eq_some_iff.mp he
    have := hpair j k (by simpa using hj1) (by simpa using hk1) hlt
    simpa [hj2, hk2] using this
  · rw [he] at hj
    obtain rfl := Option.some.inj hj
    exact le_rfl

end Ordered

/-- The log of a server is ordered, and its snapshot is not of a later term. -/
structure Raft.InOrder (rf : Raft n Cmd Snap) : Prop where
  logs : Ordered rf.lastIncludedIndex rf.currentTerm rf.logs
  snap : rf.lastIncludedTerm ≤ rf.currentTerm

/-- The entries of a request continue the entry before them and are of terms up to the
leader's; a snapshot is not of a later term than its sender. -/
def OrderedMsg : Msg n Cmd Snap → Prop
  | .appendEntries _ args => ∀ prev ∈ args.prevLogIndex,
      Ordered (prev + 1) args.leaderTerm args.entries ∧
        ∀ t ∈ args.prevLogTerm, ∀ e ∈ args.entries, t ≤ e.logTerm
  | .installSnapshot _ args => args.lastIncludedTerm ≤ args.term
  | _ => True

/-! ## Every section keeps the order -/

namespace Raft.InOrder

variable {rf rf' : Raft n Cmd Snap}

/-- Only the persistent values count. -/
lemma of_encode (h : rf.InOrder) (he : rf'.encodeRaftState = rf.encodeRaftState) :
    rf'.InOrder := by
  simp only [encodeRaftState, RaftState.mk.injEq] at he
  obtain ⟨hterm, -, hlogs, hidx, hsnap, -⟩ := he
  exact ⟨by rw [hlogs, hidx, hterm]; exact h.logs, by rw [hsnap, hterm]; exact h.snap⟩

/-- Following a term that is not older keeps the order. -/
lemma becomeFollower (h : rf.InOrder) {t : ℕ} (ht : rf.currentTerm ≤ t) :
    (rf.becomeFollower t).InOrder :=
  ⟨h.logs.mono ht, h.snap.trans ht⟩

/-- Seeing a term keeps the order. -/
lemma observe (h : rf.InOrder) (t : ℕ) : (rf.observe t).InOrder :=
  observe_rule t h fun hlt => h.becomeFollower hlt.le

/-- Committing keeps the order. -/
lemma advanceCommit (h : rf.InOrder) (leaderCommit : ℕ) (reply : AppendEntriesReply) :
    (rf.advanceCommit leaderCommit reply).state.InOrder := by
  obtain ⟨ms, i, j, heq⟩ := advanceCommit_eq rf leaderCommit reply
  rw [heq]
  exact ⟨h.logs, h.snap⟩

/-- An entry of the present term behind the last one. -/
lemma concat (h : rf.InOrder) {last e : LogEntry Cmd} (hlast : rf.getLastLog = some last)
    (hi : e.logIndex = last.logIndex + 1) (ht : e.logTerm = rf.currentTerm) :
    Ordered rf.lastIncludedIndex rf.currentTerm (rf.logs ++ [e]) := by
  refine h.logs.append (.singleton ?_ ht.le) ?_
  · rw [hi]
    exact h.logs.logIndex_of_getLast? hlast
  · intro a ha b hb
    obtain rfl := List.mem_singleton.mp hb
    rw [ht]
    exact h.logs.le _ (List.mem_map_of_mem ha)

/-- `Start` appends an entry of the present term. -/
lemma start (h : rf.InOrder) (command : Cmd) : (rf.start command).state.InOrder := by
  obtain ⟨-, heq⟩ | ⟨-, heq⟩ | ⟨last, hlast, heq⟩ := start_cases rf command <;> rw [heq]
  · exact h
  · exact h
  · exact ⟨h.concat hlast rfl rfl, h.snap⟩

/-- A new leader appends an entry of the present term. -/
lemma becomeLeader (h : rf.InOrder) : rf.becomeLeader.state.InOrder := by
  obtain ⟨-, heq⟩ | ⟨last, hlast, heq⟩ := becomeLeader_cases rf <;> rw [heq]
  · exact ⟨h.logs, h.snap⟩
  · exact ⟨h.concat hlast rfl rfl, h.snap⟩

/-- The next term keeps the order. -/
lemma startElection (h : rf.InOrder) : rf.startElection.state.InOrder := by
  rw [state_startElection]
  split_ifs
  · exact h
  · exact ⟨h.logs.mono (Nat.le_succ _), h.snap.trans (Nat.le_succ _)⟩

/-- Giving a vote keeps the order. -/
lemma requestVoteGrant (h : rf.InOrder) (args : RequestVoteArgs n) :
    (rf.requestVoteGrant args).1.InOrder :=
  requestVoteGrant_rule args h ⟨h.logs, h.snap⟩

/-- The first section of `RequestVote` keeps the order. -/
lemma requestVoteCheck (h : rf.InOrder) (args : RequestVoteArgs n) :
    (rf.requestVoteCheck args).state.InOrder := by
  rcases requestVoteCheck_cases rf args with ⟨-, heq⟩ | ⟨last, -, heq⟩ <;> rw [heq] <;>
    exact h.observe _

/-- Compacting keeps the order. -/
lemma takeSnapshot (h : rf.InOrder) (snapshot : Option Snap) (k : ℕ) :
    (rf.takeSnapshot snapshot k).state.InOrder := by
  rcases takeSnapshot_cases rf snapshot k with ⟨-, heq⟩ | ⟨-, -, heq⟩ | ⟨e, hlt, he, heq⟩ <;>
    rw [heq]
  · exact h
  · exact h
  · have hk : rf.lastIncludedIndex + (k - rf.lastIncludedIndex) = k := by omega
    have hd := h.logs.drop (k - rf.lastIncludedIndex)
    rw [hk] at hd
    refine ⟨hd.congr (map_logIndex_dropCommand _) ?_, h.logs.le _ (List.mem_map_of_mem ?_)⟩
    · cases rf.logs.drop (k - rf.lastIncludedIndex) <;> simp [dropCommand, saveStateAndSnapshot]
    · unfold logAt at he
      rw [if_neg (by omega)] at he
      exact List.mem_of_getElem? he

/-- `AppendEntries` keeps the order of the log.

**Proof sketch.** An accepted request continues an entry that the log holds at the same index with
the same term; its own entries are ordered and of terms up to the leader's. -/
lemma appendEntries (h : rf.InOrder) {args : AppendEntriesArgs n Cmd} {dst : Fin n}
    (hm : OrderedMsg (.appendEntries dst args : Msg n Cmd Snap)) :
    (rf.appendEntries args).state.InOrder := by
  refine appendEntries_rule h (fun _ k reply ho => ho.advanceCommit k reply) h.becomeFollower ?_
    fun _ _ hle _ _ _ _ => ⟨(h.logs.mono hle).take _, h.snap.trans hle⟩
  · intro prev old hle hprev hlow hpos hterm
    obtain ⟨hent, hprevTerm⟩ := hm prev hprev
    refine ⟨?_, le_trans h.snap hle⟩
    have hlt : prev - rf.lastIncludedIndex < rf.logs.length :=
      (List.getElem?_eq_some_iff.mp hpos).1
    refine ((h.logs.mono hle).take (prev - rf.lastIncludedIndex + 1)).append ?_ ?_
    · have hbase : rf.lastIncludedIndex + (rf.logs.take (prev - rf.lastIncludedIndex + 1)).length
          = prev + 1 := by
        rw [List.length_take]; omega
      rw [hbase]
      exact hent
    · intro a ha b hb
      exact (h.logs.logTerm_le_of_mem_take hpos a ha).trans (hprevTerm _ hterm.symm b hb)

/-- A reply to `AppendEntries` keeps the order if it does not lower the term. -/
lemma appendReply (h : rf.InOrder) {src : Fin n} {args : AppendEntriesArgs n Cmd}
    {reply : AppendEntriesReply} (ht : reply.success = false →
      args.leaderTerm < reply.followerTerm → rf.currentTerm ≤ reply.followerTerm) :
    (rf.appendReply src args reply).state.InOrder := by
  rcases appendReply_eq rf src args reply with ⟨h1, h2, heq⟩ | ⟨-, l, ms, i, j, heq⟩
  · rw [heq]
    exact h.becomeFollower (ht h1 h2)
  · rw [heq]
    exact ⟨h.logs, h.snap⟩

/-- A reply to `InstallSnapshot` keeps the order. -/
lemma installReply (h : rf.InOrder) (src : Fin n) (args : InstallSnapshotArgs n Snap)
    (reply : InstallSnapshotReply) : (rf.installReply src args reply).state.InOrder := by
  have hspec := installReply_spec rf src args reply
  generalize rf.installReply src args reply = o at hspec
  cases hspec with
  | stale => exact h
  | follow _ hlt => exact h.becomeFollower hlt.le
  | noLeader => exact h
  | record => exact ⟨h.logs, h.snap⟩

end Raft.InOrder

/-- `InstallSnapshot` keeps the order if the snapshot is not of a later term than the request.

**Proof sketch.** The sentinel alone is in order. Otherwise the entries above the snapshot are kept,
which are a part of a log in order, and the sentinel takes the place of the entry at its index. -/
lemma Raft.InOrder.installSnapshot {rf : Raft n Cmd Snap} (h : rf.InOrder)
    {args : InstallSnapshotArgs n Snap} {dst : Fin n}
    (hm : OrderedMsg (.installSnapshot dst args : Msg n Cmd Snap)) :
    (rf.installSnapshot args).state.InOrder := by
  refine installSnapshot_rule h (h.observe args.term) fun logs hlt hlogs => ?_
  have hterm : args.term ≤ (rf.observe args.term).currentTerm := by
    rw [currentTerm_observe]
    exact le_max_right _ _
  have hsnap : args.lastIncludedTerm ≤ (rf.observe args.term).currentTerm := le_trans hm hterm
  refine ⟨?_, hsnap⟩
  obtain ⟨last, hlast, ⟨-, rfl⟩ | ⟨e, hlt', he, ⟨-, rfl⟩ | ⟨-, rfl⟩⟩⟩ :=
    Raft.logsAfterInstall_cases hlogs
  · exact Ordered.singleton rfl hsnap
  · exact Ordered.singleton rfl hsnap
  · have hbase : rf.lastIncludedIndex + (args.lastIncludedIndex - rf.lastIncludedIndex) =
        args.lastIncludedIndex := by omega
    have hd := (h.observe args.term).logs.drop (args.lastIncludedIndex - rf.lastIncludedIndex)
    rw [Raft.lastIncludedIndex_observe, hbase, Raft.logs_observe] at hd
    rw [Raft.InSequence.copyInto_eq h.logs.index hlast hlt.le hlt']
    refine hd.congr (Raft.map_logIndex_markSentinel _) ?_
    cases hl : rf.logs.drop (args.lastIncludedIndex - rf.lastIncludedIndex) <;>
      simp [Raft.markSentinel, Raft.installSnapshotToApplication, Raft.saveStateAndSnapshot]

/-- A restart finds an ordered log, or puts a sentinel into an empty one. -/
lemma Raft.InOrder.make {rf : Raft n Cmd Snap} (h : rf.InOrder) (hs : rf.Saved) :
    (Raft.make rf.me rf.persister).InOrder := by
  have hadd : rf.addSentinel.InOrder := by
    unfold Raft.addSentinel
    split_ifs
    · exact ⟨Ordered.singleton rfl h.snap, h.snap⟩
    · exact h
  exact hadd.of_encode hs

/-- The critical section of an input keeps the order.

**Proof sketch.** By the section; the entries of a request that is received are in order, and a
reply lowers no term. -/
lemma Section.inOrder {nd : Node n Cmd Snap} {inp : Input n Cmd Snap} {rf : Raft n Cmd Snap}
    (hsec : Section nd inp rf) (h : nd.rf.InOrder) (hM : TermFresh nd inp)
    (hmsg : ∀ m g, inp = .recv m g → OrderedMsg m) : rf.InOrder := by
  cases hsec with
  | none => exact h
  | startElection => exact h.startElection
  | stepDown k t ht => exact h.becomeFollower (hM t ht)
  | grantVote => exact h.requestVoteGrant _
  | start => exact h.start _
  | takeSnapshot => exact h.takeSnapshot _ _
  | requestVote => exact h.requestVoteCheck _
  | becomeLeader => exact h.becomeLeader
  | appendEntries dst args g => exact h.appendEntries (hmsg _ g rfl)
  | appendReply src args reply g =>
    refine h.appendReply fun h1 h2 => hM reply.followerTerm ?_
    simp [Node.following, h1, h2]
  | installSnapshot dst args g => exact h.installSnapshot (hmsg _ g rfl)
  | installReply => exact h.installReply _ _ _

/-- What a server in order sends is in order.

**Proof sketch.** Of the messages only two carry terms of entries. The entries of `AppendEntries`
are the log behind the previous entry, so they are in order and not earlier than it; the snapshot's
term is that of the server. -/
lemma Sent.orderedMsg {nd nd' : Node n Cmd Snap} {m : Msg n Cmd Snap} (hm : Sent nd nd' m)
    (h : nd.rf.InOrder) : OrderedMsg m := by
  cases hm with
  | append bt hb args hbuild =>
    obtain ⟨-, last, l, hlast, -, ⟨-, rfl⟩ | ⟨prev, hlow, hle, hprev, rfl⟩⟩ :=
      Raft.buildAppend_eq_some hbuild
    · simp [OrderedMsg]
    · intro p hp
      obtain rfl : prev.logIndex = p := by simpa using hp
      have hidx := h.logs.logIndex_of_getElem? hprev
      have hd := h.logs.drop (l.nextIndexs bt.peer - nd.rf.lastIncludedIndex)
      have hbase : nd.rf.lastIncludedIndex + (l.nextIndexs bt.peer - nd.rf.lastIncludedIndex) =
          prev.logIndex + 1 := by omega
      rw [hbase] at hd
      refine ⟨hd, fun t ht e he => ?_⟩
      obtain rfl : prev.logTerm = t := by simpa using ht
      -- the previous entry is before the cut, the entries are after it
      have hsplit := h.logs.sorted
      rw [← List.take_append_drop (l.nextIndexs bt.peer - nd.rf.lastIncludedIndex) nd.rf.logs,
        List.map_append, List.pairwise_append] at hsplit
      have hbefore : prev ∈ nd.rf.logs.take (l.nextIndexs bt.peer - nd.rf.lastIncludedIndex) := by
        rw [← List.getElem?_take_of_lt (j := l.nextIndexs bt.peer - nd.rf.lastIncludedIndex)
          (by omega)] at hprev
        exact List.mem_of_getElem? hprev
      exact hsplit.2.2 _ (List.mem_map_of_mem hbefore) _ (List.mem_map_of_mem he)
  | install => exact h.snap
  | _ => trivial

/-! ## Runs -/

/-- A reply that is not of an old term lets the term only grow. -/
lemma Moved.term_le {nd nd' : Node n Cmd Snap} {inp : Input n Cmd Snap} (hm : Moved nd inp nd')
    (hM : TermFresh nd inp) : nd.rf.currentTerm ≤ nd'.rf.currentTerm := by
  obtain ⟨s, hs, hend⟩ := hm.move
  have hterm : nd'.rf.currentTerm = s.term := by
    rcases hend with he | he <;> exact congrArg Stance.term he
  rw [hterm]
  cases hs with
  | keep => exact le_rfl
  | follow t ht => exact ht.elim id (hM t)
  | own => exact Nat.le_succ _
  | grant => exact le_rfl
  | lead => exact le_rfl

/-- A server that is not a follower has entered a term of its own. -/
lemma Moved.term_pos {nd nd' : Node n Cmd Snap} {inp : Input n Cmd Snap} (hm : Moved nd inp nd')
    (hW : WinFresh nd inp) (hpos : nd.rf.role ≠ .follower → 0 < nd.rf.currentTerm)
    (hrole : nd'.rf.role ≠ .follower) : 0 < nd'.rf.currentTerm := by
  obtain ⟨s, hs, he | he⟩ := hm.move
  · have hterm : nd'.rf.currentTerm = s.term := congrArg Stance.term he
    have hrole' : s.role ≠ .follower := by
      rw [← he]
      exact hrole
    rw [hterm]
    cases hs with
    | keep => exact hpos hrole'
    | follow => simp [Stance.follow] at hrole'
    | own => exact Nat.succ_pos _
    | grant => exact hpos hrole'
    | lead e hwin => exact hpos (by simp [(hW e hwin).1])
  · exact absurd (congrArg Stance.role he) hrole

/-- All logs and all requests in flight are ordered. -/
structure AllInOrder (c : Cluster n Cmd Snap) : Prop where
  elections : Elections c
  nodes : ∀ i, (c.nodes i).rf.InOrder
  net : ∀ m ∈ c.net, OrderedMsg m

section Runs

variable [DecidableEq Cmd] [DecidableEq Snap] {c d : Cluster n Cmd Snap}

omit [DecidableEq Cmd] [DecidableEq Snap] in
/-- The logs of new servers are in order. -/
lemma AllInOrder.init : AllInOrder (Cluster.init : Cluster n Cmd Snap) where
  elections := Elections.init
  nodes i := ⟨Ordered.singleton rfl le_rfl, le_rfl⟩
  net := by simp [Cluster.init]

/-- One step that lowers no term keeps all logs and requests in order.

**Proof sketch.** The section of the input keeps the order of the server's log, a restart finds what
was saved, and what is sent comes from a log in order. -/
lemma AllInOrder.after {i : Fin n} {inp : Input n Cmd Snap} {o : NodeOutcome n Cmd Snap}
    (h : AllInOrder c) (hM : TermFresh (c.nodes i) inp) (hdel : c.Deliverable i inp)
    (ho : (c.nodes i).exec inp = some o) : AllInOrder (c.after i o) := by
  have hh := Node.exec_handled ho
  have hrf : (Node.finish o).node.rf.InOrder :=
    hh.rf_of (fun rf hsec => hsec.inOrder (h.nodes i) hM fun m g hm => h.net m (hdel m g hm).1)
      fun rf hsec hrf => hrf.make (hsec.saved (h.elections.saved i))
  refine ⟨h.elections.after hdel ho, Cluster.forall_nodes_after (P := fun _ nd => nd.rf.InOrder)
    hrf fun k _ => h.nodes k, fun m hm => ?_⟩
  rcases Cluster.mem_net_after hm with hm | hm
  · exact h.net m hm
  · exact (hh.sent m hm).orderedMsg (h.nodes i)

/-- In every run that lowers no term all logs and requests are in order. -/
lemma AllInOrder.of_run (h : Run (fun nd inp => TermFresh nd inp) Cluster.init c) :
    AllInOrder c := by
  refine h.induct AllInOrder.init ?_ fun c i inp o hc hM hdel ho => hc.after hM hdel ho
  intro c d hc hn hnet
  exact ⟨hc.elections.lose hn hnet, fun i => by rw [hn]; exact hc.nodes i,
    fun m hm => hc.net m (hnet hm)⟩

/-- **`Start` never returns term 0**, nor command index 0: a leader has been a candidate in the
term it leads.

**Proof sketch.** A server that is no follower has a positive term, by induction on the run: an
election raises the term. The command index is one more than that of the last entry. -/
theorem start_pos (h : Run (fun nd inp => WinFresh nd inp) Cluster.init c) {i : Fin n}
    {command : Cmd} {rf : Raft n Cmd Snap} {cmdIndex term : ℕ}
    (hs : (c.nodes i).rf.start command = .ok rf (some (cmdIndex, term))) :
    0 < cmdIndex ∧ 0 < term := by
  have hpos : (c.nodes i).rf.role ≠ .follower → 0 < (c.nodes i).rf.currentTerm := by
    refine forall_node_of_run (I := fun nd => nd.rf.role ≠ .follower → 0 < nd.rf.currentTerm) h
      ?_ ?_ i
    · intro i hr
      simp [Node.init] at hr
    · exact fun nd inp o hsaved hpos hW ho => (Node.exec_moved hsaved ho).term_pos hW hpos
  unfold Raft.start at hs
  split_ifs at hs with hrole
  · simp at hs
  · split at hs
    · simp at hs
    · simp only [Outcome.ok.injEq, Option.some.injEq, Prod.mk.injEq] at hs
      obtain ⟨-, rfl, rfl⟩ := hs
      exact ⟨Nat.succ_pos _, hpos (by simp_all)⟩

/-- The term in memory only grows.

**Proof sketch.** Induction on the run; a step that lowers no term is `Moved.term_le`. -/
lemma currentTerm_le_of_run (h : Run (fun nd inp => TermFresh nd inp) Cluster.init c)
    (h' : Run (fun nd inp => TermFresh nd inp) c d) (i : Fin n) :
    (c.nodes i).rf.currentTerm ≤ (d.nodes i).rf.currentTerm := by
  suffices hd : Elections d ∧
      ∀ i, (c.nodes i).rf.currentTerm ≤ (d.nodes i).rf.currentTerm from hd.2 i
  refine Run.induct (I := fun d => Elections d ∧
    ∀ i, (c.nodes i).rf.currentTerm ≤ (d.nodes i).rf.currentTerm) h'
    ⟨Elections.of_run h, fun _ => le_rfl⟩ ?_ ?_
  · rintro d e ⟨hE, hle⟩ hn hnet
    exact ⟨hE.lose hn hnet, fun i => by rw [hn]; exact hle i⟩
  · rintro d j inp o ⟨hE, hle⟩ hM hdel ho
    have hj := (hle j).trans ((Node.exec_moved (hE.saved j) ho).term_le hM)
    exact ⟨hE.after hdel ho, Cluster.forall_nodes_after
      (P := fun i nd => (c.nodes i).rf.currentTerm ≤ nd.rf.currentTerm) hj fun i _ => hle i⟩

omit [DecidableEq Cmd] [DecidableEq Snap] in
/-- The term a restart would find is the one in memory. -/
lemma Elections.currentTerm_make (h : Elections c) (i : Fin n) :
    (Raft.make i (c.nodes i).rf.persister).currentTerm = (c.nodes i).rf.currentTerm := by
  have hv := Raft.view_make (h.saved i)
  rw [h.me i] at hv
  exact congrArg View.term hv

/-- **Terms only grow.** When no reply makes a server a follower in an old term, `currentTerm`
never decreases along a run, in memory or as restored from the persister, and the terms along
every log do not decrease and are at most `currentTerm`. -/
theorem Run.terms_grow (h : Run (fun nd inp => TermFresh nd inp) Cluster.init c)
    (h' : Run (fun nd inp => TermFresh nd inp) c d) (i : Fin n) :
    (c.nodes i).rf.currentTerm ≤ (d.nodes i).rf.currentTerm ∧
    (Raft.make i (c.nodes i).rf.persister).currentTerm ≤
      (Raft.make i (d.nodes i).rf.persister).currentTerm ∧
    ((d.nodes i).rf.logs.map LogEntry.logTerm).Pairwise (· ≤ ·) ∧
    ∀ e ∈ (d.nodes i).rf.logs, e.logTerm ≤ (d.nodes i).rf.currentTerm := by
  have hle := currentTerm_le_of_run h h' i
  have hd := AllInOrder.of_run (h.trans h')
  refine ⟨hle, ?_, (hd.nodes i).logs.sorted, fun e he => ?_⟩
  · rw [(Elections.of_run h).currentTerm_make, hd.elections.currentTerm_make]
    exact hle
  · exact (hd.nodes i).logs.le _ (List.mem_map_of_mem he)

end Runs

end Mit6824
