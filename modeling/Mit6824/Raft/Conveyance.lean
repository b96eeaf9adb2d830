import Mit6824.Raft.Delivery
import Mit6824.Raft.RootedLog

set_option autoImplicit false

/-!
# What the service sees of a step

The service reads the apply channel of its Raft peer, calls `TakeSnapshot`, and is started again
with the persisted snapshot. A section of the peer sends the messages for exactly the entries that
it commits, in order, and leaves the snapshot alone; the other things that can happen are that a
snapshot is installed or taken, and that the server starts again.

## Main definitions

* `Mit6824.Raft.snapshotMsg` — the message for the persisted snapshot.
* `Mit6824.Outcome.Conveys` — a section sends the entries it commits and keeps the snapshot.
* `Mit6824.Node.Serves` — all that an input can do to what the service sees.

## Main results

* `Mit6824.Node.exec_serves` — no input does anything else.
-/

namespace Mit6824

variable {n : ℕ} {Cmd Snap : Type} {α : Type}

/-! ## The entries of a section -/

namespace Raft

variable {rf rf' : Raft n Cmd Snap}

/-- The message for the persisted snapshot. -/
def snapshotMsg (rf : Raft n Cmd Snap) : ApplyMsg Cmd Snap where
  commandValid := false
  snapshot := rf.persister.snapshot
  lastIncludedIndex := rf.lastIncludedIndex
  lastIncludedTerm := rf.lastIncludedTerm
  lastIncludedCmdIndex := rf.lastIncludedCmdIndex

/-- Nothing is committed, nothing is sent. -/
@[simp] lemma applyMsgs_self (rf : Raft n Cmd Snap) (a : ℕ) : rf.applyMsgs a a = [] := by
  simp [applyMsgs]

/-- The first message is for the first index. -/
lemma applyMsgs_of_lt (rf : Raft n Cmd Snap) {a b : ℕ} (h : a < b) :
    rf.applyMsgs a b = (rf.applyMsgAt (a + 1)).toList ++ rf.applyMsgs (a + 1) b := by
  obtain ⟨m, hm⟩ : ∃ m, b - a = m + 1 := ⟨b - a - 1, by omega⟩
  have hm' : b - (a + 1) = m := by omega
  rw [applyMsgs, applyMsgs, hm, hm', List.range'_succ, List.filterMap_cons]
  cases rf.applyMsgAt (a + 1) <;> simp

/-- The messages depend on the log only. -/
lemma applyMsgs_congr (hlogs : rf'.logs = rf.logs)
    (hbase : rf'.lastIncludedIndex = rf.lastIncludedIndex) (a b : ℕ) :
    rf'.applyMsgs a b = rf.applyMsgs a b := by
  have hat : rf'.applyMsgAt = rf.applyMsgAt := by
    funext k
    rw [applyMsgAt, applyMsgAt, logAt_congr hlogs hbase]
  rw [applyMsgs, applyMsgs, hat]

/-- The messages for entries carry no snapshot. -/
lemma snapshot_of_mem_applyMsgs {a b : ℕ} {m : ApplyMsg Cmd Snap} (h : m ∈ rf.applyMsgs a b) :
    m.snapshot = none := by
  obtain ⟨k, -, hk⟩ := List.mem_filterMap.mp h
  obtain ⟨e, -, he⟩ := Option.bind_eq_some_iff.mp hk
  split_ifs at he
  rw [← Option.some.inj he]

/-- The persisted snapshot and its index are the same. -/
structure SameBase (rf rf' : Raft n Cmd Snap) : Prop where
  index : rf'.lastIncludedIndex = rf.lastIncludedIndex
  snapshot : rf'.persister.snapshot = rf.persister.snapshot

/-- A snapshot that stays twice stays. -/
lemma SameBase.trans {rf'' : Raft n Cmd Snap} (h : rf.SameBase rf') (h' : rf'.SameBase rf'') :
    rf.SameBase rf'' :=
  ⟨h'.index.trans h.index, h'.snapshot.trans h.snapshot⟩

/-- The messages for exactly the entries that were committed in between have been sent. -/
structure Conveys (rf rf' : Raft n Cmd Snap) : Prop extends SameBase rf rf' where
  le : rf.commitIndex ≤ rf'.commitIndex
  chan : rf'.applyChan = rf.applyChan ++ rf'.applyMsgs rf.commitIndex rf'.commitIndex

/-- Nothing that the service can see. -/
lemma Conveys.of_eq (hbase : rf.SameBase rf') (hchan : rf'.applyChan = rf.applyChan)
    (hcommit : rf'.commitIndex = rf.commitIndex) : rf.Conveys rf' :=
  ⟨hbase, hcommit.ge, by rw [hchan, hcommit, applyMsgs_self, List.append_nil]⟩

/-- Nothing is committed, nothing is sent. -/
lemma Conveys.refl (rf : Raft n Cmd Snap) : rf.Conveys rf := .of_eq ⟨rfl, rfl⟩ rfl rfl

end Raft

/-- A section that finishes has sent the messages for the entries it has committed; one that
panics has kept the snapshot. -/
structure Outcome.Conveys (rf : Raft n Cmd Snap) (o : Outcome n Cmd Snap α) : Prop where
  base : rf.SameBase o.state
  sent : ∀ rf' a, o = .ok rf' a → rf.Conveys rf'

namespace Outcome.Conveys

variable {rf rf' rf₁ : Raft n Cmd Snap} {o : Outcome n Cmd Snap α}

/-- A section that finishes and does nothing that the service can see. -/
lemma ok {a : α} (hbase : rf.SameBase rf') (hchan : rf'.applyChan = rf.applyChan)
    (hcommit : rf'.commitIndex = rf.commitIndex) : Outcome.Conveys rf (.ok rf' a) where
  base := hbase
  sent _ _ h := (Outcome.ok.inj h).1 ▸ .of_eq hbase hchan hcommit

/-- A section that panics must only keep the snapshot. -/
lemma panic {p : Panic} (hbase : rf.SameBase rf') :
    Outcome.Conveys rf (.panic p rf' : Outcome n Cmd Snap α) where
  base := hbase
  sent _ _ h := by simp at h

/-- A section with a beginning that the service cannot see. -/
lemma after (h : Outcome.Conveys rf₁ o) (hbase : rf.SameBase rf₁)
    (hchan : rf₁.applyChan = rf.applyChan) (hcommit : rf₁.commitIndex = rf.commitIndex) :
    Outcome.Conveys rf o where
  base := hbase.trans h.base
  sent rf' a ho := by
    have hs := h.sent rf' a ho
    exact ⟨hbase.trans hs.toSameBase, hcommit ▸ hs.le, by rw [hs.chan, hchan, hcommit]⟩

end Outcome.Conveys

namespace Raft

variable {rf rf' : Raft n Cmd Snap}

/-! ## Sending entries -/

/-- Sending an entry appends its message, if it has one. -/
lemma sendEntry_eq_some {k : ℕ} (h : rf.sendEntry k = some rf') :
    rf' = { rf with applyChan := rf.applyChan ++ (rf.applyMsgAt k).toList } := by
  obtain ⟨e, he, -⟩ := sendEntry_cases h
  rw [sendEntry_of_logAt he] at h
  exact (Option.some.inj h).symm

/-- The commit loop sends the entries it passes.

**Proof sketch.** Induction on the number of turns. A turn sends the message for the next index,
and the log in which the remaining turns run is the same. -/
lemma commitLoop_conveys (leaderCommit : ℕ) : ∀ (fuel : ℕ) (rf : Raft n Cmd Snap),
    Outcome.Conveys rf (commitLoop leaderCommit fuel rf)
  | 0, rf => .ok ⟨rfl, rfl⟩ rfl rfl
  | fuel + 1, rf => by
    unfold commitLoop
    split
    · exact .panic ⟨rfl, rfl⟩
    · dsimp only
      split_ifs
      · split
        · exact .panic ⟨rfl, rfl⟩
        · rename_i rf₁ hsend
          obtain rfl := sendEntry_eq_some hsend
          have ih := commitLoop_conveys leaderCommit fuel { rf with
            applyChan := rf.applyChan ++ (rf.applyMsgAt (rf.commitIndex + 1)).toList
            commitIndex := rf.commitIndex + 1
            lastApplied := rf.commitIndex + 1 }
          obtain ⟨ms, i, j, heq⟩ := commitLoop_eq leaderCommit fuel { rf with
            applyChan := rf.applyChan ++ (rf.applyMsgAt (rf.commitIndex + 1)).toList
            commitIndex := rf.commitIndex + 1
            lastApplied := rf.commitIndex + 1 }
          refine ⟨⟨ih.base.index, ih.base.snapshot⟩, fun rf' a ho => ?_⟩
          have hs := ih.sent rf' a ho
          rw [ho, Outcome.state_ok] at heq
          have hmsgs : ∀ a b, rf'.applyMsgs a b = rf.applyMsgs a b :=
            applyMsgs_congr (by rw [heq]) (by rw [heq])
          have hlt : rf.commitIndex < rf'.commitIndex := hs.le
          refine ⟨⟨hs.index, hs.snapshot⟩, hlt.le, ?_⟩
          rw [hs.chan, hmsgs, hmsgs, applyMsgs_of_lt rf hlt, List.append_assoc]
      · exact .ok ⟨rfl, rfl⟩ rfl rfl

/-- A follower that commits sends what it commits. -/
lemma advanceCommit_conveys (rf : Raft n Cmd Snap) (leaderCommit : ℕ)
    (reply : AppendEntriesReply) : Outcome.Conveys rf (rf.advanceCommit leaderCommit reply) := by
  have hloop := commitLoop_conveys leaderCommit
    (leaderCommit - rf.commitIndex) rf
  unfold advanceCommit
  split_ifs
  · split
    · rename_i rf₁ heq
      refine ⟨by simpa [heq] using hloop.base, fun rf' a ho => ?_⟩
      obtain rfl := (Outcome.ok.inj ho).1
      exact hloop.sent _ () heq
    · rename_i p rf₁ heq
      exact .panic (by simpa [heq] using hloop.base)
  · exact .ok ⟨rfl, rfl⟩ rfl rfl

/-- Sending the `m` entries from index `k` on. -/
lemma sendRange_eq_ok : ∀ (m k : ℕ) (rf rf' : Raft n Cmd Snap), sendRange m k rf = .ok rf' () →
    rf' = { rf with applyChan := rf.applyChan ++ (List.range' k m).filterMap rf.applyMsgAt }
  | 0, _, rf, rf', h => by
    obtain rfl := (Outcome.ok.inj h).1
    simp
  | m + 1, k, rf, rf', h => by
    unfold sendRange at h
    split at h
    · simp at h
    · rename_i rf₁ hsend
      obtain rfl := sendEntry_eq_some hsend
      rw [sendRange_eq_ok m (k + 1) _ rf' h, List.range'_succ, List.filterMap_cons]
      have hat : applyMsgAt { rf with applyChan := rf.applyChan ++ (rf.applyMsgAt k).toList } =
          rf.applyMsgAt := rfl
      rw [hat]
      cases rf.applyMsgAt k <;> simp

/-- A leader that commits sends what it commits. -/
lemma commitUpTo_conveys (rf : Raft n Cmd Snap) {k : ℕ} (hlt : rf.commitIndex < k) :
    Outcome.Conveys rf (rf.commitUpTo k) := by
  obtain ⟨ms, i, j, hstate⟩ := commitUpTo_eq rf k
  refine ⟨by rw [hstate]; exact ⟨rfl, rfl⟩, fun rf' a ho => ?_⟩
  unfold commitUpTo at ho
  split at ho
  · simp at ho
  · rename_i rf₁ heq
    obtain rfl := (Outcome.ok.inj ho).1
    obtain rfl := sendRange_eq_ok _ _ _ _ heq
    exact ⟨⟨rfl, rfl⟩, hlt.le, rfl⟩

/-- The commit rule sends what it commits. -/
lemma commitScan_conveys (rf : Raft n Cmd Snap) (l : Leader n) (peer : Fin n) (k : ℕ) :
    Outcome.Conveys rf (rf.commitScan l peer k) := by
  obtain heq | ⟨-, -, -, -, heq⟩ | ⟨i, -, -, hlt, -, -, -, heq⟩ := commitScan_cases rf l peer k <;>
    rw [heq]
  · exact .ok ⟨rfl, rfl⟩ rfl rfl
  · exact .panic ⟨rfl, rfl⟩
  · exact commitUpTo_conveys rf hlt

/-! ## Handlers and replies -/

/-- Seeing a term keeps the snapshot. -/
lemma sameBase_observe (rf : Raft n Cmd Snap) (t : ℕ) : rf.SameBase (rf.observe t) :=
  observe_rule t ⟨rfl, rfl⟩ fun _ => ⟨rfl, rfl⟩

/-- `AppendEntries` sends what it commits. -/
lemma appendEntries_conveys (rf : Raft n Cmd Snap) (args : AppendEntriesArgs n Cmd) :
    Outcome.Conveys rf (rf.appendEntries args) := by
  have hspec := appendEntries_spec rf args
  generalize rf.appendEntries args = o at hspec ⊢
  cases hspec with
  | stale => exact .ok ⟨rfl, rfl⟩ rfl rfl
  | heartbeat => exact (advanceCommit_conveys _ _ _).after ⟨rfl, rfl⟩ rfl rfl
  | below => exact .ok ⟨rfl, rfl⟩ rfl rfl
  | empty => exact .panic ⟨rfl, rfl⟩
  | beyond => exact .ok ⟨rfl, rfl⟩ rfl rfl
  | outside => exact .panic ⟨rfl, rfl⟩
  | accept => exact (advanceCommit_conveys _ _ _).after ⟨rfl, rfl⟩ rfl rfl
  | conflict => exact .ok ⟨rfl, rfl⟩ rfl rfl

/-- A leader that takes a reply sends what it commits. -/
lemma appendReply_conveys (rf : Raft n Cmd Snap) (peer : Fin n) (args : AppendEntriesArgs n Cmd)
    (reply : AppendEntriesReply) : Outcome.Conveys rf (rf.appendReply peer args reply) := by
  have hspec := appendReply_spec rf peer args reply
  generalize rf.appendReply peer args reply = o at hspec ⊢
  cases hspec with
  | keep => exact .ok ⟨rfl, rfl⟩ rfl rfl
  | noLeader => exact .panic ⟨rfl, rfl⟩
  | empty => exact .panic ⟨rfl, rfl⟩
  | success hs hT e =>
    obtain ⟨-, heq⟩ | ⟨l, -, heq | heq⟩ := appendSuccess_cases rf peer e.logIndex <;> rw [heq]
    · exact .panic ⟨rfl, rfl⟩
    · exact .ok ⟨rfl, rfl⟩ rfl rfl
    · exact (commitScan_conveys _ _ _ _).after ⟨rfl, rfl⟩ rfl rfl
  | follow => exact .ok ⟨rfl, rfl⟩ rfl rfl
  | conflict =>
    obtain ⟨l, next, -, heq⟩ | ⟨-, heq⟩ | heq := appendConflict_cases rf peer reply <;> rw [heq]
    · exact .ok ⟨rfl, rfl⟩ rfl rfl
    · exact .panic ⟨rfl, rfl⟩
    · exact .panic ⟨rfl, rfl⟩

/-- The reply to a snapshot commits nothing. -/
lemma installReply_conveys (rf : Raft n Cmd Snap) (peer : Fin n)
    (args : InstallSnapshotArgs n Snap) (reply : InstallSnapshotReply) :
    Outcome.Conveys rf (rf.installReply peer args reply) := by
  have hspec := installReply_spec rf peer args reply
  generalize rf.installReply peer args reply = o at hspec ⊢
  cases hspec with
  | stale => exact .ok ⟨rfl, rfl⟩ rfl rfl
  | follow => exact .ok ⟨rfl, rfl⟩ rfl rfl
  | noLeader => exact .panic ⟨rfl, rfl⟩
  | record => exact .ok ⟨rfl, rfl⟩ rfl rfl

/-- Starting an election commits nothing. -/
lemma startElection_conveys (rf : Raft n Cmd Snap) : Outcome.Conveys rf rf.startElection := by
  obtain ⟨-, heq⟩ | ⟨-, -, heq⟩ | ⟨last, -, -, heq⟩ := startElection_cases rf <;> rw [heq]
  · exact .ok ⟨rfl, rfl⟩ rfl rfl
  · exact .panic ⟨rfl, rfl⟩
  · exact .ok ⟨rfl, rfl⟩ rfl rfl

/-- Becoming leader commits nothing. -/
lemma becomeLeader_conveys (rf : Raft n Cmd Snap) : Outcome.Conveys rf rf.becomeLeader := by
  obtain ⟨-, heq⟩ | ⟨last, -, heq⟩ := becomeLeader_cases rf <;> rw [heq]
  · exact .panic ⟨rfl, rfl⟩
  · exact .ok ⟨rfl, rfl⟩ rfl rfl

/-- `Start` commits nothing. -/
lemma start_conveys (rf : Raft n Cmd Snap) (command : Cmd) :
    Outcome.Conveys rf (rf.start command) := by
  obtain ⟨-, heq⟩ | ⟨-, heq⟩ | ⟨last, -, heq⟩ := start_cases rf command <;> rw [heq]
  · exact .ok ⟨rfl, rfl⟩ rfl rfl
  · exact .panic ⟨rfl, rfl⟩
  · exact .ok ⟨rfl, rfl⟩ rfl rfl

/-- The first section of `RequestVote` commits nothing. -/
lemma requestVoteCheck_conveys (rf : Raft n Cmd Snap) (args : RequestVoteArgs n) :
    Outcome.Conveys rf (rf.requestVoteCheck args) := by
  obtain ⟨-, heq⟩ | ⟨last, -, heq⟩ := requestVoteCheck_cases rf args <;> rw [heq]
  · exact .panic (sameBase_observe rf _)
  · exact .ok (sameBase_observe rf _) (applyChan_observe rf _) (commitIndex_observe rf _)

/-- The second section of `RequestVote` commits nothing. -/
lemma requestVoteGrant_conveys (rf : Raft n Cmd Snap) (args : RequestVoteArgs n) :
    rf.Conveys (rf.requestVoteGrant args).1 :=
  requestVoteGrant_rule args (.refl rf) (.of_eq ⟨rfl, rfl⟩ rfl rfl)

/-- A section that changes nothing at all. -/
lemma conveys_of_state_eq {o : Outcome n Cmd Snap α} (h : o.state = rf) :
    Outcome.Conveys rf o := by
  cases o with
  | ok rf' a =>
    obtain rfl := h
    exact .ok ⟨rfl, rfl⟩ rfl rfl
  | panic p rf' =>
    obtain rfl := h
    exact .panic ⟨rfl, rfl⟩

/-! ## Starting again -/

/-- A new process sends the persisted snapshot. -/
lemma applyChan_make (me : Fin n) (p : Persister n Cmd Snap) :
    (make me p).applyChan = [(make me p).snapshotMsg] := by
  simp only [make, installSnapshotToApplication, applyChan_readPersist, List.nil_append]
  rfl

/-- A restart finds the persisted snapshot. -/
lemma sameBase_make (hs : rf.Saved) : rf.SameBase (make rf.me rf.persister) := by
  refine ⟨?_, by rw [persister_make]⟩
  have hidx : (make rf.me rf.persister).lastIncludedIndex = rf.addSentinel.lastIncludedIndex :=
    congrArg RaftState.lastIncludedIndex hs
  rw [hidx]
  unfold addSentinel
  split_ifs <;> rfl

end Raft

/-! ## One input -/

namespace Node

variable {nd nd₀ nd' : Node n Cmd Snap} {inp : Input n Cmd Snap} {o : NodeOutcome n Cmd Snap}

/-- The service stands where it stood. -/
structure SameService (nd nd' : Node n Cmd Snap) : Prop where
  received : nd'.received = nd.received
  lastAppliedIndex : nd'.lastAppliedIndex = nd.lastAppliedIndex
  captured : nd'.captured = nd.captured
  past : nd'.past = nd.past

variable [DecidableEq Cmd] [DecidableEq Snap]

/-- What an input can do to what the service sees. -/
inductive Serves (nd : Node n Cmd Snap) : Input n Cmd Snap → Node n Cmd Snap → Prop
  /-- entries were committed, or nothing happened that the service can see -/
  | entries {inp : Input n Cmd Snap} {nd' : Node n Cmd Snap} (hrf : nd.rf.Conveys nd'.rf)
      (hservice : nd.SameService nd') (hkeep : nd.restarts inp = false) : Serves nd inp nd'
  /-- a snapshot was installed -/
  | installed {dst : Fin n} {args : InstallSnapshotArgs n Snap} {g : ℕ} {nd' : Node n Cmd Snap}
      (hlt : nd.rf.lastIncludedIndex < args.lastIncludedIndex)
      (hbase : nd'.rf.lastIncludedIndex = args.lastIncludedIndex)
      (hsnap : nd'.rf.persister.snapshot = args.data)
      (hcommit : nd'.rf.commitIndex = args.lastIncludedIndex)
      (hchan : nd'.rf.applyChan = nd.rf.applyChan ++ [nd'.rf.snapshotMsg])
      (hservice : nd.SameService nd')
      (hkeep : nd.restarts (.recv (.installSnapshot dst args) g) = false) :
      Serves nd (.recv (.installSnapshot dst args) g) nd'
  /-- the service handed over an old snapshot -/
  | skipped {snapshot : Snap} {index : ℕ} (hcap : nd.captured = some (snapshot, index))
      (hle : index ≤ nd.rf.lastIncludedIndex) (hkeep : nd.restarts (.act .takeSnapshot) = false) :
      Serves nd (.act .takeSnapshot) ({ nd with captured := none }.setRaft nd.rf)
  /-- the service handed over a snapshot -/
  | taken {snapshot : Snap} {index : ℕ} {rf : Raft n Cmd Snap}
      (hcap : nd.captured = some (snapshot, index)) (hlt : nd.rf.lastIncludedIndex < index)
      (hbase : rf.lastIncludedIndex = index) (hsnap : rf.persister.snapshot = some snapshot)
      (hcommit : rf.commitIndex = nd.rf.commitIndex) (hchan : rf.applyChan = nd.rf.applyChan)
      (hkeep : nd.restarts (.act .takeSnapshot) = false) :
      Serves nd (.act .takeSnapshot) ({ nd with captured := none }.setRaft rf)
  /-- the service handled the next message -/
  | delivered {m : ApplyMsg Cmd Snap} (hm : nd.rf.applyChan[nd.received]? = some m) :
      Serves nd (.act .deliver) { nd with
        received := nd.received + 1
        lastAppliedIndex := nextApplied nd.lastAppliedIndex m }
  /-- the service encoded its state -/
  | captured (snapshot : Snap) : Serves nd (.act (.capture snapshot))
      { nd with captured := some (snapshot, nd.lastAppliedIndex) }
  /-- the server starts again with the same snapshot -/
  | restarted {inp : Input n Cmd Snap} {nd' : Node n Cmd Snap} (hbase : nd.rf.SameBase nd'.rf)
      (hcommit : nd'.rf.commitIndex = nd'.rf.lastIncludedIndex)
      (hchan : nd'.rf.applyChan = [nd'.rf.snapshotMsg]) (hreceived : nd'.received = 0)
      (happlied : nd'.lastAppliedIndex = 0) (hcap : nd'.captured = none)
      (hrestart : nd.restarts inp = true) : Serves nd inp nd'

/-- A server that starts again has its persisted snapshot, and its service starts anew. -/
lemma serves_restart (hbase : nd.rf.SameBase nd₀.rf) (hsaved : nd₀.rf.Saved)
    (hrestart : nd.restarts inp = true) : Serves nd inp nd₀.restart := by
  refine .restarted ?_ rfl (Raft.applyChan_make _ _) rfl rfl rfl hrestart
  exact hbase.trans (Raft.sameBase_make hsaved)

/-- A section that finishes is no restart, unless it is the crash itself. -/
lemma restarts_eq_false {eff : Effect n Cmd Snap} (ho : nd.exec inp = some (.ok eff))
    (hne : inp ≠ .act .restart) : nd.restarts inp = false := by
  unfold restarts
  rw [ho]
  split <;> simp_all

/-- An effect that leaves the Raft state and the service alone. -/
lemma serves_of_eq {eff : Effect n Cmd Snap} (ho : nd.exec inp = some (.ok eff))
    (hne : inp ≠ .act .restart) (hrf : nd.rf.Conveys eff.node.rf)
    (hservice : nd.SameService eff.node) : Serves nd inp (finish (.ok eff)).node :=
  .entries hrf hservice (restarts_eq_false ho hne)

/-- A section that conveys, then code that leaves the Raft state and the service alone. -/
lemma serves_critical {out : Outcome n Cmd Snap α} {k : Node n Cmd Snap → α → Effect n Cmd Snap}
    (hs : out.state.Saved) (ho : nd.exec inp = some (critical nd₀ out k))
    (hne : inp ≠ .act .restart) (hout : Outcome.Conveys nd.rf out)
    (hrf : ∀ nd a, (k nd a).node.rf = nd.rf)
    (hservice : ∀ rf a, nd.SameService (k (nd₀.setRaft rf) a).node) :
    Serves nd inp (finish (critical nd₀ out k)).node := by
  cases out with
  | ok rf a =>
    refine serves_of_eq ho hne ?_ (hservice rf a)
    rw [hrf]
    exact hout.sent rf a rfl
  | panic p rf => exact serves_restart hout.base hs (restarts_of_panic ho)

/-- A turn of `StartElection` is not seen by the service. -/
lemma turn_serves (hs : nd.rf.Saved) (h₀ : nd₀.rf = nd.rf) (hservice : nd.SameService nd₀)
    (ho : nd.exec inp = some nd₀.turn) (hne : inp ≠ .act .restart) :
    Serves nd inp (finish nd₀.turn).node := by
  refine serves_critical (h₀ ▸ hs).startElection ho hne
    (h₀ ▸ Raft.startElection_conveys nd₀.rf) (fun nd a => by cases a <;> rfl) fun rf a => ?_
  cases a <;> exact ⟨hservice.received, hservice.lastAppliedIndex, hservice.captured, hservice.past⟩

/-- What `TakeSnapshot` does to what the service sees. -/
lemma takeSnapshot_serves {snapshot : Snap} {index : ℕ} (hs : nd.rf.Saved)
    (hcap : nd.captured = some (snapshot, index))
    (ho : nd.exec (.act .takeSnapshot) = some (critical { nd with captured := none }
      (nd.rf.takeSnapshot (some snapshot) index) fun nd _ => { node := nd })) :
    Serves nd (.act .takeSnapshot) (finish (critical { nd with captured := none }
      (nd.rf.takeSnapshot (some snapshot) index) fun nd _ => { node := nd })).node := by
  obtain ⟨hle, heq⟩ | ⟨-, -, heq⟩ | ⟨e, hlt, -, heq⟩ :=
    Raft.takeSnapshot_cases nd.rf (some snapshot) index <;> rw [heq] at ho ⊢
  · exact .skipped hcap hle (restarts_eq_false ho (by simp))
  · exact serves_restart ⟨rfl, rfl⟩ hs (restarts_of_panic ho)
  · exact .taken hcap hlt rfl rfl rfl rfl (restarts_eq_false ho (by simp))

/-- What `InstallSnapshot` does to what the service sees.

**Proof sketch.** By the cases of the handler: a request that is refused or behind is an input that
leaves the snapshot alone, a panic ends in a restart, and an accepted snapshot is sent to the
channel. -/
lemma installSnapshot_serves {dst : Fin n} {args : InstallSnapshotArgs n Snap} {g : ℕ}
    (hs : nd.rf.Saved) (ho : nd.exec (.recv (.installSnapshot dst args) g) = some
      (critical nd (nd.rf.installSnapshot args) fun nd reply =>
        { node := nd, sends := [.installSnapshotReply nd.rf.me args reply] })) :
    Serves nd (.recv (.installSnapshot dst args) g)
      (finish (critical nd (nd.rf.installSnapshot args) fun nd reply =>
        { node := nd, sends := [.installSnapshotReply nd.rf.me args reply] })).node := by
  have hspec := Raft.installSnapshot_spec nd.rf args
  generalize nd.rf.installSnapshot args = out at hspec ho ⊢
  have hkeep : ∀ rf reply, out = .ok rf reply →
      nd.restarts (.recv (.installSnapshot dst args) g) = false := by
    rintro rf reply rfl
    exact restarts_eq_false ho (by simp)
  cases hspec with
  | stale => exact .entries (.refl nd.rf) ⟨rfl, rfl, rfl, rfl⟩ (hkeep _ _ rfl)
  | behind =>
    exact .entries (.of_eq (Raft.sameBase_observe _ _) (Raft.applyChan_observe _ _)
      (Raft.commitIndex_observe _ _)) ⟨rfl, rfl, rfl, rfl⟩ (hkeep _ _ rfl)
  | panic => exact serves_restart (Raft.sameBase_observe _ _) (hs.observe _) (restarts_of_panic ho)
  | install _ hlt =>
    refine .installed hlt rfl rfl rfl ?_ ⟨rfl, rfl, rfl, rfl⟩ (hkeep _ _ rfl)
    exact congrArg (· ++ _) (Raft.applyChan_observe nd.rf args.term)

/-- **No input does anything else** to what the service sees.

**Proof sketch.** By the transition. Apart from restarts, deliveries and snapshots that are
captured, taken or installed, an input leaves the snapshot and what the service reads alone, unless
it panics, which ends in a restart (`serves_critical`). -/
theorem exec_serves (hs : nd.rf.Saved) (ho : nd.exec inp = some o) :
    Serves nd inp (finish o).node := by
  cases Node.trans_of_exec ho with
  | restart => exact serves_restart ⟨rfl, rfl⟩ hs rfl
  | startElection => exact turn_serves hs rfl ⟨rfl, rfl, rfl, rfl⟩ ho (by simp)
  | electionTimeout => exact turn_serves hs rfl ⟨rfl, rfl, rfl, rfl⟩ ho (by simp)
  | electionQuit => exact serves_of_eq ho (by simp) (.refl _) ⟨rfl, rfl, rfl, rfl⟩
  | askVote => exact serves_of_eq ho (by simp) (.refl _) ⟨rfl, rfl, rfl, rfl⟩
  | askNothing => exact serves_of_eq ho (by simp) (.refl _) ⟨rfl, rfl, rfl, rfl⟩
  | stepDown =>
    exact serves_of_eq ho (by simp) (.of_eq ⟨rfl, rfl⟩ rfl rfl) ⟨rfl, rfl, rfl, rfl⟩
  | @grantVote _ hd =>
    exact serves_of_eq ho (by simp) (Raft.requestVoteGrant_conveys nd.rf hd.args)
      ⟨rfl, rfl, rfl, rfl⟩
  | @beat b bt =>
    have hst := Raft.state_heartBeatToServer nd.rf bt.peer
    refine serves_critical (by rw [hst]; exact hs) ho (by simp) (Raft.conveys_of_state_eq hst)
      (fun nd a => by cases a <;> rfl) fun rf a => ?_
    cases a <;> exact ⟨rfl, rfl, rfl, rfl⟩
  | @sendAppend b bt =>
    have hst := Raft.state_buildAppend nd.rf bt.peer
    refine serves_critical (by rw [hst]; exact hs) ho (by simp) (Raft.conveys_of_state_eq hst)
      (fun nd a => by cases a <;> rfl) fun rf a => ?_
    cases a <;> exact ⟨rfl, rfl, rfl, rfl⟩
  | sendInstall => exact serves_of_eq ho (by simp) (.refl _) ⟨rfl, rfl, rfl, rfl⟩
  | beatRetry => exact serves_of_eq ho (by simp) (.refl _) ⟨rfl, rfl, rfl, rfl⟩
  | start command =>
    exact serves_critical (hs.start command) ho (by simp) (Raft.start_conveys nd.rf command)
      (fun _ _ => rfl) fun _ _ => ⟨rfl, rfl, rfl, rfl⟩
  | deliver hm => exact .delivered hm
  | capture snapshot => exact .captured snapshot
  | takeSnapshot hcap => exact takeSnapshot_serves hs hcap ho
  | requestVote dst args =>
    refine serves_critical (hs.requestVoteCheck args) ho (by simp)
      (Raft.requestVoteCheck_conveys nd.rf args) (fun nd a => ?_) fun rf a => ?_
    · split_ifs <;> rfl
    · split_ifs <;> exact ⟨rfl, rfl, rfl, rfl⟩
  | win =>
    exact serves_critical hs.becomeLeader ho (by simp) (Raft.becomeLeader_conveys nd.rf)
      (fun _ _ => rfl) fun _ _ => ⟨rfl, rfl, rfl, rfl⟩
  | count => exact serves_of_eq ho (by simp) (.refl _) ⟨rfl, rfl, rfl, rfl⟩
  | refusal => exact serves_of_eq ho (by simp) (.refl _) ⟨rfl, rfl, rfl, rfl⟩
  | appendEntries dst args =>
    exact serves_critical (hs.appendEntries args) ho (by simp)
      (Raft.appendEntries_conveys nd.rf args) (fun _ _ => rfl) fun _ _ => ⟨rfl, rfl, rfl, rfl⟩
  | @appendReply b src args reply =>
    exact serves_critical (hs.appendReply src args reply) ho (by simp)
      (Raft.appendReply_conveys nd.rf src args reply) (fun _ _ => rfl)
      fun _ _ => ⟨rfl, rfl, rfl, rfl⟩
  | installSnapshot => exact installSnapshot_serves hs ho
  | @installReply b src args reply =>
    exact serves_critical (hs.installReply src args reply) ho (by simp)
      (Raft.installReply_conveys nd.rf src args reply) (fun _ _ => rfl)
      fun _ _ => ⟨rfl, rfl, rfl, rfl⟩

end Node

end Mit6824
