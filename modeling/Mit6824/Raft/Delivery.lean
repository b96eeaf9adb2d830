import Mit6824.Raft.Follower
import Mit6824.Raft.Shape

set_option autoImplicit false

/-!
# Delivery to the service

What one incarnation of a server sends on its apply channel. Every section that finishes appends
to the channel entries in increasing order of their indexes, all above the old `commitIndex` and
up to the new one, as long as no installed snapshot is behind `commitIndex`. Then `commitIndex`
and `lastApplied` never decrease between two starts of a server and no entry is delivered twice.
An older snapshot moves both indexes back, and the entries above it are delivered again.

## Main definitions

* `Mit6824.commandIndexs` — the log indexes of the entries among some messages.
* `Mit6824.Batch` — messages in the order of their indexes between two bounds.
* `Mit6824.Raft.Delivers` — how the channel and the two indexes may change.
* `Mit6824.Node.restarts` — the input ends the incarnation.

## Main results

* `Mit6824.Node.exec_delivers` — every input delivers, or starts the server again.
* `Mit6824.delivery_monotone`, `Mit6824.entry_delivered_twice`.
-/

namespace Mit6824

variable {n : ℕ} {Cmd Snap : Type}

/-! ## Messages in order -/

/-- The log indexes of the entries among some messages. -/
def commandIndexs (ms : List (ApplyMsg Cmd Snap)) : List ℕ :=
  (ms.filter ApplyMsg.commandValid).map ApplyMsg.logIndex

/-- The indexes of two lists of messages. -/
@[simp] lemma commandIndexs_append (ms ms' : List (ApplyMsg Cmd Snap)) :
    commandIndexs (ms ++ ms') = commandIndexs ms ++ commandIndexs ms' := by
  simp [commandIndexs]

/-- Messages whose entries are in increasing order of their indexes, all above `a`; no message
goes beyond `b`. -/
structure Batch (a b : ℕ) (ms : List (ApplyMsg Cmd Snap)) : Prop where
  sorted : (commandIndexs ms).Pairwise (· < ·)
  above : ∀ k ∈ commandIndexs ms, a < k
  upTo_le : ∀ m ∈ ms, m.upTo ≤ b

namespace Batch

variable {a b c : ℕ} {ms ms' : List (ApplyMsg Cmd Snap)}

/-- Nothing has been sent. -/
lemma nil : Batch a b ([] : List (ApplyMsg Cmd Snap)) :=
  ⟨List.Pairwise.nil, by simp [commandIndexs], by simp⟩

/-- A message that is not an entry. -/
lemma snapshot {m : ApplyMsg Cmd Snap} (hm : m.commandValid = false)
    (hb : m.lastIncludedIndex ≤ b) : Batch a b [m] := by
  refine ⟨by simp [commandIndexs, hm], by simp [commandIndexs, hm], fun m' hm' => ?_⟩
  obtain rfl := List.mem_singleton.mp hm'
  simpa [ApplyMsg.upTo, hm] using hb

/-- No message of a batch goes beyond its end. -/
lemma le_of_mem (h : Batch a b ms) {k : ℕ} (hk : k ∈ commandIndexs ms) : k ≤ b := by
  obtain ⟨m, hm, rfl⟩ := List.mem_map.mp hk
  obtain ⟨hmem, hvalid⟩ := List.mem_filter.mp hm
  have := h.upTo_le m hmem
  rwa [ApplyMsg.upTo, if_pos hvalid] at this

/-- A batch that starts where another one ends. -/
lemma append (h : Batch a b ms) (h' : Batch b c ms') (hab : a ≤ b) (hbc : b ≤ c) :
    Batch a c (ms ++ ms') := by
  refine ⟨?_, fun k hk => ?_, fun m hm => ?_⟩
  · rw [commandIndexs_append, List.pairwise_append]
    exact ⟨h.sorted, h'.sorted, fun i hi j hj => (h.le_of_mem hi).trans_lt (h'.above j hj)⟩
  · rw [commandIndexs_append] at hk
    rcases List.mem_append.mp hk with hk | hk
    · exact h.above k hk
    · exact hab.trans_lt (h'.above k hk)
  · rcases List.mem_append.mp hm with hm | hm
    · exact (h.upTo_le m hm).trans hbc
    · exact h'.upTo_le m hm

end Batch

namespace Raft

variable {rf rf' rf'' : Raft n Cmd Snap}

/-- The entry that an index finds has that index. -/
def Indexed (rf : Raft n Cmd Snap) : Prop := ∀ k e, rf.logAt k = some e → e.logIndex = k

/-- Only the log counts. -/
lemma Indexed.congr (h : rf.Indexed) (hlogs : rf'.logs = rf.logs)
    (hbase : rf'.lastIncludedIndex = rf.lastIncludedIndex) : rf'.Indexed := by
  intro k e he
  rw [logAt, hlogs, hbase] at he
  exact h k e he

/-- The entries of a log in sequence are found at their indexes. -/
lemma InSequence.indexed (h : rf.InSequence) : rf.Indexed :=
  fun _ _ he => h.logIndex_of_logAt he

/-- From one state of an incarnation to a later one: `commitIndex` does not move back,
`lastApplied` goes with it, and what was sent in between is in order and lies between the two
values of `commitIndex`. -/
structure Delivers (rf rf' : Raft n Cmd Snap) : Prop where
  le : rf.commitIndex ≤ rf'.commitIndex
  applied : rf.lastApplied = rf.commitIndex → rf'.lastApplied = rf'.commitIndex
  sent : ∃ ms, rf'.applyChan = rf.applyChan ++ ms ∧ Batch rf.commitIndex rf'.commitIndex ms

namespace Delivers

/-- The channel and the two indexes are left alone. -/
lemma of_eq (hchan : rf'.applyChan = rf.applyChan) (hcommit : rf'.commitIndex = rf.commitIndex)
    (happ : rf'.lastApplied = rf.lastApplied) : Delivers rf rf' where
  le := hcommit.ge
  applied h := by rw [happ, hcommit, h]
  sent := ⟨[], by simp [hchan], .nil⟩

/-- Nothing has been sent. -/
lemma refl (rf : Raft n Cmd Snap) : Delivers rf rf := of_eq rfl rfl rfl

/-- One stretch after another. -/
lemma trans (h : Delivers rf rf') (h' : Delivers rf' rf'') : Delivers rf rf'' where
  le := h.le.trans h'.le
  applied happ := h'.applied (h.applied happ)
  sent := by
    obtain ⟨ms, hchan, hms⟩ := h.sent
    obtain ⟨ms', hchan', hms'⟩ := h'.sent
    exact ⟨ms ++ ms', by rw [hchan', hchan, List.append_assoc], hms.append hms' h.le h'.le⟩

end Delivers

/-! ## Sending entries -/

/-- Sending entry `k` adds at most one message, for index `k`. -/
lemma sendEntry_batch (hidx : rf.Indexed) {a k : ℕ} (ha : a < k) (h : rf.sendEntry k = some rf') :
    ∃ ms, rf' = { rf with applyChan := rf.applyChan ++ ms } ∧ Batch a k ms := by
  obtain ⟨e, he, ⟨-, rfl⟩ | ⟨-, rfl⟩⟩ := sendEntry_cases h
  · exact ⟨[], by simp, .nil⟩
  · have hk := hidx k e he
    refine ⟨_, rfl, ?_, ?_, ?_⟩
    · simp [commandIndexs]
    · simpa [commandIndexs, hk] using ha
    · simp [ApplyMsg.upTo, hk]

/-- The commit loop of a follower sends the entries in order. The induction is on the fuel. -/
lemma commitLoop_delivers {leaderCommit : ℕ} : ∀ (fuel : ℕ) (rf rf' : Raft n Cmd Snap),
    rf.Indexed → commitLoop leaderCommit fuel rf = .ok rf' () → Delivers rf rf'
  | 0, rf, rf', _, h => by
    obtain rfl := (Outcome.ok.inj h).1
    exact .refl rf
  | fuel + 1, rf, rf', hidx, h => by
    unfold commitLoop at h
    split at h
    · simp at h
    · dsimp only at h
      split_ifs at h
      · split at h
        · simp at h
        · rename_i rf₁ hsend
          obtain ⟨ms, rfl, hms⟩ := sendEntry_batch hidx (Nat.lt_succ_self _) hsend
          -- one turn of the loop, then the turns that remain
          have hturn : Delivers rf { rf with
              applyChan := rf.applyChan ++ ms
              commitIndex := rf.commitIndex + 1
              lastApplied := rf.commitIndex + 1 } :=
            ⟨Nat.le_succ _, fun _ => rfl, ms, rfl, hms⟩
          exact hturn.trans (commitLoop_delivers fuel _ rf' (hidx.congr rfl rfl) h)
      · obtain rfl := (Outcome.ok.inj h).1
        exact .refl rf

/-- A follower commits in order. -/
lemma advanceCommit_delivers (hidx : rf.Indexed) {leaderCommit : ℕ}
    {reply r : AppendEntriesReply} (h : rf.advanceCommit leaderCommit reply = .ok rf' r) :
    Delivers rf rf' := by
  unfold advanceCommit at h
  split_ifs at h
  · split at h
    · rename_i rf₁ heq
      obtain rfl := (Outcome.ok.inj h).1
      exact commitLoop_delivers _ rf rf₁ hidx heq
    · simp at h
  · obtain rfl := (Outcome.ok.inj h).1
    exact .refl rf

/-- Sending the `m` entries from index `k` on.

**Proof sketch.** Induction on `m`; the first message is for index `k`, the others are for
larger ones. -/
lemma sendRange_batch : ∀ (m k a b : ℕ) (rf rf' : Raft n Cmd Snap), rf.Indexed → a < k →
    k + m = b + 1 → sendRange m k rf = .ok rf' () →
    ∃ ms, rf' = { rf with applyChan := rf.applyChan ++ ms } ∧ Batch a b ms
  | 0, _, _, _, rf, rf', _, _, _, h => by
    obtain rfl := (Outcome.ok.inj h).1
    exact ⟨[], by simp, .nil⟩
  | m + 1, k, a, b, rf, rf', hidx, ha, hb, h => by
    unfold sendRange at h
    split at h
    · simp at h
    · rename_i rf₁ hsend
      obtain ⟨ms, rfl, hms⟩ := sendEntry_batch hidx ha hsend
      obtain ⟨ms', rfl, hms'⟩ := sendRange_batch m (k + 1) k b
        { rf with applyChan := rf.applyChan ++ ms } rf' (hidx.congr rfl rfl)
        (Nat.lt_succ_self k) (by omega) h
      exact ⟨ms ++ ms', by simp, hms.append hms' ha.le (by omega)⟩

/-- A leader commits in order. -/
lemma commitUpTo_delivers (hidx : rf.Indexed) {k : ℕ} (hlt : rf.commitIndex < k)
    (h : rf.commitUpTo k = .ok rf' ()) : Delivers rf rf' := by
  unfold commitUpTo at h
  split at h
  · simp at h
  · rename_i rf₁ heq
    obtain rfl := (Outcome.ok.inj h).1
    obtain ⟨ms, rfl, hms⟩ := sendRange_batch _ _ _ k rf rf₁ hidx (Nat.lt_succ_self _)
      (by omega) heq
    exact ⟨hlt.le, fun _ => rfl, ms, rfl, hms⟩

/-- The commit rule commits in order. -/
lemma commitScan_delivers (hidx : rf.Indexed) {l : Leader n} {peer : Fin n} {k : ℕ}
    (h : rf.commitScan l peer k = .ok rf' ()) : Delivers rf rf' := by
  obtain heq | ⟨-, -, -, -, heq⟩ | ⟨i, -, -, hlt, -, -, -, heq⟩ := commitScan_cases rf l peer k <;>
    rw [heq] at h
  · obtain rfl := (Outcome.ok.inj h).1
    exact .refl rf
  · simp at h
  · exact commitUpTo_delivers hidx hlt h

/-! ## Handlers and replies -/

/-- Seeing a term sends nothing. -/
lemma observe_delivers (rf : Raft n Cmd Snap) (t : ℕ) : Delivers rf (rf.observe t) :=
  observe_rule t (.refl rf) fun _ => .of_eq rfl rfl rfl

/-- `AppendEntries` delivers in order.

**Proof sketch.** By the cases of the handler. Only a heartbeat and accepted entries run the commit
loop; the loop does not change the log, so it runs in the log that is left at the end. -/
lemma appendEntries_delivers {args : AppendEntriesArgs n Cmd} {reply : AppendEntriesReply}
    (h : rf.appendEntries args = .ok rf' reply) (hidx : rf'.Indexed) : Delivers rf rf' := by
  -- the log in which the commit loop runs is the one it leaves
  have hcommit : ∀ (rf₁ : Raft n Cmd Snap) (r : AppendEntriesReply),
      rf₁.advanceCommit args.leaderCommit r = .ok rf' reply → Delivers rf rf₁ →
      Delivers rf rf' := by
    intro rf₁ r hadv hfirst
    obtain ⟨ms, i, j, heq⟩ := advanceCommit_eq rf₁ args.leaderCommit r
    rw [hadv, Outcome.state_ok] at heq
    exact hfirst.trans (advanceCommit_delivers (hidx.congr (by rw [heq]) (by rw [heq])) hadv)
  have hspec := appendEntries_spec rf args
  generalize rf.appendEntries args = o at h hspec
  cases hspec with
  | stale =>
    obtain rfl := (Outcome.ok.inj h).1
    exact .refl rf
  | heartbeat => exact hcommit _ _ h (.of_eq rfl rfl rfl)
  | below =>
    obtain rfl := (Outcome.ok.inj h).1
    exact .of_eq rfl rfl rfl
  | empty => simp at h
  | beyond =>
    obtain rfl := (Outcome.ok.inj h).1
    exact .of_eq rfl rfl rfl
  | outside => simp at h
  | accept => exact hcommit _ _ h (.of_eq rfl rfl rfl)
  | conflict =>
    obtain rfl := (Outcome.ok.inj h).1
    exact .of_eq rfl rfl rfl

/-- An installed snapshot that is not behind `commitIndex` sends one message, the snapshot. -/
lemma installSnapshot_delivers {args : InstallSnapshotArgs n Snap} {reply : InstallSnapshotReply}
    (h : rf.installSnapshot args = .ok rf' reply)
    (hfresh : rf.currentTerm ≤ args.term → rf.lastIncludedIndex < args.lastIncludedIndex →
      rf.commitIndex ≤ args.lastIncludedIndex) : Delivers rf rf' := by
  have hspec := installSnapshot_spec rf args
  generalize rf.installSnapshot args = o at h hspec
  cases hspec with
  | stale =>
    obtain rfl := (Outcome.ok.inj h).1
    exact .refl rf
  | behind =>
    obtain rfl := (Outcome.ok.inj h).1
    exact observe_delivers rf args.term
  | panic => simp at h
  | install hle hlt logs hlogs =>
    obtain rfl := (Outcome.ok.inj h).1
    exact ⟨hfresh hle hlt, fun _ => rfl, _, congrArg (· ++ _) (applyChan_observe rf args.term),
      .snapshot rfl le_rfl⟩

/-- A success reply delivers in order. -/
lemma appendSuccess_delivers {peer : Fin n} {last : ℕ}
    (h : rf.appendSuccess peer last = .ok rf' ()) (hidx : rf'.Indexed) : Delivers rf rf' := by
  obtain ⟨-, heq⟩ | ⟨l, -, heq | heq⟩ := appendSuccess_cases rf peer last <;> rw [heq] at h
  · simp at h
  · obtain rfl := (Outcome.ok.inj h).1
    exact .of_eq rfl rfl rfl
  · obtain ⟨ms, j, k, hstate⟩ := commitScan_eq
      { rf with leaderPtr := some (setPeer l peer (last + 1) last) }
      (setPeer l peer (last + 1) last) peer last
    rw [h, Outcome.state_ok] at hstate
    have hscan := commitScan_delivers (hidx.congr (by rw [hstate]) (by rw [hstate])) h
    exact ⟨hscan.le, hscan.applied, hscan.sent⟩

/-- A reply to `AppendEntries` delivers in order.

**Proof sketch.** By the cases of the handler. Only a success runs the commit loop of the leader
(`appendSuccess_delivers`); a conflict changes a next index. -/
lemma appendReply_delivers {peer : Fin n} {args : AppendEntriesArgs n Cmd}
    {reply : AppendEntriesReply} (h : rf.appendReply peer args reply = .ok rf' ())
    (hidx : rf'.Indexed) : Delivers rf rf' := by
  have hspec := appendReply_spec rf peer args reply
  generalize rf.appendReply peer args reply = o at h hspec
  cases hspec with
  | keep =>
    obtain rfl := (Outcome.ok.inj h).1
    exact .refl rf
  | noLeader => simp at h
  | empty => simp at h
  | success => exact appendSuccess_delivers h hidx
  | follow =>
    obtain rfl := (Outcome.ok.inj h).1
    exact .of_eq rfl rfl rfl
  | conflict =>
    obtain ⟨l, next, -, heq⟩ | ⟨-, heq⟩ | heq := appendConflict_cases rf peer reply <;>
      rw [heq] at h
    · obtain rfl := (Outcome.ok.inj h).1
      exact .of_eq rfl rfl rfl
    · simp at h
    · simp at h

/-- Starting an election sends nothing. -/
lemma startElection_delivers {r : Option (RequestVoteArgs n)}
    (h : rf.startElection = .ok rf' r) : Delivers rf rf' := by
  obtain ⟨-, heq⟩ | ⟨-, -, heq⟩ | ⟨last, -, -, heq⟩ := startElection_cases rf <;> rw [heq] at h
  · obtain rfl := (Outcome.ok.inj h).1
    exact .refl rf
  · simp at h
  · obtain rfl := (Outcome.ok.inj h).1
    exact .of_eq rfl rfl rfl

/-- Becoming leader sends nothing. -/
lemma becomeLeader_delivers (h : rf.becomeLeader = .ok rf' ()) : Delivers rf rf' := by
  obtain ⟨-, heq⟩ | ⟨last, -, heq⟩ := becomeLeader_cases rf <;> rw [heq] at h
  · simp at h
  · obtain rfl := (Outcome.ok.inj h).1
    exact .of_eq rfl rfl rfl

/-- `Start` sends nothing. -/
lemma start_delivers {command : Cmd} {r : Option (ℕ × ℕ)} (h : rf.start command = .ok rf' r) :
    Delivers rf rf' := by
  obtain ⟨-, heq⟩ | ⟨-, heq⟩ | ⟨last, -, heq⟩ := start_cases rf command <;> rw [heq] at h
  · obtain rfl := (Outcome.ok.inj h).1
    exact .refl rf
  · simp at h
  · obtain rfl := (Outcome.ok.inj h).1
    exact .of_eq rfl rfl rfl

/-- `TakeSnapshot` sends nothing. -/
lemma takeSnapshot_delivers {snapshot : Option Snap} {k : ℕ}
    (h : rf.takeSnapshot snapshot k = .ok rf' ()) : Delivers rf rf' := by
  obtain ⟨-, heq⟩ | ⟨-, -, heq⟩ | ⟨e, -, -, heq⟩ := takeSnapshot_cases rf snapshot k <;>
    rw [heq] at h
  · obtain rfl := (Outcome.ok.inj h).1
    exact .refl rf
  · simp at h
  · obtain rfl := (Outcome.ok.inj h).1
    exact .of_eq rfl rfl rfl

/-- The reply to a snapshot sends nothing. -/
lemma installReply_delivers {peer : Fin n} {args : InstallSnapshotArgs n Snap}
    {reply : InstallSnapshotReply} (h : rf.installReply peer args reply = .ok rf' ()) :
    Delivers rf rf' := by
  have hspec := installReply_spec rf peer args reply
  generalize rf.installReply peer args reply = o at h hspec
  cases hspec with
  | stale =>
    obtain rfl := (Outcome.ok.inj h).1
    exact .refl rf
  | follow =>
    obtain rfl := (Outcome.ok.inj h).1
    exact .of_eq rfl rfl rfl
  | noLeader => simp at h
  | record =>
    obtain rfl := (Outcome.ok.inj h).1
    exact .of_eq rfl rfl rfl

/-- The second section of `RequestVote` sends nothing. -/
lemma requestVoteGrant_delivers (rf : Raft n Cmd Snap) (args : RequestVoteArgs n) :
    Delivers rf (rf.requestVoteGrant args).1 :=
  requestVoteGrant_rule args (.refl rf) (.of_eq rfl rfl rfl)

/-- The first section of `RequestVote` sends nothing. -/
lemma requestVoteCheck_delivers {args : RequestVoteArgs n} {chk : VoteCheck}
    (h : rf.requestVoteCheck args = .ok rf' chk) : Delivers rf rf' := by
  obtain ⟨-, heq⟩ | ⟨last, -, heq⟩ := requestVoteCheck_cases rf args <;> rw [heq] at h
  · simp at h
  · obtain rfl := (Outcome.ok.inj h).1
    exact observe_delivers rf args.candicateTerm

end Raft

/-! ## One input -/

namespace Node

variable [DecidableEq Cmd] [DecidableEq Snap] {nd nd₀ : Node n Cmd Snap}
  {inp : Input n Cmd Snap} {o : NodeOutcome n Cmd Snap}

/-- A panic is followed by a restart. -/
lemma restarts_of_panic {p : Panic} {nd' : Node n Cmd Snap}
    (ho : nd.exec inp = some (.panic p nd')) : nd.restarts inp = true := by
  unfold restarts
  rw [ho]
  split <;> simp_all

/-- A critical section that delivers, then code that leaves the Raft state alone. -/
lemma critical_delivers {α : Type} {out : Outcome n Cmd Snap α}
    {k : Node n Cmd Snap → α → Effect n Cmd Snap} (hrf : ∀ nd a, (k nd a).node.rf = nd.rf)
    (ho : nd.exec inp = some (critical nd₀ out k))
    (hd : ∀ rf a, out = .ok rf a → (finish (critical nd₀ out k)).node.rf = rf →
      nd.rf.Delivers rf) :
    nd.rf.Delivers (finish (critical nd₀ out k)).node.rf ∨ (nd.restarts inp = true ∧
      ∃ me p, (finish (critical nd₀ out k)).node.rf = Raft.make me p) := by
  cases out with
  | ok rf a =>
    left
    have hend : (finish (critical nd₀ (.ok rf a) k)).node.rf = rf := hrf _ a
    rw [hend]
    exact hd rf a rfl hend
  | panic p rf => exact Or.inr ⟨restarts_of_panic ho, rf.me, rf.persister, rfl⟩

/-- A turn of `StartElection` sends nothing, or the server starts again. -/
lemma turn_delivers (h₀ : nd₀.rf = nd.rf) (ho : nd.exec inp = some nd₀.turn) :
    nd.rf.Delivers (finish nd₀.turn).node.rf ∨ (nd.restarts inp = true ∧
      ∃ me p, (finish nd₀.turn).node.rf = Raft.make me p) := by
  refine critical_delivers (fun nd a => by cases a <;> rfl) ho fun rf a hok _ => ?_
  rw [h₀] at hok
  exact Raft.startElection_delivers hok

/-- **Every input delivers** entries in order, or ends the incarnation, when no installed snapshot
is behind `commitIndex`.

**Proof sketch.** By the transition. Inputs without a section of their own send nothing, the others
have their own lemma, and a panic ends the incarnation. Only an installed snapshot needs the
assumption. -/
theorem exec_delivers (hI : InstallFresh nd inp) (ho : nd.exec inp = some o)
    (hidx : (finish o).node.rf.Indexed) :
    nd.rf.Delivers (finish o).node.rf ∨ (nd.restarts inp = true ∧
      ∃ me p, (finish o).node.rf = Raft.make me p) := by
  cases Node.trans_of_exec ho with
  | restart => exact Or.inr ⟨rfl, nd.rf.me, nd.rf.persister, rfl⟩
  | startElection => exact turn_delivers rfl ho
  | electionTimeout => exact turn_delivers rfl ho
  | electionQuit => exact Or.inl (.refl nd.rf)
  | askVote => exact Or.inl (.refl nd.rf)
  | askNothing => exact Or.inl (.refl nd.rf)
  | stepDown => exact Or.inl (.of_eq rfl rfl rfl)
  | @grantVote _ hd => exact Or.inl (Raft.requestVoteGrant_delivers nd.rf hd.args)
  | @beat b bt =>
    refine critical_delivers (fun nd a => by cases a <;> rfl) ho fun rf a hok _ => ?_
    have hst := Raft.state_heartBeatToServer nd.rf bt.peer
    rw [hok, Outcome.state_ok] at hst
    exact hst ▸ .refl nd.rf
  | @sendAppend b bt =>
    refine critical_delivers (fun nd a => by cases a <;> rfl) ho fun rf a hok _ => ?_
    have hst := Raft.state_buildAppend nd.rf bt.peer
    rw [hok, Outcome.state_ok] at hst
    exact hst ▸ .refl nd.rf
  | sendInstall => exact Or.inl (.refl nd.rf)
  | beatRetry => exact Or.inl (.refl nd.rf)
  | start =>
    exact critical_delivers (fun _ _ => rfl) ho fun rf a hok _ => Raft.start_delivers hok
  | deliver => exact Or.inl (.refl nd.rf)
  | capture => exact Or.inl (.refl nd.rf)
  | takeSnapshot =>
    exact critical_delivers (fun _ _ => rfl) ho fun rf a hok _ => Raft.takeSnapshot_delivers hok
  | requestVote =>
    refine critical_delivers (fun nd a => ?_) ho fun rf a hok _ =>
      Raft.requestVoteCheck_delivers hok
    split_ifs <;> rfl
  | win =>
    exact critical_delivers (fun _ _ => rfl) ho fun rf a hok _ => Raft.becomeLeader_delivers hok
  | count => exact Or.inl (.refl nd.rf)
  | refusal => exact Or.inl (.refl nd.rf)
  | appendEntries =>
    exact critical_delivers (fun _ _ => rfl) ho fun rf a hok hrf =>
      Raft.appendEntries_delivers hok (hrf ▸ hidx)
  | appendReply =>
    exact critical_delivers (fun _ _ => rfl) ho fun rf a hok hrf =>
      Raft.appendReply_delivers hok (hrf ▸ hidx)
  | installSnapshot =>
    refine critical_delivers (fun _ _ => rfl) ho fun rf a hok _ => ?_
    exact Raft.installSnapshot_delivers hok fun hle hlt =>
      hI _ (by simp [Node.installing, hle, hlt])
  | installReply =>
    exact critical_delivers (fun _ _ => rfl) ho fun rf a hok _ => Raft.installReply_delivers hok

end Node

/-! ## Runs -/

/-- What this incarnation has delivered is in order and within `commitIndex`. -/
structure Raft.Delivered (rf : Raft n Cmd Snap) : Prop where
  applied : rf.lastApplied = rf.commitIndex
  sorted : (commandIndexs rf.applyChan).Pairwise (· < ·)
  le : ∀ k ∈ commandIndexs rf.applyChan, k ≤ rf.commitIndex

namespace Raft.Delivered

variable {rf rf' : Raft n Cmd Snap}

/-- What is delivered stays in order from one state to the next. -/
lemma delivers (h : rf.Delivered) (hd : rf.Delivers rf') : rf'.Delivered := by
  obtain ⟨ms, hchan, hms⟩ := hd.sent
  refine ⟨hd.applied h.applied, ?_, fun k hk => ?_⟩
  · rw [hchan, commandIndexs_append, List.pairwise_append]
    exact ⟨h.sorted, hms.sorted, fun i hi j hj => (h.le i hi).trans_lt (hms.above j hj)⟩
  · rw [hchan, commandIndexs_append] at hk
    rcases List.mem_append.mp hk with hk | hk
    · exact (h.le k hk).trans hd.le
    · exact hms.le_of_mem hk

/-- A new process has delivered no entry. -/
lemma make (me : Fin n) (p : Persister n Cmd Snap) : (Raft.make me p).Delivered := by
  have hnone : commandIndexs (Raft.make me p).applyChan = [] := by
    unfold commandIndexs
    rw [List.filter_eq_nil_iff.mpr fun m hm => by simp [(of_mem_applyChan_make hm).1]]
    rfl
  exact ⟨rfl, by simp [hnone], by simp [hnone]⟩

end Raft.Delivered

section Runs

variable [DecidableEq Cmd] [DecidableEq Snap] {c d : Cluster n Cmd Snap}

/-- In every run of fresh installs, what a server has delivered is in order.

**Proof sketch.** Induction on the run, together with the indexes of the logs. The server that steps
delivers (`Node.exec_delivers`), or it starts again with an empty channel; the others have not
moved. -/
lemma delivered_of_run (h : Run (fun nd inp => InstallFresh nd inp) Cluster.init c) (i : Fin n) :
    (c.nodes i).rf.Delivered := by
  suffices hc : AllInSequence c ∧ ∀ i, (c.nodes i).rf.Delivered from hc.2 i
  refine Run.induct (I := fun c => AllInSequence c ∧ ∀ i, (c.nodes i).rf.Delivered) h
    ⟨AllInSequence.init, fun i => .make i {}⟩ ?_ ?_
  · rintro c d ⟨hS, hD⟩ hn hnet
    exact ⟨hS.lose hn hnet, fun i => by rw [hn]; exact hD i⟩
  · rintro c j inp o ⟨hS, hD⟩ hI hdel ho
    have hS' := hS.after hdel ho
    refine ⟨hS', Cluster.forall_nodes_after (P := fun _ nd => nd.rf.Delivered) ?_ fun k _ => hD k⟩
    have hidx := (hS'.nodes j).indexed
    rw [Cluster.nodes_after_self] at hidx
    rcases Node.exec_delivers hI ho hidx with hd | ⟨-, me, p, hmake⟩
    · exact (hD j).delivers hd
    · rw [hmake]
      exact .make me p

/-- Between two starts of server `i` everything is delivered in order.

**Proof sketch.** Induction on the second run, as in `delivered_of_run`; a restart of server `i` is
excluded. -/
lemma delivers_of_run (h : Run (fun nd inp => InstallFresh nd inp) Cluster.init c) (i : Fin n)
    (h' : Run (fun nd inp => InstallFresh nd inp ∧ (nd.rf.me = i → nd.restarts inp = false)) c d) :
    (c.nodes i).rf.Delivers (d.nodes i).rf := by
  suffices hd : Elections d ∧ AllInSequence d ∧ (c.nodes i).rf.Delivers (d.nodes i).rf from hd.2.2
  refine Run.induct (I := fun d => Elections d ∧ AllInSequence d ∧
    (c.nodes i).rf.Delivers (d.nodes i).rf) h'
    ⟨Elections.of_run h, AllInSequence.of_run h, .refl _⟩ ?_ ?_
  · rintro d e ⟨hE, hS, hd⟩ hn hnet
    exact ⟨hE.lose hn hnet, hS.lose hn hnet, by rw [hn]; exact hd⟩
  · rintro d j inp o ⟨hE, hS, hd⟩ ⟨hI, hkeep⟩ hdel ho
    have hS' := hS.after hdel ho
    refine ⟨hE.after hdel ho, hS', ?_⟩
    by_cases hi : i = j
    · subst hi
      have hidx := (hS'.nodes i).indexed
      rw [Cluster.nodes_after_self] at hidx ⊢
      rcases Node.exec_delivers hI ho hidx with hstep | ⟨hrestart, -⟩
      · exact hd.trans hstep
      · simp [hkeep (hE.me i)] at hrestart
    · rw [Cluster.nodes_after_of_ne d hi]
      exact hd

/-- **Delivery is monotone.** When no installed snapshot is behind `commitIndex`, then between two
starts of a server `commitIndex` and `lastApplied` do not decrease, and the entries sent on its
apply channel have strictly increasing log indexes.

**Proof sketch.** What a server has delivered is in order in every state of a run, and what it
delivers between two starts comes behind it. -/
theorem delivery_monotone (h : Run (fun nd inp => InstallFresh nd inp) Cluster.init c) (i : Fin n)
    (h' : Run (fun nd inp => InstallFresh nd inp ∧ (nd.rf.me = i → nd.restarts inp = false)) c d) :
    (c.nodes i).rf.commitIndex ≤ (d.nodes i).rf.commitIndex ∧
    (c.nodes i).rf.lastApplied ≤ (d.nodes i).rf.lastApplied ∧
    (c.nodes i).rf.applyChan <+: (d.nodes i).rf.applyChan ∧
    (commandIndexs (d.nodes i).rf.applyChan).Pairwise (· < ·) := by
  have hc := delivered_of_run h i
  have hd := delivers_of_run h i h'
  obtain ⟨ms, hchan, -⟩ := hd.sent
  refine ⟨hd.le, ?_, ⟨ms, hchan.symm⟩, (hc.delivers hd).sorted⟩
  rw [hc.applied, (hc.delivers hd).applied]
  exact hd.le

end Runs

/-- Server 0 is elected and commits the commands 10 and 20 with the help of server 2. -/
def twoCommits : List (Label 3 ℕ ℕ) :=
  [.act 0 .startElection, .act 0 (.askVote 0 2), .recv 0 0, .act 2 (.grantVote 0), .recv 0 0,
    .act 0 (.start 10), .act 0 (.start 20), .act 0 (.beat 1), .act 0 (.sendAppend 1), .recv 0 0,
    .recv 0 1]

/-- Server 1 learns of both commands in one request. -/
def bothDelivered : List (Label 3 ℕ ℕ) :=
  [.act 0 (.beat 0), .act 0 (.sendAppend 0), .recv 0 0]

/-- Server 1 delivers the commands at indexes 2 and 3. -/
theorem delivery_monotone_first : ∃ c d : Cluster 3 ℕ ℕ,
    Run (fun nd inp => InstallFresh nd inp) .init c ∧
    Run (fun nd inp => InstallFresh nd inp ∧ (nd.rf.me = 1 → nd.restarts inp = false)) c d ∧
    commandIndexs (d.nodes 1).rf.applyChan = [2, 3] ∧
    (c.nodes 1).rf.commitIndex ≤ (d.nodes 1).rf.commitIndex ∧
    (c.nodes 1).rf.lastApplied ≤ (d.nodes 1).rf.lastApplied ∧
    (commandIndexs (d.nodes 1).rf.applyChan).Pairwise (· < ·) := by
  obtain ⟨c, hc, hnext⟩ : ∃ c : Cluster 3 ℕ ℕ, Run (fun nd inp => InstallFresh nd inp) .init c ∧
      ((c.stepsIf (fun nd inp => InstallFresh nd inp ∧ (nd.rf.me = 1 → nd.restarts inp = false))
        bothDelivered).any fun d =>
          decide (commandIndexs (d.nodes 1).rf.applyChan = [2, 3])) = true :=
    Run.exists_of_stepsIf twoCommits (by decide +kernel)
  obtain ⟨d, hd, hchan⟩ := Run.exists_of_stepsIf bothDelivered hnext
  obtain ⟨hcommit, happlied, -, hsorted⟩ := delivery_monotone hc 1 hd
  exact ⟨c, d, hc, hd, hchan, hcommit, happlied, hsorted⟩

/-- The reply of server 1 is lost. Meanwhile the service of server 0 has taken a snapshot of the
first command, and server 0 sends this snapshot to server 1. -/
def olderSnapshot : List (Label 3 ℕ ℕ) :=
  twoCommits ++ bothDelivered ++ [.lose 0, .act 0 (.beatRetry 0), .act 0 .deliver, .act 0 .deliver,
    .act 0 (.capture 7), .act 0 .takeSnapshot, .act 0 (.beat 0), .act 0 (.sendInstall 0)]

/-- Without the condition the snapshot moves `commitIndex` and `lastApplied` of server 1 from 3
back to 2, and the next request makes it deliver index 3 a second time, all in one
incarnation. -/
theorem entry_delivered_twice : ∃ c : Cluster 3 ℕ ℕ,
    Cluster.init.steps olderSnapshot = some c ∧
    (c.nodes 1).rf.commitIndex = 3 ∧ (c.nodes 1).rf.lastApplied = 3 ∧
    ((c.step (.recv 0 0)).map fun d =>
      ((d.nodes 1).rf.commitIndex, (d.nodes 1).rf.lastApplied)) = some (2, 2) ∧
    ((c.steps [.recv 0 0, .recv 0 0, .act 0 (.beat 0), .act 0 (.sendAppend 0), .recv 0 0]).map
      fun d => (commandIndexs (d.nodes 1).rf.applyChan, (d.nodes 1).past)) = some ([2, 3, 3], []) :=
  Cluster.exists_of_steps olderSnapshot (by decide +kernel)

end Mit6824
