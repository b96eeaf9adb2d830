import Mathlib.Data.List.Range
import Mit6824.Raft.Elections

set_option autoImplicit false

/-!
# The indexes of a log

In every run, whatever the order of its steps, the entries of a log have consecutive indexes that
start at the snapshot: the entry at position `k` has index `lastIncludedIndex + k`. Every section
keeps this when the entries of a request continue its previous index, and every request in
flight does.

## Main definitions

* `Mit6824.Consecutive` — consecutive indexes from a base on.
* `Mit6824.Raft.InSequence` — this for the log of a server; `Mit6824.SequentMsg` for a request.
* `Mit6824.Raft.Rooted`, `Mit6824.Raft.Shaped` — the log also starts with the sentinel of the
  snapshot.
* `Mit6824.Raft.Grown` — the log is as it was, or has one entry more.

## Main results

* `Mit6824.Raft.logAt_adopt`, `Mit6824.Raft.logAt_cut` — lookups after the two changes that
  `AppendEntries` makes to a log.
* `Mit6824.AllInSequence.of_run` — all logs and requests of a run are in sequence.
-/

namespace Mit6824

variable {n : ℕ} {Cmd Snap : Type}

/-- The entries have consecutive indexes from `base` on. -/
def Consecutive (base : ℕ) (l : List (LogEntry Cmd)) : Prop :=
  l.map LogEntry.logIndex = List.range' base l.length

namespace Consecutive

variable {base : ℕ} {l l' : List (LogEntry Cmd)}

/-- One entry. -/
lemma singleton {e : LogEntry Cmd} (h : e.logIndex = base) : Consecutive base [e] := by
  simp [Consecutive, h]

/-- Only indexes count. -/
lemma congr (h : Consecutive base l)
    (hi : l'.map LogEntry.logIndex = l.map LogEntry.logIndex) : Consecutive base l' := by
  have hlen : l'.length = l.length := by simpa using congrArg List.length hi
  unfold Consecutive
  rw [hi, hlen]
  exact h

/-- The first entries. -/
lemma take (h : Consecutive base l) (k : ℕ) : Consecutive base (l.take k) := by
  unfold Consecutive
  rw [List.map_take, h]
  exact List.ext_getElem (by simp) fun i h1 h2 => by simp

/-- The entries behind some position. -/
lemma drop (h : Consecutive base l) (k : ℕ) : Consecutive (base + k) (l.drop k) := by
  unfold Consecutive
  rw [List.map_drop, h, List.drop_range', List.length_drop]
  simp

/-- Entries that continue others. -/
lemma append (h : Consecutive base l) (h' : Consecutive (base + l.length) l') :
    Consecutive base (l ++ l') := by
  unfold Consecutive
  rw [List.map_append, h, h', List.length_append, List.range'_append_1]

/-- The indexes of the shorter one of two such lists are those at the start of the longer one. -/
lemma prefix_of_length_le (h : Consecutive base l) (h' : Consecutive base l')
    (hle : l.length ≤ l'.length) : l.map LogEntry.logIndex <+: l'.map LogEntry.logIndex := by
  refine ⟨List.range' (base + l.length) (l'.length - l.length), ?_⟩
  rw [h, h', List.range'_append_1, Nat.add_sub_cancel' hle]

/-- The index of the entry at a position. -/
lemma logIndex_of_getElem? (h : Consecutive base l) {k : ℕ} {e : LogEntry Cmd}
    (he : l[k]? = some e) : e.logIndex = base + k := by
  have hk : k < l.length := (List.getElem?_eq_some_iff.mp he).1
  have hmap : (l.map LogEntry.logIndex)[k]? = some e.logIndex := by simp [he]
  rw [h, List.getElem?_range' hk] at hmap
  simpa [eq_comm] using hmap

/-- The index of the last entry. -/
lemma logIndex_of_getLast? (h : Consecutive base l) {e : LogEntry Cmd}
    (he : l.getLast? = some e) : e.logIndex + 1 = base + l.length := by
  have hne : l ≠ [] := by rintro rfl; simp at he
  have hpos := List.length_pos_iff.mpr hne
  rw [List.getLast?_eq_getElem?] at he
  have := h.logIndex_of_getElem? he
  omega

end Consecutive

/-- Dropping the command of the sentinel leaves the indexes. -/
lemma Raft.map_logIndex_dropCommand (l : List (LogEntry Cmd)) :
    (Raft.dropCommand l).map LogEntry.logIndex = l.map LogEntry.logIndex := by
  cases l <;> rfl

/-- Marking the sentinel leaves the indexes. -/
lemma Raft.map_logIndex_markSentinel (l : List (LogEntry Cmd)) :
    (Raft.markSentinel l).map LogEntry.logIndex = l.map LogEntry.logIndex := by
  cases l <;> rfl

/-- Marking the sentinel leaves the terms. -/
lemma Raft.map_logTerm_markSentinel (l : List (LogEntry Cmd)) :
    (Raft.markSentinel l).map LogEntry.logTerm = l.map LogEntry.logTerm := by
  cases l <;> rfl

/-- `copy` into a slice of the same length. -/
lemma Raft.copyInto_length (l : List (LogEntry Cmd)) : Raft.copyInto l.length l = l := by
  simp [Raft.copyInto]

/-- The log has consecutive indexes from the snapshot on. -/
def Raft.InSequence (rf : Raft n Cmd Snap) : Prop := Consecutive rf.lastIncludedIndex rf.logs

/-- The log is in sequence and starts with an entry of the snapshot's term. -/
structure Raft.Rooted (rf : Raft n Cmd Snap) : Prop where
  index : rf.InSequence
  sentinel : ∃ e ∈ rf.logs.head?, e.logTerm = rf.lastIncludedTerm

/-- The first entry also has the command index of the snapshot. -/
structure Raft.Shaped (rf : Raft n Cmd Snap) : Prop extends rf.Rooted where
  command : ∀ e ∈ rf.logs.head?, e.commandIndex = rf.lastIncludedCmdIndex

/-- The entries of a request continue its previous index. -/
def SequentMsg : Msg n Cmd Snap → Prop
  | .appendEntries _ args => ∀ prev ∈ args.prevLogIndex, Consecutive (prev + 1) args.entries
  | _ => True

/-! ## Looking up entries -/

namespace Raft

variable {rf : Raft n Cmd Snap}

/-- A lookup subtracts the index of the snapshot. -/
lemma logAt_eq_some_iff {i : ℕ} {e : LogEntry Cmd} :
    rf.logAt i = some e ↔
      rf.lastIncludedIndex ≤ i ∧ rf.logs[i - rf.lastIncludedIndex]? = some e := by
  unfold logAt
  split_ifs with hlt
  · simp only [false_iff, not_and]
    omega
  · simp only [not_lt.mp hlt, true_and]

/-- An entry is found at the index of its position. -/
lemma logAt_of_getElem? {k : ℕ} {e : LogEntry Cmd} (he : rf.logs[k]? = some e) :
    rf.logAt (rf.lastIncludedIndex + k) = some e := by
  rw [logAt_eq_some_iff]
  exact ⟨Nat.le_add_right _ _, by rwa [Nat.add_sub_cancel_left]⟩

/-- The first entry is found at the index of the snapshot. -/
lemma logAt_base (rf : Raft n Cmd Snap) : rf.logAt rf.lastIncludedIndex = rf.logs.head? := by
  rw [logAt, if_neg (lt_irrefl _), Nat.sub_self, List.head?_eq_getElem?]

/-- A lookup depends on the log and the index of the snapshot. -/
lemma logAt_congr {rf' : Raft n Cmd Snap} (hlogs : rf'.logs = rf.logs)
    (hbase : rf'.lastIncludedIndex = rf.lastIncludedIndex) (i : ℕ) : rf'.logAt i = rf.logAt i := by
  rw [logAt, logAt, hlogs, hbase]

/-- The sentinel of a log with a root. -/
lemma Rooted.logAt_base (h : rf.Rooted) :
    ∃ e, rf.logAt rf.lastIncludedIndex = some e ∧ e.logTerm = rf.lastIncludedTerm := by
  obtain ⟨e, he, hterm⟩ := h.sentinel
  exact ⟨e, by rw [Raft.logAt_base]; exact he, hterm⟩

/-- The sentinel of a well-shaped log. -/
lemma Shaped.logAt_base (h : rf.Shaped) : ∃ e, rf.logAt rf.lastIncludedIndex = some e ∧
    e.logTerm = rf.lastIncludedTerm ∧ e.commandIndex = rf.lastIncludedCmdIndex := by
  obtain ⟨e, he, hterm⟩ := h.toRooted.logAt_base
  exact ⟨e, he, hterm, h.command e (by rwa [← Raft.logAt_base])⟩

/-- A log in sequence that starts with the sentinel of the snapshot. -/
lemma Shaped.of_logAt (hseq : rf.InSequence) {e : LogEntry Cmd}
    (he : rf.logAt rf.lastIncludedIndex = some e) (hterm : e.logTerm = rf.lastIncludedTerm)
    (hcmd : e.commandIndex = rf.lastIncludedCmdIndex) : rf.Shaped := by
  rw [Raft.logAt_base] at he
  refine ⟨⟨hseq, e, he, hterm⟩, fun a ha => ?_⟩
  obtain rfl : e = a := Option.some.inj (he.symm.trans ha)
  exact hcmd

/-- Up to the previous entry the log is the old one, behind it the sender's.

**Proof sketch.** Positions are shifted by the index of the snapshot, and the entries of the sender
begin one behind `prev`. -/
lemma logAt_adopt {ld : Raft n Cmd Snap} {prev : ℕ} (hlow : rf.lastIncludedIndex ≤ prev)
    (hpos : prev - rf.lastIncludedIndex < rf.logs.length) (hld : ld.lastIncludedIndex ≤ prev)
    (i : ℕ) : (rf.adopt (prev - rf.lastIncludedIndex)
      (ld.logs.drop (prev + 1 - ld.lastIncludedIndex))).logAt i =
        if i ≤ prev then rf.logAt i else ld.logAt i := by
  have hlen : (rf.logs.take (prev - rf.lastIncludedIndex + 1)).length =
      prev - rf.lastIncludedIndex + 1 := by
    rw [List.length_take]; omega
  show (if i < rf.lastIncludedIndex then none
    else (rf.logs.take (prev - rf.lastIncludedIndex + 1) ++
      ld.logs.drop (prev + 1 - ld.lastIncludedIndex))[i - rf.lastIncludedIndex]?) = _
  rcases Nat.lt_or_ge i rf.lastIncludedIndex with hi | hi
  · rw [if_pos hi, if_pos (by omega), logAt, if_pos hi]
  · rw [if_neg (by omega)]
    rcases Nat.lt_or_ge prev i with hle | hle
    · rw [if_neg (by omega), logAt, if_neg (by omega), List.getElem?_append_right (by omega), hlen,
        List.getElem?_drop]
      congr 1
      omega
    · rw [if_pos hle, logAt, if_neg (by omega), List.getElem?_append_left (by omega),
        List.getElem?_take_of_lt (by omega)]

/-- Cutting the log before `prev`. -/
lemma logAt_cut {prev : ℕ} {rf' : Raft n Cmd Snap} (hlow : rf.lastIncludedIndex ≤ prev)
    (hlogs : rf'.logs = rf.logs.take (prev - rf.lastIncludedIndex))
    (hbase : rf'.lastIncludedIndex = rf.lastIncludedIndex) (i : ℕ) :
    rf'.logAt i = if i < prev then rf.logAt i else none := by
  rw [logAt, logAt, hlogs, hbase]
  split_ifs with hi hlt hlt'
  · rfl
  · rfl
  · exact List.getElem?_take_of_lt (by omega)
  · rw [List.getElem?_eq_none (by rw [List.length_take]; omega)]

end Raft

/-! ## What most sections do to a log -/

/-- The snapshot is the old one; so is the log, or it has one entry more, with the next index. -/
structure Raft.Grown (rf rf' : Raft n Cmd Snap) : Prop where
  base : rf'.lastIncludedIndex = rf.lastIncludedIndex
  term : rf'.lastIncludedTerm = rf.lastIncludedTerm
  logs : rf'.logs = rf.logs ∨ ∃ last e, rf.getLastLog = some last ∧
    e.logIndex = last.logIndex + 1 ∧ rf'.logs = rf.logs ++ [e]

namespace Raft.Grown

/-- A section that leaves the log alone. -/
lemma of_same {rf rf' : Raft n Cmd Snap} (hlogs : rf'.logs = rf.logs)
    (hbase : rf'.lastIncludedIndex = rf.lastIncludedIndex)
    (hterm : rf'.lastIncludedTerm = rf.lastIncludedTerm) : rf.Grown rf' :=
  ⟨hbase, hterm, Or.inl hlogs⟩

variable (rf : Raft n Cmd Snap)

/-- Seeing a term. -/
lemma observe (t : ℕ) : rf.Grown (rf.observe t) :=
  of_same (logs_observe rf t) (lastIncludedIndex_observe rf t) (lastIncludedTerm_observe rf t)

/-- The end of `AppendEntries`. -/
lemma advanceCommit (leaderCommit : ℕ) (reply : AppendEntriesReply) :
    rf.Grown (rf.advanceCommit leaderCommit reply).state := by
  obtain ⟨ms, i, j, heq⟩ := advanceCommit_eq rf leaderCommit reply
  rw [heq]
  exact of_same rfl rfl rfl

/-- `Start` appends the command. -/
lemma start (command : Cmd) : rf.Grown (rf.start command).state := by
  obtain ⟨-, heq⟩ | ⟨-, heq⟩ | ⟨last, hlast, heq⟩ := start_cases rf command <;> rw [heq]
  · exact of_same rfl rfl rfl
  · exact of_same rfl rfl rfl
  · exact ⟨rfl, rfl, Or.inr ⟨last, _, hlast, rfl, rfl⟩⟩

/-- A new leader appends its first entry. -/
lemma becomeLeader : rf.Grown rf.becomeLeader.state := by
  obtain ⟨-, heq⟩ | ⟨last, hlast, heq⟩ := becomeLeader_cases rf <;> rw [heq]
  · exact of_same rfl rfl rfl
  · exact ⟨rfl, rfl, Or.inr ⟨last, _, hlast, rfl, rfl⟩⟩

/-- The start of an election. -/
lemma startElection : rf.Grown rf.startElection.state := by
  rw [state_startElection]
  split_ifs <;> exact of_same rfl rfl rfl

/-- The second section of `RequestVote`. -/
lemma requestVoteGrant (args : RequestVoteArgs n) : rf.Grown (rf.requestVoteGrant args).1 :=
  requestVoteGrant_rule args (of_same rfl rfl rfl) (of_same rfl rfl rfl)

/-- The first section of `RequestVote`. -/
lemma requestVoteCheck (args : RequestVoteArgs n) : rf.Grown (rf.requestVoteCheck args).state := by
  rcases requestVoteCheck_cases rf args with ⟨-, heq⟩ | ⟨last, -, heq⟩ <;> rw [heq] <;>
    exact observe rf _

/-- What a leader does with the reply to an `AppendEntries` request. -/
lemma appendReply (src : Fin n) (args : AppendEntriesArgs n Cmd) (reply : AppendEntriesReply) :
    rf.Grown (rf.appendReply src args reply).state := by
  rcases appendReply_eq rf src args reply with ⟨-, -, heq⟩ | ⟨-, l, ms, i, j, heq⟩ <;> rw [heq] <;>
    exact of_same rfl rfl rfl

/-- What a leader does with the reply to an `InstallSnapshot` request. -/
lemma installReply (src : Fin n) (args : InstallSnapshotArgs n Snap)
    (reply : InstallSnapshotReply) : rf.Grown (rf.installReply src args reply).state := by
  have hspec := installReply_spec rf src args reply
  generalize rf.installReply src args reply = o at hspec
  cases hspec <;> exact of_same rfl rfl rfl

end Raft.Grown

/-! ## Every section keeps the sequence -/

namespace Raft.InSequence

variable {rf rf' : Raft n Cmd Snap}

/-- Only the log and the index of the snapshot count. -/
lemma congr (h : rf.InSequence) (hlogs : rf'.logs = rf.logs)
    (hbase : rf'.lastIncludedIndex = rf.lastIncludedIndex) : rf'.InSequence := by
  unfold InSequence
  rw [hlogs, hbase]
  exact h

/-- The entry found at an index has this index. -/
lemma logIndex_of_logAt (h : rf.InSequence) {k : ℕ} {e : LogEntry Cmd}
    (he : rf.logAt k = some e) : e.logIndex = k := by
  unfold logAt at he
  split_ifs at he with hlt
  have := Consecutive.logIndex_of_getElem? h he
  omega

/-- An entry behind the last one. -/
lemma concat (h : rf.InSequence) {last e : LogEntry Cmd} (hlast : rf.getLastLog = some last)
    (hi : e.logIndex = last.logIndex + 1) : Consecutive rf.lastIncludedIndex (rf.logs ++ [e]) :=
  Consecutive.append h (.singleton (hi.trans (Consecutive.logIndex_of_getLast? h hlast)))

/-- Most sections leave the log as it is or append one entry. -/
lemma grown (h : rf.InSequence) (hg : rf.Grown rf') : rf'.InSequence := by
  unfold InSequence
  rw [hg.base]
  obtain hlogs | ⟨last, e, hlast, hi, hlogs⟩ := hg.logs <;> rw [hlogs]
  · exact h
  · exact h.concat hlast hi

/-- The entries above an index of the log. -/
lemma drop (h : rf.InSequence) {k : ℕ} (hk : rf.lastIncludedIndex ≤ k) :
    Consecutive k (rf.logs.drop (k - rf.lastIncludedIndex)) := by
  have hd := Consecutive.drop h (k - rf.lastIncludedIndex)
  rwa [Nat.add_sub_cancel' hk] at hd

/-- Compacting keeps the sequence. -/
lemma takeSnapshot (h : rf.InSequence) (snapshot : Option Snap) (k : ℕ) :
    (rf.takeSnapshot snapshot k).state.InSequence := by
  rcases takeSnapshot_cases rf snapshot k with ⟨-, heq⟩ | ⟨-, -, heq⟩ | ⟨e, hlt, -, heq⟩ <;>
    rw [heq]
  · exact h
  · exact h
  · exact (h.drop hlt.le).congr (map_logIndex_dropCommand _)

/-- `AppendEntries` keeps the sequence if the entries of the request continue its previous index. -/
lemma appendEntries (h : rf.InSequence) {args : AppendEntriesArgs n Cmd}
    (hm : ∀ prev ∈ args.prevLogIndex, Consecutive (prev + 1) args.entries) :
    (rf.appendEntries args).state.InSequence := by
  refine appendEntries_rule h (fun rf' k reply hs => hs.grown (.advanceCommit rf' k reply))
    (fun _ => h) ?_ fun _ _ _ _ _ _ _ => Consecutive.take h _
  · intro prev old _ hprev hlow hpos _
    refine Consecutive.append (Consecutive.take h _) ?_
    have hlt : prev - rf.lastIncludedIndex < rf.logs.length :=
      (List.getElem?_eq_some_iff.mp hpos).1
    have hbase : rf.lastIncludedIndex + (rf.logs.take (prev - rf.lastIncludedIndex + 1)).length
        = prev + 1 := by
      rw [List.length_take]; omega
    exact hbase ▸ hm prev hprev

/-- The slice that an installed snapshot keeps has room for just the entries that are copied. -/
lemma copyInto_eq (h : rf.InSequence) {last : LogEntry Cmd} (hlast : rf.getLastLog = some last)
    {k : ℕ} (hlow : rf.lastIncludedIndex ≤ k) (hk : k < last.logIndex) :
    copyInto (last.logIndex - k + 1) (rf.logs.drop (k - rf.lastIncludedIndex)) =
      rf.logs.drop (k - rf.lastIncludedIndex) := by
  have hlen := Consecutive.logIndex_of_getLast? h hlast
  have hroom : last.logIndex - k + 1 = (rf.logs.drop (k - rf.lastIncludedIndex)).length := by
    rw [List.length_drop]; omega
  rw [hroom, copyInto_length]

/-- `InstallSnapshot` keeps the sequence, whatever the request. -/
lemma installSnapshot (h : rf.InSequence) (args : InstallSnapshotArgs n Snap) :
    (rf.installSnapshot args).state.InSequence := by
  refine installSnapshot_rule h (h.grown (.observe rf args.term)) fun logs hlt hlogs => ?_
  suffices hs : Consecutive args.lastIncludedIndex logs from hs
  obtain ⟨last, hlast, ⟨-, rfl⟩ | ⟨e, hlt', -, ⟨-, rfl⟩ | ⟨-, rfl⟩⟩⟩ :=
    logsAfterInstall_cases hlogs
  · exact .singleton rfl
  · exact .singleton rfl
  · rw [h.copyInto_eq hlast hlt.le hlt']
    exact (h.drop hlt.le).congr (map_logIndex_markSentinel _)

/-- A restart finds the log in sequence, or puts a sentinel into an empty one. -/
lemma make (h : rf.InSequence) (hs : rf.Saved) : (Raft.make rf.me rf.persister).InSequence := by
  have hadd : rf.addSentinel.InSequence := by
    unfold Raft.addSentinel
    split_ifs
    · exact Consecutive.singleton rfl
    · exact h
  have hlogs := congrArg RaftState.logs hs
  have hbase := congrArg RaftState.lastIncludedIndex hs
  exact hadd.congr hlogs hbase

end Raft.InSequence

/-- The critical section of an input keeps the sequence. -/
lemma Section.inSequence {nd : Node n Cmd Snap} {inp : Input n Cmd Snap} {rf : Raft n Cmd Snap}
    (hsec : Section nd inp rf) (h : nd.rf.InSequence)
    (hmsg : ∀ m g, inp = .recv m g → SequentMsg m) : rf.InSequence := by
  cases hsec with
  | none => exact h
  | startElection => exact h.grown (.startElection _)
  | stepDown => exact h
  | grantVote => exact h.grown (.requestVoteGrant _ _)
  | start => exact h.grown (.start _ _)
  | takeSnapshot => exact h.takeSnapshot _ _
  | requestVote => exact h.grown (.requestVoteCheck _ _)
  | becomeLeader => exact h.grown (.becomeLeader _)
  | appendEntries dst args g => exact h.appendEntries (hmsg _ g rfl)
  | appendReply => exact h.grown (.appendReply _ _ _ _)
  | installSnapshot => exact h.installSnapshot _
  | installReply => exact h.grown (.installReply _ _ _ _)

/-- What a server in sequence sends is in sequence.

**Proof sketch.** Only `AppendEntries` carries entries. They are the log from the next index on,
which is one behind the previous entry. -/
lemma Sent.sequentMsg {nd nd' : Node n Cmd Snap} {m : Msg n Cmd Snap} (hm : Sent nd nd' m)
    (h : nd.rf.InSequence) : SequentMsg m := by
  cases hm with
  | append bt hb args hbuild =>
    obtain ⟨-, last, l, -, -, ⟨-, rfl⟩ | ⟨prev, hlow, -, hprev, rfl⟩⟩ :=
      Raft.buildAppend_eq_some hbuild
    · simp [SequentMsg]
    · intro p hp
      obtain rfl : prev.logIndex = p := by simpa using hp
      have hidx := Consecutive.logIndex_of_getElem? h hprev
      have hnext : prev.logIndex + 1 = l.nextIndexs bt.peer := by omega
      rw [hnext]
      exact h.drop hlow.le
  | _ => trivial

/-! ## Runs -/

/-- All logs and all requests in flight are in sequence. -/
structure AllInSequence (c : Cluster n Cmd Snap) : Prop where
  saved : ∀ i, (c.nodes i).rf.Saved
  nodes : ∀ i, (c.nodes i).rf.InSequence
  net : ∀ m ∈ c.net, SequentMsg m

/-- The logs of new servers are in sequence. -/
lemma AllInSequence.init : AllInSequence (Cluster.init : Cluster n Cmd Snap) where
  saved i := Raft.saved_make i {}
  nodes i := Consecutive.singleton rfl
  net := by simp [Cluster.init]

/-- The loss of messages keeps the logs and requests in sequence. -/
lemma AllInSequence.lose {c d : Cluster n Cmd Snap} (h : AllInSequence c) (hn : d.nodes = c.nodes)
    (hnet : d.net ⊆ c.net) : AllInSequence d :=
  ⟨fun i => by rw [hn]; exact h.saved i, fun i => by rw [hn]; exact h.nodes i,
    fun m hm => h.net m (hnet hm)⟩

variable [DecidableEq Cmd] [DecidableEq Snap] {c : Cluster n Cmd Snap}

/-- One step keeps the logs and requests in sequence.

**Proof sketch.** The section of the input keeps the log in sequence, since the request is. A panic
restarts the server with what it saved, which is in sequence too. What is sent is part of the log.
-/
lemma AllInSequence.after {i : Fin n} {inp : Input n Cmd Snap} {o : NodeOutcome n Cmd Snap}
    (h : AllInSequence c) (hdel : c.Deliverable i inp) (ho : (c.nodes i).exec inp = some o) :
    AllInSequence (c.after i o) := by
  have hh := Node.exec_handled ho
  have hsaved : (Node.finish o).node.rf.Saved :=
    hh.rf_of (fun rf hsec => hsec.saved (h.saved i)) fun _ _ _ => Raft.saved_make _ _
  have hseq : (Node.finish o).node.rf.InSequence :=
    hh.rf_of (fun rf hsec => hsec.inSequence (h.nodes i) fun m g hm => h.net m (hdel m g hm).1)
      fun rf hsec hseq => hseq.make (hsec.saved (h.saved i))
  refine ⟨Cluster.forall_nodes_after (P := fun _ nd => nd.rf.Saved) hsaved fun k _ => h.saved k,
    Cluster.forall_nodes_after (P := fun _ nd => nd.rf.InSequence) hseq fun k _ => h.nodes k,
    fun m hm => ?_⟩
  rcases Cluster.mem_net_after hm with hm | hm
  · exact h.net m hm
  · exact (hh.sent m hm).sequentMsg (h.nodes i)

/-- A step of the cluster keeps the logs and requests in sequence. -/
lemma AllInSequence.step {d : Cluster n Cmd Snap} {l : Label n Cmd Snap} (h : AllInSequence c)
    (hstep : c.step l = some d) : AllInSequence d := by
  rcases Cluster.step_cases hstep with ⟨hn, hnet⟩ | ⟨i, inp, c', o, -, hdel, ho, hn, hnet⟩
  · exact h.lose hn hnet
  · exact (h.after hdel ho).lose hn hnet

/-- **Logs are in sequence** in every state of every run. -/
theorem AllInSequence.of_run {P : Node n Cmd Snap → Input n Cmd Snap → Prop}
    (h : Run P Cluster.init c) : AllInSequence c :=
  (run_iff_reach.mp h).invariant AllInSequence.init fun _ _ _ _ hc _ hstep => hc.step hstep

end Mit6824
