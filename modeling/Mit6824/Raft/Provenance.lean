import Mit6824.Raft.Shape

set_option autoImplicit false

/-!
# Where the entries of a log come from

An entry that is not internal enters the system when a leader appends it in `Start`; from there it
is copied by `AppendEntries` and kept by the snapshots. A property that holds of every entry when
`Start` appends it therefore holds of every such entry behind a sentinel, and of every entry on its
way.

## Main definitions

* `Mit6824.Raft.EntriesMeet`, `Mit6824.MsgMeets` — the entries of clients in a log or in a request.
* `Mit6824.Cluster.EntriesMeet` — all of them.

## Main results

* `Mit6824.Cluster.EntriesMeet.after` — one input keeps the property, if `Start` does.
-/

namespace Mit6824

variable {n : ℕ} {Cmd Snap : Type} {Q Q' : LogEntry Cmd → Prop}

/-- The entries of clients in the log meet `Q`. The first entry of a log stands for the snapshot. -/
def Raft.EntriesMeet (Q : LogEntry Cmd → Prop) (rf : Raft n Cmd Snap) : Prop :=
  ∀ e ∈ rf.logs.tail, e.isInternalLog = false → Q e

/-- The entries of clients in a request meet `Q`. -/
def MsgMeets (Q : LogEntry Cmd → Prop) : Msg n Cmd Snap → Prop
  | .appendEntries _ args => ∀ e ∈ args.entries, e.isInternalLog = false → Q e
  | _ => True

/-- Cutting a log leaves no new entries. -/
lemma tail_take_subset {A : Type} (l : List A) (k : ℕ) : (l.take k).tail ⊆ l.tail := by
  cases l with
  | nil => simp
  | cons a l =>
    cases k with
    | zero => simp
    | succ k => exact List.take_subset k l

namespace Raft.EntriesMeet

variable {rf rf' : Raft n Cmd Snap}

/-- Entries that meet a condition meet a weaker one. -/
lemma mono (h : rf.EntriesMeet Q) (hQ : ∀ e, Q e → Q' e) : rf.EntriesMeet Q' :=
  fun e he hint => hQ e (h e he hint)

/-- A log without new entries. -/
lemma of_subset (h : rf.EntriesMeet Q) (hsub : rf'.logs.tail ⊆ rf.logs.tail) :
    rf'.EntriesMeet Q :=
  fun e he => h e (hsub he)

/-- Only the log counts. -/
lemma congr (h : rf.EntriesMeet Q) (hlogs : rf'.logs = rf.logs) : rf'.EntriesMeet Q :=
  h.of_subset (by rw [hlogs]; exact List.Subset.refl _)

/-- Entries put behind a part of the log. -/
lemma append (h : rf.EntriesMeet Q) {k : ℕ} {es : List (LogEntry Cmd)}
    (hes : ∀ e ∈ es, e.isInternalLog = false → Q e) (hlogs : rf'.logs = rf.logs.take k ++ es) :
    rf'.EntriesMeet Q := by
  intro e he
  rw [hlogs] at he
  rcases hl : rf.logs.take k with _ | ⟨first, rest⟩
  · rw [hl] at he
    exact hes e (List.mem_of_mem_tail he)
  · rw [hl, List.cons_append, List.tail_cons] at he
    rcases List.mem_append.mp he with he | he
    · exact h e (tail_take_subset rf.logs k (by rw [hl]; exact he))
    · exact hes e he

/-- One entry more. -/
lemma concat (h : rf.EntriesMeet Q) {e : LogEntry Cmd} (he : e.isInternalLog = false → Q e)
    (hlogs : rf'.logs = rf.logs ++ [e]) : rf'.EntriesMeet Q := by
  have hlogs' : rf'.logs = rf.logs.take rf.logs.length ++ [e] := by simpa using hlogs
  refine h.append (fun a ha => ?_) hlogs'
  obtain rfl := List.mem_singleton.mp ha
  exact he

/-- The entries from a position on. -/
lemma drop (h : rf.EntriesMeet Q) (k : ℕ) (hlogs : rf'.logs.tail = (rf.logs.drop k).tail) :
    rf'.EntriesMeet Q := by
  refine h.of_subset ?_
  rw [hlogs, List.tail_drop]
  exact fun e he => List.mem_of_mem_drop (show e ∈ rf.logs.tail.drop k by
    rwa [← List.drop_one, List.drop_drop, Nat.add_comm])

/-- Committing leaves the log. -/
lemma advanceCommit (h : rf.EntriesMeet Q) (leaderCommit : ℕ) (reply : AppendEntriesReply) :
    (rf.advanceCommit leaderCommit reply).state.EntriesMeet Q := by
  obtain ⟨ms, i, j, heq⟩ := advanceCommit_eq rf leaderCommit reply
  exact h.congr (by rw [heq])

/-- The new entries of a follower are those of the request. -/
lemma appendEntries (h : rf.EntriesMeet Q) {args : AppendEntriesArgs n Cmd}
    (hargs : ∀ e ∈ args.entries, e.isInternalLog = false → Q e) :
    (rf.appendEntries args).state.EntriesMeet Q := by
  refine appendEntries_rule h (fun _ k reply hs => hs.advanceCommit k reply)
    (fun _ => h.congr rfl) (fun prev _ _ _ _ _ _ => ?_) (fun prev _ _ _ _ _ _ => ?_)
  · exact h.append hargs rfl
  · exact h.of_subset (tail_take_subset rf.logs _)

/-- A snapshot brings no client entries. -/
lemma installSnapshot (h : rf.EntriesMeet Q) (hseq : rf.InSequence)
    (args : InstallSnapshotArgs n Snap) : (rf.installSnapshot args).state.EntriesMeet Q := by
  refine installSnapshot_rule h (h.congr (logs_observe rf args.term)) fun logs hlt hlogs => ?_
  obtain ⟨last, hlast, ⟨-, rfl⟩ | ⟨e, hlt', -, ⟨-, rfl⟩ | ⟨-, rfl⟩⟩⟩ :=
    logsAfterInstall_cases hlogs
  · exact h.of_subset (List.nil_subset _)
  · exact h.of_subset (List.nil_subset _)
  · refine h.drop (args.lastIncludedIndex - rf.lastIncludedIndex) ?_
    rw [hseq.copyInto_eq hlast hlt.le hlt']
    change (markSentinel _).tail = _
    cases rf.logs.drop (args.lastIncludedIndex - rf.lastIncludedIndex) <;> rfl

/-- Compacting brings no client entries. -/
lemma takeSnapshot (h : rf.EntriesMeet Q) (snapshot : Option Snap) (k : ℕ) :
    (rf.takeSnapshot snapshot k).state.EntriesMeet Q := by
  obtain ⟨-, heq⟩ | ⟨-, -, heq⟩ | ⟨e, -, -, heq⟩ := takeSnapshot_cases rf snapshot k <;> rw [heq]
  · exact h
  · exact h
  · refine h.drop (k - rf.lastIncludedIndex) ?_
    change (dropCommand _).tail = _
    cases rf.logs.drop (k - rf.lastIncludedIndex) <;> rfl

/-- The first entry of a leader is internal. -/
lemma becomeLeader (h : rf.EntriesMeet Q) : rf.becomeLeader.state.EntriesMeet Q := by
  obtain ⟨-, heq⟩ | ⟨last, -, heq⟩ := becomeLeader_cases rf <;> rw [heq]
  · exact h
  · exact h.concat (fun hint => by simp at hint) rfl

/-- The new entry of a leader is that of the command. -/
lemma start (h : rf.EntriesMeet Q) {command : Cmd}
    (hnew : ∀ last, rf.role = .leader → rf.getLastLog = some last → Q ⟨rf.currentTerm,
      last.logIndex + 1, some command, last.commandIndex + 1, false⟩) :
    (rf.start command).state.EntriesMeet Q := by
  by_cases hrole : rf.role = .leader
  · obtain ⟨-, heq⟩ | ⟨-, heq⟩ | ⟨last, hlast, heq⟩ := start_cases rf command <;> rw [heq]
    · exact h
    · exact h
    · exact h.concat (fun _ => hnew last hrole hlast) rfl
  · rw [Raft.start, if_pos hrole]
    exact h

/-- A restart finds the log as it was. -/
lemma make (h : rf.EntriesMeet Q) (hs : rf.Saved) :
    (Raft.make rf.me rf.persister).EntriesMeet Q := by
  have hlogs : (Raft.make rf.me rf.persister).logs = rf.addSentinel.logs :=
    congrArg RaftState.logs hs
  refine h.of_subset ?_
  rw [hlogs]
  unfold Raft.addSentinel
  split_ifs
  · exact List.nil_subset _
  · exact List.Subset.refl _

end Raft.EntriesMeet

/-- The critical section of an input adds no other entries than those of its request and the one of
its call of `Start`.

**Proof sketch.** By the section. Only `Start`, `becomeLeader` and `AppendEntries` add entries; a
snapshot leaves some of the entries. -/
lemma Section.entriesMeet {nd : Node n Cmd Snap} {inp : Input n Cmd Snap} {rf : Raft n Cmd Snap}
    (hsec : Section nd inp rf) (h : nd.rf.EntriesMeet Q) (hseq : nd.rf.InSequence)
    (hmsg : ∀ m g, inp = .recv m g → MsgMeets Q m)
    (hstart : ∀ command last, inp = .act (.start command) → nd.rf.role = .leader →
      nd.rf.getLastLog = some last →
      Q ⟨nd.rf.currentTerm, last.logIndex + 1, some command, last.commandIndex + 1, false⟩) :
    rf.EntriesMeet Q := by
  cases hsec with
  | none => exact h
  | startElection =>
    refine h.congr ?_
    rw [Raft.state_startElection]
    split_ifs <;> rfl
  | stepDown => exact h.congr rfl
  | grantVote => exact Raft.requestVoteGrant_rule _ h (h.congr rfl)
  | start command => exact h.start fun last => hstart command last rfl
  | takeSnapshot => exact h.takeSnapshot _ _
  | requestVote dst args =>
    obtain ⟨-, heq⟩ | ⟨last, -, heq⟩ := Raft.requestVoteCheck_cases nd.rf args <;> rw [heq] <;>
      exact h.congr (Raft.logs_observe _ _)
  | becomeLeader => exact h.becomeLeader
  | appendEntries dst args g => exact h.appendEntries (hmsg _ g rfl)
  | appendReply src args reply =>
    rcases Raft.appendReply_eq nd.rf src args reply with ⟨-, -, heq⟩ | ⟨-, l, ms, i, j, heq⟩ <;>
      rw [heq] <;> exact h.congr rfl
  | installSnapshot => exact h.installSnapshot hseq _
  | installReply src args reply =>
    have hspec := Raft.installReply_spec nd.rf src args reply
    generalize nd.rf.installReply src args reply = o at hspec
    cases hspec <;> exact h.congr rfl

/-- What a server sends comes from its log.

**Proof sketch.** The entries of a request lie behind the sentinel of the log. -/
lemma Sent.msgMeets {nd nd' : Node n Cmd Snap} {m : Msg n Cmd Snap} (hm : Sent nd nd' m)
    (h : nd.rf.EntriesMeet Q) : MsgMeets Q m := by
  cases hm with
  | append bt hb args hbuild =>
    obtain ⟨-, last, l, -, -, ⟨-, rfl⟩ | ⟨prev, hlow, -, -, rfl⟩⟩ :=
      Raft.buildAppend_eq_some hbuild
    · simp [MsgMeets]
    · intro e he
      obtain ⟨k, hk⟩ : ∃ k, l.nextIndexs bt.peer - nd.rf.lastIncludedIndex = k + 1 :=
        ⟨l.nextIndexs bt.peer - nd.rf.lastIncludedIndex - 1, by omega⟩
      rw [hk, Nat.add_comm, ← List.drop_drop, List.drop_one] at he
      exact h e (List.mem_of_mem_drop he)
  | _ => trivial

/-! ## Clusters -/

/-- The entries of clients in all logs and in all requests in flight meet `Q`. -/
structure Cluster.EntriesMeet (Q : LogEntry Cmd → Prop) (c : Cluster n Cmd Snap) : Prop where
  nodes : ∀ i, (c.nodes i).rf.EntriesMeet Q
  net : ∀ m ∈ c.net, MsgMeets Q m

namespace Cluster.EntriesMeet

variable {c d : Cluster n Cmd Snap}

/-- There are no client entries at the start. -/
lemma init : (Cluster.init : Cluster n Cmd Snap).EntriesMeet Q :=
  ⟨fun _ _ he => (List.not_mem_nil he).elim, by simp [Cluster.init]⟩

/-- Entries that meet a condition meet a weaker one. -/
lemma mono (h : c.EntriesMeet Q) (hQ : ∀ e, Q e → Q' e) : c.EntriesMeet Q' := by
  refine ⟨fun i => (h.nodes i).mono hQ, fun m hm => ?_⟩
  have hmeets := h.net m hm
  cases m with
  | appendEntries dst args => exact fun e he hint => hQ e (hmeets e he hint)
  | _ => trivial

/-- The loss of messages brings no entries. -/
lemma lose (h : c.EntriesMeet Q) (hn : d.nodes = c.nodes) (hnet : d.net ⊆ c.net) :
    d.EntriesMeet Q :=
  ⟨fun i => by rw [hn]; exact h.nodes i, fun m hm => h.net m (hnet hm)⟩

variable [DecidableEq Cmd] [DecidableEq Snap]

/-- **One input adds no entry of a client** but the one of its call of `Start`.

**Proof sketch.** The section of the input adds nothing else, a restart finds what was saved, and
what is sent comes from the log. -/
theorem after {i : Fin n} {inp : Input n Cmd Snap} {o : NodeOutcome n Cmd Snap}
    (h : c.EntriesMeet Q) (hseq : AllInSequence c) (hdel : c.Deliverable i inp)
    (ho : (c.nodes i).exec inp = some o)
    (hstart : ∀ command last, inp = .act (.start command) → (c.nodes i).rf.role = .leader →
      (c.nodes i).rf.getLastLog = some last → Q ⟨(c.nodes i).rf.currentTerm, last.logIndex + 1,
        some command, last.commandIndex + 1, false⟩) : (c.after i o).EntriesMeet Q := by
  have hh := Node.exec_handled ho
  have hrf : (Node.finish o).node.rf.EntriesMeet Q :=
    hh.rf_of (P := fun rf => rf.EntriesMeet Q)
      (fun rf hsec => hsec.entriesMeet (h.nodes i) (hseq.nodes i)
        (fun m g hm => h.net m (hdel m g hm).1) hstart)
      fun rf hsec hrf => hrf.make (hsec.saved (hseq.saved i))
  refine ⟨Cluster.forall_nodes_after (P := fun _ nd => nd.rf.EntriesMeet Q) hrf
    fun k _ => h.nodes k, fun m hm => ?_⟩
  rcases Cluster.mem_net_after hm with hm | hm
  · exact h.net m hm
  · exact (hh.sent m hm).msgMeets (h.nodes i)

end Cluster.EntriesMeet

end Mit6824
