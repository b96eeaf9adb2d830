import Mit6824.Raft.Safety
import Mit6824.Raft.Encoding

set_option autoImplicit false

/-!
# Safety over the shared memory

Terms, commands, replication counts and indexes when requests share the log until they are encoded.
With fresh steps, and if no entry that is still to be encoded is overwritten, the results about runs
with copies hold. Without the latter none of them does: a leader of an old term whose log is
overwritten while its request is being encoded sends a mixture of two logs.

## Main results

* `Mit6824.terms_only_grow` — terms only grow.
* `Mit6824.state_machine_safety` — no two servers send different commands for one index.
* `Mit6824.matchIndexs_backed` — recorded and counted replicas hold the leader's entries.
* `Mit6824.log_access_in_range` — the order of the three indexes, and no access outside the log.
-/

namespace Mit6824

/-! ## A request that is a mixture of two logs -/

/-- Steps without a new array that needs room. -/
def inPlace {n : ℕ} {Cmd Snap : Type} (ls : List (Label n Cmd Snap)) :
    List (SharedEvent (Label n Cmd Snap)) := ls.map (.run · 0)

/-- Server 0 leads term 1 and starts the commands 10 and 11; the array of its log has four cells
then. It makes a request for server 1 with its three entries, of which two are encoded. -/
def halfEncoded : List (SharedEvent (Label 5 ℕ ℕ)) :=
  inPlace [.act 0 .startElection, .act 0 (.askVote 0 3), .act 0 (.askVote 0 4), .recv 0 0,
      .act 3 (.grantVote 0), .recv 0 0, .act 4 (.grantVote 0), .recv 0 0, .recv 0 0] ++
    .run (.act 0 (.start 10)) 1 ::
    inPlace [.act 0 (.start 11), .act 0 (.beat 0), .act 0 (.sendAppend 0)] ++
    [.encode 0, .encode 0]

/-- Server 2 leads term 2. It commits the command 20 with servers 3 and 0, tells server 3, and sends
the command 21 to server 0, which overwrites its third entry. The request of server 0 is encoded to
its end and delivered to server 1. -/
def overwritten : List (SharedEvent (Label 5 ℕ ℕ)) :=
  inPlace [.act 2 .startElection, .act 2 .startElection, .act 2 (.askVote 1 3),
      .act 2 (.askVote 1 4), .recv 1 0, .act 3 (.grantVote 0), .recv 1 0, .act 4 (.grantVote 0),
      .recv 1 1, .recv 1 1, .act 2 (.start 20), .act 2 (.beat 2), .act 2 (.sendAppend 2)] ++
    .encode 1 :: .encode 1 ::
    inPlace [.recv 1 0, .recv 1 2, .act 2 (.beat 0), .act 2 (.sendAppend 0)] ++
    .encode 1 :: .encode 1 ::
    inPlace [.recv 1 0, .recv 1 0, .act 2 (.beat 2), .act 2 (.sendAppend 2), .recv 1 0,
      .recv 1 2, .act 2 (.start 21), .act 2 (.beat 0), .act 2 (.sendAppend 0)] ++
    .encode 1 :: inPlace [.recv 1 0, .recv 1 0] ++
    .encode 0 :: inPlace [.recv 0 0, .lose 0]

/-- Server 1 leads term 3 with this mixture. Server 0 accepts its new entry, server 4 its whole log,
which is committed; and server 3 finds a conflict at the entry it knows to be committed. -/
def mixtureLeads : List (SharedEvent (Label 5 ℕ ℕ)) :=
  inPlace [.act 1 .startElection, .act 1 .startElection, .act 1 (.askVote 1 3),
      .act 1 (.askVote 1 4), .recv 0 0, .act 3 (.grantVote 0), .recv 0 0, .act 4 (.grantVote 0),
      .recv 0 1, .recv 0 1, .act 1 (.beat 0), .act 1 (.sendAppend 0)] ++
    .encode 0 :: inPlace [.recv 0 0, .recv 0 0, .act 1 (.beat 3), .act 1 (.sendAppend 3)] ++
    .encode 0 :: inPlace [.recv 0 0, .recv 0 3, .act 1 (.beat 3), .act 1 (.sendAppend 3)] ++
    .encode 0 :: .encode 0 :: .encode 0 :: .encode 0 ::
    inPlace [.recv 0 0, .recv 0 3, .act 1 (.beat 2), .act 1 (.sendAppend 2)] ++
    .encode 0 :: inPlace [.recv 0 0, .recv 0 2, .act 1 (.beat 2), .act 1 (.sendAppend 2)] ++
    .encode 0 :: .encode 0 :: inPlace [.recv 0 0]

/-- Runs of new servers over the shared memory in which entries may be overwritten before they are
encoded. -/
def MixedRun (P : Node 5 ℕ ℕ → Input 5 ℕ ℕ → Prop) : Shared 5 ℕ (Cluster 5 ℕ ℕ) → Prop :=
  Transition.Reach Cluster.host.sharedStep (Cluster.host.Meets (StepMeets P)) (.init fun _ => 0)

/-- The log of server 1 is the mixture. -/
lemma exists_mixture : ∃ x, MixedRun (fun nd inp => TermFresh nd inp) x ∧
    (x.state.nodes 1).rf.currentTerm = 1 ∧
    (x.state.nodes 1).rf.logs.map LogEntry.logTerm = [0, 1, 1, 2] :=
  Transition.Reach.exists_of_stepsIf (halfEncoded ++ overwritten) (by decide +kernel)

/-- In this run everything is fresh, and still a committed entry is lost. -/
lemma exists_mixtureLeads : ∃ x,
    MixedRun (fun nd inp => ElectionFresh nd inp ∧ LogFresh nd inp ∧ SnapFresh nd inp) x ∧
    ((∃ m ∈ (x.state.nodes 1).applied, m.commandValid = true ∧ m.logIndex = 2 ∧
        m.command = some 10) ∧
      ∃ m ∈ (x.state.nodes 2).applied, m.commandValid = true ∧ m.logIndex = 2 ∧
        m.command = some 20) ∧
    ((x.state.nodes 1).rf.role = .leader ∧
      (∃ ld ∈ (x.state.nodes 1).rf.leaderPtr, ld.matchIndexs 0 = 4) ∧
      (x.state.nodes 0).rf.currentTerm ≤ (x.state.nodes 1).rf.currentTerm ∧
      ¬ x.state.Shares 1 0 2) ∧
    ∃ last ∈ (x.state.nodes 3).rf.getLastLog, last.logIndex < (x.state.nodes 3).rf.commitIndex :=
  Transition.Reach.exists_of_stepsIf (halfEncoded ++ overwritten ++ mixtureLeads)
    (by decide +kernel)

variable {n : ℕ} {Cmd Snap : Type} [DecidableEq Cmd] [DecidableEq Snap] {spare : Fin n → ℕ}
  {x y : Shared n Cmd (Cluster n Cmd Snap)}

/-! ## Terms -/

/-- **Terms only grow.** When no reply makes a server a follower in an old term, and no entry is
overwritten before it is encoded, `currentTerm` never decreases along a run, in memory or as
restored from the persister, and the terms along every log do not decrease and are at most
`currentTerm`.

**Proof sketch.** When nothing is overwritten too early, a run over the shared memory is a run with
copies (`Host.reach_of_shared`), and there terms grow. -/
theorem terms_only_grow (h : SharedRun (fun nd inp => TermFresh nd inp) (.init spare) x)
    (h' : SharedRun (fun nd inp => TermFresh nd inp) x y) (i : Fin n) :
    (x.state.nodes i).rf.currentTerm ≤ (y.state.nodes i).rf.currentTerm ∧
    (Raft.make i (x.state.nodes i).rf.persister).currentTerm ≤
      (Raft.make i (y.state.nodes i).rf.persister).currentTerm ∧
    ((y.state.nodes i).rf.logs.map LogEntry.logTerm).Pairwise (· ≤ ·) ∧
    ∀ e ∈ (y.state.nodes i).rf.logs, e.logTerm ≤ (y.state.nodes i).rf.currentTerm := by
  obtain ⟨hx, hrun⟩ := h.run
  exact hrun.terms_grow (run_iff_reach.mpr (Host.reach_of_shared hx h').2) i

/-- Server 0 enters term 1, wins it and appends its first entry. -/
theorem terms_only_grow_first : ∃ y : Shared 3 ℕ (Cluster 3 ℕ ℕ),
    SharedRun (fun nd inp => TermFresh nd inp) (.init fun _ => 0) y ∧
    (y.state.nodes 0).rf.currentTerm = 1 ∧ (y.state.nodes 0).rf.logs.length = 2 ∧
    ∀ e ∈ (y.state.nodes 0).rf.logs, e.logTerm ≤ 1 := by
  obtain ⟨d, hrun, hterm, hlen⟩ : ∃ d : Cluster 3 ℕ ℕ,
      Run (fun nd inp => TermFresh nd inp) .init d ∧ (d.nodes 0).rf.currentTerm = 1 ∧
      (d.nodes 0).rf.logs.length = 2 :=
    Run.exists_of_stepsIf (splitVote.take 8) (by decide +kernel)
  obtain ⟨mem, hmem⟩ := hrun.exists_shared fun _ => 0
  obtain ⟨-, -, -, hle⟩ := terms_only_grow .refl hmem 0
  exact ⟨⟨d, mem⟩, hmem, hterm, hlen, hterm ▸ hle⟩

/-- Server 0 asks server 1 for its vote in term 1 and reads in the refusal that server 1 is in
term 2. Before it takes the lock, a request of server 2 moves it to term 3. -/
def staleRefusal : List (Label 3 ℕ ℕ) :=
  [.act 0 .startElection, .act 0 (.askVote 0 1), .act 1 .startElection, .act 1 .startElection,
    .recv 0 0, .recv 0 0, .act 2 .startElection, .act 2 .startElection, .act 2 .startElection,
    .act 2 (.askVote 2 0), .recv 0 0]

/-- Without the condition on replies a server goes back from term 3 to term 2; and without the one
on the memory a server of term 1 has an entry of term 2. -/
theorem term_lowered_by_stale_reply :
    (∃ c : Cluster 3 ℕ ℕ, Cluster.init.steps staleRefusal = some c ∧
      (∃ mem, SharedRun (fun _ _ => True) (.init fun _ => 0) ⟨c, mem⟩) ∧
      (c.nodes 0).rf.currentTerm = 3 ∧
      ((c.step (.act 0 (.stepDown 0))).map fun d => (d.nodes 0).rf.currentTerm) = some 2) ∧
    ∃ x, MixedRun (fun nd inp => TermFresh nd inp) x ∧ (x.state.nodes 1).rf.currentTerm = 1 ∧
      (x.state.nodes 1).rf.logs.map LogEntry.logTerm = [0, 1, 1, 2] :=
  ⟨Cluster.exists_shared_of_steps staleRefusal (by decide +kernel) _, exists_mixture⟩

/-! ## State machine safety -/

/-- **State machine safety.** For an odd number of servers, when elections, requests and snapshots
are fresh and no entry is overwritten before it is encoded, no two servers ever send on their apply
channels two commands with the same log index, or the same command index, that differ.

**Proof sketch.** A run over the shared memory is a run with copies, and such a run refines the
replicated log: what is sent on an apply channel is committed, and of two committed prefixes one is
a prefix of the other. -/
theorem state_machine_safety (hn : Odd n)
    (h : SharedRun (fun nd inp => ElectionFresh nd inp ∧ LogFresh nd inp ∧ SnapFresh nd inp)
      (.init spare) x) {i j : Fin n} {m m' : ApplyMsg Cmd Snap}
    (hm : m ∈ (x.state.nodes i).applied) (hm' : m' ∈ (x.state.nodes j).applied)
    (hv : m.commandValid = true) (hv' : m'.commandValid = true)
    (heq : m.logIndex = m'.logIndex ∨ m.commandIndex = m'.commandIndex) :
    m.command = m'.command :=
  h.run.2.command_eq hn hm hm' hv hv' heq

/-- Server 0 is elected, commits the command 10 with the help of server 1, and tells it so. -/
def firstCommit : List (Label 3 ℕ ℕ) :=
  [.act 0 .startElection, .act 0 (.askVote 0 1), .recv 0 0, .act 1 (.grantVote 0), .recv 0 0,
    .act 0 (.start 10), .act 0 (.beat 0), .act 0 (.sendAppend 0), .recv 0 0, .recv 0 0,
    .act 0 (.beat 0), .act 0 (.sendAppend 0), .recv 0 0]

/-- Servers 0 and 1 have both sent the entry of index 2, and it is the same command. -/
theorem state_machine_safety_first :
    ∃ (x : Shared 3 ℕ (Cluster 3 ℕ ℕ)) (m m' : ApplyMsg ℕ ℕ),
    SharedRun (fun nd inp => ElectionFresh nd inp ∧ LogFresh nd inp ∧ SnapFresh nd inp)
      (.init fun _ => 0) x ∧
    m ∈ (x.state.nodes 0).applied ∧ m' ∈ (x.state.nodes 1).applied ∧ m.commandValid = true ∧
    m'.commandValid = true ∧ m.logIndex = 2 ∧ m'.logIndex = 2 ∧ m.command = m'.command := by
  obtain ⟨c, hrun, ⟨m, hm, hv, hi⟩, m', hm', hv', hi'⟩ : ∃ c : Cluster 3 ℕ ℕ,
      Run (fun nd inp => ElectionFresh nd inp ∧ LogFresh nd inp ∧ SnapFresh nd inp) .init c ∧
      (∃ m ∈ (c.nodes 0).applied, m.commandValid = true ∧ m.logIndex = 2) ∧
      ∃ m' ∈ (c.nodes 1).applied, m'.commandValid = true ∧ m'.logIndex = 2 :=
    Run.exists_of_stepsIf firstCommit (by decide +kernel)
  obtain ⟨mem, hmem⟩ := hrun.exists_shared fun _ => 0
  exact ⟨⟨c, mem⟩, m, m', hmem, hm, hm', hv, hv', hi, hi',
    state_machine_safety (by decide) hmem hm hm' hv hv' (Or.inl (hi.trans hi'.symm))⟩

/-- Servers 0 and 1 both lead term 1, with votes of server 2 for both, and commit a command each
with its help. -/
def splitBrain : List (Label 3 ℕ ℕ) :=
  splitVote ++ [.recv 0 1, .act 0 (.start 10), .act 0 (.beat 1), .act 0 (.sendAppend 1), .recv 0 0,
    .recv 0 1, .act 1 (.start 20), .act 1 (.beat 1), .act 1 (.sendAppend 1), .recv 0 0, .recv 0 1]

/-- Without the conditions two servers send different commands for one index; and so they do when
everything is fresh, but entries are overwritten before they are encoded. -/
theorem two_commands_at_one_index :
    (∃ c : Cluster 3 ℕ ℕ, Cluster.init.steps splitBrain = some c ∧
      (∃ mem, SharedRun (fun _ _ => True) (.init fun _ => 0) ⟨c, mem⟩) ∧
      (∃ m ∈ (c.nodes 0).applied, m.commandValid = true ∧ m.logIndex = 2 ∧ m.commandIndex = 1 ∧
        m.command = some 10) ∧
      ∃ m ∈ (c.nodes 1).applied, m.commandValid = true ∧ m.logIndex = 2 ∧ m.commandIndex = 1 ∧
        m.command = some 20) ∧
    ∃ x, MixedRun (fun nd inp => ElectionFresh nd inp ∧ LogFresh nd inp ∧ SnapFresh nd inp) x ∧
      (∃ m ∈ (x.state.nodes 1).applied, m.commandValid = true ∧ m.logIndex = 2 ∧
        m.command = some 10) ∧
      ∃ m ∈ (x.state.nodes 2).applied, m.commandValid = true ∧ m.logIndex = 2 ∧
        m.command = some 20 := by
  refine ⟨Cluster.exists_shared_of_steps splitBrain (by decide +kernel) _, ?_⟩
  obtain ⟨x, hx, hcommands, -⟩ := exists_mixtureLeads
  exact ⟨x, hx, hcommands⟩

/-! ## Replication counts -/

/-- **Replication counts are backed by logs.** For an odd number of servers, when elections and
requests are fresh and no entry is overwritten before it is encoded, a server whose recorded index
is `m` holds the leader's entries up to `m`, as long as its term is not later; and when the leader
advances `commitIndex` by counting, all the servers it counts hold the entry of the new
`commitIndex`.

**Proof sketch.** In a run with copies a recorded index is an acknowledgement of the replicated log,
and an acknowledged prefix is held until a later leader log lacks it. The step is one with copies
too. -/
theorem matchIndexs_backed (hn : Odd n)
    (h : SharedRun (fun nd inp => ElectionFresh nd inp ∧ LogFresh nd inp) (.init spare) x) :
    (∀ s j ld, (x.state.nodes s).rf.role = .leader → (x.state.nodes s).rf.leaderPtr = some ld →
      (x.state.nodes j).rf.currentTerm ≤ (x.state.nodes s).rf.currentTerm →
      ∀ k ≤ ld.matchIndexs j, x.state.Shares s j k) ∧
    ∀ l room y, Cluster.host.Fresh
        (StepMeets fun nd inp => ElectionFresh nd inp ∧ LogFresh nd inp) x (.run l room) →
      Cluster.host.sharedStep x (.run l room) = some y → ∀ s src, x.state.Commits l y.state s src →
      ∀ j, (j = s ∨ j = src ∨ ∃ ld, (y.state.nodes s).rf.leaderPtr = some ld ∧
        (y.state.nodes s).rf.commitIndex ≤ ld.matchIndexs j) →
      y.state.Shares s j (y.state.nodes s).rf.commitIndex := by
  obtain ⟨hx, hrun⟩ := h.run
  obtain ⟨hrecorded, hcounted⟩ := hrun.shares_of_matchIndexs hn
  refine ⟨hrecorded, fun l room y hP hstep => ?_⟩
  obtain ⟨-, hmeets, hnext⟩ := hx.step_run hP hstep
  exact hcounted l y.state hmeets hnext

/-- Server 0 advances its `commitIndex` on the acknowledgement of server 1, which holds the
entry; afterwards its record about server 1 is backed too. -/
theorem matchIndexs_backed_first : ∃ x y : Shared 3 ℕ (Cluster 3 ℕ ℕ),
    SharedRun (fun nd inp => ElectionFresh nd inp ∧ LogFresh nd inp) (.init fun _ => 0) x ∧
    Cluster.host.sharedStep x (.run (.recv 0 0) 0) = some y ∧
    x.state.Commits (.recv 0 0) y.state 0 1 ∧ (y.state.nodes 0).rf.commitIndex = 2 ∧
    y.state.Shares 0 1 (y.state.nodes 0).rf.commitIndex ∧
    ∃ ld, (y.state.nodes 0).rf.leaderPtr = some ld ∧ ld.matchIndexs 1 = 2 ∧
      y.state.Shares 0 1 1 := by
  obtain ⟨c, hrun, hmeets, hsome⟩ : ∃ c : Cluster 3 ℕ ℕ,
      Run (fun nd inp => ElectionFresh nd inp ∧ LogFresh nd inp) .init c ∧
      StepMeets (fun nd inp => ElectionFresh nd inp ∧ LogFresh nd inp) c (.recv 0 0) ∧
      ∃ d ∈ c.step (.recv 0 0), c.Commits (.recv 0 0) d 0 1 ∧ (d.nodes 0).rf.commitIndex = 2 ∧
        (∃ ld ∈ (d.nodes 0).rf.leaderPtr, ld.matchIndexs 1 = 2) ∧
        (d.nodes 1).rf.currentTerm ≤ (d.nodes 0).rf.currentTerm :=
    Run.exists_of_stepsIf (firstCommit.take 9) (by decide +kernel)
  obtain ⟨d, hstep, hc, hci, ⟨ld, hl, hmatch⟩, hterm⟩ := hsome
  obtain ⟨mem, mem', hx, hfresh, hnext⟩ := hrun.exists_shared_step hmeets hstep fun _ => 0
  have hy := matchIndexs_backed (by decide) (.tail _ hx hfresh hnext)
  exact ⟨⟨c, mem⟩, ⟨d, mem'⟩, hx, hnext, hc, hci,
    (matchIndexs_backed (by decide) hx).2 _ _ _ hfresh hnext 0 1 hc 1 (Or.inr (Or.inl rfl)),
    ld, hl, hmatch, hy.1 0 1 ld hc.2.1 hl hterm 1 (by omega)⟩

/-- A request of server 0 with one entry is delayed; the next one, with two entries, is accepted
and acknowledged by server 1, and the delayed one arrives after that. -/
def lateAppend : List (Label 3 ℕ ℕ) :=
  [.act 0 .startElection, .act 0 (.askVote 0 1), .recv 0 0, .act 1 (.grantVote 0), .recv 0 0,
    .act 0 (.beat 0), .act 0 (.sendAppend 0), .act 0 (.beatRetry 0), .act 0 (.start 10),
    .act 0 (.beat 0), .act 0 (.sendAppend 0), .recv 1 0, .recv 1 0, .recv 0 0]

/-- Without the condition on requests, server 0 leads term 1 and records index 2 for server 1,
which is in term 1 too and has lost the entry. Without the one on the memory, server 1 leads term 3
and records index 4 for server 0, which has another entry of index 2. -/
theorem recorded_entry_lost :
    (∃ c : Cluster 3 ℕ ℕ, Cluster.init.steps lateAppend = some c ∧
      (∃ mem, SharedRun (fun _ _ => True) (.init fun _ => 0) ⟨c, mem⟩) ∧
      (c.nodes 0).rf.role = .leader ∧ (∃ ld ∈ (c.nodes 0).rf.leaderPtr, ld.matchIndexs 1 = 2) ∧
      (c.nodes 1).rf.currentTerm ≤ (c.nodes 0).rf.currentTerm ∧
      (c.nodes 1).rf.logAt 2 = none ∧ ¬ c.Shares 0 1 2) ∧
    ∃ x, MixedRun (fun nd inp => ElectionFresh nd inp ∧ LogFresh nd inp ∧ SnapFresh nd inp) x ∧
      (x.state.nodes 1).rf.role = .leader ∧
      (∃ ld ∈ (x.state.nodes 1).rf.leaderPtr, ld.matchIndexs 0 = 4) ∧
      (x.state.nodes 0).rf.currentTerm ≤ (x.state.nodes 1).rf.currentTerm ∧
      ¬ x.state.Shares 1 0 2 := by
  refine ⟨Cluster.exists_shared_of_steps lateAppend (by decide +kernel) _, ?_⟩
  obtain ⟨x, hx, -, hcounts, -⟩ := exists_mixtureLeads
  exact ⟨x, hx, hcounts⟩

/-! ## Accesses to the log -/

/-- **Log accesses stay in range.** For an odd number of servers, when elections, requests and
snapshots are fresh and no entry is overwritten before it is encoded, the snapshot index, the commit
index and the index of the last entry are in this order at every server, and no step that meets the
conditions makes a server access its log outside the slice.

**Proof sketch.** In a run with copies every server's log is that of the replicated log above its
snapshot, so that all accesses are within it. What is decoded is what was sent. -/
theorem log_access_in_range (hn : Odd n)
    (h : SharedRun (fun nd inp => ElectionFresh nd inp ∧ LogFresh nd inp ∧ SnapFresh nd inp)
      (.init spare) x) :
    (∀ i, ∃ last, (x.state.nodes i).rf.getLastLog = some last ∧
      (x.state.nodes i).rf.lastIncludedIndex ≤ (x.state.nodes i).rf.commitIndex ∧
      (x.state.nodes i).rf.commitIndex ≤ last.logIndex) ∧
    ∀ l, x.memory.Ready l →
      StepMeets (fun nd inp => ElectionFresh nd inp ∧ LogFresh nd inp ∧ SnapFresh nd inp)
        (x.state.decode x.memory l) l →
      ∀ i inp c' o, (x.state.decode x.memory l).pick l = some (i, inp, c') →
        (x.state.nodes i).exec inp = some o → ∀ nd, o ≠ .panic .indexOutOfRange nd := by
  obtain ⟨hx, hrun⟩ := h.run
  refine ⟨fun i => (hrun.access_in_range hn i).1, fun l hready hP i inp c' o hpick ho => ?_⟩
  have hsame : x.state.decode x.memory l = x.state := Memory.Holds.decode_eq hx hready
  rw [hsame] at hP hpick
  exact (hrun.access_in_range hn i).2 inp o (Cluster.deliverable_of_pick hpick)
    (hP i inp c' hpick) ho

/-- Server 1 has delivered the entry of index 2, and its service has captured a snapshot of it. -/
theorem log_access_in_range_first :
    ∃ (x : Shared 3 ℕ (Cluster 3 ℕ ℕ)) (o : NodeOutcome 3 ℕ ℕ),
    SharedRun (fun nd inp => ElectionFresh nd inp ∧ LogFresh nd inp ∧ SnapFresh nd inp)
      (.init fun _ => 0) x ∧
    (x.state.nodes 1).rf.commitIndex = 2 ∧
    (∃ last, (x.state.nodes 1).rf.getLastLog = some last ∧
      (x.state.nodes 1).rf.lastIncludedIndex ≤ (x.state.nodes 1).rf.commitIndex ∧
      (x.state.nodes 1).rf.commitIndex ≤ last.logIndex) ∧
    (x.state.nodes 1).exec (.act .takeSnapshot) = some o ∧
    ∀ nd, o ≠ .panic .indexOutOfRange nd := by
  obtain ⟨c, hrun, hcommit, hfresh, hsome⟩ : ∃ c : Cluster 3 ℕ ℕ,
      Run (fun nd inp => ElectionFresh nd inp ∧ LogFresh nd inp ∧ SnapFresh nd inp) .init c ∧
      (c.nodes 1).rf.commitIndex = 2 ∧
      StepMeets (fun nd inp => ElectionFresh nd inp ∧ LogFresh nd inp ∧ SnapFresh nd inp) c
        (.act 1 .takeSnapshot) ∧
      ((c.nodes 1).exec (.act .takeSnapshot)).isSome = true :=
    Run.exists_of_stepsIf
      (firstCommit ++ [.act 1 .deliver, .act 1 .deliver, .act 1 (.capture 7)]) (by decide +kernel)
  obtain ⟨o, ho⟩ := Option.isSome_iff_exists.mp hsome
  obtain ⟨mem, hx⟩ := hrun.exists_shared fun _ => 0
  obtain ⟨horder, haccess⟩ := log_access_in_range (by decide) hx
  exact ⟨⟨c, mem⟩, o, hx, hcommit, horder 1, ho,
    haccess (.act 1 .takeSnapshot) trivial hfresh 1 _ _ o rfl ho⟩

/-- The delayed request of `lateAppend`, arriving after server 1 has learned that the entry it
cuts is committed. -/
def lateAppendCommitted : List (Label 3 ℕ ℕ) :=
  lateAppend.take 13 ++ [.act 0 (.beat 0), .act 0 (.sendAppend 0), .recv 1 0, .recv 0 0]

/-- Server 1 has applied index 3 and its service has captured a snapshot of it; an
`InstallSnapshot` for index 2 moves `commitIndex` back, and then `TakeSnapshot` cuts the log
at 3. -/
def snapshotAhead : List (Label 3 ℕ ℕ) :=
  [.act 0 .startElection, .act 0 (.askVote 0 2), .recv 0 0, .act 2 (.grantVote 0), .recv 0 0,
    .act 0 (.start 10), .act 0 (.start 20), .act 0 (.beat 1), .act 0 (.sendAppend 1), .recv 0 0,
    .recv 0 1, .act 0 (.beat 0), .act 0 (.sendAppend 0), .recv 0 0, .lose 0, .act 0 (.beatRetry 0),
    .act 0 .deliver, .act 0 .deliver, .act 0 (.capture 7), .act 0 .takeSnapshot, .act 0 (.beat 0),
    .act 0 (.sendInstall 0), .act 1 .deliver, .act 1 .deliver, .act 1 .deliver, .act 1 (.capture 8),
    .recv 0 0, .act 1 .takeSnapshot]

/-- Without the conditions `commitIndex` ends up behind the last entry, or before the snapshot; and
when everything is fresh, but entries are overwritten before they are encoded, behind the last
entry. -/
theorem indexes_out_of_order :
    (∃ c : Cluster 3 ℕ ℕ, Cluster.init.steps lateAppendCommitted = some c ∧
      (∃ mem, SharedRun (fun _ _ => True) (.init fun _ => 0) ⟨c, mem⟩) ∧
      ∃ last ∈ (c.nodes 1).rf.getLastLog, last.logIndex < (c.nodes 1).rf.commitIndex) ∧
    (∃ c : Cluster 3 ℕ ℕ, Cluster.init.steps snapshotAhead = some c ∧
      (∃ mem, SharedRun (fun _ _ => True) (.init fun _ => 0) ⟨c, mem⟩) ∧
      (c.nodes 1).rf.commitIndex < (c.nodes 1).rf.lastIncludedIndex) ∧
    ∃ x, MixedRun (fun nd inp => ElectionFresh nd inp ∧ LogFresh nd inp ∧ SnapFresh nd inp) x ∧
      ∃ last ∈ (x.state.nodes 3).rf.getLastLog,
        last.logIndex < (x.state.nodes 3).rf.commitIndex := by
  refine ⟨Cluster.exists_shared_of_steps lateAppendCommitted (by decide +kernel) _,
    Cluster.exists_shared_of_steps snapshotAhead (by decide +kernel) _, ?_⟩
  obtain ⟨x, hx, -, -, hlast⟩ := exists_mixtureLeads
  exact ⟨x, hx, hlast⟩

end Mit6824
