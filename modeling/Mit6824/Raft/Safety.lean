import Mit6824.Raft.Refine

set_option autoImplicit false

/-!
# State machine safety, replication counts and indexes

What the services of all servers are told, what the records of a leader about its peers are worth,
and which entries of its log a server accesses, read off the abstract state that a sane run refines.
Requests are copies here; `Raft/SharedSafety` is about requests that share the log.

## Main definitions

* `Mit6824.Cluster.Shares` — two servers hold the same entry of an index.

## Main results

* `Mit6824.Run.command_eq` — no two servers send different commands for one index.
* `Mit6824.Run.shares_of_matchIndexs` — recorded and counted replicas hold the leader's entries.
* `Mit6824.Run.access_in_range` — the order of the three indexes, and no access outside the log.
-/

namespace Mit6824

open ReplicatedLog (EndsIn)

variable {n : ℕ} {Cmd Snap : Type} {tidy : Prop} {G : Ghost n Cmd} {c d : Cluster n Cmd Snap}

/-! ## State machine safety -/

/-- Every message of the server, of this incarnation and the earlier ones. -/
lemma NodeOk.chanOk {i : Fin n} {nd : Node n Cmd Snap} (h : NodeOk tidy G i nd)
    {m : ApplyMsg Cmd Snap} (hm : m ∈ nd.applied) : ChanOk tidy (G.done i) m := by
  rcases List.mem_append.mp hm with hm | hm
  · exact h.past m hm
  · exact h.raft.chan m hm

/-- All that any two servers know to be committed lies in one numbered log. -/
lemma Refines.exists_committed (h : Refines tidy c G) (i j : Fin n) :
    ∃ D, Numbered D ∧ G.done i <+: D ∧ G.done j <+: D := by
  have hnum : ∀ k, Numbered (G.done k) := fun k =>
    (h.ghost.numbered_log k).shorten (h.node k).raft.done_le
  rcases h.ghost.inv.committedBy_comparable (h.node i).raft.committed (h.node j).raft.committed with
    hle | hle
  · exact ⟨G.done j, hnum j, hle, List.prefix_rfl⟩
  · exact ⟨G.done i, hnum i, List.prefix_rfl, hle⟩

section Applied

variable [DecidableEq Cmd] [DecidableEq Snap]

/-- **State machine safety.** For an odd number of servers, and when elections, requests and
snapshots are fresh, no two servers ever send on their apply channels two commands with the same
log index, or the same command index, that differ.

**Proof sketch.** Both servers take their messages from one committed log. A log index is a place in
it, and a command index belongs to one place only (`place_eq`); so both messages carry the command
of one entry. -/
theorem Run.command_eq (hn : Odd n)
    (h : Run (fun nd inp => ElectionFresh nd inp ∧ LogFresh nd inp ∧ SnapFresh nd inp)
      Cluster.init c) {i j : Fin n} {m m' : ApplyMsg Cmd Snap} (hm : m ∈ (c.nodes i).applied)
    (hm' : m' ∈ (c.nodes j).applied) (hv : m.commandValid = true) (hv' : m'.commandValid = true)
    (heq : m.logIndex = m'.logIndex ∨ m.commandIndex = m'.commandIndex) :
    m.command = m'.command := by
  have hrun : Run (Sane True) Cluster.init c :=
    h.mono fun _ _ hP => ⟨hP.1, hP.2.1, fun _ => hP.2.2⟩
  obtain ⟨-, -, G, hG⟩ := refines_of_run hn hrun
  obtain ⟨D, hD, hi, hj⟩ := hG.exists_committed i j
  obtain ⟨k, e, he, hidx, hcmd, hci, hint⟩ := (((hG.node i).chanOk hm).mono hi).entry trivial hv
  obtain ⟨k', e', he', hidx', hcmd', hci', hint'⟩ :=
    (((hG.node j).chanOk hm').mono hj).entry trivial hv'
  have hk : k = k' := by
    rcases heq with heq | heq
    · omega
    · exact hD.place_eq he he' hint hint' (by omega)
  subst hk
  rw [he] at he'
  obtain rfl := Option.some.inj he'
  rw [hcmd, hcmd']

end Applied

/-! ## Replication counts -/

/-- Server `j` holds the entry of index `k`, unless it has compacted it, and it is the entry that
server `s` holds there, unless that one has compacted it. -/
def Cluster.Shares (c : Cluster n Cmd Snap) (s j : Fin n) (k : ℕ) : Prop :=
  (c.nodes j).rf.lastIncludedIndex < k → ∃ e ∈ (c.nodes j).rf.logAt k,
    (c.nodes s).rf.lastIncludedIndex < k → ∃ e' ∈ (c.nodes s).rf.logAt k,
      e'.logTerm = e.logTerm ∧ e'.command = e.command

instance [DecidableEq Cmd] (c : Cluster n Cmd Snap) (s j : Fin n) (k : ℕ) :
    Decidable (c.Shares s j k) :=
  inferInstanceAs (Decidable (_ → ∃ e ∈ _, _))

/-- Servers share the entries of a common prefix of their full logs.

**Proof sketch.** Above the snapshots, the log in memory is the full log at the same index, and
there the two full logs agree. -/
lemma Refines.shares (h : Refines tidy c G) {s j : Fin n} {k m : ℕ} (hkm : k ≤ m)
    (hm : m ≤ (G.st.log s).length) (hpre : (G.st.log s).take m <+: G.st.log j) :
    c.Shares s j k := by
  intro hlow
  have hlen := hpre.length_le
  rw [List.length_take_of_le hm] at hlen
  obtain ⟨e, he, -, -, -, hej⟩ :=
    (h.node j).raft.log.logAt (h.ghost.numbered_log j) hlow.le (hkm.trans hlen)
  refine ⟨e, he, fun hlow' => ?_⟩
  obtain ⟨e', he', -, -, -, hes⟩ :=
    (h.node s).raft.log.logAt (h.ghost.numbered_log s) hlow'.le (hkm.trans hm)
  -- both are the entry of the common prefix
  have hsame : (G.st.log j)[k - 1]? = (G.st.log s)[k - 1]? := by
    obtain ⟨R, hR⟩ := hpre
    rw [← hR, List.getElem?_append_left (by rw [List.length_take_of_le hm]; omega),
      List.getElem?_take_of_lt (by omega)]
  rw [hej hlow, hes hlow'] at hsame
  obtain rfl := Option.some.inj hsame
  exact ⟨e, he', rfl, rfl⟩

/-- A recorded index is held by its server, as long as that is not in a later term. -/
lemma Refines.shares_of_match (h : Refines tidy c G) {s j : Fin n} {l : Leader n}
    (hl : (c.nodes s).rf.leaderPtr = some l)
    (hterm : (c.nodes j).rf.currentTerm ≤ (c.nodes s).rf.currentTerm) {k : ℕ}
    (hk : k ≤ l.matchIndexs j) : c.Shares s j k := by
  rw [(h.node j).raft.term, (h.node s).raft.term] at hterm
  rcases ((h.node s).raft.leader l hl).mtch j with h0 | ⟨hle, hack | ⟨hbase, -⟩⟩
  · intro hlow
    omega
  · exact h.shares hk hle (h.ghost.inv.acked_held hack hterm)
  · intro hlow
    rw [(h.node j).raft.base] at hbase
    omega

/-- A recorded index that is committed is held by its server, whatever the term of that.

**Proof sketch.** The server has acknowledged the entries up to the index, and they are committed;
committed entries that were acknowledged are never lost. If the record comes from a snapshot, the
server's own snapshot covers the index. -/
lemma Refines.shares_of_commit (h : Refines tidy c G) {s j : Fin n} {l : Leader n}
    (hl : (c.nodes s).rf.leaderPtr = some l) {k : ℕ} (hk : k ≤ l.matchIndexs j)
    (hcommit : k ≤ (c.nodes s).rf.commitIndex) : c.Shares s j k := by
  have hs := (h.node s).raft
  rcases (hs.leader l hl).mtch j with h0 | ⟨hle, hack | ⟨hbase, -⟩⟩
  · intro hlow
    omega
  · have hkF : k ≤ (G.st.log s).length := hk.trans hle
    have hdone : (G.st.log s).take k <+: G.done s := by
      refine List.prefix_of_prefix_length_le (List.take_prefix _ _) hs.done_le ?_
      rw [List.length_take_of_le hkF]
      exact hcommit.trans hs.commit_le
    refine h.shares le_rfl hkF (h.ghost.inv.acked_committed ?_ (hs.committed.shorten hdone))
    exact hack.shorten (List.take_prefix_take_left hk)
  · intro hlow
    rw [(h.node j).raft.base] at hbase
    omega

namespace Raft

variable {rf rf' : Raft n Cmd Snap} {l : Leader n} {peer : Fin n}

/-- The search for an entry to commit does not look above the acknowledged index. -/
lemma commitIndex_commitScan_le {k : ℕ} (h : rf.commitScan l peer k = .ok rf' ()) :
    rf'.commitIndex ≤ max rf.commitIndex k := by
  obtain heq | ⟨-, -, -, -, heq⟩ | ⟨i, hi, -, -, -, -, -, heq⟩ := commitScan_cases rf l peer k <;>
    rw [heq] at h
  · obtain rfl := (Outcome.ok.inj h).1
    exact le_max_left _ _
  · simp at h
  · unfold commitUpTo at h
    split at h
    · simp at h
    · obtain rfl := (Outcome.ok.inj h).1
      exact hi.trans (le_max_right _ _)

/-- A success reply that raises `commitIndex` has raised the recorded index of its sender as
far. -/
lemma commitIndex_appendSuccess_le {last : ℕ} (h : rf.appendSuccess peer last = .ok rf' ())
    (hlt : rf.commitIndex < rf'.commitIndex) :
    ∃ l, rf'.leaderPtr = some l ∧ rf'.commitIndex ≤ l.matchIndexs peer := by
  obtain ⟨-, heq⟩ | ⟨l, -, heq | heq⟩ := appendSuccess_cases rf peer last <;> rw [heq] at h
  · simp at h
  · obtain rfl := (Outcome.ok.inj h).1
    simp at hlt
  · have hle := commitIndex_commitScan_le h
    obtain ⟨ms, j, k, hstate⟩ := commitScan_eq
      { rf with leaderPtr := some (setPeer l peer (last + 1) last) }
      (setPeer l peer (last + 1) last) peer last
    rw [h, Outcome.state_ok] at hstate
    refine ⟨setPeer l peer (last + 1) last, by rw [hstate], ?_⟩
    simp only [setPeer, Function.update_self] at hle ⊢
    omega

/-- A reply that raises `commitIndex` has raised the recorded index of its sender as far.

**Proof sketch.** By the cases of the handler. Only a success moves `commitIndex`, and it has
recorded the index before. -/
lemma commitIndex_appendReply_le {args : AppendEntriesArgs n Cmd} {reply : AppendEntriesReply}
    (h : rf.appendReply peer args reply = .ok rf' ()) (hlt : rf.commitIndex < rf'.commitIndex) :
    ∃ l, rf'.leaderPtr = some l ∧ rf'.commitIndex ≤ l.matchIndexs peer := by
  have hspec := appendReply_spec rf peer args reply
  generalize rf.appendReply peer args reply = o at h hspec
  cases hspec with
  | keep =>
    obtain rfl := (Outcome.ok.inj h).1
    omega
  | noLeader => simp at h
  | empty => simp at h
  | success => exact commitIndex_appendSuccess_le h hlt
  | follow =>
    obtain rfl := (Outcome.ok.inj h).1
    simp [becomeFollower, persist] at hlt
  | conflict =>
    obtain ⟨l, next, -, heq⟩ | ⟨-, heq⟩ | heq := appendConflict_cases rf peer reply <;>
      rw [heq] at h
    · obtain rfl := (Outcome.ok.inj h).1
      simp at hlt
    · simp at h
    · simp at h

end Raft

/-- The sender of an `AppendEntries` reply. -/
def Input.repliedBy : Input n Cmd Snap → Option (Fin n)
  | .recv (.appendEntriesReply src _ _) _ => some src
  | _ => none

/-- In a step from `c` to `d`, server `s` handles an `AppendEntries` reply of `src` as a leader and
advances its `commitIndex`. -/
def Cluster.Commits (c : Cluster n Cmd Snap) (l : Label n Cmd Snap) (d : Cluster n Cmd Snap)
    (s src : Fin n) : Prop :=
  (∃ x ∈ c.pick l, x.1 = s ∧ x.2.1.repliedBy = some src) ∧ (d.nodes s).rf.role = .leader ∧
    (c.nodes s).rf.commitIndex < (d.nodes s).rf.commitIndex

instance (c : Cluster n Cmd Snap) (l : Label n Cmd Snap) (d : Cluster n Cmd Snap)
    (s src : Fin n) : Decidable (c.Commits l d s src) :=
  inferInstanceAs (Decidable ((∃ x ∈ c.pick l, _) ∧ _ ∧ _))

section Backed

variable [DecidableEq Cmd] [DecidableEq Snap]

/-- A commit by counting has raised the recorded index of the sender as far.

**Proof sketch.** The input of the step is the reply of `src`, so the section is `appendReply`. It
does not panic, because a server that restarts is no leader. -/
lemma Cluster.Commits.match_src {l : Label n Cmd Snap} {s src : Fin n} (h : c.Commits l d s src)
    (hstep : c.step l = some d) : ∃ ld, (d.nodes s).rf.leaderPtr = some ld ∧
      (d.nodes s).rf.commitIndex ≤ ld.matchIndexs src := by
  obtain ⟨⟨⟨i, inp, c'⟩, hpick, rfl, hsrc⟩, hrole, hlt⟩ := h
  dsimp only at hrole hlt hsrc ⊢
  rcases Cluster.step_cases hstep with ⟨hnodes, -⟩ | ⟨i', inp', c'', o, hpick', -, ho, hnodes, -⟩
  · rw [hnodes] at hlt
    omega
  rw [hpick] at hpick'
  obtain ⟨rfl, rfl, -⟩ : i = i' ∧ inp = inp' ∧ c' = c'' := by simpa using hpick'
  have hnode : d.nodes i = (Node.finish o).node := by rw [hnodes, Cluster.nodes_after_self]
  rw [hnode] at hrole hlt ⊢
  unfold Input.repliedBy at hsrc
  split at hsrc
  · rename_i src' args reply g
    obtain rfl := Option.some.inj hsrc
    cases Node.trans_of_exec ho
    cases hout : (c.nodes i).rf.appendReply src' args reply with
    | ok rf' a =>
      rw [hout] at hlt
      simp only [Node.critical, Node.finish]
      exact Raft.commitIndex_appendReply_le hout hlt
    | panic p rf' =>
      -- a server that restarts is no leader
      simp [hout, Node.critical, Node.finish, Node.restart, Node.setRaft] at hrole
  · simp at hsrc

/-- **Replication counts are backed by logs.** For an odd number of servers, and when elections and
requests are fresh, a server whose recorded index is `m` holds the leader's entries up to `m`, as
long as its term is not later; and when the leader advances `commitIndex` by counting, all the
servers it counts hold the entry of the new `commitIndex`.

**Proof sketch.** Every state of the run refines the abstract log (`refines_of_run`). There a
recorded index stands for an acknowledged prefix, which is held until a later term
(`Refines.shares_of_match`), and for good if it is committed (`Refines.shares_of_commit`). -/
theorem Run.shares_of_matchIndexs (hn : Odd n)
    (h : Run (fun nd inp => ElectionFresh nd inp ∧ LogFresh nd inp) Cluster.init c) :
    (∀ s j ld, (c.nodes s).rf.role = .leader → (c.nodes s).rf.leaderPtr = some ld →
      (c.nodes j).rf.currentTerm ≤ (c.nodes s).rf.currentTerm →
      ∀ k ≤ ld.matchIndexs j, c.Shares s j k) ∧
    ∀ l d, StepMeets (fun nd inp => ElectionFresh nd inp ∧ LogFresh nd inp) c l →
      c.step l = some d → ∀ s src, c.Commits l d s src →
      ∀ j, (j = s ∨ j = src ∨ ∃ ld, (d.nodes s).rf.leaderPtr = some ld ∧
        (d.nodes s).rf.commitIndex ≤ ld.matchIndexs j) →
      d.Shares s j (d.nodes s).rf.commitIndex := by
  have hsane : ∀ {e : Cluster n Cmd Snap},
      Run (fun nd inp => ElectionFresh nd inp ∧ LogFresh nd inp) Cluster.init e →
      ∃ G : Ghost n Cmd, Refines False e G := fun hrun =>
    (refines_of_run hn (hrun.mono fun _ _ hP => ⟨hP.1, hP.2, False.elim⟩)).refines
  refine ⟨fun s j ld _ hl hterm k hk => ?_, fun l d hP hstep s src hc j hj => ?_⟩
  · obtain ⟨G, hG⟩ := hsane h
    exact hG.shares_of_match hl hterm hk
  · obtain ⟨G, hG⟩ := hsane (.tail l h hP hstep)
    have hs := (hG.node s).raft
    rcases hj with rfl | rfl | ⟨ld, hl, hk⟩
    · exact hG.shares le_rfl (hs.commit_le.trans hs.done_le.length_le) (List.take_prefix _ _)
    · obtain ⟨ld, hl, hk⟩ := hc.match_src hstep
      exact hG.shares_of_commit hl hk le_rfl
    · exact hG.shares_of_commit hl hk le_rfl

end Backed

/-! ## Accesses to the log -/

/-- **Log accesses stay in range.** For an odd number of servers, and when elections, requests and
snapshots are fresh, the snapshot index, the commit index and the index of the last entry are in
this order at every server, and no input that meets the conditions makes a server access its log
outside the slice. -/
theorem Run.access_in_range [DecidableEq Cmd] [DecidableEq Snap] (hn : Odd n)
    (h : Run (fun nd inp => ElectionFresh nd inp ∧ LogFresh nd inp ∧ SnapFresh nd inp)
      Cluster.init c) (i : Fin n) :
    (∃ last, (c.nodes i).rf.getLastLog = some last ∧
      (c.nodes i).rf.lastIncludedIndex ≤ (c.nodes i).rf.commitIndex ∧
      (c.nodes i).rf.commitIndex ≤ last.logIndex) ∧
    ∀ inp o, c.Deliverable i inp →
      ElectionFresh (c.nodes i) inp ∧ LogFresh (c.nodes i) inp ∧ SnapFresh (c.nodes i) inp →
      (c.nodes i).exec inp = some o → ∀ nd, o ≠ .panic .indexOutOfRange nd := by
  obtain ⟨hE, hone, G, hG⟩ := refines_of_run hn
    (h.mono (Q := Sane True) fun _ _ hP => ⟨hP.1, hP.2.1, fun _ => hP.2.2⟩)
  have hi := (hG.node i).raft
  refine ⟨?_, fun inp o hdel hP ho nd hpanic => ?_⟩
  · obtain ⟨last, hlast, hidx, -⟩ := hi.log.getLastLog (hG.ghost.numbered_log i)
    refine ⟨last, hlast, hi.tidy_le trivial, ?_⟩
    rw [hidx]
    exact hi.commit_le.trans hi.done_le.length_le
  · obtain ⟨G', hs⟩ := hG.exec hn hE hone ⟨hP.1, hP.2.1, fun _ => hP.2.2⟩ hdel ho
    exact hs.panic _ nd hpanic trivial rfl

end Mit6824
