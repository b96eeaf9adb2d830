import Mit6824.Raft.Persistence
import Mit6824.Raft.RootedLog

set_option autoImplicit false

/-!
# The shape of the log

Every access to `rf.logs` goes through `logIndex2LogPos`, which relies on the entries standing at
the positions that their indexes say, counted from the snapshot on, with the sentinel of the
snapshot at position 0 (`raft/raft.go`). Here it is shown that every operation of a server keeps
this shape, whatever its arguments, with one exception: `AppendEntries` needs a request whose
entries are numbered from the previous index on and whose previous term is right for the sentinel,
because the log would be cut before the sentinel otherwise.

## Main definitions

* `Mit6824.Operation.Fits` — what is asked of an `AppendEntries` request.

## Main results

* `Mit6824.Raft.Rooted.perform` — one operation keeps the shape.
* `Mit6824.log_shape`.
-/

namespace Mit6824

variable {n : ℕ} {Cmd Snap : Type}

/-- The request of an `AppendEntries` is numbered from its previous index on, and has the term of
the snapshot if its previous entry is the sentinel. -/
def Operation.Fits (rf : Raft n Cmd Snap) : Operation n Cmd Snap → Prop
  | .appendEntries args => ∀ prev ∈ args.prevLogIndex, Consecutive (prev + 1) args.entries ∧
      (prev = rf.lastIncludedIndex → args.prevLogTerm = some rf.lastIncludedTerm)
  | _ => True

namespace Raft.Rooted

variable {rf : Raft n Cmd Snap}

/-! ## Changes of the log -/

/-- Most sections leave the log as it is or append one entry. -/
lemma grown {rf' : Raft n Cmd Snap} (h : rf.Rooted) (hg : rf.Grown rf') : rf'.Rooted := by
  refine ⟨h.index.grown hg, ?_⟩
  rw [hg.term]
  obtain hlogs | ⟨last, e, -, -, hlogs⟩ := hg.logs <;> rw [hlogs]
  · exact h.sentinel
  · rw [List.head?_append_of_ne_nil _ (List.length_pos_iff.mp h.length_pos)]
    exact h.sentinel

/-- Both sections of `RequestVote`. -/
lemma requestVote (h : rf.Rooted) (args : RequestVoteArgs n) :
    (rf.requestVote args).state.Rooted := by
  have hcheck := h.grown (.requestVoteCheck rf args)
  rcases state_requestVote rf args with heq | heq <;> rw [heq]
  · exact hcheck
  · exact hcheck.grown (.requestVoteGrant _ args)

/-- The entry at the new snapshot becomes the sentinel. -/
lemma takeSnapshot (h : rf.Rooted) (snapshot : Option Snap) (k : ℕ) :
    (rf.takeSnapshot snapshot k).state.Rooted := by
  refine ⟨h.index.takeSnapshot snapshot k, ?_⟩
  rcases takeSnapshot_cases rf snapshot k with ⟨-, heq⟩ | ⟨-, -, heq⟩ | ⟨e, hlt, he, heq⟩ <;>
    rw [heq]
  · exact h.sentinel
  · exact h.sentinel
  · obtain ⟨-, hget⟩ := logAt_eq_some_iff.mp he
    obtain ⟨hpos, hval⟩ := List.getElem?_eq_some_iff.mp hget
    show ∃ a ∈ (dropCommand (rf.logs.drop (k - rf.lastIncludedIndex))).head?, a.logTerm = e.logTerm
    rw [List.drop_eq_getElem_cons hpos, hval]
    exact ⟨_, rfl, rfl⟩

/-- `InstallSnapshot` keeps the root, whatever the request. -/
lemma installSnapshot (h : rf.Rooted) (args : InstallSnapshotArgs n Snap) :
    (rf.installSnapshot args).state.Rooted := by
  have hseq := h.index.installSnapshot args
  have hspec := installSnapshot_spec rf args
  generalize rf.installSnapshot args = o at hspec hseq
  cases hspec with
  | stale => exact h
  | behind => exact h.grown (.observe rf _)
  | panic => exact h.grown (.observe rf _)
  | install _ hlt logs hlogs => exact .of_install hlogs hseq rfl rfl

/-- The log is not cut before the sentinel.

**Proof sketch.** By `appendEntries_rule`. The entries of the request follow the previous one by
index. A conflict at the sentinel would contradict the term that the sentinel and the request agree
on, so the cut is behind it. -/
lemma appendEntries (h : rf.Rooted) {args : AppendEntriesArgs n Cmd}
    (hfits : (Operation.appendEntries args : Operation n Cmd Snap).Fits rf) :
    (rf.appendEntries args).state.Rooted := by
  have hfollow : (rf.becomeFollower args.leaderTerm).Rooted := h.congr rfl rfl rfl
  refine appendEntries_rule h (fun rf' k reply hr => hr.grown (.advanceCommit rf' k reply))
    (fun _ => hfollow) ?_ ?_
  · intro prev old _ hprev hlow hpos _
    refine hfollow.adopt (List.getElem?_eq_some_iff.mp hpos).1 ?_
    show Consecutive (rf.lastIncludedIndex + (prev - rf.lastIncludedIndex) + 1) args.entries
    rw [Nat.add_sub_cancel' hlow]
    exact (hfits prev hprev).1
  · intro prev old _ hprev hlow hpos hterm
    refine h.cut ?_ rfl rfl rfl
    by_contra hzero
    obtain rfl : prev = rf.lastIncludedIndex := by omega
    obtain ⟨e, he, hroot⟩ := h.sentinel
    rw [Nat.sub_self, ← List.head?_eq_getElem?] at hpos
    obtain rfl : e = old := Option.some.inj (he.symm.trans hpos)
    exact hterm (by rw [hroot, (hfits _ hprev).2 rfl])

/-- A restart finds the log as it was. -/
lemma make (h : rf.Rooted) (hs : rf.Saved) : (Raft.make rf.me rf.persister).Rooted := by
  have hadd : rf.addSentinel = rf := addSentinel_of_ne_nil (List.length_pos_iff.mp h.length_pos)
  rw [Saved, hadd] at hs
  exact h.congr (congrArg RaftState.logs hs) (congrArg RaftState.lastIncludedIndex hs)
    (congrArg RaftState.lastIncludedTerm hs)

/-! ## Sequences of operations -/

/-- One operation keeps the shape of the log.

**Proof sketch.** By the operation. All but the restart and the handlers of requests only append to
the log or keep it (`Raft.Grown`). -/
lemma perform (h : rf.Rooted) (hs : rf.Saved) {op : Operation n Cmd Snap} (hop : op.Fits rf) :
    (rf.perform op).state.Rooted := by
  cases op with
  | becomeFollower t => exact h.congr rfl rfl rfl
  | becomeLeader => simpa [Raft.perform] using h.grown (.becomeLeader rf)
  | requestVoteCheck args => simpa [Raft.perform] using h.grown (.requestVoteCheck rf args)
  | requestVoteGrant args => exact h.grown (.requestVoteGrant rf args)
  | requestVote args => simpa [Raft.perform] using h.requestVote args
  | appendEntries args => simpa [Raft.perform] using h.appendEntries hop
  | startElection => simpa [Raft.perform] using h.grown (.startElection rf)
  | start command => simpa [Raft.perform] using h.grown (.start rf command)
  | installSnapshot args => simpa [Raft.perform] using h.installSnapshot args
  | takeSnapshot snapshot k => simpa [Raft.perform] using h.takeSnapshot snapshot k
  | appendReply peer args reply =>
    simpa [Raft.perform] using h.grown (.appendReply rf peer args reply)
  | installReply peer args reply =>
    simpa [Raft.perform] using h.grown (.installReply rf peer args reply)
  | crash => exact h.make hs

end Raft.Rooted

/-- A server that starts with an empty persister has just the sentinel. -/
lemma Raft.rooted_make (me : Fin n) : (Raft.make me {} : Raft n Cmd Snap).Rooted :=
  ⟨Consecutive.singleton rfl, _, rfl, rfl⟩

/-- **The shape of the log.** After every sequence of operations from the first start on, the log
is not empty, the entry at position `k` has the index of the snapshot plus `k`, and the entry at
position 0 has the snapshot's term. The arguments of the operations are arbitrary, but for the
numbering of an `AppendEntries` request and its term for the sentinel.

**Proof sketch.** The shape is an invariant of the operations, together with the fact that it is
saved, for the restarts. -/
theorem log_shape (me : Fin n) {ops : List (Operation n Cmd Snap)} {rf : Raft n Cmd Snap}
    (hops : Raft.Throughout (fun rf op => op.Fits rf) (Raft.make me {}) ops)
    (hrf : (Raft.make me {}).after ops = rf) :
    rf.logs ≠ [] ∧
    (∀ k e, rf.logs[k]? = some e → e.logIndex = rf.lastIncludedIndex + k) ∧
    ∀ e, rf.logs[0]? = some e → e.logTerm = rf.lastIncludedTerm := by
  subst hrf
  have hroot : ((Raft.make me {} : Raft n Cmd Snap).after ops).Saved ∧
      ((Raft.make me {} : Raft n Cmd Snap).after ops).Rooted :=
    Raft.Throughout.keeps (I := fun rf => rf.Saved ∧ rf.Rooted)
      (fun _ op h hop => ⟨h.1.perform op, h.2.perform h.1 hop⟩) ops _ hops
      ⟨Raft.saved_make me {}, Raft.rooted_make me⟩
  refine ⟨List.length_pos_iff.mp hroot.2.length_pos,
    fun k e he => Consecutive.logIndex_of_getElem? hroot.2.index he, fun e he => ?_⟩
  obtain ⟨a, ha, hterm⟩ := hroot.2.sentinel
  rw [← List.head?_eq_getElem?] at he
  obtain rfl : a = e := Option.some.inj (ha.symm.trans he)
  exact hterm

/-- A server takes entries, compacts its log, takes entries behind the sentinel, leads, takes a
command, gets the snapshot of another server, and starts again. -/
def longLife : List (Operation 3 Unit Unit) :=
  [.appendEntries ⟨1, 1, some 0, some 0, [⟨1, 1, none, 0, true⟩, ⟨1, 2, some (), 1, false⟩], 2⟩,
    .takeSnapshot (some ()) 1,
    .appendEntries
      ⟨1, 1, some 1, some 1, [⟨1, 2, some (), 1, false⟩, ⟨1, 3, some (), 2, false⟩], 2⟩,
    .becomeLeader, .start (), .installSnapshot ⟨2, 1, 3, 1, 2, some ()⟩, .crash]

/-- The shape of the log after entries, snapshots of both kinds, leading and a crash. -/
theorem log_shape_longLife : ∃ rf : Raft 3 Unit Unit, (Raft.make 0 {}).after longLife = rf ∧
    rf.lastIncludedIndex = 3 ∧ rf.logs.length = 3 ∧
    (∀ k e, rf.logs[k]? = some e → e.logIndex = rf.lastIncludedIndex + k) ∧
    ∀ e, rf.logs[0]? = some e → e.logTerm = rf.lastIncludedTerm := by
  have hfits : Raft.Throughout (fun rf op => Operation.Fits rf op) (Raft.make 0 {}) longLife := by
    refine ⟨fun prev hprev => ?_, trivial, fun prev hprev => ?_, trivial, trivial, trivial, trivial,
      trivial⟩
    · obtain rfl : 0 = prev := Option.some.inj hprev
      exact ⟨rfl, fun _ => rfl⟩
    · obtain rfl : 1 = prev := Option.some.inj hprev
      exact ⟨rfl, fun _ => rfl⟩
  exact ⟨_, rfl, by decide +kernel, by decide +kernel, (log_shape 0 hfits rfl).2⟩

end Mit6824
