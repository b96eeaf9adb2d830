import Mit6824.Raft.View
import Mit6824.Raft.Transitions

set_option autoImplicit false

/-!
# What one input does to the Raft state, the elections and the network

The Raft state after an input is the end of one critical section, possibly restarted; every
message sent has one of seven reasons; and every election of the server afterwards is an old
one, one with a vote more, or a new one.

## Main definitions

* `Mit6824.Section`, `Mit6824.Sent`, `Mit6824.Election.After` — the cases.
* `Mit6824.Handled` — all three for one input.

## Main results

* `Mit6824.Node.exec_handled` — every input is handled so.
-/

namespace Mit6824

variable {n : ℕ} {Cmd Snap : Type}

/-- The Raft states at the end of the critical section that an input runs. -/
inductive Section (nd : Node n Cmd Snap) : Input n Cmd Snap → Raft n Cmd Snap → Prop
  | none (inp : Input n Cmd Snap) : Section nd inp nd.rf
  | startElection (inp : Input n Cmd Snap) : Section nd inp nd.rf.startElection.state
  | stepDown (k t : ℕ) (h : t ∈ nd.following (.act (.stepDown k))) :
      Section nd (.act (.stepDown k)) (nd.rf.becomeFollower t)
  | grantVote (h : ℕ) (args : RequestVoteArgs n) :
      Section nd (.act (.grantVote h)) (nd.rf.requestVoteGrant args).1
  | start (command : Cmd) : Section nd (.act (.start command)) (nd.rf.start command).state
  | takeSnapshot (snapshot : Snap) (k : ℕ) (h : nd.captured = some (snapshot, k)) :
      Section nd (.act .takeSnapshot) (nd.rf.takeSnapshot (some snapshot) k).state
  | requestVote (dst : Fin n) (args : RequestVoteArgs n) (g : ℕ) :
      Section nd (.recv (.requestVote dst args) g) (nd.rf.requestVoteCheck args).state
  | becomeLeader (src : Fin n) (args : RequestVoteArgs n) (reply : RequestVoteReply) (k : ℕ) :
      Section nd (.recv (.requestVoteReply src args reply) k) nd.rf.becomeLeader.state
  | appendEntries (dst : Fin n) (args : AppendEntriesArgs n Cmd) (g : ℕ) :
      Section nd (.recv (.appendEntries dst args) g) (nd.rf.appendEntries args).state
  | appendReply (src : Fin n) (args : AppendEntriesArgs n Cmd) (reply : AppendEntriesReply)
      (g : ℕ) : Section nd (.recv (.appendEntriesReply src args reply) g)
        (nd.rf.appendReply src args reply).state
  | installSnapshot (dst : Fin n) (args : InstallSnapshotArgs n Snap) (g : ℕ) :
      Section nd (.recv (.installSnapshot dst args) g) (nd.rf.installSnapshot args).state
  | installReply (src : Fin n) (args : InstallSnapshotArgs n Snap) (reply : InstallSnapshotReply)
      (g : ℕ) : Section nd (.recv (.installSnapshotReply src args reply) g)
        (nd.rf.installReply src args reply).state

/-- The messages a server sends, with the reason. -/
inductive Sent (nd : Node n Cmd Snap) (nd' : Node n Cmd Snap) : Msg n Cmd Snap → Prop
  | requestVote (peer : Fin n) (e : Election n) (he : e ∈ nd.elections) :
      Sent nd nd' (.requestVote peer e.args)
  | refused (args : RequestVoteArgs n) (t : ℕ) (src : Fin n) :
      Sent nd nd' (.requestVoteReply src args ⟨t, false⟩)
  | granted (hd : VoteHandler n) (t : ℕ)
      (h : (hd.args.candicateTerm, hd.args.candicateId) ∈ nd'.votes) :
      Sent nd nd' (.requestVoteReply nd.rf.me hd.args ⟨t, true⟩)
  | append (bt : Beat n Cmd Snap) (hb : bt ∈ nd.beats) (args : AppendEntriesArgs n Cmd)
      (h : nd.rf.buildAppend bt.peer = .ok nd.rf (some args)) (hrf : nd'.rf = nd.rf) :
      Sent nd nd' (.appendEntries bt.peer args)
  | appended (src : Fin n) (args : AppendEntriesArgs n Cmd) (reply : AppendEntriesReply) :
      Sent nd nd' (.appendEntriesReply src args reply)
  | install (bt : Beat n Cmd Snap) (hb : bt ∈ nd.beats) :
      Sent nd nd' (.installSnapshot bt.peer nd.rf.buildInstall)
  | installed (src : Fin n) (args : InstallSnapshotArgs n Snap) (reply : InstallSnapshotReply) :
      Sent nd nd' (.installSnapshotReply src args reply)

/-- The elections of a server after an input. -/
inductive Election.After (nd : Node n Cmd Snap) (nd' : Node n Cmd Snap) :
    Input n Cmd Snap → Election n → Prop
  | old (inp : Input n Cmd Snap) (e e' : Election n) (he : e ∈ nd.elections)
      (hargs : e'.args = e.args) (hw : e'.waiting.Sublist e.waiting)
      (hg : e'.getVote = e.getVote) : Election.After nd nd' inp e'
  | counted (k : ℕ) (src : Fin n) (reply : RequestVoteReply) (e e' : Election n)
      (he : e ∈ nd.elections) (hsrc : src ∈ e.waiting) (hr : reply.voteGranted = true)
      (hargs : e'.args = e.args) (hw : e'.waiting = e.waiting.erase src)
      (hg : e'.getVote = e.getVote + 1) :
      Election.After nd nd' (.recv (.requestVoteReply src e.args reply) k) e'
  | new (inp : Input n Cmd Snap) (e' : Election n) (hid : e'.args.candicateId = nd.rf.me)
      (hv : (e'.args.candicateTerm, nd.rf.me) ∈ nd'.votes) (hw : e'.waiting = nd.peers)
      (hg : e'.getVote = 1) : Election.After nd nd' inp e'

/-- All that is said here about the effect of an input. -/
structure Handled (nd : Node n Cmd Snap) (inp : Input n Cmd Snap) (eff : Effect n Cmd Snap) :
    Prop where
  raft : ∃ rf, Section nd inp rf ∧ (eff.node.rf = rf ∨ eff.node.rf = Raft.make rf.me rf.persister)
  sent : ∀ m ∈ eff.sends, Sent nd eff.node m
  elections : ∀ e ∈ eff.node.elections, Election.After nd eff.node inp e

section Handled

variable {nd nd₀ : Node n Cmd Snap} {inp : Input n Cmd Snap} {eff : Effect n Cmd Snap}

/-- What the section of an input leaves, and a restart keeps, holds afterwards. -/
lemma Handled.rf_of {P : Raft n Cmd Snap → Prop} (h : Handled nd inp eff)
    (hsec : ∀ rf, Section nd inp rf → P rf)
    (hmake : ∀ rf, Section nd inp rf → P rf → P (Raft.make rf.me rf.persister)) :
    P eff.node.rf := by
  obtain ⟨rf, hrf, he | he⟩ := h.raft <;> rw [he]
  · exact hsec rf hrf
  · exact hmake rf hrf (hsec rf hrf)

/-- Elections that did not change. -/
lemma Election.After.same {nd' : Node n Cmd Snap} (h : nd'.elections = nd.elections) :
    ∀ e ∈ nd'.elections, Election.After nd nd' inp e :=
  fun e he => .old inp e e (h ▸ he) rfl (List.Sublist.refl _) rfl

/-- One election was replaced by a state of it that waits for no more peers. -/
lemma Election.After.replaced {nd' : Node n Cmd Snap} {k : ℕ} {e e' : Election n}
    (hk : nd.elections[k]? = some e) (h : nd'.elections = nd.elections.set k e')
    (hargs : e'.args = e.args) (hw : e'.waiting.Sublist e.waiting) (hg : e'.getVote = e.getVote) :
    ∀ e ∈ nd'.elections, Election.After nd nd' inp e := by
  intro a ha
  rw [h] at ha
  rcases List.mem_or_eq_of_mem_set ha with ha | rfl
  · exact .old inp a a ha rfl (List.Sublist.refl _) rfl
  · exact .old inp e a (List.mem_of_getElem? hk) hargs hw hg

/-- One election counted one more vote. -/
lemma Election.After.voted {nd' : Node n Cmd Snap} {k : ℕ} {src : Fin n} {reply : RequestVoteReply}
    {e e' : Election n} (hk : nd.elections[k]? = some e)
    (h : nd'.elections = nd.elections.set k e') (hsrc : src ∈ e.waiting)
    (hr : reply.voteGranted = true) (hargs : e'.args = e.args)
    (hw : e'.waiting = e.waiting.erase src) (hg : e'.getVote = e.getVote + 1) :
    ∀ a ∈ nd'.elections,
      Election.After nd nd' (.recv (.requestVoteReply src e.args reply) k) a := by
  intro a ha
  rw [h] at ha
  rcases List.mem_or_eq_of_mem_set ha with ha | rfl
  · exact .old _ a a ha rfl (List.Sublist.refl _) rfl
  · exact .counted k src reply e a (List.mem_of_getElem? hk) hsrc hr hargs hw hg

/-- The loop of an election stopped listening. -/
lemma Election.After.stopped {k : ℕ} {e : Election n} (he : e ∈ (nd.stopListening k).elections)
    (nd' : Node n Cmd Snap) : Election.After nd nd' inp e := by
  obtain ⟨j, hj⟩ := List.getElem?_of_mem he
  rw [Node.stopListening, List.getElem?_modify] at hj
  obtain ⟨a, ha, rfl⟩ := Option.map_eq_some_iff.mp hj
  refine .old inp a _ (List.mem_of_getElem? ha) ?_ ?_ ?_
  · split_ifs <;> rfl
  · split_ifs <;> exact List.Sublist.refl _
  · split_ifs <;> rfl

/-- A restarted server. -/
lemma Handled.restart {rf : Raft n Cmd Snap} (h : Section nd inp rf) (h₀ : nd₀.rf = rf) :
    Handled nd inp { node := nd₀.restart } where
  raft := ⟨rf, h, Or.inr (by subst h₀; rfl)⟩
  sent := by simp
  elections := by simp [Node.restart]

/-- A critical section, then code that leaves the Raft state alone. -/
lemma handled_critical {α : Type} {out : Outcome n Cmd Snap α}
    {k : Node n Cmd Snap → α → Effect n Cmd Snap} (h : Section nd inp out.state)
    (hrf : ∀ nd a, (k nd a).node.rf = nd.rf)
    (hsent : ∀ rf a, out = .ok rf a → ∀ m ∈ (k (nd₀.setRaft rf) a).sends,
      Sent nd (k (nd₀.setRaft rf) a).node m)
    (hel : ∀ rf a, out = .ok rf a → ∀ e ∈ (k (nd₀.setRaft rf) a).node.elections,
      Election.After nd (k (nd₀.setRaft rf) a).node inp e) :
    Handled nd inp (Node.finish (Node.critical nd₀ out k)) := by
  cases out with
  | ok rf a => exact ⟨⟨rf, h, Or.inl (hrf _ a)⟩, hsent rf a rfl, hel rf a rfl⟩
  | panic p rf => exact Handled.restart h rfl

/-- An input that runs no critical section and sends nothing. -/
lemma Handled.quiet {nd' : Node n Cmd Snap} (hrf : nd'.rf = nd.rf)
    (hel : ∀ e ∈ nd'.elections, Election.After nd nd' inp e) : Handled nd inp { node := nd' } where
  raft := ⟨nd.rf, .none inp, Or.inl hrf⟩
  sent := by simp
  elections := hel

end Handled

/-- Every critical section leaves nothing unsaved. -/
lemma Section.saved {nd : Node n Cmd Snap} {inp : Input n Cmd Snap} {rf : Raft n Cmd Snap}
    (h : Section nd inp rf) (hs : nd.rf.Saved) : rf.Saved := by
  cases h with
  | none => exact hs
  | startElection => exact hs.startElection
  | stepDown => exact Raft.saved_becomeFollower _ _
  | grantVote => exact hs.requestVoteGrant _
  | start => exact hs.start _
  | takeSnapshot => exact hs.takeSnapshot _ _
  | requestVote => exact hs.requestVoteCheck _
  | becomeLeader => exact hs.becomeLeader
  | appendEntries => exact hs.appendEntries _
  | appendReply => exact hs.appendReply _ _ _
  | installSnapshot => exact hs.installSnapshot _
  | installReply => exact hs.installReply _ _ _

/-! ## All inputs -/

namespace Node

variable {nd : Node n Cmd Snap} {o : NodeOutcome n Cmd Snap}

/-- What a turn of `StartElection` does. -/
lemma turn_handled {inp : Input n Cmd Snap} {nd₀ : Node n Cmd Snap} (h₀ : nd₀.rf = nd.rf)
    (hel : ∀ e ∈ nd₀.elections, ∀ nd', Election.After nd nd' inp e) :
    Handled nd inp (finish nd₀.turn) := by
  unfold turn
  simp only [h₀]
  refine handled_critical (.startElection inp) (fun nd a => by cases a <;> rfl) ?_ ?_
  · intro rf a _
    cases a <;> simp [askPeers]
  · intro rf a hok e he
    cases a with
    | none => exact hel e he _
    | some args =>
      obtain ⟨hrole, last, -, rfl, rfl⟩ := Raft.startElection_eq_some hok
      simp only [askPeers, List.mem_append, List.mem_singleton] at he
      rcases he with he | rfl
      · exact hel e he _
      · refine .new inp _ rfl ?_ rfl rfl
        simp [askPeers, setRaft, hrole]

/-- What the first section of `RequestVote` does. -/
lemma requestVote_handled {dst : Fin n} {args : RequestVoteArgs n} {g : ℕ} :
    Handled nd (.recv (.requestVote dst args) g) (finish (nd.requestVote args)) := by
  refine handled_critical (.requestVote dst args g) ?_ ?_ ?_
  · intro nd a
    split_ifs <;> rfl
  · intro rf a _ m hm
    split_ifs at hm ⊢
    · simp at hm
    · obtain rfl := List.mem_singleton.mp hm
      exact .refused args _ _
  · intro rf a _
    split_ifs <;> exact Election.After.same rfl

/-- What sending an `AppendEntries` request does. -/
lemma sendAppend_handled {inp : Input n Cmd Snap} {b : ℕ} {bt : Beat n Cmd Snap}
    (hb : bt ∈ nd.beats) :
    Handled nd inp (finish (critical nd (nd.rf.buildAppend bt.peer) (postAppend b bt.peer))) := by
  refine handled_critical (by rw [Raft.state_buildAppend]; exact .none inp)
    (fun nd a => by cases a <;> rfl) ?_ ?_
  · intro rf a hok m hm
    cases a with
    | none => simp [postAppend] at hm
    | some args =>
      obtain rfl := List.mem_singleton.mp hm
      obtain rfl : rf = nd.rf := by
        have hst := Raft.state_buildAppend nd.rf bt.peer
        rw [hok] at hst
        exact hst
      exact .append bt hb args hok rfl
  · intro rf a _
    cases a <;> exact Election.After.same rfl

variable [DecidableEq Cmd] [DecidableEq Snap]

/-- **The effect of every input**: one critical section, messages with a reason, and elections
that are old, new or have one more vote.

**Proof sketch.** By the transition. Each has one section or none, its messages are those it builds
in this case, and its elections are the same but for the one that it concerns. -/
theorem exec_handled {inp : Input n Cmd Snap} (ho : nd.exec inp = some o) :
    Handled nd inp (finish o) := by
  cases trans_of_exec ho with
  | restart => exact Handled.restart (.none _) rfl
  | startElection =>
    exact turn_handled rfl fun e he nd' => .old _ e e he rfl (List.Sublist.refl _) rfl
  | electionTimeout => exact turn_handled rfl fun e he nd' => Election.After.stopped he nd'
  | electionQuit => exact Handled.quiet rfl fun e he => Election.After.stopped he _
  | askVote he =>
    refine ⟨⟨_, .none _, Or.inl rfl⟩, fun m hm => ?_, Election.After.same rfl⟩
    obtain rfl := List.mem_singleton.mp hm
    exact .requestVote _ _ (List.mem_of_getElem? he)
  | askNothing he =>
    exact Handled.quiet rfl (Election.After.replaced he rfl rfl List.erase_sublist rfl)
  | stepDown he ht =>
    refine ⟨⟨_, .stepDown _ _ (mem_following_stepDown he ht), Or.inl rfl⟩, by simp [finish],
      fun e he => ?_⟩
    have he' : e ∈ (nd.stopListening _).elections := he
    exact Election.After.stopped he' _
  | @grantVote h hd hh =>
    refine ⟨⟨_, .grantVote h hd.args, Or.inl rfl⟩, fun m hm => ?_, Election.After.same rfl⟩
    obtain rfl := List.mem_singleton.mp hm
    cases hg : (nd.rf.requestVoteGrant hd.args).2 with
    | false => exact .refused hd.args hd.curTerm nd.rf.me
    | true => exact .granted hd hd.curTerm (by simp [finish])
  | beat =>
    refine handled_critical (by rw [Raft.state_heartBeatToServer]; exact .none _)
      (fun nd a => by cases a <;> rfl) (fun rf a _ m hm => ?_) fun rf a _ => ?_
    · cases a <;> simp [turnBeat] at hm
    · cases a <;> exact Election.After.same rfl
  | sendAppend hb => exact sendAppend_handled (List.mem_of_getElem? hb)
  | sendInstall hb =>
    refine ⟨⟨_, .none _, Or.inl rfl⟩, fun m hm => ?_, Election.After.same rfl⟩
    obtain rfl := List.mem_singleton.mp hm
    exact .install _ (List.mem_of_getElem? hb)
  | beatRetry => exact Handled.quiet rfl (Election.After.same rfl)
  | start command =>
    exact handled_critical (.start command) (fun _ _ => rfl) (fun _ _ _ m hm => by simp at hm)
      fun _ _ _ => Election.After.same rfl
  | deliver => exact Handled.quiet rfl (Election.After.same rfl)
  | capture => exact Handled.quiet rfl (Election.After.same rfl)
  | takeSnapshot hcap =>
    exact handled_critical (.takeSnapshot _ _ hcap) (fun _ _ => rfl)
      (fun _ _ _ m hm => by simp at hm) fun _ _ _ => Election.After.same rfl
  | requestVote => exact requestVote_handled
  | win he _ hsrc hw =>
    have hr := (Bool.and_eq_true_iff.mp hw).1
    exact handled_critical (.becomeLeader _ _ _ _) (fun _ _ => rfl)
      (fun _ _ _ m hm => by simp at hm)
      fun _ _ _ => Election.After.voted he rfl hsrc hr rfl rfl rfl
  | count he _ hsrc hg =>
    exact Handled.quiet rfl (Election.After.voted he rfl hsrc hg rfl rfl rfl)
  | refusal _ he =>
    exact Handled.quiet rfl (Election.After.replaced he rfl rfl List.erase_sublist rfl)
  | appendEntries dst args g =>
    refine handled_critical (.appendEntries dst args g) (fun _ _ => rfl)
      (fun rf reply _ m hm => ?_) fun _ _ _ => Election.After.same rfl
    obtain rfl := List.mem_singleton.mp hm
    exact .appended _ args reply
  | appendReply reply =>
    exact handled_critical (.appendReply _ _ reply _) (fun _ _ => rfl)
      (fun _ _ _ m hm => by simp at hm) fun _ _ _ => Election.After.same rfl
  | installSnapshot dst args g =>
    refine handled_critical (.installSnapshot dst args g) (fun _ _ => rfl)
      (fun rf reply _ m hm => ?_) fun _ _ _ => Election.After.same rfl
    obtain rfl := List.mem_singleton.mp hm
    exact .installed _ args reply
  | installReply reply =>
    exact handled_critical (.installReply _ _ reply _) (fun _ _ => rfl)
      (fun _ _ _ m hm => by simp at hm) fun _ _ _ => Election.After.same rfl

end Node

end Mit6824
