import Mit6824.Raft.LeaderPtr
import Mit6824.Raft.Elections

set_option autoImplicit false

/-!
# Who replicates

A `HeartBeatToServer` goroutine checks the role in one critical section, builds its request in a
second one and handles the reply in a third one. The second section does not look at the role
again, and the third one only compares terms. Here is when this is enough: a server that stops
leading does so at a moment when no such goroutine relies on its leadership.

## Main definitions

* `Mit6824.BeatState.Busy` — a goroutine that goes on as if its server led term `t`.
* `Mit6824.Node.demoting`, `Mit6824.LeadFresh` — an input that makes the server a follower, and
  the condition that no goroutine of a leader is busy then.
* `Mit6824.Node.Covered` — busy goroutines belong to leaders.
* `Mit6824.Posted` — the messages of a server, each with the goroutine that sends it.

## Main results

* `Mit6824.Node.exec_covered` — every input keeps the goroutines covered.
* `Mit6824.Node.posted_of_exec` — every message of an input is of this kind.
* `Mit6824.only_leader_replicates` — requests are built by elected leaders, and `leaderPtr` is
  never read while it is nil.

## Design

The condition is about single steps, as those of `Mit6824.Raft.Runs`. A goroutine that waits for
a reply is busy only for the term of its request, so a leader that steps down for a higher term
need not wait for replies; a goroutine between its check and its request is busy for every term.
-/

namespace Mit6824

variable {n : ℕ} {Cmd Snap : Type}

/-! ## Goroutines that rely on leadership -/

/-- The goroutine goes on as if its server led term `t`: it has passed the role check and builds
its request next, or it waits for the reply to a request of that term. -/
def BeatState.Busy (t : ℕ) : BeatState n Cmd Snap → Prop
  | .top => False
  | .append => True
  | .install => True
  | .waitAppend args => args.leaderTerm = t
  | .waitInstall args => args.term = t

instance (t : ℕ) : (s : BeatState n Cmd Snap) → Decidable (s.Busy t)
  | .top => inferInstanceAs (Decidable False)
  | .append => inferInstanceAs (Decidable True)
  | .install => inferInstanceAs (Decidable True)
  | .waitAppend args => inferInstanceAs (Decidable (args.leaderTerm = t))
  | .waitInstall args => inferInstanceAs (Decidable (args.term = t))

/-- The term of the request the goroutine waits for. -/
def BeatState.sentTerm : BeatState n Cmd Snap → Option ℕ
  | .waitAppend args => some args.leaderTerm
  | .waitInstall args => some args.term
  | _ => none

/-- The term in which an input makes the server a follower. -/
def Node.demoting (nd : Node n Cmd Snap) : Input n Cmd Snap → Option ℕ
  | .act (.stepDown k) => (nd.elections[k]?).bind Election.stepDown
  | .recv (.requestVote _ args) _ =>
      if nd.rf.currentTerm < args.candicateTerm then some args.candicateTerm else none
  | .recv (.appendEntries _ args) _ =>
      if args.leaderTerm < nd.rf.currentTerm then none else some args.leaderTerm
  | .recv (.appendEntriesReply _ args reply) _ =>
      if reply.success = false ∧ args.leaderTerm < reply.followerTerm then some reply.followerTerm
      else none
  | .recv (.installSnapshot _ args) _ =>
      if nd.rf.currentTerm < args.term then some args.term else none
  | .recv (.installSnapshotReply _ args reply) _ =>
      if nd.rf.currentTerm = args.term ∧ nd.rf.currentTerm < reply.term then some reply.term
      else none
  | _ => none

/-- When a leader becomes a follower, no goroutine relies on its leadership. -/
def LeadFresh (nd : Node n Cmd Snap) (inp : Input n Cmd Snap) : Prop :=
  ∀ t ∈ nd.demoting inp, nd.rf.role = .leader → ∀ bt ∈ nd.beats, ¬ bt.state.Busy t

instance (nd : Node n Cmd Snap) (inp : Input n Cmd Snap) : Decidable (LeadFresh nd inp) :=
  inferInstanceAs (Decidable (∀ t ∈ nd.demoting inp, _))

/-- Busy goroutines belong to leaders, and no goroutine waits for a reply in a term ahead. -/
def Covered (role : Role) (term : ℕ) (beats : List (Beat n Cmd Snap)) : Prop :=
  ∀ bt ∈ beats, (bt.state.Busy term → role = .leader) ∧ ∀ t ∈ bt.state.sentTerm, t ≤ term

/-- The goroutines of a server are covered. -/
def Node.Covered (nd : Node n Cmd Snap) : Prop :=
  Mit6824.Covered nd.rf.role nd.rf.currentTerm nd.beats

section Covered

variable {role role' : Role} {term t : ℕ} {beats beats' : List (Beat n Cmd Snap)}

/-- A busy goroutine is busy for every earlier term that its request is not ahead of. -/
lemma BeatState.Busy.of_le {s : BeatState n Cmd Snap} (hb : s.Busy t) (hle : term ≤ t)
    (hsent : ∀ t ∈ s.sentTerm, t ≤ term) : s.Busy term := by
  cases s with
  | top => exact hb
  | append => trivial
  | install => trivial
  | waitAppend args =>
    have hterm : args.leaderTerm ≤ term := hsent _ rfl
    have heq : args.leaderTerm = t := hb
    exact le_antisymm hterm (heq ▸ hle)
  | waitInstall args =>
    have hterm : args.term ≤ term := hsent _ rfl
    have heq : args.term = t := hb
    exact le_antisymm hterm (heq ▸ hle)

/-- Goroutines that were covered already, or that are not busy and wait for nothing. -/
lemma Covered.subset (h : Covered role term beats)
    (hsub : ∀ bt ∈ beats', bt ∈ beats ∨ bt.state = .top) : Covered role term beats' := by
  intro bt hbt
  rcases hsub bt hbt with hold | htop
  · exact h bt hold
  · rw [htop]
    exact ⟨False.elim, fun t ht => by cases ht⟩

/-- A server that does not lead can go to any later term in any role. -/
lemma Covered.raise (h : Covered role term beats) (hrole : role ≠ .leader) (hle : term ≤ t) :
    Covered role' t beats := by
  intro bt hbt
  obtain ⟨hbusy, hsent⟩ := h bt hbt
  exact ⟨fun hb => absurd (hbusy (hb.of_le hle hsent)) hrole,
    fun t' ht' => (hsent t' ht').trans hle⟩

/-- A leader can become a follower when none of its goroutines is busy for the new term. -/
lemma Covered.follow (h : Covered role term beats) (hle : term ≤ t)
    (hfresh : role = .leader → ∀ bt ∈ beats, ¬ bt.state.Busy t) :
    Covered .follower t beats := by
  by_cases hrole : role = .leader
  · intro bt hbt
    exact ⟨fun hb => absurd hb (hfresh hrole bt hbt),
      fun t' ht' => ((h bt hbt).2 t' ht').trans hle⟩
  · exact h.raise hrole hle

/-- A new leader covers everything. -/
lemma Covered.lead (h : Covered role term beats) : Covered .leader term beats :=
  fun bt hbt => ⟨fun _ => rfl, (h bt hbt).2⟩

/-- A leader's goroutine moves on, and sends in the present term if it sends. -/
lemma Covered.modify (h : Covered role term beats) (hrole : role = .leader) {b : ℕ}
    {s : BeatState n Cmd Snap} (hs : ∀ t ∈ s.sentTerm, t = term) :
    Covered role term (beats.modify b fun bt => { bt with state := s }) := by
  intro bt hbt
  obtain ⟨j, hj⟩ := List.getElem?_of_mem hbt
  rw [List.getElem?_modify] at hj
  obtain ⟨a, ha, rfl⟩ := Option.map_eq_some_iff.mp hj
  refine ⟨fun _ => hrole, ?_⟩
  split_ifs
  · exact fun t ht => (hs t ht).le
  · exact (h a (List.mem_of_getElem? ha)).2

end Covered

/-! ## Every input keeps the goroutines covered -/

namespace Node

variable {nd nd₀ : Node n Cmd Snap} {inp : Input n Cmd Snap} {α : Type}

/-- A server that starts again has no heartbeat goroutines and leads nothing. -/
lemma covered_restart (nd : Node n Cmd Snap) : nd.restart.Covered :=
  fun bt hbt => by simp [restart] at hbt

/-- A panic restarts the server, so only the case that the section finishes is left. -/
lemma covered_critical {o : Outcome n Cmd Snap α} {k : Node n Cmd Snap → α → Effect n Cmd Snap}
    (h : ∀ rf a, o = .ok rf a → (k (nd₀.setRaft rf) a).node.Covered) :
    (finish (critical nd₀ o k)).node.Covered := by
  cases o with
  | ok rf a => exact h rf a rfl
  | panic p rf => exact covered_restart _

/-- A section that may make the server a follower, after which its goroutines are where they
were or at the top of their loop.

**Proof sketch.** If the server becomes a follower, no goroutine relies on its leadership, by
assumption. Otherwise role and term are the same. -/
lemma covered_critical_follow {o : Outcome n Cmd Snap α}
    {k : Node n Cmd Snap → α → Effect n Cmd Snap} {p : Prop} [Decidable p] {t : ℕ}
    (h : nd.Covered) (hL : LeadFresh nd inp)
    (hv : o.state.view = if p then nd.rf.followed t else nd.rf.view)
    (ht : p → t ∈ nd.demoting inp ∧ nd.rf.currentTerm ≤ t)
    (hk : ∀ nd' a, (k nd' a).node.rf = nd'.rf ∧
      ∀ bt ∈ (k nd' a).node.beats, bt ∈ nd'.beats ∨ bt.state = .top) :
    (finish (critical nd o k)).node.Covered := by
  refine covered_critical fun rf a ho => ?_
  obtain ⟨hrf, hbeats⟩ := hk (nd.setRaft rf) a
  subst ho
  unfold Node.Covered
  rw [hrf]
  refine Covered.subset ?_ hbeats
  change Mit6824.Covered rf.role rf.currentTerm nd.beats
  simp only [Outcome.state_ok] at hv
  split_ifs at hv with hp
  · simp only [Raft.view, Raft.followed, View.mk.injEq] at hv
    obtain ⟨-, hterm, -, hrole⟩ := hv
    obtain ⟨hmem, hle⟩ := ht hp
    rw [hterm, hrole]
    exact h.follow hle (hL t hmem)
  · simp only [Raft.view, View.mk.injEq] at hv
    obtain ⟨-, hterm, -, hrole⟩ := hv
    rw [hterm, hrole]
    exact h

/-- A section that leaves term and role alone. -/
lemma covered_critical_keep {o : Outcome n Cmd Snap α}
    {k : Node n Cmd Snap → α → Effect n Cmd Snap} (h : nd.Covered)
    (hbeats₀ : nd₀.beats = nd.beats) (hv : o.state.view = nd.rf.view)
    (hk : ∀ nd' a, (k nd' a).node.rf = nd'.rf ∧ (k nd' a).node.beats = nd'.beats) :
    (finish (critical nd₀ o k)).node.Covered := by
  refine covered_critical fun rf a ho => ?_
  obtain ⟨hrf, hbeats⟩ := hk (nd₀.setRaft rf) a
  subst ho
  simp only [Outcome.state_ok, Raft.view, View.mk.injEq] at hv
  obtain ⟨-, hterm, -, hrole⟩ := hv
  unfold Node.Covered
  rw [hrf, hbeats]
  change Mit6824.Covered rf.role rf.currentTerm nd₀.beats
  rw [hterm, hrole, hbeats₀]
  exact h

/-- A turn of `StartElection` raises the term of a server that does not lead. -/
lemma covered_turn (h : nd.Covered) (h₀ : nd₀.rf = nd.rf) (hbeats₀ : nd₀.beats = nd.beats) :
    (finish nd₀.turn).node.Covered := by
  unfold turn
  refine covered_critical fun rf a ho => ?_
  have hstate := congrArg Outcome.state ho
  rw [h₀, Raft.state_startElection, Outcome.state_ok] at hstate
  have hcov : Mit6824.Covered rf.role rf.currentTerm nd₀.beats := by
    rw [← hstate, hbeats₀]
    split_ifs with hl
    · exact h
    · exact h.raise hl (Nat.le_succ _)
  cases a <;> exact hcov

/-- A goroutine that goes back to the top of its loop. -/
lemma of_mem_setBeat_top {b : ℕ} {bt : Beat n Cmd Snap} (h : bt ∈ (nd.setBeat b .top).beats) :
    bt ∈ nd.beats ∨ bt.state = .top := by
  obtain ⟨j, hj⟩ := List.getElem?_of_mem h
  rw [setBeat, List.getElem?_modify] at hj
  obtain ⟨a, ha, rfl⟩ := Option.map_eq_some_iff.mp hj
  split_ifs
  · exact Or.inr rfl
  · exact Or.inl (List.mem_of_getElem? ha)

/-- The role check of `HeartBeatToServer`: only a leader's goroutine goes on. -/
lemma covered_beat (h : nd.Covered) (b : ℕ) (peer : Fin n) :
    (finish (critical nd (nd.rf.heartBeatToServer peer) (turnBeat b))).node.Covered := by
  refine covered_critical fun rf a ho => ?_
  obtain rfl : rf = nd.rf := by
    rw [← Raft.state_heartBeatToServer nd.rf peer, ho, Outcome.state_ok]
  have hlead : a ≠ .quit → nd.rf.role = .leader := by
    intro ha
    by_contra hrole
    simp only [Raft.heartBeatToServer, if_pos hrole, Outcome.ok.injEq, true_and] at ho
    exact ha ho.symm
  cases a with
  | quit => exact Covered.subset h fun bt hbt => Or.inl ((List.eraseIdx_sublist _ _).subset hbt)
  | append => exact h.modify (hlead (by simp)) (by simp [BeatState.sentTerm])
  | install => exact h.modify (hlead (by simp)) (by simp [BeatState.sentTerm])

/-- The server of a busy goroutine leads. -/
lemma Covered.role_of_busy (h : nd.Covered) {b : ℕ} {bt : Beat n Cmd Snap}
    (hb : nd.beats[b]? = some bt) (hbusy : bt.state.Busy nd.rf.currentTerm) :
    nd.rf.role = .leader :=
  (h bt (List.mem_of_getElem? hb)).1 hbusy

/-- A request of the present term is sent, or there was nothing to send. -/
lemma covered_sendAppend (h : nd.Covered) {b : ℕ} {bt : Beat n Cmd Snap}
    (hb : nd.beats[b]? = some bt) (hs : bt.state = .append) :
    (finish (critical nd (nd.rf.buildAppend bt.peer) (postAppend b bt.peer))).node.Covered := by
  have hrole := h.role_of_busy hb (by rw [hs]; trivial)
  refine covered_critical fun rf a ho => ?_
  obtain rfl : rf = nd.rf := by
    rw [← Raft.state_buildAppend nd.rf bt.peer, ho, Outcome.state_ok]
  cases a with
  | none => exact h.modify hrole (by simp [BeatState.sentTerm])
  | some args =>
    obtain ⟨-, last, l, -, -, ⟨-, rfl⟩ | ⟨prev, -, -, -, rfl⟩⟩ := Raft.buildAppend_eq_some ho
    · exact h.modify hrole (by simp [BeatState.sentTerm])
    · exact h.modify hrole (by simp [BeatState.sentTerm])

variable [DecidableEq Cmd] [DecidableEq Snap]

/-- **Every input keeps the goroutines covered**, if no reply lowers the term and no goroutine
relies on a leader that steps down.

**Proof sketch.** By the transition. Most of them leave role, term and goroutines alone. Those that
may make the server a follower are `covered_critical_follow`; a goroutine that sends a request does
so as a leader, and a new leader has new goroutines at the top of their loops. -/
theorem exec_covered {o : NodeOutcome n Cmd Snap} (h : nd.Covered) (hT : TermFresh nd inp)
    (hL : LeadFresh nd inp) (ho : nd.exec inp = some o) : (finish o).node.Covered := by
  cases trans_of_exec ho with
  | restart => exact covered_restart nd
  | startElection => exact covered_turn h rfl rfl
  | electionTimeout => exact covered_turn h rfl rfl
  | electionQuit => exact h
  | askVote => exact h
  | askNothing => exact h
  | stepDown he ht =>
    have hmem := mem_following_stepDown he ht
    exact Covered.follow h (hT _ hmem) (hL _ hmem)
  | @grantVote g hd =>
    have hview : (nd.rf.requestVoteGrant hd.args).1.role = nd.rf.role ∧
        (nd.rf.requestVoteGrant hd.args).1.currentTerm = nd.rf.currentTerm :=
      Raft.requestVoteGrant_rule
        (P := fun r => r.role = nd.rf.role ∧ r.currentTerm = nd.rf.currentTerm)
        hd.args ⟨rfl, rfl⟩ ⟨rfl, rfl⟩
    change Mit6824.Covered (nd.rf.requestVoteGrant hd.args).1.role
      (nd.rf.requestVoteGrant hd.args).1.currentTerm nd.beats
    rw [hview.1, hview.2]
    exact h
  | beat => exact covered_beat h _ _
  | sendAppend hb hs => exact covered_sendAppend h hb hs
  | sendInstall hb hs =>
    exact h.modify (h.role_of_busy hb (by rw [hs]; trivial))
      (by simp [BeatState.sentTerm, Raft.buildInstall])
  | beatRetry => exact Covered.subset h fun _ hbt => of_mem_setBeat_top hbt
  | start command =>
    exact covered_critical_keep h rfl (Raft.view_start _ _) fun _ _ => ⟨rfl, rfl⟩
  | deliver => exact h
  | capture => exact h
  | takeSnapshot =>
    exact covered_critical_keep h rfl (Raft.view_takeSnapshot _ _ _) fun _ _ => ⟨rfl, rfl⟩
  | requestVote dst args =>
    refine covered_critical_follow h hL (Raft.view_requestVoteCheck _ _)
      (fun hlt => ⟨by simp [demoting, hlt], hlt.le⟩) fun nd' a => ?_
    split_ifs <;> exact ⟨rfl, fun _ => Or.inl⟩
  | win =>
    refine covered_critical fun rf a hok => ?_
    have hv := Raft.view_becomeLeader nd.rf
    simp only [hok, Outcome.state_ok, Raft.view, View.mk.injEq] at hv
    obtain ⟨-, hterm, -, hrole⟩ := hv
    have hlead : Mit6824.Covered rf.role rf.currentTerm nd.beats := by
      rw [hrole, hterm]
      exact Covered.lead h
    refine Covered.subset hlead fun bt hbt => ?_
    rcases List.mem_append.mp hbt with hold | hnew
    · exact Or.inl hold
    · obtain ⟨p, -, rfl⟩ := List.mem_map.mp hnew
      exact Or.inr rfl
  | count => exact h
  | refusal => exact h
  | appendEntries dst args =>
    refine covered_critical_follow (p := ¬ args.leaderTerm < nd.rf.currentTerm) h hL ?_
      (fun hlt => ⟨by simp [demoting, hlt], not_lt.mp hlt⟩) fun _ _ => ⟨rfl, fun _ => Or.inl⟩
    rw [Raft.view_appendEntries, ite_not]
  | appendReply reply =>
    refine covered_critical_follow h hL (Raft.view_appendReply _ _ _ _)
      (fun hc => ⟨by simp [demoting, hc], hT _ (by simp [following, hc])⟩)
      fun _ _ => ⟨rfl, fun _ hbt => of_mem_setBeat_top hbt⟩
  | installSnapshot dst args =>
    exact covered_critical_follow h hL (Raft.view_installSnapshot _ _)
      (fun hlt => ⟨by simp [demoting, hlt], hlt.le⟩) fun _ _ => ⟨rfl, fun _ => Or.inl⟩
  | installReply reply =>
    exact covered_critical_follow h hL (Raft.view_installReply _ _ _ _)
      (fun hc => ⟨by simp only [demoting, if_pos hc, Option.mem_def], hc.2.le⟩)
      fun _ _ => ⟨rfl, fun _ hbt => of_mem_setBeat_top hbt⟩

end Node

/-! ## Requests and nil accesses -/

/-- Term and sender of a request that replicates. -/
def Msg.replicating : Msg n Cmd Snap → Option (ℕ × Fin n)
  | .appendEntries _ args => some (args.leaderTerm, args.leaderId)
  | .installSnapshot _ args => some (args.term, args.leaderId)
  | _ => none

/-- The panic of an input. -/
def NodeOutcome.fault : NodeOutcome n Cmd Snap → Option Panic
  | .ok _ => none
  | .panic p _ => some p

/-- The messages of a server: a request that one of its goroutines is about to make, or a reply. -/
inductive Posted (nd : Node n Cmd Snap) : Msg n Cmd Snap → Prop
  | vote (e : Election n) (he : e ∈ nd.elections) (peer : Fin n) (hw : peer ∈ e.waiting) :
      Posted nd (.requestVote peer e.args)
  | append (b : ℕ) {bt : Beat n Cmd Snap} (hb : nd.beats[b]? = some bt) (hs : bt.state = .append)
      (rf : Raft n Cmd Snap) (args : AppendEntriesArgs n Cmd)
      (h : nd.rf.buildAppend bt.peer = .ok rf (some args)) :
      Posted nd (.appendEntries bt.peer args)
  | install (b : ℕ) {bt : Beat n Cmd Snap} (hb : nd.beats[b]? = some bt)
      (hs : bt.state = .install) : Posted nd (.installSnapshot bt.peer nd.rf.buildInstall)
  | voted (src : Fin n) (args : RequestVoteArgs n) (reply : RequestVoteReply) :
      Posted nd (.requestVoteReply src args reply)
  | appended (src : Fin n) (args : AppendEntriesArgs n Cmd) (reply : AppendEntriesReply) :
      Posted nd (.appendEntriesReply src args reply)
  | installed (src : Fin n) (args : InstallSnapshotArgs n Snap) (reply : InstallSnapshotReply) :
      Posted nd (.installSnapshotReply src args reply)

namespace Node

variable {nd nd₀ : Node n Cmd Snap} {inp : Input n Cmd Snap} {α : Type}

/-- A section that reads no nil pointer does not panic at one. -/
lemma fault_critical {o : Outcome n Cmd Snap α} {k : Node n Cmd Snap → α → Effect n Cmd Snap}
    (h : o.NilFree) : (critical nd₀ o k).fault ≠ some .nilPointer := by
  cases o with
  | ok rf a => simp [critical, NodeOutcome.fault]
  | panic p rf =>
    simp only [critical, NodeOutcome.fault, ne_eq, Option.some.injEq]
    rintro rfl
    exact h rf rfl

/-- What a section sends when it finishes. -/
lemma posted_critical {o : Outcome n Cmd Snap α} {k : Node n Cmd Snap → α → Effect n Cmd Snap}
    (hk : ∀ rf a, o = .ok rf a → ∀ m ∈ (k (nd₀.setRaft rf) a).sends, Posted nd m) :
    ∀ m ∈ (finish (critical nd₀ o k)).sends, Posted nd m := by
  intro m hm
  cases o with
  | ok rf a => exact hk rf a rfl m hm
  | panic p rf => simp [critical, finish] at hm

/-- A turn of `StartElection` sends nothing yet. -/
lemma posted_turn : ∀ m ∈ (finish nd₀.turn).sends, Posted nd m := by
  refine posted_critical fun rf a _ m hm => ?_
  cases a <;> simp [askPeers] at hm

variable [DecidableEq Cmd] [DecidableEq Snap] {o : NodeOutcome n Cmd Snap}

/-- A covered server never reads `leaderPtr` while it is nil.

**Proof sketch.** By the transition. Only three sections read `leaderPtr` without looking at the
role: those after a goroutine has decided to send, and those of the two replies. In all of them the
goroutine relies on the leadership, so the server leads. -/
theorem fault_exec (h : nd.Covered) (hled : nd.rf.Led) (ho : nd.exec inp = some o) :
    o.fault ≠ some .nilPointer := by
  have hok : ∀ eff : Effect n Cmd Snap, (NodeOutcome.ok eff).fault ≠ some .nilPointer :=
    fun eff => by simp [NodeOutcome.fault]
  cases trans_of_exec ho with
  | restart => exact hok _
  | startElection => exact fault_critical (Raft.nilFree_startElection _)
  | electionTimeout => exact fault_critical (Raft.nilFree_startElection _)
  | electionQuit => exact hok _
  | askVote => exact hok _
  | askNothing => exact hok _
  | stepDown => exact hok _
  | grantVote => exact hok _
  | beat => exact fault_critical (hled.nilFree_heartBeatToServer _)
  | sendAppend hb hs =>
    have hrole := h.role_of_busy hb (by rw [hs]; trivial)
    exact fault_critical (Raft.nilFree_buildAppend (hled.mp hrole))
  | sendInstall => exact hok _
  | beatRetry => exact hok _
  | start => exact fault_critical (Raft.nilFree_start _ _)
  | deliver => exact hok _
  | capture => exact hok _
  | takeSnapshot => exact fault_critical (Raft.nilFree_takeSnapshot _ _ _)
  | requestVote => exact fault_critical (Raft.nilFree_requestVoteCheck _ _)
  | win => exact fault_critical (Raft.nilFree_becomeLeader _)
  | count => exact hok _
  | refusal => exact hok _
  | appendEntries => exact fault_critical (Raft.nilFree_appendEntries _ _)
  | appendReply reply hb =>
    exact fault_critical (Raft.nilFree_appendReply
      (fun hterm => hled.mp (h.role_of_busy hb hterm)) reply)
  | installSnapshot => exact fault_critical (Raft.nilFree_installSnapshot _ _)
  | installReply reply hb =>
    exact fault_critical (Raft.nilFree_installReply
      (fun hterm => hled.mp (h.role_of_busy hb hterm)) reply)

/-- **Who sends what**: every message is a request of a goroutine or a reply.

**Proof sketch.** By the transition; each sends one message at most, and it is built in this case.
-/
theorem posted_of_exec (ho : nd.exec inp = some o) : ∀ m ∈ (finish o).sends, Posted nd m := by
  intro m hm
  cases trans_of_exec ho with
  | restart => simp [finish] at hm
  | startElection => exact posted_turn m hm
  | electionTimeout => exact posted_turn m hm
  | electionQuit => simp [finish] at hm
  | askVote he hw =>
    obtain rfl := List.mem_singleton.mp hm
    exact .vote _ (List.mem_of_getElem? he) _ hw
  | askNothing => simp [finish] at hm
  | stepDown => simp [finish] at hm
  | grantVote =>
    obtain rfl := List.mem_singleton.mp hm
    exact .voted _ _ _
  | beat =>
    refine posted_critical (fun rf a _ m hm => ?_) m hm
    cases a <;> simp [turnBeat] at hm
  | sendAppend hb hs =>
    refine posted_critical (fun rf a hok m hm => ?_) m hm
    cases a with
    | none => simp [postAppend] at hm
    | some args =>
      obtain rfl := List.mem_singleton.mp hm
      exact .append _ hb hs rf args hok
  | sendInstall hb hs =>
    obtain rfl := List.mem_singleton.mp hm
    exact .install _ hb hs
  | beatRetry => simp [finish] at hm
  | start => exact posted_critical (fun rf a _ m hm => by simp at hm) m hm
  | deliver => simp [finish] at hm
  | capture => simp [finish] at hm
  | takeSnapshot => exact posted_critical (fun rf a _ m hm => by simp at hm) m hm
  | requestVote =>
    refine posted_critical (fun rf a _ m hm => ?_) m hm
    split_ifs at hm
    · simp at hm
    · obtain rfl := List.mem_singleton.mp hm
      exact .voted _ _ _
  | win => exact posted_critical (fun rf a _ m hm => by simp at hm) m hm
  | count => simp [finish] at hm
  | refusal => simp [finish] at hm
  | appendEntries =>
    refine posted_critical (fun rf a _ m hm => ?_) m hm
    obtain rfl := List.mem_singleton.mp hm
    exact .appended _ _ _
  | appendReply => exact posted_critical (fun rf a _ m hm => by simp at hm) m hm
  | installSnapshot =>
    refine posted_critical (fun rf a _ m hm => ?_) m hm
    obtain rfl := List.mem_singleton.mp hm
    exact .installed _ _ _
  | installReply => exact posted_critical (fun rf a _ m hm => by simp at hm) m hm

/-- A covered server replicates only as a leader, in its own name and its present term.

**Proof sketch.** By who sends what (`posted_of_exec`): only a busy goroutine replicates, and while
one is busy the server leads. -/
theorem replicating_exec (h : nd.Covered) (ho : nd.exec inp = some o) {m : Msg n Cmd Snap}
    (hm : m ∈ (finish o).sends) {x : ℕ × Fin n} (hx : x ∈ m.replicating) :
    nd.rf.role = .leader ∧ x = (nd.rf.currentTerm, nd.rf.me) := by
  cases posted_of_exec ho m hm with
  | vote => cases hx
  | append b hb hs rf args hok =>
    have hrole := h.role_of_busy hb (by rw [hs]; trivial)
    obtain rfl : (args.leaderTerm, args.leaderId) = x := Option.some.inj hx
    refine ⟨hrole, ?_⟩
    obtain ⟨-, last, l, -, -, ⟨-, rfl⟩ | ⟨prev, -, -, -, rfl⟩⟩ := Raft.buildAppend_eq_some hok
    · rfl
    · rfl
  | install b hb hs =>
    have hrole := h.role_of_busy hb (by rw [hs]; trivial)
    exact ⟨hrole, (Option.some.inj hx).symm⟩
  | voted => cases hx
  | appended => cases hx
  | installed => cases hx

end Node

/-! ## Runs -/

/-- The conditions under which only elected leaders replicate. -/
def ReplicationFresh (nd : Node n Cmd Snap) (inp : Input n Cmd Snap) : Prop :=
  TermFresh nd inp ∧ WinFresh nd inp ∧ LeadFresh nd inp

instance (nd : Node n Cmd Snap) (inp : Input n Cmd Snap) : Decidable (ReplicationFresh nd inp) :=
  inferInstanceAs (Decidable (_ ∧ _ ∧ _))

section Runs

variable [DecidableEq Cmd] [DecidableEq Snap] {c : Cluster n Cmd Snap}

/-- In every run `leaderPtr` goes with the role. -/
lemma led_of_run {P : Node n Cmd Snap → Input n Cmd Snap → Prop} (h : Run P Cluster.init c)
    (i : Fin n) : (c.nodes i).rf.Led :=
  forall_node_of_run (I := fun nd => nd.rf.Led) h (fun i => Raft.led_make i {})
    (fun _ _ _ _ hled _ ho => (Node.exec_handled ho).led hled) i

/-- In every run of fresh replication steps the heartbeat goroutines belong to leaders. -/
lemma covered_of_run (h : Run (fun nd inp => ReplicationFresh nd inp) Cluster.init c) (i : Fin n) :
    (c.nodes i).Covered :=
  forall_node_of_run (I := fun nd => nd.Covered) h (fun i bt hbt => by simp [Node.init] at hbt)
    (fun _ _ _ _ hcov hP ho => Node.exec_covered hcov hP.1 hP.2.2 ho) i

/-- **Only a leader replicates.** When no reply lowers a term, wins are fresh, and no goroutine
relies on a leader that steps down, whatever any server does next: an `AppendEntries` or
`InstallSnapshot` request it sends is built by a leader, in its own name and in its present term,
for which a majority has voted for it; and `leaderPtr` is not read while it is nil.

**Proof sketch.** Along the run every goroutine that has passed the role check, or waits for a
reply of the present term, belongs to a leader, and `leaderPtr` is set exactly while the server
is leader. The four sections that read it are run by such goroutines. -/
theorem only_leader_replicates (h : Run (fun nd inp => ReplicationFresh nd inp) Cluster.init c)
    {i : Fin n} {inp : Input n Cmd Snap} {o : NodeOutcome n Cmd Snap}
    (ho : (c.nodes i).exec inp = some o) :
    (∀ m ∈ (Node.finish o).sends, ∀ x ∈ m.replicating,
      (c.nodes i).rf.role = .leader ∧ x = ((c.nodes i).rf.currentTerm, i) ∧
      quorumSize n ≤ (c.voters (c.nodes i).rf.currentTerm i).card) ∧
    o.fault ≠ some .nilPointer := by
  have hcov := covered_of_run h i
  have helected := leadersElected_of_run (h.mono fun _ _ hP => hP.2.1)
  refine ⟨fun m hm x hx => ?_, Node.fault_exec hcov (led_of_run h i) ho⟩
  obtain ⟨hrole, rfl⟩ := Node.replicating_exec hcov ho hm hx
  rw [(Elections.of_run h).me i]
  exact ⟨hrole, rfl, helected i hrole⟩

end Runs

/-- The goroutine of leader 0 for server 2 has passed the role check. -/
def checkedBeat : List (Label 3 ℕ ℕ) := splitVote.take 8 ++ [.act 0 (.beat 1)]

/-- Leader 0 of term 1 is about to send its first `AppendEntries`. -/
theorem only_leader_replicates_first : ∃ (c : Cluster 3 ℕ ℕ) (o : NodeOutcome 3 ℕ ℕ),
    Run (fun nd inp => ReplicationFresh nd inp) .init c ∧
    (c.nodes 0).exec (.act (.sendAppend 1)) = some o ∧
    (∃ m ∈ (Node.finish o).sends, (1, 0) ∈ m.replicating) ∧
    (c.nodes 0).rf.role = .leader ∧ 2 ≤ (c.voters 1 0).card ∧
    o.fault ≠ some .nilPointer := by
  obtain ⟨c, hrun, hsome⟩ : ∃ c : Cluster 3 ℕ ℕ,
      Run (fun nd inp => ReplicationFresh nd inp) .init c ∧
      ∃ o ∈ (c.nodes 0).exec (.act (.sendAppend 1)),
        ∃ m ∈ (Node.finish o).sends, (1, 0) ∈ m.replicating :=
    Run.exists_of_stepsIf checkedBeat (by decide +kernel)
  obtain ⟨o, ho, m, hm, hx⟩ := hsome
  obtain ⟨hsends, hfault⟩ := only_leader_replicates hrun ho
  obtain ⟨hrole, hterm, hq⟩ := hsends m hm (1, 0) hx
  rw [← (Prod.mk.inj hterm).1] at hq
  exact ⟨c, o, hrun, ho, ⟨m, hm, hx⟩, hrole, hq, hfault⟩

/-- A vote request of server 1 for term 2 then makes server 0 a follower. -/
def demotedBeat : List (Label 3 ℕ ℕ) :=
  checkedBeat ++ [.act 1 .startElection, .act 1 (.askVote 1 0), .recv 0 0]

/-- Leader 0 commits a command with server 2 and takes a snapshot. Its goroutine for server 1,
which has no entry yet, passes the role check; then the same vote request arrives. -/
def demotedInstall : List (Label 3 ℕ ℕ) :=
  splitVote.take 8 ++ [.act 0 (.start 7), .act 0 (.beat 1), .act 0 (.sendAppend 1), .recv 0 0,
    .recv 0 1, .act 0 .deliver, .act 0 .deliver, .act 0 (.capture 9),
    .act 0 .takeSnapshot, .act 0 (.beat 0), .act 1 .startElection, .act 1 (.askVote 1 0),
    .recv 0 0]

/-- Without the condition a follower reads the nil `leaderPtr`, and a follower sends a snapshot
in a term in which nobody voted for it. -/
theorem follower_replicates : (∃ c : Cluster 3 ℕ ℕ, Cluster.init.steps demotedBeat = some c ∧
      (c.nodes 0).rf.role = .follower ∧
      ∃ o ∈ (c.nodes 0).exec (.act (.sendAppend 1)), o.fault = some .nilPointer) ∧
    ∃ c : Cluster 3 ℕ ℕ, Cluster.init.steps demotedInstall = some c ∧
      (c.nodes 0).rf.role = .follower ∧ c.voters 2 0 = ∅ ∧
      ∃ o ∈ (c.nodes 0).exec (.act (.sendInstall 0)),
        ∃ m ∈ (Node.finish o).sends, (2, 0) ∈ m.replicating :=
  ⟨Cluster.exists_of_steps demotedBeat (by decide +kernel),
    Cluster.exists_of_steps demotedInstall (by decide +kernel)⟩

end Mit6824
