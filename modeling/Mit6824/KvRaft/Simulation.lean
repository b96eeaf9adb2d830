import Mit6824.KvRaft.Front

set_option autoImplicit false

/-!
# The Raft cluster keeps its promises to the service

`KvRaft.Service` assumes that the entries of clients are committed in the order of their command
indexes, that each comes from one accepted call, that `Start` returns no command index and term that
an entry has, and that servers are sent the committed entries in order. Here this is proved for the
servers over a Raft cluster whose steps are fresh: every run of them is one of the service.

## Main definitions

* `Mit6824.KvRaft.Bounded` — an accepted call is within the log of the leader that accepted it.
* `Mit6824.KvRaft.Ordered` — leader logs have the entries of each client in the order of its
  numbers.
* `Mit6824.KvRaft.System.Timely` — `Start` is called for the last request of a clerk.
* `Mit6824.KvRaft.Tracks` — the simulation relation.

## Main results

* `Mit6824.KvRaft.System.Backed.follows_of_advance` — the service follows every input of a server.
* `Mit6824.KvRaft.System.Backed.start_call` — the call of `Start`, as the service sees it.
* `Mit6824.KvRaft.Tracks.quiet_step`, `Mit6824.KvRaft.Tracks.front_step` — every step of the system
  is a run of the service, and a step of a handler or a clerk is the same step.
* `Mit6824.KvRaft.System.refines_service` — runs of the system are runs of the service.

## Design

* `timely` is a proposition that switches on what timely calls of `Start` give: then no leader log
  has an operation of a client behind a later one. It is enough to look at the moment of the call,
  since a leader log never changes before its end.
-/

namespace Mit6824

namespace KvRaft

variable {n : ℕ}

/-! ## Accepted calls -/

/-- A call that was accepted in a term is among the entries of that term's leader. -/
def Bounded (calls : List (Call n)) (G : Ghost n ℕ) : Prop :=
  ∀ k : ℕ, ∀ call ∈ calls[k]?, ∀ cmdIndex term, call.op.AcceptedAt cmdIndex term →
    ∃ L, G.st.leaderLog term = some L ∧ cmdIndex ≤ clientEntries L

namespace Bounded

variable {calls calls' : List (Call n)} {G G' : Ghost n ℕ}

/-- Calls stay bounded when no call is accepted that was not. -/
lemma steady (h : Bounded calls G) (hs : Steady calls calls') : Bounded calls' G := by
  intro k call' hcall' cmdIndex term hacc
  obtain ⟨call, hcall, hacc⟩ := hs.back k call' hcall' _ _ hacc
  exact h k call hcall cmdIndex term hacc

/-- Leader logs only grow, so that calls stay bounded. -/
lemma stable (h : Bounded calls G) {q : ℕ → Fin n → Prop} {i : Fin n} (hstep : G.Step q i G') :
    Bounded calls G' := by
  intro k call hcall cmdIndex term hacc
  obtain ⟨L, hL, hle⟩ := h k call hcall cmdIndex term hacc
  obtain ⟨L', hL', hLL'⟩ := hstep.ext.leaderLog_le _ L hL
  exact ⟨L', hL', hle.trans hLL'.sublist.countP_le⟩

end Bounded

/-- An entry whose command index is not new is in the older log. -/
lemma mem_of_commandIndex_le {F L : List (LogEntry ℕ)} (hL : Numbered L) (hF : F <+: L)
    {e : LogEntry ℕ} (he : e ∈ L) (hint : e.isInternalLog = false)
    (hle : e.commandIndex ≤ clientEntries F) : e ∈ F := by
  obtain ⟨rest, rfl⟩ := hF
  obtain ⟨p, hp⟩ := List.getElem?_of_mem he
  rcases Nat.lt_or_ge p F.length with hlt | hge
  · rw [List.getElem?_append_left hlt] at hp
    exact List.mem_of_getElem? hp
  · exfalso
    have hcount := (hL p e hp).2
    have hpre : F <+: (F ++ rest).take p := by
      simpa using List.take_prefix_take_left (l := F ++ rest) hge
    have hmono : clientEntries F ≤ clientEntries ((F ++ rest).take p) := hpre.sublist.countP_le
    have hnext := clientEntries_take_succ hp hint
    omega

/-- In the log of the leader that accepted `call`, an entry of call `k'` comes before the one of
`call`. -/
def Before (G : Ghost n ℕ) (k' : ℕ) (call' call : Call n) : Prop :=
  ∃ cmdIndex term L e, call.op.AcceptedAt cmdIndex term ∧ G.st.leaderLog term = some L ∧ e ∈ L ∧
    e.isInternalLog = false ∧ e.commandIndex < cmdIndex ∧ e.command = some k' ∧
    call'.op.AcceptedAt e.commandIndex e.logTerm

/-- The entries of each client are in the order of its numbers. -/
def Ordered (calls : List (Call n)) (G : Ghost n ℕ) : Prop :=
  ∀ k k' : ℕ, ∀ call ∈ calls[k]?, ∀ call' ∈ calls[k']?, Before G k' call' call →
    call'.op.clientId = call.op.clientId → call'.op.seqId ≤ call.op.seqId

/-- What comes before an accepted call came before it when it was accepted. -/
lemma Before.of_step {calls : List (Call n)} {G G' : Ghost n ℕ} (hb : Bounded calls G)
    {q : ℕ → Fin n → Prop} {i : Fin n} (hstep : G.Step q i G') (hok : G'.Ok) {k k' : ℕ}
    {call call' : Call n} (hcall : call ∈ calls[k]?) (h : Before G' k' call' call) :
    Before G k' call' call := by
  obtain ⟨cmdIndex, term, L', e, hacc, hL', he, hint, hlt, hcmd, hacc'⟩ := h
  obtain ⟨L, hL, hle⟩ := hb k call hcall cmdIndex term hacc
  obtain ⟨L'', hL'', hLL'⟩ := hstep.ext.leaderLog_le _ L hL
  obtain rfl : L' = L'' := Option.some.inj (hL'.symm.trans hL'')
  exact ⟨cmdIndex, term, L, e, hacc, hL,
    mem_of_commandIndex_le (hok.numbered _ _ hL') hLL' he hint (by omega), hint, hlt, hcmd, hacc'⟩

namespace Ordered

variable {calls calls' : List (Call n)} {G G' : Ghost n ℕ}

/-- The entries that are there stay in the order of their clients' numbers. -/
lemma stable (h : Ordered calls G) (hb : Bounded calls G) {q : ℕ → Fin n → Prop} {i : Fin n}
    (hstep : G.Step q i G') (hok : G'.Ok) : Ordered calls G' :=
  fun k k' call hcall call' hcall' hbefore =>
    h k k' call hcall call' hcall' (hbefore.of_step hb hstep hok hcall)

/-- The entries stay in order when no call is accepted that was not. -/
lemma steady (h : Ordered calls G) (hs : Steady calls calls') : Ordered calls' G := by
  rintro k k' call hcall call' hcall' ⟨cmdIndex, term, L, e, hacc, hL, he, hint, hlt, hcmd, hacc'⟩
  obtain ⟨old, hold, hop⟩ := hs.old hcall hacc
  obtain ⟨old', hold', hop'⟩ := hs.old hcall' hacc'
  rw [← hop, ← hop']
  exact h k k' old hold old' hold'
    ⟨cmdIndex, term, L, e, hop ▸ hacc, hL, he, hint, hlt, hcmd, hop' ▸ hacc'⟩

end Ordered

/-- The last entry of a leader's log has the command index that counts its entries of clients. -/
lemma leaderLog_of_leader {G : Ghost n ℕ} (hok : G.Ok) {i : Fin n} {rf : Raft n ℕ ℕ}
    (hrf : RaftOk True G i rf) (hrole : rf.role = .leader) {last : LogEntry ℕ}
    (hlast : rf.getLastLog = some last) :
    G.st.leaderLog rf.currentTerm = some (G.st.log i) ∧
      last.commandIndex = clientEntries (G.st.log i) := by
  obtain ⟨l, hl⟩ := Option.isSome_iff_exists.mp (hrf.role.mp hrole)
  have hnum := hok.numbered_log i
  obtain ⟨last', hlast', -, -, hcmd⟩ := hrf.log.getLastLog hnum
  obtain rfl : last = last' := Option.some.inj (hlast.symm.trans hlast')
  exact ⟨hrf.term ▸ (hrf.leader l hl).log, hcmd.trans hnum.commandIndex_lastOf⟩

/-- A leader accepts. -/
lemma start_of_leader {rf : Raft n ℕ ℕ} {last : LogEntry ℕ} (k : ℕ) (hrole : rf.role = .leader)
    (hlast : rf.getLastLog = some last) :
    ∃ rf', rf.start k = .ok rf' (some (last.commandIndex + 1, rf.currentTerm)) := by
  obtain ⟨hne, -⟩ | ⟨hnone, -⟩ | ⟨last', hlast', heq⟩ := Raft.start_cases rf k
  · exact absurd hrole hne
  · simp [hlast] at hnone
  · obtain rfl := Option.some.inj (hlast.symm.trans hlast')
    exact ⟨_, heq⟩

/-- What `Start` returns when it accepts. -/
lemma start_eq_some {rf rf' : Raft n ℕ ℕ} {k cmdIndex term : ℕ}
    (h : rf.start k = .ok rf' (some (cmdIndex, term))) :
    ∃ last, rf.role = .leader ∧ rf.getLastLog = some last ∧ cmdIndex = last.commandIndex + 1 ∧
      term = rf.currentTerm ∧ rf' = Raft.persist { rf with logs := rf.logs ++
        [⟨rf.currentTerm, last.logIndex + 1, some k, last.commandIndex + 1, false⟩] } := by
  have hrole : rf.role = .leader := by
    by_contra hne
    rw [Raft.start, if_pos hne] at h
    simp at h
  obtain ⟨hne, -⟩ | ⟨-, heq⟩ | ⟨last, hlast, heq⟩ := Raft.start_cases rf k
  · exact absurd hrole hne
  · rw [heq] at h
    simp at h
  · rw [heq] at h
    simp only [Outcome.ok.injEq, Option.some.injEq, Prod.mk.injEq] at h
    exact ⟨last, hrole, hlast, h.2.1.symm, h.2.2.symm, h.1.symm⟩

namespace System.Backed

variable {filled : Fin n → ℕ → Bool} {s s' : System n} {G G' : Ghost n ℕ}
  {D : List (LogEntry ℕ)} {pos : Fin n → ℕ} {installs : List (ℕ × Option KVState)}
  {i : Fin n} {inp : Input n ℕ ℕ} {o : NodeOutcome n ℕ ℕ}

/-! ## Steps of the cluster -/

/-- The steps that the service takes part in are always sane. -/
lemma sane_of_service {c : Cluster n ℕ ℕ} {l : Label n ℕ ℕ} (hl : ofService l = true) :
    StepMeets (Sane True) c l := by
  unfold ofService at hl
  split at hl
  case h_4 => simp at hl
  all_goals
    intro i inp c' hpick
    obtain ⟨-, rfl, -⟩ := by simpa [Cluster.pick] using hpick
    simp [Sane, ElectionFresh, VoteFresh, TermFresh, WinFresh, LogFresh, SnapFresh, Node.granting,
      Node.following, Node.winning, Node.appending, Node.snapshotting]

/-- What a step picks is deliverable, and the messages it leaves were there. -/
lemma pick_spec {c c' : Cluster n ℕ ℕ} {l : Label n ℕ ℕ} (hpick : c.pick l = some (i, inp, c')) :
    c.Deliverable i inp ∧ c'.nodes = c.nodes ∧ c'.net ⊆ c.net := by
  cases l with
  | lose k => simp [Cluster.pick] at hpick
  | act j ev =>
    obtain ⟨rfl, rfl, rfl⟩ := by simpa [Cluster.pick] using hpick
    exact ⟨fun m g hm => by simp at hm, rfl, List.Subset.refl _⟩
  | recv k g =>
    obtain ⟨m, hm, hx⟩ := Option.map_eq_some_iff.mp hpick
    obtain ⟨rfl, rfl, rfl⟩ := by simpa using hx
    refine ⟨fun m' g' hm' => ?_, rfl, (List.eraseIdx_sublist _ _).subset⟩
    obtain ⟨rfl, -⟩ : m = m' ∧ g = g' := by simpa using hm'
    exact ⟨List.mem_of_getElem? hm, rfl⟩

/-- A step in which a server has an input. -/
lemma step_of_pick {c c' d : Cluster n ℕ ℕ} {l : Label n ℕ ℕ}
    (hpick : c.pick l = some (i, inp, c')) (hstep : c.step l = some d) :
    ∃ o, (c.nodes i).exec inp = some o ∧ d.nodes = (c.after i o).nodes ∧
      d.net ⊆ (c.after i o).net := by
  have hexec : ((c.nodes i).exec inp).map (fun o => c'.put i (Node.finish o)) = some d := by
    cases l with
    | lose k => simp [Cluster.pick] at hpick
    | _ => simpa only [Cluster.step, hpick] using hstep
  obtain ⟨-, hnodes, hnet⟩ := pick_spec hpick
  obtain ⟨o, ho, rfl⟩ := Option.map_eq_some_iff.mp hexec
  refine ⟨o, ho, by simp [Cluster.put, Cluster.after, hnodes], ?_⟩
  exact List.append_subset.mpr ⟨fun m hm => List.mem_append_left _ (hnet hm),
    List.subset_append_right _ _⟩

/-- The rest of the system after a server has had its input. -/
lemma after_of_pick {c' : Cluster n ℕ ℕ} {l : Label n ℕ ℕ}
    (hpick : s.cluster.pick l = some (i, inp, c')) :
    s.after l = if (s.cluster.nodes i).restarts inp then s.restarted i else s := by
  rw [System.after, hpick]

/-- The cluster handles the input, and the abstract state goes along. -/
lemma exists_advance (hn : Odd n) (h : s.Backed G D pos installs) {c c' : Cluster n ℕ ℕ}
    {l : Label n ℕ ℕ} (hP : StepMeets (Sane True) s.cluster l)
    (hpick : s.cluster.pick l = some (i, inp, c')) (hstep : s.cluster.step l = some c)
    (hstart : ∀ command last, inp = .act (.start command) →
      (s.cluster.nodes i).rf.role = .leader → (s.cluster.nodes i).rf.getLastLog = some last →
      Origin s.calls ⟨(s.cluster.nodes i).rf.currentTerm, last.logIndex + 1, some command,
        last.commandIndex + 1, false⟩) :
    ∃ o G', Advance s G G' i inp o c := by
  obtain ⟨hdel, -, -⟩ := pick_spec hpick
  obtain ⟨o, ho, hnodes, hnet⟩ := step_of_pick hpick hstep
  obtain ⟨helections, hone, -⟩ := refines_of_run hn h.run
  obtain ⟨G', hs⟩ := h.refines.exec hn helections hone (hP i inp c' hpick) hdel ho
  exact ⟨o, G', ho, hdel, h.run.tail l hP hstep, hs, hs.refines h.refines helections ho,
    h.entries.after (AllInSequence.of_run h.run) hdel ho hstart, hnodes, hnet⟩

/-- **The service follows the cluster**, whatever the input was.

**Proof sketch.** The cases are those of `Node.exec_serves`: what the service can see of an input of
a server. -/
lemma follows_of_advance {c : Cluster n ℕ ℕ} (h : s.Backed G D pos installs)
    (ha : Advance s G G' i inp o c) (hdeliver : inp ≠ .act .deliver)
    (hcapture : ∀ snapshot, inp ≠ .act (.capture snapshot)) :
    Follows filled s D pos installs G'
      { (if (s.cluster.nodes i).restarts inp then s.restarted i else s) with cluster := c } := by
  have hserves := Node.exec_serves (h.refines.node i).raft.saved ha.exec
  generalize hnd : (Node.finish o).node = nd at hserves
  cases hserves with
  | entries hrf hservice hkeep =>
    rw [hkeep]
    exact h.entries_step ha (hnd ▸ hrf) (hnd ▸ hservice)
  | installed hlt hbase hsnap hcommit hchan hservice hkeep =>
    rw [hkeep]
    subst hnd
    exact h.installed_step ha hlt hbase hsnap hcommit hchan hservice
  | skipped hcap hle hkeep =>
    rw [hkeep]
    exact h.skipped_step ha hcap hle hnd
  | taken hcap hlt hbase hsnap hcommit hchan hkeep =>
    rw [hkeep]
    exact h.taken_step ha hcap hlt hbase hsnap hcommit hchan hnd
  | delivered => exact absurd rfl hdeliver
  | captured snapshot => exact absurd rfl (hcapture snapshot)
  | restarted hbase hcommit hchan hreceived happlied hcap hrestart =>
    rw [hrestart]
    subst hnd
    exact h.restarted_step ha hbase hcommit hchan hreceived happlied hcap

/-- A step of the cluster accepts no call, also when it restarts a server. -/
lemma steady_after (s : System n) (c : Cluster n ℕ ℕ) (b : Bool) :
    Steady s.calls ({ (if b then s.restarted i else s) with cluster := c } : System n).calls := by
  refine .of_op ?_
  cases b <;> simp [System.restarted, Function.comp_def, Call.op_crash]

/-- Messages are lost. -/
lemma lose {c : Cluster n ℕ ℕ} (h : s.Backed G D pos installs)
    (hrun : Run (Sane True) Cluster.init c) (hnodes : c.nodes = s.cluster.nodes)
    (hnet : c.net ⊆ s.cluster.net) :
    ({ s with cluster := c } : System n).Backed G D pos installs where
  run := hrun
  refines := refines_lose h.refines hnodes hnet
  done_le := h.done_le
  done_eq := h.done_eq
  origin := h.origin
  entries := h.entries.lose hnodes hnet
  apart := h.apart
  seats i := by
    rw [hnodes]
    exact h.seats i
  installed dst args hargs := h.installed dst args (hnet hargs)

/-- The service does not see the messages in flight. -/
lemma service_lose {c : Cluster n ℕ ℕ} (hnodes : c.nodes = s.cluster.nodes) :
    System.service filled { s with cluster := c } D pos installs =
      s.service filled D pos installs := by
  simp [System.service, System.replica, System.channel, hnodes]

/-! ## The call of `Start` -/

/-- The command index and term that `Start` returns are new. -/
lemma not_accepted_of_start (h : s.Backed G D pos installs) (hb : Bounded s.calls G)
    {rf : Raft n ℕ ℕ} {k cmdIndex term : ℕ}
    (hstart : (s.cluster.nodes i).rf.start k = .ok rf (some (cmdIndex, term))) (j : ℕ) :
    ∀ old ∈ s.calls[j]?, ¬ old.op.AcceptedAt cmdIndex term := by
  intro old hold hacc
  obtain ⟨last, hrole, hlast, rfl, rfl, -⟩ := start_eq_some hstart
  obtain ⟨L, hL, hle⟩ := hb j old hold _ _ hacc
  obtain ⟨hlead, hcount⟩ :=
    leaderLog_of_leader h.refines.ghost (h.refines.node i).raft hrole hlast
  obtain rfl := Option.some.inj (hL.symm.trans hlead)
  omega

/-- No leader log has an entry with the command index and term that `Start` returns.

**Proof sketch.** The server leads the term, so its log is the leader log of the term. Every entry
of this term lies in this leader log together with what is before it, so its command index is at
most the number of the clients' entries there; but `Start` returns one more. -/
lemma not_mem_of_start (h : s.Backed G D pos installs) {rf : Raft n ℕ ℕ} {k : ℕ} {e : LogEntry ℕ}
    (hstart : (s.cluster.nodes i).rf.start k = .ok rf (some (e.commandIndex, e.logTerm)))
    {T : ℕ} {L : List (LogEntry ℕ)} (hL : G.st.leaderLog T = some L) : e ∉ L := by
  intro he
  obtain ⟨last, hrole, hlast, hindex, hterm, -⟩ := start_eq_some hstart
  obtain ⟨hlead, hcount⟩ :=
    leaderLog_of_leader h.refines.ghost (h.refines.node i).raft hrole hlast
  obtain ⟨p, hp⟩ := List.getElem?_of_mem he
  have htake : L.take p ++ [e] = L.take (p + 1) := by rw [List.take_add_one, hp]; rfl
  obtain ⟨L', hL', hpre⟩ := h.refines.ghost.inv.anchored_leader T L hL (L.take p) e
    (htake ▸ List.take_prefix _ _)
  rw [hterm, hlead] at hL'
  obtain rfl := Option.some.inj hL'
  have hle : clientEntries (L.take (p + 1)) ≤ clientEntries (G.st.log i) :=
    (htake ▸ hpre).sublist.countP_le
  have hnum := (h.refines.ghost.numbered T L hL p e hp).2
  omega

end System.Backed

/-- A call is replaced by one that is accepted nowhere where another one was. -/
lemma Apart.set {calls : List (Call n)} {k : ℕ} {call' : Call n} (h : Apart calls)
    (hnew : ∀ cmdIndex term, call'.op.AcceptedAt cmdIndex term →
      ∀ j : ℕ, ∀ old ∈ calls[j]?, ¬ old.op.AcceptedAt cmdIndex term) :
    Apart (calls.set k call') := by
  have hcases : ∀ j : ℕ, ∀ call ∈ (calls.set k call')[j]?, (j = k ∧ call = call') ∨
      call ∈ calls[j]? := by
    intro j call hcall
    rw [Option.mem_def, List.getElem?_set] at hcall
    split_ifs at hcall with hj hlt
    · exact Or.inl ⟨hj.symm, (Option.some.inj hcall).symm⟩
    · exact Or.inr hcall
  intro j j' a ha b hb cmdIndex term hacc hacc'
  rcases hcases j a ha with ⟨rfl, rfl⟩ | ha' <;> rcases hcases j' b hb with ⟨rfl, rfl⟩ | hb'
  · rfl
  · exact absurd hacc' (hnew _ _ hacc j' b hb')
  · exact absurd hacc (hnew _ _ hacc' j a ha')
  · exact h j j' a ha' b hb' cmdIndex term hacc hacc'

/-- What the call of `Start` by handler `k` at server `i` does to the calls. -/
structure StartCall (s : System n) (i : Fin n) (k : ℕ) (calls' : List (Call n)) : Prop where
  keeps : Keeps s.calls calls'
  apart : Apart calls'
  origin : ∀ last, (s.cluster.nodes i).rf.role = .leader →
    (s.cluster.nodes i).rf.getLastLog = some last →
    Origin calls' ⟨(s.cluster.nodes i).rf.currentTerm, last.logIndex + 1, some k,
      last.commandIndex + 1, false⟩
  back : ∀ j : ℕ, ∀ call' ∈ calls'[j]?, ∀ cmdIndex term, call'.op.AcceptedAt cmdIndex term →
    (∃ call ∈ s.calls[j]?, call.op.AcceptedAt cmdIndex term) ∨
      j = k ∧ ∃ rf, (s.cluster.nodes i).rf.start k = .ok rf (some (cmdIndex, term))
  request : calls'.map (fun call => call.op.request) = s.calls.map fun call => call.op.request

namespace StartCall

variable {s : System n} {i : Fin n} {k j : ℕ} {calls' : List (Call n)} {call' : Call n}

/-- A call that was accepted before has its operation still. -/
lemma old (h : StartCall s i k calls') (hcall' : call' ∈ calls'[j]?) {cmdIndex term : ℕ}
    (hold : ∃ call ∈ s.calls[j]?, call.op.AcceptedAt cmdIndex term) :
    ∃ call ∈ s.calls[j]?, call.op = call'.op := by
  obtain ⟨call, hcall, hacc⟩ := hold
  obtain ⟨call'', hcall'', hop⟩ := h.keeps j call hcall _ _ hacc
  obtain rfl := Option.some.inj ((Option.mem_def.mp hcall').symm.trans hcall'')
  exact ⟨call, hcall, hop.symm⟩

/-- A call of `Start` leaves client ids and numbers. -/
lemma exists_request (h : StartCall s i k calls') (hcall' : call' ∈ calls'[j]?) :
    ∃ call ∈ s.calls[j]?, call.op.clientId = call'.op.clientId ∧
      call.op.seqId = call'.op.seqId := by
  have hget := congrArg (·[j]?) h.request
  simp only [List.getElem?_map, Option.mem_def.mp hcall', Option.map_some] at hget
  obtain ⟨call, hcall, hreq⟩ := Option.map_eq_some_iff.mp hget.symm
  obtain ⟨-, -, -, -, -, hclient, hseq⟩ := Op.mk.inj hreq
  exact ⟨call, hcall, hclient, hseq⟩

end StartCall

namespace System.Backed

variable {filled : Fin n → ℕ → Bool} {s s' : System n} {G G' : Ghost n ℕ}
  {D : List (LogEntry ℕ)} {pos : Fin n → ℕ} {installs : List (ℕ × Option KVState)}
  {i : Fin n}

/-- A call keeps its request when it gets the result of `Start`. -/
lemma request_start {calls : List (Call n)} {k : ℕ} {call : Call n} (hcall : calls[k]? = some call)
    (cmdIndex term : ℤ) (phase : Phase) :
    (calls.set k (call.start cmdIndex term phase)).map (fun call => call.op.request) =
      calls.map fun call => call.op.request := by
  obtain ⟨hlt, rfl⟩ := List.getElem?_eq_some_iff.mp hcall
  have hself := List.set_getElem_self
    (show k < (calls.map fun call => call.op.request).length by simpa using hlt)
  rw [List.getElem_map] at hself
  rw [List.map_set]
  exact hself

/-- `Start` did not accept. -/
lemma startCall_of_steady (h : s.Backed G D pos installs) {k : ℕ} {calls' : List (Call n)}
    (hs : Steady s.calls calls')
    (hrequest : calls'.map (fun call => call.op.request) = s.calls.map fun call => call.op.request)
    (hnot : ∀ last, (s.cluster.nodes i).rf.role = .leader →
      (s.cluster.nodes i).rf.getLastLog ≠ some last) : StartCall s i k calls' where
  keeps := hs.keeps
  apart := h.apart.steady hs
  origin last hrole hlast := absurd hlast (hnot last hrole)
  back j call' hcall' cmdIndex term hacc := Or.inl (hs.back j call' hcall' cmdIndex term hacc)
  request := hrequest

/-- `Start` accepted.

**Proof sketch.** The command index and the term that `Start` returns are those of the new entry,
which no accepted call has (`not_accepted_of_start`). So the call is the only one there, and all
others are what they were. -/
lemma startCall_of_accepted (h : s.Backed G D pos installs) (hb : Bounded s.calls G)
    {rf : Raft n ℕ ℕ} {k cmdIndex term : ℕ} {call : Call n} (hcall : s.calls[k]? = some call)
    (hbare : call.op.request = call.op)
    (hstart : (s.cluster.nodes i).rf.start k = .ok rf (some (cmdIndex, term))) :
    StartCall s i k (s.calls.set k (call.start cmdIndex term .started)) := by
  have hlt := (List.getElem?_eq_some_iff.mp hcall).1
  have hpos : 0 < term := (start_pos (h.run.mono fun _ _ hP => hP.1.2.2) hstart).2
  obtain ⟨last, hrole, hlast, hc, ht, -⟩ := start_eq_some hstart
  subst hc ht
  have hself : ∀ c t, (call.start ((last.commandIndex + 1 : ℕ) : ℤ)
      ((s.cluster.nodes i).rf.currentTerm : ℤ) .started).op.AcceptedAt c t →
      c = last.commandIndex + 1 ∧ t = (s.cluster.nodes i).rf.currentTerm := by
    rintro c t ⟨hc, ht, -⟩
    exact ⟨(Int.ofNat_inj.mp hc).symm, (Int.ofNat_inj.mp ht).symm⟩
  refine ⟨fun j old hold c t hacc => ?_, h.apart.set fun c t hacc j old hold => ?_,
    fun last' _ hlast' => ?_, fun j call' hcall' c t hacc => ?_, request_start hcall _ _ _⟩
  · have hne : k ≠ j := by
      rintro rfl
      obtain rfl : call = old := Option.some.inj (hcall.symm.trans hold)
      exact ComesFrom.not_acceptedAt hbare _ _ hacc
    exact ⟨old, by rwa [Option.mem_def, List.getElem?_set_ne hne], rfl⟩
  · obtain ⟨rfl, rfl⟩ := hself c t hacc
    exact h.not_accepted_of_start hb hstart j old hold
  · obtain rfl : last = last' := Option.some.inj (hlast.symm.trans hlast')
    exact ⟨k, rfl, _, List.getElem?_set_self hlt, rfl, rfl, hpos⟩
  · by_cases hj : k = j
    · subst hj
      rw [Option.mem_def, List.getElem?_set_self hlt] at hcall'
      obtain rfl := Option.some.inj hcall'
      obtain ⟨rfl, rfl⟩ := hself c t hacc
      exact Or.inr ⟨rfl, rf, hstart⟩
    · rw [Option.mem_def, List.getElem?_set_ne hj] at hcall'
      exact Or.inl ⟨call', hcall', hacc⟩

/-- **The call of `Start`, as the service sees it**: refused, accepted at a command index and term
that are new, or the end of the server.

**Proof sketch.** By the result of `Start`. A panic changes no call; a refusal sets `-1`; when it
accepts, no committed entry has this command index and term, because committed entries come from
calls that were accepted before. -/
lemma start_call (filled : Fin n → ℕ → Bool) (h : s.Backed G D pos installs)
    (hb : Bounded s.calls G) {k : ℕ} {call : Call n} (hcall : s.calls[k]? = some call)
    (hphase : call.phase = .received) (hbare : call.op.request = call.op) :
    StartCall s call.server k (s.calls.set k
        (System.startResult call ((s.cluster.nodes call.server).rf.start k))) ∧
      Transition.Reach Service.step Quiet (s.service filled D pos installs)
        ((s.service filled D pos installs).setCall k
          (System.startResult call ((s.cluster.nodes call.server).rf.start k))) := by
  have hsame : s.calls.set k call = s.calls := by
    obtain ⟨hlt, rfl⟩ := List.getElem?_eq_some_iff.mp hcall
    exact List.set_getElem_self hlt
  have hstep : ∀ ev, (s.service filled D pos installs).step (.call k ev) =
      (s.service filled D pos installs).callStep k call ev := by
    intro ev
    change (s.calls[k]?).bind _ = _
    rw [hcall]
    rfl
  cases hstart : (s.cluster.nodes call.server).rf.start k with
  | panic p rf =>
    refine ⟨?_, ?_⟩
    · rw [System.startResult, hsame]
      refine h.startCall_of_steady (.of_op rfl) rfl fun last hrole hlast => ?_
      obtain ⟨rf', heq⟩ := start_of_leader k hrole hlast
      simp [hstart] at heq
    · change Transition.Reach _ _ _ ({ s.service filled D pos installs with
        calls := s.calls.set k call } : Service n)
      rw [hsame]
      exact .refl
  | ok rf result =>
    cases result with
    | none =>
      refine ⟨h.startCall_of_steady (.set hcall hbare fun _ _ => not_acceptedAt_neg _ _ _)
        (request_start hcall _ _ _) fun last hrole hlast => ?_,
        .single (.call k .startRefused) ⟨trivial, rfl⟩ ?_⟩
      · obtain ⟨rf', heq⟩ := start_of_leader k hrole hlast
        simp [hstart] at heq
      · simp only [hstep, Service.callStep, hphase, System.startResult]
    | some result =>
      obtain ⟨cmdIndex, term⟩ := result
      have hpos : 0 < term := (start_pos (h.run.mono fun _ _ hP => hP.1.2.2) hstart).2
      refine ⟨h.startCall_of_accepted hb hcall hbare hstart,
        .single (.call k (.startAccepted cmdIndex term)) ⟨?_, rfl⟩ ?_⟩
      · rintro a ha hvis ⟨rfl, rfl⟩
        rcases List.mem_cons.mp ha with rfl | ha
        · simp [Raft.dummyLog] at hvis
        · obtain ⟨e, he, rfl⟩ := List.mem_map.mp ha
          obtain ⟨j, -, old, hold, hacc⟩ := h.origin e he hvis
          exact h.not_accepted_of_start hb hstart j old hold hacc
      · simp only [hstep, Service.callStep, hphase, if_pos hpos, System.startResult]

end System.Backed

/-! ## The simulation -/

/-- Handler `k` calls `Start` for the last request of its clerk. -/
def System.Timely (s : System n) : SystemEvent n → Prop
  | .start k => ∀ call ∈ s.calls[k]?, call.op.seqId = (s.clerks call.op.clientId).seqId
  | _ => True

instance (s : System n) : (ev : SystemEvent n) → Decidable (s.Timely ev)
  | .start k => inferInstanceAs (Decidable (∀ call ∈ s.calls[k]?,
      call.op.seqId = (s.clerks call.op.clientId).seqId))
  | .raft _ => .isTrue trivial
  | .apply _ => .isTrue trivial
  | .capture _ => .isTrue trivial
  | .front _ => .isTrue trivial

/-- The system is backed, the service over the committed log is `σ` and, in a timely run, the
entries of each client are in order. -/
def Tracks (timely : Prop) (filled : Fin n → ℕ → Bool) (s : System n) (σ : Service n) : Prop :=
  ∃ G D pos installs, s.Backed G D pos installs ∧ Bounded s.calls G ∧
    (timely → Ordered s.calls G) ∧ σ = s.service filled D pos installs

namespace Tracks

variable {timely : Prop} {filled : Fin n → ℕ → Bool} {s s' : System n} {σ : Service n}

/-- What the service does while it follows is tracked. -/
lemma of_follows {G' : Ghost n ℕ} {D : List (LogEntry ℕ)} {pos : Fin n → ℕ}
    {installs : List (ℕ × Option KVState)}
    (h : System.Backed.Follows filled s D pos installs G' s') (hb : Bounded s'.calls G')
    (hord : timely → Ordered s'.calls G') :
    ∃ τ, Transition.Reach Service.step Quiet (s.service filled D pos installs) τ ∧
      Tracks timely filled s' τ := by
  obtain ⟨D', pos', installs', hback, hreach⟩ := h
  exact ⟨_, hreach, G', D', pos', installs', hback, hb, hord, rfl⟩

/-- No step of the Raft layer by itself is a call of the service. -/
lemma not_ofService {c c' : Cluster n ℕ ℕ} {l : Label n ℕ ℕ} {i : Fin n} {inp : Input n ℕ ℕ}
    (hl : ofService l = false) (hpick : c.pick l = some (i, inp, c')) :
    inp ≠ .act .deliver ∧ (∀ snapshot, inp ≠ .act (.capture snapshot)) ∧
      ∀ command, inp ≠ .act (.start command) := by
  cases l with
  | lose k => simp [Cluster.pick] at hpick
  | recv k g =>
    obtain ⟨m, -, hx⟩ := Option.map_eq_some_iff.mp hpick
    obtain ⟨-, rfl, -⟩ := by simpa using hx
    simp
  | act j ev =>
    obtain ⟨-, rfl, -⟩ := by simpa [Cluster.pick] using hpick
    refine ⟨?_, ?_, ?_⟩
    · rintro ⟨rfl⟩
      simp [ofService] at hl
    · rintro snapshot ⟨rfl⟩
      simp [ofService] at hl
    · rintro command ⟨rfl⟩
      simp [ofService] at hl

/-- A step of the Raft layer by itself.

**Proof sketch.** A step of one server is an advance, and the service follows it. A lost message
changes no server, so the service stays where it is. -/
lemma raft_step (hn : Odd n) (h : Tracks timely filled s σ) {l : Label n ℕ ℕ}
    (hP : s.Fresh (.raft l)) (hstep : s.step filled (.raft l) = some s') :
    ∃ τ, Transition.Reach Service.step Quiet σ τ ∧ Tracks timely filled s' τ := by
  obtain ⟨G, D, pos, installs, hback, hb, hord, rfl⟩ := h
  simp only [System.step] at hstep
  split_ifs at hstep with hl
  obtain ⟨c, hc, rfl⟩ := Option.map_eq_some_iff.mp hstep
  have hsane : StepMeets (Sane True) s.cluster l := fun i inp c' hpick =>
    let hP := hP i inp c' hpick
    ⟨hP.1, hP.2.1, fun _ => hP.2.2⟩
  cases hpick : s.cluster.pick l with
  | some x =>
    obtain ⟨i, inp, c'⟩ := x
    obtain ⟨hdeliver, hcapture, hstart⟩ := not_ofService (by simpa using hl) hpick
    obtain ⟨o, G', ha⟩ := hback.exists_advance hn hsane hpick hc
      fun command _ hinp => absurd hinp (hstart command)
    rw [System.Backed.after_of_pick hpick]
    have hsteady := System.Backed.steady_after (i := i) s c ((s.cluster.nodes i).restarts inp)
    exact of_follows (hback.follows_of_advance ha hdeliver hcapture)
      ((hb.stable ha.sound.step).steady hsteady)
      fun ht => ((hord ht).stable hb ha.sound.step ha.sound.ghost).steady hsteady
  | none =>
    have hafter : s.after l = s := by rw [System.after, hpick]
    have hlost : c.nodes = s.cluster.nodes ∧ c.net ⊆ s.cluster.net := by
      cases l with
      | lose k =>
        obtain rfl : s.cluster.dropMsg k = c := by simpa [Cluster.step] using hc
        exact ⟨rfl, (List.eraseIdx_sublist _ _).subset⟩
      | _ => simp [Cluster.step, hpick] at hc
    rw [hafter]
    refine ⟨_, .refl, G, D, pos, installs, hback.lose (hback.run.tail l hsane hc) hlost.1 hlost.2,
      hb, hord, (System.Backed.service_lose hlost.1).symm⟩

/-- A turn of `applyMsgLoop`.

**Proof sketch.** The server delivers a message, which is no restart, and the service follows by
`System.Backed.apply_step`. -/
lemma apply_step (hn : Odd n) (h : Tracks timely filled s σ) {i : Fin n}
    (hstep : s.step filled (.apply i) = some s') :
    ∃ τ, Transition.Reach Service.step Quiet σ τ ∧ Tracks timely filled s' τ := by
  obtain ⟨G, D, pos, installs, hback, hb, hord, rfl⟩ := h
  simp only [System.step] at hstep
  split at hstep
  · simp at hstep
  · rename_i kv hkv
    obtain ⟨c, hc, rfl⟩ := Option.map_eq_some_iff.mp hstep
    obtain ⟨o, G', ha⟩ := hback.exists_advance hn (System.Backed.sane_of_service rfl) rfl hc
      fun _ _ hinp => by simp at hinp
    have hkeep : (s.cluster.nodes i).restarts (.act .deliver) = false := by
      have ho := ha.exec
      simp only [Node.exec, Node.act] at ho
      unfold Node.restarts
      simp only [Node.exec, Node.act]
      split at ho
      · simp_all
      · simp at ho
    have hafter : System.after { s with kv := Function.update s.kv i kv } (.act i .deliver) =
        { s with kv := Function.update s.kv i kv } := by
      rw [System.Backed.after_of_pick rfl]
      exact if_neg (by simp [hkeep])
    rw [hafter]
    exact of_follows (hback.apply_step ha hkv) (hb.stable ha.sound.step)
      fun ht => (hord ht).stable hb ha.sound.step ha.sound.ghost

/-- The first half of `snapshotLoop`. -/
lemma capture_step (hn : Odd n) (h : Tracks timely filled s σ) {i : Fin n}
    (hstep : s.step filled (.capture i) = some s') :
    ∃ τ, Transition.Reach Service.step Quiet σ τ ∧ Tracks timely filled s' τ := by
  obtain ⟨G, D, pos, installs, hback, hb, hord, rfl⟩ := h
  simp only [System.step] at hstep
  obtain ⟨c, hc, rfl⟩ := Option.map_eq_some_iff.mp hstep
  obtain ⟨o, G', ha⟩ := hback.exists_advance hn (System.Backed.sane_of_service rfl) rfl hc
    fun _ _ hinp => by simp at hinp
  exact of_follows (hback.capture_step ha) (hb.stable ha.sound.step)
    fun ht => (hord ht).stable hb ha.sound.step ha.sound.ghost

/-- The calls after `Start` are bounded by what the leader has then.

**Proof sketch.** A call that was accepted before stays bounded. The new one has the command index
of the entry that the leader has just appended. -/
lemma bounded_start {G G' : Ghost n ℕ} {i : Fin n} {k : ℕ} {calls' : List (Call n)}
    {o : NodeOutcome n ℕ ℕ} {c : Cluster n ℕ ℕ} {s₁ : System n} (hb : Bounded s.calls G)
    (hcall : StartCall s i k calls')
    (ha : System.Backed.Advance s₁ G G' i (.act (.start k)) o c)
    (hs₁ : s₁.cluster = s.cluster) : Bounded calls' G' := by
  intro j call' hcall' cmdIndex term hacc
  rcases hcall.back j call' hcall' cmdIndex term hacc with ⟨old, hold, hacc⟩ | ⟨-, rf, hstart⟩
  · exact hb.stable ha.sound.step j old hold cmdIndex term hacc
  · have hnode : (Node.finish o).node = (s.cluster.nodes i).setRaft rf := by
      have ho := ha.exec
      simp only [hs₁, Node.exec, Node.act, hstart, Node.critical] at ho
      rw [← Option.some.inj ho]
      rfl
    have hraft := ha.sound.node.raft
    rw [hnode] at hraft
    obtain ⟨last, hrole, -, rfl, rfl, rfl⟩ := start_eq_some hstart
    obtain ⟨hlead, hcount⟩ := leaderLog_of_leader ha.sound.ghost hraft hrole
      List.getLast?_concat
    exact ⟨_, hlead, hcount.le⟩

/-- The clients' entries are in order after a timely call of `Start`.

**Proof sketch.** Entries that come before an old call did so before. The new call has the last
number of its clerk, and no call of this clerk has a later one. The entry of the new call comes
before no old call, since no leader log has it. -/
lemma ordered_start {G G' : Ghost n ℕ} {D : List (LogEntry ℕ)} {pos : Fin n → ℕ}
    {installs : List (ℕ × Option KVState)} {i : Fin n} {k : ℕ} {calls' : List (Call n)}
    {o : NodeOutcome n ℕ ℕ} {c : Cluster n ℕ ℕ} {s₁ : System n}
    (hback : s.Backed G D pos installs) (hb : Bounded s.calls G) (hord : Ordered s.calls G)
    (hledger : (s.service filled D pos installs).Ledger) (hcall : StartCall s i k calls')
    (htimely : s.Timely (.start k))
    (ha : System.Backed.Advance s₁ G G' i (.act (.start k)) o c) : Ordered calls' G' := by
  have hlast : ∀ j : ℕ, ∀ call ∈ s.calls[j]?,
      call.op.seqId ≤ (s.clerks call.op.clientId).seqId := fun j call hmem =>
    (hledger.numbered _ (hledger.asked _ (List.mem_map_of_mem (List.mem_of_getElem? hmem)))).2
  intro j j' a hmem b hmem' hbefore hclient
  obtain ⟨cmdIndex, term, L, e, hacc, hL, he, hint, hlt, hcmd, hacc'⟩ := hbefore
  rcases hcall.back j a hmem _ _ hacc with hold | ⟨rfl, -⟩
  · obtain ⟨a₀, hmem₀, hop⟩ := hcall.old hmem hold
    rw [← hop] at hacc hclient ⊢
    have hbefore : Before G j' b a₀ := Before.of_step hb ha.sound.step ha.sound.ghost hmem₀
      ⟨cmdIndex, term, L, e, hacc, hL, he, hint, hlt, hcmd, hacc'⟩
    rcases hcall.back j' b hmem' _ _ hacc' with hold' | ⟨-, rf, hstart⟩
    · obtain ⟨b₀, hmem₀', hop'⟩ := hcall.old hmem' hold'
      rw [← hop'] at hclient ⊢
      refine hord j j' a₀ hmem₀ b₀ hmem₀' ?_ hclient
      rwa [Before, hop']
    · obtain ⟨_, _, L₀, e₀, -, hL₀, he₀, -, -, -, hacc₀⟩ := hbefore
      have hsame : e₀.commandIndex = e.commandIndex ∧ e₀.logTerm = e.logTerm :=
        ⟨Int.ofNat_inj.mp (hacc₀.1.symm.trans hacc'.1),
          Int.ofNat_inj.mp (hacc₀.2.1.symm.trans hacc'.2.1)⟩
      rw [← hsame.1, ← hsame.2] at hstart
      exact absurd he₀ (hback.not_mem_of_start hstart hL₀)
  · obtain ⟨a₀, hmem₀, hcl, hseq⟩ := hcall.exists_request hmem
    obtain ⟨b₀, hmem₀', hcl', hseq'⟩ := hcall.exists_request hmem'
    have hle := hlast j' b₀ hmem₀'
    rw [hcl', hclient, ← hcl, ← htimely a₀ hmem₀, hseq, hseq'] at hle
    exact hle

/-- The call of `Start` by a handler.

**Proof sketch.** First the handler gets the result of `Start`, which the service does by one event
of the call. Then the cluster makes its step, which the service follows as any other. -/
lemma start_step (hn : Odd n) (h : Tracks timely filled s σ)
    (hreach : Transition.Reach Service.step Service.Assumed Service.init σ) {k : ℕ}
    (htimely : timely → s.Timely (.start k)) (hstep : s.step filled (.start k) = some s') :
    ∃ τ, Transition.Reach Service.step Quiet σ τ ∧ Tracks timely filled s' τ := by
  obtain ⟨G, D, pos, installs, hback, hb, hord, rfl⟩ := h
  simp only [System.step] at hstep
  split at hstep
  · simp at hstep
  · rename_i call hcall
    split_ifs at hstep with hphase
    obtain ⟨c, hc, rfl⟩ := Option.map_eq_some_iff.mp hstep
    have hbare : call.op.request = call.op := by
      have hsound := (Service.Waiters.of_reach hreach).calls call (List.mem_of_getElem? hcall)
      rwa [Call.Sound, hphase] at hsound
    obtain ⟨hstarted, hfirst⟩ := hback.start_call filled hb hcall hphase hbare
    generalize System.startResult call ((s.cluster.nodes call.server).rf.start k) = call' at *
    -- the handler has the result, the cluster has not moved yet
    have hback₁ : ({ s with calls := s.calls.set k call' } : System n).Backed G D pos installs :=
      hback.front ((s.service filled D pos installs).setCall k call') hstarted.keeps
        hstarted.apart fun _ => rfl
    have hservice₁ : System.service filled { s with calls := s.calls.set k call' } D pos installs =
        (s.service filled D pos installs).setCall k call' :=
      hback.service_front ((s.service filled D pos installs).setCall k call') hstarted.keeps
    obtain ⟨o, G', ha⟩ := hback₁.exists_advance hn (System.Backed.sane_of_service rfl) rfl hc
      fun command last hinp hrole hlast => by
        obtain rfl : k = command := by simpa using hinp
        exact hstarted.origin last hrole hlast
    have hbounded := bounded_start hb hstarted ha rfl
    rw [System.Backed.after_of_pick rfl]
    have hfollows : System.Backed.Follows filled _ D pos installs G' _ :=
      hback₁.follows_of_advance ha (by simp) (by simp)
    have hsteady := System.Backed.steady_after (i := call.server)
      { s with calls := s.calls.set k call' } c
      ((s.cluster.nodes call.server).restarts (.act (.start k)))
    obtain ⟨τ, hτ, htracks⟩ := of_follows hfollows (hbounded.steady hsteady) fun ht : timely =>
      (ordered_start hback hb (hord ht) (Service.Waiters.of_reach hreach).ledger hstarted
        (htimely ht) ha).steady hsteady
    exact ⟨τ, hfirst.trans (hservice₁ ▸ hτ), htracks⟩

/-- **A step of the system without its clients** is a run of the service. -/
theorem quiet_step (hn : Odd n) (h : Tracks timely filled s σ)
    (hreach : Transition.Reach Service.step Service.Assumed Service.init σ) {ev : SystemEvent n}
    (hev : ∀ e, ev ≠ .front e) (hP : s.Fresh ev) (htimely : timely → s.Timely ev)
    (hstep : s.step filled ev = some s') :
    ∃ τ, Transition.Reach Service.step Quiet σ τ ∧ Tracks timely filled s' τ := by
  cases ev with
  | raft l => exact h.raft_step hn hP hstep
  | apply i => exact h.apply_step hn hstep
  | capture i => exact h.capture_step hn hstep
  | start k => exact h.start_step hn hreach htimely hstep
  | front e => exact absurd rfl (hev e)

/-- **A step of a handler or a clerk** is the same step of the service. -/
theorem front_step (h : Tracks timely filled s σ)
    (hreach : Transition.Reach Service.step Service.Assumed Service.init σ) {ev : Event n}
    (hstep : s.step filled (.front ev) = some s') :
    ∃ τ, σ.Assumed ev ∧ σ.step ev = some τ ∧ Tracks timely filled s' τ := by
  obtain ⟨G, D, pos, installs, hback, hb, hord, rfl⟩ := h
  obtain ⟨hτ, hback', hs⟩ := hback.front_step hreach hstep
  refine ⟨_, ?_, hτ, G, D, pos, installs, hback', hb.steady hs, fun ht => (hord ht).steady hs, rfl⟩
  simp only [System.step] at hstep
  split_ifs at hstep with hev
  exact Service.assumed_of_front _ hev

/-- New servers. -/
lemma init (hn : Odd n) : Tracks timely filled (System.init : System n) Service.init := by
  have hcalls : ∀ (k : ℕ) (call : Call n), call ∉ (System.init : System n).calls[k]? := by
    simp [System.init]
  refine ⟨Ghost.init, [], fun _ => 0, [], ?_, fun k call hcall => absurd hcall (hcalls k call),
    fun _ k _ call hcall => absurd hcall (hcalls k call), rfl⟩
  have hpos : 0 < n := by
    obtain ⟨k, rfl⟩ := hn
    omega
  refine ⟨.refl, .init, fun i => List.prefix_rfl, ⟨⟨0, hpos⟩, rfl⟩, fun e he => by simp at he,
    .init, fun k _ call hcall => absurd hcall (hcalls k call), fun i => ?_,
    fun dst args hargs => by simp [System.init, Cluster.init] at hargs⟩
  refine ⟨Nat.zero_le _, fun k e _ hk he => by simp at he, ?_, ?_, fun m hm k hk => ?_,
    Nat.zero_le _, rfl⟩
  · simp [System.init, Cluster.init, Node.init]
  · simp [System.init, Cluster.init, Node.init, Raft.make, Raft.blank, Raft.readPersist,
      Raft.addSentinel, Raft.installSnapshotToApplication]
  · obtain rfl := List.mem_singleton.mp hm
    exact (Option.not_mem_none k hk).elim

end Tracks

/-- With requests that are copies, every state of a fresh run of the servers over the Raft cluster
is a reachable state of the service. -/
theorem System.exists_service (hn : Odd n) {filled : Fin n → ℕ → Bool} {s : System n}
    (h : Transition.Reach (System.step filled) System.Fresh System.init s) :
    ∃ D pos installs, Transition.Reach Service.step Service.Assumed Service.init
      (s.service filled D pos installs) := by
  obtain ⟨σ, hσ, G, D, pos, installs, -, -, -, rfl⟩ :=
    h.simulate (R := Tracks False filled) (Tracks.init hn)
      fun s ev s' σ _ hreach htracks hP hstep => by
      by_cases hev : ∃ e, ev = .front e
      · obtain ⟨e, rfl⟩ := hev
        obtain ⟨τ, hassumed, hτ, htracks'⟩ := htracks.front_step hreach hstep
        exact ⟨τ, .single e hassumed hτ, htracks'⟩
      · obtain ⟨τ, hτ, htracks'⟩ := htracks.quiet_step hn hreach (not_exists.mp hev) hP
          False.elim hstep
        exact ⟨τ, hτ.mono fun _ _ hQ => hQ.1, htracks'⟩
  exact ⟨D, pos, installs, hσ⟩

/-- **The key/value servers over Raft are the service.** For an odd number of servers, when
elections, requests and snapshots are fresh and no entry of a log is overwritten before a request
with it is encoded, every state of a run of the servers over the Raft cluster is a reachable state
of the service, over some committed log: the same maps, handlers and clerks, and the same messages
on the apply channels.

**Proof sketch.** An undisturbed run over the shared memory is a run with copies
(`Host.reach_of_shared`), and this is simulated by the service step by step
(`System.exists_service`). -/
theorem System.refines_service (hn : Odd n) {filled : Fin n → ℕ → Bool} {spare : Fin n → ℕ}
    {x : Shared n ℕ (System n)} (h : Transition.Reach (System.host filled).sharedStep
      ((System.host filled).Fresh System.Fresh) (System.shared spare) x) :
    ∃ D pos installs, Transition.Reach Service.step Service.Assumed Service.init
      (x.state.service filled D pos installs) :=
  System.exists_service hn (Host.reach_of_shared (System.undisturbed_shared filled spare) h).2

/-! Runs of three servers in which server 0 leads and server 1 helps it. -/

/-- Server 0 reads its first message and is elected. -/
def leaderElected : List (SystemEvent 3) :=
  [.apply 0, .raft (.act 0 .startElection), .raft (.act 0 (.askVote 0 1)), .raft (.recv 0 0),
    .raft (.act 1 (.grantVote 0)), .raft (.recv 0 0)]

/-- Request `k` arrives as call `k`, is replicated and committed, and is answered. -/
def requestServed (k : ℕ) : List (SystemEvent 3) :=
  [.front (.receive 0 k), .start k, .front (.call k .register), .raft (.act 0 (.beat 0)),
    .raft (.act 0 (.sendAppend 0)), .raft (.recv 0 0), .raft (.recv 0 0), .apply 0,
    .front (.call k .signal), .front (.call k .cleanup)]

/-- The service of server 0 takes a snapshot; the server crashes and starts from it. -/
def snapshotAndRestart : List (SystemEvent 3) :=
  [.capture 0, .raft (.act 0 .takeSnapshot), .raft (.act 0 .restart), .apply 0]

/-- Two writes by two clients, a snapshot and a crash: the store of server 0 is that of a run of the
service. -/
theorem refines_service_of_restart : ∃ x : Shared 3 ℕ (System 3),
    Transition.Reach (System.host fun i _ => i = 0).sharedStep
        ((System.host fun i _ => i = 0).Fresh System.Fresh) (System.shared fun _ => 0) x ∧
      (x.state.kv 0).kvStore "x" = some "ab" ∧
      ∃ D pos installs, Transition.Reach Service.step Service.Assumed Service.init
        (x.state.service (fun i _ => i = 0) D pos installs) := by
  obtain ⟨s, hs, hx⟩ : ∃ s : System 3,
      Transition.Reach (System.step fun i _ => i = 0) System.Fresh System.init s ∧
        (s.kv 0).kvStore "x" = some "ab" :=
    Transition.Reach.exists_of_stepsIf (leaderElected ++ .front (.issue 1 .put "x" "a") ::
      requestServed 0 ++ .front (.acknowledge 1 0) :: .front (.issue 2 .append "x" "b") ::
      requestServed 1 ++ snapshotAndRestart) (by decide +kernel)
  obtain ⟨mem, hmem, -⟩ := Host.exists_shared
    (System.undisturbed_shared (fun i _ => i = 0) fun _ => 0) hs
  exact ⟨⟨s, mem⟩, hmem, hx, System.refines_service (by decide) hmem⟩

end KvRaft

end Mit6824
