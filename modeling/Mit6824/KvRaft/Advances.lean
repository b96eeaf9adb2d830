import Mit6824.KvRaft.Backing

set_option autoImplicit false

/-!
# The service follows one input of the Raft cluster

The invariant that ties a system to a run of the service, and one lemma for each way in which an
input of the Raft layer reaches the service: entries are committed, a snapshot is installed, handed
over or skipped, the server starts again, `applyMsgLoop` handles a message, `snapshotLoop` encodes
the maps.

## Main definitions

* `Mit6824.KvRaft.Seat` — one server, with the place up to which its service has been sent entries.
* `Mit6824.KvRaft.System.Backed` — the invariant: a committed log behind the system.
* `Mit6824.KvRaft.System.Backed.Advance` — a server has handled an input.
* `Mit6824.KvRaft.System.Backed.Follows` — a run of the service leads to a system that is backed.

## Main results

* `Mit6824.KvRaft.System.Backed.grow` — the committed log only grows, and its new entries come from
  calls.
* `Mit6824.KvRaft.System.Backed.follows` — after the new entries have been committed, it is enough
  to follow the server that moved.

## Design

* The committed log is the longest one that a server has been told of. It cannot be read off the
  system, since the logs lose what is under a snapshot, and is part of the abstract state.
* The service sends its snapshot before every step, so that each one that is installed has been
  sent.
-/

namespace Mit6824

namespace KvRaft

variable {n : ℕ}

/-! ## The invariant -/

/-- One server of a system: its service has been sent what is committed up to place `p`, up to
entries that are internal, and all its snapshots are encoded states. -/
structure Seat (nd : Node n ℕ ℕ) (kv : KVServer) (size : ℕ) (D : List (LogEntry ℕ)) (p : ℕ) :
    Prop where
  pos_le : p ≤ nd.rf.commitIndex
  silent : Silent D p nd.rf.commitIndex
  captured : ∀ c ∈ nd.captured, c.1 < size
  snapshot : ∀ k ∈ nd.rf.persister.snapshot, k < size
  chan : ∀ m ∈ nd.rf.applyChan, ∀ k ∈ m.snapshot, k < size
  received : nd.received ≤ nd.rf.applyChan.length
  applied : nd.lastAppliedIndex = kv.lastAppliedIndex

/-- A longer log has the same entries at these places. -/
lemma Silent.extend {D D' : List (LogEntry ℕ)} {a b : ℕ} (h : Silent D a b) (hD : D <+: D')
    (hb : b ≤ D.length) : Silent D' a b := by
  obtain ⟨rest, rfl⟩ := hD
  intro k e hlow hk he
  rw [List.getElem?_append_left (by omega)] at he
  exact h k e hlow hk he

/-- A server stays seated when the committed log and the snapshots become more. -/
lemma Seat.extend {nd : Node n ℕ ℕ} {kv : KVServer} {size size' : ℕ} {D D' : List (LogEntry ℕ)}
    {p : ℕ} (h : Seat nd kv size D p) (hD : D <+: D') (hcommit : nd.rf.commitIndex ≤ D.length)
    (hsize : size ≤ size') : Seat nd kv size' D' p where
  pos_le := h.pos_le
  silent := h.silent.extend hD hcommit
  captured c hc := (h.captured c hc).trans_le hsize
  snapshot k hk := (h.snapshot k hk).trans_le hsize
  chan m hm k hk := (h.chan m hm k hk).trans_le hsize
  received := h.received
  applied := h.applied

/-- Losing messages is harmless. -/
lemma refines_lose {tidy : Prop} {c d : Cluster n ℕ ℕ} {G : Ghost n ℕ} (h : Refines tidy c G)
    (hnodes : d.nodes = c.nodes) (hnet : d.net ⊆ c.net) : Refines tidy d G := by
  refine ⟨h.ghost, fun T l hl => ?_, fun i => by rw [hnodes]; exact h.node i,
    fun m hm => h.msg m (hnet hm)⟩
  have := h.lead_votes T l hl
  rwa [Cluster.voters, ← hnodes] at this

/-- The system has the committed log `D` behind it, with delivery positions `pos` and the snapshots
`installs` on their way. -/
structure System.Backed (s : System n) (G : Ghost n ℕ) (D : List (LogEntry ℕ)) (pos : Fin n → ℕ)
    (installs : List (ℕ × Option KVState)) : Prop where
  run : Run (Sane True) Cluster.init s.cluster
  refines : Refines True s.cluster G
  done_le : ∀ i, G.done i <+: D
  done_eq : ∃ i, G.done i = D
  origin : ∀ e ∈ D, e.isInternalLog = false → Origin s.calls e
  entries : s.cluster.EntriesMeet (Origin s.calls)
  apart : Apart s.calls
  seats : ∀ i, Seat (s.cluster.nodes i) (s.kv i) s.encoded.length D (pos i)
  installed : ∀ dst args, .installSnapshot dst args ∈ s.cluster.net →
    args.lastIncludedIndex ≤ D.length ∧ (∀ k ∈ args.data, k < s.encoded.length) ∧
      (args.lastIncludedIndex, stateOf s.encoded args.data) ∈ installs

namespace System.Backed

variable {filled : Fin n → ℕ → Bool} {s s' : System n} {G G' : Ghost n ℕ}
  {D D' : List (LogEntry ℕ)} {pos pos' : Fin n → ℕ} {installs installs' : List (ℕ × Option KVState)}
  {i : Fin n} {inp : Input n ℕ ℕ} {o : NodeOutcome n ℕ ℕ} {q : ℕ → Fin n → Prop}

/-- What a server has committed is in the committed log. -/
lemma commit_le (h : s.Backed G D pos installs) (i : Fin n) :
    (s.cluster.nodes i).rf.commitIndex ≤ D.length :=
  ((h.refines.node i).raft.commit_le).trans (h.done_le i).length_le

/-- What a server has compacted is in the committed log. -/
lemma base_le (h : s.Backed G D pos installs) (i : Fin n) :
    (s.cluster.nodes i).rf.lastIncludedIndex ≤ D.length :=
  ((h.refines.node i).raft.snap_le).trans (h.done_le i).length_le

/-- The command indexes of the committed log count its operations. -/
lemma numbered (h : s.Backed G D pos installs) : Numbered D := by
  obtain ⟨j, rfl⟩ := h.done_eq
  exact (h.refines.ghost.numbered_log j).shorten (h.refines.node j).raft.done_le

/-! ## The committed log grows -/

/-- An entry that server `i` knows to be committed and that is not under its snapshot is in its
log. -/
lemma mem_logs {rf : Raft n ℕ ℕ} (hrf : RaftOk True G' i rf) {k : ℕ} {e : LogEntry ℕ}
    (he : (G'.done i)[k]? = some e) (hk : rf.lastIncludedIndex ≤ k) : e ∈ rf.logs.tail := by
  obtain ⟨first, hlogs, -⟩ := hrf.log.logs
  obtain ⟨rest, hrest⟩ := hrf.done_le
  rw [hlogs, List.tail_cons, ← hrest]
  have hlt := (List.getElem?_eq_some_iff.mp he).1
  refine List.mem_of_getElem? (i := k - rf.lastIncludedIndex) ?_
  rw [List.getElem?_drop, Nat.add_sub_cancel' hk, List.getElem?_append_left hlt]
  exact he

/-- After an input of server `i` the committed log may have grown.

**Proof sketch.** What two servers know to be committed is comparable. So either another server knew
all of `D` and server `i` knows no more, or server `i` now knows more than all others, and its new
entries are above its snapshot, hence in its log. -/
lemma grow (h : s.Backed G D pos installs) (hs : NodeSound True q i G o G')
    (href : Refines True (s.cluster.after i o) G')
    (hentries : (s.cluster.after i o).EntriesMeet (Origin s.calls))
    (hbase : (Node.finish o).node.rf.lastIncludedIndex ≤ D.length) :
    ∃ D', D <+: D' ∧ (∀ k, G'.done k <+: D') ∧ (∃ k, G'.done k = D') ∧
      ∀ e ∈ D', e.isInternalLog = false → Origin s.calls e := by
  have hother : ∀ k, k ≠ i → G'.done k <+: D := fun k hk => hs.step.done k hk ▸ h.done_le k
  -- either nothing is new, or server `i` knows more than all others
  have hcases : (G'.done i <+: D ∧ ∃ k, G'.done k = D) ∨ D <+: G'.done i := by
    obtain ⟨j, hj⟩ := h.done_eq
    by_cases hji : j = i
    · subst hji
      exact Or.inr (hj ▸ hs.step.done_le)
    · have hj' : G'.done j = D := (hs.step.done j hji).trans hj
      rcases href.ghost.inv.committedBy_comparable (href.node i).raft.committed
        (href.node j).raft.committed with hle | hle
      · exact Or.inl ⟨hj' ▸ hle, j, hj'⟩
      · exact Or.inr (hj' ▸ hle)
  rcases hcases with ⟨hle, hex⟩ | hle
  · refine ⟨D, List.prefix_rfl, fun k => ?_, hex, h.origin⟩
    by_cases hk : k = i
    · exact hk ▸ hle
    · exact hother k hk
  · refine ⟨G'.done i, hle, fun k => ?_, ⟨i, rfl⟩, fun e he hint => ?_⟩
    · by_cases hk : k = i
      · subst hk
        exact List.prefix_rfl
      · exact (hother k hk).trans hle
    · obtain ⟨k, hk⟩ := List.getElem?_of_mem he
      rcases Nat.lt_or_ge k D.length with hlt | hge
      · obtain ⟨rest, hrest⟩ := hle
        rw [← hrest, List.getElem?_append_left hlt] at hk
        exact h.origin e (List.mem_of_getElem? hk) hint
      · have hnode := hs.node.raft
        have hmeet := hentries.nodes i
        rw [Cluster.nodes_after_self] at hmeet
        exact hmeet e (mem_logs hnode hk (hbase.trans hge)) hint

/-- The snapshot that server `i` may send. -/
def offer (s : System n) (i : Fin n) : ℕ × Option KVState :=
  ((s.cluster.nodes i).rf.lastIncludedIndex,
    stateOf s.encoded (s.cluster.nodes i).rf.persister.snapshot)

/-- The service commits what is new, and server `i` sends its snapshot. -/
lemma reach_grow (h : s.Backed G D pos installs) (hD : D <+: D') (hnum : Numbered D')
    (horigin : ∀ e ∈ D', e.isInternalLog = false → Origin s.calls e) (i : Fin n) :
    Transition.Reach Service.step Quiet (s.service filled D pos installs)
      (s.service filled D' pos (installs ++ [offer s i])) := by
  obtain ⟨es, rfl⟩ := hD
  have hcommit := reach_commit es D (s.service filled D pos installs) rfl hnum horigin h.apart
  exact hcommit.trans (.single (.sendInstall i) ⟨trivial, rfl⟩ rfl)

/-! ## What does not change -/

/-- The messages of a server keep their meaning. -/
lemma messageOf_keep (h : s.Backed G D pos installs) (hkeeps : Keeps s.calls s'.calls)
    (henc : s.encoded <+: s'.encoded) {k : Fin n} {m : ApplyMsg ℕ ℕ}
    (hm : m ∈ (s.cluster.nodes k).rf.applyChan) (b : Bool) :
    messageOf s'.calls s'.encoded b m = messageOf s.calls s.encoded b m := by
  cases hvalid : m.commandValid with
  | false => simp [messageOf, hvalid, stateOf_extend ((h.seats k).chan m hm) henc]
  | true =>
    obtain ⟨j, e, he, -, hcmd, -, hint⟩ := ((h.refines.node k).raft.chan m hm).entry trivial hvalid
    have hmem : e ∈ D := (h.done_le k).subset (List.mem_of_getElem? he)
    have hbind := (h.origin e hmem hint).opAt_keep hkeeps b
    rw [← hcmd] at hbind
    simp [messageOf, hvalid, hbind]

/-- The messages of a server mean the same after a step that leaves its channel and accepted calls.
-/
lemma channel_keep (h : s.Backed G D pos installs) (hkeeps : Keeps s.calls s'.calls)
    (henc : s.encoded <+: s'.encoded) {k : Fin n}
    (hchan : (s'.cluster.nodes k).rf.applyChan = (s.cluster.nodes k).rf.applyChan)
    (hpast : (s'.cluster.nodes k).past = (s.cluster.nodes k).past) :
    s'.channel filled k = s.channel filled k := by
  unfold System.channel
  rw [hchan, hpast]
  refine List.map_congr_left fun p hp => ?_
  exact h.messageOf_keep hkeeps henc (List.fst_mem_of_mem_zipIdx hp) _

/-- A server that a step leaves alone is the same replica of the service.

**Proof sketch.** What was encoded before decodes to the same state in a longer list, so the
snapshots and the messages of the channel are the same. -/
lemma replica_keep (h : s.Backed G D pos installs) (hkeeps : Keeps s.calls s'.calls)
    (henc : s.encoded <+: s'.encoded) {k : Fin n}
    (hnode : s'.cluster.nodes k = s.cluster.nodes k) (hkv : s'.kv k = s.kv k) (p : ℕ) :
    s'.replica filled k p = s.replica filled k p := by
  have hcap : ((s.cluster.nodes k).captured.bind fun c =>
      (stateOf s'.encoded (some c.1)).map fun st => (st, c.2)) =
      (s.cluster.nodes k).captured.bind fun c =>
        (stateOf s.encoded (some c.1)).map fun st => (st, c.2) := by
    cases hc : (s.cluster.nodes k).captured with
    | none => rfl
    | some c =>
      have hlt : ∀ j ∈ some c.1, j < s.encoded.length := by
        rintro j hj
        obtain rfl : c.1 = j := by simpa using hj
        exact (h.seats k).captured c hc
      rw [Option.bind_some, Option.bind_some, stateOf_extend hlt henc]
  unfold System.replica
  rw [h.channel_keep hkeeps henc (by rw [hnode]) (by rw [hnode]), hnode, hkv, hcap,
    stateOf_extend (h.seats k).snapshot henc]

/-- The service of a system in which one server has moved. -/
lemma service_keep (h : s.Backed G D pos installs)
    (horigin : ∀ e ∈ D', e.isInternalLog = false → Origin s.calls e)
    (hkeeps : Keeps s.calls s'.calls) (henc : s.encoded <+: s'.encoded)
    (hnodes : ∀ k, k ≠ i → s'.cluster.nodes k = s.cluster.nodes k)
    (hkv : ∀ k, k ≠ i → s'.kv k = s.kv k) (hreq : s'.requests = s.requests)
    (hclerks : s'.clerks = s.clerks) (p : ℕ) :
    s'.service filled D' (Function.update pos i p) installs' =
      { (s.service filled D' pos installs').setReplica i (s'.replica filled i p) with
        calls := s'.calls } := by
  have hlog : D'.map (entryOf s'.calls) = D'.map (entryOf s.calls) :=
    List.map_congr_left fun e he => entryOf_keep (horigin e he) hkeeps
  have hreplicas : (fun k => s'.replica filled k (Function.update pos i p k)) =
      Function.update (fun k => s.replica filled k (pos k)) i (s'.replica filled i p) := by
    funext k
    by_cases hk : k = i
    · subst hk
      simp
    · rw [Function.update_of_ne hk, Function.update_of_ne hk,
        h.replica_keep hkeeps henc (hnodes k hk) (hkv k hk)]
  unfold System.service Service.setReplica
  rw [hlog, hreplicas, hreq, hclerks]

/-- One server has moved, and the invariant holds for it again.

**Proof sketch.** All parts but two are given. The other servers have not moved, and what was
committed for them is still. A snapshot in flight was so before, or has just been sent by server `i`
and is the offered one. -/
lemma assemble (h : s.Backed G D pos installs) (ho : (s.cluster.nodes i).exec inp = some o)
    (hrun : Run (Sane True) Cluster.init s'.cluster)
    (href : Refines True (s.cluster.after i o) G')
    (hentries : (s.cluster.after i o).EntriesMeet (Origin s.calls))
    (hnodes : s'.cluster.nodes = (s.cluster.after i o).nodes)
    (hnet : s'.cluster.net ⊆ (s.cluster.after i o).net) (hD : D <+: D')
    (hdone : ∀ k, G'.done k <+: D') (hlast : ∃ k, G'.done k = D')
    (horigin : ∀ e ∈ D', e.isInternalLog = false → Origin s.calls e)
    (hkeeps : Keeps s.calls s'.calls) (hapart : Apart s'.calls) (henc : s.encoded <+: s'.encoded)
    (hkv : ∀ k, k ≠ i → s'.kv k = s.kv k) {p : ℕ}
    (hseat : Seat (Node.finish o).node (s'.kv i) s'.encoded.length D' p) :
    s'.Backed G' D' (Function.update pos i p) (installs ++ [offer s i]) where
  run := hrun
  refines := refines_lose href hnodes hnet
  done_le := hdone
  done_eq := hlast
  origin e he hint := (horigin e he hint).keep hkeeps
  entries := (hentries.lose hnodes hnet).mono fun e he => he.keep hkeeps
  apart := hapart
  seats k := by
    by_cases hk : k = i
    · subst hk
      rw [hnodes, Cluster.nodes_after_self, Function.update_self]
      exact hseat
    · rw [hnodes, Cluster.nodes_after_of_ne _ hk, Function.update_of_ne hk, hkv k hk]
      exact (h.seats k).extend hD (h.commit_le k) henc.length_le
  installed dst args hargs := by
    have hold : args.lastIncludedIndex ≤ D.length ∧ (∀ k ∈ args.data, k < s.encoded.length) ∧
        (args.lastIncludedIndex, stateOf s.encoded args.data) ∈ installs ++ [offer s i] := by
      rcases Cluster.mem_net_after (hnet hargs) with hmem | hmem
      · obtain ⟨h1, h2, h3⟩ := h.installed dst args hmem
        exact ⟨h1, h2, List.mem_append_left _ h3⟩
      · -- a new request carries the snapshot of its sender
        have hsent := (Node.exec_handled ho).sent _ hmem
        cases hsent with
        | install bt hb =>
          exact ⟨h.base_le i, (h.seats i).snapshot, List.mem_append_right _ (by simp [offer,
            Raft.buildInstall])⟩
    obtain ⟨h1, h2, h3⟩ := hold
    refine ⟨h1.trans hD.length_le, fun k hk => (h2 k hk).trans_le henc.length_le, ?_⟩
    rw [stateOf_extend h2 henc]
    exact h3

/-! ## One input -/

/-- Server `i` of the system has handled an input, and the cluster is now `c`. -/
structure Advance (s : System n) (G G' : Ghost n ℕ) (i : Fin n) (inp : Input n ℕ ℕ)
    (o : NodeOutcome n ℕ ℕ) (c : Cluster n ℕ ℕ) : Prop where
  exec : (s.cluster.nodes i).exec inp = some o
  deliverable : s.cluster.Deliverable i inp
  run : Run (Sane True) Cluster.init c
  sound : NodeSound True (fun T l => quorumSize n ≤ (s.cluster.voters T l).card) i G o G'
  refines : Refines True (s.cluster.after i o) G'
  entries : (s.cluster.after i o).EntriesMeet (Origin s.calls)
  nodes : c.nodes = (s.cluster.after i o).nodes
  net : c.net ⊆ (s.cluster.after i o).net

/-- Some run of the service leads from the one system to the other, which is backed again. -/
def Follows (filled : Fin n → ℕ → Bool) (s : System n) (D : List (LogEntry ℕ)) (pos : Fin n → ℕ)
    (installs : List (ℕ × Option KVState)) (G' : Ghost n ℕ) (s' : System n) : Prop :=
  ∃ D' pos' installs', s'.Backed G' D' pos' installs' ∧ Transition.Reach Service.step Quiet
    (s.service filled D pos installs) (s'.service filled D' pos' installs')

/-- It is enough to follow server `i`, once all that is committed has been committed. -/
lemma follows (h : s.Backed G D pos installs) (ha : Advance s G G' i inp o s'.cluster)
    (hbase : (Node.finish o).node.rf.lastIncludedIndex ≤ D.length)
    (hkeeps : Keeps s.calls s'.calls) (hapart : Apart s'.calls) (henc : s.encoded <+: s'.encoded)
    (hkv : ∀ k, k ≠ i → s'.kv k = s.kv k) (hreq : s'.requests = s.requests)
    (hclerks : s'.clerks = s.clerks)
    (hserver : ∀ D', D <+: D' → G'.done i <+: D' →
      (∀ e ∈ D', e.isInternalLog = false → Origin s.calls e) →
      ∃ p, Seat (Node.finish o).node (s'.kv i) s'.encoded.length D' p ∧
        Transition.Reach Service.step Quiet (s.service filled D' pos (installs ++ [offer s i]))
          { (s.service filled D' pos (installs ++ [offer s i])).setReplica i
            (s'.replica filled i p) with calls := s'.calls }) :
    Follows filled s D pos installs G' s' := by
  obtain ⟨D', hD, hdone, hlast, horigin⟩ := h.grow ha.sound ha.refines ha.entries hbase
  obtain ⟨p, hseat, hreach⟩ := hserver D' hD (hdone i) horigin
  have hback := h.assemble ha.exec ha.run ha.refines ha.entries ha.nodes ha.net hD hdone hlast
    horigin hkeeps hapart henc hkv hseat
  refine ⟨D', _, _, hback, ?_⟩
  have hothers : ∀ k, k ≠ i → s'.cluster.nodes k = s.cluster.nodes k := by
    intro k hk
    rw [ha.nodes, Cluster.nodes_after_of_ne _ hk]
  rw [h.service_keep horigin hkeeps henc hothers hkv hreq hclerks p]
  exact (h.reach_grow hD hback.numbered horigin i).trans hreach

/-- An entry that the server has committed is in its log, and at its place in `D'`. -/
lemma logAt_of_commit {rf : Raft n ℕ ℕ} (hrf : RaftOk True G' i rf) (hok : G'.Ok)
    (hdone : G'.done i <+: D') {k : ℕ} (hlow : rf.lastIncludedIndex ≤ k)
    (hk : k < rf.commitIndex) :
    ∃ e, rf.logAt (k + 1) = some e ∧ e.logIndex = k + 1 ∧ D'[k]? = some e := by
  have hlt : k < (G'.done i).length := hk.trans_le hrf.commit_le
  have hlen : k + 1 ≤ (G'.st.log i).length := hlt.trans_le hrf.done_le.length_le
  obtain ⟨e, he, hidx, -, -, hget⟩ :=
    hrf.log.logAt (hok.numbered_log i) (show rf.lastIncludedIndex ≤ k + 1 by omega) hlen
  refine ⟨e, he, hidx, ?_⟩
  have hget' : (G'.st.log i)[k]? = some e := hget (by omega)
  obtain ⟨rest, hrest⟩ := hrf.done_le
  rw [← hrest, List.getElem?_append_left hlt] at hget'
  obtain ⟨rest', rfl⟩ := hdone
  rw [List.getElem?_append_left hlt]
  exact hget'

/-- More messages on the channel. -/
lemma channel_append {c : Cluster n ℕ ℕ} {ms : List (ApplyMsg ℕ ℕ)}
    (hchan : (c.nodes i).rf.applyChan = (s.cluster.nodes i).rf.applyChan ++ ms)
    (hpast : (c.nodes i).past = (s.cluster.nodes i).past) :
    System.channel filled { s with cluster := c } i = s.channel filled i ++
      (ms.zipIdx ((s.cluster.nodes i).past.length +
        (s.cluster.nodes i).rf.applyChan.length)).map fun x =>
          messageOf s.calls s.encoded (filled i x.2) x.1 := by
  unfold System.channel
  rw [hchan, hpast, List.zipIdx_append, List.map_append]

/-- Every message of the channel is one message of the service. -/
lemma length_channel (s : System n) (i : Fin n) :
    (s.channel filled i).length = (s.cluster.nodes i).rf.applyChan.length := by
  simp [System.channel]

/-- A server whose channel has become longer. -/
lemma replica_append {c : Cluster n ℕ ℕ} {ms : List (ApplyMsg ℕ ℕ)} (filled : Fin n → ℕ → Bool)
    (p p₀ : ℕ)
    (hchan : (c.nodes i).rf.applyChan = (s.cluster.nodes i).rf.applyChan ++ ms)
    (hpast : (c.nodes i).past = (s.cluster.nodes i).past)
    (hreceived : (c.nodes i).received = (s.cluster.nodes i).received)
    (hcaptured : (c.nodes i).captured = (s.cluster.nodes i).captured)
    (hle : (s.cluster.nodes i).received ≤ (s.cluster.nodes i).rf.applyChan.length) :
    System.replica filled { s with cluster := c } i p = { s.replica filled i p₀ with
      pos := p
      applyCh := (s.replica filled i p₀).applyCh ++ (ms.zipIdx ((s.cluster.nodes i).past.length +
        (s.cluster.nodes i).rf.applyChan.length)).map fun x =>
          messageOf s.calls s.encoded (filled i x.2) x.1
      lastIncludedIndex := (c.nodes i).rf.lastIncludedIndex
      snapshot := stateOf s.encoded (c.nodes i).rf.persister.snapshot } := by
  unfold System.replica
  rw [channel_append hchan hpast, hreceived, hcaptured,
    List.drop_append_of_le_length (by rw [length_channel]; exact hle)]

/-- Entries were committed, or nothing happened that the service can see.

**Proof sketch.** The messages that were sent are those for the entries that were committed in
between (`Conveys`). The service commits what the committed log has more, and delivers these entries
one after the other. -/
lemma entries_step {c : Cluster n ℕ ℕ} (h : s.Backed G D pos installs)
    (ha : Advance s G G' i inp o c)
    (hrf : (s.cluster.nodes i).rf.Conveys (Node.finish o).node.rf)
    (hservice : (s.cluster.nodes i).SameService (Node.finish o).node) :
    Follows filled s D pos installs G' { s with cluster := c } := by
  have hself : c.nodes i = (Node.finish o).node := by
    rw [ha.nodes, Cluster.nodes_after_self]
  have hraft := ha.sound.node.raft
  have hseat := h.seats i
  have hlow := (h.refines.node i).raft.tidy_le trivial
  refine h.follows ha (hrf.index ▸ h.base_le i) (.refl _) h.apart List.prefix_rfl
    (fun _ _ => rfl) rfl rfl fun D' hD hdone horigin => ?_
  obtain ⟨p, hp, hsilent, hreach⟩ := reach_deliver (i := i) (Node.finish o).node.rf
    s.encoded (filled i)
    ((Node.finish o).node.rf.commitIndex - (s.cluster.nodes i).rf.commitIndex)
    (s.cluster.nodes i).rf.commitIndex
    ((s.cluster.nodes i).past.length + (s.cluster.nodes i).rf.applyChan.length)
    (s.service filled D' pos (installs ++ [offer s i])) (Nat.add_sub_cancel' hrf.le) rfl
    (fun k hk hlt => by
      obtain ⟨e, he, hidx, hget⟩ := logAt_of_commit hraft ha.sound.ghost hdone
        (by rw [hrf.index]; omega) hlt
      exact ⟨e, he, hidx, hget, horigin e (List.mem_of_getElem? hget)⟩)
    hseat.pos_le (hseat.silent.extend hD (h.commit_le i))
  refine ⟨p, ⟨hp, hsilent, ?_, ?_, ?_, ?_, ?_⟩, ?_⟩
  · rw [hservice.captured]
    exact hseat.captured
  · rw [hrf.snapshot]
    exact hseat.snapshot
  · intro m hm k hk
    rw [hrf.chan] at hm
    rcases List.mem_append.mp hm with hm | hm
    · exact hseat.chan m hm k hk
    · simp [Raft.snapshot_of_mem_applyMsgs hm] at hk
  · rw [hservice.received, hrf.chan, List.length_append]
    exact hseat.received.trans (Nat.le_add_right _ _)
  · rw [hservice.lastAppliedIndex]
    exact hseat.applied
  · have hreplica := replica_append filled p (pos i) (hself ▸ hrf.chan)
      (hself ▸ hservice.past) (hself ▸ hservice.received) (hself ▸ hservice.captured) hseat.received
    rw [hself, hrf.index, hrf.snapshot] at hreplica
    rw [hreplica]
    exact hreach

/-- A snapshot was installed: it is one of those on their way.

**Proof sketch.** The request was in flight, so its snapshot is among the installs of the service,
and it is above the server's snapshot. Both channels get one message, which is the same. -/
lemma installed_step {c : Cluster n ℕ ℕ} {dst : Fin n} {args : InstallSnapshotArgs n ℕ} {g : ℕ}
    (h : s.Backed G D pos installs)
    (ha : Advance s G G' i (.recv (.installSnapshot dst args) g) o c)
    (hlt : (s.cluster.nodes i).rf.lastIncludedIndex < args.lastIncludedIndex)
    (hbase : (Node.finish o).node.rf.lastIncludedIndex = args.lastIncludedIndex)
    (hsnap : (Node.finish o).node.rf.persister.snapshot = args.data)
    (hcommit : (Node.finish o).node.rf.commitIndex = args.lastIncludedIndex)
    (hchan : (Node.finish o).node.rf.applyChan =
      (s.cluster.nodes i).rf.applyChan ++ [(Node.finish o).node.rf.snapshotMsg])
    (hservice : (s.cluster.nodes i).SameService (Node.finish o).node) :
    Follows filled s D pos installs G' { s with cluster := c } := by
  have hself : c.nodes i = (Node.finish o).node := by
    rw [ha.nodes, Cluster.nodes_after_self]
  have hseat := h.seats i
  obtain ⟨hle, hdata, hmem⟩ := h.installed dst args (ha.deliverable _ g rfl).1
  refine h.follows ha (hbase ▸ hle) (.refl _) h.apart List.prefix_rfl
    (fun _ _ => rfl) rfl rfl fun D' hD hdone horigin => ?_
  refine ⟨args.lastIncludedIndex, ⟨hcommit.ge, ?_, ?_, ?_, ?_, ?_, ?_⟩, ?_⟩
  · intro k e hlow hk
    omega
  · rw [hservice.captured]
    exact hseat.captured
  · rw [hsnap]
    exact hdata
  · intro m hm k hk
    rw [hchan] at hm
    rcases List.mem_append.mp hm with hm | hm
    · exact hseat.chan m hm k hk
    · obtain rfl := List.mem_singleton.mp hm
      exact hdata k (hsnap ▸ hk)
  · rw [hservice.received, hchan, List.length_append]
    exact hseat.received.trans (Nat.le_add_right _ _)
  · rw [hservice.lastAppliedIndex]
    exact hseat.applied
  · have hreplica := replica_append filled args.lastIncludedIndex (pos i) (hself ▸ hchan)
      (hself ▸ hservice.past) (hself ▸ hservice.received) (hself ▸ hservice.captured) hseat.received
    rw [hself, hbase, hsnap] at hreplica
    obtain ⟨m, hm⟩ := List.getElem?_of_mem (List.mem_append_left [offer s i] hmem)
    refine .single (.installSnapshot i m) ⟨trivial, rfl⟩ ?_
    have hmsg : messageOf s.calls s.encoded (filled i ((s.cluster.nodes i).past.length +
        (s.cluster.nodes i).rf.applyChan.length)) (Node.finish o).node.rf.snapshotMsg =
        snapshotMsg args.lastIncludedIndex (stateOf s.encoded args.data) := by
      simp [messageOf, Raft.snapshotMsg, snapshotMsg, hbase, hsnap]
    have hnew : ¬ args.lastIncludedIndex ≤ (s.replica filled i (pos i)).lastIncludedIndex :=
      not_le.mpr hlt
    have hinst : (s.replica filled i (pos i)).installSnapshot args.lastIncludedIndex
        (stateOf s.encoded args.data) =
        System.replica filled { s with cluster := c } i args.lastIncludedIndex := by
      rw [Replica.installSnapshot, if_neg hnew, hreplica, List.zipIdx_singleton, List.map_singleton,
        hmsg]
    have hstep : ∀ σ : Service n, σ.installs = installs ++ [offer s i] →
        σ.step (.installSnapshot i m) = some (σ.setReplica i ((σ.replicas i).installSnapshot
          args.lastIncludedIndex (stateOf s.encoded args.data))) := by
      intro σ hσ
      simp only [Service.step, hσ, hm, Option.map_some]
    rw [hstep _ rfl]
    exact congrArg (fun r => some (Service.setReplica _ i r)) hinst

/-- The state behind a snapshot that the service has encoded. -/
lemma exists_captured (h : s.Backed G D pos installs) {snapshot index : ℕ}
    (hcap : (s.cluster.nodes i).captured = some (snapshot, index))
    (filled : Fin n → ℕ → Bool) (p : ℕ) :
    ∃ st, stateOf s.encoded (some snapshot) = some st ∧
      (s.replica filled i p).captured = some (st, index) := by
  have hlt := (h.seats i).captured _ hcap
  refine ⟨s.encoded[snapshot], List.getElem?_eq_getElem hlt, ?_⟩
  simp [System.replica, hcap, stateOf, List.getElem?_eq_getElem hlt]

/-- The service has handed over what it captured.

**Proof sketch.** The channel and the commit index have not changed, so the server stays seated
where it is; taking the snapshot is a quiet step of the service. -/
lemma handed_step {c : Cluster n ℕ ℕ} {rf : Raft n ℕ ℕ} (h : s.Backed G D pos installs)
    (ha : Advance s G G' i inp o c) (hbase : rf.lastIncludedIndex ≤ D.length)
    (hsnap : ∀ k ∈ rf.persister.snapshot, k < s.encoded.length)
    (hcommit : rf.commitIndex = (s.cluster.nodes i).rf.commitIndex)
    (hchan : rf.applyChan = (s.cluster.nodes i).rf.applyChan)
    (hnode : (Node.finish o).node = Node.setRaft { s.cluster.nodes i with captured := none } rf)
    (htake : (s.replica filled i (pos i)).takeSnapshot =
      some (System.replica filled { s with cluster := c } i (pos i))) :
    Follows filled s D pos installs G' { s with cluster := c } := by
  have hseat := h.seats i
  refine h.follows ha (by rw [hnode]; exact hbase) (.refl _) h.apart List.prefix_rfl
    (fun _ _ => rfl) rfl rfl fun D' hD hdone horigin => ?_
  refine ⟨pos i, ?_, ?_⟩
  · rw [hnode]
    refine ⟨hcommit ▸ hseat.pos_le, ?_, by simp [Node.setRaft], hsnap, ?_, ?_, hseat.applied⟩
    · exact (congrArg (Silent D' (pos i)) hcommit).mpr (hseat.silent.extend hD (h.commit_le i))
    · intro m hm
      exact hseat.chan m (hchan ▸ hm)
    · exact hseat.received.trans (congrArg List.length hchan).ge
  · have hstep : ∀ σ : Service n, ∀ r, (σ.replicas i).takeSnapshot = some r →
        σ.step (.takeSnapshot i) = some (σ.setReplica i r) := by
      intro σ r hr
      simp only [Service.step, hr, Option.map_some]
    exact .single (.takeSnapshot i) ⟨trivial, rfl⟩ (hstep _ _ htake)

/-- The service handed over an old snapshot. -/
lemma skipped_step {c : Cluster n ℕ ℕ} {snapshot index : ℕ} (h : s.Backed G D pos installs)
    (ha : Advance s G G' i inp o c)
    (hcap : (s.cluster.nodes i).captured = some (snapshot, index))
    (hle : index ≤ (s.cluster.nodes i).rf.lastIncludedIndex)
    (hnode : (Node.finish o).node =
      Node.setRaft { s.cluster.nodes i with captured := none } (s.cluster.nodes i).rf) :
    Follows filled s D pos installs G' { s with cluster := c } := by
  have hself : c.nodes i = (Node.finish o).node := by
    rw [ha.nodes, Cluster.nodes_after_self]
  refine h.handed_step ha (h.base_le i) (h.seats i).snapshot rfl rfl hnode ?_
  obtain ⟨st, -, hst⟩ := h.exists_captured hcap filled (pos i)
  have hold : index ≤ (s.replica filled i (pos i)).lastIncludedIndex := hle
  simp only [Replica.takeSnapshot, hst, if_pos hold]
  simp [System.replica, System.channel, hself, hnode, Node.setRaft]

/-- The service handed over a snapshot: it is an encoded state, and its index is committed. -/
lemma taken_step {c : Cluster n ℕ ℕ} {snapshot index : ℕ} {rf : Raft n ℕ ℕ}
    (h : s.Backed G D pos installs) (ha : Advance s G G' i inp o c)
    (hcap : (s.cluster.nodes i).captured = some (snapshot, index))
    (hlt : (s.cluster.nodes i).rf.lastIncludedIndex < index) (hbase : rf.lastIncludedIndex = index)
    (hsnap : rf.persister.snapshot = some snapshot)
    (hcommit : rf.commitIndex = (s.cluster.nodes i).rf.commitIndex)
    (hchan : rf.applyChan = (s.cluster.nodes i).rf.applyChan)
    (hnode : (Node.finish o).node = Node.setRaft { s.cluster.nodes i with captured := none } rf) :
    Follows filled s D pos installs G' { s with cluster := c } := by
  have hself : c.nodes i = (Node.finish o).node := by
    rw [ha.nodes, Cluster.nodes_after_self]
  have hle : index ≤ D.length :=
    ((h.refines.node i).captured _ _ hcap).trans (h.done_le i).length_le
  refine h.handed_step ha (hbase.trans_le hle) (fun k hk => ?_) hcommit hchan hnode ?_
  · obtain rfl : snapshot = k := Option.some.inj (hsnap.symm.trans hk)
    exact (h.seats i).captured _ hcap
  · obtain ⟨st, hst, hcap'⟩ := h.exists_captured hcap filled (pos i)
    have hnew : ¬ index ≤ (s.replica filled i (pos i)).lastIncludedIndex := not_le.mpr hlt
    simp only [Replica.takeSnapshot, hcap', if_neg hnew]
    simp [System.replica, System.channel, hself, hnode, Node.setRaft, hbase, hsnap, hst, hchan]

/-- The server starts again.

**Proof sketch.** The server has its persisted snapshot and has sent it; everything else of the
service starts anew. This is the restart of the replica. -/
lemma restarted_step {c : Cluster n ℕ ℕ} (h : s.Backed G D pos installs)
    (ha : Advance s G G' i inp o c)
    (hbase : (s.cluster.nodes i).rf.SameBase (Node.finish o).node.rf)
    (hcommit : (Node.finish o).node.rf.commitIndex = (Node.finish o).node.rf.lastIncludedIndex)
    (hchan : (Node.finish o).node.rf.applyChan = [(Node.finish o).node.rf.snapshotMsg])
    (hreceived : (Node.finish o).node.received = 0)
    (happlied : (Node.finish o).node.lastAppliedIndex = 0)
    (hcap : (Node.finish o).node.captured = none) :
    Follows filled s D pos installs G' { s.restarted i with cluster := c } := by
  have hself : c.nodes i = (Node.finish o).node := by
    rw [ha.nodes, Cluster.nodes_after_self]
  have hseat := h.seats i
  refine h.follows ha (hbase.index ▸ h.base_le i) (.crash _ i) (h.apart.congr (by
      simp [System.restarted, Function.comp_def, Call.op_crash])) List.prefix_rfl
    (fun k hk => Function.update_of_ne hk _ _) rfl rfl fun D' hD hdone horigin => ?_
  refine ⟨(s.cluster.nodes i).rf.lastIncludedIndex, ⟨?_, ?_, ?_, ?_, ?_, ?_, ?_⟩, ?_⟩
  · rw [hcommit, hbase.index]
  · rw [hcommit, hbase.index]
    intro k e hlow hk
    omega
  · simp [hcap]
  · rw [hbase.snapshot]
    exact hseat.snapshot
  · intro m hm k hk
    rw [hchan] at hm
    obtain rfl := List.mem_singleton.mp hm
    exact hseat.snapshot k (hbase.snapshot ▸ hk)
  · simp [hreceived]
  · simp [happlied, System.restarted, startKVServer]
  · refine .single (.restart i) ⟨trivial, rfl⟩ ?_
    have hrestart : (s.replica filled i (pos i)).restart = System.replica filled
        { s.restarted i with cluster := c } i (s.cluster.nodes i).rf.lastIncludedIndex := by
      simp [System.replica, System.channel, Replica.restart, System.restarted, hself, hreceived,
        hcap, hchan, messageOf, Raft.snapshotMsg, snapshotMsg, hbase.index, hbase.snapshot]
    rw [← hrestart]
    rfl

/-- What a message does to the index applied last does not depend on the operation in it. -/
lemma nextApplied_messageOf (calls : List (Call n)) (encoded : List KVState) (b : Bool)
    (applied : ℕ) (m : ApplyMsg ℕ ℕ) :
    nextApplied applied (messageOf calls encoded b m) = nextApplied applied m := by
  cases hvalid : m.commandValid <;> simp [nextApplied, messageOf, hvalid]

/-- `applyMsgLoop` has handled a message.

**Proof sketch.** The next message of the channel is the next one of the replica, and the key/value
server applies it in both. -/
lemma apply_step {c : Cluster n ℕ ℕ} {kv : KVServer} (h : s.Backed G D pos installs)
    (ha : Advance s G G' i (.act .deliver) o c)
    (hkv : ((s.channel filled i)[(s.cluster.nodes i).received]?).bind (s.kv i).applyMsg =
      some kv) :
    Follows filled s D pos installs G'
      { s with kv := Function.update s.kv i kv, cluster := c } := by
  have hself : c.nodes i = (Node.finish o).node := by
    rw [ha.nodes, Cluster.nodes_after_self]
  have hseat := h.seats i
  obtain ⟨msg, hget, happly⟩ := Option.bind_eq_some_iff.mp hkv
  obtain ⟨m, hm, hmsg⟩ : ∃ m, (s.cluster.nodes i).rf.applyChan[(s.cluster.nodes i).received]? =
      some m ∧ ∃ b, messageOf s.calls s.encoded b m = msg := by
    unfold System.channel at hget
    rw [List.getElem?_map, List.getElem?_zipIdx] at hget
    obtain ⟨x, hx, rfl⟩ := Option.map_eq_some_iff.mp hget
    obtain ⟨m, hm, rfl⟩ := Option.map_eq_some_iff.mp hx
    exact ⟨m, hm, _, rfl⟩
  have hnode : (Node.finish o).node = { s.cluster.nodes i with
      received := (s.cluster.nodes i).received + 1
      lastAppliedIndex := nextApplied (s.cluster.nodes i).lastAppliedIndex m } := by
    have ho := ha.exec
    simp only [Node.exec, Node.act, hm] at ho
    rw [← Option.some.inj ho]
    rfl
  refine h.follows ha (by rw [hnode]; exact h.base_le i) (.refl _) h.apart List.prefix_rfl
    (fun k hk => Function.update_of_ne hk _ _) rfl rfl fun D' hD hdone horigin => ?_
  have hlt := (List.getElem?_eq_some_iff.mp hm).1
  refine ⟨pos i, ?_, ?_⟩
  · rw [hnode]
    refine ⟨hseat.pos_le, hseat.silent.extend hD (h.commit_le i), hseat.captured, hseat.snapshot,
      hseat.chan, hlt, ?_⟩
    obtain ⟨b, rfl⟩ := hmsg
    change nextApplied _ m = (Function.update s.kv i kv i).lastAppliedIndex
    rw [Function.update_self, KVServer.lastAppliedIndex_applyMsg happly, nextApplied_messageOf,
      ← hseat.applied]
  · refine .single (.apply i) ⟨trivial, rfl⟩ ?_
    have hch : (s.replica filled i (pos i)).applyCh =
        msg :: (s.channel filled i).drop ((s.cluster.nodes i).received + 1) := by
      obtain ⟨hlt', rfl⟩ := List.getElem?_eq_some_iff.mp hget
      exact List.drop_eq_getElem_cons hlt'
    have happ : (s.replica filled i (pos i)).apply = some (System.replica filled
        { s with kv := Function.update s.kv i kv, cluster := c } i (pos i)) := by
      simp only [Replica.apply, hch]
      change ((s.kv i).applyMsg msg).map _ = _
      rw [happly]
      simp [System.replica, System.channel, hself, hnode]
    have hstep : ∀ σ : Service n, ∀ r, (σ.replicas i).apply = some r →
        σ.step (.apply i) = some (σ.setReplica i r) := by
      intro σ r hr
      simp only [Service.step, hr, Option.map_some]
    exact hstep _ _ happ

/-- `snapshotLoop` has encoded the maps.

**Proof sketch.** The new snapshot stands for the state that has just been encoded; all other
snapshots stand for what they stood for, since encoded states are only added. -/
lemma capture_step {c : Cluster n ℕ ℕ} (h : s.Backed G D pos installs)
    (ha : Advance s G G' i (.act (.capture s.encoded.length)) o c) :
    Follows filled s D pos installs G'
      { s with encoded := s.encoded ++ [(s.kv i).toKVState], cluster := c } := by
  have hself : c.nodes i = (Node.finish o).node := by
    rw [ha.nodes, Cluster.nodes_after_self]
  have hseat := h.seats i
  have hnode : (Node.finish o).node = { s.cluster.nodes i with
      captured := some (s.encoded.length, (s.cluster.nodes i).lastAppliedIndex) } := by
    have ho := ha.exec
    simp only [Node.exec, Node.act] at ho
    rw [← Option.some.inj ho]
    rfl
  have henc : s.encoded <+: s.encoded ++ [(s.kv i).toKVState] := List.prefix_append _ _
  refine h.follows ha (by rw [hnode]; exact h.base_le i) (.refl _) h.apart henc
    (fun _ _ => rfl) rfl rfl fun D' hD hdone horigin => ?_
  refine ⟨pos i, ?_, ?_⟩
  · rw [hnode]
    have hsize := henc.length_le
    have hold := hseat.extend hD (h.commit_le i) hsize
    refine ⟨hold.pos_le, hold.silent, ?_, hold.snapshot, hold.chan, hold.received, hold.applied⟩
    rintro x hx
    obtain rfl := Option.some.inj hx
    simp
  · refine .single (.capture i) ⟨trivial, rfl⟩ ?_
    have hcap : (s.replica filled i (pos i)).capture = System.replica filled
        { s with encoded := s.encoded ++ [(s.kv i).toKVState], cluster := c } i (pos i) := by
      have hchannel : System.channel filled
          { s with encoded := s.encoded ++ [(s.kv i).toKVState], cluster := c } i =
          s.channel filled i := by
        refine h.channel_keep ?_ henc ?_ ?_
        · exact .refl _
        · rw [hself, hnode]
        · rw [hself, hnode]
      have hsnap := stateOf_extend hseat.snapshot henc
      have hnew : stateOf (s.encoded ++ [(s.kv i).toKVState]) (some s.encoded.length) =
          some (s.kv i).toKVState := by
        simp [stateOf]
      unfold System.replica Replica.capture KVServer.capture
      rw [hchannel]
      simp [hself, hnode, hsnap, hnew, hseat.applied]
    rw [← hcap]
    rfl

end System.Backed

end KvRaft

end Mit6824
