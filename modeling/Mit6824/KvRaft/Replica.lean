import Mit6824.LogMachine.Basic
import Mit6824.KvRaft.Service

set_option autoImplicit false

/-!
# Every replica is a prefix of the log

The two maps of a server are a function of the committed log and of `lastAppliedIndex`, and so
is every snapshot and its label, whatever the order of deliveries, snapshots, transfers and
crashes. A snapshot is decoded into the live maps without clearing them; this is harmless because
no operation removes a key.

## Main definitions

* `Mit6824.KvRaft.machine` — the key/value service as a machine over the committed log.
* `Mit6824.KvRaft.Labelled` — a snapshot that holds the state at its label.
* `Mit6824.KvRaft.Feed` — messages that continue the delivery from a position.
* `Mit6824.KvRaft.Replica.Sound` — the invariant of a server.

## Main results

* `Mit6824.KvRaft.replicas_follow_log` — the maps and all snapshots in every state of every run.
-/

namespace Mit6824

namespace KvRaft

open LogMachine

/-! ## The machine -/

/-- What an entry of the log does to the maps. -/
def KVState.applyEntry (st : KVState) (entry : LogEntry Op) : KVState :=
  if entry.isInternalLog then st
  else match entry.command with
    | none => st
    | some op => st.applyOp op

/-- Every key and every client of the first state is in the second. -/
def KVState.Covers (st st' : KVState) : Prop :=
  (∀ key, st'.kvStore key = none → st.kvStore key = none) ∧
    ∀ client, st'.seqMap client = none → st.seqMap client = none

/-- No operation removes a key. -/
lemma write_eq_none {kvStore : String → Option String} {op : Op} {key : String}
    (h : write kvStore op key = none) : kvStore key = none := by
  have hupdate : ∀ v : String, Function.update kvStore op.key (some v) key = none →
      kvStore key = none := by
    intro v hv
    rw [Function.update_apply] at hv
    split_ifs at hv
    exact hv
  unfold write at h
  cases htype : op.type with
  | get => simpa only [htype] using h
  | put =>
    simp only [htype] at h
    exact hupdate _ h
  | append =>
    cases hval : kvStore op.key with
    | none =>
      simp only [htype, hval] at h
      exact hupdate _ h
    | some val =>
      simp only [htype, hval] at h
      exact hupdate _ h

/-- No operation removes a key or a client. -/
lemma KVState.covers_applyOp (st : KVState) (op : Op) : st.Covers (st.applyOp op) := by
  constructor
  · intro key hkey
    simp only [KVState.applyOp] at hkey
    split_ifs at hkey
    · exact write_eq_none hkey
    · exact hkey
  · intro client hclient
    simp only [KVState.applyOp, Function.update_apply] at hclient
    split_ifs at hclient
    exact hclient

/-- Decoding replaces a live map that has no keys of its own. -/
lemma overlay_of_covers {K V : Type} {encoded live : K → Option V}
    (h : ∀ k, encoded k = none → live k = none) : overlay encoded live = encoded := by
  funext k
  cases hk : encoded k with
  | none => simp [overlay, hk, h k hk]
  | some v => simp [overlay, hk]

/-- The key/value service over the committed log; a snapshot is restored by decoding it into the
live maps. -/
def machine : Machine KVState (LogEntry Op) where
  init := .empty
  step := KVState.applyEntry
  visible entry := entry.isInternalLog = false
  restore encoded live := encoded.decodeInto live
  covers := KVState.Covers
  covers_refl _ := ⟨fun _ => id, fun _ => id⟩
  covers_trans _ _ _ h h' :=
    ⟨fun key hkey => h.1 key (h'.1 key hkey), fun client hc => h.2 client (h'.2 client hc)⟩
  covers_step st entry := by
    unfold KVState.applyEntry
    split_ifs
    · exact ⟨fun _ => id, fun _ => id⟩
    · split
      · exact ⟨fun _ => id, fun _ => id⟩
      · exact st.covers_applyOp _
  restore_of_covers st st' h := by
    rw [KVState.decodeInto, overlay_of_covers h.1, overlay_of_covers h.2]
  step_of_invisible st entry h := by
    rw [KVState.applyEntry, if_pos (by simpa using h)]

/-- `S(i)`: the maps after the entries of the log up to index `i`. -/
def stateAt (log : List (LogEntry Op)) (i : ℕ) : KVState := machine.stateAt log i

/-! ## Snapshots and deliveries -/

variable {log log' : List (LogEntry Op)}

/-- The snapshot holds the state at its label; the absent snapshot has label 0. -/
def Labelled (log : List (LogEntry Op)) (index : ℕ) : Option KVState → Prop
  | none => index = 0
  | some st => index < log.length ∧ st = stateAt log index

/-- A snapshot holds the state at its label in a longer log too. -/
lemma Labelled.extend {index : ℕ} {snapshot : Option KVState} (h : Labelled log index snapshot)
    (hlog : log <+: log') : Labelled log' index snapshot := by
  cases snapshot with
  | none => exact h
  | some st =>
    obtain ⟨hlt, rfl⟩ := h
    exact ⟨hlt.trans_le hlog.length_le, (Machine.stateAt_extend hlog hlt).symm⟩

/-- From position `p` the message leads to position `q`: it is for the next entry, or for a
snapshot. -/
inductive Carries (log : List (LogEntry Op)) (p q : ℕ) : ApplyMsg Op KVState → Prop
  | entry {entry : LogEntry Op} {op : Op} (cmdIndex term : ℤ) (hnext : machine.Next log p q entry)
      (hop : entry.command = some op) : Carries log p q (entryMsg entry q cmdIndex term)
  | snapshot {snapshot : Option KVState} (hlab : Labelled log q snapshot) :
      Carries log p q (snapshotMsg q snapshot)

/-- The messages lead from position `p` to position `q`. -/
def Feed (log : List (LogEntry Op)) : ℕ → List (ApplyMsg Op KVState) → ℕ → Prop
  | p, [], q => p = q
  | p, msg :: msgs, q => ∃ r, Carries log p r msg ∧ Feed log r msgs q

/-- A message leads to the same position in a longer log. -/
lemma Carries.extend {p q : ℕ} {msg : ApplyMsg Op KVState} (h : Carries log p q msg)
    (hlog : log <+: log') : Carries log' p q msg := by
  cases h with
  | entry cmdIndex term hnext hop => exact .entry cmdIndex term (hnext.extend hlog) hop
  | snapshot hlab => exact .snapshot (hlab.extend hlog)

/-- Messages lead to the same position in a longer log. -/
lemma Feed.extend (hlog : log <+: log') {msgs : List (ApplyMsg Op KVState)} :
    ∀ {p q : ℕ}, Feed log p msgs q → Feed log' p msgs q := by
  induction msgs with
  | nil => exact id
  | cons msg msgs ih =>
    rintro p q ⟨r, hmsg, hmsgs⟩
    exact ⟨r, hmsg.extend hlog, ih hmsgs⟩

/-- One message more at the end. -/
lemma Feed.concat {msg : ApplyMsg Op KVState} {q r : ℕ} (hmsg : Carries log q r msg)
    {msgs : List (ApplyMsg Op KVState)} :
    ∀ {p : ℕ}, Feed log p msgs q → Feed log p (msgs ++ [msg]) r := by
  induction msgs with
  | nil =>
    rintro p rfl
    exact ⟨r, hmsg, rfl⟩
  | cons m msgs ih =>
    rintro p ⟨p', hm, hmsgs⟩
    exact ⟨p', hm, ih hmsgs⟩

/-! ## The invariant of a server -/

/-- The maps are those of `lastAppliedIndex`, which is an index of the log. -/
structure KVServer.Follows (kv : KVServer) (log : List (LogEntry Op)) : Prop where
  state : kv.toKVState = stateAt log kv.lastAppliedIndex
  lt : kv.lastAppliedIndex < log.length

/-- The invariant of a server: its maps follow the log, the messages on `applyCh` lead from an
index it has applied to the delivery position, and its snapshots hold what their labels say. -/
structure Replica.Sound (r : Replica) (log : List (LogEntry Op)) : Prop where
  follows : r.kv.Follows log
  feed : ∃ p ≤ r.kv.lastAppliedIndex, Feed log p r.applyCh r.pos
  captured : ∀ s ∈ r.captured, Labelled log s.2 (some s.1)
  stored : Labelled log r.lastIncludedIndex r.snapshot

/-- A server that follows a log follows a longer one. -/
lemma KVServer.Follows.extend {kv : KVServer} (h : kv.Follows log) (hlog : log <+: log') :
    kv.Follows log' :=
  ⟨h.state.trans (Machine.stateAt_extend hlog h.lt).symm, h.lt.trans_le hlog.length_le⟩

/-- The log of a run begins with the sentinel. -/
def Rooted (log : List (LogEntry Op)) : Prop := [Raft.dummyLog 0 0 0] <+: log

/-- The log of a run is not empty. -/
lemma Rooted.length_pos (h : Rooted log) : 0 < log.length := h.length_le

/-- The sentinel leaves the maps empty. -/
lemma Rooted.stateAt_zero (h : Rooted log) : stateAt log 0 = .empty :=
  Machine.stateAt_extend h (by decide)

/-- A new server follows the log. -/
lemma startKVServer_follows (h : Rooted log) : startKVServer.Follows log :=
  ⟨h.stateAt_zero.symm, h.length_pos⟩

section ApplyMsg

variable {kv : KVServer} {msg : ApplyMsg Op KVState} {p q : ℕ}

/-- What the applier does with an operation that is new to it. -/
lemma KVServer.applyMsg_entryMsg {entry : LogEntry Op} {op : Op} (cmdIndex term : ℤ)
    (hop : entry.command = some op) (hq : kv.lastAppliedIndex < q) :
    kv.applyMsg (entryMsg entry q cmdIndex term) = some { kv with
      toKVState := kv.toKVState.applyOp op
      contexts := kv.notifyAt (kv.cmdMap entry.commandIndex)
        { op with cmdIndex := cmdIndex, term := term } q
      lastAppliedIndex := q } := by
  simp only [KVServer.applyMsg, entryMsg, hop, if_true, if_neg (Nat.not_le.mpr hq),
    Option.map_some]
  rfl

/-- What the applier does with a snapshot that is new to it. -/
lemma KVServer.applyMsg_snapshotMsg {snapshot : Option KVState} (hq : kv.lastAppliedIndex < q) :
    kv.applyMsg (snapshotMsg q snapshot) = some { kv with
      toKVState := kv.toKVState.install snapshot
      lastAppliedIndex := q } := by
  simp [KVServer.applyMsg, snapshotMsg, Nat.not_le.mpr hq]

/-- A message that is not ahead of the server is skipped. -/
lemma Carries.applyMsg_of_le (h : Carries log p q msg) (hq : q ≤ kv.lastAppliedIndex) :
    kv.applyMsg msg = some kv := by
  cases h with
  | entry cmdIndex term hnext hop => simp [KVServer.applyMsg, entryMsg, hq]
  | snapshot hlab => simp [KVServer.applyMsg, snapshotMsg, hq]

/-- **One turn of the loop.** A server that has applied the position a message starts from handles
it without a panic, follows the log afterwards, and has applied the position it leads to.

**Proof sketch.** A message that is not ahead changes nothing, and the index covers it already.
An entry ahead of the index is the next visible one after it (`Machine.Next.stateAt_eq`). A
snapshot ahead of the index is decoded over an earlier state (`Machine.restore_stateAt`); it
cannot be the absent one, whose label is 0. -/
theorem KVServer.Follows.applyMsg (h : kv.Follows log) (hp : p ≤ kv.lastAppliedIndex)
    (hmsg : Carries log p q msg) :
    ∃ kv', kv.applyMsg msg = some kv' ∧ kv'.Follows log ∧ q ≤ kv'.lastAppliedIndex := by
  rcases Nat.lt_or_ge kv.lastAppliedIndex q with hq | hq
  · cases hmsg with
    | @entry entry op cmdIndex term hnext hop =>
      refine ⟨_, KVServer.applyMsg_entryMsg cmdIndex term hop hq, ⟨?_, ?_⟩, le_rfl⟩
      · have hvis : entry.isInternalLog = false := hnext.visible
        have hstep : stateAt log q = (stateAt log kv.lastAppliedIndex).applyEntry entry :=
          hnext.stateAt_eq hp hq
        rw [hstep, KVState.applyEntry, hvis, hop, ← h.state]
        rfl
      · exact (List.getElem?_eq_some_iff.mp hnext.get).1
    | @snapshot snapshot hlab =>
      refine ⟨_, KVServer.applyMsg_snapshotMsg hq, ?_, le_rfl⟩
      cases snapshot with
      | none =>
        have hzero : q = 0 := hlab
        omega
      | some st =>
        obtain ⟨hlt, rfl⟩ := hlab
        have hrestore : (stateAt log q).decodeInto (stateAt log kv.lastAppliedIndex) =
            stateAt log q := machine.restore_stateAt hq.le
        rw [← h.state] at hrestore
        exact ⟨hrestore, hlt⟩
  · exact ⟨kv, hmsg.applyMsg_of_le hq, h, hq⟩

end ApplyMsg

namespace Replica.Sound

variable {r r' : Replica}

/-- A sound server is sound for a longer log. -/
lemma extend (h : r.Sound log) (hlog : log <+: log') : r.Sound log' where
  follows := h.follows.extend hlog
  feed := by
    obtain ⟨p, hp, hfeed⟩ := h.feed
    exact ⟨p, hp, hfeed.extend hlog⟩
  captured s hs := (h.captured s hs).extend hlog
  stored := h.stored.extend hlog

/-- A server that starts over a sound snapshot. -/
lemma restart (h : r.Sound log) (hlog : Rooted log) : r.restart.Sound log where
  follows := startKVServer_follows hlog
  feed := ⟨0, le_rfl, _, .snapshot h.stored, rfl⟩
  captured := by simp [Replica.restart]
  stored := h.stored

/-- A new server is sound. -/
lemma init (hlog : Rooted log) : Replica.init.Sound log where
  follows := startKVServer_follows hlog
  feed := ⟨0, le_rfl, 0, .snapshot rfl, rfl⟩
  captured := by simp [Replica.init]
  stored := rfl

/-- Delivering the next entry keeps a server sound.

**Proof sketch.** All entries that are skipped are internal, so the new message is the next one of
the feed. -/
lemma deliver {index : ℕ} {cmdIndex term : ℤ} (h : r.Sound log)
    (hcmd : ∀ e ∈ log, e.isInternalLog = false → e.command.isSome)
    (hd : r.deliver log index cmdIndex term = some r') : r'.Sound log := by
  unfold Replica.deliver at hd
  split at hd
  · simp at hd
  · rename_i entry hentry
    split_ifs at hd with hnext
    obtain rfl := Option.some.inj hd
    obtain ⟨hvis, hlt, hskip⟩ := hnext
    obtain ⟨op, hop⟩ := Option.isSome_iff_exists.mp (hcmd entry (List.mem_of_getElem? hentry) hvis)
    obtain ⟨p, hp, hfeed⟩ := h.feed
    refine ⟨h.follows, ⟨p, hp, hfeed.concat (.entry cmdIndex term ⟨hlt, hentry, hvis, ?_⟩ hop)⟩,
      h.captured, h.stored⟩
    intro k e hk hki hget hinv
    have := hskip k hki hk e hget
    simp_all [machine]

/-- Applying the next message keeps a server sound. -/
lemma apply (h : r.Sound log) (ha : r.apply = some r') : r'.Sound log := by
  obtain ⟨p, hp, hfeed⟩ := h.feed
  unfold Replica.apply at ha
  split at ha
  · simp at ha
  · rename_i msg msgs hch
    rw [hch] at hfeed
    obtain ⟨q, hmsg, hmsgs⟩ := hfeed
    obtain ⟨kv', hkv', hfollows, hq⟩ := h.follows.applyMsg hp hmsg
    rw [hkv', Option.map_some, Option.some.injEq] at ha
    subst ha
    exact ⟨hfollows, ⟨q, hq, hmsgs⟩, h.captured, h.stored⟩

/-- Encoding the maps keeps a server sound. -/
lemma capture (h : r.Sound log) : r.capture.Sound log where
  follows := h.follows
  feed := h.feed
  captured := by
    intro s hs
    obtain rfl := Option.some.inj hs
    exact ⟨h.follows.lt, h.follows.state⟩
  stored := h.stored

/-- Handing an encoded state to `TakeSnapshot` keeps a server sound. -/
lemma takeSnapshot (h : r.Sound log) (ht : r.takeSnapshot = some r') : r'.Sound log := by
  unfold Replica.takeSnapshot at ht
  split at ht
  · simp at ht
  · rename_i snapshot index hcap
    split_ifs at ht
    · obtain rfl := Option.some.inj ht
      exact ⟨h.follows, h.feed, by simp, h.stored⟩
    · obtain rfl := Option.some.inj ht
      exact ⟨h.follows, h.feed, by simp, h.captured _ hcap⟩

/-- Delivering a snapshot keeps a server sound if the snapshot holds what its label says. -/
lemma installSnapshot {index : ℕ} {snapshot : Option KVState} (h : r.Sound log)
    (hlab : Labelled log index snapshot) : (r.installSnapshot index snapshot).Sound log := by
  unfold Replica.installSnapshot
  split_ifs
  · exact h
  · obtain ⟨p, hp, hfeed⟩ := h.feed
    exact ⟨h.follows, ⟨p, hp, hfeed.concat (.snapshot hlab)⟩, h.captured, hlab⟩

/-- Contexts do not matter. -/
lemma setKV {kv : KVServer} (h : r.Sound log) (hst : kv.toKVState = r.kv.toKVState)
    (hidx : kv.lastAppliedIndex = r.kv.lastAppliedIndex) :
    Replica.Sound { r with kv := kv } log where
  follows := ⟨by rw [hst, hidx, h.follows.state], by rw [hidx]; exact h.follows.lt⟩
  feed := by
    obtain ⟨p, hp, hfeed⟩ := h.feed
    exact ⟨p, hidx ▸ hp, hfeed⟩
  captured := h.captured
  stored := h.stored

end Replica.Sound

/-! ## The service -/

/-- The handlers leave the maps alone. -/
lemma KVServer.cleanup_frame (kv : KVServer) (a : ℕ) (op : Op) :
    (kv.cleanup a op).toKVState = kv.toKVState ∧
      (kv.cleanup a op).lastAppliedIndex = kv.lastAppliedIndex ∧
      (kv.cleanup a op).contexts = kv.contexts := by
  unfold KVServer.cleanup
  split_ifs <;> exact ⟨rfl, rfl, rfl⟩

namespace Service

variable {n : ℕ} {σ σ' : Service n}

/-- The invariant of the service. -/
structure Sound (σ : Service n) : Prop where
  rooted : Rooted σ.log
  commands : ∀ e ∈ σ.log, e.isInternalLog = false → e.command.isSome
  replicas : ∀ i, (σ.replicas i).Sound σ.log
  installs : ∀ s ∈ σ.installs, Labelled σ.log s.1 s.2

/-- A new service is sound. -/
lemma Sound.init : (Service.init : Service n).Sound where
  rooted := List.prefix_rfl
  commands := by
    intro e he hvis
    obtain rfl : e = Raft.dummyLog 0 0 0 := by simpa [Service.init] using he
    simp [Raft.dummyLog] at hvis
  replicas _ := .init List.prefix_rfl
  installs := by simp [Service.init]

/-- One server changes, soundly. -/
lemma Sound.setReplica (h : σ.Sound) {i : Fin n} {r : Replica} (hr : r.Sound σ.log) :
    (σ.setReplica i r).Sound where
  rooted := h.rooted
  commands := h.commands
  replicas j := by
    by_cases hj : j = i
    · subst hj
      simpa [Service.setReplica] using hr
    · simpa [Service.setReplica, Function.update_of_ne hj] using h.replicas j
  installs := h.installs

/-- Only the log, the servers and the snapshots in flight matter. -/
lemma Sound.congr (h : σ.Sound) (hlog : σ'.log = σ.log) (hrep : σ'.replicas = σ.replicas)
    (hins : σ'.installs = σ.installs) : σ'.Sound where
  rooted := hlog ▸ h.rooted
  commands := hlog ▸ h.commands
  replicas i := by
    rw [hlog, hrep]
    exact h.replicas i
  installs := by
    rw [hlog, hins]
    exact h.installs

/-- The steps of a handler keep the invariant. -/
lemma Sound.callStep {k : ℕ} {call : Call n} {ev : CallEvent} (h : σ.Sound)
    (hs : σ.callStep k call ev = some σ') : σ'.Sound := by
  unfold Service.callStep at hs
  split at hs
  · exact Option.some.inj hs ▸ h.congr rfl rfl rfl
  · exact Option.some.inj hs ▸ h.congr rfl rfl rfl
  · split_ifs at hs
    exact Option.some.inj hs ▸ h.congr rfl rfl rfl
  · rw [← Option.some.inj hs]
    have hkv : Replica.Sound { σ.replicas call.server with
        kv := (σ.replicas call.server).kv.register k call.op } σ.log :=
      (h.replicas call.server).setKV rfl rfl
    exact (h.setReplica hkv).congr rfl rfl rfl
  · split at hs
    · simp at hs
    · split_ifs at hs
      exact Option.some.inj hs ▸ h.congr rfl rfl rfl
  · exact Option.some.inj hs ▸ h.congr rfl rfl rfl
  · rw [← Option.some.inj hs]
    obtain ⟨hst, hidx, -⟩ := KVServer.cleanup_frame (σ.replicas call.server).kv k call.op
    exact (h.setReplica ((h.replicas call.server).setKV hst hidx)).congr rfl rfl rfl
  · simp at hs

/-- **One step of the service** keeps the invariant.

**Proof sketch.** The cases are the events. A commit makes the log longer, under which all
statements are stable; all other events concern one server, whose own step lemma applies, or nothing
that the invariant speaks of. -/
theorem Sound.step {ev : Event n} (h : σ.Sound) (hs : σ.step ev = some σ') : σ'.Sound := by
  cases ev with
  | commit entry =>
    simp only [Service.step] at hs
    split_ifs at hs with hentry
    rw [← Option.some.inj hs]
    have hlog := List.prefix_append σ.log [{ entry with logIndex := σ.log.length }]
    refine ⟨h.rooted.trans hlog, ?_, fun i => (h.replicas i).extend hlog,
      fun s hs => (h.installs s hs).extend hlog⟩
    intro e he hvis
    rcases List.mem_append.mp he with he | he
    · exact h.commands e he hvis
    · obtain rfl : e = { entry with logIndex := σ.log.length } := by simpa using he
      exact hentry.resolve_left (by simpa using hvis)
  | deliver i index cmdIndex term =>
    obtain ⟨r, hr, rfl⟩ := Option.map_eq_some_iff.mp hs
    exact h.setReplica ((h.replicas i).deliver h.commands hr)
  | apply i =>
    obtain ⟨r, hr, rfl⟩ := Option.map_eq_some_iff.mp hs
    exact h.setReplica ((h.replicas i).apply hr)
  | capture i => exact Option.some.inj hs ▸ h.setReplica (h.replicas i).capture
  | takeSnapshot i =>
    obtain ⟨r, hr, rfl⟩ := Option.map_eq_some_iff.mp hs
    exact h.setReplica ((h.replicas i).takeSnapshot hr)
  | sendInstall i =>
    rw [← Option.some.inj hs]
    refine ⟨h.rooted, h.commands, h.replicas, fun s hs => ?_⟩
    rcases List.mem_append.mp hs with hs | hs
    · exact h.installs s hs
    · obtain rfl : s = ((σ.replicas i).lastIncludedIndex, (σ.replicas i).snapshot) := by
        simpa using hs
      exact (h.replicas i).stored
  | installSnapshot i m =>
    obtain ⟨s, hm, rfl⟩ := Option.map_eq_some_iff.mp hs
    exact h.setReplica
      ((h.replicas i).installSnapshot (h.installs s (List.mem_of_getElem? hm)))
  | restart i =>
    rw [← Option.some.inj hs]
    exact (h.setReplica ((h.replicas i).restart h.rooted)).congr rfl rfl rfl
  | issue client type key value =>
    simp only [Service.step, Service.issue] at hs
    split at hs
    · simp at hs
    · exact Option.some.inj hs ▸ h.congr rfl rfl rfl
  | receive i m =>
    obtain ⟨op, -, rfl⟩ := Option.map_eq_some_iff.mp hs
    exact h.congr rfl rfl rfl
  | call k ev =>
    obtain ⟨call, -, hcall⟩ := Option.bind_eq_some_iff.mp hs
    exact h.callStep hcall
  | acknowledge client k =>
    obtain ⟨call, -, hack⟩ := Option.bind_eq_some_iff.mp hs
    unfold Service.acknowledge at hack
    split at hack
    · split_ifs at hack
      exact Option.some.inj hack ▸ h.congr rfl rfl rfl
    · simp at hack

/-- The invariant holds in every state of every run, whatever the steps are promised. -/
theorem Sound.of_reach {P : Service n → Event n → Prop}
    (h : Transition.Reach Service.step P Service.init σ) : σ.Sound :=
  h.invariant .init fun _ _ _ _ ih _ hs => ih.step hs

end Service

/-! ## The result -/

/-- A snapshot of the service and its label: persisted, encoded by `snapshotLoop`, in a request
for `InstallSnapshot`, or on its way to the service. -/
inductive Service.HasSnapshot {n : ℕ} (σ : Service n) : ℕ → Option KVState → Prop
  | persisted (i : Fin n) :
      HasSnapshot σ (σ.replicas i).lastIncludedIndex (σ.replicas i).snapshot
  | captured (i : Fin n) {st : KVState} {index : ℕ}
      (h : (σ.replicas i).captured = some (st, index)) : HasSnapshot σ index (some st)
  | requested {index : ℕ} {snapshot : Option KVState} (h : (index, snapshot) ∈ σ.installs) :
      HasSnapshot σ index snapshot
  | delivered (i : Fin n) {msg : ApplyMsg Op KVState} (h : msg ∈ (σ.replicas i).applyCh)
      (hmsg : msg.commandValid = false) : HasSnapshot σ msg.lastIncludedIndex msg.snapshot

/-- The snapshots on their way to a server hold what their labels say. -/
lemma Feed.labelled {msgs : List (ApplyMsg Op KVState)} : ∀ {p q : ℕ}, Feed log p msgs q →
    ∀ msg ∈ msgs, msg.commandValid = false → Labelled log msg.lastIncludedIndex msg.snapshot := by
  induction msgs with
  | nil => simp
  | cons m msgs ih =>
    rintro p q ⟨r, hm, hmsgs⟩ msg hmem hsnap
    rcases List.mem_cons.mp hmem with rfl | hmem
    · cases hm with
      | entry => simp [entryMsg] at hsnap
      | snapshot hlab => exact hlab
    · exact ih hmsgs msg hmem hsnap

/-- All snapshots of a sound service hold what their labels say. -/
lemma Service.Sound.labelled {n : ℕ} {σ : Service n} (h : σ.Sound) {index : ℕ}
    {snapshot : Option KVState} (hs : σ.HasSnapshot index snapshot) :
    Labelled σ.log index snapshot := by
  cases hs with
  | persisted i => exact (h.replicas i).stored
  | captured i hcap => exact (h.replicas i).captured _ hcap
  | requested hmem => exact h.installs _ hmem
  | delivered i hmem hmsg =>
    obtain ⟨p, -, hfeed⟩ := (h.replicas i).feed
    exact hfeed.labelled _ hmem hmsg

/-- Decoding a labelled snapshot into fresh maps gives the state at its label. -/
lemma Labelled.install_empty {index : ℕ} {snapshot : Option KVState}
    (h : Labelled log index snapshot) (hlog : Rooted log) :
    KVState.empty.install snapshot = stateAt log index := by
  cases snapshot with
  | none =>
    obtain rfl : index = 0 := h
    exact hlog.stateAt_zero.symm
  | some st =>
    obtain ⟨-, rfl⟩ := h
    exact machine.restore_of_covers _ _ ⟨fun _ _ => rfl, fun _ _ => rfl⟩

/-- **Replica state equals the log prefix.** In every state of every run of any number of
servers, the maps of each server are those of the committed log up to its `lastAppliedIndex`,
and every snapshot decodes to the maps at its label; only label 0 has no snapshot.

**Proof sketch.** By the invariant of the service: each server's maps follow the log, and each
snapshot is labelled with the index of its maps. -/
theorem replicas_follow_log {n : ℕ} {σ : Service n}
    (h : Transition.Reach Service.step (fun _ _ => True) Service.init σ) :
    (∀ i, (σ.replicas i).kv.toKVState = stateAt σ.log (σ.replicas i).kv.lastAppliedIndex) ∧
      ∀ index snapshot, σ.HasSnapshot index snapshot →
        KVState.empty.install snapshot = stateAt σ.log index ∧ (snapshot = none → index = 0) := by
  have hsound := Service.Sound.of_reach h
  refine ⟨fun i => (hsound.replicas i).follows.state, fun index snapshot hs => ?_⟩
  have hlab := hsound.labelled hs
  refine ⟨hlab.install_empty hsound.rooted, ?_⟩
  rintro rfl
  exact hlab

/-- An entry that carries an operation of client 1 on key `x`. -/
def entryX (seqId : ℤ) (type : OpType) (value : String) : LogEntry Op where
  logTerm := 1
  logIndex := 0
  command := some { key := "x", value := value, type := type, clientId := 1, seqId := seqId }
  commandIndex := seqId.toNat
  isInternalLog := false

/-- Server 0 applies a `Put`, takes a snapshot and sends it to server 1, which installs it and
applies an `Append`; server 0 restarts from its snapshot. -/
def transfer : List (Event 2) :=
  [.commit (entryX 1 .put "a"), .apply 0, .deliver 0 1 0 0, .apply 0, .capture 0, .takeSnapshot 0,
    .commit (Raft.dummyLog 0 1 1), .commit (entryX 2 .append "b"), .sendInstall 0,
    .installSnapshot 1 0, .apply 1, .apply 1, .deliver 1 3 2 1, .apply 1, .restart 0, .apply 0]

/-- The two servers at the end stand at different indexes of the log, each with its maps. -/
theorem replicas_follow_log_after_transfer :
    ∃ σ : Service 2, Transition.Reach Service.step (fun _ _ => True) Service.init σ ∧
      ((σ.replicas 0).kv.lastAppliedIndex = 1 ∧ (σ.replicas 0).kv.kvStore "x" = some "a" ∧
        (σ.replicas 1).kv.lastAppliedIndex = 3 ∧ (σ.replicas 1).kv.kvStore "x" = some "ab") ∧
      ∀ i, (σ.replicas i).kv.toKVState = stateAt σ.log (σ.replicas i).kv.lastAppliedIndex := by
  obtain ⟨σ, hσ, hend⟩ : ∃ σ : Service 2,
      Transition.Reach Service.step (fun _ _ => True) Service.init σ ∧
        ((σ.replicas 0).kv.lastAppliedIndex = 1 ∧ (σ.replicas 0).kv.kvStore "x" = some "a" ∧
          (σ.replicas 1).kv.lastAppliedIndex = 3 ∧ (σ.replicas 1).kv.kvStore "x" = some "ab") :=
    Transition.Reach.exists_of_stepsIf transfer (by decide +kernel)
  exact ⟨σ, hσ, hend, (replicas_follow_log hσ).1⟩

end KvRaft

end Mit6824
