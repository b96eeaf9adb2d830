import Mit6824.Raft.Shape

set_option autoImplicit false

/-!
# Log agreement under replication

A leader log and a follower log, compacted at different places, that agree wherever their terms
do. Whatever request the leader's log gives rise to, an `AppendEntries` for any next index or an
`InstallSnapshot`, the follower's log agrees with it again after the request.

All statements are about the entries that an index finds (`Raft.logAt`); each change of the
follower's log is first described as a change of this lookup.

## Main definitions

* `Mit6824.Raft.CommandsNumbered` — command indexes count the entries that are not internal.
* `Mit6824.Consistent` — equal terms at an index mean equal entries up to it.
* `Mit6824.Paired` — two well-shaped, numbered and consistent logs.

## Main results

* `Mit6824.replication_keeps_agreement`.
-/

namespace Mit6824

variable {n : ℕ} {Cmd Snap : Type}

/-- Every entry has the command index of the entry before it, plus one unless it is internal. -/
def Raft.CommandsNumbered (rf : Raft n Cmd Snap) : Prop :=
  ∀ i a b, rf.logAt i = some a → rf.logAt (i + 1) = some b →
    b.commandIndex = a.commandIndex + if b.isInternalLog then 0 else 1

/-- Where both logs hold an entry of the same term, they have the same command indexes up to
there, and the same commands and kinds of entries except at a sentinel. The follower's sentinel
has the term and the command index of the leader's entry there. -/
structure Consistent (ld fl : Raft n Cmd Snap) : Prop where
  agree : ∀ i a b, ld.logAt i = some a → fl.logAt i = some b → a.logTerm = b.logTerm →
    ∀ j ≤ i, ∀ a' b', ld.logAt j = some a' → fl.logAt j = some b' →
      a'.commandIndex = b'.commandIndex ∧
      (ld.lastIncludedIndex < j → fl.lastIncludedIndex < j →
        a'.command = b'.command ∧ a'.isInternalLog = b'.isInternalLog)
  sentinel : ∀ a b, ld.logAt fl.lastIncludedIndex = some a →
    fl.logAt fl.lastIncludedIndex = some b →
    b.logTerm = a.logTerm ∧ b.commandIndex = a.commandIndex

/-- A leader log and a follower log that are well-shaped, numbered and consistent. -/
structure Paired (ld fl : Raft n Cmd Snap) : Prop where
  leader_shaped : ld.Shaped
  follower_shaped : fl.Shaped
  leader_numbered : ld.CommandsNumbered
  follower_numbered : fl.CommandsNumbered
  consistent : Consistent ld fl

/-! ## The follower's log after a request -/

namespace Paired

variable {ld fl fl' : Raft n Cmd Snap}

/-- Only the follower's log counts. -/
lemma congr (h : Paired ld fl) (hlogs : fl'.logs = fl.logs)
    (hbase : fl'.lastIncludedIndex = fl.lastIncludedIndex)
    (hterm : fl'.lastIncludedTerm = fl.lastIncludedTerm)
    (hcmd : fl'.lastIncludedCmdIndex = fl.lastIncludedCmdIndex) : Paired ld fl' := by
  have hat : ∀ i, fl'.logAt i = fl.logAt i := Raft.logAt_congr hlogs hbase
  refine ⟨h.leader_shaped, ⟨⟨h.follower_shaped.index.congr hlogs hbase, ?_⟩, ?_⟩,
    h.leader_numbered, ?_, ⟨?_, ?_⟩⟩
  · rw [hlogs, hterm]
    exact h.follower_shaped.sentinel
  · rw [hlogs, hcmd]
    exact h.follower_shaped.command
  · intro i a b
    rw [hat, hat]
    exact h.follower_numbered i a b
  · intro i a b
    rw [hat, hbase]
    simp only [hat]
    exact h.consistent.agree i a b
  · rw [hbase, hat]
    exact h.consistent.sentinel

/-- Committing leaves the log. -/
lemma advanceCommit (h : Paired ld fl) (leaderCommit : ℕ) (reply : AppendEntriesReply) :
    Paired ld (fl.advanceCommit leaderCommit reply).state := by
  obtain ⟨ms, i, j, heq⟩ := Raft.advanceCommit_eq fl leaderCommit reply
  rw [heq]
  exact h.congr rfl rfl rfl rfl

/-- Seeing a term leaves the log. -/
lemma observe (h : Paired ld fl) (t : ℕ) : Paired ld (fl.observe t) :=
  Raft.observe_rule t h fun _ => h.congr rfl rfl rfl rfl

/-- The entries behind a previous entry on which both logs agree.

**Proof sketch.** Up to the previous entry the lookup is the follower's, behind it the leader's.
Equal terms behind it are equal entries; what is below is covered by the agreement at the
previous entry itself. -/
lemma adopt (h : Paired ld fl) {prev : ℕ} {pe old : LogEntry Cmd}
    (hpe : ld.logAt prev = some pe) (hold : fl.logAt prev = some old)
    (hterm : old.logTerm = pe.logTerm) :
    Paired ld (fl.adopt (prev - fl.lastIncludedIndex)
      (ld.logs.drop (prev + 1 - ld.lastIncludedIndex))) := by
  obtain ⟨hldlow, hldpos⟩ := Raft.logAt_eq_some_iff.mp hpe
  obtain ⟨hfllow, hflpos⟩ := Raft.logAt_eq_some_iff.mp hold
  have hlt : prev - fl.lastIncludedIndex < fl.logs.length := (List.getElem?_eq_some_iff.mp hflpos).1
  have hat := Raft.logAt_adopt hfllow hlt hldlow
  have hbase := (hat fl.lastIncludedIndex).trans (if_pos hfllow)
  have hbelow := h.consistent.agree prev pe old hpe hold hterm.symm
  obtain ⟨s, hs, hst, hsc⟩ := h.follower_shaped.logAt_base
  refine ⟨h.leader_shaped, .of_logAt ?_ (e := s) ?_ hst hsc, h.leader_numbered, ?_, ⟨?_, ?_⟩⟩
  · -- the indexes go on where the log was cut
    refine Consecutive.append (Consecutive.take h.follower_shaped.index _) ?_
    have hnext : fl.lastIncludedIndex + (fl.logs.take (prev - fl.lastIncludedIndex + 1)).length =
        prev + 1 := by
      rw [List.length_take]; omega
    show Consecutive (fl.lastIncludedIndex + _) _
    rw [hnext]
    exact h.leader_shaped.index.drop (by omega)
  · exact hbase.trans hs
  · intro i a b ha hb
    rw [hat] at ha hb
    rcases Nat.lt_trichotomy i prev with hi | rfl | hi
    · rw [if_pos hi.le] at ha
      rw [if_pos (show i + 1 ≤ prev from hi)] at hb
      exact h.follower_numbered i a b ha hb
    · -- the first entry of the leader behind the last one kept
      rw [if_pos le_rfl, hold] at ha
      rw [if_neg (by omega)] at hb
      obtain rfl := Option.some.inj ha
      rw [← (hbelow i le_rfl pe old hpe hold).1]
      exact h.leader_numbered i pe b hpe hb
    · rw [if_neg (by omega)] at ha hb
      exact h.leader_numbered i a b ha hb
  · intro i a b ha hb heq j hj a' b' ha' hb'
    rw [hat] at hb hb'
    split_ifs at hb' with hjp
    · split_ifs at hb with hip
      · exact h.consistent.agree i a b ha hb heq j hj a' b' ha' hb'
      · exact hbelow j hjp a' b' ha' hb'
    · obtain rfl : a' = b' := Option.some.inj (ha'.symm.trans hb')
      exact ⟨rfl, fun _ _ => ⟨rfl, rfl⟩⟩
  · intro a b ha hb
    exact h.consistent.sentinel a b ha (hbase.symm.trans hb)

/-- Cutting the log before an entry that is not the sentinel.

**Proof sketch.** What the shorter log holds, the longer one held at the same index, and its
sentinel is still there. So it has the shape, and its entries agree with the leader's. -/
lemma cut (h : Paired ld fl) {prev : ℕ} (hlt : fl.lastIncludedIndex < prev)
    (hlogs : fl'.logs = fl.logs.take (prev - fl.lastIncludedIndex))
    (hbase : fl'.lastIncludedIndex = fl.lastIncludedIndex)
    (hterm : fl'.lastIncludedTerm = fl.lastIncludedTerm)
    (hcmd : fl'.lastIncludedCmdIndex = fl.lastIncludedCmdIndex) : Paired ld fl' := by
  have hat := Raft.logAt_cut hlt.le hlogs hbase
  -- what the shorter log holds, the longer one held
  have hsub : ∀ {i e}, fl'.logAt i = some e → fl.logAt i = some e := by
    intro i e he
    rw [hat] at he
    split_ifs at he
    exact he
  obtain ⟨s, hs, hst, hsc⟩ := h.follower_shaped.logAt_base
  refine ⟨h.leader_shaped, .of_logAt ?_ (e := s) ?_ (hst.trans hterm.symm) (hsc.trans hcmd.symm),
    h.leader_numbered, fun i a b ha hb => h.follower_numbered i a b (hsub ha) (hsub hb), ⟨?_, ?_⟩⟩
  · unfold Raft.InSequence
    rw [hlogs, hbase]
    exact Consecutive.take h.follower_shaped.index _
  · rw [hbase, hat, if_pos hlt]
    exact hs
  · intro i a b ha hb heq j hj a' b' ha' hb'
    rw [hbase]
    exact h.consistent.agree i a b ha (hsub hb) heq j hj a' b' ha' (hsub hb')
  · intro a b ha hb
    rw [hbase] at ha hb
    exact h.consistent.sentinel a b ha (hsub hb)

/-- `AppendEntries` with the entries of the leader's log behind an entry of it. A conflict is never
at the follower's sentinel, because that agrees with the leader's log.

**Proof sketch.** By the cases of the handler: a match adopts the leader's entries behind it, and a
conflict cuts the log before it. -/
lemma appendEntries (h : Paired ld fl) {args : AppendEntriesArgs n Cmd} {pe : LogEntry Cmd}
    (hpe : ld.logAt pe.logIndex = some pe) (hprev : args.prevLogIndex = some pe.logIndex)
    (hterm : args.prevLogTerm = some pe.logTerm)
    (hent : args.entries = ld.logs.drop (pe.logIndex + 1 - ld.lastIncludedIndex)) :
    Paired ld (fl.appendEntries args).state := by
  have hfollow : Paired ld (fl.becomeFollower args.leaderTerm) := h.congr rfl rfl rfl rfl
  refine Raft.appendEntries_rule h (fun _ k reply hp => hp.advanceCommit k reply)
    (fun _ => hfollow) ?_ ?_
  · intro prev old _ hprev' hlow hpos hterm'
    obtain rfl : pe.logIndex = prev := Option.some.inj (hprev.symm.trans hprev')
    have hold : fl.logAt pe.logIndex = some old := Raft.logAt_eq_some_iff.mpr ⟨hlow, hpos⟩
    have heq : old.logTerm = pe.logTerm := Option.some.inj (hterm'.trans hterm)
    rw [hent]
    exact hfollow.adopt hpe hold heq
  · intro prev old _ hprev' hlow hpos hterm'
    obtain rfl : pe.logIndex = prev := Option.some.inj (hprev.symm.trans hprev')
    have hold : fl.logAt pe.logIndex = some old := Raft.logAt_eq_some_iff.mpr ⟨hlow, hpos⟩
    have hne : fl.lastIncludedIndex ≠ pe.logIndex := by
      intro heq
      rw [← heq] at hpe hold
      exact hterm' (by rw [hterm, (h.consistent.sentinel pe old hpe hold).1])
    exact h.cut (lt_of_le_of_ne hlow hne) rfl rfl rfl rfl

/-- The sentinel alone, in place of a log that ended before the snapshot or disagreed with it.

**Proof sketch.** The new log has one entry, which stands at the leader's sentinel and is the same
but for the command. -/
lemma replace (h : Paired ld fl)
    (hlogs : fl'.logs = [Raft.dummyLog ld.lastIncludedIndex ld.lastIncludedTerm
      ld.lastIncludedCmdIndex])
    (hbase : fl'.lastIncludedIndex = ld.lastIncludedIndex)
    (hterm : fl'.lastIncludedTerm = ld.lastIncludedTerm)
    (hcmd : fl'.lastIncludedCmdIndex = ld.lastIncludedCmdIndex) : Paired ld fl' := by
  obtain ⟨s, hs, hst, hsc⟩ := h.leader_shaped.logAt_base
  have hfirst : ∀ {i e}, fl'.logAt i = some e → i = ld.lastIncludedIndex ∧
      e = Raft.dummyLog ld.lastIncludedIndex ld.lastIncludedTerm ld.lastIncludedCmdIndex := by
    intro i e he
    obtain ⟨hle, hget⟩ := Raft.logAt_eq_some_iff.mp he
    rw [hlogs, List.getElem?_singleton] at hget
    split_ifs at hget with hz
    exact ⟨by omega, (Option.some.inj hget).symm⟩
  have hseq : fl'.InSequence := by
    unfold Raft.InSequence
    rw [hlogs]
    exact Consecutive.singleton hbase.symm
  refine ⟨h.leader_shaped, .of_logAt hseq (by rw [Raft.logAt_base, hlogs]; rfl) hterm.symm
    hcmd.symm, h.leader_numbered, fun i a b ha hb => ?_, ⟨?_, ?_⟩⟩
  · have := (hfirst ha).1
    have := (hfirst hb).1
    omega
  · intro i a b _ hb _ j hj a' b' ha' hb'
    obtain ⟨rfl, rfl⟩ := hfirst hb'
    obtain rfl := Option.some.inj (hs.symm.trans ha')
    exact ⟨hsc, fun hlt => absurd hlt (lt_irrefl _)⟩
  · intro a b ha hb
    obtain ⟨-, rfl⟩ := hfirst hb
    rw [hbase] at ha
    obtain rfl := Option.some.inj (hs.symm.trans ha)
    exact ⟨hst.symm, hsc.symm⟩

/-- The entries above a snapshot with which the log agrees.

**Proof sketch.** The entry at the snapshot index has the term of the leader's sentinel, so by
consistency it has its command index: it becomes the sentinel. Above it the entries are those of the
old log at the same indexes. -/
lemma retain (h : Paired ld fl) {e : LogEntry Cmd} (he : fl.logAt ld.lastIncludedIndex = some e)
    (heq : e.logTerm = ld.lastIncludedTerm)
    (hlogs : fl'.logs = Raft.markSentinel
      (fl.logs.drop (ld.lastIncludedIndex - fl.lastIncludedIndex)))
    (hbase : fl'.lastIncludedIndex = ld.lastIncludedIndex)
    (hterm : fl'.lastIncludedTerm = ld.lastIncludedTerm)
    (hcmd : fl'.lastIncludedCmdIndex = ld.lastIncludedCmdIndex) : Paired ld fl' := by
  obtain ⟨s, hs, hst, hsc⟩ := h.leader_shaped.logAt_base
  obtain ⟨hlow, hpos⟩ := Raft.logAt_eq_some_iff.mp he
  obtain ⟨hce, -⟩ := h.consistent.agree _ s e hs he (hst.trans heq.symm) _ le_rfl s e hs he
  -- above the snapshot the lookup is unchanged, at the snapshot it finds the sentinel
  have hat : fl'.logs = { e with isInternalLog := true, command := none } ::
      fl.logs.drop (ld.lastIncludedIndex - fl.lastIncludedIndex + 1) := by
    rw [hlogs, List.drop_eq_getElem_cons (List.getElem?_eq_some_iff.mp hpos).1,
      (List.getElem?_eq_some_iff.mp hpos).2]
    rfl
  have habove : ∀ {i a}, fl'.logAt i = some a → (i = ld.lastIncludedIndex ∧
      a = { e with isInternalLog := true, command := none }) ∨
      (ld.lastIncludedIndex < i ∧ fl.logAt i = some a) := by
    intro i a ha
    obtain ⟨hle, hget⟩ := Raft.logAt_eq_some_iff.mp ha
    rw [hbase] at hle hget
    rw [hat] at hget
    rcases Nat.eq_or_lt_of_le hle with rfl | hlt
    · rw [Nat.sub_self] at hget
      exact Or.inl ⟨rfl, (Option.some.inj hget).symm⟩
    · refine Or.inr ⟨hlt, Raft.logAt_eq_some_iff.mpr ⟨by omega, ?_⟩⟩
      rw [List.getElem?_cons, if_neg (by omega), List.getElem?_drop] at hget
      rw [← hget]
      congr 1
      omega
  have hseq : fl'.InSequence := by
    unfold Raft.InSequence
    rw [hlogs, hbase]
    exact (h.follower_shaped.index.drop hlow).congr (Raft.map_logIndex_markSentinel _)
  have hfirst : fl'.logAt fl'.lastIncludedIndex =
      some { e with isInternalLog := true, command := none } := by
    rw [Raft.logAt_base, hat]
    rfl
  refine ⟨h.leader_shaped, .of_logAt hseq hfirst (heq.trans hterm.symm)
    ((hce.symm.trans hsc).trans hcmd.symm), h.leader_numbered, fun i a b ha hb => ?_, ⟨?_, ?_⟩⟩
  · rcases habove hb with ⟨hi, -⟩ | ⟨-, hb'⟩
    · rcases habove ha with ⟨hi', -⟩ | ⟨hi', -⟩ <;> omega
    · rcases habove ha with ⟨rfl, rfl⟩ | ⟨-, ha'⟩
      · exact h.follower_numbered _ e b he hb'
      · exact h.follower_numbered i a b ha' hb'
  · intro i a b ha hb hab j hj a' b' ha' hb'
    -- the old log held an entry of the same term and command index at both places
    obtain ⟨b₀, hb₀, hterm₀⟩ : ∃ b₀, fl.logAt i = some b₀ ∧ b₀.logTerm = b.logTerm := by
      rcases habove hb with ⟨rfl, rfl⟩ | ⟨-, hb'⟩
      · exact ⟨e, he, rfl⟩
      · exact ⟨b, hb', rfl⟩
    have hold := h.consistent.agree i a b₀ ha hb₀ (hab.trans hterm₀.symm) j hj a'
    rcases habove hb' with ⟨rfl, rfl⟩ | ⟨hlt, hb₁⟩
    · exact ⟨(hold e ha' he).1, fun hlt => absurd hlt (lt_irrefl _)⟩
    · exact ⟨(hold b' ha' hb₁).1, fun hl _ => (hold b' ha' hb₁).2 hl (by omega)⟩
  · intro a b ha hb
    rw [hbase] at ha hb
    obtain rfl := Option.some.inj (hs.symm.trans ha)
    rcases habove hb with ⟨-, rfl⟩ | ⟨hlt, -⟩
    · exact ⟨heq.trans hst.symm, hce.symm⟩
    · exact absurd hlt (lt_irrefl _)

/-- **A snapshot keeps the agreement.** The log is left alone, replaced by the sentinel, or cut at
the snapshot. -/
lemma installSnapshot (h : Paired ld fl) :
    Paired ld (fl.installSnapshot ld.buildInstall).state := by
  refine Raft.installSnapshot_rule h (h.observe _) fun logs hlt hlogs => ?_
  obtain ⟨last, hlast, ⟨-, rfl⟩ | ⟨e, hlt', he, ⟨-, rfl⟩ | ⟨heq, rfl⟩⟩⟩ :=
    Raft.logsAfterInstall_cases hlogs
  · exact h.replace rfl rfl rfl rfl
  · exact h.replace rfl rfl rfl rfl
  · refine h.retain he heq ?_ rfl rfl rfl
    exact congrArg Raft.markSentinel (h.follower_shaped.index.copyInto_eq hlast hlt.le hlt')

end Paired

/-- **Log agreement is preserved by replication.** From two well-shaped, numbered and consistent
logs, any `AppendEntries` request that the leader's log gives rise to, for any peer and next
index, and the `InstallSnapshot` request of the leader leave two such logs again.

**Proof sketch.** A heartbeat leaves the log alone, up to the commit index. A request with entries
has the entry before them from the leader's log, and the entries are the rest of it, so
`Paired.appendEntries` applies. For a snapshot it is `Paired.installSnapshot`. -/
theorem replication_keeps_agreement {ld fl : Raft n Cmd Snap} (h : Paired ld fl) :
    (∀ peer args, ld.buildAppend peer = .ok ld (some args) →
      Paired ld (fl.appendEntries args).state) ∧
    Paired ld (fl.installSnapshot ld.buildInstall).state := by
  refine ⟨fun peer args hbuild => ?_, h.installSnapshot⟩
  obtain ⟨-, last, l, -, -, ⟨-, rfl⟩ | ⟨prev, hlow, -, hprev, rfl⟩⟩ :=
    Raft.buildAppend_eq_some hbuild
  · -- a heartbeat leaves the log alone
    have hspec := Raft.appendEntries_spec fl
      ⟨ld.currentTerm, ld.me, none, none, [], ld.commitIndex⟩
    generalize fl.appendEntries ⟨ld.currentTerm, ld.me, none, none, [], ld.commitIndex⟩ = o at hspec
    cases hspec with
    | stale => exact h
    | heartbeat =>
      have hfollow : Paired ld (fl.becomeFollower ld.currentTerm) := h.congr rfl rfl rfl rfl
      exact hfollow.advanceCommit _ _
    | below _ he => exact absurd rfl he
    | empty => exact h.congr rfl rfl rfl rfl
    | beyond _ he => exact absurd rfl he
    | outside => exact h.congr rfl rfl rfl rfl
    | accept _ he => exact absurd rfl he
    | conflict _ he => exact absurd rfl he
  · have hidx := Consecutive.logIndex_of_getElem? h.leader_shaped.index hprev
    have hnext : prev.logIndex + 1 = l.nextIndexs peer := by omega
    have hpe : ld.logAt prev.logIndex = some prev := by
      rw [hidx]
      exact Raft.logAt_of_getElem? hprev
    exact h.appendEntries hpe rfl rfl (by rw [hnext])

/-! ## Two compacted logs -/

/-- An index that finds an entry is not behind the log. -/
lemma Raft.lt_of_logAt {rf : Raft n Cmd Snap} {i : ℕ} {e : LogEntry Cmd}
    (h : rf.logAt i = some e) : i < rf.lastIncludedIndex + rf.logs.length := by
  obtain ⟨hlow, hget⟩ := Raft.logAt_eq_some_iff.mp h
  have := (List.getElem?_eq_some_iff.mp hget).1
  omega

instance (rf : Raft n Cmd Snap) : Decidable rf.Shaped :=
  decidable_of_iff (rf.logs.map LogEntry.logIndex =
      List.range' rf.lastIncludedIndex rf.logs.length ∧
      (∃ e ∈ rf.logs.head?, e.logTerm = rf.lastIncludedTerm) ∧
      ∀ e ∈ rf.logs.head?, e.commandIndex = rf.lastIncludedCmdIndex)
    ⟨fun h => ⟨⟨h.1, h.2.1⟩, h.2.2⟩, fun h => ⟨h.index, h.sentinel, h.command⟩⟩

instance (rf : Raft n Cmd Snap) : Decidable rf.CommandsNumbered :=
  decidable_of_iff (∀ i < rf.lastIncludedIndex + rf.logs.length, ∀ a ∈ rf.logAt i,
      ∀ b ∈ rf.logAt (i + 1), b.commandIndex = a.commandIndex + if b.isInternalLog then 0 else 1)
    ⟨fun h i a b ha hb => h i (Raft.lt_of_logAt ha) a ha b hb,
      fun h i _ a ha b hb => h i a b ha hb⟩

/-- What two consistent logs have in common up to an index of equal terms. -/
def SameUpTo (ld fl : Raft n Cmd Snap) (i : ℕ) : Prop :=
  ∀ j < i + 1, ∀ a ∈ ld.logAt j, ∀ b ∈ fl.logAt j, a.commandIndex = b.commandIndex ∧
    (ld.lastIncludedIndex < j → fl.lastIncludedIndex < j →
      a.command = b.command ∧ a.isInternalLog = b.isInternalLog)

instance [DecidableEq Cmd] (ld fl : Raft n Cmd Snap) (i : ℕ) : Decidable (SameUpTo ld fl i) :=
  inferInstanceAs (Decidable (∀ j < i + 1, _))

instance [DecidableEq Cmd] (ld fl : Raft n Cmd Snap) : Decidable (Consistent ld fl) :=
  decidable_of_iff ((∀ i < fl.lastIncludedIndex + fl.logs.length, ∀ a ∈ ld.logAt i,
      ∀ b ∈ fl.logAt i, a.logTerm = b.logTerm → SameUpTo ld fl i) ∧
      ∀ a ∈ ld.logAt fl.lastIncludedIndex, ∀ b ∈ fl.logAt fl.lastIncludedIndex,
        b.logTerm = a.logTerm ∧ b.commandIndex = a.commandIndex)
    ⟨fun h => ⟨fun i a b ha hb heq j hj a' b' ha' hb' =>
        h.1 i (Raft.lt_of_logAt hb) a ha b hb heq j (Nat.lt_succ_of_le hj) a' ha' b' hb',
        fun a b ha hb => h.2 a ha b hb⟩,
      fun h => ⟨fun i _ a ha b hb heq j hj a' ha' b' hb' =>
        h.agree i a b ha hb heq j (Nat.le_of_lt_succ hj) a' b' ha' hb',
        fun a ha b hb => h.sentinel a b ha hb⟩⟩

instance [DecidableEq Cmd] (ld fl : Raft n Cmd Snap) : Decidable (Paired ld fl) :=
  decidable_of_iff (ld.Shaped ∧ fl.Shaped ∧ ld.CommandsNumbered ∧ fl.CommandsNumbered ∧
      Consistent ld fl)
    ⟨fun h => ⟨h.1, h.2.1, h.2.2.1, h.2.2.2.1, h.2.2.2.2⟩, fun h =>
      ⟨h.leader_shaped, h.follower_shaped, h.leader_numbered, h.follower_numbered, h.consistent⟩⟩

/-- Server 0 of three leads term 3, with a snapshot up to index 2 and the next index 4 for all
peers. -/
def compactedLeader : Raft 3 ℕ ℕ where
  me := 0
  currentTerm := 3
  votedFor := some 0
  logs := [⟨1, 2, none, 2, true⟩, ⟨2, 3, some 9, 3, false⟩, ⟨3, 4, none, 3, true⟩,
    ⟨3, 5, some 12, 4, false⟩]
  lastIncludedIndex := 2
  lastIncludedTerm := 1
  lastIncludedCmdIndex := 2
  commitIndex := 2
  lastApplied := 2
  role := .leader
  leaderPtr := some ⟨fun _ => 4, fun _ => 0⟩
  persister := {}
  applyChan := []

/-- Server 1 with a snapshot up to index 1 and two entries of term 2, from index 4 on, that the
leader does not have. -/
def compactedFollower : Raft 3 ℕ ℕ where
  me := 1
  currentTerm := 2
  votedFor := none
  logs := [⟨1, 1, none, 1, true⟩, ⟨1, 2, some 8, 2, false⟩, ⟨2, 3, some 9, 3, false⟩,
    ⟨2, 4, some 7, 4, false⟩, ⟨2, 5, some 6, 5, false⟩]
  lastIncludedIndex := 1
  lastIncludedTerm := 1
  lastIncludedCmdIndex := 1
  commitIndex := 1
  lastApplied := 1
  role := .follower
  leaderPtr := none
  persister := {}
  applyChan := []

/-- The two entries of the follower are replaced by the leader's, and the leader's snapshot cuts the
follower's log at index 2. -/
theorem replication_keeps_agreement_first : ∃ args,
    compactedLeader.buildAppend 1 = .ok compactedLeader (some args) ∧
    (compactedFollower.appendEntries args).state.logs.map LogEntry.command =
      [none, some 8, some 9, none, some 12] ∧
    Paired compactedLeader (compactedFollower.appendEntries args).state ∧
    (compactedFollower.installSnapshot compactedLeader.buildInstall).state.logs.map
      LogEntry.command = [none, some 9, some 7, some 6] ∧
    Paired compactedLeader
      (compactedFollower.installSnapshot compactedLeader.buildInstall).state := by
  have hpaired : Paired compactedLeader compactedFollower := by decide
  obtain ⟨happend, hinstall⟩ := replication_keeps_agreement hpaired
  exact ⟨_, rfl, by decide, happend 1 _ rfl, by decide, hinstall⟩

end Mit6824
