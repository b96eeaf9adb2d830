import Mathlib.Tactic.IntervalCases
import Mit6824.Raft.Rounds
import Mit6824.Transition.Rounds

set_option autoImplicit false

/-!
# Catching up

A leader repeats rounds of `HeartBeatToServer` for a peer that lags behind, without loss and without
new commands. There are three situations from which no round leads to a `Success` reply that sets
the next index behind the leader's log.

* The follower has compacted its log further than the leader, and the next index is not above its
  snapshot. It refuses entries from under its snapshot with `Xlen = 0` and ignores the leader's
  older snapshot, and the next index goes back and forth between `1` and the leader's snapshot.
* There is nothing to send: the next index is behind the leader's log, or that log ends with the
  snapshot. Every round is a heartbeat, whose reply does not set the next index.
* The rounds go back to an entry of the follower that is not the leader's but of the term of the
  leader's last entry. The leader finds this term at the end of its log and sets the next index
  behind it, and there is nothing to send any more, although the follower lacks entries.

From every other start a successful round is reached after finitely many rounds, if the terms of
both logs do not decrease.

## Main definitions

* `Mit6824.Pair.advance` — the two servers after a round.
* `Mit6824.Pair.Stuck`, `Mit6824.Pair.Idle`, `Mit6824.Pair.Masked` — the three situations.
* `Mit6824.Pair.lag` — what gets smaller in every other round.

## Main results

* `Mit6824.Pair.catchUp_iff` — when a successful round is reached.
-/

namespace Mit6824

namespace Pair

variable {n : ℕ} {Cmd Snap : Type} {peer : Fin n} {p q : Pair n Cmd Snap}

/-- The two servers after a round. -/
def advance (peer : Fin n) (p : Pair n Cmd Snap) : Option (Pair n Cmd Snap) :=
  (p.round peer).map Prod.fst

/-- The follower's snapshot is above the leader's, and the next index is not above it. -/
def Stuck (peer : Fin n) (p : Pair n Cmd Snap) : Prop :=
  p.leader.lastIncludedIndex < p.follower.lastIncludedIndex ∧
    p.leader.nextIndex peer ≤ p.follower.lastIncludedIndex

instance : Decidable (p.Stuck peer) := inferInstanceAs (Decidable (_ ∧ _))

/-- Of the follower's entries before the next index, the last one whose term is not later than that
of the leader's last entry `l` is of the same term as `l`, and differs from the leader's entry at
its index. -/
def Masked (peer : Fin n) (p : Pair n Cmd Snap) : Prop :=
  ∃ k a b l, k < p.leader.nextIndex peer ∧ p.leader.logAt k = some a ∧
    p.follower.logAt k = some b ∧ b.logTerm ≠ a.logTerm ∧
    p.leader.logAt p.leader.lastIndex = some l ∧ b.logTerm = l.logTerm ∧
    p.follower.LaterAbove l.logTerm k (p.leader.nextIndex peer - 1)

/-- The terms of both logs do not decrease. -/
structure Sorted (p : Pair n Cmd Snap) : Prop where
  leader : p.leader.Ascending
  follower : p.follower.Ascending

/-- The work that is left: nothing when both snapshots are the same and the next index is behind
them; else the follower's log may have to be cut, and a next index behind it costs a round more. -/
def lag (peer : Fin n) (p : Pair n Cmd Snap) : ℕ :=
  if p.follower.lastIncludedIndex = p.leader.lastIncludedIndex ∧
      p.leader.nextIndex peer = p.leader.lastIncludedIndex + 1 then 0
  else 1 + 2 * p.follower.lastIndex +
    if p.follower.lastIndex + 1 < p.leader.nextIndex peer then 1 else 0

/-! ## Unsuccessful rounds -/

/-- A failed round is not successful. -/
lemma Failed.not_succeeds {r : Option (Exchange n Cmd)} (h : Failed peer p q r)
    (hround : p.round peer = some (q, r)) : ¬ p.Succeeds peer := by
  rintro ⟨q', args, reply, hround', -, hs, -⟩
  obtain ⟨-, rfl⟩ := Prod.mk.inj (Option.some.inj (hround.symm.trans hround'))
  cases h with
  | below _ _ hfail => simp [hfail] at hs
  | beyond _ _ hfail => simp [hfail] at hs
  | conflict _ _ hfail => simp [hfail] at hs

/-- What an unsuccessful round does when there is something to send. -/
lemma Ready.failed_of_advance (h : p.Ready peer) (hidle : ¬ p.Idle peer) (hs : ¬ p.Succeeds peer)
    (hq : p.advance peer = some q) : q.Ready peer ∧
      (∃ l, q.leader = { p.leader with leaderPtr := some l }) ∧ ∃ r, Failed peer p q r := by
  obtain ⟨hsucc, -⟩ | ⟨q', r, hround, hready, hleader, hfailed⟩ := round_spec h hidle
  · exact absurd hsucc hs
  · obtain rfl : q' = q := by simpa [advance, hround] using hq
    exact ⟨hready, hleader, r, hfailed⟩

/-- A round panics nowhere when there is something to send. -/
lemma Ready.exists_advance (h : p.Ready peer) (hidle : ¬ p.Idle peer) (hs : ¬ p.Succeeds peer) :
    ∃ q, p.advance peer = some q := by
  obtain ⟨hsucc, -⟩ | ⟨q, r, hround, -⟩ := round_spec h hidle
  · exact absurd hsucc hs
  · exact ⟨q, by rw [advance, hround]; rfl⟩

/-- **A round is progress**, unless the follower is stuck or there is nothing to send.

**Proof sketch.** By how the round failed. A snapshot that is installed, or ignored because the
follower has a later one, brings the next index behind the snapshot. If the follower's log ends
before the entries, the next index goes down to its end. After a conflict the follower's log is
shorter. -/
lemma lag_lt (p : Pair n Cmd Snap) (h : p.Ready peer) (hstuck : ¬ p.Stuck peer)
    (hidle : ¬ p.Idle peer) (hs : ¬ p.Succeeds peer) :
    ∃ q, p.advance peer = some q ∧ q.lag peer < p.lag peer := by
  obtain ⟨q, hq⟩ := h.exists_advance hidle hs
  obtain ⟨-, ⟨l, hleader⟩, r, hfailed⟩ := h.failed_of_advance hidle hs hq
  have hbase : q.leader.lastIncludedIndex = p.leader.lastIncludedIndex := by rw [hleader]
  refine ⟨q, hq, ?_⟩
  have hroot := h.followerRooted.base_le
  have hcommitted := h.followerCommit
  unfold Stuck at hstuck
  unfold lag
  cases hfailed with
  | install hnext hlt hbase' _ hnext' =>
    rw [if_pos (by omega), if_neg (by omega)]
    omega
  | ignore hnext hle _ hbase' hnext' =>
    rw [if_pos (by omega), if_neg (by omega)]
    omega
  | below => omega
  | beyond _ _ _ hnext hlt hlogs hbase' hnext' =>
    have hlast := Raft.lastIndex_congr hlogs
    rw [hlast, hnext', if_neg (by omega : ¬ p.follower.lastIndex + 1 < p.follower.lastIndex + 1)]
    split_ifs <;> omega
  | conflict _ _ _ hnext _ hold _ hcommit _ hlast hbase' =>
    have hprev := (h.followerRooted.le_of_logAt hold).2
    split_ifs <;> omega

/-! ## Where the leader goes back to -/

/-- The search starts at the leader's last entry: if it is of the conflicting term, the next index
is set behind the log; if it is of an earlier term, to the follower's first entry of the conflicting
term; and otherwise into the log.

**Proof sketch.** The search goes down from the last entry. If it stops there, this entry is of the
conflicting term or of an earlier one; if it goes on, the entry is of a later one. -/
lemma GoesBack.cases_last (h : p.Ready peer) (hidle : ¬ p.Idle peer) {t next : ℕ}
    (hback : GoesBack peer p t next) {l : LogEntry Cmd}
    (hl : p.leader.logAt p.leader.lastIndex = some l) :
    (t = l.logTerm ∧ next = p.leader.lastIndex + 1) ∨
    (l.logTerm < t ∧ p.follower.lastIncludedIndex < next ∧ next < p.leader.nextIndex peer ∧
      ∃ first, p.follower.logAt next = some first ∧ first.logTerm = t) ∨
    (t < l.logTerm ∧ next ≤ p.leader.lastIndex) := by
  unfold Idle at hidle
  cases hback with
  | unchanged hlater =>
    exact Or.inr (Or.inr ⟨hlater _ _ le_rfl hl, by omega⟩)
  | @found i e he hterm hlater =>
    have hi := (h.leaderRooted.le_of_logAt he).2
    rcases Nat.lt_or_ge i p.leader.lastIndex with hlt | hge
    · exact Or.inr (Or.inr ⟨hlater _ _ hlt le_rfl hl, hlt⟩)
    · obtain rfl : i = p.leader.lastIndex := by omega
      obtain rfl := Option.some.inj (he.symm.trans hl)
      exact Or.inl ⟨hterm.symm, rfl⟩
  | @absent i x e first he hterm hlater hbase hx hfirst hfirst' =>
    have hi := (h.leaderRooted.le_of_logAt he).2
    rcases Nat.lt_or_ge i p.leader.lastIndex with hlt | hge
    · exact Or.inr (Or.inr ⟨hlater _ _ hlt le_rfl hl, by omega⟩)
    · obtain rfl : i = p.leader.lastIndex := by omega
      obtain rfl := Option.some.inj (he.symm.trans hl)
      exact Or.inr (Or.inl ⟨hterm, hbase, hx, first, hfirst, hfirst'⟩)

/-- The leader does not go back under the follower's snapshot: its own entry there is of the
snapshot's term, which is not later than the conflicting one. -/
lemma GoesBack.base_lt (h : p.Ready peer) (hsorted : p.Sorted)
    (hbases : p.leader.lastIncludedIndex < p.follower.lastIncludedIndex) {prev next : ℕ}
    {old : LogEntry Cmd} (hold : p.follower.logAt prev = some old)
    (hnext : p.leader.nextIndex peer = prev + 1)
    (hback : GoesBack peer p old.logTerm next) : p.follower.lastIncludedIndex < next := by
  obtain ⟨hlow, -⟩ := h.followerRooted.le_of_logAt hold
  obtain ⟨hle, hagree⟩ := h.agree _ h.followerCommit
  obtain ⟨a, ha⟩ := h.leaderRooted.exists_logAt hbases.le hle
  obtain ⟨b, hb, -⟩ := h.followerRooted.logAt_base
  have hterm : a.logTerm ≤ old.logTerm :=
    hagree a b ha hb ▸ hsorted.follower.logTerm_le hlow hb hold
  cases hback with
  | unchanged => omega
  | @found i e _ _ hlater =>
    by_contra hi
    have := hlater _ a (by omega) hle ha
    omega
  | absent _ _ _ hbase => exact hbase

/-- The leader's last entry. -/
lemma Ready.exists_last (h : p.Ready peer) :
    ∃ l, p.leader.logAt p.leader.lastIndex = some l :=
  h.leaderRooted.exists_logAt h.leaderRooted.base_le le_rfl

/-! ## The three situations are traps -/

/-- Unsuccessful rounds keep the terms of both logs in order. -/
lemma Sorted.of_failed (hsorted : p.Sorted)
    (hleader : ∃ l, q.leader = { p.leader with leaderPtr := some l })
    {r : Option (Exchange n Cmd)} (hfailed : Failed peer p q r) : q.Sorted := by
  obtain ⟨l, hleader⟩ := hleader
  have hsame : q.follower.logs = p.follower.logs → q.follower.Ascending := by
    intro hlogs
    unfold Raft.Ascending
    rw [hlogs]
    exact hsorted.follower
  refine ⟨by rw [hleader]; exact hsorted.leader, ?_⟩
  cases hfailed with
  | install _ _ _ hterms => exact hterms hsorted.follower
  | ignore _ _ hlogs => exact hsame hlogs
  | below _ _ _ _ _ hlogs => exact hsame hlogs
  | beyond _ _ _ _ _ hlogs => exact hsame hlogs
  | conflict _ _ _ _ _ _ _ _ hlogs =>
    unfold Raft.Ascending
    rw [hlogs, List.map_take]
    exact List.Pairwise.sublist (List.take_sublist _ _) hsorted.follower

/-- **Nothing helps a stuck follower.** Its round is not successful and leaves it stuck.

**Proof sketch.** A successful round has a previous entry that is not under the follower's snapshot.
Of the failed rounds only two are possible: the leader's snapshot is ignored, and the next index is
set behind it; or the entries are refused, and the next index is set to `1`. -/
lemma Stuck.trapped (hstuck : p.Stuck peer) (h : p.Ready peer) :
    ¬ p.Succeeds peer ∧ ∀ q, p.advance peer = some q → q.Ready peer ∧ q.Stuck peer := by
  obtain ⟨hbases, hnext⟩ := hstuck
  have hcommitted := h.followerCommit
  have hle := (h.agree _ h.followerCommit).1
  have hidle : ¬ p.Idle peer := by
    unfold Idle
    omega
  obtain ⟨-, a, b, -, hb, -⟩ | ⟨q, r, hround, hready, ⟨l, hleader⟩, hfailed⟩ := round_spec h hidle
  · have := (h.followerRooted.le_of_logAt hb).1
    omega
  · refine ⟨hfailed.not_succeeds hround, fun q' hq' => ?_⟩
    obtain rfl : q = q' := by simpa [advance, hround] using hq'
    have hbase : q.leader.lastIncludedIndex = p.leader.lastIncludedIndex := by rw [hleader]
    refine ⟨hready, ?_⟩
    unfold Stuck
    cases hfailed <;> omega

/-- **With nothing to send there never is anything.** -/
lemma Quiet.trapped (h : p.Quiet peer) :
    ¬ p.Succeeds peer ∧ ∀ q, p.advance peer = some q → q.Quiet peer := by
  refine ⟨?_, fun q hq => ?_⟩
  · rintro ⟨q, args, reply, hround, hne, -⟩
    obtain ⟨-, args', reply', heq, hnil⟩ := round_idle h hround
    obtain ⟨rfl, rfl⟩ := Prod.mk.inj (Option.some.inj heq)
    exact hne hnil
  · obtain ⟨⟨q', r⟩, hround, rfl⟩ := Option.map_eq_some_iff.mp hq
    exact (round_idle h hround).1

/-- A leader whose log ends with its snapshot sends the snapshot first, and then it is quiet.

**Proof sketch.** If the next index is behind the log, the leader is quiet. Otherwise it is not
above the snapshot and the snapshot is sent; whether the follower installs or ignores it, the next
index is then behind the log. -/
lemma Idle.trapped (hidle : p.Idle peer) (h : p.Ready peer) :
    ¬ p.Succeeds peer ∧ ∀ q, p.advance peer = some q → q.Quiet peer := by
  rcases Nat.lt_or_ge p.leader.lastIndex (p.leader.nextIndex peer) with hnext | hnext
  · exact (h.quiet hnext).trapped
  · have hlow : p.leader.nextIndex peer ≤ p.leader.lastIncludedIndex := by
      unfold Idle at hidle
      omega
    have hlast : p.leader.lastIndex ≤ p.leader.lastIncludedIndex := by
      unfold Idle at hidle
      omega
    obtain ⟨q, r, hround, hready, ⟨l, hleader⟩, hfailed⟩ := round_install h hlow
    refine ⟨hfailed.not_succeeds hround, fun q' hq' => ?_⟩
    obtain rfl : q = q' := by simpa [advance, hround] using hq'
    have hsame : q.leader.lastIndex = p.leader.lastIndex := by
      rw [hleader]
      rfl
    refine hready.quiet ?_
    cases hfailed with
    | install => omega
    | ignore => omega
    | below => omega
    | beyond => omega
    | conflict _ _ _ hnext' hpe =>
      have := (h.leaderRooted.le_of_logAt hpe).1
      omega

/-- **A masked entry ends in silence.** The round is not successful, and the entry is still masked
after it, or there is nothing to send.

**Proof sketch.** Nothing up to the next index matches: the entries above the masked one are later
than all of the leader's. A refusal for one of them sets the next index to the first entry of its
term, which is above the masked one; a refusal for the masked one sets it behind the leader's
log. -/
lemma Masked.trapped (hmasked : p.Masked peer) (h : p.Ready peer) (hsorted : p.Sorted)
    (hidle : ¬ p.Idle peer) : ¬ p.Succeeds peer ∧
      ∀ q, p.advance peer = some q → q.Ready peer ∧ q.Sorted ∧ (q.Masked peer ∨ q.Idle peer) := by
  obtain ⟨k, a, b, l, hk, ha, hb, hne, hl, hterm, hlater⟩ := hmasked
  have hklow := (h.leaderRooted.le_of_logAt ha).1
  have hkbase := (h.followerRooted.le_of_logAt hb).1
  have hklast := (h.followerRooted.le_of_logAt hb).2
  obtain ⟨-, a', b', ha', hb', hab⟩ | ⟨q, r, hround, hready, ⟨l', hleader⟩, hfailed⟩ :=
    round_spec h hidle
  · exfalso
    rcases Nat.lt_or_ge k (p.leader.nextIndex peer - 1) with hlt | hge
    · have := hlater _ b' hlt le_rfl hb'
      have := hsorted.leader.logTerm_le (h.leaderRooted.le_of_logAt ha').2 ha' hl
      omega
    · obtain rfl : k = p.leader.nextIndex peer - 1 := by omega
      obtain rfl := Option.some.inj (ha.symm.trans ha')
      obtain rfl := Option.some.inj (hb.symm.trans hb')
      exact hne hab.symm
  · refine ⟨hfailed.not_succeeds hround, fun q' hq' => ?_⟩
    obtain rfl : q = q' := by simpa [advance, hround] using hq'
    refine ⟨hready, hsorted.of_failed ⟨l', hleader⟩ hfailed, ?_⟩
    have hlogAt : ∀ i, q.leader.logAt i = p.leader.logAt i := by
      rw [hleader]
      exact fun i => rfl
    have hlast : q.leader.lastIndex = p.leader.lastIndex := by
      rw [hleader]
      rfl
    cases hfailed with
    | install => omega
    | ignore => omega
    | below => omega
    | beyond _ _ _ _ _ hlogs hbase hnext' =>
      refine Or.inl ⟨k, a, b, l, by omega, (hlogAt k).trans ha,
        (Raft.logAt_congr hlogs hbase k).trans hb, hne, by rw [hlast, hlogAt, hl], hterm, ?_⟩
      intro j e hlt hle he
      rw [Raft.logAt_congr hlogs hbase] at he
      exact hlater j e hlt (by omega) he
    | @conflict _ _ _ prev pe old hnext hpe hold hne' hcommit hlogs _ hbase hback =>
      have hlow := (h.followerRooted.le_of_logAt hold).1
      obtain ⟨heq, hnext'⟩ | ⟨hlt, -, hx, first, hfirst, hft⟩ | ⟨hlt, -⟩ :=
        hback.cases_last h hidle hl
      · exact Or.inr (Or.inl (by omega))
      · -- the entry of the refusal is above the masked one
        have hkx : k < q.leader.nextIndex peer := by
          by_contra hge
          have := hsorted.follower.logTerm_le (not_lt.mp hge) hfirst hb
          omega
        have hcut : ∀ i < prev, q.follower.logAt i = p.follower.logAt i := by
          intro i hi
          rw [Raft.logAt_cut hlow hlogs hbase, if_pos hi]
        refine Or.inl ⟨k, a, b, l, hkx, (hlogAt k).trans ha, (hcut k (by omega)).trans hb, hne,
          by rw [hlast, hlogAt, hl], hterm, ?_⟩
        intro j e hkj hle he
        rw [hcut j (by omega)] at he
        exact hlater j e hkj (by omega) he
      · -- an entry of an earlier term than the leader's last one is not above the masked one
        exfalso
        have hkprev : k ≤ prev := by omega
        have := hsorted.follower.logTerm_le hkprev hb hold
        omega

/-! ## Other starts -/

/-- None of the three situations. -/
structure Free (peer : Fin n) (p : Pair n Cmd Snap) : Prop where
  ready : p.Ready peer
  sorted : p.Sorted
  notStuck : ¬ p.Stuck peer
  notIdle : ¬ p.Idle peer
  notMasked : ¬ p.Masked peer

/-- No masked entry comes up in a round.

**Proof sketch.** A masked entry after the round was one before it: the follower's log has at most
become shorter, and the entries from the new next index on are of the conflicting term or later. At
the snapshot both have the same entry. -/
lemma Free.not_masked (h : p.Free peer) (hready : q.Ready peer)
    (hleader : ∃ l, q.leader = { p.leader with leaderPtr := some l })
    {r : Option (Exchange n Cmd)} (hfailed : Failed peer p q r) : ¬ q.Masked peer := by
  obtain ⟨l', hleader⟩ := hleader
  rintro ⟨k, a, b, l, hk, ha, hb, hne, hl, hterm, hlater⟩
  have hkbase := (hready.followerRooted.le_of_logAt hb).1
  have hkcommit : q.follower.commitIndex < k := hready.commit_lt_conflict ha hb hne
  have hcommitted := hready.followerCommit
  have hstuck := h.notStuck
  unfold Stuck at hstuck
  have hlast : q.leader.lastIndex = p.leader.lastIndex := by
    rw [hleader]
    rfl
  rw [hlast] at hl
  replace ha : p.leader.logAt k = some a := by rw [hleader] at ha; exact ha
  replace hl : p.leader.logAt p.leader.lastIndex = some l := by rw [hleader] at hl; exact hl
  cases hfailed with
  | install => omega
  | ignore => omega
  | below => omega
  | beyond _ _ _ _ hlt hlogs hbase hnext' =>
    rw [Raft.logAt_congr hlogs hbase] at hb
    refine h.notMasked ⟨k, a, b, l, by omega, ha, hb, hne, hl, hterm, ?_⟩
    intro j e hkj hle he
    have hj := (h.ready.followerRooted.le_of_logAt he).2
    refine hlater j e hkj (by omega) ?_
    rw [Raft.logAt_congr hlogs hbase, he]
  | @conflict _ _ _ prev pe old hnext hpe hold hne' hcommit hlogs _ hbase hback =>
    have hlow := (h.ready.followerRooted.le_of_logAt hold).1
    rw [Raft.logAt_cut hlow hlogs hbase] at hb
    split_ifs at hb with hkprev
    have hle := h.sorted.follower.logTerm_le hkprev.le hb hold
    obtain ⟨heq, -⟩ | ⟨-, -, hx, first, hfirst, hft⟩ | ⟨hlt, -⟩ :=
      hback.cases_last h.ready h.notIdle hl
    · -- the entry of the refusal itself was masked
      refine h.notMasked ⟨prev, pe, old, l, by omega, hpe, hold, hne', hl, heq, ?_⟩
      intro j e hkj hle' he
      omega
    · refine h.notMasked ⟨k, a, b, l, by omega, ha, hb, hne, hl, hterm, ?_⟩
      intro j e hkj hle' he
      rcases Nat.lt_or_ge j (q.leader.nextIndex peer) with hj | hj
      · refine hlater j e hkj (by omega) ?_
        rw [Raft.logAt_cut hlow hlogs hbase, if_pos (by omega), he]
      · have := h.sorted.follower.logTerm_le hj hfirst he
        have hne'' : old.logTerm ≠ l.logTerm := by
          intro heq
          refine h.notMasked ⟨prev, pe, old, l, by omega, hpe, hold, hne', hl, heq, ?_⟩
          intro j e hkj hle' he
          omega
        omega
    · omega

/-- **No round leads into one of the three situations.**

**Proof sketch.** By how the round failed. Only a conflict can bring the follower into trouble. Its
next index lies above the follower's snapshot (`GoesBack.base_lt`), so the follower is not stuck;
and it lies behind the leader's log only if the follower was masked before (`GoesBack.cases_last`).
-/
lemma Free.advance (h : p.Free peer) (hs : ¬ p.Succeeds peer) (hq : p.advance peer = some q) :
    q.Free peer := by
  obtain ⟨hready, hleader, r, hfailed⟩ := h.ready.failed_of_advance h.notIdle hs hq
  have hmasked := h.not_masked hready hleader hfailed
  have hsorted := h.sorted.of_failed hleader hfailed
  obtain ⟨l', hleader⟩ := hleader
  have hbase' : q.leader.lastIncludedIndex = p.leader.lastIncludedIndex := by rw [hleader]
  have hlast : q.leader.lastIndex = p.leader.lastIndex := by
    rw [hleader]
    rfl
  have hstuck := h.notStuck
  have hidle := h.notIdle
  have hroot := h.ready.followerRooted.base_le
  unfold Stuck at hstuck
  unfold Idle at hidle
  refine ⟨hready, hsorted, ?_, ?_, hmasked⟩
  · rintro ⟨hbases, hnext⟩
    cases hfailed with
    | install => omega
    | ignore => omega
    | below => omega
    | beyond => omega
    | conflict _ _ _ hnext' _ hold _ _ _ _ hbase hback =>
      have := hback.base_lt h.ready h.sorted (by omega) hold hnext'
      omega
  · unfold Idle
    rintro (hnext | hnext)
    · cases hfailed with
      | install => omega
      | ignore => omega
      | below => omega
      | beyond => omega
      | @conflict _ _ _ prev pe old hnext' hpe hold hne _ _ _ _ hback =>
        obtain ⟨l, hl⟩ := h.ready.exists_last
        obtain ⟨heq, -⟩ | ⟨-, -, hx, -⟩ | ⟨-, hle⟩ := hback.cases_last h.ready h.notIdle hl
        · refine h.notMasked ⟨prev, pe, old, l, by omega, hpe, hold, hne, hl, heq, ?_⟩
          intro j e hkj hle' he
          omega
        · omega
        · omega
    · omega

/-! ## Main result -/

/-- The three situations, as a trap of the loop. -/
def Trapped (peer : Fin n) (p : Pair n Cmd Snap) : Prop :=
  p.Quiet peer ∨ p.Ready peer ∧ (p.Stuck peer ∨ p.Idle peer ∨ p.Sorted ∧ p.Masked peer)

/-- No round helps, and the next one does not either.

**Proof sketch.** By the situation. Each has its own lemma and leads to itself or to another one of
them. -/
lemma Trapped.next (p : Pair n Cmd Snap) (h : p.Trapped peer) :
    ¬ p.Succeeds peer ∧ ∀ q, p.advance peer = some q → q.Trapped peer := by
  rcases h with hquiet | ⟨hready, hstuck | hidle | ⟨hsorted, hmasked⟩⟩
  · exact ⟨hquiet.trapped.1, fun q hq => Or.inl (hquiet.trapped.2 q hq)⟩
  · obtain ⟨hs, hnext⟩ := hstuck.trapped hready
    exact ⟨hs, fun q hq => Or.inr ⟨(hnext q hq).1, Or.inl (hnext q hq).2⟩⟩
  · obtain ⟨hs, hnext⟩ := hidle.trapped hready
    exact ⟨hs, fun q hq => Or.inl (hnext q hq)⟩
  · by_cases hidle : p.Idle peer
    · obtain ⟨hs, hnext⟩ := hidle.trapped hready
      exact ⟨hs, fun q hq => Or.inl (hnext q hq)⟩
    · obtain ⟨hs, hnext⟩ := hmasked.trapped hready hsorted hidle
      refine ⟨hs, fun q hq => ?_⟩
      obtain ⟨hready', hsorted', hmasked' | hidle'⟩ := hnext q hq
      · exact Or.inr ⟨hready', Or.inr (Or.inr ⟨hsorted', hmasked'⟩)⟩
      · exact Or.inr ⟨hready', Or.inr (Or.inl hidle')⟩

/-- **Catching up.** From any two servers that are ready, repeated rounds reach a successful one
exactly when no state before it is stuck or idle. When the terms of both logs do not decrease, they
reach a successful one exactly when the start is not stuck, not idle and not masked.

**Proof sketch.** The three situations are traps (`Trapped.next`). Every other unsuccessful round
makes the lag smaller (`lag_lt`) and, with terms in order, leads into none of them
(`Free.advance`). -/
theorem catchUp_iff (h : p.Ready peer) :
    (Transition.Eventually (advance peer) (Succeeds peer) p ↔
      Transition.Avoids (advance peer) (Succeeds peer)
        (fun p => p.Stuck peer ∨ p.Idle peer) p) ∧
    (p.Sorted → (Transition.Eventually (advance peer) (Succeeds peer) p ↔
      ¬ p.Stuck peer ∧ ¬ p.Idle peer ∧ ¬ p.Masked peer)) := by
  constructor
  · refine Transition.eventually_iff_avoids (lag peer) (fun p q h hnot hs hq => ?_)
      (fun p h hnot hs => ?_) (fun p h htrap => ?_) Trapped.next h
    · exact (h.failed_of_advance (fun hidle => hnot (Or.inr hidle)) hs hq).1
    · exact lag_lt p h (fun hstuck => hnot (Or.inl hstuck)) (fun hidle => hnot (Or.inr hidle)) hs
    · exact Or.inr ⟨h, htrap.imp_right Or.inl⟩
  · intro hsorted
    constructor
    · intro hdone
      have hnot : ¬ p.Trapped peer := fun htrap =>
        Transition.not_eventually_of_trap Trapped.next htrap hdone
      exact ⟨fun hstuck => hnot (Or.inr ⟨h, Or.inl hstuck⟩),
        fun hidle => hnot (Or.inr ⟨h, Or.inr (Or.inl hidle)⟩),
        fun hmasked => hnot (Or.inr ⟨h, Or.inr (Or.inr ⟨hsorted, hmasked⟩)⟩)⟩
    · rintro ⟨hstuck, hidle, hmasked⟩
      exact Transition.eventually_of_measure (lag peer) (fun p q h hs hq => h.advance hs hq)
        (fun p h hs => lag_lt p h.ready h.notStuck h.notIdle hs)
        (⟨h, hsorted, hstuck, hidle, hmasked⟩ : p.Free peer)

/-! ## Three followers -/

/-- Server 0 of three, the leader of term 3, with the given log, commit index and next indexes. -/
def leaderWith (logs : List (LogEntry ℕ)) (commit next : ℕ) : Raft 3 ℕ ℕ where
  me := 0
  currentTerm := 3
  votedFor := some 0
  logs := logs
  lastIncludedIndex := 0
  lastIncludedTerm := 0
  lastIncludedCmdIndex := 0
  commitIndex := commit
  lastApplied := commit
  role := .leader
  leaderPtr := some ⟨fun _ => next, fun _ => 0⟩
  persister := {}
  applyChan := []

/-- Server 1 with the given log, snapshot and commit index. -/
def followerWith (logs : List (LogEntry ℕ)) (base baseTerm commit : ℕ) : Raft 3 ℕ ℕ where
  me := 1
  currentTerm := 3
  votedFor := none
  logs := logs
  lastIncludedIndex := base
  lastIncludedTerm := baseTerm
  lastIncludedCmdIndex := base
  commitIndex := commit
  lastApplied := commit
  role := .follower
  leaderPtr := none
  persister := {}
  applyChan := []

/-- The sentinel of a log that was never compacted, and the entry both servers have committed. -/
def committed : List (LogEntry ℕ) := [⟨0, 0, none, 0, true⟩, ⟨1, 1, some 7, 1, false⟩]

/-- A follower with two entries of term 2 that the leader does not have. -/
def diverged : Pair 3 ℕ ℕ :=
  ⟨leaderWith (committed ++ [⟨3, 2, some 8, 2, false⟩, ⟨3, 3, some 9, 3, false⟩]) 2 3,
    followerWith (committed ++ [⟨2, 2, some 5, 2, false⟩, ⟨2, 3, some 6, 3, false⟩]) 0 0 1⟩

/-- A follower that has an entry of term 3 where the leader, whose last entry is of term 3, has one
of term 1. -/
def masked : Pair 3 ℕ ℕ :=
  ⟨leaderWith (committed ++ [⟨1, 2, some 8, 2, false⟩, ⟨3, 3, some 9, 3, false⟩]) 1 3,
    followerWith (committed ++ [⟨3, 2, some 5, 2, false⟩]) 0 0 1⟩

/-- A follower that has applied two committed entries and compacted its log up to them, with the
next index `1`. -/
def compacted : Pair 3 ℕ ℕ :=
  ⟨leaderWith (committed ++ [⟨3, 2, some 8, 2, false⟩, ⟨3, 3, some 9, 3, false⟩]) 2 1,
    followerWith [⟨3, 2, none, 2, true⟩, ⟨3, 3, some 9, 3, false⟩] 2 3 2⟩

/-- Two servers that share the sentinel and the committed entry are ready. -/
lemma ready_of_committed {l f : List (LogEntry ℕ)} {commit next : ℕ}
    (hl : (leaderWith (committed ++ l) commit next).Rooted)
    (hf : (followerWith (committed ++ f) 0 0 1).Rooted)
    (hlast : 1 ≤ (leaderWith (committed ++ l) commit next).lastIndex)
    (hnext : next ≤ (leaderWith (committed ++ l) commit next).lastIndex + 1) :
    (⟨leaderWith (committed ++ l) commit next, followerWith (committed ++ f) 0 0 1⟩ :
      Pair 3 ℕ ℕ).Ready 1 := by
  refine ⟨rfl, rfl, hnext, hl, Nat.zero_le _, le_rfl, hf, Nat.zero_le _, fun i hi => ?_⟩
  have hi' : i ≤ 1 := hi
  refine ⟨hi'.trans hlast, ?_⟩
  interval_cases i
  · rintro a b ⟨⟩ ⟨⟩
    rfl
  · rintro a b ⟨⟩ ⟨⟩
    rfl

/-- The diverged pair is in the domain of the result. -/
lemma ready_diverged : diverged.Ready 1 :=
  ready_of_committed ⟨rfl, _, rfl, rfl⟩ ⟨rfl, _, rfl, rfl⟩ (by decide) (by decide)

/-- The masked pair is in the domain of the result. -/
lemma ready_masked : masked.Ready 1 :=
  ready_of_committed ⟨rfl, _, rfl, rfl⟩ ⟨rfl, _, rfl, rfl⟩ (by decide) (by decide)

/-- The first round with the diverged follower fails, and a later one is successful. -/
theorem catchUp_diverged : diverged.Ready 1 ∧ ¬ diverged.Succeeds 1 ∧
    Transition.Eventually (advance 1) (Succeeds 1) diverged := by
  have hsorted : diverged.Sorted := ⟨by decide, by decide⟩
  have hstuck : ¬ diverged.Stuck 1 := by decide
  have hidle : ¬ diverged.Idle 1 := by decide
  have hmasked : ¬ diverged.Masked 1 := by
    rintro ⟨k, a, b, l, -, -, hb, -, hl, hterm, -⟩
    have hearlier : ∀ e ∈ diverged.follower.logs, e.logTerm ≠ 3 := by decide
    cases hl
    exact hearlier b (List.mem_of_getElem? (Raft.logAt_eq_some_iff.mp hb).2) hterm
  refine ⟨ready_diverged, ?_, ((catchUp_iff ready_diverged).2 hsorted).mpr
    ⟨hstuck, hidle, hmasked⟩⟩
  rintro ⟨q, args, reply, hround, -, hs, -⟩
  cases hround
  exact absurd hs (by decide)

/-- The leader and the compacted follower agree wherever both have an entry. -/
lemma agree_compacted (i : ℕ) (a b : LogEntry ℕ) (ha : compacted.leader.logAt i = some a)
    (hb : compacted.follower.logAt i = some b) : a.logTerm = b.logTerm := by
  have hroot : compacted.follower.Rooted := ⟨rfl, _, rfl, rfl⟩
  obtain ⟨hlow, hi⟩ := hroot.le_of_logAt hb
  have hlow' : 2 ≤ i := hlow
  have hi' : i ≤ 3 := hi
  interval_cases i <;> cases ha <;> cases hb <;> rfl

/-- The compacted pair is in the domain of the result. -/
lemma ready_compacted : compacted.Ready 1 := by
  refine ⟨rfl, rfl, by decide, ⟨rfl, _, rfl, rfl⟩, by decide, by decide, ⟨rfl, _, rfl, rfl⟩,
    by decide, fun i hi => ⟨?_, agree_compacted i⟩⟩
  exact le_trans hi (by decide)

/-- Neither of the other two followers is ever caught up: the compacted one, although the logs
agree, and the masked one, with the next index at an entry of the leader.

**Proof sketch.** Both followers are in a situation that no round leads out of and in which no round
succeeds (`Trapped.next`). -/
theorem never_catches_up :
    (compacted.Ready 1 ∧ compacted.leader.nextIndex 1 = 1 ∧
      (∀ i a b, compacted.leader.logAt i = some a → compacted.follower.logAt i = some b →
        a.logTerm = b.logTerm) ∧
      ¬ Transition.Eventually (advance 1) (Succeeds 1) compacted) ∧
    masked.Ready 1 ∧ masked.leader.nextIndex 1 = masked.leader.lastIndex ∧
      ¬ Transition.Eventually (advance 1) (Succeeds 1) masked := by
  refine ⟨⟨ready_compacted, rfl, agree_compacted, ?_⟩, ready_masked, rfl, ?_⟩
  · exact Transition.not_eventually_of_trap Trapped.next
      (Or.inr ⟨ready_compacted, Or.inl (by decide)⟩)
  · have hsorted : masked.Sorted := ⟨by decide, by decide⟩
    have hmasked : masked.Masked 1 :=
      ⟨2, _, _, _, by decide, rfl, rfl, by decide, rfl, rfl, Raft.LaterAbove.self _ _⟩
    exact Transition.not_eventually_of_trap Trapped.next
      (Or.inr ⟨ready_masked, Or.inr (Or.inr ⟨hsorted, hmasked⟩)⟩)

end Pair

end Mit6824
