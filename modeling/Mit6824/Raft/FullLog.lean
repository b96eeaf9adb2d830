import Mathlib.Data.List.Count
import Mit6824.ReplicatedLog.Basic
import Mit6824.Raft.Spec

set_option autoImplicit false

/-!
# The log as it would be without compaction

A server keeps a sentinel for the last compacted entry and the entries after it. `Raft.Holds`
relates that to the full log, in which the entry of index `k` is at place `k - 1`. The accesses
of the source, by index, are then accesses to the full log.

## Main definitions

* `Mit6824.lastOf` — the last entry of a log, or the first sentinel.
* `Mit6824.Numbered` — every entry has the index of its place, and the command index counts the
  entries of clients up to it.
* `Mit6824.Raft.Holds` — the server's log is this full log, compacted.

## Main results

* `Mit6824.Raft.Holds.getLastLog`, `Mit6824.Raft.Holds.getElem?`, `Mit6824.Raft.Holds.logAt` — what
  the source reads.
* `Mit6824.Raft.Holds.replace` — what it writes behind an index.
* `Mit6824.take_eq_take` — two logs that agree in the term at an index agree up to it.
-/

namespace Mit6824

variable {n : ℕ} {Cmd Snap : Type}

/-! ## Full logs -/

/-- The last entry of a log; the sentinel of index 0 for the empty one. -/
def lastOf (F : List (LogEntry Cmd)) : LogEntry Cmd := F.getLast?.getD (Raft.dummyLog 0 0 0)

/-- The sentinel of an empty log. -/
@[simp] lemma lastOf_nil : lastOf ([] : List (LogEntry Cmd)) = Raft.dummyLog 0 0 0 := rfl

/-- The last entry. -/
@[simp] lemma lastOf_concat (F : List (LogEntry Cmd)) (e : LogEntry Cmd) :
    lastOf (F ++ [e]) = e := by
  simp [lastOf]

/-- The last entry of a prefix. -/
lemma lastOf_take_succ {F : List (LogEntry Cmd)} {k : ℕ} {e : LogEntry Cmd} (h : F[k]? = some e) :
    lastOf (F.take (k + 1)) = e := by
  rw [List.take_add_one, h]
  exact lastOf_concat _ e

/-- The number of entries that are not internal. -/
def clientEntries (F : List (LogEntry Cmd)) : ℕ := F.countP fun e => !e.isInternalLog

/-- Every entry has the index of its place, and its command index counts the entries of clients
up to it. -/
def Numbered (F : List (LogEntry Cmd)) : Prop :=
  ∀ k e, F[k]? = some e → e.logIndex = k + 1 ∧ e.commandIndex = clientEntries (F.take (k + 1))

namespace Numbered

variable {F L : List (LogEntry Cmd)}

/-- An empty log is numbered. -/
lemma nil : Numbered ([] : List (LogEntry Cmd)) := by
  intro k e h
  simp at h

/-- A prefix of a numbered log is numbered. -/
lemma shorten (h : Numbered L) (hp : F <+: L) : Numbered F := by
  obtain ⟨R, rfl⟩ := hp
  intro k e he
  have hk : k < F.length := (List.getElem?_eq_some_iff.mp he).1
  have := h k e (by rw [List.getElem?_append_left hk]; exact he)
  rwa [List.take_append_of_le_length hk] at this

/-- The index of the last entry is the length of the log. -/
lemma logIndex_lastOf (h : Numbered F) : (lastOf F).logIndex = F.length := by
  rcases List.eq_nil_or_concat' F with rfl | ⟨P, e, rfl⟩
  · rfl
  · have := (h P.length e (by simp)).1
    simpa using this

/-- The command index of the last entry is the number of client entries. -/
lemma commandIndex_lastOf (h : Numbered F) : (lastOf F).commandIndex = clientEntries F := by
  rcases List.eq_nil_or_concat' F with rfl | ⟨P, e, rfl⟩
  · rfl
  · have := (h P.length e (by simp)).2
    rw [List.take_of_length_le (by simp)] at this
    rw [lastOf_concat, this]

/-- Command indexes tell the entries of clients apart.

**Proof sketch.** The count of clients' entries grows with each of them, so of two places the later
one has the larger command index. -/
lemma place_eq (h : Numbered F) {k k' : ℕ} {e e' : LogEntry Cmd} (he : F[k]? = some e)
    (he' : F[k']? = some e') (hint : e.isInternalLog = false) (hint' : e'.isInternalLog = false)
    (heq : e.commandIndex = e'.commandIndex) : k = k' := by
  -- the count grows with every entry of a client
  have hlt : ∀ {k k' : ℕ} {e e' : LogEntry Cmd}, F[k]? = some e → F[k']? = some e' →
      e'.isInternalLog = false → k < k' → e.commandIndex < e'.commandIndex := by
    intro k k' e e' he he' hint' hkk
    have hpre : F.take (k + 1) <+: F.take k' := List.take_prefix_take_left hkk
    have hcount : clientEntries (F.take (k' + 1)) = clientEntries (F.take k') + 1 := by
      rw [List.take_add_one, he', clientEntries, List.countP_append]
      simp [hint', clientEntries]
    have hmono : clientEntries (F.take (k + 1)) ≤ clientEntries (F.take k') :=
      hpre.sublist.countP_le
    rw [(h k e he).2, (h k' e' he').2]
    omega
  rcases Nat.lt_trichotomy k k' with hk | hk | hk
  · exact absurd heq (hlt he he' hint' hk).ne
  · exact hk
  · exact absurd heq.symm (hlt he' he hint hk).ne

/-- Append an entry with the next index. -/
lemma concat (h : Numbered F) {e : LogEntry Cmd} (hi : e.logIndex = F.length + 1)
    (hc : e.commandIndex = clientEntries (F ++ [e])) : Numbered (F ++ [e]) := by
  intro k a ha
  rcases Nat.lt_or_ge k F.length with hk | hk
  · rw [List.getElem?_append_left hk] at ha
    rw [List.take_append_of_le_length hk]
    exact h k a ha
  · have hk' : k = F.length := by
      have := (List.getElem?_eq_some_iff.mp ha).1
      simp only [List.length_append, List.length_singleton] at this
      omega
    subst hk'
    obtain rfl : e = a := by simpa using ha
    exact ⟨hi, by rw [List.take_of_length_le (by simp)]; exact hc⟩

end Numbered

/-- A prefix that is not empty ends in the term of its last entry. -/
lemma endsIn_take {F : List (LogEntry Cmd)} {k : ℕ} (hpos : 0 < k) (hk : k ≤ F.length) :
    ReplicatedLog.EndsIn LogEntry.logTerm (F.take k) (lastOf (F.take k)).logTerm := by
  rcases List.eq_nil_or_concat' (F.take k) with h | ⟨P, e, h⟩
  · have := congrArg List.length h
    simp only [List.length_take, List.length_nil] at this
    omega
  · exact ⟨P, e, h, by rw [h, lastOf_concat]⟩

/-- Two anchored logs that agree in the term at an index agree up to it. -/
lemma take_eq_take {S : Type} {g : ReplicatedLog.State S (LogEntry Cmd)}
    {F M : List (LogEntry Cmd)} (hF : g.Anchored LogEntry.logTerm F)
    (hM : g.Anchored LogEntry.logTerm M) {k : ℕ} (hkF : k ≤ F.length) (hkM : k ≤ M.length)
    (ht : (lastOf (F.take k)).logTerm = (lastOf (M.take k)).logTerm) : F.take k = M.take k := by
  rcases Nat.eq_zero_or_pos k with rfl | hpos
  · simp
  refine (hF.shorten (List.take_prefix k F)).eq_of_endsIn (hM.shorten (List.take_prefix k M)) ?_
    (endsIn_take hpos hkF) (ht ▸ endsIn_take hpos hkM)
  rw [List.length_take, List.length_take]
  omega

/-! ## Compacted logs -/

/-- The server holds the full log `F`: the entries up to `lastIncludedIndex` are compacted into a
sentinel with the index, term and command index of the last of them. -/
structure Raft.Holds (rf : Raft n Cmd Snap) (F : List (LogEntry Cmd)) : Prop where
  le : rf.lastIncludedIndex ≤ F.length
  logs : ∃ s, rf.logs = s :: F.drop rf.lastIncludedIndex ∧ s.logIndex = rf.lastIncludedIndex ∧
    s.logTerm = (lastOf (F.take rf.lastIncludedIndex)).logTerm ∧
    s.commandIndex = (lastOf (F.take rf.lastIncludedIndex)).commandIndex
  term : rf.lastIncludedTerm = (lastOf (F.take rf.lastIncludedIndex)).logTerm
  cmd : rf.lastIncludedCmdIndex = (lastOf (F.take rf.lastIncludedIndex)).commandIndex

namespace Raft.Holds

variable {rf rf' : Raft n Cmd Snap} {F : List (LogEntry Cmd)}

/-- A log is never empty: it has its sentinel. -/
lemma ne_nil (h : rf.Holds F) : rf.logs ≠ [] := by
  obtain ⟨s, hs, -⟩ := h.logs
  simp [hs]

/-- The entries under the snapshot are in the sentinel. -/
lemma length_logs (h : rf.Holds F) : rf.logs.length + rf.lastIncludedIndex = F.length + 1 := by
  obtain ⟨s, hs, -⟩ := h.logs
  have := h.le
  rw [hs, List.length_cons, List.length_drop]
  omega

/-- Only the persistent values count. -/
lemma of_encode (h : rf.Holds F) (he : rf'.encodeRaftState = rf.encodeRaftState) :
    rf'.Holds F := by
  simp only [encodeRaftState, RaftState.mk.injEq] at he
  obtain ⟨-, -, hlogs, hidx, hterm, hcmd⟩ := he
  exact ⟨by rw [hidx]; exact h.le, by rw [hlogs, hidx]; exact h.logs,
    by rw [hterm, hidx]; exact h.term, by rw [hcmd, hidx]; exact h.cmd⟩

/-- The entry at a position of the slice: the sentinel, or the entry of the full log.

**Proof sketch.** At the index of the snapshot it is the sentinel; above it, positions are shifted
by that index. -/
lemma getElem? (h : rf.Holds F) (hF : Numbered F) {k : ℕ} (hlow : rf.lastIncludedIndex ≤ k)
    (hk : k ≤ F.length) : ∃ e, rf.logs[k - rf.lastIncludedIndex]? = some e ∧ e.logIndex = k ∧
      e.logTerm = (lastOf (F.take k)).logTerm ∧
      e.commandIndex = (lastOf (F.take k)).commandIndex ∧
      (rf.lastIncludedIndex < k → F[k - 1]? = some e) := by
  obtain ⟨s, hs, hidx, hterm, hcmd⟩ := h.logs
  rcases hlow.eq_or_lt with rfl | hlt
  · refine ⟨s, by simp [hs], hidx, hterm, hcmd, fun hlt => ?_⟩
    omega
  · have hget : rf.logs[k - rf.lastIncludedIndex]? = F[k - 1]? := by
      obtain ⟨j, hj⟩ : ∃ j, k - rf.lastIncludedIndex = j + 1 :=
        ⟨_, (Nat.sub_add_cancel (by omega)).symm⟩
      rw [hs, hj, List.getElem?_cons_succ, List.getElem?_drop]
      congr 1
      omega
    obtain ⟨e, he⟩ : ∃ e, F[k - 1]? = some e :=
      ⟨F[k - 1], List.getElem?_eq_getElem (by omega)⟩
    have hlast : lastOf (F.take k) = e := by
      have := lastOf_take_succ he
      rwa [Nat.sub_add_cancel (by omega)] at this
    have hnum := (hF (k - 1) e he).1
    exact ⟨e, hget.trans he, by omega, by rw [hlast], by rw [hlast], fun _ => he⟩

/-- A position past the end is outside the slice. -/
lemma getElem?_of_lt (h : rf.Holds F) {k : ℕ} (hk : F.length < k) :
    rf.logs[k - rf.lastIncludedIndex]? = none := by
  have := h.length_logs
  rw [List.getElem?_eq_none_iff]
  omega

/-- From the snapshot on, a lookup finds the entry of the full log, and at the snapshot its
sentinel. -/
lemma logAt (h : rf.Holds F) (hF : Numbered F) {k : ℕ} (hlow : rf.lastIncludedIndex ≤ k)
    (hk : k ≤ F.length) : ∃ e, rf.logAt k = some e ∧ e.logIndex = k ∧
      e.logTerm = (lastOf (F.take k)).logTerm ∧
      e.commandIndex = (lastOf (F.take k)).commandIndex ∧
      (rf.lastIncludedIndex < k → F[k - 1]? = some e) := by
  unfold Raft.logAt
  rw [if_neg (by omega)]
  exact h.getElem? hF hlow hk

/-- Any entry that `logAt` finds is one of the full log, or the sentinel. -/
lemma of_logAt (h : rf.Holds F) (hF : Numbered F) {k : ℕ} {e : LogEntry Cmd}
    (he : rf.logAt k = some e) : rf.lastIncludedIndex ≤ k ∧ k ≤ F.length ∧ e.logIndex = k ∧
      e.logTerm = (lastOf (F.take k)).logTerm ∧
      e.commandIndex = (lastOf (F.take k)).commandIndex ∧
      (rf.lastIncludedIndex < k → F[k - 1]? = some e) := by
  have hlow : rf.lastIncludedIndex ≤ k := by
    by_contra hlt
    simp [Raft.logAt, not_le.mp hlt] at he
  have hk : k ≤ F.length := by
    by_contra hlt
    simp [Raft.logAt, not_lt.mpr hlow, h.getElem?_of_lt (not_le.mp hlt)] at he
  obtain ⟨e', he', hrest⟩ := h.logAt hF hlow hk
  rw [he] at he'
  obtain rfl := Option.some.inj he'
  exact ⟨hlow, hk, hrest⟩

/-- The last entry of the slice is the last entry of the full log. -/
lemma getLastLog (h : rf.Holds F) (hF : Numbered F) : ∃ last, rf.getLastLog = some last ∧
    last.logIndex = F.length ∧ last.logTerm = (lastOf F).logTerm ∧
    last.commandIndex = (lastOf F).commandIndex := by
  obtain ⟨e, he, hidx, hterm, hcmd, -⟩ := h.getElem? hF h.le le_rfl
  rw [List.take_length] at hterm hcmd
  refine ⟨e, ?_, hidx, hterm, hcmd⟩
  have hlen := h.length_logs
  rw [Raft.getLastLog, List.getLast?_eq_getElem?, ← he]
  congr 1
  omega

/-- The entries from an index on. -/
lemma drop (h : rf.Holds F) {k : ℕ} (hlow : rf.lastIncludedIndex ≤ k) :
    rf.logs.drop (k - rf.lastIncludedIndex + 1) = F.drop k := by
  obtain ⟨s, hs, -⟩ := h.logs
  rw [hs, List.drop_succ_cons, List.drop_drop]
  congr 1
  omega

/-- Replacing the entries after index `k`. -/
lemma replace (h : rf.Holds F) {k : ℕ} (hlow : rf.lastIncludedIndex ≤ k) (hk : k ≤ F.length)
    {E logs : List (LogEntry Cmd)} (hl : logs = rf.logs.take (k - rf.lastIncludedIndex + 1) ++ E)
    (he : rf'.encodeRaftState = { rf.encodeRaftState with
      currentTerm := rf'.currentTerm, votedFor := rf'.votedFor, logs := logs }) :
    rf'.Holds (F.take k ++ E) := by
  obtain ⟨s, hs, hidx, hterm, hcmd⟩ := h.logs
  simp only [encodeRaftState, RaftState.mk.injEq, true_and] at he
  obtain ⟨hlogs, hii, hit, hic⟩ := he
  have hlen : (F.take k).length = k := List.length_take_of_le hk
  have htake : (F.take k ++ E).take rf.lastIncludedIndex = F.take rf.lastIncludedIndex := by
    rw [List.take_append_of_le_length (by omega), List.take_take, min_eq_left hlow]
  refine ⟨by rw [hii, List.length_append, hlen]; omega, ⟨s, ?_, ?_⟩, ?_, ?_⟩
  · rw [hlogs, hl, hs, hii, List.take_succ_cons, List.cons_append,
      List.drop_append_of_le_length (by omega), List.drop_take]
  · rw [hii, htake]
    exact ⟨hidx, hterm, hcmd⟩
  · rw [hit, hii, htake]
    exact h.term
  · rw [hic, hii, htake]
    exact h.cmd

/-- Appending an entry. -/
lemma concat (h : rf.Holds F) {e : LogEntry Cmd}
    (he : rf'.encodeRaftState = { rf.encodeRaftState with
      currentTerm := rf'.currentTerm, votedFor := rf'.votedFor, logs := rf.logs ++ [e] }) :
    rf'.Holds (F ++ [e]) := by
  have hlen := h.length_logs
  have hl : rf.logs ++ [e] = rf.logs.take (F.length - rf.lastIncludedIndex + 1) ++ [e] := by
    rw [List.take_of_length_le (by omega)]
  have := h.replace h.le le_rfl hl he
  rwa [List.take_length] at this

/-- The slice from an index on starts with the entry of that index. -/
lemma drop_cons (h : rf.Holds F) {k : ℕ} {e : LogEntry Cmd} (hlow : rf.lastIncludedIndex ≤ k)
    (he : rf.logs[k - rf.lastIncludedIndex]? = some e) :
    rf.logs.drop (k - rf.lastIncludedIndex) = e :: F.drop k := by
  obtain ⟨hlt, rfl⟩ := List.getElem?_eq_some_iff.mp he
  rw [List.drop_eq_getElem_cons hlt, h.drop hlow]

end Raft.Holds

end Mit6824
