import Mit6824.Raft.Snapshots

set_option autoImplicit false

/-!
# Candidates and leaders refine the replicated log

The critical sections that make leader logs: the start of an election, its end, and the entries a
leader appends.

## Main definitions

* `Mit6824.Ghost.stand`, `Mit6824.Ghost.extend` — the abstract steps of a new candidate, and of a
  leader that appends an entry.

## Main results

* `Mit6824.startElection_sound`, `Mit6824.becomeLeader_sound`, `Mit6824.start_sound`.
-/

namespace Mit6824

open ReplicatedLog (EndsIn)

variable {n : ℕ} {Cmd Snap : Type} {tidy : Prop} {q : ℕ → Fin n → Prop} {i : Fin n}
  {G : Ghost n Cmd} {rf : Raft n Cmd Snap}

/-! ## Starting an election -/

/-- Server `i` enters the next term as a candidate with its present log. -/
def Ghost.stand (G : Ghost n Cmd) (i : Fin n) : Ghost n Cmd :=
  { G with
    st := G.st.raise i (G.st.term i + 1)
    cand := fun T A => if T = G.st.term i + 1 ∧ A = i then some (G.st.log i) else G.cand T A }

/-- A candidate is in the next term. -/
lemma Ghost.term_stand (G : Ghost n Cmd) (i : Fin n) :
    (G.stand i).st.term i = G.st.term i + 1 := by
  simp [Ghost.stand, ReplicatedLog.State.raise]

/-- A candidate enters its term with its present log. -/
lemma Ghost.cand_stand (G : Ghost n Cmd) (i : Fin n) :
    (G.stand i).cand (G.st.term i + 1) i = some (G.st.log i) := by
  simp [Ghost.stand]

/-- No server was a candidate in a term it has not reached, so nothing is overwritten. -/
lemma Ghost.step_stand (hG : G.Ok) : G.Step q i (G.stand i) := by
  have hs : G.Step q i (G.raise i (G.st.term i + 1)) := Ghost.step_raise (Nat.le_succ _)
  refine ⟨hs.ext, hs.term, hs.log, hs.done, hs.done_le, hs.base, hs.base_le, ?_, hs.lead,
    hs.lead_new, hs.leaderLog⟩
  intro T A C hC
  have hnew : ¬ (T = G.st.term i + 1 ∧ A = i) := by
    rintro ⟨rfl, rfl⟩
    have := hG.cand_le _ _ C hC
    omega
  simp only [Ghost.stand, if_neg hnew]
  exact hC

/-- Becoming a candidate keeps the abstract invariant.

**Proof sketch.** The only new candidate is the server in its new term, with its own log, which is
anchored. -/
lemma Ghost.Ok.stand (hG : G.Ok) (i : Fin n) : (G.stand i).Ok := by
  have hok : (G.raise i (G.st.term i + 1)).Ok := hG.raise (Nat.le_succ _)
  have hnew : ∀ T A C, (G.stand i).cand T A = some C →
      (T = G.st.term i + 1 ∧ A = i ∧ C = G.st.log i) ∨ G.cand T A = some C := by
    intro T A C hC
    simp only [Ghost.stand] at hC
    split_ifs at hC with h
    · exact Or.inl ⟨h.1, h.2, (Option.some.inj hC).symm⟩
    · exact Or.inr hC
  refine ⟨hok.inv, hok.numbered, hok.has_lead, hok.lead_le, fun T A C hC => ?_, fun T A C hC => ?_⟩
  · rcases hnew T A C hC with ⟨rfl, rfl, -⟩ | hC
    · exact (G.term_stand A).ge
    · exact hok.cand_le T A C hC
  · rcases hnew T A C hC with ⟨rfl, rfl, rfl⟩ | hC
    · exact hok.inv.anchored_log A
    · exact hok.cand_anchored T A C hC

/-- **A turn of `StartElection` refines the replicated log**: the request describes the log of the
candidate, and the candidate may vote for itself.

**Proof sketch.** A leader does nothing. Any other server stands in the next term, with its log as
the candidate's log, and may vote for itself. It does not lead, because nobody leads in a term that
is new to it. -/
theorem startElection_sound (hG : G.Ok) (h : RaftOk tidy G i rf) :
    Sound tidy q i G rf.startElection (fun G' r => rf.role ≠ .leader →
      VoteOk G' i (rf.currentTerm + 1) i ∧ ∀ args, r = some args → ReqOk G' args) := by
  by_cases hrole : rf.role = .leader
  · rw [Raft.startElection, if_pos hrole]
    exact ⟨G, Ghost.Step.refl q i G, hG, h, fun hne => absurd hrole hne⟩
  · obtain ⟨last, hlast, hidx, hterm, -⟩ := h.log.getLastLog (hG.numbered_log i)
    have hsome : rf.startElection = .ok (Raft.persist { rf with
          currentTerm := rf.currentTerm + 1
          role := .candicate
          votedFor := some rf.me })
        (some ⟨rf.currentTerm + 1, rf.me, last.logIndex, last.logTerm⟩) := by
      have hlast' : (Raft.persist { rf with
          currentTerm := rf.currentTerm + 1
          role := .candicate
          votedFor := some rf.me }).getLastLog = some last := hlast
      simp only [Raft.startElection, if_neg hrole, hlast']
      rfl
    have hptr : rf.leaderPtr = none := by
      have := h.role.not.mp hrole
      simpa using this
    have hstep : G.Step q i (G.stand i) := Ghost.step_stand hG
    have hT : rf.currentTerm + 1 = (G.stand i).st.term i := by rw [h.term, G.term_stand i]
    have hcand : (G.stand i).cand (rf.currentTerm + 1) i = some (G.st.log i) := by
      rw [h.term]
      exact G.cand_stand i
    rw [hsome]
    refine ⟨_, hstep, hG.stand i, ⟨⟨⟨⟨h.me, Raft.saved_persist _, hT,
      ⟨h.log.le, h.log.logs, h.log.term, h.log.cmd⟩, h.base, h.done_le, ?_, h.snap_le⟩, h.chan⟩,
      h.commit_le, h.tidy_le⟩, ?_, fun l hl => ?_, fun _ => ⟨?_, G.st.log i, ?_, Or.inl rfl⟩⟩,
      fun _ => ⟨⟨G.st.log i, hcand, ?_⟩, ?_⟩⟩
    · exact (hstep.committed h.committed).mono (hstep.ext.term_le i)
    · change Role.candicate = Role.leader ↔ rf.leaderPtr.isSome = true
      simp [hptr]
    · change rf.leaderPtr = some l at hl
      rw [hptr] at hl
      simp at hl
    · intro hlead
      have := hG.lead_le _ i hlead
      rw [G.term_stand i] at this
      omega
    · rw [← hT]
      exact hcand
    · exact (hG.stand i).inv.pledged_self hT.le
    · intro args hargs
      obtain rfl := Option.some.inj hargs
      refine ⟨G.st.log i, ?_, hidx.symm, hterm.symm⟩
      simp only [h.me]
      exact hcand

/-! ## Appending entries -/

/-- Server `i` leads its term, appends `e` and acknowledges its own log. -/
def Ghost.extend (G : Ghost n Cmd) (i : Fin n) (e : LogEntry Cmd) : Ghost n Cmd :=
  { G with
    st := (G.st.extend i (G.st.term i) e).addAck i (G.st.term i) (G.st.log i ++ [e])
    lead := Function.update G.lead (G.st.term i) (some i) }

section Extend

variable {e : LogEntry Cmd}

/-- The log of the leader has one entry more. -/
lemma Ghost.log_extend (G : Ghost n Cmd) (i : Fin n) (e : LogEntry Cmd) :
    (G.extend i e).st.log i = G.st.log i ++ [e] := by
  simp [Ghost.extend, ReplicatedLog.State.extend, ReplicatedLog.State.addAck]

/-- The leader log of the term is the log of the leader. -/
lemma Ghost.leaderLog_extend (G : Ghost n Cmd) (i : Fin n) (e : LogEntry Cmd) :
    (G.extend i e).st.leaderLog (G.st.term i) = some (G.st.log i ++ [e]) := by
  simp [Ghost.extend, ReplicatedLog.State.extend, ReplicatedLog.State.addAck]

/-- The leader logs of other terms stay. -/
lemma Ghost.leaderLog_extend_of_ne {T : ℕ} (hT : T ≠ G.st.term i) :
    (G.extend i e).st.leaderLog T = G.st.leaderLog T := by
  simp [Ghost.extend, ReplicatedLog.State.extend, ReplicatedLog.State.addAck, hT]

/-- The server leads its term. -/
lemma Ghost.lead_extend (G : Ghost n Cmd) (i : Fin n) (e : LogEntry Cmd) :
    (G.extend i e).lead (G.st.term i) = some i := by
  simp [Ghost.extend]

/-- The leaders of other terms stay. -/
lemma Ghost.lead_extend_of_ne {T : ℕ} (hT : T ≠ G.st.term i) :
    (G.extend i e).lead T = G.lead T := by
  simp [Ghost.extend, hT]

/-- Appending to the log of a leader is a step.

**Proof sketch.** Only the leader log of the term changes, and it grows by the entry. The leader of
the term is `i`, or there was none and `i` has its votes. -/
lemma Ghost.step_extend
    (hL : G.st.leaderLog (G.st.term i) = none ∨ G.st.leaderLog (G.st.term i) = some (G.st.log i))
    (hlead : G.lead (G.st.term i) = some i ∨ G.lead (G.st.term i) = none ∧ q (G.st.term i) i) :
    G.Step q i (G.extend i e) where
  ext := (ReplicatedLog.Ext.extend hL).trans (ReplicatedLog.Ext.addAck le_rfl)
  term _ _ := rfl
  log k hk := by simp [Ghost.extend, ReplicatedLog.State.extend, ReplicatedLog.State.addAck, hk]
  done _ _ := rfl
  done_le := List.prefix_rfl
  base _ _ := rfl
  base_le := le_rfl
  cand _ _ _ h := h
  lead T s hs := by
    by_cases hT : T = G.st.term i
    · subst hT
      rw [Ghost.lead_extend]
      rcases hlead with h | ⟨h, -⟩ <;> rw [h] at hs
      · exact hs
      · simp at hs
    · rwa [Ghost.lead_extend_of_ne hT]
  lead_new T s hs := by
    by_cases hT : T = G.st.term i
    · subst hT
      rw [Ghost.lead_extend] at hs
      obtain rfl := Option.some.inj hs
      rcases hlead with h | ⟨-, hq⟩
      · exact Or.inl h
      · exact Or.inr ⟨rfl, hq⟩
    · rw [Ghost.lead_extend_of_ne hT] at hs
      exact Or.inl hs
  leaderLog T := by
    by_cases hT : T = G.st.term i
    · subst hT
      exact Or.inr (G.lead_extend i e)
    · exact Or.inl (Ghost.leaderLog_extend_of_ne hT)

/-- Appending to the log of a leader keeps the abstract invariant.

**Proof sketch.** By the term: for the leader's own term the new log is numbered and led by `i`, and
for all others nothing has changed. -/
lemma Ghost.Ok.extend (hG : G.Ok)
    (hinv : ReplicatedLog.Inv LogEntry.logTerm (majority n) (G.st.extend i (G.st.term i) e))
    (hstep : G.Step q i (G.extend i e)) (hnum : Numbered (G.st.log i ++ [e])) :
    (G.extend i e).Ok where
  inv := by
    refine hinv.addAck rfl (G.leaderLog_extend i e) List.prefix_rfl ?_
    simp [ReplicatedLog.State.extend]
  numbered T L hL := by
    by_cases hT : T = G.st.term i
    · subst hT
      rw [Ghost.leaderLog_extend] at hL
      exact Option.some.inj hL ▸ hnum
    · exact hG.numbered T L (Ghost.leaderLog_extend_of_ne hT ▸ hL)
  has_lead T L hL := by
    by_cases hT : T = G.st.term i
    · subst hT
      exact ⟨i, G.lead_extend i e⟩
    · rw [Ghost.lead_extend_of_ne hT]
      exact hG.has_lead T L (Ghost.leaderLog_extend_of_ne hT ▸ hL)
  lead_le T s hs := by
    by_cases hT : T = G.st.term i
    · subst hT
      rw [Ghost.lead_extend] at hs
      obtain rfl := Option.some.inj hs
      exact le_rfl
    · exact hG.lead_le T s (Ghost.lead_extend_of_ne hT ▸ hs)
  cand_le := hG.cand_le
  cand_anchored T A C hC := hstep.ext.anchored (hG.cand_anchored T A C hC)

/-- Records about a log hold for a longer one. -/
lemma MatchOk.extend {j : Fin n} {T m : ℕ} {F : List (LogEntry Cmd)} (h : MatchOk G j T F m)
    (e : LogEntry Cmd) : MatchOk G j T (F ++ [e]) m := by
  rcases h with rfl | ⟨hle, h⟩
  · exact Or.inl rfl
  · refine Or.inr ⟨hle.trans (by simp), ?_⟩
    rwa [List.take_append_of_le_length hle]

/-- A longer log leaves a recorded `nextIndexs` value backed. -/
lemma NextOk.extend {j : Fin n} {T next : ℕ} {F : List (LogEntry Cmd)} (h : NextOk G j T F next)
    (e : LogEntry Cmd) : NextOk G j T (F ++ [e]) next := by
  left
  rw [List.length_append, List.length_singleton]
  rcases h with h | ⟨h, -⟩ <;> omega

/-- The state of a leader that has appended an entry.

**Proof sketch.** The log of the server and the leader log grow by the same entry, and what is
committed stays. -/
lemma RunningOk.extend (h : RunningOk tidy G i rf) (hstep : G.Step q i (G.extend i e))
    {rf' : Raft n Cmd Snap} {l : Leader n}
    (hrf' : rf' = Raft.persist { rf with
      role := .leader, leaderPtr := some l, logs := rf.logs ++ [e] })
    (hmtch : ∀ j, MatchOk G j (G.st.term i) (G.st.log i ++ [e]) (l.matchIndexs j))
    (hnext : ∀ j, j ≠ i → NextOk G j (G.st.term i) (G.st.log i ++ [e]) (l.nextIndexs j)) :
    RaftOk tidy (G.extend i e) i rf' := by
  subst hrf'
  refine ⟨⟨⟨⟨h.me, Raft.saved_persist _, h.term, ?_, h.base, ?_, hstep.committed h.committed,
    h.snap_le⟩, h.chan⟩, h.commit_le, h.tidy_le⟩, by simp [Raft.persist], fun l' hl => ?_,
    fun hc => ?_⟩
  · rw [Ghost.log_extend]
    exact h.log.concat rfl
  · rw [Ghost.log_extend]
    exact h.done_le.trans (List.prefix_append _ _)
  · obtain rfl : l = l' := Option.some.inj hl
    refine ⟨G.lead_extend i e, ?_, ?_, fun j => ?_, fun j hj => ?_⟩ <;> rw [Ghost.log_extend]
    · exact G.leaderLog_extend i e
    · exact ⟨_, Or.inr ⟨rfl, rfl, rfl⟩, List.prefix_rfl⟩
    · exact (hmtch j).stable hstep
    · exact (hnext j hj).stable hstep
  · simp [Raft.persist] at hc

/-- **`Start` refines the replicated log.**

**Proof sketch.** A server that does not lead refuses. A leader appends an entry with the next index
and command index to its log, which is the leader log of the term, so both grow together. -/
theorem start_sound (hG : G.Ok) (h : RaftOk tidy G i rf) (command : Cmd) :
    Sound tidy q i G (rf.start command) (fun _ _ => True) := by
  obtain ⟨last, hlast, hidx, -, hcmd⟩ := h.log.getLastLog (hG.numbered_log i)
  unfold Raft.start
  split_ifs with hrole
  · exact ⟨G, Ghost.Step.refl q i G, hG, h, trivial⟩
  rw [hlast]
  obtain ⟨l, hl⟩ := Option.isSome_iff_exists.mp (h.role.mp (not_not.mp hrole))
  have hl' := h.leader l hl
  have hcount := (hG.numbered_log i).commandIndex_lastOf
  have hnum : Numbered (G.st.log i ++ [(⟨rf.currentTerm, last.logIndex + 1, some command,
      last.commandIndex + 1, false⟩ : LogEntry Cmd)]) := by
    refine (hG.numbered_log i).concat (by simp only; omega) ?_
    simp [clientEntries, List.countP_append, hcmd, hcount]
  have hstep : G.Step q i (G.extend i ⟨rf.currentTerm, last.logIndex + 1, some command,
      last.commandIndex + 1, false⟩) := Ghost.step_extend (Or.inr hl'.log) (Or.inl hl'.lead)
  have hinv := hG.inv.append (e := ⟨rf.currentTerm, last.logIndex + 1, some command,
    last.commandIndex + 1, false⟩) rfl h.term hl'.log
  refine ⟨_, hstep, hG.extend hinv hstep hnum, h.toRunningOk.extend (l := l) hstep ?_
    (fun j => (hl'.mtch j).extend _) (fun j hj => (hl'.next j hj).extend _), trivial⟩
  rw [← hl, ← not_not.mp hrole]

/-- **`becomeLeader` refines the replicated log**, for a candidate of the present term with votes
of a quorum for it.

**Proof sketch.** The voters are pledged to the log the candidate entered the term with. No
committed prefix is missing there, so the log was not replaced since, and the voters are
pledged to it. -/
theorem becomeLeader_sound (hG : G.Ok) (h : RaftOk tidy G i rf) (hrole : rf.role = .candicate)
    (hq : q (G.st.term i) i) (hlead : ∀ s, G.lead (G.st.term i) = some s → s = i)
    {A : Finset (Fin n)} (hA : A ∈ (majority n).quorums)
    (hvote : ∀ k ∈ A, VoteOk G k (G.st.term i) i) :
    Sound tidy q i G rf.becomeLeader (fun _ _ => True) := by
  obtain ⟨last, hlast, hidx, -, hcmd⟩ := h.log.getLastLog (hG.numbered_log i)
  obtain ⟨hnot, C, hC, hrest⟩ := h.candidate hrole
  have hnone : G.lead (G.st.term i) = none := by
    cases hl : G.lead (G.st.term i) with
    | none => rfl
    | some s => exact absurd (hlead s hl ▸ hl) hnot
  have hnoneL : G.st.leaderLog (G.st.term i) = none := by
    cases hL : G.st.leaderLog (G.st.term i) with
    | none => rfl
    | some L =>
      obtain ⟨s, hs⟩ := hG.has_lead _ L hL
      rw [hnone] at hs
      simp at hs
  have hpledge : ∀ k ∈ A, G.st.Pledged LogEntry.logTerm (majority n) k (G.st.term i) C := by
    intro k hk
    obtain ⟨C', hC', hp⟩ := hvote k hk
    rw [hC] at hC'
    exact Option.some.inj hC' ▸ hp
  have hlog : G.st.log i = C := by
    rcases hrest with heq | ⟨P, hP, hmiss⟩
    · exact heq
    · exact absurd (hP.prefix_of_pledged hnoneL hA hpledge) hmiss
  have hcount := (hG.numbered_log i).commandIndex_lastOf
  have hnum : Numbered (G.st.log i ++ [(⟨rf.currentTerm, last.logIndex + 1, none,
      last.commandIndex, true⟩ : LogEntry Cmd)]) := by
    refine (hG.numbered_log i).concat (by simp only; omega) ?_
    simp [clientEntries, List.countP_append, hcmd, hcount]
  have hstep : G.Step q i (G.extend i ⟨rf.currentTerm, last.logIndex + 1, none,
      last.commandIndex, true⟩) := Ghost.step_extend (Or.inl hnoneL) (Or.inr ⟨hnone, hq⟩)
  have hinv := hG.inv.elect (e := ⟨rf.currentTerm, last.logIndex + 1, none,
    last.commandIndex, true⟩) rfl h.term hnoneL hA (hlog ▸ hpledge)
  unfold Raft.becomeLeader
  rw [hlast]
  refine ⟨_, hstep, hG.extend hinv hstep hnum, h.toRunningOk.extend hstep rfl
    (fun j => Or.inl rfl) (fun j _ => Or.inl ?_), trivial⟩
  simp [hidx]

end Extend

end Mit6824
