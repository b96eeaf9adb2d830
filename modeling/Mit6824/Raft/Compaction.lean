import Mit6824.Raft.Operations

set_option autoImplicit false

/-!
# Compaction is transparent

A server and the same server after `TakeSnapshot(k)`. As long as the requests do not reach below
`k`, the two give the same answers, send the same messages to the service and keep the same
entries above `k`; as leaders they build the same requests for every next index above `k`.

The proof is a simulation: the two states stay related by `Compacted` under every operation
considered, and they panic together if at all.

## Main definitions

* `Mit6824.Operation.Above` — the operations that do not reach below the snapshot.
* `Mit6824.Answer.hideXindex` — an answer without the one field that may differ.
* `Mit6824.SameAbove` — what the two servers have in common.
* `Mit6824.Compacted`, `Mit6824.Matched` — the relation of the simulation, for states and for the
  ends of critical sections.

## Main results

* `Mit6824.compaction_transparent`.
-/

namespace Mit6824

variable {n : ℕ} {Cmd Snap : Type}

/-- The operations that do not reach below index `k`, whose entry is of term `term`: a request with
entries has its previous entry above `k`, or at `k` with the right term. -/
def Operation.Above (k term : ℕ) : Operation n Cmd Snap → Prop
  | .start _ | .becomeLeader | .requestVoteCheck _ | .requestVoteGrant _ | .requestVote _ => True
  | .appendEntries args => args.entries = [] ∨ ∃ prev, args.prevLogIndex = some prev ∧
      (k < prev ∨ prev = k ∧ args.prevLogTerm = some term)
  | _ => False

/-- The reply without `Xindex`. -/
def AppendEntriesReply.hideXindex (reply : AppendEntriesReply) : AppendEntriesReply :=
  { reply with xindex := 0 }

/-- The answer without `Xindex`. -/
def Answer.hideXindex : Answer n → Answer n
  | .appended reply => .appended reply.hideXindex
  | a => a

/-- What two servers, one of them compacted up to `k`, have in common. -/
structure SameAbove (k : ℕ) (t t' : Raft n Cmd Snap) : Prop where
  currentTerm : t'.currentTerm = t.currentTerm
  votedFor : t'.votedFor = t.votedFor
  role : t'.role = t.role
  commitIndex : t'.commitIndex = t.commitIndex
  lastApplied : t'.lastApplied = t.lastApplied
  applyChan : t'.applyChan = t.applyChan
  entries : ∀ i, k < i → t'.logAt i = t.logAt i
  requests : ∀ l peer, k < l.nextIndexs peer →
    (({ t' with leaderPtr := some l } : Raft n Cmd Snap).buildAppend peer).result =
      (({ t with leaderPtr := some l } : Raft n Cmd Snap).buildAppend peer).result

/-- `s'` is `s` without the entries `P` and without the command of the entry `e` behind them,
which has index `k`; both have committed it. -/
structure Compacted (k : ℕ) (P : List (LogEntry Cmd)) (e : LogEntry Cmd) (s s' : Raft n Cmd Snap) :
    Prop where
  nonempty : P ≠ []
  base : s.lastIncludedIndex + P.length = k
  base' : s'.lastIncludedIndex = k
  committed : k ≤ s.commitIndex
  logs : ∃ es, s.logs = P ++ e :: es ∧ s'.logs = { e with command := none } :: es
  me : s'.me = s.me
  currentTerm : s'.currentTerm = s.currentTerm
  votedFor : s'.votedFor = s.votedFor
  role : s'.role = s.role
  leaderPtr : s'.leaderPtr = s.leaderPtr
  commitIndex : s'.commitIndex = s.commitIndex
  lastApplied : s'.lastApplied = s.lastApplied
  applyChan : s'.applyChan = s.applyChan

/-- Two sections that end alike: with related results, or in the same panic. -/
inductive Matched (k : ℕ) (P : List (LogEntry Cmd)) (e : LogEntry Cmd) {α β : Type} (f : α → β) :
    Outcome n Cmd Snap α → Outcome n Cmd Snap α → Prop
  | ok {s s' : Raft n Cmd Snap} {a a' : α} (h : Compacted k P e s s') (hf : f a' = f a) :
      Matched k P e f (.ok s a) (.ok s' a')
  | panic {s s' : Raft n Cmd Snap} (p : Panic) (h : Compacted k P e s s') :
      Matched k P e f (.panic p s) (.panic p s')

variable {k : ℕ} {P : List (LogEntry Cmd)} {e : LogEntry Cmd} {s s' : Raft n Cmd Snap}

/-- Ends that are alike stay so under a change of the answers that respects it. -/
lemma Matched.map {α β γ δ : Type} {f : α → β} {f' : γ → δ} {g g' : α → γ}
    {o o' : Outcome n Cmd Snap α} (h : Matched k P e f o o')
    (hg : ∀ a a', f a' = f a → f' (g' a') = f' (g a)) : Matched k P e f' (o.map g) (o'.map g') := by
  cases h with
  | ok h ha => exact .ok h (hg _ _ ha)
  | panic p h => exact .panic p h

/-- Sections that end alike do so after the same function of their results. -/
lemma Matched.map_id {α γ δ : Type} {o o' : Outcome n Cmd Snap α} (h : Matched k P e id o o')
    (f' : γ → δ) (g : α → γ) : Matched k P e f' (o.map g) (o'.map g) :=
  h.map fun a a' (ha : a' = a) => by rw [ha]

/-- Sections that end alike have the same results, up to the relation. -/
lemma Matched.result {α β : Type} {f : α → β} {o o' : Outcome n Cmd Snap α}
    (h : Matched k P e f o o') : o'.result.map f = o.result.map f := by
  cases h with
  | ok h ha => exact congrArg Except.ok ha
  | panic p h => rfl

/-- Sections that end alike leave related states. -/
lemma Matched.state {α β : Type} {f : α → β} {o o' : Outcome n Cmd Snap α}
    (h : Matched k P e f o o') : Compacted k P e o.state o'.state := by
  cases h with
  | ok h ha => exact h
  | panic p h => exact h

namespace Compacted

/-! ## Looking things up -/

/-- The compacted server has a snapshot above the old one. -/
lemma lt (h : Compacted k P e s s') : s.lastIncludedIndex < k := by
  have := List.length_pos_iff.mpr h.nonempty
  have := h.base
  omega

/-- Positions from the entry at `k` on differ by the length of what was dropped. -/
lemma getElem? (h : Compacted k P e s s') {i : ℕ} (hi : k ≤ i) {es : List (LogEntry Cmd)}
    (hlogs : s.logs = P ++ e :: es) : s.logs[i - s.lastIncludedIndex]? = (e :: es)[i - k]? := by
  have hbase := h.base
  rw [hlogs, List.getElem?_append_right (by omega)]
  congr 1
  omega

/-- Above the snapshot both find the same entries. -/
lemma logAt (h : Compacted k P e s s') {i : ℕ} (hi : k < i) : s'.logAt i = s.logAt i := by
  obtain ⟨es, hs, hs'⟩ := h.logs
  have hlt := h.lt
  rw [Raft.logAt, Raft.logAt, if_neg (by rw [h.base']; omega), if_neg (by omega),
    h.getElem? hi.le hs, hs', h.base']
  obtain ⟨j, hj⟩ : ∃ j, i - k = j + 1 := ⟨i - k - 1, by omega⟩
  rw [hj, List.getElem?_cons_succ, List.getElem?_cons_succ]

/-- Entries above `k` are read off alike. -/
lemma drop (h : Compacted k P e s s') {i : ℕ} (hi : k < i) :
    s'.logs.drop (i - s'.lastIncludedIndex) = s.logs.drop (i - s.lastIncludedIndex) := by
  obtain ⟨es, hs, hs'⟩ := h.logs
  have hbase := h.base
  obtain ⟨j, hj⟩ : ∃ j, i - k = j + 1 := ⟨i - k - 1, by omega⟩
  have hpos : i - s.lastIncludedIndex = P.length + (j + 1) := by omega
  rw [h.base', hs, hs', hpos, hj, List.drop_length_add_append, List.drop_succ_cons,
    List.drop_succ_cons]

/-- The last entries have the same indexes and terms; they differ at most in the command. -/
lemma getLastLog (h : Compacted k P e s s') : ∃ last last', s.getLastLog = some last ∧
    s'.getLastLog = some last' ∧ last'.logIndex = last.logIndex ∧ last'.logTerm = last.logTerm ∧
    last'.commandIndex = last.commandIndex := by
  obtain ⟨es, hs, hs'⟩ := h.logs
  rcases List.eq_nil_or_concat' es with rfl | ⟨es, last, rfl⟩
  · exact ⟨e, { e with command := none }, by simp [Raft.getLastLog, hs],
      by simp [Raft.getLastLog, hs'], rfl, rfl, rfl⟩
  · refine ⟨last, last, ?_, ?_, rfl, rfl, rfl⟩
    · rw [Raft.getLastLog, hs, ← List.cons_append, ← List.append_assoc, List.getLast?_concat]
    · rw [Raft.getLastLog, hs', ← List.cons_append, List.getLast?_concat]

/-! ## Small changes -/

/-- Following a term keeps the relation. -/
lemma becomeFollower (h : Compacted k P e s s') (t : ℕ) :
    Compacted k P e (s.becomeFollower t) (s'.becomeFollower t) :=
  ⟨h.nonempty, h.base, h.base', h.committed, h.logs, h.me, rfl, rfl, rfl, rfl, h.commitIndex,
    h.lastApplied, h.applyChan⟩

/-- Changing the role and the leader's indexes keeps the relation. -/
lemma lead (h : Compacted k P e s s') {r r' : Role} {l l' : Option (Leader n)} (hr : r' = r)
    (hl : l' = l) :
    Compacted k P e { s with role := r, leaderPtr := l } { s' with role := r', leaderPtr := l' } :=
  ⟨h.nonempty, h.base, h.base', h.committed, h.logs, h.me, h.currentTerm, h.votedFor, hr, hl,
    h.commitIndex, h.lastApplied, h.applyChan⟩

/-- Giving a vote keeps the relation. -/
lemma vote (h : Compacted k P e s s') (v : Option (Fin n)) :
    Compacted k P e (Raft.persist { s with votedFor := v })
      (Raft.persist { s' with votedFor := v }) :=
  ⟨h.nonempty, h.base, h.base', h.committed, h.logs, h.me, h.currentTerm, rfl, h.role, h.leaderPtr,
    h.commitIndex, h.lastApplied, h.applyChan⟩

/-- More messages to the service, and a higher commit index. -/
lemma advance (h : Compacted k P e s s') (ms : List (ApplyMsg Cmd Snap)) {i : ℕ} (hi : k ≤ i) :
    Compacted k P e
      { s with applyChan := s.applyChan ++ ms, commitIndex := i, lastApplied := i }
      { s' with applyChan := s'.applyChan ++ ms, commitIndex := i, lastApplied := i } :=
  ⟨h.nonempty, h.base, h.base', hi, h.logs, h.me, h.currentTerm, h.votedFor, h.role, h.leaderPtr,
    rfl, rfl, by rw [h.applyChan]⟩

/-- More entries at the end. -/
lemma concat (h : Compacted k P e s s') {es es' : List (LogEntry Cmd)} (hes : es' = es) :
    Compacted k P e (Raft.persist { s with logs := s.logs ++ es })
      (Raft.persist { s' with logs := s'.logs ++ es' }) := by
  obtain ⟨es₀, hs, hs'⟩ := h.logs
  subst hes
  exact ⟨h.nonempty, h.base, h.base', h.committed, ⟨es₀ ++ es', by simp [Raft.persist, hs],
    by simp [Raft.persist, hs']⟩, h.me, h.currentTerm, h.votedFor, h.role, h.leaderPtr,
    h.commitIndex, h.lastApplied, h.applyChan⟩

/-- Other entries behind index `k + m`. -/
lemma splice (h : Compacted k P e s s') (m : ℕ) (es : List (LogEntry Cmd)) :
    Compacted k P e
      (Raft.persist { s with logs := s.logs.take (k - s.lastIncludedIndex + m + 1) ++ es })
      (Raft.persist { s' with logs := s'.logs.take (m + 1) ++ es }) := by
  obtain ⟨es₀, hs, hs'⟩ := h.logs
  have hbase := h.base
  refine ⟨h.nonempty, h.base, h.base', h.committed, ⟨es₀.take m ++ es, ?_, ?_⟩, h.me,
    h.currentTerm, h.votedFor, h.role, h.leaderPtr, h.commitIndex, h.lastApplied, h.applyChan⟩
  · have hlen : k - s.lastIncludedIndex + m + 1 = P.length + (m + 1) := by omega
    show s.logs.take _ ++ es = _
    rw [hs, hlen, List.take_length_add_append, List.take_succ_cons]
    simp
  · show s'.logs.take _ ++ es = _
    rw [hs', List.take_succ_cons]
    rfl

/-- Adopting entries above the snapshot keeps the relation. -/
lemma adopt (h : Compacted k P e s s') {prev : ℕ} (hprev : k ≤ prev) (es : List (LogEntry Cmd)) :
    Compacted k P e (s.adopt (prev - s.lastIncludedIndex) es)
      (s'.adopt (prev - s'.lastIncludedIndex) es) := by
  have hlt := h.lt
  have hpos : prev - s.lastIncludedIndex = k - s.lastIncludedIndex + (prev - k) := by omega
  rw [h.base', hpos]
  exact h.splice (prev - k) es

/-- Cutting the log above the snapshot keeps the relation. -/
lemma cut (h : Compacted k P e s s') {prev : ℕ} (hprev : k < prev) :
    Compacted k P e
      (Raft.persist { s with logs := s.logs.take (prev - s.lastIncludedIndex) })
      (Raft.persist { s' with logs := s'.logs.take (prev - s'.lastIncludedIndex) }) := by
  have hlt := h.lt
  have hpos : prev - s.lastIncludedIndex = k - s.lastIncludedIndex + (prev - k - 1) + 1 := by omega
  have hpos' : prev - s'.lastIncludedIndex = prev - k - 1 + 1 := by
    rw [h.base']
    omega
  have hcut := h.splice (prev - k - 1) []
  rw [List.append_nil, List.append_nil] at hcut
  rw [hpos, hpos']
  exact hcut

/-! ## The sections -/

/-- `Start` ends alike. -/
lemma start (h : Compacted k P e s s') (command : Cmd) :
    Matched k P e id (s.start command) (s'.start command) := by
  obtain ⟨last, last', hlast, hlast', hi, ht, hc⟩ := h.getLastLog
  rcases eq_or_ne s.role .leader with hrole | hrole
  · have hrole' : s'.role = .leader := h.role.trans hrole
    rw [Raft.start, Raft.start, if_neg (not_not.mpr hrole), if_neg (not_not.mpr hrole'), hlast,
      hlast']
    refine .ok (h.concat ?_) ?_
    · rw [hi, hc, h.currentTerm]
    · rw [hc, h.currentTerm]
  · have hrole' : s'.role ≠ .leader := h.role ▸ hrole
    rw [Raft.start, Raft.start, if_pos hrole, if_pos hrole']
    exact .ok h rfl

/-- Becoming leader ends alike. -/
lemma becomeLeader (h : Compacted k P e s s') :
    Matched k P e id s.becomeLeader s'.becomeLeader := by
  obtain ⟨last, last', hlast, hlast', hi, ht, hc⟩ := h.getLastLog
  unfold Raft.becomeLeader
  rw [hlast, hlast']
  have hptr : some (⟨fun _ => last'.logIndex + 1, fun _ => 0⟩ : Leader n) =
      some ⟨fun _ => last.logIndex + 1, fun _ => 0⟩ := by rw [hi]
  exact .ok ((h.lead rfl hptr).concat (by rw [hi, hc, h.currentTerm])) rfl

/-- Seeing a term keeps the relation. -/
lemma observe (h : Compacted k P e s s') (t : ℕ) :
    Compacted k P e (s.observe t) (s'.observe t) := by
  unfold Raft.observe
  rw [h.currentTerm]
  split_ifs
  · exact h.becomeFollower t
  · exact h

/-- The first section of `RequestVote` ends alike. -/
lemma requestVoteCheck (h : Compacted k P e s s') (args : RequestVoteArgs n) :
    Matched k P e id (s.requestVoteCheck args) (s'.requestVoteCheck args) := by
  obtain ⟨last, last', hlast, hlast', hi, ht, -⟩ := h.getLastLog
  have hobs := h.observe args.candicateTerm
  obtain ⟨hnone, -⟩ | ⟨l, hl, heq⟩ := Raft.requestVoteCheck_cases s args
  · rw [hlast] at hnone
    simp at hnone
  · obtain ⟨hnone, -⟩ | ⟨l', hl', heq'⟩ := Raft.requestVoteCheck_cases s' args
    · rw [hlast'] at hnone
      simp at hnone
    · obtain rfl := Option.some.inj (hlast.symm.trans hl)
      obtain rfl := Option.some.inj (hlast'.symm.trans hl')
      rw [heq, heq', hi, ht, hobs.role, hobs.currentTerm]
      exact .ok hobs rfl

/-- The second section of `RequestVote` ends alike. -/
lemma requestVoteGrant (h : Compacted k P e s s') (args : RequestVoteArgs n) :
    Compacted k P e (s.requestVoteGrant args).1 (s'.requestVoteGrant args).1 ∧
      (s'.requestVoteGrant args).2 = (s.requestVoteGrant args).2 := by
  unfold Raft.requestVoteGrant
  rw [h.votedFor]
  split_ifs
  · exact ⟨h.vote _, rfl⟩
  · exact ⟨h, rfl⟩

/-- `RequestVote` ends alike. -/
lemma requestVote (h : Compacted k P e s s') (args : RequestVoteArgs n) :
    Matched k P e id (s.requestVote args) (s'.requestVote args) := by
  have hcheck := h.requestVoteCheck args
  unfold Raft.requestVote
  generalize s.requestVoteCheck args = o, s'.requestVoteCheck args = o' at hcheck
  cases hcheck with
  | panic p h' => exact .panic p h'
  | @ok t t' chk chk' h' heq =>
    obtain rfl : chk' = chk := heq
    obtain ⟨hgrant, hvote⟩ := h'.requestVoteGrant args
    dsimp only
    split_ifs
    · rw [hvote]
      exact .ok hgrant rfl
    · exact .ok h' rfl

/-- The commit loop ends alike on both servers.

**Proof sketch.** Induction on the number of turns. The next index to commit is above `k`, so both
servers find the same entry there, or none. -/
lemma commitLoop (leaderCommit : ℕ) : ∀ (fuel : ℕ) {s s' : Raft n Cmd Snap},
    Compacted k P e s s' → Matched k P e id (Raft.commitLoop leaderCommit fuel s)
      (Raft.commitLoop leaderCommit fuel s')
  | 0, _, _, h => .ok h rfl
  | fuel + 1, s, s', h => by
    obtain ⟨last, last', hlast, hlast', hi, -⟩ := h.getLastLog
    have hnext : k < s.commitIndex + 1 := Nat.lt_succ_of_le h.committed
    unfold Raft.commitLoop
    rw [hlast, hlast', h.commitIndex]
    dsimp only
    rw [hi]
    split_ifs with hle
    · unfold Raft.sendEntry
      rw [h.logAt hnext]
      cases s.logAt (s.commitIndex + 1) with
      | none => exact .panic _ h
      | some a =>
        dsimp only
        split_ifs
        · have hadv := h.advance [] hnext.le
          simp only [List.append_nil] at hadv
          exact commitLoop leaderCommit fuel hadv
        · exact commitLoop leaderCommit fuel (h.advance _ hnext.le)
    · exact .ok h rfl

/-- The commit loop of a follower ends alike, and sends the same messages. -/
lemma advanceCommit (h : Compacted k P e s s') (leaderCommit : ℕ)
    {reply reply' : AppendEntriesReply} (hr : reply'.hideXindex = reply.hideXindex) :
    Matched k P e AppendEntriesReply.hideXindex (s.advanceCommit leaderCommit reply)
      (s'.advanceCommit leaderCommit reply') := by
  have hloop := commitLoop leaderCommit (leaderCommit - s.commitIndex) h
  unfold Raft.advanceCommit
  rw [h.commitIndex]
  split_ifs
  · generalize Raft.commitLoop leaderCommit (leaderCommit - s.commitIndex) s = o,
      Raft.commitLoop leaderCommit (leaderCommit - s.commitIndex) s' = o' at hloop
    cases hloop with
    | ok h' => exact .ok h' hr
    | panic p h' => exact .panic p h'
  · exact .ok h hr

/-- The previous entry of a request that does not reach below `k`: both servers miss it, both have
it, or it is the entry at `k`. -/
lemma getElem?_cases (h : Compacted k P e s s') {prev : ℕ} (hprev : k ≤ prev) :
    (prev = k ∧ s.logs[prev - s.lastIncludedIndex]? = some e ∧
      s'.logs[prev - s'.lastIncludedIndex]? = some { e with command := none }) ∨
    (k < prev ∧ s'.logs[prev - s'.lastIncludedIndex]? = s.logs[prev - s.lastIncludedIndex]?) := by
  obtain ⟨es, hs, hs'⟩ := h.logs
  have hget := h.getElem? hprev hs
  rcases hprev.eq_or_lt with rfl | hlt
  · refine Or.inl ⟨rfl, ?_, ?_⟩
    · rw [hget, Nat.sub_self, List.getElem?_cons_zero]
    · rw [h.base', hs', Nat.sub_self, List.getElem?_cons_zero]
  · obtain ⟨j, hj⟩ : ∃ j, prev - k = j + 1 := ⟨prev - k - 1, by omega⟩
    refine Or.inr ⟨hlt, ?_⟩
    rw [hget, h.base', hs', hj, List.getElem?_cons_succ, List.getElem?_cons_succ]

/-- `AppendEntries` ends alike on both servers, with replies that differ in `Xindex` at most.

**Proof sketch.** A request with entries reaches neither snapshot. At `k` the terms agree and both
servers take the entries; above `k` they look at the same entry, so they accept or cut together. -/
lemma appendEntries (h : Compacted k P e s s') {args : AppendEntriesArgs n Cmd}
    (habove : (Operation.appendEntries args : Operation n Cmd Snap).Above k e.logTerm) :
    Matched k P e AppendEntriesReply.hideXindex (s.appendEntries args) (s'.appendEntries args) := by
  rcases Nat.lt_or_ge args.leaderTerm s.currentTerm with hold | hnew
  · rw [Raft.appendEntries, Raft.appendEntries, if_pos hold, if_pos (h.currentTerm ▸ hold)]
    exact .ok h (by rw [h.currentTerm])
  rw [Raft.appendEntries, Raft.appendEntries, if_neg hnew.not_gt,
    if_neg (h.currentTerm ▸ hnew.not_gt)]
  have hf := h.becomeFollower args.leaderTerm
  generalize s.becomeFollower args.leaderTerm = t, s'.becomeFollower args.leaderTerm = t' at hf
  rcases habove with hnil | ⟨prev, hprev, hwhere⟩
  · rw [hnil]
    exact hf.advanceCommit _ rfl
  cases args.entries with
  | nil => exact hf.advanceCommit _ rfl
  | cons x xs =>
    have hlow : k ≤ prev := by omega
    have hlt := hf.lt
    obtain ⟨last, last', hlast, hlast', hi, -⟩ := hf.getLastLog
    dsimp only
    rw [hprev]
    dsimp only
    rw [if_neg (by omega), if_neg (by rw [hf.base']; omega), hlast, hlast']
    dsimp only
    rw [hi]
    split_ifs with hle
    · rcases hf.getElem?_cases hlow with ⟨rfl, hget, hget'⟩ | ⟨hgt, hget⟩
      · -- at the snapshot the term of the request is that of the entry
        have hterm : args.prevLogTerm = some e.logTerm := by simpa using hwhere
        rw [hget, hget', hterm]
        dsimp only
        rw [if_pos rfl, if_pos rfl]
        exact (hf.adopt le_rfl _).advanceCommit _ rfl
      · rw [hget]
        cases t.logs[prev - t.lastIncludedIndex]? with
        | none => exact .panic _ hf
        | some old =>
          dsimp only
          split_ifs
          · exact (hf.adopt hlow _).advanceCommit _ rfl
          · exact .ok (hf.cut hgt) rfl
    · exact .ok hf rfl

/-! ## Sequences of operations -/

/-- **One operation.** Every operation above the snapshot ends alike, up to `Xindex`. -/
lemma perform (h : Compacted k P e s s') {op : Operation n Cmd Snap} (hop : op.Above k e.logTerm) :
    Matched k P e Answer.hideXindex (s.perform op) (s'.perform op) := by
  cases op with
  | start command => exact (h.start command).map_id _ _
  | becomeLeader => exact h.becomeLeader.map_id _ _
  | requestVoteCheck args => exact (h.requestVoteCheck args).map_id _ _
  | requestVoteGrant args =>
    obtain ⟨hgrant, hvote⟩ := h.requestVoteGrant args
    exact .ok hgrant (by rw [hvote])
  | requestVote args => exact (h.requestVote args).map_id _ _
  | appendEntries args =>
    exact (h.appendEntries hop).map fun _ _ ha => congrArg Answer.appended ha
  | becomeFollower | startElection | installSnapshot | takeSnapshot | appendReply | installReply
  | crash => exact hop.elim

/-- A sequence of operations ends alike on both servers.

**Proof sketch.** Induction on the sequence: one operation ends alike on both servers, and the rest
of the sequence starts from related states. -/
lemma performAll : ∀ {ops : List (Operation n Cmd Snap)} {s s' : Raft n Cmd Snap},
    Compacted k P e s s' → (∀ op ∈ ops, op.Above k e.logTerm) →
    Matched k P e (List.map Answer.hideXindex) (s.performAll ops) (s'.performAll ops)
  | [], _, _, h, _ => .ok h rfl
  | op :: ops, s, s', h, hops => by
    have hop := h.perform (hops op List.mem_cons_self)
    unfold Raft.performAll
    generalize s.perform op = o, s'.perform op = o' at hop
    cases hop with
    | panic p h' => exact .panic p h'
    | ok h' ha =>
      have hrest := performAll h' fun op hop => hops op (List.mem_cons_of_mem _ hop)
      refine hrest.map fun as as' has => ?_
      rw [List.map_cons, List.map_cons, ha, has]

/-! ## What the relation gives -/

/-- A leader that sends entries from an index above `k` on reads them, and the entry before them,
at matching positions.

**Proof sketch.** The entries from `k` on are the same in both logs, at positions that differ by
what was cut off. The entry before them is of the same index and term, also if it is the new
sentinel. -/
lemma buildAppend (h : Compacted k P e s s') {l : Leader n} {peer : Fin n}
    (hl : s.leaderPtr = some l) (hnext : k < l.nextIndexs peer) :
    (s'.buildAppend peer).result = (s.buildAppend peer).result := by
  obtain ⟨last, last', hlast, hlast', hi, -⟩ := h.getLastLog
  have hlt := h.lt
  unfold Raft.buildAppend
  rw [hlast, hlast', h.leaderPtr, hl]
  dsimp only
  rw [hi]
  split_ifs with hle hcut hcut' hcut'
  · rfl
  · have := h.base'
    omega
  · omega
  · have hpos : l.nextIndexs peer - s.lastIncludedIndex - 1 =
        l.nextIndexs peer - 1 - s.lastIncludedIndex := by omega
    have hpos' : l.nextIndexs peer - s'.lastIncludedIndex - 1 =
        l.nextIndexs peer - 1 - s'.lastIncludedIndex := by omega
    rw [h.drop hnext, hpos, hpos', h.me, h.currentTerm, h.commitIndex]
    rcases h.getElem?_cases (Nat.le_sub_one_of_lt hnext) with ⟨-, hget, hget'⟩ | ⟨-, hget⟩
    · rw [hget, hget']
      rfl
    · rw [hget]
      cases s.logs[l.nextIndexs peer - 1 - s.lastIncludedIndex]? <;> rfl
  · rw [h.me, h.currentTerm, h.commitIndex]
    rfl

/-- Related servers have all in common that the result speaks of. -/
lemma sameAbove (h : Compacted k P e s s') : SameAbove k s s' where
  currentTerm := h.currentTerm
  votedFor := h.votedFor
  role := h.role
  commitIndex := h.commitIndex
  lastApplied := h.lastApplied
  applyChan := h.applyChan
  entries _ hi := h.logAt hi
  requests l _ hnext := (h.lead h.role (rfl : some l = _)).buildAppend rfl hnext

/-- `TakeSnapshot` at an index of the log starts the simulation.

**Proof sketch.** Of the cases of `TakeSnapshot` only the one that cuts is left. The log is its part
below `k`, the entry at `k` and the rest, and the new log is the entry without its command and the
rest. -/
lemma takeSnapshot (hlow : s.lastIncludedIndex < k) (hk : k ≤ s.commitIndex)
    (he : s.logAt k = some e) (snapshot : Option Snap) :
    ∃ s', s.takeSnapshot snapshot k = .ok s' () ∧
      Compacted k (s.logs.take (k - s.lastIncludedIndex)) e s s' := by
  obtain ⟨hle, -⟩ | ⟨-, hnone, -⟩ | ⟨e', -, he', htake⟩ := Raft.takeSnapshot_cases s snapshot k
  · omega
  · rw [he] at hnone
    simp at hnone
  · obtain rfl := Option.some.inj (he.symm.trans he')
    have hget : s.logs[k - s.lastIncludedIndex]? = some e := (Raft.logAt_eq_some_iff.mp he).2
    obtain ⟨hlen, hget⟩ := List.getElem?_eq_some_iff.mp hget
    have hdrop : s.logs.drop (k - s.lastIncludedIndex) =
        e :: s.logs.drop (k - s.lastIncludedIndex + 1) := by
      rw [List.drop_eq_getElem_cons hlen, hget]
    refine ⟨_, htake, ?_, ?_, rfl, hk, ⟨s.logs.drop (k - s.lastIncludedIndex + 1), ?_, ?_⟩, rfl,
      rfl, rfl, rfl, rfl, rfl, rfl, rfl⟩
    · rw [Ne, List.take_eq_nil_iff]
      rintro (hzero | hnil)
      · omega
      · simp [hnil] at hlen
    · rw [List.length_take]
      omega
    · rw [← hdrop, List.take_append_drop]
    · show Raft.dropCommand (s.logs.drop (k - s.lastIncludedIndex)) = _
      rw [hdrop]
      rfl

end Compacted

/-- **Compaction is transparent.** Let `k` be a committed index above the last snapshot whose entry
`e` is in the log. `TakeSnapshot(k)` returns, and every sequence of operations that do not reach
below `k` gives the same answers on both servers, apart from `Xindex` (or the same panic), and
leaves them with the same term, vote, role, commit index, messages to the
service, entries above `k` and requests for every next index above `k`.

In a well-shaped state the entry exists for every `k` up to the last index of the log.

**Proof sketch.** `TakeSnapshot` starts a simulation between the two servers, and every operation
above `k` keeps it and gives the same answer (`Compacted.performAll`). -/
theorem compaction_transparent (hlow : s.lastIncludedIndex < k) (hk : k ≤ s.commitIndex)
    (he : s.logAt k = some e) (snapshot : Option Snap) :
    ∃ s', s.takeSnapshot snapshot k = .ok s' () ∧
      ∀ ops : List (Operation n Cmd Snap), (∀ op ∈ ops, op.Above k e.logTerm) →
        (s'.performAll ops).result.map (List.map Answer.hideXindex) =
          (s.performAll ops).result.map (List.map Answer.hideXindex) ∧
        SameAbove k (s.performAll ops).state (s'.performAll ops).state := by
  obtain ⟨s', htake, h⟩ := Compacted.takeSnapshot hlow hk he snapshot
  refine ⟨s', htake, fun ops hops => ?_⟩
  have hall := h.performAll hops
  exact ⟨hall.result, hall.state.sameAbove⟩

/-- A leader of term 1 with its own first entry and two commands, all committed. -/
def twoCommitted : Raft 3 ℕ ℕ :=
  (Raft.make 0 {}).after [.startElection, .becomeLeader, .start 10, .start 20,
    .appendReply 1 ⟨1, 0, some 0, some 0, [⟨1, 1, none, 0, true⟩, ⟨1, 2, some 10, 1, false⟩,
      ⟨1, 3, some 20, 2, false⟩], 0⟩ ⟨1, true, some 0, 0, 0⟩]

/-- One more command; then a leader of term 2 sends an entry behind index 2, and one behind an
entry at index 3 that the server has lost. -/
def afterSnapshot : List (Operation 3 ℕ ℕ) :=
  [.start 30, .requestVote ⟨2, 1, 5, 1⟩,
    .appendEntries ⟨2, 1, some 2, some 1, [⟨2, 3, none, 1, true⟩], 3⟩,
    .appendEntries ⟨2, 1, some 3, some 1, [⟨2, 4, some 40, 2, false⟩], 3⟩]

/-- The last request is rejected by both servers. -/
theorem compaction_transparent_first : ∃ s',
    twoCommitted.takeSnapshot (some 7) 2 = .ok s' () ∧
    (twoCommitted.performAll afterSnapshot).result.map (List.map Answer.hideXindex) =
      .ok [.started (some (3, 1)), .voted ⟨2, true⟩, .appended ⟨2, true, some 0, 0, 0⟩,
        .appended ⟨2, false, some 2, 0, 0⟩] ∧
    (s'.performAll afterSnapshot).result.map (List.map Answer.hideXindex) =
      (twoCommitted.performAll afterSnapshot).result.map (List.map Answer.hideXindex) ∧
    SameAbove 2 (twoCommitted.performAll afterSnapshot).state
      (s'.performAll afterSnapshot).state := by
  have he : twoCommitted.logAt 2 = some ⟨1, 2, some 10, 1, false⟩ := by decide +kernel
  obtain ⟨s', htake, h⟩ :=
    compaction_transparent (by decide +kernel) (by decide +kernel) he (some 7)
  exact ⟨s', htake, by decide +kernel, h afterSnapshot (by simp [afterSnapshot, Operation.Above])⟩

end Mit6824
