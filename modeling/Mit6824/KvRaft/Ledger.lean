import Mit6824.KvRaft.ExactlyOnce
import Mit6824.KvRaft.Replica

set_option autoImplicit false

/-!
# The clerks and the committed log

What Raft promises about `Start` and the committed log, and what the clerks do, together make
the log a sequence of sequential clerks: every operation in it comes from exactly one call, and
a clerk's next operation enters only after the one before it.

## Main definitions

* `Mit6824.KvRaft.opsOf` — the operations of the log.
* `Mit6824.KvRaft.Own` — the entry at an index is the operation of this very call.
* `Mit6824.KvRaft.AppliedAt` — the entry at an index is this write, and it is applied there.
* `Mit6824.KvRaft.Service.Ledger` — the invariant of the clerks, the calls and the log.

## Main results

* `Mit6824.KvRaft.exists_appliedAt` — a committed operation has been applied.
* `Mit6824.KvRaft.Service.Ledger.sequential_concat` — an operation that was asked for continues
  the sequence of the log.
-/

namespace Mit6824

namespace KvRaft

open LogMachine

/-! ## The operations of the log -/

/-- The operations in the log, in order. -/
def opsOf (log : List (LogEntry Op)) : List Op :=
  log.filterMap fun entry => if entry.isInternalLog then none else entry.command

variable {log log' : List (LogEntry Op)}

/-- The operations of a log, in two parts. -/
lemma opsOf_append (log log' : List (LogEntry Op)) :
    opsOf (log ++ log') = opsOf log ++ opsOf log' := List.filterMap_append

/-- A longer log has more operations, behind those it had. -/
lemma opsOf_extend (h : log <+: log') : opsOf log <+: opsOf log' := by
  obtain ⟨rest, rfl⟩ := h
  rw [opsOf_append]
  exact List.prefix_append _ _

/-- The state at an index is what the operations up to it make of new maps. -/
lemma stateAt_eq_applyAll (log : List (LogEntry Op)) (i : ℕ) :
    stateAt log i = applyAll (opsOf (log.take (i + 1))) := by
  have hfold : ∀ log : List (LogEntry Op),
      log.foldl KVState.applyEntry .empty = applyAll (opsOf log) := by
    intro log
    induction log using List.reverseRecOn with
    | nil => rfl
    | append_singleton log entry ih =>
      rw [List.foldl_append, List.foldl_cons, List.foldl_nil, ih, opsOf_append]
      unfold KVState.applyEntry
      split_ifs with hint
      · simp [opsOf, hint]
      · cases hcmd : entry.command with
        | none => simp [opsOf, hint, hcmd]
        | some op => simp [opsOf, hint, hcmd, applyAll]
  exact hfold _

/-- The entry of this index is a client's operation. -/
structure Visible (log : List (LogEntry Op)) (i : ℕ) (entry : LogEntry Op) (op : Op) : Prop where
  get : log[i]? = some entry
  visible : entry.isInternalLog = false
  command : entry.command = some op

/-- An operation stays in its place in a longer log. -/
lemma Visible.extend {i : ℕ} {entry : LogEntry Op} {op : Op} (h : Visible log i entry op)
    (hlog : log <+: log') : Visible log' i entry op := by
  refine ⟨?_, h.visible, h.command⟩
  rw [getElem?_extend hlog (List.getElem?_eq_some_iff.mp h.get).1, h.get]

/-- The sentinel is no operation. -/
lemma Rooted.pos_of_visible {i : ℕ} {entry : LogEntry Op} {op : Op} (h : Rooted log)
    (hvis : Visible log i entry op) : 0 < i := by
  rcases Nat.eq_zero_or_pos i with rfl | hpos
  · have hget := hvis.get
    rw [getElem?_extend h (by decide)] at hget
    obtain rfl : Raft.dummyLog 0 0 0 = entry := by simpa using hget
    simpa [Raft.dummyLog] using hvis.visible
  · exact hpos

/-- The operations of a log are those at its indexes. -/
lemma mem_opsOf_iff {op : Op} : op ∈ opsOf log ↔ ∃ i entry, Visible log i entry op := by
  unfold opsOf
  rw [List.mem_filterMap]
  constructor
  · rintro ⟨entry, hmem, hop⟩
    obtain ⟨i, hi⟩ := List.getElem?_of_mem hmem
    split_ifs at hop with hint
    exact ⟨i, entry, hi, by simpa using hint, hop⟩
  · rintro ⟨i, entry, hget, hvis, hcmd⟩
    exact ⟨entry, List.mem_of_getElem? hget, by simp [hvis, hcmd]⟩

/-- The entry at index `p` is the operation of this very call: its request, at the command index
and in the term that `Start` returned to the call. -/
def Own (log : List (LogEntry Op)) (op : Op) (p : ℕ) : Prop :=
  ∃ entry op', Visible log p entry op' ∧ op'.request = op.request ∧
    op.AcceptedAt entry.commandIndex entry.logTerm

/-- The entry of a call stays its own in a longer log. -/
lemma Own.extend {op : Op} {p : ℕ} (h : Own log op p) (hlog : log <+: log') : Own log' op p := by
  obtain ⟨entry, op', hvis, hreq⟩ := h
  exact ⟨entry, op', hvis.extend hlog, hreq⟩

/-- The entry of a call is in the log. -/
lemma Own.lt {op : Op} {p : ℕ} (h : Own log op p) : p < log.length := by
  obtain ⟨entry, op', hvis, -⟩ := h
  exact (List.getElem?_eq_some_iff.mp hvis.get).1

/-- The state before an entry is the same in a longer log. -/
lemma stateAt_pred_extend {p : ℕ} (hp : p < log.length) (hlog : log <+: log') :
    stateAt log' (p - 1) = stateAt log (p - 1) :=
  Machine.stateAt_extend hlog (by omega)

namespace ComesFrom

variable {ops : List Op} {entry : LogEntry Op} {k : ℕ} {op op' : Op}

/-- A request that `Start` has not seen yet is accepted nowhere. -/
lemma not_acceptedAt (hbare : op.request = op) (cmdIndex term : ℕ) :
    ¬ op.AcceptedAt cmdIndex term := by
  rintro ⟨-, hterm, hpos⟩
  have hzero : op.term = 0 := by
    rw [← hbare]
    rfl
  omega

/-- A new call is not accepted anywhere, so that entries come from the old ones. -/
lemma concat (h : ComesFrom ops entry k) (hbare : op.request = op) :
    ComesFrom (ops ++ [op]) entry k := by
  obtain ⟨⟨own, hown, hacc⟩, honly⟩ := h
  refine ⟨⟨own, ?_, hacc⟩, ?_⟩
  · rwa [List.getElem?_append_left (List.getElem?_eq_some_iff.mp hown).1]
  · rintro k' hk' ⟨o, ho, hacc'⟩
    rw [List.length_append, List.length_singleton] at hk'
    rcases Nat.lt_or_ge k' ops.length with hlt | hge
    · rw [List.getElem?_append_left hlt] at ho
      exact honly k' hlt ⟨o, ho, hacc'⟩
    · obtain rfl : k' = ops.length := by omega
      obtain rfl : op = o := by simpa using ho
      exact absurd hacc' (not_acceptedAt hbare _ _)

/-- A call that is not accepted at the entry may change.

**Proof sketch.** The call of the entry has been accepted and the changed one had not, so they are
different. The changed one is not accepted at the entry, so the call of the entry is still the only
one. -/
lemma set {j : ℕ} (h : ComesFrom ops entry k) (hop : ops[j]? = some op) (hbare : op.request = op)
    (hfree : ¬ op'.AcceptedAt entry.commandIndex entry.logTerm) :
    ComesFrom (ops.set j op') entry k := by
  obtain ⟨⟨own, hown, hacc, hreq⟩, honly⟩ := h
  have hkj : j ≠ k := by
    rintro rfl
    obtain rfl : op = own := Option.some.inj (hop.symm.trans hown)
    exact not_acceptedAt hbare _ _ hacc
  refine ⟨⟨own, ?_, hacc, hreq⟩, ?_⟩
  · rwa [List.getElem?_set_ne hkj]
  · rintro k' hk' ⟨o, ho, hacc'⟩
    rw [List.length_set] at hk'
    by_cases hj : j = k'
    · subst hj
      rw [List.getElem?_set_self hk'] at ho
      obtain rfl : op' = o := Option.some.inj ho
      exact absurd hacc' hfree
    · rw [List.getElem?_set_ne hj] at ho
      exact honly k' hk' ⟨o, ho, hacc'⟩

end ComesFrom

/-! ## The clerks and the log -/

namespace Service

variable {n : ℕ} {σ σ' : Service n}

/-- The invariant of the clerks, their requests, the calls and the log: requests are numbered by
their clerks, every committed operation comes from one call, and what a clerk has been
acknowledged is in the log. -/
structure Ledger (σ : Service n) : Prop where
  seq_nonneg : ∀ client, 0 ≤ (σ.clerks client).seqId
  bare : ∀ op ∈ σ.requests, op.request = op
  numbered : ∀ op ∈ σ.requests, 1 ≤ op.seqId ∧ op.seqId ≤ (σ.clerks op.clientId).seqId
  unique : ∀ op ∈ σ.requests, ∀ op' ∈ σ.requests, op.tag = op'.tag → op = op'
  pending : ∀ client, ∀ op ∈ (σ.clerks client).pending,
    op.clientId = client ∧ op.seqId = (σ.clerks client).seqId
  asked : ∀ op ∈ σ.ops, op.request ∈ σ.requests
  origin : ∀ e ∈ σ.log, e.isInternalLog = false → ∃ k, ComesFrom σ.ops e k
  increasing : ∀ (i j : ℕ) (e e' : LogEntry Op), i < j → σ.log[i]? = some e →
    σ.log[j]? = some e' → e.isInternalLog = false → e'.isInternalLog = false →
    e.commandIndex < e'.commandIndex
  sequential : Sequential (opsOf σ.log)
  settled : ∀ client s, 1 ≤ s → s ≤ (σ.clerks client).seqId →
    (s = (σ.clerks client).seqId → (σ.clerks client).pending = none) →
    (client, s) ∈ (opsOf σ.log).map Op.tag

namespace Ledger

/-- The ledger of a new service. -/
lemma init : (Service.init : Service n).Ledger where
  seq_nonneg _ := le_rfl
  bare := by simp [Service.init]
  numbered := by simp [Service.init]
  unique := by simp [Service.init]
  pending := by simp [Service.init]
  asked := by simp [Service.init, Service.ops]
  origin := by simp [Service.init, Raft.dummyLog]
  increasing := by
    intro i j e e' hij _ hj
    have := (List.getElem?_eq_some_iff.mp hj).1
    simp only [Service.init, List.length_singleton] at this
    omega
  sequential := .nil
  settled := by
    intro client s h1 hs
    simp only [Service.init] at hs
    omega

/-- Every committed operation was requested. -/
lemma request_mem (h : σ.Ledger) {op : Op} (hop : op ∈ opsOf σ.log) : op.request ∈ σ.requests := by
  obtain ⟨i, e, hvis⟩ := mem_opsOf_iff.mp hop
  obtain ⟨k, ⟨op', hop', -, hreq⟩, -⟩ := h.origin e (List.mem_of_getElem? hvis.get) hvis.visible
  have hsame : op.request = op'.request := by simpa [hvis.command] using hreq
  rw [hsame]
  exact h.asked op' (List.mem_of_getElem? hop')

/-- Committed operations with one tag are the same request. -/
lemma request_unique (h : σ.Ledger) {op op' : Op} (hop : op.request ∈ σ.requests)
    (hop' : op'.request ∈ σ.requests) (htag : op.tag = op'.tag) : op.request = op'.request :=
  h.unique _ hop _ hop' htag

/-- A requested operation continues the sequence of the log: it is in the log already, or the
one before it is. -/
lemma sequential_concat (h : σ.Ledger) {op : Op} (hop : op.request ∈ σ.requests) :
    Sequential (opsOf σ.log ++ [op]) := by
  by_cases hmem : op.tag ∈ (opsOf σ.log).map Op.tag
  · obtain ⟨op', hop', htag⟩ := List.mem_map.mp hmem
    exact h.sequential.again hop' (h.request_unique hop (h.request_mem hop') htag.symm)
  · refine h.sequential.issue hmem ?_
    obtain ⟨hone, hle⟩ : 1 ≤ op.seqId ∧ op.seqId ≤ (σ.clerks op.clientId).seqId :=
      h.numbered op.request hop
    rcases eq_or_lt_of_le hone with heq | hlt
    · exact .inl heq.symm
    · exact .inr (h.settled op.clientId (op.seqId - 1) (by omega) (by omega) (by omega))

/-- The log grows.

**Proof sketch.** A new operation comes from one call, and that call from a request. Its command
index is larger than all before it, and its request keeps the list of committed operations
sequential. -/
lemma commit (h : σ.Ledger) {entry : LogEntry Op}
    (hcmd : entry.isInternalLog = true ∨ entry.command.isSome)
    (hass : σ.Assumed (.commit entry)) :
    Ledger { σ with log := σ.log ++ [{ entry with logIndex := σ.log.length }] } := by
  -- what holds of the new entry when it is an operation
  have hnew : entry.isInternalLog = false → (∃ k, ComesFrom σ.ops entry k) ∧
      (∀ e ∈ σ.log, e.isInternalLog = false → e.commandIndex < entry.commandIndex) ∧
      ∃ op, entry.command = some op ∧ op.request ∈ σ.requests := by
    intro hvis
    obtain ⟨⟨k, -, hfrom⟩, hlt⟩ := hass.resolve_left (by simp [hvis])
    obtain ⟨op, hop⟩ := Option.isSome_iff_exists.mp (hcmd.resolve_left (by simp [hvis]))
    refine ⟨⟨k, hfrom⟩, hlt, op, hop, ?_⟩
    obtain ⟨⟨op', hop', -, hreq⟩, -⟩ := hfrom
    have hsame : op.request = op'.request := by simpa [hop] using hreq
    rw [hsame]
    exact h.asked op' (List.mem_of_getElem? hop')
  refine ⟨h.seq_nonneg, h.bare, h.numbered, h.unique, h.pending, h.asked, ?_, ?_, ?_, ?_⟩
  · intro e he hvis
    rcases List.mem_append.mp he with he | he
    · exact h.origin e he hvis
    · obtain rfl : e = { entry with logIndex := σ.log.length } := by simpa using he
      exact (hnew hvis).1
  · intro i j e e' hij hi hj hvis hvis'
    have hjlt := (List.getElem?_eq_some_iff.mp hj).1
    rw [List.length_append, List.length_singleton] at hjlt
    rw [List.getElem?_append_left (by omega)] at hi
    rcases Nat.lt_or_ge j σ.log.length with hjl | hjl
    · rw [List.getElem?_append_left hjl] at hj
      exact h.increasing i j e e' hij hi hj hvis hvis'
    · obtain rfl : j = σ.log.length := by omega
      obtain rfl : { entry with logIndex := σ.log.length } = e' := by simpa using hj
      exact (hnew hvis').2.1 e (List.mem_of_getElem? hi) hvis
  · rw [opsOf_append]
    cases hint : entry.isInternalLog with
    | true =>
      simpa [opsOf, hint] using h.sequential
    | false =>
      obtain ⟨op, hop, hreq⟩ := (hnew hint).2.2
      simpa [opsOf, hint, hop] using h.sequential_concat hreq
  · intro client s hone hle hpend
    rw [opsOf_append, List.map_append]
    exact List.mem_append_left _ (h.settled client s hone hle hpend)

/-- A clerk without a pending operation issues its next one.

**Proof sketch.** The new number is one above the clerk's, so no request has it yet. All smaller
numbers of the clerk are settled, because nothing was pending. -/
lemma issue (h : σ.Ledger) {op : Op} (hfree : (σ.clerks op.clientId).pending = none)
    (hbare : op.request = op) (hseq : op.seqId = (σ.clerks op.clientId).seqId + 1) :
    Ledger { σ with
      requests := σ.requests ++ [op]
      clerks := Function.update σ.clerks op.clientId ⟨op.seqId, some op⟩ } := by
  have hmono : ∀ client, (σ.clerks client).seqId ≤
      (Function.update σ.clerks op.clientId ⟨op.seqId, some op⟩ client).seqId := by
    intro client
    rw [Function.update_apply]
    split_ifs with hc
    · subst hc
      simp only
      omega
    · exact le_rfl
  have hnew : ∀ op' ∈ σ.requests, op'.tag ≠ op.tag := by
    intro op' hop' htag
    obtain ⟨hc, hs⟩ := Prod.mk.inj htag
    have := (h.numbered op' hop').2
    rw [hc] at this
    omega
  have hsplit : ∀ op' ∈ σ.requests ++ [op], op' ∈ σ.requests ∨ op' = op := by simp
  have hzero := h.seq_nonneg op.clientId
  refine ⟨fun client => (h.seq_nonneg client).trans (hmono client), ?_, ?_, ?_, ?_, ?_, h.origin,
    h.increasing, h.sequential, ?_⟩
  · intro op' hop'
    rcases hsplit op' hop' with hold | rfl
    · exact h.bare op' hold
    · exact hbare
  · intro op' hop'
    rcases hsplit op' hop' with hold | rfl
    · exact ⟨(h.numbered op' hold).1, (h.numbered op' hold).2.trans (hmono _)⟩
    · simp only [Function.update_self]
      omega
  · intro op₁ h₁ op₂ h₂ htag
    rcases hsplit op₁ h₁ with hold₁ | rfl
    · rcases hsplit op₂ h₂ with hold₂ | rfl
      · exact h.unique op₁ hold₁ op₂ hold₂ htag
      · exact absurd htag (hnew op₁ hold₁)
    · rcases hsplit op₂ h₂ with hold₂ | rfl
      · exact absurd htag.symm (hnew op₂ hold₂)
      · rfl
  · intro client op' hop'
    by_cases hc : client = op.clientId
    · subst hc
      simp only [Function.update_self, Option.mem_def, Option.some.injEq] at hop' ⊢
      subst hop'
      exact ⟨rfl, rfl⟩
    · simp only [Function.update_of_ne hc] at hop' ⊢
      exact h.pending client op' hop'
  · exact fun op' hop' => List.mem_append_left _ (h.asked op' hop')
  · intro client s hone hle hpend
    by_cases hc : client = op.clientId
    · subst hc
      simp only [Function.update_self] at hle hpend
      have hlt : s ≠ op.seqId := fun hs => by simpa using hpend hs
      exact h.settled _ s hone (by omega) fun _ => hfree
    · simp only [Function.update_of_ne hc] at hle hpend
      exact h.settled client s hone hle hpend

/-- The calls change, and every committed entry still comes from one of them. -/
lemma setOps (h : σ.Ledger) (hlog : σ'.log = σ.log) (hreq : σ'.requests = σ.requests)
    (hclerks : σ'.clerks = σ.clerks) (hasked : ∀ op ∈ σ'.ops, op.request ∈ σ.requests)
    (hfrom : ∀ e ∈ σ.log, e.isInternalLog = false → ∀ k, ComesFrom σ.ops e k →
      ComesFrom σ'.ops e k) : σ'.Ledger where
  seq_nonneg := hclerks ▸ h.seq_nonneg
  bare := hreq ▸ h.bare
  numbered := by
    rw [hreq, hclerks]
    exact h.numbered
  unique := hreq ▸ h.unique
  pending := hclerks ▸ h.pending
  asked := hreq ▸ hasked
  origin := by
    rw [hlog]
    intro e he hvis
    obtain ⟨k, hk⟩ := h.origin e he hvis
    exact ⟨k, hfrom e he hvis k hk⟩
  increasing := hlog ▸ h.increasing
  sequential := hlog ▸ h.sequential
  settled := by
    rw [hlog, hclerks]
    exact h.settled

/-- Only the log, the requests, the clerks and the operations of the calls count. -/
lemma congr (h : σ.Ledger) (hlog : σ'.log = σ.log) (hreq : σ'.requests = σ.requests)
    (hclerks : σ'.clerks = σ.clerks) (hops : σ'.ops = σ.ops) : σ'.Ledger :=
  h.setOps hlog hreq hclerks (hops ▸ h.asked) fun _ _ _ _ hfrom => hops ▸ hfrom

/-- A request arrives. -/
lemma receive (h : σ.Ledger) {op : Op} (hop : op ∈ σ.requests) (hlog : σ'.log = σ.log)
    (hreq : σ'.requests = σ.requests) (hclerks : σ'.clerks = σ.clerks)
    (hops : σ'.ops = σ.ops ++ [op]) : σ'.Ledger := by
  refine h.setOps hlog hreq hclerks ?_ ?_
  · intro op' hop'
    rw [hops, List.mem_append, List.mem_singleton] at hop'
    rcases hop' with hop' | rfl
    · exact h.asked op' hop'
    · rwa [h.bare op' hop]
  · intro e _ _ k hfrom
    rw [hops]
    exact hfrom.concat (h.bare op hop)

/-- `Start` returns to a call; what it returns is not the place of a committed entry. -/
lemma start (h : σ.Ledger) {k : ℕ} {op op' : Op} (hop : σ.ops[k]? = some op)
    (hbare : op.request = op) (hsame : op'.request = op.request)
    (hfree : ∀ e ∈ σ.log, e.isInternalLog = false → ¬ op'.AcceptedAt e.commandIndex e.logTerm)
    (hlog : σ'.log = σ.log) (hreq : σ'.requests = σ.requests) (hclerks : σ'.clerks = σ.clerks)
    (hops : σ'.ops = σ.ops.set k op') : σ'.Ledger := by
  refine h.setOps hlog hreq hclerks ?_ ?_
  · intro o ho
    rw [hops] at ho
    rcases List.mem_or_eq_of_mem_set ho with ho | rfl
    · exact h.asked o ho
    · rw [hsame]
      exact h.asked op (List.mem_of_getElem? hop)
  · intro e he hvis k' hfrom
    rw [hops]
    exact hfrom.set hop hbare (hfree e he hvis)

/-- A clerk is answered; its operation is in the log.

**Proof sketch.** The clerk's present number is the one that is in the log; its smaller numbers were
settled before. -/
lemma acknowledge (h : σ.Ledger) {client : ℤ}
    (hmem : (client, (σ.clerks client).seqId) ∈ (opsOf σ.log).map Op.tag) :
    Ledger { σ with
      clerks := Function.update σ.clerks client ⟨(σ.clerks client).seqId, none⟩ } := by
  have hseq : ∀ c, (Function.update σ.clerks client ⟨(σ.clerks client).seqId, none⟩ c).seqId =
      (σ.clerks c).seqId := by
    intro c
    rw [Function.update_apply]
    split_ifs with hc
    · rw [hc]
    · rfl
  refine ⟨fun c => (hseq c).symm ▸ h.seq_nonneg c, h.bare, fun op hop => ?_, h.unique, ?_, h.asked,
    h.origin, h.increasing, h.sequential, ?_⟩
  · rw [hseq]
    exact h.numbered op hop
  · intro c op hop
    by_cases hc : c = client
    · subst hc
      simp at hop
    · simp only [Function.update_of_ne hc] at hop ⊢
      exact h.pending c op hop
  · intro c s hone hle hpend
    rw [hseq] at hle hpend
    by_cases hc : c = client
    · subst hc
      rcases eq_or_lt_of_le hle with rfl | hlt
      · exact hmem
      · exact h.settled c s hone hle fun hs => absurd hs hlt.ne
    · simp only [Function.update_of_ne hc] at hpend
      exact h.settled c s hone hle hpend

end Ledger

end Service

end KvRaft

end Mit6824
