import Mit6824.Porcupine.Operations

set_option autoImplicit false

/-!
# Histories of events

`checkEvents` of `checker.go` takes a history as it was recorded, event by event. The numbers of its
operations are arbitrary, so `renumber` gives every operation its place in the order of the calls,
and `convertEntries` takes the place of an event as its time. As long as every operation is called
once and returns once afterwards, the entries are those of a complete history. In contrast to
`checkOperations` nothing is left open: no two events have the same time.

## Main definitions

* `Porcupine.MatchedEvents` — every operation is called once and returns once afterwards.
* `Porcupine.LinearizableEvents` — a history of events is linearizable.
* `Porcupine.History.ofEvents` — the entries of events.
* `Porcupine.checkEvents` — the partitions as `checkParallel` checks them.

## Main results

* `Porcupine.renumber_eq` — `renumber` replaces a number by its place among the numbers.
* `Porcupine.History.ofEvents_linearizable`.
* `Porcupine.checkEvents_correct`.
-/

namespace Porcupine

variable {ι ο σ : Type}

/-- Which event of which operation an event is. -/
def Event.mark (v : Event ι ο) : EventKind × ℤ := (v.kind, v.id)

/-- The place of the call of an operation. -/
def callPlace (events : List (Event ι ο)) (id : ℤ) : ℕ :=
  (events.map Event.mark).idxOf (.callEvent, id)

/-- The place of the return of an operation. -/
def returnPlace (events : List (Event ι ο)) (id : ℤ) : ℕ :=
  (events.map Event.mark).idxOf (.returnEvent, id)

/-- Every operation of the history is called once, with the input `inp`, and returns once
afterwards, with the output `out`. -/
structure MatchedEvents (inp : ℤ → ι) (out : ℤ → ο) (events : List (Event ι ο)) : Prop where
  value : ∀ v ∈ events, v.kind = .callEvent ∧ v.value = .input (inp v.id) ∨
    v.kind = .returnEvent ∧ v.value = .output (out v.id)
  nodup : (events.map Event.mark).Nodup
  returns : ∀ v ∈ events, callPlace events v.id < returnPlace events v.id ∧
    returnPlace events v.id < events.length

/-- The numbers of the operations in the order in which they appear, after those of `seen`. -/
def numbersFrom (seen : List ℤ) : List (Event ι ο) → List ℤ
  | [] => seen
  | v :: events =>
    if v.id ∈ seen then numbersFrom seen events else numbersFrom (seen ++ [v.id]) events

/-- The numbers of the operations in the order in which they appear. -/
def numbers (events : List (Event ι ο)) : List ℤ := numbersFrom [] events

/-- The operations can be put into one order that the object allows and in which no operation stands
before one that returned before it was called. -/
def LinearizableEvents (next : σ → ι × ο → Option σ) (init : σ) (inp : ℤ → ι) (out : ℤ → ο)
    (events : List (Event ι ο)) : Prop :=
  Linearization.Linearizable next (fun id => (inp id, out id))
    (fun i j => returnPlace events i < callPlace events j) init (numbers events)

/-- The entries that `checkEvents` makes of the partitions of a history. -/
def eventEntries (model : FullModel ι ο σ) (history : List (Event ι ο))
    (i : Fin (model.partitionEvent history).length) : List (Entry ι ο) :=
  convertEntries (renumber ((model.partitionEvent history).get i))

/-- The steps of `checkEvents`, which are those of `checkParallel` on these entries. -/
def checkEvents [DecidableEq σ] (model : Model ι ο σ) (history : List (Event ι ο))
    (verbose hasTimeout : Bool) :
    Parallel ι ο σ ((fillDefault model).partitionEvent history).length →
      ParallelEvent ((fillDefault model).partitionEvent history).length →
      Option (Parallel ι ο σ ((fillDefault model).partitionEvent history).length) :=
  Parallel.step (fillDefault model) (eventEntries (fillDefault model) history) verbose hasTimeout

/-! ## Numbers -/

variable {events : List (Event ι ο)} {seen : List ℤ} {id : ℤ}

/-- New numbers come behind those already seen. -/
lemma numbersFrom_eq_append (seen : List ℤ) (events : List (Event ι ο)) :
    ∃ new, numbersFrom seen events = seen ++ new := by
  induction events generalizing seen with
  | nil => exact ⟨[], (List.append_nil seen).symm⟩
  | cons v events ih =>
    rw [numbersFrom]
    split_ifs
    · exact ih seen
    · obtain ⟨new, hnew⟩ := ih (seen ++ [v.id])
      exact ⟨v.id :: new, by rw [hnew, List.append_assoc, List.singleton_append]⟩

/-- The numbers are those seen and those of the events. -/
lemma mem_numbersFrom : id ∈ numbersFrom seen events ↔ id ∈ seen ∨ ∃ v ∈ events, v.id = id := by
  induction events generalizing seen with
  | nil => simp [numbersFrom]
  | cons v events ih =>
    rw [numbersFrom]
    split_ifs with hv
    · rw [ih]
      constructor
      · exact Or.imp_right fun ⟨u, hu, hid⟩ => ⟨u, List.mem_cons_of_mem _ hu, hid⟩
      · rintro (h | ⟨u, hu, rfl⟩)
        · exact Or.inl h
        · rcases List.mem_cons.mp hu with rfl | hu
          · exact Or.inl hv
          · exact Or.inr ⟨u, hu, rfl⟩
    · rw [ih]
      simp [or_assoc, eq_comm]

/-- The numbers of a list of events are the ids of its events. -/
lemma mem_numbers : id ∈ numbers events ↔ ∃ v ∈ events, v.id = id := by
  rw [numbers, mem_numbersFrom]
  simp

/-- No number is given twice. -/
lemma numbersFrom_nodup (hseen : seen.Nodup) : (numbersFrom seen events).Nodup := by
  induction events generalizing seen with
  | nil => exact hseen
  | cons v events ih =>
    rw [numbersFrom]
    split_ifs with hv
    · exact ih hseen
    · exact ih (hseen.append (List.nodup_singleton _) (by simpa using hv))

/-- The ids have different numbers. -/
lemma numbers_nodup (events : List (Event ι ο)) : (numbers events).Nodup :=
  numbersFrom_nodup List.nodup_nil

/-- Renumbering gives every event the place of its number among all numbers, in the order in which
they are seen.

**Proof sketch.** The map of the loop holds the places of the numbers seen so far, and later numbers
are put behind them. -/
lemma renumberFrom_eq (seen : List ℤ) {m : ℤ → Option ℤ}
    (hm : ∀ id, m id = if id ∈ seen then some (seen.idxOf id : ℤ) else none) :
    renumberFrom m seen.length events =
      events.map fun v => { v with id := ((numbersFrom seen events).idxOf v.id : ℤ) } := by
  induction events generalizing seen m with
  | nil => rfl
  | cons v events ih =>
    by_cases hv : v.id ∈ seen
    · have hget : m v.id = some (seen.idxOf v.id : ℤ) := by rw [hm, if_pos hv]
      obtain ⟨new, hnew⟩ := numbersFrom_eq_append seen events
      have hplace : (numbersFrom seen events).idxOf v.id = seen.idxOf v.id := by
        rw [hnew, List.idxOf_append_of_mem hv]
      simp only [renumberFrom, hget, numbersFrom, if_pos hv, List.map_cons, hplace, ih seen hm]
    · have hget : m v.id = none := by rw [hm, if_neg hv]
      obtain ⟨new, hnew⟩ := numbersFrom_eq_append (seen ++ [v.id]) events
      have hplace : (numbersFrom (seen ++ [v.id]) events).idxOf v.id = seen.length := by
        rw [hnew, List.append_assoc, List.idxOf_append_of_notMem hv, List.singleton_append,
          List.idxOf_cons_self, Nat.add_zero]
      have hm' : ∀ id, Function.update m v.id (some (seen.length : ℤ)) id =
          if id ∈ seen ++ [v.id] then some ((seen ++ [v.id]).idxOf id : ℤ) else none := by
        intro id
        by_cases hid : id = v.id
        · subst hid
          rw [Function.update_self, if_pos (by simp), List.idxOf_append_of_notMem hv,
            List.idxOf_cons_self, Nat.add_zero]
        · rw [Function.update_of_ne hid, hm]
          by_cases hmem : id ∈ seen
          · rw [if_pos hmem, if_pos (List.mem_append_left _ hmem), List.idxOf_append_of_mem hmem]
          · rw [if_neg hmem, if_neg (by simp [hmem, hid])]
      have hrest := ih (seen ++ [v.id]) hm'
      rw [List.length_append, List.length_singleton, Nat.cast_add, Nat.cast_one] at hrest
      simp only [renumberFrom, hget, numbersFrom, if_neg hv, List.map_cons, hplace, hrest]

/-- **`renumber` replaces a number by its place** among the numbers of the history. -/
theorem renumber_eq (events : List (Event ι ο)) :
    renumber events = events.map fun v => { v with id := ((numbers events).idxOf v.id : ℤ) } :=
  renumberFrom_eq [] fun _ => by simp

/-! ## The entries of events -/

/-- The kind of the entry that `convertEntries` makes of an event. -/
def EventKind.entryKind (kind : EventKind) : EntryKind :=
  if kind = .returnEvent then .returnEntry else .callEntry

/-- Calls and returns stay apart. -/
lemma EventKind.entryKind_injective : Function.Injective EventKind.entryKind := by
  intro a b h
  cases a <;> cases b <;> simp [EventKind.entryKind] at h ⊢

/-- Every entry comes from an event, with the new number of its id. -/
lemma mem_convertEntries {e : Entry ι ο} (he : e ∈ convertEntries (renumber events)) :
    ∃ v ∈ events, e.kind = v.kind.entryKind ∧ e.value = v.value ∧
      e.id = ((numbers events).idxOf v.id : ℤ) := by
  rw [convertEntries, renumber_eq] at he
  obtain ⟨i, hi, rfl⟩ := List.mem_mapIdx.mp he
  rw [List.length_map] at hi
  refine ⟨events[i], List.getElem_mem hi, ?_⟩
  simp [EventKind.entryKind]

/-- The mark of the entry that is made of an event. -/
def entryMark (events : List (Event ι ο)) (m : EventKind × ℤ) : EntryKind × ℤ :=
  (m.1.entryKind, ((numbers events).idxOf m.2 : ℤ))

/-- The entries have the kinds and numbers of the events, in their order. -/
lemma map_mark_convertEntries (events : List (Event ι ο)) :
    (convertEntries (renumber events)).map Entry.mark =
      (events.map Event.mark).map (entryMark events) := by
  rw [convertEntries, renumber_eq]
  refine List.ext_getElem (by simp) fun i hi hi' => ?_
  simp only [List.getElem_map, List.getElem_mapIdx]
  rfl

/-- Different events have different entries. -/
lemma entryMark_inj {m m' : EventKind × ℤ} (hmem : m'.2 ∈ numbers events)
    (h : entryMark events m = entryMark events m') : m = m' := by
  obtain ⟨hkind, hid⟩ := Prod.mk.inj h
  refine Prod.ext (EventKind.entryKind_injective hkind) ?_
  exact ((List.idxOf_inj hmem).mp (Nat.cast_injective hid).symm).symm

/-- A map that keeps an element apart from the others keeps its place. -/
lemma idxOf_map_of_eq {α β : Type} [BEq α] [LawfulBEq α] [BEq β] [LawfulBEq β] {f : α → β}
    {l : List α} {a : α} (h : ∀ b, f b = f a → b = a) : (l.map f).idxOf (f a) = l.idxOf a := by
  induction l with
  | nil => rfl
  | cons b l ih =>
    by_cases hb : b = a
    · subst hb
      rw [List.map_cons, List.idxOf_cons_self, List.idxOf_cons_self]
    · rw [List.map_cons, List.idxOf_cons_ne _ (fun he => hb (h b he)), List.idxOf_cons_ne _ hb, ih]

/-- An event and the entry that is made of it stand at the same place. -/
lemma idxOf_entryMark {m : EventKind × ℤ} (hm : m.2 ∈ numbers events) :
    ((convertEntries (renumber events)).map Entry.mark).idxOf (entryMark events m) =
      (events.map Event.mark).idxOf m := by
  rw [map_mark_convertEntries]
  exact idxOf_map_of_eq fun _ h => entryMark_inj hm h

/-- The call of an operation keeps its place. -/
lemma callIdx_convertEntries (hid : id ∈ numbers events) :
    callIdx (convertEntries (renumber events)) ((numbers events).idxOf id) =
      callPlace events id :=
  idxOf_entryMark (m := (.callEvent, id)) hid

/-- The return of an operation keeps its place. -/
lemma returnIdx_convertEntries (hid : id ∈ numbers events) :
    returnIdx (convertEntries (renumber events)) ((numbers events).idxOf id) =
      returnPlace events id :=
  idxOf_entryMark (m := (.returnEvent, id)) hid

/-- The number of the operation at a place. -/
def numberAt (events : List (Event ι ο)) (k : ℕ) : ℤ := (numbers events).getD k 0

/-- Every new number is of an id. -/
lemma numberAt_mem {k : ℕ} (hk : k < (numbers events).length) :
    numberAt events k ∈ numbers events := by
  rw [numberAt, List.getD_eq_getElem _ _ hk]
  exact List.getElem_mem hk

/-- From the new number to the id and back. -/
lemma idxOf_numberAt {k : ℕ} (hk : k < (numbers events).length) :
    (numbers events).idxOf (numberAt events k) = k := by
  rw [numberAt, List.getD_eq_getElem _ _ hk]
  exact (numbers_nodup events).idxOf_getElem k hk

/-- From the id to the new number and back. -/
lemma numberAt_idxOf (hid : id ∈ numbers events) :
    numberAt events ((numbers events).idxOf id) = id := by
  have hlt : (numbers events).idxOf id < (numbers events).length := List.idxOf_lt_length_iff.mpr hid
  rw [numberAt, List.getD_eq_getElem _ _ hlt]
  exact List.getElem_idxOf hlt

/-- The new numbers in their order. -/
lemma map_numberAt (events : List (Event ι ο)) :
    (List.range (numbers events).length).map (numberAt events) = numbers events := by
  refine List.ext_getElem (by simp) fun i hi hi' => ?_
  rw [List.getElem_map, List.getElem_range, numberAt, List.getD_eq_getElem _ _ hi']

/-- The order of the operations is that of the events. -/
lemma precedes_convertEntries_iff {i j : ℕ} (hi : i < (numbers events).length)
    (hj : j < (numbers events).length) :
    Precedes (convertEntries (renumber events)) i j ↔
      returnPlace events (numberAt events i) < callPlace events (numberAt events j) := by
  rw [Precedes, ← returnIdx_convertEntries (numberAt_mem hi),
    ← callIdx_convertEntries (numberAt_mem hj), idxOf_numberAt hi, idxOf_numberAt hj]

variable {inp : ℤ → ι} {out : ℤ → ο}

/-- **The entries of events are complete** when every operation is called once and returns once
afterwards.

**Proof sketch.** An entry is made from an event, under the place of its number among the numbers.
Different numbers have different places, so calls and returns stand where they stood among the
events. -/
theorem convertEntries_complete (h : MatchedEvents inp out events) :
    Complete (numbers events).length (fun k => inp (numberAt events k))
      (fun k => out (numberAt events k)) (convertEntries (renumber events)) where
  entry e he := by
    obtain ⟨v, hv, hkind, hvalue, hid⟩ := mem_convertEntries he
    have hmem : v.id ∈ numbers events := mem_numbers.mpr ⟨v, hv, rfl⟩
    refine ⟨(numbers events).idxOf v.id, List.idxOf_lt_length_iff.mpr hmem, hid, ?_⟩
    rw [numberAt_idxOf hmem, hkind, hvalue]
    rcases h.value v hv with ⟨hcall, hinput⟩ | ⟨hreturn, houtput⟩
    · exact Or.inl ⟨by rw [hcall]; rfl, hinput⟩
    · exact Or.inr ⟨by rw [hreturn]; rfl, houtput⟩
  nodup := by
    rw [map_mark_convertEntries]
    refine h.nodup.map_on fun m _ m' hm' hmark => entryMark_inj ?_ hmark
    obtain ⟨v, hv, rfl⟩ := List.mem_map.mp hm'
    exact mem_numbers.mpr ⟨v, hv, rfl⟩
  matched k hk := by
    have hmem := numberAt_mem hk
    obtain ⟨v, hv, hid⟩ := mem_numbers.mp hmem
    have hcall := callIdx_convertEntries hmem
    have hreturn := returnIdx_convertEntries hmem
    rw [idxOf_numberAt hk] at hcall hreturn
    have hlength : (convertEntries (renumber events)).length = events.length := by
      rw [convertEntries, List.length_mapIdx, renumber_eq, List.length_map]
    rw [hcall, hreturn, hlength, ← hid]
    exact h.returns v hv

namespace History

/-- The complete history of events. -/
def ofEvents (events : List (Event ι ο)) (h : MatchedEvents inp out events) : History ι ο where
  entries := convertEntries (renumber events)
  count := (numbers events).length
  inp k := inp (numberAt events k)
  out k := out (numberAt events k)
  complete := convertEntries_complete h

/-- What is checked of a history of events is that it is linearizable. -/
theorem ofEvents_linearizable (model : FullModel ι ο σ) (h : MatchedEvents inp out events) :
    (ofEvents events h).Linearizable model ↔
      LinearizableEvents model.next model.init inp out events := by
  rw [LinearizableEvents, ← map_numberAt events, Linearization.linearizable_map]
  constructor
  · refine fun hlin => Linearization.Linearizable.mono hlin fun i hi j hj hb => ?_
    exact (precedes_convertEntries_iff (List.mem_range.mp hi) (List.mem_range.mp hj)).mpr hb
  · refine fun hlin => Linearization.Linearizable.mono hlin fun i hi j hj hb => ?_
    exact (precedes_convertEntries_iff (List.mem_range.mp hi) (List.mem_range.mp hj)).mp hb

end History

section Verdict

variable [DecidableEq σ] {model : Model ι ο σ} {history : List (Event ι ο)}
variable {verbose hasTimeout : Bool}

/-- The complete histories of the partitions. -/
def eventHistories
    (hmatched : ∀ part ∈ (fillDefault model).partitionEvent history, MatchedEvents inp out part)
    (i : Fin ((fillDefault model).partitionEvent history).length) : History ι ο :=
  History.ofEvents (((fillDefault model).partitionEvent history).get i)
    (hmatched _ (List.get_mem _ i))

/-- **The verdict of `checkEvents` can be trusted under every schedule**, whatever numbers the
operations have: `Ok` is returned only when every partition of the history is linearizable, and
`Illegal` only when some partition is not.

**Proof sketch.** The events of a partition are a history, under new numbers. The answers of the
goroutines are sound in every state of a schedule, and linearizability does not depend on the
numbers. -/
theorem checkEvents_correct (heq : (fillDefault model).EqualSound)
    (hmatched : ∀ part ∈ (fillDefault model).partitionEvent history, MatchedEvents inp out part)
    {evs : List (ParallelEvent ((fillDefault model).partitionEvent history).length)}
    {p : Parallel ι ο σ ((fillDefault model).partitionEvent history).length}
    (h : Transition.follow (checkEvents model history verbose hasTimeout) (Parallel.start ι ο σ _)
      evs = some p) :
    (p.result = some .ok → ∀ part ∈ (fillDefault model).partitionEvent history,
        LinearizableEvents (fillDefault model).next model.init inp out part) ∧
      (p.result = some .illegal → ∃ part ∈ (fillDefault model).partitionEvent history,
        ¬ LinearizableEvents (fillDefault model).next model.init inp out part) := by
  have hsound : Parallel.Sound (fillDefault model) (eventHistories hmatched) verbose p :=
    Parallel.Sound.of_follow heq h
  constructor
  · intro hok part hpart
    obtain ⟨i, rfl⟩ := List.get_of_mem hpart
    exact (History.ofEvents_linearizable (fillDefault model) _).mp (hsound.of_result_ok hok i)
  · intro hbad
    obtain ⟨i, hi⟩ := hsound.of_result_illegal hbad
    exact ⟨_, List.get_mem _ i,
      fun hlin => hi ((History.ofEvents_linearizable (fillDefault model) _).mpr hlin)⟩

end Verdict

/-- A write of 1 and, at the same time, a read that returns `output`. -/
def writeAndRead (output : ℕ) : List (Event (Option ℕ) ℕ) :=
  [⟨0, .callEvent, .input (some 1), 7⟩, ⟨1, .callEvent, .input none, 3⟩,
    ⟨1, .returnEvent, .output output, 3⟩, ⟨0, .returnEvent, .output 0, 7⟩]

/-- The inputs of the two operations. -/
def writeAndReadInput (id : ℤ) : Option ℕ := if id = 7 then some 1 else none

/-- The outputs of the two operations. -/
def writeAndReadOutput (output : ℕ) (id : ℤ) : ℕ := if id = 7 then 0 else output

/-- Every call of the write and the read has its return. -/
lemma writeAndRead_matched (output : ℕ) :
    ∀ part ∈ (fillDefault registerModel).partitionEvent (writeAndRead output),
      MatchedEvents writeAndReadInput (writeAndReadOutput output) part := by
  intro part hpart
  obtain rfl := List.mem_singleton.mp hpart
  refine ⟨by simp [writeAndRead, writeAndReadInput, writeAndReadOutput],
    by simp [writeAndRead, Event.mark], ?_⟩
  simp only [writeAndRead, callPlace, returnPlace, List.map_cons, List.map_nil, Event.mark,
    List.forall_mem_cons, List.length_cons, List.length_nil]
  decide

/-- The read may return what is being written at the same time, but not another value. -/
theorem checkEvents_correct_writeAndRead :
    LinearizableEvents (fillDefault registerModel).next 0 writeAndReadInput
        (writeAndReadOutput 1) (writeAndRead 1) ∧
      ¬ LinearizableEvents (fillDefault registerModel).next 0 writeAndReadInput
        (writeAndReadOutput 2) (writeAndRead 2) := by
  have hok : (Transition.follow (checkEvents registerModel (writeAndRead 1) false false)
      (Parallel.start (Option ℕ) ℕ ℕ _)
      (List.replicate 6 (.routine ⟨0, Nat.one_pos⟩) ++ [.receive])).bind Parallel.result =
        some .ok := by
    decide +kernel
  have hbad : (Transition.follow (checkEvents registerModel (writeAndRead 2) false false)
      (Parallel.start (Option ℕ) ℕ ℕ _)
      (List.replicate 8 (.routine ⟨0, Nat.one_pos⟩) ++ [.receive])).bind Parallel.result =
        some .illegal := by
    decide +kernel
  obtain ⟨p, hp, hresult⟩ := Option.bind_eq_some_iff.mp hok
  obtain ⟨q, hq, hresult'⟩ := Option.bind_eq_some_iff.mp hbad
  constructor
  · exact (checkEvents_correct (fillDefault_equalSound rfl) (writeAndRead_matched 1) hp).1 hresult
      _ (List.mem_singleton.mpr rfl)
  · obtain ⟨part, hpart, hnot⟩ := (checkEvents_correct (fillDefault_equalSound rfl)
      (writeAndRead_matched 2) hq).2 hresult'
    obtain rfl := List.mem_singleton.mp hpart
    exact hnot

end Porcupine
