import Mit6824.Porcupine.Explore

set_option autoImplicit false

/-!
# The search decides linearizability

For a complete history, and as long as nobody sets `kill`, `checkSingle` ends after a bounded number
of iterations, without a panic, and its answer is whether the history is linearizable. The sequences
it returns are linearizations of the whole history, or the longest beginnings of linearizations that
contain the operation they are kept for.

## Main definitions

* `Porcupine.Layout.Linearizable` — the history in memory is linearizable.
* `Porcupine.Layout.Correct` — what a final answer means.

## Main results

* `Porcupine.Layout.Inv.correct` — the answer of an iteration that ends the search.
* `Porcupine.Layout.Inv.run_done` — the search ends.
-/

namespace Porcupine

variable {ι ο σ : Type}

open Linearization (Partial Indist Linearizes)

namespace Layout

variable (L : Layout ι ο) (model : FullModel ι ο σ)

/-- The operations in memory can be linearized. -/
def Linearizable : Prop :=
  Linearization.Linearizable model.next L.op L.Before model.init (List.range L.count)

/-- A beginning of a linearization of the operations in memory. -/
def Beginning (l : List ℕ) : Prop :=
  ∃ t, Partial model.next L.op L.Before model.init (List.range L.count) l t

/-- The sequence kept for operation `i` is a longest beginning of a linearization that has `i`;
there is none when no beginning has `i`. -/
structure Longest (s : Search ι ο σ) (i : ℕ) : Prop where
  sound : ∀ p : ℕ, s.longest[i]? = some (some p) → ∃ l,
    s.seqs[p]? = some (l.map fun k : ℕ => (k : ℤ)) ∧ i ∈ l ∧ L.Beginning model l
  maximal : ∀ l, L.Beginning model l → i ∈ l → AtLeast s.seqs s.longest i l.length

/-- What the answer `ok` of the search means. -/
structure Correct (computePartial ok : Bool) (s : Search ι ο σ) : Prop where
  answer : ok = true ↔ L.Linearizable model
  slots : Slots L.count s.seqs s.longest
  longest : ok = true ∨ computePartial = true → ∀ i < L.count, L.Longest model s i

variable {L model} {computePartial : Bool} {s : Search ι ο σ} {path : List (ℕ × σ)}

/-- The invariant holds before the loop. -/
theorem Inv.start : L.Inv model computePartial (L.search model) [] where
  head := rfl
  trail := .nil
  calls := rfl
  bits := Bitset.represents_newBitset L.count
  slots := ⟨by simp [search], fun i p hp => by simp [search, List.getElem?_replicate] at hp⟩
  sound i p hp := by simp [search, List.getElem?_replicate] at hp
  entry hne := by
    have hnil : L.Trail model [] model.init L.heap := .nil
    have hlinked : Trail.Linked L [] L.heap := hnil.linked
    obtain ⟨a, -, ha, hscan⟩ := Scan.first hlinked (by simp) hne
    refine ⟨a, ?_, hscan⟩
    have : (L.heap.node L.size).next = (L.live []).head? := hlinked.chain.next_eq
    rw [live_nil] at this
    exact this.symm.trans ha
  frames q x r h := by simp at h
  visited S t h := by
    rcases h with ⟨rfl, rfl⟩ | ⟨-, b, -, hmem⟩
    · exact .inl (.inl ⟨rfl, rfl⟩)
    · simp [search] at hmem

/-- When nothing is left in the list, the operations taken are a linearization. -/
lemma Inv.linearizes (hI : L.Inv model computePartial s path)
    (hlive : L.live (path.map Prod.fst) = []) :
    Linearizes model.next L.op L.Before model.init (List.range L.count) (path.map Prod.fst) := by
  have hpart := hI.trail.toPartial
  have hall : ∀ k < L.count, k ∈ path.map Prod.fst := by
    intro k hk
    by_contra hkp
    have := callAt_mem_live hk hkp hI.trail.lt_count
    simp [hlive] at this
  refine (Linearization.linearizes_iff_beginning ?_ List.nodup_range).mpr ⟨?_, _, hpart⟩
  · exact fun k hk => not_before_self (List.mem_range.mp hk)
  · refine (List.perm_ext_iff_of_nodup hpart.nodup List.nodup_range).mpr fun k => ?_
    exact ⟨hpart.subset k, fun hk => hall k (List.mem_range.mp hk)⟩

/-- When the search has come back to its beginning, every beginning of a linearization has been
visited, and all of them but the empty one are finished.

**Proof sketch.** The visited pairs of a set and a state are closed under the next operations, up to
states that `equal` does not tell apart, because every one of them is explored. So they contain
every beginning. At the start of the list the path is empty, so all but the first pair are finished.
-/
lemma Inv.covered (hI : L.Inv model computePartial s [])
    (hexp : L.Explored model s.cache ∅ model.init 0) {l : List ℕ} (hl : L.Beginning model l) :
    ∃ t, L.Visited model s.cache l.toFinset t ∧
      (l = [] ∨ L.Finished model computePartial s l.toFinset t) := by
  have hroot : ∀ S t, L.Visited model s.cache S t → S = ∅ ∧ t = model.init ∨
      L.Finished model computePartial s S t := by
    intro S t hv
    rcases hI.visited S t hv with (⟨rfl, rfl⟩ | ⟨q, x, r, h, -⟩) | hf
    · exact .inl ⟨rfl, hI.state_nil⟩
    · simp at h
    · exact .inr hf
  let V : Set ℕ → σ → Prop := fun S t =>
    ∃ T : Finset ℕ, (∀ i, i ∈ T ↔ i ∈ S) ∧ L.Visited model s.cache T t
  have hclosed : ∀ S t k u, V S t → k ∈ List.range L.count → k ∉ S →
      (∀ j ∈ List.range L.count, L.Before j k → j ∈ S) → model.next t (L.op k) = some u →
      ∃ v, V (insert k S) v ∧ Indist model.next u v := by
    rintro S t k u ⟨T, hT, hv⟩ hk hkS hmin hnext
    have hsucc : L.Succ model T t k u :=
      ⟨List.mem_range.mp hk, fun h => hkS ((hT k).mp h),
        fun j hj hb => (hT j).mpr (hmin j (List.mem_range.mpr hj) hb), hnext⟩
    have hexp' : L.Explored model s.cache T t 0 := by
      rcases hroot T t hv with ⟨rfl, rfl⟩ | hf
      · exact hexp
      · exact hf.explored
    obtain ⟨w, hw, hind⟩ := hexp' k u hsucc (Nat.zero_le _)
    refine ⟨w, ⟨insert k T, fun i => ?_, hw⟩, hind⟩
    simp [hT]
  obtain ⟨t, ht⟩ := hl
  obtain ⟨v, ⟨S, hS, hv⟩, -⟩ := ht.covered (V := V) ⟨∅, by simp, .inl ⟨rfl, rfl⟩⟩ hclosed
  obtain rfl : S = l.toFinset := by
    ext i
    rw [hS i, Set.mem_ofPred_eq, List.mem_toFinset]
  refine ⟨v, hv, ?_⟩
  rcases hroot _ v hv with ⟨hnil, -⟩ | hf
  · exact .inl (List.toFinset_eq_empty_iff l |>.mp hnil)
  · exact .inr hf

/-- A negative answer.

**Proof sketch.** A linearization would be a beginning with all operations, which has been finished;
but what is finished is incomplete. The longest sequences are found because every beginning has been
finished. -/
lemma Inv.correct_false (hI : L.Inv model computePartial s [])
    (hexp : L.Explored model s.cache ∅ model.init 0) (hlive : L.live [] ≠ []) :
    L.Correct model computePartial false s where
  answer := by
    simp only [Bool.false_eq_true, false_iff]
    rintro ⟨l, hl⟩
    obtain ⟨hperm, hbeg⟩ := (Linearization.linearizes_iff_beginning
      (fun k hk => not_before_self (List.mem_range.mp hk)) List.nodup_range).mp hl
    obtain ⟨t, -, rfl | hf⟩ := hI.covered hexp hbeg
    · -- no operation at all
      obtain ⟨a, ha⟩ := List.exists_mem_of_ne_nil _ hlive
      obtain ⟨k, hk, -⟩ := exists_of_mem_live ha
      have := hperm.mem_iff.mpr (List.mem_range.mpr hk)
      simp at this
    · obtain ⟨k, hk, hkl⟩ := hf.incomplete
      exact hkl (List.mem_toFinset.mpr (hperm.mem_iff.mpr (List.mem_range.mpr hk)))
  slots := hI.slots
  longest h i _ := by
    have hc : computePartial = true := by simpa using h
    refine ⟨fun p hp => ?_, fun l hl hil => ?_⟩
    · obtain ⟨l, t, hseq, hil, hpart⟩ := hI.sound i p hp
      exact ⟨l, hseq, hil, t, hpart⟩
    · obtain ⟨t, -, rfl | hf⟩ := hI.covered hexp hl
      · simp at hil
      · obtain ⟨u, hu⟩ := hl
        have := hf.kept hc i (List.mem_toFinset.mpr hil)
        rwa [List.toFinset_card_of_nodup hu.nodup] at this

/-- A positive answer.

**Proof sketch.** The path is a linearization, and `finish` gives it to every operation. No
beginning is longer, as it has each operation once. -/
lemma Inv.correct_true (hI : L.Inv model computePartial s path)
    (hlive : L.live (path.map Prod.fst) = []) :
    L.Correct model computePartial true s.finish := by
  have hlin := hI.linearizes hlive
  have hslot : ∀ i < L.count, s.finish.longest[i]? = some (some s.seqs.length) := by
    intro i hi
    simp [Search.finish, hI.slots.length_eq, hi]
  have hseq : s.finish.seqs[s.seqs.length]? =
      some ((path.map Prod.fst).map fun k : ℕ => (k : ℤ)) := by
    simp [Search.finish, hI.seq_eq]
  refine ⟨?_, ⟨by simp [Search.finish, hI.slots.length_eq], fun i p hp => ?_⟩, fun _ i hi =>
    ⟨fun p hp => ?_, fun l hl hil => ?_⟩⟩
  · simp only [true_iff]
    exact ⟨_, hlin⟩
  · simp only [Search.finish, List.getElem?_replicate] at hp ⊢
    split_ifs at hp
    obtain rfl : s.seqs.length = p := by simpa using hp
    simp
  · obtain rfl : s.seqs.length = p := by simpa using (hslot i hi).symm.trans hp
    refine ⟨_, hseq, hlin.perm.mem_iff.mpr (List.mem_range.mpr hi), _, hI.trail.toPartial⟩
  · obtain ⟨t, ht⟩ := hl
    refine ⟨_, _, hslot i hi, hseq, ?_⟩
    have hsub : l ⊆ path.map Prod.fst := fun k hk => hlin.perm.mem_iff.mpr (ht.subset k hk)
    have := (List.subperm_of_subset ht.nodup hsub).length_le
    simpa using this

/-- **One iteration of the search.** It ends with a correct answer, or it goes on. -/
theorem Inv.step_correct (heq : model.EqualSound) (hI : L.Inv model computePartial s path) :
    (∃ ok s', s.step model computePartial false = some (.done ok s') ∧
        L.Correct model computePartial ok s') ∨
      ∃ s' path', s.step model computePartial false = some (.next s') ∧
        L.Inv model computePartial s' path' ∧
        L.progress path s.entry < L.progress path' s'.entry := by
  rcases hI.step_cases heq with ⟨hlive, hstep⟩ | ⟨hlive, rfl, hstep, hexp⟩ | hnext
  · exact .inl ⟨true, _, hstep, hI.correct_true hlive⟩
  · exact .inl ⟨false, _, hstep, hI.correct_false hexp hlive⟩
  · exact .inr hnext

/-- The number that grows is bounded. -/
lemma progress_lt (path : List (ℕ × σ)) (entry : Option ℕ) :
    L.progress path entry < (L.size + 2) ^ (L.count + 1) := by
  refine DepthFirst.rank_lt (by omega) fun d hd => ?_
  rcases List.mem_append.mp hd with hd | hd
  · obtain ⟨x, -, rfl⟩ := List.mem_map.mp hd
    omega
  · rw [List.mem_singleton.mp hd]
    cases entry with
    | none => exact Nat.lt_succ_self _
    | some a =>
      simp only [Option.elim]
      omega

/-- **The search ends**, after at most as many iterations as there are places. -/
theorem Inv.run_correct (heq : model.EqualSound) :
    ∀ {fuel : ℕ} {s : Search ι ο σ} {path : List (ℕ × σ)}, L.Inv model computePartial s path →
      (L.size + 2) ^ (L.count + 1) ≤ L.progress path s.entry + fuel →
      ∃ ok s', s.run model computePartial fuel (fun _ => false) = some (.done ok s') ∧
        L.Correct model computePartial ok s' := by
  intro fuel
  induction fuel with
  | zero =>
    intro s path _ hfuel
    exact absurd (progress_lt path s.entry) (Nat.not_lt.mpr hfuel)
  | succ fuel ih =>
    intro s path hI hfuel
    rcases hI.step_correct heq with ⟨ok, s', hstep, hcorrect⟩ | ⟨s', path', hstep, hI', hlt⟩
    · exact ⟨ok, s', by simp [Search.run, hstep], hcorrect⟩
    · obtain ⟨ok, s'', hrun, hcorrect⟩ := ih hI' (by omega)
      exact ⟨ok, s'', by simpa [Search.run, hstep] using hrun, hcorrect⟩

/-! ## Iterations that may be told to stop -/

variable (L model) in
/-- What an answer means when `kill` may have been set: a positive answer can be trusted, a negative
one only if it was not. The sequences that come with it are beginnings of linearizations. -/
structure Answered (kill ok : Bool) (s : Search ι ο σ) : Prop where
  of_true : ok = true → L.Linearizable model
  of_false : ok = false → kill = true ∨ ¬ L.Linearizable model
  sound : ∀ i p : ℕ, s.longest[i]? = some (some p) → ∃ l,
    s.seqs[p]? = some (l.map fun k : ℕ => (k : ℤ)) ∧ i ∈ l ∧ L.Beginning model l

/-- The sequence noted for an operation contains it and is a beginning of a linearization. -/
lemma Inv.sound_beginning (hI : L.Inv model computePartial s path) (i p : ℕ)
    (hp : s.longest[i]? = some (some p)) : ∃ l,
      s.seqs[p]? = some (l.map fun k : ℕ => (k : ℤ)) ∧ i ∈ l ∧ L.Beginning model l := by
  obtain ⟨l, t, hseq, hil, hpart⟩ := hI.sound i p hp
  exact ⟨l, hseq, hil, t, hpart⟩

/-- When no entry is left, all operations have been put in a legal order. -/
lemma Inv.answered_true (hI : L.Inv model computePartial s path)
    (hlive : L.live (path.map Prod.fst) = []) (kill : Bool) :
    L.Answered model kill true s.finish := by
  have hcorrect := hI.correct_true hlive
  refine ⟨fun _ => hcorrect.answer.mp rfl, by simp, fun i p hp => ?_⟩
  refine (hcorrect.longest (.inl rfl) i ?_).sound p hp
  have := (List.getElem?_eq_some_iff.mp hp).1
  rwa [hcorrect.slots.length_eq] at this

/-- One iteration, whatever it reads from `kill`.

**Proof sketch.** Without `kill` this is `Inv.step_cases`. With `kill` the search ends: with a
linearization if nothing is left, and otherwise with an answer that claims nothing. -/
theorem Inv.step_answered (heq : model.EqualSound) (hI : L.Inv model computePartial s path)
    (kill : Bool) :
    (∃ ok s', s.step model computePartial kill = some (.done ok s') ∧
        L.Answered model kill ok s') ∨
      ∃ s' path', s.step model computePartial kill = some (.next s') ∧
        L.Inv model computePartial s' path' ∧
        L.progress path s.entry < L.progress path' s'.entry := by
  cases kill with
  | false =>
    rcases hI.step_cases heq with ⟨hlive, hstep⟩ | ⟨hlive, rfl, hstep, hexp⟩ | hnext
    · exact .inl ⟨true, _, hstep, hI.answered_true hlive false⟩
    · refine .inl ⟨false, _, hstep, by simp, fun _ => .inr fun hlin => ?_, hI.sound_beginning⟩
      exact absurd ((hI.correct_false hexp hlive).answer.mpr hlin) (by simp)
    · exact .inr hnext
  | true =>
    left
    by_cases hlive : L.live (path.map Prod.fst) = []
    · exact ⟨true, s.finish, by simp [Search.step, hI.head_next, hlive],
        hI.answered_true hlive true⟩
    · exact ⟨false, s, by simp [Search.step, hI.head_next, hlive], by simp, fun _ => .inl rfl,
        hI.sound_beginning⟩

end Layout

/-- The same number, read off the variables of the search. -/
def Search.place (s : Search ι ο σ) : ℕ :=
  walkRank s.headEntry s.longest.length (s.calls.map CallsEntry.entry) s.entry

/-- The place of the search is the place of the walk. -/
lemma Layout.Inv.place_eq {L : Layout ι ο} {model : FullModel ι ο σ} {computePartial : Bool}
    {s : Search ι ο σ} {path : List (ℕ × σ)} (hI : L.Inv model computePartial s path) :
    s.place = L.progress path s.entry := by
  rw [Search.place, hI.head, hI.slots.length_eq, hI.calls, List.map_map]
  rfl

/-! ## Complete histories -/

/-- A complete history: the entries of `count` operations with their inputs and outputs. -/
structure History (ι ο : Type) where
  entries : List (Entry ι ο)
  count : ℕ
  inp : ℕ → ι
  out : ℕ → ο
  complete : Complete count inp out entries

/-- A register. An input is the value to be written, or `none` for a read. -/
def registerModel : Model (Option ℕ) ℕ ℕ where
  partition := none
  partitionEvent := none
  init := 0
  step state input output := (input.isSome || output = state, input.getD state)
  equal := none

namespace History

variable (H : History ι ο) (model : FullModel ι ο σ)

/-- The operations of the history can be put into one order that the model allows and in which no
operation stands before one that returned before it was called. -/
def Linearizable : Prop :=
  Linearization.Linearizable model.next (fun k => (H.inp k, H.out k)) (Precedes H.entries)
    model.init (List.range H.count)

/-- The number of iterations after which the search has ended. -/
def bound : ℕ := (H.entries.length + 2) ^ (H.count + 1)

variable {H model}

/-- The order of the entries is the order of their addresses. -/
lemma layout_linearizable_iff : H.complete.layout.Linearizable model ↔ H.Linearizable model := by
  constructor
  · refine fun h => Linearization.Linearizable.mono h fun i hi j hj hb => ?_
    exact (H.complete.layout_precedes (List.mem_range.mp hi) (List.mem_range.mp hj)).mpr hb
  · refine fun h => Linearization.Linearizable.mono h fun i hi j hj hb => ?_
    exact (H.complete.layout_precedes (List.mem_range.mp hi) (List.mem_range.mp hj)).mp hb

/-- `checkSingle` starts with the layout of the history in memory. -/
lemma checkSingle_eq (computePartial : Bool) (kill : ℕ → Bool) (fuel : ℕ) :
    checkSingle model H.entries computePartial kill fuel =
      (H.complete.layout.search model).run model computePartial fuel kill := by
  rw [checkSingle, H.complete.start_spec model]
  rfl

/-- The search runs to its end and its answer is right. -/
lemma checkSingle_correct (heq : model.EqualSound) (computePartial : Bool) {fuel : ℕ}
    (hfuel : H.bound ≤ fuel) :
    ∃ ok s, checkSingle model H.entries computePartial (fun _ => false) fuel =
        some (.done ok s) ∧ H.complete.layout.Correct model computePartial ok s := by
  have hstart : H.complete.layout.Inv model computePartial (H.complete.layout.search model) [] :=
    Layout.Inv.start
  have hle : H.bound ≤
      H.complete.layout.progress ([] : List (ℕ × σ)) (down H.entries.length).head? +
      fuel := hfuel.trans (Nat.le_add_left _ _)
  obtain ⟨ok, s, hrun, hcorrect⟩ := hstart.run_correct heq hle
  exact ⟨ok, s, (checkSingle_eq computePartial _ fuel).trans hrun, hcorrect⟩

/-- **`checkSingle` decides linearizability**, in a bounded number of iterations. -/
theorem checkSingle_decides (heq : model.EqualSound) (computePartial : Bool) {fuel : ℕ}
    (hfuel : H.bound ≤ fuel) :
    ∃ ok s, checkSingle model H.entries computePartial (fun _ => false) fuel =
        some (.done ok s) ∧ (ok = true ↔ H.Linearizable model) := by
  obtain ⟨ok, s, hrun, hcorrect⟩ := checkSingle_correct heq computePartial hfuel
  exact ⟨ok, s, hrun, hcorrect.answer.trans layout_linearizable_iff⟩

/-- The entries of two writes, of 1 and of 2, at the same time, and after both of them of a read. -/
def twoWritesEntries (output : ℕ) : List (Entry (Option ℕ) ℕ) :=
  [⟨.callEntry, .input (some 1), 0, 0, 0⟩, ⟨.callEntry, .input (some 2), 1, 1, 1⟩,
    ⟨.returnEntry, .output 0, 1, 2, 1⟩, ⟨.returnEntry, .output 0, 0, 3, 0⟩,
    ⟨.callEntry, .input none, 2, 4, 0⟩, ⟨.returnEntry, .output output, 2, 5, 0⟩]

/-- Every operation has its call and, behind it, its return. -/
lemma twoWritesEntries_complete (output : ℕ) :
    Complete 3 (fun k => if k < 2 then some (k + 1) else none)
      (fun k => if k < 2 then 0 else output) (twoWritesEntries output) where
  entry e he := by
    simp only [twoWritesEntries, List.mem_cons, List.not_mem_nil, or_false] at he
    rcases he with rfl | rfl | rfl | rfl | rfl | rfl
    · exact ⟨0, by decide, rfl, .inl ⟨rfl, rfl⟩⟩
    · exact ⟨1, by decide, rfl, .inl ⟨rfl, rfl⟩⟩
    · exact ⟨1, by decide, rfl, .inr ⟨rfl, rfl⟩⟩
    · exact ⟨0, by decide, rfl, .inr ⟨rfl, rfl⟩⟩
    · exact ⟨2, by decide, rfl, .inl ⟨rfl, rfl⟩⟩
    · exact ⟨2, by decide, rfl, .inr ⟨rfl, rfl⟩⟩
  nodup := by
    show [((EntryKind.callEntry : EntryKind), (0 : ℤ)), (.callEntry, 1), (.returnEntry, 1),
      (.returnEntry, 0), (.callEntry, 2), (.returnEntry, 2)].Nodup
    decide
  matched k hk := by
    match k, hk with
    | 0, _ => exact (by decide : 0 < 3 ∧ 3 < 6)
    | 1, _ => exact (by decide : 1 < 2 ∧ 2 < 6)
    | 2, _ => exact (by decide : 4 < 5 ∧ 5 < 6)

/-- Two writes, of 1 and of 2, at the same time, and after both of them a read of `output`. -/
def twoWrites (output : ℕ) : History (Option ℕ) ℕ where
  entries := twoWritesEntries output
  count := 3
  inp k := if k < 2 then some (k + 1) else none
  out k := if k < 2 then 0 else output
  complete := twoWritesEntries_complete output

/-- **The search accepts and refuses.** A read of 1 needs the write of 2 to come first, which the
search finds after it has undone its first choice; a read of 3 is refused. -/
theorem checkSingle_decides_twoWrites :
    (twoWrites 1).Linearizable (fillDefault registerModel) ∧
      ¬ (twoWrites 3).Linearizable (fillDefault registerModel) := by
  have heq : (fillDefault registerModel).EqualSound := fillDefault_equalSound rfl
  obtain ⟨ok, s, hrun, hiff⟩ := checkSingle_decides (H := twoWrites 1) heq false le_rfl
  obtain ⟨ok', s', hrun', hiff'⟩ := checkSingle_decides (H := twoWrites 3) heq false le_rfl
  have hok : (checkSingle (fillDefault registerModel) (twoWrites 1).entries false (fun _ => false)
      (twoWrites 1).bound).bind Progress.answer = some true := by
    decide +kernel
  have hok' : (checkSingle (fillDefault registerModel) (twoWrites 3).entries false (fun _ => false)
      (twoWrites 3).bound).bind Progress.answer = some false := by
    decide +kernel
  rw [hrun] at hok
  rw [hrun'] at hok'
  obtain rfl : ok = true := by simpa [Progress.answer] using hok
  obtain rfl : ok' = false := by simpa [Progress.answer] using hok'
  exact ⟨hiff.mp rfl, fun hlin => absurd (hiff'.mpr hlin) (by simp)⟩

variable (H model) in
/-- A beginning of a linearization of the history: a legal sequence of operations in which each one
comes after all that returned before it was called. -/
def Beginning (l : List ℕ) : Prop :=
  ∃ t, Partial model.next (fun k => (H.inp k, H.out k)) (Precedes H.entries) model.init
    (List.range H.count) l t

/-- The beginnings for the linked entries are those for the history. -/
lemma layout_beginning_iff {l : List ℕ} :
    H.complete.layout.Beginning model l ↔ H.Beginning model l := by
  constructor
  · rintro ⟨t, ht⟩
    refine ⟨t, ht.congr fun i hi j hj hb => ?_⟩
    exact (H.complete.layout_precedes (List.mem_range.mp hi) (List.mem_range.mp hj)).mpr hb
  · rintro ⟨t, ht⟩
    refine ⟨t, ht.congr fun i hi j hj hb => ?_⟩
    exact (H.complete.layout_precedes (List.mem_range.mp hi) (List.mem_range.mp hj)).mp hb

/-- **The sequences of `checkSingle` are longest beginnings of linearizations.** For every operation
the sequence returned is a longest one that has the operation, and none is returned exactly when
there is none.

**Proof sketch.** By what `longest` holds for the operation. If it is nothing, no beginning has the
operation; otherwise it is the place of a sequence, which `Correct` says is a longest one. -/
theorem checkSingle_longest (heq : model.EqualSound) {fuel : ℕ} (hfuel : H.bound ≤ fuel) :
    ∃ ok s, checkSingle model H.entries true (fun _ => false) fuel = some (.done ok s) ∧
      ∀ i < H.count,
        (s.partials[i]? = some none ∧ ∀ l, H.Beginning model l → i ∉ l) ∨
        ∃ l, s.partials[i]? = some (some (l.map fun k : ℕ => (k : ℤ))) ∧ i ∈ l ∧
          H.Beginning model l ∧ ∀ m, H.Beginning model m → i ∈ m → m.length ≤ l.length := by
  obtain ⟨ok, s, hrun, hcorrect⟩ := checkSingle_correct heq true hfuel
  refine ⟨ok, s, hrun, fun i hi => ?_⟩
  have hlongest := hcorrect.longest (.inr rfl) i hi
  have hlt : i < s.longest.length := hcorrect.slots.length_eq ▸ hi
  cases hslot : s.longest[i] with
  | none =>
    have hget : s.longest[i]? = some none := by rw [List.getElem?_eq_getElem hlt, hslot]
    refine .inl ⟨by simp [Search.partials, hget], fun l hl hil => ?_⟩
    obtain ⟨p, seq, hp, -⟩ := hlongest.maximal l (layout_beginning_iff.mpr hl) hil
    exact absurd (hget.symm.trans hp) (by simp)
  | some p =>
    have hget : s.longest[i]? = some (some p) := by rw [List.getElem?_eq_getElem hlt, hslot]
    obtain ⟨l, hseq, hil, hl⟩ := hlongest.sound p hget
    refine .inr ⟨l, by simp [Search.partials, hget, hseq], hil, layout_beginning_iff.mp hl,
      fun m hm him => ?_⟩
    obtain ⟨p', seq, hp', hseq', hle⟩ := hlongest.maximal m (layout_beginning_iff.mpr hm) him
    obtain rfl : p = p' := by simpa using hget.symm.trans hp'
    obtain rfl := Option.some.inj (hseq.symm.trans hseq')
    simpa using hle

/-- A read of 3 is in no beginning of a linearization, and no beginning with the first write is
longer than the sequence of the two writes that is returned for it. -/
theorem checkSingle_longest_twoWrites : ∃ ok s,
    checkSingle (fillDefault registerModel) (twoWrites 3).entries true (fun _ => false)
      (twoWrites 3).bound = some (.done ok s) ∧
    s.partials = [some [0, 1], some [0, 1], none] ∧
    (∀ l, (twoWrites 3).Beginning (fillDefault registerModel) l → 2 ∉ l) ∧
    ∀ l, (twoWrites 3).Beginning (fillDefault registerModel) l → 0 ∈ l → l.length ≤ 2 := by
  have heq : (fillDefault registerModel).EqualSound := fillDefault_equalSound rfl
  obtain ⟨ok, s, hrun, hall⟩ := checkSingle_longest (H := twoWrites 3) heq le_rfl
  have hpartials : (checkSingle (fillDefault registerModel) (twoWrites 3).entries true
      (fun _ => false) (twoWrites 3).bound).map (fun r => r.search.partials) =
        some [some [0, 1], some [0, 1], none] := by
    decide +kernel
  rw [hrun] at hpartials
  have hs : s.partials = [some [0, 1], some [0, 1], none] := Option.some.inj hpartials
  refine ⟨ok, s, hrun, hs, ?_, ?_⟩
  · rcases hall 2 (by decide) with ⟨-, hnone⟩ | ⟨l, hl, -⟩
    · exact hnone
    · rw [hs] at hl
      simp at hl
  · rcases hall 0 (by decide) with ⟨hnone, -⟩ | ⟨l, hl, -, -, hmax⟩
    · rw [hs] at hnone
      simp at hnone
    · intro m hm h0
      have hlen : l.length = 2 := by
        rw [hs] at hl
        have hmap : [(0 : ℤ), 1] = l.map fun k : ℕ => (k : ℤ) := by simpa using hl
        simpa using (congrArg List.length hmap).symm
      exact hlen ▸ hmax m hm h0

end History

end Porcupine
