import Mathlib.Data.List.Perm.Basic
import Mathlib.Data.List.Nodup
import Mathlib.Data.List.MinMax
import Mathlib.Data.Set.Insert
import Mathlib.Logic.Function.Basic
import Mathlib.Tactic.Common

set_option autoImplicit false

/-!
# Linearizations

A sequential object is a partial step function on states: `step s a` is the state after the
operation `a`, or `none` where `a`, with the answer it was given, is not possible in `s`. A
concurrent history names its operations by the elements of a list `P`, says what each of them did
(`op`) and which of them had ended when another one began (`before`). It is linearizable when its
operations can be put into one order that the object allows and that keeps `before`.

## Main definitions

* `Linearization.replay` — the state after a list of operations.
* `Linearization.Linearizes`, `Linearization.Linearizable`.
* `Linearization.Partial` — the beginnings of linearizations, extended by one operation at a time.
* `Linearization.Indist` — states that no list of operations tells apart.
* `Linearization.product` — one object for each key.

## Main results

* `Linearization.linearizable_map` — the names of the operations do not matter.
* `Linearization.linearizes_iff_beginning` — a linearization is a beginning that has everything.
* `Linearization.Partial.covered` — a set of configurations that is closed under extension, up to
  states that cannot be told apart, covers every beginning.
* `Linearization.linearizable_product_iff` — **locality**: a history of independent objects is
  linearizable exactly when its part on every single object is.
-/

namespace Linearization

variable {ι α σ : Type*}

/-! ## Sequential objects -/

/-- The state after a list of operations, if the object allows them in this order. -/
def replay (step : σ → α → Option σ) (s : σ) (l : List α) : Option σ := l.foldlM step s

section Replay

variable {step : σ → α → Option σ} {s t : σ}

/-- The first operation of a sequence comes first. -/
@[simp] lemma replay_cons (a : α) (l : List α) :
    replay step s (a :: l) = (step s a).bind fun t => replay step t l := rfl

/-- A sequence can be replayed in two parts. -/
lemma replay_append (l l' : List α) :
    replay step s (l ++ l') = (replay step s l).bind fun t => replay step t l' := by
  simp only [replay, List.foldlM_append]
  rfl

/-- The last operation of a sequence comes last. -/
lemma replay_concat (l : List α) (a : α) :
    replay step s (l ++ [a]) = (replay step s l).bind fun t => step t a := by
  rw [replay_append]
  congr 1
  funext t
  exact Option.bind_fun_some (step t a)

/-- No list of operations tells the two states apart. -/
def Indist (step : σ → α → Option σ) (s t : σ) : Prop :=
  ∀ l, (replay step s l).isSome = (replay step t l).isSome

/-- No list of operations tells a state from itself. -/
lemma Indist.refl (s : σ) : Indist step s s := fun _ => rfl

/-- States that cannot be told from a third one cannot be told apart. -/
lemma Indist.trans {u : σ} (h : Indist step s t) (h' : Indist step t u) : Indist step s u :=
  fun l => (h l).trans (h' l)

/-- What one of two states that cannot be told apart allows, the other one allows, and the
successors cannot be told apart either. -/
lemma Indist.step_right {s' : σ} {a : α} (h : Indist step s t) (hs : step s a = some s') :
    ∃ t', step t a = some t' ∧ Indist step s' t' := by
  have hone := h [a]
  rw [replay_cons, replay_cons, hs] at hone
  cases ht : step t a with
  | none =>
    rw [ht] at hone
    cases hone
  | some t' =>
    refine ⟨t', rfl, fun l => ?_⟩
    have hl := h (a :: l)
    rwa [replay_cons, replay_cons, hs, ht] at hl

end Replay

/-! ## Linearizations and their beginnings -/

/-- The order `l` of the operations `P` is legal from `s` and keeps `before`. -/
structure Linearizes (step : σ → α → Option σ) (op : ι → α) (before : ι → ι → Prop) (s : σ)
    (P l : List ι) : Prop where
  perm : l.Perm P
  ordered : l.Pairwise fun i j => ¬ before j i
  legal : (replay step s (l.map op)).isSome

/-- The operations `P` can be put into one order that is legal from `s` and keeps `before`. -/
def Linearizable (step : σ → α → Option σ) (op : ι → α) (before : ι → ι → Prop) (s : σ)
    (P : List ι) : Prop :=
  ∃ l, Linearizes step op before s P l

/-- Beginnings of linearizations: the next operation is one that no operation outside of the
beginning precedes. The last argument is the state reached. -/
inductive Partial (step : σ → α → Option σ) (op : ι → α) (before : ι → ι → Prop) (s : σ)
    (P : List ι) : List ι → σ → Prop
  | nil : Partial step op before s P [] s
  | snoc {l : List ι} {t u : σ} {i : ι} : Partial step op before s P l t → i ∈ P → i ∉ l →
      (∀ j ∈ P, before j i → j ∈ l) → step t (op i) = some u →
      Partial step op before s P (l ++ [i]) u

variable {step : σ → α → Option σ} {op : ι → α} {before before' : ι → ι → Prop} {s t : σ}
  {P P' l l' : List ι}

/-- Fewer demands on the order leave more histories linearizable. -/
lemma Linearizable.mono (h : Linearizable step op before s P)
    (hle : ∀ i ∈ P, ∀ j ∈ P, before' i j → before i j) :
    Linearizable step op before' s P := by
  obtain ⟨l, hl⟩ := h
  refine ⟨l, hl.perm, ?_, hl.legal⟩
  refine hl.ordered.imp_of_mem fun {i j} hi hj hij hb => hij ?_
  exact hle j (hl.perm.mem_iff.mp hj) i (hl.perm.mem_iff.mp hi) hb

/-- Operations may be named in another way.

**Proof sketch.** An order is carried over along `g`. Conversely, an order of the images comes from
an order of what they are images of. -/
theorem linearizable_map {ι' : Type*} (g : ι' → ι) {Q : List ι'} :
    Linearizable step op before s (Q.map g) ↔
      Linearizable step (fun i => op (g i)) (fun i j => before (g i) (g j)) s Q := by
  constructor
  · rintro ⟨l, hl⟩
    have hrel : List.Forall₂ (fun a b => a = g b) (Q.map g) Q :=
      List.forall₂_map_left_iff.mpr (List.forall₂_same.mpr fun _ _ => rfl)
    obtain ⟨m, hm, hperm⟩ := List.perm_comp_forall₂ hl.perm hrel
    obtain rfl : l = m.map g := by
      clear hl hperm
      induction hm with
      | nil => rfl
      | cons hab _ ih => rw [List.map_cons, hab, ih]
    refine ⟨m, hperm, List.pairwise_map.mp hl.ordered, ?_⟩
    simpa [List.map_map, Function.comp_def] using hl.legal
  · rintro ⟨m, hm⟩
    refine ⟨m.map g, hm.perm.map g, List.pairwise_map.mpr hm.ordered, ?_⟩
    simpa [List.map_map, Function.comp_def] using hm.legal

namespace Partial

/-- A beginning has no operation twice. -/
lemma nodup (h : Partial step op before s P l t) : l.Nodup := by
  induction h with
  | nil => exact List.nodup_nil
  | snoc _ _ hi _ _ ih =>
    refine List.nodup_append.mpr ⟨ih, by simp, fun a ha b hb hab => hi ?_⟩
    rw [← List.mem_singleton.mp hb, ← hab]
    exact ha

/-- A beginning has only operations of the history. -/
lemma subset (h : Partial step op before s P l t) : ∀ i ∈ l, i ∈ P := by
  induction h with
  | nil => simp
  | snoc _ hP _ _ _ ih =>
    intro j hj
    rcases List.mem_append.mp hj with hj | hj
    · exact ih j hj
    · rwa [List.mem_singleton.mp hj]

/-- A beginning is legal and leads to its state. -/
lemma replay_eq (h : Partial step op before s P l t) : replay step s (l.map op) = some t := by
  induction h with
  | nil => rfl
  | snoc _ _ _ _ hstep ih =>
    rw [List.map_append, List.map_singleton, replay_concat, ih]
    exact hstep

/-- A beginning has everything that precedes one of its operations. -/
lemma downClosed (h : Partial step op before s P l t) :
    ∀ i ∈ l, ∀ j ∈ P, before j i → j ∈ l := by
  induction h with
  | nil => simp
  | snoc _ _ _ hmin _ ih =>
    intro i hi j hj hb
    rcases List.mem_append.mp hi with hi | hi
    · exact List.mem_append_left _ (ih i hi j hj hb)
    · rw [List.mem_singleton.mp hi] at hb
      exact List.mem_append_left _ (hmin j hj hb)

/-- A beginning respects the order of the history. -/
lemma ordered (h : Partial step op before s P l t) : l.Pairwise fun i j => ¬ before j i := by
  induction h with
  | nil => exact List.Pairwise.nil
  | snoc hpre hP hi _ _ ih =>
    refine List.pairwise_append.mpr ⟨ih, List.pairwise_singleton _ _, fun a ha b hb hba => hi ?_⟩
    rw [List.mem_singleton.mp hb] at hba
    exact hpre.downClosed a ha _ hP hba

end Partial

/-- Only the order among the operations matters. -/
lemma Partial.congr (h : Partial step op before s P l t)
    (hb : ∀ i ∈ P, ∀ j ∈ P, before' i j → before i j) : Partial step op before' s P l t := by
  induction h with
  | nil => exact .nil
  | snoc _ hP hi hmin hstep ih =>
    exact ih.snoc hP hi (fun j hj hji => hmin j hj (hb j hj _ hP hji)) hstep

/-- Every beginning of a linearization is one in the sense of `Partial`.

**Proof sketch.** Induction on the rest. Its first operation is one of `P`, has not been done, and
everything that must come before it stands before it in the order; so it can be done next. -/
lemma Linearizes.beginning_append (hirr : ∀ i ∈ P, ¬ before i i) (hP : P.Nodup) :
    ∀ {l l' : List ι} {t : σ}, Partial step op before s P l t → (l ++ l').Perm P →
      (l ++ l').Pairwise (fun i j => ¬ before j i) → (replay step t (l'.map op)).isSome →
      ∃ u, Partial step op before s P (l ++ l') u := by
  intro l l'
  induction l' generalizing l with
  | nil => exact fun {t} h _ _ _ => ⟨t, by rwa [List.append_nil]⟩
  | cons i l' ih =>
    intro t h hperm hord hlegal
    rw [List.append_cons] at hperm hord ⊢
    obtain ⟨u, hu⟩ : ∃ u, step t (op i) = some u := by
      cases hu : step t (op i) with
      | none => simp [hu] at hlegal
      | some u => exact ⟨u, rfl⟩
    refine ih (h.snoc ?_ ?_ ?_ hu) hperm hord (by simpa [hu] using hlegal)
    · exact hperm.mem_iff.mp (by simp)
    · have hnd := (hperm.nodup_iff.mpr hP).of_append_left
      exact fun hi => (List.nodup_append.mp hnd).2.2 i hi i (by simp) rfl
    · intro j hj hb
      have hjl : j ∈ l ++ [i] ++ l' := hperm.mem_iff.mpr hj
      rcases List.mem_append.mp hjl with hjl | hjl
      · rcases List.mem_append.mp hjl with hjl | hjl
        · exact hjl
        · obtain rfl : j = i := List.mem_singleton.mp hjl
          exact absurd hb (hirr j hj)
      · exact absurd hb ((List.pairwise_append.mp hord).2.2 i (by simp) j hjl)

/-- **Linearizations are the beginnings that have everything.** -/
theorem linearizes_iff_beginning (hirr : ∀ i ∈ P, ¬ before i i) (hP : P.Nodup) :
    Linearizes step op before s P l ↔ l.Perm P ∧ ∃ t, Partial step op before s P l t := by
  constructor
  · intro h
    have hnil : Partial step op before s P [] s := .nil
    exact ⟨h.perm, Linearizes.beginning_append hirr hP hnil h.perm h.ordered h.legal⟩
  · rintro ⟨hperm, t, h⟩
    exact ⟨hperm, h.ordered, by rw [h.replay_eq]; rfl⟩

/-- **Coverage by a closed set of configurations.** A configuration is the set of the operations
taken so far with the state they lead to. If `V` has the first one and is closed under extension,
up to states that cannot be told apart, then it has one for every beginning.

**Proof sketch.** Induction on the beginning. A state that cannot be told apart allows the same next
operation. -/
theorem Partial.covered {V : Set ι → σ → Prop} (hstart : V ∅ s)
    (hclosed : ∀ S t i u, V S t → i ∈ P → i ∉ S → (∀ j ∈ P, before j i → j ∈ S) →
      step t (op i) = some u → ∃ v, V (insert i S) v ∧ Indist step u v)
    (h : Partial step op before s P l t) : ∃ v, V {i | i ∈ l} v ∧ Indist step t v := by
  induction h with
  | nil =>
    have hset : {i | i ∈ ([] : List ι)} = (∅ : Set ι) := by
      ext i
      simp
    exact ⟨s, hset ▸ hstart, Indist.refl s⟩
  | @snoc l t u i _ hP hi hmin hstep ih =>
    obtain ⟨v, hv, hind⟩ := ih
    obtain ⟨w, hw, hindw⟩ := hind.step_right hstep
    obtain ⟨x, hx, hindx⟩ := hclosed _ v i w hv hP hi hmin hw
    refine ⟨x, ?_, hindw.trans hindx⟩
    have hset : {j | j ∈ l ++ [i]} = insert i {j | j ∈ l} := by
      ext j
      rw [Set.mem_insert_iff, Set.mem_ofPred_eq, Set.mem_ofPred_eq, List.mem_append,
        List.mem_singleton, or_comm]
    rwa [hset]

/-! ## Locality -/

section Locality

variable {κ τ : Type*} [DecidableEq κ] {key : α → κ} {f : κ → σ}

/-- The object made of one object for each key, of which an operation uses the one of its key. -/
def product (step : σ → α → Option σ) (key : α → κ) (f : κ → σ) (a : α) : Option (κ → σ) :=
  (step (f (key a)) a).map fun t => Function.update f (key a) t

/-- An operation of the product changes the object of its key, and no other. -/
lemma product_eq_some {a : α} {g : κ → σ} :
    product step key f a = some g ↔
      ∃ t, step (f (key a)) a = some t ∧ Function.update f (key a) t = g := by
  simp [product]

/-- What a legal sequence for the product does to one of its objects.

**Proof sketch.** Induction on the sequence. An operation on the object is a step of the filtered
sequence; one on another object leaves `f k` as it is and is filtered out. -/
lemma replay_filter (k : κ) :
    ∀ {l : List α} {f g : κ → σ}, replay (product step key) f l = some g →
      replay step (f k) (l.filter fun a => key a = k) = some (g k) := by
  intro l
  induction l with
  | nil =>
    intro f g h
    obtain rfl : f = g := Option.some.inj h
    rfl
  | cons a l ih =>
    intro f g h
    rw [replay_cons] at h
    obtain ⟨f', hf', hg⟩ := Option.bind_eq_some_iff.mp h
    obtain ⟨t, ht, rfl⟩ := product_eq_some.mp hf'
    have hrest := ih hg
    by_cases hk : key a = k
    · subst hk
      rw [Function.update_self] at hrest
      simpa [ht] using hrest
    · rw [Function.update_of_ne (Ne.symm hk)] at hrest
      simpa [hk] using hrest

/-- Each object sees a linearization of its own operations. -/
lemma Linearizes.filter (h : Linearizes (product step key) op before f P l) (k : κ) :
    Linearizes step op before (f k) (P.filter fun i => key (op i) = k)
      (l.filter fun i => key (op i) = k) := by
  refine ⟨h.perm.filter _, h.ordered.filter _, ?_⟩
  obtain ⟨g, hg⟩ := Option.isSome_iff_exists.mp h.legal
  have := replay_filter k hg
  rw [List.filter_map] at this
  exact Option.isSome_iff_exists.mpr ⟨_, this⟩

variable [LinearOrder τ] {call ret : ι → τ}

/-- The first operation of the order of some object may be taken first of all. The operation that
ends first bounds the beginning of everything that its own object has before it. -/
lemma exists_first (hint : ∀ i ∈ P, call i ≤ ret i) (hne : P ≠ [])
    (hall : ∀ k, Linearizable step op (fun i j => ret i < call j) (f k)
      (P.filter fun i => key (op i) = k)) :
    ∃ h ∈ P, (∀ i ∈ P, ¬ ret i < call h) ∧ ∃ t,
      Linearizes step op (fun i j => ret i < call j) (f (key (op h)))
        (P.filter fun i => key (op i) = key (op h)) (h :: t) := by
  obtain ⟨j, hj⟩ : ∃ j, List.argmin ret P = some j :=
    Option.ne_none_iff_exists'.mp fun h => hne (List.argmin_eq_none.mp h)
  have hjP : j ∈ P := List.argmin_mem hj
  obtain ⟨m, hm⟩ := hall (key (op j))
  have hjm : j ∈ m := hm.perm.mem_iff.mpr (by simp [hjP])
  cases m with
  | nil => simp at hjm
  | cons h t =>
    have hmem := List.mem_filter.mp (hm.perm.mem_iff.mp List.mem_cons_self)
    have hk : key (op h) = key (op j) := by simpa using hmem.2
    refine ⟨h, hmem.1, fun i hi hlt => ?_, t, hk ▸ hm⟩
    have hji : ret j < call h := (List.le_of_mem_argmin hi hj).trans_lt hlt
    rcases List.mem_cons.mp hjm with rfl | hjt
    · exact absurd (hint j hjP) (not_le.mpr hji)
    · exact (List.pairwise_cons.mp hm.ordered).1 j hjt hji

variable [DecidableEq ι]

/-- An operation that may come first on its object and nothing precedes is taken away from both the
history and the order of its object. -/
lemma Linearizes.uncons {h : ι} {t : List ι} {k : κ}
    (hl : Linearizes step op before (f k) (P.filter fun i => key (op i) = k) (h :: t)) :
    key (op h) = k ∧ ∃ u, step (f k) (op h) = some u ∧
      Linearizes step op before u ((P.erase h).filter fun i => key (op i) = k) t := by
  have hmem : h ∈ P.filter fun i => key (op i) = k := hl.perm.mem_iff.mp List.mem_cons_self
  obtain ⟨-, hk⟩ := List.mem_filter.mp hmem
  have hk : key (op h) = k := by simpa using hk
  obtain ⟨v, hv⟩ := Option.isSome_iff_exists.mp hl.legal
  rw [List.map_cons, replay_cons] at hv
  obtain ⟨u, hu, hrest⟩ := Option.bind_eq_some_iff.mp hv
  refine ⟨hk, u, hu, ?_, hl.ordered.of_cons, Option.isSome_iff_exists.mpr ⟨v, hrest⟩⟩
  have herase : (P.erase h).filter (fun i => decide (key (op i) = k)) =
      (P.filter fun i => key (op i) = k).erase h := List.erase_filter.symm
  rw [herase]
  have := hl.perm.erase h
  rwa [List.erase_cons_head] at this

/-- Orders of the single objects can be merged, one first operation at a time.

**Proof sketch.** Induction on the number of operations. Among the first operations of the single
orders there is one that no operation has to precede (`exists_first`). It is put first; taken away,
it leaves orders of the single objects. -/
lemma linearizable_product_of_forall :
    ∀ {P : List ι} {f : κ → σ}, (∀ i ∈ P, call i ≤ ret i) →
      (∀ k, Linearizable step op (fun i j => ret i < call j) (f k)
        (P.filter fun i => key (op i) = k)) →
      Linearizable (product step key) op (fun i j => ret i < call j) f P := by
  intro P
  induction hn : P.length generalizing P with
  | zero =>
    intro f _ _
    rw [List.length_eq_zero_iff.mp hn]
    exact ⟨[], List.Perm.refl _, List.Pairwise.nil, rfl⟩
  | succ n ih =>
    intro f hint hall
    have hne : P ≠ [] := fun h => by simp [h] at hn
    obtain ⟨h, hhP, hfirst, t, ht⟩ := exists_first hint hne hall
    obtain ⟨-, u, hu, ht'⟩ := ht.uncons
    have hlen : (P.erase h).length = n := by
      rw [List.length_erase_of_mem hhP, hn, Nat.add_sub_cancel]
    have hrest : ∀ k, Linearizable step op (fun i j => ret i < call j)
        (Function.update f (key (op h)) u k) ((P.erase h).filter fun i => key (op i) = k) := by
      intro k
      by_cases hk : k = key (op h)
      · subst hk
        rw [Function.update_self]
        exact ⟨t, ht'⟩
      · rw [Function.update_of_ne hk]
        have hsame : (P.erase h).filter (fun i => decide (key (op i) = k)) =
            P.filter fun i => key (op i) = k := by
          rw [← List.erase_filter, List.erase_of_not_mem]
          simp [Ne.symm hk]
        rw [hsame]
        exact hall k
    obtain ⟨l, hl⟩ := ih hlen (fun i hi => hint i (List.mem_of_mem_erase hi)) hrest
    refine ⟨h :: l, (hl.perm.cons h).trans (List.perm_cons_erase hhP).symm, ?_, ?_⟩
    · refine List.pairwise_cons.mpr ⟨fun i hi => ?_, hl.ordered⟩
      exact hfirst i (List.mem_of_mem_erase (hl.perm.mem_iff.mp hi))
    · have hstep : product step key f (op h) = some (Function.update f (key (op h)) u) :=
        product_eq_some.mpr ⟨u, hu, rfl⟩
      rw [List.map_cons, replay_cons, hstep]
      exact hl.legal

/-- **Locality.** A history over independent objects is linearizable exactly when, for every object,
its part on that object is. -/
theorem linearizable_product_iff (hint : ∀ i ∈ P, call i ≤ ret i) :
    Linearizable (product step key) op (fun i j => ret i < call j) f P ↔
      ∀ k, Linearizable step op (fun i j => ret i < call j) (f k)
        (P.filter fun i => key (op i) = k) :=
  ⟨fun ⟨_, hl⟩ k => ⟨_, hl.filter k⟩, linearizable_product_of_forall hint⟩

end Locality

end Linearization
