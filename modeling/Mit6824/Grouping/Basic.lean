import Mathlib.Data.List.Nodup
import Mathlib.Data.List.Perm.Basic
import Mathlib.Order.Lattice
import Mathlib.Tactic.Common

set_option autoImplicit false

/-!
# Grouping a sorted list by key

The runs of a list are its maximal blocks of neighbours with equal keys. In a list sorted by key
every key has one run, which holds everything with that key, so a summary of the runs by a function
that ignores the order inside a run depends only on the elements of the list. In particular it can
be computed part by part as long as no key is spread over two parts.

## Main definitions

* `Grouping.runs` — the runs of a list, each with its key.
* `Grouping.SortedBy` — the list is sorted by key.
* `Grouping.summary` — one value for every run.
* `Grouping.runEnd` — where a run ends.

## Main results

* `Grouping.mem_runs` — the runs of a sorted list are its filters by key.
* `Grouping.filter_summary` — a summary has one value for every key that occurs, and no others.
* `Grouping.eq_summary_of_loop` — a loop that goes from run to run computes the summary.
* `Grouping.summary_flatten_perm` — summaries of parts make up the summary of the whole.
-/

namespace Grouping

variable {α β κ : Type*}

/-- The runs of equal neighbouring keys, from left to right. -/
def runs [DecidableEq κ] (key : α → κ) : List α → List (κ × List α)
  | [] => []
  | a :: l =>
    (key a, a :: l.takeWhile fun b => key b = key a) ::
      runs key (l.dropWhile fun b => key b = key a)
termination_by l => l.length
decreasing_by
  exact Nat.lt_succ_of_le (List.dropWhile_suffix _).length_le

variable [LinearOrder κ] {key : α → κ} {l l' : List α} {k : κ}

/-- Keys do not decrease along the list. -/
def SortedBy (key : α → κ) (l : List α) : Prop := l.Pairwise fun a b => key a ≤ key b

/-- A part of a sorted list is sorted. -/
lemma SortedBy.sublist (h : SortedBy key l) (hsub : l'.Sublist l) : SortedBy key l' :=
  List.Pairwise.sublist hsub h

/-! ## The first run -/

/-- In a sorted list whose keys are at least `k`, the elements with key `k` stand in front. -/
lemma SortedBy.takeWhile_eq_filter (h : SortedBy key l) (hk : ∀ b ∈ l, k ≤ key b) :
    l.takeWhile (fun b => key b = k) = l.filter fun b => key b = k := by
  induction l with
  | nil => rfl
  | cons b l ih =>
    obtain ⟨hb, hl⟩ := List.pairwise_cons.mp h
    have hkl : ∀ c ∈ l, k ≤ key c := fun c hc => hk c (List.mem_cons_of_mem _ hc)
    by_cases heq : key b = k
    · simp [heq, ih hl hkl]
    · have hlt : k < key b := lt_of_le_of_ne (hk b List.mem_cons_self) (Ne.symm heq)
      have hnone : l.filter (fun c => key c = k) = [] := by
        rw [List.filter_eq_nil_iff]
        intro c hc
        simpa using ne_of_gt (lt_of_lt_of_le hlt (hb c hc))
      simp [heq, hnone]

/-- In a sorted list the elements with the smallest key stand at the front, so that dropping them
from the front drops them all. -/
lemma SortedBy.dropWhile_eq_filter (h : SortedBy key l) (hk : ∀ b ∈ l, k ≤ key b) :
    l.dropWhile (fun b => key b = k) = l.filter fun b => key b ≠ k := by
  induction l with
  | nil => rfl
  | cons b l ih =>
    obtain ⟨hb, hl⟩ := List.pairwise_cons.mp h
    by_cases heq : key b = k
    · simp [heq, ih hl fun c hc => hk c (List.mem_cons_of_mem _ hc)]
    · have hlt : k < key b := lt_of_le_of_ne (hk b List.mem_cons_self) (Ne.symm heq)
      have hall : l.filter (fun c => key c ≠ k) = l := by
        rw [List.filter_eq_self]
        intro c hc
        simpa using ne_of_gt (lt_of_lt_of_le hlt (hb c hc))
      rw [List.dropWhile_cons_of_neg (by simpa using heq),
        List.filter_cons_of_pos (by simpa using heq), hall]

/-- The runs of a sorted list: the elements with the first key, and the runs of the others. -/
lemma runs_cons {a : α} (h : SortedBy key (a :: l)) :
    runs key (a :: l) = (key a, (a :: l).filter fun b => key b = key a) ::
      runs key (l.filter fun b => key b ≠ key a) := by
  obtain ⟨ha, hl⟩ := List.pairwise_cons.mp h
  rw [runs, SortedBy.takeWhile_eq_filter hl ha, SortedBy.dropWhile_eq_filter hl ha]
  simp

/-! ## All runs of a sorted list -/

/-- **The runs of a sorted list** are its filters by the keys that occur.

**Proof sketch.** Induction on the length: the first run is the filter by the first key, and the
remaining runs are those of the list without that key. -/
theorem mem_runs : ∀ {l : List α}, SortedBy key l → ∀ (k : κ) (as : List α),
    (k, as) ∈ runs key l ↔ (∃ a ∈ l, key a = k) ∧ as = l.filter fun b => key b = k
  | [], _, k, as => by simp [runs]
  | a :: l, h, k, as => by
    have hrest : SortedBy key (l.filter fun b => key b ≠ key a) :=
      h.sublist (List.filter_sublist.trans (List.sublist_cons_self a l))
    have ih := mem_runs hrest k as
    rw [runs_cons h, List.mem_cons, ih, Prod.mk.injEq]
    by_cases hk : k = key a
    · subst hk
      constructor
      · rintro (⟨-, rfl⟩ | ⟨⟨b, hb, heq⟩, -⟩)
        · exact ⟨⟨a, List.mem_cons_self, rfl⟩, rfl⟩
        · simp [heq] at hb
      · rintro ⟨-, rfl⟩
        exact Or.inl ⟨rfl, rfl⟩
    · have hfilter : (l.filter fun b => key b ≠ key a).filter (fun b => key b = k) =
          l.filter fun b => key b = k := by
        rw [List.filter_filter]
        refine List.filter_congr fun b _ => ?_
        by_cases hb : key b = k
        · simp [hb, hk]
        · simp [hb]
      have hcons : (a :: l).filter (fun b => key b = k) = l.filter fun b => key b = k :=
        List.filter_cons_of_neg (by simpa using Ne.symm hk)
      rw [hfilter, hcons]
      constructor
      · rintro (⟨heq, -⟩ | ⟨⟨b, hb, heq⟩, has⟩)
        · exact absurd heq hk
        · exact ⟨⟨b, List.mem_cons_of_mem _ (List.mem_of_mem_filter hb), heq⟩, has⟩
      · rintro ⟨⟨b, hb, rfl⟩, has⟩
        rcases List.mem_cons.mp hb with rfl | hb
        · exact absurd rfl hk
        · exact Or.inr ⟨⟨b, List.mem_filter.mpr ⟨hb, by simpa using hk⟩, rfl⟩, has⟩
termination_by l => l.length
decreasing_by
  exact Nat.lt_succ_of_le (List.length_filter_le _ _)

/-- The keys of the runs of a sorted list increase strictly. -/
theorem runs_keys_sorted : ∀ {l : List α}, SortedBy key l →
    ((runs key l).map Prod.fst).Pairwise (· < ·)
  | [], _ => by simp [runs]
  | a :: l, h => by
    have hrest : SortedBy key (l.filter fun b => key b ≠ key a) :=
      h.sublist (List.filter_sublist.trans (List.sublist_cons_self a l))
    rw [runs_cons h, List.map_cons, List.pairwise_cons]
    refine ⟨fun k hk => ?_, runs_keys_sorted hrest⟩
    obtain ⟨⟨k, as⟩, hmem, rfl⟩ := List.mem_map.mp hk
    obtain ⟨b, hb, rfl⟩ := ((mem_runs hrest k as).mp hmem).1
    obtain ⟨hb, hne⟩ := List.mem_filter.mp hb
    have hle : key a ≤ key b := (List.pairwise_cons.mp h).1 b hb
    exact lt_of_le_of_ne hle (Ne.symm (by simpa using hne))
termination_by l => l.length
decreasing_by
  exact Nat.lt_succ_of_le (List.length_filter_le _ _)

/-! ## Summaries -/

/-- One value for every run. -/
def summary [DecidableEq κ] (key : α → κ) (f : κ → List α → β) (l : List α) : List (κ × β) :=
  (runs key l).map fun g => (g.1, f g.1 g.2)

variable {f : κ → List α → β}

/-- The summary of a sorted list has just one pair for each key, with the value for all elements of
that key. -/
lemma mem_summary (h : SortedBy key l) {k : κ} {b : β} :
    (k, b) ∈ summary key f l ↔
      (∃ a ∈ l, key a = k) ∧ b = f k (l.filter fun a => key a = k) := by
  simp only [summary, List.mem_map, Prod.mk.injEq, Prod.exists]
  constructor
  · rintro ⟨k, as, hmem, rfl, rfl⟩
    obtain ⟨hk, rfl⟩ := (mem_runs h k as).mp hmem
    exact ⟨hk, rfl⟩
  · rintro ⟨hk, rfl⟩
    exact ⟨k, _, (mem_runs h k _).mpr ⟨hk, rfl⟩, rfl, rfl⟩

/-- The keys of a summary are strictly increasing. -/
lemma summary_keys_sorted (h : SortedBy key l) :
    ((summary key f l).map Prod.fst).Pairwise (· < ·) := by
  have hkeys : (summary key f l).map Prod.fst = (runs key l).map Prod.fst := by
    simp [summary]
  rw [hkeys]
  exact runs_keys_sorted h

/-- A summary has no pair twice. -/
lemma summary_nodup (h : SortedBy key l) : (summary key f l).Nodup :=
  List.Nodup.of_map Prod.fst ((summary_keys_sorted h).imp ne_of_lt)

/-- **What a summary holds for a key**: one value if the key occurs, and nothing otherwise.

**Proof sketch.** Both sides have no repeats, and by `mem_summary` they have the same elements. -/
theorem filter_summary (h : SortedBy key l) (k : κ) :
    (summary key f l).filter (fun r => r.1 = k) =
      if ∃ a ∈ l, key a = k then [(k, f k (l.filter fun a => key a = k))] else [] := by
  split_ifs with hk
  · rw [← List.perm_singleton]
    refine (List.perm_ext_iff_of_nodup ((summary_nodup h).filter _)
      (List.nodup_singleton _)).mpr ?_
    rintro ⟨k', b⟩
    rw [List.mem_filter, mem_summary h, List.mem_singleton, Prod.mk.injEq, decide_eq_true_eq]
    constructor
    · rintro ⟨⟨-, rfl⟩, rfl⟩
      exact ⟨rfl, rfl⟩
    · rintro ⟨rfl, rfl⟩
      exact ⟨⟨hk, rfl⟩, rfl⟩
  · rw [List.filter_eq_nil_iff]
    rintro ⟨k', b⟩ hmem heq
    obtain rfl : k' = k := by simpa using heq
    exact hk ((mem_summary h).mp hmem).1

/-! ## A loop over places -/

/-- The first place from `j` on whose key is not `k`. -/
def runEnd [DecidableEq κ] (key : α → κ) (l : List α) (k : κ) (j : ℕ) : ℕ :=
  if h : j < l.length then
    if key l[j] = k then runEnd key l k (j + 1) else j
  else j
termination_by l.length - j

/-- From `j` to the end of the run are the elements with key `k` that follow on each other.

**Proof sketch.** Induction along the loop. An element with key `k` is taken and dropped on both
sides; at the first other one, or at the end of the list, both stop. -/
lemma runEnd_spec (key : α → κ) (l : List α) (k : κ) (j : ℕ) :
    j ≤ runEnd key l k j ∧
    (l.take (runEnd key l k j)).drop j = (l.drop j).takeWhile (fun b => key b = k) ∧
    l.drop (runEnd key l k j) = (l.drop j).dropWhile (fun b => key b = k) := by
  rw [runEnd]
  split_ifs with hlt hkey
  · obtain ⟨hle, htake, hdrop⟩ := runEnd_spec key l k (j + 1)
    refine ⟨by omega, ?_, ?_⟩
    · rw [List.drop_take, List.drop_eq_getElem_cons hlt, List.takeWhile_cons_of_pos (by simpa),
        ← htake, List.drop_take, ← List.take_succ_cons]
      congr 1
      omega
    · rw [hdrop, List.drop_eq_getElem_cons hlt, List.dropWhile_cons_of_pos (by simpa)]
  · refine ⟨le_rfl, ?_, ?_⟩
    · rw [List.drop_eq_getElem_cons hlt, List.takeWhile_cons_of_neg (by simpa)]
      simp
    · rw [List.drop_eq_getElem_cons hlt, List.dropWhile_cons_of_neg (by simpa)]
  · have hnil : l.drop j = [] := List.drop_eq_nil_of_le (by omega)
    simp [hnil]
termination_by l.length - j

/-- **A loop that goes from run to run computes the summary**: at a place before the end it gives
the value for the run that begins there and goes on behind it. -/
theorem eq_summary_of_loop {l : List α} {g : ℕ → List (κ × β)}
    (hstop : ∀ i, l.length ≤ i → g i = [])
    (hrun : ∀ i (h : i < l.length), g i =
      (key l[i], f (key l[i]) ((l.take (runEnd key l (key l[i]) (i + 1))).drop i)) ::
        g (runEnd key l (key l[i]) (i + 1))) (i : ℕ) :
    g i = summary key f (l.drop i) := by
  rcases lt_or_ge i l.length with hlt | hge
  · obtain ⟨hle, htake, hdrop⟩ := runEnd_spec key l (key l[i]) (i + 1)
    have hslice : (l.take (runEnd key l (key l[i]) (i + 1))).drop i =
        l[i] :: (l.drop (i + 1)).takeWhile fun b => key b = key l[i] := by
      rw [← htake, List.drop_take, List.drop_take, List.drop_eq_getElem_cons hlt,
        ← List.take_succ_cons]
      congr 1
      omega
    rw [hrun i hlt, hslice, eq_summary_of_loop hstop hrun, hdrop, List.drop_eq_getElem_cons hlt,
      summary, summary, runs, List.map_cons]
  · rw [hstop i hge, List.drop_eq_nil_of_le hge, summary, runs, List.map_nil]
termination_by l.length - i

/-! ## Parts of a list -/

/-- A list is put together from its classes under `g`, given once each.

**Proof sketch.** Induction on the classes. The elements of the first class are taken out of the
list; the other classes are those of the rest, since each class is given only once. -/
lemma flatMap_filter_perm {γ : Type*} [DecidableEq γ] (g : α → γ) {ks : List γ} (hks : ks.Nodup)
    {l : List α} (h : ∀ a ∈ l, g a ∈ ks) :
    (ks.flatMap fun k => l.filter fun a => g a = k).Perm l := by
  induction ks generalizing l with
  | nil =>
    cases l with
    | nil => exact .refl _
    | cons a l => exact absurd (h a List.mem_cons_self) List.not_mem_nil
  | cons k ks ih =>
    obtain ⟨hk, hks⟩ := List.nodup_cons.mp hks
    have hrest : ∀ a ∈ l.filter (fun a => !decide (g a = k)), g a ∈ ks := by
      intro a ha
      obtain ⟨ha, hne⟩ := List.mem_filter.mp ha
      exact (List.mem_cons.mp (h a ha)).resolve_left (by simpa using hne)
    have hclasses : (ks.flatMap fun k' => l.filter fun a => g a = k') =
        ks.flatMap fun k' => (l.filter fun a => !decide (g a = k)).filter fun a => g a = k' := by
      refine List.flatMap_congr fun k' hk' => ?_
      rw [List.filter_filter]
      refine List.filter_congr fun a _ => ?_
      have hne : k' ≠ k := fun heq => hk (heq ▸ hk')
      by_cases ha : g a = k'
      · simp [ha, hne]
      · simp [ha]
    rw [List.flatMap_cons, hclasses]
    exact ((ih hks hrest).append_left _).trans (List.filter_append_perm _ l)

/-- No key occurs in two of the parts. -/
def KeysApart (key : α → κ) (parts : List (List α)) : Prop :=
  parts.Pairwise fun p q => ∀ a ∈ p, ∀ b ∈ q, key a ≠ key b

/-- Everything with the key `k` stands in the part that has one such element.

**Proof sketch.** Induction on the parts; the other parts have no element with this key. -/
lemma filter_flatten {parts : List (List α)} (h : KeysApart key parts) {p : List α}
    (hp : p ∈ parts) {a : α} (ha : a ∈ p) :
    parts.flatten.filter (fun b => key b = key a) = p.filter fun b => key b = key a := by
  induction parts with
  | nil => simp at hp
  | cons q parts ih =>
    obtain ⟨hq, hparts⟩ := List.pairwise_cons.mp h
    rw [List.flatten_cons, List.filter_append]
    rcases List.mem_cons.mp hp with rfl | hp
    · have hnone : parts.flatten.filter (fun b => key b = key a) = [] := by
        rw [List.filter_eq_nil_iff]
        intro b hb
        obtain ⟨r, hr, hb⟩ := List.mem_flatten.mp hb
        simpa using (hq r hr a ha b hb).symm
      rw [hnone, List.append_nil]
    · have hnone : q.filter (fun b => key b = key a) = [] := by
        rw [List.filter_eq_nil_iff]
        intro b hb
        simpa using hq p hp b hb a ha
      rw [hnone, List.nil_append, ih hparts hp]

/-- The keys of the summaries of all parts are distinct.

**Proof sketch.** The keys of one summary are strictly sorted, and two parts have no key in common.
-/
lemma summary_flatten_keys_nodup {parts : List (List α)} (hsorted : ∀ p ∈ parts, SortedBy key p)
    (hapart : KeysApart key parts) :
    ((parts.flatMap (summary key f)).map Prod.fst).Nodup := by
  rw [List.flatMap_def, List.map_flatten, List.map_map, List.nodup_flatten]
  refine ⟨?_, ?_⟩
  · intro ks hks
    obtain ⟨p, hp, rfl⟩ := List.mem_map.mp hks
    exact (summary_keys_sorted (hsorted p hp)).imp ne_of_lt
  · rw [List.pairwise_map]
    refine (List.Pairwise.and_mem.mp hapart).imp ?_
    rintro p q ⟨hp, hq, hpq⟩ k hkp hkq
    obtain ⟨⟨k, b⟩, hb, rfl⟩ := List.mem_map.mp hkp
    obtain ⟨⟨k', c⟩, hc, hk⟩ := List.mem_map.mp hkq
    obtain rfl : k' = k := hk
    obtain ⟨⟨a, ha, hak⟩, -⟩ := (mem_summary (hsorted p hp)).mp hb
    obtain ⟨⟨a', ha', hak'⟩, -⟩ := (mem_summary (hsorted q hq)).mp hc
    exact hpq a ha a' ha' (hak.trans hak'.symm)

/-- **Summaries of parts.** If the parts together have the elements of the whole, and no key is in
two parts, then the summaries of the sorted parts together are the summary of the sorted whole,
for every `f` that ignores the order of the elements.

**Proof sketch.** Neither side has duplicates, since their keys are distinct. A pair is in the
left-hand side if its key occurs in some part and its value is `f` of the elements with this key in
that part; these are all such elements. -/
theorem summary_flatten_perm (hf : ∀ k as bs, as.Perm bs → f k as = f k bs)
    {parts : List (List α)} {whole : List α} (hsorted : ∀ p ∈ parts, SortedBy key p)
    (hwhole : SortedBy key whole) (hperm : parts.flatten.Perm whole)
    (hapart : KeysApart key parts) :
    (parts.flatMap (summary key f)).Perm (summary key f whole) := by
  have hnodup : (parts.flatMap (summary key f)).Nodup :=
    List.Nodup.of_map Prod.fst (summary_flatten_keys_nodup hsorted hapart)
  rw [List.perm_ext_iff_of_nodup hnodup (summary_nodup hwhole)]
  -- the elements with a key of the part `p` are, up to order, those of the whole
  have hvalue : ∀ p ∈ parts, ∀ a ∈ p, f (key a) (p.filter fun b => key b = key a) =
      f (key a) (whole.filter fun b => key b = key a) := by
    intro p hp a ha
    rw [← filter_flatten hapart hp ha]
    exact hf _ _ _ (hperm.filter _)
  rintro ⟨k, b⟩
  rw [mem_summary hwhole, List.mem_flatMap]
  constructor
  · rintro ⟨p, hp, hb⟩
    obtain ⟨⟨a, ha, rfl⟩, rfl⟩ := (mem_summary (hsorted p hp)).mp hb
    exact ⟨⟨a, hperm.mem_iff.mp (List.mem_flatten_of_mem hp ha), rfl⟩, hvalue p hp a ha⟩
  · rintro ⟨⟨a, ha, rfl⟩, rfl⟩
    obtain ⟨p, hp, hap⟩ := List.mem_flatten.mp (hperm.mem_iff.mpr ha)
    exact ⟨p, hp, (mem_summary (hsorted p hp)).mpr ⟨⟨a, hap, rfl⟩, (hvalue p hp a hap).symm⟩⟩

end Grouping
