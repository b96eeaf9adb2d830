import Mit6824.Transition.Bounded
import Mit6824.Transition.Simulation
import Mit6824.Raft.Sharing
import Mit6824.Raft.Shape

set_option autoImplicit false

/-!
# Encoded requests

A run over the shared memory in which no entry that is still to be encoded is overwritten is a run
of the system with copies, and every run with copies is such a run. Without the condition, requests
still have the indexes with which they were built.

## Main definitions

* `Mit6824.Memory.Holds` — the logs are in their arrays, and the views of requests have the labels
  of their entries.
* `Mit6824.SharedRun` — runs of a cluster over the shared memory.

## Main results

* `Mit6824.Host.reach_of_shared` — without disturbance the system runs as if requests were copies.
* `Mit6824.Host.exists_shared` — a run with copies is one in which requests are encoded at once.
* `Mit6824.Host.logIndex_kept`, `Mit6824.Shared.inSequence_of_reach` — in every run the cells of the
  arrays keep their indexes, so that the logs stay in sequence.
-/

namespace Mit6824

open Slices

variable {n : ℕ} {Cmd Snap : Type}

/-! ## Steps of the cluster, with the messages in their places -/

section Steps

variable [DecidableEq Cmd] [DecidableEq Snap] {c d : Cluster n Cmd Snap} {l : Label n Cmd Snap}

/-- The entries of a request are the last ones of the log it is built from. -/
lemma Node.suffix_of_sends {nd : Node n Cmd Snap} {inp : Input n Cmd Snap}
    {o : NodeOutcome n Cmd Snap} (ho : nd.exec inp = some o) {dst : Fin n}
    {args : AppendEntriesArgs n Cmd} (hm : .appendEntries dst args ∈ (Node.finish o).sends) :
    args.entries <:+ (Node.finish o).node.rf.logs := by
  cases (Node.exec_handled ho).sent _ hm with
  | append bt hb args hbuild hrf =>
    rw [hrf]
    obtain ⟨-, last, ld, -, -, ⟨-, rfl⟩ | ⟨prev, -, -, -, rfl⟩⟩ := Raft.buildAppend_eq_some hbuild
    · exact List.nil_suffix
    · exact List.drop_suffix _ _

/-- A reply carries the request that was delivered.

**Proof sketch.** Only replies to `AppendEntries` could differ, and the handler puts into its reply
the request that it was given. -/
lemma Cluster.answer_eq (h : c.step l = some d) : c.answer l d = d := by
  cases l with
  | lose k => rfl
  | act i ev => rfl
  | recv k g =>
    cases hk : c.net[k]? with
    | none => simp [Cluster.step, Cluster.pick, hk] at h
    | some m =>
      have hlt := (List.getElem?_eq_some_iff.mp hk).1
      have hlen : (c.net.eraseIdx k).length = c.net.length - 1 := List.length_eraseIdx_of_lt hlt
      simp only [Cluster.step, Cluster.pick, hk, Option.map_some] at h
      obtain ⟨o, ho, rfl⟩ := Option.map_eq_some_iff.mp h
      have hsends : ∀ m' ∈ (Node.finish o).sends, Msg.answering (some m) m' = m' := by
        cases m with
        | appendEntries dst args =>
          obtain rfl := Option.some.inj ho
          cases hout : (c.nodes dst).rf.appendEntries args <;>
            simp [Msg.dst, Node.critical, Node.finish, hout, Msg.answering]
        | _ => exact fun m' _ => rfl
      simp only [Cluster.answer, Cluster.put, Cluster.dropMsg, hk, ← hlen, List.take_left,
        List.drop_left]
      rw [List.map_congr_left hsends, List.map_id']

end Steps

/-! ## What the memory says about the messages -/

section Holds

variable {β : Type}

/-- The view of a request has the labels of its entries. -/
def Memory.Carries (f : LogEntry Cmd → β) (mem : Memory n Cmd) :
    Msg n Cmd Snap → Option (Sharing n Cmd) → Prop
  | .appendEntries _ args, some sh => sh.slice.length = args.entries.length ∧
      (sh.slice.view (mem.arrays sh.owner)).map f = args.entries.map f
  | .appendEntries _ _, none => False
  | _, o => o = none

/-- The logs are in their arrays, and the views of all requests have the labels with which they were
built. -/
structure Memory.Holds (f : LogEntry Cmd → β) (mem : Memory n Cmd) (c : Cluster n Cmd Snap) :
    Prop where
  logs : ∀ i, (c.nodes i).rf.logs <+: (mem.arrays i).present.cells
  slices : List.Forall₂ (mem.Carries f) c.net mem.slices

/-- The same place of two lists. -/
lemma exists_of_forall₂ {γ δ : Type} {R : γ → δ → Prop} {l : List γ} {l' : List δ}
    (h : List.Forall₂ R l l') {k : ℕ} {a : γ} (ha : l[k]? = some a) :
    ∃ b, l'[k]? = some b ∧ R a b := by
  induction h generalizing k with
  | nil => simp at ha
  | cons hR _ ih =>
    cases k with
    | zero =>
      obtain rfl := Option.some.inj ha
      exact ⟨_, rfl, hR⟩
    | succ k => exact ih ha

/-- The relation may change with the elements of the second list. -/
lemma forall₂_of_mem {γ δ : Type} {R R' : γ → δ → Prop} {l : List γ} {l' : List δ}
    (h : List.Forall₂ R l l') (hR : ∀ a, ∀ b ∈ l', R a b → R' a b) : List.Forall₂ R' l l' := by
  induction h with
  | nil => exact .nil
  | cons hab _ ih =>
    exact .cons (hR _ _ (List.mem_cons_self ..) hab)
      (ih fun a b hb => hR a b (List.mem_cons_of_mem _ hb))

/-- An element of the second list is replaced. -/
lemma forall₂_set {γ δ : Type} {R : γ → δ → Prop} {l : List γ} {l' : List δ}
    (h : List.Forall₂ R l l') {k : ℕ} {b b' : δ} (hb : l'[k]? = some b)
    (hR : ∀ a, R a b → R a b') : List.Forall₂ R l (l'.set k b') := by
  induction h generalizing k with
  | nil => simp at hb
  | cons hab htail ih =>
    cases k with
    | zero =>
      obtain rfl := Option.some.inj hb
      exact .cons (hR _ hab) htail
    | succ k => exact .cons hab (ih hb)

/-- An element of the first list is replaced. -/
lemma forall₂_modify {γ δ : Type} {R : γ → δ → Prop} {l : List γ} {l' : List δ}
    (h : List.Forall₂ R l l') {k : ℕ} {g : γ → γ}
    (hR : ∀ a b, l[k]? = some a → l'[k]? = some b → R a b → R (g a) b) :
    List.Forall₂ R (l.modify k g) l' := by
  induction h generalizing k with
  | nil => simp
  | cons hab htail ih =>
    cases k with
    | zero => exact .cons (hR _ _ rfl rfl hab) htail
    | succ k => exact .cons hab (ih hR)

/-- A sum becomes smaller with one of its terms. -/
lemma sum_map_set_lt {γ : Type} {μ : γ → ℕ} {l : List γ} {k : ℕ} {a b : γ} (ha : l[k]? = some a)
    (hlt : μ b < μ a) : ((l.set k b).map μ).sum < (l.map μ).sum := by
  induction l generalizing k with
  | nil => simp at ha
  | cons x l ih =>
    cases k with
    | zero =>
      obtain rfl := Option.some.inj ha
      simpa using hlt
    | succ k => simpa using ih ha

/-- Taking a message out of both lists. -/
lemma forall₂_remove {γ δ : Type} {R : γ → δ → Prop} {xs : List γ} {ys : List δ}
    (h : List.Forall₂ R xs ys) (l : Label n Cmd Snap) :
    List.Forall₂ R (l.remove xs) (l.remove ys) := by
  have herase : ∀ k, List.Forall₂ R (xs.eraseIdx k) (ys.eraseIdx k) := by
    intro k
    rw [List.eraseIdx_eq_take_drop_succ, List.eraseIdx_eq_take_drop_succ]
    exact List.rel_append (List.forall₂_take k h) (List.forall₂_drop (k + 1) h)
  cases l with
  | act i ev => exact h
  | recv k g => exact herase k
  | lose k => exact herase k

namespace Memory

variable {f : LogEntry Cmd → β} {mem mem' : Memory n Cmd} {c d : Cluster n Cmd Snap}
  {l : Label n Cmd Snap}

/-- The memory of new servers. -/
lemma Holds.init (spare : Fin n → ℕ) :
    (init spare).Holds f (Cluster.init : Cluster n Cmd Snap) where
  logs _ := List.prefix_rfl
  slices := .nil

/-- What is said about a message depends on its view only. -/
lemma Carries.of_view {m : Msg n Cmd Snap} {o : Option (Sharing n Cmd)} (h : mem.Carries f m o)
    (hview : ∀ sh ∈ o, (sh.slice.view (mem'.arrays sh.owner)).map f =
      (sh.slice.view (mem.arrays sh.owner)).map f) : mem'.Carries f m o := by
  cases m with
  | appendEntries dst args =>
    cases o with
    | none => exact h
    | some sh => exact ⟨h.1, (hview sh rfl).trans h.2⟩
  | _ => exact h

/-- The view of a slice is as long as the slice. -/
lemma Carries.length_view {m : Msg n Cmd Snap} {sh : Sharing n Cmd}
    (h : mem.Carries f m (some sh)) :
    (sh.slice.view (mem.arrays sh.owner)).length = sh.slice.length := by
  cases m with
  | appendEntries dst args =>
    have hlen := congrArg List.length h.2
    rw [List.length_map, List.length_map] at hlen
    rw [hlen, h.1]
  | _ => exact absurd h (Option.some_ne_none sh)

/-- What has just been sent is in the present array. -/
lemma carries_share {i : Fin n} {logs : List (LogEntry Cmd)} {m : Msg n Cmd Snap}
    (hlogs : logs <+: (mem.arrays i).present.cells)
    (hm : ∀ dst args, m = .appendEntries dst args → args.entries <:+ logs) :
    mem.Carries f m (share i (mem.arrays i) logs.length m) := by
  cases m with
  | appendEntries dst args =>
    obtain ⟨front, rfl⟩ := hm dst args rfl
    have hview := Arrays.view_slice hlogs front.length
    rw [List.length_append, Nat.add_sub_cancel_left, List.drop_left] at hview
    refine ⟨rfl, ?_⟩
    simp only [List.length_append, Nat.add_sub_cancel]
    rw [hview]
  | _ => rfl

variable [DecidableEq Cmd] [DecidableEq Snap]

/-- The log of the server that has made a step is in its array. -/
lemma logs_after {i : Fin n} {inp : Input n Cmd Snap} {c' : Cluster n Cmd Snap}
    (hpick : c.pick l = some (i, inp, c')) (spare : ℕ) :
    (d.nodes i).rf.logs <+: ((mem.after c l d spare).arrays i).present.cells := by
  simp only [after, hpick, Function.update_self]
  split_ifs
  · exact List.prefix_rfl
  · exact Arrays.prefix_store _ _ _

/-- The arrays of the other servers. -/
lemma arrays_after_of_ne {i j : Fin n} {inp : Input n Cmd Snap} {c' : Cluster n Cmd Snap}
    (hpick : c.pick l = some (i, inp, c')) (hj : j ≠ i) (spare : ℕ) :
    (mem.after c l d spare).arrays j = mem.arrays j := by
  simp only [after, hpick, Function.update_of_ne hj]

/-- **A step keeps the memory in order**, if it keeps the labels of all views.

**Proof sketch.** Only the array of the server that steps changes. The views of old requests keep
their labels by assumption, and new requests are views of the present log. -/
lemma Holds.after (h : mem.Holds f c) {i : Fin n} {inp : Input n Cmd Snap}
    {c' : Cluster n Cmd Snap} (hpick : c.pick l = some (i, inp, c'))
    (hnodes : ∀ j ≠ i, (d.nodes j).rf.logs = (c.nodes j).rf.logs) {new : List (Msg n Cmd Snap)}
    (hnet : d.net = l.remove c.net ++ new)
    (hnew : ∀ dst args, .appendEntries dst args ∈ new → args.entries <:+ (d.nodes i).rf.logs)
    {spare : ℕ} (hview : ∀ o ∈ mem.slices, ∀ sh ∈ o,
      (sh.slice.view ((mem.after c l d spare).arrays sh.owner)).map f =
        (sh.slice.view (mem.arrays sh.owner)).map f) : (mem.after c l d spare).Holds f d := by
  refine ⟨fun j => ?_, ?_⟩
  · by_cases hj : j = i
    · subst hj
      exact logs_after hpick spare
    · rw [hnodes j hj, arrays_after_of_ne hpick hj]
      exact h.logs j
  · have hslices : (mem.after c l d spare).slices = l.remove mem.slices ++
        new.map (share i ((mem.after c l d spare).arrays i) (d.nodes i).rf.logs.length) := by
      simp only [Memory.after, hpick, Function.update_self, hnet, List.drop_left]
    rw [hnet, hslices]
    refine List.rel_append ?_ ?_
    · exact forall₂_remove (forall₂_of_mem h.slices fun m o ho hm => hm.of_view (hview o ho)) l
    · rw [List.forall₂_map_right_iff, List.forall₂_same]
      intro m hm
      exact carries_share (logs_after hpick spare) fun dst args heq => hnew dst args (heq ▸ hm)

/-- The loss of a message. -/
lemma Holds.lose (h : mem.Holds f c) (hpick : c.pick l = none) (hnodes : d.nodes = c.nodes)
    (hnet : d.net = l.remove c.net) (spare : ℕ) : (mem.after c l d spare).Holds f d := by
  have hmem : mem.after c l d spare = { mem with slices := l.remove mem.slices } := by
    simp only [Memory.after, hpick]
  rw [hmem]
  refine ⟨fun i => by rw [hnodes]; exact h.logs i, ?_⟩
  rw [hnet]
  exact forall₂_remove h.slices l

omit [DecidableEq Cmd] [DecidableEq Snap] in
/-- Encoding writes to no array. -/
lemma arrays_encode {k : ℕ} (hk : mem.encode k = some mem') : mem'.arrays = mem.arrays := by
  unfold Memory.encode at hk
  split at hk
  · obtain ⟨sl, -, rfl⟩ := Option.map_eq_some_iff.mp hk
    rfl
  · simp at hk

omit [DecidableEq Cmd] [DecidableEq Snap] in
/-- **Encoding an entry** changes no view. -/
lemma Holds.encode (h : mem.Holds f c) {k : ℕ} (hk : mem.encode k = some mem') :
    mem'.Holds f c := by
  unfold Memory.encode at hk
  split at hk
  · rename_i sh hsh
    obtain ⟨sl, hsl, rfl⟩ := Option.map_eq_some_iff.mp hk
    refine ⟨h.logs, forall₂_set ?_ hsh fun m hm => ?_⟩
    · exact h.slices
    · cases m with
      | appendEntries dst args =>
        obtain ⟨-, -, hlen, -⟩ := Slice.next_eq hsl
        exact ⟨hlen.trans hm.1, by rw [← hm.2, ← Slice.view_next hsl]⟩
      | _ => exact absurd hm (Option.some_ne_none sh)
  · simp at hk

omit [DecidableEq Cmd] [DecidableEq Snap] in
/-- A request that has been encoded has the labels with which it was built. -/
lemma Carries.decoded {m : Msg n Cmd Snap} {o : Option (Sharing n Cmd)} (h : mem.Carries f m o)
    (hdone : ∀ sh ∈ o, sh.slice.Done) : mem.Carries f (m.decoded o) o := by
  cases m with
  | appendEntries dst args =>
    cases o with
    | none => exact h
    | some sh =>
      have hread := (hdone sh rfl).view_eq (mem.arrays sh.owner)
      refine ⟨?_, congrArg (List.map f) hread⟩
      rw [← h.length_view, hread]
  | _ => exact h

omit [DecidableEq Cmd] [DecidableEq Snap] in
/-- A request that has been encoded without being disturbed is as it was built. -/
lemma Carries.decoded_eq {m : Msg n Cmd Snap} {o : Option (Sharing n Cmd)}
    (h : mem.Carries id m o) (hdone : ∀ sh ∈ o, sh.slice.Done) : m.decoded o = m := by
  cases m with
  | appendEntries dst args =>
    cases o with
    | none => rfl
    | some sh =>
      have hread := (hdone sh rfl).view_eq (mem.arrays sh.owner)
      have hview := h.2
      rw [List.map_id, List.map_id, hread] at hview
      simp only [Msg.decoded, hview]
  | _ => rfl

omit [DecidableEq Cmd] [DecidableEq Snap] in
/-- The cluster as a step finds it has the labels too. -/
lemma Holds.decode (h : mem.Holds f c) (hready : mem.Ready l) : mem.Holds f (c.decode mem l) := by
  cases l with
  | recv k g =>
    refine ⟨h.logs, forall₂_modify h.slices fun m o _ ho hm => ?_⟩
    rw [ho]
    exact hm.decoded fun sh hsh => hready sh (by rw [ho]; exact hsh)
  | _ => exact h

omit [DecidableEq Cmd] [DecidableEq Snap] in
/-- Undisturbed requests are delivered as they were built.

**Proof sketch.** Only the request that is delivered is decoded, and it has been encoded as it was
built. -/
lemma Holds.decode_eq (h : mem.Holds id c) (hready : mem.Ready l) : c.decode mem l = c := by
  cases l with
  | recv k g =>
    have hnet : c.net.modify k (fun m => m.decoded (mem.slices[k]?).join) = c.net := by
      refine List.ext_getElem? fun j => ?_
      rw [List.getElem?_modify]
      split_ifs with hj
      · subst hj
        cases hm : c.net[k]? with
        | none => rfl
        | some m =>
          obtain ⟨o, ho, hcarries⟩ := exists_of_forall₂ h.slices hm
          rw [ho]
          exact congrArg some (hcarries.decoded_eq fun sh hsh => hready sh (by rw [ho]; exact hsh))
      · simp
    simp only [Cluster.decode, hnet]
  | _ => rfl

/-- A step of the cluster that disturbs no request keeps the memory in order. -/
lemma Holds.step (h : mem.Holds id c) (hstep : c.step l = some d) {spare : ℕ}
    (hmem : mem.Undisturbed (mem.after c l d spare)) : (mem.after c l d spare).Holds id d := by
  rcases Cluster.step_places hstep with ⟨hpick, hnodes, hnet⟩ |
    ⟨i, inp, c', o, hpick, -, ho, hnodes, hnet⟩
  · exact h.lose hpick hnodes hnet spare
  · refine h.after hpick (fun j hj => ?_) hnet (fun dst args hm => ?_) fun o ho sh hsh => ?_
    · rw [hnodes, Cluster.nodes_after_of_ne c hj]
    · rw [hnodes, Cluster.nodes_after_self]
      exact Node.suffix_of_sends ho hm
    · rw [Slice.view, Slice.view, hmem o ho sh hsh]

end Memory

end Holds

/-! ## Runs without disturbance -/

namespace Host

variable {S E : Type} [DecidableEq Cmd] [DecidableEq Snap] {H : Host n Cmd Snap S E}
  {P : S → E → Prop} {x y : Shared n Cmd S}

/-- The memory of a system is in order, and undisturbed. -/
def Undisturbed (H : Host n Cmd Snap S E) (x : Shared n Cmd S) : Prop :=
  x.memory.Holds id (H.cluster x.state)

/-- An undisturbed system is found as it is. -/
lemma Undisturbed.seen_eq (h : H.Undisturbed x) {ev : E}
    (hready : ∀ l ∈ H.label x.state ev, x.memory.Ready l) : H.seen x ev = x.state := by
  unfold seen
  split
  · rename_i l hl
    rw [Memory.Holds.decode_eq h (hready l hl), H.put_cluster]
  · rfl

/-- **An undisturbed step of the system** is a step with copies.

**Proof sketch.** What the system sees of a request that has been encoded is the request. So the
step is one of the system with copies, and memory and requests still agree, because no unread cell
has changed. -/
lemma Undisturbed.step_run (h : H.Undisturbed x) {ev : E} {spare : ℕ}
    (hP : H.Fresh P x (.run ev spare)) (hstep : H.sharedStep x (.run ev spare) = some y) :
    H.Undisturbed y ∧ P x.state ev ∧ H.step x.state ev = some y.state := by
  have hquiet := hP.2 y hstep
  simp only [sharedStep] at hstep
  split_ifs at hstep with hready
  obtain ⟨s, hs, rfl⟩ := Option.map_eq_some_iff.mp hstep
  have hseen := h.seen_eq hready
  have hPs : P (H.seen x ev) ev := hP.1
  rw [hseen] at hs hPs
  unfold Undisturbed
  unfold settle at hquiet ⊢
  cases hl : H.label x.state ev with
  | none =>
    simp only [hl] at hquiet ⊢
    refine ⟨?_, hPs, hs⟩
    rw [H.step_other hs hl]
    exact h
  | some l =>
    have hcstep := H.step_label hs hl
    simp only [hl, hseen, Cluster.answer_eq hcstep, H.put_cluster] at hquiet ⊢
    exact ⟨Memory.Holds.step h hcstep hquiet, hPs, hs⟩

/-- One undisturbed step is a step of the system, or changes only the memory. -/
lemma Undisturbed.step (h : H.Undisturbed x) {ev : SharedEvent E} (hP : H.Fresh P x ev)
    (hstep : H.sharedStep x ev = some y) :
    H.Undisturbed y ∧ Transition.Reach H.step P x.state y.state := by
  cases ev with
  | encode k =>
    obtain ⟨mem, hmem, rfl⟩ := Option.map_eq_some_iff.mp hstep
    exact ⟨Memory.Holds.encode h hmem, .refl⟩
  | run ev spare =>
    obtain ⟨hy, hPs, hs⟩ := h.step_run hP hstep
    exact ⟨hy, .single ev hPs hs⟩

/-- **Without disturbance the system runs as if requests were copies.** -/
theorem reach_of_shared (hx : H.Undisturbed x)
    (h : Transition.Reach H.sharedStep (H.Fresh P) x y) :
    H.Undisturbed y ∧ Transition.Reach H.step P x.state y.state := by
  induction h with
  | refl => exact ⟨hx, .refl⟩
  | tail ev _ hP hstep ih =>
    obtain ⟨hy, hreach⟩ := ih
    obtain ⟨hz, hnext⟩ := hy.step hP hstep
    exact ⟨hz, hreach.trans hnext⟩

/-! ## Runs with copies -/

/-- Every request has been encoded. -/
def Encoded (x : Shared n Cmd S) : Prop := ∀ o ∈ x.memory.slices, ∀ sh ∈ o, sh.slice.Done

/-- How many entries are still to be encoded. -/
def left (x : Shared n Cmd S) : ℕ :=
  (x.memory.slices.map fun o => o.elim 0 fun sh => sh.slice.length - sh.slice.read.length).sum

/-- Requests can be encoded.

**Proof sketch.** Encoding the next cell of a slice makes the number of unread cells smaller, and
does not change the state. So it ends with all slices encoded. -/
lemma Undisturbed.exists_encoded (h : H.Undisturbed x) :
    ∃ y, Transition.Reach H.sharedStep (H.Fresh P) x y ∧
      (H.Undisturbed y ∧ y.state = x.state) ∧ Encoded y := by
  refine Transition.Reach.exists_of_measure
    (I := fun y => H.Undisturbed y ∧ y.state = x.state) left (fun y hy hnot => ?_) ⟨h, rfl⟩
  obtain ⟨hy, hstate⟩ := hy
  obtain ⟨o, ho, sh, rfl, hdone⟩ : ∃ o ∈ y.memory.slices, ∃ sh ∈ o, ¬ sh.slice.Done := by
    simpa [Encoded] using hnot
  obtain ⟨k, hk⟩ := List.getElem?_of_mem ho
  obtain ⟨m, -, hm⟩ := exists_of_forall₂ hy.slices.flip hk
  have hm : y.memory.Carries id m (some sh) := hm
  obtain ⟨sl, hsl⟩ : ∃ sl, sh.slice.next (y.memory.arrays sh.owner) = some sl :=
    Slice.exists_next hm.length_view hdone
  have hencode : y.memory.encode k =
      some { y.memory with slices := y.memory.slices.set k (some ⟨sh.owner, sl⟩) } := by
    simp only [Memory.encode, hk, hsl, Option.map_some]
  refine ⟨⟨y.state, { y.memory with slices := y.memory.slices.set k (some ⟨sh.owner, sl⟩) }⟩,
    .single (.encode k) ⟨trivial, fun z hz => ?_⟩ ?_, ⟨Memory.Holds.encode hy hencode, hstate⟩, ?_⟩
  · obtain ⟨mem, hmem, rfl⟩ := Option.map_eq_some_iff.mp hz
    intro o _ sh _
    rw [Memory.arrays_encode hmem]
  · simp only [sharedStep, hencode, Option.map_some]
  · refine sum_map_set_lt hk ?_
    obtain ⟨-, -, hlen, hread⟩ := Slice.next_eq hsl
    unfold Slice.Done at hdone
    simp only [Option.elim]
    omega

/-- A step of the system when every request has been encoded.

**Proof sketch.** An encoded request can be delivered, and what is delivered is the request. Nothing
is unread, so the step disturbs nothing. -/
lemma Undisturbed.exists_run (h : H.Undisturbed x) (hdone : Encoded x) {ev : E} {s : S}
    (hP : P x.state ev) (hstep : H.step x.state ev = some s) :
    ∃ mem, H.Fresh P x (.run ev 0) ∧ H.sharedStep x (.run ev 0) = some ⟨s, mem⟩ := by
  have hready : ∀ l ∈ H.label x.state ev, x.memory.Ready l := by
    intro l _
    cases l with
    | recv k g =>
      intro sh hsh
      have hk : x.memory.slices[k]? = some (some sh) := Option.join_eq_some_iff.mp hsh
      exact hdone _ (List.mem_of_getElem? hk) sh rfl
    | _ => trivial
  have hseen := h.seen_eq hready
  have hrun : H.sharedStep x (.run ev 0) = some (H.settle x ev 0 s) := by
    simp only [sharedStep, if_pos hready, hseen, hstep, Option.map_some]
  have hstate : (H.settle x ev 0 s).state = s := by
    unfold settle
    split
    · rename_i l hl
      simp only [Cluster.answer_eq (H.step_label hstep hl), H.put_cluster]
    · rfl
  refine ⟨(H.settle x ev 0 s).memory, ⟨?_, fun y hy o ho sh hsh => ?_⟩, ?_⟩
  · simp only [Meets, hseen]
    exact hP
  · rw [(hdone o ho sh hsh).unread_eq, (hdone o ho sh hsh).unread_eq]
  · rw [hrun]
    exact congrArg (fun t => some (⟨t, (H.settle x ev 0 s).memory⟩ : Shared n Cmd S)) hstate

/-- **A run with copies is an undisturbed run**, in which every request is encoded before the next
step. -/
theorem exists_shared (hx : H.Undisturbed x) {s : S} (h : Transition.Reach H.step P x.state s) :
    ∃ mem, Transition.Reach H.sharedStep (H.Fresh P) x ⟨s, mem⟩ ∧
      Encoded (⟨s, mem⟩ : Shared n Cmd S) := by
  have hencode : ∀ s mem, Transition.Reach H.sharedStep (H.Fresh P) x ⟨s, mem⟩ →
      ∃ mem', Transition.Reach H.sharedStep (H.Fresh P) x ⟨s, mem'⟩ ∧
        Encoded (⟨s, mem'⟩ : Shared n Cmd S) := by
    intro s mem hreach
    obtain ⟨⟨_, mem'⟩, hnext, ⟨-, rfl⟩, hdone⟩ :=
      (reach_of_shared hx hreach).1.exists_encoded (P := P)
    exact ⟨mem', hreach.trans hnext, hdone⟩
  induction h with
  | refl => exact hencode x.state x.memory .refl
  | tail ev _ hP hstep ih =>
    obtain ⟨mem, hreach, hdone⟩ := ih
    obtain ⟨mem', hfresh, hnext⟩ := (reach_of_shared hx hreach).1.exists_run hdone hP hstep
    exact hencode _ mem' (.tail (.run ev 0) hreach hfresh hnext)

end Host

/-! ## Indexes are kept -/

/-- The message is in sequence as its receiver decodes it. -/
lemma SequentMsg.decoded {mem : Memory n Cmd} {m : Msg n Cmd Snap} {o : Option (Sharing n Cmd)}
    (h : SequentMsg m) (hm : mem.Carries LogEntry.logIndex m o)
    (hdone : ∀ sh ∈ o, sh.slice.Done) : SequentMsg (m.decoded o) := by
  cases m with
  | appendEntries dst args =>
    cases o with
    | none => exact h
    | some sh =>
      intro prev hprev
      have hread := (hdone sh rfl).view_eq (mem.arrays sh.owner)
      exact (h prev hprev).congr (hread ▸ hm.2)
  | _ => exact h

/-- New messages after they have been addressed to their calls: requests as they were, and
replies. -/
lemma Cluster.net_answer {c d : Cluster n Cmd Snap} {mem : Memory n Cmd} {l : Label n Cmd Snap}
    {p : Fin n × Input n Cmd Snap × Cluster n Cmd Snap} (hpick : (c.decode mem l).pick l = some p)
    {new : List (Msg n Cmd Snap)} (hnet : d.net = l.remove (c.decode mem l).net ++ new) :
    ∃ new', (c.answer l d).net = l.remove (c.decode mem l).net ++ new' ∧
      ∀ m ∈ new', m ∈ new ∨ ∃ src args reply, m = .appendEntriesReply src args reply := by
  cases l with
  | recv k g =>
    have hlt : k < (c.decode mem (.recv k g)).net.length := by
      by_contra hge
      simp [Cluster.pick, List.getElem?_eq_none (not_lt.mp hge)] at hpick
    have hlen : ((c.decode mem (.recv k g)).net.eraseIdx k).length = c.net.length - 1 := by
      rw [List.length_eraseIdx_of_lt hlt]
      simp [Cluster.decode]
    refine ⟨new.map (Msg.answering c.net[k]?), ?_, fun m hm => ?_⟩
    · simp only [Cluster.answer, Label.remove, ← hlen, hnet, List.take_left, List.drop_left]
    · obtain ⟨m', hm', rfl⟩ := List.mem_map.mp hm
      unfold Msg.answering
      split
      · exact Or.inr ⟨_, _, _, rfl⟩
      · exact Or.inl hm'
  | _ => exact ⟨new, hnet, fun m hm => Or.inl hm⟩

/-- Requests are in sequence when replies have been addressed to their calls. -/
lemma AllInSequence.answer {d : Cluster n Cmd Snap} (h : AllInSequence d)
    (c : Cluster n Cmd Snap) (l : Label n Cmd Snap) : AllInSequence (c.answer l d) := by
  cases l with
  | recv k g =>
    refine ⟨h.saved, h.nodes, fun m hm => ?_⟩
    rcases List.mem_append.mp hm with hm | hm
    · exact h.net m (List.mem_of_mem_take hm)
    · obtain ⟨m', hm', rfl⟩ := List.mem_map.mp hm
      unfold Msg.answering
      split
      · trivial
      · exact h.net _ (List.mem_of_mem_drop hm')
  | _ => exact h

namespace Memory

/-- The logs are in sequence, in their arrays, and so are the requests. -/
structure Indexed (mem : Memory n Cmd) (c : Cluster n Cmd Snap) : Prop where
  sequence : AllInSequence c
  arrays : ∀ i, Consecutive (c.nodes i).rf.lastIncludedIndex (mem.arrays i).present.cells
  holds : mem.Holds LogEntry.logIndex c

/-- New servers. -/
lemma Indexed.init (spare : Fin n → ℕ) :
    (init spare).Indexed (Cluster.init : Cluster n Cmd Snap) where
  sequence := .init
  arrays _ := Consecutive.singleton rfl
  holds := .init spare

variable {mem : Memory n Cmd} {c d : Cluster n Cmd Snap} {l : Label n Cmd Snap}

/-- The cluster as a step finds it. -/
lemma Indexed.decode (h : mem.Indexed c) (hready : mem.Ready l) : mem.Indexed (c.decode mem l) := by
  refine ⟨?_, by cases l <;> exact h.arrays, h.holds.decode hready⟩
  cases l with
  | recv k g =>
    refine ⟨h.sequence.saved, h.sequence.nodes, ((List.forall₂_and_left _ _).mp
      (forall₂_modify ((List.forall₂_and_left _ _).mpr ⟨h.sequence.net, h.holds.slices⟩)
        fun m o _ ho hm => ?_)).1⟩
    have hdone : ∀ sh ∈ o, sh.slice.Done := fun sh hsh => hready sh (by rw [ho]; exact hsh)
    rw [ho]
    exact ⟨hm.1.decoded hm.2 hdone, hm.2.decoded hdone⟩
  | _ => exact h.sequence

variable [DecidableEq Cmd] [DecidableEq Snap]

omit [DecidableEq Cmd] [DecidableEq Snap] in
/-- Writing a log with the same first index keeps the indexes of the cells. -/
lemma extends_store {as : Arrays (LogEntry Cmd)} {base : ℕ} {logs : List (LogEntry Cmd)}
    (has : Consecutive base as.present.cells) (hlogs : Consecutive base logs) (spare : ℕ) :
    Arrays.Extends LogEntry.logIndex as (as.store logs spare) := by
  refine Arrays.extends_store ?_ spare
  rcases Nat.le_total logs.length as.present.cells.length with hle | hle
  · exact Or.inl (hlogs.prefix_of_length_le has hle)
  · exact Or.inr (has.prefix_of_length_le hlogs hle)

omit [DecidableEq Cmd] [DecidableEq Snap] in
/-- The array that a log was written to is in sequence. -/
lemma consecutive_store {as : Arrays (LogEntry Cmd)} {base : ℕ} {logs : List (LogEntry Cmd)}
    (has : Consecutive base as.present.cells) (hlogs : Consecutive base logs) (spare : ℕ) :
    Consecutive base (as.store logs spare).present.cells := by
  unfold Arrays.store
  split_ifs
  · exact hlogs.append (has.drop logs.length)
  · exact hlogs

/-- An array that is not new belongs to the same snapshot. -/
lemma base_eq_of_renews {nd nd' : Node n Cmd Snap} {inp : Input n Cmd Snap}
    (h : ¬ nd.renews inp nd' = true) :
    nd'.rf.lastIncludedIndex = nd.rf.lastIncludedIndex := by
  simp only [Node.renews, Bool.or_eq_true, bne_iff_ne, ne_eq, not_or, not_not] at h
  exact h.2

/-- The cells keep their indexes when a server writes its log.

**Proof sketch.** Only the server that steps writes. With the same base it writes entries into the
cells of their indexes; otherwise it moves to a new array. -/
lemma Indexed.extends_after (h : mem.Indexed c) (hseq : ∀ i, (d.nodes i).rf.InSequence)
    (spare : ℕ) (j : Fin n) :
    Arrays.Extends LogEntry.logIndex (mem.arrays j) ((mem.after c l d spare).arrays j) := by
  cases hpick : c.pick l with
  | none =>
    simp only [after, hpick]
    exact fun k => List.prefix_rfl
  | some p =>
    obtain ⟨i, inp, c'⟩ := p
    by_cases hj : j = i
    · subst hj
      simp only [after, hpick, Function.update_self]
      split_ifs with hrenew
      · exact Arrays.extends_move _ _ _ _
      · exact extends_store (h.arrays j) (base_eq_of_renews hrenew ▸ hseq j) spare
    · rw [arrays_after_of_ne hpick hj]
      exact fun k => List.prefix_rfl

/-- The loss of a message keeps the indexes. -/
lemma Indexed.lose (h : mem.Indexed c) (hpick : c.pick l = none) (hnodes : d.nodes = c.nodes)
    (hnet : d.net = l.remove c.net) (spare : ℕ) : (mem.after c l d spare).Indexed d := by
  refine ⟨h.sequence.lose hnodes (hnet ▸ l.remove_subset _), fun j => ?_,
    h.holds.lose hpick hnodes hnet spare⟩
  simp only [after, hpick, hnodes]
  exact h.arrays j

section After

variable {i : Fin n} {inp : Input n Cmd Snap} {c' : Cluster n Cmd Snap}

/-- The arrays are in sequence after a server has written its log. -/
lemma Indexed.consecutive_after (h : mem.Indexed c) (hpick : c.pick l = some (i, inp, c'))
    (hseq : (d.nodes i).rf.InSequence) (hnodes : ∀ j ≠ i, d.nodes j = c.nodes j) (spare : ℕ)
    (j : Fin n) : Consecutive (d.nodes j).rf.lastIncludedIndex
      ((mem.after c l d spare).arrays j).present.cells := by
  by_cases hj : j = i
  · subst hj
    simp only [after, hpick, Function.update_self]
    split_ifs with hrenew
    · exact hseq
    · have hbase := base_eq_of_renews hrenew
      rw [hbase]
      exact consecutive_store (h.arrays j) (hbase ▸ hseq) spare
  · rw [arrays_after_of_ne hpick hj, hnodes j hj]
    exact h.arrays j

/-- A server that writes its log and sends requests with the end of it keeps the indexes. -/
lemma Indexed.after (h : mem.Indexed c) (hpick : c.pick l = some (i, inp, c'))
    (hseq : AllInSequence d) (hnodes : ∀ j ≠ i, d.nodes j = c.nodes j)
    {new : List (Msg n Cmd Snap)} (hnet : d.net = l.remove c.net ++ new)
    (hnew : ∀ dst args, .appendEntries dst args ∈ new → args.entries <:+ (d.nodes i).rf.logs)
    (spare : ℕ) : (mem.after c l d spare).Indexed d := by
  refine ⟨hseq, h.consecutive_after hpick (hseq.nodes i) hnodes spare,
    h.holds.after hpick (fun j hj => by rw [hnodes j hj]) hnet hnew fun o ho sh hsh => ?_⟩
  obtain ⟨k, hk⟩ := List.getElem?_of_mem ho
  obtain ⟨m, -, hm⟩ := exists_of_forall₂ h.holds.slices.flip hk
  obtain rfl := hsh
  have hm : mem.Carries LogEntry.logIndex m (some sh) := hm
  exact Slice.map_view_of_extends (h.extends_after hseq.nodes spare sh.owner) hm.length_view

end After

/-- **A step keeps the indexes**, whatever it overwrites.

**Proof sketch.** What is delivered has the indexes with which it was built, so that all logs are in
sequence after the step. A log with the same snapshot is written to cells with the same indexes, and
the views of requests keep theirs with the cells. -/
lemma Indexed.step (h : mem.Indexed c) (hready : mem.Ready l)
    (hstep : (c.decode mem l).step l = some d) (spare : ℕ) :
    (mem.after (c.decode mem l) l (c.answer l d) spare).Indexed (c.answer l d) ∧
      ∀ i, Arrays.Extends LogEntry.logIndex (mem.arrays i)
        ((mem.after (c.decode mem l) l (c.answer l d) spare).arrays i) := by
  have hdec := h.decode hready
  have hseq : AllInSequence (c.answer l d) := (hdec.sequence.step hstep).answer c l
  refine ⟨?_, hdec.extends_after hseq.nodes spare⟩
  rcases Cluster.step_places hstep with ⟨hpick, hsame, hnet⟩ |
    ⟨i, inp, c', o, hpick, -, ho, hnodes, hnet⟩
  · -- a message is lost, and no reply is sent
    have hanswer : c.answer l d = d := by
      cases l with
      | recv k g => simp [Cluster.step, hpick] at hstep
      | _ => rfl
    rw [hanswer]
    exact hdec.lose hpick hsame hnet spare
  · have hanswer : (c.answer l d).nodes = d.nodes := by cases l <;> rfl
    obtain ⟨new, hnet', hnew⟩ := Cluster.net_answer hpick hnet
    refine hdec.after hpick hseq (fun j hj => ?_) hnet' (fun dst args hm => ?_) spare
    · rw [hanswer, hnodes, Cluster.nodes_after_of_ne _ hj]
    · rw [hanswer, hnodes, Cluster.nodes_after_self]
      obtain hm | ⟨src, args', reply, heq⟩ := hnew _ hm
      · exact Node.suffix_of_sends ho hm
      · simp at heq

end Memory

namespace Host

variable {S E : Type} [DecidableEq Cmd] [DecidableEq Snap] {H : Host n Cmd Snap S E}
  {x y : Shared n Cmd S}

/-- **Cells keep their indexes.** In every run over the shared memory, whatever is overwritten: the
cells of every array keep their `LogIndex`, and what requests look like to their receivers has the
indexes with which they were built.

**Proof sketch.** Induction on the run. Encoding changes no array. A step of the system writes
entries with the indexes of their cells (`Memory.Indexed.step`), and a step without a label leaves
the arrays alone. -/
theorem logIndex_kept {Q : Shared n Cmd S → SharedEvent E → Prop}
    (hx : x.memory.Indexed (H.cluster x.state)) (h : Transition.Reach H.sharedStep Q x y) :
    y.memory.Indexed (H.cluster y.state) ∧
      ∀ i, Arrays.Extends LogEntry.logIndex (x.memory.arrays i) (y.memory.arrays i) := by
  induction h with
  | refl => exact ⟨hx, fun i k => List.prefix_rfl⟩
  | @tail y z ev _ _ hstep ih =>
    obtain ⟨hy, hext⟩ := ih
    have hnext : z.memory.Indexed (H.cluster z.state) ∧
        ∀ i, Arrays.Extends LogEntry.logIndex (y.memory.arrays i) (z.memory.arrays i) := by
      cases ev with
      | encode k =>
        obtain ⟨mem, hmem, rfl⟩ := Option.map_eq_some_iff.mp hstep
        have harrays := Memory.arrays_encode hmem
        refine ⟨⟨hy.sequence, ?_, hy.holds.encode hmem⟩, fun i k => ?_⟩
        · rw [harrays]
          exact hy.arrays
        · rw [harrays]
      | run ev spare =>
        simp only [sharedStep] at hstep
        split_ifs at hstep with hready
        obtain ⟨s, hs, rfl⟩ := Option.map_eq_some_iff.mp hstep
        unfold settle
        cases hl : H.label y.state ev with
        | none =>
          simp only [seen, hl] at hs ⊢
          rw [H.step_other hs hl]
          exact ⟨hy, fun i k => List.prefix_rfl⟩
        | some l =>
          simp only [seen, hl] at hs ⊢
          have hcstep := H.step_label hs (l := l) (by rw [H.label_put, hl])
          rw [H.cluster_put] at hcstep
          rw [H.cluster_put, H.cluster_put]
          exact hy.step (hready l hl) hcstep spare
    exact ⟨hnext.1, fun i k => (hext i k).trans (hnext.2 i k)⟩

end Host

/-! ## Runs of a cluster over the shared memory -/

section Cluster

variable [DecidableEq Cmd] [DecidableEq Snap]

/-- A cluster by itself. -/
def Cluster.host : Host n Cmd Snap (Cluster n Cmd Snap) (Label n Cmd Snap) where
  step := Cluster.step
  cluster := id
  put _ c := c
  label _ l := some l
  put_cluster _ := rfl
  cluster_put _ _ := rfl
  label_put _ _ _ := rfl
  step_label hstep hl := by
    obtain rfl := Option.some.inj hl
    exact hstep
  step_other _ hl := by simp at hl

/-- New servers, with some room in the arrays of their logs. -/
def Shared.init (spare : Fin n → ℕ) : Shared n Cmd (Cluster n Cmd Snap) := ⟨.init, .init spare⟩

/-- Runs over the shared memory whose steps all meet a condition, and in which no entry that is
still to be encoded is overwritten. -/
def SharedRun (P : Node n Cmd Snap → Input n Cmd Snap → Prop) :
    Shared n Cmd (Cluster n Cmd Snap) → Shared n Cmd (Cluster n Cmd Snap) → Prop :=
  Transition.Reach Cluster.host.sharedStep (Cluster.host.Fresh (StepMeets P))

variable {P Q : Node n Cmd Snap → Input n Cmd Snap → Prop} {spare : Fin n → ℕ}
  {x y : Shared n Cmd (Cluster n Cmd Snap)} {c : Cluster n Cmd Snap}

/-- The memory of new servers is in order. -/
lemma undisturbed_init :
    Cluster.host.Undisturbed (Shared.init spare : Shared n Cmd (Cluster n Cmd Snap)) :=
  Memory.Holds.init spare

/-- In every run of new servers over the shared memory, whatever is overwritten, the logs and the
requests stay in sequence. -/
theorem Shared.inSequence_of_reach
    {R : Shared n Cmd (Cluster n Cmd Snap) → SharedEvent (Label n Cmd Snap) → Prop}
    (h : Transition.Reach Cluster.host.sharedStep R (.init spare) x) : AllInSequence x.state :=
  (Host.logIndex_kept (Memory.Indexed.init spare) h).1.sequence

/-- A run of new servers over the shared memory is a run with copies. -/
lemma SharedRun.run (h : SharedRun P (.init spare) x) :
    Cluster.host.Undisturbed x ∧ Run P Cluster.init x.state := by
  obtain ⟨hx, hreach⟩ := Host.reach_of_shared undisturbed_init h
  exact ⟨hx, run_iff_reach.mpr hreach⟩

/-- A run with copies, over the shared memory. -/
lemma Run.exists_shared (h : Run P Cluster.init c) (spare : Fin n → ℕ) :
    ∃ mem, SharedRun P (.init spare) ⟨c, mem⟩ := by
  obtain ⟨mem, hmem, -⟩ := Host.exists_shared (x := .init spare) undisturbed_init
    (run_iff_reach.mp h)
  exact ⟨mem, hmem⟩

/-- A run with copies and one step more. -/
lemma Run.exists_shared_step {d : Cluster n Cmd Snap} {l : Label n Cmd Snap}
    (h : Run P Cluster.init c) (hP : StepMeets P c l) (hstep : c.step l = some d)
    (spare : Fin n → ℕ) : ∃ mem mem', SharedRun P (.init spare) ⟨c, mem⟩ ∧
      Cluster.host.Fresh (StepMeets P) ⟨c, mem⟩ (.run l 0) ∧
      Cluster.host.sharedStep ⟨c, mem⟩ (.run l 0) = some ⟨d, mem'⟩ := by
  obtain ⟨mem, hmem, hdone⟩ := Host.exists_shared (x := .init spare) undisturbed_init
    (run_iff_reach.mp h)
  obtain ⟨mem', hfresh, hnext⟩ :=
    (Host.reach_of_shared undisturbed_init hmem).1.exists_run hdone hP hstep
  exact ⟨mem, mem', hmem, hfresh, hnext⟩

/-- What a computed sequence of steps ends in, over the shared memory. -/
lemma Cluster.exists_shared_of_steps (ls : List (Label n Cmd Snap)) {p : Cluster n Cmd Snap → Prop}
    [DecidablePred p] (h : ((Cluster.init.steps ls).any fun d => decide (p d)) = true)
    (spare : Fin n → ℕ) : ∃ d, Cluster.init.steps ls = some d ∧
      (∃ mem, SharedRun (fun _ _ => True) (.init spare) ⟨d, mem⟩) ∧ p d := by
  obtain ⟨d, hd, hp⟩ := Cluster.exists_of_steps ls h
  exact ⟨d, hd, (Run.of_steps hd).exists_shared spare, hp⟩

end Cluster

end Mit6824
