import Mit6824.MapReduce.Barrier

set_option autoImplicit false

/-!
# The master never gets stuck

As long as the job is not done, something can still happen: a task can be handed out, a timer will
make one free again, or a handler has yet to register files. This needs that there is at least one
key at all, and that no reduce task is handed out too early.

## Main definitions

* `Mit6824.MapReduce.Job.Unstuck`.

## Main results

* `Mit6824.MapReduce.master_unstuck`.
* `Mit6824.MapReduce.master_stuck` — the three ways to get stuck.
-/

namespace Mit6824.MapReduce

namespace Job

variable {w : Workload} {j : Job}

/-- The task of a sleeping `recoverRequest` is not finished, so it will be made free. -/
def Unfinished (j : Job) : Assignment → Prop
  | .map task => j.master.mapTask.lookup task.fileName ≠ none
  | .reduce tasks => ∃ task ∈ tasks.head?, j.master.reduceBucket.lookup task.taskId ≠ none

/-- A map task or a reduce task can be handed out, a timer is pending for an unfinished task, or a
handler is between its two sections. -/
def Unstuck (j : Job) : Prop :=
  (j.master.isMapDone = false ∧ ∃ f num, j.master.mapTask.lookup f = some num ∧ 0 < num) ∨
  (j.master.isMapDone = true ∧ ∃ Y name, j.master.reduceBucket.lookup Y = some true ∧ 0 < Y ∧
    j.master.reduceTask.lookup name = some Y) ∨
  (∃ a ∈ j.timers, j.Unfinished a) ∨
  j.pending ≠ []

/-- A bucket that is not closed keeps the job going. -/
lemma Reducing.unstuck_of_status (h : Reducing w j) {name : String} {Y : ℤ}
    (hname : w.IsFile name Y) (hopen : j.master.reduceTask.lookup name ≠ none) : j.Unstuck := by
  cases h.status name Y hname with
  | free holds =>
    exact Or.inr (Or.inl ⟨h.mapsDone, Y, name, holds.1, hname.pos, holds.2 name hname⟩)
  | taken holds tasks timer full =>
    refine Or.inr (Or.inr (Or.inl ⟨_, timer, ?_⟩))
    obtain ⟨task, tasks, rfl⟩ := List.exists_cons_of_ne_nil full.ne_nil
    refine ⟨task, rfl, ?_⟩
    rw [full.taskId List.mem_cons_self, holds.1]
    simp
  | closed holds => exact absurd (holds.2 name hname) hopen

/-- In the reduce phase a job that is not done is not stuck.

**Proof sketch.** If no bucket is open, then no file is left in the table, and the report that
closed the last bucket has set the flag. -/
lemma Reducing.unstuck (h : Reducing w j) (hused : ∃ name Y, w.IsFile name Y)
    (hdone : j.master.done = false) : j.Unstuck := by
  by_cases hempty : ∀ name, j.master.reduceTask.lookup name = none
  · obtain ⟨name, Y, hname⟩ := hused
    have hcompleted : j.completed ≠ [] := by
      cases h.status name Y hname with
      | free holds => exact absurd ((hempty name).symm.trans (holds.2 name hname)) (by simp)
      | taken holds => exact absurd ((hempty name).symm.trans (holds.2 name hname)) (by simp)
      | closed holds tasks completed => exact List.ne_nil_of_mem completed
    exact absurd ((h.last hcompleted hempty).symm.trans hdone) (by decide)
  · obtain ⟨name, hname⟩ := not_forall.mp hempty
    obtain ⟨v, hv⟩ := Option.ne_none_iff_exists'.mp hname
    obtain ⟨Y, hY⟩ := h.file name v hv
    exact h.unstuck_of_status hY hname

/-- In the map phase some task is left, free or watched. -/
lemma Mapping.unstuck (h : Mapping w j) (hfiles : w.files ≠ [])
    (phase : j.master.isMapDone = false) : j.Unstuck := by
  obtain ⟨f, hf⟩ := h.unfinished hfiles phase
  obtain ⟨num, hnum⟩ := Option.ne_none_iff_exists'.mp hf
  rcases lt_or_ge 0 num with hpos | hneg
  · exact Or.inl ⟨phase, f, num, hnum, hpos⟩
  · obtain ⟨X, hX, hval⟩ := h.entry f num hnum
    have hXpos := Workload.taskId_pos hX
    obtain ⟨t, ht, rfl⟩ := h.watched f num hnum (by omega)
    exact Or.inr (Or.inr (Or.inl ⟨.map t, ht, hf⟩))

/-- Nothing can happen with empty tables and nothing on the way. -/
lemma not_unstuck (hmap : j.master.mapTask.entries.isEmpty = true)
    (hbucket : j.master.reduceBucket.entries.isEmpty = true) (htimers : j.timers = [])
    (hpending : j.pending = []) : ¬ j.Unstuck := by
  rw [isEmpty_entries_iff] at hmap hbucket
  rintro (⟨-, f, num, hnum, -⟩ | ⟨-, Y, name, hY, -⟩ | ⟨a, ha, -⟩ | hne)
  · simp [hmap f] at hnum
  · simp [hbucket Y] at hY
  · simp [htimers] at ha
  · exact hne hpending

end Job

/-- **The master never gets stuck**, if some map task emits a key and no reduce task is handed out
while a `TaskFinished` handler is between its two sections.

**Proof sketch.** In the map phase some task is free or has a timer. Then there is a handler on the
way, or all files are registered and some bucket is free or has a timer, since a key was emitted and
the job is not done. -/
theorem master_unstuck (w : Workload) {f : String} (hf : f ∈ w.files) (hkeys : w.output f ≠ [])
    {j : Job} (h : Transition.Reach (Job.step w) Job.Calm (Job.init w) j)
    (hdone : j.master.done = false) : j.Unstuck := by
  obtain ⟨hmap, hphase⟩ := Job.invariant_of_reach h
  have hused : ∃ name Y, w.IsFile name Y := by
    obtain ⟨kv, hkv⟩ := List.exists_mem_of_ne_nil _ hkeys
    obtain ⟨X, hX⟩ := Option.ne_none_iff_exists'.mp (Workload.taskId_ne_none hf)
    exact ⟨_, region w.hash w.nReduce kv, f, X, hX,
      (mem_regionMap w.hash w.nReduce _ _).mpr ⟨kv, hkv, rfl⟩, rfl⟩
  cases hover : j.master.isMapDone with
  | false => exact hmap.unstuck (List.ne_nil_of_mem hf) hover
  | true =>
    by_cases hcalm : j.pending = []
    · rcases hphase with hcollecting | hreducing
      · exact (hcollecting.reducing hmap hover hcalm).unstuck hused hdone
      · exact hreducing.unstuck hused hdone
    · exact Or.inr (Or.inr (Or.inr hcalm))

/-- In the middle of a job: both map tasks are finished and their files are registered. -/
theorem master_unstuck_first : ∃ j,
    Transition.Reach (Job.step twoFiles) Job.Calm (Job.init twoFiles) j ∧
    j.master.done = false ∧ j.Unstuck := by
  obtain ⟨j, hj, hdone⟩ := Job.exists_of_events twoFiles (P := Job.Calm)
    (p := fun j => j.master.done = false) (lastHandlerBetween ++ [.registerFiles 0])
    (by decide +kernel)
  exact ⟨j, hj, hdone, master_unstuck twoFiles (f := "a") (by decide) (by decide) hj hdone⟩

/-- One file without any key. -/
def noKeys : Workload := { twoFiles with files := ["a"], output := fun _ => [] }

/-- No file at all. -/
def noFiles : Workload := { twoFiles with files := [] }

/-- **Three ways to get stuck.** The only map task emits no key: the map phase ends, but no reduce
task ever will. There is no map task, so the map phase never ends. And the reduce task is handed out
while the last handler is between its sections: its completion deletes the bucket, and the file
registered meanwhile has none. -/
theorem master_stuck :
    (∃ j, Transition.Reach (Job.step noKeys) (fun _ _ => True) (Job.init noKeys) j ∧
      j.master.done = false ∧ ¬ j.Unstuck) ∧
    (∃ j, Transition.Reach (Job.step noFiles) (fun _ _ => True) (Job.init noFiles) j ∧
      j.master.done = false ∧ ¬ j.Unstuck) ∧
    ∃ j, Transition.Reach (Job.step twoFiles) (fun _ _ => True) (Job.init twoFiles) j ∧
      j.master.done = false ∧ ¬ j.Unstuck := by
  have hstuck : ∀ (w : Workload) (es : List Event),
      ((Transition.stepsIf (Job.step w) (fun _ _ => True) (Job.init w) es).any fun j => decide
        (j.master.done = false ∧ j.master.mapTask.entries.isEmpty = true ∧
          j.master.reduceBucket.entries.isEmpty = true ∧ j.timers = [] ∧ j.pending = [])) = true →
      ∃ j, Transition.Reach (Job.step w) (fun _ _ => True) (Job.init w) j ∧
        j.master.done = false ∧ ¬ j.Unstuck := by
    intro w es hes
    obtain ⟨j, hj, hdone, hmap, hbucket, htimers, hpending⟩ := Job.exists_of_events w es hes
    exact ⟨j, hj, hdone, Job.not_unstuck hmap hbucket htimers hpending⟩
  refine ⟨hstuck noKeys [.getMapTask "a", .taskFinished (.map ⟨"a", 1⟩) ⟨.mapTask, [⟨"a", 1, []⟩]⟩,
      .registerFiles 0, .recoverRequest 0] (by decide +kernel),
    hstuck noFiles [] (by decide +kernel),
    hstuck twoFiles (lastHandlerBetween ++ [.getReduceTask 1 [⟨"mr-1-1", 1⟩], .registerFiles 0,
      .taskFinished (.reduce [⟨"mr-1-1", 1⟩]) ⟨.reduceTask, [⟨"mr-1-1", 1, [1]⟩]⟩,
      .recoverRequest 0, .recoverRequest 0, .recoverRequest 0]) (by decide +kernel)⟩

end Mit6824.MapReduce
