import Mit6824.MapReduce.Moves

set_option autoImplicit false

/-!
# The barrier between the two phases

`TaskFinished` ends the map phase in one critical section and registers the last files in another
one. If no reduce task is handed out in between, every reduce task gets all files of its bucket,
and the job ends only when all of them have been reduced.

## Main definitions

* `Mit6824.MapReduce.Job.Collecting`, `Mit6824.MapReduce.Job.Reducing` — the invariant before and
  after the first reduce task is handed out.

## Main results

* `Mit6824.MapReduce.phase_barrier`.
-/

namespace Mit6824.MapReduce

/-! ## The tables of a bucket -/

namespace Master

variable {w : Workload} {m : Master} {Y Z : ℤ} {tasks : List AssignTask}

/-- The flag of bucket `Y` is `flag`, and all its files have the entry `v`. -/
def Holds (m : Master) (w : Workload) (Y : ℤ) (flag : Option Bool) (v : Option ℤ) : Prop :=
  m.reduceBucket.lookup Y = flag ∧ ∀ name, w.IsFile name Y → m.reduceTask.lookup name = v

/-- Two masters that agree on the tables of a bucket. -/
lemma Holds.congr {m' : Master} {flag : Option Bool} {v : Option ℤ} (h : m.Holds w Y flag v)
    (hbucket : m'.reduceBucket.lookup Y = m.reduceBucket.lookup Y)
    (htask : ∀ name, w.IsFile name Y → m'.reduceTask.lookup name = m.reduceTask.lookup name) :
    m'.Holds w Y flag v :=
  ⟨hbucket.trans h.1, fun name hname => (htask name hname).trans (h.2 name hname)⟩

/-- Handing out a bucket takes its files and no others. -/
lemma lookup_takeBucket (h : w.Full Z tasks) (name : String) [Decidable (w.IsFile name Z)] :
    (m.takeBucket Z tasks).reduceTask.lookup name =
      if w.IsFile name Z then some (-Z) else m.reduceTask.lookup name := by
  unfold takeBucket
  dsimp only
  rw [lookup_foldl_insert AssignTask.fileName fun t ht => congrArg Neg.neg (h.taskId ht)]
  exact if_congr (h.mem_names name) rfl rfl

/-- Making a bucket free frees its files and no others. -/
lemma lookup_freeBucket (h : w.Full Z tasks) (name : String) [Decidable (w.IsFile name Z)] :
    (m.freeBucket Z tasks).reduceTask.lookup name =
      if w.IsFile name Z then some Z else m.reduceTask.lookup name := by
  unfold freeBucket
  dsimp only
  rw [lookup_foldl_insert AssignTask.fileName fun t ht => h.taskId ht]
  exact if_congr (h.mem_names name) rfl rfl

/-- The report on a bucket deletes its files and no others. -/
lemma lookup_closeBucket (h : w.Full Z tasks) (name : String) [Decidable (w.IsFile name Z)] :
    (m.closeBucket Z (tasks.map Job.reduced)).reduceTask.lookup name =
      if w.IsFile name Z then none else m.reduceTask.lookup name := by
  unfold closeBucket
  dsimp only
  rw [lookup_foldl_erase FinishTask.fileName, List.map_map]
  exact if_congr (h.mem_names name) rfl rfl

end Master

namespace Job

variable {w : Workload} {j j' : Job}

/-! ## Before the first reduce task -/

/-- What holds as long as no reduce task has been handed out: the tables have free files only, and
the files of a finished map task are in them or its handler is still on the way. -/
structure Collecting (w : Workload) (j : Job) : Prop where
  assigned : ∀ tasks, .reduce tasks ∉ j.assigned
  timer : ∀ tasks, .reduce tasks ∉ j.timers
  completed : j.completed = []
  notDone : j.master.isReduceDone = false
  file : ∀ name v, j.master.reduceTask.lookup name = some v → w.IsFile name v
  bucket : ∀ Y b, j.master.reduceBucket.lookup Y = some b → b = true ∧ ∃ name, w.IsFile name Y
  registered : ∀ f X, w.taskId f = some X → j.master.mapTask.lookup f = none →
    (∃ nums, [⟨f, X, nums⟩] ∈ j.pending) ∨ ∀ Y ∈ w.buckets f, j.master.Registered X Y

/-- Nothing has been collected at the start. -/
lemma Collecting.init (w : Workload) : Collecting w (Job.init w) where
  assigned _ := List.not_mem_nil
  timer _ := List.not_mem_nil
  completed := rfl
  notDone := rfl
  file name v h := by simp [Job.init, makeMaster] at h
  bucket Y b h := by simp [Job.init, makeMaster] at h
  registered f X hX hnone := absurd (hX.symm.trans hnone) (by simp)

/-- The moves that neither touch the reduce tables nor finish a map task. -/
lemma Collecting.congr (h : Collecting w j)
    (hassigned : ∀ tasks, .reduce tasks ∈ j'.assigned → .reduce tasks ∈ j.assigned)
    (htimers : ∀ tasks, .reduce tasks ∈ j'.timers → .reduce tasks ∈ j.timers)
    (hcompleted : j'.completed = j.completed)
    (hdone : j'.master.isReduceDone = j.master.isReduceDone)
    (htask : j'.master.reduceTask = j.master.reduceTask)
    (hbucket : j'.master.reduceBucket = j.master.reduceBucket)
    (hfinished : ∀ f X, w.taskId f = some X → j'.master.mapTask.lookup f = none →
      j.master.mapTask.lookup f = none ∨ ∃ nums, [⟨f, X, nums⟩] ∈ j'.pending)
    (hpending : ∀ p ∈ j.pending, p ∈ j'.pending) : Collecting w j' where
  assigned tasks ht := h.assigned tasks (hassigned tasks ht)
  timer tasks ht := h.timer tasks (htimers tasks ht)
  completed := hcompleted.trans h.completed
  notDone := hdone.trans h.notDone
  file name v hv := h.file name v (htask ▸ hv)
  bucket Y b hb := h.bucket Y b (hbucket ▸ hb)
  registered f X hX hnone := by
    rcases hfinished f X hX hnone with hnone | hpend
    · rcases h.registered f X hX hnone with ⟨nums, hnums⟩ | hreg
      · exact Or.inl ⟨nums, hpending _ hnums⟩
      · refine Or.inr fun Y hY => ?_
        rw [Master.Registered, htask, hbucket]
        exact hreg Y hY
    · exact Or.inl hpend

/-- A handler registers the files of its task.

**Proof sketch.** The handler has the report of a map task. Its files are in the tables afterwards,
and a file of another task has another name, so it is where it was. A finished task is still in a
handler, or this was its handler and its files are registered. -/
lemma Collecting.registerFiles (h : Collecting w j) (hmap : Mapping w j) {k : ℕ}
    {tasks : List FinishTask} (handler : j.pending[k]? = some tasks) :
    Collecting w { j with
      master := j.master.registerFiles tasks, pending := j.pending.eraseIdx k } := by
  obtain ⟨f₀, X₀, nums₀, hX₀, hperm, rfl⟩ := hmap.handler tasks (List.mem_of_getElem? handler)
  obtain ⟨hmapTask, -, hdone⟩ := j.master.registerFiles_frame [⟨f₀, X₀, nums₀⟩]
  have hX₀pos := (Workload.taskId_pos hX₀).le
  have hfile : ∀ Y ∈ nums₀, w.IsFile (numberToStr X₀ Y) Y :=
    fun Y hY => ⟨f₀, X₀, hX₀, hperm.mem_iff.mp hY, rfl⟩
  have hpos : ∀ Y ∈ nums₀, 0 ≤ Y := fun Y hY => (hfile Y hY).pos.le
  -- a file that was registered before still is
  have hkeep : ∀ X Y, (∃ f, w.taskId f = some X ∧ Y ∈ w.buckets f) → j.master.Registered X Y →
      (j.master.registerFiles [⟨f₀, X₀, nums₀⟩]).Registered X Y := by
    rintro X Y ⟨f, hX, hY⟩ ⟨hb, ht⟩
    refine ⟨?_, ?_⟩
    · rw [Master.lookup_reduceBucket_registerFiles]
      split_ifs
      · rfl
      · exact hb
    · by_cases hname : ∃ Y' ∈ nums₀, numberToStr X Y = numberToStr X₀ Y'
      · obtain ⟨Y', hY', heq⟩ := hname
        obtain ⟨rfl, rfl⟩ := (numberToStr_inj (Workload.taskId_pos hX).le hX₀pos
          (Workload.buckets_pos hY).le (hpos Y' hY')).mp heq
        exact Master.lookup_reduceTask_registerFiles hX₀pos hpos hY'
      · rw [Master.lookup_reduceTask_registerFiles_of_ne fun Y' hY' heq => hname ⟨Y', hY', heq⟩]
        exact ht
  refine ⟨h.assigned, h.timer, h.completed, hdone.trans h.notDone, ?_, ?_, ?_⟩
  · intro name v hv
    by_cases hname : ∃ Y ∈ nums₀, name = numberToStr X₀ Y
    · obtain ⟨Y, hY, rfl⟩ := hname
      rw [Master.lookup_reduceTask_registerFiles hX₀pos hpos hY] at hv
      exact Option.some.inj hv ▸ hfile Y hY
    · rw [Master.lookup_reduceTask_registerFiles_of_ne fun Y hY heq => hname ⟨Y, hY, heq⟩] at hv
      exact h.file name v hv
  · intro Y b hb
    rw [Master.lookup_reduceBucket_registerFiles] at hb
    split_ifs at hb with hY
    · exact ⟨(Option.some.inj hb).symm, _, hfile Y hY⟩
    · exact h.bucket Y b hb
  · intro f X hX hnone
    rw [show (j.master.registerFiles _).mapTask = _ from hmapTask] at hnone
    rcases h.registered f X hX hnone with ⟨nums, hnums⟩ | hreg
    · by_cases heq : ([⟨f, X, nums⟩] : List FinishTask) = [⟨f₀, X₀, nums₀⟩]
      · obtain ⟨rfl, rfl, rfl⟩ : f = f₀ ∧ X = X₀ ∧ nums = nums₀ := by simpa using heq
        refine Or.inr fun Y hY => ⟨?_, ?_⟩
        · rw [Master.lookup_reduceBucket_registerFiles, if_pos (hperm.mem_iff.mpr hY)]
        · exact Master.lookup_reduceTask_registerFiles hX₀pos hpos (hperm.mem_iff.mpr hY)
      · exact Or.inl ⟨nums, mem_eraseIdx_of_ne handler hnums heq⟩
    · exact Or.inr fun Y hY => hkeep X Y ⟨f, hX, hY⟩ (hreg Y hY)

/-! ## From the first reduce task on -/

/-- A bucket is free, or taken and watched, or reduced from all its files. -/
inductive Status (w : Workload) (j : Job) (Y : ℤ) : Prop
  | free (holds : j.master.Holds w Y (some true) (some Y))
  | taken (holds : j.master.Holds w Y (some false) (some (-Y))) (tasks : List AssignTask)
      (timer : .reduce tasks ∈ j.timers) (full : w.Full Y tasks)
  | closed (holds : j.master.Holds w Y none none) (tasks : List AssignTask)
      (completed : tasks ∈ j.completed) (full : w.Full Y tasks)

/-- What holds from the first reduce task on. -/
structure Reducing (w : Workload) (j : Job) : Prop where
  mapsDone : j.master.isMapDone = true
  calm : j.pending = []
  status : ∀ name Y, w.IsFile name Y → Status w j Y
  file : ∀ name v, j.master.reduceTask.lookup name = some v → ∃ Y, w.IsFile name Y
  bucket : ∀ Y b, j.master.reduceBucket.lookup Y = some b → ∃ name, w.IsFile name Y
  assigned : ∀ tasks, .reduce tasks ∈ j.assigned → ∃ Y, w.Full Y tasks
  timer : ∀ tasks, .reduce tasks ∈ j.timers → ∃ Y, w.Full Y tasks
  done : j.master.isReduceDone = true → ∀ name, j.master.reduceTask.lookup name = none
  last : j.completed ≠ [] → (∀ name, j.master.reduceTask.lookup name = none) →
    j.master.isReduceDone = true

/-- When the map phase is over and no handler is on the way, all files are free.

**Proof sketch.** Every map task is finished and none is in a handler, so all files are registered.
No bucket has been handed out yet, so all of them are free. -/
lemma Collecting.reducing (h : Collecting w j) (hmap : Mapping w j)
    (phase : j.master.isMapDone = true) (calm : j.pending = []) : Reducing w j where
  mapsDone := phase
  calm := calm
  status name Y hfile := by
    -- every map task is finished, and none of them is in a handler
    have hreg : ∀ f X, w.taskId f = some X → Y ∈ w.buckets f → j.master.Registered X Y := by
      intro f X hX hY
      refine (h.registered f X hX (hmap.mapsDone phase f)).resolve_left ?_ Y hY
      rintro ⟨nums, hnums⟩
      rw [calm] at hnums
      exact List.not_mem_nil hnums
    obtain ⟨f, X, hX, hY, -⟩ := hfile
    refine .free ⟨(hreg f X hX hY).1, ?_⟩
    rintro name ⟨f', X', hX', hY', rfl⟩
    exact (hreg f' X' hX' hY').2
  file name v hv := ⟨v, h.file name v hv⟩
  bucket Y b hb := (h.bucket Y b hb).2
  assigned tasks ht := absurd ht (h.assigned tasks)
  timer tasks ht := absurd ht (h.timer tasks)
  done hdone := absurd (hdone.symm.trans h.notDone) (by decide)
  last hne := absurd h.completed hne

/-- A flag that is up belongs to a free bucket. -/
lemma Reducing.free (h : Reducing w j) {Y : ℤ}
    (hflag : j.master.reduceBucket.lookup Y = some true) :
    j.master.Holds w Y (some true) (some Y) := by
  obtain ⟨name, hname⟩ := h.bucket Y true hflag
  cases h.status name Y hname with
  | free holds => exact holds
  | taken holds => exact absurd (hflag.symm.trans holds.1) (by simp)
  | closed holds => exact absurd (hflag.symm.trans holds.1) (by simp)

/-- The files `GetTask` finds for a free bucket are all files of the bucket.

**Proof sketch.** A file that the table lists under the number is a file of some bucket, and the
entry of a file tells its bucket, free or taken. Conversely, a free bucket has all its files in the
table. -/
lemma Reducing.full (h : Reducing w j) {number : ℤ} {tasks : List AssignTask}
    (hflag : j.master.reduceBucket.lookup number = some true) (pos : 0 < number)
    (files : ∀ t, t ∈ tasks ↔
      t.taskId = number ∧ j.master.reduceTask.lookup t.fileName = some number) :
    w.Full number tasks := by
  refine ⟨h.bucket number true hflag, fun t => (files t).trans (and_congr_right fun _ => ?_)⟩
  constructor
  · intro hlookup
    obtain ⟨Y, hY⟩ := h.file _ _ hlookup
    have hYpos := hY.pos
    obtain rfl : Y = number := by
      cases h.status _ Y hY with
      | free holds =>
        have := Option.some.inj ((holds.2 _ hY).symm.trans hlookup)
        omega
      | taken holds =>
        have := Option.some.inj ((holds.2 _ hY).symm.trans hlookup)
        omega
      | closed holds => exact absurd ((holds.2 _ hY).symm.trans hlookup) (by simp)
    exact hY
  · exact (h.free hflag).2 t.fileName

/-- What a change of the tables of bucket `Z` must do to keep the invariant.

**Proof sketch.** The status of `Z` is given. Another bucket has other files, so its tables are the
same, and its timer and its report are still there. -/
lemma Reducing.update (h : Reducing w j) {Z : ℤ} (hover : j'.master.isMapDone = true)
    (hcalm : j'.pending = [])
    (hZ : Status w j' Z)
    (hbucket : ∀ Y, Y ≠ Z → j'.master.reduceBucket.lookup Y = j.master.reduceBucket.lookup Y)
    (htask : ∀ name, ¬ w.IsFile name Z →
      j'.master.reduceTask.lookup name = j.master.reduceTask.lookup name)
    (hused : ∃ name, w.IsFile name Z)
    (hassigned : ∀ tasks, .reduce tasks ∈ j'.assigned → ∃ Y, w.Full Y tasks)
    (htimer : ∀ tasks, .reduce tasks ∈ j'.timers → ∃ Y, w.Full Y tasks)
    (hkept : ∀ Y tasks, Y ≠ Z → w.Full Y tasks → .reduce tasks ∈ j.timers →
      .reduce tasks ∈ j'.timers)
    (hcompleted : ∀ tasks ∈ j.completed, tasks ∈ j'.completed)
    (hdone : j'.master.isReduceDone = true → ∀ name, j'.master.reduceTask.lookup name = none)
    (hlast : j'.completed ≠ [] → (∀ name, j'.master.reduceTask.lookup name = none) →
      j'.master.isReduceDone = true) : Reducing w j' where
  mapsDone := hover
  calm := hcalm
  status name Y hY := by
    by_cases hYZ : Y = Z
    · subst hYZ
      exact hZ
    -- another bucket has none of the files of `Z`
    have hsame : ∀ {flag : Option Bool} {v : Option ℤ}, j.master.Holds w Y flag v →
        j'.master.Holds w Y flag v := fun holds => holds.congr (hbucket Y hYZ)
      fun name hname => htask name fun hname' => hYZ (hname.unique hname')
    cases h.status name Y hY with
    | free holds => exact .free (hsame holds)
    | taken holds tasks timer full =>
      exact .taken (hsame holds) tasks (hkept Y tasks hYZ full timer) full
    | closed holds tasks completed full =>
      exact .closed (hsame holds) tasks (hcompleted tasks completed) full
  file name v hv := by
    by_cases hname : w.IsFile name Z
    · exact ⟨Z, hname⟩
    · exact h.file name v ((htask name hname).symm.trans hv)
  bucket Y b hb := by
    by_cases hYZ : Y = Z
    · subst hYZ
      exact hused
    · exact h.bucket Y b ((hbucket Y hYZ).symm.trans hb)
  assigned := hassigned
  timer := htimer
  done := hdone
  last := hlast

/-- Handing out a free bucket keeps the buckets in order.

**Proof sketch.** Only the tables of the bucket change, and its timer is new: it is taken. It was
free, so the job is not done. -/
lemma Reducing.getReduceTask (h : Reducing w j) {number : ℤ} {tasks : List AssignTask}
    (free : j.master.reduceBucket.lookup number = some true) (full : w.Full number tasks) :
    Reducing w (j.assign (j.master.takeBucket number tasks) (.reduce tasks)) := by
  classical
  obtain ⟨name, hname⟩ := full.used
  have hlookup := fun name => Master.lookup_takeBucket (m := j.master) full name
  have hmem : ∀ {l : List Assignment} {tasks' : List AssignTask},
      .reduce tasks' ∈ l ++ [.reduce tasks] → .reduce tasks' ∈ l ∨ tasks' = tasks := by
    intro l tasks' ht
    simpa using ht
  refine h.update h.mapsDone h.calm (.taken ⟨AList.lookup_insert _, fun name hname => ?_⟩ tasks
    (List.mem_append_right _ List.mem_cons_self) full) (fun Y hY => AList.lookup_insert_ne hY)
    (fun name hname => (hlookup name).trans (if_neg hname)) ⟨name, hname⟩ ?_ ?_
    (fun Y tasks' _ _ ht => List.mem_append_left _ ht) (fun _ ht => ht) ?_ ?_
  · exact (hlookup name).trans (if_pos hname)
  · intro tasks' ht
    rcases hmem ht with ht | rfl
    · exact h.assigned tasks' ht
    · exact ⟨number, full⟩
  · intro tasks' ht
    rcases hmem ht with ht | rfl
    · exact h.timer tasks' ht
    · exact ⟨number, full⟩
  · -- the bucket was free, so the job was not done
    intro hdone
    have hsome := (h.free free).2 name hname
    exact absurd ((h.done hdone name).symm.trans hsome) (by simp)
  · intro _ hnone
    exact absurd ((hnone name).symm.trans ((hlookup name).trans (if_pos hname))) (by simp)

/-- The report on a reduce task keeps the buckets in order.

**Proof sketch.** Only the tables of the bucket change, and it is closed by this report. The flag is
set when the table of files is empty. -/
lemma Reducing.finishReduce (h : Reducing w j) {task : AssignTask} {tasks : List AssignTask}
    (assigned : .reduce (task :: tasks) ∈ j.assigned) :
    Reducing w { j with
      master := j.master.closeBucket task.taskId ((task :: tasks).map reduced)
      completed := j.completed ++ [task :: tasks] } := by
  classical
  obtain ⟨Y, full⟩ := h.assigned _ assigned
  obtain rfl := full.taskId List.mem_cons_self
  have hlookup := fun name => Master.lookup_closeBucket (m := j.master) full name
  refine h.update h.mapsDone h.calm (.closed ⟨AList.lookup_erase _ _, fun name hname => ?_⟩ _
    (List.mem_append_right _ List.mem_cons_self) full) (fun Y hY => AList.lookup_erase_ne hY)
    (fun name hname => (hlookup name).trans (if_neg hname)) full.used h.assigned h.timer
    (fun _ _ _ _ ht => ht) (fun _ ht => List.mem_append_left _ ht) ?_ ?_
  · exact (hlookup name).trans (if_pos hname)
  · intro hdone name
    rcases Bool.or_eq_true_iff.mp hdone with hdone | hempty
    · rw [hlookup name, h.done hdone name, ite_self]
    · exact (isEmpty_entries_iff _).mp hempty name
  · intro _ hnone
    exact Bool.or_eq_true_iff.mpr (Or.inr ((isEmpty_entries_iff _).mpr hnone))

/-- The timers of other buckets stay. -/
lemma Reducing.timer_kept {Y Z : ℤ} {k : ℕ} {tasks tasks' : List AssignTask}
    (timer : j.timers[k]? = some (.reduce tasks)) (full : w.Full Z tasks) (hYZ : Y ≠ Z)
    (full' : w.Full Y tasks') (ht : .reduce tasks' ∈ j.timers) :
    .reduce tasks' ∈ j.timers.eraseIdx k := by
  refine mem_eraseIdx_of_ne timer ht fun heq => hYZ ?_
  obtain rfl := Assignment.reduce.inj heq
  obtain ⟨t, htask⟩ := List.exists_mem_of_ne_nil _ full.ne_nil
  exact (full'.taskId htask).symm.trans (full.taskId htask)

/-- A timer that makes its bucket free keeps the buckets in order.

**Proof sketch.** Only the tables of the bucket change, and it is free again. It was not closed, so
the job is not done. -/
lemma Reducing.recoverReduce (h : Reducing w j) {k : ℕ} {task : AssignTask}
    {tasks : List AssignTask} (timer : j.timers[k]? = some (.reduce (task :: tasks)))
    (unfinished : (j.master.reduceBucket.lookup task.taskId).isSome = true) :
    Reducing w { j with
      master := j.master.freeBucket task.taskId (task :: tasks)
      timers := j.timers.eraseIdx k } := by
  classical
  obtain ⟨Y, full⟩ := h.timer _ (List.mem_of_getElem? timer)
  obtain rfl := full.taskId List.mem_cons_self
  obtain ⟨name, hname⟩ := full.used
  have hlookup := fun name => Master.lookup_freeBucket (m := j.master) full name
  refine h.update h.mapsDone h.calm (.free ⟨AList.lookup_insert _, fun name hname => ?_⟩)
    (fun Y hY => AList.lookup_insert_ne hY)
    (fun name hname => (hlookup name).trans (if_neg hname)) ⟨name, hname⟩ h.assigned
    (fun tasks' ht => h.timer tasks' (List.mem_of_mem_eraseIdx ht))
    (fun Y tasks' hY full' ht => timer_kept timer full hY full' ht) (fun _ ht => ht) ?_ ?_
  · exact (hlookup name).trans (if_pos hname)
  · -- the bucket was not closed, so the job was not done
    intro hdone
    have hnone := h.done hdone name
    cases h.status name _ hname with
    | free holds => exact absurd (hnone.symm.trans (holds.2 name hname)) (by simp)
    | taken holds => exact absurd (hnone.symm.trans (holds.2 name hname)) (by simp)
    | closed holds => simp [holds.1] at unfinished
  · intro _ hnone
    exact absurd ((hnone name).symm.trans ((hlookup name).trans (if_pos hname))) (by simp)

/-- A timer of a finished bucket keeps the buckets in order. -/
lemma Reducing.dropTimer (h : Reducing w j) {k : ℕ} {task : AssignTask}
    {tasks : List AssignTask} (timer : j.timers[k]? = some (.reduce (task :: tasks)))
    (finished : j.master.reduceBucket.lookup task.taskId = none) :
    Reducing w { j with timers := j.timers.eraseIdx k } := by
  obtain ⟨Y, full⟩ := h.timer _ (List.mem_of_getElem? timer)
  obtain rfl := full.taskId List.mem_cons_self
  obtain ⟨name, hname⟩ := full.used
  refine h.update h.mapsDone h.calm ?_ (fun _ _ => rfl) (fun _ _ => rfl) ⟨name, hname⟩ h.assigned
    (fun tasks' ht => h.timer tasks' (List.mem_of_mem_eraseIdx ht))
    (fun Y tasks' hY full' ht => timer_kept timer full hY full' ht) (fun _ ht => ht) h.done h.last
  cases h.status name _ hname with
  | free holds => exact absurd (finished.symm.trans holds.1) (by simp)
  | taken holds => exact absurd (finished.symm.trans holds.1) (by simp)
  | closed holds tasks' completed full' => exact .closed holds tasks' completed full'

/-- The timer of a map task finds nothing to do. -/
lemma Reducing.recoverMap (h : Reducing w j) (hmap : Mapping w j) {k : ℕ} {task : AssignTask}
    (timer : j.timers[k]? = some (.map task)) :
    Reducing w { j with master := j.master.recoverMap [task], timers := j.timers.eraseIdx k } := by
  have hsame : j.master.recoverMap [task] = j.master := by
    simp [Master.recoverMap, hmap.mapsDone h.mapsDone]
  have hkept : ∀ tasks, .reduce tasks ∈ j.timers → .reduce tasks ∈ j.timers.eraseIdx k :=
    fun tasks ht => mem_eraseIdx_of_ne timer ht (by simp)
  rw [hsame]
  refine ⟨h.mapsDone, h.calm, fun name Y hY => ?_, h.file, h.bucket, h.assigned,
    fun tasks ht => h.timer tasks (List.mem_of_mem_eraseIdx ht), h.done, h.last⟩
  cases h.status name Y hY with
  | free holds => exact .free holds
  | taken holds tasks ht full => exact .taken holds tasks (hkept tasks ht) full
  | closed holds tasks completed full => exact .closed holds tasks completed full

/-! ## Runs -/

/-- **Every move keeps the buckets in order**, once the map phase is over. -/
theorem Reducing.move (h : Reducing w j) (hmap : Mapping w j) (hmove : Move w j j') :
    Reducing w j' := by
  cases hmove with
  | idle => exact h
  | getMapTask phase free pos => exact absurd (phase.symm.trans h.mapsDone) (by decide)
  | getReduceTask phase calm free pos files nonempty =>
    exact h.getReduceTask free (h.full free pos files)
  | emptyBucket phase calm free files =>
    obtain ⟨name, hname⟩ := h.bucket _ _ free
    exact absurd ((h.free free).2 name hname) (files name)
  | finishMap assigned phase perm => exact absurd (phase.symm.trans h.mapsDone) (by decide)
  | finishReduce assigned => exact h.finishReduce assigned
  | registerFiles handler =>
    rw [h.calm] at handler
    simp at handler
  | recoverMap timer => exact h.recoverMap hmap timer
  | recoverReduce timer unfinished => exact h.recoverReduce timer unfinished
  | dropTimer timer finished => exact h.dropTimer timer finished

/-- A step keeps the first invariant or leads to the second one.

**Proof sketch.** The first reduce task is handed out when all files are free; from then on the
second invariant holds. -/
theorem Collecting.move (h : Collecting w j) (hmap : Mapping w j) (hmove : Move w j j') :
    Collecting w j' ∨ Reducing w j' := by
  cases hmove with
  | idle => exact Or.inl h
  | @getMapTask f num phase free pos =>
    refine Or.inl (h.congr (fun tasks ht => by simpa [assign] using ht)
      (fun tasks ht => by simpa [assign] using ht) rfl rfl rfl rfl ?_ fun _ hp => hp)
    intro f' X hX hnone
    have hne : f' ≠ f := by
      rintro rfl
      simp [assign, AList.lookup_insert] at hnone
    exact Or.inl ((AList.lookup_insert_ne hne).symm.trans hnone)
  | getReduceTask phase calm free pos files nonempty =>
    exact Or.inr ((h.reducing hmap phase calm).move hmap
      (.getReduceTask phase calm free pos files nonempty))
  | emptyBucket phase calm free files =>
    exact Or.inr ((h.reducing hmap phase calm).move hmap (.emptyBucket phase calm free files))
  | @finishMap task nums assigned phase perm =>
    refine Or.inl (h.congr (fun _ ht => ht) (fun _ ht => ht) rfl rfl rfl rfl ?_
      fun _ hp => List.mem_append_left _ hp)
    intro f X hX hnone
    by_cases hf : f = task.fileName
    · subst hf
      obtain rfl := Option.some.inj (hX.symm.trans (hmap.assigned task assigned))
      exact Or.inr ⟨nums, List.mem_append_right _ List.mem_cons_self⟩
    · exact Or.inl ((AList.lookup_erase_ne hf).symm.trans hnone)
  | finishReduce assigned => exact absurd assigned (h.assigned _)
  | registerFiles handler => exact Or.inl (h.registerFiles hmap handler)
  | @recoverMap k task timer =>
    have hfields : (j.master.recoverMap [task]).isReduceDone = j.master.isReduceDone ∧
        (j.master.recoverMap [task]).reduceTask = j.master.reduceTask ∧
        (j.master.recoverMap [task]).reduceBucket = j.master.reduceBucket := by
      unfold Master.recoverMap
      split_ifs
      · exact ⟨rfl, rfl, rfl⟩
      · exact ⟨rfl, rfl, rfl⟩
    obtain ⟨hdone, htask, hbucket⟩ := hfields
    refine Or.inl (h.congr (fun _ ht => ht) (fun _ ht => List.mem_of_mem_eraseIdx ht) rfl hdone
      htask hbucket ?_ fun _ hp => hp)
    intro f X hX hnone
    unfold Master.recoverMap at hnone
    split_ifs at hnone
    · have hne : f ≠ task.fileName := by
        rintro rfl
        simp [AList.lookup_insert] at hnone
      exact Or.inl ((AList.lookup_insert_ne hne).symm.trans hnone)
    · exact Or.inl hnone
  | recoverReduce timer unfinished =>
    exact absurd (List.mem_of_getElem? timer) (h.timer _)
  | dropTimer timer finished => exact absurd (List.mem_of_getElem? timer) (h.timer _)

/-- The invariant of calm runs. -/
theorem invariant_of_reach (h : Transition.Reach (step w) Calm (Job.init w) j) :
    Mapping w j ∧ (Collecting w j ∨ Reducing w j) := by
  refine Transition.Reach.invariant (I := fun j => Mapping w j ∧ (Collecting w j ∨ Reducing w j)) h
    ⟨Mapping.init w, Or.inl (Collecting.init w)⟩ ?_
  rintro t e u - ⟨hmap, hphase⟩ hcalm hstep
  have hmove := move_of_step hstep hcalm
  refine ⟨hmap.move hmove, ?_⟩
  rcases hphase with hcollecting | hreducing
  · exact hcollecting.move hmap hmove
  · exact Or.inr (hreducing.move hmap hmove)

/-- What a run along a list of events ends in. -/
lemma exists_of_events (w : Workload) {P : Job → Event → Prop} [∀ j e, Decidable (P j e)]
    {p : Job → Prop} [DecidablePred p] (es : List Event)
    (h : ((Transition.stepsIf (step w) P (Job.init w) es).any fun j => decide (p j)) = true) :
    ∃ j, Transition.Reach (step w) P (Job.init w) j ∧ p j :=
  Transition.Reach.exists_of_stepsIf es h

end Job

/-- **The phase barrier.** In every run in which no reduce task is handed out while a `TaskFinished`
handler is between its two sections: every reduce task that has been handed out lists all
intermediate files of its bucket, and when the job is done, every intermediate file has been
consumed by a completed reduce task over all files of its bucket.

**Proof sketch.** While files are collected, nothing has been handed out and the job is not done.
Afterwards every bucket is free, taken or closed; when the job is done, no file is left in the
table, so that every bucket is closed by a report over all its files. -/
theorem phase_barrier (w : Workload) {j : Job}
    (h : Transition.Reach (Job.step w) Job.Calm (Job.init w) j) :
    (∀ tasks, .reduce tasks ∈ j.assigned → ∃ Y, w.Full Y tasks) ∧
    (j.master.done = true → ∀ name Y, w.IsFile name Y →
      ∃ tasks ∈ j.completed, w.Full Y tasks ∧ ⟨name, Y⟩ ∈ tasks) := by
  obtain ⟨-, hcollecting | hreducing⟩ := Job.invariant_of_reach h
  · refine ⟨fun tasks ht => absurd ht (hcollecting.assigned tasks), fun hdone => ?_⟩
    exact absurd (hcollecting.notDone.symm.trans hdone) (by decide)
  · refine ⟨hreducing.assigned, fun hdone name Y hname => ?_⟩
    have hnone := hreducing.done hdone name
    cases hreducing.status name Y hname with
    | free holds => exact absurd (hnone.symm.trans (holds.2 name hname)) (by simp)
    | taken holds => exact absurd (hnone.symm.trans (holds.2 name hname)) (by simp)
    | closed holds tasks completed full =>
      exact ⟨tasks, completed, full, (full.mem_iff _).mpr ⟨rfl, hname⟩⟩

/-- Two files with one key each, and one bucket. -/
def twoFiles : Workload where
  files := ["a", "b"]
  nReduce := 1
  nReduce_pos := Nat.one_pos
  output _ := [⟨"k", "1"⟩]
  hash _ := 0

/-- Both map tasks are handed out and finished; the files of the first one are registered, and the
handler of the second one has ended the map phase. -/
def lastHandlerBetween : List Event :=
  [.getMapTask "a", .getMapTask "b",
    .taskFinished (.map ⟨"a", 1⟩) ⟨.mapTask, [⟨"a", 1, [1]⟩]⟩, .registerFiles 0,
    .taskFinished (.map ⟨"b", 2⟩) ⟨.mapTask, [⟨"b", 2, [1]⟩]⟩]

/-- A run to the end in which the reduce task is handed out after the second handler is through. -/
theorem phase_barrier_first : ∃ j,
    Transition.Reach (Job.step twoFiles) Job.Calm (Job.init twoFiles) j ∧
    j.master.done = true ∧
    (∀ tasks, .reduce tasks ∈ j.assigned → ∃ Y, twoFiles.Full Y tasks) ∧
    ∀ name Y, twoFiles.IsFile name Y →
      ∃ tasks ∈ j.completed, twoFiles.Full Y tasks ∧ ⟨name, Y⟩ ∈ tasks := by
  obtain ⟨j, hj, hdone⟩ := Job.exists_of_events twoFiles (P := Job.Calm)
    (p := fun j => j.master.done = true) (lastHandlerBetween ++ [.registerFiles 0,
      .getReduceTask 1 [⟨"mr-2-1", 1⟩, ⟨"mr-1-1", 1⟩],
      .taskFinished (.reduce [⟨"mr-2-1", 1⟩, ⟨"mr-1-1", 1⟩])
        ⟨.reduceTask, [⟨"mr-2-1", 1, [1]⟩, ⟨"mr-1-1", 1, [1]⟩]⟩]) (by decide +kernel)
  obtain ⟨hassigned, hfiles⟩ := phase_barrier twoFiles hj
  exact ⟨j, hj, hdone, hassigned, hfiles hdone⟩

/-- **A file is lost**: while the handler of the second map task is between its sections, `GetTask`
hands out the bucket with the file of the first one only. When that is reduced, the job is done. -/
theorem file_lost : ∃ j,
    Transition.Reach (Job.step twoFiles) (fun _ _ => True) (Job.init twoFiles) j ∧
    twoFiles.taskId "b" = some 2 ∧ 1 ∈ twoFiles.buckets "b" ∧
    .reduce [⟨"mr-1-1", 1⟩] ∈ j.assigned ∧ j.master.done = true ∧
    j.completed = [[⟨"mr-1-1", 1⟩]] := by
  obtain ⟨j, hj, hp⟩ := Job.exists_of_events twoFiles (P := fun _ _ => True)
    (p := fun j => .reduce [⟨"mr-1-1", 1⟩] ∈ j.assigned ∧ j.master.done = true ∧
      j.completed = [[⟨"mr-1-1", 1⟩]])
    (lastHandlerBetween ++ [.getReduceTask 1 [⟨"mr-1-1", 1⟩],
      .taskFinished (.reduce [⟨"mr-1-1", 1⟩]) ⟨.reduceTask, [⟨"mr-1-1", 1, [1]⟩]⟩])
    (by decide +kernel)
  exact ⟨j, hj, by decide +kernel, by decide +kernel, hp⟩

end Mit6824.MapReduce
