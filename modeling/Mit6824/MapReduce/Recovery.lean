import Mathlib.Data.Finset.Card
import Mit6824.MapReduce.Published
import Mit6824.Transition.Bounded

set_option autoImplicit false

/-!
# A job can always be finished

Whatever has happened in a calm run, whichever workers have crashed and wherever, as long as the
master is running one more worker can finish the job: timers make the tasks of the others free
again, and the new worker does them one after the other. The report of a reduce task that has
failed makes the master panic; then the job is never done.

## Main results

* `Mit6824.MapReduce.Fleet.can_finish`, `Mit6824.MapReduce.Fleet.never_done`.
* `Mit6824.MapReduce.Fleet.reach_map`, `Mit6824.MapReduce.Fleet.reach_reduce` — an idle worker does
  a task that is free, from its assignment to the report.
* `Mit6824.MapReduce.Fleet.reach_mapsDone`, `Mit6824.MapReduce.Fleet.reach_done` — it does what is
  left of a phase.

## Design

There are finitely many files on the disk at the start, so there is always a name for a temporary
file.
-/

namespace Mit6824.MapReduce

/-- A map task that emits a key has an intermediate file. -/
lemma App.exists_isFile (app : App) {f : String} (hf : f ∈ app.files)
    (hkeys : app.workload.output f ≠ []) : ∃ name Y, app.workload.IsFile name Y := by
  obtain ⟨kv, hkv⟩ := List.exists_mem_of_ne_nil _ hkeys
  obtain ⟨X, hX⟩ := Option.ne_none_iff_exists'.mp (app.workload.taskId_ne_none hf)
  exact ⟨_, region app.hash app.nReduce kv, f, X, hX,
    (mem_regionMap _ _ _ _).mpr ⟨kv, hkv, rfl⟩, rfl⟩

namespace Fleet

variable {app : App} {s s' : Fleet} {e : FleetEvent} {i : ℕ}

/-! ## What is left of idle workers and free names -/

/-- An operation changes finitely many files.

**Proof sketch.** By the operation. It changes the temporary file, or the two names of a rename, or
nothing. -/
lemma disk_of_moves {disk disk' : Disk} {p p' : Process} (h : p.Moves app disk p' disk') :
    ∃ names : List String, ∀ name ∉ names, disk' name = disk name := by
  have hupdate : ∀ (tmp : String) (c : Option String), ∀ name ∉ [tmp],
      Function.update disk tmp c name = disk name := by
    intro tmp c name hname
    exact Function.update_of_ne (by simpa using hname) _ _
  have hrename : ∀ tmp new : String, ∀ name ∉ [tmp, new],
      Publication.rename disk tmp new name = disk name := by
    intro tmp new name hname
    have hne : name ≠ tmp ∧ name ≠ new := by simpa using hname
    exact Publication.rename_apply_of_ne hne.1 hne.2
  cases h with
  | create => exact ⟨_, hupdate _ _⟩
  | write => exact ⟨_, hupdate _ _⟩
  | createOutput => exact ⟨_, hupdate _ _⟩
  | print => exact ⟨_, hupdate _ _⟩
  | failFilling => exact ⟨_, hupdate _ _⟩
  | rename => exact ⟨_, hrename _ _⟩
  | renameOutput => exact ⟨_, hrename _ _⟩
  | _ => exact ⟨[], fun _ _ => rfl⟩

/-- A step concerns at most one worker, and changes finitely many files.

**Proof sketch.** By the event. A request or a report changes the worker that makes it, and the
master's own events change none; only the operations of workers change files. -/
lemma frame_of_step (h : s.step app e = some s') (hcalm : s.Calm app e) :
    (∃ i, ∀ k ≠ i, s'.procs k = s.procs k) ∧
    ∃ names : List String, ∀ name ∉ names, s'.disk name = s.disk name := by
  have hupdate : ∀ (i : ℕ) (p : Process), ∃ i', ∀ k ≠ i',
      Function.update s.procs i p k = s.procs k :=
    fun i p => ⟨i, fun k hk => Function.update_of_ne hk _ _⟩
  cases e with
  | getMapTask i f =>
    simp only [step] at h
    split_ifs at h
    obtain ⟨_, -, rfl⟩ := Option.map_eq_some_iff.mp h
    exact ⟨hupdate _ _, [], fun _ _ => rfl⟩
  | getReduceTask i number tasks =>
    simp only [step] at h
    split_ifs at h
    · obtain ⟨_, -, rfl⟩ := Option.map_eq_some_iff.mp h
      exact ⟨⟨i, fun _ _ => rfl⟩, [], fun _ _ => rfl⟩
    · obtain ⟨_, -, rfl⟩ := Option.map_eq_some_iff.mp h
      exact ⟨hupdate _ _, [], fun _ _ => rfl⟩
  | act i act =>
    obtain ⟨⟨p', disk'⟩, hact, rfl⟩ := Option.map_eq_some_iff.mp h
    exact ⟨hupdate _ _, disk_of_moves (Process.moves_of_step hact hcalm.1)⟩
  | report i =>
    simp only [step] at h
    split at h
    · split at h
      · obtain rfl := Option.some.inj h
        exact ⟨hupdate _ _, [], fun _ _ => rfl⟩
      · obtain rfl := Option.some.inj h
        exact ⟨hupdate _ _, [], fun _ _ => rfl⟩
    · cases h
  | registerFiles k | recoverRequest k =>
    simp only [step] at h
    split_ifs at h
    obtain ⟨_, -, rfl⟩ := Option.map_eq_some_iff.mp h
    exact ⟨⟨0, fun _ _ => rfl⟩, [], fun _ _ => rfl⟩

/-- There is always a worker that has not begun to work. -/
lemma exists_idle (h : Transition.Reach (step app) (Calm app) (init app) s) :
    ∃ i, s.procs i = .idle := by
  have hall : ∃ n, ∀ i, n ≤ i → s.procs i = .idle := by
    refine h.invariant (I := fun s => ∃ n, ∀ i, n ≤ i → s.procs i = .idle)
      ⟨0, fun _ _ => rfl⟩ ?_
    rintro t e u - ⟨n, hn⟩ hcalm hstep
    obtain ⟨i, hi⟩ := (frame_of_step hstep hcalm).1
    refine ⟨max n (i + 1), fun k hk => ?_⟩
    rw [hi k (by omega)]
    exact hn k (by omega)
  obtain ⟨n, hn⟩ := hall
  exact ⟨n, hn n le_rfl⟩

/-- A text that makes every name longer than all names of a list.

**Proof sketch.** The names of a list have bounded length; take a suffix that is longer. -/
lemma exists_suffix (names : List String) : ∃ suffix : String, ∀ base, base ++ suffix ∉ names := by
  have hbound : ∃ n, ∀ name ∈ names, name.length < n := by
    induction names with
    | nil => exact ⟨0, by simp⟩
    | cons name names ih =>
      obtain ⟨n, hn⟩ := ih
      refine ⟨max n (name.length + 1), fun name' hname => ?_⟩
      rcases List.mem_cons.mp hname with rfl | hname
      · omega
      · have := hn name' hname
        omega
  obtain ⟨n, hn⟩ := hbound
  refine ⟨String.ofList (List.replicate n 'x'), fun base hmem => ?_⟩
  have hlt := hn _ hmem
  rw [String.length_append, String.length_ofList, List.length_replicate] at hlt
  omega

/-- There is always a suffix that makes new names of all names.

**Proof sketch.** A run changes finitely many files, so finitely many names are in use, and there
are finitely many final names. Take a suffix that avoids all of them. -/
lemma exists_fresh (hfinite : ∃ names : List String, ∀ name ∉ names, app.inputs name = none)
    (h : Transition.Reach (step app) (Calm app) (init app) s) :
    ∃ suffix : String, ∀ base, s.disk (base ++ suffix) = none ∧ ¬ app.Final (base ++ suffix) := by
  have hall : ∃ names : List String, ∀ name ∉ names, s.disk name = none := by
    refine h.invariant (I := fun s => ∃ names : List String, ∀ name ∉ names, s.disk name = none)
      hfinite ?_
    rintro t e u - ⟨names, hnames⟩ hcalm hstep
    obtain ⟨changed, hchanged⟩ := (frame_of_step hstep hcalm).2
    refine ⟨names ++ changed, fun name hname => ?_⟩
    rw [List.mem_append, not_or] at hname
    rw [hchanged name hname.2]
    exact hnames name hname.1
  obtain ⟨names, hnames⟩ := hall
  obtain ⟨suffix, hsuffix⟩ :=
    exists_suffix (names ++ finalNames app.files.length app.nReduce)
  refine ⟨suffix, fun base => ?_⟩
  have hnot := hsuffix base
  rw [List.mem_append, not_or] at hnot
  exact ⟨hnames _ hnot.1, hnot.2⟩

/-! ## One task -/

/-- The master is there, and worker `i` can ask it for a task. -/
def Ready (s : Fleet) (i : ℕ) : Prop := s.running = true ∧ s.procs i = .idle

/-- The report of a map task in the map phase. -/
lemma report_map {j : Job} (hphase : j.master.isMapDone = false) (task : AssignTask)
    (fin : FinishTask) : j.report (.map task) ⟨.mapTask, [fin]⟩ = some { j with
      master := { j.master with
        mapTask := j.master.mapTask.erase fin.fileName
        isMapDone := (j.master.mapTask.erase fin.fileName).entries.isEmpty }
      pending := j.pending ++ [[fin]] } := by
  simp only [Job.report, Master.taskFinished, hphase, Bool.false_eq_true, if_false,
    List.foldl_cons, List.foldl_nil]

/-- The report of a reduce task. -/
lemma report_reduce (j : Job) (task : AssignTask) (tasks : List AssignTask) :
    j.report (.reduce (task :: tasks)) ⟨.reduceTask, (task :: tasks).map Job.reduced⟩ =
      some { j with
        master := j.master.closeBucket task.taskId ((task :: tasks).map Job.reduced)
        completed := j.completed ++ [task :: tasks] } := rfl

/-- An entry that is left after one has been written and taken away was there before. -/
lemma lookup_of_erase_insert {α β : Type} [DecidableEq α] {m : AList fun _ : α => β} {a a' : α}
    {b : β} (h : ((m.insert a b).erase a).lookup a' ≠ none) : m.lookup a' ≠ none ∧ a' ≠ a := by
  have hne : a' ≠ a := by
    rintro rfl
    exact h (AList.lookup_erase _ _)
  rw [AList.lookup_erase_ne hne, AList.lookup_insert_ne hne] at h
  exact ⟨h, hne⟩

/-- An idle worker gets a free map task. -/
lemma reach_getMapTask (app : App) (hready : s.Ready i) (hphase : s.job.master.isMapDone = false)
    {f : String} {X : ℤ} (hfree : s.job.master.mapTask.lookup f = some X) (hX : 0 < X) :
    Transition.Reach (step app) (Calm app) s
      ⟨s.job.assign { s.job.master with mapTask := s.job.master.mapTask.insert f (-X) }
        (.map ⟨f, X⟩), s.running, s.disk, Function.update s.procs i (.opening ⟨f, X⟩)⟩ := by
  have hget : s.job.master.getMapTask f = some
      ({ s.job.master with mapTask := s.job.master.mapTask.insert f (-X) }, ⟨f, X⟩) := by
    rw [Master.getMapTask, if_neg (by simp [hphase]), hfree]
    exact if_pos hX
  refine .single (.getMapTask i f) trivial ?_
  rw [step, if_pos ⟨hready.1, hready.2⟩, Job.getMapTask, hget]
  rfl

/-- An idle worker gets all files of a free bucket. -/
lemma reach_getReduceTask (app : App) (hready : s.Ready i)
    (hphase : s.job.master.isMapDone = true) (hcalm : s.job.pending = []) {Y : ℤ}
    (hflag : s.job.master.reduceBucket.lookup Y = some true) (hpos : 0 < Y) {task : AssignTask}
    {tasks : List AssignTask} (htasks : s.job.master.bucketTasks Y = task :: tasks) :
    Transition.Reach (step app) (Calm app) s
      ⟨s.job.assign (s.job.master.takeBucket Y (task :: tasks)) (.reduce (task :: tasks)),
        s.running, s.disk,
        Function.update s.procs i (.reading (task :: tasks) (task :: tasks) [] [])⟩ := by
  have hget : s.job.master.getReduceTask Y (task :: tasks) =
      some (s.job.master.takeBucket Y (task :: tasks)) :=
    if_pos ⟨hphase, hflag, hpos, by rw [htasks]⟩
  refine .single (.getReduceTask i Y (task :: tasks)) hcalm ?_
  rw [step, if_pos ⟨hready.1, hready.2⟩, Job.getReduceTask, hget]
  rfl

/-- The files of a reduce task that was handed out can be read. -/
lemma Inv.disk_of_assigned (hinv : Inv app s) {tasks : List AssignTask}
    (hassigned : .reduce tasks ∈ s.job.assigned) : ∀ t ∈ tasks, s.disk t.fileName =
      some (app.codec.marshal (diskPairs app.codec app.mapped t)) := by
  intro t ht
  obtain ⟨Z, hfull⟩ := hinv.handed.full _ hassigned
  have hfile := ((hfull.mem_iff t).mp ht).2
  have hpub : s.disk t.fileName = app.mapped t.fileName :=
    hinv.handed.ready _ hassigned _ _ hfile
  obtain ⟨f, X, hX, hZ, hfileName⟩ := hfile
  rw [hpub, diskPairs, hfileName, App.mapped_apply hX hZ, Option.bind_some,
    app.codec.unmarshal_marshal, Option.getD_some]

/-- **A free map task** is done by an idle worker. The other map tasks stay as they are.

**Proof sketch.** The worker gets the task, opens the file, writes its buckets as `doMap` does on a
device without failures, and reports. The input file is still there, because no run changes it. The
report takes the entry of the task away. -/
theorem reach_map (hfinite : ∃ names : List String, ∀ name ∉ names, app.inputs name = none)
    (h : Transition.Reach (step app) (Calm app) (init app) s) (hready : s.Ready i)
    (hphase : s.job.master.isMapDone = false) {f : String} {X : ℤ}
    (hfree : s.job.master.mapTask.lookup f = some X) (hX : 0 < X) :
    ∃ s', Transition.Reach (step app) (Calm app) s s' ∧ s'.Ready i ∧
      ∀ f', s'.job.master.mapTask.lookup f' ≠ none →
        s.job.master.mapTask.lookup f' ≠ none ∧ f' ≠ f := by
  have hreach := reach_getMapTask app hready hphase hfree hX
  obtain ⟨s₁, hs₁⟩ : ∃ s₁ : Fleet, s₁ = ⟨s.job.assign
    { s.job.master with mapTask := s.job.master.mapTask.insert f (-X) } (.map ⟨f, X⟩), s.running,
    s.disk, Function.update s.procs i (.opening ⟨f, X⟩)⟩ := ⟨_, rfl⟩
  rw [← hs₁] at hreach
  have hrunning : s₁.running = true := by rw [hs₁]; exact hready.1
  have hproc : s₁.procs i = .opening ⟨f, X⟩ := by rw [hs₁]; exact Function.update_self ..
  have hinv := inv_of_reach (h.trans hreach)
  have hassigned : .map ⟨f, X⟩ ∈ s₁.job.assigned := by
    rw [hs₁]
    exact List.mem_append_right _ (List.mem_singleton_self _)
  have hid := hinv.handed.map _ hassigned
  -- it reads the input file and writes its buckets
  obtain ⟨content, hcontent⟩ :=
    Option.ne_none_iff_exists'.mp (hinv.input_ne_none (Workload.mem_files_of_taskId hid))
  obtain ⟨suffix, hsuffix⟩ := exists_fresh hfinite (h.trans hreach)
  obtain ⟨nums, disk', hdoMap, -⟩ := doMap_singleton app.hash app.codec foundOrder app.mapf
    (show ∀ name, (⟨s₁.disk, fun _ => true⟩ : Device).create name = true from fun _ => rfl)
    app.nReduce_pos (show 0 ≤ (⟨f, X⟩ : AssignTask).taskId from hX.le) hcontent s₁.disk
  obtain ⟨req, hreq, hruns⟩ := Process.runs_doMap app foundOrder rfl hX
    (Workload.taskId_le hid) (fun Y => (hsuffix _).1) (fun Y => (hsuffix _).2) hdoMap
  obtain rfl : ⟨.mapTask, [⟨f, X, nums⟩]⟩ = req := Option.some.inj hreq
  rw [← hproc] at hruns
  -- it reports
  have hreport := report_map (j := s₁.job) (by rw [hs₁]; exact hphase) ⟨f, X⟩ ⟨f, X, nums⟩
  refine ⟨_, (hreach.trans (reach_of_runs s₁ i hruns)).trans
    (reach_report app hrunning (Function.update_self ..) hreport),
    ⟨hrunning, Function.update_self ..⟩, fun f' hf' => ?_⟩
  replace hf' : (s₁.job.master.mapTask.erase f).lookup f' ≠ none := hf'
  rw [hs₁] at hf'
  exact lookup_of_erase_insert hf'

/-- **A free reduce task** is done by an idle worker. The other buckets stay as they are.

**Proof sketch.** The worker gets all files of the bucket, reads them, writes the output file as
`doReduce` does on a device without failures, and reports. The files can be read, because assigned
files are published. The report takes the bucket away. -/
theorem reach_reduce (hfinite : ∃ names : List String, ∀ name ∉ names, app.inputs name = none)
    (h : Transition.Reach (step app) (Calm app) (init app) s) (hready : s.Ready i)
    (hphase : s.job.master.isMapDone = true) (hcalm : s.job.pending = []) {Y : ℤ} {name : String}
    (hflag : s.job.master.reduceBucket.lookup Y = some true) (hpos : 0 < Y)
    (hname : s.job.master.reduceTask.lookup name = some Y) :
    ∃ s', Transition.Reach (step app) (Calm app) s s' ∧ s'.Ready i ∧
      s'.job.master.isMapDone = true ∧ s'.job.pending = [] ∧
      ∀ Y', s'.job.master.reduceBucket.lookup Y' ≠ none →
        s.job.master.reduceBucket.lookup Y' ≠ none ∧ Y' ≠ Y := by
  have hmem : ⟨name, Y⟩ ∈ s.job.master.bucketTasks Y := Master.mem_bucketTasks.mpr ⟨rfl, hname⟩
  obtain ⟨task, tasks, htasks⟩ := List.exists_cons_of_ne_nil (List.ne_nil_of_mem hmem)
  have hid : ∀ t ∈ task :: tasks, t.taskId = Y := by
    intro t ht
    rw [← htasks] at ht
    exact (Master.mem_bucketTasks.mp ht).1
  have hreach := reach_getReduceTask app hready hphase hcalm hflag hpos htasks
  obtain ⟨s₁, hs₁⟩ : ∃ s₁ : Fleet, s₁ = ⟨s.job.assign
    (s.job.master.takeBucket Y (task :: tasks)) (.reduce (task :: tasks)), s.running, s.disk,
    Function.update s.procs i (.reading (task :: tasks) (task :: tasks) [] [])⟩ := ⟨_, rfl⟩
  rw [← hs₁] at hreach
  have hrunning : s₁.running = true := by rw [hs₁]; exact hready.1
  have hproc : s₁.procs i = .reading (task :: tasks) (task :: tasks) [] [] := by
    rw [hs₁]
    exact Function.update_self ..
  -- it reads them, and writes its output file
  have hassigned : .reduce (task :: tasks) ∈ s₁.job.assigned := by
    rw [hs₁]
    exact List.mem_append_right _ (List.mem_singleton_self _)
  have hread := (inv_of_reach (h.trans hreach)).disk_of_assigned hassigned
  have hok : doReduce app.codec ⟨s₁.disk, fun _ => true⟩ insertionSorter app.reducef
      (task :: tasks) = _ :=
    doReduce_ok (fun _ => rfl) (List.cons_ne_nil _ _) hid hread insertionSorter app.reducef
  obtain ⟨suffix, hsuffix⟩ := exists_fresh hfinite (h.trans hreach)
  obtain ⟨req, hreq, hruns⟩ := Process.runs_doReduce app insertionSorter (fun _ _ => rfl)
    (fun t _ => (hsuffix _).1) (fun t _ => (hsuffix _).2) hok (by simp)
  obtain rfl : ⟨.reduceTask, (task :: tasks).map Job.reduced⟩ = req := Option.some.inj hreq
  rw [← hproc] at hruns
  -- it reports
  refine ⟨_, (hreach.trans (reach_of_runs s₁ i hruns)).trans
    (reach_report app hrunning (Function.update_self ..) (report_reduce _ task tasks)),
    ⟨hrunning, Function.update_self ..⟩, ?_, ?_, fun Y' hY' => ?_⟩
  · rw [hs₁]
    exact hphase
  · rw [hs₁]
    exact hcalm
  · replace hY' : (s₁.job.master.reduceBucket.erase task.taskId).lookup Y' ≠ none := hY'
    rw [hs₁, hid task List.mem_cons_self] at hY'
    exact lookup_of_erase_insert hY'

/-! ## The steps of the master -/

/-- A handler registers the files of a map task. -/
lemma reach_registerFiles {k : ℕ} {j : Job} (hrunning : s.running = true)
    (h : s.job.step app.workload (.registerFiles k) = some j) :
    Transition.Reach (step app) (Calm app) s { s with job := j } := by
  refine .single (.registerFiles k) trivial ?_
  simp only [step, if_pos hrunning, h, Option.map_some]

/-- A timer goes off. -/
lemma reach_recoverRequest {k : ℕ} {j : Job} (hrunning : s.running = true)
    (h : s.job.step app.workload (.recoverRequest k) = some j) :
    Transition.Reach (step app) (Calm app) s { s with job := j } := by
  refine .single (.recoverRequest k) trivial ?_
  simp only [step, if_pos hrunning, h, Option.map_some]

/-- All handlers register their files. -/
lemma reach_calm (app : App) (s : Fleet) (hready : s.Ready i) :
    ∃ s', Transition.Reach (step app) (Calm app) s s' ∧ s'.Ready i ∧ s'.job.pending = [] ∧
      s'.job.master.isMapDone = s.job.master.isMapDone := by
  generalize hn : s.job.pending.length = n
  induction n generalizing s with
  | zero => exact ⟨s, .refl, hready, List.length_eq_zero_iff.mp hn, rfl⟩
  | succ n ih =>
    obtain ⟨p, ps, hpending⟩ := List.exists_cons_of_length_eq_add_one hn
    have hjob : s.job.step app.workload (.registerFiles 0) = some
        { s.job with master := s.job.master.registerFiles p, pending := ps } := by
      simp only [Job.step, hpending, List.getElem?_cons_zero, List.eraseIdx_cons_zero]
    obtain ⟨s', hreach, hready', hcalm, hphase⟩ := ih
      { s with job := { s.job with master := s.job.master.registerFiles p, pending := ps } }
      hready (by simpa [hpending] using hn)
    exact ⟨s', (reach_registerFiles hready.1 hjob).trans hreach, hready', hcalm,
      hphase.trans (s.job.master.registerFiles_frame p).2.1⟩

/-- A map task that has been handed out is made free by its timer. -/
lemma reach_recoverMap (app : App) (hready : s.Ready i) {t : AssignTask}
    (htimer : .map t ∈ s.job.timers) (hentry : s.job.master.mapTask.lookup t.fileName ≠ none) :
    ∃ s', Transition.Reach (step app) (Calm app) s s' ∧ s'.Ready i ∧
      s'.job.master.isMapDone = s.job.master.isMapDone ∧
      s'.job.master.mapTask.lookup t.fileName = some t.taskId ∧
      ∀ f, s'.job.master.mapTask.lookup f ≠ none → s.job.master.mapTask.lookup f ≠ none := by
  obtain ⟨k, hk⟩ := List.mem_iff_getElem?.mp htimer
  have hmaster : s.job.master.recoverMap [t] =
      { s.job.master with mapTask := s.job.master.mapTask.insert t.fileName t.taskId } := by
    rw [Master.recoverMap, if_pos]
    · rfl
    · simpa [Option.isSome_iff_ne_none] using hentry
  have hjob : s.job.step app.workload (.recoverRequest k) = some
      { s.job with master := s.job.master.recoverMap [t], timers := s.job.timers.eraseIdx k } := by
    simp only [Job.step, hk]
  refine ⟨_, reach_recoverRequest hready.1 hjob, hready, ?_, ?_, fun f hf => ?_⟩
  · rw [hmaster]
  · rw [hmaster]
    exact AList.lookup_insert _
  · rw [hmaster] at hf
    by_cases hne : f = t.fileName
    · rwa [hne]
    · rwa [AList.lookup_insert_ne hne] at hf

/-- A reduce task that has been handed out is made free by its timer. -/
lemma reach_recoverReduce (app : App) (hready : s.Ready i) {tasks : List AssignTask} {Y : ℤ}
    (htimer : .reduce tasks ∈ s.job.timers) (hfull : app.workload.Full Y tasks)
    (hentry : s.job.master.reduceBucket.lookup Y ≠ none) :
    ∃ s', Transition.Reach (step app) (Calm app) s s' ∧ s'.Ready i ∧
      s'.job.master.isMapDone = s.job.master.isMapDone ∧ s'.job.pending = s.job.pending ∧
      s'.job.master.reduceBucket.lookup Y = some true ∧
      ∀ Y', s'.job.master.reduceBucket.lookup Y' ≠ none →
        s.job.master.reduceBucket.lookup Y' ≠ none := by
  obtain ⟨k, hk⟩ := List.mem_iff_getElem?.mp htimer
  obtain ⟨task, tasks, rfl⟩ := List.exists_cons_of_ne_nil hfull.ne_nil
  obtain rfl := hfull.taskId List.mem_cons_self
  have hmaster : s.job.master.recoverReduce (task :: tasks) =
      some (s.job.master.freeBucket task.taskId (task :: tasks)) :=
    if_pos (Option.isSome_iff_ne_none.mpr hentry)
  have hjob : s.job.step app.workload (.recoverRequest k) = some { s.job with
      master := s.job.master.freeBucket task.taskId (task :: tasks)
      timers := s.job.timers.eraseIdx k } := by
    simp only [Job.step, hk, hmaster]
  refine ⟨_, reach_recoverRequest hready.1 hjob, hready, rfl, rfl, AList.lookup_insert _,
    fun Y' hY' => ?_⟩
  replace hY' : (s.job.master.reduceBucket.insert task.taskId true).lookup Y' ≠ none := hY'
  by_cases hne : Y' = task.taskId
  · rwa [hne]
  · rwa [AList.lookup_insert_ne hne] at hY'

/-! ## The two phases -/

/-- As long as the job is not done, some bucket is free, or taken and watched.

**Proof sketch.** Otherwise all buckets are closed, no file is left in the table, and the last
report has set the flag. -/
lemma exists_open {w : Workload} {j : Job} (h : Job.Reducing w j)
    (hused : ∃ name Y, w.IsFile name Y) (hdone : j.master.done = false) :
    ∃ name Y, w.IsFile name Y ∧ (j.master.Holds w Y (some true) (some Y) ∨
      j.master.Holds w Y (some false) (some (-Y)) ∧
        ∃ tasks, .reduce tasks ∈ j.timers ∧ w.Full Y tasks) := by
  by_contra hnone
  -- otherwise every bucket is closed, and the last report has set the flag
  have hclosed : ∀ name Y, w.IsFile name Y → j.master.reduceTask.lookup name = none ∧
      j.completed ≠ [] := by
    intro name Y hname
    cases h.status name Y hname with
    | free holds => exact absurd ⟨name, Y, hname, Or.inl holds⟩ hnone
    | taken holds tasks timer full =>
      exact absurd ⟨name, Y, hname, Or.inr ⟨holds, tasks, timer, full⟩⟩ hnone
    | closed holds tasks completed full =>
      exact ⟨holds.2 name hname, List.ne_nil_of_mem completed⟩
  obtain ⟨name, Y, hname⟩ := hused
  refine absurd ((h.last (hclosed name Y hname).2 fun name' => ?_).symm.trans hdone) (by decide)
  by_contra hopen
  obtain ⟨v, hv⟩ := Option.ne_none_iff_exists'.mp hopen
  obtain ⟨Y', hname'⟩ := h.file name' v hv
  exact hopen (hclosed name' Y' hname').1

/-- The map tasks that are not finished. -/
def openTasks (app : App) (s : Fleet) : Finset String :=
  app.files.toFinset.filter fun f => s.job.master.mapTask.lookup f ≠ none

/-- The buckets that are not closed. -/
def openBuckets (app : App) (s : Fleet) : Finset ℤ :=
  app.workload.usedBuckets.toFinset.filter fun Y => s.job.master.reduceBucket.lookup Y ≠ none

/-- What has become less has one element less at least. -/
lemma card_filter_lt {α : Type} [DecidableEq α] {S : Finset α} {p q : α → Prop} [DecidablePred p]
    [DecidablePred q] {a : α} (ha : a ∈ S) (hp : p a) (h : ∀ b, q b → p b ∧ b ≠ a) :
    (S.filter q).card < (S.filter p).card := by
  refine Finset.card_lt_card (Finset.ssubset_iff_of_subset ?_ |>.mpr ⟨a, ?_, ?_⟩)
  · exact Finset.monotone_filter_right S fun b _ hb => (h b hb).1
  · exact Finset.mem_filter.mpr ⟨ha, hp⟩
  · exact fun hmem => (h a (Finset.mem_filter.mp hmem).2).2 rfl

variable (hfinite : ∃ names : List String, ∀ name ∉ names, app.inputs name = none)

include hfinite

/-- As long as the map phase is not over, an idle worker can make the open map tasks fewer.

**Proof sketch.** Some map task is not finished. If it has been handed out, its timer makes it free;
then the worker does it. -/
lemma exists_fewer_tasks (hfiles : app.files ≠ [])
    (h : Transition.Reach (step app) (Calm app) (init app) s) (hready : s.Ready i)
    (hphase : s.job.master.isMapDone = false) :
    ∃ s', Transition.Reach (step app) (Calm app) s s' ∧ s'.Ready i ∧
      (openTasks app s').card < (openTasks app s).card := by
  obtain ⟨hmap, -⟩ := Job.invariant_of_reach (inv_of_reach h).job
  obtain ⟨f, hf⟩ := hmap.unfinished hfiles hphase
  obtain ⟨num, hnum⟩ := Option.ne_none_iff_exists'.mp hf
  obtain ⟨X, hX, hval⟩ := hmap.entry f num hnum
  have hXpos := Workload.taskId_pos hX
  have hmem : f ∈ app.files.toFinset := List.mem_toFinset.mpr (Workload.mem_files_of_taskId hX)
  rcases lt_or_ge 0 num with hpos | hneg
  · obtain ⟨s', hreach, hready', hfewer⟩ := reach_map hfinite h hready hphase hnum hpos
    exact ⟨s', hreach, hready', card_filter_lt hmem hf hfewer⟩
  · obtain ⟨t, ht, rfl⟩ := hmap.watched f num hnum (by omega)
    obtain ⟨s₁, hreach₁, hready₁, hphase₁, hfree, hsame⟩ := reach_recoverMap app hready ht hf
    obtain ⟨s', hreach, hready', hfewer⟩ := reach_map hfinite (h.trans hreach₁) hready₁
      (hphase₁.trans hphase) hfree (Workload.taskId_pos (hmap.timer t ht))
    refine ⟨s', hreach₁.trans hreach, hready', card_filter_lt hmem hf fun f' hf' => ?_⟩
    exact ⟨hsame f' (hfewer f' hf').1, (hfewer f' hf').2⟩

/-- As long as the job is not done, an idle worker can make the open buckets fewer.

**Proof sketch.** As long as the job is not done, some bucket is not closed. If it has been handed
out, its timer makes it free; then the worker does it. -/
lemma exists_fewer_buckets (hused : ∃ name Y, app.workload.IsFile name Y)
    (h : Transition.Reach (step app) (Calm app) (init app) s) (hready : s.Ready i)
    (hphase : s.job.master.isMapDone = true) (hcalm : s.job.pending = [])
    (hdone : s.job.master.done = false) :
    ∃ s', Transition.Reach (step app) (Calm app) s s' ∧ s'.Ready i ∧
      s'.job.master.isMapDone = true ∧ s'.job.pending = [] ∧
      (openBuckets app s').card < (openBuckets app s).card := by
  have hreducing : ∀ {u : Fleet}, Transition.Reach (step app) (Calm app) (init app) u →
      u.job.master.isMapDone = true → u.job.pending = [] →
      Job.Reducing app.workload u.job := by
    intro u hu hover hpending
    obtain ⟨hmap, hcollecting | hreducing⟩ := Job.invariant_of_reach (inv_of_reach hu).job
    · exact hcollecting.reducing hmap hover hpending
    · exact hreducing
  obtain ⟨name, Y, hname, hstatus⟩ := exists_open (hreducing h hphase hcalm) hused hdone
  have hmem : Y ∈ app.workload.usedBuckets.toFinset :=
    List.mem_toFinset.mpr (Workload.exists_isFile_iff.mp ⟨name, hname⟩)
  have hopen : s.job.master.reduceBucket.lookup Y ≠ none := by
    rcases hstatus with holds | ⟨holds, -⟩
    · simp [holds.1]
    · simp [holds.1]
  rcases hstatus with holds | ⟨holds, tasks, ht, hfull⟩
  · obtain ⟨s', hreach, hready', hphase', hcalm', hfewer⟩ := reach_reduce hfinite h hready hphase
      hcalm holds.1 hname.pos (holds.2 name hname)
    exact ⟨s', hreach, hready', hphase', hcalm', card_filter_lt hmem hopen hfewer⟩
  · obtain ⟨s₁, hreach₁, hready₁, hphase₁, hcalm₁, hflag, hsame⟩ :=
      reach_recoverReduce app hready ht hfull hopen
    have hholds := (hreducing (h.trans hreach₁) (hphase₁.trans hphase)
      (hcalm₁.trans hcalm)).free hflag
    obtain ⟨s', hreach, hready', hphase', hcalm', hfewer⟩ := reach_reduce hfinite
      (h.trans hreach₁) hready₁ (hphase₁.trans hphase) (hcalm₁.trans hcalm) hflag hname.pos
      (hholds.2 name hname)
    refine ⟨s', hreach₁.trans hreach, hready', hphase', hcalm', card_filter_lt hmem hopen
      fun Y' hY' => ?_⟩
    exact ⟨hsame Y' (hfewer Y' hY').1, (hfewer Y' hY').2⟩

/-- An idle worker finishes the map phase. -/
lemma reach_mapsDone (hfiles : app.files ≠ [])
    (h : Transition.Reach (step app) (Calm app) (init app) s) (hready : s.Ready i) :
    ∃ s', Transition.Reach (step app) (Calm app) s s' ∧ s'.Ready i ∧
      s'.job.master.isMapDone = true := by
  obtain ⟨s', hreach, ⟨-, hready'⟩, hphase⟩ := Transition.Reach.exists_of_measure
    (I := fun s => Transition.Reach (step app) (Calm app) (init app) s ∧ s.Ready i)
    (G := fun s => s.job.master.isMapDone = true) (fun s => (openTasks app s).card)
    (fun u hu hgoal => by
      obtain ⟨v, hreach, hready', hlt⟩ :=
        exists_fewer_tasks hfinite hfiles hu.1 hu.2 (by simpa using hgoal)
      exact ⟨v, hreach, ⟨hu.1.trans hreach, hready'⟩, hlt⟩) ⟨h, hready⟩
  exact ⟨s', hreach, hready', hphase⟩

/-- An idle worker finishes the reduce phase. -/
lemma reach_done (hused : ∃ name Y, app.workload.IsFile name Y)
    (h : Transition.Reach (step app) (Calm app) (init app) s) (hready : s.Ready i)
    (hphase : s.job.master.isMapDone = true) (hcalm : s.job.pending = []) :
    ∃ s', Transition.Reach (step app) (Calm app) s s' ∧ s'.running = true ∧
      s'.job.master.done = true := by
  obtain ⟨s', hreach, ⟨-, hready', -⟩, hdone⟩ := Transition.Reach.exists_of_measure
    (I := fun s => Transition.Reach (step app) (Calm app) (init app) s ∧ s.Ready i ∧
      s.job.master.isMapDone = true ∧ s.job.pending = [])
    (G := fun s => s.job.master.done = true) (fun s => (openBuckets app s).card)
    (fun u ⟨hu, hready', hphase', hcalm'⟩ hgoal => by
      obtain ⟨v, hreach, hready'', hphase'', hcalm'', hlt⟩ :=
        exists_fewer_buckets hfinite hused hu hready' hphase' hcalm' (by simpa using hgoal)
      exact ⟨v, hreach, ⟨hu.trans hreach, hready'', hphase'', hcalm''⟩, hlt⟩)
    ⟨h, hready, hphase, hcalm⟩
  exact ⟨s', hreach, hready'.1, hdone⟩

omit hfinite

/-- **A job can always be finished**, if some map task emits a key and the master is running. From
every such state of a calm run, whichever workers have crashed and wherever, there is a calm run to
a state in which the job is done.

**Proof sketch.** A worker that has not begun finishes the map phase, all handlers register their
files, and the worker finishes the reduce phase. -/
theorem can_finish (app : App)
    (hfinite : ∃ names : List String, ∀ name ∉ names, app.inputs name = none) {f : String}
    (hf : f ∈ app.files) (hkeys : app.workload.output f ≠ []) {s : Fleet}
    (h : Transition.Reach (step app) (Calm app) (init app) s) (hrunning : s.running = true) :
    ∃ s', Transition.Reach (step app) (Calm app) s s' ∧ s'.running = true ∧
      s'.job.master.done = true := by
  obtain ⟨i, hidle⟩ := exists_idle h
  obtain ⟨s₁, hreach₁, hready₁, hphase₁⟩ :=
    reach_mapsDone hfinite (List.ne_nil_of_mem hf) h ⟨hrunning, hidle⟩
  obtain ⟨s₂, hreach₂, hready₂, hcalm, hphase₂⟩ := reach_calm app s₁ hready₁
  obtain ⟨s₃, hreach₃, hdone⟩ := reach_done hfinite (app.exists_isFile hf hkeys)
    ((h.trans hreach₁).trans hreach₂) hready₂ (hphase₂.trans hphase₁) hcalm
  exact ⟨s₃, (hreach₁.trans hreach₂).trans hreach₃, hdone⟩

/-- The first worker has crashed in the middle of a map task, and has left a temporary file. -/
theorem can_finish_of_crash : ∃ s s',
    Transition.Reach (step letterCount) (Calm letterCount) (init letterCount) s ∧
    s.procs 0 = .exited ∧ s.disk "mr-1-142" = some "" ∧
    Transition.Reach (step letterCount) (Calm letterCount) s s' ∧ s'.running = true ∧
    s'.job.master.done = true := by
  have hrun : ((Transition.stepsIf (step letterCount) (Calm letterCount) (init letterCount)
      (mapPhaseWithCrash.take 4)).any fun s => decide
        (s.running = true ∧ s.procs 0 = .exited ∧ s.disk "mr-1-142" = some "")) = true := by
    decide +kernel
  obtain ⟨s, hs, hrunning, hexited, hleft⟩ := Transition.Reach.exists_of_stepsIf _ hrun
  obtain ⟨s', hreach, hdone⟩ := can_finish letterCount letterFiles_finite (f := "a") (by decide)
    (by decide) hs hrunning
  exact ⟨s, s', hs, hexited, hleft, hreach, hdone⟩

/-! ## When the master has panicked -/

/-- Without the master only workers move, and its tables stay as they are. -/
lemma job_of_step (h : s.step app e = some s') (hrunning : s.running = false) :
    s'.running = false ∧ s'.job = s.job := by
  cases e with
  | act i act =>
    obtain ⟨_, -, rfl⟩ := Option.map_eq_some_iff.mp h
    exact ⟨hrunning, rfl⟩
  | _ => simp [step, hrunning] at h

/-- **After a panic of the master the job is never done**, whatever the workers do. -/
theorem never_done {P : Fleet → FleetEvent → Prop} (h : Transition.Reach (step app) P s s')
    (hrunning : s.running = false) (hdone : s.job.master.done = false) :
    s'.job.master.done = false := by
  obtain ⟨-, hjob⟩ := h.invariant (I := fun u => u.running = false ∧ u.job = s.job)
    ⟨hrunning, rfl⟩ fun t e u _ ht _ hstep => by
      obtain ⟨hrunning', hjob⟩ := job_of_step hstep ht.1
      exact ⟨hrunning', hjob.trans ht.2⟩
  rw [hjob]
  exact hdone

/-- A reduce task after the map phase whose worker cannot read a file, and its report. -/
def failedReduce : List FleetEvent :=
  mapPhaseWithCrash ++ [.getReduceTask 1 1 [⟨"mr-1-1", 1⟩, ⟨"mr-2-1", 1⟩], .act 1 .fail,
    .report 1]

/-- A worker that reports the failure of a reduce task makes the master panic. -/
example : ((Transition.stepsIf (step letterCount) (Calm letterCount) (init letterCount)
    failedReduce).any fun s => decide (s.running = false ∧ s.procs 1 = .exited ∧
      s.job.master.done = false)) = true := by
  decide +kernel

end Fleet

end Mit6824.MapReduce
