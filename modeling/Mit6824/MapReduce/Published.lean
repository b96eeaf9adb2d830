import Mathlib.Data.List.Dedup
import Mit6824.MapReduce.Fleet

set_option autoImplicit false

/-!
# Published files are complete

The invariant of the whole program. The master sees a run of `Job`, what it believes to be on the
disk is there, and a file under its final name is complete, whatever other workers do and wherever
they crash.

## Main definitions

* `Mit6824.MapReduce.Job.Changes` — what a step of the master changes of what the workers have to
  know.
* `Mit6824.MapReduce.Fleet.Inv` — the invariant of calm runs.

## Main results

* `Mit6824.MapReduce.Fleet.inv_of_reach` — the invariant holds in every calm run.
* `Mit6824.MapReduce.Fleet.published_complete`.

## Design

The reports that `Job.step` accepts are those allowed by `Workload.Reports`. Here a worker reports
what it has done, and that its report is one of them is part of the invariant.
-/

namespace Mit6824.MapReduce

/-! ## Steps of the master -/

namespace Job

/-- What a step changes of what the workers have to know: assignments are only added, a map task
goes out of the table when it is reported, and a reduce task is completed when it is reported. -/
structure Changes (j : Job) (e : Event) (j' : Job) : Prop where
  assigned : ∀ a ∈ j.assigned, a ∈ j'.assigned
  nodup : ∀ tasks, .reduce tasks ∈ j'.assigned → .reduce tasks ∈ j.assigned ∨ tasks.Nodup
  finished : ∀ f, j'.master.mapTask.lookup f = none → j.master.mapTask.lookup f = none ∨
    ∃ task req, e = .taskFinished (.map task) req ∧ req.finishedType = .mapTask ∧
      task.fileName = f
  completed : ∀ tasks ∈ j'.completed, tasks ∈ j.completed ∨
    ∃ req, e = .taskFinished (.reduce tasks) req ∧ req.finishedType = .reduceTask

variable {w : Workload} {j j' : Job} {e : Event}

/-- A step that hands nothing out and finishes nothing. -/
lemma Changes.of_eq (hassigned : j'.assigned = j.assigned) (hcompleted : j'.completed = j.completed)
    (htask : ∀ f, j'.master.mapTask.lookup f = none → j.master.mapTask.lookup f = none) :
    Changes j e j' :=
  ⟨fun _ ha => hassigned ▸ ha, fun _ ht => Or.inl (hassigned ▸ ht),
    fun f hf => Or.inl (htask f hf), fun _ ht => Or.inl (hcompleted ▸ ht)⟩

/-- A step that hands something out. -/
lemma Changes.of_assign {m : Master} {a : Assignment}
    (hnodup : ∀ tasks, a = .reduce tasks → tasks.Nodup)
    (htask : ∀ f, m.mapTask.lookup f = none → j.master.mapTask.lookup f = none) :
    Changes j e (j.assign m a) := by
  refine ⟨fun b hb => List.mem_append_left _ hb, fun tasks ht => ?_,
    fun f hf => Or.inl (htask f hf), fun tasks ht => Or.inl ht⟩
  rcases List.mem_append.mp ht with ht | ht
  · exact Or.inl ht
  · exact Or.inr (hnodup tasks (List.mem_singleton.mp ht).symm)

/-- The files found for a bucket are different files. -/
lemma nodup_bucketTasks (m : Master) (number : ℤ) : (m.bucketTasks number).Nodup := by
  unfold Master.bucketTasks
  refine List.Nodup.map_on ?_ (List.Nodup.filter _ (List.NodupKeys.nodup m.reduceTask.nodupKeys))
  rintro ⟨name, v⟩ - ⟨name', v'⟩ - heq
  obtain ⟨rfl, rfl⟩ := AssignTask.mk.inj heq
  rfl

/-- A timer does not bring back a finished map task. -/
lemma lookup_recoverMap_eq_none {m : Master} {task : AssignTask} {f : String}
    (h : (m.recoverMap [task]).mapTask.lookup f = none) : m.mapTask.lookup f = none := by
  unfold Master.recoverMap at h
  split_ifs at h
  · by_cases hf : f = task.fileName
    · subst hf
      simp [AList.lookup_insert] at h
    · exact (AList.lookup_insert_ne hf).symm.trans h
  · exact h

/-- The report of a worker.

**Proof sketch.** By the four kinds of report. Only a report on a map task in the map phase takes an
entry away, and only one on a reduce task is recorded as completed. -/
lemma changes_of_report {a : Assignment} {req : FinishedRequest}
    (h : j.step w (.taskFinished a req) = some j') :
    Changes j (.taskFinished a req) j' := by
  simp only [step, report] at h
  split_ifs at h with hguard
  obtain ⟨task, nums, rfl, rfl, -⟩ | ⟨task, rfl, rfl⟩ | ⟨tasks, rfl, rfl⟩ | ⟨tasks, rfl, rfl⟩ :=
    reports_cases hguard.2
  · cases hphase : j.master.isMapDone with
    | true =>
      simp only [Master.taskFinished, hphase, if_true, record] at h
      obtain rfl := Option.some.inj h
      exact .of_eq rfl rfl fun _ hf => hf
    | false =>
      simp only [Master.taskFinished, hphase, Bool.false_eq_true, if_false] at h
      obtain rfl := Option.some.inj h
      refine ⟨fun _ ha => ha, fun _ ht => Or.inl ht, fun f hf => ?_, fun _ ht => Or.inl ht⟩
      by_cases hname : f = task.fileName
      · exact Or.inr ⟨task, _, rfl, rfl, hname.symm⟩
      · exact Or.inl ((AList.lookup_erase_ne hname).symm.trans hf)
  · cases hphase : j.master.isMapDone with
    | true =>
      simp only [Master.taskFinished, hphase, if_true, record] at h
      obtain rfl := Option.some.inj h
      exact .of_eq rfl rfl fun _ hf => hf
    | false =>
      simp only [Master.taskFinished, hphase, Bool.false_eq_true, if_false, record] at h
      obtain rfl := Option.some.inj h
      exact .of_eq rfl rfl fun _ hf => hf
  · cases tasks with
    | nil => simp [Master.taskFinished] at h
    | cons task tasks =>
      simp only [Master.taskFinished, List.map_cons, record] at h
      obtain rfl := Option.some.inj h
      refine ⟨fun _ ha => ha, fun _ ht => Or.inl ht, fun _ hf => Or.inl hf, fun tasks' ht => ?_⟩
      rcases List.mem_append.mp ht with ht | ht
      · exact Or.inl ht
      · obtain rfl := List.mem_singleton.mp ht
        exact Or.inr ⟨_, rfl, rfl⟩
  · simp [Master.taskFinished] at h

/-- A step of the master is one of these changes.

**Proof sketch.** One case for each kind of step. -/
theorem changes_of_step (h : j.step w e = some j') : Changes j e j' := by
  cases e with
  | getMapTask f =>
    obtain ⟨⟨j', task⟩, hget, rfl⟩ := Option.map_eq_some_iff.mp h
    simp only [getMapTask, Master.getMapTask] at hget
    split at hget
    · cases hget
    · rename_i m task heq
      split_ifs at heq
      split at heq
      · cases heq
      · split_ifs at heq
        obtain ⟨rfl, rfl⟩ := Prod.mk.inj (Option.some.inj heq)
        obtain ⟨rfl, rfl⟩ := Prod.mk.inj (Option.some.inj hget)
        refine .of_assign (fun _ ha => by cases ha) fun f' hf' => ?_
        by_cases hf : f' = f
        · subst hf
          simp [AList.lookup_insert] at hf'
        · exact (AList.lookup_insert_ne hf).symm.trans hf'
  | getReduceTask number tasks =>
    simp only [step, getReduceTask, Master.getReduceTask] at h
    split at h
    · cases h
    · rename_i m heq
      split_ifs at heq with hguard
      obtain rfl := Option.some.inj heq
      obtain rfl := Option.some.inj h
      split_ifs
      · exact .of_eq rfl rfl fun _ hf => hf
      · refine .of_assign (fun tasks' ha => ?_) fun _ hf => hf
        obtain rfl := Assignment.reduce.inj ha
        exact hguard.2.2.2.nodup_iff.mpr (nodup_bucketTasks _ _)
  | taskFinished a req => exact changes_of_report h
  | registerFiles k =>
    simp only [step] at h
    split at h
    · cases h
    · rename_i tasks heq
      obtain rfl := Option.some.inj h
      refine .of_eq rfl rfl fun f hf => ?_
      rwa [show (j.master.registerFiles tasks).mapTask = _ from
        (j.master.registerFiles_frame tasks).1] at hf
  | recoverRequest k =>
    simp only [step] at h
    split at h
    · cases h
    · obtain rfl := Option.some.inj h
      exact .of_eq rfl rfl fun _ hf => lookup_recoverMap_eq_none hf
    · rename_i tasks heq
      split at h
      · cases h
      · rename_i m hm
        obtain rfl := Option.some.inj h
        refine .of_eq rfl rfl fun f hf => ?_
        cases tasks with
        | nil => simp [Master.recoverReduce] at hm
        | cons task tasks =>
          simp only [Master.recoverReduce] at hm
          split_ifs at hm
          · obtain rfl := Option.some.inj hm
            exact hf
          · obtain rfl := Option.some.inj hm
            exact hf

/-- What the worker gets has been handed out. -/
lemma mem_assigned_of_getMapTask {f : String} {task : AssignTask}
    (h : j.getMapTask f = some (j', task)) : .map task ∈ j'.assigned := by
  unfold getMapTask at h
  split at h
  · cases h
  · obtain ⟨rfl, rfl⟩ := Prod.mk.inj (Option.some.inj h)
    exact List.mem_append_right _ (List.mem_singleton_self _)

/-- So have the files of a bucket. -/
lemma mem_assigned_of_getReduceTask {number : ℤ} {tasks : List AssignTask}
    (h : j.getReduceTask number tasks = some j') (hne : tasks ≠ []) :
    .reduce tasks ∈ j'.assigned := by
  unfold getReduceTask at h
  split at h
  · cases h
  · obtain rfl := Option.some.inj h
    rw [if_neg hne]
    exact List.mem_append_right _ (List.mem_singleton_self _)

/-- A report that the job allows is handled by `TaskFinished`. -/
lemma step_taskFinished {a : Assignment} {req : FinishedRequest} (ha : a ∈ j.assigned)
    (hreports : w.Reports a req) : j.step w (.taskFinished a req) = j.report a req := by
  rw [step, if_pos ⟨ha, hreports⟩]

end Job

/-! ## The invariant -/

namespace Fleet

/-- The invariant of calm runs. The master sees a run of `Job`; what it believes to be on the disk
is there; and a file under its final name is what it should be. -/
structure Inv (app : App) (s : Fleet) : Prop where
  job : Transition.Reach (Job.step app.workload) Job.Calm (Job.init app.workload) s.job
  nodup : ∀ tasks, .reduce tasks ∈ s.job.assigned → tasks.Nodup
  input : ∀ f ∈ app.files, s.disk f = app.inputs f
  file : ∀ name Y, app.workload.IsFile name Y → s.disk name = none ∨ app.Published s.disk name
  output : ∀ Y : ℤ, 0 < Y → Y ≤ app.nReduce →
    s.disk (outName Y) = none ∨ app.Reduced s.disk Y
  finished : ∀ f X, app.workload.taskId f = some X → s.job.master.mapTask.lookup f = none →
    ∀ Y ∈ app.workload.buckets f, app.Published s.disk (numberToStr X Y)
  completed : ∀ tasks ∈ s.job.completed, ∀ Y, app.workload.Full Y tasks → app.Reduced s.disk Y
  sound : ∀ i, (s.procs i).Sound app s.job.assigned s.disk
  temps : Publication.Private app.Final s.disk fun i => (s.procs i).temp
  apart : ∀ f ∈ app.files, ∀ i, f ∉ (s.procs i).temp

namespace Inv

variable {app : App} {s : Fleet}

/-- The invariant holds at the start. -/
lemma init (app : App) : Inv app (Fleet.init app) where
  job := .refl
  nodup tasks h := absurd h List.not_mem_nil
  input f _ := rfl
  file name Y h := Or.inl (app.clean name (App.final_of_isFile h))
  output Y hpos hle := Or.inl (app.clean _ (App.final_outName hpos hle))
  finished f X hX hnone := absurd (hX.symm.trans hnone) (by simp)
  completed tasks h := absurd h List.not_mem_nil
  sound i := trivial
  temps := ⟨fun i n hn => absurd hn (by simp [Fleet.init, Process.temp]),
    fun i n hn => absurd hn (by simp [Fleet.init, Process.temp]),
    fun i j n hn => absurd hn (by simp [Fleet.init, Process.temp])⟩
  apart f _ i := by simp [Fleet.init, Process.temp]

/-- What has been handed out can be worked on: the files of a reduce task are there.

**Proof sketch.** A reduce task is handed out in the second phase of the job, when all map tasks are
finished, and the files of a finished map task are on the disk. -/
lemma handed (h : Inv app s) : Handed app s.job.assigned s.disk := by
  obtain ⟨hmap, hphase⟩ := Job.invariant_of_reach h.job
  refine ⟨hmap.assigned, fun tasks ht => ?_, h.nodup, fun tasks ht name Y hname => ?_⟩
  · rcases hphase with hcollecting | hreducing
    · exact absurd ht (hcollecting.assigned tasks)
    · exact hreducing.assigned tasks ht
  · rcases hphase with hcollecting | hreducing
    · exact absurd ht (hcollecting.assigned tasks)
    · obtain ⟨f, X, hX, hY, rfl⟩ := hname
      exact h.finished f X hX (hmap.mapsDone hreducing.mapsDone f) Y hY

/-- The input files stay there. -/
lemma input_ne_none (h : Inv app s) {f : String} (hf : f ∈ app.files) : s.disk f ≠ none :=
  h.input f hf ▸ app.present f hf

/-- Input files stay: they are in use, have no final names, and are no temporary files. -/
lemma input_kept (h : Inv app s) {i : ℕ} {t : Option String} {disk' : Disk}
    (heffect : Publication.Effect app.Final s.disk (s.procs i).temp t disk') {f : String}
    (hf : f ∈ app.files) : disk' f = app.inputs f :=
  (heffect.apply_of_notMem (h.input_ne_none hf)
    (fun hfinal => app.present f hf (app.clean f hfinal)) (h.apart f hf i)).trans (h.input f hf)

/-- A step of the master, on behalf of a worker or by itself; the disk stays.

**Proof sketch.** By what a step of the master can change. A task that this step finishes has been
reported by a sound process, whose files are published. -/
lemma job_step (h : Inv app s) {e : Event} {j' : Job}
    (hstep : s.job.step app.workload e = some j') (hcalm : s.job.Calm e)
    (hreport : ∀ a req, e = .taskFinished a req →
      (Process.finished a req).Sound app s.job.assigned s.disk)
    {procs' : ℕ → Process} (hsound : ∀ i, (procs' i).Sound app j'.assigned s.disk)
    (htemp : ∀ i, (procs' i).temp = (s.procs i).temp) :
    Inv app ⟨j', s.running, s.disk, procs'⟩ := by
  have hchanges := Job.changes_of_step hstep
  refine ⟨.tail e h.job hcalm hstep, fun tasks ht => ?_, h.input, h.file, h.output, ?_, ?_, hsound,
    ?_, ?_⟩
  · exact (hchanges.nodup tasks ht).elim (h.nodup tasks) id
  · intro f X hX hnone Y hY
    rcases hchanges.finished f hnone with hold | ⟨task, req, rfl, htype, rfl⟩
    · exact h.finished f X hX hold Y hY
    · obtain ⟨ha, -, hfiles, -⟩ := hreport _ _ rfl
      obtain rfl := Option.some.inj (hX.symm.trans (h.handed.map task ha))
      exact hfiles task rfl htype Y hY
  · intro tasks ht Y hfull
    rcases hchanges.completed tasks ht with hold | ⟨req, rfl, htype⟩
    · exact h.completed tasks hold Y hfull
    · exact (hreport _ _ rfl).2.2.2 tasks Y rfl htype hfull
  · simpa only [htemp] using h.temps
  · simpa only [htemp] using h.apart

/-- A file operation of worker `i`; the master sees nothing of it.

**Proof sketch.** The operation only publishes (`Moves.advances`), so what was published stays. The
process stays sound by `Moves.sound`, the others because their temporary files are their own. -/
lemma act_step (h : Inv app s) {i : ℕ} {act : Act} {p' : Process} {disk' : Disk}
    (hstep : (s.procs i).step app act s.disk = some (p', disk')) (hact : act.Heeded)
    (hclean : (s.procs i).Clean app act) :
    Inv app ⟨s.job, s.running, disk', Function.update s.procs i p'⟩ := by
  have hmoves := Process.moves_of_step hstep hact
  have hnew : ∀ tmp ∈ p'.temp, ¬ app.Final tmp := by
    intro tmp htmp
    rcases Process.temp_of_step hstep with hnone | hsame | hcreated
    · rw [hnone] at htmp
      cases htmp
    · exact h.temps.hidden i tmp (hsame ▸ htmp)
    · exact hclean tmp (hcreated ▸ htmp)
  have hadv := hmoves.advances (h.sound i) h.handed (h.temps.hidden i) hnew
  have heffect := hmoves.effect (h.sound i) h.handed hnew
  have htemps : (fun k => (Function.update s.procs i p' k).temp) =
      Function.update (fun k => (s.procs k).temp) i p'.temp := by
    funext k
    exact Function.apply_update (fun _ => Process.temp) s.procs i p' k
  refine ⟨h.job, h.nodup, fun f hf => h.input_kept heffect hf, fun name Y hname => ?_,
    fun Y hpos hle => ?_, fun f X hX hnone Y hY => ?_, fun tasks ht Y hfull => ?_, fun k => ?_, ?_,
    fun f hf k => ?_⟩
  · rcases hadv.file name Y hname with heq | hpub
    · rcases h.file name Y hname with hnone | hpub
      · exact Or.inl (heq.trans hnone)
      · exact Or.inr (heq.trans hpub)
    · exact Or.inr hpub
  · rcases hadv.output Y hpos hle with heq | hred
    · rcases h.output Y hpos hle with hnone | hred
      · exact Or.inl (heq.trans hnone)
      · exact Or.inr (hadv.reduced hred)
    · exact Or.inr hred
  · exact hadv.published ⟨f, X, hX, hY, rfl⟩ (h.finished f X hX hnone Y hY)
  · exact hadv.reduced (h.completed tasks ht Y hfull)
  · by_cases hk : k = i
    · subst hk
      show (Function.update s.procs k p' k).Sound app s.job.assigned disk'
      rw [Function.update_self]
      exact hmoves.sound (h.sound k) h.handed hadv h.input
    · show (Function.update s.procs i p' k).Sound app s.job.assigned disk'
      rw [Function.update_of_ne hk]
      exact (h.sound k).mono h.handed.map hadv (fun _ ha => ha)
        fun tmp htmp => h.temps.apply_other heffect hk htmp
  · show Publication.Private app.Final disk' fun k => (Function.update s.procs i p' k).temp
    rw [htemps]
    exact h.temps.effect heffect
  · show f ∉ (fun k => (Function.update s.procs i p' k).temp) k
    rw [htemps]
    by_cases hk : k = i
    · subst hk
      rw [Function.update_self]
      exact heffect.notMem (h.input_ne_none hf) (h.apart f hf k)
    · rw [Function.update_of_ne hk]
      exact h.apart f hf k

/-- Worker `i` goes from one state without a temporary file to another; the others see more
assignments. -/
lemma update_sound (h : Inv app s) {i : ℕ} {p : Process} {assigned' : List Assignment}
    (hassigned : ∀ a ∈ s.job.assigned, a ∈ assigned') (hp : p.Sound app assigned' s.disk) (k : ℕ) :
    (Function.update s.procs i p k).Sound app assigned' s.disk := by
  by_cases hk : k = i
  · subst hk
    rw [Function.update_self]
    exact hp
  · rw [Function.update_of_ne hk]
    exact (h.sound k).mono h.handed.map (.refl app s.disk) hassigned fun _ _ => rfl

/-- A process without a temporary file before and after its step changes nothing for the others. -/
lemma update_temp {i : ℕ} {p : Process} (hold : (s.procs i).temp = none) (hnew : p.temp = none)
    (k : ℕ) : (Function.update s.procs i p k).temp = (s.procs k).temp := by
  by_cases hk : k = i
  · subst hk
    rw [Function.update_self, hold, hnew]
  · rw [Function.update_of_ne hk]

/-- A step of one of the master's own goroutines. -/
lemma own_step (h : Inv app s) {e : Event} {j' : Job}
    (hstep : s.job.step app.workload e = some j') (hcalm : s.job.Calm e)
    (hown : ∀ a req, e ≠ .taskFinished a req) : Inv app { s with job := j' } :=
  h.job_step hstep hcalm (fun a req he => absurd he (hown a req))
    (fun i => (h.sound i).mono h.handed.map (.refl app s.disk)
      (Job.changes_of_step hstep).assigned fun _ _ => rfl)
    fun _ => rfl

/-- The master panics over the report of worker `i`, which ends. -/
lemma panic_step (h : Inv app s) {i : ℕ} (htemp : (s.procs i).temp = none) :
    Inv app { s with running := false, procs := Function.update s.procs i .exited } := by
  refine ⟨h.job, h.nodup, h.input, h.file, h.output, h.finished, h.completed,
    h.update_sound (fun _ ha => ha) trivial, ?_, ?_⟩
  · simpa only [update_temp htemp (rfl : Process.exited.temp = none)] using h.temps
  · simpa only [update_temp htemp (rfl : Process.exited.temp = none)] using h.apart

/-- **Every step of a calm run keeps the invariant.**

**Proof sketch.** A step of the master is a step of its job, which knows what the workers report;
an operation of a worker changes final names only to what they should hold. -/
theorem step (h : Inv app s) {e : FleetEvent} {s' : Fleet} (hstep : s.step app e = some s')
    (hcalm : s.Calm app e) : Inv app s' := by
  cases e with
  | getMapTask i fileName =>
    simp only [Fleet.step] at hstep
    split_ifs at hstep with hguard
    obtain ⟨⟨j', task⟩, hget, rfl⟩ := Option.map_eq_some_iff.mp hstep
    have hjob : s.job.step app.workload (.getMapTask fileName) = some j' := by
      rw [Job.step, hget, Option.map_some]
    have hassigned : .map task ∈ j'.assigned := Job.mem_assigned_of_getMapTask hget
    exact h.job_step hjob trivial (fun _ _ he => by cases he)
      (h.update_sound (Job.changes_of_step hjob).assigned hassigned)
      (update_temp (by rw [hguard.2]; rfl) rfl)
  | getReduceTask i number tasks =>
    simp only [Fleet.step] at hstep
    split_ifs at hstep with hguard hempty
    · obtain ⟨j', hjob, rfl⟩ := Option.map_eq_some_iff.mp hstep
      exact h.own_step (e := .getReduceTask number tasks) hjob hcalm (by simp)
    · obtain ⟨j', hget, rfl⟩ := Option.map_eq_some_iff.mp hstep
      have hjob : s.job.step app.workload (.getReduceTask number tasks) = some j' := hget
      have hassigned : .reduce tasks ∈ j'.assigned :=
        Job.mem_assigned_of_getReduceTask hget hempty
      exact h.job_step hjob hcalm (fun _ _ he => by cases he)
        (h.update_sound (Job.changes_of_step hjob).assigned ⟨hassigned, [], rfl, rfl, rfl⟩)
        (update_temp (by rw [hguard.2]; rfl) rfl)
  | act i act =>
    obtain ⟨⟨p', disk'⟩, hact, rfl⟩ := Option.map_eq_some_iff.mp hstep
    exact h.act_step hact hcalm.1 hcalm.2
  | report i =>
    simp only [Fleet.step] at hstep
    split at hstep
    · rename_i a req hrunning hproc
      have hsound := h.sound i
      rw [hproc] at hsound
      have htemp : (s.procs i).temp = none := by rw [hproc]; rfl
      split at hstep
      · rename_i j' hreport
        obtain rfl := Option.some.inj hstep
        have hjob := (Job.step_taskFinished hsound.1 hsound.2.1).trans hreport
        refine h.job_step hjob trivial ?_
          (h.update_sound (Job.changes_of_step hjob).assigned trivial) (update_temp htemp rfl)
        rintro a' req' ⟨⟩
        exact hsound
      · obtain rfl := Option.some.inj hstep
        exact h.panic_step htemp
    · cases hstep
  | registerFiles k =>
    simp only [Fleet.step] at hstep
    split_ifs at hstep
    obtain ⟨j', hjob, rfl⟩ := Option.map_eq_some_iff.mp hstep
    exact h.own_step hjob trivial (by simp)
  | recoverRequest k =>
    simp only [Fleet.step] at hstep
    split_ifs at hstep
    obtain ⟨j', hjob, rfl⟩ := Option.map_eq_some_iff.mp hstep
    exact h.own_step hjob trivial (by simp)

end Inv

/-- **The invariant holds in every calm run.** -/
theorem inv_of_reach {app : App} {s : Fleet}
    (h : Transition.Reach (step app) (Calm app) (init app) s) : Inv app s :=
  h.invariant (Inv.init app) fun _ _ _ _ hinv hcalm hstep => hinv.step hstep hcalm

end Fleet

/-! ## What is in a file -/

/-- The buckets of the job that have a key. -/
def Workload.usedBuckets (w : Workload) : List ℤ := (w.files.flatMap w.buckets).dedup

/-- The buckets with files are the used ones. -/
lemma Workload.exists_isFile_iff {w : Workload} {Y : ℤ} :
    (∃ name, w.IsFile name Y) ↔ Y ∈ w.usedBuckets := by
  rw [usedBuckets, List.mem_dedup, List.mem_flatMap]
  constructor
  · rintro ⟨name, f, X, hX, hY, -⟩
    exact ⟨f, Workload.mem_files_of_taskId hX, hY⟩
  · rintro ⟨f, hf, hY⟩
    obtain ⟨X, hX⟩ := Option.ne_none_iff_exists'.mp (w.taskId_ne_none hf)
    exact ⟨_, f, X, hX, hY, rfl⟩

section Contents

variable {app : App} {f : String} {x : ℕ} {Y : ℤ} {tasks : List AssignTask}

/-- Everything that the map tasks emit. -/
def App.pairs (app : App) : List KeyValue := app.files.flatMap app.workload.output

end Contents

section Instance

/-- Two input files. -/
def letterFiles (name : String) : Option String :=
  if name = "a" then some "xy" else if name = "b" then some "x" else none

/-- The input files are there. -/
lemma letterFiles_present : ∀ f ∈ ["a", "b"], letterFiles f ≠ none := by decide

/-- No file has a final name yet. -/
lemma letterFiles_clean : ∀ name ∈ finalNames 2 1, letterFiles name = none := by decide +kernel

/-- There are finitely many files. -/
lemma letterFiles_finite : ∃ names : List String, ∀ name ∉ names, letterFiles name = none := by
  refine ⟨["a", "b"], fun name hname => ?_⟩
  have hne : name ≠ "a" ∧ name ≠ "b" := by simpa using hname
  rw [letterFiles, if_neg hne.1, if_neg hne.2]

/-- Counting letters, with one bucket. -/
def letterCount : App where
  codec := quotedCodec
  hash := ihash
  mapf := countMap
  reducef := countReduce
  files := ["a", "b"]
  nReduce := 1
  nReduce_pos := Nat.one_pos
  inputs := letterFiles
  present := letterFiles_present
  clean := letterFiles_clean

/-- A map task from its assignment to the registration of its files. -/
def mapTaskBy (i : ℕ) (fileName : String) : List FleetEvent :=
  [.getMapTask i fileName, .act i (.openFile foundOrder), .act i (.create "77"),
    .act i .write, .act i .rename, .act i .finish, .report i, .registerFiles 0]

/-- The first worker crashes with a temporary file, and another one does both map tasks. -/
def mapPhaseWithCrash : List FleetEvent :=
  [.getMapTask 0 "a", .act 0 (.openFile foundOrder), .act 0 (.create "42"),
    .act 0 .crash, .recoverRequest 0] ++ mapTaskBy 1 "a" ++ mapTaskBy 1 "b"

end Instance

end Mit6824.MapReduce
