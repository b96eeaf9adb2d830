import Mit6824.MapReduce.Barrier
import Mit6824.MapReduce.Output
import Mit6824.MapReduce.Processes

set_option autoImplicit false

/-!
# A master, its workers and their disk

The whole program: the job of the master, any number of worker processes that go through `doMap`
and `doReduce` file by file, and the disk they share. Workers can be slow, work on the same task at
the same time, fail and crash; a reduce task that fails makes the master panic.

## Main definitions

* `Mit6824.MapReduce.Fleet`, `Mit6824.MapReduce.Fleet.step` — the system and its steps.
* `Mit6824.MapReduce.Fleet.Calm` — no reduce task is handed out too early, no error is ignored, and
  no temporary file has the name of another file of the job.
* `Mit6824.MapReduce.App.Published`, `Mit6824.MapReduce.App.Reduced` — an intermediate file or an
  output file is there, with the content it should have.
* `Mit6824.MapReduce.Process.Sound` — what a process has done so far is as it should be.

## Main results

* `Mit6824.MapReduce.Process.Moves.advances`, `Mit6824.MapReduce.Process.Moves.sound` — an
  operation of a sound process changes a final name only to what it should hold, and the process
  stays sound.
-/

namespace Mit6824.MapReduce

/-- The master with what is under way, the disk, and the workers by number. The master is no longer
`running` when one of its handlers has panicked. -/
structure Fleet where
  job : Job
  running : Bool
  disk : Disk
  procs : ℕ → Process

/-- A step: a critical section of `GetTask` for worker `i`, a file operation of worker `i`, its
report, and the steps of the master's own goroutines. -/
inductive FleetEvent
  | getMapTask (i : ℕ) (fileName : String)
  | getReduceTask (i : ℕ) (number : ℤ) (tasks : List AssignTask)
  | act (i : ℕ) (act : Act)
  | report (i : ℕ)
  | registerFiles (k : ℕ)
  | recoverRequest (k : ℕ)

namespace Fleet

/-- The start of the program. -/
def init (app : App) : Fleet := ⟨Job.init app.workload, true, app.inputs, fun _ => .idle⟩

/-- One step; `none` when it cannot happen. When a handler of the master panics, the whole master
is gone, and the worker whose call has failed ends. -/
def step (app : App) (s : Fleet) : FleetEvent → Option Fleet
  | .getMapTask i fileName =>
    if s.running ∧ s.procs i = .idle then
      (s.job.getMapTask fileName).map fun r =>
        { s with job := r.1, procs := Function.update s.procs i (.opening r.2) }
    else none
  | .getReduceTask i number tasks =>
    if s.running ∧ s.procs i = .idle then
      (s.job.getReduceTask number tasks).map fun j =>
        if tasks = [] then { s with job := j }
        else { s with job := j, procs := Function.update s.procs i (.reading tasks tasks [] []) }
    else none
  | .act i act =>
    ((s.procs i).step app act s.disk).map fun r =>
      { s with disk := r.2, procs := Function.update s.procs i r.1 }
  | .report i =>
    match s.running, s.procs i with
    | true, .finished a req =>
      match s.job.report a req with
      | some j => some { s with job := j, procs := Function.update s.procs i .idle }
      | none => some { s with running := false, procs := Function.update s.procs i .exited }
    | _, _ => none
  | .registerFiles k =>
    if s.running then
      (s.job.step app.workload (.registerFiles k)).map fun j => { s with job := j }
    else none
  | .recoverRequest k =>
    if s.running then
      (s.job.step app.workload (.recoverRequest k)).map fun j => { s with job := j }
    else none

/-- No reduce task is handed out while a `TaskFinished` handler is between its two sections, no
error is ignored, and temporary files have names of their own. -/
def Calm (app : App) (s : Fleet) : FleetEvent → Prop
  | .getReduceTask _ _ _ => s.job.pending = []
  | .act i act => act.Heeded ∧ (s.procs i).Clean app act
  | _ => True

instance (app : App) (s : Fleet) : ∀ e, Decidable (s.Calm app e)
  | .getReduceTask _ _ _ => inferInstanceAs (Decidable (_ = _))
  | .act i act => inferInstanceAs (Decidable (act.Heeded ∧ (s.procs i).Clean app act))
  | .getMapTask _ _ | .report _ | .registerFiles _ | .recoverRequest _ =>
    inferInstanceAs (Decidable True)

/-- What a process does when it is left alone, as a run of the fleet.

**Proof sketch.** Every operation of the process is a step of the fleet that changes the disk and
this process; the run is lifted operation by operation. -/
theorem reach_of_runs {app : App} (s : Fleet) (i : ℕ) {p' : Process} {disk' : Disk}
    (h : Process.Runs app (s.procs i, s.disk) (p', disk')) :
    Transition.Reach (step app) (Calm app) s
      ⟨s.job, s.running, disk', Function.update s.procs i p'⟩ := by
  have hnext : ∀ (r : Process × Disk) (act : Act) (r' : Process × Disk),
      act.Heeded ∧ r.1.Clean app act → Process.alone app r act = some r' →
      Transition.Reach (step app) (Calm app)
        ⟨s.job, s.running, r.2, Function.update s.procs i r.1⟩
        ⟨s.job, s.running, r'.2, Function.update s.procs i r'.1⟩ := by
    intro r act r' hcalm hstep
    refine .single (.act i act) ?_ ?_
    · show act.Heeded ∧ (Function.update s.procs i r.1 i).Clean app act
      rwa [Function.update_self]
    · have hact : step app ⟨s.job, s.running, r.2, Function.update s.procs i r.1⟩ (.act i act) =
          ((Function.update s.procs i r.1 i).step app act r.2).map fun q =>
            ⟨s.job, s.running, q.2, Function.update (Function.update s.procs i r.1) i q.1⟩ := rfl
      rw [hact, Function.update_self, show r.1.step app act r.2 = some r' from hstep,
        Option.map_some, Function.update_idem]
  have hlift : Transition.Reach (step app) (Calm app)
      ⟨s.job, s.running, s.disk, Function.update s.procs i (s.procs i)⟩
      ⟨s.job, s.running, disk', Function.update s.procs i p'⟩ :=
    h.lift (f := fun r => Fleet.mk s.job s.running r.2 (Function.update s.procs i r.1)) hnext
  rwa [Function.update_eq_self] at hlift

/-- A report that the master handles. -/
lemma reach_report (app : App) {s : Fleet} {i : ℕ} {a : Assignment} {req : FinishedRequest}
    {j : Job} (hrunning : s.running = true) (hproc : s.procs i = .finished a req)
    (hreport : s.job.report a req = some j) :
    Transition.Reach (step app) (Calm app) s
      ⟨j, s.running, s.disk, Function.update s.procs i .idle⟩ := by
  refine .single (.report i) trivial ?_
  simp only [step, hrunning, hproc, hreport]

end Fleet

/-! ## What the files should hold -/

/-- The order in which a map function's output is found is an order of it. -/
lemma order_perm (l : List ℤ) : (id l).Perm l := .refl l

/-- The buckets in the order in which they were found. -/
def foundOrder : Range := ⟨id, order_perm⟩

namespace App

variable (app : App)

/-- One call of `doMap` for every input file. -/
def maps : List MapCall :=
  app.files.zipIdx.map fun p => ⟨⟨p.1, p.2 + 1⟩, app.content p.1, foundOrder⟩

/-- The intermediate files, as one call of `doMap` after the other would leave them. -/
def mapped : Disk := mapPhase app.codec app.hash app.nReduce app.mapf app.maps

/-- The file is there, with the content it should have. -/
def Published (disk : Disk) (name : String) : Prop := disk name = app.mapped name

/-- The records of a reduce task that has all its files. -/
def records (sorter : Sorter) (tasks : List AssignTask) : List Record :=
  reduceRuns app.reducef (sorter.sort (tasks.flatMap (diskPairs app.codec app.mapped))) 0

/-- The output file of bucket `Y` is there, with the records of all files of the bucket. -/
def Reduced (disk : Disk) (Y : ℤ) : Prop :=
  ∃ sorter tasks, app.workload.Full Y tasks ∧ tasks.Nodup ∧
    disk (outName Y) = some (printRecords (app.records sorter tasks))

/-- A name that the job gives to a file in the end. -/
def Final (name : String) : Prop := name ∈ finalNames app.files.length app.nReduce

end App

section Names

variable {app : App} {f name : String} {X Y : ℤ}

/-- The map tasks are numbered up to the number of files. -/
lemma Workload.taskId_le {w : Workload} (h : w.taskId f = some X) : X ≤ w.files.length := by
  obtain ⟨x, rfl, hx⟩ := Workload.getElem?_of_taskId h
  obtain ⟨hlt, -⟩ := List.getElem?_eq_some_iff.mp hx
  omega

/-- Only input files have map tasks. -/
lemma Workload.mem_files_of_taskId {w : Workload} (h : w.taskId f = some X) : f ∈ w.files := by
  obtain ⟨x, -, hx⟩ := Workload.getElem?_of_taskId h
  exact List.mem_of_getElem? hx

/-- The buckets are numbered up to `nReduce`. -/
lemma Workload.buckets_le {w : Workload} (h : Y ∈ w.buckets f) : Y ≤ w.nReduce := by
  obtain ⟨kv, -, rfl⟩ := (mem_regionMap w.hash w.nReduce _ Y).mp h
  exact region_le w.nReduce_pos kv

/-- The bucket of an intermediate file is one of the job. -/
lemma Workload.IsFile.le {w : Workload} (h : w.IsFile name Y) : Y ≤ w.nReduce := by
  obtain ⟨f, X, -, hY, -⟩ := h
  exact Workload.buckets_le hY

/-- Intermediate files have final names. -/
lemma App.final_of_isFile (h : app.workload.IsFile name Y) : app.Final name := by
  obtain ⟨f, X, hX, hY, rfl⟩ := h
  exact numberToStr_mem_finalNames (Workload.taskId_pos hX) (Workload.taskId_le hX)
    (Workload.buckets_pos hY) (Workload.buckets_le hY)

/-- Output files have final names. -/
lemma App.final_outName (hpos : 0 < Y) (hle : Y ≤ app.nReduce) : app.Final (outName Y) :=
  outName_mem_finalNames hpos hle

/-- An intermediate file is no output file: a digit stands where the other has a letter. -/
lemma numberToStr_ne_outName (hX : 0 ≤ X) (Y Z : ℤ) : numberToStr X Y ≠ outName Z := by
  obtain ⟨x, rfl⟩ := Int.eq_ofNat_of_zero_le hX
  intro h
  have hlist := congrArg String.toList h
  have hrepr : (toString (x : ℤ)).toList = (Nat.repr x).toList := rfl
  simp only [numberToStr, outName, String.toList_append, List.append_assoc, hrepr] at hlist
  have hmr : "mr-out-".toList = "mr-".toList ++ ['o', 'u', 't', '-'] := by decide
  rw [hmr, List.append_assoc] at hlist
  have hrest := List.append_cancel_left hlist
  cases hdigits : (Nat.repr x).toList with
  | nil =>
    rw [hdigits] at hrest
    have hhead : '-' = 'o' := (List.cons.inj hrest).1
    revert hhead
    decide
  | cons c cs =>
    rw [hdigits] at hrest
    obtain rfl : c = 'o' := (List.cons.inj hrest).1
    have hmem : 'o' ∈ (Nat.repr x).toList := by rw [hdigits]; exact List.mem_cons_self
    rw [Nat.toList_repr] at hmem
    have hdigit := Nat.isDigit_of_mem_toDigits (by decide) (by decide) hmem
    revert hdigit
    decide

/-- Every map task is among the calls of the sequential run. -/
lemma App.mem_maps (h : app.workload.taskId f = some X) :
    ⟨⟨f, X⟩, app.content f, foundOrder⟩ ∈ app.maps := by
  obtain ⟨x, rfl, hx⟩ := Workload.getElem?_of_taskId h
  exact List.mem_map.mpr ⟨(f, x), List.mem_zipIdx_iff_getElem?.mpr hx, rfl⟩

/-- The map calls have different numbers. -/
lemma App.maps_taskId_nodup : (app.maps.map fun c => c.task.taskId).Nodup := by
  have hmap : (app.maps.map fun c => c.task.taskId) =
      (app.files.zipIdx.map Prod.snd).map fun x : ℕ => (x : ℤ) + 1 := by
    rw [App.maps, List.map_map, List.map_map]
    rfl
  rw [hmap, List.zipIdx_map_snd]
  refine (List.nodup_range').map fun x y hxy => ?_
  have : (x : ℤ) + 1 = y + 1 := hxy
  omega

/-- The numbers of the map calls are positive. -/
lemma App.maps_taskId_pos {c : MapCall} (hc : c ∈ app.maps) : 0 < c.task.taskId := by
  obtain ⟨p, -, rfl⟩ := List.mem_map.mp hc
  show (0 : ℤ) < (p.2 : ℤ) + 1
  omega

/-- What the intermediate files hold. -/
lemma App.mapped_apply (hX : app.workload.taskId f = some X) (hY : Y ∈ app.workload.buckets f) :
    app.mapped (numberToStr X Y) = some (app.codec.marshal ((app.workload.output f).filter
      fun kv => region app.hash app.nReduce kv = Y)) := by
  obtain ⟨kv, hkv, rfl⟩ := (mem_regionMap app.hash app.nReduce _ Y).mp hY
  exact mapPhase_apply app.nReduce_pos App.maps_taskId_nodup (fun c => App.maps_taskId_pos)
    (App.mem_maps hX) hkv

end Names

/-! ## Processes in a fleet -/

/-- What a process has done so far is as it should be. -/
def Process.Sound (app : App) (assigned : List Assignment) (disk : Disk) : Process → Prop
  | .idle => True
  | .opening task => .map task ∈ assigned
  | .mapping task keyVals nums todo => .map task ∈ assigned ∧
      keyVals = app.workload.output task.fileName ∧
      (nums ++ todo).Perm (app.workload.buckets task.fileName) ∧
      ∀ Y ∈ nums, app.Published disk (numberToStr task.taskId Y)
  | .filling task keyVals nums Y todo tmp written => .map task ∈ assigned ∧
      keyVals = app.workload.output task.fileName ∧
      (nums ++ Y :: todo).Perm (app.workload.buckets task.fileName) ∧
      (∀ Y ∈ nums, app.Published disk (numberToStr task.taskId Y)) ∧
      (written = true → disk tmp = app.mapped (numberToStr task.taskId Y))
  | .reading tasks todo keyVals finishTasks => .reduce tasks ∈ assigned ∧
      ∃ before, tasks = before ++ todo ∧
        keyVals = before.flatMap (diskPairs app.codec app.mapped) ∧
        finishTasks = before.map Job.reduced
  | .printing tasks finishTasks tmp todo => .reduce tasks ∈ assigned ∧
      finishTasks = tasks.map Job.reduced ∧
      ∃ sorter printed, printed ++ todo = app.records sorter tasks ∧
        disk tmp = some (printRecords printed)
  | .finished a req => a ∈ assigned ∧ app.workload.Reports a req ∧
      (∀ task, a = .map task → req.finishedType = .mapTask →
        ∀ Y ∈ app.workload.buckets task.fileName,
          app.Published disk (numberToStr task.taskId Y)) ∧
      ∀ tasks Y, a = .reduce tasks → req.finishedType = .reduceTask →
        app.workload.Full Y tasks → app.Reduced disk Y
  | .exited => True

/-- What the master has handed out. -/
structure Fleet.Handed (app : App) (assigned : List Assignment) (disk : Disk) : Prop where
  map : ∀ task, .map task ∈ assigned → app.workload.taskId task.fileName = some task.taskId
  full : ∀ tasks, .reduce tasks ∈ assigned → ∃ Y, app.workload.Full Y tasks
  nodup : ∀ tasks, .reduce tasks ∈ assigned → tasks.Nodup
  /-- Reduce tasks are handed out when all intermediate files are there. -/
  ready : ∀ tasks, .reduce tasks ∈ assigned → ∀ name Y, app.workload.IsFile name Y →
    app.Published disk name

/-- Files only come to be what they should be. -/
structure Fleet.Advances (app : App) (disk disk' : Disk) : Prop where
  file : ∀ name Y, app.workload.IsFile name Y →
    disk' name = disk name ∨ app.Published disk' name
  output : ∀ Y : ℤ, 0 < Y → Y ≤ app.nReduce →
    disk' (outName Y) = disk (outName Y) ∨ app.Reduced disk' Y

namespace Fleet

variable {app : App} {disk disk' : Disk} {assigned assigned' : List Assignment} {name : String}
  {Y : ℤ}

/-- Nothing has been written. -/
lemma Advances.refl (app : App) (disk : Disk) : Advances app disk disk :=
  ⟨fun _ _ _ => Or.inl rfl, fun _ _ _ => Or.inl rfl⟩

/-- What is published stays published. -/
lemma Advances.published (h : Advances app disk disk') (hname : app.workload.IsFile name Y)
    (hpub : app.Published disk name) : app.Published disk' name := by
  rcases h.file name Y hname with heq | hpub'
  · exact heq.trans hpub
  · exact hpub'

/-- The file of bucket `Y` of a map task. -/
lemma Advances.published_numberToStr (h : Advances app disk disk') {task : AssignTask}
    (hid : app.workload.taskId task.fileName = some task.taskId)
    (hY : Y ∈ app.workload.buckets task.fileName)
    (hpub : app.Published disk (numberToStr task.taskId Y)) :
    app.Published disk' (numberToStr task.taskId Y) :=
  h.published ⟨_, _, hid, hY, rfl⟩ hpub

/-- A bucket that is reduced stays reduced. -/
lemma Advances.reduced (h : Advances app disk disk') (hred : app.Reduced disk Y) :
    app.Reduced disk' Y := by
  obtain ⟨sorter, tasks, hfull, hnodup, hdisk⟩ := hred
  obtain ⟨name, hname⟩ := hfull.used
  rcases h.output Y hname.pos hname.le with heq | hred'
  · exact ⟨sorter, tasks, hfull, hnodup, heq.trans hdisk⟩
  · exact hred'

end Fleet

namespace Process

variable {app : App} {disk disk' : Disk} {assigned assigned' : List Assignment} {p p' : Process}

/-- A process stays sound when others work, as long as its temporary file is left alone.

**Proof sketch.** By the stage of the process. Its assignment stays, files that were published stay
published, and its temporary file has not changed. -/
lemma Sound.mono (h : p.Sound app assigned disk) (hmap : ∀ task, .map task ∈ assigned →
      app.workload.taskId task.fileName = some task.taskId)
    (hadv : Fleet.Advances app disk disk') (hassigned : ∀ a ∈ assigned, a ∈ assigned')
    (htemp : ∀ tmp ∈ p.temp, disk' tmp = disk tmp) : p.Sound app assigned' disk' := by
  cases p with
  | idle => trivial
  | exited => trivial
  | opening task => exact hassigned _ h
  | mapping task keyVals nums todo =>
    obtain ⟨ht, hkv, hperm, hnums⟩ := h
    exact ⟨hassigned _ ht, hkv, hperm, fun Y hY => hadv.published_numberToStr (hmap task ht)
      (hperm.mem_iff.mp (List.mem_append_left _ hY)) (hnums Y hY)⟩
  | filling task keyVals nums Y todo tmp written =>
    obtain ⟨ht, hkv, hperm, hnums, hwritten⟩ := h
    exact ⟨hassigned _ ht, hkv, hperm, fun Y hY => hadv.published_numberToStr (hmap task ht)
      (hperm.mem_iff.mp (List.mem_append_left _ hY)) (hnums Y hY),
      fun hw => (htemp tmp rfl).trans (hwritten hw)⟩
  | reading tasks todo keyVals finishTasks => exact ⟨hassigned _ h.1, h.2⟩
  | printing tasks finishTasks tmp todo =>
    obtain ⟨ht, hfins, sorter, printed, hrecords, hdisk⟩ := h
    exact ⟨hassigned _ ht, hfins, sorter, printed, hrecords, (htemp tmp rfl).trans hdisk⟩
  | finished a req =>
    obtain ⟨ha, hreports, hfiles, hreduced⟩ := h
    refine ⟨hassigned _ ha, hreports, ?_, ?_⟩
    · rintro task rfl htype Y hY
      exact hadv.published_numberToStr (hmap task ha) hY (hfiles task rfl htype Y hY)
    · rintro tasks Y rfl htype hfull
      exact hadv.reduced (hreduced tasks Y rfl htype hfull)

/-- A final name changes only when the process renames its temporary file.

**Proof sketch.** By the operation. Creating and writing concern the temporary file, which has no
final name; renaming changes the one new name. -/
lemma Moves.apply_final (h : Moves app disk p p' disk') (hold : ∀ tmp ∈ p.temp, ¬ app.Final tmp)
    (hnew : ∀ tmp ∈ p'.temp, ¬ app.Final tmp) {name : String} (hname : app.Final name) :
    disk' name = disk name ∨
    (∃ task keyVals nums Y todo tmp, p = .filling task keyVals nums Y todo tmp true ∧
      name = numberToStr task.taskId Y ∧ disk' name = disk tmp) ∨
    ∃ task tasks finishTasks tmp, p = .printing (task :: tasks) finishTasks tmp [] ∧
      name = outName task.taskId ∧ disk' name = disk tmp := by
  have hne : ∀ {tmp : String}, ¬ app.Final tmp → name ≠ tmp := by
    rintro tmp htmp rfl
    exact htmp hname
  cases h with
  | create fresh => exact Or.inl (Function.update_of_ne (hne (hnew _ rfl)) _ _)
  | write => exact Or.inl (Function.update_of_ne (hne (hold _ rfl)) _ _)
  | failFilling part => exact Or.inl (Function.update_of_ne (hne (hold _ rfl)) _ _)
  | createOutput sorter fresh => exact Or.inl (Function.update_of_ne (hne (hnew _ rfl)) _ _)
  | print => exact Or.inl (Function.update_of_ne (hne (hold _ rfl)) _ _)
  | @rename task keyVals nums todo Y tmp =>
    by_cases heq : name = numberToStr task.taskId Y
    · subst heq
      exact Or.inr (Or.inl ⟨_, _, _, _, _, _, rfl, rfl, Publication.rename_apply_new _ _ _⟩)
    · exact Or.inl (Publication.rename_apply_of_ne (hne (hold _ rfl)) heq)
  | @renameOutput task tasks finishTasks tmp =>
    by_cases heq : name = outName task.taskId
    · subst heq
      exact Or.inr (Or.inr ⟨_, _, _, _, rfl, rfl, Publication.rename_apply_new _ _ _⟩)
    · exact Or.inl (Publication.rename_apply_of_ne (hne (hold _ rfl)) heq)
  | _ => exact Or.inl rfl

/-- The text that a process prints for bucket `Y` is complete when it is renamed. -/
lemma Sound.reduced {task : AssignTask} {tasks : List AssignTask}
    {finishTasks : List FinishTask} {tmp : String} {Y : ℤ}
    (h : (printing (task :: tasks) finishTasks tmp []).Sound app assigned disk)
    (handed : Fleet.Handed app assigned disk) (hfull : app.workload.Full Y (task :: tasks))
    (hdisk : disk' (outName Y) = disk tmp) : app.Reduced disk' Y := by
  obtain ⟨ht, -, sorter, printed, hrecords, htmp⟩ := h
  rw [List.append_nil] at hrecords
  exact ⟨sorter, _, hfull, handed.nodup _ ht, by rw [hdisk, htmp, hrecords]⟩

/-- An operation of a sound process changes a final name only to what it should hold.

**Proof sketch.** A final name changes by renaming only, and a temporary file that is renamed is
complete. -/
lemma Moves.advances (h : Moves app disk p p' disk') (hsound : p.Sound app assigned disk)
    (handed : Fleet.Handed app assigned disk) (hold : ∀ tmp ∈ p.temp, ¬ app.Final tmp)
    (hnew : ∀ tmp ∈ p'.temp, ¬ app.Final tmp) : Fleet.Advances app disk disk' := by
  refine ⟨fun name Y hname => ?_, fun Y hpos hle => ?_⟩
  · rcases h.apply_final hold hnew (App.final_of_isFile hname) with heq |
      ⟨task, keyVals, nums, Z, todo, tmp, rfl, rfl, heq⟩ | ⟨task, tasks, fins, tmp, rfl, hout, -⟩
    · exact Or.inl heq
    · exact Or.inr (heq.trans (hsound.2.2.2.2 rfl))
    · obtain ⟨f, X, hX, -, rfl⟩ := hname
      exact absurd hout (numberToStr_ne_outName (Workload.taskId_pos hX).le _ _)
  · rcases h.apply_final hold hnew (App.final_outName hpos hle) with heq |
      ⟨task, keyVals, nums, Z, todo, tmp, rfl, hfile, -⟩ | ⟨task, tasks, fins, tmp, rfl, hout, heq⟩
    · exact Or.inl heq
    · have hX := Workload.taskId_pos (handed.map task hsound.1)
      exact absurd hfile.symm (numberToStr_ne_outName hX.le _ _)
    · obtain ⟨Z, hfull⟩ := handed.full _ hsound.1
      obtain ⟨name, hname⟩ := hfull.used
      rw [hfull.taskId List.mem_cons_self] at hout
      obtain rfl := outName_inj hpos hname.pos hout
      exact Or.inr (hsound.reduced handed hfull heq)

/-- **A process stays sound** when it makes an operation.

**Proof sketch.** By the operation. What is read is right because the input files are unchanged and
the intermediate files of an assigned bucket are published; what is written is collected in the
temporary file and published by the rename. -/
lemma Moves.sound (h : Moves app disk p p' disk') (hsound : p.Sound app assigned disk)
    (handed : Fleet.Handed app assigned disk) (hadv : Fleet.Advances app disk disk')
    (hinput : ∀ f ∈ app.files, disk f = app.inputs f) : p'.Sound app assigned disk' := by
  have hfail : ∀ {task : AssignTask}, .map task ∈ assigned →
      (finished (.map task) ⟨.mapTaskFail, []⟩).Sound app assigned disk :=
    fun ht => ⟨ht, trivial, fun _ _ htype => absurd htype (by simp),
      fun _ _ ha => absurd ha (by simp)⟩
  cases h with
  | @openFile task content order read perm =>
    have hcontent : content = app.content task.fileName := by
      have hmem := Workload.mem_files_of_taskId (handed.map task hsound)
      rw [App.content, ← hinput _ hmem, read, Option.getD_some]
    subst hcontent
    exact ⟨hsound, rfl, perm, fun Y hY => absurd hY List.not_mem_nil⟩
  | create fresh =>
    obtain ⟨ht, hkv, hperm, hnums⟩ := hsound
    exact ⟨ht, hkv, hperm, fun Y hY => hadv.published_numberToStr (handed.map _ ht)
      (hperm.mem_iff.mp (List.mem_append_left _ hY)) (hnums Y hY), fun hw => absurd hw (by simp)⟩
  | @write task keyVals nums todo Y tmp =>
    obtain ⟨ht, rfl, hperm, hnums, -⟩ := hsound
    refine ⟨ht, rfl, hperm, fun Y hY => hadv.published_numberToStr (handed.map _ ht)
      (hperm.mem_iff.mp (List.mem_append_left _ hY)) (hnums Y hY), fun _ => ?_⟩
    rw [Function.update_self, App.mapped_apply (handed.map task ht)
      (hperm.mem_iff.mp (List.mem_append_right _ List.mem_cons_self))]
  | @rename task keyVals nums todo Y tmp =>
    obtain ⟨ht, hkv, hperm, hnums, hwritten⟩ := hsound
    refine ⟨ht, hkv, by rwa [List.append_assoc], fun Z hZ => ?_⟩
    rcases List.mem_append.mp hZ with hZ | hZ
    · exact hadv.published_numberToStr (handed.map _ ht)
        (hperm.mem_iff.mp (List.mem_append_left _ hZ)) (hnums Z hZ)
    · obtain rfl := List.mem_singleton.mp hZ
      exact (Publication.rename_apply_new _ _ _).trans (hwritten rfl)
  | finish =>
    obtain ⟨ht, -, hperm, hnums⟩ := hsound
    rw [List.append_nil] at hperm
    refine ⟨ht, ⟨rfl, rfl, hperm⟩, ?_, fun _ _ ha => absurd ha (by simp)⟩
    rintro task ⟨⟩ - Y hY
    exact hnums Y (hperm.mem_iff.mpr hY)
  | @readFile tasks todo task keyVals keyVal finishTasks content read decoded =>
    obtain ⟨ht, before, rfl, rfl, rfl⟩ := hsound
    obtain ⟨Y, hfull⟩ := handed.full _ ht
    have hpub := handed.ready _ ht task.fileName Y
      ((hfull.mem_iff task).mp (List.mem_append_right _ List.mem_cons_self)).2
    have hpairs : diskPairs app.codec app.mapped task = keyVal := by
      rw [diskPairs, ← show disk task.fileName = _ from hpub, read, Option.bind_some, decoded,
        Option.getD_some]
    refine ⟨ht, before ++ [task], by simp, ?_, ?_⟩
    · rw [List.flatMap_append, List.flatMap_singleton, hpairs]
    · rw [List.map_append]
      rfl
  | createOutput sorter fresh =>
    obtain ⟨ht, before, hbefore, rfl, rfl⟩ := hsound
    rw [List.append_nil] at hbefore
    subst hbefore
    exact ⟨ht, rfl, sorter, [], rfl, Function.update_self ..⟩
  | @print tasks finishTasks tmp r todo =>
    obtain ⟨ht, hfins, sorter, printed, hrecords, htmp⟩ := hsound
    refine ⟨ht, hfins, sorter, printed ++ [r], by rwa [List.append_assoc], ?_⟩
    rw [Function.update_self, htmp, Option.getD_some, printRecords_concat]
  | @renameOutput task tasks finishTasks tmp =>
    refine ⟨hsound.1, hsound.2.1, fun _ ha => absurd ha (by simp), ?_⟩
    rintro tasks' Y ⟨⟩ - hfull
    refine hsound.reduced handed hfull ?_
    rw [hfull.taskId List.mem_cons_self]
    exact Publication.rename_apply_new _ _ _
  | failOpening => exact hfail hsound
  | failMapping => exact hfail hsound.1
  | failFilling part =>
    exact ⟨hsound.1, trivial, fun _ _ htype => absurd htype (by simp),
      fun _ _ ha => absurd ha (by simp)⟩
  | failReading =>
    exact ⟨hsound.1, trivial, fun _ ha => absurd ha (by simp),
      fun _ _ _ htype => absurd htype (by simp)⟩
  | crash => trivial

/-- What an operation does to the disk, as an effect on private and public names. -/
lemma Moves.effect (h : Moves app disk p p' disk') (hsound : p.Sound app assigned disk)
    (handed : Fleet.Handed app assigned disk) (hnew : ∀ tmp ∈ p'.temp, ¬ app.Final tmp) :
    Publication.Effect app.Final disk p.temp p'.temp disk' := by
  cases h with
  | create fresh => exact .create _ (hnew _ rfl) fresh
  | write => exact .write _ (Or.inr rfl)
  | failFilling part => exact .write _ (Or.inl rfl)
  | @rename task keyVals nums todo Y tmp =>
    obtain ⟨ht, -, hperm, -⟩ := hsound
    exact .publish (App.final_of_isFile ⟨_, _, handed.map task ht,
      hperm.mem_iff.mp (List.mem_append_right _ List.mem_cons_self), rfl⟩)
  | createOutput sorter fresh => exact .create _ (hnew _ rfl) fresh
  | print => exact .write _ (Or.inr rfl)
  | @renameOutput task tasks finishTasks tmp =>
    obtain ⟨Y, hfull⟩ := handed.full _ hsound.1
    obtain ⟨name, hname⟩ := hfull.used
    rw [hfull.taskId List.mem_cons_self]
    exact .publish (App.final_outName hname.pos hname.le)
  | _ => exact .keep (Or.inl rfl)

end Process

end Mit6824.MapReduce
