import Mit6824.MapReduce.Barrier
import Mit6824.MapReduce.Output

set_option autoImplicit false

/-!
# Reported failures

What becomes of an assignment when the worker fails on it and says so. `doMap` and `doReduce`
return a nil list of tasks with their error, `DoWork` puts that list into its request
(`mr/worker.go`), and `TaskFinished` takes the tasks it makes free again from the request
(`mr/master.go`). So a failed map task is never made free, and the report on a failed reduce task
makes the master panic at `finishReq.Tasks[0]`.

## Main definitions

* `Mit6824.MapReduce.Worker` — a worker and what it finds around it; `Worker.work` and
  `Worker.request` are what `DoWork` does with an assignment and the request it sends.
* `Mit6824.MapReduce.Master.Completed`, `Mit6824.MapReduce.Master.Assignable` — where the tasks of
  an assignment stand.
* `Mit6824.MapReduce.Master.Restored` — the tasks of an assignment have been made free, unless they
  were completed, and nothing else has changed.

## Main results

* `Mit6824.MapReduce.failure_restores_iff`, `Mit6824.MapReduce.failure_not_restored`.
-/

namespace Mit6824.MapReduce

/-! ## The worker's side -/

/-- A worker: the functions of the application, the device, and the two orders it may find. -/
structure Worker where
  hash : String → ℕ
  nReduce : ℕ
  codec : Codec
  dev : Device
  range : Range
  sorter : Sorter
  mapf : String → String → List KeyValue
  reducef : String → List String → String

namespace Worker

variable (wk : Worker)

/-- The tasks that `doMap` or `doReduce` returns for an assignment, or the error. -/
def work (disk : Disk) : Assignment → Except WorkError (List FinishTask)
  | .map task => (doMap wk.hash wk.nReduce wk.codec wk.dev wk.range wk.mapf [task] [] disk).1
  | .reduce tasks => (doReduce wk.codec wk.dev wk.sorter wk.reducef tasks).map Prod.fst

/-- The request that `DoWork` sends for an assignment. -/
def request (disk : Disk) (a : Assignment) : Option FinishedRequest :=
  match a with
  | .map _ => workRequest .mapTask .mapTaskFail (wk.work disk a)
  | .reduce _ => workRequest .reduceTask .reduceTaskFail (wk.work disk a)

end Worker

/-! ## The master's side -/

namespace Assignment

/-- The input files of an assignment. -/
def mapFiles : Assignment → List String
  | .map task => [task.fileName]
  | .reduce _ => []

/-- The intermediate files of an assignment. -/
def reduceFiles : Assignment → List String
  | .map _ => []
  | .reduce tasks => tasks.map AssignTask.fileName

/-- The buckets of an assignment. -/
def buckets : Assignment → List ℤ
  | .map _ => []
  | .reduce tasks => tasks.map AssignTask.taskId

end Assignment

namespace Master

/-- The master has recorded that the assignment is completed. -/
def Completed (m : Master) : Assignment → Prop
  | .map task => m.isMapDone = true ∨ m.mapTask.lookup task.fileName = none
  | .reduce tasks => ∀ task ∈ tasks, m.reduceBucket.lookup task.taskId = none

/-- The tasks of the assignment can be handed out. -/
def Assignable (m : Master) : Assignment → Prop
  | .map task => ∃ num, m.mapTask.lookup task.fileName = some num ∧ 0 < num
  | .reduce tasks => ∀ task ∈ tasks, m.reduceBucket.lookup task.taskId = some true ∧
      ∃ num, m.reduceTask.lookup task.fileName = some num ∧ 0 < num

/-- `m'` is `m` after the tasks of `a` have been made free, unless they were completed. -/
structure Restored (m : Master) (a : Assignment) (m' : Master) : Prop where
  completed : m.Completed a → m' = m
  assignable : ¬ m.Completed a → m'.Assignable a
  isReduceDone : m'.isReduceDone = m.isReduceDone
  isMapDone : m'.isMapDone = m.isMapDone
  nReduce : m'.nReduce = m.nReduce
  mapTask : ∀ name ∉ a.mapFiles, m'.mapTask.lookup name = m.mapTask.lookup name
  reduceTask : ∀ name ∉ a.reduceFiles, m'.reduceTask.lookup name = m.reduceTask.lookup name
  reduceBucket : ∀ Y ∉ a.buckets, m'.reduceBucket.lookup Y = m.reduceBucket.lookup Y

/-- An unchanged master is as it should be if the assignment was completed or is free already. -/
lemma restored_self_iff (m : Master) (a : Assignment) :
    m.Restored a m ↔ m.Completed a ∨ m.Assignable a := by
  constructor
  · intro h
    by_cases hc : m.Completed a
    · exact Or.inl hc
    · exact Or.inr (h.assignable hc)
  · intro h
    exact ⟨fun _ => rfl, fun hc => h.resolve_left hc, rfl, rfl, rfl, fun _ _ => rfl,
      fun _ _ => rfl, fun _ _ => rfl⟩

/-- A failed map task that is reported without tasks leaves the master as it was. -/
lemma taskFinished_mapTaskFail_nil (m : Master) :
    m.taskFinished ⟨.mapTaskFail, []⟩ = .through m := by
  simp only [taskFinished, List.foldl_nil, ite_self]

/-- A failed reduce task that is reported without tasks makes the master panic. -/
lemma taskFinished_reduceTaskFail_nil (m : Master) :
    m.taskFinished ⟨.reduceTaskFail, []⟩ = .panic := rfl

end Master

/-! ## Both sides together -/

/-- The master has handled the worker's report on `a` and has made its tasks free, unless they were
completed. -/
def ReportRestores (wk : Worker) (disk : Disk) (m : Master) (a : Assignment) : Prop :=
  ∃ req m', wk.request disk a = some req ∧ m.taskFinished req = .through m' ∧ m.Restored a m'

variable {wk : Worker} {disk : Disk} {m : Master}

/-- The report on a failed map task has no tasks and changes nothing. -/
lemma reportRestores_map_iff {task : AssignTask}
    (hfail : wk.work disk (.map task) = .error .failed) :
    ReportRestores wk disk m (.map task) ↔
      m.Completed (.map task) ∨ m.Assignable (.map task) := by
  have hreq : wk.request disk (.map task) = some ⟨.mapTaskFail, []⟩ := by
    rw [Worker.request, hfail]
    rfl
  rw [← m.restored_self_iff]
  constructor
  · rintro ⟨req, m', hreq', hm', hrestored⟩
    obtain rfl : ⟨.mapTaskFail, []⟩ = req := Option.some.inj (hreq.symm.trans hreq')
    rw [m.taskFinished_mapTaskFail_nil] at hm'
    obtain rfl : m = m' := Master.Handled.through.inj hm'
    exact hrestored
  · intro hrestored
    exact ⟨_, m, hreq, m.taskFinished_mapTaskFail_nil, hrestored⟩

/-- The report on a failed reduce task has no tasks and is not handled. -/
lemma not_reportRestores_reduce {tasks : List AssignTask}
    (hfail : wk.work disk (.reduce tasks) = .error .failed) :
    ¬ ReportRestores wk disk m (.reduce tasks) := by
  rintro ⟨req, m', hreq, hm', -⟩
  rw [Worker.request, hfail] at hreq
  obtain rfl : ⟨.reduceTaskFail, []⟩ = req := Option.some.inj hreq
  rw [m.taskFinished_reduceTaskFail_nil] at hm'
  cases hm'

/-- **When a reported failure restores the task.** Whatever has failed, and wherever: a failed map
task is as it should be after the report just when it had been completed or made free before, and
the report on a failed reduce task is never handled.

**Proof sketch.** By the kind of the task. The report of a failed map task changes nothing, so the
task is as it was. The report of a failed reduce task has no tasks in it, and the handler reads its
first one. -/
theorem failure_restores_iff (wk : Worker) (disk : Disk) (m : Master) (a : Assignment)
    (hfail : wk.work disk a = .error .failed) :
    ReportRestores wk disk m a ↔ (∃ task, a = .map task) ∧ (m.Completed a ∨ m.Assignable a) := by
  cases a with
  | map task =>
    rw [reportRestores_map_iff hfail]
    exact ⟨fun h => ⟨⟨task, rfl⟩, h⟩, fun h => h.2⟩
  | reduce tasks =>
    refine ⟨fun h => absurd h (not_reportRestores_reduce hfail), ?_⟩
    rintro ⟨⟨task, htask⟩, -⟩
    cases htask

/-- A worker that can read and write no file. -/
def brokenWorker : Worker where
  hash := ihash
  nReduce := 1
  codec := quotedCodec
  dev := ⟨fun _ => none, fun _ => false⟩
  range := ⟨fun order => order, fun _ => .refl _⟩
  sorter := insertionSorter
  mapf := countMap
  reducef := countReduce

/-- A report that comes when its timer has made the failed task free again, while another task is
still handed out. -/
theorem failure_restores_late : ∃ j,
    Transition.Reach (Job.step twoFiles) (fun _ _ => True) (Job.init twoFiles) j ∧
    j.assigned = [.map ⟨"a", 1⟩, .map ⟨"b", 2⟩] ∧ j.master.isMapDone = false ∧
    j.master.mapTask.lookup "a" = some 1 ∧ j.master.mapTask.lookup "b" = some (-2) ∧
    ReportRestores brokenWorker (fun _ => none) j.master (.map ⟨"a", 1⟩) := by
  obtain ⟨j, hj, hassigned, hmap, hfree, hother⟩ := Job.exists_of_events twoFiles
    (P := fun _ _ => True) (p := fun j => j.assigned = [.map ⟨"a", 1⟩, .map ⟨"b", 2⟩] ∧
      j.master.isMapDone = false ∧ j.master.mapTask.lookup "a" = some 1 ∧
      j.master.mapTask.lookup "b" = some (-2))
    [.getMapTask "a", .getMapTask "b", .recoverRequest 0] (by decide +kernel)
  exact ⟨j, hj, hassigned, hmap, hfree, hother,
    (failure_restores_iff brokenWorker _ _ (.map ⟨"a", 1⟩) rfl).mpr
      ⟨⟨_, rfl⟩, Or.inr ⟨1, hfree, Int.one_pos⟩⟩⟩

/-- **Reported failures that restore nothing.** A map task that has been handed out is not free
after the report of its failure, and the report of a failed reduce task makes the master panic. -/
theorem failure_not_restored :
    (∃ j, Transition.Reach (Job.step twoFiles) (fun _ _ => True) (Job.init twoFiles) j ∧
      .map ⟨"a", 1⟩ ∈ j.assigned ∧ j.master.mapTask.lookup "a" = some (-1) ∧
      brokenWorker.work (fun _ => none) (.map ⟨"a", 1⟩) = .error .failed ∧
      ¬ ReportRestores brokenWorker (fun _ => none) j.master (.map ⟨"a", 1⟩)) ∧
    ∃ j, Transition.Reach (Job.step twoFiles) (fun _ _ => True) (Job.init twoFiles) j ∧
      .reduce [⟨"mr-2-1", 1⟩, ⟨"mr-1-1", 1⟩] ∈ j.assigned ∧
      brokenWorker.work (fun _ => none) (.reduce [⟨"mr-2-1", 1⟩, ⟨"mr-1-1", 1⟩]) =
        .error .failed ∧
      ¬ ReportRestores brokenWorker (fun _ => none) j.master
        (.reduce [⟨"mr-2-1", 1⟩, ⟨"mr-1-1", 1⟩]) := by
  constructor
  · obtain ⟨j, hj, hassigned, hmap, hlookup⟩ := Job.exists_of_events twoFiles
      (P := fun _ _ => True) (p := fun j => .map ⟨"a", 1⟩ ∈ j.assigned ∧
        j.master.isMapDone = false ∧ j.master.mapTask.lookup "a" = some (-1))
      [.getMapTask "a"] (by decide +kernel)
    refine ⟨j, hj, hassigned, hlookup, rfl, fun h => ?_⟩
    rcases (reportRestores_map_iff rfl).mp h with (hdone | hnone) | ⟨num, hnum, hpos⟩
    · simp [hmap] at hdone
    · simp [hlookup] at hnone
    · obtain rfl : -1 = num := Option.some.inj (hlookup.symm.trans hnum)
      omega
  · obtain ⟨j, hj, hassigned⟩ := Job.exists_of_events twoFiles (P := fun _ _ => True)
      (p := fun j => .reduce [⟨"mr-2-1", 1⟩, ⟨"mr-1-1", 1⟩] ∈ j.assigned)
      (lastHandlerBetween ++ [.registerFiles 0,
        .getReduceTask 1 [⟨"mr-2-1", 1⟩, ⟨"mr-1-1", 1⟩]]) (by decide +kernel)
    exact ⟨j, hj, hassigned, rfl, not_reportRestores_reduce rfl⟩

end Mit6824.MapReduce
