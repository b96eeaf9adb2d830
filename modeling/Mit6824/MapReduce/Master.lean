import Mit6824.MapReduce.Worker
import Mit6824.Transition.Basic

set_option autoImplicit false

/-!
# The MapReduce master and a job

The critical sections of `GetTask`, `TaskFinished` and `recoverRequest` (`mr/master.go`), and the
system of one master and its workers: assignments that are worked on, `TaskFinished` handlers
between their two sections, and `recoverRequest` goroutines that sleep.

## Main definitions

* `Mit6824.MapReduce.Master`, `Mit6824.MapReduce.makeMaster` and the critical sections
  `getMapTask`, `getReduceTask`, `taskFinished`, `registerFiles`, `recoverRequest`.
* `Mit6824.MapReduce.Workload` — the input files and what the map function emits for them.
* `Mit6824.MapReduce.Job`, `Mit6824.MapReduce.Job.step` — the system and its steps.

## Main results

* `Mit6824.MapReduce.reports_doMap`, `Mit6824.MapReduce.reports_doReduce` — the reports a job
  allows are those `doMap` and `doReduce` lead to.

## Design

A Go map is an association list. Where the code iterates over a map, the choice is part of the
step. An assignment may be reported any number of times or never: workers can be slow, crash, or be
overtaken by another worker on the same task.
-/

namespace Mit6824.MapReduce

/-- The state of the master. A negative task number marks a task that has been handed out, and a
bucket with flag `false` likewise. -/
structure Master where
  isReduceDone : Bool
  isMapDone : Bool
  nReduce : ℕ
  mapTask : AList fun _ : String => ℤ
  reduceTask : AList fun _ : String => ℤ
  reduceBucket : AList fun _ : ℤ => Bool

/-- The map tasks of a list of files, numbered from 1; of equal names the last one counts. -/
def initialTasks (files : List String) : AList fun _ : String => ℤ :=
  files.zipIdx.foldl (fun tasks file => tasks.insert file.1 (file.2 + 1)) ∅

/-- `MakeMaster`. -/
def makeMaster (files : List String) (nReduce : ℕ) : Master :=
  ⟨false, false, nReduce, initialTasks files, ∅, ∅⟩

namespace Master

variable (m : Master)

/-- `Done`. -/
def done : Bool := m.isReduceDone

/-! ## `GetTask` -/

/-- The first critical section of `GetTask` when the iteration over `mapTask` stops at
`fileName`. -/
def getMapTask (fileName : String) : Option (Master × AssignTask) :=
  if m.isMapDone then none
  else match m.mapTask.lookup fileName with
    | none => none
    | some num =>
      if 0 < num then
        some ({ m with mapTask := m.mapTask.insert fileName (-num) }, ⟨fileName, num⟩)
      else none

/-- The files of a bucket that have not been handed out. -/
def bucketTasks (number : ℤ) : List AssignTask :=
  (m.reduceTask.entries.filter fun entry => entry.2 = number).map fun entry =>
    ⟨entry.1, entry.2⟩

/-- Mark a bucket and its files as handed out. -/
def takeBucket (number : ℤ) (tasks : List AssignTask) : Master :=
  { m with
    reduceBucket := m.reduceBucket.insert number false
    reduceTask := tasks.foldl (fun r task => r.insert task.fileName (-task.taskId)) m.reduceTask }

/-- The second critical section of `GetTask` when the iteration over `reduceBucket` stops at
`number` and the one over `reduceTask` finds the bucket's files in the order `tasks`. It is entered
only after the map phase. -/
def getReduceTask (number : ℤ) (tasks : List AssignTask) : Option Master :=
  if m.isMapDone ∧ m.reduceBucket.lookup number = some true ∧ 0 < number ∧
      tasks.Perm (m.bucketTasks number) then
    some (m.takeBucket number tasks)
  else none

/-! ## `TaskFinished` -/

/-- How the first critical section of `TaskFinished` ends: the handler is through, it still has to
register the files of a map task, or it panics. -/
inductive Handled
  | through (m : Master)
  | between (m : Master)
  | panic

/-- Delete a bucket and its files; without any file left the job is done. -/
def closeBucket (number : ℤ) (tasks : List FinishTask) : Master :=
  let reduceTask := tasks.foldl (fun r task => r.erase task.fileName) m.reduceTask
  { m with
    reduceBucket := m.reduceBucket.erase number
    reduceTask := reduceTask
    isReduceDone := m.isReduceDone || reduceTask.entries.isEmpty }

/-- `TaskFinished` up to the end of its first critical section. Only a map task has a second one. -/
def taskFinished (req : FinishedRequest) : Handled :=
  match req.finishedType with
  | .mapTask =>
    if m.isMapDone then .through m
    else
      let mapTask := req.tasks.foldl (fun r task => r.erase task.fileName) m.mapTask
      .between { m with mapTask := mapTask, isMapDone := mapTask.entries.isEmpty }
  | .reduceTask =>
    match req.tasks with
    | [] => .panic
    | task :: _ => .through (m.closeBucket task.taskId req.tasks)
  | .mapTaskFail =>
    if m.isMapDone then .through m
    else .through { m with
      mapTask := req.tasks.foldl (fun r task => r.insert task.fileName task.taskId) m.mapTask }
  | .reduceTaskFail =>
    match req.tasks with
    | [] => .panic
    | task :: _ => .through { m with
        reduceBucket := m.reduceBucket.insert task.taskId true
        reduceTask := req.tasks.foldl (fun r task => r.insert task.fileName task.taskId)
          m.reduceTask }
  | .sleepTask => .through m

/-- Register one intermediate file of map task `taskId`. -/
def registerFile (taskId : ℤ) (bucketNum : ℤ) : Master :=
  { m with
    reduceBucket := m.reduceBucket.insert bucketNum true
    reduceTask := m.reduceTask.insert (numberToStr taskId bucketNum) bucketNum }

/-- The second critical section of `TaskFinished` for a map task. -/
def registerFiles (tasks : List FinishTask) : Master :=
  tasks.foldl (fun m task => task.bucketNums.foldl (fun m Y => m.registerFile task.taskId Y) m) m

/-! ## `recoverRequest` -/

/-- `recoverRequest` of a map task, after its sleep. -/
def recoverMap (tasks : List AssignTask) : Master :=
  if tasks.any fun task => (m.mapTask.lookup task.fileName).isSome then
    { m with mapTask := tasks.foldl (fun r task => r.insert task.fileName task.taskId) m.mapTask }
  else m

/-- Make a bucket and its files free again. -/
def freeBucket (number : ℤ) (tasks : List AssignTask) : Master :=
  { m with
    reduceBucket := m.reduceBucket.insert number true
    reduceTask := tasks.foldl (fun r task => r.insert task.fileName task.taskId) m.reduceTask }

/-- `recoverRequest` of a reduce task, after its sleep; `none` is the panic of an empty list. -/
def recoverReduce (tasks : List AssignTask) : Option Master :=
  match tasks with
  | [] => none
  | task :: _ =>
    if (m.reduceBucket.lookup task.taskId).isSome then
      some (m.freeBucket task.taskId tasks)
    else some m

end Master

/-! ## Jobs -/

/-- The input of a job: its files and what the map function emits for each of them. -/
structure Workload where
  files : List String
  nReduce : ℕ
  nReduce_pos : 0 < nReduce
  output : String → List KeyValue
  hash : String → ℕ

/-- An assignment of `GetTask`. -/
inductive Assignment
  | map (task : AssignTask)
  | reduce (tasks : List AssignTask)
deriving DecidableEq

namespace Workload

variable (w : Workload)

/-- The buckets a file has keys for. -/
def buckets (fileName : String) : List ℤ :=
  (regionMap w.hash w.nReduce (w.output fileName)).keys

/-- The number of the map task of a file. -/
def taskId (fileName : String) : Option ℤ := (initialTasks w.files).lookup fileName

/-- The requests a worker may send for an assignment: it has finished, or it has failed. -/
def Reports : Assignment → FinishedRequest → Prop
  | .map task, ⟨.mapTask, [fin]⟩ => fin.fileName = task.fileName ∧ fin.taskId = task.taskId ∧
      fin.bucketNums.Perm (w.buckets task.fileName)
  | .map _, ⟨.mapTaskFail, []⟩ => True
  | .reduce tasks, ⟨.reduceTask, fins⟩ =>
      fins = tasks.map fun task => ⟨task.fileName, task.taskId, [task.taskId]⟩
  | .reduce _, ⟨.reduceTaskFail, []⟩ => True
  | _, _ => False

instance : ∀ a req, Decidable (w.Reports a req)
  | .map _, ⟨.mapTask, []⟩ => inferInstanceAs (Decidable False)
  | .map _, ⟨.mapTask, [_]⟩ => inferInstanceAs (Decidable (_ ∧ _ ∧ _))
  | .map _, ⟨.mapTask, _ :: _ :: _⟩ => inferInstanceAs (Decidable False)
  | .map _, ⟨.mapTaskFail, []⟩ => inferInstanceAs (Decidable True)
  | .map _, ⟨.mapTaskFail, _ :: _⟩ => inferInstanceAs (Decidable False)
  | .map _, ⟨.reduceTask, _⟩ => inferInstanceAs (Decidable False)
  | .map _, ⟨.reduceTaskFail, _⟩ => inferInstanceAs (Decidable False)
  | .map _, ⟨.sleepTask, _⟩ => inferInstanceAs (Decidable False)
  | .reduce _, ⟨.reduceTask, _⟩ => inferInstanceAs (Decidable (_ = _))
  | .reduce _, ⟨.reduceTaskFail, []⟩ => inferInstanceAs (Decidable True)
  | .reduce _, ⟨.reduceTaskFail, _ :: _⟩ => inferInstanceAs (Decidable False)
  | .reduce _, ⟨.mapTask, _⟩ => inferInstanceAs (Decidable False)
  | .reduce _, ⟨.mapTaskFail, _⟩ => inferInstanceAs (Decidable False)
  | .reduce _, ⟨.sleepTask, _⟩ => inferInstanceAs (Decidable False)

end Workload

/-- The master and what is under way: the sleeping `recoverRequest` goroutines, the `TaskFinished`
handlers between their two sections, the assignments handed out so far, and the reduce tasks whose
completion the master has recorded. -/
structure Job where
  master : Master
  timers : List Assignment
  pending : List (List FinishTask)
  assigned : List Assignment
  completed : List (List AssignTask)

/-- A step of a job. -/
inductive Event
  | getMapTask (fileName : String)
  | getReduceTask (number : ℤ) (tasks : List AssignTask)
  | taskFinished (a : Assignment) (req : FinishedRequest)
  | registerFiles (k : ℕ)
  | recoverRequest (k : ℕ)
deriving DecidableEq

namespace Job

/-- The start of a job. -/
def init (w : Workload) : Job := ⟨makeMaster w.files w.nReduce, [], [], [], []⟩

/-- Hand out an assignment: a goroutine will look after it. -/
def assign (j : Job) (m : Master) (a : Assignment) : Job :=
  { j with master := m, timers := j.timers ++ [a], assigned := j.assigned ++ [a] }

/-- The reduce tasks recorded as completed after a report on `a`. -/
def record (a : Assignment) (req : FinishedRequest) (completed : List (List AssignTask)) :
    List (List AssignTask) :=
  match a, req.finishedType with
  | .reduce tasks, .reduceTask => completed ++ [tasks]
  | _, _ => completed

/-- The first critical section of `GetTask`, with the task that goes to the worker. -/
def getMapTask (j : Job) (fileName : String) : Option (Job × AssignTask) :=
  match j.master.getMapTask fileName with
  | none => none
  | some (m, task) => some (j.assign m (.map task), task)

/-- The second critical section of `GetTask`; without files there is nothing to look after. -/
def getReduceTask (j : Job) (number : ℤ) (tasks : List AssignTask) : Option Job :=
  match j.master.getReduceTask number tasks with
  | none => none
  | some m => some (if tasks = [] then { j with master := m } else j.assign m (.reduce tasks))

/-- `TaskFinished` on the request `req` for the assignment `a`, up to the end of its first critical
section; `none` is the panic of the handler. -/
def report (j : Job) (a : Assignment) (req : FinishedRequest) : Option Job :=
  match j.master.taskFinished req with
  | .panic => none
  | .through m => some { j with master := m, completed := record a req j.completed }
  | .between m => some { j with master := m, pending := j.pending ++ [req.tasks] }

/-- One step. A panic of the master ends the run. -/
def step (w : Workload) (j : Job) : Event → Option Job
  | .getMapTask fileName => (j.getMapTask fileName).map Prod.fst
  | .getReduceTask number tasks => j.getReduceTask number tasks
  | .taskFinished a req => if a ∈ j.assigned ∧ w.Reports a req then j.report a req else none
  | .registerFiles k =>
    match j.pending[k]? with
    | none => none
    | some tasks =>
      some { j with master := j.master.registerFiles tasks, pending := j.pending.eraseIdx k }
  | .recoverRequest k =>
    match j.timers[k]? with
    | none => none
    | some (.map task) =>
      some { j with master := j.master.recoverMap [task], timers := j.timers.eraseIdx k }
    | some (.reduce tasks) =>
      match j.master.recoverReduce tasks with
      | none => none
      | some m => some { j with master := m, timers := j.timers.eraseIdx k }

end Job

/-! ## Reports come from the worker -/

/-- What a worker sends after `doMap` on an assignment, if the file's content makes the map function
emit the output of the workload, and whatever the device can read and write.

**Proof sketch.** `doMap` fails when it cannot read or write, and this is reported as a failure.
Otherwise it reports the buckets of its region map, which are the buckets of the workload, in the
order of `range`. -/
theorem reports_doMap (w : Workload) {codec : Codec} {dev : Device} {range : Range}
    {mapf : String → String → List KeyValue} {task : AssignTask} {disk : Disk}
    (hread : ∀ content, dev.read task.fileName = some content →
      mapf task.fileName content = w.output task.fileName)
    {req : FinishedRequest} (h : workRequest .mapTask .mapTaskFail
      (doMap w.hash w.nReduce codec dev range mapf [task] [] disk).1 = some req) :
    w.Reports (.map task) req := by
  unfold doMap at h
  split at h
  · obtain rfl : ⟨.mapTaskFail, []⟩ = req := Option.some.inj h
    trivial
  · rename_i content hcontent
    rw [hread content hcontent, if_neg (fun hzero => w.nReduce_pos.ne' hzero.1)] at h
    have hcases := writeRegions_fst_cases codec dev task.taskId
      (regionMap w.hash w.nReduce (w.output task.fileName))
      (range.order (regionMap w.hash w.nReduce (w.output task.fileName)).keys) [] disk
    dsimp only at h
    split at h
    · rename_i e disk' hw
      rw [hw] at hcases
      obtain rfl : e = .failed := by simpa using hcases
      obtain rfl : ⟨.mapTaskFail, []⟩ = req := Option.some.inj h
      trivial
    · rename_i nums disk' hw
      rw [hw] at hcases
      obtain rfl : nums = range.order (w.buckets task.fileName) := by
        simpa [Workload.buckets] using hcases
      obtain rfl : ⟨.mapTask, [⟨task.fileName, task.taskId, _⟩]⟩ = req := Option.some.inj h
      exact ⟨rfl, rfl, range.perm _⟩

/-- What a worker sends after `doReduce` on an assignment. -/
theorem reports_doReduce (w : Workload) {codec : Codec} {dev : Device} {sorter : Sorter}
    {reducef : String → List String → String} {tasks : List AssignTask} {req : FinishedRequest}
    (h : workRequest .reduceTask .reduceTaskFail
      ((doReduce codec dev sorter reducef tasks).map Prod.fst) = some req) :
    w.Reports (.reduce tasks) req := by
  have hfail : ∀ e : WorkError, workRequest .reduceTask .reduceTaskFail (.error e) = some req →
      w.Reports (.reduce tasks) req := by
    intro e he
    cases e with
    | panic => simp [workRequest] at he
    | failed =>
      obtain rfl : ⟨.reduceTaskFail, []⟩ = req := Option.some.inj he
      trivial
  unfold doReduce at h
  split at h
  · exact hfail _ h
  · rename_i keyVals finishTasks hfiles
    have hfins := readFiles_tasks hfiles
    split at h
    · exact hfail _ h
    · dsimp only at h
      split_ifs at h
      · obtain rfl : ⟨.reduceTask, finishTasks⟩ = req := Option.some.inj h
        exact hfins
      · exact hfail _ h

end Mit6824.MapReduce
