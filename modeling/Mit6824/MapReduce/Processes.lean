import Mit6824.MapReduce.Master
import Mit6824.Publication.Basic
import Mit6824.Transition.Simulation

set_option autoImplicit false

/-!
# Worker processes, file by file

`doMap` and `doReduce` (`mr/worker.go`) as sequences of file operations on a disk that the workers
share. Every output goes to a temporary file first, which is then renamed, so a worker can stop
anywhere, and others can run in between.

## Main definitions

* `Mit6824.MapReduce.App` — the application and its input files.
* `Mit6824.MapReduce.Process`, `Mit6824.MapReduce.Process.step` — a worker between two file
  operations, and one operation.
* `Mit6824.MapReduce.Act.Heeded` — the operation is not one whose error is ignored.
* `Mit6824.MapReduce.Process.Moves` — what an operation does, with what is known when it does so.

## Main results

* `Mit6824.MapReduce.Process.runs_doMap`, `Mit6824.MapReduce.Process.runs_doReduce` — a worker that
  is left alone does to the disk what `doMap` and `doReduce` do, and sends their request.
* `Mit6824.MapReduce.Process.reach_of_failPrint` — a worker that cannot print reports success.

## Design

* The name of a temporary file is the final name and a random suffix, and is not in use.
* An error of the operating system can come at every point where the code checks for one; it is
  the operation `fail`, or `failWrite` after a part of the data.
* The code ignores the results of `os.Rename` and `fmt.Fprintf`. When they fail, which is the
  operations `failRename` and `failPrint`, the worker goes on and reports success.
* A crash is possible at every point. It also stands for the end of a worker that loses the master
  or is told to exit.
-/

namespace Mit6824.MapReduce

/-- The name of the output file of bucket `Y`. -/
def outName (Y : ℤ) : String := "mr-out-" ++ toString (Y - 1)

/-- The names of all intermediate files and all output files of `n` map tasks. -/
def finalNames (n nReduce : ℕ) : List String :=
  (List.range nReduce).flatMap fun (y : ℕ) =>
    outName (y + 1) :: (List.range n).map fun (x : ℕ) => numberToStr (x + 1) (y + 1)

/-- One line of an output file. -/
def recordLine (r : Record) : String := r.1 ++ " " ++ r.2 ++ "\n"

/-- The text of an output file. -/
def printRecords (records : List Record) : String :=
  records.foldl (fun text r => text ++ recordLine r) ""

/-- The application and its input: the functions of the plugin, the input files, and the disk at
the start. Every input file is there, and none of the files that the job is going to write. -/
structure App where
  codec : Codec
  hash : String → ℕ
  mapf : String → String → List KeyValue
  reducef : String → List String → String
  files : List String
  nReduce : ℕ
  nReduce_pos : 0 < nReduce
  inputs : Disk
  present : ∀ f ∈ files, inputs f ≠ none
  clean : ∀ name ∈ finalNames files.length nReduce, inputs name = none

/-- The content of an input file. -/
def App.content (app : App) (f : String) : String := (app.inputs f).getD ""

/-- What the master is to do for the application. -/
def App.workload (app : App) : Workload where
  files := app.files
  nReduce := app.nReduce
  nReduce_pos := app.nReduce_pos
  output f := app.mapf f (app.content f)
  hash := app.hash

/-! ## Processes -/

/-- A worker between two file operations. -/
inductive Process
  /-- Between two calls of `DoWork`, or asleep. -/
  | idle
  /-- `doMap` before it opens the input file. -/
  | opening (task : AssignTask)
  /-- `doMap` in its loop over `regionMap`: buckets written, and buckets still to write. -/
  | mapping (task : AssignTask) (keyVals : List KeyValue) (nums todo : List ℤ)
  /-- `doMap` with the temporary file for bucket `Y`. -/
  | filling (task : AssignTask) (keyVals : List KeyValue) (nums : List ℤ) (Y : ℤ) (todo : List ℤ)
      (tmp : String) (written : Bool)
  /-- `doReduce` with files still to read. -/
  | reading (tasks todo : List AssignTask) (keyVals : List KeyValue)
      (finishTasks : List FinishTask)
  /-- `doReduce` with its temporary file and the records still to print. -/
  | printing (tasks : List AssignTask) (finishTasks : List FinishTask) (tmp : String)
      (todo : List Record)
  /-- `DoWork` with the request it is going to send. -/
  | finished (a : Assignment) (req : FinishedRequest)
  /-- The process has ended. -/
  | exited
deriving DecidableEq

/-- A file operation, with the choices the runtime makes. A write that fails has written some
characters before. -/
inductive Act
  | openFile (range : Range)
  | create (suffix : String)
  | write
  | rename
  | finish
  | readFile
  | createOutput (sorter : Sorter) (suffix : String)
  | print
  | fail
  | failWrite (n : ℕ)
  | failPrint (n : ℕ)
  | failRename
  | crash

/-- The operation is not an error that the code ignores. -/
def Act.Heeded : Act → Prop
  | .failPrint _ | .failRename => False
  | _ => True

instance : ∀ act : Act, Decidable act.Heeded
  | .failPrint _ | .failRename => inferInstanceAs (Decidable False)
  | .openFile _ | .create _ | .write | .rename | .finish | .readFile | .createOutput _ _ | .print
  | .fail | .failWrite _ | .crash => inferInstanceAs (Decidable True)

namespace Process

/-- The temporary file of a process. -/
def temp : Process → Option String
  | .filling _ _ _ _ _ tmp _ => some tmp
  | .printing _ _ tmp _ => some tmp
  | _ => none

/-- One operation; `none` when it is not the next one. -/
def step (app : App) : Process → Act → Disk → Option (Process × Disk)
  | .opening task, .openFile range, disk =>
    (disk task.fileName).map fun content =>
      let keyVals := app.mapf task.fileName content
      (.mapping task keyVals [] (range.order (regionMap app.hash app.nReduce keyVals).keys), disk)
  | .mapping task keyVals nums (Y :: todo), .create suffix, disk =>
    let tmp := numberToStr task.taskId Y ++ suffix
    if disk tmp = none then
      some (.filling task keyVals nums Y todo tmp false, Function.update disk tmp (some ""))
    else none
  | .filling task keyVals nums Y todo tmp false, .write, disk =>
    let data := app.codec.marshal (((regionMap app.hash app.nReduce keyVals).lookup Y).getD [])
    some (.filling task keyVals nums Y todo tmp true, Function.update disk tmp (some data))
  | .filling task keyVals nums Y todo tmp true, .rename, disk =>
    some (.mapping task keyVals (nums ++ [Y]) todo,
      Publication.rename disk tmp (numberToStr task.taskId Y))
  | .mapping task _ nums [], .finish, disk =>
    some (.finished (.map task) ⟨.mapTask, [⟨task.fileName, task.taskId, nums⟩]⟩, disk)
  | .reading tasks (task :: todo) keyVals finishTasks, .readFile, disk =>
    ((disk task.fileName).bind app.codec.unmarshal).map fun keyVal =>
      (.reading tasks todo (keyVals ++ keyVal)
        (finishTasks ++ [⟨task.fileName, task.taskId, [task.taskId]⟩]), disk)
  | .reading (task :: tasks) [] keyVals finishTasks, .createOutput sorter suffix, disk =>
    let tmp := outName task.taskId ++ suffix
    if disk tmp = none then
      some (.printing (task :: tasks) finishTasks tmp
        (reduceRuns app.reducef (sorter.sort keyVals) 0), Function.update disk tmp (some ""))
    else none
  | .printing tasks finishTasks tmp (r :: todo), .print, disk =>
    some (.printing tasks finishTasks tmp todo,
      Function.update disk tmp (some ((disk tmp).getD "" ++ recordLine r)))
  | .printing (task :: tasks) finishTasks tmp [], .rename, disk =>
    some (.finished (.reduce (task :: tasks)) ⟨.reduceTask, finishTasks⟩,
      Publication.rename disk tmp (outName task.taskId))
  | .opening task, .fail, disk => some (.finished (.map task) ⟨.mapTaskFail, []⟩, disk)
  | .mapping task _ _ (_ :: _), .fail, disk => some (.finished (.map task) ⟨.mapTaskFail, []⟩, disk)
  | .filling task keyVals _ Y _ tmp false, .failWrite n, disk =>
    let data := app.codec.marshal (((regionMap app.hash app.nReduce keyVals).lookup Y).getD [])
    some (.finished (.map task) ⟨.mapTaskFail, []⟩,
      Function.update disk tmp (some (String.ofList (data.toList.take n))))
  | .reading tasks _ _ _, .fail, disk =>
    some (.finished (.reduce tasks) ⟨.reduceTaskFail, []⟩, disk)
  | .filling task keyVals nums Y todo _ true, .failRename, disk =>
    some (.mapping task keyVals (nums ++ [Y]) todo, disk)
  | .printing tasks finishTasks tmp (r :: todo), .failPrint n, disk =>
    some (.printing tasks finishTasks tmp todo, Function.update disk tmp
      (some ((disk tmp).getD "" ++ String.ofList ((recordLine r).toList.take n))))
  | .printing (task :: tasks) finishTasks _ [], .failRename, disk =>
    some (.finished (.reduce (task :: tasks)) ⟨.reduceTask, finishTasks⟩, disk)
  | _, .crash, disk => some (.exited, disk)
  | _, _, _ => none

/-- What an operation does, with what is known when it does so. Errors that the code ignores are
not among them. -/
inductive Moves (app : App) (disk : Disk) : Process → Process → Disk → Prop
  | openFile {task : AssignTask} {content : String} {order : List ℤ}
      (read : disk task.fileName = some content)
      (perm : order.Perm
        (regionMap app.hash app.nReduce (app.mapf task.fileName content)).keys) :
      Moves app disk (.opening task)
        (.mapping task (app.mapf task.fileName content) [] order) disk
  | create {task : AssignTask} {keyVals : List KeyValue} {nums todo : List ℤ} {Y : ℤ}
      {suffix : String} (fresh : disk (numberToStr task.taskId Y ++ suffix) = none) :
      Moves app disk (.mapping task keyVals nums (Y :: todo))
        (.filling task keyVals nums Y todo (numberToStr task.taskId Y ++ suffix) false)
        (Function.update disk (numberToStr task.taskId Y ++ suffix) (some ""))
  | write {task : AssignTask} {keyVals : List KeyValue} {nums todo : List ℤ} {Y : ℤ}
      {tmp : String} :
      Moves app disk (.filling task keyVals nums Y todo tmp false)
        (.filling task keyVals nums Y todo tmp true)
        (Function.update disk tmp (some (app.codec.marshal
          (keyVals.filter fun kv => region app.hash app.nReduce kv = Y))))
  | rename {task : AssignTask} {keyVals : List KeyValue} {nums todo : List ℤ} {Y : ℤ}
      {tmp : String} :
      Moves app disk (.filling task keyVals nums Y todo tmp true)
        (.mapping task keyVals (nums ++ [Y]) todo)
        (Publication.rename disk tmp (numberToStr task.taskId Y))
  | finish {task : AssignTask} {keyVals : List KeyValue} {nums : List ℤ} :
      Moves app disk (.mapping task keyVals nums [])
        (.finished (.map task) ⟨.mapTask, [⟨task.fileName, task.taskId, nums⟩]⟩) disk
  | readFile {tasks todo : List AssignTask} {task : AssignTask} {keyVals keyVal : List KeyValue}
      {finishTasks : List FinishTask} {content : String} (read : disk task.fileName = some content)
      (decoded : app.codec.unmarshal content = some keyVal) :
      Moves app disk (.reading tasks (task :: todo) keyVals finishTasks)
        (.reading tasks todo (keyVals ++ keyVal)
          (finishTasks ++ [⟨task.fileName, task.taskId, [task.taskId]⟩])) disk
  | createOutput {task : AssignTask} {tasks : List AssignTask} {keyVals : List KeyValue}
      {finishTasks : List FinishTask} {suffix : String} (sorter : Sorter)
      (fresh : disk (outName task.taskId ++ suffix) = none) :
      Moves app disk (.reading (task :: tasks) [] keyVals finishTasks)
        (.printing (task :: tasks) finishTasks (outName task.taskId ++ suffix)
          (reduceRuns app.reducef (sorter.sort keyVals) 0))
        (Function.update disk (outName task.taskId ++ suffix) (some ""))
  | print {tasks : List AssignTask} {finishTasks : List FinishTask} {tmp : String} {r : Record}
      {todo : List Record} :
      Moves app disk (.printing tasks finishTasks tmp (r :: todo))
        (.printing tasks finishTasks tmp todo)
        (Function.update disk tmp (some ((disk tmp).getD "" ++ recordLine r)))
  | renameOutput {task : AssignTask} {tasks : List AssignTask} {finishTasks : List FinishTask}
      {tmp : String} :
      Moves app disk (.printing (task :: tasks) finishTasks tmp [])
        (.finished (.reduce (task :: tasks)) ⟨.reduceTask, finishTasks⟩)
        (Publication.rename disk tmp (outName task.taskId))
  | failOpening {task : AssignTask} :
      Moves app disk (.opening task) (.finished (.map task) ⟨.mapTaskFail, []⟩) disk
  | failMapping {task : AssignTask} {keyVals : List KeyValue} {nums todo : List ℤ} :
      Moves app disk (.mapping task keyVals nums todo)
        (.finished (.map task) ⟨.mapTaskFail, []⟩) disk
  | failFilling {task : AssignTask} {keyVals : List KeyValue} {nums todo : List ℤ} {Y : ℤ}
      {tmp : String} (part : String) :
      Moves app disk (.filling task keyVals nums Y todo tmp false)
        (.finished (.map task) ⟨.mapTaskFail, []⟩) (Function.update disk tmp (some part))
  | failReading {tasks todo : List AssignTask} {keyVals : List KeyValue}
      {finishTasks : List FinishTask} :
      Moves app disk (.reading tasks todo keyVals finishTasks)
        (.finished (.reduce tasks) ⟨.reduceTaskFail, []⟩) disk
  | crash {p : Process} : Moves app disk p .exited disk

variable {app : App} {disk disk' : Disk} {p p' : Process} {act : Act}

/-- **What an operation can do**, unless it is an error that the code ignores.

**Proof sketch.** One case for each line of `step`; what the line has found out is given to the
move. -/
theorem moves_of_step (h : step app p act disk = some (p', disk')) (hact : act.Heeded) :
    Moves app disk p p' disk' := by
  unfold step at h
  split at h
  case h_1 task range =>
    obtain ⟨content, hread, heq⟩ := Option.map_eq_some_iff.mp h
    obtain ⟨rfl, rfl⟩ := Prod.mk.inj heq
    exact .openFile hread (range.perm _)
  case h_2 =>
    dsimp only at h
    split_ifs at h with hfresh
    obtain ⟨rfl, rfl⟩ := Prod.mk.inj (Option.some.inj h)
    exact .create hfresh
  case h_3 =>
    dsimp only at h
    rw [lookup_regionMap] at h
    obtain ⟨rfl, rfl⟩ := Prod.mk.inj (Option.some.inj h)
    exact .write
  case h_4 =>
    obtain ⟨rfl, rfl⟩ := Prod.mk.inj (Option.some.inj h)
    exact .rename
  case h_5 =>
    obtain ⟨rfl, rfl⟩ := Prod.mk.inj (Option.some.inj h)
    exact .finish
  case h_6 =>
    obtain ⟨keyVal, hkeyVal, heq⟩ := Option.map_eq_some_iff.mp h
    obtain ⟨content, hread, hdecoded⟩ := Option.bind_eq_some_iff.mp hkeyVal
    obtain ⟨rfl, rfl⟩ := Prod.mk.inj heq
    exact .readFile hread hdecoded
  case h_7 =>
    dsimp only at h
    split_ifs at h with hfresh
    obtain ⟨rfl, rfl⟩ := Prod.mk.inj (Option.some.inj h)
    exact .createOutput _ hfresh
  case h_8 =>
    obtain ⟨rfl, rfl⟩ := Prod.mk.inj (Option.some.inj h)
    exact .print
  case h_9 =>
    obtain ⟨rfl, rfl⟩ := Prod.mk.inj (Option.some.inj h)
    exact .renameOutput
  case h_10 =>
    obtain ⟨rfl, rfl⟩ := Prod.mk.inj (Option.some.inj h)
    exact .failOpening
  case h_11 =>
    obtain ⟨rfl, rfl⟩ := Prod.mk.inj (Option.some.inj h)
    exact .failMapping
  case h_12 =>
    obtain ⟨rfl, rfl⟩ := Prod.mk.inj (Option.some.inj h)
    exact .failFilling _
  case h_13 =>
    obtain ⟨rfl, rfl⟩ := Prod.mk.inj (Option.some.inj h)
    exact .failReading
  case h_14 | h_15 | h_16 => exact hact.elim
  case h_17 =>
    obtain ⟨rfl, rfl⟩ := Prod.mk.inj (Option.some.inj h)
    exact .crash
  case h_18 => cases h

/-- The name of the temporary file that an operation creates. -/
def created (p : Process) : Act → Option String
  | .create suffix =>
    match p with
    | .mapping task _ _ (Y :: _) => some (numberToStr task.taskId Y ++ suffix)
    | _ => none
  | .createOutput _ suffix =>
    match p with
    | .reading (task :: _) [] _ _ => some (outName task.taskId ++ suffix)
    | _ => none
  | _ => none

/-- The temporary file has none of the names the job is going to use. -/
def Clean (app : App) (p : Process) (act : Act) : Prop :=
  ∀ tmp ∈ p.created act, tmp ∉ finalNames app.files.length app.nReduce

instance (app : App) (p : Process) (act : Act) : Decidable (p.Clean app act) :=
  inferInstanceAs (Decidable (∀ tmp ∈ p.created act, _))

/-- A process keeps its temporary file, gives it up, or has just created it.

**Proof sketch.** By the operation. Two of them create a file, three keep it, and all others leave
the process without one. -/
lemma temp_of_step {app : App} {disk disk' : Disk} {p p' : Process} {act : Act}
    (h : step app p act disk = some (p', disk')) :
    p'.temp = none ∨ p'.temp = p.temp ∨ p'.temp = p.created act := by
  unfold step at h
  split at h
  case h_2 =>
    dsimp only at h
    split_ifs at h
    obtain ⟨rfl, -⟩ := Prod.mk.inj (Option.some.inj h)
    exact Or.inr (Or.inr rfl)
  case h_7 =>
    dsimp only at h
    split_ifs at h
    obtain ⟨rfl, -⟩ := Prod.mk.inj (Option.some.inj h)
    exact Or.inr (Or.inr rfl)
  case h_1 | h_6 =>
    obtain ⟨_, -, heq⟩ := Option.map_eq_some_iff.mp h
    obtain ⟨rfl, -⟩ := Prod.mk.inj heq
    exact Or.inl rfl
  case h_3 | h_8 | h_15 =>
    obtain ⟨rfl, -⟩ := Prod.mk.inj (Option.some.inj h)
    exact Or.inr (Or.inl rfl)
  case h_18 => cases h
  all_goals
    obtain ⟨rfl, -⟩ := Prod.mk.inj (Option.some.inj h)
    exact Or.inl rfl

/-- A step that creates no file touches no final name. -/
lemma clean_of_none {app : App} {p : Process} {act : Act} (h : p.created act = none) :
    p.Clean app act := by
  intro tmp htmp
  rw [h] at htmp
  cases htmp

/-- A temporary file must not have a final name. -/
lemma clean_of_some {app : App} {p : Process} {act : Act} {tmp : String}
    (h : p.created act = some tmp) (hclean : tmp ∉ finalNames app.files.length app.nReduce) :
    p.Clean app act := by
  intro tmp' htmp
  rw [h] at htmp
  exact Option.mem_some_iff.mp htmp ▸ hclean

end Process

/-! ## Names -/

/-- The names of the output files and the intermediate files. -/
lemma mem_finalNames {n nReduce : ℕ} {name : String} : name ∈ finalNames n nReduce ↔
    ∃ y < nReduce, name = outName (y + 1) ∨ ∃ x < n, name = numberToStr (x + 1) (y + 1) := by
  simp only [finalNames, List.mem_flatMap, List.mem_range, List.mem_cons, List.mem_map]
  refine exists_congr fun y => and_congr_right fun _ => or_congr_right ?_
  exact exists_congr fun x => and_congr_right fun _ => eq_comm

/-- Output files have final names. -/
lemma outName_mem_finalNames {n nReduce : ℕ} {Y : ℤ} (hpos : 0 < Y) (hle : Y ≤ nReduce) :
    outName Y ∈ finalNames n nReduce := by
  obtain ⟨y, rfl⟩ : ∃ y : ℕ, Y = y + 1 := ⟨(Y - 1).toNat, by omega⟩
  exact mem_finalNames.mpr ⟨y, by omega, Or.inl rfl⟩

/-- Intermediate files have final names. -/
lemma numberToStr_mem_finalNames {n nReduce : ℕ} {X Y : ℤ} (hX : 0 < X) (hXn : X ≤ n) (hY : 0 < Y)
    (hYn : Y ≤ nReduce) : numberToStr X Y ∈ finalNames n nReduce := by
  obtain ⟨x, rfl⟩ : ∃ x : ℕ, X = x + 1 := ⟨(X - 1).toNat, by omega⟩
  obtain ⟨y, rfl⟩ : ∃ y : ℕ, Y = y + 1 := ⟨(Y - 1).toNat, by omega⟩
  exact mem_finalNames.mpr ⟨y, by omega, Or.inr ⟨x, by omega, rfl⟩⟩

/-- The bucket of a key is one of the job. -/
lemma region_le {hash : String → ℕ} {nReduce : ℕ} (hn : 0 < nReduce) (kv : KeyValue) :
    region hash nReduce kv ≤ nReduce := by
  unfold region
  have := Nat.mod_lt (hash kv.key) hn
  omega

/-- One line more. -/
lemma printRecords_concat (records : List Record) (r : Record) :
    printRecords (records ++ [r]) = printRecords records ++ recordLine r := by
  simp [printRecords]

/-! ## A worker that is left alone -/

namespace Process

variable {app : App} {disk disk' : Disk}

/-- One operation of a process on its disk. -/
def alone (app : App) (s : Process × Disk) (act : Act) : Option (Process × Disk) :=
  step app s.1 act s.2

/-- The operations of a process that is left alone lead from `s` to `s'`. -/
def Runs (app : App) : Process × Disk → Process × Disk → Prop :=
  Transition.Reach (alone app) fun s act => act.Heeded ∧ Clean app s.1 act

/-- One operation first. -/
lemma Runs.cons {s : Process × Disk} {p p' : Process} (act : Act)
    (hact : act.Heeded ∧ Clean app p act) (hstep : step app p act disk = some (p', disk'))
    (h : Runs app (p', disk') s) : Runs app (p, disk) s :=
  Transition.Reach.trans (.tail act .refl hact hstep) h

/-- A process that is left alone writes its buckets as `writeRegions` does.

**Proof sketch.** Induction on the buckets to write. Creating, filling and renaming the temporary
file writes the bucket; if the file cannot be created, the process fails here. -/
lemma runs_writeRegions (app : App) {task : AssignTask} {keyVals : List KeyValue} {dev : Device}
    {suffix : String} {Ys : List ℤ}
    (hfresh : ∀ Y ∈ Ys, disk (numberToStr task.taskId Y ++ suffix) = none)
    (hclean : ∀ Y ∈ Ys, numberToStr task.taskId Y ++ suffix ∉
      finalNames app.files.length app.nReduce)
    (hfinal : ∀ Y ∈ Ys, numberToStr task.taskId Y ∈ finalNames app.files.length app.nReduce)
    {nums : List ℤ} {res : Except WorkError (List ℤ)}
    (h : writeRegions app.codec dev task.taskId (regionMap app.hash app.nReduce keyVals) Ys nums
      disk = (res, disk')) :
    ∃ req, workRequest .mapTask .mapTaskFail
        (res.map fun nums => [⟨task.fileName, task.taskId, nums⟩]) = some req ∧
      Runs app (.mapping task keyVals nums Ys, disk) (.finished (.map task) req, disk') := by
  induction Ys generalizing disk nums with
  | nil =>
    obtain ⟨rfl, rfl⟩ := Prod.mk.inj h
    exact ⟨_, rfl, .cons .finish ⟨trivial, clean_of_none rfl⟩ rfl .refl⟩
  | cons Y Ys ih =>
    unfold writeRegions at h
    dsimp only at h
    split_ifs at h
    · have hnone := hfresh Y List.mem_cons_self
      have hfresh' : ∀ (c : Option String), ∀ Y' ∈ Ys,
          Function.update disk (numberToStr task.taskId Y) c
            (numberToStr task.taskId Y' ++ suffix) = none := by
        intro c Y' hY'
        rw [Function.update_of_ne]
        · exact hfresh Y' (List.mem_cons_of_mem _ hY')
        · intro heq
          exact hclean Y' (List.mem_cons_of_mem _ hY') (heq ▸ hfinal Y List.mem_cons_self)
      obtain ⟨req, hreq, hruns⟩ := ih (hfresh' _)
        (fun Y' hY' => hclean Y' (List.mem_cons_of_mem _ hY'))
        (fun Y' hY' => hfinal Y' (List.mem_cons_of_mem _ hY')) h
      refine ⟨req, hreq, .cons (.create suffix)
        ⟨trivial, clean_of_some rfl (hclean Y List.mem_cons_self)⟩ (if_pos hnone) ?_⟩
      refine .cons .write ⟨trivial, clean_of_none rfl⟩ rfl
        (.cons .rename ⟨trivial, clean_of_none rfl⟩ rfl ?_)
      rw [Function.update_idem, Publication.rename_update hnone]
      exact hruns
    · obtain ⟨rfl, rfl⟩ := Prod.mk.inj h
      exact ⟨_, rfl, .cons .fail ⟨trivial, clean_of_none rfl⟩ rfl .refl⟩

/-- **A worker alone on a map task** does to the disk what `doMap` does, and sends its request,
whatever the device can create.

**Proof sketch.** If the input file cannot be read, the process fails at once. Otherwise it opens
the file and then goes through its buckets as `writeRegions` does (`runs_writeRegions`), in the
order of `range`. -/
theorem runs_doMap (app : App) {task : AssignTask} {dev : Device} (range : Range) {suffix : String}
    (hread : dev.read task.fileName = disk task.fileName)
    (hX : 0 < task.taskId) (hXn : task.taskId ≤ app.files.length)
    (hfresh : ∀ Y, disk (numberToStr task.taskId Y ++ suffix) = none)
    (hclean : ∀ Y, numberToStr task.taskId Y ++ suffix ∉
      finalNames app.files.length app.nReduce)
    {res : Except WorkError (List FinishTask)}
    (h : doMap app.hash app.nReduce app.codec dev range app.mapf [task] [] disk = (res, disk')) :
    ∃ req, workRequest .mapTask .mapTaskFail res = some req ∧
      Runs app (.opening task, disk) (.finished (.map task) req, disk') := by
  unfold doMap at h
  rw [hread] at h
  split at h
  · obtain ⟨rfl, rfl⟩ := Prod.mk.inj h
    exact ⟨_, rfl, .cons .fail ⟨trivial, clean_of_none rfl⟩ rfl .refl⟩
  · rename_i content hcontent
    rw [if_neg fun hzero => app.nReduce_pos.ne' hzero.1] at h
    dsimp only at h
    obtain ⟨Ys, hYs⟩ : ∃ Ys, range.order
      (regionMap app.hash app.nReduce (app.mapf task.fileName content)).keys = Ys := ⟨_, rfl⟩
    have hfinal : ∀ Y ∈ Ys, numberToStr task.taskId Y ∈
        finalNames app.files.length app.nReduce := by
      intro Y hY
      rw [← hYs, (range.perm _).mem_iff] at hY
      obtain ⟨kv, -, rfl⟩ := (mem_regionMap _ _ _ _).mp hY
      exact numberToStr_mem_finalNames hX hXn (region_pos _ _ kv) (region_le app.nReduce_pos kv)
    rw [hYs] at h
    obtain ⟨res', disk'', hwrite⟩ : ∃ res' disk'', writeRegions app.codec dev task.taskId
      (regionMap app.hash app.nReduce (app.mapf task.fileName content)) Ys [] disk =
        (res', disk'') := ⟨_, _, rfl⟩
    obtain ⟨req, hreq, hruns⟩ := runs_writeRegions app (fun Y _ => hfresh Y)
      (fun Y _ => hclean Y) hfinal hwrite
    rw [hwrite] at h
    have hsame : res = res'.map (fun nums => [⟨task.fileName, task.taskId, nums⟩]) ∧
        disk' = disk'' := by
      cases res' with
      | error e => exact ⟨(Prod.mk.inj h).1.symm, (Prod.mk.inj h).2.symm⟩
      | ok nums => exact ⟨(Prod.mk.inj h).1.symm, (Prod.mk.inj h).2.symm⟩
    obtain ⟨rfl, rfl⟩ := hsame
    refine ⟨req, hreq, .cons (.openFile range) ⟨trivial, clean_of_none rfl⟩ ?_ hruns⟩
    rw [step, hcontent, Option.map_some, ← hYs]

/-- Where a reduce task stands after its files have been read. -/
def afterReading (tasks : List AssignTask) :
    Except WorkError (List KeyValue × List FinishTask) → Process
  | .ok (keyVals, finishTasks) => .reading tasks [] keyVals finishTasks
  | .error _ => .finished (.reduce tasks) ⟨.reduceTaskFail, []⟩

/-- The disk after `doReduce`. -/
def afterReduce (disk : Disk) : Except WorkError (List FinishTask × String × List Record) → Disk
  | .ok (_, oname, records) => Function.update disk oname (some (printRecords records))
  | .error _ => disk

/-- The files are read one after the other, or the process fails at one of them.

**Proof sketch.** Induction on the files that are left; where one cannot be read or decoded, both
fail. -/
lemma runs_readFiles (app : App) (tasks : List AssignTask) {todo : List AssignTask} {dev : Device}
    (hread : ∀ t ∈ todo, dev.read t.fileName = disk t.fileName) (keyVals : List KeyValue)
    (finishTasks : List FinishTask) :
    Runs app (.reading tasks todo keyVals finishTasks, disk)
      (afterReading tasks (readFiles app.codec dev todo keyVals finishTasks), disk) := by
  induction todo generalizing keyVals finishTasks with
  | nil => exact .refl
  | cons t todo ih =>
    unfold readFiles
    rw [hread t List.mem_cons_self]
    cases hcontent : disk t.fileName with
    | none => exact .cons .fail ⟨trivial, clean_of_none rfl⟩ rfl .refl
    | some content =>
      dsimp only
      cases hdecoded : app.codec.unmarshal content with
      | none => exact .cons .fail ⟨trivial, clean_of_none rfl⟩ rfl .refl
      | some keyVal =>
        refine .cons .readFile ⟨trivial, clean_of_none rfl⟩ ?_
          (ih (fun t' ht' => hread t' (List.mem_cons_of_mem _ ht')) (keyVals ++ keyVal)
            (finishTasks ++ [⟨t.fileName, t.taskId, [t.taskId]⟩]))
        rw [step, hcontent, Option.bind_some, hdecoded, Option.map_some]

/-- The records are printed one after the other. -/
lemma runs_print {tasks : List AssignTask} {finishTasks : List FinishTask} {tmp : String}
    (printed todo : List Record) :
    Runs app (.printing tasks finishTasks tmp todo,
        Function.update disk tmp (some (printRecords printed)))
      (.printing tasks finishTasks tmp [],
        Function.update disk tmp (some (printRecords (printed ++ todo)))) := by
  induction todo generalizing printed with
  | nil =>
    rw [List.append_nil]
    exact .refl
  | cons r todo ih =>
    refine .cons .print ⟨trivial, clean_of_none rfl⟩ rfl ?_
    rw [Function.update_idem, Function.update_self, Option.getD_some, ← printRecords_concat,
      List.append_cons printed r todo]
    exact ih (printed ++ [r])

/-- **A worker alone on a reduce task** writes the file that `doReduce` writes and sends its
request, whatever the device can create.

**Proof sketch.** The process reads the files as `readFiles` does (`runs_readFiles`) and fails where
it fails. Otherwise it creates the output file, prints its records and renames it, or fails because
the file cannot be created. -/
theorem runs_doReduce (app : App) {tasks : List AssignTask} {dev : Device} (sorter : Sorter)
    {suffix : String} (hread : ∀ t ∈ tasks, dev.read t.fileName = disk t.fileName)
    (hfresh : ∀ t ∈ tasks, disk (outName t.taskId ++ suffix) = none)
    (hclean : ∀ t ∈ tasks, outName t.taskId ++ suffix ∉
      finalNames app.files.length app.nReduce)
    {res : Except WorkError (List FinishTask × String × List Record)}
    (h : doReduce app.codec dev sorter app.reducef tasks = res) (hpanic : res ≠ .error .panic) :
    ∃ req, workRequest .reduceTask .reduceTaskFail (res.map Prod.fst) = some req ∧
      Runs app (.reading tasks tasks [] [], disk)
        (.finished (.reduce tasks) req, afterReduce disk res) := by
  have hfiles := runs_readFiles app tasks hread [] []
  unfold doReduce at h
  split at h
  · rename_i e heq
    rw [heq] at hfiles
    subst h
    cases e with
    | panic => exact absurd rfl hpanic
    | failed => exact ⟨_, rfl, hfiles⟩
  · rename_i keyVals finishTasks heq
    rw [heq] at hfiles
    cases tasks with
    | nil => exact absurd h.symm hpanic
    | cons task tasks =>
      dsimp only at h
      split_ifs at h
      · subst h
        have hnone := hfresh task List.mem_cons_self
        refine ⟨_, rfl, Transition.Reach.trans hfiles (Runs.cons (.createOutput sorter suffix)
          ⟨trivial, clean_of_some rfl (hclean task List.mem_cons_self)⟩ (if_pos hnone) ?_)⟩
        refine Transition.Reach.trans (runs_print [] _)
          (Runs.cons .rename ⟨trivial, clean_of_none rfl⟩ rfl ?_)
        rw [Publication.rename_update hnone]
        exact .refl
      · subst h
        exact ⟨_, rfl, Transition.Reach.trans hfiles
          (Runs.cons .fail ⟨trivial, clean_of_none rfl⟩ rfl .refl)⟩

/-! ## Errors that are ignored -/

/-- **An output file can be published without its records.** A worker that cannot print any of the
records that are left renames its file as it is and reports success, like one that can. -/
theorem reach_of_failPrint (app : App) {task : AssignTask} {tasks : List AssignTask}
    {finishTasks : List FinishTask} {tmp text : String} (htmp : disk tmp = some text)
    (todo : List Record) :
    Transition.Reach (alone app) (fun _ _ => True)
      (.printing (task :: tasks) finishTasks tmp todo, disk)
      (.finished (.reduce (task :: tasks)) ⟨.reduceTask, finishTasks⟩,
        Publication.rename disk tmp (outName task.taskId)) := by
  induction todo with
  | nil => exact .single .rename trivial rfl
  | cons r todo ih =>
    refine Transition.Reach.trans (.single (.failPrint 0) trivial ?_) ih
    have hsame : Function.update disk tmp (some ((disk tmp).getD "" ++ String.ofList
        ((recordLine r).toList.take 0))) = disk := by
      rw [htmp, Option.getD_some, List.take_zero, String.ofList_nil, String.append_empty, ← htmp,
        Function.update_eq_self]
    rw [alone, step, hsame]

end Process

end Mit6824.MapReduce
