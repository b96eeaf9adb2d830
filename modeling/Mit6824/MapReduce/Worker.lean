import Mathlib.Data.Int.Notation
import Mathlib.Data.List.AList
import Mathlib.Data.List.Induction
import Mathlib.Data.String.Basic
import Mathlib.Logic.Function.Basic
import Mit6824.Grouping.Basic

set_option autoImplicit false

/-!
# The MapReduce worker

`doMap`, `doReduce` and the request `DoWork` builds from their results (`mr/worker.go`), and the
sequential program `main/mrsequential.go`.

What the code takes from outside is a parameter. `Device` says which files can be read and
created, `Codec` is JSON for lists of key-value pairs, `Sorter` is `sort.Sort`, which need not be
stable, and `Range` is the order in which Go happens to iterate over a map; the last three carry
what is assumed of them.

## Main definitions

* `Mit6824.MapReduce.doMap`, `Mit6824.MapReduce.doReduce`, `Mit6824.MapReduce.workRequest`.
* `Mit6824.MapReduce.mrsequential`.

## Main results

* `Mit6824.MapReduce.numberToStr_inj` — intermediate files of different tasks or buckets have
  different names.
* `Mit6824.MapReduce.doMap_singleton` — what `doMap` does to one task.
-/

namespace Mit6824.MapReduce

/-- A key-value pair. -/
structure KeyValue where
  key : String
  value : String
deriving DecidableEq, Repr

/-- A task as the master hands it out. -/
structure AssignTask where
  fileName : String
  taskId : ℤ
deriving DecidableEq, Repr

/-- A finished task; `bucketNums` lists the suffixes `Y` of the files it wrote. -/
structure FinishTask where
  fileName : String
  taskId : ℤ
  bucketNums : List ℤ
deriving DecidableEq, Repr

/-- What a worker reports. -/
inductive FinishedType
  | mapTask
  | reduceTask
  | mapTaskFail
  | reduceTaskFail
  | sleepTask
deriving DecidableEq, Repr

/-- The argument of `TaskFinished`. -/
structure FinishedRequest where
  finishedType : FinishedType
  tasks : List FinishTask
deriving DecidableEq, Repr

/-- How `doMap` or `doReduce` ends without a result: it returns an error, or it panics. -/
inductive WorkError
  | failed
  | panic
deriving DecidableEq, Repr

/-! ## What the code takes from outside -/

/-- The operating system: `read` opens and reads a file, `create` says whether a file can be
created and, in `doMap`, written. `doReduce` ignores the errors of its writes; here they
succeed. -/
structure Device where
  read : String → Option String
  create : String → Bool

/-- JSON for lists of key-value pairs; decoding undoes encoding. -/
structure Codec where
  marshal : List KeyValue → String
  unmarshal : String → Option (List KeyValue)
  unmarshal_marshal : ∀ kvs, unmarshal (marshal kvs) = some kvs

/-- `sort.Sort` by key: a sorted permutation. -/
structure Sorter where
  sort : List KeyValue → List KeyValue
  perm : ∀ kvs, (sort kvs).Perm kvs
  sorted : ∀ kvs, Grouping.SortedBy KeyValue.key (sort kvs)

/-- The order in which the keys of a Go map are visited. -/
structure Range where
  order : List ℤ → List ℤ
  perm : ∀ l, (order l).Perm l

/-- The files written so far. -/
abbrev Disk := String → Option String

/-! ## `doMap` -/

/-- `NumberToStr`: the name `mr-X-Y`. -/
def numberToStr (X Y : ℤ) : String := "mr-" ++ toString X ++ "-" ++ toString Y

/-- `ihash`: FNV-1a on 32 bits without the sign bit. -/
def ihash (key : String) : ℕ :=
  let sum := key.toUTF8.foldl (fun h b => (h ^^^ b.toUInt32) * 16777619) (2166136261 : UInt32)
  (sum &&& 0x7fffffff).toNat

example : ihash "a" = 0x640c292c := by decide +kernel

section Map

variable (hash : String → ℕ) (nReduce : ℕ)

/-- The bucket of a key-value pair; buckets are counted from 1. -/
def region (kv : KeyValue) : ℤ := hash kv.key % nReduce + 1

/-- The pairs by bucket, those of one bucket in the order of `keyVals`. -/
def regionMap (keyVals : List KeyValue) : AList fun _ : ℤ => List KeyValue :=
  keyVals.foldl (fun m kv =>
    let Y := region hash nReduce kv
    m.insert Y ((m.lookup Y).getD [] ++ [kv])) ∅

/-- Write the buckets `Ys` of task `X`; `nums` are the buckets written so far. -/
def writeRegions (codec : Codec) (dev : Device) (X : ℤ) (m : AList fun _ : ℤ => List KeyValue) :
    List ℤ → List ℤ → Disk → Except WorkError (List ℤ) × Disk
  | [], nums, disk => (.ok nums, disk)
  | Y :: Ys, nums, disk =>
    let oname := numberToStr X Y
    if dev.create oname then
      writeRegions codec dev X m Ys (nums ++ [Y])
        (Function.update disk oname (some (codec.marshal ((m.lookup Y).getD []))))
    else (.error .failed, disk)

/-- `doMap`. Files written before an error stay. -/
def doMap (codec : Codec) (dev : Device) (range : Range) (mapf : String → String → List KeyValue) :
    List AssignTask → List FinishTask → Disk → Except WorkError (List FinishTask) × Disk
  | [], finishTasks, disk => (.ok finishTasks, disk)
  | task :: tasks, finishTasks, disk =>
    match dev.read task.fileName with
    | none => (.error .failed, disk)
    | some content =>
      let keyVals := mapf task.fileName content
      -- `ihash(kv.Key) % nReduce` divides by zero
      if nReduce = 0 ∧ keyVals ≠ [] then (.error .panic, disk)
      else
        let m := regionMap hash nReduce keyVals
        match writeRegions codec dev task.taskId m (range.order m.keys) [] disk with
        | (.error e, disk) => (.error e, disk)
        | (.ok nums, disk) =>
          doMap codec dev range mapf tasks
            (finishTasks ++ [⟨task.fileName, task.taskId, nums⟩]) disk

end Map

/-! ## `doReduce` and the sequential program -/

/-- One output record of a file: the key and what `reducef` returns, printed as one line. -/
abbrev Record := String × String

/-- The loop of `doReduce` over the sorted pairs, from place `i` on: the values of the pairs with
the key of place `i`, up to the place `j` of another key, are given to `reducef`. -/
def reduceRuns (reducef : String → List String → String) (keyVals : List KeyValue) (i : ℕ) :
    List Record :=
  if h : i < keyVals.length then
    let j := Grouping.runEnd KeyValue.key keyVals keyVals[i].key (i + 1)
    let values := ((keyVals.take j).drop i).map KeyValue.value
    (keyVals[i].key, reducef keyVals[i].key values) :: reduceRuns reducef keyVals j
  else []
termination_by keyVals.length - i
decreasing_by
  have := (Grouping.runEnd_spec KeyValue.key keyVals keyVals[i].key (i + 1)).1
  omega

/-- Read and decode the files of a reduce task. -/
def readFiles (codec : Codec) (dev : Device) : List AssignTask → List KeyValue → List FinishTask →
    Except WorkError (List KeyValue × List FinishTask)
  | [], keyVals, finishTasks => .ok (keyVals, finishTasks)
  | task :: tasks, keyVals, finishTasks =>
    match dev.read task.fileName with
    | none => .error .failed
    | some content =>
      match codec.unmarshal content with
      | none => .error .failed
      | some keyVal =>
        readFiles codec dev tasks (keyVals ++ keyVal)
          (finishTasks ++ [⟨task.fileName, task.taskId, [task.taskId]⟩])

/-- `doReduce`: the finished tasks, and the name and the records of the output file. -/
def doReduce (codec : Codec) (dev : Device) (sorter : Sorter)
    (reducef : String → List String → String) (tasks : List AssignTask) :
    Except WorkError (List FinishTask × String × List Record) :=
  match readFiles codec dev tasks [] [] with
  | .error e => .error e
  | .ok (keyVals, finishTasks) =>
    match tasks with
    | [] => .error .panic
    | task :: _ =>
      let oname := "mr-out-" ++ toString (task.taskId - 1)
      if dev.create oname then .ok (finishTasks, oname, reduceRuns reducef (sorter.sort keyVals) 0)
      else .error .failed

/-- The loop of `mrsequential` over `intermediate`, from place `i` on. -/
def sequentialRuns (reducef : String → List String → String) (intermediate : List KeyValue)
    (i : ℕ) : List Record :=
  if h : i < intermediate.length then
    let j := Grouping.runEnd KeyValue.key intermediate intermediate[i].key (i + 1)
    let values := ((intermediate.take j).drop i).map KeyValue.value
    let output := reducef intermediate[i].key values
    (intermediate[i].key, output) :: sequentialRuns reducef intermediate j
  else []
termination_by intermediate.length - i
decreasing_by
  have := (Grouping.runEnd_spec KeyValue.key intermediate intermediate[i].key (i + 1)).1
  omega

/-- The records `mrsequential` writes for a list of file names and contents. -/
def mrsequential (sorter : Sorter) (mapf : String → String → List KeyValue)
    (reducef : String → List String → String) (files : List (String × String)) : List Record :=
  let intermediate := files.foldl (fun kvs file => kvs ++ mapf file.1 file.2) []
  sequentialRuns reducef (sorter.sort intermediate) 0

/-- The request `DoWork` sends after `doMap` (`ok` is `MAP_TASK`, `fail` is `MAP_TASK_FAIL`) or
`doReduce`; on an error the list of tasks is nil. There is none when the worker panics. -/
def workRequest (ok fail : FinishedType) : Except WorkError (List FinishTask) →
    Option FinishedRequest
  | .ok tasks => some ⟨ok, tasks⟩
  | .error .failed => some ⟨fail, []⟩
  | .error .panic => none

/-! ## The two loops over the sorted pairs -/

/-- What `reducef` makes of a run of pairs with one key. -/
def reduceRun (reducef : String → List String → String) (key : String) (run : List KeyValue) :
    String :=
  reducef key (run.map KeyValue.value)

/-- The loop of `doReduce` is the summary of the runs. -/
lemma reduceRuns_eq (reducef : String → List String → String) (keyVals : List KeyValue) :
    reduceRuns reducef keyVals 0 =
      Grouping.summary KeyValue.key (reduceRun reducef) keyVals := by
  refine Grouping.eq_summary_of_loop (f := reduceRun reducef)
    (fun i hi => ?_) (fun i hi => ?_) 0
  · rw [reduceRuns, dif_neg (by omega)]
  · rw [reduceRuns, dif_pos hi]
    rfl

/-- So is the loop of the sequential program. -/
lemma sequentialRuns_eq (reducef : String → List String → String) (keyVals : List KeyValue) :
    sequentialRuns reducef keyVals 0 =
      Grouping.summary KeyValue.key (reduceRun reducef) keyVals := by
  refine Grouping.eq_summary_of_loop (f := reduceRun reducef)
    (fun i hi => ?_) (fun i hi => ?_) 0
  · rw [sequentialRuns, dif_neg (by omega)]
  · rw [sequentialRuns, dif_pos hi]
    rfl

/-- What the sequential program writes: the runs of everything that was emitted. -/
lemma mrsequential_eq (sorter : Sorter) (mapf : String → String → List KeyValue)
    (reducef : String → List String → String) (files : List (String × String)) :
    mrsequential sorter mapf reducef files = Grouping.summary KeyValue.key (reduceRun reducef)
      (sorter.sort (files.flatMap fun file => mapf file.1 file.2)) := by
  rw [mrsequential, sequentialRuns_eq, List.flatMap_eq_foldl]

/-! ## File names -/

/-- A natural number is printed without a dash. -/
lemma dash_notMem_repr (m : ℕ) : '-' ∉ (Nat.repr m).toList := by
  intro h
  rw [Nat.toList_repr] at h
  have hdigit := Nat.isDigit_of_mem_toDigits (by decide) (by decide) h
  revert hdigit
  decide

/-- What stands before the first dash determines both parts. -/
lemma append_dash_inj {a b c d : List Char} (ha : '-' ∉ a) (hb : '-' ∉ b)
    (h : a ++ '-' :: c = b ++ '-' :: d) : a = b ∧ c = d := by
  induction a generalizing b with
  | nil =>
    cases b with
    | nil => simpa using h
    | cons y b =>
      obtain ⟨rfl, -⟩ := List.cons.inj h
      exact absurd List.mem_cons_self hb
  | cons x a ih =>
    cases b with
    | nil =>
      obtain ⟨rfl, -⟩ := List.cons.inj h
      exact absurd List.mem_cons_self ha
    | cons y b =>
      obtain ⟨rfl, htail⟩ := List.cons.inj h
      obtain ⟨rfl, rfl⟩ := ih (fun hm => ha (List.mem_cons_of_mem _ hm))
        (fun hm => hb (List.mem_cons_of_mem _ hm)) htail
      exact ⟨rfl, rfl⟩

/-- Different numbers are written differently. -/
lemma repr_toList_inj {m m' : ℕ} (h : (Nat.repr m).toList = (Nat.repr m').toList) : m = m' := by
  rw [Nat.toList_repr, Nat.toList_repr] at h
  have hnum := congrArg (fun ds => Nat.ofDigitChars 10 ds 0) h
  simpa using hnum

/-- **Names of intermediate files** of different tasks or buckets differ. -/
theorem numberToStr_inj {X X' Y Y' : ℤ} (hX : 0 ≤ X) (hX' : 0 ≤ X') (hY : 0 ≤ Y) (hY' : 0 ≤ Y') :
    numberToStr X Y = numberToStr X' Y' ↔ X = X' ∧ Y = Y' := by
  refine ⟨fun h => ?_, fun ⟨hx, hy⟩ => by rw [hx, hy]⟩
  obtain ⟨x, rfl⟩ := Int.eq_ofNat_of_zero_le hX
  obtain ⟨x', rfl⟩ := Int.eq_ofNat_of_zero_le hX'
  obtain ⟨y, rfl⟩ := Int.eq_ofNat_of_zero_le hY
  obtain ⟨y', rfl⟩ := Int.eq_ofNat_of_zero_le hY'
  have hlist := congrArg String.toList h
  simp only [numberToStr, String.toList_append, List.append_assoc] at hlist
  obtain ⟨hx, hy⟩ := append_dash_inj (dash_notMem_repr x) (dash_notMem_repr x')
    (List.append_cancel_left hlist)
  exact ⟨congrArg Int.ofNat (repr_toList_inj hx), congrArg Int.ofNat (repr_toList_inj hy)⟩

/-! ## What `doMap` writes -/

section Map

variable (hash : String → ℕ) (nReduce : ℕ)

/-- Buckets are numbered from 1 on. -/
lemma region_pos (kv : KeyValue) : 0 < region hash nReduce kv := by
  unfold region
  omega

/-- One pair more. -/
lemma regionMap_concat (kvs : List KeyValue) (kv : KeyValue) :
    regionMap hash nReduce (kvs ++ [kv]) =
      (regionMap hash nReduce kvs).insert (region hash nReduce kv)
        (((regionMap hash nReduce kvs).lookup (region hash nReduce kv)).getD [] ++ [kv]) := by
  simp [regionMap]

/-- A bucket holds the pairs of its region. -/
lemma lookup_regionMap (kvs : List KeyValue) (Y : ℤ) :
    ((regionMap hash nReduce kvs).lookup Y).getD [] =
      kvs.filter fun kv => region hash nReduce kv = Y := by
  induction kvs using List.reverseRecOn with
  | nil => rfl
  | append_singleton kvs kv ih =>
    rw [regionMap_concat, List.filter_append]
    by_cases hY : region hash nReduce kv = Y
    · subst hY
      simp [AList.lookup_insert, ih]
    · rw [AList.lookup_insert_ne (Ne.symm hY), ih]
      simp [hY]

/-- The buckets of a list of pairs are those of its keys. -/
lemma mem_regionMap (kvs : List KeyValue) (Y : ℤ) :
    Y ∈ regionMap hash nReduce kvs ↔ ∃ kv ∈ kvs, region hash nReduce kv = Y := by
  induction kvs using List.reverseRecOn with
  | nil => simp [regionMap]
  | append_singleton kvs kv ih =>
    rw [regionMap_concat, AList.mem_insert, ih]
    simp only [List.mem_append, List.mem_singleton]
    constructor
    · rintro (rfl | ⟨a, ha, hY⟩)
      · exact ⟨kv, Or.inr rfl, rfl⟩
      · exact ⟨a, Or.inl ha, hY⟩
    · rintro ⟨a, ha | rfl, hY⟩
      · exact Or.inr ⟨a, ha, hY⟩
      · exact Or.inl hY.symm

variable {codec : Codec} {dev : Device} {X : ℤ} {m : AList fun _ : ℤ => List KeyValue}

/-- All buckets are written and reported, or the task fails. -/
lemma writeRegions_fst_cases (codec : Codec) (dev : Device) (X : ℤ)
    (m : AList fun _ : ℤ => List KeyValue) (Ys nums : List ℤ) (disk : Disk) :
    (writeRegions codec dev X m Ys nums disk).1 = .ok (nums ++ Ys) ∨
    (writeRegions codec dev X m Ys nums disk).1 = .error .failed := by
  induction Ys generalizing nums disk with
  | nil => exact Or.inl (by simp [writeRegions])
  | cons Y Ys ih =>
    unfold writeRegions
    dsimp only
    split_ifs
    · have hrest := ih (nums ++ [Y])
        (Function.update disk (numberToStr X Y) (some (codec.marshal ((m.lookup Y).getD []))))
      rwa [List.append_assoc, List.singleton_append] at hrest
    · exact Or.inr rfl

/-- When every file can be created, all buckets are written and reported. -/
lemma writeRegions_fst (hdev : ∀ name, dev.create name = true) (Ys nums : List ℤ) (disk : Disk) :
    (writeRegions codec dev X m Ys nums disk).1 = .ok (nums ++ Ys) := by
  induction Ys generalizing nums disk with
  | nil => simp [writeRegions]
  | cons Y Ys ih =>
    rw [writeRegions, if_pos (hdev _), ih]
    simp

/-- Other files are left alone. -/
lemma writeRegions_snd_of_ne {Ys : List ℤ} {name : String}
    (hname : ∀ Y ∈ Ys, name ≠ numberToStr X Y) (nums : List ℤ) (disk : Disk) :
    (writeRegions codec dev X m Ys nums disk).2 name = disk name := by
  induction Ys generalizing nums disk with
  | nil => rfl
  | cons Y Ys ih =>
    unfold writeRegions
    dsimp only
    split_ifs
    · rw [ih fun Y' hY' => hname Y' (List.mem_cons_of_mem _ hY'),
        Function.update_of_ne (hname Y List.mem_cons_self)]
    · rfl

/-- A written bucket can be read back. -/
lemma writeRegions_snd (hdev : ∀ name, dev.create name = true) (hX : 0 ≤ X) {Ys : List ℤ}
    (hpos : ∀ Y ∈ Ys, 0 ≤ Y) (nums : List ℤ) (disk : Disk) {Y : ℤ} (hY : Y ∈ Ys) :
    (writeRegions codec dev X m Ys nums disk).2 (numberToStr X Y) =
      some (codec.marshal ((m.lookup Y).getD [])) := by
  induction Ys generalizing nums disk with
  | nil => simp at hY
  | cons Y₀ Ys ih =>
    rw [writeRegions, if_pos (hdev _)]
    by_cases hmem : Y ∈ Ys
    · exact ih (fun Y' hY' => hpos Y' (List.mem_cons_of_mem _ hY')) _ _ hmem
    · obtain rfl : Y = Y₀ := (List.mem_cons.mp hY).resolve_right hmem
      rw [writeRegions_snd_of_ne, Function.update_self]
      intro Y' hY' heq
      obtain ⟨-, rfl⟩ := (numberToStr_inj hX hX (hpos Y List.mem_cons_self)
        (hpos Y' (List.mem_cons_of_mem _ hY'))).mp heq
      exact hmem hY'

variable (codec) {nReduce} (range : Range) (mapf : String → String → List KeyValue)
  {content : String}

/-- **One map task** whose file can be read, on a device that can write: the task is reported with
its buckets in some order, each bucket is in its file, and nothing else has changed.

**Proof sketch.** The device never fails, so `writeRegions` writes one file for each bucket of the
region map. Buckets are positive, so that their files have different names. -/
theorem doMap_singleton (hdev : ∀ name, dev.create name = true) (hn : 1 ≤ nReduce)
    {task : AssignTask} (hid : 0 ≤ task.taskId) (hread : dev.read task.fileName = some content)
    (disk : Disk) :
    ∃ nums disk', doMap hash nReduce codec dev range mapf [task] [] disk =
        (.ok [⟨task.fileName, task.taskId, nums⟩], disk') ∧
      nums.Perm (regionMap hash nReduce (mapf task.fileName content)).keys ∧
      (∀ Y ∈ nums, disk' (numberToStr task.taskId Y) = some (codec.marshal
        ((mapf task.fileName content).filter fun kv => region hash nReduce kv = Y))) ∧
      ∀ name, (∀ Y ∈ nums, name ≠ numberToStr task.taskId Y) → disk' name = disk name := by
  obtain ⟨Ys, hYs⟩ : ∃ Ys, range.order
      (regionMap hash nReduce (mapf task.fileName content)).keys = Ys := ⟨_, rfl⟩
  have hperm : Ys.Perm (regionMap hash nReduce (mapf task.fileName content)).keys :=
    hYs ▸ range.perm _
  have hpos : ∀ Y ∈ Ys, 0 ≤ Y := by
    intro Y hY
    obtain ⟨kv, -, rfl⟩ := (mem_regionMap hash nReduce _ Y).mp (hperm.mem_iff.mp hY)
    exact (region_pos hash nReduce kv).le
  obtain ⟨res, disk', hw⟩ : ∃ res disk', writeRegions codec dev task.taskId
      (regionMap hash nReduce (mapf task.fileName content)) Ys [] disk = (res, disk') :=
    ⟨_, _, rfl⟩
  have hres : res = .ok ([] ++ Ys) := by
    rw [← writeRegions_fst hdev Ys [] disk, hw]
  have hdisk : disk' = (writeRegions codec dev task.taskId
      (regionMap hash nReduce (mapf task.fileName content)) Ys [] disk).2 := by rw [hw]
  refine ⟨Ys, disk', ?_, hperm, ?_, ?_⟩
  · unfold doMap
    rw [hread]
    dsimp only
    rw [if_neg (by omega), hYs, hw, hres]
    rfl
  · intro Y hY
    rw [hdisk, writeRegions_snd hdev hid hpos [] disk hY, lookup_regionMap]
  · intro name hname
    rw [hdisk, writeRegions_snd_of_ne hname [] disk]

end Map

/-! ## What `doReduce` reads -/

/-- Files that hold encoded pairs are concatenated in the order of the tasks. -/
lemma readFiles_ok {codec : Codec} {dev : Device} {tasks : List AssignTask}
    {pairs : AssignTask → List KeyValue}
    (hread : ∀ t ∈ tasks, dev.read t.fileName = some (codec.marshal (pairs t)))
    (keyVals : List KeyValue) (finishTasks : List FinishTask) :
    readFiles codec dev tasks keyVals finishTasks = .ok (keyVals ++ tasks.flatMap pairs,
      finishTasks ++ tasks.map fun t => ⟨t.fileName, t.taskId, [t.taskId]⟩) := by
  induction tasks generalizing keyVals finishTasks with
  | nil => simp [readFiles]
  | cons t tasks ih =>
    rw [readFiles, hread t List.mem_cons_self]
    dsimp only
    rw [codec.unmarshal_marshal]
    dsimp only
    rw [ih fun t' ht' => hread t' (List.mem_cons_of_mem _ ht')]
    simp

/-- Whatever is read, the tasks are reported in their order. -/
lemma readFiles_tasks {codec : Codec} {dev : Device} {tasks : List AssignTask}
    {keyVals keyVals' : List KeyValue} {finishTasks finishTasks' : List FinishTask}
    (h : readFiles codec dev tasks keyVals finishTasks = .ok (keyVals', finishTasks')) :
    finishTasks' = finishTasks ++ tasks.map fun t => ⟨t.fileName, t.taskId, [t.taskId]⟩ := by
  induction tasks generalizing keyVals finishTasks with
  | nil =>
    simp only [readFiles, Except.ok.injEq, Prod.mk.injEq] at h
    simp [h.2]
  | cons t tasks ih =>
    unfold readFiles at h
    split at h
    · simp at h
    · split at h
      · simp at h
      · rw [ih h]
        simp

/-- `doReduce` on the files of bucket `Y`. -/
lemma doReduce_ok {codec : Codec} {dev : Device} (hdev : ∀ name, dev.create name = true)
    {tasks : List AssignTask} (hne : tasks ≠ []) {Y : ℤ} (hid : ∀ t ∈ tasks, t.taskId = Y)
    {pairs : AssignTask → List KeyValue}
    (hread : ∀ t ∈ tasks, dev.read t.fileName = some (codec.marshal (pairs t)))
    (sorter : Sorter) (reducef : String → List String → String) :
    doReduce codec dev sorter reducef tasks =
      .ok (tasks.map fun t => ⟨t.fileName, t.taskId, [t.taskId]⟩, "mr-out-" ++ toString (Y - 1),
        reduceRuns reducef (sorter.sort (tasks.flatMap pairs)) 0) := by
  cases tasks with
  | nil => exact absurd rfl hne
  | cons t tasks =>
    rw [doReduce, readFiles_ok hread]
    dsimp only
    rw [if_pos (hdev _), hid t List.mem_cons_self, List.nil_append, List.nil_append]

end Mit6824.MapReduce
