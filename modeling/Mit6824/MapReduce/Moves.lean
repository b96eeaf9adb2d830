import Mit6824.MapReduce.Master

set_option autoImplicit false

/-!
# The moves of a job

What a step of a job does, as one inductive relation, and the facts about map tasks that every move
keeps.

## Main definitions

* `Mit6824.MapReduce.Workload.IsFile`, `Mit6824.MapReduce.Workload.Full` — the intermediate files,
  and the assignments with all files of a bucket.
* `Mit6824.MapReduce.Job.Calm` — the condition on a step.
* `Mit6824.MapReduce.Job.Move` — what the steps do.
* `Mit6824.MapReduce.Job.Mapping` — the facts about map tasks.

## Main results

* `Mit6824.MapReduce.Job.move_of_step` — every step is one of the moves.
* `Mit6824.MapReduce.Job.Mapping.move` — every move keeps the facts about map tasks.
-/

namespace Mit6824.MapReduce

/-! ## Looking things up -/

section Tables

variable {α β γ : Type} [DecidableEq α]

/-- Many insertions of one value. -/
lemma lookup_foldl_insert (key : γ → α) {val : γ → β} {v : β} {l : List γ}
    (hval : ∀ c ∈ l, val c = v) (r : AList fun _ : α => β) (a : α) :
    (l.foldl (fun r c => r.insert (key c) (val c)) r).lookup a =
      if a ∈ l.map key then some v else r.lookup a := by
  induction l generalizing r with
  | nil => simp
  | cons c l ih =>
    rw [List.foldl_cons, ih fun d hd => hval d (List.mem_cons_of_mem _ hd)]
    by_cases hmem : a ∈ l.map key
    · rw [if_pos hmem, if_pos (by simpa using Or.inr hmem)]
    · rw [if_neg hmem]
      by_cases ha : a = key c
      · subst ha
        rw [AList.lookup_insert, if_pos (by simp), hval c List.mem_cons_self]
      · rw [AList.lookup_insert_ne ha, if_neg]
        simpa [ha] using hmem

/-- Many deletions. -/
lemma lookup_foldl_erase (key : γ → α) {l : List γ} (r : AList fun _ : α => β) (a : α) :
    (l.foldl (fun r c => r.erase (key c)) r).lookup a =
      if a ∈ l.map key then none else r.lookup a := by
  induction l generalizing r with
  | nil => simp
  | cons c l ih =>
    rw [List.foldl_cons, ih]
    by_cases hmem : a ∈ l.map key
    · rw [if_pos hmem, if_pos (by simpa using Or.inr hmem)]
    · rw [if_neg hmem]
      by_cases ha : a = key c
      · subst ha
        rw [AList.lookup_erase, if_pos (by simp)]
      · rw [AList.lookup_erase_ne ha, if_neg]
        simpa [ha] using hmem

/-- `len(m) == 0`. -/
lemma isEmpty_entries_iff (r : AList fun _ : α => β) :
    r.entries.isEmpty = true ↔ ∀ a, r.lookup a = none := by
  rw [List.isEmpty_iff]
  constructor
  · intro h a
    rw [AList.lookup_eq_none, AList.mem_keys, AList.keys, h]
    simp
  · intro h
    rw [List.eq_nil_iff_forall_not_mem]
    rintro ⟨a, b⟩ hmem
    have hsome : b ∈ r.lookup a := AList.mem_lookup_iff.mpr hmem
    rw [h a] at hsome
    simp at hsome

end Tables

namespace Workload

variable {w : Workload} {Y Y' : ℤ} {name : String}

/-- Map tasks are numbered by the places of their files.

**Proof sketch.** Induction over the loop that fills the table of map tasks: every entry that it
makes is the number of a file and its place plus one. -/
lemma getElem?_of_taskId {f : String} {X : ℤ} (h : w.taskId f = some X) :
    ∃ x : ℕ, X = x + 1 ∧ w.files[x]? = some f := by
  have hall : ∀ (l : List (String × ℕ)) (r : AList fun _ : String => ℤ),
      (∀ f X, r.lookup f = some X → ∃ x : ℕ, X = x + 1 ∧ w.files[x]? = some f) →
      (∀ p ∈ l, w.files[p.2]? = some p.1) → ∀ f X,
      (l.foldl (fun tasks file => tasks.insert file.1 ((file.2 : ℤ) + 1)) r).lookup f = some X →
      ∃ x : ℕ, X = x + 1 ∧ w.files[x]? = some f := by
    intro l
    induction l with
    | nil => exact fun r hr _ => hr
    | cons p l ih =>
      intro r hr hl
      refine ih _ (fun f X hX => ?_) fun q hq => hl q (List.mem_cons_of_mem _ hq)
      by_cases hf : f = p.1
      · subst hf
        rw [AList.lookup_insert] at hX
        exact ⟨p.2, (Option.some.inj hX).symm, hl p List.mem_cons_self⟩
      · rw [AList.lookup_insert_ne hf] at hX
        exact hr f X hX
  refine hall w.files.zipIdx ∅ (fun f X hX => by simp at hX) (fun p hp => ?_) f X h
  exact (List.mem_zipIdx_iff_getElem?.mp hp)

/-- Task numbers are positive. -/
lemma taskId_pos {f : String} {X : ℤ} (h : w.taskId f = some X) : 0 < X := by
  obtain ⟨x, rfl, -⟩ := getElem?_of_taskId h
  omega

/-- Every file has a task.

**Proof sketch.** Induction over the loop that fills the table; no entry is ever removed. -/
lemma taskId_ne_none {f : String} (hf : f ∈ w.files) : w.taskId f ≠ none := by
  have hall : ∀ (l : List (String × ℕ)) (r : AList fun _ : String => ℤ),
      f ∈ l.map Prod.fst ∨ r.lookup f ≠ none →
      (l.foldl (fun tasks file => tasks.insert file.1 ((file.2 : ℤ) + 1)) r).lookup f ≠ none := by
    intro l
    induction l with
    | nil => exact fun r hr => hr.resolve_left List.not_mem_nil
    | cons file l ih =>
      intro r hr
      refine ih _ ?_
      by_cases hfile : f = file.1
      · exact Or.inr (by rw [hfile, AList.lookup_insert]; simp)
      · rw [AList.lookup_insert_ne hfile]
        exact hr.imp_left fun hmem => (List.mem_cons.mp hmem).resolve_left hfile
  exact hall _ ∅ (Or.inl (by simpa using hf))

/-- Buckets are numbered from 1 on. -/
lemma buckets_pos {f : String} (h : Y ∈ w.buckets f) : 0 < Y := by
  obtain ⟨kv, -, rfl⟩ := (mem_regionMap w.hash w.nReduce _ Y).mp h
  exact region_pos w.hash w.nReduce kv

variable (w) in
/-- `name` is `mr-X-Y` for a map task `X` with keys in bucket `Y`. -/
def IsFile (name : String) (Y : ℤ) : Prop :=
  ∃ f X, w.taskId f = some X ∧ Y ∈ w.buckets f ∧ name = numberToStr X Y

variable (w) in
/-- The list names all files of bucket `Y`, at least one, and nothing else. -/
structure Full (Y : ℤ) (tasks : List AssignTask) : Prop where
  used : ∃ name, w.IsFile name Y
  mem_iff : ∀ t, t ∈ tasks ↔ t.taskId = Y ∧ w.IsFile t.fileName Y

/-- The bucket of an intermediate file is positive. -/
lemma IsFile.pos (h : w.IsFile name Y) : 0 < Y := by
  obtain ⟨f, X, -, hY, -⟩ := h
  exact buckets_pos hY

/-- A file belongs to one bucket. -/
lemma IsFile.unique (h : w.IsFile name Y) (h' : w.IsFile name Y') : Y = Y' := by
  obtain ⟨f, X, hX, hY, rfl⟩ := h
  obtain ⟨f', X', hX', hY', heq⟩ := h'
  exact ((numberToStr_inj (taskId_pos hX).le (taskId_pos hX').le (buckets_pos hY).le
    (buckets_pos hY').le).mp heq).2

/-- A full assignment has the files of its bucket and no others. -/
lemma Full.mem_names {tasks : List AssignTask} (h : w.Full Y tasks) (name : String) :
    name ∈ tasks.map AssignTask.fileName ↔ w.IsFile name Y := by
  rw [List.mem_map]
  constructor
  · rintro ⟨t, ht, rfl⟩
    exact ((h.mem_iff t).mp ht).2
  · exact fun hname => ⟨⟨name, Y⟩, (h.mem_iff _).mpr ⟨rfl, hname⟩, rfl⟩

/-- All tasks of a full assignment are of its bucket. -/
lemma Full.taskId {tasks : List AssignTask} (h : w.Full Y tasks) {t : AssignTask}
    (ht : t ∈ tasks) : t.taskId = Y :=
  ((h.mem_iff t).mp ht).1

/-- A full assignment is not empty. -/
lemma Full.ne_nil {tasks : List AssignTask} (h : w.Full Y tasks) : tasks ≠ [] := by
  obtain ⟨name, hname⟩ := h.used
  exact List.ne_nil_of_mem ((h.mem_iff ⟨name, Y⟩).mpr ⟨rfl, hname⟩)

end Workload

namespace Master

variable {w : Workload} {m : Master} {X Y Z : ℤ} {tasks : List AssignTask}

/-- The tasks that `GetTask` collects for a bucket are those whose entry is the bucket's number. -/
lemma mem_bucketTasks {t : AssignTask} : t ∈ m.bucketTasks Y ↔
    t.taskId = Y ∧ m.reduceTask.lookup t.fileName = some Y := by
  simp only [bucketTasks, List.mem_map, List.mem_filter, decide_eq_true_eq]
  constructor
  · rintro ⟨⟨name, v⟩, ⟨hmem, rfl⟩, rfl⟩
    exact ⟨rfl, AList.mem_lookup_iff.mpr hmem⟩
  · rintro ⟨hid, hlookup⟩
    exact ⟨⟨t.fileName, Y⟩, ⟨AList.mem_lookup_iff.mp hlookup, rfl⟩, by rw [← hid]⟩

/-! ### Registering the files of a map task -/

/-- File `mr-X-Y` is in the tables, free. -/
def Registered (m : Master) (X Y : ℤ) : Prop :=
  m.reduceBucket.lookup Y = some true ∧ m.reduceTask.lookup (numberToStr X Y) = some Y

/-- The tables for map tasks are left alone. -/
lemma registerFiles_frame (tasks : List FinishTask) :
    (m.registerFiles tasks).mapTask = m.mapTask ∧
    (m.registerFiles tasks).isMapDone = m.isMapDone ∧
    (m.registerFiles tasks).isReduceDone = m.isReduceDone := by
  have hone : ∀ (Ys : List ℤ) (X : ℤ) (m : Master),
      (Ys.foldl (fun m Y => m.registerFile X Y) m).mapTask = m.mapTask ∧
      (Ys.foldl (fun m Y => m.registerFile X Y) m).isMapDone = m.isMapDone ∧
      (Ys.foldl (fun m Y => m.registerFile X Y) m).isReduceDone = m.isReduceDone := by
    intro Ys X
    induction Ys with
    | nil => exact fun m => ⟨rfl, rfl, rfl⟩
    | cons Y Ys ih => exact fun m => ih (m.registerFile X Y)
  unfold registerFiles
  induction tasks generalizing m with
  | nil => exact ⟨rfl, rfl, rfl⟩
  | cons task tasks ih =>
    obtain ⟨h₁, h₂, h₃⟩ := hone task.bucketNums task.taskId m
    rw [List.foldl_cons]
    exact ⟨ih.1.trans h₁, ih.2.1.trans h₂, ih.2.2.trans h₃⟩

variable {f : String} {nums : List ℤ}

/-- Registering the files of a map task opens the buckets it names. -/
lemma lookup_reduceBucket_registerFiles (Y : ℤ) :
    (m.registerFiles [⟨f, X, nums⟩]).reduceBucket.lookup Y =
      if Y ∈ nums then some true else m.reduceBucket.lookup Y := by
  have hfold : ∀ (Ys : List ℤ) (m : Master),
      (Ys.foldl (fun m Y => m.registerFile X Y) m).reduceBucket =
        Ys.foldl (fun r Y => r.insert Y true) m.reduceBucket := by
    intro Ys
    induction Ys with
    | nil => exact fun m => rfl
    | cons Y Ys ih => exact fun m => ih (m.registerFile X Y)
  show (nums.foldl (fun m Y => m.registerFile X Y) m).reduceBucket.lookup Y = _
  rw [hfold, lookup_foldl_insert (fun Y => Y) fun _ _ => rfl, List.map_id']

/-- Registering the files of a map task leaves all other files. -/
lemma lookup_reduceTask_registerFiles_of_ne {name : String}
    (hname : ∀ Y ∈ nums, name ≠ numberToStr X Y) :
    (m.registerFiles [⟨f, X, nums⟩]).reduceTask.lookup name = m.reduceTask.lookup name := by
  show (nums.foldl (fun m Y => m.registerFile X Y) m).reduceTask.lookup name = _
  induction nums generalizing m with
  | nil => rfl
  | cons Y nums ih =>
    rw [List.foldl_cons, ih fun Y' hY' => hname Y' (List.mem_cons_of_mem _ hY')]
    exact AList.lookup_insert_ne (hname Y List.mem_cons_self)

/-- Registering the files of a map task makes them free.

**Proof sketch.** Induction on the buckets. The name of a file tells its bucket, so later files do
not overwrite its entry. -/
lemma lookup_reduceTask_registerFiles (hX : 0 ≤ X) (hpos : ∀ Y ∈ nums, 0 ≤ Y) (hY : Y ∈ nums) :
    (m.registerFiles [⟨f, X, nums⟩]).reduceTask.lookup (numberToStr X Y) = some Y := by
  induction nums generalizing m with
  | nil => exact absurd hY List.not_mem_nil
  | cons Y₀ nums ih =>
    have hpos' : ∀ Y ∈ nums, 0 ≤ Y := fun Y hY => hpos Y (List.mem_cons_of_mem _ hY)
    have hstep : m.registerFiles [⟨f, X, Y₀ :: nums⟩] =
        (m.registerFile X Y₀).registerFiles [⟨f, X, nums⟩] := rfl
    rw [hstep]
    by_cases hmem : Y ∈ nums
    · exact ih hpos' hmem
    · obtain rfl : Y = Y₀ := (List.mem_cons.mp hY).resolve_right hmem
      rw [lookup_reduceTask_registerFiles_of_ne]
      · exact AList.lookup_insert _
      · intro Y' hY' heq
        obtain ⟨-, rfl⟩ := (numberToStr_inj hX hX (hpos Y List.mem_cons_self)
          (hpos' Y' hY')).mp heq
        exact hmem hY'

end Master

namespace Job

/-! ## What the steps do -/

/-- The condition under which the barrier holds: a reduce task is handed out only when no
`TaskFinished` handler is between its two sections. -/
def Calm (j : Job) : Event → Prop
  | .getReduceTask _ _ => j.pending = []
  | _ => True

instance (j : Job) : ∀ e, Decidable (j.Calm e)
  | .getReduceTask _ _ => inferInstanceAs (Decidable (_ = _))
  | .getMapTask _ | .taskFinished _ _ | .registerFiles _ | .recoverRequest _ =>
    inferInstanceAs (Decidable True)

/-- The report of a finished reduce task. -/
def reduced (task : AssignTask) : FinishTask := ⟨task.fileName, task.taskId, [task.taskId]⟩

/-- What a step of a calm run does, with what is known when it does so. -/
inductive Move (w : Workload) (j : Job) : Job → Prop
  /-- A map task fails, or is reported when the phase is over. -/
  | idle : Move w j j
  | getMapTask {f : String} {num : ℤ} (phase : j.master.isMapDone = false)
      (free : j.master.mapTask.lookup f = some num) (pos : 0 < num) :
      Move w j (j.assign { j.master with mapTask := j.master.mapTask.insert f (-num) }
        (.map ⟨f, num⟩))
  | getReduceTask {number : ℤ} {tasks : List AssignTask} (phase : j.master.isMapDone = true)
      (calm : j.pending = []) (free : j.master.reduceBucket.lookup number = some true)
      (pos : 0 < number) (files : ∀ t, t ∈ tasks ↔
        t.taskId = number ∧ j.master.reduceTask.lookup t.fileName = some number)
      (nonempty : tasks ≠ []) :
      Move w j (j.assign (j.master.takeBucket number tasks) (.reduce tasks))
  /-- A bucket without files is marked as handed out, but nothing is handed out. -/
  | emptyBucket {number : ℤ} (phase : j.master.isMapDone = true) (calm : j.pending = [])
      (free : j.master.reduceBucket.lookup number = some true)
      (files : ∀ name, j.master.reduceTask.lookup name ≠ some number) :
      Move w j { j with master := j.master.takeBucket number [] }
  | finishMap {task : AssignTask} {nums : List ℤ} (assigned : .map task ∈ j.assigned)
      (phase : j.master.isMapDone = false) (perm : nums.Perm (w.buckets task.fileName)) :
      Move w j { j with
        master := { j.master with
          mapTask := j.master.mapTask.erase task.fileName
          isMapDone := (j.master.mapTask.erase task.fileName).entries.isEmpty }
        pending := j.pending ++ [[⟨task.fileName, task.taskId, nums⟩]] }
  | finishReduce {task : AssignTask} {tasks : List AssignTask}
      (assigned : .reduce (task :: tasks) ∈ j.assigned) :
      Move w j { j with
        master := j.master.closeBucket task.taskId ((task :: tasks).map reduced)
        completed := j.completed ++ [task :: tasks] }
  | registerFiles {k : ℕ} {tasks : List FinishTask} (handler : j.pending[k]? = some tasks) :
      Move w j { j with
        master := j.master.registerFiles tasks, pending := j.pending.eraseIdx k }
  | recoverMap {k : ℕ} {task : AssignTask} (timer : j.timers[k]? = some (.map task)) :
      Move w j { j with master := j.master.recoverMap [task], timers := j.timers.eraseIdx k }
  | recoverReduce {k : ℕ} {task : AssignTask} {tasks : List AssignTask}
      (timer : j.timers[k]? = some (.reduce (task :: tasks)))
      (unfinished : (j.master.reduceBucket.lookup task.taskId).isSome = true) :
      Move w j { j with
        master := j.master.freeBucket task.taskId (task :: tasks)
        timers := j.timers.eraseIdx k }
  /-- The timer of a finished reduce task. -/
  | dropTimer {k : ℕ} {task : AssignTask} {tasks : List AssignTask}
      (timer : j.timers[k]? = some (.reduce (task :: tasks)))
      (finished : j.master.reduceBucket.lookup task.taskId = none) :
      Move w j { j with timers := j.timers.eraseIdx k }

variable {w : Workload} {j j' : Job}

/-- The four kinds of reports. -/
lemma reports_cases {a : Assignment} {req : FinishedRequest} (h : w.Reports a req) :
    (∃ task nums, a = .map task ∧ req = ⟨.mapTask, [⟨task.fileName, task.taskId, nums⟩]⟩ ∧
      nums.Perm (w.buckets task.fileName)) ∨
    (∃ task, a = .map task ∧ req = ⟨.mapTaskFail, []⟩) ∨
    (∃ tasks, a = .reduce tasks ∧ req = ⟨.reduceTask, tasks.map reduced⟩) ∨
    (∃ tasks, a = .reduce tasks ∧ req = ⟨.reduceTaskFail, []⟩) := by
  unfold Workload.Reports at h
  split at h
  · rename_i task fin
    obtain ⟨hname, hid, hperm⟩ := h
    refine Or.inl ⟨task, fin.bucketNums, rfl, ?_, hperm⟩
    rw [← hname, ← hid]
  · exact Or.inr (Or.inl ⟨_, rfl, rfl⟩)
  · exact Or.inr (Or.inr (Or.inl ⟨_, rfl, by rw [h]; rfl⟩))
  · exact Or.inr (Or.inr (Or.inr ⟨_, rfl, rfl⟩))
  · exact h.elim

/-- The moves of a report.

**Proof sketch.** By the four kinds of report. After the map phase a report on a map task is
ignored, and so is a failure; an empty report on a reduce task would be a panic. -/
lemma move_of_taskFinished {a : Assignment} {req : FinishedRequest}
    (h : j.step w (.taskFinished a req) = some j') : Move w j j' := by
  simp only [step, report] at h
  split_ifs at h with hguard
  obtain ⟨hassigned, hreports⟩ := hguard
  obtain ⟨task, nums, rfl, rfl, hperm⟩ | ⟨task, rfl, rfl⟩ | ⟨tasks, rfl, rfl⟩ | ⟨tasks, rfl, rfl⟩ :=
    reports_cases hreports
  · cases hphase : j.master.isMapDone with
    | true =>
      simp only [Master.taskFinished, hphase, if_true, record, Option.some.injEq] at h
      subst h
      exact .idle
    | false =>
      simp only [Master.taskFinished, hphase, Bool.false_eq_true, if_false, List.foldl_cons,
        List.foldl_nil, Option.some.injEq] at h
      subst h
      exact .finishMap hassigned hphase hperm
  · simp only [Master.taskFinished, List.foldl_nil, ite_self, record, Option.some.injEq] at h
    subst h
    exact .idle
  · cases tasks with
    | nil => simp [Master.taskFinished] at h
    | cons task tasks =>
      simp only [Master.taskFinished, List.map_cons, record, Option.some.injEq] at h
      subst h
      exact .finishReduce hassigned
  · simp [Master.taskFinished] at h

/-- **What a step can do.**

**Proof sketch.** By the event. Each handler is evaluated along its branches, and a branch that
answers is one of the moves. -/
theorem move_of_step {e : Event} (h : j.step w e = some j') (hcalm : j.Calm e) : Move w j j' := by
  cases e with
  | getMapTask f =>
    obtain ⟨⟨j', task⟩, hget, rfl⟩ := Option.map_eq_some_iff.mp h
    simp only [getMapTask, Master.getMapTask] at hget
    split at hget
    · simp at hget
    · rename_i m task heq
      split_ifs at heq with hphase
      split at heq
      · simp at heq
      · rename_i num hfree
        split_ifs at heq with hpos
        obtain ⟨rfl, rfl⟩ := Prod.mk.inj (Option.some.inj heq)
        obtain ⟨rfl, rfl⟩ := Prod.mk.inj (Option.some.inj hget)
        exact .getMapTask (by simpa using hphase) hfree hpos
  | getReduceTask number tasks =>
    simp only [step, getReduceTask, Master.getReduceTask] at h
    split at h
    · simp at h
    · rename_i m heq
      split_ifs at heq with hguard
      obtain ⟨hphase, hfree, hpos, hperm⟩ := hguard
      obtain rfl := Option.some.inj heq
      obtain rfl := Option.some.inj h
      have hfiles : ∀ t, t ∈ tasks ↔
          t.taskId = number ∧ j.master.reduceTask.lookup t.fileName = some number :=
        fun t => hperm.mem_iff.trans Master.mem_bucketTasks
      split_ifs with hnil
      · subst hnil
        refine .emptyBucket hphase hcalm hfree fun name hname => ?_
        exact List.not_mem_nil ((hfiles ⟨name, number⟩).mpr ⟨rfl, hname⟩)
      · exact .getReduceTask hphase hcalm hfree hpos hfiles hnil
  | taskFinished a req => exact move_of_taskFinished h
  | registerFiles k =>
    simp only [step] at h
    split at h
    · simp at h
    · rename_i tasks hhandler
      obtain rfl := Option.some.inj h
      exact .registerFiles hhandler
  | recoverRequest k =>
    simp only [step] at h
    split at h
    · simp at h
    · rename_i task htimer
      obtain rfl := Option.some.inj h
      exact .recoverMap htimer
    · rename_i tasks htimer
      cases tasks with
      | nil => simp [Master.recoverReduce] at h
      | cons task tasks =>
        simp only [Master.recoverReduce] at h
        split_ifs at h with hsome
        · obtain rfl := Option.some.inj h
          exact .recoverReduce htimer hsome
        · obtain rfl := Option.some.inj h
          exact .dropTimer htimer (by simpa using hsome)

/-! ## The map tasks -/

/-- What always holds about the map tasks. -/
structure Mapping (w : Workload) (j : Job) : Prop where
  entry : ∀ f num, j.master.mapTask.lookup f = some num →
    ∃ X, w.taskId f = some X ∧ (num = X ∨ num = -X)
  assigned : ∀ t, .map t ∈ j.assigned → w.taskId t.fileName = some t.taskId
  timer : ∀ t, .map t ∈ j.timers → w.taskId t.fileName = some t.taskId
  /-- A task that has been handed out is watched. -/
  watched : ∀ f num, j.master.mapTask.lookup f = some num → num < 0 →
    ∃ t, .map t ∈ j.timers ∧ t.fileName = f
  handler : ∀ p ∈ j.pending, ∃ f X nums, w.taskId f = some X ∧ nums.Perm (w.buckets f) ∧
    p = [⟨f, X, nums⟩]
  mapsDone : j.master.isMapDone = true → ∀ f, j.master.mapTask.lookup f = none
  unfinished : w.files ≠ [] → j.master.isMapDone = false →
    ∃ f, j.master.mapTask.lookup f ≠ none

/-- The fields a move must keep for the facts about map tasks to stay. -/
lemma Mapping.congr (h : Mapping w j) (htask : j'.master.mapTask = j.master.mapTask)
    (hdone : j'.master.isMapDone = j.master.isMapDone)
    (hassigned : ∀ t, .map t ∈ j'.assigned → .map t ∈ j.assigned)
    (htimers : ∀ t, .map t ∈ j'.timers ↔ .map t ∈ j.timers)
    (hpending : ∀ p ∈ j'.pending, p ∈ j.pending) : Mapping w j' where
  entry f num hnum := h.entry f num (htask ▸ hnum)
  assigned t ht := h.assigned t (hassigned t ht)
  timer t ht := h.timer t ((htimers t).mp ht)
  watched f num hnum hneg := by
    obtain ⟨t, ht, hf⟩ := h.watched f num (htask ▸ hnum) hneg
    exact ⟨t, (htimers t).mpr ht, hf⟩
  handler p hp := h.handler p (hpending p hp)
  mapsDone hover f := by
    rw [htask]
    exact h.mapsDone (hdone ▸ hover) f
  unfinished hfiles hopen := by
    rw [htask]
    exact h.unfinished hfiles (hdone ▸ hopen)

/-- What is not taken out stays. -/
lemma mem_eraseIdx_of_ne {α : Type} {l : List α} {k : ℕ} {x y : α} (hk : l[k]? = some y)
    (hx : x ∈ l) (hne : x ≠ y) : x ∈ l.eraseIdx k := by
  obtain ⟨i, hi⟩ := List.mem_iff_getElem?.mp hx
  refine List.mem_eraseIdx_iff_getElem?.mpr ⟨i, ?_, hi⟩
  rintro rfl
  exact hne (Option.some.inj (hi.symm.trans hk))

/-- The map tasks are all free at the start. -/
lemma Mapping.init (w : Workload) : Mapping w (Job.init w) where
  entry f num h := ⟨num, h, Or.inl rfl⟩
  assigned t h := absurd h List.not_mem_nil
  timer t h := absurd h List.not_mem_nil
  watched f num h hneg := absurd (Workload.taskId_pos h) (by omega)
  handler p h := absurd h List.not_mem_nil
  mapsDone h := absurd h Bool.false_ne_true
  unfinished hfiles _ := by
    obtain ⟨f, hf⟩ := List.exists_mem_of_ne_nil _ hfiles
    exact ⟨f, Workload.taskId_ne_none hf⟩

/-- The timers of map tasks stay when one of a reduce task fires. -/
lemma map_mem_eraseIdx {k : ℕ} {tasks : List AssignTask}
    (timer : j.timers[k]? = some (.reduce tasks)) (t : AssignTask) :
    .map t ∈ j.timers.eraseIdx k ↔ .map t ∈ j.timers :=
  ⟨List.mem_of_mem_eraseIdx, fun ht => mem_eraseIdx_of_ne timer ht (by simp)⟩

/-! ### The moves of the map phase -/

/-- Handing out a free map task keeps the map tasks in order.

**Proof sketch.** A positive entry is the number of its task. The entry becomes negative, and its
timer is new; all other entries are what they were. -/
lemma Mapping.getMapTask (h : Mapping w j) {f : String} {num : ℤ}
    (phase : j.master.isMapDone = false) (free : j.master.mapTask.lookup f = some num)
    (pos : 0 < num) : Mapping w
      (j.assign { j.master with mapTask := j.master.mapTask.insert f (-num) } (.map ⟨f, num⟩)) := by
  -- a positive entry is the number of the task
  have hid : w.taskId f = some num := by
    obtain ⟨X, hX, heq⟩ := h.entry f num free
    have := Workload.taskId_pos hX
    obtain rfl : num = X := by omega
    exact hX
  have hmem : ∀ {l : List Assignment} {t : AssignTask}, (.map t ∈ l ++ [.map ⟨f, num⟩]) →
      .map t ∈ l ∨ t = ⟨f, num⟩ := by
    intro l t ht
    simpa using ht
  refine ⟨?_, ?_, ?_, ?_, h.handler, ?_, ?_⟩
  · intro f' num' hnum
    by_cases hf : f' = f
    · subst hf
      have hval : -num = num' := by simpa [assign, AList.lookup_insert] using hnum
      exact ⟨num, hid, Or.inr hval.symm⟩
    · exact h.entry f' num' ((AList.lookup_insert_ne hf).symm.trans hnum)
  · intro t ht
    rcases hmem ht with ht | rfl
    · exact h.assigned t ht
    · exact hid
  · intro t ht
    rcases hmem ht with ht | rfl
    · exact h.timer t ht
    · exact hid
  · intro f' num' hnum hneg
    by_cases hf : f' = f
    · subst hf
      exact ⟨⟨f', num⟩, List.mem_append_right _ List.mem_cons_self, rfl⟩
    · obtain ⟨t, ht, htf⟩ := h.watched f' num' ((AList.lookup_insert_ne hf).symm.trans hnum) hneg
      exact ⟨t, List.mem_append_left _ ht, htf⟩
  · intro hover
    rw [show j.master.isMapDone = true from hover] at phase
    exact absurd phase (by decide)
  · intro _ _
    exact ⟨f, by simp [assign, AList.lookup_insert]⟩

/-- The report on a map task keeps the map tasks in order.

**Proof sketch.** The entry is taken away and the report goes to a handler. The map phase is over
exactly when this was the last entry. -/
lemma Mapping.finishMap (h : Mapping w j) {task : AssignTask} {nums : List ℤ}
    (assigned : .map task ∈ j.assigned) (perm : nums.Perm (w.buckets task.fileName)) :
    Mapping w { j with
      master := { j.master with
        mapTask := j.master.mapTask.erase task.fileName
        isMapDone := (j.master.mapTask.erase task.fileName).entries.isEmpty }
      pending := j.pending ++ [[⟨task.fileName, task.taskId, nums⟩]] } := by
  have hlookup : ∀ f num, (j.master.mapTask.erase task.fileName).lookup f = some num →
      j.master.mapTask.lookup f = some num := by
    intro f num hnum
    by_cases hf : f = task.fileName
    · subst hf
      simp at hnum
    · exact (AList.lookup_erase_ne hf).symm.trans hnum
  refine ⟨fun f num hnum => h.entry f num (hlookup f num hnum), h.assigned, h.timer,
    fun f num hnum => h.watched f num (hlookup f num hnum), ?_, ?_, ?_⟩
  · intro p hp
    rcases List.mem_append.mp hp with hp | hp
    · exact h.handler p hp
    · exact ⟨_, _, nums, h.assigned task assigned, perm, List.mem_singleton.mp hp⟩
  · exact (isEmpty_entries_iff _).mp
  · intro _ hopen
    by_contra hnone
    have hempty := (isEmpty_entries_iff (j.master.mapTask.erase task.fileName)).mpr
      fun f => by_contra fun hf => hnone ⟨f, hf⟩
    exact absurd (hempty.symm.trans hopen) (by decide)

/-- The timer of a map task keeps the map tasks in order.

**Proof sketch.** An entry that is still there becomes positive again, so that it needs no timer. If
it is not there, nothing changes. The timers of other tasks stay. -/
lemma Mapping.recoverMap (h : Mapping w j) {k : ℕ} {task : AssignTask}
    (timer : j.timers[k]? = some (.map task)) : Mapping w
      { j with master := j.master.recoverMap [task], timers := j.timers.eraseIdx k } := by
  have hid := h.timer task (List.mem_of_getElem? timer)
  have htimer : ∀ t, .map t ∈ j.timers → t.fileName ≠ task.fileName →
      .map t ∈ j.timers.eraseIdx k := by
    intro t ht hne
    refine mem_eraseIdx_of_ne timer ht fun heq => hne ?_
    rw [Assignment.map.inj heq]
  unfold Master.recoverMap
  split_ifs with hpresent
  · refine ⟨?_, h.assigned, fun t ht => h.timer t (List.mem_of_mem_eraseIdx ht), ?_, h.handler,
      ?_, fun _ _ => ⟨task.fileName, by simp [AList.lookup_insert]⟩⟩
    · intro f num hnum
      by_cases hf : f = task.fileName
      · subst hf
        have hval : task.taskId = num := by simpa [AList.lookup_insert] using hnum
        exact ⟨task.taskId, hid, Or.inl hval.symm⟩
      · exact h.entry f num ((AList.lookup_insert_ne hf).symm.trans hnum)
    · intro f num hnum hneg
      by_cases hf : f = task.fileName
      · subst hf
        have hval : task.taskId = num := by simpa [AList.lookup_insert] using hnum
        have := Workload.taskId_pos hid
        omega
      · obtain ⟨t, ht, rfl⟩ :=
          h.watched f num ((AList.lookup_insert_ne hf).symm.trans hnum) hneg
        exact ⟨t, htimer t ht hf, rfl⟩
    · intro hover
      have hnone := h.mapsDone hover task.fileName
      simp [hnone] at hpresent
  · have hnone : j.master.mapTask.lookup task.fileName = none := by simpa using hpresent
    refine ⟨h.entry, h.assigned, fun t ht => h.timer t (List.mem_of_mem_eraseIdx ht), ?_, h.handler,
      h.mapsDone, h.unfinished⟩
    intro f num hnum hneg
    obtain ⟨t, ht, rfl⟩ := h.watched f num hnum hneg
    refine ⟨t, htimer t ht fun hf => ?_, rfl⟩
    rw [hf, hnone] at hnum
    simp at hnum

/-- Every move keeps the facts about map tasks. -/
theorem Mapping.move (h : Mapping w j) (hmove : Move w j j') : Mapping w j' := by
  cases hmove with
  | idle => exact h
  | getMapTask phase free pos => exact h.getMapTask phase free pos
  | getReduceTask phase calm free pos files nonempty =>
    exact h.congr rfl rfl (fun t ht => by simpa [assign] using ht)
      (fun t => by simp [assign]) fun _ hp => hp
  | emptyBucket phase calm free files =>
    exact h.congr rfl rfl (fun _ ht => ht) (fun _ => Iff.rfl) fun _ hp => hp
  | finishMap assigned phase perm => exact h.finishMap assigned perm
  | finishReduce assigned =>
    exact h.congr rfl rfl (fun _ ht => ht) (fun _ => Iff.rfl) fun _ hp => hp
  | @registerFiles k tasks handler =>
    obtain ⟨htask, hdone, -⟩ := j.master.registerFiles_frame tasks
    exact h.congr htask hdone (fun _ ht => ht) (fun _ => Iff.rfl)
      fun _ hp => List.mem_of_mem_eraseIdx hp
  | recoverMap timer => exact h.recoverMap timer
  | recoverReduce timer unfinished =>
    exact h.congr rfl rfl (fun _ ht => ht) (map_mem_eraseIdx timer) fun _ hp => hp
  | dropTimer timer finished =>
    exact h.congr rfl rfl (fun _ ht => ht) (map_mem_eraseIdx timer) fun _ hp => hp

end Job

end Mit6824.MapReduce
