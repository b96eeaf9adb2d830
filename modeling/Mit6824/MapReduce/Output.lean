import Mathlib.Data.List.Sort
import Mit6824.MapReduce.Worker

set_option autoImplicit false

/-!
# The output of the distributed program

All map tasks are done, then each bucket that is not empty is reduced. The records of all output
files together are, up to order, those of the sequential program on the same files.

## Main definitions

* `Mit6824.MapReduce.MapCall`, `Mit6824.MapReduce.ReduceCall` — a call of `doMap` or `doReduce`
  with the choices the runtime makes for it.
* `Mit6824.MapReduce.mapPhase` — the files after all calls of `doMap`.
* `Mit6824.MapReduce.bucketFiles` — the files of a bucket.
* `Mit6824.MapReduce.recordsOf` — what should be written for a key.

## Main results

* `Mit6824.MapReduce.distributed_output_eq_sequential`.

## Design

Every call of `doMap` reads the content that belongs to its task, and every call of `doReduce` reads
what the map phase has left on the disk. The order of the buckets in a map task and the sorting in
a reduce task may differ from call to call.
-/

namespace Mit6824.MapReduce

/-- One call of `doMap`: its task, the content of the task's file, and the order in which the
buckets are visited. -/
structure MapCall where
  task : AssignTask
  content : String
  range : Range

/-- One call of `doReduce`: the bucket, its files in some order, and the sorting of this call. -/
structure ReduceCall where
  bucket : ℤ
  tasks : List AssignTask
  sorter : Sorter

section Phases

variable (codec : Codec) (hash : String → ℕ) (nReduce : ℕ)
  (mapf : String → String → List KeyValue) (reducef : String → List String → String)

/-- What `mapf` emits for the task. -/
def MapCall.keyVals (c : MapCall) : List KeyValue := mapf c.task.fileName c.content

/-- The call, on a device that can write everything. -/
def MapCall.run (c : MapCall) (disk : Disk) : Except WorkError (List FinishTask) × Disk :=
  doMap hash nReduce codec ⟨fun _ => some c.content, fun _ => true⟩ c.range mapf [c.task] [] disk

/-- The files after the calls of `doMap`, one after the other. -/
def mapPhase (calls : List MapCall) : Disk :=
  calls.foldl (fun disk c => (c.run codec hash nReduce mapf disk).2) fun _ => none

/-- The files of a bucket: one for every map task that emits a key of the bucket. -/
def bucketFiles (calls : List MapCall) (Y : ℤ) : List AssignTask :=
  (calls.filter fun c => (c.keyVals mapf).any fun kv => region hash nReduce kv = Y).map fun c =>
    ⟨numberToStr c.task.taskId Y, Y⟩

/-- The name and the records of the output file. -/
def ReduceCall.run (r : ReduceCall) (disk : Disk) : Except WorkError (String × List Record) :=
  (doReduce codec ⟨disk, fun _ => true⟩ r.sorter reducef r.tasks).map Prod.snd

variable {codec hash nReduce mapf reducef}

/-! ## After the map phase -/

/-- One map call more. -/
lemma mapPhase_concat (calls : List MapCall) (c : MapCall) :
    mapPhase codec hash nReduce mapf (calls ++ [c]) =
      (c.run codec hash nReduce mapf (mapPhase codec hash nReduce mapf calls)).2 := by
  simp [mapPhase]

/-- A call of `doMap` returns; it writes the files of its buckets and no others. -/
lemma MapCall.run_spec (codec : Codec) (hash : String → ℕ) (mapf : String → String → List KeyValue)
    (hn : 1 ≤ nReduce) (c : MapCall) (hid : 0 ≤ c.task.taskId) (disk : Disk) :
    ∃ nums disk', c.run codec hash nReduce mapf disk =
        (.ok [⟨c.task.fileName, c.task.taskId, nums⟩], disk') ∧
      (∀ Y, Y ∈ nums ↔ ∃ kv ∈ c.keyVals mapf, region hash nReduce kv = Y) ∧
      (∀ Y ∈ nums, disk' (numberToStr c.task.taskId Y) = some (codec.marshal
        ((c.keyVals mapf).filter fun kv => region hash nReduce kv = Y))) ∧
      ∀ name, (∀ Y ∈ nums, name ≠ numberToStr c.task.taskId Y) → disk' name = disk name := by
  have hread : (⟨fun _ => some c.content, fun _ => true⟩ : Device).read c.task.fileName =
      some c.content := rfl
  obtain ⟨nums, disk', hrun, hperm, hwritten, hkept⟩ :=
    doMap_singleton hash codec c.range mapf (fun _ => rfl) hn hid hread disk
  exact ⟨nums, disk', hrun, fun Y => hperm.mem_iff.trans (mem_regionMap hash nReduce _ Y),
    hwritten, hkept⟩

/-- After the map phase the file of a task and a bucket holds the pairs of the task in that bucket.

**Proof sketch.** Induction on the calls: the last one writes its own files, and those of the others
have other names, since their task numbers differ. -/
lemma mapPhase_apply (hn : 1 ≤ nReduce) {calls : List MapCall}
    (hids : (calls.map fun c => c.task.taskId).Nodup) (hpos : ∀ c ∈ calls, 0 < c.task.taskId)
    {c : MapCall} (hc : c ∈ calls) {kv : KeyValue} (hkv : kv ∈ c.keyVals mapf) :
    mapPhase codec hash nReduce mapf calls (numberToStr c.task.taskId (region hash nReduce kv)) =
      some (codec.marshal ((c.keyVals mapf).filter fun kv' =>
        region hash nReduce kv' = region hash nReduce kv)) := by
  induction calls using List.reverseRecOn with
  | nil => simp at hc
  | append_singleton calls d ih =>
    rw [List.map_append, List.nodup_append] at hids
    obtain ⟨hids, -, hdisj⟩ := hids
    have hd : 0 ≤ d.task.taskId := (hpos d (by simp)).le
    obtain ⟨nums, disk', hrun, hmem, hwritten, hkept⟩ :=
      d.run_spec codec hash mapf hn hd (mapPhase codec hash nReduce mapf calls)
    rw [mapPhase_concat, hrun]
    rcases List.mem_append.mp hc with hc | hc
    · have hne : c.task.taskId ≠ d.task.taskId :=
        hdisj _ (List.mem_map_of_mem hc) _ (by simp)
      refine (hkept _ fun Y hY heq => ?_).trans
        (ih hids (fun c hc => hpos c (List.mem_append_left _ hc)) hc)
      obtain ⟨kv', -, rfl⟩ := (hmem Y).mp hY
      exact hne ((numberToStr_inj (hpos c (List.mem_append_left _ hc)).le hd
        (region_pos hash nReduce kv).le (region_pos hash nReduce kv').le).mp heq).1
    · obtain rfl := List.mem_singleton.mp hc
      exact hwritten _ ((hmem _).mpr ⟨kv, hkv, rfl⟩)

/-! ## The reduce phase -/

/-- The pairs in the file of a task. -/
def diskPairs (codec : Codec) (disk : Disk) (t : AssignTask) : List KeyValue :=
  ((disk t.fileName).bind codec.unmarshal).getD []

/-- The pairs a call of `doReduce` reads. -/
def ReduceCall.keyVals (codec : Codec) (disk : Disk) (r : ReduceCall) : List KeyValue :=
  r.tasks.flatMap (diskPairs codec disk)

/-- The files of a bucket are those of the map calls that emit a key of it. -/
lemma mem_bucketFiles {calls : List MapCall} {Y : ℤ} {t : AssignTask} :
    t ∈ bucketFiles hash nReduce mapf calls Y ↔ ∃ c ∈ calls, ∃ kv ∈ c.keyVals mapf,
      region hash nReduce kv = Y ∧ t = ⟨numberToStr c.task.taskId Y, Y⟩ := by
  simp only [bucketFiles, List.mem_map, List.mem_filter, List.any_eq_true, decide_eq_true_eq]
  constructor
  · rintro ⟨c, ⟨hc, kv, hkv, hY⟩, rfl⟩
    exact ⟨c, hc, kv, hkv, hY, rfl⟩
  · rintro ⟨c, hc, kv, hkv, hY, rfl⟩
    exact ⟨c, ⟨hc, kv, hkv, hY⟩, rfl⟩

/-- The files of a bucket hold the pairs of its region, task by task.

**Proof sketch.** Induction on the calls. A call has a file in the bucket just when it emits a pair
of the region, and otherwise it contributes nothing. -/
lemma flatMap_bucketFiles {pairs : AssignTask → List KeyValue} {calls : List MapCall}
    (hpairs : ∀ c ∈ calls, ∀ kv ∈ c.keyVals mapf,
      pairs ⟨numberToStr c.task.taskId (region hash nReduce kv), region hash nReduce kv⟩ =
        (c.keyVals mapf).filter fun kv' => region hash nReduce kv' = region hash nReduce kv)
    (Y : ℤ) : (bucketFiles hash nReduce mapf calls Y).flatMap pairs =
      (calls.flatMap (MapCall.keyVals mapf)).filter fun kv => region hash nReduce kv = Y := by
  induction calls with
  | nil => rfl
  | cons c calls ih =>
    have hrest := ih fun c' hc' => hpairs c' (List.mem_cons_of_mem _ hc')
    rw [List.flatMap_cons, List.filter_append, ← hrest]
    by_cases hany : ((c.keyVals mapf).any fun kv => region hash nReduce kv = Y) = true
    · obtain ⟨kv, hkv, hY⟩ := List.any_eq_true.mp hany
      obtain rfl : region hash nReduce kv = Y := by simpa using hY
      rw [bucketFiles, List.filter_cons, if_pos hany, List.map_cons, List.flatMap_cons,
        hpairs c List.mem_cons_self kv hkv]
      rfl
    · have hnone : (c.keyVals mapf).filter (fun kv => region hash nReduce kv = Y) = [] := by
        rw [List.filter_eq_nil_iff]
        intro kv hkv hY
        exact hany (List.any_eq_true.mpr ⟨kv, hkv, hY⟩)
      rw [bucketFiles, List.filter_cons, if_neg hany, hnone]
      rfl

/-- After the map phase, the file of a map call and a bucket holds the pairs of that call in that
bucket. -/
lemma diskPairs_mapPhase (hn : 1 ≤ nReduce) {maps : List MapCall}
    (hids : (maps.map fun c => c.task.taskId).Nodup) (hpos : ∀ c ∈ maps, 0 < c.task.taskId)
    {c : MapCall} (hc : c ∈ maps) {kv : KeyValue} (hkv : kv ∈ c.keyVals mapf) :
    diskPairs codec (mapPhase codec hash nReduce mapf maps)
        ⟨numberToStr c.task.taskId (region hash nReduce kv), region hash nReduce kv⟩ =
      (c.keyVals mapf).filter fun kv' => region hash nReduce kv' = region hash nReduce kv := by
  unfold diskPairs
  rw [mapPhase_apply hn hids hpos hc hkv, Option.bind_some, codec.unmarshal_marshal,
    Option.getD_some]

/-- A call of `doReduce` on a bucket that is not empty returns the summary of its region.

**Proof sketch.** The files of the bucket can be read and hold the pairs of the region, so together
they hold all pairs of the region. With this `doReduce` succeeds (`doReduce_ok`), since the bucket
has a file. -/
lemma ReduceCall.run_spec (hn : 1 ≤ nReduce) {maps : List MapCall}
    (hids : (maps.map fun c => c.task.taskId).Nodup) (hpos : ∀ c ∈ maps, 0 < c.task.taskId)
    (r : ReduceCall) (hbucket : ∃ c ∈ maps, ∃ kv ∈ c.keyVals mapf,
      region hash nReduce kv = r.bucket)
    (hfiles : r.tasks.Perm (bucketFiles hash nReduce mapf maps r.bucket)) :
    (r.keyVals codec (mapPhase codec hash nReduce mapf maps)).Perm
      ((maps.flatMap (MapCall.keyVals mapf)).filter fun kv => region hash nReduce kv = r.bucket) ∧
    r.run codec reducef (mapPhase codec hash nReduce mapf maps) =
      .ok ("mr-out-" ++ toString (r.bucket - 1), reduceRuns reducef
        (r.sorter.sort (r.keyVals codec (mapPhase codec hash nReduce mapf maps))) 0) := by
  have hmem : ∀ t, t ∈ r.tasks ↔ ∃ c ∈ maps, ∃ kv ∈ c.keyVals mapf,
      region hash nReduce kv = r.bucket ∧ t = ⟨numberToStr c.task.taskId r.bucket, r.bucket⟩ :=
    fun t => hfiles.mem_iff.trans mem_bucketFiles
  refine ⟨?_, ?_⟩
  · rw [← flatMap_bucketFiles fun c hc kv hkv => diskPairs_mapPhase hn hids hpos hc hkv]
    exact hfiles.flatMap_right _
  · have hne : r.tasks ≠ [] := by
      obtain ⟨c, hc, kv, hkv, hY⟩ := hbucket
      exact List.ne_nil_of_mem ((hmem _).mpr ⟨c, hc, kv, hkv, hY, rfl⟩)
    have hid : ∀ t ∈ r.tasks, t.taskId = r.bucket := by
      intro t ht
      obtain ⟨c, -, kv, -, -, rfl⟩ := (hmem t).mp ht
      rfl
    have hread : ∀ t ∈ r.tasks, mapPhase codec hash nReduce mapf maps t.fileName = some
        (codec.marshal (diskPairs codec (mapPhase codec hash nReduce mapf maps) t)) := by
      intro t ht
      obtain ⟨c, hc, kv, hkv, hY, rfl⟩ := (hmem t).mp ht
      rw [← hY, diskPairs_mapPhase hn hids hpos hc hkv]
      exact mapPhase_apply hn hids hpos hc hkv
    rw [ReduceCall.run, doReduce_ok (fun _ => rfl) hne hid hread]
    rfl

/-! ## The two outputs -/

/-- What should be written for a key: one record if the key was emitted, with what `reducef` makes
of all its values, and none otherwise. -/
def recordsOf (reducef : String → List String → String) (emitted : List KeyValue) (key : String) :
    List Record :=
  if ∃ kv ∈ emitted, kv.key = key then
    [(key, reducef key ((emitted.filter fun kv => kv.key = key).map KeyValue.value))]
  else []

/-- Different buckets have different output files. -/
lemma outName_inj {Y Y' : ℤ} (hY : 0 < Y) (hY' : 0 < Y')
    (h : "mr-out-" ++ toString (Y - 1) = "mr-out-" ++ toString (Y' - 1)) : Y = Y' := by
  obtain ⟨y, hy⟩ := Int.eq_ofNat_of_zero_le (show 0 ≤ Y - 1 by omega)
  obtain ⟨y', hy'⟩ := Int.eq_ofNat_of_zero_le (show 0 ≤ Y' - 1 by omega)
  have hlist := congrArg String.toList h
  rw [hy, hy', String.toList_append, String.toList_append] at hlist
  have := repr_toList_inj (List.append_cancel_left hlist)
  omega

/-- Different buckets have different output files. -/
lemma outNames_nodup {reduces : List ReduceCall}
    (hbuckets : (reduces.map ReduceCall.bucket).Nodup) (hpos : ∀ r ∈ reduces, 0 < r.bucket) :
    (reduces.map fun r => "mr-out-" ++ toString (r.bucket - 1)).Nodup := by
  rw [List.Nodup, List.pairwise_map]
  refine (List.Pairwise.and_mem.mp (List.pairwise_map.mp hbuckets)).imp ?_
  rintro r r' ⟨hr, hr', hne⟩ heq
  exact hne (outName_inj (hpos r hr) (hpos r' hr') heq)

/-- The classes of the buckets make up everything that was emitted. -/
lemma flatten_classes_perm {all : List KeyValue} {reduces : List ReduceCall}
    (hbuckets : (reduces.map ReduceCall.bucket).Nodup)
    (hall : ∀ kv ∈ all, region hash nReduce kv ∈ reduces.map ReduceCall.bucket)
    {part : ReduceCall → List KeyValue}
    (hpart : ∀ r ∈ reduces, (part r).Perm
      (all.filter fun kv => region hash nReduce kv = r.bucket)) :
    (reduces.map part).flatten.Perm all := by
  have hclasses := Grouping.flatMap_filter_perm (region hash nReduce) hbuckets hall
  rw [List.flatMap_map] at hclasses
  rw [← List.flatMap_def]
  exact (List.Perm.flatMap_left reduces hpart).trans hclasses

/-- The parts of different buckets have no key in common. -/
lemma keysApart_classes {all : List KeyValue} {reduces : List ReduceCall}
    (hbuckets : (reduces.map ReduceCall.bucket).Nodup) {part : ReduceCall → List KeyValue}
    (hpart : ∀ r ∈ reduces, (part r).Perm
      (all.filter fun kv => region hash nReduce kv = r.bucket)) :
    Grouping.KeysApart KeyValue.key (reduces.map part) := by
  have hregion : ∀ r ∈ reduces, ∀ kv ∈ part r, region hash nReduce kv = r.bucket := by
    intro r hr kv hkv
    have hmem := (List.mem_filter.mp ((hpart r hr).mem_iff.mp hkv)).2
    simpa using hmem
  unfold Grouping.KeysApart
  rw [List.pairwise_map]
  refine (List.Pairwise.and_mem.mp (List.pairwise_map.mp hbuckets)).imp ?_
  rintro r r' ⟨hr, hr', hne⟩ kv hkv kv' hkv' hkey
  -- the region of a pair depends on its key only
  have hsame : region hash nReduce kv = region hash nReduce kv' := by rw [region, region, hkey]
  rw [hregion r hr kv hkv, hregion r' hr' kv' hkv'] at hsame
  exact hne hsame

/-- **Sorted parts, one for each bucket, make up the sequential output**: their records are, up to
order, those of the sequential program, no key occurs twice, and every key has the records it
should have.

**Proof sketch.** Both loops compute summaries of runs. No key is in two parts, so the summaries of
the parts make up the summary of the whole, and that one has the records of each key. -/
lemma outputs_of_parts (mapf : String → String → List KeyValue)
    (hreducef : ∀ key vs vs', vs.Perm vs' → reducef key vs = reducef key vs')
    {reduces : List ReduceCall} (hbuckets : (reduces.map ReduceCall.bucket).Nodup)
    (files : List (String × String)) {all : List KeyValue}
    (hfiles : (files.flatMap fun file => mapf file.1 file.2) = all)
    (hall : ∀ kv ∈ all, region hash nReduce kv ∈ reduces.map ReduceCall.bucket)
    {part : ReduceCall → List KeyValue}
    (hpart : ∀ r ∈ reduces, (part r).Perm (all.filter fun kv => region hash nReduce kv = r.bucket))
    (hsorted : ∀ r ∈ reduces, Grouping.SortedBy KeyValue.key (part r)) (sorter : Sorter) :
    (reduces.flatMap fun r => reduceRuns reducef (part r) 0).Perm
      (mrsequential sorter mapf reducef files) ∧
    ((reduces.flatMap fun r => reduceRuns reducef (part r) 0).map Prod.fst).Nodup ∧
    ∀ key, (reduces.flatMap fun r => reduceRuns reducef (part r) 0).filter (fun r => r.1 = key) =
      recordsOf reducef all key := by
  have hparts : ∀ p ∈ reduces.map part, Grouping.SortedBy KeyValue.key p := by
    intro p hp
    obtain ⟨r, hr, rfl⟩ := List.mem_map.mp hp
    exact hsorted r hr
  have hruns : (reduces.flatMap fun r => reduceRuns reducef (part r) 0) =
      (reduces.map part).flatMap (Grouping.summary KeyValue.key (reduceRun reducef)) := by
    rw [List.flatMap_map]
    exact List.flatMap_congr fun r _ => reduceRuns_eq reducef (part r)
  have hreduceRun : ∀ key (as bs : List KeyValue), as.Perm bs →
      reduceRun reducef key as = reduceRun reducef key bs :=
    fun key as bs h => hreducef key _ _ (h.map _)
  have hapart := keysApart_classes hbuckets hpart
  have hflat : (reduces.map part).flatten.Perm (sorter.sort all) :=
    (flatten_classes_perm hbuckets hall hpart).trans (sorter.perm all).symm
  have hsummary :=
    Grouping.summary_flatten_perm hreduceRun hparts (sorter.sorted all) hflat hapart
  rw [hruns, mrsequential_eq, hfiles]
  refine ⟨hsummary, Grouping.summary_flatten_keys_nodup hparts hapart, fun key => ?_⟩
  -- a list with at most one element is determined up to order
  have hfilter := hsummary.filter fun r => r.1 = key
  rw [Grouping.filter_summary (sorter.sorted all)] at hfilter
  have hmem : (∃ kv ∈ sorter.sort all, kv.key = key) ↔ ∃ kv ∈ all, kv.key = key :=
    exists_congr fun kv => and_congr_left fun _ => (sorter.perm all).mem_iff
  rw [recordsOf]
  by_cases hkey : ∃ kv ∈ all, kv.key = key
  · rw [if_pos (hmem.mpr hkey), List.perm_singleton,
      hreduceRun key _ _ ((sorter.perm all).filter _)] at hfilter
    rw [if_pos hkey, hfilter]
    rfl
  · rw [if_neg fun h => hkey (hmem.mp h), List.perm_nil] at hfilter
    rw [if_neg hkey, hfilter]

end Phases

/-- **Distributed output equals sequential output.** The map tasks have distinct positive numbers,
and `reducef` ignores the order of the values. Every bucket that is not empty is reduced once, with
its files in any order. Then every call of `doMap` and `doReduce` returns; no output file
overwrites another; the records of all output files together are, up to order, those of the
sequential program; they hold one record for each key that was emitted, with what `reducef` makes
of all its values, and no others; and every file is sorted by key.

**Proof sketch.** The files of bucket `Y` hold the pairs of region `Y`, so the inputs of the calls
of `doReduce` are the classes of everything that was emitted, and no key is in two classes. The
rest is the fact about summaries of parts. -/
theorem distributed_output_eq_sequential (codec : Codec) (hash : String → ℕ) {nReduce : ℕ}
    (hn : 1 ≤ nReduce) (mapf : String → String → List KeyValue)
    {reducef : String → List String → String}
    (hreducef : ∀ key vs vs', vs.Perm vs' → reducef key vs = reducef key vs')
    {maps : List MapCall} (hids : (maps.map fun c => c.task.taskId).Nodup)
    (hpos : ∀ c ∈ maps, 0 < c.task.taskId) {reduces : List ReduceCall}
    (hbuckets : (reduces.map ReduceCall.bucket).Nodup)
    (hall : ∀ Y, Y ∈ reduces.map ReduceCall.bucket ↔
      ∃ c ∈ maps, ∃ kv ∈ c.keyVals mapf, region hash nReduce kv = Y)
    (hfiles : ∀ r ∈ reduces, r.tasks.Perm (bucketFiles hash nReduce mapf maps r.bucket))
    (sorter : Sorter) :
    (∀ c ∈ maps, ∀ disk, ∃ nums, (c.run codec hash nReduce mapf disk).1 =
      .ok [⟨c.task.fileName, c.task.taskId, nums⟩]) ∧
    ∃ outs : List (String × List Record),
      (reduces.map fun r => r.run codec reducef (mapPhase codec hash nReduce mapf maps)) =
        outs.map .ok ∧
      (outs.map Prod.fst).Nodup ∧
      (outs.flatMap Prod.snd).Perm (mrsequential sorter mapf reducef
        (maps.map fun c => (c.task.fileName, c.content))) ∧
      ((outs.flatMap Prod.snd).map Prod.fst).Nodup ∧
      (∀ key, (outs.flatMap Prod.snd).filter (fun r => r.1 = key) =
        recordsOf reducef (maps.flatMap (MapCall.keyVals mapf)) key) ∧
      ∀ out ∈ outs, (out.2.map Prod.fst).Pairwise (· < ·) := by
  refine ⟨?_, ?_⟩
  · intro c hc disk
    obtain ⟨nums, disk', hrun, -⟩ := c.run_spec codec hash mapf hn (hpos c hc).le disk
    exact ⟨nums, by rw [hrun]⟩
  have hspec : ∀ r ∈ reduces,
      (r.keyVals codec (mapPhase codec hash nReduce mapf maps)).Perm
        ((maps.flatMap (MapCall.keyVals mapf)).filter fun kv =>
          region hash nReduce kv = r.bucket) ∧
      r.run codec reducef (mapPhase codec hash nReduce mapf maps) =
        .ok ("mr-out-" ++ toString (r.bucket - 1), reduceRuns reducef
          (r.sorter.sort (r.keyVals codec (mapPhase codec hash nReduce mapf maps))) 0) :=
    fun r hr => r.run_spec hn hids hpos ((hall r.bucket).mp (List.mem_map_of_mem hr)) (hfiles r hr)
  generalize mapPhase codec hash nReduce mapf maps = disk at hspec ⊢
  -- what the call `r` sorts, and what it has sorted
  obtain ⟨part, hdef⟩ : ∃ part : ReduceCall → List KeyValue,
      part = fun r => r.sorter.sort (r.keyVals codec disk) := ⟨_, rfl⟩
  have hpart : ∀ r ∈ reduces, (part r).Perm ((maps.flatMap (MapCall.keyVals mapf)).filter
      fun kv => region hash nReduce kv = r.bucket) := by
    intro r hr
    rw [hdef]
    exact (r.sorter.perm _).trans (hspec r hr).1
  have hsorted : ∀ r ∈ reduces, Grouping.SortedBy KeyValue.key (part r) := by
    intro r _
    rw [hdef]
    exact r.sorter.sorted _
  obtain ⟨hperm, hkeys, hrecords⟩ := outputs_of_parts mapf hreducef hbuckets
    (maps.map fun c => (c.task.fileName, c.content)) (by rw [List.flatMap_map]; rfl)
    (fun kv hkv => by
      obtain ⟨c, hc, hkv⟩ := List.mem_flatMap.mp hkv
      exact (hall _).mpr ⟨c, hc, kv, hkv, rfl⟩)
    hpart hsorted sorter
  have houts : (reduces.map fun r => ("mr-out-" ++ toString (r.bucket - 1),
      reduceRuns reducef (part r) 0)).flatMap Prod.snd =
        reduces.flatMap fun r => reduceRuns reducef (part r) 0 := List.flatMap_map ..
  refine ⟨reduces.map fun r => ("mr-out-" ++ toString (r.bucket - 1),
    reduceRuns reducef (part r) 0), ?_, ?_, houts ▸ hperm, houts ▸ hkeys, houts ▸ hrecords, ?_⟩
  · rw [List.map_map]
    refine List.map_congr_left fun r hr => ?_
    rw [(hspec r hr).2, hdef]
    rfl
  · rw [List.map_map]
    refine outNames_nodup hbuckets fun r hr => ?_
    obtain ⟨c, -, kv, -, hY⟩ := (hall r.bucket).mp (List.mem_map_of_mem hr)
    exact hY ▸ region_pos hash nReduce kv
  · intro out hout
    obtain ⟨r, hr, rfl⟩ := List.mem_map.mp hout
    rw [reduceRuns_eq]
    exact Grouping.summary_keys_sorted (hsorted r hr)

/-! ## An instance -/

/-- A string with a mark before every character and another one at its end. -/
def quoted (text : String) : List Char := (text.toList.flatMap fun c => ['x', c]) ++ ['.']

/-- Read a quoted string; what follows it is returned too. -/
def unquoted : List Char → Option (List Char × List Char)
  | 'x' :: c :: rest => (unquoted rest).map fun p => (c :: p.1, p.2)
  | '.' :: rest => some ([], rest)
  | _ => none

/-- Reading a quoted text gives it back, with what follows it. -/
lemma unquoted_append (cs rest : List Char) :
    unquoted ((cs.flatMap fun c => ['x', c]) ++ '.' :: rest) = some (cs, rest) := by
  induction cs with
  | nil => rfl
  | cons c cs ih =>
    show unquoted ('x' :: c :: ((cs.flatMap fun c => ['x', c]) ++ '.' :: rest)) = _
    rw [unquoted, ih]
    rfl

/-- Reading a quoted string gives it back, with what follows it. -/
lemma unquoted_quoted (text : String) (rest : List Char) :
    unquoted (quoted text ++ rest) = some (text.toList, rest) := by
  rw [quoted, List.append_assoc]
  exact unquoted_append text.toList rest

/-- At most `n` pairs of quoted strings. -/
def readPairs : ℕ → List Char → Option (List KeyValue)
  | _, [] => some []
  | 0, _ :: _ => none
  | n + 1, c :: cs =>
    (unquoted (c :: cs)).bind fun key => (unquoted key.2).bind fun value =>
      (readPairs n value.2).map (⟨String.ofList key.1, String.ofList value.1⟩ :: ·)

/-- Reading the texts of some pairs gives them back.

**Proof sketch.** Induction on the pairs; a quoted text is read back and leaves the rest. -/
lemma readPairs_flatMap (kvs : List KeyValue) (n : ℕ) (hn : kvs.length ≤ n) :
    readPairs n (kvs.flatMap fun kv => quoted kv.key ++ quoted kv.value) = some kvs := by
  induction kvs generalizing n with
  | nil => cases n <;> rfl
  | cons kv kvs ih =>
    obtain ⟨n, rfl⟩ : ∃ m, n = m + 1 := ⟨n - 1, by rw [List.length_cons] at hn; omega⟩
    have hcons : ∀ rest, ∃ c cs, quoted kv.key ++ rest = c :: cs := by
      intro rest
      refine List.exists_cons_of_ne_nil ?_
      simp [quoted]
    rw [List.flatMap_cons, List.append_assoc]
    obtain ⟨c, cs, heq⟩ := hcons
      (quoted kv.value ++ kvs.flatMap fun kv => quoted kv.key ++ quoted kv.value)
    rw [heq, readPairs, ← heq, unquoted_quoted, Option.bind_some, unquoted_quoted,
      Option.bind_some, ih n (by simpa using hn), Option.map_some, String.ofList_toList,
      String.ofList_toList]

/-- Every pair has a text that is not empty. -/
lemma length_le_length_flatMap (kvs : List KeyValue) :
    kvs.length ≤ (kvs.flatMap fun kv => quoted kv.key ++ quoted kv.value).length := by
  induction kvs with
  | nil => simp
  | cons kv kvs ih =>
    rw [List.flatMap_cons, List.length_append, List.length_cons]
    have hpos : 1 ≤ (quoted kv.key ++ quoted kv.value).length := by simp [quoted]; omega
    omega

/-- All pairs as one text. -/
def marshalPairs (kvs : List KeyValue) : String :=
  String.ofList (kvs.flatMap fun kv => quoted kv.key ++ quoted kv.value)

/-- The pairs in a text. -/
def unmarshalPairs (text : String) : Option (List KeyValue) :=
  readPairs text.toList.length text.toList

/-- Decoding undoes encoding. -/
lemma unmarshalPairs_marshalPairs (kvs : List KeyValue) :
    unmarshalPairs (marshalPairs kvs) = some kvs := by
  rw [unmarshalPairs, marshalPairs, String.toList_ofList]
  exact readPairs_flatMap kvs _ (length_le_length_flatMap kvs)

/-- A codec that can be evaluated. -/
def quotedCodec : Codec := ⟨marshalPairs, unmarshalPairs, unmarshalPairs_marshalPairs⟩

/-- Insertion sort by key. -/
def insertionSorter : Sorter where
  sort := List.insertionSort fun a b => a.key ≤ b.key
  perm := List.perm_insertionSort _
  sorted kvs := by
    have : Std.Total fun a b : KeyValue => a.key ≤ b.key := ⟨fun a b => le_total a.key b.key⟩
    have : IsTrans KeyValue fun a b => a.key ≤ b.key := ⟨fun a b c => le_trans⟩
    exact List.pairwise_insertionSort _ kvs

/-- Counting words: the content is a list of one-letter words. -/
def countMap (_ content : String) : List KeyValue :=
  content.toList.map fun c => ⟨String.ofList [c], "1"⟩

/-- Counting words: the number of values. -/
def countReduce (_ : String) (values : List String) : String := toString values.length

/-- Buckets in the order in which their first keys were met, and in the opposite one. -/
def twoMaps : List MapCall :=
  [⟨⟨"x", 1⟩, "aba", ⟨id, fun _ => .refl _⟩⟩,
    ⟨⟨"y", 2⟩, "b", ⟨List.reverse, List.reverse_perm⟩⟩]

/-- The second bucket gets its files in the opposite order. -/
def twoReduces : List ReduceCall :=
  [⟨1, [⟨"mr-1-1", 1⟩], insertionSorter⟩,
    ⟨2, [⟨"mr-2-2", 2⟩, ⟨"mr-1-2", 2⟩], insertionSorter⟩]

/-- The hash of the instance: the letter `a` goes to the first of two buckets. -/
def letterHash (key : String) : ℕ := if key = "a" then 0 else 1

/-- The output files of the two buckets, and that of the sequential program. -/
theorem distributed_output_eq_sequential_first :
    (twoReduces.map fun r => r.run quotedCodec countReduce
      (mapPhase quotedCodec letterHash 2 countMap twoMaps)) =
        [.ok ("mr-out-0", [("a", "2")]), .ok ("mr-out-1", [("b", "2")])] ∧
    [("a", "2"), ("b", "2")].Perm
      (mrsequential insertionSorter countMap countReduce [("x", "aba"), ("y", "b")]) ∧
    recordsOf countReduce (twoMaps.flatMap (MapCall.keyVals countMap)) "b" = [("b", "2")] := by
  have hall : ∀ Y : ℤ, Y ∈ twoReduces.map ReduceCall.bucket ↔
      ∃ c ∈ twoMaps, ∃ kv ∈ c.keyVals countMap, region letterHash 2 kv = Y := by
    intro Y
    simp [twoReduces, twoMaps, MapCall.keyVals, countMap, region, letterHash]
    grind
  have hcount : ∀ key vs vs', vs.Perm vs' → countReduce key vs = countReduce key vs' :=
    fun _ _ _ h => by rw [countReduce, countReduce, h.length_eq]
  have hruns : (twoReduces.map fun r => r.run quotedCodec countReduce
      (mapPhase quotedCodec letterHash 2 countMap twoMaps)) =
        [("mr-out-0", [("a", "2")]), ("mr-out-1", [("b", "2")])].map .ok := by
    decide +kernel
  obtain ⟨-, outs, hrun, -, hperm, -, hrecords, -⟩ := distributed_output_eq_sequential quotedCodec
    letterHash (by decide) countMap hcount (by decide) (by decide) (by decide) hall
    (by decide +kernel) insertionSorter
  obtain rfl : outs = [("mr-out-0", [("a", "2")]), ("mr-out-1", [("b", "2")])] :=
    List.map_injective_iff.mpr (fun _ _ => Except.ok.inj) (hrun.symm.trans hruns)
  exact ⟨hruns, hperm, (hrecords "b").symm⟩

end Mit6824.MapReduce
