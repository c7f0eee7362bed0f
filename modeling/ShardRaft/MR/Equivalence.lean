import Mathlib.Data.List.Induction
import Mathlib.Data.List.Sort
import ShardRaft.MR.Worker

/-!
# Distributed and sequential MapReduce

The loop over the sorted pairs cuts them into runs of one key (`reduceCalls_eq`), so the calls
of `reducef` group the pairs by key whichever way `sort.Sort` goes.  `mrsequential` groups all
pairs at once; `DoMap` deals them out by hash and `DoReduce` groups each share.  A key has one
hash, so the shares together group the same pairs (`Grouping.buckets`).

The rest is about files: what `DoMap` writes is what `DoReduce` reads, as long as nothing else
writes there.  `Sound` says which files hold what while tasks run in any order, some of them
more than once.  It needs input files that no task writes to: an input file with the name of
an intermediate file is gone once that one has been written (`input_overwritten`).

At the end stand `encoding/json` and `sort.Sort` for plain text and few pairs, and `wc.go`.
-/

namespace ShardRaft.MR

open ShardRaft.Lib

/-! ### The calls of `reducef` -/

theorem scanKey_eq (kva : List KeyValue) (key : Bytes) :
    ∀ (fuel j : Nat), kva.length - j ≤ fuel →
      scanKey kva key fuel j = j + ((kva.drop j).takeWhile fun kv => kv.key = key).length := by
  intro fuel
  induction fuel with
  | zero =>
    intro j hj
    rw [List.drop_eq_nil_of_le (by omega)]
    rfl
  | succ fuel ih =>
    intro j hj
    rw [scanKey]
    cases hget : kva[j]? with
    | none =>
      rw [List.drop_eq_nil_of_le (List.getElem?_eq_none_iff.mp hget)]
      rfl
    | some kv =>
      obtain ⟨hlt, rfl⟩ := List.getElem?_eq_some_iff.mp hget
      rw [List.drop_eq_getElem_cons hlt, List.takeWhile_cons]
      by_cases hk : kva[j].key = key
      · simp only [hk, if_true, decide_true, List.length_cons, ih (j + 1) (by omega)]
        omega
      · simp [hk]

/-- The two loops cut the list where the key changes. -/
theorem reduceLoop_eq (kva : List KeyValue) :
    ∀ (fuel i : Nat), kva.length - i ≤ fuel →
      reduceLoop kva fuel i = runs KeyValue.key KeyValue.value (kva.drop i) := by
  intro fuel
  induction fuel with
  | zero =>
    intro i hi
    rw [List.drop_eq_nil_of_le (by omega), reduceLoop, runs]
  | succ fuel ih =>
    intro i hi
    rw [reduceLoop]
    cases hget : kva[i]? with
    | none =>
      rw [List.drop_eq_nil_of_le (List.getElem?_eq_none_iff.mp hget), runs]
    | some kv =>
      obtain ⟨hlt, rfl⟩ := List.getElem?_eq_some_iff.mp hget
      have hscan := scanKey_eq kva kva[i].key kva.length (i + 1) (by omega)
      have hvals : (kva.take (scanKey kva kva[i].key kva.length (i + 1))).drop i =
          kva[i] :: (kva.drop (i + 1)).takeWhile fun kv => kv.key = kva[i].key := by
        rw [List.drop_take, hscan, List.drop_eq_getElem_cons hlt,
          show ∀ t, i + 1 + t - i = t + 1 by omega, List.take_succ_cons,
          ← List.prefix_iff_eq_take.mp (List.takeWhile_prefix _)]
      have hrest : kva.drop (scanKey kva kva[i].key kva.length (i + 1)) =
          (kva.drop (i + 1)).dropWhile fun kv => kv.key = kva[i].key := by
        rw [hscan, ← List.drop_drop]
        conv => lhs; arg 2; rw [← List.takeWhile_append_dropWhile
          (p := fun kv : KeyValue => decide (kv.key = kva[i].key)) (l := kva.drop (i + 1))]
        exact List.drop_left
      simp only [hvals, ih (scanKey kva kva[i].key kva.length (i + 1)) (by omega), hrest]
      rw [List.drop_eq_getElem_cons hlt, runs]

theorem reduceCalls_eq (kva : List KeyValue) :
    reduceCalls kva = runs KeyValue.key KeyValue.value kva := by
  rw [reduceCalls, reduceLoop_eq kva kva.length 0 (by omega), List.drop_zero]

theorem eq_of_not_less : ∀ s t : Bytes, less t s = false → less s t = false → s = t
  | [], [], _, _ => rfl
  | [], _ :: _, _, h => absurd h (by simp [less])
  | _ :: _, [], h, _ => absurd h (by simp [less])
  | a :: s, b :: t, h, h' => by
    simp only [less, Bool.or_eq_false_iff, decide_eq_false_iff_not, Bool.and_eq_false_iff] at h h'
    have hab : a = b := Fin.ext (by omega)
    subst hab
    rw [eq_of_not_less s t (h.2.resolve_left (by simp)) (h'.2.resolve_left (by simp))]

/-- **The calls of `reducef` group the pairs by key.** -/
theorem grouping_reduceCalls (sorter : Sorter) (kva : List KeyValue) :
    Grouping KeyValue.key KeyValue.value kva (reduceCalls (sorter.sort kva)) := by
  rw [reduceCalls_eq]
  exact (grouping_runs eq_of_not_less _ (sorter.sorted kva)).congr (sorter.perm kva)

/-! ### File names -/

/-- The number a text of digits stands for. -/
def atoi (s : Bytes) : Nat := s.foldl (fun i c => c.val - 48 + 10 * i) 0

theorem digit_val {d : Nat} (h : d < 10) : (digit d).val = 48 + d := Nat.mod_eq_of_lt (by omega)

theorem atoi_itoa (i : Nat) : atoi (itoa i) = i := by
  unfold itoa atoi
  split
  · rename_i h
    rw [h]
    rfl
  · rw [List.foldl_map, List.foldl_reverse]
    have hdigits : ∀ ds : List Nat, (∀ d ∈ ds, d < 10) →
        ds.foldr (fun d i => (digit d).val - 48 + 10 * i) 0 = Nat.ofDigits 10 ds := by
      intro ds
      induction ds with
      | nil => exact fun _ => rfl
      | cons d ds ih =>
        intro hd
        have := digit_val (hd d (List.mem_cons_self ..))
        rw [List.foldr_cons, ih fun d hm => hd d (List.mem_cons_of_mem _ hm), Nat.ofDigits_cons,
          this]
        simp
    rw [hdigits _ fun d hd => Nat.digits_lt_base (by decide) hd, Nat.ofDigits_digits]

theorem itoa_injective : Function.Injective itoa := Function.LeftInverse.injective atoi_itoa

theorem val_of_mem_itoa {i : Nat} {c : Fin 256} (h : c ∈ itoa i) : 48 ≤ c.val ∧ c.val < 58 := by
  unfold itoa at h
  split at h
  · rw [List.mem_singleton.mp h]
    decide
  · obtain ⟨d, hd, rfl⟩ := List.mem_map.mp h
    have hd := Nat.digits_lt_base (by decide) (List.mem_reverse.mp hd)
    rw [digit_val hd]
    omega

theorem itoa_ne_nil (i : Nat) : itoa i ≠ [] := by
  intro h
  have := atoi_itoa i
  unfold itoa at h
  split at h
  · exact absurd h (by simp)
  · rename_i hi
    rw [List.map_eq_nil_iff, List.reverse_eq_nil_iff, Nat.digits_eq_nil_iff_eq_zero] at h
    exact hi h

theorem getIntermediateFileName_inj {m r m' r' : Nat}
    (h : getIntermediateFileName m r = getIntermediateFileName m' r') : m = m' ∧ r = r' := by
  have hdash : ∀ i, (⟨45, by decide⟩ : Fin 256) ∉ itoa i := by
    intro i hmem
    have := (val_of_mem_itoa hmem).1
    simp at this
  unfold getIntermediateFileName at h
  rw [List.append_assoc, List.append_assoc, List.append_assoc, List.append_assoc,
    List.append_cancel_left_eq] at h
  have h : itoa m ++ ⟨45, by decide⟩ :: itoa r = itoa m' ++ ⟨45, by decide⟩ :: itoa r' := h
  obtain ⟨hm, -, hr⟩ := (List.append_cons_inj_of_notMem (hdash m) (hdash r)).mp h
  exact ⟨itoa_injective hm, itoa_injective hr⟩

theorem getOutputFileName_injective : Function.Injective getOutputFileName := by
  intro r r' h
  exact itoa_injective (List.append_cancel_left h)

/-- No intermediate file is an output file. -/
theorem getIntermediateFileName_ne {m r r' : Nat} :
    getIntermediateFileName m r ≠ getOutputFileName r' := by
  intro h
  have h : ascii "mr-" ++ (itoa m ++ (ascii "-" ++ itoa r)) =
      ascii "mr-" ++ (ascii "out-" ++ itoa r') := by
    simpa [getIntermediateFileName, getOutputFileName, ascii] using h
  have h := List.append_cancel_left h
  cases hm : itoa m with
  | nil => exact itoa_ne_nil m hm
  | cons c rest =>
    have hc := val_of_mem_itoa (i := m) (c := c) (by rw [hm]; exact List.mem_cons_self ..)
    rw [hm] at h
    have ho : c = ⟨111, by decide⟩ := (List.cons.inj h).1
    rw [ho] at hc
    exact absurd hc.2 (by decide)

/-! ### What the tasks do to the disk -/

/-- The pairs that reduce task `r` gets. -/
def share (nReduce r : Nat) (kva : List KeyValue) : List KeyValue :=
  kva.filter fun kv => ihash kv.key % nReduce = r

namespace Job

variable (job : Job)

/-- The pairs of one input file. -/
def pairs (disk : Disk) (fileName : Bytes) : List KeyValue :=
  (disk fileName).elim [] (job.mapf fileName)

variable {job} {nReduce : Nat} {disk : Disk}

/-- Every encoder gets its share, in the order of the pairs. -/
theorem encodeLoop_eq (job : Job) (hn : 1 ≤ nReduce) : ∀ (kva : List KeyValue) (encs : List Bytes),
    encs.length = nReduce → ∃ encs', job.encodeLoop nReduce kva encs = some encs' ∧
      ∀ r : Nat, encs'[r]? =
        encs[r]?.map (· ++ (share nReduce r kva).flatMap job.json.encode) := by
  intro kva
  induction kva with
  | nil =>
    intro encs hlen
    exact ⟨encs, rfl, fun r => by simp [share]⟩
  | cons kv kva ih =>
    intro encs hlen
    have hlt : ihash kv.key % nReduce < encs.length := by
      rw [hlen]
      exact Nat.mod_lt _ hn
    obtain ⟨encs', hrun, hget⟩ := ih (encs.set (ihash kv.key % nReduce)
      (encs[ihash kv.key % nReduce] ++ job.json.encode kv)) (by rw [List.length_set, hlen])
    refine ⟨encs', ?_, fun r => ?_⟩
    · rw [encodeLoop, List.getElem?_eq_getElem hlt]
      exact hrun
    · rw [hget r]
      by_cases hr : ihash kv.key % nReduce = r
      · subst hr
        rw [List.getElem?_set_self hlt, List.getElem?_eq_getElem hlt, share, share,
          List.filter_cons_of_pos (by simp)]
        simp
      · rw [List.getElem?_set_ne hr, share, share, List.filter_cons_of_neg (by simpa using hr)]

theorem length_of_encodeLoop : ∀ (kva : List KeyValue) {encs encs' : List Bytes},
    job.encodeLoop nReduce kva encs = some encs' → encs'.length = encs.length := by
  intro kva
  induction kva with
  | nil =>
    intro encs encs' h
    rw [encodeLoop] at h
    rw [Option.some.inj h]
  | cons kv kva ih =>
    intro encs encs' h
    rw [encodeLoop] at h
    obtain ⟨enc, -, h⟩ := Option.bind_eq_some_iff.mp h
    rw [ih h, List.length_set]

theorem length_of_mapFiles {fileName : Bytes} {files : List Bytes}
    (h : job.mapFiles disk fileName nReduce = some files) : files.length = nReduce := by
  obtain ⟨content, -, h⟩ := Option.bind_eq_some_iff.mp h
  rw [length_of_encodeLoop _ h, List.length_replicate]

theorem mapFiles_eq (job : Job) (hn : 1 ≤ nReduce) {fileName content : Bytes}
    (hf : disk fileName = some content) :
    ∃ files, job.mapFiles disk fileName nReduce = some files ∧
      ∀ r < nReduce, files[r]? =
        some ((share nReduce r (job.pairs disk fileName)).flatMap job.json.encode) := by
  obtain ⟨files, hrun, hget⟩ := job.encodeLoop_eq hn (job.mapf fileName content)
    (List.replicate nReduce []) List.length_replicate
  refine ⟨files, ?_, fun r hr => ?_⟩
  · rw [mapFiles, hf]
    exact hrun
  · rw [hget r, List.getElem?_replicate, if_pos hr, pairs, hf]
    rfl

theorem renameLoop_other {taskInd : Nat} {name : Bytes} : ∀ (files : List Bytes) (i : Nat)
    (disk : Disk), (∀ r, i ≤ r → r < i + files.length → name ≠ getIntermediateFileName taskInd r) →
    renameLoop taskInd files i disk name = disk name := by
  intro files
  induction files with
  | nil => exact fun i disk _ => rfl
  | cons file files ih =>
    intro i disk hne
    rw [List.length_cons] at hne
    rw [renameLoop, ih (i + 1) _ fun r hle hr => hne r (by omega) (by omega),
      rename_other file disk (hne i le_rfl (by omega))]

theorem renameLoop_self (taskInd : Nat) : ∀ (files : List Bytes) (i : Nat) (disk : Disk) (k : Nat),
    k < files.length →
    renameLoop taskInd files i disk (getIntermediateFileName taskInd (i + k)) = files[k]? := by
  intro files
  induction files with
  | nil =>
    intro i disk k hk
    exact absurd hk (Nat.not_lt_zero k)
  | cons file files ih =>
    intro i disk k hk
    rw [renameLoop]
    cases k with
    | zero =>
      change renameLoop taskInd files (i + 1) _ (getIntermediateFileName taskInd i) = some file
      rw [renameLoop_other files (i + 1) _ ?_, rename_self]
      · intro r hle _ heq
        have := (getIntermediateFileName_inj heq).2
        omega
    | succ k =>
      rw [show i + (k + 1) = i + 1 + k by omega, ih (i + 1) _ k (by simpa using hk)]
      rfl

/-- **`DoMap`** writes the shares of one input file and nothing else. -/
theorem doMap_eq (job : Job) (hn : 1 ≤ nReduce) (taskInd : Nat) {fileName content : Bytes}
    (hf : disk fileName = some content) :
    ∃ disk', job.doMap disk taskInd fileName nReduce = some disk' ∧
      (∀ r < nReduce, disk' (getIntermediateFileName taskInd r) =
        some ((share nReduce r (job.pairs disk fileName)).flatMap job.json.encode)) ∧
      ∀ name, (∀ r < nReduce, name ≠ getIntermediateFileName taskInd r) →
        disk' name = disk name := by
  obtain ⟨files, hrun, hget⟩ := job.mapFiles_eq hn hf
  have hlen := length_of_mapFiles hrun
  refine ⟨renameLoop taskInd files 0 disk, ?_, fun r hr => ?_, fun name hne => ?_⟩
  · rw [doMap, hrun]
    rfl
  · have hself := renameLoop_self taskInd files 0 disk r (by omega)
    rw [Nat.zero_add] at hself
    rw [hself, hget r hr]
  · exact renameLoop_other files 0 disk fun r _ hr => hne r (by omega)

theorem readFiles_eq {taskInd : Nat} (kvas : Nat → List KeyValue) : ∀ (nMap : Nat),
    (∀ m < nMap, ∃ file, disk (getIntermediateFileName m taskInd) = some file ∧
      job.json.decode file = kvas m) →
    job.readFiles disk taskInd nMap = some ((List.range nMap).flatMap kvas) := by
  intro nMap
  induction nMap with
  | zero => exact fun _ => rfl
  | succ nMap ih =>
    intro h
    obtain ⟨file, hfile, hdec⟩ := h nMap (by omega)
    have hprev := ih fun m hm => h m (by omega)
    unfold readFiles at hprev ⊢
    rw [List.range_succ, List.foldlM_append, hprev, List.flatMap_append]
    simp [readFile, hfile, hdec]

theorem intermediate_eq_some {files : List Bytes} {emitted : List KeyValue}
    (h : job.intermediate disk files = some emitted) :
    (∀ f ∈ files, ∃ content, disk f = some content) ∧ emitted = files.flatMap (job.pairs disk) := by
  have hloop : ∀ (files : List Bytes) (kva emitted : List KeyValue),
      files.foldlM (fun kva filename => do
        let content ← disk filename
        return kva ++ job.mapf filename content) kva = some emitted →
      (∀ f ∈ files, ∃ content, disk f = some content) ∧
        emitted = kva ++ files.flatMap (job.pairs disk) := by
    intro files
    induction files with
    | nil =>
      intro kva emitted h
      rw [List.foldlM_nil] at h
      exact ⟨by simp, by simpa using (Option.some.inj h).symm⟩
    | cons f files ih =>
      intro kva emitted h
      rw [List.foldlM_cons] at h
      obtain ⟨kva', hf, h⟩ := Option.bind_eq_some_iff.mp h
      obtain ⟨content, hc, hf⟩ := Option.bind_eq_some_iff.mp hf
      obtain ⟨hall, rfl⟩ := ih kva' emitted h
      refine ⟨?_, ?_⟩
      · intro f' hmem
        rcases List.mem_cons.mp hmem with rfl | hmem
        · exact ⟨content, hc⟩
        · exact hall f' hmem
      · rw [← Option.some.inj hf, List.flatMap_cons, pairs, hc, List.append_assoc]
        rfl
  exact hloop files [] emitted h

end Job

theorem range_flatMap {α β : Type} (l : List α) (g : α → List β) :
    (List.range l.length).flatMap (fun i => l[i]?.elim [] g) = l.flatMap g := by
  induction l using List.reverseRecOn with
  | nil => rfl
  | append_singleton l a ih =>
    rw [List.length_append, List.length_singleton, List.range_succ, List.flatMap_append,
      List.flatMap_append]
    congr 1
    · rw [← ih]
      refine List.flatMap_congr fun i hi => ?_
      rw [List.getElem?_append_left (List.mem_range.mp hi)]
    · simp

/-! ### Tasks in any order -/

/-- A task of either phase. -/
inductive Task
  | map (m : Nat)
  | reduce (r : Nat)
deriving DecidableEq, Repr

/-- Every task has run, some perhaps more than once, and no reduce task before all map tasks. -/
structure Schedule (nMap nReduce : Nat) (tasks : List Task) : Prop where
  maps : ∀ m, .map m ∈ tasks ↔ m < nMap
  reduces : ∀ r, .reduce r ∈ tasks ↔ r < nReduce
  barrier : ∀ before r after, tasks = before ++ .reduce r :: after →
    ∀ m < nMap, .map m ∈ before

theorem schedule_append {nMap nReduce : Nat} {maps reduces : List Nat}
    (hm : ∀ m, m ∈ maps ↔ m < nMap) (hr : ∀ r, r ∈ reduces ↔ r < nReduce) :
    Schedule nMap nReduce (maps.map .map ++ reduces.map .reduce) where
  maps m := by simp [hm]
  reduces r := by simp [hr]
  barrier before r after heq m hlt := by
    have hmap : Task.map m ∈ maps.map Task.map := List.mem_map_of_mem ((hm m).mpr hlt)
    rcases List.append_eq_append_iff.mp heq with ⟨early, rfl, _⟩ | ⟨rest, hrest, htail⟩
    · exact List.mem_append_left _ hmap
    · cases rest with
      | nil => rwa [hrest, List.append_nil] at hmap
      | cons task rest =>
        -- a reduce task would be among the map tasks
        have htask : Task.reduce r ∈ maps.map Task.map := by
          rw [hrest, (List.cons.inj htail).1]
          simp
        simp at htask

/-- No input file is one that the tasks write. -/
def FreshInputs (files : List Bytes) (nReduce : Nat) : Prop :=
  ∀ f ∈ files, (∀ m < files.length, ∀ r < nReduce, f ≠ getIntermediateFileName m r) ∧
    ∀ r < nReduce, f ≠ getOutputFileName r

namespace Job

variable (job : Job) (files : List Bytes) (nReduce : Nat)

/-- A worker runs a task. -/
def runTask (disk : Disk) : Task → Option Disk
  | .map m => do
    let fileName ← files[m]?
    job.doMap disk m fileName nReduce
  | .reduce r => job.doReduce disk r files.length

def runTasks (disk : Disk) (tasks : List Task) : Option Disk :=
  tasks.foldlM (job.runTask files nReduce) disk

/-- What the files hold once the tasks `ran` have run. -/
structure Sound (disk₀ : Disk) (emitted : List KeyValue) (ran : List Task) (disk : Disk) :
    Prop where
  inputs : ∀ f ∈ files, disk f = disk₀ f
  shares : ∀ m, .map m ∈ ran → ∀ f ∈ files[m]?, ∀ r < nReduce,
    disk (getIntermediateFileName m r) =
      some ((share nReduce r (job.pairs disk₀ f)).flatMap job.json.encode)
  outputs : ∀ r, .reduce r ∈ ran → disk (getOutputFileName r) =
    some ((reduceCalls (job.sorter.sort (share nReduce r emitted))).flatMap job.line)

variable {job files nReduce} {disk₀ disk : Disk} {emitted : List KeyValue} {ran : List Task}

theorem Sound.map (h : Sound job files nReduce disk₀ emitted ran disk) (hn : 1 ≤ nReduce)
    (hfresh : FreshInputs files nReduce) (hin : ∀ f ∈ files, ∃ content, disk₀ f = some content)
    {m : Nat} (hm : m < files.length) :
    ∃ disk', job.runTask files nReduce disk (.map m) = some disk' ∧
      Sound job files nReduce disk₀ emitted (ran ++ [.map m]) disk' := by
  have hf : files[m] ∈ files := List.getElem_mem hm
  obtain ⟨content, hc⟩ := hin _ hf
  have hread : disk files[m] = some content := (h.inputs _ hf).trans hc
  obtain ⟨disk', hrun, hwrites, hkeeps⟩ := job.doMap_eq hn m hread
  have hpairs : job.pairs disk files[m] = job.pairs disk₀ files[m] := by
    rw [pairs, pairs, hread, hc]
  rw [hpairs] at hwrites
  refine ⟨disk', ?_, ?_, ?_, ?_⟩
  · rw [runTask, List.getElem?_eq_getElem hm]
    exact hrun
  · intro f hmem
    rw [hkeeps f fun r hr => (hfresh f hmem).1 m hm r hr]
    exact h.inputs f hmem
  · intro m' hmem f hget r hr
    by_cases heq : m' = m
    · subst heq
      obtain ⟨_, rfl⟩ := List.getElem?_eq_some_iff.mp hget
      exact hwrites r hr
    · rw [hkeeps _ fun r' _ hname => heq (getIntermediateFileName_inj hname).1]
      refine h.shares m' ?_ f hget r hr
      simpa [heq] using hmem
  · intro r hmem
    rw [hkeeps _ fun r' _ hname => getIntermediateFileName_ne hname.symm]
    exact h.outputs r (by simpa using hmem)

/-- **Once every map task has run**, `DoReduce` reads its share of all pairs. -/
theorem Sound.doReduceCalls (h : Sound job files nReduce disk₀ emitted ran disk)
    (hem : emitted = files.flatMap (job.pairs disk₀)) (hjson : job.json.RoundTrips emitted)
    (hall : ∀ m < files.length, .map m ∈ ran) {r : Nat} (hr : r < nReduce) :
    job.doReduceCalls disk r files.length =
      some (reduceCalls (job.sorter.sort (share nReduce r emitted))) := by
  have hread : job.readFiles disk r files.length = some (share nReduce r emitted) := by
    rw [readFiles_eq (fun m => files[m]?.elim [] fun f => share nReduce r (job.pairs disk₀ f))
      files.length ?_, range_flatMap, hem, share, List.filter_flatMap]
    · rfl
    · intro m hm
      have hget := List.getElem?_eq_getElem hm
      refine ⟨_, h.shares m (hall m hm) _ hget r hr, ?_⟩
      rw [hget]
      refine hjson _ fun kv hkv => ?_
      rw [hem]
      exact List.mem_flatMap.mpr ⟨files[m], List.getElem_mem hm, List.mem_of_mem_filter hkv⟩
  rw [Job.doReduceCalls, hread]
  rfl

theorem Sound.reduce (h : Sound job files nReduce disk₀ emitted ran disk)
    (hfresh : FreshInputs files nReduce) (hem : emitted = files.flatMap (job.pairs disk₀))
    (hjson : job.json.RoundTrips emitted) (hall : ∀ m < files.length, .map m ∈ ran) {r : Nat}
    (hr : r < nReduce) :
    ∃ disk', job.runTask files nReduce disk (.reduce r) = some disk' ∧
      Sound job files nReduce disk₀ emitted (ran ++ [.reduce r]) disk' := by
  refine ⟨job.output r (reduceCalls (job.sorter.sort (share nReduce r emitted))) disk, ?_, ?_, ?_,
    ?_⟩
  · rw [runTask, doReduce, h.doReduceCalls hem hjson hall hr]
    rfl
  · intro f hmem
    rw [job.output_other _ _ ((hfresh f hmem).2 r hr)]
    exact h.inputs f hmem
  · intro m hmem f hget r' hr'
    rw [job.output_other _ _ getIntermediateFileName_ne]
    exact h.shares m (by simpa using hmem) f hget r' hr'
  · intro r' hmem
    by_cases heq : r' = r
    · rw [heq, output_self]
    · rw [job.output_other _ _ fun hname => heq (getOutputFileName_injective hname)]
      exact h.outputs r' (by simpa [heq] using hmem)

/-- **Every prefix of a schedule** runs, and leaves the files as they should be. -/
theorem sound_runTasks (hn : 1 ≤ nReduce) (hfresh : FreshInputs files nReduce)
    (hin : ∀ f ∈ files, ∃ content, disk₀ f = some content)
    (hem : emitted = files.flatMap (job.pairs disk₀)) (hjson : job.json.RoundTrips emitted)
    {tasks : List Task} (hs : Schedule files.length nReduce tasks) :
    ∀ ran, ran <+: tasks → ∃ disk, job.runTasks files nReduce disk₀ ran = some disk ∧
      Sound job files nReduce disk₀ emitted ran disk := by
  intro ran
  induction ran using List.reverseRecOn with
  | nil =>
    exact fun _ => ⟨disk₀, rfl, fun _ _ => rfl, fun _ hmem => absurd hmem List.not_mem_nil,
      fun _ hmem => absurd hmem List.not_mem_nil⟩
  | append_singleton ran task ih =>
    rintro ⟨after, hafter⟩
    obtain ⟨disk, hrun, hsound⟩ := ih ⟨task :: after, by rw [← hafter, List.append_assoc]; rfl⟩
    have hmem : task ∈ tasks := by
      rw [← hafter]
      simp
    have hstep : ∃ disk', job.runTask files nReduce disk task = some disk' ∧
        Sound job files nReduce disk₀ emitted (ran ++ [task]) disk' := by
      cases task with
      | map m => exact hsound.map hn hfresh hin ((hs.maps m).mp hmem)
      | reduce r =>
        have hall := hs.barrier ran r after (by rw [← hafter, List.append_assoc]; rfl)
        exact hsound.reduce hfresh hem hjson hall ((hs.reduces r).mp hmem)
    obtain ⟨disk', hrun', hsound'⟩ := hstep
    refine ⟨disk', ?_, hsound'⟩
    rw [runTasks] at hrun ⊢
    rw [List.foldlM_append, hrun]
    simp [hrun']

end Job

/-- **Distributed MapReduce computes what `mrsequential` computes.**  The tasks may run in any
order the barrier between the phases allows.  Together the calls of `DoReduce` name every key
once, with the values that `mrsequential` has for it in some order; so the lines are the same
when `reducef` does not look at that order. -/
theorem distributed_eq_sequential (job : Job) (disk : Disk) (files : List Bytes) (nReduce : Nat)
    (hn : 1 ≤ nReduce) (emitted : List KeyValue)
    (hin : job.intermediate disk files = some emitted) (hjson : job.json.RoundTrips emitted)
    (hfresh : FreshInputs files nReduce) (tasks : List Task)
    (hs : Schedule files.length nReduce tasks) (seqDisk : Disk)
    (hseq : job.mrsequential disk files = some seqDisk) :
    ∃ (final : Disk) (calls : Nat → List (Bytes × List Bytes))
      (seqCalls : List (Bytes × List Bytes)),
      job.runTasks files nReduce disk tasks = some final ∧
      (∀ r < nReduce, job.doReduceCalls final r files.length = some (calls r) ∧
        final (getOutputFileName r) = some ((calls r).flatMap job.line)) ∧
      job.mrsequentialCalls disk files = some seqCalls ∧
      seqDisk (getOutputFileName 0) = some (seqCalls.flatMap job.line) ∧
      (((List.range nReduce).flatMap calls).map Prod.fst).Nodup ∧
      (seqCalls.map Prod.fst).Nodup ∧
      (∀ k, k ∈ ((List.range nReduce).flatMap calls).map Prod.fst ↔ k ∈ emitted.map KeyValue.key) ∧
      (∀ call ∈ (List.range nReduce).flatMap calls,
        ∃ seqCall ∈ seqCalls, seqCall.1 = call.1 ∧ call.2.Perm seqCall.2) ∧
      ((∀ k vs vs', vs.Perm vs' → job.reducef k vs = job.reducef k vs') →
        (((List.range nReduce).flatMap calls).map job.line).Perm (seqCalls.map job.line)) := by
  obtain ⟨hread, hem⟩ := Job.intermediate_eq_some hin
  obtain ⟨final, hrun, hsound⟩ :=
    Job.sound_runTasks hn hfresh hread hem hjson hs tasks (List.prefix_refl tasks)
  have hcalls : job.mrsequentialCalls disk files =
      some (reduceCalls (job.sorter.sort emitted)) := by
    rw [Job.mrsequentialCalls, hin]
    rfl
  have hseqG := grouping_reduceCalls job.sorter emitted
  have hG : Grouping KeyValue.key KeyValue.value emitted ((List.range nReduce).flatMap fun r =>
      reduceCalls (job.sorter.sort (share nReduce r emitted))) :=
    Grouping.buckets (fun k => Nat.mod_lt (ihash k) hn)
      fun r _ => grouping_reduceCalls job.sorter (share nReduce r emitted)
  refine ⟨final, _, _, hrun, fun r hr => ⟨?_, ?_⟩, hcalls, ?_, hG.nodup, hseqG.nodup, hG.keys,
    hG.exists_perm hseqG, fun hf => hG.map_perm hseqG ?_⟩
  · exact hsound.doReduceCalls hem hjson (fun m hm => (hs.maps m).mpr hm) hr
  · exact hsound.outputs r ((hs.reduces r).mpr hr)
  · rw [Job.mrsequential, hcalls] at hseq
    split at hseq
    · exact absurd hseq (by simp)
    · rw [← Option.some.inj hseq]
      exact job.output_self ..
  · intro k vs vs' hp
    rw [Job.line, Job.line, hf k vs vs' hp]

/-! ### Plain text

For texts without quotes, backslashes and the characters that `encoding/json` writes as escape
sequences, the two parameters are easily written down. -/

/-- The rest of `s` after `p`. -/
def after (p s : Bytes) : Option Bytes := if p.isPrefixOf s then some (s.drop p.length) else none

theorem after_append (p s : Bytes) : after p (p ++ s) = some s := by
  rw [after, if_pos (List.isPrefixOf_iff_prefix.mpr (List.prefix_append p s)), List.drop_left]

/-- The text up to the next quote. -/
def unquoted (s : Bytes) : Bytes := s.takeWhile fun c => c.val ≠ 34

theorem unquoted_append {text : Bytes} (h : ∀ c ∈ text, c.val ≠ 34) (s : Bytes) :
    unquoted (text ++ (ascii "\"" ++ s)) = text := by
  rw [unquoted, List.takeWhile_append_of_pos fun c hc => decide_eq_true (h c hc)]
  exact List.append_nil text

namespace KeyValue

def encode (kv : KeyValue) : Bytes :=
  ascii "\x7b\"Key\":\"" ++ (kv.key ++ (ascii "\"" ++ (ascii ",\"Value\":\"" ++
    (kv.value ++ (ascii "\"" ++ ascii "\x7d\n")))))

def decodeOne (s : Bytes) : Option (KeyValue × Bytes) := do
  let s ← after (ascii "\x7b\"Key\":\"") s
  let key := unquoted s
  let s ← after (ascii "\"" ++ ascii ",\"Value\":\"") (s.drop key.length)
  let value := unquoted s
  let s ← after (ascii "\"" ++ ascii "\x7d\n") (s.drop value.length)
  return (⟨key, value⟩, s)

def decodeLoop : Nat → Bytes → List KeyValue
  | 0, _ => []
  | fuel + 1, s =>
    match decodeOne s with
    | none => []
    | some (kv, s) => kv :: decodeLoop fuel s

/-- No quotes. -/
def Plain (kv : KeyValue) : Prop := (∀ c ∈ kv.key, c.val ≠ 34) ∧ ∀ c ∈ kv.value, c.val ≠ 34

theorem decodeOne_encode {kv : KeyValue} (h : kv.Plain) (s : Bytes) :
    decodeOne (kv.encode ++ s) = some (kv, s) := by
  simp only [decodeOne, encode, List.append_assoc, after_append, unquoted_append h.1,
    List.drop_left, Option.bind_eq_bind, Option.bind_some]
  rw [← List.append_assoc (ascii "\""), after_append, Option.bind_some]
  simp only [unquoted_append h.2, List.drop_left]
  rw [← List.append_assoc (ascii "\""), after_append]
  rfl

theorem decodeLoop_encode : ∀ (kva : List KeyValue) (fuel : Nat), (∀ kv ∈ kva, kv.Plain) →
    kva.length ≤ fuel → decodeLoop fuel (kva.flatMap encode) = kva := by
  intro kva
  induction kva with
  | nil =>
    intro fuel _ _
    cases fuel with
    | zero => rfl
    | succ fuel => rfl
  | cons kv kva ih =>
    intro fuel hp hlen
    cases fuel with
    | zero => exact absurd hlen (by simp)
    | succ fuel =>
      rw [List.flatMap_cons, decodeLoop, decodeOne_encode (hp kv (List.mem_cons_self ..))]
      have := ih fuel (fun kv' hm => hp kv' (List.mem_cons_of_mem _ hm)) (by simpa using hlen)
      simp [this]

theorem length_le_encode (kva : List KeyValue) : kva.length ≤ (kva.flatMap encode).length := by
  induction kva with
  | nil => exact Nat.zero_le _
  | cons kv kva ih =>
    have : 1 ≤ kv.encode.length := by
      rw [encode, List.length_append]
      exact Nat.le_add_right_of_le (by decide)
    rw [List.flatMap_cons, List.length_append, List.length_cons]
    omega

end KeyValue

/-- `encoding/json` on plain text. -/
def Json.plain : Json where
  encode := KeyValue.encode
  decode s := KeyValue.decodeLoop s.length s

theorem Json.plain_roundTrips {emitted : List KeyValue} (h : ∀ kv ∈ emitted, kv.Plain) :
    Json.plain.RoundTrips emitted :=
  fun kva hsub => KeyValue.decodeLoop_encode kva _ (fun kv hm => h kv (hsub kv hm))
    (KeyValue.length_le_encode kva)

theorem not_less_of_less : ∀ s t : Bytes, less s t = true → less t s = false
  | _, [], h => absurd h (by simp [less])
  | [], _ :: _, _ => rfl
  | a :: s, b :: t, h => by
    simp only [less, Bool.or_eq_true, decide_eq_true_eq, Bool.and_eq_true] at h
    simp only [less, Bool.or_eq_false_iff, decide_eq_false_iff_not, Bool.and_eq_false_iff]
    rcases h with hlt | ⟨heq, h⟩
    · exact ⟨by omega, .inl (by omega)⟩
    · exact ⟨by omega, .inr (not_less_of_less s t h)⟩

theorem not_less_trans : ∀ s t u : Bytes, less t s = false → less u t = false → less u s = false
  | [], _, _, _, _ => by simp [less]
  | _ :: _, [], _, h, _ => absurd h (by simp [less])
  | _ :: _, _ :: _, [], _, h => absurd h (by simp [less])
  | a :: s, b :: t, c :: u, h, h' => by
    simp only [less, Bool.or_eq_false_iff, decide_eq_false_iff_not, Bool.and_eq_false_iff]
      at h h' ⊢
    refine ⟨by omega, ?_⟩
    by_cases heq : c.val = a.val
    · -- all three bytes are equal
      exact .inr (not_less_trans s t u (h.2.resolve_left (by omega)) (h'.2.resolve_left (by omega)))
    · exact .inl heq

/-- `sort.Sort` on few pairs is an insertion sort. -/
def Sorter.insertion : Sorter where
  sort := List.insertionSort fun a b => less b.key a.key = false
  perm := List.perm_insertionSort _
  sorted := by
    have : Std.Total fun a b : KeyValue => less b.key a.key = false := ⟨fun a b => by
      cases h : less b.key a.key with
      | false => exact .inl rfl
      | true => exact .inr (not_less_of_less _ _ h)⟩
    have : IsTrans KeyValue fun a b => less b.key a.key = false :=
      ⟨fun a b c => not_less_trans a.key b.key c.key⟩
    exact List.pairwise_insertionSort _

/-- The letters of `wc.go`, on ASCII. -/
def isLetter (c : Fin 256) : Bool :=
  (decide (65 ≤ c.val) && decide (c.val ≤ 90)) || (decide (97 ≤ c.val) && decide (c.val ≤ 122))

/-- `wc.go`: how often every word occurs. -/
def wc : Job where
  mapf _ contents := ((contents.splitOnP fun c => !isLetter c).filter (· ≠ [])).map (⟨·, ascii "1"⟩)
  reducef _ values := itoa values.length
  json := .plain
  sorter := .insertion

/-- A disk with two files. -/
def twoFiles (name₁ content₁ name₂ content₂ : String) : Disk :=
  Function.update (Function.update (fun _ => none) (ascii name₁) (some (ascii content₁)))
    (ascii name₂) (some (ascii content₂))

theorem distributed_eq_sequential_wc :
    ∃ (final : Disk) (calls : Nat → List (Bytes × List Bytes)),
      wc.runTasks [ascii "a", ascii "b"] 2 (twoFiles "a" "to be or" "b" "not to be")
        ([1, 0, 1].map .map ++ [1, 0].map .reduce) = some final ∧
      (∀ r < 2, final (getOutputFileName r) = some ((calls r).flatMap wc.line)) ∧
      (((List.range 2).flatMap calls).map wc.line).Perm
        (["be 2\n", "not 1\n", "or 1\n", "to 2\n"].map ascii) := by
  obtain ⟨seqDisk, hseq⟩ : ∃ d, wc.mrsequential (twoFiles "a" "to be or" "b" "not to be")
      [ascii "a", ascii "b"] = some d := Option.isSome_iff_exists.mp (by decide +kernel)
  obtain ⟨final, calls, seqCalls, hrun, hout, hcalls, -, -, -, -, -, hperm⟩ :=
    distributed_eq_sequential wc (twoFiles "a" "to be or" "b" "not to be")
      [ascii "a", ascii "b"] 2 (by decide) _ rfl
      (Json.plain_roundTrips (by unfold KeyValue.Plain; decide +kernel))
      (by unfold FreshInputs; decide +kernel)
      ([1, 0, 1].map .map ++ [1, 0].map .reduce)
      (schedule_append (fun m => by simp; omega) (fun r => by simp; omega)) seqDisk hseq
  have hlines : seqCalls.map wc.line = ["be 2\n", "not 1\n", "or 1\n", "to 2\n"].map ascii := by
    rw [← Option.some.inj ((show wc.mrsequentialCalls _ _ = some _ from rfl).symm.trans hcalls)]
    decide +kernel
  refine ⟨final, calls, hrun, fun r hr => (hout r hr).2, ?_⟩
  rw [← hlines]
  exact hperm fun k vs vs' hp => congrArg itoa hp.length_eq

/-- An input file that a map task writes over before it has been read: the word `y` is lost. -/
theorem input_overwritten :
    ∃ (emitted : List KeyValue) (final : Disk),
      wc.intermediate (twoFiles "a" "x" "mr-0-0" "y") [ascii "a", ascii "mr-0-0"] = some emitted ∧
      wc.json.RoundTrips emitted ∧
      Schedule 2 1 ([0, 1].map .map ++ [0].map .reduce) ∧
      wc.runTasks [ascii "a", ascii "mr-0-0"] 1 (twoFiles "a" "x" "mr-0-0" "y")
        ([0, 1].map .map ++ [0].map .reduce) = some final ∧
      ascii "y" ∈ emitted.map KeyValue.key ∧
      (wc.doReduceCalls final 0 2).map (·.map Prod.fst) =
        some [ascii "Key", ascii "Value", ascii "x"] ∧
      final (getOutputFileName 0) = some (ascii "Key 1\nValue 1\nx 2\n") := by
  have hrun : (wc.runTasks [ascii "a", ascii "mr-0-0"] 1 (twoFiles "a" "x" "mr-0-0" "y")
      ([0, 1].map .map ++ [0].map .reduce)).any (fun final =>
        decide ((wc.doReduceCalls final 0 2).map (·.map Prod.fst) =
          some [ascii "Key", ascii "Value", ascii "x"]) &&
        decide (final (getOutputFileName 0) = some (ascii "Key 1\nValue 1\nx 2\n"))) = true := by
    decide +kernel
  obtain ⟨final, hrun, hout⟩ := (Option.any_eq_true _ _).mp hrun
  rw [Bool.and_eq_true, decide_eq_true_eq, decide_eq_true_eq] at hout
  exact ⟨_, final, rfl, Json.plain_roundTrips (by unfold KeyValue.Plain; decide +kernel),
    schedule_append (fun m => by simp; omega) (fun r => by simp), hrun, by decide +kernel,
    hout.1, hout.2⟩

end ShardRaft.MR
