import ShardRaft.MR.Coordinator

/-!
# The barrier between the phases

The coordinator marks a task finished when it is reported, and a worker reports it when
`DoMap` or `DoReduce` has returned.  So a finished task is completed, and reduce tasks are
given out only when all map tasks are finished.  Handing out never touches a finished task:
the loop passes over them.  Hence reports may come late, repeatedly and from workers whose
task was given to others in the meantime.

`Answer` says what a handler can do.  `Inv` has the facts about the whole system; most of them
survive because the history only grows (`Grows`).  `coordinator_safety` collects what follows
for all runs.
-/

namespace ShardRaft.MR

open ShardRaft.Lib

/-! ### The tasks of one phase -/

/-- Task `i` is marked finished. -/
def Finished (tasks : List TaskInfo) (i : Nat) : Prop :=
  ∃ task, tasks[i]? = some task ∧ task.status = .finished

variable {tasks tasks' : List TaskInfo} {i j : Nat}

theorem Finished.lt (h : Finished tasks i) : i < tasks.length := by
  obtain ⟨task, hget, -⟩ := h
  exact (List.getElem?_eq_some_iff.mp hget).1

theorem not_finished_replicate {n : Nat} : ¬ Finished (List.replicate n {}) i := by
  rintro ⟨task, hget, hst⟩
  rw [List.getElem?_replicate] at hget
  split at hget
  · rw [← Option.some.inj hget] at hst
    cases hst
  · cases hget

theorem allFinished_iff : allFinished tasks = true ↔ ∀ i < tasks.length, Finished tasks i := by
  rw [allFinished, List.all_eq_true]
  constructor
  · intro h i hi
    exact ⟨tasks[i], List.getElem?_eq_getElem hi, of_decide_eq_true (h _ (List.getElem_mem hi))⟩
  · intro h task hmem
    obtain ⟨i, hi, rfl⟩ := List.mem_iff_getElem.mp hmem
    obtain ⟨task, hget, hfin⟩ := h i hi
    rw [List.getElem?_eq_getElem hi] at hget
    rw [Option.some.inj hget]
    exact decide_eq_true hfin

theorem finish_eq_some (h : finish tasks i = some tasks') :
    ∃ task, tasks[i]? = some task ∧ tasks' = tasks.set i { task with status := .finished } := by
  obtain ⟨task, hget, h⟩ := Option.bind_eq_some_iff.mp h
  exact ⟨task, hget, (Option.some.inj h).symm⟩

theorem finish_isSome (h : i < tasks.length) : ∃ tasks', finish tasks i = some tasks' := by
  rw [finish, List.getElem?_eq_getElem h]
  exact ⟨_, rfl⟩

theorem length_finish (h : finish tasks i = some tasks') : tasks'.length = tasks.length := by
  obtain ⟨task, -, rfl⟩ := finish_eq_some h
  exact List.length_set

/-- **A report finishes one task** and leaves the others as they are. -/
theorem finished_finish (h : finish tasks i = some tasks') :
    Finished tasks' j ↔ Finished tasks j ∨ j = i := by
  obtain ⟨task, hget, rfl⟩ := finish_eq_some h
  by_cases hj : j = i
  · subst hj
    have hlt := (List.getElem?_eq_some_iff.mp hget).1
    exact ⟨fun _ => .inr rfl, fun _ => ⟨_, List.getElem?_set_self hlt, rfl⟩⟩
  · rw [Finished, List.getElem?_set_ne (Ne.symm hj), Finished]
    exact ⟨.inl, fun h => h.resolve_right hj⟩

/-- The loop never stops at a finished task. -/
theorem grantLoop_eq_some {now : Nat → Int} : ∀ (tasks : List TaskInfo) (i j : Nat),
    grantLoop now tasks i = some j →
      ∃ task, i ≤ j ∧ tasks[j - i]? = some task ∧ task.status ≠ .finished := by
  intro tasks
  induction tasks with
  | nil => exact fun _ _ h => absurd h (by simp [grantLoop])
  | cons task tasks ih =>
    intro i j h
    have hrest : grantLoop now tasks (i + 1) = some j →
        ∃ task', i ≤ j ∧ (task :: tasks)[j - i]? = some task' ∧ task'.status ≠ .finished := by
      intro h
      obtain ⟨task', hle, hget, hst⟩ := ih (i + 1) j h
      refine ⟨task', by omega, ?_, hst⟩
      rw [show j - i = j - (i + 1) + 1 by omega, List.getElem?_cons_succ]
      exact hget
    have hhere : some i = some j → task.status ≠ .finished →
        ∃ task', i ≤ j ∧ (task :: tasks)[j - i]? = some task' ∧ task'.status ≠ .finished := by
      intro heq hst
      obtain rfl := Option.some.inj heq
      exact ⟨task, le_rfl, by rw [Nat.sub_self]; rfl, hst⟩
    rw [grantLoop] at h
    cases hst : task.status with
    | inStore =>
      rw [hst] at h
      exact hhere h (by simp [hst])
    | onFly =>
      simp only [hst] at h
      split at h
      · exact hhere h (by simp [hst])
      · exact hrest h
    | finished =>
      rw [hst] at h
      exact hrest h

/-- **Handing out** changes nothing about the finished tasks. -/
theorem finished_handOut {task : TaskInfo} (hget : tasks[i]? = some task)
    (hst : task.status ≠ .finished) (time : Int) :
    Finished (handOut tasks i time) j ↔ Finished tasks j := by
  rw [handOut, Finished, Finished]
  by_cases hj : j = i
  · subst hj
    have hlt := (List.getElem?_eq_some_iff.mp hget).1
    rw [List.getElem?_set_self hlt, hget]
    simp [hst]
  · rw [List.getElem?_set_ne (Ne.symm hj)]

theorem length_handOut (tasks : List TaskInfo) (i : Nat) (time : Int) :
    (handOut tasks i time).length = tasks.length := List.length_set

/-! ### What a handler does -/

namespace Coordinator

variable {files : List Bytes} {nReduce : Nat} {c c' : Coordinator} {args : RequestTaskArgs}
  {reply : RequestTaskReply}

/-- The ways through `HandleRequestTask`. -/
inductive Answer (c : Coordinator) (args : RequestTaskArgs) :
    Coordinator → RequestTaskReply → Prop
  | putMap (maps : List TaskInfo) : args.requestType = .put → args.taskType = .map →
      finish c.maps args.taskInd = some maps → Answer c args { c with maps := maps } {}
  | putReduce (reduces : List TaskInfo) (isDone : Bool) : args.requestType = .put →
      args.taskType ≠ .map → finish c.reduces args.taskInd = some reduces →
      isDone = (c.isDone || (allFinished c.maps && allFinished reduces)) →
      Answer c args { c with reduces := reduces, isDone := isDone } {}
  | done (reply : RequestTaskReply) : args.requestType = .get → c.allMapDone = true →
      c.allReduceDone = true → reply.type = .done → Answer c args { c with isDone := true } reply
  | wait (reply : RequestTaskReply) : args.requestType = .get → reply.type = .wait →
      Answer c args c reply
  | map (i : Nat) (task : TaskInfo) (fileName : Bytes) (time : Int) : args.requestType = .get →
      c.maps[i]? = some task → task.status ≠ .finished → c.files[i]? = some fileName →
      Answer c args { c with maps := handOut c.maps i time }
        { type := .map, taskInd := i, fileName := fileName, nReduce := c.nReduce }
  | reduce (i : Nat) (task : TaskInfo) (time : Int) : args.requestType = .get →
      c.allMapDone = true → c.reduces[i]? = some task → task.status ≠ .finished →
      Answer c args { c with reduces := handOut c.reduces i time }
        { type := .reduce, taskInd := i, nReduce := c.nReduce, nMap := c.nMap }

theorem answer_of_handlePut (hput : args.requestType = .put)
    (h : c.handlePut args = some (c', reply)) : Answer c args c' reply := by
  unfold handlePut at h
  split at h
  · rename_i htype
    obtain ⟨maps, hmaps, h⟩ := Option.bind_eq_some_iff.mp h
    cases h
    exact .putMap maps hput htype hmaps
  · rename_i htype
    obtain ⟨reduces, hreduces, h⟩ := Option.bind_eq_some_iff.mp h
    cases h
    split
    · rename_i hdone
      have hdone : (allFinished c.maps && allFinished reduces) = true := hdone
      exact .putReduce reduces true hput htype hreduces (by simp [hdone])
    · rename_i hdone
      have hdone : (allFinished c.maps && allFinished reduces) = false := Bool.not_eq_true _ ▸ hdone
      exact .putReduce reduces c.isDone hput htype hreduces (by simp [hdone])

theorem answer_of_handleGet {now : Nat → Int} {time : Int} (hget : args.requestType = .get)
    (h : c.handleGet now time = some (c', reply)) : Answer c args c' reply := by
  unfold handleGet at h
  split at h
  · rename_i hall
    cases h
    rw [Bool.and_eq_true] at hall
    exact .done _ hget hall.1 hall.2 rfl
  · simp only at h
    split at h
    · split at h
      · rename_i i hi
        obtain ⟨fileName, hfile, h⟩ := Option.bind_eq_some_iff.mp h
        cases h
        obtain ⟨task, -, htask, hst⟩ := grantLoop_eq_some _ _ _ hi
        exact .map i task fileName time hget htask hst hfile
      · cases h
        exact .wait _ hget rfl
    · rename_i hmaps
      have hmaps : c.allMapDone = true := by simpa using hmaps
      split at h
      · split at h
        · rename_i i hi
          cases h
          obtain ⟨task, -, htask, hst⟩ := grantLoop_eq_some _ _ _ hi
          exact .reduce i task time hget hmaps htask hst
        · cases h
          exact .wait _ hget rfl
      · rename_i hreduces
        cases h
        exact .done _ hget hmaps (by simpa using hreduces) rfl

theorem answer_of_handleRequestTask {now : Nat → Int} {time : Int}
    (h : c.handleRequestTask args now time = some (c', reply)) : Answer c args c' reply := by
  unfold handleRequestTask at h
  split at h
  · rename_i hput
    exact answer_of_handlePut hput h
  · rename_i hget
    exact answer_of_handleGet hget h

/-- The coordinator of a job with these files. -/
structure WellFormed (files : List Bytes) (nReduce : Nat) (c : Coordinator) : Prop where
  files_eq : c.files = files
  nMap_eq : c.nMap = files.length
  length_maps : c.maps.length = files.length
  nReduce_eq : c.nReduce = nReduce
  length_reduces : c.reduces.length = nReduce

theorem wellFormed_make (files : List Bytes) (nReduce : Nat) :
    WellFormed files nReduce (make files nReduce) :=
  ⟨rfl, rfl, List.length_replicate, rfl, List.length_replicate⟩

theorem WellFormed.answer (h : WellFormed files nReduce c) (ha : Answer c args c' reply) :
    WellFormed files nReduce c' := by
  cases ha with
  | putMap maps _ _ hf =>
    exact { h with length_maps := (length_finish hf).trans h.length_maps }
  | putReduce reduces isDone _ _ hf _ =>
    exact { h with length_reduces := (length_finish hf).trans h.length_reduces }
  | done _ _ _ _ _ => exact { h with }
  | wait _ _ _ => exact h
  | map i task fileName time _ _ _ _ =>
    exact { h with length_maps := (length_handOut ..).trans h.length_maps }
  | reduce i task time _ _ _ _ =>
    exact { h with length_reduces := (length_handOut ..).trans h.length_reduces }

/-- **No handler panics** on a `Get`, or on a report of a task that exists. -/
theorem handleRequestTask_isSome (h : WellFormed files nReduce c) (now : Nat → Int) (time : Int)
    (hput : args.requestType = .put →
      if args.taskType = .map then args.taskInd < files.length else args.taskInd < nReduce) :
    (c.handleRequestTask args now time).isSome = true := by
  unfold handleRequestTask
  split
  · rename_i hreq
    have hlt := hput hreq
    unfold handlePut
    split at hlt
    · rename_i htype
      rw [← h.length_maps] at hlt
      obtain ⟨maps, hf⟩ := finish_isSome hlt
      rw [if_pos htype, hf]
      rfl
    · rename_i htype
      rw [← h.length_reduces] at hlt
      obtain ⟨reduces, hf⟩ := finish_isSome hlt
      rw [if_neg htype, hf]
      rfl
  · unfold handleGet
    split
    · rfl
    · simp only
      split
      · split
        · rename_i i hi
          obtain ⟨task, -, htask, -⟩ := grantLoop_eq_some _ _ _ hi
          have hlt : i < c.files.length := by
            rw [h.files_eq, ← h.length_maps]
            exact (List.getElem?_eq_some_iff.mp htask).1
          rw [List.getElem?_eq_getElem hlt]
          rfl
        · rfl
      · split
        · split <;> rfl
        · rfl

/-- **Finished tasks stay finished.** -/
theorem Answer.kept (ha : Answer c args c' reply) :
    (∀ i, Finished c.maps i → Finished c'.maps i) ∧
      ∀ i, Finished c.reduces i → Finished c'.reduces i := by
  cases ha with
  | putMap maps _ _ hf => exact ⟨fun i h => (finished_finish hf).mpr (.inl h), fun _ => id⟩
  | putReduce reduces isDone _ _ hf _ =>
    exact ⟨fun _ => id, fun i h => (finished_finish hf).mpr (.inl h)⟩
  | done _ _ _ _ _ => exact ⟨fun _ => id, fun _ => id⟩
  | wait _ _ _ => exact ⟨fun _ => id, fun _ => id⟩
  | map i task fileName time _ hget hst _ =>
    exact ⟨fun j h => (finished_handOut hget hst time).mpr h, fun _ => id⟩
  | reduce i task time _ _ hget hst =>
    exact ⟨fun _ => id, fun j h => (finished_handOut hget hst time).mpr h⟩

/-- What is finished now was finished before or has just been reported. -/
theorem Answer.reported (ha : Answer c args c' reply) :
    (∀ i, Finished c'.maps i → Finished c.maps i ∨
      args.requestType = .put ∧ args.taskType = .map ∧ i = args.taskInd) ∧
    ∀ i, Finished c'.reduces i → Finished c.reduces i ∨
      args.requestType = .put ∧ args.taskType ≠ .map ∧ i = args.taskInd := by
  cases ha with
  | putMap maps hput htype hf =>
    refine ⟨fun i h => ?_, fun _ => .inl⟩
    exact ((finished_finish hf).mp h).imp_right fun heq => ⟨hput, htype, heq⟩
  | putReduce reduces isDone hput htype hf _ =>
    refine ⟨fun _ => .inl, fun i h => ?_⟩
    exact ((finished_finish hf).mp h).imp_right fun heq => ⟨hput, htype, heq⟩
  | done _ _ _ _ _ => exact ⟨fun _ => .inl, fun _ => .inl⟩
  | wait _ _ _ => exact ⟨fun _ => .inl, fun _ => .inl⟩
  | map i task fileName time _ hget hst _ =>
    exact ⟨fun j h => .inl ((finished_handOut hget hst time).mp h), fun _ => .inl⟩
  | reduce i task time _ _ hget hst =>
    exact ⟨fun _ => .inl, fun j h => .inl ((finished_handOut hget hst time).mp h)⟩

/-- Every task is marked finished. -/
def AllFinished (files : List Bytes) (nReduce : Nat) (c : Coordinator) : Prop :=
  (∀ m < files.length, Finished c.maps m) ∧ ∀ r < nReduce, Finished c.reduces r

theorem WellFormed.allMapDone (h : WellFormed files nReduce c) (hall : c.allMapDone = true) :
    ∀ m < files.length, Finished c.maps m := by
  rw [← h.length_maps]
  exact allFinished_iff.mp hall

theorem WellFormed.allReduceDone (h : WellFormed files nReduce c)
    (hall : c.allReduceDone = true) : ∀ r < nReduce, Finished c.reduces r := by
  rw [← h.length_reduces]
  exact allFinished_iff.mp hall

/-- **`isDone` is set only when every task is finished.** -/
theorem WellFormed.isDone (h : WellFormed files nReduce c) (ha : Answer c args c' reply)
    (hold : c.isDone = true → AllFinished files nReduce c) (hnew : c'.isDone = true) :
    AllFinished files nReduce c' := by
  have hkeep : AllFinished files nReduce c → AllFinished files nReduce c' := by
    rintro ⟨hmaps, hreduces⟩
    exact ⟨fun m hm => ha.kept.1 m (hmaps m hm), fun r hr => ha.kept.2 r (hreduces r hr)⟩
  have h' := h.answer ha
  cases ha with
  | putMap maps _ _ _ => exact hkeep (hold hnew)
  | putReduce reduces isDone _ _ _ hd =>
    rw [show isDone = true from hnew] at hd
    rcases Bool.or_eq_true_iff.mp hd.symm with hd | hd
    · exact hkeep (hold hd)
    · rw [Bool.and_eq_true] at hd
      exact ⟨h'.allMapDone hd.1, h'.allReduceDone hd.2⟩
  | done _ _ hmaps hreduces _ => exact ⟨h.allMapDone hmaps, h.allReduceDone hreduces⟩
  | wait _ _ _ => exact hold hnew
  | map _ _ _ _ _ _ _ _ => exact hkeep (hold hnew)
  | reduce _ _ _ _ _ _ _ => exact hkeep (hold hnew)

end Coordinator

/-! ### What a step does -/

namespace World

variable {W : Type} {job : Job} {s s' : World W}

/-- The history grows, and no file is removed. -/
structure Grows (s s' : World W) : Prop where
  completed : ∀ task ∈ s.completed, task ∈ s'.completed
  present : ∀ name, (s.disk name).isSome = true → (s'.disk name).isSome = true
  requests : ∀ (k : Nat) (args : RequestTaskArgs), s.requests[k]? = some args →
    s'.requests[k]? = some args

theorem Grows.of_eq (hc : s'.completed = s.completed) (hd : s'.disk = s.disk)
    (hr : s'.requests = s.requests) : Grows s s' := by
  refine ⟨?_, ?_, ?_⟩
  · rw [hc]
    exact fun _ => id
  · rw [hd]
    exact fun _ => id
  · rw [hr]
    exact fun _ _ => id

theorem isSome_rename {taskInd i : Nat} {file name : Bytes} {disk : Disk}
    (h : (disk name).isSome = true) : (Job.rename taskInd i file disk name).isSome = true := by
  by_cases hn : name = getIntermediateFileName taskInd i
  · rw [hn, Job.rename_self]
    rfl
  · rw [Job.rename_other file disk hn]
    exact h

theorem isSome_output {taskInd : Nat} {calls : List (Bytes × List Bytes)} {name : Bytes}
    {disk : Disk} (h : (disk name).isSome = true) :
    (job.output taskInd calls disk name).isSome = true := by
  by_cases hn : name = getOutputFileName taskInd
  · rw [hn, job.output_self]
    rfl
  · rw [job.output_other calls disk hn]
    exact h

variable [DecidableEq W]

/-- The step function as a relation. -/
inductive Move (job : Job) (s : World W) : World W → Prop
  | handled (k : Nat) (args : RequestTaskArgs) (c : Coordinator) (reply : RequestTaskReply) :
      s.requests[k]? = some args → s.coordinator.Answer args c reply →
      Move job s { s with coordinator := c, replies := s.replies ++ [(k, reply)] }
  | asked (w : W) : Move job s (s.call w {} .getting)
  | assigned (w : W) (k : Nat) (reply : RequestTaskReply) : (k, reply) ∈ s.replies →
      s.workers w = .getting k → Move job s (s.setStage w (.assigned reply))
  | answered (w : W) : Move job s (s.setStage w .idle)
  | left (w : W) : Move job s (s.setStage w .gone)
  | mapped (w : W) (taskInd : Nat) (fileName : Bytes) (nReduce : Nat) (files : List Bytes) :
      s.workers w = .mapping taskInd fileName nReduce →
      job.mapFiles s.disk fileName nReduce = some files →
      Move job s (s.setStage w (.placing taskInd files 0))
  | renamed (w : W) (taskInd : Nat) (file : Bytes) (files : List Bytes) (i : Nat) :
      s.workers w = .placing taskInd (file :: files) i →
      Move job s { s.setStage w (.placing taskInd files (i + 1)) with
        disk := Job.rename taskInd i file s.disk }
  | mapDone (w : W) (taskInd i : Nat) : s.workers w = .placing taskInd [] i →
      Move job s { s.call w ⟨.put, .map, taskInd⟩ .putting with
        completed := s.completed ++ [.map taskInd] }
  | read (w : W) (taskInd nMap i : Nat) (kva kva' : List KeyValue) :
      s.workers w = .reducing taskInd nMap i kva → i < nMap →
      job.readFile s.disk taskInd kva i = some kva' →
      Move job s (s.setStage w (.reducing taskInd nMap (i + 1) kva'))
  | reduceDone (w : W) (taskInd nMap i : Nat) (kva : List KeyValue) :
      s.workers w = .reducing taskInd nMap i kva → ¬ i < nMap →
      Move job s { s.call w ⟨.put, .reduce, taskInd⟩ .putting with
        disk := job.output taskInd (reduceCalls (job.sorter.sort kva)) s.disk
        completed := s.completed ++ [.reduce taskInd] }

theorem move_of_work {w : W} (h : s.work job w = some s') : Move job s s' := by
  unfold work at h
  split at h
  · rename_i taskInd fileName nReduce hw
    split at h
    · cases h
      exact .left w
    · rename_i files hfiles
      cases h
      exact .mapped w taskInd fileName nReduce files hw hfiles
  · rename_i taskInd file files i hw
    cases h
    exact .renamed w taskInd file files i hw
  · rename_i taskInd i hw
    cases h
    exact .mapDone w taskInd i hw
  · rename_i taskInd nMap i kva hw
    split at h
    · rename_i hi
      split at h
      · cases h
        exact .left w
      · rename_i kva' hread
        cases h
        exact .read w taskInd nMap i kva kva' hw hi hread
    · rename_i hi
      cases h
      exact .reduceDone w taskInd nMap i kva hw hi
  · exact absurd h (by simp)

theorem move_of_step {e : Event W} (h : s.step job e = some s') : Move job s s' := by
  cases e with
  | get w =>
    have h : (if s.workers w = .idle then some (s.call w {} .getting) else none) = some s' := h
    split at h
    · cases h
      exact .asked w
    · exact absurd h (by simp)
  | handle k now time =>
    obtain ⟨args, hargs, h⟩ := Option.bind_eq_some_iff.mp h
    obtain ⟨⟨c, reply⟩, hr, h⟩ := Option.bind_eq_some_iff.mp h
    cases h
    exact .handled k args c reply hargs (Coordinator.answer_of_handleRequestTask hr)
  | receive w j =>
    obtain ⟨⟨k, reply⟩, hj, h⟩ := Option.bind_eq_some_iff.mp h
    simp only at h
    split at h
    · rename_i hw
      cases h
      exact .assigned w k reply (List.mem_of_getElem? hj) hw
    · split at h
      · cases h
        exact .answered w
      · exact absurd h (by simp)
  | work w => exact move_of_work h
  | crash w =>
    cases h
    exact .left w

theorem Move.grows (h : Move job s s') : Grows s s' := by
  have happ : ∀ (args' : RequestTaskArgs) (k : Nat) (args : RequestTaskArgs),
      s.requests[k]? = some args → (s.requests ++ [args'])[k]? = some args := by
    intro args' k args hk
    rw [List.getElem?_append_left (List.getElem?_eq_some_iff.mp hk).1]
    exact hk
  cases h with
  | handled k args c reply _ _ => exact .of_eq rfl rfl rfl
  | asked w => exact ⟨fun _ => id, fun _ => id, happ {}⟩
  | assigned w k reply _ _ => exact .of_eq rfl rfl rfl
  | answered w => exact .of_eq rfl rfl rfl
  | left w => exact .of_eq rfl rfl rfl
  | mapped w taskInd fileName nReduce files _ _ => exact .of_eq rfl rfl rfl
  | renamed w taskInd file files i _ =>
    exact ⟨fun _ => id, fun _ => isSome_rename, fun _ _ => id⟩
  | mapDone w taskInd i _ => exact ⟨fun _ => List.mem_append_left _, fun _ => id, happ _⟩
  | read w taskInd nMap i kva kva' _ _ _ => exact .of_eq rfl rfl rfl
  | reduceDone w taskInd nMap i kva _ _ =>
    exact ⟨fun _ => List.mem_append_left _, fun _ => isSome_output, happ _⟩

end World

/-! ### The invariant -/

variable {files : List Bytes} {nReduce : Nat} {completed completed' : List Task}

/-- Every map task has been completed. -/
def MapsCompleted (files : List Bytes) (completed : List Task) : Prop :=
  ∀ m < files.length, .map m ∈ completed

/-- Every reduce task has been completed. -/
def ReducesCompleted (nReduce : Nat) (completed : List Task) : Prop :=
  ∀ r < nReduce, .reduce r ∈ completed

/-- A reply to a `Get` that is justified by the completed tasks. -/
structure Granted (files : List Bytes) (nReduce : Nat) (completed : List Task)
    (reply : RequestTaskReply) : Prop where
  map : reply.type = .map → files[reply.taskInd]? = some reply.fileName ∧ reply.nReduce = nReduce
  reduce : reply.type = .reduce →
    reply.taskInd < nReduce ∧ reply.nMap = files.length ∧ MapsCompleted files completed
  done : reply.type = .done → MapsCompleted files completed ∧ ReducesCompleted nReduce completed

theorem Granted.mono {reply : RequestTaskReply} (h : Granted files nReduce completed reply)
    (hc : ∀ task ∈ completed, task ∈ completed') : Granted files nReduce completed' reply where
  map := h.map
  reduce ht := (h.reduce ht).imp_right (And.imp_right fun hm m hlt => hc _ (hm m hlt))
  done ht := (h.done ht).imp (fun hm m hlt => hc _ (hm m hlt)) fun hr r hlt => hc _ (hr r hlt)

/-- A report of a completed task. -/
def Reported (files : List Bytes) (nReduce : Nat) (completed : List Task)
    (args : RequestTaskArgs) : Prop :=
  if args.taskType = .map then args.taskInd < files.length ∧ .map args.taskInd ∈ completed
  else args.taskInd < nReduce ∧ .reduce args.taskInd ∈ completed

theorem Reported.mono {args : RequestTaskArgs} (h : Reported files nReduce completed args)
    (hc : ∀ task ∈ completed, task ∈ completed') : Reported files nReduce completed' args := by
  unfold Reported at h ⊢
  split
  · rename_i ht
    rw [if_pos ht] at h
    exact h.imp_right (hc _)
  · rename_i ht
    rw [if_neg ht] at h
    exact h.imp_right (hc _)

/-- The files of map task `m` are in place. -/
def InPlace (nReduce : Nat) (disk : Disk) (m : Nat) : Prop :=
  ∀ r < nReduce, (disk (getIntermediateFileName m r)).isSome = true

namespace World

variable {W : Type} {s s' : World W}

/-- A worker works at a task that exists, and has placed the files it has renamed. -/
def StageFits (files : List Bytes) (nReduce : Nat) (s : World W) : Stage → Prop
  | .getting k => ∃ args, s.requests[k]? = some args ∧ args.requestType = .get
  | .mapping taskInd fileName n => files[taskInd]? = some fileName ∧ n = nReduce
  | .placing taskInd rest i => taskInd < files.length ∧ i + rest.length = nReduce ∧
    InPlace i s.disk taskInd
  | .reducing taskInd nMap _ _ => taskInd < nReduce ∧ nMap = files.length
  | .idle | .putting _ | .gone => True

theorem StageFits.mono {stage : Stage} (h : StageFits files nReduce s stage) (hg : Grows s s') :
    StageFits files nReduce s' stage := by
  cases stage with
  | getting k =>
    obtain ⟨args, hk, hget⟩ := h
    exact ⟨args, hg.requests k args hk, hget⟩
  | placing taskInd rest i => exact ⟨h.1, h.2.1, fun r hr => hg.present _ (h.2.2 r hr)⟩
  | idle => exact h
  | mapping taskInd fileName n => exact h
  | reducing taskInd nMap i kva => exact h
  | putting k => exact h
  | gone => exact h

theorem mem_or_of_mem_concat {requests : List RequestTaskArgs} {args : RequestTaskArgs}
    {P : RequestTaskArgs → Prop} (h : P args) :
    ∀ args' ∈ requests ++ [args], args' ∈ requests ∨ P args' := by
  intro args' hmem
  rcases List.mem_append.mp hmem with hmem | hmem
  · exact .inl hmem
  · rw [List.mem_singleton.mp hmem]
    exact .inr h

/-- What holds in every reachable state. -/
structure Inv (files : List Bytes) (nReduce : Nat) (s : World W) : Prop where
  wellFormed : s.coordinator.WellFormed files nReduce
  maps : ∀ m, Finished s.coordinator.maps m → .map m ∈ s.completed
  reduces : ∀ r, Finished s.coordinator.reduces r → .reduce r ∈ s.completed
  isDone : s.coordinator.isDone = true → s.coordinator.AllFinished files nReduce
  puts : ∀ args ∈ s.requests, args.requestType = .put → Reported files nReduce s.completed args
  replies : ∀ p ∈ s.replies, ∃ args, s.requests[p.1]? = some args ∧
    (args.requestType = .get → Granted files nReduce s.completed p.2)
  stages : ∀ w, StageFits files nReduce s (s.workers w)
  inPlace : ∀ m, .map m ∈ s.completed → InPlace nReduce s.disk m

theorem inv_init (disk : Disk) : Inv files nReduce (init files nReduce disk : World W) where
  wellFormed := Coordinator.wellFormed_make files nReduce
  maps _ h := absurd h not_finished_replicate
  reduces _ h := absurd h not_finished_replicate
  isDone h := absurd h (by simp [init, Coordinator.make])
  puts _ h := absurd h List.not_mem_nil
  replies _ h := absurd h List.not_mem_nil
  stages _ := trivial
  inPlace _ h := absurd h List.not_mem_nil

theorem Inv.stage (h : Inv files nReduce s) {w : W} {stage : Stage} (hw : s.workers w = stage) :
    StageFits files nReduce s stage := hw ▸ h.stages w

/-- **A handler** gives out only what the completed tasks allow. -/
theorem Inv.granted (h : Inv files nReduce s) {args : RequestTaskArgs} {c : Coordinator}
    {reply : RequestTaskReply} (ha : s.coordinator.Answer args c reply)
    (hget : args.requestType = .get) : Granted files nReduce s.completed reply := by
  have hmaps : s.coordinator.allMapDone = true → MapsCompleted files s.completed :=
    fun hall m hm => h.maps m (h.wellFormed.allMapDone hall m hm)
  have hreduces : s.coordinator.allReduceDone = true → ReducesCompleted nReduce s.completed :=
    fun hall r hr => h.reduces r (h.wellFormed.allReduceDone hall r hr)
  cases ha with
  | putMap maps hput _ _ =>
    rw [hget] at hput
    cases hput
  | putReduce reduces isDone hput _ _ _ =>
    rw [hget] at hput
    cases hput
  | done reply _ hm hr ht => exact ⟨by simp [ht], by simp [ht], fun _ => ⟨hmaps hm, hreduces hr⟩⟩
  | wait reply _ ht => exact ⟨by simp [ht], by simp [ht], by simp [ht]⟩
  | map i task fileName time _ hi hst hfile =>
    rw [h.wellFormed.files_eq] at hfile
    exact ⟨fun _ => ⟨hfile, h.wellFormed.nReduce_eq⟩, by simp, by simp⟩
  | reduce i task time _ hm hi hst =>
    have hlt : i < nReduce := by
      rw [← h.wellFormed.length_reduces]
      exact (List.getElem?_eq_some_iff.mp hi).1
    exact ⟨by simp, fun _ => ⟨hlt, h.wellFormed.nMap_eq, hmaps hm⟩, by simp⟩

theorem Inv.handled (h : Inv files nReduce s) {k : Nat} {args : RequestTaskArgs} {c : Coordinator}
    {reply : RequestTaskReply} (hk : s.requests[k]? = some args)
    (ha : s.coordinator.Answer args c reply) :
    Inv files nReduce { s with coordinator := c, replies := s.replies ++ [(k, reply)] } where
  wellFormed := h.wellFormed.answer ha
  maps m hm := by
    rcases ha.reported.1 m hm with hm | ⟨hput, htype, rfl⟩
    · exact h.maps m hm
    · have hrep := h.puts args (List.mem_of_getElem? hk) hput
      rw [Reported, if_pos htype] at hrep
      exact hrep.2
  reduces r hr := by
    rcases ha.reported.2 r hr with hr | ⟨hput, htype, rfl⟩
    · exact h.reduces r hr
    · have hrep := h.puts args (List.mem_of_getElem? hk) hput
      rw [Reported, if_neg htype] at hrep
      exact hrep.2
  isDone := h.wellFormed.isDone ha h.isDone
  puts := h.puts
  replies p hp := by
    rcases List.mem_append.mp hp with hp | hp
    · exact h.replies p hp
    · rw [List.mem_singleton.mp hp]
      exact ⟨args, hk, h.granted ha⟩
  stages := h.stages
  inPlace := h.inPlace

theorem Inv.allCompleted (h : Inv files nReduce s)
    (hall : s.coordinator.AllFinished files nReduce) :
    MapsCompleted files s.completed ∧ ReducesCompleted nReduce s.completed :=
  ⟨fun m hm => h.maps m (hall.1 m hm), fun r hr => h.reduces r (hall.2 r hr)⟩

theorem stageFits_assigned {reply : RequestTaskReply}
    (h : Granted files nReduce s.completed reply) :
    StageFits files nReduce s (.assigned reply) := by
  unfold Stage.assigned
  split
  · trivial
  · rename_i ht
    exact h.map ht
  · rename_i ht
    exact ⟨(h.reduce ht).1, (h.reduce ht).2.1⟩
  · trivial

variable [DecidableEq W] {job : Job}

/-- A step of one worker, which may send a report and complete a task. -/
theorem Inv.worker (h : Inv files nReduce s) (hg : Grows s s')
    (hc : s'.coordinator = s.coordinator) (hr : s'.replies = s.replies) {w : W} {stage : Stage}
    (hw : s'.workers = Function.update s.workers w stage) (hst : StageFits files nReduce s' stage)
    (hputs : ∀ args ∈ s'.requests, args ∈ s.requests ∨
      (args.requestType = .put → Reported files nReduce s'.completed args))
    (hplace : ∀ m, .map m ∈ s'.completed → .map m ∈ s.completed ∨ InPlace nReduce s'.disk m) :
    Inv files nReduce s' where
  wellFormed := by
    rw [hc]
    exact h.wellFormed
  maps m hm := hg.completed _ (h.maps m (by rwa [hc] at hm))
  reduces r hr := hg.completed _ (h.reduces r (by rwa [hc] at hr))
  isDone := by
    rw [hc]
    exact h.isDone
  puts args hargs hput := by
    rcases hputs args hargs with hold | hnew
    · exact (h.puts args hold hput).mono hg.completed
    · exact hnew hput
  replies p hp := by
    rw [hr] at hp
    obtain ⟨args, hk, hgr⟩ := h.replies p hp
    exact ⟨args, hg.requests _ args hk, fun hget => (hgr hget).mono hg.completed⟩
  stages v := by
    rw [hw]
    by_cases hv : v = w
    · rw [hv, Function.update_self]
      exact hst
    · rw [Function.update_of_ne hv]
      exact (h.stages v).mono hg
  inPlace m hm := by
    rcases hplace m hm with hold | hnew
    · exact fun r hr => hg.present _ (h.inPlace m hold r hr)
    · exact hnew

theorem Inv.setStage (h : Inv files nReduce s) (w : W) {stage : Stage}
    (hst : StageFits files nReduce s stage) : Inv files nReduce (s.setStage w stage) := by
  have hg : Grows s (s.setStage w stage) := .of_eq rfl rfl rfl
  exact h.worker hg rfl rfl rfl (hst.mono hg) (fun _ => .inl) fun _ => .inl

/-- **Every step** keeps the invariant. -/
theorem inv_move (h : Inv files nReduce s) (hm : Move job s s') : Inv files nReduce s' := by
  have hg := hm.grows
  cases hm with
  | handled k args c reply hk ha => exact h.handled hk ha
  | asked w =>
    exact h.worker hg rfl rfl rfl ⟨{}, List.getElem?_concat_length, rfl⟩
      (mem_or_of_mem_concat fun hput => by cases hput) fun _ => .inl
  | assigned w k reply hp hw =>
    obtain ⟨args, hk, hgr⟩ := h.replies _ hp
    obtain ⟨args', hk', hget⟩ := h.stage hw
    obtain rfl := Option.some.inj (hk.symm.trans hk')
    exact h.setStage w (stageFits_assigned (hgr hget))
  | answered w => exact h.setStage w trivial
  | left w => exact h.setStage w trivial
  | mapped w taskInd fileName n out hw hout =>
    obtain ⟨hfile, rfl⟩ := h.stage hw
    refine h.setStage w ⟨(List.getElem?_eq_some_iff.mp hfile).1, ?_, fun r hr => absurd hr (by simp)⟩
    rw [Nat.zero_add]
    exact job.length_of_mapFiles hout
  | renamed w taskInd file rest i hw =>
    obtain ⟨hlt, hlen, hplaced⟩ := h.stage hw
    rw [List.length_cons] at hlen
    refine h.worker hg rfl rfl rfl ⟨hlt, by omega, fun r hr => ?_⟩ (fun _ => .inl) fun _ => .inl
    by_cases heq : r = i
    · rw [heq]
      exact congrArg Option.isSome (Job.rename_self ..)
    · exact isSome_rename (hplaced r (by omega))
  | mapDone w taskInd i hw =>
    obtain ⟨hlt, hlen, hplaced⟩ := h.stage hw
    obtain rfl : i = nReduce := by simpa using hlen
    refine h.worker hg rfl rfl rfl trivial (mem_or_of_mem_concat fun _ => ⟨hlt, by simp⟩)
      fun m hm => ?_
    rcases List.mem_append.mp hm with hm | hm
    · exact .inl hm
    · cases List.mem_singleton.mp hm
      exact .inr hplaced
  | read w taskInd nMap i kva kva' hw _ _ =>
    have hst : StageFits files nReduce s (.reducing taskInd nMap i kva) := h.stage hw
    exact h.setStage w hst
  | reduceDone w taskInd nMap i kva hw _ =>
    obtain ⟨hlt, -⟩ := h.stage hw
    refine h.worker hg rfl rfl rfl trivial (mem_or_of_mem_concat fun _ => ⟨hlt, by simp⟩)
      fun m hm => ?_
    exact .inl (by simpa using hm)

theorem inv_run {disk : Disk} {tr : List (World W)}
    (h : Trace (step job) (fun _ _ => True) (init files nReduce disk) tr) :
    ∀ s ∈ tr, Inv files nReduce s :=
  Trace.invariant (inv_init disk) (fun _ _ _ hi _ he => inv_move hi (move_of_step he)) tr h

/-! ### Safety -/

/-- The tasks that are marked finished in one state are so in another. -/
def StayFinished (c c' : Coordinator) : Prop :=
  (∀ m, Finished c.maps m → Finished c'.maps m) ∧ ∀ r, Finished c.reduces r → Finished c'.reduces r

theorem stayFinished_refl (c : Coordinator) : StayFinished c c := ⟨fun _ => id, fun _ => id⟩

theorem StayFinished.trans {c c' c'' : Coordinator} (h : StayFinished c c')
    (h' : StayFinished c' c'') : StayFinished c c'' :=
  ⟨fun m hm => h'.1 m (h.1 m hm), fun r hr => h'.2 r (h.2 r hr)⟩

theorem Move.stayFinished (hm : Move job s s') : StayFinished s.coordinator s'.coordinator := by
  cases hm with
  | handled k args c reply _ ha => exact ha.kept
  | asked w => exact stayFinished_refl _
  | assigned w k reply _ _ => exact stayFinished_refl _
  | answered w => exact stayFinished_refl _
  | left w => exact stayFinished_refl _
  | mapped w taskInd fileName n out _ _ => exact stayFinished_refl _
  | renamed w taskInd file rest i _ => exact stayFinished_refl _
  | mapDone w taskInd i _ => exact stayFinished_refl _
  | read w taskInd nMap i kva kva' _ _ _ => exact stayFinished_refl _
  | reduceDone w taskInd nMap i kva _ _ => exact stayFinished_refl _

/-- **Finished is for good.** -/
theorem stayFinished_run {disk : Disk} {s : World W} {past : List (World W)}
    (h : Trace (step job) (fun _ _ => True) (init files nReduce disk) (s :: past)) :
    ∀ s₀ ∈ past, StayFinished s₀.coordinator s.coordinator := by
  refine Trace.induction (P := fun tr => ∀ s ∈ tr.head?, ∀ s₀ ∈ tr.tail,
    StayFinished s₀.coordinator s.coordinator) ?_ ?_ _ h s rfl
  · exact fun _ _ _ h => absurd h List.not_mem_nil
  · intro s s' e tr _ ih _ he t ht s₀ hs₀
    obtain rfl := Option.some.inj ht
    have hstep := (move_of_step he).stayFinished
    rcases List.mem_cons.mp hs₀ with rfl | hs₀
    · exact hstep
    · exact (ih s rfl s₀ hs₀).trans hstep

/-- The coordinator may answer a `Get` with this reply. -/
def MayReply (s : World W) (reply : RequestTaskReply) : Prop :=
  ∃ args now time c, args.requestType = .get ∧
    s.coordinator.handleRequestTask args now time = some (c, reply)

/-- What the coordinator promises in a state, after the states `past`. -/
structure Safe (files : List Bytes) (nReduce : Nat) (s : World W) (past : List (World W)) :
    Prop where
  /-- A map task that is handed out is one of the map tasks. -/
  map : ∀ reply, s.MayReply reply → reply.type = .map → reply.taskInd < files.length
  /-- A reduce task that is handed out is one of the reduce tasks, and every map task has been
  completed by then, with its files in place. -/
  reduce : ∀ reply, s.MayReply reply → reply.type = .reduce →
    reply.taskInd < nReduce ∧ ∀ m < files.length, .map m ∈ s.completed ∧
      ∀ r < nReduce, (s.disk (getIntermediateFileName m r)).isSome = true
  /-- When a worker is told that the job is done, it is. -/
  reply_done : ∀ reply, s.MayReply reply → reply.type = .done →
    MapsCompleted files s.completed ∧ ReducesCompleted nReduce s.completed
  /-- When `Done` says that the job is done, it is. -/
  done : s.coordinator.done = true →
    MapsCompleted files s.completed ∧ ReducesCompleted nReduce s.completed
  /-- A finished task stays finished. -/
  finished : ∀ s₀ ∈ past, StayFinished s₀.coordinator s.coordinator
  /-- No request makes the coordinator panic. -/
  answers : ∀ args ∈ s.requests, ∀ now time,
    (s.coordinator.handleRequestTask args now time).isSome = true

/-- **Safety of the coordinator**, in every state of every run. -/
theorem coordinator_safety (job : Job) (files : List Bytes) (nReduce : Nat) (disk : Disk)
    (s : World W) (past : List (World W))
    (h : Trace (step job) (fun _ _ => True) (init files nReduce disk) (s :: past)) :
    Safe files nReduce s past := by
  have hi := inv_run h s (List.mem_cons_self ..)
  have hgr : ∀ reply, s.MayReply reply → Granted files nReduce s.completed reply := by
    rintro reply ⟨args, now, time, c, hget, hr⟩
    exact hi.granted (Coordinator.answer_of_handleRequestTask hr) hget
  refine ⟨?_, ?_, ?_, ?_, stayFinished_run h, ?_⟩
  · intro reply hr ht
    exact (List.getElem?_eq_some_iff.mp ((hgr reply hr).map ht).1).1
  · intro reply hr ht
    obtain ⟨hlt, -, hmaps⟩ := (hgr reply hr).reduce ht
    exact ⟨hlt, fun m hm => ⟨hmaps m hm, hi.inPlace m (hmaps m hm)⟩⟩
  · exact fun reply hr => (hgr reply hr).done
  · exact fun hd => hi.allCompleted (hi.isDone hd)
  · intro args hargs now time
    refine Coordinator.handleRequestTask_isSome hi.wellFormed now time fun hput => ?_
    have hrep := hi.puts args hargs hput
    unfold Reported at hrep
    split at hrep
    · rename_i ht
      rw [if_pos ht]
      exact hrep.1
    · rename_i ht
      rw [if_neg ht]
      exact hrep.1

/-! ### A run with a slow worker

Worker 0 takes the only map task and is slow.  Twenty seconds later worker 1 gets the task
too, reports it, and gets the reduce task.  The report of worker 0 comes then, and worker 0
crashes; worker 1 finishes the job. -/

def second (n : Int) : Int := n * 1000000000

def slowWorker : List (Event (Fin 2)) :=
  [.get 0, .handle 0 (fun _ => second 0) (second 0), .receive 0 0,
    .get 1, .handle 1 (fun _ => second 20) (second 20), .receive 1 1,
    .work 1, .work 0, .work 1, .work 1, .work 0, .handle 2 (fun _ => second 0) 0, .receive 1 2,
    .get 1, .handle 3 (fun _ => second 21) (second 21), .receive 1 3,
    .work 0, .work 1, .handle 4 (fun _ => second 0) 0, .crash 0, .work 1,
    .handle 5 (fun _ => second 0) 0, .handle 2 (fun _ => second 0) 0]

theorem slowWorker_ends :
    runEnds (step wc) (fun _ _ => True) (init [ascii "a"] 1 (twoFiles "a" "to be" "b" "")) slowWorker
      (fun s _ => s.coordinator.done &&
        decide (s.completed = [.map 0, .map 0, .reduce 0]) &&
        decide (s.disk (getOutputFileName 0) = some (ascii "be 1\nto 1\n"))) = true := by
  decide +kernel

theorem coordinator_safety_slowWorker : ∃ (s : World (Fin 2)) (past : List (World (Fin 2))),
    s.coordinator.done = true ∧ s.completed = [.map 0, .map 0, .reduce 0] ∧
      Safe [ascii "a"] 1 s past := by
  obtain ⟨s, past, -, ht, hp⟩ := exists_of_runEnds slowWorker_ends
  rw [Bool.and_eq_true, Bool.and_eq_true, decide_eq_true_eq] at hp
  exact ⟨s, past, hp.1.1, hp.1.2, coordinator_safety wc [ascii "a"] 1 _ s past ht⟩

end World

end ShardRaft.MR
