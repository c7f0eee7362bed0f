import ShardRaft.Lib.Trace
import ShardRaft.MR.Equivalence

/-!
# MapReduce: the coordinator and its workers

`HandleRequestTask` of `mr/coordinator.go`, the loop of `Worker`, and a system of one
coordinator with any number of workers.

The status and the handout time of a task stand together in a `TaskInfo`; the source has two
slices of the same length.  Times are in nanoseconds.  The clock is not trusted: every
`time.Now()` of the loop over the tasks gives any value at all, so a task that is out may be
given out again at any time.

* A handler runs under the lock and is one step.
* A request stays in `requests` once it has been sent.  It may be handled late, more than once
  or never, also when the worker that sent it has crashed.
* `DoMap` and `DoReduce` take a step for each file, so a worker may crash halfway, and other
  workers may be at the same task.
* A worker is `gone` when it has returned, crashed, stopped in `log.Fatalf`, or given up
  because `call` failed.
* `completed` has the tasks whose `DoMap` or `DoReduce` has returned.  Nothing reads it.
-/

namespace ShardRaft.MR

/-- `TaskStatus`. -/
inductive TaskStatus
  | inStore
  | onFly
  | finished
deriving DecidableEq, Repr

/-- `TaskType`. -/
inductive TaskType
  | map
  | reduce
  | wait
  | done
deriving DecidableEq, Repr

/-- `RequestType`. -/
inductive RequestType
  | get
  | put
deriving DecidableEq, Repr

/-- `RequestTaskArgs`. -/
structure RequestTaskArgs where
  requestType : RequestType := .get
  taskType : TaskType := .map
  taskInd : Nat := 0
deriving DecidableEq, Repr

/-- `RequestTaskReply`. -/
structure RequestTaskReply where
  type : TaskType := .map
  taskInd : Nat := 0
  fileName : Bytes := []
  nReduce : Nat := 0
  nMap : Nat := 0
deriving DecidableEq, Repr

/-- The metadata of one task. -/
structure TaskInfo where
  status : TaskStatus := .inStore
  handoutTime : Int := 0
deriving DecidableEq, Repr

/-- `Coordinator`. -/
structure Coordinator where
  files : List Bytes
  nMap : Nat
  maps : List TaskInfo
  nReduce : Nat
  reduces : List TaskInfo
  isDone : Bool
deriving DecidableEq, Repr

/-! ### The tasks of one phase -/

/-- The loop of `allMapDone` and `allReduceDone`. -/
def allFinished (tasks : List TaskInfo) : Bool := tasks.all fun task => task.status = .finished

/-- The loop that looks for a task to give out: one that nobody has, or one that was given out
more than ten seconds ago. -/
def grantLoop (now : Nat → Int) : List TaskInfo → Nat → Option Nat
  | [], _ => none
  | task :: tasks, i =>
    match task.status with
    | .inStore => some i
    | .onFly =>
      if task.handoutTime < now i + (-10) * 1000000000 then some i
      else grantLoop now tasks (i + 1)
    | .finished => grantLoop now tasks (i + 1)

/-- Task `i` is given out. -/
def handOut (tasks : List TaskInfo) (i : Nat) (time : Int) : List TaskInfo :=
  tasks.set i ⟨.onFly, time⟩

/-- Task `i` is reported; a wrong index panics. -/
def finish (tasks : List TaskInfo) (i : Nat) : Option (List TaskInfo) := do
  let task ← tasks[i]?
  return tasks.set i { task with status := .finished }

namespace Coordinator

/-- `MakeCoordinator`. -/
def make (files : List Bytes) (nReduce : Nat) : Coordinator where
  files := files
  nMap := files.length
  maps := List.replicate files.length {}
  nReduce := nReduce
  reduces := List.replicate nReduce {}
  isDone := false

def allMapDone (c : Coordinator) : Bool := allFinished c.maps

def allReduceDone (c : Coordinator) : Bool := allFinished c.reduces

def allDone (c : Coordinator) : Bool := c.allMapDone && c.allReduceDone

/-- `Done`. -/
def done (c : Coordinator) : Bool := c.isDone

/-- `HandleRequestTask` for a `Put`. -/
def handlePut (c : Coordinator) (args : RequestTaskArgs) :
    Option (Coordinator × RequestTaskReply) :=
  if args.taskType = .map then do
    let maps ← finish c.maps args.taskInd
    return ({ c with maps := maps }, {})
  else do
    let reduces ← finish c.reduces args.taskInd
    let c := { c with reduces := reduces }
    return (if c.allDone then { c with isDone := true } else c, {})

/-- `HandleRequestTask` for a `Get`.  `now i` is the clock when the loop is at task `i`, `time`
when a task is given out. -/
def handleGet (c : Coordinator) (now : Nat → Int) (time : Int) :
    Option (Coordinator × RequestTaskReply) :=
  if c.allMapDone && c.allReduceDone then some ({ c with isDone := true }, { type := .done }) else
    let reply : RequestTaskReply := { type := .map, nReduce := c.nReduce }
    if !c.allMapDone then
      match grantLoop now c.maps 0 with
      | some i => do
        let fileName ← c.files[i]?
        return ({ c with maps := handOut c.maps i time },
          { reply with taskInd := i, fileName := fileName })
      | none => some (c, { reply with type := .wait })
    else
      let reply := { reply with type := .reduce, nMap := c.nMap }
      if !c.allReduceDone then
        match grantLoop now c.reduces 0 with
        | some i => some ({ c with reduces := handOut c.reduces i time }, { reply with taskInd := i })
        | none => some (c, { reply with type := .wait })
      else some ({ c with isDone := true }, { reply with type := .done })

/-- `HandleRequestTask`. -/
def handleRequestTask (c : Coordinator) (args : RequestTaskArgs) (now : Nat → Int) (time : Int) :
    Option (Coordinator × RequestTaskReply) :=
  match args.requestType with
  | .put => c.handlePut args
  | .get => c.handleGet now time

end Coordinator

/-! ### The system -/

/-- Where a worker is in its loop. -/
inductive Stage
  | idle
  | getting (k : Nat)
  | mapping (taskInd : Nat) (fileName : Bytes) (nReduce : Nat)
  | placing (taskInd : Nat) (files : List Bytes) (i : Nat)
  | reducing (taskInd nMap i : Nat) (kva : List KeyValue)
  | putting (k : Nat)
  | gone
deriving DecidableEq, Repr

/-- What a worker does with the reply to its `Get`.  After a `Wait` it sleeps and asks again. -/
def Stage.assigned (reply : RequestTaskReply) : Stage :=
  match reply.type with
  | .done => .gone
  | .map => .mapping reply.taskInd reply.fileName reply.nReduce
  | .reduce => .reducing reply.taskInd reply.nMap 0 []
  | .wait => .idle

/-- The coordinator, the workers, what they have sent each other and the files.  A reply has
the index of its request. -/
structure World (W : Type) where
  coordinator : Coordinator
  workers : W → Stage
  requests : List RequestTaskArgs
  replies : List (Nat × RequestTaskReply)
  disk : Disk
  completed : List Task

/-- What the environment chooses. -/
inductive Event (W : Type)
  | get (w : W)
  | handle (k : Nat) (now : Nat → Int) (time : Int)
  | receive (w : W) (j : Nat)
  | work (w : W)
  | crash (w : W)

namespace World

variable {W : Type} [DecidableEq W]

/-- Nothing has happened yet. -/
def init (files : List Bytes) (nReduce : Nat) (disk : Disk) : World W where
  coordinator := .make files nReduce
  workers _ := .idle
  requests := []
  replies := []
  disk := disk
  completed := []

def setStage (s : World W) (w : W) (stage : Stage) : World W :=
  { s with workers := Function.update s.workers w stage }

/-- Worker `w` sends a request and waits. -/
def call (s : World W) (w : W) (args : RequestTaskArgs) (stage : Nat → Stage) : World W :=
  { s.setStage w (stage s.requests.length) with requests := s.requests ++ [args] }

/-- The coordinator handles the `k`-th request. -/
def handle (s : World W) (k : Nat) (now : Nat → Int) (time : Int) : Option (World W) := do
  let args ← s.requests[k]?
  let (c, reply) ← s.coordinator.handleRequestTask args now time
  return { s with coordinator := c, replies := s.replies ++ [(k, reply)] }

/-- Worker `w` gets the `j`-th reply. -/
def receive (s : World W) (w : W) (j : Nat) : Option (World W) := do
  let (k, reply) ← s.replies[j]?
  if s.workers w = .getting k then return s.setStage w (.assigned reply)
  else if s.workers w = .putting k then return s.setStage w .idle
  else none

/-- Worker `w` goes on with its task. -/
def work (job : Job) (s : World W) (w : W) : Option (World W) :=
  match s.workers w with
  | .mapping taskInd fileName nReduce =>
    match job.mapFiles s.disk fileName nReduce with
    | none => some (s.setStage w .gone)
    | some files => some (s.setStage w (.placing taskInd files 0))
  | .placing taskInd (file :: files) i =>
    some { s.setStage w (.placing taskInd files (i + 1)) with
      disk := Job.rename taskInd i file s.disk }
  | .placing taskInd [] _ =>
    some { s.call w ⟨.put, .map, taskInd⟩ .putting with
      completed := s.completed ++ [.map taskInd] }
  | .reducing taskInd nMap i kva =>
    if i < nMap then
      match job.readFile s.disk taskInd kva i with
      | none => some (s.setStage w .gone)
      | some kva => some (s.setStage w (.reducing taskInd nMap (i + 1) kva))
    else
      some { s.call w ⟨.put, .reduce, taskInd⟩ .putting with
        disk := job.output taskInd (reduceCalls (job.sorter.sort kva)) s.disk
        completed := s.completed ++ [.reduce taskInd] }
  | _ => none

/-- One step; `none` when the event is not possible, or when the coordinator panics. -/
def step (job : Job) (s : World W) : Event W → Option (World W)
  | .get w => if s.workers w = .idle then some (s.call w {} .getting) else none
  | .handle k now time => s.handle k now time
  | .receive w j => s.receive w j
  | .work w => s.work job w
  | .crash w => some (s.setStage w .gone)

end World

end ShardRaft.MR
