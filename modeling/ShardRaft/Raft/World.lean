import Mathlib.Logic.Function.Basic
import ShardRaft.Lib.Trace
import ShardRaft.Raft.Replication

/-!
# The cluster as a step function

Every section of the source that runs under `rf.mu` is one step of one peer.
Between two such sections anything may happen: a goroutine that was spawned may
wait as long as it likes before it takes the lock, and `labrpc` may delay,
reorder or lose a request or a reply.  So what is under way is a list of
*tasks*, and a step picks any of them.

* `Task.goroutine`: spawned, not yet at the lock.
* `Task.request`: an RPC on its way to `dst`.  `waiting` says whether the
  caller still wants the answer; a caller that crashed, or whose call has
  failed, does not.
* `Task.answer`: the answer on its way back.  A message that is lost is one no
  step ever picks.
* `Task.commit`: a goroutine about to call `commitToApplyChannel`.  In the
  handler of `AppendEntries` the answer is sent only after that call.

`commitToApplyChannel` holds `applyMu` while it sends, so a peer has at most one
batch of messages under way (`applying`), and `InstallSnapshot` waits for it.
`applyCh` is what the service of the running incarnation has received, `applied`
what any service ever received from any incarnation; `incarnation` counts the
restarts, and no step reads it.

`restart` is `crash1` followed by `Make` on the stored state: the peer's own
goroutines are gone, requests it had sent may still arrive.  A step in which a
peer calls `log.Fatalf` has no successor, because the process is gone with it.
-/

namespace ShardRaft.Raft

open ShardRaft.Lib

/-- A request of the three RPCs. -/
inductive Request (n : Nat) (C D : Type)
  | requestVote (args : RequestVoteArgs n)
  | appendEntries (args : AppendEntriesArgs n C)
  | installSnapshot (args : InstallSnapshotArgs n D)
deriving DecidableEq, Repr

/-- An answer, with the request it answers: the caller still has both. -/
inductive Answer (n : Nat) (C D : Type)
  | requestVote (args : RequestVoteArgs n) (reply : RequestVoteReply)
  | appendEntries (args : AppendEntriesArgs n C) (reply : AppendEntriesReply)
  | installSnapshot (args : InstallSnapshotArgs n D) (reply : InstallSnapshotReply)
deriving DecidableEq, Repr

/-- Something that is under way. -/
inductive Task (n : Nat) (C D : Type)
  | goroutine (owner : Fin n) (g : Goroutine n)
  | request (src dst : Fin n) (req : Request n C D) (waiting : Bool)
  | answer (src dst : Fin n) (ans : Answer n C D)
  | commit (owner : Fin n) (next : Option (Fin n × Answer n C D))
deriving DecidableEq, Repr

/-- The cluster. -/
structure World (n : Nat) (C D : Type) where
  rafts : Fin n → Peer n C D
  applying : Fin n → Option (List (ApplyMsg C D) × Option (Fin n × Answer n C D))
  applyCh : Fin n → List (ApplyMsg C D)
  tasks : List (Task n C D)
  applied : List (Fin n × ApplyMsg C D)
  incarnation : Fin n → Nat

/-- What the environment chooses. -/
inductive Event (C D : Type) (n : Nat)
  | ticker (i : Fin n) (timedOut : Bool)
  | start (i : Fin n) (command : C)
  | snapshot (i : Fin n) (index : Int) (data : D)
  | task (k : Nat)
  | fail (k : Nat)
  | applyNext (i : Fin n)
  | restart (i : Fin n)
deriving DecidableEq, Repr

namespace World

variable {n : Nat} {C D : Type}

/-- Every peer freshly made on an empty persister. -/
def init [Inhabited C] : World n C D where
  rafts i := Peer.make i .makePersister
  applying _ := none
  applyCh _ := []
  tasks := []
  applied := []
  incarnation _ := 0

/-- Peer `i` is now `rf`, and `new` tasks are under way. -/
def update (w : World n C D) (i : Fin n) (rf : Peer n C D) (new : List (Task n C D)) :
    World n C D :=
  { w with rafts := Function.update w.rafts i rf, tasks := w.tasks ++ new }

/-- The goroutines a peer has spawned, as tasks. -/
def spawn (i : Fin n) (gs : List (Goroutine n)) : List (Task n C D) :=
  gs.map (.goroutine i)

/-- The answer of a handler, if somebody waits for it. -/
def answerIf (waiting : Bool) (src dst : Fin n) (ans : Answer n C D) : List (Task n C D) :=
  if waiting then [.answer src dst ans] else []

/-- A goroutine takes the lock for the first time. -/
def runGoroutine (w : World n C D) (i : Fin n) : Goroutine n → Option (World n C D)
  | .handleSendRequestVote server _ => do
    let args ← (w.rafts i).getRequestVoteArgs
    return w.update i (w.rafts i) [.request i server (.requestVote args) true]
  | .handleSendAppendEntries server => do
    let (rf, decision) ← (w.rafts i).handleSendAppendEntries server
    return w.update i rf <| match decision with
      | .installSnapshot => [.goroutine i (.handleSendInstallSnapshot server)]
      | .notLeader => []
      | .send args => [.request i server (.appendEntries args) true]
  | .handleSendInstallSnapshot server =>
    let args := (w.rafts i).createInstallSnapshotArgs
    some (w.update i (w.rafts i) [.request i server (.installSnapshot args) true])

/-- A request reaches `dst` and its handler runs. -/
def deliver (w : World n C D) (src dst : Fin n) (waiting : Bool) :
    Request n C D → Option (World n C D)
  | .requestVote args => do
    let (rf, reply) ← (w.rafts dst).requestVote args
    return w.update dst rf (answerIf waiting src dst (.requestVote args reply))
  | .appendEntries args => do
    let (rf, reply, ok) ← (w.rafts dst).appendEntriesWithLock args
    let ans := .appendEntries args reply
    -- on success the handler applies first and answers afterwards
    return w.update dst rf <|
      if ok then [.commit dst (if waiting then some (src, ans) else none)]
      else answerIf waiting src dst ans
  | .installSnapshot args => if (w.applying dst).isSome then none else do
    let (rf, reply, _) ← (w.rafts dst).installSnapshotLocked args
    return w.update dst rf (answerIf waiting src dst (.installSnapshot args reply))

/-- An answer is back at `src`, whose goroutine goes on. -/
def receive (w : World n C D) (src dst : Fin n) : Answer n C D → Option (World n C D)
  | .requestVote _ reply =>
    let (rf, gs) := (w.rafts src).handleRequestVoteReply reply
    some (w.update src rf (spawn src gs))
  | .appendEntries args reply => do
    let (rf, gs, commit) ← (w.rafts src).handleAppendEntriesReply dst args reply
    return w.update src rf (spawn src gs ++ if commit then [.commit src none] else [])
  | .installSnapshot _ reply =>
    some (w.update src ((w.rafts src).handleInstallSnapshotReply reply) [])

/-- `commitToApplyChannel` takes `applyMu` and collects its messages. -/
def commit (w : World n C D) (i : Fin n) (next : Option (Fin n × Answer n C D)) :
    Option (World n C D) := if (w.applying i).isSome then none else do
  let (rf, msgs) ← (w.rafts i).commitToApplyChannelWithLock
  return { w.update i rf [] with applying := Function.update w.applying i (some (msgs, next)) }

/-- The goroutine that holds `applyMu` sends its next message, or releases the
lock and sends the answer it still owes. -/
def applyNext (w : World n C D) (i : Fin n) : Option (World n C D) :=
  match w.applying i with
  | none => none
  | some (msg :: msgs, next) =>
    some { w with
      applying := Function.update w.applying i (some (msgs, next))
      applyCh := Function.update w.applyCh i (w.applyCh i ++ [msg])
      applied := w.applied ++ [(i, msg)] }
  | some ([], next) =>
    some { w with
      applying := Function.update w.applying i none
      tasks := w.tasks ++ (next.map fun (src, ans) => Task.answer src i ans).toList }

/-- The pending task `k`, without it. -/
def take (w : World n C D) (k : Nat) : World n C D := { w with tasks := w.tasks.eraseIdx k }

/-- Task `k` makes its next step. -/
def runTask (w : World n C D) (k : Nat) : Option (World n C D) :=
  match w.tasks[k]? with
  | none => none
  | some (.goroutine i g) => (w.take k).runGoroutine i g
  | some (.request src dst req waiting) => (w.take k).deliver src dst waiting req
  | some (.answer src dst ans) => (w.take k).receive src dst ans
  | some (.commit i next) => (w.take k).commit i next

/-- The `InstallSnapshot` call of task `k` returns `false`: its answer is lost,
or the network gives up while the request may still arrive. -/
def failTask (w : World n C D) (k : Nat) : Option (World n C D) :=
  match w.tasks[k]? with
  | some (.request src dst (.installSnapshot args) true) => do
    let rf ← (w.rafts src).handleInstallSnapshotFailure dst args
    return (w.take k).update src rf [.request src dst (.installSnapshot args) false]
  | some (.answer src dst (.installSnapshot args _)) => do
    let rf ← (w.rafts src).handleInstallSnapshotFailure dst args
    return (w.take k).update src rf []
  | _ => none

/-- Nobody at `i` waits for an answer any more. -/
def forget (i : Fin n) : Option (Fin n × Answer n C D) → Option (Fin n × Answer n C D)
  | some (src, ans) => if src = i then none else some (src, ans)
  | none => none

/-- What is left of a task when the incarnation of `i` it may belong to dies. -/
def afterCrash (i : Fin n) : Task n C D → Option (Task n C D)
  | .goroutine j g => if j = i then none else some (.goroutine j g)
  | .request src dst req waiting => some (.request src dst req (waiting && decide (src ≠ i)))
  | .answer src dst ans => if src = i then none else some (.answer src dst ans)
  | .commit j next => if j = i then none else some (.commit j (forget i next))

/-- `crash1` and `Make`. -/
def restart [Inhabited C] (w : World n C D) (i : Fin n) : World n C D :=
  { w with
    rafts := Function.update w.rafts i (Peer.make i (w.rafts i).persister)
    applying := Function.update
      (fun j => (w.applying j).map fun (msgs, next) => (msgs, forget i next)) i none
    applyCh := Function.update w.applyCh i []
    tasks := w.tasks.filterMap (afterCrash i)
    incarnation := Function.update w.incarnation i (w.incarnation i + 1) }

/-- **One step of the cluster.** -/
def step [Inhabited C] (w : World n C D) : Event C D n → Option (World n C D)
  | .ticker i timedOut =>
    let (rf, gs) := (w.rafts i).ticker timedOut
    some (w.update i rf (spawn i gs))
  | .start i command => some (w.update i ((w.rafts i).start command).1 [])
  | .snapshot i index data => do
    let rf ← (w.rafts i).snapshot index data
    return w.update i rf []
  | .task k => w.runTask k
  | .fail k => w.failTask k
  | .applyNext i => w.applyNext i
  | .restart i => some (w.restart i)

/-- The traces of the cluster whose steps all meet `ok`. -/
abbrev Run [Inhabited C] (ok : World n C D → Event C D n → Prop) : List (World n C D) → Prop :=
  Trace step ok init

end World

end ShardRaft.Raft
