import ShardRaft.KV.Server
import ShardRaft.Lib.Linearizable
import ShardRaft.Lib.Trace

/-!
# The key/value service as a whole

Any number of clerks, the servers, the RPCs under way, and Raft as the servers
see it: one agreed sequence of commands.

* `log` is the part of the agreed sequence that some server has been given.  The
  first server to get that far learns its next command: one that was passed to
  `Start` before, so it stands behind everything any server had been given when
  it was started.  Everybody else is given the same command there (`apply`).
* The apply loop holds `kv.mu` while it sends on a reply channel.  `sending` is
  the send it is blocked in; until a handler takes the message (`signal`) no other
  goroutine of the server gets the lock.
* An RPC stays in the list with the `phase` its handler has reached.  A request
  or a reply that is lost is one that makes no further step; the clerk then sees
  `Call` return `false` (`fail`).
* `GetState` and `Start` may answer anything: the answer is part of the event.
* A server may take a snapshot when it applies a command, get one from another
  server through Raft (`storeSnapshot`, `snapshotMsg`), and be restarted.

`history` is what the users of the clerks see.
-/

namespace ShardRaft.KV

open ShardRaft.Lib

/-- How far the handler of an RPC has got. -/
inductive Phase (n : Nat)
  | called
  | leader
  | opened (op : Op n) (ch : Nat)
  | refused (op : Op n)
  | waiting (op : Op n) (ch : Nat)
  | received (op : Op n) (msg : KVReplyMsg)
  | timedOut (op : Op n)
  | replied (reply : Reply)
deriving DecidableEq, Repr

/-- An RPC of a clerk. -/
structure Rpc (n : Nat) where
  client : Nat
  attempt : Nat
  server : Fin n
  request : Request
  phase : Phase n
deriving DecidableEq, Repr

/-- The service. -/
structure World (n : Nat) where
  servers : Fin n → KVServer n
  delivered : Fin n → Nat
  sending : Fin n → Option (Op n × Nat × KVReplyMsg)
  log : List (Op n)
  started : List (Op n)
  clerks : Nat → Clerk n
  rpcs : List (Rpc n)
  snapshots : List (Nat × State)
  stored : Fin n → Option (Nat × State)
  history : List (Moment (Nat × Int) Call (Option String))

/-- What the environment chooses. -/
inductive Event (n : Nat)
  | invoke (c : Nat) (call : Call)
  | fail (c : Nat)
  | rpc (k : Nat) (answer : Bool)
  | apply (s : Fin n) (choice : Op n) (overflow isLeader : Bool)
  | signal (s : Fin n) (k : Nat)
  | storeSnapshot (s : Fin n) (k : Nat)
  | snapshotMsg (s : Fin n)
  | restart (s : Fin n)
deriving DecidableEq, Repr

/-- The op that the handler of a request creates. -/
def KVServer.createOp {n : Nat} (kv : KVServer n) : Request → Op n
  | .get args => kv.createGetOp args
  | .putAppend args => kv.createPutAppendOp args

/-- The reply that the handler of a request makes of a message. -/
def handleResult (msg : KVReplyMsg) : Request → Option Reply
  | .get _ => KVServer.handleGetResult msg
  | .putAppend _ => KVServer.handlePutAppendResult msg

/-- Raft keeps the snapshot that reaches further. -/
def keepNewer (old : Option (Nat × State)) (new : Nat × State) : Option (Nat × State) :=
  match old with
  | some o => if new.1 ≤ o.1 then some o else some new
  | none => some new

namespace World

variable {n : Nat}

/-- `StartKVServer` on every server, and clerks that have not been used. -/
def init [NeZero n] : World n where
  servers s := KVServer.startKVServer s none
  delivered _ := 0
  sending _ := none
  log := []
  started := []
  clerks _ := Clerk.makeClerk
  rpcs := []
  snapshots := []
  stored _ := none
  history := []

def setServer (w : World n) (s : Fin n) (kv : KVServer n) : World n :=
  { w with servers := Function.update w.servers s kv }

def setClerk (w : World n) (c : Nat) (ck : Clerk n) : World n :=
  { w with clerks := Function.update w.clerks c ck }

def setPhase (w : World n) (k : Nat) (rpc : Rpc n) (phase : Phase n) : World n :=
  { w with rpcs := w.rpcs.set k { rpc with phase := phase } }

/-- The clerk sends its call to `lastLeaderServer`. -/
def send (w : World n) (c : Nat) (ck : Clerk n) (call : Call) : World n :=
  { w.setClerk c ck with
    rpcs := w.rpcs ++ [⟨c, ck.attempt, ck.lastLeaderServer, ck.createArgs c call, .called⟩] }

/-- A user calls `Get`, `Put` or `Append`. -/
def invoke (w : World n) (c : Nat) (call : Call) : Option (World n) :=
  let ck := w.clerks c
  if ck.call.isSome then none else
    let ck := { ck with
      requestIndex := ck.requestIndex + 1
      call := some call
      attempt := ck.attempt + 1 }
    some { w.send c ck call with
      history := w.history ++ [.invoke (c, ck.requestIndex) call] }

/-- `Call` has returned `false`. -/
def fail [NeZero n] (w : World n) (c : Nat) : Option (World n) :=
  match (w.clerks c).call with
  | none => none
  | some call => some (w.send c (w.clerks c).nextServer call)

/-- A reply is back; nobody waits for it if the clerk has given this RPC up. -/
def receive [NeZero n] (w : World n) (k : Nat) (rpc : Rpc n) (reply : Reply) : World n :=
  let w := { w with rpcs := w.rpcs.eraseIdx k }
  let ck := w.clerks rpc.client
  if rpc.attempt ≠ ck.attempt then w else
    match ck.call with
    | none => w
    | some call =>
      match Clerk.returns reply call with
      | some res =>
        { w.setClerk rpc.client { ck with call := none } with
          history := w.history ++ [.respond (rpc.client, ck.requestIndex) res] }
      | none => w.send rpc.client ck.nextServer call

/-- A handler gives its channel up and replies. -/
def close (w : World n) (k : Nat) (rpc : Rpc n) (op : Op n) (reply : Reply) : Option (World n) :=
  if (w.sending rpc.server).isSome then none else do
    let kv ← (w.servers rpc.server).deleteStartCh op
    return (w.setServer rpc.server kv).setPhase k rpc (.replied reply)

/-- The handler of RPC `k` makes its next step. -/
def stepRpc [NeZero n] (w : World n) (k : Nat) (answer : Bool) : Option (World n) :=
  match w.rpcs[k]? with
  | none => none
  | some rpc =>
    match rpc.phase with
    | .called =>
      some (w.setPhase k rpc (if answer then .leader else .replied ⟨.errWrongLeader, ""⟩))
    | .leader => if (w.sending rpc.server).isSome then none else
      let kv := w.servers rpc.server
      let op := kv.createOp rpc.request
      let (kv, ch) := kv.preStart op
      some ((w.setServer rpc.server kv).setPhase k rpc (.opened op ch))
    | .opened op ch =>
      if answer then
        some (({ w with started := w.started ++ [op] } : World n).setPhase k rpc (.waiting op ch))
      else some (w.setPhase k rpc (.refused op))
    | .refused op => w.close k rpc op ⟨.errWrongLeader, ""⟩
    | .waiting op ch =>
      if answer then
        -- a closed channel gives the zero value
        if (w.servers rpc.server).isClosed ch then
          some (w.setPhase k rpc (.received op ⟨.unset, ""⟩))
        else none
      else some (w.setPhase k rpc (.timedOut op))
    | .received op msg => do
      let reply ← handleResult msg rpc.request
      w.close k rpc op reply
    | .timedOut op => w.close k rpc op ⟨.errTimeout, ""⟩
    | .replied reply => some (w.receive k rpc reply)

/-- The next command for `s`; `choice` is what the agreed sequence goes on with. -/
def nextOp (w : World n) (s : Fin n) (choice : Op n) : Option (Op n × List (Op n)) :=
  match w.log[w.delivered s]? with
  | some op => some (op, w.log)
  | none => if choice ∈ w.started then some (choice, w.log ++ [choice]) else none

/-- `handleApplyMessage` on a command. -/
def apply (w : World n) (s : Fin n) (choice : Op n) (overflow isLeader : Bool) :
    Option (World n) :=
  if (w.sending s).isSome then none else do
    let (op, log) ← w.nextOp s choice
    let (kv, signal) := (w.servers s).handleCommandApply op isLeader
    let snapshot := (w.delivered s + 1, kv.state)
    return { w.setServer s kv with
      log := log
      delivered := Function.update w.delivered s (w.delivered s + 1)
      sending := Function.update w.sending s (signal.map fun (ch, msg) => (op, ch, msg))
      snapshots := if overflow then w.snapshots ++ [snapshot] else w.snapshots
      stored := if overflow then
          Function.update w.stored s (keepNewer (w.stored s) snapshot)
        else w.stored }

/-- `signalStartCh`: the handler of RPC `k` takes the message, and the apply loop
closes the channel and unlocks.  A send on a closed channel panics. -/
def signal (w : World n) (s : Fin n) (k : Nat) : Option (World n) :=
  match w.sending s, w.rpcs[k]? with
  | some (op, ch, msg), some rpc =>
    if (w.servers s).isClosed ch then none else
    match rpc.phase with
    | .waiting op' ch' => if rpc.server = s ∧ ch' = ch then do
        let kv ← (w.servers s).deleteStartCh op
        return { (w.setServer s kv).setPhase k rpc (.received op' msg) with
          sending := Function.update w.sending s none }
      else none
    | _ => none
  | _, _ => none

/-- Raft at `s` takes over a snapshot that some server has made. -/
def storeSnapshot (w : World n) (s : Fin n) (k : Nat) : Option (World n) :=
  match w.snapshots[k]? with
  | none => none
  | some snapshot =>
    some { w with stored := Function.update w.stored s (keepNewer (w.stored s) snapshot) }

/-- `handleApplyMessage` on a snapshot. -/
def snapshotMsg (w : World n) (s : Fin n) : Option (World n) :=
  if (w.sending s).isSome then none else
    match w.stored s with
    | none => none
    | some (index, state) => if index ≤ w.delivered s then none else
      some { w.setServer s { w.servers s with state := state } with
        delivered := Function.update w.delivered s index }

/-- The RPC outlives a crash of `s`: it is not being handled there. -/
def survives (s : Fin n) (rpc : Rpc n) : Bool :=
  decide (rpc.server ≠ s) || match rpc.phase with
    | .called | .replied _ => true
    | _ => false

/-- A crash, and `StartKVServer` on what Raft has stored. -/
def restart (w : World n) (s : Fin n) : World n :=
  { w.setServer s (KVServer.startKVServer s ((w.stored s).map (·.2))) with
    delivered := Function.update w.delivered s (((w.stored s).map (·.1)).getD 0)
    sending := Function.update w.sending s none
    rpcs := w.rpcs.filter (survives s) }

/-- **One step of the service.** -/
def step [NeZero n] (w : World n) : Event n → Option (World n)
  | .invoke c call => w.invoke c call
  | .fail c => w.fail c
  | .rpc k answer => w.stepRpc k answer
  | .apply s choice overflow isLeader => w.apply s choice overflow isLeader
  | .signal s k => w.signal s k
  | .storeSnapshot s k => w.storeSnapshot s k
  | .snapshotMsg s => w.snapshotMsg s
  | .restart s => some (w.restart s)

/-- The runs of the service. -/
abbrev Run [NeZero n] : List (World n) → Prop := Trace step (fun _ _ => True) init

end World

/-- The plain map: what the calls mean when they are made one after another. -/
def spec (m : String → Option String) : Call → (String → Option String) × Option String
  | .get key => (m, some ((m key).getD ""))
  | .put key value => (Function.update m key (some value), none)
  | .append key value => (Function.update m key (some ((m key).getD "" ++ value)), none)

end ShardRaft.KV
