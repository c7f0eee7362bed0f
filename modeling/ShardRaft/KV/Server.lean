import Mathlib.Algebra.GroupWithZero.Nat
import Mathlib.Data.Fintype.Basic
import Mathlib.Logic.Function.Basic
import Mathlib.Tactic.Common

/-!
# The key/value server and its clerks

The data of `kvraft` and the functions of one server, as `common.go`,
`server.go`, `utils.go`, `kvServerApplyTicker.go`, `kvServerGet.go`,
`kvServerPutAppend.go` and `client.go` have them.  What a goroutine does while it
holds `kv.mu` is one function; `World.lean` puts them together.

A reply channel is an index into `channels`, which says whether it is closed.
Closing a closed channel panics (`none`).  The counters that only go into the
bytes of a snapshot are left out.
-/

namespace ShardRaft.KV

/-- `Err`; `unset` is the zero value, the empty string. -/
inductive Err
  | unset
  | ok
  | errNoKey
  | errWrongLeader
  | errOther
  | errTimeout
  | errFiller
deriving DecidableEq, Repr

/-- `OpType`. -/
inductive OpType
  | get
  | append
  | put
deriving DecidableEq, Repr

/-- `Op`. -/
structure Op (n : Nat) where
  serverId : Fin n
  opIndex : Nat
  type : OpType
  key : String
  value : String
  clientId : Nat
  requestIndex : Int
deriving DecidableEq, Repr

/-- `KVReplyMsg`. -/
structure KVReplyMsg where
  error : Err
  value : String
deriving DecidableEq, Repr

/-- `OpKVReplyChannel`. -/
structure OpKVReplyChannel (n : Nat) where
  operation : Op n
  replyChannel : Nat
deriving DecidableEq, Repr

/-- `GetArgs`. -/
structure GetArgs where
  key : String
  clientId : Nat
  requestIndex : Int
deriving DecidableEq, Repr

/-- `PutAppendArgs`. -/
structure PutAppendArgs where
  key : String
  value : String
  op : OpType
  clientId : Nat
  requestIndex : Int
deriving DecidableEq, Repr

/-- `GetReply`, and `PutAppendReply` with an empty value. -/
structure Reply where
  err : Err
  value : String
deriving DecidableEq, Repr

/-! ### The replicated state -/

/-- `State`. -/
structure State where
  keyValueStore : String → Option String
  clientLastRequest : Nat → Option Int

namespace State

variable {n : Nat}

/-- `makeState`. -/
def makeState : State := ⟨fun _ => none, fun _ => none⟩

/-- `isDuplicateOp`. -/
def isDuplicateOp (st : State) (op : Op n) : Bool :=
  match st.clientLastRequest op.clientId with
  | some lastRequestIndex => decide (op.requestIndex ≤ lastRequestIndex)
  | none => false

/-- `getValue`. -/
def getValue (st : State) (op : Op n) : KVReplyMsg :=
  match st.keyValueStore op.key with
  | some val => ⟨.ok, val⟩
  | none => ⟨.errNoKey, ""⟩

/-- The part of `handleCommandApply` that changes the state and makes the reply. -/
def applyOp (st : State) (op : Op n) : State × KVReplyMsg :=
  if st.isDuplicateOp op then
    (st, if op.type = .get then st.getValue op else ⟨.ok, ""⟩)
  else
    let st := { st with
      clientLastRequest := Function.update st.clientLastRequest op.clientId (some op.requestIndex) }
    match op.type with
    | .get => (st, st.getValue op)
    | .put =>
      ({ st with keyValueStore := Function.update st.keyValueStore op.key (some op.value) },
        ⟨.ok, ""⟩)
    | .append =>
      let val := match st.keyValueStore op.key with
        | some val => val ++ op.value
        | none => op.value
      ({ st with keyValueStore := Function.update st.keyValueStore op.key (some val) }, ⟨.ok, ""⟩)

end State

/-! ### The server -/

/-- `KVServer`. -/
structure KVServer (n : Nat) where
  me : Fin n
  state : State
  startChannels : Nat → Int → Option (OpKVReplyChannel n)
  channels : List Bool
  opIndex : Nat

namespace KVServer

variable {n : Nat}

/-- `StartKVServer` on the snapshot that `persister.ReadSnapshot` returns. -/
def startKVServer (me : Fin n) (snapshot : Option State) : KVServer n where
  me := me
  state := snapshot.getD .makeState
  startChannels _ _ := none
  channels := []
  opIndex := 0

/-- `createGetOp`. -/
def createGetOp (kv : KVServer n) (args : GetArgs) : Op n where
  serverId := kv.me
  opIndex := kv.opIndex
  type := .get
  key := args.key
  value := ""
  clientId := args.clientId
  requestIndex := args.requestIndex

/-- `createPutAppendOp`. -/
def createPutAppendOp (kv : KVServer n) (args : PutAppendArgs) : Op n where
  serverId := kv.me
  opIndex := kv.opIndex
  type := args.op
  key := args.key
  value := args.value
  clientId := args.clientId
  requestIndex := args.requestIndex

/-- The entry of `startChannels` for a client and a request. -/
def setStartCh (kv : KVServer n) (op : Op n) (ch : Option (OpKVReplyChannel n)) : KVServer n :=
  { kv with
    startChannels := Function.update kv.startChannels op.clientId
      (Function.update (kv.startChannels op.clientId) op.requestIndex ch) }

/-- `createStartCh`: an earlier channel of the same request is dropped, not closed. -/
def createStartCh (kv : KVServer n) (op : Op n) : KVServer n × Nat :=
  ({ kv.setStartCh op (some ⟨op, kv.channels.length⟩) with channels := kv.channels ++ [false] },
    kv.channels.length)

/-- `getStartCh`. -/
def getStartCh (kv : KVServer n) (op : Op n) : Option (OpKVReplyChannel n) :=
  kv.startChannels op.clientId op.requestIndex

/-- The channel is closed. -/
def isClosed (kv : KVServer n) (ch : Nat) : Bool := (kv.channels[ch]?).getD false

/-- `deleteStartCh`: whatever channel stands under the request is closed. -/
def deleteStartCh (kv : KVServer n) (op : Op n) : Option (KVServer n) :=
  match kv.getStartCh op with
  | none => some kv
  | some startCh =>
    if kv.isClosed startCh.replyChannel then none
    else some { kv.setStartCh op none with
      channels := kv.channels.set startCh.replyChannel true }

/-- `preGetStart` and `prePutAppendStart`, with the op their request makes. -/
def preStart (kv : KVServer n) (op : Op n) : KVServer n × Nat :=
  ({ kv with opIndex := kv.opIndex + 1 } : KVServer n).createStartCh op

/-- `opChannelMatch`, with the channel it has found. -/
def opChannelMatch (kv : KVServer n) (responseOp : Op n) : Option Nat :=
  if responseOp.serverId ≠ kv.me then none else
    match kv.getStartCh responseOp with
    | none => none
    | some startCh =>
      let originalOp := startCh.operation
      if originalOp.key ≠ responseOp.key ∨ originalOp.value ≠ responseOp.value ∨
          originalOp.type ≠ responseOp.type ∨ originalOp.clientId ≠ responseOp.clientId ∨
          originalOp.requestIndex ≠ responseOp.requestIndex then none
      else some startCh.replyChannel

/-- `handleCommandApply` up to the send on the reply channel: the reply, and the
channel to send it on. -/
def handleCommandApply (kv : KVServer n) (op : Op n) (isLeader : Bool) :
    KVServer n × Option (Nat × KVReplyMsg) :=
  let (st, msg) := kv.state.applyOp op
  let kv := { kv with state := st }
  let msg := if isLeader then msg else { msg with error := .errWrongLeader }
  (kv, (kv.opChannelMatch op).map fun ch => (ch, msg))

/-- `handleGetResult`, once the channel is gone. -/
def handleGetResult (responseMsg : KVReplyMsg) : Option Reply :=
  if responseMsg.error = .errFiller then none else some ⟨responseMsg.error, responseMsg.value⟩

/-- `handlePutAppendResult`, once the channel is gone. -/
def handlePutAppendResult (responseMsg : KVReplyMsg) : Option Reply :=
  if responseMsg.error = .errFiller then none else some ⟨responseMsg.error, ""⟩

end KVServer

/-! ### The clerk -/

/-- A call of a clerk's user. -/
inductive Call
  | get (key : String)
  | put (key value : String)
  | append (key value : String)
deriving DecidableEq, Repr

/-- A request of the two RPCs. -/
inductive Request
  | get (args : GetArgs)
  | putAppend (args : PutAppendArgs)
deriving DecidableEq, Repr

/-- `Clerk`; its id is the key under which it is found.  `call` is the call that
is under way and `attempt` counts the RPCs sent, so that an answer to an RPC
given up is not taken for one to the RPC that is waited for. -/
structure Clerk (n : Nat) where
  requestIndex : Int
  lastLeaderServer : Fin n
  call : Option Call
  attempt : Nat
deriving DecidableEq, Repr

namespace Clerk

variable {n : Nat}

/-- `MakeClerk`. -/
def makeClerk [NeZero n] : Clerk n := ⟨0, 0, none, 0⟩

/-- `createGetArgs` and `createPutAppendArgs`. -/
def createArgs (ck : Clerk n) (clerkRandomId : Nat) : Call → Request
  | .get key => .get ⟨key, clerkRandomId, ck.requestIndex⟩
  | .put key value => .putAppend ⟨key, value, .put, clerkRandomId, ck.requestIndex⟩
  | .append key value => .putAppend ⟨key, value, .append, clerkRandomId, ck.requestIndex⟩

/-- The next turn of the loop tries the next server. -/
def nextServer [NeZero n] (ck : Clerk n) : Clerk n :=
  { ck with lastLeaderServer := ck.lastLeaderServer + 1, attempt := ck.attempt + 1 }

/-- What the loop of `Get` or `PutAppend` returns on this reply; `none` is one more turn. -/
def returns (reply : Reply) : Call → Option (Option String)
  | .get _ =>
    if reply.err = .ok then some (some reply.value)
    else if reply.err = .errNoKey then some (some "")
    else none
  | .put _ _ | .append _ _ => if reply.err = .ok then some none else none

end Clerk

end ShardRaft.KV
