import ShardRaft.Ctrler.Server
import ShardRaft.KV.Server
import ShardRaft.Lib.Trace
import ShardRaft.ShardKV.Server

/-!
# Reply channels

`kvraft`, `shardctrler` and `shardkv` answer their RPCs in the same way.  A handler makes a
channel and registers it under the client and the number of the request, while it holds
`kv.mu`.  It passes its op to `Start` and waits, in a `select`, for a message on the channel
or for a timer.  Then it takes `kv.mu` again to remove the channel.  The apply loop holds
`kv.mu` while it handles a command, and also while it sends the reply on the channel that is
registered for the command's request.  The channels have no buffer.

This is one server, with what the three do not share as a parameter (`Shape`): how ops are
named and how `opChannelMatch` compares them.  `shape` in the three namespaces at the end
has their own.

* Everything done under `kv.mu` is one step, except for the send.  `sending` is the send in
  which the apply loop is blocked, with the lock held; `signal` is the handler taking the
  message.
* `started` has the ops that handlers of this server passed to `Start`, in any incarnation.
  The apply loop may be given any of them (`apply`), and any command of somebody else
  (`foreign`): one of another server, or one that needs no answer.
* The reply itself plays no role here; it is part of the event.
-/

namespace ShardRaft.Service

open ShardRaft.Lib

/-- What a service says about its ops: whether this server made it, the client and request
it belongs to, whether it needs an answer, and whether the op a channel was made for is the
one that was applied. -/
structure Shape (Op K : Type) where
  mine : Op → Bool
  request : Op → K
  needSendBackCh : Op → Bool
  sameOp : Op → Op → Bool

/-- `OpKVReplyChannel`; the channel is an index. -/
structure OpReplyChannel (Op : Type) where
  operation : Op
  replyChannel : Nat
deriving DecidableEq, Repr

/-- `startChannels`, and for every channel ever made whether it is closed. -/
structure Table (Op K : Type) where
  startChannels : K → Option (OpReplyChannel Op)
  channels : List Bool

namespace Table

variable {Op K : Type} [DecidableEq K]

/-- Nothing is registered. -/
def empty : Table Op K := ⟨fun _ => none, []⟩

/-- `createStartCh`: an earlier channel of the same request is dropped, not closed. -/
def createStartCh (t : Table Op K) (sh : Shape Op K) (op : Op) : Table Op K × Nat :=
  (⟨Function.update t.startChannels (sh.request op) (some ⟨op, t.channels.length⟩),
    t.channels ++ [false]⟩, t.channels.length)

/-- `getStartCh`. -/
def getStartCh (t : Table Op K) (sh : Shape Op K) (op : Op) : Option (OpReplyChannel Op) :=
  t.startChannels (sh.request op)

/-- The channel is closed. -/
def isClosed (t : Table Op K) (ch : Nat) : Bool := (t.channels[ch]?).getD false

/-- `deleteStartCh`: whatever channel stands under the request is closed.  Closing a closed
channel panics. -/
def deleteStartCh (t : Table Op K) (sh : Shape Op K) (op : Op) : Option (Table Op K) :=
  match t.getStartCh sh op with
  | none => some t
  | some startCh =>
    if t.isClosed startCh.replyChannel then none
    else some ⟨Function.update t.startChannels (sh.request op) none,
      t.channels.set startCh.replyChannel true⟩

/-- `opChannelMatch`, with the channel it has found. -/
def opChannelMatch (t : Table Op K) (sh : Shape Op K) (responseOp : Op) : Option Nat :=
  if sh.mine responseOp then
    match t.getStartCh sh responseOp with
    | none => none
    | some startCh => if sh.sameOp startCh.operation responseOp then some startCh.replyChannel
      else none
  else none

end Table

/-- How far a handler has got since it registered its channel. -/
inductive Handler (Op Msg : Type)
  | opened (op : Op) (ch : Nat)
  | waiting (op : Op) (ch : Nat)
  | refused (op : Op)
  | received (op : Op) (msg : Option Msg)
  | timedOut (op : Op)
  | returned
deriving DecidableEq, Repr

/-- The channel from which a handler may still receive: it is in its `select`, or on the way. -/
def Handler.listensOn {Op Msg : Type} : Handler Op Msg → Option Nat
  | .opened _ ch | .waiting _ ch => some ch
  | _ => none

/-- One server. -/
structure Server (Op K Msg : Type) where
  table : Table Op K
  handlers : List (Handler Op Msg)
  sending : Option (Op × Nat × Msg)
  started : List Op

/-- What the environment chooses. -/
inductive Event (Op Msg : Type)
  | call (op : Op)
  | start (k : Nat) (isLeader : Bool)
  | receiveClosed (k : Nat)
  | timeout (k : Nat)
  | finish (k : Nat)
  | apply (k : Nat) (msg : Msg)
  | foreign (op : Op) (msg : Msg)
  | signal (k : Nat)
  | restart

namespace Server

variable {Op K Msg : Type} [DecidableEq K]

/-- The server as it starts. -/
def init : Server Op K Msg := ⟨.empty, [], none, []⟩

def setHandler (srv : Server Op K Msg) (k : Nat) (h : Handler Op Msg) : Server Op K Msg :=
  { srv with handlers := srv.handlers.set k h }

/-- A handler has made its op and registers a channel for it. -/
def call (srv : Server Op K Msg) (sh : Shape Op K) (op : Op) : Option (Server Op K Msg) :=
  if srv.sending.isSome ∨ sh.mine op = false ∨ sh.needSendBackCh op = false then none else
    let (table, ch) := srv.table.createStartCh sh op
    some { srv with table := table, handlers := srv.handlers ++ [.opened op ch] }

/-- `Start` returns. -/
def start (srv : Server Op K Msg) (k : Nat) (isLeader : Bool) : Option (Server Op K Msg) :=
  match srv.handlers[k]? with
  | some (.opened op ch) =>
    if isLeader then
      some { srv.setHandler k (.waiting op ch) with started := srv.started ++ [op] }
    else some (srv.setHandler k (.refused op))
  | _ => none

/-- The channel was closed, which gives the zero value. -/
def receiveClosed (srv : Server Op K Msg) (k : Nat) : Option (Server Op K Msg) :=
  match srv.handlers[k]? with
  | some (.waiting op ch) =>
    if srv.table.isClosed ch then some (srv.setHandler k (.received op none)) else none
  | _ => none

/-- The timer fires. -/
def timeout (srv : Server Op K Msg) (k : Nat) : Option (Server Op K Msg) :=
  match srv.handlers[k]? with
  | some (.waiting op _) => some (srv.setHandler k (.timedOut op))
  | _ => none

/-- The op whose channel a handler still has to remove. -/
def leaving : Handler Op Msg → Option Op
  | .refused op | .received op _ | .timedOut op => some op
  | _ => none

/-- `deleteStartChLocked`, `handleGetResult`, `getTimeout` and the like: the handler has
`kv.mu` and removes the channel. -/
def finish (srv : Server Op K Msg) (sh : Shape Op K) (k : Nat) : Option (Server Op K Msg) :=
  if srv.sending.isSome then none else do
    let h ← srv.handlers[k]?
    let op ← leaving h
    let table ← srv.table.deleteStartCh sh op
    return { srv.setHandler k .returned with table := table }

/-- The channel on which the apply loop answers a command. -/
def answersOn (srv : Server Op K Msg) (sh : Shape Op K) (op : Op) : Option Nat :=
  if sh.needSendBackCh op then srv.table.opChannelMatch sh op else none

/-- `handleCommandApply` as far as the channels go, up to the send. -/
def handleCommandApply (srv : Server Op K Msg) (sh : Shape Op K) (op : Op) (msg : Msg) :
    Option (Server Op K Msg) :=
  if srv.sending.isSome then none
  else some { srv with sending := (srv.answersOn sh op).map fun ch => (op, ch, msg) }

/-- `signalStartCh`: handler `k` takes the message, and the apply loop closes the channel and
unlocks.  A send on a closed channel panics. -/
def signal (srv : Server Op K Msg) (sh : Shape Op K) (k : Nat) : Option (Server Op K Msg) :=
  match srv.sending, srv.handlers[k]? with
  | some (op, ch, msg), some (.waiting op' ch') =>
    if srv.table.isClosed ch then none else
    if ch' = ch then do
      let table ← srv.table.deleteStartCh sh op
      return { srv.setHandler k (.received op' (some msg)) with table := table, sending := none }
    else none
  | _, _ => none

/-- **One step of the server.** -/
def step (sh : Shape Op K) (srv : Server Op K Msg) : Event Op Msg → Option (Server Op K Msg)
  | .call op => srv.call sh op
  | .start k isLeader => srv.start k isLeader
  | .receiveClosed k => srv.receiveClosed k
  | .timeout k => srv.timeout k
  | .finish k => srv.finish sh k
  | .apply k msg => do
    let op ← srv.started[k]?
    srv.handleCommandApply sh op msg
  | .foreign op msg =>
    if sh.mine op = true ∧ sh.needSendBackCh op = true then none
    else srv.handleCommandApply sh op msg
  | .signal k => srv.signal sh k
  | .restart => some { init with started := srv.started }

/-- The runs of the server whose steps all meet `ok`. -/
abbrev Run (sh : Shape Op K) (ok : Server Op K Msg → Event Op Msg → Prop) :
    List (Server Op K Msg) → Prop :=
  Trace (step sh) ok init

end Server

end ShardRaft.Service

/-! ### The three services -/

namespace ShardRaft.KV

/-- `kvraft`. -/
def shape {n : Nat} (me : Fin n) : Service.Shape (Op n) (Nat × Int) where
  mine op := decide (op.serverId = me)
  request op := (op.clientId, op.requestIndex)
  needSendBackCh _ := true
  sameOp originalOp responseOp := decide (originalOp.key = responseOp.key ∧
    originalOp.value = responseOp.value ∧ originalOp.type = responseOp.type ∧
    originalOp.clientId = responseOp.clientId ∧
    originalOp.requestIndex = responseOp.requestIndex)

namespace KVServer

variable {n : Nat}

/-- The reply channels of a `kvraft` server. -/
def table (kv : KVServer n) : Service.Table (Op n) (Nat × Int) where
  startChannels x := (kv.startChannels x.1 x.2).map fun ch => ⟨ch.operation, ch.replyChannel⟩
  channels := kv.channels

theorem table_setStartCh (kv : KVServer n) (op : Op n) (ch : Option (OpKVReplyChannel n)) :
    (kv.setStartCh op ch).table.startChannels = Function.update kv.table.startChannels
      (op.clientId, op.requestIndex) (ch.map fun ch => ⟨ch.operation, ch.replyChannel⟩) := by
  funext ⟨c, r⟩
  simp only [table, setStartCh, Function.update_apply, Prod.mk.injEq]
  by_cases hc : c = op.clientId
  · subst hc
    by_cases hr : r = op.requestIndex
    · simp [hr]
    · simp [hr]
  · simp [hc]

/-- `createStartCh`, `deleteStartCh` and `opChannelMatch` of `kvraft` are the ones above. -/
theorem table_createStartCh (kv : KVServer n) (op : Op n) :
    ((kv.createStartCh op).1.table, (kv.createStartCh op).2) =
      kv.table.createStartCh (shape kv.me) op := by
  have h := table_setStartCh kv op (some ⟨op, kv.channels.length⟩)
  unfold createStartCh Service.Table.createStartCh
  rw [Prod.mk.injEq]
  exact ⟨congrArg (Service.Table.mk · _) h, rfl⟩

theorem table_deleteStartCh (kv : KVServer n) (op : Op n) :
    (kv.deleteStartCh op).map table = kv.table.deleteStartCh (shape kv.me) op := by
  have h := table_setStartCh kv op none
  have hget : kv.table.getStartCh (shape kv.me) op = (kv.getStartCh op).map fun ch =>
      ⟨ch.operation, ch.replyChannel⟩ := rfl
  unfold deleteStartCh Service.Table.deleteStartCh
  rw [hget]
  cases kv.getStartCh op with
  | none => rfl
  | some startCh =>
    by_cases hc : kv.isClosed startCh.replyChannel = true
    · have hc' : kv.table.isClosed startCh.replyChannel = true := hc
      simp [hc, hc']
    · have hc' : kv.table.isClosed startCh.replyChannel = false := Bool.eq_false_iff.mpr hc
      simp only [hc, hc', Option.map_some, Bool.false_eq_true, if_false, Option.some.injEq]
      exact congrArg (Service.Table.mk · _) h

theorem table_opChannelMatch (kv : KVServer n) (op : Op n) :
    kv.opChannelMatch op = kv.table.opChannelMatch (shape kv.me) op := by
  have hget : kv.table.getStartCh (shape kv.me) op = (kv.getStartCh op).map fun ch =>
      ⟨ch.operation, ch.replyChannel⟩ := rfl
  have hmine : (shape kv.me).mine op = true ↔ op.serverId = kv.me := decide_eq_true_iff
  have hsame : ∀ op', (shape kv.me).sameOp op' op = true ↔ op'.key = op.key ∧
      op'.value = op.value ∧ op'.type = op.type ∧ op'.clientId = op.clientId ∧
      op'.requestIndex = op.requestIndex := fun op' => decide_eq_true_iff
  unfold opChannelMatch Service.Table.opChannelMatch
  rw [hget]
  by_cases hs : op.serverId = kv.me
  · rw [if_neg (not_not.mpr hs), if_pos (hmine.mpr hs)]
    cases kv.getStartCh op with
    | none => rfl
    | some startCh =>
      dsimp only [Option.map_some]
      by_cases hop : (shape kv.me).sameOp startCh.operation op = true
      · rw [if_pos hop, if_neg]
        have := (hsame _).mp hop
        tauto
      · rw [if_neg hop, if_pos]
        have := (hsame startCh.operation).not.mp hop
        tauto
  · rw [if_pos hs, if_neg (hmine.not.mpr hs)]

end KVServer

end ShardRaft.KV

namespace ShardRaft.Ctrler

/-- `shardctrler`. -/
def shape (me : Int) : Service.Shape Op (Int × Int) where
  mine op := decide (op.serverId = me)
  request op := (op.clientId, op.requestIndex)
  needSendBackCh _ := true
  sameOp originalOp responseOp := decide (originalOp.serverId = responseOp.serverId ∧
    originalOp.opIndex = responseOp.opIndex ∧ originalOp.type = responseOp.type ∧
    originalOp.shard = responseOp.shard ∧ originalOp.gid = responseOp.gid ∧
    originalOp.num = responseOp.num ∧ originalOp.clientId = responseOp.clientId ∧
    originalOp.requestIndex = responseOp.requestIndex)

end ShardRaft.Ctrler

namespace ShardRaft.ShardKV

/-- `shardkv`. -/
def shape (me : Int) : Service.Shape Op (Int × Int) where
  mine op := decide (op.serverId = me)
  request op := (op.clientId, op.requestIndex)
  needSendBackCh op := op.needSendBackCh
  sameOp originalOp responseOp := decide (originalOp.key = responseOp.key ∧
    originalOp.value = responseOp.value ∧ originalOp.type = responseOp.type ∧
    originalOp.clientId = responseOp.clientId ∧
    originalOp.requestIndex = responseOp.requestIndex)

end ShardRaft.ShardKV
