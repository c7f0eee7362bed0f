import ShardRaft.Ctrler.Config
import ShardRaft.Lib.Replicas
import ShardRaft.Raft.State

/-!
# The sharded key/value server

The replicated state of `shardkv` and what a server does with an apply message:
`common.go`, `server.go`, `util.go`, `applyTicker.go`, `acquireShardTicker.go`,
`snapshot.go` and `key2shard` of `client.go`.

A key of `ShardKVStore` and `ShardTimestamp` is always a shard, so both are functions
of the shard; an entry of `ShardTimestamp` that is missing reads as 0.  `none` is the
end of the process.  `labgob` is a parameter that decodes what it has encoded.  Reply
channels do not touch the state and are left out.
-/

namespace ShardRaft.ShardKV

open ShardRaft.Lib (Codec)
open ShardRaft.Ctrler (Config NShards NShards_pos)

/-- `Err`, as far as `handleCommandApply` sets it. -/
inductive Err
  | ok
  | errNoKey
  | errWrongGroup
  | errWrongLeader
  | errNotUpToDate
  | errFiller
deriving DecidableEq, Repr

/-- `OpType`. -/
inductive OpType
  | get
  | append
  | put
  | installShardConfig
  | acquireShard
deriving DecidableEq, Repr

/-- `KeyValueStore`. -/
structure KeyValueStore where
  kvStore : String → Option String

/-- `createEmptyKeyValueStore`, and what `clone` makes of a store that is not there. -/
def createEmptyKeyValueStore : KeyValueStore := ⟨fun _ => none⟩

/-- The zero value of `shardctrler.Config`. -/
def zeroConfig : Config := ⟨0, fun _ => 0, ∅⟩

/-- `Op`. -/
structure Op where
  serverId : Int := 0
  clientId : Int := 0
  requestIndex : Int := 0
  type : OpType
  needSendBackCh : Bool := false
  key : String := ""
  value : String := ""
  shardConfig : Config := zeroConfig
  shardId : Fin NShards := ⟨0, NShards_pos⟩
  shardConfigNum : Int := 0
  shardData : KeyValueStore := createEmptyKeyValueStore
  clientLastRequest : Int → Option Int := fun _ => none

/-- `KVReplyMsg`. -/
structure KVReplyMsg where
  error : Err
  value : String
deriving DecidableEq, Repr

/-- `AcquireShardArgs`. -/
structure AcquireShardArgs where
  gid : Int
  configNum : Int
  shardIndex : Fin NShards
deriving DecidableEq, Repr

/-- `AcquireShardReply` of a call that succeeded. -/
structure AcquireShardReply where
  configNum : Int
  shardTimestamp : Int
  shardData : KeyValueStore
  clientLastRequest : Int → Option Int

/-- `State`. -/
structure State where
  allConfigs : List Config
  latestConfig : Config
  shardKVStore : Fin NShards → Option KeyValueStore
  shardTimestamp : Fin NShards → Int
  clientLastRequest : Int → Option Int

/-- `key2shard`: the first byte decides. -/
def key2shard (key : String) : Fin NShards :=
  ⟨((key.toByteArray.data[0]?).map (·.toNat)).getD 0 % NShards, Nat.mod_lt _ (by decide)⟩

namespace State

/-- `makeState`. -/
def makeState : State where
  allConfigs := [zeroConfig]
  latestConfig := zeroConfig
  shardKVStore _ := none
  shardTimestamp _ := 0
  clientLastRequest _ := none

/-! ### Configurations -/

/-- The loop over the shards of the first configuration. -/
def firstConfig (st : State) (gid : Int) : State :=
  { st with
    shardTimestamp := fun i =>
      if st.latestConfig.shards i = gid then st.latestConfig.num else 0
    shardKVStore := fun _ => some createEmptyKeyValueStore }

/-- The loop over the shards of a later configuration: those that stay are stamped. -/
def keepShards (st : State) (gid : Int) (oldConfig : Config) : State :=
  { st with
    shardTimestamp := fun i =>
      if st.latestConfig.shards i = gid ∧ oldConfig.shards i = gid then st.latestConfig.num
      else st.shardTimestamp i }

/-- `handleInstallShardConfig`. -/
def handleInstallShardConfig (st : State) (gid : Int) (op : Op) : State :=
  let newConfig := op.shardConfig
  if newConfig.num ≠ st.latestConfig.num + 1 then st else
    let oldConfig := st.latestConfig
    let st := { st with
      latestConfig := newConfig
      allConfigs := st.allConfigs ++ [newConfig] }
    if newConfig.num = 1 then st.firstConfig gid else st.keepShards gid oldConfig

/-- `curShardUpToDate`, for a shard of this group. -/
def curShardUpToDate (st : State) (sid : Fin NShards) : Bool :=
  decide (st.shardTimestamp sid ≥ st.latestConfig.num)

/-- The first result of `allShardsUpToDate`. -/
def laggingShards (st : State) (gid : Int) : List (Fin NShards) :=
  (List.finRange NShards).filter fun sid =>
    decide (st.latestConfig.shards sid = gid) && !st.curShardUpToDate sid

/-- The second result of `allShardsUpToDate`. -/
def allShardsUpToDate (st : State) (gid : Int) : Bool := (st.laggingShards gid).isEmpty

/-! ### Shards on the move -/

/-- The store of a shard, as `clone` copies it. -/
def cloneStore (st : State) (sid : Fin NShards) : KeyValueStore :=
  (st.shardKVStore sid).getD createEmptyKeyValueStore

/-- The loop of `handleAcquireShard` over the donor's `ClientLastRequest`: a missing
entry reads as 0. -/
def mergeLastRequest (mine theirs : Int → Option Int) : Int → Option Int := fun clientId =>
  match theirs clientId with
  | none => mine clientId
  | some lastRequestIndex =>
    if (mine clientId).getD 0 < lastRequestIndex then some lastRequestIndex else mine clientId

/-- `handleAcquireShard`. -/
def handleAcquireShard (st : State) (op : Op) : State :=
  let st := if op.shardConfigNum > st.shardTimestamp op.shardId then
      { st with
        shardTimestamp := Function.update st.shardTimestamp op.shardId op.shardConfigNum
        shardKVStore := Function.update st.shardKVStore op.shardId (some op.shardData) }
    else st
  { st with clientLastRequest := mergeLastRequest st.clientLastRequest op.clientLastRequest }

/-- `kv.state.AllConfigs[len(kv.state.AllConfigs)-2]`. -/
def previousConfig (st : State) : Option Config :=
  if 2 ≤ st.allConfigs.length then st.allConfigs[st.allConfigs.length - 2]? else none

/-- `createAcquireShards` for the configuration before the latest one, with the group
that is asked; a group without servers is not. -/
def acquireShards (st : State) (gid : Int) (sid : Fin NShards) :
    Option (AcquireShardArgs × Int) := do
  let targetConfig ← st.previousConfig
  let donor := targetConfig.shards sid
  let servers := (targetConfig.groups.lookup donor).getD []
  if servers = [] then none
  else some (⟨gid, targetConfig.num, sid⟩, donor)

/-- `AcquireShards` at a leader; `none` is `ASBehind`. -/
def answerAcquireShards (st : State) (args : AcquireShardArgs) : Option AcquireShardReply :=
  if st.latestConfig.num = 0 ∨ st.latestConfig.num < args.configNum then none
  else some ⟨st.latestConfig.num, st.shardTimestamp args.shardIndex,
    st.cloneStore args.shardIndex, st.clientLastRequest⟩

/-! ### Client operations -/

/-- `isDuplicateOp`. -/
def isDuplicateOp (st : State) (op : Op) : Bool :=
  match st.clientLastRequest op.clientId with
  | some lastRequestIndex => decide (op.requestIndex ≤ lastRequestIndex)
  | none => false

/-- `getValueWithKey`. -/
def getValueWithKey (st : State) (key : String) : Option String :=
  (st.shardKVStore (key2shard key)).bind fun store => store.kvStore key

/-- `getValue`. -/
def getValue (st : State) (op : Op) : KVReplyMsg :=
  match st.getValueWithKey op.key with
  | some val => ⟨.ok, val⟩
  | none => ⟨.errNoKey, ""⟩

/-- `setKeyValue`. -/
def setKeyValue (st : State) (key value : String) : State :=
  let store := st.cloneStore (key2shard key)
  { st with
    shardKVStore := Function.update st.shardKVStore (key2shard key)
      (some ⟨Function.update store.kvStore key (some value)⟩) }

/-- What `APPEND` makes of the value. -/
def appended (st : State) (key value : String) : String :=
  match st.getValueWithKey key with
  | some val => val ++ value
  | none => value

/-- The last branch of `handleCommandApply`: an operation that is new. -/
def applyNew (st : State) (op : Op) : Option (State × KVReplyMsg) :=
  let st := { st with
    clientLastRequest := Function.update st.clientLastRequest op.clientId (some op.requestIndex) }
  match op.type with
  | .get => some (st, st.getValue op)
  | .put => some (st.setKeyValue op.key op.value, ⟨.ok, ""⟩)
  | .append => some (st.setKeyValue op.key (st.appended op.key op.value), ⟨.ok, ""⟩)
  | .installShardConfig | .acquireShard => none

/-- The branch of `handleCommandApply` for the operation of a client. -/
def applyClientOp (st : State) (gid : Int) (op : Op) : Option (State × KVReplyMsg) :=
  if gid ≠ st.latestConfig.shards (key2shard op.key) then some (st, ⟨.errWrongGroup, ""⟩)
  else if !st.allShardsUpToDate gid then some (st, ⟨.errNotUpToDate, ""⟩)
  else if st.isDuplicateOp op then
    some (st, if op.type = .get then st.getValue op else ⟨.ok, ""⟩)
  else st.applyNew op

/-- The part of `handleCommandApply` that changes the state and makes the reply. -/
def applyOp (st : State) (gid : Int) (op : Op) : Option (State × KVReplyMsg) :=
  if !op.needSendBackCh then
    match op.type with
    | .installShardConfig => some (st.handleInstallShardConfig gid op, ⟨.errFiller, ""⟩)
    | .acquireShard => some (st.handleAcquireShard op, ⟨.errFiller, ""⟩)
    | .get | .put | .append => none
  else st.applyClientOp gid op

/-! ### Snapshots -/

variable {β : Type}

/-- `makeSnapshot`. -/
def makeSnapshot (st : State) (labgob : Codec State β) : β := labgob.encode st

/-- `readSnapshot`. -/
def readSnapshot (labgob : Codec State β) (data : β) : Option State := labgob.decode data

/-- `installSnapshot`; there may be no data. -/
def installSnapshot (labgob : Codec State β) (st : State) : Option β → Option State
  | none => some st
  | some data => readSnapshot labgob data

/-- `handleCommandApply`: the state, what goes to `rf.Snapshot`, and the reply.
`overflow` is `RaftStateSize() >= maxraftstate`. -/
def handleCommandApply (labgob : Codec State β) (st : State) (gid : Int) (op : Op)
    (commandIndex maxraftstate : Int) (overflow isLeader : Bool) :
    Option (State × Option (Int × β) × KVReplyMsg) := do
  let (st, msg) ← st.applyOp gid op
  let snapshot := if maxraftstate ≠ -1 ∧ (!op.needSendBackCh ∨ overflow)
    then some (commandIndex, st.makeSnapshot labgob) else none
  let msg := if isLeader then msg else { msg with error := .errWrongLeader }
  return (st, snapshot, msg)

/-- `handleApplyMessage`: the state and what goes to `rf.Snapshot`. -/
def handleApplyMessage (labgob : Codec State β) (st : State) (gid : Int)
    (m : Raft.ApplyMsg Op β) (maxraftstate : Int) (overflow isLeader : Bool) :
    Option (State × Option (Int × β)) :=
  if m.snapshotValid then do return (← st.installSnapshot labgob m.snapshot, none)
  else if m.commandValid then do
    let op ← m.command
    let (st, snapshot, _) ← st.handleCommandApply labgob gid op m.commandIndex maxraftstate
      overflow isLeader
    return (st, snapshot)
  else if m.commandIndex ≠ 0 then none
  else some (st, none)

end State

/-! ### The operations that servers and clerks create -/

/-- `createInstallShardConfigOp`. -/
def createInstallShardConfigOp (me : Int) (shardConfig : Config) : Op where
  serverId := me
  type := .installShardConfig
  shardConfig := shardConfig

/-- `createAcquireShardOp`. -/
def createAcquireShardOp (me : Int) (sid : Fin NShards) (reply : AcquireShardReply) : Op where
  serverId := me
  type := .acquireShard
  shardId := sid
  shardConfigNum := reply.configNum
  shardData := reply.shardData
  clientLastRequest := reply.clientLastRequest

end ShardRaft.ShardKV
