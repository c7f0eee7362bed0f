import ShardRaft.Ctrler.Config
import ShardRaft.Raft.State

/-!
# The shard controller

The replicated state of `shardctrler` and what a server does with an apply
message: `common.go`, `server.go`, `util.go`, `applyTicker.go`, `snapshot.go`.

`none` is the end of the process or a handler that does not return: a shard out of
range in `handleMove`, an apply message that is neither a command nor a snapshot.
A snapshot is the state that was encoded.  Reply channels do not touch the state
and are left out.
-/

namespace ShardRaft.Ctrler

/-- `SCtrlType`. -/
inductive SCtrlType
  | join
  | leave
  | move
  | query
deriving DecidableEq, Repr

/-- `ErrType`, as far as `handleCommandApply` sets it. -/
inductive ErrType
  | ok
  | errWrongLeader
deriving DecidableEq, Repr

/-- `Op`. -/
structure Op where
  serverId : Int
  opIndex : Int
  type : SCtrlType
  servers : Groups
  gids : List Int
  shard : Int
  gid : Int
  num : Int
  clientId : Int
  requestIndex : Int
deriving DecidableEq

/-- `State`. -/
structure State where
  configs : List Config
  clientLastRequest : Int → Option Int

/-- `ReplyMsg`. -/
structure ReplyMsg where
  error : ErrType
  returnConfig : Option Config
deriving DecidableEq

namespace State

/-- `makeState`: one configuration with no groups and every shard at group 0. -/
def makeState : State where
  configs := [⟨0, fun _ => 0, ∅⟩]
  clientLastRequest _ := none

/-- `isDuplicateOp`. -/
def isDuplicateOp (st : State) (op : Op) : Bool :=
  match st.clientLastRequest op.clientId with
  | some lastRequestIndex => decide (op.requestIndex ≤ lastRequestIndex)
  | none => false

/-- `getLatestConfig`. -/
def getLatestConfig (st : State) : Option Config := st.configs[st.configs.length - 1]?

/-- `getValue`. -/
def getValue (st : State) (op : Op) : Option Config :=
  if op.type ≠ .query then none
  else if op.num < 0 ∨ op.num ≥ st.configs.length then st.getLatestConfig
  else st.configs[op.num.toNat]?

/-- The end of `handleJoin`, `handleLeave` and `handleMove`. -/
def appendConfig (st : State) (newConfig : Config) : State :=
  { st with configs := st.configs ++ [newConfig] }

/-- `handleJoin`. -/
def handleJoin (st : State) (servers : Groups) : Option State := do
  let latest ← st.getLatestConfig
  let newConfig := latest.makeNextConfig
  let newConfig := { newConfig with groups := servers ∪ newConfig.groups }
  let newConfig ← newConfig.assignVoidShards.redistribute
  return st.appendConfig newConfig

/-- `handleLeave`. -/
def handleLeave (st : State) (gids : List Int) : Option State := do
  let latest ← st.getLatestConfig
  let newConfig := latest.makeNextConfig
  let newConfig := { newConfig with
    groups := gids.foldl (fun groups gid => groups.erase gid) newConfig.groups
    shards := fun i => if contains gids (newConfig.shards i) then 0 else newConfig.shards i }
  let newConfig ← newConfig.assignVoidShards.redistribute
  return st.appendConfig newConfig

/-- `handleMove`. -/
def handleMove (st : State) (shard gid : Int) : Option State := do
  let latest ← st.getLatestConfig
  let newConfig := latest.makeNextConfig
  if h : 0 ≤ shard ∧ shard.toNat < NShards then
    return st.appendConfig
      { newConfig with shards := Function.update newConfig.shards ⟨shard.toNat, h.2⟩ gid }
  else none

/-- The part of `handleCommandApply` that changes the state and makes the reply. -/
def applyOp (st : State) (op : Op) : Option (State × ReplyMsg) :=
  if st.isDuplicateOp op then
    if op.type = .query then do return (st, ⟨.ok, some (← st.getValue op)⟩)
    else some (st, ⟨.ok, none⟩)
  else do
    let st := { st with
      clientLastRequest := Function.update st.clientLastRequest op.clientId (some op.requestIndex) }
    match op.type with
    | .query => return (st, ⟨.ok, some (← st.getValue op)⟩)
    | .join => return (← st.handleJoin op.servers, ⟨.ok, none⟩)
    | .leave => return (← st.handleLeave op.gids, ⟨.ok, none⟩)
    | .move => return (← st.handleMove op.shard op.gid, ⟨.ok, none⟩)

/-- `handleCommandApply`: the state, what goes to `rf.Snapshot`, and the reply. -/
def handleCommandApply (st : State) (op : Op) (commandIndex : Int) (isLeader : Bool) :
    Option (State × (Int × State) × ReplyMsg) := do
  let (st, msg) ← st.applyOp op
  let snapshot := (commandIndex, st)
  let msg := if isLeader then msg else { msg with error := .errWrongLeader }
  return (st, snapshot, msg)

/-- `installSnapshot`. -/
def installSnapshot (st : State) (data : Option State) : State := data.getD st

/-- `handleApplyMessage`: the state and what goes to `rf.Snapshot`.  A snapshot
message changes nothing: the call of `installSnapshot` is commented out. -/
def handleApplyMessage (st : State) (m : Raft.ApplyMsg Op State) (isLeader : Bool) :
    Option (State × Option (Int × State)) :=
  if m.snapshotValid then some (st, none)
  else if m.commandValid then do
    let op ← m.command
    let (st, snapshot, _) ← st.handleCommandApply op m.commandIndex isLeader
    return (st, some snapshot)
  else if m.commandIndex ≠ 0 then none
  else some (st, none)

/-- `StartServer`, on what `persister.ReadSnapshot` returns. -/
def startServer (snapshot : Option State) : State := makeState.installSnapshot snapshot

end State

end ShardRaft.Ctrler
