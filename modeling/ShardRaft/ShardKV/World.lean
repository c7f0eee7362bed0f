import Mathlib.Logic.Function.Basic
import ShardRaft.Lib.Trace
import ShardRaft.ShardKV.Server

/-!
# The groups of the sharded store

All groups, the messages between them and their clerks.  Each group's Raft delivers
one agreed log, so a group is one state machine: `state` is its state after the last
entry that some replica has applied, and `past` are all states it has gone through,
oldest first.  A replica that lags behind is at an earlier place of `past`, and what
its tickers and handlers read is read there: the *position* is part of the event.
Any replica may think that it leads.

* `shardConfigTicker` takes three steps, each at a position not before the last one:
  it finds all shards up to date (`check`), reads `LatestConfig.Num` and asks the
  controller (`query`), and reads the number again before it calls `Start` (`propose`).
* `acquireShardTicker` finds the lagging shards under the lock, and reads `AllConfigs`
  afterwards without it: it asks for a shard that lagged at one position (`request`) under
  what it reads at a later one.  A replica of the donor answers (`answer`), and the entry
  made of the answer reaches the log (`acquire`).
* A clerk has one call under way (`call`, `returns`); its request may be in any log any
  number of times (`apply`).

What is sent stays in the lists: a ticker, a request or an entry may be late, or come
again, or never.  `history` records the client operations as the groups apply them.
-/

namespace ShardRaft.ShardKV

open ShardRaft.Lib
open ShardRaft.Ctrler (Config NShards)

/-- The gid of a group; 0 is the invalid group. -/
abbrev Gid := { gid : Int // 0 < gid }

/-- The agreed sequence of configurations. -/
structure Configs where
  config : Nat → Config
  num_eq : ∀ n, (config n).num = n

/-- A call of a clerk's user. -/
inductive Call
  | get (key : String)
  | put (key value : String)
  | append (key value : String)
deriving DecidableEq, Repr

/-- `GetArgs` and `PutAppendArgs`. -/
structure Request where
  clientId : Int
  requestIndex : Int
  call : Call
deriving DecidableEq, Repr

/-- The key of a call. -/
def Call.key : Call → String
  | .get key | .put key _ | .append key _ => key

/-- `createGetOp` and `createPutAppendOp`. -/
def createOp (me : Int) (req : Request) : Op where
  serverId := me
  clientId := req.clientId
  requestIndex := req.requestIndex
  type := match req.call with
    | .get _ => .get
    | .put _ _ => .put
    | .append _ _ => .append
  needSendBackCh := true
  key := req.call.key
  value := match req.call with
    | .get _ => ""
    | .put _ value | .append _ value => value

/-- `Clerk`: the next request index and the request it waits for. -/
structure Clerk where
  requestIndex : Int
  waiting : Option Request
deriving DecidableEq, Repr

/-- A round of `shardConfigTicker`: the position of the check, the position last read,
and what the controller has answered. -/
structure Ticker where
  gid : Gid
  checked : Nat
  position : Nat
  newConfig : Option Config

/-- `AcquireShards` on its way: the asking group, the group that is asked. -/
structure Asked where
  gid : Gid
  donor : Gid
  args : AcquireShardArgs

/-- The answer to it, or the entry made of it. -/
structure Answered where
  asked : Asked
  reply : AcquireShardReply

/-- A client operation that a group has applied.  `isNew` says that it changed the state. -/
structure Applied where
  gid : Gid
  request : Request
  isNew : Bool
  reply : KVReplyMsg
deriving DecidableEq, Repr

/-- The groups, their messages and their clerks. -/
structure World where
  state : Gid → State
  past : Gid → List State
  tickers : List Ticker
  proposed : List (Gid × Config)
  asked : List Asked
  answered : List Answered
  clerks : Int → Clerk
  issued : List Request
  history : List Applied

/-- What the environment chooses. -/
inductive Event
  | check (g : Gid) (p : Nat)
  | query (k p num : Nat)
  | propose (k p : Nat)
  | install (k : Nat)
  | request (g : Gid) (p q : Nat) (sid : Fin NShards)
  | answer (k p : Nat)
  | acquire (k : Nat)
  | call (c : Int) (call : Call)
  | apply (g : Gid) (k : Nat)
  | returns (c : Int)
deriving DecidableEq, Repr

/-- The group would apply a client operation on this shard. -/
def State.serves (st : State) (gid : Int) (sid : Fin NShards) : Bool :=
  decide (st.latestConfig.shards sid = gid) && st.allShardsUpToDate gid

/-- The reply that lets a clerk return. -/
def KVReplyMsg.good (msg : KVReplyMsg) : Bool := msg.error = .ok ∨ msg.error = .errNoKey

namespace World

/-- `StartServer` in every group, and clerks that have not been used. -/
def init : World where
  state _ := .makeState
  past _ := [.makeState]
  tickers := []
  proposed := []
  asked := []
  answered := []
  clerks _ := ⟨0, none⟩
  issued := []
  history := []

/-- The next entry of the log of `g` has been applied. -/
def setState (w : World) (g : Gid) (st : State) : World :=
  { w with
    state := Function.update w.state g st
    past := Function.update w.past g (w.past g ++ [st]) }

/-- `allShardsUpToDateLocked` in `shardConfigTicker`. -/
def check (w : World) (g : Gid) (p : Nat) : Option World := do
  let st ← (w.past g)[p]?
  if st.allShardsUpToDate g then
    return { w with tickers := w.tickers ++ [⟨g, p, p, none⟩] }
  else none

/-- `kv.mck.Query(kv.state.LatestConfig.Num + 1)`: the configuration with this number,
or an older one while there is none. -/
def query (cs : Configs) (w : World) (k p num : Nat) : Option World := do
  let t ← w.tickers[k]?
  let st ← (w.past t.gid)[p]?
  if t.position ≤ p ∧ (num : Int) ≤ st.latestConfig.num + 1 then
    return { w with tickers := w.tickers.set k { t with position := p, newConfig := cs.config num } }
  else none

/-- `newConfig.Num != kv.state.LatestConfig.Num+1`, and `Start`. -/
def propose (w : World) (k p : Nat) : Option World := do
  let t ← w.tickers[k]?
  let newConfig ← t.newConfig
  let st ← (w.past t.gid)[p]?
  if t.position ≤ p ∧ newConfig.num = st.latestConfig.num + 1 then
    return { w with proposed := w.proposed ++ [(t.gid, newConfig)] }
  else none

/-- An `InstallShardConfig` entry is applied. -/
def install (w : World) (k : Nat) : Option World := do
  let (g, newConfig) ← w.proposed[k]?
  let (st, _) ← (w.state g).applyOp g (createInstallShardConfigOp 0 newConfig)
  return w.setState g st

/-- `allShardsUpToDateLocked` in `acquireShardTicker` at `p`, and `acquireShards` with the
`AllConfigs` that the ticker reads at `q`. -/
def request (w : World) (g : Gid) (p q : Nat) (sid : Fin NShards) : Option World := do
  let st ← (w.past g)[p]?
  let st' ← (w.past g)[q]?
  if p ≤ q ∧ sid ∈ st.laggingShards g then
    let (args, donor) ← st'.acquireShards g sid
    if h : 0 < donor then return { w with asked := w.asked ++ [⟨g, ⟨donor, h⟩, args⟩] }
    else none
  else none

/-- `AcquireShards` at a replica of the donor. -/
def answer (w : World) (k p : Nat) : Option World := do
  let q ← w.asked[k]?
  let st ← (w.past q.donor)[p]?
  let reply ← st.answerAcquireShards q.args
  return { w with answered := w.answered ++ [⟨q, reply⟩] }

/-- An `AcquireShard` entry is applied. -/
def acquire (w : World) (k : Nat) : Option World := do
  let a ← w.answered[k]?
  let (st, _) ← (w.state a.asked.gid).applyOp a.asked.gid
    (createAcquireShardOp 0 a.asked.args.shardIndex a.reply)
  return w.setState a.asked.gid st

/-- A user calls `Get`, `Put` or `Append`. -/
def call (w : World) (c : Int) (call : Call) : Option World :=
  let ck := w.clerks c
  if ck.waiting.isSome then none else
    let req := ⟨c, ck.requestIndex, call⟩
    some { w with
      clerks := Function.update w.clerks c ⟨ck.requestIndex + 1, some req⟩
      issued := w.issued ++ [req] }

/-- A client's entry is applied. -/
def apply (w : World) (g : Gid) (k : Nat) : Option World := do
  let req ← w.issued[k]?
  let op := createOp 0 req
  let (st, msg) ← (w.state g).applyOp g op
  let isNew := (w.state g).serves g (key2shard op.key) && !(w.state g).isDuplicateOp op
  return { w.setState g st with history := w.history ++ [⟨g, req, isNew, msg⟩] }

/-- The call of the clerk returns. -/
def returns (w : World) (c : Int) : Option World := do
  let req ← (w.clerks c).waiting
  if w.history.any fun r => decide (r.request = req) && r.reply.good then
    return { w with clerks := Function.update w.clerks c { w.clerks c with waiting := none } }
  else none

/-- **One step of the groups.** -/
def step (cs : Configs) (w : World) : Event → Option World
  | .check g p => w.check g p
  | .query k p num => w.query cs k p num
  | .propose k p => w.propose k p
  | .install k => w.install k
  | .request g p q sid => w.request g p q sid
  | .answer k p => w.answer k p
  | .acquire k => w.acquire k
  | .call c call => w.call c call
  | .apply g k => w.apply g k
  | .returns c => w.returns c

end World

end ShardRaft.ShardKV
