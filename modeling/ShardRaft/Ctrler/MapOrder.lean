import ShardRaft.Ctrler.History

/-!
# The order in which maps are visited

Go visits a map in an order that differs from one `range` to the next.  Three loops of the
controller do that: the copy of the groups in `makeShallowCopyConfig`, the joined servers in
`handleJoin`, and `getSortedKeys`, which runs in `assignVoidShards` and before every turn of
`redistributeShards`.

`Config` has a map as a `Finmap`, where no order can be seen.  Here the functions are
written again with the order of every single `range` as an argument, and each is shown to
return what the order-free one returns: a copy and a join write every key once, and sorting
undoes the order.  So two servers that apply the same log agree, whatever their orders
(`map_order_irrelevant`).
-/

namespace ShardRaft.Ctrler

/-- An entry of `map[int][]string`. -/
abbrev Entry := Int × List String

/-- How a `range` visits a map: every entry of it, once. -/
structure RangeOrder where
  entries : Groups → List Entry
  nodup : ∀ groups, ((entries groups).map Prod.fst).Nodup
  mem : ∀ groups kv, kv ∈ entries groups ↔ groups.lookup kv.1 = some kv.2

/-- The orders of the `range` statements that are executed one after the other. -/
abbrev RangeOrders := Nat → RangeOrder

namespace RangeOrder

/-- `newMap[k] = v` for every entry that the `range` visits. -/
def writeAll (order : RangeOrder) (source target : Groups) : Groups :=
  (order.entries source).foldl (fun groups kv => groups.insert kv.1 kv.2) target

/-- `getSortedKeys`. -/
def getSortedKeys (order : RangeOrder) (curMap : Groups) : List Int :=
  ((order.entries curMap).map Prod.fst).insertionSort (· ≤ ·)

/-- `makeShallowCopyConfig`. -/
def makeShallowCopyConfig (order : RangeOrder) (oldConfig : Config) : Config where
  num := oldConfig.num
  shards := oldConfig.shards
  groups := order.writeAll oldConfig.groups ∅

/-- `makeNextConfig`. -/
def makeNextConfig (order : RangeOrder) (latest : Config) : Config :=
  let nextConfig := order.makeShallowCopyConfig latest
  { nextConfig with num := nextConfig.num + 1 }

/-- `assignVoidShards`. -/
def assignVoidShards (order : RangeOrder) (config : Config) : Config :=
  let keys := order.getSortedKeys config.groups
  if keys.length = 0 then config else
    { config with
      shards := ((List.finRange NShards).foldl (Config.assignVoidShard keys) (config.shards, 0)).1 }

/-- `getMinMaxGroup`. -/
def getMinMaxGroup (order : RangeOrder) (config : Config) : Config.MinMax :=
  (order.getSortedKeys config.groups).foldl config.minMaxStep ⟨257, 0, 0, 0⟩

end RangeOrder

namespace RangeOrders

/-- The loop of `redistributeShards`, for at most `fuel` turns; every turn has an order of
its own. -/
def redistributeLoop : Nat → RangeOrders → Config → Option Config
  | 0, _, _ => none
  | fuel + 1, orders, config =>
    let m := (orders 0).getMinMaxGroup config
    if m.max - m.min > 1 then
      redistributeLoop fuel (fun i => orders (i + 1)) (config.moveShard m.maxGroup m.minGroup)
    else some config

/-- `redistributeShards`, when there is more than one group. -/
def redistribute (orders : RangeOrders) (config : Config) : Option Config :=
  if config.groups.keys.card > 1 then redistributeLoop (NShards * NShards + 1) orders config
  else some config

variable (orders : RangeOrders) (st : State)

/-- `handleJoin`. -/
def handleJoin (servers : Groups) : Option State := do
  let latest ← st.getLatestConfig
  let newConfig := (orders 0).makeNextConfig latest
  let newConfig := { newConfig with groups := (orders 1).writeAll servers newConfig.groups }
  let newConfig ← redistribute (fun i => orders (i + 3)) ((orders 2).assignVoidShards newConfig)
  return st.appendConfig newConfig

/-- `handleLeave`. -/
def handleLeave (gids : List Int) : Option State := do
  let latest ← st.getLatestConfig
  let newConfig := (orders 0).makeNextConfig latest
  let newConfig := { newConfig with
    groups := gids.foldl (fun groups gid => groups.erase gid) newConfig.groups
    shards := fun i => if contains gids (newConfig.shards i) then 0 else newConfig.shards i }
  let newConfig ← redistribute (fun i => orders (i + 2)) ((orders 1).assignVoidShards newConfig)
  return st.appendConfig newConfig

/-- `handleMove`. -/
def handleMove (shard gid : Int) : Option State := do
  let latest ← st.getLatestConfig
  let newConfig := (orders 0).makeNextConfig latest
  if shard < 0 then none
  else if h : shard.toNat < NShards then
    return st.appendConfig
      { newConfig with shards := Function.update newConfig.shards ⟨shard.toNat, h⟩ gid }
  else none

/-- The handler that an operation calls. -/
def handleOp (op : Op) : Option State :=
  match op.type with
  | .join => orders.handleJoin st op.servers
  | .leave => orders.handleLeave st op.gids
  | .move => orders.handleMove st op.shard op.gid
  | .query => some st

/-- The part of `handleCommandApply` that changes the state and makes the reply. -/
def applyOp (op : Op) : Option (State × ReplyMsg) :=
  if st.isDuplicateOp op then
    if op.type = .query then do return (st, ⟨.ok, some (← st.getValue op)⟩)
    else some (st, ⟨.ok, none⟩)
  else do
    let st := { st with
      clientLastRequest := Function.update st.clientLastRequest op.clientId (some op.requestIndex) }
    match op.type with
    | .query => return (st, ⟨.ok, some (← st.getValue op)⟩)
    | .join => return (← orders.handleJoin st op.servers, ⟨.ok, none⟩)
    | .leave => return (← orders.handleLeave st op.gids, ⟨.ok, none⟩)
    | .move => return (← orders.handleMove st op.shard op.gid, ⟨.ok, none⟩)

end RangeOrders

/-- The handlers of a sequence of operations, each with orders of its own. -/
def handleAll : (Nat → RangeOrders) → State → List Op → Option State
  | _, st, [] => some st
  | orders, st, op :: ops => do
    let st ← (orders 0).handleOp st op
    handleAll (fun i => orders (i + 1)) st ops

/-- A log that a server applies, each operation with orders of its own. -/
def applyAll : (Nat → RangeOrders) → State → List Op → Option (State × List ReplyMsg)
  | _, st, [] => some (st, [])
  | orders, st, op :: ops => do
    let (st, msg) ← (orders 0).applyOp st op
    let (st, msgs) ← applyAll (fun i => orders (i + 1)) st ops
    return (st, msg :: msgs)

/-! ## No order can be seen -/

/-- Entries with different keys can be written in any order. -/
theorem lookup_foldl_insert {k : Int} :
    ∀ (l : List Entry) (groups : Groups), (l.map Prod.fst).Nodup →
      (∀ v, (k, v) ∈ l →
        (l.foldl (fun groups kv => groups.insert kv.1 kv.2) groups).lookup k = some v) ∧
      (k ∉ l.map Prod.fst →
        (l.foldl (fun groups kv => groups.insert kv.1 kv.2) groups).lookup k = groups.lookup k) := by
  intro l
  induction l with
  | nil => intro groups _; exact ⟨fun v h => absurd h List.not_mem_nil, fun _ => rfl⟩
  | cons kv l ih =>
    intro groups hnd
    rw [List.map_cons, List.nodup_cons] at hnd
    obtain ⟨hin, hout⟩ := ih (groups.insert kv.1 kv.2) hnd.2
    rw [List.foldl_cons]
    refine ⟨fun v hv => ?_, fun hk => ?_⟩
    · rcases List.mem_cons.mp hv with rfl | hv
      · rw [hout hnd.1]
        exact Finmap.lookup_insert groups
      · exact hin v hv
    · rw [List.map_cons, List.mem_cons, not_or] at hk
      rw [hout hk.2, Finmap.lookup_insert_of_ne groups hk.1]

namespace RangeOrder

variable (order : RangeOrder)

theorem mem_keys {groups : Groups} {k : Int} :
    k ∈ (order.entries groups).map Prod.fst ↔ k ∈ groups := by
  rw [List.mem_map, Finmap.mem_iff]
  constructor
  · rintro ⟨kv, hkv, rfl⟩
    exact ⟨kv.2, (order.mem groups kv).mp hkv⟩
  · rintro ⟨v, hv⟩
    exact ⟨(k, v), (order.mem groups (k, v)).mpr hv, rfl⟩

theorem writeAll_eq (source target : Groups) : order.writeAll source target = source ∪ target := by
  refine Finmap.ext_lookup fun k => ?_
  obtain ⟨hin, hout⟩ := lookup_foldl_insert (k := k) _ target (order.nodup source)
  by_cases hk : k ∈ source
  · obtain ⟨v, hv⟩ := Finmap.mem_iff.mp hk
    rw [Finmap.lookup_union_left hk, hv]
    exact hin v ((order.mem source (k, v)).mpr hv)
  · rw [Finmap.lookup_union_right hk]
    exact hout fun h => hk (order.mem_keys.mp h)

/-- **Sorting undoes the order** in which the keys are collected. -/
theorem getSortedKeys_eq (curMap : Groups) :
    order.getSortedKeys curMap = Ctrler.getSortedKeys curMap := by
  have hkeys : ((order.entries curMap).map Prod.fst : Multiset Int) = curMap.keys.val := by
    refine (Multiset.Nodup.ext (Multiset.coe_nodup.mpr (order.nodup curMap))
      curMap.keys.nodup).mpr fun k => ?_
    rw [Multiset.mem_coe, order.mem_keys, ← Finmap.mem_keys]
    rfl
  rw [Ctrler.getSortedKeys, ← hkeys]
  rfl

theorem makeNextConfig_eq (latest : Config) : order.makeNextConfig latest = latest.makeNextConfig := by
  simp only [makeNextConfig, makeShallowCopyConfig, writeAll_eq, Finmap.union_empty]
  rfl

theorem assignVoidShards_eq (config : Config) :
    order.assignVoidShards config = config.assignVoidShards := by
  simp only [assignVoidShards, getSortedKeys_eq]
  rfl

theorem getMinMaxGroup_eq (config : Config) :
    order.getMinMaxGroup config = config.getMinMaxGroup := by
  simp only [getMinMaxGroup, getSortedKeys_eq]
  rfl

end RangeOrder

namespace RangeOrders

open RangeOrder

theorem redistributeLoop_eq (fuel : Nat) (orders : RangeOrders) (config : Config) :
    orders.redistributeLoop fuel config = config.redistributeLoop fuel := by
  induction fuel generalizing orders config with
  | zero => rfl
  | succ fuel ih =>
    simp only [redistributeLoop, Config.redistributeLoop, getMinMaxGroup_eq, ih]

variable (orders : RangeOrders) (st : State)

theorem redistribute_eq (config : Config) : orders.redistribute config = config.redistribute := by
  simp only [redistribute, redistributeLoop_eq]
  rfl

theorem handleJoin_eq (servers : Groups) :
    orders.handleJoin st servers = st.handleJoin servers := by
  simp only [handleJoin, State.handleJoin, makeNextConfig_eq, writeAll_eq, assignVoidShards_eq,
    redistribute_eq]

theorem handleLeave_eq (gids : List Int) : orders.handleLeave st gids = st.handleLeave gids := by
  simp only [handleLeave, State.handleLeave, makeNextConfig_eq, assignVoidShards_eq,
    redistribute_eq]

theorem handleMove_eq (shard gid : Int) :
    orders.handleMove st shard gid = st.handleMove shard gid := by
  unfold handleMove State.handleMove
  simp only [makeNextConfig_eq]
  by_cases hneg : shard < 0
  · have hn : ¬ (0 ≤ shard ∧ shard.toNat < NShards) := by omega
    simp only [if_pos hneg, dif_neg hn]
  · by_cases hlt : shard.toNat < NShards
    · have hp : 0 ≤ shard ∧ shard.toNat < NShards := ⟨by omega, hlt⟩
      simp only [if_neg hneg, dif_pos hlt, dif_pos hp]
    · have hn : ¬ (0 ≤ shard ∧ shard.toNat < NShards) := by omega
      simp only [if_neg hneg, dif_neg hlt, dif_neg hn]

theorem applyOp_eq (op : Op) : orders.applyOp st op = st.applyOp op := by
  unfold applyOp State.applyOp
  by_cases hd : st.isDuplicateOp op = true
  · rw [if_pos hd, if_pos hd]
  · rw [if_neg hd, if_neg hd]
    cases op.type with
    | query => rfl
    | join => simp only [handleJoin_eq]
    | leave => simp only [handleLeave_eq]
    | move => simp only [handleMove_eq]

end RangeOrders

open RangeOrders

theorem handleAll_congr (orders orders' : Nat → RangeOrders) (st : State) (ops : List Op) :
    handleAll orders st ops = handleAll orders' st ops := by
  induction ops generalizing orders orders' st with
  | nil => rfl
  | cons op ops ih =>
    have hop : (orders 0).handleOp st op = (orders' 0).handleOp st op := by
      simp only [handleOp, handleJoin_eq, handleLeave_eq, handleMove_eq]
    simp only [handleAll, hop]
    exact bind_congr fun st => ih _ _ st

theorem applyAll_congr (orders orders' : Nat → RangeOrders) (st : State) (ops : List Op) :
    applyAll orders st ops = applyAll orders' st ops := by
  induction ops generalizing orders orders' st with
  | nil => rfl
  | cons op ops ih =>
    simp only [applyAll, applyOp_eq]
    refine bind_congr fun r => ?_
    rw [ih _ (fun i => orders' (i + 1))]

/-- **Rebalancing does not depend on the order of map iterations.**  Whatever order each
`range` of each operation takes in two runs, the handlers leave the same configurations, and
so do two servers that apply the same log, which also reply the same. -/
theorem map_order_irrelevant (orders orders' : Nat → RangeOrders) (st : State) (ops : List Op) :
    handleAll orders st ops = handleAll orders' st ops ∧
      applyAll orders st ops = applyAll orders' st ops :=
  ⟨handleAll_congr orders orders' st ops, applyAll_congr orders orders' st ops⟩

/-! ## Two orders there are -/

/-- The keys in increasing order. -/
def ascending : RangeOrder where
  entries groups := (getSortedKeys groups).filterMap fun k => (groups.lookup k).map (k, ·)
  nodup groups := by
    have hkeys : ((getSortedKeys groups).filterMap fun k => (groups.lookup k).map (k, ·)).map Prod.fst =
        getSortedKeys groups := by
      rw [List.map_filterMap]
      refine (List.filterMap_congr fun k hk => ?_).trans List.filterMap_some
      obtain ⟨v, hv⟩ := Finmap.mem_iff.mp (mem_getSortedKeys.mp hk)
      rw [hv]
      rfl
    rw [hkeys]
    exact nodup_getSortedKeys groups
  mem groups kv := by
    rw [List.mem_filterMap]
    constructor
    · rintro ⟨k, -, hk⟩
      obtain ⟨v, hv, rfl⟩ := Option.map_eq_some_iff.mp hk
      exact hv
    · intro hv
      exact ⟨kv.1, mem_getSortedKeys.mpr (Finmap.mem_iff.mpr ⟨kv.2, hv⟩), by rw [hv]; rfl⟩

/-- The keys in decreasing order. -/
def descending : RangeOrder where
  entries groups := (ascending.entries groups).reverse
  nodup groups := by
    rw [List.map_reverse, List.nodup_reverse]
    exact ascending.nodup groups
  mem groups kv := by
    rw [List.mem_reverse]
    exact ascending.mem groups kv

example : ascending.entries (Groups.ofList [(3, ["c"]), (1, ["a"])]) = [(1, ["a"]), (3, ["c"])] ∧
    descending.entries (Groups.ofList [(3, ["c"]), (1, ["a"])]) = [(3, ["c"]), (1, ["a"])] := by
  decide

end ShardRaft.Ctrler
