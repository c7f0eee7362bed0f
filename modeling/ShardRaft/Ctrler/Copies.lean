import ShardRaft.Ctrler.History
import ShardRaft.Lib.Heap

/-!
# Configurations by reference

A `Config` has its map by reference, and the map has slices: whoever writes into a map or an
array writes into every configuration that shares it.  `State` has values, where nothing is
shared.  Here the controller runs with references: `makeShallowCopyConfig` makes a map and
copies the slices into it, and the handlers write into the map of the copy.

Whatever is written has been made since the handler began (`Made`), so what earlier
configurations refer to stays as it is, and the server does what it does with values
(`applyOp_same`, `exists_trace_read`).
-/

namespace ShardRaft.Ctrler

open Lib

/-- The maps and arrays of a process. -/
abbrev Memory := Heap Int String

/-- `Config`: the shards are copied with it, the map is not. -/
structure ConfigRef where
  num : Int
  shards : Fin NShards → Int
  groups : Nat

/-- What is left to the runtime: in which order each `range` visits a map, and how much room a
new array has. -/
structure Runtime where
  orders : Nat → Visits Int
  room : Nat → Nat

/-- The keys of a map, in the order of a `range`. -/
def rangeKeys {β : Type} (order : Visits Int) (map : Finmap fun _ : Int => β) : List Int :=
  order.visit (sortInts map.keys.val)

theorem mem_rangeKeys {β : Type} {order : Visits Int} {map : Finmap fun _ : Int => β} {k : Int} :
    k ∈ rangeKeys order map ↔ k ∈ map := by
  rw [rangeKeys, (order.perm _).mem_iff, ← Multiset.mem_coe, coe_sortInts]
  exact Finmap.mem_keys

theorem lookup_rangeKeys {β γ : Type} {order : Visits Int} {map : Finmap fun _ : Int => β}
    (f : β → γ) (k : Int) :
    (if k ∈ rangeKeys order map then (map.lookup k).map f else none) = (map.lookup k).map f := by
  by_cases hk : k ∈ map
  · rw [if_pos (mem_rangeKeys.mpr hk)]
  · rw [if_neg (fun hin => hk (mem_rangeKeys.mp hin)), Finmap.lookup_eq_none.mpr hk,
      Option.map_none]

namespace ConfigRef

/-- The configuration that is referred to. -/
def read (c : ConfigRef) (h : Memory) : Config := ⟨c.num, c.shards, h.read c.groups⟩

/-- `makeShallowCopyConfig`. -/
def makeShallowCopyConfig (runtime : Runtime) (h : Memory) (oldConfig : ConfigRef) :
    Memory × ConfigRef :=
  let newGroups := h.maps.length
  (h.makeMap.fill (fun h k => (h.mapAt oldConfig.groups).lookup k)
      (fun h v => h.copySlice runtime.room v) newGroups
      (rangeKeys (runtime.orders 0) (h.mapAt oldConfig.groups)),
    ⟨oldConfig.num, oldConfig.shards, newGroups⟩)

/-- `makeNextConfig`. -/
def makeNextConfig (runtime : Runtime) (h : Memory) (latest : ConfigRef) : Memory × ConfigRef :=
  let (h, nextConfig) := makeShallowCopyConfig runtime h latest
  (h, { nextConfig with num := nextConfig.num + 1 })

/-- `assignVoidShards` and `redistributeShards`, which read the keys of `Groups` and write the
`Shards` of the variable that they are given. -/
def rebalance (h : Memory) (newConfig : ConfigRef) : Option ConfigRef := do
  let config ← (newConfig.read h).assignVoidShards.redistribute
  return { newConfig with shards := config.shards }

end ConfigRef

/-- `State`, with references. -/
structure RefState where
  heap : Memory
  configs : List ConfigRef
  clientLastRequest : Int → Option Int

/-- `ReplyMsg`. -/
structure ReplyRef where
  error : ErrType
  returnConfig : Option ConfigRef

/-- The reply, when it is read. -/
def ReplyRef.read (msg : ReplyRef) (h : Memory) : ReplyMsg :=
  ⟨msg.error, msg.returnConfig.map fun c => c.read h⟩

namespace RefState

/-- The state that is referred to. -/
def read (st : RefState) : State where
  configs := st.configs.map fun c => c.read st.heap
  clientLastRequest := st.clientLastRequest

/-- `isDuplicateOp`. -/
def isDuplicateOp (st : RefState) (op : Op) : Bool :=
  match st.clientLastRequest op.clientId with
  | some lastRequestIndex => decide (op.requestIndex ≤ lastRequestIndex)
  | none => false

/-- `getLatestConfig`. -/
def getLatestConfig (st : RefState) : Option ConfigRef := st.configs[st.configs.length - 1]?

/-- `getValue`. -/
def getValue (st : RefState) (op : Op) : Option ConfigRef :=
  if op.type ≠ .query then none
  else if op.num < 0 ∨ op.num ≥ st.configs.length then st.getLatestConfig
  else st.configs[op.num.toNat]?

/-- The end of `handleJoin`, `handleLeave` and `handleMove`. -/
def appendConfig (st : RefState) (h : Memory) (newConfig : ConfigRef) : RefState :=
  { st with heap := h, configs := st.configs ++ [newConfig] }

variable (runtime : Runtime) (st : RefState)

/-- `handleJoin`; the new map gets the slices of `servers`, which are not copied. -/
def handleJoin (servers : Nat) : Option RefState := do
  let latest ← st.getLatestConfig
  let (h, newConfig) := latest.makeNextConfig runtime st.heap
  let h := h.fill (fun h k => (h.mapAt servers).lookup k) (fun h v => (h, v)) newConfig.groups
    (rangeKeys (runtime.orders 1) (h.mapAt servers))
  let newConfig ← newConfig.rebalance h
  return st.appendConfig h newConfig

/-- `handleLeave`. -/
def handleLeave (gids : List Int) : Option RefState := do
  let latest ← st.getLatestConfig
  let (h, newConfig) := latest.makeNextConfig runtime st.heap
  let h := gids.foldl (fun h gid => h.deleteKey newConfig.groups gid) h
  let newConfig := { newConfig with
    shards := fun i => if contains gids (newConfig.shards i) then 0 else newConfig.shards i }
  let newConfig ← newConfig.rebalance h
  return st.appendConfig h newConfig

/-- `handleMove`. -/
def handleMove (shard gid : Int) : Option RefState := do
  let latest ← st.getLatestConfig
  let (h, newConfig) := latest.makeNextConfig runtime st.heap
  if hr : shard.toNat < NShards ∧ 0 ≤ shard then
    return st.appendConfig h
      { newConfig with shards := Function.update newConfig.shards ⟨shard.toNat, hr.1⟩ gid }
  else none

/-- The part of `handleCommandApply` that changes the state and makes the reply; `servers` is the
map of the operation. -/
def applyOp (op : Op) (servers : Nat) : Option (RefState × ReplyRef) :=
  if st.isDuplicateOp op then
    if op.type = .query then do return (st, ⟨.ok, some (← st.getValue op)⟩)
    else some (st, ⟨.ok, none⟩)
  else do
    let st := { st with
      clientLastRequest := Function.update st.clientLastRequest op.clientId (some op.requestIndex) }
    match op.type with
    | .query => return (st, ⟨.ok, some (← st.getValue op)⟩)
    | .join => return (← st.handleJoin runtime servers, ⟨.ok, none⟩)
    | .leave => return (← st.handleLeave runtime op.gids, ⟨.ok, none⟩)
    | .move => return (← st.handleMove runtime op.shard op.gid, ⟨.ok, none⟩)

end RefState

/-! ## What a handler writes -/

/-- The slice has been made since, or it is one of the operation. -/
def From (base : Memory) (servers : Nat) (s : Slice) : Prop :=
  s.len = 0 ∨ base.arrays.length ≤ s.array ∨ ∃ k, (base.mapAt servers).lookup k = some s

/-- A configuration with a map that has been made since, while what there was is as it was. -/
structure Made (base : Memory) (servers : Nat) (h : Memory) (c : ConfigRef) (config : Config) :
    Prop where
  kept : base.Extends h
  new : base.maps.length ≤ c.groups
  holds : h.HoldsMap c.groups
  slices : ∀ k s, (h.mapAt c.groups).lookup k = some s → From base servers s
  read : c.read h = config

namespace Made

variable {base h : Memory} {servers : Nat} {c : ConfigRef} {config : Config}

/-- **A shallow copy shares nothing** with the configuration it is a copy of. -/
theorem makeShallowCopyConfig (runtime : Runtime) (servers : Nat) (hc : base.HoldsMap c.groups) :
    Made base servers (c.makeShallowCopyConfig runtime base).1
      (c.makeShallowCopyConfig runtime base).2 (c.read base) := by
  obtain ⟨hkept, hholds, hslices, hlookup⟩ :=
    Heap.fill_makeMap (P := From base servers) (fun h k => (h.mapAt c.groups).lookup k)
      (fun h v => h.copySlice runtime.room v) base.slice
      (fun h hb k => by rw [Heap.mapAt_of_extends hb hc.lt])
      (fun k v hv h hb => by
        have hheld := hc.holds k v hv
        obtain ⟨hext, hmaps, hown, hslice⟩ :=
          Heap.copySlice_spec runtime.room (hheld.mono hb.arrays)
        refine ⟨hext, hmaps, hown.holds, hslice.trans (Heap.slice_of_prefix hheld hb.arrays), ?_⟩
        rcases hown with hempty | ⟨hle, -⟩
        · exact .inl (by rw [hempty]; rfl)
        · exact .inr (.inl (hb.arrays.length_le.trans hle)))
      (rangeKeys (runtime.orders 0) (base.mapAt c.groups))
  refine ⟨hkept, Nat.le_refl _, hholds, hslices, congrArg (Config.mk c.num c.shards) ?_⟩
  refine Finmap.ext_lookup fun k => (hlookup k).trans ?_
  rw [lookup_rangeKeys, Heap.read, Heap.lookup_values]

theorem makeNextConfig (runtime : Runtime) (servers : Nat) (hc : base.HoldsMap c.groups) :
    Made base servers (c.makeNextConfig runtime base).1 (c.makeNextConfig runtime base).2
      (c.read base).makeNextConfig := by
  have hcopy := makeShallowCopyConfig runtime servers hc
  exact ⟨hcopy.kept, hcopy.new, hcopy.holds, hcopy.slices,
    congrArg Config.makeNextConfig hcopy.read⟩

theorem join (hm : Made base servers h c config) (hs : base.HoldsMap servers) (order : Visits Int) :
    Made base servers (h.fill (fun h k => (h.mapAt servers).lookup k) (fun h v => (h, v)) c.groups
      (rangeKeys order (h.mapAt servers))) c
      { config with groups := base.read servers ∪ config.groups } := by
  have hfill := Heap.fill_spec (P := From base servers) (fun h k => (h.mapAt servers).lookup k)
    (fun h v => (h, v)) base.slice hm.new
    (fun h hb k => by rw [Heap.mapAt_of_extends hb hs.lt])
    (fun k v hv h hb => by
      have hheld := hs.holds k v hv
      exact ⟨.refl h, rfl, hheld.mono hb.arrays, Heap.slice_of_prefix hheld hb.arrays,
        .inr (.inr ⟨k, hv⟩)⟩)
    (rangeKeys order (h.mapAt servers)) hm.kept hm.holds
  have hgroups : h.read c.groups = config.groups := congrArg Config.groups hm.read
  refine ⟨hfill.kept, hm.new, hfill.holds, fun k s hk => ?_, ?_⟩
  · exact (hfill.slices k s hk).elim (hm.slices k s) id
  · have hread : Heap.read (h.fill (fun h k => (h.mapAt servers).lookup k) (fun h v => (h, v))
        c.groups (rangeKeys order (h.mapAt servers))) c.groups =
        base.read servers ∪ config.groups := by
      refine Finmap.ext_lookup fun k => (hfill.lookup k).trans ?_
      rw [hgroups, Heap.mapAt_of_extends hm.kept hs.lt, lookup_rangeKeys, ← Heap.lookup_values]
      show ((base.read servers).lookup k).or (config.groups.lookup k) = _
      by_cases hk : k ∈ base.read servers
      · obtain ⟨names, hnames⟩ := Finmap.mem_iff.mp hk
        rw [Finmap.lookup_union_left hk, hnames, Option.some_or]
      · rw [Finmap.lookup_union_right hk, Finmap.lookup_eq_none.mpr hk, Option.none_or]
    rw [ConfigRef.read, hread, ← hm.read]
    rfl

theorem leave (hm : Made base servers h c config) (gids : List Int) :
    Made base servers (gids.foldl (fun h gid => h.deleteKey c.groups gid) h)
      { c with shards := fun i => if contains gids (c.shards i) then 0 else c.shards i }
      { config with
        groups := gids.foldl (fun groups gid => groups.erase gid) config.groups
        shards := fun i => if contains gids (config.shards i) then 0 else config.shards i } := by
  obtain ⟨hkept, hholds, hsub, hread⟩ := Heap.deleteKeys_spec hm.new gids hm.kept hm.holds
  refine ⟨hkept, hm.new, hholds, fun k s hs => hm.slices k s (hsub k s hs), ?_⟩
  rw [ConfigRef.read, hread, ← hm.read]
  rfl

theorem move (hm : Made base servers h c config) (sid : Fin NShards) (gid : Int) :
    Made base servers h { c with shards := Function.update c.shards sid gid }
      { config with shards := Function.update config.shards sid gid } := by
  refine ⟨hm.kept, hm.new, hm.holds, hm.slices, ?_⟩
  rw [← hm.read]
  rfl

theorem rebalance (hm : Made base servers h c config) : ∃ c' config',
    config.assignVoidShards.redistribute = some config' ∧ c.rebalance h = some c' ∧
      Made base servers h c' config' := by
  obtain ⟨config', heq, hmoved, -⟩ := config.assignVoidShards.redistribute_spec
  refine ⟨{ c with shards := config'.shards }, config', heq, ?_, ⟨hm.kept, hm.new, hm.holds,
    hm.slices, ?_⟩⟩
  · rw [ConfigRef.rebalance, hm.read, heq]
    rfl
  · have hnum : c.num = config'.num := by
      rw [hmoved.num, Config.assignVoidShards_num, ← hm.read]
      rfl
    have hgroups : h.read c.groups = config'.groups := by
      rw [hmoved.groups, Config.assignVoidShards_groups, ← hm.read]
      rfl
    rw [ConfigRef.read, hnum, hgroups]

end Made

/-! ## The server with references -/

namespace RefState

/-- Every configuration has a map, and one of its own. -/
structure WellFormed (st : RefState) : Prop where
  holds : ∀ c ∈ st.configs, st.heap.HoldsMap c.groups
  apart : (st.configs.map ConfigRef.groups).Nodup

/-- What an operation does to the memory and the configurations: what there was is as it was, and
a configuration that is new shares no map, and only the slices of the operation. -/
structure Onward (st : RefState) (servers : Nat) (st' : RefState) : Prop where
  kept : st.heap.Extends st'.heap
  wellFormed : st'.WellFormed
  configs : st'.configs = st.configs ∨ ∃ newConfig, st'.configs = st.configs ++ [newConfig] ∧
    st.heap.maps.length ≤ newConfig.groups ∧
    ∀ k s, (st'.heap.mapAt newConfig.groups).lookup k = some s → From st.heap servers s

variable {st st' : RefState} {servers : Nat}

theorem WellFormed.read_eq (hw : st.WellFormed) {h : Memory} (he : st.heap.Extends h) :
    st.configs.map (fun c => c.read h) = st.configs.map fun c => c.read st.heap := by
  refine List.map_congr_left fun c hc => ?_
  rw [ConfigRef.read, ConfigRef.read, (hw.holds c hc).read_eq he]

/-- **The new configuration is appended**; with values, so it is. -/
theorem WellFormed.append (hw : st.WellFormed) {h : Memory} {c : ConfigRef} {config : Config}
    (hm : Made st.heap servers h c config) :
    (st.appendConfig h c).read = st.read.appendConfig config ∧
      st.Onward servers (st.appendConfig h c) := by
  refine ⟨?_, hm.kept, ⟨fun c' hc' => ?_, ?_⟩, .inr ⟨c, rfl, hm.new, hm.slices⟩⟩
  · simp only [read, appendConfig, State.appendConfig, List.map_append, List.map_singleton,
      hw.read_eq hm.kept, hm.read]
  · rcases List.mem_append.mp hc' with hc' | hc'
    · exact (hw.holds c' hc').mono hm.kept
    · rw [List.mem_singleton.mp hc']
      exact hm.holds
  · rw [appendConfig, List.map_append, List.map_singleton, List.nodup_append]
    refine ⟨hw.apart, List.nodup_singleton _, fun m hm' m' hm'' heq => ?_⟩
    obtain ⟨c', hc', rfl⟩ := List.mem_map.mp hm'
    have hlt := (hw.holds c' hc').lt
    have hnew := hm.new
    rw [List.mem_singleton.mp hm''] at heq
    omega

/-- The two do the same: nothing, or what references make of it reads as what values do. -/
def Same (st : RefState) (servers : Nat) (r : Option RefState) (v : Option State) : Prop :=
  (r = none ∧ v = none) ∨ ∃ st', r = some st' ∧ v = some st'.read ∧ st.Onward servers st'

theorem getLatestConfig_read (st : RefState) :
    st.read.getLatestConfig = st.getLatestConfig.map fun c => c.read st.heap := by
  rw [State.getLatestConfig, getLatestConfig, read, List.length_map, List.getElem?_map]

theorem getValue_read (st : RefState) (op : Op) :
    st.read.getValue op = (st.getValue op).map fun c => c.read st.heap := by
  have hlen : st.read.configs.length = st.configs.length := List.length_map ..
  rw [State.getValue, getValue, hlen]
  split
  · rfl
  · split
    · exact getLatestConfig_read st
    · exact List.getElem?_map

theorem getLatestConfig_mem {c : ConfigRef} (h : st.getLatestConfig = some c) : c ∈ st.configs :=
  List.mem_of_getElem? h

variable (runtime : Runtime)

theorem handleJoin_same (hw : st.WellFormed) (hs : st.heap.HoldsMap servers) :
    st.Same servers (st.handleJoin runtime servers)
      (st.read.handleJoin (st.heap.read servers)) := by
  cases hl : st.getLatestConfig with
  | none =>
    left
    simp only [handleJoin, State.handleJoin, getLatestConfig_read, hl, Option.map_none]
    exact ⟨rfl, rfl⟩
  | some latest =>
    right
    have hnext := Made.makeNextConfig runtime servers (hw.holds latest (getLatestConfig_mem hl))
    obtain ⟨c, config, hconfig, hc, hm⟩ := (hnext.join hs (runtime.orders 1)).rebalance
    obtain ⟨hread, honward⟩ := hw.append hm
    refine ⟨_, ?_, ?_, honward⟩
    · simp only [handleJoin, hl, Option.bind_eq_bind, Option.bind_some, hc]
      rfl
    · simp only [State.handleJoin, getLatestConfig_read, hl, Option.map_some, Option.bind_eq_bind,
        Option.bind_some, hread]
      exact congrArg (Option.bind · _) hconfig

theorem handleLeave_same (hw : st.WellFormed) (servers : Nat) (gids : List Int) :
    st.Same servers (st.handleLeave runtime gids) (st.read.handleLeave gids) := by
  cases hl : st.getLatestConfig with
  | none =>
    left
    simp only [handleLeave, State.handleLeave, getLatestConfig_read, hl, Option.map_none]
    exact ⟨rfl, rfl⟩
  | some latest =>
    right
    have hnext := Made.makeNextConfig runtime servers (hw.holds latest (getLatestConfig_mem hl))
    obtain ⟨c, config, hconfig, hc, hm⟩ := (hnext.leave gids).rebalance
    obtain ⟨hread, honward⟩ := hw.append hm
    refine ⟨_, ?_, ?_, honward⟩
    · simp only [handleLeave, hl, Option.bind_eq_bind, Option.bind_some]
      exact congrArg (Option.bind · _) hc
    · simp only [State.handleLeave, getLatestConfig_read, hl, Option.map_some, Option.bind_eq_bind,
        Option.bind_some, hread]
      exact congrArg (Option.bind · _) hconfig

theorem handleMove_same (hw : st.WellFormed) (servers : Nat) (shard gid : Int) :
    st.Same servers (st.handleMove runtime shard gid) (st.read.handleMove shard gid) := by
  cases hl : st.getLatestConfig with
  | none =>
    left
    simp only [handleMove, State.handleMove, getLatestConfig_read, hl, Option.map_none]
    exact ⟨rfl, rfl⟩
  | some latest =>
    have hnext := Made.makeNextConfig runtime servers (hw.holds latest (getLatestConfig_mem hl))
    simp only [handleMove, State.handleMove, getLatestConfig_read, hl, Option.map_some,
      Option.bind_eq_bind, Option.bind_some]
    by_cases hr : shard.toNat < NShards ∧ 0 ≤ shard
    · rw [dif_pos hr, dif_pos hr.symm]
      obtain ⟨hread, honward⟩ := hw.append (hnext.move ⟨shard.toNat, hr.1⟩ gid)
      exact .inr ⟨_, rfl, congrArg some hread.symm, honward⟩
    · rw [dif_neg hr, dif_neg (mt And.symm hr)]
      exact .inl ⟨rfl, rfl⟩

theorem getValue_mem {op : Op} {c : ConfigRef} (h : st.getValue op = some c) : c ∈ st.configs := by
  rw [getValue] at h
  split at h
  · exact absurd h (by simp)
  · split at h
    · exact getLatestConfig_mem h
    · exact List.mem_of_getElem? h

theorem Onward.refl (hw : st.WellFormed) (servers : Nat) : st.Onward servers st :=
  ⟨.refl _, hw, .inl rfl⟩

/-- The same, of what is replied too; the reply refers to a configuration of the server. -/
def SameReply (st : RefState) (servers : Nat) (r : Option (RefState × ReplyRef))
    (v : Option (State × ReplyMsg)) : Prop :=
  (r = none ∧ v = none) ∨ ∃ st' msg, r = some (st', msg) ∧
    v = some (st'.read, msg.read st'.heap) ∧ st.Onward servers st' ∧
    ∀ c, msg.returnConfig = some c → c ∈ st'.configs

theorem SameReply.of_clientLastRequest {f : Int → Option Int} {r : Option (RefState × ReplyRef)}
    {v : Option (State × ReplyMsg)}
    (h : SameReply { st with clientLastRequest := f } servers r v) : st.SameReply servers r v := by
  rcases h with h | ⟨st', msg, hr, hv, honward, hmsg⟩
  · exact .inl h
  · exact .inr ⟨st', msg, hr, hv, ⟨honward.kept, honward.wellFormed, honward.configs⟩, hmsg⟩

theorem Same.reply {r : Option RefState} {v : Option State} (h : st.Same servers r v) :
    st.SameReply servers (r.bind fun st => some (st, ⟨.ok, none⟩))
      (v.bind fun st => some (st, ⟨.ok, none⟩)) := by
  rcases h with ⟨rfl, rfl⟩ | ⟨st', rfl, rfl, honward⟩
  · exact .inl ⟨rfl, rfl⟩
  · exact .inr ⟨st', _, rfl, rfl, honward, fun c hc => absurd hc (by simp)⟩

theorem getValue_same (hw : st.WellFormed) (servers : Nat) (op : Op) :
    st.SameReply servers ((st.getValue op).bind fun c => some (st, ⟨.ok, some c⟩))
      ((st.read.getValue op).bind fun config => some (st.read, ⟨.ok, some config⟩)) := by
  rw [getValue_read]
  cases hv : st.getValue op with
  | none => exact .inl ⟨rfl, rfl⟩
  | some c =>
    refine .inr ⟨st, ⟨.ok, some c⟩, rfl, rfl, .refl hw servers, fun c' hc' => ?_⟩
    obtain rfl := Option.some.inj hc'
    exact getValue_mem hv

/-- **An operation with references** does what it does with values. -/
theorem applyOp_same (hw : st.WellFormed) (hs : st.heap.HoldsMap servers) (op : Op) :
    st.SameReply servers (st.applyOp runtime op servers)
      (st.read.applyOp { op with servers := st.heap.read servers }) := by
  -- the state the handlers see differs only in `clientLastRequest`
  let st₁ : RefState := { st with
    clientLastRequest := Function.update st.clientLastRequest op.clientId (some op.requestIndex) }
  have hw₁ : st₁.WellFormed := ⟨hw.holds, hw.apart⟩
  have hdup : st.read.isDuplicateOp { op with servers := st.heap.read servers } =
      st.isDuplicateOp op := rfl
  rw [State.applyOp, applyOp, hdup]
  split
  · split
    · exact getValue_same hw servers op
    · exact .inr ⟨st, ⟨.ok, none⟩, rfl, rfl, .refl hw servers, fun c hc => absurd hc (by simp)⟩
  · refine SameReply.of_clientLastRequest (f :=
      Function.update st.clientLastRequest op.clientId (some op.requestIndex)) ?_
    have hquery := getValue_same hw₁ servers op
    obtain ⟨_, _, type, _, gids, shard, gid, _, _, _⟩ := op
    cases type with
    | query => exact hquery
    | join => exact (handleJoin_same runtime hw₁ hs).reply
    | leave => exact (handleLeave_same runtime hw₁ servers gids).reply
    | move => exact (handleMove_same runtime hw₁ servers shard gid).reply

end RefState

/-! ## Runs with references -/

/-- A map that has been received, or read back, is new. -/
def decodeGroups (order : Visits Int) (h : Memory) (groups : Groups) : Memory × Nat :=
  (h.makeMap.fill (fun _ k => groups.lookup k) (fun h names => h.makeSlice names) h.maps.length
    (rangeKeys order groups), h.maps.length)

/-- What `readSnapshot` makes, in the memory of a process that has been started. -/
def decodeState (order : Visits Int) (st : State) : RefState :=
  st.configs.foldl (fun refs config =>
    let (h, groups) := decodeGroups order refs.heap config.groups
    refs.appendConfig h ⟨config.num, config.shards, groups⟩) ⟨⟨[], []⟩, [], st.clientLastRequest⟩

theorem made_decodeGroups (order : Visits Int) (base : Memory) (servers : Nat) (config : Config) :
    Made base servers (decodeGroups order base config.groups).1
      ⟨config.num, config.shards, (decodeGroups order base config.groups).2⟩ config := by
  obtain ⟨hkept, hholds, hslices, hlookup⟩ :=
    Heap.fill_makeMap (P := From base servers) (fun _ k => config.groups.lookup k)
      (fun h names => h.makeSlice names) id
      (fun _ _ _ => rfl)
      (fun k names _ h hb => Heap.copyOf_makeSlice h names (.inr (.inl hb.arrays.length_le)))
      (rangeKeys order config.groups)
  refine ⟨hkept, Nat.le_refl _, hholds, hslices,
    congrArg (Config.mk config.num config.shards) ?_⟩
  refine Finmap.ext_lookup fun k => (hlookup k).trans ?_
  rw [lookup_rangeKeys, Option.map_id]
  rfl

theorem decodeState_read (order : Visits Int) (st : State) :
    (decodeState order st).read = st ∧ (decodeState order st).WellFormed := by
  have hloop : ∀ (configs : List Config) (refs : RefState), refs.WellFormed →
      let refs' := configs.foldl (fun refs config =>
        let (h, groups) := decodeGroups order refs.heap config.groups
        refs.appendConfig h ⟨config.num, config.shards, groups⟩) refs
      refs'.read = { refs.read with configs := refs.read.configs ++ configs } ∧
        refs'.WellFormed := by
    intro configs
    induction configs with
    | nil => exact fun refs hw => ⟨by simp, hw⟩
    | cons config configs ih =>
      intro refs hw
      obtain ⟨hread, honward⟩ := hw.append (made_decodeGroups order refs.heap 0 config)
      obtain ⟨hread', hw'⟩ := ih _ honward.wellFormed
      refine ⟨hread'.trans ?_, hw'⟩
      rw [hread]
      simp [State.appendConfig]
  obtain ⟨hread, hw⟩ := hloop st.configs ⟨⟨[], []⟩, [], st.clientLastRequest⟩
    ⟨fun c hc => absurd hc List.not_mem_nil, List.nodup_nil⟩
  exact ⟨hread, hw⟩

/-- A server with references: `arrived` are the maps of the operations that have been received,
and the snapshot has been encoded. -/
structure RefController where
  refs : RefState
  arrived : List Nat
  persisted : Option State
  produced : List Op

/-- What happens to it. -/
inductive RefAction
  /-- An operation is received. -/
  | arrive (order : Visits Int) (servers : Groups)
  /-- An operation is applied, with map number `k` of those that have been received. -/
  | apply (runtime : Runtime) (op : Op) (k : Nat) (commandIndex : Int) (isLeader : Bool)
  | restart (order : Visits Int)

namespace RefController

/-- The server with values. -/
def read (c : RefController) : Controller := ⟨c.refs.read, c.persisted, c.produced⟩

/-- A server that is started for the first time. -/
def init (order : Visits Int) : RefController where
  refs := decodeState order (State.startServer none)
  arrived := []
  persisted := none
  produced := []

/-- The operation, with the value of its map. -/
def opAt (c : RefController) (op : Op) (servers : Nat) : Op :=
  { op with servers := c.refs.heap.read servers }

def step (c : RefController) : RefAction → Option RefController
  | .arrive order servers =>
    let (h, groups) := decodeGroups order c.refs.heap servers
    some { c with refs := { c.refs with heap := h }, arrived := c.arrived ++ [groups] }
  | .apply runtime op k _ _ => do
    let servers ← c.arrived[k]?
    let (refs, _) ← c.refs.applyOp runtime op servers
    return { c with
      refs
      persisted := some refs.read
      produced := if c.refs.read.changes op then c.produced ++ [c.opAt op servers] else c.produced }
  | .restart order => some { c with
      refs := decodeState order (State.startServer c.persisted)
      arrived := [] }

/-- A `Move` is of a shard that there is. -/
def InRange : RefAction → Prop
  | .apply _ op _ _ _ => op.type = .move → 0 ≤ op.shard ∧ op.shard < NShards
  | _ => True

/-- The process goes on. -/
def NoRestart : RefAction → Prop
  | .restart _ => False
  | _ => True

structure Inv (c : RefController) : Prop where
  wellFormed : c.refs.WellFormed
  arrived : ∀ m ∈ c.arrived, c.refs.heap.HoldsMap m

variable {c c' : RefController} {e : RefAction}

/-- What a step does, and what it reads as. -/
inductive Move (c : RefController) : RefAction → RefController → Prop
  | arrive {order : Visits Int} {servers : Groups} {c' : RefController}
      (hkept : c.refs.heap.Extends c'.refs.heap) (hconfigs : c'.refs.configs = c.refs.configs)
      (hread : c'.read = c.read) : Move c (.arrive order servers) c'
  | apply {runtime : Runtime} {op : Op} {k servers : Nat} {commandIndex : Int} {isLeader : Bool}
      {c' : RefController} (hk : c.arrived[k]? = some servers)
      (honward : c.refs.Onward servers c'.refs)
      (hread : c.read.step (.apply (c.opAt op servers) commandIndex isLeader) = some c'.read) :
      Move c (.apply runtime op k commandIndex isLeader) c'
  | restart {order : Visits Int} {c' : RefController}
      (hread : c.read.step .restart = some c'.read) : Move c (.restart order) c'

theorem move_of_step (hinv : c.Inv) (he : c.step e = some c') : Move c e c' ∧ c'.Inv := by
  have hw := hinv.wellFormed
  cases e with
  | arrive order servers =>
    obtain rfl := Option.some.inj he
    have hm := made_decodeGroups order c.refs.heap 0 ⟨0, fun _ => 0, servers⟩
    refine ⟨.arrive hm.kept rfl ?_, ⟨fun config hc => (hw.holds config hc).mono hm.kept, hw.apart⟩,
      fun m hm' => ?_⟩
    · exact congrArg (fun configs =>
        (⟨⟨configs, c.refs.clientLastRequest⟩, c.persisted, c.produced⟩ : Controller))
        (hw.read_eq hm.kept)
    · rcases List.mem_append.mp hm' with hm' | hm'
      · exact (hinv.arrived m hm').mono hm.kept
      · rw [List.mem_singleton.mp hm']
        exact hm.holds
  | apply runtime op k commandIndex isLeader =>
    simp only [step, Option.bind_eq_bind, Option.bind_eq_some_iff] at he
    obtain ⟨servers, hk, ⟨refs, msg⟩, happly, he⟩ := he
    obtain rfl := Option.some.inj he
    have hs := hinv.arrived servers (List.mem_of_getElem? hk)
    rcases RefState.applyOp_same runtime hw hs op with
      ⟨hnone, -⟩ | ⟨refs', msg', hr, hv, honward, -⟩
    · exact absurd (hnone.symm.trans happly) (by simp)
    · obtain ⟨rfl, rfl⟩ := Prod.mk.inj (Option.some.inj (hr.symm.trans happly))
      refine ⟨.apply hk honward ?_, honward.wellFormed, fun m hm =>
        (hinv.arrived m hm).mono honward.kept⟩
      have hv' : c.read.state.applyOp (c.opAt op servers) =
          some (refs'.read, msg'.read refs'.heap) := hv
      simp only [Controller.step, State.handleCommandApply, hv', Option.bind_eq_bind,
        Option.bind_some, Option.pure_def]
      rfl
  | restart order =>
    obtain rfl := Option.some.inj he
    obtain ⟨hread, hw'⟩ := decodeState_read order (State.startServer c.persisted)
    refine ⟨.restart ?_, hw', fun _ hm => absurd hm List.not_mem_nil⟩
    simp only [read, Controller.step, hread]

/-- Where the server with values goes on, the one with references does so too. -/
theorem step_apply_isSome (hinv : c.Inv) (runtime : Runtime) {op : Op} {k servers : Nat}
    {commandIndex : Int} {isLeader : Bool} (hk : c.arrived[k]? = some servers)
    (h : (c.read.step (.apply (c.opAt op servers) commandIndex isLeader)).isSome) :
    (c.step (.apply runtime op k commandIndex isLeader)).isSome := by
  have hs := hinv.arrived servers (List.mem_of_getElem? hk)
  rcases RefState.applyOp_same runtime hinv.wellFormed hs op with
    ⟨-, hnone⟩ | ⟨refs', msg', hr, -, -, -⟩
  · simp [read, Controller.step, State.handleCommandApply, opAt, hnone] at h
  · simp [step, hk, hr]

theorem inv_init (order : Visits Int) : (init order).Inv :=
  ⟨(decodeState_read order _).2, fun _ hm => absurd hm List.not_mem_nil⟩

theorem read_init (order : Visits Int) : (init order).read = Controller.init := by
  rw [read, init, (decodeState_read order _).1]
  rfl

/-- **A run with references** reads as a run with values. -/
theorem exists_trace_read (order : Visits Int) {past : List RefController}
    (h : Trace step (fun _ e => InRange e) (init order) (c :: past)) :
    c.Inv ∧ ∃ past', Trace Controller.step (fun _ e => e.InRange) Controller.init
      (c.read :: past') := by
  have hall := Trace.induction (P := fun tr => ∀ c past, tr = c :: past → c.Inv ∧ ∃ past',
      Trace Controller.step (fun _ e => e.InRange) Controller.init (c.read :: past'))
    (fun c past heq => by
      obtain ⟨rfl, -⟩ := List.cons.inj heq
      exact ⟨inv_init order, [], read_init order ▸ .init⟩)
    (fun s s' e tr _ ih hok he c past heq => by
      obtain ⟨rfl, rfl⟩ := List.cons.inj heq
      obtain ⟨hinv, past', ht⟩ := ih s tr rfl
      obtain ⟨hm, hinv'⟩ := move_of_step hinv he
      refine ⟨hinv', ?_⟩
      cases hm with
      | arrive _ _ hread => exact ⟨past', hread ▸ ht⟩
      | apply _ _ hread => exact ⟨_, .step ht (by exact hok) hread⟩
      | restart hread => exact ⟨_, .step ht (show Action.InRange .restart from trivial) hread⟩) _ h
  exact hall c past rfl

/-- **Nothing that a configuration refers to is ever written**, while the process goes on, and no
two configurations share a map. -/
theorem kept_without_restart {c₀ : RefController} (hinv : c₀.Inv) {past : List RefController}
    (h : Trace step (fun _ e => NoRestart e) c₀ (c :: past)) :
    c₀.refs.heap.Extends c.refs.heap ∧ c₀.refs.configs <+: c.refs.configs ∧
      (∀ config ∈ c₀.refs.configs, config.read c.refs.heap = config.read c₀.refs.heap) ∧
      (c.refs.configs.map ConfigRef.groups).Nodup := by
  have hall := Trace.invariant
    (I := fun c => c.Inv ∧ c₀.refs.heap.Extends c.refs.heap ∧ c₀.refs.configs <+: c.refs.configs)
    ⟨hinv, .refl _, List.prefix_rfl⟩
    (fun s s' e hs hok he => by
      obtain ⟨hinv, hext, hpre⟩ := hs
      obtain ⟨hm, hinv'⟩ := move_of_step hinv he
      refine ⟨hinv', ?_⟩
      cases hm with
      | arrive hkept hconfigs _ => exact ⟨hext.trans hkept, hconfigs ▸ hpre⟩
      | apply _ honward _ =>
        refine ⟨hext.trans honward.kept, ?_⟩
        rcases honward.configs with hc | ⟨newConfig, hc, -⟩
        · exact hc ▸ hpre
        · exact hc ▸ hpre.trans (List.prefix_append ..)
      | restart _ => exact absurd hok id) _ h
  obtain ⟨hinv', hext, hpre⟩ := hall c (List.mem_cons_self ..)
  refine ⟨hext, hpre, fun config hc => ?_, hinv'.wellFormed.apart⟩
  rw [ConfigRef.read, ConfigRef.read, (hinv.wellFormed.holds config hc).read_eq hext]

/-- Groups 1 and 2 join, and 1 leaves.  Configuration 1 has the slices of the operation in map 2,
and configuration 2 has copies of them in map 4, one of which is deleted again. -/
def sampleCopies : List RefAction :=
  let order : Visits Int := ⟨List.reverse, List.reverse_perm⟩
  let runtime : Runtime := ⟨fun _ => order, fun n => n⟩
  [.arrive order (Groups.ofList [(1, ["a", "b", "c"]), (2, ["d"])]),
    .apply runtime ⟨0, 0, .join, ∅, [], 0, 0, 0, 7, 1⟩ 0 1 true, .arrive order ∅,
    .apply runtime ⟨0, 0, .leave, ∅, [1], 0, 0, 0, 7, 2⟩ 1 2 true]

example : runEnds step (fun _ _ => True) (init ⟨id, fun _ => .refl _⟩) sampleCopies
    (fun c _ => decide (c.refs.configs.map ConfigRef.groups = [0, 2, 4] ∧
      (c.refs.configs.map fun config => (config.read c.refs.heap).groups) =
        [∅, Groups.ofList [(1, ["a", "b", "c"]), (2, ["d"])], Groups.ofList [(2, ["d"])]])) =
    true := by
  decide +kernel

end RefController

end ShardRaft.Ctrler
