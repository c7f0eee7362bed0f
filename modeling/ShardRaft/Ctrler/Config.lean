import Mathlib.Data.Finmap
import Mathlib.Data.List.FinRange
import Mathlib.Data.List.Sort
import Mathlib.Data.Fintype.Basic
import Mathlib.Tactic.Common

/-!
# Configurations and their rebalancing

The shard assignment of `shardctrler`: `Config` of `common.go` and the functions
of `util.go` that fill and rebalance it.

A Go map is a `Finmap`, so no function here can depend on the order in which a
map is ranged over: `getSortedKeys` sorts the keys whatever order they come in.
`redistributeShards` is a loop without a bound; `none` says that it has not ended
after `fuel` turns.
-/

namespace ShardRaft.Ctrler

/-- `NShards`. -/
def NShards : Nat := 10

theorem NShards_pos : 0 < NShards := by decide

/-- `map[int][]string`: the servers of each group. -/
abbrev Groups := Finmap fun _ : Int => List String

/-- `Config`. -/
structure Config where
  num : Int
  shards : Fin NShards → Int
  groups : Groups
deriving DecidableEq

/-- The groups of a list of pairs, as a map literal has them. -/
def Groups.ofList (l : List (Int × List String)) : Groups :=
  l.foldl (fun groups kv => groups.insert kv.1 kv.2) ∅

/-- `sort.Ints`, on keys in any order. -/
def sortInts (keys : Multiset Int) : List Int :=
  Quot.liftOn keys (fun l => l.insertionSort (· ≤ ·)) fun l l' h =>
    List.Perm.eq_of_pairwise (fun _ _ _ _ => le_antisymm)
      (List.pairwise_insertionSort (· ≤ ·) l) (List.pairwise_insertionSort (· ≤ ·) l')
      (((List.perm_insertionSort (· ≤ ·) l).trans h).trans
        (List.perm_insertionSort (· ≤ ·) l').symm)

/-- `getSortedKeys`. -/
def getSortedKeys (curMap : Groups) : List Int := sortInts curMap.keys.val

/-- `contains`. -/
def contains (intArray : List Int) (target : Int) : Bool := intArray.any (· = target)

namespace Config

/-- `makeShallowCopyConfig` makes an equal value, and `makeNextConfig` gives it the next number.
That the copy shares no map and no slice is for `ConfigRef.makeNextConfig` to show. -/
def makeNextConfig (latest : Config) : Config := { latest with num := latest.num + 1 }

/-- One turn of the loop of `assignVoidShards`; `curInd` is always below `keys.length`. -/
def assignVoidShard (keys : List Int) (acc : (Fin NShards → Int) × Nat) (k : Fin NShards) :
    (Fin NShards → Int) × Nat :=
  if acc.1 k ≤ 0 then
    (Function.update acc.1 k ((keys[acc.2]?).getD 0), (acc.2 + 1) % keys.length)
  else acc

/-- `assignVoidShards`. -/
def assignVoidShards (config : Config) : Config :=
  let keys := getSortedKeys config.groups
  if keys.length = 0 then config else
    { config with
      shards := ((List.finRange NShards).foldl (assignVoidShard keys) (config.shards, 0)).1 }

/-- `counts[g]`. -/
def count (config : Config) (g : Int) : Nat :=
  (List.finRange NShards).countP fun k => config.shards k = g

/-- What `getMinMaxGroup` keeps while it goes over the groups. -/
structure MinMax where
  min : Int
  minGroup : Int
  max : Int
  maxGroup : Int
deriving DecidableEq, Repr

/-- One turn of the loop of `getMinMaxGroup`. -/
def minMaxStep (config : Config) (acc : MinMax) (g : Int) : MinMax :=
  let acc := if (config.count g : Int) > acc.max then
      { acc with maxGroup := g, max := config.count g } else acc
  if (config.count g : Int) < acc.min then
    { acc with minGroup := g, min := config.count g } else acc

/-- `getMinMaxGroup`. -/
def getMinMaxGroup (config : Config) : MinMax :=
  (getSortedKeys config.groups).foldl config.minMaxStep ⟨257, 0, 0, 0⟩

/-- The inner loop of `redistributeShards`: the first shard of `maxGroup` changes hands. -/
def moveShard (config : Config) (maxGroup minGroup : Int) : Config :=
  match (List.finRange NShards).find? fun k => config.shards k = maxGroup with
  | some k => { config with shards := Function.update config.shards k minGroup }
  | none => config

/-- The loop of `redistributeShards`, for at most `fuel` turns. -/
def redistributeLoop : Nat → Config → Option Config
  | 0, _ => none
  | fuel + 1, config =>
    let m := config.getMinMaxGroup
    if m.max - m.min > 1 then redistributeLoop fuel (config.moveShard m.maxGroup m.minGroup)
    else some config

/-- `redistributeShards`. -/
def redistributeShards (config : Config) : Option Config :=
  redistributeLoop (NShards * NShards + 1) config

/-- `redistributeShards`, when there is more than one group. -/
def redistribute (config : Config) : Option Config :=
  if config.groups.keys.card > 1 then config.redistributeShards else some config

end Config

end ShardRaft.Ctrler
