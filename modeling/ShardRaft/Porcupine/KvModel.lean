import ShardRaft.Lib.Locality
import ShardRaft.Porcupine.Nodes

/-!
# The model of the key/value store

`KvModel` (`models/kv.go`) is what the tests check the key/value services against.  It is the
model of one key: a history is cut into the histories of its keys, in which the model begins
with the empty string.
-/

namespace ShardRaft.Porcupine

open Lib

/-- `KvInput`; `op` is 0 for a get, 1 for a put and 2 for an append. -/
structure KvInput where
  op : UInt8
  key : String
  value : String
deriving DecidableEq

/-- `KvOutput`. -/
structure KvOutput where
  value : String
deriving DecidableEq

/-- An operation on the key/value store. -/
abbrev KvOperation := Operation KvInput KvOutput

namespace KvModel

/-- The keys of the map that `Partition` makes, after `sort.Strings`. -/
def keys (history : List KvOperation) : List String :=
  (history.map fun v => v.input.key).dedup.insertionSort (· ≤ ·)

/-- `Partition`: each key has its operations in the order of the history. -/
def partition (history : List KvOperation) : List (List KvOperation) :=
  (keys history).map fun k => on (fun v : KvOperation => v.input.key) k history

/-- `Step`. -/
def step (st : String) (inp : KvInput) (out : KvOutput) : Bool × String :=
  if inp.op = 0 then (decide (out.value = st), st)
  else if inp.op = 1 then (true, inp.value)
  else (true, st ++ inp.value)

end KvModel

/-- `KvModel`, with the default `Equal`. -/
def KvModel : Model KvInput KvOutput String where
  partition := KvModel.partition
  init := ""
  step := KvModel.step
  equal := ShallowEqual

/-- A `Put`, as the tests record it. -/
def samplePut (key value : String) (call ret : Int) : KvOperation :=
  { input := ⟨1, key, value⟩, call, output := ⟨""⟩, ret }

/-- A `Get`, as the tests record it. -/
def sampleGet (key value : String) (call ret : Int) : KvOperation :=
  { input := ⟨0, key, ""⟩, call, output := ⟨value⟩, ret }

/-- The value is read while it is written, and after that the old one. -/
def sampleStale : List KvOperation :=
  [samplePut "a" "x" 0 10, sampleGet "a" "" 1 3, sampleGet "a" "x" 4 6, sampleGet "a" "" 7 9]

/-- The same, and another key with nothing wrong. -/
def sampleTwoKeys : List KvOperation :=
  sampleStale ++ [samplePut "b" "y" 11 12, sampleGet "b" "y" 13 14]

end ShardRaft.Porcupine
