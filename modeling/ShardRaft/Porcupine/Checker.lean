import ShardRaft.Lib.Marks
import ShardRaft.Porcupine.Bitset
import ShardRaft.Porcupine.Nodes

/-!
# The search of the checker

`checkSingle` of `porcupine` looks for an order of the operations of a history in which the
model can carry them out.  It goes along the list of calls and returns; an operation that it
carries out is taken out of the list, and when it comes to a return, the operation carried out
last is put back.  What it has been at before, it finds in the cache.

`none` is the end of the process, by a `nil` dereference, an index out of range or a failed
type assertion.
-/

namespace ShardRaft.Porcupine

open Lib

variable {ι ω σ : Type}

/-- `cacheEntry`. -/
structure CacheEntry (σ : Type) where
  linearized : Bitset
  state : σ

/-- The cache, by hash. -/
abbrev Cache (σ : Type) := BitVec 64 → List (CacheEntry σ)

/-- `cacheContains`. -/
def cacheContains (model : Model ι ω σ) (cache : Cache σ) (entry : CacheEntry σ) : Bool :=
  (cache entry.linearized.hash).any fun elem =>
    entry.linearized.equals elem.linearized && model.equal entry.state elem.state

/-- `callsEntry`. -/
structure CallsEntry (σ : Type) where
  entry : Nat
  state : σ

/-- `longest`: for each operation, the longest order found that it is in. -/
abbrev Longest := List (Option (List Nat))

/-- The local variables of `checkSingle`; `calls` has its last element first. -/
structure Search (ι ω σ : Type) where
  headEntry : Nat
  memory : Memory ι ω
  entry : Option Nat
  linearized : Bitset
  cache : Cache σ
  calls : List (CallsEntry σ)
  longest : Longest
  state : σ

def Value.asInput : Value ι ω → Option ι
  | .input i => some i
  | .output _ => none

def Value.asOutput : Value ι ω → Option ω
  | .output o => some o
  | .input _ => none

/-- The loop over `calls` that keeps `longest` up to date. -/
def updateLongest (seq : List Nat) : List Nat → Longest → Option Longest
  | [], longest => some longest
  | id :: calls, longest => do
    let old ← longest[id]?
    updateLongest seq calls <|
      if old.all fun old => seq.length > old.length then longest.set id (some seq) else longest

namespace Search

/-- The `seq` that is made of `calls`. -/
def seq (s : Search ι ω σ) : List Nat :=
  (s.calls.map fun v => (s.memory v.entry).id.toNat).reverse

/-- One turn of the loop, where `kill` is not set: the search goes on, or has its result. -/
def iterate (model : Model ι ω σ) (computePartial : Bool) (s : Search ι ω σ) :
    Option (Search ι ω σ ⊕ Bool × Longest) :=
  if (s.memory s.headEntry).next = none then
    some (.inr (true, s.longest.map fun _ => some s.seq))
  else do
    let entry ← s.entry
    match (s.memory entry).matching with
    | some matching =>
      let input ← (s.memory entry).value.bind Value.asInput
      let output ← (s.memory matching).value.bind Value.asOutput
      let (ok, newState) := model.step s.state input output
      if ok then
        let newLinearized ← s.linearized.set (s.memory entry).id.toNat
        let newCacheEntry : CacheEntry σ := ⟨newLinearized, newState⟩
        if !cacheContains model s.cache newCacheEntry then
          let hash := newLinearized.hash
          let memory ← s.memory.lift entry
          return .inl { s with
            memory
            entry := (memory s.headEntry).next
            linearized := newLinearized
            cache := Function.update s.cache hash (s.cache hash ++ [newCacheEntry])
            calls := ⟨entry, s.state⟩ :: s.calls
            state := newState }
        else
          return .inl { s with entry := (s.memory entry).next }
      else
        return .inl { s with entry := (s.memory entry).next }
    | none =>
      match s.calls with
      | [] => return .inr (false, s.longest)
      | callsTop :: calls =>
        let longest ←
          if computePartial then updateLongest s.seq s.seq s.longest else some s.longest
        let linearized ← s.linearized.clear (s.memory callsTop.entry).id.toNat
        let memory ← s.memory.unlift callsTop.entry
        return .inl { s with
          memory
          entry := (memory callsTop.entry).next
          linearized
          calls
          longest
          state := callsTop.state }

/-- The loop; `fuel` bounds the number of its turns. -/
def loop (model : Model ι ω σ) (computePartial : Bool) :
    Nat → Search ι ω σ → Option (Bool × Longest)
  | 0, _ => none
  | fuel + 1, s =>
    match s.iterate model computePartial with
    | none => none
    | some (.inl s) => loop model computePartial fuel s
    | some (.inr result) => some result

/-- What is done before the loop. -/
def start (model : Model ι ω σ) (history : List (Entry ι ω)) : Search ι ω σ :=
  let l := makeLinkedEntries history
  let n := l.memory.length history.length l.root / 2
  let headEntry := history.length
  let memory := (l.memory.update headEntry headNode).insertBefore headEntry l.root
  { headEntry
    memory
    entry := l.root
    linearized := Bitset.newBitset n
    cache := fun _ => []
    calls := []
    longest := List.replicate n none
    state := model.init }

end Search

/-- `checkSingle`. -/
def checkSingle (fuel : Nat) (model : Model ι ω σ) (history : List (Entry ι ω))
    (computePartial : Bool) : Option (Bool × Longest) :=
  (Search.start model history).loop model computePartial fuel

end ShardRaft.Porcupine
