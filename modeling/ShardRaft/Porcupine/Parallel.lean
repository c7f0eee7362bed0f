import Mathlib.Data.List.Dedup
import ShardRaft.Lib.Lists
import ShardRaft.Lib.Trace
import ShardRaft.Porcupine.Checker

/-!
# The partitions are checked in parallel

`checkParallel` starts a goroutine for each partition and takes their results from a channel.
When one is bad, or the time is up, it stops the goroutines that are left by a flag, which they
read in each turn of their loop.  An event is one turn of a goroutine, a result that the caller
takes from the channel, or the timeout.

What it returns besides is made of `longest`: for each partition the sequences in it, each once
and in the order in which `range` visits a set (`Check.partialLinearizations`).  A goroutine that
panics ends the process: there is no such event.
-/

namespace ShardRaft.Porcupine

open Lib

variable {ι ω σ : Type}

/-- `CheckResult`. -/
inductive CheckResult
  | unknown
  | ok
  | illegal
deriving DecidableEq, Repr

/-- One turn of the loop of `checkSingle`: it looks for the end, and then at `kill`. -/
def Search.turn (model : Model ι ω σ) (computePartial kill : Bool) (s : Search ι ω σ) :
    Option (Search ι ω σ ⊕ Bool × Longest) :=
  if (s.memory s.headEntry).next ≠ none ∧ kill then some (.inr (false, s.longest))
  else s.iterate model computePartial

/-- A goroutine of `checkParallel`. -/
inductive Goroutine (ι ω σ : Type)
  | running (s : Search ι ω σ)
  | returned

/-- Where the caller is: in the loop with `select`, in the loop that waits for all goroutines,
or back. -/
inductive Phase
  | selecting
  | waiting
  | returned
deriving DecidableEq, Repr

/-- A call of `checkParallel`. -/
structure Check (ι ω σ : Type) where
  goroutines : List (Goroutine ι ω σ)
  longest : List (Option Longest)
  results : List Bool
  kill : Bool
  count : Nat
  ok : Bool
  timedOut : Bool
  phase : Phase

inductive Check.Event
  | turn (i : Nat)
  | receive
  | timeout
deriving DecidableEq, Repr

namespace Check

/-- What is done before the loop of `checkParallel`. -/
def start (model : Model ι ω σ) (history : List (List (Entry ι ω))) : Check ι ω σ where
  goroutines := history.map fun subhistory => .running (Search.start model subhistory)
  longest := List.replicate history.length none
  results := []
  kill := false
  count := 0
  ok := true
  timedOut := false
  phase := .selecting

/-- Behind the loop with `select`. -/
def leave (computeInfo : Bool) (c : Check ι ω σ) : Check ι ω σ :=
  { c with phase := if computeInfo && c.count < c.goroutines.length then .waiting else .returned }

/-- The goroutine of partition `i` makes a turn. -/
def turn (model : Model ι ω σ) (computeInfo : Bool) (c : Check ι ω σ) (i : Nat) :
    Option (Check ι ω σ) :=
  match c.goroutines[i]? with
  | some (.running s) =>
    match s.turn model computeInfo c.kill with
    | none => none
    | some (.inl s) => some { c with goroutines := c.goroutines.set i (.running s) }
    | some (.inr (ok, l)) => some { c with
        goroutines := c.goroutines.set i .returned
        longest := c.longest.set i (some l)
        results := c.results ++ [ok] }
  | _ => none

/-- The caller takes a result. -/
def receive (computeInfo : Bool) (c : Check ι ω σ) : Option (Check ι ω σ) :=
  match c.results with
  | [] => none
  | result :: results =>
    let c := { c with results := results, count := c.count + 1 }
    match c.phase with
    | .selecting =>
      let c := { c with ok := c.ok && result }
      if !c.ok && !computeInfo then some (leave computeInfo { c with kill := true })
      else if c.count ≥ c.goroutines.length then some (leave computeInfo c)
      else some c
    | .waiting => some (leave computeInfo c)
    | .returned => none

/-- The time is up. -/
def expire (computeInfo : Bool) (timeout : Int) (c : Check ι ω σ) : Option (Check ι ω σ) :=
  if c.phase = .selecting ∧ timeout > 0 then
    some (leave computeInfo { c with timedOut := true, kill := true })
  else none

def step (model : Model ι ω σ) (computeInfo : Bool) (timeout : Int) (c : Check ι ω σ) :
    Event → Option (Check ι ω σ)
  | .turn i => c.turn model computeInfo i
  | .receive => c.receive computeInfo
  | .timeout => c.expire computeInfo timeout

/-- What `checkParallel` returns. -/
def result (c : Check ι ω σ) : CheckResult :=
  if !c.ok then .illegal else if c.timedOut then .unknown else .ok

end Check

/-- What `checkParallel` makes of the `longest` of a partition.  The source has a set of pointers
to the sequences. -/
def partials (order : Visits (List Nat)) (longest : Longest) : List (List Nat) :=
  order.visit (longest.filterMap id).dedup

/-- The `partialLinearizations` that `checkParallel` returns. -/
def Check.partialLinearizations (computeInfo : Bool) (orders : Nat → Visits (List Nat))
    (c : Check ι ω σ) : List (List (List Nat)) :=
  if computeInfo then c.longest.mapIdx fun i longest => partials (orders i) (longest.getD [])
  else []

example : partials ⟨List.reverse, List.reverse_perm⟩ [some [1, 0], some [1, 0], some [2], none] =
    [[2], [1, 0]] := by decide

theorem mem_partials {order : Visits (List Nat)} {longest : Longest} {seq : List Nat} :
    seq ∈ partials order longest ↔ some seq ∈ longest := by
  rw [partials, (order.perm _).mem_iff, List.mem_dedup, List.mem_filterMap]
  simp

theorem nodup_partials (order : Visits (List Nat)) (longest : Longest) :
    (partials order longest).Nodup :=
  (order.perm _).nodup_iff.mpr (List.nodup_dedup _)

/-- `checkOperations`, up to its return. -/
def checkOperations (byTime : SortByTime ι ω) (model : Model ι ω σ)
    (history : List (Operation ι ω)) : Check ι ω σ :=
  Check.start model ((model.partition history).map (makeEntries byTime))

end ShardRaft.Porcupine
