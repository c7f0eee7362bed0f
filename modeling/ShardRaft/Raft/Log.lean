import ShardRaft.Raft.State

/-!
# The log and its snapshot boundary

`logUtils.go`.  A peer keeps only the part of its log after the last snapshot:
`logs` starts at index `snapshotEntriesAmount`, and of the entry just before
that only the term is left, in `lastSnapshotTerm`.  Every function here takes
the index the service sees and shifts it by `snapshotEntriesAmount`.

`log.Fatalf` ends the process, so a function that may call it returns an
`Option` and `none` is the abort.
-/

namespace ShardRaft.Raft

namespace Peer

variable {n : Nat} {C D : Type}

/-- `getLastLogEntryIndex`. -/
def getLastLogEntryIndex (rf : Peer n C D) : Int :=
  (rf.logs.length : Int) - 1 + rf.snapshotEntriesAmount

/-- `getLogLengthWithoutSnapshot`. -/
def getLogLengthWithoutSnapshot (rf : Peer n C D) : Nat := rf.logs.length

/-- `logIndexCheck`: `none` where the source calls `log.Fatalf`. -/
def logIndexCheck (rf : Peer n C D) (index : Int) (lowerBoundCheck upperBoundCheck : Bool) :
    Option Unit :=
  if lowerBoundCheck && decide (index < rf.snapshotEntriesAmount) then none
  else if upperBoundCheck && decide (rf.getLastLogEntryIndex < index) then none
  else some ()

/-- `getLogIndexBeforeIndex`. -/
def getLogIndexBeforeIndex (_rf : Peer n C D) (index : Int) : Int :=
  if index = -1 then -1 else index - 1

/-- `getOffsetIndex`. -/
def getOffsetIndex (rf : Peer n C D) (index : Int) : Int := index - rf.snapshotEntriesAmount

/-- `getIndexFromOffsetIndex`. -/
def getIndexFromOffsetIndex (rf : Peer n C D) (offsetIndex : Int) : Option Int := do
  let index := offsetIndex + rf.snapshotEntriesAmount
  rf.logIndexCheck index true true
  return index

/-- `getLogEntryAtIndex`. -/
def getLogEntryAtIndex (rf : Peer n C D) (index : Int) : Option (LogEntity C) := do
  rf.logIndexCheck index true true
  if index = -1 then none
  else rf.logs[(rf.getOffsetIndex index).toNat]?

/-- `getLogTermAtIndex`: the boundary entry's term is `lastSnapshotTerm`. -/
def getLogTermAtIndex (rf : Peer n C D) (index : Int) : Option Int := do
  if index + 1 = rf.snapshotEntriesAmount then
    return rf.lastSnapshotTerm
  rf.logIndexCheck index true true
  let e ← rf.getLogEntryAtIndex index
  return e.term

/-- `getLastLogEntryTerm`. -/
def getLastLogEntryTerm (rf : Peer n C D) : Option Int := do
  if rf.logs.length = 0 then
    return rf.lastSnapshotTerm
  let e ← rf.getLogEntryAtIndex rf.getLastLogEntryIndex
  return e.term

/-- `candidateIsUpToDate`. -/
def candidateIsUpToDate (rf : Peer n C D) (candidateLastTerm candidateLastIndex : Int) :
    Option Bool := do
  let lastTerm ← rf.getLastLogEntryTerm
  if candidateLastTerm > lastTerm then
    return true
  if candidateLastTerm = lastTerm ∧ candidateLastIndex ≥ rf.getLastLogEntryIndex then
    return true
  return false

/-- `removeLogFromIndex`: what comes after `index` goes. -/
def removeLogFromIndex (rf : Peer n C D) (index : Int) : Option (Peer n C D) := do
  let _ ← (if index + 1 ≠ rf.snapshotEntriesAmount
    then rf.logIndexCheck index true true else some ())
  if index = -1 then none
  else return { rf with logs := rf.logs.take (rf.getOffsetIndex index + 1).toNat }

/-- `logMatches`. -/
def logMatches (rf : Peer n C D) (term index : Int) : Option Bool := do
  rf.logIndexCheck index false true
  if index = -1 then
    return true
  if index > rf.getLastLogEntryIndex then
    return false
  let t ← rf.getLogTermAtIndex index
  return t == term

/-- `appendToLogEntries`. -/
@[simps!] def appendToLogEntries (rf : Peer n C D) (command : C) : Peer n C D :=
  { rf with logs := rf.logs ++ [⟨rf.currentTerm, command⟩] }

/-- `getLogEntryStartingAt`. -/
def getLogEntryStartingAt (rf : Peer n C D) (index : Int) : Option (List (LogEntity C)) := do
  rf.logIndexCheck index true false
  if rf.getOffsetIndex index + 1 > rf.logs.length then
    return []
  return rf.logs.drop (rf.getOffsetIndex index).toNat

/-- `appendEntries`. -/
@[simps!] def appendEntries (rf : Peer n C D) (entries : List (LogEntity C)) : Peer n C D :=
  { rf with logs := rf.logs ++ entries }

end Peer

end ShardRaft.Raft
