import ShardRaft.Raft.Election

/-!
# Replication, compaction and commit

`appendEntities.go`, `installSnapshot.go` and `commitAndApplyUtils.go`, one
definition for each section that runs under `rf.mu`.  A function that may end
in `log.Fatalf`, or index a nil slice, returns `none` there.

* `appendEntriesWithLock`: the follower's side.  Once `PrevLogIndex` matches,
  everything after it is removed and the entries of the request are appended,
  whether or not the two differ.
* `handleAppendEntriesReply`: the leader's side.  It looks at the status, not
  at the term the request was sent in.
* `leaderUpdateCommit`, `commitToApplyChannelWithLock`: what is committed, and
  which messages that makes.
* `snapshot`, `installSnapshotLocked`: the two ways the boundary moves.
-/

namespace ShardRaft.Raft

/-- `AppendEntriesArgs`. -/
structure AppendEntriesArgs (n : Nat) (C : Type) where
  term : Int
  leaderId : Fin n
  prevLogIndex : Int
  prevLogTerm : Int
  entries : List (LogEntity C)
  leaderCommit : Int
deriving DecidableEq, Repr

/-- `AppendEntriesReply`. -/
structure AppendEntriesReply where
  term : Int
  success : Bool
  inSnapshot : Bool := false
  snapshotAmount : Int := 0
deriving DecidableEq, Repr

/-- `InstallSnapshotArgs`. -/
structure InstallSnapshotArgs (n : Nat) (D : Type) where
  term : Int
  leaderId : Fin n
  lastIncludedIndex : Int
  lastIncludedTerm : Int
  data : Option D
deriving DecidableEq, Repr

/-- `InstallSnapshotReply`. -/
structure InstallSnapshotReply where
  term : Int
deriving DecidableEq, Repr

namespace Peer

variable {n : Nat} {C D : Type}

/-- `Start`.  The three results, and the peer afterwards. -/
def start (rf : Peer n C D) (command : C) : Peer n C D × Int × Int × Bool :=
  let index := rf.getLastLogEntryIndex + 1
  if rf.status ≠ .leader then (rf, index, rf.currentTerm, false)
  else ((rf.appendToLogEntries command).persist, index, rf.currentTerm, true)

/-! ### Committing -/

/-- The inner loop of `leaderUpdateCommit`: the leader and every other peer
whose `matchIndex` has reached `i`. -/
def commitCount (rf : Peer n C D) (i : Int) : Option Nat :=
  (others rf.me).foldlM
    (fun count j => do
      let m ← rf.matchIndex[j.val]?
      return if m ≥ i then count + 1 else count)
    1

/-- The outer loop of `leaderUpdateCommit`, over the offsets still to visit. -/
def commitScan (rf : Peer n C D) : List Nat → Int → Option Int
  | [], newCommitIndex => some newCommitIndex
  | j :: js, newCommitIndex => do
    let i ← rf.getIndexFromOffsetIndex j
    if i < newCommitIndex then
      rf.commitScan js newCommitIndex
    else
      let count ← rf.commitCount i
      let e ← rf.getLogEntryAtIndex i
      rf.commitScan js (if count > n / 2 ∧ e.term = rf.currentTerm then i else newCommitIndex)

/-- `leaderUpdateCommit`. -/
def leaderUpdateCommit (rf : Peer n C D) : Option (Peer n C D) := do
  let newCommitIndex ← rf.commitScan (List.range rf.getLogLengthWithoutSnapshot) rf.commitIndex
  if newCommitIndex < rf.commitIndex then none
  else if newCommitIndex > -1 ∧ rf.commitIndex ≠ newCommitIndex then
    let e ← rf.getLogEntryAtIndex newCommitIndex
    if e.term ≠ rf.currentTerm then none
    else return { rf with commitIndex := newCommitIndex }
  else return { rf with commitIndex := newCommitIndex }

/-- The message for index `i` in `commitToApplyChannelWithLock`.  The filler at
index `0` is not a valid command. -/
def commandMsg (rf : Peer n C D) (i : Int) : Option (ApplyMsg C D) := do
  let e ← rf.getLogEntryAtIndex i
  return { commandValid := i ≠ 0, command := some e.action, commandIndex := i }

/-- `commitToApplyChannelWithLock`. -/
def commitToApplyChannelWithLock (rf : Peer n C D) :
    Option (Peer n C D × List (ApplyMsg C D)) := do
  let rf := rf.persist
  if rf.lastApplied + 1 < rf.snapshotEntriesAmount then
    let msg : ApplyMsg C D := {
      snapshotValid := true
      snapshot := rf.persister.snapshot
      snapshotTerm := rf.lastSnapshotTerm
      snapshotIndex := rf.snapshotEntriesAmount - 1 }
    return ({ rf with lastApplied := rf.snapshotEntriesAmount - 1 }, [msg])
  if rf.lastApplied ≥ rf.commitIndex then
    return (rf, [])
  let msgs ← (List.range (rf.commitIndex - rf.lastApplied).toNat).mapM
    fun (k : Nat) => rf.commandMsg (rf.lastApplied + 1 + k)
  return ({ rf with lastApplied := rf.commitIndex }, msgs)

/-! ### `AppendEntries` -/

/-- The commit index follows the leader's, never backwards. -/
@[simps!] def followCommit (rf : Peer n C D) (leaderCommit : Int) : Peer n C D :=
  { rf with
    commitIndex := if rf.commitIndex < leaderCommit then leaderCommit else rf.commitIndex }

/-- `AppendEntriesWithLock`.  The last component is the Boolean it returns. -/
def appendEntriesWithLock (rf : Peer n C D) (args : AppendEntriesArgs n C) :
    Option (Peer n C D × AppendEntriesReply × Bool) := do
  if rf.currentTerm > args.term then
    return (rf, { term := rf.currentTerm, success := false }, false)
  -- also in the same term: whatever vote was given in it is forgotten
  let rf := (rf.becomeFollower args.term none).persist
  if args.prevLogIndex < (rf.snapshotEntriesAmount : Int) - 1 then
    return (rf, ⟨rf.currentTerm, false, true, rf.snapshotEntriesAmount⟩, false)
  if args.prevLogIndex > rf.getLastLogEntryIndex then
    return (rf, { term := rf.currentTerm, success := false }, false)
  let matches_ ← rf.logMatches args.prevLogTerm args.prevLogIndex
  if !matches_ then
    return (rf, { term := rf.currentTerm, success := false }, false)
  let rf ← rf.removeLogFromIndex args.prevLogIndex
  let rf := (rf.appendEntries args.entries).followCommit args.leaderCommit
  return (rf.persist, { term := rf.currentTerm, success := true }, true)

/-- `createAppendEntriesArgs`, with `nextIndex[server]` read by the caller. -/
def createAppendEntriesArgs (rf : Peer n C D) (next : Int) : Option (AppendEntriesArgs n C) := do
  let prevLogIndex := rf.getLogIndexBeforeIndex next
  let prevLogTerm ← rf.getLogTermAtIndex prevLogIndex
  let entries ← rf.getLogEntryStartingAt (prevLogIndex + 1)
  return {
    term := rf.currentTerm
    leaderId := rf.me
    prevLogIndex := prevLogIndex
    prevLogTerm := prevLogTerm
    entries := entries
    leaderCommit := rf.commitIndex }

/-- What the first locked section of `handleSendAppendEntries` decides. -/
inductive AppendDecision (n : Nat) (C : Type)
  | installSnapshot
  | notLeader
  | send (args : AppendEntriesArgs n C)
deriving DecidableEq, Repr

/-- `handleSendAppendEntries` up to the call.  The snapshot branch comes before
the test for leadership. -/
def handleSendAppendEntries (rf : Peer n C D) (server : Fin n) :
    Option (Peer n C D × AppendDecision n C) := do
  let next ← rf.nextIndex[server.val]?
  if next < rf.snapshotEntriesAmount then
    return ({ rf with nextIndex := rf.nextIndex.set server rf.snapshotEntriesAmount },
      .installSnapshot)
  if rf.status ≠ .leader then
    return (rf, .notLeader)
  let args ← rf.createAppendEntriesArgs next
  return (rf, .send args)

/-- The loop of the back-off: down to the start of the term `curTerm`, but not
below `1` or the boundary.  `fuel` is at least `preCurIndex`. -/
def backOff (rf : Peer n C D) (curTerm : Int) : Nat → Int → Option Int
  | 0, preCurIndex => some preCurIndex
  | fuel + 1, preCurIndex =>
    if preCurIndex > 1 ∧ preCurIndex > rf.snapshotEntriesAmount then do
      let e ← rf.getLogEntryAtIndex preCurIndex
      if e.term = curTerm then rf.backOff curTerm fuel (preCurIndex - 1) else return preCurIndex
    else some preCurIndex

/-- `matchIndex[server] = matched` and `nextIndex[server] = matched + 1`. -/
@[simps!] def setMatch (rf : Peer n C D) (server : Fin n) (matched : Int) : Peer n C D :=
  { rf with
    nextIndex := rf.nextIndex.set server (matched + 1)
    matchIndex := rf.matchIndex.set server matched }

/-- The back-off as a whole: the next `nextIndex` after a refused request. -/
def backOffIndex (rf : Peer n C D) (next : Int) : Option Int := do
  let next := next - 1
  let next := if next < rf.snapshotEntriesAmount then (rf.snapshotEntriesAmount : Int) else next
  let next := if next < 1 then 1 else next
  let curTerm ← rf.getLogTermAtIndex (next - 1)
  let preCurIndex ← rf.backOff curTerm (next - 1).toNat (next - 1)
  return preCurIndex + 1

/-- `handleSendAppendEntries` from the moment the reply is there.  The last
component says whether `commitToApplyChannel` is called next. -/
def handleAppendEntriesReply (rf : Peer n C D) (server : Fin n) (args : AppendEntriesArgs n C)
    (reply : AppendEntriesReply) : Option (Peer n C D × List (Goroutine n) × Bool) := do
  if rf.status ≠ .leader then
    return (rf, [], false)
  if reply.success then
    let _ ← rf.nextIndex[server.val]?
    let _ ← rf.matchIndex[server.val]?
    let rf ← (rf.setMatch server (args.prevLogIndex + args.entries.length)).leaderUpdateCommit
    return (rf, [], true)
  if reply.inSnapshot then
    let _ ← rf.nextIndex[server.val]?
    return ({ rf with nextIndex := rf.nextIndex.set server reply.snapshotAmount }, [], false)
  if rf.currentTerm < reply.term then
    return (rf.becomeFollower reply.term none, [], false)
  let next ← rf.nextIndex[server.val]?
  let next ← rf.backOffIndex next
  let spawned := if next ≤ rf.snapshotEntriesAmount ∧ rf.snapshotEntriesAmount > 0
    then [.handleSendInstallSnapshot server] else []
  return ({ rf with nextIndex := rf.nextIndex.set server next }, spawned, false)

/-! ### Snapshots -/

/-- The boundary moves to `amount`, and `logs` is what is left. -/
@[simps!] def moveBoundary (rf : Peer n C D) (term : Int) (logs : List (LogEntity C))
    (amount : Nat) : Peer n C D :=
  { rf with lastSnapshotTerm := term, logs := logs, snapshotEntriesAmount := amount }

/-- `Snapshot`: the service has everything up to `index` in `snapshot`. -/
def snapshot (rf : Peer n C D) (index : Int) (snapshot : D) : Option (Peer n C D) := do
  if (rf.snapshotEntriesAmount : Int) - 1 ≥ index ∨ index > rf.commitIndex then
    return rf
  let e ← rf.getLogEntryAtIndex index
  let logs ← rf.getLogEntryStartingAt (index + 1)
  let rf := { rf.moveBoundary e.term logs (index + 1).toNat with
    lastApplied := if index > rf.lastApplied then index else rf.lastApplied }
  return rf.persistAndSnapshot (some snapshot)

/-- `InstallSnapshotLocked`.  Whatever the log holds after the new boundary
stays.  The `ApplyMsg` the source also builds is dropped by its only caller. -/
def installSnapshotLocked (rf : Peer n C D) (args : InstallSnapshotArgs n D) :
    Option (Peer n C D × InstallSnapshotReply × Bool) := do
  if args.term < rf.currentTerm then
    return (rf, ⟨rf.currentTerm⟩, false)
  let rf := (rf.becomeFollower args.term none).persist
  let reply : InstallSnapshotReply := ⟨rf.currentTerm⟩
  if (rf.snapshotEntriesAmount : Int) > args.lastIncludedIndex then
    return (rf, reply, false)
  let logs ← rf.getLogEntryStartingAt (args.lastIncludedIndex + 1)
  let rf := rf.moveBoundary args.lastIncludedTerm logs (args.lastIncludedIndex + 1).toNat
  return (rf.persistAndSnapshot args.data, reply, true)

/-- `createInstallSnapshotArgs`.  Nothing here asks for leadership. -/
def createInstallSnapshotArgs (rf : Peer n C D) : InstallSnapshotArgs n D where
  term := rf.currentTerm
  leaderId := rf.me
  lastIncludedIndex := (rf.snapshotEntriesAmount : Int) - 1
  lastIncludedTerm := rf.lastSnapshotTerm
  data := rf.persister.snapshot

/-- `handleSendInstallSnapshot` when the call came back. -/
def handleInstallSnapshotReply (rf : Peer n C D) (reply : InstallSnapshotReply) : Peer n C D :=
  if rf.currentTerm < reply.term then rf.becomeFollower reply.term none else rf

/-- `handleSendInstallSnapshot` when the call failed: the tables are moved as
if the snapshot had arrived. -/
def handleInstallSnapshotFailure (rf : Peer n C D) (server : Fin n)
    (args : InstallSnapshotArgs n D) : Option (Peer n C D) := do
  let _ ← rf.nextIndex[server.val]?
  let _ ← rf.matchIndex[server.val]?
  return rf.setMatch server args.lastIncludedIndex

end Peer

end ShardRaft.Raft
