import Mathlib.Data.List.Basic
import Mathlib.Data.List.FinRange
import Mathlib.Tactic.Common
import Mathlib.Tactic.Simps.Basic

/-!
# The state of a Raft peer

`raft/raft.go` keeps one peer in the struct `Raft`: a status, the five fields
that go to stable storage, the two volatile indices, and the leader's two
tables.  This file is that struct, the persister behind it, and the helpers of
`raftUtils.go` that move a peer between follower, candidate and leader.

A peer is one of `n` servers, so an id is a `Fin n` and the source's `-1` for
"has not voted" is `none`.  Commands and snapshot bytes are two type variables,
`C` and `D`; the filler entry `LogEntity{-1, -1}` at index `0` carries the
default command.  Indices and terms are `Int`, because the source really uses
`-1` for "no entry yet" (`commitIndex`, `lastApplied`, `lastSnapshotTerm`).

What the code persists it reads back with the same `labgob` calls in the same
order, so the stored bytes are kept here as the tuple of the values encoded.

Nothing in a locked section depends on a clock: `nextElectionTimeout` only
decides when the ticker starts an election, and the step relation of
`Raft/World.lean` lets it start one whenever the peer is not a leader.
-/

namespace ShardRaft.Raft

/-- `RaftStatus` of `raft.go`. -/
inductive RaftStatus
  | follower
  | candidate
  | leader
deriving DecidableEq, Repr

/-- A log entry: the term it was created in, and the command. -/
structure LogEntity (C : Type) where
  term : Int
  action : C
deriving DecidableEq, Repr

/-- `LogEntity{-1, -1}`, which `Make` puts at index `0`. -/
def filler {C : Type} [Inhabited C] : LogEntity C := ⟨-1, default⟩

/-- What a peer sends to the service.  The defaults are Go's zero values. -/
structure ApplyMsg (C D : Type) where
  commandValid : Bool := false
  command : Option C := none
  commandIndex : Int := 0
  snapshotValid : Bool := false
  snapshot : Option D := none
  snapshotTerm : Int := 0
  snapshotIndex : Int := 0
deriving DecidableEq, Repr

/-- The five values `getPersistData` encodes, in its order. -/
structure PersistData (n : Nat) (C : Type) where
  currentTerm : Int
  votedFor : Option (Fin n)
  logs : List (LogEntity C)
  snapshotEntriesAmount : Nat
  lastSnapshotTerm : Int
deriving DecidableEq, Repr

/-- `Persister` of `persister.go`.  `journal` lists every content the persister
has held since it was made, newest first; no code reads it. -/
structure Persister (n : Nat) (C D : Type) where
  raftstate : Option (PersistData n C)
  snapshot : Option D
  journal : List (PersistData n C × Option D)
deriving DecidableEq, Repr

namespace Persister

variable {n : Nat} {C D : Type}

/-- `MakePersister`: nothing stored yet. -/
def makePersister : Persister n C D := ⟨none, none, []⟩

/-- `SaveRaftState`: the snapshot stays what it was. -/
def saveRaftState (ps : Persister n C D) (state : PersistData n C) : Persister n C D :=
  ⟨some state, ps.snapshot, (state, ps.snapshot) :: ps.journal⟩

/-- `SaveStateAndSnapshot`: both at once. -/
def saveStateAndSnapshot (ps : Persister n C D) (state : PersistData n C) (snapshot : Option D) :
    Persister n C D :=
  ⟨some state, snapshot, (state, snapshot) :: ps.journal⟩

end Persister

/-- A Raft peer.  `nextIndex` and `matchIndex` are empty until the peer first
becomes leader, as Go's nil slices are. -/
structure Peer (n : Nat) (C D : Type) where
  me : Fin n
  status : RaftStatus
  numVoteGathered : Nat
  currentTerm : Int
  votedFor : Option (Fin n)
  logs : List (LogEntity C)
  snapshotEntriesAmount : Nat
  lastSnapshotTerm : Int
  commitIndex : Int
  lastApplied : Int
  nextIndex : List Int
  matchIndex : List Int
  persister : Persister n C D
deriving DecidableEq, Repr

namespace Peer

variable {n : Nat} {C D : Type}

/-- `getPersistData`. -/
@[simps!] def getPersistData (rf : Peer n C D) : PersistData n C :=
  ⟨rf.currentTerm, rf.votedFor, rf.logs, rf.snapshotEntriesAmount, rf.lastSnapshotTerm⟩

/-- `persist`. -/
@[simps!] def persist (rf : Peer n C D) : Peer n C D :=
  { rf with persister := rf.persister.saveRaftState rf.getPersistData }

/-- `persistAndSnapshot`. -/
@[simps!] def persistAndSnapshot (rf : Peer n C D) (snapshot : Option D) : Peer n C D :=
  { rf with persister := rf.persister.saveStateAndSnapshot rf.getPersistData snapshot }

/-- `readPersist`: an empty store leaves the fresh values in place. -/
def readPersist (rf : Peer n C D) : Option (PersistData n C) → Peer n C D
  | none => rf
  | some d =>
    { rf with
      currentTerm := d.currentTerm
      votedFor := d.votedFor
      logs := d.logs
      snapshotEntriesAmount := d.snapshotEntriesAmount
      lastSnapshotTerm := d.lastSnapshotTerm }

/-- The peer `Make` builds before it reads the persister. -/
@[simps] def fresh [Inhabited C] (me : Fin n) (persister : Persister n C D) : Peer n C D where
  me := me
  status := .follower
  numVoteGathered := 0
  currentTerm := 0
  votedFor := none
  logs := [filler]
  snapshotEntriesAmount := 0
  lastSnapshotTerm := -1
  commitIndex := -1
  lastApplied := -1
  nextIndex := []
  matchIndex := []
  persister := persister

/-- `Make`. -/
def make [Inhabited C] (me : Fin n) (persister : Persister n C D) : Peer n C D :=
  (fresh me persister).readPersist persister.raftstate

/-! ### `raftUtils.go` -/

/-- `grandOtherVote`.  It does not persist; its caller does. -/
@[simps!] def grandOtherVote (rf : Peer n C D) (voteForId : Fin n) : Peer n C D :=
  { rf with votedFor := some voteForId }

/-- `hasVotedFor`; `none` is the source's `-1`. -/
def hasVotedFor (rf : Peer n C D) (candidateId : Option (Fin n)) : Bool :=
  rf.votedFor == candidateId

/-- `hasntVote`. -/
def hasntVote (rf : Peer n C D) : Bool := rf.hasVotedFor none

/-- `becomeCandidate`. -/
@[simps!] def becomeCandidate (rf : Peer n C D) : Peer n C D :=
  persist { rf with
    currentTerm := rf.currentTerm + 1
    status := .candidate
    votedFor := some rf.me
    numVoteGathered := 1 }

/-- `becomeFollower`. -/
@[simps!] def becomeFollower (rf : Peer n C D) (newTerm : Int) (votedForId : Option (Fin n)) :
    Peer n C D :=
  persist { rf with
    currentTerm := newTerm
    votedFor := votedForId
    status := .follower
    numVoteGathered := 0 }

/-- `gainVote`. -/
def gainVote (rf : Peer n C D) : Peer n C D :=
  if rf.status = .candidate then { rf with numVoteGathered := rf.numVoteGathered + 1 } else rf

end Peer

end ShardRaft.Raft
