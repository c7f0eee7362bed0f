import ShardRaft.Raft.Log

/-!
# Elections

`requestVotes.go`, with `becomeLeader` of `raftUtils.go`.  Every function here
is one section of the source that runs under `rf.mu`.

Two departures from the paper decide what an election means in this code.
`becomeLeader` raises the term once more, so a candidate of term `t` leads in
term `t + 1`, and it forgets the leader's own vote.  And the goroutines that
ask for votes build their arguments when they first take the lock, not when
`candidateGatherVotes` spawns them.
-/

namespace ShardRaft.Raft

/-- A goroutine spawned with `go` that has not taken `rf.mu` yet.
`handleSendRequestVote` is tagged with the term of the election that spawned
it; the code does not keep that tag, and no step reads it. -/
inductive Goroutine (n : Nat)
  | handleSendRequestVote (server : Fin n) (election : Int)
  | handleSendAppendEntries (server : Fin n)
  | handleSendInstallSnapshot (server : Fin n)
deriving DecidableEq, Repr

/-- `RequestVoteArgs`. -/
structure RequestVoteArgs (n : Nat) where
  term : Int
  candidateId : Fin n
  lastLogIndex : Int
  lastLogTerm : Int
deriving DecidableEq, Repr

/-- `RequestVoteReply`. -/
structure RequestVoteReply where
  term : Int
  voteGranted : Bool
deriving DecidableEq, Repr

namespace Peer

variable {n : Nat} {C D : Type}

/-- The peers other than `me`, in the order of `range rf.peers`. -/
def others (me : Fin n) : List (Fin n) := (List.finRange n).filter (· ≠ me)

/-- `broadcastAppendEntries`. -/
def broadcastAppendEntries (rf : Peer n C D) : List (Goroutine n) :=
  (others rf.me).map .handleSendAppendEntries

/-- `becomeLeader`: the term rises again, the vote is forgotten. -/
@[simps!] def becomeLeader (rf : Peer n C D) : Peer n C D × List (Goroutine n) :=
  let rf := { rf with
    status := .leader
    currentTerm := rf.currentTerm + 1
    votedFor := none
    numVoteGathered := 0
    nextIndex := List.replicate n (rf.getLastLogEntryIndex + 1)
    matchIndex := List.replicate n (-1) }
  (rf.persist, rf.broadcastAppendEntries)

/-- `candidateGatherVotes`. -/
def candidateGatherVotes (rf : Peer n C D) : List (Goroutine n) :=
  (others rf.me).map (.handleSendRequestVote · rf.currentTerm)

/-- `startElection`. -/
def startElection (rf : Peer n C D) : Peer n C D × List (Goroutine n) :=
  let rf := rf.becomeCandidate
  (rf, rf.candidateGatherVotes)

/-- One round of `ticker`.  `timedOut` is `time.Now().After(nextElectionTimeout)`. -/
def ticker (rf : Peer n C D) (timedOut : Bool) : Peer n C D × List (Goroutine n) :=
  if rf.status = .leader then (rf, rf.broadcastAppendEntries)
  else if timedOut then rf.startElection
  else (rf, [])

/-! ### The receiver -/

/-- `RequestVote`, first step: a higher term takes the vote along, before the
logs are compared. -/
def adoptTerm (rf : Peer n C D) (args : RequestVoteArgs n) : Peer n C D :=
  if rf.currentTerm < args.term
  then rf.becomeFollower args.term (some args.candidateId) else rf

/-- `RequestVote`, second step: a candidate gives up its own election for an
up-to-date rival. -/
def yieldElection (rf : Peer n C D) (args : RequestVoteArgs n) : Peer n C D :=
  if rf.votedFor = some rf.me ∧ rf.status = .candidate
  then rf.becomeFollower args.term (some args.candidateId) else rf

/-- `RequestVote`, last step: grant the vote if it is free or already given to
this candidate. -/
def castVote (rf : Peer n C D) (args : RequestVoteArgs n) (reply : RequestVoteReply) :
    Peer n C D × RequestVoteReply :=
  let rf := if rf.hasntVote then rf.grandOtherVote args.candidateId else rf
  if rf.hasVotedFor (some args.candidateId) then
    let rf := rf.becomeFollower args.term (some args.candidateId)
    (rf, ⟨rf.currentTerm, true⟩)
  else (rf, reply)

/-- `RequestVote`. -/
def requestVote (rf : Peer n C D) (args : RequestVoteArgs n) :
    Option (Peer n C D × RequestVoteReply) := do
  let reply : RequestVoteReply := ⟨rf.currentTerm, false⟩
  if rf.currentTerm > args.term then
    return (rf, reply)
  let rf := rf.adoptTerm args
  let upToDate ← rf.candidateIsUpToDate args.lastLogTerm args.lastLogIndex
  if !upToDate then
    return (rf, reply)
  return (rf.yieldElection args).castVote args reply

/-! ### The sender -/

/-- `getRequestVoteArgs`. -/
def getRequestVoteArgs (rf : Peer n C D) : Option (RequestVoteArgs n) := do
  let lastLogTerm ← rf.getLastLogEntryTerm
  return ⟨rf.currentTerm, rf.me, rf.getLastLogEntryIndex, lastLogTerm⟩

/-- `checkElectionStatus`. -/
def checkElectionStatus (rf : Peer n C D) : Peer n C D × List (Goroutine n) :=
  if rf.status = .follower ∨ rf.status = .leader then (rf, [])
  else if rf.numVoteGathered > n / 2 then rf.becomeLeader
  else (rf, [])

/-- `handleSendRequestVote` from the moment the reply is there. -/
def handleRequestVoteReply (rf : Peer n C D) (reply : RequestVoteReply) :
    Peer n C D × List (Goroutine n) :=
  if reply.term > rf.currentTerm then (rf.becomeFollower reply.term none, [])
  else if reply.voteGranted && reply.term == rf.currentTerm then rf.gainVote.checkElectionStatus
  else rf.checkElectionStatus

end Peer

end ShardRaft.Raft
