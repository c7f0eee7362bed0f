import ShardRaft.Raft.ElectionSafety

/-!
# One step, seen from one peer

`Move` lists the steps of the cluster with everything they do.  Most results about single
peers need less: what a step does to the term, the vote, the role and the log of a peer.
`Turn` has one constructor for each way these four can change, and `turn_of_move` says
that there is no other, whatever the run.

`arises_of_move` does the same for what is under way; above all a request was under way
before, or one of three goroutines has just built it (`pending_of_move`).
-/

namespace ShardRaft.Raft

open ShardRaft.Lib

variable {n : Nat} {C D : Type}

namespace Peer

/-- The log and its boundary are the same. -/
structure SameLog (rf rf' : Peer n C D) : Prop where
  logs : rf'.logs = rf.logs
  amount : rf'.snapshotEntriesAmount = rf.snapshotEntriesAmount
  term : rf'.lastSnapshotTerm = rf.lastSnapshotTerm

/-- So are the term, the vote and the role. -/
structure Alike (rf rf' : Peer n C D) : Prop extends SameLog rf rf' where
  currentTerm : rf'.currentTerm = rf.currentTerm
  votedFor : rf'.votedFor = rf.votedFor
  status : rf'.status = rf.status

theorem SameLog.refl (rf : Peer n C D) : rf.SameLog rf := ⟨rfl, rfl, rfl⟩

theorem Alike.refl (rf : Peer n C D) : rf.Alike rf := ⟨.refl rf, rfl, rfl, rfl⟩

end Peer

namespace World

/-- What a step does to peer `i`, which is `rf'` afterwards. -/
inductive Turn (w : World n C D) (e : Event C D n) (i : Fin n) (rf' : Peer n C D) : Prop
  | rests : (w.rafts i).Alike rf' → Turn w e i rf'
  | follows : (w.rafts i).currentTerm < rf'.currentTerm → rf'.status = .follower →
      (w.rafts i).SameLog rf' → Turn w e i rf'
  | heeds : (w.picked e).bind heeded = some (i, rf'.currentTerm) →
      (w.rafts i).currentTerm ≤ rf'.currentTerm → rf'.status = .follower →
      (w.rafts i).SameLog rf' → Turn w e i rf'
  | overwrites (src : Fin n) (waiting : Bool) (args : AppendEntriesArgs n C) :
      w.picked e = some (.request src i (.appendEntries args) waiting) →
      (w.rafts i).currentTerm ≤ args.term → args.prevLogIndex ≠ -1 →
      ((w.rafts i).snapshotEntriesAmount : Int) ≤ args.prevLogIndex + 1 →
      args.prevLogIndex ≤ (w.rafts i).getLastLogEntryIndex →
      rf' = (w.rafts i).overwrite args → Turn w e i rf'
  | installs (src : Fin n) (waiting : Bool) (args : InstallSnapshotArgs n D) :
      w.picked e = some (.request src i (.installSnapshot args) waiting) →
      (w.rafts i).currentTerm ≤ args.term →
      ((w.rafts i).snapshotEntriesAmount : Int) ≤ args.lastIncludedIndex →
      rf'.currentTerm = args.term → rf'.status = .follower →
      rf'.logs = (w.rafts i).logs.drop
        (args.lastIncludedIndex + 1 - (w.rafts i).snapshotEntriesAmount).toNat →
      rf'.snapshotEntriesAmount = (args.lastIncludedIndex + 1).toNat →
      rf'.lastSnapshotTerm = args.lastIncludedTerm → Turn w e i rf'
  | grants (src : Fin n) (waiting : Bool) (args : RequestVoteArgs n) :
      w.picked e = some (.request src i (.requestVote args) waiting) →
      (w.rafts i).currentTerm ≤ args.term →
      ((w.rafts i).currentTerm = args.term → (w.rafts i).votedFor = none ∨
        (w.rafts i).votedFor = some args.candidateId ∨
        ((w.rafts i).votedFor = some (w.rafts i).me ∧ (w.rafts i).status = .candidate)) →
      rf'.currentTerm = args.term → rf'.votedFor = some args.candidateId →
      rf'.status = .follower → (w.rafts i).SameLog rf' → Turn w e i rf'
  | campaigns : (w.rafts i).status ≠ .leader → rf' = (w.rafts i).becomeCandidate → Turn w e i rf'
  | wins : (w.rafts i).status = .candidate → rf' = (w.rafts i).becomeLeader.1 → Turn w e i rf'
  | appends (command : C) : e = .start i command → (w.rafts i).status = .leader →
      rf' = ((w.rafts i).appendToLogEntries command).persist → Turn w e i rf'
  | compacts (index : Int) (a : LogEntity C) :
      ((w.rafts i).snapshotEntriesAmount : Int) ≤ index →
      (w.rafts i).logs[(index - (w.rafts i).snapshotEntriesAmount).toNat]? = some a →
      rf'.currentTerm = (w.rafts i).currentTerm → rf'.votedFor = (w.rafts i).votedFor →
      rf'.status = (w.rafts i).status →
      rf'.logs = (w.rafts i).logs.drop (index + 1 - (w.rafts i).snapshotEntriesAmount).toNat →
      rf'.snapshotEntriesAmount = (index + 1).toNat → rf'.lastSnapshotTerm = a.term →
      Turn w e i rf'
  | restarts : rf'.currentTerm = (w.rafts i).currentTerm → rf'.votedFor = (w.rafts i).votedFor →
      rf'.status = .follower → (w.rafts i).SameLog rf' → Turn w e i rf'

section turns

variable {w : World n C D} {e : Event C D n} {i : Fin n} {rf' : Peer n C D}

theorem Turn.same (w : World n C D) (e : Event C D n) (i : Fin n) : Turn w e i (w.rafts i) :=
  .rests (.refl _)

theorem Turn.update (h : Turn w e i rf') :
    ∀ j, Turn w e j (Function.update w.rafts i rf' j) := by
  intro j
  by_cases hj : j = i
  · rw [hj, Function.update_self]; exact h
  · rw [Function.update_of_ne hj]; exact .same w e j

theorem eq_task_of_picked {task : Task n C D} (h : w.picked e = some task) :
    ∃ k, e = .task k ∧ w.tasks[k]? = some task := by
  cases e with
  | task k => exact ⟨k, rfl, h⟩
  | _ => exact absurd h (by simp [picked])

theorem mem_of_picked {task : Task n C D} (h : w.picked e = some task) : task ∈ w.tasks := by
  obtain ⟨k, -, ht⟩ := eq_task_of_picked h
  exact List.mem_of_getElem? ht

theorem turn_vote {k : Nat} {src dst : Fin n} {waiting : Bool} {args : RequestVoteArgs n}
    {reply : RequestVoteReply} (ht : w.tasks[k]? = some (.request src dst (.requestVote args) waiting))
    (h : Peer.VoteOutcome (w.rafts dst) args rf' reply) : Turn w (.task k) dst rf' := by
  cases h with
  | stale _ => exact .same ..
  | refused hle =>
    by_cases hlt : (w.rafts dst).currentTerm < args.term
    · rw [Peer.adoptTerm, if_pos hlt]
      exact .follows hlt rfl ⟨rfl, rfl, rfl⟩
    · rw [Peer.adoptTerm, if_neg hlt]
      exact .same ..
  | granted hle hup hfree hrf =>
    rcases hrf with rfl | rfl
    · exact .grants src waiting args ht hle hfree rfl rfl rfl ⟨rfl, rfl, rfl⟩
    · exact .grants src waiting args ht hle hfree rfl rfl rfl ⟨rfl, rfl, rfl⟩

theorem turn_append {k : Nat} {src dst : Fin n} {waiting ok : Bool} {args : AppendEntriesArgs n C}
    {reply : AppendEntriesReply}
    (ht : w.tasks[k]? = some (.request src dst (.appendEntries args) waiting))
    (h : Peer.AppendOutcome (w.rafts dst) args rf' reply ok) : Turn w (.task k) dst rf' := by
  cases h with
  | stale _ => exact .same ..
  | refused hle _ =>
    exact .heeds (by simp [picked, ht, heeded]) hle rfl ⟨rfl, rfl, rfl⟩
  | accepted hle hne hlo hhi _ => exact .overwrites src waiting args ht hle hne hlo hhi rfl

theorem turn_install {k : Nat} {src dst : Fin n} {waiting : Bool} {args : InstallSnapshotArgs n D}
    (ht : w.tasks[k]? = some (.request src dst (.installSnapshot args) waiting))
    (h : Peer.InstallOutcome (w.rafts dst) args rf') : Turn w (.task k) dst rf' := by
  cases h with
  | stale _ => exact .same ..
  | ignored hle => exact .heeds (by simp [picked, ht, heeded]) hle rfl ⟨rfl, rfl, rfl⟩
  | installed hle hlo => exact .installs src waiting args ht hle hlo rfl rfl rfl rfl rfl

theorem turn_voteReply {reply : RequestVoteReply} {gs : List (Goroutine n)}
    (h : Peer.VoteReplyOutcome (w.rafts i) reply rf' gs) : Turn w e i rf' := by
  cases h with
  | higher hlt => exact .follows hlt rfl ⟨rfl, rfl, rfl⟩
  | same _ => exact .same ..
  | counted _ _ _ _ => exact .rests ⟨⟨rfl, rfl, rfl⟩, rfl, rfl, rfl⟩
  | elected hc _ _ => exact .wins hc rfl

theorem turn_appendReply {server : Fin n} {args : AppendEntriesArgs n C}
    {reply : AppendEntriesReply} {gs : List (Goroutine n)} {commit : Bool}
    (h : Peer.AppendReplyOutcome (w.rafts i) server args reply rf' gs commit) :
    Turn w e i rf' := by
  cases h with
  | tables _ => exact .rests ⟨⟨rfl, rfl, rfl⟩, rfl, rfl, rfl⟩
  | higher hlt => exact .follows hlt rfl ⟨rfl, rfl, rfl⟩
  | matched _ _ hu =>
    rcases Peer.leaderUpdateCommit_eq_some hu with rfl | ⟨c, -, -, rfl⟩
    · exact .rests ⟨⟨rfl, rfl, rfl⟩, rfl, rfl, rfl⟩
    · exact .rests ⟨⟨rfl, rfl, rfl⟩, rfl, rfl, rfl⟩

end turns

/-- **There are no other turns.** -/
theorem turn_of_move [Inhabited C] {w w' : World n C D} {e : Event C D n}
    (hh : ∀ i, Healthy i (w.rafts i)) (hm : Move w e w') : ∀ i, Turn w e i (w'.rafts i) := by
  cases hm with
  | heartbeat i _ => exact (Turn.same w _ i).update
  | idle i => exact (Turn.same w _ i).update
  | election i hl => exact Turn.update (.campaigns hl rfl)
  | start i command hl => exact Turn.update (.appends command rfl hl rfl)
  | snapshot i index data rf' ho =>
    refine Turn.update ?_
    cases ho with
    | ignored => exact .same ..
    | compacted hlo _ he => exact .compacts index _ hlo he rfl rfl rfl rfl rfl rfl
  | askVote k i server election _ => exact (Turn.same w _ i).update
  | sendAppend k i server rf' d _ ho =>
    refine Turn.update ?_
    cases ho with
    | installSnapshot => exact .rests ⟨⟨rfl, rfl, rfl⟩, rfl, rfl, rfl⟩
    | notLeader => exact .same ..
    | send _ _ => exact .same ..
  | sendInstall k i server _ => exact (Turn.same w _ i).update
  | vote k src dst waiting args rf' reply ht ho => exact (turn_vote ht ho).update
  | append k src dst waiting args rf' reply ok ht ho => exact (turn_append ht ho).update
  | install k src dst waiting args rf' reply ht ho => exact (turn_install ht ho).update
  | voteReply k src dst args reply rf' gs _ ho => exact (turn_voteReply ho).update
  | appendReply k src dst args reply rf' gs commit _ ho => exact (turn_appendReply ho).update
  | installReply k src dst args reply _ =>
    refine Turn.update ?_
    by_cases hlt : (w.rafts src).currentTerm < reply.term
    · rw [Peer.handleInstallSnapshotReply, if_pos hlt]
      exact .follows hlt rfl ⟨rfl, rfl, rfl⟩
    · rw [Peer.handleInstallSnapshotReply, if_neg hlt]
      exact .same ..
  | failRequest k src dst args _ =>
    exact Turn.update (.rests ⟨⟨rfl, rfl, rfl⟩, rfl, rfl, rfl⟩)
  | failAnswer k src dst args reply _ =>
    exact Turn.update (.rests ⟨⟨rfl, rfl, rfl⟩, rfl, rfl, rfl⟩)
  | collect k i next rf' msgs _ _ ho =>
    refine Turn.update ?_
    cases ho <;> exact .rests ⟨⟨rfl, rfl, rfl⟩, rfl, rfl, rfl⟩
  | send i next msg msgs _ => exact fun j => .same w _ j
  | release i next _ => exact fun j => .same w _ j
  | restart i =>
    refine Turn.update ?_
    have hd := make_getPersistData (hh i)
    exact .restarts (congrArg PersistData.currentTerm hd) (congrArg PersistData.votedFor hd)
      (make_status _ _) ⟨congrArg PersistData.logs hd,
        congrArg PersistData.snapshotEntriesAmount hd, congrArg PersistData.lastSnapshotTerm hd⟩

/-! ### Requests -/

/-- The step puts a request of `src` to `dst` on the network. -/
inductive Built (w : World n C D) (e : Event C D n) (src dst : Fin n) : Request n C D → Prop
  | requestVote (election : Int) :
      w.picked e = some (.goroutine src (.handleSendRequestVote dst election)) →
      Built w e src dst (.requestVote ⟨(w.rafts src).currentTerm, (w.rafts src).me,
        (w.rafts src).getLastLogEntryIndex, (w.rafts src).lastTerm⟩)
  | appendEntries (args : AppendEntriesArgs n C) :
      w.picked e = some (.goroutine src (.handleSendAppendEntries dst)) →
      (w.rafts src).status = .leader → (w.rafts src).SentBy args →
      Built w e src dst (.appendEntries args)
  | installSnapshot :
      w.picked e = some (.goroutine src (.handleSendInstallSnapshot dst)) →
      Built w e src dst (.installSnapshot (w.rafts src).createInstallSnapshotArgs)

/-- Where a task comes from. -/
inductive Arises (w : World n C D) (e : Event C D n) : Task n C D → Prop
  | old {task : Task n C D} : task ∈ w.tasks → Arises w e task
  | again {src dst : Fin n} {req : Request n C D} {waiting waiting' : Bool} :
      .request src dst req waiting ∈ w.tasks → Arises w e (.request src dst req waiting')
  | asks {i server : Fin n} {election : Int} : server ≠ i →
      Arises w e (.goroutine i (.handleSendRequestVote server election))
  | appends {i server : Fin n} : Arises w e (.goroutine i (.handleSendAppendEntries server))
  | installs {i server : Fin n} : Arises w e (.goroutine i (.handleSendInstallSnapshot server))
  | built {src dst : Fin n} {req : Request n C D} {waiting : Bool} : Built w e src dst req →
      Arises w e (.request src dst req waiting)
  | answers {src dst : Fin n} {ans : Answer n C D} : Arises w e (.answer src dst ans)
  | commits {i : Fin n} {next : Option (Fin n × Answer n C D)} : Arises w e (.commit i next)

section tasks

variable {w w' : World n C D} {e : Event C D n}

theorem arises_update {i : Fin n} {rf' : Peer n C D} {new : List (Task n C D)}
    (hnew : ∀ task ∈ new, Arises w e task) : ∀ task ∈ (w.update i rf' new).tasks, Arises w e task := by
  intro task h
  rcases mem_update h with h | h
  · exact .old h
  · exact hnew task h

theorem arises_take_update {k : Nat} {i : Fin n} {rf' : Peer n C D} {new : List (Task n C D)}
    (hnew : ∀ task ∈ new, Arises w e task) :
    ∀ task ∈ ((w.take k).update i rf' new).tasks, Arises w e task := by
  intro task h
  rcases mem_take_update h with h | h
  · exact .old h
  · exact hnew task h

theorem arises_singleton {task : Task n C D} (h : Arises w e task) :
    ∀ task' ∈ [task], Arises w e task' := by
  intro task' hmem
  rw [List.mem_singleton.mp hmem]
  exact h

theorem arises_spawn {i : Fin n} {gs : List (Goroutine n)}
    (h : ∀ server t, .handleSendRequestVote server t ∈ gs → server ≠ i) :
    ∀ task ∈ spawn i gs, Arises w e task := by
  intro task hmem
  obtain ⟨g, hg, rfl⟩ := List.mem_map.mp hmem
  cases g with
  | handleSendRequestVote server t => exact .asks (h server t hg)
  | handleSendAppendEntries server => exact .appends
  | handleSendInstallSnapshot server => exact .installs

theorem arises_answerIf {b : Bool} {i j : Fin n} {ans : Answer n C D} :
    ∀ task ∈ answerIf b i j ans, Arises w e task := by
  intro task hmem
  rw [mem_answerIf hmem]
  exact .answers

/-- **There are no other tasks.** -/
theorem arises_of_move [Inhabited C] (hh : ∀ i, Healthy i (w.rafts i)) (hm : Move w e w') :
    ∀ task ∈ w'.tasks, Arises w e task := by
  cases hm with
  | heartbeat i _ =>
    refine arises_update (arises_spawn ?_)
    intro server t hg
    exact absurd hg (by simp [Peer.broadcastAppendEntries])
  | idle i => exact arises_update (by simp)
  | election i _ =>
    refine arises_update (arises_spawn ?_)
    intro server t hg
    obtain ⟨s, hs, heq⟩ := List.mem_map.mp hg
    have hne : s ≠ (w.rafts i).me := by simpa [Peer.others] using hs
    cases heq
    rwa [(hh i).me] at hne
  | start i command _ => exact arises_update (by simp)
  | snapshot i index data rf' _ => exact arises_update (by simp)
  | askVote k i server election ht =>
    exact arises_take_update (arises_singleton (.built (.requestVote election ht)))
  | sendAppend k i server rf' d ht ho =>
    cases ho with
    | installSnapshot => exact arises_take_update (arises_singleton .installs)
    | notLeader => exact arises_take_update (by simp)
    | send hl hs =>
      exact arises_take_update (arises_singleton (.built (.appendEntries _ ht hl hs)))
  | sendInstall k i server ht =>
    exact arises_take_update (arises_singleton (.built (.installSnapshot ht)))
  | vote k i j b args rf' reply _ _ => exact arises_take_update arises_answerIf
  | append k i j b args rf' reply ok _ _ =>
    cases ok with
    | false => exact arises_take_update arises_answerIf
    | true => exact arises_take_update (arises_singleton .commits)
  | install k i j b args rf' reply _ _ => exact arises_take_update arises_answerIf
  | voteReply k i j args reply rf' gs _ ho =>
    refine arises_take_update (arises_spawn ?_)
    intro server t hg
    cases ho with
    | higher _ => exact absurd hg (by simp)
    | same _ => exact absurd hg (by simp)
    | counted _ _ _ _ => exact absurd hg (by simp)
    | elected _ _ _ => exact absurd hg (by simp [Peer.becomeLeader, Peer.broadcastAppendEntries])
  | appendReply k i j args reply rf' gs commit _ ho =>
    refine arises_take_update ?_
    intro task hmem
    rcases List.mem_append.mp hmem with hmem | hmem
    · refine arises_spawn ?_ task hmem
      intro server t hg
      cases ho with
      | tables hgs => exact absurd (hgs _ hg) (by simp)
      | higher _ => exact absurd hg (by simp)
      | matched _ _ _ => exact absurd hg (by simp)
    · cases commit with
      | false => exact absurd hmem (by simp)
      | true => exact arises_singleton .commits task hmem
  | installReply k i j args reply _ => exact arises_take_update (by simp)
  | failRequest k i j args ht =>
    exact arises_take_update (arises_singleton (.again (List.mem_of_getElem? ht)))
  | failAnswer k i j args reply _ => exact arises_take_update (by simp)
  | collect k i next rf' msgs _ _ _ =>
    intro task h
    have h : task ∈ ((w.take k).update i rf' []).tasks := h
    exact arises_take_update (by simp) task h
  | send i next msg msgs _ => exact fun task h => .old h
  | release i next _ =>
    intro task h
    rcases List.mem_append.mp h with h | h
    · exact .old h
    · obtain ⟨src, ans, -, rfl⟩ := mem_owed h
      exact .answers
  | restart i =>
    intro task h
    obtain ⟨task₀, ht, ha⟩ := List.mem_filterMap.mp h
    cases survives_of_afterCrash ha with
    | goroutine _ => exact .old ht
    | request => exact .again ht
    | answer _ => exact .old ht
    | commit _ _ => exact .commits

/-- The request is under way. -/
def Pending (w : World n C D) (src dst : Fin n) (req : Request n C D) : Prop :=
  ∃ waiting, .request src dst req waiting ∈ w.tasks

/-- A request under way was under way before, or has just been built. -/
theorem pending_of_move [Inhabited C] (hh : ∀ i, Healthy i (w.rafts i)) (hm : Move w e w')
    {src dst : Fin n} {req : Request n C D} (h : w'.Pending src dst req) :
    w.Pending src dst req ∨ Built w e src dst req := by
  obtain ⟨waiting, h⟩ := h
  cases arises_of_move hh hm _ h with
  | old ht => exact .inl ⟨waiting, ht⟩
  | again ht => exact .inl ⟨_, ht⟩
  | built hb => exact .inr hb

end tasks

end World

end ShardRaft.Raft
