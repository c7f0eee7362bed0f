import ShardRaft.Raft.BackOff
import ShardRaft.Raft.Entries

/-!
# The bounds of `nextIndex`

`nextIndex` is written in six places: a new leader starts behind its last entry; a success,
an `InSnapshot` answer, a refused request and a failed `InstallSnapshot` call each move it;
and `handleSendAppendEntries` lifts it to the boundary before it sends a snapshot.
`Written` lists the last five with the task that causes them.

No write goes below `1`: this rests on what is under way (`TaskFits`), for a request never
starts before index `0` and an answer never names an empty snapshot.

The end of the log is another matter.  The answer of a follower may be to a request of an
earlier leadership, when the log was longer, or name a snapshot the leader does not reach.
The code looks at neither, so `nextIndex` stays inside the log exactly when these answers
happen to fit (`NextFits`); and as long as it does nothing of `handleSendAppendEntries`
aborts.
-/

namespace ShardRaft.Raft

open ShardRaft.Lib

variable {n : Nat} {C D : Type}

namespace Peer

theorem appendEntriesWithLock_inSnapshot {rf rf' : Peer n C D} {args : AppendEntriesArgs n C}
    {reply : AppendEntriesReply} {ok : Bool}
    (h : rf.appendEntriesWithLock args = some (rf', reply, ok)) (hin : reply.inSnapshot = true) :
    args.prevLogIndex + 1 < reply.snapshotAmount := by
  unfold appendEntriesWithLock at h
  by_cases hst : rf.currentTerm > args.term
  · rw [if_pos hst] at h
    cases h
    exact absurd hin (by simp)
  rw [if_neg hst] at h
  by_cases h1 : args.prevLogIndex
      < ((rf.becomeFollower args.term none).persist.snapshotEntriesAmount : Int) - 1
  · rw [if_pos h1] at h
    cases h
    change args.prevLogIndex + 1 < (rf.snapshotEntriesAmount : Int)
    have h1 : args.prevLogIndex < (rf.snapshotEntriesAmount : Int) - 1 := h1
    omega
  rw [if_neg h1] at h
  by_cases h2 : args.prevLogIndex
      > (rf.becomeFollower args.term none).persist.getLastLogEntryIndex
  · rw [if_pos h2] at h
    cases h
    exact absurd hin (by simp)
  rw [if_neg h2] at h
  obtain ⟨b, -, h⟩ := Option.bind_eq_some_iff.mp h
  cases b with
  | false =>
    cases h
    exact absurd hin (by simp)
  | true =>
    obtain ⟨rf₁, -, h⟩ := Option.bind_eq_some_iff.mp h
    cases h
    exact absurd hin (by simp)

theorem prevLogIndex_of_createAppendEntriesArgs {rf : Peer n C D} {next : Int}
    {args : AppendEntriesArgs n C} (h : rf.createAppendEntriesArgs next = some args) :
    args.prevLogIndex = rf.getLogIndexBeforeIndex next := by
  obtain ⟨t, -, h⟩ := Option.bind_eq_some_iff.mp h
  obtain ⟨es, -, h⟩ := Option.bind_eq_some_iff.mp h
  cases h
  rfl

/-- The tables are the same, and only a leader still leads. -/
structure SameTables (rf rf' : Peer n C D) : Prop where
  nextIndex : rf'.nextIndex = rf.nextIndex
  matchIndex : rf'.matchIndex = rf.matchIndex
  status : rf'.status = .leader → rf.status = .leader

theorem SameTables.refl (rf : Peer n C D) : rf.SameTables rf := ⟨rfl, rfl, id⟩

end Peer

namespace World

/-! ### What is under way -/

/-- How far each peer has compacted its log. -/
def amounts (w : World n C D) (i : Fin n) : Nat := (w.rafts i).snapshotEntriesAmount

/-- A request to another peer starts at index `0` or later, and a snapshot is one its sender
has. -/
def RequestFits (amounts : Fin n → Nat) (src dst : Fin n) : Request n C D → Prop
  | .appendEntries args => dst ≠ src ∧ 0 ≤ args.prevLogIndex
  | .installSnapshot args =>
    dst ≠ src ∧ 0 ≤ args.lastIncludedIndex ∧ args.lastIncludedIndex < amounts src
  | .requestVote _ => True

/-- So it is with an answer, and it names no empty snapshot. -/
def AnswerFits (amounts : Fin n → Nat) (src dst : Fin n) : Answer n C D → Prop
  | .appendEntries args reply =>
    RequestFits (C := C) (D := D) amounts src dst (.appendEntries args) ∧
      (reply.inSnapshot = true → 1 ≤ reply.snapshotAmount)
  | .installSnapshot args _ =>
    RequestFits (C := C) (D := D) amounts src dst (.installSnapshot args)
  | .requestVote _ _ => True

/-- The answer a goroutine of `dst` still owes. -/
def OwedFits (amounts : Fin n → Nat) (dst : Fin n) (next : Option (Fin n × Answer n C D)) : Prop :=
  ∀ src ans, next = some (src, ans) → AnswerFits amounts src dst ans

/-- What is known of a task. -/
def TaskFits (amounts : Fin n → Nat) : Task n C D → Prop
  | .goroutine _ (.handleSendRequestVote _ _) => True
  | .goroutine i (.handleSendAppendEntries server) => server ≠ i
  | .goroutine i (.handleSendInstallSnapshot server) => server ≠ i ∧ 1 ≤ amounts i
  | .request src dst req _ => RequestFits amounts src dst req
  | .answer src dst ans => AnswerFits amounts src dst ans
  | .commit dst next => OwedFits amounts dst next

section fits

variable {amounts amounts' : Fin n → Nat} {src dst : Fin n}

theorem RequestFits.mono {req : Request n C D} (h : RequestFits amounts src dst req)
    (hle : ∀ i, amounts i ≤ amounts' i) : RequestFits amounts' src dst req := by
  cases req with
  | requestVote args => trivial
  | appendEntries args => exact h
  | installSnapshot args =>
    obtain ⟨hne, h0, hlt⟩ := h
    have := hle src
    exact ⟨hne, h0, by omega⟩

theorem AnswerFits.mono {ans : Answer n C D} (h : AnswerFits amounts src dst ans)
    (hle : ∀ i, amounts i ≤ amounts' i) : AnswerFits amounts' src dst ans := by
  cases ans with
  | requestVote args reply => trivial
  | appendEntries args reply => exact h
  | installSnapshot args reply =>
    have h : RequestFits (C := C) amounts src dst (.installSnapshot args) := h
    exact h.mono hle

theorem OwedFits.mono {next : Option (Fin n × Answer n C D)} (h : OwedFits amounts dst next)
    (hle : ∀ i, amounts i ≤ amounts' i) : OwedFits amounts' dst next :=
  fun src ans hn => (h src ans hn).mono hle

theorem TaskFits.mono {task : Task n C D} (h : TaskFits amounts task)
    (hle : ∀ i, amounts i ≤ amounts' i) : TaskFits amounts' task := by
  cases task with
  | goroutine i g =>
    cases g with
    | handleSendRequestVote server t => trivial
    | handleSendAppendEntries server => exact h
    | handleSendInstallSnapshot server => exact ⟨h.1, h.2.trans (hle i)⟩
  | request src dst req waiting => exact RequestFits.mono h hle
  | answer src dst ans => exact AnswerFits.mono h hle
  | commit dst next => exact OwedFits.mono h hle

end fits

/-- Everything under way fits. -/
structure Fitting (amounts : Fin n → Nat) (w : World n C D) : Prop where
  tasks : ∀ task ∈ w.tasks, TaskFits amounts task
  owed : ∀ i msgs next, w.applying i = some (msgs, next) → OwedFits amounts i next

section fitting

variable {amounts amounts' : Fin n → Nat} {w w' : World n C D} {e : Event C D n}

theorem Fitting.mono (h : Fitting amounts w) (hle : ∀ i, amounts i ≤ amounts' i) :
    Fitting amounts' w :=
  ⟨fun task ht => (h.tasks task ht).mono hle, fun i msgs next ha => (h.owed i msgs next ha).mono hle⟩

theorem Fitting.update (h : Fitting amounts w) {i : Fin n} {rf' : Peer n C D}
    {new : List (Task n C D)} (hnew : ∀ task ∈ new, TaskFits amounts task) :
    Fitting amounts (w.update i rf' new) := by
  refine ⟨?_, h.owed⟩
  intro task hmem
  rcases mem_update hmem with hmem | hmem
  · exact h.tasks task hmem
  · exact hnew task hmem

theorem Fitting.take (h : Fitting amounts w) (k : Nat) : Fitting amounts (w.take k) :=
  ⟨fun task hmem => h.tasks task (List.mem_of_mem_eraseIdx hmem), h.owed⟩

theorem Fitting.task (h : Fitting amounts w) {k : Nat} {task : Task n C D}
    (ht : w.tasks[k]? = some task) : TaskFits amounts task :=
  h.tasks task (List.mem_of_getElem? ht)

theorem taskFits_singleton {task : Task n C D} (h : TaskFits amounts task) :
    ∀ task' ∈ [task], TaskFits amounts task' := by
  intro task' hmem
  rw [List.mem_singleton.mp hmem]
  exact h

theorem taskFits_answerIf {b : Bool} {src dst : Fin n} {ans : Answer n C D}
    (h : AnswerFits amounts src dst ans) : ∀ task ∈ answerIf b src dst ans, TaskFits amounts task := by
  intro task hmem
  rw [mem_answerIf hmem]
  exact h

theorem taskFits_broadcast {i : Fin n} {rf : Peer n C D} (hme : rf.me = i) :
    ∀ task ∈ (spawn i rf.broadcastAppendEntries : List (Task n C D)), TaskFits amounts task := by
  intro task hmem
  obtain ⟨g, hg, rfl⟩ := List.mem_map.mp hmem
  obtain ⟨server, hs, rfl⟩ := List.mem_map.mp hg
  have hne : server ≠ rf.me := by simpa [Peer.others] using hs
  rwa [hme] at hne

theorem taskFits_gather {i : Fin n} {rf : Peer n C D} :
    ∀ task ∈ (spawn i rf.candidateGatherVotes : List (Task n C D)), TaskFits amounts task := by
  intro task hmem
  obtain ⟨g, hg, rfl⟩ := List.mem_map.mp hmem
  obtain ⟨server, -, rfl⟩ := List.mem_map.mp hg
  trivial

theorem fitting_restart [Inhabited C] (h : Fitting amounts w) (i : Fin n) :
    Fitting amounts (w.restart i) := by
  constructor
  · intro task hmem
    obtain ⟨t, ht, ha⟩ := List.mem_filterMap.mp hmem
    have hok := h.tasks t ht
    cases survives_of_afterCrash ha with
    | goroutine _ => exact hok
    | request => exact hok
    | answer _ => exact hok
    | commit _ hn =>
      rcases hn with rfl | rfl
      · exact fun src ans hn => absurd hn (by simp)
      · exact hok
  · exact applying_restart h.owed (fun _ _ _ _ src ans hn => absurd hn (by simp)) i

end fitting

/-! ### The tables -/

/-- The tables of every peer, and what is under way. -/
structure Indexed [Inhabited C] (w : World n C D) : Prop where
  healthy : ∀ i, Healthy i (w.rafts i)
  bounded : ∀ i, (w.rafts i).Bounded
  pos : ∀ i, ∀ next ∈ (w.rafts i).nextIndex, 1 ≤ next
  full : ∀ i, (w.rafts i).status = .leader →
    (w.rafts i).nextIndex.length = n ∧ (w.rafts i).matchIndex.length = n
  fitting : Fitting w.amounts w

section steps

variable [Inhabited C] {w w' : World n C D} {e : Event C D n}

theorem fitting_sendAppend (h : w.Indexed) {k : Nat} {i server : Fin n}
    (ht : w.tasks[k]? = some (.goroutine i (.handleSendAppendEntries server)))
    (hs : w.step (.task k) = some w') : Fitting w.amounts w' := by
  have hne : server ≠ i := h.fitting.task ht
  obtain ⟨rf', d, hr, rfl⟩ := step_sendAppendEntries ht hs
  refine (h.fitting.take k).update ?_
  cases Peer.handleSendAppendEntries_branch hr with
  | @installSnapshot next hnext hlt =>
    have hpos := h.pos i next (List.mem_of_getElem? hnext)
    refine taskFits_singleton ⟨hne, ?_⟩
    change 1 ≤ (w.rafts i).snapshotEntriesAmount
    omega
  | notLeader => simp
  | @send next args hnext _ hargs =>
    have hpos := h.pos i next (List.mem_of_getElem? hnext)
    refine taskFits_singleton ⟨hne, ?_⟩
    rw [Peer.prevLogIndex_of_createAppendEntriesArgs hargs, Peer.getLogIndexBeforeIndex,
      if_neg (by omega)]
    omega

theorem fitting_append (h : w.Indexed) {k : Nat} {src dst : Fin n} {waiting : Bool}
    {args : AppendEntriesArgs n C}
    (ht : w.tasks[k]? = some (.request src dst (.appendEntries args) waiting))
    (hs : w.step (.task k) = some w') : Fitting w.amounts w' := by
  obtain ⟨hne, h0⟩ : dst ≠ src ∧ 0 ≤ args.prevLogIndex := h.fitting.task ht
  obtain ⟨rf', reply, ok, hr, rfl⟩ := step_appendEntries ht hs
  have hans : AnswerFits (D := D) w.amounts src dst (.appendEntries args reply) := by
    refine ⟨⟨hne, h0⟩, fun hin => ?_⟩
    have := Peer.appendEntriesWithLock_inSnapshot hr hin
    omega
  refine (h.fitting.take k).update ?_
  cases ok with
  | false => exact taskFits_answerIf hans
  | true =>
    refine taskFits_singleton ?_
    intro src' ans hn
    cases waiting with
    | false => exact absurd hn (by simp)
    | true =>
      obtain ⟨rfl, rfl⟩ := Prod.mk.inj (Option.some.inj hn)
      exact hans

theorem fitting_appendReply (h : w.Indexed) {k : Nat} {src dst : Fin n}
    {args : AppendEntriesArgs n C} {reply : AppendEntriesReply}
    (ht : w.tasks[k]? = some (.answer src dst (.appendEntries args reply)))
    (hs : w.step (.task k) = some w') : Fitting w.amounts w' := by
  obtain ⟨⟨hne, -⟩, -⟩ : (dst ≠ src ∧ _) ∧ _ := h.fitting.task ht
  obtain ⟨rf', gs, commit, hr, rfl⟩ := step_appendEntriesReply ht hs
  refine (h.fitting.take k).update ?_
  intro task hmem
  rcases List.mem_append.mp hmem with hmem | hmem
  · obtain ⟨g, hg, rfl⟩ := List.mem_map.mp hmem
    cases Peer.handleAppendEntriesReply_branch hr with
    | refused _ _ _ _ _ =>
      split at hg
      · rename_i hc
        rw [List.mem_singleton.mp hg]
        exact ⟨hne, hc.2⟩
      · exact absurd hg List.not_mem_nil
    | _ => exact absurd hg List.not_mem_nil
  · cases commit with
    | false => exact absurd hmem (by simp)
    | true =>
      rw [List.mem_singleton.mp hmem]
      exact fun src ans hn => absurd hn (by simp)

/-- **A step leaves only tasks that fit.** -/
theorem fitting_step (h : w.Indexed) (hs : w.step e = some w') : Fitting w.amounts w' := by
  have hf := h.fitting
  cases move_of_step hs with
  | heartbeat i _ => exact hf.update (taskFits_broadcast (h.healthy i).me)
  | idle i => exact hf.update (by simp)
  | election i _ => exact hf.update taskFits_gather
  | start i command _ => exact hf.update (by simp)
  | snapshot i index data rf' _ => exact hf.update (by simp)
  | askVote k i server election _ => exact (hf.take k).update (taskFits_singleton trivial)
  | sendAppend k i server rf' d ht _ => exact fitting_sendAppend h ht hs
  | sendInstall k i server ht =>
    obtain ⟨hne, ha⟩ : server ≠ i ∧ 1 ≤ w.amounts i := hf.task ht
    refine (hf.take k).update (taskFits_singleton ⟨hne, ?_, ?_⟩)
    · change 0 ≤ (w.amounts i : Int) - 1
      omega
    · change (w.amounts i : Int) - 1 < w.amounts i
      omega
  | vote k src dst waiting args rf' reply _ _ =>
    exact (hf.take k).update (taskFits_answerIf trivial)
  | append k src dst waiting args rf' reply ok ht _ => exact fitting_append h ht hs
  | install k src dst waiting args rf' reply ht _ =>
    exact (hf.take k).update (taskFits_answerIf (hf.task ht))
  | voteReply k src dst args reply rf' gs _ ho =>
    refine (hf.take k).update ?_
    cases ho with
    | higher _ => simp [spawn]
    | same _ => simp [spawn]
    | counted _ _ _ _ => simp [spawn]
    | elected _ _ _ => exact taskFits_broadcast (h.healthy src).me
  | appendReply k src dst args reply rf' gs commit ht _ => exact fitting_appendReply h ht hs
  | installReply k src dst args reply _ => exact (hf.take k).update (by simp)
  | failRequest k src dst args ht =>
    have hreq : RequestFits w.amounts src dst (.installSnapshot args : Request n C D) := hf.task ht
    exact (hf.take k).update (taskFits_singleton hreq)
  | failAnswer k src dst args reply _ => exact (hf.take k).update (by simp)
  | collect k i next rf' msgs ht _ _ =>
    have hup : Fitting w.amounts ((w.take k).update i rf' []) := (hf.take k).update (by simp)
    refine ⟨hup.tasks, applying_update hf.owed ?_⟩
    intro msgs' next' heq
    cases heq
    exact hf.task ht
  | send i next msg msgs ha =>
    refine ⟨hf.tasks, applying_update hf.owed ?_⟩
    intro msgs' next' heq
    cases heq
    exact hf.owed i _ _ ha
  | release i next ha =>
    refine ⟨?_, applying_update hf.owed (by simp)⟩
    intro task hmem
    rcases List.mem_append.mp hmem with hmem | hmem
    · exact hf.tasks task hmem
    · obtain ⟨src, ans, hn, rfl⟩ := mem_owed hmem
      exact hf.owed i _ _ ha src ans hn
  | restart i => exact fitting_restart hf i

end steps

/-! ### Who writes the tables -/

/-- The step writes `x` to `nextIndex[server]` of peer `i`. -/
inductive Written (w : World n C D) (e : Event C D n) (i server : Fin n) : Int → Prop
  | boundary {next : Int} : .goroutine i (.handleSendAppendEntries server) ∈ w.tasks →
      (w.rafts i).nextIndex[server.val]? = some next →
      next < (w.rafts i).snapshotEntriesAmount →
      Written w e i server (w.rafts i).snapshotEntriesAmount
  | matched (args : AppendEntriesArgs n C) (reply : AppendEntriesReply) :
      w.picked e = some (.answer i server (.appendEntries args reply)) →
      (w.rafts i).status = .leader → reply.success = true →
      Written w e i server (args.prevLogIndex + args.entries.length + 1)
  | inSnapshot (args : AppendEntriesArgs n C) (reply : AppendEntriesReply) :
      w.picked e = some (.answer i server (.appendEntries args reply)) →
      (w.rafts i).status = .leader → reply.success = false → reply.inSnapshot = true →
      Written w e i server reply.snapshotAmount
  | refused (args : AppendEntriesArgs n C) (reply : AppendEntriesReply) {next next' : Int} :
      w.picked e = some (.answer i server (.appendEntries args reply)) →
      (w.rafts i).status = .leader → (w.rafts i).nextIndex[server.val]? = some next →
      (w.rafts i).backOffIndex next = some next' → Written w e i server next'
  | failed (args : InstallSnapshotArgs n D) :
      RequestFits w.amounts i server (.installSnapshot args : Request n C D) →
      Written w e i server (args.lastIncludedIndex + 1)

/-- What a step does to the tables of peer `i`, which is `rf'` afterwards. -/
inductive Indexing (w : World n C D) (e : Event C D n) (i : Fin n) (rf' : Peer n C D) : Prop
  | kept : (w.rafts i).SameTables rf' → Indexing w e i rf'
  | emptied : rf'.nextIndex = [] → rf'.status ≠ .leader → Indexing w e i rf'
  | elected : rf' = (w.rafts i).becomeLeader.1 → Indexing w e i rf'
  | written (server : Fin n) (x : Int) :
      rf'.nextIndex = (w.rafts i).nextIndex.set server x →
      rf'.matchIndex.length = (w.rafts i).matchIndex.length →
      rf'.status = (w.rafts i).status → Written w e i server x → Indexing w e i rf'

section steps

variable {w w' : World n C D} {e : Event C D n} {i : Fin n} {rf' : Peer n C D}

theorem Indexing.same (w : World n C D) (e : Event C D n) (i : Fin n) :
    Indexing w e i (w.rafts i) :=
  .kept (.refl _)

theorem Indexing.update (h : Indexing w e i rf') :
    ∀ j, Indexing w e j (Function.update w.rafts i rf' j) := by
  intro j
  by_cases hj : j = i
  · rw [hj, Function.update_self]
    exact h
  · rw [Function.update_of_ne hj]
    exact .same w e j

theorem Indexing.follower (hn : rf'.nextIndex = (w.rafts i).nextIndex)
    (hm : rf'.matchIndex = (w.rafts i).matchIndex) (hs : rf'.status = .follower) :
    Indexing w e i rf' :=
  .kept ⟨hn, hm, fun hl => absurd (hs.symm.trans hl) (by simp)⟩

theorem indexing_vote {args : RequestVoteArgs n} {reply : RequestVoteReply}
    (h : Peer.VoteOutcome (w.rafts i) args rf' reply) : Indexing w e i rf' := by
  cases h with
  | stale _ => exact .same ..
  | refused _ =>
    unfold Peer.adoptTerm
    split
    · exact .follower rfl rfl rfl
    · exact .same ..
  | granted _ _ _ hrf =>
    rcases hrf with rfl | rfl
    · exact .follower rfl rfl rfl
    · exact .follower rfl rfl rfl

theorem indexing_sendAppend {k : Nat} {server : Fin n} {d : Peer.AppendDecision n C}
    (ht : w.tasks[k]? = some (.goroutine i (.handleSendAppendEntries server)))
    (h : Peer.SendBranch (w.rafts i) server rf' d) : Indexing w e i rf' := by
  cases h with
  | installSnapshot hn hlt =>
    exact .written server _ rfl rfl rfl (.boundary (List.mem_of_getElem? ht) hn hlt)
  | notLeader => exact .same ..
  | send _ _ _ => exact .same ..

theorem indexing_appendReply {server : Fin n} {args : AppendEntriesArgs n C}
    {reply : AppendEntriesReply} {gs : List (Goroutine n)} {commit : Bool}
    (hp : w.picked e = some (.answer i server (.appendEntries args reply)))
    (h : Peer.AppendReplyBranch (w.rafts i) server args reply rf' gs commit) :
    Indexing w e i rf' := by
  cases h with
  | notLeader _ => exact .same ..
  | matched hl hs hu =>
    have hw := Written.matched args reply hp hl hs
    rcases Peer.leaderUpdateCommit_eq_some hu with rfl | ⟨c, -, -, rfl⟩
    · exact .written server _ rfl (by simp) rfl hw
    · exact .written server _ rfl (by simp) rfl hw
  | inSnapshot hl hs hi => exact .written server _ rfl rfl rfl (.inSnapshot args reply hp hl hs hi)
  | higher _ _ _ => exact .follower rfl rfl rfl
  | refused hl _ _ hn hb => exact .written server _ rfl rfl rfl (.refused args reply hp hl hn hb)

end steps

/-- **Nobody else writes the tables.** -/
theorem indexing_of_step [Inhabited C] {w w' : World n C D} {e : Event C D n} (h : w.Indexed)
    (hs : w.step e = some w') : ∀ i, Indexing w e i (w'.rafts i) := by
  have hfailed : ∀ src dst (args : InstallSnapshotArgs n D),
      RequestFits w.amounts src dst (.installSnapshot args : Request n C D) →
      Indexing w e src ((w.rafts src).setMatch dst args.lastIncludedIndex) :=
    fun src dst args hreq => .written dst _ rfl (by simp) rfl (.failed args hreq)
  cases move_of_step hs with
  | heartbeat i _ => exact (Indexing.same w _ i).update
  | idle i => exact (Indexing.same w _ i).update
  | election i hl => exact Indexing.update (.kept ⟨rfl, rfl, fun h => absurd h (by simp)⟩)
  | start i command hl => exact Indexing.update (.kept ⟨rfl, rfl, id⟩)
  | snapshot i index data rf' ho =>
    refine Indexing.update ?_
    cases ho with
    | ignored => exact .same ..
    | compacted _ _ _ => exact .kept ⟨rfl, rfl, id⟩
  | askVote k i server election _ => exact (Indexing.same w _ i).update
  | sendAppend k i server rf₁ d₁ ht _ =>
    obtain ⟨rf', d, hr, heq⟩ := step_sendAppendEntries ht hs
    rw [heq]
    exact (indexing_sendAppend ht (Peer.handleSendAppendEntries_branch hr)).update
  | sendInstall k i server _ => exact (Indexing.same w _ i).update
  | vote k src dst waiting args rf' reply _ ho => exact (indexing_vote ho).update
  | append k src dst waiting args rf' reply ok _ ho =>
    refine Indexing.update ?_
    cases ho with
    | stale _ => exact .same ..
    | refused _ _ => exact .follower rfl rfl rfl
    | accepted _ _ _ _ _ => exact .follower rfl rfl rfl
  | install k src dst waiting args rf' reply _ ho =>
    refine Indexing.update ?_
    cases ho with
    | stale _ => exact .same ..
    | ignored _ => exact .follower rfl rfl rfl
    | installed _ _ => exact .follower rfl rfl rfl
  | voteReply k src dst args reply rf' gs _ ho =>
    refine Indexing.update ?_
    cases ho with
    | higher _ => exact .follower rfl rfl rfl
    | same _ => exact .same ..
    | counted _ _ _ _ => exact .kept ⟨rfl, rfl, id⟩
    | elected _ _ _ => exact .elected rfl
  | appendReply k src dst args reply rf₁ gs₁ commit₁ ht _ =>
    obtain ⟨rf', gs, commit, hr, heq⟩ := step_appendEntriesReply ht hs
    rw [heq]
    have hp : w.picked (.task k) = some (.answer src dst (.appendEntries args reply)) := ht
    exact (indexing_appendReply hp (Peer.handleAppendEntriesReply_branch hr)).update
  | installReply k src dst args reply _ =>
    refine Indexing.update ?_
    unfold Peer.handleInstallSnapshotReply
    split
    · exact .follower rfl rfl rfl
    · exact .same ..
  | failRequest k src dst args ht => exact (hfailed src dst args (h.fitting.task ht)).update
  | failAnswer k src dst args reply ht => exact (hfailed src dst args (h.fitting.task ht)).update
  | collect k i next rf' msgs _ _ ho =>
    refine Indexing.update ?_
    cases ho <;> exact .kept ⟨rfl, rfl, id⟩
  | send i next msg msgs _ => exact fun j => .same w _ j
  | release i next _ => exact fun j => .same w _ j
  | restart i =>
    refine Indexing.update (.emptied ?_ ?_)
    · unfold Peer.make Peer.readPersist
      split <;> rfl
    · rw [make_status]
      simp

/-! ### The bounds -/

/-- The leader that takes an answer of `AppendEntries`, with the request and the answer. -/
def answering : Task n C D → Option (Fin n × AppendEntriesArgs n C × AppendEntriesReply)
  | .answer src _ (.appendEntries args reply) => some (src, args, reply)
  | _ => none

theorem eq_answer_of_answering {task : Task n C D}
    {x : Fin n × AppendEntriesArgs n C × AppendEntriesReply} (h : answering task = some x) :
    ∃ server, task = .answer x.1 server (.appendEntries x.2.1 x.2.2) := by
  unfold answering at h
  split at h
  · cases h
    exact ⟨_, rfl⟩
  · exact absurd h (by simp)

/-- What a leader is told it has replicated, or must start from, is in its log. -/
def NextFits (w : World n C D) (e : Event C D n) : Prop :=
  ∀ x ∈ (w.picked e).bind answering, (w.rafts x.1).status = .leader →
    (x.2.2.success = true →
      x.2.1.prevLogIndex + x.2.1.entries.length ≤ (w.rafts x.1).getLastLogEntryIndex) ∧
    (x.2.2.success = false → x.2.2.inSnapshot = true →
      x.2.2.snapshotAmount ≤ (w.rafts x.1).getLastLogEntryIndex + 1)

instance (w : World n C D) (e : Event C D n) : Decidable (w.NextFits e) :=
  inferInstanceAs (Decidable (∀ x ∈ (w.picked e).bind answering, _ → (_ → _) ∧ (_ → _ → _)))

/-- No leader looks behind the end of its log. -/
def InBounds (w : World n C D) : Prop :=
  ∀ i, (w.rafts i).status = .leader → ∀ server, server ≠ i →
    ∀ next ∈ (w.rafts i).nextIndex[server.val]?, next ≤ (w.rafts i).getLastLogEntryIndex + 1

/-- The log of a leader does not shrink while it leads. -/
theorem last_le_of_turn {w : World n C D} {e : Event C D n} {i : Fin n} {rf' : Peer n C D}
    (ht : Turn w e i rf') (hl : (w.rafts i).status = .leader) (hl' : rf'.status = .leader) :
    (w.rafts i).getLastLogEntryIndex ≤ rf'.getLastLogEntryIndex := by
  unfold Peer.getLastLogEntryIndex
  cases ht with
  | rests hs => rw [hs.logs, hs.amount]
  | follows _ hs => rw [hs] at hl'; exact absurd hl' (by simp)
  | heeds _ _ hs => rw [hs] at hl'; exact absurd hl' (by simp)
  | overwrites _ _ _ _ _ _ _ _ he => subst he; exact absurd hl' (by simp [Peer.overwrite])
  | installs _ _ _ _ _ _ _ hs => rw [hs] at hl'; exact absurd hl' (by simp)
  | grants _ _ _ _ _ _ _ _ hs => rw [hs] at hl'; exact absurd hl' (by simp)
  | campaigns hn _ => exact absurd hl hn
  | wins hc _ => rw [hl] at hc; exact absurd hc (by simp)
  | appends command _ _ he =>
    subst he
    rw [Peer.persist_logs, Peer.persist_snapshotEntriesAmount, Peer.appendToLogEntries_logs,
      Peer.appendToLogEntries_snapshotEntriesAmount, List.length_append]
    omega
  | compacts index a hlo ha _ _ _ hlogs ham _ =>
    have hlt := (List.getElem?_eq_some_iff.mp ha).1
    rw [hlogs, ham, List.length_drop]
    omega
  | restarts _ _ hs => rw [hs] at hl'; exact absurd hl' (by simp)

section bounds

variable [Inhabited C] {w w' : World n C D} {e : Event C D n} {i server : Fin n} {x : Int}

theorem Indexed.last_nonneg (h : w.Indexed) (i : Fin n) :
    0 ≤ (w.rafts i).getLastLogEntryIndex := by
  have := (h.bounded i).pos
  unfold Peer.getLastLogEntryIndex
  omega

theorem Indexed.answer (h : w.Indexed) {args : AppendEntriesArgs n C} {reply : AppendEntriesReply}
    (hp : w.picked e = some (.answer i server (.appendEntries args reply))) :
    server ≠ i ∧ 0 ≤ args.prevLogIndex ∧ (reply.inSnapshot = true → 1 ≤ reply.snapshotAmount) := by
  obtain ⟨⟨hne, h0⟩, hin⟩ := h.fitting.tasks _ (mem_of_picked hp)
  exact ⟨hne, h0, hin⟩

theorem Indexed.backOffIndex (h : w.Indexed) (hb : w.InBounds) (hl : (w.rafts i).status = .leader)
    (hne : server ≠ i) {next next' : Int} (hn : (w.rafts i).nextIndex[server.val]? = some next)
    (hx : (w.rafts i).backOffIndex next = some next') :
    1 ≤ next' ∧ next' ≤ (w.rafts i).getLastLogEntryIndex + 1 := by
  obtain ⟨L, hL⟩ := (h.bounded i).exists_represents
  have hle := hb i hl server hne next hn
  have hpos := hL.length_pos
  have ha := hL.amount_le
  rw [hL.lastIndex] at hle ⊢
  obtain ⟨y, hy, h1, -, hmax⟩ := hL.backOffIndex (show next ≤ (L.length : Int) by omega)
  obtain rfl := Option.some.inj (hx.symm.trans hy)
  omega

theorem Written.pos (h : w.Indexed) (hb : w.InBounds) (hw : Written w e i server x) : 1 ≤ x := by
  cases hw with
  | @boundary next _ hn hlt =>
    have := h.pos i next (List.mem_of_getElem? hn)
    omega
  | matched args reply hp _ _ =>
    have := (h.answer hp).2.1
    omega
  | inSnapshot args reply hp _ _ hi => exact (h.answer hp).2.2 hi
  | refused args reply hp hl hn hx => exact (h.backOffIndex hb hl (h.answer hp).1 hn hx).1
  | failed args hreq =>
    have := hreq.2.1
    omega

theorem Written.le (h : w.Indexed) (hb : w.InBounds) (hfits : w.NextFits e)
    (hw : Written w e i server x) : x ≤ (w.rafts i).getLastLogEntryIndex + 1 := by
  cases hw with
  | boundary _ _ _ =>
    unfold Peer.getLastLogEntryIndex
    omega
  | matched args reply hp hl hs =>
    have := (hfits (i, args, reply) (by rw [hp]; rfl) hl).1 hs
    dsimp only at this
    omega
  | inSnapshot args reply hp hl hs hi => exact (hfits (i, args, reply) (by rw [hp]; rfl) hl).2 hs hi
  | refused args reply hp hl hn hx => exact (h.backOffIndex hb hl (h.answer hp).1 hn hx).2
  | failed args hreq =>
    have := hreq.2.2
    unfold Peer.getLastLogEntryIndex
    unfold amounts at this
    omega

theorem indexed_step (h : w.Indexed) (hb : w.InBounds) (hs : w.step e = some w') : w'.Indexed := by
  have hind := indexing_of_step h hs
  have heff := (effect_of_step hs).healthy h.healthy
  refine ⟨healthy_step h.healthy hs, fun i => ?_, fun i next hmem => ?_, fun i hl => ?_, ?_⟩
  · exact bounded_turn (turn_of_move h.healthy (move_of_step hs) i) (h.bounded i)
  · cases hind i with
    | kept hk => exact h.pos i next (hk.nextIndex ▸ hmem)
    | emptied hn _ =>
      rw [hn] at hmem
      exact absurd hmem List.not_mem_nil
    | elected he =>
      rw [he, Peer.becomeLeader_fst_nextIndex] at hmem
      rw [List.eq_of_mem_replicate hmem]
      have := h.last_nonneg i
      omega
    | written server x hn _ _ hw =>
      rw [hn] at hmem
      rcases List.mem_or_eq_of_mem_set hmem with hmem | rfl
      · exact h.pos i next hmem
      · exact hw.pos h hb
  · cases hind i with
    | kept hk =>
      rw [hk.nextIndex, hk.matchIndex]
      exact h.full i (hk.status hl)
    | emptied _ hn => exact absurd hl hn
    | elected he => simp [he]
    | written server x hn hm hst _ =>
      rw [hn, hm, List.length_set]
      exact h.full i (hst ▸ hl)
  · exact (fitting_step h hs).mono fun i => (heff i).2.2

/-- **A step keeps the indices in bounds exactly when the answer it takes fits.** -/
theorem nextFits_iff (h : w.Indexed) (hb : w.InBounds) (hs : w.step e = some w') :
    w.NextFits e ↔ w'.InBounds := by
  constructor
  · intro hfits i hl server hne next hmem
    have hturn := turn_of_move h.healthy (move_of_step hs) i
    cases indexing_of_step h hs i with
    | kept hk =>
      have hold := hk.status hl
      rw [hk.nextIndex] at hmem
      have := hb i hold server hne next hmem
      have := last_le_of_turn hturn hold hl
      omega
    | emptied _ hn => exact absurd hl hn
    | elected he =>
      have hlen : server.val < n := server.isLt
      rw [he, Peer.becomeLeader_fst_nextIndex, List.getElem?_replicate, if_pos hlen] at hmem
      rw [← Option.some.inj hmem, he]
      rfl
    | written server' x hn _ hst hw =>
      have hold : (w.rafts i).status = .leader := hst ▸ hl
      have hlast := last_le_of_turn hturn hold hl
      rw [hn] at hmem
      by_cases heq : server'.val = server.val
      · have hlt : server'.val < (w.rafts i).nextIndex.length := by
          rw [(h.full i hold).1]
          exact server'.isLt
        rw [← heq, List.getElem?_set_self hlt] at hmem
        have := hw.le h hb hfits
        rw [← Option.some.inj hmem]
        omega
      · rw [List.getElem?_set_ne heq] at hmem
        have := hb i hold server hne next hmem
        omega
  · rintro hafter ⟨i, args, reply⟩ hx hl
    obtain ⟨task, hp, hx⟩ := Option.bind_eq_some_iff.mp hx
    obtain ⟨server, rfl⟩ := eq_answer_of_answering hx
    have hne := (h.answer hp).1
    have hlt : server.val < (w.rafts i).nextIndex.length := by
      rw [(h.full i hl).1]
      exact server.isLt
    obtain ⟨k, rfl, ht⟩ := eq_task_of_picked hp
    obtain ⟨rf', gs, commit, hr, rfl⟩ := step_appendEntriesReply ht hs
    have hi := hafter i
    rw [update_rafts_self] at hi
    cases Peer.handleAppendEntriesReply_branch hr with
    | notLeader hn => exact absurd hl hn
    | matched _ hsuc hu =>
      refine ⟨fun _ => ?_, fun hf => absurd (hsuc.symm.trans hf) (by simp)⟩
      have hbound : args.prevLogIndex + args.entries.length + 1 ≤
          (w.rafts i).getLastLogEntryIndex + 1 := by
        rcases Peer.leaderUpdateCommit_eq_some hu with rfl | ⟨c, -, -, rfl⟩
        · exact hi hl server hne _ (List.getElem?_set_self hlt)
        · exact hi hl server hne _ (List.getElem?_set_self hlt)
      exact Int.le_of_add_le_add_right hbound
    | inSnapshot _ hsuc _ =>
      exact ⟨fun ht => absurd (hsuc.symm.trans ht) (by simp),
        fun _ _ => hi hl server hne _ (List.getElem?_set_self hlt)⟩
    | higher hsuc hin _ =>
      exact ⟨fun ht => absurd (hsuc.symm.trans ht) (by simp),
        fun _ ht => absurd (hin.symm.trans ht) (by simp)⟩
    | refused _ hsuc hin _ _ =>
      exact ⟨fun ht => absurd (hsuc.symm.trans ht) (by simp),
        fun _ ht => absurd (hin.symm.trans ht) (by simp)⟩

theorem indexed_init : (init : World n C D).Indexed where
  healthy := healthy_init
  bounded _ := ⟨Nat.one_pos, fun _ => rfl⟩
  pos _ _ hmem := absurd hmem List.not_mem_nil
  full i hl := by
    rw [init, make_status] at hl
    exact absurd hl (by simp)
  fitting := ⟨fun _ hmem => absurd hmem List.not_mem_nil, fun _ _ _ ha => absurd ha (by simp [init])⟩

theorem inBounds_init : (init : World n C D).InBounds := by
  intro i hl
  rw [init, make_status] at hl
  exact absurd hl (by simp)

/-- What holds for one peer of a leader whose index is in bounds. -/
structure Sendable (rf : Peer n C D) (server : Fin n) : Prop where
  bounds : ∃ next, rf.nextIndex[server.val]? = some next ∧ 1 ≤ next ∧
    next ≤ rf.getLastLogEntryIndex + 1
  sends : (rf.handleSendAppendEntries server).isSome
  takes : ∀ args reply, (rf.handleAppendEntriesReply server args reply).isSome

theorem Indexed.sendable (h : w.Indexed) (hb : w.InBounds) (hl : (w.rafts i).status = .leader)
    (hne : server ≠ i) : Sendable (w.rafts i) server := by
  obtain ⟨L, hL⟩ := (h.bounded i).exists_represents
  obtain ⟨hn, hm⟩ := h.full i hl
  have hget := List.getElem?_eq_getElem (show server.val < (w.rafts i).nextIndex.length by omega)
  have hpos := h.pos i _ (List.mem_of_getElem? hget)
  have hle := hb i hl server hne _ hget
  have hL' := hle
  rw [hL.lastIndex, Int.sub_add_cancel] at hL'
  refine ⟨⟨_, hget, hpos, hle⟩, ?_, fun args reply => ?_⟩
  · rcases hL.handleSendAppendEntries hl hget hpos hL' with ⟨-, heq⟩ | ⟨-, e, -, heq⟩
    · rw [heq]; rfl
    · rw [heq]; rfl
  · rcases hL.handleAppendEntriesReply hl hget hL' hm args reply with
      ⟨-, rf', -, heq⟩ | ⟨-, -, heq⟩ | ⟨-, -, -, heq⟩ | ⟨-, -, -, next', -, -, -, heq⟩
    all_goals rw [heq]; rfl

end bounds

/-- **The indices of a leader are in bounds in every state of a run exactly when every answer it
takes fits**; and then neither half of `handleSendAppendEntries` aborts, whatever answer
comes next. -/
theorem next_index_bounds [Inhabited C] (tr : List (World n C D)) (h : Run (fun _ _ => True) tr) :
    Run NextFits tr ↔ ∀ w ∈ tr, ∀ i, (w.rafts i).status = .leader → ∀ server, server ≠ i →
      Sendable (w.rafts i) server := by
  have hJ : Run NextFits tr → ∀ w ∈ tr, w.Indexed ∧ w.InBounds :=
    Trace.invariant ⟨indexed_init, inBounds_init⟩
      (fun w w' e hi hok hs => ⟨indexed_step hi.1 hi.2 hs, (nextFits_iff hi.1 hi.2 hs).mp hok⟩) tr
  have hiff : Run NextFits tr ↔ ∀ w ∈ tr, w.InBounds :=
    Trace.ok_iff (J := Indexed) (G := InBounds) indexed_init inBounds_init
      (fun w w' e hj hb hs => indexed_step hj hb hs)
      (fun w w' e hj hb hs => nextFits_iff hj hb hs) h
  constructor
  · intro hr w hw i hl server hne
    exact (hJ hr w hw).1.sendable (hJ hr w hw).2 hl hne
  · intro hall
    refine hiff.mpr fun w hw i hl server hne next hmem => ?_
    obtain ⟨next', hn, -, hle⟩ := (hall w hw i hl server hne).bounds
    rw [Option.some.inj (hmem.symm.trans hn)]
    exact hle

/-- Server `0` leads, and server `1` takes its only entry and says so. -/
def matchedEntry : List (Event Nat Unit 3) :=
  [.ticker 0 true, .task 0, .task 1, .task 1, .start 0 7, .task 1, .task 2, .task 2, .applyNext 1,
    .task 2]

theorem matchedEntry_ends : runEnds World.step NextFits (init : World 3 Nat Unit) matchedEntry
    (fun w _ => decide ((w.rafts 0).status = .leader ∧ (w.rafts 0).nextIndex = [1, 2, 1])) = true := by
  decide +kernel

theorem next_index_bounds_matchedEntry :
    ∃ w : World 3 Nat Unit, ((w.rafts 0).status = .leader ∧ (w.rafts 0).nextIndex = [1, 2, 1]) ∧
      Sendable (w.rafts 0) 1 := by
  obtain ⟨w, past, -, ht, hw⟩ := exists_of_runEnds matchedEntry_ends
  have hw := of_decide_eq_true hw
  have hall := (next_index_bounds _ (ht.mono fun _ _ _ => trivial)).mp ht
  exact ⟨w, hw, hall w (List.mem_cons_self ..) 0 hw.1 1 (by decide)⟩

/-- Server `0` leads in term `2` and gives two entries to server `1`, whose answer is slow.
Server `2`, which has neither, leads in term `3`, and server `0` gives them up.  It is elected
again and leads in term `5` with the filler only; now the answer arrives. -/
def slowAnswer : List (Event Nat Unit 3) :=
  [.ticker 0 true, .task 0, .task 1, .task 1, .start 0 7, .start 0 8, .ticker 2 true,
    .ticker 2 true, .task 4, .task 6, .task 1, .task 6, .task 6, .applyNext 1, .task 5, .task 6,
    .task 7, .ticker 0 true, .task 9, .task 9, .task 9, .task 5]

/-- `nextIndex` is `3` where the log ends at `0`, and the next heartbeat aborts. -/
theorem next_index_past_end : ∃ (tr : List (World 3 Nat Unit)) (w : World 3 Nat Unit),
    Run (fun _ _ => True) tr ∧ w ∈ tr ∧ (w.rafts 0).status = .leader ∧
      (¬ ∃ next, (w.rafts 0).nextIndex[1]? = some next ∧ 1 ≤ next ∧
        next ≤ (w.rafts 0).getLastLogEntryIndex + 1) ∧
      (w.rafts 0).handleSendAppendEntries 1 = none := by
  have hs : runEnds World.step (fun _ _ => True) (init : World 3 Nat Unit) slowAnswer
      (fun w _ => decide ((w.rafts 0).status = .leader ∧ (w.rafts 0).nextIndex = [1, 3, 1] ∧
        (w.rafts 0).getLastLogEntryIndex = 0 ∧
        (w.rafts 0).handleSendAppendEntries 1 = none)) = true := by
    decide +kernel
  obtain ⟨w, past, -, ht, hw⟩ := exists_of_runEnds hs
  obtain ⟨hl, hnext, hlast, hsend⟩ := of_decide_eq_true hw
  refine ⟨w :: past, w, ht, List.mem_cons_self .., hl, ?_, hsend⟩
  rintro ⟨next, hn, -, hle⟩
  rw [hnext] at hn
  rw [← Option.some.inj hn, hlast] at hle
  exact absurd hle (by decide)

end World

end ShardRaft.Raft
