import Mathlib.Data.Finset.Card
import Mathlib.Data.Fintype.Card
import ShardRaft.Raft.Steps

/-!
# Counting votes

A candidate counts votes with a bare integer, so a vote must not reach it twice.  `Ballots`
remembers who has voted for whom, and whose votes a candidate has counted; `tokens` counts
what is still under way between a candidate and one voter.  The invariant (`Tally`) is that
there is never more than one such thing, and none once the vote is counted.

The five steps that start, feed or decide an election are `Campaign`; every other step
leaves the counting alone (`campaign_or_still`).  Only one of the five may break the
invariant: a goroutine spawned for one election that builds its request as the candidate of
a later one (`AskedInTime`).
-/

namespace ShardRaft.Raft

open ShardRaft.Lib

variable {n : Nat} {C D : Type}

namespace World

/-! ### What a step picks -/

/-- The task a step picks. -/
def picked (w : World n C D) : Event C D n → Option (Task n C D)
  | .task k => w.tasks[k]?
  | _ => none

/-- The receiver and the term of a request that makes its receiver follow. -/
def heeded : Task n C D → Option (Fin n × Int)
  | .request _ dst (.appendEntries args) _ => some (dst, args.term)
  | .request _ dst (.installSnapshot args) _ => some (dst, args.term)
  | _ => none

/-- The owner and the election of a goroutine that is about to ask for a vote. -/
def asking : Task n C D → Option (Fin n × Int)
  | .goroutine i (.handleSendRequestVote _ election) => some (i, election)
  | _ => none

/-- A candidate builds a vote request only in the election it was spawned for. -/
def AskedInTime (w : World n C D) (e : Event C D n) : Prop :=
  ∀ x ∈ (w.picked e).bind asking, (w.rafts x.1).status = .candidate →
    (w.rafts x.1).currentTerm = x.2

instance (w : World n C D) (e : Event C D n) : Decidable (w.AskedInTime e) :=
  inferInstanceAs (Decidable (∀ x ∈ (w.picked e).bind asking, _ → _))

/-! ### Ballots -/

/-- Who has voted for whom in which term, whose votes a candidate has counted,
and who has led in which term. -/
structure Ballots (n : Nat) where
  votes : Fin n → Fin n → Int → Prop
  counted : Fin n → Finset (Fin n)
  leads : Fin n → Int → Prop

/-- What may turn into a vote of `v` counted by `c` in term `t`. -/
def isToken (c v : Fin n) (t : Int) : Task n C D → Bool
  | .goroutine i (.handleSendRequestVote server election) =>
    decide (i = c ∧ server = v ∧ election = t)
  | .request src dst (.requestVote args) _ => decide (src = c ∧ dst = v ∧ args.term = t)
  | .answer src dst (.requestVote _ reply) =>
    decide (src = c ∧ dst = v ∧ reply.voteGranted = true ∧ reply.term = t)
  | _ => false

/-- How many such things are under way. -/
def tokens (w : World n C D) (c v : Fin n) (t : Int) : Nat := w.tasks.countP (isToken c v t)

/-- An answer that a handler owes is one of `AppendEntries`. -/
def Owed : Option (Fin n × Answer n C D) → Prop
  | some (_, .requestVote _ _) => False
  | _ => True

/-- What the election tasks under way say. -/
def TaskOk (b : Ballots n) (term : Fin n → Int) : Task n C D → Prop
  | .goroutine i (.handleSendRequestVote server election) => server ≠ i ∧ election ≤ term i
  | .request src dst (.requestVote args) _ =>
    src ≠ dst ∧ args.candidateId = src ∧ args.term ≤ term src
  | .answer src dst (.requestVote args reply) => src ≠ dst ∧
    (reply.voteGranted = true → reply.term = args.term ∧ b.votes dst src reply.term)
  | .commit _ next => Owed next
  | _ => True

theorem TaskOk.mono {b b' : Ballots n} {term term' : Fin n → Int} {task : Task n C D}
    (h : TaskOk b term task) (hv : ∀ v c t, b.votes v c t → b'.votes v c t)
    (ht : ∀ i, term i ≤ term' i) : TaskOk b' term' task := by
  cases task with
  | goroutine i g =>
    cases g with
    | handleSendRequestVote server election => exact ⟨h.1, h.2.trans (ht i)⟩
    | handleSendAppendEntries server => trivial
    | handleSendInstallSnapshot server => trivial
  | request src dst req waiting =>
    cases req with
    | requestVote args => exact ⟨h.1, h.2.1, h.2.2.trans (ht src)⟩
    | appendEntries args => trivial
    | installSnapshot args => trivial
  | answer src dst ans =>
    cases ans with
    | requestVote args reply => exact ⟨h.1, fun hg => ⟨(h.2 hg).1, hv _ _ _ (h.2 hg).2⟩⟩
    | appendEntries args reply => trivial
    | installSnapshot args reply => trivial
  | commit i next => exact h

/-- **The invariant of the counting.** -/
structure Tally (b : Ballots n) (w : World n C D) : Prop where
  asked : ∀ v c t, b.votes v c t → t ≤ (w.rafts c).currentTerm
  counted : ∀ c, (w.rafts c).status = .candidate →
    (w.rafts c).numVoteGathered ≤ (b.counted c).card + 1 ∧ c ∉ b.counted c ∧
      ∀ v ∈ b.counted c, b.votes v c (w.rafts c).currentTerm
  token : ∀ c, (w.rafts c).status = .candidate → ∀ v,
    w.tokens c v (w.rafts c).currentTerm + (if v ∈ b.counted c then 1 else 0) ≤ 1
  tasks : ∀ task ∈ w.tasks, TaskOk b (fun i => (w.rafts i).currentTerm) task
  owed : ∀ i msgs next, w.applying i = some (msgs, next) → Owed next

/-- Nobody becomes a candidate, no candidate counts, and nothing new is under way. -/
theorem Tally.steady {b : Ballots n} {w w' : World n C D} (h : Tally b w)
    (hpeers : ∀ i, (w.rafts i).currentTerm ≤ (w'.rafts i).currentTerm ∧
      ((w'.rafts i).status = .candidate → (w.rafts i).status = .candidate ∧
        (w'.rafts i).currentTerm = (w.rafts i).currentTerm ∧
        (w'.rafts i).numVoteGathered = (w.rafts i).numVoteGathered))
    (htasks : ∀ task ∈ w'.tasks, TaskOk b (fun i => (w.rafts i).currentTerm) task)
    (htokens : ∀ c v t, w'.tokens c v t ≤ w.tokens c v t)
    (howed : ∀ i msgs next, w'.applying i = some (msgs, next) → Owed next) : Tally b w' where
  asked v c t hv := (h.asked v c t hv).trans (hpeers c).1
  counted := by
    intro c hcand
    obtain ⟨hs, ht, hn⟩ := (hpeers c).2 hcand
    rw [hn, ht]
    exact h.counted c hs
  token := by
    intro c hcand v
    obtain ⟨hs, ht, -⟩ := (hpeers c).2 hcand
    have h1 := htokens c v (w.rafts c).currentTerm
    have h2 := h.token c hs v
    rw [ht]
    omega
  tasks task ht := (htasks task ht).mono (fun _ _ _ hv => hv) fun i => (hpeers i).1
  owed := howed

/-! ### Steps without an election -/

/-- Peer `i` has neither started nor won an election, and has counted no vote. -/
inductive Stays (w : World n C D) (e : Event C D n) (i : Fin n) (rf' : Peer n C D) : Prop
  | same : rf'.status = (w.rafts i).status → rf'.currentTerm = (w.rafts i).currentTerm →
      rf'.numVoteGathered = (w.rafts i).numVoteGathered →
      rf'.votedFor = (w.rafts i).votedFor → Stays w e i rf'
  | higher : (w.rafts i).currentTerm < rf'.currentTerm → rf'.status = .follower → Stays w e i rf'
  | heeds : (w.picked e).bind heeded = some (i, rf'.currentTerm) →
      (w.rafts i).currentTerm ≤ rf'.currentTerm → rf'.status = .follower → Stays w e i rf'
  | restarts : rf'.currentTerm = (w.rafts i).currentTerm →
      rf'.votedFor = (w.rafts i).votedFor → rf'.status = .follower → Stays w e i rf'

/-- A step without a new vote, a new candidate or a new leader. -/
structure Still (b : Ballots n) (w : World n C D) (e : Event C D n) (w' : World n C D) : Prop where
  peers : ∀ i, Stays w e i (w'.rafts i)
  tasks : ∀ task ∈ w'.tasks, TaskOk b (fun i => (w.rafts i).currentTerm) task
  tokens : ∀ c v t, w'.tokens c v t ≤ w.tokens c v t
  owed : ∀ i msgs next, w'.applying i = some (msgs, next) → Owed next

theorem Still.tally {b : Ballots n} {w w' : World n C D} {e : Event C D n} (hc : Still b w e w')
    (h : Tally b w) : Tally b w' := by
  refine h.steady (fun i => ?_) hc.tasks hc.tokens hc.owed
  cases hc.peers i with
  | same hs ht hn _ => exact ⟨ht.ge, fun hcand => ⟨hs ▸ hcand, ht, hn⟩⟩
  | higher hlt hf => exact ⟨hlt.le, fun hcand => absurd (hf.symm.trans hcand) (by simp)⟩
  | heeds _ hle hf => exact ⟨hle, fun hcand => absurd (hf.symm.trans hcand) (by simp)⟩
  | restarts ht _ hf => exact ⟨ht.ge, fun hcand => absurd (hf.symm.trans hcand) (by simp)⟩

/-! ### The five other steps -/

/-- A step that starts, feeds, or decides an election. -/
inductive Campaign (w : World n C D) : Event C D n → World n C D → Prop
  | election {e : Event C D n} (i : Fin n) : (w.rafts i).status ≠ .leader →
      Campaign w e (w.update i (w.rafts i).becomeCandidate
        (spawn i (w.rafts i).becomeCandidate.candidateGatherVotes))
  | askVote (k : Nat) (i server : Fin n) (election : Int) :
      w.tasks[k]? = some (.goroutine i (.handleSendRequestVote server election)) →
      Campaign w (.task k) ((w.take k).update i (w.rafts i)
        [.request i server (.requestVote ⟨(w.rafts i).currentTerm, (w.rafts i).me,
          (w.rafts i).getLastLogEntryIndex, (w.rafts i).lastTerm⟩) true])
  | grant (k : Nat) (src dst : Fin n) (waiting : Bool) (args : RequestVoteArgs n)
      (rf' : Peer n C D) :
      w.tasks[k]? = some (.request src dst (.requestVote args) waiting) →
      (w.rafts dst).currentTerm ≤ args.term →
      (w.rafts dst).UpToDate args.lastLogTerm args.lastLogIndex →
      ((w.rafts dst).currentTerm = args.term → (w.rafts dst).votedFor = none ∨
        (w.rafts dst).votedFor = some args.candidateId ∨
        ((w.rafts dst).votedFor = some (w.rafts dst).me ∧ (w.rafts dst).status = .candidate)) →
      (rf' = (w.rafts dst).becomeFollower args.term (some args.candidateId) ∨
        rf' = ((w.rafts dst).becomeFollower args.term (some args.candidateId)).becomeFollower
          args.term (some args.candidateId)) →
      Campaign w (.task k) ((w.take k).update dst rf'
        (answerIf waiting src dst (.requestVote args ⟨args.term, true⟩)))
  | count (k : Nat) (src dst : Fin n) (args : RequestVoteArgs n) (reply : RequestVoteReply) :
      w.tasks[k]? = some (.answer src dst (.requestVote args reply)) →
      (w.rafts src).status = .candidate → reply.voteGranted = true →
      reply.term = (w.rafts src).currentTerm →
      Campaign w (.task k) ((w.take k).update src
        { w.rafts src with numVoteGathered := (w.rafts src).numVoteGathered + 1 } [])
  | win (k : Nat) (src dst : Fin n) (args : RequestVoteArgs n) (reply : RequestVoteReply) :
      w.tasks[k]? = some (.answer src dst (.requestVote args reply)) →
      (w.rafts src).status = .candidate →
      (n / 2 < (w.rafts src).numVoteGathered ∨ (reply.voteGranted = true ∧
        reply.term = (w.rafts src).currentTerm ∧ n / 2 < (w.rafts src).numVoteGathered + 1)) →
      Campaign w (.task k) ((w.take k).update src (w.rafts src).becomeLeader.1
        (spawn src (w.rafts src).becomeLeader.2))

namespace Ballots

/-- Nobody has voted. -/
def empty : Ballots n := ⟨fun _ _ _ => False, fun _ => ∅, fun _ _ => False⟩

/-- `c` starts an election: nothing is counted yet. -/
def open_ (b : Ballots n) (c : Fin n) : Ballots n :=
  { b with counted := Function.update b.counted c ∅ }

/-- `v` votes for `c` in term `t`. -/
def vote (b : Ballots n) (v c : Fin n) (t : Int) : Ballots n :=
  { b with votes := fun v' c' t' => b.votes v' c' t' ∨ (v' = v ∧ c' = c ∧ t' = t) }

/-- `c` counts the vote of `v`. -/
def count (b : Ballots n) (c v : Fin n) : Ballots n :=
  { b with counted := Function.update b.counted c (insert v (b.counted c)) }

/-- `c`, candidate of term `t`, becomes leader; now its own vote counts as well. -/
def win (b : Ballots n) (c : Fin n) (t : Int) : Ballots n :=
  { b.vote c c t with leads := fun c' t' => b.leads c' t' ∨ (c' = c ∧ t' = t + 1) }

end Ballots

/-! ### Counting what is under way -/

theorem tokens_update (w : World n C D) (i : Fin n) (rf : Peer n C D) (new : List (Task n C D))
    (c v : Fin n) (t : Int) :
    (w.update i rf new).tokens c v t = w.tokens c v t + new.countP (isToken c v t) := by
  simp [tokens, update, List.countP_append]

theorem tokens_take {w : World n C D} {k : Nat} {task : Task n C D} (h : w.tasks[k]? = some task)
    (c v : Fin n) (t : Int) :
    (w.take k).tokens c v t + (if isToken c v t task then 1 else 0) = w.tokens c v t :=
  countP_eraseIdx w.tasks k h

theorem mem_update {w : World n C D} {i : Fin n} {rf : Peer n C D} {new : List (Task n C D)}
    {task : Task n C D} (h : task ∈ (w.update i rf new).tasks) : task ∈ w.tasks ∨ task ∈ new :=
  List.mem_append.mp h

theorem mem_take_update {w : World n C D} {k : Nat} {i : Fin n} {rf : Peer n C D}
    {new : List (Task n C D)} {task : Task n C D}
    (h : task ∈ ((w.take k).update i rf new).tasks) : task ∈ w.tasks ∨ task ∈ new := by
  rcases mem_update h with h | h
  · exact .inl (List.mem_of_mem_eraseIdx h)
  · exact .inr h

theorem Tally.taskOk {b : Ballots n} {w : World n C D} (h : Tally b w) {k : Nat}
    {task : Task n C D} (ht : w.tasks[k]? = some task) :
    TaskOk b (fun i => (w.rafts i).currentTerm) task :=
  h.tasks task (List.mem_of_getElem? ht)

/-- Nothing is under way for a term the candidate has not reached. -/
theorem Tally.tokens_future {b : Ballots n} {w : World n C D} (h : Tally b w) {c v : Fin n}
    {t : Int} (ht : (w.rafts c).currentTerm < t) : w.tokens c v t = 0 := by
  refine List.countP_eq_zero.mpr ?_
  intro task hmem htok
  have hok := h.tasks task hmem
  cases task with
  | goroutine i g =>
    cases g with
    | handleSendRequestVote server election =>
      obtain ⟨rfl, -, rfl⟩ := of_decide_eq_true htok
      exact absurd hok.2 (Int.not_le.mpr ht)
    | handleSendAppendEntries server => exact absurd htok (by simp [isToken])
    | handleSendInstallSnapshot server => exact absurd htok (by simp [isToken])
  | request src dst req waiting =>
    cases req with
    | requestVote args =>
      obtain ⟨rfl, -, rfl⟩ := of_decide_eq_true htok
      exact absurd hok.2.2 (Int.not_le.mpr ht)
    | appendEntries args => exact absurd htok (by simp [isToken])
    | installSnapshot args => exact absurd htok (by simp [isToken])
  | answer src dst ans =>
    cases ans with
    | requestVote args reply =>
      obtain ⟨rfl, -, hg, rfl⟩ := of_decide_eq_true htok
      exact absurd (h.asked _ _ _ (hok.2 hg).2) (Int.not_le.mpr ht)
    | appendEntries args reply => exact absurd htok (by simp [isToken])
    | installSnapshot args reply => exact absurd htok (by simp [isToken])
  | commit i next => exact absurd htok (by simp [isToken])

theorem countP_gather (i : Fin n) (rf : Peer n C D) (c v : Fin n) (t : Int) :
    (spawn i rf.candidateGatherVotes : List (Task n C D)).countP (isToken c v t) ≤ 1 ∧
      (c ≠ i → (spawn i rf.candidateGatherVotes : List (Task n C D)).countP (isToken c v t) = 0) := by
  unfold spawn Peer.candidateGatherVotes
  rw [List.countP_map, List.countP_map]
  refine ⟨?_, ?_⟩
  · have hnd : (Peer.others rf.me).Nodup := (List.nodup_finRange n).filter _
    have hle : (Peer.others rf.me).countP (fun s => decide (s = v)) ≤ 1 :=
      List.nodup_iff_count_le_one.mp hnd v |>.trans' (by
        rw [List.count]
        exact List.countP_mono_left fun s _ hs => by simpa using hs)
    refine (List.countP_mono_left ?_).trans hle
    intro s _ hs
    have hs := of_decide_eq_true hs
    exact decide_eq_true hs.2.1
  · intro hc
    refine List.countP_eq_zero.mpr ?_
    intro s _ hs
    have hs := of_decide_eq_true hs
    exact hc hs.1.symm

theorem countP_becomeLeader (i : Fin n) (rf : Peer n C D) (c v : Fin n) (t : Int) :
    (spawn i rf.becomeLeader.2 : List (Task n C D)).countP (isToken c v t) = 0 := by
  refine List.countP_eq_zero.mpr ?_
  intro task hmem
  obtain ⟨g, hg, rfl⟩ := List.mem_map.mp hmem
  obtain ⟨server, -, rfl⟩ := List.mem_map.mp hg
  simp [isToken]

/-! ### Each of the five keeps the invariant -/

theorem update_rafts_self (w : World n C D) (i : Fin n) (rf : Peer n C D)
    (new : List (Task n C D)) : (w.update i rf new).rafts i = rf :=
  Function.update_self ..

theorem update_rafts_ne (w : World n C D) {i j : Fin n} (h : j ≠ i) (rf : Peer n C D)
    (new : List (Task n C D)) : (w.update i rf new).rafts j = w.rafts j :=
  Function.update_of_ne h ..

theorem update_rafts_same (w : World n C D) (i : Fin n) (new : List (Task n C D)) :
    (w.update i (w.rafts i) new).rafts = w.rafts :=
  Function.update_eq_self ..

theorem currentTerm_le_update (w : World n C D) {i : Fin n} {rf : Peer n C D}
    {new : List (Task n C D)} (h : (w.rafts i).currentTerm ≤ rf.currentTerm) (j : Fin n) :
    (w.rafts j).currentTerm ≤ ((w.update i rf new).rafts j).currentTerm := by
  by_cases hj : j = i
  · rw [hj, update_rafts_self]
    exact h
  · rw [update_rafts_ne _ hj]

theorem tally_election {b : Ballots n} {w : World n C D} (h : Tally b w) (i : Fin n)
    (hme : (w.rafts i).me = i) :
    Tally (b.open_ i) (w.update i (w.rafts i).becomeCandidate
      (spawn i (w.rafts i).becomeCandidate.candidateGatherVotes)) := by
  have hterm : ∀ j, (w.rafts j).currentTerm ≤ ((w.update i (w.rafts i).becomeCandidate
      (spawn i (w.rafts i).becomeCandidate.candidateGatherVotes)).rafts j).currentTerm :=
    currentTerm_le_update w (Int.le_add_one le_rfl)
  refine ⟨fun v c t hv => (h.asked v c t hv).trans (hterm c), ?_, ?_, ?_, h.owed⟩
  · intro c hc
    by_cases hci : c = i
    · rw [hci, update_rafts_self]
      simp [Ballots.open_]
    · rw [update_rafts_ne _ hci] at hc ⊢
      have hcnt : (b.open_ i).counted c = b.counted c := Function.update_of_ne hci ..
      rw [hcnt]
      exact h.counted c hc
  · intro c hc v
    rw [tokens_update]
    obtain ⟨hone, hzero⟩ := countP_gather (C := C) (D := D) i (w.rafts i).becomeCandidate c v
      (((w.update i (w.rafts i).becomeCandidate
        (spawn i (w.rafts i).becomeCandidate.candidateGatherVotes)).rafts c).currentTerm)
    by_cases hci : c = i
    · subst hci
      rw [update_rafts_self] at hone ⊢
      have hcnt : (b.open_ c).counted c = ∅ := Function.update_self ..
      have hfut : w.tokens c v (w.rafts c).becomeCandidate.currentTerm = 0 :=
        h.tokens_future (Int.lt_succ _)
      rw [hfut, hcnt]
      simpa using hone
    · rw [update_rafts_ne _ hci] at hc hzero ⊢
      have hcnt : (b.open_ i).counted c = b.counted c := Function.update_of_ne hci ..
      rw [hzero hci, hcnt]
      exact h.token c hc v
  · intro task ht
    rcases mem_update ht with ht | ht
    · exact (h.tasks task ht).mono (fun _ _ _ hv => hv) hterm
    · obtain ⟨g, hg, rfl⟩ := List.mem_map.mp ht
      obtain ⟨server, hs, rfl⟩ := List.mem_map.mp hg
      have hne : server ≠ (w.rafts i).me := by simpa using (List.mem_filter.mp hs).2
      rw [hme] at hne
      refine ⟨hne, ?_⟩
      dsimp only
      rw [update_rafts_self]

theorem tally_askVote {b : Ballots n} {w : World n C D} (h : Tally b w) {k : Nat}
    {i server : Fin n} {election : Int} (hme : (w.rafts i).me = i)
    (ht : w.tasks[k]? = some (.goroutine i (.handleSendRequestVote server election)))
    (hok : (w.rafts i).status = .candidate → (w.rafts i).currentTerm = election) :
    Tally b ((w.take k).update i (w.rafts i)
      [.request i server (.requestVote ⟨(w.rafts i).currentTerm, (w.rafts i).me,
        (w.rafts i).getLastLogEntryIndex, (w.rafts i).lastTerm⟩) true]) := by
  have hr : ((w.take k).update i (w.rafts i)
      [.request i server (.requestVote ⟨(w.rafts i).currentTerm, (w.rafts i).me,
        (w.rafts i).getLastLogEntryIndex, (w.rafts i).lastTerm⟩) true]).rafts = w.rafts :=
    update_rafts_same (w.take k) i _
  refine ⟨?_, ?_, ?_, ?_, h.owed⟩ <;> rw [hr]
  · exact h.asked
  · exact h.counted
  · intro c hc v
    rw [tokens_update]
    have htake := tokens_take ht c v (w.rafts c).currentTerm
    have hold := h.token c hc v
    -- the goroutine's token becomes the request's, because the election is the same
    have hle : [Task.request i server (.requestVote ⟨(w.rafts i).currentTerm, (w.rafts i).me,
        (w.rafts i).getLastLogEntryIndex, (w.rafts i).lastTerm⟩) true].countP
          (isToken (C := C) (D := D) c v (w.rafts c).currentTerm)
        ≤ if isToken (C := C) (D := D) c v (w.rafts c).currentTerm
          (.goroutine i (.handleSendRequestVote server election)) then 1 else 0 := by
      rw [List.countP_singleton]
      by_cases htok : i = c ∧ server = v
      · obtain ⟨rfl, rfl⟩ := htok
        simp [isToken, hok hc]
      · have hno : ∀ x : Bool, isToken (C := C) (D := D) c v (w.rafts c).currentTerm
            (.request i server (.requestVote ⟨(w.rafts i).currentTerm, (w.rafts i).me,
              (w.rafts i).getLastLogEntryIndex, (w.rafts i).lastTerm⟩) x) = false := by
          intro x
          simp only [isToken, decide_eq_false_iff_not]
          exact fun hh => htok ⟨hh.1, hh.2.1⟩
        rw [hno]
        simp
    omega
  · intro task hmem
    rcases mem_take_update hmem with hmem | hmem
    · exact h.tasks task hmem
    · rw [List.mem_singleton.mp hmem]
      obtain ⟨hne, -⟩ := h.taskOk ht
      exact ⟨hne.symm, hme, le_rfl⟩

theorem tally_grant {b : Ballots n} {w w' : World n C D} (h : Tally b w) {k : Nat}
    {src dst : Fin n} {waiting : Bool} {args : RequestVoteArgs n} {rf' : Peer n C D}
    (ht : w.tasks[k]? = some (.request src dst (.requestVote args) waiting))
    (hle : (w.rafts dst).currentTerm ≤ args.term)
    (hs : rf'.status = .follower) (hterm : rf'.currentTerm = args.term)
    (hw : w' = (w.take k).update dst rf'
      (answerIf waiting src dst (.requestVote args ⟨args.term, true⟩))) :
    Tally (b.vote dst src args.term) w' := by
  obtain ⟨hne, hcand, hasked⟩ := h.taskOk ht
  have hself : w'.rafts dst = rf' := by rw [hw]; exact update_rafts_self ..
  have hother : ∀ j, j ≠ dst → w'.rafts j = w.rafts j := by
    intro j hj; rw [hw]; exact update_rafts_ne _ hj ..
  have hmono : ∀ j, (w.rafts j).currentTerm ≤ (w'.rafts j).currentTerm := by
    rw [hw]
    exact currentTerm_le_update (w.take k) (hle.trans_eq hterm.symm)
  have hincl : ∀ v c t, b.votes v c t → (b.vote dst src args.term).votes v c t :=
    fun _ _ _ hv => .inl hv
  refine ⟨?_, ?_, ?_, ?_, ?_⟩
  · intro v c t hv
    rcases hv with hv | ⟨rfl, rfl, rfl⟩
    · exact (h.asked v c t hv).trans (hmono c)
    · exact hasked.trans (hmono c)
  · intro c hc
    by_cases hcd : c = dst
    · rw [hcd, hself, hs] at hc; exact absurd hc (by simp)
    · rw [hother c hcd] at hc ⊢
      obtain ⟨h1, h2, h3⟩ := h.counted c hc
      exact ⟨h1, h2, fun v hv => hincl _ _ _ (h3 v hv)⟩
  · intro c hc v
    by_cases hcd : c = dst
    · rw [hcd, hself, hs] at hc; exact absurd hc (by simp)
    · rw [hother c hcd] at hc ⊢
      have htake := tokens_take ht c v (w.rafts c).currentTerm
      have hold := h.token c hc v
      have hnew : (answerIf waiting src dst (.requestVote args ⟨args.term, true⟩)).countP
          (isToken (C := C) (D := D) c v (w.rafts c).currentTerm)
          ≤ if isToken (C := C) (D := D) c v (w.rafts c).currentTerm
            (.request src dst (.requestVote args) waiting) then 1 else 0 := by
        cases waiting with
        | false => simp [answerIf]
        | true => simp [answerIf, isToken, List.countP_singleton]
      rw [hw, tokens_update]
      change _ + (if v ∈ b.counted c then 1 else 0) ≤ 1
      omega
  · intro task hmem
    rw [hw] at hmem
    rcases mem_take_update hmem with hmem | hmem
    · exact (h.tasks task hmem).mono hincl hmono
    · rw [mem_answerIf hmem]
      exact ⟨hne, fun _ => ⟨rfl, .inr ⟨rfl, rfl, rfl⟩⟩⟩
  · rw [hw]; exact h.owed

theorem Tally.not_counted {b : Ballots n} {w : World n C D} (h : Tally b w) {k : Nat}
    {src dst : Fin n} {args : RequestVoteArgs n} {reply : RequestVoteReply}
    (ht : w.tasks[k]? = some (.answer src dst (.requestVote args reply)))
    (hc : (w.rafts src).status = .candidate) (hg : reply.voteGranted = true)
    (hterm : reply.term = (w.rafts src).currentTerm) : dst ∉ b.counted src := by
  intro hmem
  have htake := tokens_take ht src dst (w.rafts src).currentTerm
  have hone := h.token src hc dst
  rw [if_pos hmem] at hone
  have htok : isToken (C := C) (D := D) src dst (w.rafts src).currentTerm
      (.answer src dst (.requestVote args reply)) = true :=
    decide_eq_true ⟨rfl, rfl, hg, hterm⟩
  rw [if_pos htok] at htake
  omega

theorem tally_count {b : Ballots n} {w w' : World n C D} (h : Tally b w) {k : Nat}
    {src dst : Fin n} {args : RequestVoteArgs n} {reply : RequestVoteReply}
    (ht : w.tasks[k]? = some (.answer src dst (.requestVote args reply)))
    (hc : (w.rafts src).status = .candidate) (hg : reply.voteGranted = true)
    (hterm : reply.term = (w.rafts src).currentTerm)
    (hw : w' = (w.take k).update src
      { w.rafts src with numVoteGathered := (w.rafts src).numVoteGathered + 1 } []) :
    Tally (b.count src dst) w' := by
  obtain ⟨hne, hvote⟩ := h.taskOk ht
  have hnot := h.not_counted ht hc hg hterm
  have hself : w'.rafts src
      = { w.rafts src with numVoteGathered := (w.rafts src).numVoteGathered + 1 } := by
    rw [hw]; exact update_rafts_self ..
  have hother : ∀ j, j ≠ src → w'.rafts j = w.rafts j := by
    intro j hj; rw [hw]; exact update_rafts_ne _ hj ..
  have hview : ∀ j, (w'.rafts j).status = (w.rafts j).status ∧
      (w'.rafts j).currentTerm = (w.rafts j).currentTerm := by
    intro j
    by_cases hj : j = src
    · rw [hj, hself]; exact ⟨rfl, rfl⟩
    · rw [hother j hj]; exact ⟨rfl, rfl⟩
  refine ⟨?_, ?_, ?_, ?_, ?_⟩
  · intro v c t hv
    rw [(hview c).2]
    exact h.asked v c t hv
  · intro c hcand
    rw [(hview c).1] at hcand
    rw [(hview c).2]
    obtain ⟨h1, h2, h3⟩ := h.counted c hcand
    by_cases hcs : c = src
    · subst hcs
      have hcnt : (b.count c dst).counted c = insert dst (b.counted c) := Function.update_self ..
      rw [hself, hcnt, Finset.card_insert_of_notMem hnot]
      refine ⟨Nat.succ_le_succ h1, ?_, ?_⟩
      · rw [Finset.mem_insert]
        exact fun hh => hh.elim hne h2
      · intro v hv
        rcases Finset.mem_insert.mp hv with rfl | hv
        · exact hterm ▸ (hvote hg).2
        · exact h3 v hv
    · have hcnt : (b.count src dst).counted c = b.counted c := Function.update_of_ne hcs ..
      rw [hother c hcs, hcnt]
      exact ⟨h1, h2, h3⟩
  · intro c hcand v
    rw [(hview c).1] at hcand
    rw [(hview c).2, hw, tokens_update, List.countP_nil, Nat.add_zero]
    have htake := tokens_take ht c v (w.rafts c).currentTerm
    have hone := h.token c hcand v
    by_cases hcs : c = src
    · subst hcs
      have hcnt : (b.count c dst).counted c = insert dst (b.counted c) := Function.update_self ..
      rw [hcnt]
      by_cases hvd : v = dst
      · subst hvd
        have htok : isToken (C := C) (D := D) c v (w.rafts c).currentTerm
            (.answer c v (.requestVote args reply)) = true :=
          decide_eq_true ⟨rfl, rfl, hg, hterm⟩
        rw [if_pos htok] at htake
        rw [if_pos (Finset.mem_insert_self ..)]
        omega
      · simp only [Finset.mem_insert, hvd, false_or]
        omega
    · have hcnt : (b.count src dst).counted c = b.counted c := Function.update_of_ne hcs ..
      rw [hcnt]
      omega
  · intro task hmem
    rw [hw] at hmem
    rcases mem_take_update hmem with hmem | hmem
    · exact (h.tasks task hmem).mono (fun _ _ _ hv => hv) fun j => (hview j).2.ge
    · exact absurd hmem List.not_mem_nil
  · rw [hw]; exact h.owed

theorem Tally.majority {b : Ballots n} {w : World n C D} (h : Tally b w) {k : Nat}
    {src dst : Fin n} {args : RequestVoteArgs n} {reply : RequestVoteReply}
    (ht : w.tasks[k]? = some (.answer src dst (.requestVote args reply)))
    (hc : (w.rafts src).status = .candidate)
    (hmaj : n / 2 < (w.rafts src).numVoteGathered ∨ (reply.voteGranted = true ∧
      reply.term = (w.rafts src).currentTerm ∧ n / 2 < (w.rafts src).numVoteGathered + 1)) :
    ∃ q : Finset (Fin n), src ∉ q ∧ n / 2 < q.card + 1 ∧
      ∀ v ∈ q, b.votes v src (w.rafts src).currentTerm := by
  obtain ⟨hne, hvote⟩ := h.taskOk ht
  obtain ⟨hnum, hnot, hvotes⟩ := h.counted src hc
  rcases hmaj with hmaj | ⟨hg, hrt, hmaj⟩
  · exact ⟨b.counted src, hnot, by omega, hvotes⟩
  · have hdst := h.not_counted ht hc hg hrt
    refine ⟨insert dst (b.counted src), ?_, ?_, ?_⟩
    · rw [Finset.mem_insert]
      exact fun hh => hh.elim hne hnot
    · rw [Finset.card_insert_of_notMem hdst]
      omega
    · intro v hv
      rcases Finset.mem_insert.mp hv with rfl | hv
      · exact hrt ▸ (hvote hg).2
      · exact hvotes v hv

theorem tally_win {b : Ballots n} {w w' : World n C D} (h : Tally b w) {k : Nat}
    {src dst : Fin n} {args : RequestVoteArgs n} {reply : RequestVoteReply}
    (ht : w.tasks[k]? = some (.answer src dst (.requestVote args reply)))
    (hw : w' = (w.take k).update src (w.rafts src).becomeLeader.1
      (spawn src (w.rafts src).becomeLeader.2)) : Tally b w' := by
  have hself : w'.rafts src = (w.rafts src).becomeLeader.1 := by
    rw [hw]; exact update_rafts_self ..
  have hother : ∀ j, j ≠ src → w'.rafts j = w.rafts j := by
    intro j hj; rw [hw]; exact update_rafts_ne _ hj ..
  have hmono : ∀ j, (w.rafts j).currentTerm ≤ (w'.rafts j).currentTerm := by
    rw [hw]
    exact currentTerm_le_update (w.take k) (Int.le_add_one le_rfl)
  refine h.steady (fun j => ⟨hmono j, fun hcand => ?_⟩) ?_ ?_ ?_
  · by_cases hjs : j = src
    · rw [hjs, hself] at hcand; exact absurd hcand (by simp)
    · rw [hother j hjs] at hcand ⊢
      exact ⟨hcand, rfl, rfl⟩
  · intro task hmem
    rw [hw] at hmem
    rcases mem_take_update hmem with hmem | hmem
    · exact h.tasks task hmem
    · obtain ⟨g, hg, rfl⟩ := List.mem_map.mp hmem
      obtain ⟨server, -, rfl⟩ := List.mem_map.mp hg
      trivial
  · intro c v t
    have htake := tokens_take ht c v t
    rw [hw, tokens_update, countP_becomeLeader]
    omega
  · rw [hw]; exact h.owed

theorem Tally.mono {b b' : Ballots n} {w : World n C D} (h : Tally b w)
    (hcounted : b'.counted = b.counted) (hincl : ∀ v c t, b.votes v c t → b'.votes v c t)
    (hasked : ∀ v c t, b'.votes v c t → t ≤ (w.rafts c).currentTerm) : Tally b' w where
  asked := hasked
  counted c hc := by
    obtain ⟨h1, h2, h3⟩ := h.counted c hc
    rw [hcounted]
    exact ⟨h1, h2, fun v hv => hincl _ _ _ (h3 v hv)⟩
  token c hc v := by
    rw [hcounted]
    exact h.token c hc v
  tasks task ht := (h.tasks task ht).mono hincl fun _ => le_rfl
  owed := h.owed

/-! ### All steps -/

section still

variable {b : Ballots n} {w : World n C D} {e : Event C D n}

theorem Stays.refl (w : World n C D) (e : Event C D n) (i : Fin n) : Stays w e i (w.rafts i) :=
  .same rfl rfl rfl rfl

/-- A task that has nothing to do with votes. -/
def Inert (b : Ballots n) (w : World n C D) (task : Task n C D) : Prop :=
  TaskOk b (fun i => (w.rafts i).currentTerm) task ∧ ∀ c v t, isToken c v t task = false

theorem stays_update {i : Fin n} {rf' : Peer n C D} (hp : Stays w e i rf') (j : Fin n) :
    Stays w e j (Function.update w.rafts i rf' j) := by
  by_cases hj : j = i
  · rw [hj, Function.update_self]; exact hp
  · rw [Function.update_of_ne hj]; exact .refl w e j

theorem still_update (h : Tally b w) {i : Fin n} {rf' : Peer n C D} {new : List (Task n C D)}
    (hp : Stays w e i rf') (hnew : ∀ task ∈ new, Inert b w task) :
    Still b w e (w.update i rf' new) where
  peers := stays_update hp
  tasks := by
    intro task hmem
    rcases mem_update hmem with hmem | hmem
    · exact h.tasks task hmem
    · exact (hnew task hmem).1
  tokens := by
    intro c v t
    rw [tokens_update, List.countP_eq_zero.mpr, Nat.add_zero]
    intro task hmem
    rw [(hnew task hmem).2]
    simp
  owed := h.owed

theorem still_take_update (h : Tally b w) {k : Nat} {i : Fin n} {rf' : Peer n C D}
    {new : List (Task n C D)} (hp : Stays w e i rf')
    (hnew : ∀ task ∈ new, Inert b w task) : Still b w e ((w.take k).update i rf' new) where
  peers := stays_update hp
  tasks := by
    intro task hmem
    rcases mem_take_update hmem with hmem | hmem
    · exact h.tasks task hmem
    · exact (hnew task hmem).1
  tokens := by
    intro c v t
    rw [tokens_update, List.countP_eq_zero.mpr, Nat.add_zero]
    · exact List.Sublist.countP_le (List.eraseIdx_sublist ..)
    · intro task hmem
      rw [(hnew task hmem).2]
      simp
  owed := h.owed

theorem inert_spawn {i : Fin n} {gs : List (Goroutine n)}
    (h : ∀ g ∈ gs, ∀ server t, g ≠ .handleSendRequestVote server t) :
    ∀ task ∈ (spawn i gs : List (Task n C D)), Inert b w task := by
  intro task hmem
  obtain ⟨g, hg, rfl⟩ := List.mem_map.mp hmem
  cases g with
  | handleSendRequestVote server t => exact absurd rfl (h _ hg server t)
  | handleSendAppendEntries server => exact ⟨trivial, fun _ _ _ => rfl⟩
  | handleSendInstallSnapshot server => exact ⟨trivial, fun _ _ _ => rfl⟩

theorem inert_answerIf {waiting : Bool} {src dst : Fin n} {ans : Answer n C D}
    (h : Inert b w (.answer src dst ans)) : ∀ task ∈ answerIf waiting src dst ans,
      Inert b w task := by
  intro task hmem
  rw [mem_answerIf hmem]
  exact h

theorem inert_owed {i : Fin n} {next : Option (Fin n × Answer n C D)} (h : Owed next) :
    ∀ task ∈ (next.map fun (src, ans) => Task.answer src i ans).toList, Inert b w task := by
  intro task hmem
  obtain ⟨src, ans, rfl, rfl⟩ := mem_owed hmem
  cases ans with
  | requestVote args reply => exact h.elim
  | appendEntries args reply => exact ⟨trivial, fun _ _ _ => rfl⟩
  | installSnapshot args reply => exact ⟨trivial, fun _ _ _ => rfl⟩

end still

theorem still_restart [Inhabited C] {b : Ballots n} {w : World n C D} {e : Event C D n} (h : Tally b w) (i : Fin n)
    (hi : Healthy i (w.rafts i)) : Still b w e (w.restart i) := by
  have hd := make_getPersistData hi
  have hterm : (Peer.make i (w.rafts i).persister).currentTerm = (w.rafts i).currentTerm :=
    congrArg PersistData.currentTerm hd
  have hvote : (Peer.make i (w.rafts i).persister).votedFor = (w.rafts i).votedFor :=
    congrArg PersistData.votedFor hd
  refine ⟨stays_update (.restarts hterm hvote (make_status _ _)), ?_, ?_, ?_⟩
  · intro task hmem
    obtain ⟨t, ht, ha⟩ := List.mem_filterMap.mp hmem
    have hok := h.tasks t ht
    cases survives_of_afterCrash ha with
    | goroutine _ => exact hok
    | @request src dst req _ _ => cases req <;> exact hok
    | answer _ => exact hok
    | commit _ hn =>
      rcases hn with rfl | rfl
      · trivial
      · exact hok
  · intro c v t
    refine countP_filterMap_le ?_ w.tasks
    intro x y ha hy
    cases survives_of_afterCrash ha with
    | goroutine _ => exact hy
    | @request src dst req _ _ => cases req <;> exact hy
    | answer _ => exact hy
    | commit _ _ => exact absurd hy (by simp [isToken])
  · exact applying_restart h.owed (fun _ _ _ _ => trivial) i

theorem still_refuse {b : Ballots n} {w : World n C D} (h : Tally b w) {k : Nat} {src dst : Fin n}
    {waiting : Bool} {args : RequestVoteArgs n} {rf' : Peer n C D} {reply : RequestVoteReply}
    (ht : w.tasks[k]? = some (.request src dst (.requestVote args) waiting))
    (ho : Peer.VoteOutcome (w.rafts dst) args rf' reply) (hv : reply.voteGranted = false) :
    Still b w (.task k)
      ((w.take k).update dst rf' (answerIf waiting src dst (.requestVote args reply))) := by
  have hin : Inert b w (.answer src dst (.requestVote args reply)) :=
    ⟨⟨(h.taskOk ht).1, by simp [hv]⟩, fun _ _ _ => by simp [isToken, hv]⟩
  refine still_take_update h ?_ (inert_answerIf hin)
  cases ho with
  | stale _ => exact .refl w _ dst
  | refused hle =>
    by_cases hlt : (w.rafts dst).currentTerm < args.term
    · rw [Peer.adoptTerm, if_pos hlt]
      exact .higher hlt rfl
    · rw [Peer.adoptTerm, if_neg hlt]
      exact .refl w _ dst
  | granted _ _ _ _ => exact absurd hv (by simp)

/-- **Every step is a campaign step or leaves the counting alone.** -/
theorem campaign_or_still [Inhabited C] {b : Ballots n} {w w' : World n C D} {e : Event C D n}
    (h : Tally b w) (hh : ∀ i, Healthy i (w.rafts i)) (hm : Move w e w') :
    Campaign w e w' ∨ Still b w e w' := by
  cases hm with
  | heartbeat i hl =>
    refine .inr (still_update h (.refl w _ i) (inert_spawn ?_))
    intro g hg server t
    obtain ⟨s, -, rfl⟩ := List.mem_map.mp hg
    simp
  | idle i => exact .inr (still_update h (.refl w _ i) (by simp))
  | election i hl => exact .inl (.election i hl)
  | start i command hl => exact .inr (still_update h (.same rfl rfl rfl rfl) (by simp))
  | snapshot i index data rf' ho =>
    refine .inr (still_update h ?_ (by simp))
    cases ho with
    | ignored => exact .refl w _ i
    | compacted _ _ _ => exact .same rfl rfl rfl rfl
  | askVote k i server election ht => exact .inl (.askVote k i server election ht)
  | sendAppend k i server rf' d ht ho =>
    cases ho with
    | installSnapshot =>
      refine .inr (still_take_update h (.same rfl rfl rfl rfl) ?_)
      refine List.forall_mem_singleton.mpr ?_
      exact ⟨trivial, fun _ _ _ => rfl⟩
    | notLeader => exact .inr (still_take_update h (.refl w _ i) (by simp))
    | send _ _ =>
      refine .inr (still_take_update h (.refl w _ i) ?_)
      refine List.forall_mem_singleton.mpr ?_
      exact ⟨trivial, fun _ _ _ => rfl⟩
  | sendInstall k i server ht =>
    refine .inr (still_take_update h (.refl w _ i) ?_)
    refine List.forall_mem_singleton.mpr ?_
    exact ⟨trivial, fun _ _ _ => rfl⟩
  | vote k src dst waiting args rf' reply ht ho =>
    by_cases hv : reply.voteGranted = false
    · exact .inr (still_refuse h ht ho hv)
    · cases ho with
      | stale _ => exact absurd rfl hv
      | refused _ => exact absurd rfl hv
      | granted hle hup hfree hrf =>
        exact .inl (.grant k src dst waiting args rf' ht hle hup hfree hrf)
  | append k src dst waiting args rf' reply ok ht ho =>
    have hheed : (w.picked (.task k)).bind heeded = some (dst, args.term) := by
      simp [picked, ht, heeded]
    cases ho with
    | stale _ =>
      exact .inr (still_take_update h (.refl w _ dst) (inert_answerIf ⟨trivial, fun _ _ _ => rfl⟩))
    | refused hle _ =>
      exact .inr (still_take_update h (.heeds hheed hle rfl)
        (inert_answerIf ⟨trivial, fun _ _ _ => rfl⟩))
    | accepted hle _ _ _ _ =>
      refine .inr (still_take_update h (.heeds hheed hle rfl) ?_)
      refine List.forall_mem_singleton.mpr ?_
      cases waiting <;> exact ⟨trivial, fun _ _ _ => rfl⟩
  | install k src dst waiting args rf' reply ht ho =>
    have hheed : (w.picked (.task k)).bind heeded = some (dst, args.term) := by
      simp [picked, ht, heeded]
    have hin : Inert b w (.answer src dst (.installSnapshot args reply)) :=
      ⟨trivial, fun _ _ _ => rfl⟩
    cases ho with
    | stale _ => exact .inr (still_take_update h (.refl w _ dst) (inert_answerIf hin))
    | ignored hle =>
      exact .inr (still_take_update h (.heeds hheed hle rfl) (inert_answerIf hin))
    | installed hle _ =>
      exact .inr (still_take_update h (.heeds hheed hle rfl) (inert_answerIf hin))
  | voteReply k src dst args reply rf' gs ht ho =>
    cases ho with
    | higher hlt => exact .inr (still_take_update h (.higher hlt rfl) (by simp [spawn]))
    | same _ => exact .inr (still_take_update h (.refl w _ src) (by simp [spawn]))
    | counted hc hg hrt _ => exact .inl (.count k src dst args reply ht hc hg hrt)
    | elected hc _ hmaj => exact .inl (.win k src dst args reply ht hc hmaj)
  | appendReply k src dst args reply rf' gs commit ht ho =>
    cases ho with
    | tables hgs =>
      refine .inr (still_take_update h (.same rfl rfl rfl rfl) ?_)
      rw [if_neg (by simp), List.append_nil]
      refine inert_spawn ?_
      intro g hg server t
      rw [hgs g hg]
      simp
    | higher hlt => exact .inr (still_take_update h (.higher hlt rfl) (by simp [spawn]))
    | matched _ _ hu =>
      refine .inr (still_take_update h ?_ ?_)
      · rcases Peer.leaderUpdateCommit_eq_some hu with rfl | ⟨i, -, -, rfl⟩
        · exact .same rfl rfl rfl rfl
        · exact .same rfl rfl rfl rfl
      · refine List.forall_mem_singleton.mpr ?_
        exact ⟨trivial, fun _ _ _ => rfl⟩
  | installReply k src dst args reply ht =>
    refine .inr (still_take_update h ?_ (by simp))
    by_cases hlt : (w.rafts src).currentTerm < reply.term
    · rw [Peer.handleInstallSnapshotReply, if_pos hlt]
      exact .higher hlt rfl
    · rw [Peer.handleInstallSnapshotReply, if_neg hlt]
      exact .refl w _ src
  | failRequest k src dst args ht =>
    refine .inr (still_take_update h (.same rfl rfl rfl rfl) ?_)
    refine List.forall_mem_singleton.mpr ?_
    exact ⟨trivial, fun _ _ _ => rfl⟩
  | failAnswer k src dst args reply ht =>
    exact .inr (still_take_update h (.same rfl rfl rfl rfl) (by simp))
  | collect k i next rf' msgs ht hn ho =>
    have hset : Stays w (.task k) i rf' := by
      cases ho <;> exact .same rfl rfl rfl rfl
    have hc : Still b w (.task k) ((w.take k).update i rf' []) :=
      still_take_update h hset (by simp)
    refine .inr ⟨hc.peers, hc.tasks, hc.tokens, applying_update h.owed ?_⟩
    intro msgs' next' heq
    obtain ⟨-, rfl⟩ := Prod.mk.inj (Option.some.inj heq)
    exact h.taskOk ht
  | send i next msg msgs ha =>
    refine .inr ⟨fun j => .refl w _ j, h.tasks, fun _ _ _ => le_rfl, applying_update h.owed ?_⟩
    intro msgs' next' heq
    obtain ⟨-, rfl⟩ := Prod.mk.inj (Option.some.inj heq)
    exact h.owed i _ _ ha
  | release i next ha =>
    have hc := still_update h (.refl w (.applyNext i) i) (inert_owed (i := i) (h.owed i _ _ ha))
    rw [update, Function.update_eq_self] at hc
    exact .inr ⟨hc.peers, hc.tasks, hc.tokens, applying_update h.owed (by simp)⟩
  | restart i => exact .inr (still_restart h i (hh i))

theorem tally_init [Inhabited C] : Tally .empty (init : World n C D) where
  asked := fun _ _ _ h => h.elim
  counted := by
    intro i hi
    change (Peer.make i .makePersister : Peer n C D).status = .candidate at hi
    rw [make_status] at hi
    exact absurd hi (by simp)
  token := by
    intro i hi
    change (Peer.make i .makePersister : Peer n C D).status = .candidate at hi
    rw [make_status] at hi
    exact absurd hi (by simp)
  tasks := by simp [init]
  owed := by simp [init]

end World

end ShardRaft.Raft
