import ShardRaft.Raft.Tally

/-!
# Election safety

Two servers are never leader in the same term, if two things never happen:

* `VoteKept`: no `AppendEntries` or `InstallSnapshot` of the current term
  reaches a peer that has voted for somebody else in this term.  The handler
  calls `becomeFollower(args.Term, -1)` also when the term does not change, and
  the vote is gone.
* `AskedInTime`: no goroutine spawned for one election builds its request as
  the candidate of a later one.  Two requests of one term would then reach the
  same voter, who grants both, and both are counted.

Neither is promised by the code; `two_leaders` is a run in which the second one
happens.

A leader of term `t` was elected by votes of term `t - 1`, so the invariant is
about votes: they are counted once (`Tally`), and a peer gives one in a term.
-/

namespace ShardRaft.Raft

open ShardRaft.Lib

variable {n : Nat} {C D : Type}

namespace World

/-! ### What must not happen -/

/-- A request of term `term` makes `rf` forget a vote of this very term. -/
def Forgets (rf : Peer n C D) (term : Int) : Prop :=
  rf.currentTerm = term ∧ rf.votedFor ≠ none ∧ rf.votedFor ≠ some rf.me

instance (rf : Peer n C D) (term : Int) : Decidable (Forgets rf term) :=
  inferInstanceAs (Decidable (_ ∧ _ ∧ _))

/-- The step makes no peer forget a vote it has given to another. -/
def VoteKept (w : World n C D) (e : Event C D n) : Prop :=
  ∀ x ∈ (w.picked e).bind heeded, ¬ Forgets (w.rafts x.1) x.2

/-- A step after which elections are still sound. -/
def FairElection (w : World n C D) (e : Event C D n) : Prop := w.VoteKept e ∧ w.AskedInTime e

instance (w : World n C D) (e : Event C D n) : Decidable (w.VoteKept e) :=
  inferInstanceAs (Decidable (∀ x ∈ (w.picked e).bind heeded, ¬ Forgets (w.rafts x.1) x.2))

instance (w : World n C D) (e : Event C D n) : Decidable (w.FairElection e) :=
  inferInstanceAs (Decidable (_ ∧ _))

/-! ### The invariant -/

/-- **The invariant of elections.** -/
structure Elect (b : Ballots n) (w : World n C D) : Prop where
  candidate : ∀ i, (w.rafts i).status = .candidate → (w.rafts i).votedFor = some i
  leader : ∀ i, (w.rafts i).status = .leader →
    (w.rafts i).votedFor = none ∧ b.leads i (w.rafts i).currentTerm
  voted : ∀ v c t, b.votes v c t → t ≤ (w.rafts v).currentTerm ∧
    (t = (w.rafts v).currentTerm → (w.rafts v).votedFor = some c ∧ c ≠ v)
  asked : ∀ v c t, b.votes v c t → t ≤ (w.rafts c).currentTerm
  once : ∀ v c c' t, b.votes v c t → b.votes v c' t → c = c'
  counted : ∀ c, (w.rafts c).status = .candidate →
    (w.rafts c).numVoteGathered ≤ (b.counted c).card + 1 ∧ c ∉ b.counted c ∧
      ∀ v ∈ b.counted c, b.votes v c (w.rafts c).currentTerm
  token : ∀ c, (w.rafts c).status = .candidate → ∀ v,
    w.tokens c v (w.rafts c).currentTerm + (if v ∈ b.counted c then 1 else 0) ≤ 1
  tasks : ∀ task ∈ w.tasks, TaskOk b (fun i => (w.rafts i).currentTerm) task
  owed : ∀ i msgs next, w.applying i = some (msgs, next) → Owed next
  elected : ∀ c t, b.leads c t → t ≤ (w.rafts c).currentTerm ∧
    ∃ q : Finset (Fin n), n / 2 < q.card ∧ ∀ v ∈ q, b.votes v c (t - 1)

/-- **At most one leader in a term**, because two majorities share a voter. -/
theorem Elect.unique {b : Ballots n} {w : World n C D} (h : Elect b w) {c c' : Fin n} {t : Int}
    (hc : b.leads c t) (hc' : b.leads c' t) : c = c' := by
  obtain ⟨-, q, hq, hv⟩ := h.elected c t hc
  obtain ⟨-, q', hq', hv'⟩ := h.elected c' t hc'
  have hcard : Fintype.card (Fin n) < q.card + q'.card := by
    rw [Fintype.card_fin]; omega
  obtain ⟨v, hmem⟩ := Finset.inter_nonempty_of_card_lt_card_add_card (Finset.subset_univ q)
    (Finset.subset_univ q') (by rwa [Finset.card_univ])
  rw [Finset.mem_inter] at hmem
  exact h.once v c c' (t - 1) (hv v hmem.1) (hv' v hmem.2)

theorem Elect.tally {b : Ballots n} {w : World n C D} (h : Elect b w) : Tally b w :=
  ⟨h.asked, h.counted, h.token, h.tasks, h.owed⟩

/-! ### Steps without a new vote -/

/-- Peer `i` has neither started nor won an election, and keeps its vote as long
as it keeps its term. -/
structure Settles (b : Ballots n) (i : Fin n) (rf rf' : Peer n C D) : Prop where
  term : rf.currentTerm ≤ rf'.currentTerm
  vote : rf'.currentTerm = rf.currentTerm → ∀ c, b.votes i c rf.currentTerm →
    rf'.votedFor = some c
  status : rf'.status = .follower ∨ (rf'.status = rf.status ∧ rf'.currentTerm = rf.currentTerm ∧
    rf'.numVoteGathered = rf.numVoteGathered ∧ rf'.votedFor = rf.votedFor)

/-- A step without a new vote, a new candidate or a new leader. -/
structure Calm (b : Ballots n) (w w' : World n C D) : Prop where
  peers : ∀ i, Settles b i (w.rafts i) (w'.rafts i)
  tasks : ∀ task ∈ w'.tasks, TaskOk b (fun i => (w.rafts i).currentTerm) task
  tokens : ∀ c v t, w'.tokens c v t ≤ w.tokens c v t
  owed : ∀ i msgs next, w'.applying i = some (msgs, next) → Owed next

theorem Calm.tally {b : Ballots n} {w w' : World n C D} (hc : Calm b w w') (h : Tally b w) :
    Tally b w' := by
  refine h.steady (fun i => ⟨(hc.peers i).term, fun hcand => ?_⟩) hc.tasks hc.tokens hc.owed
  rcases (hc.peers i).status with hf | ⟨hs, ht, hn, -⟩
  · rw [hf] at hcand
    exact absurd hcand (by simp)
  · exact ⟨hs ▸ hcand, ht, hn⟩

theorem Calm.elect {b : Ballots n} {w w' : World n C D} (hc : Calm b w w') (h : Elect b w) :
    Elect b w' where
  candidate := by
    intro i hi
    rcases (hc.peers i).status with hf | ⟨hs, -, -, hv⟩
    · rw [hf] at hi; exact absurd hi (by simp)
    · rw [hv]; exact h.candidate i (hs ▸ hi)
  leader := by
    intro i hi
    rcases (hc.peers i).status with hf | ⟨hs, ht, -, hv⟩
    · rw [hf] at hi; exact absurd hi (by simp)
    · rw [ht, hv]; exact h.leader i (hs ▸ hi)
  voted := by
    intro v c t hv
    obtain ⟨hle, heq⟩ := h.voted v c t hv
    refine ⟨hle.trans (hc.peers v).term, ?_⟩
    intro ht
    have hsame : (w'.rafts v).currentTerm = (w.rafts v).currentTerm := by
      have := (hc.peers v).term; omega
    have ht' : t = (w.rafts v).currentTerm := ht.trans hsame
    exact ⟨(hc.peers v).vote hsame c (ht' ▸ hv), (heq ht').2⟩
  asked := (hc.tally h.tally).asked
  once := h.once
  counted := (hc.tally h.tally).counted
  token := (hc.tally h.tally).token
  tasks := (hc.tally h.tally).tasks
  owed := hc.owed
  elected := fun c t hl => ⟨(h.elected c t hl).1.trans (hc.peers c).term, (h.elected c t hl).2⟩

/-! ### Each of the five keeps the invariant -/

theorem elect_election {b : Ballots n} {w : World n C D} (h : Elect b w) (i : Fin n)
    (hme : (w.rafts i).me = i) :
    Elect (b.open_ i) (w.update i (w.rafts i).becomeCandidate
      (spawn i (w.rafts i).becomeCandidate.candidateGatherVotes)) := by
  have hterm : ∀ j, (w.rafts j).currentTerm ≤ ((w.update i (w.rafts i).becomeCandidate
      (spawn i (w.rafts i).becomeCandidate.candidateGatherVotes)).rafts j).currentTerm :=
    currentTerm_le_update w (Int.le_add_one le_rfl)
  have hcount := tally_election h.tally i hme
  refine ⟨?_, ?_, ?_, hcount.asked, h.once, hcount.counted, hcount.token, hcount.tasks,
    hcount.owed, ?_⟩
  · intro j hj
    by_cases hji : j = i
    · rw [hji, update_rafts_self]
      exact congrArg some hme
    · rw [update_rafts_ne _ hji] at hj ⊢
      exact h.candidate j hj
  · intro j hj
    by_cases hji : j = i
    · rw [hji, update_rafts_self] at hj
      exact absurd hj (by simp)
    · rw [update_rafts_ne _ hji] at hj ⊢
      exact h.leader j hj
  · intro v c t hv
    obtain ⟨hle, heq⟩ := h.voted v c t hv
    refine ⟨hle.trans (hterm v), ?_⟩
    intro ht
    by_cases hvi : v = i
    · -- the new term is above every vote given so far
      rw [hvi] at hle
      rw [hvi, update_rafts_self] at ht
      change t = (w.rafts i).currentTerm + 1 at ht
      omega
    · rw [update_rafts_ne _ hvi] at ht ⊢
      exact heq ht
  · exact fun c t hl => ⟨(h.elected c t hl).1.trans (hterm c), (h.elected c t hl).2⟩

theorem elect_askVote {b : Ballots n} {w : World n C D} (h : Elect b w) {k : Nat}
    {i server : Fin n} {election : Int} (hme : (w.rafts i).me = i)
    (ht : w.tasks[k]? = some (.goroutine i (.handleSendRequestVote server election)))
    (hok : (w.rafts i).status = .candidate → (w.rafts i).currentTerm = election) :
    Elect b ((w.take k).update i (w.rafts i)
      [.request i server (.requestVote ⟨(w.rafts i).currentTerm, (w.rafts i).me,
        (w.rafts i).getLastLogEntryIndex, (w.rafts i).lastTerm⟩) true]) := by
  have hr : ((w.take k).update i (w.rafts i)
      [.request i server (.requestVote ⟨(w.rafts i).currentTerm, (w.rafts i).me,
        (w.rafts i).getLastLogEntryIndex, (w.rafts i).lastTerm⟩) true]).rafts = w.rafts :=
    update_rafts_same (w.take k) i _
  have hcount := tally_askVote h.tally hme ht hok
  refine ⟨?_, ?_, ?_, hcount.asked, h.once, hcount.counted, hcount.token, hcount.tasks,
    hcount.owed, ?_⟩ <;> rw [hr]
  · exact h.candidate
  · exact h.leader
  · exact h.voted
  · exact h.elected

/-- A peer that is free to vote in a term has voted in it for this candidate only. -/
theorem Elect.candidate_of_free {b : Ballots n} {w : World n C D} (h : Elect b w)
    {dst cand c : Fin n} {t : Int} (hme : (w.rafts dst).me = dst)
    (hle : (w.rafts dst).currentTerm ≤ t)
    (hfree : (w.rafts dst).currentTerm = t → (w.rafts dst).votedFor = none ∨
      (w.rafts dst).votedFor = some cand ∨
      ((w.rafts dst).votedFor = some (w.rafts dst).me ∧ (w.rafts dst).status = .candidate))
    (hv : b.votes dst c t) : c = cand := by
  obtain ⟨hle', heq⟩ := h.voted dst c t hv
  have hsame : (w.rafts dst).currentTerm = t := le_antisymm hle hle'
  obtain ⟨hvf, hcd⟩ := heq hsame.symm
  rcases hfree hsame with h1 | h1 | ⟨h1, -⟩
  · rw [h1] at hvf
    exact absurd hvf (by simp)
  · rw [h1] at hvf
    exact (Option.some.inj hvf).symm
  · -- a candidate that yields has voted for itself, and its own vote is not on record yet
    rw [h1, hme] at hvf
    exact absurd (Option.some.inj hvf).symm hcd

theorem elect_grant {b : Ballots n} {w w' : World n C D} (h : Elect b w) {k : Nat}
    {src dst : Fin n} {waiting : Bool} {args : RequestVoteArgs n} {rf' : Peer n C D}
    (hme : (w.rafts dst).me = dst)
    (ht : w.tasks[k]? = some (.request src dst (.requestVote args) waiting))
    (hle : (w.rafts dst).currentTerm ≤ args.term)
    (hfree : (w.rafts dst).currentTerm = args.term → (w.rafts dst).votedFor = none ∨
      (w.rafts dst).votedFor = some args.candidateId ∨
      ((w.rafts dst).votedFor = some (w.rafts dst).me ∧ (w.rafts dst).status = .candidate))
    (hs : rf'.status = .follower) (hterm : rf'.currentTerm = args.term)
    (hvote : rf'.votedFor = some args.candidateId)
    (hw : w' = (w.take k).update dst rf'
      (answerIf waiting src dst (.requestVote args ⟨args.term, true⟩))) :
    Elect (b.vote dst src args.term) w' := by
  obtain ⟨hne, hcand, -⟩ := h.tally.taskOk ht
  have hself : w'.rafts dst = rf' := by rw [hw]; exact update_rafts_self ..
  have hother : ∀ j, j ≠ dst → w'.rafts j = w.rafts j := by
    intro j hj; rw [hw]; exact update_rafts_ne _ hj ..
  have hmono : ∀ j, (w.rafts j).currentTerm ≤ (w'.rafts j).currentTerm := by
    rw [hw]
    exact currentTerm_le_update (w.take k) (hle.trans_eq hterm.symm)
  have hold : ∀ c, b.votes dst c args.term → c = src := fun c hv =>
    (h.candidate_of_free hme hle hfree hv).trans hcand
  have hincl : ∀ v c t, b.votes v c t → (b.vote dst src args.term).votes v c t :=
    fun _ _ _ hv => .inl hv
  have hcount := tally_grant h.tally ht hle hs hterm hw
  refine ⟨?_, ?_, ?_, hcount.asked, ?_, hcount.counted, hcount.token, hcount.tasks, hcount.owed,
    ?_⟩
  · intro j hj
    by_cases hjd : j = dst
    · rw [hjd, hself, hs] at hj; exact absurd hj (by simp)
    · rw [hother j hjd] at hj ⊢; exact h.candidate j hj
  · intro j hj
    by_cases hjd : j = dst
    · rw [hjd, hself, hs] at hj; exact absurd hj (by simp)
    · rw [hother j hjd] at hj ⊢; exact h.leader j hj
  · intro v c t hv
    rcases hv with hv | ⟨rfl, rfl, rfl⟩
    · obtain ⟨hle', heq⟩ := h.voted v c t hv
      refine ⟨hle'.trans (hmono v), ?_⟩
      intro heqt
      by_cases hvd : v = dst
      · subst hvd
        rw [hself, hterm] at heqt
        subst heqt
        obtain rfl := hold c hv
        rw [hself, hvote, hcand]
        exact ⟨rfl, hne⟩
      · rw [hother v hvd] at heqt ⊢
        exact heq heqt
    · rw [hself, hterm, hvote, hcand]
      exact ⟨le_rfl, fun _ => ⟨rfl, hne⟩⟩
  · intro v c c' t hv hv'
    rcases hv with hv | ⟨rfl, rfl, rfl⟩
    · rcases hv' with hv' | ⟨rfl, rfl, rfl⟩
      · exact h.once v c c' t hv hv'
      · exact hold c hv
    · rcases hv' with hv' | ⟨-, rfl, -⟩
      · exact (hold c' hv').symm
      · rfl
  · intro c t hl
    obtain ⟨h1, q, hq, hv⟩ := h.elected c t hl
    exact ⟨h1.trans (hmono c), q, hq, fun v hvq => hincl _ _ _ (hv v hvq)⟩

theorem elect_count {b : Ballots n} {w w' : World n C D} (h : Elect b w) {k : Nat}
    {src dst : Fin n} {args : RequestVoteArgs n} {reply : RequestVoteReply}
    (ht : w.tasks[k]? = some (.answer src dst (.requestVote args reply)))
    (hc : (w.rafts src).status = .candidate) (hg : reply.voteGranted = true)
    (hterm : reply.term = (w.rafts src).currentTerm)
    (hw : w' = (w.take k).update src
      { w.rafts src with numVoteGathered := (w.rafts src).numVoteGathered + 1 } []) :
    Elect (b.count src dst) w' := by
  have hself : w'.rafts src
      = { w.rafts src with numVoteGathered := (w.rafts src).numVoteGathered + 1 } := by
    rw [hw]; exact update_rafts_self ..
  have hother : ∀ j, j ≠ src → w'.rafts j = w.rafts j := by
    intro j hj; rw [hw]; exact update_rafts_ne _ hj ..
  have hview : ∀ j, (w'.rafts j).status = (w.rafts j).status ∧
      (w'.rafts j).currentTerm = (w.rafts j).currentTerm ∧
      (w'.rafts j).votedFor = (w.rafts j).votedFor := by
    intro j
    by_cases hj : j = src
    · rw [hj, hself]; exact ⟨rfl, rfl, rfl⟩
    · rw [hother j hj]; exact ⟨rfl, rfl, rfl⟩
  have hcount := tally_count h.tally ht hc hg hterm hw
  refine ⟨?_, ?_, ?_, hcount.asked, h.once, hcount.counted, hcount.token, hcount.tasks,
    hcount.owed, ?_⟩
  · intro j hj
    rw [(hview j).1] at hj
    rw [(hview j).2.2]
    exact h.candidate j hj
  · intro j hj
    rw [(hview j).1] at hj
    rw [(hview j).2.1, (hview j).2.2]
    exact h.leader j hj
  · intro v c t hv
    rw [(hview v).2.1, (hview v).2.2]
    exact h.voted v c t hv
  · intro c t hl
    rw [(hview c).2.1]
    exact h.elected c t hl

theorem elect_win {b : Ballots n} {w w' : World n C D} (h : Elect b w) {k : Nat}
    {src dst : Fin n} {args : RequestVoteArgs n} {reply : RequestVoteReply}
    (ht : w.tasks[k]? = some (.answer src dst (.requestVote args reply)))
    (hc : (w.rafts src).status = .candidate)
    (hmaj : n / 2 < (w.rafts src).numVoteGathered ∨ (reply.voteGranted = true ∧
      reply.term = (w.rafts src).currentTerm ∧ n / 2 < (w.rafts src).numVoteGathered + 1))
    (hw : w' = (w.take k).update src (w.rafts src).becomeLeader.1
      (spawn src (w.rafts src).becomeLeader.2)) :
    Elect (b.win src (w.rafts src).currentTerm) w' := by
  have hself : w'.rafts src = (w.rafts src).becomeLeader.1 := by
    rw [hw]; exact update_rafts_self ..
  have hother : ∀ j, j ≠ src → w'.rafts j = w.rafts j := by
    intro j hj; rw [hw]; exact update_rafts_ne _ hj ..
  have hterm : (w'.rafts src).currentTerm = (w.rafts src).currentTerm + 1 := by rw [hself]; rfl
  have hmono : ∀ j, (w.rafts j).currentTerm ≤ (w'.rafts j).currentTerm := by
    rw [hw]
    exact currentTerm_le_update (w.take k) (Int.le_add_one le_rfl)
  have hincl : ∀ v c t, b.votes v c t → (b.win src (w.rafts src).currentTerm).votes v c t :=
    fun _ _ _ hv => .inl hv
  -- a candidate has given its vote to itself, so no other vote of this term is its own
  have hold : ∀ c, ¬ b.votes src c (w.rafts src).currentTerm := by
    intro c hv
    obtain ⟨hvf, hcs⟩ := (h.voted src c _ hv).2 rfl
    rw [h.candidate src hc] at hvf
    exact hcs (Option.some.inj hvf).symm
  have hasked : ∀ v c t, (b.win src (w.rafts src).currentTerm).votes v c t →
      t ≤ (w'.rafts c).currentTerm := by
    intro v c t hv
    rcases hv with hv | ⟨-, rfl, rfl⟩
    · exact (h.asked v c t hv).trans (hmono c)
    · exact hmono c
  have hcount : Tally (b.win src (w.rafts src).currentTerm) w' :=
    (tally_win h.tally ht hw).mono rfl hincl hasked
  refine ⟨?_, ?_, ?_, hasked, ?_, hcount.counted, hcount.token, hcount.tasks, hcount.owed, ?_⟩
  · intro j hj
    by_cases hjs : j = src
    · rw [hjs, hself] at hj; exact absurd hj (by simp)
    · rw [hother j hjs] at hj ⊢; exact h.candidate j hj
  · intro j hj
    by_cases hjs : j = src
    · rw [hjs, hterm, hself]
      exact ⟨rfl, .inr ⟨rfl, rfl⟩⟩
    · rw [hother j hjs] at hj ⊢
      exact ⟨(h.leader j hj).1, .inl (h.leader j hj).2⟩
  · intro v c t hv
    have hle : t ≤ (w.rafts v).currentTerm := by
      rcases hv with hv | ⟨rfl, -, rfl⟩
      · exact (h.voted v c t hv).1
      · exact le_rfl
    refine ⟨hle.trans (hmono v), ?_⟩
    intro heq
    by_cases hvs : v = src
    · rw [hvs] at hle
      rw [hvs, hterm] at heq
      omega
    · rw [hother v hvs] at heq ⊢
      rcases hv with hv | ⟨hv, -⟩
      · exact (h.voted v c t hv).2 heq
      · exact absurd hv hvs
  · intro v c c' t hv hv'
    rcases hv with hv | ⟨rfl, rfl, rfl⟩
    · rcases hv' with hv' | ⟨rfl, rfl, rfl⟩
      · exact h.once v c c' t hv hv'
      · exact absurd hv (hold c)
    · rcases hv' with hv' | ⟨-, rfl, -⟩
      · exact absurd hv' (hold c')
      · rfl
  · intro c t hl
    rcases hl with hl | ⟨rfl, rfl⟩
    · obtain ⟨h1, q, hq, hv⟩ := h.elected c t hl
      exact ⟨h1.trans (hmono c), q, hq, fun v hvq => hincl _ _ _ (hv v hvq)⟩
    · refine ⟨hterm.ge, ?_⟩
      rw [show (w.rafts c).currentTerm + 1 - 1 = (w.rafts c).currentTerm by omega]
      obtain ⟨q, hnot, hcard, hvotes⟩ := h.tally.majority ht hc hmaj
      refine ⟨insert c q, by rwa [Finset.card_insert_of_notMem hnot], ?_⟩
      intro v hv
      rcases Finset.mem_insert.mp hv with rfl | hv
      · exact .inr ⟨rfl, rfl, rfl⟩
      · exact hincl _ _ _ (hvotes v hv)

/-! ### All steps -/

/-- A step without an election keeps the votes that must be kept. -/
theorem Stays.settles {b : Ballots n} {w : World n C D} {e : Event C D n} {i : Fin n}
    {rf' : Peer n C D} (hp : Stays w e i rf') (h : Elect b w) (hme : (w.rafts i).me = i)
    (hk : w.VoteKept e) : Settles b i (w.rafts i) rf' := by
  have hvoted : ∀ c, b.votes i c (w.rafts i).currentTerm → (w.rafts i).votedFor = some c ∧ c ≠ i :=
    fun c hv => (h.voted i c _ hv).2 rfl
  cases hp with
  | same hs ht hn hv =>
    exact ⟨ht.ge, fun _ c hc => hv.trans (hvoted c hc).1, .inr ⟨hs, ht, hn, hv⟩⟩
  | higher hlt hs => exact ⟨hlt.le, fun heq => absurd heq hlt.ne', .inl hs⟩
  | heeds hheed hle hs =>
    refine ⟨hle, fun heq c hc => ?_, .inl hs⟩
    -- the vote would be forgotten
    obtain ⟨hv, hci⟩ := hvoted c hc
    refine absurd ⟨heq.symm, ?_, ?_⟩ (hk _ hheed)
    · rw [hv]; simp
    · rw [hv, hme]; exact fun hh => hci (Option.some.inj hh)
  | restarts ht hv hs => exact ⟨ht.ge, fun _ c hc => hv.trans (hvoted c hc).1, .inl hs⟩

/-- **Every step is a campaign step or a calm one.** -/
theorem campaign_or_calm [Inhabited C] {b : Ballots n} {w w' : World n C D} {e : Event C D n}
    (h : Elect b w) (hh : ∀ i, Healthy i (w.rafts i)) (hf : w.FairElection e) (hm : Move w e w') :
    Campaign w e w' ∨ Calm b w w' := by
  rcases campaign_or_still h.tally hh hm with hc | hc
  · exact .inl hc
  · exact .inr ⟨fun i => (hc.peers i).settles h (hh i).me hf.1, hc.tasks, hc.tokens, hc.owed⟩

/-- **One step keeps the invariant**, with the ballots it casts. -/
theorem elect_step [Inhabited C] {b : Ballots n} {w w' : World n C D} {e : Event C D n}
    (h : Elect b w) (hh : ∀ i, Healthy i (w.rafts i)) (hf : w.FairElection e)
    (hs : w.step e = some w') :
    ∃ b' : Ballots n, Elect b' w' ∧ ∀ c t, b.leads c t → b'.leads c t := by
  rcases campaign_or_calm h hh hf (move_of_step hs) with hc | hc
  · cases hc with
    | election i _ => exact ⟨b.open_ i, elect_election h i (hh i).me, fun _ _ hl => hl⟩
    | askVote k i server election ht =>
      have hok := hf.2 (i, election) (by simp [picked, ht, asking])
      exact ⟨b, elect_askVote h (hh i).me ht hok, fun _ _ hl => hl⟩
    | grant k src dst waiting args rf' ht hle _ hfree hrf =>
      refine ⟨b.vote dst src args.term, ?_, fun _ _ hl => hl⟩
      refine elect_grant h (hh dst).me ht hle hfree ?_ ?_ ?_ rfl <;> rcases hrf with rfl | rfl <;> rfl
    | count k src dst args reply ht hc hg hrt =>
      exact ⟨b.count src dst, elect_count h ht hc hg hrt rfl, fun _ _ hl => hl⟩
    | win k src dst args reply ht hc hmaj =>
      exact ⟨b.win src _, elect_win h ht hc hmaj rfl, fun _ _ hl => .inl hl⟩
  · exact ⟨b, hc.elect h, fun _ _ hl => hl⟩

theorem elect_init [Inhabited C] :
    Elect .empty (init : World n C D) where
  candidate := by
    intro i hi
    change (Peer.make i .makePersister : Peer n C D).status = .candidate at hi
    rw [make_status] at hi
    exact absurd hi (by simp)
  leader := by
    intro i hi
    change (Peer.make i .makePersister : Peer n C D).status = .leader at hi
    rw [make_status] at hi
    exact absurd hi (by simp)
  voted := fun _ _ _ h => h.elim
  asked := fun _ _ _ h => h.elim
  once := fun _ _ _ _ h => h.elim
  counted := tally_init.counted
  token := tally_init.token
  tasks := tally_init.tasks
  owed := tally_init.owed
  elected := fun _ _ h => h.elim

theorem elect_run [Inhabited C] :
    ∀ tr : List (World n C D), Run FairElection tr →
      ∃ b : Ballots n, (∀ w ∈ tr.head?, Elect b w) ∧
        ∀ w ∈ tr, ∀ i, (w.rafts i).status = .leader → b.leads i (w.rafts i).currentTerm := by
  intro tr h
  induction h with
  | init =>
    refine ⟨.empty, ?_, ?_⟩
    · intro w hw
      rw [← Option.some.inj hw]
      exact elect_init
    · intro w hw i hi
      rw [List.mem_singleton.mp hw] at hi ⊢
      exact (elect_init.leader i hi).2
  | @step w w' e past ht hok hs ih =>
    obtain ⟨b, hb, hl⟩ := ih
    have hh := healthy_run _ ht w (List.mem_cons_self ..)
    obtain ⟨b', hb', hmono⟩ := elect_step (hb w rfl) hh hok hs
    refine ⟨b', ?_, ?_⟩
    · intro v hv
      rw [← Option.some.inj hv]
      exact hb'
    · intro v hv i hi
      rcases List.mem_cons.mp hv with rfl | hv
      · exact (hb'.leader i hi).2
      · exact hmono _ _ (hl v hv i hi)

/-- **Election safety.**  In a run in which no vote is forgotten and no election
asks twice, no two servers are ever leader in the same term. -/
theorem election_safety [Inhabited C] :
    ∀ tr : List (World n C D), Run FairElection tr → ∀ w ∈ tr, ∀ w' ∈ tr, ∀ i j : Fin n,
      (w.rafts i).status = .leader → (w'.rafts j).status = .leader →
      (w.rafts i).currentTerm = (w'.rafts j).currentTerm → i = j := by
  intro tr h w hw w' hw' i j hi hj hterm
  obtain ⟨b, hb, hl⟩ := elect_run tr h
  have hii := hl w hw i hi
  have hjj := hl w' hw' j hj
  rw [← hterm] at hjj
  cases tr with
  | nil => exact absurd hw List.not_mem_nil
  | cons v past => exact (hb v rfl).unique hii hjj

/-- Server `0` is elected with the vote of server `1`. -/
def sampleElection : List (Event Nat Unit 3) :=
  [.ticker 0 true, .task 0, .task 1, .task 1]

theorem election_safety_sampleElection :
    ∃ tr, run step FairElection (init : World 3 Nat Unit) sampleElection [] = some tr ∧
      (∃ w ∈ tr, (w.rafts 0).status = .leader) ∧
      ∀ w ∈ tr, ∀ w' ∈ tr, ∀ i j : Fin 3,
        (w.rafts i).status = .leader → (w'.rafts j).status = .leader →
        (w.rafts i).currentTerm = (w'.rafts j).currentTerm → i = j := by
  have hs : ((run step FairElection (init : World 3 Nat Unit) sampleElection []).any
      fun tr => tr.any fun w => decide ((w.rafts 0).status = .leader)) = true := by
    decide +kernel
  obtain ⟨tr, h, hl⟩ := (Option.any_eq_true ..).mp hs
  refine ⟨tr, h, ?_, election_safety tr (trace_of_run h)⟩
  simpa using hl

/-- Servers `0` and `2` each start two elections before the goroutines of the
first build their requests, so servers `1` and `3` are both asked twice for one
vote, and both votes are counted. -/
def doubleVotes : List (Event Nat Unit 4) :=
  [.ticker 0 true, .ticker 0 true, .task 0, .task 2, .task 4, .task 4, .task 4, .task 4,
    .ticker 2 true, .ticker 2 true, .task 9, .task 11, .task 11, .task 11, .task 11, .task 11]

/-- **Two leaders of one term**, when nothing is asked of the run. -/
theorem two_leaders :
    ¬ ∀ tr : List (World 4 Nat Unit), Run (fun _ _ => True) tr → ∀ w ∈ tr, ∀ w' ∈ tr,
      ∀ i j : Fin 4, (w.rafts i).status = .leader → (w'.rafts j).status = .leader →
      (w.rafts i).currentTerm = (w'.rafts j).currentTerm → i = j := by
  intro hall
  have hs : ((run step (fun _ _ => True) (init : World 4 Nat Unit) doubleVotes []).any fun tr =>
      tr.any fun w => decide ((w.rafts 0).status = .leader ∧ (w.rafts 2).status = .leader ∧
        (w.rafts 0).currentTerm = (w.rafts 2).currentTerm)) = true := by
    decide +kernel
  obtain ⟨tr, h, hl⟩ := (Option.any_eq_true ..).mp hs
  obtain ⟨w, hw, hl⟩ := List.any_eq_true.mp hl
  obtain ⟨h0, h2, ht⟩ := of_decide_eq_true hl
  exact absurd (hall tr (trace_of_run h) w hw w hw 0 2 h0 h2 ht) (by decide)

end World

end ShardRaft.Raft
