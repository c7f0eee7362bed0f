import ShardRaft.Lib.Ledger
import ShardRaft.Raft.Leading

/-!
# One vote per term

A peer should answer one candidate only with a vote in a term.  What a peer has granted is
not part of its state for long: `becomeFollower` overwrites `votedFor` also within a term,
and `becomeLeader` clears it.  So the record of a run (`granted`) has every vote that
`RequestVote` grants, with what the voter was at that moment.

Two things must not happen to a run (`VotesOnce`):

* `VoteKept`: no `AppendEntries` or `InstallSnapshot` of the current term reaches a peer
  that has voted for somebody else in it.
* `LeaderUnasked`: no up-to-date `RequestVote` of its own term reaches a leader.  A leader
  has no vote of its term, so it grants one.

`two_votes` has a run for each in which it does.
-/

namespace ShardRaft.Raft

open ShardRaft.Lib

variable {n : Nat} {C D : Type}

/-- A vote that was granted, and what the voter was when the request came. -/
structure Grant (n : Nat) where
  voter : Fin n
  candidate : Fin n
  term : Int
  status : RaftStatus
  currentTerm : Int
deriving DecidableEq, Repr

namespace World

/-- The voter and the arguments of a request for a vote. -/
def asked : Task n C D → Option (Fin n × RequestVoteArgs n)
  | .request _ dst (.requestVote args) _ => some (dst, args)
  | _ => none

/-- The vote a handler grants, if it does. -/
def grantOf (w : World n C D) (x : Fin n × RequestVoteArgs n) : Option (Grant n) :=
  match (w.rafts x.1).requestVote x.2 with
  | some (_, reply) =>
    if reply.voteGranted then some ⟨x.1, x.2.candidateId, reply.term, (w.rafts x.1).status,
      (w.rafts x.1).currentTerm⟩ else none
  | none => none

/-- What a step writes down. -/
def granted (w : World n C D) (e : Event C D n) : List (Grant n) :=
  (((w.picked e).bind asked).bind w.grantOf).toList

/-- No leader is asked for a vote of its term by an up-to-date candidate. -/
def LeaderUnasked (w : World n C D) (e : Event C D n) : Prop :=
  ∀ x ∈ (w.picked e).bind asked, (w.rafts x.1).status = .leader →
    (w.rafts x.1).currentTerm = x.2.term →
    (w.rafts x.1).candidateIsUpToDate x.2.lastLogTerm x.2.lastLogIndex ≠ some true

/-- A step after which every peer has still voted once. -/
def VotesOnce (w : World n C D) (e : Event C D n) : Prop := w.VoteKept e ∧ w.LeaderUnasked e

instance (w : World n C D) (e : Event C D n) : Decidable (w.LeaderUnasked e) :=
  inferInstanceAs (Decidable (∀ x ∈ (w.picked e).bind asked, _ → _ → _))

instance (w : World n C D) (e : Event C D n) : Decidable (w.VotesOnce e) :=
  inferInstanceAs (Decidable (_ ∧ _))

/-- The runs of the cluster with the record of the votes granted. -/
abbrev VoteRun [Inhabited C] (ok : World n C D → Event C D n → Prop) :
    List (Ledger (World n C D) (Grant n)) → Prop :=
  Trace (Ledger.step step granted) (fun l e => ok l.state e) (Ledger.start init)

theorem run_iff_voteRun [Inhabited C] {ok : World n C D → Event C D n → Prop}
    {tr : List (World n C D)} : Run ok tr ↔ ∃ ls, VoteRun ok ls ∧ ls.map (·.state) = tr :=
  Ledger.trace_iff

/-! ### A vote is kept -/

/-- While `rf` is in term `t`, its vote is for `c`. -/
def Voted (rf : Peer n C D) (c : Fin n) (t : Int) : Prop :=
  t ≤ rf.currentTerm ∧ (t = rf.currentTerm → rf.votedFor = some c)

theorem Voted.of_lt {rf rf' : Peer n C D} {c : Fin n} {t : Int} (h : Voted rf c t)
    (hlt : rf.currentTerm < rf'.currentTerm) : Voted rf' c t := by
  obtain ⟨hle, -⟩ := h
  exact ⟨by omega, fun ht => by omega⟩

theorem Voted.of_eq {rf rf' : Peer n C D} {c : Fin n} {t : Int} (h : Voted rf c t)
    (ht : rf'.currentTerm = rf.currentTerm) (hv : rf'.votedFor = rf.votedFor) : Voted rf' c t := by
  rw [Voted, ht, hv]
  exact h

section steps

variable {w w' : World n C D} {e : Event C D n}

/-- A request that makes its receiver follow leaves a vote of the same term alone. -/
theorem Voted.heed {v c : Fin n} {t : Int} {rf' : Peer n C D} (hk : w.VoteKept e)
    (hme : (w.rafts v).me = v) (hne : c ≠ v) (h : Voted (w.rafts v) c t)
    (hp : (w.picked e).bind heeded = some (v, rf'.currentTerm))
    (hle : (w.rafts v).currentTerm ≤ rf'.currentTerm) : Voted rf' c t := by
  refine ⟨h.1.trans hle, ?_⟩
  intro ht
  exfalso
  have hcur : (w.rafts v).currentTerm = rf'.currentTerm := by
    have := h.1
    omega
  have hv := h.2 (ht.trans hcur.symm)
  refine hk (v, rf'.currentTerm) hp ⟨hcur, ?_, ?_⟩
  · rw [hv]
    exact Option.some_ne_none c
  · rw [hv, hme]
    intro heq
    exact hne (Option.some.inj heq)

/-- **No turn takes a vote back.** -/
theorem voted_turn {v c : Fin n} {t : Int} {rf' : Peer n C D} (ht : Turn w e v rf')
    (hk : w.VoteKept e) (hme : (w.rafts v).me = v) (hne : c ≠ v) (h : Voted (w.rafts v) c t) :
    Voted rf' c t := by
  cases ht with
  | rests hs => exact h.of_eq hs.currentTerm hs.votedFor
  | follows hlt => exact h.of_lt hlt
  | heeds hp hle => exact h.heed hk hme hne hp hle
  | overwrites src waiting args hp hle _ _ _ he =>
    subst he
    exact h.heed hk hme hne (by rw [hp]; rfl) hle
  | installs src waiting args hp hle _ ht =>
    exact h.heed hk hme hne (by rw [hp, ht]; rfl) (by rw [ht]; exact hle)
  | grants src waiting args _ hle hfree ht hv =>
    refine ⟨by rw [ht]; exact h.1.trans hle, ?_⟩
    intro heq
    have hcur : (w.rafts v).currentTerm = args.term := by
      have := h.1
      omega
    have hvote := h.2 (heq.trans (ht.trans hcur.symm))
    rw [hv]
    rcases hfree hcur with hf | hf | ⟨hf, -⟩
    · rw [hvote] at hf
      exact absurd hf (Option.some_ne_none c)
    · rw [← hf]
      exact hvote
    · rw [hvote, hme] at hf
      exact absurd (Option.some.inj hf) hne
  | campaigns _ he =>
    refine h.of_lt ?_
    rw [he, Peer.becomeCandidate_currentTerm]
    omega
  | wins _ he =>
    refine h.of_lt ?_
    rw [he, Peer.becomeLeader_fst_currentTerm]
    omega
  | appends _ _ _ he => subst he; exact h.of_eq rfl rfl
  | compacts _ _ _ _ ht hv => exact h.of_eq ht hv
  | restarts ht hv => exact h.of_eq ht hv

theorem eq_request_of_asked {task : Task n C D} {dst : Fin n} {args : RequestVoteArgs n}
    (h : asked task = some (dst, args)) :
    ∃ src waiting, task = .request src dst (.requestVote args) waiting := by
  unfold asked at h
  split at h
  · cases h
    exact ⟨_, _, rfl⟩
  · exact absurd h (by simp)

theorem requestVote_of_grantOf {g : Grant n} {dst : Fin n} {args : RequestVoteArgs n}
    (h : w.grantOf (dst, args) = some g) :
    ∃ rf' term, (w.rafts dst).requestVote args = some (rf', ⟨term, true⟩) ∧
      g = ⟨dst, args.candidateId, term, (w.rafts dst).status, (w.rafts dst).currentTerm⟩ := by
  unfold grantOf at h
  split at h
  · rename_i rf' reply hr
    obtain ⟨term, vote⟩ := reply
    cases vote with
    | false => exact absurd h (by simp)
    | true => exact ⟨rf', term, hr, (Option.some.inj h).symm⟩
  · exact absurd h (by simp)

/-- A vote that is granted was asked for. -/
theorem asked_of_granted {g : Grant n} (h : g ∈ w.granted e) :
    ∃ k src waiting args rf', e = .task k ∧
      w.tasks[k]? = some (.request src g.voter (.requestVote args) waiting) ∧
      (w.rafts g.voter).requestVote args = some (rf', ⟨g.term, true⟩) ∧
      g.candidate = args.candidateId ∧ g.status = (w.rafts g.voter).status ∧
      g.currentTerm = (w.rafts g.voter).currentTerm := by
  obtain ⟨⟨dst, args⟩, hx, hg⟩ := Option.bind_eq_some_iff.mp (Option.mem_toList.mp h)
  obtain ⟨task, hp, hask⟩ := Option.bind_eq_some_iff.mp hx
  obtain ⟨src, waiting, rfl⟩ := eq_request_of_asked hask
  obtain ⟨rf', term, hr, rfl⟩ := requestVote_of_grantOf hg
  cases e with
  | task k => exact ⟨k, src, waiting, args, rf', rfl, hp, hr, rfl, rfl, rfl⟩
  | _ => exact absurd hp (by simp [picked])

/-- What a grant says of its voter, before and after. -/
theorem granted_step [Inhabited C] {g : Grant n} (h : g ∈ w.granted e)
    (hs : w.step e = some w') :
    (w'.rafts g.voter).currentTerm = g.term ∧ (w'.rafts g.voter).votedFor = some g.candidate ∧
      ∃ src args, w.Pending src g.voter (.requestVote args) ∧ args.candidateId = g.candidate ∧
        args.term = g.term ∧ (w.picked e).bind asked = some (g.voter, args) ∧
        (w.rafts g.voter).candidateIsUpToDate args.lastLogTerm args.lastLogIndex = some true := by
  obtain ⟨k, src, waiting, args, rf', rfl, ht, hr, hc, -, -⟩ := asked_of_granted h
  obtain ⟨rf₁, reply₁, hr₁, rfl⟩ := step_requestVote ht hs
  rw [hr] at hr₁
  cases hr₁
  have hout := Peer.requestVote_outcome hr
  generalize hrep : (⟨g.term, true⟩ : RequestVoteReply) = reply at hout
  cases hout with
  | stale _ => exact absurd hrep (by simp)
  | refused _ => exact absurd hrep (by simp)
  | granted _ hup _ hrf =>
    have hterm : g.term = args.term := congrArg RequestVoteReply.term hrep
    have hself : rf'.currentTerm = args.term ∧ rf'.votedFor = some args.candidateId := by
      rcases hrf with rfl | rfl
      · exact ⟨rfl, rfl⟩
      · exact ⟨rfl, rfl⟩
    change (Function.update w.rafts g.voter rf' g.voter).currentTerm = _ ∧
      (Function.update w.rafts g.voter rf' g.voter).votedFor = _ ∧ _
    rw [Function.update_self, hterm, hc]
    refine ⟨hself.1, hself.2, src, args, ⟨waiting, List.mem_of_getElem? ht⟩, rfl, rfl, ?_, ?_⟩
    · simp [picked, ht, asked]
    · exact Peer.candidateIsUpToDate_eq_some.mpr (by simp [hup])

/-! ### Requests for votes -/

/-- Nobody asks itself, and a candidate asks in its own name. -/
structure Asks (w : World n C D) : Prop where
  others : ∀ i server election,
    .goroutine i (.handleSendRequestVote server election) ∈ w.tasks → server ≠ i
  named : ∀ src dst args, w.Pending src dst (.requestVote args) →
    args.candidateId = src ∧ src ≠ dst

theorem asks_step [Inhabited C] (hh : ∀ i, Healthy i (w.rafts i)) (h : w.Asks)
    (hs : w.step e = some w') : w'.Asks := by
  have hm := move_of_step hs
  constructor
  · intro i server election hmem
    cases arises_of_move hh hm _ hmem with
    | old ht => exact h.others i server election ht
    | asks hne => exact hne
  · intro src dst args hp
    rcases pending_of_move hh hm hp with hp | hb
    · exact h.named src dst args hp
    · cases hb with
      | requestVote election hpick =>
        exact ⟨(hh src).me, (h.others src dst election (mem_of_picked hpick)).symm⟩

/-! ### The record -/

/-- **The invariant of votes.** -/
structure Voting (w : World n C D) (record : List (Grant n)) : Prop where
  kept : ∀ g ∈ record, g.candidate ≠ g.voter ∧ Voted (w.rafts g.voter) g.candidate g.term
  once : ∀ g ∈ record, ∀ g' ∈ record, g.voter = g'.voter → g.term = g'.term →
    g.candidate = g'.candidate
  leader : ∀ g ∈ record, g.status = .leader → g.currentTerm ≠ g.term

/-- **One step.** -/
theorem voting_step [Inhabited C] {record : List (Grant n)} (hh : ∀ i, Healthy i (w.rafts i))
    (ha : w.Asks) (hv : Voting w record) (hok : w.VotesOnce e) (hs : w.step e = some w') :
    Voting w' (w.granted e ++ record) := by
  have hturn := turn_of_move hh (move_of_step hs)
  have hold : ∀ g ∈ record, g.candidate ≠ g.voter ∧
      Voted (w'.rafts g.voter) g.candidate g.term := by
    intro g hg
    obtain ⟨hne, hvoted⟩ := hv.kept g hg
    exact ⟨hne, voted_turn (hturn g.voter) hok.1 (hh g.voter).me hne hvoted⟩
  have hnew : ∀ g ∈ w.granted e, g.candidate ≠ g.voter ∧
      Voted (w'.rafts g.voter) g.candidate g.term := by
    intro g hg
    obtain ⟨ht, hvote, src, args, hp, hc, -⟩ := granted_step hg hs
    obtain ⟨hname, hne⟩ := ha.named src g.voter args hp
    refine ⟨?_, ht.ge, fun _ => hvote⟩
    rw [← hc, hname]
    exact hne
  have hkept : ∀ g ∈ w.granted e ++ record, g.candidate ≠ g.voter ∧
      Voted (w'.rafts g.voter) g.candidate g.term := by
    intro g hg
    exact (List.mem_append.mp hg).elim (hnew g) (hold g)
  -- who is granted a vote now has the vote of the voter, and so has who was granted one before
  have hsame : ∀ g ∈ w.granted e, ∀ g' ∈ w.granted e ++ record, g'.voter = g.voter →
      g'.term = g.term → g'.candidate = g.candidate := by
    intro g hg g' hg' hvoter hterm
    obtain ⟨ht, hvote, -⟩ := granted_step hg hs
    have hnow := (hkept g' hg').2
    rw [hvoter, hterm] at hnow
    exact Option.some.inj ((hnow.2 ht.symm).symm.trans hvote)
  refine ⟨hkept, ?_, ?_⟩
  · intro g hg g' hg' hvoter hterm
    rcases List.mem_append.mp hg with h | h
    · exact (hsame g h g' hg' hvoter.symm hterm.symm).symm
    · rcases List.mem_append.mp hg' with h' | h'
      · exact hsame g' h' g hg hvoter hterm
      · exact hv.once g h g' h' hvoter hterm
  · intro g hg hl
    rcases List.mem_append.mp hg with h | h
    · obtain ⟨-, -, src, args, -, -, ht, hask, hup⟩ := granted_step h hs
      obtain ⟨_, _, _, _, _, -, -, -, -, hst, hcur⟩ := asked_of_granted h
      intro heq
      exact hok.2 (g.voter, args) hask (hst ▸ hl) (by rw [ht, ← heq, hcur]) hup
    · exact hv.leader g h hl

end steps

/-! ### Answers -/

/-- The vote is on record. -/
def OnRecord (record : List (Grant n)) (voter candidate : Fin n) (term : Int) : Prop :=
  ∃ g ∈ record, g.voter = voter ∧ g.candidate = candidate ∧ g.term = term

/-- What is under way answers with votes on record only. -/
def AnswerOk (record : List (Grant n)) : Task n C D → Prop
  | .answer _ dst (.requestVote args reply) => reply.voteGranted = true →
      OnRecord record dst args.candidateId reply.term
  | .commit _ next => Owed next
  | _ => True

/-- Every vote that is under way to its candidate is on record. -/
structure Answered (w : World n C D) (record : List (Grant n)) : Prop where
  tasks : ∀ task ∈ w.tasks, AnswerOk record task
  owed : ∀ i msgs next, w.applying i = some (msgs, next) → Owed next

section answers

variable {w w' : World n C D} {e : Event C D n} {record new : List (Grant n)}

theorem AnswerOk.mono {task : Task n C D} (h : AnswerOk record task) :
    AnswerOk (new ++ record) task := by
  match task, h with
  | .answer _ dst (.requestVote args reply), h =>
    intro hv
    obtain ⟨g, hg, heq⟩ := h hv
    exact ⟨g, List.mem_append_right _ hg, heq⟩
  | .answer _ _ (.appendEntries _ _), _ => trivial
  | .answer _ _ (.installSnapshot _ _), _ => trivial
  | .commit _ _, h => exact h
  | .goroutine _ _, _ => trivial
  | .request _ _ _ _, _ => trivial

theorem answerOk_spawn {i : Fin n} {gs : List (Goroutine n)} :
    ∀ task ∈ (spawn i gs : List (Task n C D)), AnswerOk record task := by
  intro task h
  obtain ⟨g, -, rfl⟩ := List.mem_map.mp h
  trivial

theorem answerOk_answerIf {b : Bool} {i j : Fin n} {ans : Answer n C D}
    (h : AnswerOk record (.answer i j ans)) : ∀ task ∈ answerIf b i j ans, AnswerOk record task := by
  intro task hmem
  rw [mem_answerIf hmem]
  exact h

theorem answerOk_singleton {task : Task n C D} (h : AnswerOk record task) :
    ∀ task' ∈ [task], AnswerOk record task' := by
  intro task' hmem
  rw [List.mem_singleton.mp hmem]
  exact h

theorem answerOk_owed {i : Fin n} {next : Option (Fin n × Answer n C D)} (h : Owed next) :
    ∀ task ∈ (next.map fun (src, ans) => Task.answer src i ans).toList,
      AnswerOk record task := by
  intro task hmem
  obtain ⟨src, ans, rfl, rfl⟩ := mem_owed hmem
  cases ans with
  | requestVote args reply => exact h.elim
  | appendEntries args reply => trivial
  | installSnapshot args reply => trivial

theorem Answered.update (h : Answered w record) {i : Fin n} {rf' : Peer n C D}
    {ts : List (Task n C D)} (hts : ∀ task ∈ ts, AnswerOk (new ++ record) task) :
    Answered (w.update i rf' ts) (new ++ record) := by
  refine ⟨?_, h.owed⟩
  intro task hmem
  rcases mem_update hmem with hmem | hmem
  · exact (h.tasks task hmem).mono
  · exact hts task hmem

theorem Answered.take (h : Answered w record) (k : Nat) : Answered (w.take k) record :=
  ⟨fun task hmem => h.tasks task (List.mem_of_mem_eraseIdx hmem), h.owed⟩

theorem answered_restart [Inhabited C] (h : Answered w record) (i : Fin n) :
    Answered (w.restart i) (new ++ record) := by
  constructor
  · intro task hmem
    obtain ⟨t, ht, ha⟩ := List.mem_filterMap.mp hmem
    have hok : AnswerOk (new ++ record) t := (h.tasks t ht).mono
    cases survives_of_afterCrash ha with
    | goroutine _ => exact hok
    | request => trivial
    | answer _ => exact hok
    | commit _ hn =>
      rcases hn with rfl | rfl
      · trivial
      · exact hok
  · exact applying_restart h.owed (fun _ _ _ _ => trivial) i

/-- **Every vote sent is on record.** -/
theorem answered_step [Inhabited C] (h : Answered w record) (hs : w.step e = some w') :
    Answered w' (w.granted e ++ record) := by
  cases move_of_step hs with
  | heartbeat i _ => exact h.update answerOk_spawn
  | idle i => exact h.update (by simp)
  | election i _ => exact h.update answerOk_spawn
  | start i command _ => exact h.update (by simp)
  | snapshot i index data rf' _ => exact h.update (by simp)
  | askVote k i server election _ => exact (h.take k).update (answerOk_singleton trivial)
  | sendAppend k i server rf' d _ _ =>
    refine (h.take k).update ?_
    cases d with
    | installSnapshot => exact answerOk_singleton trivial
    | notLeader => simp
    | send args => exact answerOk_singleton trivial
  | sendInstall k i server _ => exact (h.take k).update (answerOk_singleton trivial)
  | vote k src dst waiting args rf₁ reply₁ ht _ =>
    obtain ⟨rf', reply, hr, heq⟩ := step_requestVote ht hs
    rw [heq]
    refine (h.take k).update (answerOk_answerIf ?_)
    intro hv
    refine ⟨⟨dst, args.candidateId, reply.term, (w.rafts dst).status, (w.rafts dst).currentTerm⟩,
      List.mem_append_left _ ?_, rfl, rfl, rfl⟩
    simp [granted, picked, ht, asked, grantOf, hr, hv]
  | append k src dst waiting args rf' reply ok _ _ =>
    refine (h.take k).update ?_
    cases ok with
    | false => exact answerOk_answerIf trivial
    | true =>
      refine answerOk_singleton ?_
      cases waiting <;> trivial
  | install k src dst waiting args rf' reply _ _ =>
    exact (h.take k).update (answerOk_answerIf trivial)
  | voteReply k src dst args reply rf' gs _ _ => exact (h.take k).update answerOk_spawn
  | appendReply k src dst args reply rf' gs commit _ _ =>
    refine (h.take k).update ?_
    intro task hmem
    rcases List.mem_append.mp hmem with hmem | hmem
    · exact answerOk_spawn task hmem
    · cases commit with
      | false => exact absurd hmem (by simp)
      | true => exact answerOk_singleton (by trivial) task hmem
  | installReply k src dst args reply _ => exact (h.take k).update (by simp)
  | failRequest k src dst args _ => exact (h.take k).update (answerOk_singleton trivial)
  | failAnswer k src dst args reply _ => exact (h.take k).update (by simp)
  | collect k i next rf' msgs ht _ _ =>
    have hup : Answered ((w.take k).update i rf' []) (w.granted (.task k) ++ record) :=
      (h.take k).update (by simp)
    refine ⟨hup.tasks, applying_update h.owed ?_⟩
    intro msgs' next' heq
    cases heq
    exact h.tasks _ (List.mem_of_getElem? ht)
  | send i next msg msgs ha =>
    refine ⟨fun task hmem => (h.tasks task hmem).mono, applying_update h.owed ?_⟩
    intro msgs' next' heq
    cases heq
    exact h.owed i _ _ ha
  | release i next ha =>
    refine ⟨?_, applying_update h.owed (by simp)⟩
    intro task hmem
    rcases List.mem_append.mp hmem with hmem | hmem
    · exact (h.tasks task hmem).mono
    · exact answerOk_owed (h.owed i _ _ ha) task hmem
  | restart i => exact answered_restart h i

end answers

/-! ### Runs -/

section runs

variable [Inhabited C]

/-- What every run with a record keeps. -/
structure Recording (w : World n C D) (record : List (Grant n)) : Prop where
  healthy : ∀ i, Healthy i (w.rafts i)
  asks : w.Asks
  answered : Answered w record

theorem recording_init : Recording (init : World n C D) [] where
  healthy := healthy_init
  asks := ⟨fun _ _ _ h => absurd h List.not_mem_nil,
    fun _ _ _ hp => absurd hp.choose_spec List.not_mem_nil⟩
  answered := ⟨fun _ h => absurd h List.not_mem_nil, fun _ _ _ h => absurd h (by simp [init])⟩

theorem recording_step {w w' : World n C D} {e : Event C D n} {record : List (Grant n)}
    (h : Recording w record) (hs : w.step e = some w') :
    Recording w' (w.granted e ++ record) where
  healthy := healthy_step h.healthy hs
  asks := asks_step h.healthy h.asks hs
  answered := answered_step h.answered hs

theorem voting_run : ∀ tr, VoteRun (VotesOnce (n := n) (C := C) (D := D)) tr → ∀ l ∈ tr,
    Recording l.state l.record ∧ Voting l.state l.record :=
  Ledger.invariant (I := fun (w : World n C D) record => Recording w record ∧ Voting w record)
    ⟨recording_init, by simp, by simp, by simp⟩
    fun _ _ _ _ h hok hs =>
      ⟨recording_step h.1 hs, voting_step h.1.healthy h.1.asks h.2 hok hs⟩

/-- **One vote per term**, in a run that makes no peer forget a vote and asks no leader for
one.  Every vote that is sent is on record; all that a peer grants in a term go to one
candidate, and a leader grants none of its term. -/
theorem one_vote_per_term (tr : List (Ledger (World n C D) (Grant n))) (h : VoteRun VotesOnce tr) :
    ∀ l ∈ tr,
      (∀ src dst args reply, .answer src dst (.requestVote args reply) ∈ l.state.tasks →
        reply.voteGranted = true → ∃ g ∈ l.record, g.voter = dst ∧
          g.candidate = args.candidateId ∧ g.term = reply.term) ∧
      (∀ g ∈ l.record, ∀ g' ∈ l.record, g.voter = g'.voter → g.term = g'.term →
        g.candidate = g'.candidate) ∧
      ∀ g ∈ l.record, ¬ (g.status = .leader ∧ g.currentTerm = g.term ∧ g.candidate ≠ g.voter) := by
  intro l hl
  obtain ⟨hrec, hv⟩ := voting_run tr h l hl
  refine ⟨fun src dst args reply hmem => hrec.answered.tasks _ hmem, hv.once, ?_⟩
  rintro g hg ⟨hs, ht, -⟩
  exact hv.leader g hg hs ht

end runs

/-- Servers `1` and `2` vote for server `0` in term `1`, and it leads in term `2`. -/
def sampleVotes : List (Event Nat Unit 4) :=
  [.ticker 0 true, .task 0, .task 0, .task 1, .task 1, .task 1, .task 1]

theorem one_vote_per_term_sampleVotes :
    ∃ l past, run (Ledger.step step granted) (fun l e => VotesOnce l.state e)
        (Ledger.start (init : World 4 Nat Unit)) sampleVotes [] = some (l :: past) ∧
      l.record.length = 2 ∧
      (∀ g ∈ l.record, ∀ g' ∈ l.record, g.voter = g'.voter → g.term = g'.term →
        g.candidate = g'.candidate) ∧
      ∀ g ∈ l.record, ¬ (g.status = .leader ∧ g.currentTerm = g.term ∧ g.candidate ≠ g.voter) := by
  have hs : runEnds (Ledger.step step granted) (fun l e => VotesOnce l.state e)
      (Ledger.start (init : World 4 Nat Unit)) sampleVotes
      (fun l _ => decide (l.record.length = 2)) = true := by
    decide +kernel
  obtain ⟨l, past, h, ht, hl⟩ := exists_of_runEnds hs
  exact ⟨l, past, h, of_decide_eq_true hl,
    (one_vote_per_term _ ht l (List.mem_cons_self ..)).2⟩

/-- Server `2` asks for votes of term `2` and server `1` grants it one.  The first heartbeat
of server `0`, which leads in this term, clears the vote; server `3` asks for votes of term
`2` as well, and server `1` grants it one. -/
def clearedVote : List (Event Nat Unit 4) :=
  sampleVotes ++ [.ticker 2 true, .task 5, .task 6, .task 1, .task 6, .ticker 3 true,
    .ticker 3 true, .task 11, .task 12]

/-- The request of server `2` reaches server `0`, which leads in its term. -/
def leaderAsked : List (Event Nat Unit 4) := sampleVotes ++ [.ticker 2 true, .task 4, .task 6]

/-- **Two votes in one term, and the vote of a leader**, when nothing is asked of the run. -/
theorem two_votes :
    (¬ ∀ tr : List (Ledger (World 4 Nat Unit) (Grant 4)), VoteRun (fun _ _ => True) tr →
      ∀ l ∈ tr, ∀ g ∈ l.record, ∀ g' ∈ l.record, g.voter = g'.voter → g.term = g'.term →
        g.candidate = g'.candidate) ∧
    ¬ ∀ tr : List (Ledger (World 4 Nat Unit) (Grant 4)), VoteRun (fun _ _ => True) tr →
      ∀ l ∈ tr, ∀ g ∈ l.record,
        ¬ (g.status = .leader ∧ g.currentTerm = g.term ∧ g.candidate ≠ g.voter) := by
  constructor
  · intro hall
    have hs : runEnds (Ledger.step step granted) (fun _ _ => True)
        (Ledger.start (init : World 4 Nat Unit)) clearedVote
        (fun l _ => l.record.any fun g => l.record.any fun g' =>
          decide (g.voter = g'.voter ∧ g.term = g'.term ∧ g.candidate ≠ g'.candidate)) = true := by
      decide +kernel
    obtain ⟨l, past, -, ht, hl⟩ := exists_of_runEnds hs
    obtain ⟨g, hg, hl⟩ := List.any_eq_true.mp hl
    obtain ⟨g', hg', hl⟩ := List.any_eq_true.mp hl
    obtain ⟨hvoter, hterm, hne⟩ := of_decide_eq_true hl
    exact hne (hall _ ht l (List.mem_cons_self ..) g hg g' hg' hvoter hterm)
  · intro hall
    have hs : runEnds (Ledger.step step granted) (fun _ _ => True)
        (Ledger.start (init : World 4 Nat Unit)) leaderAsked
        (fun l _ => l.record.any fun g => decide (g.status = .leader ∧ g.currentTerm = g.term ∧
          g.candidate ≠ g.voter)) = true := by
      decide +kernel
    obtain ⟨l, past, -, ht, hl⟩ := exists_of_runEnds hs
    obtain ⟨g, hg, hl⟩ := List.any_eq_true.mp hl
    exact hall _ ht l (List.mem_cons_self ..) g hg (of_decide_eq_true hl)

end World

end ShardRaft.Raft
