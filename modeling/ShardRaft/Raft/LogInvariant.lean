import ShardRaft.Raft.FullLog

/-!
# The invariant of the replicated log

`Logs` ties a whole state of the cluster to a `History`: every peer to its full
log (`PeerOk`), every request and answer under way to what it says about the
logs (`TaskLog`), and every message for a service to a commit (`MsgOk`).

Besides the two conditions of `FairElection`, a run must avoid two more slips of
the code for this to be an invariant:

* `NothingCut`: no accepted `AppendEntries` request makes the receiver drop
  entries of the request's own term.  The handler truncates its log right after
  `PrevLogIndex`, so an old request that arrives late takes back what a newer
  one of the same leader had brought, after it was acknowledged.
* `ReplyCurrent`: no leader takes a reply to a request of an earlier term for
  one of its own.  `handleSendAppendEntries` looks at the status only.

`logs_step` is the step lemma; the work behind each case is in `FullLog.lean`.
-/

namespace ShardRaft.Raft

open ShardRaft.Lib

variable {n : Nat} {C D : Type}

namespace World

/-! ### What must not happen -/

/-- The receiver of an `AppendEntries` request, and the request. -/
def appending : Task n C D → Option (Fin n × AppendEntriesArgs n C)
  | .request _ dst (.appendEntries args) _ => some (dst, args)
  | _ => none

/-- The sender of an `AppendEntries` request that was accepted, and the term it
was sent in. -/
def replying : Task n C D → Option (Fin n × Int)
  | .answer src _ (.appendEntries args reply) =>
    if reply.success then some (src, args.term) else none
  | _ => none

/-- No request takes back what its leader has sent since. -/
def NothingCut (w : World n C D) (e : Event C D n) : Prop :=
  ∀ x ∈ (w.picked e).bind appending, ¬ (w.rafts x.1).CutsShort x.2

/-- A leader takes no reply to an earlier leadership for its own. -/
def ReplyCurrent (w : World n C D) (e : Event C D n) : Prop :=
  ∀ x ∈ (w.picked e).bind replying, (w.rafts x.1).status = .leader →
    (w.rafts x.1).currentTerm = x.2

/-- A step that avoids the four slips. -/
def Careful (w : World n C D) (e : Event C D n) : Prop :=
  w.FairElection e ∧ w.NothingCut e ∧ w.ReplyCurrent e

instance (w : World n C D) (e : Event C D n) : Decidable (w.NothingCut e) :=
  inferInstanceAs (Decidable (∀ x ∈ (w.picked e).bind appending, ¬ _))

instance (w : World n C D) (e : Event C D n) : Decidable (w.ReplyCurrent e) :=
  inferInstanceAs (Decidable (∀ x ∈ (w.picked e).bind replying, _ → _))

instance (w : World n C D) (e : Event C D n) : Decidable (w.Careful e) :=
  inferInstanceAs (Decidable (_ ∧ _ ∧ _))

/-! ### What the tasks say about the logs -/

/-- `u` has acknowledged the entries of the request. -/
def Acknowledged (h : Hist n C) (u : Fin n) (args : AppendEntriesArgs n C) : Prop :=
  ∃ k, h.acks u args.term k ∧ args.prevLogIndex + args.entries.length + 1 ≤ k

/-- An answer that `i` still owes. -/
def NextLog (h : Hist n C) (i : Fin n) : Option (Fin n × Answer n C D) → Prop
  | some (_, .appendEntries args reply) => reply.success = true → Acknowledged h i args
  | some (_, .installSnapshot _ _) => False
  | _ => True

/-- What a task says about the logs. -/
def TaskLog (h : Hist n C) (F : Fin n → List (LogEntity C)) (rafts : Fin n → Peer n C D) :
    Task n C D → Prop
  | .request src _ (.requestVote args) _ => (rafts src).status = .candidate →
    args.term = (rafts src).currentTerm →
    args.lastLogTerm = lastTerm LogEntity.term baseTerm (F src) ∧
      args.lastLogIndex = ((F src).length : Int) - 1
  | .request _ _ (.appendEntries args) _ => ∃ s, AppendOk h args s
  | .request src _ (.installSnapshot args) _ => (∃ B, InstallOk h args B) ∧
    args.lastIncludedIndex < (rafts src).snapshotEntriesAmount
  | .answer _ dst (.appendEntries args reply) => reply.success = true → Acknowledged h dst args
  | .answer src _ (.installSnapshot args _) =>
    args.lastIncludedIndex < (rafts src).snapshotEntriesAmount
  | .commit i next => NextLog h i next
  | _ => True

/-- A command message is about a committed entry. -/
def MsgOk (h : Hist n C) (msg : ApplyMsg C D) : Prop :=
  msg.commandValid = true → ∃ T p e, h.commits T p ∧ 0 ≤ msg.commandIndex ∧
    p[msg.commandIndex.toNat]? = some e ∧ msg.command = some e.action

/-- **The invariant.** -/
structure Logs (b : Ballots n) (h : Hist n C) (F : Fin n → List (LogEntity C)) (w : World n C D) :
    Prop where
  sound : h.Sound LogEntity.term baseTerm Quorum
  clean : h.Clean LogEntity.term baseTerm
  leads : ∀ T, h.leads T ↔ ∃ c, b.leads c T
  voted : ∀ u t, h.voted u t ↔ ∃ c, b.votes u c t
  ballot : ∀ v c t, b.votes v c t → (w.rafts c).status = .candidate →
    (w.rafts c).currentTerm = t → UpToDate LogEntity.term baseTerm (h.vlog v t) (F c)
  peers : ∀ u, PeerOk h u (F u) (w.rafts u)
  tasks : ∀ task ∈ w.tasks, TaskLog h F w.rafts task
  applying : ∀ i msgs next, w.applying i = some (msgs, next) →
    NextLog h i next ∧ ∀ msg ∈ msgs, MsgOk h msg
  applied : ∀ x ∈ w.applied, MsgOk h x.2

theorem Acknowledged.mono {h h' : Hist n C} {u : Fin n} {args : AppendEntriesArgs n C}
    (ha : Acknowledged h u args) (he : h.Extends h' baseTerm) : Acknowledged h' u args := by
  obtain ⟨k, hk, hle⟩ := ha
  exact ⟨k, he.acks _ _ _ hk, hle⟩

theorem NextLog.mono {h h' : Hist n C} {i : Fin n} {next : Option (Fin n × Answer n C D)}
    (hn : NextLog h i next) (he : h.Extends h' baseTerm) : NextLog h' i next := by
  match next, hn with
  | none, _ => trivial
  | some (_, .requestVote _ _), _ => trivial
  | some (_, .appendEntries _ _), hn => exact fun hs => (hn hs).mono he
  | some (_, .installSnapshot _ _), hn => exact hn.elim

theorem MsgOk.mono {h h' : Hist n C} {msg : ApplyMsg C D} (hm : MsgOk h msg)
    (he : h.Extends h' baseTerm) : MsgOk h' msg := by
  intro hv
  obtain ⟨T, p, e, hc, h1, h2, h3⟩ := hm hv
  exact ⟨T, p, e, he.commits T p hc, h1, h2, h3⟩

/-- How the candidates and the boundaries of the cluster may change without an
effect on what is under way. -/
structure Steady (F F' : Fin n → List (LogEntity C)) (rafts rafts' : Fin n → Peer n C D) :
    Prop where
  candidate : ∀ j, (rafts' j).status = .candidate →
    ((rafts j).status = .candidate ∧ (rafts' j).currentTerm = (rafts j).currentTerm ∧
      F' j = F j) ∨ (rafts j).currentTerm < (rafts' j).currentTerm
  amount : ∀ j, (rafts j).snapshotEntriesAmount ≤ (rafts' j).snapshotEntriesAmount

theorem TaskLog.mono {b : Ballots n} {h h' : Hist n C} {F F' : Fin n → List (LogEntity C)}
    {rafts rafts' : Fin n → Peer n C D} {task : Task n C D} (ht : TaskLog h F rafts task)
    (hok : TaskOk b (fun i => (rafts i).currentTerm) task) (he : h.Extends h' baseTerm)
    (hst : Steady F F' rafts rafts') : TaskLog h' F' rafts' task := by
  cases task with
  | goroutine i g => trivial
  | request src dst req waiting =>
    cases req with
    | requestVote args =>
      intro hc hterm
      rcases hst.candidate src hc with ⟨h1, h2, h3⟩ | hlt
      · rw [h3]; exact ht h1 (hterm.trans h2)
      · have hle : args.term ≤ (rafts src).currentTerm := hok.2.2
        omega
    | appendEntries args =>
      obtain ⟨s, hs⟩ := ht
      exact ⟨s, hs.mono he⟩
    | installSnapshot args =>
      obtain ⟨⟨B, hB⟩, hlt⟩ := ht
      have := hst.amount src
      exact ⟨⟨B, hB.mono he⟩, by omega⟩
  | answer src dst ans =>
    cases ans with
    | requestVote args reply => trivial
    | appendEntries args reply => exact fun hs => (ht hs).mono he
    | installSnapshot args reply =>
      have hlt : args.lastIncludedIndex < (rafts src).snapshotEntriesAmount := ht
      have := hst.amount src
      change args.lastIncludedIndex < (rafts' src).snapshotEntriesAmount
      omega
  | commit i next => exact NextLog.mono ht he

/-! ### Steps in general -/

theorem Logs.next {b b' : Ballots n} {h h' : Hist n C} {F F' : Fin n → List (LogEntity C)}
    {w w' : World n C D} (hl : Logs b h F w) (hel : Elect b w) (he : h.Extends h' baseTerm)
    (hs : h'.Sound LogEntity.term baseTerm Quorum) (hc : h'.Clean LogEntity.term baseTerm)
    (hleads : ∀ T, h'.leads T ↔ ∃ c, b'.leads c T)
    (hvoted : ∀ u t, h'.voted u t ↔ ∃ c, b'.votes u c t)
    (hballot : ∀ v c t, b'.votes v c t → (w'.rafts c).status = .candidate →
      (w'.rafts c).currentTerm = t → UpToDate LogEntity.term baseTerm (h'.vlog v t) (F' c))
    (hpeers : ∀ u, PeerOk h' u (F' u) (w'.rafts u)) (hst : Steady F F' w.rafts w'.rafts)
    (htasks : ∀ task ∈ w'.tasks, task ∈ w.tasks ∨ TaskLog h' F' w'.rafts task)
    (happ : ∀ i msgs next, w'.applying i = some (msgs, next) →
      NextLog h' i next ∧ ∀ msg ∈ msgs, MsgOk h' msg)
    (hmsgs : ∀ x ∈ w'.applied, MsgOk h' x.2) : Logs b' h' F' w' where
  sound := hs
  clean := hc
  leads := hleads
  voted := hvoted
  ballot := hballot
  peers := hpeers
  tasks := by
    intro task hmem
    rcases htasks task hmem with hmem | ht
    · exact (hl.tasks task hmem).mono (hel.tasks task hmem) he hst
    · exact ht
  applying := happ
  applied := hmsgs

section steps

variable {b b' : Ballots n} {h h' : Hist n C} {F F' : Fin n → List (LogEntity C)}
  {w w' : World n C D}

theorem Logs.applying_mono (hl : Logs b h F w) (he : h.Extends h' baseTerm) :
    ∀ i msgs next, w.applying i = some (msgs, next) →
      NextLog h' i next ∧ ∀ msg ∈ msgs, MsgOk h' msg := by
  intro i msgs next ha
  obtain ⟨h1, h2⟩ := hl.applying i msgs next ha
  exact ⟨h1.mono he, fun msg hm => (h2 msg hm).mono he⟩

theorem Logs.applied_mono (hl : Logs b h F w) (he : h.Extends h' baseTerm) :
    ∀ x ∈ w.applied, MsgOk h' x.2 :=
  fun x hx => (hl.applied x hx).mono he

/-- The votes are still up to date when no candidate is new and no vote is. -/
theorem Logs.ballot_steady (hl : Logs b h F w) (hel : Elect b w)
    (hvotes : ∀ v c t, b'.votes v c t → b.votes v c t) (he : h.Extends h' baseTerm)
    (hst : Steady F F' w.rafts w'.rafts) :
    ∀ v c t, b'.votes v c t → (w'.rafts c).status = .candidate →
      (w'.rafts c).currentTerm = t → UpToDate LogEntity.term baseTerm (h'.vlog v t) (F' c) := by
  intro v c t hv hcand hterm
  have hv := hvotes v c t hv
  rcases hst.candidate c hcand with ⟨h1, h2, h3⟩ | hlt
  · rw [he.vlog v t ((hl.voted v t).mpr ⟨c, hv⟩), h3]
    exact hl.ballot v c t hv h1 (h2.symm.trans hterm)
  · have := hel.asked v c t hv
    omega

theorem Logs.quiet (hl : Logs b h F w) (hel : Elect b w) (hv : b'.votes = b.votes)
    (hld : b'.leads = b.leads) (hpeers : ∀ u, PeerOk h u (F u) (w'.rafts u))
    (hst : Steady F F w.rafts w'.rafts)
    (htasks : ∀ task ∈ w'.tasks, task ∈ w.tasks ∨ TaskLog h F w'.rafts task)
    (happ : ∀ i msgs next, w'.applying i = some (msgs, next) →
      NextLog h i next ∧ ∀ msg ∈ msgs, MsgOk h msg)
    (hmsgs : ∀ x ∈ w'.applied, MsgOk h x.2) : Logs b' h F w' := by
  refine hl.next hel .refl hl.sound hl.clean ?_ ?_ ?_ hpeers hst htasks happ hmsgs
  · rw [hld]; exact hl.leads
  · rw [hv]; exact hl.voted
  · exact hl.ballot_steady hel (by rw [hv]; exact fun _ _ _ hv => hv) .refl hst

theorem peers_update (hl : Logs b h F w) {i : Fin n} {rf' : Peer n C D}
    (hp : PeerOk h i (F i) rf') (u : Fin n) :
    PeerOk h u (F u) (Function.update w.rafts i rf' u) := by
  by_cases hu : u = i
  · rw [hu, Function.update_self]; exact hp
  · rw [Function.update_of_ne hu]; exact hl.peers u

theorem steady_update {i : Fin n} {rf' : Peer n C D}
    (hcand : rf'.status = .candidate → ((w.rafts i).status = .candidate ∧
      rf'.currentTerm = (w.rafts i).currentTerm) ∨ (w.rafts i).currentTerm < rf'.currentTerm)
    (ham : (w.rafts i).snapshotEntriesAmount ≤ rf'.snapshotEntriesAmount) :
    Steady F F w.rafts (Function.update w.rafts i rf') := by
  refine ⟨?_, ?_⟩
  · intro j hj
    by_cases hji : j = i
    · rw [hji, Function.update_self] at hj ⊢
      rcases hcand hj with ⟨h1, h2⟩ | h1
      · exact .inl ⟨h1, h2, rfl⟩
      · exact .inr h1
    · rw [Function.update_of_ne hji] at hj ⊢
      exact .inl ⟨hj, rfl, rfl⟩
  · intro j
    by_cases hji : j = i
    · rw [hji, Function.update_self]; exact ham
    · rw [Function.update_of_ne hji]

theorem Logs.quiet_update (hl : Logs b h F w) (hel : Elect b w) (hv : b'.votes = b.votes)
    (hld : b'.leads = b.leads) {i : Fin n} {rf' : Peer n C D} {new : List (Task n C D)}
    (hp : PeerOk h i (F i) rf')
    (hcand : rf'.status = .candidate → ((w.rafts i).status = .candidate ∧
      rf'.currentTerm = (w.rafts i).currentTerm) ∨ (w.rafts i).currentTerm < rf'.currentTerm)
    (ham : (w.rafts i).snapshotEntriesAmount ≤ rf'.snapshotEntriesAmount)
    (hnew : ∀ task ∈ new, TaskLog h F (Function.update w.rafts i rf') task) :
    Logs b' h F (w.update i rf' new) :=
  hl.quiet hel hv hld (peers_update hl hp) (steady_update hcand ham)
    (fun task hmem => (mem_update hmem).imp id (hnew task)) hl.applying hl.applied

theorem Logs.quiet_take (hl : Logs b h F w) (hel : Elect b w) (hv : b'.votes = b.votes)
    (hld : b'.leads = b.leads) {k : Nat} {i : Fin n} {rf' : Peer n C D} {new : List (Task n C D)}
    (hp : PeerOk h i (F i) rf')
    (hcand : rf'.status = .candidate → ((w.rafts i).status = .candidate ∧
      rf'.currentTerm = (w.rafts i).currentTerm) ∨ (w.rafts i).currentTerm < rf'.currentTerm)
    (ham : (w.rafts i).snapshotEntriesAmount ≤ rf'.snapshotEntriesAmount)
    (hnew : ∀ task ∈ new, TaskLog h F (Function.update w.rafts i rf') task) :
    Logs b' h F ((w.take k).update i rf' new) :=
  hl.quiet hel hv hld (peers_update hl hp) (steady_update hcand ham)
    (fun task hmem => (mem_take_update hmem).imp id (hnew task)) hl.applying hl.applied

theorem Logs.quiet_new (hl : Logs b h F w) (hel : Elect b w) {i : Fin n}
    {new : List (Task n C D)}
    (hnew : ∀ task ∈ new, TaskLog h F (Function.update w.rafts i (w.rafts i)) task) :
    Logs b h F (w.update i (w.rafts i) new) :=
  hl.quiet_update hel rfl rfl (hl.peers i) (fun hc => .inl ⟨hc, rfl⟩) le_rfl hnew

/-- A step that only replaces a task. -/
theorem Logs.quiet_replace (hl : Logs b h F w) (hel : Elect b w) {k : Nat} {i : Fin n}
    {new : List (Task n C D)}
    (hnew : ∀ task ∈ new, TaskLog h F (Function.update w.rafts i (w.rafts i)) task) :
    Logs b h F ((w.take k).update i (w.rafts i) new) :=
  hl.quiet_take hel rfl rfl (hl.peers i) (fun hc => .inl ⟨hc, rfl⟩) le_rfl hnew

theorem Logs.taskLog (hl : Logs b h F w) {k : Nat} {task : Task n C D}
    (ht : w.tasks[k]? = some task) : TaskLog h F w.rafts task :=
  hl.tasks task (List.mem_of_getElem? ht)

/-- What a leader sends is its own log. -/
theorem appendOk_of_sentBy (hl : Logs b h F w) (hel : Elect b w) {i : Fin n}
    (hlead : (w.rafts i).status = .leader) {args : AppendEntriesArgs n C}
    (hsent : (w.rafts i).SentBy args) : AppendOk h args (F i) := by
  have hp := hl.peers i
  have hF := hp.lead hlead
  have hlen := hp.length
  have hb := hsent.boundary
  have hleads : h.leads (w.rafts i).currentTerm :=
    (hl.leads _).mpr ⟨i, (hel.leader i hlead).2⟩
  have hin : (args.prevLogIndex + 1).toNat ≤ (F i).length := by
    by_cases hneg : args.prevLogIndex < 0
    · omega
    · obtain ⟨a, ha, -⟩ := hp.termAt (by omega) hsent.prevLogTerm
      have := (List.getElem?_eq_some_iff.mp ha).1
      omega
  exact {
    leads := by rw [hsent.term]; exact hleads
    pre := by rw [hsent.term, ← hF]
    elected := by
      rw [hsent.term, hF]
      exact (hl.sound.grows _ hleads).length_le
    prev := by omega
    inside := hin
    entries := by
      rw [hsent.entries, hp.rep, List.drop_drop]
      congr 1
      omega
    prevTerm := fun hpos => hp.termAt hpos hsent.prevLogTerm
    lower := by rw [hsent.leaderCommit]; exact hp.lower
    upper := by rw [hsent.leaderCommit]; exact hp.upper
    com := by rw [hsent.leaderCommit, hsent.term]; exact hp.com }

/-- What any peer sends as a snapshot was committed. -/
theorem installOk_create {i : Fin n} (hp : PeerOk h i (F i) (w.rafts i)) :
    InstallOk h (w.rafts i).createInstallSnapshotArgs
      ((F i).take (w.rafts i).snapshotEntriesAmount) where
  com := hp.snap
  index := by
    have := hp.len
    change (((F i).take (w.rafts i).snapshotEntriesAmount).length : Int)
      = ((w.rafts i).snapshotEntriesAmount : Int) - 1 + 1
    rw [List.length_take]
    omega
  term := hp.last

/-! ### Steps that write history -/

theorem peers_change {i : Fin n} {rf' : Peer n C D} {l : List (LogEntity C)}
    (hp : PeerOk h' i l rf') (hother : ∀ u, u ≠ i → PeerOk h' u (F u) (w.rafts u)) (u : Fin n) :
    PeerOk h' u (Function.update F i l u) (Function.update w.rafts i rf' u) := by
  by_cases hu : u = i
  · rw [hu, Function.update_self, Function.update_self]; exact hp
  · rw [Function.update_of_ne hu, Function.update_of_ne hu]; exact hother u hu

theorem steady_change {i : Fin n} {rf' : Peer n C D} {l : List (LogEntity C)}
    (hcand : rf'.status ≠ .candidate)
    (ham : (w.rafts i).snapshotEntriesAmount ≤ rf'.snapshotEntriesAmount) :
    Steady F (Function.update F i l) w.rafts (Function.update w.rafts i rf') := by
  refine ⟨?_, ?_⟩
  · intro j hj
    by_cases hji : j = i
    · rw [hji, Function.update_self] at hj
      exact absurd hj hcand
    · rw [Function.update_of_ne hji] at hj ⊢
      rw [Function.update_of_ne hji]
      exact .inl ⟨hj, rfl, rfl⟩
  · intro j
    by_cases hji : j = i
    · rw [hji, Function.update_self]; exact ham
    · rw [Function.update_of_ne hji]

/-- A peer that leads a term is the only one on record for it. -/
theorem leader_unique (hel : Elect b w) {i u : Fin n} (hi : (w.rafts i).status = .leader)
    (hu : (w.rafts u).status = .leader)
    (ht : (w.rafts u).currentTerm = (w.rafts i).currentTerm) : u = i :=
  hel.unique (hel.leader u hu).2 (ht ▸ (hel.leader i hi).2)

theorem leader_voted (hl : Logs b h F w) (hel : Elect b w) {i : Fin n}
    (hi : (w.rafts i).status = .leader) : ∀ t, h.voted i t → t < (w.rafts i).currentTerm := by
  intro t hvt
  obtain ⟨c, hc⟩ := (hl.voted i t).mp hvt
  obtain ⟨htle, hteq⟩ := hel.voted i c t hc
  by_contra hge
  have := (hteq (by omega)).1
  rw [(hel.leader i hi).1] at this
  exact absurd this (by simp)

theorem logs_start (hl : Logs b h F w) (hel : Elect b w) {i : Fin n}
    (hi : (w.rafts i).status = .leader) (command : C) :
    Logs b (h.addEntry (w.rafts i).currentTerm ⟨(w.rafts i).currentTerm, command⟩)
      (Function.update F i (F i ++ [⟨(w.rafts i).currentTerm, command⟩]))
      (w.update i ((w.rafts i).appendToLogEntries command).persist []) := by
  have hleads : h.leads (w.rafts i).currentTerm := (hl.leads _).mpr ⟨i, (hel.leader i hi).2⟩
  have he : h.Extends (h.addEntry (w.rafts i).currentTerm ⟨(w.rafts i).currentTerm, command⟩)
      baseTerm := History.extends_addEntry ..
  have hst : Steady F (Function.update F i (F i ++ [⟨(w.rafts i).currentTerm, command⟩])) w.rafts
      (w.update i ((w.rafts i).appendToLogEntries command).persist []).rafts := by
    refine steady_change ?_ le_rfl
    change (w.rafts i).status ≠ .candidate
    rw [hi]
    simp
  refine hl.next hel he (History.sound_addEntry hl.sound hleads rfl)
    (History.clean_addEntry hl.sound hl.clean hleads rfl) hl.leads hl.voted
    (hl.ballot_steady hel (fun _ _ _ hv => hv) he hst) ?_ hst
    (fun task hmem => (mem_update hmem).imp id (by simp)) (hl.applying_mono he) (hl.applied_mono he)
  refine peers_change ((hl.peers i).start hl.sound hi hleads command) ?_
  intro u hu
  refine (hl.peers u).mono hl.sound he (fun _ _ hm => hm) ?_ (fun _ _ hc => hc)
  intro hlu
  exact History.addEntry_llog_ne (fun ht => hu (leader_unique hel hi hlu ht)) _

theorem logs_accept (hl : Logs b h F w) (hel : Elect b w) {k : Nat} {src dst : Fin n}
    {waiting : Bool} {args : AppendEntriesArgs n C} (hme : (w.rafts dst).me = dst)
    (ht : w.tasks[k]? = some (.request src dst (.appendEntries args) waiting))
    (hkeep : ¬ Forgets (w.rafts dst) args.term) (hcut : ¬ (w.rafts dst).CutsShort args)
    (hle : (w.rafts dst).currentTerm ≤ args.term) (hne : args.prevLogIndex ≠ -1)
    (hlo : ((w.rafts dst).snapshotEntriesAmount : Int) ≤ args.prevLogIndex + 1)
    (hhi : args.prevLogIndex ≤ (w.rafts dst).getLastLogEntryIndex)
    (hterm : (w.rafts dst).getLogTermAtIndex args.prevLogIndex = some args.prevLogTerm) :
    ∃ s, AppendOk h args s ∧
      Logs b (h.addAck dst args.term s.length) (Function.update F dst s)
        ((w.take k).update dst ((w.rafts dst).overwrite args)
          [.commit dst (if waiting then some (src, .appendEntries args
            { term := args.term, success := true }) else none)]) := by
  obtain ⟨s, hs⟩ : ∃ s, AppendOk h args s := hl.taskLog ht
  obtain ⟨hp, -⟩ := (hl.peers dst).accept hs hl.sound hl.clean hle hne hlo hhi hterm hcut
  have he : h.Extends (h.addAck dst args.term s.length) baseTerm := History.extends_addAck ..
  -- a vote of this term would be forgotten by the request
  have hv : ∀ t, h.voted dst t → t < args.term := by
    intro t hvt
    obtain ⟨c, hc⟩ := (hl.voted dst t).mp hvt
    obtain ⟨htle, hteq⟩ := hel.voted dst c t hc
    by_contra hlt
    have heq : t = (w.rafts dst).currentTerm := by omega
    obtain ⟨hvf, hcd⟩ := hteq heq
    refine hkeep ⟨by omega, ?_, ?_⟩
    · rw [hvf]; simp
    · rw [hvf, hme]; exact fun hh => hcd (Option.some.inj hh)
  have hst : Steady F (Function.update F dst s) w.rafts
      (Function.update w.rafts dst ((w.rafts dst).overwrite args)) :=
    steady_change (by simp [Peer.overwrite]) le_rfl
  refine ⟨s, hs, hl.next hel he (History.sound_addAck hl.sound hs.leads hs.pre.length_le hv)
    hl.clean hl.leads hl.voted (hl.ballot_steady hel (fun _ _ _ hv => hv) he hst) ?_ hst ?_
    (hl.applying_mono he) (hl.applied_mono he)⟩
  · refine peers_change hp ?_
    intro u hu
    refine (hl.peers u).mono hl.sound he ?_ (fun _ => rfl) (fun _ _ hc => hc)
    intro T m hm
    rcases hm with hm | ⟨rfl, -⟩
    · exact hm
    · exact absurd rfl hu
  · intro task hmem
    refine (mem_take_update hmem).imp id ?_
    intro hmem
    rw [List.mem_singleton.mp hmem]
    cases waiting with
    | false => trivial
    | true =>
      have hlen := hs.length
      intro _
      exact ⟨s.length, .inr ⟨rfl, rfl, rfl⟩, by omega⟩

theorem logs_install (hl : Logs b h F w) (hel : Elect b w) {k : Nat} {src dst : Fin n}
    {waiting : Bool} {args : InstallSnapshotArgs n D} {rf' : Peer n C D}
    {reply : InstallSnapshotReply}
    (ht : w.tasks[k]? = some (.request src dst (.installSnapshot args) waiting))
    (hle : (w.rafts dst).currentTerm ≤ args.term)
    (hlo : ((w.rafts dst).snapshotEntriesAmount : Int) ≤ args.lastIncludedIndex)
    (hlog : rf'.logs = (w.rafts dst).logs.drop
      (args.lastIncludedIndex + 1 - (w.rafts dst).snapshotEntriesAmount).toNat)
    (ha : rf'.snapshotEntriesAmount = (args.lastIncludedIndex + 1).toNat)
    (hlt : rf'.lastSnapshotTerm = args.lastIncludedTerm) (hterm : rf'.currentTerm = args.term)
    (hci : rf'.commitIndex = (w.rafts dst).commitIndex) (hf : rf'.status = .follower) :
    ∃ F', Logs b h F' ((w.take k).update dst rf'
      (answerIf waiting src dst (.installSnapshot args reply))) := by
  obtain ⟨⟨B, hB⟩, hlast⟩ := hl.taskLog ht
  have hp := (hl.peers dst).install hB hl.sound hl.clean hle hlo hlog ha hlt hterm hci
    (by rw [hf]; simp)
  have hst : Steady F (Function.update F dst (B ++ (F dst).drop B.length)) w.rafts
      (Function.update w.rafts dst rf') :=
    steady_change (by rw [hf]; simp) (by rw [ha]; omega)
  refine ⟨_, hl.next hel .refl hl.sound hl.clean hl.leads hl.voted
    (hl.ballot_steady hel (fun _ _ _ hv => hv) .refl hst) ?_ hst ?_ hl.applying hl.applied⟩
  · exact peers_change hp fun u _ => hl.peers u
  · intro task hmem
    refine (mem_take_update hmem).imp id ?_
    intro hmem
    rw [mem_answerIf hmem]
    exact hlast.trans_le (Int.ofNat_le.mpr (hst.amount src))

theorem logs_commit (hl : Logs b h F w) (hel : Elect b w) {k : Nat} {src dst : Fin n}
    {args : AppendEntriesArgs n C} {reply : AppendEntriesReply} (hme : (w.rafts src).me = src)
    (ht : w.tasks[k]? = some (.answer src dst (.appendEntries args reply)))
    (hlead : (w.rafts src).status = .leader) (hok : reply.success = true)
    (hcur : (w.rafts src).currentTerm = args.term) {i : Int}
    (hlt : (w.rafts src).commitIndex < i)
    (hcm : ((w.rafts src).setMatch dst (args.prevLogIndex + args.entries.length)).Commits i) :
    Logs b ((h.addAck src (w.rafts src).currentTerm (F src).length).addCommit
        (w.rafts src).currentTerm ((F src).take (i + 1).toNat)) F
      ((w.take k).update src { (w.rafts src).setMatch dst
        (args.prevLogIndex + args.entries.length) with commitIndex := i } [.commit src none]) := by
  have hleads : h.leads (w.rafts src).currentTerm :=
    (hl.leads _).mpr ⟨src, (hel.leader src hlead).2⟩
  have hack : Acknowledged h dst args := hl.taskLog ht hok
  have hp₁ : PeerOk h src (F src)
      ((w.rafts src).setMatch dst (args.prevLogIndex + args.entries.length)) :=
    (hl.peers src).setMatch (.inr (hcur ▸ hack))
  obtain ⟨hs, hp, -⟩ := hp₁.commit hl.sound hl.clean hme hlead hleads
    (leader_voted hl hel hlead) hlt hcm
  have he : h.Extends ((h.addAck src (w.rafts src).currentTerm (F src).length).addCommit
      (w.rafts src).currentTerm ((F src).take (i + 1).toNat)) baseTerm :=
    ⟨fun _ hl => hl, fun _ _ => rfl, fun _ _ => List.prefix_rfl, fun _ _ hv => hv,
      fun _ _ _ => rfl, fun _ _ _ ha => .inl ha, fun _ _ hc => .inl hc⟩
  have hst : Steady F F w.rafts (Function.update w.rafts src
      { (w.rafts src).setMatch dst (args.prevLogIndex + args.entries.length) with
        commitIndex := i }) :=
    steady_update (fun hc => .inl ⟨hc, rfl⟩) le_rfl
  refine hl.next hel he hs hl.clean hl.leads hl.voted
    (hl.ballot_steady hel (fun _ _ _ hv => hv) he hst) ?_ hst ?_ (hl.applying_mono he)
    (hl.applied_mono he)
  · intro u
    by_cases hu : u = src
    · rw [hu]
      change PeerOk _ _ _ (Function.update w.rafts src _ src)
      rw [Function.update_self]
      exact hp
    · change PeerOk _ _ _ (Function.update w.rafts src _ u)
      rw [Function.update_of_ne hu]
      refine (hl.peers u).mono hl.sound he ?_ (fun _ => rfl) ?_
      · intro T m hm
        rcases hm with hm | ⟨rfl, -⟩
        · exact hm
        · exact absurd rfl hu
      · intro hlu p hc
        rcases hc with hc | ⟨heq, -⟩
        · exact hc
        · exact absurd (leader_unique hel hlead hlu heq) hu
  · intro task hmem
    refine (mem_take_update hmem).imp id ?_
    intro hmem
    rw [List.mem_singleton.mp hmem]
    trivial

theorem Logs.voted_vote (hl : Logs b h F w) (v c : Fin n) (t : Int) (l : List (LogEntity C)) :
    ∀ u t', (h.addVote v t l).voted u t' ↔ ∃ c', (b.vote v c t).votes u c' t' := by
  intro u t'
  constructor
  · rintro (hv | ⟨rfl, rfl⟩)
    · obtain ⟨c', hc'⟩ := (hl.voted u t').mp hv
      exact ⟨c', .inl hc'⟩
    · exact ⟨c, .inr ⟨rfl, rfl, rfl⟩⟩
  · rintro ⟨c', hc' | ⟨rfl, -, rfl⟩⟩
    · exact .inl ((hl.voted u t').mpr ⟨c', hc'⟩)
    · exact .inr ⟨rfl, rfl⟩

/-- The vote is cast with the voter's log, which has kept what it acknowledged. -/
theorem logs_grant (hl : Logs b h F w) (hel : Elect b w) {k : Nat} {src dst : Fin n}
    {waiting : Bool} {args : RequestVoteArgs n} {rf' : Peer n C D}
    (ht : w.tasks[k]? = some (.request src dst (.requestVote args) waiting))
    (hle : (w.rafts dst).currentTerm ≤ args.term)
    (hup : (w.rafts dst).UpToDate args.lastLogTerm args.lastLogIndex)
    (hel' : Elect (b.vote dst src args.term) ((w.take k).update dst rf'
      (answerIf waiting src dst (.requestVote args ⟨args.term, true⟩))))
    (hlog : rf'.logs = (w.rafts dst).logs)
    (ha : rf'.snapshotEntriesAmount = (w.rafts dst).snapshotEntriesAmount)
    (hlt : rf'.lastSnapshotTerm = (w.rafts dst).lastSnapshotTerm)
    (hci : rf'.commitIndex = (w.rafts dst).commitIndex) (hterm : rf'.currentTerm = args.term)
    (hf : rf'.status = .follower) :
    Logs (b.vote dst src args.term) (h.addVote dst args.term (F dst)) F
      ((w.take k).update dst rf'
        (answerIf waiting src dst (.requestVote args ⟨args.term, true⟩))) := by
  have hreq : (w.rafts src).status = .candidate → args.term = (w.rafts src).currentTerm →
      args.lastLogTerm = lastTerm LogEntity.term baseTerm (F src) ∧
        args.lastLogIndex = ((F src).length : Int) - 1 := hl.taskLog ht
  have hne : src ≠ dst := (hel.tally.taskOk ht).1
  have he : h.Extends (h.addVote dst args.term (F dst)) baseTerm := History.extends_addVote ..
  have hp : PeerOk h dst (F dst) rf' :=
    (hl.peers dst).follow hlog ha hlt (by rw [hterm]; exact hle) (.inl hci) (by rw [hf]; simp)
  have hst : Steady F F w.rafts (Function.update w.rafts dst rf') :=
    steady_update (fun hc => by rw [hf] at hc; exact absurd hc (by simp)) ha.ge
  have hs : (h.addVote dst args.term (F dst)).Sound LogEntity.term baseTerm Quorum := by
    refine History.sound_addVote hl.sound ?_
    intro T p hack _
    rw [← hterm]
    exact (hp.kept T p hack).2
  refine hl.next hel he hs hl.clean hl.leads ?_ ?_ ?_ hst ?_ (hl.applying_mono he)
    (hl.applied_mono he)
  · exact hl.voted_vote dst src args.term (F dst)
  · intro v c t hv hcand hct
    by_cases hold : b.votes v c t
    · exact hl.ballot_steady hel (fun _ _ _ hv => hv) he hst v c t hold hcand hct
    · rcases hv with hv | ⟨rfl, rfl, rfl⟩
      · exact absurd hv hold
      · -- the first vote of this voter in this term
        have hnv : ¬ h.voted v args.term := by
          intro hvt
          obtain ⟨c', hc'⟩ := (hl.voted v args.term).mp hvt
          rw [hel'.once v c' c args.term (.inl hc') (.inr ⟨rfl, rfl, rfl⟩)] at hc'
          exact hold hc'
        rw [History.addVote_vlog_new hnv]
        have hcsrc : (Function.update w.rafts v rf' c) = w.rafts c := Function.update_of_ne hne ..
        change (Function.update w.rafts v rf' c).status = .candidate at hcand
        change (Function.update w.rafts v rf' c).currentTerm = args.term at hct
        rw [hcsrc] at hcand hct
        obtain ⟨h1, h2⟩ := hreq hcand hct.symm
        rw [Peer.UpToDate, h1, h2, (hl.peers v).lastTerm_eq, (hl.peers v).lastIndex] at hup
        rcases hup with hgt | ⟨heq, hge⟩
        · exact .inl hgt
        · exact .inr ⟨heq.symm, by omega⟩
  · intro u
    refine PeerOk.mono ?_ hl.sound he (fun _ _ hm => hm) (fun _ => rfl) (fun _ _ hc => hc)
    exact peers_update hl hp u
  · intro task hmem
    refine (mem_take_update hmem).imp id ?_
    intro hmem
    rw [mem_answerIf hmem]
    trivial

/-- A candidate has given its vote to nobody else. -/
theorem Logs.not_voted (hl : Logs b h F w) (hel : Elect b w) {c : Fin n}
    (hc : (w.rafts c).status = .candidate) : ¬ h.voted c (w.rafts c).currentTerm := by
  intro hv
  obtain ⟨c', hcv⟩ := (hl.voted _ _).mp hv
  obtain ⟨hvf, hne⟩ := (hel.voted c c' _ hcv).2 rfl
  rw [hel.candidate c hc] at hvf
  exact hne (Option.some.inj hvf).symm

/-- The history stays sound when a candidate wins: its voters found its log up to date. -/
theorem Logs.sound_win (hl : Logs b h F w) (hel : Elect b w) {src : Fin n}
    (hc : (w.rafts src).status = .candidate) (hfresh : ¬ h.leads ((w.rafts src).currentTerm + 1))
    {q : Finset (Fin n)} (hq : n / 2 < q.card) (hvotes : ∀ v ∈ q,
      (b.win src (w.rafts src).currentTerm).votes v src ((w.rafts src).currentTerm + 1 - 1)) :
    ((h.addVote src (w.rafts src).currentTerm (F src)).addLeader
      ((w.rafts src).currentTerm + 1) (F src)).Sound LogEntity.term baseTerm Quorum := by
  have hp := hl.peers src
  have hnonneg := hp.nonneg
  have hbase : baseTerm < (w.rafts src).currentTerm + 1 := by unfold baseTerm; omega
  have hterm : (w.rafts src).currentTerm + 1 - 1 = (w.rafts src).currentTerm := by omega
  have he₁ : h.Extends (h.addVote src (w.rafts src).currentTerm (F src)) baseTerm :=
    History.extends_addVote ..
  have hs₁ : (h.addVote src (w.rafts src).currentTerm (F src)).Sound LogEntity.term baseTerm
      Quorum :=
    History.sound_addVote hl.sound fun T p hack _ => (hp.kept T p hack).2
  refine History.sound_addLeader hs₁ hbase hfresh ?_ (b := (w.rafts src).snapshotEntriesAmount)
    ?_ (he₁.segClean le_rfl hp.seg) hq ?_
  · exact fun a ha => Int.lt_add_one_of_le (hp.terms a ha)
  · rw [hterm]
    exact he₁.committed hp.snap
  · intro v hv
    have hvv := hvotes v hv
    rw [hterm] at hvv ⊢
    rcases hvv with hvv | ⟨rfl, -, -⟩
    · have hvoted := (hl.voted v _).mpr ⟨src, hvv⟩
      refine ⟨.inl hvoted, ?_⟩
      rw [History.addVote_vlog_old hvoted]
      exact hl.ballot v src _ hvv hc rfl
    · refine ⟨.inr ⟨rfl, rfl⟩, ?_⟩
      rw [History.addVote_vlog_new (hl.not_voted hel hc)]
      exact .inr ⟨rfl, le_rfl⟩

/-- **A new leader.**  The quorum that elected it found its log up to date. -/
theorem logs_win (hl : Logs b h F w) (hel : Elect b w) {k : Nat} {src : Fin n}
    (hc : (w.rafts src).status = .candidate)
    (hel' : Elect (b.win src (w.rafts src).currentTerm) ((w.take k).update src
      (w.rafts src).becomeLeader.1 (spawn src (w.rafts src).becomeLeader.2))) :
    Logs (b.win src (w.rafts src).currentTerm)
      ((h.addVote src (w.rafts src).currentTerm (F src)).addLeader
        ((w.rafts src).currentTerm + 1) (F src)) F
      ((w.take k).update src (w.rafts src).becomeLeader.1
        (spawn src (w.rafts src).becomeLeader.2)) ∧
    h.Extends ((h.addVote src (w.rafts src).currentTerm (F src)).addLeader
      ((w.rafts src).currentTerm + 1) (F src)) baseTerm := by
  have hp := hl.peers src
  have hnonneg := hp.nonneg
  have hbase : baseTerm < (w.rafts src).currentTerm + 1 := by unfold baseTerm; omega
  have hown : (b.win src (w.rafts src).currentTerm).leads src ((w.rafts src).currentTerm + 1) :=
    .inr ⟨rfl, rfl⟩
  -- nobody has led the new term before
  have hfresh : ¬ h.leads ((w.rafts src).currentTerm + 1) := by
    intro hn
    obtain ⟨c, hcl⟩ := (hl.leads _).mp hn
    rw [hel'.unique (.inl hcl) hown] at hcl
    have := (hel.elected src _ hcl).1
    omega
  have hfresh₁ : ¬ (h.addVote src (w.rafts src).currentTerm (F src)).leads
      ((w.rafts src).currentTerm + 1) := hfresh
  have hclean₁ : (h.addVote src (w.rafts src).currentTerm (F src)).Clean LogEntity.term
      baseTerm := hl.clean
  have he₁ : h.Extends (h.addVote src (w.rafts src).currentTerm (F src)) baseTerm :=
    History.extends_addVote ..
  have he₂ : (h.addVote src (w.rafts src).currentTerm (F src)).Extends
      ((h.addVote src (w.rafts src).currentTerm (F src)).addLeader
        ((w.rafts src).currentTerm + 1) (F src)) baseTerm :=
    History.extends_addLeader hbase hfresh₁ _
  obtain ⟨-, q, hq, hvotes⟩ := hel'.elected src _ hown
  have hs₂ := hl.sound_win hel hc hfresh hq hvotes
  have he : h.Extends ((h.addVote src (w.rafts src).currentTerm (F src)).addLeader
      ((w.rafts src).currentTerm + 1) (F src)) baseTerm := he₁.trans he₂
  have hst : Steady F F w.rafts (Function.update w.rafts src (w.rafts src).becomeLeader.1) :=
    steady_update (fun hcand => absurd hcand (by simp)) le_rfl
  refine ⟨hl.next hel he hs₂ (History.clean_addLeader hclean₁ hbase hfresh₁ hp.ne hs₂) ?_ ?_ ?_ ?_
    hst ?_ (hl.applying_mono he) (hl.applied_mono he), he⟩
  · intro T
    constructor
    · rintro (hT | rfl)
      · obtain ⟨c, hcl⟩ := (hl.leads T).mp hT
        exact ⟨c, .inl hcl⟩
      · exact ⟨src, hown⟩
    · rintro ⟨c, hcl | ⟨-, rfl⟩⟩
      · exact .inl ((hl.leads T).mpr ⟨c, hcl⟩)
      · exact .inr rfl
  · exact hl.voted_vote src src (w.rafts src).currentTerm (F src)
  · intro v c t hv hcand hct
    rcases hv with hv | ⟨rfl, rfl, rfl⟩
    · exact hl.ballot_steady hel (fun _ _ _ hv => hv) he hst v c t hv hcand hct
    · change (Function.update w.rafts c (w.rafts c).becomeLeader.1 c).status = _ at hcand
      rw [Function.update_self] at hcand
      exact absurd hcand (by simp)
  · intro u
    change PeerOk _ u (F u) (Function.update w.rafts src _ u)
    by_cases hu : u = src
    · rw [hu, Function.update_self]
      refine hp.win hl.sound he (fun _ _ hm => hm) (History.addLeader_llog_self ..) ?_
      exact fun p hcp => hfresh (hl.sound.commit _ p hcp).1
    · rw [Function.update_of_ne hu]
      refine (hl.peers u).mono hl.sound he (fun _ _ hm => hm) ?_ (fun _ _ hc => hc)
      intro hlu
      refine History.addLeader_llog_ne ?_ _
      intro heq
      exact hfresh (heq ▸ (hl.leads _).mpr ⟨u, (hel.leader u hlu).2⟩)
  · intro task hmem
    refine (mem_take_update hmem).imp id ?_
    intro hmem
    obtain ⟨g, -, rfl⟩ := List.mem_map.mp hmem
    trivial

theorem taskLog_spawn {i : Fin n} {gs : List (Goroutine n)} {rafts : Fin n → Peer n C D} :
    ∀ task ∈ spawn i gs, TaskLog h F rafts task := by
  intro task hmem
  obtain ⟨g, -, rfl⟩ := List.mem_map.mp hmem
  trivial

theorem taskLog_answerIf {waiting : Bool} {src dst : Fin n} {ans : Answer n C D}
    {rafts : Fin n → Peer n C D} (hans : TaskLog h F rafts (.answer src dst ans)) :
    ∀ task ∈ answerIf waiting src dst ans, TaskLog h F rafts task := by
  intro task hmem
  rw [mem_answerIf hmem]
  exact hans

theorem taskLog_next {i : Fin n} {next : Option (Fin n × Answer n C D)}
    {rafts : Fin n → Peer n C D} (hnext : NextLog h i next) :
    ∀ task ∈ (next.map fun (src, ans) => Task.answer src i ans).toList,
      TaskLog h F rafts task := by
  intro task hmem
  obtain ⟨src, ans, rfl, rfl⟩ := mem_owed hmem
  cases ans with
  | requestVote args reply => trivial
  | appendEntries args reply => exact hnext
  | installSnapshot args reply => exact hnext.elim

/-- The elections write votes and leaders into the history, and touch no log. -/
theorem logs_campaign {e : Event C D n} (hl : Logs b h F w) (hel : Elect b w)
    (hh : ∀ i, (w.rafts i).me = i) (hf : w.FairElection e) (hc : Campaign w e w') :
    ∃ b' h', Elect b' w' ∧ Logs b' h' F w' ∧ h.Extends h' baseTerm ∧ h'.acks = h.acks := by
  cases hc with
  | election i hne =>
    refine ⟨b.open_ i, h, elect_election hel i (hh i), ?_, .refl, rfl⟩
    have hv : (b.open_ i).votes = b.votes := rfl
    refine hl.quiet_update hel hv rfl ?_ ?_ le_rfl taskLog_spawn
    · exact (hl.peers i).follow rfl rfl rfl (Int.le_add_one le_rfl) (.inl rfl) (by simp)
    · exact fun _ => .inr (Int.lt_add_one_iff.mpr le_rfl)
  | askVote k i server election ht =>
    have hok := hf.2 (i, election) (by simp [picked, ht, asking])
    refine ⟨b, h, elect_askVote hel (hh i) ht hok, ?_, .refl, rfl⟩
    refine hl.quiet_replace hel ?_
    refine List.forall_mem_singleton.mpr ?_
    intro _ _
    exact ⟨(hl.peers i).lastTerm_eq, (hl.peers i).lastIndex⟩
  | grant k src dst waiting args rf' ht hle hup hfree hrf =>
    have hel' : Elect (b.vote dst src args.term) ((w.take k).update dst rf'
        (answerIf waiting src dst (.requestVote args ⟨args.term, true⟩))) := by
      refine elect_grant hel (hh dst) ht hle hfree ?_ ?_ ?_ rfl <;> rcases hrf with rfl | rfl <;> rfl
    refine ⟨_, h.addVote dst args.term (F dst), hel', ?_, History.extends_addVote .., rfl⟩
    refine logs_grant hl hel ht hle hup hel' ?_ ?_ ?_ ?_ ?_ ?_ <;>
      rcases hrf with rfl | rfl <;> rfl
  | count k src dst args reply ht hcand hg hrt =>
    refine ⟨b.count src dst, h, elect_count hel ht hcand hg hrt rfl, ?_, .refl, rfl⟩
    have hv : (b.count src dst).votes = b.votes := rfl
    refine hl.quiet_take hel hv rfl ?_ (fun hc => .inl ⟨hc, rfl⟩) le_rfl (by simp)
    exact (hl.peers src).same rfl rfl rfl rfl rfl rfl rfl
  | win k src dst args reply ht hcand hmaj =>
    have hel' := elect_win hel ht hcand hmaj rfl
    exact ⟨_, _, hel', (logs_win hl hel hcand hel').1, (logs_win hl hel hcand hel').2, rfl⟩

/-! ### All other steps -/

/-- A new acknowledgement is about the log its peer has just stored. -/
def Recent (h h' : Hist n C) (F' : Fin n → List (LogEntity C)) (w' : World n C D) : Prop :=
  ∀ u T m, h'.acks u T m → h.acks u T m ∨
    ((w'.rafts u).currentTerm = T ∧ F' u <+: h'.llog T ∧ m = (F' u).length)

theorem logs_append (hl : Logs b h F w) (hel : Elect b w) {k : Nat} {src dst : Fin n}
    {waiting ok : Bool} {args : AppendEntriesArgs n C} {rf' : Peer n C D}
    {reply : AppendEntriesReply} (hme : (w.rafts dst).me = dst)
    (ht : w.tasks[k]? = some (.request src dst (.appendEntries args) waiting))
    (hcare : w.Careful (.task k)) (ho : Peer.AppendOutcome (w.rafts dst) args rf' reply ok) :
    ∃ h' F', Logs b h' F' ((w.take k).update dst rf'
        (if ok then [.commit dst (if waiting then some (src, .appendEntries args reply) else none)]
          else answerIf waiting src dst (.appendEntries args reply))) ∧
      h.Extends h' baseTerm ∧ Recent h h' F' ((w.take k).update dst rf'
        (if ok then [.commit dst (if waiting then some (src, .appendEntries args reply) else none)]
          else answerIf waiting src dst (.appendEntries args reply))) := by
  cases ho with
  | stale hlt =>
    refine ⟨h, F, ?_, .refl, fun _ _ _ ha => .inl ha⟩
    exact hl.quiet_replace hel (taskLog_answerIf fun hok => absurd hok (by simp))
  | refused hle hno =>
    refine ⟨h, F, ?_, .refl, fun _ _ _ ha => .inl ha⟩
    refine hl.quiet_take hel rfl rfl ?_ (fun hc => absurd hc (by simp)) le_rfl
      (taskLog_answerIf fun hok => absurd hok (by simp [hno]))
    exact (hl.peers dst).follow rfl rfl rfl hle (.inl rfl) (by simp)
  | accepted hle hne hlo hhi hterm =>
    have hkeep := hcare.1.1 (dst, args.term) (by simp [picked, ht, heeded])
    have hcut := hcare.2.1 (dst, args) (by simp [picked, ht, appending])
    obtain ⟨s, hs, hl'⟩ := logs_accept hl hel hme ht hkeep hcut hle hne hlo hhi hterm
    refine ⟨_, _, hl', History.extends_addAck .., ?_⟩
    intro u T m ha
    rcases ha with ha | ⟨rfl, rfl, rfl⟩
    · exact .inl ha
    · rw [Function.update_self]
      refine .inr ⟨?_, hs.pre, rfl⟩
      change (Function.update w.rafts u ((w.rafts u).overwrite args) u).currentTerm = _
      rw [Function.update_self]
      simp [Peer.overwrite]

theorem logs_appendReply (hl : Logs b h F w) (hel : Elect b w) {k : Nat} {src dst : Fin n}
    {commit : Bool} {args : AppendEntriesArgs n C} {rf' : Peer n C D} {gs : List (Goroutine n)}
    {reply : AppendEntriesReply} (hme : (w.rafts src).me = src)
    (ht : w.tasks[k]? = some (.answer src dst (.appendEntries args reply)))
    (hcare : w.Careful (.task k))
    (ho : Peer.AppendReplyOutcome (w.rafts src) dst args reply rf' gs commit) :
    ∃ h', Logs b h' F ((w.take k).update src rf'
        (spawn src gs ++ if commit then [.commit src none] else [])) ∧
      h.Extends h' baseTerm ∧ Recent h h' F ((w.take k).update src rf'
        (spawn src gs ++ if commit then [.commit src none] else [])) := by
  have hnew : ∀ (gs : List (Goroutine n)) (commit : Bool) (rafts : Fin n → Peer n C D),
      ∀ task ∈ spawn src gs ++ (if commit then [.commit src none] else []),
        TaskLog h F rafts task := by
    intro gs commit rafts task hmem
    rcases List.mem_append.mp hmem with hmem | hmem
    · exact taskLog_spawn task hmem
    · cases commit with
      | false => exact absurd hmem List.not_mem_nil
      | true => rw [List.mem_singleton.mp hmem]; trivial
  cases ho with
  | tables _ =>
    refine ⟨h, ?_, .refl, fun _ _ _ ha => .inl ha⟩
    refine hl.quiet_take hel rfl rfl ?_ (fun hc => .inl ⟨hc, rfl⟩) le_rfl (hnew _ _ _)
    exact (hl.peers src).same rfl rfl rfl rfl rfl rfl rfl
  | higher hlt =>
    refine ⟨h, ?_, .refl, fun _ _ _ ha => .inl ha⟩
    refine hl.quiet_take hel rfl rfl ?_ (fun hc => absurd hc (by simp)) le_rfl (hnew _ _ _)
    exact (hl.peers src).follow rfl rfl rfl hlt.le (.inl rfl) (by simp)
  | matched hlead hok hu =>
    have hcur := hcare.2.2 (src, args.term) (by simp [picked, ht, replying, hok]) hlead
    rcases Peer.leaderUpdateCommit_eq_some hu with rfl | ⟨i, hlt, hcm, rfl⟩
    · refine ⟨h, ?_, .refl, fun _ _ _ ha => .inl ha⟩
      refine hl.quiet_take hel rfl rfl ?_ (fun hc => .inl ⟨hc, rfl⟩) le_rfl (hnew _ _ _)
      exact (hl.peers src).setMatch (.inr (hcur ▸ hl.taskLog ht hok))
    · have hl' := logs_commit hl hel hme ht hlead hok hcur hlt hcm
      refine ⟨_, hl', ⟨fun _ hl => hl, fun _ _ => rfl, fun _ _ => List.prefix_rfl, fun _ _ hv => hv,
        fun _ _ _ => rfl, fun _ _ _ ha => .inl ha, fun _ _ hc => .inl hc⟩, ?_⟩
      intro u T m ha
      rcases ha with ha | ⟨rfl, rfl, rfl⟩
      · exact .inl ha
      · refine .inr ⟨?_, ?_, rfl⟩
        · change (Function.update w.rafts u _ u).currentTerm = _
          rw [Function.update_self]
          rfl
        · rw [(hl.peers u).lead hlead]
          exact List.prefix_rfl

theorem logs_installMove (hl : Logs b h F w) (hel : Elect b w) {k : Nat} {src dst : Fin n}
    {waiting : Bool} {args : InstallSnapshotArgs n D} {rf' : Peer n C D}
    {reply : InstallSnapshotReply}
    (ht : w.tasks[k]? = some (.request src dst (.installSnapshot args) waiting))
    (ho : Peer.InstallOutcome (w.rafts dst) args rf') :
    ∃ F', Logs b h F' ((w.take k).update dst rf'
      (answerIf waiting src dst (.installSnapshot args reply))) := by
  have hlast : args.lastIncludedIndex < (w.rafts src).snapshotEntriesAmount := (hl.taskLog ht).2
  cases ho with
  | stale hlt =>
    refine ⟨F, hl.quiet_replace hel (taskLog_answerIf ?_)⟩
    rw [Function.update_eq_self]
    exact hlast
  | ignored hle =>
    have hst : Steady F F w.rafts (Function.update w.rafts dst
        ((w.rafts dst).becomeFollower args.term none).persist) :=
      steady_update (fun hc => absurd hc (by simp)) le_rfl
    refine ⟨F, hl.quiet_take hel rfl rfl ?_ (fun hc => absurd hc (by simp)) le_rfl
      (taskLog_answerIf (hlast.trans_le (Int.ofNat_le.mpr (hst.amount src))))⟩
    exact (hl.peers dst).follow rfl rfl rfl hle (.inl rfl) (by simp)
  | installed hle hlo => refine logs_install hl hel ht hle hlo ?_ ?_ ?_ ?_ ?_ ?_ <;> rfl

theorem msgOk_batch {i : Fin n} (hp : PeerOk h i (F i) (w.rafts i)) {rf' : Peer n C D}
    {msgs : List (ApplyMsg C D)} (ho : Peer.ApplyOutcome (w.rafts i) rf' msgs) :
    ∀ msg ∈ msgs, MsgOk h msg := by
  intro msg hmem hv
  cases ho with
  | jump _ => rw [List.mem_singleton.mp hmem] at hv; exact absurd hv (by simp)
  | nothing => exact absurd hmem List.not_mem_nil
  | batch hb hlt hall =>
    obtain ⟨k, hk, e, he, rfl⟩ := exists_of_forall₂ hall hmem
    rw [List.mem_range] at hk
    have hget : (F i)[((w.rafts i).lastApplied + 1 + k).toNat]? = some e := by
      rw [← hp.logs_get (show (w.rafts i).snapshotEntriesAmount
        ≤ ((w.rafts i).lastApplied + 1 + k).toNat by omega), ← he]
      congr 1
      omega
    have hcom : (F i).take ((w.rafts i).commitIndex + 1).toNat ≠ [] := by
      intro hnil
      rcases List.take_eq_nil_iff.mp hnil with hz | hz
      · omega
      · exact hp.ne hz
    rcases hp.com with hnil | ⟨T, p, hc, -, hpre⟩
    · exact absurd hnil hcom
    refine ⟨T, p, e, hc, ?_, ?_, rfl⟩
    · change 0 ≤ (w.rafts i).lastApplied + 1 + k
      omega
    · have htake : ((F i).take ((w.rafts i).commitIndex + 1).toNat)[
          ((w.rafts i).lastApplied + 1 + k).toNat]? = some e := by
        rw [List.getElem?_take_of_lt (by omega)]
        exact hget
      obtain ⟨hlen, hval⟩ := List.getElem?_eq_some_iff.mp htake
      exact hval ▸ (List.prefix_iff_getElem?.mp hpre) _ hlen

theorem logs_collect (hl : Logs b h F w) (hel : Elect b w) {k : Nat} {i : Fin n}
    {next : Option (Fin n × Answer n C D)} {rf' : Peer n C D} {msgs : List (ApplyMsg C D)}
    (ht : w.tasks[k]? = some (.commit i next)) (ho : Peer.ApplyOutcome (w.rafts i) rf' msgs) :
    Logs b h F { (w.take k).update i rf' [] with
      applying := Function.update w.applying i (some (msgs, next)) } := by
  have hmsgs := msgOk_batch (hl.peers i) ho
  have hq : Logs b h F ((w.take k).update i rf' []) := by
    cases ho <;>
      exact hl.quiet_take hel rfl rfl ((hl.peers i).same rfl rfl rfl rfl rfl rfl rfl)
        (fun hc => .inl ⟨hc, rfl⟩) le_rfl (by simp)
  refine ⟨hq.sound, hq.clean, hq.leads, hq.voted, hq.ballot, hq.peers, hq.tasks,
    applying_update hl.applying ?_, hq.applied⟩
  intro msgs' next' heq
  cases heq
  exact ⟨hl.taskLog ht, hmsgs⟩

theorem logs_send (hl : Logs b h F w) {i : Fin n} {next : Option (Fin n × Answer n C D)}
    {msg : ApplyMsg C D} {msgs : List (ApplyMsg C D)}
    (ha : w.applying i = some (msg :: msgs, next)) :
    Logs b h F { w with
      applying := Function.update w.applying i (some (msgs, next))
      applyCh := Function.update w.applyCh i (w.applyCh i ++ [msg])
      applied := w.applied ++ [(i, msg)] } := by
  obtain ⟨hnext, hmsgs⟩ := hl.applying i _ _ ha
  refine ⟨hl.sound, hl.clean, hl.leads, hl.voted, hl.ballot, hl.peers, hl.tasks,
    applying_update hl.applying ?_, ?_⟩
  · intro msgs' next' heq
    cases heq
    exact ⟨hnext, fun m hmem => hmsgs m (List.mem_cons_of_mem _ hmem)⟩
  · intro x hx
    rcases List.mem_append.mp hx with hx | hx
    · exact hl.applied x hx
    · rw [List.mem_singleton.mp hx]
      exact hmsgs msg (List.mem_cons_self ..)

theorem logs_release (hl : Logs b h F w) {i : Fin n} {next : Option (Fin n × Answer n C D)}
    (ha : w.applying i = some ([], next)) :
    Logs b h F { w with
      applying := Function.update w.applying i none
      tasks := w.tasks ++ (next.map fun (src, ans) => Task.answer src i ans).toList } := by
  obtain ⟨hnext, -⟩ := hl.applying i _ _ ha
  refine ⟨hl.sound, hl.clean, hl.leads, hl.voted, hl.ballot, hl.peers, ?_,
    applying_update hl.applying (by simp), hl.applied⟩
  intro task hmem
  rcases List.mem_append.mp hmem with hmem | hmem
  · exact hl.tasks task hmem
  · exact taskLog_next hnext task hmem

theorem logs_restart [Inhabited C] (hl : Logs b h F w) (hel : Elect b w) {i : Fin n}
    (hi : Healthy i (w.rafts i)) : Logs b h F (w.restart i) := by
  have hd := make_getPersistData hi
  have hterm : (Peer.make i (w.rafts i).persister).currentTerm = (w.rafts i).currentTerm :=
    congrArg PersistData.currentTerm hd
  have hamount : (Peer.make i (w.rafts i).persister).snapshotEntriesAmount
      = (w.rafts i).snapshotEntriesAmount := congrArg PersistData.snapshotEntriesAmount hd
  have hf := make_status i (w.rafts i).persister
  have hp : PeerOk h i (F i) (Peer.make i (w.rafts i).persister) :=
    (hl.peers i).follow (congrArg PersistData.logs hd) hamount
      (congrArg PersistData.lastSnapshotTerm hd) hterm.ge
      (.inr (make_commitIndex i (w.rafts i).persister)) (by rw [hf]; simp)
  have hst : Steady F F w.rafts (w.restart i).rafts :=
    steady_update (fun hc => absurd hc (by rw [hf]; simp)) hamount.ge
  refine ⟨hl.sound, hl.clean, hl.leads, hl.voted,
    hl.ballot_steady hel (fun _ _ _ hv => hv) .refl hst, peers_update hl hp, ?_, ?_, hl.applied⟩
  · intro task hmem
    obtain ⟨t, ht, ha⟩ := List.mem_filterMap.mp hmem
    have hok := (hl.tasks t ht).mono (hel.tasks t ht) .refl hst
    cases survives_of_afterCrash ha with
    | goroutine _ => trivial
    | @request src dst req _ _ => cases req <;> exact hok
    | answer _ => exact hok
    | commit _ hn =>
      rcases hn with rfl | rfl
      · trivial
      · exact hok
  · exact applying_restart hl.applying (fun _ _ _ hP => ⟨trivial, hP.2⟩) i

/-- **A calm step keeps the invariant.** -/
theorem logs_calm [Inhabited C] {e : Event C D n} (hl : Logs b h F w) (hel : Elect b w)
    (hh : ∀ i, Healthy i (w.rafts i)) (hcare : w.Careful e) (hcalm : Calm b w w')
    (hm : Move w e w') :
    ∃ h' F', Logs b h' F' w' ∧ h.Extends h' baseTerm ∧ Recent h h' F' w' := by
  -- most steps leave the history and the full logs alone
  have hquiet : Logs b h F w' → ∃ h' F', Logs b h' F' w' ∧ h.Extends h' baseTerm ∧
      Recent h h' F' w' := fun hl' => ⟨h, F, hl', .refl, fun _ _ _ ha => .inl ha⟩
  cases hm with
  | heartbeat i _ =>
    exact hquiet (hl.quiet_new hel taskLog_spawn)
  | idle i =>
    exact hquiet (hl.quiet_new hel (by simp))
  | election i hne =>
    have hst := (hcalm.peers i).status
    simp only [update, Function.update_self] at hst
    rcases hst with hf | ⟨-, ht, -⟩
    · exact absurd hf (by simp)
    · exact absurd ht (Int.ne_of_gt (Int.lt_add_one_iff.mpr le_rfl))
  | start i command hlead =>
    exact ⟨_, _, logs_start hl hel hlead command, History.extends_addEntry ..,
      fun _ _ _ ha => .inl ha⟩
  | snapshot i index data rf' ho =>
    cases ho with
    | ignored =>
      exact hquiet (hl.quiet_new hel (by simp))
    | compacted hlo hci hget =>
      refine hquiet (hl.quiet_update hel rfl rfl ?_ (fun hc => .inl ⟨hc, rfl⟩) ?_ (by simp))
      · refine (hl.peers i).compact hlo hci hget ?_ ?_ ?_ ?_ ?_ ?_ ?_ <;> rfl
      · change (w.rafts i).snapshotEntriesAmount ≤ (index + 1).toNat
        omega
  | askVote k i server election ht =>
    refine hquiet (hl.quiet_replace hel ?_)
    refine List.forall_mem_singleton.mpr ?_
    exact fun _ _ => ⟨(hl.peers i).lastTerm_eq, (hl.peers i).lastIndex⟩
  | sendAppend k i server rf' d ht ho =>
    cases ho with
    | installSnapshot =>
      refine hquiet (hl.quiet_take hel rfl rfl ?_ (fun hc => .inl ⟨hc, rfl⟩) le_rfl ?_)
      · exact (hl.peers i).same rfl rfl rfl rfl rfl rfl rfl
      · refine List.forall_mem_singleton.mpr ?_
        trivial
    | notLeader =>
      exact hquiet (hl.quiet_replace hel (by simp))
    | send hlead hsent =>
      refine hquiet (hl.quiet_replace hel ?_)
      refine List.forall_mem_singleton.mpr ?_
      exact ⟨F i, appendOk_of_sentBy hl hel hlead hsent⟩
  | sendInstall k i server ht =>
    refine hquiet (hl.quiet_replace hel ?_)
    refine List.forall_mem_singleton.mpr ?_
    rw [Function.update_eq_self]
    refine ⟨⟨_, installOk_create (hl.peers i)⟩, ?_⟩
    change ((w.rafts i).snapshotEntriesAmount : Int) - 1 < (w.rafts i).snapshotEntriesAmount
    omega
  | vote k src dst waiting args rf' reply ht ho =>
    have hans : ∀ rafts : Fin n → Peer n C D, ∀ task ∈ answerIf waiting src dst
        (.requestVote args reply), TaskLog h F rafts task := fun _ => taskLog_answerIf trivial
    cases ho with
    | stale _ =>
      exact hquiet (hl.quiet_replace hel (hans _))
    | refused hle =>
      refine hquiet ?_
      unfold Peer.adoptTerm
      split
      · refine hl.quiet_take hel rfl rfl ?_ (fun hc => absurd hc (by simp)) le_rfl (hans _)
        exact (hl.peers dst).follow rfl rfl rfl hle (.inl rfl) (by simp)
      · exact hl.quiet_replace hel (hans _)
    | granted hle _ _ hrf =>
      refine hquiet ?_
      rcases hrf with rfl | rfl
      all_goals
        refine hl.quiet_take hel rfl rfl ?_ (fun hc => absurd hc (by simp)) le_rfl (hans _)
        exact (hl.peers dst).follow rfl rfl rfl hle (.inl rfl) (by simp)
  | append k src dst waiting args rf' reply ok ht ho =>
    exact logs_append hl hel (hh dst).me ht hcare ho
  | install k src dst waiting args rf' reply ht ho =>
    obtain ⟨F', hl'⟩ := logs_installMove hl hel ht ho
    exact ⟨h, F', hl', .refl, fun _ _ _ ha => .inl ha⟩
  | voteReply k src dst args reply rf' gs ht ho =>
    cases ho with
    | higher hlt =>
      refine hquiet (hl.quiet_take hel rfl rfl ?_ (fun hc => absurd hc (by simp)) le_rfl
        taskLog_spawn)
      exact (hl.peers src).follow rfl rfl rfl hlt.le (.inl rfl) (by simp)
    | same _ =>
      exact hquiet (hl.quiet_replace hel taskLog_spawn)
    | counted _ _ _ _ =>
      refine hquiet (hl.quiet_take hel rfl rfl ?_ (fun hc => .inl ⟨hc, rfl⟩) le_rfl
        taskLog_spawn)
      exact (hl.peers src).same rfl rfl rfl rfl rfl rfl rfl
    | elected hc _ _ =>
      have hst := (hcalm.peers src).status
      simp only [update, Function.update_self] at hst
      rcases hst with hf | ⟨hs, -⟩
      · exact absurd hf (by simp)
      · rw [hc] at hs; exact absurd hs (by simp)
  | appendReply k src dst args reply rf' gs commit ht ho =>
    obtain ⟨h', hl', he, hr⟩ := logs_appendReply hl hel (hh src).me ht hcare ho
    exact ⟨h', F, hl', he, hr⟩
  | installReply k src dst args reply ht =>
    refine hquiet ?_
    unfold Peer.handleInstallSnapshotReply
    split
    · rename_i hlt
      refine hl.quiet_take hel rfl rfl ?_ (fun hc => absurd hc (by simp)) le_rfl (by simp)
      exact (hl.peers src).follow rfl rfl rfl hlt.le (.inl rfl) (by simp)
    · exact hl.quiet_replace hel (by simp)
  | failRequest k src dst args ht =>
    obtain ⟨hB, hlt⟩ := hl.taskLog ht
    refine hquiet (hl.quiet_take hel rfl rfl ((hl.peers src).setMatch (.inl hlt))
      (fun hc => .inl ⟨hc, rfl⟩) le_rfl ?_)
    refine List.forall_mem_singleton.mpr ?_
    refine ⟨hB, ?_⟩
    rw [Function.update_self]
    exact hlt
  | failAnswer k src dst args reply ht =>
    exact hquiet (hl.quiet_take hel rfl rfl ((hl.peers src).setMatch (.inl (hl.taskLog ht)))
      (fun hc => .inl ⟨hc, rfl⟩) le_rfl (by simp))
  | collect k i next rf' msgs ht _ ho => exact hquiet (logs_collect hl hel ht ho)
  | send i next msg msgs ha => exact hquiet (logs_send hl ha)
  | release i next ha => exact hquiet (logs_release hl ha)
  | restart i => exact hquiet (logs_restart hl hel (hh i))

/-- **The step lemma.** -/
theorem logs_step [Inhabited C] {e : Event C D n} (hl : Logs b h F w) (hel : Elect b w)
    (hh : ∀ i, Healthy i (w.rafts i)) (hcare : w.Careful e) (hs : w.step e = some w') :
    ∃ b' h' F', Elect b' w' ∧ Logs b' h' F' w' ∧ h.Extends h' baseTerm ∧ Recent h h' F' w' := by
  have hm := move_of_step hs
  rcases campaign_or_calm hel hh hcare.1 hm with hc | hc
  · obtain ⟨b', h', hel', hl', he, hacks⟩ := logs_campaign hl hel (fun i => (hh i).me) hcare.1 hc
    exact ⟨b', h', F, hel', hl', he, fun u T m ha => .inl (hacks ▸ ha)⟩
  · obtain ⟨h', F', hl', he, hr⟩ := logs_calm hl hel hh hcare hc hm
    exact ⟨b, h', F', hc.elect hel, hl', he, hr⟩

end steps

end World

end ShardRaft.Raft
