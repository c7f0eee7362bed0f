import ShardRaft.Raft.LogInvariant

/-!
# What careful runs guarantee

A run is *careful* if every step of it is (`Careful`).  In such runs

* no two services are given different commands for one index
  (`state_machine_safety`);
* no server drops or replaces an entry up to its `commitIndex`
  (`committed_kept`);
* whatever a leader commits is stored by a majority while it leads
  (`commit_quorum`).

Each of them fails in some run that is not careful, and the schedules are given.
-/

namespace ShardRaft.Raft

open ShardRaft.Lib

variable {n : Nat} {C D : Type}

namespace World

/-! ### The start -/

/-- Nobody has led, voted, acknowledged or committed; every log is the filler. -/
def hist₀ [Inhabited C] : Hist n C where
  leads _ := False
  elog _ := []
  llog _ := [filler]
  voted _ _ := False
  vlog _ _ := []
  acks _ _ _ := False
  commits _ _ := False

theorem sound_hist₀ [Inhabited C] :
    (hist₀ : Hist n C).Sound LogEntity.term baseTerm Quorum where
  meet := quorum_meet
  base_lt := fun _ h => h.elim
  base_log := by
    refine List.forall_mem_singleton.mpr ?_
    rfl
  grows := fun _ h => h.elim
  old := fun _ h => h.elim
  new := fun _ h => h.elim
  form := fun _ h => h.elim
  voters := fun _ h => h.elim
  kept := fun _ _ h => h.elim
  ack := fun _ _ _ h => h.elim
  commit := fun _ _ h => h.elim

theorem clean_hist₀ [Inhabited C] : (hist₀ : Hist n C).Clean LogEntity.term baseTerm := by
  intro T _ m a ha
  obtain rfl : a = filler := List.mem_singleton.mp (List.mem_of_getElem? ha)
  exact ⟨.inl rfl, List.take_prefix _ _⟩

theorem peerOk_init [Inhabited C] (u : Fin n) :
    PeerOk hist₀ u [filler] (Peer.make u .makePersister : Peer n C D) where
  rep := rfl
  len := Nat.zero_le _
  ne := by simp
  last := rfl
  seg := clean_hist₀.segClean (.inl rfl) List.prefix_rfl 0
  snap := .inl rfl
  lower := le_rfl
  upper := by
    rw [make_commitIndex]
    simp
  com := .inl rfl
  nonneg := le_rfl
  terms := by
    refine List.forall_mem_singleton.mpr ?_
    change (-1 : Int) ≤ 0
    decide
  kept := fun _ _ h => h.2.2.elim fun _ h => h.1.elim
  lead := fun h => absurd h (by simp [make_status])
  raised := fun _ _ h => h.elim
  matched := fun h => absurd h (by simp [make_status])

theorem logs_init [Inhabited C] :
    Logs .empty hist₀ (fun _ => [filler]) (init : World n C D) where
  sound := sound_hist₀
  clean := clean_hist₀
  leads := fun _ => ⟨fun h => h.elim, fun ⟨_, h⟩ => h.elim⟩
  voted := fun _ _ => ⟨fun h => h.elim, fun ⟨_, h⟩ => h.elim⟩
  ballot := fun _ _ _ h => h.elim
  peers := peerOk_init
  tasks := by simp [init]
  applying := by simp [init]
  applied := by simp [init]

/-! ### Along a run -/

/-- Every acknowledgement on record was made in some state of the run, by a peer
that had the entries it acknowledged. -/
def Seen (h : Hist n C) (tr : List (World n C D)) : Prop :=
  ∀ u T m, h.acks u T m → ∃ v ∈ tr, (v.rafts u).currentTerm = T ∧
    (v.rafts u).snapshotEntriesAmount ≤ m ∧
    h.Committed T ((h.llog T).take (v.rafts u).snapshotEntriesAmount) ∧
    ∀ i : Nat, (v.rafts u).snapshotEntriesAmount ≤ i → i < m →
      (v.rafts u).getLogEntryAtIndex i = (h.llog T)[i]?

theorem Seen.step {b : Ballots n} {h h' : Hist n C} {F' : Fin n → List (LogEntity C)}
    {w w' : World n C D} {past : List (World n C D)} (hseen : Seen h (w :: past))
    (hs : h.Sound LogEntity.term baseTerm Quorum) (hl' : Logs b h' F' w')
    (he : h.Extends h' baseTerm) (hr : Recent h h' F' w') : Seen h' (w' :: w :: past) := by
  intro u T m ha
  rcases hr u T m ha with ha | ⟨hT, hpre, rfl⟩
  · obtain ⟨v, hv, hterm, hm, hcom, hget⟩ := hseen u T m ha
    obtain ⟨hlead, hlen⟩ := hs.ack u T m ha
    have hgrow := he.llog T (.inr hlead)
    refine ⟨v, List.mem_cons_of_mem _ hv, hterm, hm, ?_, ?_⟩
    · rw [prefix_take_eq hgrow (hm.trans hlen)]
      exact he.committed hcom
    · intro i hi him
      rw [hget i hi him, List.getElem?_eq_getElem (by omega),
        (List.prefix_iff_getElem?.mp hgrow) i (by omega)]
  · have hp := hl'.peers u
    refine ⟨w', List.mem_cons_self .., hT, hp.len, ?_, ?_⟩
    · rw [prefix_take_eq hpre hp.len, ← hT]
      exact hp.snap
    · intro i hi him
      rw [hp.entryAt (by omega), Int.toNat_natCast, List.getElem?_eq_getElem him,
        (List.prefix_iff_getElem?.mp hpre) i him]

/-- **The invariant along a run.** -/
theorem logs_run [Inhabited C] :
    ∀ tr : List (World n C D), Run Careful tr → ∀ w past, tr = w :: past →
      ∃ b h F, Elect b w ∧ Logs b h F w ∧ Seen h tr := by
  intro tr htr
  induction htr with
  | init =>
    rintro w past heq
    obtain ⟨rfl, rfl⟩ := List.cons.inj heq
    exact ⟨_, _, _, elect_init, logs_init, fun _ _ _ h => h.elim⟩
  | @step w w' e past ht hok hs ih =>
    rintro v vs heq
    obtain ⟨rfl, rfl⟩ := List.cons.inj heq
    obtain ⟨b, h, F, hel, hl, hseen⟩ := ih w past rfl
    have hh := healthy_run _ ht w (List.mem_cons_self ..)
    obtain ⟨b', h', F', hel', hl', he, hr⟩ := logs_step hl hel hh hok hs
    exact ⟨b', h', F', hel', hl', hseen.step hl.sound hl' he hr⟩

/-! ### State machine safety -/

/-- **State machine safety.**  In a careful run, whatever the services of any two
servers are given as the command of one index is the same command. -/
theorem state_machine_safety [Inhabited C] :
    ∀ tr : List (World n C D), Run Careful tr → ∀ w ∈ tr, ∀ x ∈ w.applied, ∀ y ∈ w.applied,
      x.2.commandValid = true → y.2.commandValid = true →
      x.2.commandIndex = y.2.commandIndex → x.2.command = y.2.command := by
  intro tr htr w hw x hx y hy hxv hyv hidx
  obtain ⟨past, hpast⟩ := htr.suffix w hw
  obtain ⟨b, h, F, -, hl, -⟩ := logs_run _ hpast w past rfl
  obtain ⟨T, p, e, hc, hpos, hget, hcmd⟩ := hl.applied x hx hxv
  obtain ⟨T', p', e', hc', -, hget', hcmd'⟩ := hl.applied y hy hyv
  rw [← hidx] at hget'
  have hee : e = e' := by
    obtain ⟨hlt, rfl⟩ := List.getElem?_eq_some_iff.mp hget
    obtain ⟨hlt', rfl⟩ := List.getElem?_eq_some_iff.mp hget'
    rcases hl.sound.comparable hc hc' with hpp | hpp
    · exact Option.some.inj (((List.prefix_iff_getElem?.mp hpp) _ hlt).symm.trans hget')
    · exact Option.some.inj (hget.symm.trans ((List.prefix_iff_getElem?.mp hpp) _ hlt'))
  rw [hcmd, hcmd', hee]

/-- Server `0` is elected with the vote of server `1`, and both apply command `7`. -/
def sampleApply : List (Event Nat Unit 3) :=
  [.ticker 0 true, .task 0, .task 1, .task 1, .start 0 7, .task 1, .task 2, .task 2, .applyNext 1,
    .task 2, .task 2, .applyNext 0, .applyNext 0, .applyNext 0, .ticker 0 false, .task 2, .task 3,
    .task 3, .applyNext 1, .applyNext 1]

/-- Two services have been given a command for index `i`. -/
def bothApplied (w : World 3 Nat Unit) (i : Int) : Bool :=
  w.applied.any fun x => w.applied.any fun y =>
    decide (x.1 ≠ y.1 ∧ x.2.commandValid = true ∧ y.2.commandValid = true ∧
      x.2.commandIndex = i ∧ y.2.commandIndex = i)

theorem state_machine_safety_sampleApply :
    ∃ tr, run step Careful (init : World 3 Nat Unit) sampleApply [] = some tr ∧
      (∃ w ∈ tr, w.bothApplied 1 = true) ∧
      ∀ w ∈ tr, ∀ x ∈ w.applied, ∀ y ∈ w.applied,
        x.2.commandValid = true → y.2.commandValid = true →
        x.2.commandIndex = y.2.commandIndex → x.2.command = y.2.command := by
  have hs : ((run step Careful (init : World 3 Nat Unit) sampleApply []).any
      fun tr => tr.any fun w => w.bothApplied 1) = true := by
    decide +kernel
  obtain ⟨tr, h, hl⟩ := (Option.any_eq_true ..).mp hs
  exact ⟨tr, h, List.any_eq_true.mp hl, state_machine_safety tr (trace_of_run h)⟩

/-- Server `0` builds an empty request to server `1`, then one with command `7`,
which arrives first: server `1` acknowledges it and server `0` commits and
applies `7`.  Then the empty request arrives and cuts `7` off, so server `1` can
be elected with the vote of server `2`, and it commits and applies `8`. -/
def lateRequest : List (Event Nat Unit 3) :=
  [.ticker 0 true, .task 0, .task 1, .task 1, .task 1, .start 0 7, .ticker 0 false, .task 3,
    .task 4, .task 4, .applyNext 1, .task 4, .task 4, .applyNext 0, .applyNext 0, .applyNext 0,
    .task 2, .ticker 1 true, .task 5, .task 5, .task 5, .start 1 8, .task 6, .task 6, .task 6,
    .applyNext 2, .task 6, .task 6, .applyNext 1, .applyNext 1]

/-- **Two commands for one index**, when nothing is asked of the run. -/
theorem two_commands :
    ¬ ∀ tr : List (World 3 Nat Unit), Run (fun _ _ => True) tr → ∀ w ∈ tr, ∀ x ∈ w.applied,
      ∀ y ∈ w.applied, x.2.commandValid = true → y.2.commandValid = true →
      x.2.commandIndex = y.2.commandIndex → x.2.command = y.2.command := by
  intro hall
  have hs : ((run step (fun _ _ => True) (init : World 3 Nat Unit) lateRequest []).any fun tr =>
      tr.any fun w => w.applied.any fun x => w.applied.any fun y =>
        decide (x.2.commandValid = true ∧ y.2.commandValid = true ∧
          x.2.commandIndex = y.2.commandIndex ∧ x.2.command ≠ y.2.command)) = true := by
    decide +kernel
  obtain ⟨tr, h, hl⟩ := (Option.any_eq_true ..).mp hs
  obtain ⟨w, hw, hl⟩ := List.any_eq_true.mp hl
  obtain ⟨x, hx, hl⟩ := List.any_eq_true.mp hl
  obtain ⟨y, hy, hl⟩ := List.any_eq_true.mp hl
  obtain ⟨hxv, hyv, hidx, hne⟩ := of_decide_eq_true hl
  exact hne (hall tr (trace_of_run h) w hw x hx y hy hxv hyv hidx)

/-! ### Committed entries stay -/

theorem append_of_step [Inhabited C] {w w' : World n C D} {k : Nat} {src dst : Fin n}
    {args : AppendEntriesArgs n C} {waiting : Bool}
    (ht : w.tasks[k]? = some (.request src dst (.appendEntries args) waiting))
    (hs : w.step (.task k) = some w') :
    ∃ rf' reply ok, Peer.AppendOutcome (w.rafts dst) args rf' reply ok ∧
      w'.rafts dst = rf' := by
  change w.runTask k = some w' at hs
  unfold runTask at hs
  rw [ht] at hs
  obtain ⟨⟨rf, reply, ok⟩, ho, h⟩ := Option.bind_eq_some_iff.mp hs
  cases h
  exact ⟨rf, reply, ok, Peer.appendEntriesWithLock_outcome ho, Function.update_self ..⟩

/-- **Committed entries are kept.**  In a careful run `commitIndex` is never past
the last entry, and handling an `AppendEntries` request neither removes nor
replaces an entry up to `commitIndex`. -/
theorem committed_kept [Inhabited C] (w : World n C D) (past : List (World n C D))
    (htr : Run Careful (w :: past)) :
    (∀ u, (w.rafts u).commitIndex ≤ (w.rafts u).getLastLogEntryIndex) ∧
      ∀ k src dst args waiting w',
        w.tasks[k]? = some (.request src dst (.appendEntries args) waiting) →
        w.Careful (.task k) → w.step (.task k) = some w' →
        ∀ i ≤ (w.rafts dst).commitIndex,
          (w'.rafts dst).getLogEntryAtIndex i = (w.rafts dst).getLogEntryAtIndex i := by
  obtain ⟨b, h, F, hel, hl, -⟩ := logs_run _ htr w past rfl
  refine ⟨?_, ?_⟩
  · intro u
    have := (hl.peers u).upper
    rw [(hl.peers u).lastIndex]
    omega
  intro k src dst args waiting w' ht hcare hs i hi
  obtain ⟨rf', reply, ok, ho, hw'⟩ := append_of_step ht hs
  rw [hw']
  cases ho with
  | stale _ => rfl
  | refused _ _ => rfl
  | accepted hle hne hlo hhi hterm =>
    obtain ⟨s, hs⟩ : ∃ s, AppendOk h args s := hl.taskLog ht
    have hcut := hcare.2.1 (dst, args) (by simp [picked, ht, appending])
    obtain ⟨hp, hsame⟩ := (hl.peers dst).accept hs hl.sound hl.clean hle hne hlo hhi hterm hcut
    have ham : ((w.rafts dst).overwrite args).snapshotEntriesAmount
        = (w.rafts dst).snapshotEntriesAmount := by simp [Peer.overwrite]
    by_cases hb : ((w.rafts dst).snapshotEntriesAmount : Int) ≤ i
    · rw [hp.entryAt (by rw [ham]; exact hb), (hl.peers dst).entryAt hb]
      exact hsame i.toNat (by omega)
    · rw [Peer.getLogEntryAtIndex_eq, Peer.getLogEntryAtIndex_eq, ham, if_neg hb, if_neg hb]

/-- The second request to server `1` is about to arrive when its `commitIndex` is
`1` already. -/
def sampleHeartbeat : List (Event Nat Unit 3) :=
  sampleApply ++ [.applyNext 1, .ticker 0 false, .task 4]

theorem committed_kept_sampleHeartbeat :
    ∃ w past, run step Careful (init : World 3 Nat Unit) sampleHeartbeat [] = some (w :: past) ∧
      (w.rafts 1).commitIndex = 1 ∧
      (∀ u, (w.rafts u).commitIndex ≤ (w.rafts u).getLastLogEntryIndex) ∧
      ∀ k src dst args waiting w',
        w.tasks[k]? = some (.request src dst (.appendEntries args) waiting) →
        w.Careful (.task k) → w.step (.task k) = some w' →
        ∀ i ≤ (w.rafts dst).commitIndex,
          (w'.rafts dst).getLogEntryAtIndex i = (w.rafts dst).getLogEntryAtIndex i := by
  have hs : runEnds step Careful (init : World 3 Nat Unit) sampleHeartbeat
      (fun w _ => decide ((w.rafts 1).commitIndex = 1)) = true := by
    decide +kernel
  obtain ⟨w, past, h, ht, hl⟩ := exists_of_runEnds hs
  exact ⟨w, past, h, of_decide_eq_true hl, committed_kept w past ht⟩

/-- As in `lateRequest`, and a heartbeat tells server `1` of the commit before the
empty request arrives. -/
def lateRequestCommitted : List (Event Nat Unit 3) :=
  [.ticker 0 true, .task 0, .task 1, .task 1, .task 1, .start 0 7, .ticker 0 false, .task 3,
    .task 4, .task 4, .applyNext 1, .task 4, .ticker 0 false, .task 5, .task 6, .task 2]

/-- **A committed entry is gone**, when nothing is asked of the run. -/
theorem committed_lost :
    ¬ ∀ (w : World 3 Nat Unit) (past : List (World 3 Nat Unit)),
      Run (fun _ _ => True) (w :: past) →
      (∀ u, (w.rafts u).commitIndex ≤ (w.rafts u).getLastLogEntryIndex ∨
        (w.rafts u).commitIndex < (w.rafts u).snapshotEntriesAmount) ∧
      ∀ k src dst args waiting w',
        w.tasks[k]? = some (.request src dst (.appendEntries args) waiting) →
        w.step (.task k) = some w' → ∀ i ≤ (w.rafts dst).commitIndex,
          (w'.rafts dst).getLogEntryAtIndex i = (w.rafts dst).getLogEntryAtIndex i := by
  intro hall
  have hs : runEnds step (fun _ _ => True) (init : World 3 Nat Unit) lateRequestCommitted
      (fun w _ => decide (¬ ((w.rafts 1).commitIndex ≤ (w.rafts 1).getLastLogEntryIndex ∨
        (w.rafts 1).commitIndex < (w.rafts 1).snapshotEntriesAmount))) = true := by
    decide +kernel
  obtain ⟨w, past, -, ht, hl⟩ := exists_of_runEnds hs
  exact of_decide_eq_true hl ((hall w past ht).1 1)

/-! ### The quorum behind a commit -/

/-- What there is to say about the step of a leader that raises `commitIndex`. -/
structure Raise (w : World n C D) (e : Event C D n) (w' : World n C D) (l : Fin n) : Prop where
  lead : (w.rafts l).status = .leader
  reply : ∃ k dst args reply, e = .task k ∧
    w.tasks[k]? = some (.answer l dst (.appendEntries args reply)) ∧ reply.success = true ∧
    ((w.rafts l).setMatch dst (args.prevLogIndex + args.entries.length)).Commits
      (w'.rafts l).commitIndex ∧
    w'.rafts l = { (w.rafts l).setMatch dst (args.prevLogIndex + args.entries.length) with
      commitIndex := (w'.rafts l).commitIndex }

/-- Only the reply to `AppendEntries` makes a leader commit. -/
theorem raise_of_move [Inhabited C] {w w' : World n C D} {e : Event C D n} (hm : Move w e w')
    {l : Fin n} (hl : (w'.rafts l).status = .leader)
    (hlt : (w.rafts l).commitIndex < (w'.rafts l).commitIndex) : Raise w e w' l := by
  -- a peer that keeps its commit index or is no leader afterwards is not `l`
  have hno : ∀ (i : Fin n) (rf' : Peer n C D),
      w'.rafts = Function.update w.rafts i rf' →
      rf'.commitIndex = (w.rafts i).commitIndex ∨ rf'.status ≠ .leader → Raise w e w' l := by
    intro i rf' heq hrf
    rw [heq] at hl hlt
    by_cases hli : l = i
    · rw [hli, Function.update_self] at hl hlt
      rcases hrf with hrf | hrf
      · omega
      · exact absurd hl hrf
    · rw [Function.update_of_ne hli] at hlt
      omega
  cases hm with
  | heartbeat i _ => exact hno i _ rfl (.inl rfl)
  | idle i => exact hno i _ rfl (.inl rfl)
  | election i _ => exact hno i _ rfl (.inl rfl)
  | start i command _ => exact hno i _ rfl (.inl rfl)
  | snapshot i index data rf' ho => cases ho <;> exact hno i _ rfl (.inl rfl)
  | askVote k i server election _ => exact hno i _ rfl (.inl rfl)
  | sendAppend k i server rf' d _ ho => cases ho <;> exact hno i _ rfl (.inl rfl)
  | sendInstall k i server _ => exact hno i _ rfl (.inl rfl)
  | vote k src dst waiting args rf' reply _ ho =>
    cases ho with
    | stale _ => exact hno dst _ rfl (.inl rfl)
    | refused _ =>
      refine hno dst _ rfl (.inl ?_)
      unfold Peer.adoptTerm
      split <;> rfl
    | granted _ _ _ hrf => rcases hrf with rfl | rfl <;> exact hno dst _ rfl (.inl rfl)
  | append k src dst waiting args rf' reply ok _ ho =>
    refine hno dst rf' rfl ?_
    cases ho with
    | stale _ => exact .inl rfl
    | refused _ _ => exact .inl rfl
    | accepted _ _ _ _ _ => exact .inr (by simp [Peer.overwrite])
  | install k src dst waiting args rf' reply _ ho => cases ho <;> exact hno dst _ rfl (.inl rfl)
  | voteReply k src dst args reply rf' gs _ ho => cases ho <;> exact hno src _ rfl (.inl rfl)
  | appendReply k src dst args reply rf' gs commit ht ho =>
    cases ho with
    | tables _ => exact hno src _ rfl (.inl rfl)
    | higher _ => exact hno src _ rfl (.inl rfl)
    | matched hlead hok hu =>
      rcases Peer.leaderUpdateCommit_eq_some hu with rfl | ⟨i, -, hcm, rfl⟩
      · exact hno src _ rfl (.inl rfl)
      · by_cases hsrc : l = src
        · subst hsrc
          have hself : (((w.take k).update l { (w.rafts l).setMatch dst
              (args.prevLogIndex + args.entries.length) with commitIndex := i }
              (spawn l [] ++ if true then [.commit l none] else [])).rafts l)
              = { (w.rafts l).setMatch dst (args.prevLogIndex + args.entries.length) with
                commitIndex := i } := Function.update_self ..
          exact ⟨hlead, k, dst, args, reply, rfl, ht, hok, by rw [hself]; exact hcm,
            by rw [hself]⟩
        · change _ < (Function.update w.rafts src _ l).commitIndex at hlt
          rw [Function.update_of_ne hsrc] at hlt
          omega
  | installReply k src dst args reply _ =>
    refine hno src _ rfl (.inl ?_)
    unfold Peer.handleInstallSnapshotReply
    split <;> rfl
  | failRequest k src dst args _ => exact hno src _ rfl (.inl rfl)
  | failAnswer k src dst args reply _ => exact hno src _ rfl (.inl rfl)
  | collect k i next rf' msgs _ _ ho => cases ho <;> exact hno i _ rfl (.inl rfl)
  | send i next msg msgs _ => exact absurd hlt (by simp)
  | release i next _ => exact absurd hlt (by simp)
  | restart i => exact hno i _ rfl (.inr (by simp [make_status]))

/-- An entry that is not committed yet is not under anybody's snapshot either. -/
theorem above_boundary {b : Ballots n} {h : Hist n C} {F : Fin n → List (LogEntity C)}
    {w : World n C D} (hl : Logs b h F w) {l : Fin n} (hlead : (w.rafts l).status = .leader)
    {i : Nat} {e : LogEntity C} (he : (h.llog (w.rafts l).currentTerm)[i]? = some e)
    (hterm : e.term = (w.rafts l).currentTerm) (hi : (w.rafts l).commitIndex < i) {m : Nat}
    (hcom : h.Committed (w.rafts l).currentTerm ((h.llog (w.rafts l).currentTerm).take m)) :
    m ≤ i := by
  by_contra hlt
  have htake : ((h.llog (w.rafts l).currentTerm).take m)[i]? = some e := by
    rw [List.getElem?_take_of_lt (by omega)]
    exact he
  obtain ⟨hlen, hval⟩ := List.getElem?_eq_some_iff.mp htake
  rcases hcom with hnil | ⟨T, p, hc, hT, hpre⟩
  · rw [hnil] at hlen
    exact absurd hlen (Nat.not_lt_zero _)
  have hpi : p[i]? = some e := hval ▸ (List.prefix_iff_getElem?.mp hpre) i hlen
  -- the commit is of the leader's own term, which it would know about
  have hle := hl.sound.commit_le_term hc hpi
  obtain rfl : T = (w.rafts l).currentTerm := by omega
  have hraised := (hl.peers l).raised hlead p hc
  have := (List.getElem?_eq_some_iff.mp hpi).1
  omega

/-- **The quorum behind a commit.**  In a careful run, a leader that raises its
`commitIndex` to `i` has counted itself and the servers whose `matchIndex` has
reached `i`; they are a majority, and each of them has had the leader's entry at
index `i` while it was in the leader's term. -/
theorem commit_quorum [Inhabited C] (w w' : World n C D) (past : List (World n C D))
    (htr : Run Careful (w' :: w :: past)) (l : Fin n) (hl : (w'.rafts l).status = .leader)
    (hlt : (w.rafts l).commitIndex < (w'.rafts l).commitIndex) :
    ∃ (q : Finset (Fin n)) (e : LogEntity C), n / 2 < q.card ∧
      (∀ u, u ∈ q ↔ u = l ∨ (w'.rafts l).counts (w'.rafts l).commitIndex u = true) ∧
      (w'.rafts l).getLogEntryAtIndex (w'.rafts l).commitIndex = some e ∧
      ∀ u ∈ q, ∃ v ∈ w' :: w :: past, (v.rafts u).currentTerm = (w'.rafts l).currentTerm ∧
        (v.rafts u).getLogEntryAtIndex (w'.rafts l).commitIndex = some e := by
  cases htr with
  | @step _ _ ev _ ht hok hs =>
    obtain ⟨b, h, F, hel, hlog, hseen⟩ := logs_run _ ht w past rfl
    have hme := (healthy_run _ ht w (List.mem_cons_self ..) l).me
    obtain ⟨hlead, k, dst, args, reply, rfl, htk, hrep, hcm, heq⟩ :=
      raise_of_move (move_of_step hs) hl hlt
    have hcur := hok.2.2 (l, args.term) (by simp [picked, htk, replying, hrep]) hlead
    generalize (w'.rafts l).commitIndex = i at hlt hcm heq ⊢
    rw [heq]
    have hp : PeerOk h l (F l) ((w.rafts l).setMatch dst
        (args.prevLogIndex + args.entries.length)) :=
      (hlog.peers l).setMatch (.inr (hcur ▸ hlog.taskLog htk hrep))
    have hleads : h.leads (w.rafts l).currentTerm :=
      (hlog.leads _).mpr ⟨l, (hel.leader l hlead).2⟩
    obtain ⟨-, -, hacks⟩ := hp.commit hlog.sound hlog.clean hme hlead hleads
      (leader_voted hlog hel hlead) hlt hcm
    obtain ⟨hlo, ⟨e, he, heT⟩, count, hcount, hq⟩ := hcm
    have hFe : (F l)[i.toNat]? = some e := by
      rw [← hp.entryAt hlo, Peer.getLogEntryAtIndex_eq, if_pos hlo]
      exact he
    have hLe : (h.llog (w.rafts l).currentTerm)[i.toNat]? = some e := by
      rw [← (hlog.peers l).lead hlead]
      exact hFe
    have hlower := (hlog.peers l).lower
    refine ⟨PeerOk.counters _ i, e, PeerOk.quorum_counters hcount hq, ?_, ?_, ?_⟩
    · intro u
      rw [PeerOk.mem_counters, Peer.setMatch_me, hme]
      rfl
    · rw [Peer.getLogEntryAtIndex_eq]
      exact (if_pos hlo).trans he
    · intro u hu
      obtain ⟨m, hm, him⟩ := hacks u hu
      rcases hm with hm | ⟨rfl, -, -⟩
      · obtain ⟨v, hv, hterm, -, hcom, hget⟩ := hseen u (w.rafts l).currentTerm m hm
        have hvi := above_boundary hlog hlead hLe heT (by omega) hcom
        refine ⟨v, List.mem_cons_of_mem _ hv, hterm, ?_⟩
        rw [← hLe, ← hget i.toNat hvi (by omega), Int.toNat_of_nonneg (by omega)]
      · refine ⟨w, List.mem_cons_of_mem _ (List.mem_cons_self ..), rfl, ?_⟩
        rw [(hlog.peers u).entryAt hlo]
        exact hFe

/-- Server `1` acknowledges command `7` of server `0`. -/
def sampleCommit : List (Event Nat Unit 3) := sampleApply.take 10

theorem commit_quorum_sampleCommit :
    ∃ w w' past, run step Careful (init : World 3 Nat Unit) sampleCommit []
        = some (w' :: w :: past) ∧ (w'.rafts 0).commitIndex = 1 ∧
      ∃ (q : Finset (Fin 3)) (e : LogEntity Nat), 3 / 2 < q.card ∧
        (∀ u, u ∈ q ↔ u = 0 ∨ (w'.rafts 0).counts (w'.rafts 0).commitIndex u = true) ∧
        (w'.rafts 0).getLogEntryAtIndex (w'.rafts 0).commitIndex = some e ∧
        ∀ u ∈ q, ∃ v ∈ w' :: w :: past, (v.rafts u).currentTerm = (w'.rafts 0).currentTerm ∧
          (v.rafts u).getLogEntryAtIndex (w'.rafts 0).commitIndex = some e := by
  have hs : runEnds step Careful (init : World 3 Nat Unit) sampleCommit (fun w' past =>
      past.head?.any fun w => decide ((w'.rafts 0).commitIndex = 1 ∧
        (w'.rafts 0).status = .leader ∧
        (w.rafts 0).commitIndex < (w'.rafts 0).commitIndex)) = true := by
    decide +kernel
  obtain ⟨w', past, h, ht, hl⟩ := exists_of_runEnds hs
  obtain ⟨w, hw, hl⟩ := (Option.any_eq_true ..).mp hl
  obtain ⟨past, rfl⟩ := List.head?_eq_some_iff.mp hw
  obtain ⟨hci, hlead, hlt⟩ := of_decide_eq_true hl
  exact ⟨w, w', past, h, hci, commit_quorum w w' past ht 0 hlead hlt⟩

/-- Server `1` acknowledges command `7` of server `0` and loses it to a late
request; server `2` is elected and makes server `0` drop it too.  Elected again,
server `0` appends `8` at the same index, and only now hears that server `1` has
stored what it sent. -/
def lateReply : List (Event Nat Unit 3) :=
  [.ticker 0 true, .task 0, .task 1, .task 1, .task 1, .start 0 7, .ticker 0 false, .task 3,
    .task 4, .task 4, .applyNext 1, .task 2, .ticker 2 true, .ticker 2 true, .task 8, .task 8,
    .task 8, .task 8, .task 9, .ticker 0 true, .task 11, .task 11, .task 11, .start 0 8, .task 3]

/-- **A commit that only the leader has stored**, when nothing is asked of the run. -/
theorem commit_alone :
    ¬ ∀ (w w' : World 3 Nat Unit) (past : List (World 3 Nat Unit)),
      Run (fun _ _ => True) (w' :: w :: past) → ∀ l, (w'.rafts l).status = .leader →
      (w.rafts l).commitIndex < (w'.rafts l).commitIndex →
      ∃ q : Finset (Fin 3), 3 / 2 < q.card ∧ l ∈ q ∧
        ∀ u ∈ q, ∃ v ∈ w' :: w :: past, (v.rafts u).currentTerm = (w'.rafts l).currentTerm ∧
          ((w'.rafts l).commitIndex < (v.rafts u).snapshotEntriesAmount ∨
            (v.rafts u).getLogEntryAtIndex (w'.rafts l).commitIndex
              = (w'.rafts l).getLogEntryAtIndex (w'.rafts l).commitIndex) := by
  intro hall
  have hs : runEnds step (fun _ _ => True) (init : World 3 Nat Unit) lateReply (fun w' past =>
      past.head?.any fun w => decide ((w'.rafts 0).status = .leader ∧
        (w.rafts 0).commitIndex < (w'.rafts 0).commitIndex ∧
        ∀ u : Fin 3, u ≠ 0 → ∀ v ∈ w' :: past,
          (v.rafts u).currentTerm ≠ (w'.rafts 0).currentTerm)) = true := by
    decide +kernel
  obtain ⟨w', past, -, ht, hl⟩ := exists_of_runEnds hs
  obtain ⟨w, hw, hl⟩ := (Option.any_eq_true ..).mp hl
  obtain ⟨past, rfl⟩ := List.head?_eq_some_iff.mp hw
  obtain ⟨hlead, hlt, hnone⟩ := of_decide_eq_true hl
  obtain ⟨q, hq, -, hstored⟩ := hall w w' past ht 0 hlead hlt
  -- no other server has even reached the leader's term
  have hsub : q ⊆ {0} := by
    intro u hu
    rw [Finset.mem_singleton]
    by_contra hne
    obtain ⟨v, hv, hterm, -⟩ := hstored u hu
    exact hnone u hne v hv hterm
  have := Finset.card_le_card hsub
  rw [Finset.card_singleton] at this
  omega

end World

end ShardRaft.Raft
