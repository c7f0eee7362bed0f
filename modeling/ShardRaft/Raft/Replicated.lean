import ShardRaft.Raft.System

/-!
# Replicated services

The invariant of `System`, for a lawful state machine.  `log` is the sequence of commands
that some service has been given.

* `agreed`: it was committed, so no two services disagree about it.
* `sourced`: every snapshot there is, wherever it is, decodes to the outcome of the
  commands up to its index.
* `stands`: a service holds the outcome of the commands up to the position of its apply
  stream; or it has received nothing since it was started, and then it is as good as new or
  the next message is a snapshot.

The services call `rf.Snapshot` with the index they have just received (`owed`), which is
what the apply stream relies on; so a system needs no assumption about that.
-/

namespace ShardRaft.Raft

open ShardRaft.Lib

variable {n : Nat} {ι C D σ : Type}

/-- The commands that are known once this message has been taken. -/
def learn (log : List C) (msg : ApplyMsg C D) : List C :=
  if msg.commandValid = true ∧ msg.commandIndex = log.length + 1 then log ++ msg.command.toList
  else log

theorem prefix_learn (log : List C) (msg : ApplyMsg C D) : ∃ l, learn log msg = log ++ l := by
  unfold learn
  split
  · exact ⟨_, rfl⟩
  · exact ⟨[], (List.append_nil _).symm⟩

namespace System

/-- The commands that are known after a step: the apply loop that gets ahead of all others
learns the next one. -/
def known (m : System n C D σ) (log : List C) : System.Event ι C D n → List C
  | .receive i _ => ((m.raft.pending i).head?.map (learn log)).getD log
  | _ => log

theorem prefix_known (m : System n C D σ) (log : List C) (e : System.Event ι C D n) :
    ∃ l, m.known log e = log ++ l := by
  cases e with
  | receive i answer =>
    simp only [known]
    cases (m.raft.pending i).head? with
    | none => exact ⟨[], (List.append_nil _).symm⟩
    | some msg => exact prefix_learn log msg
  | _ => exact ⟨[], (List.append_nil _).symm⟩

section inv

variable (sm : StateMachine ι C D σ) (decode : D → Option σ) (apply : σ → C → Option σ)

/-- The bytes are a snapshot of the outcome of the first `i` commands. -/
def SnapshotOf (log : List C) (i : Int) (d : D) : Prop :=
  0 < i ∧ Decodes decode apply (sm.start none) log (i.toNat, d)

/-- A service in state `st`, of a peer with this boundary, that has received `ch` and will
be sent `next`. -/
def Stands (log : List C) (st : σ) (amount : Nat) (ch next : List (ApplyMsg C D)) : Prop :=
  ∃ p, position ch = some p ∧
    ((p = -1 ∧ (st = sm.start none ∨ (0 < amount ∧
        (∀ msg ∈ next.head?, msg.snapshotValid = true) ∧
        ∃ k, Reached apply (sm.start none) log k st))) ∨
      (0 ≤ p ∧ Reached apply (sm.start none) log p.toNat st))

/-- **The invariant.** -/
structure Inv (h : Hist n C) (log : List C) (m : System n C D σ) : Prop where
  agreed : Agreed h log
  sourced : m.raft.Sourced (fun _ => True) (SnapshotOf sm decode apply log)
  inStep : m.raft.InStep
  owed : ∀ i x, m.owed i = some x → position (m.raft.applyCh i) = some x.1 ∧
    SnapshotOf sm decode apply log x.1 x.2
  stands : ∀ i, Stands sm apply log (m.state i) (m.raft.rafts i).snapshotEntriesAmount
    (m.raft.applyCh i) (m.raft.pending i)

end inv

variable {sm : StateMachine ι C D σ} {decode : D → Option σ} {apply : σ → C → Option σ}
  {h h' : Hist n C} {log : List C} {m m' : System n C D σ}

theorem SnapshotOf.append {i : Int} {d : D} (hd : SnapshotOf sm decode apply log i d)
    (l : List C) : SnapshotOf sm decode apply (log ++ l) i d := by
  obtain ⟨hi, st, hst, hr⟩ := hd
  exact ⟨hi, st, hst, hr.append l⟩

theorem Stands.append {st : σ} {amount : Nat} {ch next : List (ApplyMsg C D)}
    (hst : Stands sm apply log st amount ch next) (l : List C) :
    Stands sm apply (log ++ l) st amount ch next := by
  obtain ⟨p, hp, ⟨h1, h2 | ⟨h2, h3, k, hr⟩⟩ | ⟨h1, hr⟩⟩ := hst
  · exact ⟨p, hp, .inl ⟨h1, .inl h2⟩⟩
  · exact ⟨p, hp, .inl ⟨h1, .inr ⟨h2, h3, k, hr.append l⟩⟩⟩
  · exact ⟨p, hp, .inr ⟨h1, hr.append l⟩⟩

/-- Whatever the position, the state is the outcome of some prefix. -/
theorem Stands.reached {st : σ} {amount : Nat} {ch next : List (ApplyMsg C D)}
    (hst : Stands sm apply log st amount ch next) :
    ∃ k, Reached apply (sm.start none) log k st := by
  obtain ⟨p, -, ⟨-, rfl | ⟨-, -, k, hr⟩⟩ | ⟨-, hr⟩⟩ := hst
  · exact ⟨0, reached_zero⟩
  · exact ⟨k, hr⟩
  · exact ⟨_, hr⟩

theorem Inv.mono (hi : Inv sm decode apply h log m) (he : h.Extends h' baseTerm) :
    Inv sm decode apply h' log m :=
  ⟨hi.agreed.mono he, hi.sourced, hi.inStep, hi.owed, hi.stands⟩

theorem inv_init [Inhabited C] (h : Hist n C) :
    Inv sm decode apply h [] (init sm : System n C D σ) where
  agreed := agreed_nil
  sourced := World.sourced_init
  inStep := World.inStep_init
  owed i x hx := absurd hx (by simp [init])
  stands i := ⟨-1, rfl, .inl ⟨rfl, .inl rfl⟩⟩

/-! ### The apply loop -/

theorem Inv.advance_next (hi : Inv sm decode apply h log m) {i : Fin n} {msg : ApplyMsg C D}
    {msgs : List (ApplyMsg C D)} (hp : m.raft.pending i = msg :: msgs) {p : Int}
    (hpos : position (m.raft.applyCh i) = some p) :
    advance p msg = some msg.index ∧ position (m.raft.applyCh i ++ [msg]) = some msg.index := by
  have hin := hi.inStep i
  rw [hp] at hin
  obtain ⟨q, hq, hfold⟩ := position_append hin
  obtain rfl : q = p := Option.some.inj (hq.symm.trans hpos)
  rw [List.foldlM_cons] at hfold
  obtain ⟨q', hadv, -⟩ := Option.bind_eq_some_iff.mp hfold
  obtain ⟨rfl, -⟩ := advance_eq_some hadv
  refine ⟨hadv, ?_⟩
  unfold position at hpos ⊢
  rw [List.foldlM_append, hpos]
  simp [hadv]

/-- The command that comes next is the next one of the agreed sequence, which it continues
if no service has been given it before. -/
theorem agreed_learn {b : World.Ballots n} {F : Fin n → List (LogEntity C)}
    (hl : World.Logs b h F m.raft) (ha : Agreed h log) {msg : ApplyMsg C D}
    (hok : World.MsgOk h msg) {c : C} {k : Nat}
    (hmsg : msg.commandValid = true) (hc : msg.command = some c)
    (hidx : msg.commandIndex = k + 1) (hk : k ≤ log.length) :
    Agreed h (learn log msg) ∧ (learn log msg)[k]? = some c := by
  obtain ⟨T, p, e, hcom, -, he, hce⟩ := hok hmsg
  rw [hidx] at he
  obtain rfl : c = e.action := Option.some.inj (hc.symm.trans hce)
  unfold learn
  rcases Nat.eq_or_lt_of_le hk with rfl | hlt
  · rw [if_pos ⟨hmsg, hidx⟩, hc]
    exact ⟨ha.grow hl.sound hcom he, getElem?_concat.mpr (.inr ⟨rfl, rfl⟩)⟩
  · rw [if_neg (by omega)]
    exact ⟨ha, ha.get hl.sound hcom he hlt⟩

theorem Inv.next_command {b : World.Ballots n} {F : Fin n → List (LogEntity C)}
    (hl : World.Logs b h F m.raft) (hi : Inv sm decode apply h log m) {i : Fin n} {idx : Int}
    {c : C} {msgs : List (ApplyMsg C D)} (hidx : 0 < idx)
    (hp : m.raft.pending i =
      { commandValid := true, command := some c, commandIndex := idx } :: msgs) :
    ∃ k : Nat, idx = k + 1 ∧ position (m.raft.applyCh i) = some (k : Int) ∧
      Reached apply (sm.start none) log k (m.state i) ∧
      Agreed h (learn log
        ({ commandValid := true, command := some c, commandIndex := idx } : ApplyMsg C D)) ∧
      (learn log ({ commandValid := true, command := some c, commandIndex := idx } :
        ApplyMsg C D))[k]? = some c := by
  obtain ⟨p, hpos, hst⟩ := hi.stands i
  obtain ⟨hadv, -⟩ := hi.advance_next hp hpos
  have hpidx : idx = p + 1 := by
    by_contra hne
    simp [advance, hne] at hadv
  obtain ⟨hp0, hr⟩ : 0 ≤ p ∧ Reached apply (sm.start none) log p.toNat (m.state i) := by
    rcases hst with ⟨rfl, -⟩ | hst
    · omega
    · exact hst
  have hok : World.MsgOk h
      ({ commandValid := true, command := some c, commandIndex := idx } : ApplyMsg C D) := by
    cases ha : m.raft.applying i with
    | none => simp [World.pending, ha] at hp
    | some x =>
      obtain ⟨l, next⟩ := x
      obtain rfl := by simpa [World.pending, ha] using hp
      exact (hl.applying i _ next ha).2 _ (List.mem_cons_self ..)
  obtain ⟨hagr, hget⟩ := agreed_learn hl hi.agreed hok (k := p.toNat) rfl rfl
    (show idx = _ by omega) hr.1
  have hp' : ((p.toNat : Nat) : Int) = p := Int.toNat_of_nonneg hp0
  exact ⟨p.toNat, by omega, by rw [hp']; exact hpos, hr, hagr, hget⟩

theorem inv_received (hi : Inv sm decode apply h log m) {i : Fin n} {msg : ApplyMsg C D}
    {msgs : List (ApplyMsg C D)} {raft' : World n C D} {st : σ} {snap : Option (Int × D)}
    (hp : m.raft.pending i = msg :: msgs) (hs : m.raft.applyNext i = some raft') [Inhabited C]
    (hh : ∀ j, World.Healthy j (m.raft.rafts j)) {log' : List C} (hlog : ∃ l, log' = log ++ l)
    (ha : Agreed h log')
    (hst : Stands sm apply log' st (m.raft.rafts i).snapshotEntriesAmount
      (m.raft.applyCh i ++ [msg]) msgs)
    (hsnap : ∀ x ∈ snap, position (m.raft.applyCh i ++ [msg]) = some x.1 ∧
      SnapshotOf sm decode apply log' x.1 x.2) :
    Inv sm decode apply h log' {
      raft := raft'
      state := Function.update m.state i st
      owed := Function.update m.owed i snap } := by
  obtain ⟨l, rfl⟩ := hlog
  obtain ⟨hr, hch, hpend⟩ := World.step_applyNext hp hs
  have hstep : m.raft.step (.applyNext i) = some raft' := hs
  constructor
  · exact ha
  · exact (World.sourced_step hi.sourced hh (by simp) (by simp) hstep).mono (fun _ hc => hc)
      fun _ _ hd => hd.append l
  · have hok : m.raft.SnapshotReceived (.applyNext i) := trivial
    exact (World.inStep_step hi.inStep hok hstep).1
  · intro j x hx
    dsimp only at hx ⊢
    rw [hch]
    by_cases hj : j = i
    · rw [hj, Function.update_self] at hx ⊢
      exact hsnap x hx
    · rw [Function.update_of_ne hj] at hx ⊢
      obtain ⟨h1, h2⟩ := hi.owed j x hx
      exact ⟨h1, h2.append l⟩
  · intro j
    dsimp only
    rw [hr, hch, hpend]
    by_cases hj : j = i
    · rw [hj, Function.update_self, Function.update_self, Function.update_self]
      exact hst
    · rw [Function.update_of_ne hj, Function.update_of_ne hj, Function.update_of_ne hj]
      exact (hi.stands j).append l

/-- **The apply loop keeps the invariant**, one case for each kind of message. -/
theorem inv_receive [Inhabited C] (hsm : sm.Lawful decode apply) {b : World.Ballots n}
    {F : Fin n → List (LogEntity C)} (hl : World.Logs b h F m.raft)
    (hi : Inv sm decode apply h log m) (hh : ∀ j, World.Healthy j (m.raft.rafts j)) {i : Fin n}
    {answer : ι} (hs : m.receive sm i answer = some m') :
    ∃ msg ∈ (m.raft.pending i).head?, m.raft.step (.applyNext i) = some m'.raft ∧
      Inv sm decode apply h (learn log msg) m' := by
  unfold receive at hs
  split at hs
  · exact absurd hs (by simp)
  split at hs
  · exact absurd hs (by simp)
  rename_i msg msgs hp
  obtain ⟨raft', hraft, hs⟩ := Option.bind_eq_some_iff.mp hs
  obtain ⟨⟨st, snap⟩, hhandle, hs⟩ := Option.bind_eq_some_iff.mp hs
  rw [← Option.some.inj hs]
  refine ⟨msg, by rw [hp]; rfl, hraft, ?_⟩
  have hfrom := hi.sourced.pending i msg (by rw [hp]; exact List.mem_cons_self ..)
  obtain ⟨p, hpos, hst⟩ := hi.stands i
  obtain ⟨hadv, hpos'⟩ := hi.advance_next hp hpos
  cases hfrom with
  | @command idx c hidx _ =>
    obtain ⟨k, hk, -, hr, hagr, hget⟩ := hi.next_command hl hidx hp
    obtain ⟨hap, hsn⟩ := hsm.command _ _ _ _ _ _ hhandle
    obtain ⟨l, hlog⟩ := prefix_learn log
      ({ commandValid := true, command := some c, commandIndex := idx } : ApplyMsg C D)
    have hr' : Reached apply (sm.start none) (learn log
        ({ commandValid := true, command := some c, commandIndex := idx } : ApplyMsg C D))
        idx.toNat st := by
      rw [show idx.toNat = k + 1 by omega]
      refine Reached.succ ?_ hget hap
      rw [hlog]
      exact hr.append l
    refine inv_received hi hp hraft hh ⟨l, hlog⟩ hagr ⟨idx, hpos', .inr ⟨by omega, hr'⟩⟩ ?_
    intro x hx
    obtain ⟨hx1, hdec⟩ := hsn x hx
    rw [hx1]
    exact ⟨hpos', hidx, st, hdec, hr'⟩
  | @filler c =>
    obtain ⟨rfl, rfl⟩ := hsm.filler _ _ _ _ _ hhandle
    have hpm : p = -1 := by
      by_contra hne
      have : ¬ (0 : Int) = p + 1 := by omega
      simp [advance, this] at hadv
    have hinit : m.state i = sm.start none := by
      rcases hst with ⟨-, hst | ⟨-, hhead, -⟩⟩ | ⟨hge, -⟩
      · exact hst
      · have := hhead _ (by rw [hp]; rfl)
        simp at this
      · omega
    refine inv_received hi hp hraft hh ⟨[], (List.append_nil _).symm⟩ hi.agreed
      ⟨0, hpos', .inr ⟨le_rfl, ?_⟩⟩ (by simp)
    rw [hinit]
    exact reached_zero
  | @snapshot idx t d hidx hd =>
    obtain ⟨hdec, rfl⟩ := hsm.snapshot _ _ _ _ _ _ _ hhandle
    obtain ⟨-, st₀, hdec₀, hr⟩ := hd
    obtain rfl : st₀ = st := Option.some.inj (hdec₀.symm.trans hdec)
    exact inv_received hi hp hraft hh ⟨[], (List.append_nil _).symm⟩ hi.agreed
      ⟨idx, hpos', .inr ⟨hidx, hr⟩⟩ (by simp)

/-! ### The other steps -/

/-- A step in which the service does not take part: its peer may compact, and the next
batch may be collected. -/
theorem Stands.quiet {st : σ} {amount amount' : Nat} {ch next next' : List (ApplyMsg C D)}
    (hst : Stands sm apply log st amount ch next) (ha : amount ≤ amount')
    (hnext : next' = next ∨ (position ch = some (-1) → 0 < amount →
      ∀ msg ∈ next'.head?, msg.snapshotValid = true)) :
    Stands sm apply log st amount' ch next' := by
  obtain ⟨p, hp, ⟨rfl, h2 | ⟨h2, h3, k, hr⟩⟩ | ⟨h1, hr⟩⟩ := hst
  · exact ⟨_, hp, .inl ⟨rfl, .inl h2⟩⟩
  · refine ⟨_, hp, .inl ⟨rfl, .inr ⟨h2.trans_le ha, ?_, k, hr⟩⟩⟩
    rcases hnext with rfl | hnext
    · exact h3
    · exact hnext hp h2
  · exact ⟨p, hp, .inr ⟨h1, hr⟩⟩

/-- A peer that has sent nothing and has a snapshot sends that first. -/
theorem head_of_collected {rf rf' : Peer n C D} {msgs : List (ApplyMsg C D)}
    (ho : Peer.ApplyOutcome rf rf' msgs) (hla : rf.lastApplied = -1)
    (ha : 0 < rf.snapshotEntriesAmount) : ∀ msg ∈ msgs.head?, msg.snapshotValid = true := by
  intro msg hmsg
  cases ho with
  | jump _ => rw [← Option.some.inj hmsg]
  | nothing => exact absurd hmsg (by simp)
  | batch hle _ _ => omega

/-- **A step of Raft that goes past the services.** -/
theorem inv_quiet [Inhabited C] (hi : Inv sm decode apply h log m)
    (hh : ∀ j, World.Healthy j (m.raft.rafts j)) {e : Raft.Event C D n} {raft' : World n C D}
    (hsnap : ∀ i index d, e = .snapshot i index d → m.owed i = some (index, d))
    (hr : ∀ i, e ≠ .restart i) (hsend : ∀ i, e = .applyNext i → m.raft.pending i = [])
    (hs : m.raft.step e = some raft') : Inv sm decode apply h log { m with raft := raft' } := by
  obtain ⟨hch, hpend⟩ := World.quiet_of_move (World.move_of_step hs) hr hsend
  have hgrow := (World.effect_of_step hs).healthy hh
  have hreceived : m.raft.SnapshotReceived e := by
    cases e with
    | snapshot i index d =>
      obtain ⟨hpos, -⟩ := hi.owed i _ (hsnap i index d rfl)
      exact ⟨index, hpos, le_rfl⟩
    | _ => trivial
  constructor
  · exact hi.agreed
  · refine World.sourced_step hi.sourced hh (fun _ _ _ _ => trivial) ?_ hs
    intro i index d he _
    exact (hi.owed i _ (hsnap i index d he)).2
  · exact (World.inStep_step hi.inStep hreceived hs).1
  · intro i x hx
    dsimp only
    rw [hch]
    exact hi.owed i x hx
  · intro i
    dsimp only
    rw [hch]
    refine (hi.stands i).quiet (hgrow i).2.2 ?_
    rcases hpend i with heq | ⟨hnil, rf', ho⟩
    · exact .inl heq
    · right
      intro hpos ha
      -- nothing is under way, so `lastApplied` is where the stream is
      have hla := hi.inStep i
      rw [hnil, List.append_nil, hpos] at hla
      exact head_of_collected ho (Option.some.inj hla).symm ha

/-- The apply loop has made the call it owed. -/
theorem Inv.paid (hi : Inv sm decode apply h log m) (i : Fin n) :
    Inv sm decode apply h log { m with owed := Function.update m.owed i none } where
  agreed := hi.agreed
  sourced := hi.sourced
  inStep := hi.inStep
  owed j x hx := by
    by_cases hj : j = i
    · simp [hj] at hx
    · simp only [Function.update_of_ne hj] at hx
      exact hi.owed j x hx
  stands := hi.stands

/-- **A service that is started again** is as good as new, or in the state of the snapshot
that its peer has kept. -/
theorem inv_restart [Inhabited C] (hsm : sm.Lawful decode apply)
    (hi : Inv sm decode apply h log m) (hh : ∀ j, World.Healthy j (m.raft.rafts j)) (i : Fin n) :
    Inv sm decode apply h log {
      raft := m.raft.restart i
      state := Function.update m.state i (sm.start (m.raft.rafts i).persister.snapshot)
      owed := Function.update m.owed i none } := by
  have hstep : m.raft.step (.restart i) = some (m.raft.restart i) := rfl
  have hreceived : m.raft.SnapshotReceived (.restart i) := trivial
  have hin := (World.inStep_step hi.inStep hreceived hstep).1
  have hch : (m.raft.restart i).applyCh = Function.update m.raft.applyCh i [] := rfl
  have hgrow := (World.effect_of_step hstep).healthy hh
  constructor
  · exact hi.agreed
  · exact World.sourced_step hi.sourced hh (by simp) (by simp) hstep
  · exact hin
  · intro j x hx
    dsimp only at hx ⊢
    rw [hch]
    by_cases hj : j = i
    · simp [hj] at hx
    · rw [Function.update_of_ne hj] at hx ⊢
      exact hi.owed j x hx
  · intro j
    dsimp only
    rw [hch]
    by_cases hj : j = i
    · subst hj
      rw [Function.update_self, Function.update_self]
      have hnil : (m.raft.restart j).pending j = [] := by simp [World.pending, World.restart]
      have hamount : (m.raft.restart j).rafts j = Peer.make j (m.raft.rafts j).persister :=
        Function.update_self ..
      have hkept := congrArg PersistData.snapshotEntriesAmount (World.make_getPersistData (hh j))
      refine ⟨-1, rfl, .inl ⟨rfl, ?_⟩⟩
      rw [hnil, hamount]
      rcases Nat.eq_zero_or_pos (m.raft.rafts j).snapshotEntriesAmount with h0 | hpos
      · rw [hi.sourced.bare j h0]
        exact .inl rfl
      · obtain ⟨d, hd, -, st, hdec, hr⟩ := hi.sourced.kept j hpos
        rw [hd]
        rcases hsm.start d st hdec with heq | heq
        · rw [heq]
          exact .inr ⟨hpos.trans_eq hkept.symm, by simp, _, hr⟩
        · exact .inl heq
    · rw [Function.update_of_ne hj, Function.update_of_ne hj]
      refine (hi.stands j).quiet (hgrow j).2.2 (.inl ?_)
      simp only [World.pending, World.restart, Function.update_of_ne hj, Option.map_map]
      rfl

/-! ### Along a run -/

/-- The invariant, with those of the cluster below it. -/
def Holds [Inhabited C] (sm : StateMachine ι C D σ) (decode : D → Option σ)
    (apply : σ → C → Option σ) (log : List C) (m : System n C D σ) : Prop :=
  (∀ i, World.Healthy i (m.raft.rafts i)) ∧ ∃ b h F, World.Elect b m.raft ∧
    World.Logs b h F m.raft ∧ Inv sm decode apply h log m

theorem holds_init [Inhabited C] : Holds sm decode apply [] (init sm : System n C D σ) :=
  ⟨World.healthy_init, _, _, _, World.elect_init, World.logs_init, inv_init _⟩

/-- The cluster below takes a careful step, and the services keep up. -/
theorem holds_of_inv [Inhabited C] {b : World.Ballots n} {F : Fin n → List (LogEntity C)}
    (hh : ∀ j, World.Healthy j (m.raft.rafts j)) (hel : World.Elect b m.raft)
    (hl : World.Logs b h F m.raft) {e : Raft.Event C D n} (hc : m.raft.Careful e)
    (hs : m.raft.step e = some m'.raft) (hi : Inv sm decode apply h log m') :
    Holds sm decode apply log m' := by
  obtain ⟨b', h', F', hel', hl', he, -⟩ := World.logs_step hl hel hh hc hs
  exact ⟨World.healthy_step hh hs, b', h', F', hel', hl', hi.mono he⟩

/-- **A careful step keeps the invariant.** -/
theorem holds_step [Inhabited C] (hsm : sm.Lawful decode apply) {e : System.Event ι C D n}
    (hm : Holds sm decode apply log m) (hc : m.Careful e) (hs : m.step sm e = some m') :
    Holds sm decode apply (m.known log e) m' := by
  obtain ⟨hh, b, h, F, hel, hl, hi⟩ := hm
  cases e with
  | raft e =>
    simp only [step] at hs
    split at hs
    · rename_i hint
      obtain ⟨raft', hraft, hs⟩ := Option.bind_eq_some_iff.mp hs
      rw [← Option.some.inj hs]
      refine holds_of_inv hh hel hl hc hraft (inv_quiet hi hh ?_ ?_ ?_ hraft)
      · rintro i index d rfl
        exact absurd hint (by simp [World.Internal])
      · rintro i rfl
        exact absurd hint (by simp [World.Internal])
      · rintro i rfl
        exact List.isEmpty_iff.mp hint
    · exact absurd hs (by simp)
  | receive i answer =>
    obtain ⟨msg, hmsg, hraft, hi'⟩ := inv_receive hsm hl hi hh hs
    rw [known, Option.mem_def.mp hmsg]
    exact holds_of_inv hh hel hl (World.careful_of_picked rfl) hraft hi'
  | snapshot i =>
    simp only [step] at hs
    split at hs
    · exact absurd hs (by simp)
    · rename_i index data ho
      obtain ⟨raft', hraft, hs⟩ := Option.bind_eq_some_iff.mp hs
      rw [← Option.some.inj hs]
      have hi' := inv_quiet hi hh (by rintro j _ _ ⟨⟩; exact ho) (by simp) (by simp) hraft
      exact holds_of_inv hh hel hl (World.careful_of_picked rfl) hraft (hi'.paid i)
  | restart i =>
    rw [← Option.some.inj hs]
    exact holds_of_inv hh hel hl (World.careful_of_picked rfl)
      (e := .restart i) rfl (inv_restart hsm hi hh i)

theorem Holds.advance_next [Inhabited C] (hm : Holds sm decode apply log m) {i : Fin n}
    {msg : ApplyMsg C D} {msgs : List (ApplyMsg C D)} (hp : m.raft.pending i = msg :: msgs) :
    position (m.raft.applyCh i ++ [msg]) = some msg.index := by
  obtain ⟨-, b, h, F, -, -, hi⟩ := hm
  obtain ⟨p, hpos, -⟩ := hi.stands i
  exact (hi.advance_next hp hpos).2

theorem Holds.next_command [Inhabited C] (hm : Holds sm decode apply log m) {i : Fin n}
    {idx : Int} {c : C} {msgs : List (ApplyMsg C D)} (hidx : 0 < idx)
    (hp : m.raft.pending i =
      { commandValid := true, command := some c, commandIndex := idx } :: msgs) :
    ∃ k : Nat, idx = k + 1 ∧ position (m.raft.applyCh i) = some (k : Int) ∧
      (learn log ({ commandValid := true, command := some c, commandIndex := idx } :
        ApplyMsg C D))[k]? = some c := by
  obtain ⟨-, b, h, F, -, hl, hi⟩ := hm
  obtain ⟨k, hk, hpos, -, -, hget⟩ := hi.next_command hl hidx hp
  exact ⟨k, hk, hpos, hget⟩

/-- What is to be seen of the services of `m` when `cmds` has been agreed on. -/
structure Consistent (sm : StateMachine ι C D σ) (apply : σ → C → Option σ) (cmds : List C)
    (m : System n C D σ) : Prop where
  stream : ∀ i, GapFree (m.raft.applyCh i)
  state : ∀ i, ∃ k, Reached apply (sm.start none) cmds k (m.state i)
  position : ∀ i p, Raft.position (m.raft.applyCh i) = some p → 0 ≤ p →
    Reached apply (sm.start none) cmds p.toNat (m.state i)

theorem Consistent.append {cmds : List C} (hm : Consistent sm apply cmds m) (l : List C) :
    Consistent sm apply (cmds ++ l) m where
  stream := hm.stream
  state i := (hm.state i).imp fun _ hr => hr.append l
  position i p hp h0 := (hm.position i p hp h0).append l

theorem Holds.consistent [Inhabited C] (hm : Holds sm decode apply log m) :
    Consistent sm apply log m := by
  obtain ⟨-, b, h, F, -, -, hi⟩ := hm
  refine ⟨?_, ?_, ?_⟩
  · exact fun i => gapFree_of_position (hi.inStep i)
  · exact fun i => (hi.stands i).reached
  · intro i p hp h0
    obtain ⟨q, hq, ⟨rfl, -⟩ | ⟨-, hr⟩⟩ := hi.stands i
    · have := hq.symm.trans hp
      simp at this
      omega
    · obtain rfl : q = p := Option.some.inj (hq.symm.trans hp)
      exact hr

/-- **A replicated service.**  In every careful run of a lawful state machine on top of Raft,
whatever the network and the crashes do, there is one sequence of commands such that the
state of every service, in every world of the run, is the outcome of the commands up to the
position of its apply stream, restarts and snapshots included. -/
theorem replicated [Inhabited C] (sm : StateMachine ι C D σ) (decode : D → Option σ)
    (apply : σ → C → Option σ) (hsm : sm.Lawful decode apply) (tr : List (System n C D σ))
    (h : Trace (step sm) Careful (init sm) tr) :
    ∃ cmds, ∀ m ∈ tr, Consistent sm apply cmds m := by
  suffices hrun : ∃ cmds, (∀ m ∈ tr, Consistent sm apply cmds m) ∧
      ∀ m ∈ tr.head?, Holds sm decode apply cmds m by
    obtain ⟨cmds, hall, -⟩ := hrun
    exact ⟨cmds, hall⟩
  refine Trace.induction (P := fun tr => ∃ cmds, (∀ m ∈ tr, Consistent sm apply cmds m) ∧
      ∀ m ∈ tr.head?, Holds sm decode apply cmds m) ?_ ?_ tr h
  · refine ⟨[], ?_, ?_⟩
    · intro m hm
      rw [List.mem_singleton.mp hm]
      have hinit : Holds sm decode apply [] (init sm : System n C D σ) := holds_init
      exact hinit.consistent
    · intro m hm
      rw [← Option.some.inj hm]
      exact holds_init
  · rintro m m' e past - ⟨cmds, hall, hhead⟩ hc hs
    have hm' := holds_step hsm (hhead m rfl) hc hs
    obtain ⟨l, hl⟩ := m.prefix_known cmds e
    rw [hl] at hm'
    refine ⟨cmds ++ l, ?_, ?_⟩
    · intro x hx
      rcases List.mem_cons.mp hx with rfl | hx
      · exact hm'.consistent
      · exact (hall x hx).append l
    · intro x hx
      rw [← Option.some.inj hx]
      exact hm'

/-- A service that lists the commands, and snapshots when it is told to. -/
def sampleService : StateMachine Bool Nat (List Nat) (List Nat) where
  start data := data.getD []
  handle compact st msg :=
    if msg.commandValid then
      msg.command.map fun c => (st ++ [c],
        if compact then some (msg.commandIndex, st ++ [c]) else none)
    else some (msg.snapshot.getD st, none)

theorem sampleService_lawful :
    sampleService.Lawful some fun st c => some (st ++ [c]) where
  start d st h := .inl (Option.some.inj h)
  command a st c i st' snap h := by
    obtain ⟨rfl, rfl⟩ := Prod.mk.inj (Option.some.inj h)
    refine ⟨rfl, ?_⟩
    intro x hx
    cases a with
    | true => rw [← Option.some.inj hx]; exact ⟨rfl, rfl⟩
    | false => exact absurd hx (by simp)
  filler a st c st' snap h := by
    obtain ⟨rfl, rfl⟩ := Prod.mk.inj (Option.some.inj h)
    exact ⟨rfl, rfl⟩
  snapshot a st d i t st' snap h := by
    obtain ⟨rfl, rfl⟩ := Prod.mk.inj (Option.some.inj h)
    exact ⟨rfl, rfl⟩

/-- Service `0` is given command `7` and snapshots; service `2` is given the snapshot, and
service `0` is started again. -/
def sampleSystem : List (System.Event Bool Nat (List Nat) 3) :=
  ([.ticker 0 true, .task 0, .task 1, .task 1, .task 1, .start 0 7, .ticker 0 false, .task 3,
    .task 4, .task 4, .applyNext 1, .task 4, .task 4] :
    List (Raft.Event Nat (List Nat) 3)).map .raft ++
  [.receive 0 true, .receive 0 true, .raft (.applyNext 0), .snapshot 0] ++
  ([.task 1, .task 3, .task 3, .ticker 0 false, .task 5, .task 5, .task 5] :
    List (Raft.Event Nat (List Nat) 3)).map .raft ++
  [.receive 2 false, .restart 0]

theorem replicated_sampleSystem :
    ∃ m past, run (step sampleService) Careful
        (init sampleService : System 3 Nat (List Nat) (List Nat)) sampleSystem [] =
          some (m :: past) ∧ m.state 0 = [7] ∧ m.state 2 = [7] ∧
      ∃ cmds, ∀ m' ∈ m :: past,
        Consistent sampleService (fun st c => some (st ++ [c])) cmds m' := by
  have hs : runEnds (step sampleService) Careful
      (init sampleService : System 3 Nat (List Nat) (List Nat)) sampleSystem
      (fun m _ => decide (m.state 0 = [7] ∧ m.state 2 = [7])) = true := by
    decide +kernel
  obtain ⟨m, past, h, ht, hm⟩ := exists_of_runEnds hs
  obtain ⟨h0, h2⟩ := of_decide_eq_true hm
  exact ⟨m, past, h, h0, h2, replicated _ _ _ sampleService_lawful _ ht⟩

end System

end ShardRaft.Raft
