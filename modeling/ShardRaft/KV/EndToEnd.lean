import ShardRaft.KV.Cluster

/-!
# Linearizability of the key/value service on top of Raft

What `Linearizability.lean` proves of the servers behind one agreed sequence holds of the
whole: clerks, handlers, apply loops and the Raft peers below them (`linearizable_on_raft`).
The agreed sequence is not assumed, it is the one that the peers commit, so the steps of Raft
must be careful; the clerks, the network between clerks and servers, timers, crashes and
snapshots may do what they like.

Three invariants meet in `Cluster.Inv`: that of the replicated system (`Raft.System.Holds`),
that of the clerks and servers (`Inv`), and that Raft makes nothing up (`Raft.World.Sourced`):
what is committed was passed to `Start` by a handler.
-/

namespace ShardRaft.KV

open ShardRaft.Lib

variable {n : Nat} {β : Type}

theorem snapOk_of_reached {log : List (Op n)} {k : Nat} {st : State}
    (h : Reached applyCommand State.makeState log k st) : SnapOk log (k, st) := by
  have hfold : ∀ (l : List (Op n)) (st₀ : State),
      l.foldlM applyCommand st₀ = some (l.foldl (fun st op => (st.applyOp op).1) st₀) := by
    intro l
    induction l with
    | nil => intro st₀; rfl
    | cons op l ih =>
      intro st₀
      rw [List.foldlM_cons, applyCommand, Option.bind_eq_bind, Option.bind_some, ih]
      rfl
  exact ⟨h.1, Option.some.inj (h.2.symm.trans (hfold _ _))⟩

section front

variable {own : Fin n → Nat → Nat × Int} {stamps : List Nat} {w w' : World n}

theorem inv_fail [NeZero n] (h : Inv own stamps w) {c : Nat} (hs : w.fail c = some w') :
    Inv own stamps w' := by
  unfold World.fail at hs
  cases hcall : (w.clerks c).call with
  | none => rw [hcall] at hs; exact absurd hs (by simp)
  | some call =>
    rw [hcall] at hs
    rw [← Option.some.inj hs]
    exact inv_send h hcall

/-- The snapshots that are stored may be any good ones. -/
theorem inv_setStored (h : Inv own stamps w) (stored : Fin n → Option (Nat × State))
    (hst : ∀ s x, stored s = some x → SnapOk w.log x) :
    Inv own stamps { w with stored := stored } where
  clients := h.clients
  placed := h.placed
  agreed := ⟨h.agreed.servers, hst, h.agreed.snapshots⟩
  flow := h.flow.next (onward_of_eq rfl rfl rfl) (fun _ => .refl ..) (fun _ hop => .inl hop)
    (fun _ _ _ _ hs => .inl hs) (fun _ hm => .inl hm)

/-- A server is started again on a snapshot of the first `i` commands. -/
theorem inv_startKVServer (h : Inv own stamps w) (s : Fin n) {snapshot : Option State} {i : Nat}
    (hsnap : SnapOk w.log (i, snapshot.getD .makeState)) :
    Inv own stamps { w with
      servers := Function.update w.servers s (KVServer.startKVServer s snapshot)
      delivered := Function.update w.delivered s i
      sending := Function.update w.sending s none
      rpcs := w.rpcs.filter (World.survives s) } := by
  have hst : Inv own stamps { w with
      stored := Function.update w.stored s (some (i, snapshot.getD .makeState)) } := by
    refine inv_setStored h _ ?_
    intro j x hx
    by_cases hj : j = s
    · rw [hj, Function.update_self] at hx
      rw [← Option.some.inj hx]
      exact hsnap
    · rw [Function.update_of_ne hj] at hx
      exact h.agreed.stored j x hx
  have hre := inv_setStored (inv_restart hst s) w.stored h.agreed.stored
  have hstart : KVServer.startKVServer s (some (snapshot.getD .makeState)) =
      KVServer.startKVServer s snapshot := rfl
  simpa only [World.restart, World.setServer, Function.update_self, Option.map_some,
    Option.getD_some, hstart] using hre

/-- A server takes over the state that the first `i` commands lead to. -/
theorem inv_install (h : Inv own stamps w) (s : Fin n) {st : State} {i : Nat}
    (hsnap : SnapOk w.log (i, st)) :
    Inv own stamps { w.setServer s { w.servers s with state := st } with
      delivered := Function.update w.delivered s i
      sending := Function.update w.sending s none } := by
  refine ⟨h.clients, h.placed, ⟨agreed_setServer h hsnap, h.agreed.stored, h.agreed.snapshots⟩, ?_⟩
  have hw : Widens (own s) (own s) (w.servers s) { w.servers s with state := st } :=
    ⟨le_rfl, fun _ _ => rfl, fun _ _ _ h => .inl h⟩
  have hw := widens_update hw
  rw [Function.update_eq_self] at hw
  refine h.flow.next (onward_of_eq rfl rfl rfl) hw (fun _ hop => .inl hop) ?_ (fun _ hm => .inl hm)
  intro j op ch msg hj
  change Function.update w.sending s none j = some (op, ch, msg) at hj
  by_cases hjs : j = s
  · rw [hjs, Function.update_self] at hj
    exact absurd hj (by simp)
  · rw [Function.update_of_ne hjs] at hj
    exact .inl hj

theorem inv_learn (h : Inv own stamps w) (msg : Raft.ApplyMsg (Op n) β)
    (hmsg : ∀ op ∈ msg.command, op ∈ w.started) :
    ∃ stamps', Inv own stamps' { w with log := Raft.learn w.log msg } := by
  unfold Raft.learn
  split
  · cases hc : msg.command with
    | none =>
      rw [Option.toList_none, List.append_nil]
      exact ⟨stamps, h⟩
    | some op => exact ⟨_, inv_grow h (hmsg op hc)⟩
  · exact ⟨stamps, h⟩

end front

namespace Cluster

variable {labgob : Codec Encoded β} {maxraftstate : Int} {c c' : Cluster n β}
  {own : Fin n → Nat → Nat × Int} {stamps : List Nat}

/-- The system of servers behind `log`. -/
abbrev Follows [NeZero n] (labgob : Codec Encoded β) (maxraftstate : Int) (log : List (Op n))
    (m : Raft.System n (Op n) β State) : Prop :=
  Raft.System.Holds (stateMachine labgob maxraftstate) (State.readSnapshot labgob) applyCommand
    log m

/-- **The invariant.** -/
structure Inv [NeZero n] (labgob : Codec Encoded β) (maxraftstate : Int)
    (own : Fin n → Nat → Nat × Int) (stamps : List Nat) (c : Cluster n β) : Prop where
  follows : Follows labgob maxraftstate c.front.log c.system
  sourced : c.raft.Sourced (· ∈ c.front.started) (fun _ _ => True)
  front : KV.Inv own stamps c.front
  delivered : ∀ s (p : Nat), Raft.position (c.raft.applyCh s) = some (p : Int) →
    c.front.delivered s = p

/-- A step in which the clerks and handlers move on, or Raft does. -/
theorem Inv.quiet [NeZero n] (h : Inv labgob maxraftstate own stamps c)
    {own' : Fin n → Nat → Nat × Int} (hq : Quiet c.front c'.front)
    (hf : Follows labgob maxraftstate c.front.log c'.system)
    (hs : c'.raft.Sourced (· ∈ c'.front.started) (fun _ _ => True))
    (hk : KV.Inv own' stamps c'.front)
    (hch : c'.raft.applyCh = c.raft.applyCh) : Inv labgob maxraftstate own' stamps c' where
  follows := by rw [hq.log]; exact hf
  sourced := hs
  front := hk
  delivered := by rw [hq.delivered, hch]; exact h.delivered

theorem inv_init [NeZero n] :
    Inv labgob maxraftstate (fun _ _ => (0, 0)) [] (init : Cluster n β) where
  follows := Raft.System.holds_init
  sourced := Raft.World.sourced_init
  front := KV.inv_init
  delivered s p hp := by
    have hp : (-1 : Int) = p := Option.some.inj hp
    omega

/-! ### One step -/

theorem inv_raft [NeZero n] (h : Inv labgob maxraftstate own stamps c)
    {e : Raft.Event (Op n) β n} {raft' : Raft.World n (Op n) β} {owed' : Fin n → Option (Int × β)}
    (hstart : ∀ i op, e ≠ .start i op) (hrestart : ∀ i, e ≠ .restart i)
    (hsend : ∀ i, e = .applyNext i → c.raft.pending i = [])
    (hs : c.raft.step e = some raft')
    (hf : Follows labgob maxraftstate c.front.log
      ({ c with raft := raft', owed := owed' } : Cluster n β).system) :
    Inv labgob maxraftstate own stamps { c with raft := raft', owed := owed' } := by
  refine h.quiet (.of_eq rfl rfl rfl rfl) hf ?_ h.front
    (Raft.World.quiet_of_move (Raft.World.move_of_step hs) hrestart hsend).1
  refine Raft.World.sourced_step h.sourced h.follows.1 ?_ (fun _ _ _ _ _ => trivial) hs
  rintro i op rfl
  exact absurd rfl (hstart i op)

theorem inv_front [NeZero n] (h : Inv labgob maxraftstate own stamps c) {w' : World n}
    {own' : Fin n → Nat → Nat × Int} (hq : Quiet c.front w') (hk : KV.Inv own' stamps w') :
    Inv labgob maxraftstate own' stamps { c with front := w' } := by
  refine h.quiet hq ?_ (h.sourced.mono hq.started fun _ _ hd => hd) hk rfl
  rw [system_quiet hq]
  exact h.follows

theorem inv_stepRpc [NeZero n] (h : Inv labgob maxraftstate own stamps c) {k : Nat} {answer : Bool}
    (hs : c.stepRpc k answer = some c') : ∃ own', Inv labgob maxraftstate own' stamps c' := by
  obtain ⟨raft', front', owed'⟩ := c'
  rcases stepRpc_cases hs with ⟨rpc, op, ch, hk, hph, -, hraft, rfl, hw⟩ | ⟨-, rfl, rfl, a, hw⟩
  · have hq := Quiet.stepRpc hw
    obtain ⟨own', hk'⟩ := KV.inv_stepRpc h.front hw
    refine ⟨own', h.quiet hq ?_ ?_ hk' ?_⟩
    · -- what Raft sees is a call of `Start`
      have hsys : c.system.step (stateMachine labgob maxraftstate) (.raft (.start rpc.server op)) =
          some (⟨raft', front', c.owed⟩ : Cluster n β).system := by
        have hstate : (fun s => (front'.servers s).state) = fun s => (c.front.servers s).state :=
          funext hq.state
        simp only [Raft.System.step, system, Raft.World.Internal, if_pos, hstate]
        rw [hraft]
        rfl
      have hcare : c.system.Careful
          (.raft (.start rpc.server op) : Raft.System.Event Answers (Op n) β n) :=
        Raft.World.careful_of_picked rfl
      exact Raft.System.holds_step stateMachine_lawful h.follows hcare hsys
    · refine Raft.World.sourced_step (h.sourced.mono hq.started fun _ _ hd => hd) h.follows.1 ?_
        (fun _ _ _ _ _ => trivial) hraft
      rintro i op' ⟨⟩ hlead
      -- the peer leads, so the handler has noted the op as started
      have hans : ((c.raft.rafts rpc.server).start op).2.2.2 = true := by
        simp [Raft.Peer.start, hlead]
      rw [hans] at hw
      simp only [World.stepRpc, hk, hph, if_true] at hw
      rw [← Option.some.inj hw]
      exact List.mem_append_right _ (List.mem_singleton_self _)
    · exact (Raft.World.quiet_of_move (Raft.World.move_of_step hraft) (by simp) (by simp)).1
  · obtain ⟨own', hk'⟩ := KV.inv_stepRpc h.front hw
    exact ⟨own', inv_front h (Quiet.stepRpc hw) hk'⟩

theorem inv_restart [NeZero n] (h : Inv labgob maxraftstate own stamps c) (s : Fin n) :
    Inv labgob maxraftstate own stamps (c.restart labgob s) := by
  have hsys : c.system.step (stateMachine labgob maxraftstate) (.restart s) =
      some (c.restart labgob s).system := by
    have hstate : (fun j => ((c.restart labgob s).front.servers j).state) =
        Function.update (fun j => (c.front.servers j).state) s
          ((stateMachine labgob maxraftstate : Raft.StateMachine _ (Op n) β State).start
            (c.raft.rafts s).persister.snapshot) := by
      funext j
      by_cases hj : j = s
      · rw [hj, Function.update_self]
        simp only [restart, Function.update_self]
        cases (c.raft.rafts s).persister.snapshot <;> rfl
      · rw [Function.update_of_ne hj]
        simp only [restart, Function.update_of_ne hj]
    simp only [Raft.System.step, system, hstate]
    rfl
  constructor
  · have hcare : c.system.Careful (.restart s : Raft.System.Event Answers (Op n) β n) := trivial
    exact Raft.System.holds_step stateMachine_lawful h.follows hcare hsys
  · have hstep : c.raft.step (.restart s) = some (c.raft.restart s) := rfl
    exact Raft.World.sourced_step h.sourced h.follows.1 (by simp) (fun _ _ _ _ _ => trivial) hstep
  · refine inv_startKVServer h.front s ?_
    obtain ⟨-, b, hist, F, -, -, hi⟩ := h.follows
    rcases Nat.eq_zero_or_pos (c.raft.rafts s).snapshotEntriesAmount with h0 | hpos
    · have hbare : (c.raft.rafts s).persister.snapshot = none := hi.sourced.bare s h0
      rw [h0, hbare]
      exact ⟨Nat.zero_le _, rfl⟩
    · obtain ⟨d, hd, -, st, hdec, hr⟩ := hi.sourced.kept s hpos
      have hd : (c.raft.rafts s).persister.snapshot = some d := hd
      have hidx : (((c.raft.rafts s).snapshotEntriesAmount : Int) - 1).toNat =
          (c.raft.rafts s).snapshotEntriesAmount - 1 := by
        omega
      rw [hd, Option.bind_some, show State.readSnapshot labgob d = some st from hdec, ← hidx]
      exact snapOk_of_reached hr
  · intro j p hp
    have hch : (c.restart labgob s).raft.applyCh = Function.update c.raft.applyCh s [] := rfl
    rw [hch] at hp
    by_cases hj : j = s
    · rw [hj, Function.update_self] at hp
      have hp : (-1 : Int) = p := Option.some.inj hp
      omega
    · rw [Function.update_of_ne hj] at hp
      simp only [restart, Function.update_of_ne hj]
      exact h.delivered j p hp

/-! ### The apply loop -/

theorem handleApplyMessage_eq_some {kv kv' : KVServer n} {m : Raft.ApplyMsg (Op n) β}
    {a : Answers} {isLeader : Bool} {snapshot : Option (Int × β)}
    {signal : Option (Op n × Nat × KVReplyMsg)}
    (h : kv.handleApplyMessage labgob m maxraftstate a isLeader = some (kv', snapshot, signal)) :
    ∃ st, kv.state.handleApplyMessage labgob m maxraftstate a = some (st, snapshot) ∧
      kv' = { kv with state := st } ∧
      signal = if m.snapshotValid = false ∧ m.commandValid = true then
        m.command.bind fun op =>
          (kv.handleCommandApply op isLeader).2.map fun (ch, msg) => (op, ch, msg)
      else none := by
  obtain ⟨⟨st, snapshot'⟩, hst, h⟩ := Option.bind_eq_some_iff.mp h
  obtain ⟨rfl, hpair⟩ := Prod.mk.inj (Option.some.inj h)
  obtain ⟨rfl, rfl⟩ := Prod.mk.inj hpair
  exact ⟨st, hst, rfl, rfl⟩

/-- What `receive` does, and what Raft sees of it. -/
theorem receive_eq_some [NeZero n] {s : Fin n} {a : Answers} {isLeader : Bool}
    (hs : c.receive labgob maxraftstate s a isLeader = some c') :
    ∃ msg msgs kv snapshot signal, c.raft.pending s = msg :: msgs ∧
      c.raft.step (.applyNext s) = some c'.raft ∧
      (c.front.servers s).handleApplyMessage labgob msg maxraftstate a isLeader =
        some (kv, snapshot, signal) ∧
      c'.front = { c.front.setServer s kv with
        log := Raft.learn c.front.log msg
        delivered := Function.update c.front.delivered s msg.index.toNat
        sending := Function.update c.front.sending s signal } ∧
      c.system.step (stateMachine labgob maxraftstate) (.receive s a) = some c'.system := by
  unfold receive at hs
  split at hs
  · exact absurd hs (by simp)
  rename_i hbusy
  obtain ⟨-, howed⟩ := not_or.mp hbusy
  split at hs
  · exact absurd hs (by simp)
  rename_i msg msgs hp
  obtain ⟨raft', hraft, hs⟩ := Option.bind_eq_some_iff.mp hs
  obtain ⟨⟨kv, snapshot, signal⟩, hh, hs⟩ := Option.bind_eq_some_iff.mp hs
  rw [← Option.some.inj hs]
  refine ⟨msg, msgs, kv, snapshot, signal, hp, hraft, hh, rfl, ?_⟩
  obtain ⟨st, hst, rfl, -⟩ := handleApplyMessage_eq_some hh
  have hstate : (fun j => (Function.update c.front.servers s
      { c.front.servers s with state := st } j).state) =
        Function.update (fun j => (c.front.servers j).state) s st := by
    funext j
    by_cases hj : j = s
    · rw [hj, Function.update_self, Function.update_self]
    · rw [Function.update_of_ne hj, Function.update_of_ne hj]
  have hhandle : (stateMachine labgob maxraftstate : Raft.StateMachine _ (Op n) β State).handle a
      (c.front.servers s).state msg = some (st, snapshot) := hst
  simp only [Raft.System.step, Raft.System.receive, system, howed, hp, hraft, hhandle,
    Bool.false_eq_true, if_false, World.setServer, hstate]
  rfl

/-- **The apply loop**: a command is at its place in the agreed sequence, and a snapshot is of
the commands before its index. -/
theorem inv_receive [NeZero n] (h : Inv labgob maxraftstate own stamps c) {s : Fin n} {a : Answers}
    {isLeader : Bool} (hs : c.receive labgob maxraftstate s a isLeader = some c') :
    ∃ stamps', Inv labgob maxraftstate own stamps' c' := by
  obtain ⟨msg, msgs, kv, snapshot, signal, hp, hraft, hh, hfront, hsys⟩ := receive_eq_some hs
  have hlog : c'.front.log = Raft.learn c.front.log msg := by rw [hfront]
  have hfollows : Follows labgob maxraftstate c'.front.log c'.system := by
    have hcare : c.system.Careful (.receive s a : Raft.System.Event Answers (Op n) β n) := trivial
    have hstep := Raft.System.holds_step stateMachine_lawful h.follows hcare hsys
    rw [Raft.System.known, show c.system.raft.pending s = msg :: msgs from hp] at hstep
    rw [hlog]
    exact hstep
  have hstarted : c'.front.started = c.front.started := by rw [hfront]; rfl
  have hsourced : c'.raft.Sourced (· ∈ c'.front.started) (fun _ _ => True) := by
    rw [hstarted]
    exact Raft.World.sourced_step h.sourced h.follows.1 (by simp) (fun _ _ _ _ _ => trivial) hraft
  have hch : c'.raft.applyCh = Function.update c.raft.applyCh s (c.raft.applyCh s ++ [msg]) :=
    (Raft.World.step_applyNext hp hraft).2.1
  have hpos : Raft.position (c'.raft.applyCh s) = some msg.index := by
    rw [hch, Function.update_self]
    exact h.follows.advance_next hp
  have hdelivered : ∀ j (p : Nat), Raft.position (c'.raft.applyCh j) = some (p : Int) →
      c'.front.delivered j = p := by
    intro j p hj
    rw [hfront]
    by_cases hjs : j = s
    · rw [hjs, hpos] at hj
      rw [hjs]
      dsimp only
      rw [Function.update_self, Option.some.inj hj, Int.toNat_natCast]
    · dsimp only
      rw [Function.update_of_ne hjs]
      rw [hch, Function.update_of_ne hjs] at hj
      exact h.delivered j p hj
  suffices hk : ∃ stamps', KV.Inv own stamps' c'.front by
    obtain ⟨stamps', hk⟩ := hk
    exact ⟨stamps', hfollows, hsourced, hk, hdelivered⟩
  obtain ⟨st, hst, rfl, hsignal⟩ := handleApplyMessage_eq_some hh
  -- the state after the message is that of the commands up to its index
  have hsnap : 0 ≤ msg.index → SnapOk (Raft.learn c.front.log msg) (msg.index.toNat, st) := by
    intro h0
    have hr := hfollows.consistent.position s msg.index hpos h0
    have hstate : c'.system.state s = st := by
      simp only [system, hfront, World.setServer, Function.update_self]
    rw [hstate, hlog] at hr
    exact snapOk_of_reached hr
  rw [hfront]
  have hmsg := h.sourced.pending s msg (by rw [hp]; exact List.mem_cons_self ..)
  cases hmsg with
  | @command idx op hidx hop =>
    obtain ⟨k, hk, hposk, hget⟩ := h.follows.next_command hidx hp
    obtain ⟨stamps', hl⟩ := inv_learn h.front
      { commandValid := true, command := some op, commandIndex := idx }
      (by rintro op' ⟨⟩; exact hop)
    refine ⟨stamps', ?_⟩
    have hdel : c.front.delivered s = k := h.delivered s k hposk
    have hplace : (Raft.learn c.front.log
        ({ commandValid := true, command := some op, commandIndex := idx } :
          Raft.ApplyMsg (Op n) β))[c.front.delivered s]? = some op := by
      rw [hdel]
      exact hget
    have hat := inv_applyAt hl hplace isLeader false
    have hkv : ((c.front.servers s).handleCommandApply op isLeader).1 =
        { c.front.servers s with state := st } := by
      have hst' : st = ((c.front.servers s).state.applyOp op).1 :=
        (Prod.mk.inj (Option.some.inj hst)).1.symm
      rw [hst']
      rfl
    have hidx' : ({ commandValid := true, command := some op, commandIndex := idx } :
        Raft.ApplyMsg (Op n) β).index.toNat = c.front.delivered s + 1 := by
      rw [hdel, show ({ commandValid := true, command := some op, commandIndex := idx } :
        Raft.ApplyMsg (Op n) β).index = idx from rfl]
      omega
    rw [hidx', hsignal]
    dsimp only at hat
    rw [hkv] at hat
    exact hat
  | @filler op =>
    have hsignal : signal = none := hsignal
    rw [hsignal]
    exact ⟨stamps, inv_install h.front s (hsnap le_rfl)⟩
  | @snapshot idx t d hidx _ =>
    have hsignal : signal = none := hsignal
    rw [hsignal]
    exact ⟨stamps, inv_install h.front s (hsnap hidx)⟩

/-! ### Runs -/

/-- **A careful step keeps the invariant.** -/
theorem inv_step [NeZero n] (h : Inv labgob maxraftstate own stamps c) {e : Event n β}
    (hc : c.Careful e) (hs : c.step labgob maxraftstate e = some c') :
    ∃ own' stamps', Inv labgob maxraftstate own' stamps' c' := by
  cases e with
  | raft e =>
    simp only [step] at hs
    split at hs
    · rename_i hint
      obtain ⟨raft', hraft, hs⟩ := Option.bind_eq_some_iff.mp hs
      rw [← Option.some.inj hs]
      have hstart : ∀ i op, e ≠ .start i op := by
        rintro i op rfl
        exact absurd hint (by simp [Internal])
      have hint' : c.raft.Internal e = true := by
        cases e with
        | start i op => exact absurd rfl (hstart i op)
        | _ => exact hint
      have hsys : c.system.step (stateMachine labgob maxraftstate) (.raft e) =
          some ({ c with raft := raft' } : Cluster n β).system := by
        simp only [Raft.System.step, system, hint', if_true, hraft]
        rfl
      have hcare : c.system.Careful (.raft e : Raft.System.Event Answers (Op n) β n) := hc
      refine ⟨own, stamps, inv_raft h hstart ?_ ?_ hraft
        (Raft.System.holds_step stateMachine_lawful h.follows hcare hsys)⟩
      · rintro i rfl
        exact absurd hint' (by simp [Raft.World.Internal])
      · rintro i rfl
        exact List.isEmpty_iff.mp hint'
    · exact absurd hs (by simp)
  | invoke client call =>
    obtain ⟨w', hw, hs⟩ := Option.bind_eq_some_iff.mp hs
    rw [← Option.some.inj hs]
    exact ⟨own, stamps, inv_front h (.invoke hw) (KV.inv_invoke h.front hw)⟩
  | fail client =>
    obtain ⟨w', hw, hs⟩ := Option.bind_eq_some_iff.mp hs
    rw [← Option.some.inj hs]
    exact ⟨own, stamps, inv_front h (.fail hw) (KV.inv_fail h.front hw)⟩
  | rpc k answer =>
    obtain ⟨own', h'⟩ := inv_stepRpc h hs
    exact ⟨own', stamps, h'⟩
  | receive s a isLeader =>
    obtain ⟨stamps', h'⟩ := inv_receive h hs
    exact ⟨own, stamps', h'⟩
  | snapshot s =>
    simp only [step] at hs
    split at hs
    · exact absurd hs (by simp)
    · rename_i index data ho
      obtain ⟨raft', hraft, hs⟩ := Option.bind_eq_some_iff.mp hs
      rw [← Option.some.inj hs]
      have hsys : c.system.step (stateMachine labgob maxraftstate) (.snapshot s) =
          some (⟨raft', c.front, Function.update c.owed s none⟩ : Cluster n β).system := by
        simp only [Raft.System.step, system, ho, hraft]
        rfl
      have hcare : c.system.Careful (.snapshot s : Raft.System.Event Answers (Op n) β n) := trivial
      exact ⟨own, stamps, inv_raft h (by simp) (by simp) (by simp) hraft
        (Raft.System.holds_step stateMachine_lawful h.follows hcare hsys)⟩
  | signal s k =>
    simp only [step] at hs
    split at hs
    · exact absurd hs (by simp)
    · obtain ⟨w', hw, hs⟩ := Option.bind_eq_some_iff.mp hs
      rw [← Option.some.inj hs]
      exact ⟨own, stamps, inv_front h (.signal hw) (KV.inv_signal h.front hw)⟩
  | restart s =>
    rw [← Option.some.inj hs]
    exact ⟨own, stamps, inv_restart h s⟩

theorem inv_run [NeZero n] (tr : List (Cluster n β))
    (h : Trace (step labgob maxraftstate) Careful init tr) :
    ∀ c ∈ tr, ∃ own stamps, Inv labgob maxraftstate own stamps c := by
  refine Trace.invariant (I := fun c => ∃ own stamps, Inv labgob maxraftstate own stamps c)
    ⟨_, _, inv_init⟩ ?_ tr h
  intro c c' e hi hc hs
  obtain ⟨own, stamps, hi⟩ := hi
  exact inv_step hi hc hs

/-- **Linearizability on top of Raft.**  In every state of every careful run of the clerks, the
servers and the Raft peers together, what the clerks' users have seen is linearizable with
respect to a plain map. -/
theorem linearizable_on_raft [NeZero n] (labgob : Codec Encoded β) (maxraftstate : Int)
    (tr : List (Cluster n β)) (h : Trace (step labgob maxraftstate) Careful init tr) :
    ∀ c ∈ tr, Linearizable spec (fun _ => none) c.front.history := by
  intro c hc
  obtain ⟨own, stamps, hi⟩ := inv_run tr h c hc
  obtain ⟨point, hpoint⟩ := exists_point hi.front
  exact ⟨_, linearizes_order hi.front hpoint⟩

/-- An encoding for concrete runs. -/
def sampleLabgob : Codec Encoded Encoded := ⟨id, some, fun _ => rfl⟩

/-- What a server learns that has nothing to snapshot. -/
def small : Answers := ⟨false, 0, 0⟩

/-- Server `0` is elected. -/
def sampleElection : List (Event 3 Encoded) :=
  [.raft (.ticker 0 true), .raft (.task 0), .raft (.task 1), .raft (.task 1), .raft (.task 1)]

/-- Clerk `5` calls `Put`, server `0` applies it and takes a snapshot. -/
def sampleFirst : List (Event 3 Encoded) :=
  [.invoke 5 (.put "k" "v"), .rpc 0 true, .rpc 0 true, .rpc 0 true, .raft (.ticker 0 false),
    .raft (.task 3), .raft (.task 4), .raft (.task 4), .raft (.applyNext 1), .raft (.task 4),
    .raft (.task 4), .receive 0 small true, .receive 0 ⟨true, 1, 0⟩ true, .snapshot 0,
    .signal 0 0, .raft (.applyNext 0), .rpc 0 true, .rpc 0 true]

/-- Server `2` is sent the snapshot, server `0` crashes, and server `2` is elected with its
vote. -/
def sampleTakeover : List (Event 3 Encoded) :=
  [.raft (.ticker 0 false), .raft (.task 5), .raft (.task 5), .raft (.task 5), .raft (.task 5),
    .raft (.ticker 0 false), .raft (.task 6), .raft (.task 6), .raft (.task 6),
    .receive 2 small true, .raft (.applyNext 2), .restart 0, .raft (.ticker 2 true),
    .raft (.task 1), .raft (.task 2), .raft (.task 2)]

/-- The clerk calls `Get`, tries all servers in turn, and server `2` answers. -/
def sampleSecond : List (Event 3 Encoded) :=
  [.invoke 5 (.get "k"), .rpc 0 true, .rpc 0 true, .rpc 0 true, .rpc 0 true, .rpc 0 true,
    .rpc 0 true, .rpc 0 true, .raft (.ticker 2 false), .raft (.task 4), .raft (.task 5),
    .raft (.task 5), .receive 0 small true, .raft (.applyNext 0), .raft (.task 5),
    .raft (.task 5), .receive 2 small true, .signal 2 0, .rpc 0 true, .rpc 0 true]

theorem sampleTakeover_ends : runEnds (step sampleLabgob 0) Careful (init : Cluster 3 Encoded)
    (sampleElection ++ sampleFirst ++ sampleTakeover ++ sampleSecond)
    (fun c _ => decide (c.front.history = [.invoke (5, 1) (.put "k" "v"), .respond (5, 1) none,
      .invoke (5, 2) (.get "k"), .respond (5, 2) (some "v")])) = true := by
  decide +kernel

theorem linearizable_on_raft_sampleTakeover :
    ∃ c past, run (step sampleLabgob 0) Careful (init : Cluster 3 Encoded)
        (sampleElection ++ sampleFirst ++ sampleTakeover ++ sampleSecond) [] = some (c :: past) ∧
      c.front.history = [.invoke (5, 1) (.put "k" "v"), .respond (5, 1) none,
        .invoke (5, 2) (.get "k"), .respond (5, 2) (some "v")] ∧
      Linearizable spec (fun _ => none) c.front.history := by
  obtain ⟨c, past, h, ht, hl⟩ := exists_of_runEnds sampleTakeover_ends
  exact ⟨c, past, h, of_decide_eq_true hl,
    linearizable_on_raft sampleLabgob 0 _ ht c (List.mem_cons_self ..)⟩

end Cluster

end ShardRaft.KV
