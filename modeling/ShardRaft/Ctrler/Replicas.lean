import ShardRaft.Ctrler.Server
import ShardRaft.Lib.Replicas

/-!
# Do the controllers agree?

The servers of the shard controller behind Raft: one agreed sequence of commands, of
which Raft may replace a prefix by a snapshot that some server made there.  A server
calls `rf.Snapshot` after every command, so one that has fallen behind is always sent
a snapshot; and a server that is started again reads the snapshot in `StartServer` and
is then sent the message about it.

`handleApplyMessage` ignores a snapshot message.  That does no harm to a server that
was started from this very snapshot (`OwnSnapshot`), and as long as no server consumes
any other, servers that have consumed the same index hold the same state
(`replica_agreement`).  `configs_differ` is a run in which one does.
-/

namespace ShardRaft.Ctrler

open ShardRaft.Lib

/-- The `ApplyMsg` that Raft makes. -/
def toApplyMsg : Msg Op State → Raft.ApplyMsg Op State
  | .command index op => { commandValid := true, command := some op, commandIndex := index }
  | .snapshot index st => { snapshotValid := true, snapshot := some st, snapshotIndex := index }

/-- A server of the controller; it asks Raft whether it is the leader. -/
def service : Service Bool Op State State where
  start := State.startServer
  handle isLeader st msg := (st.handleApplyMessage (toApplyMsg msg) isLeader).map
    fun (st, snapshot) => (st, snapshot.map fun (index, data) => (index.toNat, data))

/-- The servers of a controller. -/
abbrev Controllers (n : Nat) := Replicas n State State

/-- **One step of the servers.** -/
abbrev Controllers.step {n : Nat} (cmds : List Op) : Controllers n → Feed n Bool →
    Option (Controllers n) := Replicas.step service cmds

/-- A snapshot message comes only to a server that was started from this snapshot. -/
def Controllers.OwnSnapshot {n : Nat} (w : Controllers n) : Feed n Bool → Prop
  | .deliver s _ => ∀ snapshot ∈ w.ahead s, snapshot.1 = w.base s
  | _ => True

instance {n : Nat} (w : Controllers n) : DecidablePred w.OwnSnapshot
  | .deliver s _ => inferInstanceAs (Decidable (∀ snapshot ∈ w.ahead s, snapshot.1 = w.base s))
  | .store _ _ => .isTrue trivial
  | .restart _ => .isTrue trivial

/-- Two servers that have consumed the same index were in the same state then, and
give the same answer to every query. -/
def Controllers.Agree {n : Nat} (w : Controllers n) : Prop :=
  ∀ r ∈ w.consumed, ∀ r' ∈ w.consumed, r.index = r'.index →
    r.state = r'.state ∧ ∀ op, r.state.getValue op = r'.state.getValue op

/-- What a command does to the state. -/
def apply (st : State) (op : Op) : Option State := (st.applyOp op).map (·.1)

theorem handle_command {isLeader : Bool} {st st' : State} {i : Nat} {op : Op}
    {snapshot : Option (Nat × State)}
    (h : service.handle isLeader st (.command i op) = some (st', snapshot)) :
    apply st op = some st' ∧ snapshot = some (i, st') := by
  cases ha : st.applyOp op with
  | none => simp [service, toApplyMsg, State.handleApplyMessage, State.handleCommandApply, ha] at h
  | some r =>
    obtain ⟨st₁, msg⟩ := r
    simp only [service, toApplyMsg, State.handleApplyMessage, State.handleCommandApply, ha,
      Bool.false_eq_true, if_false, if_true, Option.bind_eq_bind, Option.bind_some,
      Option.pure_def, Option.map_some, Int.toNat_natCast, Option.some.injEq, Prod.mk.injEq] at h
    obtain ⟨rfl, rfl⟩ := h
    exact ⟨by rw [apply, ha, Option.map_some], rfl⟩

theorem handle_snapshot {isLeader : Bool} {st x : State} {i : Nat} :
    service.handle isLeader st (.snapshot i x) = some (st, none) := rfl

theorem service_runs : service.Runs some apply where
  start _ _ h := .inl (Option.some.inj h)
  command isLeader st i op st' snapshot h := by
    obtain ⟨ha, rfl⟩ := handle_command h
    refine ⟨ha, ?_⟩
    intro x hx
    rw [← Option.some.inj hx]
    exact ⟨rfl, rfl⟩
  snapshot isLeader st i x st' snapshot h := by
    rw [handle_snapshot] at h
    exact (Prod.mk.inj (Option.some.inj h)).2.symm

/-- A message about the server's own snapshot may be ignored. -/
theorem takes_of_ownSnapshot {n : Nat} (w : Controllers n) (e : Feed n Bool)
    (h : w.OwnSnapshot e) : w.Takes service some e := by
  cases e with
  | deliver s isLeader =>
    intro i x ha st' snapshot hh
    rw [handle_snapshot] at hh
    right
    exact ⟨h (i, x) ha, (Prod.mk.inj (Option.some.inj hh)).1.symm,
      fun _ _ hd => Option.some.inj hd⟩
  | store s k => trivial
  | restart s => trivial

/-- **In a run in which snapshot messages come only to servers started from that very
snapshot, servers that have consumed the same index agree.** -/
theorem replica_agreement {n : Nat} (cmds : List Op) (w : Controllers n)
    (past : List (Controllers n))
    (h : Trace (Controllers.step cmds) Controllers.OwnSnapshot (Replicas.init service)
      (w :: past)) : w.Agree := by
  have hall := consumed_reached service_runs takes_of_ownSnapshot h
  intro r hr r' hr' hi
  have h1 := hall r hr
  have h2 := hall r' hr'
  rw [← hi] at h2
  have heq := h1.unique h2
  refine ⟨heq, ?_⟩
  intro op
  rw [heq]

/-- A `Move` of a client's first request. -/
def sampleMove (shard gid : Int) (clientId : Int) : Op :=
  ⟨0, 0, .move, ∅, [], shard, gid, 0, clientId, 1⟩

/-- Two groups join, and then a shard is moved. -/
def sampleCmds : List Op :=
  [⟨0, 0, .join, Groups.ofList [(1, ["x"]), (2, ["y"])], [], 0, 0, 0, 7, 1⟩, sampleMove 0 2 8]

/-- Both servers apply both commands; server 1 is started again in between. -/
def sampleFeed : List (Feed 2 Bool) :=
  [.deliver 0 true, .deliver 1 false, .restart 1, .deliver 1 false, .deliver 0 true,
    .deliver 1 false]

theorem sampleFeed_ends : runEnds (Controllers.step sampleCmds) Controllers.OwnSnapshot
    (Replicas.init service) sampleFeed (fun w _ => decide
      (w.consumed.map (fun r => (r.server, r.index)) = [(0, 1), (1, 1), (1, 1), (0, 2), (1, 2)] ∧
        w.consumed.map (fun r => r.state.configs.length) = [2, 2, 2, 3, 3])) = true := by
  decide +kernel

theorem replica_agreement_sampleFeed : ∃ w : Controllers 2,
    w.consumed.map (fun r => (r.server, r.index)) = [(0, 1), (1, 1), (1, 1), (0, 2), (1, 2)] ∧
      w.Agree := by
  obtain ⟨w, past, -, ht, hp⟩ := exists_of_runEnds sampleFeed_ends
  exact ⟨w, (of_decide_eq_true hp).1, replica_agreement sampleCmds w past ht⟩

/-- Server 0 applies a `Move`; server 1 is sent the snapshot instead. -/
def configsDifferFeed : List (Feed 2 Bool) := [.deliver 0 true, .store 1 0, .deliver 1 false]

theorem configsDifferFeed_ends : runEnds (Controllers.step [sampleMove 0 1 7]) (fun _ _ => True)
    (Replicas.init service) configsDifferFeed (fun w _ => decide
      (w.consumed.map (fun r => (r.server, r.index, r.state.configs.length)) =
        [(0, 1, 2), (1, 1, 1)])) = true := by
  decide +kernel

/-- Servers that have consumed the same index need not agree. -/
theorem configs_differ : ¬ ∀ (n : Nat) (cmds : List Op) (w : Controllers n)
    (past : List (Controllers n)),
    Trace (Controllers.step cmds) (fun _ _ => True) (Replicas.init service) (w :: past) →
      w.Agree := by
  intro h
  obtain ⟨w, past, -, ht, hp⟩ := exists_of_runEnds configsDifferFeed_ends
  have hag := h 2 [sampleMove 0 1 7] w past ht
  have hc := of_decide_eq_true hp
  obtain ⟨r, l, hr, h1, hc⟩ := List.map_eq_cons_iff.mp hc
  obtain ⟨r', l', rfl, h2, -⟩ := List.map_eq_cons_iff.mp hc
  obtain ⟨-, h1⟩ := Prod.mk.inj h1
  obtain ⟨hi, hlen⟩ := Prod.mk.inj h1
  obtain ⟨-, h2⟩ := Prod.mk.inj h2
  obtain ⟨hi', hlen'⟩ := Prod.mk.inj h2
  obtain ⟨heq, -⟩ := hag r (by simp [hr]) r' (by simp [hr]) (hi.trans hi'.symm)
  rw [heq, hlen'] at hlen
  exact absurd hlen (by decide)

end ShardRaft.Ctrler
