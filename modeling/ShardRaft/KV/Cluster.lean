import ShardRaft.KV.Linearizability
import ShardRaft.KV.Snapshots
import ShardRaft.Raft.Replicated

/-!
# The key/value service on top of Raft

`World` has Raft as the servers see it, one agreed sequence.  Here the servers sit on the
cluster of `Raft/World.lean`: a handler that calls `GetState` or `Start` asks the peer of its
server, the apply loop takes what the peer puts on `applyCh`, and `rf.Snapshot` and
`persister.ReadSnapshot` are those of the peer.

The clerks, the handlers and the servers are in `front`, a `World`.  Of its fields, `log`,
`delivered` and `started` only record what has happened (no step reads them), and `snapshots`
and `stored` are not used.  `handleCommandApply` calls `rf.Snapshot` before anything else may
happen at the server: `owed` is a call that is still to be made, and `kv.mu` is held until
then, as it is while the apply loop sends (`Busy`).

What Raft sees of a server is a `StateMachine` (`stateMachine`), and each step of the whole is
a step of that system or leaves it alone (`system_step`).
-/

namespace ShardRaft.KV

open ShardRaft.Lib

variable {n : Nat} {β : Type}

instance [NeZero n] : Inhabited (Op n) := ⟨⟨0, 0, .get, "", "", 0, 0⟩⟩

/-- The server as Raft sees it. -/
def stateMachine (labgob : Codec Encoded β) (maxraftstate : Int) :
    Raft.StateMachine Answers (Op n) β State where
  start data := (State.makeState.installSnapshot labgob data).getD .makeState
  handle a st msg := st.handleApplyMessage labgob msg maxraftstate a

/-- `handleApplyMessage`: the server, what goes to `rf.Snapshot`, and what is sent on a
reply channel. -/
def KVServer.handleApplyMessage (kv : KVServer n) (labgob : Codec Encoded β)
    (m : Raft.ApplyMsg (Op n) β) (maxraftstate : Int) (a : Answers) (isLeader : Bool) :
    Option (KVServer n × Option (Int × β) × Option (Op n × Nat × KVReplyMsg)) := do
  let (st, snapshot) ← kv.state.handleApplyMessage labgob m maxraftstate a
  let signal :=
    if m.snapshotValid = false ∧ m.commandValid = true then
      m.command.bind fun op =>
        (kv.handleCommandApply op isLeader).2.map fun (ch, msg) => (op, ch, msg)
    else none
  return ({ kv with state := st }, snapshot, signal)

/-- The cluster of Raft peers, everything above it, and the calls of `rf.Snapshot` that
apply loops still owe. -/
structure Cluster (n : Nat) (β : Type) where
  raft : Raft.World n (Op n) β
  front : World n
  owed : Fin n → Option (Int × β)

namespace Cluster

/-- What the environment chooses. -/
inductive Event (n : Nat) (β : Type)
  | raft (e : Raft.Event (Op n) β n)
  | invoke (c : Nat) (call : Call)
  | fail (c : Nat)
  | rpc (k : Nat) (answer : Bool)
  | receive (s : Fin n) (answers : Answers) (isLeader : Bool)
  | snapshot (s : Fin n)
  | signal (s : Fin n) (k : Nat)
  | restart (s : Fin n)
deriving DecidableEq, Repr

def init [NeZero n] : Cluster n β where
  raft := .init
  front := .init
  owed _ := none

/-- A step of Raft that no server causes. -/
def Internal (w : Raft.World n (Op n) β) : Raft.Event (Op n) β n → Bool
  | .start _ _ => false
  | e => w.Internal e

/-- The apply loop of `s` holds `kv.mu`. -/
def Busy (c : Cluster n β) (s : Fin n) : Prop :=
  (c.front.sending s).isSome = true ∨ (c.owed s).isSome = true

instance (c : Cluster n β) (s : Fin n) : Decidable (c.Busy s) :=
  inferInstanceAs (Decidable ((c.front.sending s).isSome = true ∨ (c.owed s).isSome = true))

/-- The handler of RPC `k` makes its next step; `answer` says whether it is the timer that
wakes it. -/
def stepRpc [NeZero n] (c : Cluster n β) (k : Nat) (answer : Bool) : Option (Cluster n β) :=
  match c.front.rpcs[k]? with
  | none => none
  | some rpc =>
    let rf := c.raft.rafts rpc.server
    match rpc.phase with
    | .called => do
      return { c with front := ← c.front.stepRpc k (decide (rf.status = .leader)) }
    | .opened op _ => do
      let raft ← c.raft.step (.start rpc.server op)
      return { c with raft := raft, front := ← c.front.stepRpc k (rf.start op).2.2.2 }
    | .waiting _ _ | .replied _ => do return { c with front := ← c.front.stepRpc k answer }
    | .leader | .refused _ | .received _ _ | .timedOut _ =>
      if c.Busy rpc.server then none else do return { c with front := ← c.front.stepRpc k answer }

/-- The apply loop of `s` takes the next message. -/
def receive (labgob : Codec Encoded β) (maxraftstate : Int) (c : Cluster n β) (s : Fin n)
    (answers : Answers) (isLeader : Bool) : Option (Cluster n β) :=
  if c.Busy s then none else
    match c.raft.pending s with
    | [] => none
    | msg :: _ => do
      let raft ← c.raft.applyNext s
      let (kv, snapshot, signal) ←
        (c.front.servers s).handleApplyMessage labgob msg maxraftstate answers isLeader
      return {
        raft := raft
        front := { c.front.setServer s kv with
          log := Raft.learn c.front.log msg
          delivered := Function.update c.front.delivered s msg.index.toNat
          sending := Function.update c.front.sending s signal }
        owed := Function.update c.owed s snapshot }

/-- A crash, and `StartKVServer` on what the persister holds. -/
def restart [NeZero n] (labgob : Codec Encoded β) (c : Cluster n β) (s : Fin n) : Cluster n β where
  raft := c.raft.restart s
  front := { c.front with
    servers := Function.update c.front.servers s (KVServer.startKVServer s
      ((c.raft.rafts s).persister.snapshot.bind (State.readSnapshot labgob)))
    delivered := Function.update c.front.delivered s
      ((c.raft.rafts s).snapshotEntriesAmount - 1)
    sending := Function.update c.front.sending s none
    rpcs := c.front.rpcs.filter (World.survives s) }
  owed := Function.update c.owed s none

/-- **One step of the whole.** -/
def step [NeZero n] (labgob : Codec Encoded β) (maxraftstate : Int) (c : Cluster n β) :
    Event n β → Option (Cluster n β)
  | .raft e => if Internal c.raft e then do return { c with raft := ← c.raft.step e } else none
  | .invoke client call => do return { c with front := ← c.front.invoke client call }
  | .fail client => do return { c with front := ← c.front.fail client }
  | .rpc k answer => c.stepRpc k answer
  | .receive s answers isLeader => c.receive labgob maxraftstate s answers isLeader
  | .snapshot s =>
    match c.owed s with
    | none => none
    | some (index, data) => do
      let raft ← c.raft.step (.snapshot s index data)
      return { c with raft := raft, owed := Function.update c.owed s none }
  | .signal s k =>
    if (c.owed s).isSome then none else do return { c with front := ← c.front.signal s k }
  | .restart s => some (c.restart labgob s)

/-- The steps of Raft are careful. -/
def Careful (c : Cluster n β) : Event n β → Prop
  | .raft e => c.raft.Careful e
  | _ => True

instance (c : Cluster n β) : DecidablePred c.Careful
  | .raft e => inferInstanceAs (Decidable (c.raft.Careful e))
  | .invoke _ _ | .fail _ | .rpc _ _ | .receive _ _ _ | .snapshot _ | .signal _ _ | .restart _ =>
    .isTrue trivial

/-! ### What Raft sees -/

/-- The peers and the states of the servers. -/
def system (c : Cluster n β) : Raft.System n (Op n) β State where
  raft := c.raft
  state s := (c.front.servers s).state
  owed := c.owed

end Cluster

section lawful

variable {labgob : Codec Encoded β} {maxraftstate : Int}

theorem stateMachine_lawful :
    (stateMachine labgob maxraftstate : Raft.StateMachine _ (Op n) β State).Lawful
      (State.readSnapshot labgob) applyCommand where
  start d st h := .inl (by simp [stateMachine, State.installSnapshot, h])
  command a st c i st' snap h := by
    simp only [stateMachine, State.handleApplyMessage, State.handleCommand, Bool.false_eq_true,
      if_false, if_true, Option.bind_eq_bind, Option.bind_some, Option.pure_def,
      Option.some.injEq, Prod.mk.injEq] at h
    obtain ⟨rfl, rfl⟩ := h
    refine ⟨rfl, ?_⟩
    intro x hx
    split at hx
    · obtain rfl := Option.some.inj hx
      simp [State.readSnapshot, State.makeSnapshot, labgob.decode_encode]
    · exact absurd hx (by simp)
  filler a st c st' snap h := by
    simp only [stateMachine, State.handleApplyMessage, Bool.false_eq_true, if_false, ne_eq,
      not_true_eq_false, Option.some.injEq, Prod.mk.injEq] at h
    exact ⟨h.1.symm, h.2.symm⟩
  snapshot a st d i t st' snap h := by
    obtain ⟨st₁, hst, h⟩ := Option.bind_eq_some_iff.mp h
    obtain ⟨rfl, rfl⟩ := Prod.mk.inj (Option.some.inj h)
    exact ⟨hst, rfl⟩

end lawful

/-! ### Steps that Raft does not see -/

/-- The clerks and the handlers leave alone what the servers have been given. -/
structure Quiet (w w' : World n) : Prop where
  state : ∀ s, (w'.servers s).state = (w.servers s).state
  log : w'.log = w.log
  delivered : w'.delivered = w.delivered
  started : ∀ op ∈ w.started, op ∈ w'.started

namespace Quiet

variable {w w' : World n}

theorem of_eq (hserv : w'.servers = w.servers) (hlog : w'.log = w.log)
    (hdel : w'.delivered = w.delivered) (hst : w'.started = w.started) : Quiet w w' :=
  ⟨fun _ => by rw [hserv], hlog, hdel, fun _ hop => hst ▸ hop⟩

theorem setServer {s : Fin n} (kv : KVServer n) (hstate : kv.state = (w.servers s).state)
    (hserv : w'.servers = Function.update w.servers s kv) (hlog : w'.log = w.log)
    (hdel : w'.delivered = w.delivered) (hst : w'.started = w.started) : Quiet w w' := by
  refine ⟨?_, hlog, hdel, fun _ hop => hst ▸ hop⟩
  intro j
  rw [hserv]
  by_cases hj : j = s
  · rw [hj, Function.update_self, hstate]
  · rw [Function.update_of_ne hj]

theorem invoke {c : Nat} {call : Call} (h : w.invoke c call = some w') : Quiet w w' := by
  unfold World.invoke at h
  dsimp only at h
  split at h
  · exact absurd h (by simp)
  · rw [← Option.some.inj h]
    exact .of_eq rfl rfl rfl rfl

theorem fail [NeZero n] {c : Nat} (h : w.fail c = some w') : Quiet w w' := by
  unfold World.fail at h
  split at h
  · exact absurd h (by simp)
  · rw [← Option.some.inj h]
    exact .of_eq rfl rfl rfl rfl

theorem receive [NeZero n] (k : Nat) (rpc : Rpc n) (reply : Reply) :
    Quiet w (w.receive k rpc reply) := by
  unfold World.receive
  dsimp only
  split
  · exact .of_eq rfl rfl rfl rfl
  · split
    · exact .of_eq rfl rfl rfl rfl
    · split <;> exact .of_eq rfl rfl rfl rfl

theorem close {k : Nat} {rpc : Rpc n} {op : Op n} {reply : Reply}
    (h : w.close k rpc op reply = some w') : Quiet w w' := by
  unfold World.close at h
  split at h
  · exact absurd h (by simp)
  · obtain ⟨kv, hkv, h⟩ := Option.bind_eq_some_iff.mp h
    rw [← Option.some.inj h]
    exact .setServer kv (deleteStartCh_eq_some hkv fun _ => (0, 0)).2 rfl rfl rfl rfl

theorem stepRpc [NeZero n] {k : Nat} {answer : Bool} (h : w.stepRpc k answer = some w') :
    Quiet w w' := by
  unfold World.stepRpc at h
  cases hk : w.rpcs[k]? with
  | none => rw [hk] at h; exact absurd h (by simp)
  | some rpc =>
    rw [hk] at h
    dsimp only at h
    cases hph : rpc.phase with
    | called =>
      rw [hph] at h
      rw [← Option.some.inj h]
      exact .of_eq rfl rfl rfl rfl
    | leader =>
      rw [hph] at h
      dsimp only at h
      split at h
      · exact absurd h (by simp)
      · rw [← Option.some.inj h]
        exact .setServer ((w.servers rpc.server).preStart _).1 rfl rfl rfl rfl rfl
    | opened op ch =>
      rw [hph] at h
      cases answer with
      | true =>
        rw [← Option.some.inj h]
        exact ⟨fun _ => rfl, rfl, rfl, fun _ hop => List.mem_append_left _ hop⟩
      | false =>
        rw [← Option.some.inj h]
        exact .of_eq rfl rfl rfl rfl
    | refused op => rw [hph] at h; exact .close h
    | waiting op ch =>
      rw [hph] at h
      dsimp only at h
      split at h
      · split at h
        · rw [← Option.some.inj h]
          exact .of_eq rfl rfl rfl rfl
        · exact absurd h (by simp)
      · rw [← Option.some.inj h]
        exact .of_eq rfl rfl rfl rfl
    | received op msg =>
      rw [hph] at h
      obtain ⟨reply, -, h⟩ := Option.bind_eq_some_iff.mp h
      exact .close h
    | timedOut op => rw [hph] at h; exact .close h
    | replied reply =>
      rw [hph] at h
      rw [← Option.some.inj h]
      exact .receive ..

theorem signal {s : Fin n} {k : Nat} (h : w.signal s k = some w') : Quiet w w' := by
  unfold World.signal at h
  split at h
  · split at h
    · exact absurd h (by simp)
    · split at h
      · split at h
        · obtain ⟨kv, hkv, h⟩ := Option.bind_eq_some_iff.mp h
          rw [← Option.some.inj h]
          exact .setServer kv (deleteStartCh_eq_some hkv fun _ => (0, 0)).2 rfl rfl rfl rfl
        · exact absurd h (by simp)
      · exact absurd h (by simp)
  · exact absurd h (by simp)

end Quiet

namespace Cluster

variable {labgob : Codec Encoded β} {maxraftstate : Int} {c c' : Cluster n β}

/-- What Raft sees of an event. -/
def seen (c : Cluster n β) : Event n β → Option (Raft.System.Event Answers (Op n) β n)
  | .raft e => some (.raft e)
  | .rpc k _ =>
    match c.front.rpcs[k]? with
    | none => none
    | some rpc =>
      match rpc.phase with
      | .opened op _ => some (.raft (.start rpc.server op))
      | _ => none
  | .receive s answers _ => some (.receive s answers)
  | .snapshot s => some (.snapshot s)
  | .restart s => some (.restart s)
  | .invoke _ _ | .fail _ | .signal _ _ => none

theorem system_quiet {w' : World n} (hq : Quiet c.front w') :
    ({ c with front := w' } : Cluster n β).system = c.system :=
  congrArg (fun st => (⟨c.raft, st, c.owed⟩ : Raft.System n (Op n) β State)) (funext hq.state)

/-- The handler of an RPC either passes its op to `Start`, or Raft sees nothing of it. -/
theorem stepRpc_cases [NeZero n] {k : Nat} {answer : Bool} (h : c.stepRpc k answer = some c') :
    (∃ rpc op ch, c.front.rpcs[k]? = some rpc ∧ rpc.phase = .opened op ch ∧
      c.seen (.rpc k answer) = some (.raft (.start rpc.server op)) ∧
      c.raft.step (.start rpc.server op) = some c'.raft ∧ c'.owed = c.owed ∧
      c.front.stepRpc k (((c.raft.rafts rpc.server).start op).2.2.2) = some c'.front) ∨
    (c.seen (.rpc k answer) = none ∧ c'.raft = c.raft ∧ c'.owed = c.owed ∧
      ∃ answer', c.front.stepRpc k answer' = some c'.front) := by
  have hfront : ∀ {answer' : Bool}, (do return { c with front := ← c.front.stepRpc k answer' }) =
      some c' → c'.raft = c.raft ∧ c'.owed = c.owed ∧
        ∃ answer', c.front.stepRpc k answer' = some c'.front := by
    intro answer' h
    obtain ⟨w, hw, h⟩ := Option.bind_eq_some_iff.mp h
    rw [← Option.some.inj h]
    exact ⟨rfl, rfl, answer', hw⟩
  have hbusy : ∀ {s : Fin n}, (if c.Busy s then none else do
      return { c with front := ← c.front.stepRpc k answer }) = some c' →
        c'.raft = c.raft ∧ c'.owed = c.owed ∧
          ∃ answer', c.front.stepRpc k answer' = some c'.front := by
    intro s h
    split at h
    · exact absurd h (by simp)
    · exact hfront h
  unfold stepRpc at h
  cases hk : c.front.rpcs[k]? with
  | none => rw [hk] at h; exact absurd h (by simp)
  | some rpc =>
    rw [hk] at h
    dsimp only at h
    have hseen : c.seen (.rpc k answer) = match rpc.phase with
        | .opened op _ => some (.raft (.start rpc.server op))
        | _ => none := by
      rw [seen, hk]
    cases hph : rpc.phase with
    | opened op ch =>
      rw [hph] at h hseen
      obtain ⟨raft', hraft, h⟩ := Option.bind_eq_some_iff.mp h
      obtain ⟨w, hw, h⟩ := Option.bind_eq_some_iff.mp h
      rw [← Option.some.inj h]
      exact .inl ⟨rpc, op, ch, rfl, hph, hseen, hraft, rfl, hw⟩
    | called => rw [hph] at h hseen; exact .inr ⟨hseen, hfront h⟩
    | waiting op ch => rw [hph] at h hseen; exact .inr ⟨hseen, hfront h⟩
    | replied reply => rw [hph] at h hseen; exact .inr ⟨hseen, hfront h⟩
    | leader => rw [hph] at h hseen; exact .inr ⟨hseen, hbusy h⟩
    | refused op => rw [hph] at h hseen; exact .inr ⟨hseen, hbusy h⟩
    | received op msg => rw [hph] at h hseen; exact .inr ⟨hseen, hbusy h⟩
    | timedOut op => rw [hph] at h hseen; exact .inr ⟨hseen, hbusy h⟩

end Cluster

end ShardRaft.KV
