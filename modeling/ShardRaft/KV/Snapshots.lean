import ShardRaft.KV.Server
import ShardRaft.Lib.Replicas
import ShardRaft.Raft.State

/-!
# Snapshots of the key/value server

`kvServerSnapshot.go` and the part of `kvServerApplyTicker.go` that takes and reads
snapshots, and the server as a `Service` behind a log with compaction.  The snapshot
also carries `opIndex` and `totalLogCount`; the first is not read back, and the second
is counted nowhere, so both are part of what the surroundings answer.
-/

namespace ShardRaft.KV

open ShardRaft.Lib

variable {n : Nat} {β : Type}

/-- What a snapshot encodes: the state, `opIndex` and `totalLogCount`. -/
abbrev Encoded := State × Nat × Nat

namespace State

/-- `makeSnapshot`. -/
def makeSnapshot (st : State) (labgob : Codec Encoded β) (opIndex totalLogCount : Nat) : β :=
  labgob.encode (st, opIndex, totalLogCount)

/-- The state that `readSnapshot` returns. -/
def readSnapshot (labgob : Codec Encoded β) (data : β) : Option State :=
  (labgob.decode data).map (·.1)

/-- `installSnapshot`; there may be no data. -/
def installSnapshot (labgob : Codec Encoded β) (st : State) : Option β → Option State
  | none => some st
  | some data => readSnapshot labgob data

end State

/-- What a server learns from Raft while it handles a message: `overflow` is
`RaftStateSize() >= maxraftstate`. -/
structure Answers where
  overflow : Bool
  opIndex : Nat
  totalLogCount : Nat
deriving DecidableEq, Repr

namespace State

/-- The part of `handleCommandApply` that changes the state, and what goes to `rf.Snapshot`. -/
def handleCommand (labgob : Codec Encoded β) (st : State) (op : Op n)
    (commandIndex maxraftstate : Int) (a : Answers) : State × Option (Int × β) :=
  let (st, _) := st.applyOp op
  (st, if maxraftstate ≠ -1 ∧ a.overflow
    then some (commandIndex, st.makeSnapshot labgob a.opIndex a.totalLogCount) else none)

/-- `handleApplyMessage`: the state and what goes to `rf.Snapshot`. -/
def handleApplyMessage (labgob : Codec Encoded β) (st : State) (m : Raft.ApplyMsg (Op n) β)
    (maxraftstate : Int) (a : Answers) : Option (State × Option (Int × β)) :=
  if m.snapshotValid then do return (← st.installSnapshot labgob m.snapshot, none)
  else if m.commandValid then do
    let op ← m.command
    return st.handleCommand labgob op m.commandIndex maxraftstate a
  else if m.commandIndex ≠ 0 then none
  else some (st, none)

end State

/-- The `ApplyMsg` that Raft makes. -/
def toApplyMsg {α : Type} : Msg α β → Raft.ApplyMsg α β
  | .command index op => { commandValid := true, command := some op, commandIndex := index }
  | .snapshot index data => { snapshotValid := true, snapshot := some data, snapshotIndex := index }

/-- The server: `StartKVServer` reads the snapshot it finds. -/
def service (labgob : Codec Encoded β) (maxraftstate : Int) : Service Answers (Op n) State β where
  start data := (State.makeState.installSnapshot labgob data).getD .makeState
  handle a st msg := (st.handleApplyMessage labgob (toApplyMsg msg) maxraftstate a).map
    fun (st, snapshot) => (st, snapshot.map fun (index, data) => (index.toNat, data))

/-- What a command does to the state. -/
def applyCommand (st : State) (op : Op n) : Option State := some (st.applyOp op).1

variable {labgob : Codec Encoded β} {maxraftstate : Int}

theorem handle_snapshot {a : Answers} {st st' : State} {i : Nat} {data : β}
    {snapshot : Option (Nat × β)}
    (h : (service labgob maxraftstate : Service _ (Op n) _ _).handle a st (.snapshot i data) =
      some (st', snapshot)) :
    State.readSnapshot labgob data = some st' ∧ snapshot = none := by
  cases hr : State.readSnapshot labgob data with
  | none => simp [service, toApplyMsg, State.handleApplyMessage, State.installSnapshot, hr] at h
  | some x =>
    simp [service, toApplyMsg, State.handleApplyMessage, State.installSnapshot, hr] at h
    rw [h.1, h.2]
    exact ⟨rfl, rfl⟩

theorem service_runs : (service labgob maxraftstate : Service _ (Op n) _ _).Runs
    (State.readSnapshot labgob) applyCommand where
  start data st h := by
    left
    simp [service, State.installSnapshot, h]
  command a st i op st' snapshot h := by
    simp only [service, toApplyMsg, State.handleApplyMessage, State.handleCommand,
      Bool.false_eq_true, if_false, if_true, Option.bind_eq_bind, Option.bind_some,
      Option.pure_def, Option.map_some, Option.some.injEq, Prod.mk.injEq] at h
    obtain ⟨rfl, rfl⟩ := h
    refine ⟨rfl, ?_⟩
    intro x hx
    split at hx
    · obtain rfl := Option.some.inj hx
      simp [State.readSnapshot, State.makeSnapshot, labgob.decode_encode]
    · exact absurd hx (by simp)
  snapshot a st i data st' snapshot h := (handle_snapshot h).2

theorem takes (w : Replicas n State β) (e : Feed n Answers) :
    w.Takes (service labgob maxraftstate : Service _ (Op n) _ _) (State.readSnapshot labgob) e := by
  cases e with
  | deliver s a =>
    intro i data _ st' snapshot h
    exact .inl (handle_snapshot h).1
  | store s k => trivial
  | restart s => trivial

end ShardRaft.KV
