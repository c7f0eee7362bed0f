import ShardRaft.KV.Snapshots
import ShardRaft.ShardKV.Server

/-!
# Snapshots do not show

A server of `shardkv` as a `Service` behind a log with compaction.  Unlike `kvraft` it
does not read the snapshot when it is started; Raft sends it first, so nothing is lost.

`snapshot_transparency` is the statement for both services: whatever the points at which
snapshots are taken and taken over and servers are restarted, a server that has consumed
a message holds the outcome of the commands up to its index, and so does every snapshot.
-/

namespace ShardRaft.ShardKV

open ShardRaft.Lib

variable {β : Type} {labgob : Codec State β} {gid maxraftstate : Int}

/-- What a server learns from Raft while it handles a message. -/
structure Answers where
  overflow : Bool
  isLeader : Bool
deriving DecidableEq, Repr

/-- A server of group `gid`: `StartServer` begins with an empty state. -/
def service (labgob : Codec State β) (gid maxraftstate : Int) : Service Answers Op State β where
  start _ := .makeState
  handle a st msg := (st.handleApplyMessage labgob gid (KV.toApplyMsg msg) maxraftstate
    a.overflow a.isLeader).map
      fun (st, snapshot) => (st, snapshot.map fun (index, data) => (index.toNat, data))

/-- What a command does to the state. -/
def applyCommand (gid : Int) (st : State) (op : Op) : Option State :=
  (st.applyOp gid op).map (·.1)

theorem handle_snapshot {a : Answers} {st st' : State} {i : Nat} {data : β}
    {snapshot : Option (Nat × β)} (h : (service labgob gid maxraftstate).handle a st
      (.snapshot i data) = some (st', snapshot)) :
    State.readSnapshot labgob data = some st' ∧ snapshot = none := by
  cases hr : State.readSnapshot labgob data with
  | none =>
    simp [service, KV.toApplyMsg, State.handleApplyMessage, State.installSnapshot, hr] at h
  | some x =>
    simp [service, KV.toApplyMsg, State.handleApplyMessage, State.installSnapshot, hr] at h
    rw [h.1, h.2]
    exact ⟨rfl, rfl⟩

theorem service_runs : (service labgob gid maxraftstate).Runs (State.readSnapshot labgob)
    (applyCommand gid) where
  start data st h := .inr rfl
  command a st i op st' snapshot h := by
    cases ha : st.applyOp gid op with
    | none =>
      simp [service, KV.toApplyMsg, State.handleApplyMessage, State.handleCommandApply, ha] at h
    | some r =>
      obtain ⟨st₁, msg⟩ := r
      simp only [service, KV.toApplyMsg, State.handleApplyMessage, State.handleCommandApply, ha,
        Bool.false_eq_true, if_false, if_true, Option.bind_eq_bind, Option.bind_some,
        Option.pure_def, Option.map_some, Option.some.injEq, Prod.mk.injEq] at h
      obtain ⟨rfl, rfl⟩ := h
      refine ⟨by rw [applyCommand, ha, Option.map_some], ?_⟩
      intro x hx
      obtain ⟨y, hy, rfl⟩ := Option.map_eq_some_iff.mp hx
      split at hy
      · obtain rfl := Option.some.inj hy
        simp [State.readSnapshot, State.makeSnapshot, labgob.decode_encode]
      · exact absurd hy (by simp)
  snapshot a st i data st' snapshot h := (handle_snapshot h).2

theorem takes {n : Nat} (w : Replicas n State β) (e : Feed n Answers) :
    w.Takes (service labgob gid maxraftstate) (State.readSnapshot labgob) e := by
  cases e with
  | deliver s a =>
    intro i data _ st' snapshot h
    exact .inl (handle_snapshot h).1
  | store s k => trivial
  | restart s => trivial

/-- A server that has consumed a message holds the outcome of the commands up to its index,
and every snapshot handed to Raft decodes to the outcome at its index. -/
def Transparent {n : Nat} {α σ : Type} (decode : β → Option σ) (apply : σ → α → Option σ)
    (makeState : σ) (cmds : List α) (w : Replicas n σ β) : Prop :=
  (∀ r ∈ w.consumed, Reached apply makeState cmds r.index r.state) ∧
    ∀ x ∈ w.made, Decodes decode apply makeState cmds x

/-- **Snapshots do not show, in `kvraft` and in `shardkv`.** -/
theorem snapshot_transparency (n : Nat) (β : Type) (maxraftstate : Int) :
    (∀ (labgob : Codec KV.Encoded β) (cmds : List (KV.Op n)) (w : Replicas n KV.State β)
      (past : List (Replicas n KV.State β)),
      Trace (Replicas.step (KV.service labgob maxraftstate) cmds) (fun _ _ => True)
        (Replicas.init (KV.service labgob maxraftstate : Service _ (KV.Op n) _ _)) (w :: past) →
      Transparent (KV.State.readSnapshot labgob) KV.applyCommand KV.State.makeState cmds w) ∧
    (∀ (labgob : Codec State β) (gid : Int) (cmds : List Op) (w : Replicas n State β)
      (past : List (Replicas n State β)),
      Trace (Replicas.step (service labgob gid maxraftstate) cmds) (fun _ _ => True)
        (Replicas.init (service labgob gid maxraftstate)) (w :: past) →
      Transparent (State.readSnapshot labgob) (applyCommand gid) State.makeState cmds w) := by
  constructor
  · intro labgob cmds w past h
    exact ⟨consumed_reached KV.service_runs (fun w e _ => KV.takes w e) h,
      made_reached KV.service_runs (fun w e _ => KV.takes w e) h⟩
  · intro labgob gid cmds w past h
    exact ⟨consumed_reached service_runs (fun w e _ => takes w e) h,
      made_reached service_runs (fun w e _ => takes w e) h⟩

/-- Bytes that are the state itself. -/
def plain (σ : Type) : Codec σ σ := ⟨id, some, fun _ => rfl⟩

/-- A server applies a command and takes a snapshot; the other one gets it, is started again and
gets it once more. -/
def sampleFeed {ι : Type} (a : ι) : List (Feed 2 ι) :=
  [.deliver 0 a, .store 1 0, .deliver 1 a, .restart 1, .deliver 1 a]

theorem sampleFeed_ends_kv : runEnds (Replicas.step (KV.service (plain KV.Encoded) 0)
      [(⟨0, 0, .put, "k", "v", 7, 1⟩ : KV.Op 2)]) (fun _ _ => True)
    (Replicas.init (KV.service (plain KV.Encoded) 0 : Service _ (KV.Op 2) _ _))
    (sampleFeed ⟨true, 3, 0⟩) (fun w _ => decide
      (w.consumed.map (fun r => (r.server, r.index, r.state.keyValueStore "k")) =
        [(0, 1, some "v"), (1, 1, some "v"), (1, 1, some "v")] ∧ w.made.length = 1)) = true := by
  decide +kernel

theorem sampleFeed_ends : runEnds (Replicas.step (service (plain State) 1 0)
      [createInstallShardConfigOp 0 ⟨1, fun _ => 1, ∅⟩]) (fun _ _ => True)
    (Replicas.init (service (plain State) 1 0)) (sampleFeed ⟨false, true⟩) (fun w _ => decide
      (w.consumed.map (fun r => (r.server, r.index, r.state.latestConfig.num)) =
        [(0, 1, 1), (1, 1, 1), (1, 1, 1)] ∧ w.made.length = 1)) = true := by
  decide +kernel

theorem snapshot_transparency_sampleFeed :
    (∃ w : Replicas 2 KV.State KV.Encoded,
      w.consumed.map (fun r => (r.server, r.index, r.state.keyValueStore "k")) =
        [(0, 1, some "v"), (1, 1, some "v"), (1, 1, some "v")] ∧
      Transparent (KV.State.readSnapshot (plain KV.Encoded)) KV.applyCommand KV.State.makeState
        [(⟨0, 0, .put, "k", "v", 7, 1⟩ : KV.Op 2)] w) ∧
    ∃ w : Replicas 2 State State,
      w.consumed.map (fun r => (r.server, r.index, r.state.latestConfig.num)) =
        [(0, 1, 1), (1, 1, 1), (1, 1, 1)] ∧
      Transparent (State.readSnapshot (plain State)) (applyCommand 1) State.makeState
        [createInstallShardConfigOp 0 ⟨1, fun _ => 1, ∅⟩] w := by
  constructor
  · obtain ⟨w, past, -, ht, hp⟩ := exists_of_runEnds sampleFeed_ends_kv
    exact ⟨w, (of_decide_eq_true hp).1, (snapshot_transparency 2 _ 0).1 _ _ w past ht⟩
  · obtain ⟨w, past, -, ht, hp⟩ := exists_of_runEnds sampleFeed_ends
    exact ⟨w, (of_decide_eq_true hp).1, (snapshot_transparency 2 _ 0).2 _ _ _ w past ht⟩

end ShardRaft.ShardKV
