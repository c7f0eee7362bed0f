import ShardRaft.Lib.Replicas
import ShardRaft.Raft.LogSafety
import ShardRaft.Raft.Sources

/-!
# A replicated service on top of the cluster

`World` leaves the services open: what is handed to them is put on `applyCh`, and they may
call `Start` and `Snapshot` as they like.  Here every server has a service, a
`StateMachine`, and its apply loop is the one `applyTicker` of the source:

* `receive`: the loop takes the next message from `applyCh` and handles it.  The handler
  may decide to call `rf.Snapshot`; the call itself is a step of its own (`snapshot`), and
  until it is made the loop takes no other message (`owed`).  Steps of Raft may come in
  between.
* `restart`: the service is started again on what the persister holds.
* `raft`: any other step of Raft (`Internal`).

A state machine is lawful (`Lawful`) if a command message runs `apply`, a snapshot message
leaves the decoded state, the filler changes nothing, and what goes to `rf.Snapshot`
decodes to the state just reached.
-/

namespace ShardRaft.Raft

open ShardRaft.Lib

variable {n : Nat} {ι C D σ : Type}

/-- A service as Raft sees it: how it is started on the bytes of the persister, and what
its apply loop does with a message, given the answers `ι` it gets from elsewhere; the
second result goes to `rf.Snapshot`. -/
structure StateMachine (ι C D σ : Type) where
  start : Option D → σ
  handle : ι → σ → ApplyMsg C D → Option (σ × Option (Int × D))

/-- What a service has to do to be replicated. -/
structure StateMachine.Lawful (sm : StateMachine ι C D σ) (decode : D → Option σ)
    (apply : σ → C → Option σ) : Prop where
  start : ∀ d st, decode d = some st → sm.start (some d) = st ∨ sm.start (some d) = sm.start none
  command : ∀ a st c i st' snap, sm.handle a st
      { commandValid := true, command := some c, commandIndex := i } = some (st', snap) →
    apply st c = some st' ∧ ∀ x ∈ snap, x.1 = i ∧ decode x.2 = some st'
  filler : ∀ a st c st' snap, sm.handle a st
      { commandValid := false, command := some c, commandIndex := 0 } = some (st', snap) →
    st' = st ∧ snap = none
  snapshot : ∀ a st d i t st' snap, sm.handle a st
      { snapshotValid := true, snapshot := some d, snapshotTerm := t, snapshotIndex := i } =
        some (st', snap) →
    decode d = some st' ∧ snap = none

/-- The cluster, its services, and the calls of `rf.Snapshot` that apply loops still owe. -/
structure System (n : Nat) (C D σ : Type) where
  raft : World n C D
  state : Fin n → σ
  owed : Fin n → Option (Int × D)

/-- What the environment chooses. -/
inductive System.Event (ι C D : Type) (n : Nat)
  | raft (e : Raft.Event C D n)
  | receive (i : Fin n) (answer : ι)
  | snapshot (i : Fin n)
  | restart (i : Fin n)
deriving DecidableEq, Repr

namespace World

/-- A step of Raft in which no service takes part. -/
def Internal (w : World n C D) : Event C D n → Bool
  | .applyNext i => (w.pending i).isEmpty
  | .snapshot _ _ _ | .restart _ => false
  | _ => true

end World

namespace System

/-- Every service is started on an empty persister. -/
def init [Inhabited C] (sm : StateMachine ι C D σ) : System n C D σ where
  raft := .init
  state _ := sm.start none
  owed _ := none

/-- The apply loop of `i` takes the next message and handles it. -/
def receive (sm : StateMachine ι C D σ) (m : System n C D σ) (i : Fin n) (answer : ι) :
    Option (System n C D σ) :=
  if (m.owed i).isSome then none else
    match m.raft.pending i with
    | [] => none
    | msg :: _ => do
      let raft ← m.raft.applyNext i
      let (st, snapshot) ← sm.handle answer (m.state i) msg
      return {
        raft := raft
        state := Function.update m.state i st
        owed := Function.update m.owed i snapshot }

/-- **One step of the system.** -/
def step [Inhabited C] (sm : StateMachine ι C D σ) (m : System n C D σ) :
    Event ι C D n → Option (System n C D σ)
  | .raft e => if m.raft.Internal e then do return { m with raft := ← m.raft.step e } else none
  | .receive i answer => m.receive sm i answer
  | .snapshot i =>
    match m.owed i with
    | none => none
    | some (index, data) => do
      let raft ← m.raft.step (.snapshot i index data)
      return { m with raft := raft, owed := Function.update m.owed i none }
  | .restart i =>
    some {
      raft := m.raft.restart i
      state := Function.update m.state i (sm.start (m.raft.rafts i).persister.snapshot)
      owed := Function.update m.owed i none }

/-- The steps of Raft are careful; the services need not be. -/
def Careful (m : System n C D σ) : Event ι C D n → Prop
  | .raft e => m.raft.Careful e
  | _ => True

instance (m : System n C D σ) : DecidablePred (m.Careful : Event ι C D n → Prop)
  | .raft e => inferInstanceAs (Decidable (m.raft.Careful e))
  | .receive _ _ | .snapshot _ | .restart _ => .isTrue trivial

end System

/-! ### The agreed sequence -/

/-- The commands that stand after the filler. -/
def commandsOf (l : List (LogEntity C)) : List C := (l.drop 1).map (·.action)

theorem getElem?_commandsOf (l : List (LogEntity C)) (k : Nat) :
    (commandsOf l)[k]? = l[k + 1]?.map (·.action) := by
  rw [commandsOf, List.getElem?_map, List.getElem?_drop, Nat.add_comm]

/-- The commands of something that was committed. -/
def Agreed (h : Hist n C) (log : List C) : Prop :=
  ∃ t l, h.Committed t l ∧ log = commandsOf l

section agreed

variable {h h' : Hist n C} {log log' : List C}

theorem agreed_nil : Agreed h [] := ⟨0, [], .inl rfl, rfl⟩

theorem Agreed.mono (ha : Agreed h log) (he : h.Extends h' baseTerm) : Agreed h' log := by
  obtain ⟨t, l, hc, rfl⟩ := ha
  exact ⟨t, l, he.committed hc, rfl⟩

/-- Of two agreed sequences, one continues the other. -/
theorem Agreed.comparable (hs : h.Sound LogEntity.term baseTerm Quorum) (ha : Agreed h log)
    (ha' : Agreed h log') : log <+: log' ∨ log' <+: log := by
  obtain ⟨t, l, hc, rfl⟩ := ha
  obtain ⟨t', l', hc', rfl⟩ := ha'
  have hmap : ∀ {a b : List (LogEntity C)}, a <+: b → commandsOf a <+: commandsOf b :=
    fun hab => (hab.drop 1).map _
  exact (hs.committed_comparable hc hc').imp hmap hmap

/-- A committed entry stands where the agreed sequence has its command. -/
theorem Agreed.get (hs : h.Sound LogEntity.term baseTerm Quorum) (ha : Agreed h log) {T : Int}
    {p : List (LogEntity C)} (hc : h.commits T p) {k : Nat} {e : LogEntity C}
    (he : p[k + 1]? = some e) (hk : k < log.length) : log[k]? = some e.action := by
  have hp : (commandsOf p)[k]? = some e.action := by rw [getElem?_commandsOf, he]; rfl
  have hlt := (List.getElem?_eq_some_iff.mp hp).1
  have hpa : Agreed h (commandsOf p) := ⟨T, p, .inr ⟨T, p, hc, le_rfl, List.prefix_rfl⟩, rfl⟩
  rcases ha.comparable hs hpa with hpre | hpre
  · rw [← hp, List.getElem?_eq_getElem hk, (List.prefix_iff_getElem?.mp hpre) k hk]
  · rw [(List.prefix_iff_getElem?.mp hpre) k hlt, ← hp, List.getElem?_eq_getElem hlt]

theorem Agreed.grow (hs : h.Sound LogEntity.term baseTerm Quorum) (ha : Agreed h log) {T : Int}
    {p : List (LogEntity C)} (hc : h.commits T p) {e : LogEntity C}
    (he : p[log.length + 1]? = some e) : Agreed h (log ++ [e.action]) := by
  have hp : (commandsOf p)[log.length]? = some e.action := by rw [getElem?_commandsOf, he]; rfl
  have hlt := (List.getElem?_eq_some_iff.mp hp).1
  have hpa : Agreed h (commandsOf p) := ⟨T, p, .inr ⟨T, p, hc, le_rfl, List.prefix_rfl⟩, rfl⟩
  have hpre : log <+: commandsOf p := by
    rcases ha.comparable hs hpa with hpre | hpre
    · exact hpre
    · have := hpre.length_le
      omega
  refine ⟨T, p.take (log.length + 2), .inr ⟨T, p, hc, le_rfl, List.take_prefix ..⟩, ?_⟩
  have htake : commandsOf (p.take (log.length + 2)) = (commandsOf p).take (log.length + 1) := by
    rw [commandsOf, commandsOf, List.drop_take, List.map_take]
    rfl
  rw [htake, List.take_add_one, hp, ← List.prefix_iff_eq_take.mp hpre]
  rfl

end agreed

/-! ### What the services see of a step -/

namespace World

theorem careful_of_picked {w : World n C D} {e : Raft.Event C D n} (h : w.picked e = none) :
    w.Careful e := by
  refine ⟨⟨?_, ?_⟩, ?_, ?_⟩ <;>
  · intro x hx
    rw [h] at hx
    exact absurd hx (by simp)

variable [Inhabited C]

/-- **A step in which no service takes part** leaves what was sent alone, and replaces a
batch only by the next one. -/
theorem quiet_of_move {w w' : World n C D} {e : Raft.Event C D n} (hm : Move w e w')
    (hr : ∀ i, e ≠ .restart i) (hsend : ∀ i, e = .applyNext i → w.pending i = []) :
    w'.applyCh = w.applyCh ∧ ∀ i, w'.pending i = w.pending i ∨
      (w.pending i = [] ∧ ∃ rf', Peer.ApplyOutcome (w.rafts i) rf' (w'.pending i)) := by
  cases hm with
  | collect k i next rf' msgs ht hn ho =>
    refine ⟨rfl, ?_⟩
    intro j
    by_cases hj : j = i
    · subst hj
      have hp : ({ (w.take k).update j rf' [] with
          applying := Function.update w.applying j (some (msgs, next)) } :
            World n C D).pending j = msgs := by
        simp [pending, Function.update_self]
      rw [hp]
      exact .inr ⟨by simp [pending, hn], rf', ho⟩
    · left
      simp [pending, Function.update_of_ne hj]
  | send i next msg msgs ha =>
    have := hsend i rfl
    simp [pending, ha] at this
  | release i next ha =>
    refine ⟨rfl, ?_⟩
    intro j
    left
    by_cases hj : j = i
    · simp [pending, hj, ha]
    · simp [pending, Function.update_of_ne hj]
  | restart i => exact absurd rfl (hr i)
  | _ => exact ⟨rfl, fun _ => .inl rfl⟩

omit [Inhabited C] in
theorem step_applyNext {w w' : World n C D} {i : Fin n} {msg : ApplyMsg C D}
    {msgs : List (ApplyMsg C D)} (hp : w.pending i = msg :: msgs) (h : w.applyNext i = some w') :
    w'.rafts = w.rafts ∧ w'.applyCh = Function.update w.applyCh i (w.applyCh i ++ [msg]) ∧
      w'.pending = Function.update w.pending i msgs := by
  unfold applyNext at h
  cases ha : w.applying i with
  | none => simp [pending, ha] at hp
  | some x =>
    obtain ⟨l, next⟩ := x
    obtain rfl : l = msg :: msgs := by simpa [pending, ha] using hp
    rw [ha] at h
    rw [← Option.some.inj h]
    refine ⟨rfl, rfl, ?_⟩
    funext j
    by_cases hj : j = i
    · simp [pending, hj]
    · simp [pending, Function.update_of_ne hj]

end World

end ShardRaft.Raft
