import Mathlib.Logic.Function.Basic
import ShardRaft.Lib.Trace

/-!
# Replicas behind a log with compaction

Servers are fed one agreed sequence of commands by a log that may replace a prefix
of it by a snapshot some server has made there.  A `Service` says what a server does
with one message: its next state, and the snapshot it hands back, if any.  A snapshot
is what `decode` can read; a `Codec` is a pair of functions for that.

`consumed` records the state of a server after each message.  `Behind` is the
invariant: a server holds the state its position stands for, or it has just been
started and has received nothing yet.  `consumed_reached` says that a record is the
outcome of the commands up to its index, as long as each snapshot message leaves the
server in the snapshot's state or comes to a server that was started from that very
snapshot and keeps its state.  `made_reached` says the same of the snapshots, and
`reached_of_held` of every state there is, whichever prefix of the commands it stands for.
-/

namespace ShardRaft.Lib

variable {n : Nat} {ι α σ β : Type}

/-- An encoding that can be read back. -/
structure Codec (σ β : Type) where
  encode : σ → β
  decode : β → Option σ
  decode_encode : ∀ st, decode (encode st) = some st

/-- What the log sends to a server. -/
inductive Msg (α β : Type)
  | command (index : Nat) (op : α)
  | snapshot (index : Nat) (data : β)

/-- A server: how it is started on the snapshot it finds, and what it does with a
message, given the answers `ι` it gets from its surroundings. -/
structure Service (ι α σ β : Type) where
  start : Option β → σ
  handle : ι → σ → Msg α β → Option (σ × Option (Nat × β))

/-- A record: the server, the index of the message, and the state after it. -/
structure Consumed (n : Nat) (σ : Type) where
  server : Fin n
  index : Nat
  state : σ

/-- The servers, and the log as they see it.  `base` is the index of the snapshot a
server was started from, `stored` the snapshot the log at the server keeps and `made`
are all snapshots ever made. -/
structure Replicas (n : Nat) (σ β : Type) where
  state : Fin n → σ
  base : Fin n → Nat
  position : Fin n → Nat
  stored : Fin n → Option (Nat × β)
  made : List (Nat × β)
  consumed : List (Consumed n σ)

/-- What the environment chooses. -/
inductive Feed (n : Nat) (ι : Type)
  | deliver (s : Fin n) (answer : ι)
  | store (s : Fin n) (k : Nat)
  | restart (s : Fin n)
deriving DecidableEq, Repr

/-- The newer one of the snapshot that is there and one that comes. -/
def newer (old : Option (Nat × β)) (new : Nat × β) : Option (Nat × β) :=
  match old with
  | some o => if new.1 ≤ o.1 then some o else some new
  | none => some new

namespace Replicas

/-- Every server is started on an empty log. -/
def init (svc : Service ι α σ β) : Replicas n σ β where
  state _ := svc.start none
  base _ := 0
  position _ := 0
  stored _ := none
  made := []
  consumed := []

/-- The snapshot that the log at `s` has and the server does not. -/
def ahead (w : Replicas n σ β) (s : Fin n) : Option (Nat × β) :=
  (w.stored s).filter fun snapshot => w.position s < snapshot.1

/-- The next message for `s`, with its index. -/
def next (cmds : List α) (w : Replicas n σ β) (s : Fin n) : Option (Nat × Msg α β) :=
  match w.ahead s with
  | some (index, data) => some (index, .snapshot index data)
  | none => (cmds[w.position s]?).map fun op =>
      (w.position s + 1, .command (w.position s + 1) op)

/-- `s` has consumed the message with this index. -/
def consume (w : Replicas n σ β) (s : Fin n) (index : Nat) (state : σ)
    (snapshot : Option (Nat × β)) : Replicas n σ β where
  state := Function.update w.state s state
  base := w.base
  position := Function.update w.position s index
  stored := Function.update w.stored s (snapshot.elim (w.stored s) (newer (w.stored s)))
  made := w.made ++ snapshot.toList
  consumed := w.consumed ++ [⟨s, index, state⟩]

/-- One step. -/
def step (svc : Service ι α σ β) (cmds : List α) (w : Replicas n σ β) : Feed n ι → Option (Replicas n σ β)
  | .deliver s answer => do
    let (index, msg) ← w.next cmds s
    let (state, snapshot) ← svc.handle answer (w.state s) msg
    return w.consume s index state snapshot
  | .store s k => do
    let snapshot ← w.made[k]?
    return { w with stored := Function.update w.stored s (newer (w.stored s) snapshot) }
  | .restart s =>
    some { w with
      state := Function.update w.state s (svc.start ((w.stored s).map (·.2)))
      base := Function.update w.base s (((w.stored s).map (·.1)).getD 0)
      position := Function.update w.position s 0 }

end Replicas

/-! ### What a lawful service keeps -/

/-- The outcome of the first `i` commands. -/
def Reached (apply : σ → α → Option σ) (init : σ) (cmds : List α) (i : Nat) (st : σ) : Prop :=
  i ≤ cmds.length ∧ (cmds.take i).foldlM apply init = some st

/-- A snapshot of the outcome of the first commands. -/
def Decodes (decode : β → Option σ) (apply : σ → α → Option σ) (init : σ) (cmds : List α)
    (x : Nat × β) : Prop :=
  ∃ st, decode x.2 = some st ∧ Reached apply init cmds x.1 st

/-- A service that starts in the snapshot's state or afresh, runs `apply` on a command, and
hands back no other snapshot than one of the state it has just reached. -/
structure Service.Runs (svc : Service ι α σ β) (decode : β → Option σ)
    (apply : σ → α → Option σ) : Prop where
  start : ∀ x st, decode x = some st → svc.start (some x) = st ∨
    svc.start (some x) = svc.start none
  command : ∀ a st i op st' snap, svc.handle a st (.command i op) = some (st', snap) →
    apply st op = some st' ∧ ∀ x ∈ snap, x.1 = i ∧ decode x.2 = some st'
  snapshot : ∀ a st i x st' snap, svc.handle a st (.snapshot i x) = some (st', snap) →
    snap = none

/-- A server is started from the snapshot it finds. -/
def Service.Reads (svc : Service ι α σ β) (decode : β → Option σ) : Prop :=
  ∀ x st, decode x = some st → svc.start (some x) = st

/-- The step does not take `s` past a snapshot it ignores. -/
def Replicas.Takes (svc : Service ι α σ β) (decode : β → Option σ) (w : Replicas n σ β) :
    Feed n ι → Prop
  | .deliver s answer => ∀ i x, w.ahead s = some (i, x) → ∀ st' snap,
      svc.handle answer (w.state s) (.snapshot i x) = some (st', snap) →
        decode x = some st' ∨ (i = w.base s ∧ st' = w.state s ∧ svc.Reads decode)
  | _ => True

section Invariant

variable {svc : Service ι α σ β} {decode : β → Option σ} {apply : σ → α → Option σ}
  {cmds : List α}

/-- Every snapshot and every record is the outcome of the commands up to its index,
and so is the state of every server. -/
structure Behind (svc : Service ι α σ β) (decode : β → Option σ) (apply : σ → α → Option σ)
    (cmds : List α) (w : Replicas n σ β) : Prop where
  made : ∀ x ∈ w.made, Decodes decode apply (svc.start none) cmds x
  stored : ∀ s, ∀ x ∈ w.stored s, Decodes decode apply (svc.start none) cmds x
  consumed : ∀ r ∈ w.consumed, Reached apply (svc.start none) cmds r.index r.state
  base_le : ∀ s, w.base s ≤ (((w.stored s).map (·.1)).getD 0)
  state : ∀ s, (w.position s = 0 ∧ (Reached apply (svc.start none) cmds (w.base s) (w.state s) ∨
      ¬ svc.Reads decode ∧ w.state s = svc.start none)) ∨
    (w.base s ≤ w.position s ∧ Reached apply (svc.start none) cmds (w.position s) (w.state s))

theorem reached_zero {init : σ} : Reached apply init cmds 0 init :=
  ⟨Nat.zero_le _, by simp⟩

theorem Reached.succ {init : σ} {i : Nat} {st st' : σ} {op : α}
    (h : Reached apply init cmds i st) (hop : cmds[i]? = some op) (ha : apply st op = some st') :
    Reached apply init cmds (i + 1) st' := by
  obtain ⟨hi, hst⟩ := h
  obtain ⟨hlt, -⟩ := List.getElem?_eq_some_iff.mp hop
  refine ⟨hlt, ?_⟩
  rw [List.take_add_one, hop, Option.toList_some, List.foldlM_append, hst]
  simp [ha]

/-- Later commands do not change an outcome. -/
theorem Reached.append {init : σ} {i : Nat} {st : σ} (h : Reached apply init cmds i st)
    (l : List α) : Reached apply init (cmds ++ l) i st := by
  refine ⟨?_, ?_⟩
  · rw [List.length_append]
    exact Nat.le_trans h.1 (Nat.le_add_right _ _)
  · rw [List.take_append_of_le_length h.1]
    exact h.2

theorem Reached.unique {init : σ} {i : Nat} {st st' : σ} (h : Reached apply init cmds i st)
    (h' : Reached apply init cmds i st') : st = st' :=
  Option.some.inj (h.2.symm.trans h'.2)

/-- What every command keeps holds of the outcome. -/
theorem Reached.invariant {init st : σ} {i : Nat} {P : σ → Prop} (hinit : P init)
    (hcmd : ∀ op ∈ cmds, ∀ st st', P st → apply st op = some st' → P st')
    (h : Reached apply init cmds i st) : P st := by
  have hfold : ∀ (l : List α) (init : σ), P init → (∀ op ∈ l, op ∈ cmds) →
      l.foldlM apply init = some st → P st := by
    intro l
    induction l with
    | nil => intro init hinit _ h; exact Option.some.inj h ▸ hinit
    | cons op l ih =>
      intro init hinit hl h
      rw [List.foldlM_cons] at h
      obtain ⟨st₁, h₁, h⟩ := Option.bind_eq_some_iff.mp h
      exact ih st₁ (hcmd op (hl op List.mem_cons_self) init st₁ hinit h₁)
        (fun op' hop' => hl op' (List.mem_cons_of_mem _ hop')) h
  exact hfold _ init hinit (fun op hop => List.mem_of_mem_take hop) h.2

theorem newer_mem {old : Option (Nat × β)} {new x : Nat × β} (h : newer old new = some x) :
    old = some x ∨ x = new := by
  unfold newer at h
  split at h
  · split at h
    · exact .inl h
    · exact .inr (Option.some.inj h).symm
  · exact .inr (Option.some.inj h).symm

theorem le_newer (old : Option (Nat × β)) (new : Nat × β) :
    (old.map (·.1)).getD 0 ≤ ((newer old new).map (·.1)).getD 0 := by
  cases old with
  | none => simp
  | some o =>
    by_cases h : new.1 ≤ o.1
    · simp [newer, h]
    · simp only [newer, if_neg h, Option.map_some, Option.getD_some]
      omega

theorem behind_init : Behind svc decode apply cmds (Replicas.init svc : Replicas n σ β) where
  made x hx := absurd hx List.not_mem_nil
  stored s x hx := by simp [Replicas.init] at hx
  consumed r hr := absurd hr List.not_mem_nil
  base_le s := Nat.zero_le _
  state s := .inl ⟨rfl, .inl reached_zero⟩

theorem behind_consume {w : Replicas n σ β} (hw : Behind svc decode apply cmds w) {s : Fin n}
    {index : Nat} {st : σ} {snapshot : Option (Nat × β)} (hbase : w.base s ≤ index)
    (hst : Reached apply (svc.start none) cmds index st)
    (hsnap : ∀ x ∈ snapshot, x.1 = index ∧ decode x.2 = some st) :
    Behind svc decode apply cmds (w.consume s index st snapshot) := by
  have hsnap' : ∀ x ∈ snapshot, Decodes decode apply (svc.start none) cmds x := by
    intro x hx
    obtain ⟨hi, hd⟩ := hsnap x hx
    refine ⟨st, hd, ?_⟩
    rw [hi]
    exact hst
  constructor
  · intro x hx
    rcases List.mem_append.mp hx with hx | hx
    · exact hw.made x hx
    · exact hsnap' x (Option.mem_toList.mp hx)
  · intro s' x hx
    by_cases hs : s' = s
    · subst hs
      simp only [Replicas.consume, Function.update_self] at hx
      cases snapshot with
      | none => exact hw.stored s' x hx
      | some y =>
        rcases newer_mem hx with h | rfl
        · exact hw.stored s' x h
        · exact hsnap' x rfl
    · simp only [Replicas.consume, Function.update_of_ne hs] at hx
      exact hw.stored s' x hx
  · intro r hr
    rcases List.mem_append.mp hr with hr | hr
    · exact hw.consumed r hr
    · rw [List.mem_singleton.mp hr]
      exact hst
  · intro s'
    by_cases hs : s' = s
    · subst hs
      simp only [Replicas.consume, Function.update_self]
      cases snapshot with
      | none => exact hw.base_le s'
      | some y => exact Nat.le_trans (hw.base_le s') (le_newer _ _)
    · simp only [Replicas.consume, Function.update_of_ne hs]
      exact hw.base_le s'
  · intro s'
    by_cases hs : s' = s
    · subst hs
      simp only [Replicas.consume, Function.update_self]
      exact .inr ⟨hbase, hst⟩
    · simp only [Replicas.consume, Function.update_of_ne hs]
      exact hw.state s'

theorem ahead_eq_some {w : Replicas n σ β} {s : Fin n} {x : Nat × β} (h : w.ahead s = some x) :
    w.stored s = some x ∧ w.position s < x.1 := by
  obtain ⟨hx, hlt⟩ := Option.filter_eq_some_iff.mp h
  exact ⟨hx, of_decide_eq_true hlt⟩

/-- A server without a snapshot ahead of it has received all there was before it was started. -/
theorem base_le_position {w : Replicas n σ β} (hw : Behind svc decode apply cmds w) {s : Fin n}
    (h : w.ahead s = none) : w.base s ≤ w.position s := by
  have hb := hw.base_le s
  cases hst : w.stored s with
  | none =>
    rw [hst] at hb
    exact Nat.le_trans hb (Nat.zero_le _)
  | some x =>
    rw [hst] at hb
    have hnlt : ¬ w.position s < x.1 := by
      intro hlt
      rw [Replicas.ahead, hst, Option.filter_some, if_pos (decide_eq_true hlt)] at h
      exact absurd h (by simp)
    exact Nat.le_trans hb (Nat.le_of_not_lt hnlt)

theorem reached_position {w : Replicas n σ β} (hw : Behind svc decode apply cmds w) {s : Fin n}
    (h : w.base s ≤ w.position s) :
    Reached apply (svc.start none) cmds (w.position s) (w.state s) := by
  rcases hw.state s with ⟨h0, hr | ⟨-, hr⟩⟩ | ⟨-, hr⟩
  · rw [h0] at h ⊢
    rwa [Nat.le_zero.mp h] at hr
  · rw [h0, hr]
    exact reached_zero
  · exact hr

theorem behind_deliver (hsvc : svc.Runs decode apply) {w w' : Replicas n σ β} {s : Fin n}
    {answer : ι} (hw : Behind svc decode apply cmds w)
    (hok : w.Takes svc decode (.deliver s answer))
    (h : w.step svc cmds (.deliver s answer) = some w') : Behind svc decode apply cmds w' := by
  obtain ⟨⟨index, msg⟩, hn, h⟩ := Option.bind_eq_some_iff.mp h
  obtain ⟨⟨st, snapshot⟩, hh, h⟩ := Option.bind_eq_some_iff.mp h
  rw [← Option.some.inj h]
  unfold Replicas.next at hn
  cases ha : w.ahead s with
  | some x =>
    obtain ⟨i, x⟩ := x
    rw [ha] at hn
    obtain ⟨rfl, rfl⟩ := Prod.mk.inj (Option.some.inj hn)
    obtain ⟨hst, hlt⟩ := ahead_eq_some ha
    obtain ⟨st₀, hd, hx⟩ := hw.stored s _ hst
    have hb : w.base s ≤ i := by
      have hb := hw.base_le s
      rwa [hst] at hb
    have hsnap : ∀ y ∈ snapshot, y.1 = i ∧ decode y.2 = some st := by
      rw [hsvc.snapshot _ _ _ _ _ _ hh]
      intro y hy
      exact absurd hy (by simp)
    rcases hok i x ha st snapshot hh with hd' | ⟨hi, rfl, hreads⟩
    · rw [Option.some.inj (hd.symm.trans hd')] at hx
      exact behind_consume hw hb hx hsnap
    · -- the message about the snapshot the server was started from
      rcases hw.state s with ⟨-, hr | ⟨hnot, -⟩⟩ | ⟨hle, -⟩
      · rw [← hi] at hr
        exact behind_consume hw hb hr hsnap
      · exact absurd hreads hnot
      · exact absurd hlt (by rw [hi]; exact Nat.not_lt.mpr hle)
  | none =>
    rw [ha] at hn
    obtain ⟨op, hop, hn⟩ := Option.map_eq_some_iff.mp hn
    obtain ⟨rfl, rfl⟩ := Prod.mk.inj hn
    obtain ⟨hap, hsnap⟩ := hsvc.command _ _ _ _ _ _ hh
    have hb := base_le_position hw ha
    have hr := (reached_position hw hb).succ hop hap
    exact behind_consume hw (Nat.le_trans hb (Nat.le_succ _)) hr hsnap

theorem behind_store {w w' : Replicas n σ β} {s : Fin n} {k : Nat}
    (hw : Behind svc decode apply cmds w) (h : w.step svc cmds (.store s k) = some w') :
    Behind svc decode apply cmds w' := by
  obtain ⟨x, hx, h⟩ := Option.bind_eq_some_iff.mp h
  rw [← Option.some.inj h]
  have hmade := hw.made x (List.mem_of_getElem? hx)
  refine ⟨hw.made, ?_, hw.consumed, ?_, hw.state⟩
  · intro s' y hy
    by_cases hs : s' = s
    · subst hs
      simp only [Function.update_self] at hy
      rcases newer_mem hy with hy | rfl
      · exact hw.stored s' y hy
      · exact hmade
    · simp only [Function.update_of_ne hs] at hy
      exact hw.stored s' y hy
  · intro s'
    by_cases hs : s' = s
    · subst hs
      simp only [Function.update_self]
      exact Nat.le_trans (hw.base_le s') (le_newer _ _)
    · simp only [Function.update_of_ne hs]
      exact hw.base_le s'

theorem behind_restart (hsvc : svc.Runs decode apply) {w w' : Replicas n σ β} {s : Fin n}
    (hw : Behind svc decode apply cmds w) (h : w.step svc cmds (.restart s) = some w') :
    Behind svc decode apply cmds w' := by
  rw [← Option.some.inj h]
  refine ⟨hw.made, hw.stored, hw.consumed, ?_, ?_⟩
  · intro s'
    by_cases hs : s' = s
    · subst hs
      simp only [Function.update_self, Nat.le_refl]
    · simp only [Function.update_of_ne hs]
      exact hw.base_le s'
  · intro s'
    by_cases hs : s' = s
    · subst hs
      simp only [Function.update_self]
      left
      refine ⟨trivial, ?_⟩
      cases hst : w.stored s' with
      | none => exact .inl reached_zero
      | some x =>
        rw [Option.map_some, Option.map_some]
        obtain ⟨st, hd, hr⟩ := hw.stored s' x hst
        by_cases hreads : svc.Reads decode
        · left
          rw [hreads _ st hd]
          exact hr
        · rcases hsvc.start _ st hd with heq | heq
          · left
            rw [heq]
            exact hr
          · exact .inr ⟨hreads, heq⟩
    · simp only [Function.update_of_ne hs]
      exact hw.state s'

/-- **A step keeps every server in line with its position.** -/
theorem behind_step (hsvc : svc.Runs decode apply) {w w' : Replicas n σ β} {e : Feed n ι}
    (hw : Behind svc decode apply cmds w) (hok : w.Takes svc decode e)
    (h : w.step svc cmds e = some w') : Behind svc decode apply cmds w' := by
  cases e with
  | deliver s answer => exact behind_deliver hsvc hw hok h
  | store s k => exact behind_store hw h
  | restart s => exact behind_restart hsvc hw h

theorem behind_run (hsvc : svc.Runs decode apply) {ok : Replicas n σ β → Feed n ι → Prop}
    (hok : ∀ w e, ok w e → w.Takes svc decode e) {w : Replicas n σ β}
    {past : List (Replicas n σ β)}
    (h : Trace (Replicas.step svc cmds) ok (Replicas.init svc) (w :: past)) :
    Behind svc decode apply cmds w :=
  Trace.invariant (I := Behind svc decode apply cmds) behind_init
    (fun w _ e hw ho hs => behind_step hsvc hw (hok w e ho) hs) _ h w (List.mem_cons_self ..)

/-- **Every record is the outcome of the commands up to its index.** -/
theorem consumed_reached (hsvc : svc.Runs decode apply) {ok : Replicas n σ β → Feed n ι → Prop}
    (hok : ∀ w e, ok w e → w.Takes svc decode e) {w : Replicas n σ β}
    {past : List (Replicas n σ β)}
    (h : Trace (Replicas.step svc cmds) ok (Replicas.init svc) (w :: past)) :
    ∀ r ∈ w.consumed, Reached apply (svc.start none) cmds r.index r.state :=
  (behind_run hsvc hok h).consumed

/-- **Every snapshot decodes to the outcome of the commands up to its index.** -/
theorem made_reached (hsvc : svc.Runs decode apply) {ok : Replicas n σ β → Feed n ι → Prop}
    (hok : ∀ w e, ok w e → w.Takes svc decode e) {w : Replicas n σ β}
    {past : List (Replicas n σ β)}
    (h : Trace (Replicas.step svc cmds) ok (Replicas.init svc) (w :: past)) :
    ∀ x ∈ w.made, Decodes decode apply (svc.start none) cmds x :=
  (behind_run hsvc hok h).made

/-- A state that is somewhere in the system: at a server, in a record or in a snapshot. -/
inductive Replicas.Held (decode : β → Option σ) (w : Replicas n σ β) : σ → Prop
  | server (s : Fin n) : Held decode w (w.state s)
  | record (r : Consumed n σ) (hr : r ∈ w.consumed) : Held decode w r.state
  | made (x : Nat × β) (hx : x ∈ w.made) (st : σ) (hd : decode x.2 = some st) : Held decode w st
  | stored (s : Fin n) (x : Nat × β) (hx : x ∈ w.stored s) (st : σ) (hd : decode x.2 = some st) :
      Held decode w st

theorem Decodes.reached {init st : σ} {x : Nat × β} (h : Decodes decode apply init cmds x)
    (hd : decode x.2 = some st) : Reached apply init cmds x.1 st := by
  obtain ⟨st', hd', hr⟩ := h
  rwa [Option.some.inj (hd.symm.trans hd')]

/-- **Every state in the system is the outcome of some prefix of the commands.** -/
theorem reached_of_held {w : Replicas n σ β} (hw : Behind svc decode apply cmds w) {st : σ}
    (h : w.Held decode st) : ∃ i, Reached apply (svc.start none) cmds i st := by
  cases h with
  | server s =>
    rcases hw.state s with ⟨-, hr | ⟨-, hr⟩⟩ | ⟨-, hr⟩
    · exact ⟨_, hr⟩
    · exact ⟨0, hr ▸ reached_zero⟩
    · exact ⟨_, hr⟩
  | record r hr => exact ⟨_, hw.consumed r hr⟩
  | made x hx st hd => exact ⟨_, (hw.made x hx).reached hd⟩
  | stored s x hx st hd => exact ⟨_, (hw.stored s x hx).reached hd⟩

end Invariant

end ShardRaft.Lib
