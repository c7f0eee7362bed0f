import ShardRaft.Service.StartCh

/-!
# The apply loop and the handlers

The apply loop is blocked for good when it sends on a channel from which no handler will
receive: the handler is waiting for `kv.mu`, which the apply loop holds (`Deadlocked`).
There are two ways into this state, and `Patient` excludes them.

* The handler leaves while the apply loop is sending on its channel: the timer fires, or
  `Start` refuses the op of a request that an earlier op has brought this far.
* The apply loop finds a channel whose handler has left, but has not got `kv.mu` yet to
  remove it.

A run is free of deadlocks exactly if it excludes both (`never_deadlocked`).
-/

namespace ShardRaft.Service

open ShardRaft.Lib

variable {Op K Msg : Type}

namespace Server

/-- Some handler may still receive from the channel. -/
def Heard (srv : Server Op K Msg) (ch : Nat) : Prop := ∃ h ∈ srv.handlers, h.listensOn = some ch

/-- The apply loop sends on a channel from which nobody will receive. -/
def Deadlocked (srv : Server Op K Msg) : Prop := ∃ x ∈ srv.sending, ¬ srv.Heard x.2.1

instance (srv : Server Op K Msg) (ch : Nat) : Decidable (srv.Heard ch) :=
  inferInstanceAs (Decidable (∃ h ∈ srv.handlers, h.listensOn = some ch))

instance (srv : Server Op K Msg) : Decidable srv.Deadlocked :=
  inferInstanceAs (Decidable (∃ x ∈ srv.sending, ¬ srv.Heard x.2.1))

theorem handleCommandApply_eq_some {sh : Shape Op K} {srv srv' : Server Op K Msg} {op : Op}
    {msg : Msg}
    (h : srv.handleCommandApply sh op msg = some srv') : srv.sending = none ∧
      srv' = { srv with sending := (srv.answersOn sh op).map fun ch => (op, ch, msg) } := by
  unfold handleCommandApply at h
  split at h
  · exact absurd h (by simp)
  · rename_i hn
    exact ⟨Option.not_isSome_iff_eq_none.mp hn, (Option.some.inj h).symm⟩

theorem answersOn_foreign {sh : Shape Op K} {srv : Server Op K Msg} {op : Op}
    (hf : ¬ (sh.mine op = true ∧ sh.needSendBackCh op = true)) :
    srv.answersOn sh op = none := by
  unfold answersOn Table.opChannelMatch
  by_cases hneed : sh.needSendBackCh op = true
  · rw [if_pos hneed, if_neg (fun hm => hf ⟨hm, hneed⟩)]
  · rw [if_neg hneed]

variable [DecidableEq K]

/-- No handler leaves its channel to the apply loop, and the apply loop finds none that a
handler has left. -/
def Patient (sh : Shape Op K) (srv : Server Op K Msg) : Event Op Msg → Prop
  | .start k false | .timeout k => ∀ h ∈ srv.handlers[k]?, ∀ x ∈ srv.sending,
      h.listensOn ≠ some x.2.1
  | .apply k _ => ∀ op ∈ srv.started[k]?, ∀ ch ∈ srv.answersOn sh op, srv.Heard ch
  | _ => True

/-! ### The steps written out -/

/-- One step of the server. -/
inductive Move (sh : Shape Op K) (srv : Server Op K Msg) : Event Op Msg → Server Op K Msg → Prop
  | called (op : Op) : srv.sending = none →
      Move sh srv (.call op) { srv with
        table := (srv.table.createStartCh sh op).1
        handlers := srv.handlers ++ [.opened op srv.table.channels.length] }
  | started (k : Nat) (op : Op) (ch : Nat) : srv.handlers[k]? = some (.opened op ch) →
      Move sh srv (.start k true)
        { srv.setHandler k (.waiting op ch) with started := srv.started ++ [op] }
  | refused (k : Nat) (op : Op) (ch : Nat) : srv.handlers[k]? = some (.opened op ch) →
      Move sh srv (.start k false) (srv.setHandler k (.refused op))
  | closed (k : Nat) (op : Op) (ch : Nat) : srv.handlers[k]? = some (.waiting op ch) →
      srv.table.isClosed ch = true →
      Move sh srv (.receiveClosed k) (srv.setHandler k (.received op none))
  | timedOut (k : Nat) (op : Op) (ch : Nat) : srv.handlers[k]? = some (.waiting op ch) →
      Move sh srv (.timeout k) (srv.setHandler k (.timedOut op))
  | finished (k : Nat) (op : Op) (h : Handler Op Msg) (table : Table Op K) : srv.sending = none →
      srv.handlers[k]? = some h → leaving h = some op →
      srv.table.deleteStartCh sh op = some table →
      Move sh srv (.finish k) { srv.setHandler k .returned with table := table }
  | applied (k : Nat) (op : Op) (msg : Msg) : srv.sending = none → srv.started[k]? = some op →
      Move sh srv (.apply k msg) { srv with
        sending := (srv.answersOn sh op).map fun ch => (op, ch, msg) }
  | passed (op : Op) (msg : Msg) : Move sh srv (.foreign op msg) srv
  | signalled (k : Nat) (op op' : Op) (ch : Nat) (msg : Msg) (table : Table Op K) :
      srv.sending = some (op, ch, msg) → srv.handlers[k]? = some (.waiting op' ch) →
      srv.table.deleteStartCh sh op = some table →
      Move sh srv (.signal k)
        { srv.setHandler k (.received op' (some msg)) with table := table, sending := none }
  | restarted : Move sh srv .restart { init with started := srv.started }

variable {sh : Shape Op K} {srv srv' : Server Op K Msg}

theorem move_of_call {op : Op} (h : srv.call sh op = some srv') : Move sh srv (.call op) srv' := by
  unfold call at h
  split at h
  · exact absurd h (by simp)
  · rename_i hn
    cases h
    exact .called op (Option.not_isSome_iff_eq_none.mp (by tauto))

theorem move_of_start {k : Nat} {isLeader : Bool} (h : srv.start k isLeader = some srv') :
    Move sh srv (.start k isLeader) srv' := by
  unfold start at h
  split at h
  · rename_i op ch hk
    cases isLeader with
    | true => cases h; exact .started k op ch hk
    | false => cases h; exact .refused k op ch hk
  · exact absurd h (by simp)

theorem move_of_receiveClosed {k : Nat} (h : srv.receiveClosed k = some srv') :
    Move sh srv (.receiveClosed k) srv' := by
  unfold receiveClosed at h
  split at h
  · rename_i op ch hk
    split at h
    · rename_i hc
      cases h
      exact .closed k op ch hk hc
    · exact absurd h (by simp)
  · exact absurd h (by simp)

theorem move_of_timeout {k : Nat} (h : srv.timeout k = some srv') :
    Move sh srv (.timeout k) srv' := by
  unfold timeout at h
  split at h
  · rename_i op ch hk
    cases h
    exact .timedOut k op ch hk
  · exact absurd h (by simp)

theorem move_of_finish {k : Nat} (h : srv.finish sh k = some srv') :
    Move sh srv (.finish k) srv' := by
  unfold finish at h
  split at h
  · exact absurd h (by simp)
  · rename_i hn
    obtain ⟨hd, hk, h⟩ := Option.bind_eq_some_iff.mp h
    obtain ⟨op, hl, h⟩ := Option.bind_eq_some_iff.mp h
    obtain ⟨table, ht, h⟩ := Option.bind_eq_some_iff.mp h
    cases h
    exact .finished k op hd table (Option.not_isSome_iff_eq_none.mp hn) hk hl ht

theorem move_of_signal {k : Nat} (h : srv.signal sh k = some srv') :
    Move sh srv (.signal k) srv' := by
  unfold signal at h
  split at h
  · rename_i op ch msg op' ch' hs hk
    split at h
    · exact absurd h (by simp)
    · split at h
      · rename_i heq
        obtain ⟨table, ht, h⟩ := Option.bind_eq_some_iff.mp h
        cases h
        subst heq
        exact .signalled k op op' ch' msg table hs hk ht
      · exact absurd h (by simp)
  · exact absurd h (by simp)

/-- **The relation is the step function.** -/
theorem move_of_step {e : Event Op Msg} (h : srv.step sh e = some srv') : Move sh srv e srv' := by
  cases e with
  | call op => exact move_of_call h
  | start k isLeader => exact move_of_start h
  | receiveClosed k => exact move_of_receiveClosed h
  | timeout k => exact move_of_timeout h
  | finish k => exact move_of_finish h
  | apply k msg =>
    obtain ⟨op, hop, h⟩ := Option.bind_eq_some_iff.mp h
    obtain ⟨hn, rfl⟩ := handleCommandApply_eq_some h
    exact .applied k op msg hn hop
  | foreign op msg =>
    have h : (if sh.mine op = true ∧ sh.needSendBackCh op = true then none
      else srv.handleCommandApply sh op msg) = some srv' := h
    split at h
    · exact absurd h (by simp)
    · rename_i hf
      obtain ⟨hn, heq⟩ := handleCommandApply_eq_some h
      rw [answersOn_foreign hf, Option.map_none, ← hn] at heq
      rw [heq]
      exact .passed op msg
  | signal k => exact move_of_signal h
  | restart => cases h; exact .restarted

end Server

/-! ### The table -/

section table

variable {t t' : Table Op K} {sh : Shape Op K} {op : Op}

/-- What is registered is open, and no channel is registered twice. -/
structure Table.Sound (t : Table Op K) : Prop where
  open_ : ∀ x y, t.startChannels x = some y → t.channels[y.replyChannel]? = some false
  apart : ∀ x x' y y', t.startChannels x = some y → t.startChannels x' = some y' →
    y.replyChannel = y'.replyChannel → x = x'

theorem Table.Sound.lt (h : t.Sound) {x : K} {y : OpReplyChannel Op}
    (hx : t.startChannels x = some y) : y.replyChannel < t.channels.length :=
  (List.getElem?_eq_some_iff.mp (h.open_ x y hx)).1

variable [DecidableEq K]

theorem Table.startChannels_create {x : K} {y : OpReplyChannel Op}
    (hx : (t.createStartCh sh op).1.startChannels x = some y) :
    (x = sh.request op ∧ y.replyChannel = t.channels.length) ∨ t.startChannels x = some y := by
  have hx : Function.update t.startChannels (sh.request op) (some ⟨op, t.channels.length⟩) x =
      some y := hx
  by_cases hr : x = sh.request op
  · rw [hr, Function.update_self] at hx
    cases hx
    exact .inl ⟨hr, rfl⟩
  · rw [Function.update_of_ne hr] at hx
    exact .inr hx

theorem Table.startChannels_delete {x : K} {y : OpReplyChannel Op}
    (ht : t.deleteStartCh sh op = some t') (hx : t'.startChannels x = some y) :
    x ≠ sh.request op ∧ t.startChannels x = some y := by
  unfold deleteStartCh at ht
  split at ht
  · rename_i hg
    cases ht
    refine ⟨?_, hx⟩
    intro hr
    rw [hr] at hx
    exact absurd (hg.symm.trans hx) (by simp)
  · split at ht
    · exact absurd ht (by simp)
    · cases ht
      have hx : Function.update t.startChannels (sh.request op) none x = some y := hx
      by_cases hr : x = sh.request op
      · rw [hr, Function.update_self] at hx
        exact absurd hx (by simp)
      · rw [Function.update_of_ne hr] at hx
        exact ⟨hr, hx⟩

theorem Table.Sound.create (h : t.Sound) : (t.createStartCh sh op).1.Sound := by
  constructor
  · intro x y hx
    change (t.channels ++ [false])[y.replyChannel]? = some false
    rcases startChannels_create hx with ⟨-, hy⟩ | hx
    · rw [hy, List.getElem?_concat_length]
    · rw [List.getElem?_append_left (h.lt hx)]
      exact h.open_ x y hx
  · intro x x' y y' hx hx' heq
    rcases startChannels_create hx with ⟨hr, hy⟩ | hx
    · rcases startChannels_create hx' with ⟨hr', -⟩ | hx'
      · exact hr.trans hr'.symm
      · have := h.lt hx'
        omega
    · rcases startChannels_create hx' with ⟨-, hy'⟩ | hx'
      · have := h.lt hx
        omega
      · exact h.apart x x' y y' hx hx' heq

theorem Table.Sound.delete (h : t.Sound) (ht : t.deleteStartCh sh op = some t') : t'.Sound := by
  constructor
  · intro x y hx
    obtain ⟨hr, hold⟩ := startChannels_delete ht hx
    unfold deleteStartCh at ht
    split at ht
    · cases ht
      exact h.open_ x y hold
    · rename_i startCh hg
      split at ht
      · exact absurd ht (by simp)
      · cases ht
        -- another channel is closed
        change (t.channels.set startCh.replyChannel true)[y.replyChannel]? = some false
        rw [List.getElem?_set_ne (fun heq => hr (h.apart x _ y startCh hold hg heq.symm))]
        exact h.open_ x y hold
  · intro x x' y y' hx hx'
    exact h.apart x x' y y' (startChannels_delete ht hx).2 (startChannels_delete ht hx').2

theorem Table.length_delete (ht : t.deleteStartCh sh op = some t') :
    t'.channels.length = t.channels.length := by
  unfold deleteStartCh at ht
  split at ht
  · cases ht; rfl
  · split at ht
    · exact absurd ht (by simp)
    · cases ht
      exact List.length_set ..

end table

/-! ### The handlers -/

section handlers

variable {hs : List (Handler Op Msg)} {m : Nat}

/-- The channel on which the handler at place `k` listens. -/
def listening (hs : List (Handler Op Msg)) (k : Nat) : Option Nat :=
  hs[k]?.bind Handler.listensOn

/-- No channel has two listeners; `m` channels have been made. -/
structure Alone (hs : List (Handler Op Msg)) (m : Nat) : Prop where
  lt : ∀ k ch, listening hs k = some ch → ch < m
  unique : ∀ j k ch, listening hs j = some ch → listening hs k = some ch → j = k

theorem listening_of_getElem? {k : Nat} {h : Handler Op Msg} (hk : hs[k]? = some h) :
    listening hs k = h.listensOn := by
  rw [listening, hk, Option.bind_some]

theorem Server.heard_iff {srv : Server Op K Msg} {ch : Nat} :
    srv.Heard ch ↔ ∃ k, listening srv.handlers k = some ch := by
  constructor
  · rintro ⟨h, hmem, hl⟩
    obtain ⟨k, hk⟩ := List.mem_iff_getElem?.mp hmem
    exact ⟨k, (listening_of_getElem? hk).trans hl⟩
  · rintro ⟨k, hl⟩
    obtain ⟨h, hk, hl⟩ := Option.bind_eq_some_iff.mp hl
    exact ⟨h, List.mem_of_getElem? hk, hl⟩

theorem listening_set_ne {j k : Nat} (hjk : j ≠ k) (h : Handler Op Msg) :
    listening (hs.set k h) j = listening hs j := by
  rw [listening, listening, List.getElem?_set_ne (Ne.symm hjk)]

/-- After a change at place `k`, the other places are as before. -/
theorem listening_set {j k ch : Nat} {h : Handler Op Msg}
    (hl : listening (hs.set k h) j = some ch) :
    (j = k ∧ h.listensOn = some ch) ∨ (j ≠ k ∧ listening hs j = some ch) := by
  by_cases hjk : j = k
  · subst hjk
    obtain ⟨h', hj, hl⟩ := Option.bind_eq_some_iff.mp hl
    rw [List.getElem?_set_self (by simpa using (List.getElem?_eq_some_iff.mp hj).1)] at hj
    cases hj
    exact .inl ⟨rfl, hl⟩
  · rw [listening_set_ne hjk] at hl
    exact .inr ⟨hjk, hl⟩

theorem listening_concat {j ch : Nat} {h : Handler Op Msg}
    (hl : listening (hs ++ [h]) j = some ch) :
    (j = hs.length ∧ h.listensOn = some ch) ∨ (j < hs.length ∧ listening hs j = some ch) := by
  obtain ⟨h', hj, hl⟩ := Option.bind_eq_some_iff.mp hl
  rcases Nat.lt_trichotomy j hs.length with hlt | heq | hgt
  · rw [List.getElem?_append_left hlt] at hj
    exact .inr ⟨hlt, by rw [listening, hj]; exact hl⟩
  · rw [heq, List.getElem?_concat_length] at hj
    cases hj
    exact .inl ⟨heq, hl⟩
  · rw [List.getElem?_eq_none (by simp; omega)] at hj
    exact absurd hj (by simp)

theorem Alone.concat (ha : Alone hs m) (op : Op) : Alone (hs ++ [.opened op m]) (m + 1) := by
  constructor
  · intro k ch hl
    rcases listening_concat hl with ⟨-, hch⟩ | ⟨-, hl⟩
    · cases hch
      omega
    · have := ha.lt k ch hl
      omega
  · intro j k ch hj hk
    rcases listening_concat hj with ⟨hj, hch⟩ | ⟨-, hj⟩
    · rcases listening_concat hk with ⟨hk, -⟩ | ⟨-, hk⟩
      · omega
      · cases hch
        exact absurd (ha.lt k _ hk) (by omega)
    · rcases listening_concat hk with ⟨-, hch⟩ | ⟨-, hk⟩
      · cases hch
        exact absurd (ha.lt j _ hj) (by omega)
      · exact ha.unique j k ch hj hk

theorem Alone.set (ha : Alone hs m) {k : Nat} {h : Handler Op Msg}
    (hl : ∀ ch, h.listensOn = some ch → listening hs k = some ch) : Alone (hs.set k h) m := by
  have hold : ∀ j ch, listening (hs.set k h) j = some ch → listening hs j = some ch := by
    intro j ch hj
    rcases listening_set hj with ⟨rfl, hch⟩ | ⟨-, hj⟩
    · exact hl ch hch
    · exact hj
  exact ⟨fun j ch hj => ha.lt j ch (hold j ch hj),
    fun i j ch hi hj => ha.unique i j ch (hold i ch hi) (hold j ch hj)⟩

end handlers

namespace Server

variable {sh : Shape Op K} {srv srv' : Server Op K Msg} {e : Event Op Msg}

/-- **The invariant of the channels.**  The apply loop sends on a channel that is registered. -/
structure Inv (sh : Shape Op K) (srv : Server Op K Msg) : Prop where
  table : srv.table.Sound
  alone : Alone srv.handlers srv.table.channels.length
  sending : ∀ x ∈ srv.sending, ∃ y, srv.table.getStartCh sh x.1 = some y ∧ y.replyChannel = x.2.1

theorem inv_init : Inv sh (init : Server Op K Msg) where
  table := ⟨fun _ _ h => absurd h (by simp [init, Table.empty]),
    fun _ _ _ _ h => absurd h (by simp [init, Table.empty])⟩
  alone := ⟨fun _ _ h => absurd h (by simp [init, listening]),
    fun _ _ _ h => absurd h (by simp [init, listening])⟩
  sending := by simp [init]

theorem getStartCh_of_answersOn {op : Op} {ch : Nat} (h : srv.answersOn sh op = some ch) :
    ∃ y, srv.table.getStartCh sh op = some y ∧ y.replyChannel = ch := by
  unfold answersOn Table.opChannelMatch at h
  split at h
  · split at h
    · split at h
      · exact absurd h (by simp)
      · rename_i y hy
        split at h
        · exact ⟨y, hy, Option.some.inj h⟩
        · exact absurd h (by simp)
    · exact absurd h (by simp)
  · exact absurd h (by simp)

/-- The channel on which the apply loop sends is open. -/
theorem Inv.open_ (hi : Inv sh srv) {x : Op × Nat × Msg} (hx : x ∈ srv.sending) :
    srv.table.isClosed x.2.1 = false := by
  obtain ⟨y, hy, hch⟩ := hi.sending x hx
  rw [Table.isClosed, ← hch, hi.table.open_ _ y hy, Option.getD_some]

/-- A handler that goes on leaves the channels of the others alone. -/
theorem heard_setHandler {k ch : Nat} {h : Handler Op Msg} (hh : srv.Heard ch)
    (hk : listening srv.handlers k = some ch → h.listensOn = some ch) :
    (srv.setHandler k h).Heard ch := by
  obtain ⟨j, hj⟩ := heard_iff.mp hh
  refine heard_iff.mpr ⟨j, ?_⟩
  change listening (srv.handlers.set k h) j = some ch
  by_cases hjk : j = k
  · subst hjk
    obtain ⟨h₀, hget, -⟩ := Option.bind_eq_some_iff.mp hj
    rw [listening, List.getElem?_set_self (List.getElem?_eq_some_iff.mp hget).1]
    exact hk hj
  · rw [listening_set_ne hjk]
    exact hj

variable [DecidableEq K]

theorem inv_move (hi : Inv sh srv) (hm : Move sh srv e srv') : Inv sh srv' := by
  cases hm with
  | called op hn =>
    refine ⟨hi.table.create, ?_, by simp [hn]⟩
    have ha := hi.alone.concat op
    change Alone _ (srv.table.channels ++ [false]).length
    rw [List.length_append, List.length_singleton]
    exact ha
  | started k op ch hk =>
    refine ⟨hi.table, hi.alone.set ?_, hi.sending⟩
    intro ch' hch
    rw [listening_of_getElem? hk]
    exact hch
  | refused k op ch _ => exact ⟨hi.table, hi.alone.set (by simp [Handler.listensOn]), hi.sending⟩
  | closed k op ch _ _ => exact ⟨hi.table, hi.alone.set (by simp [Handler.listensOn]), hi.sending⟩
  | timedOut k op ch _ => exact ⟨hi.table, hi.alone.set (by simp [Handler.listensOn]), hi.sending⟩
  | finished k op h table hn _ _ ht =>
    refine ⟨hi.table.delete ht, ?_, by simp [setHandler, hn]⟩
    rw [Table.length_delete ht]
    exact hi.alone.set (by simp [Handler.listensOn])
  | applied k op msg _ _ =>
    refine ⟨hi.table, hi.alone, ?_⟩
    intro x hx
    obtain ⟨ch, hch, rfl⟩ := Option.map_eq_some_iff.mp hx
    exact getStartCh_of_answersOn hch
  | passed op msg => exact hi
  | signalled k op op' ch msg table _ _ ht =>
    refine ⟨hi.table.delete ht, ?_, by simp⟩
    rw [Table.length_delete ht]
    exact hi.alone.set (by simp [Handler.listensOn])
  | restarted =>
    have h0 : Inv sh (init : Server Op K Msg) := inv_init
    exact ⟨h0.table, h0.alone, h0.sending⟩

/-! ### Deadlocks -/

/-- **A patient step does not lead into a deadlock.** -/
theorem not_deadlocked_of_patient (hi : Inv sh srv) (hd : ¬ srv.Deadlocked)
    (hp : srv.Patient sh e) (hm : Move sh srv e srv') : ¬ srv'.Deadlocked := by
  rintro ⟨x, hx, hnot⟩
  have hheard : ∀ x ∈ srv.sending, srv.Heard x.2.1 := by
    intro x hx
    by_contra hn
    exact hd ⟨x, hx, hn⟩
  -- a handler that leaves does not leave the channel of the send
  have hleave : ∀ k h h', srv.handlers[k]? = some h → x ∈ srv.sending →
      h.listensOn ≠ some x.2.1 → (srv.setHandler k h').Heard x.2.1 := by
    intro k h h' hk hx hne
    refine heard_setHandler (hheard x hx) ?_
    intro hl
    rw [listening_of_getElem? hk] at hl
    exact absurd hl hne
  cases hm with
  | called op hn => rw [hn] at hx; exact absurd hx (by simp)
  | started k op ch hk =>
    refine hnot (heard_setHandler (hheard x hx) ?_)
    rw [listening_of_getElem? hk]
    exact id
  | refused k op ch hk => exact hnot (hleave k _ _ hk hx (hp _ hk x hx))
  | closed k op ch hk hc =>
    refine hnot (hleave k _ _ hk hx ?_)
    intro heq
    cases heq
    exact absurd hc (by rw [hi.open_ hx]; simp)
  | timedOut k op ch hk => exact hnot (hleave k _ _ hk hx (hp _ hk x hx))
  | finished k op h table hn _ _ _ =>
    have hx : x ∈ srv.sending := hx
    rw [hn] at hx
    exact absurd hx (by simp)
  | applied k op msg _ hop =>
    obtain ⟨ch, hch, rfl⟩ := Option.map_eq_some_iff.mp hx
    exact hnot (hp op hop ch hch)
  | passed op msg => exact hd ⟨x, hx, hnot⟩
  | signalled k op op' ch msg table _ _ _ => exact absurd hx (by simp)
  | restarted => exact absurd hx (by simp [init])

/-- **Any other step does.** -/
theorem patient_of_not_deadlocked (hi : Inv sh srv) (hm : Move sh srv e srv')
    (hd : ¬ srv'.Deadlocked) : srv.Patient sh e := by
  -- nobody else listens on the channel that a handler leaves
  have hleave : ∀ k h h', srv.handlers[k]? = some h → h'.listensOn = none →
      srv' = srv.setHandler k h' → ∀ x ∈ srv.sending, h.listensOn ≠ some x.2.1 := by
    intro k h h' hk hnone heq x hx hl
    refine hd ⟨x, by rw [heq]; exact hx, ?_⟩
    rw [heq, heard_iff]
    rintro ⟨j, hj⟩
    rcases listening_set hj with ⟨-, hj⟩ | ⟨hne, hj⟩
    · rw [hnone] at hj
      exact absurd hj (by simp)
    · exact hne (hi.alone.unique j k _ hj ((listening_of_getElem? hk).trans hl))
  cases hm with
  | refused k op ch hk =>
    intro h hmem
    have hmem : srv.handlers[k]? = some h := hmem
    exact hleave k h _ hmem rfl rfl
  | timedOut k op ch hk =>
    intro h hmem
    have hmem : srv.handlers[k]? = some h := hmem
    exact hleave k h _ hmem rfl rfl
  | applied k op msg _ hop =>
    intro op' hop' ch hch
    have hop' : srv.started[k]? = some op' := hop'
    have hch : srv.answersOn sh op' = some ch := hch
    rw [hop] at hop'
    cases hop'
    by_contra hn
    refine hd ⟨(op, ch, msg), ?_, hn⟩
    simp [hch]
  | _ => trivial

/-- **The apply loop is never blocked for good**, exactly if no handler leaves its channel to
the apply loop and the apply loop finds no channel that a handler has left. -/
theorem never_deadlocked (sh : Shape Op K) (tr : List (Server Op K Msg))
    (h : Run sh (fun _ _ => True) tr) :
    Run sh (Patient sh) tr ↔ ∀ srv ∈ tr, ¬ srv.Deadlocked := by
  refine Trace.ok_iff (J := Inv sh) (G := fun srv => ¬ srv.Deadlocked) inv_init ?_
    (fun srv srv' e hi _ hs => inv_move hi (move_of_step hs)) ?_ h
  · rintro ⟨x, hx, -⟩
    exact absurd hx (by simp [init])
  · intro srv srv' e hi hd hs
    exact ⟨fun hp => not_deadlocked_of_patient hi hd hp (move_of_step hs),
      patient_of_not_deadlocked hi (move_of_step hs)⟩

/-- **A deadlock is for good**: only a restart ends it. -/
theorem deadlocked_forever {srv : Server Op K Msg} (hd : srv.Deadlocked)
    (tr : List (Server Op K Msg)) (h : Trace (step sh) (fun _ e => e ≠ .restart) srv tr) :
    ∀ srv' ∈ tr, srv'.sending = srv.sending ∧ srv'.Deadlocked := by
  refine Trace.invariant (I := fun srv' => srv'.sending = srv.sending ∧ srv'.Deadlocked)
    ⟨rfl, hd⟩ ?_ tr h
  rintro u u' e ⟨hsend, hdead⟩ he hs
  rw [← hsend]
  obtain ⟨x, hx, hnot⟩ := hdead
  have hx : u.sending = some x := hx
  -- a handler that goes on listens to no other channel than before
  have hset : ∀ k h, (h.listensOn = some x.2.1 → listening u.handlers k = some x.2.1) →
      ¬ (u.setHandler k h).Heard x.2.1 := by
    intro k h hk hh
    obtain ⟨j, hj⟩ := heard_iff.mp hh
    rcases listening_set hj with ⟨-, hl⟩ | ⟨-, hl⟩
    · exact hnot (heard_iff.mpr ⟨k, hk hl⟩)
    · exact hnot (heard_iff.mpr ⟨j, hl⟩)
  cases move_of_step hs with
  | called op hn => rw [hn] at hx; exact absurd hx (by simp)
  | started k op ch hk =>
    refine ⟨rfl, x, hx, hset k _ ?_⟩
    rw [listening_of_getElem? hk]
    exact id
  | refused k op ch hk => exact ⟨rfl, x, hx, hset k _ (by simp [Handler.listensOn])⟩
  | closed k op ch hk _ => exact ⟨rfl, x, hx, hset k _ (by simp [Handler.listensOn])⟩
  | timedOut k op ch hk => exact ⟨rfl, x, hx, hset k _ (by simp [Handler.listensOn])⟩
  | finished k op h table hn _ _ _ => rw [hn] at hx; exact absurd hx (by simp)
  | applied k op msg hn _ => rw [hn] at hx; exact absurd hx (by simp)
  | passed op msg => exact ⟨rfl, x, hx, hnot⟩
  | signalled k op op' ch msg table hsend hk _ =>
    rw [hsend] at hx
    cases hx
    exact absurd (heard_iff.mpr ⟨k, listening_of_getElem? hk⟩) hnot
  | restarted => exact absurd rfl he

/-! ### Runs in which every handler gets its answer -/

/-- No timer fires and no op is refused. -/
def Answered : Event Op Msg → Prop
  | .start _ false | .timeout _ => False
  | _ => True

/-- Somebody listens on every channel that is registered. -/
def AllHeard (srv : Server Op K Msg) : Prop :=
  ∀ x y, srv.table.startChannels x = some y → srv.Heard y.replyChannel

theorem allHeard_move (hi : Inv sh srv) (ha : srv.AllHeard) (he : Answered e)
    (hm : Move sh srv e srv') : srv'.AllHeard := by
  cases hm with
  | called op hn =>
    intro x y hx
    rcases Table.startChannels_create hx with ⟨-, hy⟩ | hx
    · exact ⟨_, List.mem_append_right _ (List.mem_singleton_self _), congrArg some hy.symm⟩
    · obtain ⟨h, hmem, hl⟩ := ha x y hx
      exact ⟨h, List.mem_append_left _ hmem, hl⟩
  | started k op ch hk =>
    intro x y hx
    refine heard_setHandler (ha x y hx) ?_
    rw [listening_of_getElem? hk]
    exact id
  | refused k op ch _ => exact he.elim
  | timedOut k op ch _ => exact he.elim
  | closed k op ch hk hc =>
    intro x y hx
    refine heard_setHandler (ha x y hx) ?_
    intro hl
    -- what is registered is open
    rw [listening_of_getElem? hk] at hl
    have hch : ch = y.replyChannel := Option.some.inj hl
    rw [Table.isClosed, hch, hi.table.open_ x y hx] at hc
    exact absurd hc (by simp)
  | finished k op h table _ hk hl ht =>
    intro x y hx
    refine heard_setHandler (ha x y (Table.startChannels_delete ht hx).2) ?_
    intro hlisten
    rw [listening_of_getElem? hk] at hlisten
    cases h <;> simp [Handler.listensOn, leaving] at hlisten hl
  | applied k op msg _ _ => exact ha
  | passed op msg => exact ha
  | signalled k op op' ch msg table hsend hk ht =>
    intro x y hx
    obtain ⟨hne, hx⟩ := Table.startChannels_delete ht hx
    refine heard_setHandler (ha x y hx) ?_
    intro hl
    -- the channel of the send is registered for this op only
    obtain ⟨z, hz, hch⟩ := hi.sending _ hsend
    rw [listening_of_getElem? hk] at hl
    have hy : ch = y.replyChannel := Option.some.inj hl
    exact absurd (hi.table.apart x _ y z hx hz (hy.symm.trans hch.symm)) hne
  | restarted => exact fun x y hx => absurd hx (by simp [init, Table.empty])

/-- **Timers and refusals are to blame**: without them there is no deadlock. -/
theorem answered_never_deadlocked (tr : List (Server Op K Msg))
    (h : Run sh (fun _ e => Answered e) tr) : ∀ srv ∈ tr, ¬ srv.Deadlocked := by
  have hall := Trace.invariant (I := fun srv : Server Op K Msg => Inv sh srv ∧ srv.AllHeard)
    ⟨inv_init, fun x y hx => absurd hx (by simp [init, Table.empty])⟩
    (fun srv srv' e hi he hs => ⟨inv_move hi.1 (move_of_step hs),
      allHeard_move hi.1 hi.2 he (move_of_step hs)⟩) tr h
  rintro srv hsrv ⟨x, hx, hnot⟩
  obtain ⟨hi, ha⟩ := hall srv hsrv
  obtain ⟨y, hy, hch⟩ := hi.sending x hx
  exact hnot (hch ▸ ha _ y hy)

/-! ### A deadlock -/

/-- The timer of a handler fires, and before it gets `kv.mu` the apply loop does, with the
command of its request.  Whatever the service, this is a deadlock. -/
theorem deadlocked_lateTimer (sh : Shape Op K) (op : Op) (msg : Msg) (hmine : sh.mine op = true)
    (hneed : sh.needSendBackCh op = true) (hsame : sh.sameOp op op = true) :
    ∃ srv past, Run sh (fun _ _ => True) (srv :: past) ∧ srv.handlers = [.timedOut op] ∧
      srv.sending = some (op, 0, msg) ∧ srv.Deadlocked := by
  let t : Table Op K := (Table.empty.createStartCh sh op).1
  have h1 : step sh (init : Server Op K Msg) (.call op) = some ⟨t, [.opened op 0], none, []⟩ := by
    simp [step, call, init, hmine, hneed, t, Table.createStartCh, Table.empty]
  have h2 : step sh (⟨t, [.opened op 0], none, []⟩ : Server Op K Msg) (.start 0 true) =
      some ⟨t, [.waiting op 0], none, [op]⟩ := rfl
  have h3 : step sh (⟨t, [.waiting op 0], none, [op]⟩ : Server Op K Msg) (.timeout 0) =
      some ⟨t, [.timedOut op], none, [op]⟩ := rfl
  have h4 : step sh (⟨t, [.timedOut op], none, [op]⟩ : Server Op K Msg) (.apply 0 msg) =
      some ⟨t, [.timedOut op], some (op, 0, msg), [op]⟩ := by
    simp [step, handleCommandApply, answersOn, hneed, Table.opChannelMatch, hmine,
      Table.getStartCh, t, Table.createStartCh, Table.empty, hsame]
  refine ⟨_, _, .step (.step (.step (.step .init trivial h1) trivial h2) trivial h3) trivial h4,
    rfl, rfl, (op, 0, msg), rfl, ?_⟩
  simp [Heard, Handler.listensOn]

instance (sh : Shape Op K) (srv : Server Op K Msg) (e : Event Op Msg) :
    Decidable (srv.Patient sh e) :=
  match e with
  | .start _ false | .timeout _ => inferInstanceAs (Decidable (∀ h ∈ _, ∀ x ∈ _, _))
  | .apply _ _ => inferInstanceAs (Decidable (∀ op ∈ _, ∀ ch ∈ _, _))
  | .start _ true | .call _ | .receiveClosed _ | .finish _ | .foreign _ _ | .signal _ | .restart =>
    .isTrue trivial

/-- A `Put` of client `5` at server `0` of `kvraft`. -/
def samplePut : KV.Op 3 := ⟨0, 0, .put, "k", "v", 5, 1⟩

theorem never_deadlocked_samplePut :
    ∃ srv past, run (step (KV.shape 0)) (Patient (KV.shape 0)) init
        [.call samplePut, .start 0 true, .apply 0 (⟨.ok, ""⟩ : KV.KVReplyMsg), .signal 0,
          .finish 0] [] = some (srv :: past) ∧ srv.handlers = [.returned] ∧
      (Run (KV.shape 0) (Patient (KV.shape 0)) (srv :: past) ↔
        ∀ srv' ∈ srv :: past, ¬ srv'.Deadlocked) := by
  have hs : runEnds (step (KV.shape 0)) (Patient (KV.shape 0)) init
      [.call samplePut, .start 0 true, .apply 0 (⟨.ok, ""⟩ : KV.KVReplyMsg), .signal 0, .finish 0]
      (fun srv _ => decide (srv.handlers = [.returned])) = true := by
    decide +kernel
  obtain ⟨srv, past, h, ht, hl⟩ := exists_of_runEnds hs
  exact ⟨srv, past, h, of_decide_eq_true hl,
    never_deadlocked _ _ (ht.mono fun _ _ _ => trivial)⟩

/-- A `Query` of client `5` at server `0` of `shardctrler`. -/
def sampleQuery : Ctrler.Op := ⟨0, 0, .query, ∅, [], 0, 0, 0, 5, 1⟩

/-- A `Get` of client `5` at server `0` of `shardkv`. -/
def sampleGet : ShardKV.Op :=
  { clientId := 5, requestIndex := 1, type := .get, needSendBackCh := true, key := "k" }

/-- **All three services deadlock**, when nothing is asked of the run. -/
theorem services_deadlock :
    (¬ ∀ tr : List (Server (KV.Op 3) (Nat × Int) KV.KVReplyMsg),
      Run (KV.shape 0) (fun _ _ => True) tr → ∀ srv ∈ tr, ¬ srv.Deadlocked) ∧
    (¬ ∀ tr : List (Server Ctrler.Op (Int × Int) Ctrler.ReplyMsg),
      Run (Ctrler.shape 0) (fun _ _ => True) tr → ∀ srv ∈ tr, ¬ srv.Deadlocked) ∧
    ¬ ∀ tr : List (Server ShardKV.Op (Int × Int) ShardKV.KVReplyMsg),
      Run (ShardKV.shape 0) (fun _ _ => True) tr → ∀ srv ∈ tr, ¬ srv.Deadlocked := by
  refine ⟨?_, ?_, ?_⟩
  · intro hall
    obtain ⟨srv, past, h, -, -, hd⟩ := deadlocked_lateTimer (KV.shape 0) samplePut
      (⟨.ok, ""⟩ : KV.KVReplyMsg) (by decide) rfl (by decide)
    exact hall _ h srv (List.mem_cons_self ..) hd
  · intro hall
    obtain ⟨srv, past, h, -, -, hd⟩ := deadlocked_lateTimer (Ctrler.shape 0) sampleQuery
      (⟨.ok, none⟩ : Ctrler.ReplyMsg) (by decide) rfl (by decide)
    exact hall _ h srv (List.mem_cons_self ..) hd
  · intro hall
    obtain ⟨srv, past, h, -, -, hd⟩ := deadlocked_lateTimer (ShardKV.shape 0) sampleGet
      (⟨.ok, ""⟩ : ShardKV.KVReplyMsg) (by decide) rfl (by decide)
    exact hall _ h srv (List.mem_cons_self ..) hd

end Server

end ShardRaft.Service
