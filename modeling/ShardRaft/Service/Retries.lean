import ShardRaft.Service.Deadlock

/-!
# Retries

A clerk that has given an RPC up sends its request again, perhaps to the same server.  The
new handler then registers its channel in place of the old one's, and the old handler, when
it leaves, removes what it finds: `deleteStartCh` does not look for whom the channel was
made.  Whoever still waits on that channel receives the zero message.

* `Named`: the channel on which a handler waits is registered for its own request, if at
  all.  So an answer never goes to a handler of another request.
* `NoneClosed`: nobody waits on a closed channel.  This needs `Careful`: no handler, when it
  leaves, removes a channel on which another one waits.
-/

namespace ShardRaft.Service

variable {Op K Msg : Type}

/-- The op for which a handler may still get an answer, and the channel it comes on. -/
def Handler.awaits : Handler Op Msg → Option (Op × Nat)
  | .opened op ch | .waiting op ch => some (op, ch)
  | _ => none

theorem Handler.listensOn_of_awaits {h : Handler Op Msg} {op : Op} {ch : Nat}
    (ha : h.awaits = some (op, ch)) : h.listensOn = some ch := by
  cases h with
  | opened op' ch' => cases ha; rfl
  | waiting op' ch' => cases ha; rfl
  | _ => exact absurd ha (by simp [awaits])

/-! ### Closed channels -/

section table

variable [DecidableEq K] {t t' : Table Op K} {sh : Shape Op K} {op : Op} {ch : Nat}

theorem Table.isClosed_create : (t.createStartCh sh op).1.isClosed ch = t.isClosed ch := by
  change ((t.channels ++ [false])[ch]?).getD false = (t.channels[ch]?).getD false
  rcases Nat.lt_trichotomy ch t.channels.length with hlt | heq | hgt
  · rw [List.getElem?_append_left hlt]
  · rw [heq, List.getElem?_concat_length, List.getElem?_eq_none le_rfl]
    rfl
  · rw [List.getElem?_eq_none (by simp; omega), List.getElem?_eq_none hgt.le]

theorem Table.isClosed_delete (hs : t.Sound) (ht : t.deleteStartCh sh op = some t') :
    t'.isClosed ch = true ↔
      t.isClosed ch = true ∨ ∃ y, t.getStartCh sh op = some y ∧ y.replyChannel = ch := by
  unfold deleteStartCh at ht
  split at ht
  · rename_i hg
    cases ht
    simp [hg]
  · rename_i y hg
    split at ht
    · exact absurd ht (by simp)
    · cases ht
      change ((t.channels.set y.replyChannel true)[ch]?).getD false = true ↔ _
      by_cases hch : y.replyChannel = ch
      · subst hch
        rw [List.getElem?_set_self (hs.lt hg)]
        exact ⟨fun _ => .inr ⟨y, hg, rfl⟩, fun _ => rfl⟩
      · rw [List.getElem?_set_ne hch]
        refine ⟨.inl, ?_⟩
        rintro (h | ⟨z, hz, hzch⟩)
        · exact h
        · rw [hg] at hz
          cases hz
          exact absurd hzch hch

/-- **No panic**: what `deleteStartCh` finds is open. -/
theorem Table.isSome_delete (hs : t.Sound) : (t.deleteStartCh sh op).isSome := by
  unfold deleteStartCh
  split
  · rfl
  · rename_i y hg
    have ho : t.isClosed y.replyChannel = false := by
      rw [isClosed, hs.open_ _ y hg, Option.getD_some]
    rw [ho]
    rfl

end table

namespace Server

variable {sh : Shape Op K} {srv srv' : Server Op K Msg} {e : Event Op Msg}

/-- What a handler listens to is registered for its own request, or not at all. -/
def Named (sh : Shape Op K) (srv : Server Op K Msg) : Prop :=
  ∀ h ∈ srv.handlers, ∀ op ch, h.awaits = some (op, ch) →
    ∀ x y, srv.table.startChannels x = some y → y.replyChannel = ch → x = sh.request op

/-- Nobody waits on a closed channel. -/
def NoneClosed (srv : Server Op K Msg) : Prop := ∀ ch, srv.Heard ch → srv.table.isClosed ch = false

/-- A handler that leaves does not remove a channel on which somebody waits. -/
def Careful (sh : Shape Op K) (srv : Server Op K Msg) : Event Op Msg → Prop
  | .finish k => ∀ h ∈ srv.handlers[k]?, ∀ op ∈ leaving h, ∀ y ∈ srv.table.getStartCh sh op,
      ¬ srv.Heard y.replyChannel
  | _ => True

theorem Named.mono (hn : Named sh srv)
    (hh : ∀ h ∈ srv'.handlers, ∀ op ch, h.awaits = some (op, ch) →
      ∃ h₀ ∈ srv.handlers, h₀.awaits = some (op, ch))
    (ht : ∀ x y, srv'.table.startChannels x = some y → srv.table.startChannels x = some y) :
    Named sh srv' := by
  intro h hmem op ch ha x y hx hy
  obtain ⟨h₀, hmem₀, ha₀⟩ := hh h hmem op ch ha
  exact hn h₀ hmem₀ op ch ha₀ x y (ht x y hx) hy

theorem awaits_setHandler {k : Nat} {h₀ h : Handler Op Msg} (hk : srv.handlers[k]? = some h₀)
    (ha : ∀ op ch, h.awaits = some (op, ch) → h₀.awaits = some (op, ch)) :
    ∀ h' ∈ (srv.setHandler k h).handlers, ∀ op ch, h'.awaits = some (op, ch) →
      ∃ h₁ ∈ srv.handlers, h₁.awaits = some (op, ch) := by
  intro h' hmem op ch ha'
  rcases List.mem_or_eq_of_mem_set hmem with hmem | rfl
  · exact ⟨h', hmem, ha'⟩
  · exact ⟨h₀, List.mem_of_getElem? hk, ha op ch ha'⟩

theorem heard_of_setHandler {k ch : Nat} {h : Handler Op Msg} (hh : (srv.setHandler k h).Heard ch)
    (hl : h.listensOn = none) : ∃ j, j ≠ k ∧ listening srv.handlers j = some ch := by
  obtain ⟨j, hj⟩ := heard_iff.mp hh
  rcases listening_set hj with ⟨-, hch⟩ | ⟨hne, hj⟩
  · rw [hl] at hch
    exact absurd hch (by simp)
  · exact ⟨j, hne, hj⟩

variable [DecidableEq K]

/-- **Answers stay with their request**, whatever the step. -/
theorem named_move (hi : Inv sh srv) (hn : Named sh srv) (hm : Move sh srv e srv') :
    Named sh srv' := by
  cases hm with
  | called op _ =>
    intro h hmem op' ch ha x y hx hy
    rcases List.mem_append.mp hmem with hmem | hmem
    · -- the channels of the others are older than the new one
      have hlt : ch < srv.table.channels.length := by
        obtain ⟨j, hj⟩ := heard_iff.mp ⟨h, hmem, Handler.listensOn_of_awaits ha⟩
        exact hi.alone.lt j ch hj
      rcases Table.startChannels_create hx with ⟨-, hnew⟩ | hx
      · omega
      · exact hn h hmem op' ch ha x y hx hy
    · rw [List.mem_singleton.mp hmem] at ha
      cases ha
      rcases Table.startChannels_create hx with ⟨hr, -⟩ | hx
      · exact hr
      · have := hi.table.lt hx
        omega
  | started k op ch hk => exact hn.mono (awaits_setHandler hk fun _ _ => id) fun _ _ => id
  | refused k op ch hk =>
    exact hn.mono (awaits_setHandler hk (by simp [Handler.awaits])) fun _ _ => id
  | closed k op ch hk _ =>
    exact hn.mono (awaits_setHandler hk (by simp [Handler.awaits])) fun _ _ => id
  | timedOut k op ch hk =>
    exact hn.mono (awaits_setHandler hk (by simp [Handler.awaits])) fun _ _ => id
  | finished k op h table _ hk _ ht =>
    exact hn.mono (awaits_setHandler hk (by simp [Handler.awaits]))
      fun x y hx => (Table.startChannels_delete ht hx).2
  | applied k op msg _ _ => exact hn
  | passed op msg => exact hn
  | signalled k op op' ch msg table _ hk ht =>
    exact hn.mono (awaits_setHandler hk (by simp [Handler.awaits]))
      fun x y hx => (Table.startChannels_delete ht hx).2
  | restarted => exact fun h hmem => absurd hmem (by simp [init])

/-- **With care, nobody waits on a closed channel.** -/
theorem noneClosed_move (hi : Inv sh srv) (ho : srv.NoneClosed) (hc : srv.Careful sh e)
    (hm : Move sh srv e srv') : srv'.NoneClosed := by
  -- a handler that leaves without touching the table
  have hleave : ∀ k h, h.listensOn = none → (srv.setHandler k h).NoneClosed := by
    intro k h hl ch hh
    obtain ⟨j, -, hj⟩ := heard_of_setHandler hh hl
    exact ho ch (heard_iff.mpr ⟨j, hj⟩)
  -- a handler that leaves and removes a channel on which nobody else waits
  have hdelete : ∀ op table ch, srv.table.deleteStartCh sh op = some table → srv.Heard ch →
      (∀ y, srv.table.getStartCh sh op = some y → y.replyChannel ≠ ch) →
      table.isClosed ch = false := by
    intro op table ch ht hh hne
    rw [Bool.eq_false_iff]
    intro hclosed
    rcases (Table.isClosed_delete hi.table ht).mp hclosed with hclosed | ⟨y, hy, hch⟩
    · rw [ho ch hh] at hclosed
      exact absurd hclosed (by simp)
    · exact hne y hy hch
  cases hm with
  | called op _ =>
    rintro ch ⟨h, hmem, hl⟩
    change (srv.table.createStartCh sh op).1.isClosed ch = false
    rw [Table.isClosed_create]
    rcases List.mem_append.mp hmem with hmem | hmem
    · exact ho ch ⟨h, hmem, hl⟩
    · rw [List.mem_singleton.mp hmem] at hl
      cases hl
      rw [Table.isClosed, List.getElem?_eq_none le_rfl]
      rfl
  | started k op ch hk =>
    intro ch' hh
    refine ho ch' (heard_iff.mpr ?_)
    obtain ⟨j, hj⟩ := heard_iff.mp hh
    rcases listening_set hj with ⟨-, hl⟩ | ⟨-, hj⟩
    · exact ⟨k, (listening_of_getElem? hk).trans hl⟩
    · exact ⟨j, hj⟩
  | refused k op ch _ => exact hleave k _ rfl
  | closed k op ch _ _ => exact hleave k _ rfl
  | timedOut k op ch _ => exact hleave k _ rfl
  | finished k op h table _ hk hl ht =>
    intro ch hh
    obtain ⟨j, -, hj⟩ := heard_of_setHandler hh rfl
    have hheard : srv.Heard ch := heard_iff.mpr ⟨j, hj⟩
    refine hdelete op table ch ht hheard ?_
    intro y hy hch
    exact hc h hk op hl y hy (hch ▸ hheard)
  | applied k op msg _ _ => exact ho
  | passed op msg => exact ho
  | signalled k op op' ch msg table hsend hk ht =>
    intro ch' hh
    obtain ⟨j, hne, hj⟩ := heard_of_setHandler hh rfl
    refine hdelete op table ch' ht (heard_iff.mpr ⟨j, hj⟩) ?_
    intro y hy hch
    -- only the handler that took the message listened on the channel of the send
    obtain ⟨z, hz, hzch⟩ := hi.sending _ hsend
    have hch' : ch = ch' := by
      calc ch = z.replyChannel := hzch.symm
        _ = y.replyChannel := congrArg _ (Option.some.inj (hz.symm.trans hy))
        _ = ch' := hch
    exact hne (hi.alone.unique j k ch' hj ((listening_of_getElem? hk).trans (congrArg some hch')))
  | restarted => exact fun ch hh => absurd hh (by simp [Heard, init])

end Server

end ShardRaft.Service
