import ShardRaft.Service.Retries

/-!
# A server can always finish what it has begun

A deadlock is the only thing that can keep a handler from returning.  As long as there is none,
timers, refusals and one rendezvous are enough to bring every handler to its end, and then
nothing is left in `startChannels` (`drains`): what is registered belongs to a request that
some handler is still at work for (`Attended`).
-/

namespace ShardRaft.Service

open ShardRaft.Lib

variable {Op K Msg : Type}

/-- The op a handler is at work for. -/
def Handler.working : Handler Op Msg → Option Op
  | .opened op _ | .waiting op _ | .refused op | .received op _ | .timedOut op => some op
  | .returned => none

namespace Server

/-- Whatever is registered, some handler is at work for that request. -/
def Attended (sh : Shape Op K) (srv : Server Op K Msg) : Prop :=
  ∀ x y, srv.table.startChannels x = some y →
    ∃ h ∈ srv.handlers, ∃ op, h.working = some op ∧ sh.request op = x

/-- A step that brings to an end what has been begun. -/
def Finishing : Event Op Msg → Prop
  | .start _ _ | .timeout _ | .finish _ | .signal _ => True
  | _ => False

variable {sh : Shape Op K} {srv srv' : Server Op K Msg} {e : Event Op Msg}

/-- A handler that goes on is still at work for its op. -/
theorem Attended.goOn (ha : srv.Attended sh) {k : Nat} {h h' : Handler Op Msg}
    (hk : srv.handlers[k]? = some h) (hw : h'.working = h.working) :
    (srv.setHandler k h').Attended sh := by
  intro x y hx
  obtain ⟨h₀, hmem, op, hop, hr⟩ := ha x y hx
  obtain ⟨j, hj⟩ := List.mem_iff_getElem?.mp hmem
  by_cases hjk : k = j
  · subst hjk
    rw [hk] at hj
    cases hj
    refine ⟨h', ?_, op, hw.trans hop, hr⟩
    exact List.mem_of_getElem? (List.getElem?_set_self (List.getElem?_eq_some_iff.mp hk).1)
  · refine ⟨h₀, ?_, op, hop, hr⟩
    exact List.mem_of_getElem? ((List.getElem?_set_ne hjk).trans hj)

theorem working_of_leaving {h : Handler Op Msg} {op : Op} (hl : leaving h = some op) :
    h.working = some op := by
  cases h with
  | refused op' => exact hl
  | received op' msg => exact hl
  | timedOut op' => exact hl
  | opened op' ch => exact absurd hl (by simp [leaving])
  | waiting op' ch => exact absurd hl (by simp [leaving])
  | returned => exact absurd hl (by simp [leaving])

variable [DecidableEq K]

theorem attended_move (ha : srv.Attended sh) (hm : Move sh srv e srv') : srv'.Attended sh := by
  cases hm with
  | called op hn =>
    intro x y hx
    rcases Table.startChannels_create hx with ⟨hr, -⟩ | hx
    · refine ⟨_, List.mem_append_right _ (List.mem_singleton_self _), op, rfl, hr.symm⟩
    · obtain ⟨h, hmem, hrest⟩ := ha x y hx
      exact ⟨h, List.mem_append_left _ hmem, hrest⟩
  | started k op ch hk => exact ha.goOn hk rfl
  | refused k op ch hk => exact ha.goOn hk rfl
  | closed k op ch hk _ => exact ha.goOn hk rfl
  | timedOut k op ch hk => exact ha.goOn hk rfl
  | finished k op h table hn hk hl ht =>
    intro x y hx
    obtain ⟨hne, hx⟩ := Table.startChannels_delete ht hx
    obtain ⟨h', hmem, op', hop', hr⟩ := ha x y hx
    obtain ⟨j, hj⟩ := List.mem_iff_getElem?.mp hmem
    refine ⟨h', ?_, op', hop', hr⟩
    -- the handler that returns was at work for the request that is deleted
    have hjk : k ≠ j := by
      rintro rfl
      rw [hk] at hj
      cases hj
      rw [working_of_leaving hl] at hop'
      cases hop'
      exact hne hr.symm
    exact List.mem_of_getElem? ((List.getElem?_set_ne hjk).trans hj)
  | applied k op msg _ _ => exact ha
  | passed op msg => exact ha
  | signalled k op op' ch msg table _ hk ht =>
    have hset : (srv.setHandler k (.received op' (some msg))).Attended sh := ha.goOn hk rfl
    exact fun x y hx => hset x y (Table.startChannels_delete ht hx).2
  | restarted => exact fun x y hx => absurd hx (by simp [init, Table.empty])

/-! ### Finishing -/

theorem reaches_returned (hi : Inv sh srv) (hn : srv.sending = none) {k : Nat}
    {h : Handler Op Msg} {op : Op} (hk : srv.handlers[k]? = some h) (hl : leaving h = some op) :
    ∃ srv', srv.step sh (.finish k) = some srv' ∧ srv'.sending = none ∧
      srv'.handlers = srv.handlers.set k .returned := by
  have hsome : (srv.table.deleteStartCh sh op).isSome := Table.isSome_delete hi.table
  obtain ⟨table, ht⟩ := Option.isSome_iff_exists.mp hsome
  refine ⟨{ srv.setHandler k .returned with table := table }, ?_, hn, rfl⟩
  simp [step, finish, hn, hk, hl, ht]

/-- Every handler returns if the lock is free, whatever it is doing. -/
theorem reaches_returned_of_working (hi : Inv sh srv) (hn : srv.sending = none) {k : Nat}
    {h : Handler Op Msg} {op : Op} (hk : srv.handlers[k]? = some h) (hw : h.working = some op) :
    ∃ srv', Reaches (step sh) (fun _ e => Finishing e) srv srv' ∧ srv'.sending = none ∧
      srv'.handlers = srv.handlers.set k .returned := by
  have hfinish : Finishing (.finish k : Event Op Msg) := trivial
  -- first the handler leaves its `select`, by `e`
  have hleave : ∀ (h' : Handler Op Msg) (e : Event Op Msg), Finishing e →
      leaving h' = some op → srv.step sh e = some (srv.setHandler k h') →
      ∃ srv', Reaches (step sh) (fun _ e => Finishing e) srv srv' ∧ srv'.sending = none ∧
        srv'.handlers = srv.handlers.set k .returned := by
    intro h' e he hl hs
    have hk' : (srv.setHandler k h').handlers[k]? = some h' :=
      List.getElem?_set_self (List.getElem?_eq_some_iff.mp hk).1
    obtain ⟨srv', hs', hn', hset⟩ :=
      reaches_returned (inv_move hi (move_of_step hs)) hn hk' hl
    refine ⟨srv', .head he hs (.single hfinish hs'), hn', ?_⟩
    rw [hset]
    exact List.set_set ..
  have hreturn : leaving h = some op →
      ∃ srv', Reaches (step sh) (fun _ e => Finishing e) srv srv' ∧ srv'.sending = none ∧
        srv'.handlers = srv.handlers.set k .returned := by
    intro hl
    obtain ⟨srv', hs', hn', hset⟩ := reaches_returned hi hn hk hl
    exact ⟨srv', .single hfinish hs', hn', hset⟩
  cases h with
  | opened op' ch =>
    cases hw
    exact hleave (.refused op) (.start k false) trivial rfl (by simp [step, start, hk])
  | waiting op' ch =>
    cases hw
    exact hleave (.timedOut op) (.timeout k) trivial rfl (by simp [step, timeout, hk])
  | refused op' => exact hreturn hw
  | received op' msg => exact hreturn hw
  | timedOut op' => exact hreturn hw
  | returned => exact absurd hw (by simp [Handler.working])

/-- The handlers that have not returned. -/
def unfinished (srv : Server Op K Msg) : Nat :=
  srv.handlers.countP fun h => h.working.isSome

omit [DecidableEq K] in
theorem exists_unfinished (h : srv.unfinished ≠ 0) :
    ∃ (k : Nat) (hd : Handler Op Msg) (op : Op), srv.handlers[k]? = some hd ∧
      hd.working = some op := by
  obtain ⟨hd, hmem, hw⟩ := List.countP_pos_iff.mp (Nat.pos_of_ne_zero h)
  obtain ⟨k, hk⟩ := List.mem_iff_getElem?.mp hmem
  obtain ⟨op, hop⟩ := Option.isSome_iff_exists.mp hw
  exact ⟨k, hd, op, hk, hop⟩

/-- With the lock free, every handler can return, one after another. -/
theorem reaches_finished (hi : Inv sh srv) (hn : srv.sending = none) :
    ∃ srv', Reaches (step sh) (fun _ e => Finishing e) srv srv' ∧ srv'.sending = none ∧
      srv'.unfinished = 0 := by
  -- the number of handlers still at work is what gets smaller
  have hcloser : ∀ u : Server Op K Msg, Inv sh u ∧ u.sending = none → ¬ u.unfinished = 0 →
      ∃ u', Reaches (step sh) (fun _ e => Finishing e) u u' ∧
        (Inv sh u' ∧ u'.sending = none) ∧ u'.unfinished < u.unfinished := by
    rintro u ⟨hi, hn⟩ hu
    obtain ⟨k, hd, op, hk, hw⟩ := exists_unfinished hu
    obtain ⟨u', hr, hn', hset⟩ := reaches_returned_of_working hi hn hk hw
    have hi' : Inv sh u' := hr.invariant (fun _ _ _ hi _ hs => inv_move hi (move_of_step hs)) hi
    refine ⟨u', hr, ⟨hi', hn'⟩, ?_⟩
    have hlt := (List.getElem?_eq_some_iff.mp hk).1
    have hget : u.handlers[k] = hd := (List.getElem?_eq_some_iff.mp hk).2
    have hcount : u'.unfinished = u.unfinished - 1 := by
      unfold unfinished
      rw [hset, List.countP_set hlt, hget, hw]
      simp [Handler.working]
    omega
  obtain ⟨srv', hr, ⟨-, hn'⟩, hu⟩ := Reaches.of_measure unfinished hcloser srv ⟨hi, hn⟩
  exact ⟨srv', hr, hn', hu⟩

/-- The rendezvous on which the apply loop waits. -/
theorem reaches_unlocked (hi : Inv sh srv) (hd : ¬ srv.Deadlocked) :
    ∃ srv', Reaches (step sh) (fun _ e => Finishing e) srv srv' ∧ srv'.sending = none := by
  cases hs : srv.sending with
  | none => exact ⟨srv, .refl srv, hs⟩
  | some x =>
    obtain ⟨op, ch, msg⟩ := x
    have hheard : srv.Heard ch := by
      by_contra hnot
      exact hd ⟨(op, ch, msg), hs, hnot⟩
    obtain ⟨k, hk⟩ := heard_iff.mp hheard
    obtain ⟨h, hget, hl⟩ := Option.bind_eq_some_iff.mp hk
    have hf : Finishing (.signal k : Event Op Msg) := trivial
    have hsignal : ∀ (u : Server Op K Msg) (op' : Op), Inv sh u →
        u.sending = some (op, ch, msg) → u.handlers[k]? = some (.waiting op' ch) →
        ∃ u', u.step sh (.signal k) = some u' ∧ u'.sending = none := by
      intro u op' hu hsend hw
      have hsome : (u.table.deleteStartCh sh op).isSome := Table.isSome_delete hu.table
      obtain ⟨table, ht⟩ := Option.isSome_iff_exists.mp hsome
      have ho : u.table.isClosed ch = false := hu.open_ hsend
      exact ⟨{ u.setHandler k (.received op' (some msg)) with table := table, sending := none },
        by simp [step, signal, hsend, hw, ho, ht], rfl⟩
    cases h with
    | waiting op' ch' =>
      obtain rfl : ch' = ch := Option.some.inj hl
      obtain ⟨u', hs', hn⟩ := hsignal srv op' hi hs hget
      exact ⟨u', .single hf hs', hn⟩
    | opened op' ch' =>
      obtain rfl : ch' = ch := Option.some.inj hl
      have hstart : srv.step sh (.start k true) = some
          { srv.setHandler k (.waiting op' ch') with started := srv.started ++ [op'] } := by
        simp [step, start, hget]
      obtain ⟨u', hs', hn⟩ := hsignal _ op' (inv_move hi (move_of_step hstart)) hs
        (List.getElem?_set_self (List.getElem?_eq_some_iff.mp hget).1)
      have hf' : Finishing (.start k true : Event Op Msg) := trivial
      exact ⟨u', .head hf' hstart (.single hf hs'), hn⟩
    | refused op' => exact absurd hl (by simp [Handler.listensOn])
    | received op' msg' => exact absurd hl (by simp [Handler.listensOn])
    | timedOut op' => exact absurd hl (by simp [Handler.listensOn])
    | returned => exact absurd hl (by simp [Handler.listensOn])

/-- **A server can finish what it has begun exactly if it is not deadlocked.**  In every state
of every run, what is registered belongs to a handler that has not returned; and unless the
apply loop is deadlocked, all handlers can return, the apply loop is free and nothing stays
registered. -/
theorem drains (sh : Shape Op K) (srv : Server Op K Msg) (past : List (Server Op K Msg))
    (h : Run sh (fun _ _ => True) (srv :: past)) :
    srv.Attended sh ∧ (¬ srv.Deadlocked ↔
      ∃ srv', Reaches (step sh) (fun _ e => Finishing e) srv srv' ∧ srv'.sending = none ∧
        (∀ hd ∈ srv'.handlers, hd = .returned) ∧ ∀ x, srv'.table.startChannels x = none) := by
  have hinv : ∀ u ∈ srv :: past, Inv sh u ∧ u.Attended sh := by
    refine Trace.invariant (I := fun u => Inv sh u ∧ u.Attended sh) ⟨inv_init, ?_⟩ ?_ _ h
    · exact fun x y hx => absurd hx (by simp [init, Table.empty])
    · exact fun u u' e hu _ hs => ⟨inv_move hu.1 (move_of_step hs),
        attended_move hu.2 (move_of_step hs)⟩
  obtain ⟨hi, ha⟩ := hinv srv (List.mem_cons_self ..)
  refine ⟨ha, ?_, ?_⟩
  · intro hd
    obtain ⟨u, hr, hn⟩ := reaches_unlocked hi hd
    have hiu : Inv sh u := hr.invariant (fun _ _ _ hi _ hs => inv_move hi (move_of_step hs)) hi
    obtain ⟨v, hr', hn', hu⟩ := reaches_finished hiu hn
    have hav : v.Attended sh := (hr.trans hr').invariant
      (fun _ _ _ ha _ hs => attended_move ha (move_of_step hs)) ha
    have hall : ∀ hd ∈ v.handlers, hd.working = none := by
      intro hd hmem
      have := List.countP_eq_zero.mp hu hd hmem
      exact Option.not_isSome_iff_eq_none.mp this
    refine ⟨v, hr.trans hr', hn', ?_, ?_⟩
    · intro hd hmem
      have := hall hd hmem
      cases hd with
      | returned => rfl
      | _ => exact absurd this (by simp [Handler.working])
    · intro x
      by_contra hne
      obtain ⟨y, hy⟩ := Option.ne_none_iff_exists'.mp hne
      obtain ⟨hd, hmem, op, hop, -⟩ := hav x y hy
      rw [hall hd hmem] at hop
      exact absurd hop (by simp)
  · rintro ⟨u, hr, hn, -, -⟩ hd
    have hr' : Reaches (step sh) (fun _ e => e ≠ .restart) srv u := by
      refine hr.mono ?_
      rintro s e he rfl
      exact he
    obtain ⟨past', ht⟩ := hr'.trace .init
    have := (deadlocked_forever hd _ ht u (List.mem_cons_self ..)).1
    obtain ⟨x, hx, -⟩ := hd
    rw [hn] at this
    rw [← this] at hx
    exact absurd hx (by simp)

/-- A `Put`, and a retry of it, both in their `select`. -/
theorem drains_samplePut :
    ∃ srv past, run (step (KV.shape 0)) (fun _ _ => True)
        (init : Server (KV.Op 3) (Nat × Int) KV.KVReplyMsg)
        [.call samplePut, .start 0 true, .call samplePut, .start 1 true] [] = some (srv :: past) ∧
      ∃ srv', Reaches (step (KV.shape 0)) (fun _ e => Finishing e) srv srv' ∧
        srv'.sending = none ∧ (∀ hd ∈ srv'.handlers, hd = .returned) ∧
        ∀ x, srv'.table.startChannels x = none := by
  have hs : runEnds (step (KV.shape 0)) (fun _ _ => True)
      (init : Server (KV.Op 3) (Nat × Int) KV.KVReplyMsg)
      [.call samplePut, .start 0 true, .call samplePut, .start 1 true]
      (fun srv _ => decide (¬ srv.Deadlocked)) = true := by
    decide +kernel
  obtain ⟨srv, past, h, ht, hd⟩ := exists_of_runEnds hs
  exact ⟨srv, past, h, (drains (KV.shape 0) srv past ht).2.mp (of_decide_eq_true hd)⟩

end Server

end ShardRaft.Service
