import ShardRaft.KV.Node

/-!
# Genuine replies

What a handler takes from its channel should be the answer to its own request.  It is not,
when a retry has put its channel in the place of an earlier one: the handler of the earlier
attempt, once it is refused or its timer has fired, closes the channel of the retry, which
then receives the zero message and replies with an empty `Err`.

`Careful` excludes exactly this step: a handler removes a channel on which somebody else
waits.  Without it all replies are genuine (`genuine_of_careful`), and after it the reply of
the one who waits may be the zero message (`not_genuine_after_careless`).
-/

namespace ShardRaft.KV

open ShardRaft.Lib

variable {n : Nat}

/-- The constants of `common.go`. -/
def Err.declared : List Err := [.ok, .errNoKey, .errWrongLeader, .errOther, .errTimeout, .errFiller]

theorem Err.mem_declared {err : Err} (h : err ≠ .unset) : err ∈ declared := by
  cases err with
  | unset => exact absurd rfl h
  | _ => decide

/-- What the handler has taken from its channel was made for an op of its own request. -/
def Handling.Genuine (produced : List (Op n × KVReplyMsg)) (hd : Handling n) : Prop :=
  ∀ op m, hd.handler = .received op m → ∃ op' msg, m = some msg ∧ (op', msg) ∈ produced ∧
    op'.id = hd.request.id

/-- The handler waits for an op of its own request. -/
def Handling.Own (hd : Handling n) : Prop :=
  ∀ op ch, hd.handler.awaits = some (op, ch) → op.id = hd.request.id

/-! ### Messages -/

theorem reply_ne_unset (st : State) (op : Op n) (isLeader : Bool) :
    (st.reply op isLeader).error ≠ .unset := by
  have hget : (st.getValue op).error ≠ .unset := by
    unfold State.getValue
    cases st.keyValueStore op.key <;> simp
  unfold State.reply
  cases isLeader with
  | false => simp
  | true =>
    rw [if_pos rfl]
    unfold State.applyOp
    split
    · split
      · exact hget
      · simp
    · cases op.type with
      | get => exact hget
      | put => simp
      | append => simp

theorem err_of_handleResult {msg : KVReplyMsg} {request : Request} {reply : Reply}
    (h : handleResult msg request = some reply) : reply.err = msg.error := by
  cases request with
  | get args =>
    have h : KVServer.handleGetResult msg = some reply := h
    unfold KVServer.handleGetResult at h
    split at h
    · exact absurd h (by simp)
    · cases h; rfl
  | putAppend args =>
    have h : KVServer.handlePutAppendResult msg = some reply := h
    unfold KVServer.handlePutAppendResult at h
    split at h
    · exact absurd h (by simp)
    · cases h; rfl

namespace Node

variable {nd nd' : Node n} {e : Event n}

/-- Every message a handler has received is the answer to its request, and every error that
went out is a declared one. -/
structure Genuine (nd : Node n) : Prop where
  received : ∀ hd ∈ nd.handlers, hd.Genuine nd.produced
  replied : ∀ x ∈ nd.replied, x.2.err ∈ Err.declared

/-- A handler that leaves does not find, under its request, a channel on which another one
waits. -/
def Careful (nd : Node n) : Event n → Prop
  | .finish k => ∀ hd ∈ nd.handlers[k]?, ∀ op ∈ Service.Server.leaving hd.handler,
      ∀ startCh ∈ nd.kv.getStartCh op, ∀ hd' ∈ nd.handlers,
        hd'.handler.listensOn ≠ some startCh.replyChannel
  | _ => True

theorem careful_server {e' : Service.Event (Op n) KVReplyMsg} (hc : nd.Careful e)
    (he : ∀ k, e' = .finish k → e = .finish k) : nd.server.Careful (shape nd.kv.me) e' := by
  cases e' with
  | finish k =>
    rw [he k rfl] at hc
    rintro h hk op hl y hy ⟨h', hmem, hlisten⟩
    obtain ⟨hd, hd_mem, rfl⟩ := Option.map_eq_some_iff.mp ((List.getElem?_map ..).symm.trans hk)
    obtain ⟨hd', hd'_mem, rfl⟩ := List.mem_map.mp hmem
    obtain ⟨startCh, hstart, rfl⟩ := Option.map_eq_some_iff.mp hy
    exact hc hd hd_mem op hl startCh hstart hd' hd'_mem hlisten
  | _ => trivial

/-! ### The invariant -/

/-- What carries the replies from the apply loop to the handlers. -/
structure Answers (me : Fin n) (nd : Node n) : Prop where
  inv : Inv me nd
  named : Service.Server.Named (shape me) nd.server
  noneClosed : nd.server.NoneClosed
  own : ∀ hd ∈ nd.handlers, hd.Own
  sending : ∀ op ch msg, nd.sending = some (op, ch, msg) → (op, msg) ∈ nd.produced
  produced : ∀ x ∈ nd.produced, x.2.error ≠ .unset
  genuine : nd.Genuine

theorem answers_init (me : Fin n) (snapshot : Option State) : Answers me (init me snapshot) where
  inv := inv_init me snapshot
  named := fun h hmem => absurd hmem List.not_mem_nil
  noneClosed := by
    rintro ch ⟨h, hmem, -⟩
    exact absurd hmem List.not_mem_nil
  own := by simp [init]
  sending := by simp [init]
  produced := by simp [init]
  genuine := ⟨by simp [init], by simp [init]⟩

theorem forall_setHandler {P : Handling n → Prop} {k : Nat} {hd : Handling n}
    {h : Service.Handler (Op n) KVReplyMsg} (hall : ∀ hd ∈ nd.handlers, P hd)
    (hnew : P { hd with handler := h }) : ∀ hd' ∈ (nd.setHandler k hd h).handlers, P hd' := by
  intro hd' hmem
  rcases List.mem_or_eq_of_mem_set hmem with hmem | rfl
  · exact hall hd' hmem
  · exact hnew

/-- The two facts about the channels alone. -/
theorem Answers.channels {me : Fin n} (ha : Answers me nd) (hc : nd.Careful e)
    (hm : Move nd e nd') : Service.Server.Named (shape me) nd'.server ∧ nd'.server.NoneClosed := by
  obtain ⟨-, heq | ⟨e', he, hserver⟩⟩ := server_move hm
  · rw [heq]
    exact ⟨ha.named, ha.noneClosed⟩
  · have hcareful := careful_server hc he
    rw [ha.inv.same] at hserver hcareful
    exact ⟨Service.Server.named_move ha.inv.server ha.named hserver,
      Service.Server.noneClosed_move ha.inv.server ha.noneClosed hcareful hserver⟩

theorem own_move (ho : ∀ hd ∈ nd.handlers, hd.Own) (hm : Move nd e nd') :
    ∀ hd ∈ nd'.handlers, hd.Own := by
  -- a handler that has left
  have hset : ∀ (k : Nat) (hd : Handling n) h, h.awaits = none →
      ∀ hd' ∈ (nd.setHandler k hd h).handlers, hd'.Own := by
    intro k hd h hne
    refine forall_setHandler ho ?_
    intro op ch ha
    exact absurd (hne.symm.trans ha) (by simp)
  cases hm with
  | called request _ =>
    refine List.forall_mem_append.mpr ⟨ho, List.forall_mem_singleton.mpr ?_⟩
    intro op ch ha
    cases ha
    exact createOp_id nd.kv request
  | started k hd op ch hk hopen =>
    refine forall_setHandler ho ?_
    intro op' ch' ha
    refine ho hd (List.mem_of_getElem? hk) op' ch' ?_
    rw [hopen]
    exact ha
  | refused k hd op ch _ _ => exact hset k hd _ rfl
  | zero k hd op ch _ _ _ => exact hset k hd _ rfl
  | timedOut k hd op ch _ _ => exact hset k hd _ rfl
  | finished k hd op kv reply _ _ _ _ _ => exact hset k hd _ rfl
  | signalled k hd op op' ch msg kv _ _ _ _ => exact hset k hd _ rfl
  | restarted snapshot => simp [restart, init]
  | _ => exact ho

/-- A message that is sent was made for the op it is sent for, and no message is without an
error. -/
theorem sending_move (hs : ∀ op ch msg, nd.sending = some (op, ch, msg) → (op, msg) ∈ nd.produced)
    (hp : ∀ x ∈ nd.produced, x.2.error ≠ .unset) (hm : Move nd e nd') :
    (∀ op ch msg, nd'.sending = some (op, ch, msg) → (op, msg) ∈ nd'.produced) ∧
      ∀ x ∈ nd'.produced, x.2.error ≠ .unset := by
  cases hm with
  | applied op isLeader _ _ =>
    refine ⟨?_, List.forall_mem_append.mpr ⟨hp, List.forall_mem_singleton.mpr ?_⟩⟩
    · intro op' ch msg h
      obtain ⟨x, hx, heq⟩ := Option.map_eq_some_iff.mp h
      cases heq
      rw [(State.handleCommandApply_eq nd.kv op isLeader).2 ch msg hx]
      exact List.mem_append_right _ (List.mem_singleton_self _)
    · exact reply_ne_unset nd.kv.state op isLeader
  | signalled k hd op op' ch msg kv _ _ _ _ => exact ⟨by simp, hp⟩
  | restarted snapshot => exact ⟨by simp [restart, init], by simp [restart, init]⟩
  | _ => exact ⟨hs, hp⟩

theorem Answers.reply_declared {me : Fin n} (ha : Answers me nd) {hd : Handling n} {reply : Reply}
    (hmem : hd ∈ nd.handlers) (hr : hd.reply = some reply) : reply.err ∈ Err.declared := by
  have hgen := ha.genuine.received hd hmem
  unfold Handling.reply at hr
  split at hr
  · cases hr
    exact Err.mem_declared (by simp)
  · rename_i op m hrec
    obtain ⟨op', msg, rfl, hmsg, -⟩ := hgen op m hrec
    refine Err.mem_declared ?_
    rw [err_of_handleResult hr]
    exact ha.produced _ hmsg
  · cases hr
    exact Err.mem_declared (by simp)
  · exact absurd hr (by simp)

theorem Answers.sent_own {me : Fin n} (ha : Answers me nd) {hd : Handling n} {op op' : Op n}
    {ch : Nat} {msg : KVReplyMsg} (hs : nd.sending = some (op, ch, msg)) (hmem : hd ∈ nd.handlers)
    (hw : hd.handler = .waiting op' ch) : op.id = hd.request.id := by
  have hawaits : hd.handler.awaits = some (op', ch) := by rw [hw]; rfl
  obtain ⟨y, hy, hych⟩ := ha.inv.server.sending _ hs
  have hnamed := ha.named hd.handler (List.mem_map_of_mem hmem) op' ch hawaits _ y hy hych
  calc op.id = op'.id := hnamed
    _ = hd.request.id := ha.own hd hmem op' ch hawaits

theorem genuine_move {me : Fin n} (ha : Answers me nd) (hm : Move nd e nd') : nd'.Genuine := by
  have hg := ha.genuine
  -- a handler that has received nothing
  have hset : ∀ (k : Nat) (hd : Handling n) h, (∀ op m, h ≠ .received op m) →
      ∀ hd' ∈ (nd.setHandler k hd h).handlers, hd'.Genuine nd.produced := by
    intro k hd h hne
    refine forall_setHandler hg.received ?_
    intro op m heq
    exact absurd heq (hne op m)
  cases hm with
  | turnedAway request isLeader killed opIndex =>
    refine ⟨hg.received, List.forall_mem_append.mpr ⟨hg.replied, List.forall_mem_singleton.mpr ?_⟩⟩
    exact Err.mem_declared (by simp)
  | called request _ =>
    refine ⟨List.forall_mem_append.mpr ⟨hg.received, List.forall_mem_singleton.mpr ?_⟩, hg.replied⟩
    intro op m heq
    exact absurd heq (by simp)
  | started k hd op ch _ _ => exact ⟨hset k hd _ (by simp), hg.replied⟩
  | refused k hd op ch _ _ => exact ⟨hset k hd _ (by simp), hg.replied⟩
  | zero k hd op ch hk hw hc =>
    -- nobody waits on a closed channel
    have hheard : nd.server.Heard ch :=
      ⟨hd.handler, List.mem_map_of_mem (List.mem_of_getElem? hk), by rw [hw]; rfl⟩
    have hopen : nd.kv.isClosed ch = false := ha.noneClosed ch hheard
    rw [hc] at hopen
    exact absurd hopen (by simp)
  | timedOut k hd op ch _ _ => exact ⟨hset k hd _ (by simp), hg.replied⟩
  | finished k hd op kv reply _ hk _ _ hr =>
    refine ⟨hset k hd _ (by simp),
      List.forall_mem_append.mpr ⟨hg.replied, List.forall_mem_singleton.mpr ?_⟩⟩
    exact ha.reply_declared (List.mem_of_getElem? hk) hr
  | applied op isLeader _ _ =>
    refine ⟨?_, hg.replied⟩
    intro hd hmem op' m hrec
    obtain ⟨op'', msg, hm, hmsg, hid⟩ := hg.received hd hmem op' m hrec
    exact ⟨op'', msg, hm, List.mem_append_left _ hmsg, hid⟩
  | installed state => exact ⟨hg.received, hg.replied⟩
  | signalled k hd op op' ch msg kv hs hk hw _ =>
    refine ⟨forall_setHandler hg.received ?_, hg.replied⟩
    have hid := ha.sent_own hs (List.mem_of_getElem? hk) hw
    intro op₁ m heq
    cases heq
    exact ⟨op, msg, rfl, ha.sending op ch msg hs, hid⟩
  | restarted snapshot => exact ⟨by simp [restart, init], hg.replied⟩

theorem answers_move {me : Fin n} (ha : Answers me nd) (hc : nd.Careful e)
    (hm : Move nd e nd') : Answers me nd' where
  inv := inv_move ha.inv hm
  named := (ha.channels hc hm).1
  noneClosed := (ha.channels hc hm).2
  own := own_move ha.own hm
  sending := (sending_move ha.sending ha.produced hm).1
  produced := (sending_move ha.sending ha.produced hm).2
  genuine := genuine_move ha hm

/-- **Replies are genuine** in every run in which no handler removes a channel on which another
one waits. -/
theorem genuine_of_careful (me : Fin n) (snapshot : Option State) (tr : List (Node n))
    (h : Run me snapshot Careful tr) : ∀ nd ∈ tr, nd.Genuine := by
  have hall := Trace.invariant (I := Answers me) (answers_init me snapshot)
    (fun nd nd' e ha hc hs => answers_move ha hc (move_of_step hs)) tr h
  exact fun nd hnd => (hall nd hnd).genuine

instance (nd : Node n) (e : Event n) : Decidable (nd.Careful e) :=
  match e with
  | .finish _ => inferInstanceAs (Decidable (∀ hd ∈ _, ∀ op ∈ _, ∀ startCh ∈ _, ∀ hd' ∈ _, _))
  | .call _ _ _ | .start _ _ | .receiveClosed _ | .timeout _ | .apply _ _ | .snapshotMsg _
  | .signal _ | .restart _ => .isTrue trivial

/-- The first attempt is gone when the retry comes. -/
theorem genuine_of_careful_answered :
    ∃ nd past, run step Careful (init (0 : Fin 3) none)
        [.call sampleGet true false, .start 0 true, .timeout 0, .finish 0,
          .call sampleGet true false, .start 1 true, .apply ⟨0, 1, .get, "k", "", 5, 1⟩ true,
          .signal 1, .finish 1] [] = some (nd :: past) ∧
      nd.replied = [(sampleGet, ⟨.errTimeout, ""⟩), (sampleGet, ⟨.errNoKey, ""⟩)] ∧
      ∀ nd' ∈ nd :: past, nd'.Genuine := by
  have hs : runEnds step Careful (init (0 : Fin 3) none)
      [.call sampleGet true false, .start 0 true, .timeout 0, .finish 0,
        .call sampleGet true false, .start 1 true, .apply ⟨0, 1, .get, "k", "", 5, 1⟩ true,
        .signal 1, .finish 1]
      (fun nd _ => decide (nd.replied =
        [(sampleGet, ⟨.errTimeout, ""⟩), (sampleGet, ⟨.errNoKey, ""⟩)])) = true := by
    decide +kernel
  obtain ⟨nd, past, h, ht, hr⟩ := exists_of_runEnds hs
  exact ⟨nd, past, h, of_decide_eq_true hr, genuine_of_careful 0 none _ ht⟩

/-- The retry comes while the first attempt still waits.  The timer of the first attempt fires,
its handler closes the channel of the retry, and the retry replies with an empty `Err`, before
any op has been applied. -/
theorem retry_receives_zero_message :
    (∃ nd past, run step (fun _ _ => True) (init (0 : Fin 3) none)
        [.call sampleGet true false, .start 0 true, .call sampleGet true false, .start 1 true,
          .timeout 0, .finish 0, .receiveClosed 1, .finish 1] [] = some (nd :: past) ∧
      nd.produced = [] ∧
      nd.replied = [(sampleGet, ⟨.errTimeout, ""⟩), (sampleGet, ⟨.unset, ""⟩)]) ∧
    ¬ ∀ tr, Run (0 : Fin 3) none (fun _ _ => True) tr → ∀ nd ∈ tr, nd.Genuine := by
  have hs : runEnds step (fun _ _ => True) (init (0 : Fin 3) none)
      [.call sampleGet true false, .start 0 true, .call sampleGet true false, .start 1 true,
        .timeout 0, .finish 0, .receiveClosed 1, .finish 1]
      (fun nd _ => decide (nd.produced = [] ∧
        nd.replied = [(sampleGet, ⟨.errTimeout, ""⟩), (sampleGet, ⟨.unset, ""⟩)])) = true := by
    decide +kernel
  obtain ⟨nd, past, h, ht, hend⟩ := exists_of_runEnds hs
  have hend := of_decide_eq_true hend
  refine ⟨⟨nd, past, h, hend⟩, ?_⟩
  intro hall
  have hdeclared := (hall _ ht nd (List.mem_cons_self ..)).replied (sampleGet, ⟨.unset, ""⟩)
    (by rw [hend.2]; simp)
  exact absurd hdeclared (by decide)

/-! ### The condition is exact -/

/-- Whoever waits on a closed channel may receive the zero message. -/
theorem step_receiveClosed (nd : Node n) {k : Nat} {hd : Handling n} {op : Op n} {ch : Nat}
    (hk : nd.handlers[k]? = some hd) (hw : hd.handler = .waiting op ch)
    (hc : nd.kv.isClosed ch = true) :
    ∃ nd', nd.step (.receiveClosed k) = some nd' ∧ ¬ nd'.Genuine := by
  refine ⟨nd.setHandler k hd (.received op none), ?_, ?_⟩
  · change nd.receiveClosed k = _
    simp only [receiveClosed, hk, hw, hc, if_true]
  · intro hg
    have hlt := (List.getElem?_eq_some_iff.mp hk).1
    obtain ⟨op', msg, hnone, -⟩ := hg.received { hd with handler := .received op none }
      (List.mem_of_getElem? (List.getElem?_set_self hlt)) op none rfl
    exact absurd hnone (by simp)

theorem exists_not_genuine {me : Fin n} {snapshot : Option State} {past : List (Node n)} {k : Nat}
    {hd : Handling n} {ch : Nat} (h : Run me snapshot (fun _ _ => True) (nd :: past))
    (hk : nd.handlers[k]? = some hd) (hl : hd.handler.listensOn = some ch)
    (hc : nd.kv.isClosed ch = true) :
    ∃ nd' tr, Run me snapshot (fun _ _ => True) (nd' :: tr) ∧ nd ∈ tr ∧ ¬ nd'.Genuine := by
  cases hh : hd.handler with
  | opened op ch' =>
    -- its `Start` succeeds first
    rw [hh] at hl
    cases hl
    have hstart : nd.step (.start k true) = some { nd.setHandler k hd (.waiting op ch) with
        started := nd.started ++ [op] } := by
      change nd.start k true = _
      simp only [start, hk, hh, if_true]
    have hlt := (List.getElem?_eq_some_iff.mp hk).1
    obtain ⟨nd', hs, hnot⟩ := step_receiveClosed
      { nd.setHandler k hd (.waiting op ch) with started := nd.started ++ [op] }
      (List.getElem?_set_self hlt) rfl hc
    exact ⟨nd', _, .step (.step h trivial hstart) trivial hs, by simp, hnot⟩
  | waiting op ch' =>
    rw [hh] at hl
    cases hl
    obtain ⟨nd', hs, hnot⟩ := step_receiveClosed nd hk hh hc
    exact ⟨nd', _, .step h trivial hs, List.mem_cons_self .., hnot⟩
  | _ => rw [hh] at hl; exact absurd hl (by simp [Service.Handler.listensOn])

/-- **After a careless step** the run can go on to a reply that is not genuine. -/
theorem not_genuine_after_careless (me : Fin n) (snapshot : Option State) {past : List (Node n)}
    {k : Nat} (h : Run me snapshot (fun _ _ => True) (nd :: past))
    (hs : nd.step (.finish k) = some nd') (hc : ¬ nd.Careful (.finish k)) :
    ∃ nd'' tr, Run me snapshot (fun _ _ => True) (nd'' :: tr) ∧ nd' ∈ tr ∧ ¬ nd''.Genuine := by
  have hi : Inv me nd := inv_run h nd (List.mem_cons_self ..)
  have hrun : Run me snapshot (fun _ _ => True) (nd' :: nd :: past) := .step h trivial hs
  unfold Careful at hc
  push Not at hc
  obtain ⟨hd, hk, op, hl, startCh, hstart, hd', hmem, hlisten⟩ := hc
  have hk : nd.handlers[k]? = some hd := hk
  have hl : Service.Server.leaving hd.handler = some op := hl
  have hstart : nd.kv.getStartCh op = some startCh := hstart
  obtain ⟨j, hj⟩ := List.mem_iff_getElem?.mp hmem
  cases move_of_step hs with
  | finished _ hd₁ op₁ kv reply _ hk₁ hl₁ ht _ =>
    cases hk₁.symm.trans hk
    cases hl₁.symm.trans hl
    -- the handler that leaves does not listen
    have hjk : k ≠ j := by
      rintro rfl
      cases hj.symm.trans hk
      cases hh : hd.handler with
      | opened op ch => rw [hh] at hl; exact absurd hl (by simp [Service.Server.leaving])
      | waiting op ch => rw [hh] at hl; exact absurd hl (by simp [Service.Server.leaving])
      | _ => rw [hh] at hlisten; exact absurd hlisten (by simp [Service.Handler.listensOn])
    have hclosed : kv.isClosed startCh.replyChannel = true := by
      refine (Service.Table.isClosed_delete hi.server.table (table_of_deleteStartCh ht)).mpr ?_
      exact .inr (mem_closing.mp (by simp [KVServer.closing, hstart]))
    have hj' : (nd.handlers.set k { hd with handler := .returned })[j]? = some hd' := by
      rw [List.getElem?_set_ne hjk]
      exact hj
    exact exists_not_genuine hrun hj' hlisten hclosed

end Node

end ShardRaft.KV
