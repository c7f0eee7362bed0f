import ShardRaft.KV.Invariant

/-!
# Linearizability of the key/value service

The invariant of `Invariant.lean` is kept by every step (`inv_step`), and in every
state it gives an order of the calls (`linearizes_order`): the order of the places
that the calls have in the agreed sequence.
-/

namespace ShardRaft.KV

open ShardRaft.Lib

variable {n : Nat}

/-! ### Channels -/

theorem widens_preStart (o : Nat → Nat × Int) (kv : KVServer n) (op : Op n) :
    Widens o (Function.update o kv.channels.length op.id) kv (kv.preStart op).1 where
  channels := by
    change kv.channels.length ≤ (kv.channels ++ [false]).length
    rw [List.length_append]
    omega
  own := fun ch hch => Function.update_of_ne (Nat.ne_of_lt hch) _ _
  entries := by
    intro c r ch h
    change Function.update kv.startChannels op.clientId
      (Function.update (kv.startChannels op.clientId) op.requestIndex
        (some ⟨op, kv.channels.length⟩)) c r = some ch at h
    by_cases hc : c = op.clientId
    · subst hc
      rw [Function.update_self] at h
      by_cases hr : r = op.requestIndex
      · subst hr
        rw [Function.update_self] at h
        rw [← Option.some.inj h]
        refine .inr ⟨Function.update_self .., ?_⟩
        change kv.channels.length < (kv.channels ++ [false]).length
        rw [List.length_append]
        exact Nat.lt_add_one _
      · rw [Function.update_of_ne hr] at h
        exact .inl h
    · rw [Function.update_of_ne hc] at h
      exact .inl h

theorem deleteStartCh_eq_some {kv kv' : KVServer n} {op : Op n}
    (h : kv.deleteStartCh op = some kv') (o : Nat → Nat × Int) :
    Widens o o kv kv' ∧ kv'.state = kv.state := by
  unfold KVServer.deleteStartCh at h
  split at h
  · rw [← Option.some.inj h]
    exact ⟨.refl .., rfl⟩
  · split at h
    · exact absurd h (by simp)
    · rw [← Option.some.inj h]
      refine ⟨⟨by simp, fun _ _ => rfl, ?_⟩, rfl⟩
      intro c r ch hch
      change Function.update kv.startChannels op.clientId
        (Function.update (kv.startChannels op.clientId) op.requestIndex none) c r = some ch at hch
      by_cases hc : c = op.clientId
      · subst hc
        rw [Function.update_self] at hch
        by_cases hr : r = op.requestIndex
        · subst hr
          rw [Function.update_self] at hch
          exact absurd hch (by simp)
        · rw [Function.update_of_ne hr] at hch
          exact .inl hch
      · rw [Function.update_of_ne hc] at hch
        exact .inl hch

section steps

variable {own : Fin n → Nat → Nat × Int} {stamps : List Nat} {w w' : World n}

theorem widens_update {s : Fin n} {o' : Nat → Nat × Int} {kv' : KVServer n}
    (h : Widens (own s) o' (w.servers s) kv') (j : Fin n) :
    Widens (own j) (Function.update own s o' j) (w.servers j)
      (Function.update w.servers s kv' j) := by
  by_cases hj : j = s
  · subst hj
    rw [Function.update_self, Function.update_self]
    exact h
  · rw [Function.update_of_ne hj, Function.update_of_ne hj]
    exact .refl ..

theorem onward_of_eq (hH : w'.history = w.history) (hl : w'.log = w.log)
    (hc : w'.clerks = w.clerks) : Onward w w' :=
  ⟨fun m hm => hH ▸ hm, ⟨[], by rw [hl, List.append_nil]⟩, fun c => .inr (by rw [hc]; exact ⟨rfl, rfl⟩)⟩

/-! ### The clerks' steps -/

theorem inv_dropRpcs (h : Inv own stamps w) {l : List (Rpc n)} (hl : ∀ rpc ∈ l, rpc ∈ w.rpcs) :
    Inv own stamps { w with rpcs := l } where
  clients := h.clients
  placed := h.placed
  agreed := ⟨h.agreed.servers, h.agreed.stored, h.agreed.snapshots⟩
  flow := h.flow.next (onward_of_eq rfl rfl rfl) (fun _ => .refl ..) (fun _ hop => .inl hop)
    (fun _ _ _ _ hs => .inl hs) fun rpc hmem => .inl (hl rpc hmem)

theorem proper_createArgs (ck : Clerk n) (c : Nat) (call : Call) :
    (ck.createArgs c call).Proper := by
  cases call with
  | get key => trivial
  | put key value => exact OpType.noConfusion
  | append key value => exact OpType.noConfusion

theorem onward_setClerk {c : Nat} {ck : Clerk n} (hatt : (w.clerks c).attempt < ck.attempt)
    (hH : ∀ m ∈ w.history, m ∈ w'.history) (hl : w'.log = w.log)
    (hc : w'.clerks = Function.update w.clerks c ck) : Onward w w' := by
  refine ⟨hH, ⟨[], by rw [hl, List.append_nil]⟩, ?_⟩
  intro c'
  rw [hc]
  by_cases hcc : c' = c
  · subst hcc
    rw [Function.update_self]
    exact .inl hatt
  · rw [Function.update_of_ne hcc]
    exact .inr ⟨rfl, rfl⟩

theorem rpcOk_send {c : Nat} {ck : Clerk n} {call : Call}
    (hc : w'.clerks = Function.update w.clerks c ck)
    (hinv : .invoke (c, ck.requestIndex) call ∈ w'.history) :
    RpcOk own w' ⟨c, ck.attempt, ck.lastLeaderServer, ck.createArgs c call, .called⟩ where
  proper := proper_createArgs ..
  client := by rw [createArgs_id]
  invoked := by rw [createArgs_id, createArgs_call]; exact hinv
  attempt_le := by rw [hc, Function.update_self]
  current := by
    intro _
    rw [hc, Function.update_self, createArgs_id]
  phase := trivial

theorem inv_send [NeZero n] (h : Inv own stamps w) {c : Nat} {call : Call}
    (hcall : (w.clerks c).call = some call) :
    Inv own stamps (w.send c (w.clerks c).nextServer call) where
  clients := h.clients.setClerk rfl rfl
  placed := h.placed
  agreed := ⟨h.agreed.servers, h.agreed.stored, h.agreed.snapshots⟩
  flow := by
    have ho : Onward w (w.send c (w.clerks c).nextServer call) :=
      onward_setClerk (Nat.lt_add_one _) (fun _ hm => hm) rfl rfl
    refine h.flow.next ho (fun _ => .refl ..) (fun _ hop => .inl hop) (fun _ _ _ _ hs => .inl hs) ?_
    intro rpc hmem
    rcases List.mem_append.mp hmem with hmem | hmem
    · exact .inl hmem
    · rw [List.mem_singleton.mp hmem]
      exact .inr (rpcOk_send rfl (h.clients.current c call hcall))

theorem inv_invoke (h : Inv own stamps w) {c : Nat} {call : Call}
    (hs : w.invoke c call = some w') : Inv own stamps w' := by
  unfold World.invoke at hs
  dsimp only at hs
  split at hs
  · exact absurd hs (by simp)
  rename_i hidle
  have hidle : (w.clerks c).call = none := by simpa using hidle
  rw [← Option.some.inj hs]
  have hmem : Moment.invoke (c, (w.clerks c).requestIndex + 1) call
      ∈ w.history ++ [.invoke (c, (w.clerks c).requestIndex + 1) call] :=
    List.mem_append_right _ (List.mem_singleton_self _)
  refine ⟨h.clients.invoke rfl rfl hidle, ?_, ⟨h.agreed.servers, h.agreed.stored,
    h.agreed.snapshots⟩, ?_⟩
  · refine h.placed.invoke call ?_
    intro op hop hid
    have hinv := h.placed.invoked op hop
    rw [hid] at hinv
    exact h.clients.fresh _ hinv
  · refine h.flow.next (onward_setClerk (Nat.lt_add_one _)
      (fun _ hm => List.mem_append_left _ hm) rfl rfl) (fun _ => .refl ..) (fun _ hop => .inl hop)
      (fun _ _ _ _ hs => .inl hs) ?_
    intro rpc hrpc
    rcases List.mem_append.mp hrpc with hrpc | hrpc
    · exact .inl hrpc
    · rw [List.mem_singleton.mp hrpc]
      exact .inr (rpcOk_send rfl hmem)

/-- The result a clerk returns is the one the plain map gives at the place where
the reply was computed. -/
theorem returns_spec {log : List (Op n)} {reply : Reply} {call : Call} {res : Option String}
    {p : Nat} {op : Op n} (hr : Clerk.returns reply call = some res) (hcall : op.call = call)
    (hget : op.type = .get → (stateAt log p).keyValueStore op.key
      = if reply.err = .ok then some reply.value else none) :
    (spec (stateAt log p).keyValueStore op.call).2 = res := by
  subst hcall
  unfold Op.call at hr ⊢
  cases ht : op.type with
  | get =>
    rw [ht] at hr
    have hkey := hget ht
    change some (((stateAt log p).keyValueStore op.key).getD "") = res
    change (if reply.err = .ok then some (some reply.value)
      else if reply.err = .errNoKey then some (some "") else none) = some res at hr
    rw [hkey]
    by_cases hok : reply.err = .ok
    · rw [if_pos hok] at hr ⊢
      exact Option.some.inj hr
    · rw [if_neg hok] at hr ⊢
      split at hr
      · exact Option.some.inj hr
      · exact absurd hr (by simp)
  | put =>
    rw [ht] at hr
    change (if reply.err = .ok then some none else none) = some res at hr
    split at hr
    · exact Option.some.inj hr
    · exact absurd hr (by simp)
  | append =>
    rw [ht] at hr
    change (if reply.err = .ok then some none else none) = some res at hr
    split at hr
    · exact Option.some.inj hr
    · exact absurd hr (by simp)

/-- Only two errors end a call. -/
theorem err_of_returns {reply : Reply} {call : Call} {res : Option String}
    (hr : Clerk.returns reply call = some res) : reply.err = .ok ∨ reply.err = .errNoKey := by
  by_contra hne
  rw [not_or] at hne
  cases call <;> simp [Clerk.returns, hne.1, hne.2] at hr

theorem inv_receive [NeZero n] (h : Inv own stamps w) {k : Nat} {rpc : Rpc n} {reply : Reply}
    (hk : w.rpcs[k]? = some rpc) (hphase : rpc.phase = .replied reply) :
    Inv own stamps (w.receive k rpc reply) := by
  have hok := h.flow.rpcs rpc (List.mem_of_getElem? hk)
  have hdrop : Inv own stamps { w with rpcs := w.rpcs.eraseIdx k } :=
    inv_dropRpcs h fun _ hm => List.mem_of_mem_eraseIdx hm
  unfold World.receive
  dsimp only
  split
  · exact hdrop
  rename_i hatt
  have hatt : rpc.attempt = (w.clerks rpc.client).attempt := not_not.mp hatt
  cases hcall : (w.clerks rpc.client).call with
  | none => exact hdrop
  | some call =>
    dsimp only
    cases hret : Clerk.returns reply call with
    | none => exact inv_send hdrop hcall
    | some res =>
      -- the reply is about the clerk's present call
      have hid : rpc.request.id = (rpc.client, (w.clerks rpc.client).requestIndex) :=
        Prod.ext hok.client (hok.current hatt)
      have hreply := hok.phase
      rw [hphase, PhaseOk] at hreply
      obtain ⟨p, op, hop, hopid, hget⟩ := hreply (err_of_returns hret)
      have hopcall : op.call = call := by
        have h1 := h.placed.invoked op (List.mem_of_getElem? hop)
        rw [hopid, hid] at h1
        exact h.clients.invoked_once _ _ _ h1 (h.clients.current _ call hcall)
      have hplaced := h.placed.respond hop (returns_spec hret hopcall hget)
      rw [hopid, hid] at hplaced
      refine ⟨h.clients.respond rfl rfl hcall, hplaced, ⟨h.agreed.servers, h.agreed.stored,
        h.agreed.snapshots⟩, ?_⟩
      refine hdrop.flow.next ⟨fun _ hm => List.mem_append_left _ hm, ⟨[], by simp [World.setClerk]⟩,
        ?_⟩ (fun _ => .refl ..) (fun _ hop => .inl hop) (fun _ _ _ _ hs => .inl hs)
        (fun _ hm => .inl hm)
      intro c
      refine .inr ?_
      change (Function.update w.clerks rpc.client _ c).attempt = (w.clerks c).attempt ∧
        (Function.update w.clerks rpc.client _ c).requestIndex = (w.clerks c).requestIndex
      by_cases hc : c = rpc.client
      · rw [hc, Function.update_self]
        exact ⟨rfl, rfl⟩
      · rw [Function.update_of_ne hc]
        exact ⟨rfl, rfl⟩

/-! ### The handlers' steps -/

theorem inv_handler (h : Inv own stamps w) {k : Nat} {rpc : Rpc n} {o' : Nat → Nat × Int}
    {kv' : KVServer n} (phase : Phase n) (st : List (Op n))
    (sending : Fin n → Option (Op n × Nat × KVReplyMsg)) (hk : w.rpcs[k]? = some rpc)
    (hw : Widens (own rpc.server) o' (w.servers rpc.server) kv')
    (hstate : kv'.state = (w.servers rpc.server).state)
    (hst : ∀ op ∈ st, op ∈ w.started ∨ .invoke op.id op.call ∈ w.history)
    (hsend : ∀ s x, sending s = some x → w.sending s = some x)
    (hp : PhaseOk o' kv'.channels.length w.log rpc.request phase) :
    Inv (Function.update own rpc.server o') stamps { w with
      servers := Function.update w.servers rpc.server kv'
      rpcs := w.rpcs.set k { rpc with phase := phase }
      started := st
      sending := sending } where
  clients := h.clients
  placed := h.placed
  agreed := by
    refine ⟨?_, h.agreed.stored, h.agreed.snapshots⟩
    intro s
    change SnapOk w.log (w.delivered s, (Function.update w.servers rpc.server kv' s).state)
    by_cases hs : s = rpc.server
    · rw [hs, Function.update_self, hstate]
      exact h.agreed.servers _
    · rw [Function.update_of_ne hs]
      exact h.agreed.servers s
  flow := by
    refine h.flow.next (onward_of_eq rfl rfl rfl) (widens_update hw) hst
      (fun s op ch msg hs => .inl (hsend s _ hs)) ?_
    intro rpc' hmem
    rcases List.mem_or_eq_of_mem_set hmem with hmem | rfl
    · exact .inl hmem
    · have hok := h.flow.rpcs rpc (List.mem_of_getElem? hk)
      refine .inr ⟨hok.proper, hok.client, hok.invoked, hok.attempt_le, hok.current, ?_⟩
      change PhaseOk (Function.update own rpc.server o' rpc.server)
        (Function.update w.servers rpc.server kv' rpc.server).channels.length _ _ _
      rw [Function.update_self, Function.update_self]
      exact hp

theorem inv_setPhase (h : Inv own stamps w) {k : Nat} {rpc : Rpc n} {phase : Phase n}
    {st : List (Op n)} (hk : w.rpcs[k]? = some rpc)
    (hst : ∀ op ∈ st, op ∈ w.started ∨ .invoke op.id op.call ∈ w.history)
    (hp : PhaseOk (own rpc.server) (w.servers rpc.server).channels.length w.log rpc.request
      phase) : Inv own stamps (({ w with started := st } : World n).setPhase k rpc phase) := by
  have hnext := inv_handler h phase st w.sending hk (.refl ..) rfl hst
    (fun _ _ hs => hs) hp
  rw [Function.update_eq_self, Function.update_eq_self] at hnext
  exact hnext

theorem inv_close (h : Inv own stamps w) {k : Nat} {rpc : Rpc n} {op : Op n} {reply : Reply}
    (hk : w.rpcs[k]? = some rpc) (hr : ReplyOk w.log rpc.request.id reply.err reply.value)
    (hs : w.close k rpc op reply = some w') : Inv own stamps w' := by
  unfold World.close at hs
  split at hs
  · exact absurd hs (by simp)
  obtain ⟨kv, hkv, hs⟩ := Option.bind_eq_some_iff.mp hs
  rw [← Option.some.inj hs]
  obtain ⟨hw, hstate⟩ := deleteStartCh_eq_some hkv (own rpc.server)
  have hnext := inv_handler h (.replied reply) w.started w.sending hk hw hstate
    (fun _ hop => .inl hop) (fun _ _ hs => hs) hr
  rw [Function.update_eq_self] at hnext
  exact hnext

/-- A request for `Put` or `Append` is not answered by what stands at a `Get`. -/
theorem type_ne_get (h : Inv own stamps w) {rpc : Rpc n} (hrpc : rpc ∈ w.rpcs)
    {args : PutAppendArgs} (hreq : rpc.request = .putAppend args) {op : Op n} (hop : op ∈ w.log)
    (hid : op.id = rpc.request.id) : op.type ≠ .get := by
  intro hg
  have hok := h.flow.rpcs rpc hrpc
  have hinv := h.placed.invoked op hop
  rw [hid] at hinv
  have hcall := h.clients.invoked_once _ _ _ hinv hok.invoked
  have hproper := hok.proper
  rw [hreq] at hcall hproper
  rw [Op.call, hg] at hcall
  cases ha : args.op with
  | get => exact hproper ha
  | put => simp [Request.call, ha] at hcall
  | append => simp [Request.call, ha] at hcall

theorem replyOk_handleResult (h : Inv own stamps w) {rpc : Rpc n} (hrpc : rpc ∈ w.rpcs)
    {msg : KVReplyMsg} {reply : Reply} (hmsg : ReplyOk w.log rpc.request.id msg.error msg.value)
    (hr : handleResult msg rpc.request = some reply) :
    ReplyOk w.log rpc.request.id reply.err reply.value := by
  cases hreq : rpc.request with
  | get args =>
    rw [hreq] at hr hmsg
    simp only [handleResult, KVServer.handleGetResult] at hr
    split at hr
    · exact absurd hr (by simp)
    · rw [← Option.some.inj hr]
      exact hmsg
  | putAppend args =>
    have hne : ∀ op ∈ w.log, op.id = rpc.request.id → op.type ≠ .get :=
      fun op hop hid => type_ne_get h hrpc hreq hop hid
    rw [hreq] at hr hmsg hne
    simp only [handleResult, KVServer.handlePutAppendResult] at hr
    split at hr
    · exact absurd hr (by simp)
    · rw [← Option.some.inj hr]
      intro he
      obtain ⟨p, op, hop, hid, -⟩ := hmsg he
      exact ⟨p, op, hop, hid, fun hg => absurd hg (hne op (List.mem_of_getElem? hop) hid)⟩

theorem inv_stepRpc [NeZero n] (h : Inv own stamps w) {k : Nat} {answer : Bool}
    (hs : w.stepRpc k answer = some w') : ∃ own', Inv own' stamps w' := by
  unfold World.stepRpc at hs
  cases hk : w.rpcs[k]? with
  | none => rw [hk] at hs; exact absurd hs (by simp)
  | some rpc =>
    rw [hk] at hs
    dsimp only at hs
    have hmem := List.mem_of_getElem? hk
    have hok := h.flow.rpcs rpc hmem
    have hphase := hok.phase
    cases hph : rpc.phase with
    | called =>
      rw [hph] at hs
      rw [← Option.some.inj hs]
      refine ⟨own, inv_setPhase h hk (fun _ hop => .inl hop) ?_⟩
      cases answer with
      | false => exact replyOk_of_ne (by simp) (by simp)
      | true => trivial
    | leader =>
      rw [hph] at hs
      dsimp only at hs
      split at hs
      · exact absurd hs (by simp)
      rw [← Option.some.inj hs]
      refine ⟨_, inv_handler h _ w.started w.sending hk
        (widens_preStart (own rpc.server) (w.servers rpc.server)
          ((w.servers rpc.server).createOp rpc.request)) rfl (fun _ hop => .inl hop)
        (fun _ _ hs => hs) ?_⟩
      refine ⟨?_, ?_, createOp_id .., createOp_call ..⟩
      · change Function.update _ (w.servers rpc.server).channels.length _
          (w.servers rpc.server).channels.length = _
        rw [Function.update_self, createOp_id]
      · change (w.servers rpc.server).channels.length
          < ((w.servers rpc.server).channels ++ [false]).length
        rw [List.length_append]
        exact Nat.lt_add_one _
    | opened op ch =>
      rw [hph] at hs hphase
      cases answer with
      | true =>
        rw [← Option.some.inj hs]
        refine ⟨own, inv_setPhase h hk ?_ hphase⟩
        intro op' hop'
        rcases List.mem_append.mp hop' with hop' | hop'
        · exact .inl hop'
        · rw [List.mem_singleton.mp hop', hphase.2.2.1, hphase.2.2.2]
          exact .inr hok.invoked
      | false =>
        rw [← Option.some.inj hs]
        exact ⟨own, inv_setPhase h hk (fun _ hop => .inl hop) trivial⟩
    | refused op =>
      rw [hph] at hs
      exact ⟨own, inv_close h hk (replyOk_of_ne (by simp) (by simp)) hs⟩
    | waiting op ch =>
      rw [hph] at hs
      cases answer with
      | true =>
        dsimp only at hs
        rw [if_pos rfl] at hs
        split at hs
        · rw [← Option.some.inj hs]
          exact ⟨own, inv_setPhase h hk (fun _ hop => .inl hop)
            (replyOk_of_ne (by simp) (by simp))⟩
        · exact absurd hs (by simp)
      | false =>
        rw [← Option.some.inj hs]
        exact ⟨own, inv_setPhase h hk (fun _ hop => .inl hop) trivial⟩
    | received op msg =>
      rw [hph] at hs hphase
      obtain ⟨reply, hr, hs⟩ := Option.bind_eq_some_iff.mp hs
      exact ⟨own, inv_close h hk (replyOk_handleResult h hmem hphase hr) hs⟩
    | timedOut op =>
      rw [hph] at hs
      exact ⟨own, inv_close h hk (replyOk_of_ne (by simp) (by simp)) hs⟩
    | replied reply =>
      rw [hph] at hs
      rw [← Option.some.inj hs]
      exact ⟨own, inv_receive h hk hph⟩

/-- **The rendezvous**: the handler that takes the message waits for its own request. -/
theorem inv_signal (h : Inv own stamps w) {s : Fin n} {k : Nat}
    (hs : w.signal s k = some w') : Inv own stamps w' := by
  unfold World.signal at hs
  cases hsend : w.sending s with
  | none => rw [hsend] at hs; exact absurd hs (by simp)
  | some x =>
    obtain ⟨op, ch, msg⟩ := x
    cases hk : w.rpcs[k]? with
    | none => rw [hsend, hk] at hs; exact absurd hs (by simp)
    | some rpc =>
      rw [hsend, hk] at hs
      dsimp only at hs
      split at hs
      · exact absurd hs (by simp)
      cases hph : rpc.phase with
      | waiting op' ch' =>
        rw [hph] at hs
        dsimp only at hs
        split at hs
        · rename_i heq
          obtain ⟨hserver, rfl⟩ := heq
          obtain ⟨kv, hkv, hs⟩ := Option.bind_eq_some_iff.mp hs
          rw [← Option.some.inj hs]
          subst hserver
          obtain ⟨hw, hstate⟩ := deleteStartCh_eq_some hkv (own rpc.server)
          obtain ⟨hown, -, hreply⟩ := h.flow.sending _ op ch' msg hsend
          have hphase := (h.flow.rpcs rpc (List.mem_of_getElem? hk)).phase
          rw [hph] at hphase
          have hp : ReplyOk w.log rpc.request.id msg.error msg.value := by
            rw [← hphase.1, hown]; exact hreply
          have hnext := inv_handler h (.received op' msg) w.started
            (Function.update w.sending rpc.server none) hk hw hstate (fun _ hop => .inl hop) ?_ hp
          · rw [Function.update_eq_self] at hnext
            exact hnext
          · intro j x hj
            by_cases hjs : j = rpc.server
            · rw [hjs, Function.update_self] at hj
              exact absurd hj (by simp)
            · rw [Function.update_of_ne hjs] at hj
              exact hj
        · exact absurd hs (by simp)
      | called => rw [hph] at hs; exact absurd hs (by simp)
      | leader => rw [hph] at hs; exact absurd hs (by simp)
      | opened _ _ => rw [hph] at hs; exact absurd hs (by simp)
      | refused _ => rw [hph] at hs; exact absurd hs (by simp)
      | received _ _ => rw [hph] at hs; exact absurd hs (by simp)
      | timedOut _ => rw [hph] at hs; exact absurd hs (by simp)
      | replied _ => rw [hph] at hs; exact absurd hs (by simp)

/-! ### The servers' steps -/

theorem snapOk_keepNewer {log : List (Op n)} {old : Option (Nat × State)} {new x : Nat × State}
    (hold : ∀ x, old = some x → SnapOk log x) (hnew : SnapOk log new)
    (h : keepNewer old new = some x) : SnapOk log x := by
  unfold keepNewer at h
  split at h
  · rename_i o
    split at h
    · rw [← Option.some.inj h]; exact hold o rfl
    · rw [← Option.some.inj h]; exact hnew
  · rw [← Option.some.inj h]; exact hnew

/-- What the apply loop sends is a reply to the command it has just applied, on the
channel that was made for its request. -/
theorem handleCommandApply_spec (kv : KVServer n) (op : Op n) (isLeader : Bool) :
    (kv.handleCommandApply op isLeader).1 = { kv with state := (kv.state.applyOp op).1 } ∧
      ∀ ch msg, (kv.handleCommandApply op isLeader).2 = some (ch, msg) →
        (∃ x, kv.startChannels op.clientId op.requestIndex = some x ∧ x.replyChannel = ch) ∧
        (msg = (kv.state.applyOp op).2 ∨ msg.error = .errWrongLeader) := by
  refine ⟨rfl, ?_⟩
  intro ch msg h
  unfold KVServer.handleCommandApply at h
  obtain ⟨ch', hch, heq⟩ := Option.map_eq_some_iff.mp h
  obtain ⟨rfl, rfl⟩ := Prod.mk.inj heq
  constructor
  · unfold KVServer.opChannelMatch at hch
    split at hch
    · exact absurd hch (by simp)
    split at hch
    · exact absurd hch (by simp)
    · rename_i x hx
      dsimp only at hch
      split at hch
      · exact absurd hch (by simp)
      · exact ⟨x, hx, Option.some.inj hch⟩
  · cases isLeader with
    | true => exact .inl rfl
    | false => exact .inr rfl

/-- The apply loop handles the command at its place. -/
theorem inv_applyAt (h : Inv own stamps w) {s : Fin n} {op : Op n}
    (hop : w.log[w.delivered s]? = some op) (isLeader overflow : Bool) :
    Inv own stamps { w.setServer s ((w.servers s).handleCommandApply op isLeader).1 with
      delivered := Function.update w.delivered s (w.delivered s + 1)
      sending := Function.update w.sending s
        (((w.servers s).handleCommandApply op isLeader).2.map fun (ch, msg) => (op, ch, msg))
      snapshots := if overflow then w.snapshots ++
          [(w.delivered s + 1, ((w.servers s).handleCommandApply op isLeader).1.state)]
        else w.snapshots
      stored := if overflow then Function.update w.stored s (keepNewer (w.stored s)
          (w.delivered s + 1, ((w.servers s).handleCommandApply op isLeader).1.state))
        else w.stored } := by
  obtain ⟨hkv, hsig⟩ := handleCommandApply_spec (w.servers s) op isLeader
  have hstate : (w.servers s).state = stateAt w.log (w.delivered s) := (h.agreed.servers s).2
  have hsnap : SnapOk w.log (w.delivered s + 1,
      ((w.servers s).handleCommandApply op isLeader).1.state) := by
    refine ⟨(List.getElem?_eq_some_iff.mp hop).1, ?_⟩
    rw [hkv, stateAt_succ hop, ← hstate]
  refine ⟨h.clients, h.placed, ⟨?_, ?_, ?_⟩, ?_⟩
  · intro j
    change SnapOk w.log (Function.update w.delivered s (w.delivered s + 1) j,
      (Function.update w.servers s ((w.servers s).handleCommandApply op isLeader).1 j).state)
    by_cases hj : j = s
    · rw [hj, Function.update_self, Function.update_self]
      exact hsnap
    · rw [Function.update_of_ne hj, Function.update_of_ne hj]
      exact h.agreed.servers j
  · intro j x hx
    cases overflow with
    | false => exact h.agreed.stored j x hx
    | true =>
      change Function.update w.stored s _ j = some x at hx
      by_cases hj : j = s
      · rw [hj, Function.update_self] at hx
        exact snapOk_keepNewer (h.agreed.stored s) hsnap hx
      · rw [Function.update_of_ne hj] at hx
        exact h.agreed.stored j x hx
  · intro x hx
    cases overflow with
    | false => exact h.agreed.snapshots x hx
    | true =>
      rcases List.mem_append.mp hx with hx | hx
      · exact h.agreed.snapshots x hx
      · rw [List.mem_singleton.mp hx]
        exact hsnap
  · have hw : ∀ j, Widens (own j) (own j) (w.servers j)
        (Function.update w.servers s ((w.servers s).handleCommandApply op isLeader).1 j) := by
      intro j
      by_cases hj : j = s
      · rw [hj, Function.update_self, hkv]
        exact ⟨le_rfl, fun _ _ => rfl, fun _ _ _ h => .inl h⟩
      · rw [Function.update_of_ne hj]
        exact .refl ..
    refine h.flow.next (onward_of_eq rfl rfl rfl) hw (fun _ hop => .inl hop) ?_
      (fun _ hm => .inl hm)
    intro j op' ch msg hj
    change Function.update w.sending s _ j = some (op', ch, msg) at hj
    by_cases hjs : j = s
    · rw [hjs, Function.update_self] at hj
      obtain ⟨⟨ch', msg'⟩, hx, heq⟩ := Option.map_eq_some_iff.mp hj
      obtain ⟨rfl, hpair⟩ := Prod.mk.inj heq
      obtain ⟨rfl, rfl⟩ := Prod.mk.inj hpair
      obtain ⟨⟨x, hentry, rfl⟩, hmsg⟩ := hsig ch' msg' hx
      obtain ⟨hown, hlt⟩ := h.flow.channels s _ _ x hentry
      refine .inr ⟨by rw [hjs]; exact hown, ?_, ?_⟩
      · rw [hjs]
        exact hlt.trans_le (hw s).channels
      · rcases hmsg with rfl | herr
        · rw [hstate]
          exact replyOk_applyOp hop
        · exact replyOk_of_ne (by rw [herr]; simp) (by rw [herr]; simp)
    · rw [Function.update_of_ne hjs] at hj
      exact .inl hj

theorem inv_grow (h : Inv own stamps w) {op : Op n} (hop : op ∈ w.started) :
    Inv own (stamps ++ [w.history.length]) { w with log := w.log ++ [op] } where
  clients := h.clients
  placed := h.placed.grow (h.flow.started op hop)
  agreed := ⟨fun s => (h.agreed.servers s).mono _, fun s x hx => (h.agreed.stored s x hx).mono _,
    fun x hx => (h.agreed.snapshots x hx).mono _⟩
  flow := h.flow.next ⟨fun _ hm => hm, ⟨[op], rfl⟩, fun _ => .inr ⟨rfl, rfl⟩⟩ (fun _ => .refl ..)
    (fun _ hop => .inl hop) (fun _ _ _ _ hs => .inl hs) (fun _ hm => .inl hm)

theorem inv_apply (h : Inv own stamps w) {s : Fin n} {choice : Op n} {overflow isLeader : Bool}
    (hs : w.apply s choice overflow isLeader = some w') : ∃ stamps', Inv own stamps' w' := by
  unfold World.apply at hs
  split at hs
  · exact absurd hs (by simp)
  obtain ⟨⟨op, log⟩, hnext, hs⟩ := Option.bind_eq_some_iff.mp hs
  rw [← Option.some.inj hs]
  unfold World.nextOp at hnext
  cases hop : w.log[w.delivered s]? with
  | some op' =>
    rw [hop] at hnext
    obtain ⟨rfl, rfl⟩ := Prod.mk.inj (Option.some.inj hnext)
    exact ⟨stamps, inv_applyAt h hop isLeader overflow⟩
  | none =>
    rw [hop] at hnext
    dsimp only at hnext
    split at hnext
    · rename_i hstarted
      obtain ⟨rfl, rfl⟩ := Prod.mk.inj (Option.some.inj hnext)
      refine ⟨_, inv_applyAt (inv_grow h hstarted) ?_ isLeader overflow⟩
      have hle := (h.agreed.servers s).1
      have hge := List.getElem?_eq_none_iff.mp hop
      exact getElem?_concat.mpr (.inr ⟨by dsimp only at hle ⊢; omega, rfl⟩)
    · exact absurd hnext (by simp)

theorem inv_storeSnapshot (h : Inv own stamps w) {s : Fin n} {k : Nat}
    (hs : w.storeSnapshot s k = some w') : Inv own stamps w' := by
  unfold World.storeSnapshot at hs
  cases hk : w.snapshots[k]? with
  | none => rw [hk] at hs; exact absurd hs (by simp)
  | some x =>
    rw [hk] at hs
    rw [← Option.some.inj hs]
    refine ⟨h.clients, h.placed, ⟨h.agreed.servers, ?_, h.agreed.snapshots⟩,
      h.flow.next (onward_of_eq rfl rfl rfl) (fun _ => .refl ..) (fun _ hop => .inl hop)
        (fun _ _ _ _ hs => .inl hs) (fun _ hm => .inl hm)⟩
    intro j y hy
    change Function.update w.stored s _ j = some y at hy
    by_cases hj : j = s
    · rw [hj, Function.update_self] at hy
      exact snapOk_keepNewer (h.agreed.stored s)
        (h.agreed.snapshots x (List.mem_of_getElem? hk)) hy
    · rw [Function.update_of_ne hj] at hy
      exact h.agreed.stored j y hy

theorem agreed_setServer (h : Inv own stamps w) {s : Fin n} {kv : KVServer n} {index : Nat}
    (hsnap : SnapOk w.log (index, kv.state)) (j : Fin n) :
    SnapOk w.log (Function.update w.delivered s index j, (Function.update w.servers s kv j).state) := by
  by_cases hj : j = s
  · rw [hj, Function.update_self, Function.update_self]
    exact hsnap
  · rw [Function.update_of_ne hj, Function.update_of_ne hj]
    exact h.agreed.servers j

theorem inv_snapshotMsg (h : Inv own stamps w) {s : Fin n} (hs : w.snapshotMsg s = some w') :
    Inv own stamps w' := by
  unfold World.snapshotMsg at hs
  split at hs
  · exact absurd hs (by simp)
  cases hst : w.stored s with
  | none => rw [hst] at hs; exact absurd hs (by simp)
  | some x =>
    rw [hst] at hs
    dsimp only at hs
    split at hs
    · exact absurd hs (by simp)
    rw [← Option.some.inj hs]
    refine ⟨h.clients, h.placed, ⟨agreed_setServer h (h.agreed.stored s x hst), h.agreed.stored,
      h.agreed.snapshots⟩, ?_⟩
    have hw : Widens (own s) (own s) (w.servers s) { w.servers s with state := x.2 } :=
      ⟨le_rfl, fun _ _ => rfl, fun _ _ _ h => .inl h⟩
    have hw := widens_update hw
    rw [Function.update_eq_self] at hw
    exact h.flow.next (onward_of_eq rfl rfl rfl) hw (fun _ hop => .inl hop)
      (fun _ _ _ _ hs => .inl hs) (fun _ hm => .inl hm)

/-- **A restart** loses the channels, and with them the handlers that wait on them. -/
theorem inv_restart (h : Inv own stamps w) (s : Fin n) : Inv own stamps (w.restart s) where
  clients := h.clients
  placed := h.placed
  agreed := by
    refine ⟨agreed_setServer h ?_, h.agreed.stored, h.agreed.snapshots⟩
    cases hst : w.stored s with
    | none => exact ⟨Nat.zero_le _, rfl⟩
    | some x => exact h.agreed.stored s x hst
  flow := by
    have hother : ∀ j, j ≠ s → (w.restart s).servers j = w.servers j :=
      fun j hj => Function.update_of_ne hj _ _
    have ho : Onward w (w.restart s) := onward_of_eq rfl rfl rfl
    refine ⟨h.flow.started, ?_, ?_, ?_⟩
    · intro j op ch msg hj
      change Function.update w.sending s none j = some (op, ch, msg) at hj
      by_cases hjs : j = s
      · rw [hjs, Function.update_self] at hj
        exact absurd hj (by simp)
      · rw [Function.update_of_ne hjs] at hj
        rw [hother j hjs]
        exact h.flow.sending j op ch msg hj
    · intro j c r ch hch
      by_cases hjs : j = s
      · rw [hjs] at hch
        change (Function.update w.servers s _ s).startChannels c r = some ch at hch
        rw [Function.update_self] at hch
        exact absurd hch (by simp [KVServer.startKVServer])
      · rw [hother j hjs] at hch ⊢
        exact h.flow.channels j c r ch hch
    · intro rpc hmem
      obtain ⟨hmem, hsurv⟩ := List.mem_filter.mp hmem
      have hok := h.flow.rpcs rpc hmem
      refine hok.mono ho ?_
      by_cases hjs : rpc.server = s
      · -- it is not being handled, so it knows of no channel
        have hphase := hok.phase
        unfold World.survives at hsurv
        rw [decide_eq_false (not_not.mpr hjs), Bool.false_or] at hsurv
        cases hph : rpc.phase with
        | called => trivial
        | replied reply => rw [hph] at hphase; exact hphase
        | leader => rw [hph] at hsurv; exact absurd hsurv (by simp)
        | opened _ _ => rw [hph] at hsurv; exact absurd hsurv (by simp)
        | refused _ => rw [hph] at hsurv; exact absurd hsurv (by simp)
        | waiting _ _ => rw [hph] at hsurv; exact absurd hsurv (by simp)
        | received _ _ => rw [hph] at hsurv; exact absurd hsurv (by simp)
        | timedOut _ => rw [hph] at hsurv; exact absurd hsurv (by simp)
      · rw [hother _ hjs]
        exact hok.phase

/-! ### Runs -/

/-- **The step lemma.** -/
theorem inv_step [NeZero n] (h : Inv own stamps w) {e : Event n} (hs : w.step e = some w') :
    ∃ own' stamps', Inv own' stamps' w' := by
  cases e with
  | invoke c call => exact ⟨own, stamps, inv_invoke h hs⟩
  | fail c =>
    change w.fail c = some w' at hs
    unfold World.fail at hs
    cases hcall : (w.clerks c).call with
    | none => rw [hcall] at hs; exact absurd hs (by simp)
    | some call =>
      rw [hcall] at hs
      rw [← Option.some.inj hs]
      exact ⟨own, stamps, inv_send h hcall⟩
  | rpc k answer =>
    obtain ⟨own', h'⟩ := inv_stepRpc h hs
    exact ⟨own', stamps, h'⟩
  | apply s choice overflow isLeader =>
    obtain ⟨stamps', h'⟩ := inv_apply h hs
    exact ⟨own, stamps', h'⟩
  | signal s k => exact ⟨own, stamps, inv_signal h hs⟩
  | storeSnapshot s k => exact ⟨own, stamps, inv_storeSnapshot h hs⟩
  | snapshotMsg s => exact ⟨own, stamps, inv_snapshotMsg h hs⟩
  | restart s =>
    rw [← Option.some.inj hs]
    exact ⟨own, stamps, inv_restart h s⟩

end steps

theorem inv_init [NeZero n] : Inv (fun _ _ => (0, 0)) [] (World.init : World n) where
  clients := {
    invoked_le := by simp [World.init]
    invoked_once := by simp [World.init]
    responded_le := by simp [World.init]
    responded_once := by simp [World.init]
    sequential := by simp [World.init]
    current := by simp [World.init, Clerk.makeClerk] }
  placed := {
    length := rfl
    sorted := .nil
    bound := by simp
    invoked := by simp [World.init]
    before := by simp [World.init]
    responded := by simp [World.init] }
  agreed := ⟨fun _ => ⟨le_rfl, rfl⟩, by simp [World.init], by simp [World.init]⟩
  flow := {
    started := by simp [World.init]
    sending := by simp [World.init]
    channels := by simp [World.init, KVServer.startKVServer]
    rpcs := by simp [World.init] }

theorem inv_run [NeZero n] :
    ∀ tr : List (World n), World.Run tr → ∀ w ∈ tr, ∃ own stamps, Inv own stamps w :=
  Trace.invariant ⟨_, _, inv_init⟩ fun _ _ _ ⟨_, _, h⟩ _ hs => inv_step h hs

/-! ### The order of the calls -/

section order

variable {own : Fin n → Nat → Nat × Int} {stamps : List Nat} {w : World n}

/-- `point` gives each answered call the place where its answer was computed. -/
def IsPoint (stamps : List Nat) (w : World n) (point : Nat × Int → Option Nat) : Prop :=
  ∀ (k : Nat) id res, w.history[k]? = some (.respond id res) →
    ∃ (p : Nat) (op : Op n) (t : Nat), point id = some p ∧ w.log[p]? = some op ∧ op.id = id ∧
      stamps[p]? = some t ∧ t ≤ k ∧ (spec (stateAt w.log p).keyValueStore op.call).2 = res

theorem exists_point (h : Inv own stamps w) : ∃ point, IsPoint stamps w point := by
  have hid : ∀ id, ∃ o : Option Nat, ∀ (k : Nat) res,
      w.history[k]? = some (.respond id res) →
      ∃ (p : Nat) (op : Op n) (t : Nat), o = some p ∧ w.log[p]? = some op ∧ op.id = id ∧
        stamps[p]? = some t ∧ t ≤ k ∧ (spec (stateAt w.log p).keyValueStore op.call).2 = res := by
    intro id
    by_cases hex : ∃ (k : Nat) (res : Option String), w.history[k]? = some (.respond id res)
    · obtain ⟨k, res, hk⟩ := hex
      obtain ⟨p, op, t, hrest⟩ := h.placed.responded k id res hk
      refine ⟨some p, ?_⟩
      intro k' res' hk'
      -- a call has one answer
      obtain rfl := h.clients.responded_once k k' id res res' hk hk'
      obtain rfl : res = res' :=
        (Moment.respond.inj (Option.some.inj (hk.symm.trans hk'))).2
      exact ⟨p, op, t, rfl, hrest⟩
    · exact ⟨none, fun k res hk => absurd ⟨k, res, hk⟩ hex⟩
  choose point hpoint using hid
  exact ⟨point, fun k id res hk => hpoint id k res hk⟩

theorem call_eq (h : Inv own stamps w) {p q : Nat} {op op' : Op n} (hop : w.log[p]? = some op)
    (hop' : w.log[q]? = some op') (hid : op.id = op'.id) : op.call = op'.call := by
  have h1 := h.placed.invoked op (List.mem_of_getElem? hop)
  rw [hid] at h1
  exact h.clients.invoked_once _ _ _ h1 (h.placed.invoked op' (List.mem_of_getElem? hop'))

theorem type_get_iff {op op' : Op n} (hcall : op.call = op'.call) :
    op.type = .get ↔ op'.type = .get := by
  unfold Op.call at hcall
  cases h : op.type <;> cases h' : op'.type <;> simp [h, h'] at hcall ⊢

/-- **The first place of an answered request is not a duplicate**: no later request of
the same clerk can stand before it. -/
theorem not_duplicate_first (h : Inv own stamps w) {k : Nat} {id : Nat × Int} {res : Option String}
    (hk : w.history[k]? = some (.respond id res)) {p q t : Nat} {op' : Op n}
    (ht : stamps[p]? = some t) (hle : t ≤ k) (hid' : op'.id = id) (hqp : q ≤ p)
    (hfirst : ∀ q' < q, ∀ op'', w.log[q']? = some op'' → op''.id ≠ id) :
    (stateAt w.log q).isDuplicateOp op' = false := by
  by_contra hd
  rw [Bool.not_eq_false] at hd
  unfold State.isDuplicateOp at hd
  cases hlast : (stateAt w.log q).clientLastRequest op'.clientId with
  | none => rw [hlast] at hd; exact absurd hd (by simp)
  | some last =>
    rw [hlast] at hd
    have hreq : op'.requestIndex ≤ last := of_decide_eq_true hd
    obtain ⟨q', hq', op'', hop'', hc, hr⟩ := exists_of_clientLastRequest q hlast
    obtain ⟨t'', ht'', -⟩ := h.placed.stamp hop''
    by_cases hlt : op'.requestIndex < last
    · -- the clerk has invoked the later request after this answer
      have hinv := h.placed.invoked op'' (List.mem_of_getElem? hop'')
      obtain ⟨l, hl⟩ := List.mem_iff_getElem?.mp hinv
      have hbefore := h.placed.before q' op'' t'' hop'' ht'' l _ hl
      rw [← hid'] at hk
      have hid'' : op''.id = (op'.clientId, last) := Prod.ext hc hr
      rw [hid''] at hl
      have hseq := h.clients.sequential k l _ _ _ _ _ hk hl hlt
      have hmono := h.placed.stamp_le ht'' ht (by omega)
      omega
    · refine hfirst q' hq' op'' hop'' ?_
      rw [← hid']
      exact Prod.ext hc (hr.trans (by change last = op'.requestIndex; omega))

/-- **The order of the places linearizes the history.** -/
theorem linearizes_order (h : Inv own stamps w) {point : Nat × Int → Option Nat}
    (hpoint : IsPoint stamps w point) :
    Linearizes spec (fun _ => none) w.history (order point w.log w.log.length) where
  once := by
    unfold List.Nodup
    rw [List.pairwise_map]
    refine pairwise_order ?_
    intro p q op op' hpq hop hop' x hx y hy heq
    obtain ⟨hxt, rfl⟩ := mem_takenAt.mp hx
    obtain ⟨hyt, rfl⟩ := mem_takenAt.mp hy
    have hid : op.id = op'.id := heq
    have htype := type_get_iff (call_eq h hop hop' hid)
    rcases hyt with ⟨-, hd⟩ | ⟨hg, hpt⟩
    · have := duplicate_of_earlier hop hop' hpq hid
      rw [hd] at this
      exact absurd this (by simp)
    · rcases hxt with ⟨hng, -⟩ | ⟨-, hpt'⟩
      · exact hng (htype.mpr hg)
      · rw [hid, hpt] at hpt'
        have := Option.some.inj hpt'
        omega
  invoked := by
    intro x hx
    obtain ⟨p, -, op, hop, hx⟩ := mem_order.mp hx
    obtain ⟨-, rfl⟩ := mem_takenAt.mp hx
    exact h.placed.invoked op (List.mem_of_getElem? hop)
  answered := by
    intro id res hres
    obtain ⟨k, hk⟩ := List.mem_iff_getElem?.mp hres
    obtain ⟨p, op, t, hpt, hop, hid, ht, hle, hval⟩ := hpoint k id res hk
    have hp := (List.getElem?_eq_some_iff.mp hop).1
    by_cases hg : op.type = .get
    · refine ⟨_, mem_order.mpr ⟨p, hp, op, hop, mem_takenAt.mpr ⟨.inr ⟨hg, ?_⟩, rfl⟩⟩, hid, hval⟩
      rw [hid]
      exact hpt
    · -- `Put` and `Append` take effect at their first place
      classical
      have hex : ∃ q, ∃ op' : Op n, w.log[q]? = some op' ∧ op'.id = id := ⟨p, op, hop, hid⟩
      obtain ⟨op', hop', hid'⟩ := Nat.find_spec hex
      have hqp : Nat.find hex ≤ p := Nat.find_min' hex ⟨op, hop, hid⟩
      have hnd := not_duplicate_first h hk ht hle hid' hqp
        fun q' hq' op'' hop'' hid'' => Nat.find_min hex hq' ⟨op'', hop'', hid''⟩
      have hcall := call_eq h hop' hop (hid'.trans hid.symm)
      have hng : op'.type ≠ .get := fun hg' => hg ((type_get_iff hcall).mp hg')
      refine ⟨_, mem_order.mpr ⟨Nat.find hex, hqp.trans_lt hp, op', hop',
        mem_takenAt.mpr ⟨.inl ⟨hng, hnd⟩, rfl⟩⟩, hid', ?_⟩
      rw [← hval]
      change (spec _ op'.call).2 = (spec _ op.call).2
      rw [hcall]
      unfold Op.call
      cases hty : op.type with
      | get => exact absurd hty hg
      | put => rfl
      | append => rfl
  legal := (legal_order _ le_rfl).1
  order := by
    refine pairwise_order ?_
    rintro p q op op' hpq hop hop' x hx y hy ⟨k, l, res, call, hkl, hk, hl⟩
    obtain ⟨-, rfl⟩ := mem_takenAt.mp hx
    obtain ⟨hyt, rfl⟩ := mem_takenAt.mp hy
    obtain ⟨t, ht, -⟩ := h.placed.stamp hop
    obtain ⟨t', ht', -⟩ := h.placed.stamp hop'
    have hlt := h.placed.before p op t hop ht l call hl
    have htt := h.placed.stamp_le ht ht' hpq.le
    obtain ⟨p', op'', t'', hpt, hop'', hid'', ht'', hle, -⟩ := hpoint k _ res hk
    -- the place of `y` is not behind the place where its answer was computed
    have hqp : q ≤ p' := by
      rcases hyt with ⟨-, hd⟩ | ⟨-, hpt'⟩
      · by_contra hlt'
        have := duplicate_of_earlier hop'' hop' (by omega) hid''
        rw [hd] at this
        exact absurd this (by simp)
      · exact (Option.some.inj (hpt'.symm.trans hpt)).le
    have := h.placed.stamp_le ht' ht'' hqp
    omega

end order

/-- **Linearizability.**  In every state of every run, what the clerks' users have
seen is linearizable with respect to a plain map. -/
theorem linearizable [NeZero n] :
    ∀ tr : List (World n), World.Run tr → ∀ w ∈ tr,
      Linearizable spec (fun _ => none) w.history := by
  intro tr htr w hw
  obtain ⟨own, stamps, h⟩ := inv_run tr htr w hw
  obtain ⟨point, hpoint⟩ := exists_point h
  exact ⟨_, linearizes_order h hpoint⟩

/-- The op server `0` makes for the first call of clerk `5`, at its `i`-th request. -/
def samplePut (i : Nat) : Op 2 := ⟨0, i, .put, "k", "v", 5, 1⟩

/-- Clerk `5` gives up a `Put` that server `0` has already applied, tries server `1`,
which does not lead, then server `0` again, which applies the duplicate; then it
calls `Get`. -/
def sampleCalls : List (Event 2) :=
  [.invoke 5 (.put "k" "v"), .rpc 0 true, .rpc 0 true, .rpc 0 true, .fail 5,
    .apply 0 (samplePut 0) true true, .signal 0 0, .rpc 0 true, .rpc 0 true, .rpc 0 false,
    .rpc 0 true, .rpc 0 true, .rpc 0 true, .rpc 0 true, .apply 0 (samplePut 1) false true,
    .signal 0 0, .rpc 0 true, .rpc 0 true, .invoke 5 (.get "k"), .rpc 0 true, .rpc 0 true,
    .rpc 0 true, .apply 0 ⟨0, 2, .get, "k", "", 5, 2⟩ false true, .signal 0 0, .rpc 0 true,
    .rpc 0 true]

theorem linearizable_sampleCalls :
    ∃ w past, run World.step (fun _ _ => True) (World.init : World 2) sampleCalls []
        = some (w :: past) ∧
      w.history = [.invoke (5, 1) (.put "k" "v"), .respond (5, 1) none,
        .invoke (5, 2) (.get "k"), .respond (5, 2) (some "v")] ∧
      Linearizable spec (fun _ => none) w.history := by
  have hs : runEnds World.step (fun _ _ => True) (World.init : World 2) sampleCalls
      (fun w _ => decide (w.history = [.invoke (5, 1) (.put "k" "v"), .respond (5, 1) none,
        .invoke (5, 2) (.get "k"), .respond (5, 2) (some "v")])) = true := by
    decide +kernel
  obtain ⟨w, past, h, ht, hl⟩ := exists_of_runEnds hs
  exact ⟨w, past, h, of_decide_eq_true hl, linearizable _ ht w (List.mem_cons_self ..)⟩

end ShardRaft.KV
