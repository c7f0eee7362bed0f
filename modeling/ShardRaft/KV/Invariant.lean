import ShardRaft.KV.History
import ShardRaft.Lib.Lists

/-!
# The invariant behind linearizability

Four groups of facts, each about its own part of the service:

* `Clients`: the clerks and the history.  A clerk makes its calls one after
  another, so the answer to one call precedes the next call in the history.
* `Placed`: the agreed sequence and the history.  `stamps` says how long the
  history was when a place of the sequence became known.  A request is invoked
  before it gets a place, and an answer that was given was computed at a place
  known before.
* `Agreed`: every server and every snapshot holds the state of some prefix of the
  agreed sequence.
* `Flow`: what is on its way between clerks, handlers and apply loops.  `own`
  says which request a reply channel was made for.
-/

namespace ShardRaft.KV

open ShardRaft.Lib

variable {n : Nat}

/-- What users see. -/
abbrev Hist := List (Moment (Nat × Int) Call (Option String))

/-- The request never says `Put` or `Append` and means `Get`. -/
def Request.Proper : Request → Prop
  | .get _ => True
  | .putAppend args => args.op ≠ .get

/-! ### Replies -/

/-- A reply that may end a call was computed at a place of the call's request. -/
def ReplyOk (log : List (Op n)) (id : Nat × Int) (err : Err) (value : String) : Prop :=
  err = .ok ∨ err = .errNoKey → ∃ p op, log[p]? = some op ∧ op.id = id ∧
    (op.type = .get →
      (stateAt log p).keyValueStore op.key = if err = .ok then some value else none)

theorem replyOk_of_ne {log : List (Op n)} {id : Nat × Int} {err : Err} {value : String}
    (h₁ : err ≠ .ok) (h₂ : err ≠ .errNoKey) : ReplyOk log id err value :=
  fun h => h.elim (fun h => absurd h h₁) fun h => absurd h h₂

theorem ReplyOk.mono {log : List (Op n)} {id : Nat × Int} {err : Err} {value : String}
    (h : ReplyOk log id err value) (l : List (Op n)) : ReplyOk (log ++ l) id err value := by
  intro he
  obtain ⟨p, op, hop, hid, hget⟩ := h he
  have hp := (List.getElem?_eq_some_iff.mp hop).1
  refine ⟨p, op, ?_, hid, ?_⟩
  · rw [List.getElem?_append_left hp]; exact hop
  · rw [stateAt_append hp.le]; exact hget

theorem replyOk_applyOp {log : List (Op n)} {p : Nat} {op : Op n} (hop : log[p]? = some op) :
    ReplyOk log op.id ((stateAt log p).applyOp op).2.error
      ((stateAt log p).applyOp op).2.value := by
  intro _
  refine ⟨p, op, hop, rfl, ?_⟩
  intro hg
  have hmsg : ((stateAt log p).applyOp op).2 = (stateAt log p).getValue op := by
    unfold State.applyOp
    rw [hg]
    split <;> rfl
  rw [hmsg, State.getValue]
  cases (stateAt log p).keyValueStore op.key <;> simp

/-! ### The four groups -/

/-- The clerks and the history. -/
structure Clients (clerks : Nat → Clerk n) (H : Hist) : Prop where
  invoked_le : ∀ c r call, .invoke (c, r) call ∈ H → r ≤ (clerks c).requestIndex
  invoked_once : ∀ id call call', .invoke id call ∈ H → .invoke id call' ∈ H → call = call'
  responded_le : ∀ c r res, .respond (c, r) res ∈ H → r ≤ (clerks c).requestIndex ∧
    ((clerks c).call ≠ none → r < (clerks c).requestIndex)
  responded_once : ∀ (k l : Nat) id res res', H[k]? = some (.respond id res) →
    H[l]? = some (.respond id res') → k = l
  sequential : ∀ (k l : Nat) c r r' res call, H[k]? = some (.respond (c, r) res) →
    H[l]? = some (.invoke (c, r') call) → r < r' → k < l
  current : ∀ c call, (clerks c).call = some call →
    .invoke (c, (clerks c).requestIndex) call ∈ H

/-- The agreed sequence and the history. -/
structure Placed (stamps : List Nat) (log : List (Op n)) (H : Hist) : Prop where
  length : stamps.length = log.length
  sorted : stamps.Pairwise (· ≤ ·)
  bound : ∀ t ∈ stamps, t ≤ H.length
  invoked : ∀ op ∈ log, .invoke op.id op.call ∈ H
  before : ∀ (p : Nat) op t, log[p]? = some op → stamps[p]? = some t →
    ∀ (k : Nat) call, H[k]? = some (.invoke op.id call) → k < t
  responded : ∀ (k : Nat) id res, H[k]? = some (.respond id res) →
    ∃ (p : Nat) (op : Op n) (t : Nat), log[p]? = some op ∧ op.id = id ∧ stamps[p]? = some t ∧
      t ≤ k ∧ (spec (stateAt log p).keyValueStore op.call).2 = res

/-- The snapshot holds the state of its prefix. -/
def SnapOk (log : List (Op n)) (x : Nat × State) : Prop :=
  x.1 ≤ log.length ∧ x.2 = stateAt log x.1

/-- The servers and the agreed sequence. -/
structure Agreed (w : World n) : Prop where
  servers : ∀ s, SnapOk w.log (w.delivered s, (w.servers s).state)
  stored : ∀ s x, w.stored s = some x → SnapOk w.log x
  snapshots : ∀ x ∈ w.snapshots, SnapOk w.log x

/-- What a handler knows in a phase; `open_` channels have been made at its server. -/
def PhaseOk (own : Nat → Nat × Int) (open_ : Nat) (log : List (Op n)) (req : Request) :
    Phase n → Prop
  | .opened op ch | .waiting op ch =>
    own ch = req.id ∧ ch < open_ ∧ op.id = req.id ∧ op.call = req.call
  | .received _ msg => ReplyOk log req.id msg.error msg.value
  | .replied reply => ReplyOk log req.id reply.err reply.value
  | _ => True

/-- An RPC that is under way. -/
structure RpcOk (own : Fin n → Nat → Nat × Int) (w : World n) (rpc : Rpc n) : Prop where
  proper : rpc.request.Proper
  client : rpc.request.id.1 = rpc.client
  invoked : .invoke rpc.request.id rpc.request.call ∈ w.history
  attempt_le : rpc.attempt ≤ (w.clerks rpc.client).attempt
  current : rpc.attempt = (w.clerks rpc.client).attempt →
    rpc.request.id.2 = (w.clerks rpc.client).requestIndex
  phase : PhaseOk (own rpc.server) (w.servers rpc.server).channels.length w.log rpc.request
    rpc.phase

/-- What is on its way. -/
structure Flow (own : Fin n → Nat → Nat × Int) (w : World n) : Prop where
  started : ∀ op ∈ w.started, .invoke op.id op.call ∈ w.history
  sending : ∀ s op ch msg, w.sending s = some (op, ch, msg) →
    own s ch = op.id ∧ ch < (w.servers s).channels.length ∧
      ReplyOk w.log op.id msg.error msg.value
  channels : ∀ s c r ch, (w.servers s).startChannels c r = some ch →
    own s ch.replyChannel = (c, r) ∧ ch.replyChannel < (w.servers s).channels.length
  rpcs : ∀ rpc ∈ w.rpcs, RpcOk own w rpc

/-- **The invariant.** -/
structure Inv (own : Fin n → Nat → Nat × Int) (stamps : List Nat) (w : World n) : Prop where
  clients : Clients w.clerks w.history
  placed : Placed stamps w.log w.history
  agreed : Agreed w
  flow : Flow own w

/-! ### Calls and answers -/

section clients

variable {clerks : Nat → Clerk n} {H : Hist} {c : Nat}

/-- A clerk may change what is not about its calls. -/
theorem Clients.setClerk (hc : Clients clerks H) {ck : Clerk n}
    (hr : ck.requestIndex = (clerks c).requestIndex) (hcall : ck.call = (clerks c).call) :
    Clients (Function.update clerks c ck) H := by
  have hri : ∀ c', (Function.update clerks c ck c').requestIndex = (clerks c').requestIndex := by
    intro c'
    by_cases h : c' = c
    · rw [h, Function.update_self, hr]
    · rw [Function.update_of_ne h]
  have hca : ∀ c', (Function.update clerks c ck c').call = (clerks c').call := by
    intro c'
    by_cases h : c' = c
    · rw [h, Function.update_self, hcall]
    · rw [Function.update_of_ne h]
  exact {
    invoked_le := by intro c' r call h; rw [hri]; exact hc.invoked_le c' r call h
    invoked_once := hc.invoked_once
    responded_le := by
      intro c' r res h
      rw [hri, hca]
      exact hc.responded_le c' r res h
    responded_once := hc.responded_once
    sequential := hc.sequential
    current := by intro c' call h; rw [hri]; rw [hca] at h; exact hc.current c' call h }

theorem Clients.fresh (hc : Clients clerks H) (call : Call) :
    .invoke (c, (clerks c).requestIndex + 1) call ∉ H := by
  intro h
  have := hc.invoked_le c _ call h
  omega

theorem Clients.invoke (hc : Clients clerks H) {ck : Clerk n} {call : Call}
    (hr : ck.requestIndex = (clerks c).requestIndex + 1) (hcall : ck.call = some call)
    (hidle : (clerks c).call = none) :
    Clients (Function.update clerks c ck) (H ++ [.invoke (c, ck.requestIndex) call]) := by
  have hge : ∀ c', (clerks c').requestIndex
      ≤ (Function.update clerks c ck c').requestIndex := by
    intro c'
    by_cases h : c' = c
    · rw [h, Function.update_self, hr]; omega
    · rw [Function.update_of_ne h]
  exact {
    invoked_le := by
      intro c' r call' h
      rcases List.mem_append.mp h with h | h
      · exact (hc.invoked_le c' r call' h).trans (hge c')
      · obtain ⟨hid, -⟩ := Moment.invoke.inj (List.mem_singleton.mp h)
        obtain ⟨rfl, rfl⟩ := Prod.mk.inj hid
        rw [Function.update_self]
    invoked_once := by
      intro id call₁ call₂ h₁ h₂
      rcases List.mem_append.mp h₁ with h₁ | h₁ <;> rcases List.mem_append.mp h₂ with h₂ | h₂
      · exact hc.invoked_once id call₁ call₂ h₁ h₂
      · obtain ⟨rfl, -⟩ := Moment.invoke.inj (List.mem_singleton.mp h₂)
        rw [hr] at h₁
        exact absurd h₁ (hc.fresh call₁)
      · obtain ⟨rfl, -⟩ := Moment.invoke.inj (List.mem_singleton.mp h₁)
        rw [hr] at h₂
        exact absurd h₂ (hc.fresh call₂)
      · rw [(Moment.invoke.inj (List.mem_singleton.mp h₁)).2,
          (Moment.invoke.inj (List.mem_singleton.mp h₂)).2]
    responded_le := by
      intro c' r res h
      rcases List.mem_append.mp h with h | h
      · obtain ⟨hle, hlt⟩ := hc.responded_le c' r res h
        by_cases hcc : c' = c
        · rw [hcc] at hle
          rw [hcc, Function.update_self, hr]
          exact ⟨by omega, fun _ => by omega⟩
        · rw [Function.update_of_ne hcc]
          exact ⟨hle, hlt⟩
      · exact absurd (List.mem_singleton.mp h) (by simp)
    responded_once := by
      intro k l id res res' hk hl
      rcases getElem?_concat.mp hk with hk | ⟨-, hk⟩
      · rcases getElem?_concat.mp hl with hl | ⟨-, hl⟩
        · exact hc.responded_once k l id res res' hk hl
        · exact absurd hl (by simp)
      · exact absurd hk (by simp)
    sequential := by
      intro k l c' r r' res call' hk hl hlt
      rcases getElem?_concat.mp hk with hk | ⟨-, hk⟩
      · rcases getElem?_concat.mp hl with hl | ⟨hlen, -⟩
        · exact hc.sequential k l c' r r' res call' hk hl hlt
        · have := (List.getElem?_eq_some_iff.mp hk).1
          omega
      · exact absurd hk (by simp)
    current := by
      intro c' call' h
      by_cases hcc : c' = c
      · rw [hcc, Function.update_self, hcall] at h
        rw [hcc, Function.update_self, ← Option.some.inj h]
        exact List.mem_append_right _ (List.mem_singleton_self _)
      · rw [Function.update_of_ne hcc] at h ⊢
        exact List.mem_append_left _ (hc.current c' call' h) }

theorem Clients.respond (hc : Clients clerks H) {ck : Clerk n} {call : Call}
    {res : Option String} (hr : ck.requestIndex = (clerks c).requestIndex) (hdone : ck.call = none)
    (hcall : (clerks c).call = some call) :
    Clients (Function.update clerks c ck)
      (H ++ [.respond (c, (clerks c).requestIndex) res]) := by
  have hri : ∀ c', (Function.update clerks c ck c').requestIndex = (clerks c').requestIndex := by
    intro c'
    by_cases h : c' = c
    · rw [h, Function.update_self, hr]
    · rw [Function.update_of_ne h]
  -- the call has not been answered before
  have hnew : ∀ res', .respond (c, (clerks c).requestIndex) res' ∉ H := by
    intro res' h
    have := (hc.responded_le c _ res' h).2 (by rw [hcall]; simp)
    omega
  exact {
    invoked_le := by
      intro c' r call' h
      rw [hri]
      rcases List.mem_append.mp h with h | h
      · exact hc.invoked_le c' r call' h
      · exact absurd (List.mem_singleton.mp h) (by simp)
    invoked_once := by
      intro id call₁ call₂ h₁ h₂
      rcases List.mem_append.mp h₁ with h₁ | h₁
      · rcases List.mem_append.mp h₂ with h₂ | h₂
        · exact hc.invoked_once id call₁ call₂ h₁ h₂
        · exact absurd (List.mem_singleton.mp h₂) (by simp)
      · exact absurd (List.mem_singleton.mp h₁) (by simp)
    responded_le := by
      intro c' r res' h
      rw [hri]
      rcases List.mem_append.mp h with h | h
      · obtain ⟨hle, hlt⟩ := hc.responded_le c' r res' h
        refine ⟨hle, ?_⟩
        by_cases hcc : c' = c
        · rw [hcc, Function.update_self, hdone]
          exact fun h => absurd rfl h
        · rw [Function.update_of_ne hcc]
          exact hlt
      · obtain ⟨hid, -⟩ := Moment.respond.inj (List.mem_singleton.mp h)
        obtain ⟨rfl, rfl⟩ := Prod.mk.inj hid
        refine ⟨le_rfl, ?_⟩
        rw [Function.update_self, hdone]
        exact fun h => absurd rfl h
    responded_once := by
      intro k l id res₁ res₂ hk hl
      rcases getElem?_concat.mp hk with hk | ⟨hk, heq⟩ <;>
        rcases getElem?_concat.mp hl with hl | ⟨hl, heq'⟩
      · exact hc.responded_once k l id res₁ res₂ hk hl
      · obtain ⟨rfl, -⟩ := Moment.respond.inj heq'
        exact absurd (List.mem_of_getElem? hk) (hnew _)
      · obtain ⟨rfl, -⟩ := Moment.respond.inj heq
        exact absurd (List.mem_of_getElem? hl) (hnew _)
      · omega
    sequential := by
      intro k l c' r r' res' call' hk hl hlt
      rcases getElem?_concat.mp hl with hl | ⟨-, hl⟩
      · rcases getElem?_concat.mp hk with hk | ⟨-, heq⟩
        · exact hc.sequential k l c' r r' res' call' hk hl hlt
        · obtain ⟨hid, -⟩ := Moment.respond.inj heq
          obtain ⟨rfl, rfl⟩ := Prod.mk.inj hid
          have := hc.invoked_le _ _ _ (List.mem_of_getElem? hl)
          omega
      · exact absurd hl (by simp)
    current := by
      intro c' call' h
      rw [hri]
      by_cases hcc : c' = c
      · rw [hcc, Function.update_self, hdone] at h
        exact absurd h (by simp)
      · rw [Function.update_of_ne hcc] at h
        exact List.mem_append_left _ (hc.current c' call' h) }

end clients

/-! ### Places -/

section placed

variable {stamps : List Nat} {log : List (Op n)} {H : Hist}

theorem Placed.stamp (hp : Placed stamps log H) {p : Nat} {op : Op n} (hop : log[p]? = some op) :
    ∃ t, stamps[p]? = some t ∧ t ≤ H.length := by
  have hlt : p < stamps.length := by
    rw [hp.length]
    exact (List.getElem?_eq_some_iff.mp hop).1
  exact ⟨_, List.getElem?_eq_getElem hlt, hp.bound _ (List.getElem_mem hlt)⟩

theorem Placed.stamp_le (hp : Placed stamps log H) {p q t t' : Nat} (ht : stamps[p]? = some t)
    (ht' : stamps[q]? = some t') (hpq : p ≤ q) : t ≤ t' := by
  obtain ⟨hlt, rfl⟩ := List.getElem?_eq_some_iff.mp ht
  obtain ⟨hlt', rfl⟩ := List.getElem?_eq_some_iff.mp ht'
  rcases Nat.eq_or_lt_of_le hpq with rfl | hpq
  · exact le_rfl
  · exact List.pairwise_iff_getElem.mp hp.sorted p q hlt hlt' hpq

theorem Placed.invoke (hp : Placed stamps log H) {id : Nat × Int} (call : Call)
    (hfresh : ∀ op ∈ log, op.id ≠ id) : Placed stamps log (H ++ [.invoke id call]) where
  length := hp.length
  sorted := hp.sorted
  bound := by
    intro t ht
    have := hp.bound t ht
    rw [List.length_append]
    omega
  invoked := fun op hop => List.mem_append_left _ (hp.invoked op hop)
  before := by
    intro p op t hop ht k call' hk
    rcases getElem?_concat.mp hk with hk | ⟨-, heq⟩
    · exact hp.before p op t hop ht k call' hk
    · exact absurd (Moment.invoke.inj heq).1.symm (hfresh op (List.mem_of_getElem? hop))
  responded := by
    intro k id' res hk
    rcases getElem?_concat.mp hk with hk | ⟨-, heq⟩
    · exact hp.responded k id' res hk
    · exact absurd heq (by simp)

theorem Placed.respond (hp : Placed stamps log H) {p : Nat} {op : Op n} {res : Option String}
    (hop : log[p]? = some op)
    (hres : (spec (stateAt log p).keyValueStore op.call).2 = res) :
    Placed stamps log (H ++ [.respond op.id res]) where
  length := hp.length
  sorted := hp.sorted
  bound := by
    intro t ht
    have := hp.bound t ht
    rw [List.length_append]
    omega
  invoked := fun op hop => List.mem_append_left _ (hp.invoked op hop)
  before := by
    intro p op t hop ht k call' hk
    rcases getElem?_concat.mp hk with hk | ⟨-, heq⟩
    · exact hp.before p op t hop ht k call' hk
    · exact absurd heq (by simp)
  responded := by
    intro k id' res' hk
    rcases getElem?_concat.mp hk with hk | ⟨rfl, heq⟩
    · exact hp.responded k id' res' hk
    · obtain ⟨rfl, rfl⟩ := Moment.respond.inj heq
      obtain ⟨t, ht, hle⟩ := hp.stamp hop
      exact ⟨p, op, t, hop, rfl, ht, hle, hres⟩

theorem Placed.grow (hp : Placed stamps log H) {op : Op n} (hop : .invoke op.id op.call ∈ H) :
    Placed (stamps ++ [H.length]) (log ++ [op]) H where
  length := by rw [List.length_append, List.length_append, hp.length]; rfl
  sorted := by
    rw [List.pairwise_append]
    refine ⟨hp.sorted, List.pairwise_singleton .., ?_⟩
    intro t ht t' ht'
    rw [List.mem_singleton.mp ht']
    exact hp.bound t ht
  bound := by
    intro t ht
    rcases List.mem_append.mp ht with ht | ht
    · exact hp.bound t ht
    · rw [List.mem_singleton.mp ht]
  invoked := by
    intro op' hop'
    rcases List.mem_append.mp hop' with hop' | hop'
    · exact hp.invoked op' hop'
    · rw [List.mem_singleton.mp hop']; exact hop
  before := by
    intro p op' t hop' ht k call hk
    rcases getElem?_concat.mp ht with ht | ⟨-, rfl⟩
    · have hlt : p < log.length := hp.length ▸ (List.getElem?_eq_some_iff.mp ht).1
      rw [List.getElem?_append_left hlt] at hop'
      exact hp.before p op' t hop' ht k call hk
    · exact (List.getElem?_eq_some_iff.mp hk).1
  responded := by
    intro k id res hk
    obtain ⟨p, op', t, hop', hid, ht, hle, hres⟩ := hp.responded k id res hk
    have hlt := (List.getElem?_eq_some_iff.mp hop').1
    refine ⟨p, op', t, ?_, hid, ?_, hle, ?_⟩
    · rw [List.getElem?_append_left hlt]; exact hop'
    · exact getElem?_concat.mpr (.inl ht)
    · rw [stateAt_append hlt.le]; exact hres

end placed

/-! ### What is on its way -/

section flow

variable {own own' : Fin n → Nat → Nat × Int} {w w' : World n}

theorem SnapOk.mono {log : List (Op n)} {x : Nat × State} (h : SnapOk log x) (l : List (Op n)) :
    SnapOk (log ++ l) x := by
  refine ⟨h.1.trans (by rw [List.length_append]; omega), ?_⟩
  rw [stateAt_append h.1]
  exact h.2

theorem PhaseOk.mono {o o' : Nat → Nat × Int} {m m' : Nat} {log : List (Op n)} {req : Request}
    {phase : Phase n} (h : PhaseOk o m log req phase) (ho : ∀ ch < m, o' ch = o ch) (hm : m ≤ m')
    (l : List (Op n)) : PhaseOk o' m' (log ++ l) req phase := by
  cases phase with
  | called => trivial
  | leader => trivial
  | opened op ch => exact ⟨(ho ch h.2.1).trans h.1, h.2.1.trans_le hm, h.2.2⟩
  | refused op => trivial
  | waiting op ch => exact ⟨(ho ch h.2.1).trans h.1, h.2.1.trans_le hm, h.2.2⟩
  | received op msg => exact ReplyOk.mono h l
  | timedOut op => trivial
  | replied reply => exact ReplyOk.mono h l

/-- How clerks, history and sequence may change without harm to what is on its way. -/
structure Onward (w w' : World n) : Prop where
  history : ∀ m ∈ w.history, m ∈ w'.history
  log : ∃ l, w'.log = w.log ++ l
  clerks : ∀ c, (w.clerks c).attempt < (w'.clerks c).attempt ∨
    ((w'.clerks c).attempt = (w.clerks c).attempt ∧
      (w'.clerks c).requestIndex = (w.clerks c).requestIndex)

theorem RpcOk.mono {rpc : Rpc n} (h : RpcOk own w rpc) (ho : Onward w w')
    (hphase : PhaseOk (own' rpc.server) (w'.servers rpc.server).channels.length w'.log rpc.request
      rpc.phase) : RpcOk own' w' rpc where
  proper := h.proper
  client := h.client
  invoked := ho.history _ h.invoked
  attempt_le := by
    have := h.attempt_le
    rcases ho.clerks rpc.client with hlt | ⟨heq, -⟩ <;> omega
  current := by
    intro heq
    have hle := h.attempt_le
    rcases ho.clerks rpc.client with hlt | ⟨hat, hri⟩
    · omega
    · rw [hri]; exact h.current (by omega)
  phase := hphase

/-- How a server may change: it makes channels and forgets entries. -/
structure Widens (own own' : Nat → Nat × Int) (kv kv' : KVServer n) : Prop where
  channels : kv.channels.length ≤ kv'.channels.length
  own : ∀ ch < kv.channels.length, own' ch = own ch
  entries : ∀ c r ch, kv'.startChannels c r = some ch → kv.startChannels c r = some ch ∨
    (own' ch.replyChannel = (c, r) ∧ ch.replyChannel < kv'.channels.length)

theorem Widens.refl (o : Nat → Nat × Int) (kv : KVServer n) : Widens o o kv kv :=
  ⟨le_rfl, fun _ _ => rfl, fun _ _ _ h => .inl h⟩

/-- What a step has to show. -/
theorem Flow.next (hf : Flow own w) (ho : Onward w w')
    (hserv : ∀ s, Widens (own s) (own' s) (w.servers s) (w'.servers s))
    (hstarted : ∀ op ∈ w'.started, op ∈ w.started ∨ .invoke op.id op.call ∈ w'.history)
    (hsend : ∀ s op ch msg, w'.sending s = some (op, ch, msg) →
      w.sending s = some (op, ch, msg) ∨ (own' s ch = op.id ∧
        ch < (w'.servers s).channels.length ∧ ReplyOk w'.log op.id msg.error msg.value))
    (hrpcs : ∀ rpc ∈ w'.rpcs, rpc ∈ w.rpcs ∨ RpcOk own' w' rpc) : Flow own' w' where
  started := by
    intro op hop
    rcases hstarted op hop with hop | hop
    · exact ho.history _ (hf.started op hop)
    · exact hop
  sending := by
    intro s op ch msg h
    rcases hsend s op ch msg h with h | h
    · obtain ⟨h1, h2, h3⟩ := hf.sending s op ch msg h
      obtain ⟨l, hl⟩ := ho.log
      refine ⟨((hserv s).own ch h2).trans h1, h2.trans_le (hserv s).channels, ?_⟩
      rw [hl]
      exact h3.mono l
    · exact h
  channels := by
    intro s c r ch h
    rcases (hserv s).entries c r ch h with h | h
    · obtain ⟨h1, h2⟩ := hf.channels s c r ch h
      exact ⟨((hserv s).own _ h2).trans h1, h2.trans_le (hserv s).channels⟩
    · exact h
  rpcs := by
    intro rpc hmem
    rcases hrpcs rpc hmem with hmem | h
    · have hok := hf.rpcs rpc hmem
      obtain ⟨l, hl⟩ := ho.log
      refine hok.mono ho ?_
      rw [hl]
      exact hok.phase.mono (hserv rpc.server).own (hserv rpc.server).channels l
    · exact h

end flow

end ShardRaft.KV
