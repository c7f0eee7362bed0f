import ShardRaft.KV.ExactlyOnce
import ShardRaft.Service.Retries

/-!
# One server and its handlers

A `kvraft` server between its clerks and Raft: any requests, each with a handler of its own
(`kvServerGet.go`, `kvServerPutAppend.go`), and the apply loop (`kvServerApplyTicker.go`).
Two handlers may well have the same request: a clerk that has given an RPC up sends it again.

* What a goroutine does while it holds `kv.mu` is one step, except for the send on a reply
  channel (`sending`), which lasts until a handler takes the message (`signal`).
* `GetState`, `killed`, `Start` and the timers may answer anything: the answer is part of the
  event.  Raft applies ops of other servers, and those ops of this server that a handler has
  passed to `Start` (`started`), in this incarnation or an earlier one.
* `produced` has every message that `handleCommandApply` has made, `closed` every channel
  that `deleteStartCh` has closed, both in this incarnation, and `replied` every reply.

As far as the channels go, this is the server of `Service/StartCh.lean` (`server_move`).
-/

namespace ShardRaft.KV

open ShardRaft.Lib

variable {n : Nat}

/-- An RPC that has got past `GetState`, and how far its handler is. -/
structure Handling (n : Nat) where
  request : Request
  handler : Service.Handler (Op n) KVReplyMsg
deriving DecidableEq, Repr

/-- What the handler replies once it has removed its channel.  A closed channel gives the
zero message; `log.Fatalln` on a message with `ErrFiller` ends the process. -/
def Handling.reply (hd : Handling n) : Option Reply :=
  match hd.handler with
  | .refused _ => some ⟨.errWrongLeader, ""⟩
  | .received _ msg => handleResult (msg.getD ⟨.unset, ""⟩) hd.request
  | .timedOut _ => some ⟨.errTimeout, ""⟩
  | _ => none

/-- The channel that `deleteStartCh` closes. -/
def KVServer.closing (kv : KVServer n) (op : Op n) : List Nat :=
  ((kv.getStartCh op).map (·.replyChannel)).toList

/-- One server. -/
structure Node (n : Nat) where
  kv : KVServer n
  handlers : List (Handling n)
  sending : Option (Op n × Nat × KVReplyMsg)
  started : List (Op n)
  produced : List (Op n × KVReplyMsg)
  closed : List Nat
  replied : List (Request × Reply)

namespace Node

/-- What the environment chooses. -/
inductive Event (n : Nat)
  | call (request : Request) (isLeader killed : Bool)
  | start (k : Nat) (isLeader : Bool)
  | receiveClosed (k : Nat)
  | timeout (k : Nat)
  | finish (k : Nat)
  | apply (op : Op n) (isLeader : Bool)
  | snapshotMsg (state : State)
  | signal (k : Nat)
  | restart (snapshot : Option State)

/-- The server as it starts. -/
def init (me : Fin n) (snapshot : Option State) : Node n where
  kv := KVServer.startKVServer me snapshot
  handlers := []
  sending := none
  started := []
  produced := []
  closed := []
  replied := []

def setHandler (nd : Node n) (k : Nat) (hd : Handling n) (h : Service.Handler (Op n) KVReplyMsg) :
    Node n :=
  { nd with handlers := nd.handlers.set k { hd with handler := h } }

/-- `Get` or `PutAppend` up to `Start`. -/
def call (nd : Node n) (request : Request) (isLeader killed : Bool) : Option (Node n) :=
  if isLeader = false then
    some { nd with replied := nd.replied ++ [(request, ⟨.errWrongLeader, ""⟩)] }
  else if nd.sending.isSome then none
  else if killed then
    some { nd with
      kv := { nd.kv with opIndex := nd.kv.opIndex + 1 }
      replied := nd.replied ++ [(request, ⟨.errWrongLeader, ""⟩)] }
  else
    let op := nd.kv.createOp request
    some { nd with
      kv := (nd.kv.preStart op).1
      handlers := nd.handlers ++ [⟨request, .opened op (nd.kv.preStart op).2⟩] }

/-- `Start` returns. -/
def start (nd : Node n) (k : Nat) (isLeader : Bool) : Option (Node n) :=
  match nd.handlers[k]? with
  | none => none
  | some hd =>
    match hd.handler with
    | .opened op ch =>
      if isLeader then
        some { nd.setHandler k hd (.waiting op ch) with started := nd.started ++ [op] }
      else some (nd.setHandler k hd (.refused op))
    | _ => none

/-- The channel was closed, which gives the zero value. -/
def receiveClosed (nd : Node n) (k : Nat) : Option (Node n) :=
  match nd.handlers[k]? with
  | none => none
  | some hd =>
    match hd.handler with
    | .waiting op ch =>
      if nd.kv.isClosed ch then some (nd.setHandler k hd (.received op none)) else none
    | _ => none

/-- The timer fires. -/
def timeout (nd : Node n) (k : Nat) : Option (Node n) :=
  match nd.handlers[k]? with
  | none => none
  | some hd =>
    match hd.handler with
    | .waiting op _ => some (nd.setHandler k hd (.timedOut op))
    | _ => none

/-- `deleteStartChLocked` after a refusal, `handleGetResult`, `handlePutAppendResult`,
`getTimeout` and `putAppendTimeout`: the handler removes the channel and replies. -/
def finish (nd : Node n) (k : Nat) : Option (Node n) :=
  if nd.sending.isSome then none else do
    let hd ← nd.handlers[k]?
    let op ← Service.Server.leaving hd.handler
    let kv ← nd.kv.deleteStartCh op
    let reply ← hd.reply
    return { nd.setHandler k hd .returned with
      kv := kv
      closed := nd.closed ++ nd.kv.closing op
      replied := nd.replied ++ [(hd.request, reply)] }

/-- `handleApplyMessage` on a command, up to the send. -/
def apply (nd : Node n) (op : Op n) (isLeader : Bool) : Option (Node n) :=
  if nd.sending.isSome ∨ (op.serverId = nd.kv.me ∧ nd.started.contains op = false) then none else
    some { nd with
      kv := (nd.kv.handleCommandApply op isLeader).1
      sending := (nd.kv.handleCommandApply op isLeader).2.map fun x => (op, x)
      produced := nd.produced ++ [(op, nd.kv.state.reply op isLeader)] }

/-- `handleApplyMessage` on a snapshot. -/
def snapshotMsg (nd : Node n) (state : State) : Option (Node n) :=
  if nd.sending.isSome then none else some { nd with kv := { nd.kv with state := state } }

/-- `signalStartCh`: handler `k` takes the message, and the apply loop closes the channel and
unlocks.  A send on a closed channel panics. -/
def signal (nd : Node n) (k : Nat) : Option (Node n) :=
  match nd.sending, nd.handlers[k]? with
  | some (op, ch, msg), some hd =>
    if nd.kv.isClosed ch then none else
    match hd.handler with
    | .waiting op' ch' =>
      if ch' = ch then do
        let kv ← nd.kv.deleteStartCh op
        return { nd.setHandler k hd (.received op' (some msg)) with
          kv := kv
          sending := none
          closed := nd.closed ++ nd.kv.closing op }
      else none
    | _ => none
  | _, _ => none

/-- A crash, and `StartKVServer` on what Raft has stored. -/
def restart (nd : Node n) (snapshot : Option State) : Node n :=
  { init nd.kv.me snapshot with started := nd.started, replied := nd.replied }

/-- **One step of the server.** -/
def step (nd : Node n) : Event n → Option (Node n)
  | .call request isLeader killed => nd.call request isLeader killed
  | .start k isLeader => nd.start k isLeader
  | .receiveClosed k => nd.receiveClosed k
  | .timeout k => nd.timeout k
  | .finish k => nd.finish k
  | .apply op isLeader => nd.apply op isLeader
  | .snapshotMsg state => nd.snapshotMsg state
  | .signal k => nd.signal k
  | .restart snapshot => some (nd.restart snapshot)

/-- The runs of the server whose steps all meet `ok`. -/
abbrev Run (me : Fin n) (snapshot : Option State) (ok : Node n → Event n → Prop) :
    List (Node n) → Prop :=
  Trace step ok (init me snapshot)

/-! ### The steps written out -/

/-- One step of the server. -/
inductive Move (nd : Node n) : Event n → Node n → Prop
  | turnedAway (request : Request) (isLeader killed : Bool) (opIndex : Nat) :
      Move nd (.call request isLeader killed) { nd with
        kv := { nd.kv with opIndex := opIndex }
        replied := nd.replied ++ [(request, ⟨.errWrongLeader, ""⟩)] }
  | called (request : Request) : nd.sending = none →
      Move nd (.call request true false) { nd with
        kv := (nd.kv.preStart (nd.kv.createOp request)).1
        handlers := nd.handlers ++
          [⟨request, .opened (nd.kv.createOp request) nd.kv.channels.length⟩] }
  | started (k : Nat) (hd : Handling n) (op : Op n) (ch : Nat) : nd.handlers[k]? = some hd →
      hd.handler = .opened op ch →
      Move nd (.start k true)
        { nd.setHandler k hd (.waiting op ch) with started := nd.started ++ [op] }
  | refused (k : Nat) (hd : Handling n) (op : Op n) (ch : Nat) : nd.handlers[k]? = some hd →
      hd.handler = .opened op ch → Move nd (.start k false) (nd.setHandler k hd (.refused op))
  | zero (k : Nat) (hd : Handling n) (op : Op n) (ch : Nat) : nd.handlers[k]? = some hd →
      hd.handler = .waiting op ch → nd.kv.isClosed ch = true →
      Move nd (.receiveClosed k) (nd.setHandler k hd (.received op none))
  | timedOut (k : Nat) (hd : Handling n) (op : Op n) (ch : Nat) : nd.handlers[k]? = some hd →
      hd.handler = .waiting op ch → Move nd (.timeout k) (nd.setHandler k hd (.timedOut op))
  | finished (k : Nat) (hd : Handling n) (op : Op n) (kv : KVServer n) (reply : Reply) :
      nd.sending = none → nd.handlers[k]? = some hd →
      Service.Server.leaving hd.handler = some op → nd.kv.deleteStartCh op = some kv →
      hd.reply = some reply →
      Move nd (.finish k) { nd.setHandler k hd .returned with
        kv := kv
        closed := nd.closed ++ nd.kv.closing op
        replied := nd.replied ++ [(hd.request, reply)] }
  | applied (op : Op n) (isLeader : Bool) : nd.sending = none →
      (op.serverId = nd.kv.me → op ∈ nd.started) →
      Move nd (.apply op isLeader) { nd with
        kv := (nd.kv.handleCommandApply op isLeader).1
        sending := (nd.kv.handleCommandApply op isLeader).2.map fun x => (op, x)
        produced := nd.produced ++ [(op, nd.kv.state.reply op isLeader)] }
  | installed (state : State) :
      Move nd (.snapshotMsg state) { nd with kv := { nd.kv with state := state } }
  | signalled (k : Nat) (hd : Handling n) (op op' : Op n) (ch : Nat) (msg : KVReplyMsg)
      (kv : KVServer n) : nd.sending = some (op, ch, msg) → nd.handlers[k]? = some hd →
      hd.handler = .waiting op' ch → nd.kv.deleteStartCh op = some kv →
      Move nd (.signal k) { nd.setHandler k hd (.received op' (some msg)) with
        kv := kv
        sending := none
        closed := nd.closed ++ nd.kv.closing op }
  | restarted (snapshot : Option State) : Move nd (.restart snapshot) (nd.restart snapshot)

variable {nd nd' : Node n} {e : Event n}

theorem move_of_call {request : Request} {isLeader killed : Bool}
    (h : nd.call request isLeader killed = some nd') :
    Move nd (.call request isLeader killed) nd' := by
  unfold call at h
  split at h
  · cases h
    exact .turnedAway request isLeader killed nd.kv.opIndex
  · rename_i hl
    split at h
    · exact absurd h (by simp)
    · rename_i hn
      split at h
      · cases h
        exact .turnedAway request isLeader killed (nd.kv.opIndex + 1)
      · rename_i hk
        cases h
        rw [Bool.not_eq_false] at hl
        rw [Bool.not_eq_true] at hk
        rw [hl, hk]
        exact .called request (Option.not_isSome_iff_eq_none.mp hn)

theorem move_of_start {k : Nat} {isLeader : Bool} (h : nd.start k isLeader = some nd') :
    Move nd (.start k isLeader) nd' := by
  unfold start at h
  split at h
  · exact absurd h (by simp)
  · rename_i hd hk
    split at h
    · rename_i op ch ho
      cases isLeader with
      | true => cases h; exact .started k hd op ch hk ho
      | false => cases h; exact .refused k hd op ch hk ho
    · exact absurd h (by simp)

theorem move_of_receiveClosed {k : Nat} (h : nd.receiveClosed k = some nd') :
    Move nd (.receiveClosed k) nd' := by
  unfold receiveClosed at h
  split at h
  · exact absurd h (by simp)
  · rename_i hd hk
    split at h
    · rename_i op ch hw
      split at h
      · rename_i hc
        cases h
        exact .zero k hd op ch hk hw hc
      · exact absurd h (by simp)
    · exact absurd h (by simp)

theorem move_of_timeout {k : Nat} (h : nd.timeout k = some nd') : Move nd (.timeout k) nd' := by
  unfold timeout at h
  split at h
  · exact absurd h (by simp)
  · rename_i hd hk
    split at h
    · rename_i op ch hw
      cases h
      exact .timedOut k hd op ch hk hw
    · exact absurd h (by simp)

theorem move_of_finish {k : Nat} (h : nd.finish k = some nd') : Move nd (.finish k) nd' := by
  unfold finish at h
  split at h
  · exact absurd h (by simp)
  · rename_i hn
    obtain ⟨hd, hk, h⟩ := Option.bind_eq_some_iff.mp h
    obtain ⟨op, hl, h⟩ := Option.bind_eq_some_iff.mp h
    obtain ⟨kv, ht, h⟩ := Option.bind_eq_some_iff.mp h
    obtain ⟨reply, hr, h⟩ := Option.bind_eq_some_iff.mp h
    cases h
    exact .finished k hd op kv reply (Option.not_isSome_iff_eq_none.mp hn) hk hl ht hr

theorem move_of_apply {op : Op n} {isLeader : Bool} (h : nd.apply op isLeader = some nd') :
    Move nd (.apply op isLeader) nd' := by
  unfold apply at h
  split at h
  · exact absurd h (by simp)
  · rename_i hn
    cases h
    refine .applied op isLeader (Option.not_isSome_iff_eq_none.mp fun hs => hn (.inl hs)) ?_
    intro hme
    by_contra hop
    exact hn (.inr ⟨hme, by simpa using hop⟩)

theorem move_of_signal {k : Nat} (h : nd.signal k = some nd') : Move nd (.signal k) nd' := by
  unfold signal at h
  split at h
  · rename_i op ch msg hd hs hk
    split at h
    · exact absurd h (by simp)
    · split at h
      · rename_i op' ch' hw
        split at h
        · rename_i heq
          obtain ⟨kv, ht, h⟩ := Option.bind_eq_some_iff.mp h
          cases h
          subst heq
          exact .signalled k hd op op' ch' msg kv hs hk hw ht
        · exact absurd h (by simp)
      · exact absurd h (by simp)
  · exact absurd h (by simp)

theorem move_of_step (h : nd.step e = some nd') : Move nd e nd' := by
  cases e with
  | call request isLeader killed => exact move_of_call h
  | start k isLeader => exact move_of_start h
  | receiveClosed k => exact move_of_receiveClosed h
  | timeout k => exact move_of_timeout h
  | finish k => exact move_of_finish h
  | apply op isLeader => exact move_of_apply h
  | snapshotMsg state =>
    have h : nd.snapshotMsg state = some nd' := h
    unfold snapshotMsg at h
    split at h
    · exact absurd h (by simp)
    · cases h
      exact .installed state
  | signal k => exact move_of_signal h
  | restart snapshot => cases h; exact .restarted snapshot

/-! ### The channels -/

/-- The server, as far as its channels go. -/
def server (nd : Node n) : Service.Server (Op n) (Nat × Int) KVReplyMsg :=
  ⟨nd.kv.table, nd.handlers.map (·.handler), nd.sending, nd.started⟩

theorem server_setHandler (k : Nat) (hd : Handling n) (h : Service.Handler (Op n) KVReplyMsg) :
    (nd.setHandler k hd h).server = nd.server.setHandler k h := by
  unfold server setHandler Service.Server.setHandler
  simp only [List.map_set]

theorem server_handler {k : Nat} {hd : Handling n} (hk : nd.handlers[k]? = some hd) :
    nd.server.handlers[k]? = some hd.handler := by
  rw [server, List.getElem?_map, hk, Option.map_some]

theorem me_deleteStartCh {kv kv' : KVServer n} {op : Op n} (h : kv.deleteStartCh op = some kv') :
    kv'.me = kv.me := by
  unfold KVServer.deleteStartCh at h
  split at h
  · cases h; rfl
  · split at h
    · exact absurd h (by simp)
    · cases h; rfl

theorem table_of_deleteStartCh {kv kv' : KVServer n} {op : Op n}
    (h : kv.deleteStartCh op = some kv') :
    kv.table.deleteStartCh (shape kv.me) op = some kv'.table := by
  rw [← KVServer.table_deleteStartCh, h, Option.map_some]

theorem sending_apply (kv : KVServer n) (op : Op n) (isLeader : Bool) :
    (kv.handleCommandApply op isLeader).2.map (fun x => (op, x)) =
      (kv.opChannelMatch op).map fun ch => (op, ch, kv.state.reply op isLeader) := by
  have hsnd : (kv.handleCommandApply op isLeader).2 =
      (kv.opChannelMatch op).map fun ch => (ch, kv.state.reply op isLeader) := rfl
  rw [hsnd, Option.map_map]
  rfl

/-- **As far as the channels go, every step is one of the server of all services**, or none. -/
theorem server_move (hm : Move nd e nd') : nd'.kv.me = nd.kv.me ∧ (nd'.server = nd.server ∨
    ∃ e', (∀ k, e' = .finish k → e = .finish k) ∧
      Service.Server.Move (shape nd.kv.me) nd.server e' nd'.server) := by
  cases hm with
  | turnedAway request isLeader killed opIndex => exact ⟨rfl, .inl rfl⟩
  | called request hn =>
    refine ⟨rfl, .inr ⟨.call (nd.kv.createOp request), by simp, ?_⟩⟩
    have htable := congrArg Prod.fst (KVServer.table_createStartCh
      { nd.kv with opIndex := nd.kv.opIndex + 1 } (nd.kv.createOp request))
    have hm : Service.Server.Move (shape nd.kv.me) nd.server (.call (nd.kv.createOp request)) _ :=
      .called (nd.kv.createOp request) hn
    convert hm using 1
    unfold server
    rw [List.map_append]
    exact congrArg (Service.Server.mk · _ _ _) htable
  | started k hd op ch hk ho =>
    refine ⟨rfl, .inr ⟨.start k true, by simp, ?_⟩⟩
    have hm : Service.Server.Move (shape nd.kv.me) nd.server (.start k true) _ :=
      .started k op ch ((server_handler hk).trans (congrArg some ho))
    rw [← server_setHandler k hd] at hm
    exact hm
  | refused k hd op ch hk ho =>
    refine ⟨rfl, .inr ⟨.start k false, by simp, ?_⟩⟩
    rw [server_setHandler]
    exact .refused k op ch ((server_handler hk).trans (congrArg some ho))
  | zero k hd op ch hk hw hc =>
    refine ⟨rfl, .inr ⟨.receiveClosed k, by simp, ?_⟩⟩
    rw [server_setHandler]
    exact .closed k op ch ((server_handler hk).trans (congrArg some hw)) hc
  | timedOut k hd op ch hk hw =>
    refine ⟨rfl, .inr ⟨.timeout k, by simp, ?_⟩⟩
    rw [server_setHandler]
    exact .timedOut k op ch ((server_handler hk).trans (congrArg some hw))
  | finished k hd op kv reply hn hk hl ht hr =>
    refine ⟨me_deleteStartCh ht, .inr ⟨.finish k, by simp, ?_⟩⟩
    have hm : Service.Server.Move (shape nd.kv.me) nd.server (.finish k) _ :=
      .finished k op hd.handler kv.table hn (server_handler hk) hl (table_of_deleteStartCh ht)
    rw [← server_setHandler k hd] at hm
    exact hm
  | applied op isLeader hn hop =>
    refine ⟨rfl, ?_⟩
    by_cases hme : op.serverId = nd.kv.me
    · obtain ⟨k, hk⟩ := List.mem_iff_getElem?.mp (hop hme)
      refine .inr ⟨.apply k (nd.kv.state.reply op isLeader), by simp, ?_⟩
      have hm : Service.Server.Move (shape nd.kv.me) nd.server
          (.apply k (nd.kv.state.reply op isLeader)) _ := .applied k op _ hn hk
      have hans : nd.server.answersOn (shape nd.kv.me) op = nd.kv.opChannelMatch op :=
        (KVServer.table_opChannelMatch nd.kv op).symm
      rw [hans] at hm
      convert hm using 1
      unfold server
      rw [sending_apply]
      rfl
    · -- nobody waits here for an op of another server
      have hnone : nd.kv.opChannelMatch op = none := by
        unfold KVServer.opChannelMatch
        rw [if_pos hme]
      left
      unfold server
      rw [sending_apply, hnone, hn]
      rfl
  | installed state => exact ⟨rfl, .inl rfl⟩
  | signalled k hd op op' ch msg kv hs hk hw ht =>
    refine ⟨me_deleteStartCh ht, .inr ⟨.signal k, by simp, ?_⟩⟩
    have hm : Service.Server.Move (shape nd.kv.me) nd.server (.signal k) _ :=
      .signalled k op op' ch msg kv.table hs ((server_handler hk).trans (congrArg some hw))
        (table_of_deleteStartCh ht)
    rw [← server_setHandler k hd] at hm
    exact hm
  | restarted snapshot => exact ⟨rfl, .inr ⟨.restart, by simp, .restarted⟩⟩

/-! ### No channel is misused -/

theorem mem_closing {kv : KVServer n} {op : Op n} {ch : Nat} :
    ch ∈ kv.closing op ↔
      ∃ y, kv.table.getStartCh (shape kv.me) op = some y ∧ y.replyChannel = ch := by
  have hget : kv.table.getStartCh (shape kv.me) op = (kv.getStartCh op).map fun startCh =>
      ⟨startCh.operation, startCh.replyChannel⟩ := rfl
  rw [KVServer.closing, hget]
  cases kv.getStartCh op <;> simp [eq_comm]

/-- The invariant: that of the channels, and the record of what has been closed. -/
structure Inv (me : Fin n) (nd : Node n) : Prop where
  same : nd.kv.me = me
  server : Service.Server.Inv (shape me) nd.server
  closed : ∀ ch ∈ nd.closed, nd.kv.isClosed ch = true
  once : nd.closed.Nodup

theorem inv_init (me : Fin n) (snapshot : Option State) : Inv me (init me snapshot) where
  same := rfl
  server := Service.Server.inv_init
  closed := by simp [init]
  once := List.nodup_nil

theorem Inv.delete {me : Fin n} (hi : Inv me nd) {op : Op n} {kv : KVServer n}
    (ht : nd.kv.deleteStartCh op = some kv) :
    (∀ ch ∈ nd.closed ++ nd.kv.closing op, kv.isClosed ch = true) ∧
      (nd.closed ++ nd.kv.closing op).Nodup := by
  have hsound : nd.kv.table.Sound := hi.server.table
  have htable := table_of_deleteStartCh ht
  constructor
  · intro ch hch
    refine (Service.Table.isClosed_delete hsound htable).mpr ?_
    rcases List.mem_append.mp hch with hch | hch
    · exact .inl (hi.closed ch hch)
    · exact .inr (mem_closing.mp hch)
  · rw [List.nodup_append']
    refine ⟨hi.once, ?_, ?_⟩
    · unfold KVServer.closing
      cases nd.kv.getStartCh op <;> simp
    · intro ch hch hch'
      obtain ⟨y, hy, hych⟩ := mem_closing.mp hch'
      have hopen : nd.kv.isClosed ch = false := by
        change (nd.kv.table.channels[ch]?).getD false = false
        rw [← hych, hsound.open_ _ y hy, Option.getD_some]
      rw [hi.closed ch hch] at hopen
      exact absurd hopen (by simp)

theorem Inv.server_next {me : Fin n} (hi : Inv me nd) (hm : Move nd e nd') :
    nd'.kv.me = me ∧ Service.Server.Inv (shape me) nd'.server := by
  obtain ⟨hme, heq | ⟨e', -, hserver⟩⟩ := server_move hm
  · exact ⟨hme.trans hi.same, heq ▸ hi.server⟩
  · rw [hi.same] at hserver
    exact ⟨hme.trans hi.same, Service.Server.inv_move hi.server hserver⟩

theorem inv_move {me : Fin n} (hi : Inv me nd) (hm : Move nd e nd') : Inv me nd' := by
  obtain ⟨hme, hserver⟩ := hi.server_next hm
  cases hm with
  | called request _ =>
    refine ⟨hme, hserver, ?_, hi.once⟩
    intro ch hch
    have hcreate : (nd.kv.table.createStartCh (shape nd.kv.me) (nd.kv.createOp request)).1.isClosed
        ch = nd.kv.table.isClosed ch := Service.Table.isClosed_create
    exact hcreate.trans (hi.closed ch hch)
  | finished k hd op kv reply _ _ _ ht _ =>
    obtain ⟨hclosed, honce⟩ := hi.delete ht
    exact ⟨hme, hserver, hclosed, honce⟩
  | signalled k hd op op' ch msg kv _ _ _ ht =>
    obtain ⟨hclosed, honce⟩ := hi.delete ht
    exact ⟨hme, hserver, hclosed, honce⟩
  | restarted snapshot => exact ⟨hme, hserver, by simp [restart, init], List.nodup_nil⟩
  | _ => exact ⟨hme, hserver, hi.closed, hi.once⟩

/-- Nothing that panics can happen to a channel. -/
structure ChannelsSafe (nd : Node n) : Prop where
  stored_open : ∀ c r startCh, nd.kv.startChannels c r = some startCh →
    nd.kv.channels[startCh.replyChannel]? = some false
  stored_once : ∀ c r startCh c' r' startCh', nd.kv.startChannels c r = some startCh →
    nd.kv.startChannels c' r' = some startCh' →
    startCh.replyChannel = startCh'.replyChannel → c = c' ∧ r = r'
  closed_once : nd.closed.Nodup
  close : ∀ op, (nd.kv.deleteStartCh op).isSome
  send : ∀ op ch msg, nd.sending = some (op, ch, msg) → nd.kv.channels[ch]? = some false ∧
    ∃ startCh, nd.kv.getStartCh op = some startCh ∧ startCh.replyChannel = ch

theorem Inv.channelsSafe {me : Fin n} (hi : Inv me nd) : ChannelsSafe nd := by
  have hsound : nd.kv.table.Sound := hi.server.table
  have hentry : ∀ c r startCh, nd.kv.startChannels c r = some startCh →
      nd.kv.table.startChannels (c, r) = some ⟨startCh.operation, startCh.replyChannel⟩ := by
    intro c r startCh h
    change (nd.kv.startChannels c r).map _ = _
    rw [h, Option.map_some]
  have hopen : ∀ c r startCh, nd.kv.startChannels c r = some startCh →
      nd.kv.channels[startCh.replyChannel]? = some false :=
    fun c r startCh h => hsound.open_ _ _ (hentry c r startCh h)
  refine ⟨hopen, ?_, hi.once, ?_, ?_⟩
  · intro c r startCh c' r' startCh' h h' heq
    exact Prod.mk.inj (hsound.apart _ _ _ _ (hentry c r startCh h) (hentry c' r' startCh' h') heq)
  · intro op
    have hsome : (nd.kv.table.deleteStartCh (shape nd.kv.me) op).isSome :=
      Service.Table.isSome_delete hsound
    rw [← KVServer.table_deleteStartCh, Option.isSome_map] at hsome
    exact hsome
  · intro op ch msg hs
    obtain ⟨y, hy, hych⟩ := hi.server.sending _ hs
    obtain ⟨startCh, hstart, rfl⟩ := Option.map_eq_some_iff.mp hy
    have hych : startCh.replyChannel = ch := hych
    refine ⟨?_, startCh, hstart, hych⟩
    rw [← hych]
    exact hopen _ _ startCh hstart

theorem inv_run {me : Fin n} {snapshot : Option State} {ok : Node n → Event n → Prop}
    {tr : List (Node n)} (h : Run me snapshot ok tr) : ∀ nd ∈ tr, Inv me nd :=
  Trace.invariant (inv_init me snapshot) (fun _ _ _ hi _ hs => inv_move hi (move_of_step hs)) tr h

/-- **Reply channels are never misused**, in any run of a server. -/
theorem channels_never_misused (me : Fin n) (snapshot : Option State) (tr : List (Node n))
    (h : Run me snapshot (fun _ _ => True) tr) : ∀ nd ∈ tr, ChannelsSafe nd := by
  intro nd hnd
  exact (inv_run h nd hnd).channelsSafe

/-- A `Get` of client `5`. -/
def sampleGet : Request := .get ⟨"k", 5, 1⟩

/-- A `Put` of client `5`. -/
def samplePut : Request := .putAppend ⟨"k", "v", .put, 5, 2⟩

/-- A retry whose channel the first attempt closes, an op that is applied, and one that is
refused. -/
theorem channels_never_misused_retried :
    ∃ nd past, run step (fun _ _ => True) (init (0 : Fin 3) none)
        [.call sampleGet true false, .start 0 true, .call sampleGet true false, .start 1 true,
          .timeout 0, .finish 0, .receiveClosed 1, .finish 1,
          .call samplePut true false, .start 2 true, .apply ⟨0, 2, .put, "k", "v", 5, 2⟩ true,
          .signal 2, .finish 2, .call samplePut true false, .start 3 false, .finish 3] []
          = some (nd :: past) ∧ nd.closed = [1, 2, 3] ∧ ∀ nd' ∈ nd :: past, ChannelsSafe nd' := by
  have hs : runEnds step (fun _ _ => True) (init (0 : Fin 3) none)
      [.call sampleGet true false, .start 0 true, .call sampleGet true false, .start 1 true,
        .timeout 0, .finish 0, .receiveClosed 1, .finish 1,
        .call samplePut true false, .start 2 true, .apply ⟨0, 2, .put, "k", "v", 5, 2⟩ true,
        .signal 2, .finish 2, .call samplePut true false, .start 3 false, .finish 3]
      (fun nd _ => decide (nd.closed = [1, 2, 3])) = true := by
    decide +kernel
  obtain ⟨nd, past, h, ht, hc⟩ := exists_of_runEnds hs
  exact ⟨nd, past, h, of_decide_eq_true hc, channels_never_misused 0 none _ ht⟩

end Node

end ShardRaft.KV
