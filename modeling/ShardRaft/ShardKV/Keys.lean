import ShardRaft.ShardKV.HandOver
import ShardRaft.ShardKV.Logs

/-!
# Keys stay in their shard

The index of a shard and its data travel apart: the index in the request, the data in the
answer, both in the entry that is made of them.  `State.Sharded` says that every key a state
stores is one of the shard it is stored under, and that every shard has a store once there
is a configuration; `World.Placed` says the same of the answers under way.  The two carry
each other over every step (`World.Placed.move`).

A `KeyValueStore` is a map that has been made: `createEmptyKeyValueStore`, `clone` and
`setKeyValue` are the only ways into `ShardKVStore`, and each makes one.
-/

namespace ShardRaft.ShardKV

open ShardRaft.Lib
open ShardRaft.Ctrler (Config NShards NShards_pos)

/-- Every key of the store belongs to this shard. -/
def KeyValueStore.InShard (store : KeyValueStore) (sid : Fin NShards) : Prop :=
  ∀ key value, store.kvStore key = some value → key2shard key = sid

theorem inShard_empty (sid : Fin NShards) : createEmptyKeyValueStore.InShard sid := by
  intro key value h
  exact absurd h (by simp [createEmptyKeyValueStore])

namespace State

/-- Every key is stored under its shard, and there is a store for every shard as soon as
there is a configuration. -/
structure Sharded (st : State) : Prop where
  keys : ∀ sid store, st.shardKVStore sid = some store → store.InShard sid
  stores : st.latestConfig.num = 0 ∨
    (1 ≤ st.latestConfig.num ∧ ∀ sid, ∃ store, st.shardKVStore sid = some store)

variable {st st' : State} {gid : Int} {op : Op} {msg : KVReplyMsg}

theorem sharded_makeState : makeState.Sharded where
  keys sid store h := absurd h (by simp [makeState])
  stores := .inl rfl

theorem Sharded.cloneStore (h : st.Sharded) (sid : Fin NShards) : (st.cloneStore sid).InShard sid := by
  unfold State.cloneStore
  cases hs : st.shardKVStore sid with
  | none => exact inShard_empty sid
  | some store => exact h.keys sid store hs

theorem Sharded.update (h : st.Sharded) {sid : Fin NShards} {store : KeyValueStore}
    (hstore : store.InShard sid) (hc : st'.latestConfig = st.latestConfig)
    (hs : st'.shardKVStore = Function.update st.shardKVStore sid (some store)) : st'.Sharded := by
  constructor
  · intro sid' store' h'
    rw [hs] at h'
    by_cases he : sid' = sid
    · subst he
      rw [Function.update_self] at h'
      exact Option.some.inj h' ▸ hstore
    · rw [Function.update_of_ne he] at h'
      exact h.keys sid' store' h'
  · rw [hc]
    refine h.stores.imp_right fun hall => ⟨hall.1, fun sid' => ?_⟩
    rw [hs]
    by_cases he : sid' = sid
    · subst he
      exact ⟨store, Function.update_self ..⟩
    · rw [Function.update_of_ne he]
      exact hall.2 sid'

theorem Sharded.congr (h : st.Sharded) (hc : st'.latestConfig = st.latestConfig)
    (hs : st'.shardKVStore = st.shardKVStore) : st'.Sharded := by
  obtain ⟨hkeys, hstores⟩ := h
  rw [← hs] at hkeys hstores
  rw [← hc] at hstores
  exact ⟨hkeys, hstores⟩

theorem Sharded.install (h : st.Sharded) : (st.handleInstallShardConfig gid op).Sharded := by
  by_cases hn : op.shardConfig.num = st.latestConfig.num + 1
  · have hl : (st.handleInstallShardConfig gid op).latestConfig = op.shardConfig :=
      install_latestConfig hn
    by_cases h1 : op.shardConfig.num = 1
    · have hs : (st.handleInstallShardConfig gid op).shardKVStore =
          (fun _ => some createEmptyKeyValueStore) := (install_first hn h1).1
      refine ⟨fun sid store h' => ?_, .inr ⟨by rw [hl, h1], fun sid => ?_⟩⟩
      · rw [hs] at h'
        exact Option.some.inj h' ▸ inShard_empty sid
      · rw [hs]
        exact ⟨_, rfl⟩
    · have hs : (st.handleInstallShardConfig gid op).shardKVStore = st.shardKVStore :=
        (install_later hn h1).1
      rcases h.stores with h0 | ⟨hpos, hall⟩
      · omega
      · refine ⟨?_, .inr ⟨by rw [hl]; omega, ?_⟩⟩
        · rw [hs]
          exact h.keys
        · rw [hs]
          exact hall
  · rw [install_of_ne hn]
    exact h

theorem Sharded.acquire (h : st.Sharded) (hop : op.shardData.InShard op.shardId) :
    (st.handleAcquireShard op).Sharded := by
  rcases le_or_gt op.shardConfigNum (st.shardTimestamp op.shardId) with hle | hlt
  · exact h.congr acquire_latestConfig (acquire_of_le hle).2
  · exact h.update hop acquire_latestConfig (acquire_of_lt hlt).2

theorem Sharded.setKeyValue (h : st.Sharded) (key value : String) : (st.setKeyValue key value).Sharded := by
  have hstore : KeyValueStore.InShard
      ⟨Function.update (st.cloneStore (key2shard key)).kvStore key (some value)⟩ (key2shard key) := by
    intro key' value' h'
    by_cases hk : key' = key
    · rw [hk]
    · simp only [Function.update_of_ne hk] at h'
      exact h.cloneStore _ key' value' h'
  exact h.update hstore rfl rfl

theorem Sharded.applyClientOp (h : st.Sharded) (ha : st.applyClientOp gid op = some (st', msg)) :
    st'.Sharded := by
  cases hnew : st.serves gid (key2shard op.key) && !st.isDuplicateOp op with
  | false =>
    rw [applyClientOp_of_not hnew ha]
    exact h
  | true =>
    obtain ⟨hs, hd⟩ := (Bool.and_eq_true _ _).mp hnew
    rw [applyClientOp_of_new hs (by simpa using hd), applyNew] at ha
    have hrec : ({ st with
        clientLastRequest :=
          Function.update st.clientLastRequest op.clientId (some op.requestIndex) } : State).Sharded :=
      h.congr rfl rfl
    split at ha
    · exact (Prod.mk.inj (Option.some.inj ha)).1 ▸ hrec
    · exact (Prod.mk.inj (Option.some.inj ha)).1 ▸ hrec.setKeyValue _ _
    · exact (Prod.mk.inj (Option.some.inj ha)).1 ▸ hrec.setKeyValue _ _
    · exact absurd ha (by simp)
    · exact absurd ha (by simp)

/-- A donor that answers has a store to answer with. -/
theorem Sharded.answer (h : st.Sharded) {args : AcquireShardArgs} {reply : AcquireShardReply}
    (hreply : st.answerAcquireShards args = some reply) :
    ∃ store, st.shardKVStore args.shardIndex = some store ∧ reply.shardData = store := by
  have hnum : st.latestConfig.num ≠ 0 := by
    intro h0
    simp [answerAcquireShards, h0] at hreply
  obtain ⟨store, hs⟩ := (h.stores.resolve_left hnum).2 args.shardIndex
  refine ⟨store, hs, ?_⟩
  rw [(answer_eq hreply).2, State.cloneStore, hs, Option.getD_some]

end State

namespace World

/-- What holds of the states of the groups and of the answers and entries under way. -/
structure Placed (w : World) : Prop where
  state : ∀ g, (w.state g).Sharded
  past : ∀ g, ∀ st ∈ w.past g, st.Sharded
  answered : ∀ a ∈ w.answered, a.reply.shardData.InShard a.asked.args.shardIndex

variable {cs : Configs} {w w' : World} {e : Event}

theorem Placed.init : World.init.Placed where
  state _ := State.sharded_makeState
  past _ _ hst := List.mem_singleton.mp hst ▸ State.sharded_makeState
  answered _ ha := absurd ha List.not_mem_nil

theorem Placed.setState (h : w.Placed) (g : Gid) {st : State} (hst : st.Sharded) :
    (w.setState g st).Placed := by
  refine ⟨fun g' => ?_, fun g' st' hst' => ?_, h.answered⟩
  · by_cases hg : g' = g
    · subst hg
      simp only [World.setState, Function.update_self]
      exact hst
    · simp only [World.setState, Function.update_of_ne hg]
      exact h.state g'
  · by_cases hg : g' = g
    · subst hg
      simp only [World.setState, Function.update_self] at hst'
      rcases List.mem_append.mp hst' with hst' | hst'
      · exact h.past g' st' hst'
      · exact List.mem_singleton.mp hst' ▸ hst
    · simp only [World.setState, Function.update_of_ne hg] at hst'
      exact h.past g' st' hst'

/-- **A step keeps keys in their shard.** -/
theorem Placed.move (h : w.Placed) (hm : World.Move cs w e w') : w'.Placed := by
  cases hm with
  | check hst hup => exact ⟨h.state, h.past, h.answered⟩
  | query ht hst hp hn => exact ⟨h.state, h.past, h.answered⟩
  | propose ht hc hst hp hn => exact ⟨h.state, h.past, h.answered⟩
  | install hc => exact h.setState _ (h.state _).install
  | request hst hst' hp hl ha => exact ⟨h.state, h.past, h.answered⟩
  | answer hq hst hr =>
    refine ⟨h.state, h.past, fun a ha => ?_⟩
    rcases List.mem_append.mp ha with ha | ha
    · exact h.answered a ha
    · -- the donor reads the store of the shard it is asked for
      rw [List.mem_singleton.mp ha, (State.answer_eq hr).2]
      exact (h.past _ _ (List.mem_of_getElem? hst)).cloneStore _
  | acquire ha => exact h.setState _ ((h.state _).acquire (h.answered _ (List.mem_of_getElem? ha)))
  | call hc => exact ⟨h.state, h.past, h.answered⟩
  | @apply g _ _ _ _ hreq ha =>
    have hs := h.setState g ((h.state g).applyClientOp ha)
    exact ⟨hs.state, hs.past, hs.answered⟩
  | returns hc hr hq hg => exact ⟨h.state, h.past, h.answered⟩

end World

theorem placed_run {cs : Configs} {ok : World → Event → Prop} {tr : List World}
    (h : Run cs ok tr) : ∀ w ∈ tr, w.Placed :=
  Trace.invariant World.Placed.init (fun _ _ _ hw _ hs => hw.move (World.move_of_step hs)) tr h

/-- Where the keys are, in a state of the groups whose logs are `log`. -/
structure World.KeysInShard (w : World) (log : Gid → List Op) : Prop where
  /-- Every replica of every group and every snapshot, whatever the points at which
  snapshots are taken and read and servers restarted. -/
  replicas : ∀ (g : Gid) (r : GroupRun g (log g)) (st : State), r.Holds st → st.Sharded
  /-- Every answer under way, and every entry that may be made of it. -/
  answers : ∀ a ∈ w.answered, a.reply.shardData.InShard a.asked.args.shardIndex ∧
    ∀ me, let op := createAcquireShardOp me a.asked.args.shardIndex a.reply
      op.shardData.InShard op.shardId
  /-- Every entry of a log. -/
  entries : ∀ g, ∀ op ∈ log g, op.type = .acquireShard → op.shardData.InShard op.shardId
  /-- `setKeyValue` finds a store whenever a client operation gets that far. -/
  setFinds : ∀ (g : Gid) (r : GroupRun g (log g)) (st : State), r.Holds st → ∀ key,
    st.serves g (key2shard key) = true → ∃ store, st.shardKVStore (key2shard key) = some store
  /-- `AcquireShards` finds the store it answers with. -/
  acquireFinds : ∀ (g : Gid) (r : GroupRun g (log g)) (st : State), r.Holds st → ∀ args reply,
    st.answerAcquireShards args = some reply →
      ∃ store, st.shardKVStore args.shardIndex = some store ∧ reply.shardData = store

/-- **Keys stay in their shard**, in every state of every run. -/
theorem keys_stay_in_shard (cs : Configs) (tr : List World) (h : Run cs (fun _ _ => True) tr) :
    ∀ w ∈ tr, ∃ log, w.Logged log ∧ w.KeysInShard log := by
  intro w hw
  obtain ⟨log, hlog⟩ := logged_run h w hw
  have hplaced := placed_run h w hw
  have horder := inOrder_run h w hw
  have hheld : ∀ {g : Gid} {r : GroupRun g (log g)} {st : State}, r.Holds st →
      st.Sharded ∧ st.Consumed cs := by
    intro g r st hst
    have hpast := mem_past_of_holds hlog hst
    exact ⟨hplaced.past g st hpast, horder.consumed g st hpast⟩
  refine ⟨log, hlog, fun g r st hst => (hheld hst).1, fun a ha => ?_, fun g op hop htype => ?_,
    fun g r st hst key hserves => ?_, fun g r st hst args reply hreply => ?_⟩
  · exact ⟨hplaced.answered a ha, fun _ => hplaced.answered a ha⟩
  · cases hlog.entered g op hop with
    | install c h => exact absurd htype (by simp [createInstallShardConfigOp])
    | acquire a ha hg => exact hplaced.answered a ha
    | client req h => cases hcall : req.call <;> simp [createOp, hcall] at htype
  · obtain ⟨hsharded, hconsumed⟩ := hheld hst
    have howner := (hconsumed.shards (key2shard key)).symm.trans (State.serves_iff.mp hserves).1
    have hpos := Configs.pos_of_owner howner
    have hnum := hconsumed.latest_num
    exact (hsharded.stores.resolve_left (by omega)).2 _
  · exact (hheld hst).1.answer hreply

/-- A key is written in group 1, and group 2 gets its shard. -/
def keyMoved : List Event :=
  round (gid 0) 0 0 1 ++ [.call 7 (.put "2" "b"), .apply (gid 0) 0] ++ round (gid 1) 0 1 1 ++
    round (gid 1) 1 2 2 ++ [.request (gid 1) 2 2 ⟨0, NShards_pos⟩, .answer 0 2, .acquire 0]

theorem keyMoved_ends : runEnds (World.step (oneOwner [0, 1, 2])) (fun _ _ => True)
    World.init keyMoved (fun w _ => decide
      ((w.state (gid 1)).getValueWithKey "2" = some "b" ∧ w.answered.length = 1)) = true := by
  decide +kernel

theorem keys_stay_in_shard_keyMoved : ∃ (w : World) (log : Gid → List Op),
    (w.state (gid 1)).getValueWithKey "2" = some "b" ∧ w.answered.length = 1 ∧ w.Logged log ∧
      w.KeysInShard log := by
  obtain ⟨w, past, -, ht, hp⟩ := exists_of_runEnds keyMoved_ends
  obtain ⟨hkey, hanswered⟩ := of_decide_eq_true hp
  obtain ⟨log, hlog, hkeys⟩ := keys_stay_in_shard _ _ ht w List.mem_cons_self
  exact ⟨w, log, hkey, hanswered, hlog, hkeys⟩

end ShardRaft.ShardKV
