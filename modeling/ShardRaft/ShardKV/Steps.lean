import ShardRaft.ShardKV.World

/-!
# What an entry does, and what a step does

One lemma for each function that changes the state of a group, and `Move`: the step
relation of the groups with both sides written out, one constructor for each event.
`move_of_step` reads it off `World.step`.
-/

namespace ShardRaft.ShardKV

open ShardRaft.Ctrler (Config NShards)

namespace State

variable {st st' : State} {gid : Int} {op : Op} {msg : KVReplyMsg}

/-! ### `InstallShardConfig` -/

theorem install_of_ne (h : op.shardConfig.num ≠ st.latestConfig.num + 1) :
    st.handleInstallShardConfig gid op = st := by
  simp only [handleInstallShardConfig, if_pos h]

theorem install_latestConfig (h : op.shardConfig.num = st.latestConfig.num + 1) :
    (st.handleInstallShardConfig gid op).latestConfig = op.shardConfig := by
  simp only [handleInstallShardConfig, if_neg (not_not.mpr h)]
  split <;> rfl

theorem install_allConfigs (h : op.shardConfig.num = st.latestConfig.num + 1) :
    (st.handleInstallShardConfig gid op).allConfigs = st.allConfigs ++ [op.shardConfig] := by
  simp only [handleInstallShardConfig, if_neg (not_not.mpr h)]
  split <;> rfl

theorem install_clientLastRequest :
    (st.handleInstallShardConfig gid op).clientLastRequest = st.clientLastRequest := by
  simp only [handleInstallShardConfig]
  split
  · rfl
  · split <;> rfl

theorem install_first (h : op.shardConfig.num = st.latestConfig.num + 1)
    (h1 : op.shardConfig.num = 1) :
    (st.handleInstallShardConfig gid op).shardKVStore = (fun _ => some createEmptyKeyValueStore) ∧
      ∀ i, (st.handleInstallShardConfig gid op).shardTimestamp i =
        if op.shardConfig.shards i = gid then 1 else 0 := by
  simp only [handleInstallShardConfig, if_neg (not_not.mpr h), if_pos h1]
  refine ⟨rfl, ?_⟩
  intro i
  simp only [firstConfig, h1]

/-- A later configuration keeps the stores and stamps the shards that stay. -/
theorem install_later (h : op.shardConfig.num = st.latestConfig.num + 1)
    (h1 : op.shardConfig.num ≠ 1) :
    (st.handleInstallShardConfig gid op).shardKVStore = st.shardKVStore ∧
      ∀ i, (st.handleInstallShardConfig gid op).shardTimestamp i =
        if op.shardConfig.shards i = gid ∧ st.latestConfig.shards i = gid
        then op.shardConfig.num else st.shardTimestamp i := by
  simp only [handleInstallShardConfig, if_neg (not_not.mpr h), if_neg h1]
  exact ⟨rfl, fun _ => rfl⟩

/-! ### `AcquireShard` -/

theorem acquire_latestConfig : (st.handleAcquireShard op).latestConfig = st.latestConfig := by
  simp only [handleAcquireShard]
  split <;> rfl

theorem acquire_allConfigs : (st.handleAcquireShard op).allConfigs = st.allConfigs := by
  simp only [handleAcquireShard]
  split <;> rfl

theorem acquire_clientLastRequest : (st.handleAcquireShard op).clientLastRequest =
    mergeLastRequest st.clientLastRequest op.clientLastRequest := by
  simp only [handleAcquireShard]
  split <;> rfl

theorem acquire_of_le (h : op.shardConfigNum ≤ st.shardTimestamp op.shardId) :
    (st.handleAcquireShard op).shardTimestamp = st.shardTimestamp ∧
      (st.handleAcquireShard op).shardKVStore = st.shardKVStore := by
  simp only [handleAcquireShard, if_neg (not_lt.mpr h)]
  exact ⟨trivial, trivial⟩

/-- Newer data replaces the store. -/
theorem acquire_of_lt (h : st.shardTimestamp op.shardId < op.shardConfigNum) :
    (st.handleAcquireShard op).shardTimestamp =
        Function.update st.shardTimestamp op.shardId op.shardConfigNum ∧
      (st.handleAcquireShard op).shardKVStore =
        Function.update st.shardKVStore op.shardId (some op.shardData) := by
  simp only [handleAcquireShard, if_pos h]
  exact ⟨trivial, trivial⟩

theorem le_acquire_shardTimestamp (i : Fin NShards) :
    st.shardTimestamp i ≤ (st.handleAcquireShard op).shardTimestamp i := by
  rcases le_or_gt op.shardConfigNum (st.shardTimestamp op.shardId) with h | h
  · rw [(acquire_of_le h).1]
  · rw [(acquire_of_lt h).1]
    by_cases hi : i = op.shardId
    · rw [hi, Function.update_self]
      exact h.le
    · rw [Function.update_of_ne hi]

theorem answer_eq {args : AcquireShardArgs} {reply : AcquireShardReply}
    (h : st.answerAcquireShards args = some reply) :
    args.configNum ≤ st.latestConfig.num ∧
      reply = ⟨st.latestConfig.num, st.shardTimestamp args.shardIndex,
        st.cloneStore args.shardIndex, st.clientLastRequest⟩ := by
  unfold answerAcquireShards at h
  split at h
  · exact absurd h (by simp)
  · rename_i hn
    exact ⟨not_lt.mp fun hlt => hn (.inr hlt), (Option.some.inj h).symm⟩

/-! ### Client operations -/

theorem mem_laggingShards {sid : Fin NShards} : sid ∈ st.laggingShards gid ↔
    st.latestConfig.shards sid = gid ∧ st.shardTimestamp sid < st.latestConfig.num := by
  simp [laggingShards, curShardUpToDate]

theorem allShardsUpToDate_iff : st.allShardsUpToDate gid = true ↔
    ∀ sid, st.latestConfig.shards sid = gid → st.latestConfig.num ≤ st.shardTimestamp sid := by
  rw [allShardsUpToDate, List.isEmpty_iff, List.eq_nil_iff_forall_not_mem]
  constructor
  · intro h sid hs
    by_contra hlt
    exact h sid (mem_laggingShards.mpr ⟨hs, not_le.mp hlt⟩)
  · intro h sid hs
    obtain ⟨hg, hlt⟩ := mem_laggingShards.mp hs
    exact absurd (h sid hg) (not_le.mpr hlt)

theorem serves_iff {sid : Fin NShards} : st.serves gid sid = true ↔
    st.latestConfig.shards sid = gid ∧ st.allShardsUpToDate gid = true := by
  simp [serves]

/-- A group that serves a shard has its data. -/
theorem le_of_serves {sid : Fin NShards} (h : st.serves gid sid = true) :
    st.latestConfig.num ≤ st.shardTimestamp sid := by
  obtain ⟨hs, hup⟩ := serves_iff.mp h
  exact allShardsUpToDate_iff.mp hup sid hs

theorem applyClientOp_of_not (h : (st.serves gid (key2shard op.key) &&
      !st.isDuplicateOp op) = false) (ha : st.applyClientOp gid op = some (st', msg)) :
    st' = st := by
  unfold applyClientOp at ha
  split at ha
  · exact (Prod.mk.inj (Option.some.inj ha)).1.symm
  · rename_i hg
    split at ha
    · exact (Prod.mk.inj (Option.some.inj ha)).1.symm
    · rename_i hup
      split at ha
      · exact (Prod.mk.inj (Option.some.inj ha)).1.symm
      · rename_i hd
        have hs : st.serves gid (key2shard op.key) = true :=
          serves_iff.mpr ⟨(not_not.mp hg).symm, by simpa using hup⟩
        rw [hs] at h
        simp [hd] at h

/-- An operation that is served and new goes on to the last branch. -/
theorem applyClientOp_of_new (hs : st.serves gid (key2shard op.key) = true)
    (hd : st.isDuplicateOp op = false) : st.applyClientOp gid op = st.applyNew op := by
  obtain ⟨hg, hup⟩ := serves_iff.mp hs
  simp [applyClientOp, hg, hup, hd]

/-- A reply a clerk returns with comes from a group that serves the shard. -/
theorem serves_of_good (ha : st.applyClientOp gid op = some (st', msg)) (h : msg.good = true) :
    st.serves gid (key2shard op.key) = true := by
  unfold applyClientOp at ha
  split at ha
  · rw [← (Prod.mk.inj (Option.some.inj ha)).2] at h
    exact absurd h (by decide)
  · rename_i hg
    split at ha
    · rw [← (Prod.mk.inj (Option.some.inj ha)).2] at h
      exact absurd h (by decide)
    · rename_i hup
      exact serves_iff.mpr ⟨(not_not.mp hg).symm, by simpa using hup⟩

theorem applyNew_frame (ha : st.applyNew op = some (st', msg)) :
    st'.latestConfig = st.latestConfig ∧ st'.allConfigs = st.allConfigs ∧
      st'.shardTimestamp = st.shardTimestamp ∧
      st'.clientLastRequest =
        Function.update st.clientLastRequest op.clientId (some op.requestIndex) := by
  unfold applyNew at ha
  split at ha
  · rw [← (Prod.mk.inj (Option.some.inj ha)).1]
    exact ⟨rfl, rfl, rfl, rfl⟩
  · rw [← (Prod.mk.inj (Option.some.inj ha)).1]
    exact ⟨rfl, rfl, rfl, rfl⟩
  · rw [← (Prod.mk.inj (Option.some.inj ha)).1]
    exact ⟨rfl, rfl, rfl, rfl⟩
  · exact absurd ha (by simp)
  · exact absurd ha (by simp)

theorem applyClientOp_frame (ha : st.applyClientOp gid op = some (st', msg)) :
    st'.latestConfig = st.latestConfig ∧ st'.allConfigs = st.allConfigs ∧
      st'.shardTimestamp = st.shardTimestamp := by
  cases h : st.serves gid (key2shard op.key) && !st.isDuplicateOp op with
  | false =>
    rw [applyClientOp_of_not h ha]
    exact ⟨rfl, rfl, rfl⟩
  | true =>
    obtain ⟨hs, hd⟩ := (Bool.and_eq_true _ _).mp h
    rw [applyClientOp_of_new hs (by simpa using hd)] at ha
    obtain ⟨h1, h2, h3, -⟩ := applyNew_frame ha
    exact ⟨h1, h2, h3⟩

end State

/-! ### The steps -/

namespace World

/-- The step relation, one constructor for each event. -/
inductive Move (cs : Configs) (w : World) : Event → World → Prop
  | check {g : Gid} {p : Nat} {st : State} : (w.past g)[p]? = some st →
      st.allShardsUpToDate g = true →
      Move cs w (.check g p) { w with tickers := w.tickers ++ [⟨g, p, p, none⟩] }
  | query {k p num : Nat} {t : Ticker} {st : State} : w.tickers[k]? = some t →
      (w.past t.gid)[p]? = some st → t.position ≤ p → (num : Int) ≤ st.latestConfig.num + 1 →
      Move cs w (.query k p num)
        { w with tickers := w.tickers.set k { t with position := p, newConfig := cs.config num } }
  | propose {k p : Nat} {t : Ticker} {newConfig : Config} {st : State} :
      w.tickers[k]? = some t → t.newConfig = some newConfig → (w.past t.gid)[p]? = some st →
      t.position ≤ p → newConfig.num = st.latestConfig.num + 1 →
      Move cs w (.propose k p) { w with proposed := w.proposed ++ [(t.gid, newConfig)] }
  | install {k : Nat} {g : Gid} {newConfig : Config} : w.proposed[k]? = some (g, newConfig) →
      Move cs w (.install k) (w.setState g
        ((w.state g).handleInstallShardConfig g (createInstallShardConfigOp 0 newConfig)))
  | request {g donor : Gid} {p q : Nat} {sid : Fin NShards} {st st' : State}
      {args : AcquireShardArgs} :
      (w.past g)[p]? = some st → (w.past g)[q]? = some st' → p ≤ q → sid ∈ st.laggingShards g →
      st'.acquireShards g sid = some (args, donor.1) →
      Move cs w (.request g p q sid) { w with asked := w.asked ++ [⟨g, donor, args⟩] }
  | answer {k p : Nat} {q : Asked} {st : State} {reply : AcquireShardReply} :
      w.asked[k]? = some q → (w.past q.donor)[p]? = some st →
      st.answerAcquireShards q.args = some reply →
      Move cs w (.answer k p) { w with answered := w.answered ++ [⟨q, reply⟩] }
  | acquire {k : Nat} {a : Answered} : w.answered[k]? = some a →
      Move cs w (.acquire k) (w.setState a.asked.gid ((w.state a.asked.gid).handleAcquireShard
        (createAcquireShardOp 0 a.asked.args.shardIndex a.reply)))
  | call {c : Int} {call : Call} : (w.clerks c).waiting = none →
      Move cs w (.call c call) { w with
        clerks := Function.update w.clerks c ⟨(w.clerks c).requestIndex + 1,
          some ⟨c, (w.clerks c).requestIndex, call⟩⟩
        issued := w.issued ++ [⟨c, (w.clerks c).requestIndex, call⟩] }
  | apply {g : Gid} {k : Nat} {req : Request} {st : State} {msg : KVReplyMsg} :
      w.issued[k]? = some req →
      (w.state g).applyClientOp g (createOp 0 req) = some (st, msg) →
      Move cs w (.apply g k) { w.setState g st with
        history := w.history ++ [⟨g, req, (w.state g).serves g (key2shard req.call.key) &&
          !(w.state g).isDuplicateOp (createOp 0 req), msg⟩] }
  | returns {c : Int} {req : Request} {r : Applied} : (w.clerks c).waiting = some req →
      r ∈ w.history → r.request = req → r.reply.good = true →
      Move cs w (.returns c)
        { w with clerks := Function.update w.clerks c { w.clerks c with waiting := none } }

/-- **Every step is a move.** -/
theorem move_of_step {cs : Configs} {w w' : World} {e : Event} (h : w.step cs e = some w') :
    Move cs w e w' := by
  cases e with
  | check g p =>
    obtain ⟨st, hst, h⟩ := Option.bind_eq_some_iff.mp h
    split at h
    · rename_i hup
      rw [← Option.some.inj h]
      exact .check hst hup
    · exact absurd h (by simp)
  | query k p num =>
    obtain ⟨t, ht, h⟩ := Option.bind_eq_some_iff.mp h
    obtain ⟨st, hst, h⟩ := Option.bind_eq_some_iff.mp h
    split at h
    · rename_i hp
      rw [← Option.some.inj h]
      exact .query ht hst hp.1 hp.2
    · exact absurd h (by simp)
  | propose k p =>
    obtain ⟨t, ht, h⟩ := Option.bind_eq_some_iff.mp h
    obtain ⟨c, hc, h⟩ := Option.bind_eq_some_iff.mp h
    obtain ⟨st, hst, h⟩ := Option.bind_eq_some_iff.mp h
    split at h
    · rename_i hp
      rw [← Option.some.inj h]
      exact .propose ht hc hst hp.1 hp.2
    · exact absurd h (by simp)
  | install k =>
    obtain ⟨⟨g, c⟩, hc, h⟩ := Option.bind_eq_some_iff.mp h
    rw [← Option.some.inj h]
    exact .install hc
  | request g p q sid =>
    obtain ⟨st, hst, h⟩ := Option.bind_eq_some_iff.mp h
    obtain ⟨st', hst', h⟩ := Option.bind_eq_some_iff.mp h
    split at h
    · rename_i hl
      obtain ⟨⟨args, donor⟩, ha, h⟩ := Option.bind_eq_some_iff.mp h
      by_cases hd : 0 < donor
      · simp only [dif_pos hd] at h
        rw [← Option.some.inj h]
        exact .request hst hst' hl.1 hl.2 ha
      · simp only [dif_neg hd] at h
        exact absurd h (by simp)
    · exact absurd h (by simp)
  | answer k p =>
    obtain ⟨q, hq, h⟩ := Option.bind_eq_some_iff.mp h
    obtain ⟨st, hst, h⟩ := Option.bind_eq_some_iff.mp h
    obtain ⟨reply, hr, h⟩ := Option.bind_eq_some_iff.mp h
    rw [← Option.some.inj h]
    exact .answer hq hst hr
  | acquire k =>
    obtain ⟨a, ha, h⟩ := Option.bind_eq_some_iff.mp h
    rw [← Option.some.inj h]
    exact .acquire ha
  | call c call =>
    simp only [step, World.call] at h
    split at h
    · exact absurd h (by simp)
    · rename_i hw
      rw [← Option.some.inj h]
      exact .call (by simpa using hw)
  | apply g k =>
    obtain ⟨req, hreq, h⟩ := Option.bind_eq_some_iff.mp h
    obtain ⟨⟨st, msg⟩, ha, h⟩ := Option.bind_eq_some_iff.mp h
    rw [← Option.some.inj h]
    exact .apply hreq ha
  | returns c =>
    obtain ⟨req, hreq, h⟩ := Option.bind_eq_some_iff.mp h
    split at h
    · rename_i hany
      rw [← Option.some.inj h]
      obtain ⟨r, hr, hp⟩ := List.any_eq_true.mp hany
      obtain ⟨hq, hg⟩ := (Bool.and_eq_true _ _).mp hp
      exact .returns hreq hr (of_decide_eq_true hq) hg
    · exact absurd h (by simp)

end World

end ShardRaft.ShardKV
