import ShardRaft.ShardKV.Steps

/-!
# Configurations are consumed in order

What holds in every run of the groups, whatever the order of the log entries.  A state
knows exactly the configurations up to its number (`State.Consumed`), and along the
log of a group the number never falls, nor does a timestamp as long as the number stays
(`State.Before`).  `inOrder_run` carries both over whole runs.
-/

namespace ShardRaft.ShardKV

open ShardRaft.Lib
open ShardRaft.Ctrler (Config NShards)

/-- The configuration a group has under this number: it starts with its own number 0. -/
def Configs.known (cs : Configs) (n : Nat) : Config :=
  if n = 0 then zeroConfig else cs.config n

/-- The owner of a shard. -/
def Configs.owner (cs : Configs) (n : Nat) (sid : Fin NShards) : Int := (cs.known n).shards sid

variable {cs : Configs}

@[simp] theorem Configs.known_num (n : Nat) : (cs.known n).num = n := by
  unfold Configs.known
  split
  · rename_i h
    rw [h]
    rfl
  · exact cs.num_eq n

theorem Configs.known_succ (n : Nat) : cs.known (n + 1) = cs.config (n + 1) := by
  simp [Configs.known]

@[simp] theorem Configs.owner_zero (sid : Fin NShards) : cs.owner 0 sid = 0 := rfl

theorem Configs.pos_of_owner {g : Gid} {n : Nat} {sid : Fin NShards} (h : cs.owner n sid = g.1) :
    0 < n := by
  rcases Nat.eq_zero_or_pos n with rfl | hn
  · rw [Configs.owner_zero] at h
    exact absurd g.2 (by rw [← h]; exact lt_irrefl 0)
  · exact hn

namespace State

variable {st st' st'' : State} {gid : Int} {op : Op}

/-- `LatestConfig.Num`. -/
def num (st : State) : Nat := st.latestConfig.num.toNat

/-- The state knows the configurations up to its number and no other. -/
structure Consumed (cs : Configs) (st : State) : Prop where
  latest : st.latestConfig = cs.known st.num
  all : st.allConfigs = (List.range (st.num + 1)).map cs.known

/-- `st'` comes later in the log. -/
def Before (st st' : State) : Prop :=
  st.num ≤ st'.num ∧ (st.num = st'.num → ∀ i, st.shardTimestamp i ≤ st'.shardTimestamp i)

theorem Before.refl : Before st st := ⟨le_rfl, fun _ _ => le_rfl⟩

theorem Before.trans (h : Before st st') (h' : Before st' st'') : Before st st'' := by
  refine ⟨h.1.trans h'.1, ?_⟩
  intro hn i
  have h1 := h.1
  have h2 := h'.1
  exact (h.2 (by omega) i).trans (h'.2 (by omega) i)

theorem num_congr (h : st'.latestConfig = st.latestConfig) : st'.num = st.num := by
  rw [num, h, num]

namespace Consumed

theorem latest_num (h : st.Consumed cs) : st.latestConfig.num = st.num := by
  rw [h.latest, Configs.known_num]

theorem shards (h : st.Consumed cs) (sid : Fin NShards) :
    st.latestConfig.shards sid = cs.owner st.num sid := by
  rw [h.latest, Configs.owner]

theorem makeState : State.makeState.Consumed cs := ⟨rfl, rfl⟩

theorem congr (h : st.Consumed cs) (hl : st'.latestConfig = st.latestConfig)
    (ha : st'.allConfigs = st.allConfigs) : st'.Consumed cs := by
  constructor
  · rw [num_congr hl, hl]
    exact h.latest
  · rw [num_congr hl, ha]
    exact h.all

theorem previousConfig (h : st.Consumed cs) {c : Config} (hc : st.previousConfig = some c) :
    0 < st.num ∧ c = cs.known (st.num - 1) := by
  unfold State.previousConfig at hc
  split at hc
  · rename_i hlen
    rw [h.all, List.length_map, List.length_range] at hlen hc
    rw [List.getElem?_map, List.getElem?_range (by omega)] at hc
    exact ⟨by omega, (Option.some.inj hc).symm⟩
  · exact absurd hc (by simp)

theorem acquireShards (h : st.Consumed cs) {args : AcquireShardArgs} {donor : Int}
    {sid : Fin NShards} (ha : st.acquireShards gid sid = some (args, donor)) :
    0 < st.num ∧ args.configNum = (st.num - 1 : Nat) ∧ args.shardIndex = sid ∧
      donor = cs.owner (st.num - 1) sid := by
  obtain ⟨c, hc, ha⟩ := Option.bind_eq_some_iff.mp ha
  obtain ⟨hpos, rfl⟩ := h.previousConfig hc
  simp only at ha
  split at ha
  · exact absurd ha (by simp)
  · obtain ⟨h1, h2⟩ := Prod.mk.inj (Option.some.inj ha)
    rw [← h1, ← h2]
    exact ⟨hpos, Configs.known_num _, rfl, rfl⟩

end Consumed

theorem num_install (hst : st.Consumed cs) (h : op.shardConfig.num = st.latestConfig.num + 1) :
    (st.handleInstallShardConfig gid op).num = st.num + 1 := by
  rw [num, install_latestConfig h, h, hst.latest_num]
  omega

theorem consumed_install (hst : st.Consumed cs) {n : Nat} (hop : op.shardConfig = cs.config n) :
    (st.handleInstallShardConfig gid op).Consumed cs := by
  by_cases h : op.shardConfig.num = st.latestConfig.num + 1
  · have hn : n = st.num + 1 := by
      rw [hop, cs.num_eq, hst.latest_num] at h
      omega
    have hk : op.shardConfig = cs.known (st.num + 1) := by
      rw [hop, hn, Configs.known_succ]
    constructor
    · rw [install_latestConfig h, num_install hst h, hk]
    · rw [install_allConfigs h, num_install hst h, hst.all, hk, List.range_succ (n := st.num + 1),
        List.map_append, List.map_singleton]
  · rw [install_of_ne h]
    exact hst

theorem before_install (hst : st.Consumed cs) : Before st (st.handleInstallShardConfig gid op) := by
  by_cases h : op.shardConfig.num = st.latestConfig.num + 1
  · have hn : (st.handleInstallShardConfig gid op).num = st.num + 1 := num_install hst h
    refine ⟨by omega, ?_⟩
    intro heq
    omega
  · rw [install_of_ne h]
    exact .refl

theorem before_acquire : Before st (st.handleAcquireShard op) :=
  ⟨(num_congr acquire_latestConfig).ge, fun _ i => le_acquire_shardTimestamp i⟩

theorem before_applyClientOp {msg : KVReplyMsg}
    (ha : st.applyClientOp gid op = some (st', msg)) : Before st st' := by
  obtain ⟨hl, -, ht⟩ := applyClientOp_frame ha
  exact ⟨(num_congr hl).ge, fun _ i => by rw [ht]⟩

theorem allShardsUpToDate_before (hst : st.Consumed cs) (hst' : st'.Consumed cs)
    (hb : Before st st') (hn : st.num = st'.num) (h : st.allShardsUpToDate gid = true) :
    st'.allShardsUpToDate gid = true := by
  rw [allShardsUpToDate_iff] at h ⊢
  intro sid hs
  rw [hst'.shards, ← hn, ← hst.shards] at hs
  have h1 := h sid hs
  rw [hst.latest_num] at h1
  rw [hst'.latest_num, ← hn]
  exact h1.trans (hb.2 hn sid)

end State

/-! ### The invariant -/

/-- Along the log of every group configurations come in order, and every proposed one
is a configuration of the controller. -/
structure InOrder (cs : Configs) (w : World) : Prop where
  last : ∀ g, (w.past g).getLast? = some (w.state g)
  consumed : ∀ g, ∀ st ∈ w.past g, st.Consumed cs
  sorted : ∀ g, (w.past g).Pairwise State.Before
  tickers : ∀ t ∈ w.tickers, ∀ c ∈ t.newConfig, ∃ n, c = cs.config n
  proposed : ∀ x ∈ w.proposed, ∃ n, x.2 = cs.config n

namespace InOrder

variable {w w' : World} {e : Event}

theorem state_mem (h : InOrder cs w) (g : Gid) : w.state g ∈ w.past g :=
  List.mem_of_getLast? (h.last g)

theorem state_consumed (h : InOrder cs w) (g : Gid) : (w.state g).Consumed cs :=
  h.consumed g _ (h.state_mem g)

theorem before_state (h : InOrder cs w) {g : Gid} {st : State} (hst : st ∈ w.past g) :
    State.Before st (w.state g) := by
  obtain ⟨l, hl⟩ := List.getLast?_eq_some_iff.mp (h.last g)
  have hs := h.sorted g
  rw [hl] at hst hs
  rcases List.mem_append.mp hst with hm | hm
  · exact (List.pairwise_append.mp hs).2.2 st hm _ (List.mem_singleton.mpr rfl)
  · rw [List.mem_singleton.mp hm]
    exact .refl

/-- A later position holds a later state. -/
theorem before_of_le (h : InOrder cs w) {g : Gid} {p q : Nat} {st st' : State} (hpq : p ≤ q)
    (hp : (w.past g)[p]? = some st) (hq : (w.past g)[q]? = some st') : State.Before st st' := by
  rcases Nat.eq_or_lt_of_le hpq with rfl | hlt
  · rw [Option.some.inj (hp.symm.trans hq)]
    exact .refl
  · obtain ⟨hpl, rfl⟩ := List.getElem?_eq_some_iff.mp hp
    obtain ⟨hql, rfl⟩ := List.getElem?_eq_some_iff.mp hq
    exact List.pairwise_iff_getElem.mp (h.sorted g) p q hpl hql hlt

/-- A proposal that fits is the next configuration. -/
theorem known_of_proposed (h : InOrder cs w) {g : Gid} {c : Config} (hx : (g, c) ∈ w.proposed)
    (hc : c.num = (w.state g).latestConfig.num + 1) : c = cs.known ((w.state g).num + 1) := by
  obtain ⟨n, hn⟩ := h.proposed _ hx
  dsimp only at hn
  rw [hn, cs.num_eq, (h.state_consumed g).latest_num] at hc
  rw [hn, Configs.known_succ]
  congr 1
  omega

theorem init : InOrder cs World.init where
  last _ := rfl
  consumed g st hst := by
    rw [List.mem_singleton.mp hst]
    exact State.Consumed.makeState
  sorted _ := List.pairwise_singleton ..
  tickers t ht := absurd ht List.not_mem_nil
  proposed x hx := absurd hx List.not_mem_nil

theorem setState (h : InOrder cs w) {g : Gid} {st : State} (hc : st.Consumed cs)
    (hb : State.Before (w.state g) st) : InOrder cs (w.setState g st) := by
  have hpast : (w.setState g st).past g = w.past g ++ [st] := by
    simp only [World.setState, Function.update_self]
  refine ⟨?_, ?_, ?_, h.tickers, h.proposed⟩
  · intro g'
    by_cases hg : g' = g
    · subst hg
      rw [hpast, List.getLast?_concat]
      simp only [World.setState, Function.update_self]
    · simp only [World.setState, Function.update_of_ne hg]
      exact h.last g'
  · intro g' st' hst'
    by_cases hg : g' = g
    · subst hg
      rw [hpast] at hst'
      rcases List.mem_append.mp hst' with hm | hm
      · exact h.consumed g' st' hm
      · rw [List.mem_singleton.mp hm]
        exact hc
    · simp only [World.setState, Function.update_of_ne hg] at hst'
      exact h.consumed g' st' hst'
  · intro g'
    by_cases hg : g' = g
    · subst hg
      rw [hpast, List.pairwise_append]
      refine ⟨h.sorted g', List.pairwise_singleton .., ?_⟩
      intro a ha b hb'
      rw [List.mem_singleton.mp hb']
      exact (h.before_state ha).trans hb
    · simp only [World.setState, Function.update_of_ne hg]
      exact h.sorted g'

/-- **A step keeps the configurations in order.** -/
theorem move (h : InOrder cs w) (hm : World.Move cs w e w') : InOrder cs w' := by
  cases hm with
  | check hst hup =>
    refine ⟨h.last, h.consumed, h.sorted, ?_, h.proposed⟩
    intro t ht
    rcases List.mem_append.mp ht with ht | ht
    · exact h.tickers t ht
    · rw [List.mem_singleton.mp ht]
      intro c hc
      exact absurd hc (by simp)
  | query ht hst hp hn =>
    refine ⟨h.last, h.consumed, h.sorted, ?_, h.proposed⟩
    intro t' ht' c hc
    rcases List.mem_or_eq_of_mem_set ht' with ht' | rfl
    · exact h.tickers t' ht' c hc
    · exact ⟨_, (Option.some.inj hc).symm⟩
  | propose ht hc hst hp hn =>
    refine ⟨h.last, h.consumed, h.sorted, h.tickers, ?_⟩
    intro x hx
    rcases List.mem_append.mp hx with hx | hx
    · exact h.proposed x hx
    · rw [List.mem_singleton.mp hx]
      exact h.tickers _ (List.mem_of_getElem? ht) _ hc
  | install hc =>
    obtain ⟨n, hn⟩ := h.proposed _ (List.mem_of_getElem? hc)
    exact h.setState (State.consumed_install (h.state_consumed _) hn)
      (State.before_install (h.state_consumed _))
  | request hst hst' hp hl ha => exact ⟨h.last, h.consumed, h.sorted, h.tickers, h.proposed⟩
  | answer hq hst hr => exact ⟨h.last, h.consumed, h.sorted, h.tickers, h.proposed⟩
  | acquire ha =>
    exact h.setState ((h.state_consumed _).congr State.acquire_latestConfig
      State.acquire_allConfigs) State.before_acquire
  | call hc => exact ⟨h.last, h.consumed, h.sorted, h.tickers, h.proposed⟩
  | apply hreq ha =>
    obtain ⟨hl, hall, -⟩ := State.applyClientOp_frame ha
    have hs := h.setState ((h.state_consumed _).congr hl hall) (State.before_applyClientOp ha)
    exact ⟨hs.last, hs.consumed, hs.sorted, hs.tickers, hs.proposed⟩
  | returns hc hr hq hg => exact ⟨h.last, h.consumed, h.sorted, h.tickers, h.proposed⟩

end InOrder

/-- The runs of the groups whose steps all meet `ok`. -/
abbrev Run (cs : Configs) (ok : World → Event → Prop) : List World → Prop :=
  Trace (World.step cs) ok World.init

/-- **Configurations come in order in every state of every run.** -/
theorem inOrder_run {ok : World → Event → Prop} {tr : List World} (h : Run cs ok tr) :
    ∀ w ∈ tr, InOrder cs w :=
  Trace.invariant InOrder.init (fun _ _ _ hw _ hs => hw.move (World.move_of_step hs)) tr h

end ShardRaft.ShardKV
