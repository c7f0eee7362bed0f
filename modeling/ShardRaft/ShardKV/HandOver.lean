import ShardRaft.ShardKV.InOrder

/-!
# No configuration is left before its shards have arrived

`shardConfigTicker` looks whether all shards are up to date, and only then asks for the
next configuration.  But it reads `LatestConfig.Num` again, without the lock, to know
which one is the next.  If an `InstallShardConfig` entry is applied in between, the
number is that of a configuration whose shards nobody has looked at
(`left_too_early`).

As long as the ticker asks under the number it has checked (`AsksChecked`), the guard
works although it is made when the entry is proposed and not when it is applied: a
proposal stands for a state of the group that was up to date (`Guarded`), and shards
that are up to date stay so while the number stays.
-/

namespace ShardRaft.ShardKV

open ShardRaft.Lib
open ShardRaft.Ctrler (Config NShards Groups)

variable {cs : Configs} {w w' : World} {e : Event}

/-- When the ticker asks the controller, the replica is still under the number for which
it has found all shards up to date. -/
def World.AsksChecked (w : World) : Event → Prop
  | .query k p _ => ∀ t ∈ w.tickers[k]?, ∀ st ∈ (w.past t.gid)[t.checked]?,
      ∀ st' ∈ (w.past t.gid)[p]?, st'.latestConfig.num = st.latestConfig.num
  | _ => True

instance (w : World) : DecidablePred w.AsksChecked
  | .query k p _ => inferInstanceAs (Decidable (∀ t ∈ w.tickers[k]?,
      ∀ st ∈ (w.past t.gid)[t.checked]?, ∀ st' ∈ (w.past t.gid)[p]?,
        st'.latestConfig.num = st.latestConfig.num))
  | .check .. | .propose .. | .install .. | .request .. | .answer .. | .acquire .. | .call .. |
    .apply .. | .returns .. => .isTrue trivial

/-- Every ticker has seen an up-to-date state, and every proposal stands for one. -/
structure Guarded (w : World) : Prop where
  tickers : ∀ t ∈ w.tickers, t.checked ≤ t.position ∧ ∃ st, (w.past t.gid)[t.checked]? = some st ∧
    st.allShardsUpToDate t.gid = true ∧ ∀ c ∈ t.newConfig, c.num ≤ st.latestConfig.num + 1
  proposed : ∀ x ∈ w.proposed, ∃ st ∈ w.past x.1, st.allShardsUpToDate x.1 = true ∧
    x.2.num = st.latestConfig.num + 1

theorem getElem?_setState_past {g g' : Gid} {st st' : State} {p : Nat}
    (h : (w.past g)[p]? = some st) : ((w.setState g' st').past g)[p]? = some st := by
  by_cases hg : g = g'
  · subst hg
    simp only [World.setState, Function.update_self]
    exact (List.getElem?_append_left (List.getElem?_eq_some_iff.mp h).1).trans h
  · simp only [World.setState, Function.update_of_ne hg]
    exact h

theorem mem_setState_past {g g' : Gid} {st st' : State} (h : st ∈ w.past g) :
    st ∈ (w.setState g' st').past g := by
  obtain ⟨p, hp⟩ := List.mem_iff_getElem?.mp h
  exact List.mem_of_getElem? (getElem?_setState_past hp)

namespace Guarded

theorem init : Guarded World.init :=
  ⟨fun _ ht => absurd ht List.not_mem_nil, fun _ hx => absurd hx List.not_mem_nil⟩

theorem setState (h : Guarded w) (g : Gid) (st : State) : Guarded (w.setState g st) := by
  constructor
  · intro t ht
    obtain ⟨hle, st', hst', hup⟩ := h.tickers t ht
    exact ⟨hle, st', getElem?_setState_past hst', hup⟩
  · intro x hx
    obtain ⟨st', hst', hup⟩ := h.proposed x hx
    exact ⟨st', mem_setState_past hst', hup⟩

/-- **A step keeps every proposal backed by a state that was up to date.** -/
theorem move (ho : InOrder cs w) (h : Guarded w) (hok : w.AsksChecked e)
    (hm : World.Move cs w e w') : Guarded w' := by
  cases hm with
  | check hst hup =>
    refine ⟨?_, h.proposed⟩
    intro t ht
    rcases List.mem_append.mp ht with ht | ht
    · exact h.tickers t ht
    · rw [List.mem_singleton.mp ht]
      exact ⟨le_rfl, _, hst, hup, fun c hc => absurd hc (by simp)⟩
  | query ht hst hp hn =>
    refine ⟨?_, h.proposed⟩
    intro t' ht'
    rcases List.mem_or_eq_of_mem_set ht' with ht' | rfl
    · exact h.tickers t' ht'
    · obtain ⟨hle, st, hc, hup, -⟩ := h.tickers _ (List.mem_of_getElem? ht)
      refine ⟨hle.trans hp, st, hc, hup, ?_⟩
      intro c hc'
      rw [← Option.some.inj hc', cs.num_eq, ← hok _ ht st hc _ hst]
      exact hn
  | propose ht hc hst hp hn =>
    refine ⟨h.tickers, ?_⟩
    intro x hx
    rcases List.mem_append.mp hx with hx | hx
    · exact h.proposed x hx
    · obtain ⟨hle, st, hch, hup, hnum⟩ := h.tickers _ (List.mem_of_getElem? ht)
      rw [List.mem_singleton.mp hx]
      refine ⟨st, List.mem_of_getElem? hch, hup, ?_⟩
      -- the number cannot have moved between the check and the second read
      have hb := (ho.before_of_le (hle.trans hp) hch hst).1
      have h1 := (ho.consumed _ st (List.mem_of_getElem? hch)).latest_num
      have h2 := (ho.consumed _ _ (List.mem_of_getElem? hst)).latest_num
      have h3 := hnum _ hc
      dsimp only
      omega
  | install hc => exact h.setState _ _
  | request hst hst' hp hl ha => exact ⟨h.tickers, h.proposed⟩
  | answer hq hst hr => exact ⟨h.tickers, h.proposed⟩
  | acquire ha => exact h.setState _ _
  | call hc => exact ⟨h.tickers, h.proposed⟩
  | apply hreq ha =>
    exact ⟨(h.setState _ _).tickers, (h.setState _ _).proposed⟩
  | returns hc hr hq hg => exact ⟨h.tickers, h.proposed⟩

end Guarded

theorem guarded_run {ok : World → Event → Prop} (hok : ∀ w e, ok w e → w.AsksChecked e)
    {tr : List World} (h : Run cs ok tr) : ∀ w ∈ tr, InOrder cs w ∧ Guarded w :=
  Trace.invariant ⟨InOrder.init, Guarded.init⟩ (fun w _ e hw ho hs =>
    ⟨hw.1.move (World.move_of_step hs),
      hw.2.move hw.1 (hok w e ho) (World.move_of_step hs)⟩) tr h

theorem upToDate_of_proposed (ho : InOrder cs w) (hg : Guarded w) {g : Gid} {c : Config}
    (hx : (g, c) ∈ w.proposed) (hc : c.num = (w.state g).latestConfig.num + 1) :
    (w.state g).allShardsUpToDate g = true := by
  obtain ⟨st, hst, hup, hn⟩ := hg.proposed _ hx
  dsimp only at hn
  have hcon := ho.consumed g st hst
  have hn' : st.num = (w.state g).num := by
    have h1 := hcon.latest_num
    have h2 := (ho.state_consumed g).latest_num
    omega
  exact State.allShardsUpToDate_before hcon (ho.state_consumed g) (ho.before_state hst) hn' hup

/-- Only an `InstallShardConfig` entry with the next number moves `LatestConfig`. -/
theorem proposed_of_moved (hm : World.Move cs w e w') {g : Gid}
    (hne : (w'.state g).latestConfig ≠ (w.state g).latestConfig) :
    ∃ c, (g, c) ∈ w.proposed ∧ c.num = (w.state g).latestConfig.num + 1 := by
  have hset : ∀ {g' : Gid} {st : State}, ((w.setState g' st).state g).latestConfig ≠
      (w.state g).latestConfig → g = g' ∧ st.latestConfig ≠ (w.state g').latestConfig := by
    intro g' st h
    by_cases hg : g = g'
    · subst hg
      simp only [World.setState, Function.update_self] at h
      exact ⟨rfl, h⟩
    · simp only [World.setState, Function.update_of_ne hg] at h
      exact absurd rfl h
  cases hm with
  | check hst hup => exact absurd rfl hne
  | query ht hst hp hn => exact absurd rfl hne
  | propose ht hc hst hp hn => exact absurd rfl hne
  | install hc =>
    obtain ⟨rfl, h⟩ := hset hne
    refine ⟨_, List.mem_of_getElem? hc, ?_⟩
    by_contra hn
    rw [State.install_of_ne hn] at h
    exact h rfl
  | request hst hst' hp hl ha => exact absurd rfl hne
  | answer hq hst hr => exact absurd rfl hne
  | acquire ha =>
    obtain ⟨-, h⟩ := hset hne
    exact absurd State.acquire_latestConfig h
  | call hc => exact absurd rfl hne
  | apply hreq ha =>
    obtain ⟨-, h⟩ := hset hne
    exact absurd (State.applyClientOp_frame ha).1 h
  | returns hc hr hq hg => exact absurd rfl hne

/-- Whenever a step moves a group to the next configuration, the group has the data of
every shard it owns under the old one. -/
def World.LeftInTime (cs : Configs) (w : World) : Prop :=
  ∀ e w', w.step cs e = some w' → ∀ g : Gid, 1 ≤ (w.state g).latestConfig.num →
    (w'.state g).latestConfig.num = (w.state g).latestConfig.num + 1 →
      ∀ sid, (w.state g).latestConfig.shards sid = g →
        (w.state g).latestConfig.num ≤ (w.state g).shardTimestamp sid

/-- **In a run in which every ticker asks under the number it has checked, no group
leaves a configuration before its shards have arrived.** -/
theorem handover_guard (cs : Configs) (w : World) (past : List World)
    (h : Run cs World.AsksChecked (w :: past)) : w.LeftInTime cs := by
  obtain ⟨ho, hg⟩ := guarded_run (fun _ _ hok => hok) h w (List.mem_cons_self ..)
  intro e w' hs g _ hn
  have hne : (w'.state g).latestConfig ≠ (w.state g).latestConfig := by
    intro heq
    rw [heq] at hn
    omega
  obtain ⟨c, hx, hc⟩ := proposed_of_moved (World.move_of_step hs) hne
  exact State.allShardsUpToDate_iff.mp (upToDate_of_proposed ho hg hx hc)

/-! ### Runs -/

/-- Configurations that give every shard to one group. -/
def oneOwner (owners : List Int) : Configs where
  config n := ⟨n, fun _ => (owners[n]?).getD (owners.getLastD 0),
    Groups.ofList [(1, ["a"]), (2, ["b"]), (3, ["c"])]⟩
  num_eq _ := rfl

/-- Groups for the runs below. -/
def gid (n : Nat) : Gid := ⟨n + 1, by omega⟩

/-- `g` at position `p` goes through one round of `shardConfigTicker` undisturbed; `k`
tickers and `k` proposals are there already. -/
def round (g : Gid) (p k num : Nat) : List Event :=
  [.check g p, .query k p num, .propose k p, .install k]

/-- Group 1 goes from configuration 1, where it owns everything, to 2. -/
def sampleRounds : List Event := round (gid 0) 0 0 1 ++ [.check (gid 0) 1, .query 1 1 2, .propose 1 1]

theorem sampleRounds_ends : runEnds (World.step (oneOwner [0, 1, 1])) World.AsksChecked
    World.init sampleRounds (fun w _ => decide ((w.state (gid 0)).latestConfig.num = 1 ∧
      (w.step (oneOwner [0, 1, 1]) (.install 1)).any
        (fun w' => (w'.state (gid 0)).latestConfig.num = 2))) = true := by
  decide +kernel

theorem handover_guard_sampleRounds : ∃ w : World, (w.state (gid 0)).latestConfig.num = 1 ∧
    ((w.step (oneOwner [0, 1, 1]) (.install 1)).any
      (fun w' => (w'.state (gid 0)).latestConfig.num = 2)) = true ∧
    w.LeftInTime (oneOwner [0, 1, 1]) := by
  obtain ⟨w, past, -, ht, hp⟩ := exists_of_runEnds sampleRounds_ends
  obtain ⟨h1, h2⟩ := of_decide_eq_true hp
  exact ⟨w, h1, h2, handover_guard _ w past ht⟩

/-- Group 2 is given everything by configuration 2.  A second round of its ticker looks
at the shards under 1, and reads the number when 2 is installed. -/
def leftTooEarlyRun : List Event :=
  round (gid 1) 0 0 1 ++ [.check (gid 1) 1, .query 1 1 2, .propose 1 1, .check (gid 1) 1,
    .install 1, .query 2 2 3, .propose 2 2]

theorem leftTooEarlyRun_ends : runEnds (World.step (oneOwner [0, 1, 2, 2])) (fun _ _ => True)
    World.init leftTooEarlyRun (fun w _ => decide ((w.state (gid 1)).latestConfig.num = 2 ∧
      (w.state (gid 1)).latestConfig.shards ⟨0, by decide⟩ = gid 1 ∧
      (w.state (gid 1)).shardTimestamp ⟨0, by decide⟩ = 0 ∧
      (w.step (oneOwner [0, 1, 2, 2]) (.install 2)).any
        (fun w' => (w'.state (gid 1)).latestConfig.num = 3))) = true := by
  decide +kernel

/-- A group may leave a configuration before its shards have arrived. -/
theorem left_too_early : ¬ ∀ (cs : Configs) (w : World) (past : List World),
    Run cs (fun _ _ => True) (w :: past) → w.LeftInTime cs := by
  intro h
  obtain ⟨w, past, -, ht, hp⟩ := exists_of_runEnds leftTooEarlyRun_ends
  obtain ⟨hn, hs, hts, hstep⟩ := of_decide_eq_true hp
  obtain ⟨w', hw', hn'⟩ := (Option.any_eq_true ..).mp hstep
  have hle := h _ w past ht _ w' hw' (gid 1) (by rw [hn]; decide)
    (by rw [hn, of_decide_eq_true hn']; rfl) _ hs
  rw [hn, hts] at hle
  exact absurd hle (by decide)

end ShardRaft.ShardKV
