import ShardRaft.Ctrler.History

/-!
# Which shards a rebalancing moves

`redistributeShards` knows nothing of old and new groups: each turn takes a shard of the
first largest group and gives it to the first smallest one.  That no old group receives a
shard after a join rests on the counts alone.  `Ahead` is the invariant: no group has more
than `top` shards, and the old groups all have at least `top - 1`.  A turn only happens
when the smallest group is two below the largest, so the receiver is a new group.
-/

namespace ShardRaft.Ctrler

namespace Config

/-- The groups of `old` are within one of the largest group. -/
def Ahead (old : Groups) (config : Config) : Prop :=
  ∃ top, (∀ g ∈ config.groups, config.count g ≤ top) ∧ ∀ g ∈ old, top ≤ config.count g + 1

/-- The shards of `config` are where they were in `latest`, or at a group outside `old`. -/
def OnlyToNew (old : Groups) (latest config : Config) : Prop :=
  ∀ sid, config.shards sid = latest.shards sid ∨
    (config.shards sid ∈ config.groups ∧ config.shards sid ∉ old)

section Turn

variable {old : Groups} {latest config : Config}

/-- While the loop goes on, its smallest group is a new one. -/
theorem minGroup_notMem_old (hahead : config.Ahead old)
    (hgap : config.getMinMaxGroup.max - config.getMinMaxGroup.min > 1) :
    config.getMinMaxGroup.minGroup ∉ old := by
  intro hold
  obtain ⟨top, htop, hge⟩ := hahead
  obtain ⟨⟨ha, hca⟩, -, hcb⟩ := minMaxGroup_of_gap hgap
  have h1 := htop _ ha
  have h2 := hge _ hold
  omega

/-- A turn keeps the old groups within one of the largest, whichever group gives. -/
theorem ahead_moveShard (hahead : config.Ahead old)
    (hgap : config.getMinMaxGroup.max - config.getMinMaxGroup.min > 1) :
    (config.moveShard config.getMinMaxGroup.maxGroup config.getMinMaxGroup.minGroup).Ahead old := by
  have hnew := minGroup_notMem_old hahead hgap
  have hm := config.getMinMaxGroup_of
  obtain ⟨⟨ha, hca⟩, hb, hcb⟩ := minMaxGroup_of_gap hgap
  generalize hA : config.getMinMaxGroup.maxGroup = a at *
  generalize hB : config.getMinMaxGroup.minGroup = b at *
  obtain ⟨top, htop, hge⟩ := hahead
  obtain ⟨k, hk, he⟩ := exists_moveShard (b := b) (show 0 < config.count a by omega)
  have hcount := config.count_update k b
  rw [← he, hk] at hcount
  have hgroups : (config.moveShard a b).groups = config.groups := by rw [he]
  -- the bound goes down to the largest count of this turn
  refine ⟨config.count a, ?_, ?_⟩
  · intro g hg
    rw [hgroups] at hg
    have hle := hm.le_max g (mem_getSortedKeys.mpr hg)
    have hg' := hcount g
    by_cases hgb : b = g
    · subst hgb
      split at hg' <;> simp only [if_true] at hg' <;> omega
    · rw [if_neg hgb] at hg'
      omega
  · intro g hg
    have hle := htop a ha
    have hg' := hcount g
    have hold := hge g hg
    rw [if_neg (show b ≠ g from fun h => hnew (h ▸ hg))] at hg'
    by_cases hga : a = g
    · subst hga
      rw [if_pos rfl] at hg'
      omega
    · rw [if_neg hga] at hg'
      omega

/-- What the loop keeps, when it started at `latest`. -/
structure Spares (old : Groups) (latest config : Config) : Prop where
  groups : config.groups = latest.groups
  ahead : config.Ahead old
  onlyToNew : OnlyToNew old latest config

theorem Spares.turn (h : Spares old latest config)
    (hgap : config.getMinMaxGroup.max - config.getMinMaxGroup.min > 1) :
    Spares old latest
      (config.moveShard config.getMinMaxGroup.maxGroup config.getMinMaxGroup.minGroup) := by
  have hnew := minGroup_notMem_old h.ahead hgap
  obtain ⟨⟨ha, hca⟩, hb, hcb⟩ := minMaxGroup_of_gap hgap
  have hahead := ahead_moveShard h.ahead hgap
  obtain ⟨k, -, he⟩ := exists_moveShard (b := config.getMinMaxGroup.minGroup)
    (show 0 < config.count config.getMinMaxGroup.maxGroup by omega)
  rw [he] at hahead ⊢
  refine ⟨h.groups, hahead, fun sid => ?_⟩
  by_cases hs : sid = k
  · subst hs
    simp only [Function.update_self]
    exact .inr ⟨hb, hnew⟩
  · simp only [Function.update_of_ne hs]
    exact h.onlyToNew sid

end Turn

/-- **No old group receives a shard**, if the old groups start within one of the largest. -/
theorem redistribute_spares {old : Groups} {config config' : Config} (hahead : config.Ahead old)
    (hrun : config.redistribute = some config') : Spares old config config' := by
  have hstart : Spares old config config := ⟨rfl, hahead, fun _ => .inl rfl⟩
  unfold redistribute at hrun
  by_cases hcard : config.groups.keys.card > 1
  · rw [if_pos hcard] at hrun
    exact redistributeLoop_invariant (fun _ h hgap => h.turn hgap) hrun hstart
  · rw [if_neg hcard] at hrun
    rw [← Option.some.inj hrun]
    exact hstart

/-! ## Join -/

section Join

variable {latest : Config} {servers : Groups}

theorem mem_joinGroups {g : Int} :
    g ∈ (latest.joinGroups servers).groups ↔ g ∈ servers ∨ g ∈ latest.groups :=
  Finmap.mem_union

theorem assignVoidShards_joinGroups (hpos : ∀ g ∈ latest.groups, 0 < g)
    (hmember : ∀ sid, latest.shards sid ∈ latest.groups) :
    (latest.joinGroups servers).assignVoidShards.shards = latest.shards := by
  funext sid
  have hg : latest.shards sid ∈ (latest.joinGroups servers).groups :=
    mem_joinGroups.mpr (.inr (hmember sid))
  rcases assignVoidShards_shards hg sid with ⟨hvoid, -⟩ | ⟨-, h⟩
  · exact absurd hvoid (not_le.mpr (hpos _ (hmember sid)))
  · exact h

/-- A group that joins has no shards yet, so the old groups are ahead of all. -/
theorem ahead_joinGroups (hpos : ∀ g ∈ latest.groups, 0 < g)
    (hmember : ∀ sid, latest.shards sid ∈ latest.groups) (hbal : latest.Balanced) :
    (latest.joinGroups servers).assignVoidShards.Ahead latest.groups := by
  have hcount : ∀ g, (latest.joinGroups servers).assignVoidShards.count g = latest.count g := by
    intro g
    rw [count, assignVoidShards_joinGroups hpos hmember]
    rfl
  obtain ⟨g₀, hg₀, hmax⟩ := latest.groups.keys.exists_max_image latest.count
    ⟨_, Finmap.mem_keys.mpr (hmember ⟨0, NShards_pos⟩)⟩
  refine ⟨latest.count g₀, fun g _ => ?_, fun g hg => ?_⟩
  · rw [hcount]
    by_cases hg : g ∈ latest.groups
    · exact hmax g (Finmap.mem_keys.mpr hg)
    · have hzero : latest.count g = 0 :=
        List.countP_eq_zero.mpr fun sid _ h => hg (of_decide_eq_true h ▸ hmember sid)
      omega
  · rw [hcount]
    exact hbal g₀ (Finmap.mem_keys.mp hg₀) g hg

end Join

end Config

open Config

/-- **A join moves as little as possible.**  In the configuration that `handleJoin` appends,
a shard has its old owner or is at a group that was not a member before. -/
theorem handleJoin_onlyToNew {st : State} {latest : Config}
    (hlatest : st.getLatestConfig = some latest) (hpos : ∀ g ∈ latest.groups, 0 < g)
    (hshards : ((∀ sid, latest.shards sid ∈ latest.groups) ∧ latest.Balanced) ∨
      (latest.groups = ∅ ∧ ∀ sid, latest.shards sid = 0))
    (servers : Groups) (hne : servers ≠ ∅) :
    ∃ config, st.handleJoin servers = some (st.appendConfig config) ∧
      (∀ sid, config.shards sid ≠ latest.shards sid →
        config.shards sid ∈ servers ∧ config.shards sid ∉ latest.groups) ∧
      ∀ sid, latest.shards sid ∈ latest.groups → config.shards sid ∈ latest.groups →
        config.shards sid = latest.shards sid := by
  suffices h : ∃ config, (latest.joinGroups servers).assignVoidShards.redistribute = some config ∧
      ∀ sid, config.shards sid ≠ latest.shards sid →
        config.shards sid ∈ servers ∧ config.shards sid ∉ latest.groups by
    obtain ⟨config, he, hmoves⟩ := h
    refine ⟨config, ?_, hmoves, fun sid _ hin => ?_⟩
    · rw [State.handleJoin_eq hlatest, he, Option.map_some]
    · by_contra hmoved
      exact (hmoves sid hmoved).2 hin
  rcases hshards with ⟨hmember, hbal⟩ | ⟨hempty, hzero⟩
  · obtain ⟨config, he, -, -⟩ := (latest.joinGroups servers).assignVoidShards.redistribute_spec
    have hspares := redistribute_spares (ahead_joinGroups hpos hmember hbal) he
    refine ⟨config, he, fun sid hmoved => ?_⟩
    rcases hspares.onlyToNew sid with hsame | ⟨hin, hnew⟩
    · rw [assignVoidShards_joinGroups hpos hmember] at hsame
      exact absurd hsame hmoved
    · rw [hspares.groups, assignVoidShards_groups] at hin
      exact ⟨(mem_joinGroups.mp hin).resolve_right hnew, hnew⟩
  · -- the first join: every shard was void, and every group is new
    obtain ⟨g, hg⟩ := exists_mem_of_ne_empty hne
    obtain ⟨config, he, hgroups, -, hin, -⟩ :=
      assignVoidShards_redistribute (latest.joinGroups servers)
        (fun h => Finmap.notMem_empty (h ▸ mem_joinGroups.mpr (.inl hg)))
        fun sid => .inl (hzero sid).le
    refine ⟨config, he, fun sid _ => ?_⟩
    have hsid := hin sid
    have hnone : config.shards sid ∉ latest.groups := by
      rw [hempty]
      exact Finmap.notMem_empty
    rw [hgroups, mem_joinGroups] at hsid
    exact ⟨hsid.resolve_right hnone, hnone⟩

/-- Two members with five shards each. -/
def twoGroups : Config where
  num := 1
  shards k := if k.val < 5 then 1 else 2
  groups := Groups.ofList [(1, ["a"]), (2, ["b"])]

theorem twoGroups_join :
    ∃ config, State.handleJoin ⟨[twoGroups], fun _ => none⟩ (Groups.ofList [(3, ["c"]), (4, [])]) =
        some (State.appendConfig ⟨[twoGroups], fun _ => none⟩ config) ∧
      (∀ sid, config.shards sid ≠ twoGroups.shards sid →
        config.shards sid ∈ Groups.ofList [(3, ["c"]), (4, [])] ∧
          config.shards sid ∉ twoGroups.groups) ∧
      ∀ sid, twoGroups.shards sid ∈ twoGroups.groups → config.shards sid ∈ twoGroups.groups →
        config.shards sid = twoGroups.shards sid := by
  have hpos : ∀ g ∈ twoGroups.groups.keys, 0 < g := by decide
  have hbal : ∀ g ∈ twoGroups.groups.keys, ∀ g' ∈ twoGroups.groups.keys,
      twoGroups.count g ≤ twoGroups.count g' + 1 := by decide
  exact handleJoin_onlyToNew rfl (fun g hg => hpos g (Finmap.mem_keys.mpr hg))
    (.inl ⟨by decide, fun g hg g' hg' =>
      hbal g (Finmap.mem_keys.mpr hg) g' (Finmap.mem_keys.mpr hg')⟩) _ (by decide)

end ShardRaft.Ctrler
