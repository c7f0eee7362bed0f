import ShardRaft.Ctrler.History

/-!
# Does every shard belong to a listed group?

`assignVoidShards` repairs only shards at a gid that is not positive, and
`redistributeShards` counts only listed groups, so a shard that `handleMove` has given to
a group that is not listed stays there through every later `Join` and `Leave`
(`shard_without_group`).  As long as every `Move` names a listed group, every
configuration made by a `Join` or a `Leave` gives each shard to a listed group, if there is
one (`shards_in_live_groups`).  If in addition no `Join` or `Leave` leaves the
configuration without a group, every configuration after the first does
(`Controller.live_run`).
-/

namespace ShardRaft.Ctrler

open ShardRaft.Lib

namespace Config

/-- Every shard is with a listed group. -/
def Live (config : Config) : Prop := ∀ sid, config.shards sid ∈ config.groups

instance (config : Config) : Decidable config.Live :=
  inferInstanceAs (Decidable (∀ sid, config.shards sid ∈ config.groups))

/-- Every shard is void or with a listed group. -/
def Listed (config : Config) : Prop :=
  ∀ sid, config.shards sid ≤ 0 ∨ config.shards sid ∈ config.groups

theorem Live.listed {config : Config} (h : config.Live) : config.Listed := fun sid => .inr (h sid)

theorem exists_mem_of_ne_empty {groups : Groups} (h : groups ≠ ∅) : ∃ g, g ∈ groups := by
  by_contra hno
  refine h (Finmap.ext_lookup fun g => ?_)
  rw [Finmap.lookup_empty]
  exact Finmap.lookup_eq_none.mpr fun hg => hno ⟨g, hg⟩

section Kept

variable {latest config : Config} {op : Op}

theorem Moved.live (h : Moved latest config) (hl : latest.Live) : config.Live := by
  intro sid
  rw [h.groups]
  rcases h.shards sid with he | he
  · rw [he]
    exact hl sid
  · exact he.2

theorem Moved.listed (h : Moved latest config) (hl : latest.Listed) : config.Listed := by
  intro sid
  rw [h.groups]
  rcases h.shards sid with he | he
  · rw [he]
    exact hl sid
  · exact .inr he.2

/-- Assigning and redistributing bring every shard to a listed group, if there is one. -/
theorem Moved.rebalanced (h : Moved latest.assignVoidShards config) (hl : latest.Listed) :
    config.Listed ∧ (config.groups ≠ ∅ → config.Live) := by
  by_cases he : latest.groups = ∅
  · rw [assignVoidShards_of_empty he] at h
    exact ⟨h.listed hl, fun hne => absurd (h.groups.trans he) hne⟩
  · obtain ⟨g, hg⟩ := exists_mem_of_ne_empty he
    have hlive : latest.assignVoidShards.Live := by
      intro sid
      rw [assignVoidShards_groups]
      rcases assignVoidShards_shards hg sid with ⟨-, hs⟩ | ⟨hpos, hs⟩
      · exact hs
      · rw [hs]
        exact (hl sid).resolve_left (not_le.mpr hpos)
    exact ⟨(h.live hlive).listed, fun _ => h.live hlive⟩

theorem Listed.joinGroups (h : latest.Listed) (servers : Groups) :
    (latest.joinGroups servers).Listed :=
  fun sid => (h sid).imp_right fun hm => Finmap.mem_union.mpr (.inr hm)

theorem Listed.leaveGroups (h : latest.Listed) (gids : List Int) :
    (latest.leaveGroups gids).Listed := by
  intro sid
  simp only [Config.leaveGroups]
  by_cases hc : contains gids (latest.shards sid) = true
  · rw [if_pos hc]
    exact .inl (le_refl 0)
  · rw [if_neg hc]
    exact (h sid).imp_right fun hm =>
      (mem_foldl_erase gids latest.groups).mpr ⟨hm, fun hg => hc (contains_iff.mpr hg)⟩

theorem Next.of_move (h : latest.Next op config) (htype : op.type = .move) :
    config.groups = latest.groups ∧
      ∀ sid, config.shards sid = op.gid ∨ config.shards sid = latest.shards sid := by
  cases h with
  | join ht => rw [ht] at htype; exact absurd htype (by decide)
  | leave ht => rw [ht] at htype; exact absurd htype (by decide)
  | move _ sid _ h =>
    subst h
    refine ⟨rfl, fun sid' => ?_⟩
    by_cases hs : sid' = sid
    · subst hs
      exact .inl (Function.update_self ..)
    · exact .inr (Function.update_of_ne hs ..)

/-- **What an operation keeps**, if a `Move` names a listed group. -/
theorem Next.listed (h : latest.Next op config) (hl : latest.Listed)
    (hmove : op.type = .move → op.gid ∈ latest.groups) :
    config.Listed ∧ (op.type ≠ .move → config.groups ≠ ∅ → config.Live) := by
  cases h with
  | join _ h =>
    obtain ⟨h1, h2⟩ := h.rebalanced (hl.joinGroups op.servers)
    exact ⟨h1, fun _ => h2⟩
  | leave _ h =>
    obtain ⟨h1, h2⟩ := h.rebalanced (hl.leaveGroups op.gids)
    exact ⟨h1, fun _ => h2⟩
  | move htype sid hsid h =>
    obtain ⟨hgroups, hshards⟩ := (Next.move htype sid hsid h).of_move htype
    refine ⟨?_, fun hne => absurd htype hne⟩
    intro sid'
    rw [hgroups]
    rcases hshards sid' with hs | hs
    · rw [hs]
      exact .inr (hmove htype)
    · rw [hs]
      exact hl sid'

end Kept

end Config

namespace Controller

/-- A `Move` that is not a duplicate names a group of the latest configuration. -/
def MovesToMember (c : Controller) : Action → Prop
  | .apply op _ _ => c.state.changes op = true → op.type = .move →
      ∀ latest ∈ c.state.getLatestConfig, op.gid ∈ latest.groups
  | .restart => True

instance (c : Controller) : DecidablePred c.MovesToMember
  | .apply op _ _ => inferInstanceAs (Decidable (c.state.changes op = true → op.type = .move →
      ∀ latest ∈ c.state.getLatestConfig, op.gid ∈ latest.groups))
  | .restart => .isTrue trivial

/-- Every configuration with groups that a `Join` or a `Leave` has made gives each shard
to one of its groups. -/
def ShardsLive (c : Controller) : Prop :=
  ∀ (i : Nat) (op : Op) (config : Config), c.produced[i]? = some op →
    (op.type = .join ∨ op.type = .leave) → c.state.configs[i + 1]? = some config →
    config.groups ≠ ∅ → config.Live

theorem listed_step {c c' : Controller} {e : Action} (hinv : c.Inv) (hok : c.MovesToMember e)
    (he : c.step e = some c') (hl : ∀ config ∈ c.state.configs, config.Listed) :
    ∀ config ∈ c'.state.configs, config.Listed := by
  cases (inv_step hinv he).2 with
  | same _ hconf => rw [hconf]; exact hl
  | next op _ _ latest config hev hchg hlatest hn hconf =>
    subst hev
    intro config' hc
    rw [hconf] at hc
    rcases List.mem_append.mp hc with hc | hc
    · exact hl config' hc
    · rw [List.mem_singleton.mp hc]
      exact (hn.listed (hl latest (List.mem_of_getElem? hlatest))
        fun ht => hok hchg ht latest hlatest).1

theorem shardsLive_step {c c' : Controller} {e : Action} (hinv : c.Inv) (hok : c.MovesToMember e)
    (he : c.step e = some c') (hl : ∀ config ∈ c.state.configs, config.Listed)
    (hs : c.ShardsLive) : c'.ShardsLive := by
  cases (inv_step hinv he).2 with
  | same _ hconf hprod => rw [ShardsLive, hconf, hprod]; exact hs
  | next op _ _ latest config hev hchg hlatest hn hconf hprod =>
    subst hev
    have hlive := (hn.listed (hl latest (List.mem_of_getElem? hlatest))
      fun ht => hok hchg ht latest hlatest).2
    have hlen := hinv.produced
    intro i op' config' hp htype hget
    rw [hprod] at hp
    rw [hconf] at hget
    rcases getElem?_concat.mp hp with hp | ⟨hi, rfl⟩
    · have hlt := (List.getElem?_eq_some_iff.mp hp).1
      rw [List.getElem?_append_left (by omega)] at hget
      exact hs i op' config' hp htype hget
    · rw [hi, ← hlen, List.getElem?_concat_length] at hget
      rw [← Option.some.inj hget]
      refine hlive fun hm => ?_
      rw [hm] at htype
      exact absurd htype (by decide)

theorem listed_init : ∀ config ∈ init.state.configs, config.Listed := by
  intro config hc
  rw [List.mem_singleton.mp hc]
  exact fun _ => .inl (le_refl 0)

/-- **As long as every `Move` names a listed group, every configuration made by a `Join`
or a `Leave` gives each shard to a listed group.** -/
theorem shards_in_live_groups (c : Controller) (past : List Controller)
    (h : Trace step MovesToMember init (c :: past)) : c.ShardsLive := by
  have hall := Trace.invariant
    (I := fun c => c.Inv ∧ (∀ config ∈ c.state.configs, config.Listed) ∧ c.ShardsLive)
    ⟨inv_init, listed_init, fun i op config hp => absurd hp (by simp [init])⟩
    (fun c c' e hi hok he => ⟨(inv_step hi.1 he).1, listed_step hi.1 hok he hi.2.1,
      shardsLive_step hi.1 hok he hi.2.1 hi.2.2⟩) _ h
  exact (hall c (List.mem_cons_self ..)).2.2

/-- A group joins, a shard is moved to it, and a second group joins. -/
def sampleMoves (gid : Int) : List Action :=
  [.apply ⟨0, 0, .join, Groups.ofList [(1, ["x"])], [], 0, 0, 0, 7, 1⟩ 1 true,
    .apply ⟨0, 0, .move, ∅, [], 0, gid, 0, 7, 2⟩ 2 true,
    .apply ⟨0, 0, .join, Groups.ofList [(2, ["y"])], [], 0, 0, 0, 7, 3⟩ 3 true]

theorem sampleMoves_ends : runEnds step MovesToMember init (sampleMoves 1)
    (fun c _ => decide (c.produced.map Op.type = [.join, .move, .join])) = true := by
  decide +kernel

theorem shards_in_live_groups_sampleMoves : ∃ c : Controller,
    c.produced.map Op.type = [.join, .move, .join] ∧ c.ShardsLive := by
  obtain ⟨c, past, -, ht, hp⟩ := exists_of_runEnds sampleMoves_ends
  exact ⟨c, of_decide_eq_true hp, shards_in_live_groups c past ht⟩

/-- Clients name positive gids and shards that there are. -/
def Positive : Action → Prop
  | .apply op _ _ => (op.type = .join → ∀ g ∈ op.servers.keys, 0 < g) ∧
      (op.type = .move → 0 ≤ op.shard ∧ op.shard < NShards ∧ 0 < op.gid)
  | .restart => True

instance : DecidablePred Positive
  | .apply op _ _ => inferInstanceAs (Decidable ((op.type = .join → ∀ g ∈ op.servers.keys, 0 < g) ∧
      (op.type = .move → 0 ≤ op.shard ∧ op.shard < NShards ∧ 0 < op.gid)))
  | .restart => .isTrue trivial

/-- Shard 0 is moved to group 5, which has never joined. -/
theorem sampleMoves_five_ends : runEnds step (fun _ e => Positive e) init (sampleMoves 5)
    (fun c _ => decide (c.produced.map Op.type = [.join, .move, .join] ∧
      ∃ config ∈ c.state.configs[3]?, config.groups.keys = {1, 2} ∧ config.shards ⟨0, by decide⟩ = 5)) =
      true := by
  decide +kernel

/-- A `Join` need not bring every shard to a listed group. -/
theorem shard_without_group : ¬ ∀ (c : Controller) (past : List Controller),
    Trace step (fun _ e => Positive e) init (c :: past) → c.ShardsLive := by
  intro h
  obtain ⟨c, past, -, ht, hp⟩ := exists_of_runEnds sampleMoves_five_ends
  obtain ⟨htypes, config, hget, hkeys, hs⟩ := of_decide_eq_true hp
  obtain ⟨op, hop, htype⟩ : ∃ op, c.produced[2]? = some op ∧ op.type = .join := by
    have h2 : (c.produced.map Op.type)[2]? = some .join := by rw [htypes]; rfl
    rw [List.getElem?_map] at h2
    exact Option.map_eq_some_iff.mp h2
  have hne : config.groups ≠ ∅ := by
    intro he
    rw [he] at hkeys
    exact absurd hkeys (by decide)
  have hm := Finmap.mem_keys.mpr (h c past ht 2 op config hop (.inl htype) hget hne
    ⟨0, by decide⟩)
  rw [hs, hkeys] at hm
  exact absurd hm (by decide)

/-! ## Configurations that always have a group -/

/-- A `Join` or `Leave` leaves a group, and a `Move` names one of the latest configuration. -/
def KeepsGroup (c : Controller) : Action → Prop
  | .apply op _ _ => c.state.changes op = true → ∀ latest ∈ c.state.getLatestConfig,
      (op.type = .join → op.servers ≠ ∅ ∨ latest.groups ≠ ∅) ∧
      (op.type = .leave → ∃ g ∈ latest.groups.keys, g ∉ op.gids) ∧
      (op.type = .move → op.gid ∈ latest.groups)
  | .restart => True

instance (c : Controller) : DecidablePred c.KeepsGroup
  | .apply op _ _ => inferInstanceAs (Decidable (c.state.changes op = true →
      ∀ latest ∈ c.state.getLatestConfig,
        (op.type = .join → op.servers ≠ ∅ ∨ latest.groups ≠ ∅) ∧
        (op.type = .leave → ∃ g ∈ latest.groups.keys, g ∉ op.gids) ∧
        (op.type = .move → op.gid ∈ latest.groups)))
  | .restart => .isTrue trivial

theorem KeepsGroup.movesToMember {c : Controller} {e : Action} (h : c.KeepsGroup e) :
    c.MovesToMember e := by
  cases e with
  | restart => trivial
  | apply op _ _ => exact fun hchg htype latest hl => (h hchg latest hl).2.2 htype

end Controller

namespace Config

variable {latest config : Config} {op : Op}

theorem Next.groups_ne_empty (h : latest.Next op config)
    (hjoin : op.type = .join → op.servers ≠ ∅ ∨ latest.groups ≠ ∅)
    (hleave : op.type = .leave → ∃ g ∈ latest.groups.keys, g ∉ op.gids)
    (hmove : op.type = .move → op.gid ∈ latest.groups) : config.groups ≠ ∅ := by
  have hmem : ∀ {groups : Groups} {g : Int}, g ∈ groups → groups ≠ ∅ := by
    rintro groups g hg rfl
    exact Finmap.notMem_empty hg
  cases h with
  | join htype h =>
    rw [h.groups, assignVoidShards_groups, Config.joinGroups]
    rcases hjoin htype with hne | hne
    · obtain ⟨g, hg⟩ := exists_mem_of_ne_empty hne
      exact hmem (Finmap.mem_union.mpr (.inl hg))
    · obtain ⟨g, hg⟩ := exists_mem_of_ne_empty hne
      exact hmem (Finmap.mem_union.mpr (.inr hg))
  | leave htype h =>
    rw [h.groups, assignVoidShards_groups, Config.leaveGroups]
    obtain ⟨g, hg, hno⟩ := hleave htype
    exact hmem ((mem_foldl_erase op.gids latest.groups).mpr ⟨Finmap.mem_keys.mp hg, hno⟩)
  | move htype _ _ h =>
    rw [h]
    exact hmem (hmove htype)

theorem Next.live_of_move (h : latest.Next op config) (htype : op.type = .move)
    (hl : latest.Live) (hmem : op.gid ∈ latest.groups) : config.Live := by
  obtain ⟨hgroups, hshards⟩ := h.of_move htype
  intro sid
  rw [hgroups]
  rcases hshards sid with hs | hs
  · rw [hs]
    exact hmem
  · rw [hs]
    exact hl sid

end Config

namespace Controller

/-- Every configuration after the first gives each shard to one of its groups. -/
def AllLive (c : Controller) : Prop :=
  ∀ (i : Nat) (config : Config), c.state.configs[i + 1]? = some config → config.Live

theorem allLive_step {c c' : Controller} {e : Action} (hinv : c.Inv) (hok : c.KeepsGroup e)
    (he : c.step e = some c') (hl : ∀ config ∈ c.state.configs, config.Listed) (hs : c.AllLive)
    (h0 : State.makeState.configs <+: c.state.configs) : c'.AllLive := by
  cases (inv_step hinv he).2 with
  | same _ hconf => rw [AllLive, hconf]; exact hs
  | next op _ _ latest config hev hchg hlatest hn hconf =>
    subst hev
    obtain ⟨hjoin, hleave, hmove⟩ := hok hchg latest hlatest
    intro i config' hget
    rw [hconf] at hget
    rcases getElem?_concat.mp hget with hget | ⟨hi, rfl⟩
    · exact hs i config' hget
    · by_cases htype : op.type = .move
      · -- a configuration with the named group is not the first
        have hlast : c.state.configs[c.state.configs.length - 1]? = some latest := hlatest
        refine hn.live_of_move htype ?_ (hmove htype)
        rcases Nat.eq_zero_or_pos i with rfl | hpos
        · obtain ⟨l, hfirst⟩ := h0
          rw [← hi, ← hfirst] at hlast
          have hg := hmove htype
          rw [← Option.some.inj hlast] at hg
          exact absurd hg Finmap.notMem_empty
        · refine hs (i - 1) latest ?_
          rw [← hlast, ← hi]
          congr 1
          omega
      · exact (hn.listed (hl latest (List.mem_of_getElem? hlatest)) hmove).2 htype
          (hn.groups_ne_empty hjoin hleave hmove)

/-- **A controller that always keeps a group gives each shard to a listed group**, in every
configuration after the first. -/
theorem live_run {c : Controller} {past : List Controller}
    (h : Trace step KeepsGroup init (c :: past)) : c.AllLive := by
  have hall := Trace.invariant
    (I := fun c => c.Inv ∧ (∀ config ∈ c.state.configs, config.Listed) ∧
      State.makeState.configs <+: c.state.configs ∧ c.AllLive)
    ⟨inv_init, listed_init, List.prefix_refl _, fun i config hget => absurd hget (by
      simp [init, State.startServer, State.installSnapshot, State.makeState])⟩
    (fun c c' e hi hok he => ⟨(inv_step hi.1 he).1, listed_step hi.1 hok.movesToMember he hi.2.1,
      hi.2.2.1.trans (inv_step hi.1 he).2.kept, allLive_step hi.1 hok he hi.2.1 hi.2.2.2 hi.2.2.1⟩)
    _ h
  exact (hall c (List.mem_cons_self ..)).2.2.2

end Controller

end ShardRaft.Ctrler
