import ShardRaft.Ctrler.History
import Mathlib.Data.Int.CardIntervalMod

/-!
# Which shards a leave moves

`handleLeave` deals the orphaned shards out in turn, whatever the groups have, and then
lets `redistributeShards` even the counts out.  From a balanced configuration the counts
are `low`, `low + 1` and `low + 2` after the dealing (`count_dealt`), and each turn of the
loop takes the lowest-numbered shard of the first group with `low + 2` and gives it to the
first with `low` (`redistributeLoop_evens`).

Nothing says that this shard is one of the orphans.  `OrphansFirst` is the condition under
which it always is, and a leave moves nothing else exactly then
(`handleLeave_keeps_iff`).
-/

namespace ShardRaft.Ctrler

/-- Of the elements of `l`, dealt out to `m` in turn, the `j`-th gets its share. -/
theorem countP_idxOf_mod {α : Type*} [DecidableEq α] {l : List α} (hnd : l.Nodup) {m j : Nat}
    (hj : j < m) : (l.countP fun a => decide (l.idxOf a % m = j)) =
      l.length / m + if j < l.length % m then 1 else 0 := by
  have hidx : l.map (fun a => l.idxOf a) = List.range l.length := by
    refine List.ext_getElem (by simp) fun i h _ => ?_
    rw [List.getElem_map, List.getElem_range, hnd.idxOf_getElem]
  calc (l.countP fun a => decide (l.idxOf a % m = j))
      = (List.range l.length).countP (fun i => decide (i % m = j)) := by
        rw [← hidx, List.countP_map]
        rfl
    _ = l.length.count (· ≡ j [MOD m]) := by
        simp only [Nat.count, Nat.ModEq, Nat.mod_eq_of_lt hj]
    _ = l.length / m + if j < l.length % m then 1 else 0 := by
        rw [Nat.count_modEq_card _ (by omega), Nat.mod_eq_of_lt hj]

theorem filter_eq_tail {α : Type*} [DecidableEq α] {l t : List α} {a : α} {p q : α → Bool}
    (hnd : l.Nodup) (h : l.filter p = a :: t) (hq : ∀ x ∈ l, q x = (p x && decide (x ≠ a))) :
    l.filter q = t := by
  have hnot : a ∉ t := (List.nodup_cons.mp (h ▸ hnd.filter p)).1
  calc l.filter q
      = (l.filter p).filter (fun x => decide (x ≠ a)) := by
        rw [List.filter_filter]
        refine List.filter_congr fun x hx => ?_
        rw [hq x hx, Bool.and_comm]
    _ = t.filter (fun x => decide (x ≠ a)) := by rw [h, List.filter_cons_of_neg (by simp)]
    _ = t := List.filter_eq_self.mpr fun x hx => decide_eq_true fun hxa => hnot (hxa ▸ hx)

namespace Config

/-! ## The first of the largest and the first of the smallest -/

/-- Among the groups of `l`, `maxGroup` and `minGroup` are the first that attain the bounds. -/
structure MinMax.First (config : Config) (l : List Int) (m : MinMax) : Prop where
  maxGroup : 0 < m.max → l.find? (fun g => decide ((config.count g : Int) = m.max)) = some m.maxGroup
  minGroup : m.min < 257 →
    l.find? (fun g => decide ((config.count g : Int) = m.min)) = some m.minGroup

theorem minMaxStep_first {config : Config} {l : List Int} {m : MinMax} (hof : m.Of config l)
    (h : m.First config l) (g : Int) : (config.minMaxStep m g).First config (l ++ [g]) := by
  have hold : ∀ {p : Int → Bool} {g' : Int}, l.find? p = some g' →
      (l ++ [g]).find? p = some g' := by
    intro p g' h
    rw [List.find?_append, h]
    rfl
  -- a new bound is attained by no earlier group
  have hnew : (config.count g : Int) > m.max ∨ (config.count g : Int) < m.min →
      (l ++ [g]).find? (fun g' => decide ((config.count g' : Int) = config.count g)) = some g := by
    intro hbound
    have hnone : l.find? (fun g' => decide ((config.count g' : Int) = config.count g)) = none := by
      refine List.find?_eq_none.mpr fun g' hg' => ?_
      have hle := hof.le_max g' hg'
      have hge := hof.min_le g' hg'
      simp only [decide_eq_true_eq]
      omega
    rw [List.find?_append, hnone, List.find?_singleton, if_pos (by simp)]
    rfl
  simp only [minMaxStep]
  split
  · next hgt =>
    split
    · exact ⟨fun _ => hnew (.inl hgt), fun _ => hnew (.inl hgt)⟩
    · exact ⟨fun _ => hnew (.inl hgt), fun h' => hold (h.minGroup h')⟩
  · split
    · next hlt => exact ⟨fun h' => hold (h.maxGroup h'), fun _ => hnew (.inr hlt)⟩
    · exact ⟨fun h' => hold (h.maxGroup h'), fun h' => hold (h.minGroup h')⟩

theorem getMinMaxGroup_first (config : Config) :
    config.getMinMaxGroup.First config (getSortedKeys config.groups) := by
  have hfold : ∀ (l l' : List Int) (m : MinMax), m.Of config l' → m.First config l' →
      (l.foldl config.minMaxStep m).First config (l' ++ l) := by
    intro l
    induction l with
    | nil => intro l' m _ h; simpa using h
    | cons g l ih =>
      intro l' m hof h
      have hs := ih (l' ++ [g]) (config.minMaxStep m g) (minMaxStep_of hof g)
        (minMaxStep_first hof h g)
      simpa using hs
  exact hfold _ [] _ ⟨by simp, by simp, le_refl 0, by simp, by simp⟩ ⟨by simp, by simp⟩

/-! ## Evening out counts that are two apart -/

/-- The groups with `n` shards, in the order of their numbers. -/
def groupsWith (config : Config) (n : Nat) : List Int :=
  (getSortedKeys config.groups).filter fun g => decide (config.count g = n)

/-- `sid` is the lowest-numbered shard of `g`. -/
def IsFirst (config : Config) (g : Int) (sid : Fin NShards) : Prop :=
  config.shards sid = g ∧ ∀ j < sid, config.shards j ≠ g

/-- Every listed group has `low`, `low + 1` or `low + 2` shards. -/
def Within (config : Config) (low : Nat) : Prop :=
  ∀ g ∈ config.groups, low ≤ config.count g ∧ config.count g ≤ low + 2

theorem mem_groupsWith {config : Config} {n : Nat} {g : Int} :
    g ∈ config.groupsWith n ↔ g ∈ config.groups ∧ config.count g = n := by
  rw [groupsWith, List.mem_filter, mem_getSortedKeys, decide_eq_true_eq]

theorem nodup_groupsWith (config : Config) (n : Nat) : (config.groupsWith n).Nodup :=
  (nodup_getSortedKeys _).filter _

theorem IsFirst.unique {config : Config} {g : Int} {k k' : Fin NShards} (h : config.IsFirst g k)
    (h' : config.IsFirst g k') : k = k' := by
  rcases lt_trichotomy k k' with hlt | heq | hlt
  · exact absurd h.1 (h'.2 k hlt)
  · exact heq
  · exact absurd h'.1 (h.2 k' hlt)

section Evens

variable {config : Config} {low : Nat} {a b : Int} {high short : List Int}

theorem no_gap_of_nil (hwithin : config.Within low)
    (hnil : config.groupsWith (low + 2) = [] ∨ config.groupsWith low = []) :
    ¬config.getMinMaxGroup.max - config.getMinMaxGroup.min > 1 := by
  intro hgap
  obtain ⟨⟨ha, hca⟩, hb, hcb⟩ := minMaxGroup_of_gap hgap
  have hwa := hwithin _ ha
  have hwb := hwithin _ hb
  rcases hnil with hnil | hnil
  · have hmem := mem_groupsWith.mpr ⟨ha, show config.count _ = low + 2 by omega⟩
    rw [hnil] at hmem
    exact absurd hmem List.not_mem_nil
  · have hmem := mem_groupsWith.mpr ⟨hb, show config.count _ = low by omega⟩
    rw [hnil] at hmem
    exact absurd hmem List.not_mem_nil

/-- A turn is between the first group with `low + 2` shards and the first with `low`. -/
theorem getMinMaxGroup_of_cons (hwithin : config.Within low)
    (hhigh : config.groupsWith (low + 2) = a :: high) (hshort : config.groupsWith low = b :: short) :
    config.getMinMaxGroup = ⟨low, b, (low + 2 : Nat), a⟩ := by
  have hm := config.getMinMaxGroup_of
  have hf := config.getMinMaxGroup_first
  obtain ⟨ha, hca⟩ := mem_groupsWith.mp (hhigh ▸ List.mem_cons_self : a ∈ config.groupsWith (low + 2))
  obtain ⟨hb, hcb⟩ := mem_groupsWith.mp (hshort ▸ List.mem_cons_self : b ∈ config.groupsWith low)
  have hamax := hm.le_max a (mem_getSortedKeys.mpr ha)
  have hbmin := hm.min_le b (mem_getSortedKeys.mpr hb)
  have hgap : config.getMinMaxGroup.max - config.getMinMaxGroup.min > 1 := by omega
  obtain ⟨⟨ha', hca'⟩, hb', hcb'⟩ := minMaxGroup_of_gap hgap
  have hwa := hwithin _ ha'
  have hwb := hwithin _ hb'
  have hmax : config.getMinMaxGroup.max = (low + 2 : Nat) := by omega
  have hmin : config.getMinMaxGroup.min = low := by omega
  have hfmax := hf.maxGroup (by omega)
  have hfmin := hf.minGroup (by rw [hmin]; have := config.count_le b; rw [NShards] at this; omega)
  simp only [hmax, hmin, Nat.cast_inj] at hfmax hfmin
  rw [← List.head?_filter] at hfmax hfmin
  rw [groupsWith] at hhigh hshort
  rw [hhigh, List.head?_cons] at hfmax
  rw [hshort, List.head?_cons] at hfmin
  rw [Option.some.inj hfmax, Option.some.inj hfmin, ← hmax, ← hmin]

theorem moveShard_evens (hwithin : config.Within low)
    (hhigh : config.groupsWith (low + 2) = a :: high) (hshort : config.groupsWith low = b :: short) :
    ∃ k, config.IsFirst a k ∧ a ≠ b ∧
      config.moveShard a b = { config with shards := Function.update config.shards k b } ∧
      (config.moveShard a b).Within low ∧ (config.moveShard a b).groupsWith (low + 2) = high ∧
      (config.moveShard a b).groupsWith low = short := by
  obtain ⟨ha, hca⟩ := mem_groupsWith.mp (hhigh ▸ List.mem_cons_self : a ∈ config.groupsWith (low + 2))
  obtain ⟨hb, hcb⟩ := mem_groupsWith.mp (hshort ▸ List.mem_cons_self : b ∈ config.groupsWith low)
  have hne : a ≠ b := by
    rintro rfl
    omega
  obtain ⟨k, hk, hfirst, he⟩ := exists_moveShard_first (b := b) (show 0 < config.count a by omega)
  have hgroups : (config.moveShard a b).groups = config.groups := by rw [he]
  have hcount : ∀ g, (config.moveShard a b).count g =
      if g = a ∨ g = b then low + 1 else config.count g := by
    intro g
    have hg := config.count_update k b g
    rw [← he, hk] at hg
    by_cases hga : g = a
    · subst hga
      rw [if_pos rfl, if_neg hne.symm] at hg
      rw [if_pos (.inl rfl)]
      omega
    · by_cases hgb : g = b
      · subst hgb
        rw [if_pos rfl, if_neg hne] at hg
        rw [if_pos (.inr rfl)]
        omega
      · rw [if_neg (Ne.symm hga), if_neg (Ne.symm hgb)] at hg
        rw [if_neg (by simp [hga, hgb])]
        exact hg
  refine ⟨k, ⟨hk, hfirst⟩, hne, he, fun g hg => ?_, ?_, ?_⟩
  · have hw := hwithin g (hgroups ▸ hg)
    rw [hcount]
    split <;> omega
  · rw [groupsWith, hgroups]
    refine filter_eq_tail (nodup_getSortedKeys _) hhigh fun g _ => ?_
    rw [hcount]
    by_cases hga : g = a
    · simp [hga]
    · by_cases hgb : g = b
      · simp [hgb, hcb]
      · simp [hga, hgb]
  · rw [groupsWith, hgroups]
    refine filter_eq_tail (nodup_getSortedKeys _) hshort fun g _ => ?_
    rw [hcount]
    by_cases hga : g = a
    · simp [hga, hca]
    · by_cases hgb : g = b
      · simp [hgb]
      · simp [hga, hgb]

/-- **Which shards the loop moves**: the first shard of as many of the groups with
`low + 2` shards as there are groups with `low`. -/
theorem redistributeLoop_evens {config' : Config} {fuel : Nat} (hwithin : config.Within low)
    (hrun : redistributeLoop fuel config = some config') (sid : Fin NShards) :
    config'.shards sid ≠ config.shards sid ↔
      ∃ g ∈ (config.groupsWith (low + 2)).take (config.groupsWith low).length,
        config.IsFirst g sid := by
  induction fuel generalizing config with
  | zero => exact absurd hrun (by simp [redistributeLoop])
  | succ fuel ih =>
    simp only [redistributeLoop] at hrun
    cases hhigh : config.groupsWith (low + 2) with
    | nil =>
      rw [if_neg (no_gap_of_nil hwithin (.inl hhigh))] at hrun
      simp [Option.some.inj hrun]
    | cons a high =>
      cases hshort : config.groupsWith low with
      | nil =>
        rw [if_neg (no_gap_of_nil hwithin (.inr hshort))] at hrun
        simp [Option.some.inj hrun]
      | cons b short =>
        rw [getMinMaxGroup_of_cons hwithin hhigh hshort, if_pos (by push_cast; omega)] at hrun
        obtain ⟨k, hk, hab, he, hwithin', hhigh', hshort'⟩ :=
          moveShard_evens hwithin hhigh hshort
        have hrest := ih hwithin' hrun
        rw [hhigh', hshort'] at hrest
        -- the groups still to come have the same shards as before this turn
        have hsame : ∀ g ∈ high.take short.length,
            (config.moveShard a b).IsFirst g sid ↔ config.IsFirst g sid := by
          intro g hg
          have hmem := List.mem_of_mem_take hg
          have hga : g ≠ a := fun h => (List.nodup_cons.mp (hhigh ▸ nodup_groupsWith _ _)).1 (h ▸ hmem)
          have hgb : g ≠ b := by
            rintro rfl
            have hhi := (mem_groupsWith.mp (hhigh ▸ List.mem_cons_of_mem a hmem)).2
            have hlo := (mem_groupsWith.mp (hshort ▸ List.mem_cons_self : g ∈ config.groupsWith low)).2
            omega
          have hshards : ∀ j, (config.moveShard a b).shards j = g ↔ config.shards j = g := by
            intro j
            rw [he]
            by_cases hj : j = k
            · subst hj
              simp [hk.1, hga.symm, hgb.symm]
            · simp [Function.update_of_ne hj]
          simp only [IsFirst, ne_eq, hshards]
        rw [List.length_cons, List.take_succ_cons]
        simp only [List.mem_cons, exists_eq_or_imp]
        by_cases hs : sid = k
        · subst hs
          have hstays : config'.shards sid = b := by
            have hb : (config.moveShard a b).shards sid = b := by
              rw [he]
              exact Function.update_self ..
            by_contra hmoved
            obtain ⟨g, hg, hfirst⟩ := hrest.mp (hb.symm ▸ hmoved)
            have hgb : b = g := hb.symm.trans hfirst.1
            have hga : a = g := hk.1.symm.trans ((hsame g hg).mp hfirst).1
            exact hab (hga.trans hgb.symm)
          rw [hstays, hk.1]
          exact ⟨fun _ => .inl hk, fun _ => hab.symm⟩
        · have hkept : (config.moveShard a b).shards sid = config.shards sid := by
            rw [he]
            exact Function.update_of_ne hs ..
          rw [← hkept, hrest, or_iff_right fun h => hs (h.unique hk)]
          exact exists_congr fun g => and_congr_right (hsame g)

end Evens

/-! ## Leave -/

/-- The groups that stay, in the order of their numbers. -/
def staying (latest : Config) (gids : List Int) : List Int :=
  getSortedKeys (latest.leaveGroups gids).groups

/-- The shards of the groups that leave. -/
def orphans (latest : Config) (gids : List Int) : List (Fin NShards) :=
  (List.finRange NShards).filter fun k => contains gids (latest.shards k)

/-- How many of the staying groups are dealt one orphan more than the others. -/
def extra (latest : Config) (gids : List Int) : Nat :=
  (latest.orphans gids).length % (latest.staying gids).length

/-- The groups that are dealt an orphan more although one that is not has fewer shards,
each with the first orphan that it is dealt. -/
def crowded (latest : Config) (gids : List Int) : List (Int × Fin NShards) :=
  (((latest.staying gids).zip (latest.orphans gids)).take (latest.extra gids)).filter fun p =>
    ((latest.staying gids).drop (latest.extra gids)).any fun g =>
      decide (latest.count g < latest.count p.1)

/-- The groups that are not dealt an orphan more although one that is has more shards. -/
def lacking (latest : Config) (gids : List Int) : List Int :=
  ((latest.staying gids).drop (latest.extra gids)).filter fun g =>
    ((latest.staying gids).take (latest.extra gids)).any fun g' =>
      decide (latest.count g < latest.count g')

/-- Of the crowded groups that will have to give a shard to a lacking one, each is dealt an
orphan with a lower number than every shard it has. -/
def OrphansFirst (latest : Config) (gids : List Int) : Prop :=
  ∀ p ∈ (latest.crowded gids).take (latest.lacking gids).length, ∀ sid,
    latest.shards sid = p.1 → p.2 < sid

instance (latest : Config) (gids : List Int) : Decidable (latest.OrphansFirst gids) :=
  inferInstanceAs (Decidable (∀ p ∈ _, _))

section Leave

variable {latest : Config} {gids : List Int}

theorem mem_staying {g : Int} : g ∈ latest.staying gids ↔ g ∈ latest.groups ∧ g ∉ gids := by
  rw [staying, mem_getSortedKeys]
  exact mem_foldl_erase gids latest.groups

theorem mem_orphans {sid : Fin NShards} :
    sid ∈ latest.orphans gids ↔ latest.shards sid ∈ gids := by
  rw [orphans, List.mem_filter, contains_iff]
  exact and_iff_right (List.mem_finRange sid)

theorem nodup_orphans : (latest.orphans gids).Nodup := (List.nodup_finRange _).filter _

theorem pairwise_orphans : (latest.orphans gids).Pairwise (· < ·) :=
  (List.pairwise_lt_finRange _).filter _

theorem groupsWith_dealt (n : Nat) :
    (latest.leaveGroups gids).assignVoidShards.groupsWith n =
      (((latest.staying gids).take (latest.extra gids)).filter fun g =>
        decide ((latest.leaveGroups gids).assignVoidShards.count g = n)) ++
      ((latest.staying gids).drop (latest.extra gids)).filter fun g =>
        decide ((latest.leaveGroups gids).assignVoidShards.count g = n) := by
  rw [groupsWith, assignVoidShards_groups, ← List.filter_append, List.take_append_drop, staying]

variable (hpos : ∀ g ∈ latest.groups, 0 < g) (hmember : ∀ sid, latest.shards sid ∈ latest.groups)
  (hsome : 0 < (latest.staying gids).length)

include hpos hmember hsome

/-- The orphans are dealt out in turn, and no other shard changes. -/
theorem dealt_shards (sid : Fin NShards) :
    (latest.leaveGroups gids).assignVoidShards.shards sid =
      if latest.shards sid ∈ gids then
        ((latest.staying gids)[(latest.orphans gids).idxOf sid % (latest.staying gids).length]?).getD 0
      else latest.shards sid := by
  have hvoid : ((List.finRange NShards).filter fun k =>
      decide ((latest.leaveGroups gids).shards k ≤ 0)) = latest.orphans gids := by
    refine List.filter_congr fun k _ => ?_
    have hk := hpos _ (hmember k)
    by_cases hc : contains gids (latest.shards k) = true
    · simp [leaveGroups, hc]
    · simp [leaveGroups, hc, hk]
  have hkeys : getSortedKeys (latest.leaveGroups gids).groups = latest.staying gids := rfl
  simp only [assignVoidShards, hkeys, if_neg (Nat.ne_of_gt hsome)]
  rw [assignVoidShard_deals _ _ (List.nodup_finRange _) hsome]
  simp only [hvoid, mem_orphans, Nat.zero_add]
  by_cases hc : latest.shards sid ∈ gids
  · rw [if_pos hc, if_pos hc]
  · rw [if_neg hc, if_neg hc]
    simp only [leaveGroups, contains_iff, hc, if_false]

theorem dealt_orphan {j : Nat} {g : Int} (hj : (latest.staying gids)[j]? = some g)
    {sid : Fin NShards} (hs : latest.shards sid ∈ gids) :
    (latest.leaveGroups gids).assignVoidShards.shards sid = g ↔
      (latest.orphans gids).idxOf sid % (latest.staying gids).length = j := by
  obtain ⟨hjlt, hjg⟩ := List.getElem?_eq_some_iff.mp hj
  have hlt := Nat.mod_lt ((latest.orphans gids).idxOf sid) hsome
  rw [dealt_shards hpos hmember hsome, if_pos hs, List.getElem?_eq_getElem hlt, Option.getD_some,
    ← hjg]
  exact (nodup_getSortedKeys _).getElem_inj_iff

/-- **The counts after the dealing.** -/
theorem count_dealt {j : Nat} {g : Int} (hj : (latest.staying gids)[j]? = some g) :
    (latest.leaveGroups gids).assignVoidShards.count g =
      latest.count g + (latest.orphans gids).length / (latest.staying gids).length +
        if j < latest.extra gids then 1 else 0 := by
  have hjlt := (List.getElem?_eq_some_iff.mp hj).1
  have hstays := (mem_staying.mp (List.mem_of_getElem? hj)).2
  -- the orphans and the other shards are counted apart
  rw [count, count,
    List.countP_eq_countP_filter_add _ _ fun k => contains gids (latest.shards k),
    List.countP_eq_countP_filter_add _ (fun k => decide (latest.shards k = g))
      fun k => contains gids (latest.shards k)]
  have hdealt : ((latest.orphans gids).countP fun k =>
        decide ((latest.leaveGroups gids).assignVoidShards.shards k = g)) =
      (latest.orphans gids).length / (latest.staying gids).length +
        if j < latest.extra gids then 1 else 0 := by
    rw [extra, ← countP_idxOf_mod nodup_orphans hjlt]
    refine List.countP_congr fun k hk => ?_
    simp only [decide_eq_true_eq]
    exact dealt_orphan hpos hmember hsome hj (mem_orphans.mp hk)
  have hnone : ((latest.orphans gids).countP fun k => decide (latest.shards k = g)) = 0 := by
    refine List.countP_eq_zero.mpr fun k hk h => hstays ?_
    exact of_decide_eq_true h ▸ mem_orphans.mp hk
  have hothers : ∀ k, k ∈ (List.finRange NShards).filter
      (fun k => !contains gids (latest.shards k)) →
      ((decide ((latest.leaveGroups gids).assignVoidShards.shards k = g)) = true ↔
        decide (latest.shards k = g) = true) := by
    intro k hk
    have hk' : latest.shards k ∉ gids := by
      rw [← contains_iff]
      simpa using (List.mem_filter.mp hk).2
    rw [dealt_shards hpos hmember hsome, if_neg hk']
  have horphans : (List.finRange NShards).filter (fun k => contains gids (latest.shards k)) =
      latest.orphans gids := rfl
  rw [horphans, hdealt, hnone, List.countP_congr hothers]
  omega

theorem count_dealt_take {g : Int} (hg : g ∈ (latest.staying gids).take (latest.extra gids)) :
    (latest.leaveGroups gids).assignVoidShards.count g =
      latest.count g + (latest.orphans gids).length / (latest.staying gids).length + 1 := by
  obtain ⟨j, hj, hjg⟩ := List.mem_iff_getElem.mp hg
  rw [List.length_take] at hj
  have hj' : (latest.staying gids)[j]? = some g := by
    rw [← hjg, List.getElem_take]
    exact List.getElem?_eq_getElem (by omega)
  rw [count_dealt hpos hmember hsome hj', if_pos (by omega)]

theorem count_dealt_drop {g : Int} (hg : g ∈ (latest.staying gids).drop (latest.extra gids)) :
    (latest.leaveGroups gids).assignVoidShards.count g =
      latest.count g + (latest.orphans gids).length / (latest.staying gids).length := by
  obtain ⟨j, hj, hjg⟩ := List.mem_iff_getElem.mp hg
  rw [List.length_drop] at hj
  have hj' : (latest.staying gids)[latest.extra gids + j]? = some g := by
    rw [← hjg, List.getElem_drop]
    exact List.getElem?_eq_getElem (by omega)
  rw [count_dealt hpos hmember hsome hj', if_neg (by omega), Nat.add_zero]

variable {low : Nat}
  (hlow : ∀ g ∈ latest.staying gids, low ≤ latest.count g ∧ latest.count g ≤ low + 1)

include hlow

theorem within_dealt : (latest.leaveGroups gids).assignVoidShards.Within
    (low + (latest.orphans gids).length / (latest.staying gids).length) := by
  intro g hg
  rw [assignVoidShards_groups] at hg
  have hg' : g ∈ latest.staying gids := mem_getSortedKeys.mpr hg
  have hrange := hlow g hg'
  obtain ⟨j, hj⟩ := List.mem_iff_getElem?.mp hg'
  rw [count_dealt hpos hmember hsome hj]
  split <;> omega

/-- The groups with two shards more than the smallest are dealt one orphan more, and had
one shard more. -/
theorem groupsWith_high : (latest.leaveGroups gids).assignVoidShards.groupsWith
      (low + (latest.orphans gids).length / (latest.staying gids).length + 2) =
    ((latest.staying gids).take (latest.extra gids)).filter
      fun g => decide (latest.count g = low + 1) := by
  have hdrop : (((latest.staying gids).drop (latest.extra gids)).filter fun g =>
      decide ((latest.leaveGroups gids).assignVoidShards.count g =
        low + (latest.orphans gids).length / (latest.staying gids).length + 2)) = [] := by
    refine List.filter_eq_nil_iff.mpr fun g hg => ?_
    have hrange := hlow g (List.mem_of_mem_drop hg)
    rw [count_dealt_drop hpos hmember hsome hg, decide_eq_true_eq]
    omega
  rw [groupsWith_dealt, hdrop, List.append_nil]
  refine List.filter_congr fun g hg => ?_
  rw [count_dealt_take hpos hmember hsome hg, decide_eq_decide]
  omega

/-- The groups with the fewest shards are not dealt one more, and had the fewest before. -/
theorem groupsWith_low : (latest.leaveGroups gids).assignVoidShards.groupsWith
      (low + (latest.orphans gids).length / (latest.staying gids).length) =
    ((latest.staying gids).drop (latest.extra gids)).filter
      fun g => decide (latest.count g = low) := by
  have htake : (((latest.staying gids).take (latest.extra gids)).filter fun g =>
      decide ((latest.leaveGroups gids).assignVoidShards.count g =
        low + (latest.orphans gids).length / (latest.staying gids).length)) = [] := by
    refine List.filter_eq_nil_iff.mpr fun g hg => ?_
    have hrange := hlow g (List.mem_of_mem_take hg)
    rw [count_dealt_take hpos hmember hsome hg, decide_eq_true_eq]
    omega
  rw [groupsWith_dealt, htake, List.nil_append]
  refine List.filter_congr fun g hg => ?_
  rw [count_dealt_drop hpos hmember hsome hg, decide_eq_decide]
  omega

omit hpos hmember hsome in
theorem count_lt_iff {g g' : Int} (hg : g ∈ latest.staying gids) (hg' : g' ∈ latest.staying gids) :
    latest.count g < latest.count g' ↔ latest.count g = low ∧ latest.count g' = low + 1 := by
  have h := hlow g hg
  have h' := hlow g' hg'
  omega

omit hpos hmember hsome hlow in
theorem crowded_fst : (latest.crowded gids).map Prod.fst =
    ((latest.staying gids).take (latest.extra gids)).filter fun g =>
      ((latest.staying gids).drop (latest.extra gids)).any fun g' =>
        decide (latest.count g' < latest.count g) := by
  have hle : latest.extra gids ≤ (latest.orphans gids).length := Nat.mod_le _ _
  have hzip : (((latest.staying gids).zip (latest.orphans gids)).take (latest.extra gids)).map Prod.fst =
      (latest.staying gids).take (latest.extra gids) := by
    rw [List.zip, List.take_zipWith, ← List.zip]
    refine List.map_fst_zip ?_
    rw [List.length_take, List.length_take]
    omega
  rw [← hzip, List.filter_map]
  rfl

/-- The groups that give a shard are the crowded ones, as far as there are lacking ones. -/
theorem givers_eq : ((latest.crowded gids).take (latest.lacking gids).length).map Prod.fst =
    ((latest.leaveGroups gids).assignVoidShards.groupsWith
      (low + (latest.orphans gids).length / (latest.staying gids).length + 2)).take
    ((latest.leaveGroups gids).assignVoidShards.groupsWith
      (low + (latest.orphans gids).length / (latest.staying gids).length)).length := by
  rw [groupsWith_high hpos hmember hsome hlow, groupsWith_low hpos hmember hsome hlow, List.map_take,
    crowded_fst]
  have hlt := fun {g g' : Int} (hg : g ∈ (latest.staying gids).drop (latest.extra gids))
      (hg' : g' ∈ (latest.staying gids).take (latest.extra gids)) =>
    count_lt_iff hlow (List.mem_of_mem_drop hg) (List.mem_of_mem_take hg')
  by_cases hshort : ∃ b ∈ (latest.staying gids).drop (latest.extra gids), latest.count b = low
  · obtain ⟨b, hb, hcb⟩ := hshort
    have hhigh : (((latest.staying gids).take (latest.extra gids)).filter fun g =>
          ((latest.staying gids).drop (latest.extra gids)).any fun g' =>
            decide (latest.count g' < latest.count g)) =
        ((latest.staying gids).take (latest.extra gids)).filter
          fun g => decide (latest.count g = low + 1) := by
      refine List.filter_congr fun g hg => Bool.eq_iff_iff.mpr ?_
      simp only [List.any_eq_true, decide_eq_true_eq]
      constructor
      · rintro ⟨g', hg', h⟩
        exact ((hlt hg' hg).mp h).2
      · intro h
        exact ⟨b, hb, (hlt hb hg).mpr ⟨hcb, h⟩⟩
    rw [hhigh]
    by_cases hcrowd : ∃ a ∈ (latest.staying gids).take (latest.extra gids), latest.count a = low + 1
    · obtain ⟨a, ha, hca⟩ := hcrowd
      have hlacking : latest.lacking gids = ((latest.staying gids).drop (latest.extra gids)).filter
          fun g => decide (latest.count g = low) := by
        refine List.filter_congr fun g hg => Bool.eq_iff_iff.mpr ?_
        simp only [List.any_eq_true, decide_eq_true_eq]
        constructor
        · rintro ⟨g', hg', h⟩
          exact ((hlt hg hg').mp h).1
        · intro h
          exact ⟨a, ha, (hlt hg ha).mpr ⟨h, hca⟩⟩
      rw [hlacking]
    · -- no group had one shard more, so none has to give
      have hnil : (((latest.staying gids).take (latest.extra gids)).filter
          fun g => decide (latest.count g = low + 1)) = [] :=
        List.filter_eq_nil_iff.mpr fun a ha h => hcrowd ⟨a, ha, of_decide_eq_true h⟩
      rw [hnil, List.take_nil, List.take_nil]
  · -- no group has the fewest shards, so none lacks one
    have hnil : (((latest.staying gids).drop (latest.extra gids)).filter
        fun g => decide (latest.count g = low)) = [] :=
      List.filter_eq_nil_iff.mpr fun b hb h => hshort ⟨b, hb, of_decide_eq_true h⟩
    have hlacking : latest.lacking gids = [] := by
      refine List.filter_eq_nil_iff.mpr fun g hg h => ?_
      obtain ⟨g', hg', h'⟩ := List.any_eq_true.mp h
      exact hshort ⟨g, hg, ((hlt hg hg').mp (of_decide_eq_true h')).1⟩
    rw [hnil, hlacking, List.length_nil, List.take_zero, List.take_zero]

omit hlow in
/-- The first shard of a crowded group is an orphan when the first orphan it is dealt comes
before all it had. -/
theorem first_orphan_iff {p : Int × Fin NShards} (hp : p ∈ latest.crowded gids) :
    (∀ sid, (latest.leaveGroups gids).assignVoidShards.IsFirst p.1 sid → latest.shards sid ∈ gids) ↔
      ∀ sid, latest.shards sid = p.1 → p.2 < sid := by
  obtain ⟨j, hj⟩ := List.mem_iff_getElem?.mp (List.mem_of_mem_take (List.mem_of_mem_filter hp))
  obtain ⟨hjg, hjo⟩ := List.getElem?_zip_eq_some.mp hj
  have hjlt := (List.getElem?_eq_some_iff.mp hjg).1
  obtain ⟨hjlt', hjo'⟩ := List.getElem?_eq_some_iff.mp hjo
  have hstays := (mem_staying.mp (List.mem_of_getElem? hjg)).2
  have horphan : latest.shards p.2 ∈ gids := mem_orphans.mp (List.mem_of_getElem? hjo)
  have hdealt : (latest.leaveGroups gids).assignVoidShards.shards p.2 = p.1 := by
    rw [dealt_orphan hpos hmember hsome hjg horphan, ← hjo', nodup_orphans.idxOf_getElem,
      Nat.mod_eq_of_lt hjlt]
  have hkept : ∀ {sid}, latest.shards sid ∉ gids →
      (latest.leaveGroups gids).assignVoidShards.shards sid = latest.shards sid := by
    intro sid hsid
    rw [dealt_shards hpos hmember hsome, if_neg hsid]
  constructor
  · intro hfirst sid hsid
    have hsid' : latest.shards sid ∉ gids := hsid ▸ hstays
    have hpos' : 0 < (latest.leaveGroups gids).assignVoidShards.count p.1 :=
      List.countP_pos_iff.mpr ⟨sid, List.mem_finRange sid, decide_eq_true ((hkept hsid').trans hsid)⟩
    obtain ⟨k, hk, hbefore, -⟩ := exists_moveShard_first (b := 0) hpos'
    have hk' := hfirst k ⟨hk, hbefore⟩
    -- `k` is dealt to the group, so it is not before the first orphan dealt to it
    have hturn := (dealt_orphan hpos hmember hsome hjg hk').mp hk
    have hle : p.2 ≤ k := by
      have hidx : (latest.orphans gids).idxOf k < (latest.orphans gids).length :=
        List.idxOf_lt_length_of_mem (mem_orphans.mpr hk')
      have hjle : j ≤ (latest.orphans gids).idxOf k := hturn ▸ Nat.mod_le _ _
      rw [← hjo', ← List.getElem_idxOf hidx]
      exact (pairwise_orphans.sortedLT.sortedLE.getElem_le_getElem_of_le hjle)
    have hne : k ≠ sid := fun h => hsid' (h ▸ hk')
    have hks : k ≤ sid := not_lt.mp fun hlt => hbefore sid hlt ((hkept hsid').trans hsid)
    exact lt_of_le_of_lt hle (lt_of_le_of_ne hks hne)
  · intro hbefore sid hsid
    by_contra hnot
    have hlt := hbefore sid ((hkept hnot).symm.trans hsid.1)
    exact hsid.2 p.2 hlt hdealt

end Leave

/-- One group or none has nothing to even out, so the guard of `redistributeShards` does not
matter. -/
theorem redistribute_eq (config : Config) : config.redistribute = config.redistributeShards := by
  rw [redistribute]
  split
  · rfl
  · next hcard =>
    have hgap : ¬config.getMinMaxGroup.max - config.getMinMaxGroup.min > 1 := by
      intro hgap
      have hturn := isTurn_turn hgap
      exact hturn.distinct (Finset.card_le_one.mp (not_lt.mp hcard) _
        (Finmap.mem_keys.mpr hturn.maxGroup) _ (Finmap.mem_keys.mpr hturn.minGroup))
    simp only [redistributeShards, redistributeLoop, if_neg hgap]

theorem exists_low {latest : Config} (hbal : latest.Balanced) (gids : List Int) :
    ∃ low, ∀ g ∈ latest.staying gids, low ≤ latest.count g ∧ latest.count g ≤ low + 1 := by
  by_cases hnil : latest.staying gids = []
  · exact ⟨0, by simp [hnil]⟩
  · obtain ⟨g₀, hg₀, hmin⟩ := (latest.staying gids).toFinset.exists_min_image latest.count
      (List.toFinset_nonempty_iff _ |>.mpr hnil)
    refine ⟨latest.count g₀, fun g hg => ⟨hmin g (List.mem_toFinset.mpr hg), ?_⟩⟩
    exact hbal g (mem_staying.mp hg).1 g₀ (mem_staying.mp (List.mem_toFinset.mp hg₀)).1

theorem keeps_iff_of_staying {latest config : Config} {gids : List Int}
    (hpos : ∀ g ∈ latest.groups, 0 < g) (hmember : ∀ sid, latest.shards sid ∈ latest.groups)
    (hbal : latest.Balanced) (hsome : 0 < (latest.staying gids).length)
    (hrun : (latest.leaveGroups gids).assignVoidShards.redistribute = some config) :
    (∀ sid, latest.shards sid ∉ gids → config.shards sid = latest.shards sid) ↔
      latest.OrphansFirst gids := by
  obtain ⟨low, hlow⟩ := exists_low hbal gids
  rw [redistribute_eq] at hrun
  have hmoved := redistributeLoop_evens (within_dealt hpos hmember hsome hlow) hrun
  rw [← givers_eq hpos hmember hsome hlow] at hmoved
  have hkept : ∀ sid, latest.shards sid ∉ gids →
      (latest.leaveGroups gids).assignVoidShards.shards sid = latest.shards sid := by
    intro sid hsid
    rw [dealt_shards hpos hmember hsome, if_neg hsid]
  calc (∀ sid, latest.shards sid ∉ gids → config.shards sid = latest.shards sid)
      ↔ ∀ p ∈ (latest.crowded gids).take (latest.lacking gids).length, ∀ sid,
          (latest.leaveGroups gids).assignVoidShards.IsFirst p.1 sid → latest.shards sid ∈ gids := by
        constructor
        · intro h p hp sid hfirst
          by_contra hsid
          exact (hmoved sid).mpr ⟨p.1, List.mem_map_of_mem hp, hfirst⟩
            ((h sid hsid).trans (hkept sid hsid).symm)
        · intro h sid hsid
          by_contra hne
          obtain ⟨g, hg, hfirst⟩ := (hmoved sid).mp fun heq => hne (heq.trans (hkept sid hsid))
          obtain ⟨p, hp, rfl⟩ := List.mem_map.mp hg
          exact hsid (h p hp sid hfirst)
    _ ↔ latest.OrphansFirst gids :=
        forall₂_congr fun p hp => first_orphan_iff hpos hmember hsome (List.mem_of_mem_take hp)

end Config

open Config

/-- **When a leave moves as little as possible.**  From a balanced configuration, the shards
of the groups that stay keep their owner exactly if `OrphansFirst` holds. -/
theorem handleLeave_keeps_iff {st : State} {latest : Config}
    (hlatest : st.getLatestConfig = some latest) (hpos : ∀ g ∈ latest.groups, 0 < g)
    (hmember : ∀ sid, latest.shards sid ∈ latest.groups) (hbal : latest.Balanced)
    (gids : List Int) :
    ∃ config, st.handleLeave gids = some (st.appendConfig config) ∧
      ((∀ sid, latest.shards sid ∉ gids → config.shards sid = latest.shards sid) ↔
        latest.OrphansFirst gids) := by
  obtain ⟨config, he, -, -⟩ := (latest.leaveGroups gids).assignVoidShards.redistribute_spec
  refine ⟨config, by rw [State.handleLeave_eq hlatest, he, Option.map_some], ?_⟩
  by_cases hsome : 0 < (latest.staying gids).length
  · exact keeps_iff_of_staying hpos hmember hbal hsome he
  · -- all groups leave: every shard is an orphan
    have hnil : latest.staying gids = [] := List.length_eq_zero_iff.mp (by omega)
    refine iff_of_true (fun sid hsid => ?_) fun p hp => ?_
    · have hstays := mem_staying.mpr ⟨hmember sid, hsid⟩
      rw [hnil] at hstays
      exact absurd hstays List.not_mem_nil
    · have hp' := List.mem_of_mem_take hp
      simp [crowded, hnil] at hp'

/-- Four groups, two of them with three shards. -/
def fourGroups (owners : List Int) : Config where
  num := 1
  shards k := (owners[k.val]?).getD 0
  groups := Groups.ofList [(1, ["a"]), (2, ["b"]), (3, ["c"]), (4, ["d"])]

theorem fourGroups_ready (owners : List Int)
    (h : decide ((∀ sid, (fourGroups owners).shards sid ∈ (fourGroups owners).groups.keys) ∧
      ∀ g ∈ (fourGroups owners).groups.keys, ∀ g' ∈ (fourGroups owners).groups.keys,
        (fourGroups owners).count g ≤ (fourGroups owners).count g' + 1) = true) :
    (∀ g ∈ (fourGroups owners).groups, 0 < g) ∧
      (∀ sid, (fourGroups owners).shards sid ∈ (fourGroups owners).groups) ∧
      (fourGroups owners).Balanced := by
  obtain ⟨hmember, hbal⟩ := of_decide_eq_true h
  have hpos : ∀ g ∈ (Groups.ofList [(1, ["a"]), (2, ["b"]), (3, ["c"]), (4, ["d"])]).keys, 0 < g := by
    decide
  exact ⟨fun g hg => hpos g (Finmap.mem_keys.mpr hg), fun sid => Finmap.mem_keys.mp (hmember sid),
    fun g hg g' hg' => hbal g (Finmap.mem_keys.mpr hg) g' (Finmap.mem_keys.mpr hg')⟩

theorem fourGroups_leave_keeps :
    ∃ config, State.handleLeave ⟨[fourGroups [4, 4, 1, 1, 1, 2, 2, 2, 3, 3]], fun _ => none⟩ [4] =
        some (State.appendConfig ⟨[fourGroups [4, 4, 1, 1, 1, 2, 2, 2, 3, 3]], fun _ => none⟩ config) ∧
      ∀ sid, (fourGroups [4, 4, 1, 1, 1, 2, 2, 2, 3, 3]).shards sid ∉ [4] →
        config.shards sid = (fourGroups [4, 4, 1, 1, 1, 2, 2, 2, 3, 3]).shards sid := by
  obtain ⟨hpos, hmember, hbal⟩ :=
    fourGroups_ready [4, 4, 1, 1, 1, 2, 2, 2, 3, 3] (by decide +kernel)
  have hlatest : State.getLatestConfig ⟨[fourGroups [4, 4, 1, 1, 1, 2, 2, 2, 3, 3]], fun _ => none⟩ =
      some (fourGroups [4, 4, 1, 1, 1, 2, 2, 2, 3, 3]) := rfl
  obtain ⟨config, he, hiff⟩ := handleLeave_keeps_iff hlatest hpos hmember hbal [4]
  exact ⟨config, he, hiff.mpr (by decide +kernel)⟩

/-- When group 4 leaves with the last two shards, groups 1 and 2 are dealt one each, and
shard 0 of group 1 goes to group 3. -/
theorem fourGroups_leave_moves :
    ¬∀ (st : State) (latest : Config) (gids : List Int), st.getLatestConfig = some latest →
      (∀ g ∈ latest.groups, 0 < g) → (∀ sid, latest.shards sid ∈ latest.groups) →
      latest.Balanced →
      ∃ config, st.handleLeave gids = some (st.appendConfig config) ∧
        ∀ sid, latest.shards sid ∉ gids → config.shards sid = latest.shards sid := by
  intro hclaim
  obtain ⟨hpos, hmember, hbal⟩ :=
    fourGroups_ready [1, 1, 1, 2, 2, 2, 3, 3, 4, 4] (by decide +kernel)
  obtain ⟨config, he, hkeeps⟩ := hclaim ⟨[fourGroups _], fun _ => none⟩ _ [4] rfl hpos hmember hbal
  have hshard : config.shards ⟨0, NShards_pos⟩ = 1 := hkeeps _ (by decide)
  have hmoved : ((State.handleLeave ⟨[fourGroups [1, 1, 1, 2, 2, 2, 3, 3, 4, 4]], fun _ => none⟩ [4]).map
      fun st => st.configs.map fun c => c.shards ⟨0, NShards_pos⟩) = some [1, 3] := by
    decide +kernel
  rw [he] at hmoved
  simp [State.appendConfig, hshard] at hmoved

end ShardRaft.Ctrler
