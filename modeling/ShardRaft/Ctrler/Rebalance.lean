import ShardRaft.Ctrler.Config
import Mathlib.Algebra.BigOperators.Fin
import Mathlib.Algebra.Order.BigOperators.Group.Finset
import Mathlib.Tactic.Linarith
import Mathlib.Tactic.Ring

/-!
# What rebalancing does to a configuration

`assignVoidShards` gives every shard without a group to a listed group and leaves the
others alone (`assignVoidShards_shards`).  The loop of `redistributeShards` has no bound
in the source; every turn takes a shard from a group with at least two more than the group
that gets it, so the sum of the squares of the counts goes down (`potential_moveShard`)
and the loop ends (`redistribute_spec`).
-/

namespace ShardRaft.Ctrler

theorem coe_sortInts (keys : Multiset Int) : (sortInts keys : Multiset Int) = keys := by
  induction keys using Quotient.inductionOn with
  | h l => exact Multiset.coe_eq_coe.mpr (List.perm_insertionSort (· ≤ ·) l)

theorem perm_getSortedKeys (groups : Groups) :
    (getSortedKeys groups : Multiset Int) = groups.keys.val :=
  coe_sortInts _

theorem mem_getSortedKeys {groups : Groups} {g : Int} : g ∈ getSortedKeys groups ↔ g ∈ groups := by
  rw [← Multiset.mem_coe, perm_getSortedKeys]
  exact Finmap.mem_keys

theorem nodup_getSortedKeys (groups : Groups) : (getSortedKeys groups).Nodup := by
  rw [← Multiset.coe_nodup, perm_getSortedKeys]
  exact groups.keys.nodup

theorem getSortedKeys_ne_nil {groups : Groups} {g : Int} (h : g ∈ groups) :
    (getSortedKeys groups).length ≠ 0 := by
  intro h0
  have hg := mem_getSortedKeys.mpr h
  rw [List.length_eq_zero_iff.mp h0] at hg
  exact absurd hg List.not_mem_nil

theorem exists_mem_of_ne_empty {groups : Groups} (h : groups ≠ ∅) : ∃ g, g ∈ groups := by
  by_contra hnone
  refine h (Finmap.ext_lookup fun g => ?_)
  rw [Finmap.lookup_empty, Finmap.lookup_eq_none]
  exact fun hg => hnone ⟨g, hg⟩

namespace Config

/-! ## `assignVoidShards` -/

/-- The loop of `assignVoidShards` on the shards of `l`: the void ones are dealt out to the
keys in turn, from the key it is at. -/
theorem assignVoidShard_deals {keys : List Int} :
    ∀ (l : List (Fin NShards)) (acc : (Fin NShards → Int) × Nat), l.Nodup → acc.2 < keys.length →
      ∀ sid, (l.foldl (assignVoidShard keys) acc).1 sid =
        if sid ∈ l.filter (fun k => decide (acc.1 k ≤ 0)) then
          (keys[(acc.2 + (l.filter fun k => decide (acc.1 k ≤ 0)).idxOf sid) % keys.length]?).getD 0
        else acc.1 sid := by
  intro l
  induction l with
  | nil => intro acc _ _ sid; rfl
  | cons k l ih =>
    intro acc hnd hlt sid
    obtain ⟨hk, hnd'⟩ := List.nodup_cons.mp hnd
    rw [List.foldl_cons]
    by_cases hv : acc.1 k ≤ 0
    · have hlt' : (acc.2 + 1) % keys.length < keys.length := Nat.mod_lt _ (by omega)
      -- the later shards are as void as they were
      have hsame : (l.filter fun j =>
            decide (Function.update acc.1 k ((keys[acc.2]?).getD 0) j ≤ 0)) =
          l.filter fun j => decide (acc.1 j ≤ 0) := by
        refine List.filter_congr fun j hj => ?_
        rw [Function.update_of_ne fun h : j = k => hk (h ▸ hj)]
      rw [assignVoidShard, if_pos hv, ih _ hnd' hlt', List.filter_cons_of_pos (by simpa using hv)]
      simp only [hsame]
      by_cases hs : sid = k
      · subst hs
        have hnot : sid ∉ l.filter fun j => decide (acc.1 j ≤ 0) := fun h =>
          hk (List.mem_of_mem_filter h)
        rw [if_neg hnot, if_pos (List.mem_cons_self ..), List.idxOf_cons_self, Nat.add_zero,
          Nat.mod_eq_of_lt hlt, Function.update_self]
      · have hmem : (sid ∈ k :: l.filter fun j => decide (acc.1 j ≤ 0)) ↔
            sid ∈ l.filter fun j => decide (acc.1 j ≤ 0) := by
          rw [List.mem_cons, or_iff_right hs]
        rw [List.idxOf_cons_ne _ (Ne.symm hs), Function.update_of_ne hs, Nat.mod_add_mod,
          Nat.add_assoc, Nat.add_comm 1]
        simp only [hmem, Nat.succ_eq_add_one]
    · rw [assignVoidShard, if_neg hv, ih acc hnd' hlt, List.filter_cons_of_neg (by simpa using hv)]

@[simp] theorem assignVoidShards_num (config : Config) : config.assignVoidShards.num = config.num := by
  simp only [assignVoidShards]
  split <;> rfl

@[simp] theorem assignVoidShards_groups (config : Config) :
    config.assignVoidShards.groups = config.groups := by
  simp only [assignVoidShards]
  split <;> rfl

/-- **A void shard goes to a listed group, and no other shard changes.** -/
theorem assignVoidShards_shards {config : Config} {g : Int} (h : g ∈ config.groups)
    (sid : Fin NShards) :
    (config.shards sid ≤ 0 ∧ config.assignVoidShards.shards sid ∈ config.groups) ∨
      (0 < config.shards sid ∧ config.assignVoidShards.shards sid = config.shards sid) := by
  have hne := getSortedKeys_ne_nil h
  simp only [assignVoidShards, if_neg hne]
  rw [assignVoidShard_deals _ _ (List.nodup_finRange _) (Nat.pos_of_ne_zero hne)]
  by_cases hv : config.shards sid ≤ 0
  · refine .inl ⟨hv, ?_⟩
    rw [if_pos (List.mem_filter.mpr ⟨List.mem_finRange sid, decide_eq_true hv⟩),
      List.getElem?_eq_getElem (Nat.mod_lt _ (Nat.pos_of_ne_zero hne)), Option.getD_some]
    exact mem_getSortedKeys.mp (List.getElem_mem _)
  · refine .inr ⟨not_le.mp hv, if_neg fun hm => hv ?_⟩
    exact of_decide_eq_true (List.mem_filter.mp hm).2

theorem assignVoidShards_of_empty {config : Config} (h : config.groups = ∅) :
    config.assignVoidShards = config := by
  have hnil : getSortedKeys config.groups = [] := by
    rw [h]
    exact List.eq_nil_iff_forall_not_mem.mpr fun g hg =>
      absurd (mem_getSortedKeys.mp hg) Finmap.notMem_empty
  simp only [assignVoidShards, hnil, List.length_nil, if_true]

/-! ## `getMinMaxGroup` -/

/-- What is known after the groups of `l`: bounds, and who attains them. -/
structure MinMax.Of (config : Config) (l : List Int) (m : MinMax) : Prop where
  le_max : ∀ g ∈ l, (config.count g : Int) ≤ m.max
  min_le : ∀ g ∈ l, m.min ≤ (config.count g : Int)
  max_nonneg : 0 ≤ m.max
  maxGroup : 0 < m.max → m.maxGroup ∈ l ∧ (config.count m.maxGroup : Int) = m.max
  minGroup : m.min < 257 → m.minGroup ∈ l ∧ (config.count m.minGroup : Int) = m.min

theorem minMaxStep_of {config : Config} {l : List Int} {m : MinMax} (h : m.Of config l) (g : Int) :
    (config.minMaxStep m g).Of config (l ++ [g]) := by
  have hl : ∀ g' ∈ l, g' ∈ l ++ [g] := fun _ => List.mem_append_left _
  have hg : g ∈ l ++ [g] := List.mem_append_right _ (List.mem_singleton_self g)
  have hcases : ∀ g' ∈ l ++ [g], g' ∈ l ∨ g' = g := by
    intro g' hm
    simpa using hm
  have hmax := h.le_max
  have hmin := h.min_le
  have hpos := h.max_nonneg
  simp only [minMaxStep]
  -- four cases: `g` is a new maximum or not, a new minimum or not
  split <;> split <;> constructor <;> grind [MinMax.Of]

/-- **What `getMinMaxGroup` returns**, over the listed groups. -/
theorem getMinMaxGroup_of (config : Config) :
    config.getMinMaxGroup.Of config (getSortedKeys config.groups) := by
  have hfold : ∀ (l l' : List Int) (m : MinMax), m.Of config l' →
      (l.foldl config.minMaxStep m).Of config (l' ++ l) := by
    intro l
    induction l with
    | nil => intro l' m h; simpa using h
    | cons g l ih =>
      intro l' m h
      have hs := ih (l' ++ [g]) (config.minMaxStep m g) (minMaxStep_of h g)
      simpa using hs
  exact hfold _ [] _ ⟨by simp, by simp, le_refl 0, by simp, by simp⟩

/-! ## Counting -/

theorem count_eq_sum (config : Config) (g : Int) :
    config.count g = ∑ k, if config.shards k = g then 1 else 0 := by
  have hcount : ∀ l : List (Fin NShards), (l.countP fun k => decide (config.shards k = g)) =
      (l.map fun k => if config.shards k = g then 1 else 0).sum := by
    intro l
    induction l with
    | nil => rfl
    | cons k l ih => rw [List.countP_cons, List.map_cons, List.sum_cons, ih]; simp [Nat.add_comm]
  rw [count, hcount, ← Fin.sum_univ_def]

/-- One shard changes hands: its old group has one less, its new group one more. -/
theorem count_update (config : Config) (k : Fin NShards) (b g : Int) :
    { config with shards := Function.update config.shards k b }.count g +
        (if config.shards k = g then 1 else 0) =
      config.count g + (if b = g then 1 else 0) := by
  rw [count_eq_sum, count_eq_sum, ← Finset.add_sum_erase _ _ (Finset.mem_univ k),
    ← Finset.add_sum_erase Finset.univ (fun k => if config.shards k = g then 1 else 0)
      (Finset.mem_univ k)]
  have hrest : ∑ x ∈ Finset.univ.erase k,
      (if Function.update config.shards k b x = g then 1 else 0) =
      ∑ x ∈ Finset.univ.erase k, (if config.shards x = g then 1 else 0) := by
    refine Finset.sum_congr rfl fun x hx => ?_
    rw [Function.update_of_ne (Finset.ne_of_mem_erase hx)]
  simp only [Function.update_self]
  rw [hrest]
  omega

theorem sum_count_le (config : Config) (keys : Finset Int) :
    ∑ g ∈ keys, config.count g ≤ NShards := by
  calc ∑ g ∈ keys, config.count g
      = ∑ g ∈ keys, ∑ k, (if config.shards k = g then 1 else 0) :=
        Finset.sum_congr rfl fun g _ => config.count_eq_sum g
    _ = ∑ k, ∑ g ∈ keys, (if config.shards k = g then 1 else 0) := Finset.sum_comm
    _ ≤ ∑ _k : Fin NShards, 1 := by
        refine Finset.sum_le_sum fun k _ => ?_
        rw [Finset.sum_ite_eq]
        split <;> omega
    _ = NShards := by simp

theorem count_le (config : Config) (g : Int) : config.count g ≤ NShards := by
  have h := config.sum_count_le {g}
  rwa [Finset.sum_singleton] at h

/-! ## `redistributeShards` -/

/-- The sum of the squares of the counts of the listed groups. -/
def potential (config : Config) : Nat := ∑ g ∈ config.groups.keys, config.count g ^ 2

theorem potential_le (config : Config) : config.potential ≤ NShards * NShards := by
  calc config.potential
      ≤ ∑ g ∈ config.groups.keys, NShards * config.count g := by
        refine Finset.sum_le_sum fun g _ => ?_
        rw [pow_two]
        exact Nat.mul_le_mul_right _ (config.count_le g)
    _ = NShards * ∑ g ∈ config.groups.keys, config.count g := (Finset.mul_sum ..).symm
    _ ≤ NShards * NShards := Nat.mul_le_mul_left _ (config.sum_count_le _)

/-- What the loop of `redistributeShards` may do: shards of listed groups go to listed groups. -/
structure Moved (config config' : Config) : Prop where
  num : config'.num = config.num
  groups : config'.groups = config.groups
  shards : ∀ sid, config'.shards sid = config.shards sid ∨
    (config.shards sid ∈ config.groups ∧ config'.shards sid ∈ config.groups)

theorem Moved.refl (config : Config) : Moved config config := ⟨rfl, rfl, fun _ => .inl rfl⟩

theorem Moved.trans {a b c : Config} (h : Moved a b) (h' : Moved b c) : Moved a c := by
  refine ⟨h'.num.trans h.num, h'.groups.trans h.groups, fun sid => ?_⟩
  have hs' := h'.shards sid
  rw [h.groups] at hs'
  rcases h.shards sid with he | he
  · rwa [he] at hs'
  · rcases hs' with he' | he'
    · exact .inr ⟨he.1, he' ▸ he.2⟩
    · exact .inr ⟨he.1, he'.2⟩

section Turn

variable {config : Config} {a b : Int}

theorem exists_moveShard_first (h : 0 < config.count a) :
    ∃ k, config.shards k = a ∧ (∀ j < k, config.shards j ≠ a) ∧
      config.moveShard a b = { config with shards := Function.update config.shards k b } := by
  obtain ⟨k, _, hk⟩ := List.countP_pos_iff.mp h
  cases hf : (List.finRange NShards).find? fun k => decide (config.shards k = a) with
  | none =>
    exact absurd hk (List.find?_eq_none.mp hf k (List.mem_finRange k))
  | some k' =>
    obtain ⟨hk', i, hi, hik, hbefore⟩ := List.find?_eq_some_iff_getElem.mp hf
    refine ⟨k', by simpa using hk', fun j hj => ?_, ?_⟩
    · have hji : j.val < i := by
        have hval : k'.val = i := by rw [← hik]; simp
        have hlt : j.val < k'.val := hj
        omega
      simpa using hbefore j.val hji
    · simp only [moveShard, hf]

theorem exists_moveShard (h : 0 < config.count a) :
    ∃ k, config.shards k = a ∧
      config.moveShard a b = { config with shards := Function.update config.shards k b } := by
  obtain ⟨k, hk, -, he⟩ := exists_moveShard_first (b := b) h
  exact ⟨k, hk, he⟩

/-- A shard that goes from a group to one with at least two less lowers the potential. -/
theorem potential_moveShard (ha : a ∈ config.groups) (hb : b ∈ config.groups)
    (hab : config.count b + 2 ≤ config.count a) :
    (config.moveShard a b).potential < config.potential := by
  have hpos : 0 < config.count a := by omega
  obtain ⟨k, hk, he⟩ := exists_moveShard (b := b) hpos
  have hne : b ≠ a := by
    rintro rfl
    omega
  have hcount := config.count_update k b
  rw [← he] at hcount
  have hgroups : (config.moveShard a b).groups = config.groups := by rw [he]
  have ha' : a ∈ config.groups.keys := Finmap.mem_keys.mpr ha
  have hb' : b ∈ config.groups.keys.erase a :=
    Finset.mem_erase.mpr ⟨hne, Finmap.mem_keys.mpr hb⟩
  rw [potential, potential, hgroups, ← Finset.add_sum_erase _ _ ha', ← Finset.add_sum_erase _ _ hb',
    ← Finset.add_sum_erase config.groups.keys (fun g => config.count g ^ 2) ha',
    ← Finset.add_sum_erase (config.groups.keys.erase a) (fun g => config.count g ^ 2) hb']
  have hrest : ∑ g ∈ (config.groups.keys.erase a).erase b, (config.moveShard a b).count g ^ 2 =
      ∑ g ∈ (config.groups.keys.erase a).erase b, config.count g ^ 2 := by
    refine Finset.sum_congr rfl fun g hg => ?_
    have hgb := Finset.ne_of_mem_erase hg
    have hga := Finset.ne_of_mem_erase (Finset.mem_of_mem_erase hg)
    have hg' := hcount g
    rw [hk, if_neg hga.symm, if_neg hgb.symm] at hg'
    exact congrArg (· ^ 2) hg'
  have hca := hcount a
  rw [hk, if_pos rfl, if_neg hne] at hca
  have hcb := hcount b
  rw [hk, if_neg hne.symm, if_pos rfl] at hcb
  rw [hrest]
  nlinarith

end Turn

/-- The counts of two listed groups never differ by more than one. -/
def Balanced (config : Config) : Prop :=
  ∀ g ∈ config.groups, ∀ g' ∈ config.groups, config.count g ≤ config.count g' + 1

/-- A gap of more than one is attained: both groups of a turn are listed. -/
theorem minMaxGroup_of_gap {config : Config}
    (hgap : config.getMinMaxGroup.max - config.getMinMaxGroup.min > 1) :
    (config.getMinMaxGroup.maxGroup ∈ config.groups ∧
      (config.count config.getMinMaxGroup.maxGroup : Int) = config.getMinMaxGroup.max) ∧
    (config.getMinMaxGroup.minGroup ∈ config.groups ∧
      (config.count config.getMinMaxGroup.minGroup : Int) = config.getMinMaxGroup.min) := by
  have hm := config.getMinMaxGroup_of
  have hmin : config.getMinMaxGroup.min < 257 := by
    by_contra hmin
    have hmax := hm.maxGroup (by omega)
    have hle := config.count_le config.getMinMaxGroup.maxGroup
    rw [NShards] at hle
    omega
  obtain ⟨hb, hcb⟩ := hm.minGroup hmin
  obtain ⟨ha, hca⟩ := hm.maxGroup (by omega)
  exact ⟨⟨mem_getSortedKeys.mp ha, hca⟩, mem_getSortedKeys.mp hb, hcb⟩

/-- What every turn keeps, the loop keeps. -/
theorem redistributeLoop_invariant {P : Config → Prop}
    (hturn : ∀ config, P config → config.getMinMaxGroup.max - config.getMinMaxGroup.min > 1 →
      P (config.moveShard config.getMinMaxGroup.maxGroup config.getMinMaxGroup.minGroup))
    {fuel : Nat} {config config' : Config} (hrun : redistributeLoop fuel config = some config')
    (h : P config) : P config' := by
  induction fuel generalizing config with
  | zero => exact absurd hrun (by simp [redistributeLoop])
  | succ fuel ih =>
    simp only [redistributeLoop] at hrun
    by_cases hgap : config.getMinMaxGroup.max - config.getMinMaxGroup.min > 1
    · rw [if_pos hgap] at hrun
      exact ih hrun (hturn config h hgap)
    · rw [if_neg hgap] at hrun
      rw [← Option.some.inj hrun]
      exact h

/-! ## The turns of the loop -/

/-- One turn of the loop of `redistributeShards`. -/
def turn (config : Config) : Config :=
  config.moveShard config.getMinMaxGroup.maxGroup config.getMinMaxGroup.minGroup

/-- What a turn of the loop is: its two groups are listed and differ, the inner loop finds
the first shard of `maxGroup`, and this shard alone changes hands. -/
structure IsTurn (config next : Config) : Prop where
  gap : config.getMinMaxGroup.max - config.getMinMaxGroup.min > 1
  maxGroup : config.getMinMaxGroup.maxGroup ∈ config.groups
  minGroup : config.getMinMaxGroup.minGroup ∈ config.groups
  distinct : config.getMinMaxGroup.maxGroup ≠ config.getMinMaxGroup.minGroup
  num : next.num = config.num
  groups : next.groups = config.groups
  shard : ∃ k, config.shards k = config.getMinMaxGroup.maxGroup ∧
    (∀ j < k, config.shards j ≠ config.getMinMaxGroup.maxGroup) ∧
    next.shards k = config.getMinMaxGroup.minGroup ∧
    ∀ j, next.shards j ≠ config.shards j ↔ j = k

theorem isTurn_turn {config : Config}
    (hgap : config.getMinMaxGroup.max - config.getMinMaxGroup.min > 1) :
    IsTurn config config.turn := by
  obtain ⟨⟨ha, hca⟩, hb, hcb⟩ := minMaxGroup_of_gap hgap
  have hne : config.getMinMaxGroup.maxGroup ≠ config.getMinMaxGroup.minGroup := by
    intro heq
    rw [heq] at hca
    omega
  obtain ⟨k, hk, hfirst, he⟩ := exists_moveShard_first (b := config.getMinMaxGroup.minGroup)
    (show 0 < config.count config.getMinMaxGroup.maxGroup by omega)
  have hturn : config.turn =
      { config with shards := Function.update config.shards k config.getMinMaxGroup.minGroup } := he
  refine ⟨hgap, ha, hb, hne, by rw [hturn], by rw [hturn], k, hk, hfirst, ?_, fun j => ?_⟩
  · rw [hturn]
    exact Function.update_self ..
  · rw [hturn]
    by_cases hj : j = k
    · subst hj
      simp only [Function.update_self, hk, iff_true]
      exact hne.symm
    · simp only [Function.update_of_ne hj, hj, ne_eq, not_true_eq_false]

theorem potential_turn {config : Config}
    (hgap : config.getMinMaxGroup.max - config.getMinMaxGroup.min > 1) :
    config.turn.potential < config.potential := by
  obtain ⟨⟨ha, hca⟩, hb, hcb⟩ := minMaxGroup_of_gap hgap
  exact potential_moveShard ha hb (by omega)

/-- The loop takes some number of turns, at most `potential`: with more fuel than that it
returns what they make of the configuration, and with less it does not return. -/
theorem redistributeLoop_turns (config : Config) :
    ∃ n ≤ config.potential, (∀ i < n, IsTurn (turn^[i] config) (turn^[i + 1] config)) ∧
      (turn^[n] config).getMinMaxGroup.max - (turn^[n] config).getMinMaxGroup.min ≤ 1 ∧
      ∀ fuel, redistributeLoop fuel config = if n < fuel then some (turn^[n] config) else none := by
  induction hp : config.potential using Nat.strong_induction_on generalizing config with
  | _ p ih =>
    by_cases hgap : config.getMinMaxGroup.max - config.getMinMaxGroup.min > 1
    · have hless := potential_turn hgap
      obtain ⟨n, hn, hturns, hend, hloop⟩ := ih _ (hp ▸ hless) config.turn rfl
      refine ⟨n + 1, by omega, fun i hi => ?_, hend, fun fuel => ?_⟩
      · cases i with
        | zero => exact isTurn_turn hgap
        | succ i => exact hturns i (by omega)
      · cases fuel with
        | zero => rfl
        | succ fuel =>
          have hsucc : redistributeLoop (fuel + 1) config = redistributeLoop fuel config.turn := by
            simp only [redistributeLoop, if_pos hgap, turn]
          rw [hsucc, hloop fuel, Function.iterate_succ_apply]
          simp only [Nat.add_lt_add_iff_right]
    · refine ⟨0, Nat.zero_le _, fun i hi => absurd hi (Nat.not_lt_zero i), not_lt.mp hgap,
        fun fuel => ?_⟩
      cases fuel with
      | zero => rfl
      | succ fuel =>
        simp only [redistributeLoop, if_neg hgap, if_pos (Nat.succ_pos fuel), Function.iterate_zero_apply]

theorem IsTurn.moved {config next : Config} (h : IsTurn config next) : Moved config next := by
  obtain ⟨k, hk, -, hk', honly⟩ := h.shard
  refine ⟨h.num, h.groups, fun sid => ?_⟩
  by_cases hs : sid = k
  · subst hs
    exact .inr ⟨hk ▸ h.maxGroup, hk' ▸ h.minGroup⟩
  · exact .inl (not_not.mp fun hne => hs ((honly sid).mp hne))

theorem moved_turns {config : Config} {n : Nat}
    (h : ∀ i < n, IsTurn (turn^[i] config) (turn^[i + 1] config)) :
    Moved config (turn^[n] config) := by
  induction n with
  | zero => exact .refl config
  | succ n ih => exact (ih fun i hi => h i (by omega)).trans (h n (by omega)).moved

theorem redistributeLoop_spec {fuel : Nat} {config : Config} (h : config.potential < fuel) :
    ∃ config', redistributeLoop fuel config = some config' ∧ Moved config config' ∧
      config'.Balanced := by
  obtain ⟨n, hn, hturns, hend, hloop⟩ := config.redistributeLoop_turns
  have hmoved := moved_turns hturns
  refine ⟨turn^[n] config, by rw [hloop, if_pos (by omega)], hmoved, fun g hg g' hg' => ?_⟩
  have hm := (turn^[n] config).getMinMaxGroup_of
  have hle := hm.le_max g (mem_getSortedKeys.mpr hg)
  have hge := hm.min_le g' (mem_getSortedKeys.mpr hg')
  omega

/-- **`redistributeShards` terminates.**  Whatever the groups and the shards are, the loop
takes `n` turns and no more, and in each of them one shard changes hands between two
different listed groups. -/
theorem redistributeShards_terminates (config : Config) :
    ∃ n, config.redistributeShards = some (turn^[n] config) ∧
      (∀ fuel, redistributeLoop fuel config = if n < fuel then some (turn^[n] config) else none) ∧
      (∀ i < n, IsTurn (turn^[i] config) (turn^[i + 1] config)) ∧
      (turn^[n] config).getMinMaxGroup.max - (turn^[n] config).getMinMaxGroup.min ≤ 1 := by
  obtain ⟨n, hn, hturns, hend, hloop⟩ := config.redistributeLoop_turns
  have hbound := config.potential_le
  refine ⟨n, ?_, hloop, hturns, hend⟩
  rw [redistributeShards, hloop, if_pos (by omega)]

/-- **`redistributeShards` returns**, with shards moved among the listed groups only. -/
theorem redistribute_spec (config : Config) :
    ∃ config', config.redistribute = some config' ∧ Moved config config' ∧ config'.Balanced := by
  simp only [redistribute]
  split
  · exact redistributeLoop_spec (Nat.lt_succ_of_le config.potential_le)
  · next hcard =>
    refine ⟨config, rfl, .refl config, fun g hg g' hg' => ?_⟩
    have heq := Finset.card_le_one.mp (not_lt.mp hcard) g (Finmap.mem_keys.mpr hg) g'
      (Finmap.mem_keys.mpr hg')
    rw [heq]
    omega

/-- **Rebalancing.**  From any shards that are void or at a listed group, every shard ends
at a listed group, and no two groups differ by more than one shard. -/
theorem assignVoidShards_redistribute (config : Config) (hne : config.groups ≠ ∅)
    (hshards : ∀ sid, config.shards sid ≤ 0 ∨ config.shards sid ∈ config.groups) :
    ∃ config', config.assignVoidShards.redistribute = some config' ∧
      config'.groups = config.groups ∧ config'.num = config.num ∧
      (∀ sid, config'.shards sid ∈ config'.groups) ∧
      ∀ g ∈ config'.groups, ∀ g' ∈ config'.groups,
        |(config'.count g : Int) - config'.count g'| ≤ 1 := by
  obtain ⟨g, hg⟩ := exists_mem_of_ne_empty hne
  obtain ⟨config', he, hmoved, hbal⟩ := config.assignVoidShards.redistribute_spec
  have hgroups : config'.groups = config.groups :=
    hmoved.groups.trans config.assignVoidShards_groups
  refine ⟨config', he, hgroups, hmoved.num.trans config.assignVoidShards_num, ?_, ?_⟩
  · intro sid
    have hassigned : config.assignVoidShards.shards sid ∈ config.groups := by
      rcases assignVoidShards_shards hg sid with ⟨-, h⟩ | ⟨hpos, h⟩
      · exact h
      · rw [h]
        exact (hshards sid).resolve_left (not_le.mpr hpos)
    rw [hgroups]
    rcases hmoved.shards sid with h | ⟨-, h⟩
    · rw [h]
      exact hassigned
    · exact config.assignVoidShards_groups ▸ h
  · intro g hg g' hg'
    have h := hbal g hg g' hg'
    have h' := hbal g' hg' g hg
    rw [abs_le]
    omega

/-- Three groups, two void shards, and all other shards at one group. -/
def skewed : Config where
  num := 4
  shards k := if k.val < 2 then 0 else 5
  groups := Groups.ofList [(5, ["a"]), (2, ["b"]), (9, [])]

theorem skewed_rebalanced :
    ∃ config', skewed.assignVoidShards.redistribute = some config' ∧
      config'.groups = skewed.groups ∧ config'.num = 4 ∧
      (∀ sid, config'.shards sid ∈ config'.groups) ∧
      ∀ g ∈ config'.groups, ∀ g' ∈ config'.groups,
        |(config'.count g : Int) - config'.count g'| ≤ 1 :=
  assignVoidShards_redistribute skewed (by decide) (by decide)

end Config

end ShardRaft.Ctrler
