import Mathlib.Data.List.Nodup
import Mathlib.Data.List.TakeWhile

/-!
# Grouping by key

A *grouping* of a list names every key of it once and has with each key the values that
belong to it, in some order.  Two ways to compute one agree up to the order of the groups and
of the values in a group (`Grouping.exists_perm`, `Grouping.map_perm`), and the groupings of
the buckets of a list make up one of the list (`Grouping.buckets`).

`runs` cuts a list where the key changes.  On a list that is sorted by key this is a grouping
(`grouping_runs`).
-/

namespace ShardRaft.Lib

variable {α β κ γ : Type} [DecidableEq κ] {key : α → κ} {val : α → β}

/-- Every key of `l` once, with its values in some order. -/
structure Grouping (key : α → κ) (val : α → β) (l : List α) (G : List (κ × List β)) : Prop where
  nodup : (G.map Prod.fst).Nodup
  keys : ∀ k, k ∈ G.map Prod.fst ↔ k ∈ l.map key
  values : ∀ g ∈ G, g.2.Perm ((l.filter fun a => key a = g.1).map val)

namespace Grouping

variable {l l' : List α} {G G' : List (κ × List β)}

theorem congr (h : Grouping key val l G) (hp : l.Perm l') : Grouping key val l' G where
  nodup := h.nodup
  keys k := (h.keys k).trans (hp.map key).mem_iff
  values g hg := (h.values g hg).trans ((hp.filter _).map val)

theorem exists_perm (h : Grouping key val l G) (h' : Grouping key val l G') :
    ∀ g ∈ G, ∃ g' ∈ G', g'.1 = g.1 ∧ g.2.Perm g'.2 := by
  intro g hg
  have hk : g.1 ∈ G'.map Prod.fst :=
    (h'.keys g.1).mpr ((h.keys g.1).mp (List.mem_map_of_mem hg))
  obtain ⟨g', hg', heq⟩ := List.mem_map.mp hk
  refine ⟨g', hg', heq, (h.values g hg).trans ?_⟩
  rw [← heq]
  exact (h'.values g' hg').symm

/-- **What does not look at the order of the values** is the same for both. -/
theorem map_perm (h : Grouping key val l G) (h' : Grouping key val l G') {f : κ × List β → γ}
    (hf : ∀ k vs vs', vs.Perm vs' → f (k, vs) = f (k, vs')) : (G.map f).Perm (G'.map f) := by
  have hcanon : ∀ {G}, Grouping key val l G →
      G.map f = (G.map Prod.fst).map fun k => f (k, (l.filter fun a => key a = k).map val) := by
    intro G h
    rw [List.map_map]
    exact List.map_congr_left fun g hg => hf g.1 g.2 _ (h.values g hg)
  rw [hcanon h, hcanon h']
  refine List.Perm.map _ ((List.perm_ext_iff_of_nodup h.nodup h'.nodup).mpr fun k => ?_)
  rw [h.keys, h'.keys]

/-- **A list may be grouped bucket by bucket.** -/
theorem buckets {n : Nat} {bucket : κ → Nat} (hb : ∀ k, bucket k < n)
    {G : Nat → List (κ × List β)}
    (h : ∀ r < n, Grouping key val (l.filter fun a => bucket (key a) = r) (G r)) :
    Grouping key val l ((List.range n).flatMap G) := by
  have hkey : ∀ r < n, ∀ k, k ∈ (G r).map Prod.fst ↔ k ∈ l.map key ∧ bucket k = r := by
    intro r hr k
    rw [(h r hr).keys k]
    simp only [List.mem_map, List.mem_filter, decide_eq_true_eq]
    constructor
    · rintro ⟨a, ⟨ha, hbk⟩, rfl⟩
      exact ⟨⟨a, ha, rfl⟩, hbk⟩
    · rintro ⟨⟨a, ha, rfl⟩, hbk⟩
      exact ⟨a, ⟨ha, hbk⟩, rfl⟩
  refine ⟨?_, fun k => ?_, fun g hg => ?_⟩
  · rw [List.map_flatMap, List.nodup_flatMap]
    refine ⟨fun r hr => (h r (List.mem_range.mp hr)).nodup, ?_⟩
    refine (List.nodup_range (n := n)).imp_of_mem fun {r s} hr hs hne => ?_
    intro k hk hk'
    have hr := ((hkey r (List.mem_range.mp hr) k).mp hk).2
    have hs := ((hkey s (List.mem_range.mp hs) k).mp hk').2
    exact hne (hr.symm.trans hs)
  · rw [List.map_flatMap, List.mem_flatMap]
    constructor
    · rintro ⟨r, hr, hk⟩
      exact ((hkey r (List.mem_range.mp hr) k).mp hk).1
    · intro hk
      exact ⟨bucket k, List.mem_range.mpr (hb k), (hkey _ (hb k) k).mpr ⟨hk, rfl⟩⟩
  · obtain ⟨r, hr, hg⟩ := List.mem_flatMap.mp hg
    have hr := List.mem_range.mp hr
    have hk := ((hkey r hr g.1).mp (List.mem_map_of_mem hg)).2
    refine ((h r hr).values g hg).trans (List.Perm.of_eq ?_)
    rw [List.filter_filter]
    congr 1
    refine List.filter_congr fun a _ => ?_
    by_cases heq : key a = g.1
    · simp [heq, hk]
    · simp [heq]

end Grouping

/-! ### Runs -/

/-- The list cut where the key changes. -/
def runs (key : α → κ) (val : α → β) : List α → List (κ × List β)
  | [] => []
  | a :: l =>
    (key a, (a :: l.takeWhile fun b => key b = key a).map val) ::
      runs key val (l.dropWhile fun b => key b = key a)
termination_by l => l.length
decreasing_by
  have := (l.dropWhile_sublist fun b => decide (key b = key a)).length_le
  simp only [List.length_cons]
  omega

/-- In a sorted list a key does not come back once it has changed. -/
theorem key_ne_of_mem_dropWhile {r : κ → κ → Prop} (hr : ∀ x y, r x y → r y x → x = y) {a : α}
    {l : List α} (hs : (a :: l).Pairwise fun b c => r (key b) (key c)) {b : α}
    (hb : b ∈ l.dropWhile fun c => key c = key a) : key b ≠ key a := by
  obtain ⟨ha, hs⟩ := List.pairwise_cons.mp hs
  have hsub := l.dropWhile_sublist fun c => decide (key c = key a)
  have hs := hs.sublist hsub
  cases hd : l.dropWhile fun c => key c = key a with
  | nil =>
    rw [hd] at hb
    exact absurd hb List.not_mem_nil
  | cons c rest =>
    have hc : key c ≠ key a := by
      have := List.head?_dropWhile_not (fun c => decide (key c = key a)) l
      rw [hd] at this
      simpa using this
    have hac : r (key a) (key c) := ha c (hsub.subset (by rw [hd]; exact List.mem_cons_self ..))
    rw [hd] at hb hs
    intro heq
    rcases List.mem_cons.mp hb with rfl | hb
    · exact hc heq
    · have hcb := (List.pairwise_cons.mp hs).1 b hb
      rw [heq] at hcb
      exact hc (hr _ _ hcb hac)

theorem filter_run {a : α} {t d : List α} (ht : ∀ b ∈ t, key b = key a)
    (hd : ∀ b ∈ d, key b ≠ key a) (k : κ) :
    (a :: (t ++ d)).filter (fun b => key b = k) =
      if k = key a then a :: t else d.filter fun b => key b = k := by
  by_cases hk : k = key a
  · have hta : t.filter (fun b => key b = k) = t :=
      List.filter_eq_self.mpr fun b hb => by simpa [hk] using ht b hb
    have hda : d.filter (fun b => key b = k) = [] :=
      List.filter_eq_nil_iff.mpr fun b hb => by simpa [hk] using hd b hb
    rw [if_pos hk, List.filter_cons_of_pos (by simp [hk]), List.filter_append, hta, hda,
      List.append_nil]
  · have hta : t.filter (fun b => key b = k) = [] :=
      List.filter_eq_nil_iff.mpr fun b hb => by simpa [ht b hb] using Ne.symm hk
    rw [if_neg hk, List.filter_cons_of_neg (by simpa using Ne.symm hk), List.filter_append, hta,
      List.nil_append]

theorem Grouping.cons {a : α} {t d : List α} {G : List (κ × List β)}
    (ht : ∀ b ∈ t, key b = key a) (hd : ∀ b ∈ d, key b ≠ key a) (h : Grouping key val d G) :
    Grouping key val (a :: (t ++ d)) ((key a, (a :: t).map val) :: G) := by
  have hnot : key a ∉ G.map Prod.fst := by
    rw [h.keys]
    intro hmem
    obtain ⟨b, hb, heq⟩ := List.mem_map.mp hmem
    exact hd b hb heq
  refine ⟨List.nodup_cons.mpr ⟨hnot, h.nodup⟩, fun k => ?_, fun g hg => ?_⟩
  · have htk : k ∈ t.map key → k = key a := by
      intro hk
      obtain ⟨b, hb, rfl⟩ := List.mem_map.mp hk
      exact ht b hb
    simp only [List.map_cons, List.map_append, List.mem_cons, List.mem_append, h.keys k]
    constructor
    · exact Or.imp_right .inr
    · rintro (hk | hk | hk)
      · exact .inl hk
      · exact .inl (htk hk)
      · exact .inr hk
  · rw [filter_run ht hd]
    rcases List.mem_cons.mp hg with rfl | hg
    · rw [if_pos rfl]
    · have hne : g.1 ≠ key a := fun heq => hnot (heq ▸ List.mem_map_of_mem hg)
      rw [if_neg hne]
      exact h.values g hg

/-- **The runs of a sorted list group it.** -/
theorem grouping_runs {r : κ → κ → Prop} (hr : ∀ x y, r x y → r y x → x = y) (l : List α)
    (hs : l.Pairwise fun a b => r (key a) (key b)) : Grouping key val l (runs key val l) := by
  induction l using runs.induct key with
  | case1 =>
    rw [runs]
    exact ⟨List.nodup_nil, fun _ => Iff.rfl, fun _ hg => absurd hg List.not_mem_nil⟩
  | case2 a l ih =>
    have hsub := l.dropWhile_sublist fun c => decide (key c = key a)
    have hrun : ∀ b ∈ l.takeWhile fun b => key b = key a, key b = key a :=
      fun b hb => by simpa using List.mem_takeWhile_imp hb
    have hrest := ih ((List.pairwise_cons.mp hs).2.sublist hsub)
    have hcons := Grouping.cons hrun (fun b => key_ne_of_mem_dropWhile hr hs) hrest
    rw [List.takeWhile_append_dropWhile] at hcons
    rw [runs]
    exact hcons

end ShardRaft.Lib
