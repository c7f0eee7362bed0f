import Mathlib.Data.List.Dedup
import Mathlib.Data.List.Perm.Basic
import Mathlib.Data.List.Sort
import ShardRaft.Lib.Marks

/-!
# Linearizability is local

Operations on objects that do not know of each other are linearizable if those on each object
are (`exists_serializes_iff`).

The orders for the objects are merged by the moments at which the operations take effect: an
operation takes effect as early as it may, when it and all in front of it have been called
(`stamps`).  That is before it returns, so the merged order respects time; and a stable sort
leaves the order for each object as it was.
-/

namespace ShardRaft.Lib

variable {α κ σ τ : Type}

section each

variable [DecidableEq κ]

/-- Many objects, each with its own state. -/
def each (key : α → κ) (step : σ → α → Option σ) (s : κ → σ) (x : α) : Option (κ → σ) :=
  (step (s (key x)) x).map (Function.update s (key x))

/-- The operations on one object. -/
def on (key : α → κ) (k : κ) (l : List α) : List α := l.filter fun x => key x = k

variable {key : α → κ} {step : σ → α → Option σ} {s : κ → σ} {l : List α}

theorem on_cons_self (x : α) : on key (key x) (x :: l) = x :: on key (key x) l :=
  List.filter_cons_of_pos (by simp)

theorem on_cons_of_ne {x : α} {k : κ} (h : k ≠ key x) : on key k (x :: l) = on key k l :=
  List.filter_cons_of_neg (by simpa using Ne.symm h)

/-- **Each object goes its own way.** -/
theorem runs_each_iff : Runs (each key step) s l ↔ ∀ k, Runs step (s k) (on key k l) := by
  induction l generalizing s with
  | nil => exact ⟨fun _ _ => trivial, fun _ => trivial⟩
  | cons x l ih =>
    constructor
    · rintro ⟨s', hs, hrun⟩ k
      obtain ⟨t, ht, rfl⟩ := Option.map_eq_some_iff.mp hs
      have hk := ih.mp hrun k
      by_cases h : k = key x
      · subst h
        rw [Function.update_self] at hk
        rw [on_cons_self]
        exact ⟨t, ht, hk⟩
      · rwa [Function.update_of_ne h, ← on_cons_of_ne h] at hk
    · intro h
      have hx := h (key x)
      rw [on_cons_self] at hx
      obtain ⟨t, ht, hrun⟩ := hx
      refine ⟨Function.update s (key x) t, Option.map_eq_some_iff.mpr ⟨t, ht, rfl⟩, ih.mpr ?_⟩
      intro k
      by_cases hk : k = key x
      · rwa [hk, Function.update_self]
      · rw [Function.update_of_ne hk, ← on_cons_of_ne hk]
        exact h k

theorem flatMap_on_perm : ∀ (keys : List κ) (l : List α), keys.Nodup → (∀ x ∈ l, key x ∈ keys) →
    (keys.flatMap fun k => on key k l).Perm l := by
  intro keys
  induction keys with
  | nil =>
    intro l _ hl
    have hnil : l = [] := List.eq_nil_iff_forall_not_mem.mpr fun x hx =>
      absurd (hl x hx) List.not_mem_nil
    rw [hnil]
    exact .nil
  | cons k keys ih =>
    intro l hn hl
    obtain ⟨hk, hn⟩ := List.nodup_cons.mp hn
    have hothers : ∀ k' ∈ keys, on key k' l = on key k' (l.filter fun x => !decide (key x = k)) := by
      intro k' hk'
      have hne : k' ≠ k := fun heq => hk (heq ▸ hk')
      unfold on
      rw [List.filter_filter]
      refine List.filter_congr fun x _ => ?_
      by_cases hx : key x = k'
      · simp [hx, hne]
      · simp [hx]
    have hperm := ih (l.filter fun x => !decide (key x = k)) hn <| by
      intro x hx
      obtain ⟨hmem, hne⟩ := List.mem_filter.mp hx
      exact (List.mem_cons.mp (hl x hmem)).resolve_left (by simpa using hne)
    rw [List.flatMap_cons, List.flatMap_congr hothers]
    exact (hperm.append_left _).trans (List.filter_append_perm _ l)

theorem on_eq_self {k : κ} (h : ∀ x ∈ l, key x = k) : on key k l = l :=
  List.filter_eq_self.mpr fun x hx => decide_eq_true (h x hx)

theorem on_eq_nil {k : κ} (h : ∀ x ∈ l, key x ≠ k) : on key k l = [] :=
  List.filter_eq_nil_iff.mpr fun x hx => by simpa using h x hx

/-- Of the operations of several objects, those on one of them. -/
theorem on_flatMap {orders : κ → List α} {k : κ} : ∀ {keys : List κ}, keys.Nodup → k ∈ keys →
    (∀ k, ∀ x ∈ orders k, key x = k) → on key k (keys.flatMap orders) = orders k := by
  intro keys
  induction keys with
  | nil => exact fun _ hk _ => absurd hk List.not_mem_nil
  | cons k' keys ih =>
    intro hn hk hkey
    obtain ⟨hk', hn⟩ := List.nodup_cons.mp hn
    rw [List.flatMap_cons, on, List.filter_append]
    rcases List.mem_cons.mp hk with rfl | hk
    · refine (congrArg₂ (· ++ ·) (on_eq_self (hkey k)) (on_eq_nil ?_)).trans (List.append_nil _)
      intro x hx heq
      obtain ⟨k₁, hk₁, hx⟩ := List.mem_flatMap.mp hx
      exact hk' (heq ▸ hkey k₁ x hx ▸ hk₁)
    · refine (congrArg₂ (· ++ ·) (on_eq_nil ?_) (ih hn hk hkey)).trans (List.nil_append _)
      intro x hx heq
      exact hk' (hkey k' x hx ▸ heq ▸ hk)

end each

section time

variable [LinearOrder τ] {call ret : α → τ}

variable (call ret) in
/-- No operation stands in front of one that had returned when it was called. -/
def InTime (l : List α) : Prop := l.Pairwise fun x y => ¬ ret y < call x

variable (call) in
/-- When the operations take effect: none before it is called, and none before those in front
of it. -/
def stamps : τ → List α → List (τ × α)
  | _, [] => []
  | t, x :: l => (max t (call x), x) :: stamps (max t (call x)) l

variable {t : τ} {l : List α}

theorem map_snd_stamps : (stamps call t l).map Prod.snd = l := by
  induction l generalizing t with
  | nil => rfl
  | cons x l ih => rw [stamps, List.map_cons, ih]

theorem le_of_mem_stamps {p : τ × α} (h : p ∈ stamps call t l) : t ≤ p.1 ∧ call p.2 ≤ p.1 := by
  induction l generalizing t with
  | nil => exact absurd h List.not_mem_nil
  | cons x l ih =>
    rcases List.mem_cons.mp h with rfl | h
    · exact ⟨le_max_left .., le_max_right ..⟩
    · obtain ⟨hle, hcall⟩ := ih h
      exact ⟨(le_max_left ..).trans hle, hcall⟩

theorem sorted_stamps : (stamps call t l).Pairwise fun p q => p.1 ≤ q.1 := by
  induction l generalizing t with
  | nil => exact .nil
  | cons x l ih => exact List.pairwise_cons.mpr ⟨fun p hp => (le_of_mem_stamps hp).1, ih⟩

theorem stamps_le_ret (htime : InTime call ret l) (hcall : ∀ x ∈ l, call x ≤ ret x)
    (ht : ∀ x ∈ l, t ≤ ret x) {p : τ × α} (h : p ∈ stamps call t l) : p.1 ≤ ret p.2 := by
  induction l generalizing t with
  | nil => exact absurd h List.not_mem_nil
  | cons x l ih =>
    obtain ⟨hfirst, htime⟩ := List.pairwise_cons.mp htime
    have hx := List.mem_cons_self (a := x) (l := l)
    rcases List.mem_cons.mp h with rfl | h
    · exact max_le (ht x hx) (hcall x hx)
    · refine ih htime (fun y hy => hcall y (List.mem_cons_of_mem _ hy)) ?_ h
      intro y hy
      exact max_le (ht y (List.mem_cons_of_mem _ hy)) (not_lt.mp (hfirst y hy))

theorem exists_moments (htime : InTime call ret l) (hcall : ∀ x ∈ l, call x ≤ ret x) :
    ∃ m : List (τ × α), m.map Prod.snd = l ∧ m.Pairwise (fun p q => p.1 ≤ q.1) ∧
      ∀ p ∈ m, call p.2 ≤ p.1 ∧ p.1 ≤ ret p.2 := by
  cases l with
  | nil => exact ⟨[], rfl, .nil, by simp⟩
  | cons x l =>
    refine ⟨stamps call (call x) (x :: l), map_snd_stamps, sorted_stamps, fun p hp => ?_⟩
    refine ⟨(le_of_mem_stamps hp).2, stamps_le_ret htime hcall ?_ hp⟩
    intro y hy
    rcases List.mem_cons.mp hy with rfl | hy
    · exact hcall y (List.mem_cons_self ..)
    · exact not_lt.mp ((List.pairwise_cons.mp htime).1 y hy)

variable [DecidableEq κ] {key : α → κ}

/-- **Merging** the orders for the objects. -/
theorem exists_merge {keys : List κ} {orders : κ → List α} (hn : keys.Nodup)
    (htime : ∀ k, InTime call ret (orders k)) (hcall : ∀ k, ∀ x ∈ orders k, call x ≤ ret x)
    (hkey : ∀ k, ∀ x ∈ orders k, key x = k) : ∃ l, l.Perm (keys.flatMap orders) ∧
      InTime call ret l ∧ ∀ k ∈ keys, on key k l = orders k := by
  choose m hm hsorted hbound using fun k => exists_moments (htime k) (hcall k)
  let merged := (keys.flatMap m).insertionSort fun p q => p.1 ≤ q.1
  have hperm : merged.Perm (keys.flatMap m) := List.perm_insertionSort ..
  have hmerged : merged.Pairwise fun p q => p.1 ≤ q.1 := List.pairwise_insertionSort ..
  have hmem : ∀ p ∈ merged, ∃ k, p ∈ m k := by
    intro p hp
    obtain ⟨k, -, hk⟩ := List.mem_flatMap.mp (hperm.mem_iff.mp hp)
    exact ⟨k, hk⟩
  refine ⟨merged.map Prod.snd, ?_, ?_, ?_⟩
  · have h := hperm.map Prod.snd
    rwa [List.map_flatMap, List.flatMap_congr fun k _ => hm k] at h
  · refine List.pairwise_map.mpr (hmerged.imp_of_mem ?_)
    intro p q hp hq hle hlt
    obtain ⟨k, hk⟩ := hmem p hp
    obtain ⟨k', hk'⟩ := hmem q hq
    have h₁ := (hbound k p hk).1
    have h₂ := (hbound k' q hk').2
    exact absurd hlt (not_lt.mpr (h₁.trans (hle.trans h₂)))
  · intro k hk
    -- the order for this object is in the merged one, and nothing else on it is
    have hsub : (orders k).Sublist (merged.map Prod.snd) := by
      have hmk : (m k).Sublist merged :=
        List.sublist_insertionSort (hsorted k)
          (List.sublist_flatten_of_mem (List.mem_map_of_mem hk))
      exact hm k ▸ hmk.map Prod.snd
    have hon := hsub.filter fun x => decide (key x = k)
    rw [List.filter_eq_self.mpr fun x hx => decide_eq_true (hkey k x hx)] at hon
    refine (hon.eq_of_length ?_).symm
    have h := hperm.map Prod.snd
    rw [List.map_flatMap, List.flatMap_congr fun k _ => hm k] at h
    have hlen := (h.filter fun x => decide (key x = k)).length_eq
    rw [hlen]
    exact congrArg List.length (on_flatMap hn hk hkey).symm

variable (call ret) in
/-- An order in which the operations of a history can have been carried out. -/
structure Serializes (step : σ → α → Option σ) (s : σ) (history l : List α) : Prop where
  perm : l.Perm history
  time : InTime call ret l
  runs : Runs step s l

/-- **Linearizability is local.** -/
theorem exists_serializes_iff {step : σ → α → Option σ} {s : κ → σ} {history : List α}
    (hcall : ∀ x ∈ history, call x ≤ ret x) :
    (∃ l, Serializes call ret (each key step) s history l) ↔
      ∀ k, ∃ l, Serializes call ret step (s k) (on key k history) l := by
  constructor
  · rintro ⟨l, hperm, htime, hruns⟩ k
    exact ⟨on key k l, hperm.filter _, htime.sublist List.filter_sublist, runs_each_iff.mp hruns k⟩
  · intro h
    choose orders horders using h
    have hkey : ∀ k, ∀ x ∈ orders k, key x = k := by
      intro k x hx
      have hmem := (horders k).perm.mem_iff.mp hx
      exact of_decide_eq_true (List.mem_filter.mp hmem).2
    have hcall' : ∀ k, ∀ x ∈ orders k, call x ≤ ret x := by
      intro k x hx
      exact hcall x (List.mem_filter.mp ((horders k).perm.mem_iff.mp hx)).1
    have hn : (history.map key).dedup.Nodup := List.nodup_dedup _
    obtain ⟨l, hperm, htime, hon⟩ := exists_merge hn (fun k => (horders k).time) hcall' hkey
    have hall : l.Perm history := by
      refine hperm.trans (List.Perm.trans (List.Perm.flatMap_left _ fun k _ => (horders k).perm) ?_)
      refine flatMap_on_perm _ _ hn fun x hx => ?_
      exact List.mem_dedup.mpr (List.mem_map_of_mem hx)
    refine ⟨l, hall, htime, runs_each_iff.mpr ?_⟩
    intro k
    by_cases hk : k ∈ (history.map key).dedup
    · rw [hon k hk]
      exact (horders k).runs
    · have hnil : on key k l = [] := by
        refine on_eq_nil fun x hx heq => hk ?_
        rw [List.mem_dedup, ← heq]
        exact List.mem_map_of_mem (hall.mem_iff.mp hx)
      rw [hnil]
      trivial

end time

end ShardRaft.Lib
