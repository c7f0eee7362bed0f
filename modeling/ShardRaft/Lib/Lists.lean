import Mathlib.Data.List.Basic
import Mathlib.Data.List.Forall2
import Mathlib.Order.Basic
import Mathlib.Tactic.Common

/-!
# Lists

The few facts about lists that Mathlib does not state in the form used here.
-/

namespace ShardRaft.Lib

variable {α β : Type}

theorem forall₂_of_mapM {f : α → Option β} :
    ∀ (l : List α) (l' : List β), l.mapM f = some l' →
      List.Forall₂ (fun a b => f a = some b) l l' := by
  intro l
  induction l with
  | nil =>
    intro l' h
    rw [List.mapM_nil] at h
    rw [← Option.some.inj h]
    exact .nil
  | cons a l ih =>
    intro l' h
    rw [List.mapM_cons] at h
    obtain ⟨b, hb, h⟩ := Option.bind_eq_some_iff.mp h
    obtain ⟨bs, hbs, h⟩ := Option.bind_eq_some_iff.mp h
    rw [← Option.some.inj h]
    exact .cons hb (ih bs hbs)

theorem exists_of_forall₂ {R : α → β → Prop} {l : List α} {l' : List β}
    (h : List.Forall₂ R l l') {b : β} (hb : b ∈ l') : ∃ a ∈ l, R a b := by
  induction h with
  | nil => exact absurd hb List.not_mem_nil
  | cons hab _ ih =>
    rcases List.mem_cons.mp hb with rfl | hb
    · exact ⟨_, List.mem_cons_self .., hab⟩
    · obtain ⟨a, ha, hR⟩ := ih hb
      exact ⟨a, List.mem_cons_of_mem _ ha, hR⟩

theorem pairwise_of_forall₂ {R : α → β → Prop} {P : α → α → Prop} {Q : β → β → Prop} {l : List α}
    {l' : List β} (h : List.Forall₂ R l l') (hp : l.Pairwise P)
    (hpq : ∀ a a' b b', R a b → R a' b' → P a a' → Q b b') : l'.Pairwise Q := by
  induction h with
  | nil => exact .nil
  | cons hab h ih =>
    obtain ⟨hhead, hp⟩ := List.pairwise_cons.mp hp
    refine List.pairwise_cons.mpr ⟨fun b' hb' => ?_, ih hp⟩
    obtain ⟨a', ha', hR⟩ := exists_of_forall₂ h hb'
    exact hpq _ a' _ b' hab hR (hhead a' ha')

theorem prefix_take_eq {l l' : List α} (h : l <+: l') {k : Nat} (hk : k ≤ l.length) :
    l'.take k = l.take k := by
  obtain ⟨t, rfl⟩ := h
  exact List.take_append_of_le_length hk

theorem take_drop_append_drop {l l' : List α} {b k : Nat} (hb : b ≤ k)
    (h : l.take k = l'.take k) : (l.drop b).take (k - b) ++ l'.drop k = l'.drop b := by
  have hk : l'.drop k = (l'.drop b).drop (k - b) := by
    rw [List.drop_drop]
    congr 1
    omega
  rw [← List.drop_take, h, List.drop_take, hk, List.take_append_drop]

theorem getElem?_of_prefix {l l' : List α} (h : l <+: l') {k : Nat} {a : α} (hk : l[k]? = some a) :
    l'[k]? = some a := by
  obtain ⟨t, rfl⟩ := h
  rw [List.getElem?_append_left (List.getElem?_eq_some_iff.mp hk).1, hk]

theorem prefix_modify {l l' : List α} (h : l <+: l') {k : Nat} (hk : l.length ≤ k) (f : α → α) :
    l <+: l'.modify k f := by
  refine List.prefix_iff_getElem?.mpr fun j hj => ?_
  rw [List.getElem?_modify_ne _ _ (by omega)]
  exact getElem?_of_prefix h (List.getElem?_eq_getElem hj)

theorem take_set_self {l : List α} {k : Nat} (hk : k < l.length) (a : α) :
    (l.set k a).take (k + 1) = l.take k ++ [a] := by
  rw [List.take_add_one, List.take_set_of_le (Nat.le_refl k), List.getElem?_set_self hk]
  rfl

theorem getElem?_concat {l : List α} {a b : α} {k : Nat} :
    (l ++ [a])[k]? = some b ↔ l[k]? = some b ∨ (k = l.length ∧ a = b) := by
  by_cases hlt : k < l.length
  · rw [List.getElem?_append_left hlt]
    exact ⟨.inl, fun h => h.elim id fun h => absurd h.1 (Nat.ne_of_lt hlt)⟩
  · rw [List.getElem?_append_right (by omega), List.getElem?_singleton,
      List.getElem?_eq_none (by omega)]
    by_cases hk : k = l.length
    · simp [hk]
    · rw [if_neg (by omega)]
      simp [hk]

theorem pairwise_splice {α : Type} [Preorder α] {l m : List α} {a : α} {k : Nat}
    (h : l.Pairwise (· ≤ ·)) (hk : l[k]? = some a) (hm : (a :: m).Pairwise (· ≤ ·)) :
    (l.take (k + 1) ++ m).Pairwise (· ≤ ·) := by
  have hcut : l.take (k + 1) = l.take k ++ [a] := by rw [List.take_add_one, hk]; rfl
  have hleft : (l.take k ++ [a]).Pairwise (· ≤ ·) := hcut ▸ h.sublist (List.take_sublist ..)
  obtain ⟨hfirst, hrest⟩ := List.pairwise_cons.mp hm
  rw [hcut, List.pairwise_append]
  refine ⟨hleft, hrest, fun x hx y hy => ?_⟩
  rcases List.mem_append.mp hx with hx | hx
  · exact ((List.pairwise_append.mp hleft).2.2 x hx a (List.mem_singleton_self a)).trans
      (hfirst y hy)
  · rw [List.mem_singleton.mp hx]
    exact hfirst y hy

theorem countP_eraseIdx {p : α → Bool} {a : α} :
    ∀ (l : List α) (k : Nat), l[k]? = some a →
      (l.eraseIdx k).countP p + (if p a then 1 else 0) = l.countP p := by
  intro l
  induction l with
  | nil => intro k h; exact absurd h (by simp)
  | cons b l ih =>
    intro k h
    cases k with
    | zero =>
      rw [List.getElem?_cons_zero] at h
      rw [Option.some.inj h, List.eraseIdx_cons_zero, List.countP_cons]
    | succ k =>
      rw [List.getElem?_cons_succ] at h
      rw [List.eraseIdx_cons_succ, List.countP_cons, List.countP_cons, ← ih k h]
      omega

theorem countP_filterMap_le {f : α → Option β} {p : β → Bool} {q : α → Bool}
    (h : ∀ a b, f a = some b → p b = true → q a = true) :
    ∀ l : List α, (l.filterMap f).countP p ≤ l.countP q := by
  intro l
  induction l with
  | nil => simp
  | cons a l ih =>
    rw [List.countP_cons]
    cases hf : f a with
    | none => rw [List.filterMap_cons_none hf]; omega
    | some b =>
      rw [List.filterMap_cons_some hf, List.countP_cons]
      by_cases hp : p b = true
      · rw [if_pos hp, if_pos (h a b hf hp)]; omega
      · rw [if_neg hp]; omega

/-- How a `range` visits a set: every element of it, once. -/
structure Visits (α : Type) where
  visit : List α → List α
  perm : ∀ set, (visit set).Perm set

end ShardRaft.Lib
