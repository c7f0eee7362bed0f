import Mathlib.Data.List.Nodup
import ShardRaft.Lib.Linearizable

/-!
# Linearization points

A history is linearizable if one can say of every call when it took effect.  A *point* is a
call with the time at which it did so, where the time is the number of moments that had
passed.

* `Points.linearizes`: points in the order of time, each after the invocation of its call and
  before the answer, give an order of the calls.
* `points`: the points that a log of operations gives, when only some places of the log take
  effect; `legal_points`: they are legal if the places that do not take effect change nothing.
-/

namespace ShardRaft.Lib

variable {α ι ω ρ σ : Type}

/-- The calls of `H` took effect at these times, in this order. -/
structure Points (H : List (Moment ι ω ρ)) (l : List (Taken ι ω ρ × Nat)) : Prop where
  once : (l.map fun x => x.1.id).Nodup
  sorted : l.Pairwise fun x y => x.2 ≤ y.2
  invoked : ∀ x ∈ l, ∃ k < x.2, H[k]? = some (.invoke x.1.id x.1.op)
  invoked_once : ∀ (k k' : Nat) i op op', H[k]? = some (.invoke i op) →
    H[k']? = some (.invoke i op') → k = k'
  answered : ∀ (k : Nat) i res, H[k]? = some (.respond i res) →
    ∃ x ∈ l, x.1.id = i ∧ x.1.res = res ∧ x.2 ≤ k

/-- **The order of the points is an order of the calls.** -/
theorem Points.linearizes {spec : σ → ω → σ × ρ} {s : σ} {H : List (Moment ι ω ρ)}
    {l : List (Taken ι ω ρ × Nat)} (h : Points H l) (hl : Legal spec s (l.map Prod.fst)) :
    Linearizes spec s H (l.map Prod.fst) where
  once := by
    rw [List.map_map]
    exact h.once
  invoked := by
    intro x hx
    obtain ⟨y, hy, rfl⟩ := List.mem_map.mp hx
    obtain ⟨k, -, hk⟩ := h.invoked y hy
    exact List.mem_of_getElem? hk
  answered := by
    intro i res hres
    obtain ⟨k, hk⟩ := List.mem_iff_getElem?.mp hres
    obtain ⟨x, hx, hid, hr, -⟩ := h.answered k i res hk
    exact ⟨x.1, List.mem_map_of_mem hx, hid, hr⟩
  legal := hl
  order := by
    rw [List.pairwise_map]
    refine h.sorted.imp_of_mem ?_
    rintro x y hx hy hxy ⟨k, k', res, op, hkk, hk, hk'⟩
    -- `y` took effect before its answer, and `x` after its invocation
    obtain ⟨z, hz, hid, -, hzk⟩ := h.answered k _ res hk
    obtain rfl : z = y := List.inj_on_of_nodup_map h.once hz hy hid
    obtain ⟨k₀, hk₀, hinv⟩ := h.invoked x hx
    obtain rfl := h.invoked_once k₀ k' _ _ _ hinv hk'
    omega

/-! ### The points of a log -/

section log

variable (effect : Nat → α → Prop) [∀ p a, Decidable (effect p a)]
  (point : Nat → α → Taken ι ω ρ × Nat)

/-- The point of one place of the log, if it takes effect. -/
def pointAt (log : List α) (p : Nat) : Option (Taken ι ω ρ × Nat) :=
  (log[p]?).bind fun a => if effect p a then some (point p a) else none

/-- The points of the log. -/
def points (log : List α) : List (Taken ι ω ρ × Nat) :=
  (List.range log.length).filterMap (pointAt effect point log)

variable {effect point} {log : List α}

theorem pointAt_eq_some {p : Nat} {x : Taken ι ω ρ × Nat} :
    pointAt effect point log p = some x ↔
      ∃ a, log[p]? = some a ∧ effect p a ∧ point p a = x := by
  unfold pointAt
  rw [Option.bind_eq_some_iff]
  refine exists_congr fun a => and_congr_right fun _ => ?_
  by_cases he : effect p a
  · simp [he]
  · simp [he]

theorem mem_points {x : Taken ι ω ρ × Nat} : x ∈ points effect point log ↔
    ∃ p a, log[p]? = some a ∧ effect p a ∧ point p a = x := by
  unfold points
  rw [List.mem_filterMap]
  constructor
  · rintro ⟨p, -, hp⟩
    exact ⟨p, pointAt_eq_some.mp hp⟩
  · rintro ⟨p, a, ha, hrest⟩
    have hp := (List.getElem?_eq_some_iff.mp ha).1
    exact ⟨p, List.mem_range.mpr hp, pointAt_eq_some.mpr ⟨a, ha, hrest⟩⟩

theorem pairwise_points {R : Taken ι ω ρ × Nat → Taken ι ω ρ × Nat → Prop}
    (h : ∀ p q a b, p < q → log[p]? = some a → log[q]? = some b → effect p a → effect q b →
      R (point p a) (point q b)) : (points effect point log).Pairwise R := by
  unfold points
  rw [List.pairwise_filterMap]
  refine List.pairwise_lt_range.imp ?_
  intro p q hpq x hx y hy
  obtain ⟨a, ha, hea, rfl⟩ := pointAt_eq_some.mp hx
  obtain ⟨b, hb, heb, rfl⟩ := pointAt_eq_some.mp hy
  exact h p q a b hpq ha hb hea heb

/-- **The points are legal** for the states along the log, if the places that take effect do
what the specification says and the others change nothing. -/
theorem legal_points {spec : σ → ω → σ × ρ} (state : Nat → σ)
    (hres : ∀ p a, log[p]? = some a → effect p a →
      (spec (state p) (point p a).1.op).2 = (point p a).1.res)
    (hstep : ∀ p a, log[p]? = some a → state (p + 1) =
      if effect p a then (spec (state p) (point p a).1.op).1 else state p) :
    Legal spec (state 0) ((points effect point log).map Prod.fst) := by
  suffices h : ∀ m ≤ log.length,
      Legal spec (state 0) (((List.range m).filterMap (pointAt effect point log)).map Prod.fst) ∧
        finish spec (state 0)
          (((List.range m).filterMap (pointAt effect point log)).map Prod.fst) = state m from
    (h _ (Nat.le_refl _)).1
  intro m
  induction m with
  | zero => exact fun _ => ⟨trivial, rfl⟩
  | succ m ih =>
    intro hm
    obtain ⟨hl, hf⟩ := ih (by omega)
    have ha : log[m]? = some log[m] := List.getElem?_eq_getElem hm
    rw [List.range_succ, List.filterMap_append, List.map_append, finish_append, hf]
    have hs := hstep m _ ha
    by_cases he : effect m log[m]
    · have hp : [m].filterMap (pointAt effect point log) = [point m log[m]] := by
        simp [pointAt_eq_some.mpr ⟨_, ha, he, rfl⟩]
      rw [if_pos he] at hs
      rw [hp, hs]
      refine ⟨legal_append _ _ _ hl ?_, rfl⟩
      rw [hf]
      exact ⟨hres m _ ha he, trivial⟩
    · have hp : [m].filterMap (pointAt effect point log) = [] := by
        simp [pointAt, ha, he]
      rw [if_neg he] at hs
      rw [hp, hs]
      exact ⟨legal_append _ _ _ hl trivial, rfl⟩

end log

end ShardRaft.Lib
