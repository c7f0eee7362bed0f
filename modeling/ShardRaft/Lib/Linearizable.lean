import Mathlib.Data.List.Basic
import Mathlib.Tactic.Common

/-!
# Linearizability

A history records, in real-time order, when calls are invoked and when they
return.  It is *linearizable* if the calls that have returned, and some of those
that have not, can be put in one order in which each takes effect at once, as a
sequential specification says, and which never contradicts real time.
-/

namespace ShardRaft.Lib

variable {ι ω ρ σ : Type}

/-- A call is invoked, or it returns. -/
inductive Moment (ι ω ρ : Type)
  | invoke (i : ι) (op : ω)
  | respond (i : ι) (res : ρ)
deriving DecidableEq, Repr

/-- A call with its operation and its result. -/
structure Taken (ι ω ρ : Type) where
  id : ι
  op : ω
  res : ρ
deriving DecidableEq, Repr

/-- Call `i` has returned before call `j` was invoked. -/
def Precedes (H : List (Moment ι ω ρ)) (i j : ι) : Prop :=
  ∃ (k l : Nat) (res : ρ) (op : ω),
    k < l ∧ H[k]? = some (.respond i res) ∧ H[l]? = some (.invoke j op)

/-- Every result is the one the specification gives, starting in `s`. -/
def Legal (spec : σ → ω → σ × ρ) : σ → List (Taken ι ω ρ) → Prop
  | _, [] => True
  | s, x :: l => (spec s x.op).2 = x.res ∧ Legal spec (spec s x.op).1 l

/-- The state after the calls. -/
def finish (spec : σ → ω → σ × ρ) (s : σ) (l : List (Taken ι ω ρ)) : σ :=
  l.foldl (fun s x => (spec s x.op).1) s

/-- `l` is an order in which the calls of `H` may have taken effect. -/
structure Linearizes (spec : σ → ω → σ × ρ) (s : σ) (H : List (Moment ι ω ρ))
    (l : List (Taken ι ω ρ)) : Prop where
  once : (l.map Taken.id).Nodup
  invoked : ∀ x ∈ l, .invoke x.id x.op ∈ H
  answered : ∀ i res, .respond i res ∈ H → ∃ x ∈ l, x.id = i ∧ x.res = res
  legal : Legal spec s l
  order : l.Pairwise fun x y => ¬ Precedes H y.id x.id

/-- **Linearizability.** -/
def Linearizable (spec : σ → ω → σ × ρ) (s : σ) (H : List (Moment ι ω ρ)) : Prop :=
  ∃ l, Linearizes spec s H l

theorem legal_append {spec : σ → ω → σ × ρ} :
    ∀ (l l' : List (Taken ι ω ρ)) (s : σ), Legal spec s l → Legal spec (finish spec s l) l' →
      Legal spec s (l ++ l') := by
  intro l
  induction l with
  | nil => intro l' s _ h; exact h
  | cons x l ih =>
    intro l' s h h'
    exact ⟨h.1, ih l' _ h.2 h'⟩

theorem finish_append {spec : σ → ω → σ × ρ} (s : σ) (l l' : List (Taken ι ω ρ)) :
    finish spec s (l ++ l') = finish spec (finish spec s l) l' :=
  List.foldl_append ..

end ShardRaft.Lib
