import Mathlib.Algebra.GroupWithZero.Nat
import Mathlib.Data.List.Basic
import Mathlib.Tactic.Common

/-!
# Traces of a partial step function

A system is a step function `step : σ → ε → Option σ`: an event that is not
possible in a state, or that ends the process, gives `none`.  A *trace* is the
list of the states a run has gone through, newest first.  `ok` says which steps
a run may take; `fun _ _ => True` puts no restriction.

* `Trace.induction`: what holds of the initial trace and survives a step holds
  of every trace.
* `Trace.ok_iff`: when good steps are those that lead to good states, a run of good
  steps is a run through good states.
* `Trace.length_le`: a run in which every step makes something smaller comes to its end.
* `Reaches`: what can still happen.  `Reaches.of_measure` is the rule for it: where every
  state that is not done leads to one that is closer, every state leads to one that is done.
* `run`: the trace of a list of events, to evaluate runs on concrete inputs
  (`trace_of_run`).
-/

namespace ShardRaft.Lib

variable {σ ε : Type}

/-- The states of a run, newest first. -/
inductive Trace (step : σ → ε → Option σ) (ok : σ → ε → Prop) (init : σ) : List σ → Prop
  | init : Trace step ok init [init]
  | step {s s' : σ} {e : ε} {tr : List σ} : Trace step ok init (s :: tr) → ok s e →
      step s e = some s' → Trace step ok init (s' :: s :: tr)

namespace Trace

variable {step : σ → ε → Option σ} {ok ok' : σ → ε → Prop} {init : σ}

/-- **A run keeps what one step keeps.** -/
theorem induction {P : List σ → Prop} (h0 : P [init])
    (hs : ∀ s s' e tr, Trace step ok init (s :: tr) → P (s :: tr) → ok s e →
      step s e = some s' → P (s' :: s :: tr)) :
    ∀ tr, Trace step ok init tr → P tr := by
  intro tr h
  induction h with
  | init => exact h0
  | step ht hok he ih => exact hs _ _ _ _ ht ih hok he

theorem invariant {I : σ → Prop} (h0 : I init)
    (hs : ∀ s s' e, I s → ok s e → step s e = some s' → I s') :
    ∀ tr, Trace step ok init tr → ∀ s ∈ tr, I s := by
  intro tr h
  induction h with
  | init => intro s hs'; rw [List.mem_singleton.mp hs']; exact h0
  | step ht hok he ih =>
    intro s hs'
    rcases List.mem_cons.mp hs' with rfl | hm
    · exact hs _ _ _ (ih _ (List.mem_cons_self ..)) hok he
    · exact ih s hm

/-- **Every run comes to its end**, where every step makes a measure smaller.  `x` is what the
invariant says besides. -/
theorem length_le {α : Type} {I : α → σ → Prop} (measure : α → σ → Nat) {x₀ : α} (h0 : I x₀ init)
    (hs : ∀ x s s' e, I x s → ok s e → step s e = some s' →
      ∃ x', I x' s' ∧ measure x' s' < measure x s) {s : σ} {past : List σ}
    (h : Trace step ok init (s :: past)) :
    ∃ x, I x s ∧ past.length + measure x s ≤ measure x₀ init := by
  generalize htr : s :: past = tr at h
  induction h generalizing s past with
  | init =>
    obtain ⟨rfl, rfl⟩ := List.cons.inj htr
    exact ⟨x₀, h0, by simp⟩
  | @step u u' e tr ht hok he ih =>
    obtain ⟨rfl, rfl⟩ := List.cons.inj htr
    obtain ⟨x, hx, hle⟩ := ih rfl
    obtain ⟨x', hx', hlt⟩ := hs x u s e hx hok he
    refine ⟨x', hx', ?_⟩
    rw [List.length_cons]
    omega

theorem suffix {tr : List σ} (h : Trace step ok init tr) :
    ∀ s ∈ tr, ∃ past, Trace step ok init (s :: past) := by
  induction h with
  | init => intro s hs; rw [List.mem_singleton.mp hs]; exact ⟨[], .init⟩
  | step ht hok he ih =>
    intro s hs
    rcases List.mem_cons.mp hs with rfl | hm
    · exact ⟨_, .step ht hok he⟩
    · exact ih s hm

theorem exists_rest {tr : List σ} (h : Trace step ok init tr) : ∃ rest, tr = rest ++ [init] := by
  induction h with
  | init => exact ⟨[], rfl⟩
  | @step s s' e tr _ _ _ ih =>
    obtain ⟨rest, hrest⟩ := ih
    exact ⟨s' :: rest, by rw [hrest]; rfl⟩

theorem of_append {s : σ} {rest past : List σ} (h : Trace step ok init (rest ++ s :: past)) :
    Trace step ok init (s :: past) := by
  induction rest with
  | nil => exact h
  | cons s' rest ih =>
    obtain ⟨s₁, tl, heq⟩ : ∃ s₁ tl, rest ++ s :: past = s₁ :: tl :=
      List.exists_cons_of_ne_nil (by simp)
    rw [List.cons_append, heq] at h
    cases h with
    | step ht _ _ => exact ih (heq ▸ ht)

theorem mono (hok : ∀ s e, ok s e → ok' s e) {tr : List σ} (h : Trace step ok init tr) :
    Trace step ok' init tr := by
  induction h with
  | init => exact .init
  | step _ ho he ih => exact .step ih (hok _ _ ho) he

/-- **Good steps are those that lead to good states**, and then so it is with whole runs.
`J` may be anything that a step from a good state keeps. -/
theorem ok_iff {J G : σ → Prop} (h0 : J init) (hg : G init)
    (hJ : ∀ s s' e, J s → G s → step s e = some s' → J s')
    (hok : ∀ s s' e, J s → G s → step s e = some s' → (ok s e ↔ G s')) {tr : List σ}
    (h : Trace step (fun _ _ => True) init tr) :
    Trace step ok init tr ↔ ∀ s ∈ tr, G s := by
  constructor
  · intro hr
    have hall := invariant (I := fun s => J s ∧ G s) ⟨h0, hg⟩
      (fun s s' e hi ho he => ⟨hJ s s' e hi.1 hi.2 he, (hok s s' e hi.1 hi.2 he).mp ho⟩) tr hr
    exact fun s hs => (hall s hs).2
  · intro hgood
    suffices h : Trace step ok init tr ∧ ∀ s ∈ tr.head?, J s from h.1
    induction h with
    | init => exact ⟨.init, by simpa using h0⟩
    | @step s s' e tr ht _ he ih =>
      have hs : s ∈ s' :: s :: tr := List.mem_cons_of_mem _ (List.mem_cons_self ..)
      obtain ⟨hr, hj⟩ := ih fun u hu => hgood u (List.mem_cons_of_mem _ hu)
      have hj : J s := hj s rfl
      have ho := (hok s s' e hj (hgood s hs) he).mpr (hgood s' (List.mem_cons_self ..))
      exact ⟨.step hr ho he, by simpa using hJ s s' e hj (hgood s hs) he⟩

end Trace

/-! ### What can still happen -/

/-- Steps that all meet `ok` lead from one state to the other. -/
inductive Reaches (step : σ → ε → Option σ) (ok : σ → ε → Prop) : σ → σ → Prop
  | refl (s : σ) : Reaches step ok s s
  | head {s s' s'' : σ} {e : ε} : ok s e → step s e = some s' → Reaches step ok s' s'' →
      Reaches step ok s s''

namespace Reaches

variable {step : σ → ε → Option σ} {ok ok' : σ → ε → Prop} {s s' s'' : σ}

theorem single {e : ε} (ho : ok s e) (h : step s e = some s') : Reaches step ok s s' :=
  .head ho h (.refl s')

theorem trans (h : Reaches step ok s s') (h' : Reaches step ok s' s'') :
    Reaches step ok s s'' := by
  induction h with
  | refl => exact h'
  | head ho hs _ ih => exact .head ho hs (ih h')

theorem mono (hok : ∀ s e, ok s e → ok' s e) (h : Reaches step ok s s') :
    Reaches step ok' s s' := by
  induction h with
  | refl => exact .refl _
  | head ho hs _ ih => exact .head (hok _ _ ho) hs ih

theorem invariant {I : σ → Prop} (hI : ∀ s s' e, I s → ok s e → step s e = some s' → I s')
    (h : Reaches step ok s s') (hs : I s) : I s' := by
  induction h with
  | refl => exact hs
  | head ho he _ ih => exact ih (hI _ _ _ hs ho he)

theorem trace {init : σ} (h : Reaches step ok s s') {past : List σ}
    (ht : Trace step ok init (s :: past)) :
    ∃ past', Trace step ok init (s' :: past') := by
  induction h generalizing past with
  | refl => exact ⟨past, ht⟩
  | head ho he _ ih => exact ih (.step ht ho he)

/-- **Progress.**  If every state with `I` that is not done can get closer, it can get done. -/
theorem of_measure {I G : σ → Prop} (measure : σ → Nat)
    (hstep : ∀ s, I s → ¬ G s → ∃ s', Reaches step ok s s' ∧ I s' ∧ measure s' < measure s) :
    ∀ s, I s → ∃ s', Reaches step ok s s' ∧ I s' ∧ G s' := by
  intro s
  induction hm : measure s using Nat.strongRecOn generalizing s with
  | ind m ih =>
    intro hs
    by_cases hg : G s
    · exact ⟨s, .refl s, hs, hg⟩
    · obtain ⟨s₁, hr, hs₁, hlt⟩ := hstep s hs hg
      obtain ⟨s₂, hr₂, hs₂, hg₂⟩ := ih _ (hm ▸ hlt) s₁ rfl hs₁
      exact ⟨s₂, hr.trans hr₂, hs₂, hg₂⟩

end Reaches

/-- The trace of a list of events, or `none` when one of them is not possible
or not allowed. -/
def run (step : σ → ε → Option σ) (ok : σ → ε → Prop) [∀ s e, Decidable (ok s e)] (s : σ) :
    List ε → List σ → Option (List σ)
  | [], past => some (s :: past)
  | e :: es, past =>
    if ok s e then
      match step s e with
      | none => none
      | some s' => run step ok s' es (s :: past)
    else none

theorem trace_of_run_aux {step : σ → ε → Option σ} {ok : σ → ε → Prop}
    [∀ s e, Decidable (ok s e)] {init : σ} :
    ∀ (es : List ε) (s : σ) (past tr : List σ), Trace step ok init (s :: past) →
      run step ok s es past = some tr → Trace step ok init tr := by
  intro es
  induction es with
  | nil => intro s past tr h hr; rw [run] at hr; exact Option.some.inj hr ▸ h
  | cons e es ih =>
    intro s past tr h hr
    rw [run] at hr
    by_cases ho : ok s e
    · rw [if_pos ho] at hr
      cases hs : step s e with
      | none => rw [hs] at hr; exact absurd hr (by simp)
      | some s' => rw [hs] at hr; exact ih s' (s :: past) tr (.step h ho hs) hr
    · rw [if_neg ho] at hr
      exact absurd hr (by simp)

/-- **What `run` computes is a trace.** -/
theorem trace_of_run {step : σ → ε → Option σ} {ok : σ → ε → Prop}
    [∀ s e, Decidable (ok s e)] {init : σ} {es : List ε} {tr : List σ}
    (h : run step ok init es [] = some tr) : Trace step ok init tr :=
  trace_of_run_aux es init [] tr .init h

theorem suffix_of_run {step : σ → ε → Option σ} {ok : σ → ε → Prop} [∀ s e, Decidable (ok s e)] :
    ∀ (es : List ε) (s : σ) (past tr : List σ), run step ok s es past = some tr →
      ∃ rest, tr = rest ++ s :: past := by
  intro es
  induction es with
  | nil =>
    intro s past tr h
    rw [run] at h
    exact ⟨[], (Option.some.inj h).symm⟩
  | cons e es ih =>
    intro s past tr h
    rw [run] at h
    split at h
    · split at h
      · exact absurd h (by simp)
      · obtain ⟨rest, hrest⟩ := ih _ _ _ h
        exact ⟨rest ++ [_], by rw [hrest, List.append_assoc]; rfl⟩
    · exact absurd h (by simp)

/-- The events are possible, and the last state and the states before it pass a test. -/
def runEnds (step : σ → ε → Option σ) (ok : σ → ε → Prop) [∀ s e, Decidable (ok s e)] (s : σ)
    (es : List ε) (p : σ → List σ → Bool) : Bool :=
  (run step ok s es []).any fun tr => tr.head?.any fun s => p s tr.tail

theorem exists_of_runEnds {step : σ → ε → Option σ} {ok : σ → ε → Prop}
    [∀ s e, Decidable (ok s e)] {init : σ} {es : List ε} {p : σ → List σ → Bool}
    (h : runEnds step ok init es p = true) :
    ∃ s past, run step ok init es [] = some (s :: past) ∧ Trace step ok init (s :: past) ∧
      p s past = true := by
  obtain ⟨tr, hr, h⟩ := (Option.any_eq_true ..).mp h
  obtain ⟨s, hs, hp⟩ := (Option.any_eq_true ..).mp h
  obtain ⟨past, rfl⟩ := List.head?_eq_some_iff.mp hs
  exact ⟨s, past, hr, trace_of_run hr, hp⟩

/-! ### Small systems

Concrete runs have two, three or four parties, which are numerals of `Fin`. -/

instance neZero_two : NeZero 2 := ⟨by decide⟩

instance neZero_three : NeZero 3 := ⟨by decide⟩

instance neZero_four : NeZero 4 := ⟨by decide⟩

end ShardRaft.Lib
