import ShardRaft.Lib.Trace

/-!
# Writing down what a run does

Some properties are about what a system has done, not about the state it is in: who was
given what, who sent which message.  `Ledger` puts a record beside the state; `notes s e`
is what the step `e` from `s` writes down.  No step reads the record.

* `Ledger.trace_iff`: the runs with a record are the runs, each with its record.
* `Ledger.invariant`: an invariant of states and records, step by step.
* `Ledger.all_iff`: every note is good exactly if every step writes good notes only.
-/

namespace ShardRaft.Lib

variable {σ ε ω : Type}

/-- A state, and what the run so far has written down, newest first. -/
structure Ledger (σ ω : Type) where
  state : σ
  record : List ω

namespace Ledger

/-- Nothing is written down yet. -/
def start (s : σ) : Ledger σ ω := ⟨s, []⟩

/-- A step of the system, which writes down its notes. -/
def step (step : σ → ε → Option σ) (notes : σ → ε → List ω) (l : Ledger σ ω) (e : ε) :
    Option (Ledger σ ω) :=
  (step l.state e).map fun s => ⟨s, notes l.state e ++ l.record⟩

variable {step : σ → ε → Option σ} {notes : σ → ε → List ω} {ok : σ → ε → Prop} {init : σ}

theorem step_eq_some {l l' : Ledger σ ω} {e : ε} (h : l.step step notes e = some l') :
    step l.state e = some l'.state ∧ l'.record = notes l.state e ++ l.record := by
  obtain ⟨s, hs, rfl⟩ := Option.map_eq_some_iff.mp h
  exact ⟨hs, rfl⟩

theorem trace_state {ls : List (Ledger σ ω)}
    (h : Trace (Ledger.step step notes) (fun l e => ok l.state e) (start init) ls) :
    Trace step ok init (ls.map (·.state)) := by
  induction h with
  | init => exact .init
  | step _ ho he ih => exact .step ih ho (step_eq_some he).1

theorem exists_trace {tr : List σ} (h : Trace step ok init tr) :
    ∃ ls, Trace (Ledger.step step notes) (fun l e => ok l.state e) (start init) ls ∧
      ls.map (·.state) = tr := by
  induction h with
  | init => exact ⟨[start init], .init, rfl⟩
  | step _ ho he ih =>
    obtain ⟨ls, hls, hmap⟩ := ih
    obtain ⟨l, past, rfl, rfl, rfl⟩ := List.map_eq_cons_iff.mp hmap
    exact ⟨_, .step hls ho (Option.map_eq_some_iff.mpr ⟨_, he, rfl⟩), rfl⟩

/-- **A run with a record is a run**, and every run has a record. -/
theorem trace_iff {tr : List σ} : Trace step ok init tr ↔
    ∃ ls, Trace (Ledger.step step notes) (fun l e => ok l.state e) (start init) ls ∧
      ls.map (·.state) = tr := by
  constructor
  · exact exists_trace
  · rintro ⟨ls, hls, rfl⟩
    exact trace_state hls

theorem invariant {I : σ → List ω → Prop} (h0 : I init [])
    (hs : ∀ s s' e record, I s record → ok s e → step s e = some s' →
      I s' (notes s e ++ record)) :
    ∀ tr, Trace (Ledger.step step notes) (fun l e => ok l.state e) (start init) tr →
      ∀ l ∈ tr, I l.state l.record := by
  refine Trace.invariant (I := fun l : Ledger σ ω => I l.state l.record) h0 ?_
  intro l l' e hi ho he
  obtain ⟨he, hr⟩ := step_eq_some he
  rw [hr]
  exact hs _ _ e _ hi ho he

/-- **Every note is good exactly if every step is.**  `J` may be any invariant of the
system. -/
theorem all_iff {P : ω → Prop} {J : σ → Prop} (h0 : J init)
    (hJ : ∀ s s' e, J s → step s e = some s' → J s')
    (hok : ∀ s e, J s → (ok s e ↔ ∀ x ∈ notes s e, P x)) {tr : List (Ledger σ ω)}
    (h : Trace (Ledger.step step notes) (fun _ _ => True) (start init) tr) :
    Trace (Ledger.step step notes) (fun l e => ok l.state e) (start init) tr ↔
      ∀ l ∈ tr, ∀ x ∈ l.record, P x := by
  refine Trace.ok_iff (J := fun l : Ledger σ ω => J l.state)
    (G := fun l => ∀ x ∈ l.record, P x) h0 (by simp [start])
    (fun l l' e hi _ he => hJ _ _ e hi (step_eq_some he).1) ?_ h
  intro l l' e hi hgood he
  rw [hok l.state e hi, (step_eq_some he).2]
  constructor
  · intro hnew x hx
    rcases List.mem_append.mp hx with hx | hx
    · exact hnew x hx
    · exact hgood x hx
  · intro hall x hx
    exact hall x (List.mem_append_left _ hx)

end Ledger

end ShardRaft.Lib
