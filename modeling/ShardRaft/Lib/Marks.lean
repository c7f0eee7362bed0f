import Mathlib.Data.List.Basic
import Mathlib.Tactic.Common

/-!
# Searching for an order of the operations

Operations are given by the list of their calls and returns, in the order of time.  An order
of the operations respects time if none stands after one that was called only after it had
returned.

A search need only try to go on with an operation that is called before anything returns:
`Takes` is what such a search does.  It goes through all orders that respect time as far as
they go (`Takes.begins`, `Begins.takes`), and comes to its end with the orders of all operations
(`takes_nil_iff`).  `Takes.cases_first` is what is left to be tried at the first return.
-/

namespace ShardRaft.Lib

variable {ι σ : Type}

/-- An operation is called, or it returns. -/
inductive Mark (ι : Type)
  | call (i : ι)
  | ret (i : ι)
deriving DecidableEq, Repr

namespace Mark

def id : Mark ι → ι
  | call i | ret i => i

def isCall : Mark ι → Bool
  | call _ => true
  | ret _ => false

end Mark

/-- Every operation is called once, and returns once after that. -/
structure Paired (l : List (Mark ι)) : Prop where
  nodup : l.Nodup
  call : ∀ i, .call i ∈ l → [.call i, .ret i].Sublist l
  ret : ∀ i, .ret i ∈ l → .call i ∈ l

/-- `i` has returned before `j` is called. -/
def Earlier (l : List (Mark ι)) (i j : ι) : Prop := [.ret i, .call j].Sublist l

/-- The operations can be carried out one after the other. -/
def Runs (step : σ → ι → Option σ) : σ → List ι → Prop
  | _, [] => True
  | s, i :: l => ∃ s', step s i = some s' ∧ Runs step s' l

/-- Of the operations `op`, `order` can be carried out first: what is `before` one of its
operations is in it too, and stands in front of that. -/
structure Begins (step : σ → ι → Option σ) (before : ι → ι → Prop) (op : ι → Prop) (s : σ)
    (order : List ι) : Prop where
  nodup : order.Nodup
  ops : ∀ i ∈ order, op i
  closed : ∀ i ∈ order, ∀ j, before j i → j ∈ order
  ordered : order.Pairwise fun i j => ¬ before j i
  runs : Runs step s order

/-- An order of all operations `op`. -/
structure Arranges (step : σ → ι → Option σ) (before : ι → ι → Prop) (op : ι → Prop) (s : σ)
    (order : List ι) : Prop extends Begins step before op s order where
  all : ∀ i, op i → i ∈ order

section orders

variable {step step' : σ → ι → Option σ} {before before' : ι → ι → Prop} {op op' : ι → Prop}
  {s : σ} {order : List ι}

theorem Begins.imp (h : Begins step before op s order) (hbefore : ∀ i j, before' i j → before i j)
    (hop : ∀ i, op i → op' i) : Begins step before' op' s order where
  nodup := h.nodup
  ops i hi := hop i (h.ops i hi)
  closed i hi j hj := h.closed i hi j (hbefore j i hj)
  ordered := h.ordered.imp fun hn hb => hn (hbefore _ _ hb)
  runs := h.runs

theorem Arranges.imp (h : Arranges step before op s order)
    (hbefore : ∀ i j, before' i j → before i j) (hop : ∀ i, op i ↔ op' i) :
    Arranges step before' op' s order where
  toBegins := h.toBegins.imp hbefore fun i => (hop i).mp
  all i hi := h.all i ((hop i).mpr hi)

end orders

/-! ### Two elements of a list -/

section pairs

variable {α : Type} {l pre post : List α} {a b : α}

theorem mem_of_pair (h : [a, b].Sublist l) : a ∈ l ∧ b ∈ l :=
  ⟨h.subset (List.mem_cons_self ..), h.subset (List.mem_cons_of_mem _ (List.mem_singleton_self _))⟩

theorem mem_of_pair_append (hn : (pre ++ b :: post).Nodup)
    (h : [a, b].Sublist (pre ++ b :: post)) : a ∈ pre := by
  obtain ⟨-, hn', hdisj⟩ := List.nodup_append.mp hn
  have hpost : b ∉ post := (List.nodup_cons.mp hn').1
  have hpre : b ∉ pre := fun hb => hdisj b hb b (List.mem_cons_self ..) rfl
  obtain ⟨l₁, l₂, heq, h₁, h₂⟩ := List.sublist_append_iff.mp h
  rcases l₁ with _ | ⟨x, _ | ⟨y, l⟩⟩
  · obtain rfl : [a, b] = l₂ := heq
    have hb : [b].Sublist post := h₂.tail
    exact absurd (List.singleton_sublist.mp hb) hpost
  · obtain ⟨rfl, -⟩ := List.cons.inj heq
    exact List.singleton_sublist.mp h₁
  · obtain ⟨rfl, htail⟩ := List.cons.inj heq
    obtain ⟨rfl, -⟩ := List.cons.inj htail
    exact absurd (h₁.subset (by simp)) hpre

theorem pair_of_mem (h : a ∈ pre) : [a, b].Sublist (pre ++ b :: post) := by
  have h₁ : [a].Sublist pre := List.singleton_sublist.mpr h
  have h₂ : [b].Sublist (b :: post) := by simp
  exact h₁.append h₂

/-- Of two elements, one comes first. -/
theorem not_pair_swap (hn : l.Nodup) (h : [a, b].Sublist l) : ¬ [b, a].Sublist l := by
  intro h'
  obtain ⟨pre, post, rfl⟩ := List.append_of_mem (mem_of_pair h).2
  have ha := mem_of_pair_append hn h
  obtain ⟨pre', post', rfl⟩ := List.append_of_mem ha
  rw [List.append_assoc, List.cons_append] at hn h'
  have hb := mem_of_pair_append hn h'
  obtain ⟨-, -, hdisj⟩ := List.nodup_append.mp hn
  exact hdisj b hb b (by simp) rfl

end pairs

section without

variable [DecidableEq ι]

/-- What is left when an operation has been dealt with. -/
def without (l : List (Mark ι)) (i : ι) : List (Mark ι) := l.filter fun m => m.id ≠ i

variable {l : List (Mark ι)} {i j k : ι}

theorem mem_without {m : Mark ι} : m ∈ without l i ↔ m ∈ l ∧ m.id ≠ i := by
  simp [without]

theorem pair_without (m m' : Mark ι) (hm : m.id ≠ i) (hm' : m'.id ≠ i) :
    [m, m'].Sublist (without l i) ↔ [m, m'].Sublist l := by
  constructor
  · exact fun h => h.trans List.filter_sublist
  · intro h
    have hf := h.filter fun m => decide (m.id ≠ i)
    rwa [List.filter_cons_of_pos (by simpa using hm), List.filter_cons_of_pos (by simpa using hm'),
      List.filter_nil] at hf

theorem Paired.without (h : Paired l) : Paired (without l i) where
  nodup := h.nodup.filter _
  call j hj := by
    obtain ⟨hmem, hne⟩ := mem_without.mp hj
    exact (pair_without (.call j) (.ret j) hne hne).mpr (h.call j hmem)
  ret j hj := by
    obtain ⟨hmem, hne⟩ := mem_without.mp hj
    exact mem_without.mpr ⟨h.ret j hmem, hne⟩

omit [DecidableEq ι] in
theorem Paired.not_earlier (h : Paired l) : ¬ Earlier l i i := by
  intro he
  exact not_pair_swap h.nodup (h.call i (mem_of_pair he).2) he

omit [DecidableEq ι] in
theorem Paired.ret_mem {pre post : List (Mark ι)} (h : Paired (pre ++ .call i :: post)) :
    .ret i ∈ post := by
  have hpair := h.call i (List.mem_append_right _ (List.mem_cons_self ..))
  rcases List.mem_append.mp (mem_of_pair hpair).2 with hpre | hpost
  · exact absurd (pair_of_mem hpre) h.not_earlier
  · exact (List.mem_cons.mp hpost).resolve_left (by simp)

/-- **What a search does**: it goes on with an operation that is called before anything
returns.  From one list and state it comes to another by carrying out `order`. -/
inductive Takes (step : σ → ι → Option σ) :
    List (Mark ι) → σ → List ι → List (Mark ι) → σ → Prop
  | nil (l : List (Mark ι)) (s : σ) : Takes step l s [] l s
  | cons {pre post l : List (Mark ι)} {i : ι} {order : List ι} {s s' s'' : σ} :
      (∀ m ∈ pre, m.isCall = true) → step s i = some s' →
      Takes step (Lib.without (pre ++ .call i :: post) i) s' order l s'' →
      Takes step (pre ++ .call i :: post) s (i :: order) l s''

/-- The search can come to its end. -/
def Completes (step : σ → ι → Option σ) (l : List (Mark ι)) (s : σ) : Prop :=
  ∃ order s', Takes step l s order [] s'

variable {step : σ → ι → Option σ} {s s' s'' : σ} {l' : List (Mark ι)} {order order' : List ι}

namespace Takes

theorem append (h : Takes step l s order l' s') {l₂ : List (Mark ι)}
    (h' : Takes step l' s' order' l₂ s'') : Takes step l s (order ++ order') l₂ s'' := by
  induction h with
  | nil l s => exact h'
  | cons hpre hs _ ih => exact .cons hpre hs (ih h')

theorem mem_left (h : Takes step l s order l' s') {m : Mark ι} :
    m ∈ l' ↔ m ∈ l ∧ m.id ∉ order := by
  induction h with
  | nil l s => simp
  | cons hpre hs _ ih => rw [ih, mem_without, List.mem_cons, not_or, and_assoc]

theorem paired (h : Takes step l s order l' s') : Paired l → Paired l' := by
  induction h with
  | nil l s => exact fun hp => hp
  | cons _ _ _ ih => exact fun hp => ih hp.without

theorem begins (h : Takes step l s order l' s') : Paired l → Begins step (Earlier l) (.call · ∈ l) s order := by
  induction h with
  | nil l s => exact fun _ => ⟨.nil, by simp, by simp, .nil, trivial⟩
  | @cons pre post l i order s s' s'' hpre hs _ ih =>
    intro hp
    obtain ⟨hn, hcall, hclosed, hord, hrun⟩ := ih hp.without
    have hne : ∀ j ∈ order, j ≠ i := fun j hj => (mem_without.mp (hcall j hj)).2
    -- nothing has returned when `i` is called
    have hfirst : ∀ j, ¬ Earlier (pre ++ .call i :: post) j i := by
      intro j he
      have hc := hpre _ (mem_of_pair_append hp.nodup he)
      exact absurd hc (by simp [Mark.isCall])
    refine ⟨List.nodup_cons.mpr ⟨fun hi => hne i hi rfl, hn⟩, ?_, ?_, ?_, s', hs, hrun⟩
    · intro j hj
      rcases List.mem_cons.mp hj with rfl | hj
      · exact List.mem_append_right _ (List.mem_cons_self ..)
      · exact (mem_without.mp (hcall j hj)).1
    · intro j hj k he
      by_cases hk : k = i
      · exact hk ▸ List.mem_cons_self ..
      rcases List.mem_cons.mp hj with rfl | hj
      · exact absurd he (hfirst k)
      · refine List.mem_cons_of_mem _ (hclosed j hj k ?_)
        exact (pair_without (.ret k) (.call j) hk (hne j hj)).mpr he
    · refine List.pairwise_cons.mpr ⟨fun j _ => hfirst j, ?_⟩
      refine hord.imp_of_mem ?_
      intro j k hj hk he he'
      exact he ((pair_without (.ret k) (.call j) (hne k hk) (hne j hj)).mpr he')

/-- What is left tells what has been carried out. -/
theorem perm (h : Takes step l s order l' s') (h' : Takes step l s order' l' s'') (hp : Paired l) :
    order.Perm order' := by
  have hb := h.begins hp
  have hb' := h'.begins hp
  refine (List.perm_ext_iff_of_nodup hb.nodup hb'.nodup).mpr ?_
  intro i
  constructor
  · intro hi
    by_contra hni
    exact (h.mem_left.mp (h'.mem_left.mpr ⟨hb.ops i hi, hni⟩)).2 hi
  · intro hi
    by_contra hni
    exact (h'.mem_left.mp (h.mem_left.mpr ⟨hb'.ops i hi, hni⟩)).2 hi

end Takes

theorem Begins.takes : ∀ (order : List ι) (l : List (Mark ι)) (s : σ), Paired l →
    Begins step (Earlier l) (.call · ∈ l) s order → ∃ l' s', Takes step l s order l' s' := by
  intro order
  induction order with
  | nil => exact fun l s _ _ => ⟨l, s, .nil l s⟩
  | cons i order ih =>
    rintro l s hp ⟨hn, hcall, hclosed, hord, s', hs, hrun⟩
    obtain ⟨hi, hn⟩ := List.nodup_cons.mp hn
    obtain ⟨hfirst, hord⟩ := List.pairwise_cons.mp hord
    have hne : ∀ j ∈ order, j ≠ i := fun j hj heq => hi (heq ▸ hj)
    obtain ⟨pre, post, rfl⟩ := List.append_of_mem (hcall i (List.mem_cons_self ..))
    have hpre : ∀ m ∈ pre, m.isCall = true := by
      intro m hm
      cases m with
      | call j => rfl
      | ret j =>
        have he : Earlier (pre ++ .call i :: post) j i := pair_of_mem hm
        rcases List.mem_cons.mp (hclosed i (List.mem_cons_self ..) j he) with rfl | hj
        · exact absurd he hp.not_earlier
        · exact absurd he (hfirst j hj)
    have hrest : Begins step (Earlier (Lib.without (pre ++ .call i :: post) i))
        (.call · ∈ Lib.without (pre ++ .call i :: post) i) s' order := by
      refine ⟨hn, ?_, ?_, ?_, hrun⟩
      · intro j hj
        exact mem_without.mpr ⟨hcall j (List.mem_cons_of_mem _ hj), hne j hj⟩
      · intro j hj k he
        have hk : k ≠ i := (mem_without.mp (mem_of_pair he).1).2
        have he' := (pair_without (.ret k) (.call j) hk (hne j hj)).mp he
        rcases List.mem_cons.mp (hclosed j (List.mem_cons_of_mem _ hj) k he') with rfl | hmem
        · exact absurd rfl hk
        · exact hmem
      · refine hord.imp_of_mem ?_
        intro j k hj hk he he'
        exact he ((pair_without (.ret k) (.call j) (hne k hk) (hne j hj)).mp he')
    obtain ⟨l', s'', htakes⟩ := ih _ s' hp.without hrest
    exact ⟨l', s'', .cons hpre hs htakes⟩

/-- **The search comes to its end with an order of all operations.** -/
theorem takes_nil_iff (hp : Paired l) :
    (∃ s', Takes step l s order [] s') ↔ Arranges step (Earlier l) (.call · ∈ l) s order := by
  constructor
  · rintro ⟨s', h⟩
    refine ⟨h.begins hp, ?_⟩
    intro i hi
    by_contra hni
    exact absurd (h.mem_left.mpr ⟨hi, hni⟩) List.not_mem_nil
  · rintro ⟨hb, hall⟩
    obtain ⟨l', s', h⟩ := hb.takes _ _ _ hp
    have hnil : l' = [] := by
      refine List.eq_nil_iff_forall_not_mem.mpr ?_
      intro m hm
      obtain ⟨hm, hni⟩ := h.mem_left.mp hm
      cases m with
      | call i => exact hni (hall i hm)
      | ret i => exact hni (hall i (hp.ret i hm))
    exact ⟨s', hnil ▸ h⟩

/-- The search can come to its end if there is an order of all operations. -/
theorem completes_iff (hp : Paired l) :
    Completes step l s ↔ ∃ order, Arranges step (Earlier l) (.call · ∈ l) s order :=
  exists_congr fun _ => takes_nil_iff hp

theorem Takes.cases_first {pre post : List (Mark ι)} {j : ι} (hpre : ∀ m ∈ pre, m.isCall = true)
    (h : Takes step (pre ++ .ret j :: post) s order l' s'') : order = [] ∨
    ∃ i s' order', order = i :: order' ∧ .call i ∈ pre ∧ step s i = some s' ∧
      Takes step (Lib.without (pre ++ .ret j :: post) i) s' order' l' s'' := by
  generalize hl : pre ++ .ret j :: post = l at h
  cases h with
  | nil => exact .inl rfl
  | @cons pre' post' _ i order' _ s' _ hpre' hs ht =>
    refine .inr ⟨i, s', order', rfl, ?_, hs, ht⟩
    -- both lists of calls are as long as they can be
    have h₁ : (pre ++ .ret j :: post).takeWhile Mark.isCall = pre := by
      rw [List.takeWhile_append_of_pos hpre]
      simp [Mark.isCall]
    have h₂ : Mark.call i ∈ (pre' ++ .call i :: post').takeWhile Mark.isCall := by
      rw [List.takeWhile_append_of_pos hpre', List.takeWhile_cons_of_pos rfl]
      simp
    rwa [← hl, h₁] at h₂

end without

end ShardRaft.Lib
