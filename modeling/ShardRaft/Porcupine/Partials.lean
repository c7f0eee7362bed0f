import ShardRaft.Porcupine.Verdicts

/-!
# Pointers to the longest orders

`longest` of `checkSingle` holds pointers to the variables `seq`, and `checkParallel` makes the
pointers a set before it copies what they point to.  `Search` has the sequences in place of the
pointers, and `partials` makes the sequences a set.

Here the goroutines run with the pointers (`Pointed.turn`).  They do what they do without them,
and different pointers point to different sequences: one is made only if it is longer than all
that some operation in it has.  So what is returned is the same (`partials_of_trace`).
-/

namespace ShardRaft.Porcupine

open Lib

variable {ι ω σ : Type}

/-- The variables `seq` that there have been, and `longest`, with pointers into them. -/
structure Pointers where
  seqs : List (List Nat)
  longest : List (Option Nat)

namespace Pointers

/-- What a pointer points to. -/
def deref (p : Pointers) (ptr : Nat) : List Nat := (p.seqs[ptr]?).getD []

/-- `longest` with the sequences. -/
def value (p : Pointers) : Longest := p.longest.map (Option.map p.deref)

/-- `seq` is made when it is first needed; `made` points to it after that. -/
def make (seq : List Nat) (made : Option Nat) (p : Pointers) : Nat × Pointers :=
  match made with
  | some ptr => (ptr, p)
  | none => (p.seqs.length, { p with seqs := p.seqs ++ [seq] })

/-- The loop over `calls` that keeps `longest` up to date. -/
def update (seq : List Nat) : List Nat → Option Nat → Pointers → Option Pointers
  | [], _, p => some p
  | id :: calls, made, p => do
    let old ← p.longest[id]?
    if old.all fun ptr => seq.length > (p.deref ptr).length then
      let (ptr, p) := p.make seq made
      update seq calls (some ptr) { p with longest := p.longest.set id (some ptr) }
    else update seq calls made p

/-- One `seq` for all operations, at the end of a search that says yes. -/
def all (seq : List Nat) (p : Pointers) : Pointers where
  seqs := p.seqs ++ [seq]
  longest := p.longest.map fun _ => some p.seqs.length

/-- What `checkParallel` makes of the pointers of a partition. -/
def partials (order : Visits Nat) (p : Pointers) : List (List Nat) :=
  (order.visit (p.longest.filterMap id).dedup).map p.deref

/-- The pointers point to variables, every sequence counts for all operations in it, and no two
are the same. -/
structure Inv (p : Pointers) : Prop where
  valid : ∀ ptr, some ptr ∈ p.longest → ptr < p.seqs.length
  reached : ∀ seq ∈ p.seqs, ∀ i ∈ seq, Reached p.value i seq.length
  nodup : p.seqs.Nodup

/-- Different pointers point to different sequences. -/
def Distinct (p : Pointers) : Prop :=
  ∀ ptr ptr', some ptr ∈ p.longest → some ptr' ∈ p.longest → p.deref ptr = p.deref ptr' →
    ptr = ptr'

variable {p p' : Pointers} {seq calls : List Nat} {made : Option Nat}

theorem deref_of_lt {ptr : Nat} (h : ptr < p.seqs.length) : p.deref ptr = p.seqs[ptr] := by
  rw [deref, List.getElem?_eq_getElem h, Option.getD_some]

theorem getElem?_value (p : Pointers) (i : Nat) :
    p.value[i]? = (p.longest[i]?).map (Option.map p.deref) :=
  List.getElem?_map

theorem value_append {longest : List (Option Nat)} {seqs : List (List Nat)}
    (h : ∀ ptr, some ptr ∈ longest → ptr < seqs.length) (seq : List Nat) :
    value ⟨seqs ++ [seq], longest⟩ = value ⟨seqs, longest⟩ := by
  refine List.map_congr_left fun ref href => ?_
  cases ref with
  | none => rfl
  | some ptr =>
    have hlt := h ptr href
    simp only [Option.map_some, deref, List.getElem?_append_left hlt]

theorem value_set (p : Pointers) (id ptr : Nat) :
    value { p with longest := p.longest.set id (some ptr) } =
      p.value.set id (some (p.deref ptr)) :=
  List.map_set

theorem make_spec (hvalid : ∀ ptr, some ptr ∈ p.longest → ptr < p.seqs.length)
    (hmade : ∀ ptr, made = some ptr → p.seqs[ptr]? = some seq) {ptr : Nat}
    (h : p.make seq made = (ptr, p')) :
    p'.longest = p.longest ∧ p'.value = p.value ∧ p'.seqs[ptr]? = some seq ∧
      p.seqs.length ≤ p'.seqs.length ∧
      (p'.seqs = p.seqs ∨ made = none ∧ p'.seqs = p.seqs ++ [seq]) := by
  cases made with
  | some ptr₀ =>
    obtain ⟨rfl, rfl⟩ := Prod.mk.inj h
    exact ⟨rfl, rfl, hmade _ rfl, Nat.le_refl _, .inl rfl⟩
  | none =>
    obtain ⟨rfl, rfl⟩ := Prod.mk.inj h
    refine ⟨rfl, value_append hvalid seq, ?_, ?_, .inr ⟨rfl, rfl⟩⟩
    · exact List.getElem?_concat_length
    · rw [List.length_append]
      omega

/-- The loop with pointers does what the loop without them does.  Where it makes `seq`, some
operation in it had no sequence as long. -/
theorem update_spec : ∀ {calls : List Nat} {made : Option Nat} {p : Pointers},
    (∀ ptr, some ptr ∈ p.longest → ptr < p.seqs.length) →
    (∀ ptr, made = some ptr → p.seqs[ptr]? = some seq) →
    p.update seq calls made = some p' →
      updateLongest seq calls p.value = some p'.value ∧
      (∀ ptr, some ptr ∈ p'.longest → ptr < p'.seqs.length) ∧
      (p'.seqs = p.seqs ∨ made = none ∧ p'.seqs = p.seqs ++ [seq] ∧
        ∃ i ∈ calls, ¬ Reached p.value i seq.length) := by
  intro calls
  induction calls with
  | nil =>
    intro made p hvalid _ h
    obtain rfl := Option.some.inj h
    exact ⟨rfl, hvalid, .inl rfl⟩
  | cons id calls ih =>
    intro made p hvalid hmade h
    simp only [update, Option.bind_eq_bind, Option.bind_eq_some_iff] at h
    obtain ⟨old, hold, h⟩ := h
    have hvalue : p.value[id]? = some (old.map p.deref) := by rw [getElem?_value, hold]; rfl
    have hall : (old.map p.deref).all (fun old => decide (seq.length > old.length)) =
        old.all fun ptr => decide (seq.length > (p.deref ptr).length) := by
      cases old <;> rfl
    simp only [updateLongest, hvalue, Option.bind_eq_bind, Option.bind_some, hall]
    by_cases hlonger : (old.all fun ptr => decide (seq.length > (p.deref ptr).length)) = true
    · rw [if_pos hlonger] at h ⊢
      generalize hmk : p.make seq made = r at h
      obtain ⟨ptr, p₁⟩ := r
      obtain ⟨hlongest, hval, hptr, hle, hseqs⟩ := make_spec hvalid hmade hmk
      have hlt := (List.getElem?_eq_some_iff.mp hptr).1
      have hderef : p₁.deref ptr = seq := by rw [deref, hptr, Option.getD_some]
      obtain ⟨hupdate, hvalid', hsame⟩ :=
        ih (p := { p₁ with longest := p₁.longest.set id (some ptr) }) (fun k hk => by
          rcases List.mem_or_eq_of_mem_set hk with hk | hk
          · exact (hvalid k (hlongest ▸ hk)).trans_le hle
          · exact Option.some.inj hk ▸ hlt)
        (fun k hk => Option.some.inj hk ▸ hptr) h
      rw [value_set, hval, hderef] at hupdate
      refine ⟨hupdate, hvalid', ?_⟩
      have hsame := hsame.resolve_right fun hk => absurd hk.1 (by simp)
      rcases hseqs with hseqs | ⟨hnone, hseqs⟩
      · exact .inl (hsame.trans hseqs)
      · refine .inr ⟨hnone, hsame.trans hseqs, id, List.mem_cons_self .., ?_⟩
        rintro ⟨s, hs, hlen⟩
        rw [hvalue] at hs
        obtain ⟨ptr', rfl, rfl⟩ := Option.map_eq_some_iff.mp (Option.some.inj hs)
        have hgt := of_decide_eq_true hlonger
        omega
    · rw [if_neg hlonger] at h ⊢
      obtain ⟨hupdate, hvalid', hseqs⟩ := ih hvalid hmade h
      refine ⟨hupdate, hvalid', hseqs.imp_right ?_⟩
      rintro ⟨hnone, hseqs, i, hi, hnot⟩
      exact ⟨hnone, hseqs, i, List.mem_cons_of_mem _ hi, hnot⟩

theorem exists_update : ∀ {calls : List Nat} {made : Option Nat} {p : Pointers},
    (∀ i ∈ calls, i < p.longest.length) → ∃ p', p.update seq calls made = some p' := by
  intro calls
  induction calls with
  | nil => exact fun _ => ⟨_, rfl⟩
  | cons id calls ih =>
    intro made p hlt
    have hid := List.getElem?_eq_getElem (hlt id (List.mem_cons_self ..))
    have hcalls := fun i hi => hlt i (List.mem_cons_of_mem _ hi)
    simp only [update, hid, Option.bind_eq_bind, Option.bind_some]
    split
    · refine ih fun i hi => ?_
      rw [List.length_set]
      cases made <;> exact hcalls i hi
    · exact ih hcalls

theorem lt_of_updateLongest : ∀ {calls : List Nat} {longest longest' : Longest},
    updateLongest seq calls longest = some longest' → ∀ i ∈ calls, i < longest.length := by
  intro calls
  induction calls with
  | nil => intro _ _ _ i hi; exact absurd hi List.not_mem_nil
  | cons id calls ih =>
    intro longest longest' h i hi
    simp only [updateLongest, Option.bind_eq_bind, Option.bind_eq_some_iff] at h
    obtain ⟨old, hold, h⟩ := h
    rcases List.mem_cons.mp hi with rfl | hi
    · exact (List.getElem?_eq_some_iff.mp hold).1
    · have hlt := ih h i hi
      split at hlt
      · rwa [List.length_set] at hlt
      · exact hlt

/-- **One turn of the search keeps the pointers apart**: a `seq` that there was already counts for
all operations in it. -/
theorem Inv.update (h : p.Inv) (hu : p.update seq seq none = some p') :
    p'.Inv ∧ updateLongest seq seq p.value = some p'.value := by
  obtain ⟨hupdate, hvalid, hseqs⟩ := update_spec h.valid (fun _ hk => absurd hk (by simp)) hu
  obtain ⟨longest', heq, -, hmono, hall, -⟩ :=
    updateLongest_spec seq seq p.value (lt_of_updateLongest hupdate)
  obtain rfl := Option.some.inj (hupdate.symm.trans heq)
  refine ⟨⟨hvalid, ?_, ?_⟩, hupdate⟩
  · intro s hs i hi
    rcases hseqs with hseqs | ⟨-, hseqs, -⟩
    · exact hmono i _ (h.reached s (hseqs ▸ hs) i hi)
    · rw [hseqs, List.mem_append, List.mem_singleton] at hs
      rcases hs with hs | rfl
      · exact hmono i _ (h.reached s hs i hi)
      · exact hall i hi
  · rcases hseqs with hseqs | ⟨-, hseqs, i, hi, hnot⟩
    · exact hseqs ▸ h.nodup
    · rw [hseqs, List.nodup_append]
      refine ⟨h.nodup, List.nodup_singleton seq, fun s hs t ht heq => hnot ?_⟩
      rw [List.mem_singleton.mp ht] at heq
      exact h.reached seq (heq ▸ hs) i hi

theorem Inv.distinct (h : p.Inv) : p.Distinct := by
  intro ptr ptr' hptr hptr' heq
  have hlt := h.valid ptr hptr
  have hlt' := h.valid ptr' hptr'
  rw [deref_of_lt hlt, deref_of_lt hlt'] at heq
  exact (List.Nodup.getElem_inj_iff h.nodup).mp heq

theorem distinct_all (seq : List Nat) (p : Pointers) : (p.all seq).Distinct := by
  intro ptr ptr' hptr hptr' _
  obtain ⟨-, -, heq⟩ := List.mem_map.mp hptr
  obtain ⟨-, -, heq'⟩ := List.mem_map.mp hptr'
  exact Option.some.inj (heq.symm.trans heq')

theorem value_all (seq : List Nat) (p : Pointers) :
    (p.all seq).value = p.value.map fun _ => some seq := by
  simp only [value, all, List.map_map]
  refine List.map_congr_left fun ref _ => ?_
  simp [deref]

/-- **A set of pointers is as good as a set of sequences.** -/
theorem Distinct.partials_perm (h : p.Distinct) (order : Visits Nat)
    (order' : Visits (List Nat)) :
    (p.partials order).Perm (Porcupine.partials order' p.value) := by
  have hmem : ∀ ptr, ptr ∈ order.visit (p.longest.filterMap id).dedup ↔ some ptr ∈ p.longest := by
    intro ptr
    rw [(order.perm _).mem_iff, List.mem_dedup, List.mem_filterMap]
    simp
  refine (List.perm_ext_iff_of_nodup ?_ ?_).mpr fun seq => ?_
  · refine List.Nodup.map_on (fun x hx y hy heq => ?_)
      ((order.perm _).nodup_iff.mpr (List.nodup_dedup _))
    exact h x y ((hmem x).mp hx) ((hmem y).mp hy) heq
  · exact nodup_partials order' _
  · rw [mem_partials, Pointers.partials, List.mem_map, value, List.mem_map]
    constructor
    · rintro ⟨ptr, hptr, rfl⟩
      exact ⟨some ptr, (hmem ptr).mp hptr, rfl⟩
    · rintro ⟨ref, href, heq⟩
      obtain ⟨ptr, rfl, rfl⟩ := Option.map_eq_some_iff.mp heq
      exact ⟨ptr, (hmem ptr).mpr href, rfl⟩

end Pointers

/-! ## The goroutines with pointers -/

/-- `checkSingle`, with pointers in `longest`. -/
structure Pointed (ι ω σ : Type) where
  search : Search ι ω σ
  pointers : Pointers

/-- The search is at a return, and puts back what was carried out last. -/
def Search.putsBack (s : Search ι ω σ) : Bool :=
  (s.entry.bind fun entry => (s.memory entry).matching).isNone && !s.calls.isEmpty

namespace Pointed

/-- What is done before the loop. -/
def start (model : Model ι ω σ) (history : List (Entry ι ω)) : Pointed ι ω σ where
  search := Search.start model history
  pointers := ⟨[], (Search.start model history).longest.map fun _ => none⟩

/-- What a turn of the loop does to `longest`. -/
def note (computePartial kill : Bool) (q : Pointed ι ω σ) : Option Pointers :=
  if (q.search.memory q.search.headEntry).next = none then some (q.pointers.all q.search.seq)
  else if !kill && computePartial && q.search.putsBack then
    q.pointers.update q.search.seq q.search.seq none
  else some q.pointers

/-- A turn of the loop. -/
def turn (model : Model ι ω σ) (computePartial kill : Bool) (q : Pointed ι ω σ) :
    Option (Pointed ι ω σ ⊕ Bool × Pointers) := do
  let pointers ← q.note computePartial kill
  match ← q.search.turn model computePartial kill with
  | .inl search => return .inl ⟨search, pointers⟩
  | .inr (ok, _) => return .inr (ok, pointers)

/-- What a goroutine comes to, whenever it reads that it is to stop. -/
inductive Run (model : Model ι ω σ) (computePartial : Bool) (q₀ : Pointed ι ω σ) :
    Pointed ι ω σ ⊕ Bool × Pointers → Prop
  | start : Run model computePartial q₀ (.inl q₀)
  | turn {q : Pointed ι ω σ} {r : Pointed ι ω σ ⊕ Bool × Pointers} (kill : Bool) :
      Run model computePartial q₀ (.inl q) → q.turn model computePartial kill = some r →
        Run model computePartial q₀ r

/-- The pointers point to what the search has without them. -/
structure Agrees (q : Pointed ι ω σ) : Prop where
  value : q.pointers.value = q.search.longest
  inv : q.pointers.Inv

variable {model : Model ι ω σ} {computePartial kill : Bool} {q : Pointed ι ω σ}
  {s : Search ι ω σ}

theorem agrees_start (model : Model ι ω σ) (history : List (Entry ι ω)) :
    (start model history).Agrees where
  value := by
    have hnone : ∀ seq ∈ (Search.start model history).longest, none = seq := by
      intro seq hseq
      rw [Search.start] at hseq
      exact (List.eq_of_mem_replicate hseq).symm
    rw [Pointers.value, start, List.map_map]
    exact (List.map_congr_left hnone).trans (List.map_id' _)
  inv := by
    refine ⟨fun ptr hptr => ?_, fun seq hseq => absurd hseq List.not_mem_nil, List.nodup_nil⟩
    obtain ⟨_, _, h⟩ := List.mem_map.mp hptr
    exact absurd h (by simp)

theorem longest_of_iterate {r : Search ι ω σ ⊕ Bool × Longest}
    (hnext : (s.memory s.headEntry).next ≠ none) (h : s.iterate model computePartial = some r) :
    (if computePartial && s.putsBack then updateLongest s.seq s.seq s.longest
      else some s.longest) = some (r.elim Search.longest Prod.snd) := by
  rw [Search.iterate, if_neg hnext] at h
  simp only [Option.bind_eq_bind, Option.bind_eq_some_iff] at h
  obtain ⟨entry, he, h⟩ := h
  cases hm : (s.memory entry).matching with
  | some matching =>
    have hback : s.putsBack = false := by simp [Search.putsBack, he, hm]
    simp only [hm, Option.bind_eq_some_iff] at h
    obtain ⟨input, -, output, -, h⟩ := h
    rw [hback, Bool.and_false, if_neg Bool.false_ne_true]
    split at h
    · obtain ⟨linearized, -, h⟩ := Option.bind_eq_some_iff.mp h
      split at h
      · obtain ⟨memory, -, h⟩ := Option.bind_eq_some_iff.mp h
        obtain rfl := Option.some.inj h
        rfl
      · obtain rfl := Option.some.inj h
        rfl
    · obtain rfl := Option.some.inj h
      rfl
  | none =>
    cases hcalls : s.calls with
    | nil =>
      have hback : s.putsBack = false := by simp [Search.putsBack, hcalls]
      simp only [hm, hcalls] at h
      obtain rfl := Option.some.inj h
      rw [hback, Bool.and_false, if_neg Bool.false_ne_true]
      rfl
    | cons top calls =>
      have hback : s.putsBack = true := by simp [Search.putsBack, he, hm, hcalls]
      rw [hback, Bool.and_true]
      cases computePartial <;>
        simp only [hm, hcalls, Bool.false_eq_true, if_false, if_true,
          Option.bind_eq_some_iff] at h
      all_goals
        obtain ⟨longest, hlongest, linearized, -, memory, -, h⟩ := h
        obtain rfl := Option.some.inj h
        exact hlongest

/-- What a turn does to the pointers, where it is not the last of a search that says yes. -/
theorem Agrees.note (h : q.Agrees) (hnext : (q.search.memory q.search.headEntry).next ≠ none)
    {r : Search ι ω σ ⊕ Bool × Longest}
    (hr : q.search.turn model computePartial kill = some r) :
    ∃ p, q.note computePartial kill = some p ∧ p.value = r.elim Search.longest Prod.snd ∧
      p.Inv := by
  rw [Pointed.note, if_neg hnext]
  cases kill with
  | true =>
    rw [Search.turn, if_pos ⟨hnext, rfl⟩] at hr
    obtain rfl := Option.some.inj hr
    rw [Bool.not_true, Bool.false_and, Bool.false_and, if_neg Bool.false_ne_true]
    exact ⟨_, rfl, h.value, h.inv⟩
  | false =>
    rw [turn_of_not_killed] at hr
    have hlongest := longest_of_iterate hnext hr
    rw [Bool.not_false, Bool.true_and]
    split at hlongest
    · rename_i hback
      rw [← h.value] at hlongest
      have hlt := Pointers.lt_of_updateLongest hlongest
      rw [Pointers.value, List.length_map] at hlt
      obtain ⟨p, hp⟩ := Pointers.exists_update hlt
      obtain ⟨hinv, hvalue⟩ := h.inv.update hp
      rw [if_pos hback]
      exact ⟨p, hp, Option.some.inj (hvalue.symm.trans hlongest), hinv⟩
    · rename_i hback
      rw [if_neg hback]
      exact ⟨_, rfl, h.value.trans (Option.some.inj hlongest), h.inv⟩

/-- **A turn with pointers** does what a turn without them does. -/
theorem Agrees.turn (h : q.Agrees) {r : Search ι ω σ ⊕ Bool × Longest}
    (hr : q.search.turn model computePartial kill = some r) :
    (∃ q', q.turn model computePartial kill = some (.inl q') ∧ r = .inl q'.search ∧ q'.Agrees) ∨
    ∃ ok p, q.turn model computePartial kill = some (.inr (ok, p)) ∧ r = .inr (ok, p.value) ∧
      p.Distinct := by
  by_cases hnext : (q.search.memory q.search.headEntry).next = none
  · have hnote : q.note computePartial kill = some (q.pointers.all q.search.seq) := if_pos hnext
    have hr' := hr
    rw [Search.turn, if_neg (fun hk => hk.1 hnext), Search.iterate, if_pos hnext] at hr'
    obtain rfl := Option.some.inj hr'
    refine .inr ⟨true, _, ?_, ?_, Pointers.distinct_all q.search.seq q.pointers⟩
    · simp only [Pointed.turn, hnote, hr, Option.bind_eq_bind, Option.bind_some, Option.pure_def]
    · rw [Pointers.value_all, h.value]
  · obtain ⟨p, hp, hvalue, hinv⟩ := h.note hnext hr
    rcases r with s | ⟨ok, longest⟩
    · refine .inl ⟨⟨s, p⟩, ?_, rfl, ⟨hvalue, hinv⟩⟩
      simp only [Pointed.turn, hp, hr, Option.bind_eq_bind, Option.bind_some, Option.pure_def]
    · refine .inr ⟨ok, p, ?_, by rw [hvalue]; rfl, hinv.distinct⟩
      simp only [Pointed.turn, hp, hr, Option.bind_eq_bind, Option.bind_some, Option.pure_def]

end Pointed

namespace Check

variable {model : Model ι ω σ} {computeInfo : Bool} {timeout : Int} {c c' : Check ι ω σ}
  {history : List (List (Entry ι ω))} {e : Event}

/-- Every goroutine is where one with pointers is. -/
structure Pointing (model : Model ι ω σ) (computeInfo : Bool)
    (history : List (List (Entry ι ω))) (c : Check ι ω σ) : Prop where
  running : ∀ (i : Nat) s, c.goroutines[i]? = some (.running s) → ∃ subhistory q,
    history[i]? = some subhistory ∧
      Pointed.Run model computeInfo (Pointed.start model subhistory) (.inl q) ∧
      q.search = s ∧ q.Agrees
  returned : ∀ (i : Nat) longest, c.longest[i]? = some (some longest) → ∃ subhistory ok p,
    history[i]? = some subhistory ∧
      Pointed.Run model computeInfo (Pointed.start model subhistory) (.inr (ok, p)) ∧
      p.value = longest ∧ p.Distinct

theorem pointing_start : Pointing model computeInfo history (start model history) where
  running i s hs := by
    simp only [start, List.getElem?_map, Option.map_eq_some_iff] at hs
    obtain ⟨subhistory, hi, heq⟩ := hs
    exact ⟨subhistory, _, hi, .start, Goroutine.running.inj heq,
      Pointed.agrees_start model subhistory⟩
  returned i longest hl := by
    have hmem := List.eq_of_mem_replicate (List.mem_of_getElem? hl)
    exact absurd hmem (by simp)

theorem Pointing.turn (h : Pointing model computeInfo history c) {i : Nat} {s : Search ι ω σ}
    {r : Search ι ω σ ⊕ Bool × Longest} (hs : c.goroutines[i]? = some (.running s))
    (hr : s.turn model computeInfo c.kill = some r) : ∃ subhistory,
      history[i]? = some subhistory ∧
      ((∃ q, r = .inl q.search ∧
          Pointed.Run model computeInfo (Pointed.start model subhistory) (.inl q) ∧ q.Agrees) ∨
        ∃ ok p, r = .inr (ok, p.value) ∧
          Pointed.Run model computeInfo (Pointed.start model subhistory) (.inr (ok, p)) ∧
          p.Distinct) := by
  obtain ⟨subhistory, q, hi, hrun, rfl, hq⟩ := h.running i s hs
  refine ⟨subhistory, hi, ?_⟩
  rcases hq.turn hr with ⟨q', hturn, rfl, hq'⟩ | ⟨ok, p, hturn, rfl, hp⟩
  · exact .inl ⟨q', rfl, hrun.turn _ hturn, hq'⟩
  · exact .inr ⟨ok, p, rfl, hrun.turn _ hturn, hp⟩

theorem Pointing.move (h : Pointing model computeInfo history c)
    (hm : Move model computeInfo timeout c e c') : Pointing model computeInfo history c' := by
  cases hm with
  | @goOn i s s' hs hturn =>
    refine ⟨fun j s₁ hj => ?_, h.returned⟩
    by_cases hij : i = j
    · subst hij
      rw [List.getElem?_set_self (List.getElem?_eq_some_iff.mp hs).1] at hj
      obtain rfl := Goroutine.running.inj (Option.some.inj hj)
      obtain ⟨subhistory, hi, ⟨q, heq, hrun, hq⟩ | ⟨ok, p, heq, -⟩⟩ := h.turn hs hturn
      · exact ⟨subhistory, q, hi, hrun, (Sum.inl.inj heq).symm, hq⟩
      · exact absurd heq Sum.inl_ne_inr
    · exact h.running j s₁ ((List.getElem?_set_ne hij).symm.trans hj)
  | @send i s ok l hs hturn =>
    refine ⟨fun j s₁ hj => ?_, fun j longest hj => ?_⟩
    · by_cases hij : i = j
      · subst hij
        rw [List.getElem?_set_self (List.getElem?_eq_some_iff.mp hs).1] at hj
        exact absurd (Option.some.inj hj) (by simp)
      · exact h.running j s₁ ((List.getElem?_set_ne hij).symm.trans hj)
    · by_cases hij : i = j
      · subst hij
        have hlt := (List.getElem?_eq_some_iff.mp hj).1
        rw [List.length_set] at hlt
        rw [List.getElem?_set_self hlt] at hj
        obtain rfl := Option.some.inj (Option.some.inj hj)
        obtain ⟨subhistory, hi, ⟨q, heq, -⟩ | ⟨ok', p, heq, hrun, hp⟩⟩ := h.turn hs hturn
        · exact absurd heq Sum.inr_ne_inl
        · exact ⟨subhistory, ok', p, hi, hrun, (congrArg Prod.snd (Sum.inr.inj heq)).symm, hp⟩
      · exact h.returned j longest ((List.getElem?_set_ne hij).symm.trans hj)
  | stop => exact ⟨h.running, h.returned⟩
  | last => exact ⟨h.running, h.returned⟩
  | take => exact ⟨h.running, h.returned⟩
  | drop => exact ⟨h.running, h.returned⟩
  | expire => exact ⟨h.running, h.returned⟩

/-- **The partial linearizations that are returned**, of every partition whose goroutine has
returned: those that the pointers of this goroutine give, but for the order. -/
theorem partials_of_trace {past : List (Check ι ω σ)}
    (ht : Trace (step model computeInfo timeout) (fun _ _ => True) (start model history)
      (c :: past)) (i : Nat) (longest : Longest) (hi : c.longest[i]? = some (some longest)) :
    ∃ subhistory ok p, history[i]? = some subhistory ∧
      Pointed.Run model computeInfo (Pointed.start model subhistory) (.inr (ok, p)) ∧
      ∀ (order : Visits Nat) (orders : Nat → Visits (List Nat)), ∃ returned,
        (c.partialLinearizations true orders)[i]? = some returned ∧
        (p.partials order).Perm returned := by
  have hall := Trace.invariant (I := Pointing model computeInfo history) pointing_start
    (fun s s' e hs _ he => hs.move (move_of_step he)) _ ht
  obtain ⟨subhistory, ok, p, hsub, hrun, rfl, hp⟩ :=
    (hall c (List.mem_cons_self ..)).returned i longest hi
  refine ⟨subhistory, ok, p, hsub, hrun, fun order orders =>
    ⟨_, ?_, hp.partials_perm order (orders i)⟩⟩
  rw [partialLinearizations, if_pos rfl, List.getElem?_mapIdx, hi]
  rfl

end Check

end ShardRaft.Porcupine
