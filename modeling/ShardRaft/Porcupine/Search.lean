import Mathlib.Data.List.Nodup
import ShardRaft.Porcupine.Checker

/-!
# What the search finds

A `Layout` says which call or return each address stands for.  What the search has not taken
out of the list are the addresses of the operations that are not in `linearized`
(`Layout.left`), and it is at the operations `order` when these have been carried out (`At`).

* `Layout.set`: taking out an operation is `without` for the calls and returns.
* `iterate_done` … `iterate_pop`: what one turn of the loop does.
-/

namespace ShardRaft.Porcupine

open Lib

variable {ι ω σ : Type}

/-- The model carries out an operation. -/
def Model.carryOut (model : Model ι ω σ) (s : σ) (elem : Operation ι ω) : Option σ :=
  match model.step s elem.input elem.output with
  | (true, s) => some s
  | (false, _) => none

/-- The model carries out an operation of a history. -/
def stepOf (model : Model ι ω σ) (history : List (Operation ι ω)) (s : σ) (i : Nat) : Option σ :=
  history[i]?.bind (model.carryOut s)

/-- Which calls and returns of a history the addresses stand for. -/
structure Layout (ι ω : Type) where
  size : Nat
  history : List (Operation ι ω)
  mark : Nat → Mark Nat
  lt_ops : ∀ a < size, (mark a).id < history.length
  paired : Paired ((List.range size).map mark)

theorem stepOf_eq_some {model : Model ι ω σ} {history : List (Operation ι ω)} {s s' : σ} {i : Nat}
    {elem : Operation ι ω} (helem : history[i]? = some elem) :
    stepOf model history s i = some s' ↔ model.step s elem.input elem.output = (true, s') := by
  simp only [stepOf, helem, Option.bind_some, Model.carryOut]
  rcases model.step s elem.input elem.output with ⟨ok, s₁⟩
  cases ok <;> simp

theorem stepOf_eq_none {model : Model ι ω σ} {history : List (Operation ι ω)} {s : σ} {i : Nat}
    {elem : Operation ι ω} (helem : history[i]? = some elem) (h : stepOf model history s i = none) :
    ∃ s', model.step s elem.input elem.output = (false, s') := by
  simp only [stepOf, helem, Option.bind_some, Model.carryOut] at h
  rcases hs : model.step s elem.input elem.output with ⟨ok, s₁⟩
  rw [hs] at h
  cases ok with
  | false => exact ⟨s₁, rfl⟩
  | true => exact absurd h (by simp)

namespace Layout

variable (L : Layout ι ω)

/-- All calls and returns. -/
def all : List (Mark Nat) := (List.range L.size).map L.mark

/-- The addresses that are left in the list. -/
def left (b : Bitset) : List Nat := (List.range L.size).filter fun a => !b.get (L.mark a).id

/-- The calls and returns that are left. -/
def marks (b : Bitset) : List (Mark Nat) := (L.left b).map L.mark

/-- The nodes hold what the addresses stand for. -/
structure Labelled (m : Memory ι ω) : Prop where
  call : ∀ a < L.size, ∀ i, L.mark a = .call i → ∃ elem r, L.history[i]? = some elem ∧
    r < L.size ∧ L.mark r = .ret i ∧ (m a).toLabel = ⟨some (.input elem.input), some r, i⟩
  ret : ∀ a < L.size, ∀ i, L.mark a = .ret i → ∃ elem, L.history[i]? = some elem ∧
    (m a).toLabel = ⟨some (.output elem.output), none, i⟩

variable {L} {b b' : Bitset} {a a' i : Nat} {pre post : List Nat}

theorem Labelled.congr {m m' : Memory ι ω} (h : L.Labelled m)
    (hl : ∀ c, (m' c).toLabel = (m c).toLabel) : L.Labelled m' where
  call a ha i hi := by
    obtain ⟨elem, r, helem, hr, hri, hlabel⟩ := h.call a ha i hi
    exact ⟨elem, r, helem, hr, hri, (hl a).trans hlabel⟩
  ret a ha i hi := by
    obtain ⟨elem, helem, hlabel⟩ := h.ret a ha i hi
    exact ⟨elem, helem, (hl a).trans hlabel⟩

theorem mem_left : a ∈ L.left b ↔ a < L.size ∧ b.get (L.mark a).id = false := by
  simp [left]

theorem nodup_left : (L.left b).Nodup := List.nodup_range.filter _

theorem mark_inj (ha : a < L.size) (ha' : a' < L.size) (h : L.mark a = L.mark a') : a = a' :=
  List.inj_on_of_nodup_map L.paired.nodup (List.mem_range.mpr ha) (List.mem_range.mpr ha') h

theorem left_newBitset (n : Nat) : L.left (Bitset.newBitset n) = List.range L.size := by
  rw [left, List.filter_eq_self]
  intro a _
  rw [Bitset.get_newBitset]
  rfl

theorem left_set (h : b.set i = some b') :
    L.left b' = (L.left b).filter fun a => (L.mark a).id ≠ i := by
  rw [left, left, List.filter_filter]
  refine List.filter_congr fun a _ => ?_
  rw [Bitset.get_set h]
  by_cases ha : (L.mark a).id = i
  · simp [ha]
  · simp [ha]

/-- **Taking out an operation.** -/
theorem marks_set (h : b.set i = some b') : L.marks b' = without (L.marks b) i := by
  rw [marks, left_set h, without, marks, List.filter_map]
  rfl

theorem filter_two {p : Nat → Bool} {r : Nat} {mid : List Nat}
    (hn : (pre ++ a :: (mid ++ r :: post)).Nodup) (ha : p a = false) (hr : p r = false)
    (h : ∀ c ∈ pre ++ a :: (mid ++ r :: post), c ≠ a → c ≠ r → p c = true) :
    (pre ++ a :: (mid ++ r :: post)).filter p = pre ++ (mid ++ post) := by
  obtain ⟨-, hn', hdisj⟩ := List.nodup_append.mp hn
  obtain ⟨hnot, hn''⟩ := List.nodup_cons.mp hn'
  obtain ⟨-, hn₃, hdisj'⟩ := List.nodup_append.mp hn''
  have hnot' := (List.nodup_cons.mp hn₃).1
  rw [List.filter_append, List.filter_cons_of_neg (by simp [ha]), List.filter_append,
    List.filter_cons_of_neg (by simp [hr])]
  have hpre : pre.filter p = pre := by
    refine List.filter_eq_self.mpr fun c hc => h c (by simp [hc]) ?_ ?_
    · exact fun heq => hdisj c hc a (by simp) heq
    · exact fun heq => hdisj c hc r (by simp) heq
  have hmid : mid.filter p = mid := by
    refine List.filter_eq_self.mpr fun c hc => h c (by simp [hc]) ?_ ?_
    · exact fun heq => hnot (by simp [← heq, hc])
    · exact fun heq => hdisj' c hc r (by simp) heq
  have hpost : post.filter p = post := by
    refine List.filter_eq_self.mpr fun c hc => h c (by simp [hc]) ?_ ?_
    · exact fun heq => hnot (by simp [← heq, hc])
    · exact fun heq => hnot' (heq ▸ hc)
  rw [hpre, hmid, hpost]

/-- Behind a call there is its return.  Both are taken out. -/
theorem split_call (hp : Paired (L.marks b)) (hl : L.left b = pre ++ a :: post)
    (ha : L.mark a = .call i) : ∃ mid r post', post = mid ++ r :: post' ∧ L.mark r = .ret i ∧
      r < L.size ∧ ∀ b', b.set i = some b' → L.left b' = pre ++ (mid ++ post') := by
  have hmarks : L.marks b = pre.map L.mark ++ .call i :: post.map L.mark := by
    rw [marks, hl, List.map_append, List.map_cons, ha]
  have hpost : Mark.ret i ∈ post.map L.mark := by
    rw [hmarks] at hp
    exact hp.ret_mem
  obtain ⟨r, hr, hri⟩ := List.mem_map.mp hpost
  obtain ⟨mid, post', rfl⟩ := List.append_of_mem hr
  have hlt : ∀ c ∈ L.left b, c < L.size := fun c hc => (mem_left.mp hc).1
  have hmem : a ∈ L.left b ∧ r ∈ L.left b := by simp [hl]
  refine ⟨mid, r, post', rfl, hri, hlt r hmem.2, ?_⟩
  intro b' hb'
  have hn : (pre ++ a :: (mid ++ r :: post')).Nodup := hl ▸ nodup_left
  -- no other address stands for this operation
  have hother : ∀ c ∈ L.left b, c ≠ a → c ≠ r → decide ((L.mark c).id ≠ i) = true := by
    intro c hc hca hcr
    refine decide_eq_true fun hci => ?_
    cases hm : L.mark c with
    | call j =>
      rw [hm] at hci
      obtain rfl : j = i := hci
      exact hca (mark_inj (hlt c hc) (hlt a hmem.1) (hm.trans ha.symm))
    | ret j =>
      rw [hm] at hci
      obtain rfl : j = i := hci
      exact hcr (mark_inj (hlt c hc) (hlt r hmem.2) (hm.trans hri.symm))
  rw [left_set hb', hl]
  refine filter_two hn (by simp [ha, Mark.id]) (by simp [hri, Mark.id]) ?_
  rwa [← hl]

end Layout

/-! ### The longest orders -/

/-- An order of at least this length has been found that `i` is in. -/
def Reached (longest : Longest) (i k : Nat) : Prop :=
  ∃ seq, longest[i]? = some (some seq) ∧ k ≤ seq.length

/-- Every order found is one that the search can take, and its operation is in it. -/
structure Sound (L : Layout ι ω) (model : Model ι ω σ) (longest : Longest) : Prop where
  length : longest.length = L.history.length
  takes : ∀ i seq, longest[i]? = some (some seq) → i ∈ seq ∧
    ∃ l s, Takes (stepOf model L.history) L.all model.init seq l s

theorem updateLongest_cons (seq calls : List Nat) {id : Nat} {longest : Longest}
    (hid : id < longest.length) : ∃ longest' : Longest,
      updateLongest seq (id :: calls) longest = updateLongest seq calls longest' ∧
      longest'.length = longest.length ∧ (∀ i k, Reached longest i k → Reached longest' i k) ∧
      Reached longest' id seq.length ∧
      ∀ i x, longest'[i]? = some (some x) → longest[i]? = some (some x) ∨ i = id ∧ x = seq := by
  have hold : longest[id]? = some longest[id] := List.getElem?_eq_getElem hid
  have hset : (longest.set id (some seq))[id]? = some (some seq) := List.getElem?_set_self hid
  by_cases h : longest[id].all fun old => seq.length > old.length
  · refine ⟨longest.set id (some seq), ?_, List.length_set, ?_, ⟨seq, hset, Nat.le_refl _⟩, ?_⟩
    · simp only [updateLongest, hold, Option.bind_eq_bind, Option.bind_some, h, if_true]
    · rintro i k ⟨old, hi, hk⟩
      by_cases hi' : id = i
      · subst hi'
        rw [hold] at hi
        rw [Option.some.inj hi] at h
        have hlt : old.length < seq.length := by simpa using h
        exact ⟨seq, hset, by omega⟩
      · exact ⟨old, by rwa [List.getElem?_set_ne hi'], hk⟩
    · intro i x hx
      by_cases hi' : id = i
      · subst hi'
        rw [hset] at hx
        exact .inr ⟨rfl, (Option.some.inj (Option.some.inj hx)).symm⟩
      · rw [List.getElem?_set_ne hi'] at hx
        exact .inl hx
  · obtain ⟨old, hold', hle⟩ : ∃ old, longest[id] = some old ∧ seq.length ≤ old.length := by
      cases ho : longest[id] with
      | none => exact absurd (by rw [ho]; rfl) h
      | some old =>
        rw [ho] at h
        exact ⟨old, rfl, by simpa using h⟩
    refine ⟨longest, ?_, rfl, fun _ _ hr => hr, ⟨old, by rw [hold, hold'], hle⟩, fun _ _ => .inl⟩
    simp only [updateLongest, hold, Option.bind_eq_bind, Option.bind_some, h, Bool.false_eq_true,
      if_false]

/-- **The loop over `calls`** only finds more, and for each of its operations this order. -/
theorem updateLongest_spec (seq : List Nat) : ∀ (calls : List Nat) (longest : Longest),
    (∀ i ∈ calls, i < longest.length) → ∃ longest' : Longest,
      updateLongest seq calls longest = some longest' ∧
      longest'.length = longest.length ∧ (∀ i k, Reached longest i k → Reached longest' i k) ∧
      (∀ i ∈ calls, Reached longest' i seq.length) ∧
      ∀ i x, longest'[i]? = some (some x) → longest[i]? = some (some x) ∨ i ∈ calls ∧ x = seq := by
  intro calls
  induction calls with
  | nil =>
    intro longest _
    exact ⟨longest, rfl, rfl, fun _ _ hr => hr, by simp, fun _ _ => .inl⟩
  | cons id calls ih =>
    intro longest hlt
    obtain ⟨longest₁, heq, hlen₁, hmono₁, hid, hold₁⟩ :=
      updateLongest_cons seq calls (hlt id (List.mem_cons_self ..))
    obtain ⟨longest₂, heq₂, hlen₂, hmono₂, hcalls, hold₂⟩ := ih longest₁ <| by
      intro i hi
      rw [hlen₁]
      exact hlt i (List.mem_cons_of_mem _ hi)
    refine ⟨longest₂, heq.trans heq₂, hlen₂.trans hlen₁, fun i k hr => hmono₂ i k (hmono₁ i k hr),
      ?_, ?_⟩
    · intro i hi
      rcases List.mem_cons.mp hi with rfl | hi
      · exact hmono₂ _ _ hid
      · exact hcalls i hi
    · intro i x hx
      rcases hold₂ i x hx with hx | ⟨hi, rfl⟩
      · rcases hold₁ i x hx with hx | ⟨rfl, rfl⟩
        · exact .inl hx
        · exact .inr ⟨List.mem_cons_self .., rfl⟩
      · exact .inr ⟨List.mem_cons_of_mem _ hi, rfl⟩

/-! ### One turn of the loop -/

/-- Where the search is when it has carried out `order`. -/
structure At (L : Layout ι ω) (model : Model ι ω σ) (s : Search ι ω σ) (order : List Nat) :
    Prop where
  headEntry : s.headEntry = L.size
  labelled : L.Labelled s.memory
  chain : Memory.Chain s.memory L.size (L.left s.linearized)
  width : ∀ i < L.history.length, i / 64 < s.linearized.data.length
  takes : Takes (stepOf model L.history) L.all model.init order (L.marks s.linearized) s.state
  calls : s.seq = order
  sound : Sound L model s.longest

/-- What is read of a call. -/
structure Reads (L : Layout ι ω) (s : Search ι ω σ) (a i r : Nat) (elem : Operation ι ω) :
    Prop where
  op : L.history[i]? = some elem
  matching : (s.memory a).matching = some r
  id : (s.memory a).id.toNat = i
  input : (s.memory a).value.bind Value.asInput = some elem.input
  output : (s.memory r).value.bind Value.asOutput = some elem.output

namespace At

variable {L : Layout ι ω} {model : Model ι ω σ} {computePartial : Bool} {s : Search ι ω σ}
  {order pre post : List Nat} {a i : Nat}

theorem paired (h : At L model s order) : Paired (L.marks s.linearized) := h.takes.paired L.paired

theorem next_head (h : At L model s order) :
    (s.memory s.headEntry).next = (L.left s.linearized).head? := by
  rw [h.headEntry, h.chain.next_eq]

theorem iterate_done (computePartial : Bool) (h : At L model s order) (hl : L.left s.linearized = []) :
    Arranges (stepOf model L.history) (Earlier L.all) (.call · ∈ L.all) model.init order ∧
      s.iterate model computePartial =
        some (.inr (true, List.replicate L.history.length (some order))) := by
  have hmarks : L.marks s.linearized = [] := by rw [Layout.marks, hl, List.map_nil]
  refine ⟨(takes_nil_iff L.paired).mp ⟨s.state, hmarks ▸ h.takes⟩, ?_⟩
  have hnext : (s.memory s.headEntry).next = none := by rw [h.next_head, hl, List.head?_nil]
  rw [Search.iterate, if_pos hnext, h.calls, List.map_const', h.sound.length]

theorem reads (h : At L model s order) (ha : a < L.size) (hi : L.mark a = .call i) :
    ∃ r elem, r < L.size ∧ L.mark r = .ret i ∧ Reads L s a i r elem := by
  obtain ⟨elem, r, helem, hr, hri, hlabel⟩ := h.labelled.call a ha i hi
  obtain ⟨elem', helem', hret⟩ := h.labelled.ret r hr i hri
  obtain rfl : elem = elem' := Option.some.inj (helem.symm.trans helem')
  refine ⟨r, elem, hr, hri, ⟨helem, ?_, ?_, ?_, ?_⟩⟩
  · exact congrArg Label.matching hlabel
  · exact congrArg (fun x => Int.toNat (Label.id x)) hlabel
  · exact congrArg (fun x => (Label.value x).bind Value.asInput) hlabel
  · exact congrArg (fun x => (Label.value x).bind Value.asOutput) hret

end At

section iterate

variable {L : Layout ι ω} {model : Model ι ω σ} {computePartial : Bool} {s : Search ι ω σ}
  {a i r : Nat} {elem : Operation ι ω} {s' : σ} {b' : Bitset}

theorem iterate_skip (hnext : (s.memory s.headEntry).next ≠ none) (he : s.entry = some a)
    (hr : Reads L s a i r elem) (hstep : stepOf model L.history s.state i = none) :
    s.iterate model computePartial = some (.inl { s with entry := (s.memory a).next }) := by
  obtain ⟨s', hs⟩ := stepOf_eq_none hr.op hstep
  simp only [Search.iterate, if_neg hnext, he, hr.matching, hr.input, hr.output, hs,
    Option.bind_eq_bind, Option.bind_some, Bool.false_eq_true, if_false, Option.pure_def]

theorem iterate_seen (hnext : (s.memory s.headEntry).next ≠ none) (he : s.entry = some a)
    (hr : Reads L s a i r elem) (hstep : stepOf model L.history s.state i = some s')
    (hset : s.linearized.set i = some b') (hc : cacheContains model s.cache ⟨b', s'⟩ = true) :
    s.iterate model computePartial = some (.inl { s with entry := (s.memory a).next }) := by
  simp only [Search.iterate, if_neg hnext, he, hr.matching, hr.input, hr.output, hr.id, hset,
    (stepOf_eq_some hr.op).mp hstep, hc, Option.bind_eq_bind, Option.bind_some, if_true,
    Bool.not_true, Bool.false_eq_true, if_false, Option.pure_def]

/-- The search after it has carried out the call `a`. -/
def lifted (s : Search ι ω σ) (a : Nat) (m' : Memory ι ω) (b' : Bitset) (s' : σ) :
    Search ι ω σ where
  headEntry := s.headEntry
  memory := m'
  entry := (m' s.headEntry).next
  linearized := b'
  cache := Function.update s.cache b'.hash (s.cache b'.hash ++ [⟨b', s'⟩])
  calls := ⟨a, s.state⟩ :: s.calls
  longest := s.longest
  state := s'

theorem iterate_lift {m' : Memory ι ω} (hnext : (s.memory s.headEntry).next ≠ none)
    (he : s.entry = some a) (hr : Reads L s a i r elem)
    (hstep : stepOf model L.history s.state i = some s') (hset : s.linearized.set i = some b')
    (hc : cacheContains model s.cache ⟨b', s'⟩ = false)
    (hm : s.memory.lift a = some m') :
    s.iterate model computePartial = some (.inl (lifted s a m' b' s')) := by
  simp only [Search.iterate, if_neg hnext, he, hr.matching, hr.input, hr.output, hr.id, hset,
    (stepOf_eq_some hr.op).mp hstep, hc, hm, Option.bind_eq_bind, Option.bind_some, if_true,
    Bool.not_false, Option.pure_def, lifted]

theorem iterate_fail (hnext : (s.memory s.headEntry).next ≠ none) (he : s.entry = some a)
    (hmatch : (s.memory a).matching = none) (hcalls : s.calls = []) :
    s.iterate model computePartial = some (.inr (false, s.longest)) := by
  simp only [Search.iterate, if_neg hnext, he, hmatch, hcalls, Option.bind_eq_bind,
    Option.bind_some, Option.pure_def]

theorem iterate_pop (top : CallsEntry σ) (calls : List (CallsEntry σ)) {longest' : Longest}
    {b : Bitset} {m : Memory ι ω} (hnext : (s.memory s.headEntry).next ≠ none)
    (he : s.entry = some a) (hmatch : (s.memory a).matching = none)
    (hcalls : s.calls = top :: calls)
    (hlongest : (if computePartial then updateLongest s.seq s.seq s.longest else some s.longest) =
      some longest')
    (hclear : s.linearized.clear (s.memory top.entry).id.toNat = some b)
    (hm : s.memory.unlift top.entry = some m) :
    s.iterate model computePartial = some (.inl { s with
      memory := m, entry := (m top.entry).next, linearized := b, calls := calls,
      longest := longest', state := top.state }) := by
  cases computePartial with
  | false =>
    obtain rfl := Option.some.inj hlongest
    simp only [Search.iterate, if_neg hnext, he, hmatch, hcalls, hclear, hm, Option.bind_eq_bind,
      Option.bind_some, Bool.false_eq_true, if_false, Option.pure_def]
  | true =>
    rw [if_pos rfl] at hlongest
    simp only [Search.iterate, if_neg hnext, he, hmatch, hcalls, hclear, hm, hlongest,
      Option.bind_eq_bind, Option.bind_some, if_true, Option.pure_def]

end iterate

end ShardRaft.Porcupine
