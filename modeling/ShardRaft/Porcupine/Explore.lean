import ShardRaft.Porcupine.Search

/-!
# The search is complete

From where the search is, it either finds an order of all operations, or it comes to the first
return having tried every call in front of it in vain (`explore`).  That is shown for the
operations that are left, the fewest first, and for one such list along the calls in it.

The cache must not hide an order.  What is in the cache and has fewer operations left than
where the search is, has been explored; what has as many or more may be on the way that the
search has come.
-/

namespace ShardRaft.Porcupine

open Lib

variable {ι ω σ : Type} (L : Layout ι ω) (model : Model ι ω σ) (computePartial : Bool)

/-- There is nothing to be found here, and how far it goes has been noted. -/
structure Explored (longest : Longest) (e : CacheEntry σ) : Prop where
  fails : ¬ Completes (stepOf model L.history) (L.marks e.linearized) e.state
  noted : computePartial = true → ∃ order,
    Takes (stepOf model L.history) L.all model.init order (L.marks e.linearized) e.state ∧
    ∀ more l s, Takes (stepOf model L.history) (L.marks e.linearized) e.state more l s →
      ∀ i ∈ order ++ more, Reached longest i (order ++ more).length

/-- The calls at these addresses have been tried. -/
def Tried (longest : Longest) (b : Bitset) (state : σ) (calls : List Nat) : Prop :=
  ∀ a ∈ calls, ∀ i b' state', L.mark a = .call i → b.set i = some b' →
    stepOf model L.history state i = some state' →
      Explored L model computePartial longest ⟨b', state'⟩

/-- What is in the cache and has fewer operations left. -/
def Known (longest : Longest) (k : Nat) (cache : Cache σ) : Prop :=
  ∀ h, ∀ e ∈ cache h, (L.left e.linearized).length < k → Explored L model computePartial longest e

/-- The search finds an order of all operations. -/
def Found (s : Search ι ω σ) : Prop :=
  ∃ m order, Arranges (stepOf model L.history) (Earlier L.all) (.call · ∈ L.all) model.init order ∧
    ∀ fuel, s.loop model computePartial (fuel + m) =
      some (true, List.replicate L.history.length (some order))

/-- The search comes to the first return, at `r`, in vain. -/
structure Exhausts (s : Search ι ω σ) (cache : Cache σ) (longest : Longest) (pre : List Nat)
    (r : Nat) : Prop where
  first : ∃ j post, L.left s.linearized = pre ++ r :: post ∧ L.mark r = .ret j
  calls : ∀ a ∈ pre, (L.mark a).isCall = true
  loop : ∃ m, ∀ fuel, s.loop model computePartial (fuel + m) =
    Search.loop model computePartial fuel
      { s with entry := some r, cache := cache, longest := longest }
  sound : Sound L model longest
  mono : ∀ i k, Reached s.longest i k → Reached longest i k
  tried : Tried L model computePartial longest s.linearized s.state pre
  cached : ∀ h, ∀ e ∈ cache h, e ∈ s.cache h ∨ Explored L model computePartial longest e

/-- The call of operation `i` at `a` has been tried in vain, and the search goes on behind it. -/
structure GoesOn (s : Search ι ω σ) (a i : Nat) (b' : Bitset) (cache : Cache σ)
    (longest : Longest) : Prop where
  loop : ∃ m, ∀ fuel, s.loop model computePartial (fuel + m) =
    Search.loop model computePartial fuel
      { s with entry := (s.memory a).next, cache := cache, longest := longest }
  sound : Sound L model longest
  mono : ∀ i k, Reached s.longest i k → Reached longest i k
  cached : ∀ h, ∀ e ∈ cache h, e ∈ s.cache h ∨ Explored L model computePartial longest e
  explored : ∀ s', stepOf model L.history s.state i = some s' →
    Explored L model computePartial longest ⟨b', s'⟩

/-- The search does what it should where `k` entries are left. -/
abbrev Explores (k : Nat) : Prop :=
  ∀ (s : Search ι ω σ) order, (L.left s.linearized).length = k → At L model s order →
    s.entry = (L.left s.linearized).head? →
    Known L model computePartial s.longest k s.cache →
    Found L model computePartial s ∨
      ∃ cache longest pre r, Exhausts L model computePartial s cache longest pre r

variable {L model computePartial} {longest longest' : Longest} {s s₁ : Search ι ω σ}
  {cache : Cache σ} {b : Bitset} {state : σ} {order pre post : List Nat} {a r k : Nat}

theorem Explored.mono {e : CacheEntry σ} (h : Explored L model computePartial longest e)
    (hmono : ∀ i k, Reached longest i k → Reached longest' i k) :
    Explored L model computePartial longest' e where
  fails := h.fails
  noted hc := by
    obtain ⟨order, ht, hall⟩ := h.noted hc
    exact ⟨order, ht, fun more l s hm i hi => hmono _ _ (hall more l s hm i hi)⟩

theorem Tried.mono {calls : List Nat} (h : Tried L model computePartial longest b state calls)
    (hmono : ∀ i k, Reached longest i k → Reached longest' i k) :
    Tried L model computePartial longest' b state calls :=
  fun a ha i b' state' hi hb hs => (h a ha i b' state' hi hb hs).mono hmono

theorem Known.mono (h : Known L model computePartial longest k cache)
    (hmono : ∀ i k, Reached longest i k → Reached longest' i k) :
    Known L model computePartial longest' k cache :=
  fun x e he hk => (h x e he hk).mono hmono

/-- **At the first return**, when every call in front of it has been tried. -/
theorem explored_of_tried {j : Nat} (hl : L.left b = pre ++ r :: post) (hr : L.mark r = .ret j)
    (hpre : ∀ a ∈ pre, (L.mark a).isCall = true)
    (hwidth : ∀ i < L.history.length, i / 64 < b.data.length)
    (htakes : Takes (stepOf model L.history) L.all model.init order (L.marks b) state)
    (htried : Tried L model computePartial longest b state pre)
    (hown : computePartial = true → ∀ i ∈ order, Reached longest i order.length) :
    Explored L model computePartial longest ⟨b, state⟩ := by
  have hmarks : L.marks b = pre.map L.mark ++ .ret j :: post.map L.mark := by
    rw [Layout.marks, hl, List.map_append, List.map_cons, hr]
  have hcalls : ∀ m ∈ pre.map L.mark, m.isCall = true := by
    intro m hm
    obtain ⟨a, ha, rfl⟩ := List.mem_map.mp hm
    exact hpre a ha
  -- an operation that is tried first leads to what has been explored
  have hchild : ∀ i state' more l s, .call i ∈ pre.map L.mark →
      stepOf model L.history state i = some state' →
      Takes (stepOf model L.history) (without (pre.map L.mark ++ .ret j :: post.map L.mark) i)
        state' more l s →
      ∃ b', Explored L model computePartial longest ⟨b', state'⟩ ∧
        Takes (stepOf model L.history) (L.marks b') state' more l s := by
    intro i state' more l s hi hs ht
    obtain ⟨a, ha, hai⟩ := List.mem_map.mp hi
    have hlt : a < L.size := by
      have hmem : a ∈ L.left b := by
        rw [hl]
        exact List.mem_append_left _ ha
      exact (Layout.mem_left.mp hmem).1
    have hops := L.lt_ops a hlt
    rw [hai] at hops
    obtain ⟨b', hb'⟩ := Bitset.isSome_set (hwidth i hops)
    refine ⟨b', htried a ha i b' state' hai hb' hs, ?_⟩
    rwa [Layout.marks_set hb', hmarks]
  constructor
  · rintro ⟨more, s, ht⟩
    dsimp only at ht
    rw [hmarks] at ht
    rcases ht.cases_first hcalls with rfl | ⟨i, state', more, rfl, hi, hs, ht'⟩
    · have hnil := ht.mem_left (m := .ret j)
      simp at hnil
    · obtain ⟨b', he, ht'⟩ := hchild i state' more _ _ hi hs ht'
      exact he.fails ⟨more, s, ht'⟩
  · intro hc
    refine ⟨order, htakes, ?_⟩
    intro more l s ht
    dsimp only at ht
    rw [hmarks] at ht
    rcases ht.cases_first hcalls with rfl | ⟨i, state', more, rfl, hi, hs, ht'⟩
    · rw [List.append_nil]
      exact hown hc
    · obtain ⟨b', he, ht'⟩ := hchild i state' more _ _ hi hs ht'
      obtain ⟨order', htakes', hall⟩ := he.noted hc
      -- whatever the way to it, it is the same operations that have been carried out
      have hperm := (htakes'.append ht').perm (htakes.append (hmarks ▸ ht)) L.paired
      intro x hx
      rw [← hperm.length_eq]
      exact hall more l s ht' x (hperm.mem_iff.mpr hx)

/-! ### One turn more -/

theorem loop_of_iterate (h : s.iterate model computePartial = some (.inl s₁)) (fuel : Nat) :
    s.loop model computePartial (fuel + 1) = s₁.loop model computePartial fuel := by
  rw [Search.loop, h]

theorem Found.before {m : Nat} (hloop : ∀ fuel, s.loop model computePartial (fuel + m) =
    s₁.loop model computePartial fuel) (h : Found L model computePartial s₁) :
    Found L model computePartial s := by
  obtain ⟨m', order, horder, hrun⟩ := h
  refine ⟨m' + m, order, horder, ?_⟩
  intro fuel
  rw [← Nat.add_assoc, hloop, hrun]

/-- What the search does before it goes on along the list. -/
theorem Exhausts.before {m : Nat} {entry : Option Nat} {cache₁ : Cache σ} {longest₁ : Longest}
    (hs₁ : s₁ = { s with entry := entry, cache := cache₁, longest := longest₁ })
    (hloop : ∀ fuel, s.loop model computePartial (fuel + m) = s₁.loop model computePartial fuel)
    (hmono : ∀ i k, Reached s.longest i k → Reached longest₁ i k)
    (hcached : ∀ h, ∀ e ∈ cache₁ h, e ∈ s.cache h ∨ Explored L model computePartial longest₁ e)
    (h : Exhausts L model computePartial s₁ cache longest pre r) :
    Exhausts L model computePartial s cache longest pre r := by
  subst hs₁
  obtain ⟨hfirst, hcalls, ⟨m', hrun⟩, hsound, hmono', htried, hcached'⟩ := h
  refine ⟨hfirst, hcalls, ⟨m' + m, ?_⟩, hsound, fun i k hr => hmono' i k (hmono i k hr), htried, ?_⟩
  · intro fuel
    rw [← Nat.add_assoc, hloop, hrun]
  · intro x e he
    rcases hcached' x e he with he | he
    · rcases hcached x e he with he | he
      · exact .inl he
      · exact .inr (he.mono hmono')
    · exact .inr he

theorem explored_of_contains (hequal : ∀ a b, model.equal a b = true → a = b)
    (hknown : Known L model computePartial longest k s.cache) (hk : (L.left b).length < k)
    (hc : cacheContains model s.cache ⟨b, state⟩ = true) :
    Explored L model computePartial longest ⟨b, state⟩ := by
  obtain ⟨elem, hmem, heq⟩ := List.any_eq_true.mp hc
  obtain ⟨hb, hs⟩ := Bool.and_eq_true_iff.mp heq
  have hb' : b = elem.linearized := Bitset.equals_iff.mp hb
  have hs' : state = elem.state := hequal _ _ hs
  have he := hknown _ elem hmem (hb' ▸ hk)
  rwa [hb', hs']

/-! ### Carrying out an operation, and putting it back -/

theorem At.lifted {i r : Nat} {elem : Operation ι ω} {m' : Memory ι ω} {b' : Bitset} {s' : σ}
    (h : At L model s order)
    (hl : L.left s.linearized = pre ++ a :: post) (hpre : ∀ c ∈ pre, (L.mark c).isCall = true)
    (hi : L.mark a = .call i) (hr : Reads L s a i r elem)
    (hstep : stepOf model L.history s.state i = some s')
    (hset : s.linearized.set i = some b') (hlabel : ∀ c, (m' c).toLabel = (s.memory c).toLabel)
    (hchain : Memory.Chain m' L.size (L.left b')) :
    At L model (lifted s a m' b' s') (order ++ [i]) where
  headEntry := h.headEntry
  labelled := h.labelled.congr hlabel
  chain := hchain
  width j hj := by
    have hlen : b'.data.length = s.linearized.data.length := Bitset.length_set hset
    exact hlen ▸ h.width j hj
  takes := by
    refine h.takes.append ?_
    have hmarks : L.marks s.linearized = pre.map L.mark ++ .call i :: post.map L.mark := by
      rw [Layout.marks, hl, List.map_append, List.map_cons, hi]
    have hcalls : ∀ m ∈ pre.map L.mark, m.isCall = true := by
      intro m hm
      obtain ⟨c, hc, rfl⟩ := List.mem_map.mp hm
      exact hpre c hc
    have hmarks' : L.marks b' = without (pre.map L.mark ++ .call i :: post.map L.mark) i := by
      rw [Layout.marks_set hset, hmarks]
    rw [hmarks]
    exact .cons hcalls hstep (hmarks' ▸ .nil _ _)
  calls := by
    have hid : ∀ c, (m' c).id = (s.memory c).id := fun c => congrArg Label.id (hlabel c)
    have hseq := h.calls
    simp only [Search.seq, Porcupine.lifted, List.map_cons, List.reverse_cons, hid] at hseq ⊢
    rw [hseq, hr.id]
  sound := h.sound

theorem mem_cache_lifted {m' : Memory ι ω} {b' : Bitset} {s' : σ} {x : BitVec 64} {e : CacheEntry σ}
    (h : e ∈ (lifted s a m' b' s').cache x) : e ∈ s.cache x ∨ e = ⟨b', s'⟩ := by
  have h' : e ∈ Function.update s.cache b'.hash (s.cache b'.hash ++ [⟨b', s'⟩]) x := h
  by_cases hx : x = b'.hash
  · rw [hx, Function.update_self] at h'
    rw [hx]
    exact (List.mem_append.mp h').imp_right List.mem_singleton.mp
  · rw [Function.update_of_ne hx] at h'
    exact .inl h'

/-- **What was carried out last is put back** when the search has come to a return in vain. -/
theorem Exhausts.put_back {i : Nat} {m' : Memory ι ω} {b' : Bitset} {s' : σ}
    (hat : At L model (lifted s a m' b' s') (order ++ [i])) (hi : (m' a).id.toNat = i)
    (hget : s.linearized.get i = false) (hset : s.linearized.set i = some b')
    (hunlift : m'.unlift a = some s.memory)
    (h : Exhausts L model computePartial (lifted s a m' b' s') cache longest pre r) :
    ∃ m longest', (∀ fuel, (lifted s a m' b' s').loop model computePartial (fuel + m) =
        Search.loop model computePartial fuel
          { s with entry := (s.memory a).next, cache := cache, longest := longest' }) ∧
      Sound L model longest' ∧ (∀ i k, Reached s.longest i k → Reached longest' i k) ∧
      Explored L model computePartial longest' ⟨b', s'⟩ ∧
      ∀ h, ∀ e ∈ cache h, e ∈ s.cache h ∨ Explored L model computePartial longest' e := by
  obtain ⟨⟨j, post, hl, hr⟩, hpre, ⟨m, hloop⟩, hsound, hmono, htried, hcached⟩ := h
  have hrlt : r < L.size := by
    have hmem : r ∈ L.left b' := by
      have hl' : L.left b' = pre ++ r :: post := hl
      simp [hl']
    exact (Layout.mem_left.mp hmem).1
  -- the orders are brought up to date
  have hupdate : ∃ longest', (if computePartial then
        updateLongest (order ++ [i]) (order ++ [i]) longest else some longest) = some longest' ∧
      Sound L model longest' ∧ (∀ i k, Reached longest i k → Reached longest' i k) ∧
      (computePartial = true → ∀ x ∈ order ++ [i], Reached longest' x (order ++ [i]).length) := by
    cases computePartial with
    | false => exact ⟨longest, rfl, hsound, fun _ _ hr => hr, fun hc => absurd hc (by simp)⟩
    | true =>
      have hbegins := hat.takes.begins L.paired
      have hlt : ∀ x ∈ order ++ [i], x < longest.length := by
        intro x hx
        obtain ⟨c, hc, hcx⟩ := List.mem_map.mp (hbegins.ops x hx)
        have hops := L.lt_ops c (List.mem_range.mp hc)
        rwa [hcx, ← hsound.length] at hops
      obtain ⟨longest', heq, hlen, hmono', hall, hold⟩ :=
        updateLongest_spec (order ++ [i]) _ _ hlt
      refine ⟨longest', heq, ⟨hlen.trans hsound.length, ?_⟩, hmono', fun _ => hall⟩
      intro x seq hx
      rcases hold x seq hx with hx | ⟨hmem, rfl⟩
      · exact hsound.takes x seq hx
      · exact ⟨hmem, _, _, hat.takes⟩
  obtain ⟨longest', hlongest, hsound', hmono', hown⟩ := hupdate
  have hexplored : Explored L model computePartial longest' ⟨b', s'⟩ :=
    explored_of_tried hl hr hpre hat.width hat.takes (htried.mono hmono') hown
  refine ⟨m + 1, longest', ?_, hsound', fun x k hr => hmono' x k (hmono x k hr), hexplored, ?_⟩
  · intro fuel
    rw [← Nat.add_assoc, Nat.add_right_comm, hloop]
    refine (loop_of_iterate (iterate_pop ⟨a, s.state⟩ s.calls ?_ rfl ?_ rfl
      ?_ ?_ hunlift) fuel).trans rfl
    · have hnext := hat.next_head
      rw [hl] at hnext
      intro hnone
      exact absurd (hnext.symm.trans hnone) (by simp)
    · obtain ⟨elem, -, hret⟩ := hat.labelled.ret r hrlt j hr
      exact congrArg Label.matching hret
    · have hseq := hat.calls
      simp only [Search.seq] at hseq ⊢
      rwa [hseq]
    · exact (congrArg (b'.clear ·) hi).trans (Bitset.clear_set hset hget)
  · intro x e he
    rcases hcached x e he with he | he
    · rcases mem_cache_lifted he with he | rfl
      · exact .inl he
      · exact .inr hexplored
    · exact .inr (he.mono hmono')

/-! ### The whole search -/

theorem At.left_eq_nil (h : At L model s order)
    (hcalls : ∀ a ∈ L.left s.linearized, (L.mark a).isCall = true) : L.left s.linearized = [] := by
  refine List.eq_nil_iff_forall_not_mem.mpr ?_
  intro a ha
  cases hi : L.mark a with
  | ret i => exact absurd (hcalls a ha) (by simp [hi, Mark.isCall])
  | call i =>
    obtain ⟨pre, post, hl⟩ := List.append_of_mem ha
    obtain ⟨mid, r, post', rfl, hri, -⟩ := Layout.split_call h.paired hl hi
    have hr : r ∈ L.left s.linearized := by simp [hl]
    exact absurd (hcalls r hr) (by simp [hri, Mark.isCall])

theorem At.forward (h : At L model s order) {entry : Option Nat} {cache₁ : Cache σ}
    {longest₁ : Longest} (hsound : Sound L model longest₁) :
    At L model { s with entry := entry, cache := cache₁, longest := longest₁ } order :=
  ⟨h.headEntry, h.labelled, h.chain, h.width, h.takes, h.calls, hsound⟩

section call

variable {i : Nat} {b' : Bitset} {s' : σ}

theorem goesOn_of_iterate (hat : At L model s order)
    (h : s.iterate model computePartial = some (.inl { s with entry := (s.memory a).next }))
    (hexplored : ∀ s', stepOf model L.history s.state i = some s' →
      Explored L model computePartial s.longest ⟨b', s'⟩) :
    GoesOn L model computePartial s a i b' s.cache s.longest :=
  ⟨⟨1, loop_of_iterate h⟩, hat.sound, fun _ _ hr => hr, fun _ _ => .inl, hexplored⟩

theorem GoesOn.tried (h : GoesOn L model computePartial s a i b' cache longest)
    (hi : L.mark a = .call i) (hset : s.linearized.set i = some b')
    (htried : Tried L model computePartial s.longest s.linearized s.state pre) :
    Tried L model computePartial longest s.linearized s.state (pre ++ [a]) := by
  intro c hc i' b'' s' hi' hb'' hs
  rcases List.mem_append.mp hc with hc | hc
  · exact htried.mono h.mono c hc i' b'' s' hi' hb'' hs
  · obtain rfl := List.mem_singleton.mp hc
    obtain rfl : i = i' := Mark.call.inj (hi.symm.trans hi')
    obtain rfl : b' = b'' := Option.some.inj (hset.symm.trans hb'')
    exact h.explored s' hs

theorem GoesOn.known (h : GoesOn L model computePartial s a i b' cache longest)
    (hknown : Known L model computePartial s.longest k s.cache) :
    Known L model computePartial longest k cache := by
  intro x e hmem hlt
  rcases h.cached x e hmem with hmem | he
  · exact hknown.mono h.mono x e hmem hlt
  · exact he

theorem Layout.length_left_set (hp : Paired (L.marks b)) (hl : L.left b = pre ++ a :: post)
    (hi : L.mark a = .call i) (hset : b.set i = some b') :
    (L.left b').length < (L.left b).length := by
  obtain ⟨mid, r, post', rfl, -, -, hleft⟩ := Layout.split_call hp hl hi
  rw [hl, hleft b' hset]
  simp only [List.length_append, List.length_cons]
  omega

/-- **An operation is carried out.**  The search of what is left then finds an order, or the
operation is put back. -/
theorem explore_lifted (hat : At L model s order) (hl : L.left s.linearized = pre ++ a :: post)
    (he : s.entry = some a) (hpre : ∀ c ∈ pre, (L.mark c).isCall = true)
    (hi : L.mark a = .call i) (hset : s.linearized.set i = some b')
    (hstep : stepOf model L.history s.state i = some s')
    (hc : cacheContains model s.cache ⟨b', s'⟩ = false)
    (ih : Explores L model computePartial (L.left b').length)
    (hknown : Known L model computePartial s.longest (L.left s.linearized).length s.cache) :
    Found L model computePartial s ∨
      ∃ cache longest, GoesOn L model computePartial s a i b' cache longest := by
  have hmem : a ∈ L.left s.linearized := by simp [hl]
  obtain ⟨halt, hget⟩ := Layout.mem_left.mp hmem
  rw [hi] at hget
  have hnext : (s.memory s.headEntry).next ≠ none := by
    rw [hat.next_head, hl]
    simp
  have hfewer := Layout.length_left_set hat.paired hl hi hset
  obtain ⟨r, elem, hr, hri, hreads⟩ := hat.reads halt hi
  obtain ⟨mid, r', post', rfl, hri', hr', hleft⟩ := Layout.split_call hat.paired hl hi
  obtain rfl : r = r' := Layout.mark_inj hr hr' (hri.trans hri'.symm)
  have hnodup : (L.size :: (pre ++ a :: (mid ++ r :: post'))).Nodup := by
    rw [← hl]
    refine List.nodup_cons.mpr ⟨fun hmem => ?_, Layout.nodup_left⟩
    exact absurd (Layout.mem_left.mp hmem).1 (Nat.lt_irrefl _)
  obtain ⟨m', hlift, hlabel, hchain, hunlift⟩ :=
    Memory.Chain.lift (hl ▸ hat.chain) hnodup hreads.matching
  rw [← hleft b' hset] at hchain
  have hchild := hat.lifted hl hpre hi hreads hstep hset hlabel hchain
  have hknown' : Known L model computePartial s.longest (L.left b').length
      (lifted s a m' b' s').cache := by
    intro x e hmem hlt
    rcases mem_cache_lifted hmem with hmem | rfl
    · exact hknown x e hmem (by omega)
    · exact absurd hlt (Nat.lt_irrefl _)
  have hfirst : ∀ fuel, s.loop model computePartial (fuel + 1) =
      (lifted s a m' b' s').loop model computePartial fuel :=
    loop_of_iterate (iterate_lift hnext he hreads hstep hset hc hlift)
  rcases ih _ _ rfl hchild hchild.next_head hknown' with hfound | ⟨cache', longest', pre', r', hex⟩
  · exact .inl (hfound.before hfirst)
  · have hid : (m' a).id.toNat = i :=
      (congrArg (fun x => Int.toNat (Label.id x)) (hlabel a)).trans hreads.id
    obtain ⟨m, longest'', hloop, hsound, hmono, hexplored, hcached⟩ :=
      hex.put_back hchild hid hget hset hunlift
    refine .inr ⟨cache', longest'', ⟨⟨m + 1, ?_⟩, hsound, hmono, hcached, ?_⟩⟩
    · intro fuel
      rw [← Nat.add_assoc, hfirst, hloop]
    · intro s'' hs
      obtain rfl : s' = s'' := Option.some.inj (hstep.symm.trans hs)
      exact hexplored

/-- **A call.**  The operation cannot be carried out, or it leads to what is in the cache, or it
is carried out. -/
theorem explore_call (hequal : ∀ a b, model.equal a b = true → a = b) (hat : At L model s order)
    (hl : L.left s.linearized = pre ++ a :: post) (he : s.entry = some a)
    (hpre : ∀ c ∈ pre, (L.mark c).isCall = true) (hi : L.mark a = .call i)
    (hset : s.linearized.set i = some b')
    (ih : Explores L model computePartial (L.left b').length)
    (hknown : Known L model computePartial s.longest (L.left s.linearized).length s.cache) :
    Found L model computePartial s ∨
      ∃ cache longest, GoesOn L model computePartial s a i b' cache longest := by
  have hmem : a ∈ L.left s.linearized := by simp [hl]
  have hnext : (s.memory s.headEntry).next ≠ none := by
    rw [hat.next_head, hl]
    simp
  obtain ⟨r, elem, -, -, hreads⟩ := hat.reads (Layout.mem_left.mp hmem).1 hi
  cases hstep : stepOf model L.history s.state i with
  | none =>
    refine .inr ⟨s.cache, s.longest, goesOn_of_iterate hat (iterate_skip hnext he hreads hstep) ?_⟩
    exact fun s' hs => absurd (hstep.symm.trans hs) (by simp)
  | some s' =>
    cases hc : cacheContains model s.cache ⟨b', s'⟩ with
    | true =>
      refine .inr ⟨s.cache, s.longest,
        goesOn_of_iterate hat (iterate_seen hnext he hreads hstep hset hc) ?_⟩
      intro s'' hs
      obtain rfl : s' = s'' := Option.some.inj (hstep.symm.trans hs)
      exact explored_of_contains hequal hknown
        (Layout.length_left_set hat.paired hl hi hset) hc
    | false => exact explore_lifted hat hl he hpre hi hset hstep hc ih hknown

end call

/-- **Along the list**, where the search of fewer operations does what it should. -/
theorem explore_from (hequal : ∀ a b, model.equal a b = true → a = b)
    (ih : ∀ j < k, Explores L model computePartial j) :
    ∀ post pre (s : Search ι ω σ) order, (L.left s.linearized).length = k → At L model s order →
      L.left s.linearized = pre ++ post → s.entry = post.head? →
      (∀ a ∈ pre, (L.mark a).isCall = true) →
      Tried L model computePartial s.longest s.linearized s.state pre →
      Known L model computePartial s.longest k s.cache →
      Found L model computePartial s ∨
        ∃ cache longest pre r, Exhausts L model computePartial s cache longest pre r := by
  intro post
  induction post with
  | nil =>
    intro pre s order hk hat hl he hpre htried hknown
    rw [List.append_nil] at hl
    obtain ⟨horder, hdone⟩ :=
      hat.iterate_done computePartial (hat.left_eq_nil (hl ▸ hpre))
    refine .inl ⟨1, order, horder, ?_⟩
    intro fuel
    rw [Search.loop, hdone]
  | cons a post ihpost =>
    intro pre s order hk hat hl he hpre htried hknown
    have hmem : a ∈ L.left s.linearized := by simp [hl]
    have halt := (Layout.mem_left.mp hmem).1
    cases hi : L.mark a with
    | ret j =>
      refine .inr ⟨s.cache, s.longest, pre, a, ⟨j, post, hl, hi⟩, hpre, ⟨0, ?_⟩, hat.sound,
        fun _ _ hr => hr, htried, fun _ _ => .inl⟩
      intro fuel
      have he' : s.entry = some a := he
      rw [← he']
      rfl
    | call i =>
      have hops : i < L.history.length := by
        have hlt := L.lt_ops a halt
        rwa [hi] at hlt
      obtain ⟨b', hset⟩ := Bitset.isSome_set (hat.width i hops)
      have hfewer : (L.left b').length < k :=
        hk ▸ Layout.length_left_set hat.paired hl hi hset
      rcases explore_call hequal hat hl he hpre hi hset (ih _ hfewer) (hk ▸ hknown) with
        hfound | ⟨cache, longest, hgo⟩
      · exact .inl hfound
      -- the search goes on behind `a`
      have hentry : (s.memory a).next = post.head? := (hl ▸ hat.chain).split.2.2.next_eq
      have hpre' : ∀ c ∈ pre ++ [a], (L.mark c).isCall = true := by
        intro c hc
        rcases List.mem_append.mp hc with hc | hc
        · exact hpre c hc
        · rw [List.mem_singleton.mp hc, hi]
          rfl
      obtain ⟨m, hloop⟩ := hgo.loop
      rcases ihpost (pre ++ [a])
          { s with entry := (s.memory a).next, cache := cache, longest := longest } order hk
          (hat.forward hgo.sound) (by simpa using hl) hentry hpre' (hgo.tried hi hset htried)
          (hgo.known hknown) with hfound | ⟨cache', longest', pre', r, hex⟩
      · exact .inl (hfound.before hloop)
      · exact .inr ⟨cache', longest', pre', r, hex.before rfl hloop hgo.mono hgo.cached⟩

/-- **The search** finds an order of all operations, or it comes to the first return in vain. -/
theorem explore (computePartial : Bool) (hequal : ∀ a b, model.equal a b = true → a = b) :
    ∀ k, Explores L model computePartial k := by
  intro k
  induction k using Nat.strongRecOn with
  | ind k ih =>
    intro s order hk hat he hknown
    refine explore_from hequal ih (L.left s.linearized) [] s order hk hat rfl he (by simp) ?_ hknown
    exact fun a ha => absurd ha List.not_mem_nil

end ShardRaft.Porcupine
