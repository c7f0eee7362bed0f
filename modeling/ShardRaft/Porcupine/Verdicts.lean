import Mathlib.Algebra.Order.BigOperators.Group.Finset
import ShardRaft.Porcupine.Correct
import ShardRaft.Porcupine.Parallel

/-!
# The verdicts on the partitions

Whatever the goroutines and the caller do first: `checkParallel` returns, no goroutine panics,
and the result is what the searches would have said one after the other (`Inv`).

A goroutine that has been told to stop says that its partition is bad.  The caller does not
hear it, or no longer cares: it sets the flag when it leaves the loop in which it looks at the
results.
-/

namespace ShardRaft.Porcupine

open Lib

variable {ι ω σ : Type} {model : Model ι ω σ} {computeInfo : Bool} {timeout : Int}

/-- The search ends after `k` turns. -/
def Ends (model : Model ι ω σ) (computePartial : Bool) (s : Search ι ω σ) (k : Nat)
    (result : Bool × Longest) : Prop :=
  ∀ fuel, s.loop model computePartial (fuel + k) = some result

theorem Ends.iterate {s : Search ι ω σ} {k : Nat} {result : Bool × Longest}
    (h : Ends model computeInfo s k result) : 1 ≤ k ∧
      ((∃ s', s.iterate model computeInfo = some (.inl s') ∧
        Ends model computeInfo s' (k - 1) result) ∨
        s.iterate model computeInfo = some (.inr result)) := by
  cases k with
  | zero => exact absurd (h 0) (by simp [Search.loop])
  | succ k =>
    refine ⟨by omega, ?_⟩
    cases hs : s.iterate model computeInfo with
    | none => exact absurd (h 0) (by simp [Search.loop, hs])
    | some next =>
      cases next with
      | inl s' =>
        refine .inl ⟨s', rfl, ?_⟩
        intro fuel
        have hf := h fuel
        rwa [← Nat.add_assoc, loop_of_iterate hs] at hf
      | inr result' =>
        have hf := h 0
        rw [← Nat.add_assoc, Search.loop, hs] at hf
        exact .inr (congrArg (fun r => some (Sum.inr r)) (Option.some.inj hf))

theorem turn_killed (s : Search ι ω σ) :
    ∃ result, s.turn model computeInfo true = some (.inr result) := by
  by_cases h : (s.memory s.headEntry).next = none
  · have hturn : s.turn model computeInfo true = s.iterate model computeInfo := by
      rw [Search.turn, if_neg (by simp [h])]
    rw [hturn, Search.iterate, if_pos h]
    exact ⟨_, rfl⟩
  · rw [Search.turn, if_pos ⟨h, rfl⟩]
    exact ⟨_, rfl⟩

theorem turn_of_not_killed (s : Search ι ω σ) :
    s.turn model computeInfo false = s.iterate model computeInfo := by
  rw [Search.turn, if_neg (by simp)]

namespace Check

/-- What an event does. -/
inductive Move (model : Model ι ω σ) (computeInfo : Bool) (timeout : Int) (c : Check ι ω σ) :
    Event → Check ι ω σ → Prop
  | goOn {i : Nat} {s s' : Search ι ω σ} : c.goroutines[i]? = some (.running s) →
      s.turn model computeInfo c.kill = some (.inl s') →
      Move model computeInfo timeout c (.turn i)
        { c with goroutines := c.goroutines.set i (.running s') }
  | send {i : Nat} {s : Search ι ω σ} {ok : Bool} {l : Longest} :
      c.goroutines[i]? = some (.running s) →
      s.turn model computeInfo c.kill = some (.inr (ok, l)) →
      Move model computeInfo timeout c (.turn i) { c with
        goroutines := c.goroutines.set i .returned
        longest := c.longest.set i (some l)
        results := c.results ++ [ok] }
  | stop {result : Bool} {results : List Bool} : c.results = result :: results →
      c.phase = .selecting → (c.ok && result) = false → computeInfo = false →
      Move model computeInfo timeout c .receive { c with
        results := results, count := c.count + 1, ok := false, kill := true, phase := .returned }
  | last {result : Bool} {results : List Bool} : c.results = result :: results →
      c.phase = .selecting → (c.ok && result) = true ∨ computeInfo = true →
      c.goroutines.length ≤ c.count + 1 →
      Move model computeInfo timeout c .receive { c with
        results := results, count := c.count + 1, ok := c.ok && result, phase := .returned }
  | take {result : Bool} {results : List Bool} : c.results = result :: results →
      c.phase = .selecting → (c.ok && result) = true ∨ computeInfo = true →
      c.count + 1 < c.goroutines.length →
      Move model computeInfo timeout c .receive { c with
        results := results, count := c.count + 1, ok := c.ok && result }
  | drop {result : Bool} {results : List Bool} : c.results = result :: results →
      c.phase = .waiting →
      Move model computeInfo timeout c .receive
        (leave computeInfo { c with results := results, count := c.count + 1 })
  | expire : c.phase = .selecting → 0 < timeout →
      Move model computeInfo timeout c .timeout
        (leave computeInfo { c with timedOut := true, kill := true })

variable {c c' : Check ι ω σ} {e : Event}

theorem move_of_step (h : c.step model computeInfo timeout e = some c') :
    Move model computeInfo timeout c e c' := by
  cases e with
  | turn i =>
    simp only [step, turn] at h
    split at h
    · rename_i s hs
      split at h
      · exact absurd h (by simp)
      · obtain rfl := Option.some.inj h
        exact .goOn hs ‹_›
      · obtain rfl := Option.some.inj h
        exact .send hs ‹_›
    · exact absurd h (by simp)
  | receive =>
    simp only [step, receive] at h
    split at h
    · exact absurd h (by simp)
    · rename_i result results hres
      split at h
      · rename_i hphase
        by_cases hstop : (!(c.ok && result) && !computeInfo) = true
        · rw [if_pos hstop] at h
          obtain rfl := Option.some.inj h
          obtain ⟨hok, hinfo⟩ := Bool.and_eq_true_iff.mp hstop
          rw [Bool.not_eq_true'] at hok hinfo
          subst hinfo
          rw [leave, hok]
          exact .stop hres hphase hok rfl
        · rw [if_neg hstop] at h
          have hok : (c.ok && result) = true ∨ computeInfo = true := by
            cases hc : (c.ok && result) <;> cases computeInfo <;> simp_all
          split at h
          · rename_i hle
            obtain rfl := Option.some.inj h
            have hnot : ¬ (computeInfo && decide (c.count + 1 < c.goroutines.length)) = true := by
              rw [Bool.and_eq_true_iff, decide_eq_true_eq]
              omega
            rw [leave, if_neg hnot]
            exact .last hres hphase hok hle
          · rename_i hlt
            obtain rfl := Option.some.inj h
            exact .take hres hphase hok (by simpa using hlt)
      · obtain rfl := Option.some.inj h
        exact .drop hres ‹_›
      · exact absurd h (by simp)
  | timeout =>
    simp only [step, Check.expire] at h
    split at h
    · obtain rfl := Option.some.inj h
      exact .expire ‹_ ∧ _›.1 ‹_ ∧ _›.2
    · exact absurd h (by simp)

/-! ### What holds in every run -/

/-- What the searches of the partitions say is `verdict`, and `w` is how many turns they need. -/
structure Inv (model : Model ι ω σ) (computeInfo : Bool) (timeout : Int)
    (verdict : Nat → Bool × Longest) (n : Nat) (w : Nat → Nat) (c : Check ι ω σ) : Prop where
  goroutines : c.goroutines.length = n
  longest : c.longest.length = n
  searching : ∀ i s, c.goroutines[i]? = some (.running s) →
    1 ≤ w i ∧ (c.kill = false → Ends model computeInfo s (w i) (verdict i))
  noted : c.kill = false → ∀ i : Nat, c.goroutines[i]? = some .returned →
    c.longest[i]? = some (some (verdict i).2)
  /-- The goroutines that have sent a result, in the order in which they have. -/
  heard : ∃ got : List Nat, got.Nodup ∧ (∀ i, i ∈ got ↔ c.goroutines[i]? = some .returned) ∧
    got.length = c.count + c.results.length ∧
    (c.kill = false → c.results = (got.drop c.count).map (fun i => (verdict i).1) ∧
      c.ok = (got.take c.count).all fun i => (verdict i).1)
  selecting : c.phase = .selecting →
    c.kill = false ∧ c.timedOut = false ∧ (c.count < n ∨ n = 0)
  waiting : c.phase = .waiting → c.count < n ∧ c.kill = true
  returned : c.phase = .returned → computeInfo = true → n ≤ c.count
  failed : c.ok = false → ∃ i < n, (verdict i).1 = false
  passed : c.phase ≠ .selecting → c.ok = true → c.timedOut = false →
    ∀ i < n, (verdict i).1 = true
  unkilled : c.timedOut = false → computeInfo = true → c.kill = false
  expired : c.timedOut = true → 0 < timeout

/-- What is left to be done. -/
def rest (n : Nat) (w : Nat → Nat) (c : Check ι ω σ) : Nat :=
  2 * (∑ i ∈ Finset.range n, w i) + c.results.length + if c.phase = .selecting then 1 else 0

variable {verdict : Nat → Bool × Longest} {n : Nat} {w : Nat → Nat}

theorem sum_update_lt {i k : Nat} (hi : i < n) (hk : k < w i) :
    ∑ j ∈ Finset.range n, Function.update w i k j < ∑ j ∈ Finset.range n, w j := by
  refine Finset.sum_lt_sum ?_ ⟨i, Finset.mem_range.mpr hi, ?_⟩
  · intro j _
    by_cases hj : j = i
    · rw [hj, Function.update_self]
      omega
    · rw [Function.update_of_ne hj]
  · rwa [Function.update_self]

theorem Inv.goOn (h : Inv model computeInfo timeout verdict n w c) {i : Nat} {s s' : Search ι ω σ}
    (hs : c.goroutines[i]? = some (.running s))
    (hturn : s.turn model computeInfo c.kill = some (.inl s')) :
    ∃ w', Inv model computeInfo timeout verdict n w'
        { c with goroutines := c.goroutines.set i (.running s') } ∧
      rest n w' { c with goroutines := c.goroutines.set i (.running s') } < rest n w c := by
  have hlt := (List.getElem?_eq_some_iff.mp hs).1
  have hkill : c.kill = false := by
    cases hk : c.kill with
    | false => rfl
    | true =>
      obtain ⟨result, hr⟩ : ∃ result, s.turn model computeInfo true = some (.inr result) :=
        turn_killed s
      rw [hk, hr] at hturn
      exact absurd hturn (by simp)
  rw [hkill, turn_of_not_killed] at hturn
  obtain ⟨hw, hends⟩ := h.searching i s hs
  have hends' : Ends model computeInfo s' (w i - 1) (verdict i) := by
    rcases (hends hkill).iterate.2 with ⟨s₁, hs₁, he⟩ | he
    · obtain rfl := Sum.inl.inj (Option.some.inj (hs₁.symm.trans hturn))
      exact he
    · exact absurd (he.symm.trans hturn) (by simp)
  -- the others are where they were
  have hset : ∀ j : Nat, (c.goroutines.set i (.running s'))[j]? = some .returned ↔
      c.goroutines[j]? = some .returned := by
    intro j
    by_cases hj : i = j
    · rw [← hj, List.getElem?_set_self hlt, hs]
      simp
    · rw [List.getElem?_set_ne hj]
  refine ⟨Function.update w i (w i - 1), ?_, ?_⟩
  · refine ⟨List.length_set.trans h.goroutines, h.longest, ?_, ?_, ?_, h.selecting, h.waiting,
      h.returned, h.failed, h.passed, h.unkilled, h.expired⟩
    · intro j s₁ hj
      by_cases hij : i = j
      · subst hij
        obtain rfl := Goroutine.running.inj (Option.some.inj
          ((List.getElem?_set_self hlt).symm.trans hj))
        rw [Function.update_self]
        exact ⟨hends'.iterate.1, fun _ => hends'⟩
      · rw [Function.update_of_ne (Ne.symm hij)]
        exact h.searching j s₁ ((List.getElem?_set_ne hij).symm.trans hj)
    · exact fun hk j hj => h.noted hk j ((hset j).mp hj)
    · obtain ⟨got, hn, hmem, hlen, hres⟩ := h.heard
      exact ⟨got, hn, fun j => (hmem j).trans (hset j).symm, hlen, hres⟩
  · have hsum := sum_update_lt (w := w) (h.goroutines ▸ hlt) (Nat.sub_lt hw Nat.one_pos)
    unfold rest
    dsimp only
    omega

theorem Inv.send (h : Inv model computeInfo timeout verdict n w c) {i : Nat} {s : Search ι ω σ}
    {ok : Bool} {l : Longest} (hs : c.goroutines[i]? = some (.running s))
    (hturn : s.turn model computeInfo c.kill = some (.inr (ok, l))) {c' : Check ι ω σ}
    (hc' : c' = { c with
      goroutines := c.goroutines.set i .returned
      longest := c.longest.set i (some l)
      results := c.results ++ [ok] }) :
    ∃ w', Inv model computeInfo timeout verdict n w' c' ∧ rest n w' c' < rest n w c := by
  subst hc'
  have hlt := (List.getElem?_eq_some_iff.mp hs).1
  obtain ⟨hw, hends⟩ := h.searching i s hs
  have hverdict : c.kill = false → verdict i = (ok, l) := by
    intro hk
    rw [hk, turn_of_not_killed] at hturn
    rcases (hends hk).iterate.2 with ⟨s', hs', -⟩ | he
    · exact absurd (hs'.symm.trans hturn) (by simp)
    · exact Sum.inr.inj (Option.some.inj (he.symm.trans hturn))
  refine ⟨Function.update w i 0, ?_, ?_⟩
  · refine ⟨List.length_set.trans h.goroutines, List.length_set.trans h.longest, ?_, ?_, ?_,
      h.selecting, h.waiting, h.returned, h.failed, h.passed, h.unkilled, h.expired⟩
    · intro j s₁ hj
      by_cases hij : i = j
      · subst hij
        exact absurd ((List.getElem?_set_self hlt).symm.trans hj) (by simp)
      · rw [Function.update_of_ne (Ne.symm hij)]
        exact h.searching j s₁ ((List.getElem?_set_ne hij).symm.trans hj)
    · intro hk j hj
      by_cases hij : i = j
      · subst hij
        have hlt' : i < c.longest.length := by rwa [h.longest, ← h.goroutines]
        rw [List.getElem?_set_self hlt', hverdict hk]
      · rw [List.getElem?_set_ne hij] at hj ⊢
        exact h.noted hk j hj
    · obtain ⟨got, hn, hmem, hlen, hres⟩ := h.heard
      have hnot : i ∉ got := by
        intro hi
        have hr := (hmem i).mp hi
        rw [hs] at hr
        exact absurd hr (by simp)
      refine ⟨got ++ [i], ?_, ?_, ?_, ?_⟩
      · exact List.nodup_append.mpr ⟨hn, List.nodup_singleton i, by
          intro a ha b hb heq
          rw [List.mem_singleton.mp hb] at heq
          exact hnot (heq ▸ ha)⟩
      · intro j
        rw [List.mem_append, List.mem_singleton, hmem]
        by_cases hij : i = j
        · subst hij
          simp [hlt]
        · rw [List.getElem?_set_ne hij]
          simp [Ne.symm hij]
      · simp [hlen]
        omega
      · intro hk
        obtain ⟨hres, hok⟩ := hres hk
        have hle : c.count ≤ got.length := by omega
        refine ⟨?_, ?_⟩
        · rw [hres, List.drop_append_of_le_length hle, List.map_append, List.map_singleton,
            hverdict hk]
        · rw [hok, List.take_append_of_le_length hle]
  · have hsum := sum_update_lt (w := w) (h.goroutines ▸ hlt) (show 0 < w i by omega)
    unfold rest
    dsimp only
    rw [List.length_append, List.length_singleton]
    omega

theorem heard_next {got : List Nat} {f : Nat → Bool} {k : Nat} {result : Bool} {results : List Bool}
    (h : result :: results = (got.drop k).map f) :
    results = (got.drop (k + 1)).map f ∧ (got.take (k + 1)).all f = ((got.take k).all f && result) ∧
      ∃ i ∈ got, f i = result := by
  cases hd : got.drop k with
  | nil =>
    rw [hd] at h
    exact absurd h (by simp)
  | cons i later =>
    rw [hd, List.map_cons] at h
    obtain ⟨rfl, rfl⟩ := List.cons.inj h
    have hdrop : got.drop (k + 1) = later := by
      rw [← List.drop_drop, hd, List.drop_one, List.tail_cons]
    have htake : got.take (k + 1) = got.take k ++ [i] := by
      rw [List.take_add, hd]
      rfl
    refine ⟨by rw [hdrop], by rw [htake]; simp, i, ?_, rfl⟩
    have hmem : i ∈ got.drop k := by simp [hd]
    exact List.mem_of_mem_drop hmem

/-- When as many have been heard as there are, all have been heard. -/
theorem mem_of_full {got : List Nat} (hn : got.Nodup) (hlt : ∀ i ∈ got, i < n)
    (hlen : n ≤ got.length) : ∀ i < n, i ∈ got := by
  have hsub : got.Subperm (List.range n) :=
    List.Nodup.subperm hn fun i hi => List.mem_range.mpr (hlt i hi)
  have hperm := hsub.perm_of_length_le (by rwa [List.length_range])
  exact fun i hi => hperm.mem_iff.mpr (List.mem_range.mpr hi)

theorem Inv.next (h : Inv model computeInfo timeout verdict n w c) {result : Bool}
    {results : List Bool} (hres : c.results = result :: results) : ∃ got : List Nat, got.Nodup ∧
      (∀ i, i ∈ got ↔ c.goroutines[i]? = some .returned) ∧ (∀ i ∈ got, i < n) ∧
      got.length = c.count + 1 + results.length ∧
      (c.kill = false → results = (got.drop (c.count + 1)).map (fun i => (verdict i).1) ∧
        (c.ok && result) = ((got.take (c.count + 1)).all fun i => (verdict i).1) ∧
        (result = false → ∃ i < n, (verdict i).1 = false)) := by
  obtain ⟨got, hn, hmem, hlen, hheard⟩ := h.heard
  have hlt : ∀ i ∈ got, i < n := by
    intro i hi
    have hi' := (List.getElem?_eq_some_iff.mp ((hmem i).mp hi)).1
    rwa [h.goroutines] at hi'
  refine ⟨got, hn, hmem, hlt, ?_, ?_⟩
  · rw [hlen, hres, List.length_cons]
    omega
  · intro hk
    obtain ⟨hr, hok⟩ := hheard hk
    obtain ⟨hr', hall, i, hi, hv⟩ := heard_next (hres.symm.trans hr)
    refine ⟨hr', by rw [hall, hok], ?_⟩
    rintro rfl
    exact ⟨i, hlt i hi, hv⟩

theorem Inv.stop (h : Inv model false timeout verdict n w c) {result : Bool}
    {results : List Bool} (hres : c.results = result :: results) (hphase : c.phase = .selecting)
    (hok : (c.ok && result) = false) {c' : Check ι ω σ} (hc' : c' = { c with
      results := results, count := c.count + 1, ok := false, kill := true, phase := .returned }) :
    Inv model false timeout verdict n w c' ∧ rest n w c' < rest n w c := by
  subst hc'
  obtain ⟨hkill, htimed, -⟩ := h.selecting hphase
  obtain ⟨got, hn, hmem, -, hlen, hheard⟩ := h.next hres
  obtain ⟨-, -, hbad⟩ := hheard hkill
  refine ⟨⟨h.goroutines, h.longest, ?_, ?_, ⟨got, hn, hmem, hlen, ?_⟩, ?_, ?_, ?_, ?_, ?_, ?_, ?_⟩,
    ?_⟩
  · exact fun i s hs => ⟨(h.searching i s hs).1, fun hk => absurd hk (by simp)⟩
  · exact fun hk => absurd hk (by simp)
  · exact fun hk => absurd hk (by simp)
  · exact fun hp => absurd hp (by simp)
  · exact fun hp => absurd hp (by simp)
  · exact fun _ hi => absurd hi (by simp)
  · intro _
    rcases Bool.and_eq_false_iff.mp hok with hok | hr
    · exact h.failed hok
    · exact hbad hr
  · exact fun _ ho => absurd ho (by simp)
  · exact fun _ hi => absurd hi (by simp)
  · exact fun ht => absurd (htimed.symm.trans ht) (by simp)
  · unfold rest
    rw [hres, List.length_cons]
    dsimp only
    rw [if_neg (by simp)]
    omega

theorem Inv.last (h : Inv model computeInfo timeout verdict n w c) {result : Bool}
    {results : List Bool} (hres : c.results = result :: results) (hphase : c.phase = .selecting)
    (hle : c.goroutines.length ≤ c.count + 1) {c' : Check ι ω σ} (hc' : c' = { c with
      results := results, count := c.count + 1, ok := c.ok && result, phase := .returned }) :
    Inv model computeInfo timeout verdict n w c' ∧ rest n w c' < rest n w c := by
  subst hc'
  obtain ⟨hkill, htimed, -⟩ := h.selecting hphase
  obtain ⟨got, hn, hmem, hlt, hlen, hheard⟩ := h.next hres
  obtain ⟨hr, hall, hbad⟩ := hheard hkill
  rw [h.goroutines] at hle
  refine ⟨⟨h.goroutines, h.longest, h.searching, h.noted,
    ⟨got, hn, hmem, hlen, fun _ => ⟨hr, hall⟩⟩, ?_, ?_, fun _ _ => hle, ?_, ?_,
    fun _ _ => hkill, h.expired⟩, ?_⟩
  · exact fun hp => absurd hp (by simp)
  · exact fun hp => absurd hp (by simp)
  · intro hok
    rcases Bool.and_eq_false_iff.mp hok with hok | hr
    · exact h.failed hok
    · exact hbad hr
  · intro _ hok _ i hi
    have hin : i ∈ got := mem_of_full hn hlt (by omega) i hi
    have htake : got.take (c.count + 1) = got := by
      refine List.take_of_length_le ?_
      have hle' := (List.Nodup.subperm hn fun i hi => List.mem_range.mpr (hlt i hi)).length_le
      rw [List.length_range] at hle'
      omega
    rw [htake] at hall
    exact List.all_eq_true.mp (hall.symm.trans hok) i hin
  · unfold rest
    rw [hres, List.length_cons]
    dsimp only
    rw [if_neg (by simp)]
    omega

theorem Inv.take (h : Inv model computeInfo timeout verdict n w c) {result : Bool}
    {results : List Bool} (hres : c.results = result :: results) (hphase : c.phase = .selecting)
    (hlt : c.count + 1 < c.goroutines.length) {c' : Check ι ω σ} (hc' : c' = { c with
      results := results, count := c.count + 1, ok := c.ok && result }) :
    Inv model computeInfo timeout verdict n w c' ∧ rest n w c' < rest n w c := by
  subst hc'
  obtain ⟨hkill, htimed, -⟩ := h.selecting hphase
  obtain ⟨got, hn, hmem, -, hlen, hheard⟩ := h.next hres
  obtain ⟨hr, hall, hbad⟩ := hheard hkill
  rw [h.goroutines] at hlt
  refine ⟨⟨h.goroutines, h.longest, h.searching, h.noted,
    ⟨got, hn, hmem, hlen, fun _ => ⟨hr, hall⟩⟩, fun _ => ⟨hkill, htimed, .inl hlt⟩, ?_, ?_, ?_, ?_,
    h.unkilled, h.expired⟩, ?_⟩
  · exact fun hp => absurd (hphase.symm.trans hp) (by simp)
  · exact fun hp => absurd (hphase.symm.trans hp) (by simp)
  · intro hok
    rcases Bool.and_eq_false_iff.mp hok with hok | hr
    · exact h.failed hok
    · exact hbad hr
  · exact fun hp => absurd hphase hp
  · unfold rest
    rw [hres, List.length_cons]
    dsimp only
    omega

theorem leave_eq (computeInfo : Bool) (c : Check ι ω σ) : ∃ phase,
    leave computeInfo c = { c with phase := phase } ∧ phase ≠ .selecting ∧
      (phase = .waiting → c.count < c.goroutines.length) ∧
      (phase = .returned → computeInfo = true → c.goroutines.length ≤ c.count) := by
  unfold leave
  by_cases h : (computeInfo && decide (c.count < c.goroutines.length)) = true
  · rw [if_pos h]
    have hlt := of_decide_eq_true (Bool.and_eq_true_iff.mp h).2
    exact ⟨.waiting, rfl, by simp, fun _ => hlt, fun hp => absurd hp (by simp)⟩
  · rw [if_neg h]
    refine ⟨.returned, rfl, by simp, fun hp => absurd hp (by simp), fun _ hinfo => ?_⟩
    rw [hinfo, Bool.true_and, decide_eq_true_eq] at h
    omega

/-- The caller waits until all goroutines have returned. -/
theorem Inv.drop (h : Inv model computeInfo timeout verdict n w c) {result : Bool}
    {results : List Bool} (hres : c.results = result :: results) (hphase : c.phase = .waiting)
    {c' : Check ι ω σ}
    (hc' : c' = leave computeInfo { c with results := results, count := c.count + 1 }) :
    Inv model computeInfo timeout verdict n w c' ∧ rest n w c' < rest n w c := by
  obtain ⟨phase, hleave, hp, hwait, hret⟩ :=
    leave_eq computeInfo { c with results := results, count := c.count + 1 }
  rw [hleave] at hc'
  subst hc'
  obtain ⟨-, hkill⟩ := h.waiting hphase
  obtain ⟨got, hn, hmem, -, hlen, -⟩ := h.next hres
  dsimp only at hwait hret
  rw [h.goroutines] at hwait hret
  have hphase' : c.phase ≠ .selecting := by simp [hphase]
  refine ⟨⟨h.goroutines, h.longest, h.searching, h.noted, ⟨got, hn, hmem, hlen, ?_⟩, ?_, ?_, hret,
    h.failed, fun _ => h.passed hphase', h.unkilled, h.expired⟩, ?_⟩
  · exact fun hk => absurd (hkill.symm.trans hk) (by simp)
  · exact fun h => absurd h hp
  · exact fun h => ⟨hwait h, hkill⟩
  · unfold rest
    rw [hres, List.length_cons]
    dsimp only
    rw [if_neg hp, if_neg hphase']
    omega

theorem Inv.expire (h : Inv model computeInfo timeout verdict n w c)
    (hphase : c.phase = .selecting) (htimeout : 0 < timeout) {c' : Check ι ω σ}
    (hc' : c' = leave computeInfo { c with timedOut := true, kill := true }) :
    Inv model computeInfo timeout verdict n w c' ∧ rest n w c' < rest n w c := by
  obtain ⟨phase, hleave, hp, hwait, hret⟩ :=
    leave_eq computeInfo { c with timedOut := true, kill := true }
  rw [hleave] at hc'
  subst hc'
  dsimp only at hwait hret
  rw [h.goroutines] at hwait hret
  obtain ⟨got, hn, hmem, hlen, -⟩ := h.heard
  refine ⟨⟨h.goroutines, h.longest, ?_, ?_, ⟨got, hn, hmem, hlen, ?_⟩, ?_, ?_, hret, h.failed, ?_,
    ?_, fun _ => htimeout⟩, ?_⟩
  · exact fun i s hs => ⟨(h.searching i s hs).1, fun hk => absurd hk (by simp)⟩
  · exact fun hk => absurd hk (by simp)
  · exact fun hk => absurd hk (by simp)
  · exact fun h => absurd h hp
  · exact fun h => ⟨hwait h, rfl⟩
  · exact fun _ _ ht => absurd ht (by simp)
  · exact fun ht => absurd ht (by simp)
  · unfold rest
    dsimp only
    rw [if_neg hp, if_pos hphase]
    omega

/-- **What every event keeps**, and that it brings the end closer. -/
theorem inv_move (h : Inv model computeInfo timeout verdict n w c)
    (hm : Move model computeInfo timeout c e c') :
    ∃ w', Inv model computeInfo timeout verdict n w' c' ∧ rest n w' c' < rest n w c := by
  cases hm with
  | goOn hs hturn => exact h.goOn hs hturn
  | send hs hturn => exact h.send hs hturn rfl
  | stop hres hphase hok hinfo =>
    subst hinfo
    exact ⟨w, h.stop hres hphase hok rfl⟩
  | last hres hphase _ hle => exact ⟨w, h.last hres hphase hle rfl⟩
  | take hres hphase _ hlt => exact ⟨w, h.take hres hphase hlt rfl⟩
  | drop hres hphase => exact ⟨w, h.drop hres hphase rfl⟩
  | expire hphase htimeout => exact ⟨w, h.expire hphase htimeout rfl⟩

theorem inv_start {history : List (List (Entry ι ω))}
    (hends : ∀ i subhistory, history[i]? = some subhistory →
      Ends model computeInfo (Search.start model subhistory) (w i) (verdict i)) :
    Inv model computeInfo timeout verdict history.length w (start model history) := by
  have hreturned : ∀ i : Nat, ¬ (start model history).goroutines[i]? = some .returned := by
    intro i hi
    simp [start] at hi
  refine ⟨by simp [start], by simp [start], ?_, fun _ i hi => absurd hi (hreturned i),
    ⟨[], .nil, ?_, rfl, fun _ => ⟨rfl, rfl⟩⟩, ?_, ?_, ?_, ?_, ?_, fun _ _ => rfl, ?_⟩
  · intro i s hs
    simp only [start, List.getElem?_map, Option.map_eq_some_iff] at hs
    obtain ⟨subhistory, hi, heq⟩ := hs
    obtain rfl := Goroutine.running.inj heq
    have he := hends i subhistory hi
    exact ⟨he.iterate.1, fun _ => he⟩
  · exact fun i => ⟨fun hi => absurd hi List.not_mem_nil, fun hi => absurd hi (hreturned i)⟩
  · intro _
    refine ⟨rfl, rfl, ?_⟩
    dsimp only [start]
    omega
  · exact fun hp => absurd hp (by simp [start])
  · exact fun hp => absurd hp (by simp [start])
  · exact fun hok => absurd hok (by simp [start])
  · exact fun hp => absurd rfl hp
  · exact fun ht => absurd ht (by simp [start])

theorem Inv.turn_isSome (h : Inv model computeInfo timeout verdict n w c) {i : Nat}
    {s : Search ι ω σ} (hs : c.goroutines[i]? = some (.running s)) :
    ∃ c', c.step model computeInfo timeout (.turn i) = some c' := by
  have hturn : ∃ r, s.turn model computeInfo c.kill = some r := by
    cases hk : c.kill with
    | true =>
      obtain ⟨result, hr⟩ := turn_killed s
      exact ⟨_, hr⟩
    | false =>
      rw [turn_of_not_killed]
      rcases ((h.searching i s hs).2 hk).iterate.2 with ⟨s', hs', -⟩ | he
      · exact ⟨_, hs'⟩
      · exact ⟨_, he⟩
  obtain ⟨r, hr⟩ := hturn
  simp only [step, turn, hs, hr]
  rcases r with s' | ⟨ok, l⟩
  · exact ⟨_, rfl⟩
  · exact ⟨_, rfl⟩

theorem receive_isSome {result : Bool} {results : List Bool} (hres : c.results = result :: results)
    (hphase : c.phase ≠ .returned) :
    ∃ c', c.step model computeInfo timeout .receive = some c' := by
  simp only [step, receive, hres]
  cases hp : c.phase with
  | selecting =>
    dsimp only
    split
    · exact ⟨_, rfl⟩
    · split <;> exact ⟨_, rfl⟩
  | waiting => exact ⟨_, rfl⟩
  | returned => exact absurd hp hphase

/-- Somebody can go on until the caller is back. -/
theorem Inv.exists_step (h : Inv model computeInfo timeout verdict n w c) (hn : 0 < n)
    (hphase : c.phase ≠ .returned) :
    ∃ e c', e ≠ .timeout ∧ c.step model computeInfo timeout e = some c' := by
  have hcount : c.count < n := by
    cases hp : c.phase with
    | selecting => exact (h.selecting hp).2.2.resolve_right (by omega)
    | waiting => exact (h.waiting hp).1
    | returned => exact absurd hp hphase
  cases hres : c.results with
  | cons result results =>
    obtain ⟨c', hc'⟩ : ∃ c', c.step model computeInfo timeout .receive = some c' :=
      receive_isSome hres hphase
    exact ⟨.receive, c', by simp, hc'⟩
  | nil =>
    obtain ⟨got, hnodup, hmem, hlen, -⟩ := h.heard
    rw [hres, List.length_nil] at hlen
    -- not all have sent their results
    obtain ⟨i, hi, hnot⟩ : ∃ i < n, i ∉ got := by
      by_contra hall
      have hsub : List.range n ⊆ got := by
        intro i hi
        by_contra hni
        exact hall ⟨i, List.mem_range.mp hi, hni⟩
      have hle := (List.Nodup.subperm List.nodup_range hsub).length_le
      rw [List.length_range] at hle
      omega
    have hlt : i < c.goroutines.length := h.goroutines.symm ▸ hi
    have hget := List.getElem?_eq_getElem hlt
    cases hg : c.goroutines[i] with
    | returned =>
      rw [hg] at hget
      exact absurd ((hmem i).mpr hget) hnot
    | running s =>
      rw [hg] at hget
      obtain ⟨c', hc'⟩ := h.turn_isSome hget
      exact ⟨.turn i, c', by simp, hc'⟩

/-- The longest orders, for every operation one that is in it, and each only once. -/
structure ArePartials (model : Model ι ω σ) (history : List (Operation ι ω))
    (partials : List (List Nat)) : Prop where
  nodup : partials.Nodup
  order : ∀ seq ∈ partials, PartialLinearization model history seq
  reached : ∀ order, PartialLinearization model history order → ∀ i ∈ order,
    ∃ seq ∈ partials, i ∈ seq ∧ order.length ≤ seq.length

theorem arePartials_partials {history : List (Operation ι ω)} {longest : Longest}
    (h : IsLongest model history longest) (order : Visits (List Nat)) :
    ArePartials model history (partials order longest) where
  nodup := nodup_partials order longest
  order seq hseq := by
    obtain ⟨i, hi⟩ := List.mem_iff_getElem?.mp (mem_partials.mp hseq)
    exact (h.order i seq hi).2
  reached other hother i hi := by
    obtain ⟨seq, hseq, hle⟩ := h.reached other hother i hi
    exact ⟨seq, mem_partials.mpr (List.mem_of_getElem? hseq), (h.order i seq hseq).1, hle⟩

/-- What the result says of the partitions, and what is returned besides. -/
structure Answers (model : Model ι ω σ) (computeInfo : Bool) (timeout : Int)
    (partitions : List (List (Operation ι ω))) (c : Check ι ω σ) : Prop where
  ok : c.result = .ok → ∀ subhistory ∈ partitions, ∃ order, Linearization model subhistory order
  illegal : c.result = .illegal → ∃ subhistory ∈ partitions,
    NoTies subhistory → ¬ ∃ order, Linearization model subhistory order
  unknown : c.result = .unknown → 0 < timeout
  longest : computeInfo = true → c.timedOut = false → ∀ (i : Nat) subhistory,
    partitions[i]? = some subhistory → NoTies subhistory →
      ∃ longest, c.longest[i]? = some (some longest) ∧ IsLongest model subhistory longest
  partials : computeInfo = true → c.timedOut = false → ∀ (orders : Nat → Visits (List Nat))
    (i : Nat) subhistory, partitions[i]? = some subhistory → NoTies subhistory →
      ∃ partials, (c.partialLinearizations computeInfo orders)[i]? = some partials ∧
        ArePartials model subhistory partials

theorem exists_verdict (byTime : SortByTime ι ω) (computeInfo : Bool)
    (hequal : ∀ a b, model.equal a b = true → a = b) (subhistory : List (Operation ι ω))
    (hcall : ∀ elem ∈ subhistory, elem.call < elem.ret) : ∃ k verdict,
      Ends model computeInfo (Search.start model (makeEntries byTime subhistory)) k verdict ∧
      (verdict.1 = true → ∃ order, Linearization model subhistory order) ∧
      (NoTies subhistory → (verdict.1 = true ↔ ∃ order, Linearization model subhistory order) ∧
        (computeInfo = true → IsLongest model subhistory verdict.2)) := by
  obtain ⟨m, result, longest, hrun, hverdict⟩ :=
    checkSingle_verdict byTime computeInfo hequal hcall
  refine ⟨m, (result, longest), hrun, fun hr => ?_, fun hties =>
    ⟨hverdict.decides hties, hverdict.longest hties⟩⟩
  obtain ⟨order, horder, -⟩ := hverdict.yes hr
  exact ⟨order, horder⟩

/-- What the searches say of the partitions. -/
def Right (model : Model ι ω σ) (computeInfo : Bool) (partitions : List (List (Operation ι ω)))
    (verdict : Nat → Bool × Longest) : Prop :=
  ∀ i subhistory, partitions[i]? = some subhistory →
    ((verdict i).1 = true → ∃ order, Linearization model subhistory order) ∧
    (NoTies subhistory → ((verdict i).1 = true ↔ ∃ order, Linearization model subhistory order) ∧
      (computeInfo = true → IsLongest model subhistory (verdict i).2))

theorem of_result_ok (h : c.result = .ok) : c.ok = true ∧ c.timedOut = false := by
  unfold result at h
  cases hok : c.ok <;> cases ht : c.timedOut <;> simp_all

theorem of_result_illegal (h : c.result = .illegal) : c.ok = false := by
  unfold result at h
  cases hok : c.ok <;> cases ht : c.timedOut <;> simp_all

theorem of_result_unknown (h : c.result = .unknown) : c.timedOut = true := by
  unfold result at h
  cases hok : c.ok <;> cases ht : c.timedOut <;> simp_all

theorem Inv.answers {partitions : List (List (Operation ι ω))}
    (h : Inv model computeInfo timeout verdict partitions.length w c) (hphase : c.phase = .returned)
    (hverdict : Right model computeInfo partitions verdict) :
    Answers model computeInfo timeout partitions c := by
  have hselect : c.phase ≠ .selecting := by simp [hphase]
  have hlongest : computeInfo = true → c.timedOut = false → ∀ (i : Nat) subhistory,
      partitions[i]? = some subhistory → NoTies subhistory →
        ∃ longest, c.longest[i]? = some (some longest) ∧ IsLongest model subhistory longest := by
    intro hinfo htimed i subhistory hi hties
    have hlt := (List.getElem?_eq_some_iff.mp hi).1
    have hkill := h.unkilled htimed hinfo
    obtain ⟨got, hn, hmem, hlen, -⟩ := h.heard
    have hgot : ∀ i ∈ got, i < partitions.length := by
      intro i hi
      have hi' := (List.getElem?_eq_some_iff.mp ((hmem i).mp hi)).1
      rwa [h.goroutines] at hi'
    have hcount := h.returned hphase hinfo
    have hin := mem_of_full hn hgot (by omega) i hlt
    exact ⟨(verdict i).2, h.noted hkill i ((hmem i).mp hin),
      ((hverdict i subhistory hi).2 hties).2 hinfo⟩
  refine ⟨?_, ?_, ?_, hlongest, ?_⟩
  · intro hr subhistory hmem
    obtain ⟨i, hi⟩ := List.mem_iff_getElem?.mp hmem
    have hlt := (List.getElem?_eq_some_iff.mp hi).1
    obtain ⟨hok, htimed⟩ := of_result_ok hr
    exact (hverdict i subhistory hi).1 (h.passed hselect hok htimed i hlt)
  · intro hr
    obtain ⟨i, hi, hbad⟩ := h.failed (of_result_illegal hr)
    refine ⟨partitions[i], List.getElem_mem hi, fun hties hlin => ?_⟩
    have hiff := ((hverdict i _ (List.getElem?_eq_getElem hi)).2 hties).1
    exact absurd (hiff.mpr hlin) (by simp [hbad])
  · exact fun hr => h.expired (of_result_unknown hr)
  · intro hinfo htimed orders i subhistory hi hties
    obtain ⟨longest, hl, hlong⟩ := hlongest hinfo htimed i subhistory hi hties
    refine ⟨partials (orders i) longest, ?_, arePartials_partials hlong (orders i)⟩
    rw [partialLinearizations, if_pos hinfo, List.getElem?_mapIdx, hl]
    rfl

/-- With nothing to check and no timeout, nothing ever happens. -/
theorem step_start_nil (htimeout : timeout ≤ 0) (e : Event) :
    (start model ([] : List (List (Entry ι ω)))).step model computeInfo timeout e = none := by
  cases e with
  | turn i => rfl
  | receive => rfl
  | timeout =>
    simp only [step, Check.expire]
    rw [if_neg fun h => Int.not_lt.mpr htimeout h.2]

/-- The invariant at the beginning, with verdicts that are right. -/
theorem exists_inv_start (byTime : SortByTime ι ω) (computeInfo : Bool) (timeout : Int)
    (history : List (Operation ι ω)) (hequal : ∀ a b, model.equal a b = true → a = b)
    (hcall : ∀ subhistory ∈ model.partition history, ∀ elem ∈ subhistory, elem.call < elem.ret) :
    ∃ verdict w, Right model computeInfo (model.partition history) verdict ∧
      Inv model computeInfo timeout verdict (model.partition history).length w
        (checkOperations byTime model history) := by
  have hex : ∀ i : Nat, ∃ (k : Nat) (v : Bool × Longest), ∀ subhistory,
      (model.partition history)[i]? = some subhistory →
        Ends model computeInfo (Search.start model (makeEntries byTime subhistory)) k v ∧
        (v.1 = true → ∃ order, Linearization model subhistory order) ∧
        (NoTies subhistory → (v.1 = true ↔ ∃ order, Linearization model subhistory order) ∧
          (computeInfo = true → IsLongest model subhistory v.2)) := by
    intro i
    cases hi : (model.partition history)[i]? with
    | none => exact ⟨0, (true, []), fun _ h => absurd h (by simp)⟩
    | some subhistory =>
      obtain ⟨k, v, hv⟩ := exists_verdict byTime computeInfo hequal subhistory
        (hcall subhistory (List.mem_of_getElem? hi))
      refine ⟨k, v, fun other h => ?_⟩
      obtain rfl := Option.some.inj h
      exact hv
  choose w verdict hverdict using hex
  refine ⟨verdict, w, fun i subhistory hi => (hverdict i subhistory hi).2, ?_⟩
  have hinv : Inv model computeInfo timeout verdict
      ((model.partition history).map (makeEntries byTime)).length w
      (start model ((model.partition history).map (makeEntries byTime))) := by
    refine inv_start ?_
    intro i subhistory hi
    simp only [List.getElem?_map, Option.map_eq_some_iff] at hi
    obtain ⟨part, hpart, rfl⟩ := hi
    exact (hverdict i part hpart).1
  rwa [List.length_map] at hinv

theorem answers_of_trace (byTime : SortByTime ι ω) (computeInfo : Bool) (timeout : Int)
    (history : List (Operation ι ω)) (hequal : ∀ a b, model.equal a b = true → a = b)
    (hcall : ∀ subhistory ∈ model.partition history, ∀ elem ∈ subhistory, elem.call < elem.ret)
    {past : List (Check ι ω σ)} (ht : Trace (step model computeInfo timeout) (fun _ _ => True)
      (checkOperations byTime model history) (c :: past)) (hphase : c.phase = .returned) :
    Answers model computeInfo timeout (model.partition history) c := by
  obtain ⟨verdict, w, hright, hstart⟩ :=
    exists_inv_start byTime computeInfo timeout history hequal hcall
  obtain ⟨w', hinv, -⟩ := ht.length_le (rest (model.partition history).length) hstart
    fun x s s' e hx _ he => inv_move hx (move_of_step he)
  exact hinv.answers hphase hright

/-- **`checkOperations`** returns, in whatever order its goroutines run, and without a panic;
and the result says what is so.  Only with nothing to check and no timeout it waits for ever. -/
theorem checkOperations_returns (byTime : SortByTime ι ω) (model : Model ι ω σ)
    (computeInfo : Bool) (timeout : Int) (history : List (Operation ι ω))
    (hequal : ∀ a b, model.equal a b = true → a = b)
    (hcall : ∀ subhistory ∈ model.partition history, ∀ elem ∈ subhistory, elem.call < elem.ret) :
    ∃ bound, ∀ c past, Trace (step model computeInfo timeout) (fun _ _ => True)
        (checkOperations byTime model history) (c :: past) →
      past.length ≤ bound ∧
      (∀ i s, c.goroutines[i]? = some (.running s) →
        ∃ c', c.step model computeInfo timeout (.turn i) = some c') ∧
      (c.phase ≠ .returned → model.partition history ≠ [] →
        ∃ e c', e ≠ .timeout ∧ c.step model computeInfo timeout e = some c') ∧
      (model.partition history = [] → timeout ≤ 0 →
        c.phase = .selecting ∧ ∀ e, c.step model computeInfo timeout e = none) ∧
      (c.phase = .returned →
        Answers model computeInfo timeout (model.partition history) c) := by
  obtain ⟨verdict, w, hright, hstart⟩ :=
    exists_inv_start byTime computeInfo timeout history hequal hcall
  refine ⟨rest (model.partition history).length w (checkOperations byTime model history), ?_⟩
  intro c past ht
  obtain ⟨w', hinv, hle⟩ := ht.length_le (rest (model.partition history).length) hstart
    fun x s s' e hx _ he => inv_move hx (move_of_step he)
  refine ⟨by omega, fun i s hs => hinv.turn_isSome hs, ?_, ?_, fun hphase =>
    hinv.answers hphase hright⟩
  · intro hphase hne
    exact hinv.exists_step (List.length_pos_iff.mpr hne) hphase
  · intro hnil htimeout
    have hnone : ∀ e, (checkOperations byTime model history).step model computeInfo timeout e =
        none := by
      intro e
      rw [checkOperations, hnil]
      exact step_start_nil htimeout e
    have hsame := Trace.invariant (I := fun c => c = checkOperations byTime model history) rfl
      (fun s s' e hs _ he => absurd ((hnone e).symm.trans (hs ▸ he)) (by simp)) _ ht c
      (List.mem_cons_self ..)
    rw [hsame]
    exact ⟨rfl, hnone⟩

/-- The caller hears of the stale read while the other key is still being checked, and returns;
after that the goroutine for the other key is stopped. -/
def sampleStop : List Event :=
  [.turn 1] ++ List.replicate 12 (.turn 0) ++ [.receive, .turn 1]

theorem checkOperations_returns_sampleStop : ∃ c past,
    run (step KvModel false 0) (fun _ _ => True) (checkOperations .insertion KvModel sampleTwoKeys)
      sampleStop [] = some (c :: past) ∧ c.phase = .returned ∧ c.result = .illegal ∧
      c.results = [false] ∧ ∃ subhistory ∈ KvModel.partition sampleTwoKeys,
        NoTies subhistory → ¬ ∃ order, Linearization KvModel subhistory order := by
  have hs : runEnds (step KvModel false 0) (fun _ _ => True)
      (checkOperations .insertion KvModel sampleTwoKeys) sampleStop
      (fun c _ => decide (c.phase = .returned ∧ c.result = .illegal ∧ c.results = [false])) =
        true := by
    decide +kernel
  obtain ⟨c, past, hrun, ht, hc⟩ := exists_of_runEnds hs
  obtain ⟨hphase, hresult, hleft⟩ := of_decide_eq_true hc
  have hcall : ∀ subhistory ∈ KvModel.partition sampleTwoKeys,
      ∀ elem ∈ subhistory, elem.call < elem.ret := by decide +kernel
  obtain ⟨bound, hbound⟩ := checkOperations_returns .insertion KvModel false 0 sampleTwoKeys
    (fun _ _ h => of_decide_eq_true h) hcall
  obtain ⟨-, -, -, -, hanswers⟩ := hbound c past ht
  exact ⟨c, past, hrun, hphase, hresult, hleft, (hanswers hphase).illegal hresult⟩

end Check

end ShardRaft.Porcupine
