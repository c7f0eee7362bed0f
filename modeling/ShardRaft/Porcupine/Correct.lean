import Mathlib.Data.List.Perm.Subperm
import ShardRaft.Porcupine.Histories
import ShardRaft.Porcupine.KvModel

/-!
# The search decides linearizability

`checkSingle` ends, and says whether there is an order of all operations of the history that the
model can carry out and that respects time.  What it notes in `longest` is, for every operation,
a longest order that is in it and can be carried out first.

Where an operation is called at the very time at which another returns, the entries may say that
it was called after that, and the search then asks for more than time does.
-/

namespace ShardRaft.Porcupine

open Lib

variable {ι ω σ : Type}

/-- An order of all operations that respects time. -/
abbrev Linearization (model : Model ι ω σ) (history : List (Operation ι ω)) (order : List Nat) :
    Prop :=
  Arranges (stepOf model history) (Before history) (· < history.length) model.init order

/-- An order that can be carried out first. -/
abbrev PartialLinearization (model : Model ι ω σ) (history : List (Operation ι ω))
    (order : List Nat) : Prop :=
  Begins (stepOf model history) (Before history) (· < history.length) model.init order

/-- No operation is called at the time at which another one returns. -/
def NoTies (history : List (Operation ι ω)) : Prop :=
  ∀ x ∈ history, ∀ y ∈ history, x.ret ≠ y.call

instance (history : List (Operation ι ω)) : Decidable (NoTies history) :=
  inferInstanceAs (Decidable (∀ x ∈ history, ∀ y ∈ history, x.ret ≠ y.call))

/-- For every operation, a longest order that is in it, if there is one. -/
structure IsLongest (model : Model ι ω σ) (history : List (Operation ι ω)) (longest : Longest) :
    Prop where
  length : longest.length = history.length
  order : ∀ i seq, longest[i]? = some (some seq) →
    i ∈ seq ∧ PartialLinearization model history seq
  reached : ∀ order, PartialLinearization model history order → ∀ i ∈ order,
    Reached longest i order.length

variable {byTime : SortByTime ι ω} {model : Model ι ω σ} {history : List (Operation ι ω)}
  {computePartial : Bool}

/-- Without ties, the entries say what time says. -/
theorem earlier_iff (hties : NoTies history) (i j : Nat) :
    Earlier ((makeEntries byTime history).map Entry.mark) i j ↔ Before history i j := by
  constructor
  · intro h
    obtain ⟨x, y, hx, hy, hle⟩ := le_of_earlier h
    have hne := hties x (List.mem_of_getElem? hx) y (List.mem_of_getElem? hy)
    exact ⟨x, y, hx, hy, Int.lt_iff_le_and_ne.mpr ⟨hle, hne⟩⟩
  · exact earlier_of_before

variable (byTime history) in
/-- What the entries say is earlier. -/
abbrev EntryBefore (i j : Nat) : Prop := Earlier ((makeEntries byTime history).map Entry.mark) i j

theorem checkSingle_spec (byTime : SortByTime ι ω) (computePartial : Bool)
    (hequal : ∀ a b, model.equal a b = true → a = b)
    (hcall : ∀ elem ∈ history, elem.call < elem.ret) : ∃ m result longest,
    (∀ fuel, checkSingle (fuel + m) model (makeEntries byTime history) computePartial =
      some (result, longest)) ∧
    (result = true → ∃ order, longest = List.replicate history.length (some order) ∧
      Arranges (stepOf model history) (EntryBefore byTime history) (· < history.length)
        model.init order) ∧
    (result = false →
      (∀ order, ¬ Arranges (stepOf model history) (EntryBefore byTime history)
        (· < history.length) model.init order) ∧
      Sound (layout byTime history hcall) model longest ∧
      (computePartial = true → ∀ order, Begins (stepOf model history)
        (EntryBefore byTime history) (· < history.length) model.init order →
          ∀ i ∈ order, Reached longest i order.length)) := by
  have hat := at_start byTime model hcall
  obtain ⟨hchain, -, hentry, hlinearized, -⟩ := start_spec model (makeEntries byTime history)
  have hleft : (layout byTime history hcall).left
      (Search.start model (makeEntries byTime history)).linearized =
        List.range (makeEntries byTime history).length := by
    rw [hlinearized]
    exact Layout.left_newBitset _
  have hall := all_layout byTime hcall
  have hop : ∀ i, i < history.length ↔ .call i ∈ (layout byTime history hcall).all := by
    intro i
    rw [hall, call_mem_iff]
  have hpaired : Paired (layout byTime history hcall).all := (layout byTime history hcall).paired
  rcases explore computePartial hequal _ _ [] rfl hat (hleft ▸ hentry)
    (fun _ _ he => absurd he List.not_mem_nil) with
    ⟨m, order, horder, hrun⟩ | ⟨cache, longest, pre, r, hex⟩
  · refine ⟨m, true, _, hrun, fun _ => ⟨order, rfl, ?_⟩, fun h => absurd h (by simp)⟩
    refine horder.imp ?_ fun i => (hop i).symm
    intro i j he
    rwa [hall]
  · obtain ⟨⟨j, post, hl, hr⟩, hpre, ⟨m, hloop⟩, hsound, hmono, htried, hcached⟩ := hex
    have hmarks : (layout byTime history hcall).marks
        (Search.start model (makeEntries byTime history)).linearized =
          (layout byTime history hcall).all := by
      rw [Layout.marks, hleft]
      rfl
    have hexplored := explored_of_tried hl hr hpre hat.width hat.takes htried (by simp)
    have hrlt : r < (layout byTime history hcall).size := by
      have hmem : r ∈ pre ++ r :: post := by simp
      rw [← hl] at hmem
      exact (Layout.mem_left.mp hmem).1
    -- at the first return nothing has been carried out
    have hfail : Search.iterate model computePartial { Search.start model
        (makeEntries byTime history) with entry := some r, cache := cache, longest := longest } =
          some (.inr (false, longest)) := by
      refine iterate_fail ?_ rfl ?_ rfl
      · have hnext := hat.next_head
        rw [hl] at hnext
        intro hnone
        exact absurd (hnext.symm.trans hnone) (by simp)
      · obtain ⟨elem, -, hret⟩ := hat.labelled.ret r hrlt j hr
        exact congrArg Label.matching hret
    refine ⟨m + 1, false, longest, ?_, fun h => absurd h (by simp), fun _ => ⟨?_, hsound, ?_⟩⟩
    · intro fuel
      rw [checkSingle, ← Nat.add_assoc, Nat.add_right_comm, hloop, Search.loop, hfail]
    · intro order horder
      refine hexplored.fails ?_
      rw [hmarks]
      refine (completes_iff hpaired).mpr ⟨order, horder.imp ?_ hop⟩
      intro i j he
      rwa [hall] at he
    · intro hc order horder
      obtain ⟨order₀, htakes₀, hnoted⟩ := hexplored.noted hc
      have hnil : order₀.Perm [] := htakes₀.perm hat.takes hpaired
      rw [List.perm_nil.mp hnil] at hnoted
      have hbegins : Begins (stepOf model history) (Earlier (layout byTime history hcall).all)
          (.call · ∈ (layout byTime history hcall).all) model.init order := by
        refine horder.imp ?_ fun i => (hop i).mp
        intro i j he
        rwa [hall] at he
      obtain ⟨l, s, ht⟩ := hbegins.takes _ _ _ hpaired
      exact hnoted order l s (hmarks.symm ▸ ht)

theorem partialLinearization_of_takes (hcall : ∀ elem ∈ history, elem.call < elem.ret)
    {seq : List Nat} {l : List (Mark Nat)} {s : σ} (h : Takes (stepOf model history)
      (layout byTime history hcall).all model.init seq l s) :
    PartialLinearization model history seq := by
  have hb := h.begins (layout byTime history hcall).paired
  rw [all_layout] at hb
  exact hb.imp (fun _ _ => earlier_of_before) fun _ => call_mem_iff.mp

theorem loop_add {k : Nat} {result : Bool × Longest} (j : Nat) : ∀ {s : Search ι ω σ},
    s.loop model computePartial k = some result →
      s.loop model computePartial (k + j) = some result := by
  induction k with
  | zero => exact fun h => absurd h (by simp [Search.loop])
  | succ k ih =>
    intro s h
    rw [Nat.add_right_comm, Search.loop]
    rw [Search.loop] at h
    split at h
    · exact absurd h (by simp)
    · exact ih h
    · exact h

/-- What the search says of a history is right. -/
structure Verdict (model : Model ι ω σ) (history : List (Operation ι ω)) (computePartial : Bool)
    (result : Bool) (longest : Longest) : Prop where
  yes : result = true → ∃ order, Linearization model history order ∧
    longest = List.replicate history.length (some order)
  decides : NoTies history → (result = true ↔ ∃ order, Linearization model history order)
  longest : NoTies history → computePartial = true → IsLongest model history longest

theorem checkSingle_verdict (byTime : SortByTime ι ω) (computePartial : Bool)
    (hequal : ∀ a b, model.equal a b = true → a = b)
    (hcall : ∀ elem ∈ history, elem.call < elem.ret) : ∃ m result longest,
    (∀ fuel, checkSingle (fuel + m) model (makeEntries byTime history) computePartial =
      some (result, longest)) ∧ Verdict model history computePartial result longest := by
  obtain ⟨m, result, longest, hrun, hyes, hno⟩ :=
    checkSingle_spec byTime computePartial hequal hcall
  have hyes' : result = true → ∃ order, Linearization model history order ∧
      longest = List.replicate history.length (some order) := by
    intro hr
    obtain ⟨order, hlongest, horder⟩ := hyes hr
    exact ⟨order, horder.imp (fun _ _ => earlier_of_before) fun _ => Iff.rfl, hlongest⟩
  refine ⟨m, result, longest, hrun, hyes', fun hties => ⟨fun hr => ?_, ?_⟩, fun hties hc => ?_⟩
  · obtain ⟨order, horder, -⟩ := hyes' hr
    exact ⟨order, horder⟩
  · rintro ⟨order, horder⟩
    refine Bool.of_not_eq_false fun hr => (hno hr).1 order ?_
    exact horder.imp (fun i j => (earlier_iff hties i j).mp) fun _ => Iff.rfl
  · cases hr : result with
    | true =>
      obtain ⟨order, horder, rfl⟩ := hyes' hr
      refine ⟨List.length_replicate, ?_, ?_⟩
      · intro i seq hi
        have hmem := List.mem_of_getElem? hi
        obtain rfl := Option.some.inj (List.eq_of_mem_replicate hmem)
        have hlt := (List.getElem?_eq_some_iff.mp hi).1
        rw [List.length_replicate] at hlt
        exact ⟨horder.all i hlt, horder.toBegins⟩
      · intro other hother i hi
        refine ⟨order, List.getElem?_replicate_of_lt (hother.ops i hi), ?_⟩
        have hsub : other ⊆ order := fun j hj => horder.all j (hother.ops j hj)
        exact (List.Nodup.subperm hother.nodup hsub).length_le
    | false =>
      obtain ⟨-, hsound, hmax⟩ := hno hr
      refine ⟨hsound.length, ?_, ?_⟩
      · intro i seq hi
        obtain ⟨hmem, l, s, ht⟩ := hsound.takes i seq hi
        exact ⟨hmem, partialLinearization_of_takes hcall ht⟩
      · intro order horder
        exact hmax hc order (horder.imp (fun i j => (earlier_iff hties i j).mp) fun _ hi => hi)

/-- **`checkSingle`** ends.  If it says yes, every `longest` is an order of all operations that
respects time; and where no operation is called at the time at which another returns, it says
yes if there is one, and what it notes when it says no are longest orders. -/
theorem checkSingle_decides (byTime : SortByTime ι ω) (computePartial : Bool)
    (hequal : ∀ a b, model.equal a b = true → a = b)
    (hcall : ∀ elem ∈ history, elem.call < elem.ret) : ∃ m result longest,
    (∀ fuel, checkSingle (fuel + m) model (makeEntries byTime history) computePartial =
      some (result, longest)) ∧
    (result = true → ∃ order, Linearization model history order ∧
      longest = List.replicate history.length (some order)) ∧
    (NoTies history → (result = true ↔ ∃ order, Linearization model history order) ∧
      (computePartial = true → IsLongest model history longest)) := by
  obtain ⟨m, result, longest, hrun, hverdict⟩ :=
    checkSingle_verdict byTime computePartial hequal hcall
  exact ⟨m, result, longest, hrun, hverdict.yes, fun hties =>
    ⟨hverdict.decides hties, hverdict.longest hties⟩⟩

/-- Two of the reads and the write can be carried out, the stale read cannot. -/
theorem checkSingle_decides_sampleStale :
    IsLongest KvModel sampleStale [some [1, 0, 2], some [1, 0, 2], some [1, 0, 2], none] ∧
      ¬ ∃ order, Linearization KvModel sampleStale order := by
  have hrun : checkSingle 20 KvModel (makeEntries .insertion sampleStale) true =
      some (false, [some [1, 0, 2], some [1, 0, 2], some [1, 0, 2], none]) := by decide +kernel
  have hequal : ∀ a b, KvModel.equal a b = true → a = b := fun _ _ h => of_decide_eq_true h
  have hcall : ∀ elem ∈ sampleStale, elem.call < elem.ret := by decide
  obtain ⟨m, result, longest, hm, -, hties⟩ := checkSingle_decides .insertion true hequal hcall
  have heq := (hm 20).symm.trans (loop_add m hrun)
  obtain ⟨rfl, rfl⟩ := Prod.mk.inj (Option.some.inj heq)
  obtain ⟨hiff, hlongest⟩ := hties (by decide)
  exact ⟨hlongest rfl, fun hlin => absurd (hiff.mpr hlin) (by simp)⟩

end ShardRaft.Porcupine
