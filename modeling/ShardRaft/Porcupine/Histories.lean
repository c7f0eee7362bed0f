import Mathlib.Data.List.Sort
import ShardRaft.Porcupine.Explore

/-!
# The entries of a history

The calls and returns of the operations of a history, in the order of time.  The sort is not
stable and the clock may stand still, so what happens at one time comes in any order: what
returns before another operation is called comes before it (`earlier_of_precedes`), and what
comes before it has not returned after it (`le_of_earlier`).

Every operation has to return after it has been called; where both are at one time, the return
may come first, and its call is taken for a return.
-/

namespace ShardRaft.Porcupine

open Lib

variable {ι ω σ : Type}

/-- A sort that does it. -/
def SortByTime.insertion : SortByTime ι ω where
  sort entries := entries.insertionSort fun a b => a.time ≤ b.time
  perm _ := List.perm_insertionSort ..
  sorted _ := List.pairwise_insertionSort ..

/-- The entry of a call. -/
def Operation.callEntry (elem : Operation ι ω) (id : Nat) : Entry ι ω :=
  ⟨.callEntry, .input elem.input, id, elem.call, elem.clientId⟩

/-- The entry of a return. -/
def Operation.returnEntry (elem : Operation ι ω) (id : Nat) : Entry ι ω :=
  ⟨.returnEntry, .output elem.output, id, elem.ret, elem.clientId⟩

/-- What an entry stands for. -/
def Entry.mark (e : Entry ι ω) : Mark Nat :=
  match e.kind with
  | .callEntry => .call e.id
  | .returnEntry => .ret e.id

/-- Operation `i` has returned before operation `j` is called. -/
def Before (history : List (Operation ι ω)) (i j : Nat) : Prop :=
  ∃ x y, history[i]? = some x ∧ history[j]? = some y ∧ x.ret < y.call

variable {history : List (Operation ι ω)} {e e' : Entry ι ω} {i j n : Nat}

theorem mem_appendEntries : e ∈ appendEntries n history ↔
    ∃ (k : Nat) (elem : Operation ι ω), history[k]? = some elem ∧
      (e = elem.callEntry (n + k) ∨ e = elem.returnEntry (n + k)) := by
  induction history generalizing n with
  | nil => simp [appendEntries]
  | cons x history ih =>
    rw [appendEntries, List.mem_cons, List.mem_cons, ih]
    constructor
    · rintro (rfl | rfl | ⟨k, elem, hk, he⟩)
      · exact ⟨0, x, rfl, .inl rfl⟩
      · exact ⟨0, x, rfl, .inr rfl⟩
      · refine ⟨k + 1, elem, hk, ?_⟩
        rwa [← Nat.add_assoc, Nat.add_right_comm]
    · rintro ⟨k, elem, hk, he⟩
      cases k with
      | zero =>
        obtain rfl := Option.some.inj hk
        exact he.imp_right .inl
      | succ k =>
        refine .inr (.inr ⟨k, elem, hk, ?_⟩)
        rwa [← Nat.add_assoc, Nat.add_right_comm] at he

theorem length_appendEntries : (appendEntries n history).length = 2 * history.length := by
  induction history generalizing n with
  | nil => rfl
  | cons x history ih =>
    rw [appendEntries, List.length_cons, List.length_cons, ih, List.length_cons]
    omega

theorem nodup_appendEntries : ((appendEntries n history).map Entry.mark).Nodup := by
  induction history generalizing n with
  | nil => exact .nil
  | cons x history ih =>
    have hlater : ∀ m ∈ (appendEntries (n + 1) history).map Entry.mark, m.id ≠ n := by
      intro m hm
      obtain ⟨e, he, rfl⟩ := List.mem_map.mp hm
      obtain ⟨k, elem, -, rfl | rfl⟩ := mem_appendEntries.mp he
      · simp only [Operation.callEntry, Entry.mark, Mark.id]
        omega
      · simp only [Operation.returnEntry, Entry.mark, Mark.id]
        omega
    rw [appendEntries, List.map_cons, List.map_cons]
    refine List.nodup_cons.mpr ⟨?_, List.nodup_cons.mpr ⟨fun hmem => hlater _ hmem rfl, ih⟩⟩
    intro hmem
    rcases List.mem_cons.mp hmem with heq | hmem
    · exact absurd heq (by simp [Entry.mark])
    · exact hlater _ hmem rfl

/-! ### In the order of time -/

variable {byTime : SortByTime ι ω}

theorem mem_makeEntries : e ∈ makeEntries byTime history ↔
    ∃ (k : Nat) (elem : Operation ι ω), history[k]? = some elem ∧
      (e = elem.callEntry k ∨ e = elem.returnEntry k) := by
  rw [makeEntries, (byTime.perm _).mem_iff, mem_appendEntries]
  simp only [Nat.zero_add]

theorem length_makeEntries : (makeEntries byTime history).length = 2 * history.length :=
  (byTime.perm _).length_eq.trans length_appendEntries

theorem nodup_makeEntries : ((makeEntries byTime history).map Entry.mark).Nodup :=
  ((byTime.perm _).map Entry.mark).nodup_iff.mpr nodup_appendEntries

theorem callEntry_mem {elem : Operation ι ω} (h : history[i]? = some elem) :
    elem.callEntry i ∈ makeEntries byTime history := mem_makeEntries.mpr ⟨i, elem, h, .inl rfl⟩

theorem returnEntry_mem {elem : Operation ι ω} (h : history[i]? = some elem) :
    elem.returnEntry i ∈ makeEntries byTime history := mem_makeEntries.mpr ⟨i, elem, h, .inr rfl⟩

theorem eq_callEntry (he : e ∈ makeEntries byTime history) (hi : e.mark = .call i) :
    ∃ elem, history[i]? = some elem ∧ e = elem.callEntry i := by
  obtain ⟨k, elem, hk, rfl | rfl⟩ := mem_makeEntries.mp he
  · obtain rfl : k = i := Mark.call.inj hi
    exact ⟨elem, hk, rfl⟩
  · exact absurd hi (by simp [Operation.returnEntry, Entry.mark])

theorem eq_returnEntry (he : e ∈ makeEntries byTime history) (hi : e.mark = .ret i) :
    ∃ elem, history[i]? = some elem ∧ e = elem.returnEntry i := by
  obtain ⟨k, elem, hk, rfl | rfl⟩ := mem_makeEntries.mp he
  · exact absurd hi (by simp [Operation.callEntry, Entry.mark])
  · obtain rfl : k = i := Mark.ret.inj hi
    exact ⟨elem, hk, rfl⟩

theorem call_mem_iff :
    .call i ∈ (makeEntries byTime history).map Entry.mark ↔ i < history.length := by
  constructor
  · intro h
    obtain ⟨e, he, hi⟩ := List.mem_map.mp h
    obtain ⟨elem, helem, -⟩ := eq_callEntry he hi
    exact (List.getElem?_eq_some_iff.mp helem).1
  · intro h
    exact List.mem_map_of_mem (f := Entry.mark) (callEntry_mem (List.getElem?_eq_getElem h))

theorem pair_of_lt (he : e ∈ makeEntries byTime history) (he' : e' ∈ makeEntries byTime history)
    (h : e.time < e'.time) : [e, e'].Sublist (makeEntries byTime history) := by
  obtain ⟨pre, post, hl⟩ := List.append_of_mem he
  have hsorted : (pre ++ e :: post).Pairwise fun a b => a.time ≤ b.time := by
    rw [← hl]
    exact byTime.sorted _
  rw [hl] at he' ⊢
  rcases List.mem_append.mp he' with hpre | hpost
  · have hle := (List.pairwise_append.mp hsorted).2.2 e' hpre e (List.mem_cons_self ..)
    omega
  · rcases List.mem_cons.mp hpost with rfl | hpost
    · omega
    · have hpair : [e, e'].Sublist (e :: post) := (List.singleton_sublist.mpr hpost).cons_cons e
      exact hpair.trans (List.sublist_append_right ..)

theorem le_of_pair (h : [e, e'].Sublist (makeEntries byTime history)) : e.time ≤ e'.time := by
  have hsorted := (byTime.sorted _).sublist h
  exact (List.pairwise_cons.mp hsorted).1 e' (List.mem_singleton_self _)

/-- **What has returned before comes before.** -/
theorem earlier_of_before (h : Before history i j) :
    Earlier ((makeEntries byTime history).map Entry.mark) i j := by
  obtain ⟨x, y, hx, hy, hlt⟩ := h
  exact (pair_of_lt (returnEntry_mem hx) (callEntry_mem hy) hlt).map Entry.mark

/-- **What comes before has not returned after.** -/
theorem le_of_earlier (h : Earlier ((makeEntries byTime history).map Entry.mark) i j) :
    ∃ x y, history[i]? = some x ∧ history[j]? = some y ∧ x.ret ≤ y.call := by
  obtain ⟨l, hl, heq⟩ := List.sublist_map_iff.mp h
  rcases l with _ | ⟨e, _ | ⟨e', _ | ⟨e'', l⟩⟩⟩
  · exact absurd heq (by simp)
  · exact absurd heq (by simp)
  · obtain ⟨hi, heq⟩ := List.cons.inj heq
    obtain ⟨hj, -⟩ := List.cons.inj heq
    have hmem := mem_of_pair hl
    obtain ⟨x, hx, rfl⟩ := eq_returnEntry hmem.1 hi.symm
    obtain ⟨y, hy, rfl⟩ := eq_callEntry hmem.2 hj.symm
    exact ⟨x, y, hx, hy, le_of_pair hl⟩
  · exact absurd heq (by simp)

theorem paired_makeEntries (hcall : ∀ elem ∈ history, elem.call < elem.ret) :
    Paired ((makeEntries byTime history).map Entry.mark) where
  nodup := nodup_makeEntries
  call i hi := by
    obtain ⟨e, he, hei⟩ := List.mem_map.mp hi
    obtain ⟨elem, helem, -⟩ := eq_callEntry he hei
    have hlt := hcall elem (List.mem_of_getElem? helem)
    exact (pair_of_lt (callEntry_mem helem) (returnEntry_mem helem) hlt).map Entry.mark
  ret i hi := by
    obtain ⟨e, he, hei⟩ := List.mem_map.mp hi
    obtain ⟨elem, helem, -⟩ := eq_returnEntry he hei
    exact List.mem_map_of_mem (f := Entry.mark) (callEntry_mem helem)

/-! ### Where the search starts -/

/-- What an address stands for. -/
def markAt (entries : List (Entry ι ω)) (a : Nat) : Mark Nat :=
  (entries[a]?.map Entry.mark).getD (.call 0)

theorem markAt_eq {entries : List (Entry ι ω)} {a : Nat} (h : entries[a]? = some e) :
    markAt entries a = e.mark := by
  rw [markAt, h]
  rfl

theorem map_markAt (entries : List (Entry ι ω)) :
    (List.range entries.length).map (markAt entries) = entries.map Entry.mark := by
  refine List.ext_getElem (by simp) fun a ha ha' => ?_
  have hlt : a < entries.length := by simpa using ha'
  rw [List.getElem_map, List.getElem_range, List.getElem_map,
    markAt_eq (List.getElem?_eq_getElem hlt)]

/-- The entries of a history. -/
def layout (byTime : SortByTime ι ω) (history : List (Operation ι ω))
    (hcall : ∀ elem ∈ history, elem.call < elem.ret) : Layout ι ω where
  size := (makeEntries byTime history).length
  history := history
  mark := markAt (makeEntries byTime history)
  lt_ops a ha := by
    have hget := List.getElem?_eq_getElem ha
    obtain ⟨k, elem, hk, he⟩ := mem_makeEntries.mp (List.mem_of_getElem? hget)
    have hlt := (List.getElem?_eq_some_iff.mp hk).1
    rw [markAt_eq hget]
    rcases he with he | he
    · rw [he]
      exact hlt
    · rw [he]
      exact hlt
  paired := by
    rw [map_markAt]
    exact paired_makeEntries hcall

theorem all_layout (byTime : SortByTime ι ω) (hcall : ∀ elem ∈ history, elem.call < elem.ret) :
    (layout byTime history hcall).all = (makeEntries byTime history).map Entry.mark :=
  map_markAt _

theorem returnAt_spec {entries : List (Entry ι ω)} {m : Nat}
    (h : .ret i ∈ (entries.drop m).map Entry.mark) :
    ∃ r e, returnAt m (entries.drop m) i = some r ∧ entries[r]? = some e ∧ e.mark = .ret i := by
  obtain ⟨e, he, hei⟩ := List.mem_map.mp h
  have hreturn : ∀ e : Entry ι ω, e.isReturn i = true ↔ e.mark = .ret i := by
    rintro ⟨kind, value, id, time, clientId⟩
    cases kind <;> simp [Entry.isReturn, Entry.mark]
  cases hfind : (entries.drop m).findIdx? (Entry.isReturn i) with
  | none =>
    have hnot := List.findIdx?_eq_none_iff.mp hfind e he
    exact absurd ((hreturn e).mpr hei) (by simp [hnot])
  | some d =>
    obtain ⟨hlt, hd, -⟩ := List.findIdx?_eq_some_iff_getElem.mp hfind
    have hget : entries[m + d]? = some ((entries.drop m)[d]) := by
      rw [← List.getElem?_drop]
      exact List.getElem?_eq_getElem hlt
    exact ⟨m + d, _, by rw [returnAt, hfind]; rfl, hget, (hreturn _).mp hd⟩

theorem start_spec (model : Model ι ω σ) (entries : List (Entry ι ω)) :
    Memory.Chain (Search.start model entries).memory entries.length (List.range entries.length) ∧
      (∀ a e, entries[a]? = some e → ((Search.start model entries).memory a).toLabel =
        e.label (returnAt (a + 1) (entries.drop (a + 1)) e.id)) ∧
      (Search.start model entries).entry = (List.range entries.length).head? ∧
      (Search.start model entries).linearized = Bitset.newBitset (entries.length / 2) ∧
      (Search.start model entries).longest = List.replicate (entries.length / 2) none := by
  obtain ⟨hroot, -, hlabel⟩ := linkEntries_spec 0 entries
  rw [← List.range_eq_range'] at hroot
  have hnot : entries.length ∉ List.range entries.length := by simp
  obtain ⟨hhead, hkeep⟩ := (hroot.update hnot headNode).insertBefore hnot List.nodup_range
    (by rw [Memory.update_self]; rfl) (by rw [Memory.update_self]; rfl)
  have hlen := hroot.length_eq
  rw [List.length_range] at hlen
  refine ⟨hhead.2.2, ?_, hroot.root_eq, ?_, ?_⟩
  · intro a e he
    have hne : a ≠ entries.length := by
      have hlt := (List.getElem?_eq_some_iff.mp he).1
      omega
    refine (hkeep a).trans ?_
    rw [Memory.update_of_ne hne]
    have hl := hlabel a e he
    rwa [Nat.zero_add] at hl
  · exact congrArg (fun n => Bitset.newBitset (n / 2)) hlen
  · exact congrArg (fun n => List.replicate (n / 2) none) hlen

theorem labelled_start (model : Model ι ω σ) (hcall : ∀ elem ∈ history, elem.call < elem.ret) :
    (layout byTime history hcall).Labelled
      (Search.start model (makeEntries byTime history)).memory := by
  obtain ⟨-, hlabel, -⟩ := start_spec model (makeEntries byTime history)
  constructor
  · intro a ha i hi
    have hget := List.getElem?_eq_getElem ha
    have hmark : (makeEntries byTime history)[a].mark = .call i := (markAt_eq hget).symm.trans hi
    obtain ⟨elem, helem, heq⟩ := eq_callEntry (List.mem_of_getElem? hget) hmark
    have hdrop : .ret i ∈ ((makeEntries byTime history).drop (a + 1)).map Entry.mark := by
      have hp : Paired ((makeEntries byTime history).map Entry.mark) := paired_makeEntries hcall
      rw [← List.take_append_drop a (makeEntries byTime history), ← List.getElem_cons_drop ha,
        List.map_append, List.map_cons, hmark] at hp
      exact hp.ret_mem
    obtain ⟨r, e, hr, her, hmarkr⟩ := returnAt_spec hdrop
    refine ⟨elem, r, helem, (List.getElem?_eq_some_iff.mp her).1, (markAt_eq her).trans hmarkr, ?_⟩
    rw [hlabel a _ hget, heq]
    simp only [Operation.callEntry, Entry.label, if_true, hr]
  · intro a ha i hi
    have hget := List.getElem?_eq_getElem ha
    have hmark : (makeEntries byTime history)[a].mark = .ret i := (markAt_eq hget).symm.trans hi
    obtain ⟨elem, helem, heq⟩ := eq_returnEntry (List.mem_of_getElem? hget) hmark
    refine ⟨elem, helem, ?_⟩
    rw [hlabel a _ hget, heq]
    simp [Operation.returnEntry, Entry.label]

theorem at_start (byTime : SortByTime ι ω) (model : Model ι ω σ)
    (hcall : ∀ elem ∈ history, elem.call < elem.ret) :
    At (layout byTime history hcall) model (Search.start model (makeEntries byTime history)) [] := by
  obtain ⟨hchain, -, -, hlinearized, hlongest⟩ := start_spec model (makeEntries byTime history)
  have hhalf : (makeEntries byTime history).length / 2 = history.length := by
    rw [length_makeEntries]
    omega
  rw [hhalf] at hlinearized hlongest
  have hleft : (layout byTime history hcall).left
      (Search.start model (makeEntries byTime history)).linearized =
        List.range (makeEntries byTime history).length := by
    rw [hlinearized]
    exact Layout.left_newBitset _
  constructor
  case headEntry => rfl
  case labelled => exact labelled_start model hcall
  case chain =>
    rw [hleft]
    exact hchain
  case width =>
    intro i hi
    rw [hlinearized]
    exact Bitset.lt_length_newBitset hi
  case takes =>
    rw [Layout.marks, hleft]
    exact .nil _ _
  case calls => rfl
  case sound =>
    refine ⟨?_, ?_⟩
    · rw [hlongest, List.length_replicate]
      rfl
    · intro i seq hi
      rw [hlongest] at hi
      have hmem := List.mem_of_getElem? hi
      exact absurd (List.eq_of_mem_replicate hmem) (by simp)

end ShardRaft.Porcupine
