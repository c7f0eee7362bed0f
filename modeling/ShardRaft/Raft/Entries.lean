import ShardRaft.Raft.Compaction
import ShardRaft.Raft.Turns

/-!
# An entry is known by its index and its term

An entry is made once, by `Start` at a leader, and then copied: into requests, into other
logs, into stores.  No copy ever changes its index (`found_of_move`), whatever is
truncated, compacted or lost on the way.  So two entries with the same index and the same
term are the same entry, as long as no term has two leaders: a leader makes one entry for
an index, and nobody leads twice in one term (`entry_identity`).

The log of a leader only grows at the end while it leads.  A compacted log stands for the
full logs it represents, so this is said of those (`Peer.Grew`).
-/

namespace ShardRaft.Raft

open ShardRaft.Lib

variable {n : Nat} {C D : Type}

namespace Peer

/-- Every full log that `rf` may stand for has only grown at the end. -/
def Grew (rf rf' : Peer n C D) : Prop :=
  ∃ new, ∀ L, rf.Represents L → rf'.Represents (L ++ new)

theorem Grew.of_sameLog {rf rf' : Peer n C D} (h : rf.SameLog rf') : rf.Grew rf' := by
  refine ⟨[], fun L hL => ?_⟩
  rw [List.append_nil]
  exact hL.congr h.logs h.amount h.term

theorem Grew.trans {rf₁ rf₂ rf₃ : Peer n C D} (h : rf₁.Grew rf₂) (h' : rf₂.Grew rf₃) :
    rf₁.Grew rf₃ := by
  obtain ⟨new, h⟩ := h
  obtain ⟨new', h'⟩ := h'
  refine ⟨new ++ new', fun L hL => ?_⟩
  rw [← List.append_assoc]
  exact h' _ (h L hL)

theorem grew_append (rf : Peer n C D) (command : C) :
    rf.Grew (rf.appendToLogEntries command).persist := by
  refine ⟨[⟨rf.currentTerm, command⟩], fun L hL => ?_⟩
  have hle := hL.amount_le
  refine ⟨by simp, ?_, ?_, ?_⟩
  · change rf.snapshotEntriesAmount ≤ _
    rw [List.length_append]
    omega
  · change rf.logs ++ _ = List.drop rf.snapshotEntriesAmount _
    rw [hL.logs_eq, List.drop_append_of_le_length hle]
  · change rf.lastSnapshotTerm = if rf.snapshotEntriesAmount = 0 then -1 else
      ((L ++ [⟨rf.currentTerm, command⟩])[rf.snapshotEntriesAmount - 1]?.map (·.term)).getD (-1)
    rw [hL.term_eq]
    split
    · rfl
    · rw [List.getElem?_append_left (by omega)]

/-- The log and its boundary fit together. -/
structure Bounded (rf : Peer n C D) : Prop where
  pos : 0 < rf.snapshotEntriesAmount + rf.logs.length
  first : rf.snapshotEntriesAmount = 0 → rf.lastSnapshotTerm = -1

theorem Bounded.congr {rf rf' : Peer n C D} (h : rf.Bounded) (hs : rf.SameLog rf') :
    rf'.Bounded := by
  constructor
  · rw [hs.amount, hs.logs]; exact h.pos
  · rw [hs.amount, hs.term]; exact h.first

theorem Bounded.exists_represents [Inhabited C] {rf : Peer n C D} (h : rf.Bounded) :
    ∃ L, rf.Represents L := by
  have hpos := h.pos
  rcases Nat.eq_zero_or_pos rf.snapshotEntriesAmount with h0 | h0
  · refine ⟨rf.logs, ?_, ?_, ?_, ?_⟩
    · intro hnil
      rw [hnil, h0] at hpos
      exact absurd hpos (by simp)
    · omega
    · rw [h0, List.drop_zero]
    · rw [if_pos h0]
      exact h.first h0
  · refine ⟨List.replicate rf.snapshotEntriesAmount ⟨rf.lastSnapshotTerm, default⟩ ++ rf.logs,
      ?_, ?_, ?_, ?_⟩
    · intro hnil
      have hlen := congrArg List.length hnil
      simp only [List.length_append, List.length_replicate, List.length_nil] at hlen
      omega
    · simp
    · rw [List.drop_left' (List.length_replicate ..)]
    · rw [if_neg (by omega), List.getElem?_append_left (by simp; omega),
        List.getElem?_replicate_of_lt (by omega)]
      rfl

end Peer

namespace World

/-- Entry `a` is at index `i` in a log, in a store or in a request under way. -/
inductive Found (w : World n C D) (i : Int) (a : LogEntity C) : Prop
  | memory (s : Fin n) (j : Nat) : (w.rafts s).logs[j]? = some a →
      i = (w.rafts s).snapshotEntriesAmount + j → Found w i a
  | stored (s : Fin n) (d : PersistData n C) (j : Nat) :
      (w.rafts s).persister.raftstate = some d → d.logs[j]? = some a →
      i = d.snapshotEntriesAmount + j → Found w i a
  | flight (src dst : Fin n) (args : AppendEntriesArgs n C) (j : Nat) :
      w.Pending src dst (.appendEntries args) → args.entries[j]? = some a →
      i = args.prevLogIndex + 1 + j → Found w i a

/-- The step is the call of `Start` that makes entry `a` for index `i` at server `s`. -/
structure Makes (w : World n C D) (e : Event C D n) (s : Fin n) (i : Int) (a : LogEntity C) :
    Prop where
  event : e = .start s a.action
  leader : (w.rafts s).status = .leader
  term : a.term = (w.rafts s).currentTerm
  index : i = (w.rafts s).getLastLogEntryIndex + 1

section steps

variable {w w' : World n C D} {e : Event C D n} {i : Int} {a : LogEntity C}

theorem found_drop {s : Fin n} {m : Int} {j : Nat}
    (hm : ((w.rafts s).snapshotEntriesAmount : Int) ≤ m)
    (ha : ((w.rafts s).logs.drop (m - (w.rafts s).snapshotEntriesAmount).toNat)[j]? = some a)
    (hi : i = m.toNat + j) : Found w i a := by
  rw [List.getElem?_drop] at ha
  refine .memory s _ ha ?_
  push_cast
  omega

/-- **No copy changes its index**: an entry has been there before, or `Start` has just
made it. -/
theorem found_of_turn {s : Fin n} {rf' : Peer n C D} (ht : Turn w e s rf') {j : Nat}
    (ha : rf'.logs[j]? = some a) (hi : i = rf'.snapshotEntriesAmount + j) :
    Found w i a ∨ (Makes w e s i a ∧ i ≤ rf'.getLastLogEntryIndex) := by
  have hlast : i ≤ rf'.getLastLogEntryIndex := by
    have hlt := (List.getElem?_eq_some_iff.mp ha).1
    rw [hi, Peer.getLastLogEntryIndex]
    omega
  have hsame : (w.rafts s).SameLog rf' → Found w i a := by
    intro h
    rw [h.logs] at ha
    rw [h.amount] at hi
    exact .memory s j ha hi
  cases ht with
  | rests h => exact .inl (hsame h.toSameLog)
  | follows _ _ h => exact .inl (hsame h)
  | heeds _ _ _ h => exact .inl (hsame h)
  | grants _ _ _ _ _ _ _ _ _ h => exact .inl (hsame h)
  | restarts _ _ _ h => exact .inl (hsame h)
  | campaigns _ he => subst he; exact .inl (hsame ⟨rfl, rfl, rfl⟩)
  | wins _ he => subst he; exact .inl (hsame ⟨rfl, rfl, rfl⟩)
  | overwrites src waiting args hp _ _ hlo hhi he =>
    left
    subst he
    have ha : ((w.rafts s).logs.take
        (args.prevLogIndex + 1 - (w.rafts s).snapshotEntriesAmount).toNat ++ args.entries)[j]? =
        some a := ha
    have hi : i = (w.rafts s).snapshotEntriesAmount + j := hi
    have hlen : ((w.rafts s).logs.take
        (args.prevLogIndex + 1 - (w.rafts s).snapshotEntriesAmount).toNat).length =
        (args.prevLogIndex + 1 - (w.rafts s).snapshotEntriesAmount).toNat := by
      rw [List.length_take]
      rw [Peer.getLastLogEntryIndex] at hhi
      omega
    rcases Nat.lt_or_ge j (args.prevLogIndex + 1 - (w.rafts s).snapshotEntriesAmount).toNat with
      hlt | hge
    · rw [List.getElem?_append_left (by rw [hlen]; exact hlt), List.getElem?_take_of_lt hlt] at ha
      exact .memory s j ha hi
    · rw [List.getElem?_append_right (by rw [hlen]; exact hge), hlen] at ha
      exact .flight src s args _ ⟨waiting, mem_of_picked hp⟩ ha (by omega)
  | installs _ _ args _ _ hlo _ _ hl ham _ =>
    left
    rw [hl] at ha
    rw [ham] at hi
    exact found_drop (by omega) ha hi
  | compacts index _ hlo _ _ _ _ hl ham _ =>
    left
    rw [hl] at ha
    rw [ham] at hi
    exact found_drop (by omega) ha hi
  | appends command he hl heq =>
    subst heq
    have ha : ((w.rafts s).logs ++ [⟨(w.rafts s).currentTerm, command⟩])[j]? = some a := ha
    have hi : i = (w.rafts s).snapshotEntriesAmount + j := hi
    rcases getElem?_concat.mp ha with ha | ⟨hj, rfl⟩
    · exact .inl (.memory s j ha hi)
    · refine .inr ⟨⟨he, hl, rfl, ?_⟩, hlast⟩
      rw [hi, hj, Peer.getLastLogEntryIndex]
      omega

/-- What is stored is what the peer has in memory. -/
theorem found_of_stored [Inhabited C] {s : Fin n} (hh : Healthy s (w.rafts s))
    {d : PersistData n C} (hd : (w.rafts s).persister.raftstate = some d) :
    d = (w.rafts s).getPersistData := by
  have hm := make_getPersistData hh
  rw [Peer.make, hd] at hm
  exact hm

theorem found_of_move [Inhabited C] (hh : ∀ s, Healthy s (w.rafts s))
    (hh' : ∀ s, Healthy s (w'.rafts s)) (hm : Move w e w') (h : Found w' i a) :
    Found w i a ∨ ∃ s, Makes w e s i a ∧ i ≤ (w'.rafts s).getLastLogEntryIndex := by
  have hturn := turn_of_move hh hm
  cases h with
  | memory s j ha hi => exact (found_of_turn (hturn s) ha hi).imp id fun hm => ⟨s, hm⟩
  | stored s d j hd ha hi =>
    rw [found_of_stored (hh' s) hd] at ha hi
    exact (found_of_turn (hturn s) ha hi).imp id fun hm => ⟨s, hm⟩
  | flight src dst args j hp ha hi =>
    left
    rcases pending_of_move hh hm hp with hp | hb
    · exact .flight src dst args j hp ha hi
    · cases hb with
      | appendEntries _ _ _ hs =>
        rw [hs.entries] at ha
        refine found_drop hs.boundary ha ?_
        have hlo := hs.boundary
        omega

/-! ### Leaders -/

/-- Who leads after a step has led before, and its log has grown; or it has just won. -/
theorem lead_of_turn {s : Fin n} {rf' : Peer n C D} (ht : Turn w e s rf')
    (hl : rf'.status = .leader) :
    ((w.rafts s).status = .leader ∧ rf'.currentTerm = (w.rafts s).currentTerm ∧
      (w.rafts s).Grew rf') ∨ (w.rafts s).currentTerm < rf'.currentTerm := by
  cases ht with
  | rests h => exact .inl ⟨h.status ▸ hl, h.currentTerm, .of_sameLog h.toSameLog⟩
  | follows _ hs => rw [hs] at hl; exact absurd hl (by simp)
  | heeds _ _ hs => rw [hs] at hl; exact absurd hl (by simp)
  | overwrites _ _ _ _ _ _ _ _ he => subst he; exact absurd hl (by simp [Peer.overwrite])
  | installs _ _ _ _ _ _ _ hs => rw [hs] at hl; exact absurd hl (by simp)
  | grants _ _ _ _ _ _ _ _ hs => rw [hs] at hl; exact absurd hl (by simp)
  | campaigns _ he => subst he; exact absurd hl (by simp)
  | wins _ he =>
    subst he
    right
    rw [Peer.becomeLeader_fst_currentTerm]
    omega
  | appends command _ hs he =>
    subst he
    exact .inl ⟨hs, rfl, Peer.grew_append _ command⟩
  | compacts index b hlo hb hterm _ hs hlogs ham ht =>
    refine .inl ⟨hs ▸ hl, hterm, [], ?_⟩
    intro L hL
    rw [List.append_nil]
    rw [hL.logs_get hlo] at hb
    refine hL.moveBoundary hb ?_ ?_ ht
    · rw [ham]; omega
    · rw [hlogs, hL.logs_eq, List.drop_drop]
      congr 1
      omega
  | restarts _ _ hs => rw [hs] at hl; exact absurd hl (by simp)

theorem bounded_turn {s : Fin n} {rf' : Peer n C D} (ht : Turn w e s rf')
    (h : (w.rafts s).Bounded) : rf'.Bounded := by
  cases ht with
  | rests hs => exact h.congr hs.toSameLog
  | follows _ _ hs => exact h.congr hs
  | heeds _ _ _ hs => exact h.congr hs
  | grants _ _ _ _ _ _ _ _ _ hs => exact h.congr hs
  | restarts _ _ _ hs => exact h.congr hs
  | campaigns _ he => subst he; exact h.congr ⟨rfl, rfl, rfl⟩
  | wins _ he => subst he; exact h.congr ⟨rfl, rfl, rfl⟩
  | overwrites src waiting args _ _ hne hlo hhi he =>
    subst he
    refine ⟨?_, h.first⟩
    change 0 < (w.rafts s).snapshotEntriesAmount + ((w.rafts s).logs.take
      (args.prevLogIndex + 1 - (w.rafts s).snapshotEntriesAmount).toNat ++ args.entries).length
    rw [List.length_append, List.length_take]
    rw [Peer.getLastLogEntryIndex] at hhi
    omega
  | installs _ _ args _ _ hlo _ _ _ ham _ =>
    constructor
    · rw [ham]; omega
    · intro h0; rw [ham] at h0; omega
  | compacts index b hlo _ _ _ _ _ ham _ =>
    constructor
    · rw [ham]; omega
    · intro h0; rw [ham] at h0; omega
  | appends command _ _ he =>
    subst he
    refine ⟨?_, h.first⟩
    change 0 < (w.rafts s).snapshotEntriesAmount + ((w.rafts s).logs ++ [_]).length
    rw [List.length_append, List.length_singleton]
    omega

end steps

/-! ### Runs -/

/-- No term ever has two different leaders. -/
def OneLeader (tr : List (World n C D)) : Prop :=
  ∀ w ∈ tr, ∀ w' ∈ tr, ∀ i j : Fin n, (w.rafts i).status = .leader →
    (w'.rafts j).status = .leader → (w.rafts i).currentTerm = (w'.rafts j).currentTerm → i = j

theorem OneLeader.tail {w : World n C D} {tr : List (World n C D)} (h : OneLeader (w :: tr)) :
    OneLeader tr :=
  fun w₁ h₁ w₂ h₂ => h w₁ (List.mem_cons_of_mem _ h₁) w₂ (List.mem_cons_of_mem _ h₂)

section runs

variable [Inhabited C] {ok : World n C D → Event C D n → Prop} {w w' : World n C D}
  {past : List (World n C D)} {e : Event C D n} {i : Int} {a : LogEntity C}

theorem term_le_run (h : Run ok (w :: past)) (s : Fin n) :
    ∀ w₀ ∈ w :: past, (w₀.rafts s).currentTerm ≤ (w.rafts s).currentTerm := by
  have hall := Trace.induction (P := fun tr => ∀ w past, tr = w :: past →
      ∀ w₀ ∈ w :: past, (w₀.rafts s).currentTerm ≤ (w.rafts s).currentTerm)
    (by
      intro w past heq w₀ hw₀
      obtain ⟨rfl, rfl⟩ := List.cons.inj heq
      rw [List.mem_singleton.mp hw₀])
    (by
      intro v v' e tr ht ih _ hs w past heq w₀ hw₀
      obtain ⟨rfl, rfl⟩ := List.cons.inj heq
      have hh := healthy_run _ ht v (List.mem_cons_self ..)
      have hle := ((effect_of_step hs).healthy hh s).2.1
      rcases List.mem_cons.mp hw₀ with rfl | hw₀
      · exact le_rfl
      · exact (ih v tr rfl w₀ hw₀).trans hle) _ h
  exact hall w past rfl

theorem bounded_run {tr : List (World n C D)} (h : Run ok tr) :
    ∀ w ∈ tr, ∀ s, (w.rafts s).Bounded := by
  have hall := Trace.invariant
    (I := fun w => (∀ s, Healthy s (w.rafts s)) ∧ ∀ s, (w.rafts s).Bounded)
    ⟨healthy_init, fun s => ⟨Nat.one_pos, fun _ => rfl⟩⟩
    (fun v v' e hi _ hs => ⟨fun s => ((effect_of_step hs).healthy hi.1 s).1,
      fun s => bounded_turn (turn_of_move hi.1 (move_of_step hs) s) (hi.2 s)⟩) tr h
  exact fun w hw => (hall w hw).2

theorem found_of_step (h : Run ok (w :: past)) (hs : w.step e = some w') (hf : Found w' i a) :
    Found w i a ∨ ∃ s, Makes w e s i a ∧ i ≤ (w'.rafts s).getLastLogEntryIndex := by
  have hh := healthy_run _ h w (List.mem_cons_self ..)
  have hh' : ∀ s, Healthy s (w'.rafts s) := fun s => ((effect_of_step hs).healthy hh s).1
  exact found_of_move hh hh' (move_of_step hs) hf

/-- Every entry but the filler has been made by a leader of its term. -/
theorem leader_of_found {tr : List (World n C D)} (h : Run ok tr) :
    ∀ w₀ ∈ tr, ∀ i a, Found w₀ i a → 0 ≤ a.term →
      ∃ w₁ ∈ tr, ∃ s, (w₁.rafts s).status = .leader ∧ (w₁.rafts s).currentTerm = a.term := by
  induction h with
  | init =>
    intro w₀ hw₀ i a hf h0
    rw [List.mem_singleton.mp hw₀] at hf
    exfalso
    cases hf with
    | memory s j ha _ =>
      have ha : ([filler] : List (LogEntity C))[j]? = some a := ha
      rw [List.mem_singleton.mp (List.mem_of_getElem? ha)] at h0
      exact absurd h0 (by simp [filler])
    | stored s d j hd _ _ => exact absurd hd (by simp [init, make_persister, Persister.makePersister])
    | flight src dst args j hp _ _ => obtain ⟨_, hp⟩ := hp; exact absurd hp List.not_mem_nil
  | @step v v' e tr ht _ hs ih =>
    intro w₀ hw₀ i a hf h0
    have hold : ∀ w₀ ∈ v :: tr, Found w₀ i a → ∃ w₁ ∈ v' :: v :: tr, ∃ s,
        (w₁.rafts s).status = .leader ∧ (w₁.rafts s).currentTerm = a.term := by
      intro w₀ hw₀ hf
      obtain ⟨w₁, hw₁, hl⟩ := ih w₀ hw₀ i a hf h0
      exact ⟨w₁, List.mem_cons_of_mem _ hw₁, hl⟩
    rcases List.mem_cons.mp hw₀ with rfl | hw₀
    · rcases found_of_step ht hs hf with hf | ⟨s, hm, -⟩
      · exact hold v (List.mem_cons_self ..) hf
      · exact ⟨v, List.mem_cons_of_mem _ (List.mem_cons_self ..), s, hm.leader, hm.term.symm⟩
    · exact hold w₀ hw₀ hf

/-- A leader's log goes as far as any entry of its term. -/
theorem le_last_of_leader {tr : List (World n C D)} (h : Run ok tr) :
    OneLeader tr → ∀ w ∈ tr.head?, ∀ s, (w.rafts s).status = .leader →
      ∀ w₀ ∈ tr, ∀ i a, Found w₀ i a → a.term = (w.rafts s).currentTerm → 0 ≤ a.term →
        i ≤ (w.rafts s).getLastLogEntryIndex := by
  induction h with
  | init =>
    intro _ w hw s hl
    rw [← Option.some.inj hw] at hl
    exact absurd hl (by simp [init, make_status])
  | @step v v' e tr ht _ hs ih =>
    intro hone w hw s hl w₀ hw₀ i a hf hterm h0
    rw [← Option.some.inj hw] at hl hterm ⊢
    have hv := List.mem_cons_self (a := v) (l := tr)
    have hv' := List.mem_cons_self (a := v') (l := v :: tr)
    have hh := healthy_run _ ht v hv
    -- what was found before the step
    have hold : ∀ w₀ ∈ v :: tr, Found w₀ i a → i ≤ (v'.rafts s).getLastLogEntryIndex := by
      intro w₀ hw₀ hf
      rcases lead_of_turn (turn_of_move hh (move_of_step hs) s) hl with ⟨hl₀, ht₀, hg⟩ | hlt
      · have hle := ih hone.tail v rfl s hl₀ w₀ hw₀ i a hf (hterm.trans ht₀) h0
        obtain ⟨L, hL⟩ := (bounded_run ht v hv s).exists_represents
        obtain ⟨new, hnew⟩ := hg
        have hL' := hnew L hL
        rw [hL.lastIndex] at hle
        rw [hL'.lastIndex, List.length_append]
        omega
      · -- a new leader: nobody has led in this term before
        obtain ⟨w₁, hw₁, s₁, hl₁, ht₁⟩ := leader_of_found ht w₀ hw₀ i a hf h0
        have heq := hone w₁ (List.mem_cons_of_mem _ hw₁) v' hv' s₁ s hl₁ hl (ht₁.trans hterm)
        subst heq
        have hle := term_le_run ht s₁ w₁ hw₁
        omega
    rcases List.mem_cons.mp hw₀ with rfl | hw₀
    · rcases found_of_step ht hs hf with hf | ⟨s₁, hm, hle⟩
      · exact hold v hv hf
      · have heq := hone v (List.mem_cons_of_mem _ hv) _ hv' s₁ s hm.leader hl
          (hm.term.symm.trans hterm)
        rwa [heq] at hle
    · exact hold w₀ hw₀ hf

/-- Two entries with the same index and the same term are one. -/
theorem found_unique {tr : List (World n C D)} (h : Run ok tr) :
    OneLeader tr → ∀ w₁ ∈ tr, ∀ w₂ ∈ tr, ∀ i a b, Found w₁ i a → Found w₂ i b →
      a.term = b.term → 0 ≤ a.term → a.action = b.action := by
  induction h with
  | init =>
    intro _ w₁ hw₁ w₂ _ i a b hf _ _ h0
    have hr : Run ok [(init : World n C D)] := .init
    obtain ⟨w, hw, s, hl, -⟩ := leader_of_found hr w₁ hw₁ i a hf h0
    rw [List.mem_singleton.mp hw] at hl
    exact absurd hl (by simp [init, make_status])
  | @step v v' e tr ht _ hs ih =>
    intro hone w₁ hw₁ w₂ hw₂ i a b hfa hfb hterm h0
    -- an entry of the run up to `v`, or the one this step makes
    have hcases : ∀ w₀ ∈ v' :: v :: tr, ∀ c, Found w₀ i c →
        (∃ w₀ ∈ v :: tr, Found w₀ i c) ∨ ∃ s, Makes v e s i c := by
      intro w₀ hw₀ c hf
      rcases List.mem_cons.mp hw₀ with rfl | hw₀
      · rcases found_of_step ht hs hf with hf | ⟨s, hm, -⟩
        · exact .inl ⟨v, List.mem_cons_self .., hf⟩
        · exact .inr ⟨s, hm⟩
      · exact .inl ⟨w₀, hw₀, hf⟩
    have hnew : ∀ w₀ ∈ v :: tr, ∀ s c d, Found w₀ i c → Makes v e s i d → c.term = d.term →
        0 ≤ c.term → False := by
      intro w₀ hw₀ s c d hf hm hcd hc
      have hle := le_last_of_leader ht hone.tail v rfl s hm.leader w₀ hw₀ i c hf
        (hcd.trans hm.term) hc
      have hi := hm.index
      omega
    rcases hcases w₁ hw₁ a hfa with ⟨u₁, hu₁, hfa⟩ | ⟨s₁, hma⟩
    · rcases hcases w₂ hw₂ b hfb with ⟨u₂, hu₂, hfb⟩ | ⟨s₂, hmb⟩
      · exact ih hone.tail u₁ hu₁ u₂ hu₂ i a b hfa hfb hterm h0
      · exact (hnew u₁ hu₁ s₂ a b hfa hmb hterm h0).elim
    · rcases hcases w₂ hw₂ b hfb with ⟨u₂, hu₂, hfb⟩ | ⟨s₂, hmb⟩
      · exact (hnew u₂ hu₂ s₁ b a hfb hma hterm.symm (hterm ▸ h0)).elim
      · exact (Event.start.inj (hma.event.symm.trans hmb.event)).2

theorem grew_run {tr : List (World n C D)} (h : Run ok tr) :
    ∀ w ∈ tr.head?, ∀ w₀ ∈ tr, ∀ s, (w₀.rafts s).status = .leader →
      (w.rafts s).status = .leader → (w₀.rafts s).currentTerm = (w.rafts s).currentTerm →
      (w₀.rafts s).Grew (w.rafts s) := by
  induction h with
  | init =>
    intro w hw w₀ hw₀ s _ _ _
    rw [List.mem_singleton.mp hw₀, ← Option.some.inj hw]
    exact .of_sameLog (.refl _)
  | @step v v' e tr ht _ hs ih =>
    intro w hw w₀ hw₀ s hl₀ hl hterm
    rw [← Option.some.inj hw] at hl hterm ⊢
    have hh := healthy_run _ ht v (List.mem_cons_self ..)
    rcases List.mem_cons.mp hw₀ with rfl | hw₀
    · exact .of_sameLog (.refl _)
    · rcases lead_of_turn (turn_of_move hh (move_of_step hs) s) hl with ⟨hlv, htv, hg⟩ | hlt
      · exact (ih v rfl w₀ hw₀ s hl₀ hlv (hterm.trans htv)).trans hg
      · have hle := term_le_run ht s w₀ hw₀
        omega

/-- **Entry identity.**  In a run in which no term has two leaders, entries with the same
index and term carry the same command, wherever and whenever they are found; and the log of
a leader only grows at the end. -/
theorem entry_identity (w : World n C D) (past : List (World n C D))
    (h : Run (fun _ _ => True) (w :: past)) (hone : OneLeader (w :: past)) :
    (∀ w₁ ∈ w :: past, ∀ w₂ ∈ w :: past, ∀ i a b, Found w₁ i a → Found w₂ i b →
      a.term = b.term → 0 ≤ a.term → a.action = b.action) ∧
    ∀ w₀ ∈ past, ∀ s, (w₀.rafts s).status = .leader → (w.rafts s).status = .leader →
      (w₀.rafts s).currentTerm = (w.rafts s).currentTerm →
      (∃ L, (w₀.rafts s).Represents L) ∧
        ∃ new, ∀ L, (w₀.rafts s).Represents L → (w.rafts s).Represents (L ++ new) := by
  refine ⟨found_unique h hone, ?_⟩
  intro w₀ hw₀ s hl₀ hl hterm
  have hm := List.mem_cons_of_mem w hw₀
  exact ⟨(bounded_run h w₀ hm s).exists_represents, grew_run h w rfl w₀ hm s hl₀ hl hterm⟩

end runs

instance (tr : List (World n C D)) : Decidable (OneLeader tr) :=
  inferInstanceAs (Decidable (∀ w ∈ tr, ∀ w' ∈ tr, ∀ i j : Fin n, _ → _ → _ → i = j))

/-- Server `0` leads and gives command `7` to server `1`. -/
def sampleCopy : List (Event Nat Unit 3) :=
  [.ticker 0 true, .task 0, .task 1, .task 1, .start 0 7, .task 1, .task 2, .task 2]

theorem entry_identity_sampleCopy :
    ∃ w past, run step (fun _ _ => True) (init : World 3 Nat Unit) sampleCopy [] =
        some (w :: past) ∧ OneLeader (w :: past) ∧
      ((w.rafts 0).status = .leader ∧ 0 < (w.rafts 0).getLastLogEntryIndex ∧
        (w.rafts 0).logs.map (·.action) = (w.rafts 1).logs.map (·.action)) ∧
      (∀ w₁ ∈ w :: past, ∀ w₂ ∈ w :: past, ∀ i a b, Found w₁ i a → Found w₂ i b →
        a.term = b.term → 0 ≤ a.term → a.action = b.action) ∧
      ∀ w₀ ∈ past, ∀ s, (w₀.rafts s).status = .leader → (w.rafts s).status = .leader →
        (w₀.rafts s).currentTerm = (w.rafts s).currentTerm →
        (∃ L, (w₀.rafts s).Represents L) ∧
          ∃ new, ∀ L, (w₀.rafts s).Represents L → (w.rafts s).Represents (L ++ new) := by
  have hs : runEnds step (fun _ _ => True) (init : World 3 Nat Unit) sampleCopy
      (fun w past => decide (OneLeader (w :: past) ∧ (w.rafts 0).status = .leader ∧
        0 < (w.rafts 0).getLastLogEntryIndex ∧
        (w.rafts 0).logs.map (·.action) = (w.rafts 1).logs.map (·.action))) = true := by
    decide +kernel
  obtain ⟨w, past, h, ht, hl⟩ := exists_of_runEnds hs
  obtain ⟨hone, hl⟩ := of_decide_eq_true hl
  exact ⟨w, past, h, hone, hl, entry_identity w past ht hone⟩

end World

end ShardRaft.Raft
