import ShardRaft.Raft.LogSafety
import ShardRaft.Raft.System

/-!
# Log matching and leader completeness

What Raft promises of the logs themselves, in careful runs, whatever was compacted.

* `log_matching`: two logs that have an entry of one index and term agree on everything
  before it, wherever and whenever they are found.
* `leader_completeness`: what any peer knows to be committed is in the log of every leader
  from then on, and no two peers disagree about it.
* `start_contract`: if the entry that `Start` has announced is committed, it carries the
  command, and it stands behind everything that any service had been given before the call.

The entries of one state are compared through the full logs of `FullLog.lean`; two states are
compared through the history of the later one, which extends that of the earlier one
(`logs_onward`).
-/

namespace ShardRaft.Raft

open ShardRaft.Lib

variable {n : Nat} {C D : Type}

/-- What history `h` says about a peer with full log `F`, at any time. -/
structure Backed (h : Hist n C) (F : List (LogEntity C)) (rf : Peer n C D) : Prop where
  get : ∀ i : Int, (rf.snapshotEntriesAmount : Int) ≤ i → rf.getLogEntryAtIndex i = F[i.toNat]?
  seg : h.SegClean LogEntity.term baseTerm rf.snapshotEntriesAmount F
  upper : rf.commitIndex + 1 ≤ F.length
  com : h.Committed rf.currentTerm (F.take (rf.commitIndex + 1).toNat)

section backed

variable {h h' : Hist n C} {F : List (LogEntity C)} {rf : Peer n C D}

theorem PeerOk.backed {u : Fin n} (hp : PeerOk h u F rf) : Backed h F rf :=
  ⟨fun _ hi => hp.entryAt hi, hp.seg, hp.upper, hp.com⟩

theorem Backed.mono (hb : Backed h F rf) (he : h.Extends h' baseTerm) : Backed h' F rf :=
  ⟨hb.get, he.segClean le_rfl hb.seg, hb.upper, he.committed hb.com⟩

theorem amount_le_of_entry {i : Int} {e : LogEntity C} (h : rf.getLogEntryAtIndex i = some e) :
    (rf.snapshotEntriesAmount : Int) ≤ i := by
  rw [Peer.getLogEntryAtIndex_eq] at h
  split at h
  · assumption
  · exact absurd h (by simp)

/-- An entry stands as in the log of the leader that made it, and so does all before it. -/
theorem Backed.origin (hb : Backed h F rf) {i : Int} {e : LogEntity C}
    (he : rf.getLogEntryAtIndex i = some e) {j : Int}
    (hj : (rf.snapshotEntriesAmount : Int) ≤ j) (hji : j ≤ i) :
    rf.getLogEntryAtIndex j = (h.llog e.term)[j.toNat]? := by
  have hi := amount_le_of_entry he
  rw [hb.get i hi] at he
  rw [hb.get j hj]
  exact (hb.seg i.toNat e (by omega) he).2 j.toNat (by omega) (by omega)

theorem Backed.committed (hb : Backed h F rf) {i : Int} {e : LogEntity C}
    (he : rf.getLogEntryAtIndex i = some e) (hi : i ≤ rf.commitIndex) :
    ∃ T p, h.commits T p ∧ T ≤ rf.currentTerm ∧ p[i.toNat]? = some e := by
  have ha := amount_le_of_entry he
  rw [hb.get i ha] at he
  have hget : (F.take (rf.commitIndex + 1).toNat)[i.toNat]? = some e := by
    rw [List.getElem?_take_of_lt (by omega)]
    exact he
  rcases hb.com with hnil | ⟨T, p, hc, hT, hp⟩
  · rw [hnil] at hget
    exact absurd hget (by simp)
  · obtain ⟨hlt, heq⟩ := List.getElem?_eq_some_iff.mp hget
    exact ⟨T, p, hc, hT, by rw [(List.prefix_iff_getElem?.mp hp) _ hlt, heq]⟩

end backed

namespace World

variable [Inhabited C]

/-- **What follows a state of a careful run** is written into the same history. -/
theorem logs_onward (v : World n C D) (past : List (World n C D)) {b : Ballots n} {h : Hist n C}
    {F : Fin n → List (LogEntity C)} (hel : Elect b v) (hl : Logs b h F v) :
    ∀ rest, Run Careful (rest ++ v :: past) → ∃ b' h' F',
      (∀ w ∈ (rest ++ [v]).head?, Elect b' w ∧ Logs b' h' F' w) ∧ h.Extends h' baseTerm ∧
      ∀ w ∈ rest ++ [v], ∀ u, ∃ F'', Backed h' F'' (w.rafts u) := by
  intro rest
  induction rest with
  | nil =>
    intro _
    refine ⟨b, h, F, ?_, .refl, ?_⟩
    · intro w hw
      rw [← Option.some.inj hw]
      exact ⟨hel, hl⟩
    · intro w hw u
      rw [List.mem_singleton.mp hw]
      exact ⟨_, (hl.peers u).backed⟩
  | cons w' rest ih =>
    intro htr
    obtain ⟨w, tl, heq⟩ : ∃ w tl, rest ++ v :: past = w :: tl :=
      List.exists_cons_of_ne_nil (by simp)
    rw [List.cons_append, heq] at htr
    cases htr with
    | @step _ _ e _ ht hok hs =>
      obtain ⟨b₁, h₁, F₁, hhead, he₁, hback⟩ := ih (heq ▸ ht)
      have hw : w ∈ (rest ++ [v]).head? := by
        cases rest with
        | nil => rw [← (List.cons.inj heq).1]; rfl
        | cons x xs => rw [← (List.cons.inj heq).1]; rfl
      obtain ⟨hel₁, hl₁⟩ := hhead w hw
      have hh := healthy_run _ ht w (List.mem_cons_self ..)
      obtain ⟨b₂, h₂, F₂, hel₂, hl₂, he₂, -⟩ := logs_step hl₁ hel₁ hh hok hs
      refine ⟨b₂, h₂, F₂, ?_, he₁.trans he₂, ?_⟩
      · intro x hx
        rw [← Option.some.inj hx]
        exact ⟨hel₂, hl₂⟩
      · intro x hx u
        rcases List.mem_cons.mp hx with rfl | hx
        · exact ⟨_, (hl₂.peers u).backed⟩
        · obtain ⟨F'', hb⟩ := hback x hx u
          exact ⟨F'', hb.mono he₂⟩

theorem backed_run (tr : List (World n C D)) (htr : Run Careful tr) :
    ∃ b h F, (∀ w ∈ tr.head?, Elect b w ∧ Logs b h F w) ∧
      ∀ w ∈ tr, ∀ u, ∃ F', Backed h F' (w.rafts u) := by
  obtain ⟨rest, rfl⟩ := htr.exists_rest
  obtain ⟨b, h, F, hhead, -, hback⟩ := logs_onward _ [] elect_init logs_init rest htr
  exact ⟨b, h, F, hhead, hback⟩

/-! ### The three promises -/

/-- **Log matching.**  In a careful run, if two peers, at any two moments, have entries of one
term at one index, their logs agree up to there, as far as both still have them. -/
theorem log_matching (tr : List (World n C D)) (htr : Run Careful tr) :
    ∀ v ∈ tr, ∀ w ∈ tr, ∀ a b i e e',
      (v.rafts a).getLogEntryAtIndex i = some e → (w.rafts b).getLogEntryAtIndex i = some e' →
      e.term = e'.term → ∀ j ≤ i, ((v.rafts a).snapshotEntriesAmount : Int) ≤ j →
      ((w.rafts b).snapshotEntriesAmount : Int) ≤ j →
      (v.rafts a).getLogEntryAtIndex j = (w.rafts b).getLogEntryAtIndex j := by
  intro v hv w hw a b i e e' he he' hterm j hj ha hb
  obtain ⟨-, h, -, -, hback⟩ := backed_run tr htr
  obtain ⟨F, hF⟩ := hback v hv a
  obtain ⟨F', hF'⟩ := hback w hw b
  rw [hF.origin he ha hj, hF'.origin he' hb hj, hterm]

/-- Server `1` is elected after server `0` has committed command `7`. -/
def sampleNextLeader : List (Event Nat Unit 3) :=
  sampleApply ++
    [.applyNext 1, .task 3, .ticker 1 true, .task 3, .task 4, .task 4, .task 4]

/-- In the last state, `0` and `1` have entry `7`. -/
theorem sampleNextLeader_ends :
    ∃ w past, run step Careful (init : World 3 Nat Unit) sampleNextLeader [] = some (w :: past) ∧
      Run Careful (w :: past) ∧ (w.rafts 0).getLogEntryAtIndex 1 = some ⟨2, 7⟩ ∧
      (w.rafts 1).getLogEntryAtIndex 1 = some ⟨2, 7⟩ ∧ 1 ≤ (w.rafts 0).commitIndex ∧
      (w.rafts 1).status = .leader ∧ (w.rafts 0).currentTerm < (w.rafts 1).currentTerm ∧
      (w.rafts 0).snapshotEntriesAmount = 0 ∧ (w.rafts 1).snapshotEntriesAmount = 0 := by
  have hs : runEnds step Careful (init : World 3 Nat Unit) sampleNextLeader (fun w _ =>
      decide ((w.rafts 0).getLogEntryAtIndex 1 = some ⟨2, 7⟩ ∧
        (w.rafts 1).getLogEntryAtIndex 1 = some ⟨2, 7⟩ ∧ 1 ≤ (w.rafts 0).commitIndex ∧
        (w.rafts 1).status = .leader ∧ (w.rafts 0).currentTerm < (w.rafts 1).currentTerm ∧
        (w.rafts 0).snapshotEntriesAmount = 0 ∧
        (w.rafts 1).snapshotEntriesAmount = 0)) = true := by
    decide +kernel
  obtain ⟨w, past, h, ht, hl⟩ := exists_of_runEnds hs
  exact ⟨w, past, h, ht, of_decide_eq_true hl⟩

theorem log_matching_sampleNextLeader :
    ∃ w past, run step Careful (init : World 3 Nat Unit) sampleNextLeader [] = some (w :: past) ∧
      ∀ j ≤ 1, 0 ≤ j →
        (w.rafts 0).getLogEntryAtIndex j = (w.rafts 1).getLogEntryAtIndex j := by
  obtain ⟨w, past, h, ht, h0, h1, -, -, -, ha0, ha1⟩ := sampleNextLeader_ends
  refine ⟨w, past, h, ?_⟩
  intro j hj hpos
  have hw := List.mem_cons_self (a := w) (l := past)
  exact log_matching _ ht w hw w hw 0 1 1 _ _ h0 h1 rfl j hj (by rw [ha0]; exact hpos)
    (by rw [ha1]; exact hpos)

/-- **Leader completeness.**  In a careful run, an entry that some peer knew to be committed is
what every other peer has committed at that index, at any time; and it is in the log of every
leader, of that peer's term or a later one, from then on. -/
theorem leader_completeness (w : World n C D) (past : List (World n C D))
    (htr : Run Careful (w :: past)) :
    ∀ v ∈ w :: past, ∀ a i e, i ≤ (v.rafts a).commitIndex →
      (v.rafts a).getLogEntryAtIndex i = some e →
      (∀ v' ∈ w :: past, ∀ b e', i ≤ (v'.rafts b).commitIndex →
        (v'.rafts b).getLogEntryAtIndex i = some e' → e' = e) ∧
      ∀ l, (w.rafts l).status = .leader → (v.rafts a).currentTerm ≤ (w.rafts l).currentTerm →
        ((w.rafts l).snapshotEntriesAmount : Int) ≤ i →
        (w.rafts l).getLogEntryAtIndex i = some e := by
  intro v hv a i e hi he
  obtain ⟨b, h, F, hhead, hback⟩ := backed_run _ htr
  obtain ⟨hel, hl⟩ := hhead w rfl
  obtain ⟨Fv, hFv⟩ := hback v hv a
  obtain ⟨T, p, hc, hT, hp⟩ := hFv.committed he hi
  constructor
  · intro v' hv' b' e' hi' he'
    obtain ⟨Fv', hFv'⟩ := hback v' hv' b'
    obtain ⟨T', p', hc', -, hp'⟩ := hFv'.committed he' hi'
    obtain ⟨hlt, heq⟩ := List.getElem?_eq_some_iff.mp hp
    obtain ⟨hlt', heq'⟩ := List.getElem?_eq_some_iff.mp hp'
    rcases hl.sound.comparable hc hc' with hpp | hpp
    · have := (List.prefix_iff_getElem?.mp hpp) _ hlt
      rw [hp', heq] at this
      exact Option.some.inj this
    · have := (List.prefix_iff_getElem?.mp hpp) _ hlt'
      rw [hp, heq'] at this
      exact (Option.some.inj this).symm
  · intro l hlead hle hlo
    have hleads : h.leads (w.rafts l).currentTerm :=
      (hl.leads _).mpr ⟨l, (hel.leader l hlead).2⟩
    have hpre : p <+: F l := by
      rw [(hl.peers l).lead hlead]
      exact hl.sound.committed_prefix (.inr ⟨T, p, hc, hT, List.prefix_rfl⟩) hleads hle
    obtain ⟨hlt, heq⟩ := List.getElem?_eq_some_iff.mp hp
    rw [(hl.peers l).entryAt hlo, (List.prefix_iff_getElem?.mp hpre) _ hlt, heq]

theorem leader_completeness_sampleNextLeader :
    ∃ w past, run step Careful (init : World 3 Nat Unit) sampleNextLeader [] = some (w :: past) ∧
      (w.rafts 1).status = .leader ∧ (w.rafts 1).getLogEntryAtIndex 1 = some ⟨2, 7⟩ := by
  obtain ⟨w, past, h, ht, h0, -, hcom, hlead, hterm, -, ha1⟩ := sampleNextLeader_ends
  refine ⟨w, past, h, hlead, ?_⟩
  exact (leader_completeness w past ht w (List.mem_cons_self ..) 0 1 _ hcom h0).2 1 hlead hterm.le
    (by rw [ha1]; decide)

/-- What a leader's `Start` returns, and what it leaves behind. -/
theorem start_eq {v v' : World n C D} {l : Fin n} {c : C} (hs : v.step (.start l c) = some v')
    {idx T : Int} (hret : ((v.rafts l).start c).2 = (idx, T, true)) :
    (v.rafts l).status = .leader ∧ idx = (v.rafts l).getLastLogEntryIndex + 1 ∧
      T = (v.rafts l).currentTerm ∧ (v'.rafts l).getLogEntryAtIndex idx = some ⟨T, c⟩ ∧
      (v'.rafts l).snapshotEntriesAmount = (v.rafts l).snapshotEntriesAmount := by
  have hv' : v'.rafts l = ((v.rafts l).start c).1 := by
    rw [← Option.some.inj hs]
    exact Function.update_self ..
  unfold Peer.start at hret hv'
  dsimp only at hret hv'
  split at hret
  · simp at hret
  · rename_i hlead
    rw [if_neg hlead] at hv'
    obtain ⟨rfl, hpair⟩ := Prod.mk.inj hret
    obtain ⟨rfl, -⟩ := Prod.mk.inj hpair
    refine ⟨not_not.mp hlead, rfl, rfl, ?_, ?_⟩
    · rw [hv', Peer.getLogEntryAtIndex_eq]
      simp only [Peer.persist_snapshotEntriesAmount, Peer.appendToLogEntries_snapshotEntriesAmount,
        Peer.persist_logs, Peer.appendToLogEntries_logs, Peer.getLastLogEntryIndex]
      rw [if_pos (by omega), show (((v.rafts l).logs.length : Int) - 1 +
        (v.rafts l).snapshotEntriesAmount + 1 - (v.rafts l).snapshotEntriesAmount).toNat =
          (v.rafts l).logs.length by omega]
      exact getElem?_concat.mpr (.inr ⟨rfl, rfl⟩)
    · rw [hv']
      rfl

/-- **The contract of `Start`.**  In a careful run, let `Start` return an index and a term at a
leader.  If an entry of that term is ever committed at that index, then it carries the command
that `Start` was given, and every command that any service had been given before the call has a
smaller index. -/
theorem start_contract (v v' : World n C D) (rest past : List (World n C D))
    (htr : Run Careful (rest ++ v' :: v :: past)) (l : Fin n) (c : C)
    (hs : v.step (.start l c) = some v') (idx T : Int)
    (hret : ((v.rafts l).start c).2 = (idx, T, true)) :
    ∀ w ∈ rest ++ [v'], ∀ u e, idx ≤ (w.rafts u).commitIndex →
      (w.rafts u).getLogEntryAtIndex idx = some e → e.term = T →
      e.action = c ∧ ∀ x ∈ v.applied, x.2.commandValid = true → x.2.commandIndex < idx := by
  intro w hw u e hcom he hterm
  obtain ⟨hlead, hidx, hT, hnew, hamount⟩ := start_eq hs hret
  have hrun : Run Careful (rest ++ [v'] ++ v :: past) := by
    rw [List.append_assoc]
    exact htr
  obtain ⟨b, h, F, hel, hl, -⟩ := logs_run _ (hrun.of_append) v past rfl
  have hlen : (F l).length = idx.toNat := by
    rw [hidx, (hl.peers l).lastIndex]
    omega
  have hFl := (hl.peers l).lead hlead
  obtain ⟨b', h', F', hhead, hext, hback⟩ := logs_onward v past hel hl (rest ++ [v']) hrun
  have hmem : ∀ x ∈ rest ++ [v'], x ∈ rest ++ [v'] ++ [v] :=
    fun x hx => List.mem_append_left _ hx
  obtain ⟨Fw, hFw⟩ := hback w (hmem w hw) u
  obtain ⟨F₁, hF₁⟩ := hback v' (hmem v' (List.mem_append_right _ (List.mem_singleton_self _))) l
  have hlo := amount_le_of_entry hnew
  have hself := hF₁.origin hnew hlo le_rfl
  have hother := hFw.origin he (amount_le_of_entry he) le_rfl
  constructor
  · -- both stand where the leader of that term has put its entry
    rw [hnew] at hself
    rw [he, hterm] at hother
    have := hself.trans hother.symm
    rw [← Option.some.inj this]
  · intro x hx hxv
    obtain ⟨T₁, p, e₁, hc, h0, hp, -⟩ := hl.applied x hx hxv
    by_contra hge
    -- then the entry was committed before the leader had made it
    obtain ⟨T₂, p₂, hc₂, -, hp₂⟩ := hFw.committed he hcom
    obtain ⟨w₀, tl, heq⟩ : ∃ w₀ tl, rest ++ [v'] ++ [v] = w₀ :: tl :=
      List.exists_cons_of_ne_nil (by simp)
    obtain ⟨-, hl'⟩ := hhead w₀ (by rw [heq]; rfl)
    have hklt := (List.getElem?_eq_some_iff.mp hp).1
    have hlt : idx.toNat < p.length := by omega
    have hpe : p[idx.toNat]? = some e := by
      obtain ⟨hlt₂, heq₂⟩ := List.getElem?_eq_some_iff.mp hp₂
      rcases hl'.sound.comparable (hext.commits _ _ hc) hc₂ with hpp | hpp
      · rw [← hp₂, List.getElem?_eq_getElem hlt, (List.prefix_iff_getElem?.mp hpp) _ hlt]
      · rw [(List.prefix_iff_getElem?.mp hpp) _ hlt₂, heq₂]
    have hlead₁ := (hl.sound.commit T₁ p hc).1
    have hpre : p <+: h.llog T₁ :=
      hl.sound.commit_prefix hc le_rfl hlead₁ fun hT₁ => absurd hT₁ (lt_irrefl _)
    have hge' : (h.llog T₁)[idx.toNat]? = some e := by
      rw [List.getElem?_eq_getElem hlt] at hpe
      rw [(List.prefix_iff_getElem?.mp hpre) _ hlt, hpe]
    obtain ⟨-, hclean⟩ := hl.clean T₁ (.inr hlead₁) _ e hge'
    have hlen' := hclean.length_le
    have hlt₁ := (List.getElem?_eq_some_iff.mp hge').1
    rw [hterm, hT, ← hFl, hlen, List.length_take] at hlen'
    omega

theorem start_contract_sampleNextLeader :
    ∃ (v v' : World 3 Nat Unit) (rest past : List (World 3 Nat Unit)),
      Run Careful (rest ++ v' :: v :: past) ∧ v.step (.start 0 7) = some v' ∧
      ∃ w ∈ rest ++ [v'], ∃ e, 1 ≤ (w.rafts 1).commitIndex ∧
        (w.rafts 1).getLogEntryAtIndex 1 = some e ∧ e.action = 7 ∧
        ∀ x ∈ v.applied, x.2.commandValid = true → x.2.commandIndex < 1 := by
  have hs : ((run step Careful (init : World 3 Nat Unit) (sampleNextLeader.take 4) []).any
      fun tr => tr.head?.any fun v => (v.step (.start 0 7)).any fun v' =>
        decide (((v.rafts 0).start 7).2 = (1, 2, true)) &&
        (run step Careful v' (sampleNextLeader.drop 5) tr).any fun tr' => tr'.head?.any fun w =>
          decide (1 ≤ (w.rafts 1).commitIndex ∧
            (w.rafts 1).getLogEntryAtIndex 1 = some ⟨2, 7⟩)) = true := by
    decide +kernel
  obtain ⟨tr, h, hs⟩ := (Option.any_eq_true ..).mp hs
  obtain ⟨v, hv, hs⟩ := (Option.any_eq_true ..).mp hs
  obtain ⟨past, rfl⟩ := List.head?_eq_some_iff.mp hv
  obtain ⟨v', hv', hs⟩ := (Option.any_eq_true ..).mp hs
  obtain ⟨hret, hs⟩ := (Bool.and_eq_true ..).mp hs
  obtain ⟨tr', h', hs⟩ := (Option.any_eq_true ..).mp hs
  obtain ⟨w, hw, hl⟩ := (Option.any_eq_true ..).mp hs
  obtain ⟨hcom, he⟩ := of_decide_eq_true hl
  obtain ⟨rest, rfl⟩ := suffix_of_run _ _ _ _ h'
  have hstart : Run Careful (v' :: v :: past) :=
    .step (trace_of_run h) (careful_of_picked rfl) hv'
  have htr := trace_of_run_aux _ _ _ _ hstart h'
  have hmem : w ∈ rest ++ [v'] := by
    cases rest with
    | nil => exact List.mem_singleton.mpr (Option.some.inj hw).symm
    | cons x xs => rw [← Option.some.inj hw]; exact List.mem_cons_self ..
  obtain ⟨haction, hbefore⟩ := start_contract v v' rest past htr 0 7 hv' 1 2
    (of_decide_eq_true hret) w hmem 1 _ hcom he rfl
  exact ⟨v, v', rest, past, htr, hv', w, hmem, _, hcom, he, haction, hbefore⟩

end World

end ShardRaft.Raft
