import ShardRaft.Raft.Votes

/-!
# Votes are counted once per voter

`numVoteGathered` is compared with the record of the votes that were granted: while a server
is candidate of a term, it has counted no more than one vote of every server that has granted
it one in this term, and its own.  So a leader has been granted the votes of a majority.

The counting is that of `Tally`; here its ballots are tied to the record.  All that is asked
of a run is `AskedInTime`, and `vote_counted_twice` is a run without it.
-/

namespace ShardRaft.Raft

open ShardRaft.Lib

variable {n : Nat} {C D : Type}

instance (record : List (Grant n)) (v c : Fin n) (t : Int) :
    Decidable (World.OnRecord record v c t) :=
  inferInstanceAs (Decidable (∃ g ∈ record, _ ∧ _ ∧ _))

/-- The other servers that have granted `c` a vote of term `t`. -/
def voters (record : List (Grant n)) (c : Fin n) (t : Int) : Finset (Fin n) :=
  Finset.univ.filter fun v => v ≠ c ∧ World.OnRecord record v c t

theorem mem_voters {record : List (Grant n)} {c v : Fin n} {t : Int} :
    v ∈ voters record c t ↔ v ≠ c ∧ World.OnRecord record v c t := by
  simp [voters]

namespace World

theorem OnRecord.mono {record new : List (Grant n)} {v c : Fin n} {t : Int}
    (h : OnRecord record v c t) : OnRecord (new ++ record) v c t := by
  obtain ⟨g, hg, heq⟩ := h
  exact ⟨g, List.mem_append_right _ hg, heq⟩

/-- The ballots are those on record. -/
structure Counts (b : Ballots n) (w : World n C D) (record : List (Grant n)) : Prop where
  tally : Tally b w
  recorded : ∀ v c t, b.votes v c t → OnRecord record v c t

section steps

variable {b : Ballots n} {w w' : World n C D} {e : Event C D n} {record : List (Grant n)}

theorem Counts.counted (h : Counts b w record) {c : Fin n}
    (hc : (w.rafts c).status = .candidate) :
    (w.rafts c).numVoteGathered ≤ 1 + (voters record c (w.rafts c).currentTerm).card := by
  obtain ⟨hnum, hself, hvotes⟩ := h.tally.counted c hc
  have hsub : b.counted c ⊆ voters record c (w.rafts c).currentTerm := by
    intro v hv
    refine mem_voters.mpr ⟨?_, h.recorded v c _ (hvotes v hv)⟩
    rintro rfl
    exact hself hv
  have := Finset.card_le_card hsub
  omega

theorem onRecord_granted {k : Nat} {src dst : Fin n} {waiting : Bool} {args : RequestVoteArgs n}
    {rf' : Peer n C D} {reply : RequestVoteReply}
    (ht : w.tasks[k]? = some (.request src dst (.requestVote args) waiting))
    (hr : (w.rafts dst).requestVote args = some (rf', reply)) (hv : reply.voteGranted = true) :
    OnRecord (w.granted (.task k) ++ record) dst args.candidateId reply.term := by
  refine ⟨⟨dst, args.candidateId, reply.term, (w.rafts dst).status, (w.rafts dst).currentTerm⟩,
    List.mem_append_left _ ?_, rfl, rfl, rfl⟩
  simp [granted, picked, ht, asked, grantOf, hr, hv]

variable [Inhabited C]

/-- The handler of `RequestVote` either refuses, or its vote goes on record. -/
theorem counts_vote (h : Counts b w record) {k : Nat} {src dst : Fin n} {waiting : Bool}
    {args : RequestVoteArgs n}
    (ht : w.tasks[k]? = some (.request src dst (.requestVote args) waiting))
    (hs : w.step (.task k) = some w') :
    ∃ b' : Ballots n, Counts b' w' (w.granted (.task k) ++ record) := by
  obtain ⟨rf', reply, hr, hw⟩ := step_requestVote ht hs
  have hold : ∀ v c t, b.votes v c t → OnRecord (w.granted (.task k) ++ record) v c t :=
    fun v c t hv => (h.recorded v c t hv).mono
  have ho := Peer.requestVote_outcome hr
  by_cases hv : reply.voteGranted = true
  · obtain ⟨-, hcand, -⟩ := h.tally.taskOk ht
    have hnew : OnRecord (w.granted (.task k) ++ record) dst args.candidateId reply.term :=
      onRecord_granted ht hr hv
    cases ho with
    | stale _ => exact absurd hv (by simp)
    | refused _ => exact absurd hv (by simp)
    | granted hle _ _ hrf =>
      refine ⟨b.vote dst src args.term, tally_grant h.tally ht hle ?_ ?_ hw, ?_⟩
      · rcases hrf with rfl | rfl <;> rfl
      · rcases hrf with rfl | rfl <;> rfl
      · rintro v c t (hv | ⟨rfl, rfl, rfl⟩)
        · exact hold v c t hv
        · exact hcand ▸ hnew
  · have hv : reply.voteGranted = false := by simpa using hv
    rw [hw]
    exact ⟨b, (still_refuse h.tally ht ho hv).tally h.tally, hold⟩

/-- **One step.** -/
theorem counts_step (hh : ∀ i, Healthy i (w.rafts i)) (h : Counts b w record)
    (hok : w.AskedInTime e) (hs : w.step e = some w') :
    ∃ b' : Ballots n, Counts b' w' (w.granted e ++ record) := by
  have hold : ∀ v c t, b.votes v c t → OnRecord (w.granted e ++ record) v c t :=
    fun v c t hv => (h.recorded v c t hv).mono
  rcases campaign_or_still h.tally hh (move_of_step hs) with hc | hc
  · cases hc with
    | election i _ => exact ⟨b.open_ i, tally_election h.tally i (hh i).me, hold⟩
    | askVote k i server election ht =>
      have hask := hok (i, election) (by simp [picked, ht, asking])
      exact ⟨b, tally_askVote h.tally (hh i).me ht hask, hold⟩
    | grant k src dst waiting args rf' ht _ _ _ _ => exact counts_vote h ht hs
    | count k src dst args reply ht hcand hg hrt =>
      exact ⟨b.count src dst, tally_count h.tally ht hcand hg hrt rfl, hold⟩
    | win k src dst args reply ht _ _ => exact ⟨b, tally_win h.tally ht rfl, hold⟩
  · exact ⟨b, hc.tally h.tally, hold⟩

omit [Inhabited C] in
theorem eq_of_elected {c i : Fin n} {rf' : Peer n C D} (hc : (w.rafts c).status = .candidate)
    (hl : (Function.update w.rafts i rf' c).status = .leader) :
    c = i ∧ rf'.status = .leader := by
  by_cases hi : c = i
  · rw [hi, Function.update_self] at hl
    exact ⟨hi, hl⟩
  · rw [Function.update_of_ne hi, hc] at hl
    exact absurd hl (by simp)

/-- **A candidate that becomes leader has been granted the votes of a majority.** -/
theorem Counts.majority (h : Counts b w record) (hh : ∀ i, Healthy i (w.rafts i))
    (hs : w.step e = some w') {c : Fin n} (hc : (w.rafts c).status = .candidate)
    (hl : (w'.rafts c).status = .leader) :
    n / 2 < (insert c (voters record c (w.rafts c).currentTerm)).card := by
  -- only the step `win` makes a leader of a candidate
  rcases campaign_or_still h.tally hh (move_of_step hs) with hcamp | hstill
  · cases hcamp with
    | win k src dst args reply ht hcand hmaj =>
      obtain ⟨rfl, -⟩ := eq_of_elected hc hl
      obtain ⟨q, hself, hcard, hvotes⟩ := h.tally.majority ht hcand hmaj
      have hsub : q ⊆ voters record c (w.rafts c).currentTerm := by
        intro v hv
        refine mem_voters.mpr ⟨?_, h.recorded v c _ (hvotes v hv)⟩
        rintro rfl
        exact hself hv
      have hnot : c ∉ voters record c (w.rafts c).currentTerm := fun hm => (mem_voters.mp hm).1 rfl
      rw [Finset.card_insert_of_notMem hnot]
      have := Finset.card_le_card hsub
      omega
    | election i _ => exact absurd (eq_of_elected hc hl).2 (by simp)
    | askVote k i server election _ =>
      obtain ⟨rfl, hlead⟩ := eq_of_elected hc hl
      exact absurd (hc.symm.trans hlead) (by simp)
    | grant k src dst waiting args rf' _ _ _ _ hrf =>
      have hlead := (eq_of_elected hc hl).2
      rcases hrf with rfl | rfl <;> exact absurd hlead (by simp)
    | count k src dst args reply _ hcand _ _ =>
      exact absurd (hcand.symm.trans (eq_of_elected hc hl).2) (by simp)
  · cases hstill.peers c with
    | same hst _ _ _ => exact absurd (hc.symm.trans (hst.symm.trans hl)) (by simp)
    | higher _ hf => exact absurd (hf.symm.trans hl) (by simp)
    | heeds _ _ hf => exact absurd (hf.symm.trans hl) (by simp)
    | restarts _ _ hf => exact absurd (hf.symm.trans hl) (by simp)

end steps

/-! ### Runs -/

variable [Inhabited C]

theorem counts_run : ∀ tr, VoteRun (AskedInTime (n := n) (C := C) (D := D)) tr → ∀ l ∈ tr,
    (∀ i, Healthy i (l.state.rafts i)) ∧ ∃ b : Ballots n, Counts b l.state l.record :=
  Ledger.invariant
    (I := fun (w : World n C D) record => (∀ i, Healthy i (w.rafts i)) ∧
      ∃ b : Ballots n, Counts b w record)
    ⟨healthy_init, .empty, tally_init, fun _ _ _ hv => hv.elim⟩
    fun _ _ _ _ h hok hs =>
      ⟨healthy_step h.1 hs, h.2.elim fun _ hb => counts_step h.1 hb hok hs⟩

/-- **Votes are counted once per voter**, in a run in which every candidate asks in the
election it was spawned for; and a candidate becomes leader only with the votes of a
majority of servers, itself included. -/
theorem votes_counted_once (tr : List (Ledger (World n C D) (Grant n))) (h : VoteRun AskedInTime tr) :
    ∀ l ∈ tr, ∀ c, (l.state.rafts c).status = .candidate →
      (l.state.rafts c).numVoteGathered ≤
        1 + (voters l.record c (l.state.rafts c).currentTerm).card ∧
      ∀ e w', l.state.step e = some w' → (w'.rafts c).status = .leader →
        n / 2 < (insert c (voters l.record c (l.state.rafts c).currentTerm)).card := by
  intro l hl c hc
  obtain ⟨hh, b, hb⟩ := counts_run tr h l hl
  exact ⟨hb.counted hc, fun e w' hs hlead => hb.majority hh hs hc hlead⟩

omit [Inhabited C]

/-- Server `0` has counted the vote of server `1`, and that of server `2` is under way. -/
theorem votes_counted_once_sampleVotes :
    ∃ l : Ledger (World 4 Nat Unit) (Grant 4), (l.state.rafts 0).status = .candidate ∧
      (l.state.rafts 0).numVoteGathered = 2 ∧
      2 ≤ 1 + (voters l.record 0 (l.state.rafts 0).currentTerm).card := by
  have hs : runEnds (Ledger.step step granted) (fun l e => AskedInTime l.state e)
      (Ledger.start (init : World 4 Nat Unit)) (sampleVotes.take 6)
      (fun l _ => decide ((l.state.rafts 0).status = .candidate ∧
        (l.state.rafts 0).numVoteGathered = 2)) = true := by
    decide +kernel
  obtain ⟨l, past, -, ht, hl⟩ := exists_of_runEnds hs
  obtain ⟨hc, hnum⟩ := of_decide_eq_true hl
  have hle := (votes_counted_once _ ht l (List.mem_cons_self ..) 0 hc).1
  exact ⟨l, hc, hnum, hnum ▸ hle⟩

/-- Server `0` of six starts two elections before the goroutine that asks server `1` for its
vote in the first one takes the lock.  Both goroutines ask for a vote of term `2`. -/
def askedTwice : List (Event Nat Unit 6) :=
  [.ticker ⟨0, by decide⟩ true, .ticker ⟨0, by decide⟩ true, .task 0, .task 4, .task 8, .task 8,
    .task 8, .task 8]

/-- **One voter, two votes**: in the counting of a candidate, and in the majority of a leader
(server `0` of `doubleVotes` is elected by server `1` alone). -/
theorem vote_counted_twice :
    (¬ ∀ tr : List (Ledger (World 6 Nat Unit) (Grant 6)), VoteRun (fun _ _ => True) tr →
      ∀ l ∈ tr, ∀ c, (l.state.rafts c).status = .candidate → (l.state.rafts c).numVoteGathered ≤
        1 + (voters l.record c (l.state.rafts c).currentTerm).card) ∧
    ¬ ∀ tr : List (Ledger (World 4 Nat Unit) (Grant 4)), VoteRun (fun _ _ => True) tr →
      ∀ l ∈ tr, ∀ c, (l.state.rafts c).status = .candidate → ∀ e w', l.state.step e = some w' →
        (w'.rafts c).status = .leader →
        4 / 2 < (insert c (voters l.record c (l.state.rafts c).currentTerm)).card := by
  constructor
  · intro hall
    have hs : runEnds (Ledger.step step granted) (fun _ _ => True)
        (Ledger.start (init : World 6 Nat Unit)) askedTwice
        (fun l _ => decide ((l.state.rafts ⟨0, by decide⟩).status = .candidate ∧
          1 + (voters l.record ⟨0, by decide⟩ (l.state.rafts ⟨0, by decide⟩).currentTerm).card <
            (l.state.rafts ⟨0, by decide⟩).numVoteGathered)) = true := by
      decide +kernel
    obtain ⟨l, past, -, ht, hl⟩ := exists_of_runEnds hs
    obtain ⟨hc, hlt⟩ := of_decide_eq_true hl
    exact absurd (hall _ ht l (List.mem_cons_self ..) _ hc) (not_le.mpr hlt)
  · intro hall
    have hs : runEnds (Ledger.step step granted) (fun _ _ => True)
        (Ledger.start (init : World 4 Nat Unit)) (doubleVotes.take 7)
        (fun l _ => decide ((l.state.rafts 0).status = .candidate ∧
            (insert 0 (voters l.record 0 (l.state.rafts 0).currentTerm)).card ≤ 2) &&
          (l.state.step (.task 4)).any fun w' => decide ((w'.rafts 0).status = .leader)) = true := by
      decide +kernel
    obtain ⟨l, past, -, ht, hl⟩ := exists_of_runEnds hs
    obtain ⟨hl, hnext⟩ := (Bool.and_eq_true _ _).mp hl
    obtain ⟨hc, hle⟩ := of_decide_eq_true hl
    obtain ⟨w', hstep, hlead⟩ := (Option.any_eq_true ..).mp hnext
    exact absurd (hall _ ht l (List.mem_cons_self ..) 0 hc _ w' hstep (of_decide_eq_true hlead))
      (not_lt.mpr hle)

end World

end ShardRaft.Raft
