import ShardRaft.Raft.Turns

/-!
# The terms of a log are ordered

`terms` is the sequence `lastSnapshotTerm, logs[0].Term, logs[1].Term, ...`.  `Start` puts the
current term at its end, `AppendEntries` cuts it behind an entry that matches and goes on
with what the leader has behind the same term, `Snapshot` drops a part of it at the front.
All these keep it sorted, as long as what is under way is sorted as well (`Request.Ordered`).

`InstallSnapshot` puts `LastIncludedTerm` in front of whatever the log holds beyond the
snapshot.  Nothing compares the two, so the order is kept exactly when they fit
(`BoundaryFits`), and `log_terms_ordered` says so for whole runs.
-/

namespace ShardRaft.Raft

open ShardRaft.Lib

variable {n : Nat} {C D : Type}

namespace Peer

/-- `lastSnapshotTerm, logs[0].Term, logs[1].Term, ...`. -/
def terms (rf : Peer n C D) : List Int := rf.lastSnapshotTerm :: rf.logs.map (·.term)

/-- The terms do not decrease, and none is above the current term. -/
structure TermsOrdered (rf : Peer n C D) : Prop where
  sorted : rf.terms.Pairwise (· ≤ ·)
  last : rf.lastTerm ≤ rf.currentTerm

section terms

variable {rf rf' : Peer n C D}

theorem getLast?_terms : rf.terms.getLast? = some rf.lastTerm := by
  unfold terms lastTerm
  cases hl : rf.logs.getLast? with
  | none =>
    rw [List.getLast?_eq_none_iff.mp hl]
    rfl
  | some a =>
    simp [List.getLast?_cons, hl]

theorem terms_get {i t : Int} (h : rf.getLogTermAtIndex i = some t) :
    rf.terms[(i + 1 - rf.snapshotEntriesAmount).toNat]? = some t := by
  rcases getLogTermAtIndex_eq_some h with ⟨hi, rfl⟩ | ⟨hi, a, ha, rfl⟩
  · rw [hi, Int.sub_self]
    rfl
  · rw [terms, show (i + 1 - rf.snapshotEntriesAmount : Int).toNat
      = (i - rf.snapshotEntriesAmount).toNat + 1 by omega, List.getElem?_cons_succ,
      List.getElem?_map, ha]
    rfl

theorem terms_drop {k : Nat} {t : Int} (h : rf.terms[k]? = some t) :
    rf.terms.drop k = t :: (rf.logs.drop k).map (·.term) := by
  obtain ⟨hk, rfl⟩ := List.getElem?_eq_some_iff.mp h
  rw [List.drop_eq_getElem_cons hk, List.map_drop]
  rfl

theorem TermsOrdered.le_last (h : rf.TermsOrdered) {t : Int} (ht : t ∈ rf.terms) :
    t ≤ rf.lastTerm := by
  obtain ⟨front, hfront⟩ := List.getLast?_eq_some_iff.mp rf.getLast?_terms
  have hs := h.sorted
  rw [hfront] at hs ht
  rcases List.mem_append.mp ht with ht | ht
  · exact (List.pairwise_append.mp hs).2.2 t ht _ (List.mem_singleton_self _)
  · rw [List.mem_singleton.mp ht]

theorem TermsOrdered.le_currentTerm (h : rf.TermsOrdered) {t : Int} (ht : t ∈ rf.terms) :
    t ≤ rf.currentTerm := (h.le_last ht).trans h.last

/-- **The last term is the largest.** -/
theorem TermsOrdered.largest (h : rf.TermsOrdered) :
    ∃ t, rf.getLastLogEntryTerm = some t ∧ t ∈ rf.terms ∧ ∀ s ∈ rf.terms, s ≤ t :=
  ⟨rf.lastTerm, rf.getLastLogEntryTerm_eq, List.mem_of_getLast? rf.getLast?_terms,
    fun _ hs => h.le_last hs⟩

theorem termsOrdered_of (hs : rf.terms.Pairwise (· ≤ ·)) (hle : ∀ t ∈ rf.terms, t ≤ rf.currentTerm) :
    rf.TermsOrdered :=
  ⟨hs, hle _ (List.mem_of_getLast? rf.getLast?_terms)⟩

theorem TermsOrdered.sublist (h : rf.TermsOrdered) (hs : rf'.terms.Sublist rf.terms)
    (ht : rf.currentTerm ≤ rf'.currentTerm) : rf'.TermsOrdered :=
  termsOrdered_of (h.sorted.sublist hs) fun _ hm => (h.le_currentTerm (hs.subset hm)).trans ht

theorem TermsOrdered.sameLog (h : rf.TermsOrdered) (hs : rf.SameLog rf')
    (ht : rf.currentTerm ≤ rf'.currentTerm) : rf'.TermsOrdered := by
  refine h.sublist ?_ ht
  rw [terms, terms, hs.logs, hs.term]

theorem terms_append (command : C) :
    ((rf.appendToLogEntries command).persist).terms = rf.terms ++ [rf.currentTerm] := by
  simp [terms]

theorem TermsOrdered.append (h : rf.TermsOrdered) (command : C) :
    ((rf.appendToLogEntries command).persist).TermsOrdered := by
  refine termsOrdered_of ?_ ?_
  · rw [terms_append, List.pairwise_append]
    refine ⟨h.sorted, List.pairwise_singleton _ _, fun t ht s hs => ?_⟩
    rw [List.mem_singleton.mp hs]
    exact h.le_currentTerm ht
  · intro t ht
    rw [terms_append] at ht
    rcases List.mem_append.mp ht with ht | ht
    · exact h.le_currentTerm ht
    · rw [List.mem_singleton.mp ht]
      exact le_refl _

theorem terms_overwrite (args : AppendEntriesArgs n C) :
    (rf.overwrite args).terms =
      rf.terms.take ((args.prevLogIndex + 1 - rf.snapshotEntriesAmount).toNat + 1) ++
        args.entries.map (·.term) := by
  change rf.lastSnapshotTerm :: List.map (·.term) (rf.logs.take _ ++ args.entries) = _
  rw [terms, List.take_succ_cons, List.map_append, List.map_take, List.cons_append]

end terms

end Peer

/-- A request under way carries ordered terms. -/
def Request.Ordered : Request n C D → Prop
  | .appendEntries args =>
    (args.prevLogTerm :: args.entries.map (·.term)).Pairwise (· ≤ ·) ∧
      ∀ t ∈ args.entries.map (·.term), t ≤ args.term
  | .installSnapshot args => args.lastIncludedTerm ≤ args.term
  | .requestVote _ => True

namespace Peer

variable {rf rf' : Peer n C D}

/-- What a peer builds of an ordered log is ordered. -/
theorem TermsOrdered.sentBy (h : rf.TermsOrdered) {args : AppendEntriesArgs n C}
    (hs : rf.SentBy args) : (Request.appendEntries args : Request n C D).Ordered := by
  have hdrop := terms_drop (terms_get hs.prevLogTerm)
  rw [← hs.entries] at hdrop
  refine ⟨hdrop ▸ h.sorted.sublist (List.drop_sublist ..), fun t ht => ?_⟩
  rw [hs.term]
  have ht := List.mem_cons_of_mem args.prevLogTerm ht
  rw [← hdrop] at ht
  exact h.le_currentTerm (List.mem_of_mem_drop ht)

theorem TermsOrdered.createInstallSnapshotArgs (h : rf.TermsOrdered) :
    (Request.installSnapshot rf.createInstallSnapshotArgs : Request n C D).Ordered :=
  h.le_currentTerm (List.mem_cons_self ..)

theorem TermsOrdered.overwrite (h : rf.TermsOrdered) {args : AppendEntriesArgs n C}
    (hle : rf.currentTerm ≤ args.term)
    (hmatch : rf.getLogTermAtIndex args.prevLogIndex = some args.prevLogTerm)
    (hargs : (Request.appendEntries args : Request n C D).Ordered) :
    (rf.overwrite args).TermsOrdered := by
  have hterm : (rf.overwrite args).currentTerm = args.term := rfl
  refine termsOrdered_of ?_ fun t ht => ?_
  · rw [terms_overwrite]
    exact pairwise_splice h.sorted (terms_get hmatch) hargs.1
  · rw [terms_overwrite] at ht
    rw [hterm]
    rcases List.mem_append.mp ht with ht | ht
    · exact (h.le_currentTerm (List.mem_of_mem_take ht)).trans hle
    · exact hargs.2 t ht

/-- **A snapshot keeps the order exactly when it fits** in front of what is left of the log. -/
theorem TermsOrdered.installs_iff (h : rf.TermsOrdered) {k : Nat} {t : Int}
    (hlogs : rf'.logs = rf.logs.drop k) (hterm : rf'.lastSnapshotTerm = t)
    (hle : rf.currentTerm ≤ rf'.currentTerm) (ht : t ≤ rf'.currentTerm) :
    rf'.TermsOrdered ↔ ∀ a ∈ rf.logs[k]?, t ≤ a.term := by
  have hterms : rf'.terms = t :: (rf.logs.drop k).map (·.term) := by rw [terms, hlogs, hterm]
  have hrest : ((rf.logs.drop k).map (·.term)).Pairwise (· ≤ ·) :=
    (List.pairwise_cons.mp h.sorted).2.sublist ((List.drop_sublist ..).map _)
  constructor
  · intro h' a ha
    have hs := h'.sorted
    rw [hterms, List.pairwise_cons] at hs
    refine hs.1 _ (List.mem_map_of_mem ?_)
    exact List.mem_of_getElem? (i := 0) (by rw [List.getElem?_drop]; exact ha)
  · intro hfit
    refine termsOrdered_of ?_ fun s hs => ?_
    · rw [hterms, List.pairwise_cons]
      refine ⟨fun s hs => ?_, hrest⟩
      cases hd : rf.logs.drop k with
      | nil =>
        rw [hd] at hs
        exact absurd hs (by simp)
      | cons a rest =>
        have ha : rf.logs[k]? = some a := by
          rw [← Nat.add_zero k, ← List.getElem?_drop, hd]
          rfl
        have hta := hfit a ha
        rw [hd, List.map_cons] at hs hrest
        rcases List.mem_cons.mp hs with rfl | hs
        · exact hta
        · exact hta.trans ((List.pairwise_cons.mp hrest).1 s hs)
    · rw [hterms] at hs
      rcases List.mem_cons.mp hs with rfl | hs
      · exact ht
      · have hm : s ∈ rf.logs.map (·.term) := ((List.drop_sublist ..).map _).subset hs
        exact (h.le_currentTerm (List.mem_cons_of_mem _ hm)).trans hle

end Peer

namespace World

/-- The receiver and the arguments of an `InstallSnapshot` request. -/
def landing : Task n C D → Option (Fin n × InstallSnapshotArgs n D)
  | .request _ dst (.installSnapshot args) _ => some (dst, args)
  | _ => none

theorem eq_request_of_landing {task : Task n C D} {x : Fin n × InstallSnapshotArgs n D}
    (h : landing task = some x) :
    ∃ src waiting, task = .request src x.1 (.installSnapshot x.2) waiting := by
  unfold landing at h
  split at h
  · cases h
    exact ⟨_, _, rfl⟩
  · exact absurd h (by simp)

/-- A snapshot that is installed does not land in front of an entry of an older term. -/
def BoundaryFits (w : World n C D) (e : Event C D n) : Prop :=
  ∀ x ∈ (w.picked e).bind landing, (w.rafts x.1).currentTerm ≤ x.2.term →
    ((w.rafts x.1).snapshotEntriesAmount : Int) ≤ x.2.lastIncludedIndex →
    ∀ a ∈ (w.rafts x.1).logs[(x.2.lastIncludedIndex + 1
      - (w.rafts x.1).snapshotEntriesAmount).toNat]?, x.2.lastIncludedTerm ≤ a.term

instance (w : World n C D) (e : Event C D n) : Decidable (w.BoundaryFits e) :=
  inferInstanceAs (Decidable (∀ x ∈ (w.picked e).bind landing, _ → _ → ∀ a ∈ _, _))

section steps

variable [Inhabited C] {w w' : World n C D} {e : Event C D n}

/-- What the proof keeps of the messages. -/
structure OrderedRequests (w : World n C D) : Prop where
  healthy : ∀ i, Healthy i (w.rafts i)
  pending : ∀ src dst req, w.Pending src dst req → req.Ordered

theorem orderedRequests_init : OrderedRequests (init : World n C D) where
  healthy := healthy_init
  pending _ _ _ h := absurd h.choose_spec List.not_mem_nil

theorem orderedRequests_step (h : w.OrderedRequests) (hpeers : ∀ i, (w.rafts i).TermsOrdered)
    (hs : w.step e = some w') : w'.OrderedRequests where
  healthy := healthy_step h.healthy hs
  pending src dst req hp := by
    rcases pending_of_move h.healthy (move_of_step hs) hp with hp | hb
    · exact h.pending src dst req hp
    · cases hb with
      | requestVote _ _ => trivial
      | appendEntries args _ _ hsent => exact (hpeers src).sentBy hsent
      | installSnapshot _ => exact (hpeers src).createInstallSnapshotArgs

theorem termsOrdered_turn (h : w.OrderedRequests) (hpeers : ∀ i, (w.rafts i).TermsOrdered)
    (hs : w.step e = some w') (i : Fin n) :
    (w'.rafts i).TermsOrdered ∨
    ∃ src waiting args, w.picked e = some (.request src i (.installSnapshot args) waiting) ∧
      (w.rafts i).currentTerm ≤ args.term ∧
      ((w.rafts i).snapshotEntriesAmount : Int) ≤ args.lastIncludedIndex ∧
      (w'.rafts i).currentTerm = args.term ∧
      (w'.rafts i).logs = (w.rafts i).logs.drop
        (args.lastIncludedIndex + 1 - (w.rafts i).snapshotEntriesAmount).toNat ∧
      (w'.rafts i).lastSnapshotTerm = args.lastIncludedTerm := by
  have hi := hpeers i
  cases turn_of_move h.healthy (move_of_step hs) i with
  | rests ha => exact .inl (hi.sameLog ha.toSameLog ha.currentTerm.ge)
  | follows hlt _ hl => exact .inl (hi.sameLog hl hlt.le)
  | heeds _ hle _ hl => exact .inl (hi.sameLog hl hle)
  | overwrites src waiting args hp hle _ _ _ _ =>
    have hreq := h.pending src i _ ⟨waiting, mem_of_picked hp⟩
    obtain ⟨k, rfl, ht⟩ := eq_task_of_picked hp
    obtain ⟨rf', reply, ok, hr, rfl⟩ := step_appendEntries ht hs
    rw [update_rafts_self]
    cases Peer.appendEntriesWithLock_outcome hr with
    | stale _ => exact .inl hi
    | refused hle _ => exact .inl (hi.sameLog ⟨rfl, rfl, rfl⟩ hle)
    | accepted hle _ _ _ hmatch => exact .inl (hi.overwrite hle hmatch hreq)
  | installs src waiting args hp hle hlo hterm _ hlogs _ hlast =>
    exact .inr ⟨src, waiting, args, hp, hle, hlo, hterm, hlogs, hlast⟩
  | grants _ _ _ _ hle _ hterm _ _ hl => exact .inl (hi.sameLog hl (hterm ▸ hle))
  | campaigns _ hrf =>
    rw [hrf]
    exact .inl (hi.sameLog ⟨rfl, rfl, rfl⟩ (Int.le.intro 1 rfl))
  | wins _ hrf =>
    rw [hrf]
    exact .inl (hi.sameLog ⟨rfl, rfl, rfl⟩ (Int.le.intro 1 rfl))
  | appends command _ _ hrf =>
    rw [hrf]
    exact .inl (hi.append command)
  | compacts index a hlo ha hterm _ _ hlogs _ hlast =>
    -- what is left is a tail of the sequence
    have hget : (w.rafts i).terms[(index + 1 - (w.rafts i).snapshotEntriesAmount).toNat]?
        = some a.term := by
      rw [Peer.terms, show (index + 1 - (w.rafts i).snapshotEntriesAmount : Int).toNat
        = (index - (w.rafts i).snapshotEntriesAmount).toNat + 1 by omega, List.getElem?_cons_succ,
        List.getElem?_map, ha]
      rfl
    refine .inl (hi.sublist ?_ hterm.ge)
    rw [Peer.terms, hlogs, hlast, ← Peer.terms_drop hget]
    exact List.drop_sublist ..
  | restarts hterm _ _ hl => exact .inl (hi.sameLog hl hterm.ge)

/-- **A step keeps the terms ordered exactly when its snapshot, if any, fits.** -/
theorem boundaryFits_iff (h : w.OrderedRequests) (hpeers : ∀ i, (w.rafts i).TermsOrdered)
    (hs : w.step e = some w') : w.BoundaryFits e ↔ ∀ i, (w'.rafts i).TermsOrdered := by
  constructor
  · intro hfits i
    rcases termsOrdered_turn h hpeers hs i with hi | ⟨src, waiting, args, hp, hle, hlo, hterm, hlogs, hlast⟩
    · exact hi
    · have hargs : args.lastIncludedTerm ≤ args.term :=
        h.pending src i _ ⟨waiting, mem_of_picked hp⟩
      refine ((hpeers i).installs_iff hlogs hlast (hterm ▸ hle) (hterm ▸ hargs)).mpr ?_
      exact hfits (i, args) (by simp [hp, landing]) hle hlo
  · intro hafter x hx hle hlo
    obtain ⟨task, hp, hx⟩ := Option.bind_eq_some_iff.mp hx
    obtain ⟨src, waiting, rfl⟩ := eq_request_of_landing hx
    have hargs : x.2.lastIncludedTerm ≤ x.2.term :=
      h.pending src x.1 _ ⟨waiting, mem_of_picked hp⟩
    obtain ⟨k, rfl, ht⟩ := eq_task_of_picked hp
    obtain ⟨rf', reply, b, hr, rfl⟩ := step_installSnapshot ht hs
    have hrf := hafter x.1
    rw [update_rafts_self, Peer.installSnapshotLocked_eq hle hlo hr] at hrf
    exact ((hpeers x.1).installs_iff rfl rfl hle hargs).mp hrf

end steps

theorem termsOrdered_init [Inhabited C] (i : Fin n) :
    ((init : World n C D).rafts i).TermsOrdered := by
  have hterms : ((init : World n C D).rafts i).terms = [-1, -1] := rfl
  refine Peer.termsOrdered_of ?_ ?_
  · rw [hterms]
    decide
  · rw [hterms]
    intro t ht
    have ht : t = -1 := by simpa using ht
    rw [ht]
    change (-1 : Int) ≤ 0
    decide

/-- **The terms of every log are ordered in every state of a run exactly when every snapshot
that is installed fits.**  Then the term that `candidateIsUpToDate` compares is the largest
one of the log. -/
theorem log_terms_ordered [Inhabited C] (tr : List (World n C D)) (h : Run (fun _ _ => True) tr) :
    Run BoundaryFits tr ↔ ∀ w ∈ tr, ∀ i, (w.rafts i).TermsOrdered ∧
      ∃ t, (w.rafts i).getLastLogEntryTerm = some t ∧ t ∈ (w.rafts i).terms ∧
        ∀ s ∈ (w.rafts i).terms, s ≤ t := by
  have hiff : Run BoundaryFits tr ↔ ∀ w ∈ tr, ∀ i, (w.rafts i).TermsOrdered :=
    Trace.ok_iff (J := OrderedRequests) (G := fun w => ∀ i, (w.rafts i).TermsOrdered)
      orderedRequests_init termsOrdered_init
      (fun w w' e hj hpeers hs => orderedRequests_step hj hpeers hs)
      (fun w w' e hj hpeers hs => boundaryFits_iff hj hpeers hs) h
  rw [hiff]
  constructor
  · intro hall w hw i
    exact ⟨hall w hw i, (hall w hw i).largest⟩
  · intro hall w hw i
    exact (hall w hw i).1

/-- Server `0` commits an entry with server `1`, compacts it, and sends the snapshot to
server `2`, which has only the filler. -/
def fittingSnapshot : List (Event Nat Unit 3) :=
  [.ticker 0 true, .task 0, .task 1, .task 1, .start 0 7, .task 1, .task 2, .task 2, .applyNext 1,
    .task 2, .task 2, .applyNext 0, .applyNext 0, .applyNext 0, .snapshot 0 1 (), .task 1, .task 1,
    .task 1]

theorem fittingSnapshot_ends : runEnds World.step BoundaryFits (init : World 3 Nat Unit)
    fittingSnapshot (fun w _ => decide ((w.rafts 1).terms = [-1, -1, 2] ∧
      (w.rafts 2).terms = [2])) = true := by
  decide +kernel

theorem log_terms_ordered_fittingSnapshot :
    ∃ w : World 3 Nat Unit, ((w.rafts 1).terms = [-1, -1, 2] ∧ (w.rafts 2).terms = [2]) ∧
      ∀ i, (w.rafts i).TermsOrdered := by
  obtain ⟨w, past, -, ht, hw⟩ := exists_of_runEnds fittingSnapshot_ends
  have hall := (log_terms_ordered _ (ht.mono fun _ _ _ => trivial)).mp ht
  exact ⟨w, of_decide_eq_true hw, fun i => (hall w (List.mem_cons_self ..) i).1⟩

/-- Server `0` has two entries of term `2` that nobody else has.  Server `1` is elected without
it, commits an entry of term `3` with server `2` and compacts it; the snapshot reaches server
`0`, which keeps the second of its own entries behind it. -/
def divergedSnapshot : List (Event Nat Unit 3) :=
  [.ticker 0 true, .task 0, .task 1, .task 1, .start 0 7, .start 0 8, .ticker 1 true, .task 4,
    .task 4, .task 4, .start 1 5, .task 5, .task 5, .task 5, .applyNext 2, .task 5, .task 5,
    .applyNext 1, .applyNext 1, .applyNext 1, .snapshot 1 1 (), .task 4, .task 4, .task 4]

/-- A snapshot in front of entries of an older term. -/
theorem terms_out_of_order : ¬ ∀ (tr : List (World 3 Nat Unit)), Run (fun _ _ => True) tr →
    ∀ w ∈ tr, ∀ i, (w.rafts i).TermsOrdered := by
  intro hall
  have hs : runEnds World.step (fun _ _ => True) (init : World 3 Nat Unit) divergedSnapshot
      (fun w _ => decide ((w.rafts 0).terms = [3, 2])) = true := by
    decide +kernel
  obtain ⟨w, past, -, ht, hw⟩ := exists_of_runEnds hs
  have hsorted := (hall _ ht w (List.mem_cons_self ..) 0).sorted
  rw [of_decide_eq_true hw] at hsorted
  exact absurd hsorted (by decide)

end World

end ShardRaft.Raft
