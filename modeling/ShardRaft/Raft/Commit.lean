import Mathlib.Order.Bounds.Basic
import ShardRaft.Raft.FullLog

/-!
# The commit rule

`leaderUpdateCommit` walks over the offsets of `logs`, turns each into an index,
and keeps the last index that passes both tests.  Below the candidate it already
has it does not even look, so what it ends with has to be compared with all the
indices it skipped.

`commitScan_greatest` is that comparison for any increasing list of offsets; the
rule itself is the case of all of them.
-/

namespace ShardRaft.Raft

namespace Peer

variable {n : Nat} {C D : Type}

/-- A majority has reached index `i`, and the entry there is of the current term. -/
def Replicated (rf : Peer n C D) (i : Int) : Prop :=
  (∃ e, rf.getLogEntryAtIndex i = some e ∧ e.term = rf.currentTerm) ∧
    Quorum (PeerOk.counters rf i)

/-- The indices the commit rule allows. -/
structure Committable (rf : Peer n C D) (i : Int) : Prop where
  forward : rf.commitIndex ≤ i
  kept : (rf.snapshotEntriesAmount : Int) ≤ i
  present : i ≤ rf.getLastLogEntryIndex
  replicated : rf.Replicated i

theorem commitCount_eq {rf : Peer n C D} (hlen : rf.matchIndex.length = n) (i : Int) :
    rf.commitCount i = some (PeerOk.counters rf i).card := by
  have hread : ∀ (js : List (Fin n)) (k : Nat), ∃ count,
      js.foldlM (fun count j => do
        let m ← rf.matchIndex[j.val]?
        return if m ≥ i then count + 1 else count) k = some count := by
    intro js
    induction js with
    | nil => exact fun k => ⟨k, rfl⟩
    | cons j js ih =>
      intro k
      have hj : j.val < rf.matchIndex.length := by omega
      obtain ⟨count, hc⟩ := ih (if rf.matchIndex[j.val] ≥ i then k + 1 else k)
      exact ⟨count, by simpa [List.foldlM_cons, List.getElem?_eq_getElem hj] using hc⟩
  obtain ⟨count, hc⟩ := hread (others rf.me) 1
  have hc : rf.commitCount i = some count := hc
  rw [hc, PeerOk.card_counters, commitCount_eq_some hc]

theorem getLogEntryAtIndex_offset {rf : Peer n C D} {j : Nat} (hj : j < rf.logs.length) :
    rf.getLogEntryAtIndex ((j : Int) + rf.snapshotEntriesAmount) = some rf.logs[j] := by
  rw [getLogEntryAtIndex_eq, if_pos (by omega), ← List.getElem?_eq_getElem hj]
  congr 1
  omega

theorem getIndexFromOffsetIndex_eq {rf : Peer n C D} {j : Nat} (hj : j < rf.logs.length) :
    rf.getIndexFromOffsetIndex j = some ((j : Int) + rf.snapshotEntriesAmount) := by
  have hc : rf.logIndexCheck ((j : Int) + rf.snapshotEntriesAmount) true true = some () :=
    logIndexCheck_eq_some.mpr ⟨fun _ => by omega, fun _ => by unfold getLastLogEntryIndex; omega⟩
  unfold getIndexFromOffsetIndex
  simp [hc]

theorem commitScan_cons {rf : Peer n C D} (hlen : rf.matchIndex.length = n) {j : Nat}
    (hj : j < rf.logs.length) (js : List Nat) (c : Int) :
    ((j : Int) + rf.snapshotEntriesAmount < c ∧ rf.commitScan (j :: js) c = rf.commitScan js c) ∨
    (c ≤ (j : Int) + rf.snapshotEntriesAmount ∧
      rf.Replicated ((j : Int) + rf.snapshotEntriesAmount) ∧
      rf.commitScan (j :: js) c = rf.commitScan js ((j : Int) + rf.snapshotEntriesAmount)) ∨
    (¬ rf.Replicated ((j : Int) + rf.snapshotEntriesAmount) ∧
      rf.commitScan (j :: js) c = rf.commitScan js c) := by
  have hi := getIndexFromOffsetIndex_eq hj
  have he := getLogEntryAtIndex_offset hj
  have hcount := commitCount_eq hlen ((j : Int) + rf.snapshotEntriesAmount)
  generalize (j : Int) + rf.snapshotEntriesAmount = i at hi he hcount
  rw [commitScan, hi, Option.bind_eq_bind, Option.bind_some]
  by_cases hlt : i < c
  · exact .inl ⟨hlt, if_pos hlt⟩
  rw [if_neg hlt, hcount, he, Option.bind_eq_bind, Option.bind_some, Option.bind_eq_bind,
    Option.bind_some]
  by_cases hq : (PeerOk.counters rf i).card > n / 2 ∧ rf.logs[j].term = rf.currentTerm
  · rw [if_pos hq]
    exact .inr (.inl ⟨not_lt.mp hlt, ⟨⟨_, he, hq.2⟩, hq.1⟩, rfl⟩)
  · rw [if_neg hq]
    refine .inr (.inr ⟨?_, rfl⟩)
    rintro ⟨⟨e, he', heT⟩, hQ⟩
    rw [he] at he'
    rw [← Option.some.inj he'] at heT
    exact hq ⟨hQ, heT⟩

/-- The scan over increasing offsets ends at the largest replicated index that is
not below its start, if there is one. -/
theorem commitScan_greatest {rf : Peer n C D} (hlen : rf.matchIndex.length = n) {js : List Nat}
    (hsorted : js.Pairwise (· < ·)) (hjs : ∀ j ∈ js, j < rf.logs.length) (c : Int) :
    ∃ c', rf.commitScan js c = some c' ∧ c ≤ c' ∧
      (c' = c ∨ ∃ j ∈ js, c' = (j : Int) + rf.snapshotEntriesAmount ∧ rf.Replicated c') ∧
      ∀ j ∈ js, c ≤ (j : Int) + rf.snapshotEntriesAmount →
        rf.Replicated ((j : Int) + rf.snapshotEntriesAmount) →
        (j : Int) + rf.snapshotEntriesAmount ≤ c' := by
  induction js generalizing c with
  | nil => exact ⟨c, rfl, le_refl c, .inl rfl, by simp⟩
  | cons j js ih =>
    obtain ⟨hfirst, hrest⟩ := List.pairwise_cons.mp hsorted
    have ih := ih hrest fun k hk => hjs k (List.mem_cons_of_mem j hk)
    rcases commitScan_cons hlen (hjs j List.mem_cons_self) js c with
      ⟨hlt, hscan⟩ | ⟨hle, hrep, hscan⟩ | ⟨hrep, hscan⟩
    · obtain ⟨c', hc', hge, hin, hall⟩ := ih c
      refine ⟨c', hscan.trans hc', hge, hin.imp_right ?_, ?_⟩
      · rintro ⟨k, hk, h⟩
        exact ⟨k, List.mem_cons_of_mem j hk, h⟩
      · intro k hk hck hr
        rcases List.mem_cons.mp hk with rfl | hk
        · omega
        · exact hall k hk hck hr
    · -- the index just raised is below all that are still to come
      obtain ⟨c', hc', hge, hin, hall⟩ := ih ((j : Int) + rf.snapshotEntriesAmount)
      refine ⟨c', hscan.trans hc', hle.trans hge, .inr ?_, ?_⟩
      · rcases hin with rfl | ⟨k, hk, h⟩
        · exact ⟨j, List.mem_cons_self, rfl, hrep⟩
        · exact ⟨k, List.mem_cons_of_mem j hk, h⟩
      · intro k hk _ hr
        rcases List.mem_cons.mp hk with rfl | hk
        · exact hge
        · have := hfirst k hk
          exact hall k hk (by omega) hr
    · obtain ⟨c', hc', hge, hin, hall⟩ := ih c
      refine ⟨c', hscan.trans hc', hge, hin.imp_right ?_, ?_⟩
      · rintro ⟨k, hk, h⟩
        exact ⟨k, List.mem_cons_of_mem j hk, h⟩
      · intro k hk hck hr
        rcases List.mem_cons.mp hk with rfl | hk
        · exact absurd hr hrep
        · exact hall k hk hck hr

theorem Committable.offset {rf : Peer n C D} {i : Int} (h : rf.Committable i) :
    ∃ j ∈ List.range rf.getLogLengthWithoutSnapshot,
      i = (j : Int) + rf.snapshotEntriesAmount := by
  have hlo := h.kept
  have hhi := h.present
  unfold getLastLogEntryIndex at hhi
  refine ⟨(i - rf.snapshotEntriesAmount).toNat, ?_, by omega⟩
  rw [List.mem_range, getLogLengthWithoutSnapshot]
  omega

/-- The scan over all offsets. -/
theorem commitScan_range {rf : Peer n C D} (hlen : rf.matchIndex.length = n) :
    ∃ c, rf.commitScan (List.range rf.getLogLengthWithoutSnapshot) rf.commitIndex = some c ∧
      rf.commitIndex ≤ c ∧ (c = rf.commitIndex ∨ rf.Committable c) ∧
      ∀ i, rf.Committable i → i ≤ c := by
  obtain ⟨c, hc, hge, hin, hall⟩ := commitScan_greatest hlen (List.pairwise_lt_range)
    (fun j hj => List.mem_range.mp hj) rf.commitIndex
  refine ⟨c, hc, hge, hin.imp_right ?_, ?_⟩
  · rintro ⟨j, hj, rfl, hrep⟩
    have hj : j < rf.logs.length := List.mem_range.mp hj
    exact ⟨hge, by omega, by unfold getLastLogEntryIndex; omega, hrep⟩
  · intro i hi
    obtain ⟨j, hj, rfl⟩ := hi.offset
    exact hall j hj hi.forward hi.replicated

/-- `leaderUpdateCommit` ends where the scan ends. -/
theorem leaderUpdateCommit_eq (rf : Peer n C D) (hlen : rf.matchIndex.length = n) :
    ∃ c, rf.leaderUpdateCommit = some { rf with commitIndex := c } ∧ rf.commitIndex ≤ c ∧
      (c = rf.commitIndex ∨ rf.Committable c) ∧ ∀ i, rf.Committable i → i ≤ c := by
  obtain ⟨c, hc, hge, hin, hall⟩ := commitScan_range hlen
  refine ⟨c, ?_, hge, hin, hall⟩
  unfold leaderUpdateCommit
  rw [hc, Option.bind_eq_bind, Option.bind_some, if_neg (by omega)]
  by_cases hne : c > -1 ∧ rf.commitIndex ≠ c
  · have hcm : rf.Committable c := hin.resolve_left (Ne.symm hne.2)
    obtain ⟨e, he, heT⟩ := hcm.replicated.1
    rw [if_pos hne, he, Option.bind_eq_bind, Option.bind_some, if_neg (not_not.mpr heT)]
    rfl
  · rw [if_neg hne]
    rfl

theorem leaderUpdateCommit_again {rf rf' : Peer n C D} (hlen : rf.matchIndex.length = n)
    (h : rf.leaderUpdateCommit = some rf') : rf'.leaderUpdateCommit = some rf' := by
  obtain ⟨c, hc, hge, -, hall⟩ := leaderUpdateCommit_eq rf hlen
  obtain rfl := Option.some.inj (h.symm.trans hc)
  obtain ⟨c', hc', hge', hin', -⟩ :=
    leaderUpdateCommit_eq { rf with commitIndex := c } hlen
  have hge' : c ≤ c' := hge'
  have heq : c' = c := by
    rcases hin' with heq | hcm
    · exact heq
    · have hcm : rf.Committable c' := ⟨by omega, hcm.kept, hcm.present, hcm.replicated⟩
      have := hall c' hcm
      omega
  rw [hc', heq]

/-- **The commit rule.**  `leaderUpdateCommit` does not abort, and sets
`commitIndex` to the largest index the rule allows, or leaves it. -/
theorem leaderUpdateCommit_greatest (rf : Peer n C D) (hlen : rf.matchIndex.length = n) :
    ∃ c, rf.leaderUpdateCommit = some { rf with commitIndex := c } ∧ rf.commitIndex ≤ c ∧
      ((∃ i, rf.Committable i) → IsGreatest {i | rf.Committable i} c) ∧
      ((¬ ∃ i, rf.Committable i) → c = rf.commitIndex) := by
  obtain ⟨c, hc, hge, hin, hall⟩ := leaderUpdateCommit_eq rf hlen
  refine ⟨c, hc, hge, ?_, fun hnone => hin.resolve_right fun h => hnone ⟨c, h⟩⟩
  rintro ⟨i, hi⟩
  refine ⟨hin.elim (fun heq => ?_) id, fun k hk => hall k hk⟩
  -- the scan stayed where it was, so the allowed index is `commitIndex` itself
  have := hall i hi
  have := hi.forward
  rw [show c = i by omega]
  exact hi

/-- A leader of term 3 whose `commitIndex` is still below its boundary, as after a
restart.  Index 2 is of an older term, index 4 is on the leader only. -/
def restartedLeader : Peer 3 Nat Nat where
  me := 0
  status := .leader
  numVoteGathered := 2
  currentTerm := 3
  votedFor := some 0
  logs := [⟨1, 10⟩, ⟨3, 11⟩, ⟨3, 12⟩]
  snapshotEntriesAmount := 2
  lastSnapshotTerm := 1
  commitIndex := -1
  lastApplied := -1
  nextIndex := [5, 4, 3]
  matchIndex := [0, 3, 2]
  persister := Persister.makePersister

theorem restartedLeader_commits :
    restartedLeader.leaderUpdateCommit = some { restartedLeader with commitIndex := 3 } ∧
      IsGreatest {i | restartedLeader.Committable i} 3 := by
  have hrun : restartedLeader.leaderUpdateCommit
      = some { restartedLeader with commitIndex := 3 } := by decide
  obtain ⟨c, hc, -, hsome, -⟩ := leaderUpdateCommit_greatest restartedLeader (by decide)
  have hc3 : c = 3 := by
    rw [hrun] at hc
    exact (congrArg Peer.commitIndex (Option.some.inj hc)).symm
  subst hc3
  have hq : Quorum (PeerOk.counters restartedLeader 3) := by
    unfold Quorum
    decide
  exact ⟨hrun, hsome ⟨3, by decide, by decide, by decide, ⟨⟨3, 11⟩, by decide, by decide⟩, hq⟩⟩

end Peer

end ShardRaft.Raft
