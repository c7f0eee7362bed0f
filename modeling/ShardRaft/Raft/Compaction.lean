import ShardRaft.Lib.Trace
import ShardRaft.Raft.Sections

/-!
# The compacted log refines the full log

A peer keeps the entries from `snapshotEntriesAmount` on and of the one before only the
term.  `Represents L` says that this is what is left of the full log `L`.  Every
function of `logUtils.go` then computes on the peer what it computes on `L`, the two ways
of compacting leave `L` as it is, and `AppendEntries` does to a compacted log what it does to
the full one (`compacted_refines_full`).

Each lemma below gives the result as a function of `L` alone.  The uncompacted peer
represents `L` as well, so both sides of the refinement are the same lemma.
-/

namespace ShardRaft.Raft

namespace Peer

variable {n : Nat} {C D : Type}

/-- The peer holds what compaction has left of the log `L`. -/
structure Represents (rf : Peer n C D) (L : List (LogEntity C)) : Prop where
  ne_nil : L ≠ []
  amount_le : rf.snapshotEntriesAmount ≤ L.length
  logs_eq : rf.logs = L.drop rf.snapshotEntriesAmount
  term_eq : rf.lastSnapshotTerm =
    if rf.snapshotEntriesAmount = 0 then -1
    else (L[rf.snapshotEntriesAmount - 1]?.map (·.term)).getD (-1)

/-- The same peer with nothing compacted. -/
def uncompacted (rf : Peer n C D) (L : List (LogEntity C)) : Peer n C D :=
  { rf with logs := L, snapshotEntriesAmount := 0, lastSnapshotTerm := -1 }

/-- What `AppendEntries` does to a full log: the reply, its Boolean, the log and the
commit index. -/
def appendOn (currentTerm commitIndex : Int) (L : List (LogEntity C))
    (args : AppendEntriesArgs n C) : AppendEntriesReply × Bool × List (LogEntity C) × Int :=
  if currentTerm > args.term then
    ({ term := currentTerm, success := false }, false, L, commitIndex)
  else if L[args.prevLogIndex.toNat]?.map (·.term) = some args.prevLogTerm then
    ({ term := args.term, success := true }, true,
      L.take (args.prevLogIndex + 1).toNat ++ args.entries,
      if commitIndex < args.leaderCommit then args.leaderCommit else commitIndex)
  else ({ term := args.term, success := false }, false, L, commitIndex)

namespace Represents

variable {rf rf' : Peer n C D} {L : List (LogEntity C)} {i : Int}

theorem full (h : rf.Represents L) : (rf.uncompacted L).Represents L :=
  ⟨h.ne_nil, Nat.zero_le _, rfl, rfl⟩

theorem congr (h : rf.Represents L) (hl : rf'.logs = rf.logs)
    (ha : rf'.snapshotEntriesAmount = rf.snapshotEntriesAmount)
    (ht : rf'.lastSnapshotTerm = rf.lastSnapshotTerm) : rf'.Represents L := by
  refine ⟨h.ne_nil, ?_, ?_, ?_⟩
  · rw [ha]; exact h.amount_le
  · rw [hl, ha]; exact h.logs_eq
  · rw [ht, ha]; exact h.term_eq

theorem length_pos (h : rf.Represents L) : 0 < L.length := List.length_pos_iff.mpr h.ne_nil

/-! ### Reading -/

theorem lastIndex (h : rf.Represents L) : rf.getLastLogEntryIndex = (L.length : Int) - 1 := by
  have hle := h.amount_le
  rw [getLastLogEntryIndex, h.logs_eq, List.length_drop]
  omega

theorem logs_get (h : rf.Represents L) (hi : (rf.snapshotEntriesAmount : Int) ≤ i) :
    rf.logs[(i - rf.snapshotEntriesAmount).toNat]? = L[i.toNat]? := by
  rw [h.logs_eq, List.getElem?_drop]
  congr 1
  omega

/-- The boundary's term is that of the last entry that is gone. -/
theorem boundary (h : rf.Represents L) (hi : i + 1 = rf.snapshotEntriesAmount) (h0 : 0 ≤ i) :
    L[i.toNat]?.map (·.term) = some rf.lastSnapshotTerm := by
  have hle := h.amount_le
  have hlt : i.toNat < L.length := by omega
  rw [h.term_eq, if_neg (by omega), show rf.snapshotEntriesAmount - 1 = i.toNat by omega,
    List.getElem?_eq_getElem hlt]
  rfl

theorem termAt (h : rf.Represents L) (hlo : (rf.snapshotEntriesAmount : Int) - 1 ≤ i)
    (h0 : 0 ≤ i) (hi : i < L.length) :
    rf.getLogTermAtIndex i = L[i.toNat]?.map (·.term) := by
  unfold getLogTermAtIndex
  by_cases hb : i + 1 = rf.snapshotEntriesAmount
  · rw [if_pos hb, h.boundary hb h0]
    rfl
  · have hlo' : (rf.snapshotEntriesAmount : Int) ≤ i := by omega
    have hc : rf.logIndexCheck i true true = some () :=
      logIndexCheck_eq_some.mpr ⟨fun _ => hlo', fun _ => by rw [h.lastIndex]; omega⟩
    rw [if_neg hb, hc, getLogEntryAtIndex_eq, if_pos hlo', h.logs_get hlo']
    rw [List.getElem?_eq_getElem (show i.toNat < L.length by omega)]
    rfl

theorem matchesAt (h : rf.Represents L) (hlo : (rf.snapshotEntriesAmount : Int) - 1 ≤ i)
    (h0 : 0 ≤ i) (hi : i < L.length) (t : Int) :
    rf.logMatches t i = L[i.toNat]?.map fun e => e.term == t := by
  have hc : rf.logIndexCheck i false true = some () :=
    logIndexCheck_eq_some.mpr ⟨fun hf => absurd hf (by decide), fun _ => by rw [h.lastIndex]; omega⟩
  unfold logMatches
  rw [hc, h.termAt hlo h0 hi, List.getElem?_eq_getElem (show i.toNat < L.length by omega)]
  simp only [Option.bind_eq_bind, Option.bind_some]
  rw [if_neg (by omega), if_neg (by rw [h.lastIndex]; omega)]
  rfl

theorem lastTermOf (h : rf.Represents L) :
    rf.getLastLogEntryTerm = L.getLast?.map (·.term) := by
  rw [getLastLogEntryTerm_eq, lastTerm, h.logs_eq]
  have hpos := h.length_pos
  have hlast := List.getLast?_eq_getLast_of_ne_nil h.ne_nil
  by_cases hlt : rf.snapshotEntriesAmount < L.length
  · rw [List.getLast?_drop, if_neg (by omega), hlast]
    rfl
  · have hle := h.amount_le
    have hb := h.boundary (i := (L.length : Int) - 1) (by omega) (by omega)
    rw [show ((L.length : Int) - 1).toNat = L.length - 1 by omega, ← List.getLast?_eq_getElem?] at hb
    rw [List.drop_eq_nil_of_le (by omega), hb]
    rfl

theorem startingAt (h : rf.Represents L) (hlo : (rf.snapshotEntriesAmount : Int) ≤ i) :
    rf.getLogEntryStartingAt i = some (L.drop i.toNat) := by
  have hc : rf.logIndexCheck i true false = some () :=
    logIndexCheck_eq_some.mpr ⟨fun _ => hlo, fun hf => absurd hf (by decide)⟩
  have hle := h.amount_le
  unfold getLogEntryStartingAt
  rw [hc]
  simp only [Option.bind_eq_bind, Option.bind_some, getOffsetIndex, h.logs_eq, List.length_drop]
  split
  · rw [List.drop_eq_nil_of_le (by omega)]
    rfl
  · rw [List.drop_drop]
    congr 2
    omega

/-! ### Writing -/

theorem remove (h : rf.Represents L) (hlo : (rf.snapshotEntriesAmount : Int) - 1 ≤ i)
    (h0 : 0 ≤ i) (hi : i < L.length) :
    ∃ rf', rf.removeLogFromIndex i = some rf' ∧
      rf' = { rf with logs := (L.take (i + 1).toNat).drop rf.snapshotEntriesAmount } := by
  refine ⟨_, ?_, rfl⟩
  have hc : (if i + 1 ≠ rf.snapshotEntriesAmount then rf.logIndexCheck i true true
      else some ()) = some () := by
    split
    · exact logIndexCheck_eq_some.mpr ⟨fun _ => by omega, fun _ => by rw [h.lastIndex]; omega⟩
    · rfl
  unfold removeLogFromIndex
  rw [hc]
  simp only [Option.bind_eq_bind, Option.bind_some, getOffsetIndex, h.logs_eq]
  rw [if_neg (by omega), List.drop_take]
  congr 4
  omega

theorem removeAppend (h : rf.Represents L) (hlo : (rf.snapshotEntriesAmount : Int) - 1 ≤ i)
    (h0 : 0 ≤ i) (hi : i < L.length) (es : List (LogEntity C)) :
    ∃ rf', rf.removeLogFromIndex i = some rf' ∧
      (rf'.appendEntries es).Represents (L.take (i + 1).toNat ++ es) := by
  obtain ⟨rf', hr, rfl⟩ := h.remove hlo h0 hi
  refine ⟨_, hr, ?_, ?_, ?_, ?_⟩
  · intro hnil
    have hlen := congrArg List.length hnil
    rw [List.length_append, List.length_take, List.length_nil] at hlen
    omega
  · rw [List.length_append, List.length_take]
    change rf.snapshotEntriesAmount ≤ _
    omega
  · change (L.take (i + 1).toNat).drop rf.snapshotEntriesAmount ++ es = _
    rw [appendEntries_snapshotEntriesAmount, List.drop_append_of_le_length]
    rw [List.length_take]
    change rf.snapshotEntriesAmount ≤ _
    omega
  · change rf.lastSnapshotTerm = if rf.snapshotEntriesAmount = 0 then -1 else
      ((L.take (i + 1).toNat ++ es)[rf.snapshotEntriesAmount - 1]?.map (·.term)).getD (-1)
    rw [h.term_eq]
    split
    · rfl
    · rw [List.getElem?_append_left (by rw [List.length_take]; omega),
        List.getElem?_take_of_lt (by omega)]

theorem moveBoundary (h : rf.Represents L) {amount : Nat} {e : LogEntity C}
    (he : L[amount]? = some e) (ha : rf'.snapshotEntriesAmount = amount + 1)
    (hl : rf'.logs = L.drop (amount + 1)) (ht : rf'.lastSnapshotTerm = e.term) :
    rf'.Represents L := by
  have hlt := (List.getElem?_eq_some_iff.mp he).1
  refine ⟨h.ne_nil, ?_, ?_, ?_⟩
  · rw [ha]; exact hlt
  · rw [hl, ha]
  · rw [ht, ha, if_neg (Nat.succ_ne_zero _), Nat.add_sub_cancel, he]
    rfl

theorem snapshotAt (h : rf.Represents L) {j : Int} (hlo : (rf.snapshotEntriesAmount : Int) ≤ j)
    (hc : j ≤ rf.commitIndex) (hj : j < L.length) (data : D) :
    ∃ rf', rf.snapshot j data = some rf' ∧ rf'.Represents L := by
  have hget := List.getElem?_eq_getElem (show j.toNat < L.length by omega)
  have he : rf.getLogEntryAtIndex j = some L[j.toNat] := by
    rw [getLogEntryAtIndex_eq, if_pos hlo, h.logs_get hlo, hget]
  unfold snapshot
  rw [if_neg (by omega), he, h.startingAt (i := j + 1) (by omega)]
  refine ⟨_, rfl, h.moveBoundary hget ?_ ?_ rfl⟩
  · change (j + 1).toNat = j.toNat + 1
    omega
  · change L.drop (j + 1).toNat = L.drop (j.toNat + 1)
    congr 1
    omega

theorem installAt (h : rf.Represents L) (args : InstallSnapshotArgs n D)
    (h0 : 0 ≤ args.lastIncludedIndex)
    (ht : L[args.lastIncludedIndex.toNat]?.map (·.term) = some args.lastIncludedTerm) :
    ∃ rf' reply b, rf.installSnapshotLocked args = some (rf', reply, b) ∧ rf'.Represents L := by
  obtain ⟨e, he, ht⟩ := Option.map_eq_some_iff.mp ht
  unfold installSnapshotLocked
  by_cases hst : args.term < rf.currentTerm
  · rw [if_pos hst]
    exact ⟨_, _, _, rfl, h⟩
  rw [if_neg hst]
  have hf : (rf.becomeFollower args.term none).persist.Represents L := h.congr rfl rfl rfl
  by_cases hin : ((rf.becomeFollower args.term none).persist.snapshotEntriesAmount : Int) >
      args.lastIncludedIndex
  · rw [if_pos hin]
    exact ⟨_, _, _, rfl, hf⟩
  · rw [if_neg hin, hf.startingAt (i := args.lastIncludedIndex + 1) (by omega)]
    refine ⟨_, _, _, rfl, hf.moveBoundary he ?_ ?_ ht.symm⟩
    · change (args.lastIncludedIndex + 1).toNat = args.lastIncludedIndex.toNat + 1
      omega
    · change L.drop (args.lastIncludedIndex + 1).toNat = L.drop (args.lastIncludedIndex.toNat + 1)
      congr 1
      omega

/-! ### `AppendEntries` -/

/-- **The handler does to the compacted log what it does to the full one.** -/
theorem appendAt (h : rf.Represents L) (args : AppendEntriesArgs n C)
    (hlo : (rf.snapshotEntriesAmount : Int) - 1 ≤ args.prevLogIndex) (h0 : 0 ≤ args.prevLogIndex) :
    ∃ rf', rf.appendEntriesWithLock args =
        some (rf', (appendOn rf.currentTerm rf.commitIndex L args).1,
          (appendOn rf.currentTerm rf.commitIndex L args).2.1) ∧
      rf'.Represents (appendOn rf.currentTerm rf.commitIndex L args).2.2.1 ∧
      rf'.commitIndex = (appendOn rf.currentTerm rf.commitIndex L args).2.2.2 := by
  unfold appendEntriesWithLock appendOn
  by_cases hst : rf.currentTerm > args.term
  · rw [if_pos hst, if_pos hst]
    exact ⟨rf, rfl, h, rfl⟩
  rw [if_neg hst, if_neg hst]
  have hf : (rf.becomeFollower args.term none).persist.Represents L := h.congr rfl rfl rfl
  rw [if_neg (show ¬ args.prevLogIndex <
    ((rf.becomeFollower args.term none).persist.snapshotEntriesAmount : Int) - 1 from not_lt.mpr hlo)]
  by_cases hlen : args.prevLogIndex < L.length
  · have hget := List.getElem?_eq_getElem (show args.prevLogIndex.toNat < L.length by omega)
    rw [if_neg (by rw [hf.lastIndex]; omega), hf.matchesAt hlo h0 hlen, hget]
    obtain ⟨rf', hr, heq⟩ := hf.remove hlo h0 hlen
    obtain ⟨rf'', hr', hrep⟩ := hf.removeAppend hlo h0 hlen args.entries
    obtain rfl := Option.some.inj (hr.symm.trans hr')
    by_cases ht : L[args.prevLogIndex.toNat].term = args.prevLogTerm
    · simp only [Option.map_some, ht, Option.bind_eq_bind, Option.bind_some, beq_self_eq_true,
        Bool.not_true, Bool.false_eq_true, if_false, if_true, hr]
      subst heq
      exact ⟨_, rfl, hrep.congr rfl rfl rfl, rfl⟩
    · have hb : (L[args.prevLogIndex.toNat].term == args.prevLogTerm) = false := beq_false_of_ne ht
      simp only [Option.map_some, ht, hb, Option.bind_eq_bind, Option.bind_some, Bool.not_false,
        if_true, Option.some.injEq, if_false]
      exact ⟨_, rfl, hf, rfl⟩
  · rw [if_pos (by rw [hf.lastIndex]; omega), List.getElem?_eq_none (by omega)]
    simp only [Option.map_none, reduceCtorEq, if_false]
    exact ⟨_, rfl, hf, rfl⟩

/-- A request that starts inside the snapshot is answered with the number of entries in it. -/
theorem appendInSnapshot (h : rf.Represents L) (args : AppendEntriesArgs n C)
    (hterm : rf.currentTerm ≤ args.term)
    (hlo : args.prevLogIndex < (rf.snapshotEntriesAmount : Int) - 1) :
    ∃ rf', rf.appendEntriesWithLock args =
        some (rf', ⟨args.term, false, true, rf.snapshotEntriesAmount⟩, false) ∧
      rf'.Represents L ∧ rf'.commitIndex = rf.commitIndex := by
  unfold appendEntriesWithLock
  rw [if_neg (not_lt.mpr hterm)]
  have hin : args.prevLogIndex <
      ((rf.becomeFollower args.term none).persist.snapshotEntriesAmount : Int) - 1 := hlo
  rw [if_pos hin]
  exact ⟨_, rfl, h.congr rfl rfl rfl, rfl⟩

end Represents

/-- The peer computes what the uncompacted peer `full` computes on the log `L`. -/
structure RefinesFull (rf full : Peer n C D) (L : List (LogEntity C)) : Prop where
  lastIndex : rf.getLastLogEntryIndex = full.getLastLogEntryIndex
  lastTerm : ∃ t, rf.getLastLogEntryTerm = some t ∧ full.getLastLogEntryTerm = some t
  upToDate : ∀ t i, ∃ b, rf.candidateIsUpToDate t i = some b ∧ full.candidateIsUpToDate t i = some b
  termAt : ∀ i : Int, max ((rf.snapshotEntriesAmount : Int) - 1) 0 ≤ i → i < L.length →
    ∃ t, rf.getLogTermAtIndex i = some t ∧ full.getLogTermAtIndex i = some t
  matchesAt : ∀ t i : Int, max ((rf.snapshotEntriesAmount : Int) - 1) 0 ≤ i → i < L.length →
    ∃ b, rf.logMatches t i = some b ∧ full.logMatches t i = some b
  startingAt : ∀ i : Int, max ((rf.snapshotEntriesAmount : Int) - 1) 0 ≤ i → i < L.length →
    ∃ es, rf.getLogEntryStartingAt (i + 1) = some es ∧ full.getLogEntryStartingAt (i + 1) = some es
  removeAppend : ∀ (i : Int) (es : List (LogEntity C)),
    max ((rf.snapshotEntriesAmount : Int) - 1) 0 ≤ i → i < L.length →
    ∃ rf', rf.removeLogFromIndex i = some rf' ∧
      (rf'.appendEntries es).Represents (L.take (i + 1).toNat ++ es)
  snapshot : ∀ (j : Int) (data : D), (rf.snapshotEntriesAmount : Int) ≤ j →
    j ≤ min rf.commitIndex ((L.length : Int) - 1) →
    ∃ rf', rf.snapshot j data = some rf' ∧ rf'.Represents L
  /-- The snapshot ends at an entry of `L`. -/
  install : ∀ args : InstallSnapshotArgs n D, 0 ≤ args.lastIncludedIndex →
    L[args.lastIncludedIndex.toNat]?.map (·.term) = some args.lastIncludedTerm →
    ∃ rf' reply b, rf.installSnapshotLocked args = some (rf', reply, b) ∧ rf'.Represents L
  append : ∀ args : AppendEntriesArgs n C,
    max ((rf.snapshotEntriesAmount : Int) - 1) 0 ≤ args.prevLogIndex →
    ∃ (rf' full' : Peer n C D) (reply : AppendEntriesReply) (b : Bool) (L' : List (LogEntity C)),
      rf.appendEntriesWithLock args = some (rf', reply, b) ∧
      full.appendEntriesWithLock args = some (full', reply, b) ∧
      rf'.Represents L' ∧ full'.Represents L' ∧ rf'.commitIndex = full'.commitIndex
  inSnapshot : ∀ args : AppendEntriesArgs n C, rf.currentTerm ≤ args.term →
    args.prevLogIndex < (rf.snapshotEntriesAmount : Int) - 1 →
    ∃ rf', rf.appendEntriesWithLock args =
        some (rf', ⟨args.term, false, true, rf.snapshotEntriesAmount⟩, false) ∧
      rf'.Represents L ∧ rf'.commitIndex = rf.commitIndex

/-- **A compacted log answers as the full log does**, whatever was compacted. -/
theorem compacted_refines_full (rf : Peer n C D) (L : List (LogEntity C)) (h : rf.Represents L) :
    rf.RefinesFull (rf.uncompacted L) L := by
  have hfull := h.full
  have hfull0 : ((rf.uncompacted L).snapshotEntriesAmount : Int) = 0 := rfl
  have hlast := List.getLast?_eq_getLast_of_ne_nil h.ne_nil
  constructor
  case lastIndex => rw [h.lastIndex, hfull.lastIndex]
  case lastTerm =>
    refine ⟨(L.getLast h.ne_nil).term, ?_, ?_⟩
    · rw [h.lastTermOf, hlast]; rfl
    · rw [hfull.lastTermOf, hlast]; rfl
  case upToDate =>
    intro t i
    unfold candidateIsUpToDate
    rw [h.lastTermOf, hfull.lastTermOf, h.lastIndex, hfull.lastIndex, hlast]
    simp only [Option.map_some, Option.bind_eq_bind, Option.bind_some]
    split
    · exact ⟨true, rfl, rfl⟩
    · split
      · exact ⟨true, rfl, rfl⟩
      · exact ⟨false, rfl, rfl⟩
  case termAt =>
    intro i hlo hi
    have hget := List.getElem?_eq_getElem (show i.toNat < L.length by omega)
    refine ⟨L[i.toNat].term, ?_, ?_⟩
    · rw [h.termAt (by omega) (by omega) hi, hget]; rfl
    · rw [hfull.termAt (by omega) (by omega) hi, hget]; rfl
  case matchesAt =>
    intro t i hlo hi
    have hget := List.getElem?_eq_getElem (show i.toNat < L.length by omega)
    refine ⟨L[i.toNat].term == t, ?_, ?_⟩
    · rw [h.matchesAt (by omega) (by omega) hi, hget]; rfl
    · rw [hfull.matchesAt (by omega) (by omega) hi, hget]; rfl
  case startingAt =>
    intro i hlo hi
    exact ⟨_, h.startingAt (by omega), hfull.startingAt (by omega)⟩
  case removeAppend =>
    intro i es hlo hi
    exact h.removeAppend (by omega) (by omega) hi es
  case snapshot =>
    intro j data hlo hj
    exact h.snapshotAt hlo (by omega) (by omega) data
  case install => exact h.installAt
  case append =>
    intro args hlo
    obtain ⟨rf', he, hr, hc⟩ := h.appendAt args (by omega) (by omega)
    obtain ⟨full', he', hr', hc'⟩ := hfull.appendAt args (by omega) (by omega)
    exact ⟨rf', full', _, _, _, he, he', hr, hr', hc.trans hc'.symm⟩
  case inSnapshot => exact h.appendInSnapshot

/-- The filler and three commands. -/
def sampleLog : List (LogEntity Nat) := [filler, ⟨1, 5⟩, ⟨1, 6⟩, ⟨3, 7⟩]

/-- The first two entries are in the snapshot. -/
def samplePeer : Peer 3 Nat Unit :=
  { fresh 0 .makePersister with
    currentTerm := 3
    logs := [⟨1, 6⟩, ⟨3, 7⟩]
    snapshotEntriesAmount := 2
    lastSnapshotTerm := 1
    commitIndex := 2 }

theorem compacted_refines_full_samplePeer :
    samplePeer.Represents sampleLog ∧ samplePeer.RefinesFull (samplePeer.uncompacted sampleLog)
      sampleLog := by
  have h : samplePeer.Represents sampleLog := ⟨by decide, by decide, by decide, by decide⟩
  exact ⟨h, compacted_refines_full samplePeer sampleLog h⟩

end Peer

end ShardRaft.Raft
