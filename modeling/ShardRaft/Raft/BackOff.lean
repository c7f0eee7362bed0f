import ShardRaft.Raft.Commit
import ShardRaft.Raft.Compaction

/-!
# The back-off converges

A *round* is one call of `handleSendAppendEntries` in which nothing is lost and nobody else
interferes: the request, its answer, and the `InstallSnapshot` call this may start.
`commitToApplyChannel`, which either side calls once it has released the lock, reads the
log and moves `lastApplied` only; it is left out.

The leader holds `L` from index `a` on, the follower `F` from `b` on, and the next entry to
send is `next`.

* `next < a`: the snapshot is sent and `next` becomes `a`.
* `a ≤ next < b`: the follower answers `InSnapshot` and `next` becomes `b`.
* the entry before `next` differs: `next` falls, but not below `a` and `1`
  (`Represents.backOffIndex`).  Once it is at `a` the snapshot is sent as well.
* it agrees: the follower takes the rest of `L`.

A snapshot leaves `b ≥ a` and `next = a`, so two more rounds are enough; and `next` can
only fall while no snapshot is sent.
-/

namespace ShardRaft.Raft

variable {n : Nat} {C D : Type}

namespace Peer

variable {rf rf' : Peer n C D} {L F : List (LogEntity C)}

/-! ### The indices of a leader -/

theorem Represents.entryAt (h : rf.Represents L) {i : Int} (hlo : (rf.snapshotEntriesAmount : Int) ≤ i) :
    rf.getLogEntryAtIndex i = L[i.toNat]? := by
  rw [getLogEntryAtIndex_eq, if_pos hlo, h.logs_get hlo]

theorem Represents.backOff (h : rf.Represents L) (curTerm : Int) :
    ∀ (fuel : Nat) (i : Int), i < L.length → ∃ j, rf.backOff curTerm fuel i = some j ∧ j ≤ i ∧
      min i 1 ≤ j ∧ min i rf.snapshotEntriesAmount ≤ j := by
  intro fuel
  induction fuel with
  | zero => exact fun i _ => ⟨i, rfl, by omega⟩
  | succ fuel ih =>
    intro i hi
    rw [Peer.backOff]
    by_cases hgo : i > 1 ∧ i > rf.snapshotEntriesAmount
    · have hget := List.getElem?_eq_getElem (show i.toNat < L.length by omega)
      rw [if_pos hgo, h.entryAt (by omega), hget, Option.bind_eq_bind, Option.bind_some]
      by_cases ht : L[i.toNat].term = curTerm
      · rw [if_pos ht]
        obtain ⟨j, hj, hle, h1, ha⟩ := ih (i - 1) (by omega)
        exact ⟨j, hj, by omega⟩
      · rw [if_neg ht]
        exact ⟨i, rfl, by omega⟩
    · rw [if_neg hgo]
      exact ⟨i, rfl, by omega⟩

/-- **A refused request** moves `next` down, or leaves it at the boundary. -/
theorem Represents.backOffIndex (h : rf.Represents L) {next : Int} (hhi : next ≤ L.length) :
    ∃ next', rf.backOffIndex next = some next' ∧ 1 ≤ next' ∧
      (rf.snapshotEntriesAmount : Int) ≤ next' ∧
      next' ≤ max (next - 1) (max rf.snapshotEntriesAmount 1) := by
  have hpos := h.length_pos
  have hle := h.amount_le
  -- the two clamps
  obtain ⟨m, hm, hm1, hma, hmle, hmL⟩ : ∃ m : Int,
      (if (if next - 1 < rf.snapshotEntriesAmount then (rf.snapshotEntriesAmount : Int)
          else next - 1) < 1
        then 1 else if next - 1 < rf.snapshotEntriesAmount then (rf.snapshotEntriesAmount : Int)
          else next - 1) = m ∧
      1 ≤ m ∧ (rf.snapshotEntriesAmount : Int) ≤ m ∧
      m ≤ max (next - 1) (max rf.snapshotEntriesAmount 1) ∧ m ≤ L.length := by
    refine ⟨_, rfl, ?_⟩
    split <;> split <;> omega
  have hget := List.getElem?_eq_getElem (show (m - 1).toNat < L.length by omega)
  have hterm := h.termAt (i := m - 1) (by omega) (by omega) (by omega)
  rw [hget] at hterm
  obtain ⟨j, hj, hjle, hj1, hja⟩ :=
    h.backOff L[(m - 1).toNat].term (m - 1).toNat (m - 1) (by omega)
  refine ⟨j + 1, ?_, by omega⟩
  unfold Peer.backOffIndex
  simp only [hm, hterm, Option.map_some, Option.bind_eq_bind, Option.bind_some, hj]
  rfl

/-- The request for the entries from `next` on. -/
@[simps] def requestFrom (rf : Peer n C D) (L : List (LogEntity C)) (next prevLogTerm : Int) :
    AppendEntriesArgs n C where
  term := rf.currentTerm
  leaderId := rf.me
  prevLogIndex := next - 1
  prevLogTerm := prevLogTerm
  entries := L.drop next.toNat
  leaderCommit := rf.commitIndex

theorem Represents.createAppendEntriesArgs (h : rf.Represents L) {next : Int}
    (hlo : (rf.snapshotEntriesAmount : Int) ≤ next) (h1 : 1 ≤ next) (hhi : next ≤ L.length) :
    ∃ e, L[(next - 1).toNat]? = some e ∧ rf.createAppendEntriesArgs next =
      some (rf.requestFrom L next e.term) := by
  have hget := List.getElem?_eq_getElem (show (next - 1).toNat < L.length by omega)
  refine ⟨_, hget, ?_⟩
  have hprev : rf.getLogIndexBeforeIndex next = next - 1 := if_neg (by omega)
  have hterm := h.termAt (i := next - 1) (by omega) (by omega) (by omega)
  have hsucc : next - 1 + 1 = next := by omega
  unfold Peer.createAppendEntriesArgs
  simp only [hprev, hterm, hget, hsucc, h.startingAt hlo, Option.map_some, Option.bind_eq_bind,
    Option.bind_some]
  rfl

/-- **A leader whose index is in bounds** sends the snapshot or the entries. -/
theorem Represents.handleSendAppendEntries (h : rf.Represents L) (hl : rf.status = .leader)
    {server : Fin n} {next : Int} (hnext : rf.nextIndex[server.val]? = some next) (h1 : 1 ≤ next)
    (hhi : next ≤ L.length) :
    (next < rf.snapshotEntriesAmount ∧ rf.handleSendAppendEntries server =
      some ({ rf with nextIndex := rf.nextIndex.set server rf.snapshotEntriesAmount },
        .installSnapshot)) ∨
    ((rf.snapshotEntriesAmount : Int) ≤ next ∧ ∃ e, L[(next - 1).toNat]? = some e ∧
      rf.handleSendAppendEntries server = some (rf, .send (rf.requestFrom L next e.term))) := by
  unfold Peer.handleSendAppendEntries
  rw [hnext, Option.bind_eq_bind, Option.bind_some]
  by_cases hlt : next < rf.snapshotEntriesAmount
  · rw [if_pos hlt]
    exact .inl ⟨hlt, rfl⟩
  · obtain ⟨e, he, hargs⟩ := h.createAppendEntriesArgs (not_lt.mp hlt) h1 hhi
    rw [if_neg hlt, if_neg (not_not.mpr hl), hargs]
    exact .inr ⟨not_lt.mp hlt, e, he, rfl⟩

/-- **The answer at a leader whose index is in bounds.** -/
theorem Represents.handleAppendEntriesReply (h : rf.Represents L) (hl : rf.status = .leader)
    {server : Fin n} {next : Int} (hnext : rf.nextIndex[server.val]? = some next)
    (hhi : next ≤ L.length) (hlen : rf.matchIndex.length = n) (args : AppendEntriesArgs n C)
    (reply : AppendEntriesReply) :
    (reply.success = true ∧ ∃ rf', (rf.setMatch server
        (args.prevLogIndex + args.entries.length)).leaderUpdateCommit = some rf' ∧
      rf.handleAppendEntriesReply server args reply = some (rf', [], true)) ∨
    (reply.success = false ∧ reply.inSnapshot = true ∧
      rf.handleAppendEntriesReply server args reply = some
        ({ rf with nextIndex := rf.nextIndex.set server reply.snapshotAmount }, [], false)) ∨
    (reply.success = false ∧ reply.inSnapshot = false ∧ rf.currentTerm < reply.term ∧
      rf.handleAppendEntriesReply server args reply = some
        (rf.becomeFollower reply.term none, [], false)) ∨
    (reply.success = false ∧ reply.inSnapshot = false ∧ reply.term ≤ rf.currentTerm ∧
      ∃ next', 1 ≤ next' ∧ (rf.snapshotEntriesAmount : Int) ≤ next' ∧
        next' ≤ max (next - 1) (max rf.snapshotEntriesAmount 1) ∧
        rf.handleAppendEntriesReply server args reply = some
          ({ rf with nextIndex := rf.nextIndex.set server next' },
            if next' ≤ rf.snapshotEntriesAmount ∧ rf.snapshotEntriesAmount > 0
              then [.handleSendInstallSnapshot server] else [], false)) := by
  unfold Peer.handleAppendEntriesReply
  rw [if_neg (not_not.mpr hl), hnext]
  by_cases hs : reply.success = true
  · left
    obtain ⟨c, hc, -⟩ := leaderUpdateCommit_eq
      (rf.setMatch server (args.prevLogIndex + args.entries.length))
      (by rw [setMatch_matchIndex, List.length_set]; exact hlen)
    have hm := List.getElem?_eq_getElem (show server.val < rf.matchIndex.length by omega)
    refine ⟨hs, _, hc, ?_⟩
    rw [if_pos hs, hm, hc]
    rfl
  rw [if_neg hs]
  have hs : reply.success = false := Bool.eq_false_iff.mpr hs
  by_cases hi : reply.inSnapshot = true
  · rw [if_pos hi]
    exact .inr (.inl ⟨hs, hi, rfl⟩)
  rw [if_neg hi]
  have hi : reply.inSnapshot = false := Bool.eq_false_iff.mpr hi
  by_cases ht : rf.currentTerm < reply.term
  · rw [if_pos ht]
    exact .inr (.inr (.inl ⟨hs, hi, ht, rfl⟩))
  · obtain ⟨next', hb, h1, ha, hle⟩ := h.backOffIndex hhi
    rw [if_neg ht, Option.bind_eq_bind, Option.bind_some, hb]
    exact .inr (.inr (.inr ⟨hs, hi, not_lt.mp ht, next', h1, ha, hle, rfl⟩))

/-! ### The receiver -/

theorem Represents.accepts (h : rf.Represents F) (args : AppendEntriesArgs n C)
    (hterm : rf.currentTerm ≤ args.term)
    (hlo : (rf.snapshotEntriesAmount : Int) - 1 ≤ args.prevLogIndex) (h0 : 0 ≤ args.prevLogIndex)
    (hm : F[args.prevLogIndex.toNat]?.map (·.term) = some args.prevLogTerm) :
    ∃ rf', rf.appendEntriesWithLock args =
        some (rf', { term := args.term, success := true }, true) ∧
      rf'.Represents (F.take (args.prevLogIndex + 1).toNat ++ args.entries) ∧
      args.leaderCommit ≤ rf'.commitIndex := by
  obtain ⟨rf', ha, hrep, hc⟩ := h.appendAt args hlo h0
  rw [appendOn, if_neg (not_lt.mpr hterm), if_pos hm] at ha hrep hc
  refine ⟨rf', ha, hrep, ?_⟩
  rw [hc]
  dsimp only
  split <;> omega

theorem Represents.refuses (h : rf.Represents F) (args : AppendEntriesArgs n C)
    (hterm : rf.currentTerm ≤ args.term)
    (hlo : (rf.snapshotEntriesAmount : Int) - 1 ≤ args.prevLogIndex) (h0 : 0 ≤ args.prevLogIndex)
    (hm : F[args.prevLogIndex.toNat]?.map (·.term) ≠ some args.prevLogTerm) :
    ∃ rf', rf.appendEntriesWithLock args =
        some (rf', { term := args.term, success := false }, false) ∧ rf'.Represents F := by
  obtain ⟨rf', ha, hrep, -⟩ := h.appendAt args hlo h0
  rw [appendOn, if_neg (not_lt.mpr hterm), if_neg hm] at ha hrep
  exact ⟨rf', ha, hrep⟩

/-- What the receiver keeps whatever it answers. -/
theorem appendEntriesWithLock_keeps {args : AppendEntriesArgs n C} {reply : AppendEntriesReply}
    {b : Bool} (hle : rf.currentTerm ≤ args.term)
    (h : rf.appendEntriesWithLock args = some (rf', reply, b)) :
    rf'.me = rf.me ∧ rf'.snapshotEntriesAmount = rf.snapshotEntriesAmount ∧
      rf'.currentTerm = args.term := by
  cases appendEntriesWithLock_outcome h with
  | stale hlt => exact absurd hle (not_le.mpr hlt)
  | refused _ _ => exact ⟨rfl, rfl, rfl⟩
  | accepted _ _ _ _ _ => exact ⟨rfl, rfl, rfl⟩

/-! ### One round -/

/-- Equal terms at an index mean equal logs up to it. -/
def LogMatching (L F : List (LogEntity C)) : Prop :=
  ∀ i, ∀ x ∈ L[i]?, ∀ y ∈ F[i]?, x.term = y.term → L.take (i + 1) = F.take (i + 1)

theorem logMatching_iff : LogMatching L F ↔ ∀ i < L.length, ∀ x ∈ L[i]?, ∀ y ∈ F[i]?,
    x.term = y.term → L.take (i + 1) = F.take (i + 1) :=
  ⟨fun h i _ => h i, fun h i x hx => h i (List.getElem?_eq_some_iff.mp hx).1 x hx⟩

instance [DecidableEq C] : Decidable (LogMatching L F) := decidable_of_iff' _ logMatching_iff

theorem LogMatching.splice (h : LogMatching L F) {a : Nat} (ha : a ≤ L.length) :
    LogMatching L (L.take a ++ F.drop a) := by
  intro i x hx y hy ht
  have hlen : (L.take a).length = a := List.length_take_of_le ha
  by_cases hi : i < a
  · rw [List.take_append_of_le_length (by omega), List.take_take, Nat.min_eq_left hi]
  · have hi := not_lt.mp hi
    rw [List.getElem?_append_right (by omega), hlen, List.getElem?_drop,
      show a + (i - a) = i by omega] at hy
    have heq := h i x hx y hy ht
    have hta : L.take a = F.take a := by
      have := congrArg (List.take a) heq
      rwa [List.take_take, List.take_take, Nat.min_eq_left (by omega)] at this
    rw [hta, List.take_append_drop]
    exact heq

/-- An `InstallSnapshot` call and its answer. -/
def installRound (leader follower : Peer n C D) : Option (Peer n C D × Peer n C D) := do
  let (follower, reply, _) ← follower.installSnapshotLocked leader.createInstallSnapshotArgs
  return (leader.handleInstallSnapshotReply reply, follower)

/-- A call of `handleSendAppendEntries` with what it starts.  The Boolean says whether the
answer was a success. -/
def round (leader follower : Peer n C D) : Option (Peer n C D × Peer n C D × Bool) := do
  let server := follower.me
  let (leader, decision) ← leader.handleSendAppendEntries server
  match decision with
  | .notLeader => return (leader, follower, false)
  | .installSnapshot =>
    let (leader, follower) ← leader.installRound follower
    return (leader, follower, false)
  | .send args =>
    let (follower, reply, _) ← follower.appendEntriesWithLock args
    let (leader, spawned, _) ← leader.handleAppendEntriesReply server args reply
    if .handleSendInstallSnapshot server ∈ spawned then
      let (leader, follower) ← leader.installRound follower
      return (leader, follower, reply.success)
    else
      return (leader, follower, reply.success)

/-- Rounds until one succeeds, at most `fuel` of them. -/
def rounds : Nat → Peer n C D → Peer n C D → Option (Peer n C D × Peer n C D × Bool)
  | 0, leader, follower => some (leader, follower, false)
  | fuel + 1, leader, follower => do
    let (leader, follower, success) ← leader.round follower
    if success then return (leader, follower, true)
    else rounds fuel leader follower

/-- A leader with log `L` and a follower with log `F`, which it sends the entries from
`next` on. -/
structure Facing (leader follower : Peer n C D) (L F : List (LogEntity C)) (next : Int) :
    Prop where
  status : leader.status = .leader
  term : follower.currentTerm ≤ leader.currentTerm
  leaderLog : leader.Represents L
  followerLog : follower.Represents F
  filler : L[0]? = F[0]?
  matching : LogMatching L F
  covered : F.take follower.snapshotEntriesAmount <+: L
  index : leader.nextIndex[follower.me.val]? = some next
  tables : leader.matchIndex.length = n
  pos : 1 ≤ next
  le : next ≤ leader.getLastLogEntryIndex + 1

namespace Facing

variable {leader follower follower' : Peer n C D} {next next' : Int}

theorem le_length (h : Facing leader follower L F next) : next ≤ L.length := by
  have := h.le
  rw [h.leaderLog.lastIndex] at this
  omega

theorem aim (h : Facing leader follower L F next) (next' : Int) (h1 : 1 ≤ next') (hle : next' ≤ L.length) :
    Facing { leader with nextIndex := leader.nextIndex.set follower.me next' } follower L F
      next' where
  status := h.status
  term := h.term
  leaderLog := h.leaderLog.congr rfl rfl rfl
  followerLog := h.followerLog
  filler := h.filler
  matching := h.matching
  covered := h.covered
  index := by
    have hlt := (List.getElem?_eq_some_iff.mp h.index).1
    exact List.getElem?_set_self hlt
  tables := h.tables
  pos := h1
  le := by
    change next' ≤ leader.getLastLogEntryIndex + 1
    rw [h.leaderLog.lastIndex]
    omega

/-- The follower has heard of the term and kept its log. -/
theorem heard (h : Facing leader follower L F next) (hl : follower'.Represents F)
    (hme : follower'.me = follower.me)
    (ha : follower'.snapshotEntriesAmount = follower.snapshotEntriesAmount)
    (ht : follower'.currentTerm = leader.currentTerm) : Facing leader follower' L F next where
  status := h.status
  term := ht.le
  leaderLog := h.leaderLog
  followerLog := hl
  filler := h.filler
  matching := h.matching
  covered := by rw [ha]; exact h.covered
  index := by rw [hme]; exact h.index
  tables := h.tables
  pos := h.pos
  le := h.le

theorem spliced (h : Facing leader follower L F next) (ha : 1 ≤ leader.snapshotEntriesAmount)
    (hme : follower'.me = follower.me) (ht : follower'.currentTerm = leader.currentTerm)
    (ham : follower'.snapshotEntriesAmount = leader.snapshotEntriesAmount)
    (hlogs : follower'.logs = F.drop leader.snapshotEntriesAmount)
    (hterm : follower'.lastSnapshotTerm = leader.lastSnapshotTerm) :
    Facing leader follower' L
      (L.take leader.snapshotEntriesAmount ++ F.drop leader.snapshotEntriesAmount) next := by
  have haL := h.leaderLog.amount_le
  have hlen : (L.take leader.snapshotEntriesAmount).length = leader.snapshotEntriesAmount :=
    List.length_take_of_le haL
  refine ⟨h.status, ht.le, h.leaderLog, ⟨?_, ?_, ?_, ?_⟩, ?_, h.matching.splice haL, ?_, ?_,
    h.tables, h.pos, h.le⟩
  · intro hnil
    have := congrArg List.length hnil
    rw [List.length_append, hlen, List.length_nil] at this
    omega
  · rw [ham, List.length_append, hlen]
    omega
  · rw [ham, hlogs, List.drop_left' hlen]
  · rw [hterm, h.leaderLog.term_eq, ham, if_neg (by omega), if_neg (by omega),
      List.getElem?_append_left (by omega), List.getElem?_take_of_lt (by omega)]
  · rw [List.getElem?_append_left (by omega), List.getElem?_take_of_lt (by omega)]
  · rw [ham, List.take_left' hlen]
    exact List.take_prefix _ _
  · rw [hme]
    exact h.index

/-- **A snapshot** is installed, or the follower has one that goes further. -/
theorem install (h : Facing leader follower L F next) (ha : 1 ≤ leader.snapshotEntriesAmount) :
    ∃ follower' F', leader.installRound follower = some (leader, follower') ∧
      Facing leader follower' L F' next ∧ follower'.me = follower.me ∧
      leader.snapshotEntriesAmount ≤ follower'.snapshotEntriesAmount := by
  have haL := h.leaderLog.amount_le
  have hreply : leader.handleInstallSnapshotReply ⟨leader.currentTerm⟩ = leader :=
    if_neg (lt_irrefl _)
  have hheard : (follower.becomeFollower leader.currentTerm none).persist.Represents F :=
    h.followerLog.congr rfl rfl rfl
  have hstale : ¬ leader.currentTerm < follower.currentTerm := not_lt.mpr h.term
  by_cases hin : (follower.snapshotEntriesAmount : Int) > (leader.snapshotEntriesAmount : Int) - 1
  · refine ⟨(follower.becomeFollower leader.currentTerm none).persist, F, ?_,
      h.heard hheard rfl rfl rfl, rfl, ?_⟩
    · simp [installRound, installSnapshotLocked, createInstallSnapshotArgs, hstale, hin, hreply]
    · change leader.snapshotEntriesAmount ≤ follower.snapshotEntriesAmount
      omega
  · have hstart := hheard.startingAt (i := (leader.snapshotEntriesAmount : Int) - 1 + 1)
      (by change (follower.snapshotEntriesAmount : Int) ≤ _; omega)
    rw [Int.sub_add_cancel, Int.toNat_natCast] at hstart
    obtain ⟨follower', hf⟩ : ∃ rf : Peer n C D, rf =
        ((follower.becomeFollower leader.currentTerm none).persist.moveBoundary
          leader.lastSnapshotTerm (F.drop leader.snapshotEntriesAmount)
          leader.snapshotEntriesAmount).persistAndSnapshot leader.persister.snapshot := ⟨_, rfl⟩
    refine ⟨follower', L.take leader.snapshotEntriesAmount ++ F.drop leader.snapshotEntriesAmount,
      ?_, h.spliced ha ?_ ?_ ?_ ?_ ?_, ?_, ?_⟩
    · simp [installRound, installSnapshotLocked, createInstallSnapshotArgs, hstale, hin, hreply,
        hstart, hf]
    all_goals subst hf; rfl

theorem agree (h : Facing leader follower L F next) {e : LogEntity C}
    (he : L[(next - 1).toNat]? = some e)
    (hF : F[(next - 1).toNat]?.map (·.term) = some e.term) :
    F.take next.toNat ++ L.drop next.toNat = L := by
  obtain ⟨y, hy, hterm⟩ := Option.map_eq_some_iff.mp hF
  have heq := h.matching _ e he y hy hterm.symm
  have hpos := h.pos
  rw [show (next - 1).toNat + 1 = next.toNat by omega] at heq
  rw [← heq, List.take_append_drop]

/-- Up to its boundary the follower has what the leader has. -/
theorem agree_boundary (h : Facing leader follower L F next)
    (hb : next = follower.snapshotEntriesAmount) :
    F[(next - 1).toNat]? = L[(next - 1).toNat]? := by
  have hpos := h.pos
  have hle := h.followerLog.amount_le
  obtain ⟨rest, hrest⟩ := h.covered
  have hlen := List.length_take_of_le hle
  rw [← hrest, List.getElem?_append_left (by omega), List.getElem?_take_of_lt (by omega)]

theorem boundary_le (h : Facing leader follower L F next) :
    follower.snapshotEntriesAmount ≤ L.length := by
  have hlen := h.covered.length_le
  rwa [List.length_take_of_le h.followerLog.amount_le] at hlen

/-- **The entry before `next` agrees**: the follower takes the rest. -/
theorem round_success (h : Facing leader follower L F next)
    (ha : (leader.snapshotEntriesAmount : Int) ≤ next)
    (hb : (follower.snapshotEntriesAmount : Int) ≤ next)
    (hF : F[(next - 1).toNat]?.map (·.term) = L[(next - 1).toNat]?.map (·.term)) :
    ∃ leader' follower', leader.round follower = some (leader', follower', true) ∧
      (leader.setMatch follower.me ((L.length : Int) - 1)).leaderUpdateCommit = some leader' ∧
      follower'.Represents L ∧ follower'.me = follower.me ∧
      follower'.currentTerm = leader.currentTerm ∧
      leader.commitIndex ≤ follower'.commitIndex := by
  have hpos := h.pos
  have hle := h.le_length
  rcases h.leaderLog.handleSendAppendEntries h.status h.index hpos hle with
    ⟨hlt, -⟩ | ⟨-, e, he, hsend⟩
  · omega
  rw [he] at hF
  obtain ⟨follower', happ, hrep, hci⟩ := h.followerLog.accepts
    (leader.requestFrom L next e.term)
    h.term (by rw [requestFrom_prevLogIndex]; omega) (by rw [requestFrom_prevLogIndex]; omega) hF
  obtain ⟨hme, -, hcur⟩ := appendEntriesWithLock_keeps h.term happ
  have hmatched : next - 1 + ((L.drop next.toNat).length : Int) = (L.length : Int) - 1 := by
    rw [List.length_drop]
    omega
  rcases h.leaderLog.handleAppendEntriesReply h.status h.index hle h.tables
    (leader.requestFrom L next e.term)
    { term := leader.currentTerm, success := true } with
    ⟨-, leader', hu, hrun⟩ | ⟨hs, -⟩ | ⟨hs, -⟩ | ⟨hs, -⟩
  · refine ⟨leader', follower', ?_, ?_, ?_, hme, hcur, hci⟩
    · simp [round, hsend, happ, hrun]
    · rw [← hmatched]
      exact hu
    · have hagree := h.agree he hF
      rwa [requestFrom_prevLogIndex, Int.sub_add_cancel, requestFrom_entries, hagree] at hrep
  all_goals exact absurd hs (by simp)

/-- **`next` is inside the follower's snapshot**: it jumps to the boundary. -/
theorem round_inSnapshot (h : Facing leader follower L F next)
    (ha : (leader.snapshotEntriesAmount : Int) ≤ next)
    (hb : next < (follower.snapshotEntriesAmount : Int)) :
    ∃ follower', leader.round follower = some ({ leader with
        nextIndex := leader.nextIndex.set follower.me follower.snapshotEntriesAmount },
        follower', false) ∧
      Facing { leader with
        nextIndex := leader.nextIndex.set follower.me follower.snapshotEntriesAmount }
        follower' L F follower.snapshotEntriesAmount ∧ follower'.me = follower.me ∧
      follower'.snapshotEntriesAmount = follower.snapshotEntriesAmount := by
  have hpos := h.pos
  have hle := h.le_length
  have hbL := h.boundary_le
  rcases h.leaderLog.handleSendAppendEntries h.status h.index hpos hle with
    ⟨hlt, -⟩ | ⟨-, e, he, hsend⟩
  · omega
  obtain ⟨follower', happ, hrep, -⟩ := h.followerLog.appendInSnapshot
    (leader.requestFrom L next e.term) h.term (by rw [requestFrom_prevLogIndex]; omega)
  obtain ⟨hme, ham, hcur⟩ := appendEntriesWithLock_keeps h.term happ
  rcases h.leaderLog.handleAppendEntriesReply h.status h.index hle h.tables
    (leader.requestFrom L next e.term)
    ⟨leader.currentTerm, false, true, follower.snapshotEntriesAmount⟩ with
    ⟨hs, -⟩ | ⟨-, -, hrun⟩ | ⟨-, hs, -⟩ | ⟨-, hs, -⟩
  · exact absurd hs (by simp)
  · refine ⟨follower', by simp [round, hsend, happ, hrun], ?_, hme, ham⟩
    exact (h.aim follower.snapshotEntriesAmount (by omega) (by omega)).heard hrep hme ham hcur
  all_goals exact absurd hs (by simp)

/-- **`next` is before the leader's boundary**: the snapshot is sent. -/
theorem round_behind (h : Facing leader follower L F next)
    (ha : next < (leader.snapshotEntriesAmount : Int)) :
    ∃ follower' F', leader.round follower = some ({ leader with
        nextIndex := leader.nextIndex.set follower.me leader.snapshotEntriesAmount },
        follower', false) ∧
      Facing { leader with
        nextIndex := leader.nextIndex.set follower.me leader.snapshotEntriesAmount }
        follower' L F' leader.snapshotEntriesAmount ∧ follower'.me = follower.me ∧
      leader.snapshotEntriesAmount ≤ follower'.snapshotEntriesAmount := by
  have hpos := h.pos
  have haL := h.leaderLog.amount_le
  rcases h.leaderLog.handleSendAppendEntries h.status h.index hpos h.le_length with
    ⟨-, hsend⟩ | ⟨hge, -⟩
  · have haim := h.aim leader.snapshotEntriesAmount (by omega) (by omega)
    have ha1 : 1 ≤ leader.snapshotEntriesAmount := by omega
    obtain ⟨follower', F', hrun, hfacing, hme, hle⟩ := haim.install ha1
    exact ⟨follower', F', by simp [round, hsend, hrun], hfacing, hme, hle⟩
  · omega

/-- **The entry before `next` differs**: `next` falls, or the snapshot is sent. -/
theorem round_refused (h : Facing leader follower L F next)
    (ha : (leader.snapshotEntriesAmount : Int) ≤ next)
    (hb : (follower.snapshotEntriesAmount : Int) ≤ next)
    (hF : F[(next - 1).toNat]?.map (·.term) ≠ L[(next - 1).toNat]?.map (·.term)) :
    ∃ next' follower' F', leader.round follower = some ({ leader with
        nextIndex := leader.nextIndex.set follower.me next' }, follower', false) ∧
      Facing { leader with nextIndex := leader.nextIndex.set follower.me next' } follower' L F'
        next' ∧
      follower'.me = follower.me ∧
      (((leader.snapshotEntriesAmount : Int) ≤ next' ∧ next' < next) ∨
        (next' = leader.snapshotEntriesAmount ∧
          leader.snapshotEntriesAmount ≤ follower'.snapshotEntriesAmount)) := by
  have hpos := h.pos
  have hle := h.le_length
  rcases h.leaderLog.handleSendAppendEntries h.status h.index hpos hle with
    ⟨hlt, -⟩ | ⟨-, e, he, hsend⟩
  · omega
  rw [he] at hF
  obtain ⟨follower', happ, hrep⟩ := h.followerLog.refuses
    (leader.requestFrom L next e.term)
    h.term (by rw [requestFrom_prevLogIndex]; omega) (by rw [requestFrom_prevLogIndex]; omega) hF
  obtain ⟨hme, ham, hcur⟩ := appendEntriesWithLock_keeps h.term happ
  rcases h.leaderLog.handleAppendEntriesReply h.status h.index hle h.tables
    (leader.requestFrom L next e.term) { term := leader.currentTerm, success := false } with
    ⟨hs, -⟩ | ⟨-, hs, -⟩ | ⟨-, -, hlt, -⟩ | ⟨-, -, -, next', h1, hge, hle', hrun⟩
  · exact absurd hs (by simp)
  · exact absurd hs (by simp)
  · exact absurd hlt (lt_irrefl _)
  have haL := h.leaderLog.amount_le
  have hfacing := (h.aim next' h1 (by omega)).heard hrep hme ham hcur
  by_cases hc : next' ≤ leader.snapshotEntriesAmount ∧ leader.snapshotEntriesAmount > 0
  · rw [if_pos hc] at hrun
    obtain ⟨follower'', F', hinst, hfacing', hme', hle''⟩ := hfacing.install hc.2
    exact ⟨next', follower'', F', by simp [round, hsend, happ, hrun, hinst], hfacing',
      hme'.trans hme, .inr ⟨by omega, hle''⟩⟩
  · rw [if_neg hc] at hrun
    refine ⟨next', follower', F, by simp [round, hsend, happ, hrun], hfacing, hme, .inl ⟨hge, ?_⟩⟩
    -- otherwise `next` is `1` and nothing is compacted, and the filler agrees
    by_contra hnot
    have hone : next = 1 := by omega
    have hzero : (next - 1).toNat = 0 := by omega
    rw [hzero] at he hF
    rw [← h.filler, he] at hF
    exact hF rfl

end Facing

/-! ### All rounds -/

/-- The follower has the leader's log, and the leader knows it. -/
structure CaughtUp (commitIndex : Int) (leader follower : Peer n C D) (L : List (LogEntity C)) :
    Prop where
  facing : Facing leader follower L L L.length
  matched : leader.matchIndex[follower.me.val]? = some ((L.length : Int) - 1)
  scanned : leader.leaderUpdateCommit = some leader
  commit : commitIndex ≤ follower.commitIndex

/-- At most `fuel` rounds let the follower catch up. -/
def Converges (fuel : Nat) (leader follower : Peer n C D) (L : List (LogEntity C)) : Prop :=
  ∃ leader' follower', rounds fuel leader follower = some (leader', follower', true) ∧
    follower'.me = follower.me ∧ CaughtUp leader.commitIndex leader' follower' L

theorem LogMatching.refl (L : List (LogEntity C)) : LogMatching L L :=
  fun _ _ _ _ _ _ => rfl

section rounds

variable {leader leader' follower follower' : Peer n C D} {next next' : Int} {fuel : Nat}

theorem Converges.step (hr : leader.round follower = some (leader', follower', false))
    (hc : leader'.commitIndex = leader.commitIndex) (hme : follower'.me = follower.me)
    (h : Converges fuel leader' follower' L) :
    Converges (fuel + 1) leader follower L := by
  obtain ⟨leader₁, follower₁, hrun, hme₁, hup⟩ := h
  refine ⟨leader₁, follower₁, ?_, hme₁.trans hme, hc ▸ hup⟩
  rw [rounds, hr]
  exact hrun

/-- The tables after a success. -/
theorem Facing.caughtUp (h : Facing leader follower L F next)
    (hu : (leader.setMatch follower.me ((L.length : Int) - 1)).leaderUpdateCommit = some leader')
    (hrep : follower'.Represents L) (hme : follower'.me = follower.me)
    (hcur : follower'.currentTerm = leader.currentTerm)
    (hci : leader.commitIndex ≤ follower'.commitIndex) :
    CaughtUp leader.commitIndex leader' follower' L := by
  have hlen : (leader.setMatch follower.me ((L.length : Int) - 1)).matchIndex.length = n := by
    rw [setMatch_matchIndex, List.length_set]
    exact h.tables
  have hnext := (List.getElem?_eq_some_iff.mp h.index).1
  have hmatch : follower.me.val < leader.matchIndex.length := by
    rw [h.tables]
    exact follower.me.isLt
  have hagain := leaderUpdateCommit_again hlen hu
  obtain ⟨c, hc, -⟩ := leaderUpdateCommit_eq _ hlen
  obtain rfl := Option.some.inj (hu.symm.trans hc)
  refine ⟨⟨h.status, hcur.le, h.leaderLog.congr rfl rfl rfl, hrep, rfl, .refl L,
    List.take_prefix _ _, ?_, hlen, ?_, ?_⟩, ?_, hagain, hci⟩
  · rw [hme]
    change (leader.nextIndex.set follower.me ((L.length : Int) - 1 + 1))[follower.me.val]? = _
    rw [List.getElem?_set_self hnext, Int.sub_add_cancel]
  · have := h.leaderLog.length_pos
    omega
  · change (L.length : Int) ≤ leader.getLastLogEntryIndex + 1
    rw [h.leaderLog.lastIndex]
    omega
  · rw [hme]
    exact List.getElem?_set_self hmatch

theorem Facing.converges_success (h : Facing leader follower L F next)
    (ha : (leader.snapshotEntriesAmount : Int) ≤ next)
    (hb : (follower.snapshotEntriesAmount : Int) ≤ next)
    (hF : F[(next - 1).toNat]?.map (·.term) = L[(next - 1).toNat]?.map (·.term)) :
    Converges (fuel + 1) leader follower L := by
  obtain ⟨leader', follower', hr, hu, hrep, hme, hcur, hci⟩ := h.round_success ha hb hF
  refine ⟨leader', follower', ?_, hme, h.caughtUp hu hrep hme hcur hci⟩
  rw [rounds, hr]
  rfl

/-- From inside the follower's snapshot it takes two rounds. -/
theorem Facing.converges_inSnapshot (h : Facing leader follower L F next)
    (ha : (leader.snapshotEntriesAmount : Int) ≤ next)
    (hb : next < (follower.snapshotEntriesAmount : Int)) :
    Converges (fuel + 2) leader follower L := by
  obtain ⟨follower', hr, hfacing, hme, hb'⟩ := h.round_inSnapshot ha hb
  refine Converges.step hr rfl hme (hfacing.converges_success ?_ (by rw [hb']) ?_)
  · exact ha.trans hb.le
  · rw [hfacing.agree_boundary (by rw [hb'])]

/-- So it does from the leader's boundary, if the follower's is not before it. -/
theorem Facing.converges_boundary (h : Facing leader follower L F next)
    (hnext : next = leader.snapshotEntriesAmount)
    (hab : leader.snapshotEntriesAmount ≤ follower.snapshotEntriesAmount) :
    Converges (fuel + 2) leader follower L := by
  by_cases heq : next = follower.snapshotEntriesAmount
  · exact h.converges_success hnext.ge heq.ge (by rw [h.agree_boundary heq])
  · exact h.converges_inSnapshot hnext.ge (by omega)

/-- From the leader's boundary on, `next` falls until one of these cases is reached. -/
theorem Facing.converges_above : ∀ (k : Nat) {leader follower : Peer n C D}
    {F : List (LogEntity C)} {next : Int}, Facing leader follower L F next →
    (leader.snapshotEntriesAmount : Int) ≤ next → next ≤ k →
    Converges (k + 2) leader follower L := by
  intro k
  induction k with
  | zero =>
    intro leader follower F next h _ hk
    have := h.pos
    omega
  | succ k ih =>
    intro leader follower F next h ha hk
    by_cases hb : next < (follower.snapshotEntriesAmount : Int)
    · exact h.converges_inSnapshot ha hb
    by_cases hF : F[(next - 1).toNat]?.map (·.term) = L[(next - 1).toNat]?.map (·.term)
    · exact h.converges_success ha (not_lt.mp hb) hF
    · obtain ⟨next', follower', F', hr, hfacing, hme, ⟨hge, hlt⟩ | ⟨heq, hab⟩⟩ :=
        h.round_refused ha (not_lt.mp hb) hF
      · exact Converges.step hr rfl hme (ih hfacing hge (by omega))
      · exact Converges.step hr rfl hme (hfacing.converges_boundary heq hab)

theorem Facing.converges (h : Facing leader follower L F next) :
    Converges (next.toNat + 2) leader follower L := by
  have hpos := h.pos
  by_cases ha : next < (leader.snapshotEntriesAmount : Int)
  · obtain ⟨follower', F', hr, hfacing, hme, hab⟩ := h.round_behind ha
    obtain ⟨k, hk⟩ : ∃ k, next.toNat = k + 1 := ⟨next.toNat - 1, by omega⟩
    rw [hk]
    exact Converges.step hr rfl hme (hfacing.converges_boundary rfl hab)
  · exact h.converges_above _ (not_lt.mp ha) (by omega)

/-- Once the follower has caught up a round changes the follower's `commitIndex` only. -/
theorem CaughtUp.again {commitIndex : Int} (h : CaughtUp commitIndex leader follower L) :
    ∃ follower', leader.round follower = some (leader, follower', true) ∧
      leader.commitIndex ≤ follower'.commitIndex := by
  have hf := h.facing
  have ha := hf.leaderLog.amount_le
  have hb := hf.followerLog.amount_le
  obtain ⟨leader', follower', hr, hu, -, -, -, hci⟩ := hf.round_success (by omega) (by omega) rfl
  have hsame : leader.setMatch follower.me ((L.length : Int) - 1) = leader := by
    have hnext : leader.nextIndex.set follower.me (L.length : Int) = leader.nextIndex := by
      obtain ⟨_, hget⟩ := List.getElem?_eq_some_iff.mp hf.index
      rw [← hget, List.set_getElem_self]
    have hmatch : leader.matchIndex.set follower.me ((L.length : Int) - 1) = leader.matchIndex := by
      obtain ⟨_, hget⟩ := List.getElem?_eq_some_iff.mp h.matched
      rw [← hget, List.set_getElem_self]
    rw [setMatch, Int.sub_add_cancel, hnext, hmatch]
  rw [hsame, h.scanned] at hu
  obtain rfl := Option.some.inj hu
  exact ⟨follower', hr, hci⟩

end rounds

/-- **The back-off converges.**  At most `next + 2` rounds bring a successful answer; then the
follower has the leader's log, the leader knows it, and the follower has committed what the
leader had committed when it sent the request.  The round after that tells the follower what
the answer itself has let the leader commit. -/
theorem backOff_converges (leader follower : Peer n C D) (L F : List (LogEntity C)) (next : Int)
    (h : Facing leader follower L F next) :
    ∃ leader' follower', rounds (next.toNat + 2) leader follower =
        some (leader', follower', true) ∧
      leader'.Represents L ∧ follower'.Represents L ∧
      leader'.nextIndex[follower.me.val]? = some (leader'.getLastLogEntryIndex + 1) ∧
      leader'.matchIndex[follower.me.val]? = some leader'.getLastLogEntryIndex ∧
      leader.commitIndex ≤ follower'.commitIndex ∧
      ∃ follower'', leader'.round follower' = some (leader', follower'', true) ∧
        leader'.commitIndex ≤ follower''.commitIndex := by
  obtain ⟨leader', follower', hrun, hme, hup⟩ := h.converges
  have hlast := hup.facing.leaderLog.lastIndex
  refine ⟨leader', follower', hrun, hup.facing.leaderLog, hup.facing.followerLog, ?_, ?_,
    hup.commit, hup.again⟩
  · rw [hlast, Int.sub_add_cancel, ← hme]
    exact hup.facing.index
  · rw [hlast, ← hme]
    exact hup.matched

theorem rounds_add (m : Nat) : ∀ (k : Nat) {leader follower : Peer n C D}
    {leader' follower' : Peer n C D}, rounds k leader follower = some (leader', follower', true) →
    rounds (k + m) leader follower = some (leader', follower', true) := by
  intro k
  induction k with
  | zero =>
    intro leader follower leader' follower' h
    exact absurd (congrArg (·.2.2) (Option.some.inj h)) (by simp)
  | succ k ih =>
    intro leader follower leader' follower' h
    rw [rounds] at h
    obtain ⟨⟨leader₁, follower₁, success⟩, hr, h⟩ := Option.bind_eq_some_iff.mp h
    rw [show k + 1 + m = (k + m) + 1 by omega, rounds, hr]
    cases success with
    | true => exact h
    | false => exact ih h

/-- A leader of term 3 with `[-1, 1 | 2, 3]`, what is before the bar in its snapshot. -/
def aheadLeader : Peer 3 Nat Unit :=
  { fresh 0 .makePersister with
    status := .leader
    currentTerm := 3
    logs := [⟨2, 11⟩, ⟨3, 12⟩]
    snapshotEntriesAmount := 2
    lastSnapshotTerm := 1
    commitIndex := 1
    lastApplied := 1
    nextIndex := [4, 4, 4]
    matchIndex := [-1, -1, -1] }

/-- A follower with `[-1, 1, 1, 1]`, whose last two entries the leader does not have. -/
def behindFollower : Peer 3 Nat Unit :=
  { fresh 1 .makePersister with
    currentTerm := 1
    logs := [filler, ⟨1, 10⟩, ⟨1, 20⟩, ⟨1, 21⟩] }

theorem facing_aheadLeader : Facing aheadLeader behindFollower
    [filler, ⟨1, 10⟩, ⟨2, 11⟩, ⟨3, 12⟩] [filler, ⟨1, 10⟩, ⟨1, 20⟩, ⟨1, 21⟩] 4 where
  status := rfl
  term := by decide
  leaderLog := ⟨by decide, by decide, by decide, by decide⟩
  followerLog := ⟨by decide, by decide, by decide, by decide⟩
  filler := rfl
  matching := by decide
  covered := List.nil_prefix
  index := rfl
  tables := rfl
  pos := by decide
  le := by decide

theorem backOff_converges_aheadLeader :
    ∃ leader' follower', rounds 6 aheadLeader behindFollower = some (leader', follower', true) ∧
      leader'.Represents [filler, ⟨1, 10⟩, ⟨2, 11⟩, ⟨3, 12⟩] ∧
      follower'.Represents [filler, ⟨1, 10⟩, ⟨2, 11⟩, ⟨3, 12⟩] ∧
      leader'.nextIndex[1]? = some (leader'.getLastLogEntryIndex + 1) ∧
      leader'.matchIndex[1]? = some leader'.getLastLogEntryIndex ∧
      aheadLeader.commitIndex ≤ follower'.commitIndex ∧
      ∃ follower'', leader'.round follower' = some (leader', follower'', true) ∧
        leader'.commitIndex ≤ follower''.commitIndex :=
  backOff_converges aheadLeader behindFollower _ _ 4 facing_aheadLeader

/-- **The answer may let the leader commit more** than the request has told the follower. -/
theorem aheadLeader_commits_more :
    Facing aheadLeader behindFollower [filler, ⟨1, 10⟩, ⟨2, 11⟩, ⟨3, 12⟩]
      [filler, ⟨1, 10⟩, ⟨1, 20⟩, ⟨1, 21⟩] 4 ∧
    ∀ k leader' follower', rounds k aheadLeader behindFollower = some (leader', follower', true) →
      follower'.commitIndex < leader'.commitIndex := by
  refine ⟨facing_aheadLeader, ?_⟩
  intro k leader' follower' h
  have hrun : (rounds 3 aheadLeader behindFollower).any (fun r =>
      r.2.2 && decide (r.2.1.commitIndex < r.1.commitIndex)) = true := by decide +kernel
  obtain ⟨⟨leader₁, follower₁, success⟩, hr, hlt⟩ := (Option.any_eq_true ..).mp hrun
  obtain ⟨rfl, hlt⟩ := Bool.and_eq_true_iff.mp hlt
  have h₁ := rounds_add k 3 hr
  have h₂ := rounds_add 3 k h
  rw [Nat.add_comm, h₁, Option.some.injEq, Prod.mk.injEq, Prod.mk.injEq] at h₂
  rw [← h₂.1, ← h₂.2.1]
  exact of_decide_eq_true hlt

end Peer

end ShardRaft.Raft
