import ShardRaft.Lib.Records
import ShardRaft.Raft.ElectionSafety

/-!
# The full log of a peer

A peer throws away the part of its log below its snapshot boundary.  The safety
argument is about the whole log, so each peer `u` is given a *full log* `F`, of
which `logs` is what lies above the boundary.  `PeerOk` says what is known of it
in terms of the `History` of the cluster:

* above the boundary it agrees with the leaders that wrote it, below the
  boundary and up to `commitIndex` it was committed;
* what the peer has acknowledged is still there, unless a leader was elected
  without it;
* a leader's full log is the log of its term, and every `matchIndex` it has is
  backed by an acknowledgement or lies below its boundary.

The last alternative is the failed `InstallSnapshot` call, which moves
`matchIndex` although nothing arrived.
-/

namespace ShardRaft.Raft

open ShardRaft.Lib

variable {n : Nat} {C D : Type}

/-- The history of the cluster's logs. -/
abbrev Hist (n : Nat) (C : Type) := History (Fin n) (LogEntity C)

/-- A strict majority. -/
def Quorum (q : Finset (Fin n)) : Prop := n / 2 < q.card

/-- The initial entry is of term `-1`. -/
abbrev baseTerm : Int := -1

theorem quorum_meet (q q' : Finset (Fin n)) (hq : Quorum q) (hq' : Quorum q') :
    ∃ u, u ∈ q ∧ u ∈ q' := by
  unfold Quorum at hq hq'
  have hcard : (Finset.univ : Finset (Fin n)).card < q.card + q'.card := by
    rw [Finset.card_univ, Fintype.card_fin]; omega
  obtain ⟨u, hu⟩ := Finset.inter_nonempty_of_card_lt_card_add_card (Finset.subset_univ q)
    (Finset.subset_univ q') hcard
  exact ⟨u, Finset.mem_inter.mp hu⟩

/-- What is known of peer `u` with full log `F`. -/
structure PeerOk (h : Hist n C) (u : Fin n) (F : List (LogEntity C)) (rf : Peer n C D) : Prop where
  rep : rf.logs = F.drop rf.snapshotEntriesAmount
  len : rf.snapshotEntriesAmount ≤ F.length
  ne : F ≠ []
  last : rf.lastSnapshotTerm
    = lastTerm LogEntity.term baseTerm (F.take rf.snapshotEntriesAmount)
  seg : h.SegClean LogEntity.term baseTerm rf.snapshotEntriesAmount F
  snap : h.Committed rf.currentTerm (F.take rf.snapshotEntriesAmount)
  lower : -1 ≤ rf.commitIndex
  upper : rf.commitIndex + 1 ≤ F.length
  com : h.Committed rf.currentTerm (F.take (rf.commitIndex + 1).toNat)
  nonneg : 0 ≤ rf.currentTerm
  terms : ∀ a ∈ F, a.term ≤ rf.currentTerm
  kept : ∀ T p, h.Acked LogEntity.term u T p → T ≤ rf.currentTerm ∧
    h.Kept LogEntity.term baseTerm p T rf.currentTerm F
  lead : rf.status = .leader → F = h.llog rf.currentTerm
  raised : rf.status = .leader → ∀ p, h.commits rf.currentTerm p →
    (p.length : Int) ≤ rf.commitIndex + 1
  matched : rf.status = .leader → ∀ (j : Fin n) (m : Int), rf.matchIndex[j.val]? = some m →
    m < rf.snapshotEntriesAmount ∨ ∃ k, h.acks j rf.currentTerm k ∧ m + 1 ≤ k

namespace PeerOk

variable {h : Hist n C} {u : Fin n} {F : List (LogEntity C)} {rf : Peer n C D}

/-! ### Reading the full log through the peer -/

theorem length (hp : PeerOk h u F rf) :
    rf.logs.length + rf.snapshotEntriesAmount = F.length := by
  have := hp.len
  rw [hp.rep, List.length_drop]
  omega

theorem lastIndex (hp : PeerOk h u F rf) : rf.getLastLogEntryIndex = (F.length : Int) - 1 := by
  have := hp.length
  unfold Peer.getLastLogEntryIndex
  omega

theorem lastTerm_eq (hp : PeerOk h u F rf) :
    rf.lastTerm = Lib.lastTerm LogEntity.term baseTerm F := by
  unfold Peer.lastTerm
  by_cases hlt : rf.snapshotEntriesAmount < F.length
  · have hd : rf.logs.getLast? = F.getLast? := by
      rw [hp.rep, List.getLast?_drop, if_neg (by omega)]
    rw [hd, Lib.lastTerm, List.getLast?_eq_getLast_of_ne_nil hp.ne]
    rfl
  · have hnil : rf.logs = [] := by
      rw [hp.rep]; exact List.drop_eq_nil_of_le (by omega)
    rw [hnil, hp.last, List.take_of_length_le (by omega)]
    rfl

theorem logs_get (hp : PeerOk h u F rf) {i : Nat} (hi : rf.snapshotEntriesAmount ≤ i) :
    rf.logs[i - rf.snapshotEntriesAmount]? = F[i]? := by
  rw [hp.rep, List.getElem?_drop]
  congr 1
  omega

theorem entryAt (hp : PeerOk h u F rf) {i : Int} (hi : (rf.snapshotEntriesAmount : Int) ≤ i) :
    rf.getLogEntryAtIndex i = F[i.toNat]? := by
  rw [Peer.getLogEntryAtIndex_eq, if_pos hi]
  rw [show (i - rf.snapshotEntriesAmount).toNat = i.toNat - rf.snapshotEntriesAmount by omega]
  exact hp.logs_get (by omega)

theorem termAt (hp : PeerOk h u F rf) {i t : Int} (hi : 0 ≤ i)
    (ht : rf.getLogTermAtIndex i = some t) : ∃ a, F[i.toNat]? = some a ∧ a.term = t := by
  rcases Peer.getLogTermAtIndex_eq_some ht with ⟨hb, rfl⟩ | ⟨hb, e, he, rfl⟩
  · have hlen := hp.len
    have hlt : i.toNat < F.length := by omega
    refine ⟨F[i.toNat], List.getElem?_eq_getElem hlt, ?_⟩
    rw [hp.last, Lib.lastTerm, List.getLast?_take, if_neg (by omega)]
    rw [show rf.snapshotEntriesAmount - 1 = i.toNat by omega, List.getElem?_eq_getElem hlt]
    rfl
  · refine ⟨e, ?_, rfl⟩
    rw [show (i - rf.snapshotEntriesAmount).toNat = i.toNat - rf.snapshotEntriesAmount by omega,
      hp.logs_get (by omega)] at he
    exact he

/-! ### When nothing happens to the log -/

theorem mono (hp : PeerOk h u F rf) (hs : h.Sound LogEntity.term baseTerm Quorum) {h' : Hist n C}
    (he : h.Extends h' baseTerm) (hacks : ∀ T m, h'.acks u T m → h.acks u T m)
    (hlog : rf.status = .leader → h'.llog rf.currentTerm = h.llog rf.currentTerm)
    (hcom : rf.status = .leader → ∀ p, h'.commits rf.currentTerm p →
      h.commits rf.currentTerm p) : PeerOk h' u F rf where
  rep := hp.rep
  len := hp.len
  ne := hp.ne
  last := hp.last
  seg := he.segClean le_rfl hp.seg
  snap := he.committed hp.snap
  lower := hp.lower
  upper := hp.upper
  com := he.committed hp.com
  nonneg := hp.nonneg
  terms := hp.terms
  kept := by
    intro T p ⟨hpre, hend, m, hm, hle⟩
    obtain ⟨ht, hk⟩ := hp.kept T p (hs.acked_old he hpre hend (hacks T m hm) hle)
    exact ⟨ht, he.kept le_rfl hk⟩
  lead := fun hl => (hp.lead hl).trans (hlog hl).symm
  raised := fun hl p hc => hp.raised hl p (hcom hl p hc)
  matched := by
    intro hl j m hm
    rcases hp.matched hl j m hm with h1 | ⟨k, hk, hle⟩
    · exact .inl h1
    · exact .inr ⟨k, he.acks _ _ _ hk, hle⟩

theorem settle (hp : PeerOk h u F rf) {rf' : Peer n C D} (hl : rf'.logs = rf.logs)
    (ha : rf'.snapshotEntriesAmount = rf.snapshotEntriesAmount)
    (hst : rf'.lastSnapshotTerm = rf.lastSnapshotTerm) (ht : rf.currentTerm ≤ rf'.currentTerm)
    (hc : rf'.commitIndex = rf.commitIndex ∨ rf'.commitIndex = -1)
    (hlead : rf'.status = .leader → rf.status = .leader ∧ rf'.currentTerm = rf.currentTerm ∧
      rf'.commitIndex = rf.commitIndex ∧
      ∀ (j : Fin n) (m : Int), rf'.matchIndex[j.val]? = some m →
        m < rf.snapshotEntriesAmount ∨ rf.matchIndex[j.val]? = some m) :
    PeerOk h u F rf' where
  rep := by rw [hl, ha]; exact hp.rep
  len := by rw [ha]; exact hp.len
  ne := hp.ne
  last := by rw [hst, ha]; exact hp.last
  seg := by rw [ha]; exact hp.seg
  snap := by rw [ha]; exact hp.snap.mono ht
  lower := by
    rcases hc with hc | hc
    · rw [hc]; exact hp.lower
    · omega
  upper := by
    rcases hc with hc | hc
    · rw [hc]; exact hp.upper
    · omega
  com := by
    rcases hc with hc | hc
    · rw [hc]; exact hp.com.mono ht
    · rw [hc]; exact .inl rfl
  nonneg := hp.nonneg.trans ht
  terms := fun a ha => (hp.terms a ha).trans ht
  kept := by
    intro T p hack
    obtain ⟨hT, hk⟩ := hp.kept T p hack
    exact ⟨hT.trans ht, History.Extends.refl.kept ht hk⟩
  lead := by
    intro hs
    obtain ⟨h1, h2, -, -⟩ := hlead hs
    rw [h2]; exact hp.lead h1
  raised := by
    intro hs
    obtain ⟨h1, h2, h3, -⟩ := hlead hs
    rw [h2, h3]; exact hp.raised h1
  matched := by
    intro hs j m hm
    obtain ⟨h1, h2, -, h4⟩ := hlead hs
    rw [ha, h2]
    rcases h4 j m hm with hm | hm
    · exact .inl hm
    · exact hp.matched h1 j m hm

theorem follow (hp : PeerOk h u F rf) {rf' : Peer n C D} (hl : rf'.logs = rf.logs)
    (ha : rf'.snapshotEntriesAmount = rf.snapshotEntriesAmount)
    (hst : rf'.lastSnapshotTerm = rf.lastSnapshotTerm) (ht : rf.currentTerm ≤ rf'.currentTerm)
    (hc : rf'.commitIndex = rf.commitIndex ∨ rf'.commitIndex = -1)
    (hs : rf'.status ≠ .leader) : PeerOk h u F rf' :=
  hp.settle hl ha hst ht hc fun hl => absurd hl hs

theorem same (hp : PeerOk h u F rf) {rf' : Peer n C D} (hl : rf'.logs = rf.logs)
    (ha : rf'.snapshotEntriesAmount = rf.snapshotEntriesAmount)
    (hst : rf'.lastSnapshotTerm = rf.lastSnapshotTerm) (ht : rf'.currentTerm = rf.currentTerm)
    (hc : rf'.commitIndex = rf.commitIndex) (hs : rf'.status = rf.status)
    (hm : rf'.matchIndex = rf.matchIndex) : PeerOk h u F rf' :=
  hp.settle hl ha hst ht.ge (.inl hc) fun hl => ⟨hs ▸ hl, ht, hc, fun _ _ hj => .inr (hm ▸ hj)⟩

/-! ### The service takes a snapshot -/

theorem compact (hp : PeerOk h u F rf) {index : Int} {e : LogEntity C} {rf' : Peer n C D}
    (hlo : (rf.snapshotEntriesAmount : Int) ≤ index) (hci : index ≤ rf.commitIndex)
    (he : rf.logs[(index - rf.snapshotEntriesAmount).toNat]? = some e)
    (hl : rf'.logs = rf.logs.drop (index + 1 - rf.snapshotEntriesAmount).toNat)
    (ha : rf'.snapshotEntriesAmount = (index + 1).toNat) (hst : rf'.lastSnapshotTerm = e.term)
    (ht : rf'.currentTerm = rf.currentTerm) (hc : rf'.commitIndex = rf.commitIndex)
    (hs : rf'.status = rf.status) (hm : rf'.matchIndex = rf.matchIndex) : PeerOk h u F rf' := by
  have hup := hp.upper
  have hge : F[index.toNat]? = some e := by
    rw [← hp.logs_get (show rf.snapshotEntriesAmount ≤ index.toNat by omega),
      show index.toNat - rf.snapshotEntriesAmount = (index - rf.snapshotEntriesAmount).toNat by
        omega]
    exact he
  have hpre : F.take (index + 1).toNat <+: F.take (rf.commitIndex + 1).toNat :=
    List.take_prefix_take_left (by omega)
  exact {
    rep := by
      rw [hl, ha, hp.rep, List.drop_drop]
      congr 1
      omega
    len := by rw [ha]; omega
    ne := hp.ne
    last := by
      rw [hst, ha, Lib.lastTerm, List.getLast?_take, if_neg (by omega),
        show (index + 1).toNat - 1 = index.toNat by omega, hge]
      rfl
    seg := by rw [ha]; exact History.Extends.refl.segClean (by omega) hp.seg
    snap := by
      rw [ha, ht]
      exact hp.com.shorten hpre
    lower := by rw [hc]; exact hp.lower
    upper := by rw [hc]; exact hp.upper
    com := by rw [hc, ht]; exact hp.com
    nonneg := by rw [ht]; exact hp.nonneg
    terms := by rw [ht]; exact hp.terms
    kept := by rw [ht]; exact hp.kept
    lead := by rw [hs, ht]; exact hp.lead
    raised := by rw [hs, ht, hc]; exact hp.raised
    matched := by
      rw [hs, ht, hm, ha]
      intro hs j m hj
      rcases hp.matched hs j m hj with h1 | h1
      · exact .inl (by omega)
      · exact .inr h1 }

end PeerOk

/-! ### A request of the leader -/

/-- The request is about `s`, the leader's log when it was sent. -/
structure AppendOk (h : Hist n C) (args : AppendEntriesArgs n C) (s : List (LogEntity C)) :
    Prop where
  leads : h.leads args.term
  pre : s <+: h.llog args.term
  elected : (h.elog args.term).length ≤ s.length
  prev : -1 ≤ args.prevLogIndex
  inside : (args.prevLogIndex + 1).toNat ≤ s.length
  entries : args.entries = s.drop (args.prevLogIndex + 1).toNat
  prevTerm : 0 ≤ args.prevLogIndex →
    ∃ a, s[args.prevLogIndex.toNat]? = some a ∧ a.term = args.prevLogTerm
  lower : -1 ≤ args.leaderCommit
  upper : args.leaderCommit + 1 ≤ s.length
  com : h.Committed args.term (s.take (args.leaderCommit + 1).toNat)

theorem AppendOk.mono {h h' : Hist n C} {args : AppendEntriesArgs n C} {s : List (LogEntity C)}
    (ha : AppendOk h args s) (he : h.Extends h' baseTerm) : AppendOk h' args s :=
  ⟨he.leads _ ha.leads, ha.pre.trans (he.llog _ (.inr ha.leads)),
    by rw [he.elog _ ha.leads]; exact ha.elected, ha.prev, ha.inside, ha.entries, ha.prevTerm,
    ha.lower, ha.upper, he.committed ha.com⟩

theorem AppendOk.length {h : Hist n C} {args : AppendEntriesArgs n C} {s : List (LogEntity C)}
    (ha : AppendOk h args s) : (s.length : Int) = args.prevLogIndex + 1 + args.entries.length := by
  have h1 := ha.prev
  have h2 := ha.inside
  rw [ha.entries, List.length_drop]
  omega

/-- The request is accepted, and drops entries of its own term from the receiver's
log: entries the same leader has sent since. -/
def Peer.CutsShort (rf : Peer n C D) (args : AppendEntriesArgs n C) : Prop :=
  rf.currentTerm ≤ args.term ∧ (rf.snapshotEntriesAmount : Int) ≤ args.prevLogIndex + 1 ∧
    args.prevLogIndex ≤ rf.getLastLogEntryIndex ∧
    rf.getLogTermAtIndex args.prevLogIndex = some args.prevLogTerm ∧
    ∃ e ∈ rf.logs.drop
      (args.prevLogIndex + 1 + args.entries.length - rf.snapshotEntriesAmount).toNat,
      e.term = args.term

instance (rf : Peer n C D) (args : AppendEntriesArgs n C) : Decidable (rf.CutsShort args) :=
  inferInstanceAs (Decidable (_ ∧ _ ∧ _ ∧ _ ∧ _))

namespace PeerOk

variable {h : Hist n C} {u : Fin n} {F s : List (LogEntity C)} {rf : Peer n C D}
  {args : AppendEntriesArgs n C}

/-- **Log matching at the receiver.**  Once the previous entry matches, the two
logs are the same up to there. -/
theorem agree (hp : PeerOk h u F rf) (ha : AppendOk h args s)
    (hs : h.Sound LogEntity.term baseTerm Quorum) (hc : h.Clean LogEntity.term baseTerm)
    (hle : rf.currentTerm ≤ args.term) (hne : args.prevLogIndex ≠ -1)
    (hlo : (rf.snapshotEntriesAmount : Int) ≤ args.prevLogIndex + 1)
    (hhi : args.prevLogIndex ≤ rf.getLastLogEntryIndex)
    (ht : rf.getLogTermAtIndex args.prevLogIndex = some args.prevLogTerm) :
    F.take (args.prevLogIndex + 1).toNat = s.take (args.prevLogIndex + 1).toNat := by
  have hprev := ha.prev
  have hin := ha.inside
  rw [hp.lastIndex] at hhi
  obtain ⟨a, hFa, hta⟩ := hp.termAt (by omega) ht
  obtain ⟨a', hsa, hta'⟩ := ha.prevTerm (by omega)
  have hB : F.take rf.snapshotEntriesAmount <+: h.llog args.term :=
    hs.committed_prefix hp.snap ha.leads hle
  have hLa : (h.llog args.term)[args.prevLogIndex.toNat]? = some a' := by
    have hm := (List.getElem?_eq_some_iff.mp hsa).1
    rw [(List.prefix_iff_getElem?.mp ha.pre) _ hm, ← List.getElem?_eq_getElem hm, hsa]
  obtain ⟨-, hclean⟩ := hc args.term (.inr ha.leads) _ a' hLa
  rw [hta', ← hta] at hclean
  have hlenL : args.prevLogIndex.toNat < (h.llog args.term).length :=
    (List.getElem?_eq_some_iff.mp hLa).1
  -- above the boundary both logs are the log of the leader that made the matching entry
  have hFL : F.take (args.prevLogIndex + 1).toNat <+: h.llog args.term := by
    refine prefix_of_seg (b := rf.snapshotEntriesAmount) ?_ ?_
    · rw [List.take_take, Nat.min_eq_left (by omega)]
      exact hB
    · intro j hbj hj
      rw [List.length_take] at hj
      rw [List.getElem?_take, if_pos (by omega)]
      obtain ⟨-, hagree⟩ := hp.seg args.prevLogIndex.toNat a (by omega) hFa
      rw [hagree j hbj (by omega)]
      have hlt : j < ((h.llog args.term).take (args.prevLogIndex.toNat + 1)).length := by
        rw [List.length_take]; omega
      rw [(List.prefix_iff_getElem?.mp hclean) j hlt, List.getElem_take,
        ← List.getElem?_eq_getElem]
  have hsL : s.take (args.prevLogIndex + 1).toNat <+: h.llog args.term :=
    (List.take_prefix _ _).trans ha.pre
  have hlen : (F.take (args.prevLogIndex + 1).toNat).length
      = (s.take (args.prevLogIndex + 1).toNat).length := by
    rw [List.length_take, List.length_take]
    omega
  exact (List.prefix_of_prefix_length_le hFL hsL hlen.le).eq_of_length hlen

/-- **Nothing the two logs share is cut off**, unless the request cuts short. -/
theorem covers (hp : PeerOk h u F rf) (ha : AppendOk h args s)
    (hs : h.Sound LogEntity.term baseTerm Quorum) (hle : rf.currentTerm ≤ args.term)
    (hlo : (rf.snapshotEntriesAmount : Int) ≤ args.prevLogIndex + 1)
    (hhi : args.prevLogIndex ≤ rf.getLastLogEntryIndex)
    (ht : rf.getLogTermAtIndex args.prevLogIndex = some args.prevLogTerm)
    (hcut : ¬ rf.CutsShort args) {P : List (LogEntity C)} (hF : P <+: F)
    (hL : P <+: h.llog args.term) : P.length ≤ s.length := by
  by_contra hlt
  have hlen := ha.length
  have hsP : s.length < P.length := by omega
  -- what the leader has at the end of `s` it has added since it was elected
  have hterm : P[s.length].term = args.term :=
    hs.new args.term ha.leads s.length _ ha.elected ((List.prefix_iff_getElem?.mp hL) _ hsP)
  refine hcut ⟨hle, hlo, hhi, ht, P[s.length], ?_, hterm⟩
  refine List.mem_of_getElem? (i := 0) ?_
  rw [List.getElem?_drop, ← (List.prefix_iff_getElem?.mp hF) _ hsP,
    ← hp.logs_get (show rf.snapshotEntriesAmount ≤ s.length by omega)]
  congr 1
  omega

/-- The last term of a prefix of a leader's log is at least any term in it. -/
theorem le_lastTerm (hs : h.Sound LogEntity.term baseTerm Quorum)
    (hc : h.Clean LogEntity.term baseTerm) {T T₀ : Int} (hl : h.leads T) {p l : List (LogEntity C)}
    (hlL : l <+: h.llog T) (hpl : p <+: l) (hend : EndsIn LogEntity.term T₀ p) :
    T₀ ≤ Lib.lastTerm LogEntity.term baseTerm l := by
  obtain ⟨a, ha, rfl⟩ := hend
  rw [List.getLast?_eq_getElem?] at ha
  have hpa := (List.getElem?_eq_some_iff.mp ha).1
  have hle := hpl.length_le
  have hla : l[p.length - 1]? = some a := by
    rw [(List.prefix_iff_getElem?.mp hpl) _ hpa, ← List.getElem?_eq_getElem hpa, ha]
  have hlt : l.length - 1 < l.length := by omega
  have hget : ∀ j, j < l.length → (h.llog T)[j]? = l[j]? := by
    intro j hj
    rw [(List.prefix_iff_getElem?.mp hlL) j hj, List.getElem?_eq_getElem hj]
  have hlast : l[l.length - 1]? = some l[l.length - 1] := List.getElem?_eq_getElem hlt
  rw [Lib.lastTerm, List.getLast?_eq_getElem?, hlast]
  exact hc.sorted hs (.inr hl) (show p.length - 1 ≤ l.length - 1 by omega)
    ((hget _ (by omega)).trans hla) ((hget _ hlt).trans hlast)

/-- What was committed is in both logs. -/
theorem committed_eq (hp : PeerOk h u F rf) (ha : AppendOk h args s)
    (hs : h.Sound LogEntity.term baseTerm Quorum) (hle : rf.currentTerm ≤ args.term)
    (hcov : ∀ P, P <+: F → P <+: h.llog args.term → P.length ≤ s.length) :
    F.take (rf.commitIndex + 1).toNat = s.take (rf.commitIndex + 1).toNat := by
  have hcomL : F.take (rf.commitIndex + 1).toNat <+: h.llog args.term :=
    hs.committed_prefix hp.com ha.leads hle
  have hlen := hcov _ (List.take_prefix _ _) hcomL
  have hpre : F.take (rf.commitIndex + 1).toNat <+: s :=
    List.prefix_of_prefix_length_le hcomL ha.pre hlen
  have hup := hp.upper
  rw [List.length_take, Nat.min_eq_left (by omega)] at hlen
  have heq : (F.take (rf.commitIndex + 1).toNat).length
      = (s.take (rf.commitIndex + 1).toNat).length := by
    rw [List.length_take, List.length_take]
    omega
  exact (List.prefix_of_prefix_length_le hpre (List.take_prefix _ _) heq.le).eq_of_length heq

/-- What the receiver has of an older leader is in the new log, or lost for good. -/
theorem kept_of_covers (ha : AppendOk h args s) (hs : h.Sound LogEntity.term baseTerm Quorum)
    (hc : h.Clean LogEntity.term baseTerm)
    (hcov : ∀ P, P <+: F → P <+: h.llog args.term → P.length ≤ s.length) {T : Int}
    {p : List (LogEntity C)} (hpL : p <+: h.llog T) (hend : EndsIn LogEntity.term T p)
    (hpF : p <+: F) (hT : T ≤ args.term) :
    h.Kept LogEntity.term baseTerm p T args.term s := by
  have hcase : p <+: h.llog args.term ∨ h.Lost p T args.term := by
    by_cases heq : T = args.term
    · exact .inl (heq ▸ hpL)
    · by_cases hpe : p <+: h.elog args.term
      · exact .inl (hpe.trans (hs.grows _ ha.leads))
      · exact .inr ⟨args.term, by omega, le_rfl, ha.leads, hpe⟩
  rcases hcase with hpl | hlost
  · have hps : p <+: s := List.prefix_of_prefix_length_le hpl ha.pre (hcov p hpF hpl)
    exact .inl ⟨hps, le_lastTerm hs hc ha.leads ha.pre hps hend⟩
  · exact .inr hlost

/-- **An accepted request** gives the receiver the leader's log as it was sent,
and an acknowledgement that is kept. -/
theorem accept (hp : PeerOk h u F rf) (ha : AppendOk h args s)
    (hs : h.Sound LogEntity.term baseTerm Quorum) (hc : h.Clean LogEntity.term baseTerm)
    (hle : rf.currentTerm ≤ args.term) (hne : args.prevLogIndex ≠ -1)
    (hlo : (rf.snapshotEntriesAmount : Int) ≤ args.prevLogIndex + 1)
    (hhi : args.prevLogIndex ≤ rf.getLastLogEntryIndex)
    (ht : rf.getLogTermAtIndex args.prevLogIndex = some args.prevLogTerm)
    (hcut : ¬ rf.CutsShort args) :
    PeerOk (h.addAck u args.term s.length) u s (rf.overwrite args) ∧
      ∀ i : Nat, (i : Int) ≤ rf.commitIndex → s[i]? = F[i]? := by
  have hagree := hp.agree ha hs hc hle hne hlo hhi ht
  have hprev := ha.prev
  have hin := ha.inside
  have he : h.Extends (h.addAck u args.term s.length) baseTerm := History.extends_addAck ..
  have htakeB : F.take rf.snapshotEntriesAmount = s.take rf.snapshotEntriesAmount := by
    have hcong := congrArg (List.take rf.snapshotEntriesAmount) hagree
    rwa [List.take_take, List.take_take, Nat.min_eq_left (by omega)] at hcong
  have hcov : ∀ P, P <+: F → P <+: h.llog args.term → P.length ≤ s.length :=
    fun P => hp.covers ha hs hle hlo hhi ht hcut
  have hcomS := hp.committed_eq ha hs hle hcov
  have hlow := hp.lower
  have hupS : rf.commitIndex + 1 ≤ s.length := by
    have hup := hp.upper
    have hlen := congrArg List.length hcomS
    rw [List.length_take, List.length_take] at hlen
    omega
  have hci : (rf.overwrite args).commitIndex
      = if rf.commitIndex < args.leaderCommit then args.leaderCommit else rf.commitIndex := rfl
  refine ⟨?_, ?_⟩
  · exact {
      rep := by
        change rf.logs.take (args.prevLogIndex + 1 - rf.snapshotEntriesAmount).toNat ++ args.entries
          = s.drop rf.snapshotEntriesAmount
        rw [hp.rep, ha.entries,
          show (args.prevLogIndex + 1 - rf.snapshotEntriesAmount).toNat
            = (args.prevLogIndex + 1).toNat - rf.snapshotEntriesAmount by omega]
        exact take_drop_append_drop (by omega) hagree
      len := by change rf.snapshotEntriesAmount ≤ s.length; omega
      ne := by
        intro hnil
        rw [hnil] at hin
        simp at hin
        omega
      last := by
        change rf.lastSnapshotTerm = _
        rw [hp.last, htakeB]
        rfl
      seg := he.segClean le_rfl (hc.segClean (.inr ha.leads) ha.pre _)
      snap := by
        have hsn := he.committed (hp.snap.mono hle)
        rw [htakeB] at hsn
        exact hsn
      lower := by
        rw [hci]
        split
        · exact ha.lower
        · exact hlow
      upper := by
        rw [hci]
        split
        · exact ha.upper
        · exact hupS
      com := by
        rw [hci]
        split
        · exact he.committed ha.com
        · rw [← hcomS]; exact he.committed (hp.com.mono hle)
      nonneg := hp.nonneg.trans hle
      terms := by
        intro a hmem
        obtain ⟨j, hj, rfl⟩ := List.getElem_of_mem hmem
        exact hs.le_term ha.leads ((List.prefix_iff_getElem?.mp ha.pre) j hj)
      kept := by
        intro T p ⟨hpL, hend, m, hm, hlen⟩
        rcases hm with hm | ⟨-, rfl, rfl⟩
        · have hack : h.Acked LogEntity.term u T p := ⟨hpL, hend, m, hm, hlen⟩
          obtain ⟨hT, hk⟩ := hp.kept T p hack
          refine ⟨hT.trans hle, he.kept le_rfl ?_⟩
          rcases hk with ⟨hpF, -⟩ | hlost
          · exact kept_of_covers ha hs hc hcov hpL hend hpF (hT.trans hle)
          · exact .inr ((History.Extends.refl : h.Extends h baseTerm).lost hle hlost)
        · have hps : p <+: s := List.prefix_of_prefix_length_le hpL ha.pre hlen
          exact ⟨le_rfl, .inl ⟨hps, le_lastTerm hs hc ha.leads ha.pre hps hend⟩⟩
      lead := fun hl => absurd hl (by simp [Peer.overwrite])
      raised := fun hl => absurd hl (by simp [Peer.overwrite])
      matched := fun hl => absurd hl (by simp [Peer.overwrite]) }
  · intro i hi
    have hFi : (F.take (rf.commitIndex + 1).toNat)[i]? = F[i]? := by
      rw [List.getElem?_take, if_pos (by omega)]
    have hsi : (s.take (rf.commitIndex + 1).toNat)[i]? = s[i]? := by
      rw [List.getElem?_take, if_pos (by omega)]
    rw [← hsi, ← hFi, hcomS]

end PeerOk

/-! ### A snapshot from another peer -/

/-- The request carries a snapshot of `B`. -/
structure InstallOk (h : Hist n C) (args : InstallSnapshotArgs n D) (B : List (LogEntity C)) :
    Prop where
  com : h.Committed args.term B
  index : (B.length : Int) = args.lastIncludedIndex + 1
  term : args.lastIncludedTerm = lastTerm LogEntity.term baseTerm B

theorem InstallOk.mono {h h' : Hist n C} {args : InstallSnapshotArgs n D} {B : List (LogEntity C)}
    (hi : InstallOk h args B) (he : h.Extends h' baseTerm) : InstallOk h' args B :=
  ⟨he.committed hi.com, hi.index, hi.term⟩

namespace PeerOk

variable {h : Hist n C} {u : Fin n} {F B : List (LogEntity C)} {rf : Peer n C D}

theorem splice_get {i : Nat} (hi : B.length ≤ i) : (B ++ F.drop B.length)[i]? = F[i]? := by
  rw [List.getElem?_append_right hi, List.getElem?_drop]
  congr 1
  omega

theorem splice_eq (hB : B <+: F) : B ++ F.drop B.length = F := by
  obtain ⟨t, rfl⟩ := hB
  rw [List.drop_left]

/-- What was acknowledged in term `T` and what was committed stand in one log,
unless the acknowledged entries are lost. -/
theorem common_log (hs : h.Sound LogEntity.term baseTerm Quorum) {T t : Int}
    {p : List (LogEntity C)} (hlT : h.leads T) (hpL : p <+: h.llog T) (hB : h.Committed t B)
    (hne : B ≠ []) :
    (∃ T', h.leads T' ∧ p <+: h.llog T' ∧ B <+: h.llog T') ∨ h.Lost p T t := by
  rcases hB with hnil | ⟨Tc, pc, hc, hTc, hBp⟩
  · exact absurd hnil hne
  have hlc : h.leads Tc := (hs.commit Tc pc hc).1
  by_cases hlt : T < Tc
  · by_cases hpe : p <+: h.elog Tc
    · exact .inl ⟨Tc, hlc, hpe.trans (hs.grows Tc hlc),
        hs.committed_prefix (.inr ⟨Tc, pc, hc, le_rfl, hBp⟩) hlc le_rfl⟩
    · exact .inr ⟨Tc, hlt, hTc, hlc, hpe⟩
  · exact .inl ⟨T, hlT, hpL, hs.committed_prefix (.inr ⟨Tc, pc, hc, le_rfl, hBp⟩) hlT (by omega)⟩

/-- What is committed stays so under a committed snapshot. -/
theorem committed_splice (hs : h.Sound LogEntity.term baseTerm Quorum) {t : Int} {m : Nat}
    (hB : h.Committed t B) (hF : h.Committed t (F.take m)) (hm : m ≤ F.length) :
    h.Committed t ((B ++ F.drop B.length).take m) := by
  by_cases hlen : m ≤ B.length
  · rw [List.take_append_of_le_length hlen]
    exact hB.shorten (List.take_prefix _ _)
  · -- the boundary lies inside what is committed, so nothing is replaced
    have hBF : B <+: F := by
      rcases hs.committed_comparable hB hF with h1 | h1
      · exact h1.trans (List.take_prefix _ _)
      · have := h1.length_le
        rw [List.length_take] at this
        omega
    rw [splice_eq hBF]
    exact hF

/-- What was acknowledged stays under a committed snapshot, or is lost for good. -/
theorem kept_splice (hs : h.Sound LogEntity.term baseTerm Quorum)
    (hc : h.Clean LogEntity.term baseTerm) {T t : Int} {p : List (LogEntity C)} (hlT : h.leads T)
    (hpL : p <+: h.llog T) (hend : EndsIn LogEntity.term T p) (hB : h.Committed t B)
    (hne : B ≠ []) (hpF : p <+: F) (hlast : T ≤ Lib.lastTerm LogEntity.term baseTerm F) :
    h.Kept LogEntity.term baseTerm p T t (B ++ F.drop B.length) := by
  rcases common_log hs hlT hpL hB hne with ⟨T', hl', hp', hB'⟩ | hlost
  · rcases List.prefix_or_prefix_of_prefix hp' hB' with hpB | hBp
    · refine .inl ⟨hpB.trans (List.prefix_append _ _), ?_⟩
      by_cases hd : F.drop B.length = []
      · rw [hd, List.append_nil]
        exact le_lastTerm hs hc hl' hB' hpB hend
      · have hsame : (B ++ F.drop B.length).getLast? = F.getLast? := by
          rw [List.getLast?_append_of_ne_nil _ hd, List.getLast?_drop, if_neg]
          intro hge
          exact hd (List.drop_eq_nil_of_le hge)
        rw [Lib.lastTerm, hsame]
        exact hlast
    · rw [splice_eq (hBp.trans hpF)]
      exact .inl ⟨hpF, hlast⟩
  · exact .inr hlost

/-- **An installed snapshot** replaces the log up to its end and leaves the rest
as it was, even if the two do not belong together. -/
theorem install (hp : PeerOk h u F rf) {args : InstallSnapshotArgs n D} (hi : InstallOk h args B)
    (hs : h.Sound LogEntity.term baseTerm Quorum) (hc : h.Clean LogEntity.term baseTerm)
    (hle : rf.currentTerm ≤ args.term)
    (hlo : (rf.snapshotEntriesAmount : Int) ≤ args.lastIncludedIndex) {rf' : Peer n C D}
    (hl : rf'.logs = rf.logs.drop (args.lastIncludedIndex + 1 - rf.snapshotEntriesAmount).toNat)
    (ha : rf'.snapshotEntriesAmount = (args.lastIncludedIndex + 1).toNat)
    (hst : rf'.lastSnapshotTerm = args.lastIncludedTerm) (ht : rf'.currentTerm = args.term)
    (hci : rf'.commitIndex = rf.commitIndex) (hf : rf'.status ≠ .leader) :
    PeerOk h u (B ++ F.drop B.length) rf' := by
  have hidx := hi.index
  have hlow := hp.lower
  have hup := hp.upper
  have hamount : rf'.snapshotEntriesAmount = B.length := by rw [ha]; omega
  have hpos : B ≠ [] := by
    intro hnil
    rw [hnil] at hidx
    simp at hidx
    omega
  have htake : (B ++ F.drop B.length).take B.length = B := List.take_left
  exact {
    rep := by
      rw [hl, hamount, hp.rep, List.drop_drop, List.drop_left]
      congr 1
      omega
    len := by rw [hamount, List.length_append]; omega
    ne := by simp [hpos]
    last := by rw [hst, hamount, htake]; exact hi.term
    seg := by
      rw [hamount]
      intro m a hm ha'
      rw [splice_get hm] at ha'
      obtain ⟨ho, hagree⟩ := hp.seg m a (by omega) ha'
      refine ⟨ho, ?_⟩
      intro j hj hjm
      rw [splice_get hj]
      exact hagree j (by omega) hjm
    snap := by rw [ht, hamount, htake]; exact hi.com
    lower := by rw [hci]; exact hlow
    upper := by
      rw [hci, List.length_append, List.length_drop]
      omega
    com := by
      rw [hci, ht]
      exact committed_splice hs hi.com (hp.com.mono hle) (by omega)
    nonneg := by rw [ht]; exact hp.nonneg.trans hle
    terms := by
      rw [ht]
      intro a hmem
      rcases List.mem_append.mp hmem with hmem | hmem
      · rcases hi.com with hnil | ⟨Tc, pc, hcc, hTc, hBp⟩
        · exact absurd hnil hpos
        · obtain ⟨j, hj, rfl⟩ := List.getElem_of_mem hmem
          have hget := (List.prefix_iff_getElem?.mp hBp) j hj
          exact (hs.commit_le_term hcc hget).trans hTc
      · exact (hp.terms a (List.mem_of_mem_drop hmem)).trans hle
    kept := by
      rw [ht]
      intro T p hack
      obtain ⟨hT, hk⟩ := hp.kept T p hack
      refine ⟨hT.trans hle, ?_⟩
      obtain ⟨hpL, hend, m, hm, -⟩ := hack
      rcases hk with ⟨hpF, hlast⟩ | hlost
      · exact kept_splice hs hc (hs.ack u T m hm).1 hpL hend hi.com hpos hpF hlast
      · exact .inr ((History.Extends.refl : h.Extends h baseTerm).lost hle hlost)
    lead := fun hs => absurd hs hf
    raised := fun hs => absurd hs hf
    matched := fun hs => absurd hs hf }

/-! ### The leader -/

theorem start (hp : PeerOk h u F rf) (hs : h.Sound LogEntity.term baseTerm Quorum)
    (hl : rf.status = .leader) (hlead : h.leads rf.currentTerm) (command : C) :
    PeerOk (h.addEntry rf.currentTerm ⟨rf.currentTerm, command⟩) u
      (F ++ [⟨rf.currentTerm, command⟩]) (rf.appendToLogEntries command).persist := by
  have he : h.Extends (h.addEntry rf.currentTerm ⟨rf.currentTerm, command⟩) baseTerm :=
    History.extends_addEntry ..
  have hF := hp.lead hl
  have hlen := hp.len
  have hup := hp.upper
  exact {
    rep := by
      change rf.logs ++ [_] = (F ++ [_]).drop rf.snapshotEntriesAmount
      rw [hp.rep, List.drop_append_of_le_length hlen]
    len := by
      change rf.snapshotEntriesAmount ≤ _
      rw [List.length_append]
      omega
    ne := by simp
    last := by
      change rf.lastSnapshotTerm = Lib.lastTerm _ _ ((F ++ [_]).take rf.snapshotEntriesAmount)
      rw [List.take_append_of_le_length hlen]
      exact hp.last
    seg := by
      intro m a hm ha
      by_cases hlt : m < F.length
      · rw [List.getElem?_append_left hlt] at ha
        obtain ⟨ho, hagree⟩ := he.segClean le_rfl hp.seg m a hm ha
        refine ⟨ho, ?_⟩
        intro j hj hjm
        rw [List.getElem?_append_left (by omega)]
        exact hagree j hj hjm
      · rw [List.getElem?_append_right (by omega)] at ha
        have hmem := List.mem_of_getElem? ha
        rw [List.mem_singleton.mp hmem]
        refine ⟨.inr hlead, ?_⟩
        intro j _ _
        rw [History.addEntry_llog_self, ← hF]
    snap := by
      change History.Committed _ rf.currentTerm ((F ++ [_]).take rf.snapshotEntriesAmount)
      rw [List.take_append_of_le_length hlen]
      exact he.committed hp.snap
    lower := hp.lower
    upper := by
      change rf.commitIndex + 1 ≤ _
      rw [List.length_append]
      omega
    com := by
      change History.Committed _ rf.currentTerm ((F ++ [_]).take (rf.commitIndex + 1).toNat)
      rw [List.take_append_of_le_length (by omega)]
      exact he.committed hp.com
    nonneg := hp.nonneg
    terms := by
      intro a hmem
      rcases List.mem_append.mp hmem with hmem | hmem
      · exact hp.terms a hmem
      · rw [List.mem_singleton.mp hmem]; exact le_rfl
    kept := by
      intro T p ⟨hpre, hend, m, hm, hle⟩
      obtain ⟨hT, hk⟩ := hp.kept T p (hs.acked_old he hpre hend hm hle)
      refine ⟨hT, he.kept le_rfl ?_⟩
      rcases hk with ⟨hpF, -⟩ | hlost
      · refine .inl ⟨hpF.trans (List.prefix_append _ _), ?_⟩
        rw [lastTerm_concat]
        exact hT
      · exact .inr hlost
    lead := by
      intro _
      rw [hF]
      exact (History.addEntry_llog_self ..).symm
    raised := fun _ => hp.raised hl
    matched := fun _ => hp.matched hl }

theorem setMatch (hp : PeerOk h u F rf) {server : Fin n} {m : Int}
    (hm : m < rf.snapshotEntriesAmount ∨ ∃ k, h.acks server rf.currentTerm k ∧ m + 1 ≤ k) :
    PeerOk h u F (rf.setMatch server m) where
  rep := hp.rep
  len := hp.len
  ne := hp.ne
  last := hp.last
  seg := hp.seg
  snap := hp.snap
  lower := hp.lower
  upper := hp.upper
  com := hp.com
  nonneg := hp.nonneg
  terms := hp.terms
  kept := hp.kept
  lead := hp.lead
  raised := hp.raised
  matched := by
    intro hl j k hk
    change (rf.matchIndex.set server m)[j.val]? = some k at hk
    rw [List.getElem?_set] at hk
    split at hk
    · rename_i heq
      split at hk
      · rw [← Option.some.inj hk, ← Fin.ext heq]
        exact hm
      · exact absurd hk (by simp)
    · exact hp.matched hl j k hk

/-- The peers that `leaderUpdateCommit` has counted. -/
def counters (rf : Peer n C D) (i : Int) : Finset (Fin n) :=
  insert rf.me (((Peer.others rf.me).filter (rf.counts i)).toFinset)

theorem mem_counters {i : Int} {j : Fin n} :
    j ∈ counters rf i ↔ j = rf.me ∨ rf.counts i j = true := by
  unfold counters Peer.others
  rw [Finset.mem_insert, List.mem_toFinset, List.mem_filter, List.mem_filter]
  by_cases hj : j = rf.me
  · simp [hj]
  · simp [hj]

theorem card_counters {i : Int} :
    (counters rf i).card = 1 + (Peer.others rf.me).countP (rf.counts i) := by
  have hnd : ((Peer.others rf.me).filter (rf.counts i)).Nodup :=
    ((List.nodup_finRange n).filter _).filter _
  have hnot : rf.me ∉ ((Peer.others rf.me).filter (rf.counts i)).toFinset := by
    intro hmem
    rw [List.mem_toFinset] at hmem
    have := (List.mem_filter.mp (List.mem_filter.mp hmem).1).2
    simp at this
  unfold counters
  rw [Finset.card_insert_of_notMem hnot, List.toFinset_card_of_nodup hnd,
    List.countP_eq_length_filter, Nat.add_comm]

theorem quorum_counters {i : Int} {count : Nat} (hc : rf.commitCount i = some count)
    (hq : n / 2 < count) : Quorum (counters rf i) := by
  rw [Peer.commitCount_eq_some hc, ← card_counters] at hq
  exact hq

/-- Whoever is counted for index `i` has acknowledged it; the leader has its own log. -/
theorem acks_of_counter (hp : PeerOk h u F rf) (hme : rf.me = u) (hl : rf.status = .leader)
    {i : Int} (hlo : (rf.snapshotEntriesAmount : Int) ≤ i) (hiF : i + 1 ≤ F.length) {j : Fin n}
    (hj : j ∈ counters rf i) : ∃ k,
      (h.addAck u rf.currentTerm F.length).acks j rf.currentTerm k ∧ i + 1 ≤ k := by
  rcases Finset.mem_insert.mp hj with rfl | hj
  · exact ⟨F.length, .inr ⟨hme, rfl, rfl⟩, hiF⟩
  · rw [List.mem_toFinset] at hj
    obtain ⟨m, hm, hle⟩ : ∃ m, rf.matchIndex[j.val]? = some m ∧ i ≤ m := by
      obtain ⟨m, hm, hle⟩ := (Option.any_eq_true ..).mp (List.mem_filter.mp hj).2
      exact ⟨m, hm, of_decide_eq_true hle⟩
    rcases hp.matched hl j m hm with hb | ⟨k, hk, hmk⟩
    · omega
    · exact ⟨k, .inl hk, by omega⟩

/-- **What a leader commits is acknowledged by a majority.** -/
theorem commit (hp : PeerOk h u F rf) (hs : h.Sound LogEntity.term baseTerm Quorum)
    (hc : h.Clean LogEntity.term baseTerm) (hme : rf.me = u) (hl : rf.status = .leader)
    (hlead : h.leads rf.currentTerm) (hv : ∀ t, h.voted u t → t < rf.currentTerm) {i : Int}
    (hlt : rf.commitIndex < i) (hcm : rf.Commits i) :
    ((h.addAck u rf.currentTerm F.length).addCommit rf.currentTerm
        (F.take (i + 1).toNat)).Sound LogEntity.term baseTerm Quorum ∧
      PeerOk ((h.addAck u rf.currentTerm F.length).addCommit rf.currentTerm
        (F.take (i + 1).toNat)) u F { rf with commitIndex := i } ∧
      ∀ j ∈ counters rf i, ∃ k,
        (h.addAck u rf.currentTerm F.length).acks j rf.currentTerm k ∧ i + 1 ≤ k := by
  obtain ⟨hlo, ⟨e, he, heT⟩, count, hcount, hq⟩ := hcm
  have hF := hp.lead hl
  have hlen := hp.length
  have hlow := hp.lower
  have hFe : F[i.toNat]? = some e := by
    rw [← hp.logs_get (show rf.snapshotEntriesAmount ≤ i.toNat by omega),
      show i.toNat - rf.snapshotEntriesAmount = (i - rf.snapshotEntriesAmount).toNat by omega]
    exact he
  have hiF : i.toNat < F.length := (List.getElem?_eq_some_iff.mp hFe).1
  have htl : (F.take (i + 1).toNat).length = (i + 1).toNat := by rw [List.length_take]; omega
  have hpre : F.take (i + 1).toNat <+: h.llog rf.currentTerm := by
    rw [← hF]; exact List.take_prefix _ _
  have hend : EndsIn LogEntity.term rf.currentTerm (F.take (i + 1).toNat) := by
    refine ⟨e, ?_, heT⟩
    rw [List.getLast?_take, if_neg (by omega), show (i + 1).toNat - 1 = i.toNat by omega, hFe]
    rfl
  have he₁ : h.Extends (h.addAck u rf.currentTerm F.length) baseTerm := History.extends_addAck ..
  have hs₁ : (h.addAck u rf.currentTerm F.length).Sound LogEntity.term baseTerm Quorum :=
    History.sound_addAck hs hlead (by rw [hF]) hv
  have hacks : ∀ j ∈ counters rf i, ∃ k,
      (h.addAck u rf.currentTerm F.length).acks j rf.currentTerm k ∧ i + 1 ≤ k := by
    intro j hj
    exact hp.acks_of_counter hme hl hlo (by omega) hj
  have hacked : ∀ j ∈ counters rf i,
      (h.addAck u rf.currentTerm F.length).Acked LogEntity.term j rf.currentTerm
        (F.take (i + 1).toNat) := by
    intro j hj
    obtain ⟨k, hk, hik⟩ := hacks j hj
    exact ⟨hpre, hend, k, hk, by rw [htl]; omega⟩
  have hs₂ : ((h.addAck u rf.currentTerm F.length).addCommit rf.currentTerm
      (F.take (i + 1).toNat)).Sound LogEntity.term baseTerm Quorum :=
    History.sound_addCommit hs₁ hlead (quorum_counters hcount hq) hacked
  have he₂ : (h.addAck u rf.currentTerm F.length).Extends
      ((h.addAck u rf.currentTerm F.length).addCommit rf.currentTerm (F.take (i + 1).toNat))
      baseTerm := History.extends_addCommit ..
  refine ⟨hs₂, ?_, hacks⟩
  exact {
    rep := hp.rep
    len := hp.len
    ne := hp.ne
    last := hp.last
    seg := he₂.segClean le_rfl (he₁.segClean le_rfl hp.seg)
    snap := he₂.committed (he₁.committed hp.snap)
    lower := by change -1 ≤ i; omega
    upper := by change i + 1 ≤ F.length; omega
    com := .inr ⟨rf.currentTerm, _, .inr ⟨rfl, rfl⟩, le_rfl, List.prefix_rfl⟩
    nonneg := hp.nonneg
    terms := hp.terms
    kept := by
      intro T p ⟨hpL, hendp, m, hm, hle⟩
      rcases hm with hm | ⟨-, rfl, rfl⟩
      · obtain ⟨hT, hk⟩ := hp.kept T p ⟨hpL, hendp, m, hm, hle⟩
        exact ⟨hT, he₂.kept le_rfl (he₁.kept le_rfl hk)⟩
      · -- the leader's own entries
        have hpF : p <+: F := by rw [hF]; exact hpL
        refine ⟨le_rfl, .inl ⟨hpF, ?_⟩⟩
        exact le_lastTerm hs hc hlead (by rw [hF]) hpF hendp
    lead := hp.lead
    raised := by
      intro _ p hcp
      rcases hcp with hcp | ⟨-, rfl⟩
      · have hold := hp.raised hl p hcp
        change (p.length : Int) ≤ i + 1
        omega
      · rw [htl]
        change (((i + 1).toNat : Nat) : Int) ≤ i + 1
        omega
    matched := by
      intro _ j m hm
      rcases hp.matched hl j m hm with hb | ⟨k, hk, hmk⟩
      · exact .inl hb
      · exact .inr ⟨k, .inl hk, hmk⟩ }

theorem win (hp : PeerOk h u F rf) (hs : h.Sound LogEntity.term baseTerm Quorum) {h' : Hist n C}
    (he : h.Extends h' baseTerm) (hacks : ∀ T m, h'.acks u T m → h.acks u T m)
    (hlog : h'.llog (rf.currentTerm + 1) = F)
    (hcom : ∀ p, ¬ h'.commits (rf.currentTerm + 1) p) : PeerOk h' u F rf.becomeLeader.1 := by
  have hle : rf.currentTerm ≤ rf.currentTerm + 1 := Int.le_add_one le_rfl
  exact {
    rep := hp.rep
    len := hp.len
    ne := hp.ne
    last := hp.last
    seg := he.segClean le_rfl hp.seg
    snap := (he.committed hp.snap).mono hle
    lower := hp.lower
    upper := hp.upper
    com := (he.committed hp.com).mono hle
    nonneg := hp.nonneg.trans hle
    terms := fun a ha => (hp.terms a ha).trans hle
    kept := by
      intro T p ⟨hpre, hend, m, hm, hlen⟩
      obtain ⟨ht, hk⟩ := hp.kept T p (hs.acked_old he hpre hend (hacks T m hm) hlen)
      exact ⟨ht.trans hle, he.kept hle hk⟩
    lead := fun _ => hlog.symm
    raised := fun _ p hc => absurd hc (hcom p)
    matched := by
      intro _ j m hm
      change (List.replicate n (-1 : Int))[j.val]? = some m at hm
      have hmem := List.mem_of_getElem? hm
      rw [List.eq_of_mem_replicate hmem]
      exact .inl (by omega) }

end PeerOk

end ShardRaft.Raft
