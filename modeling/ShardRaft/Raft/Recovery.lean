import ShardRaft.Lib.Trace
import ShardRaft.Raft.Sections

/-!
# Crash recovery

About a dozen sections of the source change one of the five persistent fields,
some through helpers that persist and some through helpers that do not.  This
file says that none of them forgets to: whenever `rf.mu` is free, `Make` on the
stored state gives back exactly the fields in memory (`Recovers`).

The sections are collected in `Section`, one constructor each, and a peer may
run them in any order on any arguments (`Peer.runSection`).  What a section can do
is said once (`ran_section`), and two facts that follow from it carry everything:

* `recovers_section`: it ends with the store and the memory in step;
* `grows_section`: each single write it makes has a term and a boundary that
  are at least the old ones, and the bytes stored with a boundary are the ones
  supplied for it.

The second one is about every write, so a process that dies in the middle of a
section is covered as well: `LifeEvent.crashInside` restarts from any of the writes the
section has made.
-/

namespace ShardRaft.Raft

open ShardRaft.Lib

/-- The sections of the source that run under `rf.mu`. -/
inductive Section (n : Nat) (C D : Type)
  | ticker (timedOut : Bool)
  | start (command : C)
  | snapshot (index : Int) (data : D)
  | requestVote (args : RequestVoteArgs n)
  | requestVoteReply (reply : RequestVoteReply)
  | appendEntries (args : AppendEntriesArgs n C)
  | sendAppendEntries (server : Fin n)
  | appendEntriesReply (server : Fin n) (args : AppendEntriesArgs n C) (reply : AppendEntriesReply)
  | installSnapshot (args : InstallSnapshotArgs n D)
  | installSnapshotReply (reply : InstallSnapshotReply)
  | installSnapshotFailure (server : Fin n) (args : InstallSnapshotArgs n D)
  | commitToApplyChannel
deriving DecidableEq, Repr

namespace Peer

variable {n : Nat} {C D : Type}

/-- The peer after a section; `none` where the process aborts. -/
def runSection (rf : Peer n C D) : Section n C D → Option (Peer n C D)
  | .ticker timedOut => some (rf.ticker timedOut).1
  | .start command => some (rf.start command).1
  | .snapshot index data => rf.snapshot index data
  | .requestVote args => (rf.requestVote args).map (·.1)
  | .requestVoteReply reply => some (rf.handleRequestVoteReply reply).1
  | .appendEntries args => (rf.appendEntriesWithLock args).map (·.1)
  | .sendAppendEntries server => (rf.handleSendAppendEntries server).map (·.1)
  | .appendEntriesReply server args reply =>
    (rf.handleAppendEntriesReply server args reply).map (·.1)
  | .installSnapshot args => (rf.installSnapshotLocked args).map (·.1)
  | .installSnapshotReply reply => some (rf.handleInstallSnapshotReply reply)
  | .installSnapshotFailure server args => rf.handleInstallSnapshotFailure server args
  | .commitToApplyChannel => rf.commitToApplyChannelWithLock.map (·.1)

/-- The boundary and the bytes a section supplies for it. -/
def supplies : Section n C D → Option (Nat × Option D)
  | .snapshot index data => some ((index + 1).toNat, some data)
  | .installSnapshot args => some ((args.lastIncludedIndex + 1).toNat, args.data)
  | _ => none

/-! ### The store and the memory -/

/-- `Make` on the stored state gives back the five persistent fields. -/
def Recovers [Inhabited C] (rf : Peer n C D) : Prop :=
  (make rf.me rf.persister).getPersistData = rf.getPersistData

variable [Inhabited C]

theorem recovers_of_raftstate {rf : Peer n C D}
    (h : rf.persister.raftstate = some rf.getPersistData) : rf.Recovers := by
  simp [Recovers, make, h, readPersist, getPersistData]

theorem recovers_make (me : Fin n) (ps : Persister n C D) : (make me ps).Recovers := by
  cases h : ps.raftstate with
  | none => simp [Recovers, make, h, readPersist, fresh]
  | some d => simp [Recovers, make, h, readPersist, fresh]

/-- Only the persister and the five fields matter. -/
theorem Recovers.congr {rf rf' : Peer n C D} (h : rf.Recovers) (hm : rf'.me = rf.me)
    (hp : rf'.persister = rf.persister) (hd : rf'.getPersistData = rf.getPersistData) :
    rf'.Recovers := by
  rw [Recovers, hm, hp, hd]; exact h

end Peer

/-! ### Every single write -/

namespace Persister

variable {n : Nat} {C D : Type}

/-- The persister whose last write is the head of `journal`. -/
def ofJournal : List (PersistData n C × Option D) → Persister n C D
  | [] => makePersister
  | (state, snapshot) :: journal => ⟨some state, snapshot, (state, snapshot) :: journal⟩

theorem ofJournal_cons (x : PersistData n C × Option D) (j : List (PersistData n C × Option D)) :
    ofJournal (x :: j) = ⟨some x.1, x.2, x :: j⟩ := rfl

theorem ofJournal_journal (j : List (PersistData n C × Option D)) : (ofJournal j).journal = j := by
  cases j with
  | nil => rfl
  | cons x j => rfl

end Persister

namespace Peer

variable {n : Nat} {C D : Type}

/-- A write made by section `s` of `rf`: the term has not gone down, and either
the boundary and the bytes are the old ones or the boundary has gone up and `s`
supplied the bytes for it. -/
def WriteOk (rf : Peer n C D) (s : Section n C D) (w : PersistData n C × Option D) : Prop :=
  rf.currentTerm ≤ w.1.currentTerm ∧
    ((w.1.snapshotEntriesAmount = rf.snapshotEntriesAmount ∧ w.2 = rf.persister.snapshot) ∨
      (rf.snapshotEntriesAmount < w.1.snapshotEntriesAmount ∧
        supplies s = some (w.1.snapshotEntriesAmount, w.2)))

/-- From `rf` to `rf'`, section `s` has only made writes that are allowed, and
their boundaries never went back. -/
structure Grows (rf : Peer n C D) (s : Section n C D) (rf' : Peer n C D) : Prop where
  me : rf'.me = rf.me
  journal : rf'.persister = .ofJournal rf'.persister.journal
  writes : ∃ new, rf'.persister.journal = new ++ rf.persister.journal ∧
    (∀ w ∈ new, rf.WriteOk s w ∧ w.1.snapshotEntriesAmount ≤ rf'.snapshotEntriesAmount) ∧
    new.Pairwise fun w' w => w.1.snapshotEntriesAmount ≤ w'.1.snapshotEntriesAmount

namespace Grows

variable {rf rf₁ rf₂ : Peer n C D} {s : Section n C D}

theorem refl (h : rf.persister = .ofJournal rf.persister.journal) : Grows rf s rf :=
  ⟨rfl, h, [], rfl, by simp, .nil⟩

/-- What touches neither the id nor the store nor the boundary is allowed. -/
theorem congr (h : Grows rf s rf₁) (hm : rf₂.me = rf₁.me) (hp : rf₂.persister = rf₁.persister)
    (ha : rf₂.snapshotEntriesAmount = rf₁.snapshotEntriesAmount) : Grows rf s rf₂ :=
  ⟨hm.trans h.me, by rw [hp]; exact h.journal, by rw [hp, ha]; exact h.writes⟩

theorem write (h : Grows rf s rf₁) (w : PersistData n C × Option D) (hm : rf₂.me = rf₁.me)
    (hp : rf₂.persister = .ofJournal (w :: rf₁.persister.journal)) (hw : rf.WriteOk s w)
    (h₁ : rf₁.snapshotEntriesAmount ≤ w.1.snapshotEntriesAmount)
    (h₂ : w.1.snapshotEntriesAmount = rf₂.snapshotEntriesAmount) : Grows rf s rf₂ := by
  obtain ⟨new, hj, hnew, hsort⟩ := h.writes
  have hjp : rf₂.persister.journal = w :: rf₁.persister.journal := by
    rw [hp, Persister.ofJournal_journal]
  have hle : ∀ x ∈ new, x.1.snapshotEntriesAmount ≤ w.1.snapshotEntriesAmount := by
    intro x hx
    exact (hnew x hx).2.trans h₁
  refine ⟨hm.trans h.me, ?_, w :: new, ?_, ?_, hsort.cons hle⟩
  · rw [hjp]; exact hp
  · rw [hjp, hj]; rfl
  · intro x hx
    rcases List.mem_cons.mp hx with rfl | hx
    · exact ⟨hw, h₂.le⟩
    · exact ⟨(hnew x hx).1, (hle x hx).trans h₂.le⟩

end Grows

/-! ### What a section does -/

/-- Sections that do not move `lastApplied`: `Snapshot` moves it only past what is applied. -/
def KeepsApplied (rf : Peer n C D) (s : Section n C D) : Prop :=
  s ≠ .commitToApplyChannel ∧ ∀ index data, s = .snapshot index data → index ≤ rf.lastApplied

/-- **What section `s` may do to `rf`.** -/
structure Ran (rf : Peer n C D) (s : Section n C D) (rf' : Peer n C D) : Prop where
  me : rf'.me = rf.me
  stored : (rf'.persister = rf.persister ∧ rf'.getPersistData = rf.getPersistData) ∨
    rf'.persister.raftstate = some rf'.getPersistData
  grows : rf.persister = .ofJournal rf.persister.journal → Grows rf s rf'
  commit : rf.commitIndex ≤ rf'.commitIndex
  applied : rf.KeepsApplied s → rf'.lastApplied = rf.lastApplied

namespace Ran

variable {rf rf₁ rf₂ : Peer n C D} {s : Section n C D}

theorem refl (rf : Peer n C D) (s : Section n C D) : Ran rf s rf :=
  ⟨rfl, .inl ⟨rfl, rfl⟩, .refl, le_rfl, fun _ => rfl⟩

theorem congr (h : Ran rf s rf₁) (hm : rf₂.me = rf₁.me) (hp : rf₂.persister = rf₁.persister)
    (hd : rf₂.getPersistData = rf₁.getPersistData) (hc : rf₁.commitIndex ≤ rf₂.commitIndex)
    (ha : rf.KeepsApplied s → rf₂.lastApplied = rf₁.lastApplied) : Ran rf s rf₂ where
  me := hm.trans h.me
  stored := by
    rw [hp, hd]
    exact h.stored
  grows := fun hj => (h.grows hj).congr hm hp (congrArg PersistData.snapshotEntriesAmount hd)
  commit := h.commit.trans hc
  applied := fun hk => (ha hk).trans (h.applied hk)

theorem write (h : Ran rf s rf₁) (bytes : Option D) (hm : rf₂.me = rf₁.me)
    (hp : rf₂.persister = .ofJournal ((rf₂.getPersistData, bytes) :: rf₁.persister.journal))
    (hw : rf.WriteOk s (rf₂.getPersistData, bytes))
    (hle : rf₁.snapshotEntriesAmount ≤ rf₂.snapshotEntriesAmount)
    (hc : rf₁.commitIndex ≤ rf₂.commitIndex)
    (ha : rf.KeepsApplied s → rf₂.lastApplied = rf₁.lastApplied) : Ran rf s rf₂ where
  me := hm.trans h.me
  stored := by
    rw [hp]
    exact .inr rfl
  grows := fun hj => (h.grows hj).write _ hm hp hw hle rfl
  commit := h.commit.trans hc
  applied := fun hk => (ha hk).trans (h.applied hk)

/-- `persist` with the old boundary and the old bytes. -/
theorem persist (h : Ran rf s rf₁) (hm : rf₂.me = rf₁.me) (hp : rf₂.persister = rf₁.persister)
    (ht : rf.currentTerm ≤ rf₂.currentTerm)
    (ha : rf₂.snapshotEntriesAmount = rf.snapshotEntriesAmount)
    (ha₁ : rf₁.snapshotEntriesAmount = rf.snapshotEntriesAmount)
    (hs : rf₁.persister.snapshot = rf.persister.snapshot) (hc : rf₁.commitIndex ≤ rf₂.commitIndex)
    (hl : rf.KeepsApplied s → rf₂.lastApplied = rf₁.lastApplied) : Ran rf s rf₂.persist := by
  refine h.write rf₁.persister.snapshot hm ?_ ⟨ht, .inl ⟨ha, hs⟩⟩ (ha₁.trans ha.symm).le hc hl
  rw [← hp]
  rfl

theorem becomeFollower {t : Int} (h : Ran rf s rf₁) (ht : rf.currentTerm ≤ t)
    (v : Option (Fin n)) (ha : rf₁.snapshotEntriesAmount = rf.snapshotEntriesAmount)
    (hs : rf₁.persister.snapshot = rf.persister.snapshot) : Ran rf s (rf₁.becomeFollower t v) :=
  h.persist rfl rfl ht ha ha hs le_rfl fun _ => rfl

theorem heed {t : Int} (ht : rf.currentTerm ≤ t) : Ran rf s (rf.becomeFollower t none).persist :=
  ((refl rf s).becomeFollower ht none rfl rfl).persist rfl rfl ht rfl rfl rfl le_rfl fun _ => rfl

end Ran

/-- **Every section**, case by case. -/
theorem ran_section {rf rf' : Peer n C D} {s : Section n C D} (h : rf.runSection s = some rf') :
    Ran rf s rf' := by
  have hr : Ran rf s rf := .refl rf s
  cases s with
  | ticker timedOut =>
    cases h
    unfold ticker
    split
    · exact hr
    · split
      · exact hr.persist rfl rfl (Int.le_add_one le_rfl) rfl rfl rfl le_rfl fun _ => rfl
      · exact hr
  | start command =>
    cases h
    unfold start
    dsimp only
    split
    · exact hr
    · exact hr.persist rfl rfl le_rfl rfl rfl rfl le_rfl fun _ => rfl
  | snapshot index data =>
    cases snapshot_outcome h with
    | ignored => exact hr
    | compacted hlo _ _ =>
      have hlt : rf.snapshotEntriesAmount < (index + 1).toNat := by omega
      refine hr.write (some data) rfl rfl ⟨le_rfl, .inr ⟨hlt, rfl⟩⟩ hlt.le le_rfl ?_
      intro hk
      exact if_neg (Int.not_lt.mpr (hk.2 index data rfl))
  | requestVote args =>
    obtain ⟨⟨rf₁, reply⟩, h₁, rfl⟩ := Option.map_eq_some_iff.mp h
    change Ran rf _ rf₁
    cases requestVote_outcome h₁ with
    | stale _ => exact hr
    | refused ht =>
      unfold adoptTerm
      split
      · exact hr.becomeFollower ht _ rfl rfl
      · exact hr
    | granted ht _ _ hrf =>
      rcases hrf with h | h
      · rw [h]; exact hr.becomeFollower ht _ rfl rfl
      · rw [h]; exact (hr.becomeFollower ht _ rfl rfl).becomeFollower ht _ rfl rfl
  | requestVoteReply reply =>
    obtain ⟨gs, hp⟩ : ∃ gs, rf.handleRequestVoteReply reply = (rf', gs) :=
      ⟨_, Prod.ext (Option.some.inj h) rfl⟩
    cases handleRequestVoteReply_outcome hp with
    | higher ht => exact hr.becomeFollower ht.le _ rfl rfl
    | same _ => exact hr
    | counted _ _ _ _ => exact hr.congr rfl rfl rfl le_rfl fun _ => rfl
    | elected _ _ _ =>
      exact hr.persist rfl rfl (Int.le_add_one le_rfl) rfl rfl rfl le_rfl fun _ => rfl
  | appendEntries args =>
    obtain ⟨⟨rf₁, reply, b⟩, h₁, rfl⟩ := Option.map_eq_some_iff.mp h
    change Ran rf _ rf₁
    cases appendEntriesWithLock_outcome h₁ with
    | stale _ => exact hr
    | refused ht _ => exact .heed ht
    | accepted ht _ _ _ _ =>
      have hf : Ran rf (.appendEntries args) _ := .heed ht
      refine hf.persist rfl rfl ht rfl rfl rfl ?_ fun _ => rfl
      change rf.commitIndex ≤ if rf.commitIndex < args.leaderCommit then _ else _
      split
      · rename_i hlt; exact hlt.le
      · exact le_rfl
  | sendAppendEntries server =>
    obtain ⟨⟨rf₁, d⟩, h₁, rfl⟩ := Option.map_eq_some_iff.mp h
    change Ran rf _ rf₁
    cases handleSendAppendEntries_outcome h₁ with
    | installSnapshot => exact hr.congr rfl rfl rfl le_rfl fun _ => rfl
    | notLeader => exact hr
    | send _ _ => exact hr
  | appendEntriesReply server args reply =>
    obtain ⟨⟨rf₁, gs, b⟩, h₁, rfl⟩ := Option.map_eq_some_iff.mp h
    change Ran rf _ rf₁
    cases handleAppendEntriesReply_outcome h₁ with
    | tables _ => exact hr.congr rfl rfl rfl le_rfl fun _ => rfl
    | higher ht => exact hr.becomeFollower ht.le _ rfl rfl
    | matched _ _ hu =>
      rcases leaderUpdateCommit_eq_some hu with rfl | ⟨i, hi, -, rfl⟩
      · exact hr.congr rfl rfl rfl le_rfl fun _ => rfl
      · exact hr.congr rfl rfl rfl hi.le fun _ => rfl
  | installSnapshot args =>
    obtain ⟨⟨rf₁, reply, b⟩, h₁, rfl⟩ := Option.map_eq_some_iff.mp h
    change Ran rf _ rf₁
    cases installSnapshotLocked_outcome h₁ with
    | stale _ => exact hr
    | ignored ht => exact .heed ht
    | installed ht hlo =>
      have hf : Ran rf (.installSnapshot args) _ := .heed ht
      have hlt : rf.snapshotEntriesAmount < (args.lastIncludedIndex + 1).toNat := by omega
      exact hf.write args.data rfl rfl ⟨ht, .inr ⟨hlt, rfl⟩⟩ hlt.le le_rfl fun _ => rfl
  | installSnapshotReply reply =>
    cases h
    unfold handleInstallSnapshotReply
    split
    · rename_i ht; exact hr.becomeFollower ht.le _ rfl rfl
    · exact hr
  | installSnapshotFailure server args =>
    obtain ⟨_, -, h⟩ := Option.bind_eq_some_iff.mp h
    obtain ⟨_, -, h⟩ := Option.bind_eq_some_iff.mp h
    cases h
    exact hr.congr rfl rfl rfl le_rfl fun _ => rfl
  | commitToApplyChannel =>
    obtain ⟨⟨rf₁, msgs⟩, h₁, rfl⟩ := Option.map_eq_some_iff.mp h
    change Ran rf _ rf₁
    have hp : Ran rf .commitToApplyChannel rf.persist :=
      hr.persist rfl rfl le_rfl rfl rfl rfl le_rfl fun _ => rfl
    cases commitToApplyChannelWithLock_outcome h₁ with
    | jump _ => exact hp.congr rfl rfl rfl le_rfl fun hk => absurd rfl hk.1
    | nothing => exact hp
    | batch _ _ _ => exact hp.congr rfl rfl rfl le_rfl fun hk => absurd rfl hk.1

/-- **No section forgets to persist.** -/
theorem recovers_section [Inhabited C] {rf rf' : Peer n C D} {s : Section n C D} (hr : rf.Recovers)
    (h : rf.runSection s = some rf') : rf'.Recovers := by
  have hran := ran_section h
  rcases hran.stored with ⟨hp, hd⟩ | hs
  · exact hr.congr hran.me hp hd
  · exact recovers_of_raftstate hs

/-- **Every write of every section is allowed.** -/
theorem grows_section {rf rf' : Peer n C D} {s : Section n C D}
    (hj : rf.persister = .ofJournal rf.persister.journal) (h : rf.runSection s = some rf') :
    Grows rf s rf' :=
  (ran_section h).grows hj

/-- The state a section ends in is itself a write that is allowed. -/
theorem Grows.tip [Inhabited C] {rf rf' : Peer n C D} {s : Section n C D} (h : Grows rf s rf')
    (hj : rf.persister = .ofJournal rf.persister.journal) (hr : rf.Recovers) (hr' : rf'.Recovers) :
    rf.WriteOk s (rf'.getPersistData, rf'.persister.snapshot) := by
  obtain ⟨new, hnew, hok, -⟩ := h.writes
  have hp := h.journal
  cases new with
  | nil =>
    -- no write: the store is the old one, and so is what it recovers to
    rw [hnew, List.nil_append, ← hj] at hp
    have hd : rf'.getPersistData = rf.getPersistData := by rw [← hr', ← hr, hp, h.me]
    rw [hd, hp]
    exact ⟨le_rfl, .inl ⟨rfl, rfl⟩⟩
  | cons w new =>
    rw [hnew, List.cons_append, Persister.ofJournal_cons] at hp
    have hd : rf'.getPersistData = w.1 := by
      rw [← hr', hp]; rfl
    rw [hd, hp]
    exact (hok w (List.mem_cons_self ..)).1

end Peer

/-! ### The life of a peer -/

/-- A peer over all its incarnations, with the boundaries that were ever stored
and the bytes supplied for each, newest first. -/
structure Life (n : Nat) (C D : Type) where
  peer : Peer n C D
  supplied : List (Nat × Option D)
deriving DecidableEq, Repr

/-- What can happen to a peer: a section runs, the process dies between two
sections, or it dies in a section that lacks its last `k` writes. -/
inductive LifeEvent (n : Nat) (C D : Type)
  | run (s : Section n C D)
  | crash
  | crashInside (s : Section n C D) (k : Nat)
deriving DecidableEq, Repr

namespace Life

variable {n : Nat} {C D : Type}

open Peer

/-- The peer is now `rf'`; if its boundary has moved, section `s` supplied the bytes. -/
def note (l : Life n C D) (s : Section n C D) (rf' : Peer n C D) : Life n C D :=
  ⟨rf', if rf'.snapshotEntriesAmount = l.peer.snapshotEntriesAmount then l.supplied
    else (supplies s).toList ++ l.supplied⟩

/-- The bytes of a write are the ones supplied for its boundary; before the
first boundary there are none. -/
def Supplied (l : Life n C D) (w : PersistData n C × Option D) : Prop :=
  (w.1.snapshotEntriesAmount = 0 ∧ w.2 = none) ∨ (w.1.snapshotEntriesAmount, w.2) ∈ l.supplied

theorem note_supplied {l : Life n C D} {s : Section n C D} {rf' : Peer n C D}
    {w : PersistData n C × Option D} (h : l.Supplied w) : (l.note s rf').Supplied w := by
  rcases h with h | h
  · exact .inl h
  · refine .inr ?_
    unfold note
    dsimp only
    split
    · exact h
    · exact List.mem_append_right _ h

variable [Inhabited C]

/-- One event.  A section that aborts after its first write is `crashInside` a
section that is refused: both have only stored the new term. -/
def step (l : Life n C D) : LifeEvent n C D → Option (Life n C D)
  | .run s => (l.peer.runSection s).map (l.note s)
  | .crash => some { l with peer := make l.peer.me l.peer.persister }
  | .crashInside s k => do
    let rf' ← l.peer.runSection s
    if k ≤ rf'.persister.journal.length - l.peer.persister.journal.length then
      return l.note s (make l.peer.me (.ofJournal (rf'.persister.journal.drop k)))
    else none

/-- Freshly made on an empty persister. -/
def init (me : Fin n) : Life n C D := ⟨make me .makePersister, []⟩

/-- What holds whenever `rf.mu` is free. -/
structure Sound (l : Life n C D) : Prop where
  recovers : l.peer.Recovers
  journal : l.peer.persister = .ofJournal l.peer.persister.journal
  writes : ∀ w ∈ l.peer.persister.journal, l.Supplied w
  now : l.Supplied (l.peer.getPersistData, l.peer.persister.snapshot)
  once : l.supplied.Pairwise fun a b => b.1 < a.1
  bound : ∀ a ∈ l.supplied, a.1 ≤ l.peer.snapshotEntriesAmount

theorem sound_init (me : Fin n) : (init me : Life n C D).Sound where
  recovers := recovers_make _ _
  journal := rfl
  writes := by simp [init, make, readPersist, Persister.makePersister]
  now := .inl ⟨rfl, rfl⟩
  once := .nil
  bound := by simp [init]

/-- **A section leaves a sound life sound**, and neither the term nor the
boundary goes back. -/
theorem sound_note {l : Life n C D} {s : Section n C D} {rf' : Peer n C D} (hl : l.Sound)
    (hg : Grows l.peer s rf') (hr : rf'.Recovers) :
    (l.note s rf').Sound ∧ l.peer.currentTerm ≤ rf'.currentTerm ∧
      l.peer.snapshotEntriesAmount ≤ rf'.snapshotEntriesAmount := by
  obtain ⟨ht, htip⟩ : l.peer.WriteOk s (rf'.getPersistData, rf'.persister.snapshot) :=
    hg.tip hl.journal hl.recovers hr
  obtain ⟨new, hnew, hok, -⟩ := hg.writes
  have hnow : (l.note s rf').Supplied (rf'.getPersistData, rf'.persister.snapshot) := by
    rcases htip with ⟨ha, hs⟩ | ⟨ha, hs⟩
    · have h : (l.note s rf').Supplied _ := note_supplied hl.now
      unfold Supplied at h ⊢
      rw [ha, hs]
      exact h
    · refine .inr ?_
      have hne : rf'.snapshotEntriesAmount ≠ l.peer.snapshotEntriesAmount := ne_of_gt ha
      simp [note, hne, hs]
  have hwrites : ∀ w ∈ new, (l.note s rf').Supplied w := by
    intro w hw
    obtain ⟨⟨-, hw'⟩, hle⟩ := hok w hw
    rcases hw' with ⟨ha, hs⟩ | ⟨ha, hs⟩
    · have h : (l.note s rf').Supplied _ := note_supplied hl.now
      unfold Supplied at h ⊢
      rw [ha, hs]
      exact h
    · refine .inr ?_
      have hne : rf'.snapshotEntriesAmount ≠ l.peer.snapshotEntriesAmount := by omega
      simp [note, hne, hs]
  refine ⟨⟨hr, hg.journal, ?_, hnow, ?_, ?_⟩, ht, ?_⟩
  · intro w hw
    change w ∈ rf'.persister.journal at hw
    rw [hnew] at hw
    rcases List.mem_append.mp hw with hw | hw
    · exact hwrites w hw
    · exact note_supplied (hl.writes w hw)
  · unfold note
    dsimp only
    split
    · exact hl.once
    · rename_i hne
      rcases htip with ⟨ha, -⟩ | ⟨ha, hs⟩
      · exact absurd ha hne
      · rw [hs]
        exact hl.once.cons fun a hmem => (hl.bound a hmem).trans_lt ha
  · intro a hmem
    unfold note at hmem
    dsimp only at hmem
    split at hmem
    · rename_i heq
      exact (hl.bound a hmem).trans heq.ge
    · rename_i hne
      rcases htip with ⟨ha, -⟩ | ⟨ha, hs⟩
      · exact absurd ha hne
      · rw [hs] at hmem
        rcases List.mem_cons.mp hmem with rfl | hmem
        · exact le_rfl
        · exact (hl.bound a hmem).trans ha.le
  · rcases htip with ⟨ha, -⟩ | ⟨ha, -⟩
    · exact ha.ge
    · exact ha.le

/-- A section cut short after some of its writes is again a growth. -/
theorem grows_cut {rf rf' : Peer n C D} {s : Section n C D} (hg : Grows rf s rf') {k : Nat}
    (hk : k ≤ rf'.persister.journal.length - rf.persister.journal.length) :
    Grows rf s (make rf.me (.ofJournal (rf'.persister.journal.drop k))) := by
  obtain ⟨new, hnew, hok, hsort⟩ := hg.writes
  have hlen : k ≤ new.length := by
    rw [hnew, List.length_append] at hk
    omega
  have hdrop : rf'.persister.journal.drop k = new.drop k ++ rf.persister.journal := by
    rw [hnew, List.drop_append_of_le_length hlen]
  have hper : ∀ ps : Persister n C D, (make rf.me ps).persister = ps := by
    intro ps
    unfold make readPersist
    split <;> rfl
  have hme : ∀ ps : Persister n C D, (make rf.me ps).me = rf.me := by
    intro ps
    unfold make readPersist
    split <;> rfl
  refine ⟨hme _, ?_, new.drop k, ?_, ?_, hsort.drop⟩
  · rw [hper, Persister.ofJournal_journal]
  · rw [hper, Persister.ofJournal_journal, hdrop]
  · intro w hw
    refine ⟨(hok w (List.mem_of_mem_drop hw)).1, ?_⟩
    rw [hdrop]
    -- the newest of the writes that were made has the largest boundary
    have hsort' : (new.drop k).Pairwise _ := hsort.drop
    cases hc : new.drop k with
    | nil => rw [hc] at hw; exact absurd hw List.not_mem_nil
    | cons x xs =>
      rw [hc] at hw hsort'
      change w.1.snapshotEntriesAmount ≤ x.1.snapshotEntriesAmount
      rcases List.mem_cons.mp hw with rfl | hw
      · exact le_rfl
      · exact List.rel_of_pairwise_cons hsort' hw

/-- **One event keeps a life sound.** -/
theorem sound_step {l l' : Life n C D} {e : LifeEvent n C D} (hl : l.Sound)
    (h : l.step e = some l') :
    l'.Sound ∧ l.peer.currentTerm ≤ l'.peer.currentTerm ∧
      l.peer.snapshotEntriesAmount ≤ l'.peer.snapshotEntriesAmount := by
  cases e with
  | run s =>
    obtain ⟨rf', hs, rfl⟩ := Option.map_eq_some_iff.mp h
    exact sound_note hl (grows_section hl.journal hs) (recovers_section hl.recovers hs)
  | crash =>
    cases h
    -- a restart between two sections is a cut that loses no write
    have hg : Grows l.peer .commitToApplyChannel (make l.peer.me l.peer.persister) := by
      have hc := grows_cut (k := 0) (Grows.refl (s := .commitToApplyChannel) hl.journal) (by simp)
      rwa [List.drop_zero, ← hl.journal] at hc
    have hd : (make l.peer.me l.peer.persister).snapshotEntriesAmount
        = l.peer.snapshotEntriesAmount :=
      congrArg PersistData.snapshotEntriesAmount hl.recovers
    have hn : l.note .commitToApplyChannel (make l.peer.me l.peer.persister)
        = { l with peer := make l.peer.me l.peer.persister } := by
      simp [note, hd]
    rw [← hn]
    exact sound_note hl hg (recovers_make _ _)
  | crashInside s k =>
    obtain ⟨rf', hs, h⟩ := Option.bind_eq_some_iff.mp h
    by_cases hk : k ≤ rf'.persister.journal.length - l.peer.persister.journal.length
    · rw [if_pos hk] at h
      cases h
      exact sound_note hl (grows_cut (grows_section hl.journal hs) hk) (recovers_make _ _)
    · rw [if_neg hk] at h
      exact absurd h (by simp)

/-- **Crash recovery.**  In every state a peer goes through over any number of
sections and crashes, `Make` on the store gives back the five persistent
fields, every write ever made holds the bytes supplied for its boundary, each
boundary was supplied once, and the term and the boundary never go back. -/
theorem crash_recovery (me : Fin n) :
    ∀ tr : List (Life n C D), Trace step (fun _ _ => True) (init me) tr →
      (∀ l ∈ tr, l.peer.Recovers ∧ (∀ w ∈ l.peer.persister.journal, l.Supplied w) ∧
        l.supplied.Pairwise fun a b => b.1 < a.1) ∧
      tr.Pairwise fun l' l => l.peer.currentTerm ≤ l'.peer.currentTerm ∧
        l.peer.snapshotEntriesAmount ≤ l'.peer.snapshotEntriesAmount := by
  intro tr h
  have hsound : ∀ l ∈ tr, l.Sound :=
    Trace.invariant (sound_init me) (fun l l' e hl _ he => (sound_step hl he).1) tr h
  refine ⟨fun l hl => ⟨(hsound l hl).recovers, (hsound l hl).writes, (hsound l hl).once⟩, ?_⟩
  clear hsound
  induction h with
  | init => exact List.pairwise_singleton _ _
  | @step l l' e past ht hok he ih =>
    have hl : l.Sound :=
      Trace.invariant (sound_init me) (fun l l' e hl _ he => (sound_step hl he).1) _ ht l
        (List.mem_cons_self ..)
    obtain ⟨-, h1, h2⟩ := sound_step hl he
    refine ih.cons ?_
    intro x hx
    rcases List.mem_cons.mp hx with rfl | hx
    · exact ⟨h1, h2⟩
    · obtain ⟨h3, h4⟩ := List.rel_of_pairwise_cons ih hx
      exact ⟨h3.trans h1, h4.trans h2⟩

/-- An election, a vote, a snapshot, and two crashes, one of them between the
two writes of `AppendEntries`. -/
def sampleLife : List (LifeEvent 3 Nat Nat) :=
  [.run (.ticker true), .run (.requestVote ⟨2, 1, 0, -1⟩), .crash,
    .run (.appendEntries ⟨3, 1, 0, -1, [⟨3, 7⟩], 1⟩), .run .commitToApplyChannel,
    .run (.snapshot 1 70), .crashInside (.appendEntries ⟨4, 2, 1, 3, [⟨4, 8⟩], 2⟩) 1, .crash]

theorem crash_recovery_sampleLife :
    ∃ tr, run step (fun _ _ => True) (init (0 : Fin 3)) sampleLife [] = some tr ∧
      (∀ l ∈ tr, l.peer.Recovers ∧ (∀ w ∈ l.peer.persister.journal, l.Supplied w) ∧
        l.supplied.Pairwise fun a b => b.1 < a.1) ∧
      tr.Pairwise fun l' l => l.peer.currentTerm ≤ l'.peer.currentTerm ∧
        l.peer.snapshotEntriesAmount ≤ l'.peer.snapshotEntriesAmount := by
  have hs : (run step (fun _ _ => True) (init (0 : Fin 3)) sampleLife []).isSome = true := by
    decide +kernel
  obtain ⟨tr, h⟩ := Option.isSome_iff_exists.mp hs
  exact ⟨tr, h, crash_recovery 0 tr (trace_of_run h)⟩

end Life

end ShardRaft.Raft
