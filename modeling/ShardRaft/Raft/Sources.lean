import ShardRaft.Raft.Entries
import ShardRaft.Raft.Stream

/-!
# Nothing is made up

Whatever a service is given was handed to Raft by a service before: a command was passed
to `Start` at a leader, and the bytes of a snapshot were passed to `Snapshot` for the very
index the message names.  This is so in every run, also in those that are not careful:
what the slips of the code mix up is the order of the commands, never the commands.

`P` and `Q` say what the services are known to hand over.  `Sourced` is the invariant:
behind each copy of an entry stands a call of `Start` (`found_of_move`), and the boundary
of a peer and the bytes of its persister move together (`keeps_of_move`), so the bytes
that `InstallSnapshot` carries belong to the index it carries.
-/

namespace ShardRaft.Raft

open ShardRaft.Lib

variable {n : Nat} {C D : Type}

/-- The three messages there are: a command, the filler at index `0`, a snapshot. -/
inductive MsgFrom (P : C → Prop) (Q : Int → D → Prop) : ApplyMsg C D → Prop
  | command {i : Int} {c : C} : 0 < i → P c →
      MsgFrom P Q { commandValid := true, command := some c, commandIndex := i }
  | filler {c : C} : MsgFrom P Q { commandValid := false, command := some c, commandIndex := 0 }
  | snapshot {i t : Int} {d : D} : 0 ≤ i → Q i d →
      MsgFrom P Q { snapshotValid := true, snapshot := some d, snapshotTerm := t, snapshotIndex := i }

theorem MsgFrom.mono {P P' : C → Prop} {Q Q' : Int → D → Prop} {msg : ApplyMsg C D}
    (h : MsgFrom P Q msg) (hP : ∀ c, P c → P' c) (hQ : ∀ i d, Q i d → Q' i d) :
    MsgFrom P' Q' msg := by
  cases h with
  | command hi hc => exact .command hi (hP _ hc)
  | filler => exact .filler
  | snapshot hi hd => exact .snapshot hi (hQ _ _ hd)

namespace World

/-! ### The boundary and the bytes -/

/-- Where the boundary and the stored bytes of peer `s` are from once a step is done and the
peer is `rf'`. -/
inductive Bytes (w : World n C D) (e : Event C D n) (s : Fin n) (rf' : Peer n C D) : Prop
  | same : rf'.snapshotEntriesAmount = (w.rafts s).snapshotEntriesAmount →
      rf'.persister.snapshot = (w.rafts s).persister.snapshot → Bytes w e s rf'
  | passed (index : Int) (data : D) : e = .snapshot s index data → 0 ≤ index →
      rf'.snapshotEntriesAmount = (index + 1).toNat → rf'.persister.snapshot = some data →
      Bytes w e s rf'
  | installed (src : Fin n) (args : InstallSnapshotArgs n D) :
      w.Pending src s (.installSnapshot args) → 0 ≤ args.lastIncludedIndex →
      rf'.snapshotEntriesAmount = (args.lastIncludedIndex + 1).toNat →
      rf'.persister.snapshot = args.data → Bytes w e s rf'

/-- The same, and `lastApplied` does not go back while the peer is up. -/
structure Keeps (w : World n C D) (e : Event C D n) (s : Fin n) (rf' : Peer n C D) : Prop where
  bytes : Bytes w e s rf'
  applied : (w.rafts s).lastApplied ≤ rf'.lastApplied ∨ rf'.lastApplied = -1

section keeps

variable {w w' : World n C D} {e : Event C D n}

theorem Keeps.same {s : Fin n} {rf' : Peer n C D}
    (ha : rf'.snapshotEntriesAmount = (w.rafts s).snapshotEntriesAmount)
    (hb : rf'.persister.snapshot = (w.rafts s).persister.snapshot)
    (hl : rf'.lastApplied = (w.rafts s).lastApplied) : Keeps w e s rf' :=
  ⟨.same ha hb, .inl hl.ge⟩

theorem Keeps.update {i : Fin n} {rf' : Peer n C D} (h : Keeps w e i rf') :
    ∀ s, Keeps w e s (Function.update w.rafts i rf' s) := by
  intro s
  by_cases hs : s = i
  · rw [hs, Function.update_self]
    exact h
  · rw [Function.update_of_ne hs]
    exact .same rfl rfl rfl

/-- **The bytes move with the boundary.** -/
theorem keeps_of_move [Inhabited C] (hh : ∀ s, Healthy s (w.rafts s)) (hm : Move w e w') :
    ∀ s, Keeps w e s (w'.rafts s) := by
  cases hm with
  | heartbeat i _ => exact Keeps.update (.same rfl rfl rfl)
  | idle i => exact Keeps.update (.same rfl rfl rfl)
  | election i _ => exact Keeps.update (.same rfl rfl rfl)
  | start i command _ => exact Keeps.update (.same rfl rfl rfl)
  | snapshot i index data rf' ho =>
    refine Keeps.update ?_
    cases ho with
    | ignored => exact .same rfl rfl rfl
    | compacted hlo _ _ =>
      refine ⟨.passed index data rfl (by omega) rfl rfl, .inl ?_⟩
      change (w.rafts i).lastApplied
        ≤ if index > (w.rafts i).lastApplied then index else (w.rafts i).lastApplied
      split <;> omega
  | askVote k i server election _ => exact Keeps.update (.same rfl rfl rfl)
  | sendAppend k i server rf' d _ ho =>
    exact Keeps.update (by cases ho <;> exact .same rfl rfl rfl)
  | sendInstall k i server _ => exact Keeps.update (.same rfl rfl rfl)
  | vote k src dst waiting args rf' reply _ ho =>
    refine Keeps.update ?_
    cases ho with
    | stale _ => exact .same rfl rfl rfl
    | refused _ =>
      unfold Peer.adoptTerm
      split <;> exact .same rfl rfl rfl
    | granted _ _ _ hrf => rcases hrf with rfl | rfl <;> exact .same rfl rfl rfl
  | append k src dst waiting args rf' reply ok _ ho =>
    exact Keeps.update (by cases ho <;> exact .same (by simp [Peer.overwrite]) rfl rfl)
  | install k src dst waiting args rf' reply ht ho =>
    refine Keeps.update ?_
    cases ho with
    | stale _ => exact .same rfl rfl rfl
    | ignored _ => exact .same rfl rfl rfl
    | installed _ hlo =>
      exact ⟨.installed src args ⟨waiting, List.mem_of_getElem? ht⟩ (by omega) rfl rfl,
        .inl le_rfl⟩
  | voteReply k src dst args reply rf' gs _ ho =>
    exact Keeps.update (by cases ho <;> exact .same rfl rfl rfl)
  | appendReply k src dst args reply rf' gs commit _ ho =>
    refine Keeps.update ?_
    cases ho with
    | tables _ => exact .same rfl rfl rfl
    | higher _ => exact .same rfl rfl rfl
    | matched _ _ hu =>
      rcases Peer.leaderUpdateCommit_eq_some hu with rfl | ⟨i, -, -, rfl⟩ <;>
        exact .same rfl rfl rfl
  | installReply k src dst args reply _ =>
    refine Keeps.update ?_
    unfold Peer.handleInstallSnapshotReply
    split <;> exact .same rfl rfl rfl
  | failRequest k src dst args _ => exact Keeps.update (.same rfl rfl rfl)
  | failAnswer k src dst args reply _ => exact Keeps.update (.same rfl rfl rfl)
  | collect k i next rf' msgs _ _ ho =>
    refine Keeps.update ?_
    cases ho with
    | jump hlt => exact ⟨.same rfl rfl, .inl (Int.le_of_lt (Int.lt_sub_right_of_add_lt hlt))⟩
    | nothing => exact .same rfl rfl rfl
    | batch _ hlt _ => exact ⟨.same rfl rfl, .inl (Int.le_of_lt hlt)⟩
  | send i next msg msgs _ => exact fun s => .same rfl rfl rfl
  | release i next _ => exact fun s => .same rfl rfl rfl
  | restart i =>
    refine Keeps.update ⟨.same ?_ ?_, .inr ?_⟩
    · exact congrArg PersistData.snapshotEntriesAmount (make_getPersistData (hh i))
    · rw [make_persister]
    · unfold Peer.make Peer.readPersist
      split <;> rfl

end keeps

/-! ### The invariant -/

/-- Every entry past the filler holds a command of `P`, and every snapshot is of `Q`. -/
structure Sourced (P : C → Prop) (Q : Int → D → Prop) (w : World n C D) : Prop where
  entry : ∀ i a, Found w i a → 0 < i → P a.action
  back : ∀ s, -1 ≤ (w.rafts s).lastApplied
  bare : ∀ s, (w.rafts s).snapshotEntriesAmount = 0 → (w.rafts s).persister.snapshot = none
  kept : ∀ s, 0 < (w.rafts s).snapshotEntriesAmount → ∃ d,
    (w.rafts s).persister.snapshot = some d ∧ Q ((w.rafts s).snapshotEntriesAmount - 1) d
  sent : ∀ src dst args, w.Pending src dst (.installSnapshot args) →
    0 ≤ args.lastIncludedIndex → ∃ d, args.data = some d ∧ Q args.lastIncludedIndex d
  pending : ∀ i, ∀ msg ∈ w.pending i, MsgFrom P Q msg
  applied : ∀ x ∈ w.applied, MsgFrom P Q x.2

section sourced

variable {P P' : C → Prop} {Q Q' : Int → D → Prop} {w w' : World n C D} {e : Event C D n}

theorem Sourced.mono (h : w.Sourced P Q) (hP : ∀ c, P c → P' c) (hQ : ∀ i d, Q i d → Q' i d) :
    w.Sourced P' Q' where
  entry i a hf hi := hP _ (h.entry i a hf hi)
  back := h.back
  bare := h.bare
  kept := by
    intro s hs
    obtain ⟨d, hd, hq⟩ := h.kept s hs
    exact ⟨d, hd, hQ _ _ hq⟩
  sent := by
    intro src dst args hp hi
    obtain ⟨d, hd, hq⟩ := h.sent src dst args hp hi
    exact ⟨d, hd, hQ _ _ hq⟩
  pending i msg hmsg := (h.pending i msg hmsg).mono hP hQ
  applied x hx := (h.applied x hx).mono hP hQ

variable [Inhabited C]

theorem sourced_init : (init : World n C D).Sourced P Q where
  entry := by
    intro i a hf hi
    cases hf with
    | memory s j ha hij =>
      have ha : [filler][j]? = some a := ha
      have hj := (List.getElem?_eq_some_iff.mp ha).1
      have hij : i = (0 : Nat) + (j : Int) := hij
      rw [List.length_singleton] at hj
      omega
    | stored s d j hd _ _ =>
      have hd : (Persister.makePersister : Persister n C D).raftstate = some d := by
        rw [← hd]
        exact congrArg Persister.raftstate (make_persister s .makePersister).symm
      exact absurd hd (by simp [Persister.makePersister])
    | flight src dst args j hp _ _ =>
      obtain ⟨waiting, hp⟩ := hp
      exact absurd hp List.not_mem_nil
  back s := by
    have hl : (Peer.make s (.makePersister : Persister n C D)).lastApplied = -1 := rfl
    exact hl.ge
  bare s _ := congrArg Persister.snapshot (make_persister s .makePersister)
  kept s hs := absurd hs (Nat.lt_irrefl 0)
  sent := by
    rintro src dst args ⟨waiting, hp⟩
    exact absurd hp List.not_mem_nil
  pending i msg hmsg := absurd hmsg List.not_mem_nil
  applied x hx := absurd hx List.not_mem_nil

omit [Inhabited C] in
theorem msgFrom_collected (h : w.Sourced P Q) {i : Fin n} {rf' : Peer n C D}
    {msgs : List (ApplyMsg C D)} (ho : Peer.ApplyOutcome (w.rafts i) rf' msgs) :
    ∀ msg ∈ msgs, MsgFrom P Q msg := by
  intro msg hmem
  cases ho with
  | jump hlt =>
    rw [List.mem_singleton.mp hmem]
    have hla := h.back i
    obtain ⟨d, hd, hq⟩ := h.kept i (by omega)
    rw [hd]
    exact .snapshot (by omega) hq
  | nothing => exact absurd hmem List.not_mem_nil
  | batch hb hlt hall =>
    obtain ⟨k, hk, e, he, rfl⟩ := exists_of_forall₂ hall hmem
    by_cases h0 : (w.rafts i).lastApplied + 1 + k = 0
    · rw [h0]
      exact .filler
    · have hpos : 0 < (w.rafts i).lastApplied + 1 + k := by omega
      have hc := h.entry ((w.rafts i).lastApplied + 1 + k) e (.memory i _ he (by omega)) hpos
      have hmsg : (Peer.msgOf ((w.rafts i).lastApplied + 1 + k) e : ApplyMsg C D) =
          { commandValid := true
            command := some e.action
            commandIndex := (w.rafts i).lastApplied + 1 + k } := by
        simp [Peer.msgOf, h0]
      rw [hmsg]
      exact .command hpos hc

/-- A batch that is new holds collected messages; the others have at most lost some. -/
theorem sourced_queues (h : w.Sourced P Q) (he : Effect w e w') :
    (∀ i, ∀ msg ∈ w'.pending i, MsgFrom P Q msg) ∧ ∀ x ∈ w'.applied, MsgFrom P Q x.2 := by
  -- the batch of one server is replaced
  have hupd : ∀ (i : Fin n) (x : Option (List (ApplyMsg C D) × Option (Fin n × Answer n C D))),
      (∀ msg ∈ (x.map (·.1)).getD [], MsgFrom P Q msg) →
      w'.applying = Function.update w.applying i x →
      ∀ j, ∀ msg ∈ w'.pending j, MsgFrom P Q msg := by
    intro i x hx ha j msg hmsg
    rw [pending, ha] at hmsg
    by_cases hj : j = i
    · rw [hj, Function.update_self] at hmsg
      exact hx msg hmsg
    · rw [Function.update_of_ne hj] at hmsg
      exact h.pending j msg hmsg
  cases he with
  | ran i s rf' _ _ _ _ ha _ hd _ =>
    refine ⟨?_, by rw [hd]; exact h.applied⟩
    intro j msg hmsg
    rw [pending, ha] at hmsg
    exact h.pending j msg hmsg
  | collected i next rf' msgs _ hcol _ ha _ hd _ =>
    have hmsgs := msgFrom_collected h (Peer.commitToApplyChannelWithLock_outcome hcol)
    exact ⟨hupd i (some (msgs, next)) hmsgs ha, by rw [hd]; exact h.applied⟩
  | sent i next msg msgs hap _ ha _ hd _ =>
    have hall : ∀ m ∈ msg :: msgs, MsgFrom P Q m := by
      have := h.pending i
      rwa [pending, hap] at this
    refine ⟨hupd i (some (msgs, next)) (fun m hm => hall m (List.mem_cons_of_mem _ hm)) ha, ?_⟩
    intro x hx
    rw [hd] at hx
    rcases List.mem_append.mp hx with hx | hx
    · exact h.applied x hx
    · rw [List.mem_singleton.mp hx]
      exact hall msg (List.mem_cons_self ..)
  | released i next hap _ ha _ hd _ =>
    exact ⟨hupd i none (by simp) ha, by rw [hd]; exact h.applied⟩
  | restarted i hw =>
    subst hw
    refine ⟨?_, h.applied⟩
    intro j msg hmsg
    by_cases hj : j = i
    · simp [pending, restart, hj] at hmsg
    · simp only [pending, restart, Function.update_of_ne hj, Option.map_map] at hmsg
      exact h.pending j msg hmsg

/-- **A step keeps the invariant**: new commands and snapshots come in through `Start` and
`Snapshot` only. -/
theorem sourced_step (h : w.Sourced P Q) (hh : ∀ s, Healthy s (w.rafts s))
    (hP : ∀ i c, e = .start i c → (w.rafts i).status = .leader → P c)
    (hQ : ∀ i index d, e = .snapshot i index d → 0 ≤ index → Q index d)
    (hs : w.step e = some w') : w'.Sourced P Q := by
  have hm := move_of_step hs
  have hh' := healthy_step hh hs
  have hkeep := keeps_of_move hh hm
  constructor
  · intro i a hf hi
    rcases found_of_move hh hh' hm hf with hf | ⟨s, hmake, -⟩
    · exact h.entry i a hf hi
    · exact hP s _ hmake.event hmake.leader
  · intro s
    rcases (hkeep s).applied with hle | heq
    · exact (h.back s).trans hle
    · exact heq.ge
  · intro s h0
    cases (hkeep s).bytes with
    | same ha hb => rw [hb]; exact h.bare s (ha.symm.trans h0)
    | passed index data _ hi ha _ => omega
    | installed src args _ hi ha _ => omega
  · intro s hpos
    cases (hkeep s).bytes with
    | same ha hb =>
      rw [ha, hb]
      exact h.kept s (by omega)
    | passed index data he hi ha hb =>
      refine ⟨data, hb, ?_⟩
      rw [ha, Int.toNat_of_nonneg (by omega), Int.add_sub_cancel]
      exact hQ s index data he hi
    | installed src args hp hi ha hb =>
      obtain ⟨d, hd, hq⟩ := h.sent src s args hp hi
      refine ⟨d, hb.trans hd, ?_⟩
      rw [ha, Int.toNat_of_nonneg (by omega), Int.add_sub_cancel]
      exact hq
  · intro src dst args hp hi
    rcases pending_of_move hh hm hp with hp | hb
    · exact h.sent src dst args hp hi
    · cases hb with
      | installSnapshot _ =>
        have hi : 0 ≤ ((w.rafts src).snapshotEntriesAmount : Int) - 1 := hi
        exact h.kept src (by omega)
  · exact (sourced_queues h (effect_of_step hs)).1
  · exact (sourced_queues h (effect_of_step hs)).2

end sourced

/-! ### Runs -/

/-- The services hand over commands of `P` and snapshots of `Q`. -/
def Handed (P : C → Prop) (Q : Int → D → Prop) (w : World n C D) : Event C D n → Prop
  | .start i c => (w.rafts i).status = .leader → P c
  | .snapshot _ index d => 0 ≤ index → Q index d
  | _ => True

instance (P : C → Prop) (Q : Int → D → Prop) [DecidablePred P] [∀ i, DecidablePred (Q i)]
    (w : World n C D) : DecidablePred (w.Handed P Q)
  | .start i c => inferInstanceAs (Decidable ((w.rafts i).status = .leader → P c))
  | .snapshot _ index d => inferInstanceAs (Decidable (0 ≤ index → Q index d))
  | .ticker _ _ | .task _ | .fail _ | .applyNext _ | .restart _ =>
    inferInstanceAs (Decidable True)

/-- **Nothing is made up.**  In every run, whatever is lost, repeated or restarted: every
command that stands in a log, in a store, in a request under way or in a message for a
service was passed to `Start` at a leader, and every snapshot that is stored, under way or
in a message was passed to `Snapshot`, for the index it is stored and sent under. -/
theorem nothing_made_up [Inhabited C] (P : C → Prop) (Q : Int → D → Prop)
    (tr : List (World n C D)) (h : Run (Handed P Q) tr) : ∀ w ∈ tr, w.Sourced P Q := by
  have hall := Trace.invariant
    (I := fun w => (∀ s, Healthy s (w.rafts s)) ∧ w.Sourced P Q) ⟨healthy_init, sourced_init⟩
    (fun w w' e hi hok hs => ⟨healthy_step hi.1 hs, sourced_step hi.2 hi.1
      (by rintro i c rfl; exact hok) (by rintro i index d rfl; exact hok) hs⟩) tr h
  exact fun w hw => (hall w hw).2

/-- Server `0` commits command `7` and snapshots it as `42`; server `2`, which has seen
nothing yet, is sent the snapshot and hands it to its service. -/
def sampleSnapshotSent : List (Event Nat Nat 3) :=
  [.ticker 0 true, .task 0, .task 1, .task 1, .task 1, .start 0 7, .ticker 0 false, .task 3,
    .task 4, .task 4, .applyNext 1, .task 4, .task 4, .applyNext 0, .applyNext 0, .applyNext 0,
    .snapshot 0 1 42, .task 1, .task 3, .task 3, .ticker 0 false, .task 5, .task 5, .task 5,
    .applyNext 2]

theorem nothing_made_up_sampleSnapshotSent :
    ∃ tr, run step (Handed (fun c => c = 7) (fun i d => i = 1 ∧ d = 42))
        (init : World 3 Nat Nat) sampleSnapshotSent [] = some tr ∧
      (∃ w ∈ tr, (w.applied.any fun x => x.1 = 2 && x.2.snapshotValid) = true) ∧
      ∀ w ∈ tr, w.Sourced (fun c => c = 7) (fun i d => i = 1 ∧ d = 42) := by
  have hs : ((run step (Handed (fun c => c = 7) (fun i d => i = 1 ∧ d = 42))
      (init : World 3 Nat Nat) sampleSnapshotSent []).any fun tr =>
        tr.any fun w => w.applied.any fun x => x.1 = 2 && x.2.snapshotValid) = true := by
    decide +kernel
  obtain ⟨tr, h, hl⟩ := (Option.any_eq_true ..).mp hs
  exact ⟨tr, h, List.any_eq_true.mp hl, nothing_made_up _ _ tr (trace_of_run h)⟩

end World

end ShardRaft.Raft
