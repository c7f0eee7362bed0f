import ShardRaft.Raft.Recovery
import ShardRaft.Raft.World

/-!
# The steps of the cluster, peer by peer

Seen from the peers, a step of the cluster is one of four things: one peer runs
one section, one peer collects a batch of messages, one message of a batch is
sent, or one peer restarts.  `Effect` lists them and `effect_of_step` says that
there is nothing else.  `Effect.healthy` is the first use: every peer keeps its
id, and its store recovers it.

The safety proofs also need to know which tasks come and go.  `Move` is the
step relation with both sides written out, one constructor for each kind of
step, and `move_of_step` reads it off `World.step`.
-/

namespace ShardRaft.Raft

open ShardRaft.Lib

namespace World

variable {n : Nat} {C D : Type} [Inhabited C]

/-- What a step does to the peers and to the messages for the services. -/
inductive Effect (w : World n C D) (e : Event C D n) (w' : World n C D) : Prop
  | ran (i : Fin n) (s : Section n C D) (rf' : Peer n C D) :
      s ≠ .commitToApplyChannel →
      (∀ index data, s = .snapshot index data → e = .snapshot i index data) →
      (w.rafts i).runSection s = some rf' →
      w'.rafts = Function.update w.rafts i rf' → w'.applying = w.applying →
      w'.applyCh = w.applyCh → w'.applied = w.applied → w'.incarnation = w.incarnation →
      Effect w e w'
  | collected (i : Fin n) (next : Option (Fin n × Answer n C D)) (rf' : Peer n C D)
      (msgs : List (ApplyMsg C D)) :
      w.applying i = none → (w.rafts i).commitToApplyChannelWithLock = some (rf', msgs) →
      w'.rafts = Function.update w.rafts i rf' →
      w'.applying = Function.update w.applying i (some (msgs, next)) →
      w'.applyCh = w.applyCh → w'.applied = w.applied → w'.incarnation = w.incarnation →
      Effect w e w'
  | sent (i : Fin n) (next : Option (Fin n × Answer n C D)) (msg : ApplyMsg C D)
      (msgs : List (ApplyMsg C D)) :
      w.applying i = some (msg :: msgs, next) → w'.rafts = w.rafts →
      w'.applying = Function.update w.applying i (some (msgs, next)) →
      w'.applyCh = Function.update w.applyCh i (w.applyCh i ++ [msg]) →
      w'.applied = w.applied ++ [(i, msg)] → w'.incarnation = w.incarnation → Effect w e w'
  | released (i : Fin n) (next : Option (Fin n × Answer n C D)) :
      w.applying i = some ([], next) → w'.rafts = w.rafts →
      w'.applying = Function.update w.applying i none →
      w'.applyCh = w.applyCh → w'.applied = w.applied → w'.incarnation = w.incarnation →
      Effect w e w'
  | restarted (i : Fin n) : w' = w.restart i → Effect w e w'

/-- A section other than `commitToApplyChannel` and `Snapshot`, run by peer `i`. -/
theorem Effect.of_update {w v : World n C D} {e : Event C D n} {i : Fin n} {s : Section n C D}
    {rf' : Peer n C D} {new : List (Task n C D)} (hv : v.rafts = w.rafts)
    (ha : v.applying = w.applying) (hc : v.applyCh = w.applyCh) (hd : v.applied = w.applied)
    (hi : v.incarnation = w.incarnation) (hs : s ≠ .commitToApplyChannel)
    (hsn : ∀ index data, s = .snapshot index data → e = .snapshot i index data)
    (h : (w.rafts i).runSection s = some rf') : Effect w e (v.update i rf' new) :=
  .ran i s rf' hs hsn h (by rw [← hv]; rfl) ha hc hd hi

theorem Effect.same {w v : World n C D} {e : Event C D n} {i : Fin n} {new : List (Task n C D)}
    (hv : v.rafts = w.rafts) (ha : v.applying = w.applying) (hc : v.applyCh = w.applyCh)
    (hd : v.applied = w.applied) (hi : v.incarnation = w.incarnation) :
    Effect w e (v.update i (v.rafts i) new) := by
  -- an idle round of the ticker leaves a peer that is no leader alone; here any
  -- section that changes nothing will do
  refine Effect.of_update (s := .installSnapshotReply ⟨(w.rafts i).currentTerm⟩) hv ha hc hd hi
    (by simp) (by simp) ?_
  simp [Peer.runSection, Peer.handleInstallSnapshotReply, hv]

theorem effect_runGoroutine {w w' : World n C D} {k : Nat} {i : Fin n} {g : Goroutine n}
    (h : (w.take k).runGoroutine i g = some w') : Effect w (.task k) w' := by
  cases g with
  | handleSendRequestVote server t =>
    obtain ⟨args, -, h⟩ := Option.bind_eq_some_iff.mp h
    cases h
    exact .same rfl rfl rfl rfl rfl
  | handleSendAppendEntries server =>
    obtain ⟨⟨rf, d⟩, hs, h⟩ := Option.bind_eq_some_iff.mp h
    cases h
    refine .of_update (s := .sendAppendEntries server) rfl rfl rfl rfl rfl (by simp) (by simp) ?_
    exact Option.map_eq_some_iff.mpr ⟨_, hs, rfl⟩
  | handleSendInstallSnapshot server =>
    cases h
    exact .same rfl rfl rfl rfl rfl

theorem effect_deliver {w w' : World n C D} {k : Nat} {src dst : Fin n} {waiting : Bool}
    {req : Request n C D} (h : (w.take k).deliver src dst waiting req = some w') :
    Effect w (.task k) w' := by
  cases req with
  | requestVote args =>
    obtain ⟨⟨rf, reply⟩, hs, h⟩ := Option.bind_eq_some_iff.mp h
    cases h
    refine .of_update (s := .requestVote args) rfl rfl rfl rfl rfl (by simp) (by simp) ?_
    exact Option.map_eq_some_iff.mpr ⟨_, hs, rfl⟩
  | appendEntries args =>
    obtain ⟨⟨rf, reply, b⟩, hs, h⟩ := Option.bind_eq_some_iff.mp h
    cases h
    refine .of_update (s := .appendEntries args) rfl rfl rfl rfl rfl (by simp) (by simp) ?_
    exact Option.map_eq_some_iff.mpr ⟨_, hs, rfl⟩
  | installSnapshot args =>
    unfold deliver at h
    dsimp only at h
    split at h
    · exact absurd h (by simp)
    · obtain ⟨⟨rf, reply, b⟩, hs, h⟩ := Option.bind_eq_some_iff.mp h
      cases h
      refine .of_update (s := .installSnapshot args) rfl rfl rfl rfl rfl (by simp) (by simp) ?_
      exact Option.map_eq_some_iff.mpr ⟨_, hs, rfl⟩

theorem effect_receive {w w' : World n C D} {k : Nat} {src dst : Fin n} {ans : Answer n C D}
    (h : (w.take k).receive src dst ans = some w') : Effect w (.task k) w' := by
  cases ans with
  | requestVote args reply =>
    cases h
    exact .of_update (s := .requestVoteReply reply) rfl rfl rfl rfl rfl (by simp) (by simp) rfl
  | appendEntries args reply =>
    obtain ⟨⟨rf, gs, b⟩, hs, h⟩ := Option.bind_eq_some_iff.mp h
    cases h
    refine .of_update (s := .appendEntriesReply dst args reply) rfl rfl rfl rfl rfl (by simp)
      (by simp) ?_
    exact Option.map_eq_some_iff.mpr ⟨_, hs, rfl⟩
  | installSnapshot args reply =>
    cases h
    exact .of_update (s := .installSnapshotReply reply) rfl rfl rfl rfl rfl (by simp) (by simp) rfl

theorem effect_commit {w w' : World n C D} {k : Nat} {i : Fin n}
    {next : Option (Fin n × Answer n C D)} (h : (w.take k).commit i next = some w') :
    Effect w (.task k) w' := by
  unfold commit at h
  split at h
  · exact absurd h (by simp)
  · rename_i hn
    obtain ⟨⟨rf, msgs⟩, hs, h⟩ := Option.bind_eq_some_iff.mp h
    cases h
    exact .collected i next rf msgs (Option.not_isSome_iff_eq_none.mp hn) hs rfl rfl rfl rfl rfl

/-- **There are no other steps.** -/
theorem effect_of_step {w w' : World n C D} {e : Event C D n} (h : w.step e = some w') :
    Effect w e w' := by
  cases e with
  | ticker i timedOut =>
    cases h
    exact .of_update (s := .ticker timedOut) rfl rfl rfl rfl rfl (by simp) (by simp) rfl
  | start i command =>
    cases h
    exact .of_update (s := .start command) rfl rfl rfl rfl rfl (by simp) (by simp) rfl
  | snapshot i index data =>
    obtain ⟨rf, hs, h⟩ := Option.bind_eq_some_iff.mp h
    cases h
    refine .of_update (s := .snapshot index data) rfl rfl rfl rfl rfl (by simp) ?_ hs
    intro index' data' heq
    cases heq
    rfl
  | task k =>
    unfold step runTask at h
    dsimp only at h
    split at h
    · exact absurd h (by simp)
    · exact effect_runGoroutine h
    · exact effect_deliver h
    · exact effect_receive h
    · exact effect_commit h
  | fail k =>
    unfold step failTask at h
    dsimp only at h
    split at h
    · rename_i src dst args _
      obtain ⟨rf, hs, h⟩ := Option.bind_eq_some_iff.mp h
      cases h
      exact .of_update (s := .installSnapshotFailure dst args) rfl rfl rfl rfl rfl (by simp)
        (by simp) hs
    · rename_i src dst args _ _
      obtain ⟨rf, hs, h⟩ := Option.bind_eq_some_iff.mp h
      cases h
      exact .of_update (s := .installSnapshotFailure dst args) rfl rfl rfl rfl rfl (by simp)
        (by simp) hs
    · exact absurd h (by simp)
  | applyNext i =>
    unfold step applyNext at h
    dsimp only at h
    split at h
    · exact absurd h (by simp)
    · rename_i msg msgs next ha
      cases h
      exact .sent i next msg msgs ha rfl rfl rfl rfl rfl
    · rename_i next ha
      cases h
      exact .released i next ha rfl rfl rfl rfl rfl
  | restart i =>
    cases h
    exact .restarted i rfl

/-! ### What every peer keeps -/

/-- Peer `i` knows its id, and its store recovers it. -/
structure Healthy (i : Fin n) (rf : Peer n C D) : Prop where
  me : rf.me = i
  recovers : rf.Recovers
  journal : rf.persister = .ofJournal rf.persister.journal

theorem make_persister (i : Fin n) (ps : Persister n C D) : (Peer.make i ps).persister = ps := by
  unfold Peer.make Peer.readPersist
  split <;> rfl

theorem make_me (i : Fin n) (ps : Persister n C D) : (Peer.make i ps).me = i := by
  unfold Peer.make Peer.readPersist
  split <;> rfl

theorem healthy_make {i : Fin n} {ps : Persister n C D} (h : ps = .ofJournal ps.journal) :
    Healthy i (Peer.make i ps) :=
  ⟨make_me _ _, Peer.recovers_make _ _, by rw [make_persister]; exact h⟩

theorem healthy_section {i : Fin n} {rf rf' : Peer n C D} {s : Section n C D} (h : Healthy i rf)
    (hs : rf.runSection s = some rf') :
    Healthy i rf' ∧ rf.currentTerm ≤ rf'.currentTerm ∧
      rf.snapshotEntriesAmount ≤ rf'.snapshotEntriesAmount := by
  have hg := Peer.grows_section h.journal hs
  have hr := Peer.recovers_section h.recovers hs
  obtain ⟨ht, ha⟩ := hg.tip h.journal h.recovers hr
  refine ⟨⟨hg.me.trans h.me, hr, hg.journal⟩, ht, ?_⟩
  rcases ha with ⟨ha, -⟩ | ⟨ha, -⟩
  · exact ha.ge
  · exact ha.le

theorem make_getPersistData {i : Fin n} {rf : Peer n C D} (h : Healthy i rf) :
    (Peer.make i rf.persister).getPersistData = rf.getPersistData := by
  have hr := h.recovers
  rw [Peer.Recovers, h.me] at hr
  exact hr

/-- **Every step keeps every peer healthy**, and no term and no boundary goes back. -/
theorem Effect.healthy {w w' : World n C D} {e : Event C D n} (he : Effect w e w')
    (h : ∀ i, Healthy i (w.rafts i)) :
    ∀ i, Healthy i (w'.rafts i) ∧ (w.rafts i).currentTerm ≤ (w'.rafts i).currentTerm ∧
      (w.rafts i).snapshotEntriesAmount ≤ (w'.rafts i).snapshotEntriesAmount := by
  intro j
  have hupd : ∀ (i : Fin n) (s : Section n C D) (rf' : Peer n C D),
      (w.rafts i).runSection s = some rf' → w'.rafts = Function.update w.rafts i rf' →
      Healthy j (w'.rafts j) ∧ (w.rafts j).currentTerm ≤ (w'.rafts j).currentTerm ∧
        (w.rafts j).snapshotEntriesAmount ≤ (w'.rafts j).snapshotEntriesAmount := by
    intro i s rf' hs hw
    rw [hw]
    by_cases hij : j = i
    · rw [hij, Function.update_self]
      exact healthy_section (h i) hs
    · rw [Function.update_of_ne hij]
      exact ⟨h j, le_rfl, le_rfl⟩
  cases he with
  | ran i s rf' _ _ hs hw _ _ _ _ => exact hupd i s rf' hs hw
  | collected i next rf' msgs _ hs hw _ _ _ _ =>
    exact hupd i .commitToApplyChannel rf' (Option.map_eq_some_iff.mpr ⟨_, hs, rfl⟩) hw
  | sent i next msg msgs _ hw _ _ _ _ => rw [hw]; exact ⟨h j, le_rfl, le_rfl⟩
  | released i next _ hw _ _ _ _ => rw [hw]; exact ⟨h j, le_rfl, le_rfl⟩
  | restarted i hw =>
    subst hw
    change Healthy j (Function.update w.rafts i _ j) ∧
      _ ≤ (Function.update w.rafts i _ j).currentTerm ∧
      _ ≤ (Function.update w.rafts i _ j).snapshotEntriesAmount
    by_cases hij : j = i
    · rw [hij, Function.update_self]
      have hd := make_getPersistData (h i)
      exact ⟨healthy_make (h i).journal, (congrArg PersistData.currentTerm hd).ge,
        (congrArg PersistData.snapshotEntriesAmount hd).ge⟩
    · rw [Function.update_of_ne hij]
      exact ⟨h j, le_rfl, le_rfl⟩

theorem healthy_init : ∀ i : Fin n, Healthy i ((init : World n C D).rafts i) := by
  intro i
  change Healthy i (Peer.make i .makePersister)
  exact healthy_make rfl

theorem healthy_step {w w' : World n C D} {e : Event C D n} (hh : ∀ i, Healthy i (w.rafts i))
    (hs : w.step e = some w') : ∀ i, Healthy i (w'.rafts i) :=
  fun i => ((effect_of_step hs).healthy hh i).1

theorem healthy_run {ok : World n C D → Event C D n → Prop} :
    ∀ tr, Run ok tr → ∀ w ∈ tr, ∀ i, Healthy i (w.rafts i) :=
  Trace.invariant healthy_init fun _ _ _ h _ hs => healthy_step h hs

/-! ### The step relation written out -/

/-- One step of the cluster.  Where a peer runs a section, its outcome says
which way it went. -/
inductive Move (w : World n C D) : Event C D n → World n C D → Prop
  | heartbeat {e : Event C D n} (i : Fin n) : (w.rafts i).status = .leader →
      Move w e (w.update i (w.rafts i) (spawn i (w.rafts i).broadcastAppendEntries))
  | idle {e : Event C D n} (i : Fin n) : Move w e (w.update i (w.rafts i) [])
  | election {e : Event C D n} (i : Fin n) : (w.rafts i).status ≠ .leader →
      Move w e (w.update i (w.rafts i).becomeCandidate
        (spawn i (w.rafts i).becomeCandidate.candidateGatherVotes))
  | start (i : Fin n) (command : C) : (w.rafts i).status = .leader →
      Move w (.start i command)
        (w.update i ((w.rafts i).appendToLogEntries command).persist [])
  | snapshot (i : Fin n) (index : Int) (data : D) (rf' : Peer n C D) :
      Peer.SnapshotOutcome (w.rafts i) index data rf' →
      Move w (.snapshot i index data) (w.update i rf' [])
  | askVote (k : Nat) (i server : Fin n) (election : Int) :
      w.tasks[k]? = some (.goroutine i (.handleSendRequestVote server election)) →
      Move w (.task k) ((w.take k).update i (w.rafts i)
        [.request i server (.requestVote ⟨(w.rafts i).currentTerm, (w.rafts i).me,
          (w.rafts i).getLastLogEntryIndex, (w.rafts i).lastTerm⟩) true])
  | sendAppend (k : Nat) (i server : Fin n) (rf' : Peer n C D) (d : Peer.AppendDecision n C) :
      w.tasks[k]? = some (.goroutine i (.handleSendAppendEntries server)) →
      Peer.SendOutcome (w.rafts i) rf' d →
      Move w (.task k) ((w.take k).update i rf' (match d with
        | .installSnapshot => [.goroutine i (.handleSendInstallSnapshot server)]
        | .notLeader => []
        | .send args => [.request i server (.appendEntries args) true]))
  | sendInstall (k : Nat) (i server : Fin n) :
      w.tasks[k]? = some (.goroutine i (.handleSendInstallSnapshot server)) →
      Move w (.task k) ((w.take k).update i (w.rafts i)
        [.request i server (.installSnapshot (w.rafts i).createInstallSnapshotArgs) true])
  | vote (k : Nat) (src dst : Fin n) (waiting : Bool) (args : RequestVoteArgs n)
      (rf' : Peer n C D) (reply : RequestVoteReply) :
      w.tasks[k]? = some (.request src dst (.requestVote args) waiting) →
      Peer.VoteOutcome (w.rafts dst) args rf' reply →
      Move w (.task k) ((w.take k).update dst rf'
        (answerIf waiting src dst (.requestVote args reply)))
  | append (k : Nat) (src dst : Fin n) (waiting : Bool) (args : AppendEntriesArgs n C)
      (rf' : Peer n C D) (reply : AppendEntriesReply) (ok : Bool) :
      w.tasks[k]? = some (.request src dst (.appendEntries args) waiting) →
      Peer.AppendOutcome (w.rafts dst) args rf' reply ok →
      Move w (.task k) ((w.take k).update dst rf'
        (if ok then [.commit dst (if waiting then some (src, .appendEntries args reply) else none)]
          else answerIf waiting src dst (.appendEntries args reply)))
  | install (k : Nat) (src dst : Fin n) (waiting : Bool) (args : InstallSnapshotArgs n D)
      (rf' : Peer n C D) (reply : InstallSnapshotReply) :
      w.tasks[k]? = some (.request src dst (.installSnapshot args) waiting) →
      Peer.InstallOutcome (w.rafts dst) args rf' →
      Move w (.task k) ((w.take k).update dst rf'
        (answerIf waiting src dst (.installSnapshot args reply)))
  | voteReply (k : Nat) (src dst : Fin n) (args : RequestVoteArgs n) (reply : RequestVoteReply)
      (rf' : Peer n C D) (gs : List (Goroutine n)) :
      w.tasks[k]? = some (.answer src dst (.requestVote args reply)) →
      Peer.VoteReplyOutcome (w.rafts src) reply rf' gs →
      Move w (.task k) ((w.take k).update src rf' (spawn src gs))
  | appendReply (k : Nat) (src dst : Fin n) (args : AppendEntriesArgs n C)
      (reply : AppendEntriesReply) (rf' : Peer n C D) (gs : List (Goroutine n)) (commit : Bool) :
      w.tasks[k]? = some (.answer src dst (.appendEntries args reply)) →
      Peer.AppendReplyOutcome (w.rafts src) dst args reply rf' gs commit →
      Move w (.task k) ((w.take k).update src rf'
        (spawn src gs ++ if commit then [.commit src none] else []))
  | installReply (k : Nat) (src dst : Fin n) (args : InstallSnapshotArgs n D)
      (reply : InstallSnapshotReply) :
      w.tasks[k]? = some (.answer src dst (.installSnapshot args reply)) →
      Move w (.task k) ((w.take k).update src
        ((w.rafts src).handleInstallSnapshotReply reply) [])
  | failRequest (k : Nat) (src dst : Fin n) (args : InstallSnapshotArgs n D) :
      w.tasks[k]? = some (.request src dst (.installSnapshot args) true) →
      Move w (.fail k) ((w.take k).update src ((w.rafts src).setMatch dst args.lastIncludedIndex)
        [.request src dst (.installSnapshot args) false])
  | failAnswer (k : Nat) (src dst : Fin n) (args : InstallSnapshotArgs n D)
      (reply : InstallSnapshotReply) :
      w.tasks[k]? = some (.answer src dst (.installSnapshot args reply)) →
      Move w (.fail k) ((w.take k).update src ((w.rafts src).setMatch dst args.lastIncludedIndex)
        [])
  | collect (k : Nat) (i : Fin n) (next : Option (Fin n × Answer n C D)) (rf' : Peer n C D)
      (msgs : List (ApplyMsg C D)) :
      w.tasks[k]? = some (.commit i next) → w.applying i = none →
      Peer.ApplyOutcome (w.rafts i) rf' msgs →
      Move w (.task k) { (w.take k).update i rf' [] with
        applying := Function.update w.applying i (some (msgs, next)) }
  | send (i : Fin n) (next : Option (Fin n × Answer n C D)) (msg : ApplyMsg C D)
      (msgs : List (ApplyMsg C D)) : w.applying i = some (msg :: msgs, next) →
      Move w (.applyNext i) { w with
        applying := Function.update w.applying i (some (msgs, next))
        applyCh := Function.update w.applyCh i (w.applyCh i ++ [msg])
        applied := w.applied ++ [(i, msg)] }
  | release (i : Fin n) (next : Option (Fin n × Answer n C D)) :
      w.applying i = some ([], next) →
      Move w (.applyNext i) { w with
        applying := Function.update w.applying i none
        tasks := w.tasks ++ (next.map fun (src, ans) => Task.answer src i ans).toList }
  | restart (i : Fin n) : Move w (.restart i) (w.restart i)

theorem move_runGoroutine {w w' : World n C D} {k : Nat} {i : Fin n} {g : Goroutine n}
    (ht : w.tasks[k]? = some (.goroutine i g)) (h : (w.take k).runGoroutine i g = some w') :
    Move w (.task k) w' := by
  cases g with
  | handleSendRequestVote server t =>
    obtain ⟨args, ha, h⟩ := Option.bind_eq_some_iff.mp h
    obtain ⟨lt, hlt, ha⟩ := Option.bind_eq_some_iff.mp ha
    rw [Peer.getLastLogEntryTerm_eq] at hlt
    cases hlt
    cases ha
    cases h
    exact .askVote k i server t ht
  | handleSendAppendEntries server =>
    obtain ⟨⟨rf, d⟩, hs, h⟩ := Option.bind_eq_some_iff.mp h
    cases h
    exact .sendAppend k i server rf d ht (Peer.handleSendAppendEntries_outcome hs)
  | handleSendInstallSnapshot server =>
    cases h
    exact .sendInstall k i server ht

theorem move_deliver {w w' : World n C D} {k : Nat} {src dst : Fin n} {waiting : Bool}
    {req : Request n C D} (ht : w.tasks[k]? = some (.request src dst req waiting))
    (h : (w.take k).deliver src dst waiting req = some w') : Move w (.task k) w' := by
  cases req with
  | requestVote args =>
    obtain ⟨⟨rf, reply⟩, hs, h⟩ := Option.bind_eq_some_iff.mp h
    cases h
    exact .vote k src dst waiting args rf reply ht (Peer.requestVote_outcome hs)
  | appendEntries args =>
    obtain ⟨⟨rf, reply, b⟩, hs, h⟩ := Option.bind_eq_some_iff.mp h
    cases h
    exact .append k src dst waiting args rf reply b ht (Peer.appendEntriesWithLock_outcome hs)
  | installSnapshot args =>
    unfold deliver at h
    dsimp only at h
    split at h
    · exact absurd h (by simp)
    · obtain ⟨⟨rf, reply, b⟩, hs, h⟩ := Option.bind_eq_some_iff.mp h
      cases h
      exact .install k src dst waiting args rf reply ht (Peer.installSnapshotLocked_outcome hs)

theorem move_receive {w w' : World n C D} {k : Nat} {src dst : Fin n} {ans : Answer n C D}
    (ht : w.tasks[k]? = some (.answer src dst ans)) (h : (w.take k).receive src dst ans = some w') :
    Move w (.task k) w' := by
  cases ans with
  | requestVote args reply =>
    cases h
    exact .voteReply k src dst args reply _ _ ht (Peer.handleRequestVoteReply_outcome rfl)
  | appendEntries args reply =>
    obtain ⟨⟨rf, gs, b⟩, hs, h⟩ := Option.bind_eq_some_iff.mp h
    cases h
    exact .appendReply k src dst args reply rf gs b ht (Peer.handleAppendEntriesReply_outcome hs)
  | installSnapshot args reply =>
    cases h
    exact .installReply k src dst args reply ht

/-- **The relation is the step function.** -/
theorem move_of_step {w w' : World n C D} {e : Event C D n} (h : w.step e = some w') :
    Move w e w' := by
  cases e with
  | ticker i timedOut =>
    unfold step Peer.ticker at h
    dsimp only at h
    by_cases hl : (w.rafts i).status = .leader
    · rw [if_pos hl] at h
      cases h
      exact .heartbeat i hl
    rw [if_neg hl] at h
    by_cases ht : timedOut = true
    · rw [if_pos ht] at h
      cases h
      exact .election i hl
    · rw [if_neg ht] at h
      cases h
      exact .idle i
  | start i command =>
    unfold step Peer.start at h
    dsimp only at h
    by_cases hl : (w.rafts i).status ≠ .leader
    · rw [if_pos hl] at h
      cases h
      exact .idle i
    · rw [if_neg hl] at h
      cases h
      exact .start i command (not_not.mp hl)
  | snapshot i index data =>
    obtain ⟨rf, hs, h⟩ := Option.bind_eq_some_iff.mp h
    cases h
    exact .snapshot i index data rf (Peer.snapshot_outcome hs)
  | task k =>
    unfold step runTask at h
    dsimp only at h
    split at h
    · exact absurd h (by simp)
    · rename_i ht; exact move_runGoroutine ht h
    · rename_i ht; exact move_deliver ht h
    · rename_i ht; exact move_receive ht h
    · rename_i i next ht
      unfold commit at h
      split at h
      · exact absurd h (by simp)
      · rename_i hn
        obtain ⟨⟨rf, msgs⟩, hs, h⟩ := Option.bind_eq_some_iff.mp h
        cases h
        exact .collect k i next rf msgs ht (Option.not_isSome_iff_eq_none.mp hn)
          (Peer.commitToApplyChannelWithLock_outcome hs)
  | fail k =>
    unfold step failTask at h
    dsimp only at h
    split at h
    · rename_i src dst args ht
      obtain ⟨rf, hs, h⟩ := Option.bind_eq_some_iff.mp h
      rw [Peer.handleInstallSnapshotFailure_eq_some hs] at h
      cases h
      exact .failRequest k src dst args ht
    · rename_i src dst args reply ht
      obtain ⟨rf, hs, h⟩ := Option.bind_eq_some_iff.mp h
      rw [Peer.handleInstallSnapshotFailure_eq_some hs] at h
      cases h
      exact .failAnswer k src dst args reply ht
    · exact absurd h (by simp)
  | applyNext i =>
    unfold step applyNext at h
    dsimp only at h
    split at h
    · exact absurd h (by simp)
    · rename_i msg msgs next ha
      cases h
      exact .send i next msg msgs ha
    · rename_i next ha
      cases h
      exact .release i next ha
  | restart i =>
    cases h
    exact .restart i

/-! ### The task a step runs

`Move` forgets what a section computes where its outcome does not say it.  These lemmas
keep the call itself. -/

section called

variable {w w' : World n C D} {k : Nat} {src dst : Fin n} {waiting : Bool}

theorem step_requestVote {args : RequestVoteArgs n}
    (ht : w.tasks[k]? = some (.request src dst (.requestVote args) waiting))
    (hs : w.step (.task k) = some w') :
    ∃ rf' reply, (w.rafts dst).requestVote args = some (rf', reply) ∧
      w' = (w.take k).update dst rf' (answerIf waiting src dst (.requestVote args reply)) := by
  have hs : w.runTask k = some w' := hs
  rw [runTask, ht] at hs
  obtain ⟨⟨rf', reply⟩, hr, hs⟩ := Option.bind_eq_some_iff.mp hs
  exact ⟨rf', reply, hr, (Option.some.inj hs).symm⟩

theorem step_appendEntries {args : AppendEntriesArgs n C}
    (ht : w.tasks[k]? = some (.request src dst (.appendEntries args) waiting))
    (hs : w.step (.task k) = some w') :
    ∃ rf' reply ok, (w.rafts dst).appendEntriesWithLock args = some (rf', reply, ok) ∧
      w' = (w.take k).update dst rf' (if ok
        then [.commit dst (if waiting then some (src, .appendEntries args reply) else none)]
        else answerIf waiting src dst (.appendEntries args reply)) := by
  have hs : w.runTask k = some w' := hs
  rw [runTask, ht] at hs
  obtain ⟨⟨rf', reply, ok⟩, hr, hs⟩ := Option.bind_eq_some_iff.mp hs
  exact ⟨rf', reply, ok, hr, (Option.some.inj hs).symm⟩

theorem step_installSnapshot {args : InstallSnapshotArgs n D}
    (ht : w.tasks[k]? = some (.request src dst (.installSnapshot args) waiting))
    (hs : w.step (.task k) = some w') :
    ∃ rf' reply b, (w.rafts dst).installSnapshotLocked args = some (rf', reply, b) ∧
      w' = (w.take k).update dst rf' (answerIf waiting src dst (.installSnapshot args reply)) := by
  have hs : w.runTask k = some w' := hs
  rw [runTask, ht] at hs
  unfold deliver at hs
  dsimp only at hs
  split at hs
  · exact absurd hs (by simp)
  · obtain ⟨⟨rf', reply, b⟩, hr, hs⟩ := Option.bind_eq_some_iff.mp hs
    exact ⟨rf', reply, b, hr, (Option.some.inj hs).symm⟩

theorem step_sendAppendEntries {i server : Fin n}
    (ht : w.tasks[k]? = some (.goroutine i (.handleSendAppendEntries server)))
    (hs : w.step (.task k) = some w') :
    ∃ rf' d, (w.rafts i).handleSendAppendEntries server = some (rf', d) ∧
      w' = (w.take k).update i rf' (match d with
        | .installSnapshot => [.goroutine i (.handleSendInstallSnapshot server)]
        | .notLeader => []
        | .send args => [.request i server (.appendEntries args) true]) := by
  have hs : w.runTask k = some w' := hs
  rw [runTask, ht] at hs
  obtain ⟨⟨rf', d⟩, hr, hs⟩ := Option.bind_eq_some_iff.mp hs
  exact ⟨rf', d, hr, (Option.some.inj hs).symm⟩

theorem step_appendEntriesReply {args : AppendEntriesArgs n C} {reply : AppendEntriesReply}
    (ht : w.tasks[k]? = some (.answer src dst (.appendEntries args reply)))
    (hs : w.step (.task k) = some w') :
    ∃ rf' gs commit,
      (w.rafts src).handleAppendEntriesReply dst args reply = some (rf', gs, commit) ∧
      w' = (w.take k).update src rf'
        (spawn src gs ++ if commit then [.commit src none] else []) := by
  have hs : w.runTask k = some w' := hs
  rw [runTask, ht] at hs
  obtain ⟨⟨rf', gs, commit⟩, hr, hs⟩ := Option.bind_eq_some_iff.mp hs
  exact ⟨rf', gs, commit, hr, (Option.some.inj hs).symm⟩

end called

/-! ### What survives a restart -/

theorem make_status (i : Fin n) (ps : Persister n C D) :
    (Peer.make i ps).status = .follower := by
  unfold Peer.make Peer.readPersist
  split <;> rfl

theorem make_commitIndex (i : Fin n) (ps : Persister n C D) :
    (Peer.make i ps).commitIndex = -1 := by
  unfold Peer.make Peer.readPersist
  split <;> rfl

omit [Inhabited C]

theorem forget_eq (i : Fin n) (next : Option (Fin n × Answer n C D)) :
    forget i next = none ∨ forget i next = next := by
  cases next with
  | none => exact .inl rfl
  | some p =>
    unfold forget
    dsimp only
    split
    · exact .inl rfl
    · exact .inr rfl

/-- What a task that survives the crash of `i` looks like. -/
inductive Survives (i : Fin n) : Task n C D → Task n C D → Prop
  | goroutine {j : Fin n} {g : Goroutine n} : j ≠ i →
      Survives i (.goroutine j g) (.goroutine j g)
  | request {src dst : Fin n} {req : Request n C D} {waiting waiting' : Bool} :
      Survives i (.request src dst req waiting) (.request src dst req waiting')
  | answer {src dst : Fin n} {ans : Answer n C D} : src ≠ i →
      Survives i (.answer src dst ans) (.answer src dst ans)
  | commit {j : Fin n} {next next' : Option (Fin n × Answer n C D)} : j ≠ i →
      next' = none ∨ next' = next → Survives i (.commit j next) (.commit j next')

theorem survives_of_afterCrash {i : Fin n} {t t' : Task n C D} (h : afterCrash i t = some t') :
    Survives i t t' := by
  cases t with
  | goroutine j g =>
    change (if j = i then none else some (.goroutine j g)) = some t' at h
    by_cases hj : j = i
    · rw [if_pos hj] at h; exact absurd h (by simp)
    · rw [if_neg hj] at h; rw [← Option.some.inj h]; exact .goroutine hj
  | request src dst req waiting =>
    rw [← Option.some.inj h]; exact .request
  | answer src dst ans =>
    change (if src = i then none else some (.answer src dst ans)) = some t' at h
    by_cases hj : src = i
    · rw [if_pos hj] at h; exact absurd h (by simp)
    · rw [if_neg hj] at h; rw [← Option.some.inj h]; exact .answer hj
  | commit j next =>
    change (if j = i then none else some (.commit j (forget i next))) = some t' at h
    by_cases hj : j = i
    · rw [if_pos hj] at h; exact absurd h (by simp)
    · rw [if_neg hj] at h; rw [← Option.some.inj h]; exact .commit hj (forget_eq i next)

/-! ### Answers and queues -/

theorem mem_answerIf {waiting : Bool} {src dst : Fin n} {ans : Answer n C D} {task : Task n C D}
    (h : task ∈ answerIf waiting src dst ans) : task = .answer src dst ans := by
  cases waiting with
  | false => exact absurd h (by simp [answerIf])
  | true => exact List.mem_singleton.mp h

/-- The answer a goroutine still owes when it releases `applyMu`. -/
theorem mem_owed {i : Fin n} {next : Option (Fin n × Answer n C D)} {task : Task n C D}
    (h : task ∈ (next.map fun (src, ans) => Task.answer src i ans).toList) :
    ∃ src ans, next = some (src, ans) ∧ task = .answer src i ans := by
  obtain ⟨⟨src, ans⟩, hnext, heq⟩ := Option.map_eq_some_iff.mp (Option.mem_toList.mp h)
  exact ⟨src, ans, hnext, heq.symm⟩

section queues

variable {P : Fin n → List (ApplyMsg C D) → Option (Fin n × Answer n C D) → Prop}

theorem applying_update
    {f : Fin n → Option (List (ApplyMsg C D) × Option (Fin n × Answer n C D))}
    (h : ∀ i msgs next, f i = some (msgs, next) → P i msgs next) {i : Fin n}
    {x : Option (List (ApplyMsg C D) × Option (Fin n × Answer n C D))}
    (hx : ∀ msgs next, x = some (msgs, next) → P i msgs next) :
    ∀ j msgs next, Function.update f i x j = some (msgs, next) → P j msgs next := by
  intro j msgs next ha
  by_cases hj : j = i
  · rw [hj, Function.update_self] at ha
    rw [hj]
    exact hx msgs next ha
  · rw [Function.update_of_ne hj] at ha
    exact h j msgs next ha

/-- A crash empties the queue of one peer, and the others may lose the answer they owe it. -/
theorem applying_restart [Inhabited C] {w : World n C D}
    (h : ∀ i msgs next, w.applying i = some (msgs, next) → P i msgs next)
    (hnone : ∀ i msgs next, P i msgs next → P i msgs none) (i : Fin n) :
    ∀ j msgs next, (w.restart i).applying j = some (msgs, next) → P j msgs next := by
  intro j msgs next ha
  by_cases hj : j = i
  · rw [hj] at ha
    simp [restart] at ha
  · simp only [restart, Function.update_of_ne hj] at ha
    obtain ⟨⟨msgs', next'⟩, hap, heq⟩ := Option.map_eq_some_iff.mp ha
    obtain ⟨rfl, rfl⟩ := Prod.mk.inj heq
    have hP := h j msgs' next' hap
    rcases forget_eq i next' with hn | hn
    · rw [hn]
      exact hnone _ _ _ hP
    · rw [hn]
      exact hP

end queues

end World

end ShardRaft.Raft
