import ShardRaft.Lib.Ledger
import ShardRaft.Raft.Turns

/-!
# Only leaders lead

`AppendEntries` and `InstallSnapshot` make their receiver follow, so they should be sent by
leaders only.  Both are built by a goroutine that may take the lock long after it was
spawned.  `handleSendAppendEntries` looks at the status again before it builds its
arguments; `handleSendInstallSnapshot` does not.

The record of a run (`sent`) has every such request, together with the status and the term
which the peer named in it had when the arguments were built.  A run sends in the name of
leaders only, exactly if every `handleSendInstallSnapshot` finds its peer leading when it
takes the lock (`only_leaders_lead`).
-/

namespace ShardRaft.Raft

open ShardRaft.Lib

variable {n : Nat} {C D : Type}

/-- The term and the leader in whose name a request is sent. -/
def Request.lead : Request n C D → Option (Int × Fin n)
  | .requestVote _ => none
  | .appendEntries args => some (args.term, args.leaderId)
  | .installSnapshot args => some (args.term, args.leaderId)

/-- A request in the name of a leader, and what that peer was when it was built. -/
structure Sent (n : Nat) (C D : Type) where
  request : Request n C D
  term : Int
  leaderId : Fin n
  status : RaftStatus
  currentTerm : Int
deriving DecidableEq, Repr

/-- The peer named in the request was leader of its term. -/
def Sent.Led (x : Sent n C D) : Prop := x.status = .leader ∧ x.currentTerm = x.term

instance (x : Sent n C D) : Decidable x.Led := inferInstanceAs (Decidable (_ ∧ _))

namespace World

/-- The request in the name of a leader that a step puts on the network. -/
def builds (w : World n C D) (e : Event C D n) : Option (Request n C D) :=
  match w.picked e with
  | some (.goroutine i (.handleSendAppendEntries server)) =>
    match (w.rafts i).handleSendAppendEntries server with
    | some (_, .send args) => some (.appendEntries args)
    | _ => none
  | some (.goroutine i (.handleSendInstallSnapshot _)) =>
    some (.installSnapshot (w.rafts i).createInstallSnapshotArgs)
  | _ => none

/-- What goes on record when a request is built. -/
def witnessed (w : World n C D) (req : Request n C D) : Option (Sent n C D) :=
  req.lead.map fun (term, leaderId) =>
    ⟨req, term, leaderId, (w.rafts leaderId).status, (w.rafts leaderId).currentTerm⟩

/-- What a step writes down. -/
def sent (w : World n C D) (e : Event C D n) : List (Sent n C D) :=
  ((w.builds e).bind w.witnessed).toList

/-- The owner of a goroutine that is about to send a snapshot. -/
def installing : Task n C D → Option (Fin n)
  | .goroutine i (.handleSendInstallSnapshot _) => some i
  | _ => none

/-- A snapshot is sent by a peer that leads. -/
def InstallsAsLeader (w : World n C D) (e : Event C D n) : Prop :=
  ∀ i ∈ (w.picked e).bind installing, (w.rafts i).status = .leader

instance (w : World n C D) (e : Event C D n) : Decidable (w.InstallsAsLeader e) :=
  inferInstanceAs (Decidable (∀ i ∈ (w.picked e).bind installing, (w.rafts i).status = .leader))

/-- The runs of the cluster with the record of the requests sent. -/
abbrev SendRun [Inhabited C] (ok : World n C D → Event C D n → Prop) :
    List (Ledger (World n C D) (Sent n C D)) → Prop :=
  Trace (Ledger.step step sent) (fun l e => ok l.state e) (Ledger.start init)

theorem run_iff_sendRun [Inhabited C] {ok : World n C D → Event C D n → Prop}
    {tr : List (World n C D)} : Run ok tr ↔ ∃ ls, SendRun ok ls ∧ ls.map (·.state) = tr :=
  Ledger.trace_iff

theorem leaderId_of_send {rf rf' : Peer n C D} {server : Fin n} {args : AppendEntriesArgs n C}
    (h : rf.handleSendAppendEntries server = some (rf', .send args)) : args.leaderId = rf.me := by
  unfold Peer.handleSendAppendEntries at h
  obtain ⟨next, -, h⟩ := Option.bind_eq_some_iff.mp h
  by_cases hb : next < rf.snapshotEntriesAmount
  · rw [if_pos hb] at h
    cases h
  rw [if_neg hb] at h
  by_cases hl : rf.status ≠ .leader
  · rw [if_pos hl] at h
    cases h
  rw [if_neg hl] at h
  obtain ⟨args', ha, h⟩ := Option.bind_eq_some_iff.mp h
  cases h
  unfold Peer.createAppendEntriesArgs at ha
  obtain ⟨t, -, ha⟩ := Option.bind_eq_some_iff.mp ha
  obtain ⟨es, -, ha⟩ := Option.bind_eq_some_iff.mp ha
  cases ha
  rfl

/-- **One step**: what it writes down was sent by a leader, exactly if it does not send a
snapshot for anybody else. -/
theorem installsAsLeader_iff [Inhabited C] {w : World n C D} (hh : ∀ i, Healthy i (w.rafts i))
    (e : Event C D n) : w.InstallsAsLeader e ↔ ∀ x ∈ w.sent e, x.Led := by
  unfold InstallsAsLeader sent builds
  cases hp : w.picked e with
  | none => simp
  | some task =>
    cases task with
    | request src dst req waiting => simp [installing]
    | answer src dst ans => simp [installing]
    | commit i next => simp [installing]
    | goroutine i g =>
      have hme := (hh i).me
      cases g with
      | handleSendRequestVote server election => simp [installing]
      | handleSendInstallSnapshot server =>
        simp [installing, witnessed, Request.lead, Peer.createInstallSnapshotArgs, Sent.Led, hme]
      | handleSendAppendEntries server =>
        simp only [Option.bind_some, installing, Option.mem_def, reduceCtorEq, false_imp_iff,
          implies_true, true_iff]
        intro x hx
        cases hs : (w.rafts i).handleSendAppendEntries server with
        | none => rw [hs] at hx; exact absurd hx (by simp)
        | some y =>
          obtain ⟨rf', d⟩ := y
          rw [hs] at hx
          cases d with
          | installSnapshot => exact absurd hx (by simp)
          | notLeader => exact absurd hx (by simp)
          | send args =>
            have hid : args.leaderId = i := (leaderId_of_send hs).trans hme
            have hx : x ∈ [(⟨.appendEntries args, args.term, args.leaderId,
                (w.rafts args.leaderId).status, (w.rafts args.leaderId).currentTerm⟩ :
                Sent n C D)] := hx
            rw [List.mem_singleton.mp hx, hid]
            cases Peer.handleSendAppendEntries_outcome hs with
            | send hl hby => exact ⟨hl, hby.term.symm⟩

/-- Every request in the name of a leader is on record. -/
theorem builds_of_pending [Inhabited C] {w w' : World n C D} {e : Event C D n}
    (hh : ∀ i, Healthy i (w.rafts i)) (hs : w.step e = some w') {src dst : Fin n}
    {req : Request n C D} (hl : req.lead.isSome) (hp : w'.Pending src dst req) :
    w.Pending src dst req ∨ w.builds e = some req := by
  rcases pending_of_move hh (move_of_step hs) hp with hold | hb
  · exact .inl hold
  · cases hb with
    | requestVote election _ => exact absurd hl (by simp [Request.lead])
    | installSnapshot ht => exact .inr (by simp [builds, ht])
    | appendEntries args ht _ _ =>
      -- the goroutine has either sent these arguments or sent nothing
      cases e with
      | task k =>
        have ht : w.tasks[k]? = some (.goroutine src (.handleSendAppendEntries dst)) := ht
        have hs : w.runTask k = some w' := hs
        rw [runTask, ht] at hs
        obtain ⟨⟨rf', d⟩, hd, hs⟩ := Option.bind_eq_some_iff.mp hs
        have hd : (w.rafts src).handleSendAppendEntries dst = some (rf', d) := hd
        cases hs
        obtain ⟨waiting, hp⟩ := hp
        rcases mem_take_update hp with hp | hp
        · exact .inl ⟨waiting, hp⟩
        · cases d with
          | installSnapshot => exact absurd hp (by simp)
          | notLeader => exact absurd hp (by simp)
          | send args' =>
            have heq := List.mem_singleton.mp hp
            cases heq
            right
            simp [builds, picked, ht, hd]
      | _ => exact absurd ht (by simp [picked])

theorem witnessed_of_lead {w : World n C D} {req : Request n C D} (hl : req.lead.isSome) :
    ∃ x, w.witnessed req = some x ∧ x.request = req := by
  obtain ⟨y, hy⟩ := Option.isSome_iff_exists.mp hl
  exact ⟨_, by rw [witnessed, hy]; rfl, rfl⟩

/-- Every request under way in the name of a leader is on record. -/
def Recorded (w : World n C D) (record : List (Sent n C D)) : Prop :=
  ∀ src dst req, w.Pending src dst req → req.lead.isSome → ∃ x ∈ record, x.request = req

theorem recorded_step [Inhabited C] {w w' : World n C D} {e : Event C D n}
    {record : List (Sent n C D)} (hh : ∀ i, Healthy i (w.rafts i)) (hr : w.Recorded record)
    (hs : w.step e = some w') : w'.Recorded (w.sent e ++ record) := by
  intro src dst req hp hl
  rcases builds_of_pending hh hs hl hp with hp | hb
  · obtain ⟨x, hx, hreq⟩ := hr src dst req hp hl
    exact ⟨x, List.mem_append_right _ hx, hreq⟩
  · obtain ⟨x, hx, hreq⟩ := witnessed_of_lead (w := w) hl
    exact ⟨x, List.mem_append_left _ (by simp [sent, hb, hx]), hreq⟩

theorem recorded_run [Inhabited C] {ok : World n C D → Event C D n → Prop} :
    ∀ tr, SendRun ok tr → ∀ l ∈ tr,
      (∀ i, Healthy i (l.state.rafts i)) ∧ l.state.Recorded l.record :=
  Ledger.invariant
    (I := fun (w : World n C D) record => (∀ i, Healthy i (w.rafts i)) ∧ w.Recorded record)
    ⟨healthy_init, fun _ _ _ hp _ => absurd hp.choose_spec List.not_mem_nil⟩
    fun _ _ _ _ hi _ hs => ⟨healthy_step hi.1 hs, recorded_step hi.1 hi.2 hs⟩

/-- **Only leaders lead**, exactly if a snapshot is sent by a peer that leads.  Whatever is
under way in the name of a leader is on record. -/
theorem only_leaders_lead [Inhabited C] (tr : List (Ledger (World n C D) (Sent n C D)))
    (h : SendRun (fun _ _ => True) tr) :
    (∀ l ∈ tr, ∀ src dst req, l.state.Pending src dst req → req.lead.isSome →
      ∃ x ∈ l.record, x.request = req) ∧
    (SendRun InstallsAsLeader tr ↔
      ∀ l ∈ tr, ∀ x ∈ l.record, x.status = .leader ∧ x.currentTerm = x.term) := by
  refine ⟨fun l hl => (recorded_run tr h l hl).2, ?_⟩
  exact Ledger.all_iff (J := fun w : World n C D => ∀ i, Healthy i (w.rafts i)) healthy_init
    (fun w w' e hi hs => healthy_step hi hs) (fun w e hi => installsAsLeader_iff hi e) h

/-- Server `0` leads, has compacted its log up to the committed command `7`, and finds that
server `2` needs the snapshot. -/
def sampleInstall : List (Event Nat Unit 3) :=
  [.ticker 0 true, .task 0, .task 1, .task 1, .start 0 7, .task 1, .task 2, .task 2, .applyNext 1,
    .task 2, .task 2, .applyNext 0, .applyNext 0, .applyNext 0, .snapshot 0 1 (), .task 1]

/-- The task is a snapshot request from `src` to `dst`. -/
def isInstall (src dst : Fin n) : Task n C D → Bool
  | .request src' dst' (.installSnapshot _) _ => decide (src' = src ∧ dst' = dst)
  | _ => false

theorem pending_of_isInstall {w : World n C D} {src dst : Fin n}
    (h : w.tasks.any (isInstall src dst) = true) :
    ∃ args, w.Pending src dst (.installSnapshot args) := by
  obtain ⟨task, hmem, htask⟩ := List.any_eq_true.mp h
  unfold isInstall at htask
  split at htask
  · rename_i args waiting
    obtain ⟨rfl, rfl⟩ := of_decide_eq_true htask
    exact ⟨args, waiting, hmem⟩
  · exact absurd htask (by simp)

theorem only_leaders_lead_sampleInstall :
    ∃ l past, run (Ledger.step step sent) (fun l e => InstallsAsLeader l.state e)
        (Ledger.start (init : World 3 Nat Unit)) (sampleInstall ++ [.task 1]) [] =
          some (l :: past) ∧
      (∃ args, l.state.Pending 0 2 (.installSnapshot args)) ∧
      (SendRun InstallsAsLeader (l :: past) ↔
        ∀ l' ∈ l :: past, ∀ x ∈ l'.record, x.status = .leader ∧ x.currentTerm = x.term) := by
  have hs : runEnds (Ledger.step step sent) (fun l e => InstallsAsLeader l.state e)
      (Ledger.start (init : World 3 Nat Unit)) (sampleInstall ++ [.task 1])
      (fun l _ => l.state.tasks.any (isInstall 0 2)) = true := by
    decide +kernel
  obtain ⟨l, past, h, ht, hl⟩ := exists_of_runEnds hs
  exact ⟨l, past, h, pending_of_isInstall hl,
    (only_leaders_lead _ (ht.mono fun _ _ _ => trivial)).2⟩

/-- The goroutine of `sampleInstall` waits while server `1` asks for votes in term `3`.
Server `0` follows it; then the goroutine builds a snapshot request of term `3` in the
name of server `0`. -/
def lateInstall : List (Event Nat Unit 3) :=
  sampleInstall ++ [.ticker 1 true, .task 2, .task 3, .task 1]

/-- **A follower leads**, when nothing is asked of the run. -/
theorem follower_leads :
    ¬ ∀ tr : List (Ledger (World 3 Nat Unit) (Sent 3 Nat Unit)), SendRun (fun _ _ => True) tr →
      ∀ l ∈ tr, ∀ x ∈ l.record, x.status = .leader ∧ x.currentTerm = x.term := by
  intro hall
  have hs : runEnds (Ledger.step step sent) (fun _ _ => True)
      (Ledger.start (init : World 3 Nat Unit)) lateInstall
      (fun l _ => l.record.any fun x => decide (x.status ≠ .leader)) = true := by
    decide +kernel
  obtain ⟨l, past, -, ht, hl⟩ := exists_of_runEnds hs
  obtain ⟨x, hx, hne⟩ := List.any_eq_true.mp hl
  exact of_decide_eq_true hne (hall _ ht l (List.mem_cons_self ..) x hx).1

end World

end ShardRaft.Raft
