import ShardRaft.Raft.Steps

/-!
# The apply stream

What a service receives from one incarnation of its peer is a stream of
messages, each of which moves a *position*: a command message must be the next
index, a snapshot message may jump forward (`advance`).  The position starts at
`-1`.  `apply_stream` says that every message a peer sends is one the position
can take, so no index is missing and none comes twice.

The invariant ties the position to `lastApplied`.  That field is moved under
`rf.mu` before the messages are sent, so it is ahead of what the service has;
what lies between the two is exactly the batch under way (`InStep`).
-/

namespace ShardRaft.Raft

open ShardRaft.Lib

variable {n : Nat} {C D : Type}

/-! ### Positions -/

/-- The index a message is about. -/
def ApplyMsg.index (msg : ApplyMsg C D) : Int :=
  if msg.snapshotValid then msg.snapshotIndex else msg.commandIndex

/-- The position after one more message, if the message fits. -/
def advance (position : Int) (msg : ApplyMsg C D) : Option Int :=
  if msg.snapshotValid then
    if msg.snapshotIndex > position then some msg.snapshotIndex else none
  else if msg.commandIndex = position + 1 then some msg.commandIndex else none

/-- The position after a stream of messages. -/
def position (msgs : List (ApplyMsg C D)) : Option Int := msgs.foldlM advance (-1)

theorem advance_eq_some {p q : Int} {msg : ApplyMsg C D} (h : advance p msg = some q) :
    q = msg.index ∧ p < q := by
  unfold advance at h
  unfold ApplyMsg.index
  split at h
  · rename_i hs
    split at h
    · rename_i hlt
      rw [if_pos hs, ← Option.some.inj h]
      exact ⟨rfl, hlt⟩
    · exact absurd h (by simp)
  · rename_i hs
    split at h
    · rename_i heq
      rw [if_neg hs, ← Option.some.inj h]
      exact ⟨rfl, by omega⟩
    · exact absurd h (by simp)

theorem index_increasing :
    ∀ (msgs : List (ApplyMsg C D)) (p q : Int), msgs.foldlM advance p = some q →
      (∀ msg ∈ msgs, p < msg.index) ∧ (msgs.map (·.index)).Pairwise (· < ·) := by
  intro msgs
  induction msgs with
  | nil => intro p q _; exact ⟨by simp, .nil⟩
  | cons msg msgs ih =>
    intro p q h
    rw [List.foldlM_cons] at h
    obtain ⟨p', hp, h⟩ := Option.bind_eq_some_iff.mp h
    obtain ⟨rfl, hlt⟩ := advance_eq_some hp
    obtain ⟨hall, hsort⟩ := ih _ _ h
    refine ⟨?_, ?_⟩
    · intro m hm
      rcases List.mem_cons.mp hm with rfl | hm
      · exact hlt
      · exact hlt.trans (hall m hm)
    · rw [List.map_cons]
      refine hsort.cons ?_
      intro i hi
      obtain ⟨m, hm, rfl⟩ := List.mem_map.mp hi
      exact hall m hm

/-- A stream from which nothing is missing and in which nothing comes twice. -/
def GapFree (msgs : List (ApplyMsg C D)) : Prop :=
  (∃ p, position msgs = some p) ∧ (msgs.map (·.index)).Pairwise (· < ·)

theorem position_append {a b : List (ApplyMsg C D)} {q : Int} (h : position (a ++ b) = some q) :
    ∃ p, position a = some p ∧ b.foldlM advance p = some q := by
  unfold position at h ⊢
  rw [List.foldlM_append] at h
  exact Option.bind_eq_some_iff.mp h

theorem gapFree_of_position {a b : List (ApplyMsg C D)} {q : Int}
    (h : position (a ++ b) = some q) : GapFree a := by
  obtain ⟨p, hp, -⟩ := position_append h
  exact ⟨⟨p, hp⟩, (index_increasing a _ _ hp).2⟩

theorem advance_msgOf (p : Int) (e : LogEntity C) :
    advance p (Peer.msgOf (p + 1) e : ApplyMsg C D) = some (p + 1) := by
  simp [advance, Peer.msgOf]

theorem foldlM_batch {p : Int} :
    ∀ (len start : Nat) (msgs : List (ApplyMsg C D)),
      List.Forall₂ (fun (k : Nat) msg => ∃ e, msg = Peer.msgOf (p + 1 + k) e)
        (List.range' start len) msgs →
      msgs.foldlM advance (p + start) = some (p + start + len) := by
  intro len
  induction len with
  | zero =>
    intro start msgs h
    cases h
    simp
  | succ len ih =>
    intro start msgs h
    rw [List.range'_succ] at h
    cases h with
    | cons hm hms =>
      obtain ⟨e, rfl⟩ := hm
      have hrec := ih (start + 1) _ hms
      rw [show p + 1 + (start : Int) = p + start + 1 by omega, List.foldlM_cons, advance_msgOf,
        Option.bind_eq_bind, Option.bind_some,
        show p + (start : Int) + 1 = p + ((start + 1 : Nat) : Int) by omega, hrec]
      congr 1
      omega

/-! ### The invariant -/

/-- The batch of `i` that is under way. -/
def World.pending (w : World n C D) (i : Fin n) : List (ApplyMsg C D) :=
  ((w.applying i).map (·.1)).getD []

/-- What has been sent and what is under way together reach `lastApplied`. -/
def World.InStep (w : World n C D) : Prop :=
  ∀ i, position (w.applyCh i ++ w.pending i) = some (w.rafts i).lastApplied

/-- The service of `i` calls `Snapshot` only with an index it has received. -/
def World.SnapshotReceived (w : World n C D) : Event C D n → Prop
  | .snapshot i index _ => ∃ p ∈ position (w.applyCh i), index ≤ p
  | _ => True

instance (w : World n C D) : DecidablePred w.SnapshotReceived
  | .snapshot i index _ => inferInstanceAs (Decidable (∃ p ∈ position (w.applyCh i), index ≤ p))
  | .ticker _ _ | .start _ _ | .task _ | .fail _ | .applyNext _ | .restart _ =>
    inferInstanceAs (Decidable True)

/-- The messages of a batch take the position from the old `lastApplied` to the
new one. -/
theorem Peer.foldlM_collected {rf rf' : Peer n C D} {msgs : List (ApplyMsg C D)}
    (h : rf.commitToApplyChannelWithLock = some (rf', msgs)) :
    msgs.foldlM advance rf.lastApplied = some rf'.lastApplied := by
  cases commitToApplyChannelWithLock_outcome h with
  | jump hlt =>
    have hlt : (rf.snapshotEntriesAmount : Int) - 1 > rf.lastApplied := by omega
    simp [advance, hlt]
  | nothing => rfl
  | batch _ hlt hall =>
    have hfold := foldlM_batch (p := rf.lastApplied) _ 0 msgs
      (by rw [← List.range_eq_range']; exact hall.imp fun k msg ⟨e, _, he⟩ => ⟨e, he⟩)
    rw [Int.natCast_zero, Int.add_zero] at hfold
    rw [hfold]
    change some (rf.lastApplied + (rf.commitIndex - rf.lastApplied).toNat) = some rf.commitIndex
    congr 1
    omega

namespace World

/-- What one step does to the stream of one incarnation. -/
def Forward (w' w : World n C D) : Prop :=
  ∀ i, w.incarnation i ≤ w'.incarnation i ∧ (w'.incarnation i = w.incarnation i →
    w.applyCh i <+: w'.applyCh i ∧ (w.rafts i).lastApplied ≤ (w'.rafts i).lastApplied ∧
      (w.rafts i).commitIndex ≤ (w'.rafts i).commitIndex)

theorem Forward.trans {w₁ w₂ w₃ : World n C D} (h : Forward w₃ w₂) (h' : Forward w₂ w₁) :
    Forward w₃ w₁ := by
  intro i
  obtain ⟨hi, hs⟩ := h i
  obtain ⟨hi', hs'⟩ := h' i
  refine ⟨hi'.trans hi, ?_⟩
  intro heq
  obtain ⟨a, b, c⟩ := hs (by omega)
  obtain ⟨a', b', c'⟩ := hs' (by omega)
  exact ⟨a'.trans a, b'.trans b, c'.trans c⟩

theorem le_of_foldlM {msgs : List (ApplyMsg C D)} :
    ∀ p q : Int, msgs.foldlM advance p = some q → p ≤ q := by
  induction msgs with
  | nil => intro p q h; exact (Option.some.inj h).le
  | cons msg msgs ih =>
    intro p q h
    rw [List.foldlM_cons] at h
    obtain ⟨p', hp, h⟩ := Option.bind_eq_some_iff.mp h
    exact (advance_eq_some hp).2.le.trans (ih p' q h)

variable [Inhabited C]

/-- **One step keeps the stream in step with `lastApplied`.** -/
theorem inStep_step {w w' : World n C D} {e : Event C D n} (h : w.InStep)
    (hok : w.SnapshotReceived e) (hs : w.step e = some w') : w'.InStep ∧ Forward w' w := by
  cases effect_of_step hs with
  | ran i s rf' hc hsn hrun hr ha hch _ hinc =>
    have hran := Peer.ran_section hrun
    have hla : rf'.lastApplied = (w.rafts i).lastApplied := by
      refine hran.applied ⟨hc, ?_⟩
      intro index data hsd
      -- the service has received the index, and that is behind `lastApplied`
      rw [hsn index data hsd] at hok
      obtain ⟨p, hp, hle⟩ := hok
      obtain ⟨p', hp', hfold⟩ := position_append (h i)
      rw [Option.mem_def.mp hp] at hp'
      cases hp'
      exact hle.trans (le_of_foldlM _ _ hfold)
    have hupd : ∀ j, (w'.rafts j).lastApplied = (w.rafts j).lastApplied ∧
        (w.rafts j).commitIndex ≤ (w'.rafts j).commitIndex := by
      intro j
      rw [hr]
      by_cases hij : j = i
      · rw [hij, Function.update_self]; exact ⟨hla, hran.commit⟩
      · rw [Function.update_of_ne hij]; exact ⟨rfl, le_rfl⟩
    refine ⟨?_, ?_⟩
    · intro j
      rw [(hupd j).1, hch, pending, ha]
      exact h j
    · intro j
      rw [hinc, hch, (hupd j).1]
      exact ⟨le_rfl, fun _ => ⟨List.prefix_rfl, le_rfl, (hupd j).2⟩⟩
  | collected i next rf' msgs hn hcol hr ha hch _ hinc =>
    have hfold := Peer.foldlM_collected hcol
    have hi := h i
    rw [pending, hn, Option.map_none, Option.getD_none, List.append_nil] at hi
    refine ⟨?_, ?_⟩
    · intro j
      rw [hch, pending, ha, hr]
      by_cases hij : j = i
      · rw [hij, Function.update_self, Function.update_self]
        unfold position at hi ⊢
        rw [List.foldlM_append, hi]
        exact hfold
      · rw [Function.update_of_ne hij, Function.update_of_ne hij]
        exact h j
    · intro j
      rw [hinc, hch, hr]
      refine ⟨le_rfl, fun _ => ⟨List.prefix_rfl, ?_⟩⟩
      by_cases hij : j = i
      · rw [hij, Function.update_self]
        refine ⟨le_of_foldlM _ _ hfold, (Peer.ran_section (s := .commitToApplyChannel) ?_).commit⟩
        exact Option.map_eq_some_iff.mpr ⟨_, hcol, rfl⟩
      · rw [Function.update_of_ne hij]; exact ⟨le_rfl, le_rfl⟩
  | sent i next msg msgs hap hr ha hch _ hinc =>
    have hi := h i
    rw [pending, hap] at hi
    refine ⟨?_, ?_⟩
    · intro j
      rw [hr, hch, pending, ha]
      by_cases hij : j = i
      · rw [hij, Function.update_self, Function.update_self, List.append_assoc]
        exact hi
      · rw [Function.update_of_ne hij, Function.update_of_ne hij]
        exact h j
    · intro j
      rw [hinc, hr, hch]
      refine ⟨le_rfl, fun _ => ⟨?_, le_rfl, le_rfl⟩⟩
      by_cases hij : j = i
      · rw [hij, Function.update_self]; exact List.prefix_append _ _
      · exact ⟨[], by rw [List.append_nil, Function.update_of_ne hij]⟩
  | released i next hap hr ha hch _ hinc =>
    have hi := h i
    rw [pending, hap] at hi
    refine ⟨?_, ?_⟩
    · intro j
      rw [hr, hch, pending, ha]
      by_cases hij : j = i
      · rw [hij, Function.update_self]
        exact hi
      · rw [Function.update_of_ne hij]
        exact h j
    · intro j
      rw [hinc, hr, hch]
      exact ⟨le_rfl, fun _ => ⟨List.prefix_rfl, le_rfl, le_rfl⟩⟩
  | restarted i hw =>
    subst hw
    have hmake : (Peer.make i (w.rafts i).persister).lastApplied = -1 := by
      unfold Peer.make Peer.readPersist
      split <;> rfl
    refine ⟨?_, ?_⟩
    · intro j
      by_cases hij : j = i
      · simp only [restart, pending, hij, Function.update_self, hmake]
        rfl
      · simp only [restart, pending, Function.update_of_ne hij, Option.map_map]
        exact h j
    · intro j
      by_cases hij : j = i
      · simp only [restart, hij, Function.update_self]
        exact ⟨by omega, fun heq => by omega⟩
      · simp only [restart, Function.update_of_ne hij]
        exact ⟨le_rfl, fun _ => ⟨List.prefix_rfl, le_rfl, le_rfl⟩⟩

theorem inStep_init : (init : World n C D).InStep := fun _ => rfl

/-- **The apply stream.**  Whatever the interleaving, as long as a service
snapshots only what it has received, what each incarnation of a peer has sent
is gap-free and only grows, and its `lastApplied` and `commitIndex` never go
back. -/
theorem apply_stream :
    ∀ tr : List (World n C D), Run SnapshotReceived tr →
      (∀ w ∈ tr, ∀ i, GapFree (w.applyCh i)) ∧ tr.Pairwise Forward := by
  intro tr h
  have hin : ∀ w ∈ tr, w.InStep :=
    Trace.invariant inStep_init (fun _ _ _ hw hok hs => (inStep_step hw hok hs).1) tr h
  refine ⟨fun w hw i => gapFree_of_position (hin w hw i), ?_⟩
  clear hin
  induction h with
  | init => exact List.pairwise_singleton _ _
  | @step w w' e past ht hok he ih =>
    have hw : w.InStep :=
      Trace.invariant inStep_init (fun _ _ _ hw hok hs => (inStep_step hw hok hs).1) _ ht w
        (List.mem_cons_self ..)
    have hf := (inStep_step hw hok he).2
    refine ih.cons ?_
    intro x hx
    rcases List.mem_cons.mp hx with rfl | hx
    · exact hf
    · exact hf.trans (List.rel_of_pairwise_cons ih hx)

/-- Peer `0` is elected, commits a command and snapshots it; peer `1`, which
has applied the filler only, restarts. -/
def sampleStream : List (Event Nat Unit 3) :=
  [.ticker 0 true, .task 0, .task 1, .task 1, .task 1, .start 0 7, .ticker 0 false, .task 3,
    .task 4, .task 4, .applyNext 1, .task 4, .task 4, .applyNext 0, .applyNext 0, .applyNext 0,
    .snapshot 0 1 (), .restart 1]

theorem apply_stream_sampleStream :
    ∃ tr, run step SnapshotReceived (init : World 3 Nat Unit) sampleStream [] = some tr ∧
      (∀ w ∈ tr, ∀ i, GapFree (w.applyCh i)) ∧ tr.Pairwise Forward := by
  have hs : (run step SnapshotReceived (init : World 3 Nat Unit) sampleStream []).isSome = true := by
    decide +kernel
  obtain ⟨tr, h⟩ := Option.isSome_iff_exists.mp hs
  exact ⟨tr, h, apply_stream tr (trace_of_run h)⟩

end World

end ShardRaft.Raft
