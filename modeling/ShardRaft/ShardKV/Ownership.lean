import ShardRaft.ShardKV.HandOver

/-!
# No shard is served by two groups

Two groups may be at different configurations that each name them the owner of a shard.
What keeps them apart is that the later one has its timestamp from the earlier one, and
could only get it when that one had moved on: `Chain` says so for every step of the way
from owner to owner, and `Chain.num_le_of_serves` goes down the chain.

The timestamp is the donor's configuration number, not the one that was asked for.  So
it may be ahead of the receiver, and a shard that leaves and comes back is then taken
for current (`two_owners`).  `Careful` rules that out, and with it an answer that is
older than the configuration it is used for.
-/

namespace ShardRaft.ShardKV

open ShardRaft.Lib
open ShardRaft.Ctrler (Config NShards)

variable {cs : Configs} {w w' : World} {e : Event}

/-- * A ticker asks under the number it has checked.
* No configuration gives a group a shard with a timestamp ahead of it.
* An answer that makes a lagging shard current was asked for under the latest
  configuration. -/
def World.Careful (w : World) : Event → Prop
  | .query k p num => w.AsksChecked (.query k p num)
  | .install k => ∀ x ∈ w.proposed[k]?, x.2.num = (w.state x.1).latestConfig.num + 1 →
      1 ≤ (w.state x.1).latestConfig.num → ∀ sid, x.2.shards sid = x.1 →
        (w.state x.1).latestConfig.shards sid ≠ x.1 →
          (w.state x.1).shardTimestamp sid ≤ (w.state x.1).latestConfig.num
  | .acquire k => ∀ a ∈ w.answered[k]?,
      (w.state a.asked.gid).shardTimestamp a.asked.args.shardIndex <
        (w.state a.asked.gid).latestConfig.num →
      (w.state a.asked.gid).latestConfig.num ≤ a.reply.configNum →
        a.asked.args.configNum + 1 = (w.state a.asked.gid).latestConfig.num
  | _ => True

instance (w : World) : DecidablePred w.Careful
  | .query k p num => inferInstanceAs (Decidable (w.AsksChecked (.query k p num)))
  | .install k => inferInstanceAs (Decidable (∀ x ∈ w.proposed[k]?,
      x.2.num = (w.state x.1).latestConfig.num + 1 →
      1 ≤ (w.state x.1).latestConfig.num → ∀ sid, x.2.shards sid = x.1 →
        (w.state x.1).latestConfig.shards sid ≠ x.1 →
          (w.state x.1).shardTimestamp sid ≤ (w.state x.1).latestConfig.num))
  | .acquire k => inferInstanceAs (Decidable (∀ a ∈ w.answered[k]?,
      (w.state a.asked.gid).shardTimestamp a.asked.args.shardIndex <
        (w.state a.asked.gid).latestConfig.num →
      (w.state a.asked.gid).latestConfig.num ≤ a.reply.configNum →
        a.asked.args.configNum + 1 = (w.state a.asked.gid).latestConfig.num))
  | .check .. | .propose .. | .request .. | .answer .. | .call .. | .apply .. | .returns .. =>
    .isTrue trivial

theorem asksChecked_of_careful (w : World) (e : Event) (h : w.Careful e) : w.AsksChecked e := by
  cases e with
  | query k p num => exact h
  | check g p => trivial
  | propose k p => trivial
  | install k => trivial
  | request g p q sid => trivial
  | answer k p => trivial
  | acquire k => trivial
  | call c call => trivial
  | apply g k => trivial
  | returns c => trivial

/-! ### One group -/

/-- What the timestamps of a group say about the configurations it has been through. -/
structure State.Owned (cs : Configs) (g : Gid) (st : State) : Prop where
  kept : ∀ sid (j : Nat), j < st.num → cs.owner j sid = g → (j : Int) ≤ st.shardTimestamp sid

namespace State

variable {st st' : State} {g : Gid} {op : Op}

theorem owned_makeState : State.makeState.Owned cs g where
  kept sid j hj _ := absurd hj (by simp [num, makeState, zeroConfig])

theorem Owned.mono (h : st.Owned cs g) (hn : st'.num = st.num)
    (ht : ∀ sid, st.shardTimestamp sid ≤ st'.shardTimestamp sid) : st'.Owned cs g where
  kept sid j hj ho := by
    rw [hn] at hj
    exact (h.kept sid j hj ho).trans (ht sid)

/-- A group that is up to date has the data of every configuration so far. -/
theorem Owned.le_of_upToDate (h : st.Owned cs g) (hst : st.Consumed cs)
    (hup : st.allShardsUpToDate g = true) {sid : Fin NShards} {j : Nat} (hj : j ≤ st.num)
    (ho : cs.owner j sid = g) : (j : Int) ≤ st.shardTimestamp sid := by
  rcases Nat.eq_or_lt_of_le hj with rfl | hlt
  · rw [← hst.latest_num]
    exact allShardsUpToDate_iff.mp hup sid (by rw [hst.shards, ho])
  · exact h.kept sid j hlt ho

theorem install_timestamp (hst : st.Consumed cs) (hc : op.shardConfig = cs.known (st.num + 1))
    (sid : Fin NShards) : (st.handleInstallShardConfig g op).shardTimestamp sid =
      if cs.owner (st.num + 1) sid = g ∧ (st.num = 0 ∨ cs.owner st.num sid = g)
      then (st.num : Int) + 1 else if st.num = 0 then 0 else st.shardTimestamp sid := by
  have hnum : op.shardConfig.num = st.num + 1 := by rw [hc, Configs.known_num]; rfl
  have hnext : op.shardConfig.num = st.latestConfig.num + 1 := by rw [hnum, hst.latest_num]
  have hsh : op.shardConfig.shards sid = cs.owner (st.num + 1) sid := by rw [hc, Configs.owner]
  by_cases h0 : st.num = 0
  · rw [(install_first hnext (by rw [hnum, h0]; rfl)).2, hsh]
    simp [h0]
  · rw [(install_later hnext (by rw [hnum]; omega)).2, hsh, hst.shards, hnum]
    simp [h0]

theorem owned_install (h : st.Owned cs g) (hst : st.Consumed cs)
    (hup : st.allShardsUpToDate g = true) (hc : op.shardConfig = cs.known (st.num + 1)) :
    (st.handleInstallShardConfig g op).Owned cs g := by
  have hnext : op.shardConfig.num = st.latestConfig.num + 1 := by
    rw [hc, Configs.known_num, hst.latest_num]
    rfl
  have hn : (st.handleInstallShardConfig g op).num = st.num + 1 := num_install hst hnext
  refine ⟨fun sid j hj ho => ?_⟩
  rw [hn] at hj
  have hle := h.le_of_upToDate hst hup (Nat.le_of_lt_succ hj) ho
  have hpos := Configs.pos_of_owner ho
  rw [install_timestamp hst hc]
  split
  · omega
  · rw [if_neg (by omega)]
    exact hle

end State

/-! ### All groups -/

/-- The group that is asked owned the shard under the configuration it is asked about.  A group
may ask itself, if it has lost a shard by the time it reads `AllConfigs`. -/
def Asked.Sound (cs : Configs) (q : Asked) : Prop :=
  ∃ n : Nat, q.args.configNum = n ∧ cs.owner n q.args.shardIndex = q.donor

/-- `d` owned the shard before configuration `j`, and does not serve it any more unless
it is `g`. -/
def World.Released (cs : Configs) (w : World) (sid : Fin NShards) (g : Gid) (j : Nat) : Prop :=
  ∃ d : Gid, cs.owner (j - 1) sid = d ∧ (d = g ∨ j ≤ (w.state d).num)

/-- A group that has the data of a configuration has it from the owner before, and that
one has moved on. -/
structure Chain (cs : Configs) (w : World) : Prop where
  owned : ∀ g, ∀ st ∈ w.past g, st.Owned cs g
  asked : ∀ q ∈ w.asked, q.Sound cs
  answered : ∀ a ∈ w.answered, a.asked ∈ w.asked ∧
    ∃ st ∈ w.past a.asked.donor, st.answerAcquireShards a.asked.args = some a.reply
  chain : ∀ sid (g : Gid) (j : Nat), 2 ≤ j → cs.owner j sid = g → j ≤ (w.state g).num →
    (j : Int) ≤ (w.state g).shardTimestamp sid → w.Released cs sid g j

theorem num_setState {g : Gid} {st : State}
    (hb : State.Before (w.state g) st) (d : Gid) :
    (w.state d).num ≤ ((w.setState g st).state d).num := by
  by_cases hd : d = g
  · subst hd
    simp only [World.setState, Function.update_self]
    exact hb.1
  · simp only [World.setState, Function.update_of_ne hd, le_refl]

theorem World.Released.setState {g g' : Gid} {st : State}
    {sid : Fin NShards} {j : Nat} (hb : State.Before (w.state g') st)
    (h : w.Released cs sid g j) : (w.setState g' st).Released cs sid g j := by
  obtain ⟨d, hd, hr⟩ := h
  exact ⟨d, hd, hr.imp id fun hn => hn.trans (num_setState hb d)⟩

namespace Chain

theorem init : Chain cs World.init where
  owned g st hst := by
    rw [List.mem_singleton.mp hst]
    exact State.owned_makeState
  asked q hq := absurd hq List.not_mem_nil
  answered a ha := absurd ha List.not_mem_nil
  chain sid g j hj _ hn := by
    have h0 : (World.init.state g).num = 0 := rfl
    omega

theorem setState (h : Chain cs w) {g : Gid} {st : State}
    (hb : State.Before (w.state g) st) (hst : st.Owned cs g)
    (hch : ∀ sid (j : Nat), 2 ≤ j → cs.owner j sid = g → j ≤ st.num →
      (j : Int) ≤ st.shardTimestamp sid → w.Released cs sid g j) :
    Chain cs (w.setState g st) := by
  refine ⟨?_, h.asked, ?_, ?_⟩
  · intro g' st' hst'
    by_cases hg : g' = g
    · subst hg
      simp only [World.setState, Function.update_self] at hst'
      rcases List.mem_append.mp hst' with hm | hm
      · exact h.owned g' st' hm
      · rw [List.mem_singleton.mp hm]
        exact hst
    · simp only [World.setState, Function.update_of_ne hg] at hst'
      exact h.owned g' st' hst'
  · intro a ha
    obtain ⟨hq, st', hst', hr⟩ := h.answered a ha
    exact ⟨hq, st', mem_setState_past hst', hr⟩
  · intro sid g' j hj hown hn ht
    refine World.Released.setState hb ?_
    by_cases hg : g' = g
    · subst hg
      simp only [World.setState, Function.update_self] at hn ht
      exact hch sid j hj hown hn ht
    · simp only [World.setState, Function.update_of_ne hg] at hn ht
      exact h.chain sid g' j hj hown hn ht

theorem congr (h : Chain cs w) (hs : w'.state = w.state) (hp : w'.past = w.past)
    (hq : w'.asked = w.asked) (ha : w'.answered = w.answered) : Chain cs w' := by
  refine ⟨?_, ?_, ?_, ?_⟩
  · rw [hp]
    exact h.owned
  · rw [hq]
    exact h.asked
  · rw [ha, hq, hp]
    exact h.answered
  · unfold World.Released
    rw [hs]
    exact h.chain

theorem sound_of_acquireShards (ho : InOrder cs w) {g donor : Gid} {st : State} {sid : Fin NShards}
    {args : AcquireShardArgs} (hst : st ∈ w.past g)
    (ha : st.acquireShards g sid = some (args, donor.1)) : (⟨g, donor, args⟩ : Asked).Sound cs := by
  obtain ⟨-, hnum, hsid, hdon⟩ := (ho.consumed g st hst).acquireShards ha
  refine ⟨st.num - 1, hnum, ?_⟩
  rw [hsid, hdon]

/-- A group goes on to the next configuration: what it keeps it had, what is new to it it
does not have yet. -/
theorem install (h : Chain cs w) (ho : InOrder cs w) (hg : Guarded w) {k : Nat} {g : Gid}
    {c : Config} (hok : w.Careful (.install k)) (hc : w.proposed[k]? = some (g, c)) :
    Chain cs (w.setState g
      ((w.state g).handleInstallShardConfig g (createInstallShardConfigOp 0 c))) := by
  have hcon := ho.state_consumed g
  have hbefore : State.Before (w.state g) ((w.state g).handleInstallShardConfig g
      (createInstallShardConfigOp 0 c)) := State.before_install hcon
  by_cases hnext : c.num = (w.state g).latestConfig.num + 1
  · have hup := upToDate_of_proposed ho hg (List.mem_of_getElem? hc) hnext
    have hk := ho.known_of_proposed (List.mem_of_getElem? hc) hnext
    have hown := h.owned g _ (ho.state_mem g)
    refine h.setState hbefore (State.owned_install hown hcon hup hk) ?_
    intro sid j hj hj' hn ht
    have hnum : ((w.state g).handleInstallShardConfig g
        (createInstallShardConfigOp 0 c)).num = (w.state g).num + 1 :=
      State.num_install hcon hnext
    rw [hnum] at hn
    rcases Nat.lt_or_ge (w.state g).num j with hlt | hle
    · -- the new configuration: the shard stays, or its timestamp is ahead
      obtain rfl : j = (w.state g).num + 1 := by omega
      by_cases hsame : cs.owner (w.state g).num sid = g
      · exact ⟨g, hsame, .inl rfl⟩
      · rw [State.install_timestamp hcon hk, if_neg (by omega), if_neg (by omega)] at ht
        have hnot := hok _ hc hnext (by rw [hcon.latest_num]; omega) sid
          (by rw [hk]; exact hj') (by rw [hcon.shards]; exact hsame)
        dsimp only at hnot
        rw [hcon.latest_num] at hnot
        omega
    · exact h.chain sid g j hj hj' hle (hown.le_of_upToDate hcon hup hle hj')
  · rw [State.install_of_ne hnext]
    exact h.setState .refl (h.owned g _ (ho.state_mem g)) fun sid j => h.chain sid g j

/-- A shard arrives: it comes from the owner before. -/
theorem acquire (h : Chain cs w) (ho : InOrder cs w) {k : Nat} {a : Answered}
    (hok : w.Careful (.acquire k)) (ha : w.answered[k]? = some a) :
    Chain cs (w.setState a.asked.gid ((w.state a.asked.gid).handleAcquireShard
      (createAcquireShardOp 0 a.asked.args.shardIndex a.reply))) := by
  have hcon := ho.state_consumed a.asked.gid
  have hown := h.owned _ _ (ho.state_mem a.asked.gid)
  have hnum : ((w.state a.asked.gid).handleAcquireShard (createAcquireShardOp 0
      a.asked.args.shardIndex a.reply)).num = (w.state a.asked.gid).num :=
    State.num_congr State.acquire_latestConfig
  refine h.setState State.before_acquire
    (hown.mono hnum fun sid => State.le_acquire_shardTimestamp sid) ?_
  intro sid j hj hj' hn ht
  rw [hnum] at hn
  by_cases hold : (j : Int) ≤ (w.state a.asked.gid).shardTimestamp sid
  · exact h.chain sid _ j hj hj' hn hold
  · -- the shard has just become current: its data comes from the owner before
    obtain rfl : j = (w.state a.asked.gid).num := by
      rcases Nat.eq_or_lt_of_le hn with heq | hlt
      · exact heq
      · exact absurd (hown.kept sid j hlt hj') hold
    obtain ⟨hq, st, hst, hr⟩ := h.answered a (List.mem_of_getElem? ha)
    obtain ⟨n, hcn, hdon⟩ := h.asked _ hq
    rcases le_or_gt a.reply.configNum
        ((w.state a.asked.gid).shardTimestamp a.asked.args.shardIndex) with hle | hlt
    · rw [(State.acquire_of_le hle).1] at ht
      exact absurd ht hold
    · rw [(State.acquire_of_lt hlt).1] at ht
      by_cases hs : sid = a.asked.args.shardIndex
      · subst hs
        rw [show (createAcquireShardOp 0 a.asked.args.shardIndex a.reply).shardId =
          a.asked.args.shardIndex from rfl, Function.update_self] at ht
        have hcur := hok a ha (by rw [hcon.latest_num]; omega)
          (by rw [hcon.latest_num]; exact ht)
        rw [hcn, hcon.latest_num] at hcur
        have hdnum : a.reply.configNum = st.num := by
          rw [(State.answer_eq hr).2]
          exact (ho.consumed _ st hst).latest_num
        refine ⟨a.asked.donor, ?_, .inr ?_⟩
        · rw [← hdon]
          congr 1
          omega
        · have hb := (ho.before_state hst).1
          have ht' : (((w.state a.asked.gid).num : Nat) : Int) ≤ a.reply.configNum := ht
          omega
      · rw [show (createAcquireShardOp 0 a.asked.args.shardIndex a.reply).shardId =
          a.asked.args.shardIndex from rfl, Function.update_of_ne hs] at ht
        exact absurd ht hold

/-- **A step keeps the chain of owners.** -/
theorem move (h : Chain cs w) (ho : InOrder cs w) (hg : Guarded w) (hok : w.Careful e)
    (hm : World.Move cs w e w') : Chain cs w' := by
  cases hm with
  | check hst hup => exact h.congr rfl rfl rfl rfl
  | query ht hst hp hn => exact h.congr rfl rfl rfl rfl
  | propose ht hc hst hp hn => exact h.congr rfl rfl rfl rfl
  | install hc => exact h.install ho hg hok hc
  | request hst hst' hp hl ha =>
    refine ⟨h.owned, ?_, ?_, h.chain⟩
    · intro q hq
      rcases List.mem_append.mp hq with hq | hq
      · exact h.asked q hq
      · rw [List.mem_singleton.mp hq]
        exact sound_of_acquireShards ho (List.mem_of_getElem? hst') ha
    · intro a ha
      obtain ⟨hq, hr⟩ := h.answered a ha
      exact ⟨List.mem_append_left _ hq, hr⟩
  | answer hq hst hr =>
    refine ⟨h.owned, h.asked, ?_, h.chain⟩
    intro a ha
    rcases List.mem_append.mp ha with ha | ha
    · exact h.answered a ha
    · rw [List.mem_singleton.mp ha]
      exact ⟨List.mem_of_getElem? hq, _, List.mem_of_getElem? hst, hr⟩
  | acquire ha => exact h.acquire ho hok ha
  | call hc => exact h.congr rfl rfl rfl rfl
  | apply hreq ha =>
    obtain ⟨hl, -, ht⟩ := State.applyClientOp_frame ha
    have hs := h.setState (State.before_applyClientOp ha)
      ((h.owned _ _ (ho.state_mem _)).mono (State.num_congr hl) fun sid => by rw [ht]) (by
        intro sid j hj hj' hn ht'
        rw [State.num_congr hl] at hn
        rw [ht] at ht'
        exact h.chain sid _ j hj hj' hn ht')
    exact hs.congr rfl rfl rfl rfl
  | returns hc hr hq hg' => exact h.congr rfl rfl rfl rfl

end Chain

theorem chain_run {ok : World → Event → Prop} (hok : ∀ w e, ok w e → w.Careful e)
    {tr : List World} (h : Run cs ok tr) : ∀ w ∈ tr, (InOrder cs w ∧ Guarded w) ∧ Chain cs w :=
  Trace.invariant ⟨⟨InOrder.init, Guarded.init⟩, Chain.init⟩ (fun w _ e hw ho hs =>
    have hm := World.move_of_step hs
    ⟨⟨hw.1.1.move hm, hw.1.2.move hw.1.1 (asksChecked_of_careful w e (hok w e ho)) hm⟩,
      hw.2.move hw.1.1 hw.1.2 (hok w e ho) hm⟩) tr h

/-! ### Exclusion -/

/-- The owner of the shard under configuration `j` has its data. -/
def World.Complete (cs : Configs) (w : World) (sid : Fin NShards) (j : Nat) : Prop :=
  ∃ g : Gid, cs.owner j sid = g ∧ j ≤ (w.state g).num ∧ (j : Int) ≤ (w.state g).shardTimestamp sid

namespace Chain

/-- The data went through the hands of every owner. -/
theorem complete_pred (h : Chain cs w) (ho : InOrder cs w) {sid : Fin NShards} {j : Nat}
    (hj : 1 ≤ j) (hc : w.Complete cs sid (j + 1)) : w.Complete cs sid j := by
  obtain ⟨g, hown, hn, ht⟩ := hc
  obtain ⟨d, hd, hr⟩ := h.chain sid g (j + 1) (by omega) hown hn ht
  rw [Nat.add_sub_cancel] at hd
  rcases hr with rfl | hr
  · exact ⟨d, hd, by omega, by omega⟩
  · exact ⟨d, hd, by omega, (h.owned d _ (ho.state_mem d)).kept sid j hr hd⟩

theorem complete_of_le (h : Chain cs w) (ho : InOrder cs w) {sid : Fin NShards} {i j : Nat}
    (hi : 1 ≤ i) (hij : i ≤ j) (hc : w.Complete cs sid j) : w.Complete cs sid i := by
  induction j, hij using Nat.le_induction with
  | base => exact hc
  | succ j hj ih => exact ih (h.complete_pred ho (hi.trans hj) hc)

/-- While a group is under a configuration that makes it the owner, the next one has not got
the data. -/
theorem not_complete_succ (h : Chain cs w) {sid : Fin NShards} {g : Gid}
    (hown : cs.owner (w.state g).num sid = g) : ¬ w.Complete cs sid ((w.state g).num + 1) := by
  rintro ⟨g', hown', hn', ht'⟩
  have hpos := Configs.pos_of_owner hown
  obtain ⟨d, hd, hr⟩ := h.chain sid g' _ (by omega) hown' hn' ht'
  rw [Nat.add_sub_cancel, hown] at hd
  obtain rfl : g = d := Subtype.ext hd
  rcases hr with rfl | hr
  · omega
  · omega

theorem complete_of_serves (ho : InOrder cs w) {sid : Fin NShards} {g : Gid}
    (hs : (w.state g).serves g sid = true) : cs.owner (w.state g).num sid = g ∧
      w.Complete cs sid (w.state g).num := by
  have hcon := ho.state_consumed g
  have hown := (State.serves_iff.mp hs).1
  rw [hcon.shards] at hown
  have hle := State.le_of_serves hs
  rw [hcon.latest_num] at hle
  exact ⟨hown, g, hown, le_rfl, hle⟩

/-- The groups that serve a shard have the same number. -/
theorem num_le_of_serves (h : Chain cs w) (ho : InOrder cs w) {sid : Fin NShards} {g g' : Gid}
    (hs : (w.state g).serves g sid = true) (hs' : (w.state g').serves g' sid = true) :
    (w.state g').num ≤ (w.state g).num := by
  obtain ⟨hown, -⟩ := complete_of_serves ho hs
  obtain ⟨-, hc'⟩ := complete_of_serves ho hs'
  by_contra hlt
  exact h.not_complete_succ hown (h.complete_of_le ho (by omega) (by omega) hc')

theorem eq_of_serves (h : Chain cs w) (ho : InOrder cs w) {sid : Fin NShards} {g g' : Gid}
    (hs : (w.state g).serves g sid = true) (hs' : (w.state g').serves g' sid = true) : g = g' := by
  have hn : (w.state g).num = (w.state g').num :=
    le_antisymm (h.num_le_of_serves ho hs' hs) (h.num_le_of_serves ho hs hs')
  obtain ⟨hown, -⟩ := complete_of_serves ho hs
  obtain ⟨hown', -⟩ := complete_of_serves ho hs'
  rw [hn, hown'] at hown
  exact Subtype.ext hown.symm

end Chain

/-- No two groups would apply a client operation on the same shard. -/
def World.Exclusive (w : World) : Prop :=
  ∀ (sid : Fin NShards) (g g' : Gid), g ≠ g' →
    ¬ ((w.state g).serves g sid = true ∧ (w.state g').serves g' sid = true)

/-- **In a careful run a shard is served by at most one group.** -/
theorem exclusive_ownership (cs : Configs) (w : World) (past : List World)
    (h : Run cs World.Careful (w :: past)) : w.Exclusive := by
  obtain ⟨⟨ho, -⟩, hc⟩ := chain_run (fun _ _ hok => hok) h w (List.mem_cons_self ..)
  rintro sid g g' hne ⟨hs, hs'⟩
  exact hne (hc.eq_of_serves ho hs hs')

/-- Group 1 gives everything to group 2. -/
def sampleTransfer : List Event :=
  round (gid 0) 0 0 1 ++ round (gid 1) 0 1 1 ++ round (gid 0) 1 2 2 ++ round (gid 1) 1 3 2 ++
    (List.finRange NShards).map (fun sid => .request (gid 1) 2 2 sid) ++
    (List.range NShards).map (fun k => .answer k 2) ++ (List.range NShards).map .acquire

theorem sampleTransfer_ends : runEnds (World.step (oneOwner [0, 1, 2])) World.Careful
    World.init sampleTransfer (fun w _ => decide
      ((w.state (gid 1)).serves (gid 1) ⟨0, by decide⟩ = true)) = true := by
  decide +kernel

theorem exclusive_ownership_sampleTransfer : ∃ w : World,
    (w.state (gid 1)).serves (gid 1) ⟨0, by decide⟩ = true ∧ w.Exclusive := by
  obtain ⟨w, past, -, ht, hp⟩ := exists_of_runEnds sampleTransfer_ends
  exact ⟨w, of_decide_eq_true hp, exclusive_ownership _ w past ht⟩

/-- Owners 1, 2, 3, 2.  Group 1 answers group 2 when it is at configuration 4 already, so
group 2 takes itself for current there, and group 3 gets a timestamp from group 2. -/
def twoOwnersRun : List Event :=
  -- group 1 goes to 4, group 2 to 2
  round (gid 0) 0 0 1 ++ round (gid 0) 1 1 2 ++ round (gid 0) 2 2 3 ++ round (gid 0) 3 3 4 ++
    round (gid 1) 0 4 1 ++ round (gid 1) 1 5 2 ++
    (List.finRange NShards).map (fun sid => .request (gid 1) 2 2 sid) ++
    (List.range NShards).map (fun k => .answer k 4) ++ (List.range NShards).map .acquire ++
    -- group 2 goes to 4, group 3 to 3
    round (gid 1) 12 6 3 ++ round (gid 1) 13 7 4 ++
    round (gid 2) 0 8 1 ++ round (gid 2) 1 9 2 ++ round (gid 2) 2 10 3 ++
    (List.finRange NShards).map (fun sid => .request (gid 2) 3 3 sid) ++
    (List.range NShards).map (fun k => .answer (NShards + k) 14) ++
    (List.range NShards).map (fun k => .acquire (NShards + k))

theorem twoOwnersRun_ends : runEnds (World.step (oneOwner [0, 1, 2, 3, 2])) (fun _ _ => True)
    World.init twoOwnersRun (fun w _ => decide
      ((w.state (gid 1)).serves (gid 1) ⟨0, by decide⟩ = true ∧
        (w.state (gid 2)).serves (gid 2) ⟨0, by decide⟩ = true)) = true := by
  decide +kernel

/-- A shard may be served by two groups. -/
theorem two_owners : ¬ ∀ (cs : Configs) (w : World) (past : List World),
    Run cs (fun _ _ => True) (w :: past) → w.Exclusive := by
  intro h
  obtain ⟨w, past, -, ht, hp⟩ := exists_of_runEnds twoOwnersRun_ends
  exact h _ w past ht _ (gid 1) (gid 2) (by decide) (of_decide_eq_true hp)

end ShardRaft.ShardKV
