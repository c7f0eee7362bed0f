import ShardRaft.Ctrler.LiveGroups
import ShardRaft.ShardKV.Ownership

/-!
# Is there a group to ask for a lagging shard?

A group asks the owner of the configuration before.  Only configuration 1 is taken to
bring no data; but a later configuration may follow one without any group, and then there
is nobody to ask and the shard lags forever (`no_donor`).

A shard that a group keeps, or has from configuration 1, never lags (`State.Fresh`).  So
where the controller always keeps a group and moves shards to listed groups only, the
owner before is a listed group and another one (`lagging_has_donor`).
-/

namespace ShardRaft.ShardKV

open ShardRaft.Lib
open ShardRaft.Ctrler (Config NShards Controller Action Groups)

variable {cs : Configs} {w w' : World} {e : Event}

/-- The configurations that the controller has made so far are those the groups consume. -/
def Configs.MadeBy (cs : Configs) (c : Controller) : Prop :=
  ∀ (n : Nat) (config : Config), c.state.configs[n]? = some config → cs.config n = config

namespace State

variable {st st' : State} {g : Gid} {op : Op}

/-- A shard that stays, or comes with configuration 1, is current. -/
def Fresh (cs : Configs) (g : Gid) (st : State) : Prop :=
  ∀ sid, cs.owner st.num sid = g → (st.num = 1 ∨ cs.owner (st.num - 1) sid = g) →
    (st.num : Int) ≤ st.shardTimestamp sid

theorem Fresh.mono (h : st.Fresh cs g) (hb : Before st st') (hn : st.num = st'.num) :
    st'.Fresh cs g := by
  intro sid ho hf
  rw [← hn] at ho hf ⊢
  exact (h sid ho hf).trans (hb.2 hn sid)

theorem fresh_install (hst : st.Consumed cs) (hc : op.shardConfig = cs.known (st.num + 1)) :
    (st.handleInstallShardConfig g op).Fresh cs g := by
  have hnext : op.shardConfig.num = st.latestConfig.num + 1 := by
    rw [hc, Configs.known_num, hst.latest_num]
    rfl
  intro sid ho hf
  rw [num_install hst hnext] at ho hf ⊢
  rw [install_timestamp hst hc, if_pos ⟨ho, by simpa using hf⟩]
  exact le_of_eq (by push_cast; rfl)

end State

/-- **A step keeps the shards of a group fresh.** -/
theorem fresh_move (ho : InOrder cs w) (h : ∀ g, ∀ st ∈ w.past g, st.Fresh cs g)
    (hm : World.Move cs w e w') : ∀ g, ∀ st ∈ w'.past g, st.Fresh cs g := by
  have hset : ∀ {g : Gid} {st : State}, st.Fresh cs g →
      ∀ g', ∀ st' ∈ (w.setState g st).past g', st'.Fresh cs g' := by
    intro g st hst g' st' hst'
    by_cases hg : g' = g
    · subst hg
      simp only [World.setState, Function.update_self] at hst'
      rcases List.mem_append.mp hst' with hm | hm
      · exact h g' st' hm
      · rw [List.mem_singleton.mp hm]
        exact hst
    · simp only [World.setState, Function.update_of_ne hg] at hst'
      exact h g' st' hst'
  have hlast := fun g => h g _ (ho.state_mem g)
  cases hm with
  | check hst hup => exact h
  | query ht hst hp hn => exact h
  | propose ht hc hst hp hn => exact h
  | @install k g c hc =>
    refine hset ?_
    by_cases hnext : c.num = (w.state g).latestConfig.num + 1
    · exact State.fresh_install (ho.state_consumed g)
        (ho.known_of_proposed (List.mem_of_getElem? hc) hnext)
    · rw [State.install_of_ne hnext]
      exact hlast g
  | request hst hst' hp hl ha => exact h
  | answer hq hst hr => exact h
  | acquire ha =>
    exact hset ((hlast _).mono State.before_acquire
      (State.num_congr State.acquire_latestConfig).symm)
  | call hc => exact h
  | apply hreq ha =>
    exact hset ((hlast _).mono (State.before_applyClientOp ha)
      (State.num_congr (State.applyClientOp_frame ha).1).symm)
  | returns hc hr hq hg => exact h

theorem fresh_run {ok : World → Event → Prop} {tr : List World} (h : Run cs ok tr) :
    ∀ w ∈ tr, ∀ g, ∀ st ∈ w.past g, st.Fresh cs g := by
  intro w hw
  have hall := Trace.invariant
    (I := fun w => InOrder cs w ∧ ∀ g, ∀ st ∈ w.past g, st.Fresh cs g)
    ⟨InOrder.init, by
      intro g st hst sid ho
      rw [List.mem_singleton.mp hst] at ho
      exact absurd (Configs.pos_of_owner ho) (by decide)⟩
    (fun w w' e hi _ hs =>
      ⟨hi.1.move (World.move_of_step hs), fresh_move hi.1 hi.2 (World.move_of_step hs)⟩) tr h
  exact (hall w hw).2

/-- A lagging shard was another group's in the configuration before, and that group is
listed there. -/
def State.HasDonors (g : Gid) (st : State) : Prop :=
  ∀ sid ∈ st.laggingShards g, ∃ previous, st.previousConfig = some previous ∧
    previous.shards sid ∈ previous.groups ∧ previous.shards sid ≠ g

/-- **Where the controller always keeps a group and moves shards to listed groups only,
every lagging shard has a donor.** -/
theorem lagging_has_donor (c : Controller) (steps : List Controller)
    (hc : Trace Controller.step Controller.KeepsGroup Controller.init (c :: steps))
    (hcs : cs.MadeBy c) (w : World) (past : List World)
    (h : Run cs (fun _ _ => True) (w :: past)) (g : Gid) :
    ∀ st ∈ w.past g, st.num < c.state.configs.length → st.HasDonors g := by
  intro st hst hnum sid hsid
  have hcon := (inOrder_run h w (List.mem_cons_self ..)).consumed g st hst
  obtain ⟨hown, hlt⟩ := State.mem_laggingShards.mp hsid
  rw [hcon.shards] at hown
  rw [hcon.latest_num] at hlt
  have hnot : ¬ (st.num = 1 ∨ cs.owner (st.num - 1) sid = g) := by
    intro hf
    exact absurd (fresh_run h w (List.mem_cons_self ..) g st hst sid hown hf) (not_le.mpr hlt)
  have hpos := Configs.pos_of_owner hown
  obtain ⟨n, hn⟩ : ∃ n, st.num = n + 2 := ⟨st.num - 2, by omega⟩
  have hprev : st.previousConfig = some (cs.config (n + 1)) := by
    rw [State.previousConfig, hcon.all, List.length_map, List.length_range, hn, if_pos (by omega),
      List.getElem?_map, List.getElem?_range (by omega), Option.map_some]
    exact congrArg some (Configs.known_succ n)
  have hget := List.getElem?_eq_getElem (show n + 1 < c.state.configs.length by omega)
  have hlive := Controller.live_run hc n _ hget sid
  rw [← hcs _ _ hget] at hlive
  refine ⟨_, hprev, hlive, ?_⟩
  intro heq
  refine hnot (.inr ?_)
  rw [hn, Configs.owner]
  show (cs.known (n + 1)).shards sid = g
  rw [Configs.known_succ]
  exact heq

/-- A configuration, field by field. -/
def fields (config : Config) : Int × List Int × Groups :=
  (config.num, List.ofFn config.shards, config.groups)

theorem fields_injective : Function.Injective fields := by
  intro a b h
  obtain ⟨hn, h⟩ := Prod.mk.inj h
  obtain ⟨hs, hg⟩ := Prod.mk.inj h
  cases a
  cases b
  simp only [List.ofFn_inj] at hn hs hg
  rw [hn, hs, hg]

theorem madeBy_of_fields {c : Controller} {k : Nat}
    (h : c.state.configs.map fields = (List.range k).map fun n => fields (cs.config n)) :
    c.state.configs.length = k ∧ cs.MadeBy c := by
  rw [← Function.comp_def, ← List.map_map] at h
  have heq := List.map_injective_iff.mpr fields_injective h
  rw [heq]
  refine ⟨by simp, ?_⟩
  intro n config hget
  rw [heq, List.getElem?_map] at hget
  obtain ⟨m, hm, rfl⟩ := Option.map_eq_some_iff.mp hget
  obtain ⟨hlt, rfl⟩ := List.getElem?_eq_some_iff.mp hm
  rw [List.getElem_range]

/-- Groups 1 and 2 share the shards, and configuration 2 moves shard 0 to group 2. -/
def sharedConfigs : Configs where
  config n :=
    if n = 0 then zeroConfig
    else ⟨n, fun k => if k.val % 2 = 0 ∧ (n = 1 ∨ k.val ≠ 0) then 1 else 2,
      Groups.ofList [(1, ["x"]), (2, ["y"])]⟩
  num_eq n := by
    split
    · rename_i h
      rw [h]
      rfl
    · rfl

/-- The controller's side of it. -/
def shareActions : List Action :=
  [.apply ⟨0, 0, .join, Groups.ofList [(1, ["x"]), (2, ["y"])], [], 0, 0, 0, 7, 1⟩ 1 true,
    .apply ⟨0, 0, .move, ∅, [], 0, 2, 0, 7, 2⟩ 2 true]

theorem shareActions_ends : runEnds Controller.step Controller.KeepsGroup Controller.init shareActions
    (fun c _ => decide (c.state.configs.map fields =
      (List.range 3).map fun n => fields (sharedConfigs.config n))) = true := by
  decide +kernel

/-- Group 2 installs both configurations. -/
def shareRounds : List Event := round (gid 1) 0 0 1 ++ round (gid 1) 1 1 2

theorem shareRounds_ends : runEnds (World.step sharedConfigs) (fun _ _ => True) World.init shareRounds
    (fun w _ => decide ((w.state (gid 1)).latestConfig.num = 2 ∧
      (w.state (gid 1)).laggingShards (gid 1) = [⟨0, by decide⟩])) = true := by
  decide +kernel

theorem lagging_has_donor_shareRounds : ∃ w : World,
    (w.state (gid 1)).laggingShards (gid 1) = [⟨0, by decide⟩] ∧
      (w.state (gid 1)).HasDonors (gid 1) := by
  obtain ⟨c, steps, -, htc, hc⟩ := exists_of_runEnds shareActions_ends
  obtain ⟨hlen, hmade⟩ := madeBy_of_fields (of_decide_eq_true hc)
  obtain ⟨w, past, -, ht, hp⟩ := exists_of_runEnds shareRounds_ends
  obtain ⟨hn, hl⟩ := of_decide_eq_true hp
  refine ⟨w, hl, lagging_has_donor c steps htc hmade w past ht (gid 1) _
    ((inOrder_run ht w (List.mem_cons_self ..)).state_mem _) ?_⟩
  rw [hlen, State.num, hn]
  decide

/-- Group 1 joins, leaves and joins again. -/
def rejoinConfigs : Configs where
  config n :=
    if n = 0 ∨ n = 2 then ⟨n, fun _ => 0, ∅⟩ else ⟨n, fun _ => 1, Groups.ofList [(1, ["x"])]⟩
  num_eq n := by split <;> rfl

/-- The controller's side of it. -/
def rejoinActions : List Action :=
  [.apply ⟨0, 0, .join, Groups.ofList [(1, ["x"])], [], 0, 0, 0, 7, 1⟩ 1 true,
    .apply ⟨0, 0, .leave, ∅, [1], 0, 0, 0, 7, 2⟩ 2 true,
    .apply ⟨0, 0, .join, Groups.ofList [(1, ["x"])], [], 0, 0, 0, 7, 3⟩ 3 true]

theorem rejoinActions_ends : runEnds Controller.step (fun _ e => Controller.Positive e)
    Controller.init rejoinActions
    (fun c _ => decide (c.state.configs.map fields =
      (List.range 4).map fun n => fields (rejoinConfigs.config n))) = true := by
  decide +kernel

/-- Group 1 installs all three configurations. -/
def rejoinRounds : List Event := round (gid 0) 0 0 1 ++ round (gid 0) 1 1 2 ++ round (gid 0) 2 2 3

theorem rejoinRounds_ends : runEnds (World.step rejoinConfigs) (fun _ _ => True) World.init
    rejoinRounds (fun w _ => decide ((w.state (gid 0)).latestConfig.num = 3 ∧
      ⟨0, by decide⟩ ∈ (w.state (gid 0)).laggingShards (gid 0) ∧
      (w.state (gid 0)).previousConfig = some (rejoinConfigs.config 2))) = true := by
  decide +kernel

/-- A lagging shard need not have a donor. -/
theorem no_donor : ¬ ∀ (c : Controller) (steps : List Controller),
    Trace Controller.step (fun _ e => Controller.Positive e) Controller.init (c :: steps) →
    ∀ cs : Configs, cs.MadeBy c → ∀ (w : World) (past : List World),
      Run cs (fun _ _ => True) (w :: past) → ∀ (g : Gid), ∀ st ∈ w.past g,
        st.num < c.state.configs.length → st.HasDonors g := by
  intro h
  obtain ⟨c, steps, -, htc, hc⟩ := exists_of_runEnds rejoinActions_ends
  obtain ⟨hlen, hmade⟩ := madeBy_of_fields (of_decide_eq_true hc)
  obtain ⟨w, past, -, ht, hp⟩ := exists_of_runEnds rejoinRounds_ends
  obtain ⟨hn, hl, hprev⟩ := of_decide_eq_true hp
  have hlt : (w.state (gid 0)).num < c.state.configs.length := by
    rw [hlen, State.num, hn]
    decide
  obtain ⟨previous, hp', hm, -⟩ := h c steps htc rejoinConfigs hmade w past ht (gid 0) _
    ((inOrder_run ht w (List.mem_cons_self ..)).state_mem _) hlt _ hl
  rw [hprev] at hp'
  rw [← Option.some.inj hp'] at hm
  exact absurd hm (by decide)

end ShardRaft.ShardKV
