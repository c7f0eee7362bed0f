import ShardRaft.Lib.Lists
import ShardRaft.ShardKV.InOrder
import ShardRaft.ShardKV.Snapshots

/-!
# The log of a group and its replicas

`World` has one state for each group.  Here the replicas come back: `GroupRun` is a run of
any number of servers that are fed the log of a group, with snapshots taken, sent and read
at any points and servers restarted at any time.  Every state that such a server, a record
or a snapshot holds is the outcome of a prefix of the log (`GroupRun.reached`), and the
groups of `World` have such logs (`logged_run`), so it is one of the states the group has
gone through (`mem_past_of_holds`).

`configs_in_order` is what follows for the configurations: whatever numbers the entries of
a log carry, every replica knows the controller's configurations up to its own number.
-/

namespace ShardRaft.ShardKV

open ShardRaft.Lib
open ShardRaft.Ctrler (Config NShards)

/-- The replicas of a group at the end of a run in which they are fed the entries `cmds`. -/
structure GroupRun (gid : Int) (cmds : List Op) where
  servers : Nat
  Bytes : Type
  labgob : Codec State Bytes
  maxraftstate : Int
  replicas : Replicas servers State Bytes
  earlier : List (Replicas servers State Bytes)
  run : Trace (Replicas.step (service labgob gid maxraftstate) cmds) (fun _ _ => True)
    (Replicas.init (service labgob gid maxraftstate)) (replicas :: earlier)

namespace GroupRun

variable {gid : Int} {cmds : List Op}

/-- A replica has this state, or had it after some message, or a snapshot stands for it. -/
def Holds (r : GroupRun gid cmds) (st : State) : Prop :=
  r.replicas.Held (State.readSnapshot r.labgob) st

theorem reached {r : GroupRun gid cmds} {st : State} (h : r.Holds st) :
    ∃ i, Reached (applyCommand gid) State.makeState cmds i st :=
  reached_of_held (behind_run service_runs (fun w e _ => takes w e) r.run) h

end GroupRun

/-! ### The logs of a run -/

namespace World

/-- Where an entry of the log of `g` comes from. -/
inductive Entered (w : World) (g : Gid) : Op → Prop
  | install (c : Config) (h : (g, c) ∈ w.proposed) : Entered w g (createInstallShardConfigOp 0 c)
  | acquire (a : Answered) (h : a ∈ w.answered) (hg : a.asked.gid = g) :
      Entered w g (createAcquireShardOp 0 a.asked.args.shardIndex a.reply)
  | client (req : Request) (h : req ∈ w.issued) : Entered w g (createOp 0 req)

/-- The states of each group are those after the entries of its log. -/
structure Logged (w : World) (log : Gid → List Op) : Prop where
  length : ∀ g : Gid, (w.past g).length = (log g).length + 1
  reached : ∀ (g : Gid) i st, (w.past g)[i]? = some st →
    Reached (applyCommand g) State.makeState (log g) i st
  state : ∀ g : Gid, Reached (applyCommand g) State.makeState (log g) (log g).length (w.state g)
  entered : ∀ g : Gid, ∀ op ∈ log g, w.Entered g op

variable {cs : Configs} {w w' : World} {e : Event} {log : Gid → List Op}

theorem Entered.mono {g : Gid} {op : Op} (h : w.Entered g op)
    (hp : ∀ x ∈ w.proposed, x ∈ w'.proposed) (ha : ∀ a ∈ w.answered, a ∈ w'.answered)
    (hi : ∀ req ∈ w.issued, req ∈ w'.issued) : w'.Entered g op := by
  cases h with
  | install c h => exact .install c (hp _ h)
  | acquire a h hg => exact .acquire a (ha a h) hg
  | client req h => exact .client req (hi req h)

theorem Logged.mono (h : w.Logged log) (hs : w'.state = w.state) (hpast : w'.past = w.past)
    (hp : ∀ x ∈ w.proposed, x ∈ w'.proposed) (ha : ∀ a ∈ w.answered, a ∈ w'.answered)
    (hi : ∀ req ∈ w.issued, req ∈ w'.issued) : w'.Logged log := by
  refine ⟨?_, ?_, ?_, fun g op hop => (h.entered g op hop).mono hp ha hi⟩
  · rw [hpast]
    exact h.length
  · rw [hpast]
    exact h.reached
  · rw [hs]
    exact h.state

theorem Logged.setState (h : w.Logged log) {g : Gid} {op : Op} {st : State}
    (hop : w.Entered g op) (ha : applyCommand g (w.state g) op = some st) :
    (w.setState g st).Logged (Function.update log g (log g ++ [op])) := by
  have hnew : Reached (applyCommand g) State.makeState (log g ++ [op]) ((log g).length + 1) st :=
    ((h.state g).append [op]).succ List.getElem?_concat_length ha
  refine ⟨fun g' => ?_, fun g' i st' hi => ?_, fun g' => ?_, fun g' op' hop' => ?_⟩
  · by_cases hg : g' = g
    · subst hg
      simp [World.setState, h.length]
    · simp only [World.setState, Function.update_of_ne hg, h.length]
  · by_cases hg : g' = g
    · subst hg
      simp only [World.setState, Function.update_self] at hi ⊢
      rcases getElem?_concat.mp hi with hi | ⟨hlen, rfl⟩
      · exact (h.reached g' i st' hi).append [op]
      · rw [hlen, h.length]
        exact hnew
    · simp only [World.setState, Function.update_of_ne hg] at hi ⊢
      exact h.reached g' i st' hi
  · by_cases hg : g' = g
    · subst hg
      simp only [World.setState, Function.update_self, List.length_append, List.length_singleton]
      exact hnew
    · simp only [World.setState, Function.update_of_ne hg]
      exact h.state g'
  · have hmono : ∀ {op'}, w.Entered g' op' → (w.setState g st).Entered g' op' := fun h' =>
      h'.mono (fun _ => id) (fun _ => id) fun _ => id
    by_cases hg : g' = g
    · subst hg
      simp only [Function.update_self] at hop'
      rcases List.mem_append.mp hop' with hop' | hop'
      · exact hmono (h.entered g' op' hop')
      · rw [List.mem_singleton.mp hop']
        exact hmono hop
    · rw [Function.update_of_ne hg] at hop'
      exact hmono (h.entered g' op' hop')

theorem Logged.init : World.init.Logged fun _ => [] where
  length _ := rfl
  reached g i st hi := by
    cases i with
    | zero => exact Option.some.inj hi ▸ reached_zero
    | succ i => exact absurd hi (by simp [World.init])
  state _ := reached_zero
  entered _ op hop := absurd hop List.not_mem_nil

/-- **A step keeps the logs**, or adds an entry to one of them. -/
theorem Logged.move (h : w.Logged log) (hm : World.Move cs w e w') : ∃ log', w'.Logged log' := by
  have happend : ∀ {α : Type} {l : List α} {b : α}, ∀ x ∈ l, x ∈ l ++ [b] := fun _ =>
    List.mem_append_left _
  cases hm with
  | check hst hup => exact ⟨log, h.mono rfl rfl (fun _ => id) (fun _ => id) fun _ => id⟩
  | query ht hst hp hn => exact ⟨log, h.mono rfl rfl (fun _ => id) (fun _ => id) fun _ => id⟩
  | propose ht hc hst hp hn => exact ⟨log, h.mono rfl rfl happend (fun _ => id) fun _ => id⟩
  | install hc => exact ⟨_, h.setState (.install _ (List.mem_of_getElem? hc)) rfl⟩
  | request hst hst' hp hl ha => exact ⟨log, h.mono rfl rfl (fun _ => id) (fun _ => id) fun _ => id⟩
  | answer hq hst hr => exact ⟨log, h.mono rfl rfl (fun _ => id) happend fun _ => id⟩
  | acquire ha => exact ⟨_, h.setState (.acquire _ (List.mem_of_getElem? ha) rfl) rfl⟩
  | call hc => exact ⟨log, h.mono rfl rfl (fun _ => id) (fun _ => id) happend⟩
  | apply hreq ha =>
    have hcmd := congrArg (Option.map Prod.fst) ha
    exact ⟨_, (h.setState (.client _ (List.mem_of_getElem? hreq)) hcmd).mono rfl rfl (fun _ => id)
      (fun _ => id) fun _ => id⟩
  | returns hc hr hq hg => exact ⟨log, h.mono rfl rfl (fun _ => id) (fun _ => id) fun _ => id⟩

end World

/-- **The groups of every run have logs.** -/
theorem logged_run {cs : Configs} {ok : World → Event → Prop} {tr : List World}
    (h : Run cs ok tr) : ∀ w ∈ tr, ∃ log, w.Logged log := by
  refine Trace.invariant (I := fun w => ∃ log, w.Logged log) ⟨_, World.Logged.init⟩ ?_ tr h
  rintro w w' e ⟨log, hlog⟩ _ hs
  exact hlog.move (World.move_of_step hs)

/-- A state that a replica holds is one that its group has gone through. -/
theorem mem_past_of_holds {w : World} {log : Gid → List Op} (h : w.Logged log) {g : Gid}
    {r : GroupRun g (log g)} {st : State} (hst : r.Holds st) : st ∈ w.past g := by
  obtain ⟨i, hi⟩ := GroupRun.reached hst
  have hlt : i < (w.past g).length := by
    have hle := hi.1
    have hlen := h.length g
    omega
  have hat := List.getElem?_eq_getElem hlt
  rw [hi.unique (h.reached g i _ hat)]
  exact List.getElem_mem hlt

/-! ### Configurations -/

variable {cs : Configs}

/-- Every configuration in the log is the controller's.  Its number may be any. -/
def FromController (cs : Configs) (cmds : List Op) : Prop :=
  ∀ op ∈ cmds, op.type = .installShardConfig → ∃ n, op.shardConfig = cs.config n

namespace State

/-- What a state knows of the configurations. -/
structure InSequence (cs : Configs) (st : State) : Prop where
  length : (st.allConfigs.length : Int) = st.latestConfig.num + 1
  numbered : ∀ (i : Nat) (c : Config), st.allConfigs[i]? = some c → c.num = i
  last : st.allConfigs.getLast? = some st.latestConfig
  /-- From number 1 on they are the controller's; number 0 is the group's own. -/
  history : ∀ (i : Nat) (c : Config), 1 ≤ i → st.allConfigs[i]? = some c → c = cs.config i

theorem Consumed.getElem? {st : State} (h : st.Consumed cs) {i : Nat} {c : Config}
    (hi : st.allConfigs[i]? = some c) : c = cs.known i := by
  rw [h.all, List.getElem?_map] at hi
  obtain ⟨j, hj, rfl⟩ := Option.map_eq_some_iff.mp hi
  obtain ⟨hlt, hji⟩ := List.getElem?_eq_some_iff.mp hj
  rw [List.getElem_range] at hji
  rw [hji]

theorem Consumed.inSequence {st : State} (h : st.Consumed cs) : st.InSequence cs where
  length := by
    rw [h.all, List.length_map, List.length_range, h.latest_num]
    push_cast
    rfl
  numbered i c hi := by rw [h.getElem? hi, Configs.known_num]
  last := by
    rw [h.all, List.range_succ, List.map_append, List.map_singleton, List.getLast?_concat,
      ← h.latest]
  history i c h1 hi := by rw [h.getElem? hi, Configs.known, if_neg (by omega)]

theorem Consumed.applyOp {st st' : State} {gid : Int} {op : Op} {msg : KVReplyMsg}
    (h : st.Consumed cs) (hop : op.type = .installShardConfig → ∃ n, op.shardConfig = cs.config n)
    (ha : st.applyOp gid op = some (st', msg)) : st'.Consumed cs := by
  unfold State.applyOp at ha
  split at ha
  · split at ha
    · rename_i htype
      obtain ⟨n, hn⟩ := hop htype
      rw [← (Prod.mk.inj (Option.some.inj ha)).1]
      exact consumed_install h hn
    · rw [← (Prod.mk.inj (Option.some.inj ha)).1]
      exact h.congr acquire_latestConfig acquire_allConfigs
    all_goals exact absurd ha (by simp)
  · obtain ⟨hl, hall, -⟩ := applyClientOp_frame ha
    exact h.congr hl hall

end State

theorem GroupRun.consumed {gid : Int} {cmds : List Op} (hcmds : FromController cs cmds)
    {r : GroupRun gid cmds} {st : State} (h : r.Holds st) : st.Consumed cs := by
  obtain ⟨i, hi⟩ := GroupRun.reached h
  refine hi.invariant (P := State.Consumed cs) .makeState fun op hop st st' hst ha => ?_
  obtain ⟨x, hx, rfl⟩ := Option.map_eq_some_iff.mp ha
  exact hst.applyOp (hcmds op hop) hx

/-- **Configurations are consumed in order by every group.**  Whatever entries reach the
logs of two groups, as long as the configurations in them are the controller's: every state
of a replica or a snapshot has them in sequence, and two that have the same number have the
same configurations.  The entries that the tickers of any number of leaders put into a log
are of this kind. -/
theorem configs_in_order (cs : Configs) :
    (∀ (gid gid' : Int) (cmds cmds' : List Op), FromController cs cmds → FromController cs cmds' →
      ∀ (r : GroupRun gid cmds) (r' : GroupRun gid' cmds') (st st' : State),
        r.Holds st → r'.Holds st' → st.InSequence cs ∧ st'.InSequence cs ∧
          (st.latestConfig.num = st'.latestConfig.num →
            st.latestConfig = st'.latestConfig ∧ st.allConfigs = st'.allConfigs)) ∧
    ∀ tr, Run cs (fun _ _ => True) tr → ∀ w ∈ tr, ∃ log, w.Logged log ∧
      ∀ g, FromController cs (log g) := by
  constructor
  · intro gid gid' cmds cmds' hcmds hcmds' r r' st st' hst hst'
    have hc := GroupRun.consumed hcmds hst
    have hc' := GroupRun.consumed hcmds' hst'
    refine ⟨hc.inSequence, hc'.inSequence, fun hnum => ?_⟩
    have hn : st.num = st'.num := by rw [State.num, hnum, State.num]
    exact ⟨by rw [hc.latest, hc'.latest, hn], by rw [hc.all, hc'.all, hn]⟩
  · intro tr htr w hw
    obtain ⟨log, hlog⟩ := logged_run htr w hw
    refine ⟨log, hlog, fun g op hop htype => ?_⟩
    cases hlog.entered g op hop with
    | install c h => exact (inOrder_run htr w hw).proposed _ h
    | acquire a h hg => exact absurd htype (by simp [createAcquireShardOp])
    | client req h =>
      cases hcall : req.call <;> simp [createOp, hcall] at htype

/-- Configurations in which group 1 has every shard. -/
def oneGroup : Configs := ⟨fun n => ⟨n, fun _ => 1, ∅⟩, fun _ => rfl⟩

/-- A configuration, one too far ahead, the first one again, and the next one. -/
def mixedLog : List Op := [1, 3, 1, 2].map fun n => createInstallShardConfigOp 0 (oneGroup.config n)

theorem mixedLog_ends : runEnds (Replicas.step (service (plain State) 1 0) mixedLog) (fun _ _ => True)
    (Replicas.init (service (plain State) 1 0))
    [.deliver (0 : Fin 2) ⟨false, true⟩, .deliver 0 ⟨false, true⟩, .deliver 0 ⟨false, true⟩,
      .deliver 0 ⟨false, true⟩, .store 1 2, .deliver 1 ⟨false, false⟩, .restart 1,
      .deliver 1 ⟨false, false⟩, .deliver 1 ⟨false, false⟩]
    (fun w _ => decide (w.consumed.map (fun r => (r.server, r.index, r.state.latestConfig.num)) =
      [(0, 1, 1), (0, 2, 1), (0, 3, 1), (0, 4, 2), (1, 3, 1), (1, 3, 1), (1, 4, 2)])) = true := by
  decide +kernel

theorem configs_in_order_mixedLog : ∃ (r : GroupRun 1 mixedLog) (st : State), r.Holds st ∧
    st.latestConfig.num = 2 ∧ st.InSequence oneGroup := by
  obtain ⟨w, past, -, ht, hp⟩ := exists_of_runEnds mixedLog_ends
  have hfrom : FromController oneGroup mixedLog := by
    intro op hop _
    obtain ⟨n, -, rfl⟩ := List.mem_map.mp hop
    exact ⟨n, rfl⟩
  have hlast : ((1 : Fin 2), 4, (2 : Int)) ∈
      w.consumed.map fun r => (r.server, r.index, r.state.latestConfig.num) := by
    rw [of_decide_eq_true hp]
    decide
  obtain ⟨rec, hrec, heq⟩ := List.mem_map.mp hlast
  let r : GroupRun 1 mixedLog := ⟨2, State, plain State, 0, w, past, ht⟩
  have hst : r.Holds rec.state := .record rec hrec
  exact ⟨r, rec.state, hst, (Prod.mk.inj (Prod.mk.inj heq).2).2,
    ((configs_in_order oneGroup).1 1 1 _ _ hfrom hfrom r r _ _ hst hst).1⟩

end ShardRaft.ShardKV
