import ShardRaft.Ctrler.Rebalance
import ShardRaft.Ctrler.Server
import ShardRaft.Lib.Lists
import ShardRaft.Lib.Trace

/-!
# The configurations of a controller

One server of the controller over its whole life: it applies operations, hands a
snapshot to Raft after each of them, and may be started again at any time from the last
snapshot.

`Next latest op config` is what `handleJoin`, `handleLeave` and `handleMove` make of the
latest configuration; `move_of_step` says once what a step can do.  From it: the
configurations are numbered from 0, only ever grow at the end, and a query is answered
the same forever (`config_history`).
-/

namespace ShardRaft.Ctrler

open ShardRaft.Lib

namespace Config

/-- `handleJoin` before the shards are looked at. -/
def joinGroups (latest : Config) (servers : Groups) : Config :=
  { latest.makeNextConfig with groups := servers ∪ latest.groups }

/-- `handleLeave` before void shards are assigned. -/
def leaveGroups (latest : Config) (gids : List Int) : Config :=
  { latest.makeNextConfig with
    groups := gids.foldl (fun groups gid => groups.erase gid) latest.groups
    shards := fun i => if contains gids (latest.shards i) then 0 else latest.shards i }

/-- `config` is what `op` makes of the latest configuration. -/
inductive Next (latest : Config) (op : Op) (config : Config) : Prop
  | join (htype : op.type = .join) (h : Moved (latest.joinGroups op.servers).assignVoidShards config)
  | leave (htype : op.type = .leave) (h : Moved (latest.leaveGroups op.gids).assignVoidShards config)
  | move (htype : op.type = .move) (sid : Fin NShards) (hsid : op.shard = sid)
      (h : config = { latest.makeNextConfig with
        shards := Function.update latest.shards sid op.gid })

theorem Next.num {latest config : Config} {op : Op} (h : Next latest op config) :
    config.num = latest.num + 1 := by
  cases h with
  | join _ h => exact h.num.trans (assignVoidShards_num _)
  | leave _ h => exact h.num.trans (assignVoidShards_num _)
  | move _ _ _ h => rw [h]; rfl

theorem contains_iff {gids : List Int} {g : Int} : contains gids g = true ↔ g ∈ gids := by
  simp [contains]

theorem mem_foldl_erase {g : Int} :
    ∀ (gids : List Int) (groups : Groups),
      g ∈ gids.foldl (fun groups gid => groups.erase gid) groups ↔ g ∈ groups ∧ g ∉ gids := by
  intro gids
  induction gids with
  | nil => intro groups; simp
  | cons gid gids ih =>
    intro groups
    rw [List.foldl_cons, ih, Finmap.mem_erase, List.mem_cons]
    tauto

end Config

namespace State

/-- `op` is a `Join`, `Leave` or `Move` that is not a duplicate. -/
def changes (st : State) (op : Op) : Bool := !st.isDuplicateOp op && decide (op.type ≠ .query)

/-- The configuration that `handleCommandApply` answers with. -/
def reply (st : State) (op : Op) (commandIndex : Int) (isLeader : Bool) : Option Config :=
  (st.handleCommandApply op commandIndex isLeader).bind fun r => r.2.2.returnConfig

section Handlers

variable {st : State} {latest : Config} {op : Op}

theorem handleJoin_eq (h : st.getLatestConfig = some latest) (servers : Groups) :
    st.handleJoin servers =
      (latest.joinGroups servers).assignVoidShards.redistribute.map st.appendConfig := by
  rw [Option.map_eq_bind, handleJoin, h]
  rfl

theorem handleLeave_eq (h : st.getLatestConfig = some latest) (gids : List Int) :
    st.handleLeave gids =
      (latest.leaveGroups gids).assignVoidShards.redistribute.map st.appendConfig := by
  rw [Option.map_eq_bind, handleLeave, h]
  rfl

theorem handleJoin_next (htype : op.type = .join) (h : st.getLatestConfig = some latest) :
    ∃ config, st.handleJoin op.servers = some (st.appendConfig config) ∧ latest.Next op config := by
  obtain ⟨config, he, hm, -⟩ := (latest.joinGroups op.servers).assignVoidShards.redistribute_spec
  exact ⟨config, by rw [handleJoin_eq h, he, Option.map_some], .join htype hm⟩

theorem handleLeave_next (htype : op.type = .leave) (h : st.getLatestConfig = some latest) :
    ∃ config, st.handleLeave op.gids = some (st.appendConfig config) ∧ latest.Next op config := by
  obtain ⟨config, he, hm, -⟩ := (latest.leaveGroups op.gids).assignVoidShards.redistribute_spec
  exact ⟨config, by rw [handleLeave_eq h, he, Option.map_some], .leave htype hm⟩

/-- A shard out of range ends the process. -/
theorem handleMove_next (htype : op.type = .move) (h : st.getLatestConfig = some latest) :
    (∃ config, st.handleMove op.shard op.gid = some (st.appendConfig config) ∧
      latest.Next op config) ∨
    (¬(0 ≤ op.shard ∧ op.shard < NShards) ∧ st.handleMove op.shard op.gid = none) := by
  simp only [handleMove, h, Option.bind_eq_bind, Option.bind_some]
  by_cases hr : 0 ≤ op.shard ∧ op.shard.toNat < NShards
  · rw [dif_pos hr]
    exact .inl ⟨_, rfl, .move htype ⟨op.shard.toNat, hr.2⟩ (Int.toNat_of_nonneg hr.1).symm rfl⟩
  · rw [dif_neg hr]
    exact .inr ⟨by omega, rfl⟩

theorem getLatestConfig_isSome (h : st.configs ≠ []) :
    ∃ latest, st.getLatestConfig = some latest := by
  have hpos := List.length_pos_iff.mpr h
  exact ⟨st.configs[st.configs.length - 1], List.getElem?_eq_getElem (by omega)⟩

theorem getValue_query (htype : op.type = .query) (h : st.configs ≠ []) :
    ∃ config, st.getValue op = some config := by
  simp only [getValue, htype, ne_eq, not_true_eq_false, if_false]
  split
  · exact getLatestConfig_isSome h
  · next hr =>
    have hlt : op.num.toNat < st.configs.length := by omega
    exact ⟨st.configs[op.num.toNat], List.getElem?_eq_getElem hlt⟩

/-- **What `applyOp` can do**, on a state with a configuration. -/
theorem applyOp_cases (h : st.configs ≠ []) :
    (∃ st' msg, st.applyOp op = some (st', msg) ∧ st.changes op = false ∧
      st'.configs = st.configs ∧ msg.returnConfig = st.getValue op) ∨
    (∃ st' msg latest config, st.applyOp op = some (st', msg) ∧ st.changes op = true ∧
      st.getLatestConfig = some latest ∧ latest.Next op config ∧
      st'.configs = st.configs ++ [config]) ∨
    (op.type = .move ∧ ¬(0 ≤ op.shard ∧ op.shard < NShards) ∧ st.applyOp op = none) := by
  by_cases hd : st.isDuplicateOp op = true
  · left
    have hc : st.changes op = false := by rw [changes, hd]; rfl
    by_cases hq : op.type = .query
    · obtain ⟨config, hv⟩ := getValue_query hq h
      exact ⟨st, ⟨.ok, some config⟩, by simp [applyOp, hd, hq, hv], hc, rfl, hv.symm⟩
    · exact ⟨st, ⟨.ok, none⟩, by simp [applyOp, hd, hq], hc, rfl, by simp [getValue, hq]⟩
  · have hd' : st.isDuplicateOp op = false := Bool.eq_false_iff.mpr hd
    -- the state the handlers see differs only in `clientLastRequest`
    let st₁ : State := { st with
      clientLastRequest := Function.update st.clientLastRequest op.clientId (some op.requestIndex) }
    obtain ⟨latest, hl⟩ := getLatestConfig_isSome h
    have hl₁ : st₁.getLatestConfig = some latest := hl
    cases htype : op.type with
    | query =>
      left
      obtain ⟨config, hv⟩ := getValue_query htype h
      have hv₁ : st₁.getValue op = some config := hv
      refine ⟨st₁, ⟨.ok, some config⟩, ?_, by simp [changes, htype], rfl, hv.symm⟩
      simp only [applyOp, hd', htype, Bool.false_eq_true, if_false]
      exact congrArg (Option.bind · _) hv₁
    | join =>
      right; left
      obtain ⟨config, he, hn⟩ := handleJoin_next htype hl₁
      refine ⟨st₁.appendConfig config, ⟨.ok, none⟩, latest, config, ?_, by simp [changes, hd', htype],
        hl, hn, rfl⟩
      simp only [applyOp, hd', htype, Bool.false_eq_true, if_false]
      exact congrArg (Option.bind · _) he
    | leave =>
      right; left
      obtain ⟨config, he, hn⟩ := handleLeave_next htype hl₁
      refine ⟨st₁.appendConfig config, ⟨.ok, none⟩, latest, config, ?_, by simp [changes, hd', htype],
        hl, hn, rfl⟩
      simp only [applyOp, hd', htype, Bool.false_eq_true, if_false]
      exact congrArg (Option.bind · _) he
    | move =>
      right
      rcases handleMove_next htype hl₁ with ⟨config, he, hn⟩ | ⟨hr, he⟩
      · left
        refine ⟨st₁.appendConfig config, ⟨.ok, none⟩, latest, config, ?_,
          by simp [changes, hd', htype], hl, hn, rfl⟩
        simp only [applyOp, hd', htype, Bool.false_eq_true, if_false]
        exact congrArg (Option.bind · _) he
      · right
        refine ⟨rfl, hr, ?_⟩
        simp only [applyOp, hd', htype, Bool.false_eq_true, if_false]
        exact congrArg (Option.bind · _) he

end Handlers

end State

/-- A server of the controller: its state, what `persister.ReadSnapshot` would return, and
the operations that have made `configs[1]`, `configs[2]` and so on. -/
structure Controller where
  state : State
  persisted : Option State
  produced : List Op

/-- What happens to a server of the controller. -/
inductive Action
  /-- `handleCommandApply` runs on a committed operation. -/
  | apply (op : Op) (commandIndex : Int) (isLeader : Bool)
  /-- The process ends and `StartServer` runs. -/
  | restart

/-- A `Move` is of a shard that there is. -/
def Action.InRange : Action → Prop
  | .apply op _ _ => op.type = .move → 0 ≤ op.shard ∧ op.shard < NShards
  | .restart => True

instance : DecidablePred Action.InRange
  | .apply op _ _ =>
    inferInstanceAs (Decidable (op.type = .move → 0 ≤ op.shard ∧ op.shard < NShards))
  | .restart => .isTrue trivial

namespace Controller

/-- A server that is started for the first time. -/
def init : Controller where
  state := State.startServer none
  persisted := none
  produced := []

/-- **One step of a server.** -/
def step (c : Controller) : Action → Option Controller
  | .apply op commandIndex isLeader => do
    let (st, snapshot, _) ← c.state.handleCommandApply op commandIndex isLeader
    return { state := st, persisted := some snapshot.2,
             produced := if c.state.changes op then c.produced ++ [op] else c.produced }
  | .restart => some { c with state := State.startServer c.persisted }

/-- How many configurations an action adds. -/
def added (c : Controller) : Action → Nat
  | .apply op _ _ => if c.state.changes op then 1 else 0
  | .restart => 0

/-- What a server is known to keep. -/
structure Inv (c : Controller) : Prop where
  /-- Nothing is lost when the server is started again. -/
  persisted : State.startServer c.persisted = c.state
  numbered : ∀ (i : Nat) (config : Config), c.state.configs[i]? = some config → config.num = i
  produced : c.state.configs.length = c.produced.length + 1

theorem Inv.ne_nil {c : Controller} (h : c.Inv) : c.state.configs ≠ [] := by
  intro hnil
  have hp := h.produced
  rw [hnil] at hp
  simp at hp

/-- What a step does to the configurations. -/
inductive Move (c c' : Controller) (e : Action) : Prop
  | same (hadd : c.added e = 0) (hconf : c'.state.configs = c.state.configs)
      (hprod : c'.produced = c.produced)
  | next (op : Op) (commandIndex : Int) (isLeader : Bool) (latest config : Config)
      (he : e = .apply op commandIndex isLeader) (hchg : c.state.changes op = true)
      (hlatest : c.state.getLatestConfig = some latest) (hnext : latest.Next op config)
      (hconf : c'.state.configs = c.state.configs ++ [config])
      (hprod : c'.produced = c.produced ++ [op])

theorem Move.length {c c' : Controller} {e : Action} (h : Move c c' e) :
    c'.state.configs.length = c.state.configs.length + c.added e := by
  cases h with
  | same hadd hconf => rw [hconf, hadd, Nat.add_zero]
  | next op _ _ _ _ he hchg _ _ hconf =>
    rw [hconf, List.length_append, he, added, if_pos hchg]
    rfl

theorem Move.kept {c c' : Controller} {e : Action} (h : Move c c' e) :
    c.state.configs <+: c'.state.configs := by
  cases h with
  | same _ hconf => rw [hconf]
  | next _ _ _ _ _ _ _ _ _ hconf => rw [hconf]; exact List.prefix_append ..

/-- **What one step can do**; only a shard out of range ends the process. -/
theorem move_of_step {c : Controller} (hinv : c.Inv) (e : Action) :
    (∃ c', c.step e = some c' ∧ Move c c' e ∧ State.startServer c'.persisted = c'.state) ∨
      (¬e.InRange ∧ c.step e = none) := by
  cases e with
  | restart =>
    have hp := hinv.persisted
    exact .inl ⟨_, rfl, .same rfl (congrArg State.configs hp) rfl, rfl⟩
  | apply op commandIndex isLeader =>
    have hcases := @State.applyOp_cases c.state op hinv.ne_nil
    rcases hcases with ⟨st', msg, ha, hc, hconf, -⟩ | ⟨st', msg, latest, config, ha, hc, hl, hn, hconf⟩ | ⟨ht, hr, ha⟩
    · left
      refine ⟨⟨st', some st', c.produced⟩, ?_, .same ?_ hconf rfl, rfl⟩
      · simp [step, State.handleCommandApply, ha, hc]
      · simp [added, hc]
    · left
      refine ⟨⟨st', some st', c.produced ++ [op]⟩, ?_,
        .next op commandIndex isLeader latest config rfl hc hl hn hconf rfl, rfl⟩
      simp [step, State.handleCommandApply, ha, hc]
    · right
      refine ⟨fun h => hr (h ht), ?_⟩
      simp [step, State.handleCommandApply, ha]

theorem inv_init : init.Inv := by
  refine ⟨rfl, ?_, rfl⟩
  intro i config h
  cases i with
  | zero => rw [← Option.some.inj h]; rfl
  | succ i => exact absurd h (by simp [init, State.startServer, State.installSnapshot, State.makeState])

theorem inv_step {c c' : Controller} {e : Action} (h : c.Inv) (he : c.step e = some c') :
    c'.Inv ∧ Move c c' e := by
  rcases move_of_step h e with ⟨c₁, he₁, hm, hp⟩ | ⟨-, he₁⟩
  · have heq : c₁ = c' := Option.some.inj (he₁.symm.trans he)
    subst heq
    refine ⟨⟨hp, ?_, ?_⟩, hm⟩
    · cases hm with
      | same _ hconf => rw [hconf]; exact h.numbered
      | next op i l latest config _ _ hl hn hconf =>
        intro k config' hk
        rw [hconf] at hk
        rcases getElem?_concat.mp hk with hk | ⟨hlen, rfl⟩
        · exact h.numbered k config' hk
        · have hnum := h.numbered _ latest hl
          have hpos := List.length_pos_iff.mpr h.ne_nil
          rw [hn.num, hnum, hlen]
          omega
    · cases hm with
      | same _ hconf hprod => rw [hconf, hprod, h.produced]
      | next _ _ _ _ _ _ _ _ _ hconf hprod =>
        rw [hconf, hprod, List.length_append, List.length_append, h.produced]
        rfl
  · exact absurd (he₁.symm.trans he) (by simp)

variable {ok : Controller → Action → Prop}

theorem inv_run {tr : List Controller} (h : Trace step ok init tr) : ∀ c ∈ tr, c.Inv :=
  Trace.invariant inv_init (fun _ _ _ hi _ he => (inv_step hi he).1) tr h

theorem kept_run {c : Controller} {past : List Controller} (h : Trace step ok init (c :: past)) :
    ∀ c₀ ∈ past, c₀.state.configs <+: c.state.configs := by
  have hall := Trace.induction (P := fun tr => ∀ c past, tr = c :: past →
      ∀ c₀ ∈ past, c₀.state.configs <+: c.state.configs)
    (fun c past heq => by
      obtain ⟨-, rfl⟩ := List.cons.inj heq
      simp)
    (fun s s' e tr ht ih _ he c past heq c₀ hc₀ => by
      obtain ⟨rfl, rfl⟩ := List.cons.inj heq
      have hk := (inv_step (inv_run ht s (List.mem_cons_self ..)) he).2.kept
      rcases List.mem_cons.mp hc₀ with rfl | hc₀
      · exact hk
      · exact (ih s tr rfl c₀ hc₀).trans hk) _ h
  exact hall c past rfl

/-- **The configurations of a server**, at the end of a run. -/
structure HistoryKept (c : Controller) (past : List Controller) : Prop where
  /-- Configurations are numbered from 0. -/
  numbered : ∀ (i : Nat) (config : Config), c.state.configs[i]? = some config → config.num = i
  /-- No configuration that there ever was has changed or gone. -/
  kept : ∀ c₀ ∈ past, c₀.state.configs <+: c.state.configs
  /-- The next action returns, adds one configuration for a `Join`, `Leave` or `Move` that
  is not a duplicate and none otherwise, and changes none. -/
  grows : ∀ e : Action, e.InRange → ∃ c', c.step e = some c' ∧
    c'.state.configs.length = c.state.configs.length + c.added e ∧
    c.state.configs <+: c'.state.configs
  /-- A query by number is answered with that configuration, as it always was. -/
  query : ∀ (op : Op) (commandIndex : Int) (isLeader : Bool), op.type = .query → 0 ≤ op.num →
    op.num < c.state.configs.length →
    (∃ config, c.state.configs[op.num.toNat]? = some config ∧ config.num = op.num ∧
      c.state.reply op commandIndex isLeader = some config) ∧
    ∀ c₀ ∈ past, op.num < c₀.state.configs.length →
      c₀.state.reply op commandIndex isLeader = c.state.reply op commandIndex isLeader
  /-- Any other query is answered with the last configuration. -/
  latest : ∀ (op : Op) (commandIndex : Int) (isLeader : Bool), op.type = .query →
    (op.num < 0 ∨ c.state.configs.length ≤ op.num) →
    ∃ config, c.state.configs.getLast? = some config ∧
      c.state.reply op commandIndex isLeader = some config

theorem reply_eq_getValue {c : Controller} (h : c.Inv) {op : Op} (htype : op.type = .query)
    (commandIndex : Int) (isLeader : Bool) :
    c.state.reply op commandIndex isLeader = c.state.getValue op := by
  have hcases := @State.applyOp_cases c.state op h.ne_nil
  rcases hcases with ⟨st', msg, ha, -, -, hv⟩ | ⟨_, _, _, _, -, hc, -⟩ | ⟨ht, -⟩
  · rw [← hv, State.reply, State.handleCommandApply, ha]
    cases isLeader <;> rfl
  · simp [State.changes, htype] at hc
  · rw [htype] at ht
    exact absurd ht (by decide)

theorem reply_of_lt {c : Controller} (h : c.Inv) {op : Op} (htype : op.type = .query)
    (h0 : 0 ≤ op.num) (hlt : op.num < c.state.configs.length) (commandIndex : Int)
    (isLeader : Bool) :
    c.state.reply op commandIndex isLeader = c.state.configs[op.num.toNat]? := by
  rw [reply_eq_getValue h htype, State.getValue, if_neg (by simp [htype]), if_neg (by omega)]

theorem config_history (c : Controller) (past : List Controller)
    (h : Trace step (fun _ e => e.InRange) init (c :: past)) : HistoryKept c past := by
  have hall := inv_run h
  have hinv := hall c (List.mem_cons_self ..)
  have hkept := kept_run h
  refine ⟨hinv.numbered, hkept, ?_, ?_, ?_⟩
  · intro e he
    rcases move_of_step hinv e with ⟨c', hs, hm, -⟩ | ⟨hr, -⟩
    · exact ⟨c', hs, hm.length, hm.kept⟩
    · exact absurd he hr
  · intro op commandIndex isLeader htype h0 hlt
    have hlt' : op.num.toNat < c.state.configs.length := by omega
    have hget := List.getElem?_eq_getElem hlt'
    have hrep := reply_of_lt hinv htype h0 hlt commandIndex isLeader
    refine ⟨⟨_, hget, ?_, hrep.trans hget⟩, ?_⟩
    · rw [hinv.numbered _ _ hget, Int.toNat_of_nonneg h0]
    · intro c₀ hc₀ hlt₀
      rw [reply_of_lt (hall c₀ (List.mem_cons_of_mem _ hc₀)) htype h0 hlt₀, hrep]
      obtain ⟨l, hl⟩ := hkept c₀ hc₀
      rw [← hl, List.getElem?_append_left (by omega)]
  · intro op commandIndex isLeader htype hnum
    obtain ⟨config, hl⟩ := State.getLatestConfig_isSome hinv.ne_nil
    have hlast : c.state.configs.getLast? = some config := by
      rw [List.getLast?_eq_getElem?]
      exact hl
    refine ⟨config, hlast, ?_⟩
    rw [reply_eq_getValue hinv htype, State.getValue, if_neg (by simp [htype]), if_pos hnum, hl]

/-- Two groups join, the server is started again, the `Join` is retried, a shard is moved,
one group leaves and configuration 1 is asked for. -/
def sampleActions : List Action :=
  let join : Op := ⟨0, 0, .join, Groups.ofList [(1, ["x"]), (2, ["y"])], [], 0, 0, 0, 7, 1⟩
  [.apply join 1 true, .restart, .apply join 2 true,
    .apply ⟨0, 0, .move, ∅, [], 0, 2, 0, 7, 2⟩ 3 true, .restart,
    .apply ⟨0, 0, .leave, ∅, [2], 0, 0, 0, 7, 3⟩ 4 false,
    .apply ⟨0, 0, .query, ∅, [], 0, 0, 1, 8, 1⟩ 5 true]

theorem sampleActions_ends : runEnds step (fun _ e => e.InRange) init sampleActions
    (fun c _ => decide (c.state.configs.map Config.num = [0, 1, 2, 3])) = true := by
  decide +kernel

theorem config_history_sampleActions : ∃ c past,
    c.state.configs.map Config.num = [0, 1, 2, 3] ∧ HistoryKept c past := by
  obtain ⟨c, past, -, ht, hp⟩ := exists_of_runEnds sampleActions_ends
  exact ⟨c, past, of_decide_eq_true hp, config_history c past ht⟩

end Controller

end ShardRaft.Ctrler
