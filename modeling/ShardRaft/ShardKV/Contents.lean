import ShardRaft.ShardKV.Ownership

/-!
# The data goes where the shard goes

`contents` is what the client operations have written so far, over all groups and in
the order in which they were applied.  The last owner of a shard that has its data holds
exactly that (`Holds`), and keeps it after it has moved on to later configurations until
the next owner has fetched it.  So what it answers then is still the whole truth.

This needs more of `AcquireShard` entries than `World.Careful`: data is replaced only
while the shard lags, by an answer to a request made under the latest configuration,
from a donor that had the data itself (`World.ReplacesLagging`).
-/

namespace ShardRaft.ShardKV

open ShardRaft.Lib
open ShardRaft.Ctrler (Config NShards)

variable {cs : Configs} {w w' : World} {e : Event}

/-! ### What has been written -/

/-- A call on the plain map. -/
def Call.write (m : String → Option String) : Call → String → Option String
  | .get _ => m
  | .put key value => Function.update m key (some value)
  | .append key value => Function.update m key (some ((m key).getD "" ++ value))

/-- The reply to a `Get` that finds this. -/
def Call.answer (val : Option String) : KVReplyMsg :=
  match val with
  | some val => ⟨.ok, val⟩
  | none => ⟨.errNoKey, ""⟩

/-- The operations that were new, on the plain map. -/
def contents (history : List Applied) : String → Option String :=
  history.foldl (fun m r => if r.isNew then r.request.call.write m else m) fun _ => none

theorem contents_concat (history : List Applied) (r : Applied) : contents (history ++ [r]) =
    if r.isNew then r.request.call.write (contents history) else contents history := by
  simp [contents]

theorem Call.write_of_ne {m : String → Option String} {call : Call} {key : String}
    (h : key ≠ call.key) : call.write m key = m key := by
  cases call with
  | get k => rfl
  | put k v => exact Function.update_of_ne h ..
  | append k v => exact Function.update_of_ne h ..

/-- The store of the shard is what has been written. -/
def State.Holds (st : State) (sid : Fin NShards) (m : String → Option String) : Prop :=
  ∀ key, key2shard key = sid → (st.cloneStore sid).kvStore key = m key

namespace State

variable {st st' : State} {sid : Fin NShards} {m : String → Option String} {k : String}

theorem getValueWithKey_eq (st : State) (key : String) :
    st.getValueWithKey key = (st.cloneStore (key2shard key)).kvStore key := by
  unfold getValueWithKey cloneStore
  cases st.shardKVStore (key2shard key) with
  | none => rfl
  | some store => rfl

theorem Holds.congr (h : st.Holds sid m) (hs : st'.shardKVStore sid = st.shardKVStore sid) :
    st'.Holds sid m := by
  intro key hk
  rw [cloneStore, hs]
  exact h key hk

theorem holds_setKeyValue (h : st.Holds sid m) (k v : String) :
    (st.setKeyValue k v).Holds sid (Function.update m k (some v)) := by
  intro key hk
  have hold := h key hk
  by_cases hkk : key = k
  · subst hkk
    subst hk
    simp [setKeyValue, cloneStore]
  · rw [Function.update_of_ne hkk, ← hold]
    by_cases hs : sid = key2shard k
    · subst hs
      simp [setKeyValue, cloneStore, hkk]
    · simp [setKeyValue, cloneStore, hs]

theorem Holds.of_eqOn (h : st.Holds sid m) {m' : String → Option String}
    (he : ∀ key, key2shard key = sid → m' key = m key) : st.Holds sid m' := by
  intro key hk
  rw [he key hk]
  exact h key hk

theorem appended_of_holds (h : st.Holds (key2shard k) m) (v : String) :
    st.appended k v = (m k).getD "" ++ v := by
  rw [appended, getValueWithKey_eq, h k rfl]
  cases m k with
  | none => simp
  | some val => simp

theorem holds_applyNew {req : Request} {msg : KVReplyMsg}
    (ha : st.applyNew (createOp 0 req) = some (st', msg))
    (h : st.Holds sid m) : st'.Holds sid (req.call.write m) := by
  have h₁ : ({ st with
      clientLastRequest := Function.update st.clientLastRequest req.clientId
        (some req.requestIndex) } : State).Holds sid m := h.congr rfl
  cases hcall : req.call with
  | get k =>
    simp only [applyNew, createOp, hcall] at ha
    rw [← (Prod.mk.inj (Option.some.inj ha)).1]
    exact h₁
  | put k v =>
    simp only [applyNew, createOp, hcall, Call.key] at ha
    rw [← (Prod.mk.inj (Option.some.inj ha)).1]
    exact holds_setKeyValue h₁ k v
  | append k v =>
    simp only [applyNew, createOp, hcall, Call.key] at ha
    rw [← (Prod.mk.inj (Option.some.inj ha)).1, Call.write]
    by_cases hs : key2shard k = sid
    · subst hs
      rw [appended_of_holds h₁]
      exact holds_setKeyValue h₁ k _
    · refine (holds_setKeyValue h₁ k _).of_eqOn ?_
      intro key hk
      have hkk : key ≠ k := fun heq => hs (heq ▸ hk)
      rw [Function.update_of_ne hkk, Function.update_of_ne hkk]

theorem getValue_of_holds {req : Request} {key : String} (hcall : req.call = .get key)
    (h : st.Holds (key2shard key) m) : st.getValue (createOp 0 req) = Call.answer (m key) := by
  have hk : (createOp 0 req).key = key := by rw [createOp, hcall, Call.key]
  rw [getValue, hk, getValueWithKey_eq, h key rfl]
  cases m key with
  | none => rfl
  | some val => rfl

end State

/-! ### Where the data is -/

/-- An `AcquireShard` entry replaces the data of a shard only if

* the shard lags,
* the data was asked for under the latest configuration, and
* the donor had the data of the configuration it was asked about. -/
def World.ReplacesLagging (w : World) : Event → Prop
  | .acquire k => ∀ a ∈ w.answered[k]?,
      (w.state a.asked.gid).shardTimestamp a.asked.args.shardIndex < a.reply.configNum →
      (w.state a.asked.gid).shardTimestamp a.asked.args.shardIndex <
          (w.state a.asked.gid).latestConfig.num ∧
        a.asked.args.configNum + 1 = (w.state a.asked.gid).latestConfig.num ∧
        a.asked.args.configNum ≤ a.reply.shardTimestamp
  | _ => True

instance (w : World) : DecidablePred w.ReplacesLagging
  | .acquire k => inferInstanceAs (Decidable (∀ a ∈ w.answered[k]?,
      (w.state a.asked.gid).shardTimestamp a.asked.args.shardIndex < a.reply.configNum →
      (w.state a.asked.gid).shardTimestamp a.asked.args.shardIndex <
          (w.state a.asked.gid).latestConfig.num ∧
        a.asked.args.configNum + 1 = (w.state a.asked.gid).latestConfig.num ∧
        a.asked.args.configNum ≤ a.reply.shardTimestamp))
  | .query .. | .install .. | .check .. | .propose .. | .request .. | .answer .. | .call .. |
    .apply .. | .returns .. => .isTrue trivial

/-- A careful step that replaces no data but of a lagging shard. -/
def World.KeepsData (w : World) (e : Event) : Prop := w.Careful e ∧ w.ReplacesLagging e

instance (w : World) : DecidablePred w.KeepsData := fun e =>
  inferInstanceAs (Decidable (w.Careful e ∧ w.ReplacesLagging e))

/-- The last owner with the data holds what has been written, also after it has moved on. -/
structure Data (cs : Configs) (w : World) : Prop where
  empty : ∀ sid, ¬ w.Complete cs sid 1 → ∀ key, key2shard key = sid →
    contents w.history key = none
  here : ∀ sid (c : Nat) (g : Gid), 1 ≤ c → cs.owner c sid = g → w.Complete cs sid c →
    ¬ w.Complete cs sid (c + 1) → ∀ st ∈ w.past g, st = w.state g ∨ c + 1 ≤ st.num →
      st.Holds sid (contents w.history)

namespace Data

theorem congr (h : Data cs w) (hs : w'.state = w.state) (hp : w'.past = w.past)
    (hh : contents w'.history = contents w.history) : Data cs w' := by
  constructor
  · unfold World.Complete
    rw [hs, hh]
    exact h.empty
  · unfold World.Complete
    rw [hs, hp, hh]
    exact h.here

theorem init : Data cs World.init where
  empty _ _ _ _ := rfl
  here sid c g hc _ hcomp := by
    obtain ⟨g', -, hn, -⟩ := hcomp
    have h0 : (World.init.state g').num = 0 := rfl
    omega

end Data

/-- Data that has arrived does not go away. -/
theorem World.Complete.setState {g : Gid} {st : State} {sid : Fin NShards} {j : Nat}
    (hb : State.Before (w.state g) st) (hst : st.Owned cs g) (h : w.Complete cs sid j) :
    (w.setState g st).Complete cs sid j := by
  obtain ⟨d, hd, hn, ht⟩ := h
  refine ⟨d, hd, hn.trans (num_setState hb d), ?_⟩
  by_cases hg : d = g
  · subst hg
    simp only [World.setState, Function.update_self]
    rcases Nat.eq_or_lt_of_le hb.1 with heq | hlt
    · exact ht.trans (hb.2 heq sid)
    · exact hst.kept sid j (by omega) hd
  · simp only [World.setState, Function.update_of_ne hg]
    exact ht

theorem World.Complete.of_setState {g : Gid} {st : State} {sid : Fin NShards} {j : Nat}
    (h : (w.setState g st).Complete cs sid j) : w.Complete cs sid j ∨
      (cs.owner j sid = g ∧ j ≤ st.num ∧ (j : Int) ≤ st.shardTimestamp sid) := by
  obtain ⟨d, hd, hn, ht⟩ := h
  by_cases hg : d = g
  · subst hg
    simp only [World.setState, Function.update_self] at hn ht
    exact .inr ⟨hd, hn, ht⟩
  · simp only [World.setState, Function.update_of_ne hg] at hn ht
    exact .inl ⟨d, hd, hn, ht⟩

namespace Chain

theorem complete_unique (h : Chain cs w) (ho : InOrder cs w) {sid : Fin NShards} {c c' : Nat}
    (h1 : 1 ≤ c) (h1' : 1 ≤ c') (hc : w.Complete cs sid c) (hn : ¬ w.Complete cs sid (c + 1))
    (hc' : w.Complete cs sid c') (hn' : ¬ w.Complete cs sid (c' + 1)) : c = c' := by
  rcases Nat.lt_trichotomy c c' with hlt | heq | hlt
  · exact absurd (h.complete_of_le ho (by omega) hlt hc') hn
  · exact heq
  · exact absurd (h.complete_of_le ho (by omega) hlt hc) hn'

end Chain

namespace Data

/-- One more entry in the log of `g` that is not a client's.  `hnew`: if `g` is the last
owner with the data, its new state holds it.  `hold`: no other group has become that. -/
theorem setState (h : Data cs w) (ho : InOrder cs w) {g : Gid} {st : State}
    (hb : State.Before (w.state g) st) (hst : st.Owned cs g)
    (hnew : ∀ sid (c : Nat), 1 ≤ c → cs.owner c sid = g → (w.setState g st).Complete cs sid c →
      ¬ w.Complete cs sid (c + 1) → st.Holds sid (contents w.history))
    (hold : ∀ sid (c : Nat), 1 ≤ c → (w.setState g st).Complete cs sid c →
      w.Complete cs sid c ∨ (cs.owner c sid = g ∧ st.num ≤ c)) :
    Data cs (w.setState g st) := by
  constructor
  · intro sid hn
    exact h.empty sid fun hc => hn (hc.setState hb hst)
  · intro sid c g' hc hown hcomp hn st' hst' hcase
    have hn₀ : ¬ w.Complete cs sid (c + 1) := fun hc => hn (hc.setState hb hst)
    by_cases hg : g' = g
    · subst hg
      simp only [World.setState, Function.update_self] at hst' hcase
      have hst₀ := hnew sid c hc hown hcomp hn₀
      rcases List.mem_append.mp hst' with hm | hm
      · rcases hcase with rfl | hcase
        · exact hst₀
        · rcases hold sid c hc hcomp with hcomp | ⟨-, hle⟩
          · exact h.here sid c g' hc hown hcomp hn₀ st' hm (.inr hcase)
          · have h1 := (ho.before_state hm).1
            have h2 := hb.1
            omega
      · rw [List.mem_singleton.mp hm]
        exact hst₀
    · simp only [World.setState, Function.update_of_ne hg] at hst' hcase
      rcases hold sid c hc hcomp with hcomp | ⟨hown', -⟩
      · exact h.here sid c g' hc hown hcomp hn₀ st' hst' hcase
      · exact absurd (Subtype.ext (hown.symm.trans hown')) hg

theorem state_holds (h : Data cs w) (ho : InOrder cs w) {sid : Fin NShards} {c : Nat} {g : Gid}
    (hc : 1 ≤ c) (hown : cs.owner c sid = g) (hcomp : w.Complete cs sid c)
    (hn : ¬ w.Complete cs sid (c + 1)) : (w.state g).Holds sid (contents w.history) :=
  h.here sid c g hc hown hcomp hn _ (ho.state_mem g) (.inl rfl)

/-- A group that serves a shard holds what has been written. -/
theorem holds_of_serves (h : Data cs w) (hch : Chain cs w) (ho : InOrder cs w)
    {sid : Fin NShards} {g : Gid} (hs : (w.state g).serves g sid = true) :
    (w.state g).Holds sid (contents w.history) := by
  obtain ⟨hown, hcomp⟩ := Chain.complete_of_serves ho hs
  exact h.state_holds ho (Configs.pos_of_owner hown) hown hcomp (hch.not_complete_succ hown)

theorem same (h : Data cs w) (hch : Chain cs w) (ho : InOrder cs w) (g : Gid) :
    Data cs (w.setState g (w.state g)) := by
  have hcomp : ∀ sid (c : Nat), (w.setState g (w.state g)).Complete cs sid c →
      w.Complete cs sid c := by
    intro sid c hc
    rcases hc.of_setState with hc | hc
    · exact hc
    · exact ⟨g, hc⟩
  refine h.setState ho .refl (hch.owned g _ (ho.state_mem g)) ?_
    fun sid c _ hc => .inl (hcomp sid c hc)
  intro sid c hc hc' hcc hn
  exact h.state_holds ho hc hc' (hcomp sid c hcc) hn

theorem install (h : Data cs w) (hch : Chain cs w) (ho : InOrder cs w) {g : Gid} {c : Config}
    (hup : (w.state g).allShardsUpToDate g = true) (hk : c = cs.known ((w.state g).num + 1))
    (hahead : 1 ≤ (w.state g).num → ∀ sid, cs.owner ((w.state g).num + 1) sid = g →
      cs.owner (w.state g).num sid ≠ g →
        (w.state g).shardTimestamp sid ≤ ((w.state g).num : Int)) :
    Data cs (w.setState g ((w.state g).handleInstallShardConfig g
      (createInstallShardConfigOp 0 c))) := by
  have hcon := ho.state_consumed g
  have hown := hch.owned g _ (ho.state_mem g)
  have hnext : c.num = (w.state g).latestConfig.num + 1 := by
    rw [hk, Configs.known_num, hcon.latest_num]
    rfl
  have hnum : ((w.state g).handleInstallShardConfig g (createInstallShardConfigOp 0 c)).num =
      (w.state g).num + 1 := State.num_install hcon hnext
  have hop : (createInstallShardConfigOp 0 c).shardConfig = cs.known ((w.state g).num + 1) := hk
  have hopn : (createInstallShardConfigOp 0 c).shardConfig.num = (w.state g).num + 1 := by
    rw [hop, Configs.known_num]
    rfl
  -- what `g` has in its present configuration it has
  have hcomp : ∀ sid (j : Nat), j ≤ (w.state g).num → cs.owner j sid = g →
      w.Complete cs sid j := by
    intro sid j hj hj'
    exact ⟨g, hj', hj, hown.le_of_upToDate hcon hup hj hj'⟩
  refine h.setState ho (State.before_install hcon) (State.owned_install hown hcon hup hk) ?_ ?_
  · intro sid j hj hj' hc' hn
    rcases Nat.eq_zero_or_pos (w.state g).num with h0 | hpos
    · -- the first configuration: nothing has been written
      have hstore : ((w.state g).handleInstallShardConfig g
          (createInstallShardConfigOp 0 c)).shardKVStore = fun _ => some createEmptyKeyValueStore :=
        (State.install_first hnext (by rw [hopn, h0]; rfl)).1
      obtain rfl : j = 1 := by
        obtain ⟨d, hd, hle, -⟩ := hc'
        obtain rfl : g = d := Subtype.ext (hj'.symm.trans hd)
        simp only [World.setState, Function.update_self, hnum] at hle
        omega
      intro key hkey
      rw [State.cloneStore, hstore, h.empty sid ?_ key hkey]
      · rfl
      · rintro ⟨d, hd, hle, -⟩
        obtain rfl : g = d := Subtype.ext (hj'.symm.trans hd)
        omega
    · have hstore : ((w.state g).handleInstallShardConfig g
          (createInstallShardConfigOp 0 c)).shardKVStore = (w.state g).shardKVStore :=
        (State.install_later hnext (by rw [hopn]; omega)).1
      refine State.Holds.congr ?_ (congrFun hstore sid)
      rcases Nat.lt_or_ge (w.state g).num j with hlt | hle
      · obtain ⟨d, hd, hle, ht⟩ := hc'
        obtain rfl : g = d := Subtype.ext (hj'.symm.trans hd)
        simp only [World.setState, Function.update_self, hnum] at hle
        simp only [World.setState, Function.update_self] at ht
        obtain rfl : j = (w.state g).num + 1 := by omega
        have hsame : cs.owner (w.state g).num sid = g := by
          by_contra hsame
          rw [State.install_timestamp hcon hop, if_neg (by omega), if_neg (by omega)] at ht
          have hle := hahead hpos sid hj' hsame
          omega
        exact h.state_holds ho hpos hsame (hcomp sid _ le_rfl hsame)
          (hch.not_complete_succ hsame)
      · exact h.state_holds ho hj hj' (hcomp sid j hle hj') hn
  · intro sid j hj hc'
    rcases hc'.of_setState with hc' | ⟨hj', hle, -⟩
    · exact .inl hc'
    · rcases Nat.lt_or_ge (w.state g).num j with hlt | hle'
      · exact .inr ⟨hj', by omega⟩
      · exact .inl (hcomp sid j hle' hj')

/-- A donor that had the data has it still, or has passed it on. -/
theorem complete_of_answered (hch : Chain cs w) (ho : InOrder cs w) {d : Gid} {st : State}
    {sid : Fin NShards} {n : Nat} (hst : st ∈ w.past d) (hown : cs.owner n sid = d)
    (hn : n ≤ st.num) (ht : (n : Int) ≤ st.shardTimestamp sid) : w.Complete cs sid n := by
  have hb := ho.before_state hst
  refine ⟨d, hown, hn.trans hb.1, ?_⟩
  rcases Nat.eq_or_lt_of_le (hn.trans hb.1) with heq | hlt
  · have hnum : st.num = (w.state d).num := by
      have h1 := hb.1
      omega
    exact ht.trans (hb.2 hnum sid)
  · exact (hch.owned d _ (ho.state_mem d)).kept sid n hlt hown

section Acquire

variable {g d : Gid} {st : State} {sid₀ : Fin NShards} {n : Nat} {reply : AcquireShardReply}

theorem num_acquire : ((w.state g).handleAcquireShard (createAcquireShardOp 0 sid₀ reply)).num =
    (w.state g).num := State.num_congr State.acquire_latestConfig

/-- Where the timestamp is as before, no group has become complete. -/
theorem complete_of_acquire {sid : Fin NShards} {c : Nat}
    (ht : ((w.state g).handleAcquireShard (createAcquireShardOp 0 sid₀ reply)).shardTimestamp sid =
      (w.state g).shardTimestamp sid)
    (hc : (w.setState g ((w.state g).handleAcquireShard
      (createAcquireShardOp 0 sid₀ reply))).Complete cs sid c) : w.Complete cs sid c := by
  rcases hc.of_setState with hc | ⟨hc, hle, hle'⟩
  · exact hc
  · rw [num_acquire] at hle
    rw [ht] at hle'
    exact ⟨g, hc, hle, hle'⟩

theorem acquire_le (h : Data cs w) (hch : Chain cs w) (ho : InOrder cs w)
    (hle : reply.configNum ≤ (w.state g).shardTimestamp sid₀) :
    Data cs (w.setState g ((w.state g).handleAcquireShard
      (createAcquireShardOp 0 sid₀ reply))) := by
  have hown := hch.owned g _ (ho.state_mem g)
  have heq : (createAcquireShardOp 0 sid₀ reply).shardConfigNum ≤ (w.state g).shardTimestamp
      (createAcquireShardOp 0 sid₀ reply).shardId := hle
  obtain ⟨ht, hstore⟩ := State.acquire_of_le heq
  refine h.setState ho State.before_acquire (hown.mono num_acquire fun sid =>
    State.le_acquire_shardTimestamp sid) ?_ ?_
  · intro sid c hc hc' hcomp hn
    have hcomp' := complete_of_acquire (congrFun ht sid) hcomp
    exact (h.state_holds ho hc hc' hcomp' hn).congr (congrFun hstore sid)
  · intro sid c hc hcomp
    exact .inl (complete_of_acquire (congrFun ht sid) hcomp)

/-- A lagging shard arrives. -/
theorem acquire_lt (h : Data cs w) (hch : Chain cs w) (ho : InOrder cs w) (hst : st ∈ w.past d)
    (hdon : cs.owner n sid₀ = d) (hm : reply.configNum = st.num) (hdata : reply.shardData = st.cloneStore sid₀)
    (hge : n ≤ st.num) (hhad : (n : Int) ≤ st.shardTimestamp sid₀)
    (hlag : (w.state g).shardTimestamp sid₀ < (w.state g).num) (hcur : n + 1 = (w.state g).num)
    (hlt : (w.state g).shardTimestamp sid₀ < reply.configNum) :
    Data cs (w.setState g ((w.state g).handleAcquireShard
      (createAcquireShardOp 0 sid₀ reply))) := by
  have hown := hch.owned g _ (ho.state_mem g)
  have hlt' : (w.state g).shardTimestamp (createAcquireShardOp 0 sid₀ reply).shardId <
      (createAcquireShardOp 0 sid₀ reply).shardConfigNum := hlt
  obtain ⟨ht, hstore⟩ := State.acquire_of_lt hlt'
  have hother : ∀ sid, sid ≠ sid₀ → ((w.state g).handleAcquireShard
      (createAcquireShardOp 0 sid₀ reply)).shardTimestamp sid =
        (w.state g).shardTimestamp sid := by
    intro sid hs
    rw [ht]
    exact Function.update_of_ne hs ..
  have hdc : w.Complete cs sid₀ n := complete_of_answered hch ho hst hdon hge hhad
  -- what the group has answered is the data, if the last owner before is the donor
  have hdonor : ¬ w.Complete cs sid₀ (n + 1) → n + 1 ≤ st.num → ∀ key, key2shard key = sid₀ →
      reply.shardData.kvStore key = contents w.history key := by
    intro hnc hle key hkey
    rw [hdata]
    exact h.here sid₀ n d (Configs.pos_of_owner hdon) hdon hdc hnc st hst (.inr hle) key hkey
  refine h.setState ho State.before_acquire (hown.mono num_acquire fun sid =>
    State.le_acquire_shardTimestamp sid) ?_ ?_
  · intro sid c hc hc' hcomp hn
    by_cases hs : sid = sid₀
    · subst hs
      intro key hkey
      rw [State.cloneStore, hstore, show (createAcquireShardOp 0 sid reply).shardId = sid from rfl,
        Function.update_self]
      rcases Nat.lt_trichotomy c n with hcn | rfl | hcn
      · exact absurd (hch.complete_of_le ho (by omega) hcn hdc) hn
      · -- the group has asked itself, and has the data from before its latest configuration
        have hkept := hown.kept sid c (by omega) hc'
        exact hdonor hn (by omega) key hkey
      · -- the data is that of `n + 1`
        obtain ⟨g', hg', hle, ht'⟩ := hcomp
        obtain rfl : g = g' := Subtype.ext (hc'.symm.trans hg')
        simp only [World.setState, Function.update_self, num_acquire] at hle
        simp only [World.setState, Function.update_self, ht] at ht'
        rw [show (createAcquireShardOp 0 sid reply).shardId = sid from rfl,
          Function.update_self] at ht'
        have hts : (c : Int) ≤ reply.configNum := ht'
        obtain rfl : c = n + 1 := by omega
        refine hdonor ?_ (by omega) key hkey
        rintro ⟨g', hg'', -, ht''⟩
        obtain rfl : g = g' := Subtype.ext (hc'.symm.trans hg'')
        omega
    · have hcomp' := complete_of_acquire (hother sid hs) hcomp
      refine (h.state_holds ho hc hc' hcomp' hn).congr ?_
      rw [hstore]
      exact Function.update_of_ne hs ..
  · intro sid c hc hcomp
    by_cases hs : sid = sid₀
    · subst hs
      rcases hcomp.of_setState with hcomp | ⟨hc', hle, -⟩
      · exact .inl hcomp
      · rw [num_acquire] at hle ⊢
        rcases Nat.eq_or_lt_of_le hle with heq | hlt''
        · exact .inr ⟨hc', heq.ge⟩
        · exact .inl ⟨g, hc', hle, hown.kept sid c hlt'' hc'⟩
    · exact .inl (complete_of_acquire (hother sid hs) hcomp)

end Acquire

theorem apply (h : Data cs w) (hch : Chain cs w) (ho : InOrder cs w) {g : Gid} {req : Request}
    {st : State} {msg : KVReplyMsg}
    (ha : (w.state g).applyClientOp g (createOp 0 req) = some (st, msg)) :
    Data cs { w.setState g st with
      history := w.history ++ [⟨g, req, (w.state g).serves g (key2shard req.call.key) &&
        !(w.state g).isDuplicateOp (createOp 0 req), msg⟩] } := by
  have hkey : (createOp 0 req).key = req.call.key := rfl
  obtain ⟨hl, -, ht⟩ := State.applyClientOp_frame ha
  have hown := hch.owned g _ (ho.state_mem g)
  have hnum : st.num = (w.state g).num := State.num_congr hl
  have hb := State.before_applyClientOp ha
  have howned : st.Owned cs g := hown.mono hnum fun sid => by rw [ht]
  have hcomp : ∀ sid (c : Nat), (w.setState g st).Complete cs sid c → w.Complete cs sid c := by
    intro sid c hc
    rcases hc.of_setState with hc | ⟨hc, hle, hle'⟩
    · exact hc
    · rw [hnum] at hle
      rw [ht] at hle'
      exact ⟨g, hc, hle, hle'⟩
  cases hnew : (w.state g).serves g (key2shard req.call.key) &&
      !(w.state g).isDuplicateOp (createOp 0 req) with
  | false =>
    obtain rfl : st = w.state g := State.applyClientOp_of_not (by rw [hkey]; exact hnew) ha
    exact (h.same hch ho g).congr rfl rfl (by rw [contents_concat]; rfl)
  | true =>
    obtain ⟨hs, hdup⟩ := (Bool.and_eq_true _ _).mp hnew
    rw [State.applyClientOp_of_new (by rw [hkey]; exact hs) (by simpa using hdup)] at ha
    obtain ⟨hownc, hcc⟩ := Chain.complete_of_serves ho hs
    have hpos := Configs.pos_of_owner hownc
    have hnc := hch.not_complete_succ hownc
    constructor
    · intro sid hn key hk
      rw [contents_concat, if_pos rfl]
      have hn' : ¬ w.Complete cs sid 1 := fun hc => hn (hc.setState hb howned)
      have hne : key ≠ req.call.key := by
        rintro rfl
        rw [hk] at hcc
        exact hn' (hch.complete_of_le ho le_rfl hpos hcc)
      rw [Call.write_of_ne hne]
      exact h.empty sid hn' key hk
    · intro sid c g' hc hc' hcomp' hn st' hst' hcase
      have hcomp₀ : w.Complete cs sid c := hcomp sid c hcomp'
      have hn₀ : ¬ w.Complete cs sid (c + 1) := fun hc => hn (hc.setState hb howned)
      rw [contents_concat, if_pos rfl]
      by_cases hnewst : g' = g ∧ st' = st
      · obtain ⟨rfl, rfl⟩ := hnewst
        exact State.holds_applyNew ha (h.state_holds ho hc hc' hcomp₀ hn₀)
      · -- a state from before, so not one of the shard that is written
        have hold : st' ∈ w.past g' ∧ (st' = w.state g' ∧ g' ≠ g ∨ c + 1 ≤ st'.num) := by
          by_cases hg : g' = g
          · subst hg
            simp only [World.setState, Function.update_self] at hst' hcase
            rcases List.mem_append.mp hst' with hm | hm
            · exact ⟨hm, .inr (hcase.resolve_left fun heq => hnewst ⟨rfl, heq⟩)⟩
            · exact absurd ⟨rfl, List.mem_singleton.mp hm⟩ hnewst
          · simp only [World.setState, Function.update_of_ne hg] at hst' hcase
            exact ⟨hst', hcase.imp (fun heq => ⟨heq, hg⟩) id⟩
        obtain ⟨hmem, hcase'⟩ := hold
        refine (h.here sid c g' hc hc' hcomp₀ hn₀ st' hmem (hcase'.imp And.left id)).of_eqOn ?_
        intro key hk
        refine Call.write_of_ne ?_
        rintro rfl
        rw [hk] at hcc hnc hownc
        obtain rfl := hch.complete_unique ho hc hpos hcomp₀ hn₀ hcc hnc
        obtain rfl : g' = g := Subtype.ext (hc'.symm.trans hownc)
        rcases hcase' with ⟨-, hne⟩ | hle
        · exact hne rfl
        · have hbs := (ho.before_state hmem).1
          omega

/-- **A step keeps the data with the last owner.** -/
theorem move (h : Data cs w) (hch : Chain cs w) (ho : InOrder cs w) (hg : Guarded w)
    (hok : w.KeepsData e) (hm : World.Move cs w e w') : Data cs w' := by
  obtain ⟨hcareful, hlag⟩ := hok
  cases hm with
  | check hst hup => exact h.congr rfl rfl rfl
  | query ht hst hp hn => exact h.congr rfl rfl rfl
  | propose ht hc hst hp hn => exact h.congr rfl rfl rfl
  | @install k g c hc =>
    by_cases hnext : c.num = (w.state g).latestConfig.num + 1
    · have hcon := ho.state_consumed g
      have hmem := List.mem_of_getElem? hc
      have hk := ho.known_of_proposed hmem hnext
      refine h.install hch ho (upToDate_of_proposed ho hg hmem hnext) hk ?_
      intro hpos sid hown hne
      have hle := hcareful _ hc hnext (by rw [hcon.latest_num]; omega) sid
        (by rw [hk]; exact hown) (by rw [hcon.shards]; exact hne)
      rw [hcon.latest_num] at hle
      exact hle
    · rw [State.install_of_ne hnext]
      exact h.same hch ho g
  | request hst hst' hp hl ha => exact h.congr rfl rfl rfl
  | answer hq hst hr => exact h.congr rfl rfl rfl
  | @acquire k a ha =>
    obtain ⟨hq, st, hst, hr⟩ := hch.answered a (List.mem_of_getElem? ha)
    obtain ⟨n, hcn, hdon⟩ := hch.asked _ hq
    obtain ⟨hge, hreply⟩ := State.answer_eq hr
    have hdcon := ho.consumed _ st hst
    have hm : a.reply.configNum = st.num := by
      rw [hreply]
      exact hdcon.latest_num
    rw [hdcon.latest_num] at hge
    rcases le_or_gt a.reply.configNum
        ((w.state a.asked.gid).shardTimestamp a.asked.args.shardIndex) with hle | hlt
    · exact h.acquire_le hch ho hle
    · obtain ⟨hlt', hcur, hhad⟩ := hlag a ha hlt
      rw [(ho.state_consumed _).latest_num] at hlt' hcur
      have hts : a.reply.shardTimestamp = st.shardTimestamp a.asked.args.shardIndex := by
        rw [hreply]
      exact h.acquire_lt hch ho hst hdon hm (by rw [hreply]) (by omega)
        (by omega) hlt' (by omega) hlt
  | call hc => exact h.congr rfl rfl rfl
  | apply hreq ha => exact h.apply hch ho ha
  | returns hc hr hq hg' => exact h.congr rfl rfl rfl

end Data

/-- What holds in a run that keeps the data. -/
structure Kept (cs : Configs) (w : World) : Prop where
  inOrder : InOrder cs w
  guarded : Guarded w
  chain : Chain cs w
  data : Data cs w

theorem Kept.move (h : Kept cs w) (hok : w.KeepsData e) (hm : World.Move cs w e w') :
    Kept cs w' where
  inOrder := h.inOrder.move hm
  guarded := h.guarded.move h.inOrder (asksChecked_of_careful w e hok.1) hm
  chain := h.chain.move h.inOrder h.guarded hok.1 hm
  data := h.data.move h.chain h.inOrder h.guarded hok hm

theorem Kept.init : Kept cs World.init := ⟨InOrder.init, Guarded.init, Chain.init, Data.init⟩

end ShardRaft.ShardKV
