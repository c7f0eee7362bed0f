import ShardRaft.ShardKV.Duplicates
import ShardRaft.ShardKV.Writes

/-!
# No operation takes effect twice

The duplicate table of a group says nothing about what other groups have applied.  But it
goes where the data goes: the donor answers with its table and its store together, and both
are as of one place of its log.  So the last owner with the data of a shard knows every
request on the shard that was new anywhere (`Remembered.here`), and a retry is a duplicate
there.

This needs that an entry which replaces the data takes the whole table over
(`World.HandsRequestsOver`), what `handleAcquireShard` does for every client but one that
has made its first call only.
-/

namespace ShardRaft.ShardKV

open ShardRaft.Lib
open ShardRaft.Ctrler (Config NShards)

variable {cs : Configs} {w w' : World} {e : Event}

/-- An `AcquireShard` entry that replaces the data skips no client of the donor. -/
def World.HandsRequestsOver (w : World) : Event → Prop
  | .acquire k => ∀ a ∈ w.answered[k]?,
      (w.state a.asked.gid).shardTimestamp a.asked.args.shardIndex < a.reply.configNum →
      ∀ req ∈ w.issued, ∀ L ∈ a.reply.clientLastRequest req.clientId,
        (w.state a.asked.gid).clientLastRequest req.clientId = none → 0 < L
  | _ => True

instance (w : World) : DecidablePred w.HandsRequestsOver
  | .acquire k => inferInstanceAs (Decidable (∀ a ∈ w.answered[k]?,
      (w.state a.asked.gid).shardTimestamp a.asked.args.shardIndex < a.reply.configNum →
      ∀ req ∈ w.issued, ∀ L ∈ a.reply.clientLastRequest req.clientId,
        (w.state a.asked.gid).clientLastRequest req.clientId = none → 0 < L))
  | .query .. | .install .. | .check .. | .propose .. | .request .. | .answer .. | .call .. |
    .apply .. | .returns .. => .isTrue trivial

/-- A step that keeps the data, and what has been applied to it. -/
def World.KeepsRequests (w : World) (e : Event) : Prop := w.KeepsData e ∧ w.HandsRequestsOver e

instance (w : World) : DecidablePred w.KeepsRequests := fun e =>
  inferInstanceAs (Decidable (w.KeepsData e ∧ w.HandsRequestsOver e))

/-! ### The last owner with the data -/

/-- A state of the last owner of the shard that has its data: the present one, or one under a
later configuration. -/
def World.Holder (cs : Configs) (w : World) (sid : Fin NShards) (st : State) : Prop :=
  ∃ (c : Nat) (g : Gid), 1 ≤ c ∧ cs.owner c sid = g ∧ w.Complete cs sid c ∧
    ¬ w.Complete cs sid (c + 1) ∧ st ∈ w.past g ∧ (st = w.state g ∨ c + 1 ≤ st.num)

/-- A group that serves a shard is the last owner with the data. -/
theorem holder_of_serves (hch : Chain cs w) (ho : InOrder cs w) {sid : Fin NShards} {g : Gid}
    (hs : (w.state g).serves g sid = true) : w.Holder cs sid (w.state g) := by
  obtain ⟨hown, hcomp⟩ := Chain.complete_of_serves ho hs
  exact ⟨_, g, Configs.pos_of_owner hown, hown, hcomp, hch.not_complete_succ hown,
    ho.state_mem g, .inl rfl⟩

/-- The last owner with the data after one more entry in the log of `g`: a state that was so
before, or the new one. -/
theorem World.Holder.of_setState (ho : InOrder cs w) {g : Gid} {st u : State} {sid : Fin NShards}
    (hb : State.Before (w.state g) st) (hst : st.Owned cs g)
    (hold : ∀ c : Nat, 1 ≤ c → (w.setState g st).Complete cs sid c →
      w.Complete cs sid c ∨ (cs.owner c sid = g ∧ st.num ≤ c))
    (h : (w.setState g st).Holder cs sid u) : w.Holder cs sid u ∨
      (u = st ∧ ∃ c : Nat, 1 ≤ c ∧ cs.owner c sid = g ∧ (w.setState g st).Complete cs sid c ∧
        ¬ w.Complete cs sid (c + 1)) := by
  obtain ⟨c, g', hc, hown, hcomp, hn, hu, hcase⟩ := h
  have hn₀ : ¬ w.Complete cs sid (c + 1) := fun hc => hn (hc.setState hb hst)
  by_cases hg : g' = g
  · subst hg
    simp only [World.setState, Function.update_self] at hu hcase
    by_cases heq : u = st
    · exact .inr ⟨heq, c, hc, hown, hcomp, hn₀⟩
    · have hmem : u ∈ w.past g' := by simpa [heq] using hu
      have hlater := hcase.resolve_left heq
      rcases hold c hc hcomp with hcomp₀ | ⟨-, hle⟩
      · exact .inl ⟨c, g', hc, hown, hcomp₀, hn₀, hmem, .inr hlater⟩
      · have h1 := (ho.before_state hmem).1
        have h2 := hb.1
        omega
  · simp only [World.setState, Function.update_of_ne hg] at hu hcase
    rcases hold c hc hcomp with hcomp₀ | ⟨hown', -⟩
    · exact .inl ⟨c, g', hc, hown, hcomp₀, hn₀, hu, hcase⟩
    · exact absurd (Subtype.ext (hown.symm.trans hown')) hg

/-! ### What it remembers -/

theorem State.isDuplicateOp_congr {st st' : State}
    (h : st'.clientLastRequest = st.clientLastRequest) (op : Op) :
    st'.isDuplicateOp op = st.isDuplicateOp op := by
  rw [isDuplicateOp, isDuplicateOp, h]

/-- The last owner with the data of a shard knows every request on the shard that was new
anywhere, and none was new twice. -/
structure Remembered (cs : Configs) (w : World) : Prop where
  had : ∀ r ∈ w.history, r.isNew = true → w.Complete cs (key2shard r.request.call.key) 1
  here : ∀ r ∈ w.history, r.isNew = true → ∀ st, w.Holder cs (key2shard r.request.call.key) st →
    st.isDuplicateOp (createOp 0 r.request) = true
  once : ∀ (i j : Nat) (r r' : Applied), w.history[i]? = some r → w.history[j]? = some r' →
    r.isNew = true → r'.isNew = true → r.request = r'.request → i = j

namespace Remembered

theorem init : Remembered cs World.init where
  had r hr := absurd hr List.not_mem_nil
  here r hr := absurd hr List.not_mem_nil
  once i j r r' h := absurd h (by simp [World.init])

theorem congr (h : Remembered cs w) (hs : w'.state = w.state) (hp : w'.past = w.past)
    (hh : w'.history = w.history) : Remembered cs w' := by
  constructor
  · unfold World.Complete
    rw [hs, hh]
    exact h.had
  · unfold World.Holder World.Complete
    rw [hs, hp, hh]
    exact h.here
  · rw [hh]
    exact h.once

/-- One more entry in the log of `g` that is not a client's.  `hsource`: if `g` is the last
owner with the data of a shard, it knows what the last owner before has known. -/
theorem setState (h : Remembered cs w) (ho : InOrder cs w) {g : Gid} {st : State}
    (hb : State.Before (w.state g) st) (hst : st.Owned cs g)
    (hsource : ∀ sid (c : Nat), 1 ≤ c → cs.owner c sid = g → (w.setState g st).Complete cs sid c →
      ¬ w.Complete cs sid (c + 1) → w.Complete cs sid 1 → ∃ v, w.Holder cs sid v ∧
        ∀ r ∈ w.history, v.isDuplicateOp (createOp 0 r.request) = true →
          st.isDuplicateOp (createOp 0 r.request) = true)
    (hold : ∀ sid (c : Nat), 1 ≤ c → (w.setState g st).Complete cs sid c →
      w.Complete cs sid c ∨ (cs.owner c sid = g ∧ st.num ≤ c)) :
    Remembered cs (w.setState g st) where
  had r hr hnew := (h.had r hr hnew).setState hb hst
  here := by
    intro r hr hnew u hu
    rcases hu.of_setState ho hb hst (hold _) with hu | ⟨rfl, c, hc, hown, hcomp, hn⟩
    · exact h.here r hr hnew u hu
    · obtain ⟨v, hv, hknows⟩ := hsource _ c hc hown hcomp hn (h.had r hr hnew)
      exact hknows r hr (h.here r hr hnew v hv)
  once := h.once

/-- A configuration is installed: the shards that stay were the group's before. -/
theorem install (h : Remembered cs w) (hch : Chain cs w) (ho : InOrder cs w) {g : Gid} {c : Config}
    (hup : (w.state g).allShardsUpToDate g = true) (hk : c = cs.known ((w.state g).num + 1))
    (hahead : 1 ≤ (w.state g).num → ∀ sid, cs.owner ((w.state g).num + 1) sid = g →
      cs.owner (w.state g).num sid ≠ g →
        (w.state g).shardTimestamp sid ≤ ((w.state g).num : Int)) :
    Remembered cs (w.setState g ((w.state g).handleInstallShardConfig g
      (createInstallShardConfigOp 0 c))) := by
  have hcon := ho.state_consumed g
  have hown := hch.owned g _ (ho.state_mem g)
  have hnum : ((w.state g).handleInstallShardConfig g (createInstallShardConfigOp 0 c)).num =
      (w.state g).num + 1 := by
    refine State.num_install hcon ?_
    rw [hcon.latest_num]
    exact congrArg Config.num hk |>.trans (Configs.known_num _)
  have hcomp : ∀ sid (j : Nat), j ≤ (w.state g).num → cs.owner j sid = g →
      w.Complete cs sid j := by
    intro sid j hj hj'
    exact ⟨g, hj', hj, hown.le_of_upToDate hcon hup hj hj'⟩
  have hknows : ∀ r ∈ w.history, (w.state g).isDuplicateOp (createOp 0 r.request) = true →
      ((w.state g).handleInstallShardConfig g
        (createInstallShardConfigOp 0 c)).isDuplicateOp (createOp 0 r.request) = true := by
    intro r _ hd
    rwa [State.isDuplicateOp_congr State.install_clientLastRequest]
  refine h.setState ho (State.before_install hcon) (State.owned_install hown hcon hup hk) ?_ ?_
  · intro sid j hj hj' hc' hn h1
    rcases Nat.lt_or_ge (w.state g).num j with hlt | hle
    · -- the new configuration: the group has had the shard under the one before
      obtain ⟨d, hd, hle, ht⟩ := hc'
      obtain rfl : g = d := Subtype.ext (hj'.symm.trans hd)
      simp only [World.setState, Function.update_self, hnum] at hle ht
      obtain rfl : j = (w.state g).num + 1 := by omega
      have hpos : 1 ≤ (w.state g).num := by
        by_contra h0
        obtain ⟨d, hd', hle', -⟩ := h1
        rw [show (w.state g).num = 0 by omega, hd'] at hj'
        obtain rfl : d = g := Subtype.ext hj'
        omega
      have hsame : cs.owner (w.state g).num sid = g := by
        by_contra hsame
        rw [State.install_timestamp hcon hk, if_neg (by omega), if_neg (by omega)] at ht
        have hle := hahead hpos sid hj' hsame
        omega
      exact ⟨w.state g, ⟨_, g, hpos, hsame, hcomp sid _ le_rfl hsame,
        hch.not_complete_succ hsame, ho.state_mem g, .inl rfl⟩, hknows⟩
    · exact ⟨w.state g, ⟨j, g, hj, hj', hcomp sid j hle hj', hn, ho.state_mem g, .inl rfl⟩, hknows⟩
  · intro sid j hj hc'
    rcases hc'.of_setState with hc' | ⟨hj', hle, -⟩
    · exact .inl hc'
    · rcases Nat.lt_or_ge (w.state g).num j with hlt | hle'
      · exact .inr ⟨hj', by omega⟩
      · exact .inl (hcomp sid j hle' hj')

section Acquire

variable {g d : Gid} {st : State} {sid₀ : Fin NShards} {n : Nat} {reply : AcquireShardReply}

/-- What arrives makes no request forgotten. -/
theorem duplicate_acquire {op : Op} (hd : (w.state g).isDuplicateOp op = true) :
    ((w.state g).handleAcquireShard (createAcquireShardOp 0 sid₀ reply)).isDuplicateOp op =
      true := by
  rw [State.isDuplicateOp_iff] at hd ⊢
  rw [State.acquire_clientLastRequest]
  exact hd.merge

theorem acquire_le (h : Remembered cs w) (hch : Chain cs w) (ho : InOrder cs w)
    (hle : reply.configNum ≤ (w.state g).shardTimestamp sid₀) :
    Remembered cs (w.setState g ((w.state g).handleAcquireShard
      (createAcquireShardOp 0 sid₀ reply))) := by
  have hown := hch.owned g _ (ho.state_mem g)
  have heq : (createAcquireShardOp 0 sid₀ reply).shardConfigNum ≤ (w.state g).shardTimestamp
      (createAcquireShardOp 0 sid₀ reply).shardId := hle
  have ht := (State.acquire_of_le heq).1
  refine h.setState ho State.before_acquire (hown.mono Data.num_acquire fun sid =>
    State.le_acquire_shardTimestamp sid) ?_ ?_
  · intro sid c hc hc' hcomp hn _
    have hcomp' := Data.complete_of_acquire (congrFun ht sid) hcomp
    exact ⟨w.state g, ⟨c, g, hc, hc', hcomp', hn, ho.state_mem g, .inl rfl⟩,
      fun _ _ hd => duplicate_acquire hd⟩
  · intro sid c hc hcomp
    exact .inl (Data.complete_of_acquire (congrFun ht sid) hcomp)

/-- A lagging shard arrives: what the donor knows is known here. -/
theorem acquire_lt (h : Remembered cs w) (hch : Chain cs w) (ho : InOrder cs w)
    (hst : st ∈ w.past d) (hdon : cs.owner n sid₀ = d) (hm : reply.configNum = st.num)
    (htable : reply.clientLastRequest = st.clientLastRequest) (hge : n ≤ st.num)
    (hhad : (n : Int) ≤ st.shardTimestamp sid₀)
    (hlag : (w.state g).shardTimestamp sid₀ < (w.state g).num) (hcur : n + 1 = (w.state g).num)
    (hlt : (w.state g).shardTimestamp sid₀ < reply.configNum)
    (hnoticed : ∀ r ∈ w.history, State.Noticed (w.state g).clientLastRequest
      reply.clientLastRequest r.request.clientId) :
    Remembered cs (w.setState g ((w.state g).handleAcquireShard
      (createAcquireShardOp 0 sid₀ reply))) := by
  have hown := hch.owned g _ (ho.state_mem g)
  have hlt' : (w.state g).shardTimestamp (createAcquireShardOp 0 sid₀ reply).shardId <
      (createAcquireShardOp 0 sid₀ reply).shardConfigNum := hlt
  have ht := (State.acquire_of_lt hlt').1
  have hother : ∀ sid, sid ≠ sid₀ → ((w.state g).handleAcquireShard
      (createAcquireShardOp 0 sid₀ reply)).shardTimestamp sid =
        (w.state g).shardTimestamp sid := by
    intro sid hs
    rw [ht]
    exact Function.update_of_ne hs ..
  have hdc : w.Complete cs sid₀ n := Data.complete_of_answered hch ho hst hdon hge hhad
  -- the donor was the last owner with the data, and what it knows is taken over
  have hdonor : ¬ w.Complete cs sid₀ (n + 1) → n + 1 ≤ st.num → ∃ v, w.Holder cs sid₀ v ∧
      ∀ r ∈ w.history, v.isDuplicateOp (createOp 0 r.request) = true →
        ((w.state g).handleAcquireShard (createAcquireShardOp 0 sid₀ reply)).isDuplicateOp
          (createOp 0 r.request) = true := by
    intro hnc hle
    refine ⟨st, ⟨n, d, Configs.pos_of_owner hdon, hdon, hdc, hnc, hst, .inr hle⟩, ?_⟩
    intro r hr hd
    rw [State.isDuplicateOp_iff] at hd ⊢
    rw [State.acquire_clientLastRequest]
    refine (State.knows_merge_iff (hnoticed r hr)).mpr (.inr ?_)
    rw [htable]
    exact hd
  refine h.setState ho State.before_acquire (hown.mono Data.num_acquire fun sid =>
    State.le_acquire_shardTimestamp sid) ?_ ?_
  · intro sid c hc hc' hcomp hn _
    by_cases hs : sid = sid₀
    · subst hs
      rcases Nat.lt_trichotomy c n with hcn | rfl | hcn
      · exact absurd (hch.complete_of_le ho (by omega) hcn hdc) hn
      · -- the group has asked itself
        have hkept := hown.kept sid c (by omega) hc'
        exact hdonor hn (by omega)
      · obtain ⟨g', hg', hle, ht'⟩ := hcomp
        obtain rfl : g = g' := Subtype.ext (hc'.symm.trans hg')
        simp only [World.setState, Function.update_self, Data.num_acquire] at hle
        simp only [World.setState, Function.update_self, ht] at ht'
        rw [show (createAcquireShardOp 0 sid reply).shardId = sid from rfl,
          Function.update_self] at ht'
        have hts : (c : Int) ≤ reply.configNum := ht'
        obtain rfl : c = n + 1 := by omega
        refine hdonor ?_ (by omega)
        rintro ⟨g', hg'', -, ht''⟩
        obtain rfl : g = g' := Subtype.ext (hc'.symm.trans hg'')
        omega
    · have hcomp' := Data.complete_of_acquire (hother sid hs) hcomp
      exact ⟨w.state g, ⟨c, g, hc, hc', hcomp', hn, ho.state_mem g, .inl rfl⟩,
        fun _ _ hd => duplicate_acquire hd⟩
  · intro sid c hc hcomp
    by_cases hs : sid = sid₀
    · subst hs
      rcases hcomp.of_setState with hcomp | ⟨hc', hle, -⟩
      · exact .inl hcomp
      · rw [Data.num_acquire] at hle ⊢
        rcases Nat.eq_or_lt_of_le hle with heq | hlt''
        · exact .inr ⟨hc', heq.ge⟩
        · exact .inl ⟨g, hc', hle, hown.kept sid c hlt'' hc'⟩
    · exact .inl (Data.complete_of_acquire (hother sid hs) hcomp)

end Acquire

/-- A client operation is applied: a group that serves the shard knows what was new. -/
theorem apply (h : Remembered cs w) (hch : Chain cs w) (ho : InOrder cs w) {g : Gid}
    {req : Request} {st : State} {msg : KVReplyMsg}
    (ha : (w.state g).applyClientOp g (createOp 0 req) = some (st, msg)) :
    Remembered cs { w.setState g st with
      history := w.history ++ [⟨g, req, (w.state g).serves g (key2shard req.call.key) &&
        !(w.state g).isDuplicateOp (createOp 0 req), msg⟩] } := by
  have hkey : (createOp 0 req).key = req.call.key := rfl
  have hap : (w.state g).applyOp g (createOp 0 req) = some (st, msg) := by
    simpa [State.applyOp, createOp] using ha
  obtain ⟨hl, -, ht⟩ := State.applyClientOp_frame ha
  have hown := hch.owned g _ (ho.state_mem g)
  have hnum : st.num = (w.state g).num := State.num_congr hl
  have hcomp : ∀ sid (c : Nat), (w.setState g st).Complete cs sid c → w.Complete cs sid c := by
    intro sid c hc
    rcases hc.of_setState with hc | ⟨hc, hle, hle'⟩
    · exact hc
    · rw [hnum] at hle
      rw [ht] at hle'
      exact ⟨g, hc, hle, hle'⟩
  have hb := State.before_applyClientOp ha
  have howned : st.Owned cs g := hown.mono hnum fun sid => by rw [ht]
  have hs : Remembered cs (w.setState g st) := by
    refine h.setState ho hb howned ?_ fun sid c _ hc => .inl (hcomp sid c hc)
    intro sid c hc hc' hcc hn _
    refine ⟨w.state g, ⟨c, g, hc, hc', hcomp sid c hcc, hn, ho.state_mem g, .inl rfl⟩, ?_⟩
    intro r _ hd
    rw [State.isDuplicateOp_iff] at hd ⊢
    exact hd.applyOp hap
  -- what is said of the new entry
  generalize hr₀ : (⟨g, req, (w.state g).serves g (key2shard req.call.key) &&
    !(w.state g).isDuplicateOp (createOp 0 req), msg⟩ : Applied) = r₀
  have hreq₀ : r₀.request = req := by rw [← hr₀]
  have hnew₀ : r₀.isNew = ((w.state g).serves g (key2shard req.call.key) &&
    !(w.state g).isDuplicateOp (createOp 0 req)) := by rw [← hr₀]
  refine ⟨?_, ?_, ?_⟩
  · intro r hr hnew
    rcases List.mem_append.mp hr with hr | hr
    · exact hs.had r hr hnew
    · rw [List.mem_singleton.mp hr] at hnew ⊢
      rw [hnew₀] at hnew
      obtain ⟨hserves, -⟩ := (Bool.and_eq_true _ _).mp hnew
      obtain ⟨hownc, hcc⟩ := Chain.complete_of_serves ho hserves
      rw [hreq₀]
      exact (hch.complete_of_le ho le_rfl (Configs.pos_of_owner hownc) hcc).setState hb howned
  · intro r hr hnew u hu
    rcases List.mem_append.mp hr with hr | hr
    · exact hs.here r hr hnew u hu
    · rw [List.mem_singleton.mp hr] at hnew hu ⊢
      rw [hreq₀] at hu ⊢
      rw [hnew₀] at hnew
      obtain ⟨hserves, hdup⟩ := (Bool.and_eq_true _ _).mp hnew
      obtain ⟨hownc, hcc⟩ := Chain.complete_of_serves ho hserves
      -- the group that serves the shard is its last owner, and has no later configuration
      have hu : u = st := by
        obtain ⟨c, g', hc, hc', hcomp', hn, hmem, hcase⟩ := hu
        obtain rfl := hch.complete_unique ho hc (Configs.pos_of_owner hownc) (hcomp _ _ hcomp')
          (fun hcs => hn (hcs.setState hb howned)) hcc (hch.not_complete_succ hownc)
        obtain rfl : g' = g := Subtype.ext (hc'.symm.trans hownc)
        simp only [World.setState, Function.update_self] at hmem hcase
        rcases hcase with hcase | hlater
        · exact hcase
        · rcases List.mem_append.mp hmem with hmem | hmem
          · have h1 := (ho.before_state hmem).1
            omega
          · exact List.mem_singleton.mp hmem
      rw [State.applyClientOp_of_new (by rw [hkey]; exact hserves) (by simpa using hdup)] at ha
      rw [hu, State.isDuplicateOp_iff, (State.applyNew_frame ha).2.2.2]
      exact ⟨req.requestIndex, Function.update_self .., le_rfl⟩
  · -- a request that was new somewhere is a duplicate here
    have hlast : ∀ r ∈ w.history, r.isNew = true → r₀.isNew = true → r.request ≠ r₀.request := by
      intro r hr hnew hnew' heq
      rw [hnew₀] at hnew'
      obtain ⟨hserves, hdup⟩ := (Bool.and_eq_true _ _).mp hnew'
      rw [hreq₀] at heq
      have hd := h.here r hr hnew (w.state g) (by rw [heq]; exact holder_of_serves hch ho hserves)
      rw [heq] at hd
      rw [hd] at hdup
      exact absurd hdup (by simp)
    intro i j r r' hi hj hnew hnew' heq
    rcases getElem?_concat.mp hi with hi | ⟨rfl, rfl⟩ <;>
      rcases getElem?_concat.mp hj with hj | ⟨rfl, rfl⟩
    · exact h.once i j r r' hi hj hnew hnew' heq
    · exact absurd heq (hlast r (List.mem_of_getElem? hi) hnew hnew')
    · exact absurd heq.symm (hlast r' (List.mem_of_getElem? hj) hnew' hnew)
    · rfl

/-- **A step keeps the last owner with the data informed.** -/
theorem move (h : Remembered cs w) (hk : Kept cs w) (hacked : Acked w) (hok : w.KeepsRequests e)
    (hm : World.Move cs w e w') : Remembered cs w' := by
  obtain ⟨⟨hcareful, hlag⟩, hover⟩ := hok
  have ho := hk.inOrder
  have hch := hk.chain
  cases hm with
  | check hst hup => exact h.congr rfl rfl rfl
  | query ht hst hp hn => exact h.congr rfl rfl rfl
  | propose ht hc hst hp hn => exact h.congr rfl rfl rfl
  | @install k g c hc =>
    by_cases hnext : c.num = (w.state g).latestConfig.num + 1
    · have hcon := ho.state_consumed g
      have hmem := List.mem_of_getElem? hc
      have hknown := ho.known_of_proposed hmem hnext
      refine h.install hch ho (upToDate_of_proposed ho hk.guarded hmem hnext) hknown ?_
      intro hpos sid hown hne
      have hle := hcareful _ hc hnext (by rw [hcon.latest_num]; omega) sid
        (by rw [hknown]; exact hown) (by rw [hcon.shards]; exact hne)
      rw [hcon.latest_num] at hle
      exact hle
    · rw [State.install_of_ne hnext]
      refine h.setState ho .refl (hch.owned g _ (ho.state_mem g)) ?_ ?_
      · intro sid c' hc' hown hcomp hn _
        have hcomp₀ : w.Complete cs sid c' := hcomp.of_setState.elim id fun hcc => ⟨g, hcc⟩
        exact ⟨w.state g, ⟨c', g, hc', hown, hcomp₀, hn, ho.state_mem g, .inl rfl⟩,
          fun _ _ hd => hd⟩
      · exact fun sid c' _ hcomp => .inl (hcomp.of_setState.elim id fun hcc => ⟨g, hcc⟩)
  | request hst hst' hp hl ha => exact h.congr rfl rfl rfl
  | answer hq hst hr => exact h.congr rfl rfl rfl
  | @acquire k a ha =>
    obtain ⟨hq, st, hst, hr⟩ := hch.answered a (List.mem_of_getElem? ha)
    obtain ⟨n, hcn, hdon⟩ := hch.asked _ hq
    obtain ⟨hge, hreply⟩ := State.answer_eq hr
    have hdcon := ho.consumed _ st hst
    have hm : a.reply.configNum = st.num := by
      rw [hreply]
      exact hdcon.latest_num
    rw [hdcon.latest_num] at hge
    rcases le_or_gt a.reply.configNum
        ((w.state a.asked.gid).shardTimestamp a.asked.args.shardIndex) with hle | hlt
    · exact h.acquire_le hch ho hle
    · obtain ⟨hlt', hcur, hhad⟩ := hlag a ha hlt
      rw [(ho.state_consumed _).latest_num] at hlt' hcur
      have hts : a.reply.shardTimestamp = st.shardTimestamp a.asked.args.shardIndex := by
        rw [hreply]
      refine h.acquire_lt hch ho hst hdon hm (by rw [hreply]) (by omega)
        (by omega) hlt' (by omega) hlt ?_
      intro r hr L hL hnone
      exact hover a ha hlt _ (hacked.applied r hr) L hL hnone
  | call hc => exact h.congr rfl rfl rfl
  | apply hreq ha => exact h.apply hch ho ha
  | returns hc hr hq hg => exact h.congr rfl rfl rfl

end Remembered

/-- What holds in a run that keeps the data and what has been applied to it. -/
theorem remembered_run {tr : List World} (h : Run cs World.KeepsRequests tr) :
    ∀ w ∈ tr, (Kept cs w ∧ Acked w) ∧ Remembered cs w :=
  Trace.invariant ⟨⟨Kept.init, Acked.init⟩, Remembered.init⟩ (fun _ _ _ hw hok hs =>
    have hm := World.move_of_step hs
    ⟨⟨hw.1.1.move hok.1 hm, hw.1.2.move hw.1.1.inOrder hm⟩,
      hw.2.move hw.1.1 hw.1.2 hok hm⟩) tr h

/-- A good reply is about an operation that has taken effect once, over all groups, and no
later than the reply was made. -/
def World.TakesEffectOnce (w : World) : Prop :=
  ∀ (j : Nat) (r : Applied), w.history[j]? = some r → r.reply.good = true →
    ∃ i ≤ j, (∃ r' : Applied, w.history[i]? = some r' ∧ r'.isNew = true ∧
        r'.request = r.request) ∧
      ∀ (i' : Nat) (r' : Applied), w.history[i']? = some r' → r'.isNew = true →
        r'.request = r.request → i' = i

/-- **Wherever a shard goes, an answered operation has taken effect exactly once.** -/
theorem takes_effect_once (cs : Configs) (w : World) (past : List World)
    (h : Run cs World.KeepsRequests (w :: past)) : w.TakesEffectOnce := by
  obtain ⟨⟨-, hacked⟩, hrem⟩ := remembered_run h w (List.mem_cons_self ..)
  intro j r hj hgood
  obtain ⟨i, hle, r', hi, hnew, hreq⟩ := hacked.good j r hj hgood
  refine ⟨i, hle, ⟨r', hi, hnew, hreq⟩, ?_⟩
  intro i' r'' hi' hnew' hreq'
  exact hrem.once i' i r'' r' hi' hi hnew' hnew (hreq'.trans hreq.symm)

/-- A key is written twice in group 1 and goes to group 2, where the second write is tried
again. -/
def sampleRetriedElsewhere : List Event :=
  round (gid 0) 0 0 1 ++ [.call 7 (.put "2" "b"), .apply (gid 0) 0, .returns 7,
      .call 7 (.append "2" "c"), .apply (gid 0) 1] ++
    round (gid 1) 0 1 1 ++ round (gid 1) 1 2 2 ++ round (gid 0) 3 3 2 ++
    [.request (gid 1) 2 2 ⟨0, Ctrler.NShards_pos⟩, .answer 0 4, .acquire 0, .apply (gid 1) 1,
      .returns 7]

theorem sampleRetriedElsewhere_ends : runEnds (World.step (oneShard [0, 1, 2]))
    World.KeepsRequests World.init sampleRetriedElsewhere (fun w _ => decide
      (w.history.map (fun r => (r.gid, r.request.requestIndex, r.isNew, r.reply)) =
        [(gid 0, 0, true, ⟨.ok, ""⟩), (gid 0, 1, true, ⟨.ok, ""⟩),
          (gid 1, 1, false, ⟨.ok, ""⟩)])) = true := by
  decide +kernel

theorem takes_effect_once_sampleRetriedElsewhere : ∃ w : World,
    w.history.map (fun r => (r.gid, r.request.requestIndex, r.isNew, r.reply)) =
        [(gid 0, 0, true, ⟨.ok, ""⟩), (gid 0, 1, true, ⟨.ok, ""⟩), (gid 1, 1, false, ⟨.ok, ""⟩)] ∧
      w.TakesEffectOnce := by
  obtain ⟨w, past, -, ht, hp⟩ := exists_of_runEnds sampleRetriedElsewhere_ends
  exact ⟨w, of_decide_eq_true hp, takes_effect_once _ w past ht⟩

end ShardRaft.ShardKV
