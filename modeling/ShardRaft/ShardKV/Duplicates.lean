import ShardRaft.ShardKV.Steps

/-!
# The duplicate table on the move

`handleAcquireShard` takes the donor's `ClientLastRequest` in entry by entry, under the
comparison `kv.state.ClientLastRequest[clientId] < clientLastRequestIndex`.  A client the
receiver does not know reads as 0 there, while `isDuplicateOp` tells a missing entry from
an entry 0.  Clerks number their requests from 0, so the entry a client has after its first
request is the one that is lost.

`Knows` is what `isDuplicateOp` asks of a table; `knows_merge_iff` says for one client when
the merge is the union, `Knows.applyOp` that no later entry of the log forgets a request.
-/

namespace ShardRaft.ShardKV

namespace State

/-- The table has client `c` at request `r` or a later one. -/
def Knows (table : Int → Option Int) (c r : Int) : Prop := ∃ L, table c = some L ∧ r ≤ L

theorem isDuplicateOp_iff {st : State} {op : Op} :
    st.isDuplicateOp op = true ↔ Knows st.clientLastRequest op.clientId op.requestIndex := by
  unfold isDuplicateOp Knows
  cases st.clientLastRequest op.clientId <;> simp

section Merge

variable {mine theirs : Int → Option Int} {c r : Int}

/-- An entry that the comparison with a missing entry does not skip. -/
def Noticed (mine theirs : Int → Option Int) (c : Int) : Prop :=
  ∀ L, theirs c = some L → mine c = none → 0 < L

theorem mergeLastRequest_of_none (h : theirs c = none) :
    mergeLastRequest mine theirs c = mine c := by
  simp only [mergeLastRequest, h]

theorem mergeLastRequest_of_some {L : Int} (h : theirs c = some L) :
    mergeLastRequest mine theirs c = if (mine c).getD 0 < L then some L else mine c := by
  simp only [mergeLastRequest, h]

theorem knows_merge_iff (hn : Noticed mine theirs c) :
    Knows (mergeLastRequest mine theirs) c r ↔ Knows mine c r ∨ Knows theirs c r := by
  unfold Knows
  cases ht : theirs c with
  | none => simp [mergeLastRequest_of_none ht]
  | some L =>
    rw [mergeLastRequest_of_some ht]
    cases hm : mine c with
    | none =>
      have hpos : 0 < L := hn L ht hm
      simp [hpos]
    | some M =>
      by_cases hlt : M < L
      · simp only [Option.getD_some, if_pos hlt, Option.some.injEq, exists_eq_left']
        omega
      · simp only [Option.getD_some, if_neg hlt, Option.some.injEq, exists_eq_left']
        omega

/-- What the receiver has known it still knows, whatever arrives. -/
theorem Knows.merge (h : Knows mine c r) : Knows (mergeLastRequest mine theirs) c r := by
  refine (knows_merge_iff fun L _ hnone => ?_).mpr (.inl h)
  obtain ⟨M, hM, -⟩ := h
  rw [hM] at hnone
  exact absurd hnone (by simp)

/-- An entry that is skipped is lost: the client stays unknown. -/
theorem merge_of_not_noticed {L : Int} (ht : theirs c = some L) (hm : mine c = none)
    (hL : L ≤ 0) : mergeLastRequest mine theirs c = none := by
  rw [mergeLastRequest_of_some ht, hm, Option.getD_none, if_neg (not_lt.mpr hL)]

end Merge

section Later

variable {st st' : State} {gid : Int} {op : Op} {msg : KVReplyMsg} {c r : Int}

/-- No entry of the log makes a request forgotten. -/
theorem Knows.applyOp (h : Knows st.clientLastRequest c r)
    (ha : st.applyOp gid op = some (st', msg)) : Knows st'.clientLastRequest c r := by
  unfold State.applyOp at ha
  split at ha
  · split at ha
    · rw [← (Prod.mk.inj (Option.some.inj ha)).1, install_clientLastRequest]
      exact h
    · rw [← (Prod.mk.inj (Option.some.inj ha)).1, acquire_clientLastRequest]
      exact h.merge
    all_goals exact absurd ha (by simp)
  · cases hnew : st.serves gid (key2shard op.key) && !st.isDuplicateOp op with
    | false =>
      rw [applyClientOp_of_not hnew ha]
      exact h
    | true =>
      obtain ⟨hs, hd⟩ := (Bool.and_eq_true _ _).mp hnew
      have hd : st.isDuplicateOp op = false := by simpa using hd
      rw [applyClientOp_of_new hs hd] at ha
      obtain ⟨-, -, -, htable⟩ := applyNew_frame ha
      rw [htable]
      by_cases hc : c = op.clientId
      · -- a new operation is above the entry it replaces
        obtain ⟨L, hL, hr⟩ := h
        have hlt : L < op.requestIndex := by
          by_contra hle
          have hdup : st.isDuplicateOp op = true :=
            isDuplicateOp_iff.mpr ⟨L, hc ▸ hL, not_lt.mp hle⟩
          rw [hd] at hdup
          exact absurd hdup (by simp)
        exact ⟨op.requestIndex, by rw [hc, Function.update_self], by omega⟩
      · obtain ⟨L, hL, hr⟩ := h
        exact ⟨L, by rw [Function.update_of_ne hc]; exact hL, hr⟩

/-- The entries of a log, one after the other. -/
def applyLog (gid : Int) : List Op → State → Option State
  | [], st => some st
  | op :: ops, st => do
    let (st, _) ← st.applyOp gid op
    applyLog gid ops st

theorem Knows.applyLog {ops : List Op} (h : Knows st.clientLastRequest c r)
    (ha : State.applyLog gid ops st = some st') : Knows st'.clientLastRequest c r := by
  induction ops generalizing st with
  | nil =>
    rw [← Option.some.inj ha]
    exact h
  | cons op ops ih =>
    obtain ⟨⟨st₁, msg⟩, h₁, ha⟩ := Option.bind_eq_some_iff.mp ha
    exact ih (h.applyOp h₁) ha

end Later

/-- **The duplicate table is handed over** exactly when no entry is skipped; then nothing the
donor has applied is applied by the receiver, whatever its log holds afterwards. -/
theorem duplicates_handed_over (st donor : State) (op : Op)
    (htable : op.clientLastRequest = donor.clientLastRequest) :
    ((∀ op' : Op, (st.handleAcquireShard op).isDuplicateOp op' = true ↔
        st.isDuplicateOp op' = true ∨ donor.isDuplicateOp op' = true) ↔
      ∀ c L, donor.clientLastRequest c = some L → st.clientLastRequest c = none → 0 < L) ∧
    ((∀ c L, donor.clientLastRequest c = some L → st.clientLastRequest c = none → 0 < L) →
      ∀ (gid : Int) (ops : List Op) (st' : State),
        applyLog gid ops (st.handleAcquireShard op) = some st' →
        ∀ op' : Op, donor.isDuplicateOp op' = true → st'.isDuplicateOp op' = true ∧
          ∀ st'' msg, st'.applyClientOp gid op' = some (st'', msg) → st'' = st') := by
  have hiff : (∀ c L, donor.clientLastRequest c = some L → st.clientLastRequest c = none → 0 < L) →
      ∀ op' : Op, (st.handleAcquireShard op).isDuplicateOp op' = true ↔
        st.isDuplicateOp op' = true ∨ donor.isDuplicateOp op' = true := by
    intro hn op'
    rw [isDuplicateOp_iff, isDuplicateOp_iff, isDuplicateOp_iff, acquire_clientLastRequest, htable]
    exact knows_merge_iff (hn op'.clientId)
  refine ⟨⟨fun h c L hL hnone => ?_, hiff⟩, fun hn gid ops st' hrun op' hd => ?_⟩
  · by_contra hpos
    -- the request the donor has last applied for `c`
    have hdonor : donor.isDuplicateOp { type := .put, clientId := c, requestIndex := L } = true :=
      isDuplicateOp_iff.mpr ⟨L, hL, le_refl L⟩
    obtain ⟨M, hM, -⟩ := isDuplicateOp_iff.mp ((h _).mpr (.inr hdonor))
    rw [acquire_clientLastRequest, htable] at hM
    have hlost := merge_of_not_noticed hL hnone (not_lt.mp hpos)
    rw [hlost] at hM
    exact absurd hM (by simp)
  · have hafter := isDuplicateOp_iff.mp ((hiff hn op').mpr (.inr hd))
    have hdup := isDuplicateOp_iff.mpr (hafter.applyLog hrun)
    exact ⟨hdup, fun st'' msg ha => applyClientOp_of_not (by simp [hdup]) ha⟩

/-! ### A shard that moves after one request -/

/-- Configuration `n` gives the first shard to group `n`. -/
def passedOn (n : Int) : Ctrler.Config :=
  ⟨n, fun sid => if sid.1 = 0 then n else 0, Ctrler.Groups.ofList [(1, ["a"]), (2, ["b"])]⟩

/-- `Append("2", "b")` of client 7, as its request `r`. -/
def appendB (r : Int) : Op := createOp 0 ⟨7, r, .append "2" "b"⟩

/-- Group 1, which has applied request `r` and then moved on to configuration 2. -/
def giver (r : Int) : State :=
  (applyLog 1 [createInstallShardConfigOp 0 (passedOn 1), appendB r,
    createInstallShardConfigOp 0 (passedOn 2)] makeState).getD makeState

/-- Group 2, which waits for the shard. -/
def taker : State :=
  (applyLog 2 [createInstallShardConfigOp 0 (passedOn 1),
    createInstallShardConfigOp 0 (passedOn 2)] makeState).getD makeState

/-- The entry group 2 makes of the answer of group 1. -/
def taken (r : Int) : Op :=
  let args : AcquireShardArgs := ⟨2, 1, ⟨0, Ctrler.NShards_pos⟩⟩
  ((giver r).answerAcquireShards args).elim { type := .acquireShard }
    (createAcquireShardOp 0 args.shardIndex)

theorem giver_clientLastRequest :
    (giver 1).clientLastRequest = Function.update (fun _ => none) 7 (some 1) := by
  rfl

theorem duplicates_handed_over_second :
    (giver 1).isDuplicateOp (appendB 1) = true ∧ taker.isDuplicateOp (appendB 1) = false ∧
      (taker.handleAcquireShard (taken 1)).isDuplicateOp (appendB 1) = true := by
  have hgiver : (giver 1).isDuplicateOp (appendB 1) = true := by decide
  have hnoticed : ∀ c L, (giver 1).clientLastRequest c = some L →
      taker.clientLastRequest c = none → 0 < L := by
    intro c L hL _
    rw [giver_clientLastRequest] at hL
    by_cases hc : c = 7
    · rw [hc, Function.update_self] at hL
      have := Option.some.inj hL
      omega
    · rw [Function.update_of_ne hc] at hL
      exact absurd hL (by simp)
  have hover := duplicates_handed_over taker (giver 1) (taken 1) rfl
  exact ⟨hgiver, by decide, (hover.1.mpr hnoticed _).mpr (.inr hgiver)⟩

/-- The entry a client has after its first request is not taken over, and the request is
applied once more. -/
theorem first_request_applied_twice :
    (¬ ∀ (st donor : State) (op : Op), op.clientLastRequest = donor.clientLastRequest →
      ∀ op' : Op, (st.handleAcquireShard op).isDuplicateOp op' = true ↔
        st.isDuplicateOp op' = true ∨ donor.isDuplicateOp op' = true) ∧
    (giver 0).getValueWithKey "2" = some "b" ∧
    ((applyLog 2 [taken 0, appendB 0] taker).bind fun st => st.getValueWithKey "2") =
      some "bb" := by
  refine ⟨fun h => ?_, by decide +kernel, by decide +kernel⟩
  have hdup := (h taker (giver 0) (taken 0) rfl (appendB 0)).mpr (.inr (by decide))
  exact absurd hdup (by decide)

end State

end ShardRaft.ShardKV
