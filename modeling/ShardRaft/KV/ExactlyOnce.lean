import ShardRaft.KV.History
import Mathlib.Order.Bounds.Basic

/-!
# Every request takes effect once

`handleCommandApply` remembers one number for each client: the index of its last request.
Over a whole sequence of operations this number is the largest index of the client so far
(`clientLastRequest_iff`), whatever the order in which requests and stale retries arrive.
So an operation takes effect exactly if its index is larger than all before it, and a copy
of an operation changes nothing (`exactly_once`).
-/

namespace ShardRaft.KV

variable {n : Nat}

namespace State

/-- The state after a sequence of operations. -/
def applyAll (st : State) (ops : List (Op n)) : State :=
  ops.foldl (fun st op => (st.applyOp op).1) st

/-- The reply of `handleCommandApply`, on a server that is the leader or is not. -/
def reply (st : State) (op : Op n) (isLeader : Bool) : KVReplyMsg :=
  if isLeader then (st.applyOp op).2 else { (st.applyOp op).2 with error := .errWrongLeader }

/-- The replies to a sequence of operations, each with whether the server is the leader
when it applies it. -/
def replies (st : State) : List (Op n × Bool) → List KVReplyMsg
  | [] => []
  | (op, isLeader) :: log => st.reply op isLeader :: (st.applyOp op).1.replies log

theorem applyAll_cons (st : State) (op : Op n) (ops : List (Op n)) :
    st.applyAll (op :: ops) = (st.applyOp op).1.applyAll ops := rfl

theorem applyAll_append (st : State) (ops ops' : List (Op n)) :
    st.applyAll (ops ++ ops') = (st.applyAll ops).applyAll ops' :=
  List.foldl_append ..

theorem replies_append (st : State) (log log' : List (Op n × Bool)) :
    st.replies (log ++ log') =
      st.replies log ++ (st.applyAll (log.map Prod.fst)).replies log' := by
  induction log generalizing st with
  | nil => rfl
  | cons x log ih =>
    simp only [List.cons_append, replies, ih, List.map_cons, applyAll_cons]

theorem length_replies (st : State) (log : List (Op n × Bool)) :
    (st.replies log).length = log.length := by
  induction log generalizing st with
  | nil => rfl
  | cons x log ih => simp only [replies, List.length_cons, ih]

theorem applyOp_of_duplicate {st : State} {op : Op n} (h : st.isDuplicateOp op = true) :
    (st.applyOp op).1 = st := by
  rw [applyOp, if_pos h]

/-- This is what a server does: the state it has afterwards, and the message it sends if
someone waits for it. -/
theorem handleCommandApply_eq (kv : KVServer n) (op : Op n) (isLeader : Bool) :
    (kv.handleCommandApply op isLeader).1.state = (kv.state.applyOp op).1 ∧
      ∀ ch msg, (kv.handleCommandApply op isLeader).2 = some (ch, msg) →
        msg = kv.state.reply op isLeader := by
  refine ⟨rfl, fun ch msg h => ?_⟩
  obtain ⟨ch', -, he⟩ := Option.map_eq_some_iff.mp h
  exact (Prod.mk.inj he).2.symm

end State

open State

/-! ## The last request on record -/

theorem makeState_applyAll (ops : List (Op n)) : makeState.applyAll ops = stateAt ops ops.length := by
  rw [stateAt, List.take_length]
  rfl

/-- The requests of a client in a sequence of operations. -/
def indices (ops : List (Op n)) (clientId : Nat) : Set Int :=
  {i | ∃ op ∈ ops, op.clientId = clientId ∧ op.requestIndex = i}

theorem exists_record {ops : List (Op n)} {op : Op n} (hop : op ∈ ops) :
    ∃ r, (makeState.applyAll ops).clientLastRequest op.clientId = some r ∧ op.requestIndex ≤ r := by
  obtain ⟨q, hq⟩ := List.mem_iff_getElem?.mp hop
  have hlt := (List.getElem?_eq_some_iff.mp hq).1
  rw [makeState_applyAll]
  exact clientLastRequest_of_mem hq ops.length hlt le_rfl

/-- **One number stands for the whole history**: the record of a client is its largest index. -/
theorem clientLastRequest_iff (ops : List (Op n)) (clientId : Nat) (r : Int) :
    (makeState.applyAll ops).clientLastRequest clientId = some r ↔
      IsGreatest (indices ops clientId) r := by
  have hmem : ∀ {r}, (makeState.applyAll ops).clientLastRequest clientId = some r →
      r ∈ indices ops clientId := by
    intro r h
    rw [makeState_applyAll] at h
    obtain ⟨q, -, op, hq, hc, hr⟩ := exists_of_clientLastRequest ops.length h
    exact ⟨op, List.mem_of_getElem? hq, hc, hr⟩
  constructor
  · intro h
    refine ⟨hmem h, ?_⟩
    rintro i ⟨op, hop, rfl, rfl⟩
    obtain ⟨r', hr', hle⟩ := exists_record hop
    rwa [Option.some.inj (h.symm.trans hr')]
  · intro h
    obtain ⟨op, hop, rfl, hr⟩ := h.1
    obtain ⟨r', hr', hle⟩ := exists_record hop
    rw [hr', le_antisymm (h.2 (hmem hr')) (hr ▸ hle)]

/-- The index is larger than that of every operation of the same client in `past`. -/
def IsNew (past : List (Op n)) (op : Op n) : Prop :=
  ∀ op' ∈ past, op'.clientId = op.clientId → op'.requestIndex < op.requestIndex

instance (past : List (Op n)) (op : Op n) : Decidable (IsNew past op) :=
  inferInstanceAs (Decidable (∀ op' ∈ past, _))

theorem isDuplicateOp_iff (past : List (Op n)) (op : Op n) :
    (makeState.applyAll past).isDuplicateOp op = true ↔ ¬IsNew past op := by
  simp only [isDuplicateOp]
  cases hrec : (makeState.applyAll past).clientLastRequest op.clientId with
  | none =>
    refine iff_of_false Bool.false_ne_true (not_not.mpr fun op' hop' hc => ?_)
    obtain ⟨r, hr, -⟩ := exists_record hop'
    rw [hc, hrec] at hr
    exact absurd hr (by simp)
  | some r =>
    have hgreatest := (clientLastRequest_iff past op.clientId r).mp hrec
    rw [decide_eq_true_iff]
    constructor
    · intro hle hnew
      obtain ⟨op', hop', hc, hr⟩ := hgreatest.1
      have hlt := hnew op' hop' hc
      omega
    · intro hnot
      by_contra hlt
      refine hnot fun op' hop' hc => ?_
      have hle : op'.requestIndex ≤ r := hgreatest.2 ⟨op', hop', hc, rfl⟩
      omega

/-! ## What takes effect -/

/-- The operations of a sequence that are new when they come, after those of `past`. -/
def newOps (past : List (Op n)) : List (Op n) → List (Op n)
  | [] => []
  | op :: ops =>
    if IsNew past op then op :: newOps (past ++ [op]) ops else newOps (past ++ [op]) ops

/-- A sequence of operations on a plain map. -/
def plain (m : String → Option String) (ops : List (Op n)) : String → Option String :=
  ops.foldl (fun m op => (spec m op.call).1) m

theorem keyValueStore_applyAll (past ops : List (Op n)) :
    (makeState.applyAll (past ++ ops)).keyValueStore =
      plain (makeState.applyAll past).keyValueStore (newOps past ops) := by
  induction ops generalizing past with
  | nil => rw [List.append_nil]; rfl
  | cons op ops ih =>
    have hsplit : past ++ op :: ops = (past ++ [op]) ++ ops := by simp
    have hstore : (makeState.applyAll (past ++ [op])).keyValueStore =
        if IsNew past op then (spec (makeState.applyAll past).keyValueStore op.call).1
        else (makeState.applyAll past).keyValueStore := by
      rw [applyAll_append]
      refine (applyOp_keyValueStore _ op).trans ?_
      simp only [isDuplicateOp_iff, ite_not]
    rw [hsplit, ih, hstore, newOps]
    split <;> rfl

/-- **What a sequence of operations does**, each with whether the server is the leader when
it applies it. -/
structure ExactlyOnce (log : List (Op n × Bool)) : Prop where
  /-- The states and replies are those of `handleCommandApply`, on any server that has
  applied the operations before. -/
  handled : ∀ (before after : List (Op n × Bool)) (op : Op n) (isLeader : Bool) (kv : KVServer n),
    log = before ++ (op, isLeader) :: after →
    kv.state = makeState.applyAll (before.map Prod.fst) →
    (kv.handleCommandApply op isLeader).1.state =
      makeState.applyAll ((before ++ [(op, isLeader)]).map Prod.fst) ∧
    ∀ ch msg, (kv.handleCommandApply op isLeader).2 = some (ch, msg) →
      (makeState.replies log)[before.length]? = some msg
  /-- The store is that of the new operations alone, on a plain map. -/
  store : (makeState.applyAll (log.map Prod.fst)).keyValueStore =
    plain (fun _ => none) (newOps [] (log.map Prod.fst))
  /-- The record of a client is its largest index, if it has any. -/
  lastRequest : ∀ clientId r,
    (makeState.applyAll (log.map Prod.fst)).clientLastRequest clientId = some r ↔
      IsGreatest (indices (log.map Prod.fst) clientId) r
  /-- A later copy of an operation, or of an earlier request of its client, changes neither
  the state nor the reply to any other operation. -/
  copies : ∀ (before after : List (Op n × Bool)) (op copy : Op n) (isLeader : Bool),
    log = before ++ after → op ∈ before.map Prod.fst → copy.clientId = op.clientId →
    copy.requestIndex ≤ op.requestIndex →
    makeState.applyAll ((before ++ (copy, isLeader) :: after).map Prod.fst) =
      makeState.applyAll (log.map Prod.fst) ∧
    ∃ msg, makeState.replies (before ++ (copy, isLeader) :: after) =
      (makeState.replies log).take before.length ++ msg :: (makeState.replies log).drop before.length

theorem exactly_once (log : List (Op n × Bool)) : ExactlyOnce log := by
  refine ⟨?_, keyValueStore_applyAll [] _, clientLastRequest_iff _, ?_⟩
  · intro before after op isLeader kv hlog hkv
    obtain ⟨hstate, hmsg⟩ := handleCommandApply_eq kv op isLeader
    refine ⟨?_, fun ch msg h => ?_⟩
    · rw [hstate, hkv, List.map_append, applyAll_append]
      rfl
    · rw [hlog, replies_append, List.getElem?_append_right (length_replies _ before).le,
        length_replies, Nat.sub_self, hmsg ch msg h, hkv]
      rfl
  · intro before after op copy isLeader hlog hop hclient hle
    subst hlog
    have hdup : (makeState.applyAll (before.map Prod.fst)).isDuplicateOp copy = true := by
      refine (isDuplicateOp_iff _ copy).mpr fun hnew => ?_
      have hlt := hnew op hop hclient.symm
      omega
    have hsame := applyOp_of_duplicate hdup
    constructor
    · rw [List.map_append, List.map_append, List.map_cons, applyAll_append, applyAll_append,
        applyAll_cons, hsame]
    · refine ⟨(makeState.applyAll (before.map Prod.fst)).reply copy isLeader, ?_⟩
      rw [replies_append, replies_append, replies, hsame,
        List.take_left' (length_replies _ before), List.drop_left' (length_replies _ before)]

end ShardRaft.KV
