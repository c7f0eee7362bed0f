import ShardRaft.KV.World

/-!
# The agreed sequence and the order it gives the calls

`stateAt log m` is the state after the first `m` commands of the agreed sequence.
A request may stand in the sequence several times.  `order` picks one place for
each call that takes effect:

* for `Put` and `Append`, the place where the request is not a duplicate;
* for `Get`, the place given by `point`: the one whose reply was returned.

`legal_order` is what makes the order useful: read as calls on a plain map, it
gives the results that the servers have computed.
-/

namespace ShardRaft.KV

open ShardRaft.Lib

variable {n : Nat}

/-- The call an op belongs to: its clerk and the number of the request. -/
def Op.id (op : Op n) : Nat × Int := (op.clientId, op.requestIndex)

/-- What the op was meant to do. -/
def Op.call (op : Op n) : Call :=
  match op.type with
  | .get => .get op.key
  | .put => .put op.key op.value
  | .append => .append op.key op.value

def Request.id : Request → Nat × Int
  | .get args => (args.clientId, args.requestIndex)
  | .putAppend args => (args.clientId, args.requestIndex)

def Request.call : Request → Call
  | .get args => .get args.key
  | .putAppend args =>
    match args.op with
    | .get => .get args.key
    | .put => .put args.key args.value
    | .append => .append args.key args.value

theorem createOp_id (kv : KVServer n) (req : Request) : (kv.createOp req).id = req.id := by
  cases req <;> rfl

theorem createOp_call (kv : KVServer n) (req : Request) : (kv.createOp req).call = req.call := by
  cases req <;> rfl

theorem createArgs_id (ck : Clerk n) (c : Nat) (call : Call) :
    (ck.createArgs c call).id = (c, ck.requestIndex) := by
  cases call <;> rfl

theorem createArgs_call (ck : Clerk n) (c : Nat) (call : Call) :
    (ck.createArgs c call).call = call := by
  cases call <;> rfl

/-! ### The state after a prefix -/

/-- The state after the first `m` commands. -/
def stateAt (log : List (Op n)) (m : Nat) : State :=
  (log.take m).foldl (fun st op => (st.applyOp op).1) .makeState

theorem stateAt_zero (log : List (Op n)) : stateAt log 0 = .makeState := rfl

theorem stateAt_succ {log : List (Op n)} {m : Nat} {op : Op n} (h : log[m]? = some op) :
    stateAt log (m + 1) = ((stateAt log m).applyOp op).1 := by
  unfold stateAt
  obtain ⟨hm, rfl⟩ := List.getElem?_eq_some_iff.mp h
  rw [List.take_succ_eq_append_getElem hm, List.foldl_append]
  rfl

theorem stateAt_append {log : List (Op n)} {m : Nat} (h : m ≤ log.length) (l : List (Op n)) :
    stateAt (log ++ l) m = stateAt log m := by
  unfold stateAt
  rw [List.take_append_of_le_length h]

theorem applyOp_keyValueStore (st : State) (op : Op n) :
    (st.applyOp op).1.keyValueStore
      = if st.isDuplicateOp op then st.keyValueStore else (spec st.keyValueStore op.call).1 := by
  unfold State.applyOp Op.call
  by_cases hd : st.isDuplicateOp op = true
  · rw [if_pos hd, if_pos hd]
  rw [if_neg hd, if_neg hd]
  cases ht : op.type with
  | get => rfl
  | put => rfl
  | append =>
    dsimp only [spec]
    cases st.keyValueStore op.key with
    | none => rw [Option.getD_none, String.empty_append]
    | some val => rfl

theorem applyOp_clientLastRequest (st : State) (op : Op n) :
    (st.applyOp op).1.clientLastRequest
      = if st.isDuplicateOp op then st.clientLastRequest
        else Function.update st.clientLastRequest op.clientId (some op.requestIndex) := by
  unfold State.applyOp
  by_cases hd : st.isDuplicateOp op = true
  · rw [if_pos hd, if_pos hd]
  · rw [if_neg hd, if_neg hd]
    cases op.type <;> rfl

/-- The last request on record was given by a command. -/
theorem exists_of_clientLastRequest {log : List (Op n)} {c : Nat} {r : Int} :
    ∀ m, (stateAt log m).clientLastRequest c = some r →
      ∃ q < m, ∃ op, log[q]? = some op ∧ op.clientId = c ∧ op.requestIndex = r := by
  intro m
  induction m with
  | zero => intro h; exact absurd h (by simp [stateAt_zero, State.makeState])
  | succ m ih =>
    intro h
    cases hop : log[m]? with
    | none =>
      have hle := List.getElem?_eq_none_iff.mp hop
      have hsame : stateAt log (m + 1) = stateAt log m := by
        unfold stateAt
        rw [List.take_of_length_le (by omega), List.take_of_length_le hle]
      rw [hsame] at h
      obtain ⟨q, hq, hrest⟩ := ih h
      exact ⟨q, by omega, hrest⟩
    | some op =>
      rw [stateAt_succ hop, applyOp_clientLastRequest] at h
      have hold : (stateAt log m).clientLastRequest c = some r →
          ∃ q < m + 1, ∃ op, log[q]? = some op ∧ op.clientId = c ∧ op.requestIndex = r := by
        intro h
        obtain ⟨q, hq, hrest⟩ := ih h
        exact ⟨q, by omega, hrest⟩
      split at h
      · exact hold h
      · by_cases hc : c = op.clientId
        · rw [hc, Function.update_self] at h
          exact ⟨m, by omega, op, hop, hc.symm, Option.some.inj h⟩
        · rw [Function.update_of_ne hc] at h
          exact hold h

/-- A request that stands in the prefix is on record, or a later one is. -/
theorem clientLastRequest_of_mem {log : List (Op n)} {q : Nat} {op : Op n}
    (hop : log[q]? = some op) :
    ∀ m, q < m → m ≤ log.length →
      ∃ r, (stateAt log m).clientLastRequest op.clientId = some r ∧ op.requestIndex ≤ r := by
  intro m
  induction m with
  | zero => intro h; exact absurd h (Nat.not_lt_zero _)
  | succ m ih =>
    intro hq hm
    obtain ⟨op', hop'⟩ : ∃ op', log[m]? = some op' := ⟨_, List.getElem?_eq_getElem hm⟩
    rw [stateAt_succ hop', applyOp_clientLastRequest]
    by_cases hqm : q = m
    · subst hqm
      obtain rfl : op = op' := Option.some.inj (hop.symm.trans hop')
      split
      · rename_i hd
        unfold State.isDuplicateOp at hd
        split at hd
        · rename_i last hlast
          exact ⟨last, hlast, of_decide_eq_true hd⟩
        · exact absurd hd (by simp)
      · exact ⟨op.requestIndex, Function.update_self .., le_rfl⟩
    · obtain ⟨r, hr, hle⟩ := ih (by omega) (by omega)
      split
      · exact ⟨r, hr, hle⟩
      · rename_i hd
        by_cases hc : op.clientId = op'.clientId
        · -- the record only grows
          rw [hc, Function.update_self]
          rw [hc] at hr
          unfold State.isDuplicateOp at hd
          rw [hr] at hd
          have : ¬ op'.requestIndex ≤ r := by simpa using hd
          exact ⟨op'.requestIndex, rfl, by omega⟩
        · rw [Function.update_of_ne hc]
          exact ⟨r, hr, hle⟩

/-- Only the first place of a request is not a duplicate. -/
theorem duplicate_of_earlier {log : List (Op n)} {q m : Nat} {op op' : Op n}
    (hop : log[q]? = some op) (hop' : log[m]? = some op') (hq : q < m) (hid : op.id = op'.id) :
    (stateAt log m).isDuplicateOp op' = true := by
  have hm := (List.getElem?_eq_some_iff.mp hop').1
  obtain ⟨r, hr, hle⟩ := clientLastRequest_of_mem hop m hq hm.le
  obtain ⟨hc, hri⟩ := Prod.mk.inj hid
  unfold State.isDuplicateOp
  rw [← hc, hr]
  exact decide_eq_true (hri ▸ hle)

/-! ### The order of the calls -/

section order

variable (point : Nat × Int → Option Nat)

/-- What the command at place `p` contributes to the order. -/
def takenAt (st : State) (p : Nat) (op : Op n) :
    List (Taken (Nat × Int) Call (Option String)) :=
  if (op.type ≠ .get ∧ st.isDuplicateOp op = false) ∨ (op.type = .get ∧ point op.id = some p) then
    [⟨op.id, op.call, (spec st.keyValueStore op.call).2⟩]
  else []

/-- The order of the calls that take effect among the first `m` commands. -/
def order (log : List (Op n)) (m : Nat) : List (Taken (Nat × Int) Call (Option String)) :=
  (List.range m).flatMap fun p =>
    (log[p]?).elim [] (takenAt point (stateAt log p) p)

variable {point}

theorem mem_takenAt {st : State} {p : Nat} {op : Op n}
    {x : Taken (Nat × Int) Call (Option String)} :
    x ∈ takenAt point st p op ↔
      ((op.type ≠ .get ∧ st.isDuplicateOp op = false) ∨ (op.type = .get ∧ point op.id = some p)) ∧
        x = ⟨op.id, op.call, (spec st.keyValueStore op.call).2⟩ := by
  unfold takenAt
  split
  · rename_i h
    rw [List.mem_singleton]
    exact ⟨fun hx => ⟨h, hx⟩, fun hx => hx.2⟩
  · rename_i h
    exact ⟨fun hx => absurd hx List.not_mem_nil, fun hx => absurd hx.1 h⟩

theorem mem_order {log : List (Op n)} {m : Nat} {x : Taken (Nat × Int) Call (Option String)} :
    x ∈ order point log m ↔
      ∃ p < m, ∃ op, log[p]? = some op ∧ x ∈ takenAt point (stateAt log p) p op := by
  unfold order
  rw [List.mem_flatMap]
  constructor
  · rintro ⟨p, hp, hx⟩
    cases hop : log[p]? with
    | none => rw [hop] at hx; exact absurd hx List.not_mem_nil
    | some op =>
      rw [hop] at hx
      exact ⟨p, List.mem_range.mp hp, op, hop, hx⟩
  · rintro ⟨p, hp, op, hop, hx⟩
    refine ⟨p, List.mem_range.mpr hp, ?_⟩
    rw [hop]
    exact hx

theorem pairwise_order {log : List (Op n)} {m : Nat}
    {R : Taken (Nat × Int) Call (Option String) → Taken (Nat × Int) Call (Option String) → Prop}
    (h : ∀ p q op op', p < q → log[p]? = some op → log[q]? = some op' →
      ∀ x ∈ takenAt point (stateAt log p) p op, ∀ y ∈ takenAt point (stateAt log q) q op', R x y) :
    (order point log m).Pairwise R := by
  unfold order
  rw [List.pairwise_flatMap]
  constructor
  · intro p _
    cases log[p]? with
    | none => exact .nil
    | some op =>
      unfold takenAt
      dsimp only [Option.elim]
      split
      · exact List.pairwise_singleton ..
      · exact .nil
  · refine List.pairwise_lt_range.imp ?_
    intro p q hpq x hx y hy
    cases hop : log[p]? with
    | none => rw [hop] at hx; exact absurd hx List.not_mem_nil
    | some op =>
      cases hop' : log[q]? with
      | none => rw [hop'] at hy; exact absurd hy List.not_mem_nil
      | some op' =>
        rw [hop] at hx
        rw [hop'] at hy
        exact h p q op op' hpq hop hop' x hx y hy

theorem spec_get {m : String → Option String} {op : Op n} (h : op.type = .get) :
    (spec m op.call).1 = m := by
  rw [Op.call, h]
  rfl

/-- What one place contributes is legal, and leads to the next state. -/
theorem legal_takenAt (point : Nat × Int → Option Nat) (st : State) (p : Nat) (op : Op n) :
    Legal spec st.keyValueStore (takenAt point st p op) ∧
      finish spec st.keyValueStore (takenAt point st p op) = (st.applyOp op).1.keyValueStore := by
  rw [applyOp_keyValueStore]
  unfold takenAt
  split
  · rename_i h
    refine ⟨⟨rfl, trivial⟩, ?_⟩
    rcases h with ⟨-, hd⟩ | ⟨hg, -⟩
    · rw [hd]
      rfl
    · change (spec st.keyValueStore op.call).1 = _
      rw [spec_get hg, ite_self]
  · rename_i h
    refine ⟨trivial, ?_⟩
    change st.keyValueStore = _
    by_cases hg : op.type = .get
    · rw [spec_get hg, ite_self]
    · have hd : st.isDuplicateOp op = true := by
        by_contra hd
        exact h (.inl ⟨hg, Bool.not_eq_true _ ▸ hd⟩)
      rw [if_pos hd]

/-- **The order is legal for the plain map**, which goes through the servers' states. -/
theorem legal_order {log : List (Op n)} :
    ∀ m ≤ log.length, Legal spec (fun _ => none) (order point log m) ∧
      finish spec (fun _ => none) (order point log m) = (stateAt log m).keyValueStore := by
  intro m
  induction m with
  | zero => intro _; exact ⟨trivial, rfl⟩
  | succ m ih =>
    intro hm
    obtain ⟨hl, hf⟩ := ih (by omega)
    have hop : log[m]? = some log[m] := List.getElem?_eq_getElem hm
    have hsplit : order point log (m + 1)
        = order point log m ++ takenAt point (stateAt log m) m log[m] := by
      unfold order
      rw [List.range_succ, List.flatMap_append, List.flatMap_singleton, hop]
      rfl
    obtain ⟨hl', hf'⟩ := legal_takenAt point (stateAt log m) m log[m]
    rw [hsplit, finish_append, stateAt_succ hop]
    refine ⟨legal_append _ _ _ hl ?_, ?_⟩
    · rw [hf]; exact hl'
    · rw [hf]; exact hf'

end order

end ShardRaft.KV
