import Mathlib.Logic.Function.Basic
import ShardRaft.Porcupine.Verdicts

/-!
# The check of the tests is about a plain map

The check of a history against `KvModel` goes key by key.  `checkOperations_kvModel` says that
this is the same as asking whether the whole history is linearizable as a plain map.
-/

namespace ShardRaft.Porcupine

open Lib

variable {ι ω σ : Type}

/-- The plain map: what is read is what was last written. -/
def plainMap (m : String → String) (elem : KvOperation) : Option (String → String) :=
  let key := elem.input.key
  if elem.input.op = 0 then if elem.output.value = m key then some m else none
  else if elem.input.op = 1 then some (Function.update m key elem.input.value)
  else some (Function.update m key (m key ++ elem.input.value))

/-! ### Histories as lists of operations -/

/-- The operations can be carried out in this order. -/
abbrev Serialization (step : σ → Operation ι ω → Option σ) (s : σ)
    (history l : List (Operation ι ω)) : Prop :=
  Serializes Operation.call Operation.ret step s history l

variable {model : Model ι ω σ} {history l : List (Operation ι ω)} {order : List Nat}

/-- `l` are the operations with the numbers `order`. -/
def Names (history : List (Operation ι ω)) (order : List Nat) (l : List (Operation ι ω)) : Prop :=
  List.Forall₂ (fun i elem => history[i]? = some elem) order l

theorem names_range (history : List (Operation ι ω)) :
    Names history (List.range history.length) history := by
  refine List.forall₂_iff_get.mpr ⟨List.length_range, fun i hi hi' => ?_⟩
  simp

theorem exists_names_of_perm (h : order.Perm (List.range history.length)) :
    ∃ l, Names history order l ∧ l.Perm history :=
  List.perm_comp_forall₂ h (names_range history)

theorem exists_order_of_perm (h : l.Perm history) :
    ∃ order : List Nat, order.Perm (List.range history.length) ∧ Names history order l := by
  obtain ⟨order, hnames, hperm⟩ := List.perm_comp_forall₂ h (names_range history).flip
  exact ⟨order, hperm, hnames.flip⟩

theorem before_iff {i j : Nat} {x y : Operation ι ω} (hx : history[i]? = some x)
    (hy : history[j]? = some y) : Before history i j ↔ x.ret < y.call := by
  constructor
  · rintro ⟨x', y', hx', hy', h⟩
    rw [hx] at hx'
    rw [hy] at hy'
    rwa [Option.some.inj hx', Option.some.inj hy']
  · exact fun h => ⟨x, y, hx, hy, h⟩

theorem Names.runs_iff (h : Names history order l) {s : σ} :
    Runs (stepOf model history) s order ↔ Runs model.carryOut s l := by
  induction h generalizing s with
  | nil => exact Iff.rfl
  | @cons i elem order l hi _ ih =>
    have hstep : stepOf model history s i = model.carryOut s elem := by
      rw [stepOf, hi, Option.bind_some]
    simp only [Runs, hstep, ih]

theorem Names.inTime_iff (h : Names history order l) :
    order.Pairwise (fun i j => ¬ Before history j i) ↔ InTime Operation.call Operation.ret l := by
  induction h with
  | nil => exact ⟨fun _ => .nil, fun _ => .nil⟩
  | @cons i x order l hi h ih =>
    rw [InTime, List.pairwise_cons, List.pairwise_cons, ih]
    refine and_congr_left fun _ => ⟨fun hall y hy hlt => ?_, fun hall j hj hbefore => ?_⟩
    · obtain ⟨j, hj, hjy⟩ := exists_of_forall₂ h hy
      exact hall j hj ((before_iff hjy hi).mpr hlt)
    · obtain ⟨y, hy, hjy⟩ := exists_of_forall₂ h.flip hj
      exact hall y hy ((before_iff hjy hi).mp hbefore)

/-- **Linearizations by number and by operation.** -/
theorem exists_linearization_iff : (∃ order, Linearization model history order) ↔
    ∃ l, Serialization model.carryOut model.init history l := by
  constructor
  · rintro ⟨order, horder⟩
    have hperm : order.Perm (List.range history.length) := by
      refine (List.perm_ext_iff_of_nodup horder.nodup List.nodup_range).mpr fun i => ?_
      rw [List.mem_range]
      exact ⟨horder.ops i, horder.all i⟩
    obtain ⟨l, hnames, hl⟩ := exists_names_of_perm hperm
    exact ⟨l, hl, hnames.inTime_iff.mp horder.ordered, hnames.runs_iff.mp horder.runs⟩
  · rintro ⟨l, hl, htime, hruns⟩
    obtain ⟨order, hperm, hnames⟩ := exists_order_of_perm hl
    have hmem : ∀ i, i ∈ order ↔ i < history.length := fun i => by
      rw [hperm.mem_iff, List.mem_range]
    refine ⟨order, ⟨⟨hperm.nodup_iff.mpr List.nodup_range, fun i => (hmem i).mp, ?_,
      hnames.inTime_iff.mpr htime, hnames.runs_iff.mpr hruns⟩, fun i => (hmem i).mpr⟩⟩
    rintro i - j ⟨x, y, hx, -⟩
    exact (hmem j).mpr (List.getElem?_eq_some_iff.mp hx).1

/-! ### One key and all keys -/

theorem plainMap_eq : plainMap = each (fun v : KvOperation => v.input.key) KvModel.carryOut := by
  funext m elem
  simp only [plainMap, each, Model.carryOut, KvModel, KvModel.step]
  by_cases h0 : elem.input.op = 0
  · by_cases hout : elem.output.value = m elem.input.key
    · simp [h0, hout]
    · simp [h0, hout]
  · by_cases h1 : elem.input.op = 1
    · simp [h1]
    · simp [h0, h1]

theorem mem_keys {history : List KvOperation} {k : String} :
    k ∈ KvModel.keys history ↔ ∃ v ∈ history, v.input.key = k := by
  rw [KvModel.keys, List.mem_insertionSort, List.mem_dedup, List.mem_map]

theorem mem_of_partition {history subhistory : List KvOperation}
    (h : subhistory ∈ KvModel.partition history) {elem : KvOperation} (helem : elem ∈ subhistory) :
    elem ∈ history := by
  obtain ⟨k, -, rfl⟩ := List.mem_map.mp h
  exact (List.mem_filter.mp helem).1

/-- **A history is linearizable as a plain map if the history of each key is**, one key being a
string. -/
theorem exists_serialization_plainMap_iff {history : List KvOperation}
    (hcall : ∀ elem ∈ history, elem.call < elem.ret) :
    (∃ l, Serialization plainMap (fun _ => "") history l) ↔
      ∀ subhistory ∈ KvModel.partition history, ∃ order, Linearization KvModel subhistory order := by
  rw [plainMap_eq, exists_serializes_iff fun x hx => (hcall x hx).le]
  constructor
  · intro h subhistory hsub
    obtain ⟨k, -, rfl⟩ := List.mem_map.mp hsub
    exact exists_linearization_iff.mpr (h k)
  · intro h k
    by_cases hk : k ∈ KvModel.keys history
    · exact exists_linearization_iff.mp (h _ (List.mem_map_of_mem hk))
    · -- no operation is on this key
      refine ⟨[], ?_, .nil, trivial⟩
      rw [on_eq_nil fun v hv heq => hk (mem_keys.mpr ⟨v, hv, heq⟩)]

theorem NoTies.of_partition {history subhistory : List KvOperation} (h : NoTies history)
    (hsub : subhistory ∈ KvModel.partition history) : NoTies subhistory :=
  fun x hx y hy => h x (mem_of_partition hsub hx) y (mem_of_partition hsub hy)

theorem answers_kvModel {byTime : SortByTime KvInput KvOutput} {computeInfo : Bool} {timeout : Int}
    {history : List KvOperation} (hcall : ∀ elem ∈ history, elem.call < elem.ret)
    {c : Check KvInput KvOutput String} {past : List (Check KvInput KvOutput String)}
    (ht : Trace (Check.step KvModel computeInfo timeout) (fun _ _ => True)
      (checkOperations byTime KvModel history) (c :: past)) (hphase : c.phase = .returned) :
    Check.Answers KvModel computeInfo timeout (KvModel.partition history) c := by
  refine Check.answers_of_trace byTime computeInfo timeout history ?_ ?_ ht hphase
  · exact fun a b h => of_decide_eq_true h
  · exact fun subhistory hsub elem helem => hcall elem (mem_of_partition hsub helem)

/-- **The check of the tests** says of a history of the key/value store whether it is
linearizable as a plain map. -/
theorem checkOperations_kvModel (byTime : SortByTime KvInput KvOutput) (computeInfo : Bool)
    (timeout : Int) (history : List KvOperation) (hcall : ∀ elem ∈ history, elem.call < elem.ret)
    (c : Check KvInput KvOutput String) (past : List (Check KvInput KvOutput String))
    (ht : Trace (Check.step KvModel computeInfo timeout) (fun _ _ => True)
      (checkOperations byTime KvModel history) (c :: past)) (hphase : c.phase = .returned) :
    (c.result = .ok → ∃ l, Serialization plainMap (fun _ => "") history l) ∧
    (c.result = .illegal → NoTies history →
      ¬ ∃ l, Serialization plainMap (fun _ => "") history l) ∧
    (c.result = .unknown → 0 < timeout) := by
  have hanswers := answers_kvModel hcall ht hphase
  refine ⟨fun hr => ?_, fun hr hties => ?_, hanswers.unknown⟩
  · exact (exists_serialization_plainMap_iff hcall).mpr (hanswers.ok hr)
  · intro hser
    obtain ⟨subhistory, hsub, hnot⟩ := hanswers.illegal hr
    exact hnot (hties.of_partition hsub)
      ((exists_serialization_plainMap_iff hcall).mp hser subhistory hsub)

/-- A history with nothing wrong: without the stale read. -/
def sampleGood : List KvOperation := sampleTwoKeys.eraseIdx 3

theorem checkOperations_kvModel_sampleGood :
    ∃ l, Serialization plainMap (fun _ => "") sampleGood l := by
  have hs : runEnds (Check.step KvModel true 0) (fun _ _ => True)
      (checkOperations .insertion KvModel sampleGood)
      (List.replicate 7 (.turn 0) ++ [.receive] ++ List.replicate 3 (.turn 1) ++ [.receive])
      (fun c _ => decide (c.phase = .returned ∧ c.result = .ok)) = true := by decide +kernel
  obtain ⟨c, past, -, ht, hc⟩ := exists_of_runEnds hs
  obtain ⟨hphase, hresult⟩ := of_decide_eq_true hc
  have hcall : ∀ elem ∈ sampleGood, elem.call < elem.ret := by decide
  exact (checkOperations_kvModel .insertion true 0 sampleGood hcall c past ht hphase).1 hresult

end ShardRaft.Porcupine
