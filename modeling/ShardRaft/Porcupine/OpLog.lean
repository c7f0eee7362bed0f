import ShardRaft.Lib.Linearizable
import ShardRaft.Porcupine.PlainMap

/-!
# What the tests record

The tests wrap calls of a clerk: they look at the clock before the call and after it has
returned, and record the call with both times (`OpLog`).  When all calls have returned, they
give what they have recorded to the checker.  Only some `Get`s are not recorded.

If what has happened is linearizable as a plain map, it passes (`OpLog.passes`).
-/

namespace ShardRaft.Porcupine

open Lib

variable {ι ω ρ σ : Type}

/-- A call is made once, and returns after that. -/
structure Timely (H : List (Moment ι ω ρ)) : Prop where
  once : ∀ i op op', .invoke i op ∈ H → .invoke i op' ∈ H → op = op'
  ordered : ∀ (k l : Nat) i op res, H[k]? = some (.invoke i op) →
    H[l]? = some (.respond i res) → k < l

/-- What time it is at each moment. -/
structure Clock where
  time : Nat → Int
  forward : ∀ k l : Nat, k ≤ l → time k ≤ time l

theorem Clock.lt_of_time_lt (clock : Clock) {k l : Nat} (h : clock.time k < clock.time l) :
    k < l := by
  by_contra hle
  have hback := clock.forward l k (by omega)
  omega

/-- What is recorded of call `i`. -/
def Recorded (input : ω → KvInput) (output : ρ → KvOutput) (H : List (Moment ι ω ρ))
    (clock : Clock) (i : ι) (elem : KvOperation) : Prop :=
  ∃ (k l : Nat) (op : ω) (res : ρ), H[k]? = some (.invoke i op) ∧ H[l]? = some (.respond i res) ∧
    elem.input = input op ∧ elem.output = output res ∧
    elem.call ≤ clock.time k ∧ clock.time l ≤ elem.ret

/-- `OpLog`, when all calls have returned, or all but some that only read. -/
def OpLog (input : ω → KvInput) (output : ρ → KvOutput) (H : List (Moment ι ω ρ))
    (clock : Clock) (log : List KvOperation) : Prop :=
  ∃ ids : List ι, ids.Nodup ∧ (∀ i op, .invoke i op ∈ H → i ∈ ids ∨ (input op).op = 0) ∧
    List.Forall₂ (Recorded input output H clock) ids log

/-- The specification and the plain map agree on calls. -/
def Agrees (input : ω → KvInput) (output : ρ → KvOutput) (spec : σ → ω → σ × ρ)
    (view : σ → String → String) : Prop :=
  ∀ (s : σ) (op : ω) (elem : KvOperation), elem.input = input op →
    elem.output = output (spec s op).2 → plainMap (view s) elem = some (view (spec s op).1)

/-- What the tests record of a result: only a `Get` has one. -/
def KvOutput.ofResult (res : Option String) : KvOutput := ⟨res.getD ""⟩

/-- What a store reads as: a key that is not there, as the empty string. -/
def readings (m : String → Option String) (key : String) : String := (m key).getD ""

theorem readings_update (m : String → Option String) (key value : String) :
    readings (Function.update m key (some value)) = Function.update (readings m) key value :=
  Function.comp_update (fun v : Option String => v.getD "") m key (some value)

section calls

variable {m : String → Option String} {key value : String} {elem : KvOperation}

theorem plainMap_get (hin : elem.input = ⟨0, key, ""⟩)
    (hout : elem.output = .ofResult (some ((m key).getD ""))) :
    plainMap (readings m) elem = some (readings m) := by
  simp only [plainMap, hin, hout, KvOutput.ofResult, Option.getD_some, if_true]
  exact if_pos rfl

theorem plainMap_put (hin : elem.input = ⟨1, key, value⟩) :
    plainMap (readings m) elem = some (readings (Function.update m key (some value))) := by
  simp only [plainMap, hin, readings_update]
  rfl

theorem plainMap_append (hin : elem.input = ⟨2, key, value⟩) :
    plainMap (readings m) elem =
      some (readings (Function.update m key (some ((m key).getD "" ++ value)))) := by
  simp only [plainMap, hin, readings_update]
  rfl

end calls

variable {input : ω → KvInput} {output : ρ → KvOutput} {H : List (Moment ι ω ρ)}
  {clock : Clock} {log l : List KvOperation} {spec : σ → ω → σ × ρ} {view : σ → String → String}
  {s : σ} {taken : List (Taken ι ω ρ)}

theorem Agrees.read (hagrees : Agrees input output spec view) (s : σ) {op : ω}
    (hop : (input op).op = 0) : view (spec s op).1 = view s := by
  have h := hagrees s op { input := input op, call := 0, output := output (spec s op).2, ret := 0 }
    rfl rfl
  simp only [plainMap, hop, if_true] at h
  split at h
  · exact (Option.some.inj h).symm
  · exact absurd h (by simp)

/-- What the order of the calls gives, the plain map does, if what is left out only reads. -/
theorem runs_of_legal (hagrees : Agrees input output spec view) {keep : Taken ι ω ρ → Bool}
    (hkeep : ∀ x ∈ taken, keep x = false → (input x.op).op = 0)
    (h : List.Forall₂ (fun (x : Taken ι ω ρ) (elem : KvOperation) =>
      elem.input = input x.op ∧ elem.output = output x.res) (taken.filter keep) l) {s : σ}
    (hlegal : Legal spec s taken) : Runs plainMap (view s) l := by
  induction taken generalizing s l with
  | nil =>
    rw [List.filter_nil] at h
    cases h
    trivial
  | cons x taken ih =>
    obtain ⟨hres, hlegal⟩ := hlegal
    have hkeep' : ∀ y ∈ taken, keep y = false → (input y.op).op = 0 :=
      fun y hy => hkeep y (List.mem_cons_of_mem _ hy)
    cases hx : keep x with
    | true =>
      rw [List.filter_cons_of_pos hx] at h
      cases h with
      | cons hxe h => exact ⟨_, hagrees s x.op _ hxe.1 (hres ▸ hxe.2), ih hkeep' h hlegal⟩
    | false =>
      rw [List.filter_cons_of_neg (by simp [hx])] at h
      rw [← hagrees.read s (hkeep x (List.mem_cons_self ..) hx)]
      exact ih hkeep' h hlegal

theorem Recorded.of_taken (htimely : Timely H) (htaken : Linearizes spec s H taken)
    {x : Taken ι ω ρ} (hx : x ∈ taken) {elem : KvOperation}
    (h : Recorded input output H clock x.id elem) :
    elem.input = input x.op ∧ elem.output = output x.res := by
  obtain ⟨k, l, op, res, hk, hl, hin, hout, -, -⟩ := h
  obtain ⟨y, hy, hid, rfl⟩ := htaken.answered x.id res (List.mem_of_getElem? hl)
  obtain rfl : y = x := List.inj_on_of_nodup_map htaken.once hy hx hid
  rw [htimely.once _ _ _ (htaken.invoked y hy) (List.mem_of_getElem? hk)]
  exact ⟨hin, hout⟩

/-- What the clock says is earlier, was. -/
theorem Recorded.precedes {i j : ι} {x y : KvOperation} (hx : Recorded input output H clock i x)
    (hy : Recorded input output H clock j y) (hlt : x.ret < y.call) : Precedes H i j := by
  obtain ⟨-, l, -, res, -, hl, -, -, -, hret⟩ := hx
  obtain ⟨k, -, op, -, hk, -, -, -, hcall, -⟩ := hy
  exact ⟨l, k, res, op, clock.lt_of_time_lt (by omega), hl, hk⟩

theorem perm_of_recorded [DecidableEq ι] (htaken : Linearizes spec s H taken) {ids : List ι}
    (hn : ids.Nodup) (hrecorded : List.Forall₂ (Recorded input output H clock) ids log) :
    ((taken.filter fun x => decide (x.id ∈ ids)).map Taken.id).Perm ids := by
  refine (List.perm_ext_iff_of_nodup (htaken.once.sublist (List.filter_sublist.map _)) hn).mpr ?_
  intro i
  constructor
  · intro hi
    obtain ⟨x, hx, rfl⟩ := List.mem_map.mp hi
    exact of_decide_eq_true (List.mem_filter.mp hx).2
  · intro hi
    obtain ⟨elem, -, k, l, op, res, -, hl, -⟩ := exists_of_forall₂ hrecorded.flip hi
    obtain ⟨x, hx, rfl, -⟩ := htaken.answered i res (List.mem_of_getElem? hl)
    exact List.mem_map_of_mem (List.mem_filter.mpr ⟨hx, decide_eq_true hi⟩)

/-- **What has been recorded is linearizable** if what has happened is. -/
theorem OpLog.exists_serialization (hlog : OpLog input output H clock log)
    (hlin : Linearizable spec s H) (htimely : Timely H) (hagrees : Agrees input output spec view) :
    ∃ l, Serialization plainMap (view s) log l := by
  classical
  obtain ⟨taken, htaken⟩ := hlin
  obtain ⟨ids, hn, hids, hrecorded⟩ := hlog
  let keep : Taken ι ω ρ → Bool := fun x => decide (x.id ∈ ids)
  -- the recorded operations in the order in which the calls have taken effect
  obtain ⟨l, hl, hlperm⟩ := List.perm_comp_forall₂ (perm_of_recorded htaken hn hrecorded) hrecorded
  have hl : List.Forall₂ (fun x => Recorded input output H clock x.id) (taken.filter keep) l :=
    List.forall₂_map_left_iff.mp hl
  have hrecorded : List.Forall₂ (fun (x : Taken ι ω ρ) (elem : KvOperation) =>
      elem.input = input x.op ∧ elem.output = output x.res) (taken.filter keep) l := by
    have hl' := (List.forall₂_and_left _ _).mpr ⟨fun x hx => (List.mem_filter.mp hx).1, hl⟩
    exact hl'.imp fun x elem h => h.2.of_taken htimely htaken h.1
  have hkeep : ∀ x ∈ taken, keep x = false → (input x.op).op = 0 := by
    intro x hx hk
    have hnot : x.id ∉ ids := of_decide_eq_false hk
    exact (hids x.id x.op (htaken.invoked x hx)).resolve_left hnot
  refine ⟨l, hlperm, ?_, runs_of_legal hagrees hkeep hrecorded htaken.legal⟩
  refine pairwise_of_forall₂ hl (htaken.order.filter _) ?_
  exact fun x y a b hx hy hnot hlt => hnot (hy.precedes hx hlt)

theorem OpLog.call_lt_ret (hlog : OpLog input output H clock log) (htimely : Timely H)
    (hties : NoTies log) : ∀ elem ∈ log, elem.call < elem.ret := by
  intro elem helem
  obtain ⟨ids, -, -, hrecorded⟩ := hlog
  obtain ⟨i, -, k, l, op, res, hk, hl, -, -, hcall, hret⟩ := exists_of_forall₂ hrecorded helem
  have hle := clock.forward k l (htimely.ordered k l i op res hk hl).le
  have hne := hties elem helem elem helem
  omega

/-- **A linearizable history passes the check of the tests**, whatever the clock has shown. -/
theorem OpLog.passes (hlog : OpLog input output H clock log) (hlin : Linearizable spec s H)
    (htimely : Timely H) (hties : NoTies log) (hagrees : Agrees input output spec view)
    (hview : view s = fun _ => "")
    (byTime : SortByTime KvInput KvOutput) (computeInfo : Bool) (timeout : Int)
    {c : Check KvInput KvOutput String} {past : List (Check KvInput KvOutput String)}
    (ht : Trace (Check.step KvModel computeInfo timeout) (fun _ _ => True)
      (checkOperations byTime KvModel log) (c :: past)) (hphase : c.phase = .returned) :
    c.result ≠ .illegal ∧ (timeout ≤ 0 → c.result = .ok) := by
  have hcall := hlog.call_lt_ret htimely hties
  have hserial := hlog.exists_serialization hlin htimely hagrees
  rw [hview] at hserial
  have hanswers := answers_kvModel hcall ht hphase
  have hnot : c.result ≠ .illegal := by
    intro hr
    obtain ⟨subhistory, hsub, hbad⟩ := hanswers.illegal hr
    exact hbad (hties.of_partition hsub)
      ((exists_serialization_plainMap_iff hcall).mp hserial subhistory hsub)
  refine ⟨hnot, fun htimeout => ?_⟩
  cases hr : c.result with
  | ok => rfl
  | illegal => exact absurd hr hnot
  | unknown => exact absurd (hanswers.unknown hr) (by omega)

end ShardRaft.Porcupine
