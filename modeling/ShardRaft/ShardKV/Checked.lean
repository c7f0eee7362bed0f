import ShardRaft.Porcupine.OpLog
import ShardRaft.ShardKV.Linearizability

/-!
# The check of the tests, on the sharded store

`TestUnreliable3` of `test_test.go` records what the clerks' users see while shards move, and
when their calls have returned gives it to the checker.  As the sharded store is linearizable,
this check never fails (`sharded_passes_check`), once no `Put` or `Append` is still running.
-/

namespace ShardRaft.ShardKV

open Lib

/-- The input that the test records. -/
def input : Call → Porcupine.KvInput
  | .get key => ⟨0, key, ""⟩
  | .put key value => ⟨1, key, value⟩
  | .append key value => ⟨2, key, value⟩

namespace Users

theorem agrees : Porcupine.Agrees input .ofResult spec Porcupine.readings := by
  intro m call elem hin hout
  cases call with
  | get key => exact Porcupine.plainMap_get hin hout
  | put key value => exact Porcupine.plainMap_put hin
  | append key value => exact Porcupine.plainMap_append hin

theorem Placed.timely {stamps : List Nat} {u : Users} (h : Placed stamps u) :
    Porcupine.Timely u.moments where
  once := by
    intro i call call' hm hm'
    obtain ⟨k, hk⟩ := List.mem_iff_getElem?.mp hm
    obtain ⟨k', hk'⟩ := List.mem_iff_getElem?.mp hm'
    obtain rfl := h.invoked_once k k' i call call' hk hk'
    exact (Moment.invoke.inj (Option.some.inj (hk.symm.trans hk'))).2
  ordered := by
    intro k l i call res hk hl
    obtain ⟨p, r, t, hr, ht, hle, rfl, -⟩ := h.answered l i res hl
    obtain ⟨k', hk', hinv⟩ := h.before p r t hr ht
    obtain rfl := h.invoked_once k k' _ _ _ hk hinv
    exact hk'.trans_le hle

/-- **The check of the tests passes**, whatever shards have moved.  In every state of every run
whose `AcquireShard` and configuration entries keep the data and what has been applied to it,
once every `Put` and `Append` made until then has returned and is recorded, what the test has
recorded is not illegal, in whatever order the goroutines of the checker run; with no timeout
it is `Ok`. -/
theorem sharded_passes_check (cs : Configs) (u : Users) (before : List Users)
    (h : Trace (step cs) Careful init (u :: before)) (clock : Porcupine.Clock)
    (log : List Porcupine.KvOperation) (hlog : Porcupine.OpLog input .ofResult u.moments clock log)
    (hties : Porcupine.NoTies log)
    (byTime : Porcupine.SortByTime Porcupine.KvInput Porcupine.KvOutput) (computeInfo : Bool)
    (timeout : Int) (check : Porcupine.Check Porcupine.KvInput Porcupine.KvOutput String)
    (past : List (Porcupine.Check Porcupine.KvInput Porcupine.KvOutput String))
    (ht : Trace (Porcupine.Check.step Porcupine.KvModel computeInfo timeout) (fun _ _ => True)
      (Porcupine.checkOperations byTime Porcupine.KvModel log) (check :: past))
    (hphase : check.phase = .returned) :
    check.result ≠ .illegal ∧ (timeout ≤ 0 → check.result = .ok) := by
  have hk := kept_run h
  obtain ⟨stamps, hp⟩ := hk.placed
  obtain ⟨point, hpoint⟩ := exists_point hp
  exact hlog.passes ⟨_, (hk.points hp hpoint).linearizes (legal_effects u)⟩ hp.timely hties
    agrees rfl byTime computeInfo timeout ht hphase

/-- What is recorded of the run in which the shard moves, where the clock counts the moments.
Both writes are recorded, and what clerk 8 has read. -/
def sampleMovedLog : List Porcupine.KvOperation :=
  [Porcupine.samplePut "2" "b" 0 1,
    { clientId := 1, input := ⟨2, "2", "c"⟩, call := 2, output := ⟨""⟩, ret := 4 },
    Porcupine.sampleGet "2" "bc" 3 5]

theorem sharded_passes_check_sampleMoved : ∃ check past,
    run (Porcupine.Check.step Porcupine.KvModel false 0) (fun _ _ => True)
      (Porcupine.checkOperations .insertion Porcupine.KvModel sampleMovedLog)
      (List.replicate 4 (.turn 0) ++ [.receive]) [] = some (check :: past) ∧
    check.result = .ok := by
  have hcheck : runEnds (Porcupine.Check.step Porcupine.KvModel false 0) (fun _ _ => True)
      (Porcupine.checkOperations .insertion Porcupine.KvModel sampleMovedLog)
      (List.replicate 4 (.turn 0) ++ [.receive])
      (fun check _ => decide (check.phase = .returned)) = true := by decide +kernel
  obtain ⟨u, before, -, htr, hu⟩ := exists_of_runEnds sampleMovedUsers_ends
  have hu := of_decide_eq_true hu
  obtain ⟨check, past, hrun, ht, hphase⟩ := exists_of_runEnds hcheck
  let clock : Porcupine.Clock := ⟨fun k => (k : Int), fun _ _ h => Int.ofNat_le.mpr h⟩
  have hlog : Porcupine.OpLog input .ofResult u.moments clock sampleMovedLog := by
    rw [hu]
    refine ⟨[(7, 0), (7, 1), (8, 0)], by decide, ?_, .cons ?_ (.cons ?_ (.cons ?_ .nil))⟩
    · intro i op hi
      left
      simp only [sampleMovedMoments, List.mem_cons, Moment.invoke.injEq, reduceCtorEq,
        List.not_mem_nil, or_false, false_or] at hi ⊢
      exact hi.imp And.left (Or.imp And.left And.left)
    · exact ⟨0, 1, .put "2" "b", none, rfl, rfl, rfl, rfl, le_rfl, le_rfl⟩
    · exact ⟨2, 4, .append "2" "c", none, rfl, rfl, rfl, rfl, le_rfl, le_rfl⟩
    · exact ⟨3, 5, .get "2", some "bc", rfl, rfl, rfl, rfl, le_rfl, le_rfl⟩
  exact ⟨check, past, hrun, (sharded_passes_check _ u before htr clock sampleMovedLog hlog
    (by decide) .insertion false 0 check past ht (of_decide_eq_true hphase)).2 le_rfl⟩

end Users

end ShardRaft.ShardKV
