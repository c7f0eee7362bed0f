import ShardRaft.KV.EndToEnd
import ShardRaft.Porcupine.OpLog

/-!
# The check of the tests, on the key/value service

`test_test.go` records what the clerks' users see and, when the calls have returned, gives it
to the checker.  As the service on top of Raft is linearizable, this check never fails
(`passes_check`).  A `Put` that still runs is not recorded and may have been read, so it is
asked that none does.
-/

namespace ShardRaft.KV

open ShardRaft.Lib

variable {n : Nat} {β : Type}

/-- The input that `Get`, `Put` and `Append` of the tests record. -/
def input : Call → Porcupine.KvInput
  | .get key => ⟨0, key, ""⟩
  | .put key value => ⟨1, key, value⟩
  | .append key value => ⟨2, key, value⟩

theorem agrees : Porcupine.Agrees input .ofResult spec Porcupine.readings := by
  intro m call elem hin hout
  cases call with
  | get key => exact Porcupine.plainMap_get hin hout
  | put key value => exact Porcupine.plainMap_put hin
  | append key value => exact Porcupine.plainMap_append hin

theorem Inv.timely {own : Fin n → Nat → Nat × Int} {stamps : List Nat} {w : World n}
    (h : Inv own stamps w) : Porcupine.Timely w.history where
  once := h.clients.invoked_once
  ordered := by
    intro k l id call res hk hl
    obtain ⟨p, op, t, hop, rfl, ht, hle, -⟩ := h.placed.responded l id res hl
    exact (h.placed.before p op t hop ht k call hk).trans_le hle

namespace Cluster

/-- **The check of the tests passes.**  In every state of every careful run of the clerks, the
servers and the Raft peers, once every `Put` and `Append` made until then has returned and is
recorded, what the tests have recorded is not illegal, in whatever order the goroutines of the
checker run; with no timeout it is `Ok`. -/
theorem passes_check [NeZero n] (labgob : Codec Encoded β) (maxraftstate : Int)
    (tr : List (Cluster n β)) (h : Trace (step labgob maxraftstate) Careful init tr)
    (c : Cluster n β) (hc : c ∈ tr) (clock : Porcupine.Clock)
    (log : List Porcupine.KvOperation)
    (hlog : Porcupine.OpLog input .ofResult c.front.history clock log)
    (hties : Porcupine.NoTies log)
    (byTime : Porcupine.SortByTime Porcupine.KvInput Porcupine.KvOutput) (computeInfo : Bool)
    (timeout : Int) (check : Porcupine.Check Porcupine.KvInput Porcupine.KvOutput String)
    (past : List (Porcupine.Check Porcupine.KvInput Porcupine.KvOutput String))
    (ht : Trace (Porcupine.Check.step Porcupine.KvModel computeInfo timeout) (fun _ _ => True)
      (Porcupine.checkOperations byTime Porcupine.KvModel log) (check :: past))
    (hphase : check.phase = .returned) :
    check.result ≠ .illegal ∧ (timeout ≤ 0 → check.result = .ok) := by
  obtain ⟨own, stamps, hi⟩ := inv_run tr h c hc
  obtain ⟨point, hpoint⟩ := exists_point hi.front
  exact hlog.passes ⟨_, linearizes_order hi.front hpoint⟩ hi.front.timely hties agrees rfl
    byTime computeInfo timeout ht hphase

/-- What the tests record of the run with the takeover, where the clock counts the moments. -/
def sampleLog : List Porcupine.KvOperation :=
  [Porcupine.samplePut "k" "v" 0 1, Porcupine.sampleGet "k" "v" 2 3]

theorem passes_check_sampleTakeover : ∃ check past,
    run (Porcupine.Check.step Porcupine.KvModel true 0) (fun _ _ => True)
      (Porcupine.checkOperations .insertion Porcupine.KvModel sampleLog)
      (List.replicate 3 (.turn 0) ++ [.receive]) [] = some (check :: past) ∧
    check.result = .ok := by
  have hcheck : runEnds (Porcupine.Check.step Porcupine.KvModel true 0) (fun _ _ => True)
      (Porcupine.checkOperations .insertion Porcupine.KvModel sampleLog)
      (List.replicate 3 (.turn 0) ++ [.receive])
      (fun check _ => decide (check.phase = .returned)) = true := by decide +kernel
  obtain ⟨c, past, -, htr, hl⟩ := exists_of_runEnds sampleTakeover_ends
  have hl := of_decide_eq_true hl
  obtain ⟨check, past', hrun, ht, hphase⟩ := exists_of_runEnds hcheck
  let clock : Porcupine.Clock := ⟨fun k => (k : Int), fun _ _ h => Int.ofNat_le.mpr h⟩
  have hlog : Porcupine.OpLog input .ofResult c.front.history clock sampleLog := by
    rw [hl]
    refine ⟨[(5, 1), (5, 2)], by decide, ?_, .cons ?_ (.cons ?_ .nil)⟩
    · intro i op hi
      left
      simp only [List.mem_cons, Moment.invoke.injEq, reduceCtorEq, List.not_mem_nil, or_false,
        false_or] at hi ⊢
      exact hi.imp And.left And.left
    · exact ⟨0, 1, .put "k" "v", none, rfl, rfl, rfl, rfl, le_rfl, le_rfl⟩
    · exact ⟨2, 3, .get "k", some "v", rfl, rfl, rfl, rfl, le_rfl, le_rfl⟩
  exact ⟨check, past', hrun, (passes_check sampleLabgob 0 _ htr c (List.mem_cons_self ..) clock
    sampleLog hlog (by decide) .insertion true 0 check past' ht (of_decide_eq_true hphase)).2 le_rfl⟩

end Cluster

end ShardRaft.KV
