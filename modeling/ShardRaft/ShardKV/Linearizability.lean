import ShardRaft.Lib.Points
import ShardRaft.ShardKV.Once

/-!
# Linearizability of the sharded store

`Users` adds to the groups what the users of the clerks see: when a call is made, and what
it returns, which is the reply made at some place of `history`.

Every operation has a place in `history`, and the moments know how many operations came
before them (`Placed`).  A write takes effect where it is new, which is one place over all
groups (`Remembered.once`), a read where the reply was made that its clerk has returned.
These are linearization points for the plain map `contents` goes through.
-/

namespace ShardRaft.ShardKV

open ShardRaft.Lib
open ShardRaft.Ctrler (Config NShards)

variable {cs : Configs}

/-- A call on the plain map, and what the user gets. -/
def spec (m : String → Option String) (call : Call) : (String → Option String) × Option String :=
  (call.write m, match call with
    | .get key => some ((m key).getD "")
    | .put _ _ | .append _ _ => none)

/-- What the clerk returns to its user. -/
def Call.returned (call : Call) (reply : KVReplyMsg) : Option String :=
  match call with
  | .get _ => some reply.value
  | .put _ _ | .append _ _ => none

/-- The call is a `Get`. -/
def Call.reads : Call → Bool
  | .get _ => true
  | .put _ _ | .append _ _ => false

/-- The call a request belongs to: its clerk and its number. -/
def Request.id (req : Request) : Int × Int := (req.clientId, req.requestIndex)

/-- A step that a clerk makes for its user. -/
def Event.byUser : Event → Bool
  | .call _ _ | .returns _ => true
  | _ => false

/-- The groups, and what the users have seen. -/
structure Users where
  world : World
  moments : List (Moment (Int × Int) Call (Option String))

/-- What the environment chooses.  `k` is the place of the reply with which the call returns. -/
inductive Users.Event
  | groups (e : ShardKV.Event)
  | call (c : Int) (call : Call)
  | returns (c : Int) (k : Nat)
deriving DecidableEq, Repr

namespace Users

def init : Users := ⟨.init, []⟩

/-- **One step of the groups and their users.** -/
def step (cs : Configs) (u : Users) : Users.Event → Option Users
  | .groups e => if e.byUser then none else do return { u with world := ← u.world.step cs e }
  | .call c call => do
    return {
      world := ← u.world.call c call
      moments := u.moments ++ [.invoke (c, (u.world.clerks c).requestIndex) call] }
  | .returns c k => do
    let req ← (u.world.clerks c).waiting
    let r ← u.world.history[k]?
    if r.request = req ∧ r.reply.good = true then
      return {
        world := ← u.world.returns c
        moments := u.moments ++ [.respond req.id (req.call.returned r.reply)] }
    else none

/-- The groups keep the data and what has been applied to it. -/
def Careful (u : Users) : Users.Event → Prop
  | .groups e => u.world.KeepsRequests e
  | _ => True

instance (u : Users) : DecidablePred u.Careful
  | .groups e => inferInstanceAs (Decidable (u.world.KeepsRequests e))
  | .call _ _ | .returns _ _ => .isTrue trivial

/-! ### Where the operations stand among the moments -/

/-- `stamps` says of every place of `history` how many moments had passed. -/
structure Placed (stamps : List Nat) (u : Users) : Prop where
  length : stamps.length = u.world.history.length
  sorted : stamps.Pairwise (· ≤ ·)
  bound : ∀ t ∈ stamps, t ≤ u.moments.length
  issued : ∀ req ∈ u.world.issued, .invoke req.id req.call ∈ u.moments
  before : ∀ (p : Nat) (r : Applied) (t : Nat), u.world.history[p]? = some r →
    stamps[p]? = some t → ∃ k < t, u.moments[k]? = some (.invoke r.request.id r.request.call)
  fresh : ∀ c i call, .invoke (c, i) call ∈ u.moments → i < (u.world.clerks c).requestIndex
  invoked_once : ∀ (k k' : Nat) i call call', u.moments[k]? = some (.invoke i call) →
    u.moments[k']? = some (.invoke i call') → k = k'
  answered : ∀ (k : Nat) i res, u.moments[k]? = some (.respond i res) →
    ∃ (p : Nat) (r : Applied) (t : Nat), u.world.history[p]? = some r ∧ stamps[p]? = some t ∧
      t ≤ k ∧ r.request.id = i ∧ r.reply.good = true ∧ r.request.call.returned r.reply = res
  settled : ∀ c i res, .respond (c, i) res ∈ u.moments → i < (u.world.clerks c).requestIndex ∧
    ∀ req, (u.world.clerks c).waiting = some req → i < req.requestIndex
  answered_once : ∀ (k k' : Nat) i res res', u.moments[k]? = some (.respond i res) →
    u.moments[k']? = some (.respond i res') → k = k'

variable {u u' : Users} {stamps : List Nat}

theorem placed_init : Placed [] init where
  length := rfl
  sorted := .nil
  bound t ht := absurd ht List.not_mem_nil
  issued req hr := absurd hr List.not_mem_nil
  before p r t h := absurd h (by simp [init, World.init])
  fresh c i call h := absurd h List.not_mem_nil
  invoked_once k k' i call call' h := absurd h (by simp [init])
  answered k i res h := absurd h (by simp [init])
  settled c i res h := absurd h List.not_mem_nil
  answered_once k k' i res res' h := absurd h (by simp [init])

theorem Placed.congr (h : Placed stamps u) (hh : u'.world.history = u.world.history)
    (hi : u'.world.issued = u.world.issued) (hc : u'.world.clerks = u.world.clerks)
    (hm : u'.moments = u.moments) : Placed stamps u' := by
  refine ⟨?_, h.sorted, ?_, ?_, ?_, ?_, ?_, ?_, ?_, ?_⟩
  · rw [hh]; exact h.length
  · rw [hm]; exact h.bound
  · rw [hi, hm]; exact h.issued
  · rw [hh, hm]; exact h.before
  · rw [hm, hc]; exact h.fresh
  · rw [hm]; exact h.invoked_once
  · rw [hm, hh]; exact h.answered
  · rw [hm, hc]; exact h.settled
  · rw [hm]; exact h.answered_once

theorem Placed.apply (h : Placed stamps u) {r : Applied} (hreq : r.request ∈ u.world.issued)
    (hh : u'.world.history = u.world.history ++ [r]) (hi : u'.world.issued = u.world.issued)
    (hc : u'.world.clerks = u.world.clerks) (hm : u'.moments = u.moments) :
    Placed (stamps ++ [u.moments.length]) u' where
  length := by rw [List.length_append, hh, List.length_append, h.length]; rfl
  sorted := by
    rw [List.pairwise_append]
    refine ⟨h.sorted, List.pairwise_singleton .., ?_⟩
    intro t ht t' ht'
    rw [List.mem_singleton.mp ht']
    exact h.bound t ht
  bound := by
    intro t ht
    rw [hm]
    rcases List.mem_append.mp ht with ht | ht
    · exact h.bound t ht
    · exact (List.mem_singleton.mp ht).le
  issued := by rw [hi, hm]; exact h.issued
  before := by
    intro p r' t hp ht
    rw [hh] at hp
    rw [hm]
    rcases getElem?_concat.mp hp with hp | ⟨rfl, rfl⟩
    · have hlt := (List.getElem?_eq_some_iff.mp hp).1
      rw [List.getElem?_append_left (by rw [h.length]; exact hlt)] at ht
      exact h.before p r' t hp ht
    · rw [← h.length, List.getElem?_concat_length] at ht
      obtain ⟨k, hk⟩ := List.mem_iff_getElem?.mp (h.issued _ hreq)
      refine ⟨k, ?_, hk⟩
      rw [← Option.some.inj ht]
      exact (List.getElem?_eq_some_iff.mp hk).1
  fresh := by rw [hm, hc]; exact h.fresh
  invoked_once := by rw [hm]; exact h.invoked_once
  answered := by
    intro k i res hk
    rw [hm] at hk
    obtain ⟨p, r', t, hp, ht, hrest⟩ := h.answered k i res hk
    refine ⟨p, r', t, ?_, ?_, hrest⟩
    · rw [hh, List.getElem?_append_left (List.getElem?_eq_some_iff.mp hp).1]
      exact hp
    · rw [List.getElem?_append_left (List.getElem?_eq_some_iff.mp ht).1]
      exact ht
  settled := by rw [hm, hc]; exact h.settled
  answered_once := by rw [hm]; exact h.answered_once

theorem Placed.call (h : Placed stamps u) {c : Int} {call : Call}
    (hw : (u.world.clerks c).waiting = none) : Placed stamps
      { world := { u.world with
          clerks := Function.update u.world.clerks c ⟨(u.world.clerks c).requestIndex + 1,
            some ⟨c, (u.world.clerks c).requestIndex, call⟩⟩
          issued := u.world.issued ++ [⟨c, (u.world.clerks c).requestIndex, call⟩] }
        moments := u.moments ++ [.invoke (c, (u.world.clerks c).requestIndex) call] } where
  length := h.length
  sorted := h.sorted
  bound t ht := by
    rw [List.length_append]
    exact (h.bound t ht).trans (Nat.le_add_right ..)
  issued := by
    intro req hreq
    rcases List.mem_append.mp hreq with hreq | hreq
    · exact List.mem_append_left _ (h.issued req hreq)
    · rw [List.mem_singleton.mp hreq]
      exact List.mem_append_right _ (List.mem_singleton_self _)
  before := by
    intro p r t hp ht
    obtain ⟨k, hk, hinv⟩ := h.before p r t hp ht
    exact ⟨k, hk, (List.getElem?_append_left (List.getElem?_eq_some_iff.mp hinv).1).trans hinv⟩
  fresh := by
    intro c' i call' hm
    rcases List.mem_append.mp hm with hm | hm
    · have hlt := h.fresh c' i call' hm
      by_cases hc : c' = c
      · subst hc
        simp only [Function.update_self]
        omega
      · simp only [Function.update_of_ne hc]
        exact hlt
    · obtain ⟨hid, -⟩ := Moment.invoke.inj (List.mem_singleton.mp hm)
      obtain ⟨rfl, rfl⟩ := Prod.mk.inj hid
      simp only [Function.update_self]
      omega
  invoked_once := by
    have hnew : ∀ {k : Nat} {i : Int × Int} {call₁ call₂ : Call},
        u.moments[k]? = some (.invoke i call₁) →
        (.invoke (c, (u.world.clerks c).requestIndex) call :
          Moment (Int × Int) Call (Option String)) = .invoke i call₂ → False := by
      intro k i call₁ call₂ hk heq
      obtain ⟨rfl, -⟩ := Moment.invoke.inj heq
      have hlt := h.fresh _ _ _ (List.mem_of_getElem? hk)
      omega
    intro k k' i call₁ call₂ hk hk'
    rcases getElem?_concat.mp hk with hk | ⟨rfl, heq⟩ <;>
      rcases getElem?_concat.mp hk' with hk' | ⟨rfl, heq'⟩
    · exact h.invoked_once k k' i call₁ call₂ hk hk'
    · exact (hnew hk heq').elim
    · exact (hnew hk' heq).elim
    · rfl
  answered := by
    intro k i res hk
    rcases getElem?_concat.mp hk with hk | ⟨-, hk⟩
    · exact h.answered k i res hk
    · exact absurd hk (by simp)
  settled := by
    intro c' i res hm
    rcases List.mem_append.mp hm with hm | hm
    · obtain ⟨hlt, hwait⟩ := h.settled c' i res hm
      by_cases hc : c' = c
      · subst hc
        simp only [Function.update_self]
        refine ⟨by omega, ?_⟩
        intro req hreq
        rw [← Option.some.inj hreq]
        exact hlt
      · simp only [Function.update_of_ne hc]
        exact ⟨hlt, hwait⟩
    · exact absurd (List.mem_singleton.mp hm) (by simp)
  answered_once := by
    intro k k' i res res' hk hk'
    rcases getElem?_concat.mp hk with hk | ⟨-, hk⟩
    · rcases getElem?_concat.mp hk' with hk' | ⟨-, hk'⟩
      · exact h.answered_once k k' i res res' hk hk'
      · exact absurd hk' (by simp)
    · exact absurd hk (by simp)

theorem Placed.returns (h : Placed stamps u) (hacked : Acked u.world) {c : Int} {k₀ : Nat}
    {req : Request} {r : Applied} (hw : (u.world.clerks c).waiting = some req)
    (hr : u.world.history[k₀]? = some r) (hq : r.request = req) (hg : r.reply.good = true) :
    Placed stamps
      { world := { u.world with
          clerks := Function.update u.world.clerks c { u.world.clerks c with waiting := none } }
        moments := u.moments ++ [.respond req.id (req.call.returned r.reply)] } where
  length := h.length
  sorted := h.sorted
  bound t ht := by
    rw [List.length_append]
    exact (h.bound t ht).trans (Nat.le_add_right ..)
  issued req' hreq' := List.mem_append_left _ (h.issued req' hreq')
  before := by
    intro p r' t hp ht
    obtain ⟨k, hk, hinv⟩ := h.before p r' t hp ht
    exact ⟨k, hk, (List.getElem?_append_left (List.getElem?_eq_some_iff.mp hinv).1).trans hinv⟩
  fresh := by
    intro c' i call' hm
    have hlt := h.fresh c' i call' ((List.mem_append.mp hm).resolve_right (by simp))
    by_cases hc : c' = c
    · subst hc
      simp only [Function.update_self]
      exact hlt
    · simp only [Function.update_of_ne hc]
      exact hlt
  invoked_once := by
    intro k k' i call₁ call₂ hk hk'
    rcases getElem?_concat.mp hk with hk | ⟨-, hk⟩
    · rcases getElem?_concat.mp hk' with hk' | ⟨-, hk'⟩
      · exact h.invoked_once k k' i call₁ call₂ hk hk'
      · exact absurd hk' (by simp)
    · exact absurd hk (by simp)
  answered := by
    intro k i res hk
    rcases getElem?_concat.mp hk with hk | ⟨rfl, heq⟩
    · exact h.answered k i res hk
    · obtain ⟨rfl, rfl⟩ := Moment.respond.inj heq
      obtain ⟨t, ht⟩ : ∃ t, stamps[k₀]? = some t :=
        ⟨_, List.getElem?_eq_getElem (by rw [h.length]; exact (List.getElem?_eq_some_iff.mp hr).1)⟩
      exact ⟨k₀, r, t, hr, ht, h.bound t (List.mem_of_getElem? ht), by rw [hq], hg, by rw [hq]⟩
  settled := by
    obtain ⟨hc₀, hlast⟩ := hacked.waiting c req hw
    intro c' i res hm
    have hold : i < (u.world.clerks c').requestIndex ∧
        (c' ≠ c → ∀ req', (u.world.clerks c').waiting = some req' → i < req'.requestIndex) := by
      rcases List.mem_append.mp hm with hm | hm
      · obtain ⟨hlt, hwait⟩ := h.settled c' i res hm
        exact ⟨hlt, fun _ => hwait⟩
      · obtain ⟨hid, -⟩ := Moment.respond.inj (List.mem_singleton.mp hm)
        obtain ⟨rfl, rfl⟩ := Prod.mk.inj hid
        exact ⟨by rw [hc₀]; omega, fun hne => absurd hc₀ hne⟩
    by_cases hc : c' = c
    · subst hc
      simp only [Function.update_self]
      exact ⟨hold.1, fun req' hreq' => absurd hreq' (by simp)⟩
    · simp only [Function.update_of_ne hc]
      exact ⟨hold.1, hold.2 hc⟩
  answered_once := by
    -- what the clerk waits for has not been answered
    have hnew : ∀ {k : Nat} {i : Int × Int} {res res' : Option String},
        u.moments[k]? = some (.respond i res) →
        (.respond req.id (req.call.returned r.reply) :
          Moment (Int × Int) Call (Option String)) = .respond i res' → False := by
      intro k i res res' hk heq
      obtain ⟨rfl, -⟩ := Moment.respond.inj heq
      obtain ⟨-, hwait⟩ := h.settled _ _ _ (List.mem_of_getElem? hk)
      have hlt := hwait req (by rw [(hacked.waiting c req hw).1]; exact hw)
      omega
    intro k k' i res res' hk hk'
    rcases getElem?_concat.mp hk with hk | ⟨rfl, heq⟩ <;>
      rcases getElem?_concat.mp hk' with hk' | ⟨rfl, heq'⟩
    · exact h.answered_once k k' i res res' hk hk'
    · exact (hnew hk heq').elim
    · exact (hnew hk' heq).elim
    · rfl

theorem step_world {e : Users.Event} (hs : u.step cs e = some u') (hok : u.Careful e) :
    ∃ e', u.world.KeepsRequests e' ∧ u.world.step cs e' = some u'.world := by
  cases e with
  | groups e =>
    simp only [step] at hs
    split at hs
    · exact absurd hs (by simp)
    · obtain ⟨w', hw, hs⟩ := Option.bind_eq_some_iff.mp hs
      rw [← Option.some.inj hs]
      exact ⟨e, hok, hw⟩
  | call c call =>
    obtain ⟨w', hw, hs⟩ := Option.bind_eq_some_iff.mp hs
    rw [← Option.some.inj hs]
    exact ⟨.call c call, ⟨⟨trivial, trivial⟩, trivial⟩, hw⟩
  | returns c k =>
    obtain ⟨req, -, hs⟩ := Option.bind_eq_some_iff.mp hs
    obtain ⟨r, -, hs⟩ := Option.bind_eq_some_iff.mp hs
    split at hs
    · obtain ⟨w', hw, hs⟩ := Option.bind_eq_some_iff.mp hs
      rw [← Option.some.inj hs]
      exact ⟨.returns c, ⟨⟨trivial, trivial⟩, trivial⟩, hw⟩
    · exact absurd hs (by simp)

/-- **A step keeps the operations in their places.** -/
theorem Placed.step (h : Placed stamps u) (hacked : Acked u.world) {e : Users.Event}
    (hs : u.step cs e = some u') : ∃ stamps', Placed stamps' u' := by
  cases e with
  | groups e =>
    simp only [Users.step] at hs
    split at hs
    · exact absurd hs (by simp)
    rename_i huser
    obtain ⟨w', hw, hs⟩ := Option.bind_eq_some_iff.mp hs
    rw [← Option.some.inj hs]
    cases World.move_of_step hw with
    | check hst hup => exact ⟨stamps, h.congr rfl rfl rfl rfl⟩
    | query ht hst hp hn => exact ⟨stamps, h.congr rfl rfl rfl rfl⟩
    | propose ht hc hst hp hn => exact ⟨stamps, h.congr rfl rfl rfl rfl⟩
    | install hc => exact ⟨stamps, h.congr rfl rfl rfl rfl⟩
    | request hst hst' hp hl ha => exact ⟨stamps, h.congr rfl rfl rfl rfl⟩
    | answer hq hst hr => exact ⟨stamps, h.congr rfl rfl rfl rfl⟩
    | acquire ha => exact ⟨stamps, h.congr rfl rfl rfl rfl⟩
    | call hc => exact absurd rfl huser
    | apply hreq ha => exact ⟨_, h.apply (List.mem_of_getElem? hreq) rfl rfl rfl rfl⟩
    | returns hc hr hq hg => exact absurd rfl huser
  | call c call =>
    obtain ⟨w', hw, hs⟩ := Option.bind_eq_some_iff.mp hs
    rw [← Option.some.inj hs]
    have hstep : u.world.step cs (.call c call) = some w' := hw
    cases World.move_of_step hstep with
    | call hc => exact ⟨stamps, h.call hc⟩
  | returns c k =>
    obtain ⟨req, hreq, hs⟩ := Option.bind_eq_some_iff.mp hs
    obtain ⟨r, hr, hs⟩ := Option.bind_eq_some_iff.mp hs
    split at hs
    · rename_i hgood
      obtain ⟨w', hw, hs⟩ := Option.bind_eq_some_iff.mp hs
      rw [← Option.some.inj hs]
      have hstep : u.world.step cs (.returns c) = some w' := hw
      cases World.move_of_step hstep with
      | returns _ _ _ _ => exact ⟨stamps, h.returns hacked hreq hr hgood.1 hgood.2⟩
    · exact absurd hs (by simp)

/-- What holds in a careful run. -/
structure Kept (cs : Configs) (u : Users) : Prop where
  kept : ShardKV.Kept cs u.world
  acked : Acked u.world
  remembered : Remembered cs u.world
  reads : Reads u.world
  placed : ∃ stamps, Placed stamps u

theorem kept_init : Kept cs init where
  kept := .init
  acked := .init
  remembered := .init
  reads j r key hj := absurd hj (by simp [init, World.init])
  placed := ⟨[], placed_init⟩

theorem kept_step {e : Users.Event} (h : Kept cs u) (hok : u.Careful e)
    (hs : u.step cs e = some u') : Kept cs u' := by
  obtain ⟨e', hok', hw⟩ := step_world hs hok
  have hm := World.move_of_step hw
  obtain ⟨stamps, hp⟩ := h.placed
  exact ⟨h.kept.move hok'.1 hm, h.acked.move h.kept.inOrder hm,
    h.remembered.move h.kept h.acked hok' hm, reads_move h.kept h.reads hm, hp.step h.acked hs⟩

/-! ### The points -/

section points

/-- The operation at place `p` takes effect there. -/
def TakesEffect (point : Int × Int → Option Nat) (p : Nat) (r : Applied) : Prop :=
  if r.request.call.reads = true then point r.request.id = some p else r.isNew = true

instance (point : Int × Int → Option Nat) (p : Nat) (r : Applied) :
    Decidable (TakesEffect point p r) := by
  unfold TakesEffect
  infer_instance

/-- The call of an operation, with the result it has at place `p`. -/
def effectAt (stamps : List Nat) (history : List Applied) (p : Nat) (r : Applied) :
    Taken (Int × Int) Call (Option String) × Nat :=
  (⟨r.request.id, r.request.call, (spec (contents (history.take p)) r.request.call).2⟩,
    (stamps[p]?).getD 0)

/-- `point` gives an answered call the place of the reply it has returned. -/
def IsPoint (stamps : List Nat) (u : Users) (point : Int × Int → Option Nat) : Prop :=
  ∀ (k : Nat) i res, u.moments[k]? = some (.respond i res) →
    ∃ (p : Nat) (r : Applied) (t : Nat), point i = some p ∧ u.world.history[p]? = some r ∧
      stamps[p]? = some t ∧ t ≤ k ∧ r.request.id = i ∧ r.reply.good = true ∧
      r.request.call.returned r.reply = res

theorem exists_point (h : Placed stamps u) : ∃ point, IsPoint stamps u point := by
  have hid : ∀ i, ∃ o : Option Nat, ∀ (k : Nat) res, u.moments[k]? = some (.respond i res) →
      ∃ (p : Nat) (r : Applied) (t : Nat), o = some p ∧ u.world.history[p]? = some r ∧
        stamps[p]? = some t ∧ t ≤ k ∧ r.request.id = i ∧ r.reply.good = true ∧
        r.request.call.returned r.reply = res := by
    intro i
    by_cases hex : ∃ (k : Nat) (res : Option String), u.moments[k]? = some (.respond i res)
    · obtain ⟨k, res, hk⟩ := hex
      obtain ⟨p, r, t, hrest⟩ := h.answered k i res hk
      refine ⟨some p, ?_⟩
      intro k' res' hk'
      -- a call has one answer
      obtain rfl := h.answered_once k k' i res res' hk hk'
      obtain rfl : res = res' := (Moment.respond.inj (Option.some.inj (hk.symm.trans hk'))).2
      exact ⟨p, r, t, rfl, hrest⟩
    · exact ⟨none, fun k res hk => absurd ⟨k, res, hk⟩ hex⟩
  choose point hpoint using hid
  exact ⟨point, fun k i res hk => hpoint i k res hk⟩

variable {point : Int × Int → Option Nat}

theorem Placed.stamp_le (h : Placed stamps u) {p q t t' : Nat} (ht : stamps[p]? = some t)
    (ht' : stamps[q]? = some t') (hpq : p ≤ q) : t ≤ t' := by
  rcases Nat.eq_or_lt_of_le hpq with rfl | hlt
  · exact (Option.some.inj (ht.symm.trans ht')).le
  · obtain ⟨hp, rfl⟩ := List.getElem?_eq_some_iff.mp ht
    obtain ⟨hq, rfl⟩ := List.getElem?_eq_some_iff.mp ht'
    exact List.pairwise_iff_getElem.mp h.sorted p q hp hq hlt

theorem Placed.exists_stamp (h : Placed stamps u) {p : Nat} {r : Applied}
    (hr : u.world.history[p]? = some r) : ∃ t, stamps[p]? = some t :=
  ⟨_, List.getElem?_eq_getElem (by rw [h.length]; exact (List.getElem?_eq_some_iff.mp hr).1)⟩

theorem Kept.request_eq (h : Kept cs u) {p q : Nat} {r r' : Applied}
    (hr : u.world.history[p]? = some r) (hr' : u.world.history[q]? = some r')
    (hid : r.request.id = r'.request.id) : r.request = r'.request := by
  obtain ⟨hc, hi⟩ := Prod.mk.inj hid
  exact h.acked.unique _ (h.acked.applied r (List.mem_of_getElem? hr)) _
    (h.acked.applied r' (List.mem_of_getElem? hr')) hc hi

theorem spec_of_not_reads {call : Call} (h : call.reads = false) (m : String → Option String)
    (reply : KVReplyMsg) : (spec m call).2 = call.returned reply := by
  cases call with
  | get key => exact absurd h (by simp [Call.reads])
  | put key value => rfl
  | append key value => rfl

theorem write_of_reads {call : Call} (h : call.reads = true) (m : String → Option String) :
    call.write m = m := by
  cases call with
  | get key => rfl
  | put key value => exact absurd h (by simp [Call.reads])
  | append key value => exact absurd h (by simp [Call.reads])

/-- **The places where operations take effect are points of the history.** -/
theorem Kept.points (h : Kept cs u) (hp : Placed stamps u) (hpoint : IsPoint stamps u point) :
    Points u.moments (points (TakesEffect point) (effectAt stamps u.world.history)
      u.world.history) where
  once := by
    unfold List.Nodup
    rw [List.pairwise_map]
    refine pairwise_points ?_
    intro p q r r' hpq hr hr' he he' hid
    have hreq := h.request_eq hr hr' hid
    unfold TakesEffect at he he'
    rw [← hreq] at he'
    split at he
    · rename_i hreads
      rw [if_pos hreads] at he'
      have := Option.some.inj (he.symm.trans he')
      omega
    · rename_i hreads
      rw [if_neg hreads] at he'
      have := h.remembered.once p q r r' hr hr' he he' hreq
      omega
  sorted := by
    refine pairwise_points ?_
    intro p q r r' hpq hr hr' _ _
    obtain ⟨t, ht⟩ := hp.exists_stamp hr
    obtain ⟨t', ht'⟩ := hp.exists_stamp hr'
    simp only [effectAt, ht, ht', Option.getD_some]
    exact hp.stamp_le ht ht' hpq.le
  invoked := by
    intro x hx
    obtain ⟨p, r, hr, -, rfl⟩ := mem_points.mp hx
    obtain ⟨t, ht⟩ := hp.exists_stamp hr
    simp only [effectAt, ht, Option.getD_some]
    exact hp.before p r t hr ht
  invoked_once := hp.invoked_once
  answered := by
    intro k i res hk
    obtain ⟨p, r, t, hpt, hr, ht, hle, hid, hgood, hres⟩ := hpoint k i res hk
    cases hreads : r.request.call.reads with
    | true =>
      refine ⟨_, mem_points.mpr ⟨p, r, hr, ?_, rfl⟩, hid, ?_, ?_⟩
      · rw [TakesEffect, if_pos hreads, hid]
        exact hpt
      · rw [← hres]
        cases hcall : r.request.call with
        | get key =>
          rw [h.reads p r key hr hcall hgood]
          simp only [effectAt, hcall, spec, Call.returned, Call.answer]
          cases contents (u.world.history.take p) key <;> rfl
        | put key value => rw [hcall] at hreads; exact absurd hreads (by simp [Call.reads])
        | append key value => rw [hcall] at hreads; exact absurd hreads (by simp [Call.reads])
      · simp only [effectAt, ht, Option.getD_some]
        exact hle
    | false =>
      -- a write takes effect where it was new
      obtain ⟨q, hqp, r', hr', hnew, hreq⟩ := h.acked.good p r hr hgood
      obtain ⟨t', ht'⟩ := hp.exists_stamp hr'
      refine ⟨_, mem_points.mpr ⟨q, r', hr', ?_, rfl⟩, ?_, ?_, ?_⟩
      · rw [TakesEffect, hreq, if_neg (by rw [hreads]; simp)]
        exact hnew
      · rw [← hid, ← hreq]
        rfl
      · rw [← hres, ← hreq]
        exact spec_of_not_reads (by rw [hreq]; exact hreads) _ _
      · simp only [effectAt, ht', Option.getD_some]
        exact (hp.stamp_le ht' ht hqp).trans hle

/-- **They are legal**: an operation that takes no effect leaves the plain map alone. -/
theorem legal_effects (u : Users) : Legal spec (fun _ => none)
    ((points (TakesEffect point) (effectAt stamps u.world.history)
      u.world.history).map Prod.fst) := by
  refine legal_points (fun p => contents (u.world.history.take p)) (fun _ _ _ _ => rfl) ?_
  intro p r hr
  dsimp only [effectAt, spec]
  rw [List.take_add_one, hr, Option.toList_some, contents_concat]
  by_cases hreads : r.request.call.reads = true
  · rw [write_of_reads hreads, ite_self, ite_self]
  · have hiff : TakesEffect point p r ↔ r.isNew = true := by rw [TakesEffect, if_neg hreads]
    by_cases hnew : r.isNew = true
    · rw [if_pos hnew, if_pos (hiff.mpr hnew)]
    · rw [if_neg hnew, if_neg fun he => hnew (hiff.mp he)]

end points

theorem kept_run {cs : Configs} {u : Users} {past : List Users}
    (h : Trace (step cs) Careful init (u :: past)) : Kept cs u :=
  Trace.invariant (I := Kept cs) kept_init (fun _ _ _ hk hok hs => kept_step hk hok hs) _ h u
    (List.mem_cons_self ..)

/-- **The sharded store is linearizable.**  In every state of every run whose `AcquireShard`
and configuration entries keep the data and what has been applied to it, what the users of
the clerks have seen is linearizable with respect to one plain map, whatever shards have
moved between whatever groups. -/
theorem sharded_linearizable (cs : Configs) (u : Users) (past : List Users)
    (h : Trace (step cs) Careful init (u :: past)) :
    Linearizable spec (fun _ => none) u.moments := by
  have hk := kept_run h
  obtain ⟨stamps, hp⟩ := hk.placed
  obtain ⟨point, hpoint⟩ := exists_point hp
  exact ⟨_, (hk.points hp hpoint).linearizes (legal_effects u)⟩

/-- Clerk 7 writes twice in group 1.  The answer to the second call is lost, the shard moves
to group 2, and there the call is tried again; clerk 8 reads. -/
def sampleMovedUsers : List Users.Event :=
  (round (gid 0) 0 0 1).map .groups ++
    [.call 7 (.put "2" "b"), .groups (.apply (gid 0) 0), .returns 7 0, .call 7 (.append "2" "c"),
      .groups (.apply (gid 0) 1), .call 8 (.get "2")] ++
    (round (gid 1) 0 1 1 ++ round (gid 1) 1 2 2 ++ round (gid 0) 3 3 2).map .groups ++
    [.groups (.request (gid 1) 2 2 ⟨0, Ctrler.NShards_pos⟩), .groups (.answer 0 4),
      .groups (.acquire 0), .groups (.apply (gid 1) 1), .groups (.apply (gid 1) 2),
      .returns 7 2, .returns 8 3]

/-- What they see. -/
def sampleMovedMoments : List (Moment (Int × Int) Call (Option String)) :=
  [.invoke (7, 0) (.put "2" "b"), .respond (7, 0) none, .invoke (7, 1) (.append "2" "c"),
    .invoke (8, 0) (.get "2"), .respond (7, 1) none, .respond (8, 0) (some "bc")]

theorem sampleMovedUsers_ends : runEnds (step (oneShard [0, 1, 2])) Careful init sampleMovedUsers
    (fun u _ => decide (u.moments = sampleMovedMoments)) = true := by
  decide +kernel

theorem sharded_linearizable_sampleMovedUsers :
    Linearizable spec (fun _ => none) sampleMovedMoments := by
  obtain ⟨u, past, -, ht, hp⟩ := exists_of_runEnds sampleMovedUsers_ends
  rw [← of_decide_eq_true hp]
  exact sharded_linearizable _ u past ht

end Users

end ShardRaft.ShardKV
