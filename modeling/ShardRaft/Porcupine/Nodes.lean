import Mathlib.Logic.Function.Basic
import ShardRaft.Lib.Lists

/-!
# Histories and linked entries

The data of the linearizability checker, `model.go` and the first half of `checker.go` of
`porcupine`.  A node is its address in a `Memory`: entry `i` of a history is at address `i`,
and the head of the list behind the last entry.  `nil` is `none` for a pointer, and for the
end of the process by a `nil` dereference.

`Chain` says that the nodes of a list are linked in both directions.  Taking a node out of a
list leaves its own pointers alone, so it can be put back where it was, as long as the list is
as it was right after (`Chain.unlink`): with that `unlift` undoes `lift` (`unlift_of_lift`).
-/

namespace ShardRaft.Porcupine

variable {ι ω σ : Type}

/-- `Operation`. -/
structure Operation (ι ω : Type) where
  clientId : Int := 0
  input : ι
  call : Int
  output : ω
  ret : Int
deriving DecidableEq, Repr

/-- `Model`, as far as it is used to check. -/
structure Model (ι ω σ : Type) where
  partition : List (Operation ι ω) → List (List (Operation ι ω))
  init : σ
  step : σ → ι → ω → Bool × σ
  equal : σ → σ → Bool

/-- `NoPartition`. -/
def NoPartition (history : List (Operation ι ω)) : List (List (Operation ι ω)) := [history]

/-- `ShallowEqual`. -/
def ShallowEqual [DecidableEq σ] (state1 state2 : σ) : Bool := decide (state1 = state2)

/-- What an entry holds. -/
inductive Value (ι ω : Type)
  | input (input : ι)
  | output (output : ω)
deriving DecidableEq, Repr

/-- `entryKind`. -/
inductive EntryKind
  | callEntry
  | returnEntry
deriving DecidableEq, Repr

/-- `entry`. -/
structure Entry (ι ω : Type) where
  kind : EntryKind
  value : Value ι ω
  id : Nat
  time : Int
  clientId : Int
deriving DecidableEq, Repr

/-- The loop of `makeEntries`, from operation `id` on. -/
def appendEntries (id : Nat) : List (Operation ι ω) → List (Entry ι ω)
  | [] => []
  | elem :: history =>
    ⟨.callEntry, .input elem.input, id, elem.call, elem.clientId⟩ ::
      ⟨.returnEntry, .output elem.output, id, elem.ret, elem.clientId⟩ ::
        appendEntries (id + 1) history

/-- `sort.Sort(byTime(entries))`: in which order entries of the same time come out is open. -/
structure SortByTime (ι ω : Type) where
  sort : List (Entry ι ω) → List (Entry ι ω)
  perm : ∀ entries, (sort entries).Perm entries
  sorted : ∀ entries, (sort entries).Pairwise fun a b => a.time ≤ b.time

/-- `makeEntries`. -/
def makeEntries (byTime : SortByTime ι ω) (history : List (Operation ι ω)) : List (Entry ι ω) :=
  byTime.sort (appendEntries 0 history)

/-! ### Nodes -/

/-- What does not change in a `node`: `matching` is the return of a call. -/
structure Label (ι ω : Type) where
  value : Option (Value ι ω)
  matching : Option Nat
  id : Int
deriving DecidableEq, Repr

/-- `node`. -/
structure Node (ι ω : Type) extends Label ι ω where
  next : Option Nat := none
  prev : Option Nat := none
deriving DecidableEq, Repr

/-- The nodes. -/
structure Memory (ι ω : Type) where
  node : Nat → Node ι ω

instance : CoeFun (Memory ι ω) fun _ => Nat → Node ι ω := ⟨Memory.node⟩

/-- `&node{value: nil, match: nil, id: -1}`. -/
def headNode : Node ι ω := { value := none, matching := none, id := -1 }

namespace Memory

def update (m : Memory ι ω) (n : Nat) (x : Node ι ω) : Memory ι ω := ⟨Function.update m n x⟩

def setNext (m : Memory ι ω) (n : Nat) (next : Option Nat) : Memory ι ω :=
  m.update n { m n with next := next }

def setPrev (m : Memory ι ω) (n : Nat) (prev : Option Nat) : Memory ι ω :=
  m.update n { m n with prev := prev }

/-- `insertBefore`. -/
def insertBefore (m : Memory ι ω) (n : Nat) : Option Nat → Memory ι ω
  | none => m
  | some mark =>
    let beforeMark := (m mark).prev
    let m := m.setPrev mark (some n)
    let m := m.setNext n (some mark)
    match beforeMark with
    | none => m
    | some beforeMark =>
      let m := m.setPrev n (some beforeMark)
      m.setNext beforeMark (some n)

/-- `lift`. -/
def lift (m : Memory ι ω) (entry : Nat) : Option (Memory ι ω) := do
  let prev ← (m entry).prev
  let m := m.setNext prev (m entry).next
  let next ← (m entry).next
  let m := m.setPrev next (m entry).prev
  let matching ← (m entry).matching
  let prev ← (m matching).prev
  let m := m.setNext prev (m matching).next
  match (m matching).next with
  | none => return m
  | some next => return m.setPrev next (m matching).prev

/-- `unlift`. -/
def unlift (m : Memory ι ω) (entry : Nat) : Option (Memory ι ω) := do
  let matching ← (m entry).matching
  let prev ← (m matching).prev
  let m := m.setNext prev (some matching)
  let m := match (m matching).next with
    | none => m
    | some next => m.setPrev next (some matching)
  let prev ← (m entry).prev
  let m := m.setNext prev (some entry)
  let next ← (m entry).next
  return m.setPrev next (some entry)

/-- `length`; `fuel` bounds the loop. -/
def length (m : Memory ι ω) : Nat → Option Nat → Nat
  | fuel + 1, some n => length m fuel (m n).next + 1
  | _, _ => 0

end Memory

/-- What the loop of `makeLinkedEntries` keeps: the nodes, `root` and `match`. -/
structure Linked (ι ω : Type) where
  memory : Memory ι ω
  root : Option Nat
  matching : Nat → Option Nat

/-- The loop of `makeLinkedEntries`, which goes from the last entry to the first.  The entries
here are those from index `i` on. -/
def linkEntries (i : Nat) : List (Entry ι ω) → Linked ι ω
  | [] => ⟨⟨fun _ => headNode⟩, none, fun _ => none⟩
  | elem :: entries =>
    let l := linkEntries (i + 1) entries
    match elem.kind with
    | .returnEntry =>
      let m := l.memory.update i { value := some elem.value, matching := none, id := elem.id }
      ⟨m.insertBefore i l.root, some i, Function.update l.matching elem.id (some i)⟩
    | .callEntry =>
      let m := l.memory.update i
        { value := some elem.value, matching := l.matching elem.id, id := elem.id }
      ⟨m.insertBefore i l.root, some i, l.matching⟩

/-- `makeLinkedEntries`. -/
def makeLinkedEntries (entries : List (Entry ι ω)) : Linked ι ω := linkEntries 0 entries

namespace Memory

/-! ### Pointers -/

variable {m m' : Memory ι ω} {a b n : Nat} {x : Option Nat}

@[simp] theorem update_self (x : Node ι ω) : m.update n x n = x := Function.update_self ..

theorem update_of_ne (h : a ≠ n) (x : Node ι ω) : m.update n x a = m a :=
  Function.update_of_ne h ..

@[simp] theorem setNext_toLabel : (m.setNext n x a).toLabel = (m a).toLabel := by
  by_cases h : a = n
  · rw [h, setNext, update_self]
  · rw [setNext, update_of_ne h]

@[simp] theorem setPrev_toLabel : (m.setPrev n x a).toLabel = (m a).toLabel := by
  by_cases h : a = n
  · rw [h, setPrev, update_self]
  · rw [setPrev, update_of_ne h]

@[simp] theorem setNext_prev : (m.setNext n x a).prev = (m a).prev := by
  by_cases h : a = n
  · rw [h, setNext, update_self]
  · rw [setNext, update_of_ne h]

@[simp] theorem setPrev_next : (m.setPrev n x a).next = (m a).next := by
  by_cases h : a = n
  · rw [h, setPrev, update_self]
  · rw [setPrev, update_of_ne h]

theorem setNext_next : (m.setNext n x a).next = if a = n then x else (m a).next := by
  by_cases h : a = n
  · rw [h, setNext, update_self, if_pos rfl]
  · rw [setNext, update_of_ne h, if_neg h]

theorem setPrev_prev : (m.setPrev n x a).prev = if a = n then x else (m a).prev := by
  by_cases h : a = n
  · rw [h, setPrev, update_self, if_pos rfl]
  · rw [setPrev, update_of_ne h, if_neg h]

theorem ext_nodes (hl : ∀ a, (m a).toLabel = (m' a).toLabel) (hn : ∀ a, (m a).next = (m' a).next)
    (hp : ∀ a, (m a).prev = (m' a).prev) : m = m' := by
  obtain ⟨f⟩ := m
  obtain ⟨g⟩ := m'
  refine congrArg Memory.mk (funext fun a => ?_)
  have h1 := hl a
  have h2 := hn a
  have h3 := hp a
  dsimp only at h1 h2 h3
  generalize f a = x at h1 h2 h3
  generalize g a = y at h1 h2 h3
  cases x
  cases y
  dsimp only at h1 h2 h3
  rw [h1, h2, h3]

/-- After `n` come the nodes of the list, linked in both directions, and then nothing. -/
def Chain (m : Memory ι ω) : Nat → List Nat → Prop
  | n, [] => (m n).next = none
  | n, a :: l => (m n).next = some a ∧ (m a).prev = some n ∧ Chain m a l

namespace Chain

variable {l pre post : List Nat}

theorem next_eq (h : Chain m n l) : (m n).next = l.head? := by
  cases l with
  | nil => exact h
  | cons a l => exact h.1

theorem prev_head (h : Chain m n l) : ∀ a ∈ l.head?, (m a).prev = some n := by
  intro a ha
  cases l with
  | nil => exact absurd ha (by simp)
  | cons b l =>
    obtain rfl : b = a := Option.some.inj ha
    exact h.2.1

theorem getLastD_mem (l : List Nat) (n : Nat) : l.getLastD n ∈ n :: l := by
  induction l generalizing n with
  | nil => exact List.mem_singleton_self n
  | cons a l ih =>
    rw [List.getLastD_cons]
    exact List.mem_cons_of_mem _ (ih a)

theorem split (h : Chain m n (pre ++ a :: post)) : (m (pre.getLastD n)).next = some a ∧
    (m a).prev = some (pre.getLastD n) ∧ Chain m a post := by
  induction pre generalizing n with
  | nil => exact h
  | cons b pre ih =>
    rw [List.getLastD_cons]
    exact ih h.2.2

/-- The pointers between these nodes are all that matters. -/
theorem congr (h : Chain m n l) (hn : ∀ a ∈ n :: l, (m' a).next = (m a).next)
    (hp : ∀ a ∈ l, (m' a).prev = (m a).prev) : Chain m' n l := by
  induction l generalizing n with
  | nil => exact (hn n (List.mem_cons_self ..)).trans h
  | cons a l ih =>
    refine ⟨(hn n (List.mem_cons_self ..)).trans h.1, ?_, ?_⟩
    · exact (hp a (List.mem_cons_self ..)).trans h.2.1
    · exact ih h.2.2 (fun b hb => hn b (List.mem_cons_of_mem _ hb))
        fun b hb => hp b (List.mem_cons_of_mem _ hb)

end Chain

/-! ### Taking a node out and putting it back -/

/-- One of the two halves of `lift`. -/
def unlink (m : Memory ι ω) (n : Nat) : Option (Memory ι ω) := do
  let prev ← (m n).prev
  let m := m.setNext prev (m n).next
  match (m n).next with
  | none => return m
  | some next => return m.setPrev next (m n).prev

/-- One of the two halves of `unlift`. -/
def relink (m : Memory ι ω) (n : Nat) : Option (Memory ι ω) := do
  let prev ← (m n).prev
  let m := m.setNext prev (some n)
  match (m n).next with
  | none => return m
  | some next => return m.setPrev next (some n)

variable {l pre post : List Nat}

theorem unlink_spec (hprev : (m a).prev = some b) (hab : a ≠ b) :
    ∃ m', unlink m a = some m' ∧ (∀ c, (m' c).toLabel = (m c).toLabel) ∧
      (∀ c, (m' c).next = if c = b then (m a).next else (m c).next) ∧
      ∀ c, (m' c).prev = if (m a).next = some c then some b else (m c).prev := by
  have hself (x : Option Nat) : (m.setNext b x a).next = (m a).next := by
    rw [setNext_next, if_neg hab]
  cases hq : (m a).next with
  | none =>
    refine ⟨m.setNext b none, ?_, fun c => by simp, fun c => setNext_next, ?_⟩
    · simp only [unlink, hprev, Option.bind_eq_bind, Option.bind_some, hself, hq, Option.pure_def]
    · intro c
      rw [setNext_prev, if_neg (by simp)]
  | some q =>
    refine ⟨(m.setNext b (some q)).setPrev q (some b), ?_, fun c => by simp, ?_, ?_⟩
    · simp only [unlink, hprev, Option.bind_eq_bind, Option.bind_some, hself, hq, Option.pure_def,
        setNext_prev]
    · intro c
      rw [setPrev_next, setNext_next]
    · intro c
      rw [setPrev_prev, setNext_prev]
      simp only [Option.some.injEq, eq_comm (a := c)]

theorem relink_spec (hprev : (m a).prev = some b) (hab : a ≠ b) :
    ∃ m', relink m a = some m' ∧ (∀ c, (m' c).toLabel = (m c).toLabel) ∧
      (∀ c, (m' c).next = if c = b then some a else (m c).next) ∧
      ∀ c, (m' c).prev = if (m a).next = some c then some a else (m c).prev := by
  have hself : (m.setNext b (some a) a).next = (m a).next := by rw [setNext_next, if_neg hab]
  cases hq : (m a).next with
  | none =>
    refine ⟨m.setNext b (some a), ?_, fun c => by simp, fun c => setNext_next, ?_⟩
    · simp only [relink, hprev, Option.bind_eq_bind, Option.bind_some, hself, hq, Option.pure_def]
    · intro c
      rw [setNext_prev, if_neg (by simp)]
  | some q =>
    refine ⟨(m.setNext b (some a)).setPrev q (some a), ?_, fun c => by simp, ?_, ?_⟩
    · simp only [relink, hprev, Option.bind_eq_bind, Option.bind_some, hself, hq, Option.pure_def]
    · intro c
      rw [setPrev_next, setNext_next]
    · intro c
      rw [setPrev_prev, setNext_prev]
      simp only [Option.some.injEq, eq_comm (a := c)]

namespace Chain

/-- Where the pointers around a node have been led past it, it is out of the list. -/
theorem of_unlink (h : Chain m n (pre ++ a :: post)) (hn : (n :: (pre ++ a :: post)).Nodup)
    (hnext : ∀ c, (m' c).next = if c = pre.getLastD n then (m a).next else (m c).next)
    (hprev : ∀ c, (m' c).prev =
      if (m a).next = some c then some (pre.getLastD n) else (m c).prev) :
    Chain m' n (pre ++ post) := by
  induction pre generalizing n with
  | nil =>
    obtain ⟨-, -, hpost⟩ := h
    obtain ⟨hnot, hn⟩ := List.nodup_cons.mp hn
    rw [hpost.next_eq] at hnext hprev
    cases post with
    | nil =>
      have hn' := hnext n
      rwa [List.getLastD_nil, if_pos rfl] at hn'
    | cons q post =>
      refine ⟨?_, ?_, hpost.2.2.congr ?_ ?_⟩
      · have hn' := hnext n
        rwa [List.getLastD_nil, if_pos rfl] at hn'
      · have hq := hprev q
        rwa [List.head?_cons, if_pos rfl, List.getLastD_nil] at hq
      · intro c hc
        have hcn : c ≠ n := fun heq => hnot (List.mem_cons_of_mem _ (heq ▸ hc))
        rw [hnext, List.getLastD_nil, if_neg hcn]
      · intro c hc
        have hcq : q ≠ c := by
          rintro rfl
          exact (List.nodup_cons.mp (List.nodup_cons.mp hn).2).1 hc
        rw [hprev, List.head?_cons, if_neg (by simpa using hcq)]
  | cons b pre ih =>
    obtain ⟨hnot, hn⟩ := List.nodup_cons.mp hn
    have hlast : pre.getLastD b ∈ b :: (pre ++ a :: post) :=
      List.mem_append_left _ (getLastD_mem pre b)
    have hpost : Chain m a post := (split h.2.2).2.2
    rw [List.getLastD_cons] at hnext hprev
    refine ⟨?_, ?_, ih h.2.2 hn hnext hprev⟩
    · have hne : n ≠ pre.getLastD b := by
        intro heq
        rw [← heq] at hlast
        exact hnot hlast
      rw [hnext, if_neg hne]
      exact h.1
    · have hb : b ∉ post := by
        intro hb
        exact (List.nodup_cons.mp hn).1 (List.mem_append_right _ (List.mem_cons_of_mem _ hb))
      have hne : ¬ post.head? = some b := fun heq => hb (List.mem_of_mem_head? heq)
      rw [hprev, hpost.next_eq, if_neg hne]
      exact h.2.1

/-- A node that is taken out can be put back. -/
theorem relink_of_unlink (h : Chain m n (pre ++ a :: post)) (hn : (n :: (pre ++ a :: post)).Nodup) :
    ∃ m', unlink m a = some m' ∧ (∀ c, (m' c).toLabel = (m c).toLabel) ∧
      (m' a).prev = (m a).prev ∧ (m' a).next = (m a).next ∧ Chain m' n (pre ++ post) ∧
      relink m' a = some m := by
  obtain ⟨hbefore, hprev, hpost⟩ := h.split
  have hnot : ∀ c ∈ n :: pre, a ≠ c := by
    rw [← List.cons_append] at hn
    intro c hc heq
    exact (List.nodup_append.mp hn).2.2 c hc a (List.mem_cons_self ..) heq.symm
  have hab : a ≠ pre.getLastD n := hnot _ (getLastD_mem pre n)
  obtain ⟨m', hm', hlabel, hnext', hprev'⟩ := unlink_spec hprev hab
  have hself : ¬ (m a).next = some a := by
    rw [hpost.next_eq]
    intro heq
    have hn' := (List.nodup_append.mp (List.nodup_cons.mp hn).2).2.1
    exact (List.nodup_cons.mp hn').1 (List.mem_of_mem_head? heq)
  have hprevA : (m' a).prev = some (pre.getLastD n) := by rw [hprev', if_neg hself, hprev]
  have hnextA : (m' a).next = (m a).next := by rw [hnext', if_neg hab]
  refine ⟨m', hm', hlabel, hprevA.trans hprev.symm, hnextA, h.of_unlink hn hnext' hprev', ?_⟩
  obtain ⟨m₂, hm₂, hlabel₂, hnext₂, hprev₂⟩ := relink_spec hprevA hab
  rw [hm₂]
  refine congrArg some (ext_nodes (fun c => (hlabel₂ c).trans (hlabel c)) ?_ ?_)
  · intro c
    rw [hnext₂, hnext']
    by_cases hc : c = pre.getLastD n
    · rw [if_pos hc, hc, hbefore]
    · rw [if_neg hc, if_neg hc]
  · intro c
    rw [hprev₂, hprev', hnextA]
    by_cases hc : (m a).next = some c
    · rw [if_pos hc]
      exact (hpost.prev_head c (hpost.next_eq ▸ hc)).symm
    · rw [if_neg hc, if_neg hc]

theorem lift_eq {x p q r : Nat} (hprev : (m x).prev = some p) (hne : x ≠ p)
    (hnext : (m x).next = some q) (hmatch : (m x).matching = some r) :
    m.lift x = (unlink m x).bind fun m => unlink m r := by
  have hself (y : Option Nat) : (m.setNext p y x).next = (m x).next := by
    rw [setNext_next, if_neg hne]
  have hmatch' : (((m.setNext p (some q)).setPrev q (some p)) x).matching = some r := by
    simp [hmatch]
  simp only [lift, unlink, hprev, hnext, Option.bind_eq_bind, Option.bind_some, hself,
    setNext_prev, hmatch', Option.pure_def]

theorem unlift_eq {x p q r : Nat} (hmatch : (m x).matching = some r) (hm' : relink m r = some m')
    (hprev : (m' x).prev = some p) (hne : x ≠ p) (hnext : (m' x).next = some q) :
    m.unlift x = relink m' x := by
  have hself (y : Option Nat) : (m'.setNext p y x).next = (m' x).next := by
    rw [setNext_next, if_neg hne]
  obtain ⟨p', hp', h⟩ := Option.bind_eq_some_iff.mp hm'
  dsimp only at h
  simp only [unlift, relink, hmatch, hp', Option.bind_eq_bind, Option.bind_some]
  cases hr : (m.setNext p' (some r) r).next with
  | none =>
    rw [hr] at h
    obtain rfl := Option.some.inj h
    simp only [hprev, hnext, hself, Option.bind_some]
  | some s =>
    rw [hr] at h
    obtain rfl := Option.some.inj h
    simp only [hprev, hnext, hself, Option.bind_some]

/-- **`unlift` undoes `lift`.** -/
theorem lift {x r : Nat} {mid : List Nat} (h : Chain m n (pre ++ x :: (mid ++ r :: post)))
    (hn : (n :: (pre ++ x :: (mid ++ r :: post))).Nodup) (hmatch : (m x).matching = some r) :
    ∃ m', m.lift x = some m' ∧ (∀ c, (m' c).toLabel = (m c).toLabel) ∧
      Chain m' n (pre ++ (mid ++ post)) ∧ m'.unlift x = some m := by
  have hx := h.split
  have hne : x ≠ pre.getLastD n := by
    rw [← List.cons_append] at hn
    intro heq
    exact (List.nodup_append.mp hn).2.2 _ (getLastD_mem pre n) x (List.mem_cons_self ..) heq.symm
  obtain ⟨q, hq⟩ : ∃ q, (m x).next = some q := by
    rw [hx.2.2.next_eq]
    cases mid with
    | nil => exact ⟨r, rfl⟩
    | cons q mid => exact ⟨q, rfl⟩
  obtain ⟨m₁, hm₁, hlabel₁, hprev₁, hnext₁, h₁, hback₁⟩ := relink_of_unlink h hn
  rw [← List.append_assoc] at h₁
  have hn₁ : (n :: (pre ++ mid ++ r :: post)).Nodup := by
    refine hn.sublist (List.Sublist.cons_cons _ ?_)
    rw [List.append_assoc]
    exact (List.Sublist.refl _).append (List.sublist_cons_self ..)
  obtain ⟨m₂, hm₂, hlabel₂, -, -, h₂, hback₂⟩ := relink_of_unlink h₁ hn₁
  have hlabel : ∀ c, (m₂ c).toLabel = (m c).toLabel := fun c => (hlabel₂ c).trans (hlabel₁ c)
  refine ⟨m₂, ?_, hlabel, ?_, ?_⟩
  · rw [lift_eq hx.2.1 hne hq hmatch, hm₁]
    exact hm₂
  · rwa [List.append_assoc] at h₂
  · have hmatch₂ : (m₂ x).matching = some r := (congrArg Label.matching (hlabel x)).trans hmatch
    rw [unlift_eq hmatch₂ hback₂ (hprev₁.trans hx.2.1) hne (hnext₁.trans hq), hback₁]

end Chain

/-! ### The list at the beginning -/

/-- From the root on, the list is linked. -/
def Rooted (m : Memory ι ω) (root : Option Nat) : List Nat → Prop
  | [] => root = none
  | a :: l => root = some a ∧ (m a).prev = none ∧ Chain m a l

theorem length_of_chain : ∀ {l : List Nat} {n : Nat}, Chain m n l →
    length m l.length (m n).next = l.length := by
  intro l
  induction l with
  | nil => exact fun _ => by simp [length]
  | cons a l ih =>
    intro n h
    rw [h.1, List.length_cons, length, ih h.2.2]

theorem Rooted.root_eq {root : Option Nat} {l : List Nat} (h : Rooted m root l) :
    root = l.head? := by
  cases l with
  | nil => exact h
  | cons a l => exact h.1

theorem Rooted.length_eq {root : Option Nat} {l : List Nat} (h : Rooted m root l) :
    length m l.length root = l.length := by
  cases l with
  | nil => rfl
  | cons a l =>
    obtain ⟨rfl, -, h⟩ := h
    rw [List.length_cons, length, length_of_chain h]

theorem Rooted.insertBefore {root : Option Nat} {l : List Nat} (h : Rooted m root l) (hn : n ∉ l)
    (hl : l.Nodup) (hnext : (m n).next = none) (hprev : (m n).prev = none) :
    Rooted (m.insertBefore n root) (some n) (n :: l) ∧
      ∀ c, (m.insertBefore n root c).toLabel = (m c).toLabel := by
  cases l with
  | nil =>
    obtain rfl : root = none := h
    exact ⟨⟨rfl, hprev, hnext⟩, fun _ => rfl⟩
  | cons a l =>
    obtain ⟨rfl, hnone, h⟩ := h
    have hna : n ≠ a := fun heq => hn (heq ▸ List.mem_cons_self ..)
    have hins : m.insertBefore n (some a) = (m.setPrev a (some n)).setNext n (some a) := by
      simp only [Memory.insertBefore, hnone]
    rw [hins]
    refine ⟨⟨rfl, ?_, ?_, ?_, h.congr ?_ ?_⟩, fun c => by simp⟩
    · rw [setNext_prev, setPrev_prev, if_neg hna, hprev]
    · rw [setNext_next, if_pos rfl]
    · rw [setNext_prev, setPrev_prev, if_pos rfl]
    · intro c hc
      rw [setNext_next, if_neg fun heq : c = n => hn (heq ▸ hc), setPrev_next]
    · intro c hc
      have hca : c ≠ a := fun heq => (List.nodup_cons.mp hl).1 (heq ▸ hc)
      rw [setNext_prev, setPrev_prev, if_neg hca]

theorem Rooted.update {root : Option Nat} {l : List Nat} (h : Rooted m root l) (hn : n ∉ l)
    (x : Node ι ω) : Rooted (m.update n x) root l := by
  have hsame : ∀ c ∈ l, m.update n x c = m c :=
    fun c hc => update_of_ne (fun heq : c = n => hn (heq ▸ hc)) x
  cases l with
  | nil => exact h
  | cons a l =>
    refine ⟨h.1, ?_, h.2.2.congr ?_ ?_⟩
    · rw [hsame a (List.mem_cons_self ..), h.2.1]
    · exact fun c hc => by rw [hsame c hc]
    · exact fun c hc => by rw [hsame c (List.mem_cons_of_mem _ hc)]

end Memory

/-- The return of an operation. -/
def Entry.isReturn (id : Nat) (e : Entry ι ω) : Bool := e.kind == .returnEntry && e.id == id

/-- Where an operation returns in the entries from index `i` on. -/
def returnAt (i : Nat) (entries : List (Entry ι ω)) (id : Nat) : Option Nat :=
  (entries.findIdx? (Entry.isReturn id)).map (i + ·)

/-- What the node of an entry holds. -/
def Entry.label (e : Entry ι ω) (matching : Option Nat) : Label ι ω :=
  ⟨some e.value, if e.kind = .callEntry then matching else none, e.id⟩

theorem rooted_entry {m : Memory ι ω} {root : Option Nat} {i n : Nat}
    (h : Memory.Rooted m root (List.range' (i + 1) n)) (label : Label ι ω) :
    Memory.Rooted ((m.update i { label with }).insertBefore i root) (some i)
        (List.range' i (n + 1)) ∧
      ∀ c, ((m.update i { label with }).insertBefore i root c).toLabel =
        if c = i then label else (m c).toLabel := by
  have hi : i ∉ List.range' (i + 1) n := by
    intro hi
    have hlt := (List.mem_range'_1.mp hi).1
    omega
  obtain ⟨hroot, hlabel⟩ := (h.update hi { label with }).insertBefore hi List.nodup_range'
    (by rw [Memory.update_self]) (by rw [Memory.update_self])
  refine ⟨hroot, ?_⟩
  intro c
  rw [hlabel]
  by_cases hc : c = i
  · rw [if_pos hc, hc, Memory.update_self]
  · rw [if_neg hc, Memory.update_of_ne hc]

theorem returnAt_cons (i : Nat) (e : Entry ι ω) (entries : List (Entry ι ω)) (id : Nat) :
    returnAt i (e :: entries) id =
      if e.isReturn id then some i else returnAt (i + 1) entries id := by
  unfold returnAt
  rw [List.findIdx?_cons]
  by_cases h : e.isReturn id
  · simp [h]
  · simp only [h, Bool.false_eq_true, if_false, Option.map_map]
    congr 1
    funext k
    simp only [Function.comp_apply]
    omega

theorem linkEntries_spec (i : Nat) (entries : List (Entry ι ω)) :
    Memory.Rooted (linkEntries i entries).memory (linkEntries i entries).root
        (List.range' i entries.length) ∧
      (∀ id, (linkEntries i entries).matching id = returnAt i entries id) ∧
      ∀ k e, entries[k]? = some e → ((linkEntries i entries).memory (i + k)).toLabel =
        e.label (returnAt (i + k + 1) (entries.drop (k + 1)) e.id) := by
  induction entries generalizing i with
  | nil => exact ⟨rfl, fun _ => rfl, by simp⟩
  | cons elem entries ih =>
    obtain ⟨hroot, hmatch, hlabel⟩ := ih (i + 1)
    obtain ⟨kind, value, id, time, clientId⟩ := elem
    -- what is in front of the list does not change what is behind
    have hlater {label : Label ι ω} {k : Nat} {e : Entry ι ω} (he : entries[k]? = some e) :
        (if i + (k + 1) = i then label
          else ((linkEntries (i + 1) entries).memory (i + (k + 1))).toLabel) =
        e.label (returnAt (i + (k + 1) + 1) (entries.drop (k + 1)) e.id) := by
      have heq : i + (k + 1) = i + 1 + k := by omega
      rw [if_neg (by omega), heq, hlabel k e he]
    cases kind with
    | returnEntry =>
      obtain ⟨hroot', hlabel'⟩ := rooted_entry hroot ⟨some value, none, id⟩
      refine ⟨hroot', ?_, ?_⟩
      · intro id'
        rw [returnAt_cons, linkEntries]
        by_cases hid : id' = id
        · rw [hid]
          simp [Entry.isReturn]
        · have hne : ¬ id = id' := fun heq => hid heq.symm
          simp [Entry.isReturn, hid, hne, hmatch]
      · intro k e he
        rw [linkEntries]
        refine (hlabel' (i + k)).trans ?_
        cases k with
        | zero =>
          obtain rfl := Option.some.inj he
          rw [Nat.add_zero, if_pos rfl]
          rfl
        | succ k => exact hlater he
    | callEntry =>
      obtain ⟨hroot', hlabel'⟩ := rooted_entry hroot
        ⟨some value, (linkEntries (i + 1) entries).matching id, id⟩
      refine ⟨hroot', ?_, ?_⟩
      · intro id'
        rw [returnAt_cons, linkEntries, hmatch]
        simp [Entry.isReturn]
      · intro k e he
        rw [linkEntries]
        refine (hlabel' (i + k)).trans ?_
        cases k with
        | zero =>
          obtain rfl := Option.some.inj he
          rw [Nat.add_zero, if_pos rfl, hmatch]
          rfl
        | succ k => exact hlater he

end ShardRaft.Porcupine
