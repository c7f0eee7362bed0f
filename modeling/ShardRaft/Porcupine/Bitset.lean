import Mathlib.Algebra.GroupWithZero.Nat
import Mathlib.Data.List.Basic
import Mathlib.Tactic.Common

/-!
# Sets of operations as bits

`bitset.go` of `porcupine`: bits 0 to 63 are in the first word, the next in the second.  An
index that is out of range ends the process (`none`).

What the checker relies on: `set` adds a bit and no other (`get_set`), `clear` takes back what
`set` has added (`clear_set`), and `equals` is equality, so that equal sets have one hash.
-/

namespace ShardRaft.Porcupine

/-- `bitset`. -/
structure Bitset where
  data : List (BitVec 64)
deriving DecidableEq, Repr

namespace Bitset

/-- `newBitset`. -/
def newBitset (bits : Nat) : Bitset :=
  let extra := if bits % 64 ≠ 0 then 1 else 0
  ⟨List.replicate (bits / 64 + extra) 0⟩

/-- `bitsetIndex`. -/
def bitsetIndex (pos : Nat) : Nat × Nat := (pos / 64, pos % 64)

/-- `1 << minor`. -/
def bit (minor : Nat) : BitVec 64 := 1 <<< minor

/-- `set`. -/
def set (b : Bitset) (pos : Nat) : Option Bitset := do
  let (major, minor) := bitsetIndex pos
  let v ← b.data[major]?
  return ⟨b.data.set major (v ||| bit minor)⟩

/-- `clear`. -/
def clear (b : Bitset) (pos : Nat) : Option Bitset := do
  let (major, minor) := bitsetIndex pos
  let v ← b.data[major]?
  return ⟨b.data.set major (v &&& ~~~bit minor)⟩

/-- `get`; a bit that is out of range is read as not set. -/
def get (b : Bitset) (pos : Nat) : Bool :=
  let (major, minor) := bitsetIndex pos
  (b.data[major]?).any fun v => v &&& bit minor != 0

/-- `popcnt`. -/
def popcnt (b : Bitset) : Nat := (b.data.map fun v => v.cpop.toNat).sum

/-- `hash`. -/
def hash (b : Bitset) : BitVec 64 := b.data.foldl (· ^^^ ·) (BitVec.ofNat 64 b.popcnt)

/-- `equals`. -/
def equals (b b2 : Bitset) : Bool :=
  decide (b.data.length = b2.data.length) && (b.data.zip b2.data).all fun x => x.1 == x.2

/-! ### What they do -/

variable {b b' : Bitset} {p q : Nat}

theorem getLsbD_bit {minor i : Nat} (h : minor < 64) :
    (bit minor).getLsbD i = decide (minor = i) := by
  have htwo : bit minor = BitVec.twoPow 64 minor := rfl
  rw [htwo, BitVec.getLsbD_twoPow]
  simp [h]

theorem and_bit_ne_zero {v : BitVec 64} {minor : Nat} (h : minor < 64) :
    (v &&& bit minor != 0) = v.getLsbD minor := by
  have hiff : v &&& bit minor = 0 ↔ v.getLsbD minor = false := by
    constructor
    · intro h0
      have hbit := congrArg (fun x => BitVec.getLsbD x minor) h0
      simpa [getLsbD_bit h] using hbit
    · intro h0
      refine BitVec.eq_of_getLsbD_eq fun i _ => ?_
      rw [BitVec.getLsbD_and, getLsbD_bit h]
      by_cases hi : minor = i
      · rw [← hi, h0]
        simp
      · simp [hi]
  cases hv : v.getLsbD minor with
  | false => simpa using hiff.mpr hv
  | true =>
    have hne : ¬ v &&& bit minor = 0 := fun h0 => by
      rw [hiff.mp h0] at hv
      exact absurd hv (by simp)
    simpa using hne

theorem get_eq (b : Bitset) (p : Nat) :
    b.get p = (b.data[p / 64]?).any fun v => v.getLsbD (p % 64) := by
  unfold get bitsetIndex
  dsimp only
  cases b.data[p / 64]? with
  | none => rfl
  | some v => exact and_bit_ne_zero (Nat.mod_lt _ (by decide))

theorem get_newBitset (n p : Nat) : (newBitset n).get p = false := by
  rw [get_eq, newBitset]
  dsimp only
  cases h : (List.replicate (n / 64 + if n % 64 ≠ 0 then 1 else 0) (0 : BitVec 64))[p / 64]? with
  | none => rfl
  | some v =>
    rw [List.eq_of_mem_replicate (List.mem_of_getElem? h)]
    simp

theorem lt_length_newBitset {n : Nat} (h : p < n) : p / 64 < (newBitset n).data.length := by
  rw [newBitset, List.length_replicate]
  split <;> omega

theorem set_eq_some (h : b.set p = some b') : ∃ v, b.data[p / 64]? = some v ∧
    b' = ⟨b.data.set (p / 64) (v ||| bit (p % 64))⟩ := by
  obtain ⟨v, hv, h⟩ := Option.bind_eq_some_iff.mp h
  exact ⟨v, hv, (Option.some.inj h).symm⟩

theorem isSome_set (h : p / 64 < b.data.length) : ∃ b', b.set p = some b' := by
  simp [set, bitsetIndex, h]

theorem length_set (h : b.set p = some b') : b'.data.length = b.data.length := by
  obtain ⟨v, -, rfl⟩ := set_eq_some h
  exact List.length_set

/-- **`set` adds one bit.** -/
theorem get_set (h : b.set p = some b') (q : Nat) :
    b'.get q = (decide (q = p) || b.get q) := by
  obtain ⟨v, hv, rfl⟩ := set_eq_some h
  rw [get_eq, get_eq]
  dsimp only
  have hmod : p % 64 < 64 := Nat.mod_lt _ (by decide)
  by_cases hmaj : p / 64 = q / 64
  · rw [← hmaj, List.getElem?_set_self (List.getElem?_eq_some_iff.mp hv).1, hv]
    simp only [Option.any_some, BitVec.getLsbD_or, getLsbD_bit hmod, Bool.or_comm (v.getLsbD _)]
    congr 2
    exact propext ⟨fun _ => by omega, fun heq => by rw [heq]⟩
  · rw [List.getElem?_set_ne hmaj]
    have hne : q ≠ p := fun heq => hmaj (by rw [heq])
    simp [hne]

/-- **`clear` takes back what `set` has added.** -/
theorem clear_set (h : b.set p = some b') (hp : b.get p = false) : b'.clear p = some b := by
  obtain ⟨v, hv, rfl⟩ := set_eq_some h
  have hmod : p % 64 < 64 := Nat.mod_lt _ (by decide)
  rw [get_eq, hv, Option.any_some] at hp
  have hback : (v ||| bit (p % 64)) &&& ~~~bit (p % 64) = v := by
    refine BitVec.eq_of_getLsbD_eq fun i hi => ?_
    rw [BitVec.getLsbD_and, BitVec.getLsbD_or, BitVec.getLsbD_not, getLsbD_bit hmod]
    by_cases hpi : p % 64 = i
    · rw [← hpi, hp]
      simp
    · simp [hpi, hi]
  obtain ⟨hlt, hget⟩ := List.getElem?_eq_some_iff.mp hv
  simp only [clear, bitsetIndex, List.getElem?_set_self hlt, Option.bind_eq_bind, Option.bind_some,
    Option.pure_def, hback, List.set_set]
  rw [← hget, List.set_getElem_self]

theorem equals_iff {b2 : Bitset} : b.equals b2 = true ↔ b = b2 := by
  obtain ⟨l⟩ := b
  obtain ⟨l2⟩ := b2
  simp only [equals, Bool.and_eq_true, decide_eq_true_eq, mk.injEq]
  constructor
  · rintro ⟨hlen, hall⟩
    refine List.ext_getElem hlen fun i hi hi' => ?_
    have hmem : (l[i], l2[i]) ∈ l.zip l2 := by
      rw [← List.getElem_zip (h := by simp; omega)]
      exact List.getElem_mem _
    exact eq_of_beq (List.all_eq_true.mp hall _ hmem)
  · rintro rfl
    refine ⟨rfl, List.all_eq_true.mpr fun x hx => ?_⟩
    obtain ⟨i, hi, rfl⟩ := List.mem_iff_getElem.mp hx
    simp

end Bitset

end ShardRaft.Porcupine
