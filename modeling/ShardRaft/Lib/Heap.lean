import Mathlib.Data.Finmap
import ShardRaft.Lib.Lists

/-!
# Slices and maps by reference

A heap has the backing arrays of slices and the maps, by their addresses and in the order in
which they were made.  `append` writes in place where there is room, and makes a new array
otherwise; `room` says how much room it has.

* `Extends`: what there was is as it was.
* `append_spec`: appending to a slice that was made after `base` keeps what there was in `base`.
* `copySlice_spec`: a slice that is copied element by element is new.
* `fill_spec`: a loop that writes into a map.
-/

namespace ShardRaft.Lib

/-- A slice from the beginning of an array. -/
structure Slice where
  array : Nat
  len : Nat
  cap : Nat
deriving DecidableEq, Repr

/-- A slice without an array. -/
def Slice.empty : Slice := ⟨0, 0, 0⟩

/-- A map with slices in it. -/
abbrev SliceMap (κ : Type) := Finmap fun _ : κ => Slice

/-- The arrays and the maps that have been made. -/
structure Heap (κ α : Type) where
  arrays : List (List α)
  maps : List (SliceMap κ)

namespace Heap

variable {κ α β : Type}

/-- What is in a slice. -/
def slice (h : Heap κ α) (s : Slice) : List α := ((h.arrays[s.array]?).getD []).take s.len

/-- The map at an address. -/
def mapAt (h : Heap κ α) (m : Nat) : SliceMap κ := (h.maps[m]?).getD ∅

/-- A map with what is in its slices. -/
def values (h : Heap κ α) (m : SliceMap κ) : Finmap fun _ : κ => List α where
  entries := m.entries.map fun e => ⟨e.1, h.slice e.2⟩
  nodupKeys := by
    rw [← Multiset.nodup_keys, Multiset.keys, Multiset.map_map]
    exact Multiset.nodup_keys.mpr m.nodupKeys

/-- `append`, of one element. -/
def append [Inhabited α] (room : Nat → Nat) (h : Heap κ α) (s : Slice) (a : α) :
    Heap κ α × Slice :=
  if s.len < s.cap then
    ({ h with arrays := h.arrays.modify s.array fun array => array.set s.len a },
      { s with len := s.len + 1 })
  else
    let array := h.slice s ++ a :: List.replicate (room s.len) default
    ({ h with arrays := h.arrays ++ [array] }, ⟨h.arrays.length, s.len + 1, array.length⟩)

/-- A loop that appends the elements of `v` to a slice that is empty at first. -/
def copySlice [Inhabited α] (room : Nat → Nat) (h : Heap κ α) (v : Slice) : Heap κ α × Slice :=
  (List.range v.len).foldl
    (fun acc i => acc.1.append room acc.2 (((acc.1.slice v)[i]?).getD default)) (h, .empty)

/-- An empty map, at the end. -/
def makeMap (h : Heap κ α) : Heap κ α := { h with maps := h.maps ++ [∅] }

/-- An array, at the end, and a slice of all of it. -/
def makeSlice (h : Heap κ α) (l : List α) : Heap κ α × Slice :=
  ({ h with arrays := h.arrays ++ [l] }, ⟨h.arrays.length, l.length, l.length⟩)

/-- What is in the map at an address. -/
def read (h : Heap κ α) (m : Nat) : Finmap fun _ : κ => List α := h.values (h.mapAt m)

/-! ## What is kept -/

/-- What there was is as it was. -/
structure Extends (h h' : Heap κ α) : Prop where
  arrays : h.arrays <+: h'.arrays
  maps : h.maps <+: h'.maps

/-- The slice is one of an array that there is. -/
def Holds (h : Heap κ α) (s : Slice) : Prop :=
  s.len = 0 ∨ ∃ array, h.arrays[s.array]? = some array ∧ s.len ≤ array.length

variable {h h' h'' base : Heap κ α} {s v : Slice} {m : Nat}

theorem Extends.refl (h : Heap κ α) : h.Extends h := ⟨List.prefix_rfl, List.prefix_rfl⟩

theorem Extends.trans (h₁ : h.Extends h') (h₂ : h'.Extends h'') : h.Extends h'' :=
  ⟨h₁.arrays.trans h₂.arrays, h₁.maps.trans h₂.maps⟩

theorem Holds.mono (hs : h.Holds s) (hp : h.arrays <+: h'.arrays) : h'.Holds s := by
  rcases hs with h0 | ⟨array, ha, hle⟩
  · exact .inl h0
  · exact .inr ⟨array, getElem?_of_prefix hp ha, hle⟩

theorem slice_of_len (h : Heap κ α) (h0 : s.len = 0) : h.slice s = [] := by
  rw [slice, h0, List.take_zero]

theorem slice_of_prefix (hs : h.Holds s) (hp : h.arrays <+: h'.arrays) :
    h'.slice s = h.slice s := by
  rcases hs with h0 | ⟨array, ha, -⟩
  · rw [slice_of_len h h0, slice_of_len h' h0]
  · rw [slice, slice, ha, getElem?_of_prefix hp ha]

theorem length_slice (hs : h.Holds s) : (h.slice s).length = s.len := by
  rcases hs with h0 | ⟨array, ha, hle⟩
  · rw [slice_of_len h h0, h0, List.length_nil]
  · rw [slice, ha, Option.getD_some, List.length_take, Nat.min_eq_left hle]

theorem mapAt_of_extends (he : h.Extends h') (hm : m < h.maps.length) : h'.mapAt m = h.mapAt m := by
  rw [mapAt, mapAt, getElem?_of_prefix he.maps (List.getElem?_eq_getElem hm),
    List.getElem?_eq_getElem hm]

theorem mapAt_modify (hm : m < h.maps.length) (f : SliceMap κ → SliceMap κ) :
    mapAt { h with maps := h.maps.modify m f } m = f (h.mapAt m) := by
  rw [mapAt, mapAt, List.getElem?_modify_eq, List.getElem?_eq_getElem hm]
  rfl

theorem extends_modify (hb : base.Extends h) (hm : base.maps.length ≤ m)
    (f : SliceMap κ → SliceMap κ) : base.Extends { h with maps := h.maps.modify m f } :=
  ⟨hb.arrays, prefix_modify hb.maps hm f⟩

theorem extends_makeMap (h : Heap κ α) : h.Extends h.makeMap :=
  ⟨List.prefix_rfl, List.prefix_append ..⟩

theorem mapAt_makeMap (h : Heap κ α) : h.makeMap.mapAt h.maps.length = ∅ := by
  rw [mapAt, makeMap, List.getElem?_concat_length, Option.getD_some]

/-! ## A slice that is appended to -/

/-- The slice has been made after `base`, and it may be appended to. -/
def Own (base h : Heap κ α) (s : Slice) : Prop :=
  s = .empty ∨ base.arrays.length ≤ s.array ∧
    ∃ array, h.arrays[s.array]? = some array ∧ array.length = s.cap ∧ s.len ≤ s.cap

theorem Own.holds (hs : Own base h s) : h.Holds s := by
  rcases hs with rfl | ⟨-, array, ha, hcap, hle⟩
  · exact .inl rfl
  · exact .inr ⟨array, ha, hcap ▸ hle⟩

theorem append_spec [Inhabited α] (room : Nat → Nat) (hb : base.Extends h) (hs : Own base h s)
    (a : α) : base.Extends (h.append room s a).1 ∧ (h.append room s a).1.maps = h.maps ∧
      Own base (h.append room s a).1 (h.append room s a).2 ∧
      (h.append room s a).1.slice (h.append room s a).2 = h.slice s ++ [a] := by
  by_cases hroom : s.len < s.cap
  · rcases hs with rfl | ⟨hbase, array, ha, hcap, hle⟩
    · exact absurd hroom (Nat.lt_irrefl 0)
    · have hget : (h.arrays.modify s.array fun array => array.set s.len a)[s.array]? =
          some (array.set s.len a) := by
        rw [List.getElem?_modify_eq, ha]
        rfl
      rw [append, if_pos hroom]
      refine ⟨⟨prefix_modify hb.arrays hbase _, hb.maps⟩, rfl, .inr ⟨hbase, _, hget, ?_, ?_⟩, ?_⟩
      · rw [List.length_set, hcap]
      · exact hroom
      · rw [slice, slice, hget, ha]
        exact take_set_self (hcap ▸ hroom) a
  · have hlen := length_slice hs.holds
    rw [append, if_neg hroom]
    refine ⟨⟨hb.arrays.trans (List.prefix_append ..), hb.maps⟩, rfl,
      .inr ⟨hb.arrays.length_le, _, List.getElem?_concat_length, rfl, ?_⟩, ?_⟩
    · dsimp only
      rw [List.length_append, List.length_cons, hlen]
      omega
    · rw [slice, List.getElem?_concat_length, Option.getD_some, ← hlen, List.take_length_add_append]
      rfl

/-- **A copy of a slice is new**, and has in it what the slice has. -/
theorem copySlice_spec [Inhabited α] (room : Nat → Nat) (hv : h.Holds v) :
    h.Extends (h.copySlice room v).1 ∧ (h.copySlice room v).1.maps = h.maps ∧
      Own h (h.copySlice room v).1 (h.copySlice room v).2 ∧
      (h.copySlice room v).1.slice (h.copySlice room v).2 = h.slice v := by
  have hlen := length_slice hv
  have hloop : ∀ n ≤ v.len,
      let r := (List.range n).foldl (fun acc i =>
        acc.1.append room acc.2 (((acc.1.slice v)[i]?).getD default)) (h, Slice.empty)
      h.Extends r.1 ∧ r.1.maps = h.maps ∧ Own h r.1 r.2 ∧ r.1.slice r.2 = (h.slice v).take n := by
    intro n
    induction n with
    | zero => exact fun _ => ⟨.refl h, rfl, .inl rfl, slice_of_len h rfl⟩
    | succ n ih =>
      intro hn
      obtain ⟨hext, hmaps, hown, hslice⟩ := ih (by omega)
      rw [List.range_succ, List.foldl_append]
      have hlt : n < (h.slice v).length := by omega
      -- nothing has been written where `v` is
      have helem := slice_of_prefix hv hext.arrays
      obtain ⟨hext', hmaps', hown', hslice'⟩ := append_spec room hext hown (h.slice v)[n]
      simp only [List.foldl_cons, List.foldl_nil, helem, List.getElem?_eq_getElem hlt,
        Option.getD_some]
      refine ⟨hext', hmaps'.trans hmaps, hown', ?_⟩
      rw [hslice', hslice, List.take_add_one, List.getElem?_eq_getElem hlt]
      rfl
  obtain ⟨hext, hmaps, hown, hslice⟩ := hloop v.len (Nat.le_refl _)
  exact ⟨hext, hmaps, hown, hslice.trans (List.take_of_length_le (by omega))⟩

/-- `copy` makes a slice with `value` in it, and changes nothing else. -/
structure CopyOf (copied : Heap κ α × Slice) (h : Heap κ α) (P : Slice → Prop) (value : List α) :
    Prop where
  kept : h.Extends copied.1
  maps : copied.1.maps = h.maps
  holds : copied.1.Holds copied.2
  slice : copied.1.slice copied.2 = value
  new : P copied.2

theorem copyOf_makeSlice {P : Slice → Prop} (h : Heap κ α) (l : List α)
    (hnew : P ⟨h.arrays.length, l.length, l.length⟩) : CopyOf (h.makeSlice l) h P l where
  kept := ⟨List.prefix_append .., List.prefix_rfl⟩
  maps := rfl
  holds := .inr ⟨l, List.getElem?_concat_length, Nat.le_refl _⟩
  slice := by
    rw [Heap.slice, makeSlice, List.getElem?_concat_length, Option.getD_some, List.take_length]
  new := hnew

/-! ## Maps -/

variable [DecidableEq κ]

/-- `m[k] = s`. -/
def setKey (h : Heap κ α) (m : Nat) (k : κ) (s : Slice) : Heap κ α :=
  { h with maps := h.maps.modify m fun map => map.insert k s }

/-- `delete(m, k)`. -/
def deleteKey (h : Heap κ α) (m : Nat) (k : κ) : Heap κ α :=
  { h with maps := h.maps.modify m fun map => map.erase k }

/-- A loop over keys that writes what `copy` makes of what `find` finds. -/
def fill (find : Heap κ α → κ → Option β) (copy : Heap κ α → β → Heap κ α × Slice)
    (target : Nat) (keys : List κ) (h : Heap κ α) : Heap κ α :=
  keys.foldl (fun h k =>
    match find h k with
    | none => h
    | some b => (copy h b).1.setKey target k (copy h b).2) h

/-- The map is there, and so are its slices. -/
structure HoldsMap (h : Heap κ α) (m : Nat) : Prop where
  lt : m < h.maps.length
  holds : ∀ k s, (h.mapAt m).lookup k = some s → h.Holds s

theorem lookup_values (h : Heap κ α) (map : SliceMap κ) (k : κ) :
    (h.values map).lookup k = (map.lookup k).map h.slice := by
  ext l
  rw [← Option.mem_def, Finmap.mem_lookup_iff, Option.map_eq_some_iff]
  simp only [values, Multiset.mem_map]
  constructor
  · rintro ⟨e, he, heq⟩
    obtain ⟨rfl, hl⟩ := Sigma.mk.inj heq
    exact ⟨e.2, Finmap.mem_lookup_iff.mpr he, eq_of_heq hl⟩
  · rintro ⟨s, hs, rfl⟩
    exact ⟨⟨k, s⟩, Finmap.mem_lookup_iff.mp hs, rfl⟩

theorem HoldsMap.mono (hm : h.HoldsMap m) (he : h.Extends h') : h'.HoldsMap m where
  lt := hm.lt.trans_le he.maps.length_le
  holds k s hs := by
    rw [mapAt_of_extends he hm.lt] at hs
    exact (hm.holds k s hs).mono he.arrays

/-- **A map that there was has in it what it had.** -/
theorem HoldsMap.read_eq (hm : h.HoldsMap m) (he : h.Extends h') : h'.read m = h.read m := by
  refine Finmap.ext_lookup fun k => ?_
  rw [read, read, lookup_values, lookup_values, mapAt_of_extends he hm.lt]
  refine Option.map_congr fun s hs => ?_
  exact slice_of_prefix (hm.holds k s hs) he.arrays

theorem holdsMap_makeMap (h : Heap κ α) : h.makeMap.HoldsMap h.maps.length where
  lt := by
    rw [makeMap, List.length_append, List.length_singleton]
    omega
  holds k s hs := by
    rw [mapAt_makeMap, Finmap.lookup_empty] at hs
    exact absurd hs (by simp)

/-- `new` has been written into a map made after `base`, in slices of which `P` holds. -/
structure Filled (base h h' : Heap κ α) (m : Nat) (P : Slice → Prop)
    (new : κ → Option (List α)) : Prop where
  kept : base.Extends h'
  holds : h'.HoldsMap m
  arrays : h.arrays <+: h'.arrays
  slices : ∀ k s, (h'.mapAt m).lookup k = some s → (h.mapAt m).lookup k = some s ∨ P s
  lookup : ∀ k, (h'.read m).lookup k = (new k).or ((h.read m).lookup k)

variable {P : Slice → Prop} {new new' : κ → Option (List α)}

theorem Filled.refl (hb : base.Extends h) (hm : h.HoldsMap m) :
    Filled base h h m P fun _ => none :=
  ⟨hb, hm, List.prefix_rfl, fun _ _ => .inl, fun _ => rfl⟩

theorem Filled.trans (h₁ : Filled base h h' m P new) (h₂ : Filled base h' h'' m P new') :
    Filled base h h'' m P fun k => (new' k).or (new k) where
  kept := h₂.kept
  holds := h₂.holds
  arrays := h₁.arrays.trans h₂.arrays
  slices k s hs := (h₂.slices k s hs).elim (h₁.slices k s) .inr
  lookup k := by rw [h₂.lookup, h₁.lookup, Option.or_assoc]

theorem filled_setKey {copied : Heap κ α × Slice} {value : List α} (hb : base.Extends h)
    (hbase : base.maps.length ≤ m) (hm : h.HoldsMap m) (hc : CopyOf copied h P value) (k : κ) :
    Filled base h (copied.1.setKey m k copied.2) m P
      fun k' => if k' = k then some value else none := by
  have hlt : m < copied.1.maps.length := hc.maps ▸ hm.lt
  have hmap : (copied.1.setKey m k copied.2).mapAt m = (h.mapAt m).insert k copied.2 := by
    rw [setKey, mapAt_modify hlt, mapAt, mapAt, hc.maps]
  -- the arrays are those that `copied` has
  have hslice : ∀ s, (copied.1.setKey m k copied.2).slice s = copied.1.slice s := fun _ => rfl
  have hkey : ∀ k' s, ((copied.1.setKey m k copied.2).mapAt m).lookup k' = some s →
      k' = k ∧ s = copied.2 ∨ k' ≠ k ∧ (h.mapAt m).lookup k' = some s := by
    intro k' s hs
    rw [hmap] at hs
    by_cases hk : k' = k
    · subst hk
      rw [Finmap.lookup_insert] at hs
      exact .inl ⟨rfl, (Option.some.inj hs).symm⟩
    · rw [Finmap.lookup_insert_of_ne _ hk] at hs
      exact .inr ⟨hk, hs⟩
  refine ⟨extends_modify (hb.trans hc.kept) hbase _, ⟨?_, ?_⟩, hc.kept.arrays, ?_, ?_⟩
  · rw [setKey, List.length_modify]
    exact hlt
  · intro k' s hs
    rcases hkey k' s hs with ⟨-, rfl⟩ | ⟨-, hs⟩
    · exact hc.holds
    · exact (hm.holds k' s hs).mono hc.kept.arrays
  · intro k' s hs
    rcases hkey k' s hs with ⟨-, rfl⟩ | ⟨-, hs⟩
    · exact .inr hc.new
    · exact .inl hs
  · intro k'
    rw [read, read, lookup_values, lookup_values, hmap]
    by_cases hk : k' = k
    · subst hk
      rw [Finmap.lookup_insert, if_pos rfl, Option.map_some, hslice, hc.slice, Option.some_or]
    · rw [Finmap.lookup_insert_of_ne _ hk, if_neg hk, Option.none_or]
      refine Option.map_congr fun s hs => ?_
      exact slice_of_prefix (hm.holds k' s hs) hc.kept.arrays

/-- **A loop that writes into a new map** keeps what there was. -/
theorem fill_spec (find : Heap κ α → κ → Option β) (copy : Heap κ α → β → Heap κ α × Slice)
    (value : β → List α) (hbase : base.maps.length ≤ m)
    (hfind : ∀ h, base.Extends h → ∀ k, find h k = find base k)
    (hcopy : ∀ k b, find base k = some b → ∀ h, base.Extends h →
      CopyOf (copy h b) h P (value b)) :
    ∀ (keys : List κ) {h : Heap κ α}, base.Extends h → h.HoldsMap m →
      Filled base h (fill find copy m keys h) m P
        fun k => if k ∈ keys then (find base k).map value else none := by
  intro keys
  induction keys with
  | nil =>
    intro h hb hm
    exact .refl hb hm
  | cons k keys ih =>
    intro h hb hm
    have hfirst : Filled base h (fill find copy m [k] h) m P
        fun k' => if k' = k then (find base k).map value else none := by
      rw [fill, List.foldl_cons, List.foldl_nil, hfind h hb]
      cases hb' : find base k with
      | none => simpa using Filled.refl hb hm
      | some b => exact filled_setKey hb hbase hm (hcopy k b hb' h hb) k
    have hrest := hfirst.trans (ih hfirst.kept hfirst.holds)
    have hnew : (fun k' => (if k' ∈ keys then (find base k').map value else none).or
        (if k' = k then (find base k).map value else none)) =
        fun k' => if k' ∈ k :: keys then (find base k').map value else none := by
      funext k'
      by_cases hk : k' = k
      · subst hk
        by_cases hmem : k' ∈ keys
        · simp [hmem]
        · simp [hmem]
      · simp [hk]
    rw [hnew] at hrest
    exact hrest

/-- The same, of a map that has just been made. -/
theorem fill_makeMap (find : Heap κ α → κ → Option β) (copy : Heap κ α → β → Heap κ α × Slice)
    (value : β → List α) (hfind : ∀ h, base.Extends h → ∀ k, find h k = find base k)
    (hcopy : ∀ k b, find base k = some b → ∀ h, base.Extends h → CopyOf (copy h b) h P (value b))
    (keys : List κ) :
    let h' := fill find copy base.maps.length keys base.makeMap
    base.Extends h' ∧ h'.HoldsMap base.maps.length ∧
      (∀ k s, (h'.mapAt base.maps.length).lookup k = some s → P s) ∧
      ∀ k, (h'.read base.maps.length).lookup k =
        if k ∈ keys then (find base k).map value else none := by
  have hfill := fill_spec find copy value (Nat.le_refl base.maps.length) hfind hcopy keys
    base.extends_makeMap base.holdsMap_makeMap
  refine ⟨hfill.kept, hfill.holds, fun k s hs => ?_, fun k => ?_⟩
  · rcases hfill.slices k s hs with hs | hs
    · rw [mapAt_makeMap, Finmap.lookup_empty] at hs
      exact absurd hs (by simp)
    · exact hs
  · rw [hfill.lookup, read, lookup_values, mapAt_makeMap, Finmap.lookup_empty, Option.map_none,
      Option.or_none]

theorem values_erase (h : Heap κ α) (map : SliceMap κ) (k : κ) :
    h.values (map.erase k) = (h.values map).erase k := by
  refine Finmap.ext_lookup fun k' => ?_
  rw [lookup_values]
  by_cases hk : k' = k
  · subst hk
    rw [Finmap.lookup_erase, Finmap.lookup_erase, Option.map_none]
  · rw [Finmap.lookup_erase_ne hk, Finmap.lookup_erase_ne hk, lookup_values]

theorem deleteKeys_spec (hbase : base.maps.length ≤ m) : ∀ (keys : List κ) {h : Heap κ α},
    base.Extends h → h.HoldsMap m →
      let h' := keys.foldl (fun h k => h.deleteKey m k) h
      base.Extends h' ∧ h'.HoldsMap m ∧
        (∀ k s, (h'.mapAt m).lookup k = some s → (h.mapAt m).lookup k = some s) ∧
        h'.read m = keys.foldl (fun map k => map.erase k) (h.read m) := by
  intro keys
  induction keys with
  | nil => exact fun hb hm => ⟨hb, hm, fun _ _ hs => hs, rfl⟩
  | cons k keys ih =>
    intro h hb hm
    have hmap : (h.deleteKey m k).mapAt m = (h.mapAt m).erase k := mapAt_modify hm.lt _
    have hsub : ∀ k' s, ((h.deleteKey m k).mapAt m).lookup k' = some s →
        (h.mapAt m).lookup k' = some s := by
      intro k' s hs
      rw [hmap] at hs
      by_cases hk : k' = k
      · subst hk
        rw [Finmap.lookup_erase] at hs
        exact absurd hs (by simp)
      · rwa [Finmap.lookup_erase_ne hk] at hs
    have hm' : (h.deleteKey m k).HoldsMap m := by
      refine ⟨?_, fun k' s hs => hm.holds k' s (hsub k' s hs)⟩
      rw [deleteKey, List.length_modify]
      exact hm.lt
    have hread : (h.deleteKey m k).read m = (h.read m).erase k := by
      rw [read, hmap, read, ← values_erase]
      rfl
    obtain ⟨hb', hm'', hsub', hread'⟩ := ih (extends_modify hb hbase _) hm'
    exact ⟨hb', hm'', fun k' s hs => hsub k' s (hsub' k' s hs), by
      rw [List.foldl_cons, List.foldl_cons, ← hread]; exact hread'⟩

end Heap

end ShardRaft.Lib
