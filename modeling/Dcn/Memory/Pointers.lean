import Dcn.Memory.MapRuns

/-! The pointers into a map that its lookups return (map.c).

map_at and map_key_by_val return pointers into the arrays, to be followed once
the mutex is given back, while map_set and map_erase give the arrays back for
others. An array is told by how often it was replaced. Whether a realloc moves
its array is not determined by the state.
-/

set_option autoImplicit false

namespace Dcn

structure Arrays where
  keys : Nat
  values : Nat
  deriving DecidableEq, Repr

structure Moved where
  keys : Bool
  values : Bool
  deriving DecidableEq, Repr

structure SlotPtr where
  array : Nat
  slot : Nat
  deriving DecidableEq, Repr

namespace Arrays

def init : Arrays := ⟨0, 0⟩

/-- The arrays after map_set, which asks for more room where the key is new. -/
def set (arrays : Arrays) (present : Bool) (moved : Moved) : Arrays :=
  if present then arrays else ⟨arrays.keys + moved.keys.toNat, arrays.values + moved.values.toNat⟩

/-- The arrays after map_erase, which copies what is left of both. -/
def erase (arrays : Arrays) (present : Bool) : Arrays :=
  if present then ⟨arrays.keys + 1, arrays.values + 1⟩ else arrays

/-- The count of arrays only rises, so a pointer that is good was so before. -/
theorem current_of_set {arrays : Arrays} {ptr : SlotPtr} {present : Bool} {moved : Moved}
    (taken : ptr.array ≤ arrays.values) (there : ptr.array = (arrays.set present moved).values) :
    ptr.array = arrays.values := by
  have grows : arrays.values ≤ (arrays.set present moved).values := by
    unfold Arrays.set
    split
    · exact Nat.le_refl _
    · exact Nat.le_add_right ..
  omega

theorem current_of_erase {arrays : Arrays} {ptr : SlotPtr} {present : Bool} (taken : ptr.array ≤ arrays.values)
    (there : ptr.array = (arrays.erase present).values) : ptr.array = arrays.values ∧ present = false := by
  cases present with
  | true =>
    simp only [Arrays.erase, ↓reduceIte] at there
    omega
  | false => exact ⟨there, rfl⟩

section Lookups

variable {κ ν : Type} [DecidableEq κ]

def find (arrays : Arrays) (m : Map κ ν) (key : κ) : Option SlotPtr :=
  (m.entries.findIdx? fun e => e.1 = key).map fun slot => ⟨arrays.values, slot⟩

def findByVal [DecidableEq ν] (arrays : Arrays) (m : Map κ ν) (val : ν) : Option SlotPtr :=
  (m.entries.findIdx? fun e => e.2 = val).map fun slot => ⟨arrays.keys, slot⟩

/-- The value behind a pointer; none where its array was given back. -/
def value (arrays : Arrays) (m : Map κ ν) (ptr : SlotPtr) : Option ν :=
  if ptr.array = arrays.values then mapValAt m ptr.slot else none

def key (arrays : Arrays) (m : Map κ ν) (ptr : SlotPtr) : Option κ :=
  if ptr.array = arrays.keys then mapKeyAt m ptr.slot else none

structure PointsTo (arrays : Arrays) (m : Map κ ν) (key : κ) (ptr : SlotPtr) : Prop where
  taken : ptr.array ≤ arrays.values
  slot : ptr.array = arrays.values → mapKeyAt m ptr.slot = some key

variable {arrays : Arrays} {m : Map κ ν} {k other : κ} {ptr : SlotPtr}

theorem find_eq_none : arrays.find m k = none ↔ mapAt m k = none := by
  rw [find, Option.map_eq_none_iff, mapAt, Option.map_eq_none_iff, List.findIdx?_eq_none_iff, List.find?_eq_none]
  simp

theorem array_find (found : arrays.find m k = some ptr) : ptr.array = arrays.values := by
  obtain ⟨slot, -, rfl⟩ := Option.map_eq_some_iff.mp found
  rfl

theorem pointsTo_find (found : arrays.find m k = some ptr) : arrays.PointsTo m k ptr := by
  obtain ⟨slot, place, rfl⟩ := Option.map_eq_some_iff.mp found
  obtain ⟨val, entry, -⟩ := Map.slot_some place
  exact ⟨Nat.le_refl _, fun _ => by rw [mapKeyAt, entry]; rfl⟩

omit [DecidableEq κ] in
theorem exists_mapValAt (slot : mapKeyAt m ptr.slot = some k) :
    ∃ val, mapValAt m ptr.slot = some val ∧ (k, val) ∈ m.entries := by
  obtain ⟨e, entry, rfl⟩ := Option.map_eq_some_iff.mp slot
  exact ⟨e.2, by rw [mapValAt, entry]; rfl, List.mem_of_getElem? entry⟩

theorem PointsTo.value (points : arrays.PointsTo m k ptr) (there : ptr.array = arrays.values) :
    ∃ val, arrays.value m ptr = some val ∧ mapAt m k = some val := by
  obtain ⟨val, read, entry⟩ := exists_mapValAt (points.slot there)
  exact ⟨val, by rw [Arrays.value, if_pos there, read], Map.mapAt_eq_some_iff.mpr entry⟩

theorem PointsTo.set (points : arrays.PointsTo m k ptr) (other : κ) (val : ν) (moved : Moved) :
    (arrays.set (mapIn m other) moved).PointsTo (mapSet m other val) k ptr := by
  have taken := points.taken
  unfold Arrays.set
  split
  · exact ⟨taken, fun there => Map.mapKeyAt_mapSet (points.slot there)⟩
  · refine ⟨Nat.le_add_right_of_le taken, fun there => Map.mapKeyAt_mapSet (points.slot ?_)⟩
    dsimp only at there
    omega

theorem PointsTo.erase (points : arrays.PointsTo m k ptr) (other : κ) :
    (arrays.erase (mapIn m other)).PointsTo (mapErase m other) k ptr := by
  have taken := points.taken
  unfold Arrays.erase
  cases present : mapIn m other with
  | true => exact ⟨Nat.le_succ_of_le taken, fun there => absurd there (Nat.ne_of_lt (Nat.lt_succ_of_le taken))⟩
  | false =>
    have absent : mapAt m other = none := Option.isNone_iff_eq_none.mp (Option.isSome_eq_false_iff.mp present)
    have missing : arrays.find m other = none := find_eq_none.mpr absent
    have same : (mapErase m other).entries = m.entries := (Map.slot_none (Option.map_eq_none_iff.mp missing)).2.2
    refine ⟨taken, fun there => ?_⟩
    rw [mapKeyAt, same]
    exact points.slot there

end Lookups

section Calls

variable {k v : Nat}

def after (arrays : Arrays) (has : Slot k → Bool) (moved : Moved) : MapCall k v → Arrays
  | .set key _ _ _ => arrays.set (has key) moved
  | .erase key _ _ => arrays.erase (has key)
  | .clear => arrays.erase true
  | _ => arrays

end Calls

end Arrays

structure Placed (μ : Type) where
  arrays : Arrays
  map : μ

section Placed

variable {k v : Nat}

def flatPlaced (s : Placed FlatMap) (call : MapCall k v × Moved) : Option (MapAnswer × Placed FlatMap) :=
  (flatCall s.map call.1).map fun r =>
    (r.1, ⟨s.arrays.after (fun key => s.map.mapIn key.val = some true) call.2 call.1, r.2⟩)

def mapPlaced (s : Placed (Map (Slot k) (Slot v))) (call : MapCall k v × Moved) :
    MapAnswer × Placed (Map (Slot k) (Slot v)) :=
  ((mapCall s.map call.1).1, ⟨s.arrays.after (mapIn s.map) call.2 call.1, (mapCall s.map call.1).2⟩)

def Placed.Represents (s : Placed FlatMap) (p : Placed (Map (Slot k) (Slot v))) : Prop :=
  s.arrays = p.arrays ∧ s.map.Represents p.map

theorem flatPlaced_simulates (kPos : 0 < k) (vPos : 0 < v) :
    Refinement.Simulates flatPlaced (@mapPlaced k v) Placed.Represents := by
  rintro s p ⟨call, moved⟩ ⟨arrays, represents⟩
  obtain ⟨next, called, kept⟩ := FlatMap.flatCall_simulates kPos vPos s.map p.map call represents
  have has : (fun key : Slot k => decide (s.map.mapIn key.val = some true)) = mapIn p.map := by
    funext key
    rw [represents.mapIn key]
    simp
  refine ⟨⟨p.arrays.after (mapIn p.map) moved call, next⟩, ?_, rfl, kept⟩
  rw [flatPlaced, called, Option.map_some, has, arrays]
  rfl

theorem Arrays.PointsTo.call {p : Placed (Map (Slot k) (Slot v))} {key : Slot k} {ptr : SlotPtr}
    (points : p.arrays.PointsTo p.map key ptr) (call : MapCall k v × Moved) :
    (mapPlaced p call).2.arrays.PointsTo (mapPlaced p call).2.map key ptr := by
  obtain ⟨call, moved⟩ := call
  have taken := points.taken
  cases call with
  | set other val kFresh vFresh => exact points.set other val moved
  | erase other kFresh vFresh => exact points.erase other
  | clear => exact ⟨Nat.le_succ_of_le taken, fun there => absurd there (Nat.ne_of_lt (Nat.lt_succ_of_le taken))⟩
  | _ => exact points

theorem Arrays.PointsTo.replay {p : Placed (Map (Slot k) (Slot v))} {key : Slot k} {ptr : SlotPtr}
    (points : p.arrays.PointsTo p.map key ptr) (calls : List (MapCall k v × Moved)) :
    (Refinement.replay mapPlaced p calls).2.arrays.PointsTo (Refinement.replay mapPlaced p calls).2.map key ptr := by
  induction calls generalizing p with
  | nil => exact points
  | cons call rest ih => exact ih (points.call call)

theorem FlatMap.Represents.mapAt_find {f : FlatMap} {m : Map (Slot k) (Slot v)} (represents : f.Represents m)
    (kPos : 0 < k) (vPos : 0 < v) (arrays : Arrays) (key : Slot k) :
    f.mapAt key.val = some ((arrays.find m key).map fun ptr => ptr.slot * v) := by
  rw [FlatMap.mapAt, if_neg (represents.positive kPos vPos), represents.findKey key, Option.map_some, Arrays.find,
    Option.map_map, represents.vSize]
  rfl

/-- The pointer that map_at returned for a key points to what is stored for the
key, whatever was called in between, as long as the array is there. -/
theorem FlatMap.pointer_current (kPos : 0 < k) (vPos : 0 < v) (before later : List (MapCall k v × Moved))
    (key : Slot k) :
    ∃ first s rest t, Refinement.execute flatPlaced ⟨.init, FlatMap.mapInit k v⟩ before = some (first, s) ∧
      Refinement.execute flatPlaced s later = some (rest, t) ∧
      ∀ offset, s.map.mapAt key.val = some (some offset) → t.arrays.values = s.arrays.values →
        ∃ val, Records.readAt t.map.values offset v = some val ∧ t.map.mapCopyAt key.val = some (some val) := by
  have simulates := @flatPlaced_simulates k v kPos vPos
  have start : Placed.Represents ⟨.init, FlatMap.mapInit k v⟩ ⟨.init, Dcn.mapInit (Slot k) (Slot v)⟩ :=
    ⟨rfl, FlatMap.represents_init k v⟩
  obtain ⟨s, ran, related⟩ := simulates.run before start
  obtain ⟨t, more, sameArrays, represents⟩ := simulates.run later related
  refine ⟨_, s, _, t, ran, more, fun offset found there => ?_⟩
  rw [related.2.mapAt_find kPos vPos _ key, Option.some.injEq, Option.map_eq_some_iff] at found
  obtain ⟨ptr, found, rfl⟩ := found
  have points := (Arrays.pointsTo_find found).replay later
  have live : ptr.array = (Refinement.replay mapPlaced
      (Refinement.replay mapPlaced ⟨.init, Dcn.mapInit (Slot k) (Slot v)⟩ before).2 later).2.arrays.values := by
    rw [Arrays.array_find found, ← related.1, ← sameArrays, there]
  obtain ⟨val, read, stored⟩ := points.value live
  rw [Arrays.value, if_pos live] at read
  obtain ⟨e, entry, rfl⟩ := Option.map_eq_some_iff.mp read
  have bytes := represents.readVal entry
  rw [represents.vSize] at bytes
  exact ⟨e.2.val, bytes, by rw [represents.mapCopyAt key, stored]; rfl⟩

end Placed

section Stored

def storeBytes (one two val : UInt8) : MapCall 2 1 := .set ⟨[one, two], rfl⟩ ⟨[val], rfl⟩ (fun _ => 0) fun _ => 0

def stored : List (MapCall 2 1 × Moved) := [(storeBytes 1 2 7, ⟨true, true⟩)]

/-- Another key is stored, for which the array of keys is moved, and the first one
again. -/
def storedAgain : List (MapCall 2 1 × Moved) :=
  [(storeBytes 1 3 8, ⟨true, false⟩), (storeBytes 1 2 9, ⟨true, true⟩)]

theorem FlatMap.pointer_current_stored :
    ∃ first s rest t, Refinement.execute flatPlaced ⟨.init, FlatMap.mapInit 2 1⟩ stored = some (first, s) ∧
      Refinement.execute flatPlaced s storedAgain = some (rest, t) ∧ s.map.mapAt [1, 2] = some (some 0) ∧
      t.arrays.values = s.arrays.values ∧
      ∃ val, Records.readAt t.map.values 0 1 = some val ∧ t.map.mapCopyAt [1, 2] = some (some val) := by
  obtain ⟨first, s, rest, t, ran, more, points⟩ :=
    FlatMap.pointer_current (by decide) (by decide) stored storedAgain ⟨[1, 2], rfl⟩
  have found : s.map.mapAt [1, 2] = some (some 0) := by
    have computed : (Refinement.execute flatPlaced ⟨.init, FlatMap.mapInit 2 1⟩ stored).map
        (fun r => r.2.map.mapAt [1, 2]) = some (some (some 0)) := by decide
    rw [ran] at computed
    exact Option.some.inj computed
  have kept : t.arrays.values = s.arrays.values := by
    have computed : (Refinement.execute flatPlaced ⟨.init, FlatMap.mapInit 2 1⟩ stored).bind (fun r =>
        (Refinement.execute flatPlaced r.2 storedAgain).map fun q => decide (q.2.arrays.values = r.2.arrays.values)) =
          some true := by decide
    rw [ran, Option.bind_some, more] at computed
    exact of_decide_eq_true (Option.some.inj computed)
  exact ⟨first, s, rest, t, ran, more, found, kept, points 0 found kept⟩

end Stored

end Dcn
