import Dcn.Foundation.Records
import Dcn.Foundation.Runs
import Dcn.Memory.Map
import Dcn.Memory.Queue

/-! The map of map.c in its two buffers.

Keys and values lie in two byte arrays, at the same index times their sizes. A
call that would read or write outside of an array has no result. What malloc and
realloc give beyond what was there is arbitrary, and they succeed.
-/

set_option autoImplicit false

namespace Dcn

abbrev Slot (size : Nat) := { bytes : Block // bytes.length = size }

structure FlatMap where
  keys : Block
  values : Block
  kSize : Nat
  vSize : Nat
  len : Nat
  deriving DecidableEq, Repr

structure MapAnswer where
  code : Int
  out : Option Block
  deriving DecidableEq, Repr

inductive MapCall (k v : Nat) where
  | set (key : Slot k) (val : Slot v) (kFresh vFresh : Nat → UInt8)
  | erase (key : Slot k) (kFresh vFresh : Nat → UInt8)
  | clear
  | atKey (key : Slot k)
  | isIn (key : Slot k)
  | copyAt (key : Slot k)
  | keyByVal (val : Slot v)
  | valueIn (val : Slot v)
  | keyAt (inx : Nat)
  | valAt (inx : Nat)
  | empty

namespace FlatMap

def realloc (buf : Block) (size : Nat) (fresh : Nat → UInt8) : Block :=
  buf.take size ++ (List.range (size - buf.length)).map fresh

/-- The loop that compares a key or a value with the slots left, from slot `ki`
on: the slot of the first hit. -/
def scan (buf : Block) (size : Nat) (target : Block) : Nat → Nat → Option (Option Nat)
  | 0, _ => some none
  | left + 1, ki =>
    (Records.readAt buf (ki * size) size).bind fun k =>
      if k = target then some (some ki) else scan buf size target left (ki + 1)

def mapInit (kSize vSize : Nat) : FlatMap := ⟨[], [], kSize, vSize, 0⟩

variable (m : FlatMap)

def findKey (key : Block) : Option (Option Nat) := scan m.keys m.kSize key m.len 0

def findVal (val : Block) : Option (Option Nat) := scan m.values m.vSize val m.len 0

/-- The offset in `values` of what `out` points to; none where it returns false. -/
def mapAt (key : Block) : Option (Option Nat) :=
  if m.kSize = 0 ∨ m.vSize = 0 then some none
  else (m.findKey key).map fun hit => hit.map fun inx => inx * m.vSize

def mapIn (key : Block) : Option Bool := (m.findKey key).map Option.isSome

def mapEmpty : Bool := m.len = 0

def mapValueIn (val : Block) : Option Bool := (m.findVal val).map Option.isSome

def mapCopyAt (key : Block) : Option (Option Block) :=
  (m.findKey key).bind fun
    | none => some none
    | some inx => (Records.readAt m.values (inx * m.vSize) m.vSize).map some

def mapKeyByVal (val : Block) : Option (Option Nat) :=
  (m.findVal val).map fun hit => hit.map fun inx => inx * m.kSize

def grow (buf : Block) (size len : Nat) (src : Block) (fresh : Nat → UInt8) : Option Block :=
  Records.writeAt (realloc buf (size * (len + 1)) fresh) (size * len) src

def mapSet (key val : Block) (kFresh vFresh : Nat → UInt8) : Option (Int × FlatMap) :=
  if m.kSize = 0 ∨ m.vSize = 0 then some (-4, m)
  else (m.findKey key).bind fun
    | some inx => (Records.writeAt m.values (inx * m.vSize) val).map fun values => (0, { m with values := values })
    | none =>
      (grow m.keys m.kSize m.len key kFresh).bind fun keys => (grow m.values m.vSize m.len val vFresh).map fun values =>
        (0, { m with keys := keys, values := values, len := m.len + 1 })

def close (buf : Block) (size len inx : Nat) (fresh : Nat → UInt8) : Option Block :=
  let copy := realloc [] (size * (len - 1)) fresh
  let front := if 0 < inx then (Records.readAt buf 0 (size * inx)).bind (Records.writeAt copy 0) else some copy
  front.bind fun copy =>
    if inx < len - 1 then
      (Records.readAt buf (size * (inx + 1)) (size * (len - inx - 1))).bind (Records.writeAt copy (size * inx))
    else some copy

def mapErase (key : Block) (kFresh vFresh : Nat → UInt8) : Option (Int × FlatMap) :=
  (m.findKey key).bind fun
    | none => some (1, m)
    | some inx =>
      if m.len = 1 then some (0, { m with keys := [], values := [], len := m.len - 1 })
      else
        (close m.keys m.kSize m.len inx kFresh).bind fun keys =>
          (close m.values m.vSize m.len inx vFresh).map fun values =>
            (0, { m with keys := keys, values := values, len := m.len - 1 })

def mapKeyAt (inx : Nat) : Option (Int × Option Block) :=
  if m.len ≤ inx then some (-1, none)
  else (Records.readAt m.keys (m.kSize * inx) m.kSize).map fun k => (0, some k)

def mapValAt (inx : Nat) : Option (Int × Option Block) :=
  if m.len ≤ inx then some (-1, none)
  else (Records.readAt m.values (m.vSize * inx) m.vSize).map fun v => (0, some v)

def mapClear : FlatMap := { m with len := 0, keys := [], values := [] }

end FlatMap

def MapAnswer.found (out : Option Block) : MapAnswer := ⟨if out.isSome then 1 else 0, out⟩

def MapAnswer.flag (b : Bool) : MapAnswer := ⟨if b then 1 else 0, none⟩

/-- A copy of what is at an index, or -1. -/
def MapAnswer.indexed (out : Option Block) : MapAnswer := ⟨if out.isSome then 0 else -1, out⟩

def FlatMap.pointee (buf : Block) (size : Nat) : Option Nat → Option (Option Block)
  | none => some none
  | some offset => (Records.readAt buf offset size).map some

/-- A call on the map in its buffers; none where it leaves them. -/
def flatCall {k v : Nat} (m : FlatMap) : MapCall k v → Option (MapAnswer × FlatMap)
  | .set key val kFresh vFresh => (m.mapSet key.val val.val kFresh vFresh).map fun r => (⟨r.1, none⟩, r.2)
  | .erase key kFresh vFresh => (m.mapErase key.val kFresh vFresh).map fun r => (⟨r.1, none⟩, r.2)
  | .clear => some (⟨0, none⟩, m.mapClear)
  | .atKey key => ((m.mapAt key.val).bind (FlatMap.pointee m.values m.vSize)).map fun out => (.found out, m)
  | .isIn key => (m.mapIn key.val).map fun b => (.flag b, m)
  | .copyAt key => (m.mapCopyAt key.val).map fun out => (.found out, m)
  | .keyByVal val => ((m.mapKeyByVal val.val).bind (FlatMap.pointee m.keys m.kSize)).map fun out => (.found out, m)
  | .valueIn val => (m.mapValueIn val.val).map fun b => (.flag b, m)
  | .keyAt inx => (m.mapKeyAt inx).map fun r => (⟨r.1, r.2⟩, m)
  | .valAt inx => (m.mapValAt inx).map fun r => (⟨r.1, r.2⟩, m)
  | .empty => some (.flag m.mapEmpty, m)

def mapCall {k v : Nat} (m : Map (Slot k) (Slot v)) : MapCall k v → MapAnswer × Map (Slot k) (Slot v)
  | .set key val _ _ => (⟨0, none⟩, mapSet m key val)
  | .erase key _ _ => (⟨if mapIn m key then 0 else 1, none⟩, mapErase m key)
  | .clear => (⟨0, none⟩, mapInit (Slot k) (Slot v))
  | .atKey key => (.found ((mapAt m key).map Subtype.val), m)
  | .isIn key => (.flag (mapIn m key), m)
  | .copyAt key => (.found ((mapAt m key).map Subtype.val), m)
  | .keyByVal val => (.found ((mapKeyByVal m val).map Subtype.val), m)
  | .valueIn val => (.flag (mapValueIn m val), m)
  | .keyAt inx => (.indexed ((mapKeyAt m inx).map Subtype.val), m)
  | .valAt inx => (.indexed ((mapValAt m inx).map Subtype.val), m)
  | .empty => (.flag (mapEmpty m), m)

namespace Map

variable {k v : Nat} (m : Map (Slot k) (Slot v))

def keyRows : List Block := m.entries.map fun e => e.1.val

def valRows : List Block := m.entries.map fun e => e.2.val

end Map

structure FlatMap.Represents {k v : Nat} (f : FlatMap) (m : Map (Slot k) (Slot v)) : Prop where
  kSize : f.kSize = k
  vSize : f.vSize = v
  len : f.len = m.entries.length
  keys : f.keys = m.keyRows.flatten
  values : f.values = m.valRows.flatten

namespace FlatMap

section Buffers

variable {rows : List Block} {size : Nat}

theorem length_realloc (buf : Block) (size : Nat) (fresh : Nat → UInt8) : (realloc buf size fresh).length = size := by
  rw [realloc, List.length_append, List.length_take, List.length_map, List.length_range]
  omega

theorem realloc_append {buf : Block} {size : Nat} (fresh : Nat → UInt8) (room : buf.length ≤ size) :
    ∃ tail, realloc buf size fresh = buf ++ tail ∧ tail.length = size - buf.length :=
  ⟨_, by rw [realloc, List.take_of_length_le room], by simp⟩

theorem realloc_front {buf front : Block} {size : Nat} (holds : front <+: buf) (fits : front.length ≤ size)
    (fresh : Nat → UInt8) : front <+: realloc buf size fresh := by
  rw [realloc]
  exact ((List.prefix_take_iff).mpr ⟨holds, fits⟩).trans (List.prefix_append _ _)

theorem scan_rows (sized : Records.Sized size rows) (target : Block) (left ki : Nat) (range : ki + left = rows.length) :
    scan rows.flatten size target left ki =
      some (((rows.drop ki).findIdx? fun r => r = target).map fun i => i + ki) := by
  induction left generalizing ki with
  | zero =>
    rw [scan, List.drop_of_length_le (by omega)]
    rfl
  | succ left ih =>
    have bound : ki < rows.length := by omega
    have row : rows[ki]? = some rows[ki] := List.getElem?_eq_getElem bound
    rw [scan, Records.readAt_row sized row, Option.bind_some, List.drop_eq_getElem_cons bound, List.findIdx?_cons]
    by_cases hit : rows[ki] = target
    · simp [hit]
    · have step : ∀ i, i + (ki + 1) = i + 1 + ki := fun i => by omega
      simp only [hit, ↓reduceIte, decide_false, Bool.false_eq_true, ih (ki + 1) (by omega), Option.map_map,
        Function.comp_def, step]

theorem scan_whole (sized : Records.Sized size rows) (target : Block) :
    scan rows.flatten size target rows.length 0 = some (rows.findIdx? fun r => r = target) := by
  rw [scan_rows sized target rows.length 0 (Nat.zero_add _)]
  simp

theorem grow_rows (sized : Records.Sized size rows) {r : Block} (isSize : r.length = size) (fresh : Nat → UInt8) :
    grow rows.flatten size rows.length r fresh = some (rows ++ [r]).flatten := by
  have length := Records.length_rows sized
  have place : size * rows.length = rows.flatten.length := by rw [length, Nat.mul_comm]
  have more : size * (rows.length + 1) = rows.flatten.length + size := by rw [Nat.mul_succ, place]
  obtain ⟨tail, shape, rest⟩ := @realloc_append rows.flatten (size * (rows.length + 1)) fresh (by omega)
  have fits : tail.length = r.length := by omega
  rw [grow, shape, place, Records.writeAt_end fits]
  simp

theorem close_rows (sized : Records.Sized size rows) {inx : Nat} (bound : inx < rows.length) (fresh : Nat → UInt8) :
    close rows.flatten size rows.length inx fresh = some (rows.eraseIdx inx).flatten := by
  have before : Records.Sized size (rows.take inx) := fun r member => sized r (List.mem_of_mem_take member)
  have behind : Records.Sized size (rows.drop (inx + 1)) := fun r member => sized r (List.mem_of_mem_drop member)
  have first : size * inx = (rows.take inx).flatten.length := by
    rw [Records.length_rows before, List.length_take, Nat.min_eq_left bound.le, Nat.mul_comm]
  have second : size * (rows.length - inx - 1) = (rows.drop (inx + 1)).flatten.length := by
    rw [Records.length_rows behind, List.length_drop, Nat.mul_comm, Nat.sub_sub]
  have front : Records.readAt rows.flatten 0 (size * inx) = some (rows.take inx).flatten := by
    have read := Records.readAt_rows sized (show 0 + inx ≤ rows.length by omega)
    rwa [Nat.zero_mul, List.drop_zero, Nat.mul_comm] at read
  have back : Records.readAt rows.flatten (size * (inx + 1)) (size * (rows.length - inx - 1)) =
      some (rows.drop (inx + 1)).flatten := by
    have count : rows.length - inx - 1 = (rows.drop (inx + 1)).length := by rw [List.length_drop, Nat.sub_sub]
    have read := Records.readAt_rows sized (show inx + 1 + (rows.length - inx - 1) ≤ rows.length by omega)
    rw [Nat.mul_comm (inx + 1), Nat.mul_comm (rows.length - inx - 1)] at read
    rw [read, count, List.take_length]
  -- What is left out where there is nothing before or behind is a copy of no bytes.
  have copyFront : (if 0 < inx then (Records.readAt rows.flatten 0 (size * inx)).bind
      (Records.writeAt (realloc [] (size * (rows.length - 1)) fresh) 0)
        else some (realloc [] (size * (rows.length - 1)) fresh)) =
      Records.writeAt (realloc [] (size * (rows.length - 1)) fresh) 0 (rows.take inx).flatten := by
    split
    · rw [front, Option.bind_some]
    · next none =>
      have start : inx = 0 := by omega
      rw [start, List.take_zero, List.flatten_nil, Records.writeAt_nil 0 (Nat.zero_le _)]
  have fits : (realloc [] (size * (rows.length - 1)) fresh).length =
      (rows.take inx).flatten.length + (rows.drop (inx + 1)).flatten.length := by
    have total : inx + (rows.length - inx - 1) = rows.length - 1 := by omega
    rw [length_realloc, ← first, ← second, ← Nat.mul_add, total]
  have filled := Records.writeAt_fill fits
  rw [close]
  simp only [copyFront]
  rw [List.eraseIdx_eq_take_drop_succ, List.flatten_append, ← filled]
  rw [Records.writeAt_front (by omega), Option.bind_some, Option.bind_some]
  split
  · rw [back, Option.bind_some, first]
  · next none =>
    have ends : rows.drop (inx + 1) = [] := List.drop_of_length_le (by omega)
    rw [ends, List.flatten_nil, Records.writeAt_nil]
    rw [List.length_append]
    omega

end Buffers

end FlatMap

end Dcn
