import Mathlib.Algebra.Order.Ring.Nat
import Mathlib.Data.List.Basic

/-! Arrays of records of one size in a flat buffer.

A buffer is read and written at an offset, within its bounds only. Where it is
made of records of one size, records are what is read at the multiples of the
size, and copies of whole records copy stretches of the array.
-/

set_option autoImplicit false

namespace Records

variable {α : Type}

/-- `count` cells from an offset on; none where they do not lie in the buffer. -/
def readAt (buf : List α) (offset count : Nat) : Option (List α) :=
  if offset + count ≤ buf.length then some ((buf.drop offset).take count) else none

def writeAt (buf : List α) (offset : Nat) (src : List α) : Option (List α) :=
  if offset + src.length ≤ buf.length then some (buf.take offset ++ src ++ buf.drop (offset + src.length)) else none

def Sized (size : Nat) (rows : List (List α)) : Prop := ∀ r ∈ rows, r.length = size

section Buffers

variable {buf src tail : List α}

theorem writeAt_front (room : src.length ≤ buf.length) : writeAt buf 0 src = some (src ++ buf.drop src.length) := by
  rw [writeAt, if_pos (by omega), List.take_zero, List.nil_append, Nat.zero_add]

theorem writeAt_end (fits : tail.length = src.length) : writeAt (buf ++ tail) buf.length src = some (buf ++ src) := by
  have room : buf.length + src.length ≤ (buf ++ tail).length := by
    rw [List.length_append]
    omega
  have nothing : (buf ++ tail).drop (buf.length + src.length) = [] := by
    rw [List.drop_eq_nil_iff, List.length_append]
    omega
  rw [writeAt, if_pos room, List.take_left, nothing, List.append_nil]

theorem writeAt_nil (offset : Nat) (inside : offset ≤ buf.length) : writeAt buf offset [] = some buf := by
  rw [writeAt, if_pos (by simpa using inside)]
  simp

theorem writeAt_fill {first second : List α} (fits : buf.length = first.length + second.length) :
    ((writeAt buf 0 first).bind fun b => writeAt b first.length second) = some (first ++ second) := by
  rw [writeAt_front (by omega), Option.bind_some]
  apply writeAt_end
  rw [List.length_drop]
  omega

end Buffers

section Rows

variable {size : Nat} {rows : List (List α)} {r : List α}

theorem Sized.tail (sized : Sized size (r :: rows)) : Sized size rows :=
  fun s member => sized s (List.mem_cons_of_mem r member)

theorem Sized.head (sized : Sized size (r :: rows)) : r.length = size := sized r List.mem_cons_self

theorem length_rows (sized : Sized size rows) : rows.flatten.length = rows.length * size := by
  induction rows with
  | nil => simp
  | cons r rest ih =>
    rw [List.flatten_cons, List.length_append, sized.head, ih sized.tail, List.length_cons, Nat.succ_mul]
    omega

theorem take_rows (sized : Sized size rows) (i : Nat) : rows.flatten.take (i * size) = (rows.take i).flatten := by
  induction i generalizing rows with
  | zero => simp
  | succ i ih =>
    cases rows with
    | nil => simp
    | cons r rest =>
      have isSize := sized.head
      have whole : (i + 1) * size = r.length + i * size := by rw [Nat.succ_mul, isSize, Nat.add_comm]
      rw [whole, List.flatten_cons, List.take_length_add_append, ih sized.tail, List.take_succ_cons, List.flatten_cons]

theorem drop_rows (sized : Sized size rows) (i : Nat) : rows.flatten.drop (i * size) = (rows.drop i).flatten := by
  induction i generalizing rows with
  | zero => simp
  | succ i ih =>
    cases rows with
    | nil => simp
    | cons r rest =>
      have isSize := sized.head
      have whole : (i + 1) * size = r.length + i * size := by rw [Nat.succ_mul, isSize, Nat.add_comm]
      rw [whole, List.flatten_cons, List.drop_length_add_append, List.drop_succ_cons]
      exact ih sized.tail

theorem readAt_rows (sized : Sized size rows) {i count : Nat} (room : i + count ≤ rows.length) :
    readAt rows.flatten (i * size) (count * size) = some ((rows.drop i).take count).flatten := by
  have inside : i * size + count * size ≤ rows.flatten.length := by
    rw [length_rows sized, ← Nat.add_mul]
    exact Nat.mul_le_mul_right size room
  have rest : Sized size (rows.drop i) := fun r member => sized r (List.mem_of_mem_drop member)
  rw [readAt, if_pos inside, drop_rows sized, take_rows rest]

theorem readAt_row (sized : Sized size rows) {i : Nat} (slot : rows[i]? = some r) :
    readAt rows.flatten (i * size) size = some r := by
  obtain ⟨bound, isRow⟩ := List.getElem?_eq_some_iff.mp slot
  have one := readAt_rows sized (show i + 1 ≤ rows.length from bound)
  rw [Nat.one_mul, List.drop_eq_getElem_cons bound, isRow, List.take_succ_cons, List.take_zero] at one
  simpa using one

theorem writeAt_row (sized : Sized size rows) {i : Nat} (bound : i < rows.length) (isSize : r.length = size) :
    writeAt rows.flatten (i * size) r = some (rows.set i r).flatten := by
  have next : i * size + r.length = (i + 1) * size := by rw [isSize, Nat.succ_mul]
  have room : i * size + r.length ≤ rows.flatten.length := by
    rw [length_rows sized, next]
    exact Nat.mul_le_mul_right size bound
  rw [writeAt, if_pos room, next, take_rows sized, drop_rows sized, List.set_eq_take_append_cons_drop, if_pos bound]
  simp

end Rows

/-! Records at the front of a buffer that may be longer. -/

section Front

variable {size : Nat} {rows : List (List α)} {r buf : List α}

theorem readAt_front (front : rows.flatten <+: buf) {offset count : Nat} (inside : offset + count ≤ rows.flatten.length) :
    readAt buf offset count = readAt rows.flatten offset count := by
  obtain ⟨tail, rfl⟩ := front
  have room : offset + count ≤ (rows.flatten ++ tail).length := by
    rw [List.length_append]
    omega
  have enough : count ≤ (rows.flatten.drop offset).length := by
    rw [List.length_drop]
    omega
  rw [readAt, if_pos room, readAt, if_pos inside, List.drop_append_of_le_length (by omega),
    List.take_append_of_le_length enough]

theorem readAt_front_row (sized : Sized size rows) (front : rows.flatten <+: buf) {i : Nat} (slot : rows[i]? = some r) :
    readAt buf (i * size) size = some r := by
  have bound : i + 1 ≤ rows.length := (List.getElem?_eq_some_iff.mp slot).1
  have inside : i * size + size ≤ rows.flatten.length := by
    rw [length_rows sized, ← Nat.succ_mul]
    exact Nat.mul_le_mul_right size bound
  rw [readAt_front front inside, readAt_row sized slot]

/-- A buffer from which each record is read has the records at its front. -/
theorem front_of_reads (sized : Sized size rows) (room : rows.length * size ≤ buf.length)
    (reads : ∀ i r, rows[i]? = some r → readAt buf (i * size) size = some r) : rows.flatten <+: buf := by
  induction rows generalizing buf with
  | nil => exact List.nil_prefix
  | cons r rest ih =>
    have isSize := sized.head
    have first := reads 0 r rfl
    rw [List.length_cons, Nat.succ_mul] at room
    rw [Nat.zero_mul, readAt, if_pos (by omega), List.drop_zero, Option.some.injEq] at first
    have later : rest.flatten <+: buf.drop size := by
      refine ih sized.tail (by rw [List.length_drop]; omega) fun i s slot => ?_
      have next := reads (i + 1) s slot
      rw [readAt, Nat.succ_mul] at next
      split at next
      · next inside =>
        rw [readAt, if_pos (by rw [List.length_drop]; omega), List.drop_drop, Nat.add_comm size, next]
      · cases next
    rw [List.flatten_cons, ← List.take_append_drop size buf, first]
    exact (List.prefix_append_right_inj r).mpr later

theorem writeAt_behind (sized : Sized size rows) (front : rows.flatten <+: buf)
    (room : rows.length * size + r.length ≤ buf.length) :
    ∃ next, writeAt buf (rows.length * size) r = some next ∧ next.length = buf.length ∧ (rows ++ [r]).flatten <+: next := by
  obtain ⟨tail, rfl⟩ := front
  rw [List.length_append, ← length_rows sized] at room
  rw [← length_rows sized, writeAt, if_pos (by rw [List.length_append]; omega), List.take_left]
  refine ⟨_, rfl, ?_, ?_⟩
  · simp only [List.length_append, List.length_drop]
    omega
  · rw [List.flatten_append, List.flatten_singleton]
    exact List.prefix_append _ _

/-- Moving the records behind a place to it closes the place. -/
theorem writeAt_closed (sized : Sized size rows) (front : rows.flatten <+: buf) {inx : Nat} (bound : inx < rows.length) :
    ∃ next, (readAt buf ((inx + 1) * size) ((rows.length - inx - 1) * size)).bind (writeAt buf (inx * size)) =
        some next ∧ next.length = buf.length ∧ (rows.eraseIdx inx).flatten <+: next := by
  have before : Sized size (rows.take inx) := fun r member => sized r (List.mem_of_mem_take member)
  have behind : Sized size (rows.drop (inx + 1)) := fun r member => sized r (List.mem_of_mem_drop member)
  have all := length_rows sized
  have longer := front.length_le
  have whole : (inx + 1) * size + (rows.length - inx - 1) * size = rows.length * size := by
    rw [← Nat.add_mul]
    congr 1
    omega
  have moved : readAt buf ((inx + 1) * size) ((rows.length - inx - 1) * size) = some (rows.drop (inx + 1)).flatten := by
    have count : rows.length - inx - 1 = (rows.drop (inx + 1)).length := by rw [List.length_drop, Nat.sub_sub]
    rw [readAt_front front (by omega), readAt_rows sized (by omega), count, List.take_length]
  have moves : (rows.drop (inx + 1)).flatten.length = (rows.length - inx - 1) * size := by
    rw [length_rows behind, List.length_drop, Nat.sub_sub]
  have kept : buf.take (inx * size) = (rows.take inx).flatten := by
    obtain ⟨tail, rfl⟩ := front
    have fewer : inx * size ≤ rows.length * size := Nat.mul_le_mul_right size bound.le
    rw [List.take_append_of_le_length (by omega), take_rows sized]
  have place : inx * size + size = (inx + 1) * size := (Nat.succ_mul inx size).symm
  have shorter : (rows.take inx).flatten.length = inx * size := by
    rw [length_rows before, List.length_take, Nat.min_eq_left bound.le]
  rw [moved, Option.bind_some, writeAt, if_pos (by omega), kept, List.eraseIdx_eq_take_drop_succ, List.flatten_append]
  refine ⟨_, rfl, ?_, List.prefix_append _ _⟩
  simp only [List.length_append, List.length_drop]
  omega

end Front

end Records
