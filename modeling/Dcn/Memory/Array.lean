import Dcn.Foundation.Runs
import Dcn.Memory.FlatMap

/-! The dynamic array of array.c.

Elements of one size lie in a block from its start on. `head` is the number of
elements that the block is taken to have room for; how many bytes it really has
is its length. A call that would read or write outside of the block has no
result. The lengths do not wrap.
-/

set_option autoImplicit false

namespace Dcn

def arrayHeadStep : Nat := 10

/-- struct array; a NULL block is empty. `mtx` is how often the calling thread
holds the mutex. `head` never falls below `len`, so their difference does not
wrap. -/
structure FlatArray where
  blocks : Block
  mtx : Nat
  len : Nat
  head : Nat
  elSize : Nat
  bounded : len ≤ head

/-- What realloc gives: NULL, or the contents of the bytes that are new. -/
abbrev Realloc := Option (Nat → UInt8)

namespace FlatArray

def arrayInit (element : Nat) : FlatArray := ⟨[], 0, 0, 0, element, Nat.le_refl 0⟩

variable (a : FlatArray)

def closed (inx : Nat) : Option Block :=
  if inx < a.len - 1 then
    (Records.readAt a.blocks ((inx + 1) * a.elSize) ((a.len - inx - 1) * a.elSize)).bind
      (Records.writeAt a.blocks (inx * a.elSize))
  else some a.blocks

/-- The test of array_del for too much room, with the element gone. -/
def Spacious : Prop := arrayHeadStep * 2 < a.head - (a.len - 1) ∧ 0 < a.len - 1

instance : Decidable a.Spacious := inferInstanceAs (Decidable (_ ∧ _))

def shorter (blocks : Block) (mtx : Nat) : FlatArray :=
  ⟨blocks, mtx, a.len - 1, a.head, a.elSize, (Nat.sub_le a.len 1).trans a.bounded⟩

def arrayDel (inx : Nat) (shrunk : Realloc) : Option (Bool × FlatArray) :=
  if a.len ≤ inx then some (false, a)
  else (a.closed inx).map fun blocks =>
    if a.Spacious then
      match shrunk with
      -- The mutex is not unlocked here.
      | none => (false, a.shorter blocks (a.mtx + 1))
      | some fresh => (true, a.shorter (FlatMap.realloc blocks ((a.len - 1 - 1) * a.elSize) fresh) a.mtx)
    else (true, a.shorter blocks a.mtx)

def put (block : Block) (room : a.len < a.head) : Option FlatArray :=
  (Records.writeAt a.blocks (a.len * a.elSize) block).map fun blocks =>
    ⟨blocks, a.mtx, a.len + 1, a.head, a.elSize, room⟩

def grown (fresh : Nat → UInt8) : FlatArray :=
  ⟨FlatMap.realloc a.blocks ((a.head + arrayHeadStep) * a.elSize) fresh, a.mtx, a.len, a.head + arrayHeadStep, a.elSize,
    a.bounded.trans (Nat.le_add_right a.head arrayHeadStep)⟩

def arrayAppend (block : Block) (larger : Realloc) : Option (Int × FlatArray) :=
  if room : a.len < a.head then (a.put block room).map fun next => (0, next)
  else
    match larger with
    | none => some (-1, a)
    | some fresh =>
      ((a.grown fresh).put block (Nat.lt_of_le_of_lt a.bounded (Nat.lt_add_of_pos_right (by decide)))).map fun next => (0, next)

/-- The offset in the block that `*out` points to; none is NULL. -/
def arrayAt (inx : Nat) : Int × Option Nat :=
  if a.len ≤ inx then (-1, none) else (0, some (inx * a.elSize))

def arrayCopyAt (inx : Nat) : Option (Int × Option Block) :=
  if a.len ≤ inx then some (-1, none)
  else (Records.readAt a.blocks (inx * a.elSize) a.elSize).map fun el => (0, some el)

end FlatArray

inductive ArrayCall (el : Nat) where
  | append (block : Slot el) (fresh : Nat → UInt8)
  | del (inx : Nat) (fresh : Nat → UInt8)

structure ArrayRun (el : Nat) where
  array : Option FlatArray
  elements : List (Slot el)

namespace ArrayRun

variable {el : Nat}

def start (el : Nat) : ArrayRun el := ⟨some (.arrayInit el), []⟩

def step (s : ArrayRun el) : ArrayCall el → ArrayRun el
  | .append block fresh =>
    ⟨s.array.bind fun a => (a.arrayAppend block.val (some fresh)).map Prod.snd, s.elements ++ [block]⟩
  | .del inx fresh =>
    ⟨s.array.bind fun a => (a.arrayDel inx (some fresh)).map Prod.snd, s.elements.eraseIdx inx⟩

end ArrayRun

structure FlatArray.Serves {el : Nat} (a : FlatArray) (elements : List (Slot el)) : Prop where
  elSize : a.elSize = el
  len : a.len = elements.length
  roomLen : a.len * el ≤ a.blocks.length
  roomHead : a.head * el ≤ a.blocks.length
  reads : ∀ i r, elements[i]? = some r →
    a.arrayAt i = (0, some (i * el)) ∧ Records.readAt a.blocks (i * el) el = some r.val ∧
      a.arrayCopyAt i = some (0, some r.val)

def ArrayRun.Sound {el : Nat} (s : ArrayRun el) : Prop := ∃ a, s.array = some a ∧ a.Serves s.elements

def ArrayRun.KeepsBlock {el : Nat} (s : ArrayRun el) : ArrayCall el → Prop
  | .append _ _ => True
  | .del inx _ => ∀ a, s.array = some a → ¬ (inx < a.len ∧ a.Spacious)

namespace FlatArray

section Serves

variable {el : Nat} {a : FlatArray} {elements : List (Slot el)}

def rows (elements : List (Slot el)) : List Block := elements.map Subtype.val

theorem sized_rows (elements : List (Slot el)) : Records.Sized el (rows elements) := by
  intro r member
  obtain ⟨e, -, same⟩ := List.mem_map.mp member
  exact same ▸ e.property

@[simp] theorem length_rows (elements : List (Slot el)) : (rows elements).length = elements.length := List.length_map _

theorem serves_iff : a.Serves elements ↔ a.elSize = el ∧ a.len = elements.length ∧
    a.head * el ≤ a.blocks.length ∧ (rows elements).flatten <+: a.blocks := by
  constructor
  · intro serves
    refine ⟨serves.elSize, serves.len, serves.roomHead, Records.front_of_reads (sized_rows elements) ?_ ?_⟩
    · rw [length_rows, ← serves.len]
      exact serves.roomLen
    · intro i r slot
      rw [rows, List.getElem?_map] at slot
      obtain ⟨e, place, same⟩ := Option.map_eq_some_iff.mp slot
      subst same
      exact (serves.reads i e place).2.1
  · rintro ⟨elSize, len, roomHead, front⟩
    refine ⟨elSize, len, (Nat.mul_le_mul_right el a.bounded).trans roomHead, roomHead, fun i r slot => ?_⟩
    have read : Records.readAt a.blocks (i * el) el = some r.val :=
      Records.readAt_front_row (sized_rows elements) front (by simp [rows, slot])
    have inside : ¬ a.len ≤ i := by
      have bound := (List.getElem?_eq_some_iff.mp slot).1
      omega
    refine ⟨by rw [arrayAt, if_neg inside, elSize], read, ?_⟩
    rw [arrayCopyAt, if_neg inside, elSize, read]
    rfl

theorem serves_init (el : Nat) : (arrayInit el).Serves ([] : List (Slot el)) :=
  serves_iff.mpr ⟨rfl, rfl, by simp [arrayInit], List.nil_prefix⟩

theorem serves_put (serves : a.Serves elements) (block : Slot el) (room : a.len < a.head) :
    ∃ next, a.put block.val room = some next ∧ next.Serves (elements ++ [block]) := by
  obtain ⟨elSize, len, roomHead, front⟩ := serves_iff.mp serves
  have inside : (rows elements).length * el + block.val.length ≤ a.blocks.length := by
    rw [length_rows, ← len, block.property, ← Nat.succ_mul]
    exact (Nat.mul_le_mul_right el room).trans roomHead
  obtain ⟨blocks, written, size, front⟩ := Records.writeAt_behind (sized_rows elements) front inside
  rw [length_rows, ← len] at written
  refine ⟨⟨blocks, a.mtx, a.len + 1, a.head, a.elSize, room⟩, ?_, serves_iff.mpr ⟨elSize, ?_, ?_, ?_⟩⟩
  · simp only [put, elSize, written, Option.map_some]
  · simp [len]
  · rw [size]
    exact roomHead
  · rw [rows, List.map_append]
    exact front

theorem serves_grown (serves : a.Serves elements) (fresh : Nat → UInt8) : (a.grown fresh).Serves elements := by
  obtain ⟨elSize, len, roomHead, front⟩ := serves_iff.mp serves
  have fits : (rows elements).flatten.length ≤ (a.head + arrayHeadStep) * a.elSize := by
    rw [Records.length_rows (sized_rows elements), length_rows, ← len, elSize]
    exact Nat.mul_le_mul_right el (a.bounded.trans (Nat.le_add_right a.head arrayHeadStep))
  refine serves_iff.mpr ⟨elSize, len, ?_, ?_⟩
  · rw [grown, FlatMap.length_realloc, elSize]
  · exact FlatMap.realloc_front front fits fresh

theorem serves_append (serves : a.Serves elements) (block : Slot el) (fresh : Nat → UInt8) :
    ∃ next, a.arrayAppend block.val (some fresh) = some (0, next) ∧ next.Serves (elements ++ [block]) := by
  unfold arrayAppend
  split
  · next room =>
    obtain ⟨next, placed, serves⟩ := serves_put serves block room
    exact ⟨next, by rw [placed]; rfl, serves⟩
  · next full =>
    obtain ⟨next, placed, serves⟩ := serves_put (serves_grown serves fresh) block
      (Nat.lt_of_le_of_lt a.bounded (Nat.lt_add_of_pos_right (by decide)))
    exact ⟨next, by simp only [placed]; rfl, serves⟩

theorem closed_front (serves : a.Serves elements) {inx : Nat} (bound : inx < a.len) :
    ∃ blocks, a.closed inx = some blocks ∧ blocks.length = a.blocks.length ∧
      (rows (elements.eraseIdx inx)).flatten <+: blocks := by
  obtain ⟨elSize, len, roomHead, front⟩ := serves_iff.mp serves
  have erased : rows (elements.eraseIdx inx) = (rows elements).eraseIdx inx := (List.eraseIdx_map _ _ _).symm
  rw [erased, closed, elSize]
  split
  · have inside : inx < (rows elements).length := by
      rw [length_rows]
      omega
    have moved := Records.writeAt_closed (sized_rows elements) front inside
    rwa [length_rows, ← len] at moved
  · next last =>
    -- The last element is left where it is.
    have ends : inx + 1 = (rows elements).length := by
      rw [length_rows]
      omega
    rw [List.eraseIdx_eq_dropLast ends]
    exact ⟨a.blocks, rfl, rfl, (List.dropLast_prefix _).flatten.trans front⟩

theorem length_eraseIdx {inx : Nat} (len : a.len = elements.length) (bound : inx < a.len) :
    a.len - 1 = (elements.eraseIdx inx).length := by
  rw [List.length_eraseIdx, if_pos (by omega), len]

/-- A deletion serves the shorter list exactly where it keeps the block: a block
that is shrunk lacks the place of the last element. -/
theorem serves_del_iff (positive : 0 < el) (serves : a.Serves elements) (inx : Nat) (fresh : Nat → UInt8) :
    ∃ code next, a.arrayDel inx (some fresh) = some (code, next) ∧
      (next.Serves (elements.eraseIdx inx) ↔ ¬ (inx < a.len ∧ a.Spacious)) := by
  obtain ⟨elSize, len, roomHead, -⟩ := serves_iff.mp serves
  unfold arrayDel
  by_cases outside : a.len ≤ inx
  · refine ⟨false, a, by rw [if_pos outside], iff_of_true ?_ fun shrinks => by omega⟩
    rwa [List.eraseIdx_of_length_le (by omega)]
  · have bound : inx < a.len := by omega
    obtain ⟨blocks, moved, size, front⟩ := closed_front serves bound
    rw [if_neg outside, moved, Option.map_some]
    by_cases spacious : a.Spacious
    · refine ⟨true, a.shorter (FlatMap.realloc blocks ((a.len - 1 - 1) * a.elSize) fresh) a.mtx, by rw [if_pos spacious],
        iff_of_false (fun served => ?_) fun kept => kept ⟨bound, spacious⟩⟩
      have roomLen : (a.len - 1) * el ≤ (a.len - 1 - 1) * el := by
        have room := served.roomLen
        rwa [shorter, FlatMap.length_realloc, elSize] at room
      have some_left : 0 < a.len - 1 := spacious.2
      have fewer := Nat.le_of_mul_le_mul_right roomLen positive
      omega
    · refine ⟨true, a.shorter blocks a.mtx, by rw [if_neg spacious], iff_of_true ?_ fun shrinks => spacious shrinks.2⟩
      refine serves_iff.mpr ⟨elSize, length_eraseIdx len bound, ?_, front⟩
      rw [shorter, size]
      exact roomHead

end Serves

end FlatArray

namespace ArrayRun

variable {el : Nat}

theorem sound_start (el : Nat) : (start el).Sound := ⟨.arrayInit el, rfl, FlatArray.serves_init el⟩

theorem sound_step_iff (positive : 0 < el) (s : ArrayRun el) (call : ArrayCall el) (sound : s.Sound) :
    (s.step call).Sound ↔ s.KeepsBlock call := by
  obtain ⟨a, here, serves⟩ := sound
  cases call with
  | append block fresh =>
    obtain ⟨next, placed, serves⟩ := FlatArray.serves_append serves block fresh
    exact iff_of_true ⟨next, by simp [step, here, placed], serves⟩ trivial
  | del inx fresh =>
    obtain ⟨code, next, deleted, iff⟩ := FlatArray.serves_del_iff positive serves inx fresh
    have after : (s.step (.del inx fresh)).array = some next := by simp [step, here, deleted]
    simp only [Sound, after, KeepsBlock, here, Option.some.injEq, forall_eq']
    exact (exists_eq_left'.trans iff)

/-- An array represents its list throughout exactly the runs in which no
deletion shrinks the block. -/
theorem sound_iff (positive : 0 < el) (calls : List (ArrayCall el)) :
    Runs.Throughout step Sound (start el) calls ↔ Runs.Along step KeepsBlock (start el) calls :=
  Runs.throughout_iff_along_all (fun _ => True) (fun _ _ _ => trivial)
    (fun s call _ sound => sound_step_iff positive s call sound) trivial (sound_start el)

def appendByte : ArrayCall 1 := .append ⟨[7], rfl⟩ fun _ => 0

def deleteFirst : ArrayCall 1 := .del 0 fun _ => 0

theorem sound_append_delete : Runs.Throughout step Sound (start 1) [appendByte, appendByte, deleteFirst] := by
  apply (sound_iff (by decide) [appendByte, appendByte, deleteFirst]).mpr
  refine ⟨trivial, trivial, ?_, trivial⟩
  rintro a ⟨rfl⟩
  decide

theorem shrunk_too_far : ¬ Runs.Throughout step Sound (start 1)
    (List.replicate 21 appendByte ++ List.replicate 12 deleteFirst) := by
  intro sound
  obtain ⟨a, here, serves⟩ := sound.last
  have lengths : (Runs.run step (start 1) (List.replicate 21 appendByte ++ List.replicate 12 deleteFirst)).array.map
      (fun a => (a.len, a.blocks.length)) = some (9, 8) := by decide
  rw [here, Option.map_some, Option.some.injEq, Prod.mk.injEq] at lengths
  have room := serves.roomLen
  omega

end ArrayRun

end Dcn
