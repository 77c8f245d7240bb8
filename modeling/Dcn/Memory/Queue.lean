import Mathlib.Data.List.Basic
import Mathlib.Tactic.Common

/-! Blocks and block queues (queue.c).

A block is the bytes its `data` pointer holds; `dsize` is their number. A queue
is the blocks pushed and not yet popped, oldest first. A `SlotQueue` is the queue
as it lies in memory: the slot array, its two counters and the mutex. An
operation on it has no result where it reads a slot outside the array that was
last allocated, or one never written, or writes outside. Allocation succeeds, so
a size that is asked for is the size computed and never wraps. A block copied
from a NULL pointer or from no bytes is the empty block.
-/

set_option autoImplicit false

namespace Dcn

abbrev Block := List UInt8

/-- struct queue, as the blocks in its first `bsize` slots. -/
structure Queue where
  blocks : List Block
  deriving DecidableEq, Repr

def queueInit : Queue := ⟨[]⟩

def pushBlock (q : Queue) (b : Block) : Queue := ⟨q.blocks ++ [b]⟩

/-- The code returned, the block copied out, the queue left. The code is 1 when
there was nothing to pop and 2 when the last block was popped. -/
def popBlock (q : Queue) : Nat × Option Block × Queue :=
  match q.blocks with
  | [] => (1, none, q)
  | [b] => (2, some b, ⟨[]⟩)
  | b :: rest => (0, some b, ⟨rest⟩)

def peekBlock (q : Queue) : Option Block := q.blocks.head?

def queueEmpty (q : Queue) : Bool := q.blocks.isEmpty

@[simp] theorem blocks_queueInit : queueInit.blocks = [] := rfl

@[simp] theorem blocks_pushBlock (q : Queue) (b : Block) : (pushBlock q b).blocks = q.blocks ++ [b] := rfl

theorem popBlock_nil {q : Queue} (empty : q.blocks = []) : popBlock q = (1, none, q) := by
  simp [popBlock, empty]

theorem popBlock_cons {q : Queue} {b : Block} {rest : List Block} (shape : q.blocks = b :: rest) :
    popBlock q = (if rest = [] then 2 else 0, some b, ⟨rest⟩) := by
  cases rest <;> simp [popBlock, shape]

theorem peekBlock_cons {q : Queue} {b : Block} {rest : List Block} (shape : q.blocks = b :: rest) :
    peekBlock q = some b := by
  simp [peekBlock, shape]

@[simp] theorem queueEmpty_iff {q : Queue} : queueEmpty q = true ↔ q.blocks = [] := by
  simp [queueEmpty]

theorem popBlock_code_one {q : Queue} : (popBlock q).1 = 1 ↔ q.blocks = [] := by
  cases shape : q.blocks with
  | nil => simp [popBlock_nil shape]
  | cons b rest =>
    rw [popBlock_cons shape]
    by_cases last : rest = [] <;> simp [last]

/-- The mutex of a queue: live from `mtx_init` to `mtx_destroy`, misused once it
is locked, unlocked or destroyed while it is not live. -/
structure Mtx where
  live : Bool
  misused : Bool
  deriving DecidableEq, Repr

namespace Mtx

def init : Mtx := ⟨true, false⟩

def use (mtx : Mtx) : Mtx := ⟨mtx.live, mtx.misused || !mtx.live⟩

def destroy (mtx : Mtx) : Mtx := ⟨false, mtx.misused || !mtx.live⟩

@[simp] theorem use_use (mtx : Mtx) : mtx.use.use = mtx.use := by
  cases mtx with
  | mk live misused => cases live <;> cases misused <;> rfl

end Mtx

/-- The slot array last allocated, NULL being no slots. A slot that was never
written is none. -/
abbrev Slots := List (Option Block)

structure SlotQueue where
  blocksMtx : Mtx
  blocks : Slots
  bsize : Nat
  headSize : Nat
  deriving DecidableEq, Repr

def queueHeadStep : Nat := 5

namespace SlotQueue

def readSlot (slots : Slots) (i : Nat) : Option Block := slots[i]?.join

def writeSlot (slots : Slots) (i : Nat) (b : Block) : Option Slots :=
  if i < slots.length then some (slots.set i (some b)) else none

def realloc (slots : Slots) (n : Nat) : Slots := slots.take n ++ List.replicate (n - slots.length) none

/-- `qblock_free` of a slot, which reads the pointer in it. -/
def qblockFree (slots : Slots) (i : Nat) : Option Slots := do
  let _ ← readSlot slots i
  writeSlot slots i []

def qblockCopy (slots : Slots) (i : Nat) (src : Block) : Option Slots := do
  let slots ← qblockFree slots i
  writeSlot slots i src

def init : SlotQueue := ⟨.init, [], 0, 0⟩

def useMtx (q : SlotQueue) : SlotQueue := { q with blocksMtx := q.blocksMtx.use }

def grownHeadSize (q : SlotQueue) : Nat :=
  if q.headSize ≤ q.bsize + 1 then q.headSize + queueHeadStep else q.headSize

def pushBlock (q : SlotQueue) (b : Block) : Option SlotQueue := do
  let q := q.useMtx
  let headSize := q.grownHeadSize
  let lcopy := realloc q.blocks headSize
  let lcopy ← writeSlot lcopy q.bsize []
  let lcopy ← qblockCopy lcopy q.bsize b
  some { q with headSize := headSize, blocks := lcopy, bsize := q.bsize + 1 }.useMtx

/-- The loop of queue_free: free `n` slots from `i` on. -/
def freeSlots (slots : Slots) (i : Nat) : Nat → Option Slots
  | 0 => some slots
  | n + 1 => do
    let slots ← qblockFree slots i
    freeSlots slots (i + 1) n

def queueFree (q : SlotQueue) : Option SlotQueue := do
  let q := q.useMtx
  let _ ← freeSlots q.blocks 0 q.bsize
  let q := { q with blocks := [], bsize := 0 }.useMtx
  some { q with blocksMtx := q.blocksMtx.destroy }

/-- The loop of pop_block: copy `n` slots from `i` on one slot down. -/
def shiftDown (slots : Slots) (i : Nat) : Nat → Option Slots
  | 0 => some slots
  | n + 1 => do
    let src ← readSlot slots i
    let slots ← qblockCopy slots (i - 1) src
    shiftDown slots (i + 1) n

/-- `qblock_copy` of slot 0 to the caller's block; nothing where that is NULL. -/
def copyOut (slots : Slots) (wanted : Bool) : Option (Option Block) :=
  if wanted then (readSlot slots 0).map some else some none

/-- `wanted` is whether the caller gives a block. -/
def popBlock (q : SlotQueue) (wanted : Bool) : Option (Nat × Option Block × SlotQueue) :=
  let q := q.useMtx
  if q.bsize = 0 then some (1, none, q.useMtx)
  else if q.bsize = 1 then do
    let b ← copyOut q.blocks wanted
    let q ← queueFree q.useMtx
    some (2, b, q)
  else do
    let b ← copyOut q.blocks wanted
    let slots ← shiftDown q.blocks 1 (q.bsize - 1)
    let slots ← qblockFree slots (q.bsize - 1)
    some (0, b, { q with blocks := realloc slots (q.bsize - 1), bsize := q.bsize - 1 }.useMtx)

def peekBlock (q : SlotQueue) : Option (Nat × Option Block × SlotQueue) :=
  let q := q.useMtx
  if q.bsize = 0 then some (1, none, q.useMtx)
  else do
    let b ← copyOut q.blocks true
    some (0, b, q.useMtx)

def queueEmpty (q : SlotQueue) : Bool × SlotQueue := (q.bsize == 0, q.useMtx.useMtx)

structure Represents (q : SlotQueue) (list : Queue) : Prop where
  bsize : q.bsize = list.blocks.length
  head : q.bsize ≤ q.headSize
  slots : ∃ rest, q.blocks = list.blocks.map some ++ rest

section Primitives

variable {pre post : Slots} {x b : Block} {slot : Option Block}

theorem readSlot_append : readSlot (pre ++ some x :: post) pre.length = some x := by
  simp [readSlot]

theorem writeSlot_append : writeSlot (pre ++ slot :: post) pre.length b = some (pre ++ some b :: post) := by
  simp [writeSlot]

theorem qblockFree_append :
    qblockFree (pre ++ some x :: post) pre.length = some (pre ++ some [] :: post) := by
  simp [qblockFree, readSlot_append, writeSlot_append]

theorem qblockCopy_append :
    qblockCopy (pre ++ some x :: post) pre.length b = some (pre ++ some b :: post) := by
  simp [qblockCopy, qblockFree_append, writeSlot_append]

@[simp] theorem length_realloc (slots : Slots) (n : Nat) : (realloc slots n).length = n := by
  simp only [realloc, List.length_append, List.length_take, List.length_replicate]
  omega

theorem realloc_append {n : Nat} (keep : pre.length ≤ n) :
    realloc (pre ++ post) n = pre ++ realloc post (n - pre.length) := by
  have more : n - (pre.length + post.length) = n - pre.length - post.length := by omega
  simp only [realloc, List.take_append, List.take_of_length_le keep, List.length_append, more,
    List.append_assoc]

theorem realloc_self : realloc (pre ++ post) pre.length = pre := by
  rw [realloc_append (Nat.le_refl _), Nat.sub_self]
  simp [realloc]

theorem freeSlots_append (pre : Slots) (list : List Block) (rest : Slots) :
    ∃ freed, freeSlots (pre ++ (list.map some ++ rest)) pre.length list.length = some freed := by
  induction list generalizing pre with
  | nil => exact ⟨_, rfl⟩
  | cons x list ih =>
    obtain ⟨freed, tail⟩ := ih (pre ++ [some []])
    refine ⟨freed, ?_⟩
    rw [List.map_cons, List.cons_append, List.length_cons, freeSlots, qblockFree_append]
    simpa using tail

/-- The loop of pop_block moves the blocks after the first one down, and leaves
the last one where it was as well. -/
theorem shiftDown_append (pre : Slots) (x : Block) (list : List Block) (rest : Slots) :
    ∃ last, shiftDown (pre ++ some x :: (list.map some ++ rest)) (pre.length + 1) list.length =
      some (pre ++ (list.map some ++ some last :: rest)) := by
  induction list generalizing pre x with
  | nil => exact ⟨x, rfl⟩
  | cons y list ih =>
    obtain ⟨last, tail⟩ := ih (pre ++ [some y]) y
    have source : readSlot (pre ++ some x :: some y :: (list.map some ++ rest)) (pre.length + 1) = some y := by
      simp [readSlot]
    refine ⟨last, ?_⟩
    rw [List.map_cons, List.cons_append, List.length_cons]
    simp only [shiftDown, source, Option.bind_eq_bind, Option.bind_some, Nat.add_sub_cancel,
      qblockCopy_append]
    simpa using tail

end Primitives

section Represented

variable {q : SlotQueue} {list : Queue}

theorem represents_init : init.Represents queueInit := ⟨rfl, Nat.le_refl _, [], rfl⟩

theorem Represents.useMtx (represents : q.Represents list) : q.useMtx.Represents list :=
  ⟨represents.bsize, represents.head, represents.slots⟩

theorem Represents.room (represents : q.Represents list) : q.bsize < q.grownHeadSize := by
  have head := represents.head
  unfold grownHeadSize queueHeadStep
  split <;> omega

theorem Represents.pushBlock (represents : q.Represents list) (b : Block) :
    ∃ next, q.pushBlock b = some next ∧ next.Represents (Dcn.pushBlock list b) ∧
      next.blocksMtx = q.blocksMtx.use := by
  have room := represents.room
  obtain ⟨size, head, rest, slots⟩ := represents
  have keep : (list.blocks.map some).length = q.bsize := by rw [List.length_map, size]
  -- The array has a slot after the blocks, whatever is in it.
  obtain ⟨slot, tail, grown⟩ : ∃ slot tail,
      realloc q.blocks q.grownHeadSize = list.blocks.map some ++ slot :: tail := by
    rw [slots, realloc_append (by omega), keep]
    cases shape : realloc rest (q.grownHeadSize - q.bsize) with
    | nil =>
      have length := congrArg List.length shape
      rw [length_realloc, List.length_nil] at length
      omega
    | cons slot tail => exact ⟨slot, tail, rfl⟩
  refine ⟨{ q with
    blocksMtx := q.blocksMtx.use
    headSize := q.grownHeadSize
    blocks := list.blocks.map some ++ some b :: tail
    bsize := q.bsize + 1 }, ?_, ⟨?_, ?_, tail, ?_⟩, rfl⟩
  · have same : q.useMtx.grownHeadSize = q.grownHeadSize := rfl
    simp only [SlotQueue.pushBlock, same]
    show (writeSlot (realloc q.blocks q.grownHeadSize) q.bsize []).bind _ = _
    rw [grown, ← keep, writeSlot_append, Option.bind_some]
    show (SlotQueue.qblockCopy _ q.bsize b).bind _ = _
    rw [← keep, qblockCopy_append, Option.bind_some]
    simp [SlotQueue.useMtx, size]
  · simp [size]
  · exact room
  · simp

theorem Represents.queueFree (represents : q.Represents list) :
    ∃ next, q.queueFree = some next ∧ next.Represents queueInit ∧ next.blocksMtx = q.blocksMtx.use.destroy := by
  obtain ⟨size, head, rest, slots⟩ := represents
  obtain ⟨freed, loop⟩ := freeSlots_append [] list.blocks rest
  rw [List.nil_append, List.length_nil, ← slots, ← size] at loop
  refine ⟨{ q with blocksMtx := q.blocksMtx.use.destroy, blocks := [], bsize := 0 }, ?_,
    ⟨rfl, Nat.zero_le _, [], rfl⟩, rfl⟩
  show (freeSlots q.blocks 0 q.bsize).bind _ = _
  rw [loop, Option.bind_some]
  simp [SlotQueue.useMtx]

theorem Represents.copyOut {b : Block} {blocks : List Block} (represents : q.Represents list)
    (shape : list.blocks = b :: blocks) (wanted : Bool) :
    SlotQueue.copyOut q.blocks wanted = some (if wanted then some b else none) := by
  obtain ⟨_, _, rest, slots⟩ := represents
  have oldest : readSlot q.blocks 0 = some b := by
    rw [slots, shape]
    rfl
  cases wanted <;> simp [SlotQueue.copyOut, oldest]

theorem Represents.popBlock_many (represents : q.Represents list) {b c : Block} {blocks : List Block}
    (shape : list.blocks = b :: c :: blocks) (wanted : Bool) :
    ∃ next, q.popBlock wanted = some (0, if wanted then some b else none, next) ∧
      next.Represents ⟨c :: blocks⟩ ∧ next.blocksMtx = q.blocksMtx.use := by
  have oldest := represents.useMtx.copyOut shape wanted
  obtain ⟨size, head, rest, slots⟩ := represents
  have length : q.bsize = blocks.length + 2 := by rw [size, shape]; rfl
  obtain ⟨last, shifted⟩ := shiftDown_append [] b (c :: blocks) rest
  have moved : shiftDown q.blocks 1 (q.bsize - 1) =
      some (((c :: blocks).map some) ++ some last :: rest) := by
    rw [slots, shape, length]
    exact shifted
  have end_slot : q.bsize - 1 = ((c :: blocks).map some).length := by
    rw [length, List.length_map]
    rfl
  refine ⟨{ q with
    blocksMtx := q.blocksMtx.use, blocks := (c :: blocks).map some, bsize := q.bsize - 1 },
    ?_, ⟨?_, ?_, [], ?_⟩, rfl⟩
  · have many : q.useMtx.bsize ≠ 0 ∧ q.useMtx.bsize ≠ 1 := by
      show q.bsize ≠ 0 ∧ q.bsize ≠ 1
      omega
    simp only [SlotQueue.popBlock, many.1, many.2, ↓reduceIte, oldest, Option.bind_eq_bind,
      Option.bind_some]
    show (shiftDown q.blocks 1 (q.bsize - 1)).bind _ = _
    rw [moved, Option.bind_some]
    show (SlotQueue.qblockFree _ (q.bsize - 1)).bind _ = _
    rw [end_slot, qblockFree_append, Option.bind_some]
    show some (_, _, _) = _
    simp only [SlotQueue.useMtx, Mtx.use_use]
    rw [end_slot, realloc_self]
  · rw [length]
    rfl
  · show q.bsize - 1 ≤ q.headSize
    omega
  · rw [List.append_nil]

/-- Popping the last block destroys the mutex; otherwise it is only locked and
unlocked. -/
theorem Represents.popBlock (represents : q.Represents list) (wanted : Bool) :
    ∃ next, q.popBlock wanted =
        some ((Dcn.popBlock list).1, if wanted then (Dcn.popBlock list).2.1 else none, next) ∧
      next.Represents (Dcn.popBlock list).2.2 ∧
      next.blocksMtx = if q.bsize = 1 then q.blocksMtx.use.destroy else q.blocksMtx.use := by
  have size := represents.bsize
  cases shape : list.blocks with
  | nil =>
    have empty : q.bsize = 0 := by rw [size, shape, List.length_nil]
    have answer : q.popBlock wanted = some (1, none, q.useMtx.useMtx) := by
      simp only [SlotQueue.popBlock, SlotQueue.useMtx, empty, ↓reduceIte]
    refine ⟨q.useMtx.useMtx, ?_, ?_, ?_⟩
    · rw [answer, popBlock_nil shape]
      cases wanted <;> rfl
    · rw [popBlock_nil shape]
      exact represents.useMtx.useMtx
    · simp [SlotQueue.useMtx, empty]
  | cons b blocks =>
    rw [popBlock_cons shape]
    cases blocks with
    | nil =>
      -- The last block: queue_free runs after the unlock.
      have one : q.bsize = 1 := by rw [size, shape]; rfl
      have oldest := represents.useMtx.copyOut shape wanted
      obtain ⟨next, freed, empty, mtx⟩ := represents.useMtx.useMtx.queueFree
      refine ⟨next, ?_, empty, ?_⟩
      · have code : q.useMtx.bsize = 1 := one
        simp [SlotQueue.popBlock, code, oldest, freed]
      · rw [mtx, if_pos one]
        simp [SlotQueue.useMtx]
    | cons c blocks =>
      have many : q.bsize ≠ 1 := by
        rw [size, shape, List.length_cons, List.length_cons]
        omega
      obtain ⟨next, popped, kept, mtx⟩ := represents.popBlock_many shape wanted
      refine ⟨next, popped, kept, ?_⟩
      rw [mtx, if_neg many]

theorem Represents.peekBlock (represents : q.Represents list) :
    ∃ next, q.peekBlock = some (if list.blocks = [] then 1 else 0, Dcn.peekBlock list, next) ∧
      next.Represents list ∧ next.blocksMtx = q.blocksMtx.use := by
  have size : q.useMtx.bsize = list.blocks.length := represents.bsize
  refine ⟨q.useMtx.useMtx, ?_, represents.useMtx.useMtx, by simp [SlotQueue.useMtx]⟩
  cases shape : list.blocks with
  | nil => simp [SlotQueue.peekBlock, size, shape, Dcn.peekBlock]
  | cons b blocks =>
    have oldest := represents.useMtx.copyOut shape true
    simp [SlotQueue.peekBlock, size, shape, oldest, peekBlock_cons shape]

theorem Represents.queueEmpty (represents : q.Represents list) :
    q.queueEmpty.1 = Dcn.queueEmpty list ∧ q.queueEmpty.2.Represents list ∧
      q.queueEmpty.2.blocksMtx = q.blocksMtx.use := by
  refine ⟨?_, represents.useMtx.useMtx, by simp [SlotQueue.queueEmpty, SlotQueue.useMtx]⟩
  rw [SlotQueue.queueEmpty, represents.bsize, Dcn.queueEmpty]
  cases list.blocks <;> rfl

end Represented

end SlotQueue

end Dcn
