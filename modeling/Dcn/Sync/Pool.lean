import Dcn.Foundation.Bytes
import Dcn.Foundation.Wakeup
import Dcn.Memory.Queue

/-! The thread pool of an event loop, from async_create to await (asyncio.c,
thr-pool.c).

A coroutine goes through three boxes. Its address is the input of a future, the
address of the future is in a task, and the bytes of the task go through the
queue. The worker that pops them opens the boxes again, and what the coroutine
returns goes into the output of the future. Memory is given back and used again:
a coroutine's by the worker that ran it, a future's by whoever awaited it.

The locked sections of the task queue are atomic, the pool stays active and
allocation succeeds. The mutex and the condition of a future are in
Dcn.Sync.Future.
-/

set_option autoImplicit false

namespace Dcn

/-- memcpy of the first bytes of a block; what follows a block is not modelled. -/
def genericQbout (inp : Block) (sz : Nat) : Option Block := if sz ≤ inp.length then some (inp.take sz) else none

def pointerBytes (p : UInt64) : Block := Bytes.little 8 p.toNat

def pointerOf (bytes : Block) : UInt64 := UInt64.ofNat (Bytes.field 0 8 bytes)

structure Task where
  isFuture : Bool
  tsk : UInt64
  deriving DecidableEq, Repr

/-- The bytes of a task: between the flag and the pointer is whatever the stack
held. -/
def Task.bytes (task : Task) (padding : Fin 7 → UInt8) : Block :=
  (if task.isFuture then 1 else 0) :: (List.ofFn padding ++ pointerBytes task.tsk)

def Task.ofBytes (bytes : Block) : Task := ⟨bytes.head? ≠ some 0, UInt64.ofNat (Bytes.field 8 8 bytes)⟩

structure Coroutine where
  call : Nat
  deriving DecidableEq, Repr

/-- struct future but for what it is waited for with, and the number of the
async_create call that it was made by. -/
structure FutureBox where
  call : Nat
  pool : Bool
  inpBlock : Block
  outBlock : Block
  isReady : Bool
  deriving DecidableEq, Repr

def futureInit (call : Nat) (inp : Block) : FutureBox := ⟨call, true, inp, [], false⟩

def futureFree (fut : FutureBox) : FutureBox := { fut with pool := false, inpBlock := [], outBlock := [] }

def loopWorkerOut (out : Block) (result : UInt64) : Block := if result ≠ 0 then pointerBytes result else out

def await (fut : FutureBox) : UInt64 :=
  if fut.pool = false then 0
  else if fut.outBlock = [] then 0
  else if fut.outBlock.length ≠ 8 then 0
  else pointerOf fut.outBlock

inductive CreatePc where
  | before
  | push (block : Block) (fut : UInt64)
  | signal (fut : UInt64)
  | returned (fut : UInt64)
  deriving DecidableEq, Repr

/-- Where a worker is in the loop of __thr_work: at the test of the queue's
size, in cnd_wait, before or in or behind the call of working_f. -/
inductive WorkerPc where
  | check
  | waiting
  | took (task : Task)
  | running (fut crt : UInt64)
  | store (fut : UInt64)
  deriving DecidableEq, Repr

/-- The allocated coroutines and futures, the task queue with its condition, and
where the calls and the workers are; then which coroutines were started and what
they returned, by the number of the call. -/
structure Loop (ω : Type) where
  coroutines : UInt64 → Option Coroutine
  futures : UInt64 → Option FutureBox
  q : Queue
  hasTasks : Condition ω
  calls : Nat → CreatePc
  workers : ω → WorkerPc
  started : List Nat
  returned : List (Nat × UInt64)

/-- A call of async_create makes its boxes, pushes, signals; a worker enters the
locked section, returns from its wait unasked, starts the coroutine, sees it
return, and marks the future; a future is awaited and then released. -/
inductive LoopEvent (ω : Type) where
  | create (call : Nat) (crt fut : UInt64) (padding : Fin 7 → UInt8)
  | push (call : Nat)
  | signal (call : Nat) (choice : Nat)
  | take (w : ω)
  | wake (w : ω)
  | start (w : ω)
  | finish (w : ω) (result : UInt64)
  | store (w : ω)
  | await (fut : UInt64)
  | release (fut : UInt64)

namespace Loop

variable {ω : Type} [DecidableEq ω]

def init (ω : Type) : Loop ω :=
  ⟨fun _ => none, fun _ => none, queueInit, .init ω, fun _ => .before, fun _ => .check, [], []⟩

def goto (l : Loop ω) (w : ω) (pc : WorkerPc) : Loop ω := { l with workers := Function.update l.workers w pc }

def callGoto (l : Loop ω) (call : Nat) (pc : CreatePc) : Loop ω := { l with calls := Function.update l.calls call pc }

def putFuture (l : Loop ω) (fut : UInt64) (box : Option FutureBox) : Loop ω :=
  { l with futures := Function.update l.futures fut box }

def putCoroutine (l : Loop ω) (crt : UInt64) (box : Option Coroutine) : Loop ω :=
  { l with coroutines := Function.update l.coroutines crt box }

/-- async_create and pool_sumbit up to push_block. -/
def asyncCreate (l : Loop ω) (call : Nat) (crt fut : UInt64) (padding : Fin 7 → UInt8) : Loop ω :=
  ((l.putCoroutine crt (some ⟨call⟩)).putFuture fut (some (futureInit call (pointerBytes crt)))).callGoto call
    (.push (Task.bytes ⟨fut ≠ 0, fut⟩ padding) fut)

def Asleep (l : Loop ω) (w : ω) : Prop := l.workers w = .waiting ∧ w ∈ l.hasTasks.waiting

def Enters (l : Loop ω) (w : ω) : Prop := l.workers w = .check ∨ l.workers w = .waiting ∧ w ∉ l.hasTasks.waiting

instance (l : Loop ω) (w : ω) : Decidable (l.Enters w) := inferInstanceAs (Decidable (_ ∨ _))

def take (l : Loop ω) (w : ω) : Loop ω :=
  match popBlock l.q with
  | (_, none, _) => { l with hasTasks := l.hasTasks.block w }.goto w .waiting
  | (_, some block, q) =>
    match genericQbout block 16 with
    | none => l
    | some bytes => { l with q := q }.goto w (.took (.ofBytes bytes))

/-- The coroutine that a task leads to, with its address; none where a pointer
on the way does not point to an allocated object. -/
def unbox (l : Loop ω) (task : Task) : Option (UInt64 × Coroutine) :=
  (l.futures task.tsk).bind fun fut => (genericQbout fut.inpBlock 8).bind fun bytes =>
    (l.coroutines (pointerOf bytes)).map (Prod.mk (pointerOf bytes))

/-- A use of memory that is not allocated has no modelled result, and a task
without a future, which async_create does not make, neither. -/
def step (l : Loop ω) : LoopEvent ω → Loop ω
  | .create call crt fut padding => if l.calls call = .before then l.asyncCreate call crt fut padding else l
  | .push call =>
    match l.calls call with
    | .push block fut => { l with q := pushBlock l.q block }.callGoto call (.signal fut)
    | _ => l
  | .signal call choice =>
    match l.calls call with
    | .signal fut => { l with hasTasks := l.hasTasks.signal choice }.callGoto call (.returned fut)
    | _ => l
  | .take w => if l.Enters w then l.take w else l
  | .wake w => { l with hasTasks := l.hasTasks.release w }
  | .start w =>
    match l.workers w with
    | .took task =>
      match task.isFuture, l.unbox task with
      | true, some (crt, c) => { l with started := l.started ++ [c.call] }.goto w (.running task.tsk crt)
      | _, _ => l
    | _ => l
  | .finish w result =>
    match l.workers w with
    | .running fut crt =>
      match l.futures fut, l.coroutines crt with
      | some box, some c =>
        (({ l with returned := l.returned ++ [(c.call, result)] }.putFuture fut
          (some { box with outBlock := loopWorkerOut box.outBlock result })).putCoroutine crt none).goto w (.store fut)
      | _, _ => l
    | _ => l
  | .store w =>
    match l.workers w with
    | .store fut => (l.putFuture fut ((l.futures fut).map fun box => { box with isReady := true })).goto w .check
    | _ => l
  -- It waits until the future is ready.
  | .await fut =>
    match l.futures fut with
    | some box => if box.isReady then l.putFuture fut (some (futureFree box)) else l
    | none => l
  | .release fut => if (l.futures fut).all (!·.pool) then l.putFuture fut none else l

/-- malloc and alc_malloc return addresses of nothing that is allocated. -/
def Admits (l : Loop ω) : LoopEvent ω → Prop
  | .create _ crt fut _ => crt ≠ 0 ∧ fut ≠ 0 ∧ l.coroutines crt = none ∧ l.futures fut = none
  | _ => True

instance (l : Loop ω) (e : LoopEvent ω) : Decidable (l.Admits e) :=
  match e with
  | .create _ crt fut _ => inferInstanceAs (Decidable (crt ≠ 0 ∧ fut ≠ 0 ∧ l.coroutines crt = none ∧ l.futures fut = none))
  | .push _ | .signal _ _ | .take _ | .wake _ | .start _ | .finish _ _ | .store _ | .await _ | .release _ => .isTrue trivial

def Submitted (l : Loop ω) (call : Nat) : Prop := ∃ fut, l.calls call = .signal fut ∨ l.calls call = .returned fut

def Submits (events : List (LoopEvent ω)) (call : Nat) : Prop :=
  ∃ crt fut padding, [.create call crt fut padding, .push call].Sublist events

/-- The task leads to the coroutine of the call, which the worker that takes it
starts. -/
def Leads (l : Loop ω) (task : Task) (call : Nat) : Prop :=
  task.isFuture = true ∧ ∃ crt, l.unbox task = some (crt, ⟨call⟩)

/-- Every coroutine runs once: none is started twice or without having been
submitted, one that is not started is in the queue or with a worker, and a
queue with tasks has a worker that is awake or about to be woken. A future that
is ready gives what the coroutine of its own call returned. -/
structure Served (l : Loop ω) : Prop where
  once : l.started.Nodup
  called : ∀ n ∈ l.started, l.Submitted n
  kept : ∀ n, l.Submitted n → n ∈ l.started ∨ (∃ block ∈ l.q.blocks, l.Leads (.ofBytes block) n) ∨
    ∃ w task, l.workers w = .took task ∧ l.Leads task n
  awake : l.q.blocks ≠ [] → ∀ _ : ω, (∃ w, ¬l.Asleep w) ∨ ∃ n fut, l.calls n = .signal fut
  results : ∀ f fut, l.futures f = some fut → fut.isReady = true → fut.pool = true →
    (fut.call, await fut) ∈ l.returned
  own : (l.returned.map Prod.fst).Nodup
  ran : ∀ p ∈ l.returned, p.1 ∈ l.started

end Loop

section Boxing

@[simp] theorem length_pointerBytes (p : UInt64) : (pointerBytes p).length = 8 := Bytes.length_little 8 p.toNat

theorem pointerOf_pointerBytes (p : UInt64) : pointerOf (pointerBytes p) = p := by
  have whole : (pointerBytes p).take 8 = pointerBytes p := List.take_of_length_le (by simp)
  rw [pointerOf, Bytes.field, List.drop_zero, whole, pointerBytes, Bytes.value_little, Bytes.ofNat_value_little_eight]

theorem genericQbout_whole {block : Block} {sz : Nat} (size : block.length = sz) : genericQbout block sz = some block := by
  rw [genericQbout, if_pos size.ge, List.take_of_length_le size.le]

theorem length_taskBytes (task : Task) (padding : Fin 7 → UInt8) : (task.bytes padding).length = 16 := by
  simp [Task.bytes]

theorem ofBytes_bytes (task : Task) (padding : Fin 7 → UInt8) : Task.ofBytes (task.bytes padding) = task := by
  obtain ⟨isFuture, tsk⟩ := task
  have pointer : (Task.bytes ⟨isFuture, tsk⟩ padding).drop 8 = pointerBytes tsk := by
    have seven : (List.ofFn padding).length = 7 := List.length_ofFn
    rw [Task.bytes, List.drop_succ_cons, List.drop_append, seven, List.drop_of_length_le seven.le]
    simp
  have whole : (pointerBytes tsk).take 8 = pointerBytes tsk := List.take_of_length_le (by simp)
  have number : UInt64.ofNat (Bytes.field 8 8 (Task.bytes ⟨isFuture, tsk⟩ padding)) = tsk := by
    rw [Bytes.field, pointer, whole, pointerBytes, Bytes.value_little, Bytes.ofNat_value_little_eight]
  rw [Task.ofBytes, number]
  cases isFuture <;> rfl

/-- What a coroutine returned is what await returns, NULL included. -/
theorem await_loopWorkerOut (call : Nat) (inp : Block) (ready : Bool) (result : UInt64) :
    await ⟨call, true, inp, loopWorkerOut [] result, ready⟩ = result := by
  by_cases null : result = 0
  · simp [await, loopWorkerOut, null]
  · have full : pointerBytes result ≠ [] := by
      intro empty
      have size := length_pointerBytes result
      rw [empty] at size
      cases size
    simp [await, loopWorkerOut, null, full, pointerOf_pointerBytes]

end Boxing

end Dcn
