import Dcn.Foundation.Heap
import Mathlib.Data.List.Perm.Subperm
import Mathlib.Algebra.BigOperators.Group.List.Basic
import Mathlib.Tactic.Abel

/-! The blocks that an event loop has from its allocator and from malloc
(asyncio.c, thr-pool.c, queue.c).

Each operation is the list of calls that it makes on the heap, in the order of
the source, with the addresses that it gets. What the loop has is read off the
task queue, the coroutines that run and the futures. The nodes of the
allocator's table are part of its calls.
-/

set_option autoImplicit false

namespace Dcn

structure FutureBlocks (α : Type) where
  fut : α
  inp : α
  out : Option α
  deriving DecidableEq, Repr

/-- A future that is not complete, and the coroutine that completes it: struct
coroutine, its mutex and its condition variable. -/
structure Job (α : Type) where
  fut : α
  inp : α
  crt : α
  cndMtx : α
  isDone : α
  deriving DecidableEq, Repr

/-- The blocks that a call of async_create is given; `array` is for the blocks
of the queue, `slot` for the data of the last of them. -/
structure Creation (α : Type) extends Job α where
  b : α
  block : α
  array : α
  slot : α
  deriving DecidableEq, Repr

/-- The heap, the array of the allocator's buckets, the queue with the data of
each slot, the jobs that workers have, the futures that are complete, and those
that were awaited. -/
structure LoopBlocks (α : Type) where
  heap : Heap.State α
  buckets : α
  array : Option α
  queue : List (α × Job α)
  running : List (Job α)
  ready : List (FutureBlocks α)
  awaited : List α
  ended : Bool

/-- async_create; a worker takes the first task, where pop_block copies the
others; a coroutine returns, with a block for its result where that is not NULL;
a future is awaited, or a list of them gathered; the allocator gets a larger
array in one of its calls; alc_gcollect, or allocator_end where it `ends`. -/
inductive LoopBlocksEvent (α : Type) where
  | create (c : Creation α)
  | take (copy : α) (moved : List α) (array : α)
  | finish (job : Job α) (out : Option α)
  | await (future : FutureBlocks α) (copy : Option α)
  | gather (futures : List (FutureBlocks α)) (results : Option α)
  | resize (buckets : α)
  | collect (ends : Bool)
  deriving DecidableEq, Repr

section Calls

variable {α : Type}

def createCalls (array : Option α) (c : Creation α) : List (Heap.Call α) :=
  [.malloc c.crt, .malloc c.cndMtx, .malloc c.isDone, .take c.fut, .take c.b, .take c.inp, .take c.block,
    -- push_block: the array may be moved, and the task is copied into its last slot.
    .move array c.array, .take c.slot, .give (some c.block), .give (some c.b)]

/-- The loop of pop_block: each slot gets a copy of the next, and the last is
freed. -/
def shiftCalls (data : α) : List α → List α → List (Heap.Call α)
  | next :: rest, copy :: moved => .give (some data) :: .take copy :: shiftCalls next rest moved
  | _, _ => [.give (some data)]

/-- pop_block and the qblock_free after it. The only task that is left takes the
array with it, in queue_free. -/
def popCalls (array : Option α) (data : α) (rest : List α) (copy : α) (moved : List α) (shrunk : α) :
    List (Heap.Call α) :=
  .take copy :: (shiftCalls data rest moved ++
    [if rest.isEmpty then .give array else .move array shrunk, .give (some copy)])

def finishCalls (job : Job α) (out : Option α) : List (Heap.Call α) :=
  out.toList.map .take ++ [.free job.cndMtx, .free job.isDone, .free job.crt]

def futureFreeCalls (future : FutureBlocks α) : List (Heap.Call α) := [.give future.out, .give (some future.inp)]

def awaitCalls (future : FutureBlocks α) (copy : Option α) : List (Heap.Call α) :=
  copy.toList.map .take ++ futureFreeCalls future ++ [.give copy]

def gatherCalls (futures : List (FutureBlocks α)) (results : Option α) : List (Heap.Call α) :=
  -- The future itself goes back to the heap, past the allocator.
  results.toList.map .malloc ++ futures.flatMap fun future => futureFreeCalls future ++ [.free future.fut]

def resizeCalls (old new : α) : List (Heap.Call α) := [.malloc new, .free old]

def collectCalls (buckets : α) (ends : Bool) : List (Heap.Call α) :=
  .collect :: if ends then [.free buckets] else []

/-! What each operation does with the blocks, from any others that are had. -/

section Triples

variable [DecidableEq α] {held plain : Multiset α}

open Heap (block block_none blocks blocks_cons Triple)

theorem triple_create (array : Option α) (c : Creation α) : Triple (block array + held) plain (createCalls array c)
    ({c.array} + {c.slot} + ({c.fut} + {c.inp}) + held) ({c.crt} + {c.cndMtx} + {c.isDone} + plain) := by
  apply Triple.malloc
  apply Triple.malloc
  apply Triple.malloc
  apply Triple.take
  apply Triple.take
  apply Triple.take
  apply Triple.take
  refine .move array (show _ = block array + ({c.block} + {c.inp} + {c.b} + {c.fut} + held) by abel) ?_
  apply Triple.take
  refine .give (some c.block) (show _ = {c.block} + ({c.slot} + {c.array} + {c.inp} + {c.b} + {c.fut} + held) by abel) ?_
  refine .give (some c.b) (show _ = {c.b} + ({c.slot} + {c.array} + {c.inp} + {c.fut} + held) by abel) ?_
  exact .done (by abel) (by abel)

theorem triple_shift (data : α) (rest moved : List α) (same : moved.length = rest.length) :
    Triple ({data} + blocks rest + held) plain (shiftCalls data rest moved) (blocks moved + held) plain := by
  induction rest generalizing data moved held with
  | nil =>
    cases List.length_eq_zero_iff.mp same
    exact .give (some data) (show _ = {data} + (blocks [] + held) by abel) (.done rfl rfl)
  | cons next rest ih =>
    cases moved with
    | nil => cases same
    | cons copy moved =>
      rw [blocks_cons, blocks_cons, shiftCalls]
      refine .give (some data) (show _ = {data} + ({next} + blocks rest + held) by abel) ?_
      apply Triple.take
      -- What was copied so far is left alone by the rest of the loop.
      have later := @ih ({copy} + held) next moved (Nat.succ.inj same)
      have before : {copy} + ({next} + blocks rest + held) = {next} + blocks rest + ({copy} + held) := by abel
      have behind : {copy} + blocks moved + held = blocks moved + ({copy} + held) := by abel
      rwa [before, behind]

theorem triple_pop (array : Option α) (data : α) (rest : List α) (copy : α) (moved : List α) (shrunk : α)
    (same : moved.length = rest.length) :
    Triple (block array + ({data} + blocks rest) + held) plain (popCalls array data rest copy moved shrunk)
      (block (if rest.isEmpty then none else some shrunk) + blocks moved + held) plain := by
  apply Triple.take
  have shift := @triple_shift α _ ({copy} + block array + held) plain data rest moved same
  have before : {copy} + (block array + ({data} + blocks rest) + held) =
      {data} + blocks rest + ({copy} + block array + held) := by abel
  rw [before]
  refine shift.append ?_
  by_cases last : rest.isEmpty = true
  · rw [if_pos last, if_pos last]
    refine .give array (show _ = block array + (blocks moved + {copy} + held) by abel) ?_
    refine .give (some copy) (show _ = {copy} + (blocks moved + held) by abel) ?_
    exact .done (by rw [block_none, zero_add]) rfl
  · rw [if_neg last, if_neg last]
    refine .move array (show _ = block array + (blocks moved + {copy} + held) by abel) ?_
    refine .give (some copy) (show _ = {copy} + ({shrunk} + blocks moved + held) by abel) ?_
    exact .done rfl rfl

theorem triple_finish (job : Job α) (out : Option α) : Triple held ({job.crt} + {job.cndMtx} + {job.isDone} + plain)
    (finishCalls job out) (block out + held) plain := by
  have frees : Triple (block out + held) ({job.crt} + {job.cndMtx} + {job.isDone} + plain)
      [.free job.cndMtx, .free job.isDone, .free job.crt] (block out + held) plain := by
    refine .free (show _ = {job.cndMtx} + ({job.crt} + {job.isDone} + plain) by abel) ?_
    refine .free (show _ = {job.isDone} + ({job.crt} + plain) by abel) ?_
    exact .free rfl (.done rfl rfl)
  cases out with
  | none =>
    rw [block_none, zero_add] at frees ⊢
    exact frees
  | some p => exact .take frees

theorem triple_futureFree (future : FutureBlocks α) :
    Triple (block future.out + {future.inp} + held) plain (futureFreeCalls future) held plain := by
  refine .give future.out (show _ = block future.out + ({future.inp} + held) by abel) ?_
  exact .give (some future.inp) rfl (.done rfl rfl)

theorem triple_await (future : FutureBlocks α) (copy : Option α) :
    Triple (block future.out + {future.inp} + held) plain (awaitCalls future copy) held plain := by
  have frees : Triple (block copy + (block future.out + {future.inp} + held)) plain
      (futureFreeCalls future ++ [.give copy]) held plain := by
    have freed := @triple_futureFree α _ (block copy + held) plain future
    have before : block copy + (block future.out + {future.inp} + held) =
        block future.out + {future.inp} + (block copy + held) := by abel
    rw [before]
    exact freed.append (.give copy rfl (.done rfl rfl))
  cases copy with
  | none =>
    rw [block_none, zero_add] at frees
    exact frees
  | some p => exact .take frees

theorem triple_resize (old new : α) : Triple held ({old} + plain) (resizeCalls old new) held ({new} + plain) := by
  apply Triple.malloc
  refine .free (show _ = {old} + ({new} + plain) by abel) ?_
  exact .done rfl rfl

theorem triple_collect (buckets : α) (ends : Bool) :
    Triple held ({buckets} + plain) (collectCalls buckets ends) 0 (if ends then plain else {buckets} + plain) := by
  apply Triple.collect
  cases ends with
  | false => exact .done rfl rfl
  | true => exact .free rfl (.done rfl rfl)

theorem triple_gather_nil (results : Option α) : Triple held plain (gatherCalls [] results) held plain := by
  cases results with
  | none => exact .done rfl rfl
  | some p => exact .leak (.done rfl rfl)

theorem not_sound_gather {h : Heap.State α} (future : FutureBlocks α) (futures : List (FutureBlocks α))
    (results : Option α) (owns : Heap.Owns h ({future.fut} + (block future.out + {future.inp} + held)) plain)
    (fresh : Runs.Along Heap.step Heap.Fresh h (gatherCalls (future :: futures) results)) :
    ¬ Runs.Throughout Heap.step Heap.Sound h (gatherCalls (future :: futures) results) := by
  have split : gatherCalls (future :: futures) results = gatherCalls [] results ++ (futureFreeCalls future ++
      (.free future.fut :: futures.flatMap fun other => futureFreeCalls other ++ [.free other.fut])) := by
    simp [gatherCalls]
  have before : {future.fut} + (block future.out + {future.inp} + held) =
      block future.out + {future.inp} + ({future.fut} + held) := by abel
  rw [before] at owns
  rw [split] at fresh ⊢
  obtain ⟨early, late⟩ := Runs.along_append.mp fresh
  obtain ⟨_, between⟩ := triple_gather_nil results h owns early
  obtain ⟨_, after⟩ := triple_futureFree future _ between (Runs.along_append.mp late).1
  intro sound
  have rest := (Runs.throughout_append.mp (Runs.throughout_append.mp sound).2).2
  refine after.not_sound_of_free (Runs.throughout_iff_initial.mp (Runs.throughout_cons.mp rest).2 [] List.nil_prefix)

end Triples

end Calls

namespace LoopBlocks

variable {α : Type} [DecidableEq α]

def start (buckets : α) : LoopBlocks α := ⟨⟨{buckets}, ∅, false⟩, buckets, none, [], [], [], [], false⟩

def calls (s : LoopBlocks α) : LoopBlocksEvent α → List (Heap.Call α)
  | .create c => createCalls s.array c
  | .take copy moved array =>
    match s.queue with
    | [] => []
    | slot :: rest => popCalls s.array slot.1 (rest.map Prod.fst) copy moved array
  | .finish job out => finishCalls job out
  | .await future copy => awaitCalls future copy
  | .gather futures results => gatherCalls futures results
  | .resize buckets => resizeCalls s.buckets buckets
  | .collect ends => collectCalls s.buckets ends

def after (s : LoopBlocks α) : LoopBlocksEvent α → LoopBlocks α
  | .create c => { s with array := some c.array, queue := s.queue ++ [(c.slot, c.toJob)] }
  | .take _ moved array =>
    match s.queue with
    | [] => s
    | slot :: rest =>
      { s with
        array := if rest.isEmpty then none else some array
        queue := moved.zip (rest.map Prod.snd)
        running := slot.2 :: s.running }
  | .finish job out => { s with running := s.running.erase job, ready := ⟨job.fut, job.inp, out⟩ :: s.ready }
  | .await future _ => { s with ready := s.ready.erase future, awaited := future.fut :: s.awaited }
  | .gather futures _ => { s with ready := s.ready.diff futures }
  | .resize buckets => { s with buckets := buckets }
  | .collect _ => { s with ended := true }

def step (s : LoopBlocks α) (event : LoopBlocksEvent α) : LoopBlocks α :=
  { s.after event with heap := Runs.run Heap.step s.heap (s.calls event) }

/-- The operation can be made: there is a task, the coroutine runs, the futures
are complete and were not consumed; nothing follows the collection. -/
def Enabled (s : LoopBlocks α) : LoopBlocksEvent α → Prop
  | .take _ moved _ => moved.length + 1 = s.queue.length
  | .finish job _ => job ∈ s.running
  | .await future copy => future ∈ s.ready ∧ copy.isSome = future.out.isSome
  | .gather futures _ => futures.Subperm s.ready
  | .create _ | .resize _ | .collect _ => True

def Legal (s : LoopBlocks α) (event : LoopBlocksEvent α) : Prop :=
  s.ended = false ∧ s.Enabled event ∧ Runs.Along Heap.step Heap.Fresh s.heap (s.calls event)

instance (s : LoopBlocks α) : DecidablePred s.Enabled
  | .take _ moved _ => inferInstanceAs (Decidable (moved.length + 1 = s.queue.length))
  | .finish job _ => inferInstanceAs (Decidable (job ∈ s.running))
  | .await future copy => inferInstanceAs (Decidable (future ∈ s.ready ∧ copy.isSome = future.out.isSome))
  | .gather futures _ => inferInstanceAs (Decidable (futures.Subperm s.ready))
  | .create _ | .resize _ | .collect _ => .isTrue trivial

instance (s : LoopBlocks α) (event : LoopBlocksEvent α) : Decidable (s.Legal event) :=
  inferInstanceAs (Decidable (_ ∧ _ ∧ _))

/-- At every moment of the operation no block has been released twice, and what
is tracked is allocated. -/
def ReleasedOnce (s : LoopBlocks α) (event : LoopBlocksEvent α) : Prop :=
  Runs.Throughout Heap.step Heap.Sound s.heap (s.calls event)

instance (s : LoopBlocks α) (event : LoopBlocksEvent α) : Decidable (s.ReleasedOnce event) :=
  inferInstanceAs (Decidable (∀ h ∈ Runs.states Heap.step s.heap (s.calls event), Heap.Sound h))

/-- The blocks that a future has; its own stays with the allocator when it was
awaited. -/
def futureHeld (future : FutureBlocks α) : Multiset α := {future.fut} + (Heap.block future.out + {future.inp})

def jobHeld (job : Job α) : Multiset α := {job.fut} + {job.inp}

def jobPlain (job : Job α) : Multiset α := {job.crt} + {job.cndMtx} + {job.isDone}

def held (s : LoopBlocks α) : Multiset α :=
  Heap.block s.array + Heap.blocks (s.queue.map Prod.fst) + ((s.queue.map Prod.snd).map jobHeld).sum +
    (s.running.map jobHeld).sum + (s.ready.map futureHeld).sum + Heap.blocks s.awaited

def plain (s : LoopBlocks α) : Multiset α :=
  {s.buckets} + ((s.queue.map Prod.snd).map jobPlain).sum + (s.running.map jobPlain).sum

/-- Until the collection the loop has what is tracked, and its coroutines. -/
def Inv (s : LoopBlocks α) : Prop := s.ended = false → Heap.Owns s.heap s.held s.plain

def Spares (event : LoopBlocksEvent α) : Prop := ∀ futures results, event = .gather futures results → futures = []

variable {s : LoopBlocks α}

section Owned

open Heap (block block_some blocks blocks_nil blocks_cons blocks_append)

def Keeps (s : LoopBlocks α) (event : LoopBlocksEvent α) : Prop :=
  Heap.Triple s.held s.plain (s.calls event) (s.after event).held (s.after event).plain

theorem keeps_create (c : Creation α) : s.Keeps (.create c) := by
  refine (triple_create s.array c).congr (?_ : _ = _ + (blocks (s.queue.map Prod.fst) +
    ((s.queue.map Prod.snd).map jobHeld).sum + (s.running.map jobHeld).sum + (s.ready.map futureHeld).sum +
    blocks s.awaited)) rfl ?_ ?_
  · rw [held]
    abel
  · simp only [after, held, List.map_append, List.map_cons, List.map_nil, List.sum_append, List.sum_cons, List.sum_nil,
      blocks_append, blocks_cons, blocks_nil, block_some, jobHeld]
    abel
  · simp only [after, plain, List.map_append, List.map_cons, List.map_nil, List.sum_append, List.sum_cons, List.sum_nil,
      jobPlain]
    abel

theorem keeps_take (copy : α) (moved : List α) (array : α) (enabled : s.Enabled (.take copy moved array)) :
    s.Keeps (.take copy moved array) := by
  cases queue : s.queue with
  | nil =>
    rw [Enabled, queue] at enabled
    cases enabled
  | cons slot rest =>
    rw [Enabled, queue, List.length_cons, Nat.add_right_cancel_iff] at enabled
    have same : moved.length = (rest.map Prod.fst).length := by
      rw [enabled, List.length_map]
    have jobs : moved.length = (rest.map Prod.snd).length := by
      rw [enabled, List.length_map]
    have pop := @triple_pop α _ ((((s.queue.map Prod.snd).map jobHeld).sum + (s.running.map jobHeld).sum +
      (s.ready.map futureHeld).sum + blocks s.awaited)) s.plain s.array slot.1 (rest.map Prod.fst) copy moved array same
    rw [Keeps, calls, queue]
    refine pop.congr ?_ rfl ?_ ?_
    · simp only [held, queue, List.map_cons, blocks_cons]
      abel
    · simp only [after, held, queue, List.map_cons, List.sum_cons, List.map_fst_zip jobs.le, List.map_snd_zip jobs.ge,
        List.isEmpty_map]
      abel
    · simp only [after, plain, queue, List.map_cons, List.sum_cons, List.map_snd_zip jobs.ge]
      abel

theorem keeps_finish (job : Job α) (out : Option α) (running : job ∈ s.running) : s.Keeps (.finish job out) := by
  have jobs := List.sum_map_erase jobHeld running
  have blocks_ := List.sum_map_erase jobPlain running
  have finish := @triple_finish α _ s.held ({s.buckets} + ((s.queue.map Prod.snd).map jobPlain).sum +
    ((s.running.erase job).map jobPlain).sum) job out
  refine finish.congr rfl ?_ ?_ rfl
  · rw [plain, ← blocks_, jobPlain]
    abel
  · simp only [after, held, List.map_cons, List.sum_cons, futureHeld]
    rw [← jobs, jobHeld]
    abel

theorem keeps_await (future : FutureBlocks α) (copy : Option α) (ready : future ∈ s.ready) :
    s.Keeps (.await future copy) := by
  have futures := List.sum_map_erase futureHeld ready
  have awaits := @triple_await α _ ({future.fut} + (block s.array + blocks (s.queue.map Prod.fst) +
    ((s.queue.map Prod.snd).map jobHeld).sum + (s.running.map jobHeld).sum +
    ((s.ready.erase future).map futureHeld).sum + blocks s.awaited)) s.plain future copy
  refine awaits.congr ?_ rfl ?_ rfl
  · rw [held, ← futures, futureHeld]
    abel
  · simp only [after, held, blocks_cons]
    abel

theorem keeps_gather_nil (results : Option α) : s.Keeps (.gather [] results) :=
  (triple_gather_nil results).congr rfl rfl (by simp only [after, held, List.diff_nil]) rfl

theorem keeps_resize (buckets : α) : s.Keeps (.resize buckets) := by
  refine (triple_resize s.buckets buckets).congr rfl
    (?_ : _ = _ + (((s.queue.map Prod.snd).map jobPlain).sum + (s.running.map jobPlain).sum)) rfl ?_
  · rw [plain]
    abel
  · simp only [after, plain]
    abel

theorem keeps_of_enabled {event : LoopBlocksEvent α} (enabled : s.Enabled event) (spares : Spares event)
    (going : ∀ ends, event ≠ .collect ends) : s.Keeps event := by
  cases event with
  | create c => exact keeps_create c
  | take copy moved array => exact keeps_take copy moved array enabled
  | finish job out => exact keeps_finish job out enabled
  | await future copy => exact keeps_await future copy enabled.1
  | gather futures results =>
    have none_ := spares futures results rfl
    subst none_
    exact keeps_gather_nil results
  | resize buckets => exact keeps_resize buckets
  | collect ends => exact absurd rfl (going ends)

theorem Inv.step {event : LoopBlocksEvent α} (inv : s.Inv) (legal : s.Legal event) (spares : Spares event) :
    (s.step event).Inv := by
  obtain ⟨going, enabled, fresh⟩ := legal
  intro ends
  have open_ : ∀ ends, event ≠ .collect ends := by
    rintro b rfl
    cases ends
  exact (keeps_of_enabled enabled spares open_ s.heap (inv going) fresh).2

theorem releasedOnce_iff {event : LoopBlocksEvent α} (inv : s.Inv) (legal : s.Legal event) :
    s.ReleasedOnce event ↔ Spares event := by
  obtain ⟨going, enabled, fresh⟩ := legal
  have owns := inv going
  constructor
  · rintro released futures results rfl
    cases futures with
    | nil => rfl
    | cons future futures =>
      -- Its blocks are among those that are held, so the free leaves it tracked.
      have ready : future ∈ s.ready := enabled.subset List.mem_cons_self
      have split : s.held = {future.fut} + (block future.out + {future.inp} + (block s.array +
          blocks (s.queue.map Prod.fst) + ((s.queue.map Prod.snd).map jobHeld).sum + (s.running.map jobHeld).sum +
          ((s.ready.erase future).map futureHeld).sum + blocks s.awaited)) := by
        rw [held, ← List.sum_map_erase futureHeld ready, futureHeld]
        abel
      rw [split] at owns
      exact absurd released (not_sound_gather future futures results owns fresh)
  · intro spares
    cases event with
    | collect ends =>
      -- The last operation: what is held then does not matter any more.
      have whole : s.plain = {s.buckets} + (((s.queue.map Prod.snd).map jobPlain).sum + (s.running.map jobPlain).sum) := by
        rw [plain, add_assoc]
      rw [whole] at owns
      exact (triple_collect s.buckets ends s.heap owns fresh).1
    | _ => exact (keeps_of_enabled enabled spares (by simp) s.heap owns fresh).1

omit [DecidableEq α] in
theorem inv_start (buckets : α) : (start buckets).Inv := by
  intro _
  refine ⟨⟨rfl, Finset.empty_subset _⟩, rfl, Multiset.nodup_singleton buckets, fun p member => ?_⟩
  have only : p ∈ ({buckets} : Multiset α) := member
  rw [Multiset.mem_singleton.mp only]
  exact Finset.mem_singleton_self buckets

end Owned

/-- In every run that the heap and the order of the calls allow, no block is
released twice and what is tracked is allocated, at every moment, exactly where
asyncio_gather is called for no futures alone. -/
theorem released_once_iff {buckets : α} {events : List (LoopBlocksEvent α)}
    (legal : Runs.Along step Legal (start buckets) events) :
    Runs.Along step ReleasedOnce (start buckets) events ↔
      ∀ futures results, LoopBlocksEvent.gather futures results ∈ events → futures = [] := by
  have spared : Runs.Along step ReleasedOnce (start buckets) events ↔
      Runs.Along step (fun _ event => Spares event) (start buckets) events := by
    apply Runs.along_iff_along _ _ (inv_start buckets) legal
    · intro s event inv legal spares
      exact inv.step legal spares
    · intro s event inv legal
      exact releasedOnce_iff inv legal
  rw [spared, Runs.along_iff_forall]
  constructor
  · intro all futures results member
    exact all _ member futures results rfl
  · rintro all _ member futures results rfl
    exact all futures results member

def job : Creation Nat := ⟨⟨4, 7, 1, 2, 3⟩, 5, 8, 9, 10⟩

def completed : List (LoopBlocksEvent Nat) := [.create job, .take 5 [] 11, .finish job.toJob (some 5)]

/-- Its future is awaited, or gathered, before the allocator ends. -/
def awaitedOnce : List (LoopBlocksEvent Nat) := completed ++ [.await ⟨4, 7, some 5⟩ (some 1), .collect true]

def gatheredOnce : List (LoopBlocksEvent Nat) := completed ++ [.gather [⟨4, 7, some 5⟩] (some 1), .collect true]

theorem released_once_awaited : Runs.Along step ReleasedOnce (start 0) awaitedOnce := by
  refine (released_once_iff ?_).mpr ?_
  · decide
  · simp [awaitedOnce, completed]

theorem gathered_released_twice : Runs.Along step Legal (start 0) gatheredOnce ∧
    ¬ Runs.Along step ReleasedOnce (start 0) gatheredOnce ∧
    (Runs.run step (start 0) gatheredOnce).heap.doubled = true := by
  decide

end LoopBlocks

end Dcn
