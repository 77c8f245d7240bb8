import Mathlib.Logic.Function.Basic
import Dcn.Foundation.Runs
import Dcn.Memory.Queue

/-! Sequences of calls on any number of queues (queue.c).

The queues in memory answer as lists of blocks do and never leave their slot
arrays. Their mutexes fare worse: the pop that empties a queue goes through
queue_free, which destroys the mutex that the next call locks.
-/

set_option autoImplicit false

namespace Dcn

/-- A call on queues that were initialised and are not freed by their owner.
`wanted` is whether the caller of pop_block gives a block. -/
inductive QueueCall (ι : Type) where
  | push (q : ι) (b : Block)
  | pop (q : ι) (wanted : Bool)
  | peek (q : ι)
  | empty (q : ι)
  | forward (dest src : ι) (peek : Bool)

inductive QueueAnswer where
  | code (n : Nat) (out : Option Block)
  | flag (b : Bool)
  deriving DecidableEq, Repr

variable {ι : Type} [DecidableEq ι]

/-- queue_forward; its local block is empty where nothing was copied into it. -/
def slotForward (s : ι → SlotQueue) (dest src : ι) (peek : Bool) : Option (QueueAnswer × (ι → SlotQueue)) :=
  let (isEmpty, q) := (s src).queueEmpty
  let s := Function.update s src q
  if isEmpty then some (.flag false, s)
  else
    (if peek then (s src).peekBlock else (s src).popBlock true).bind fun (_, block, q) =>
      let s := Function.update s src q
      ((s dest).pushBlock (block.getD [])).map fun q => (.flag true, Function.update s dest q)

def slotCall (s : ι → SlotQueue) : QueueCall ι → Option (QueueAnswer × (ι → SlotQueue))
  | .push q b => ((s q).pushBlock b).map fun next => (.code 0 none, Function.update s q next)
  | .pop q wanted => ((s q).popBlock wanted).map fun r => (.code r.1 r.2.1, Function.update s q r.2.2)
  | .peek q => (s q).peekBlock.map fun r => (.code r.1 r.2.1, Function.update s q r.2.2)
  | .empty q => some (.flag (s q).queueEmpty.1, Function.update s q (s q).queueEmpty.2)
  | .forward dest src peek => slotForward s dest src peek

def listCall (s : ι → List Block) : QueueCall ι → QueueAnswer × (ι → List Block)
  | .push q b => (.code 0 none, Function.update s q (s q ++ [b]))
  | .pop q wanted =>
    (.code (if s q = [] then 1 else if (s q).tail = [] then 2 else 0) (if wanted then (s q).head? else none),
      Function.update s q (s q).tail)
  | .peek q => (.code (if s q = [] then 1 else 0) (s q).head?, s)
  | .empty q => (.flag (s q).isEmpty, s)
  | .forward dest src peek =>
    match (s src).head? with
    | none => (.flag false, s)
    | some oldest =>
      let s := if peek then s else Function.update s src (s src).tail
      (.flag true, Function.update s dest (s dest ++ [oldest]))

namespace SlotRuns

def Holds (s : ι → SlotQueue) (lists : ι → List Block) : Prop := ∀ q, (s q).Represents ⟨lists q⟩

section Steps

variable {s : ι → SlotQueue} {lists : ι → List Block} {src : ι}

omit [DecidableEq ι] in
theorem holds_init : Holds (fun _ : ι => SlotQueue.init) fun _ => [] := fun _ => SlotQueue.represents_init

theorem Holds.update (holds : Holds s lists) (q : ι) {next : SlotQueue} {list : List Block}
    (represents : next.Represents ⟨list⟩) : Holds (Function.update s q next) (Function.update lists q list) := by
  intro other
  by_cases same : other = q
  · subst same
    simpa using represents
  · simpa [same] using holds other

theorem Holds.keep (holds : Holds s lists) {q : ι} {next : SlotQueue} (represents : next.Represents ⟨lists q⟩) :
    Holds (Function.update s q next) lists := by
  have updated := holds.update q represents
  rwa [Function.update_eq_self] at updated

theorem tail_popBlock (list : List Block) : (popBlock ⟨list⟩).2.2 = ⟨list.tail⟩ := by
  cases list with
  | nil => rfl
  | cons b rest => rw [popBlock_cons rfl]; rfl

theorem code_popBlock (list : List Block) :
    (popBlock ⟨list⟩).1 = if list = [] then 1 else if list.tail = [] then 2 else 0 := by
  cases list with
  | nil => rfl
  | cons b rest =>
    rw [popBlock_cons rfl]
    cases rest <;> rfl

theorem block_popBlock (list : List Block) : (popBlock ⟨list⟩).2.1 = list.head? := by
  cases list with
  | nil => rfl
  | cons b rest => rw [popBlock_cons rfl]; rfl

theorem takeOldest {q : SlotQueue} {oldest : Block} {rest : List Block}
    (represents : q.Represents ⟨oldest :: rest⟩) (peek : Bool) :
    ∃ code next, (if peek then q.peekBlock else q.popBlock true) = some (code, some oldest, next) ∧
      next.Represents ⟨if peek then oldest :: rest else rest⟩ ∧
      next.blocksMtx = if peek = false ∧ q.bsize = 1 then q.blocksMtx.use.destroy else q.blocksMtx.use := by
  cases peek with
  | true =>
    obtain ⟨next, answer, kept, mtx⟩ := represents.peekBlock
    exact ⟨0, next, by simpa [peekBlock] using answer, kept, by simpa using mtx⟩
  | false =>
    obtain ⟨next, answer, kept, mtx⟩ := represents.popBlock true
    rw [block_popBlock] at answer
    rw [tail_popBlock] at kept
    exact ⟨_, next, answer, kept, by simpa using mtx⟩

theorem slotForward_nil (dest : ι) (represents : (s src).Represents ⟨[]⟩) (peek : Bool) :
    slotForward s dest src peek = some (.flag false, Function.update s src (s src).queueEmpty.2) := by
  have empty : (s src).queueEmpty.1 = true := represents.queueEmpty.1
  simp only [slotForward, empty, ↓reduceIte]

theorem slotForward_cons (dest : ι) {oldest : Block} {rest : List Block}
    (represents : (s src).Represents ⟨oldest :: rest⟩) (peek : Bool) :
    ∃ q, q.Represents ⟨if peek then oldest :: rest else rest⟩ ∧
      (q.blocksMtx = if peek = false ∧ (s src).bsize = 1 then (s src).blocksMtx.use.destroy
        else (s src).blocksMtx.use) ∧
      ∀ last, (Function.update s src q dest).pushBlock oldest = some last →
        slotForward s dest src peek = some (.flag true, Function.update (Function.update s src q) dest last) := by
  obtain ⟨flag, looked, used⟩ := represents.queueEmpty
  have busy : (s src).queueEmpty.1 = false := flag
  obtain ⟨code, q, taken, left, mtx⟩ := takeOldest looked peek
  rw [used, Mtx.use_use] at mtx
  refine ⟨q, left, mtx, fun last pushed => ?_⟩
  simp only [slotForward, busy, Function.update_self, taken, Option.bind_some, Option.getD_some,
    Function.update_idem]
  rw [if_neg (by decide), pushed]
  rfl

theorem Holds.forward (holds : Holds s lists) (dest src : ι) (peek : Bool) :
    ∃ next, slotForward s dest src peek = some ((listCall lists (.forward dest src peek)).1, next) ∧
      Holds next (listCall lists (.forward dest src peek)).2 := by
  have represents := holds src
  cases shape : lists src with
  | nil =>
    have looked := holds.keep (holds src).queueEmpty.2.1
    rw [shape] at represents
    refine ⟨_, by rw [slotForward_nil dest represents]; simp only [listCall, shape, List.head?_nil]; rfl, ?_⟩
    simpa only [listCall, shape, List.head?_nil] using looked
  | cons oldest rest =>
    rw [shape] at represents
    obtain ⟨q, left, _, forwarded⟩ := slotForward_cons dest represents peek
    -- Only a pop takes the block off the source.
    have lists_left : Function.update lists src (if peek then oldest :: rest else rest) =
        if peek then lists else Function.update lists src rest := by
      cases peek with
      | true => rw [if_pos rfl, if_pos rfl, ← shape, Function.update_eq_self]
      | false => rfl
    have after := holds.update src left
    rw [lists_left] at after
    obtain ⟨last, pushed, grown, _⟩ := (after dest).pushBlock oldest
    refine ⟨_, by rw [forwarded last pushed]; simp only [listCall, shape, List.head?_cons]; rfl, ?_⟩
    simp only [listCall, shape, List.head?_cons, List.tail_cons]
    exact after.update dest grown

theorem slotCall_simulates : Refinement.Simulates (slotCall (ι := ι)) listCall Holds := by
  intro s lists call holds
  cases call with
  | push q b =>
    obtain ⟨next, pushed, represents, _⟩ := (holds q).pushBlock b
    exact ⟨_, by simp [slotCall, listCall, pushed], holds.update q represents⟩
  | pop q wanted =>
    obtain ⟨next, popped, represents, _⟩ := (holds q).popBlock wanted
    rw [tail_popBlock] at represents
    rw [code_popBlock, block_popBlock] at popped
    exact ⟨_, by simp only [slotCall, listCall, popped, Option.map_some], holds.update q represents⟩
  | peek q =>
    obtain ⟨next, peeked, represents, _⟩ := (holds q).peekBlock
    exact ⟨_, by simp only [slotCall, listCall, peeked, Option.map_some, peekBlock], holds.keep represents⟩
  | empty q =>
    obtain ⟨flag, represents, _⟩ := (holds q).queueEmpty
    exact ⟨_, by simp only [slotCall, listCall, flag, queueEmpty], holds.keep represents⟩
  | forward dest src peek => exact holds.forward dest src peek

end Steps

/-- Any sequence of calls on initialised queues is answered as by lists of
blocks and stays inside the slot arrays; the queues hold those lists, and the
slot that a push would write next lies below the head size it asks for. -/
theorem queues_refine_lists (calls : List (QueueCall ι)) :
    ∃ last, Refinement.execute slotCall (fun _ => SlotQueue.init) calls =
        some ((Refinement.replay listCall (fun _ => []) calls).1, last) ∧
      ∀ q, (last q).Represents ⟨(Refinement.replay listCall (fun _ => []) calls).2 q⟩ ∧
        (last q).bsize < (last q).grownHeadSize := by
  obtain ⟨last, executed, holds⟩ := slotCall_simulates.run calls (holds_init (ι := ι))
  exact ⟨last, executed, fun q => ⟨holds q, (holds q).room⟩⟩

section Mutexes

omit [DecidableEq ι] in
/-- Every queue has the mutex it was initialised with, and none was misused. -/
def MutexesLive (s : ι → SlotQueue) : Prop := ∀ q, (s q).blocksMtx.live = true ∧ (s q).blocksMtx.misused = false

/-- A call in a run. Calls that leave a slot array do not occur in one. -/
def slotStep (s : ι → SlotQueue) (call : QueueCall ι) : ι → SlotQueue := ((slotCall s call).map Prod.snd).getD s

omit [DecidableEq ι] in
def SparesLast (s : ι → SlotQueue) : QueueCall ι → Prop
  | .pop q _ => (s q).bsize ≠ 1
  | .forward _ src peek => peek = false → (s src).bsize ≠ 1
  | _ => True

variable {s : ι → SlotQueue} {lists : ι → List Block} {q : ι} {next : SlotQueue}

theorem mutexesLive_use (used : next.blocksMtx = (s q).blocksMtx.use) :
    MutexesLive (Function.update s q next) ↔ MutexesLive s := by
  refine forall_congr' fun other => ?_
  by_cases same : other = q
  · subst same
    rw [Function.update_self, used]
    cases live : (s other).blocksMtx.live <;> simp [Mtx.use, live]
  · rw [Function.update_of_ne same]

theorem mutexesLive_popped (live : MutexesLive s) {last : Prop} [Decidable last]
    (popped : next.blocksMtx = if last then (s q).blocksMtx.use.destroy else (s q).blocksMtx.use) :
    MutexesLive (Function.update s q next) ↔ ¬last := by
  by_cases gone : last
  · rw [if_pos gone] at popped
    refine iff_of_false (fun kept => ?_) (not_not_intro gone)
    have dead := (kept q).1
    rw [Function.update_self, popped] at dead
    cases dead
  · rw [if_neg gone] at popped
    exact iff_of_true ((mutexesLive_use popped).mpr live) gone

theorem mutexesLive_forward (holds : Holds s lists) (live : MutexesLive s) (dest src : ι) (peek : Bool) :
    MutexesLive (slotStep s (.forward dest src peek)) ↔ (peek = false → (s src).bsize ≠ 1) := by
  have represents := holds src
  cases shape : lists src with
  | nil =>
    rw [shape] at represents
    have empty : (s src).bsize = 0 := represents.bsize
    have after : slotStep s (.forward dest src peek) = Function.update s src (s src).queueEmpty.2 := by
      simp only [slotStep, slotCall, slotForward_nil dest represents, Option.map_some, Option.getD_some]
    rw [after, mutexesLive_use represents.queueEmpty.2.2]
    exact iff_of_true live fun _ => by omega
  | cons oldest rest =>
    rw [shape] at represents
    obtain ⟨q, left, popped, forwarded⟩ := slotForward_cons dest represents peek
    obtain ⟨last, pushed, _, used⟩ := ((holds.update src left) dest).pushBlock oldest
    have after : slotStep s (.forward dest src peek) = Function.update (Function.update s src q) dest last := by
      simp only [slotStep, slotCall, forwarded last pushed, Option.map_some, Option.getD_some]
    rw [after, mutexesLive_use used, mutexesLive_popped live popped]
    exact not_and

theorem mutexesLive_step (holds : Holds s lists) (live : MutexesLive s) (call : QueueCall ι) :
    MutexesLive (slotStep s call) ↔ SparesLast s call := by
  cases call with
  | push q b =>
    obtain ⟨next, pushed, _, used⟩ := (holds q).pushBlock b
    simp only [slotStep, slotCall, pushed, Option.map_some, Option.getD_some]
    rw [mutexesLive_use used]
    exact iff_of_true live trivial
  | pop q wanted =>
    obtain ⟨next, answer, _, popped⟩ := (holds q).popBlock wanted
    simp only [slotStep, slotCall, answer, Option.map_some, Option.getD_some]
    exact mutexesLive_popped live popped
  | peek q =>
    obtain ⟨next, peeked, _, used⟩ := (holds q).peekBlock
    simp only [slotStep, slotCall, peeked, Option.map_some, Option.getD_some]
    rw [mutexesLive_use used]
    exact iff_of_true live trivial
  | empty q =>
    simp only [slotStep, slotCall, Option.map_some, Option.getD_some]
    rw [mutexesLive_use (holds q).queueEmpty.2.2]
    exact iff_of_true live trivial
  | forward dest src peek => exact mutexesLive_forward holds live dest src peek

theorem holds_step (holds : Holds s lists) (call : QueueCall ι) :
    Holds (slotStep s call) (listCall lists call).2 := by
  obtain ⟨next, answered, kept⟩ := slotCall_simulates s lists call holds
  simpa only [slotStep, answered, Option.map_some, Option.getD_some] using kept

/-- In every run of calls on initialised queues the mutexes are live, and none
is used dead, exactly when no call pops the only block of a queue. -/
theorem mutexes_live_iff (calls : List (QueueCall ι)) :
    Runs.Throughout slotStep MutexesLive (fun _ => SlotQueue.init) calls ↔
      Runs.Along slotStep SparesLast (fun _ => SlotQueue.init) calls := by
  refine Runs.throughout_iff_along_all (fun s => ∃ lists, Holds s lists) ?_ ?_ ⟨_, holds_init⟩ fun _ => ⟨rfl, rfl⟩
  · rintro s call ⟨lists, holds⟩
    exact ⟨_, holds_step holds call⟩
  · rintro s call ⟨lists, holds⟩ live
    exact mutexesLive_step holds live call

/-- One block in, the block out, and the next push locks a destroyed mutex. -/
theorem pop_destroys_mutex :
    ¬Runs.Throughout slotStep MutexesLive (fun _ : Unit => SlotQueue.init) [.push () [1], .pop () true] ∧
      (Runs.run slotStep (fun _ : Unit => SlotQueue.init)
        [.push () [1], .pop () true, .push () [2]] ()).blocksMtx = ⟨false, true⟩ := by
  refine ⟨fun live => ?_, by decide⟩
  have dead := (live.last ()).1
  revert dead
  decide

end Mutexes

end SlotRuns

end Dcn
