import Dcn.Foundation.Runs
import Dcn.Memory.Map

/-! The event registry of a loop (asyncio.c).

Two maps are keyed by the UID of an event: `events` with values of the size of a
pointer, and `workers` with values of the size of struct __workers_strct. A map
copies its values from the address it is given, so what `events` stores depends
on what the address passed to map_set points at, and a reader has in turn the
address of a slot. A pointer is none for NULL. Allocation succeeds.
-/

set_option autoImplicit false

namespace Dcn

abbrev CodePtr := Nat

structure AsyncioEvent where
  data : Option Nat
  dsize : Nat
  uid : UInt64
  trigger : CodePtr

structure WorkersStrct where
  workers : List CodePtr

/-- The part of struct ev_loop that events use. `heap` has what is at the
addresses that malloc gave for events. -/
structure EventLoop where
  gEuid : UInt64
  events : Map UInt64 (Option Nat)
  workers : Map UInt64 WorkersStrct
  heap : Nat → Option AsyncioEvent

/-- What loop_stop gives to free: a struct asyncio_event, or the address of a
slot in the values of `events`. -/
inductive Released where
  | event (ptr : Nat)
  | slot (inx : Nat)
  deriving DecidableEq

def loopCreate : EventLoop where
  gEuid := 1
  events := mapInit UInt64 (Option Nat)
  workers := mapInit UInt64 WorkersStrct
  heap := fun _ => none

/-- As many bytes of an event as a pointer has: the data pointer of its qblock. -/
def AsyncioEvent.firstWord (event : AsyncioEvent) : Option Nat := event.data

def eventInit (loop : EventLoop) (trigger : CodePtr) : AsyncioEvent := ⟨none, 0, loop.gEuid, trigger⟩

/-- malloc gives `ptr`. The value is passed as `event`, not as its address, so
map_set copies from the event. -/
def asyncioCreateEvent (loop : EventLoop) (trigger : CodePtr) (ptr : Nat) : UInt64 × EventLoop :=
  let event := eventInit loop trigger
  (event.uid, { loop with
    gEuid := loop.gEuid + 1
    heap := fun other => if other = ptr then some event else loop.heap other
    events := mapSet loop.events event.uid event.firstWord })

def asyncioSubscribe (loop : EventLoop) (eventUid : UInt64) (worker : CodePtr) : Bool × EventLoop :=
  if mapIn loop.events eventUid then
    match mapAt loop.workers eventUid with
    | none => (false, loop)
    | some strc => (true, { loop with
        workers := mapSet loop.workers eventUid { strc with workers := strc.workers ++ [worker] } })
  else (false, loop)

/-- Past its tests it reads the slot of the event as a struct asyncio_event,
which is larger than a slot: none. -/
def asyncioRemevent (loop : EventLoop) (eventUid : UInt64) : Option EventLoop :=
  if mapIn loop.events eventUid then
    match mapAt loop.workers eventUid with
    | none => some loop
    | some _ => none
  else some loop

def startedBy (loop : EventLoop) (eventUid : UInt64) : List CodePtr :=
  match mapAt loop.workers eventUid with
  | none => []
  | some strc => strc.workers

/-- The loop of loop_stop over the events: the pointer in a slot is followed by
__event_free, and the slot is freed. None where the pointer is to no event. -/
def loopStop (loop : EventLoop) : Option (List Released) :=
  (List.range loop.events.entries.length).mapM fun i =>
    (mapKeyAt loop.events i).bind fun key =>
      (mapAt loop.events key).bind fun event =>
        (event.bind loop.heap).map fun _ => .slot i

inductive EventCall where
  | create (trigger : CodePtr) (ptr : Nat)
  | subscribe (eventUid : UInt64) (worker : CodePtr)
  | remevent (eventUid : UInt64)

def EventCall.creates : EventCall → Bool
  | .create _ _ => true
  | _ => false

/-- The loop, none once a call has left what the model describes, and the events
that were created and not removed, each with its address. -/
structure EventRegistry where
  loop : Option EventLoop
  present : List (UInt64 × Nat)

namespace EventRegistry

def start : EventRegistry := ⟨some loopCreate, []⟩

def step (r : EventRegistry) : EventCall → EventRegistry
  | .create trigger ptr =>
    { loop := r.loop.map fun loop => (asyncioCreateEvent loop trigger ptr).2
      present := r.present ++ (r.loop.map fun loop => ((asyncioCreateEvent loop trigger ptr).1, ptr)).toList }
  | .subscribe eventUid worker => { r with loop := r.loop.map fun loop => (asyncioSubscribe loop eventUid worker).2 }
  | .remevent eventUid =>
    { loop := r.loop.bind fun loop => asyncioRemevent loop eventUid
      present := r.present.filter fun e => e.1 ≠ eventUid }

/-- What the registry is for: the events that are there can be looked up and
subscribed to, no others can, and loop_stop frees them. -/
structure Consistent (r : EventRegistry) (loop : EventLoop) : Prop where
  entries : ∀ e ∈ r.present, mapAt loop.events e.1 = some (some e.2)
  subscribed : ∀ e ∈ r.present, ∀ worker, (asyncioSubscribe loop e.1 worker).1 = true ∧
    startedBy (asyncioSubscribe loop e.1 worker).2 e.1 = startedBy loop e.1 ++ [worker]
  unknown : ∀ eventUid, (∀ e ∈ r.present, e.1 ≠ eventUid) → ∀ worker, (asyncioSubscribe loop eventUid worker).1 = false
  stops : ∃ released, loopStop loop = some released ∧ released.Perm (r.present.map fun e => .event e.2)

def Keeps (r : EventRegistry) : Prop := ∃ loop, r.loop = some loop ∧ r.Consistent loop

structure Unlinked (loop : EventLoop) : Prop where
  workers : ∀ eventUid, mapAt loop.workers eventUid = none
  events : ∀ e ∈ loop.events.entries, e.2 = none

section Unlinked

variable {loop : EventLoop}

theorem unlinked_create : Unlinked loopCreate := ⟨fun _ => rfl, by simp [loopCreate]⟩

theorem asyncioSubscribe_unlinked (unlinked : Unlinked loop) (eventUid : UInt64) (worker : CodePtr) :
    asyncioSubscribe loop eventUid worker = (false, loop) := by
  unfold asyncioSubscribe
  rw [unlinked.workers]
  split <;> rfl

theorem asyncioRemevent_unlinked (unlinked : Unlinked loop) (eventUid : UInt64) :
    asyncioRemevent loop eventUid = some loop := by
  unfold asyncioRemevent
  rw [unlinked.workers]
  split <;> rfl

theorem unlinked_asyncioCreateEvent (unlinked : Unlinked loop) (trigger : CodePtr) (ptr : Nat) :
    Unlinked (asyncioCreateEvent loop trigger ptr).2 := by
  refine ⟨unlinked.workers, ?_⟩
  rintro ⟨key, event⟩ member
  rw [asyncioCreateEvent, Map.mem_mapSet] at member
  rcases member with ⟨_, same⟩ | ⟨_, member⟩
  · exact same
  · exact unlinked.events _ member

/-- loop_stop follows a NULL pointer as soon as there is an entry. -/
theorem loopStop_unlinked (unlinked : Unlinked loop) :
    loopStop loop = if loop.events.entries = [] then some [] else none := by
  unfold loopStop
  cases shape : loop.events.entries with
  | nil => rfl
  | cons e rest =>
    have first : mapKeyAt loop.events 0 = some e.1 := by simp [mapKeyAt, shape]
    have found : mapAt loop.events e.1 = some e.2 := Map.mapAt_eq_some_iff.mpr (by simp [shape])
    have null : e.2 = none := unlinked.events e (by simp [shape])
    rw [List.length_cons, List.range_succ_eq_map, List.mapM_cons]
    simp [first, found, null]

end Unlinked

section Runs

variable {r : EventRegistry}

def UnlinkedLoop (r : EventRegistry) : Prop := ∃ loop, r.loop = some loop ∧ Unlinked loop

theorem unlinkedLoop_start : start.UnlinkedLoop := ⟨loopCreate, rfl, unlinked_create⟩

theorem unlinkedLoop_step (call : EventCall) (unlinked : r.UnlinkedLoop) : (r.step call).UnlinkedLoop := by
  obtain ⟨loop, there, unlinked⟩ := unlinked
  cases call with
  | create trigger ptr =>
    exact ⟨_, by rw [step, there]; rfl, unlinked_asyncioCreateEvent unlinked trigger ptr⟩
  | subscribe eventUid worker =>
    refine ⟨loop, ?_, unlinked⟩
    rw [step, there, Option.map_some, asyncioSubscribe_unlinked unlinked]
  | remevent eventUid =>
    refine ⟨loop, ?_, unlinked⟩
    rw [step, there, Option.bind_some, asyncioRemevent_unlinked unlinked]

theorem keeps_iff (unlinked : r.UnlinkedLoop) :
    r.Keeps ↔ r.present = [] ∧ ∃ loop, r.loop = some loop ∧ loop.events.entries = [] := by
  obtain ⟨loop, there, unlinked⟩ := unlinked
  constructor
  · rintro ⟨other, same, consistent⟩
    cases there.symm.trans same
    have nothing : r.present = [] := by
      cases shape : r.present with
      | nil => rfl
      | cons e rest =>
        have accepted := (consistent.subscribed e (by simp [shape]) 0).1
        rw [asyncioSubscribe_unlinked unlinked] at accepted
        cases accepted
    obtain ⟨released, stops, _⟩ := consistent.stops
    rw [loopStop_unlinked unlinked] at stops
    refine ⟨nothing, loop, there, ?_⟩
    by_contra entries
    rw [if_neg entries] at stops
    cases stops
  · rintro ⟨nothing, other, same, empty⟩
    cases there.symm.trans same
    refine ⟨loop, there, ?_, ?_, ?_, ⟨[], ?_, ?_⟩⟩
    · simp [nothing]
    · simp [nothing]
    · intro eventUid _ worker
      rw [asyncioSubscribe_unlinked unlinked]
    · rw [loopStop_unlinked unlinked, if_pos empty]
    · simp [nothing]

theorem keeps_step_iff (call : EventCall) (unlinked : r.UnlinkedLoop) (keeps : r.Keeps) :
    (r.step call).Keeps ↔ call.creates = false := by
  obtain ⟨nothing, loop, there, empty⟩ := (keeps_iff unlinked).mp keeps
  have linked : Unlinked loop := by
    obtain ⟨other, same, linked⟩ := unlinked
    cases there.symm.trans same
    exact linked
  rw [keeps_iff (unlinkedLoop_step call unlinked)]
  cases call with
  | create trigger ptr => simp [step, there, EventCall.creates]
  | subscribe eventUid worker =>
    refine iff_of_true ⟨nothing, loop, ?_, empty⟩ rfl
    rw [step, there, Option.map_some, asyncioSubscribe_unlinked linked]
  | remevent eventUid =>
    refine iff_of_true ⟨by simp [step, nothing], loop, ?_, empty⟩ rfl
    rw [step, there, Option.bind_some, asyncioRemevent_unlinked linked]

theorem noEntries_step_iff (call : EventCall) (unlinked : r.UnlinkedLoop) :
    (∃ loop, (r.step call).loop = some loop ∧ loop.events.entries = []) ↔
      (∃ loop, r.loop = some loop ∧ loop.events.entries = []) ∧ call.creates = false := by
  obtain ⟨loop, there, unlinked⟩ := unlinked
  cases call with
  | create trigger ptr =>
    refine iff_of_false ?_ (by simp [EventCall.creates])
    rintro ⟨after, same, empty⟩
    rw [step, there, Option.map_some, Option.some.injEq] at same
    subst same
    have stored := Map.mapEmpty_mapSet loop.events loop.gEuid (none : Option Nat)
    rw [mapEmpty, List.isEmpty_eq_false_iff] at stored
    exact stored empty
  | subscribe eventUid worker =>
    simp [step, there, asyncioSubscribe_unlinked unlinked, EventCall.creates]
  | remevent eventUid =>
    simp [step, there, asyncioRemevent_unlinked unlinked, EventCall.creates]

theorem noEntries_run_iff (calls : List EventCall) (unlinked : r.UnlinkedLoop) :
    (∃ loop, (Runs.run step r calls).loop = some loop ∧ loop.events.entries = []) ↔
      (∃ loop, r.loop = some loop ∧ loop.events.entries = []) ∧ ∀ call ∈ calls, call.creates = false := by
  induction calls generalizing r with
  | nil => simp
  | cons call rest ih =>
    rw [Runs.run_cons, ih (unlinkedLoop_step call unlinked), noEntries_step_iff call unlinked, List.forall_mem_cons,
      and_assoc]

end Runs

/-- Whatever was called, nothing can be subscribed to, and loop_stop comes to
its end only where no event was created. -/
theorem stops_iff (calls : List EventCall) : ∃ loop, (Runs.run step start calls).loop = some loop ∧
    (∀ eventUid worker, asyncioSubscribe loop eventUid worker = (false, loop)) ∧
    ((loopStop loop).isSome ↔ ∀ call ∈ calls, call.creates = false) := by
  obtain ⟨loop, there, unlinked⟩ :=
    (Runs.throughout_of_preserved_all (fun _ call kept => unlinkedLoop_step call kept) unlinkedLoop_start calls).last
  refine ⟨loop, there, asyncioSubscribe_unlinked unlinked, ?_⟩
  have entries := noEntries_run_iff calls unlinkedLoop_start
  rw [there] at entries
  have never : (∃ loop, start.loop = some loop ∧ loop.events.entries = []) := ⟨loopCreate, rfl, rfl⟩
  rw [loopStop_unlinked unlinked]
  constructor
  · intro stops
    by_cases empty : loop.events.entries = []
    · exact (entries.mp ⟨loop, rfl, empty⟩).2
    · rw [if_neg empty] at stops
      cases stops
  · intro quiet
    obtain ⟨other, same, empty⟩ := entries.mpr ⟨never, quiet⟩
    cases same
    rw [if_pos empty]
    rfl

/-- The registry is consistent throughout a sequence of calls exactly where none
of them creates an event. -/
theorem keeps_throughout_iff (calls : List EventCall) :
    Runs.Throughout step Keeps start calls ↔ ∀ call ∈ calls, call.creates = false := by
  have empty : start.Keeps := (keeps_iff unlinkedLoop_start).mpr ⟨rfl, loopCreate, rfl, rfl⟩
  rw [Runs.throughout_iff_along_all UnlinkedLoop (fun _ call unlinked => unlinkedLoop_step call unlinked)
    (fun _ call unlinked keeps => keeps_step_iff call unlinked keeps) unlinkedLoop_start empty]
  exact Runs.along_iff_forall

theorem created_not_found : ¬ Runs.Throughout step Keeps start [.create 5 64] := by
  intro keeps
  obtain ⟨loop, there, consistent⟩ := keeps.last
  have entry := consistent.entries (1, 64) (by decide)
  cases there
  exact absurd entry (by decide)

end EventRegistry

end Dcn
