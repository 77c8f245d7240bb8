import Dcn.Foundation.Hierarchy

/-! Which mutexes are taken inside which (allocator.c, queue.c, map.c, asyncio.c,
thr-pool.c, dnet/client.c).

Each function is what it does with mutexes, in the order of the source. What its
tests read is a parameter, since other threads may change it between any two
steps. The mutexes that are given back by whoever does not have them, and the
exits that keep one, are left out: the search of __async_req after its wait, and
the containers' exits for want of memory. Left out, too, is the mutex of the
array of levels of a logger, which dblog takes for a moment inside the sections
of a session that has one.
-/

set_option autoImplicit false

namespace Dcn

open Hierarchy (Action Order Fits Under Alone condWait)

/-- The mutexes of a process, by what they belong to: its allocator, a queue, a
map, a waiter, a future, an asyncio_gather, the workers of an event, and the
usr_responses of a session. -/
inductive MtxId where
  | alc
  | queue (q : Nat)
  | map (m : Nat)
  | waiter (w : Nat)
  | future (f : Nat)
  | gather (g : Nat)
  | workers (e : Nat)
  | usrResponses (session : Nat)
  deriving DecidableEq, Repr

/-- Under the mutex of a session come those of queues and maps, and under a
queue's that of the allocator; mtx_recursive is how each was initialised. -/
def mtxOrder : Order MtxId where
  rank
    | .alc => 0
    | .usrResponses _ => 2
    | _ => 1
  recursive
    | .alc | .queue _ | .map _ | .waiter _ => true
    | .future _ | .gather _ | .workers _ | .usrResponses _ => false

namespace Locks

def locked (m : MtxId) (body : List (Action MtxId)) : List (Action MtxId) := .lock m :: (body ++ [.unlock m])

def hashTableResize : List (Action MtxId) := [.lock .alc, .unlock .alc]

/-- The tests of an allocator call: whether the pointer it is given, or gets
from malloc, is not NULL, and whether the table is resized. -/
inductive AlcCall where
  | malloc (ptr resizes : Bool)
  | calloc (ptr : Bool)
  | free (ptr : Bool)
  | realloc (tracked newPtr resizes : Bool)
  deriving DecidableEq, Repr

def alcMalloc (ptr resizes : Bool) : List (Action MtxId) :=
  if ptr then locked .alc (if resizes then hashTableResize else []) else []

def alcCalloc (ptr : Bool) : List (Action MtxId) := if ptr then locked .alc [] else []

def alcFree (ptr : Bool) : List (Action MtxId) := if ptr then locked .alc [] else []

/-- alc_realloc of a block to a size other than 0; otherwise it is alc_malloc or
alc_free. -/
def alcRealloc (tracked newPtr resizes : Bool) : List (Action MtxId) :=
  if !tracked then locked .alc []
  else if !newPtr then locked .alc []
  else locked .alc (if resizes then hashTableResize else [])

def AlcCall.actions : AlcCall → List (Action MtxId)
  | .malloc ptr resizes => alcMalloc ptr resizes
  | .calloc ptr => alcCalloc ptr
  | .free ptr => alcFree ptr
  | .realloc tracked newPtr resizes => alcRealloc tracked newPtr resizes

structure Copied where
  old : Bool
  data : Bool
  ptr : Bool
  resizes : Bool
  deriving DecidableEq, Repr

def qblockCopy : Option Copied → List (Action MtxId)
  | none => []
  | some copied => alcFree copied.old ++ if copied.data then alcMalloc copied.ptr copied.resizes else []

def pushBlock (q : Nat) (array : AlcCall) (copied : Option Copied) : List (Action MtxId) :=
  locked (.queue q) (array.actions ++ qblockCopy copied)

def queueFree (q : Nat) (blocks : List Bool) (array : Bool) : List (Action MtxId) :=
  locked (.queue q) (blocks.flatMap alcFree ++ alcFree array)

inductive Popped where
  | none
  | one (copied : Option Copied) (blocks : List Bool) (array : Bool)
  | more (copied : Option Copied) (shifted : List Copied) (last : Bool) (array : AlcCall)
  deriving DecidableEq, Repr

def popBlock (q : Nat) : Popped → List (Action MtxId)
  | .none => locked (.queue q) []
  -- The queue is unlocked before it is freed, so others may push in between.
  | .one copied blocks array => locked (.queue q) (qblockCopy copied) ++ queueFree q blocks array
  | .more copied shifted last array =>
    locked (.queue q) (qblockCopy copied ++ shifted.flatMap (fun c => qblockCopy (some c)) ++ alcFree last ++
      array.actions)

def peekBlock (q : Nat) (copied : Option Copied) : List (Action MtxId) := locked (.queue q) (qblockCopy copied)

def queueEmpty (q : Nat) : List (Action MtxId) := locked (.queue q) []

def mapCall (m : Nat) : List (Action MtxId) := locked (.map m) []

/-- waiter_wait and waiter_wait_for, with so many returns from the wait on the
condition. -/
def waiterWait (w returns : Nat) : List (Action MtxId) :=
  .lock (.waiter w) :: ((List.replicate returns (condWait (.waiter w))).flatten ++ [.unlock (.waiter w)])

def awaitFuture (f returns : Nat) (copied : Option Copied) (out inp : Bool) : List (Action MtxId) :=
  .lock (.future f) :: ((List.replicate returns (condWait (.future f))).flatten ++ [.unlock (.future f)]) ++
    (qblockCopy copied ++ alcFree out ++ alcFree inp)

def asyncioGather (g returns : Nat) : List (Action MtxId) :=
  .lock (.gather g) :: ((List.replicate returns (condWait (.gather g))).flatten ++ [.unlock (.gather g)])

/-- The section in which __thr_work takes a task, with what is left of the block
behind pop_block; none where the pool has no task any more. -/
def thrWork (q returns : Nat) (popped : Option (Popped × Bool)) : List (Action MtxId) :=
  .lock (.queue q) :: ((List.replicate returns (condWait (.queue q))).flatten ++
    ((match popped with
      | none => []
      | some (popped, block) => popBlock q popped ++ alcFree block) ++ [.unlock (.queue q)]))

/-- What is stored for a user: a request, serialised, in the user's queue, or a
response, copied, in the user's map. -/
inductive Stored where
  | request (serial : AlcCall) (q : Nat) (array : AlcCall) (copied : Option Copied) (data : Bool)
  | response (copy : AlcCall) (copied : Option Copied) (m : Nat)
  deriving DecidableEq, Repr

def Stored.actions : Stored → List (Action MtxId)
  | .request serial q array copied data => serial.actions ++ pushBlock q array copied ++ alcFree data
  | .response copy copied m => copy.actions ++ qblockCopy copied ++ mapCall m

/-- The user branch of __dcn_on_message on the map of usr_responses; for a user
not seen before there is the allocation of a queue, and the map is set. -/
def onUserMessage (session m : Nat) (loc : Option AlcCall) (stored : Stored) : List (Action MtxId) :=
  locked (.usrResponses session) (mapCall m ++
    match loc with
    | none => stored.actions
    | some requests => requests.actions ++ stored.actions ++ mapCall m)

/-- The test of __async_req for a response, which ends the section where there
is none; `targ` is the user's map of responses. -/
def responseCheck (session m : Nat) (targ : Option Nat) : List (Action MtxId) :=
  locked (.usrResponses session) (mapCall m ++ targ.elim [] mapCall)

/-- What __async_req finds in the same section, where there is a response: no
user, no response under its number, or one, which it copies and gives back. -/
inductive Searched where
  | noUser
  | noResponse
  | found (copy : AlcCall) (copied : Option Copied) (data : Bool)
  deriving DecidableEq, Repr

def responseSearch (session m targ : Nat) (searched : Searched) : List (Action MtxId) :=
  locked (.usrResponses session) (mapCall m ++ mapCall targ ++
    (mapCall m ++
      match searched with
      | .noUser => []
      | .noResponse => mapCall targ
      | .found copy copied data =>
        mapCall targ ++ (copy.actions ++ qblockCopy copied ++ alcFree data ++ alcFree true) ++ mapCall targ))

def gatherFrom (session m : Nat) (popped : Option (Nat × Popped × Option (AlcCall × Bool))) : List (Action MtxId) :=
  locked (.usrResponses session) (mapCall m ++
    match popped with
    | none => []
    | some (q, popped, decoded) => popBlock q popped ++ decoded.elim [] fun (data, block) => data.actions ++ alcFree block)

/-- One call of a thread. Whatever else the program does is such calls one after
the other, with no mutex in between. -/
inductive Call where
  | alc (call : AlcCall)
  | push (q : Nat) (array : AlcCall) (copied : Option Copied)
  | pop (q : Nat) (popped : Popped)
  | peek (q : Nat) (copied : Option Copied)
  | empty (q : Nat)
  | free (q : Nat) (blocks : List Bool) (array : Bool)
  | map (m : Nat)
  | wait (w returns : Nat)
  | await (f returns : Nat) (copied : Option Copied) (out inp : Bool)
  | gather (g returns : Nat)
  | complete (g : Nat)
  | subscribe (e : Nat)
  | work (q returns : Nat) (popped : Option (Popped × Bool))
  | userMessage (session m : Nat) (loc : Option AlcCall) (stored : Stored)
  | check (session m : Nat) (targ : Option Nat)
  | search (session m targ : Nat) (searched : Searched)
  | gatherFrom (session m : Nat) (popped : Option (Nat × Popped × Option (AlcCall × Bool)))

def Call.actions : Call → List (Action MtxId)
  | .alc call => call.actions
  | .push q array copied => pushBlock q array copied
  | .pop q popped => popBlock q popped
  | .peek q copied => peekBlock q copied
  | .empty q => queueEmpty q
  | .free q blocks array => queueFree q blocks array
  | .map m => mapCall m
  | .wait w returns => waiterWait w returns
  | .await f returns copied out inp => awaitFuture f returns copied out inp
  | .gather g returns => asyncioGather g returns
  -- The broadcast of __thr_work under the shared mutex.
  | .complete g => locked (.gather g) []
  | .subscribe e => locked (.workers e) []
  | .work q returns popped => thrWork q returns popped
  | .userMessage session m loc stored => onUserMessage session m loc stored
  | .check session m targ => responseCheck session m targ
  | .search session m targ searched => responseSearch session m targ searched
  | .gatherFrom session m popped => Locks.gatherFrom session m popped

def program (calls : List Call) : List (Action MtxId) := calls.flatMap Call.actions

section Allocator

theorem fits_resize (resizes : Bool) : Fits mtxOrder .alc (if resizes then hashTableResize else []) := by
  cases resizes with
  | true => exact .empty
  | false => exact .nil

/-- The table is resized under the allocator's own mutex, which is recursive. -/
theorem fits_alcMalloc (ptr resizes : Bool) : Fits mtxOrder .alc (alcMalloc ptr resizes) := by
  cases ptr with
  | true => exact (fits_resize resizes).again rfl
  | false => exact .nil

theorem fits_alcFree (ptr : Bool) : Fits mtxOrder .alc (alcFree ptr) := by
  cases ptr with
  | true => exact .empty
  | false => exact .nil

theorem fits_alc (call : AlcCall) : Fits mtxOrder .alc call.actions := by
  cases call with
  | malloc ptr resizes => exact fits_alcMalloc ptr resizes
  | calloc ptr =>
    cases ptr with
    | true => exact .empty
    | false => exact .nil
  | free ptr => exact fits_alcFree ptr
  | realloc tracked newPtr resizes =>
    cases tracked with
    | false => exact .empty
    | true =>
      cases newPtr with
      | false => exact .empty
      | true => exact (fits_resize resizes).again rfl

theorem fits_qblockCopy (copied : Option Copied) : Fits mtxOrder .alc (qblockCopy copied) := by
  cases copied with
  | none => exact .nil
  | some copied =>
    refine (fits_alcFree copied.old).append ?_
    split
    · exact fits_alcMalloc copied.ptr copied.resizes
    · exact .nil

end Allocator

section Containers

variable {body : List (Action MtxId)} (q m : Nat)

theorem below_queue (fits : Fits mtxOrder .alc body) : Under mtxOrder 1 body := fits.under Nat.zero_lt_one

theorem fits_queue (fits : Fits mtxOrder .alc body) : Fits mtxOrder (.queue q) (locked (.queue q) body) :=
  (below_queue fits).locked le_rfl

theorem fits_pushBlock (array : AlcCall) (copied : Option Copied) :
    Fits mtxOrder (.queue q) (pushBlock q array copied) :=
  fits_queue q ((fits_alc array).append (fits_qblockCopy copied))

theorem fits_queueFree (blocks : List Bool) (array : Bool) : Fits mtxOrder (.queue q) (queueFree q blocks array) :=
  fits_queue q ((Fits.flatMap blocks fun data _ => fits_alcFree data).append (fits_alcFree array))

theorem fits_popBlock (popped : Popped) : Fits mtxOrder (.queue q) (popBlock q popped) := by
  cases popped with
  | none => exact .empty
  | one copied blocks array => exact (fits_queue q (fits_qblockCopy copied)).append (fits_queueFree q blocks array)
  | more copied shifted last array =>
    have shifts : Fits mtxOrder .alc (shifted.flatMap fun c => qblockCopy (some c)) :=
      .flatMap shifted fun c _ => fits_qblockCopy (some c)
    exact fits_queue q ((((fits_qblockCopy copied).append shifts).append (fits_alcFree last)).append (fits_alc array))

end Containers

section Sessions

variable {body : List (Action MtxId)} (session m : Nat)

/-! What is run under the mutex of a session. -/

theorem below_session {q : Nat} (fits : Fits mtxOrder (.queue q) body) : Under mtxOrder 2 body := fits.under (Nat.lt_succ_self 1)

theorem below_session_alc (fits : Fits mtxOrder .alc body) : Under mtxOrder 2 body := fits.under (Nat.zero_lt_succ 1)

theorem below_session_map (m : Nat) : Under mtxOrder 2 (mapCall m) := Fits.empty.under (Nat.lt_succ_self 1)

theorem alone_session (under : Under mtxOrder 2 body) : Alone mtxOrder (locked (.usrResponses session) body) :=
  (under.locked le_rfl).alone

theorem under_stored (stored : Stored) : Under mtxOrder 2 stored.actions := by
  cases stored with
  | request serial q array copied data =>
    refine ((below_session_alc (fits_alc serial)).append ?_).append (below_session_alc (fits_alcFree data))
    exact below_session (fits_pushBlock q array copied)
  | response copy copied m =>
    refine ((below_session_alc (fits_alc copy)).append ?_).append (below_session_map m)
    exact below_session_alc (fits_qblockCopy copied)

theorem alone_onUserMessage (loc : Option AlcCall) (stored : Stored) :
    Alone mtxOrder (onUserMessage session m loc stored) := by
  apply alone_session
  apply (below_session_map m).append
  cases loc with
  | none => exact under_stored stored
  | some requests => exact ((below_session_alc (fits_alc requests)).append (under_stored stored)).append (below_session_map m)

theorem alone_responseCheck (targ : Option Nat) : Alone mtxOrder (responseCheck session m targ) := by
  apply alone_session
  apply (below_session_map m).append
  cases targ with
  | none => exact .nil
  | some responses => exact below_session_map responses

theorem alone_responseSearch (targ : Nat) (searched : Searched) :
    Alone mtxOrder (responseSearch session m targ searched) := by
  apply alone_session
  apply ((below_session_map m).append (below_session_map targ)).append
  apply (below_session_map m).append
  cases searched with
  | noUser => exact .nil
  | noResponse => exact below_session_map targ
  | found copy copied data =>
    have copies : Fits mtxOrder .alc (copy.actions ++ qblockCopy copied ++ alcFree data ++ alcFree true) :=
      (((fits_alc copy).append (fits_qblockCopy copied)).append (fits_alcFree data)).append (fits_alcFree true)
    exact ((below_session_map targ).append (below_session_alc copies)).append (below_session_map targ)

theorem alone_gatherFrom (popped : Option (Nat × Popped × Option (AlcCall × Bool))) :
    Alone mtxOrder (gatherFrom session m popped) := by
  apply alone_session
  apply (below_session_map m).append
  cases popped with
  | none => exact .nil
  | some taken =>
    obtain ⟨q, popped, decoded⟩ := taken
    apply (below_session (fits_popBlock q popped)).append
    cases decoded with
    | none => exact .nil
    | some block => exact below_session_alc ((fits_alc block.1).append (fits_alcFree block.2))

end Sessions

section Waits

/-- pop_block is called under the mutex of the pool's queue, which is recursive. -/
theorem alone_thrWork (q returns : Nat) (popped : Option (Popped × Bool)) : Alone mtxOrder (thrWork q returns popped) := by
  refine Fits.waits ?_ returns
  cases popped with
  | none => exact .empty
  | some task =>
    have block : Fits mtxOrder (.queue q) (alcFree task.2) := (below_queue (fits_alcFree task.2)).fits le_rfl
    exact ((fits_popBlock q task.1).append block).again rfl

theorem alone_wait (m : MtxId) (returns : Nat) :
    Alone mtxOrder (.lock m :: ((List.replicate returns (condWait m)).flatten ++ [.unlock m])) := by
  have nothing : Fits mtxOrder m (.lock m :: ([] ++ [.unlock m])) := .empty
  exact nothing.waits returns

theorem alone_actions (call : Call) : Alone mtxOrder call.actions := by
  cases call with
  | alc call => exact (fits_alc call).alone
  | push q array copied => exact (fits_pushBlock q array copied).alone
  | pop q popped => exact (fits_popBlock q popped).alone
  | peek q copied => exact (fits_queue q (fits_qblockCopy copied)).alone
  | empty q => exact Fits.empty.alone
  | free q blocks array => exact (fits_queueFree q blocks array).alone
  | map m => exact Fits.empty.alone
  | wait w returns => exact alone_wait (.waiter w) returns
  | await f returns copied out inp =>
    have after : Fits mtxOrder .alc (qblockCopy copied ++ alcFree out ++ alcFree inp) :=
      ((fits_qblockCopy copied).append (fits_alcFree out)).append (fits_alcFree inp)
    exact (alone_wait (.future f) returns).append after.alone
  | gather g returns => exact alone_wait (.gather g) returns
  | complete g => exact Fits.empty.alone
  | subscribe e => exact Fits.empty.alone
  | work q returns popped => exact alone_thrWork q returns popped
  | userMessage session m loc stored => exact alone_onUserMessage session m loc stored
  | check session m targ => exact alone_responseCheck session m targ
  | search session m targ searched => exact alone_responseSearch session m targ searched
  | gatherFrom session m popped => exact alone_gatherFrom session m popped

end Waits

variable {τ : Type} [DecidableEq τ] [Fintype τ]

open Hierarchy (Moves Due Idle start step)

def pushers (_ : Bool) : List Call := [.push 0 (.malloc true true) (some ⟨true, true, true, false⟩)]

end Locks

end Dcn
