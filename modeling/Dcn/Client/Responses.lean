import Dcn.Client.Session
import Dcn.Foundation.Runs
import Dcn.Memory.Pointers
import Mathlib.Data.Fintype.Basic

/-! Requests to one peer and the responses that come back (dnet/client.c).

Calls of __async_req with packtype REQUEST run in steps beside runs of the
message handler. The handler's section under usr_responses_mtx is one step, and
so are the test for a response, which is under it too, and the wait once its
waiter is ready. The search for the response goes on without the mutex after a
wait, so each of its lookups and each use of the pointer that one returned is a
step. The cycle of dcn_request that the server ends by accepting the request is
one step. A waiter is known by the call that allocated it.
-/

set_option autoImplicit false

namespace Dcn

/-- The step a call takes next, with the cmuid of its packet: the test for a
waiter of the peer, its creation, the request cycle, the test for a response,
the lookup of the waiter, the read of resp_waiter, the wait, the lookup of the
peer's queues, that of the response, the copy of the packet, its release and the
erase. A call is lost that reads an array which was given back. -/
inductive ReqPc (τ : Type) where
  | idle
  | test (cmuid : UInt64)
  | create (cmuid : UInt64)
  | request (cmuid : UInt64)
  | check (cmuid : UInt64)
  | find (cmuid : UInt64)
  | follow (cmuid : UInt64) (waiterStr : SlotPtr)
  | wait (cmuid : UInt64) (respWaiter : τ)
  | search (cmuid : UInt64)
  | read (cmuid : UInt64) (lcUrsp : SlotPtr)
  | copy (cmuid : UInt64) (lcUrsp packPtr : SlotPtr)
  | free (cmuid : UInt64) (lcUrsp packPtr : SlotPtr) (answer : Packet)
  | erase (cmuid : UInt64) (lcUrsp : SlotPtr) (answer : Packet)
  | returned (cmuid : UInt64) (answer : Option Packet)
  | lost (cmuid : UInt64)
  deriving DecidableEq

inductive ResponsePc where
  | idle
  | store (pack : Packet)
  | find (pack : Packet)
  | set (pack : Packet) (waiter : SlotPtr)
  deriving DecidableEq

/-- The session's fields for users with the arrays of the maps (those of the
peer's responses too), where the calls and the handler runs are, and, as
histories, the numbers in use and the numbers of the peer's responses ever
stored. -/
structure Responses (τ η : Type) where
  peer : UInt64
  usrResponses : Map UInt64 UsrResp
  usrArrays : Arrays
  respArrays : Arrays
  usrWaiters : Map UInt64 τ
  waiterArrays : Arrays
  isReady : τ → Bool
  calls : τ → ReqPc τ
  handlers : η → ResponsePc
  used : List UInt64
  stored : List UInt64

/-- A call is made, with a number not used before, or takes its next step; a
RESPONSE reaches a handler run, or the run takes its next step. The arrays that
realloc moves are those of the map written, and for a handler those of the peer's
responses and of usr_responses. -/
inductive ResponseEvent (τ η : Type) where
  | call (c : τ) (cmuid : UInt64)
  | advance (c : τ) (moved : Moved)
  | arrive (h : η) (pack : Packet)
  | handle (h : η) (moved users : Moved)

namespace Responses

variable {τ η : Type} [DecidableEq τ] [DecidableEq η]

def start (τ η : Type) (peer : UInt64) : Responses τ η where
  peer := peer
  usrResponses := mapInit UInt64 UsrResp
  usrArrays := .init
  respArrays := .init
  usrWaiters := mapInit UInt64 τ
  waiterArrays := .init
  isReady _ := false
  calls _ := .idle
  handlers _ := .idle
  used := []
  stored := []

def goto (s : Responses τ η) (c : τ) (pc : ReqPc τ) : Responses τ η :=
  { s with calls := Function.update s.calls c pc }

def handlerGoto (s : Responses τ η) (h : η) (pc : ResponsePc) : Responses τ η :=
  { s with handlers := Function.update s.handlers h pc }

def responseOf (s : Responses τ η) (cmuid : UInt64) : Option Packet :=
  (mapAt s.usrResponses s.peer).bind fun targ => mapAt targ.responses cmuid

/-- Whether any response of the peer is there, whoever asked for it. -/
def responseExists (s : Responses τ η) : Bool :=
  match mapAt s.usrResponses s.peer with
  | some lcUrsp => !mapEmpty lcUrsp.responses
  | none => false

def packetAt (s : Responses τ η) (packPtr : SlotPtr) : Option Packet :=
  (mapAt s.usrResponses s.peer).bind fun targ => s.respArrays.value targ.responses packPtr

def through {α : Type} (s : Responses τ η) (c : τ) (cmuid : UInt64) (found : Option α) (next : α → Responses τ η) :
    Responses τ η :=
  match found with
  | some a => next a
  | none => s.goto c (.lost cmuid)

def advance (s : Responses τ η) (c : τ) (moved : Moved) : Responses τ η :=
  match s.calls c with
  | .test cmuid => s.goto c (if mapIn s.usrWaiters s.peer then .request cmuid else .create cmuid)
  -- The flag of a new waiter is down, as it is before the waiter exists.
  | .create cmuid => { s with
      usrWaiters := mapSet s.usrWaiters s.peer c
      waiterArrays := s.waiterArrays.set (mapIn s.usrWaiters s.peer) moved }.goto c (.request cmuid)
  | .request cmuid => s.goto c (.check cmuid)
  | .check cmuid => s.goto c (if s.responseExists then .search cmuid else .find cmuid)
  | .find cmuid =>
    match s.waiterArrays.find s.usrWaiters s.peer with
    | some waiterStr => s.goto c (.follow cmuid waiterStr)
    | none => s.goto c (.search cmuid)
  | .follow cmuid waiterStr => s.through c cmuid (s.waiterArrays.value s.usrWaiters waiterStr) fun respWaiter =>
      s.goto c (.wait cmuid respWaiter)
  | .wait cmuid respWaiter =>
    if s.isReady respWaiter then
      { s with isReady := Function.update s.isReady respWaiter false }.goto c (.search cmuid)
    else s
  | .search cmuid =>
    match s.usrArrays.find s.usrResponses s.peer with
    | some lcUrsp => s.goto c (.read cmuid lcUrsp)
    | none => s.goto c (.returned cmuid none)
  | .read cmuid lcUrsp => s.through c cmuid (s.usrArrays.value s.usrResponses lcUrsp) fun targ =>
      match s.respArrays.find targ.responses cmuid with
      | some packPtr => s.goto c (.copy cmuid lcUrsp packPtr)
      | none => s.goto c (.returned cmuid none)
  | .copy cmuid lcUrsp packPtr => s.through c cmuid (s.packetAt packPtr) fun pack =>
      s.goto c (.free cmuid lcUrsp packPtr pack)
  | .free cmuid lcUrsp packPtr answer => s.through c cmuid (s.packetAt packPtr) fun _ =>
      s.goto c (.erase cmuid lcUrsp answer)
  | .erase cmuid lcUrsp answer => s.through c cmuid (s.usrArrays.value s.usrResponses lcUrsp) fun targ =>
      { s with
        usrResponses := mapSet s.usrResponses s.peer { targ with responses := mapErase targ.responses cmuid }
        respArrays := s.respArrays.erase (mapIn targ.responses cmuid) }.goto c (.returned cmuid (some answer))
  | .idle | .returned _ _ | .lost _ => s

def handle (s : Responses τ η) (h : η) (moved users : Moved) : Responses τ η :=
  match s.handlers h with
  | .idle => s
  | .store pack => { s with
      usrResponses := storeUser s.usrResponses pack
      usrArrays := s.usrArrays.set (mapIn s.usrResponses pack.fromUid) users
      respArrays :=
        if pack.fromUid = s.peer then s.respArrays.set (s.responseOf pack.cmuid).isSome moved else s.respArrays
      stored := if pack.fromUid = s.peer then s.stored ++ [pack.cmuid] else s.stored }.handlerGoto h (.find pack)
  | .find pack =>
    match s.waiterArrays.find s.usrWaiters pack.fromUid with
    | some waiter => s.handlerGoto h (.set pack waiter)
    | none => s.handlerGoto h .idle
  | .set _ waiter =>
    match s.waiterArrays.value s.usrWaiters waiter with
    | some respWaiter => { s with isReady := Function.update s.isReady respWaiter true }.handlerGoto h .idle
    -- The array was given back, and what is read there is no waiter.
    | none => s.handlerGoto h .idle

def step (s : Responses τ η) : ResponseEvent τ η → Responses τ η
  | .call c cmuid =>
    if s.calls c = .idle ∧ cmuid ∉ s.used then
      { s with used := s.used ++ [cmuid] }.goto c (.test cmuid)
    else s
  | .advance c moved => s.advance c moved
  | .arrive h pack => if s.handlers h = .idle ∧ pack.packtype = .response then s.handlerGoto h (.store pack) else s
  | .handle h moved users => s.handle h moved users

section Uninterrupted

variable {s : Responses τ η} {h : η} {pack : Packet} {moved users : Moved}

/-- The steps of a handler run in a row store the response and wake its sender,
as the user branch of the handler does. -/
theorem handle_uninterrupted {usrWaiters : Map UInt64 UsrWaiter} (stores : s.handlers h = .store pack)
    (response : pack.packtype = .response)
    (once : ∀ uid c, mapAt s.usrWaiters uid = some c → mapAt s.usrWaiters pack.fromUid = some c → uid = pack.fromUid)
    (agrees : ∀ uid, (mapAt usrWaiters uid).map UsrWaiter.respWaiter = (mapAt s.usrWaiters uid).map s.isReady) :
    let s' := Runs.run step s (List.replicate 3 (.handle h moved users))
    s'.usrResponses = storeUser s.usrResponses pack ∧
      ∀ uid, (mapAt (wakeUser usrWaiters pack) uid).map UsrWaiter.respWaiter =
        (mapAt s'.usrWaiters uid).map s'.isReady := by
  have here := agrees pack.fromUid
  simp only [List.replicate, Runs.run_cons, Runs.run_nil, step, handle, stores, handlerGoto, Function.update_self,
    wakeUser]
  cases found : s.waiterArrays.find s.usrWaiters pack.fromUid with
  | none =>
    rw [Arrays.find_eq_none.mp found, Option.map_none, Option.map_eq_none_iff] at here
    simp only [here, Function.update_self]
    exact ⟨trivial, agrees⟩
  | some ptr =>
    obtain ⟨c, read, entry⟩ := (Arrays.pointsTo_find found).value (Arrays.array_find found)
    rw [entry, Option.map_some, Option.map_eq_some_iff] at here
    obtain ⟨waiter, has, _⟩ := here
    simp only [has, Function.update_self, read, response, ne_eq, not_true_eq_false, ↓reduceIte, true_and]
    intro uid
    rw [Map.mapAt_mapSet]
    split
    · next same => simp [same, entry]
    · next other =>
      rw [agrees]
      cases held : mapAt s.usrWaiters uid with
      | none => rfl
      | some d =>
        have differ : d ≠ c := by
          rintro rfl
          exact other (once uid d held entry)
        simp [differ]

variable {c : τ} {cmuid : UInt64}

/-- The end of __async_req that nothing comes between: the response is copied out
and erased, or NULL is returned. -/
theorem search_uninterrupted (searches : s.calls c = .search cmuid) :
    ∃ n, Runs.run step s (List.replicate n (.advance c moved)) =
      match mapAt s.usrResponses s.peer with
      | none => s.goto c (.returned cmuid none)
      | some lcUrsp =>
        match mapAt lcUrsp.responses cmuid with
        | none => s.goto c (.returned cmuid none)
        | some pack => { s with
            usrResponses := mapSet s.usrResponses s.peer { lcUrsp with responses := mapErase lcUrsp.responses cmuid }
            respArrays := s.respArrays.erase true }.goto c (.returned cmuid (some pack)) := by
  cases found : s.usrArrays.find s.usrResponses s.peer with
  | none =>
    refine ⟨1, ?_⟩
    simp [step, advance, searches, found, Arrays.find_eq_none.mp found]
  | some lcUrsp =>
    obtain ⟨targ, read, peers⟩ := (Arrays.pointsTo_find found).value (Arrays.array_find found)
    cases place : s.respArrays.find targ.responses cmuid with
    | none =>
      refine ⟨2, ?_⟩
      simp [List.replicate, step, advance, searches, found, goto, through, read, place, peers,
        Arrays.find_eq_none.mp place]
    | some packPtr =>
      obtain ⟨pack, copied, mine⟩ := (Arrays.pointsTo_find place).value (Arrays.array_find place)
      have present : mapIn targ.responses cmuid = true := by rw [mapIn, mine]; rfl
      refine ⟨5, ?_⟩
      simp [List.replicate, step, advance, searches, found, goto, through, read, place, peers, packetAt, copied, mine,
        present]

end Uninterrupted

end Responses

end Dcn
