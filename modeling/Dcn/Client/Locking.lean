import Dcn.Client.Collecting
import Dcn.Foundation.Locking

/-! What is done under usr_responses_mtx (dnet/client.c).

Each function is the list of what it does with the mutex and with the entries of
usr_responses, from its start to its return. Other threads may change the session
between any two steps, so a function reads a session of its own at each lookup.
-/

set_option autoImplicit false

namespace Dcn

open Locking (Event Path)

/-- What is done with usr_responses: the lookup of a user, of the key in a slot,
of the responses of a user, and the use of a user's two containers. -/
inductive Touch where
  | lookup
  | keyAt
  | responses
  | push
  | pop
  | store
  | read
  | erase
  deriving DecidableEq, Repr

/-- What a call of __async_req meets: the codes of its answers, whether each
wait returns, and what its lookups read. -/
structure ReqSeen where
  codes : List RespCode
  atCheck : Map UInt64 UsrResp
  usrWaiters : Map UInt64 UsrWaiter
  woken : Bool
  atSearch : Map UInt64 UsrResp
  responses : Map UInt64 Packet

/-- What a call of __async_grequests meets: whether its wait was ready, if it
returns, the entry of the user, `len`, and the entries of the slots. -/
structure GatherSeen where
  ready : Option Bool
  waiter : Option UsrWaiter
  entry : Option UsrResp
  len : Nat
  slot : Nat → Option UsrResp

def Packet.skipsWait (pack : Packet) : Bool :=
  pack.packtype = .signal ∨ pack.packtype = .sigBroadcast ∨ pack.packtype = .response

def responseExists (usrResponses : Map UInt64 UsrResp) (toUid : UInt64) : Bool :=
  match mapAt usrResponses toUid with
  | some lcUrspCheck => !mapEmpty lcUrspCheck.responses
  | none => false

def checkEvents (usrResponses : Map UInt64 UsrResp) (toUid : UInt64) : List (Event Touch) :=
  match mapAt usrResponses toUid with
  | some _ => [.lock, .use .lookup, .use .responses]
  | none => [.lock, .use .lookup]

def searchEvents (pack : Packet) (seen : ReqSeen) : List (Event Touch) :=
  match mapAt seen.atSearch pack.toUid with
  | none => [.use .lookup, .unlock]
  | some _ =>
    match mapAt seen.responses pack.cmuid with
    | none => [.use .lookup, .use .responses, .unlock]
    | some _ => [.use .lookup, .use .responses, .use .read, .use .erase, .unlock]

/-- The request cycle ends with the first code that is not NO_SUCH_USER, and
does nothing with usr_responses. -/
def asyncReqPath (pack : Packet) (seen : ReqSeen) : Path Touch :=
  if seen.codes.all (· = .noSuchUser) then ⟨[], false⟩
  else if pack.skipsWait then ⟨[], true⟩
  else if responseExists seen.atCheck pack.toUid then
    ⟨checkEvents seen.atCheck pack.toUid ++ searchEvents pack seen, true⟩
  else if mapIn seen.usrWaiters pack.toUid && !seen.woken then
    ⟨checkEvents seen.atCheck pack.toUid ++ [.unlock], false⟩
  else ⟨checkEvents seen.atCheck pack.toUid ++ .unlock :: searchEvents pack seen, true⟩

def gatherEvents (slot : Nat → Option UsrResp) : Nat → Nat → List (Event Touch)
  | 0, _ => []
  | left + 1, i =>
    .use .keyAt :: .lock :: .use .lookup ::
      match slot i with
      | none => .unlock :: gatherEvents slot left (i + 1)
      | some lcUrsp =>
        match popBlock lcUrsp.requests with
        | (_, none, _) => .use .pop :: .unlock :: gatherEvents slot left (i + 1)
        | (_, some _, _) => [.use .pop, .unlock]

def asyncGrequestsPath (waitFrom : UInt64) (seen : GatherSeen) : Path Touch :=
  if waitFrom = 0 then
    match seen.ready with
    | none => ⟨[], false⟩
    | some false => ⟨[], true⟩
    | some true => ⟨gatherEvents seen.slot seen.len 0, true⟩
  else
    match seen.waiter with
    | none => ⟨[], true⟩
    | some _ =>
      match seen.ready with
      | none => ⟨[], false⟩
      | some false => ⟨[], true⟩
      | some true =>
        match seen.entry with
        | none => ⟨[.lock, .use .lookup, .unlock], true⟩
        | some _ => ⟨[.lock, .use .lookup, .use .pop, .unlock], true⟩

def onUserMessagePath (usrResponses : Map UInt64 UsrResp) (pack : Packet) : Path Touch :=
  let added : Event Touch := .use (if pack.packtype ≠ .response then .push else .store)
  match mapAt usrResponses pack.fromUid with
  | some _ => ⟨[.lock, .use .lookup, added, .unlock], true⟩
  | none => ⟨[.lock, .use .lookup, added, .use .store, .unlock], true⟩

def everything : Touch → Bool := fun _ => true

/-- All but the copy of a slot's key, which is made under the map's own mutex. -/
def butKeys : Touch → Bool := fun what => what ≠ .keyAt

section Paths

variable {guarded : Touch → Bool} {pack : Packet} {seen : ReqSeen} {held : Nat}

theorem after_checkEvents (usrResponses : Map UInt64 UsrResp) (toUid : UInt64) :
    Locking.after guarded 0 (checkEvents usrResponses toUid) = some 1 := by
  unfold checkEvents
  cases mapAt usrResponses toUid <;> simp

theorem after_searchEvents : Locking.after guarded (held + 1) (searchEvents pack seen) = some held := by
  unfold searchEvents
  cases mapAt seen.atSearch pack.toUid with
  | none => simp
  | some _ => cases mapAt seen.responses pack.cmuid <;> simp

theorem after_searchEvents_free (guards : guarded .lookup = true) :
    Locking.after guarded 0 (searchEvents pack seen) = none := by
  unfold searchEvents
  cases mapAt seen.atSearch pack.toUid with
  | none => simp [Locking.after_use_free, guards]
  | some _ => cases mapAt seen.responses pack.cmuid <;> simp [Locking.after_use_free, guards]

/-- A call keeps the discipline where it does not get to the search, or gets
there with the lock. -/
theorem kept_asyncReq_iff (guards : guarded .lookup = true) : Locking.Kept guarded (asyncReqPath pack seen) ↔
    (∀ code ∈ seen.codes, code = .noSuchUser) ∨ pack.skipsWait ∨ responseExists seen.atCheck pack.toUid ∨
      (mapIn seen.usrWaiters pack.toUid ∧ seen.woken = false) := by
  have codes : seen.codes.all (· = .noSuchUser) = true ↔ ∀ code ∈ seen.codes, code = .noSuchUser := by simp
  rw [← codes, asyncReqPath]
  split
  · next retries => simpa [retries] using Locking.Kept.of_free rfl
  · next answered =>
    split
    · next skips => simpa [skips] using Locking.Kept.of_free rfl
    · next waits =>
      split
      · next there =>
        have free : Locking.after guarded 0 (checkEvents seen.atCheck pack.toUid ++ searchEvents pack seen) = some 0 := by
          rw [Locking.after_append, after_checkEvents, Option.bind_some, after_searchEvents]
        simpa [there] using Locking.Kept.of_free free
      · next missing =>
        split
        · next asleep =>
          have free : Locking.after guarded 0 (checkEvents seen.atCheck pack.toUid ++ [.unlock]) = some 0 := by
            rw [Locking.after_append, after_checkEvents]
            rfl
          have blocked : mapIn seen.usrWaiters pack.toUid = true ∧ seen.woken = false := by simpa using asleep
          simpa [blocked] using Locking.Kept.of_free free
        · next awake =>
          have breaks : Locking.after guarded 0
              (checkEvents seen.atCheck pack.toUid ++ .unlock :: searchEvents pack seen) = none := by
            rw [Locking.after_append, after_checkEvents, Option.bind_some, Locking.after_unlock,
              after_searchEvents_free guards]
          have goes : ¬ (mapIn seen.usrWaiters pack.toUid = true ∧ seen.woken = false) := by simpa using awake
          simpa [answered, waits, missing, goes] using Locking.not_kept_of_none breaks

theorem after_gatherEvents (slot : Nat → Option UsrResp) (left i : Nat) (free : guarded .keyAt = false) :
    Locking.after guarded 0 (gatherEvents slot left i) = some 0 := by
  induction left generalizing i with
  | zero => rfl
  | succ left ih =>
    rw [gatherEvents, Locking.after_use_free, free]
    cases slot i with
    | none => simpa using ih (i + 1)
    | some lcUrsp =>
      rcases popped : popBlock lcUrsp.requests with ⟨code, _ | block, rest⟩
      · simpa [popped] using ih (i + 1)
      · simp [popped]

theorem kept_asyncGrequests_user {waitFrom : UInt64} (user : waitFrom ≠ 0) (seen : GatherSeen) :
    Locking.Kept guarded (asyncGrequestsPath waitFrom seen) := by
  rw [asyncGrequestsPath, if_neg user]
  cases seen.waiter with
  | none => exact .of_free rfl
  | some _ =>
    rcases seen.ready with _ | _ | _
    · exact .of_free rfl
    · exact .of_free rfl
    · cases seen.entry <;> exact .of_free (by simp)

theorem kept_asyncGrequests (waitFrom : UInt64) (seen : GatherSeen) (free : guarded .keyAt = false) :
    Locking.Kept guarded (asyncGrequestsPath waitFrom seen) := by
  by_cases misc : waitFrom = 0
  · rw [asyncGrequestsPath, if_pos misc]
    rcases seen.ready with _ | _ | _
    · exact .of_free rfl
    · exact .of_free rfl
    · exact .of_free (after_gatherEvents seen.slot seen.len 0 free)
  · exact kept_asyncGrequests_user misc seen

/-- Where it is, gathering keeps the discipline unless it copies a key. -/
theorem kept_asyncGrequests_iff (waitFrom : UInt64) (seen : GatherSeen) (guards : guarded .keyAt = true) :
    Locking.Kept guarded (asyncGrequestsPath waitFrom seen) ↔
      waitFrom ≠ 0 ∨ seen.ready ≠ some true ∨ seen.len = 0 := by
  by_cases misc : waitFrom = 0
  · rw [asyncGrequestsPath, if_pos misc]
    rcases ready : seen.ready with _ | _ | _
    · simpa [misc] using Locking.Kept.of_free rfl
    · simpa [misc] using Locking.Kept.of_free rfl
    · cases len : seen.len with
      | zero => simpa [misc] using Locking.Kept.of_free rfl
      | succ left =>
        have breaks : Locking.after guarded 0 (gatherEvents seen.slot (left + 1) 0) = none := by
          rw [gatherEvents, Locking.after_use_free, guards]
          rfl
        simpa [misc] using Locking.not_kept_of_none breaks
  · exact iff_of_true (kept_asyncGrequests_user misc seen) (.inl misc)

theorem kept_onUserMessage (usrResponses : Map UInt64 UsrResp) (pack : Packet) :
    Locking.Kept guarded (onUserMessagePath usrResponses pack) := by
  unfold onUserMessagePath
  cases mapAt usrResponses pack.fromUid <;> exact .of_free (by simp)

end Paths

/-- __async_req keeps the discipline exactly where it does not wait for a
response, or one is there when it looks, and __async_grequests exactly where it
copies no key of a slot, which it does under the mutex of the map alone. -/
theorem usrResponsesMtx_kept_iff (pack : Packet) (seen : ReqSeen) (waitFrom : UInt64) (gather : GatherSeen) :
    (Locking.Kept everything (asyncReqPath pack seen) ↔
      (∀ code ∈ seen.codes, code = .noSuchUser) ∨ pack.skipsWait ∨ responseExists seen.atCheck pack.toUid ∨
        (mapIn seen.usrWaiters pack.toUid ∧ seen.woken = false)) ∧
    (Locking.Kept everything (asyncGrequestsPath waitFrom gather) ↔
      waitFrom ≠ 0 ∨ gather.ready ≠ some true ∨ gather.len = 0) ∧
    Locking.Kept butKeys (asyncGrequestsPath waitFrom gather) :=
  ⟨kept_asyncReq_iff rfl, kept_asyncGrequests_iff waitFrom gather rfl, kept_asyncGrequests waitFrom gather rfl⟩

def waitsForResponse : ReqSeen where
  codes := [.okStatus]
  atCheck := mapInit UInt64 UsrResp
  usrWaiters := mapSet (mapInit UInt64 UsrWaiter) 2 ⟨false, true⟩
  woken := true
  atSearch := mapSet (mapInit UInt64 UsrResp) 2 ⟨queueInit, mapSet (mapInit UInt64 Packet) 0 (packetInit [] 2 1 0)⟩
  responses := mapSet (mapInit UInt64 Packet) 0 (packetInit [] 2 1 0)

/-- It searches without the mutex, and gives back what it does not hold. -/
theorem asyncReq_unlocks_free :
    ¬ Locking.Kept everything (asyncReqPath (packetInit [] 1 2 0) waitsForResponse) ∧
      ¬ Locking.Kept butKeys (asyncReqPath (packetInit [] 1 2 0) waitsForResponse) :=
  ⟨Locking.not_kept_of_none (by decide), Locking.not_kept_of_none (by decide)⟩

end Dcn
