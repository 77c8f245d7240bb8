import Dcn.Client.Session
import Dcn.Foundation.Runs
import Dcn.Server.Worker

/-! The requests that wait in a session, and the waiter of misc gathering.

The handler sets the session's `req_waiter` for every request it stores, and a
misc gather clears it and takes one request. The flag is one bit and the
requests are many, so it says the truth only while a gather leaves none behind.
-/

set_option autoImplicit false

namespace Dcn

def queuedRequests (usrResponses : Map UInt64 UsrResp) : Nat :=
  (usrResponses.entries.map fun e => e.2.requests.blocks.length).sum

namespace Session

def Ready (session : Session) : Prop :=
  ∀ e ∈ session.usrResponses.entries, e.2.requests.blocks ≠ [] → session.reqWaiter = true

def waiting (session : Session) : Nat := queuedRequests session.usrResponses

end Session

/-- A block arrives in `readq`, the handler runs, or a gather that can return
does; `fromUid` 0 is misc gathering. -/
inductive MailboxEvent where
  | receive (block : Block)
  | message (undecoded : Undecoded)
  | gather (fromUid : UInt64) (hasTimeout : Bool)

def mailboxStep (session : Session) : MailboxEvent → Session
  | .receive block => { session with readq := pushBlock session.readq block }
  | .message undecoded => dcnOnMessage undecoded session
  | .gather fromUid hasTimeout => ((asyncGrequests session fromUid hasTimeout).map Prod.snd).getD session

def Session.TakesLast (session : Session) : MailboxEvent → Prop
  | .gather fromUid _ => fromUid = 0 → session.waiting ≤ 1
  | _ => True

namespace Mailbox

theorem waiting_eq_zero {session : Session} :
    session.waiting = 0 ↔ ∀ e ∈ session.usrResponses.entries, e.2.requests.blocks = [] := by
  simp only [Session.waiting, queuedRequests, List.sum_eq_zero_iff_forall_eq_nat, List.forall_mem_map,
    List.length_eq_zero_iff]

theorem ready_iff {session : Session} :
    session.Ready ↔ session.reqWaiter = true ∨ session.waiting = 0 := by
  rw [waiting_eq_zero]
  constructor
  · intro ready
    cases flag : session.reqWaiter with
    | true => exact .inl rfl
    | false =>
      refine .inr fun e member => ?_
      by_contra waits
      rw [ready e member waits] at flag
      cases flag
  · rintro (flag | empty) e member waits
    · exact flag
    · exact absurd (empty e member) waits

section Handler

variable {session : Session} {pack : Packet}

theorem mem_storeUser_response (response : pack.packtype = .response) {e : UInt64 × UsrResp}
    (member : e ∈ (storeUser session.usrResponses pack).entries) (waits : e.2.requests.blocks ≠ []) :
    ∃ old ∈ session.usrResponses.entries, old.2.requests = e.2.requests := by
  obtain ⟨uid, resp⟩ := e
  unfold storeUser at member
  rw [Map.mem_mapSet] at member
  rcases member with ⟨_, same⟩ | ⟨_, member⟩
  · subst same
    simp only [response, ne_eq, not_true_eq_false, ↓reduceIte] at waits ⊢
    cases found : mapAt session.usrResponses pack.fromUid with
    | none => simp [found] at waits
    | some targ => exact ⟨_, Map.mapAt_eq_some_iff.mp found, by simp⟩
  · exact ⟨_, member, rfl⟩

theorem ready_onUserMessage (ready : session.Ready) : (onUserMessage session pack).Ready := by
  intro e member waits
  by_cases response : pack.packtype = .response
  · obtain ⟨old, stored, same⟩ := mem_storeUser_response response member waits
    have flag := ready old stored (same ▸ waits)
    simpa [onUserMessage, response] using flag
  · simp [onUserMessage, response]

theorem ready_wakeAnswered (session : Session) (muid : UInt64) (ready : session.Ready) :
    (wakeAnswered session muid).Ready := by
  unfold wakeAnswered
  split <;> exact ready

theorem ready_onPacket (undecoded : Undecoded) (ready : session.Ready) : (onPacket undecoded session pack).Ready := by
  unfold onPacket
  split
  · exact ready
  · split
    · exact ready_onUserMessage ready
    · split
      · dsimp only
        split
        · exact ready
        · exact ready_wakeAnswered _ _ ready
      · exact ready_wakeAnswered _ _ ready

theorem ready_dcnOnMessage (undecoded : Undecoded) (ready : session.Ready) :
    (dcnOnMessage undecoded session).Ready := by
  unfold dcnOnMessage
  split
  · exact ready
  · exact ready_onPacket undecoded ready

end Handler

section Gather

variable {usrResponses : Map UInt64 UsrResp}

theorem gatherMisc_none {slots : List Nat} (nothing : gatherMisc usrResponses slots = none) :
    ∀ i ∈ slots, ∀ e, usrResponses.entries[i]? = some e → e.2.requests.blocks = [] := by
  induction slots with
  | nil =>
    intro i member
    cases member
  | cons j rest ih =>
    intro i member e slot
    rw [gatherMisc_cons] at nothing
    -- The scan goes past a slot only where its queue is empty.
    have skipped : gatherMisc usrResponses rest = none ∧
        ∀ e, usrResponses.entries[j]? = some e → e.2.requests.blocks = [] := by
      cases here : usrResponses.entries[j]? with
      | none => simpa [here] using nothing
      | some d =>
        obtain ⟨waitFrom, lcUrsp⟩ := d
        cases shape : lcUrsp.requests.blocks with
        | nil => simpa [here, popBlock_nil shape, shape] using nothing
        | cons block more => simp [here, popBlock_cons shape] at nothing
    rcases List.mem_cons.mp member with same | member
    · subst same
      exact skipped.2 e slot
    · exact ih skipped.1 i member e slot

theorem gatherMisc_some {slots : List Nat} {pack : Packet} {left : Map UInt64 UsrResp}
    (took : gatherMisc usrResponses slots = some (pack, left)) :
    ∃ uid lcUrsp block rest, mapAt usrResponses uid = some lcUrsp ∧ lcUrsp.requests.blocks = block :: rest ∧
      pack = gathered block ∧ left = mapSet usrResponses uid { lcUrsp with requests := ⟨rest⟩ } := by
  induction slots with
  | nil => cases took
  | cons j rest ih =>
    rw [gatherMisc_cons] at took
    cases here : usrResponses.entries[j]? with
    | none => exact ih (by simpa [here] using took)
    | some e =>
      obtain ⟨waitFrom, lcUrsp⟩ := e
      cases shape : lcUrsp.requests.blocks with
      | nil => exact ih (by simpa [here, popBlock_nil shape] using took)
      | cons block more =>
        have found := Map.mapAt_eq_some_iff.mpr (List.mem_of_getElem? here)
        simp only [here, popBlock_cons shape, Option.some.injEq, Prod.mk.injEq] at took
        exact ⟨waitFrom, lcUrsp, block, more, found, shape, took.1.symm, took.2.symm⟩

theorem queuedRequests_taken {uid : UInt64} {lcUrsp : UsrResp} {block : Block} {rest : List Block}
    (found : mapAt usrResponses uid = some lcUrsp) (shape : lcUrsp.requests.blocks = block :: rest) :
    queuedRequests usrResponses =
      queuedRequests (mapSet usrResponses uid { lcUrsp with requests := ⟨rest⟩ }) + 1 := by
  have total := Map.sum_mapSet (fun e => e.2.requests.blocks.length)
    { lcUrsp with requests := ⟨rest⟩ } found
  simp only [shape, List.length_cons] at total
  unfold queuedRequests
  omega

variable {session : Session}

theorem waiting_of_gatherMisc_none
    (nothing : gatherMisc session.usrResponses (List.range session.usrResponses.entries.length) = none) :
    session.waiting = 0 := by
  rw [waiting_eq_zero]
  intro e member
  obtain ⟨i, bound, slot⟩ := List.mem_iff_getElem.mp member
  exact gatherMisc_none nothing i (List.mem_range.mpr bound) e (List.getElem?_eq_some_iff.mpr ⟨bound, slot⟩)

theorem asyncGrequests_returns (ready : session.Ready) (waits : 0 < session.waiting) (hasTimeout : Bool) :
    ∃ pack left, asyncGrequests session 0 hasTimeout = some (some pack, left) := by
  have flag : session.reqWaiter = true := (ready_iff.mp ready).resolve_right (by omega)
  cases took : gatherMisc session.usrResponses (List.range session.usrResponses.entries.length) with
  | none =>
    have empty := waiting_of_gatherMisc_none took
    omega
  | some r =>
    refine ⟨r.1, { session with reqWaiter := false, usrResponses := r.2 }, ?_⟩
    simp [asyncGrequests, waiterWaitFor, flag, took]

theorem ready_misc (ready : session.Ready) (hasTimeout : Bool) :
    (mailboxStep session (.gather 0 hasTimeout)).Ready ↔ session.waiting ≤ 1 := by
  cases flag : session.reqWaiter with
  | false =>
    have same : mailboxStep session (.gather 0 hasTimeout) = session := by
      cases hasTimeout <;> simp [mailboxStep, asyncGrequests, waiterWaitFor, flag]
    have empty : session.waiting = 0 := (ready_iff.mp ready).resolve_left (by simp [flag])
    rw [same]
    exact iff_of_true ready (by omega)
  | true =>
    -- The wait clears the flag before anything is taken.
    let cleared : Session := { session with reqWaiter := false }
    cases took : gatherMisc session.usrResponses (List.range session.usrResponses.entries.length) with
    | none =>
      have empty : session.waiting = 0 := waiting_of_gatherMisc_none took
      have shape : mailboxStep session (.gather 0 hasTimeout) = cleared := by
        simp [mailboxStep, asyncGrequests, waiterWaitFor, flag, took, cleared]
      rw [shape]
      exact iff_of_true (ready_iff.mpr (.inr empty)) (by omega)
    | some r =>
      obtain ⟨pack, left⟩ := r
      obtain ⟨uid, lcUrsp, block, rest, found, queued, _, stored⟩ := gatherMisc_some took
      have shape : mailboxStep session (.gather 0 hasTimeout) = { cleared with usrResponses := left } := by
        simp [mailboxStep, asyncGrequests, waiterWaitFor, flag, took, cleared]
      -- One request is taken, so the flag stays cleared with the others waiting.
      have count : session.waiting = queuedRequests left + 1 := by
        rw [stored]
        exact queuedRequests_taken found queued
      have after : Session.Ready { cleared with usrResponses := left } ↔ queuedRequests left = 0 := by
        rw [ready_iff]
        simp [cleared, Session.waiting]
      rw [shape, after, count]
      omega

theorem ready_taken {uid : UInt64} {lcUrsp : UsrResp} {block : Block} {rest : List Block}
    {usrWaiters : Map UInt64 UsrWaiter} (ready : session.Ready)
    (found : mapAt session.usrResponses uid = some lcUrsp) (shape : lcUrsp.requests.blocks = block :: rest) :
    Session.Ready { session with
      usrWaiters := usrWaiters
      usrResponses := mapSet session.usrResponses uid { lcUrsp with requests := ⟨rest⟩ } } := by
  intro e member waits
  obtain ⟨key, resp⟩ := e
  rcases Map.mem_mapSet.mp member with ⟨_, same⟩ | ⟨_, member⟩
  · exact ready _ (Map.mapAt_eq_some_iff.mp found) (by simp [shape])
  · exact ready _ member waits

theorem ready_user {fromUid : UInt64} (user : fromUid ≠ 0) (ready : session.Ready) (hasTimeout : Bool) :
    (mailboxStep session (.gather fromUid hasTimeout)).Ready := by
  simp only [mailboxStep, asyncGrequests, user, ↓reduceIte]
  cases mapAt session.usrWaiters fromUid with
  | none => exact ready
  | some waiter =>
    dsimp only
    rcases waiterWaitFor waiter.reqWaiter hasTimeout with _ | _ | _
    · exact ready
    · exact ready
    · -- Only here a request is taken, and no queue grows.
      cases found : mapAt session.usrResponses fromUid with
      | none => exact ready
      | some lcUrsp =>
        cases shape : lcUrsp.requests.blocks with
        | nil =>
          simp only [popBlock_nil shape]
          exact ready
        | cons block rest =>
          simp only [popBlock_cons shape]
          exact ready_taken ready found shape

end Gather

/-- A step from a session that is ready leaves it ready exactly when it is no
misc gather that leaves a request behind. -/
theorem ready_step (session : Session) (e : MailboxEvent) (ready : session.Ready) :
    (mailboxStep session e).Ready ↔ session.TakesLast e := by
  cases e with
  | receive block => exact iff_of_true ready trivial
  | message undecoded => exact iff_of_true (ready_dcnOnMessage undecoded ready) trivial
  | gather fromUid hasTimeout =>
    by_cases misc : fromUid = 0
    · subst misc
      rw [ready_misc ready]
      simp [Session.TakesLast]
    · exact iff_of_true (ready_user misc ready hasTimeout) fun zero => absurd zero misc

/-- In every run of a session misc gathering waits for no request that is
there, exactly when every misc gather finds one request at most. -/
theorem ready_iff_takesLast (uid : UInt64) (events : List MailboxEvent) :
    Runs.Throughout mailboxStep Session.Ready (dcnNewSession uid) events ↔
      Runs.Along mailboxStep Session.TakesLast (dcnNewSession uid) events := by
  have start : (dcnNewSession uid).Ready := by
    intro e member
    cases member
  exact Runs.throughout_iff_along_all (fun _ => True) (fun _ _ _ => trivial)
    (fun session e _ ready => ready_step session e ready) trivial start

def burst : List MailboxEvent :=
  [.receive (packetSerial (unicastCopy (packetInit [1] 8 7 0))),
   .message ⟨packetInit [] 0 0 0, ⟨0, 0, 0⟩⟩,
   .receive (packetSerial (unicastCopy (packetInit [2] 9 7 0))),
   .message ⟨packetInit [] 0 0 0, ⟨0, 0, 0⟩⟩,
   .gather 0 false]

/-- Two users ask, one gather takes the first request, and nothing says that
the second waits. -/
theorem gather_sleeps_on_second_request :
    ¬Runs.Throughout mailboxStep Session.Ready (dcnNewSession 7) burst := by
  intro always
  have last := ready_iff.mp always.last
  revert last
  decide

end Mailbox

end Dcn
