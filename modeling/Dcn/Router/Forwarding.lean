import Dcn.Client.Mailbox

/-! One round of a router's runner (router.c).

A router keeps one session for each server it is linked to. The runner of a
link gathers a request from its own session and sends a copy of every signal
broadcast over each of the other sessions, under the UID of that session.
-/

set_option autoImplicit false

namespace Dcn

def Packet.origTravFuid (pack : Packet) : UInt64 :=
  if pack.travFuid = 0 then pack.fromUid else pack.travFuid

/-- The loop over the link numbers left: the sessions and what was put on the
write queue of which. The server never answers such a packet with 101, so the
request cycle of `__async_req` runs once. -/
def forwardTo (my : Nat) (reqPacket : Packet) (sessions : Nat → Session) :
    List Nat → (Nat → Session) × List (Nat × Packet)
  | [] => (sessions, [])
  | i :: rest =>
    if i = my then forwardTo my reqPacket sessions rest
    else
      match request (sessions i) (copyPacket reqPacket) 0 reqPacket.origTravFuid reqPacket.packtype with
      | none => forwardTo my reqPacket sessions rest
      | some (packetCopy, tsession) =>
        let (sent, tsession) := dcnRequest tsession packetCopy packetCopy.toUid
        let (sessions, more) := forwardTo my reqPacket (Function.update sessions i tsession) rest
        (sessions, (i, sent) :: more)

/-- The body of `__router_runner` for the request its link gathered. -/
def routerRunner (sessions : Nat → Session) (numStates my : Nat) (reqPacket : Packet) :
    (Nat → Session) × List (Nat × Packet) :=
  if reqPacket.packtype = .sigBroadcast then forwardTo my reqPacket sessions (List.range numStates)
  else (sessions, [])

def Session.Takes (session : Session) (pack : Packet) : Prop :=
  pack.toUid = session.cliUid ∧ pack.fromOs ≠ 0 ∧ pack.packtype ≠ .response

instance (session : Session) (pack : Packet) : Decidable (session.Takes pack) :=
  inferInstanceAs (Decidable (_ ∧ _ ∧ _))

namespace Forwarding

def outgoing (session : Session) (pack : Packet) : Packet :=
  { pack with
    fromUid := session.cliUid, toUid := 0, fromOs := 0, muid := session.lastMuid, cmuid := 0,
    travFuid := pack.origTravFuid, travTuid := 0 }

section Runner

variable {my : Nat} {pack : Packet}

def spent (session : Session) (pack : Packet) : Session :=
  (dcnRequest session (outgoing session pack) 0).2

theorem forwardTo_cons {sessions : Nat → Session} {i : Nat} (rest : List Nat) (other : i ≠ my) :
    forwardTo my pack sessions (i :: rest) =
      ((forwardTo my pack (Function.update sessions i (spent (sessions i) pack)) rest).1,
        (i, outgoing (sessions i) pack) ::
          (forwardTo my pack (Function.update sessions i (spent (sessions i) pack)) rest).2) := by
  rw [forwardTo, if_neg other]
  simp [request, dcnRequest, outgoing, spent]

theorem cliUid_forwardTo (sessions : Nat → Session) (slots : List Nat) (j : Nat) :
    ((forwardTo my pack sessions slots).1 j).cliUid = (sessions j).cliUid := by
  induction slots generalizing sessions with
  | nil => rfl
  | cons i rest ih =>
    by_cases own : i = my
    · rw [forwardTo, if_pos own, ih]
    · rw [forwardTo_cons rest own, ih]
      by_cases same : j = i
      · subst same
        rw [Function.update_self]
        rfl
      · rw [Function.update_of_ne same]

theorem sent_forwardTo (sessions : Nat → Session) {slots : List Nat} (distinct : slots.Nodup) :
    (forwardTo my pack sessions slots).2 =
      (slots.filter (· ≠ my)).map fun i => (i, outgoing (sessions i) pack) := by
  induction slots generalizing sessions with
  | nil => rfl
  | cons i rest ih =>
    obtain ⟨fresh, distinct⟩ := List.nodup_cons.mp distinct
    by_cases own : i = my
    · rw [forwardTo, if_pos own, ih sessions distinct]
      simp [own]
    · rw [forwardTo_cons rest own, ih _ distinct, List.filter_cons_of_pos (by simpa using own), List.map_cons]
      refine congrArg (List.cons _) (List.map_congr_left fun j member => ?_)
      -- The sessions still to come are as they were before this one sent.
      have later : j ≠ i := fun same => fresh (same ▸ (List.mem_filter.mp member).1)
      rw [Function.update_of_ne later]

theorem sent_routerRunner (sessions : Nat → Session) (numStates my : Nat) (signal : pack.packtype = .sigBroadcast) :
    (routerRunner sessions numStates my pack).2 =
      ((List.range numStates).filter (· ≠ my)).map fun i => (i, outgoing (sessions i) pack) := by
  unfold routerRunner
  rw [if_pos signal]
  exact sent_forwardTo sessions List.nodup_range

theorem cliUid_routerRunner (sessions : Nat → Session) (numStates : Nat) (j : Nat) :
    ((routerRunner sessions numStates my pack).1 j).cliUid = (sessions j).cliUid := by
  unfold routerRunner
  split
  · exact cliUid_forwardTo sessions _ j
  · rfl

end Runner

theorem queued_storeUser {session : Session} {pack : Packet} (empty : session.waiting = 0)
    (notResponse : pack.packtype ≠ .response) :
    (pack.fromUid, { (mapAt session.usrResponses pack.fromUid).getD ⟨queueInit, mapInit UInt64 Packet⟩ with
      requests := ⟨[packetSerial pack]⟩ }) ∈ (storeUser session.usrResponses pack).entries ∧
    ∀ e ∈ (storeUser session.usrResponses pack).entries, e.2.requests.blocks ≠ [] →
      e.2.requests.blocks = [packetSerial pack] := by
  have before := Mailbox.waiting_eq_zero.mp empty
  let targ := (mapAt session.usrResponses pack.fromUid).getD ⟨queueInit, mapInit UInt64 Packet⟩
  have fresh : targ.requests.blocks = [] := by
    unfold targ
    cases found : mapAt session.usrResponses pack.fromUid with
    | none => rfl
    | some old => exact before _ (Map.mapAt_eq_some_iff.mp found)
  have pushed : pushBlock targ.requests (packetSerial pack) = ⟨[packetSerial pack]⟩ := by
    rw [pushBlock, fresh, List.nil_append]
  have stored : storeUser session.usrResponses pack =
      mapSet session.usrResponses pack.fromUid { targ with requests := ⟨[packetSerial pack]⟩ } := by
    rw [← pushed]
    simp [storeUser, notResponse, targ]
  rw [stored]
  refine ⟨Map.mem_mapSet.mpr (.inl ⟨rfl, rfl⟩), fun e member waits => ?_⟩
  obtain ⟨uid, resp⟩ := e
  rcases Map.mem_mapSet.mp member with ⟨_, same⟩ | ⟨_, old⟩
  · rw [same]
  · exact absurd (before _ old) waits

/-- A packet that a session with no other request takes is what the next misc
gather returns. -/
theorem gathers_taken {session : Session} {pack : Packet} (undecoded : Undecoded) (hasTimeout : Bool)
    (empty : session.waiting = 0) (takes : session.Takes pack) (fits : pack.Fits) :
    ∃ left, asyncGrequests (onPacket undecoded session pack) 0 hasTimeout = some (some pack, left) := by
  obtain ⟨addressed, user, notResponse⟩ := takes
  have handled : onPacket undecoded session pack = onUserMessage session pack := by
    simp [onPacket, addressed, user]
  have flag : (onUserMessage session pack).reqWaiter = true := by simp [onUserMessage, notResponse]
  have queued := queued_storeUser empty notResponse
  rw [handled]
  cases took : gatherMisc (onUserMessage session pack).usrResponses
      (List.range (onUserMessage session pack).usrResponses.entries.length) with
  | none =>
    have nothing := Mailbox.waiting_eq_zero.mp (Mailbox.waiting_of_gatherMisc_none took)
    have waits := nothing _ queued.1
    cases waits
  | some r =>
    obtain ⟨taken, left⟩ := r
    obtain ⟨uid, lcUrsp, block, rest, found, shape, isTaken, _⟩ := Mailbox.gatherMisc_some took
    -- The request taken is the one stored, and it decodes to what was packed.
    have only := queued.2 _ (Map.mapAt_eq_some_iff.mp found) (by simp [shape])
    rw [shape] at only
    have decoded : taken = pack := by
      rw [isTaken, (List.cons.inj only).1, gathered, fits.deserial_serial]
      rfl
    subst decoded
    refine ⟨{ onUserMessage session taken with reqWaiter := false, usrResponses := left }, ?_⟩
    simp [asyncGrequests, waiterWaitFor, flag, took]

end Forwarding

end Dcn
