import Dcn.Memory.Map
import Dcn.Wire.Packet

/-! A client session and the code that changes it (dnet/client.c).

The functions that read and write struct dcn_session are here: the start of a
request, the handler of received packets, and the gathering of requests. A
waiter is its flag `is_ready`: setting it stores true, and a wait returns once
the flag is true and clears it.
-/

set_option autoImplicit false

namespace Dcn

structure UsrResp where
  requests : Queue
  responses : Map UInt64 Packet

structure UsrWaiter where
  reqWaiter : Bool
  respWaiter : Bool
  deriving DecidableEq, Repr

structure Session where
  cliUid : UInt64
  lastMuid : UInt64
  lastCMuids : Map UInt64 UInt64
  readq : Queue
  writeq : Queue
  responses : Map UInt64 Packet
  cndResponses : Map UInt64 Bool
  usrResponses : Map UInt64 UsrResp
  usrWaiters : Map UInt64 UsrWaiter
  reqWaiter : Bool
  trrRequests : Queue
  trrWaiter : Bool

def dcnNewSession (uid : UInt64) : Session where
  cliUid := uid
  lastMuid := 1
  lastCMuids := mapInit UInt64 UInt64
  readq := queueInit
  writeq := queueInit
  responses := mapInit UInt64 Packet
  cndResponses := mapInit UInt64 Bool
  usrResponses := mapInit UInt64 UsrResp
  usrWaiters := mapInit UInt64 UsrWaiter
  reqWaiter := false
  trrRequests := queueInit
  trrWaiter := false

/-- The part of request() that runs before its coroutine: the packet it is
given is filled in, and the session may note the peer. None where NULL is
returned. -/
def request (session : Session) (pack : Packet) (toUid trvFuid : UInt64) (packtype : PacketType) :
    Option (Packet × Session) :=
  let pack := { pack with
    fromUid := session.cliUid, fromOs := 0, toUid := toUid, muid := 0, packtype := packtype,
    travFuid := trvFuid, travTuid := 0 }
  if toUid ≠ 0 then
    match mapAt session.lastCMuids toUid with
    | some lastCMuid =>
      some ({ pack with cmuid := if packtype ≠ .response then lastCMuid + 1 else lastCMuid }, session)
    | none =>
      if packtype = .response then none
      else some ({ pack with cmuid := 0 },
        { session with lastCMuids := mapSet session.lastCMuids toUid 0 })
  else some ({ pack with cmuid := 0 }, session)

def dcnRequest (session : Session) (packet : Packet) (toUid : UInt64) : Packet × Session :=
  let packet := { packet with
    fromUid := session.cliUid, toUid := toUid, fromOs := 0, muid := session.lastMuid }
  (packet, { session with
    writeq := pushBlock session.writeq (packetSerial packet)
    lastMuid := session.lastMuid + 1
    cndResponses := mapSet session.cndResponses packet.muid false })

structure Undecoded where
  pack : Packet
  data : TrpData

def storeUser (usrResponses : Map UInt64 UsrResp) (pack : Packet) : Map UInt64 UsrResp :=
  let targ := (mapAt usrResponses pack.fromUid).getD ⟨queueInit, mapInit UInt64 Packet⟩
  mapSet usrResponses pack.fromUid
    (if pack.packtype ≠ .response then
      { targ with requests := pushBlock targ.requests (packetSerial pack) }
    else { targ with responses := mapSet targ.responses pack.cmuid (copyPacket pack) })

def wakeUser (usrWaiters : Map UInt64 UsrWaiter) (pack : Packet) : Map UInt64 UsrWaiter :=
  match mapAt usrWaiters pack.fromUid with
  | some waiter => mapSet usrWaiters pack.fromUid
      (if pack.packtype ≠ .response then { waiter with reqWaiter := true }
      else { waiter with respWaiter := true })
  | none => usrWaiters

def onUserMessage (session : Session) (pack : Packet) : Session :=
  { session with
    usrResponses := storeUser session.usrResponses pack
    usrWaiters := wakeUser session.usrWaiters pack
    reqWaiter := if pack.packtype ≠ .response then true else session.reqWaiter }

def wakeAnswered (session : Session) (muid : UInt64) : Session :=
  if mapIn session.cndResponses muid then
    { session with cndResponses := mapSet session.cndResponses muid true }
  else session

def onPacket (undecoded : Undecoded) (session : Session) (pack : Packet) : Session :=
  if pack.toUid ≠ session.cliUid then session
  else if pack.fromOs ≠ 0 then onUserMessage session pack
  else if pack.packtype = .traceroute then
    let data := (trpDataDeserial pack.data).getD undecoded.data
    if data.isResponse = 0 then
      { session with
        trrRequests := pushBlock session.trrRequests (Bytes.little 8 data.reqUid.toNat)
        trrWaiter := true }
    else wakeAnswered session pack.muid
  else wakeAnswered { session with responses := mapSet session.responses pack.muid pack } pack.muid

def dcnOnMessage (undecoded : Undecoded) (session : Session) : Session :=
  match popBlock session.readq with
  | (_, none, _) => session
  | (_, some input, readq) =>
    onPacket undecoded { session with readq := readq } ((packetDeserial input).getD undecoded.pack)

theorem wakeAnswered_eq (session : Session) (muid : UInt64) :
    wakeAnswered session muid = { session with
      cndResponses := if mapIn session.cndResponses muid then mapSet session.cndResponses muid true
        else session.cndResponses } := by
  unfold wakeAnswered
  split <;> rfl

/-- The exits of the handler: the packet is for somebody else, from a user, a
traceroute, or an answer. -/
theorem onPacket_cases (undecoded : Undecoded) (session : Session) (pack : Packet) :
    (pack.toUid ≠ session.cliUid ∧ onPacket undecoded session pack = session) ∨
    (pack.toUid = session.cliUid ∧ pack.fromOs ≠ 0 ∧
      onPacket undecoded session pack = onUserMessage session pack) ∨
    (pack.toUid = session.cliUid ∧ pack.fromOs = 0 ∧ pack.packtype = .traceroute ∧
      ((∃ requests, onPacket undecoded session pack = { session with trrRequests := requests, trrWaiter := true }) ∨
        onPacket undecoded session pack = wakeAnswered session pack.muid)) ∨
    (pack.toUid = session.cliUid ∧ pack.fromOs = 0 ∧ pack.packtype ≠ .traceroute ∧
      onPacket undecoded session pack =
        wakeAnswered { session with responses := mapSet session.responses pack.muid pack } pack.muid) := by
  by_cases addressed : pack.toUid = session.cliUid
  · by_cases user : pack.fromOs = 0
    · by_cases trace : pack.packtype = .traceroute
      · refine .inr (.inr (.inl ⟨addressed, user, trace, ?_⟩))
        by_cases asks : ((trpDataDeserial pack.data).getD undecoded.data).isResponse = 0
        · refine .inl ⟨pushBlock session.trrRequests
            (Bytes.little 8 ((trpDataDeserial pack.data).getD undecoded.data).reqUid.toNat), ?_⟩
          simp [onPacket, addressed, user, trace, asks]
        · exact .inr (by simp [onPacket, addressed, user, trace, asks])
      · exact .inr (.inr (.inr ⟨addressed, user, trace, by simp [onPacket, addressed, user, trace]⟩))
    · exact .inr (.inl ⟨addressed, user, by simp [onPacket, addressed, user]⟩)
  · exact .inl ⟨addressed, by simp [onPacket, addressed]⟩

/-- What a wait on a waiter comes to: none while it goes on, otherwise whether
the flag was ready, which is then cleared. -/
def waiterWaitFor (isReady hasTimeout : Bool) : Option Bool :=
  if isReady then some true else if hasTimeout then some false else none

def gathered (block : Block) : Packet := (packetDeserial block).getD (packetInit [] 0 0 0)

def gatherMisc (usrResponses : Map UInt64 UsrResp) : List Nat → Option (Packet × Map UInt64 UsrResp)
  | [] => none
  | i :: rest =>
    match (mapKeyAt usrResponses i).bind fun key => (mapAt usrResponses key).map (Prod.mk key) with
    | none => gatherMisc usrResponses rest
    | some (waitFrom, lcUrsp) =>
      match popBlock lcUrsp.requests with
      | (_, none, _) => gatherMisc usrResponses rest
      | (_, some block, requests) =>
        some (gathered block, mapSet usrResponses waitFrom { lcUrsp with requests := requests })

theorem gatherMisc_cons (usrResponses : Map UInt64 UsrResp) (i : Nat) (rest : List Nat) :
    gatherMisc usrResponses (i :: rest) =
    match usrResponses.entries[i]? with
    | none => gatherMisc usrResponses rest
    | some (waitFrom, lcUrsp) =>
      match popBlock lcUrsp.requests with
      | (_, none, _) => gatherMisc usrResponses rest
      | (_, some block, requests) =>
        some (gathered block, mapSet usrResponses waitFrom { lcUrsp with requests := requests }) := by
  rw [gatherMisc, Map.mapAt_slot]

/-- A gathering coroutine run to its end: the packet returned, if any, and the
session left. None while it waits. -/
def asyncGrequests (session : Session) (fromUid : UInt64) (hasTimeout : Bool) :
    Option (Option Packet × Session) :=
  if fromUid = 0 then
    match waiterWaitFor session.reqWaiter hasTimeout with
    | none => none
    | some false => some (none, session)
    | some true =>
      let session := { session with reqWaiter := false }
      match gatherMisc session.usrResponses (List.range session.usrResponses.entries.length) with
      | none => some (none, session)
      | some (pack, usrResponses) => some (some pack, { session with usrResponses := usrResponses })
  else
    match mapAt session.usrWaiters fromUid with
    | none => some (none, session)
    | some waiter =>
      match waiterWaitFor waiter.reqWaiter hasTimeout with
      | none => none
      | some false => some (none, session)
      | some true =>
        let session := { session with
          usrWaiters := mapSet session.usrWaiters fromUid { waiter with reqWaiter := false } }
        match mapAt session.usrResponses fromUid with
        | none => some (none, session)
        | some lcUrsp =>
          match popBlock lcUrsp.requests with
          | (_, none, _) => some (none, session)
          | (_, some block, requests) =>
            some (some (gathered block), { session with
              usrResponses := mapSet session.usrResponses fromUid { lcUrsp with requests := requests } })

end Dcn
