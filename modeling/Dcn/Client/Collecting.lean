import Dcn.Client.Session

/-! Collecting the answer to a request (dnet/client.c).

wait_response and dcn_getresp come one after the other in every caller, and no
caller looks at whether dcn_getresp found anything: the answer packet on its
stack is used either way. So the handler must not wake a request whose answer it
has not stored.
-/

set_option autoImplicit false

namespace Dcn

inductive RespCode where
  | undefinedError
  | fromUser
  | noSuchUser
  | okStatus
  | forbidenUid
  | noData
  | serverError
  deriving DecidableEq, Repr

def RespCode.ofServer (code : Nat) : RespCode :=
  match code with
  | 101 => .noSuchUser
  | 102 => .forbidenUid
  | 103 => .noData
  | 200 => .okStatus
  | 500 => .serverError
  | _ => .undefinedError

structure Getresp where
  found : Bool
  pack : Packet
  rcode : RespCode
  session : Session

/-- The cmuid of `*pack` is not assigned. Four bytes are read for the code of a
server's answer; `past` is what lies behind its data. -/
def dcnGetresp (session : Session) (respN : UInt64) (pack : Packet) (past : Block) : Getresp :=
  match mapAt session.responses respN with
  | some src =>
    { found := true
      pack := { src with cmuid := pack.cmuid }
      rcode := if src.fromUid = 0 then .ofServer (Bytes.field 0 4 (src.data ++ past)) else .fromUser
      session := { session with responses := mapErase session.responses respN } }
  | none => { found := false, pack := pack, rcode := .undefinedError, session := session }

/-- None while the waiter under the number is not ready. -/
def waitResponse (session : Session) (muid : UInt64) : Option Session :=
  if mapAt session.cndResponses muid = some true then
    some { session with cndResponses := mapErase session.cndResponses muid }
  else none

def readTrace (undecoded : Undecoded) (pack : Packet) : TrpData :=
  (trpDataDeserial pack.data).getD undecoded.data

/-- A packet of the server that the handler takes for a traceroute that came
back. -/
def IsTraceAnswer (undecoded : Undecoded) (pack : Packet) : Prop :=
  pack.fromOs = 0 ∧ pack.packtype = .traceroute ∧ (readTrace undecoded pack).isResponse ≠ 0

def woken (undecoded : Undecoded) (session : Session) (pack : Packet) : Option UInt64 :=
  if pack.toUid ≠ session.cliUid then none
  else if pack.fromOs ≠ 0 then none
  else if pack.packtype = .traceroute ∧ (readTrace undecoded pack).isResponse = 0 then none
  else if mapIn session.cndResponses pack.muid then some pack.muid
  else none

/-- A request that the handler wakes gets past its wait, and its dcn_getresp
finds a packet that owes nothing to the stack but the cmuid. -/
def Answered (undecoded : Undecoded) (session : Session) (pack : Packet) : Prop :=
  ∀ muid, woken undecoded session pack = some muid →
    ∃ waited src, waitResponse (onPacket undecoded session pack) muid = some waited ∧
      mapAt (onPacket undecoded session pack).responses muid = some src ∧
      ∀ answer past, (dcnGetresp waited muid answer past).found = true ∧
        (dcnGetresp waited muid answer past).pack = { src with cmuid := answer.cmuid }

section Handler

variable {undecoded : Undecoded} {session : Session} {pack answer : Packet} {muid : UInt64} {past : Block}

theorem dcnGetresp_missing (missing : mapAt session.responses muid = none) :
    dcnGetresp session muid answer past = ⟨false, answer, .undefinedError, session⟩ := by
  simp [dcnGetresp, missing]

theorem dcnGetresp_present {src : Packet} (present : mapAt session.responses muid = some src) :
    (dcnGetresp session muid answer past).found = true ∧
      (dcnGetresp session muid answer past).pack = { src with cmuid := answer.cmuid } := by
  simp [dcnGetresp, present]

theorem cndResponses_onPacket : (onPacket undecoded session pack).cndResponses =
    match woken undecoded session pack with
    | some muid => mapSet session.cndResponses muid true
    | none => session.cndResponses := by
  unfold onPacket woken readTrace
  by_cases addressed : pack.toUid = session.cliUid
  · by_cases user : pack.fromOs = 0
    · by_cases trace : pack.packtype = .traceroute
      · by_cases asks : ((trpDataDeserial pack.data).getD undecoded.data).isResponse = 0
        · simp [addressed, user, trace, asks]
        · by_cases waits : mapIn session.cndResponses pack.muid <;>
            simp [addressed, user, trace, asks, waits, wakeAnswered]
      · by_cases waits : mapIn session.cndResponses pack.muid <;>
          simp [addressed, user, trace, waits, wakeAnswered]
    · simp [addressed, user, onUserMessage]
  · simp [addressed]

theorem woken_eq_some_iff (addressed : pack.toUid = session.cliUid) :
    woken undecoded session pack = some muid ↔
      pack.fromOs = 0 ∧ (pack.packtype = .traceroute → (readTrace undecoded pack).isResponse ≠ 0) ∧
        mapIn session.cndResponses pack.muid = true ∧ pack.muid = muid := by
  unfold woken
  by_cases user : pack.fromOs = 0
  · by_cases asks : pack.packtype = .traceroute ∧ (readTrace undecoded pack).isResponse = 0
    · simp [addressed, user, asks]
    · simpa [addressed, user, asks] using fun _ _ => not_and.mp asks
  · simp [addressed, user]

theorem responses_traceAnswer (trace : IsTraceAnswer undecoded pack) :
    (onPacket undecoded session pack).responses = session.responses := by
  obtain ⟨server, type, back⟩ := trace
  rw [readTrace] at back
  by_cases addressed : pack.toUid = session.cliUid
  · by_cases waits : mapIn session.cndResponses pack.muid <;>
      simp [onPacket, addressed, server, type, back, waits, wakeAnswered]
  · simp [onPacket, addressed]

theorem responses_answer (addressed : pack.toUid = session.cliUid) (wakes : woken undecoded session pack = some muid)
    (other : ¬ IsTraceAnswer undecoded pack) :
    (onPacket undecoded session pack).responses = mapSet session.responses muid pack := by
  obtain ⟨server, back, waits, rfl⟩ := (woken_eq_some_iff addressed).mp wakes
  have type : pack.packtype ≠ .traceroute := fun type => other ⟨server, type, back type⟩
  simp [onPacket, addressed, server, type, waits, wakeAnswered]

theorem waitResponse_woken (wakes : woken undecoded session pack = some muid) :
    waitResponse (onPacket undecoded session pack) muid = some { onPacket undecoded session pack with
      cndResponses := mapErase (onPacket undecoded session pack).cndResponses muid } := by
  have ready : mapAt (onPacket undecoded session pack).cndResponses muid = some true := by
    rw [cndResponses_onPacket, wakes]
    exact Map.mapAt_mapSet_self session.cndResponses muid true
  rw [waitResponse, if_pos ready]

theorem getresp_traceAnswer (trace : IsTraceAnswer undecoded pack) {waited : Session}
    (missing : mapAt session.responses pack.muid = none)
    (waits : waitResponse (onPacket undecoded session pack) pack.muid = some waited) :
    (dcnGetresp waited pack.muid answer past).pack = answer := by
  have same : waited.responses = session.responses := by
    unfold waitResponse at waits
    split at waits
    · cases waits
      exact responses_traceAnswer trace
    · cases waits
  rw [← same] at missing
  rw [dcnGetresp_missing missing]

/-- The answer is found exactly where the number is in `responses` when the
request wakes up. -/
theorem answered_iff_stored : Answered undecoded session pack ↔
    ∀ muid, woken undecoded session pack = some muid → mapIn (onPacket undecoded session pack).responses muid := by
  constructor
  · intro answered muid wakes
    obtain ⟨_, src, _, stored, _⟩ := answered muid wakes
    rw [mapIn, stored]
    rfl
  · intro kept muid wakes
    obtain ⟨src, stored⟩ := Option.isSome_iff_exists.mp (kept muid wakes)
    exact ⟨_, src, waitResponse_woken wakes, stored, fun _ _ => dcnGetresp_present stored⟩

end Handler

/-- A request that is woken finds its answer unless a traceroute that came back
woke it with nothing stored under its number. -/
theorem answered_iff (undecoded : Undecoded) (session : Session) (pack : Packet)
    (addressed : pack.toUid = session.cliUid) :
    Answered undecoded session pack ↔
      (IsTraceAnswer undecoded pack → mapIn session.cndResponses pack.muid → mapIn session.responses pack.muid) := by
  rw [answered_iff_stored]
  constructor
  · intro kept trace waits
    have wakes : woken undecoded session pack = some pack.muid :=
      (woken_eq_some_iff addressed).mpr ⟨trace.1, fun _ => trace.2.2, waits, rfl⟩
    have stored := kept pack.muid wakes
    rwa [responses_traceAnswer trace] at stored
  · intro kept muid wakes
    by_cases trace : IsTraceAnswer undecoded pack
    · obtain ⟨_, _, waits, rfl⟩ := (woken_eq_some_iff addressed).mp wakes
      rw [responses_traceAnswer trace]
      exact kept trace waits
    · rw [responses_answer addressed wakes trace, mapIn, Map.mapAt_mapSet_self]
      rfl

def waitingSession : Session := (dcnRequest (dcnNewSession 1) (packetInit [] 0 0 0) 0).2

def plainAnswer : Packet := packetInit (intBytes 200) 0 1 1

def traceAnswer : Packet :=
  { packetInit ([1, 1] ++ List.replicate 14 0) 0 1 1 with packtype := .traceroute }

theorem answered_plain : Answered ⟨plainAnswer, ⟨0, 0, 0⟩⟩ waitingSession plainAnswer := by
  apply (answered_iff ⟨plainAnswer, ⟨0, 0, 0⟩⟩ waitingSession plainAnswer (by decide)).mpr
  intro trace
  exact absurd trace.2.1 (by decide)

theorem traceAnswer_not_found : ¬ Answered ⟨traceAnswer, ⟨0, 0, 0⟩⟩ waitingSession traceAnswer := by
  rw [answered_iff_stored]
  intro kept
  exact absurd (kept 1 (by decide)) (by decide)

def codeRead (src : Packet) : Nat := if src.fromUid = 0 then 4 else 0

/-- What dcn_getresp is for: the packet stored under the number is handed over
as it is and its entry removed, and nothing happens where there is none. -/
structure HandsOver (session : Session) (respN : UInt64) (answer : Packet) (past : Block) : Prop where
  found : (dcnGetresp session respN answer past).found = mapIn session.responses respN
  pack : (dcnGetresp session respN answer past).pack = (mapAt session.responses respN).getD answer
  inside : ∀ src, mapAt session.responses respN = some src → codeRead src ≤ src.data.length
  responses : ∀ muid, mapAt (dcnGetresp session respN answer past).session.responses muid =
    if muid = respN then none else mapAt session.responses muid
  others : (dcnGetresp session respN answer past).session =
    { session with responses := (dcnGetresp session respN answer past).session.responses }

section Handover

variable {session : Session} {answer src : Packet} {muid : UInt64} {past other : Block}

theorem mapAt_responses_dcnGetresp (respN : UInt64) :
    mapAt (dcnGetresp session respN answer past).session.responses muid =
      if muid = respN then none else mapAt session.responses muid := by
  cases found : mapAt session.responses respN with
  | none =>
    rw [dcnGetresp_missing found]
    by_cases own : muid = respN
    · rw [own, if_pos rfl, found]
    · rw [if_neg own]
  | some src =>
    simp only [dcnGetresp, found]
    by_cases own : muid = respN
    · rw [own, if_pos rfl, Map.mapAt_mapErase_self]
    · rw [if_neg own, Map.mapAt_mapErase_of_ne _ own]

theorem session_dcnGetresp : (dcnGetresp session muid answer past).session =
    { session with responses := (dcnGetresp session muid answer past).session.responses } := by
  unfold dcnGetresp
  cases mapAt session.responses muid <;> rfl

theorem rcode_inside (present : mapAt session.responses muid = some src) (inside : codeRead src ≤ src.data.length) :
    (dcnGetresp session muid answer past).rcode = (dcnGetresp session muid answer other).rcode := by
  simp only [dcnGetresp, present]
  by_cases server : src.fromUid = 0
  · rw [codeRead, if_pos server] at inside
    rw [if_pos server, if_pos server, Bytes.field_append past (by omega), Bytes.field_append other (by omega)]
  · rw [if_neg server, if_neg server]

end Handover

/-- The packet is handed over intact exactly where the caller's packet has its
cmuid already and an answer of the server has the four bytes of a code. -/
theorem handsOver_iff (session : Session) (respN : UInt64) (answer : Packet) (past : Block) :
    HandsOver session respN answer past ↔
      ∀ src, mapAt session.responses respN = some src →
        answer.cmuid = src.cmuid ∧ (src.fromUid = 0 → 4 ≤ src.data.length) := by
  cases found : mapAt session.responses respN with
  | none =>
    refine iff_of_true ⟨?_, ?_, ?_, fun _ => mapAt_responses_dcnGetresp respN, session_dcnGetresp⟩ ?_
    · rw [dcnGetresp_missing found, mapIn, found, Option.isSome_none]
    · rw [dcnGetresp_missing found, found, Option.getD_none]
    · simp [found]
    · simp
  | some src =>
    have copied : (dcnGetresp session respN answer past).pack = { src with cmuid := answer.cmuid } :=
      (dcnGetresp_present found).2
    constructor
    · intro kept stored same
      cases same
      constructor
      · have whole := kept.pack
        rw [copied, found, Option.getD_some] at whole
        have cmuid := congrArg Packet.cmuid whole
        exact cmuid
      · intro server
        have inside := kept.inside src found
        rwa [codeRead, if_pos server] at inside
    · intro holds
      obtain ⟨same, long⟩ := holds src rfl
      refine ⟨?_, ?_, ?_, fun _ => mapAt_responses_dcnGetresp respN, session_dcnGetresp⟩
      · rw [(dcnGetresp_present found).1, mapIn, found, Option.isSome_some]
      · rw [copied, found, same, Option.getD_some]
      · intro stored present
        rw [found] at present
        cases present
        by_cases server : src.fromUid = 0
        · rw [codeRead, if_pos server]
          exact long server
        · rw [codeRead, if_neg server]
          omega

theorem handsOver_stored_iff (undecoded : Undecoded) (session : Session) (pack answer : Packet) (past : Block)
    (addressed : pack.toUid = session.cliUid) (server : pack.fromOs = 0) (plain : pack.packtype ≠ .traceroute) :
    HandsOver (onPacket undecoded session pack) pack.muid answer past ↔
      answer.cmuid = pack.cmuid ∧ (pack.fromUid = 0 → 4 ≤ pack.data.length) := by
  have stored : mapAt (onPacket undecoded session pack).responses pack.muid = some pack := by
    simp [onPacket, addressed, server, plain, wakeAnswered_eq]
  rw [handsOver_iff, stored]
  simp

theorem plainAnswer_altered : ¬ HandsOver (onPacket ⟨plainAnswer, ⟨0, 0, 0⟩⟩ waitingSession plainAnswer) 1
    { packetInit [] 0 0 0 with cmuid := 9 } [] := by
  intro kept
  exact absurd kept.pack (by decide)

/-- The code of an answer without data is read from behind it. -/
example : ¬ HandsOver (onPacket ⟨plainAnswer, ⟨0, 0, 0⟩⟩ waitingSession (packetInit [] 0 1 1)) 1
    (packetInit [] 0 0 0) (intBytes 200) := by
  intro kept
  exact absurd (kept.inside (packetInit [] 0 1 1) (by decide)) (by decide)

end Dcn
