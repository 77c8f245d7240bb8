import Dcn.Client.Session
import Dcn.Foundation.Runs
import Dcn.Memory.Pointers

/-! Requests of one session that are under way together (dnet/client.c).

Calls of dcn_request, each followed by wait_response, run in steps beside the
network and beside runs of the message handler. A waiter is known by the call
that allocated it. waiter_wait is one step, taken once the waiter is ready. What
the handler does with packets of users and with traceroutes that ask is left out,
as it leaves the fields here alone.
-/

set_option autoImplicit false

namespace Dcn

/-- The step a call takes next. The packet is the one given until the number is
read, and then the one that is filled in. -/
inductive CallPc where
  | idle
  | read (packet : Packet) (toUid : UInt64)
  | push (packet : Packet)
  | increment (packet : Packet)
  | register (packet : Packet)
  | wait (packet : Packet)
  | erase (packet : Packet)
  | returned (packet : Packet)
  deriving DecidableEq

/-- The step a run of __dcn_on_message takes next that has popped an answer of
the server. It sets the waiter that its pointer is to by then. -/
inductive AnswerPc where
  | idle
  | store (pack : Packet)
  | lookup (pack : Packet)
  | set (pack : Packet) (waiterPtr : SlotPtr)
  deriving DecidableEq

def AnswerPc.received (cliUid : UInt64) (undecoded : Undecoded) (pack : Packet) : AnswerPc :=
  if pack.toUid ≠ cliUid then .idle
  else if pack.fromOs ≠ 0 then .idle
  else if pack.packtype = .traceroute then
    if ((trpDataDeserial pack.data).getD undecoded.data).isResponse = 0 then .idle else .lookup pack
  else .store pack

structure ServerAnswer where
  pack : Packet
  server : pack.fromOs = 0
  plain : pack.packtype ≠ .traceroute

/-- The session, the arrays of cnd_responses, where the calls and the handler runs
are, and the packets between writeq and readq. The last four are histories: the
packets pushed, each with its call, the waiters ever set, the numbers that a
handler looked up, and those of the answers handled to the end. -/
structure Requests (τ η : Type) where
  cliUid : UInt64
  lastMuid : UInt64
  writeq : Queue
  responses : Map UInt64 Packet
  cndResponses : Map UInt64 τ
  cndArrays : Arrays
  isReady : τ → Bool
  calls : τ → CallPc
  handlers : η → AnswerPc
  sent : List Packet
  arrived : List Packet
  pushed : List (τ × Packet)
  wasSet : τ → Bool
  lookedUp : List UInt64
  handled : List UInt64

/-- A call is made or takes its next step; the oldest block is sent; the server
answers a packet that was sent; a handler run pops an answer or takes its next
step. -/
inductive RequestEvent (τ η : Type) where
  | call (c : τ) (packet : Packet) (toUid : UInt64)
  | advance (c : τ) (moved : Moved)
  | send
  | answer (inx : Nat) (reply : ServerAnswer)
  | pop (h : η) (undecoded : Undecoded)
  | handle (h : η)

namespace Requests

variable {τ η : Type} [DecidableEq τ] [DecidableEq η]

def start (τ η : Type) (uid : UInt64) : Requests τ η where
  cliUid := uid
  lastMuid := 1
  writeq := queueInit
  responses := mapInit UInt64 Packet
  cndResponses := mapInit UInt64 τ
  cndArrays := .init
  isReady _ := false
  calls _ := .idle
  handlers _ := .idle
  sent := []
  arrived := []
  pushed := []
  wasSet _ := false
  lookedUp := []
  handled := []

def goto (s : Requests τ η) (c : τ) (pc : CallPc) : Requests τ η :=
  { s with calls := Function.update s.calls c pc }

def handlerGoto (s : Requests τ η) (h : η) (pc : AnswerPc) : Requests τ η :=
  { s with handlers := Function.update s.handlers h pc }

def advance (s : Requests τ η) (c : τ) (moved : Moved) : Requests τ η :=
  match s.calls c with
  | .read packet toUid => s.goto c (.push { packet with
      fromUid := s.cliUid, toUid := toUid, fromOs := 0, muid := s.lastMuid })
  | .push packet => { s with
      writeq := pushBlock s.writeq (packetSerial packet)
      pushed := s.pushed ++ [(c, packet)] }.goto c (.increment packet)
  | .increment packet => { s with lastMuid := s.lastMuid + 1 }.goto c (.register packet)
  | .register packet => { s with
      isReady := Function.update s.isReady c false
      cndResponses := mapSet s.cndResponses packet.muid c
      cndArrays := s.cndArrays.set (mapIn s.cndResponses packet.muid) moved }.goto c (.wait packet)
  | .wait packet =>
    if s.isReady c then { s with isReady := Function.update s.isReady c false }.goto c (.erase packet) else s
  | .erase packet => { s with
      cndResponses := mapErase s.cndResponses packet.muid
      cndArrays := s.cndArrays.erase (mapIn s.cndResponses packet.muid) }.goto c (.returned packet)
  | .idle | .returned _ => s

def handle (s : Requests τ η) (h : η) : Requests τ η :=
  match s.handlers h with
  | .idle => s
  | .store pack => { s with responses := mapSet s.responses pack.muid pack }.handlerGoto h (.lookup pack)
  | .lookup pack =>
    let s := { s with lookedUp := s.lookedUp ++ [pack.muid] }
    match s.cndArrays.find s.cndResponses pack.muid with
    | some waiterPtr => s.handlerGoto h (.set pack waiterPtr)
    | none => { s with handled := s.handled ++ [pack.muid] }.handlerGoto h .idle
  | .set pack waiterPtr =>
    match s.cndArrays.value s.cndResponses waiterPtr with
    | some waiter => { s with
        isReady := Function.update s.isReady waiter true
        wasSet := Function.update s.wasSet waiter true
        handled := s.handled ++ [pack.muid] }.handlerGoto h .idle
    -- The array was given back, and what is read there is no waiter.
    | none => { s with handled := s.handled ++ [pack.muid] }.handlerGoto h .idle

def send (s : Requests τ η) : Requests τ η :=
  match popBlock s.writeq with
  | (_, some block, writeq) => { s with writeq := writeq, sent := s.sent ++ (packetDeserial block).toList }
  | (_, none, _) => s

/-- The server may answer the packets of a connection in any order. -/
def answer (s : Requests τ η) (inx : Nat) (reply : ServerAnswer) : Requests τ η :=
  match s.sent[inx]? with
  | some packet => { s with
      sent := s.sent.eraseIdx inx
      arrived := s.arrived ++ [{ reply.pack with toUid := packet.fromUid, muid := packet.muid }] }
  | none => s

def step (s : Requests τ η) : RequestEvent τ η → Requests τ η
  | .call c packet toUid => if s.calls c = .idle then s.goto c (.read packet toUid) else s
  | .advance c moved => s.advance c moved
  | .send => s.send
  | .answer inx reply => s.answer inx reply
  | .pop h undecoded =>
    match s.handlers h, s.arrived with
    | .idle, pack :: rest => { s with arrived := rest }.handlerGoto h (.received s.cliUid undecoded pack)
    | _, _ => s
  | .handle h => s.handle h

structure Agrees (s : Requests τ η) (session : Session) : Prop where
  cliUid : session.cliUid = s.cliUid
  lastMuid : session.lastMuid = s.lastMuid
  writeq : session.writeq = s.writeq
  responses : session.responses = s.responses
  waiters : ∀ muid, mapAt session.cndResponses muid = (mapAt s.cndResponses muid).map s.isReady

section Uninterrupted

variable {s : Requests τ η} {session : Session} {c : τ} {h : η} {pack : Packet}

/-- The steps of one call in a row are dcn_request. -/
theorem agrees_request {toUid : UInt64} {moved : Moved} (agrees : s.Agrees session)
    (reads : s.calls c = .read pack toUid) (fresh : ∀ muid, mapAt s.cndResponses muid ≠ some c) :
    (Runs.run step s (List.replicate 4 (.advance c moved))).Agrees (dcnRequest session pack toUid).2 ∧
      (Runs.run step s (List.replicate 4 (.advance c moved))).calls c =
        .wait (dcnRequest session pack toUid).1 := by
  simp only [List.replicate, Runs.run_cons, Runs.run_nil, step, advance, reads, goto, Function.update_self, dcnRequest]
  refine ⟨⟨agrees.cliUid, ?_, ?_, agrees.responses, fun muid => ?_⟩, ?_⟩
  · rw [agrees.lastMuid]
  · rw [agrees.writeq, agrees.cliUid, agrees.lastMuid]
  · rw [Map.mapAt_mapSet, Map.mapAt_mapSet, agrees.lastMuid]
    split
    · simp
    · rw [agrees.waiters]
      cases entry : mapAt s.cndResponses muid with
      | none => rfl
      | some d =>
        have other : d ≠ c := by
          rintro rfl
          exact fresh muid entry
        simp [other]
  · rw [agrees.cliUid, agrees.lastMuid]

theorem agrees_wake (agrees : s.Agrees session) (looks : s.handlers h = .lookup pack)
    (once : ∀ muid c, mapAt s.cndResponses muid = some c → mapAt s.cndResponses pack.muid = some c → muid = pack.muid) :
    (Runs.run step s [.handle h, .handle h]).Agrees (wakeAnswered session pack.muid) := by
  rw [wakeAnswered_eq]
  simp only [Runs.run_cons, Runs.run_nil, step, handle, looks, mapIn, agrees.waiters]
  cases found : s.cndArrays.find s.cndResponses pack.muid with
  | none =>
    simp only [handlerGoto, Function.update_self, Arrays.find_eq_none.mp found]
    exact ⟨agrees.cliUid, agrees.lastMuid, agrees.writeq, agrees.responses, fun muid => by simpa using agrees.waiters muid⟩
  | some ptr =>
    obtain ⟨c, read, entry⟩ := (Arrays.pointsTo_find found).value (Arrays.array_find found)
    simp only [handlerGoto, Function.update_self, read]
    refine ⟨agrees.cliUid, agrees.lastMuid, agrees.writeq, agrees.responses, fun muid => ?_⟩
    simp only [entry, Option.map_some, Option.isSome_some, ↓reduceIte, Map.mapAt_mapSet]
    split
    · next same => simp [same, entry]
    · next other =>
      rw [agrees.waiters]
      cases held : mapAt s.cndResponses muid with
      | none => rfl
      | some d =>
        have differ : d ≠ c := by
          rintro rfl
          exact other (once muid d held entry)
        simp [differ]

theorem agrees_answer (undecoded : Undecoded) (agrees : s.Agrees session)
    (stores : s.handlers h = .received s.cliUid undecoded pack)
    (once : ∀ muid c, mapAt s.cndResponses muid = some c → mapAt s.cndResponses pack.muid = some c → muid = pack.muid) :
    ∃ n, (Runs.run step s (List.replicate n (.handle h))).Agrees (onPacket undecoded session pack) := by
  unfold AnswerPc.received at stores
  unfold onPacket
  rw [← agrees.cliUid] at stores
  by_cases addressed : pack.toUid = session.cliUid
  · by_cases user : pack.fromOs = 0
    · by_cases trace : pack.packtype = .traceroute
      · by_cases asks : ((trpDataDeserial pack.data).getD undecoded.data).isResponse = 0
        · refine ⟨0, ?_⟩
          simp only [addressed, user, trace, asks, ne_eq, not_true_eq_false, ↓reduceIte]
          exact ⟨agrees.cliUid, agrees.lastMuid, agrees.writeq, agrees.responses, agrees.waiters⟩
        · refine ⟨2, ?_⟩
          simp only [addressed, user, trace, asks, ne_eq, not_true_eq_false, ↓reduceIte] at stores ⊢
          exact agrees_wake agrees stores once
      · refine ⟨3, ?_⟩
        simp only [addressed, user, trace, ne_eq, not_true_eq_false, ↓reduceIte] at stores ⊢
        have stored : (s.handle h).Agrees { session with responses := mapSet session.responses pack.muid pack } := by
          simp only [handle, stores]
          exact ⟨agrees.cliUid, agrees.lastMuid, agrees.writeq, by rw [agrees.responses]; rfl, agrees.waiters⟩
        have looks : (s.handle h).handlers h = .lookup pack := by
          simp only [handle, stores, handlerGoto, Function.update_self]
        have entries : (s.handle h).cndResponses = s.cndResponses := by
          simp only [handle, stores, handlerGoto]
        exact agrees_wake stored looks (entries ▸ once)
    · refine ⟨0, ?_⟩
      simp only [addressed, user, ne_eq, not_true_eq_false, not_false_eq_true, ↓reduceIte]
      exact ⟨agrees.cliUid, agrees.lastMuid, agrees.writeq, agrees.responses, agrees.waiters⟩
  · refine ⟨0, ?_⟩
    simp only [addressed, ne_eq, not_false_eq_true, ↓reduceIte]
    exact agrees

end Uninterrupted

end Requests

end Dcn
