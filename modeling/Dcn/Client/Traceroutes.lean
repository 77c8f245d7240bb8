import Dcn.Client.Session
import Dcn.Foundation.Runs

/-! Requests of a traceroute and the calls that take them (dnet/client.c).

The handler decodes the payload of such a packet, puts the eight bytes of its
`req_uid` on `trr_requests` and sets the session's `trr_waiter`. A call waits for
the flag, pops a block and decodes it as a struct trp_data of sixteen bytes into
memory just allocated; whether that succeeds is not looked at.
-/

set_option autoImplicit false

namespace Dcn

/-- trp_data_serial copies the struct whole: between the flags and the number
are the bytes of its padding, whatever they hold. -/
def trpDataSerial (trpd : TrpData) (padding : Block) : Block :=
  [trpd.isResponse, trpd.success] ++ padding ++ Bytes.little 8 trpd.reqUid.toNat

/-- A call run to its end: the struct trp_data returned, none for NULL, and the
session left. None while it waits. What the allocation returned holds `fresh`. -/
def asyncGtraceroutes (session : Session) (fresh : TrpData) : Option (Option TrpData × Session) :=
  match waiterWaitFor session.trrWaiter false with
  | none => none
  | some _ =>
    match popBlock session.trrRequests with
    | (_, none, _) => some (none, { session with trrWaiter := false })
    | (_, some tdata, requests) => some (some ((trpDataDeserial tdata).getD fresh),
        { session with trrWaiter := false, trrRequests := requests })

/-- The handler runs on a packet, or async_gtraceroutes is called; a call that
would wait is made again later. -/
inductive TraceEvent where
  | packet (pack : Packet)
  | call

def Packet.TraceFormed (pack : Packet) : Prop :=
  pack.packtype = .traceroute → ∃ trpd padding, padding.length = 6 ∧ pack.data = trpDataSerial trpd padding

def TraceEvent.Formed : TraceEvent → Prop
  | .packet pack => pack.TraceFormed
  | .call => True

def traceAsked (cliUid : UInt64) (pack : Packet) : Option UInt64 :=
  if pack.toUid = cliUid ∧ pack.fromOs = 0 ∧ pack.packtype = .traceroute then
    (trpDataDeserial pack.data).bind fun data => if data.isResponse = 0 then some data.reqUid else none
  else none

def gatheredTraces (undecoded : Undecoded) (fresh : Nat → TrpData) :
    Nat → Session → List TraceEvent → List (Option TrpData)
  | _, _, [] => []
  | k, session, .packet pack :: rest => gatheredTraces undecoded fresh k (onPacket undecoded session pack) rest
  | k, session, .call :: rest =>
    match asyncGtraceroutes session (fresh k) with
    | none => gatheredTraces undecoded fresh k session rest
    | some (result, session) => result :: gatheredTraces undecoded fresh (k + 1) session rest

/-- What the calls are for: each takes the oldest request not taken yet. -/
def tracesDue (cliUid : UInt64) : List UInt64 → List TraceEvent → List UInt64
  | _, [] => []
  | asked, .packet pack :: rest => tracesDue cliUid (asked ++ (traceAsked cliUid pack).toList) rest
  | [], .call :: rest => tracesDue cliUid [] rest
  | uid :: asked, .call :: rest => uid :: tracesDue cliUid asked rest

/-- The calls return the requests, those left from before first, in order and
whatever their memory held. -/
structure DeliversTraces (undecoded : Undecoded) (session : Session) (asked : List UInt64)
    (events : List TraceEvent) : Prop where
  requests : ∀ fresh, (gatheredTraces undecoded fresh 0 session events).map
    (Option.map fun data => (data.isResponse, data.reqUid)) =
      (tracesDue session.cliUid asked events).map fun uid => some (0, uid)
  determined : ∀ fresh other,
    gatheredTraces undecoded fresh 0 session events = gatheredTraces undecoded other 0 session events

def askedSoFar (cliUid : UInt64) (asked : List UInt64) : TraceEvent → List UInt64
  | .packet pack => asked ++ (traceAsked cliUid pack).toList
  | .call => asked

def NothingAsked (asked : List UInt64) : TraceEvent → Prop
  | .packet _ => True
  | .call => asked = []

def CalledBefore (cliUid : UInt64) (asked : List UInt64) (events : List TraceEvent) : Prop :=
  Runs.Along (askedSoFar cliUid) NothingAsked asked events

/-- The blocks on the queue are the numbers asked for and not taken, and the
flag is set only where there is one. It is so in a new session, and the handler
and the calls keep it so. -/
structure TracesHeld (session : Session) (asked : List UInt64) : Prop where
  blocks : session.trrRequests.blocks = asked.map fun uid => Bytes.little 8 uid.toNat
  flag : session.trrWaiter = true → asked ≠ []

theorem trpDataDeserial_serial (trpd : TrpData) {padding : Block} (six : padding.length = 6) :
    trpDataDeserial (trpDataSerial trpd padding) = some trpd := by
  have length : (trpDataSerial trpd padding).length = trpOffset := by
    simp [trpDataSerial, six, trpOffset]
  have number : Bytes.field 8 8 (trpDataSerial trpd padding) = trpd.reqUid.toNat % 256 ^ 8 := by
    have pieces : trpDataSerial trpd padding =
        [[trpd.isResponse, trpd.success], padding, Bytes.little 8 trpd.reqUid.toNat].flatten := by
      simp [trpDataSerial]
    rw [pieces]
    exact Bytes.field_flatten 2 rfl (by simp [six])
  have response : Bytes.field 0 1 (trpDataSerial trpd padding) = trpd.isResponse.toNat := by
    simp [trpDataSerial, Bytes.field, Bytes.value]
  have success : Bytes.field 1 1 (trpDataSerial trpd padding) = trpd.success.toNat := by
    simp [trpDataSerial, Bytes.field, Bytes.value]
  rw [trpDataDeserial, if_neg (not_not.mpr length), number, response, success,
    Bytes.ofNat_value_little_eight]
  simp

theorem trpDataDeserial_short {block : Block} (short : block.length = 8) : trpDataDeserial block = none := by
  rw [trpDataDeserial, if_pos]
  rw [short]
  decide

section Handler

variable (undecoded : Undecoded) (session : Session) {pack : Packet}

/-- A request of a traceroute puts its number on the queue and sets the flag;
nothing else the handler does touches either. -/
theorem onPacket_trr (formed : pack.TraceFormed) :
    (onPacket undecoded session pack).cliUid = session.cliUid ∧
    match traceAsked session.cliUid pack with
    | some uid =>
      (onPacket undecoded session pack).trrRequests = pushBlock session.trrRequests (Bytes.little 8 uid.toNat) ∧
        (onPacket undecoded session pack).trrWaiter = true
    | none =>
      (onPacket undecoded session pack).trrRequests = session.trrRequests ∧
        (onPacket undecoded session pack).trrWaiter = session.trrWaiter := by
  by_cases addressed : pack.toUid = session.cliUid
  · by_cases user : pack.fromOs = 0
    · by_cases trace : pack.packtype = .traceroute
      · obtain ⟨trpd, padding, six, data⟩ := formed trace
        have decoded : trpDataDeserial pack.data = some trpd := by rw [data, trpDataDeserial_serial trpd six]
        by_cases asks : trpd.isResponse = 0
        · simp [onPacket, traceAsked, addressed, user, trace, decoded, asks]
        · simp [onPacket, traceAsked, addressed, user, trace, decoded, asks, wakeAnswered_eq]
      · simp [onPacket, traceAsked, addressed, user, trace, wakeAnswered_eq]
    · simp [onPacket, traceAsked, addressed, user, onUserMessage]
  · simp [onPacket, traceAsked, addressed]

end Handler

section Calls

variable (undecoded : Undecoded) {session : Session} {asked : List UInt64} {events : List TraceEvent}

theorem TracesHeld.onPacket {pack : Packet} (held : TracesHeld session asked) (formed : pack.TraceFormed) :
    TracesHeld (onPacket undecoded session pack) (asked ++ (traceAsked session.cliUid pack).toList) := by
  have effect := (onPacket_trr undecoded session formed).2
  cases asks : traceAsked session.cliUid pack with
  | some uid =>
    simp only [asks] at effect
    refine ⟨?_, fun _ => by simp⟩
    rw [effect.1, blocks_pushBlock, held.blocks]
    simp
  | none =>
    simp only [asks] at effect
    refine ⟨?_, ?_⟩
    · rw [effect.1, held.blocks]
      simp
    · rw [effect.2]
      simpa using held.flag

theorem TracesHeld.call (held : TracesHeld session asked) (fresh : TrpData) :
    (session.trrWaiter = false ∧ asyncGtraceroutes session fresh = none) ∨
    ∃ uid rest, asked = uid :: rest ∧ ∃ left, asyncGtraceroutes session fresh = some (some fresh, left) ∧
      TracesHeld left rest ∧ left.cliUid = session.cliUid := by
  cases flag : session.trrWaiter with
  | false => exact .inl ⟨rfl, by simp [asyncGtraceroutes, waiterWaitFor, flag]⟩
  | true =>
    obtain ⟨uid, rest, shape⟩ := List.exists_cons_of_ne_nil (held.flag flag)
    have blocks := held.blocks
    rw [shape, List.map_cons] at blocks
    have short : trpDataDeserial (Bytes.little 8 uid.toNat) = none :=
      trpDataDeserial_short (Bytes.length_little 8 uid.toNat)
    let left : Session := { session with
      trrWaiter := false, trrRequests := ⟨rest.map fun uid => Bytes.little 8 uid.toNat⟩ }
    have after : TracesHeld left rest := ⟨rfl, fun set => by cases set⟩
    refine .inr ⟨uid, rest, shape, left, ?_, after, rfl⟩
    simp [asyncGtraceroutes, waiterWaitFor, flag, popBlock_cons blocks, short, left]

theorem gatheredTraces_fresh (held : TracesHeld session asked) (formed : ∀ event ∈ events, event.Formed)
    (fresh : TrpData) (k : Nat) :
    ∀ result ∈ gatheredTraces undecoded (fun _ => fresh) k session events, result = some fresh := by
  induction events generalizing k session asked with
  | nil => simp [gatheredTraces]
  | cons event rest ih =>
    obtain ⟨here, later⟩ := List.forall_mem_cons.mp formed
    cases event with
    | packet pack => exact ih (held.onPacket undecoded here) later k
    | call =>
      rw [gatheredTraces]
      rcases held.call fresh with ⟨_, waits⟩ | ⟨_, _, _, left, returns, after, _⟩
      · rw [waits]
        exact ih held later k
      · rw [returns]
        intro result member
        rcases List.mem_cons.mp member with same | member
        · exact same
        · exact ih after later (k + 1) result member

theorem gatheredTraces_nil (held : TracesHeld session asked) (formed : ∀ event ∈ events, event.Formed)
    (nothingDue : tracesDue session.cliUid asked events = []) (fresh : Nat → TrpData) (k : Nat) :
    gatheredTraces undecoded fresh k session events = [] := by
  induction events generalizing session asked with
  | nil => rfl
  | cons event rest ih =>
    obtain ⟨here, later⟩ := List.forall_mem_cons.mp formed
    cases event with
    | packet pack =>
      have uid := (onPacket_trr undecoded session here).1
      rw [tracesDue] at nothingDue
      exact ih (held.onPacket undecoded here) later (by rwa [uid])
    | call =>
      cases asked with
      | nil =>
        rw [gatheredTraces]
        rcases held.call (fresh k) with ⟨_, waits⟩ | ⟨uid, rest, shape, _⟩
        · rw [waits]
          exact ih held later nothingDue
        · cases shape
      | cons uid asked => cases nothingDue

theorem tracesDue_nil_iff (cliUid : UInt64) : tracesDue cliUid asked events = [] ↔
    CalledBefore cliUid asked events := by
  unfold CalledBefore
  induction events generalizing asked with
  | nil => simp [tracesDue]
  | cons event rest ih =>
    rw [Runs.along_cons]
    cases event with
    | packet pack => rw [tracesDue, ih, askedSoFar, NothingAsked, true_and]
    | call =>
      cases asked with
      | nil => rw [tracesDue, ih, askedSoFar, NothingAsked, eq_self, true_and]
      | cons uid asked => simp [tracesDue, NothingAsked]

end Calls

theorem tracesHeld_dcnNewSession (uid : UInt64) : TracesHeld (dcnNewSession uid) [] := ⟨rfl, fun set => by cases set⟩

/-- The requests are delivered exactly where no call is made after one of them: a
call that returns hands over the memory it was given. -/
theorem deliversTraces_iff (undecoded : Undecoded) (session : Session) (asked : List UInt64) (events : List TraceEvent)
    (held : TracesHeld session asked) (formed : ∀ event ∈ events, event.Formed) :
    DeliversTraces undecoded session asked events ↔ CalledBefore session.cliUid asked events := by
  rw [← tracesDue_nil_iff]
  constructor
  · intro delivers
    have results := delivers.requests fun _ => ⟨1, 0, 0⟩
    have garbage := gatheredTraces_fresh undecoded held formed ⟨1, 0, 0⟩ 0
    cases due : tracesDue session.cliUid asked events with
    | nil => rfl
    | cons uid rest =>
      rw [due, List.map_cons] at results
      obtain ⟨result, _, shape, same, _⟩ := List.map_eq_cons_iff.mp results
      rw [garbage result (by simp [shape])] at same
      simp at same
  · intro nothingDue
    have waits := fun fresh => gatheredTraces_nil undecoded held formed nothingDue fresh 0
    refine ⟨fun fresh => ?_, fun fresh other => ?_⟩
    · rw [waits, nothingDue]
      rfl
    · rw [waits, waits]

def traceRequest : Packet :=
  { packetInit (trpDataSerial ⟨0, 0, 5⟩ (List.replicate 6 0)) 2 1 0 with packtype := .traceroute }

theorem traceRequest_formed : ∀ event ∈ [TraceEvent.packet traceRequest, .call], event.Formed := by
  intro event member
  simp only [List.mem_cons, List.not_mem_nil, or_false] at member
  rcases member with rfl | rfl
  · exact fun _ => ⟨⟨0, 0, 5⟩, List.replicate 6 0, rfl, rfl⟩
  · trivial

theorem deliversTraces_early :
    DeliversTraces ⟨traceRequest, ⟨0, 0, 0⟩⟩ (dcnNewSession 1) [] [.call, .packet traceRequest] := by
  refine (deliversTraces_iff _ (dcnNewSession 1) [] _ (tracesHeld_dcnNewSession 1) ?_).mpr ?_
  · intro event member
    exact traceRequest_formed event (by simpa [or_comm] using member)
  · exact ⟨rfl, trivial, trivial⟩

/-- A call made after it returns a struct trp_data that says it is a response. -/
theorem traceRequest_lost :
    ¬ DeliversTraces ⟨traceRequest, ⟨0, 0, 0⟩⟩ (dcnNewSession 1) [] [.packet traceRequest, .call] := by
  intro delivers
  exact absurd (delivers.requests fun _ => ⟨1, 0, 0⟩) (by decide)

end Dcn
