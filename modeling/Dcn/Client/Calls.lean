import Dcn.Client.Integrity
import Dcn.Client.Refusals
import Dcn.Client.Traceroutes
import Dcn.Server.Routing

/-! Calls of a session that are addressed to the server (dnet/client.c).

ping, traceroute and traceroute_ans put a packet for UID 0 on the write queue,
wait for the answer and read it. They are followed through a run with any number
of other clients, in which handlers and requests come one after another, up to
what each hands to its caller.
-/

set_option autoImplicit false

namespace Dcn

/-- The packet of a traceroute; `padding` is what the struct holds between its
flags and its number. -/
def createTraceroute (trpd : TrpData) (padding : Block) (fromUid : UInt64) : Packet :=
  { packetInit (trpDataSerial trpd padding) fromUid 0 0 with packtype := .traceroute }

structure Padding where
  bytes : Block
  six : bytes.length = 6

inductive ServerCall where
  | ping
  | traceroute (uidTtr : UInt64) (padding : Padding)
  | tracerouteAns (whoExists : UInt64) (padding : Padding)

def ServerCall.packet (cliUid : UInt64) : ServerCall → Packet
  | .ping => { packetInit [] cliUid 0 0 with packtype := .ping }
  | .traceroute uidTtr padding => createTraceroute ⟨0, 0, uidTtr⟩ padding.bytes cliUid
  | .tracerouteAns whoExists padding => createTraceroute ⟨1, 1, whoExists⟩ padding.bytes cliUid

/-- The end of every call's request: wait_response, then dcn_getresp into the
packet on its stack. None while the answer's waiter is not set. -/
def callResult (session : Session) (muid : UInt64) (answer : Packet) (past : Block) : Option Getresp :=
  (waitResponse session muid).map fun waited => dcnGetresp waited muid answer past

def asyncPing (got : Getresp) : Bool := got.rcode = .okStatus

def asyncTraceroute (got : Getresp) : Option TrpData :=
  if got.pack.data.length ≠ trpOffset then none else trpDataDeserial got.pack.data

def asyncTracerouteAns (got : Getresp) : Bool := got.rcode = .okStatus

theorem ServerCall.fits_packet (cliUid : UInt64) (call : ServerCall) : (call.packet cliUid).Fits := by
  have sixteen : ∀ (trpd : TrpData) (padding : Padding), (trpDataSerial trpd padding.bytes).length = 16 := by
    intro trpd padding
    simp [trpDataSerial, padding.six]
  unfold Packet.Fits sizeBound packetGeneralOfs
  cases call with
  | ping =>
    show 61 + 0 < 2 ^ 64
    omega
  | traceroute uidTtr padding =>
    show 61 + (trpDataSerial _ padding.bytes).length < 2 ^ 64
    rw [sixteen]
    omega
  | tracerouteAns whoExists padding =>
    show 61 + (trpDataSerial _ padding.bytes).length < 2 ^ 64
    rw [sixteen]
    omega

def ServerCall.made (cliUid : UInt64) (call : ServerCall) : PartyEvent :=
  .request ⟨call.packet cliUid, call.fits_packet cliUid⟩ 0

namespace Party

def HandledWith (uid : UInt64) (events : List PartyEvent) (asked : Packet) (found : Server → Prop) : Prop :=
  ∃ before cli locals ok after, events = before ++ .work cli locals ok :: after ∧
    (Runs.run step (start uid) before).link = some cli ∧
    (Runs.run step (start uid) before).server.nextPacket locals cli = some asked ∧
    found (Runs.run step (start uid) before).server

/-- What a call comes to that sent `asked`: a ping ends at its first pass where
the session has a UID other than the server's, and never else; no traceroute
returns anything, whoever answers it; and traceroute_ans tells whether someone
was registered under UID 0. -/
def CallReturns (uid : UInt64) (events : List PartyEvent) (asked : Packet) (got : Getresp) : ServerCall → Prop
  | .ping => asyncPing got = true ↔ uid ≠ 0
  | .traceroute _ _ => uid ≠ 0 → asyncTraceroute got = none
  | .tracerouteAns _ _ =>
    if uid = 0 then asyncTracerouteAns got = false
    else HandledWith uid events asked fun server =>
      (asyncTracerouteAns got = true ↔ (mapAt server.dcnClients 0).isSome)

def callPacket (uid : UInt64) (before : List PartyEvent) (call : ServerCall) : Packet :=
  (dcnRequest (Runs.run step (start uid) before).session (call.packet uid) 0).1

/-- What V sent and was answered: its packets carry its UID and are numbered
from one on; an answer is to one of them; and a waiter that is set has its
answer stored, unless the packet was addressed to its sender. -/
structure Kept (uid : UInt64) (p : Party) : Prop where
  cliUid : p.session.cliUid = uid
  lastMuid : p.session.lastMuid = UInt64.ofNat (p.sent.length + 1)
  muids : p.sent.map Packet.muid = (List.range p.sent.length).map fun i => UInt64.ofNat (i + 1)
  fromUid : ∀ asked ∈ p.sent, asked.fromUid = uid
  answers : ∀ e ∈ p.answered, e.1 ∈ p.sent ∧ ∃ locals s dcnClients cli, e.2 = answerTo locals s dcnClients cli e.1
  stored : ∀ muid, mapAt p.session.cndResponses muid = some true →
    (mapAt p.session.responses muid).isSome ∨ ∃ asked ∈ p.sent, asked.muid = muid ∧ asked.fromUid = asked.toUid

section Steps

variable {uid : UInt64} {p : Party}

theorem Kept.withServer (kept : p.Kept uid) (s : Server) (link : Option Conn) :
    Kept uid { p with server := s, link := link } :=
  ⟨kept.cliUid, kept.lastMuid, kept.muids, kept.fromUid, kept.answers, kept.stored⟩

theorem kept_work (guarded : p.Guarded) (kept : p.Kept uid) (cli : Conn) (locals : Locals) (ok : Conn → Bool) :
    (p.step (.work cli locals ok)).Kept uid := by
  refine ⟨kept.cliUid, kept.lastMuid, kept.muids, kept.fromUid, fun e member => ?_, kept.stored⟩
  rcases List.mem_append.mp member with before | new
  · exact kept.answers e before
  · unfold newAnswers at new
    split at new
    · next linked =>
      rw [Option.mem_toList, Option.map_eq_some_iff] at new
      obtain ⟨pack, next, rfl⟩ := new
      exact ⟨sent_of_nextPacket guarded linked next, locals, _, _, cli, rfl⟩
    · cases new

theorem kept_request (kept : p.Kept uid) (pack : SizedPacket) (toUid : UInt64) :
    (p.step (.request pack toUid)).Kept uid := by
  have grown : (p.step (.request pack toUid)).sent = p.sent ++ [(dcnRequest p.session pack.pack toUid).1] := rfl
  refine ⟨kept.cliUid, ?_, ?_, fun asked member => ?_, fun e member => ?_, fun muid set => ?_⟩
  · show p.session.lastMuid + 1 = _
    rw [grown, List.length_append, kept.lastMuid]
    exact (UInt64.ofNat_add _ 1).symm
  · rw [grown, List.map_append, List.length_append, List.length_singleton, List.range_succ, List.map_append, kept.muids]
    exact congrArg _ (congrArg (fun muid => [muid]) kept.lastMuid)
  · rw [grown] at member
    rcases List.mem_append.mp member with before | new
    · exact kept.fromUid asked before
    · rw [List.mem_singleton.mp new]
      exact kept.cliUid
  · obtain ⟨sent, answer⟩ := kept.answers e member
    exact ⟨List.mem_append_left _ sent, answer⟩
  · -- The waiter a request registers is not ready.
    simp only [step, dcnRequest, Map.mapAt_mapSet] at set
    split at set
    · cases set
    · rcases kept.stored muid set with there | ⟨asked, sent, own⟩
      · exact .inl there
      · exact .inr ⟨asked, List.mem_append_left _ sent, own⟩

theorem isSome_responses_onPacket (undecoded : Undecoded) {session : Session} (pack : Packet) {muid : UInt64}
    (there : (mapAt session.responses muid).isSome) :
    (mapAt (onPacket undecoded session pack).responses muid).isSome := by
  rcases onPacket_cases undecoded session pack with
    ⟨_, result⟩ | ⟨_, _, result⟩ | ⟨_, _, _, ⟨_, result⟩ | result⟩ | ⟨_, _, _, result⟩
  · rwa [result]
  · rwa [result]
  · rwa [result]
  · rw [result, wakeAnswered_eq]
    exact there
  · rw [result, wakeAnswered_eq, Map.mapAt_mapSet]
    split
    · rfl
    · exact there

theorem numbers_onPacket (undecoded : Undecoded) (session : Session) (pack : Packet) :
    (onPacket undecoded session pack).cliUid = session.cliUid ∧
      (onPacket undecoded session pack).lastMuid = session.lastMuid := by
  rcases onPacket_cases undecoded session pack with
    ⟨_, result⟩ | ⟨_, _, result⟩ | ⟨_, _, _, ⟨_, result⟩ | result⟩ | ⟨_, _, _, result⟩
  · rw [result]
    exact ⟨rfl, rfl⟩
  · rw [result]
    exact ⟨rfl, rfl⟩
  · rw [result]
    exact ⟨rfl, rfl⟩
  · rw [result, wakeAnswered_eq]
    exact ⟨rfl, rfl⟩
  · rw [result, wakeAnswered_eq]
    exact ⟨rfl, rfl⟩

theorem Kept.stored_onPacket (kept : p.Kept uid) (undecoded : Undecoded) {session : Session} {pack : Packet}
    (stored : ∀ muid, mapAt session.cndResponses muid = some true →
      (mapAt session.responses muid).isSome ∨ ∃ asked ∈ p.sent, asked.muid = muid ∧ asked.fromUid = asked.toUid)
    (answers : pack.fromOs = 0 → p.Answers pack) (muid : UInt64)
    (ready : mapAt (onPacket undecoded session pack).cndResponses muid = some true) :
    (mapAt (onPacket undecoded session pack).responses muid).isSome ∨
      ∃ asked ∈ p.sent, asked.muid = muid ∧ asked.fromUid = asked.toUid := by
  rw [cndResponses_onPacket] at ready
  split at ready
  · next woke wakes =>
    by_cases same : muid = woke
    · subst same
      have addressed : pack.toUid = session.cliUid := by
        by_contra other
        simp [woken, other] at wakes
      obtain ⟨server, _, _, number⟩ := (woken_eq_some_iff addressed).mp wakes
      obtain ⟨asked, sent, asked_muid, logged⟩ := answers server
      by_cases own : asked.fromUid = asked.toUid
      · exact .inr ⟨asked, sent, asked_muid.trans number, own⟩
      · -- The answer to any other packet is no traceroute, so the handler stores it.
        obtain ⟨_, locals, s, dcnClients, cli, answer⟩ := kept.answers _ logged
        have type : pack.packtype = .request := by
          rw [show pack = answerTo locals s dcnClients cli asked from answer, answerTo, if_neg own]
          rfl
        have plain : ¬ IsTraceAnswer undecoded pack := by
          intro trace
          rw [IsTraceAnswer, type] at trace
          exact absurd trace.2.1 (by decide)
        left
        rw [responses_answer addressed wakes plain, Map.mapAt_mapSet_self]
        rfl
    · rw [Map.mapAt_mapSet_of_ne _ _ same] at ready
      exact (stored muid ready).imp_left (isSome_responses_onPacket undecoded pack)
  · exact (stored muid ready).imp_left (isSome_responses_onPacket undecoded pack)

theorem kept_message (guarded : p.Guarded) (kept : p.Kept uid) (undecoded : Undecoded) :
    (p.step (.message undecoded)).Kept uid := by
  simp only [step, dcnOnMessage]
  cases shape : p.session.readq.blocks with
  | nil =>
    rw [popBlock_nil shape]
    exact kept
  | cons oldest rest =>
    rw [popBlock_cons shape]
    dsimp only
    obtain ⟨pack, fits, serial, answers⟩ := guarded.incoming oldest (shape ▸ List.mem_cons_self)
    rw [serial, fits.deserial_serial, Option.getD_some]
    refine ⟨?_, ?_, kept.muids, kept.fromUid, kept.answers, ?_⟩
    · rw [(numbers_onPacket undecoded _ pack).1]
      exact kept.cliUid
    · rw [(numbers_onPacket undecoded _ pack).2]
      exact kept.lastMuid
    · exact kept.stored_onPacket undecoded kept.stored answers

theorem kept_collect (kept : p.Kept uid) (muid : UInt64) : (p.step (.collect muid)).Kept uid := by
  refine ⟨kept.cliUid, kept.lastMuid, kept.muids, kept.fromUid, kept.answers, fun other ready => ?_⟩
  -- The waiter and the answer under a number go together.
  by_cases same : other = muid
  · subst same
    simp [step] at ready
  · simp only [step, Map.mapAt_mapErase_of_ne _ same] at ready ⊢
    exact kept.stored other ready

theorem kept_step (p : Party) (event : PartyEvent) (held : p.Guarded ∧ p.Kept uid) :
    (p.step event).Guarded ∧ (p.step event).Kept uid := by
  obtain ⟨guarded, kept⟩ := held
  refine ⟨guarded_step p event guarded, ?_⟩
  cases event with
  | accept cli fd ip port => exact kept.withServer _ p.link
  | frame cli pack =>
    simp only [step]
    split
    · exact kept
    · exact kept.withServer _ p.link
  | work cli locals ok => exact kept_work guarded kept cli locals ok
  | epollout cli aw modOk =>
    simp only [step]
    split
    · exact kept
    · exact kept.withServer _ p.link
  | disconnect cli delOk => exact kept.withServer _ _
  | join cli fd ip port =>
    simp only [step]
    split
    · exact kept.withServer _ _
    · exact kept
  | request pack toUid => exact kept_request kept pack toUid
  | deliver =>
    simp only [step, deliver]
    split
    · exact ⟨kept.cliUid, kept.lastMuid, kept.muids, kept.fromUid, kept.answers, kept.stored⟩
    · exact kept
  | receive =>
    simp only [step, receive]
    split
    · exact kept
    · split
      · exact ⟨kept.cliUid, kept.lastMuid, kept.muids, kept.fromUid, kept.answers, kept.stored⟩
      · exact kept
  | message undecoded => exact kept_message guarded kept undecoded
  | collect muid => exact kept_collect kept muid

theorem kept_start (uid : UInt64) : (start uid).Kept uid := by
  refine ⟨rfl, rfl, rfl, fun _ member => ?_, fun _ member => ?_, fun _ ready => ?_⟩
  · cases member
  · cases member
  · cases ready

theorem kept_run (uid : UInt64) (events : List PartyEvent) :
    (Runs.run step (start uid) events).Guarded ∧ (Runs.run step (start uid) events).Kept uid :=
  (Runs.throughout_of_preserved_all kept_step ⟨guarded_start uid, kept_start uid⟩ events).last

end Steps

section Histories

variable {uid : UInt64} {p : Party}

/-- A packet is known by its number as long as the numbers have not come round. -/
theorem Kept.eq_of_muid (kept : p.Kept uid) (few : p.sent.length < 2 ^ 64) {asked other : Packet}
    (asked_sent : asked ∈ p.sent) (other_sent : other ∈ p.sent) (same : asked.muid = other.muid) : asked = other := by
  have distinct : (p.sent.map Packet.muid).Nodup := by
    rw [kept.muids]
    refine List.Nodup.map_on (fun i i_lt j j_lt equal => ?_) List.nodup_range
    rw [List.mem_range] at i_lt j_lt
    have numbers := congrArg UInt64.toNat equal
    simp only [UInt64.toNat_ofNat'] at numbers
    omega
  exact List.inj_on_of_nodup_map distinct asked_sent other_sent same

def newlyAnswered (p : Party) : PartyEvent → List (Packet × Packet)
  | .work cli locals _ => p.newAnswers cli locals
  | _ => []

theorem histories_step (p : Party) (event : PartyEvent) :
    p.sent ⊆ (p.step event).sent ∧ (p.step event).answered = p.answered ++ p.newlyAnswered event := by
  cases event with
  | work cli locals ok => exact ⟨fun _ member => member, rfl⟩
  | request pack toUid => exact ⟨List.subset_append_left _ _, (List.append_nil _).symm⟩
  | frame cli pack =>
    simp only [step, newlyAnswered]
    split <;> simp
  | epollout cli aw modOk =>
    simp only [step, newlyAnswered]
    split <;> simp
  | join cli fd ip port =>
    simp only [step, newlyAnswered]
    split <;> simp
  | deliver =>
    simp only [step, newlyAnswered, deliver]
    split <;> simp
  | receive =>
    simp only [step, newlyAnswered, receive]
    split
    · simp
    · split <;> simp
  | _ => simp [step, newlyAnswered]

theorem sent_run (p : Party) (events : List PartyEvent) : p.sent ⊆ (Runs.run step p events).sent := by
  induction events generalizing p with
  | nil => exact fun _ member => member
  | cons event rest ih =>
    rw [Runs.run_cons]
    exact fun _ member => ih _ ((histories_step p event).1 member)

theorem answered_run (p : Party) (events : List PartyEvent) :
    (Runs.run step p events).answered = p.answered ++ Runs.outputs step newlyAnswered p events := by
  induction events generalizing p with
  | nil => simp
  | cons event rest ih => rw [Runs.run_cons, ih, (histories_step p event).2, Runs.outputs_cons, List.append_assoc]

theorem answered_at {events : List PartyEvent} {asked pack : Packet}
    (member : (asked, pack) ∈ (Runs.run step (start uid) events).answered) :
    HandledWith uid events asked fun server => ∃ locals cli,
      pack = answerTo locals (server.popped cli) (register locals (server.popped cli) cli asked.fromUid) cli asked := by
  rw [answered_run] at member
  rcases List.mem_append.mp member with initial | given
  · cases initial
  · obtain ⟨before, event, after, split, here⟩ := (Runs.mem_outputs newlyAnswered).mp given
    cases event with
    | work cli locals ok =>
      simp only [newlyAnswered, newAnswers] at here
      split at here
      · next linked =>
        rw [Option.mem_toList, Option.map_eq_some_iff] at here
        obtain ⟨_, next, pair⟩ := here
        obtain ⟨rfl, rfl⟩ := Prod.mk.inj pair
        exact ⟨before, cli, locals, ok, after, split, linked, next, locals, cli, rfl⟩
      · cases here
    | _ => cases here

end Histories

section Reading

variable {session : Session} {asked pack answer : Packet} {muid : UInt64} {past : Block} {got : Getresp}
  {locals : Locals} {s : Server} {dcnClients : Map UInt64 Conn} {cli : Conn}

theorem callResult_cases (returns : callResult session muid answer past = some got) :
    mapAt session.cndResponses muid = some true ∧
      ((∃ src, mapAt session.responses muid = some src ∧ got.pack.data = src.data ∧
        got.rcode = if src.fromUid = 0 then .ofServer (Bytes.field 0 4 (src.data ++ past)) else .fromUser) ∨
      (mapAt session.responses muid = none ∧ got.rcode = .undefinedError)) := by
  obtain ⟨waited, waits, rfl⟩ := Option.map_eq_some_iff.mp returns
  unfold waitResponse at waits
  split at waits
  · next ready =>
    cases waits
    refine ⟨ready, ?_⟩
    unfold dcnGetresp
    dsimp only
    cases found : mapAt session.responses muid with
    | none => exact .inr ⟨rfl, rfl⟩
    | some src => exact .inl ⟨src, rfl, rfl, rfl⟩
  · cases waits

theorem answerTo_code : (answerTo locals s dcnClients cli asked).fromUid = 0 ∧
    (answerTo locals s dcnClients cli asked).data =
      intBytes (if asked.fromUid = asked.toUid then 102 else answerCode locals s dcnClients cli asked) := by
  unfold answerTo
  split
  · exact ⟨rfl, rfl⟩
  · exact ⟨rfl, rfl⟩

theorem rcode_answerTo (past : Block) :
    RespCode.ofServer (Bytes.field 0 4 ((answerTo locals s dcnClients cli asked).data ++ past)) = .okStatus ↔
      asked.fromUid ≠ asked.toUid ∧ ¬ Unknown dcnClients asked := by
  rw [answerTo_code.2]
  by_cases own : asked.fromUid = asked.toUid
  · have code := field_intBytes 102 past
    rw [if_pos own, show (102 : Nat) = (102 : UInt32).toNat from rfl, code]
    exact iff_of_false (by decide) fun other => other.1 own
  · by_cases known : Unknown dcnClients asked
    · have code := field_intBytes 101 past
      rw [if_neg own, Routing.answerCode_of_unknown known, show (101 : Nat) = (101 : UInt32).toNat from rfl, code]
      exact iff_of_false (by decide) fun other => other.2 known
    · have code := field_intBytes 200 past
      rw [if_neg own, Routing.answerCode_of_known known, show (200 : Nat) = (200 : UInt32).toNat from rfl, code]
      exact iff_of_true (by decide) ⟨own, known⟩

end Reading

section Calls

variable {uid : UInt64} {events : List PartyEvent} {asked answer : Packet} {past : Block} {got : Getresp}

/-- What a request to somebody else reads is the answer that a handler run on
V's connection gave to it. -/
theorem callResult_answered (few : (Runs.run step (start uid) events).sent.length < 2 ^ 64)
    (sent : asked ∈ (Runs.run step (start uid) events).sent) (other : uid ≠ asked.toUid)
    (returns : callResult (Runs.run step (start uid) events).session asked.muid answer past = some got) :
    got.pack.data.length = 4 ∧ HandledWith uid events asked fun server => ∃ locals cli,
      (got.rcode = .okStatus ↔ ¬ Unknown (register locals (server.popped cli) cli uid) asked) := by
  obtain ⟨guarded, kept⟩ := kept_run uid events
  have from_uid := kept.fromUid asked sent
  obtain ⟨ready, ⟨src, found, data, rcode⟩ | ⟨missing, _⟩⟩ := callResult_cases returns
  · obtain ⟨_, origin, origin_sent, origin_muid, logged⟩ := guarded.responses asked.muid src found
    have same : origin = asked := by
      refine kept.eq_of_muid few origin_sent sent ?_
      rw [origin_muid]
      exact (guarded.responses asked.muid src found).1
    subst same
    obtain ⟨before, cli, locals, ok, after, split, linked, next, stack, here, answered⟩ := answered_at logged
    subst answered
    refine ⟨by rw [data, answerTo_code.2, length_intBytes],
      before, cli, locals, ok, after, split, linked, next, stack, here, ?_⟩
    rw [rcode, if_pos answerTo_code.1, rcode_answerTo, from_uid]
    exact and_iff_right other
  · rcases kept.stored asked.muid ready with there | ⟨self, self_sent, same, own⟩
    · rw [missing] at there
      cases there
    · rw [kept.eq_of_muid few self_sent sent same, from_uid] at own
      exact absurd own other

theorem callResult_own (few : (Runs.run step (start uid) events).sent.length < 2 ^ 64)
    (sent : asked ∈ (Runs.run step (start uid) events).sent) (own : uid = asked.toUid)
    (returns : callResult (Runs.run step (start uid) events).session asked.muid answer past = some got) :
    got.rcode ≠ .okStatus := by
  obtain ⟨guarded, kept⟩ := kept_run uid events
  have from_uid := kept.fromUid asked sent
  obtain ⟨_, ⟨src, found, _, rcode⟩ | ⟨_, undefined⟩⟩ := callResult_cases returns
  · obtain ⟨src_muid, origin, origin_sent, origin_muid, logged⟩ := guarded.responses asked.muid src found
    have same : origin = asked := kept.eq_of_muid few origin_sent sent (origin_muid.trans src_muid)
    subst same
    obtain ⟨_, _, _, _, _, _, _, _, stack, here, answered⟩ := answered_at logged
    subst answered
    rw [rcode, if_pos answerTo_code.1]
    exact fun accepted => ((rcode_answerTo past).mp accepted).1 (from_uid.trans own)
  · rw [undefined]
    decide

theorem unknown_traceroute {dcnClients : Map UInt64 Conn} {pack : Packet} (trace : pack.packtype = .traceroute)
    (server : pack.toUid = 0) : Unknown dcnClients pack ↔ mapAt dcnClients 0 = none := by
  rw [Unknown, server, trace]
  refine and_iff_left ?_
  decide

def answersFor : ServerCall := .tracerouteAns 9 ⟨[0, 0, 0, 0, 0, 0], rfl⟩

def registeredZero : List PartyEvent :=
  [.accept 1 5 "127.0.0.1" 40001, .frame 1 ⟨packetInit [] 0 7 1, by decide⟩, .work 1 .blank fun _ => true,
    .join 2 6 "127.0.0.1" 40002]

def answeredOnce : List PartyEvent :=
  [.deliver, .work 2 .blank fun _ => true, .receive, .message ⟨packetInit [] 0 0 0, ⟨0, 0, 0⟩⟩]

end Calls

end Party

end Dcn
