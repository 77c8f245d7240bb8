import Dcn.Client.Session
import Dcn.Foundation.Runs
import Dcn.Server.Effects

/-! Where the entries of a session's responses come from.

One client, V, is followed among any number of others that send what they like
over their own connections. Its link carries whole blocks both ways. Two
histories are kept beside the state: the packets V put on its write queue, and
the answers dcn_async_worker gave on V's connection, each with the packet it
answers. Every packet without `from_os` that reaches V is such an answer. A run
of dcn_async_worker, a dcn_request and a run of V's handler are one step each;
`Dcn.Isolation` takes them apart.
-/

set_option autoImplicit false

namespace Dcn

def answerTo (locals : Locals) (s : Server) (dcnClients : Map UInt64 Conn) (cli : Conn) (pack : Packet) : Packet :=
  if pack.fromUid = pack.toUid then selfAnswer locals pack
  else codeAnswer pack (answerCode locals s dcnClients cli pack)

structure Party where
  server : Server
  session : Session
  link : Option Conn
  sent : List Packet
  answered : List (Packet × Packet)

/-- A step of the server with the other clients, or of V: it connects, makes a
request, its oldest block arrives, a block of the server arrives, its handler
runs, or wait_response and dcn_getresp take an answer off the session. -/
inductive PartyEvent where
  | accept (cli : Conn) (fd : Int) (ip : String) (port : UInt16)
  | frame (cli : Conn) (pack : SizedPacket)
  | work (cli : Conn) (locals : Locals) (ok : Conn → Bool)
  | epollout (cli : Conn) (aw : WriteResult) (modOk : Bool)
  | disconnect (cli : Conn) (delOk : Bool)
  | join (cli : Conn) (fd : Int) (ip : String) (port : UInt16)
  | request (pack : SizedPacket) (toUid : UInt64)
  | deliver
  | receive
  | message (undecoded : Undecoded)
  | collect (muid : UInt64)

namespace Party

def newAnswers (p : Party) (cli : Conn) (locals : Locals) : List (Packet × Packet) :=
  if p.link = some cli then
    ((p.server.nextPacket locals cli).map fun pack =>
      (pack, answerTo locals (p.server.popped cli) (register locals (p.server.popped cli) cli pack.fromUid)
        cli pack)).toList
  else []

def deliver (p : Party) : Party :=
  match p.link, popBlock p.session.writeq with
  | some cli, (_, some block, writeq) =>
    { p with
      server := serverStep p.server (.frame cli block)
      session := { p.session with writeq := writeq } }
  | _, _ => p

def receive (p : Party) : Party :=
  match p.link with
  | none => p
  | some cli =>
    match (p.server.clients cli).map fun c => popBlock c.writeQ with
    | some (_, some block, writeQ) =>
      { p with
        server := p.server.modify cli fun c => { c with writeQ := writeQ }
        session := { p.session with readq := pushBlock p.session.readq block } }
    | _ => p

/-- Other clients frame and write on connections that are not V's. -/
def step (p : Party) : PartyEvent → Party
  | .accept cli fd ip port => { p with server := serverStep p.server (.accept cli fd ip port) }
  | .frame cli pack =>
    if p.link = some cli then p
    else { p with server := serverStep p.server (.frame cli (packetSerial pack.pack)) }
  | .work cli locals ok => { p with
      server := serverStep p.server (.work cli locals ok)
      answered := p.answered ++ p.newAnswers cli locals }
  | .epollout cli aw modOk =>
    if p.link = some cli then p else { p with server := serverStep p.server (.epollout cli aw modOk) }
  | .disconnect cli delOk => { p with
      server := serverStep p.server (.disconnect cli delOk)
      link := if p.link = some cli then none else p.link }
  | .join cli fd ip port =>
    if p.link = none ∧ p.server.clients cli = none then
      { p with server := serverStep p.server (.accept cli fd ip port), link := some cli }
    else p
  | .request pack toUid =>
    let (packet, session) := dcnRequest p.session pack.pack toUid
    { p with session := session, sent := p.sent ++ [packet] }
  | .deliver => p.deliver
  | .receive => p.receive
  | .message undecoded => { p with session := dcnOnMessage undecoded p.session }
  | .collect muid => { p with session := { p.session with
      responses := mapErase p.session.responses muid
      cndResponses := mapErase p.session.cndResponses muid } }

def start (uid : UInt64) : Party := ⟨dcnServInit, dcnNewSession uid, none, [], []⟩

/-- The packet is the answer that the server gave to a packet which V sent, on
V's connection and under the same muid. -/
def Answers (p : Party) (pack : Packet) : Prop :=
  ∃ asked ∈ p.sent, asked.muid = pack.muid ∧ (asked, pack) ∈ p.answered

def Harmless (p : Party) (block : Block) : Prop :=
  ∃ pack : Packet, pack.Fits ∧ block = packetSerial pack ∧ (pack.fromOs = 0 → p.Answers pack)

def Own (p : Party) (block : Block) : Prop := ∃ pack ∈ p.sent, pack.Fits ∧ block = packetSerial pack

structure Guarded (p : Party) : Prop where
  outgoing : ∀ block ∈ p.session.writeq.blocks, p.Own block
  incoming : ∀ block ∈ p.session.readq.blocks, p.Harmless block
  readable : ∀ cli c, p.server.clients cli = some c → ∀ block ∈ c.readQ.blocks,
    ∃ pack : Packet, pack.Fits ∧ block = packetSerial pack
  link : ∀ cli, p.link = some cli → ∃ c, p.server.clients cli = some c ∧
    (∀ block ∈ c.readQ.blocks, p.Own block) ∧ ∀ block ∈ c.writeQ.blocks, p.Harmless block
  responses : ∀ muid pack, mapAt p.session.responses muid = some pack → pack.muid = muid ∧ p.Answers pack
  waiters : ∀ muid, mapAt p.session.cndResponses muid = some true → ∃ pack, pack.muid = muid ∧ p.Answers pack

def Grows (p q : Party) : Prop := p.sent ⊆ q.sent ∧ p.answered ⊆ q.answered

section Grow

variable {p q : Party}

theorem Answers.grow {pack : Packet} (grows : p.Grows q) (answers : p.Answers pack) : q.Answers pack := by
  obtain ⟨asked, sent, same, answered⟩ := answers
  exact ⟨asked, grows.1 sent, same, grows.2 answered⟩

theorem Harmless.grow {block : Block} (grows : p.Grows q) (harmless : p.Harmless block) : q.Harmless block := by
  obtain ⟨pack, fits, serial, answers⟩ := harmless
  exact ⟨pack, fits, serial, fun zero => (answers zero).grow grows⟩

theorem Own.grow {block : Block} (grows : p.Grows q) (own : p.Own block) : q.Own block := by
  obtain ⟨pack, sent, fits, serial⟩ := own
  exact ⟨pack, grows.1 sent, fits, serial⟩

end Grow

section Answer

variable {locals : Locals} {s : Server} {dcnClients : Map UInt64 Conn} {cli : Conn} {pack : Packet}

theorem muid_answerTo : (answerTo locals s dcnClients cli pack).muid = pack.muid := by
  unfold answerTo
  split <;> rfl

theorem fits_answerTo : (answerTo locals s dcnClients cli pack).Fits := by
  have code : ∀ n, packetGeneralOfs + (intBytes n).length < sizeBound := by
    intro n
    rw [length_intBytes]
    decide
  unfold answerTo
  split
  · exact code 102
  · exact code _

/-- The handler pushes its answer to the sender's connection, and everything
else it pushes has `from_os` set. -/
theorem push_mem_respond {target : Conn} {sent : Packet}
    (member : .push target sent ∈ respond locals s dcnClients cli pack) :
    (target = cli ∧ sent = answerTo locals s dcnClients cli pack) ∨
      (sent.fromOs = 1 ∧ sent.data = pack.data) := by
  by_cases own : pack.fromUid = pack.toUid
  · rw [respond_self own, List.mem_singleton, Effect.push.injEq] at member
    refine .inl ⟨member.1, ?_⟩
    rw [member.2, answerTo, if_pos own]
  · rw [respond_other own, List.mem_cons, List.mem_append, Effect.push.injEq] at member
    rcases member with answer | copy | change
    · refine .inl ⟨answer.1, ?_⟩
      rw [answer.2, answerTo, if_neg own]
    · rcases @sentOn_cases locals s dcnClients cli pack with
        nothing | ⟨toCli, _, _, _, single⟩ | ⟨_, _, broadcast⟩
      · rw [nothing] at copy
        cases copy
      · rw [single] at copy
        obtain ⟨_, _, rfl⟩ := push_mem_unicast.mp copy
        exact .inr ⟨rfl, rfl⟩
      · rw [broadcast] at copy
        obtain ⟨key, _, _, rfl⟩ := push_mem_broadcastLoop.mp copy
        exact .inr ⟨rfl, rfl⟩
    · rw [List.mem_singleton] at change
      cases change

end Answer

section ServerSteps

variable {p : Party}

theorem Guarded.withServer (guarded : p.Guarded) (s : Server)
    (readable : ∀ cli c, s.clients cli = some c → ∀ block ∈ c.readQ.blocks,
      ∃ pack : Packet, pack.Fits ∧ block = packetSerial pack)
    (link : ∀ cli, p.link = some cli → ∃ c, s.clients cli = some c ∧
      (∀ block ∈ c.readQ.blocks, p.Own block) ∧ ∀ block ∈ c.writeQ.blocks, p.Harmless block) :
    Guarded { p with server := s } :=
  ⟨guarded.outgoing, guarded.incoming, readable, link, guarded.responses, guarded.waiters⟩

theorem Guarded.withOther (guarded : p.Guarded) {cli : Conn} (f : Client → Client) (notV : p.link ≠ some cli)
    (readable : ∀ c, p.server.clients cli = some c → ∀ block ∈ (f c).readQ.blocks,
      ∃ pack : Packet, pack.Fits ∧ block = packetSerial pack) :
    Guarded { p with server := p.server.modify cli f } := by
  refine guarded.withServer _ (fun other d present => ?_) (fun other linked => ?_)
  · by_cases same : other = cli
    · subst same
      rw [Server.clients_modify_self] at present
      obtain ⟨c, before, rfl⟩ := Option.map_eq_some_iff.mp present
      exact readable c before
    · rw [Server.clients_modify_of_ne _ _ _ same] at present
      exact guarded.readable other d present
  · have differ : other ≠ cli := by
      intro same
      exact notV (same ▸ linked)
    rw [Server.clients_modify_of_ne _ _ _ differ]
    exact guarded.link other linked

theorem clients_accept_of_open {s : Server} {cli other : Conn} {c : Client} {fd : Int} {ip : String}
    {port : UInt16} (present : s.clients cli = some c) :
    (serverStep s (.accept other fd ip port)).clients cli = some c := by
  simp only [serverStep]
  split
  · exact present
  · next free =>
    have differ : cli ≠ other := by
      intro same
      subst same
      simp [present] at free
    simpa [differ] using present

theorem clients_disconnect_of_ne {s : Server} {cli other : Conn} {c : Client} {delOk : Bool}
    (present : s.clients other = some c) (differ : other ≠ cli) :
    (serverStep s (.disconnect cli delOk)).clients other = some c := by
  simp only [serverStep, closeClient]
  split
  · cases delOk <;> simpa [differ] using present
  · exact present

theorem guarded_accept (guarded : p.Guarded) (cli : Conn) (fd : Int) (ip : String) (port : UInt16) :
    (p.step (.accept cli fd ip port)).Guarded := by
  refine guarded.withServer _ (fun other c present => ?_) (fun other linked => ?_)
  · rcases Server.clients_accept present with before | ⟨_, fresh⟩
    · exact guarded.readable other c before
    · subst fresh
      intro block member
      cases member
  · obtain ⟨c, present, queues⟩ := guarded.link other linked
    exact ⟨c, clients_accept_of_open present, queues⟩

theorem guarded_frame (guarded : p.Guarded) (cli : Conn) (pack : SizedPacket) :
    (p.step (.frame cli pack)).Guarded := by
  simp only [step]
  split
  · exact guarded
  · next notV =>
    refine guarded.withOther _ notV fun c present block member => ?_
    rcases List.mem_append.mp member with before | new
    · exact guarded.readable cli c present block before
    · exact ⟨pack.pack, pack.fits, List.mem_singleton.mp new⟩

theorem guarded_epollout (guarded : p.Guarded) (cli : Conn) (aw : WriteResult) (modOk : Bool) :
    (p.step (.epollout cli aw modOk)).Guarded := by
  simp only [step]
  split
  · exact guarded
  · next notV =>
    refine guarded.withOther _ notV fun c present block member => ?_
    rw [readQ_runServerEpollout] at member
    exact guarded.readable cli c present block member

theorem guarded_disconnect (guarded : p.Guarded) (cli : Conn) (delOk : Bool) :
    (p.step (.disconnect cli delOk)).Guarded := by
  have server : Guarded { p with
      server := serverStep p.server (.disconnect cli delOk)
      link := if p.link = some cli then none else p.link } := by
    refine ⟨guarded.outgoing, guarded.incoming, fun other c present => ?_, fun other linked => ?_,
      guarded.responses, guarded.waiters⟩
    · exact guarded.readable other c (Server.clients_disconnect present)
    · dsimp only at linked
      split at linked
      · cases linked
      · next notV =>
        have differ : other ≠ cli := by
          intro same
          exact notV (same ▸ linked)
        obtain ⟨c, present, queues⟩ := guarded.link other linked
        exact ⟨c, clients_disconnect_of_ne present differ, queues⟩
  exact server

theorem guarded_join (guarded : p.Guarded) (cli : Conn) (fd : Int) (ip : String) (port : UInt16) :
    (p.step (.join cli fd ip port)).Guarded := by
  simp only [step]
  split
  · next free =>
    have accepted := guarded_accept guarded cli fd ip port
    refine ⟨accepted.outgoing, accepted.incoming, accepted.readable, fun other linked => ?_,
      accepted.responses, accepted.waiters⟩
    -- The connection V has just made has empty queues.
    cases linked
    refine ⟨acceptClient fd ip port, by simp [serverStep, free.2], ?_, ?_⟩
    · intro block member
      cases member
    · intro block member
      cases member
  · exact guarded

theorem nextPacket_readable (guarded : p.Guarded) {locals : Locals} {cli : Conn} {pack : Packet}
    (next : p.server.nextPacket locals cli = some pack) :
    ∃ c, p.server.clients cli = some c ∧ pack.Fits ∧ packetSerial pack ∈ c.readQ.blocks := by
  obtain ⟨c, block, present, member, decoded⟩ := Server.block_of_nextPacket next
  obtain ⟨sent, fits, serial⟩ := guarded.readable cli c present block member
  rw [serial, fits.deserial_serial, Option.getD_some] at decoded
  subst decoded
  exact ⟨c, present, fits, serial ▸ member⟩

theorem clients_work {s : Server} {locals : Locals} {cli : Conn} {pack : Packet} (ok : Conn → Bool)
    (next : s.nextPacket locals cli = some pack) (other : Conn) :
    (serverStep s (.work cli locals ok)).clients other = ((s.popped cli).clients other).map fun c =>
      (respond locals (s.popped cli) (register locals (s.popped cli) cli pack.fromUid) cli pack).foldl
        (Effect.apply ok other) c := by
  simp only [serverStep, Server.dcnAsyncWorker_some ok next, handlePacket, Server.clients_foldl_perform]

theorem sent_of_nextPacket (guarded : p.Guarded) {locals : Locals} {cli : Conn} {pack : Packet}
    (linked : p.link = some cli) (next : p.server.nextPacket locals cli = some pack) : pack ∈ p.sent := by
  obtain ⟨c, present, reads, _⟩ := guarded.link cli linked
  obtain ⟨d, asked_on, fits, queued⟩ := nextPacket_readable guarded next
  rw [present, Option.some.injEq] at asked_on
  subst asked_on
  obtain ⟨asked, sent, asked_fits, serial⟩ := reads _ queued
  have decoded := congrArg packetDeserial serial
  rw [fits.deserial_serial, asked_fits.deserial_serial, Option.some.injEq] at decoded
  exact decoded ▸ sent

/-- What a handler run pushes to V's connection is the answer to a packet of V,
which is then logged, or has `from_os` set. -/
theorem harmless_pushed (guarded : p.Guarded) {cli other : Conn} {locals : Locals} (ok : Conn → Bool)
    {pack pushed : Packet} (next : p.server.nextPacket locals cli = some pack) (linked : p.link = some other)
    (effect : .push other pushed ∈ respond locals (p.server.popped cli)
      (register locals (p.server.popped cli) cli pack.fromUid) cli pack) :
    (p.step (.work cli locals ok)).Harmless (packetSerial pushed) := by
  rcases push_mem_respond effect with ⟨here, answer⟩ | ⟨copy, data⟩
  · subst here
    have log : p.newAnswers other locals = [(pack, pushed)] := by
      rw [newAnswers, if_pos linked, next, answer]
      rfl
    refine ⟨pushed, answer ▸ fits_answerTo, rfl, fun _ => ⟨pack, sent_of_nextPacket guarded linked next, ?_, ?_⟩⟩
    · rw [answer, muid_answerTo]
    · simp [step, log]
  · obtain ⟨_, _, fits, _⟩ := nextPacket_readable guarded next
    have copy_fits : pushed.Fits := by
      unfold Packet.Fits
      rw [data]
      exact fits
    refine ⟨pushed, copy_fits, rfl, fun zero => ?_⟩
    rw [copy] at zero
    cases zero

theorem guarded_work (guarded : p.Guarded) (cli : Conn) (locals : Locals) (ok : Conn → Bool) :
    (p.step (.work cli locals ok)).Guarded := by
  have grows : p.Grows (p.step (.work cli locals ok)) := ⟨fun _ member => member, List.subset_append_left _ _⟩
  have unchanged : ∀ muid pack, mapAt p.session.responses muid = some pack →
      pack.muid = muid ∧ (p.step (.work cli locals ok)).Answers pack := by
    intro muid pack found
    obtain ⟨same, answers⟩ := guarded.responses muid pack found
    exact ⟨same, answers.grow grows⟩
  have woken : ∀ muid, mapAt p.session.cndResponses muid = some true →
      ∃ pack, pack.muid = muid ∧ (p.step (.work cli locals ok)).Answers pack := by
    intro muid found
    obtain ⟨pack, same, answers⟩ := guarded.waiters muid found
    exact ⟨pack, same, answers.grow grows⟩
  refine ⟨fun block member => (guarded.outgoing block member).grow grows,
    fun block member => (guarded.incoming block member).grow grows, ?_, ?_, unchanged, woken⟩
  · intro other d present block member
    cases next : p.server.nextPacket locals cli with
    | none =>
      simp only [step, serverStep, Server.dcnAsyncWorker_none ok next] at present
      exact guarded.readable other d present block member
    | some pack =>
      simp only [step, clients_work ok next] at present
      obtain ⟨e, popped, rfl⟩ := Option.map_eq_some_iff.mp present
      rw [Effect.readQ_foldl_apply] at member
      obtain ⟨c, before, _, kept⟩ := Server.readQ_popped popped
      exact guarded.readable other c before block (kept block member)
  · intro other linked
    obtain ⟨c, present, reads, writes⟩ := guarded.link other linked
    cases next : p.server.nextPacket locals cli with
    | none =>
      refine ⟨c, by simpa only [step, serverStep, Server.dcnAsyncWorker_none ok next] using present, ?_, ?_⟩
      · exact fun block member => (reads block member).grow grows
      · exact fun block member => (writes block member).grow grows
    | some pack =>
      obtain ⟨d, popped⟩ : ∃ d, (p.server.popped cli).clients other = some d := by
        have still : ((p.server.popped cli).clients other).isSome := by
          rw [Server.popped, Server.isSome_clients_modify, present]
          rfl
        exact Option.isSome_iff_exists.mp still
      obtain ⟨e, before, same, kept⟩ := Server.readQ_popped popped
      rw [present, Option.some.injEq] at before
      subst before
      refine ⟨_, by rw [step, clients_work ok next, popped, Option.map_some], ?_, ?_⟩
      · intro block member
        rw [Effect.readQ_foldl_apply] at member
        exact (reads block (kept block member)).grow grows
      · intro block member
        rw [Effect.blocks_foldl_apply, same] at member
        rcases List.mem_append.mp member with old | new
        · exact (writes block old).grow grows
        · obtain ⟨pushed, listed, rfl⟩ := List.mem_map.mp new
          obtain ⟨effect, in_effects, target⟩ := List.mem_filterMap.mp listed
          rw [Effect.packetTo_eq_some.mp target] at in_effects
          exact harmless_pushed guarded ok next linked in_effects

end ServerSteps

section ClientSteps

variable {p : Party}

theorem guarded_request (guarded : p.Guarded) (pack : SizedPacket) (toUid : UInt64) :
    (p.step (.request pack toUid)).Guarded := by
  have grows : p.Grows (p.step (.request pack toUid)) := ⟨List.subset_append_left _ _, fun _ member => member⟩
  refine ⟨fun block member => ?_, fun block member => (guarded.incoming block member).grow grows,
    guarded.readable, fun other linked => ?_, fun muid found_pack found => ?_, fun muid found => ?_⟩
  · rcases List.mem_append.mp member with before | new
    · exact (guarded.outgoing block before).grow grows
    · rw [List.mem_singleton] at new
      exact ⟨_, List.mem_append_right _ (List.mem_singleton_self _), pack.fits, new⟩
  · obtain ⟨c, present, reads, writes⟩ := guarded.link other linked
    exact ⟨c, present, fun block member => (reads block member).grow grows,
      fun block member => (writes block member).grow grows⟩
  · obtain ⟨same, answers⟩ := guarded.responses muid found_pack found
    exact ⟨same, answers.grow grows⟩
  · -- The waiter a request registers is not ready.
    simp only [step, dcnRequest, Map.mapAt_mapSet] at found
    split at found
    · cases found
    · obtain ⟨answer, same, answers⟩ := guarded.waiters muid found
      exact ⟨answer, same, answers.grow grows⟩

theorem guarded_deliver (guarded : p.Guarded) : p.deliver.Guarded := by
  unfold deliver
  split
  · next cli _ block writeq linked popped =>
    cases shape : p.session.writeq.blocks with
    | nil => simp [popBlock_nil shape] at popped
    | cons oldest rest =>
      simp only [popBlock_cons shape, Prod.mk.injEq, Option.some.injEq] at popped
      obtain ⟨_, rfl, rfl⟩ := popped
      have own : p.Own oldest := guarded.outgoing oldest (shape ▸ List.mem_cons_self)
      refine ⟨fun b member => guarded.outgoing b (shape ▸ List.mem_cons_of_mem oldest member),
        guarded.incoming, fun other d present b member => ?_, fun other same => ?_,
        guarded.responses, guarded.waiters⟩
      · obtain ⟨c, before, rfl | rfl⟩ := Server.clients_modify_cases _ _ _ present
        · rcases List.mem_append.mp member with old | new
          · exact guarded.readable other c before b old
          · obtain ⟨pack, _, fits, serial⟩ := own
            exact ⟨pack, fits, (List.mem_singleton.mp new).trans serial⟩
        · exact guarded.readable other d before b member
      · dsimp only at same
        rw [linked, Option.some.injEq] at same
        subst same
        obtain ⟨c, present, reads, writes⟩ := guarded.link cli linked
        refine ⟨{ c with readQ := pushBlock c.readQ oldest, tasks := c.tasks + 1 }, ?_, fun b member => ?_, writes⟩
        · simp only [serverStep, Server.clients_modify_self, present, Option.map_some]
        · rcases List.mem_append.mp member with old | new
          · exact reads b old
          · exact List.mem_singleton.mp new ▸ own
  · exact guarded

theorem guarded_receive (guarded : p.Guarded) : p.receive.Guarded := by
  unfold receive
  split
  · exact guarded
  · next cli linked =>
    obtain ⟨c, present, reads, writes⟩ := guarded.link cli linked
    rw [present, Option.map_some]
    cases shape : c.writeQ.blocks with
    | nil =>
      rw [popBlock_nil shape]
      exact guarded
    | cons oldest rest =>
      rw [popBlock_cons shape]
      have harmless : p.Harmless oldest := writes oldest (shape ▸ List.mem_cons_self)
      refine ⟨guarded.outgoing, fun b member => ?_, fun other d present' b member => ?_, fun other same => ?_,
        guarded.responses, guarded.waiters⟩
      · rcases List.mem_append.mp member with old | new
        · exact guarded.incoming b old
        · exact List.mem_singleton.mp new ▸ harmless
      · obtain ⟨e, before, rfl | rfl⟩ := Server.clients_modify_cases _ _ _ present'
        · exact guarded.readable other e before b member
        · exact guarded.readable other d before b member
      · dsimp only at same
        rw [linked, Option.some.injEq] at same
        subst same
        refine ⟨{ c with writeQ := ⟨rest⟩ }, ?_, reads, fun b member => ?_⟩
        · simp only [Server.clients_modify_self, present, Option.map_some]
        · exact writes b (shape ▸ List.mem_cons_of_mem oldest member)

theorem mapAt_cndResponses_wakeAnswered {session : Session} {muid other : UInt64}
    (ready : mapAt (wakeAnswered session muid).cndResponses other = some true) :
    other = muid ∨ mapAt session.cndResponses other = some true := by
  rw [wakeAnswered_eq] at ready
  dsimp only at ready
  split at ready
  · rw [Map.mapAt_mapSet] at ready
    split at ready
    · next same => exact .inl same
    · exact .inr ready
  · exact .inr ready

/-- The handler changes the responses and makes a waiter ready only for a
packet without `from_os`, under its number. -/
theorem onPacket_entries (undecoded : Undecoded) (session : Session) (pack : Packet) :
    (∀ muid stored, mapAt (onPacket undecoded session pack).responses muid = some stored →
      mapAt session.responses muid = some stored ∨ (pack.fromOs = 0 ∧ muid = pack.muid ∧ stored = pack)) ∧
    (∀ muid, mapAt (onPacket undecoded session pack).cndResponses muid = some true →
      mapAt session.cndResponses muid = some true ∨ (pack.fromOs = 0 ∧ muid = pack.muid)) := by
  rcases onPacket_cases undecoded session pack with
    ⟨_, result⟩ | ⟨_, _, result⟩ | ⟨_, server, _, ⟨_, result⟩ | result⟩ | ⟨_, server, _, result⟩
  · rw [result]
    exact ⟨fun _ _ found => .inl found, fun _ found => .inl found⟩
  · rw [result]
    exact ⟨fun _ _ found => .inl found, fun _ found => .inl found⟩
  · rw [result]
    exact ⟨fun _ _ found => .inl found, fun _ found => .inl found⟩
  · rw [result]
    refine ⟨fun muid stored found => .inl ?_, fun muid ready => ?_⟩
    · rwa [wakeAnswered_eq] at found
    · rcases mapAt_cndResponses_wakeAnswered ready with same | before
      · exact .inr ⟨server, same⟩
      · exact .inl before
  · rw [result]
    refine ⟨fun muid stored found => ?_, fun muid ready => ?_⟩
    · rw [wakeAnswered_eq, Map.mapAt_mapSet] at found
      split at found
      · next same => exact .inr ⟨server, same, (Option.some.inj found).symm⟩
      · exact .inl found
    · rcases mapAt_cndResponses_wakeAnswered ready with same | before
      · exact .inr ⟨server, same⟩
      · exact .inl before

theorem onPacket_queues (undecoded : Undecoded) (session : Session) (pack : Packet) :
    (onPacket undecoded session pack).writeq = session.writeq ∧
      (onPacket undecoded session pack).readq = session.readq := by
  rcases onPacket_cases undecoded session pack with
    ⟨_, result⟩ | ⟨_, _, result⟩ | ⟨_, _, _, ⟨_, result⟩ | result⟩ | ⟨_, _, _, result⟩
  · rw [result]
    exact ⟨rfl, rfl⟩
  · rw [result]
    exact ⟨rfl, rfl⟩
  · rw [result]
    exact ⟨rfl, rfl⟩
  · rw [result, wakeAnswered_eq]
    exact ⟨rfl, rfl⟩
  · rw [result, wakeAnswered_eq]
    exact ⟨rfl, rfl⟩

theorem guarded_message (guarded : p.Guarded) (undecoded : Undecoded) :
    (p.step (.message undecoded)).Guarded := by
  simp only [step, dcnOnMessage]
  cases shape : p.session.readq.blocks with
  | nil =>
    rw [popBlock_nil shape]
    exact guarded
  | cons oldest rest =>
    rw [popBlock_cons shape]
    dsimp only
    obtain ⟨pack, fits, serial, answers⟩ := guarded.incoming oldest (shape ▸ List.mem_cons_self)
    rw [serial, fits.deserial_serial, Option.getD_some]
    obtain ⟨stored, ready⟩ := onPacket_entries undecoded { p.session with readq := ⟨rest⟩ } pack
    obtain ⟨writeq, readq⟩ := onPacket_queues undecoded { p.session with readq := ⟨rest⟩ } pack
    refine ⟨fun block member => ?_, fun block member => ?_, guarded.readable, guarded.link,
      fun muid found_pack found => ?_, fun muid found => ?_⟩
    · rw [writeq] at member
      exact guarded.outgoing block member
    · rw [readq] at member
      exact guarded.incoming block (shape ▸ List.mem_cons_of_mem oldest member)
    · rcases stored muid found_pack found with before | ⟨server, rfl, rfl⟩
      · exact guarded.responses muid found_pack before
      · exact ⟨rfl, answers server⟩
    · rcases ready muid found with before | ⟨server, rfl⟩
      · exact guarded.waiters muid before
      · exact ⟨pack, rfl, answers server⟩

theorem guarded_collect (guarded : p.Guarded) (muid : UInt64) : (p.step (.collect muid)).Guarded := by
  refine ⟨guarded.outgoing, guarded.incoming, guarded.readable, guarded.link, fun other pack found => ?_,
    fun other found => ?_⟩
  · refine guarded.responses other pack ?_
    rw [Map.mapAt_eq_some_iff] at found ⊢
    exact (Map.eraseEntries_sublist muid _).subset found
  · refine guarded.waiters other ?_
    rw [Map.mapAt_eq_some_iff] at found ⊢
    exact (Map.eraseEntries_sublist muid _).subset found

end ClientSteps

theorem guarded_step (p : Party) (event : PartyEvent) (guarded : p.Guarded) : (p.step event).Guarded := by
  cases event with
  | accept cli fd ip port => exact guarded_accept guarded cli fd ip port
  | frame cli pack => exact guarded_frame guarded cli pack
  | work cli locals ok => exact guarded_work guarded cli locals ok
  | epollout cli aw modOk => exact guarded_epollout guarded cli aw modOk
  | disconnect cli delOk => exact guarded_disconnect guarded cli delOk
  | join cli fd ip port => exact guarded_join guarded cli fd ip port
  | request pack toUid => exact guarded_request guarded pack toUid
  | deliver => exact guarded_deliver guarded
  | receive => exact guarded_receive guarded
  | message undecoded => exact guarded_message guarded undecoded
  | collect muid => exact guarded_collect guarded muid

theorem guarded_start (uid : UInt64) : (start uid).Guarded := by
  refine ⟨fun _ member => ?_, fun _ member => ?_, fun _ _ present => ?_, fun _ linked => ?_,
    fun _ _ found => ?_, fun _ found => ?_⟩
  · cases member
  · cases member
  · cases present
  · cases linked
  · cases found
  · cases found

end Party

end Dcn
