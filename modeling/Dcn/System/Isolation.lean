import Dcn.Client.Accepting
import Dcn.Server.Dangling

/-! The session of one client beside others that send what they like (server.c,
dnet/client.c).

The server's event loop, its workers and the calls and handler runs of the
session take steps in any order; the others accept, frame, disconnect and are
answered as they like. A handler goes on with the address of its connection when
that is closed, and an address is given to a new connection. Which handler runs
have a packet of the client, and what these answered, are kept as histories.
-/

set_option autoImplicit false

namespace Dcn

def LookupPc.answering : LookupPc → Bool
  | .session | .shadow | .shadowTest _ | .shadowIp _ | .shadowPort _ | .store | .route | .answer _ => true
  | _ => false

def LookupPc.effects : LookupPc → List Effect
  | .copy _ _ effects => effects
  | _ => []

/-- The server, the session of the client V, the connection that V has, those that
were accepted for V and are not closed, the workers with a packet of V, and the
answers to V's packets. -/
structure Isolation (ω τ η : Type) where
  relay : Lookups ω
  session : Requests τ η
  link : Option Conn
  own : Conn → Bool
  owns : ω → Bool
  answered : List (Packet × Packet)

/-- A step of the server with the other clients, or of V: it connects, drops its
connection, its oldest block arrives, a block of the server arrives, a call of
dcn_request or a handler run is at its next step, or dcn_getresp takes an answer. -/
inductive IsolationEvent (ω τ η : Type) where
  | accept (cli : Conn) (fd : Int) (ip : String) (port : UInt16)
  | frame (cli : Conn) (pack : SizedPacket)
  | epollout (cli : Conn) (aw : WriteResult) (modOk : Bool)
  | find (cli : Conn)
  | erase (delOk : Bool)
  | pop (t : ω) (cli : Conn) (locals : Locals)
  | work (t : ω) (locals : Locals) (ok : Conn → Bool) (moved : Moved)
  | join (cli : Conn) (fd : Int) (ip : String) (port : UInt16)
  | drop
  | deliver
  | receive
  | call (c : τ) (packet : SizedPacket) (toUid : UInt64)
  | advance (c : τ) (moved : Moved)
  | take (h : η) (undecoded : Undecoded)
  | handle (h : η)
  | collect (muid : UInt64)

namespace Isolation

variable {ω τ η : Type} [DecidableEq ω] [DecidableEq τ] [DecidableEq η]

def start (ω τ η : Type) (uid : UInt64) : Isolation ω τ η where
  relay := .init ω
  session := .start τ η uid
  link := none
  own _ := false
  owns _ := false
  answered := []

def newAnswers (s : Isolation ω τ η) (t : ω) (locals : Locals) : List (Packet × Packet) :=
  match s.relay.worker t with
  | some ⟨_, pack, .answer exit⟩ => if s.owns t then [(pack, exit.pack locals pack)] else []
  | _ => []

def closes (s : Isolation ω τ η) (delOk : Bool) (cli : Conn) : Bool :=
  delOk && decide (s.relay.disconnecting.map Prod.fst = some cli)

def deliver (s : Isolation ω τ η) : Isolation ω τ η :=
  match s.link, popBlock s.session.writeq with
  | some cli, (_, some block, _) =>
    if s.relay.disconnecting = none then
      { s with relay := s.relay.loop (.frame cli block), session := s.session.send }
    else s
  | _, _ => s

def receive (s : Isolation ω τ η) : Isolation ω τ η :=
  match s.link with
  | none => s
  | some cli =>
    match (s.relay.server.clients cli).map fun c => popBlock c.writeQ with
    | some (_, some block, writeQ) => { s with
        relay := { s.relay with server := s.relay.server.modify cli fun c => { c with writeQ := writeQ } }
        session := { s.session with arrived := s.session.arrived ++ (packetDeserial block).toList } }
    | _ => s

/-- Other clients frame on connections that are not V's, and write on those that
are not V's link. -/
def step (s : Isolation ω τ η) : IsolationEvent ω τ η → Isolation ω τ η
  | .accept cli fd ip port => { s with relay := s.relay.loop (.accept cli fd ip port) }
  | .frame cli pack => if s.own cli then s else { s with relay := s.relay.loop (.frame cli (packetSerial pack.pack)) }
  | .epollout cli aw modOk => if s.link = some cli then s else { s with relay := s.relay.loop (.epollout cli aw modOk) }
  | .find cli => { s with relay := s.relay.find cli }
  | .erase delOk => { s with
      relay := s.relay.erase delOk
      link := s.link.filter fun cli => !s.closes delOk cli
      own := fun cli => s.own cli && !s.closes delOk cli }
  | .pop t cli locals => { s with
      relay := s.relay.pop t cli locals
      owns := if s.relay.worker t = none then Function.update s.owns t (s.own cli) else s.owns }
  | .work t locals ok moved => { s with
      relay := s.relay.work t locals ok moved
      answered := s.answered ++ s.newAnswers t locals }
  | .join cli fd ip port =>
    if s.link = none ∧ s.relay.disconnecting = none ∧ s.relay.server.clients cli = none then { s with
      relay := s.relay.loop (.accept cli fd ip port)
      link := some cli
      own := Function.update s.own cli true }
    else s
  | .drop => { s with link := none }
  | .deliver => s.deliver
  | .receive => s.receive
  | .call c packet toUid => { s with session := s.session.step (.call c packet.pack toUid) }
  | .advance c moved => { s with session := s.session.advance c moved }
  | .take h undecoded => { s with session := s.session.step (.pop h undecoded) }
  | .handle h => { s with session := s.session.handle h }
  | .collect muid => { s with session := { s.session with responses := mapErase s.session.responses muid } }

/-- The packet is the answer that a handler run gave to a packet which V sent on
its own connection under the same muid. -/
def Answers (s : Isolation ω τ η) (pack : Packet) : Prop :=
  ∃ asked ∈ s.session.sent, asked.muid = pack.muid ∧ (asked, pack) ∈ s.answered

/-- V's responses are answers of the server to V's own packets, and a waiter of V
was set by such an answer to a packet of its call's number. -/
structure Genuine (s : Isolation ω τ η) : Prop where
  responses : ∀ muid pack, mapAt s.session.responses muid = some pack → pack.muid = muid ∧ s.Answers pack
  waiters : ∀ c, s.session.wasSet c = true →
    ∃ packet pack, (c, packet) ∈ s.session.pushed ∧ packet.muid = pack.muid ∧ s.Answers pack

/-- V is accepted where no handler run is to push an answer under V's UID to a
packet that is not V's; and no step follows an address or a pointer to what was
given back. -/
def Apart (s : Isolation ω τ η) : IsolationEvent ω τ η → Prop
  | .join cli _ _ _ => ∀ t, ∀ h ∈ s.relay.worker t, h.cli = cli → h.pc.answering = true →
      h.pack.fromUid = s.session.cliUid → s.owns t = true
  | .erase delOk => s.relay.Safe (.erase delOk)
  | .pop _ cli _ => (s.relay.server.clients cli).isSome
  | .work t locals ok moved => s.relay.Safe (.work t locals ok moved) ∧
      ∀ h ∈ s.relay.worker t, ∀ c ∈ s.relay.reads h, (s.relay.server.clients c).isSome
  | .handle h => ∀ pack ptr, s.session.handlers h = .set pack ptr → ptr.array = s.session.cndArrays.values
  | _ => True

def Harmless (s : Isolation ω τ η) (block : Block) : Prop :=
  ∃ pack : Packet, pack.Fits ∧ block = packetSerial pack ∧
    (pack.fromOs = 0 → pack.toUid = s.session.cliUid → s.Answers pack)

/-- What holds of a handler run: one that is to answer on V's link under V's UID
has a packet that V sent, and what else it pushes has from_os set. -/
structure Tame (s : Isolation ω τ η) (t : ω) (h : LookupRun) : Prop where
  fits : h.pack.Fits
  sent : s.owns t = true → h.pack ∈ s.session.sent
  strays : h.pc.answering = true → s.link = some h.cli → h.pack.fromUid = s.session.cliUid → s.owns t = true
  copies : ∀ target pack, .push target pack ∈ h.pc.effects → pack.fromOs = 1 ∧ pack.Fits

structure Carries (s : Isolation ω τ η) (cli : Conn) (c : Client) : Prop where
  reads : ∀ block ∈ c.readQ.blocks, ∃ pack : Packet, pack.Fits ∧ block = packetSerial pack ∧
    (s.own cli = true → pack ∈ s.session.sent)
  writes : s.link = some cli → ∀ block ∈ c.writeQ.blocks, s.Harmless block

structure Guarded (s : Isolation ω τ η) : Prop where
  session : s.session.Accepts s.Answers
  clients : ∀ cli c, s.relay.server.clients cli = some c → s.Carries cli c
  own : ∀ cli, s.own cli = true → (s.relay.server.clients cli).isSome
  link : ∀ cli, s.link = some cli → s.own cli = true
  workers : ∀ t h, s.relay.worker t = some h → s.Tame t h

section Relays

variable {r : Lookups ω} {t : ω} {h : LookupRun} {locals : Locals} {ok : Conn → Bool} {moved : Moved}

theorem answer_spec (locals : Locals) (pack : Packet) (exit : LookupExit) :
    (exit.pack locals pack).muid = pack.muid ∧ (exit.pack locals pack).toUid = pack.fromUid ∧
      (exit.pack locals pack).Fits := by
  have code : ∀ n, packetGeneralOfs + (intBytes n).length < sizeBound := by
    intro n
    rw [length_intBytes]
    decide
  cases exit <;> exact ⟨rfl, rfl, code _⟩

inductive Pushes (locals : Locals) (h : LookupRun) : Conn → Packet → Prop where
  | answer (exit : LookupExit) (place : h.pc = .answer exit) : Pushes locals h h.cli (exit.pack locals h.pack)
  | copy (target : Conn) (pack : Packet) (user : pack.fromOs = 1) (data : pack.data = h.pack.data) :
    Pushes locals h target pack
  | made (target : Conn) (pack : Packet) (listed : .push target pack ∈ h.pc.effects) : Pushes locals h target pack

structure Relays (r next : Lookups ω) (t : ω) (h : LookupRun) (locals : Locals) (ok : Conn → Bool) : Prop where
  clients : ∃ effects : List Effect, (∀ c, next.server.clients c =
      (r.server.clients c).map fun client => effects.foldl (Effect.apply ok c) client) ∧
    ∀ target pack, .push target pack ∈ effects → Pushes locals h target pack
  worker : ∀ after, next.worker t = some after → after.cli = h.cli ∧ after.pack = h.pack ∧
    (after.pc.answering = true → h.pc.answering = true) ∧
    ∀ target pack, .push target pack ∈ after.pc.effects →
      .push target pack ∈ h.pc.effects ∨ pack.fromOs = 1 ∧ pack.data = h.pack.data

theorem relays_goto {between : Lookups ω} {pc : LookupPc} (clients : between.server.clients = r.server.clients)
    (answering : pc.answering = true → h.pc.answering = true) (effects : pc.effects = []) :
    Relays r (between.goto t h pc) t h locals ok := by
  refine ⟨⟨[], fun c => ?_, fun _ _ listed => by cases listed⟩, fun after there => ?_⟩
  · simp only [List.foldl_nil, Option.map_id']
    exact congrFun clients c
  · rw [Lookups.worker_goto, Function.update_self, Option.some.injEq] at there
    subst there
    refine ⟨rfl, rfl, answering, fun target pack listed => ?_⟩
    rw [effects] at listed
    cases listed

theorem relays_perform {between : Lookups ω} {pc : LookupPc} {effect : Effect}
    (server : between.server = r.server.perform ok effect)
    (pushes : ∀ target pack, effect = .push target pack → Pushes locals h target pack)
    (answering : pc.answering = true → h.pc.answering = true) (kept : ∀ e ∈ pc.effects, e ∈ h.pc.effects) :
    Relays r (between.goto t h pc) t h locals ok := by
  refine ⟨⟨[effect], fun c => ?_, fun target pack listed => ?_⟩, fun after there => ?_⟩
  · exact (congrArg (Server.clients · c) server).trans (Server.clients_perform r.server effect)
  · exact pushes target pack (List.mem_singleton.mp listed).symm
  · rw [Lookups.worker_goto, Function.update_self, Option.some.injEq] at there
    subst there
    exact ⟨rfl, rfl, answering, fun target pack listed => .inl (kept _ listed)⟩

theorem relays_leave {between : Lookups ω} {effect : Effect} (server : between.server = r.server.perform ok effect)
    (pushes : ∀ target pack, effect = .push target pack → Pushes locals h target pack) :
    Relays r (between.leave t) t h locals ok := by
  refine ⟨⟨[effect], fun c => ?_, fun target pack listed => ?_⟩, fun after there => ?_⟩
  · exact (congrArg (Server.clients · c) server).trans (Server.clients_perform r.server effect)
  · exact pushes target pack (List.mem_singleton.mp listed).symm
  · rw [Lookups.worker_leave, Function.update_self] at there
    cases there

theorem relays_through (here : r.worker t = some h) {ptr : SlotPtr} {next : Conn → LookupPc}
    (answering : ∀ cli, (next cli).answering = true → h.pc.answering = true) (effects : ∀ cli, ∀ target pack,
      .push target pack ∈ (next cli).effects → pack.fromOs = 1 ∧ pack.data = h.pack.data) :
    Relays r (r.through t h ptr next) t h locals ok := by
  unfold Lookups.through
  cases r.arrays.value r.server.dcnClients ptr with
  | none =>
    refine ⟨⟨[], fun c => by simp, fun _ _ listed => by cases listed⟩, fun after there => ?_⟩
    cases here.symm.trans there
    exact ⟨rfl, rfl, id, fun target pack => .inl⟩
  | some cli =>
    refine ⟨⟨[], fun c => ?_, fun _ _ listed => by cases listed⟩, fun after there => ?_⟩
    · simp only [List.foldl_nil, Option.map_id']
      rfl
    · rw [Lookups.worker_goto, Function.update_self, Option.some.injEq] at there
      subst there
      exact ⟨rfl, rfl, answering cli, fun target pack listed => .inr (effects cli target pack listed)⟩

omit [DecidableEq ω] in
theorem user_broadcastTo {server : Server} {cli toCli target : Conn} {asked pack : Packet} {key : UInt64}
    (member : .push target pack ∈ broadcastTo locals server cli asked key toCli) :
    pack.fromOs = 1 ∧ pack.data = asked.data := by
  unfold broadcastTo at member
  split_ifs at member
  · cases member
  · cases member
  · simp only [List.mem_cons, reduceCtorEq, Effect.push.injEq, List.not_mem_nil, or_false, false_or] at member
    obtain ⟨-, rfl⟩ := member
    exact ⟨rfl, rfl⟩
  · cases member

theorem work_relays (here : r.worker t = some h) : Relays r (r.work t locals ok moved) t h locals ok := by
  cases at_ : h.pc with
  | session | store | route =>
    simp only [Lookups.work, here, at_]
    exact relays_goto rfl (fun _ => by rw [at_]; rfl) rfl
  | shadow =>
    simp only [Lookups.work, here, at_]
    split <;> exact relays_goto rfl (fun _ => by rw [at_]; rfl) rfl
  | shadowTest shadow =>
    simp only [Lookups.work, here, at_]
    exact relays_through here (fun _ _ => by rw [at_]; rfl) fun _ _ _ listed => by cases listed
  | shadowIp shadow | shadowPort shadow =>
    simp only [Lookups.work, here, at_]
    refine relays_through here (fun _ _ => by rw [at_]; rfl) fun _ _ _ listed => ?_
    split at listed <;> cases listed
  | answer exit =>
    have pushes : ∀ target pack, Effect.push h.cli (exit.pack locals h.pack) = .push target pack →
        Pushes locals h target pack := by
      rintro target pack same
      cases same
      exact .answer exit at_
    simp only [Lookups.work, here, at_]
    cases exit with
    | declined => exact relays_leave rfl pushes
    | _ => exact relays_perform rfl pushes (fun _ => by rw [at_]; rfl) fun _ listed => by cases listed
  | target toCliPtr =>
    simp only [Lookups.work, here, at_]
    exact relays_through here (fun _ held => by cases held) fun _ _ _ listed => by cases listed
  | print toCliPtr toCli =>
    simp only [Lookups.work, here, at_]
    exact relays_through here (fun _ held => by cases held) fun _ _ _ listed => by cases listed
  | forward toCli =>
    simp only [Lookups.work, here, at_]
    split
    · refine relays_perform (show _ = r.server.perform ok (.push toCli (unicastCopy h.pack)) from rfl)
        (fun target pack same => ?_) (fun held => by cases held) fun _ listed => by cases listed
      cases same
      exact .copy toCli _ rfl rfl
    · exact relays_goto rfl (fun held => by cases held) rfl
  | measure =>
    simp only [Lookups.work, here, at_]
    exact relays_goto rfl (fun held => by cases held) rfl
  | keyAt i len =>
    simp only [Lookups.work, here, at_]
    repeat' split
    all_goals exact relays_goto rfl (fun held => by cases held) rfl
  | lookup i len key =>
    simp only [Lookups.work, here, at_]
    repeat' split
    all_goals exact relays_goto rfl (fun held => by cases held) rfl
  | copyTarget i len key toCliPtr =>
    simp only [Lookups.work, here, at_]
    exact relays_through here (fun _ held => by cases held) fun _ _ _ listed => by cases listed
  | copyPrint i len key toCliPtr toCli =>
    simp only [Lookups.work, here, at_]
    exact relays_through here (fun _ held => by cases held) fun _ _ _ listed => user_broadcastTo listed
  | copy i len effects =>
    cases effects with
    | nil =>
      simp only [Lookups.work, here, at_]
      exact relays_goto rfl (fun held => by cases held) rfl
    | cons effect rest =>
      simp only [Lookups.work, here, at_]
      refine relays_perform rfl (fun target pack same => ?_) (fun held => by cases held) fun e listed => ?_
      · refine .made target pack ?_
        rw [at_, same]
        exact List.mem_cons_self
      · rw [at_]
        exact List.mem_cons_of_mem _ listed
  | notify =>
    simp only [Lookups.work, here, at_]
    exact relays_leave (show _ = r.server.perform ok (.changeClimod h.cli .output) from rfl)
      fun target pack same => by cases same

end Relays

structure Grows (s s' : Isolation ω τ η) : Prop where
  sent : s.session.sent ⊆ s'.session.sent
  answered : s.answered ⊆ s'.answered
  cliUid : s'.session.cliUid = s.session.cliUid

section Grow

variable {s s' : Isolation ω τ η}

omit [DecidableEq ω] [DecidableEq τ] [DecidableEq η] in
theorem Grows.answers (grows : s.Grows s') {pack : Packet} (answers : s.Answers pack) : s'.Answers pack := by
  obtain ⟨asked, sent, same, answered⟩ := answers
  exact ⟨asked, grows.sent sent, same, grows.answered answered⟩

omit [DecidableEq ω] [DecidableEq τ] [DecidableEq η] in
theorem Grows.harmless (grows : s.Grows s') {block : Block} (harmless : s.Harmless block) : s'.Harmless block := by
  obtain ⟨pack, fits, serial, answers⟩ := harmless
  exact ⟨pack, fits, serial, fun zero mine => grows.answers (answers zero (grows.cliUid ▸ mine))⟩

omit [DecidableEq ω] [DecidableEq τ] [DecidableEq η] in
theorem Carries.grow {cli : Conn} {c : Client} (carries : s.Carries cli c) (grows : s.Grows s')
    (own : s'.own cli = true → s.own cli = true) (link : s'.link = some cli → s.link = some cli) :
    s'.Carries cli c := by
  refine ⟨fun block member => ?_, fun linked block member => grows.harmless (carries.writes (link linked) block member)⟩
  obtain ⟨pack, fits, serial, sent⟩ := carries.reads block member
  exact ⟨pack, fits, serial, fun mine => grows.sent (sent (own mine))⟩

omit [DecidableEq ω] [DecidableEq τ] [DecidableEq η] in
theorem Tame.grow {t : ω} {h : LookupRun} (tame : s.Tame t h) (grows : s.Grows s') (owns : s'.owns t = s.owns t)
    (link : s'.link = some h.cli → s.link = some h.cli) : s'.Tame t h where
  fits := tame.fits
  sent mine := grows.sent (tame.sent (owns ▸ mine))
  strays answering linked uid := owns ▸ tame.strays answering (link linked) (grows.cliUid ▸ uid)
  copies := tame.copies

end Grow

section ServerSteps

variable {s : Isolation ω τ η}

omit [DecidableEq ω] [DecidableEq τ] [DecidableEq η] in
theorem Guarded.withRelay (guarded : s.Guarded) {relay : Lookups ω} (workers : relay.worker = s.relay.worker)
    (clients : ∀ cli c, relay.server.clients cli = some c → s.Carries cli c)
    (opens : ∀ cli, (s.relay.server.clients cli).isSome → (relay.server.clients cli).isSome) :
    Guarded { s with relay := relay } := by
  refine ⟨guarded.session, fun cli c present => ?_, fun cli mine => opens cli (guarded.own cli mine), guarded.link,
    fun t h here => ?_⟩
  · exact ⟨(clients cli c present).reads, (clients cli c present).writes⟩
  · have tame := guarded.workers t h ((congrFun workers t).symm.trans here)
    exact ⟨tame.fits, tame.sent, tame.strays, tame.copies⟩

omit [DecidableEq ω] [DecidableEq τ] [DecidableEq η] in
theorem Guarded.withClient (guarded : s.Guarded) {cli : Conn} (f : Client → Client)
    (changed : ∀ c, s.relay.server.clients cli = some c → s.Carries cli (f c)) :
    Guarded { s with relay := { s.relay with server := s.relay.server.modify cli f } } := by
  refine guarded.withRelay rfl (fun other d present => ?_) fun other isOpen => ?_
  · by_cases same : other = cli
    · subst same
      obtain ⟨c, before, rfl⟩ := Option.map_eq_some_iff.mp ((Server.clients_modify_self ..).symm.trans present)
      exact changed c before
    · exact guarded.clients other d ((Server.clients_modify_of_ne _ _ _ same).symm.trans present)
  · exact (Server.isSome_clients_modify ..).trans isOpen

omit [DecidableEq ω] in
theorem accept_cases {r : Lookups ω} {cli other : Conn} {fd : Int} {ip : String} {port : UInt16} {d : Client}
    (present : (r.loop (.accept cli fd ip port)).server.clients other = some d) :
    r.server.clients other = some d ∨ other = cli ∧ r.server.clients cli = none ∧ d = acceptClient fd ip port := by
  simp only [Lookups.loop] at present
  split at present
  · rcases Server.clients_accept present with before | ⟨rfl, fresh⟩
    · exact .inl before
    · cases isOpen : r.server.clients other with
      | none => exact .inr ⟨rfl, rfl, fresh⟩
      | some c =>
        have kept : (serverStep r.server (.accept other fd ip port)).clients other = some c := by
          simp only [serverStep, isOpen, Option.isSome_some, ↓reduceIte]
        exact .inl (kept.symm.trans present)
  · exact .inl present

omit [DecidableEq ω] [DecidableEq τ] [DecidableEq η] in
theorem carries_accepted (cli : Conn) (fd : Int) (ip : String) (port : UInt16) :
    s.Carries cli (acceptClient fd ip port) := by
  refine ⟨fun block member => ?_, fun _ block member => ?_⟩ <;> cases member

theorem guarded_accept (guarded : s.Guarded) (cli : Conn) (fd : Int) (ip : String) (port : UInt16) :
    (s.step (.accept cli fd ip port)).Guarded := by
  refine guarded.withRelay (Lookups.loop_spec ..).2.1 (fun other d present => ?_) fun other isOpen => ?_
  · rcases accept_cases present with before | ⟨rfl, -, rfl⟩
    · exact guarded.clients other d before
    · exact carries_accepted ..
  · exact @Pooled.isOpen_loop ω ⟨s.relay, [], fun _ => none⟩ other _ isOpen

theorem guarded_frame (guarded : s.Guarded) (cli : Conn) (pack : SizedPacket) :
    (s.step (.frame cli pack)).Guarded := by
  simp only [step]
  split
  · exact guarded
  · next others =>
    simp only [Lookups.loop]
    split
    · refine guarded.withClient _ fun c present => ?_
      have carries := guarded.clients cli c present
      refine ⟨fun block member => ?_, carries.writes⟩
      rcases List.mem_append.mp member with before | new
      · exact carries.reads block before
      · exact ⟨pack.pack, pack.fits, List.mem_singleton.mp new, fun mine => absurd mine others⟩
    · exact guarded

theorem guarded_epollout (guarded : s.Guarded) (cli : Conn) (aw : WriteResult) (modOk : Bool) :
    (s.step (.epollout cli aw modOk)).Guarded := by
  simp only [step]
  split
  · exact guarded
  · next others =>
    simp only [Lookups.loop]
    split
    · refine guarded.withClient _ fun c present => ⟨fun block member => ?_, fun linked => absurd linked others⟩
      rw [readQ_runServerEpollout] at member
      exact (guarded.clients cli c present).reads block member
    · exact guarded

theorem guarded_find (guarded : s.Guarded) (cli : Conn) : (s.step (.find cli)).Guarded := by
  obtain ⟨-, workers, server, -⟩ := Lookups.find_spec s.relay cli
  exact guarded.withRelay workers (fun other d present => guarded.clients other d (server ▸ present))
    fun other isOpen => server ▸ isOpen

omit [DecidableEq ω] in
theorem clients_erase {r : Lookups ω} {delOk : Bool} {cli : Conn} {c : Client}
    (present : (r.erase delOk).server.clients cli = some c) : r.server.clients cli = some c := by
  have closed : ∀ (server : Server) other, server.clients = r.server.clients →
      (closeClient server other delOk).clients cli = some c → r.server.clients cli = some c := by
    intro server other same left
    unfold closeClient at left
    split at left
    · by_cases here : cli = other
      · subst here
        exact absurd ((Function.update_self ..).symm.trans left) (by simp)
      · exact same ▸ (Function.update_of_ne here ..).symm.trans left
    · exact same ▸ left
  unfold Lookups.erase at present
  split at present
  · exact present
  · exact closed _ _ rfl present
  · split at present
    · exact present
    · next key _ => exact closed { r.server with dcnClients := mapErase r.server.dcnClients key } _ rfl present

theorem guarded_erase (guarded : s.Guarded) (delOk : Bool) : (s.step (.erase delOk)).Guarded := by
  have grows : s.Grows (s.step (.erase delOk)) := ⟨fun _ => id, fun _ => id, rfl⟩
  have link : ∀ cli, (s.step (.erase delOk)).link = some cli → s.link = some cli ∧ s.closes delOk cli = false := by
    intro cli linked
    obtain ⟨before, stays⟩ := Option.filter_eq_some_iff.mp linked
    exact ⟨before, by simpa using stays⟩
  have own : ∀ cli, (s.step (.erase delOk)).own cli = true → s.own cli = true ∧ s.closes delOk cli = false := by
    intro cli mine
    simpa [step] using mine
  refine ⟨guarded.session, fun cli c present => ?_, fun cli mine => ?_, fun cli linked => ?_, fun t h here => ?_⟩
  · exact (guarded.clients cli c (clients_erase present)).grow grows (fun mine => (own cli mine).1)
      fun linked => (link cli linked).1
  · refine (Pooled.isSome_erase s.relay delOk (guarded.own cli (own cli mine).1)).resolve_right ?_
    rintro ⟨ok, ⟨key, closing⟩, -⟩
    have stays := (own cli mine).2
    simp [closes, ok, closing] at stays
  · obtain ⟨before, stays⟩ := link cli linked
    simp [step, guarded.link cli before, stays]
  · have workers := (Lookups.erase_spec s.relay delOk).1
    exact (guarded.workers t h ((congrFun workers t).symm.trans here)).grow grows rfl fun linked => (link _ linked).1

theorem guarded_pop (guarded : s.Guarded) (t : ω) (cli : Conn) (locals : Locals) :
    (s.step (.pop t cli locals)).Guarded := by
  cases busy : s.relay.worker t with
  | some h =>
    have same : s.step (.pop t cli locals) = s := by
      simp only [step, Lookups.pop, busy, reduceCtorEq, ↓reduceIte]
    rwa [same]
  | none =>
    cases next : s.relay.server.nextPacket locals cli with
    | none =>
      simp only [step, Lookups.pop, busy, next, ↓reduceIte]
      refine ⟨guarded.session, fun other c present => ?_, guarded.own, guarded.link, fun u h here => ?_⟩
      · exact ⟨(guarded.clients other c present).reads, (guarded.clients other c present).writes⟩
      · have other : u ≠ t := by
          rintro rfl
          cases busy.symm.trans here
        have tame := guarded.workers u h here
        exact ⟨tame.fits, fun mine => tame.sent ((Function.update_of_ne other ..).symm.trans mine),
          fun answering linked uid => (Function.update_of_ne other ..).trans (tame.strays answering linked uid),
          tame.copies⟩
    | some pack =>
      obtain ⟨c, block, present, member, decoded⟩ := Server.block_of_nextPacket next
      obtain ⟨asked, fits, serial, sent⟩ := (guarded.clients cli c present).reads block member
      rw [serial, fits.deserial_serial, Option.getD_some] at decoded
      subst decoded
      simp only [step, Lookups.pop, busy, next, ↓reduceIte]
      refine ⟨guarded.session, fun other d there => ?_, fun other mine => ?_, guarded.link, fun u h here => ?_⟩
      · obtain ⟨e, before, writes, reads⟩ := Server.readQ_popped there
        have carries := guarded.clients other e before
        exact ⟨fun b listed => carries.reads b (reads b listed), fun linked => writes ▸ carries.writes linked⟩
      · exact (Server.isSome_clients_modify ..).trans (guarded.own other mine)
      · dsimp only at here
        by_cases same : u = t
        · subst same
          rw [Function.update_self, Option.some.injEq] at here
          subst here
          refine ⟨fits, fun mine => sent ((Function.update_self ..).symm.trans mine), fun _ linked _ => ?_,
            fun _ _ listed => by cases listed⟩
          exact (Function.update_self ..).trans (guarded.link cli linked)
        · rw [Function.update_of_ne same] at here
          have tame := guarded.workers u h here
          exact ⟨tame.fits, fun mine => tame.sent ((Function.update_of_ne same ..).symm.trans mine),
            fun answering linked uid => (Function.update_of_ne same ..).trans (tame.strays answering linked uid),
            tame.copies⟩

/-- What a handler run pushes to V is the answer to a packet of V, which is then
kept, or an answer under another UID, or has from_os set. -/
theorem harmless_pushes (guarded : s.Guarded) {t : ω} {h : LookupRun} {locals : Locals} {ok : Conn → Bool}
    {moved : Moved} {cli : Conn} {pack : Packet} (here : s.relay.worker t = some h) (linked : s.link = some cli)
    (pushes : Pushes locals h cli pack) : (s.step (.work t locals ok moved)).Harmless (packetSerial pack) := by
  have tame := guarded.workers t h here
  cases pushes with
  | answer exit place =>
    obtain ⟨muid, toUid, fits⟩ := answer_spec locals h.pack exit
    refine ⟨_, fits, rfl, fun _ mine => ?_⟩
    have owns : s.owns t = true := tame.strays (by rw [place]; rfl) linked (toUid.symm.trans mine)
    have log : s.newAnswers t locals = [(h.pack, exit.pack locals h.pack)] := by
      have shape : h = ⟨h.cli, h.pack, .answer exit⟩ := by rw [← place]
      rw [newAnswers, here, shape]
      simp [owns]
    refine ⟨h.pack, tame.sent owns, muid.symm, ?_⟩
    simp [step, log]
  | copy _ _ user data =>
    have fits : pack.Fits := by
      unfold Packet.Fits
      rw [data]
      exact tame.fits
    refine ⟨pack, fits, rfl, fun zero => ?_⟩
    rw [user] at zero
    cases zero
  | made _ _ listed =>
    obtain ⟨user, fits⟩ := tame.copies cli pack listed
    refine ⟨pack, fits, rfl, fun zero => ?_⟩
    rw [user] at zero
    cases zero

theorem guarded_work (guarded : s.Guarded) (t : ω) (locals : Locals) (ok : Conn → Bool) (moved : Moved) :
    (s.step (.work t locals ok moved)).Guarded := by
  have grows : s.Grows (s.step (.work t locals ok moved)) := ⟨fun _ => id, List.subset_append_left _ _, rfl⟩
  have session : (s.step (.work t locals ok moved)).session.Accepts (s.step (.work t locals ok moved)).Answers :=
    guarded.session.mono fun _ => grows.answers
  cases here : s.relay.worker t with
  | none =>
    have idle : (s.step (.work t locals ok moved)).relay = s.relay := Lookups.work_idle here
    refine ⟨session, fun cli c present => ?_, fun cli mine => ?_, guarded.link, fun u h there => ?_⟩
    · exact (guarded.clients cli c (idle ▸ present)).grow grows id id
    · rw [idle]
      exact guarded.own cli mine
    · exact (guarded.workers u h (idle ▸ there)).grow grows rfl id
  | some h =>
    obtain ⟨⟨effects, clients, pushes⟩, worker⟩ := @work_relays ω _ s.relay t h locals ok moved here
    have others := (@Lookups.work_spec ω _ s.relay t h locals ok moved here).others
    refine ⟨session, fun cli d present => ?_, fun cli mine => ?_, guarded.link, fun u after there => ?_⟩
    · obtain ⟨c, before, rfl⟩ := Option.map_eq_some_iff.mp ((clients cli).symm.trans present)
      have carries := (guarded.clients cli c before).grow grows id id
      refine ⟨fun block member => ?_, fun linked block member => ?_⟩
      · rw [Effect.readQ_foldl_apply] at member
        exact carries.reads block member
      · rw [Effect.blocks_foldl_apply] at member
        rcases List.mem_append.mp member with old | new
        · exact carries.writes linked block old
        · obtain ⟨pack, listed, rfl⟩ := List.mem_map.mp new
          obtain ⟨effect, isEffect, target⟩ := List.mem_filterMap.mp listed
          rw [Effect.packetTo_eq_some.mp target] at isEffect
          exact harmless_pushes guarded here linked (pushes cli pack isEffect)
    · have isOpen := guarded.own cli mine
      show ((s.relay.work t locals ok moved).server.clients cli).isSome
      rw [clients cli, Option.isSome_map]
      exact isOpen
    · by_cases same : u = t
      · subst same
        obtain ⟨cli, pack, answering, copies⟩ := worker after there
        have tame := guarded.workers u h here
        refine ⟨pack ▸ tame.fits, fun mine => pack ▸ tame.sent mine, fun holds linked uid => ?_,
          fun target copy listed => ?_⟩
        · exact tame.strays (answering holds) (cli ▸ linked) (pack ▸ uid)
        · rcases copies target copy listed with old | ⟨user, data⟩
          · exact tame.copies target copy old
          · refine ⟨user, ?_⟩
            unfold Packet.Fits
            rw [data]
            exact tame.fits
      · exact (guarded.workers u after ((others u same).symm.trans there)).grow grows rfl id

end ServerSteps

section ClientSteps

variable {s : Isolation ω τ η}

omit [DecidableEq ω] [DecidableEq τ] [DecidableEq η] in
theorem Guarded.withSession (guarded : s.Guarded) {session : Requests τ η} (sent : session.sent = s.session.sent)
    (cliUid : session.cliUid = s.session.cliUid) (accepts : session.Accepts s.Answers) :
    Guarded { s with session := session } := by
  have grows : s.Grows { s with session := session } := ⟨fun _ member => sent ▸ member, fun _ => id, cliUid⟩
  exact ⟨accepts.mono fun _ => grows.answers, fun cli c present => (guarded.clients cli c present).grow grows id id,
    guarded.own, guarded.link, fun t h here => (guarded.workers t h here).grow grows rfl id⟩

theorem guarded_join (guarded : s.Guarded) {cli : Conn} {fd : Int} {ip : String} {port : UInt16}
    (apart : s.Apart (.join cli fd ip port)) : (s.step (.join cli fd ip port)).Guarded := by
  simp only [step]
  split
  · next free =>
    obtain ⟨unlinked, idle, closed⟩ := free
    have accepted := guarded_accept guarded cli fd ip port
    have workers := (Lookups.loop_spec s.relay (.accept cli fd ip port)).2.1
    refine ⟨guarded.session, fun other c present => ?_, fun other mine => ?_, fun other linked => ?_, fun t h here => ?_⟩
    · rcases accept_cases present with before | ⟨rfl, -, rfl⟩
      · have differ : other ≠ cli := by
          rintro rfl
          cases closed.symm.trans before
        have carries := guarded.clients other c before
        refine ⟨fun block member => ?_, fun linked => absurd (Option.some.inj linked).symm differ⟩
        obtain ⟨pack, fits, serial, sent⟩ := carries.reads block member
        exact ⟨pack, fits, serial, fun mine => sent ((Function.update_of_ne differ ..).symm.trans mine)⟩
      · exact carries_accepted ..
    · by_cases same : other = cli
      · subst same
        simp [Lookups.loop, serverStep, idle, closed]
      · exact accepted.own other ((Function.update_of_ne same ..).symm.trans mine)
    · cases linked
      exact Function.update_self ..
    · have before := (congrFun workers t).symm.trans here
      have tame := guarded.workers t h before
      exact ⟨tame.fits, tame.sent, fun answering linked uid =>
        apart t h before (Option.some.inj linked).symm answering uid, tame.copies⟩
  · exact guarded

theorem guarded_drop (guarded : s.Guarded) : (s.step .drop).Guarded := by
  have grows : s.Grows (s.step .drop) := ⟨fun _ => id, fun _ => id, rfl⟩
  refine ⟨guarded.session, fun cli c present => (guarded.clients cli c present).grow grows id fun linked => ?_,
    guarded.own, fun cli linked => ?_, fun t h here => (guarded.workers t h here).grow grows rfl fun linked => ?_⟩ <;>
    cases linked

omit [DecidableEq ω] [DecidableEq τ] [DecidableEq η] in
theorem guarded_deliver (guarded : s.Guarded) : s.deliver.Guarded := by
  unfold deliver
  split
  · next cli _ block writeq linked popped =>
    split
    · next idle =>
      cases shape : s.session.writeq.blocks with
      | nil => simp [popBlock_nil shape] at popped
      | cons oldest rest =>
        simp only [popBlock_cons shape, Prod.mk.injEq, Option.some.injEq] at popped
        obtain ⟨-, rfl, -⟩ := popped
        obtain ⟨pack, fits, serial⟩ := guarded.session.outgoing oldest (shape ▸ List.mem_cons_self)
        have sends : s.session.send =
            { s.session with writeq := ⟨rest⟩, sent := s.session.sent ++ [pack] } := by
          simp only [Requests.send, popBlock_cons shape, serial, fits.deserial_serial, Option.toList_some]
        have framed : s.relay.loop (.frame cli oldest) = { s.relay with server := s.relay.server.modify cli fun c =>
            { c with readQ := pushBlock c.readQ oldest, tasks := c.tasks + 1 } } := if_pos idle
        rw [sends, framed]
        have grows : s.Grows { s with session := { s.session with
            writeq := ⟨rest⟩, sent := s.session.sent ++ [pack] } } :=
          ⟨List.subset_append_left _ _, fun _ => id, rfl⟩
        have accepts := guarded.session.mono fun _ => grows.answers
        have sent : Guarded { s with session := { s.session with
            writeq := ⟨rest⟩, sent := s.session.sent ++ [pack] } } :=
          ⟨⟨accepts.arrived, accepts.handling, accepts.pointing, accepts.responses, accepts.queued, accepts.entries,
              accepts.signals, accepts.fits,
              fun block member => accepts.outgoing block (shape ▸ List.mem_cons_of_mem _ member)⟩,
            fun other c present => (guarded.clients other c present).grow grows id id, guarded.own, guarded.link,
            fun t h here => (guarded.workers t h here).grow grows rfl id⟩
        refine sent.withClient (fun c => { c with readQ := pushBlock c.readQ oldest, tasks := c.tasks + 1 })
          fun c present => ?_
        have carries := sent.clients cli c present
        refine ⟨fun block member => ?_, carries.writes⟩
        rcases List.mem_append.mp member with before | new
        · exact carries.reads block before
        · exact ⟨pack, fits, (List.mem_singleton.mp new).trans serial, fun _ =>
            List.mem_append_right _ (List.mem_singleton_self _)⟩
    · exact guarded
  · exact guarded

omit [DecidableEq ω] [DecidableEq τ] [DecidableEq η] in
theorem guarded_receive (guarded : s.Guarded) : s.receive.Guarded := by
  unfold receive
  split
  · exact guarded
  · next cli linked =>
    split
    · next code block writeQ read =>
      obtain ⟨c, present, popped⟩ := Option.map_eq_some_iff.mp read
      have carries := guarded.clients cli c present
      cases shape : c.writeQ.blocks with
      | nil => simp [popBlock_nil shape] at popped
      | cons oldest rest =>
        simp only [popBlock_cons shape, Prod.mk.injEq, Option.some.injEq] at popped
        obtain ⟨-, rfl, rfl⟩ := popped
        obtain ⟨pack, fits, serial, answers⟩ := carries.writes linked oldest (shape ▸ List.mem_cons_self)
        have accepts := guarded.session
        rw [serial, fits.deserial_serial, Option.toList_some]
        have arrived : Guarded { s with session := { s.session with arrived := s.session.arrived ++ [pack] } } := by
          refine guarded.withSession rfl rfl ⟨fun other member zero mine => ?_, accepts.handling, accepts.pointing,
            accepts.responses, accepts.queued, accepts.entries, accepts.signals, accepts.fits, accepts.outgoing⟩
          rcases List.mem_append.mp member with old | new
          · exact accepts.arrived other old zero mine
          · cases List.mem_singleton.mp new
            exact answers zero mine
        refine arrived.withClient (fun c => { c with writeQ := ⟨rest⟩ }) fun d there => ?_
        cases present.symm.trans there
        have still := arrived.clients cli c there
        exact ⟨still.reads, fun _ block member => still.writes linked block (shape ▸ List.mem_cons_of_mem _ member)⟩
    · exact guarded

omit [DecidableEq η] in
theorem advance_kept (r : Requests τ η) (c : τ) (moved : Moved) :
    (r.advance c moved).sent = r.sent ∧ (r.advance c moved).cliUid = r.cliUid := by
  cases pc : r.calls c with
  | wait packet =>
    simp only [Requests.advance, pc]
    split <;> exact ⟨rfl, rfl⟩
  | _ =>
    simp only [Requests.advance, pc]
    exact ⟨by trivial, by trivial⟩

theorem handle_kept (r : Requests τ η) (h : η) : (r.handle h).sent = r.sent ∧ (r.handle h).cliUid = r.cliUid := by
  unfold Requests.handle
  split
  · exact ⟨rfl, rfl⟩
  · exact ⟨rfl, rfl⟩
  · dsimp only
    split <;> exact ⟨rfl, rfl⟩
  · split <;> exact ⟨rfl, rfl⟩

theorem guarded_call (guarded : s.Guarded) (c : τ) (packet : SizedPacket) (toUid : UInt64) :
    (s.step (.call c packet toUid)).Guarded := by
  simp only [step, Requests.step]
  split
  · refine guarded.withSession rfl rfl (guarded.session.goto (fun other queues => by cases queues) fun other has => ?_)
    cases has
    exact packet.fits
  · exact guarded

theorem guarded_take (guarded : s.Guarded) (h : η) (undecoded : Undecoded) : (s.step (.take h undecoded)).Guarded := by
  have kept : (s.session.step (.pop h undecoded)).sent = s.session.sent ∧
      (s.session.step (.pop h undecoded)).cliUid = s.session.cliUid := by
    simp only [Requests.step]
    split <;> exact ⟨rfl, rfl⟩
  exact guarded.withSession kept.1 kept.2 (Requests.accepts_pop guarded.session h undecoded)

theorem guarded_collect (guarded : s.Guarded) (muid : UInt64) : (s.step (.collect muid)).Guarded := by
  have accepts := guarded.session
  refine guarded.withSession rfl rfl ⟨accepts.arrived, accepts.handling, accepts.pointing, fun other pack found => ?_,
    accepts.queued, accepts.entries, accepts.signals, accepts.fits, accepts.outgoing⟩
  refine accepts.responses other pack ?_
  rw [Map.mapAt_eq_some_iff] at found ⊢
  exact (Map.eraseEntries_sublist muid _).subset found

end ClientSteps

theorem guarded_step (s : Isolation ω τ η) (event : IsolationEvent ω τ η) (guarded : s.Guarded)
    (apart : s.Apart event) : (s.step event).Guarded := by
  cases event with
  | accept cli fd ip port => exact guarded_accept guarded cli fd ip port
  | frame cli pack => exact guarded_frame guarded cli pack
  | epollout cli aw modOk => exact guarded_epollout guarded cli aw modOk
  | find cli => exact guarded_find guarded cli
  | erase delOk => exact guarded_erase guarded delOk
  | pop t cli locals => exact guarded_pop guarded t cli locals
  | work t locals ok moved => exact guarded_work guarded t locals ok moved
  | join cli fd ip port => exact guarded_join guarded apart
  | drop => exact guarded_drop guarded
  | deliver => exact guarded_deliver guarded
  | receive => exact guarded_receive guarded
  | call c packet toUid => exact guarded_call guarded c packet toUid
  | advance c moved =>
    obtain ⟨sent, cliUid⟩ := advance_kept s.session c moved
    exact guarded.withSession sent cliUid (Requests.accepts_advance guarded.session c moved)
  | take h undecoded => exact guarded_take guarded h undecoded
  | handle h =>
    obtain ⟨sent, cliUid⟩ := handle_kept s.session h
    exact guarded.withSession sent cliUid (Requests.accepts_handle guarded.session h)
  | collect muid => exact guarded_collect guarded muid

omit [DecidableEq ω] [DecidableEq τ] [DecidableEq η] in
theorem guarded_start (uid : UInt64) : (start ω τ η uid).Guarded := by
  refine ⟨⟨fun _ member => ?_, fun _ _ has => ?_, fun _ _ _ sets => ?_, fun _ _ found => ?_, fun _ _ queues => ?_,
    fun _ _ found => ?_, fun _ set => ?_, fun _ _ has => ?_, fun _ member => ?_⟩, fun _ _ present => ?_, fun _ mine => ?_,
    fun _ linked => ?_, fun _ _ here => ?_⟩
  · cases member
  · cases has
  · cases sets
  · cases found
  · cases queues
  · cases found
  · cases set
  · cases has
  · cases member
  · cases present
  · cases mine
  · cases linked
  · cases here

/-- In every run in which V is accepted apart from the handler runs of others, and
nothing is used that was given back, what is stored in V's responses and what
sets one of its waiters is the answer to a packet that V itself sent. -/
theorem responses_genuine (uid : UInt64) (events : List (IsolationEvent ω τ η))
    (apart : Runs.Along step Apart (start ω τ η uid) events) : Runs.Throughout step Genuine (start ω τ η uid) events :=
  (Runs.throughout_of_preserved guarded_step (guarded_start uid) apart).mono fun _ guarded =>
    ⟨guarded.session.responses, guarded.session.signals⟩

instance decidableApart [Fintype ω] (s : Isolation ω τ η) : (event : IsolationEvent ω τ η) → Decidable (s.Apart event)
  | .join cli _ _ _ => inferInstanceAs (Decidable (∀ t, ∀ h ∈ s.relay.worker t, h.cli = cli → h.pc.answering = true →
      h.pack.fromUid = s.session.cliUid → s.owns t = true))
  | .erase delOk => inferInstanceAs (Decidable (s.relay.Safe (.erase delOk)))
  | .pop _ cli _ => inferInstanceAs (Decidable (s.relay.server.clients cli).isSome)
  | .work t locals ok moved => inferInstanceAs (Decidable (s.relay.Safe (.work t locals ok moved) ∧
      ∀ h ∈ s.relay.worker t, ∀ c ∈ s.relay.reads h, (s.relay.server.clients c).isSome))
  | .handle h =>
    match at_ : s.session.handlers h with
    | .set _ ptr => decidable_of_iff (ptr.array = s.session.cndArrays.values)
        ⟨fun same _ _ sets => by cases at_.symm.trans sets; exact same, fun all => all _ _ at_⟩
    | .idle | .store _ | .lookup _ => .isTrue fun _ _ sets => by cases at_.symm.trans sets
  | .accept .. | .frame .. | .epollout .. | .find _ | .drop | .deliver | .receive | .call .. | .advance .. | .take ..
  | .collect _ => .isTrue trivial

section Schedules

def works (n : Nat) : List (IsolationEvent Unit Unit Unit) :=
  List.replicate n (.work () .blank (fun _ => true) ⟨true, true⟩)

def advances (n : Nat) : List (IsolationEvent Unit Unit Unit) := List.replicate n (.advance () ⟨true, true⟩)

def ping : SizedPacket := ⟨{ packetInit [] 7 0 1 with packtype := .ping }, by decide⟩

def pinged : List (IsolationEvent Unit Unit Unit) :=
  [.join 1 5 "127.0.0.1" 40000, .call () ping 0] ++ advances 4 ++ [.deliver, .pop () 1 .blank] ++ works 6 ++
    [.receive, .take () ⟨packetInit [] 0 0 0, ⟨0, 0, 0⟩⟩, .handle (), .handle (), .handle ()]

/-- A client that is not V pings under V's UID. While the handler runs, it
disconnects, and V is accepted at its address. -/
def strayed : List (IsolationEvent Unit Unit Unit) :=
  [.accept 1 5 "127.0.0.1" 40000, .frame 1 ping, .pop () 1 .blank] ++ works 4 ++
    [.find 1, .erase true, .join 1 6 "127.0.0.1" 40001, .call () ping 0] ++ advances 4 ++ works 1 ++
    [.receive, .take () ⟨packetInit [] 0 0 0, ⟨0, 0, 0⟩⟩, .handle (), .handle (), .handle ()]

theorem responses_genuine_pinged :
    Runs.Throughout step Genuine (start Unit Unit Unit 7) pinged ∧
      mapAt (Runs.run step (start Unit Unit Unit 7) pinged).session.responses 1 = some (codeAnswer ping.pack 200) ∧
      (Runs.run step (start Unit Unit Unit 7) pinged).session.wasSet () = true :=
  ⟨responses_genuine 7 pinged (by decide), by decide, by decide⟩

end Schedules

/-- The other client's answer is in V's responses, and V's waiter was set. -/
theorem stray_answer :
    ∃ pack, mapAt (Runs.run step (start Unit Unit Unit 7) strayed).session.responses 1 = some pack ∧
      ¬ (Runs.run step (start Unit Unit Unit 7) strayed).Answers pack ∧
      (Runs.run step (start Unit Unit Unit 7) strayed).session.wasSet () = true := by
  have unsent : (Runs.run step (start Unit Unit Unit 7) strayed).session.sent = [] := by decide
  refine ⟨codeAnswer ping.pack 200, by decide, ?_, by decide⟩
  rintro ⟨asked, member, -⟩
  rw [unsent] at member
  cases member

end Isolation

end Dcn
