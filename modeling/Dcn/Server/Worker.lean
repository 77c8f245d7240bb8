import Mathlib.Logic.Function.Basic
import Mathlib.Data.List.FinRange
import Dcn.Memory.Map
import Dcn.Net.Writing
import Dcn.Wire.Packet

/-! The server's registry and its packet handler, dcn_async_worker (server.c).

A connection is the address of its struct client. The handler is split at the
points where it writes: it decides, from the registry, a list of effects (blocks
pushed to write queues and calls of change_climod, in program order), and these
are then applied. Nothing the handler reads after registration is changed by
its own effects.

Two things the handler may read are not determined by the state. `Locals` holds
them: the contents of the uninitialised packets, and what the memory of a freed
struct client reads as.
-/

set_option autoImplicit false

namespace Dcn

abbrev Conn := Nat

structure Server where
  clients : Conn → Option Client
  dcnClients : Map UInt64 Conn
  dcnSessions : Map UInt64 UInt64

def dcnServInit : Server := ⟨fun _ => none, mapInit UInt64 Conn, mapInit UInt64 UInt64⟩

structure Locals where
  pack : Packet
  answer : Packet
  freed : Conn → Client

def Locals.blank : Locals :=
  ⟨packetInit [] 0 0 0, packetInit [] 0 0 0, fun _ => acceptClient 0 "" 0⟩

inductive Effect where
  | push (target : Conn) (pack : Packet)
  | changeClimod (target : Conn) (mode : Mode)
  deriving DecidableEq, Repr

/-- The struct client behind a pointer, freed or not. -/
def Server.deref (s : Server) (locals : Locals) (ptr : Conn) : Client :=
  (s.clients ptr).getD (locals.freed ptr)

def register (locals : Locals) (s : Server) (cli : Conn) (fromUid : UInt64) : Map UInt64 Conn :=
  match mapAt s.dcnClients fromUid with
  | none => mapSet s.dcnClients fromUid cli
  | some shadow =>
    -- Stored pointers are never NULL; the cached address decides.
    if (s.deref locals shadow).ip ≠ (s.deref locals cli).ip ∨
        (s.deref locals shadow).port ≠ (s.deref locals cli).port then
      mapSet s.dcnClients fromUid cli
    else s.dcnClients

def Packet.isBroadcast (pack : Packet) : Bool :=
  pack.packtype = .broadcast ∨ pack.packtype = .sigBroadcast

/-- The answer of the exit for packets addressed to their sender. Its packet
type and trav fields are whatever the stack held. -/
def selfAnswer (locals : Locals) (pack : Packet) : Packet :=
  { packetFill locals.answer (intBytes 102) with
    fromOs := 0, fromUid := 0, toUid := pack.fromUid, muid := pack.muid, cmuid := 0 }

def codeAnswer (pack : Packet) (code : Nat) : Packet :=
  packetFill (packetInit [] 0 pack.fromUid pack.muid) (intBytes code)

def unicastCopy (pack : Packet) : Packet :=
  { packetInit pack.data pack.fromUid pack.toUid 0 with
    fromOs := 1, cmuid := pack.cmuid, packtype := pack.packtype }

def broadcastCopy (pack : Packet) (key : UInt64) : Packet :=
  { packetInit pack.data pack.fromUid key 0 with
    fromOs := 1, cmuid := pack.cmuid, packtype := pack.packtype, travFuid := pack.travFuid }

def unicast (locals : Locals) (s : Server) (toCli : Conn) (pack : Packet) : List Effect :=
  if 0 < (s.deref locals toCli).fd then [.push toCli (unicastCopy pack)] else []

def broadcastTo (locals : Locals) (s : Server) (cli : Conn) (pack : Packet) (key : UInt64)
    (toCli : Conn) : List Effect :=
  if key = pack.fromUid then []
  else if (s.deref locals toCli).fd = (s.deref locals cli).fd then []
  else if 0 < (s.deref locals toCli).fd then
    [.changeClimod toCli .output, .push toCli (broadcastCopy pack key)]
  else []

def broadcastAt (locals : Locals) (s : Server) (dcnClients : Map UInt64 Conn) (cli : Conn)
    (pack : Packet) (i : Nat) : List Effect :=
  match mapKeyAt dcnClients i with
  | none => []
  | some key =>
    match mapAt dcnClients key with
    | none => []
    | some toCli => broadcastTo locals s cli pack key toCli

def broadcastLoop (locals : Locals) (s : Server) (dcnClients : Map UInt64 Conn) (cli : Conn)
    (pack : Packet) : List Effect :=
  (List.range dcnClients.entries.length).flatMap (broadcastAt locals s dcnClients cli pack)

/-- What is sent on after the code 200; none where the code is 101. -/
def forwards (locals : Locals) (s : Server) (dcnClients : Map UInt64 Conn) (cli : Conn)
    (pack : Packet) : Option (List Effect) :=
  if pack.toUid = 0 ∧ pack.isBroadcast then some (broadcastLoop locals s dcnClients cli pack)
  else
    match mapAt dcnClients pack.toUid with
    | none => none
    | some toCli =>
      if pack.isBroadcast then some (broadcastLoop locals s dcnClients cli pack)
      else some (unicast locals s toCli pack)

def respond (locals : Locals) (s : Server) (dcnClients : Map UInt64 Conn) (cli : Conn)
    (pack : Packet) : List Effect :=
  if pack.fromUid = pack.toUid then [.push cli (selfAnswer locals pack)]
  else if pack.toUid = 0 ∧ pack.packtype = .ping then
    [.push cli (codeAnswer pack 200), .changeClimod cli .output]
  else
    match forwards locals s dcnClients cli pack with
    | none => [.push cli (codeAnswer pack 101), .changeClimod cli .output]
    | some sent => .push cli (codeAnswer pack 200) :: (sent ++ [.changeClimod cli .output])

def Server.modify (s : Server) (cli : Conn) (f : Client → Client) : Server :=
  { s with clients := Function.update s.clients cli ((s.clients cli).map f) }

/-- `ok` tells on which connections change_climod succeeds; its result is not
looked at. An effect on a connection that is not open has no modelled result. -/
def Server.perform (ok : Conn → Bool) (s : Server) : Effect → Server
  | .push target pack => s.modify target fun c => { c with writeQ := pushBlock c.writeQ (packetSerial pack) }
  | .changeClimod target mode => if ok target then s.modify target fun c => { c with mode := mode } else s

def handlePacket (locals : Locals) (ok : Conn → Bool) (s : Server) (cli : Conn) (pack : Packet) :
    Server × List Effect :=
  let dcnClients := register locals s cli pack.fromUid
  let effects := respond locals s dcnClients cli pack
  let registered := { s with
    dcnClients := dcnClients, dcnSessions := mapSet s.dcnSessions pack.fromUid pack.muid }
  (effects.foldl (Server.perform ok) registered, effects)

/-- The packet that dcn_async_worker goes on to handle. A block that does not
decode leaves the packet as the stack had it. -/
def Server.nextPacket (s : Server) (locals : Locals) (cli : Conn) : Option Packet :=
  (s.clients cli).bind fun c => (popBlock c.readQ).2.1.map fun input =>
    (packetDeserial input).getD locals.pack

def dcnAsyncWorker (locals : Locals) (ok : Conn → Bool) (s : Server) (cli : Conn) :
    Server × List Effect :=
  match s.nextPacket locals cli with
  | none => (s, [])
  | some pack =>
    handlePacket locals ok (s.modify cli fun c => { c with readQ := (popBlock c.readQ).2.2 }) cli pack

def dcnDisconnector (s : Server) (cli : Conn) : Server :=
  match mapKeyByVal s.dcnClients cli with
  | some key => { s with dcnClients := mapErase s.dcnClients key }
  | none => s

/-- `delOk` is whether the descriptor could be removed from the epoll set; the
connection stays open where it could not. -/
def closeClient (s : Server) (cli : Conn) (delOk : Bool) : Server :=
  if delOk then { s with clients := Function.update s.clients cli none } else s

/-- One step of the server: the event loop accepts a connection, frames a block,
writes or disconnects, or a pool worker runs the handler to its end. -/
inductive ServerEvent where
  | accept (cli : Conn) (fd : Int) (ip : String) (port : UInt16)
  | frame (cli : Conn) (block : Block)
  | work (cli : Conn) (locals : Locals) (ok : Conn → Bool)
  | epollout (cli : Conn) (aw : WriteResult) (modOk : Bool)
  | disconnect (cli : Conn) (delOk : Bool)

/-- An accepted connection gets the address of no open one, and the other
events happen on open connections. -/
def serverStep (s : Server) : ServerEvent → Server
  | .accept cli fd ip port =>
    if (s.clients cli).isSome then s
    else { s with clients := Function.update s.clients cli (some (acceptClient fd ip port)) }
  | .frame cli block => s.modify cli fun c =>
      { c with readQ := pushBlock c.readQ block, tasks := c.tasks + 1 }
  | .work cli locals ok => (dcnAsyncWorker locals ok s cli).1
  | .epollout cli aw modOk => s.modify cli fun c => (runServerEpollout c aw modOk).1
  | .disconnect cli delOk =>
    if (s.clients cli).isSome then closeClient (dcnDisconnector s cli) cli delOk else s

namespace Server

section Modify

variable (s : Server) (cli : Conn) (f : Client → Client)

@[simp] theorem dcnClients_modify : (s.modify cli f).dcnClients = s.dcnClients := rfl

@[simp] theorem clients_modify_self : (s.modify cli f).clients cli = (s.clients cli).map f := by
  simp [modify]

theorem clients_modify_of_ne {other : Conn} (differ : other ≠ cli) :
    (s.modify cli f).clients other = s.clients other := by
  simp [modify, differ]

theorem clients_modify_cases {other : Conn} {d : Client} (present : (s.modify cli f).clients other = some d) :
    ∃ c, s.clients other = some c ∧ (d = f c ∨ d = c) := by
  by_cases same : other = cli
  · subst same
    rw [clients_modify_self] at present
    obtain ⟨c, before, after⟩ := Option.map_eq_some_iff.mp present
    exact ⟨c, before, .inl after.symm⟩
  · rw [clients_modify_of_ne s cli f same] at present
    exact ⟨d, present, .inr rfl⟩

@[simp] theorem isSome_clients_modify (other : Conn) :
    ((s.modify cli f).clients other).isSome = (s.clients other).isSome := by
  by_cases same : other = cli
  · subst same; simp
  · rw [clients_modify_of_ne s cli f same]

end Modify

section Connections

variable {s : Server} {cli other : Conn} {d : Client}

theorem clients_accept {fd : Int} {ip : String} {port : UInt16}
    (present : (serverStep s (.accept cli fd ip port)).clients other = some d) :
    s.clients other = some d ∨ (other = cli ∧ d = acceptClient fd ip port) := by
  simp only [serverStep] at present
  split at present
  · exact .inl present
  · by_cases here : other = cli
    · subst here
      simp only [Function.update_self, Option.some.injEq] at present
      exact .inr ⟨rfl, present.symm⟩
    · exact .inl (by simpa [here] using present)

@[simp] theorem clients_dcnDisconnector : (dcnDisconnector s cli).clients = s.clients := by
  unfold dcnDisconnector
  cases mapKeyByVal s.dcnClients cli <;> rfl

theorem clients_disconnect {delOk : Bool}
    (present : (serverStep s (.disconnect cli delOk)).clients other = some d) : s.clients other = some d := by
  simp only [serverStep, closeClient] at present
  split at present
  · cases delOk with
    | false => simpa using present
    | true =>
      have differ : other ≠ cli := by
        intro same
        simp [same] at present
      simpa [differ] using present
  · exact present

end Connections

@[simp] theorem dcnClients_perform (ok : Conn → Bool) (s : Server) (e : Effect) :
    (s.perform ok e).dcnClients = s.dcnClients := by
  cases e with
  | push => rfl
  | changeClimod target mode => cases success : ok target <;> simp [perform, success]

@[simp] theorem isSome_clients_perform (ok : Conn → Bool) (s : Server) (e : Effect) (cli : Conn) :
    ((s.perform ok e).clients cli).isSome = (s.clients cli).isSome := by
  cases e with
  | push => simp [perform]
  | changeClimod target mode => cases success : ok target <;> simp [perform, success]

@[simp] theorem dcnClients_foldl_perform (ok : Conn → Bool) (s : Server) (effects : List Effect) :
    (effects.foldl (perform ok) s).dcnClients = s.dcnClients := by
  induction effects generalizing s with
  | nil => rfl
  | cons e rest ih => rw [List.foldl_cons, ih, dcnClients_perform]

@[simp] theorem isSome_clients_foldl_perform (ok : Conn → Bool) (s : Server) (effects : List Effect)
    (cli : Conn) : ((effects.foldl (perform ok) s).clients cli).isSome = (s.clients cli).isSome := by
  induction effects generalizing s with
  | nil => rfl
  | cons e rest ih => rw [List.foldl_cons, ih, isSome_clients_perform]

@[simp] theorem isSome_clients_handlePacket (locals : Locals) (ok : Conn → Bool) (s : Server)
    (cli : Conn) (pack : Packet) (other : Conn) :
    ((handlePacket locals ok s cli pack).1.clients other).isSome = (s.clients other).isSome := by
  simp [handlePacket]

@[simp] theorem dcnClients_handlePacket (locals : Locals) (ok : Conn → Bool) (s : Server)
    (cli : Conn) (pack : Packet) :
    (handlePacket locals ok s cli pack).1.dcnClients = register locals s cli pack.fromUid := by
  simp [handlePacket]

theorem nextPacket_some {s : Server} {locals : Locals} {cli : Conn} {pack : Packet}
    (next : s.nextPacket locals cli = some pack) : ∃ c, s.clients cli = some c := by
  obtain ⟨c, present, _⟩ := Option.bind_eq_some_iff.mp next
  exact ⟨c, present⟩

theorem dcnAsyncWorker_none {s : Server} {locals : Locals} {cli : Conn} (ok : Conn → Bool)
    (next : s.nextPacket locals cli = none) : dcnAsyncWorker locals ok s cli = (s, []) := by
  simp [dcnAsyncWorker, next]

theorem block_of_nextPacket {s : Server} {locals : Locals} {cli : Conn} {pack : Packet}
    (next : s.nextPacket locals cli = some pack) : ∃ c block, s.clients cli = some c ∧ block ∈ c.readQ.blocks ∧
      (packetDeserial block).getD locals.pack = pack := by
  obtain ⟨c, present, popped⟩ := Option.bind_eq_some_iff.mp next
  obtain ⟨input, oldest, decoded⟩ := Option.map_eq_some_iff.mp popped
  refine ⟨c, input, present, ?_, decoded⟩
  cases shape : c.readQ.blocks with
  | nil => simp [popBlock_nil shape] at oldest
  | cons b rest =>
    simp only [popBlock_cons shape, Option.some.injEq] at oldest
    simp [oldest]

def popped (s : Server) (cli : Conn) : Server :=
  s.modify cli fun c => { c with readQ := (popBlock c.readQ).2.2 }

theorem readQ_popped {s : Server} {cli other : Conn} {d : Client} (present : (s.popped cli).clients other = some d) :
    ∃ c, s.clients other = some c ∧ d.writeQ = c.writeQ ∧ ∀ block ∈ d.readQ.blocks, block ∈ c.readQ.blocks := by
  obtain ⟨c, before, rfl | rfl⟩ := Server.clients_modify_cases _ _ _ present
  · refine ⟨c, before, rfl, fun block member => ?_⟩
    cases shape : c.readQ.blocks with
    | nil => simp [popBlock_nil shape, shape] at member
    | cons b rest =>
      simp only [popBlock_cons shape] at member
      exact List.mem_cons_of_mem b member
  · exact ⟨d, before, rfl, fun _ member => member⟩

theorem dcnAsyncWorker_some {s : Server} {locals : Locals} {cli : Conn} {pack : Packet}
    (ok : Conn → Bool) (next : s.nextPacket locals cli = some pack) :
    dcnAsyncWorker locals ok s cli = handlePacket locals ok (s.popped cli) cli pack := by
  simp [dcnAsyncWorker, next, popped]

end Server

section Register

variable (locals : Locals) (s : Server) (cli : Conn) (fromUid : UInt64)

/-- The registration step stores the sender's connection under the sender's
UID, or leaves the registry as it is. -/
theorem register_cases : register locals s cli fromUid = mapSet s.dcnClients fromUid cli ∨
    register locals s cli fromUid = s.dcnClients := by
  unfold register
  split
  · exact .inl rfl
  · split
    · exact .inl rfl
    · exact .inr rfl

theorem mapAt_register_of_ne {uid : UInt64} (differ : uid ≠ fromUid) :
    mapAt (register locals s cli fromUid) uid = mapAt s.dcnClients uid := by
  rcases register_cases locals s cli fromUid with stored | same
  · rw [stored, Map.mapAt_mapSet_of_ne _ _ differ]
  · rw [same]

theorem mem_register_of_ne {e : UInt64 × Conn} (differ : e.1 ≠ fromUid) :
    e ∈ (register locals s cli fromUid).entries ↔ e ∈ s.dcnClients.entries := by
  obtain ⟨uid, ptr⟩ := e
  rw [← Map.mapAt_eq_some_iff, ← Map.mapAt_eq_some_iff, mapAt_register_of_ne locals s cli fromUid differ]

end Register

end Dcn
