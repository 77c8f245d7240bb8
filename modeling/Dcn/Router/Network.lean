import Dcn.Foundation.Worklist
import Dcn.Router.Forwarding
import Dcn.Server.Routing

/-! Servers joined by routers.

A router has a link to each of its servers: a session that is connected there
under a UID of its own. In transit are packets that a server has yet to handle,
each with the connection it came on, and packets that a link has yet to forward.
Each is taken up in one step, in any order: a server runs its handler, a link's
runner goes through one round. The queues and sockets between the two lose and
reorder nothing that matters here, and the world keeps what was sent.
-/

set_option autoImplicit false

namespace Dcn

structure Link (S : Type) where
  server : S
  conn : Conn
  uid : UInt64
  deriving DecidableEq

structure Topology (S R : Type) where
  links : R → List (Link S)
  peer : S → Conn → Option (R × Nat)
  peer_iff : ∀ s conn r i, peer s conn = some (r, i) ↔
    ∃ link, (links r)[i]? = some link ∧ link.server = s ∧ link.conn = conn

theorem Topology.peer_link {S R : Type} (T : Topology S R) {r : R} {i : Nat} {link : Link S}
    (place : (T.links r)[i]? = some link) : T.peer link.server link.conn = some (r, i) :=
  (T.peer_iff link.server link.conn r i).mpr ⟨link, place, rfl, rfl⟩

inductive Item (S R : Type) where
  | atServer (s : S) (cli : Conn) (pack : Packet)
  | atLink (r : R) (my : Nat) (pack : Packet)

structure Copy (S : Type) where
  server : S
  conn : Conn
  packet : Packet

/-- The states of all parties, the copies that servers pushed and the packets
that links sent, with router and link number. -/
structure World (S R : Type) where
  servers : S → Server
  sessions : R → Nat → Session
  copies : List (Copy S)
  emitted : List (R × Nat × Packet)

section Deliver

variable {S R : Type} [DecidableEq S] [DecidableEq R]

/-- The pushes of a handler run but the answer, which is not from a user. -/
def copiesOf (s : S) (effects : List Effect) : List (Copy S) :=
  ((pushes effects).filter (·.2.fromOs ≠ 0)).map fun p => ⟨s, p.1, p.2⟩

namespace Topology

variable (T : Topology S R)

/-- A copy goes to the link it was pushed for, if it was pushed for a link that
takes it. -/
def arrival (w : World S R) (copy : Copy S) : Option (Item S R) :=
  (T.peer copy.server copy.conn).bind fun link =>
    if (w.sessions link.1 link.2).Takes copy.packet then some (.atLink link.1 link.2 copy.packet) else none

def departure (r : R) (sent : Nat × Packet) : Option (Item S R) :=
  (T.links r)[sent.1]?.map fun link => .atServer link.server link.conn sent.2

def deliver (w : World S R) (run : Locals × (Conn → Bool)) : Item S R → World S R × List (Item S R)
  | .atServer s cli pack =>
    let (server, effects) := handlePacket run.1 run.2 (w.servers s) cli pack
    let copies := copiesOf s effects
    ({ w with servers := Function.update w.servers s server, copies := w.copies ++ copies },
      copies.filterMap (T.arrival w))
  | .atLink r my pack =>
    let (sessions, sent) := routerRunner (w.sessions r) (T.links r).length my pack
    ({ w with
        sessions := Function.update w.sessions r sessions
        emitted := w.emitted ++ sent.map (Prod.mk r) },
      sent.filterMap (T.departure r))

/-- The registries are these, every server's state is well-formed, and every
link's session has the UID of the link. -/
structure Valid (registry : S → Map UInt64 Conn) (w : World S R) : Prop where
  wellFormed : ∀ s, (w.servers s).WellFormed
  registry : ∀ s, (w.servers s).dcnClients = registry s
  sessions : ∀ r i link, (T.links r)[i]? = some link → (w.sessions r i).cliUid = link.uid

def Linked (registry : S → Map UInt64 Conn) : Prop :=
  ∀ r, ∀ link ∈ T.links r, mapAt (registry link.server) link.uid = some link.conn

end Topology

def broadcastCopies (registry : S → Map UInt64 Conn) (s : S) (cli : Conn) (pack : Packet) : List (Copy S) :=
  if pack.fromUid = 0 then []
  else ((registry s).entries.filter fun e => e.1 ≠ pack.fromUid ∧ e.2 ≠ cli).map fun e =>
    ⟨s, e.2, broadcastCopy pack e.1⟩

end Deliver

namespace Network

section Handle

variable {S : Type} {locals : Locals} {ok : Conn → Bool} {s : Server} {cli : Conn} {pack : Packet}

theorem register_of_registered {fromUid : UInt64} (registered : mapAt s.dcnClients fromUid = some cli) :
    register locals s cli fromUid = s.dcnClients := by
  rcases register_cases locals s cli fromUid with stored | same
  · rw [stored, Map.mapSet_of_present registered]
  · exact same

theorem isSome_of_registered {uid : UInt64} (wf : s.WellFormed) (registered : mapAt s.dcnClients uid = some cli) :
    (s.clients cli).isSome :=
  wf.registry uid cli (Map.mapAt_eq_some_iff.mp registered)

theorem wellFormed_handlePacket (wf : s.WellFormed) (present : (s.clients cli).isSome) :
    (handlePacket locals ok s cli pack).1.WellFormed :=
  Routing.wellFormed_of_addresses wf (Registry.registryOpen_handlePacket wf.registry present)
    Routing.addresses_handlePacket

/-- A handled broadcast is copied to every other user on another connection;
one from UID 0 is addressed to its sender and declined. -/
theorem copiesOf_handlePacket (server : S) (wf : s.WellFormed)
    (registered : mapAt s.dcnClients pack.fromUid = some cli) (signal : pack.packtype = .sigBroadcast)
    (all : pack.toUid = 0) :
    copiesOf server (handlePacket locals ok s cli pack).2 =
      broadcastCopies (fun _ => s.dcnClients) server cli pack := by
  obtain ⟨c, present⟩ := Option.isSome_iff_exists.mp (isSome_of_registered wf registered)
  unfold broadcastCopies
  by_cases zero : pack.fromUid = 0
  · -- UID 0 is the target too, so the packet is addressed to its sender.
    have own : pack.fromUid = pack.toUid := zero.trans all.symm
    have effects : (handlePacket locals ok s cli pack).2 = _ := respond_self own
    rw [if_pos zero, effects]
    rfl
  · have other : pack.fromUid ≠ pack.toUid := fun own => zero (own.trans all)
    have effects : (handlePacket locals ok s cli pack).2 = _ := respond_other other
    have known : ¬Unknown s.dcnClients pack := fun unknown => unknown.2 ⟨all, .inr (.inr signal)⟩
    have rule := Routing.routed_sentOn locals pack wf present
    rw [register_of_registered registered] at rule effects
    have sent := rule.broadcast known (Routing.isBroadcast_iff.mpr (.inr signal))
    have answer : ∀ code, (codeAnswer pack code).fromOs = 0 := fun _ => rfl
    rw [if_neg zero, effects, copiesOf, Routing.pushes_cons_push, Routing.pushes_append_change, sent,
      List.filter_cons_of_neg (by simp [answer]),
      List.filter_eq_self.mpr (List.forall_mem_map.mpr fun e _ => rfl), List.map_map]
    rfl

end Handle

section Deliver

variable {S R : Type} [DecidableEq S] [DecidableEq R] {T : Topology S R} {registry : S → Map UInt64 Conn}
variable {w : World S R} {pack : Packet}

def others (T : Topology S R) (r : R) (my : Nat) : List Nat := (List.range (T.links r).length).filter (· ≠ my)

theorem deliver_atServer (valid : T.Valid registry w) {s : S} {cli : Conn} (run : Locals × (Conn → Bool))
    (registered : mapAt (registry s) pack.fromUid = some cli) (signal : pack.packtype = .sigBroadcast)
    (all : pack.toUid = 0) :
    T.Valid registry (T.deliver w run (.atServer s cli pack)).1 ∧
      (T.deliver w run (.atServer s cli pack)).1.copies = w.copies ++ broadcastCopies registry s cli pack ∧
      (T.deliver w run (.atServer s cli pack)).1.emitted = w.emitted ∧
      (T.deliver w run (.atServer s cli pack)).2 =
        (broadcastCopies registry s cli pack).filterMap (T.arrival w) := by
  have here : mapAt (w.servers s).dcnClients pack.fromUid = some cli := by rwa [valid.registry]
  have present := isSome_of_registered (valid.wellFormed s) here
  have made : copiesOf s (handlePacket run.1 run.2 (w.servers s) cli pack).2 =
      broadcastCopies registry s cli pack := by
    rw [copiesOf_handlePacket s (valid.wellFormed s) here signal all, broadcastCopies, broadcastCopies,
      valid.registry]
  refine ⟨⟨fun t => ?_, fun t => ?_, valid.sessions⟩, ?_, rfl, ?_⟩
  · by_cases same : t = s
    · subst same
      simpa [Topology.deliver] using wellFormed_handlePacket (valid.wellFormed t) present
    · simpa [Topology.deliver, same] using valid.wellFormed t
  · by_cases same : t = s
    · subst same
      simp only [Topology.deliver, Function.update_self, Server.dcnClients_handlePacket]
      rw [register_of_registered here, valid.registry]
    · simpa [Topology.deliver, same] using valid.registry t
  · simp only [Topology.deliver, made]
  · simp only [Topology.deliver, made]

theorem deliver_atLink (valid : T.Valid registry w) (r : R) (my : Nat) (run : Locals × (Conn → Bool))
    (signal : pack.packtype = .sigBroadcast) :
    T.Valid registry (T.deliver w run (.atLink r my pack)).1 ∧
      (T.deliver w run (.atLink r my pack)).1.copies = w.copies ∧
      (T.deliver w run (.atLink r my pack)).1.emitted = w.emitted ++
        (others T r my).map (fun i => (r, i, Forwarding.outgoing (w.sessions r i) pack)) ∧
      (T.deliver w run (.atLink r my pack)).2 = (others T r my).filterMap fun i =>
        T.departure r (i, Forwarding.outgoing (w.sessions r i) pack) := by
  have sent := Forwarding.sent_routerRunner (w.sessions r) (T.links r).length my signal
  refine ⟨⟨valid.wellFormed, valid.registry, fun q i link place => ?_⟩, rfl, ?_, ?_⟩
  · by_cases same : q = r
    · subst same
      simp only [Topology.deliver, Function.update_self, Forwarding.cliUid_routerRunner]
      exact valid.sessions q i link place
    · simpa [Topology.deliver, same] using valid.sessions q i link place
  · simp only [Topology.deliver, sent, others, List.map_map]
    rfl
  · simp only [Topology.deliver, sent, others, List.filterMap_map]
    rfl

end Deliver

section Hubs

def hub (registry : Map UInt64 Conn) (bound : Nat) : Server where
  clients cli := if cli < bound then some (acceptClient (cli + 1) "127.0.0.1" (UInt16.ofNat cli)) else none
  dcnClients := registry
  dcnSessions := mapInit UInt64 UInt64

variable {registry : Map UInt64 Conn} {bound : Nat}

theorem clients_hub {cli : Nat} {c : Client} (present : (hub registry bound).clients cli = some c) :
    cli < bound ∧ c.fd = cli + 1 ∧ c.port = UInt16.ofNat cli := by
  simp only [hub] at present
  split at present
  · next inside => cases present; exact ⟨inside, rfl, rfl⟩
  · cases present

theorem wellFormed_hub (few : bound ≤ 2 ^ 16) (within : ∀ e ∈ registry.entries, e.2 < bound) :
    (hub registry bound).WellFormed where
  address one two c d first second _ port := by
    obtain ⟨small, -, isPort⟩ := clients_hub first
    obtain ⟨less, -, otherPort⟩ := clients_hub second
    rw [isPort, otherPort] at port
    have same := congrArg UInt16.toNat port
    simp only [UInt16.toNat_ofNat'] at same
    exact Nat.le_antisymm (by omega) (by omega)
  descriptor one two c d first second fd := by
    have isFd := (clients_hub first).2.1
    have otherFd := (clients_hub second).2.1
    exact Nat.le_antisymm (by omega) (by omega)
  valid cli c present := by
    have isFd := (clients_hub present).2.1
    omega
  registry uid cli member := by
    have inside : cli < bound := within (uid, cli) member
    simp [hub, inside]

end Hubs

end Network

end Dcn
