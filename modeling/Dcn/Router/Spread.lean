import Dcn.Foundation.Forest
import Dcn.Router.Network

/-! One broadcast over a network of routers.

A router remembers nothing of what it forwarded; only the link a packet came
over is left out. So a broadcast that can return over another link goes round
for ever, and one in a network without cycles reaches every server and every
link once at most.
-/

set_option autoImplicit false

namespace Dcn

variable {S R : Type}

def Item.vertex : Item S R → S ⊕ R
  | .atServer s _ _ => .inl s
  | .atLink r _ _ => .inr r

def World.sent (w : World S R) : List (R × Nat) := w.emitted.map fun e => (e.1, e.2.1)

def Item.copies (registry : S → Map UInt64 Conn) : Item S R → List (Copy S)
  | .atServer s cli pack => broadcastCopies registry s cli pack
  | .atLink _ _ _ => []

def Item.sends (T : Topology S R) : Item S R → List (R × Nat)
  | .atServer _ _ _ => []
  | .atLink r my _ => (Network.others T r my).map (Prod.mk r)

def Topology.graph (T : Topology S R) : SimpleGraph (S ⊕ R) :=
  SimpleGraph.fromRel fun u v => ∃ s r, u = .inl s ∧ v = .inr r ∧ ∃ link ∈ T.links r, link.server = s

/-- The part of the network that a region holds is a tree from the origin: no
router has two links to one server, and of a server and a router that are
linked one is the parent of the other. -/
structure Topology.Rooted (T : Topology S R) (origin : S) (region : S ⊕ R → Prop)
    (parent : S ⊕ R → Option (S ⊕ R)) : Prop where
  start : region (.inl origin)
  top : parent (.inl origin) = none
  closed : ∀ r, ∀ link ∈ T.links r, region (.inl link.server) ↔ region (.inr r)
  oriented : ∀ r, region (.inr r) → ∀ link ∈ T.links r,
    parent (.inr r) = some (.inl link.server) ∨ parent (.inl link.server) = some (.inr r)
  single : ∀ r, region (.inr r) → ((T.links r).map Link.server).Nodup

/-- What one broadcast has caused: a copy for every registered user at most, on
the user's own connection, and none on the connection it came on; and a packet
over every link at most. -/
structure World.Once (registry : S → Map UInt64 Conn) (origin : S) (sender : Conn) (w : World S R) : Prop where
  users : (w.copies.map fun c => (c.server, c.packet.toUid)).Nodup
  registered : ∀ c ∈ w.copies, mapAt (registry c.server) c.packet.toUid = some c.conn
  silent : ∀ c ∈ w.copies, ¬(c.server = origin ∧ c.conn = sender)
  links : w.sent.Nodup

namespace Network

section Rooted

variable {T : Topology S R} {origin : S} {region : S ⊕ R → Prop} {parent : S ⊕ R → Option (S ⊕ R)}

theorem link_unique {r : R} {i j : Nat} {one two : Link S} (single : ((T.links r).map Link.server).Nodup)
    (first : (T.links r)[i]? = some one) (second : (T.links r)[j]? = some two)
    (same : one.server = two.server) : i = j := by
  have bound : i < ((T.links r).map Link.server).length := by
    rw [List.length_map]
    exact (List.getElem?_eq_some_iff.mp first).1
  apply (List.getElem?_inj bound single).mp
  simp [first, second, same]

theorem parent_of_other (rooted : T.Rooted origin region parent) {r : R} {i j : Nat} {up down : Link S}
    (inside : region (.inr r)) (first : (T.links r)[i]? = some up) (second : (T.links r)[j]? = some down)
    (isParent : parent (.inr r) = some (.inl up.server)) (differ : j ≠ i) :
    parent (.inl down.server) = some (.inr r) := by
  refine (rooted.oriented r inside down (List.mem_of_getElem? second)).resolve_left fun other => differ ?_
  rw [isParent] at other
  exact (link_unique (rooted.single r inside) first second (Sum.inl.inj (Option.some.inj other))).symm

theorem rooted_of_tree (tree : Forest.TreeFrom T.graph (.inl origin))
    (single : ∀ r, T.graph.Reachable (.inl origin) (.inr r) → ((T.links r).map Link.server).Nodup) :
    T.Rooted origin (T.graph.Reachable (.inl origin)) (Forest.parent T.graph (.inl origin)) := by
  have edge : ∀ r, ∀ link ∈ T.links r, T.graph.Adj (.inr r) (.inl link.server) := by
    intro r link member
    rw [Topology.graph, SimpleGraph.fromRel_adj]
    exact ⟨by simp, .inr ⟨_, _, rfl, rfl, link, member, rfl⟩⟩
  refine ⟨.rfl, Forest.parent_root, fun r link member => ?_, fun r inside link member => ?_, single⟩
  · have adjacent := (edge r link member).reachable
    exact ⟨fun there => there.trans adjacent.symm, fun there => there.trans adjacent⟩
  · exact Forest.parent_of_adj tree (edge r link member) inside

end Rooted

section Routable

variable (T : Topology S R) (registry : S → Map UInt64 Conn) (origin : S) (sender : Conn)
variable (region : S ⊕ R → Prop) (parent : S ⊕ R → Option (S ⊕ R))

/-- A signal broadcast on its way away from the origin: a server has it from
the sender or from a link of its parent, a link has it from its parent. -/
def Routable : Item S R → Prop
  | .atServer s cli pack => pack.packtype = .sigBroadcast ∧ pack.toUid = 0 ∧
      mapAt (registry s) pack.fromUid = some cli ∧ region (.inl s) ∧
      (s = origin ∧ cli = sender ∨ ∃ r i, T.peer s cli = some (r, i) ∧ parent (.inl s) = some (.inr r))
  | .atLink r my pack => pack.packtype = .sigBroadcast ∧ region (.inr r) ∧
      ∃ link, (T.links r)[my]? = some link ∧ parent (.inr r) = some (.inl link.server)

end Routable

section Children

variable {T : Topology S R} {registry : S → Map UInt64 Conn} {origin : S} {sender : Conn}
variable {region : S ⊕ R → Prop} {parent : S ⊕ R → Option (S ⊕ R)} {w : World S R}

theorem mem_broadcastCopies {s : S} {cli : Conn} {pack : Packet} {copy : Copy S}
    (member : copy ∈ broadcastCopies registry s cli pack) :
    ∃ key conn, copy = ⟨s, conn, broadcastCopy pack key⟩ ∧ pack.fromUid ≠ 0 ∧
      mapAt (registry s) key = some conn ∧ key ≠ pack.fromUid ∧ conn ≠ cli := by
  unfold broadcastCopies at member
  split at member
  · cases member
  · next nonzero =>
    obtain ⟨e, kept, same⟩ := List.mem_map.mp member
    obtain ⟨stored, differ⟩ := List.mem_filter.mp kept
    have differ := of_decide_eq_true differ
    exact ⟨e.1, e.2, same.symm, nonzero, Map.mapAt_eq_some_iff.mpr stored, differ.1, differ.2⟩

theorem arrival_eq_some {copy : Copy S} {a : Item S R} (arrives : T.arrival w copy = some a) :
    ∃ r i, T.peer copy.server copy.conn = some (r, i) ∧ (w.sessions r i).Takes copy.packet ∧
      a = .atLink r i copy.packet := by
  obtain ⟨⟨r, i⟩, peer, rest⟩ := Option.bind_eq_some_iff.mp arrives
  split at rest
  · next takes => exact ⟨r, i, peer, takes, (Option.some.inj rest).symm⟩
  · cases rest

theorem departure_eq_some {r : R} {i : Nat} {pack : Packet} {a : Item S R}
    (departs : T.departure r (i, pack) = some a) :
    ∃ link, (T.links r)[i]? = some link ∧ a = .atServer link.server link.conn pack := by
  obtain ⟨link, place, same⟩ := Option.map_eq_some_iff.mp departs
  exact ⟨link, place, same.symm⟩

theorem mem_others {r : R} {my i : Nat} : i ∈ others T r my ↔ i < (T.links r).length ∧ i ≠ my := by
  simp [others]

/-- The link that a server sends to is another than the one it heard from, so
its router is a child of the server. -/
theorem parent_of_heard (rooted : T.Rooted origin region parent) {s : S} {cli conn : Conn} {r : R} {i : Nat}
    (inside : region (.inl s))
    (heard : s = origin ∧ cli = sender ∨ ∃ r i, T.peer s cli = some (r, i) ∧ parent (.inl s) = some (.inr r))
    (peer : T.peer s conn = some (r, i)) (differ : conn ≠ cli) :
    region (.inr r) ∧ parent (.inr r) = some (.inl s) := by
  obtain ⟨link, place, atServer, atConn⟩ := (T.peer_iff s conn r i).mp peer
  subst atServer
  have member := List.mem_of_getElem? place
  have child : region (.inr r) := (rooted.closed r link member).mp inside
  refine ⟨child, (rooted.oriented r child link member).resolve_right fun above => ?_⟩
  rcases heard with ⟨top, _⟩ | ⟨q, j, back, isParent⟩
  · rw [top, rooted.top] at above
    cases above
  · -- Its router would be the parent twice, over one and the same link.
    rw [isParent] at above
    have same : q = r := Sum.inr.inj (Option.some.inj above)
    subst same
    obtain ⟨other, otherPlace, otherServer, otherConn⟩ := (T.peer_iff _ cli q j).mp back
    have equal := link_unique (rooted.single q child) place otherPlace otherServer.symm
    subst equal
    rw [place] at otherPlace
    cases otherPlace
    exact differ (atConn.symm.trans otherConn)

theorem server_children (rooted : T.Rooted origin region parent) {s : S} {cli : Conn} {pack : Packet}
    (routable : Routable T registry origin sender region parent (.atServer s cli pack)) {a : Item S R}
    (member : a ∈ (broadcastCopies registry s cli pack).filterMap (T.arrival w)) :
    Routable T registry origin sender region parent a ∧ parent a.vertex = some (.inl s) := by
  obtain ⟨signal, all, registered, inside, heard⟩ := routable
  obtain ⟨copy, isCopy, arrives⟩ := List.mem_filterMap.mp member
  obtain ⟨key, conn, shape, nonzero, stored, otherUid, otherConn⟩ := mem_broadcastCopies isCopy
  obtain ⟨r, i, peer, takes, isItem⟩ := arrival_eq_some arrives
  subst shape isItem
  obtain ⟨link, place, atServer, atConn⟩ := (T.peer_iff s conn r i).mp peer
  obtain ⟨below, isParent⟩ := parent_of_heard rooted inside heard peer otherConn
  exact ⟨⟨signal, below, link, place, by rw [isParent, atServer]⟩, isParent⟩

theorem link_children (rooted : T.Rooted origin region parent) (valid : T.Valid registry w)
    (linked : T.Linked registry) {r : R} {my : Nat} {pack : Packet}
    (routable : Routable T registry origin sender region parent (.atLink r my pack)) {a : Item S R}
    (member : a ∈ (others T r my).filterMap fun i =>
      T.departure r (i, Forwarding.outgoing (w.sessions r i) pack)) :
    Routable T registry origin sender region parent a ∧ parent a.vertex = some (.inr r) := by
  obtain ⟨signal, inside, up, upPlace, isParent⟩ := routable
  obtain ⟨i, other, departs⟩ := List.mem_filterMap.mp member
  obtain ⟨down, place, isItem⟩ := departure_eq_some departs
  subst isItem
  have isListed := List.mem_of_getElem? place
  have child := parent_of_other rooted inside upPlace place isParent (mem_others.mp other).2
  have registered : mapAt (registry down.server) (w.sessions r i).cliUid = some down.conn := by
    rw [valid.sessions r i down place]
    exact linked r down isListed
  have reached : region (.inl down.server) := (rooted.closed r down isListed).mpr inside
  exact ⟨⟨signal, rfl, registered, reached, .inr ⟨r, i, T.peer_link place, child⟩⟩, child⟩

theorem atLink_mem_children (valid : T.Valid registry w) (linked : T.Linked registry) {r : R} {i : Nat}
    {link : Link S} {cli : Conn} {pack : Packet} (place : (T.links r)[i]? = some link)
    (nonzero : pack.fromUid ≠ 0) (registered : mapAt (registry link.server) pack.fromUid = some cli)
    (request : pack.packtype ≠ .response) (otherConn : link.conn ≠ cli) :
    .atLink r i (broadcastCopy pack link.uid) ∈
      (broadcastCopies registry link.server cli pack).filterMap (T.arrival w) := by
  have stored := linked r link (List.mem_of_getElem? place)
  -- A UID is registered for one connection.
  have otherUid : link.uid ≠ pack.fromUid := by
    intro same
    rw [same, registered] at stored
    exact otherConn (Option.some.inj stored).symm
  have made : ⟨link.server, link.conn, broadcastCopy pack link.uid⟩ ∈
      broadcastCopies registry link.server cli pack := by
    rw [broadcastCopies, if_neg nonzero]
    refine List.mem_map.mpr ⟨(link.uid, link.conn), ?_, rfl⟩
    simpa [otherUid, otherConn] using Map.mapAt_eq_some_iff.mp stored
  refine List.mem_filterMap.mpr ⟨_, made, ?_⟩
  have takes : (w.sessions r i).Takes (broadcastCopy pack link.uid) :=
    ⟨(valid.sessions r i link place).symm, by simp [broadcastCopy], request⟩
  simp only [Topology.arrival, T.peer_link place, Option.bind_some, if_pos takes]

theorem atServer_mem_children {r : R} {my i : Nat} {link : Link S} {pack : Packet}
    (place : (T.links r)[i]? = some link) (other : i ≠ my) :
    .atServer link.server link.conn (Forwarding.outgoing (w.sessions r i) pack) ∈
      (others T r my).filterMap fun i => T.departure r (i, Forwarding.outgoing (w.sessions r i) pack) := by
  have bound := (List.getElem?_eq_some_iff.mp place).1
  refine List.mem_filterMap.mpr ⟨i, mem_others.mpr ⟨bound, other⟩, ?_⟩
  simp only [Topology.departure, place, Option.map_some]

theorem keys_broadcastCopies (s : S) (cli : Conn) (pack : Packet) :
    ((broadcastCopies registry s cli pack).map fun c => (c.server, c.packet.toUid)).Nodup := by
  unfold broadcastCopies
  split
  · exact List.nodup_nil
  · rw [List.map_map]
    have kept : ((registry s).entries.filter fun e => e.1 ≠ pack.fromUid ∧ e.2 ≠ cli).Sublist
      (registry s).entries := List.filter_sublist
    have keys := ((registry s).unique.sublist (kept.map Prod.fst)).map (Prod.mk_right_injective s)
    rwa [List.map_map] at keys

theorem distinct_server_children (rooted : T.Rooted origin region parent) {s : S}
    {cli : Conn} {pack : Packet} (inside : region (.inl s)) :
    (((broadcastCopies registry s cli pack).filterMap (T.arrival w)).map Item.vertex).Nodup := by
  rw [List.map_filterMap]
  refine Worklist.nodup_filterMap (keys_broadcastCopies s cli pack) fun one isOne two isTwo v first second => ?_
  obtain ⟨key, conn, shape, -⟩ := mem_broadcastCopies isOne
  obtain ⟨uid, other, otherShape, -⟩ := mem_broadcastCopies isTwo
  obtain ⟨a, arrives, isVertex⟩ := Option.map_eq_some_iff.mp first
  obtain ⟨b, follows, again⟩ := Option.map_eq_some_iff.mp second
  obtain ⟨r, i, peer, takes, isItem⟩ := arrival_eq_some arrives
  obtain ⟨q, j, back, takesToo, isOther⟩ := arrival_eq_some follows
  subst isItem isOther shape otherShape isVertex
  have same : q = r := Sum.inr.inj again
  subst same
  obtain ⟨link, place, atServer, -⟩ := (T.peer_iff s conn q i).mp peer
  obtain ⟨more, placed, there, -⟩ := (T.peer_iff s other q j).mp back
  -- one router has one link to this server, whose session takes packets for one UID
  have child : region (.inr q) := (rooted.closed q link (List.mem_of_getElem? place)).mp (atServer ▸ inside)
  have equal := link_unique (rooted.single q child) place placed (atServer.trans there.symm)
  subst equal
  exact congrArg (Prod.mk s) (takes.1.trans takesToo.1.symm)

theorem distinct_link_children (rooted : T.Rooted origin region parent) {r : R} {my : Nat} {pack : Packet}
    (inside : region (.inr r)) :
    (((others T r my).filterMap fun i =>
      T.departure r (i, Forwarding.outgoing (w.sessions r i) pack)).map Item.vertex).Nodup := by
  rw [List.map_filterMap]
  have keys : ((others T r my).map id).Nodup := by
    rw [List.map_id]
    exact List.nodup_range.filter _
  refine Worklist.nodup_filterMap keys fun i _ j _ v first second => ?_
  obtain ⟨a, departs, isVertex⟩ := Option.map_eq_some_iff.mp first
  obtain ⟨b, follows, again⟩ := Option.map_eq_some_iff.mp second
  obtain ⟨one, place, isItem⟩ := departure_eq_some departs
  obtain ⟨two, placed, isOther⟩ := departure_eq_some follows
  subst isItem isOther isVertex
  exact link_unique (rooted.single r inside) place placed (Sum.inl.inj again).symm

theorem keys_copies (a : Item S R) : ((a.copies registry).map fun c => (c.server, c.packet.toUid)).Nodup := by
  cases a with
  | atServer s cli pack => exact keys_broadcastCopies s cli pack
  | atLink r my pack => exact List.nodup_nil

theorem server_of_mem_copies {a : Item S R} {c : Copy S} (member : c ∈ a.copies registry) :
    .inl c.server = a.vertex := by
  cases a with
  | atServer s cli pack =>
    obtain ⟨key, conn, shape, -⟩ := mem_broadcastCopies member
    rw [shape]
    rfl
  | atLink r my pack => cases member

theorem nodup_sends (a : Item S R) : (a.sends T).Nodup := by
  cases a with
  | atServer s cli pack => exact List.nodup_nil
  | atLink r my pack => exact (List.nodup_range.filter _).map (Prod.mk_right_injective r)

theorem router_of_mem_sends {a : Item S R} {e : R × Nat} (member : e ∈ a.sends T) : .inr e.1 = a.vertex := by
  cases a with
  | atServer s cli pack => cases member
  | atLink r my pack =>
    obtain ⟨i, _, same⟩ := List.mem_map.mp member
    rw [← same]
    rfl

theorem registered_copies {a : Item S R} {c : Copy S} (member : c ∈ a.copies registry) :
    mapAt (registry c.server) c.packet.toUid = some c.conn := by
  cases a with
  | atServer s cli pack =>
    obtain ⟨key, conn, shape, -, stored, -⟩ := mem_broadcastCopies member
    rw [shape]
    exact stored
  | atLink r my pack => cases member

theorem silent_copies (rooted : T.Rooted origin region parent) {a : Item S R}
    (routable : Routable T registry origin sender region parent a) {c : Copy S} (member : c ∈ a.copies registry) :
    ¬(c.server = origin ∧ c.conn = sender) := by
  cases a with
  | atServer s cli pack =>
    rintro ⟨atOrigin, isSender⟩
    obtain ⟨key, conn, shape, -, -, -, otherConn⟩ := mem_broadcastCopies member
    subst shape
    rcases routable.2.2.2.2 with ⟨-, first⟩ | ⟨r, i, -, isParent⟩
    · exact otherConn (isSender.trans first.symm)
    · rw [show s = origin from atOrigin, rooted.top] at isParent
      cases isParent
  | atLink r my pack => cases member

end Children

section Spreading

variable {T : Topology S R} {registry : S → Map UInt64 Conn} {origin : S} {sender : Conn}
variable {region : S ⊕ R → Prop} {parent : S ⊕ R → Option (S ⊕ R)} {w : Worklist (World S R) (Item S R)}

structure Spreading (T : Topology S R) (registry : S → Map UInt64 Conn) (origin : S) (sender : Conn)
    (region : S ⊕ R → Prop) (parent : S ⊕ R → Option (S ⊕ R)) (w : Worklist (World S R) (Item S R)) : Prop where
  grown : Worklist.Grown (T.Valid registry) (Routable T registry origin sender region parent) Item.vertex parent w
  copies : Worklist.Logged World.copies (Item.copies registry) w
  sends : Worklist.Logged World.sent (Item.sends T) w

theorem Spreading.once (rooted : T.Rooted origin region parent)
    (spreading : Spreading T registry origin sender region parent w) : w.state.Once registry origin sender := by
  have distinct := spreading.grown.distinct_done
  refine ⟨?_, fun c member => ?_, fun c member => ?_, ?_⟩
  · rw [spreading.copies, List.map_flatMap]
    refine Worklist.nodup_flatMap (fun e => .inl e.1) distinct (fun a _ => keys_copies a) fun a _ e member => ?_
    obtain ⟨c, isCopy, same⟩ := List.mem_map.mp member
    rw [← same, server_of_mem_copies isCopy]
  · rw [spreading.copies] at member
    obtain ⟨a, -, made⟩ := List.mem_flatMap.mp member
    exact registered_copies made
  · rw [spreading.copies] at member
    obtain ⟨a, processed, made⟩ := List.mem_flatMap.mp member
    exact silent_copies rooted (spreading.grown.good_done processed) made
  · rw [spreading.sends]
    exact Worklist.nodup_flatMap (fun e => .inr e.1) distinct (fun a _ => nodup_sends a)
      fun a _ e member => router_of_mem_sends member

theorem Spreading.few [Fintype R] (rooted : T.Rooted origin region parent)
    (spreading : Spreading T registry origin sender region parent w) :
    w.state.emitted.length ≤ ∑ r, (T.links r).length := by
  have inside : ∀ e ∈ w.state.sent, e.2 ∈ List.range (T.links e.1).length := by
    intro e member
    rw [spreading.sends] at member
    obtain ⟨a, _, sent⟩ := List.mem_flatMap.mp member
    cases a with
    | atServer s cli pack => cases sent
    | atLink r my pack =>
      obtain ⟨i, other, same⟩ := List.mem_map.mp sent
      subst same
      exact List.mem_range.mpr (mem_others.mp other).1
  have bound := Worklist.length_le_sum (fun r => List.range (T.links r).length)
    (spreading.once rooted).links inside
  simpa [World.sent] using bound

theorem spreading_start (rooted : T.Rooted origin region parent) {start : World S R} {pack : Packet}
    (valid : T.Valid registry start) (copies : start.copies = []) (emitted : start.emitted = [])
    (registered : mapAt (registry origin) pack.fromUid = some sender)
    (signal : pack.packtype = .sigBroadcast) (all : pack.toUid = 0) :
    Spreading T registry origin sender region parent (Worklist.start start (.atServer origin sender pack)) where
  grown := Worklist.grown_start valid ⟨signal, all, registered, rooted.start, .inl ⟨rfl, rfl⟩⟩ rooted.top
  copies := by simp [Worklist.Logged, Worklist.start, copies]
  sends := by simp [Worklist.Logged, Worklist.start, World.sent, emitted]

end Spreading

section Spreads

variable [DecidableEq S] [DecidableEq R] {T : Topology S R} {registry : S → Map UInt64 Conn} {origin : S}
variable {sender : Conn} {region : S ⊕ R → Prop} {parent : S ⊕ R → Option (S ⊕ R)}

theorem children_atServer {w : World S R} (valid : T.Valid registry w) (run : Locals × (Conn → Bool)) {s : S}
    {cli : Conn} {pack : Packet}
    (routable : Routable T registry origin sender region parent (.atServer s cli pack)) :
    (T.deliver w run (.atServer s cli pack)).2 =
      (broadcastCopies registry s cli pack).filterMap (T.arrival w) :=
  (deliver_atServer valid run routable.2.2.1 routable.1 routable.2.1).2.2.2

theorem children_atLink {w : World S R} (valid : T.Valid registry w) (run : Locals × (Conn → Bool)) {r : R}
    {my : Nat} {pack : Packet} (routable : Routable T registry origin sender region parent (.atLink r my pack)) :
    (T.deliver w run (.atLink r my pack)).2 = (others T r my).filterMap fun i =>
      T.departure r (i, Forwarding.outgoing (w.sessions r i) pack) :=
  (deliver_atLink valid r my run routable.1).2.2.2

theorem spreads (rooted : T.Rooted origin region parent) (linked : T.Linked registry) :
    Worklist.Spreads T.deliver (T.Valid registry) (Routable T registry origin sender region parent)
      Item.vertex parent where
  state w run a valid routable := by
    cases a with
    | atServer s cli pack => exact (deliver_atServer valid run routable.2.2.1 routable.1 routable.2.1).1
    | atLink r my pack => exact (deliver_atLink valid r my run routable.1).1
  items w run a valid routable b member := by
    cases a with
    | atServer s cli pack =>
      rw [children_atServer valid run routable] at member
      exact (server_children rooted routable member).1
    | atLink r my pack =>
      rw [children_atLink valid run routable] at member
      exact (link_children rooted valid linked routable member).1
  child w run a valid routable b member := by
    cases a with
    | atServer s cli pack =>
      rw [children_atServer valid run routable] at member
      exact (server_children rooted routable member).2
    | atLink r my pack =>
      rw [children_atLink valid run routable] at member
      exact (link_children rooted valid linked routable member).2
  distinct w run a valid routable := by
    cases a with
    | atServer s cli pack =>
      rw [children_atServer valid run routable]
      exact distinct_server_children rooted routable.2.2.2.1
    | atLink r my pack =>
      rw [children_atLink valid run routable]
      exact distinct_link_children rooted routable.2.1

theorem logged_copies (w : World S R) (run : Locals × (Conn → Bool)) (a : Item S R) (valid : T.Valid registry w)
    (routable : Routable T registry origin sender region parent a) :
    (T.deliver w run a).1.copies = w.copies ++ a.copies registry := by
  cases a with
  | atServer s cli pack => exact (deliver_atServer valid run routable.2.2.1 routable.1 routable.2.1).2.1
  | atLink r my pack =>
    rw [(deliver_atLink valid r my run routable.1).2.1]
    exact (List.append_nil _).symm

theorem logged_sends (w : World S R) (run : Locals × (Conn → Bool)) (a : Item S R) (valid : T.Valid registry w)
    (routable : Routable T registry origin sender region parent a) :
    (T.deliver w run a).1.sent = w.sent ++ a.sends T := by
  unfold World.sent
  cases a with
  | atServer s cli pack =>
    rw [(deliver_atServer valid run routable.2.2.1 routable.1 routable.2.1).2.2.1]
    exact (List.append_nil _).symm
  | atLink r my pack =>
    rw [(deliver_atLink valid r my run routable.1).2.2.1, List.map_append, List.map_map]
    rfl

theorem spreading_step (rooted : T.Rooted origin region parent) (linked : T.Linked registry)
    (w : Worklist (World S R) (Item S R)) (choice : Nat × (Locals × (Conn → Bool)))
    (spreading : Spreading T registry origin sender region parent w) :
    Spreading T registry origin sender region parent (Worklist.step T.deliver w choice) where
  grown := Worklist.grown_step (spreads rooted linked) w choice spreading.grown
  copies := Worklist.logged_step logged_copies choice spreading.grown spreading.copies
  sends := Worklist.logged_step logged_sends choice spreading.grown spreading.sends

/-- Where the part of the network that the origin reaches has no cycle, one
broadcast causes one packet over every link and one copy for every registered
user at most, and none for its originator, whatever is taken up when. -/
theorem sigBroadcast_once [Fintype R] {w : World S R} {pack : Packet} (valid : T.Valid registry w)
    (linked : T.Linked registry) (copies : w.copies = []) (emitted : w.emitted = [])
    (registered : mapAt (registry origin) pack.fromUid = some sender)
    (signal : pack.packtype = .sigBroadcast) (all : pack.toUid = 0)
    (tree : Forest.TreeFrom T.graph (.inl origin))
    (single : ∀ r, T.graph.Reachable (.inl origin) (.inr r) → ((T.links r).map Link.server).Nodup)
    (choices : List (Nat × (Locals × (Conn → Bool)))) :
    Runs.Throughout (Worklist.step T.deliver)
      (fun l => l.state.Once registry origin sender ∧ l.state.emitted.length ≤ ∑ r, (T.links r).length)
      (Worklist.start w (.atServer origin sender pack)) choices := by
  have rooted := rooted_of_tree tree single
  have start := spreading_start rooted valid copies emitted registered signal all
  have spreading := Runs.throughout_of_preserved_all (spreading_step rooted linked) start choices
  exact spreading.mono fun l kept => ⟨kept.once rooted, kept.few rooted⟩

end Spreads

section Bridge

theorem tree_of_one_router (T : Topology S Unit) (root : S ⊕ Unit) : Forest.TreeFrom T.graph root := by
  apply Forest.treeFrom_of_above (Sum.elim (fun _ => some (.inr ())) fun _ => none)
    (Sum.elim (fun _ => 1) fun _ => 0)
  intro u v edge deeper
  cases u with
  | inl s =>
    cases v with
    | inl t => simp [Topology.graph] at edge
    | inr r => rfl
  | inr r =>
    cases v with
    | inl t => cases deeper
    | inr q => exact absurd rfl edge.ne

def bridgeLink (s : Fin 3) : Link (Fin 3) := ⟨s, 0, UInt64.ofNat (100 + s.val)⟩

def bridgeTopology : Topology (Fin 3) Unit where
  links _ := [bridgeLink 0, bridgeLink 1, bridgeLink 2]
  peer s conn := if conn = 0 then some ((), s.val) else none
  peer_iff := by
    intro s conn r i
    rcases i with _ | _ | _ | i <;> fin_cases s <;> simp [bridgeLink] <;> grind

def bridgeRegistry (s : Fin 3) : Map UInt64 Conn :=
  mapSet (mapSet (mapInit UInt64 Conn) (UInt64.ofNat (1 + s.val)) 1) (bridgeLink s).uid (bridgeLink s).conn

def bridgeWorld : World (Fin 3) Unit where
  servers s := hub (bridgeRegistry s) 2
  sessions _ i := dcnNewSession (UInt64.ofNat (100 + i))
  copies := []
  emitted := []

theorem valid_bridgeWorld : bridgeTopology.Valid bridgeRegistry bridgeWorld where
  wellFormed s := wellFormed_hub (by decide) (by fin_cases s <;> decide)
  registry _ := rfl
  sessions r i link place := by
    rcases i with _ | _ | _ | i
    · cases place; rfl
    · cases place; rfl
    · cases place; rfl
    · cases place

theorem linked_bridge : bridgeTopology.Linked bridgeRegistry := by
  unfold Topology.Linked
  decide

def signal : Packet := { packetInit [104, 105] 2 0 1 with packtype := .sigBroadcast }

def inTurn (steps : Nat) : List (Nat × (Locals × (Conn → Bool))) :=
  List.replicate steps (0, Locals.blank, fun _ => true)

theorem sigBroadcast_once_bridge :
    Runs.Throughout (Worklist.step bridgeTopology.deliver)
      (fun l => l.state.Once bridgeRegistry 1 1 ∧ l.state.emitted.length ≤ 3)
      (Worklist.start bridgeWorld (.atServer 1 1 signal)) (inTurn 4) :=
  sigBroadcast_once valid_bridgeWorld linked_bridge rfl rfl (by decide) rfl rfl (tree_of_one_router _ _)
    (fun _ _ => show ([0, 1, 2] : List (Fin 3)).Nodup by decide) (inTurn 4)

end Bridge

end Network

end Dcn
