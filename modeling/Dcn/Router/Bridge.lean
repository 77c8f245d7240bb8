import Dcn.Router.Spread

/-! One router between any number of servers.

Its network is a star, so a broadcast goes from the server of its originator to
the router and from there to every other server, once each, and is over.
-/

set_option autoImplicit false

namespace Dcn

variable {S : Type}

/-- One router has one link to each server, registered under a UID of its own
that is not 0, and no connection has two UIDs. -/
structure Topology.Bridges (T : Topology S Unit) (registry : S → Map UInt64 Conn) : Prop where
  single : ((T.links ()).map Link.server).Nodup
  whole : ∀ s, ∃ link ∈ T.links (), link.server = s
  linked : T.Linked registry
  nonzero : ∀ link ∈ T.links (), link.uid ≠ 0
  apart : ∀ s, ((registry s).entries.map Prod.snd).Nodup

/-- What is to become of a broadcast: every client but the originator has one
copy, a copy on another server names the originator, and no link but the one
to the originator's server has one. -/
structure World.Bridged [DecidableEq S] (T : Topology S Unit) (registry : S → Map UInt64 Conn) (origin : S)
    (sender : Conn) (pack : Packet) (w : World S Unit) : Prop where
  clients : ∀ s key conn, mapAt (registry s) key = some conn → T.peer s conn = none →
    ¬(s = origin ∧ conn = sender) → ∃ copy,
      (w.copies.filter fun c => c.server = s ∧ c.conn = conn) = [copy] ∧
        copy.packet.data = pack.data ∧ copy.packet.packtype = pack.packtype
  named : ∀ c ∈ w.copies, c.server ≠ origin → c.packet.travFuid = pack.fromUid
  links : ∀ c ∈ w.copies, ∀ link, T.peer c.server c.conn = some link → c.server = origin
  once : w.sent.Nodup

namespace Network

section Star

variable [DecidableEq S] (origin : S)

def above : S ⊕ Unit → Option (S ⊕ Unit)
  | .inl s => if s = origin then none else some (.inr ())
  | .inr _ => some (.inl origin)

variable {origin} {T : Topology S Unit} {registry : S → Map UInt64 Conn}

theorem rooted_bridges (bridges : T.Bridges registry) : T.Rooted origin (fun _ => True) (above origin) where
  start := trivial
  top := if_pos rfl
  closed _ _ _ := Iff.rfl
  oriented _ _ link _ := by
    by_cases top : link.server = origin
    · exact .inl (by rw [top]; rfl)
    · exact .inr (if_neg top)
  single _ _ := bridges.single

theorem above_inl {s : S} {v : S ⊕ Unit} : above origin (.inl s) = some v ↔ s ≠ origin ∧ v = .inr () := by
  by_cases top : s = origin <;> simp [above, top, eq_comm]

theorem above_inr {r : Unit} {v : S ⊕ Unit} : above origin (.inr r) = some v ↔ v = .inl origin := by
  simp [above, eq_comm]

end Star

def Bears (origin : S) (sender : Conn) (pack : Packet) : Item S Unit → Prop
  | .atServer s cli p => s = origin ∧ cli = sender ∧ p = pack ∨
      s ≠ origin ∧ p.data = pack.data ∧ p.travFuid = pack.fromUid ∧ p.fromUid ≠ 0
  | .atLink _ _ p => p.data = pack.data ∧ p.origTravFuid = pack.fromUid

section Bearing

variable [DecidableEq S] {T : Topology S Unit} {registry : S → Map UInt64 Conn} {origin : S} {sender : Conn}
variable {pack : Packet}

theorem bears_children (bridges : T.Bridges registry) (fresh : pack.travFuid = 0) (w : World S Unit)
    (run : Locals × (Conn → Bool)) (a : Item S Unit) (valid : T.Valid registry w)
    (routable : Routable T registry origin sender (fun _ => True) (above origin) a)
    (bears : Bears origin sender pack a) : ∀ b ∈ (T.deliver w run a).2, Bears origin sender pack b := by
  have rooted : T.Rooted origin (fun _ => True) (above origin) := rooted_bridges bridges
  intro b member
  cases a with
  | atServer s cli p =>
    rw [children_atServer valid run routable] at member
    have below := (server_children rooted routable member).2
    obtain ⟨copy, isCopy, arrives⟩ := List.mem_filterMap.mp member
    obtain ⟨key, conn, shape, -⟩ := mem_broadcastCopies isCopy
    obtain ⟨r, i, -, -, isItem⟩ := arrival_eq_some arrives
    subst shape isItem
    have top := Sum.inl.inj (above_inr.mp below)
    rcases bears with ⟨-, -, same⟩ | ⟨elsewhere, -⟩
    · subst same
      exact ⟨rfl, if_pos fresh⟩
    · exact absurd top elsewhere
  | atLink r my p =>
    rw [children_atLink valid run routable] at member
    have below := (link_children rooted valid bridges.linked routable member).2
    obtain ⟨i, -, departs⟩ := List.mem_filterMap.mp member
    obtain ⟨down, place, isItem⟩ := departure_eq_some departs
    subst isItem
    refine .inr ⟨(above_inl.mp below).1, bears.1, bears.2, ?_⟩
    have isUid : (w.sessions r i).cliUid = down.uid := valid.sessions r i down place
    show (w.sessions r i).cliUid ≠ 0
    rw [isUid]
    exact bridges.nonzero down (List.mem_of_getElem? place)

theorem reaches_router (bridges : T.Bridges registry) (client : T.peer origin sender = none)
    (nonzero : pack.fromUid ≠ 0) {w : World S Unit} (valid : T.Valid registry w)
    (routable : Routable T registry origin sender (fun _ => True) (above origin) (.atServer origin sender pack)) :
    ∃ i sent, .atLink () i sent ∈ (broadcastCopies registry origin sender pack).filterMap (T.arrival w) := by
  obtain ⟨link, member, atServer⟩ := bridges.whole origin
  obtain ⟨i, place⟩ := List.mem_iff_getElem?.mp member
  subst atServer
  have otherConn : link.conn ≠ sender := by
    intro equal
    have peer := T.peer_link place
    rw [equal, client] at peer
    cases peer
  exact ⟨i, _, atLink_mem_children valid bridges.linked place nonzero routable.2.2.1
    (routable.1 ▸ by decide) otherConn⟩

theorem reaches_server (bridges : T.Bridges registry) {w : World S Unit} {my : Nat} {p : Packet} {t : S}
    (routable : Routable T registry origin sender (fun _ => True) (above origin) (.atLink () my p))
    (other : t ≠ origin) : ∃ conn sent, .atServer t conn sent ∈
      (others T () my).filterMap fun i => T.departure () (i, Forwarding.outgoing (w.sessions () i) p) := by
  obtain ⟨-, -, up, upPlace, isAbove⟩ := routable
  obtain ⟨link, member, atServer⟩ := bridges.whole t
  obtain ⟨i, place⟩ := List.mem_iff_getElem?.mp member
  have differ : i ≠ my := by
    intro same
    subst same
    rw [place] at upPlace
    cases upPlace
    exact other (atServer.symm.trans (Sum.inl.inj (above_inr.mp isAbove)))
  subst atServer
  exact ⟨_, _, atServer_mem_children place differ⟩

theorem reaches_children (bridges : T.Bridges registry) (client : T.peer origin sender = none)
    (nonzero : pack.fromUid ≠ 0) (w : World S Unit) (run : Locals × (Conn → Bool)) (a : Item S Unit)
    (valid : T.Valid registry w)
    (routable : Routable T registry origin sender (fun _ => True) (above origin) a)
    (bears : Bears origin sender pack a) (v : S ⊕ Unit) (isParent : above origin v = some a.vertex) :
    v ∈ (T.deliver w run a).2.map Item.vertex := by
  cases a with
  | atServer s cli p =>
    rw [children_atServer valid run routable]
    cases v with
    | inl t => cases (above_inl.mp isParent).2
    | inr r =>
      -- The router is below the originator's server only.
      have top := Sum.inl.inj (above_inr.mp isParent)
      rcases bears with ⟨-, isSender, same⟩ | ⟨elsewhere, -⟩
      · subst top isSender same
        obtain ⟨i, sent, made⟩ := reaches_router bridges client nonzero valid routable
        exact List.mem_map_of_mem made
      · exact absurd top elsewhere
  | atLink r my p =>
    rw [children_atLink valid run routable]
    cases v with
    | inl t =>
      obtain ⟨conn, sent, made⟩ := reaches_server bridges routable (above_inl.mp isParent).1
      exact List.mem_map_of_mem made
    | inr q => cases above_inr.mp isParent

end Bearing

structure Bridging [DecidableEq S] (T : Topology S Unit) (registry : S → Map UInt64 Conn) (origin : S)
    (sender : Conn) (pack : Packet) (w : Worklist (World S Unit) (Item S Unit)) : Prop where
  spreading : Spreading T registry origin sender (fun _ => True) (above origin) w
  bears : ∀ a ∈ w.items, Bears origin sender pack a
  complete : Worklist.Complete Item.vertex (above origin) (.inl origin) w

section Bridging

variable [DecidableEq S] {T : Topology S Unit} {registry : S → Map UInt64 Conn} {origin : S} {sender : Conn}
variable {pack : Packet} {w : Worklist (World S Unit) (Item S Unit)}

theorem bridging_step (bridges : T.Bridges registry) (client : T.peer origin sender = none)
    (fresh : pack.travFuid = 0) (nonzero : pack.fromUid ≠ 0) (w : Worklist (World S Unit) (Item S Unit))
    (choice : Nat × (Locals × (Conn → Bool))) (bridging : Bridging T registry origin sender pack w) :
    Bridging T registry origin sender pack (Worklist.step T.deliver w choice) where
  spreading := spreading_step (rooted_bridges bridges) bridges.linked w choice bridging.spreading
  bears := Worklist.all_step (bears_children bridges fresh) choice bridging.spreading.grown bridging.bears
  complete := Worklist.complete_step (reaches_children bridges client nonzero) choice
    bridging.spreading.grown bridging.bears bridging.complete

theorem bridging_throughout (bridges : T.Bridges registry) {w : World S Unit} (valid : T.Valid registry w)
    (copies : w.copies = []) (emitted : w.emitted = [])
    (registered : mapAt (registry origin) pack.fromUid = some sender) (client : T.peer origin sender = none)
    (signal : pack.packtype = .sigBroadcast) (all : pack.toUid = 0) (fresh : pack.travFuid = 0)
    (nonzero : pack.fromUid ≠ 0) (choices : List (Nat × (Locals × (Conn → Bool)))) :
    Runs.Throughout (Worklist.step T.deliver) (Bridging T registry origin sender pack)
      (Worklist.start w (.atServer origin sender pack)) choices := by
  refine Runs.throughout_of_preserved_all (bridging_step bridges client fresh nonzero) ⟨?_, ?_, ?_⟩ choices
  · exact spreading_start (rooted_bridges bridges) valid copies emitted registered signal all
  · intro a member
    rw [show a = _ from by simpa [Worklist.start, Worklist.items] using member]
    exact .inl ⟨rfl, rfl, rfl⟩
  · show Worklist.Complete Item.vertex (above origin) (Item.vertex (.atServer origin sender pack)) _
    exact Worklist.complete_start

theorem all_processed (bridging : Bridging T registry origin sender pack w) (quiet : w.pending = [])
    (v : S ⊕ Unit) : v ∈ w.done.map Item.vertex := by
  have processed : w.items = w.done := by simp [Worklist.items, quiet]
  have complete := bridging.complete
  have root := complete.root
  -- The items are all processed, so their children are.
  have child : ∀ u ∈ w.done.map Item.vertex, ∀ v, above origin v = some u → v ∈ w.done.map Item.vertex := by
    intro u member v isParent
    obtain ⟨a, isDone, isVertex⟩ := List.mem_map.mp member
    subst isVertex
    exact processed ▸ complete.child a isDone v isParent
  rw [processed] at root
  have router := child _ root (.inr ()) rfl
  cases v with
  | inr r => exact router
  | inl s =>
    by_cases top : s = origin
    · exact top ▸ root
    · exact child _ router (.inl s) (above_inl.mpr ⟨top, rfl⟩)

theorem copy_cases (bridging : Bridging T registry origin sender pack w) (signal : pack.packtype = .sigBroadcast)
    {c : Copy S} (member : c ∈ w.state.copies) :
    mapAt (registry c.server) c.packet.toUid = some c.conn ∧ c.packet.data = pack.data ∧
      c.packet.packtype = pack.packtype ∧ (c.server ≠ origin → c.packet.travFuid = pack.fromUid) ∧
      ∃ cli, c.conn ≠ cli ∧
        (c.server = origin ∧ cli = sender ∨
          ∃ r i, T.peer c.server cli = some (r, i) ∧ above origin (.inl c.server) = some (.inr r)) := by
  rw [bridging.spreading.copies] at member
  obtain ⟨a, isDone, made⟩ := List.mem_flatMap.mp member
  have bears := bridging.bears a (List.mem_append_right _ isDone)
  have routable := bridging.spreading.grown.good_done isDone
  cases a with
  | atServer s cli p =>
    obtain ⟨key, conn, shape, -, stored, -, otherConn⟩ := mem_broadcastCopies made
    subst shape
    have data : p.data = pack.data := by
      rcases bears with ⟨-, -, same⟩ | ⟨-, data, -⟩
      · rw [same]
      · exact data
    refine ⟨stored, data, routable.1.trans signal.symm, fun elsewhere => ?_, cli, otherConn, routable.2.2.2.2⟩
    rcases bears with ⟨top, -⟩ | ⟨-, -, named, -⟩
    · exact absurd top elsewhere
    · exact named
  | atLink r my p => cases made

theorem server_of_link (bridges : T.Bridges registry) (bridging : Bridging T registry origin sender pack w)
    (signal : pack.packtype = .sigBroadcast) {c : Copy S} (member : c ∈ w.state.copies) {link : Unit × Nat}
    (peer : T.peer c.server c.conn = some link) : c.server = origin := by
  obtain ⟨-, -, -, -, cli, otherConn, heard⟩ := copy_cases bridging signal member
  have below := (parent_of_heard (rooted_bridges bridges) trivial heard peer otherConn).2
  exact Sum.inl.inj (above_inr.mp below)

theorem copy_of_client (bridging : Bridging T registry origin sender pack w) (quiet : w.pending = [])
    (nonzero : pack.fromUid ≠ 0) {s : S} {key : UInt64} {conn : Conn}
    (stored : mapAt (registry s) key = some conn) (client : T.peer s conn = none)
    (other : ¬(s = origin ∧ conn = sender)) :
    ∃ c ∈ w.state.copies, c.server = s ∧ c.conn = conn ∧ c.packet.toUid = key := by
  obtain ⟨a, isDone, isVertex⟩ := List.mem_map.mp (all_processed bridging quiet (.inl s))
  have bears := bridging.bears a (List.mem_append_right _ isDone)
  have routable := bridging.spreading.grown.good_done isDone
  cases a with
  | atServer t cli p =>
    have same : t = s := Sum.inl.inj isVertex
    subst same
    obtain ⟨-, -, registered, -, heard⟩ := routable
    -- A client is neither the sender nor a link.
    have otherConn : conn ≠ cli := by
      intro equal
      subst equal
      rcases heard with first | ⟨r, i, peer, -⟩
      · exact other first
      · rw [client] at peer
        cases peer
    have otherUid : key ≠ p.fromUid := by
      intro equal
      rw [equal, registered] at stored
      exact otherConn (Option.some.inj stored).symm
    have fromUser : p.fromUid ≠ 0 := by
      rcases bears with ⟨-, -, same⟩ | ⟨-, -, -, other⟩
      · exact same ▸ nonzero
      · exact other
    refine ⟨⟨t, conn, broadcastCopy p key⟩, ?_, rfl, rfl, rfl⟩
    rw [bridging.spreading.copies]
    refine List.mem_flatMap.mpr ⟨_, isDone, ?_⟩
    rw [Item.copies, broadcastCopies, if_neg fromUser]
    refine List.mem_map.mpr ⟨(key, conn), ?_, rfl⟩
    simpa [otherUid, otherConn] using Map.mapAt_eq_some_iff.mp stored
  | atLink r my p => cases isVertex

theorem bridged_of_quiet (bridges : T.Bridges registry) (bridging : Bridging T registry origin sender pack w)
    (quiet : w.pending = []) (signal : pack.packtype = .sigBroadcast) (nonzero : pack.fromUid ≠ 0) :
    w.state.Bridged T registry origin sender pack := by
  have once := bridging.spreading.once (rooted_bridges bridges)
  refine ⟨fun s key conn stored client other => ?_, fun c member => ?_, fun c member link peer => ?_, once.links⟩
  · obtain ⟨copy, made, atServer, atConn, isKey⟩ := copy_of_client bridging quiet nonzero stored client other
    have facts := copy_cases bridging signal made
    refine ⟨copy, ?_, facts.2.1, facts.2.2.1⟩
    refine Worklist.filter_eq_singleton once.users made (by simp [atServer, atConn]) fun c member here => ?_
    obtain ⟨there, onConn⟩ := of_decide_eq_true here
    have alsoStored := (copy_cases bridging signal member).1
    rw [there, onConn] at alsoStored
    -- the connection has one UID, so both copies are for it
    have equal : c.packet.toUid = key := congrArg Prod.fst (List.inj_on_of_nodup_map (bridges.apart s)
      (Map.mapAt_eq_some_iff.mp alsoStored) (Map.mapAt_eq_some_iff.mp stored) rfl)
    rw [there, atServer, isKey, equal]
  · exact (copy_cases bridging signal member).2.2.2.1
  · exact server_of_link bridges bridging signal member peer

/-- A broadcast that a client with a UID other than 0 sends takes one step for
the router and one for each server at most, in any order. Every run can be
carried on until nothing is in transit, and then it is bridged. -/
theorem sigBroadcast_bridged [Fintype S] (bridges : T.Bridges registry) {w : World S Unit}
    (valid : T.Valid registry w) (copies : w.copies = []) (emitted : w.emitted = [])
    (registered : mapAt (registry origin) pack.fromUid = some sender) (client : T.peer origin sender = none)
    (signal : pack.packtype = .sigBroadcast) (all : pack.toUid = 0) (fresh : pack.travFuid = 0)
    (nonzero : pack.fromUid ≠ 0) (choices : List (Nat × (Locals × (Conn → Bool)))) :
    let last := Runs.run (Worklist.step T.deliver) (Worklist.start w (.atServer origin sender pack)) choices
    last.done.length ≤ Fintype.card S + 1 ∧
      (∃ more, (Runs.run (Worklist.step T.deliver) last more).pending = []) ∧
      (last.pending = [] → last.state.Bridged T registry origin sender pack) := by
  intro last
  have throughout := bridging_throughout bridges valid copies emitted registered client signal all fresh nonzero
  have bounded : ∀ choices, (Runs.run (Worklist.step T.deliver)
      (Worklist.start w (.atServer origin sender pack)) choices).done.length ≤ Fintype.card S + 1 := by
    intro choices
    have few := (throughout choices).last.spreading.grown.length_done_le
    simpa using few
  refine ⟨bounded choices, ?_, fun quiet => ?_⟩
  · apply Worklist.exists_quiescent (Locals.blank, fun _ => true)
    intro more
    rw [← Runs.run_append]
    exact bounded (choices ++ more)
  · exact bridged_of_quiet bridges (throughout choices).last quiet signal nonzero

end Bridging

theorem bridges_bridge : bridgeTopology.Bridges bridgeRegistry where
  single := by decide
  whole := by decide
  linked := linked_bridge
  nonzero := by decide
  apart := by decide

theorem sigBroadcast_bridged_three :
    (Runs.run (Worklist.step bridgeTopology.deliver) (Worklist.start bridgeWorld (.atServer 1 1 signal))
      (inTurn 4)).state.Bridged bridgeTopology bridgeRegistry 1 1 signal :=
  (sigBroadcast_bridged bridges_bridge valid_bridgeWorld rfl rfl (by decide) (by decide) rfl rfl rfl (by decide)
    (inTurn 4)).2.2 (by decide)

/-- The same with the clients under the UIDs 0, 1 and 2. -/
def zeroRegistry (s : Fin 3) : Map UInt64 Conn :=
  mapSet (mapSet (mapInit UInt64 Conn) (UInt64.ofNat s.val) 1) (bridgeLink s).uid (bridgeLink s).conn

def zeroWorld : World (Fin 3) Unit := { bridgeWorld with servers := fun s => hub (zeroRegistry s) 2 }

theorem valid_zeroWorld : bridgeTopology.Valid zeroRegistry zeroWorld where
  wellFormed s := wellFormed_hub (by decide) (by fin_cases s <;> decide)
  registry _ := rfl
  sessions := valid_bridgeWorld.sessions

theorem bridges_zero : bridgeTopology.Bridges zeroRegistry where
  single := by decide
  whole := by decide
  linked := by unfold Topology.Linked; decide
  nonzero := by decide
  apart := by decide

/-- What client 0 broadcasts is addressed to its own UID: it is declined, and
nobody has a copy. -/
theorem zero_is_not_bridged :
    bridgeTopology.Valid zeroRegistry zeroWorld ∧ bridgeTopology.Bridges zeroRegistry ∧
      mapAt (zeroRegistry 0) 0 = some 1 ∧ mapAt (zeroRegistry 1) 1 = some 1 ∧
      (Runs.run (Worklist.step bridgeTopology.deliver)
        (Worklist.start zeroWorld (.atServer 0 1 { signal with fromUid := 0 })) (inTurn 1)).pending.length = 0 ∧
      ¬(Runs.run (Worklist.step bridgeTopology.deliver)
        (Worklist.start zeroWorld (.atServer 0 1 { signal with fromUid := 0 })) (inTurn 1)).state.Bridged
          bridgeTopology zeroRegistry 0 1 { signal with fromUid := 0 } := by
  refine ⟨valid_zeroWorld, bridges_zero, by decide, by decide, by decide, fun bridged => ?_⟩
  obtain ⟨copy, only, -⟩ := bridged.clients 1 1 1 (by decide) (by decide) (by decide)
  have none : (Runs.run (Worklist.step bridgeTopology.deliver)
      (Worklist.start zeroWorld (.atServer 0 1 { signal with fromUid := 0 })) (inTurn 1)).state.copies = [] := by
    decide
  rw [none] at only
  cases only

end Network

end Dcn
