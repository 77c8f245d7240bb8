import Dcn.Router.Spread

/-! Cycles of routers.

In a cycle of servers and routers a broadcast goes round without end: each hears
it, over one link and under a UID that is not its own, and sends it on over the
next.
-/

set_option autoImplicit false

namespace Dcn

namespace Network

section Storm

variable {S R : Type} {T : Topology S R} {registry : S → Map UInt64 Conn}

theorem adj_iff {s : S} {r : R} : T.graph.Adj (.inl s) (.inr r) ↔ ∃ link ∈ T.links r, link.server = s := by
  simp [Topology.graph, and_comm, eq_comm]

variable [DecidableEq S] [DecidableEq R] {w : Worklist (World S R) (Item S R)}

/-- A broadcast that a server or a router has yet to take up. It came from
`u`, if from a link at all. -/
def Held (T : Topology S R) (registry : S → Map UInt64 Conn) (w : Worklist (World S R) (Item S R))
    (u : S ⊕ R) : S ⊕ R → Prop
  | .inl s => T.Valid registry w.state ∧ ∃ cli pack, .atServer s cli pack ∈ w.pending ∧
      pack.packtype = .sigBroadcast ∧ pack.toUid = 0 ∧ pack.fromUid ≠ 0 ∧
      mapAt (registry s) pack.fromUid = some cli ∧ ∀ r i, T.peer s cli = some (r, i) → u = .inr r
  | .inr r => T.Valid registry w.state ∧ ∃ i link pack, .atLink r i pack ∈ w.pending ∧
      pack.packtype = .sigBroadcast ∧ (T.links r)[i]? = some link ∧ u = .inl link.server

def anyRun : Locals × (Conn → Bool) := (Locals.blank, fun _ => true)

theorem server_sends (linked : T.Linked registry) {s : S} {u : S ⊕ R} (held : Held T registry w u (.inl s))
    {r : R} (edge : T.graph.Adj (.inl s) (.inr r)) (ahead : .inr r ≠ u) :
    ∃ choice, Held T registry (Worklist.step T.deliver w choice) (.inl s) (.inr r) ∧
      (Worklist.step T.deliver w choice).state.emitted = w.state.emitted := by
  obtain ⟨valid, cli, pack, pending, signal, all, fromUser, registered, came⟩ := held
  obtain ⟨link, member, atServer⟩ := adj_iff.mp edge
  obtain ⟨i, place⟩ := List.mem_iff_getElem?.mp member
  subst atServer
  have differ : link.conn ≠ cli := by
    intro same
    exact ahead (came r i (same ▸ T.peer_link place)).symm
  obtain ⟨validNext, -, sameEmitted, children⟩ := deliver_atServer valid anyRun registered signal all
  obtain ⟨choice, state, added⟩ := Worklist.exists_step T.deliver anyRun pending
  have taken := added _ (children ▸ atLink_mem_children valid linked place fromUser registered
    (signal ▸ by decide) differ)
  rw [← state] at validNext sameEmitted
  exact ⟨choice, ⟨validNext, i, link, _, taken, signal, place, rfl⟩, sameEmitted⟩

theorem router_sends (linked : T.Linked registry) (nonzero : ∀ r, ∀ link ∈ T.links r, link.uid ≠ 0) {r : R}
    {u : S ⊕ R} (held : Held T registry w u (.inr r)) {s : S} (edge : T.graph.Adj (.inr r) (.inl s))
    (ahead : .inl s ≠ u) :
    ∃ choice, Held T registry (Worklist.step T.deliver w choice) (.inr r) (.inl s) ∧
      w.state.emitted.length < (Worklist.step T.deliver w choice).state.emitted.length := by
  obtain ⟨valid, i, near, pack, pending, signal, nearPlace, came⟩ := held
  obtain ⟨far, member, atServer⟩ := adj_iff.mp edge.symm
  obtain ⟨j, place⟩ := List.mem_iff_getElem?.mp member
  subst atServer
  have other : j ≠ i := by
    intro same
    subst same
    rw [place] at nearPlace
    cases nearPlace
    exact ahead came.symm
  obtain ⟨validNext, -, emitted, sent⟩ := deliver_atLink valid r i anyRun signal
  obtain ⟨choice, state, added⟩ := Worklist.exists_step T.deliver anyRun pending
  have arrived := added _ (sent ▸ atServer_mem_children place other)
  rw [← state] at validNext emitted
  have isUid : (Forwarding.outgoing (w.state.sessions r j) pack).fromUid = far.uid := valid.sessions r j far place
  refine ⟨choice, ⟨validNext, far.conn, _, arrived, signal, rfl, ?_, ?_, fun q k peer => ?_⟩, ?_⟩
  · rw [isUid]
    exact nonzero r far member
  · rw [isUid]
    exact linked r far member
  · rw [T.peer_link place] at peer
    cases peer
    rfl
  · have among : j ∈ others T r i := mem_others.mpr ⟨(List.getElem?_eq_some_iff.mp place).1, other⟩
    have some := List.length_pos_of_mem among
    rw [emitted, List.length_append, List.length_map]
    omega

/-- Along a walk that never turns back the broadcast is brought on, and at least
every second step forwards a packet. -/
theorem brought_on (linked : T.Linked registry) (nonzero : ∀ r, ∀ link ∈ T.links r, link.uid ≠ 0)
    {f : Nat → S ⊕ R} (onward : Forest.Onward T.graph f) {i : Nat} {u : S ⊕ R}
    (held : Held T registry w u (f i)) (ahead : f (i + 1) ≠ u) :
    ∃ choices j, Held T registry (Runs.run (Worklist.step T.deliver) w choices) (f j) (f (j + 1)) ∧
      w.state.emitted.length < (Runs.run (Worklist.step T.deliver) w choices).state.emitted.length := by
  have router : ∀ {w : Worklist (World S R) (Item S R)} {i u}, Held T registry w u (f i) → f (i + 1) ≠ u →
      ∀ r, f i = .inr r → ∃ choice, Held T registry (Worklist.step T.deliver w choice) (f i) (f (i + 1)) ∧
        w.state.emitted.length < (Worklist.step T.deliver w choice).state.emitted.length := by
    intro w i u held ahead r here
    have edge := onward.adj i
    rw [here] at held edge ⊢
    cases next : f (i + 1) with
    | inl s => exact router_sends linked nonzero held (next ▸ edge) (next ▸ ahead)
    | inr q =>
      rw [next] at edge
      simp [Topology.graph] at edge
  cases here : f i with
  | inr r =>
    obtain ⟨choice, after, more⟩ := router held ahead r here
    exact ⟨[choice], i, after, more⟩
  | inl s =>
    have edge := onward.adj i
    rw [here] at held edge
    cases next : f (i + 1) with
    | inl t =>
      rw [next] at edge
      simp [Topology.graph] at edge
    | inr r =>
      obtain ⟨first, after, same⟩ := server_sends linked held (next ▸ edge) (next ▸ ahead)
      rw [← next, ← here] at after
      obtain ⟨second, last, more⟩ := router after (onward.ahead i) r next
      refine ⟨[first, second], i + 1, last, ?_⟩
      rwa [same] at more

theorem goes_on (linked : T.Linked registry) (nonzero : ∀ r, ∀ link ∈ T.links r, link.uid ≠ 0)
    {f : Nat → S ⊕ R} (onward : Forest.Onward T.graph f) {u : S ⊕ R} (held : Held T registry w u (f 0))
    (ahead : f 1 ≠ u) (n : Nat) :
    ∃ choices i u, Held T registry (Runs.run (Worklist.step T.deliver) w choices) u (f i) ∧ f (i + 1) ≠ u ∧
      n ≤ (Runs.run (Worklist.step T.deliver) w choices).state.emitted.length := by
  induction n with
  | zero => exact ⟨[], 0, u, held, ahead, Nat.zero_le _⟩
  | succ n ih =>
    obtain ⟨choices, i, v, still, next, many⟩ := ih
    obtain ⟨further, j, after, more⟩ := brought_on linked nonzero onward still next
    refine ⟨choices ++ further, j + 1, f j, ?_⟩
    rw [Runs.run_append]
    exact ⟨after, onward.ahead j, by omega⟩

theorem storm_along (linked : T.Linked registry) (nonzero : ∀ r, ∀ link ∈ T.links r, link.uid ≠ 0)
    {f : Nat → S ⊕ R} (onward : Forest.Onward T.graph f) {origin : S} (first : f 0 = .inl origin)
    {sender : Conn} {start : World S R} {pack : Packet} (valid : T.Valid registry start)
    (registered : mapAt (registry origin) pack.fromUid = some sender) (client : T.peer origin sender = none)
    (signal : pack.packtype = .sigBroadcast) (all : pack.toUid = 0) (fromUser : pack.fromUid ≠ 0) (n : Nat) :
    ∃ choices, n ≤ (Runs.run (Worklist.step T.deliver)
      (Worklist.start start (.atServer origin sender pack)) choices).state.emitted.length := by
  have held : Held T registry (Worklist.start start (.atServer origin sender pack)) (f 0) (f 0) := by
    rw [first]
    refine ⟨valid, sender, pack, List.mem_singleton_self _, signal, all, fromUser, registered, ?_⟩
    intro r i peer
    rw [client] at peer
    cases peer
  obtain ⟨choices, -, -, -, -, many⟩ := goes_on linked nonzero onward held (onward.adj 0).ne.symm n
  exact ⟨choices, many⟩

/-- Where the server of a client reaches a cycle its broadcast never ends: so
the networks in which every broadcast ends are those without one. -/
theorem storm (linked : T.Linked registry) (nonzero : ∀ r, ∀ link ∈ T.links r, link.uid ≠ 0) {origin : S}
    (cyclic : ¬Forest.TreeFrom T.graph (.inl origin)) {sender : Conn} {start : World S R} {pack : Packet}
    (valid : T.Valid registry start) (registered : mapAt (registry origin) pack.fromUid = some sender)
    (client : T.peer origin sender = none) (signal : pack.packtype = .sigBroadcast) (all : pack.toUid = 0)
    (fromUser : pack.fromUid ≠ 0) (n : Nat) :
    ∃ choices, n ≤ (Runs.run (Worklist.step T.deliver)
      (Worklist.start start (.atServer origin sender pack)) choices).state.emitted.length := by
  obtain ⟨f, first, onward⟩ := Forest.exists_onward cyclic
  exact storm_along linked nonzero onward first valid registered client signal all fromUser n

end Storm

section Pair

def pairLink (r s : Fin 2) : Link (Fin 2) := ⟨s, 2 + r.val, UInt64.ofNat (10 * (r.val + 1) + s.val)⟩

def pairTopology : Topology (Fin 2) (Fin 2) where
  links r := [pairLink r 0, pairLink r 1]
  peer s conn := if conn = 2 then some (0, s.val) else if conn = 3 then some (1, s.val) else none
  peer_iff := by
    intro s conn r i
    rcases i with _ | _ | i <;> fin_cases r <;> fin_cases s <;> simp [pairLink] <;> grind

def pairRegistry (s : Fin 2) : Map UInt64 Conn :=
  mapSet (mapSet (mapSet (mapInit UInt64 Conn) (UInt64.ofNat (1 + s.val)) 1)
    (pairLink 0 s).uid (pairLink 0 s).conn) (pairLink 1 s).uid (pairLink 1 s).conn

def pairWorld : World (Fin 2) (Fin 2) where
  servers s := hub (pairRegistry s) 4
  sessions r i := dcnNewSession (UInt64.ofNat (10 * (r.val + 1) + i))
  copies := []
  emitted := []

theorem valid_pairWorld : pairTopology.Valid pairRegistry pairWorld where
  wellFormed s := wellFormed_hub (by decide) (by fin_cases s <;> decide)
  registry _ := rfl
  sessions r i link place := by
    rcases i with _ | _ | i
    · cases place; rfl
    · cases place; rfl
    · cases place

theorem linked_pair : pairTopology.Linked pairRegistry := by
  unfold Topology.Linked
  decide

def round (i : Nat) : Fin 2 ⊕ Fin 2 :=
  match i % 4 with
  | 0 => .inl 0
  | 1 => .inr 0
  | 2 => .inl 1
  | _ => .inr 1

theorem onward_round : Forest.Onward pairTopology.graph round where
  adj i := by
    have edge : ∀ r s, pairTopology.graph.Adj (.inl s) (.inr r) := fun r s =>
      adj_iff.mpr ⟨pairLink r s, by fin_cases s <;> simp [pairTopology], rfl⟩
    have cases : i % 4 = 0 ∧ (i + 1) % 4 = 1 ∨ i % 4 = 1 ∧ (i + 1) % 4 = 2 ∨ i % 4 = 2 ∧ (i + 1) % 4 = 3 ∨
        i % 4 = 3 ∧ (i + 1) % 4 = 0 := by omega
    unfold round
    rcases cases with ⟨here, next⟩ | ⟨here, next⟩ | ⟨here, next⟩ | ⟨here, next⟩ <;> rw [here, next]
    · exact edge 0 0
    · exact (edge 0 1).symm
    · exact edge 1 1
    · exact (edge 1 0).symm
  ahead i := by
    have cases : i % 4 = 0 ∧ (i + 2) % 4 = 2 ∨ i % 4 = 1 ∧ (i + 2) % 4 = 3 ∨ i % 4 = 2 ∧ (i + 2) % 4 = 0 ∨
        i % 4 = 3 ∧ (i + 2) % 4 = 1 := by omega
    unfold round
    rcases cases with ⟨here, next⟩ | ⟨here, next⟩ | ⟨here, next⟩ | ⟨here, next⟩ <;> rw [here, next] <;> simp

def hello : Packet := { packetInit [104, 105] 1 0 1 with packtype := .sigBroadcast }

def fromClient : Worklist (World (Fin 2) (Fin 2)) (Item (Fin 2) (Fin 2)) :=
  Worklist.start pairWorld (.atServer 0 1 hello)

/-- The originator hears its own broadcast back, its peer at the other server
hears it twice, and the forwarding has no bound. -/
theorem pair_storms :
    pairTopology.Valid pairRegistry pairWorld ∧ pairTopology.Linked pairRegistry ∧
      mapAt (pairRegistry 0) hello.fromUid = some 1 ∧
      (∃ c ∈ (Runs.run (Worklist.step pairTopology.deliver) fromClient (inTurn 8)).state.copies,
        c.server = 0 ∧ c.conn = 1) ∧
      ((Runs.run (Worklist.step pairTopology.deliver) fromClient (inTurn 8)).state.copies.filter fun c =>
        c.server = 1 ∧ c.conn = 1).length = 2 ∧
      ¬∃ bound, ∀ choices,
        (Runs.run (Worklist.step pairTopology.deliver) fromClient choices).state.emitted.length ≤ bound := by
  refine ⟨valid_pairWorld, linked_pair, by decide, by decide, by decide, ?_⟩
  rintro ⟨bound, limited⟩
  have unbounded : ∃ choices, bound + 1 ≤
      (Runs.run (Worklist.step pairTopology.deliver) fromClient choices).state.emitted.length :=
    storm_along linked_pair (by decide) onward_round rfl valid_pairWorld (by decide) (by decide) rfl rfl
      (by decide) (bound + 1)
  obtain ⟨choices, many⟩ := unbounded
  exact absurd (limited choices) (by omega)

end Pair

end Network

end Dcn
