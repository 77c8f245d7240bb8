import Dcn.Server.Worker

/-! What the handler's effects come to.

For one connection, performing a list of effects appends the packets pushed to
it to its write queue and may switch its mode. For one packet, the effects are
an answer and, where the packet goes to another user, what is sent on.
-/

set_option autoImplicit false

namespace Dcn

def Client.SameAddress (c d : Client) : Prop := c.ip = d.ip ∧ c.port = d.port ∧ c.fd = d.fd

theorem Client.SameAddress.trans {c d e : Client} (first : c.SameAddress d) (second : d.SameAddress e) :
    c.SameAddress e :=
  ⟨first.1.trans second.1, first.2.1.trans second.2.1, first.2.2.trans second.2.2⟩

namespace Effect

def apply (ok : Conn → Bool) (cli : Conn) (c : Client) : Effect → Client
  | .push target pack =>
    if target = cli then { c with writeQ := pushBlock c.writeQ (packetSerial pack) } else c
  | .changeClimod target mode => if target = cli ∧ ok target = true then { c with mode := mode } else c

def packetTo (cli : Conn) : Effect → Option Packet
  | .push target pack => if target = cli then some pack else none
  | .changeClimod _ _ => none

def AsksOutput : Effect → Prop
  | .push _ _ => True
  | .changeClimod _ mode => mode = .output

variable {ok : Conn → Bool} {cli : Conn}

theorem packetTo_eq_some {e : Effect} {pack : Packet} : e.packetTo cli = some pack ↔ e = .push cli pack := by
  cases e with
  | push target sent =>
    by_cases same : target = cli
    · subst same; simp [packetTo]
    · simp [packetTo, same]
  | changeClimod target mode => simp [packetTo]

theorem blocks_apply (c : Client) (e : Effect) :
    (apply ok cli c e).writeQ.blocks = c.writeQ.blocks ++ ((e.packetTo cli).map packetSerial).toList := by
  cases e with
  | push target pack =>
    by_cases same : target = cli <;> simp [apply, packetTo, same]
  | changeClimod target mode =>
    simp only [apply, packetTo, Option.map_none, Option.toList_none, List.append_nil]
    split <;> rfl

theorem blocks_foldl_apply (c : Client) (effects : List Effect) :
    (effects.foldl (apply ok cli) c).writeQ.blocks =
      c.writeQ.blocks ++ (effects.filterMap (packetTo cli)).map packetSerial := by
  induction effects generalizing c with
  | nil => simp
  | cons e rest ih =>
    rw [List.foldl_cons, ih, blocks_apply]
    cases sent : e.packetTo cli <;> simp [sent]

theorem sameAddress_apply (c : Client) (e : Effect) : (apply ok cli c e).SameAddress c := by
  unfold apply
  split <;> split <;> exact ⟨rfl, rfl, rfl⟩

theorem sameAddress_foldl_apply (c : Client) (effects : List Effect) :
    (effects.foldl (apply ok cli) c).SameAddress c := by
  induction effects generalizing c with
  | nil => exact ⟨rfl, rfl, rfl⟩
  | cons e rest ih =>
    exact (ih (apply ok cli c e)).trans (sameAddress_apply c e)

theorem readQ_apply (c : Client) (e : Effect) : (apply ok cli c e).readQ = c.readQ := by
  unfold apply
  split <;> split <;> rfl

theorem readQ_foldl_apply (c : Client) (effects : List Effect) :
    (effects.foldl (apply ok cli) c).readQ = c.readQ := by
  induction effects generalizing c with
  | nil => rfl
  | cons e rest ih => rw [List.foldl_cons, ih, readQ_apply]

theorem mode_apply (c : Client) {e : Effect} (asks : e.AsksOutput) :
    (apply ok cli c e).mode = .output ↔
      c.mode = .output ∨ (ok cli = true ∧ e = .changeClimod cli .output) := by
  cases e with
  | push target pack => by_cases same : target = cli <;> simp [apply, same]
  | changeClimod target mode =>
    cases asks
    by_cases same : target = cli
    · subst same
      cases success : ok target <;> simp [apply, success]
    · simp [apply, same]

theorem mode_foldl_apply (c : Client) {effects : List Effect} (asks : ∀ e ∈ effects, e.AsksOutput) :
    (effects.foldl (apply ok cli) c).mode = .output ↔
      c.mode = .output ∨ (ok cli = true ∧ .changeClimod cli .output ∈ effects) := by
  induction effects generalizing c with
  | nil => simp
  | cons e rest ih =>
    have later := ih (apply ok cli c e) fun other member => asks other (List.mem_cons_of_mem _ member)
    have first : e = .changeClimod cli .output ↔ .changeClimod cli .output = e := eq_comm
    rw [List.foldl_cons, later, mode_apply c (asks e List.mem_cons_self), List.mem_cons, or_assoc,
      ← and_or_left, first]

end Effect

namespace Server

variable {ok : Conn → Bool} {cli : Conn}

theorem clients_perform (s : Server) (e : Effect) :
    (s.perform ok e).clients cli = (s.clients cli).map fun c => e.apply ok cli c := by
  cases e with
  | push target pack =>
    by_cases same : target = cli
    · subst same; simp [perform, Effect.apply]
    · simp [perform, Effect.apply, same, clients_modify_of_ne s target _ (Ne.symm same)]
  | changeClimod target mode =>
    by_cases same : target = cli
    · subst same
      cases success : ok target <;> simp [perform, Effect.apply, success]
    · cases success : ok target <;>
        simp [perform, Effect.apply, same, success, clients_modify_of_ne s target _ (Ne.symm same)]

theorem clients_foldl_perform (s : Server) (effects : List Effect) :
    (effects.foldl (perform ok) s).clients cli =
      (s.clients cli).map fun c => effects.foldl (Effect.apply ok cli) c := by
  induction effects generalizing s with
  | nil => simp
  | cons e rest ih =>
    rw [List.foldl_cons, ih, clients_perform, Option.map_map]
    rfl

end Server

def answerCode (locals : Locals) (s : Server) (dcnClients : Map UInt64 Conn) (cli : Conn)
    (pack : Packet) : Nat :=
  if pack.toUid = 0 ∧ pack.packtype = .ping then 200
  else if (forwards locals s dcnClients cli pack).isSome then 200 else 101

def sentOn (locals : Locals) (s : Server) (dcnClients : Map UInt64 Conn) (cli : Conn)
    (pack : Packet) : List Effect :=
  if pack.toUid = 0 ∧ pack.packtype = .ping then []
  else (forwards locals s dcnClients cli pack).getD []

section Exits

variable {locals : Locals} {s : Server} {dcnClients : Map UInt64 Conn} {cli : Conn} {pack : Packet}

theorem respond_self (own : pack.fromUid = pack.toUid) :
    respond locals s dcnClients cli pack = [.push cli (selfAnswer locals pack)] := by
  unfold respond
  rw [if_pos own]

/-- A packet to another user is answered first, and the sender's connection is
switched to output last. -/
theorem respond_other (other : pack.fromUid ≠ pack.toUid) : respond locals s dcnClients cli pack =
    .push cli (codeAnswer pack (answerCode locals s dcnClients cli pack)) ::
      (sentOn locals s dcnClients cli pack ++ [.changeClimod cli .output]) := by
  unfold respond answerCode sentOn
  rw [if_neg other]
  by_cases ping : pack.toUid = 0 ∧ pack.packtype = .ping
  · simp [ping]
  · simp only [ping, ↓reduceIte]
    cases forwards locals s dcnClients cli pack <;> rfl

theorem sentOn_ping (ping : pack.toUid = 0 ∧ pack.packtype = .ping) :
    sentOn locals s dcnClients cli pack = [] := by
  unfold sentOn
  rw [if_pos ping]

theorem sentOn_unknown (unknown : ¬(pack.toUid = 0 ∧ pack.isBroadcast = true))
    (absent : mapAt dcnClients pack.toUid = none) : sentOn locals s dcnClients cli pack = [] := by
  simp [sentOn, forwards, unknown, absent]

theorem sentOn_unicast {toCli : Conn} (noPing : ¬(pack.toUid = 0 ∧ pack.packtype = .ping))
    (single : pack.isBroadcast = false) (found : mapAt dcnClients pack.toUid = some toCli) :
    sentOn locals s dcnClients cli pack = unicast locals s toCli pack := by
  simp [sentOn, forwards, noPing, found, single]

theorem sentOn_broadcast (broadcast : pack.isBroadcast = true)
    (reached : pack.toUid = 0 ∨ (mapAt dcnClients pack.toUid).isSome) :
    sentOn locals s dcnClients cli pack = broadcastLoop locals s dcnClients cli pack := by
  have noPing : pack.packtype ≠ .ping := by
    intro ping
    unfold Packet.isBroadcast at broadcast
    rw [ping] at broadcast
    revert broadcast
    decide
  unfold sentOn forwards
  by_cases zero : pack.toUid = 0
  · simp [zero, broadcast, noPing]
  · obtain ⟨toCli, found⟩ := Option.isSome_iff_exists.mp (reached.resolve_left zero)
    simp [zero, found, broadcast]

def Reaches (locals : Locals) (s : Server) (cli : Conn) (pack : Packet) (e : UInt64 × Conn) : Prop :=
  e.1 ≠ pack.fromUid ∧ (s.deref locals e.2).fd ≠ (s.deref locals cli).fd ∧ 0 < (s.deref locals e.2).fd

instance (e : UInt64 × Conn) : Decidable (Reaches locals s cli pack e) :=
  inferInstanceAs (Decidable (_ ∧ _ ∧ _))

def broadcastPair (pack : Packet) (e : UInt64 × Conn) : List Effect :=
  [.changeClimod e.2 .output, .push e.2 (broadcastCopy pack e.1)]

theorem broadcastTo_eq (e : UInt64 × Conn) : broadcastTo locals s cli pack e.1 e.2 =
    if Reaches locals s cli pack e then broadcastPair pack e else [] := by
  unfold broadcastTo broadcastPair Reaches
  by_cases key : e.1 = pack.fromUid
  · simp [key]
  · by_cases fd : (s.deref locals e.2).fd = (s.deref locals cli).fd <;> simp [key, fd]

theorem broadcastAt_of_getElem {i : Nat} {e : UInt64 × Conn} (slot : dcnClients.entries[i]? = some e) :
    broadcastAt locals s dcnClients cli pack i = broadcastTo locals s cli pack e.1 e.2 := by
  have found : mapAt dcnClients e.1 = some e.2 := Map.mapAt_eq_some_iff.mpr (List.mem_of_getElem? slot)
  simp [broadcastAt, mapKeyAt, slot, found]

/-- The loop over the slots is a pass over the registry in its order. -/
theorem broadcastLoop_eq : broadcastLoop locals s dcnClients cli pack =
    (dcnClients.entries.filter (Reaches locals s cli pack ·)).flatMap (broadcastPair pack) := by
  have body : broadcastLoop locals s dcnClients cli pack =
      dcnClients.entries.flatMap fun e => broadcastTo locals s cli pack e.1 e.2 := by
    exact Map.flatMap_range fun i e slot => broadcastAt_of_getElem slot
  -- The entries that are left out contribute nothing.
  rw [body]
  induction dcnClients.entries with
  | nil => rfl
  | cons e rest ih =>
    rw [List.flatMap_cons, ih, broadcastTo_eq]
    by_cases reached : Reaches locals s cli pack e <;> simp [reached]

theorem push_mem_unicast {toCli target : Conn} {sent : Packet} :
    .push target sent ∈ unicast locals s toCli pack ↔
      0 < (s.deref locals toCli).fd ∧ target = toCli ∧ sent = unicastCopy pack := by
  unfold unicast
  split
  · next positive => simp [positive]
  · next invalid => simp [invalid]

theorem push_mem_broadcastLoop {target : Conn} {sent : Packet} :
    .push target sent ∈ broadcastLoop locals s dcnClients cli pack ↔
      ∃ key, (key, target) ∈ dcnClients.entries ∧ Reaches locals s cli pack (key, target) ∧
        sent = broadcastCopy pack key := by
  simp only [broadcastLoop_eq, List.mem_flatMap, List.mem_filter, decide_eq_true_eq, broadcastPair,
    List.mem_cons, reduceCtorEq, Effect.push.injEq, List.not_mem_nil, or_false, false_or]
  constructor
  · intro ⟨⟨key, toCli⟩, ⟨member, reached⟩, same, copy⟩
    subst same
    exact ⟨key, member, reached, copy⟩
  · intro ⟨key, member, reached, copy⟩
    exact ⟨(key, target), ⟨member, reached⟩, rfl, copy⟩

theorem changeClimod_mem_broadcastLoop {target : Conn} {mode : Mode} :
    .changeClimod target mode ∈ broadcastLoop locals s dcnClients cli pack ↔
      mode = .output ∧ ∃ key, (key, target) ∈ dcnClients.entries ∧ Reaches locals s cli pack (key, target) := by
  simp only [broadcastLoop_eq, List.mem_flatMap, List.mem_filter, decide_eq_true_eq, broadcastPair,
    List.mem_cons, reduceCtorEq, Effect.changeClimod.injEq, List.not_mem_nil, or_false]
  constructor
  · intro ⟨⟨key, toCli⟩, ⟨member, reached⟩, same, output⟩
    subst same
    exact ⟨output, key, member, reached⟩
  · intro ⟨output, key, member, reached⟩
    exact ⟨(key, target), ⟨member, reached⟩, rfl, output⟩

theorem sentOn_cases : sentOn locals s dcnClients cli pack = [] ∨
    (∃ toCli, ¬(pack.toUid = 0 ∧ pack.packtype = .ping) ∧ pack.isBroadcast = false ∧
      mapAt dcnClients pack.toUid = some toCli ∧
      sentOn locals s dcnClients cli pack = unicast locals s toCli pack) ∨
    (pack.isBroadcast = true ∧ (pack.toUid = 0 ∨ (mapAt dcnClients pack.toUid).isSome) ∧
      sentOn locals s dcnClients cli pack = broadcastLoop locals s dcnClients cli pack) := by
  -- The exits in the order of the handler: ping, then broadcast, then one target.
  by_cases ping : pack.toUid = 0 ∧ pack.packtype = .ping
  · exact .inl (sentOn_ping ping)
  cases broadcast : pack.isBroadcast with
  | true =>
    by_cases reached : pack.toUid = 0 ∨ (mapAt dcnClients pack.toUid).isSome
    · exact .inr (.inr ⟨rfl, reached, sentOn_broadcast broadcast reached⟩)
    · obtain ⟨named, absent⟩ := not_or.mp reached
      exact .inl (sentOn_unknown (fun zero => named zero.1) (by simpa using absent))
  | false =>
    cases found : mapAt dcnClients pack.toUid with
    | none => exact .inl (sentOn_unknown (by simp [broadcast]) found)
    | some toCli => exact .inr (.inl ⟨toCli, ping, rfl, rfl, sentOn_unicast ping broadcast found⟩)

end Exits

end Dcn
