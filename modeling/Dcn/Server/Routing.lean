import Dcn.Server.Effects
import Dcn.Server.Registry

/-! The delivery rule of dcn_async_worker.

In a well-formed state the handler's overlapping tests come to one rule: the
sender is registered and answered first, and a packet whose target is known is
sent to the target's connection, or to every other user and connection.
-/

set_option autoImplicit false

namespace Dcn

/-- Open connections have addresses and valid descriptors of their own, and
the registry holds open connections only. -/
structure Server.WellFormed (s : Server) : Prop where
  address : ∀ one two c d, s.clients one = some c → s.clients two = some d →
    c.ip = d.ip → c.port = d.port → one = two
  descriptor : ∀ one two c d, s.clients one = some c → s.clients two = some d → c.fd = d.fd → one = two
  valid : ∀ cli c, s.clients cli = some c → 0 < c.fd
  registry : s.RegistryOpen

/-- An accepted connection has a descriptor and an address that no open one
has, and a closed one has one UID at most. -/
def Server.Admits (s : Server) (e : ServerEvent) : Prop :=
  s.OneUidAtClose e ∧
    match e with
    | .accept _ fd ip port =>
      0 < fd ∧ ∀ other c, s.clients other = some c → c.fd ≠ fd ∧ ¬(c.ip = ip ∧ c.port = port)
    | _ => True

def pushes (effects : List Effect) : List (Conn × Packet) :=
  effects.filterMap fun
    | .push target pack => some (target, pack)
    | .changeClimod _ _ => none

/-- The target of the packet is no user that dcn_clients has, nor is the packet
one that the server takes for itself or for everyone. -/
def Unknown (dcnClients : Map UInt64 Conn) (pack : Packet) : Prop :=
  mapAt dcnClients pack.toUid = none ∧ ¬(pack.toUid = 0 ∧
    (pack.packtype = .ping ∨ pack.packtype = .broadcast ∨ pack.packtype = .sigBroadcast))

/-- The delivery rule: how a packet read from `cli` is answered, and to which
connections it is then sent. -/
structure Routed (dcnClients : Map UInt64 Conn) (cli : Conn) (pack answer : Packet)
    (forwarded : List (Conn × Packet)) : Prop where
  sender : mapAt dcnClients pack.fromUid = some cli
  answered : answer.fromOs = 0 ∧ answer.fromUid = 0 ∧ answer.toUid = pack.fromUid ∧ answer.muid = pack.muid
  refused : Unknown dcnClients pack → answer.data = intBytes 101 ∧ forwarded = []
  accepted : ¬Unknown dcnClients pack → answer.data = intBytes 200
  ping : pack.toUid = 0 → pack.packtype = .ping → forwarded = []
  unicast : ¬Unknown dcnClients pack → ¬(pack.toUid = 0 ∧ pack.packtype = .ping) →
    pack.isBroadcast = false →
    ∃ toCli, mapAt dcnClients pack.toUid = some toCli ∧ forwarded = [(toCli, unicastCopy pack)]
  broadcast : ¬Unknown dcnClients pack → pack.isBroadcast = true →
    forwarded = (dcnClients.entries.filter fun e => e.1 ≠ pack.fromUid ∧ e.2 ≠ cli).map fun e =>
      (e.2, broadcastCopy pack e.1)

namespace Routing

section Pushes

variable {effects : List Effect}

theorem pushes_cons_push (target : Conn) (pack : Packet) :
    pushes (.push target pack :: effects) = (target, pack) :: pushes effects := rfl

theorem pushes_cons_change (target : Conn) (mode : Mode) :
    pushes (.changeClimod target mode :: effects) = pushes effects := rfl

theorem pushes_append_change (target : Conn) (mode : Mode) :
    pushes (effects ++ [.changeClimod target mode]) = pushes effects := by
  simp [pushes]

theorem mem_pushes {target : Conn} {pack : Packet} :
    (target, pack) ∈ pushes effects ↔ .push target pack ∈ effects := by
  rw [pushes, List.mem_filterMap]
  constructor
  · rintro ⟨e, member, same⟩
    cases e with
    | push _ _ => cases same; exact member
    | changeClimod _ _ => cases same
  · intro member
    exact ⟨_, member, rfl⟩

theorem filterMap_packetTo (cli : Conn) :
    effects.filterMap (Effect.packetTo cli) = ((pushes effects).filter (·.1 = cli)).map Prod.snd := by
  induction effects with
  | nil => rfl
  | cons e rest ih =>
    cases e with
    | push target pack =>
      by_cases same : target = cli <;> simp [pushes_cons_push, Effect.packetTo, same, ih]
    | changeClimod target mode =>
      rw [pushes_cons_change, ← ih]
      rfl

theorem pushes_flatMap_broadcastPair (pack : Packet) (entries : List (UInt64 × Conn)) :
    pushes (entries.flatMap (broadcastPair pack)) =
      entries.map fun e => (e.2, broadcastCopy pack e.1) := by
  induction entries with
  | nil => rfl
  | cons e rest ih =>
    rw [List.flatMap_cons, List.map_cons, ← ih]
    rfl

end Pushes

section WellFormed

variable {locals : Locals} {ok : Conn → Bool} {s : Server} {cli : Conn} {c : Client} {pack : Packet}

theorem deref_of_present (present : s.clients cli = some c) : s.deref locals cli = c := by
  simp [Server.deref, present]

theorem mapAt_register_self (wf : s.WellFormed) (present : s.clients cli = some c) (fromUid : UInt64) :
    mapAt (register locals s cli fromUid) fromUid = some cli := by
  unfold register
  cases found : mapAt s.dcnClients fromUid with
  | none => exact Map.mapAt_mapSet_self _ _ _
  | some shadow =>
    obtain ⟨d, isOpen⟩ := Option.isSome_iff_exists.mp
      (wf.registry fromUid shadow (Map.mapAt_eq_some_iff.mp found))
    simp only [deref_of_present present, deref_of_present isOpen]
    split
    · exact Map.mapAt_mapSet_self _ _ _
    · next same =>
      obtain ⟨ip, port⟩ := not_or.mp same
      rw [found, wf.address shadow cli d c isOpen present (not_not.mp ip) (not_not.mp port)]

theorem reaches_iff (wf : s.WellFormed) (present : s.clients cli = some c) {e : UInt64 × Conn}
    (isOpen : (s.clients e.2).isSome) :
    Reaches locals s cli pack e ↔ e.1 ≠ pack.fromUid ∧ e.2 ≠ cli := by
  obtain ⟨d, there⟩ := Option.isSome_iff_exists.mp isOpen
  unfold Reaches
  rw [deref_of_present present, deref_of_present there]
  refine and_congr_right fun _ => ⟨fun reached same => ?_, fun differ => ⟨fun same => ?_, wf.valid _ d there⟩⟩
  · rw [same, present] at there
    cases there
    exact reached.1 rfl
  · exact differ (wf.descriptor e.2 cli d c there present same)

theorem unicast_eq (wf : s.WellFormed) (present : s.clients cli = some c) :
    unicast locals s cli pack = [.push cli (unicastCopy pack)] := by
  unfold unicast
  rw [deref_of_present present, if_pos (wf.valid cli c present)]

theorem pushes_broadcastLoop (wf : s.WellFormed) (present : s.clients cli = some c) :
    pushes (broadcastLoop locals s (register locals s cli pack.fromUid) cli pack) =
      ((register locals s cli pack.fromUid).entries.filter fun e => e.1 ≠ pack.fromUid ∧ e.2 ≠ cli).map
        fun e => (e.2, broadcastCopy pack e.1) := by
  rw [broadcastLoop_eq, pushes_flatMap_broadcastPair]
  congr 1
  apply List.filter_congr
  intro e member
  have isOpen : (s.clients e.2).isSome :=
    Registry.isSome_of_mem_register wf.registry (by simp [present]) member
  exact decide_eq_decide.mpr (reaches_iff wf present isOpen)

end WellFormed

section Known

variable {dcnClients : Map UInt64 Conn} {pack : Packet}

theorem isBroadcast_iff :
    pack.isBroadcast = true ↔ pack.packtype = .broadcast ∨ pack.packtype = .sigBroadcast := by
  simp [Packet.isBroadcast]

theorem reached_of_known (known : ¬Unknown dcnClients pack) :
    pack.toUid = 0 ∨ (mapAt dcnClients pack.toUid).isSome := by
  by_contra stranger
  obtain ⟨named, absent⟩ := not_or.mp stranger
  exact known ⟨by simpa using absent, fun server => named server.1⟩

theorem found_of_known (known : ¬Unknown dcnClients pack)
    (noPing : ¬(pack.toUid = 0 ∧ pack.packtype = .ping)) (single : pack.isBroadcast = false) :
    ∃ toCli, mapAt dcnClients pack.toUid = some toCli := by
  cases found : mapAt dcnClients pack.toUid with
  | some toCli => exact ⟨toCli, rfl⟩
  | none =>
    refine absurd ⟨found, fun server => ?_⟩ known
    rcases server.2 with ping | broadcast
    · exact noPing ⟨server.1, ping⟩
    · rw [isBroadcast_iff.mpr broadcast] at single
      cases single

variable {locals : Locals} {s : Server} {cli : Conn}

theorem forwards_of_unknown (unknown : Unknown dcnClients pack) :
    ¬(pack.toUid = 0 ∧ pack.packtype = .ping) ∧ forwards locals s dcnClients cli pack = none := by
  obtain ⟨absent, notServer⟩ := unknown
  refine ⟨fun ping => notServer ⟨ping.1, .inl ping.2⟩, ?_⟩
  unfold forwards
  rw [absent, if_neg fun all => notServer ⟨all.1, .inr (isBroadcast_iff.mp all.2)⟩]

theorem forwards_of_known (known : ¬Unknown dcnClients pack)
    (noPing : ¬(pack.toUid = 0 ∧ pack.packtype = .ping)) :
    (forwards locals s dcnClients cli pack).isSome := by
  cases broadcast : pack.isBroadcast with
  | true =>
    unfold forwards
    rcases reached_of_known known with zero | reached
    · rw [if_pos ⟨zero, broadcast⟩]
      rfl
    · obtain ⟨toCli, found⟩ := Option.isSome_iff_exists.mp reached
      simp only [found, broadcast]
      split <;> rfl
  | false =>
    obtain ⟨toCli, found⟩ := found_of_known known noPing broadcast
    simp [forwards, found, broadcast]

theorem answerCode_of_unknown (unknown : Unknown dcnClients pack) :
    answerCode locals s dcnClients cli pack = 101 := by
  obtain ⟨noPing, none⟩ := forwards_of_unknown unknown
  unfold answerCode
  rw [if_neg noPing, none]
  rfl

theorem answerCode_of_known (known : ¬Unknown dcnClients pack) :
    answerCode locals s dcnClients cli pack = 200 := by
  unfold answerCode
  split
  · rfl
  · next noPing => rw [if_pos (forwards_of_known known noPing)]

theorem sentOn_of_unknown (unknown : Unknown dcnClients pack) :
    sentOn locals s dcnClients cli pack = [] :=
  sentOn_unknown (fun all => unknown.2 ⟨all.1, .inr (isBroadcast_iff.mp all.2)⟩) unknown.1

end Known

section Rule

variable {locals : Locals} {ok : Conn → Bool} {s : Server} {cli : Conn} {c : Client} {pack : Packet}

theorem routed_sentOn (locals : Locals) (pack : Packet) (wf : s.WellFormed)
    (present : s.clients cli = some c) : Routed (register locals s cli pack.fromUid) cli pack
      (codeAnswer pack (answerCode locals s (register locals s cli pack.fromUid) cli pack))
      (pushes (sentOn locals s (register locals s cli pack.fromUid) cli pack)) where
  sender := mapAt_register_self wf present pack.fromUid
  answered := ⟨rfl, rfl, rfl, rfl⟩
  refused unknown := by
    rw [answerCode_of_unknown unknown, sentOn_of_unknown unknown]
    exact ⟨rfl, rfl⟩
  accepted known := by
    rw [answerCode_of_known known]
    rfl
  ping zero ping := by
    rw [sentOn_ping ⟨zero, ping⟩]
    rfl
  unicast known noPing single := by
    obtain ⟨toCli, found⟩ := found_of_known known noPing single
    have isOpen : (s.clients toCli).isSome :=
      Registry.isSome_of_mem_register wf.registry (by simp [present]) (Map.mapAt_eq_some_iff.mp found)
    obtain ⟨d, there⟩ := Option.isSome_iff_exists.mp isOpen
    refine ⟨toCli, found, ?_⟩
    rw [sentOn_unicast noPing single found, unicast_eq wf there]
    rfl
  broadcast known broadcast := by
    rw [sentOn_broadcast broadcast (reached_of_known known)]
    exact pushes_broadcastLoop wf present

theorem wellFormed_of_addresses {t : Server} (wf : s.WellFormed) (registry : t.RegistryOpen)
    (addresses : ∀ cli d, t.clients cli = some d → ∃ c, s.clients cli = some c ∧ d.SameAddress c) :
    t.WellFormed := by
  refine ⟨?_, ?_, ?_, registry⟩
  · intro one two c d first second ip port
    obtain ⟨c', before, ip₁, port₁, _⟩ := addresses one c first
    obtain ⟨d', after, ip₂, port₂, _⟩ := addresses two d second
    exact wf.address one two c' d' before after (ip₁ ▸ ip₂ ▸ ip) (port₁ ▸ port₂ ▸ port)
  · intro one two c d first second fd
    obtain ⟨c', before, _, _, fd₁⟩ := addresses one c first
    obtain ⟨d', after, _, _, fd₂⟩ := addresses two d second
    exact wf.descriptor one two c' d' before after (fd₁ ▸ fd₂ ▸ fd)
  · intro cli d present
    obtain ⟨c, before, _, _, fd⟩ := addresses cli d present
    exact fd ▸ wf.valid cli c before

theorem addresses_modify {f : Client → Client} (same : ∀ c, (f c).SameAddress c) (other : Conn) (d : Client)
    (present : (s.modify cli f).clients other = some d) :
    ∃ c, s.clients other = some c ∧ d.SameAddress c := by
  obtain ⟨c, before, changed | kept⟩ := Server.clients_modify_cases s cli f present
  · exact ⟨c, before, changed ▸ same c⟩
  · exact ⟨c, before, kept ▸ ⟨rfl, rfl, rfl⟩⟩

theorem wellFormed_modify {f : Client → Client} (wf : s.WellFormed) (same : ∀ c, (f c).SameAddress c) :
    (s.modify cli f).WellFormed := by
  apply wellFormed_of_addresses wf _ (addresses_modify same)
  exact Registry.registryOpen_of_grows wf.registry rfl fun other isOpen => by simpa using isOpen

theorem addresses_handlePacket (other : Conn) (d : Client)
    (present : (handlePacket locals ok s cli pack).1.clients other = some d) :
    ∃ c, s.clients other = some c ∧ d.SameAddress c := by
  -- Effects change the write queue and the mode of a connection only.
  simp only [handlePacket, Server.clients_foldl_perform] at present
  obtain ⟨c, before, after⟩ := Option.map_eq_some_iff.mp present
  subst after
  exact ⟨c, before, Effect.sameAddress_foldl_apply c _⟩

theorem sameAddress_runServerEpollout (c : Client) (aw : WriteResult) (modOk : Bool) :
    (runServerEpollout c aw modOk).1.SameAddress c := by
  simp only [runServerEpollout]
  split
  · cases modOk <;> exact ⟨rfl, rfl, rfl⟩
  · exact ⟨rfl, rfl, rfl⟩

theorem wellFormed_accept {fd : Int} {ip : String} {port : UInt16} (wf : s.WellFormed) (positive : 0 < fd)
    (fresh : ∀ other c, s.clients other = some c → c.fd ≠ fd ∧ ¬(c.ip = ip ∧ c.port = port))
    (registry : (serverStep s (.accept cli fd ip port)).RegistryOpen) :
    (serverStep s (.accept cli fd ip port)).WellFormed := by
  refine ⟨?_, ?_, ?_, registry⟩
  · intro one two c d first second sameIp samePort
    rcases Server.clients_accept first with first | ⟨one, new⟩ <;>
      rcases Server.clients_accept second with second | ⟨two, new'⟩
    · exact wf.address one two c d first second sameIp samePort
    · -- The accepted address is new.
      subst new'
      exact absurd ⟨sameIp, samePort⟩ (fresh one c first).2
    · subst new
      exact absurd ⟨sameIp.symm, samePort.symm⟩ (fresh two d second).2
    · exact one.trans two.symm
  · intro one two c d first second same
    rcases Server.clients_accept first with first | ⟨one, new⟩ <;>
      rcases Server.clients_accept second with second | ⟨two, new'⟩
    · exact wf.descriptor one two c d first second same
    · subst new'
      exact absurd same (fresh one c first).1
    · subst new
      exact absurd same.symm (fresh two d second).1
    · exact one.trans two.symm
  · intro other c present
    rcases Server.clients_accept present with present | ⟨_, new⟩
    · exact wf.valid other c present
    · subst new
      exact positive

theorem wellFormed_step (s : Server) (e : ServerEvent) (wf : s.WellFormed) (admitted : s.Admits e) :
    (serverStep s e).WellFormed := by
  have registry : (serverStep s e).RegistryOpen :=
    (Registry.registryOpen_step s e wf.registry).mpr admitted.1
  cases e with
  | accept cli fd ip port => exact wellFormed_accept wf admitted.2.1 admitted.2.2 registry
  | frame cli block => exact wellFormed_modify wf fun c => ⟨rfl, rfl, rfl⟩
  | work cli locals ok =>
    apply wellFormed_of_addresses wf registry
    simp only [serverStep]
    cases next : s.nextPacket locals cli with
    | none =>
      rw [Server.dcnAsyncWorker_none ok next]
      exact fun other d present => ⟨d, present, rfl, rfl, rfl⟩
    | some pack =>
      rw [Server.dcnAsyncWorker_some ok next]
      intro other d present
      obtain ⟨c, popped, later⟩ := addresses_handlePacket other d present
      have same : ∀ c : Client, { c with readQ := (popBlock c.readQ).2.2 }.SameAddress c :=
        fun c => ⟨rfl, rfl, rfl⟩
      obtain ⟨b, before, earlier⟩ := addresses_modify same other c popped
      exact ⟨b, before, later.trans earlier⟩
  | epollout cli aw modOk => exact wellFormed_modify wf fun c => sameAddress_runServerEpollout c aw modOk
  | disconnect cli delOk =>
    apply wellFormed_of_addresses wf registry
    exact fun other d present => ⟨d, Server.clients_disconnect present, rfl, rfl, rfl⟩

theorem wellFormed_throughout {events : List ServerEvent}
    (along : Runs.Along serverStep Server.Admits dcnServInit events) :
    Runs.Throughout serverStep Server.WellFormed dcnServInit events := by
  have start : dcnServInit.WellFormed := by
    refine ⟨?_, ?_, ?_, ?_⟩
    · intro one two c d present
      cases present
    · intro one two c d present
      cases present
    · intro cli c present
      cases present
    · intro uid cli member
      cases member
  exact Runs.throughout_of_preserved wellFormed_step start along

theorem blocks_handlePacket (d : Conn) :
    ((handlePacket locals ok s cli pack).1.clients d).map (·.writeQ.blocks) =
      (s.clients d).map fun e => e.writeQ.blocks ++
        ((pushes (handlePacket locals ok s cli pack).2).filter (·.1 = d)).map fun p => packetSerial p.2 := by
  simp only [handlePacket, Server.clients_foldl_perform, Option.map_map, Function.comp_def,
    Effect.blocks_foldl_apply, filterMap_packetTo, List.map_map]

theorem blocks_popped (s : Server) (cli d : Conn) (more : List Block) :
    ((s.popped cli).clients d).map (fun e => e.writeQ.blocks ++ more) =
      (s.clients d).map fun e => e.writeQ.blocks ++ more := by
  unfold Server.popped
  by_cases same : d = cli
  · subst same
    rw [Server.clients_modify_self, Option.map_map]
    rfl
  · rw [Server.clients_modify_of_ne s cli _ same]

end Rule

/-- A well-formed packet read from a connection is answered and sent on as the
delivery rule says, and every write queue grows by what was pushed to it. -/
theorem dcnAsyncWorker_routed (locals : Locals) (ok : Conn → Bool) {s : Server} {cli : Conn} {c : Client}
    {pack : Packet} {rest : List Block} (wf : s.WellFormed) (present : s.clients cli = some c)
    (queued : c.readQ.blocks = packetSerial pack :: rest) (fits : pack.Fits)
    (other : pack.fromUid ≠ pack.toUid) :
    ∃ answer forwarded, pushes (dcnAsyncWorker locals ok s cli).2 = (cli, answer) :: forwarded ∧
      Routed (dcnAsyncWorker locals ok s cli).1.dcnClients cli pack answer forwarded ∧
      ∀ d, ((dcnAsyncWorker locals ok s cli).1.clients d).map (·.writeQ.blocks) =
        (s.clients d).map fun e => e.writeQ.blocks ++
          ((pushes (dcnAsyncWorker locals ok s cli).2).filter (·.1 = d)).map fun p => packetSerial p.2 := by
  have next : s.nextPacket locals cli = some pack := by
    simp [Server.nextPacket, present, popBlock_cons queued, fits.deserial_serial]
  have popped : (s.popped cli).WellFormed := wellFormed_modify wf fun c => ⟨rfl, rfl, rfl⟩
  have there : (s.popped cli).clients cli = some { c with readQ := (popBlock c.readQ).2.2 } := by
    simp [Server.popped, present]
  let dcnClients := register locals (s.popped cli) cli pack.fromUid
  rw [Server.dcnAsyncWorker_some ok next]
  refine ⟨codeAnswer pack (answerCode locals (s.popped cli) dcnClients cli pack),
    pushes (sentOn locals (s.popped cli) dcnClients cli pack), ?_, ?_, fun d => ?_⟩
  · have effects : (handlePacket locals ok (s.popped cli) cli pack).2 = _ := respond_other other
    rw [effects, pushes_cons_push, pushes_append_change]
  · rw [Server.dcnClients_handlePacket]
    exact routed_sentOn locals pack popped there
  · rw [blocks_handlePacket, blocks_popped]

def greeting : Packet := packetInit [104, 105] 7 8 1

def greeter : Client := { acceptClient 5 "127.0.0.1" 40000 with readQ := ⟨[packetSerial greeting]⟩ }

def twoUsers : Server where
  clients cli := if cli = 1 then some greeter
    else if cli = 2 then some (acceptClient 6 "127.0.0.1" 40001) else none
  dcnClients := mapSet (mapInit UInt64 Conn) 8 2
  dcnSessions := mapInit UInt64 UInt64

theorem clients_twoUsers {cli : Conn} {c : Client} (present : twoUsers.clients cli = some c) :
    (cli = 1 ∧ c.fd = 5 ∧ c.ip = "127.0.0.1" ∧ c.port = 40000) ∨
      (cli = 2 ∧ c.fd = 6 ∧ c.ip = "127.0.0.1" ∧ c.port = 40001) := by
  simp only [twoUsers] at present
  split at present
  · next one => cases present; exact .inl ⟨one, rfl, rfl, rfl⟩
  · split at present
    · next two => cases present; exact .inr ⟨two, rfl, rfl, rfl⟩
    · cases present

theorem wellFormed_twoUsers : twoUsers.WellFormed where
  address one two c d first second _ port := by
    rcases clients_twoUsers first with ⟨one, _, _, p⟩ | ⟨one, _, _, p⟩ <;>
      rcases clients_twoUsers second with ⟨two, _, _, q⟩ | ⟨two, _, _, q⟩ <;> simp_all
  descriptor one two c d first second fd := by
    rcases clients_twoUsers first with ⟨one, p, _⟩ | ⟨one, p, _⟩ <;>
      rcases clients_twoUsers second with ⟨two, q, _⟩ | ⟨two, q, _⟩ <;> simp_all
  valid cli c present := by
    rcases clients_twoUsers present with ⟨_, fd, _⟩ | ⟨_, fd, _⟩ <;> simp [fd]
  registry uid cli member := by
    have only : (uid, cli) ∈ [((8 : UInt64), 2)] := member
    cases List.mem_singleton.mp only
    rfl

theorem dcnAsyncWorker_routed_greeting :
    ∃ answer forwarded,
      pushes (dcnAsyncWorker .blank (fun _ => true) twoUsers 1).2 = (1, answer) :: forwarded ∧
      Routed (dcnAsyncWorker .blank (fun _ => true) twoUsers 1).1.dcnClients 1 greeting answer forwarded := by
  have present : twoUsers.clients 1 = some greeter := rfl
  have queued : greeter.readQ.blocks = packetSerial greeting :: [] := rfl
  have fits : greeting.Fits := by decide
  have other : greeting.fromUid ≠ greeting.toUid := by decide
  obtain ⟨answer, forwarded, pushed, routed, _⟩ :=
    dcnAsyncWorker_routed .blank (fun _ => true) wellFormed_twoUsers present queued fits other
  exact ⟨answer, forwarded, pushed, routed⟩

end Routing

end Dcn
