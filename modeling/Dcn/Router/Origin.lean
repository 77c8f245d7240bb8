import Dcn.Router.Spread

/-! Whom a signal broadcast is from, after any number of hops.

Every session sends the broadcast on under its own UID, so the originator is
known by trav_fuid alone. A 0 there stands for the first hop. Nothing about the
network matters for it: a server copies the field and the payload as they are, a
runner fills it in where it is 0, and what comes from UID 0 is declined by the
first server.
-/

set_option autoImplicit false

namespace Dcn

/-- The sender is answered the code 200, whatever the stack holds. -/
def Server.Accepts (s : Server) (cli : Conn) (pack : Packet) : Prop :=
  ∃ locals ok, (cli, codeAnswer pack 200) ∈ pushes (handlePacket locals ok s cli pack).2

def CopyOf (pack copy : Packet) : Prop := copy = broadcastCopy pack copy.toUid

structure Relayed (pack : Packet) (uid : UInt64) (sent : Packet) : Prop where
  packtype : sent.packtype = .sigBroadcast
  toUid : sent.toUid = 0
  travFuid : sent.travFuid = pack.fromUid
  data : sent.data = pack.data
  fromUid : sent.fromUid = uid

/-- Every packet that a router sent is the broadcast under its session's UID,
and names the originator. So does every copy of such a packet, and there are no
others but those the first server made. -/
structure World.Attributed {S R : Type} (start : World S R) (origin : S) (pack : Packet) (w : World S R) : Prop where
  emitted : ∀ e ∈ w.emitted, Relayed pack (start.sessions e.1 e.2.1).cliUid e.2.2
  copies : ∀ c ∈ w.copies, c.packet.data = pack.data ∧
    (c.server = origin ∧ CopyOf pack c.packet ∨
      c.packet.travFuid = pack.fromUid ∧ ∃ e ∈ w.emitted, CopyOf e.2.2 c.packet)

section Copies

variable {pack copy : Packet}

theorem CopyOf.data (isCopy : CopyOf pack copy) : copy.data = pack.data := by
  rw [isCopy]
  rfl

theorem CopyOf.travFuid (isCopy : CopyOf pack copy) : copy.travFuid = pack.travFuid := by
  rw [isCopy]
  rfl

theorem CopyOf.fromUid (isCopy : CopyOf pack copy) : copy.fromUid = pack.fromUid := by
  rw [isCopy]
  rfl

theorem CopyOf.packtype (isCopy : CopyOf pack copy) : copy.packtype = pack.packtype := by
  rw [isCopy]
  rfl

end Copies

namespace Network

section Packets

variable {S : Type} {locals : Locals} {ok : Conn → Bool} {s : Server} {cli : Conn} {pack copy : Packet} {uid : UInt64}

theorem fromUid_ne_of_accepts (accepts : s.Accepts cli pack) : pack.fromUid ≠ pack.toUid := by
  intro own
  obtain ⟨locals, ok, answered⟩ := accepts
  have effects : (handlePacket locals ok s cli pack).2 = [.push cli (selfAnswer locals pack)] := respond_self own
  rw [effects] at answered
  have same : codeAnswer pack 200 = selfAnswer locals pack := congrArg Prod.snd (List.mem_singleton.mp answered)
  have differ : intBytes 200 ≠ intBytes 102 := by decide
  exact differ (congrArg Packet.data same)

theorem copyOf_of_mem {server : S} (signal : pack.packtype = .sigBroadcast) (all : pack.toUid = 0) {c : Copy S}
    (member : c ∈ copiesOf server (handlePacket locals ok s cli pack).2) :
    c.server = server ∧ CopyOf pack c.packet := by
  obtain ⟨⟨target, sent⟩, pushed, isCopy⟩ := List.mem_map.mp member
  obtain ⟨pushed, user⟩ := List.mem_filter.mp pushed
  have notAnswer : sent.fromOs ≠ 0 := of_decide_eq_true user
  subst isCopy
  refine ⟨rfl, ?_⟩
  have pushed := Routing.mem_pushes.mp pushed
  by_cases own : pack.fromUid = pack.toUid
  · have effects : (handlePacket locals ok s cli pack).2 = [.push cli (selfAnswer locals pack)] := respond_self own
    rw [effects] at pushed
    cases List.mem_singleton.mp pushed
    exact absurd rfl notAnswer
  · have effects : (handlePacket locals ok s cli pack).2 = _ := respond_other own
    rw [effects, sentOn_broadcast (Routing.isBroadcast_iff.mpr (.inr signal)) (.inl all)] at pushed
    rcases List.mem_cons.mp pushed with answer | rest
    · cases answer
      exact absurd rfl notAnswer
    · rcases List.mem_append.mp rest with looped | last
      · obtain ⟨key, -, -, shape⟩ := push_mem_broadcastLoop.mp looped
        subst shape
        rfl
      · cases List.mem_singleton.mp last

/-- The first hop: the copy still names nobody, or the originator itself. -/
theorem origTravFuid_first (first : pack.travFuid = 0 ∨ pack.travFuid = pack.fromUid) (isCopy : CopyOf pack copy) :
    copy.origTravFuid = pack.fromUid := by
  rw [Packet.origTravFuid, isCopy.travFuid, isCopy.fromUid]
  split
  · rfl
  · next named => exact first.resolve_left named

/-- Every other hop: the copy names the originator, whose UID is not 0. -/
theorem origTravFuid_later (fromUser : pack.fromUid ≠ 0) (named : copy.travFuid = pack.fromUid) :
    copy.origTravFuid = pack.fromUid := by
  rw [Packet.origTravFuid, named, if_neg fromUser]

theorem relayed_outgoing {session : Session} (signal : copy.packtype = .sigBroadcast) (data : copy.data = pack.data)
    (origin : copy.origTravFuid = pack.fromUid) :
    Relayed pack session.cliUid (Forwarding.outgoing session copy) :=
  ⟨signal, rfl, origin, data, rfl⟩

end Packets

section Trace

variable {S R : Type} {T : Topology S R} {start w : World S R} {origin : S} {sender : Conn} {pack : Packet}

/-- What is in transit is the first packet, one that a router sent, or a copy
that a server made. -/
def Logged (origin : S) (sender : Conn) (pack : Packet) (w : World S R) : Item S R → Prop
  | .atServer s cli p => s = origin ∧ cli = sender ∧ p = pack ∨ ∃ e ∈ w.emitted, e.2.2 = p
  | .atLink _ _ p => ∃ c ∈ w.copies, c.packet = p

structure Traced (start : World S R) (origin : S) (sender : Conn) (pack : Packet) (l : Worklist (World S R) (Item S R)) :
    Prop where
  sessions : ∀ r i, (l.state.sessions r i).cliUid = (start.sessions r i).cliUid
  attributed : start.Attributed origin pack l.state
  pending : ∀ a ∈ l.pending, Logged origin sender pack l.state a

theorem Logged.mono {v : World S R} {a : Item S R} (logged : Logged origin sender pack w a)
    (emitted : w.emitted ⊆ v.emitted) (copies : w.copies ⊆ v.copies) : Logged origin sender pack v a := by
  cases a with
  | atServer s cli p =>
    rcases logged with first | ⟨e, member, same⟩
    · exact .inl first
    · exact .inr ⟨e, emitted member, same⟩
  | atLink r i p =>
    obtain ⟨c, member, same⟩ := logged
    exact ⟨c, copies member, same⟩

theorem copies_attributed (attributed : start.Attributed origin pack w) (signal : pack.packtype = .sigBroadcast)
    (all : pack.toUid = 0) {s : S} {cli : Conn} {p : Packet} (logged : Logged origin sender pack w (.atServer s cli p))
    {locals : Locals} {ok : Conn → Bool} {server : Server} {c : Copy S}
    (member : c ∈ copiesOf s (handlePacket locals ok server cli p).2) : c.packet.data = pack.data ∧
      (c.server = origin ∧ CopyOf pack c.packet ∨
        c.packet.travFuid = pack.fromUid ∧ ∃ e ∈ w.emitted, CopyOf e.2.2 c.packet) := by
  rcases logged with ⟨here, -, first⟩ | ⟨e, sent, same⟩
  · subst here first
    obtain ⟨atServer, isCopy⟩ := copyOf_of_mem signal all member
    exact ⟨isCopy.data, .inl ⟨atServer, isCopy⟩⟩
  · subst same
    have relayed := attributed.emitted e sent
    obtain ⟨-, isCopy⟩ := copyOf_of_mem relayed.packtype relayed.toUid member
    exact ⟨isCopy.data.trans relayed.data, .inr ⟨isCopy.travFuid.trans relayed.travFuid, e, sent, isCopy⟩⟩

theorem relayed_of_copy (attributed : start.Attributed origin pack w) (signal : pack.packtype = .sigBroadcast)
    (fromUser : pack.fromUid ≠ 0) (first : pack.travFuid = 0 ∨ pack.travFuid = pack.fromUid) {c : Copy S}
    (member : c ∈ w.copies) (session : Session) :
    c.packet.packtype = .sigBroadcast ∧ Relayed pack session.cliUid (Forwarding.outgoing session c.packet) := by
  obtain ⟨data, ⟨-, isCopy⟩ | ⟨named, e, sent, isCopy⟩⟩ := attributed.copies c member
  · have isSignal := isCopy.packtype.trans signal
    exact ⟨isSignal, relayed_outgoing isSignal data (origTravFuid_first first isCopy)⟩
  · have isSignal := isCopy.packtype.trans (attributed.emitted e sent).packtype
    exact ⟨isSignal, relayed_outgoing isSignal data (origTravFuid_later fromUser named)⟩

variable [DecidableEq S] [DecidableEq R]

theorem logged_deliver (T : Topology S R) (w : World S R) (run : Locals × (Conn → Bool)) {a b : Item S R}
    (member : b ∈ (T.deliver w run a).2) : Logged origin sender pack (T.deliver w run a).1 b := by
  cases a with
  | atServer s cli p =>
    obtain ⟨c, made, arrives⟩ := List.mem_filterMap.mp member
    obtain ⟨r, i, -, -, isItem⟩ := arrival_eq_some arrives
    subst isItem
    exact ⟨c, List.mem_append_right _ made, rfl⟩
  | atLink r my p =>
    obtain ⟨⟨i, sent⟩, made, departs⟩ := List.mem_filterMap.mp member
    obtain ⟨link, -, isItem⟩ := departure_eq_some departs
    subst isItem
    exact .inr ⟨(r, i, sent), List.mem_append_right _ (List.mem_map.mpr ⟨_, made, rfl⟩), rfl⟩

theorem logs_deliver (T : Topology S R) (w : World S R) (run : Locals × (Conn → Bool)) (a : Item S R) :
    w.emitted ⊆ (T.deliver w run a).1.emitted ∧ w.copies ⊆ (T.deliver w run a).1.copies := by
  cases a with
  | atServer s cli p => exact ⟨List.Subset.refl _, List.subset_append_left _ _⟩
  | atLink r my p => exact ⟨List.subset_append_left _ _, List.Subset.refl _⟩

theorem cliUid_deliver (T : Topology S R) (w : World S R) (run : Locals × (Conn → Bool)) (a : Item S R) (r : R)
    (i : Nat) : ((T.deliver w run a).1.sessions r i).cliUid = (w.sessions r i).cliUid := by
  cases a with
  | atServer s cli p => rfl
  | atLink q my p =>
    by_cases same : r = q
    · subst same
      simp only [Topology.deliver, Function.update_self, Forwarding.cliUid_routerRunner]
    · simp only [Topology.deliver, Function.update_of_ne same]

theorem attributed_deliver (signal : pack.packtype = .sigBroadcast) (all : pack.toUid = 0)
    (fromUser : pack.fromUid ≠ 0) (first : pack.travFuid = 0 ∨ pack.travFuid = pack.fromUid)
    (sessions : ∀ r i, (w.sessions r i).cliUid = (start.sessions r i).cliUid)
    (attributed : start.Attributed origin pack w) (run : Locals × (Conn → Bool)) {a : Item S R}
    (logged : Logged origin sender pack w a) : start.Attributed origin pack (T.deliver w run a).1 := by
  cases a with
  | atServer s cli p =>
    refine ⟨attributed.emitted, fun c member => ?_⟩
    have member : c ∈ w.copies ++ copiesOf s (handlePacket run.1 run.2 (w.servers s) cli p).2 := member
    rcases List.mem_append.mp member with old | made
    · exact attributed.copies c old
    · exact copies_attributed attributed signal all logged made
  | atLink r my p =>
    obtain ⟨c, member, same⟩ := logged
    subst same
    have isSignal := (relayed_of_copy attributed signal fromUser first member (w.sessions r my)).1
    have sent := Forwarding.sent_routerRunner (w.sessions r) (T.links r).length my isSignal
    refine ⟨fun e sentOn => ?_, fun d isCopy => ?_⟩
    · have sentOn : e ∈ w.emitted ++
          (routerRunner (w.sessions r) (T.links r).length my c.packet).2.map (Prod.mk r) := sentOn
      rw [sent, List.map_map] at sentOn
      rcases List.mem_append.mp sentOn with old | new
      · exact attributed.emitted e old
      · obtain ⟨i, -, isPacket⟩ := List.mem_map.mp new
        subst isPacket
        rw [← sessions]
        exact (relayed_of_copy attributed signal fromUser first member (w.sessions r i)).2
    · obtain ⟨data, made⟩ := attributed.copies d isCopy
      refine ⟨data, made.imp_right fun ⟨named, e, sentBefore, copyOf⟩ => ⟨named, e, ?_, copyOf⟩⟩
      exact List.mem_append_left _ sentBefore

theorem traced_step (signal : pack.packtype = .sigBroadcast) (all : pack.toUid = 0) (fromUser : pack.fromUid ≠ 0)
    (first : pack.travFuid = 0 ∨ pack.travFuid = pack.fromUid) (l : Worklist (World S R) (Item S R))
    (choice : Nat × (Locals × (Conn → Bool))) (traced : Traced start origin sender pack l) :
    Traced start origin sender pack (Worklist.step T.deliver l choice) := by
  cases taken : l.pending[choice.1]? with
  | none => rwa [Worklist.step_none taken]
  | some a =>
    have logged := traced.pending a (List.mem_of_getElem? taken)
    obtain ⟨emitted, copies⟩ := logs_deliver T l.state choice.2 a
    rw [Worklist.step_some taken]
    refine ⟨fun r i => ?_, ?_, fun b member => ?_⟩
    · rw [cliUid_deliver]
      exact traced.sessions r i
    · exact attributed_deliver signal all fromUser first traced.sessions traced.attributed choice.2 logged
    · rcases List.mem_append.mp member with old | new
      · exact (traced.pending b (List.mem_of_mem_eraseIdx old)).mono emitted copies
      · exact logged_deliver T l.state choice.2 new

/-- In any network, and in whatever order it is handled, an accepted broadcast
stays attributed to the client it came from. -/
theorem origin_attributed (T : Topology S R) {start : World S R} (copies : start.copies = [])
    (emitted : start.emitted = []) (accepts : (start.servers origin).Accepts sender pack)
    (signal : pack.packtype = .sigBroadcast) (all : pack.toUid = 0)
    (first : pack.travFuid = 0 ∨ pack.travFuid = pack.fromUid) (choices : List (Nat × (Locals × (Conn → Bool)))) :
    Runs.Throughout (Worklist.step T.deliver) (fun l => start.Attributed origin pack l.state)
      (Worklist.start start (.atServer origin sender pack)) choices := by
  have fromUser : pack.fromUid ≠ 0 := all ▸ fromUid_ne_of_accepts accepts
  have atStart : Traced start origin sender pack (Worklist.start start (.atServer origin sender pack)) := by
    refine ⟨fun _ _ => rfl, ⟨?_, ?_⟩, fun a member => ?_⟩
    · simp [Worklist.start, emitted]
    · simp [Worklist.start, copies]
    · rw [List.mem_singleton.mp member]
      exact .inl ⟨rfl, rfl, rfl⟩
  refine (Runs.throughout_of_preserved_all (fun l choice traced => ?_) atStart choices).mono fun l traced =>
    traced.attributed
  exact traced_step signal all fromUser first l choice traced

end Trace

theorem origin_attributed_bridge :
    Runs.Throughout (Worklist.step bridgeTopology.deliver) (fun l => bridgeWorld.Attributed 1 signal l.state)
      (Worklist.start bridgeWorld (.atServer 1 1 signal)) (inTurn 4) :=
  origin_attributed bridgeTopology rfl rfl ⟨.blank, fun _ => true, by decide⟩ rfl rfl (.inl rfl) (inTurn 4)

end Network

end Dcn
