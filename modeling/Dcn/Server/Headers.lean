import Dcn.Server.Routing

/-! The header of a packet that dcn_async_worker forwards (server.c).

The unicast path and the broadcast loop each initialise a packet of their own
and copy fields of the received one back into it. The two copy different fields.
-/

set_option autoImplicit false

namespace Dcn

def forwardedBy (locals : Locals) (ok : Conn → Bool) (s : Server) (cli : Conn) (pack : Packet) : List (Conn × Packet) :=
  (pushes (handlePacket locals ok s cli pack).2).tail

def ForwardsTo (locals : Locals) (s : Server) (cli : Conn) (pack : Packet) (e : UInt64 × Conn) : Prop :=
  mapAt s.dcnClients e.1 = some e.2 ∧ pack.fromUid ≠ pack.toUid ∧
    if pack.isBroadcast then
      (pack.toUid = 0 ∨ (mapAt s.dcnClients pack.toUid).isSome) ∧ Reaches locals s cli pack e
    else ¬(pack.toUid = 0 ∧ pack.packtype = .ping) ∧ e.1 = pack.toUid ∧ 0 < (s.deref locals e.2).fd

def forwardedCopy (pack : Packet) (uid : UInt64) : Packet :=
  if pack.isBroadcast then broadcastCopy pack uid else unicastCopy pack

/-- What forwarding is to change: the recipient, the mark that the packet came
through the server, and the number. -/
def readdressed (pack : Packet) (uid : UInt64) : Packet := { pack with toUid := uid, fromOs := 1, muid := 0 }

def PreservesHeaders (locals : Locals) (ok : Conn → Bool) (s : Server) (cli : Conn) (pack : Packet) : Prop :=
  ∀ target sent, (target, sent) ∈ forwardedBy locals ok s cli pack →
    ∃ uid, mapAt s.dcnClients uid = some target ∧ sent = readdressed pack uid

section Forwarded

variable {locals : Locals} {ok : Conn → Bool} {s : Server} {cli target : Conn} {pack sent : Packet}

theorem forwardedBy_self (own : pack.fromUid = pack.toUid) : forwardedBy locals ok s cli pack = [] := by
  simp only [forwardedBy, handlePacket, respond_self own]
  rfl

theorem mem_forwardedBy_other (other : pack.fromUid ≠ pack.toUid) : (target, sent) ∈ forwardedBy locals ok s cli pack ↔
    .push target sent ∈ sentOn locals s (register locals s cli pack.fromUid) cli pack := by
  simp only [forwardedBy, handlePacket, respond_other other, Routing.pushes_cons_push, List.tail_cons,
    Routing.pushes_append_change, Routing.mem_pushes]

theorem push_mem_sentOn_unicast (other : pack.fromUid ≠ pack.toUid) (single : pack.isBroadcast = false) :
    .push target sent ∈ sentOn locals s (register locals s cli pack.fromUid) cli pack ↔
      ∃ e, ForwardsTo locals s cli pack e ∧ target = e.2 ∧ sent = unicastCopy pack := by
  by_cases ping : pack.toUid = 0 ∧ pack.packtype = .ping
  · rw [sentOn_ping ping]
    simp [ForwardsTo, single, ping]
  · have known := mapAt_register_of_ne locals s cli pack.fromUid (Ne.symm other)
    cases found : mapAt s.dcnClients pack.toUid with
    | none =>
      rw [found] at known
      rw [sentOn_unknown (by simp [single]) known]
      refine iff_of_false List.not_mem_nil ?_
      rintro ⟨e, ⟨present, _, sends⟩, _⟩
      rw [single] at sends
      rw [sends.2.1, found] at present
      cases present
    | some toCli =>
      rw [found] at known
      rw [sentOn_unicast ping single known, push_mem_unicast]
      constructor
      · rintro ⟨valid, rfl, rfl⟩
        exact ⟨(pack.toUid, target), ⟨found, other, by simpa [single, valid] using ping⟩, rfl, rfl⟩
      · rintro ⟨⟨uid, conn⟩, ⟨present, _, sends⟩, rfl, rfl⟩
        simp only [single, Bool.false_eq_true, ↓reduceIte] at sends
        obtain ⟨_, rfl, valid⟩ := sends
        rw [found] at present
        cases present
        exact ⟨valid, rfl, rfl⟩

theorem push_mem_sentOn_broadcast (other : pack.fromUid ≠ pack.toUid) (broadcast : pack.isBroadcast = true) :
    .push target sent ∈ sentOn locals s (register locals s cli pack.fromUid) cli pack ↔
      ∃ e, ForwardsTo locals s cli pack e ∧ target = e.2 ∧ sent = broadcastCopy pack e.1 := by
  have known := mapAt_register_of_ne locals s cli pack.fromUid (Ne.symm other)
  by_cases reached : pack.toUid = 0 ∨ (mapAt s.dcnClients pack.toUid).isSome
  · have registered : pack.toUid = 0 ∨ (mapAt (register locals s cli pack.fromUid) pack.toUid).isSome := by
      rwa [known]
    rw [sentOn_broadcast broadcast registered, push_mem_broadcastLoop]
    constructor
    · rintro ⟨key, member, reaches, copy⟩
      rw [mem_register_of_ne locals s cli pack.fromUid reaches.1] at member
      refine ⟨(key, target), ⟨Map.mapAt_eq_some_iff.mpr member, other, ?_⟩, rfl, copy⟩
      rw [if_pos broadcast]
      exact ⟨reached, reaches⟩
    · rintro ⟨⟨key, conn⟩, ⟨present, _, sends⟩, rfl, copy⟩
      rw [if_pos broadcast] at sends
      refine ⟨key, ?_, sends.2, copy⟩
      rw [mem_register_of_ne locals s cli pack.fromUid sends.2.1]
      exact Map.mapAt_eq_some_iff.mp present
  · obtain ⟨named, absent⟩ := not_or.mp reached
    have absent : mapAt (register locals s cli pack.fromUid) pack.toUid = none := by
      rw [known]
      simpa using absent
    rw [sentOn_unknown (fun zero => named zero.1) absent]
    refine iff_of_false List.not_mem_nil ?_
    rintro ⟨e, ⟨_, _, sends⟩, _⟩
    rw [if_pos broadcast] at sends
    exact reached sends.1

theorem mem_forwardedBy_iff : (target, sent) ∈ forwardedBy locals ok s cli pack ↔
    ∃ e, ForwardsTo locals s cli pack e ∧ target = e.2 ∧ sent = forwardedCopy pack e.1 := by
  by_cases own : pack.fromUid = pack.toUid
  · rw [forwardedBy_self own]
    refine iff_of_false List.not_mem_nil ?_
    rintro ⟨e, ⟨_, other, _⟩, _⟩
    exact other own
  · rw [mem_forwardedBy_other own]
    cases broadcast : pack.isBroadcast with
    | true => simp only [push_mem_sentOn_broadcast own broadcast, forwardedCopy, broadcast, ↓reduceIte]
    | false =>
      simp only [push_mem_sentOn_unicast own broadcast, forwardedCopy, broadcast, Bool.false_eq_true, ↓reduceIte]

/-- The copies drop the fields that packet_init clears and that are not copied
back: `trav_tuid`, and on the unicast path `trav_fuid`. -/
theorem forwardedCopy_eq_iff {e : UInt64 × Conn} (sends : ForwardsTo locals s cli pack e) (uid : UInt64) :
    forwardedCopy pack e.1 = readdressed pack uid ↔
      e.1 = uid ∧ pack.travTuid = 0 ∧ (pack.isBroadcast = true ∨ pack.travFuid = 0) := by
  obtain ⟨_, _, sends⟩ := sends
  cases broadcast : pack.isBroadcast with
  | true => simp [forwardedCopy, broadcast, broadcastCopy, readdressed, packetInit, eq_comm]
  | false =>
    simp only [broadcast, Bool.false_eq_true, ↓reduceIte] at sends
    simp [forwardedCopy, broadcast, unicastCopy, readdressed, packetInit, sends.2.1, eq_comm, and_comm]

end Forwarded

/-- The headers are preserved exactly where there is no recipient, or the packet
has no trav_tuid and, unless it is broadcast, no trav_fuid. -/
theorem preservesHeaders_iff (locals : Locals) (ok : Conn → Bool) (s : Server) (cli : Conn) (pack : Packet) :
    PreservesHeaders locals ok s cli pack ↔ ∀ e, ForwardsTo locals s cli pack e →
      pack.travTuid = 0 ∧ (pack.isBroadcast = true ∨ pack.travFuid = 0) := by
  constructor
  · intro kept e sends
    obtain ⟨uid, _, same⟩ := kept e.2 _ (mem_forwardedBy_iff.mpr ⟨e, sends, rfl, rfl⟩)
    exact ((forwardedCopy_eq_iff sends uid).mp same).2
  · intro cleared target sent member
    obtain ⟨e, sends, rfl, rfl⟩ := mem_forwardedBy_iff.mp member
    exact ⟨e.1, sends.1, (forwardedCopy_eq_iff sends e.1).mpr ⟨rfl, cleared e sends⟩⟩

def sentFor : Packet := { Routing.greeting with travFuid := 5 }

theorem unicast_drops_travFuid : ¬ PreservesHeaders .blank (fun _ => true) Routing.twoUsers 1 sentFor := by
  intro kept
  obtain ⟨uid, _, same⟩ := kept 2 (unicastCopy sentFor) (by decide)
  have travFuid : (0 : UInt64) = 5 := congrArg Packet.travFuid same
  exact absurd travFuid (by decide)

end Dcn
