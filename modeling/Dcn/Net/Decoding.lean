import Dcn.Net.Framing
import Dcn.Wire.Codec

/-! The blocks that the extraction loops hand to the handlers, decoded.

The framer adds the header size to the length field modulo `2 ^ 64` and the
decoder subtracts it again, so they agree on a block unless the addition wraps:
the block is then shorter than a header, whatever bytes follow.
-/

set_option autoImplicit false

namespace Dcn

/-- What a handler takes for granted of the block it pops. -/
def Decodes (block : Block) : Prop :=
  ∃ pack, packetDeserial block = some pack ∧ pack.data = block.drop packetGeneralOfs

namespace Framing

def Pushes {σ : Type} (part : Loop.Part σ Intake) (s : σ) (block : Block) : Prop :=
  ∃ after, StateTransition.Reaches (part.lift extractStep) s after ∧
    block ∈ (part.get after).readQ.blocks.drop (part.get s).readQ.blocks.length

/-- The loop comes to no header whose length field makes the packet size wrap. -/
def NoWrappedSize (acc : Block) : Prop :=
  ∀ rest, PacketStart acc rest → packetGeneralOfs ≤ rest.length →
    packetGeneralOfs + Bytes.field 53 8 rest < sizeBound

section Cut

variable {acc pkt left : Block}

theorem length_of_cut (cut : splitPacket acc = some (pkt, left)) :
    pkt.length = (packetGeneralOfs + Bytes.field 53 8 acc) % sizeBound := by
  obtain ⟨_, room, rfl, _⟩ := splitPacket_eq_some cut
  exact List.length_take_of_le room

theorem append_of_cut (cut : splitPacket acc = some (pkt, left)) : pkt ++ left = acc := by
  obtain ⟨_, _, rfl, rfl⟩ := splitPacket_eq_some cut
  exact List.take_append_drop _ acc

theorem field_of_cut (cut : splitPacket acc = some (pkt, left)) (header : packetGeneralOfs ≤ pkt.length) :
    Bytes.field 53 8 pkt = Bytes.field 53 8 acc := by
  have room : 53 + 8 ≤ pkt.length := header
  rw [← append_of_cut cut, Bytes.field_append left room]

/-- A block cut off decodes exactly when the size it was cut by has not wrapped. -/
theorem decodes_iff (cut : splitPacket acc = some (pkt, left)) :
    Decodes pkt ↔ packetGeneralOfs + Bytes.field 53 8 acc < sizeBound := by
  have length := length_of_cut cut
  have field : Bytes.field 53 8 acc < sizeBound := Bytes.field_lt 53 8 acc
  have bound : pkt.length < sizeBound := length ▸ Nat.mod_lt _ (by decide)
  constructor
  · rintro ⟨pack, accepted, _⟩
    have header := (Codec.deserial_eq_some bound accepted).1
    simp only [sizeBound, packetGeneralOfs] at *
    omega
  · intro room
    rw [Nat.mod_eq_of_lt room] at length
    have header : packetGeneralOfs ≤ pkt.length := by omega
    have same : Bytes.field 53 8 pkt = pkt.length - packetGeneralOfs := by
      rw [field_of_cut cut header]
      omega
    obtain ⟨pack, accepted⟩ :=
      Option.isSome_iff_exists.mp ((Codec.isSome_deserial_iff bound).mpr ⟨header, same⟩)
    exact ⟨pack, accepted, Codec.data_of_deserial bound accepted⟩

end Cut

theorem pushed_of_reaches {start after : Intake} (reached : StateTransition.Reaches extractStep start after) :
    PacketStart start.acc after.acc ∧ ∃ pkts, after.readQ.blocks = start.readQ.blocks ++ pkts ∧
      ∀ pkt ∈ pkts, ∃ rest left, PacketStart start.acc rest ∧ splitPacket rest = some (pkt, left) := by
  induction reached with
  | refl => exact ⟨.first, [], by simp, by simp⟩
  | @tail before after _ body ih =>
    obtain ⟨at_packet, pkts, grown, cuts⟩ := ih
    obtain ⟨⟨pkt, left⟩, cut, rfl⟩ := Option.map_eq_some_iff.mp (Option.mem_def.mp body)
    obtain ⟨header, room, _, rest⟩ := splitPacket_eq_some cut
    refine ⟨?_, pkts ++ [pkt], by simp [grown], ?_⟩
    · show PacketStart start.acc left
      rw [rest]
      exact .next at_packet header room
    · intro other member
      rcases List.mem_append.mp member with earlier | last
      · exact cuts other earlier
      · rw [List.mem_singleton.mp last]
        exact ⟨before.acc, left, at_packet, cut⟩

theorem reaches_of_packetStart {start : Intake} {rest : Block} (at_packet : PacketStart start.acc rest) :
    ∃ after, StateTransition.Reaches extractStep start after ∧ after.acc = rest := by
  induction at_packet with
  | first => exact ⟨start, .refl, rfl⟩
  | next _ header room ih =>
    obtain ⟨before, reached, rfl⟩ := ih
    refine ⟨_, reached.tail (Option.map_eq_some_iff.mpr ⟨_, splitPacket_of_room header room, rfl⟩), rfl⟩

theorem pushes_iff {σ : Type} (part : Loop.Part σ Intake) (s : σ) (block : Block) :
    Pushes part s block ↔
      ∃ rest left, PacketStart (part.get s).acc rest ∧ splitPacket rest = some (block, left) := by
  constructor
  · rintro ⟨after, reached, member⟩
    obtain ⟨inner, walk, rfl⟩ := (part.reaches_lift extractStep).mp reached
    obtain ⟨_, pkts, grown, cuts⟩ := pushed_of_reaches walk
    rw [part.get_put, grown, List.drop_left] at member
    exact cuts block member
  · rintro ⟨rest, left, at_packet, cut⟩
    obtain ⟨before, reached, rfl⟩ := reaches_of_packetStart at_packet
    obtain ⟨_, pkts, grown, _⟩ := pushed_of_reaches reached
    let after : Intake := ⟨left, pushBlock before.readQ block, before.tasks + 1⟩
    have body : extractStep before = some after := by simp [extractStep, cut, after]
    refine ⟨part.put s after, (part.reaches_lift extractStep).mpr ⟨after, reached.tail body, rfl⟩, ?_⟩
    rw [part.get_put]
    simp [after, grown]

theorem decode_iff_noWrappedSize {σ : Type} (part : Loop.Part σ Intake) (s : σ) :
    (∀ block, Pushes part s block → Decodes block) ↔ NoWrappedSize (part.get s).acc := by
  constructor
  · intro decode rest at_packet header
    by_contra wraps
    -- A wrapped size is below the header's, which is there, so the block is cut off.
    have field : Bytes.field 53 8 rest < sizeBound := Bytes.field_lt 53 8 rest
    have room : (packetGeneralOfs + Bytes.field 53 8 rest) % sizeBound ≤ rest.length := by
      simp only [sizeBound, packetGeneralOfs] at *
      omega
    have cut := splitPacket_of_room header room
    have decodes := decode _ ((pushes_iff part s _).mpr ⟨rest, _, at_packet, cut⟩)
    exact wraps ((decodes_iff cut).mp decodes)
  · intro fits block pushed
    obtain ⟨rest, left, at_packet, cut⟩ := (pushes_iff part s block).mp pushed
    exact (decodes_iff cut).mpr (fits rest at_packet (splitPacket_eq_some cut).1)

/-- Every block that run_server or run_client pushes from an accumulator is
accepted by `packet_deserial`, its payload being the bytes after the header,
exactly when the loop comes to no header whose packet size wraps. -/
theorem extracted_decode_iff (cli : Client) (md : ClientLoop) :
    ((∀ block, Pushes Client.intakePart cli block → Decodes block) ↔ NoWrappedSize cli.acc) ∧
      ((∀ block, Pushes ClientLoop.intakePart md block → Decodes block) ↔ NoWrappedSize md.acc) :=
  ⟨decode_iff_noWrappedSize Client.intakePart cli, decode_iff_noWrappedSize ClientLoop.intakePart md⟩

def wrappedHeader : Block := List.replicate 53 0 ++ Bytes.little 8 (sizeBound - 1)

/-- Both ends push the first 60 bytes of a header as a packet, and they do not
decode. -/
theorem wrapped_header_not_decoded :
    (∃ block, Pushes Client.intakePart { acceptClient 5 "127.0.0.1" 40000 with acc := wrappedHeader } block ∧
      ¬Decodes block) ∧
    ∃ block, Pushes ClientLoop.intakePart ⟨queueInit, queueInit, 0, wrappedHeader, 0⟩ block ∧
      ¬Decodes block := by
  have cut : splitPacket wrappedHeader = some (wrappedHeader.take 60, wrappedHeader.drop 60) := by decide
  have undecoded : ¬Decodes (wrappedHeader.take 60) := by
    rw [decodes_iff cut]
    decide
  exact ⟨⟨_, (pushes_iff _ _ _).mpr ⟨_, _, .first, cut⟩, undecoded⟩,
    _, (pushes_iff _ _ _).mpr ⟨_, _, .first, cut⟩, undecoded⟩

end Framing

end Dcn
