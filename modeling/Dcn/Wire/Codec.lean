import Dcn.Wire.Packet

/-! The packet codec (general.c): which blocks `packet_deserial` accepts, and
that it and `packet_serial` undo each other.

Acceptance is decided by a subtraction modulo `2 ^ 64`, so the length field is
compared as a number of 64 bits and not as the number of bytes that follow.
-/

set_option autoImplicit false

namespace Dcn

namespace Codec

/-- The subtraction of `packet_deserial` wraps only where the comparison fails. -/
theorem wrapped_sub_eq {size dataSize : Nat} (bound : size < sizeBound) (field : dataSize < sizeBound)
    (header : packetGeneralOfs ≤ size) :
    (size + (sizeBound - dataSize)) % sizeBound = packetGeneralOfs ↔ dataSize = size - packetGeneralOfs := by
  simp only [sizeBound, packetGeneralOfs] at *
  omega

section Accepted

variable {b : Block} {pack : Packet}

theorem deserial_eq_some (bound : b.length < sizeBound) (accepted : packetDeserial b = some pack) :
    packetGeneralOfs ≤ b.length ∧ Bytes.field 53 8 b = b.length - packetGeneralOfs ∧
      pack = {
        fromUid := .ofNat (Bytes.field 0 8 b)
        toUid := .ofNat (Bytes.field 8 8 b)
        travFuid := .ofNat (Bytes.field 16 8 b)
        travTuid := .ofNat (Bytes.field 24 8 b)
        muid := .ofNat (Bytes.field 32 8 b)
        cmuid := .ofNat (Bytes.field 40 8 b)
        packtype := .ofNat (Bytes.field 48 4 b)
        fromOs := .ofNat (Bytes.field 52 1 b)
        data := b.drop packetGeneralOfs } := by
  unfold packetDeserial at accepted
  split at accepted
  · cases accepted
  · next header =>
    have header : packetGeneralOfs ≤ b.length := Nat.le_of_not_lt header
    dsimp only at accepted
    split at accepted
    · cases accepted
    · next size =>
      have length := (wrapped_sub_eq bound (Bytes.field_lt 53 8 b) header).mp (Decidable.not_not.mp size)
      have whole : (b.drop packetGeneralOfs).take (Bytes.field 53 8 b) = b.drop packetGeneralOfs := by
        rw [length]
        exact List.take_of_length_le (by rw [List.length_drop])
      rw [whole, Option.some.injEq] at accepted
      exact ⟨header, length, accepted.symm⟩

/-- A block is accepted exactly when it has a header whose length field tells
how many bytes follow. -/
theorem isSome_deserial_iff (bound : b.length < sizeBound) :
    (packetDeserial b).isSome ↔
      packetGeneralOfs ≤ b.length ∧ Bytes.field 53 8 b = b.length - packetGeneralOfs := by
  constructor
  · intro accepted
    obtain ⟨pack, decoded⟩ := Option.isSome_iff_exists.mp accepted
    obtain ⟨header, length, _⟩ := deserial_eq_some bound decoded
    exact ⟨header, length⟩
  · rintro ⟨header, length⟩
    have size := (wrapped_sub_eq bound (Bytes.field_lt 53 8 b) header).mpr length
    unfold packetDeserial
    rw [if_neg (Nat.not_lt.mpr header)]
    dsimp only
    rw [if_neg (Decidable.not_not.mpr size)]
    rfl

theorem data_of_deserial (bound : b.length < sizeBound) (accepted : packetDeserial b = some pack) :
    pack.data = b.drop packetGeneralOfs := by
  obtain ⟨_, _, rfl⟩ := deserial_eq_some bound accepted
  rfl

theorem fits_of_deserial (bound : b.length < sizeBound) (accepted : packetDeserial b = some pack) :
    pack.Fits := by
  obtain ⟨header, _, rfl⟩ := deserial_eq_some bound accepted
  show packetGeneralOfs + (b.drop packetGeneralOfs).length < sizeBound
  rw [List.length_drop]
  omega

theorem append_drop (offset width : Nat) (bytes : Block) :
    (bytes.drop offset).take width ++ bytes.drop (offset + width) = bytes.drop offset := by
  rw [← List.drop_drop, List.take_append_drop]

theorem serial_deserial (bound : b.length < sizeBound) (accepted : packetDeserial b = some pack) :
    packetSerial pack = b := by
  obtain ⟨header, length, rfl⟩ := deserial_eq_some bound accepted
  have room : 61 ≤ b.length := header
  have eight : ∀ offset, (UInt64.ofNat (Bytes.field offset 8 b)).toNat = Bytes.field offset 8 b :=
    fun offset => Nat.mod_eq_of_lt (Bytes.field_lt offset 8 b)
  have four : (UInt32.ofNat (Bytes.field 48 4 b)).toNat = Bytes.field 48 4 b :=
    Nat.mod_eq_of_lt (Bytes.field_lt 48 4 b)
  have one : (UInt8.ofNat (Bytes.field 52 1 b)).toNat = Bytes.field 52 1 b :=
    Nat.mod_eq_of_lt (Bytes.field_lt 52 1 b)
  have payload : (b.drop packetGeneralOfs).length = Bytes.field 53 8 b := by
    rw [length, List.length_drop]
  -- Each store writes the bytes the field was read from.
  simp only [packetSerial, eight, four, one, payload]
  rw [Bytes.little_field (by omega), Bytes.little_field (by omega), Bytes.little_field (by omega),
    Bytes.little_field (by omega), Bytes.little_field (by omega), Bytes.little_field (by omega),
    Bytes.little_field (by omega), Bytes.little_field (by omega), Bytes.little_field (by omega)]
  simp only [List.append_assoc, packetGeneralOfs]
  rw [append_drop 53 8, append_drop 52 1, append_drop 48 4, append_drop 40 8, append_drop 32 8,
    append_drop 24 8, append_drop 16 8, append_drop 8 8, append_drop 0 8, List.drop_zero]

theorem deserial_eq_some_iff (bound : b.length < sizeBound) :
    packetDeserial b = some pack ↔ pack.Fits ∧ packetSerial pack = b := by
  constructor
  · intro accepted
    exact ⟨fits_of_deserial bound accepted, serial_deserial bound accepted⟩
  · rintro ⟨fits, rfl⟩
    exact fits.deserial_serial

end Accepted

/-- `packet_serial` and `packet_deserial` are inverse to each other between the
packets that fit and the blocks that are accepted, and the accepted blocks are
those whose length field says how many bytes follow the header. -/
theorem codec_bijection :
    (∀ pack : Packet, packetGeneralOfs + pack.data.length < sizeBound →
      packetDeserial (packetSerial pack) = some pack) ∧
    ∀ b : Block, b.length < sizeBound →
      ((packetDeserial b).isSome ↔
        packetGeneralOfs ≤ b.length ∧ Bytes.field 53 8 b = b.length - packetGeneralOfs) ∧
      ∀ pack, packetDeserial b = some pack → packetSerial pack = b := by
  refine ⟨fun pack fits => Packet.Fits.deserial_serial fits, fun b bound => ?_⟩
  exact ⟨isSome_deserial_iff bound, fun pack accepted => serial_deserial bound accepted⟩

theorem codec_bijection_greeting :
    let hello : Packet := ⟨.ping, 1, 7, 9, 11, 13, 18446744073709551615, 17, [104, 105]⟩
    packetDeserial (packetSerial hello) = some hello ∧ (packetSerial hello).length = 63 ∧
      ∀ pack, packetDeserial (packetSerial hello) = some pack → packetSerial pack = packetSerial hello :=
  ⟨codec_bijection.1 _ (by decide), by decide, (codec_bijection.2 _ (by decide)).2⟩

end Codec

end Dcn
