import Dcn.Foundation.Bytes
import Dcn.Memory.Queue

/-! Packets and their serial form (general.c).

The header is six 64-bit numbers, the 32-bit packet type, the byte of `from_os`
and the 64-bit payload length, 61 bytes in all; the payload follows. Numbers
are little-endian and `size_t` arithmetic is modulo `2 ^ 64`. The packet type
and the flag are kept as the bytes that `memcpy` moves, since a peer may send
values outside the enumeration.
-/

set_option autoImplicit false

namespace Dcn

/-- PACKET_TYPE, as the four bytes it is stored in. -/
abbrev PacketType := UInt32

namespace PacketType

def request : PacketType := 0
def response : PacketType := 1
def signal : PacketType := 2
def broadcast : PacketType := 3
def sigBroadcast : PacketType := 4
def traceroute : PacketType := 5
def ping : PacketType := 6

end PacketType

structure Packet where
  packtype : PacketType
  fromOs : UInt8
  fromUid : UInt64
  toUid : UInt64
  travFuid : UInt64
  travTuid : UInt64
  muid : UInt64
  cmuid : UInt64
  data : Block
  deriving DecidableEq, Repr

abbrev sizeBound : Nat := 2 ^ 64

def packetGeneralOfs : Nat := 8 * 6 + 8 + 4 + 1

def packetSerial (pack : Packet) : Block :=
  Bytes.little 8 pack.fromUid.toNat ++ Bytes.little 8 pack.toUid.toNat ++
  Bytes.little 8 pack.travFuid.toNat ++ Bytes.little 8 pack.travTuid.toNat ++
  Bytes.little 8 pack.muid.toNat ++ Bytes.little 8 pack.cmuid.toNat ++
  Bytes.little 4 pack.packtype.toNat ++ Bytes.little 1 pack.fromOs.toNat ++
  Bytes.little 8 pack.data.length ++ pack.data

def packetDeserial (data : Block) : Option Packet :=
  if data.length < packetGeneralOfs then none
  else
    let dataSize := Bytes.field 53 8 data
    if (data.length + (sizeBound - dataSize)) % sizeBound ≠ packetGeneralOfs then none
    else some {
      fromUid := .ofNat (Bytes.field 0 8 data)
      toUid := .ofNat (Bytes.field 8 8 data)
      travFuid := .ofNat (Bytes.field 16 8 data)
      travTuid := .ofNat (Bytes.field 24 8 data)
      muid := .ofNat (Bytes.field 32 8 data)
      cmuid := .ofNat (Bytes.field 40 8 data)
      packtype := .ofNat (Bytes.field 48 4 data)
      fromOs := .ofNat (Bytes.field 52 1 data)
      data := (data.drop packetGeneralOfs).take dataSize }

/-- What `packet_init` leaves; no data pointer is the empty payload. -/
def packetInit (data : Block) (fromUid toUid muid : UInt64) : Packet where
  data := data
  fromUid := fromUid
  toUid := toUid
  muid := muid
  fromOs := 0
  packtype := .request
  cmuid := 0
  travFuid := 0
  travTuid := 0

def packetFill (pack : Packet) (data : Block) : Packet := { pack with data := data }

def copyPacket (src : Packet) : Packet where
  fromUid := src.fromUid
  toUid := src.toUid
  muid := src.muid
  packtype := src.packtype
  fromOs := src.fromOs
  cmuid := src.cmuid
  travFuid := src.travFuid
  travTuid := src.travTuid
  data := src.data

@[simp] theorem copyPacket_eq (src : Packet) : copyPacket src = src := rfl

/-- The bytes of a C int; the codes the server answers with are positive. -/
def intBytes (n : Nat) : Block := Bytes.little 4 n

@[simp] theorem length_intBytes (n : Nat) : (intBytes n).length = 4 := Bytes.length_little 4 n

structure TrpData where
  isResponse : UInt8
  success : UInt8
  reqUid : UInt64
  deriving DecidableEq, Repr

/-- The size of struct trp_data: the number is aligned to eight bytes. -/
def trpOffset : Nat := 16

def trpDataDeserial (data : Block) : Option TrpData :=
  if data.length ≠ trpOffset then none
  else some ⟨.ofNat (Bytes.field 0 1 data), .ofNat (Bytes.field 1 1 data), .ofNat (Bytes.field 8 8 data)⟩

def Packet.Fits (pack : Packet) : Prop := packetGeneralOfs + pack.data.length < sizeBound

instance (pack : Packet) : Decidable pack.Fits := inferInstanceAs (Decidable (_ < _))

structure SizedPacket where
  pack : Packet
  fits : pack.Fits

theorem length_packetSerial (pack : Packet) :
    (packetSerial pack).length = packetGeneralOfs + pack.data.length := by
  simp only [packetSerial, packetGeneralOfs, List.length_append, Bytes.length_little]

namespace Packet

variable (pack : Packet)

/-- The stores of `packet_serial` in order, one piece each. -/
def pieces : List Block :=
  [Bytes.little 8 pack.fromUid.toNat, Bytes.little 8 pack.toUid.toNat,
   Bytes.little 8 pack.travFuid.toNat, Bytes.little 8 pack.travTuid.toNat,
   Bytes.little 8 pack.muid.toNat, Bytes.little 8 pack.cmuid.toNat,
   Bytes.little 4 pack.packtype.toNat, Bytes.little 1 pack.fromOs.toNat,
   Bytes.little 8 pack.data.length, pack.data]

theorem packetSerial_eq_flatten : packetSerial pack = pack.pieces.flatten := by
  simp [packetSerial, pieces]

theorem field_serial {offset width n : Nat} (inx : Nat)
    (piece : pack.pieces[inx]? = some (Bytes.little width n))
    (place : ((pack.pieces.take inx).map List.length).sum = offset) :
    Bytes.field offset width (packetSerial pack) = n % 256 ^ width := by
  rw [packetSerial_eq_flatten]
  exact Bytes.field_flatten inx piece place

theorem field_fromUid : Bytes.field 0 8 (packetSerial pack) = pack.fromUid.toNat % 256 ^ 8 :=
  pack.field_serial 0 rfl rfl

theorem field_toUid : Bytes.field 8 8 (packetSerial pack) = pack.toUid.toNat % 256 ^ 8 :=
  pack.field_serial 1 rfl (by simp [pieces])

theorem field_travFuid : Bytes.field 16 8 (packetSerial pack) = pack.travFuid.toNat % 256 ^ 8 :=
  pack.field_serial 2 rfl (by simp [pieces])

theorem field_travTuid : Bytes.field 24 8 (packetSerial pack) = pack.travTuid.toNat % 256 ^ 8 :=
  pack.field_serial 3 rfl (by simp [pieces])

theorem field_muid : Bytes.field 32 8 (packetSerial pack) = pack.muid.toNat % 256 ^ 8 :=
  pack.field_serial 4 rfl (by simp [pieces])

theorem field_cmuid : Bytes.field 40 8 (packetSerial pack) = pack.cmuid.toNat % 256 ^ 8 :=
  pack.field_serial 5 rfl (by simp [pieces])

theorem field_packtype : Bytes.field 48 4 (packetSerial pack) = pack.packtype.toNat % 256 ^ 4 :=
  pack.field_serial 6 rfl (by simp [pieces])

theorem field_fromOs : Bytes.field 52 1 (packetSerial pack) = pack.fromOs.toNat % 256 ^ 1 :=
  pack.field_serial 7 rfl (by simp [pieces])

theorem field_dsize : Bytes.field 53 8 (packetSerial pack) = pack.data.length % 256 ^ 8 :=
  pack.field_serial 8 rfl (by simp [pieces])

theorem drop_header : (packetSerial pack).drop packetGeneralOfs = pack.data := by
  have split : packetSerial pack = (pack.pieces.take 9).flatten ++ pack.data := by
    simp [packetSerial, pieces]
  have length : (pack.pieces.take 9).flatten.length = packetGeneralOfs := by
    simp [pieces, packetGeneralOfs]
  rw [split, ← length, List.drop_left]

variable {pack}

theorem Fits.field_dsize (fits : pack.Fits) : Bytes.field 53 8 (packetSerial pack) = pack.data.length := by
  rw [pack.field_dsize, Nat.mod_eq_of_lt]
  have bound : packetGeneralOfs + pack.data.length < 256 ^ 8 := fits
  omega

theorem Fits.deserial_serial (fits : pack.Fits) : packetDeserial (packetSerial pack) = some pack := by
  have bound : packetGeneralOfs + pack.data.length < sizeBound := fits
  have size : (packetSerial pack).length + (sizeBound - pack.data.length) = packetGeneralOfs + sizeBound := by
    rw [length_packetSerial]
    omega
  unfold packetDeserial
  rw [if_neg (by rw [length_packetSerial]; omega)]
  simp only [fits.field_dsize, size, Nat.add_mod_right]
  rw [if_neg (by decide)]
  simp only [field_fromUid, field_toUid, field_travFuid, field_travTuid, field_muid, field_cmuid,
    field_packtype, field_fromOs, drop_header, Bytes.ofNat_value_little_eight,
    Bytes.ofNat_value_little_four, Bytes.ofNat_value_little_one, List.take_length]

end Packet

end Dcn
