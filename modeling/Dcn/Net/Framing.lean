import Dcn.Net.Connection
import Dcn.Wire.Packet

/-! Packets from the byte stream: the accumulator of run_server and of
run_client and the loop that cuts packets off its front.

The two loops have one body. A packet's size is the header's plus the payload
length read from the accumulator, modulo `2 ^ 64`, so a hostile length can make
it any number, zero included.
-/

set_option autoImplicit false

namespace Dcn

/-- One test and body of the loop as far as the bytes go: the packet cut off
and the accumulator left. None where the loop is left. -/
def splitPacket (acc : Block) : Option (Block × Block) :=
  if acc.length < packetGeneralOfs then none
  else
    let payloadSz := Bytes.field (packetGeneralOfs - 8) 8 acc
    let pktSz := (packetGeneralOfs + payloadSz) % sizeBound
    if acc.length < pktSz then none else some (acc.take pktSz, acc.drop pktSz)

def extractStep (part : Intake) : Option Intake :=
  (splitPacket part.acc).map fun cut =>
    { acc := cut.2, readQ := pushBlock part.readQ cut.1, tasks := part.tasks + 1 }

def Client.intakePart : Loop.Part Client Intake where
  get := Client.intake
  put := Client.setIntake
  get_put := Client.intake_setIntake
  put_get := Client.setIntake_intake
  put_put := Client.setIntake_setIntake

def ClientLoop.intakePart : Loop.Part ClientLoop Intake where
  get := ClientLoop.intake
  put := ClientLoop.setIntake
  get_put := ClientLoop.intake_setIntake
  put_get := ClientLoop.setIntake_intake
  put_put := ClientLoop.setIntake_setIntake

def runServerExtract : Client → Option Client := Client.intakePart.lift extractStep

def runClientExtract : ClientLoop → Option ClientLoop := ClientLoop.intakePart.lift extractStep

def appendAcc (part : Intake) (bytes : Block) : Intake := { part with acc := part.acc ++ bytes }

section Feed

variable {σ : Type} (part : Loop.Part σ Intake) (fuel : Nat)

/-- Append the chunks one after the other, running the extraction loop after
each append. None where a loop needs `fuel` iterations or more. -/
def feed : List Block → σ → Option σ
  | [], s => some s
  | chunk :: rest, s =>
    (Loop.runFuel (part.lift extractStep) fuel (part.put s (appendAcc (part.get s) chunk))).bind (feed rest)

end Feed

def runServerFeed (fuel : Nat) : List Block → Client → Option Client := feed Client.intakePart fuel

def runClientFeed (fuel : Nat) : List Block → ClientLoop → Option ClientLoop :=
  feed ClientLoop.intakePart fuel

namespace Framing

theorem splitPacket_eq_some {acc pkt rest : Block} (cut : splitPacket acc = some (pkt, rest)) :
    packetGeneralOfs ≤ acc.length ∧
      (packetGeneralOfs + Bytes.field 53 8 acc) % sizeBound ≤ acc.length ∧
      pkt = acc.take ((packetGeneralOfs + Bytes.field 53 8 acc) % sizeBound) ∧
      rest = acc.drop ((packetGeneralOfs + Bytes.field 53 8 acc) % sizeBound) := by
  unfold splitPacket at cut
  split at cut
  · cases cut
  · next header =>
    simp only at cut
    split at cut
    · cases cut
    · next room =>
      cases cut
      exact ⟨Nat.le_of_not_lt header, Nat.le_of_not_lt room, rfl, rfl⟩

theorem splitPacket_of_room {acc : Block} (header : packetGeneralOfs ≤ acc.length)
    (room : (packetGeneralOfs + Bytes.field 53 8 acc) % sizeBound ≤ acc.length) :
    splitPacket acc = some (acc.take ((packetGeneralOfs + Bytes.field 53 8 acc) % sizeBound),
      acc.drop ((packetGeneralOfs + Bytes.field 53 8 acc) % sizeBound)) := by
  unfold splitPacket
  rw [if_neg (Nat.not_lt.mpr header)]
  exact if_neg (Nat.not_lt.mpr room)

theorem splitPacket_append {acc pkt rest : Block} (more : Block)
    (cut : splitPacket acc = some (pkt, rest)) :
    splitPacket (acc ++ more) = some (pkt, rest ++ more) := by
  obtain ⟨header, room, rfl, rfl⟩ := splitPacket_eq_some cut
  have same : Bytes.field 53 8 (acc ++ more) = Bytes.field 53 8 acc := Bytes.field_append more header
  rw [splitPacket_of_room (by simp; omega) (by rw [same]; simp; omega), same,
    List.take_append_of_le_length room, List.drop_append_of_le_length room]

theorem splitPacket_none_of_append {acc more : Block} (stuck : splitPacket (acc ++ more) = none) :
    splitPacket acc = none := by
  cases cut : splitPacket acc with
  | none => rfl
  | some pair => rw [splitPacket_append more cut] at stuck; cases stuck

inductive Splits : Block → List Block → Block → Prop where
  | stuck {acc : Block} : splitPacket acc = none → Splits acc [] acc
  | next {acc pkt rest last : Block} {pkts : List Block} :
      splitPacket acc = some (pkt, rest) → Splits rest pkts last → Splits acc (pkt :: pkts) last

theorem Splits.stuck_last {acc last : Block} {pkts : List Block} (splits : Splits acc pkts last) :
    splitPacket last = none := by
  induction splits with
  | stuck stuck => exact stuck
  | next _ _ ih => exact ih

/-- Cutting the whole of a byte string is cutting its first part and then what
that leaves together with the second part. -/
theorem Splits.cut {acc last : Block} {pkts : List Block} (splits : Splits acc pkts last)
    (first second : Block) (parts : acc = first ++ second) :
    ∃ early late middle, pkts = early ++ late ∧ Splits first early middle ∧
      Splits (middle ++ second) late last := by
  induction splits generalizing first with
  | stuck stuck =>
    subst parts
    exact ⟨[], [], first, rfl, .stuck (splitPacket_none_of_append stuck), .stuck stuck⟩
  | @next acc pkt rest last pkts cut tail ih =>
    subst parts
    -- A packet that is whole in the first part is the one cut off the whole string.
    cases own : splitPacket first with
    | none => exact ⟨[], pkt :: pkts, first, rfl, .stuck own, .next cut tail⟩
    | some pair =>
      obtain ⟨own_pkt, remaining⟩ := pair
      have whole := splitPacket_append second own
      rw [cut] at whole
      cases whole
      obtain ⟨early, late, middle, rfl, before, after⟩ := ih remaining rfl
      exact ⟨pkt :: early, late, middle, rfl, .next own before, after⟩

theorem Splits.runFuel {acc last : Block} {pkts : List Block} (splits : Splits acc pkts last)
    (fuel : Nat) (enough : pkts.length < fuel) (readQ : Queue) (tasks : Nat) :
    Loop.runFuel extractStep fuel ⟨acc, readQ, tasks⟩ =
      some ⟨last, ⟨readQ.blocks ++ pkts⟩, tasks + pkts.length⟩ := by
  induction splits generalizing fuel readQ tasks with
  | stuck stuck =>
    cases fuel with
    | zero => cases enough
    | succ fuel =>
      rw [Loop.runFuel_exit (by simp [extractStep, stuck])]
      simp
  | @next acc pkt rest last pkts cut tail ih =>
    cases fuel with
    | zero => cases enough
    | succ fuel =>
      have body : extractStep ⟨acc, readQ, tasks⟩ = some ⟨rest, pushBlock readQ pkt, tasks + 1⟩ := by
        simp [extractStep, cut]
      rw [Loop.runFuel_next body, ih fuel (by simpa using enough)]
      simp [Nat.add_assoc, Nat.add_comm 1]

theorem Splits.feed {σ : Type} (part : Loop.Part σ Intake) (chunks : List Block)
    {acc last : Block} {pkts : List Block} (settled : splitPacket acc = none)
    (splits : Splits (acc ++ chunks.flatten) pkts last) (fuel : Nat) (enough : pkts.length < fuel)
    (s : σ) (start : (part.get s).acc = acc) :
    Dcn.feed part fuel chunks s = some (part.put s
      ⟨last, ⟨(part.get s).readQ.blocks ++ pkts⟩, (part.get s).tasks + pkts.length⟩) := by
  induction chunks generalizing acc pkts s with
  | nil =>
    rw [List.flatten_nil, List.append_nil] at splits
    cases splits with
    | next cut _ => rw [settled] at cut; cases cut
    | stuck _ =>
      subst start
      simp [Dcn.feed, part.put_get]
  | cons chunk rest ih =>
    rw [List.flatten_cons, ← List.append_assoc] at splits
    -- What this chunk completes is cut off now, the rest with the later chunks.
    obtain ⟨early, late, middle, rfl, before, after⟩ := splits.cut _ _ rfl
    rw [List.length_append] at enough
    have loop := before.runFuel fuel (by omega) (part.get s).readQ (part.get s).tasks
    have inner : appendAcc (part.get s) chunk = ⟨acc ++ chunk, (part.get s).readQ, (part.get s).tasks⟩ := by
      rw [appendAcc, start]
    rw [Dcn.feed, part.runFuel_lift, part.get_put, inner, loop, Option.map_some, Option.bind_some,
      ih before.stuck_last after (by omega) _ (by rw [part.get_put]), part.get_put]
    simp [part.put_put, Nat.add_assoc]

section Serialised

variable {pack : Packet}

theorem splitPacket_serial (fits : pack.Fits) (rest : Block) :
    splitPacket (packetSerial pack ++ rest) = some (packetSerial pack, rest) := by
  have length := length_packetSerial pack
  have header : packetGeneralOfs ≤ (packetSerial pack).length := by omega
  have same : Bytes.field 53 8 (packetSerial pack ++ rest) = Bytes.field 53 8 (packetSerial pack) :=
    Bytes.field_append rest header
  have size : (packetGeneralOfs + Bytes.field 53 8 (packetSerial pack ++ rest)) % sizeBound =
      (packetSerial pack).length := by
    rw [same, fits.field_dsize, length]
    exact Nat.mod_eq_of_lt fits
  rw [splitPacket_of_room (by simp; omega) (by rw [size]; simp), size, List.take_left, List.drop_left]

theorem splitPacket_of_proper (fits : pack.Fits) {tail : Block} (initial : tail <+: packetSerial pack)
    (proper : tail ≠ packetSerial pack) : splitPacket tail = none := by
  cases cut : splitPacket tail with
  | none => rfl
  | some pair =>
    obtain ⟨missing, whole⟩ := initial
    -- What is cut off a part is cut off the whole, where it leaves nothing.
    have stable := splitPacket_append missing cut
    have serial := splitPacket_serial fits []
    rw [List.append_nil, ← whole, stable] at serial
    have nothing := (List.append_eq_nil_iff.mp (congrArg Prod.snd (Option.some.inj serial))).2
    exact absurd (by rw [← whole, nothing, List.append_nil]) proper

theorem splits_serial (packets : List Packet) (fits : ∀ pack ∈ packets, pack.Fits) {tail : Block}
    (stuck : splitPacket tail = none) :
    Splits ((packets.map packetSerial).flatten ++ tail) (packets.map packetSerial) tail := by
  induction packets with
  | nil => exact .stuck stuck
  | cons pack rest ih =>
    have first := fits pack List.mem_cons_self
    have others := ih fun other member => fits other (List.mem_cons_of_mem pack member)
    rw [List.map_cons, List.flatten_cons, List.append_assoc]
    exact .next (splitPacket_serial first _) others

end Serialised

/-- However the stream of some packets and an incomplete one is cut into reads,
both ends push exactly the complete packets and keep the incomplete one. -/
theorem feed_segmented (packets : List Packet) (incomplete : Packet) (tail : Block) (chunks : List Block)
    (fits : ∀ pack ∈ packets, pack.Fits) (lastFits : incomplete.Fits)
    (initial : tail <+: packetSerial incomplete) (proper : tail ≠ packetSerial incomplete)
    (stream : chunks.flatten = (packets.map packetSerial).flatten ++ tail)
    (fuel : Nat) (enough : packets.length < fuel) (cli : Client) (md : ClientLoop)
    (serverStart : cli.acc = []) (clientStart : md.acc = []) :
    runServerFeed fuel chunks cli = some { cli with
      acc := tail
      readQ := ⟨cli.readQ.blocks ++ packets.map packetSerial⟩
      tasks := cli.tasks + packets.length } ∧
    runClientFeed fuel chunks md = some { md with
      acc := tail
      qread := ⟨md.qread.blocks ++ packets.map packetSerial⟩
      tasks := md.tasks + packets.length } := by
  have splits := splits_serial packets fits (splitPacket_of_proper lastFits initial proper)
  rw [← stream, ← List.nil_append chunks.flatten] at splits
  have room : (packets.map packetSerial).length < fuel := by simpa using enough
  have empty : splitPacket [] = none := by decide
  have server := splits.feed Client.intakePart chunks empty fuel room cli serverStart
  have client := splits.feed ClientLoop.intakePart chunks empty fuel room md clientStart
  rw [List.length_map] at server client
  exact ⟨server, client⟩

theorem feed_segmented_two :
    let hello := packetInit [104, 105] 7 9 1
    let chunks := [(packetSerial hello).take 55, (packetSerial hello).drop 55 ++ packetSerial hello ++ [7, 0]]
    runServerFeed 3 chunks (acceptClient 5 "127.0.0.1" 40000) = some { acceptClient 5 "127.0.0.1" 40000 with
      acc := [7, 0], readQ := ⟨[packetSerial hello, packetSerial hello]⟩, tasks := 2 } :=
  (feed_segmented [packetInit [104, 105] 7 9 1, packetInit [104, 105] 7 9 1] (packetInit [] 7 9 1) [7, 0] _
    (by decide) (by decide) (by decide) (by decide) (by decide) 3 (by decide)
    (acceptClient 5 "127.0.0.1" 40000) ⟨queueInit, queueInit, 0, [], 0⟩ rfl rfl).1

section Termination

def shrinkAcc (acc : Block) : Option Block := (splitPacket acc).map Prod.snd

def packetSize (bytes : Block) : Nat := (packetGeneralOfs + Bytes.field 53 8 bytes) % sizeBound

/-- The rest of an accumulator from a point on at which a packet starts, each
packet having the size its header gives. -/
inductive PacketStart (acc : Block) : Block → Prop where
  | first : PacketStart acc acc
  | next {rest : Block} : PacketStart acc rest → packetGeneralOfs ≤ rest.length →
      packetSize rest ≤ rest.length → PacketStart acc (rest.drop (packetSize rest))

/-- No packet in the accumulator has a header whose payload length makes its
size wrap to zero. -/
def NoEmptyPacket (acc : Block) : Prop :=
  ∀ rest, PacketStart acc rest → packetGeneralOfs ≤ rest.length →
    Bytes.field 53 8 rest ≠ sizeBound - packetGeneralOfs

theorem packetSize_eq_zero {bytes : Block} :
    packetSize bytes = 0 ↔ Bytes.field 53 8 bytes = sizeBound - packetGeneralOfs := by
  have bound : Bytes.field 53 8 bytes < sizeBound := Bytes.field_lt 53 8 bytes
  simp only [packetSize, sizeBound, packetGeneralOfs] at bound ⊢
  omega

theorem shrinkAcc_eq_some {acc rest : Block} :
    shrinkAcc acc = some rest ↔
      packetGeneralOfs ≤ acc.length ∧ packetSize acc ≤ acc.length ∧ rest = acc.drop (packetSize acc) := by
  refine ⟨fun body => ?_, fun ⟨header, room, same⟩ => ?_⟩
  · obtain ⟨⟨pkt, left⟩, cut, rfl⟩ := Option.map_eq_some_iff.mp body
    obtain ⟨header, room, _, same⟩ := splitPacket_eq_some cut
    exact ⟨header, room, same⟩
  · rw [shrinkAcc, splitPacket_of_room header room, same]
    rfl

theorem shrinkAcc_shrinks {acc rest : Block} (body : shrinkAcc acc = some rest) :
    rest.length < acc.length ∨ rest = acc := by
  obtain ⟨header, room, rfl⟩ := shrinkAcc_eq_some.mp body
  rcases Nat.eq_zero_or_pos (packetSize acc) with zero | positive
  · exact .inr (by rw [zero, List.drop_zero])
  · exact .inl (by simp only [List.length_drop, packetGeneralOfs] at header ⊢; omega)

theorem shrinkAcc_stalls {acc : Block} :
    shrinkAcc acc = some acc ↔
      packetGeneralOfs ≤ acc.length ∧ Bytes.field 53 8 acc = sizeBound - packetGeneralOfs := by
  rw [shrinkAcc_eq_some, ← packetSize_eq_zero]
  refine ⟨fun ⟨header, room, same⟩ => ⟨header, ?_⟩, fun ⟨header, zero⟩ => ⟨header, ?_, ?_⟩⟩
  · -- The drop leaves the accumulator as it was only where it drops nothing.
    have length := congrArg List.length same
    simp only [List.length_drop, packetGeneralOfs] at length header
    omega
  · omega
  · rw [zero, List.drop_zero]

theorem packetStart_iff {acc rest : Block} :
    PacketStart acc rest ↔ StateTransition.Reaches shrinkAcc acc rest := by
  refine ⟨fun start => ?_, fun reached => ?_⟩
  · induction start with
    | first => exact .refl
    | next _ header room ih => exact .tail ih (shrinkAcc_eq_some.mpr ⟨header, room, rfl⟩)
  · induction reached with
    | refl => exact .first
    | tail _ body ih =>
      obtain ⟨header, room, rfl⟩ := shrinkAcc_eq_some.mp body
      exact .next ih header room

theorem halts_shrinkAcc {acc : Block} : Loop.Halts shrinkAcc acc ↔ NoEmptyPacket acc := by
  rw [Loop.halts_iff_no_stall List.length fun _ _ => shrinkAcc_shrinks]
  refine ⟨fun moving rest start header stall => ?_, fun absent rest reached stall => ?_⟩
  · exact moving rest (packetStart_iff.mp start) (shrinkAcc_stalls.mpr ⟨header, stall⟩)
  · obtain ⟨header, wraps⟩ := shrinkAcc_stalls.mp stall
    exact absent rest (packetStart_iff.mpr reached) header wraps

theorem halts_extractStep {part : Intake} : Loop.Halts extractStep part ↔ NoEmptyPacket part.acc := by
  rw [← halts_shrinkAcc]
  apply Loop.halts_iff_of_projection Intake.acc
  intro part
  simp only [extractStep, shrinkAcc, Option.map_map]
  rfl

def EveryCutShrinks (acc : Block) : Prop :=
  ∀ rest pkt left, PacketStart acc rest → splitPacket rest = some (pkt, left) → left.length < rest.length

theorem everyCutShrinks_iff {acc : Block} : EveryCutShrinks acc ↔ NoEmptyPacket acc := by
  refine ⟨fun shrinks rest start header wraps => ?_, fun absent rest pkt left start cut => ?_⟩
  · have stall := shrinkAcc_stalls.mpr ⟨header, wraps⟩
    obtain ⟨⟨pkt, left⟩, cut, same⟩ := Option.map_eq_some_iff.mp stall
    have less := shrinks rest pkt left start cut
    rw [show left = rest from same] at less
    exact absurd less (Nat.lt_irrefl _)
  · have body : shrinkAcc rest = some left := by rw [shrinkAcc, cut]; rfl
    rcases shrinkAcc_shrinks body with less | same
    · exact less
    · obtain ⟨header, wraps⟩ := shrinkAcc_stalls.mp (same ▸ body)
      exact absurd wraps (absent rest start header)

/-- The loops of both ends stop, and every iteration removes a byte, exactly
when no header in the accumulator carries the payload length `2 ^ 64 - 61`. -/
theorem extraction_halts_iff (cli : Client) (md : ClientLoop) (acc : Block) :
    (Loop.Halts runServerExtract cli ↔ NoEmptyPacket cli.acc) ∧
      (Loop.Halts runClientExtract md ↔ NoEmptyPacket md.acc) ∧
      (EveryCutShrinks acc ↔ NoEmptyPacket acc) :=
  ⟨(Client.intakePart.halts_lift extractStep cli).trans halts_extractStep,
    (ClientLoop.intakePart.halts_lift extractStep md).trans halts_extractStep, everyCutShrinks_iff⟩

def emptyPacketHeader : Block := List.replicate 53 0 ++ Bytes.little 8 (sizeBound - packetGeneralOfs)

theorem extraction_diverges :
    ¬ Loop.Halts runServerExtract { acceptClient 5 "127.0.0.1" 40000 with acc := emptyPacketHeader } ∧
      ¬ Loop.Halts runClientExtract ⟨queueInit, queueInit, 0, emptyPacketHeader, 0⟩ := by
  have wraps : ¬ NoEmptyPacket emptyPacketHeader := fun absent => absent _ .first (by decide) (by decide)
  refine ⟨fun halts => wraps ?_, fun halts => wraps ?_⟩
  · exact halts_extractStep.mp ((Client.intakePart.halts_lift extractStep _).mp halts)
  · exact halts_extractStep.mp ((ClientLoop.intakePart.halts_lift extractStep _).mp halts)

end Termination

end Framing

end Dcn
