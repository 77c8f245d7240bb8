import Dcn.Foundation.Runs
import Dcn.Net.Framing

/-! Reading from a connection until it is closed: nbep_read with the EPOLLIN
branch of run_server, and cfull_read with the POLLIN branch of run_client.

A readiness event starts a pass. A pass reads until its function returns, and
what it read is then appended to the accumulator at once; the return value alone
decides whether the connection is stopped instead. Each read is a step of its
own, and so is each iteration of the extraction loop. Allocation succeeds.
-/

set_option autoImplicit false

namespace Dcn

def maxBufferSize : Nat := 1024

structure Chunk where
  bytes : Block
  nonempty : bytes ≠ []
  fits : bytes.length ≤ maxBufferSize

inductive ReadResult where
  | bytes (chunk : Chunk)
  | again
  | eof
  | failed

def ReadResult.taken : ReadResult → Block
  | .bytes chunk => chunk.bytes
  | .again | .eof | .failed => []

/-- What nbep_read returns after a read; none where it reads on. -/
def nbepRead : ReadResult → Option Int
  | .bytes _ => none
  | .eof => some (-4)
  | .again => some 0
  | .failed => some (-3)

def cfullRead : ReadResult → Option Int
  | .again => some 1
  | .failed => some (-1)
  | .eof => some 2
  | .bytes chunk => if chunk.bytes.length = maxBufferSize then none else some 0

/-- A reading end: its function, and the return values on which the connection
is stopped. It is not stopped for bytes. -/
structure Receiver where
  fullRead : ReadResult → Option Int
  stops : Int → Bool
  bytes_go_on : ∀ chunk ret, fullRead (.bytes chunk) = some ret → stops ret = false

def runServerReceiver : Receiver where
  fullRead := nbepRead
  stops := fun ret => ret = -3 ∨ ret = -4
  bytes_go_on := fun _ _ returned => by cases returned

def runClientReceiver : Receiver where
  fullRead := cfullRead
  stops := fun ret => ret = 2
  bytes_go_on := by
    intro chunk ret returned
    simp only [cfullRead] at returned
    split at returned
    · cases returned
    · cases returned
      rfl

inductive ReceptionPc where
  | waiting
  | reading
  | extracting
  | stopped
  deriving DecidableEq, Repr

/-- A connection that is read from: the output buffer of the pass and the intake;
then all that was read, appended and pushed. -/
structure Reception where
  pc : ReceptionPc
  pass : Block
  intake : Intake
  read : Block
  appended : Block
  pushed : List Block
  deriving DecidableEq, Repr

/-- The connection is reported readable, a read returns, the extraction loop
takes its next turn, or a handler pops. -/
inductive ReceptionEvent where
  | ready
  | read (result : ReadResult)
  | extract
  | pop

namespace Reception

def init : Reception := ⟨.waiting, [], ⟨[], queueInit, 0⟩, [], [], []⟩

def readStep (receiver : Receiver) (s : Reception) (result : ReadResult) : Reception :=
  let pass := s.pass ++ result.taken
  let read := s.read ++ result.taken
  match receiver.fullRead result with
  | none => { s with pass := pass, read := read }
  | some ret =>
    if receiver.stops ret then { s with pc := .stopped, pass := pass, read := read }
    else { s with
      pc := .extracting
      pass := []
      intake := appendAcc s.intake pass
      read := read
      appended := s.appended ++ pass }

def step (receiver : Receiver) (s : Reception) : ReceptionEvent → Reception
  | .ready => if s.pc = .waiting then { s with pc := .reading, pass := [] } else s
  | .read result => if s.pc = .reading then readStep receiver s result else s
  | .extract =>
    if s.pc = .extracting then
      match extractStep s.intake with
      | some part => { s with
          intake := part
          pushed := s.pushed ++ (splitPacket s.intake.acc).toList.map Prod.fst }
      | none => { s with pc := .waiting }
    else s
  | .pop => { s with intake := { s.intake with readQ := (popBlock s.intake.readQ).2.2 } }

def held (s : Reception) : Block := if s.pc = .reading then s.pass else []

/-- All that was read is in the accumulator's stream or still held by its pass,
and when the connection is stopped every complete packet of it is pushed. -/
structure NothingLost (s : Reception) : Prop where
  appended : s.appended ++ s.held = s.read
  framed : s.pc = .stopped → Framing.Splits s.read s.pushed s.intake.acc

def StopsAlone (receiver : Receiver) (s : Reception) : ReceptionEvent → Prop
  | .read result => s.pc = .reading → (receiver.fullRead result).any receiver.stops = true → s.pass = []
  | _ => True

end Reception

namespace Framing

inductive Cuts : Block → List Block → Block → Prop where
  | refl (acc : Block) : Cuts acc [] acc
  | next {acc pkt rest last : Block} {pkts : List Block} :
      splitPacket acc = some (pkt, rest) → Cuts rest pkts last → Cuts acc (pkt :: pkts) last

theorem Cuts.snoc {acc last pkt rest : Block} {pkts : List Block} (cuts : Cuts acc pkts last)
    (cut : splitPacket last = some (pkt, rest)) : Cuts acc (pkts ++ [pkt]) rest := by
  induction cuts with
  | refl acc => exact .next cut (.refl rest)
  | next first _ ih => exact .next first (ih cut)

theorem Cuts.append {acc last : Block} {pkts : List Block} (cuts : Cuts acc pkts last) (more : Block) :
    Cuts (acc ++ more) pkts (last ++ more) := by
  induction cuts with
  | refl acc => exact .refl (acc ++ more)
  | next first _ ih => exact .next (splitPacket_append more first) ih

theorem Cuts.splits {acc last : Block} {pkts : List Block} (cuts : Cuts acc pkts last)
    (stuck : splitPacket last = none) : Splits acc pkts last := by
  induction cuts with
  | refl acc => exact .stuck stuck
  | next first _ ih => exact .next first (ih stuck)

end Framing

namespace Reception

structure Cut (s : Reception) : Prop where
  cuts : Framing.Cuts s.appended s.pushed s.intake.acc
  stuck : s.pc ≠ .extracting → splitPacket s.intake.acc = none

variable {receiver : Receiver} {s : Reception}

theorem cut_readStep (cut : s.Cut) (reading : s.pc = .reading) (result : ReadResult) :
    (readStep receiver s result).Cut := by
  have stuck := cut.stuck (by simp [reading])
  unfold readStep
  dsimp only
  split
  · exact ⟨cut.cuts, fun _ => stuck⟩
  · split
    · exact ⟨cut.cuts, fun _ => stuck⟩
    · exact ⟨cut.cuts.append _, fun done => absurd rfl done⟩

theorem cut_step (receiver : Receiver) (s : Reception) (e : ReceptionEvent) (cut : s.Cut) :
    (step receiver s e).Cut := by
  cases e with
  | ready =>
    simp only [step]
    split
    · next waiting => exact ⟨cut.cuts, fun _ => cut.stuck (by simp [waiting])⟩
    · exact cut
  | read result =>
    simp only [step]
    split
    · next reading => exact cut_readStep cut reading result
    · exact cut
  | extract =>
    simp only [step]
    split
    · next extracting =>
      cases split : splitPacket s.intake.acc with
      | none =>
        simp only [extractStep, split, Option.map_none]
        exact ⟨cut.cuts, fun _ => split⟩
      | some pair =>
        simp only [extractStep, split, Option.map_some, Option.toList_some, List.map_singleton]
        exact ⟨cut.cuts.snoc split, fun done => absurd extracting done⟩
    · exact cut
  | pop => exact ⟨cut.cuts, cut.stuck⟩

/-- Where a read stops the connection, the bytes of its pass are never appended. -/
theorem nothingLost_readStep (cut : s.Cut) (kept : s.NothingLost) (reading : s.pc = .reading)
    (result : ReadResult) : (readStep receiver s result).NothingLost ↔
      ((receiver.fullRead result).any receiver.stops = true → s.pass = []) := by
  have appended : s.appended ++ s.pass = s.read := by
    simpa only [held, reading, ↓reduceIte] using kept.appended
  have splits := cut.cuts.splits (cut.stuck (by simp [reading]))
  unfold readStep
  cases returned : receiver.fullRead result with
  | none =>
    refine iff_of_true ⟨?_, fun stopped => ?_⟩ fun any => by simp at any
    · simp [held, reading, ← appended]
    · simp [reading] at stopped
  | some ret =>
    cases stops : receiver.stops ret with
    | false =>
      refine iff_of_true ⟨?_, fun stopped => ?_⟩ fun any => by simp [stops] at any
      · simp [stops, held, ← appended]
      · simp [stops] at stopped
    | true =>
      have nothing : result.taken = [] := by
        cases result with
        | bytes chunk =>
          rw [receiver.bytes_go_on chunk ret returned] at stops
          cases stops
        | _ => rfl
      simp only [stops, ↓reduceIte, Option.any_some, nothing, List.append_nil, true_implies]
      constructor
      · intro after
        have whole : s.appended ++ [] = s.read := after.appended
        rw [List.append_nil, ← appended] at whole
        exact List.self_eq_append_right.mp whole
      · intro alone
        rw [alone, List.append_nil] at appended
        exact ⟨by simp [held, appended], fun _ => appended ▸ splits⟩

theorem nothingLost_step (s : Reception) (e : ReceptionEvent) (cut : s.Cut) (kept : s.NothingLost) :
    (step receiver s e).NothingLost ↔ StopsAlone receiver s e := by
  cases e with
  | ready =>
    refine iff_of_true ?_ trivial
    simp only [step]
    split
    · next waiting =>
      refine ⟨?_, fun stopped => by cases stopped⟩
      simpa [held, waiting] using kept.appended
    · exact kept
  | read result =>
    by_cases reading : s.pc = .reading
    · simp only [step, reading, ↓reduceIte, StopsAlone, true_implies]
      exact nothingLost_readStep cut kept reading result
    · refine iff_of_true ?_ fun now => absurd now reading
      simpa only [step, reading, ↓reduceIte] using kept
  | extract =>
    refine iff_of_true ?_ trivial
    simp only [step]
    split
    · next extracting =>
      have appended : s.appended = s.read := by
        simpa [held, extracting] using kept.appended
      split
      · exact ⟨by simp [held, extracting, appended], fun stopped => by simp [extracting] at stopped⟩
      · exact ⟨by simp [held, appended], fun stopped => by cases stopped⟩
    · exact kept
  | pop => exact iff_of_true ⟨kept.appended, kept.framed⟩ trivial

theorem nothingLost_receiver_iff (receiver : Receiver) (events : List ReceptionEvent) :
    Runs.Throughout (step receiver) NothingLost init events ↔
      Runs.Along (step receiver) (StopsAlone receiver) init events := by
  have cut : init.Cut := ⟨.refl [], fun _ => by decide⟩
  have start : init.NothingLost := ⟨rfl, fun stopped => by cases stopped⟩
  exact Runs.throughout_iff_along_all Cut (cut_step receiver) nothingLost_step cut start

/-- At both ends nothing that was read is lost, exactly where no pass that
stops the connection has read anything before. -/
theorem nothing_lost_iff (events : List ReceptionEvent) :
    (Runs.Throughout (step runServerReceiver) NothingLost init events ↔
      Runs.Along (step runServerReceiver) (StopsAlone runServerReceiver) init events) ∧
    (Runs.Throughout (step runClientReceiver) NothingLost init events ↔
      Runs.Along (step runClientReceiver) (StopsAlone runClientReceiver) init events) :=
  ⟨nothingLost_receiver_iff runServerReceiver events, nothingLost_receiver_iff runClientReceiver events⟩

def fullBuffer : Chunk where
  bytes := List.replicate maxBufferSize 0
  nonempty := fun none => by
    have length := congrArg List.length none
    rw [List.length_replicate] at length
    cases length
  fits := (List.length_replicate).le

def closedAtOnce : List ReceptionEvent := [.ready, .read (.bytes fullBuffer), .read .eof]

theorem close_loses_bytes :
    ¬Runs.Throughout (step runServerReceiver) NothingLost init closedAtOnce ∧
      ¬Runs.Throughout (step runClientReceiver) NothingLost init closedAtOnce := by
  have full : fullBuffer.bytes.length = maxBufferSize := List.length_replicate
  refine ⟨fun always => ?_, fun always => ?_⟩
  · have nothing : fullBuffer.bytes = [] := by
      simpa [closedAtOnce, step, readStep, init, runServerReceiver, nbepRead, ReadResult.taken, held]
        using always.last.appended
    exact fullBuffer.nonempty nothing
  · have nothing : fullBuffer.bytes = [] := by
      simpa [closedAtOnce, step, readStep, init, runClientReceiver, cfullRead, ReadResult.taken, held, full]
        using always.last.appended
    exact fullBuffer.nonempty nothing

end Reception

end Dcn
