import Dcn.Client.Numbering

/-! What a session takes from the server (dnet/client.c).

The answer branch of the handler is for packets that are addressed to the
session and have no from_os. What such packets have in common, those in
responses have too, and a waiter is set only by one of them, under the number of
a packet that its call has queued.
-/

set_option autoImplicit false

namespace Dcn

def AnswerPc.pack : AnswerPc → Option Packet
  | .store pack | .lookup pack | .set pack _ => some pack
  | .idle => none

def CallPc.packet : CallPc → Option Packet
  | .idle => none
  | .read packet _ | .push packet | .increment packet | .register packet | .wait packet | .erase packet
  | .returned packet => some packet

namespace Requests

variable {τ η : Type} [DecidableEq τ] [DecidableEq η]

structure Accepts (fine : Packet → Prop) (s : Requests τ η) : Prop where
  arrived : ∀ pack ∈ s.arrived, pack.fromOs = 0 → pack.toUid = s.cliUid → fine pack
  handling : ∀ h, ∀ pack ∈ (s.handlers h).pack, fine pack
  pointing : ∀ h pack ptr, s.handlers h = .set pack ptr → s.cndArrays.PointsTo s.cndResponses pack.muid ptr
  responses : ∀ muid pack, mapAt s.responses muid = some pack → pack.muid = muid ∧ fine pack
  queued : ∀ c packet, (s.calls c).queued = some packet → (c, packet) ∈ s.pushed
  entries : ∀ muid c, mapAt s.cndResponses muid = some c → ∃ packet, (c, packet) ∈ s.pushed ∧ packet.muid = muid
  signals : ∀ c, s.wasSet c = true → ∃ packet pack, (c, packet) ∈ s.pushed ∧ packet.muid = pack.muid ∧ fine pack
  fits : ∀ c, ∀ packet ∈ (s.calls c).packet, packet.Fits
  outgoing : ∀ block ∈ s.writeq.blocks, ∃ pack : Packet, pack.Fits ∧ block = packetSerial pack

section Steps

variable {fine wider : Packet → Prop} {s : Requests τ η} {c : τ} {h : η} {pack packet : Packet}

omit [DecidableEq τ] [DecidableEq η] in
theorem Accepts.mono (accepts : s.Accepts fine) (weaken : ∀ pack, fine pack → wider pack) : s.Accepts wider := by
  obtain ⟨arrived, handling, pointing, responses, queued, entries, signals, fits, outgoing⟩ := accepts
  refine ⟨fun pack member zero mine => weaken pack (arrived pack member zero mine),
    fun h pack has => weaken pack (handling h pack has), pointing, fun muid pack found => ?_, queued, entries,
    fun c set => ?_, fits, outgoing⟩
  · exact ⟨(responses muid pack found).1, weaken pack (responses muid pack found).2⟩
  · obtain ⟨packet, pack, listed, same, answers⟩ := signals c set
    exact ⟨packet, pack, listed, same, weaken pack answers⟩

omit [DecidableEq η] in
theorem Accepts.goto (accepts : s.Accepts fine) {pc : CallPc}
    (queued : ∀ packet, pc.queued = some packet → (c, packet) ∈ s.pushed) (fits : ∀ packet ∈ pc.packet, packet.Fits) :
    (s.goto c pc).Accepts fine := by
  refine ⟨accepts.arrived, accepts.handling, accepts.pointing, accepts.responses, fun d packet queues => ?_,
    accepts.entries, accepts.signals, fun d packet has => ?_, accepts.outgoing⟩
  · by_cases same : d = c
    · rw [same, calls_goto] at queues
      exact same ▸ queued packet queues
    · rw [calls_goto_of_ne s pc same] at queues
      exact accepts.queued d packet queues
  · by_cases same : d = c
    · rw [same, calls_goto] at has
      exact fits packet has
    · rw [calls_goto_of_ne s pc same] at has
      exact accepts.fits d packet has

omit [DecidableEq η] in
theorem accepts_push (accepts : s.Accepts fine) (pushes : s.calls c = .push packet) (moved : Moved) :
    (s.advance c moved).Accepts fine := by
  have fits : packet.Fits := accepts.fits c packet (by rw [pushes]; rfl)
  have grown : Accepts fine { s with
      writeq := pushBlock s.writeq (packetSerial packet)
      pushed := s.pushed ++ [(c, packet)] } := by
    refine ⟨accepts.arrived, accepts.handling, accepts.pointing, accepts.responses,
      fun d packet queues => List.mem_append_left _ (accepts.queued d packet queues), fun muid d found => ?_,
      fun d set => ?_, accepts.fits, fun block member => ?_⟩
    · obtain ⟨packet, listed, same⟩ := accepts.entries muid d found
      exact ⟨packet, List.mem_append_left _ listed, same⟩
    · obtain ⟨packet, pack, listed, rest⟩ := accepts.signals d set
      exact ⟨packet, pack, List.mem_append_left _ listed, rest⟩
    · rcases List.mem_append.mp member with old | new
      · exact accepts.outgoing block old
      · exact ⟨packet, fits, List.mem_singleton.mp new⟩
  simp only [advance, pushes]
  refine grown.goto (fun other queues => ?_) fun other has => ?_
  · cases queues
    exact List.mem_append_right _ (List.mem_singleton_self _)
  · cases has
    exact fits

omit [DecidableEq η] in
theorem accepts_register (accepts : s.Accepts fine) (registers : s.calls c = .register packet) (moved : Moved) :
    (s.advance c moved).Accepts fine := by
  have listed : (c, packet) ∈ s.pushed := accepts.queued c packet (by rw [registers]; rfl)
  have entered : Accepts fine { s with
      isReady := Function.update s.isReady c false
      cndResponses := mapSet s.cndResponses packet.muid c
      cndArrays := s.cndArrays.set (mapIn s.cndResponses packet.muid) moved } := by
    refine ⟨accepts.arrived, accepts.handling, fun h pack ptr sets => (accepts.pointing h pack ptr sets).set _ c moved,
      accepts.responses, accepts.queued, fun muid d found => ?_, accepts.signals, accepts.fits, accepts.outgoing⟩
    rw [Map.mapAt_mapSet] at found
    split at found
    · next same =>
      cases found
      exact ⟨packet, listed, same.symm⟩
    · exact accepts.entries muid d found
  simp only [advance, registers]
  refine entered.goto (fun other queues => ?_) fun other has => ?_
  · cases queues
    exact listed
  · cases has
    exact accepts.fits c packet (by rw [registers]; rfl)

omit [DecidableEq η] in
theorem accepts_erase (accepts : s.Accepts fine) (erases : s.calls c = .erase packet) (moved : Moved) :
    (s.advance c moved).Accepts fine := by
  have left : Accepts fine { s with
      cndResponses := mapErase s.cndResponses packet.muid
      cndArrays := s.cndArrays.erase (mapIn s.cndResponses packet.muid) } := by
    refine ⟨accepts.arrived, accepts.handling, fun h pack ptr sets => (accepts.pointing h pack ptr sets).erase _,
      accepts.responses, accepts.queued, fun muid d found => accepts.entries muid d ?_, accepts.signals, accepts.fits,
      accepts.outgoing⟩
    rw [Map.mapAt_eq_some_iff] at found ⊢
    exact (Map.eraseEntries_sublist packet.muid _).subset found
  simp only [advance, erases]
  refine left.goto (fun other queues => ?_) fun other has => ?_
  · cases queues
    exact accepts.queued c packet (by rw [erases]; rfl)
  · cases has
    exact accepts.fits c packet (by rw [erases]; rfl)

omit [DecidableEq η] in
theorem accepts_advance (accepts : s.Accepts fine) (c : τ) (moved : Moved) : (s.advance c moved).Accepts fine := by
  have fits := accepts.fits c
  have queued := accepts.queued c
  cases pc : s.calls c with
  | idle | returned packet =>
    simp only [advance, pc]
    exact accepts
  | read packet toUid =>
    simp only [advance, pc]
    refine accepts.goto (fun other queues => by cases queues) fun other has => ?_
    cases has
    exact fits packet (by rw [pc]; rfl)
  | push packet => exact accepts_push accepts pc moved
  | increment packet =>
    simp only [advance, pc]
    have counted : Accepts fine { s with lastMuid := s.lastMuid + 1 } :=
      ⟨accepts.arrived, accepts.handling, accepts.pointing, accepts.responses, accepts.queued, accepts.entries,
        accepts.signals, accepts.fits, accepts.outgoing⟩
    exact counted.goto (fun other queues => queued other (by rw [pc]; exact queues))
      fun other has => fits other (by rw [pc]; exact has)
  | register packet => exact accepts_register accepts pc moved
  | wait packet =>
    simp only [advance, pc]
    split
    · have taken : Accepts fine { s with isReady := Function.update s.isReady c false } :=
        ⟨accepts.arrived, accepts.handling, accepts.pointing, accepts.responses, accepts.queued, accepts.entries,
          accepts.signals, accepts.fits, accepts.outgoing⟩
      exact taken.goto (fun other queues => queued other (by rw [pc]; exact queues))
        fun other has => fits other (by rw [pc]; exact has)
    · exact accepts
  | erase packet => exact accepts_erase accepts pc moved

omit [DecidableEq τ] in
theorem Accepts.handlerGoto (accepts : s.Accepts fine) {pc : AnswerPc} (handling : ∀ pack ∈ pc.pack, fine pack)
    (pointing : ∀ pack ptr, pc = .set pack ptr → s.cndArrays.PointsTo s.cndResponses pack.muid ptr) :
    (s.handlerGoto h pc).Accepts fine := by
  refine ⟨accepts.arrived, fun g pack has => ?_, fun g pack ptr sets => ?_, accepts.responses, accepts.queued,
    accepts.entries, accepts.signals, accepts.fits, accepts.outgoing⟩
  · by_cases same : g = h
    · simp only [Requests.handlerGoto, same, Function.update_self] at has
      exact handling pack has
    · simp only [Requests.handlerGoto, Function.update_of_ne same] at has
      exact accepts.handling g pack has
  · by_cases same : g = h
    · simp only [Requests.handlerGoto, same, Function.update_self] at sets
      exact pointing pack ptr sets
    · simp only [Requests.handlerGoto, Function.update_of_ne same] at sets
      exact accepts.pointing g pack ptr sets

theorem accepts_pop (accepts : s.Accepts fine) (h : η) (undecoded : Undecoded) :
    (s.step (.pop h undecoded)).Accepts fine := by
  simp only [step]
  split
  · next pack rest idle shape =>
    have popped : Accepts fine { s with arrived := rest } :=
      ⟨fun other member => accepts.arrived other (shape ▸ List.mem_cons_of_mem _ member), accepts.handling,
        accepts.pointing, accepts.responses, accepts.queued, accepts.entries, accepts.signals, accepts.fits,
        accepts.outgoing⟩
    refine popped.handlerGoto (fun answer has => ?_) fun answer ptr sets => ?_
    · unfold AnswerPc.received at has
      split at has
      · cases has
      · next mine =>
        split at has
        · cases has
        · next zero =>
          have answers : fine pack := accepts.arrived pack (shape ▸ List.mem_cons_self) (not_not.mp zero)
            (not_not.mp mine)
          split at has
          · split at has
            · cases has
            · cases has
              exact answers
          · cases has
            exact answers
    · unfold AnswerPc.received at sets
      split_ifs at sets
  · exact accepts

theorem accepts_handle (accepts : s.Accepts fine) (h : η) : (s.handle h).Accepts fine := by
  cases pc : s.handlers h with
  | idle =>
    simp only [handle, pc]
    exact accepts
  | store pack =>
    have answers := accepts.handling h pack (by rw [pc]; rfl)
    have stored : Accepts fine { s with responses := mapSet s.responses pack.muid pack } := by
      refine ⟨accepts.arrived, accepts.handling, accepts.pointing, fun muid other found => ?_, accepts.queued,
        accepts.entries, accepts.signals, accepts.fits, accepts.outgoing⟩
      rw [Map.mapAt_mapSet] at found
      split at found
      · next same =>
        cases found
        exact ⟨same.symm, answers⟩
      · exact accepts.responses muid other found
    simp only [handle, pc]
    refine stored.handlerGoto (fun other has => ?_) fun other ptr sets => by cases sets
    cases has
    exact answers
  | lookup pack =>
    have answers := accepts.handling h pack (by rw [pc]; rfl)
    have looked : Accepts fine { s with lookedUp := s.lookedUp ++ [pack.muid] } :=
      ⟨accepts.arrived, accepts.handling, accepts.pointing, accepts.responses, accepts.queued, accepts.entries,
        accepts.signals, accepts.fits, accepts.outgoing⟩
    simp only [handle, pc]
    split
    · next ptr found =>
      refine looked.handlerGoto (fun other has => ?_) fun other place sets => ?_
      · cases has
        exact answers
      · cases sets
        exact Arrays.pointsTo_find found
    · have ended : Accepts fine { s with
          lookedUp := s.lookedUp ++ [pack.muid]
          handled := s.handled ++ [pack.muid] } :=
        ⟨accepts.arrived, accepts.handling, accepts.pointing, accepts.responses, accepts.queued, accepts.entries,
          accepts.signals, accepts.fits, accepts.outgoing⟩
      exact ended.handlerGoto (fun other has => by cases has) fun other ptr sets => by cases sets
  | set pack ptr =>
    have answers := accepts.handling h pack (by rw [pc]; rfl)
    simp only [handle, pc]
    split
    · next waiter read =>
      -- The pointer is to the entry of the answer's number.
      have there : ptr.array = s.cndArrays.values := by
        by_contra gone
        rw [Arrays.value, if_neg gone] at read
        cases read
      obtain ⟨owner, reads, entry⟩ := (accepts.pointing h pack ptr pc).value there
      cases read.symm.trans reads
      obtain ⟨packet, listed, same⟩ := accepts.entries pack.muid waiter entry
      have woken : Accepts fine { s with
          isReady := Function.update s.isReady waiter true
          wasSet := Function.update s.wasSet waiter true
          handled := s.handled ++ [pack.muid] } := by
        refine ⟨accepts.arrived, accepts.handling, accepts.pointing, accepts.responses, accepts.queued,
          accepts.entries, fun d set => ?_, accepts.fits, accepts.outgoing⟩
        by_cases mine : d = waiter
        · exact ⟨packet, pack, mine ▸ listed, same, answers⟩
        · dsimp only at set
          rw [Function.update_of_ne mine] at set
          exact accepts.signals d set
      exact woken.handlerGoto (fun other has => by cases has) fun other ptr sets => by cases sets
    · have ended : Accepts fine { s with handled := s.handled ++ [pack.muid] } :=
        ⟨accepts.arrived, accepts.handling, accepts.pointing, accepts.responses, accepts.queued, accepts.entries,
          accepts.signals, accepts.fits, accepts.outgoing⟩
      exact ended.handlerGoto (fun other has => by cases has) fun other ptr sets => by cases sets

end Steps

end Requests

end Dcn
