import Dcn.Client.Session
import Dcn.Foundation.Runs

/-! The numbers that request() gives to the calls of a session.

A call other than a RESPONSE gets the number that follows the one stored for its
peer. The number is stored by the first call to the peer, and by no other.
-/

set_option autoImplicit false

namespace Dcn

structure RequestCall where
  pack : Packet
  toUid : UInt64
  trvFuid : UInt64
  packtype : PacketType

def RequestCall.Asks (call : RequestCall) (peer : UInt64) : Prop :=
  call.toUid = peer ∧ call.packtype ≠ .response

instance (call : RequestCall) (peer : UInt64) : Decidable (call.Asks peer) :=
  inferInstanceAs (Decidable (_ ∧ _))

/-- The session after a call; one that returns NULL leaves it. -/
def requestStep (session : Session) (call : RequestCall) : Session :=
  match request session call.pack call.toUid call.trvFuid call.packtype with
  | none => session
  | some (_, session) => session

def cmuidTo (peer : UInt64) (session : Session) (call : RequestCall) : List UInt64 :=
  if call.Asks peer then
    ((request session call.pack call.toUid call.trvFuid call.packtype).map fun made => made.1.cmuid).toList
  else []

section Calls

variable {session : Session} {call : RequestCall} {peer last : UInt64} {calls : List RequestCall}

theorem noted_requestStep (noted : mapAt session.lastCMuids peer = some last) :
    mapAt (requestStep session call).lastCMuids peer = some last := by
  unfold requestStep request
  by_cases server : call.toUid = 0
  · simpa [server] using noted
  · cases known : mapAt session.lastCMuids call.toUid with
    | some lastCMuid => simpa [server, known] using noted
    | none =>
      have other : peer ≠ call.toUid := by
        intro same
        rw [same, known] at noted
        cases noted
      by_cases answers : call.packtype = .response
      · simpa [server, known, answers] using noted
      · simpa [server, known, answers, Map.mapAt_mapSet_of_ne _ _ other] using noted

theorem unnoted_requestStep (call : RequestCall) (real : peer ≠ 0) (unnoted : mapAt session.lastCMuids peer = none) :
    mapAt (requestStep session call).lastCMuids peer = if call.Asks peer then some 0 else none := by
  unfold requestStep request RequestCall.Asks
  by_cases here : call.toUid = peer
  · subst here
    by_cases answers : call.packtype = .response
    · simp [real, unnoted, answers]
    · simp [real, unnoted, answers]
  · have other : peer ≠ call.toUid := fun same => here same.symm
    by_cases server : call.toUid = 0
    · simpa [server, Ne.symm real] using unnoted
    · cases known : mapAt session.lastCMuids call.toUid with
      | some lastCMuid => simpa [server, known, here] using unnoted
      | none =>
        by_cases answers : call.packtype = .response
        · simpa [server, known, here, answers] using unnoted
        · simpa [server, known, here, answers, Map.mapAt_mapSet_of_ne _ _ other] using unnoted

theorem cmuidTo_noted (real : peer ≠ 0) (noted : mapAt session.lastCMuids peer = some last) :
    cmuidTo peer session call = if call.Asks peer then [last + 1] else [] := by
  unfold cmuidTo
  split
  · next asks =>
    obtain ⟨rfl, asking⟩ := asks
    simp [request, real, noted, asking]
  · rfl

theorem cmuidTo_unnoted (real : peer ≠ 0) (unnoted : mapAt session.lastCMuids peer = none) :
    cmuidTo peer session call = if call.Asks peer then [0] else [] := by
  unfold cmuidTo
  split
  · next asks =>
    obtain ⟨rfl, asking⟩ := asks
    simp [request, real, unnoted, asking]
  · rfl

/-- Once a peer is noted, all calls that ask it get one number. -/
theorem cmuids_noted (real : peer ≠ 0) (noted : mapAt session.lastCMuids peer = some last) :
    Runs.outputs requestStep (cmuidTo peer) session calls =
      List.replicate (calls.countP fun call => call.Asks peer) (last + 1) := by
  induction calls generalizing session with
  | nil => rfl
  | cons call rest ih =>
    rw [Runs.outputs_cons, cmuidTo_noted real noted, ih (noted_requestStep noted), List.countP_cons]
    by_cases asks : call.Asks peer
    · simp [asks, List.replicate_succ]
    · simp [asks]

theorem cmuids_unnoted (real : peer ≠ 0) (unnoted : mapAt session.lastCMuids peer = none) :
    Runs.outputs requestStep (cmuidTo peer) session calls =
      (0 :: List.replicate ((calls.countP fun call => call.Asks peer) - 1) 1).take
        (calls.countP fun call => call.Asks peer) := by
  induction calls generalizing session with
  | nil => rfl
  | cons call rest ih =>
    have next := unnoted_requestStep call real unnoted
    rw [Runs.outputs_cons, cmuidTo_unnoted real unnoted, List.countP_cons]
    by_cases asks : call.Asks peer
    · rw [if_pos asks] at next
      rw [cmuids_noted real next]
      simp [asks]
    · rw [if_neg asks] at next
      rw [ih next]
      simp [asks]

end Calls

/-- The numbers of the calls that ask a peer differ exactly where there are two
at most, or one where the session has noted the peer before. -/
theorem cmuids_distinct_iff (session : Session) (calls : List RequestCall) (peer : UInt64) (real : peer ≠ 0) :
    (Runs.outputs requestStep (cmuidTo peer) session calls).Nodup ↔
      (calls.countP fun call => call.Asks peer) ≤ if mapIn session.lastCMuids peer then 1 else 2 := by
  cases known : mapAt session.lastCMuids peer with
  | some last =>
    rw [cmuids_noted real known, List.nodup_replicate, mapIn, known]
    simp
  | none =>
    rw [cmuids_unnoted real known, mapIn, known]
    generalize (calls.countP fun call => call.Asks peer) = count
    rcases count with _ | _ | count
    · simp
    · simp
    · have whole : (0 :: List.replicate (count + 1) (1 : UInt64)).length = count + 2 := by simp
      rw [show count + 1 + 1 - 1 = count + 1 by omega, show count + 1 + 1 = count + 2 by omega,
        List.take_of_length_le whole.le, List.nodup_cons, List.nodup_replicate]
      simp

def requestCall : RequestCall := ⟨packetInit [] 0 0 0, 2, 0, .request⟩

theorem cmuids_distinct_two :
    (Runs.outputs requestStep (cmuidTo 2) (dcnNewSession 1) [requestCall, requestCall]).Nodup :=
  (cmuids_distinct_iff (dcnNewSession 1) [requestCall, requestCall] 2 (by decide)).mpr (by decide)

/-- The third request to a peer carries the number of the second. -/
theorem third_cmuid_repeats :
    ¬ (Runs.outputs requestStep (cmuidTo 2) (dcnNewSession 1) [requestCall, requestCall, requestCall]).Nodup := by
  decide

end Dcn
