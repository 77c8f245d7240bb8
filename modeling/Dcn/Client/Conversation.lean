import Dcn.Client.Session
import Dcn.Foundation.Runs
import Dcn.Server.Worker

/-! Two sessions that ask and answer each other.

A request carries the number that its sender's `last_c_muids` gives, an answer
the number that the answering side's own `last_c_muids` gives for the asker.
The map is written by the first request to a peer only, so the number stored is
0 for ever, a later request carries 1, and a session that never asked has no
number to answer with.
-/

set_option autoImplicit false

namespace Dcn

inductive Side where
  | left
  | right
  deriving DecidableEq, Repr

def Side.peer : Side → Side
  | .left => .right
  | .right => .left

@[simp] theorem Side.peer_peer (side : Side) : side.peer.peer = side := by cases side <;> rfl

structure Asked where
  packet : Packet
  before : Nat

/-- The sessions, the requests that each side sent and that did not arrive
yet, those that each received, and the answers in order: the request answered
and what request() returned. -/
structure Conversation where
  session : Side → Session
  issued : Side → Nat
  inFlight : Side → List Asked
  received : Side → List Asked
  answers : List (Asked × Option Packet)

inductive Turn where
  | ask (side : Side) (pack : Packet) (trvFuid : UInt64)
  | arrive (side : Side) (inx : Nat)
  | answer (side : Side) (inx : Nat) (pack : Packet) (trvFuid : UInt64)

namespace Conversation

def start (uid : Side → UInt64) : Conversation where
  session side := dcnNewSession (uid side)
  issued _ := 0
  inFlight _ := []
  received _ := []
  answers := []

def ask (c : Conversation) (side : Side) (pack : Packet) (trvFuid : UInt64) : Conversation :=
  match request (c.session side) pack (c.session side.peer).cliUid trvFuid .request with
  | none => c
  | some (sent, session) => { c with
      session := Function.update c.session side session
      issued := Function.update c.issued side (c.issued side + 1)
      inFlight := Function.update c.inFlight side (c.inFlight side ++ [⟨sent, c.issued side⟩]) }

def arrive (c : Conversation) (side : Side) (inx : Nat) : Conversation :=
  match (c.inFlight side)[inx]? with
  | none => c
  | some asked => { c with
      inFlight := Function.update c.inFlight side ((c.inFlight side).eraseIdx inx)
      received := Function.update c.received side.peer
        (c.received side.peer ++ [{ asked with packet := unicastCopy asked.packet }]) }

def answer (c : Conversation) (side : Side) (inx : Nat) (pack : Packet) (trvFuid : UInt64) : Conversation :=
  match (c.received side)[inx]? with
  | none => c
  | some asked =>
    match request (c.session side) pack asked.packet.fromUid trvFuid .response with
    | none => { c with answers := c.answers ++ [(asked, none)] }
    | some (sent, session) => { c with
        session := Function.update c.session side session
        answers := c.answers ++ [(asked, some sent)] }

def step (c : Conversation) : Turn → Conversation
  | .ask side pack trvFuid => c.ask side pack trvFuid
  | .arrive side inx => c.arrive side inx
  | .answer side inx pack trvFuid => c.answer side inx pack trvFuid

def Matched (c : Conversation) : Prop :=
  ∀ entry ∈ c.answers, entry.2.map Packet.cmuid = some entry.1.packet.cmuid

instance (c : Conversation) : Decidable c.Matched :=
  inferInstanceAs (Decidable (∀ entry ∈ c.answers, _))

/-- The answering side asked before, unless the asker's UID is 0, and the
request is the first of its sender, unless the answering side's UID is 0. -/
def InStep (c : Conversation) : Turn → Prop
  | .answer side inx _ _ => ∀ asked, (c.received side)[inx]? = some asked →
      ((c.session side.peer).cliUid = 0 ∨ 0 < c.issued side) ∧
      ((c.session side).cliUid = 0 ∨ asked.before = 0)
  | _ => True

end Conversation

namespace Conversation

section Request

variable {session : Session} {toUid : UInt64} {issued : Nat} (pack : Packet) (trvFuid : UInt64)

def noted (toUid : UInt64) (issued : Nat) : Option UInt64 := if toUid = 0 ∨ issued = 0 then none else some 0

def numberOf (toUid : UInt64) (before : Nat) : UInt64 := if toUid = 0 ∨ before = 0 then 0 else 1

theorem request_ask (numbers : mapAt session.lastCMuids toUid = noted toUid issued) :
    ∃ sent session', request session pack toUid trvFuid .request = some (sent, session') ∧
      sent.fromUid = session.cliUid ∧ sent.cmuid = numberOf toUid issued ∧
      session'.cliUid = session.cliUid ∧ mapAt session'.lastCMuids toUid = noted toUid (issued + 1) := by
  unfold request
  by_cases zero : toUid = 0
  · subst zero
    exact ⟨_, _, rfl, rfl, rfl, rfl, numbers⟩
  · have differ : PacketType.request ≠ PacketType.response := by decide
    -- Only the first request stores a number.
    cases issued with
    | zero =>
      have absent : mapAt session.lastCMuids toUid = none := by simpa [noted] using numbers
      simp [zero, absent, differ, noted, numberOf]
    | succ n =>
      have stored : mapAt session.lastCMuids toUid = some 0 := by simpa [noted, zero] using numbers
      simp [zero, stored, differ, noted, numberOf]

theorem request_answer (numbers : mapAt session.lastCMuids toUid = noted toUid issued) :
    (request session pack toUid trvFuid .response).map (fun r => (r.1.cmuid, r.2)) =
      if toUid = 0 ∨ 0 < issued then some (0, session) else none := by
  unfold request
  by_cases zero : toUid = 0
  · simp [zero]
  · cases issued with
    | zero =>
      have absent : mapAt session.lastCMuids toUid = none := by simpa [noted] using numbers
      simp [zero, absent]
    | succ n =>
      have stored : mapAt session.lastCMuids toUid = some 0 := by simpa [noted, zero] using numbers
      simp [zero, stored]

end Request

def uid (c : Conversation) (side : Side) : UInt64 := (c.session side).cliUid

def IsAsked (c : Conversation) (side : Side) (asked : Asked) : Prop :=
  asked.packet.fromUid = c.uid side ∧ asked.packet.cmuid = numberOf (c.uid side.peer) asked.before

structure Numbered (c : Conversation) : Prop where
  numbers : ∀ side, mapAt (c.session side).lastCMuids (c.uid side.peer) =
    noted (c.uid side.peer) (c.issued side)
  inFlight : ∀ side, ∀ asked ∈ c.inFlight side, c.IsAsked side asked
  received : ∀ side, ∀ asked ∈ c.received side, c.IsAsked side.peer asked

theorem isAsked_congr {c d : Conversation} (uids : d.uid = c.uid) (side : Side) (asked : Asked) :
    d.IsAsked side asked ↔ c.IsAsked side asked := by
  unfold IsAsked
  rw [uids]

theorem uid_update {c : Conversation} {side : Side} {session : Session}
    (same : session.cliUid = c.uid side) :
    (fun other => (Function.update c.session side session other).cliUid) = c.uid := by
  funext other
  by_cases here : other = side
  · subst here
    rw [Function.update_self, same]
  · rw [Function.update_of_ne here]
    rfl

theorem mem_update_append {held : Side → List Asked} {side other : Side} {new asked : Asked}
    (member : asked ∈ Function.update held side (held side ++ [new]) other) :
    asked ∈ held other ∨ (other = side ∧ asked = new) := by
  by_cases here : other = side
  · subst here
    simp only [Function.update_self, List.mem_append, List.mem_singleton] at member
    exact member.imp_right fun same => ⟨rfl, same⟩
  · rw [Function.update_of_ne here] at member
    exact .inl member

theorem numbered_ask {c : Conversation} (kept : c.Numbered) (side : Side) (pack : Packet)
    (trvFuid : UInt64) : (c.ask side pack trvFuid).Numbered := by
  obtain ⟨sent, session, asks, fromUid, cmuid, cliUid, stored⟩ :=
    request_ask pack trvFuid (kept.numbers side)
  have shape : c.ask side pack trvFuid = { c with
      session := Function.update c.session side session
      issued := Function.update c.issued side (c.issued side + 1)
      inFlight := Function.update c.inFlight side (c.inFlight side ++ [⟨sent, c.issued side⟩]) } := by
    have asks' : request (c.session side) pack (c.session side.peer).cliUid trvFuid .request =
      some (sent, session) := asks
    rw [ask, asks']
  have uids : (c.ask side pack trvFuid).uid = c.uid := by
    rw [shape]
    exact uid_update cliUid
  refine ⟨fun other => ?_, fun other asked member => ?_, fun other asked member => ?_⟩
  · rw [uids, shape]
    by_cases here : other = side
    · subst here
      simpa using stored
    · simpa [here] using kept.numbers other
  · rw [isAsked_congr uids]
    rw [shape] at member
    rcases mem_update_append member with old | ⟨here, new⟩
    · exact kept.inFlight other asked old
    · subst here new
      exact ⟨fromUid, cmuid⟩
  · rw [isAsked_congr uids]
    rw [shape] at member
    exact kept.received other asked member

theorem numbered_arrive {c : Conversation} (kept : c.Numbered) (side : Side) (inx : Nat) :
    (c.arrive side inx).Numbered := by
  unfold arrive
  cases found : (c.inFlight side)[inx]? with
  | none => exact kept
  | some asked =>
    have sent := kept.inFlight side asked (List.mem_of_getElem? found)
    refine ⟨kept.numbers, fun other other_asked member => ?_, fun other other_asked member => ?_⟩
    · by_cases here : other = side
      · subst here
        simp only [Function.update_self] at member
        exact kept.inFlight other _ (List.mem_of_mem_eraseIdx member)
      · simp only [Function.update_of_ne here] at member
        exact kept.inFlight other _ member
    · rcases mem_update_append member with old | ⟨here, new⟩
      · exact kept.received other _ old
      · -- the server's copy keeps the sender and the conversation number
        subst here new
        rw [Side.peer_peer]
        exact sent

theorem answer_eq {c : Conversation} (kept : c.Numbered) {side : Side} {inx : Nat} {asked : Asked}
    (found : (c.received side)[inx]? = some asked) (pack : Packet) (trvFuid : UInt64) :
    ∃ result, c.answer side inx pack trvFuid = { c with answers := c.answers ++ [(asked, result)] } ∧
      result.map Packet.cmuid = if c.uid side.peer = 0 ∨ 0 < c.issued side then some 0 else none := by
  have peer : asked.packet.fromUid = c.uid side.peer :=
    (kept.received side asked (List.mem_of_getElem? found)).1
  have answered := request_answer pack trvFuid (kept.numbers side)
  -- The number is the answering side's own for the asker, whatever the request carried.
  rw [← peer] at answered ⊢
  simp only [answer, found]
  cases result : request (c.session side) pack asked.packet.fromUid trvFuid .response with
  | none =>
    refine ⟨none, rfl, ?_⟩
    rw [result] at answered
    split at answered
    · cases answered
    · next refused => rw [if_neg refused]; rfl
  | some r =>
    obtain ⟨sent, session⟩ := r
    rw [result] at answered
    split at answered
    · next accepted =>
      obtain ⟨number, same⟩ := Prod.mk.inj (Option.some.inj answered)
      subst same
      refine ⟨some sent, by simp, ?_⟩
      rw [if_pos accepted]
      exact congrArg some number
    · cases answered

theorem numbered_step (c : Conversation) (turn : Turn) (kept : c.Numbered) : (c.step turn).Numbered := by
  cases turn with
  | ask side pack trvFuid => exact numbered_ask kept side pack trvFuid
  | arrive side inx => exact numbered_arrive kept side inx
  | answer side inx pack trvFuid =>
    cases found : (c.received side)[inx]? with
    | none => simpa [step, answer, found] using kept
    | some asked =>
      obtain ⟨result, shape, _⟩ := answer_eq kept found pack trvFuid
      rw [step, shape]
      exact ⟨kept.numbers, kept.inFlight, kept.received⟩

/-- An answer given to a request matches it exactly when the answering side
asked before and the request is its sender's first, UIDs of 0 apart. -/
theorem matched_step (c : Conversation) (turn : Turn) (kept : c.Numbered) (matched : c.Matched) :
    (c.step turn).Matched ↔ c.InStep turn := by
  cases turn with
  | ask side pack trvFuid =>
    refine iff_of_true ?_ trivial
    rw [step, ask]
    split <;> exact matched
  | arrive side inx =>
    refine iff_of_true ?_ trivial
    rw [step, arrive]
    split <;> exact matched
  | answer side inx pack trvFuid =>
    simp only [step, InStep]
    cases found : (c.received side)[inx]? with
    | none => simpa [answer, found] using matched
    | some asked =>
      obtain ⟨result, shape, number⟩ := answer_eq kept found pack trvFuid
      have cmuid := (kept.received side asked (List.mem_of_getElem? found)).2
      rw [Side.peer_peer] at cmuid
      -- The answers given before are matched already.
      have last : (c.answer side inx pack trvFuid).Matched ↔
          result.map Packet.cmuid = some asked.packet.cmuid := by
        simp only [shape, Matched, List.forall_mem_append, List.forall_mem_singleton]
        exact and_iff_right matched
      rw [last, number, cmuid]
      unfold numberOf uid
      by_cases accepted : (c.session side.peer).cliUid = 0 ∨ 0 < c.issued side
      · by_cases first : (c.session side).cliUid = 0 ∨ asked.before = 0
        · simp [accepted, first]
        · simp [accepted, first]
      · simp [accepted]

/-- In every run of two sessions each answer is accepted with the number of the
request it answers, exactly when every answer is given in step. -/
theorem matched_iff (uid : Side → UInt64) (turns : List Turn) :
    Runs.Throughout step Matched (start uid) turns ↔ Runs.Along step InStep (start uid) turns := by
  have begins : (start uid).Numbered := by
    refine ⟨fun side => ?_, ?_, ?_⟩
    · simp [start, dcnNewSession, noted]
    · intro side asked member
      cases member
    · intro side asked member
      cases member
  have matched : (start uid).Matched := by
    intro entry member
    cases member
  exact Runs.throughout_iff_along_all Numbered numbered_step matched_step begins matched

def drift : List Turn :=
  [.ask .right (packetInit [1] 0 0 0) 0, .ask .right (packetInit [2] 0 0 0) 0,
   .arrive .right 0, .arrive .right 0, .ask .left (packetInit [3] 0 0 0) 0,
   .answer .left 1 (packetInit [4] 0 0 0) 0]

theorem answer_to_second_request_drifts :
    ¬Runs.Throughout step Matched (start fun | .left => 7 | .right => 8) drift := by
  intro always
  have last := always.last
  revert last
  decide

end Conversation

end Dcn
