import Dcn.Client.Locking

/-! The request cycle of __async_req and the wait after it (dnet/client.c).

A request is tried again while the server answers that it does not know the
user. Any other answer ends the cycle, and what the coroutine does next depends
on the packet and on the responses that are there, not on the answer. While a
try waits for its answer the handler may run on messages of users.
-/

set_option autoImplicit false

namespace Dcn

def registerWaiter (session : Session) (pack : Packet) : Session :=
  if pack.skipsWait then session
  else if mapIn session.usrWaiters pack.toUid then session
  else { session with usrWaiters := mapSet session.usrWaiters pack.toUid ⟨false, false⟩ }

/-- What comes in during one try: the messages of users handled before the
answer, and the answer of the server with its code. The worker leaves some
fields of it as its stack had them: they are those of `reply`. `answer` is what
the stack of the coroutine holds, and `past` what lies behind the data. -/
structure Tried where
  messages : List Packet
  users : ∀ pack ∈ messages, pack.fromOs ≠ 0
  reply : Packet
  plain : reply.packtype ≠ .traceroute
  code : UInt32
  answer : Packet
  past : Block

def Tried.arrives (tried : Tried) (cliUid muid : UInt64) : Packet :=
  { tried.reply with fromOs := 0, fromUid := 0, toUid := cliUid, muid := muid, data := intBytes tried.code.toNat }

/-- One pass of the request cycle: the code read, the packet as it was filled in
and the session left. None while the answer's waiter is not set. -/
def requestTry (undecoded : Undecoded) (session : Session) (pack : Packet) (tried : Tried) :
    Option (RespCode × Packet × Session) :=
  let (pack, session) := dcnRequest session pack pack.toUid
  let session := tried.messages.foldl (onPacket undecoded) session
  let session := onPacket undecoded session (tried.arrives session.cliUid pack.muid)
  (waitResponse session pack.muid).map fun session =>
    let got := dcnGetresp session pack.muid tried.answer tried.past
    (got.rcode, pack, got.session)

def requestCycle (undecoded : Undecoded) (session : Session) (pack : Packet) : List Tried → Option (Packet × Session)
  | [] => none
  | tried :: rest =>
    match requestTry undecoded session pack tried with
    | none => none
    | some (rcode, pack, session) =>
      if rcode ≠ .noSuchUser then some (pack, session) else requestCycle undecoded session pack rest

def searchResponse (session : Session) (pack : Packet) : Option Packet :=
  (mapAt session.usrResponses pack.toUid).bind fun lcUrsp => (mapAt lcUrsp.responses pack.cmuid).map copyPacket

inductive ReqOutcome where
  | trying
  | waits
  | returned (answer : Option Packet)
  deriving DecidableEq

def asyncReq (undecoded : Undecoded) (session : Session) (pack : Packet) (tries : List Tried) : ReqOutcome :=
  match requestCycle undecoded (registerWaiter session pack) pack tries with
  | none => .trying
  | some (pack, session) =>
    if pack.skipsWait then .returned none
    else if responseExists session.usrResponses pack.toUid then .returned (searchResponse session pack)
    else if mapIn session.usrWaiters pack.toUid then .waits
    else .returned (searchResponse session pack)

structure ReturnsRefused (outcome : ReqOutcome) (code : UInt32) : Prop where
  waits : outcome = .waits → code = 200
  returns : code ≠ 200 → ∃ answer, outcome = .returned answer

def Tried.Responds (cliUid uid : UInt64) (tried : Tried) : Prop :=
  ∃ pack ∈ tried.messages, pack.toUid = cliUid ∧ pack.fromUid = uid ∧ pack.packtype = .response

def ResponseComes (session : Session) (pack : Packet) (tries : List Tried) : Prop :=
  responseExists session.usrResponses pack.toUid = true ∨
    ∃ tried ∈ tries, tried.Responds session.cliUid pack.toUid

section Messages

variable (undecoded : Undecoded) (session : Session) {pack : Packet}

theorem responseExists_storeUser (usrResponses : Map UInt64 UsrResp) (uid : UInt64) :
    responseExists (storeUser usrResponses pack) uid = true ↔
      responseExists usrResponses uid = true ∨ (pack.fromUid = uid ∧ pack.packtype = .response) := by
  unfold storeUser responseExists
  by_cases own : pack.fromUid = uid
  · subst own
    rw [Map.mapAt_mapSet_self]
    by_cases response : pack.packtype = .response
    · simp [response, Map.mapEmpty_mapSet]
    · cases mapAt usrResponses pack.fromUid <;> simp [response, mapEmpty, mapInit]
  · rw [Map.mapAt_mapSet_of_ne _ _ (Ne.symm own)]
    simp [own]

theorem mapIn_wakeUser (usrWaiters : Map UInt64 UsrWaiter) (uid : UInt64) :
    mapIn (wakeUser usrWaiters pack) uid = mapIn usrWaiters uid := by
  unfold wakeUser
  cases found : mapAt usrWaiters pack.fromUid with
  | none => rfl
  | some waiter =>
    by_cases own : uid = pack.fromUid
    · rw [own, mapIn, mapIn, Map.mapAt_mapSet_self, found]
      rfl
    · rw [mapIn, mapIn, Map.mapAt_mapSet_of_ne _ _ own]

structure SameWaiters (before after : Session) : Prop where
  cliUid : after.cliUid = before.cliUid
  usrWaiters : ∀ uid, mapIn after.usrWaiters uid = mapIn before.usrWaiters uid

theorem SameWaiters.rfl (session : Session) : SameWaiters session session := ⟨.refl _, fun _ => .refl _⟩

theorem SameWaiters.trans {first second third : Session} (left : SameWaiters first second)
    (right : SameWaiters second third) : SameWaiters first third :=
  ⟨right.cliUid.trans left.cliUid, fun uid => (right.usrWaiters uid).trans (left.usrWaiters uid)⟩

theorem onPacket_user (user : pack.fromOs ≠ 0) :
    (onPacket undecoded session pack).cndResponses = session.cndResponses ∧
      SameWaiters session (onPacket undecoded session pack) ∧ ∀ uid,
        (responseExists (onPacket undecoded session pack).usrResponses uid = true ↔
          responseExists session.usrResponses uid = true ∨
            (pack.toUid = session.cliUid ∧ pack.fromUid = uid ∧ pack.packtype = .response)) := by
  by_cases addressed : pack.toUid = session.cliUid
  · have same : onPacket undecoded session pack = onUserMessage session pack := by
      simp [onPacket, addressed, user]
    rw [same]
    refine ⟨rfl, ⟨rfl, mapIn_wakeUser session.usrWaiters⟩, fun uid => ?_⟩
    rw [onUserMessage, responseExists_storeUser]
    simp [addressed]
  · have same : onPacket undecoded session pack = session := by simp [onPacket, addressed]
    rw [same]
    exact ⟨rfl, .rfl session, by simp [addressed]⟩

theorem onPacket_users {messages : List Packet} (users : ∀ pack ∈ messages, pack.fromOs ≠ 0) :
    (messages.foldl (onPacket undecoded) session).cndResponses = session.cndResponses ∧
      SameWaiters session (messages.foldl (onPacket undecoded) session) ∧
      ∀ uid, (responseExists (messages.foldl (onPacket undecoded) session).usrResponses uid = true ↔
        responseExists session.usrResponses uid = true ∨
          ∃ pack ∈ messages, pack.toUid = session.cliUid ∧ pack.fromUid = uid ∧ pack.packtype = .response) := by
  induction messages generalizing session with
  | nil => exact ⟨rfl, .rfl session, by simp⟩
  | cons pack rest ih =>
    obtain ⟨waiters, here, response⟩ := onPacket_user undecoded session
      (users pack List.mem_cons_self)
    obtain ⟨kept, later, responses⟩ := ih (onPacket undecoded session pack)
      fun other member => users other (List.mem_cons_of_mem _ member)
    refine ⟨kept.trans waiters, here.trans later, fun uid => ?_⟩
    rw [List.foldl_cons, responses, response, here.cliUid, or_assoc]
    simp only [List.mem_cons, exists_eq_or_imp]

end Messages

section Cycle

variable (undecoded : Undecoded) (session : Session) {pack : Packet}

theorem field_intBytes (code : UInt32) (past : Block) : Bytes.field 0 4 (intBytes code.toNat ++ past) = code.toNat := by
  rw [Bytes.field_append past (by simp), Bytes.field, List.drop_zero,
    List.take_of_length_le (by simp), intBytes, Bytes.value_little]
  exact Nat.mod_eq_of_lt code.toNat_lt

theorem waitResponse_arrives {muid : UInt64} (waits : mapIn session.cndResponses muid = true) (tried : Tried) :
    ∃ left, waitResponse (onPacket undecoded session (tried.arrives session.cliUid muid)) muid = some left ∧
      (dcnGetresp left muid tried.answer tried.past).rcode = .ofServer tried.code.toNat ∧
      (dcnGetresp left muid tried.answer tried.past).session.usrResponses = session.usrResponses ∧
      SameWaiters session (dcnGetresp left muid tried.answer tried.past).session := by
  have wakes : woken undecoded session (tried.arrives session.cliUid muid) = some muid :=
    (woken_eq_some_iff rfl).mpr ⟨rfl, fun trace => absurd trace tried.plain, waits, rfl⟩
  have handled : onPacket undecoded session (tried.arrives session.cliUid muid) =
      wakeAnswered { session with
        responses := mapSet session.responses muid (tried.arrives session.cliUid muid) } muid := by
    simp [onPacket, Tried.arrives, tried.plain]
  have stored : mapAt (onPacket undecoded session (tried.arrives session.cliUid muid)).responses muid =
      some (tried.arrives session.cliUid muid) := by
    rw [handled, wakeAnswered_eq, Map.mapAt_mapSet_self]
  refine ⟨_, waitResponse_woken wakes, ?_⟩
  simp only [dcnGetresp, stored]
  refine ⟨?_, ?_, ?_, fun uid => ?_⟩
  · simp only [Tried.arrives, ↓reduceIte, field_intBytes]
  all_goals rw [handled, wakeAnswered_eq]

theorem requestTry_spec (pack : Packet) (tried : Tried) :
    ∃ filled left, requestTry undecoded session pack tried = some (.ofServer tried.code.toNat, filled, left) ∧
      filled.toUid = pack.toUid ∧ filled.packtype = pack.packtype ∧ SameWaiters session left ∧
      ∀ uid, (responseExists left.usrResponses uid = true ↔
        responseExists session.usrResponses uid = true ∨ tried.Responds session.cliUid uid) := by
  have kept := onPacket_users undecoded (dcnRequest session pack pack.toUid).2 tried.users
  have waits : mapIn (tried.messages.foldl (onPacket undecoded) (dcnRequest session pack pack.toUid).2).cndResponses
      session.lastMuid = true := by
    rw [kept.1, mapIn, dcnRequest, Map.mapAt_mapSet_self]
    rfl
  have asked : SameWaiters session (dcnRequest session pack pack.toUid).2 := ⟨rfl, fun _ => rfl⟩
  obtain ⟨left, woke, code, responses, same⟩ :=
    waitResponse_arrives undecoded _ waits tried
  refine ⟨(dcnRequest session pack pack.toUid).1, (dcnGetresp left session.lastMuid tried.answer tried.past).session,
    ?_, rfl, rfl, asked.trans (kept.2.1.trans same), fun uid => ?_⟩
  · simp only [requestTry]
    rw [show (dcnRequest session pack pack.toUid).1.muid = session.lastMuid from rfl, woke, Option.map_some, code]
  · rw [responses, kept.2.2 uid]
    rfl

theorem requestCycle_spec (pack : Packet) (before : List Tried) (last : Tried)
    (unknown : ∀ tried ∈ before, RespCode.ofServer tried.code.toNat = .noSuchUser)
    (known : RespCode.ofServer last.code.toNat ≠ .noSuchUser) :
    ∃ filled left, requestCycle undecoded session pack (before ++ [last]) = some (filled, left) ∧
      filled.toUid = pack.toUid ∧ filled.packtype = pack.packtype ∧ SameWaiters session left ∧
      ∀ uid, (responseExists left.usrResponses uid = true ↔
        responseExists session.usrResponses uid = true ∨
          ∃ tried ∈ before ++ [last], tried.Responds session.cliUid uid) := by
  induction before generalizing session pack with
  | nil =>
    obtain ⟨filled, left, returns, toUid, packtype, same, responses⟩ :=
      requestTry_spec undecoded session pack last
    refine ⟨filled, left, ?_, toUid, packtype, same, fun uid => ?_⟩
    · rw [List.nil_append, requestCycle, returns]
      exact if_pos known
    · rw [responses]
      simp
  | cons tried rest ih =>
    obtain ⟨filled, left, returns, toUid, packtype, same, responses⟩ :=
      requestTry_spec undecoded session pack tried
    obtain ⟨sent, after, ends, toUid', packtype', same', responses'⟩ :=
      ih left filled fun other member => unknown other (List.mem_cons_of_mem _ member)
    refine ⟨sent, after, ?_, toUid'.trans toUid, packtype'.trans packtype, same.trans same', fun uid => ?_⟩
    · rw [List.cons_append, requestCycle, returns]
      simp only [unknown tried List.mem_cons_self, ne_eq, not_true_eq_false, ↓reduceIte]
      exact ends
    · rw [responses', responses, same.cliUid, or_assoc]
      simp only [List.cons_append, List.mem_cons, exists_eq_or_imp]

theorem registerWaiter_spec (waits : pack.skipsWait = false) :
    (registerWaiter session pack).cliUid = session.cliUid ∧
      (registerWaiter session pack).usrResponses = session.usrResponses ∧
      mapIn (registerWaiter session pack).usrWaiters pack.toUid = true := by
  unfold registerWaiter
  by_cases present : mapIn session.usrWaiters pack.toUid = true
  · simp [waits, present]
  · simp only [waits, present, Bool.false_eq_true, ↓reduceIte]
    exact ⟨trivial, trivial, by rw [mapIn, Map.mapAt_mapSet_self, Option.isSome_some]⟩

end Cycle

section Outcome

variable (undecoded : Undecoded) (session : Session) (pack : Packet) (before : List Tried) (last : Tried)

/-- After its cycle a request that may wait does so unless a response of the
user is there, whatever the server answered. -/
theorem asyncReq_spec (plain : pack.skipsWait = false)
    (unknown : ∀ tried ∈ before, RespCode.ofServer tried.code.toNat = .noSuchUser)
    (known : RespCode.ofServer last.code.toNat ≠ .noSuchUser) :
    (asyncReq undecoded session pack (before ++ [last]) = .waits ∧ ¬ ResponseComes session pack (before ++ [last])) ∨
    ((∃ answer, asyncReq undecoded session pack (before ++ [last]) = .returned answer) ∧
      ResponseComes session pack (before ++ [last])) := by
  obtain ⟨uid, usrResponses, waiter⟩ := registerWaiter_spec session plain
  obtain ⟨filled, left, ends, toUid, packtype, same, responses⟩ :=
    requestCycle_spec undecoded (registerWaiter session pack) pack before last unknown known
  have skips : filled.skipsWait = false := by rw [← plain, Packet.skipsWait, Packet.skipsWait, packtype]
  have there : responseExists left.usrResponses pack.toUid = true ↔ ResponseComes session pack (before ++ [last]) := by
    rw [responses, usrResponses, uid]
    rfl
  rw [← there, asyncReq, ends]
  simp only [skips, Bool.false_eq_true, ↓reduceIte, toUid]
  by_cases present : responseExists left.usrResponses pack.toUid = true
  · simp [present]
  · simp [present, same.usrWaiters, waiter]

/-- A refused request returns exactly where a response of the user is there
already or comes in meanwhile. -/
theorem returnsRefused_iff (plain : pack.skipsWait = false)
    (unknown : ∀ tried ∈ before, RespCode.ofServer tried.code.toNat = .noSuchUser)
    (known : RespCode.ofServer last.code.toNat ≠ .noSuchUser) :
    ReturnsRefused (asyncReq undecoded session pack (before ++ [last])) last.code ↔
      last.code = 200 ∨ ResponseComes session pack (before ++ [last]) := by
  rcases asyncReq_spec undecoded session pack before last plain unknown known with
    ⟨waits, nothing⟩ | ⟨⟨answer, returns⟩, there⟩
  · constructor
    · exact fun kept => .inl (kept.waits waits)
    · rintro (accepted | there)
      · exact ⟨fun _ => accepted, fun refused => absurd accepted refused⟩
      · exact absurd there nothing
  · refine iff_of_true ⟨fun waits => ?_, fun _ => ⟨answer, returns⟩⟩ (.inr there)
    rw [returns] at waits
    cases waits

end Outcome

def triedOnce (code : UInt32) : Tried := ⟨[], by simp, packetInit [] 0 1 1, by decide, code, packetInit [] 0 0 0, []⟩

theorem returnsRefused_accepted : ReturnsRefused
    (asyncReq ⟨packetInit [] 0 0 0, ⟨0, 0, 0⟩⟩ (dcnNewSession 1) (packetInit [] 1 2 0) ([] ++ [triedOnce 200])) 200 :=
  (returnsRefused_iff _ (dcnNewSession 1) (packetInit [] 1 2 0) [] (triedOnce 200) (by decide) (by simp)
    (by decide)).mpr (.inl rfl)

/-- A request to the session's own UID is declined, and the coroutine waits. -/
theorem declined_waits : ¬ ReturnsRefused
    (asyncReq ⟨packetInit [] 0 0 0, ⟨0, 0, 0⟩⟩ (dcnNewSession 1) (packetInit [] 1 1 0) [triedOnce 102]) 102 := by
  intro kept
  exact absurd (kept.waits (by decide)) (by decide)

end Dcn
