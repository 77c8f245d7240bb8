import Dcn.Client.Mailbox
import Dcn.Client.Refusals

/-! Handlers and gatherers of a session at once (dnet/client.c).

Each access to usr_responses, to a waiter or to the mutex is a step of its own,
and any number of threads take them. A wait on a waiter and a set of it are one
step each. What is stored, what is popped and what the gatherers return are kept
as histories, which no step reads.
-/

set_option autoImplicit false

namespace Dcn

inductive GatherResult where
  | packet (pack : Packet)
  | timedOut
  | noWaiter
  | unlikely
  deriving DecidableEq, Repr

/-- The next step of a thread in the user branch of __dcn_on_message, in misc
gathering, or in gathering from one user. -/
inductive MailPc where
  | outside
  | lock (pack : Packet)
  | store (pack : Packet)
  | unlock (pack : Packet)
  | wakeUser (pack : Packet)
  | wakeMisc
  | waitMisc (hasTimeout : Bool)
  | measure
  | slot (i len : Nat)
  | lockSlot (i len : Nat) (waitFrom : UInt64)
  | popSlot (i len : Nat) (waitFrom : UInt64)
  | unlockSlot (i len : Nat) (answer : Option Packet)
  | findWaiter (fromUid : UInt64) (hasTimeout : Bool)
  | waitUser (fromUid : UInt64) (hasTimeout : Bool)
  | lockUser (fromUid : UInt64)
  | popUser (fromUid : UInt64)
  | unlockUser (result : GatherResult)
  deriving DecidableEq, Repr

/-- The session, who has usr_responses_mtx, where the threads are, the requests
stored and popped with the user they are from, and the results. -/
structure Gatherers (τ : Type) where
  session : Session
  usrResponsesMtx : Option τ
  pc : τ → MailPc
  stored : List (UInt64 × Block)
  popped : List (UInt64 × Block)
  results : List (τ × GatherResult)

/-- A thread starts to handle a packet from a user or to gather, takes its next
step, or gives up its wait; or a request registers the waiters of its peer. -/
inductive GatherersEvent (τ : Type) where
  | message (t : τ) (pack : Packet)
  | gather (t : τ) (fromUid : UInt64) (hasTimeout : Bool)
  | advance (t : τ)
  | timeout (t : τ)
  | register (pack : Packet)

namespace Gatherers

variable {τ : Type} [DecidableEq τ]

def init (τ : Type) (uid : UInt64) : Gatherers τ := ⟨dcnNewSession uid, none, fun _ => .outside, [], [], []⟩

def goto (s : Gatherers τ) (t : τ) (pc : MailPc) : Gatherers τ := { s with pc := Function.update s.pc t pc }

def finish (s : Gatherers τ) (t : τ) (result : GatherResult) : Gatherers τ :=
  { s with results := s.results ++ [(t, result)] }.goto t .outside

def lock (s : Gatherers τ) (t : τ) (pc : MailPc) : Gatherers τ :=
  if s.usrResponsesMtx = none then { s with usrResponsesMtx := some t }.goto t pc else s

def pop (s : Gatherers τ) (waitFrom : UInt64) : Option Packet × Gatherers τ :=
  match mapAt s.session.usrResponses waitFrom with
  | none => (none, s)
  | some lcUrsp =>
    match popBlock lcUrsp.requests with
    | (_, none, _) => (none, s)
    | (_, some block, requests) => (some (gathered block), { s with
        session := { s.session with
          usrResponses := mapSet s.session.usrResponses waitFrom { lcUrsp with requests := requests } }
        popped := s.popped ++ [(waitFrom, block)] })

def requestOf (pack : Packet) : List (UInt64 × Block) :=
  if pack.packtype ≠ .response then [(pack.fromUid, packetSerial pack)] else []

def advance (s : Gatherers τ) (t : τ) : Gatherers τ :=
  match s.pc t with
  | .outside => s
  | .lock pack => s.lock t (.store pack)
  | .store pack => { s with
      session := { s.session with usrResponses := storeUser s.session.usrResponses pack }
      stored := s.stored ++ requestOf pack }.goto t (.unlock pack)
  | .unlock pack => { s with usrResponsesMtx := none }.goto t (.wakeUser pack)
  | .wakeUser pack => { s with
      session := { s.session with usrWaiters := wakeUser s.session.usrWaiters pack } }.goto t
        (if pack.packtype ≠ PacketType.response then .wakeMisc else .outside)
  | .wakeMisc => { s with session := { s.session with reqWaiter := true } }.goto t .outside
  | .waitMisc _ =>
    if s.session.reqWaiter then { s with session := { s.session with reqWaiter := false } }.goto t .measure else s
  | .measure => s.goto t (.slot 0 s.session.usrResponses.entries.length)
  | .slot i len =>
    if i < len then
      match mapKeyAt s.session.usrResponses i with
      -- No user is ever erased, so the slot is there.
      | none => s.goto t (.slot (i + 1) len)
      | some waitFrom => s.goto t (.lockSlot i len waitFrom)
    else s.finish t .unlikely
  | .lockSlot i len waitFrom => s.lock t (.popSlot i len waitFrom)
  | .popSlot i len waitFrom => (s.pop waitFrom).2.goto t (.unlockSlot i len (s.pop waitFrom).1)
  | .unlockSlot i len none => { s with usrResponsesMtx := none }.goto t (.slot (i + 1) len)
  | .unlockSlot _ _ (some pack) => { s with usrResponsesMtx := none }.finish t (.packet pack)
  | .findWaiter fromUid hasTimeout =>
    match mapAt s.session.usrWaiters fromUid with
    | none => s.finish t .noWaiter
    | some _ => s.goto t (.waitUser fromUid hasTimeout)
  | .waitUser fromUid _ =>
    match mapAt s.session.usrWaiters fromUid with
    | none => s
    | some waiter =>
      if waiter.reqWaiter then { s with
        session := { s.session with
          usrWaiters := mapSet s.session.usrWaiters fromUid { waiter with reqWaiter := false } } }.goto t
            (.lockUser fromUid)
      else s
  | .lockUser fromUid => s.lock t (.popUser fromUid)
  | .popUser fromUid => (s.pop fromUid).2.goto t (.unlockUser (((s.pop fromUid).1.map .packet).getD .unlikely))
  | .unlockUser result => { s with usrResponsesMtx := none }.finish t result

/-- A wait with a timeout gives up while its flag is not set. -/
def timeout (s : Gatherers τ) (t : τ) : Gatherers τ :=
  match s.pc t with
  | .waitMisc true => if s.session.reqWaiter then s else s.finish t .timedOut
  | .waitUser fromUid true =>
    if (mapAt s.session.usrWaiters fromUid).any (·.reqWaiter) then s else s.finish t .timedOut
  | _ => s

def step (s : Gatherers τ) : GatherersEvent τ → Gatherers τ
  | .message t pack =>
    if s.pc t = .outside ∧ pack.toUid = s.session.cliUid ∧ pack.fromOs ≠ 0 then s.goto t (.lock pack) else s
  | .gather t fromUid hasTimeout =>
    if s.pc t = .outside then
      s.goto t (if fromUid = 0 then .waitMisc hasTimeout else .findWaiter fromUid hasTimeout)
    else s
  | .advance t => s.advance t
  | .timeout t => s.timeout t
  | .register pack => { s with session := registerWaiter s.session pack }

section Queues

def ofUser (uid : UInt64) (blocks : List (UInt64 × Block)) : List Block :=
  (blocks.filter fun b => b.1 = uid).map Prod.snd

def queueOf (usrResponses : Map UInt64 UsrResp) (uid : UInt64) : List Block :=
  ((mapAt usrResponses uid).map fun resp => resp.requests.blocks).getD []

inductive Change (s next : Gatherers τ) : Prop where
  | still (usrResponses : next.session.usrResponses = s.session.usrResponses) (stored : next.stored = s.stored)
      (popped : next.popped = s.popped)
  | store (pack : Packet) (usrResponses : next.session.usrResponses = storeUser s.session.usrResponses pack)
      (stored : next.stored = s.stored ++ requestOf pack) (popped : next.popped = s.popped)
  | pop (uid : UInt64) (resp : UsrResp) (block : Block) (rest : List Block)
      (found : mapAt s.session.usrResponses uid = some resp) (shape : resp.requests.blocks = block :: rest)
      (usrResponses : next.session.usrResponses =
        mapSet s.session.usrResponses uid { resp with requests := ⟨rest⟩ })
      (stored : next.stored = s.stored) (popped : next.popped = s.popped ++ [(uid, block)])

variable {s : Gatherers τ} {t : τ} {uid : UInt64}

theorem change_lock (pc : MailPc) : Change s (s.lock t pc) := by
  unfold lock
  split <;> exact .still rfl rfl rfl

theorem change_pop (waitFrom : UInt64) (pc : MailPc) : Change s ((s.pop waitFrom).2.goto t pc) := by
  cases found : mapAt s.session.usrResponses waitFrom with
  | none =>
    simp only [pop, found]
    exact .still rfl rfl rfl
  | some resp =>
    cases shape : resp.requests.blocks with
    | nil =>
      simp only [pop, found, popBlock_nil shape]
      exact .still rfl rfl rfl
    | cons block rest =>
      simp only [pop, found, popBlock_cons shape]
      exact .pop waitFrom resp block rest found shape rfl rfl rfl

theorem change_advance (s : Gatherers τ) (t : τ) : Change s (s.advance t) := by
  cases at_ : s.pc t with
  | lock pack | lockUser fromUid | lockSlot i len waitFrom =>
    simp only [advance, at_]
    exact change_lock _
  | store pack =>
    simp only [advance, at_]
    exact .store pack rfl rfl rfl
  | popSlot i len waitFrom | popUser fromUid =>
    simp only [advance, at_]
    exact change_pop _ _
  | unlockSlot i len answer =>
    cases answer <;> simp only [advance, at_] <;> exact .still rfl rfl rfl
  | waitMisc hasTimeout | findWaiter fromUid hasTimeout =>
    simp only [advance, at_]
    split <;> exact .still rfl rfl rfl
  | slot i len =>
    simp only [advance, at_]
    repeat' split
    all_goals exact .still rfl rfl rfl
  | waitUser fromUid hasTimeout =>
    simp only [advance, at_]
    repeat' split
    all_goals exact .still rfl rfl rfl
  | _ =>
    simp only [advance, at_]
    exact .still rfl rfl rfl

theorem change_step (s : Gatherers τ) (e : GatherersEvent τ) : Change s (s.step e) := by
  cases e with
  | message t pack =>
    simp only [step]
    split <;> exact .still rfl rfl rfl
  | gather t fromUid hasTimeout =>
    simp only [step]
    split <;> exact .still rfl rfl rfl
  | advance t => exact change_advance s t
  | timeout t =>
    simp only [step, timeout]
    repeat' split
    all_goals exact .still rfl rfl rfl
  | register pack =>
    simp only [step, registerWaiter]
    repeat' split
    all_goals exact .still rfl rfl rfl

omit [DecidableEq τ] in
@[simp] theorem ofUser_append (uid : UInt64) (first second : List (UInt64 × Block)) :
    ofUser uid (first ++ second) = ofUser uid first ++ ofUser uid second := by
  simp [ofUser]

omit [DecidableEq τ] in
theorem queueOf_mapSet (usrResponses : Map UInt64 UsrResp) (key uid : UInt64) (resp : UsrResp) :
    queueOf (mapSet usrResponses key resp) uid =
      if uid = key then resp.requests.blocks else queueOf usrResponses uid := by
  unfold queueOf
  rw [Map.mapAt_mapSet]
  split <;> rfl

omit [DecidableEq τ] in
theorem queueOf_storeUser (usrResponses : Map UInt64 UsrResp) (pack : Packet) (uid : UInt64) :
    queueOf (storeUser usrResponses pack) uid = queueOf usrResponses uid ++ ofUser uid (requestOf pack) := by
  have old : ((mapAt usrResponses pack.fromUid).getD ⟨queueInit, mapInit UInt64 Packet⟩).requests.blocks =
      queueOf usrResponses pack.fromUid := by
    unfold queueOf
    cases mapAt usrResponses pack.fromUid <;> rfl
  rw [storeUser, queueOf_mapSet]
  by_cases sender : uid = pack.fromUid
  · subst sender
    by_cases response : pack.packtype = .response
    · simp [response, requestOf, ofUser, old]
    · simp [response, requestOf, ofUser, old]
  · have other : ¬pack.fromUid = uid := Ne.symm sender
    by_cases response : pack.packtype = .response
    · simp [sender, response, requestOf, ofUser]
    · simp [sender, other, response, requestOf, ofUser]

theorem fifo_step (s : Gatherers τ) (e : GatherersEvent τ)
    (fifo : ∀ uid, ofUser uid s.popped ++ queueOf s.session.usrResponses uid = ofUser uid s.stored) (uid : UInt64) :
    ofUser uid (s.step e).popped ++ queueOf (s.step e).session.usrResponses uid = ofUser uid (s.step e).stored := by
  cases change_step s e with
  | still usrResponses stored popped => rw [usrResponses, stored, popped, fifo uid]
  | store pack usrResponses stored popped =>
    rw [usrResponses, stored, popped, queueOf_storeUser, ofUser_append, ← List.append_assoc, fifo uid]
  | pop key resp block rest found shape usrResponses stored popped =>
    rw [usrResponses, stored, popped, queueOf_mapSet, ofUser_append, ← fifo uid]
    have queue : queueOf s.session.usrResponses key = block :: rest := by
      simp only [queueOf, found, Option.map_some, Option.getD_some, shape]
    by_cases same : uid = key
    · subst same
      simp [queue, ofUser]
    · have other : ¬key = uid := Ne.symm same
      simp [same, other, ofUser]

end Queues

/-- Whatever the threads do, no request is lost, repeated or overtaken by a later
one of its sender. -/
theorem requests_fifo (uid : UInt64) (events : List (GatherersEvent τ)) (user : UInt64) :
    ofUser user (Runs.run step (init τ uid) events).popped ++
        queueOf (Runs.run step (init τ uid) events).session.usrResponses user =
      ofUser user (Runs.run step (init τ uid) events).stored := by
  have start : ∀ user, ofUser user (init τ uid).popped ++ queueOf (init τ uid).session.usrResponses user =
      ofUser user (init τ uid).stored := fun _ => rfl
  exact (Runs.throughout_of_preserved_all fifo_step start events).last user

end Gatherers

namespace MailPc

def gathers : MailPc → Bool
  | .waitMisc _ | .measure | .slot _ _ | .lockSlot _ _ _ | .popSlot _ _ _ | .unlockSlot _ _ _ => true
  | .findWaiter _ _ | .waitUser _ _ | .lockUser _ | .popUser _ | .unlockUser _ => true
  | _ => false

def wakes : MailPc → Bool
  | .unlock pack | .wakeUser pack => pack.packtype ≠ .response
  | .wakeMisc => true
  | _ => false

def granted : MailPc → Bool
  | .measure | .slot _ _ | .lockSlot _ _ _ | .popSlot _ _ _ | .unlockSlot _ _ none => true
  | _ => false

def answer : MailPc → List Packet
  | .unlockSlot _ _ (some pack) => [pack]
  | _ => []

def Ahead (usrResponses : Map UInt64 UsrResp) (i len : Nat) : Prop :=
  ∃ j uid, i ≤ j ∧ j < len ∧ mapKeyAt usrResponses j = some uid ∧ Gatherers.queueOf usrResponses uid ≠ []

/-- The search of misc gathering finds a request; nobody gathers from one user. -/
def Finds (usrResponses : Map UInt64 UsrResp) : MailPc → Prop
  | .slot i len => Ahead usrResponses i len
  | .lockSlot i len waitFrom | .popSlot i len waitFrom =>
    mapKeyAt usrResponses i = some waitFrom ∧ Ahead usrResponses i len
  | .unlockSlot i len none => Ahead usrResponses (i + 1) len
  | .findWaiter _ _ | .waitUser _ _ | .lockUser _ | .popUser _ | .unlockUser _ => False
  | _ => True

end MailPc

namespace Gatherers

variable {τ : Type} [DecidableEq τ]

def Alone (s : Gatherers τ) : GatherersEvent τ → Prop
  | .gather _ fromUid _ => fromUid = 0 ∧ ∀ u, (s.pc u).gathers = false
  | _ => True

def returned (results : List (τ × GatherResult)) : List Packet :=
  results.filterMap fun r => match r.2 with
    | .packet pack => some pack
    | _ => none

/-- For every set of req_waiter that was made or is to come there is a request
of its own, and one more for a gatherer past its wait. -/
def Enough (s : Gatherers τ) : Prop :=
  ∃ waking : Finset τ, (∀ t, (s.pc t).wakes = true → t ∈ waking) ∧
    s.popped.length + waking.card + s.session.reqWaiter.toNat ≤ s.stored.length ∧
    ∀ t, (s.pc t).granted = true →
      s.popped.length + waking.card + s.session.reqWaiter.toNat + 1 ≤ s.stored.length

structure Single (s : Gatherers τ) : Prop where
  alone : ∀ t u, (s.pc t).gathers = true → (s.pc u).gathers = true → t = u
  finds : ∀ t, (s.pc t).Finds s.session.usrResponses
  total : queuedRequests s.session.usrResponses + s.popped.length = s.stored.length
  enough : s.Enough
  results : ∀ r ∈ s.results, r.2 = .timedOut ∨ ∃ pack, r.2 = .packet pack
  returns : ∀ t, (s.pc t).gathers = true →
    returned s.results ++ (s.pc t).answer = s.popped.map fun b => gathered b.2
  idle : (∀ t, (s.pc t).gathers = false) → returned s.results = s.popped.map fun b => gathered b.2

section Moves

variable {s next : Gatherers τ} {t : τ} {pc : MailPc} {usrResponses : Map UInt64 UsrResp}

theorem all_update (holds : τ → MailPc → Prop) (pcs : next.pc = Function.update s.pc t pc) (here : holds t pc)
    (others : ∀ u, u ≠ t → holds u (s.pc u)) (u : τ) : holds u (next.pc u) := by
  rw [pcs]
  by_cases same : u = t
  · subst same
    rwa [Function.update_self]
  · rw [Function.update_of_ne same]
    exact others u same

omit [DecidableEq τ] in
theorem gathers_of_granted (granted : pc.granted = true) : pc.gathers = true := by
  cases pc <;> first | rfl | cases granted

omit [DecidableEq τ] in
theorem finds_of_not_gathers (outside : pc.gathers = false) : pc.Finds usrResponses := by
  cases pc <;> trivial

omit [DecidableEq τ] in
theorem returned_append (results more : List (τ × GatherResult)) :
    returned (results ++ more) = returned results ++ returned more :=
  List.filterMap_append

theorem Enough.move (enough : s.Enough) (pcs : next.pc = Function.update s.pc t pc)
    (flag : next.session.reqWaiter = s.session.reqWaiter) (stored : next.stored = s.stored)
    (popped : next.popped = s.popped) (wakes : pc.wakes = true → (s.pc t).wakes = true)
    (granted : pc.granted = true → (s.pc t).granted = true) : next.Enough := by
  obtain ⟨waking, inside, bound, more⟩ := enough
  refine ⟨waking, ?_, by rw [flag, stored, popped]; exact bound, ?_⟩
  · exact all_update (fun u pc => pc.wakes = true → u ∈ waking) pcs (fun w => inside t (wakes w)) fun u _ => inside u
  · rw [flag, stored, popped]
    exact all_update (fun _ pc => pc.granted = true → _) pcs (fun g => more t (granted g)) fun u _ => more u

theorem Single.move {place : MailPc} (single : s.Single) (at_ : s.pc t = place)
    (pcs : next.pc = Function.update s.pc t pc)
    (usrResponses : next.session.usrResponses = s.session.usrResponses)
    (flag : next.session.reqWaiter = s.session.reqWaiter) (stored : next.stored = s.stored)
    (popped : next.popped = s.popped) (results : next.results = s.results)
    (gathers : pc.gathers = place.gathers) (answer : pc.answer = place.answer)
    (wakes : pc.wakes = true → place.wakes = true) (granted : pc.granted = true → place.granted = true)
    (finds : pc.Finds s.session.usrResponses) : next.Single := by
  subst at_
  have same := all_update (fun u pc => pc.gathers = (s.pc u).gathers ∧ pc.answer = (s.pc u).answer) pcs
    ⟨gathers, answer⟩ fun u _ => ⟨rfl, rfl⟩
  refine ⟨fun a b first second => ?_, ?_, ?_, single.enough.move pcs flag stored popped wakes granted, ?_,
    fun u there => ?_, fun nobody => ?_⟩
  · exact single.alone a b ((same a).1.symm.trans first) ((same b).1.symm.trans second)
  · rw [usrResponses]
    exact all_update (fun _ pc => pc.Finds s.session.usrResponses) pcs finds fun u _ => single.finds u
  · rw [usrResponses, popped, stored]
    exact single.total
  · rw [results]
    exact single.results
  · rw [results, popped, (same u).2]
    exact single.returns u ((same u).1.symm.trans there)
  · rw [results, popped]
    exact single.idle fun u => (same u).1.symm.trans (nobody u)

theorem Single.finish (single : s.Single) (here : (s.pc t).gathers = true) {result : GatherResult} {mtx : Option τ}
    (fine : result = .timedOut ∨ ∃ pack, result = .packet pack) (same : returned [(t, result)] = (s.pc t).answer) :
    ({ s with usrResponsesMtx := mtx }.finish t result).Single := by
  have pcs : ({ s with usrResponsesMtx := mtx }.finish t result).pc = Function.update s.pc t .outside := rfl
  have nobody : ∀ u, (({ s with usrResponsesMtx := mtx }.finish t result).pc u).gathers = false := by
    refine all_update (fun _ pc => pc.gathers = false) pcs rfl fun u other => ?_
    exact Bool.eq_false_iff.mpr fun there => other (single.alone u t there here)
  refine ⟨fun a b first => ?_, fun u => finds_of_not_gathers (nobody u), single.total,
    single.enough.move pcs rfl rfl rfl (fun w => by cases w) (fun g => by cases g), fun r member => ?_,
    fun u there => ?_, fun _ => ?_⟩
  · rw [nobody a] at first
    cases first
  · rcases List.mem_append.mp member with old | new
    · exact single.results r old
    · cases List.mem_singleton.mp new
      exact fine
  · rw [nobody u] at there
    cases there
  · have before := single.returns t here
    exact (returned_append ..).trans (same ▸ before)

end Moves

section Steps

variable {s : Gatherers τ} {t : τ}

omit [DecidableEq τ] in
theorem mapKeyAt_mapSet {usrResponses : Map UInt64 UsrResp} {j : Nat} {uid : UInt64} (key : UInt64) (resp : UsrResp)
    (slot : mapKeyAt usrResponses j = some uid) : mapKeyAt (mapSet usrResponses key resp) j = some uid := by
  have keys : (usrResponses.entries.map Prod.fst)[j]? = some uid := by rwa [List.getElem?_map]
  show (Map.setEntries key resp usrResponses.entries)[j]?.map Prod.fst = some uid
  rw [← List.getElem?_map, Map.keys_setEntries]
  split
  · exact keys
  · obtain ⟨bound, -⟩ := List.getElem?_eq_some_iff.mp keys
    rwa [List.getElem?_append_left bound]

omit [DecidableEq τ] in
theorem ahead_storeUser {usrResponses : Map UInt64 UsrResp} {i len : Nat} (pack : Packet)
    (ahead : MailPc.Ahead usrResponses i len) : MailPc.Ahead (storeUser usrResponses pack) i len := by
  obtain ⟨j, uid, past, bound, slot, queue⟩ := ahead
  refine ⟨j, uid, past, bound, mapKeyAt_mapSet _ _ slot, ?_⟩
  rw [queueOf_storeUser]
  simp [queue]

omit [DecidableEq τ] in
theorem finds_storeUser {usrResponses : Map UInt64 UsrResp} {pc : MailPc} (pack : Packet)
    (finds : pc.Finds usrResponses) : pc.Finds (storeUser usrResponses pack) := by
  cases pc with
  | slot i len => exact ahead_storeUser pack finds
  | lockSlot i len waitFrom | popSlot i len waitFrom =>
    exact ⟨mapKeyAt_mapSet _ _ finds.1, ahead_storeUser pack finds.2⟩
  | unlockSlot i len answer =>
    cases answer with
    | none => exact ahead_storeUser pack finds
    | some _ => trivial
  | _ => exact finds

omit [DecidableEq τ] in
theorem setEntries_fresh {key : UInt64} {entries : List (UInt64 × UsrResp)} (resp : UsrResp)
    (fresh : ∀ e ∈ entries, e.1 ≠ key) : Map.setEntries key resp entries = entries ++ [(key, resp)] := by
  induction entries with
  | nil => rfl
  | cons e rest ih =>
    rw [Map.setEntries, if_neg (fresh e List.mem_cons_self), ih fun e member => fresh e (List.mem_cons_of_mem _ member)]
    rfl

omit [DecidableEq τ] in
theorem queuedRequests_mapSet (usrResponses : Map UInt64 UsrResp) (key : UInt64) (resp : UsrResp) :
    queuedRequests (mapSet usrResponses key resp) + (queueOf usrResponses key).length =
      queuedRequests usrResponses + resp.requests.blocks.length := by
  cases found : mapAt usrResponses key with
  | some old =>
    have total := Map.sum_mapSet (fun e => e.2.requests.blocks.length) resp found
    simpa only [queueOf, found, Option.map_some, Option.getD_some, queuedRequests] using total
  | none =>
    have fresh : ∀ e ∈ usrResponses.entries, e.1 ≠ key := by
      rintro ⟨k, v⟩ member rfl
      rw [Map.mapAt_eq_some_iff.mpr member] at found
      cases found
    have appended : (mapSet usrResponses key resp).entries = usrResponses.entries ++ [(key, resp)] :=
      setEntries_fresh resp fresh
    simp [queueOf, found, queuedRequests, appended]

omit [DecidableEq τ] in
theorem queuedRequests_storeUser (usrResponses : Map UInt64 UsrResp) (pack : Packet) :
    queuedRequests (storeUser usrResponses pack) = queuedRequests usrResponses + (requestOf pack).length := by
  have queue := queueOf_storeUser usrResponses pack pack.fromUid
  have own : (ofUser pack.fromUid (requestOf pack)).length = (requestOf pack).length := by
    by_cases response : pack.packtype = .response <;> simp [requestOf, ofUser, response]
  obtain ⟨resp, stores⟩ : ∃ resp, storeUser usrResponses pack = mapSet usrResponses pack.fromUid resp := ⟨_, rfl⟩
  rw [stores] at queue ⊢
  rw [queueOf_mapSet, if_pos rfl] at queue
  have total := queuedRequests_mapSet usrResponses pack.fromUid resp
  rw [queue, List.length_append, own] at total
  omega

theorem single_store (single : s.Single) {pack : Packet} (at_ : s.pc t = .store pack) : (s.advance t).Single := by
  have result : s.advance t = { s with
      session := { s.session with usrResponses := storeUser s.session.usrResponses pack }
      stored := s.stored ++ requestOf pack }.goto t (.unlock pack) := by
    simp only [advance, at_]
  have pcs : (s.advance t).pc = Function.update s.pc t (.unlock pack) := by
    rw [result]
    rfl
  have same := all_update (fun u pc => pc.gathers = (s.pc u).gathers ∧ pc.answer = (s.pc u).answer) pcs
    (by rw [at_]; exact ⟨rfl, rfl⟩) fun u _ => ⟨rfl, rfl⟩
  have finds := all_update (fun _ pc => pc.Finds (storeUser s.session.usrResponses pack)) pcs trivial
    fun u _ => finds_storeUser pack (single.finds u)
  have enough : (s.advance t).Enough := by
    obtain ⟨waking, inside, bound, more⟩ := single.enough
    have wider : (if pack.packtype = .response then waking else insert t waking).card ≤
        waking.card + (requestOf pack).length := by
      by_cases response : pack.packtype = .response
      · simp [response]
      · simpa [response, requestOf] using Finset.card_insert_le t waking
    refine ⟨if pack.packtype = .response then waking else insert t waking, ?_, ?_, ?_⟩
    · refine all_update (fun u pc => pc.wakes = true → u ∈ _) pcs (fun wakes => ?_) fun u _ wakes => ?_
      · have request : pack.packtype ≠ .response := of_decide_eq_true wakes
        rw [if_neg request]
        exact Finset.mem_insert_self t waking
      · split
        · exact inside u wakes
        · exact Finset.mem_insert_of_mem (inside u wakes)
    · rw [result]
      simp only [goto, List.length_append]
      omega
    · refine all_update (fun _ pc => pc.granted = true → _) pcs (fun granted => by cases granted) fun u _ granted => ?_
      have before := more u granted
      rw [result]
      simp only [goto, List.length_append]
      omega
  rw [result] at enough finds same ⊢
  refine ⟨fun a b first second => ?_, finds, ?_, enough, single.results, fun u there => ?_, fun nobody => ?_⟩
  · exact single.alone a b ((same a).1.symm.trans first) ((same b).1.symm.trans second)
  · have total := single.total
    have grows := queuedRequests_storeUser s.session.usrResponses pack
    simp only [goto, List.length_append]
    omega
  · rw [(same u).2]
    exact single.returns u ((same u).1.symm.trans there)
  · exact single.idle fun u => (same u).1.symm.trans (nobody u)

theorem single_wakeMisc (single : s.Single) (at_ : s.pc t = .wakeMisc) : (s.advance t).Single := by
  have result : s.advance t = { s with session := { s.session with reqWaiter := true } }.goto t .outside := by
    simp only [advance, at_]
  have pcs : (s.advance t).pc = Function.update s.pc t .outside := by
    rw [result]
    rfl
  have same := all_update (fun u pc => pc.gathers = (s.pc u).gathers ∧ pc.answer = (s.pc u).answer) pcs
    (by rw [at_]; exact ⟨rfl, rfl⟩) fun u _ => ⟨rfl, rfl⟩
  have finds := all_update (fun _ pc => pc.Finds s.session.usrResponses) pcs trivial fun u _ => single.finds u
  have enough : (s.advance t).Enough := by
    obtain ⟨waking, inside, bound, more⟩ := single.enough
    have fewer := Finset.card_erase_add_one (inside t (by rw [at_]; rfl))
    refine ⟨waking.erase t, ?_, ?_, ?_⟩
    · refine all_update (fun u pc => pc.wakes = true → u ∈ waking.erase t) pcs (fun wakes => by cases wakes)
        fun u other wakes => ?_
      exact Finset.mem_erase.mpr ⟨other, inside u wakes⟩
    · rw [result]
      simp only [goto, Bool.toNat_true]
      omega
    · refine all_update (fun _ pc => pc.granted = true → _) pcs (fun granted => by cases granted) fun u _ granted => ?_
      have before := more u granted
      rw [result]
      simp only [goto, Bool.toNat_true]
      omega
  rw [result] at enough finds same ⊢
  refine ⟨fun a b first second => ?_, finds, single.total, enough, single.results, fun u there => ?_, fun nobody => ?_⟩
  · exact single.alone a b ((same a).1.symm.trans first) ((same b).1.symm.trans second)
  · rw [(same u).2]
    exact single.returns u ((same u).1.symm.trans there)
  · exact single.idle fun u => (same u).1.symm.trans (nobody u)

/-- The gatherer that finds the flag set has a request of its own. -/
theorem single_waitMisc (single : s.Single) {hasTimeout : Bool} (at_ : s.pc t = .waitMisc hasTimeout) :
    (s.advance t).Single := by
  cases flag : s.session.reqWaiter with
  | false =>
    have idle : s.advance t = s := by
      simp only [advance, at_, flag, Bool.false_eq_true, ↓reduceIte]
    rwa [idle]
  | true =>
    have result : s.advance t = { s with session := { s.session with reqWaiter := false } }.goto t .measure := by
      simp only [advance, at_, flag, ↓reduceIte]
    have pcs : (s.advance t).pc = Function.update s.pc t .measure := by
      rw [result]
      rfl
    have same := all_update (fun u pc => pc.gathers = (s.pc u).gathers ∧ pc.answer = (s.pc u).answer) pcs
      (by rw [at_]; exact ⟨rfl, rfl⟩) fun u _ => ⟨rfl, rfl⟩
    have finds := all_update (fun _ pc => pc.Finds s.session.usrResponses) pcs trivial fun u _ => single.finds u
    have enough : (s.advance t).Enough := by
      obtain ⟨waking, inside, bound, -⟩ := single.enough
      rw [flag, Bool.toNat_true] at bound
      refine ⟨waking, ?_, ?_, ?_⟩
      · exact all_update (fun u pc => pc.wakes = true → u ∈ waking) pcs (fun wakes => by cases wakes)
          fun u _ => inside u
      · rw [result]
        simp only [goto, Bool.toNat_false]
        omega
      · intro u _
        rw [result]
        simp only [goto, Bool.toNat_false]
        omega
    rw [result] at enough finds same ⊢
    refine ⟨fun a b first second => ?_, finds, single.total, enough, single.results, fun u there => ?_,
      fun nobody => ?_⟩
    · exact single.alone a b ((same a).1.symm.trans first) ((same b).1.symm.trans second)
    · rw [(same u).2]
      exact single.returns u ((same u).1.symm.trans there)
    · exact single.idle fun u => (same u).1.symm.trans (nobody u)

omit [DecidableEq τ] in
theorem slot_of_le {usrResponses : Map UInt64 UsrResp} {i j : Nat} {uid : UInt64} (le : i ≤ j)
    (slot : mapKeyAt usrResponses j = some uid) : ∃ waitFrom, mapKeyAt usrResponses i = some waitFrom := by
  obtain ⟨e, there, -⟩ := Option.map_eq_some_iff.mp slot
  obtain ⟨bound, -⟩ := List.getElem?_eq_some_iff.mp there
  have inside : i < usrResponses.entries.length := by omega
  exact ⟨usrResponses.entries[i].1, by rw [mapKeyAt, List.getElem?_eq_getElem inside]; rfl⟩

omit [DecidableEq τ] in
theorem ahead_of_enough (single : s.Single) (granted : (s.pc t).granted = true) :
    MailPc.Ahead s.session.usrResponses 0 s.session.usrResponses.entries.length := by
  obtain ⟨waking, -, -, more⟩ := single.enough
  have total := single.total
  have positive : queuedRequests s.session.usrResponses ≠ 0 := by
    have := more t granted
    omega
  obtain ⟨e, member, waits⟩ : ∃ e ∈ s.session.usrResponses.entries, e.2.requests.blocks ≠ [] := by
    by_contra none
    refine positive (List.sum_eq_zero fun n isLength => ?_)
    obtain ⟨e, member, rfl⟩ := List.mem_map.mp isLength
    by_contra some
    exact none ⟨e, member, fun empty => some (by rw [empty]; rfl)⟩
  obtain ⟨j, bound, slot⟩ := List.mem_iff_getElem.mp member
  refine ⟨j, e.1, Nat.zero_le j, bound, ?_, ?_⟩
  · rw [mapKeyAt, List.getElem?_eq_getElem bound, slot]
    rfl
  · have found : mapAt s.session.usrResponses e.1 = some e.2 := Map.mapAt_eq_some_iff.mpr member
    simpa only [queueOf, found, Option.map_some, Option.getD_some] using waits

omit [DecidableEq τ] in
theorem ahead_succ {usrResponses : Map UInt64 UsrResp} {i len : Nat} {waitFrom : UInt64}
    (ahead : MailPc.Ahead usrResponses i len) (here : mapKeyAt usrResponses i = some waitFrom)
    (empty : queueOf usrResponses waitFrom = []) : MailPc.Ahead usrResponses (i + 1) len := by
  obtain ⟨j, uid, past, bound, slot, queue⟩ := ahead
  have other : j ≠ i := by
    rintro rfl
    rw [slot, Option.some.injEq] at here
    exact queue (here ▸ empty)
  exact ⟨j, uid, by omega, bound, slot, queue⟩

theorem single_popped (single : s.Single) {i len : Nat} {waitFrom : UInt64} {resp : UsrResp} {block : Block}
    {rest : List Block} (at_ : s.pc t = .popSlot i len waitFrom)
    (found : mapAt s.session.usrResponses waitFrom = some resp) (shape : resp.requests.blocks = block :: rest) :
    ({ s with
      session := { s.session with
        usrResponses := mapSet s.session.usrResponses waitFrom { resp with requests := ⟨rest⟩ } }
      popped := s.popped ++ [(waitFrom, block)] }.goto t (.unlockSlot i len (some (gathered block)))).Single := by
  have here : (s.pc t).gathers = true := by rw [at_]; rfl
  have only : ∀ u, u ≠ t → (s.pc u).gathers = false :=
    fun u other => Bool.eq_false_iff.mpr fun there => other (single.alone u t there here)
  generalize isNext : ({ s with
    session := { s.session with
      usrResponses := mapSet s.session.usrResponses waitFrom { resp with requests := ⟨rest⟩ } }
    popped := s.popped ++ [(waitFrom, block)] }.goto t (.unlockSlot i len (some (gathered block)))) = next
  have pcs : next.pc = Function.update s.pc t (.unlockSlot i len (some (gathered block))) := by
    rw [← isNext]
    rfl
  have gathers := all_update (fun u pc => pc.gathers = (s.pc u).gathers) pcs here.symm fun u _ => rfl
  have places := all_update (fun u pc => pc.gathers = true → pc = .unlockSlot i len (some (gathered block))) pcs
    (fun _ => rfl) fun u other there => by rw [only u other] at there; cases there
  obtain ⟨waking, inside, -, more⟩ := single.enough
  have room := more t (by rw [at_]; rfl)
  refine ⟨fun a b first second => ?_, ?_, ?_, ⟨waking, ?_, ?_, ?_⟩, ?_, fun u there => ?_, fun nobody => ?_⟩
  · exact single.alone a b ((gathers a).symm.trans first) ((gathers b).symm.trans second)
  · refine all_update (fun _ pc => pc.Finds next.session.usrResponses) pcs trivial fun u other => ?_
    exact finds_of_not_gathers (only u other)
  · have total := single.total
    have taken := Mailbox.queuedRequests_taken found shape
    rw [← isNext]
    simp only [goto, List.length_append, List.length_singleton]
    omega
  · exact all_update (fun u pc => pc.wakes = true → u ∈ waking) pcs (fun wakes => by cases wakes) fun u _ => inside u
  · rw [← isNext]
    simp only [goto, List.length_append, List.length_singleton]
    omega
  · intro u granted
    rw [places u (gathers_of_granted granted)] at granted
    cases granted
  · rw [← isNext]
    exact single.results
  · have before := single.returns t here
    rw [at_] at before
    rw [places u there, ← isNext]
    simp only [goto, MailPc.answer, List.map_append, List.map_singleton] at before ⊢
    rw [← before, List.append_nil]
  · have idle := (gathers t).symm.trans (nobody t)
    rw [here] at idle
    cases idle

theorem single_popSlot (single : s.Single) {i len : Nat} {waitFrom : UInt64} (at_ : s.pc t = .popSlot i len waitFrom) :
    (s.advance t).Single := by
  have finds := single.finds t
  rw [at_] at finds
  have result : s.advance t = (s.pop waitFrom).2.goto t (.unlockSlot i len (s.pop waitFrom).1) := by
    simp only [advance, at_]
  rw [result]
  -- Nothing was popped, so the search goes on.
  have misses : s.pop waitFrom = (none, s) → queueOf s.session.usrResponses waitFrom = [] →
      ((s.pop waitFrom).2.goto t (.unlockSlot i len (s.pop waitFrom).1)).Single := by
    intro none empty
    rw [none]
    exact single.move at_ rfl rfl rfl rfl rfl rfl rfl rfl (fun wakes => by cases wakes) (fun _ => rfl)
      (ahead_succ finds.2 finds.1 empty)
  cases found : mapAt s.session.usrResponses waitFrom with
  | none => exact misses (by simp only [pop, found]) (by simp only [queueOf, found]; rfl)
  | some resp =>
    cases shape : resp.requests.blocks with
    | nil =>
      exact misses (by simp only [pop, found, popBlock_nil shape])
        (by simp only [queueOf, found, Option.map_some, Option.getD_some, shape])
    | cons block rest =>
      have pops : s.pop waitFrom = (some (gathered block), { s with
          session := { s.session with
            usrResponses := mapSet s.session.usrResponses waitFrom { resp with requests := ⟨rest⟩ } }
          popped := s.popped ++ [(waitFrom, block)] }) := by
        simp only [pop, found, popBlock_cons shape]
      rw [pops]
      exact single_popped single at_ found shape

end Steps

section Alone

variable {s : Gatherers τ} {t : τ}

theorem single_advance (single : s.Single) (t : τ) : (s.advance t).Single := by
  have finds := single.finds t
  cases at_ : s.pc t with
  | outside =>
    simp only [advance, at_]
    exact single
  | lock pack =>
    simp only [advance, at_, lock]
    split
    · exact single.move at_ rfl rfl rfl rfl rfl rfl rfl rfl (fun wakes => by cases wakes)
        (fun granted => by cases granted) trivial
    · exact single
  | store pack => exact single_store single at_
  | unlock pack =>
    simp only [advance, at_]
    exact single.move at_ rfl rfl rfl rfl rfl rfl rfl rfl id (fun granted => by cases granted) trivial
  | wakeUser pack =>
    simp only [advance, at_]
    by_cases response : pack.packtype = .response
    · rw [if_neg (not_not.mpr response)]
      exact single.move at_ rfl rfl rfl rfl rfl rfl rfl rfl (fun wakes => by cases wakes)
        (fun granted => by cases granted) trivial
    · rw [if_pos response]
      exact single.move at_ rfl rfl rfl rfl rfl rfl rfl rfl (fun _ => decide_eq_true response)
        (fun granted => by cases granted) trivial
  | wakeMisc => exact single_wakeMisc single at_
  | waitMisc hasTimeout => exact single_waitMisc single at_
  | measure =>
    simp only [advance, at_]
    exact single.move at_ rfl rfl rfl rfl rfl rfl rfl rfl (fun wakes => by cases wakes) (fun _ => rfl)
      (ahead_of_enough single (by rw [at_]; rfl))
  | slot i len =>
    rw [at_] at finds
    obtain ⟨j, uid, past, bound, slot, queue⟩ := id finds
    have more : i < len := by omega
    obtain ⟨waitFrom, here⟩ := slot_of_le past slot
    simp only [advance, at_, more, ↓reduceIte, here]
    exact single.move at_ rfl rfl rfl rfl rfl rfl rfl rfl (fun wakes => by cases wakes) (fun _ => rfl) ⟨here, finds⟩
  | lockSlot i len waitFrom =>
    rw [at_] at finds
    simp only [advance, at_, lock]
    split
    · exact single.move at_ rfl rfl rfl rfl rfl rfl rfl rfl (fun wakes => by cases wakes) (fun _ => rfl) finds
    · exact single
  | popSlot i len waitFrom => exact single_popSlot single at_
  | unlockSlot i len answer =>
    cases answer with
    | none =>
      rw [at_] at finds
      simp only [advance, at_]
      exact single.move at_ rfl rfl rfl rfl rfl rfl rfl rfl (fun wakes => by cases wakes) (fun _ => rfl) finds
    | some pack =>
      simp only [advance, at_]
      exact single.finish (by rw [at_]; rfl) (.inr ⟨pack, rfl⟩) (by rw [at_]; rfl)
  | findWaiter _ _ | waitUser _ _ | lockUser _ | popUser _ | unlockUser _ =>
    rw [at_] at finds
    exact finds.elim

theorem single_timeout (single : s.Single) (t : τ) : (s.timeout t).Single := by
  have finds := single.finds t
  unfold timeout
  split
  · next at_ =>
    split
    · exact single
    · exact single.finish (by rw [at_]; rfl) (.inl rfl) (by rw [at_]; rfl)
  · next fromUid at_ =>
    rw [at_] at finds
    exact finds.elim
  · exact single

theorem single_gather (single : s.Single) {hasTimeout : Bool} (nobody : ∀ u, (s.pc u).gathers = false) :
    (s.goto t (.waitMisc hasTimeout)).Single := by
  have pcs : (s.goto t (.waitMisc hasTimeout)).pc = Function.update s.pc t (.waitMisc hasTimeout) := rfl
  have places := all_update (fun u pc => pc.gathers = true → u = t ∧ pc = .waitMisc hasTimeout) pcs
    (fun _ => ⟨rfl, rfl⟩) fun u _ there => by rw [nobody u] at there; cases there
  have none := single.idle nobody
  refine ⟨fun a b first second => ?_, ?_, single.total, ?_, single.results, fun u there => ?_, fun idle => ?_⟩
  · exact (places a first).1.trans (places b second).1.symm
  · exact all_update (fun _ pc => pc.Finds s.session.usrResponses) pcs trivial fun u _ => single.finds u
  · exact single.enough.move pcs rfl rfl rfl (fun wakes => by cases wakes) fun granted => by cases granted
  · rw [(places u there).2]
    simpa [MailPc.answer, goto] using none
  · have here := idle t
    rw [pcs, Function.update_self] at here
    cases here

theorem single_step (s : Gatherers τ) (e : GatherersEvent τ) (single : s.Single) (alone : s.Alone e) :
    (s.step e).Single := by
  cases e with
  | message t pack =>
    simp only [step]
    split
    · next free =>
      exact single.move free.1 rfl rfl rfl rfl rfl rfl rfl rfl (fun wakes => by cases wakes)
        (fun granted => by cases granted) trivial
    · exact single
  | gather t fromUid hasTimeout =>
    obtain ⟨misc, nobody⟩ := alone
    simp only [step, misc, ↓reduceIte]
    split
    · exact single_gather single nobody
    · exact single
  | advance t => exact single_advance single t
  | timeout t => exact single_timeout single t
  | register pack =>
    have same : (registerWaiter s.session pack).usrResponses = s.session.usrResponses ∧
        (registerWaiter s.session pack).reqWaiter = s.session.reqWaiter := by
      unfold registerWaiter
      split_ifs <;> exact ⟨rfl, rfl⟩
    refine ⟨single.alone, ?_, ?_, ?_, single.results, single.returns, single.idle⟩
    · simp only [step, same.1]
      exact single.finds
    · simp only [step, same.1]
      exact single.total
    · simp only [Enough, step, same.2]
      exact single.enough

omit [DecidableEq τ] in
theorem single_init (uid : UInt64) : (init τ uid).Single where
  alone t u gathers := by cases gathers
  finds t := trivial
  total := rfl
  enough := by
    refine ⟨∅, fun t wakes => ?_, Nat.le_refl 0, fun t granted => ?_⟩
    · cases wakes
    · cases granted
  results r member := by cases member
  returns t gathers := by cases gathers
  idle _ := rfl

end Alone

def asks (fromUid : UInt64) : List (GatherersEvent Nat) :=
  .message 0 (unicastCopy (packetInit [] fromUid 7 0)) :: List.replicate 5 (.advance 0)

/-- The second gatherer takes the request for which the first was woken. -/
def overtaken : List (GatherersEvent Nat) :=
  asks 8 ++ .gather 1 0 false :: List.replicate 2 (.advance 1) ++ asks 9 ++
    .gather 2 0 false :: List.replicate 6 (.advance 2) ++ List.replicate 5 (.advance 1)

/-- While misc gatherers come one at a time, whatever handlers do meanwhile, each
of them times out or returns a packet, and the packets returned are those popped,
in order. Two at once may find nothing. -/
theorem returns_of_alone :
    (∀ (uid : UInt64) (events : List (GatherersEvent τ)), Runs.Along step Alone (init τ uid) events →
      (∀ r ∈ (Runs.run step (init τ uid) events).results, r.2 = .timedOut ∨ ∃ pack, r.2 = .packet pack) ∧
      ((∀ t, ((Runs.run step (init τ uid) events).pc t).gathers = false) →
        returned (Runs.run step (init τ uid) events).results =
          (Runs.run step (init τ uid) events).popped.map fun b => gathered b.2)) ∧
      (1, GatherResult.unlikely) ∈ (Runs.run step (init Nat 7) overtaken).results := by
  refine ⟨fun uid events alone => ?_, by decide⟩
  have single := (Runs.throughout_of_preserved single_step (single_init uid) alone).last
  exact ⟨single.results, single.idle⟩

def answered : List (GatherersEvent Nat) :=
  asks 8 ++ .gather 1 0 false :: List.replicate 6 (.advance 1)

theorem returns_of_alone_answered :
    returned (Runs.run step (init Nat 7) answered).results = [unicastCopy (packetInit [] 8 7 0)] := by
  have alone : Runs.Along step Alone (init Nat 7) answered := by
    apply Runs.along_append.mpr
    refine ⟨by repeat' constructor, ⟨rfl, fun u => ?_⟩, by repeat' constructor⟩
    match u with
    | 0 => rfl
    | _ + 1 => rfl
  have nobody : ∀ t, ((Runs.run step (init Nat 7) answered).pc t).gathers = false := by
    intro t
    match t with
    | 0 => rfl
    | 1 => rfl
    | _ + 2 => rfl
  have popped : (Runs.run step (init Nat 7) answered).popped.map (fun b => gathered b.2) =
      [unicastCopy (packetInit [] 8 7 0)] := by decide
  exact ((returns_of_alone.1 7 answered alone).2 nobody).trans popped

end Gatherers

end Dcn
