import Dcn.Client.Mailbox
import Dcn.Wire.Codec

/-! What the mailbox of a session gives back (dnet/client.c).

A request is serialised into its sender's queue when it is handled and decoded
when a gather takes it. For each sender, the requests gathered and the requests
that still wait are the ones handled, in the order they were handled.
-/

set_option autoImplicit false

namespace Dcn

def handledBy (session : Session) : MailboxEvent → List Packet
  | .message undecoded =>
    ((popBlock session.readq).2.1.map fun input => (packetDeserial input).getD undecoded.pack).toList
  | _ => []

def returnedBy (session : Session) : MailboxEvent → List Packet
  | .gather fromUid hasTimeout => ((asyncGrequests session fromUid hasTimeout).bind Prod.fst).toList
  | _ => []

def queuedFrom (usrResponses : Map UInt64 UsrResp) (uid : UInt64) : List Packet :=
  match mapAt usrResponses uid with
  | none => []
  | some targ => targ.requests.blocks.map gathered

def IsRequestOf (cliUid uid : UInt64) (pack : Packet) : Bool :=
  pack.fromOs ≠ 0 ∧ pack.toUid = cliUid ∧ pack.fromUid = uid ∧ pack.packtype ≠ .response

namespace Delivery

def Readable (block : Block) : Prop := block.length < sizeBound ∧ (packetDeserial block).isSome

/-- Blocks that arrive can be decoded; nothing is asked of the other events. -/
def Readable.event : MailboxEvent → Prop
  | .receive block => Readable block
  | _ => True

structure Intact (session : Session) : Prop where
  arrived : ∀ block ∈ session.readq.blocks, Readable block
  senders : ∀ uid targ, mapAt session.usrResponses uid = some targ → ∀ block ∈ targ.requests.blocks,
    ∃ pack : Packet, pack.Fits ∧ block = packetSerial pack ∧ pack.fromUid = uid

theorem gathered_serial {pack : Packet} (fits : pack.Fits) : gathered (packetSerial pack) = pack := by
  rw [gathered, fits.deserial_serial]
  rfl

section Store

variable {usrResponses : Map UInt64 UsrResp} {pack : Packet}

theorem queuedFrom_mapSet (uid key : UInt64) (targ : UsrResp) :
    queuedFrom (mapSet usrResponses key targ) uid =
      if uid = key then targ.requests.blocks.map gathered else queuedFrom usrResponses uid := by
  unfold queuedFrom
  rw [Map.mapAt_mapSet]
  by_cases same : uid = key <;> simp [same]

theorem queuedFrom_storeUser (fits : pack.Fits) (uid : UInt64) :
    queuedFrom (storeUser usrResponses pack) uid = queuedFrom usrResponses uid ++
      if pack.fromUid = uid ∧ pack.packtype ≠ .response then [pack] else [] := by
  unfold storeUser
  rw [queuedFrom_mapSet]
  by_cases same : uid = pack.fromUid
  · subst same
    have before : queuedFrom usrResponses pack.fromUid =
        ((mapAt usrResponses pack.fromUid).getD ⟨queueInit, mapInit UInt64 Packet⟩).requests.blocks.map
          gathered := by
      unfold queuedFrom
      cases mapAt usrResponses pack.fromUid <;> rfl
    rw [before]
    by_cases response : pack.packtype = .response <;> simp [response, gathered_serial fits]
  · have other : pack.fromUid ≠ uid := fun back => same back.symm
    simp [same, other]

theorem queuedFrom_taken {key : UInt64} {lcUrsp : UsrResp} {block : Block} {rest : List Block}
    (found : mapAt usrResponses key = some lcUrsp) (shape : lcUrsp.requests.blocks = block :: rest)
    (uid : UInt64) :
    (if key = uid then [gathered block] else []) ++
      queuedFrom (mapSet usrResponses key { lcUrsp with requests := ⟨rest⟩ }) uid =
    queuedFrom usrResponses uid := by
  rw [queuedFrom_mapSet]
  by_cases same : uid = key
  · subst same
    simp [queuedFrom, found, shape]
  · have other : key ≠ uid := fun back => same back.symm
    simp [same, other]

end Store

section Handler

variable {session : Session} {pack : Packet}

/-- The handler stores a packet for a user only where it is addressed to the
session and comes from a user; it reads `readq` and `cli_uid` only. -/
theorem onPacket_mailbox (undecoded : Undecoded) :
    (onPacket undecoded session pack).usrResponses =
        (if pack.toUid = session.cliUid ∧ pack.fromOs ≠ 0 then storeUser session.usrResponses pack
        else session.usrResponses) ∧
      (onPacket undecoded session pack).readq = session.readq ∧
      (onPacket undecoded session pack).cliUid = session.cliUid := by
  rcases onPacket_cases undecoded session pack with
    ⟨other, same⟩ | ⟨addressed, user, same⟩ | ⟨_, server, _, ⟨_, same⟩ | same⟩ | ⟨_, server, _, same⟩
  · rw [same, if_neg fun both => other both.1]
    exact ⟨rfl, rfl, rfl⟩
  · rw [same, if_pos ⟨addressed, user⟩]
    exact ⟨rfl, rfl, rfl⟩
  · rw [same, if_neg fun both => both.2 server]
    exact ⟨rfl, rfl, rfl⟩
  · rw [if_neg fun both => both.2 server, same, wakeAnswered_eq]
    exact ⟨rfl, rfl, rfl⟩
  · rw [if_neg fun both => both.2 server, same, wakeAnswered_eq]
    exact ⟨rfl, rfl, rfl⟩

theorem queuedFrom_onPacket (undecoded : Undecoded) (fits : pack.Fits) (uid : UInt64) :
    queuedFrom (onPacket undecoded session pack).usrResponses uid =
      queuedFrom session.usrResponses uid ++ [pack].filter (IsRequestOf session.cliUid uid) := by
  rw [(onPacket_mailbox undecoded).1]
  by_cases taken : pack.toUid = session.cliUid ∧ pack.fromOs ≠ 0
  · rw [if_pos taken, queuedFrom_storeUser fits]
    by_cases request : pack.fromUid = uid ∧ pack.packtype ≠ .response
    · simp [IsRequestOf, taken.1, taken.2, request.1, request.2]
    · have no : IsRequestOf session.cliUid uid pack = false := by
        simp only [IsRequestOf, decide_eq_false_iff_not]
        exact fun all => request ⟨all.2.2.1, all.2.2.2⟩
      rw [if_neg request]
      simp [no]
  · have no : IsRequestOf session.cliUid uid pack = false := by
      simp only [IsRequestOf, decide_eq_false_iff_not]
      exact fun all => taken ⟨all.2.1, all.1⟩
    rw [if_neg taken]
    simp [no]

theorem senders_storeUser (intact : Intact session) (fits : pack.Fits) :
    ∀ uid targ, mapAt (storeUser session.usrResponses pack) uid = some targ →
      ∀ block ∈ targ.requests.blocks, ∃ sent : Packet, sent.Fits ∧ block = packetSerial sent ∧ sent.fromUid = uid := by
  intro uid targ found block member
  unfold storeUser at found
  rw [Map.mapAt_mapSet] at found
  by_cases same : uid = pack.fromUid
  · rw [if_pos same, Option.some.injEq] at found
    -- The block was there before, or it is the packet just stored.
    have cases_of : block ∈
        ((mapAt session.usrResponses pack.fromUid).getD ⟨queueInit, mapInit UInt64 Packet⟩).requests.blocks ∨
        block = packetSerial pack := by
      subst found
      by_cases response : pack.packtype = .response
      · exact .inl (by simpa [response] using member)
      · simpa [response] using member
    rcases cases_of with old | new
    · cases stored : mapAt session.usrResponses pack.fromUid with
      | none =>
        rw [stored] at old
        cases old
      | some before =>
        rw [stored, Option.getD_some] at old
        rw [same]
        exact intact.senders _ _ stored block old
    · exact ⟨pack, fits, new, same.symm⟩
  · rw [if_neg same] at found
    exact intact.senders uid targ found block member

theorem intact_onPacket (intact : Intact session) (undecoded : Undecoded) (fits : pack.Fits) :
    Intact (onPacket undecoded session pack) := by
  obtain ⟨usrResponses, readq, _⟩ := @onPacket_mailbox session pack undecoded
  refine ⟨?_, ?_⟩
  · rw [readq]
    exact intact.arrived
  · rw [usrResponses]
    split
    · exact senders_storeUser intact fits
    · exact intact.senders

end Handler

section Gather

variable {session : Session}

theorem intact_taken {key : UInt64} {lcUrsp : UsrResp} {block : Block} {rest : List Block}
    {usrWaiters : Map UInt64 UsrWaiter} {reqWaiter : Bool} (intact : Intact session)
    (found : mapAt session.usrResponses key = some lcUrsp) (shape : lcUrsp.requests.blocks = block :: rest) :
    Intact { session with
      usrWaiters := usrWaiters
      reqWaiter := reqWaiter
      usrResponses := mapSet session.usrResponses key { lcUrsp with requests := ⟨rest⟩ } } := by
  refine ⟨intact.arrived, fun uid targ stored block member => ?_⟩
  rw [Map.mapAt_mapSet] at stored
  by_cases same : uid = key
  · subst same
    rw [if_pos rfl, Option.some.injEq] at stored
    subst stored
    exact intact.senders uid lcUrsp found block (shape ▸ List.mem_cons_of_mem _ member)
  · rw [if_neg same] at stored
    exact intact.senders uid targ stored block member

/-- What a gather does to the mailbox: nothing, or it returns the oldest request
of one user and takes it off that user's queue. -/
theorem gather_cases (session : Session) (fromUid : UInt64) (hasTimeout : Bool) :
    (returnedBy session (.gather fromUid hasTimeout) = [] ∧
      (mailboxStep session (.gather fromUid hasTimeout)).readq = session.readq ∧
      (mailboxStep session (.gather fromUid hasTimeout)).usrResponses = session.usrResponses ∧
      (mailboxStep session (.gather fromUid hasTimeout)).cliUid = session.cliUid) ∨
    ∃ key lcUrsp block rest usrWaiters reqWaiter, mapAt session.usrResponses key = some lcUrsp ∧
      lcUrsp.requests.blocks = block :: rest ∧
      returnedBy session (.gather fromUid hasTimeout) = [gathered block] ∧
      mailboxStep session (.gather fromUid hasTimeout) = { session with
        usrWaiters := usrWaiters
        reqWaiter := reqWaiter
        usrResponses := mapSet session.usrResponses key { lcUrsp with requests := ⟨rest⟩ } } := by
  by_cases misc : fromUid = 0
  · subst misc
    cases flag : session.reqWaiter with
    | false =>
      refine .inl ?_
      cases hasTimeout <;> simp [returnedBy, mailboxStep, asyncGrequests, waiterWaitFor, flag]
    | true =>
      cases took : gatherMisc session.usrResponses (List.range session.usrResponses.entries.length) with
      | none => exact .inl (by simp [returnedBy, mailboxStep, asyncGrequests, waiterWaitFor, flag, took])
      | some r =>
        obtain ⟨pack, left⟩ := r
        obtain ⟨key, lcUrsp, block, rest, found, shape, rfl, rfl⟩ := Mailbox.gatherMisc_some took
        refine .inr ⟨key, lcUrsp, block, rest, session.usrWaiters, false, found, shape, ?_, ?_⟩
        · simp [returnedBy, asyncGrequests, waiterWaitFor, flag, took]
        · simp [mailboxStep, asyncGrequests, waiterWaitFor, flag, took]
  · cases registered : mapAt session.usrWaiters fromUid with
    | none => exact .inl (by simp [returnedBy, mailboxStep, asyncGrequests, misc, registered])
    | some waiter =>
      rcases wait : waiterWaitFor waiter.reqWaiter hasTimeout with _ | _ | _
      · exact .inl (by simp [returnedBy, mailboxStep, asyncGrequests, misc, registered, wait])
      · exact .inl (by simp [returnedBy, mailboxStep, asyncGrequests, misc, registered, wait])
      · -- Only here the queue of the user is looked at.
        cases found : mapAt session.usrResponses fromUid with
        | none => exact .inl (by simp [returnedBy, mailboxStep, asyncGrequests, misc, registered, wait, found])
        | some lcUrsp =>
          cases shape : lcUrsp.requests.blocks with
          | nil =>
            exact .inl (by
              simp [returnedBy, mailboxStep, asyncGrequests, misc, registered, wait, found, popBlock_nil shape])
          | cons block rest =>
            refine .inr ⟨fromUid, lcUrsp, block, rest,
              mapSet session.usrWaiters fromUid { waiter with reqWaiter := false }, session.reqWaiter,
              found, shape, ?_, ?_⟩
            · simp [returnedBy, asyncGrequests, misc, registered, wait, found, popBlock_cons shape]
            · simp [mailboxStep, asyncGrequests, misc, registered, wait, found, popBlock_cons shape]

end Gather

section Runs

variable {session : Session} {e : MailboxEvent}

theorem handledBy_message (undecoded : Undecoded) {block : Block} {rest : List Block}
    (shape : session.readq.blocks = block :: rest) :
    handledBy session (.message undecoded) = [(packetDeserial block).getD undecoded.pack] ∧
      mailboxStep session (.message undecoded) = onPacket undecoded { session with readq := ⟨rest⟩ }
        ((packetDeserial block).getD undecoded.pack) := by
  simp [handledBy, mailboxStep, dcnOnMessage, popBlock_cons shape]

theorem intact_popped (intact : Intact session) {block : Block} {rest : List Block}
    (shape : session.readq.blocks = block :: rest) : Intact { session with readq := ⟨rest⟩ } :=
  ⟨fun other member => intact.arrived other (shape ▸ List.mem_cons_of_mem _ member), intact.senders⟩

theorem intact_step (intact : Intact session) (readable : Readable.event e) : Intact (mailboxStep session e) := by
  cases e with
  | receive block =>
    refine ⟨fun other member => ?_, intact.senders⟩
    rcases List.mem_append.mp member with before | new
    · exact intact.arrived other before
    · rw [List.mem_singleton.mp new]
      exact readable
  | message undecoded =>
    cases shape : session.readq.blocks with
    | nil => simpa [mailboxStep, dcnOnMessage, popBlock_nil shape] using intact
    | cons block rest =>
      obtain ⟨bound, accepted⟩ := intact.arrived block (shape ▸ List.mem_cons_self)
      obtain ⟨pack, decoded⟩ := Option.isSome_iff_exists.mp accepted
      rw [(handledBy_message undecoded shape).2, decoded, Option.getD_some]
      exact intact_onPacket (intact_popped intact shape) undecoded (Codec.fits_of_deserial bound decoded)
  | gather fromUid hasTimeout =>
    rcases gather_cases session fromUid hasTimeout with
      ⟨_, readq, usrResponses, _⟩ | ⟨key, lcUrsp, block, rest, usrWaiters, reqWaiter, found, shape, _, after⟩
    · exact ⟨readq ▸ intact.arrived, usrResponses ▸ intact.senders⟩
    · rw [after]
      exact intact_taken intact found shape

theorem cliUid_step (session : Session) (e : MailboxEvent) :
    (mailboxStep session e).cliUid = session.cliUid := by
  cases e with
  | receive block => rfl
  | message undecoded =>
    cases shape : session.readq.blocks with
    | nil => simp [mailboxStep, dcnOnMessage, popBlock_nil shape]
    | cons block rest =>
      rw [(handledBy_message undecoded shape).2]
      exact (onPacket_mailbox undecoded).2.2
  | gather fromUid hasTimeout =>
    rcases gather_cases session fromUid hasTimeout with ⟨_, _, _, same⟩ | ⟨_, _, _, _, _, _, _, _, _, after⟩
    · exact same
    · rw [after]

theorem balanced_step (intact : Intact session) (readable : Readable.event e) (uid : UInt64) :
    (returnedBy session e).filter (fun pack => pack.fromUid = uid) ++
        queuedFrom (mailboxStep session e).usrResponses uid =
      queuedFrom session.usrResponses uid ++ (handledBy session e).filter (IsRequestOf session.cliUid uid) := by
  cases e with
  | receive block => simp [returnedBy, handledBy, mailboxStep]
  | message undecoded =>
    cases shape : session.readq.blocks with
    | nil => simp [returnedBy, handledBy, mailboxStep, dcnOnMessage, popBlock_nil shape]
    | cons block rest =>
      obtain ⟨bound, accepted⟩ := intact.arrived block (shape ▸ List.mem_cons_self)
      obtain ⟨pack, decoded⟩ := Option.isSome_iff_exists.mp accepted
      obtain ⟨handled, after⟩ := handledBy_message undecoded shape
      rw [handled, after, decoded, Option.getD_some,
        queuedFrom_onPacket undecoded (Codec.fits_of_deserial bound decoded)]
      rfl
  | gather fromUid hasTimeout =>
    rcases gather_cases session fromUid hasTimeout with
      ⟨nothing, _, usrResponses, _⟩ | ⟨key, lcUrsp, block, rest, usrWaiters, reqWaiter, found, shape, taken, after⟩
    · simp [nothing, usrResponses, handledBy]
    · -- The request taken came from the user whose queue it was in.
      obtain ⟨sent, fits, serial, sender⟩ := intact.senders key lcUrsp found block (shape ▸ List.mem_cons_self)
      have from_key : (gathered block).fromUid = key := by rw [serial, gathered_serial fits, sender]
      have balance := queuedFrom_taken found shape uid
      rw [taken, after, ← balance]
      by_cases same : key = uid <;> simp [handledBy, from_key, same]

end Runs

/-- For each user, the requests that the gathers of a run returned, followed by
those still in the user's queue, are the requests of that user that the handler
handled, in order and unchanged; the queue holds their serial forms. -/
theorem mailbox_fifo (cliUid uid : UInt64) (events : List MailboxEvent)
    (readable : ∀ block, .receive block ∈ events → block.length < sizeBound ∧ (packetDeserial block).isSome) :
    let last := Runs.run mailboxStep (dcnNewSession cliUid) events
    ∃ waiting : List Packet,
      ((mapAt last.usrResponses uid).map fun targ => targ.requests.blocks).getD [] = waiting.map packetSerial ∧
      (Runs.outputs mailboxStep returnedBy (dcnNewSession cliUid) events).filter
          (fun pack => pack.fromUid = uid) ++ waiting =
        (Runs.outputs mailboxStep handledBy (dcnNewSession cliUid) events).filter (IsRequestOf cliUid uid) := by
  intro last
  have legal : Runs.Along mailboxStep (fun _ e => Readable.event e) (dcnNewSession cliUid) events :=
    Runs.along_of_forall fun e member => by
      cases e with
      | receive block => exact readable block member
      | message undecoded => trivial
      | gather fromUid hasTimeout => trivial
  have start : Intact (dcnNewSession cliUid) ∧ (dcnNewSession cliUid).cliUid = cliUid := by
    refine ⟨⟨fun block member => ?_, fun uid targ found => ?_⟩, rfl⟩
    · cases member
    · cases found
  have preserved : ∀ s e, Intact s ∧ s.cliUid = cliUid → Readable.event e →
      Intact (mailboxStep s e) ∧ (mailboxStep s e).cliUid = cliUid :=
    fun s e kept read => ⟨intact_step kept.1 read, (cliUid_step s e).trans kept.2⟩
  have intact := (Runs.throughout_of_preserved preserved start legal).last.1
  have fifo := Runs.outputs_fifo (fun s e => (returnedBy s e).filter fun pack => pack.fromUid = uid)
    (fun s e => (handledBy s e).filter (IsRequestOf cliUid uid)) (fun s => queuedFrom s.usrResponses uid)
    preserved (fun s e kept read => kept.2 ▸ balanced_step kept.1 read uid) start legal
  rw [← Runs.filter_outputs, ← Runs.filter_outputs] at fifo
  refine ⟨queuedFrom last.usrResponses uid, ?_, fifo⟩
  -- What waits is decoded from serial forms, so it serialises to them again.
  unfold queuedFrom
  cases found : mapAt last.usrResponses uid with
  | none => rfl
  | some targ =>
    have serial : ∀ block ∈ targ.requests.blocks, packetSerial (gathered block) = block := by
      intro block member
      obtain ⟨sent, fits, same, _⟩ := intact.senders uid targ found block member
      rw [same, gathered_serial fits]
    rw [Option.map_some, Option.getD_some, List.map_map]
    exact ((List.map_congr_left serial).trans (List.map_id _)).symm

def threeRequests : List MailboxEvent :=
  [.receive (packetSerial (unicastCopy (packetInit [1] 8 7 0))), .message ⟨packetInit [] 0 0 0, ⟨0, 0, 0⟩⟩,
   .receive (packetSerial (unicastCopy (packetInit [2] 9 7 0))), .message ⟨packetInit [] 0 0 0, ⟨0, 0, 0⟩⟩,
   .gather 0 false,
   .receive (packetSerial (unicastCopy (packetInit [3] 8 7 0))), .message ⟨packetInit [] 0 0 0, ⟨0, 0, 0⟩⟩]

theorem mailbox_fifo_three :
    Runs.outputs mailboxStep returnedBy (dcnNewSession 7) threeRequests = [unicastCopy (packetInit [1] 8 7 0)] ∧
    ∃ waiting : List Packet,
      ((mapAt (Runs.run mailboxStep (dcnNewSession 7) threeRequests).usrResponses 8).map
        fun targ => targ.requests.blocks).getD [] = waiting.map packetSerial ∧
      (Runs.outputs mailboxStep returnedBy (dcnNewSession 7) threeRequests).filter
          (fun pack => pack.fromUid = 8) ++ waiting =
        (Runs.outputs mailboxStep handledBy (dcnNewSession 7) threeRequests).filter (IsRequestOf 7 8) := by
  refine ⟨by decide, mailbox_fifo 7 8 threeRequests fun block member => ?_⟩
  simp only [threeRequests, List.mem_cons, MailboxEvent.receive.injEq, reduceCtorEq, List.not_mem_nil,
    false_or, or_false] at member
  rcases member with same | same | same <;> subst same <;> decide

end Delivery

end Dcn
