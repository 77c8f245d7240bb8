import Dcn.System.Deployment

/-! What becomes of the packets of one party.

Every line of blocks between two parties is a queue, so what has come out at its
end and what is still in it is what was put in, in that order. The server takes
packets from one such line and puts copies on others; the mailbox of a session
is the last.
-/

set_option autoImplicit false

namespace Dcn

/-- What the server sends on to the user with the UID `uid` for a packet, with
the registry as it is once the sender is registered. -/
def copyFor (dcnClients : Map UInt64 Conn) (pack : Packet) (uid : UInt64) : Option Packet :=
  if pack.fromUid = pack.toUid ∨ uid = pack.fromUid ∨ pack.toUid = 0 ∧ pack.packtype = .ping then none
  else if pack.isBroadcast then
    if pack.toUid = 0 ∨ (mapAt dcnClients pack.toUid).isSome then
      (mapAt dcnClients uid).map fun _ => broadcastCopy pack uid
    else none
  else if pack.toUid = uid then (mapAt dcnClients uid).map fun _ => unicastCopy pack
  else none

namespace Deployment

variable {ι : Type} {r : Roster ι} {d : Deployment ι}

section Targets

variable {locals : Locals} {ok : Conn → Bool} {s : Server} {cli target : Conn} {pack sent : Packet}

theorem target_of_push (member : .push target sent ∈ (handlePacket locals ok s cli pack).2) :
    target = cli ∨ ∃ key, (key, target) ∈ (register locals s cli pack.fromUid).entries := by
  simp only [handlePacket] at member
  by_cases own : pack.fromUid = pack.toUid
  · rw [respond_self own, List.mem_singleton, Effect.push.injEq] at member
    exact .inl member.1
  · rw [respond_other own, List.mem_cons, List.mem_append, List.mem_singleton] at member
    rcases member with answer | copy | change
    · exact .inl (Effect.push.inj answer).1
    · rcases @sentOn_cases locals s (register locals s cli pack.fromUid) cli pack with
        nothing | ⟨toCli, _, _, found, single⟩ | ⟨_, _, broadcast⟩
      · rw [nothing] at copy
        cases copy
      · rw [single] at copy
        obtain ⟨_, rfl, _⟩ := push_mem_unicast.mp copy
        exact .inr ⟨pack.toUid, Map.mapAt_eq_some_iff.mp found⟩
      · rw [broadcast] at copy
        obtain ⟨key, entry, _⟩ := push_mem_broadcastLoop.mp copy
        exact .inr ⟨key, entry⟩
    · cases change

theorem pushedTo_of_closed (sound : Sound r d) {i : ι} (closed : d.conn r i = none) (e : Move ι) :
    d.pushedTo r i e = [] := by
  cases e with
  | work k locals ok =>
    refine List.filterMap_eq_nil_iff.mpr fun e member => ?_
    cases e with
    | changeClimod target mode => rfl
    | push target sent =>
      rcases nextPacket_cases sound k locals with ⟨next, _⟩ | ⟨c, rest, pack, present, _, _, _, _, next⟩
      · rw [Server.dcnAsyncWorker_none ok next] at member
        cases member
      · rw [Server.dcnAsyncWorker_some ok next] at member
        have isOpen : ((d.server.popped (r.link k)).clients target).isSome := by
          have sender : ((d.server.popped (r.link k)).clients (r.link k)).isSome := by
            simp [Server.popped, show d.server.clients (r.link k) = some c from present]
          have registry : (d.server.popped (r.link k)).RegistryOpen :=
            Registry.registryOpen_of_grows sound.wf.registry rfl fun other => by simp [Server.popped]
          rcases target_of_push member with rfl | ⟨key, entry⟩
          · exact sender
          · exact Registry.isSome_of_mem_register registry sender entry
        have apart : target ≠ r.link i := by
          rintro rfl
          have absent : d.server.clients (r.link i) = none := closed
          simp [Server.popped, absent] at isOpen
        simp [Effect.packetTo, apart]
  | _ => rfl

theorem fits_pushedTo (sound : Sound r d) {i : ι} {e : Move ι} (member : sent ∈ d.pushedTo r i e) : sent.Fits := by
  cases e with
  | work k locals ok =>
    obtain ⟨e, inside, isPush⟩ := List.mem_filterMap.mp member
    rw [Effect.packetTo_eq_some] at isPush
    subst isPush
    rcases nextPacket_cases sound k locals with ⟨next, _⟩ | ⟨c, rest, pack, _, _, fits, _, _, next⟩
    · rw [Server.dcnAsyncWorker_none ok next] at inside
      cases inside
    · rw [Server.dcnAsyncWorker_some ok next] at inside
      exact fits_of_push fits inside
  | _ => cases member

end Targets

section Lines

theorem contents_pushBlock {pack : Packet} (fits : pack.Fits) (q : Queue) :
    contents (pushBlock q (packetSerial pack)) = contents q ++ [pack] := by
  simp [contents, Delivery.gathered_serial fits]

theorem contents_cons {q : Queue} {block : Block} {rest : List Block} (shape : q.blocks = block :: rest) :
    contents q = gathered block :: contents ⟨rest⟩ := by
  simp [contents, shape]

theorem lines_of_same {e : Deployment ι} {i : ι} (conn_ : e.conn r i = d.conn r i)
    (session : e.session i = d.session i) : e.outbound r i = d.outbound r i ∧ e.inbound r i = d.inbound r i := by
  rw [outbound, outbound, inbound, inbound, conn_, session]
  exact ⟨rfl, rfl⟩

theorem outbound_eq {i : ι} {c : Client} (present : d.conn r i = some c) :
    d.outbound r i = contents c.readQ ++ contents (d.session i).writeq := by
  rw [outbound, present]
  rfl

theorem inbound_eq {i : ι} {c : Client} (present : d.conn r i = some c) :
    d.inbound r i = contents (d.session i).readq ++ contents c.writeQ := by
  rw [inbound, present]
  rfl

variable [DecidableEq ι]

theorem outbound_onSession (i k : ι) {f : Session → Session} (writeq : (f (d.session k)).writeq = (d.session k).writeq) :
    (d.onSession k f).outbound r i = d.outbound r i := by
  by_cases same : k = i
  · subst same
    rw [outbound, outbound, session_onSession_self, writeq]
    rfl
  · exact (lines_of_same (conn_of_server r (server_onSession f)) (session_onSession_of_ne f (Ne.symm same))).1

theorem inbound_onSession (i k : ι) {f : Session → Session} (readq : (f (d.session k)).readq = (d.session k).readq) :
    (d.onSession k f).inbound r i = d.inbound r i := by
  by_cases same : k = i
  · subst same
    rw [inbound, inbound, session_onSession_self, readq]
    rfl
  · exact (lines_of_same (conn_of_server r (server_onSession f)) (session_onSession_of_ne f (Ne.symm same))).2

theorem lines_onBoth_of_ne {i k : ι} (f : Session → Session) (g : Client → Client) (differ : i ≠ k) :
    (d.onBoth r k f g).outbound r i = d.outbound r i ∧ (d.onBoth r k f g).inbound r i = d.inbound r i :=
  lines_of_same (conn_onBoth_of_ne r f g differ) (session_onBoth_of_ne r f g differ)

theorem lines_onBoth_self {i : ι} {c : Client} (f : Session → Session) (g : Client → Client)
    (present : d.conn r i = some c) :
    (d.onBoth r i f g).outbound r i = contents (g c).readQ ++ contents (f (d.session i)).writeq ∧
      (d.onBoth r i f g).inbound r i = contents (f (d.session i)).readq ++ contents (g c).writeQ := by
  have there : (d.onBoth r i f g).conn r i = some (g c) := by rw [conn_onBoth_self, present, Option.map_some]
  rw [outbound_eq there, inbound_eq there, session_onBoth_self]
  exact ⟨rfl, rfl⟩

theorem lines_join (i k : ι) : (d.step r (.join k)).outbound r i = d.outbound r i ∧
    (d.step r (.join k)).inbound r i = d.inbound r i := by
  by_cases accepted : (d.server.clients (r.link k)).isSome
  · have same : d.step r (.join k) = d := by simp [step, serverStep, accepted]
    rw [same]
    exact ⟨rfl, rfl⟩
  · by_cases here : i = k
    · subst here
      have before : d.conn r i = none := by simpa [conn] using accepted
      have after : (d.step r (.join i)).conn r i = some (acceptClient (r.fd i) (r.ip i) (r.port i)) := by
        simp [step, serverStep, accepted, conn]
      rw [outbound_eq after, inbound_eq after, outbound, inbound, before]
      simp [contents, acceptClient, step]
    · refine lines_of_same ?_ rfl
      have apart : r.link i ≠ r.link k := fun same => here (r.links same)
      simp [step, serverStep, accepted, conn, apart]

theorem conn_work (i k : ι) (locals : Locals) (ok : Conn → Bool) :
    (d.step r (.work k locals ok)).conn r i = (d.conn r i).map fun c =>
      (dcnAsyncWorker locals ok d.server (r.link k)).2.foldl (Effect.apply ok (r.link i))
        (if r.link i = r.link k then { c with readQ := (popBlock c.readQ).2.2 } else c) :=
  clients_work d.server (r.link k) (r.link i) locals ok

/-- The packets of a party leave the line at the server in the order in which
they were put on it. -/
theorem outbound_step (sound : Sound r d) (i : ι) (e : Move ι) :
    d.handledFrom r i e ++ (d.step r e).outbound r i = d.outbound r i ++ d.sentBy i e := by
  cases e with
  | join k => simp [handledFrom, sentBy, (@lines_join ι r d _ i k).1]
  | request k pack toUid =>
    by_cases here : k = i
    · subst here
      have fits : (dcnRequest (d.session k) pack.pack toUid).1.Fits := pack.fits
      have queue : contents (dcnRequest (d.session k) pack.pack toUid).2.writeq =
          contents (d.session k).writeq ++ [(dcnRequest (d.session k) pack.pack toUid).1] :=
        contents_pushBlock fits _
      simp only [handledFrom, sentBy, step, outbound, session_onSession_self, queue, ↓reduceIte, List.nil_append,
        List.append_assoc]
      rfl
    · have other : (d.step r (.request k pack toUid)).outbound r i = d.outbound r i :=
        (lines_of_same (conn_of_server r (server_onSession _)) (session_onSession_of_ne _ (Ne.symm here))).1
      simp [handledFrom, sentBy, here, other]
  | upload k =>
    simp only [handledFrom, sentBy, List.nil_append, List.append_nil, step]
    rcases upload_cases r d k with same | ⟨c, block, rest, present, shape, moved⟩
    · rw [same]
    · rw [moved]
      by_cases here : i = k
      · subst here
        rw [(lines_onBoth_self _ _ present).1, outbound_eq present, contents_cons shape]
        simp [contents]
      · exact (lines_onBoth_of_ne _ _ here).1
  | work k locals ok =>
    simp only [handledFrom, sentBy, List.append_nil]
    by_cases here : k = i
    · subst here
      rw [if_pos rfl]
      rcases nextPacket_cases sound k locals with ⟨next, _⟩ | ⟨c, rest, pack, present, shape, fits, _, _, next⟩
      · have same : d.step r (.work k locals ok) = d := by simp [step, serverStep, Server.dcnAsyncWorker_none ok next]
        rw [next, same]
        rfl
      · have after := @conn_work ι r d _ k k locals ok
        rw [present, Option.map_some, if_pos rfl, popBlock_cons shape] at after
        rw [next, outbound_eq present, outbound_eq after, Effect.readQ_foldl_apply, contents_cons shape,
          Delivery.gathered_serial fits]
        rfl
    · rw [if_neg here, List.nil_append]
      have apart : r.link i ≠ r.link k := fun same => here (r.links same).symm
      rw [outbound, outbound, conn_work, Option.map_map]
      simp only [if_neg apart, Function.comp_def, Effect.readQ_foldl_apply]
      rfl
  | download k =>
    simp only [handledFrom, sentBy, List.nil_append, List.append_nil, step]
    rcases download_cases r d k with same | ⟨c, block, rest, present, shape, moved⟩
    · rw [same]
    · rw [moved]
      by_cases here : i = k
      · subst here
        rw [(lines_onBoth_self _ _ present).1, outbound_eq present]
      · exact (lines_onBoth_of_ne _ _ here).1
  | message k undecoded =>
    simp only [handledFrom, sentBy, step, List.nil_append, List.append_nil]
    exact outbound_onSession i k (writeq_mailboxStep _)
  | gather k fromUid hasTimeout =>
    simp only [handledFrom, sentBy, step, List.nil_append, List.append_nil]
    exact outbound_onSession i k (writeq_mailboxStep _)
  | watch k pack =>
    obtain ⟨usrWaiters, watched⟩ := registerWaiter_eq (d.session k) pack
    simp only [handledFrom, sentBy, step, List.nil_append, List.append_nil]
    exact outbound_onSession i k (by rw [watched])
  | collect k muid =>
    simp only [handledFrom, sentBy, step, List.nil_append, List.append_nil]
    exact outbound_onSession i k rfl

theorem inbound_step (sound : Sound r d) (i : ι) (e : Move ι) :
    d.receivedBy i e ++ (d.step r e).inbound r i = d.inbound r i ++ d.pushedTo r i e := by
  cases e with
  | join k => simp [receivedBy, pushedTo, (@lines_join ι r d _ i k).2]
  | request k pack toUid =>
    simp only [receivedBy, pushedTo, step, List.nil_append, List.append_nil]
    exact inbound_onSession i k rfl
  | upload k =>
    simp only [receivedBy, pushedTo, List.nil_append, List.append_nil, step]
    rcases upload_cases r d k with same | ⟨c, block, rest, present, shape, moved⟩
    · rw [same]
    · rw [moved]
      by_cases here : i = k
      · subst here
        rw [(lines_onBoth_self _ _ present).2, inbound_eq present]
      · exact (lines_onBoth_of_ne _ _ here).2
  | work k locals ok =>
    simp only [receivedBy, pushedTo, List.nil_append]
    cases present : d.conn r i with
    | none =>
      have nothing := pushedTo_of_closed sound present (.work k locals ok)
      simp only [pushedTo] at nothing
      rw [inbound, inbound, conn_work, present, nothing]
      simp [step]
    | some c =>
      have after := @conn_work ι r d _ i k locals ok
      rw [present, Option.map_some] at after
      -- What the sender's connection loses is in its read queue.
      have writeQ : (if r.link i = r.link k then { c with readQ := (popBlock c.readQ).2.2 } else c).writeQ = c.writeQ := by
        split <;> rfl
      have pushed : (dcnAsyncWorker locals ok d.server (r.link k)).2.filterMap (Effect.packetTo (r.link i)) =
          ((dcnAsyncWorker locals ok d.server (r.link k)).2.filterMap (Effect.packetTo (r.link i))).map
            fun sent => gathered (packetSerial sent) := by
        conv_lhs => rw [← List.map_id (List.filterMap _ _)]
        refine List.map_congr_left fun sent member => ?_
        have fits : sent.Fits := @fits_pushedTo ι r d sent sound i (.work k locals ok) member
        exact (Delivery.gathered_serial fits).symm
      rw [inbound_eq present, inbound_eq after, pushed]
      simp [contents, Effect.blocks_foldl_apply, writeQ, step]
  | download k =>
    simp only [receivedBy, pushedTo, List.nil_append, List.append_nil, step]
    rcases download_cases r d k with same | ⟨c, block, rest, present, shape, moved⟩
    · rw [same]
    · rw [moved]
      by_cases here : i = k
      · subst here
        rw [(lines_onBoth_self _ _ present).2, inbound_eq present, contents_cons shape]
        simp [contents]
      · exact (lines_onBoth_of_ne _ _ here).2
  | message k undecoded =>
    simp only [receivedBy, pushedTo, List.append_nil, step]
    by_cases here : k = i
    · subst here
      rw [if_pos rfl, inbound, inbound, session_onSession_self]
      cases shape : (d.session k).readq.blocks with
      | nil => simp [handledBy, mailboxStep, dcnOnMessage, popBlock_nil shape]; rfl
      | cons block rest =>
        obtain ⟨handled, after⟩ := Delivery.handledBy_message undecoded shape
        obtain ⟨pack, decodes⟩ := Option.isSome_iff_exists.mp ((sound.intact k).arrived block (shape ▸ List.mem_cons_self)).2
        rw [handled, after, (Delivery.onPacket_mailbox undecoded).2.1, contents_cons shape, gathered, decodes]
        rfl
    · rw [if_neg here, List.nil_append]
      exact (lines_of_same (conn_of_server r (server_onSession _)) (session_onSession_of_ne _ (Ne.symm here))).2
  | gather k fromUid hasTimeout =>
    simp only [receivedBy, pushedTo, step, List.nil_append, List.append_nil]
    refine inbound_onSession i k ?_
    rcases Delivery.gather_cases (d.session k) fromUid hasTimeout with
      ⟨_, readq, _⟩ | ⟨key, lcUrsp, block, rest, usrWaiters, reqWaiter, _, _, _, after⟩
    · exact readq
    · rw [after]
  | watch k pack =>
    obtain ⟨usrWaiters, watched⟩ := registerWaiter_eq (d.session k) pack
    simp only [receivedBy, pushedTo, step, List.nil_append, List.append_nil]
    exact inbound_onSession i k (by rw [watched])
  | collect k muid =>
    simp only [receivedBy, pushedTo, step, List.nil_append, List.append_nil]
    exact inbound_onSession i k rfl

end Lines

section Copies

theorem filter_link {dcnClients : Map UInt64 Conn} (honest : ∀ e ∈ dcnClients.entries, ∃ k, e = (r.uid k, r.link k))
    (i : ι) : dcnClients.entries.filter (fun e => e.2 = r.link i) =
      ((mapAt dcnClients (r.uid i)).map (Prod.mk (r.uid i))).toList := by
  rw [← Map.filter_key]
  refine List.filter_congr fun e member => ?_
  obtain ⟨k, rfl⟩ := honest e member
  simp only [decide_eq_decide]
  exact ⟨fun same => congrArg r.uid (r.links same), fun same => congrArg r.link (r.uids same)⟩

theorem copyFor_of_unknown {dcnClients : Map UInt64 Conn} {pack : Packet} (unknown : Unknown dcnClients pack)
    (uid : UInt64) : copyFor dcnClients pack uid = none := by
  obtain ⟨absent, notServer⟩ := unknown
  unfold copyFor
  rw [absent]
  split
  · rfl
  · split
    · next broadcast =>
      have named : pack.toUid ≠ 0 := fun zero => notServer ⟨zero, .inr (Routing.isBroadcast_iff.mp broadcast)⟩
      simp [named]
    · split
      · next target => rw [← target, absent]; rfl
      · rfl

/-- What the handler sends on to a party for a packet of another is the copy for
it, or nothing. -/
theorem routed_copy {dcnClients : Map UInt64 Conn} {pack answer : Packet} {forwarded : List (Conn × Packet)}
    (honest : ∀ e ∈ dcnClients.entries, ∃ k, e = (r.uid k, r.link k)) {i : ι} (j : ι) (fromUid : pack.fromUid = r.uid i)
    (other : pack.fromUid ≠ pack.toUid) (routed : Routed dcnClients (r.link i) pack answer forwarded) :
    (forwarded.filter (·.1 = r.link j)).map Prod.snd = (copyFor dcnClients pack (r.uid j)).toList := by
  by_cases unknown : Unknown dcnClients pack
  · rw [(routed.refused unknown).2, copyFor_of_unknown unknown]
    rfl
  · by_cases ping : pack.toUid = 0 ∧ pack.packtype = .ping
    · rw [routed.ping ping.1 ping.2, copyFor, if_pos (.inr (.inr ping))]
      rfl
    · cases broadcast : pack.isBroadcast with
      | false =>
        obtain ⟨toCli, found, rfl⟩ := routed.unicast unknown ping broadcast
        -- The target is a party; it is the one asked about if the UIDs agree.
        obtain ⟨k, entry⟩ := honest _ (Map.mapAt_eq_some_iff.mp found)
        obtain ⟨toUid, rfl⟩ := Prod.mk.inj entry
        by_cases here : k = j
        · subst here
          have notSender : r.uid k ≠ pack.fromUid := fun same => other (same.symm.trans toUid.symm)
          have sends : ¬(pack.fromUid = pack.toUid ∨ r.uid k = pack.fromUid ∨ pack.toUid = 0 ∧ pack.packtype = .ping) := by
            simp only [not_or]
            exact ⟨other, notSender, ping⟩
          rw [copyFor, if_neg sends, broadcast, if_pos toUid, ← toUid, found]
          simp
        · have apart : r.link k ≠ r.link j := fun same => here (r.links same)
          have target : pack.toUid ≠ r.uid j := fun same => here (r.uids (toUid.symm.trans same))
          simp [copyFor, broadcast, apart, target]
      | true =>
        have reached := Routing.reached_of_known unknown
        have sorted : dcnClients.entries.filter
              (fun e => decide (e.2 = r.link j) && decide (e.1 ≠ pack.fromUid ∧ e.2 ≠ r.link i)) =
            (((mapAt dcnClients (r.uid j)).map (Prod.mk (r.uid j))).toList).filter
              fun e => e.1 ≠ pack.fromUid ∧ e.2 ≠ r.link i := by
          rw [← filter_link honest, List.filter_filter]
          exact List.filter_congr fun e _ => Bool.and_comm _ _
        have copies : (forwarded.filter (·.1 = r.link j)).map Prod.snd =
            ((((mapAt dcnClients (r.uid j)).map (Prod.mk (r.uid j))).toList).filter
              fun e => e.1 ≠ pack.fromUid ∧ e.2 ≠ r.link i).map fun e => broadcastCopy pack e.1 := by
          rw [routed.broadcast unknown broadcast, List.filter_map, List.filter_filter, List.map_map, ← sorted]
          rfl
        rw [copies]
        cases found : mapAt dcnClients (r.uid j) with
        | none => simp [copyFor, found]
        | some cli =>
          obtain ⟨k, entry⟩ := honest _ (Map.mapAt_eq_some_iff.mp found)
          obtain ⟨same, rfl⟩ := Prod.mk.inj entry
          have same : j = k := r.uids same
          subst same
          by_cases own : j = i
          · subst own
            simp [copyFor, fromUid]
          · have apart : r.link j ≠ r.link i := fun same => own (r.links same)
            have notSender : r.uid j ≠ pack.fromUid := fun same => own (r.uids (same.trans fromUid))
            have sends : ¬(pack.fromUid = pack.toUid ∨ r.uid j = pack.fromUid ∨
                pack.toUid = 0 ∧ pack.packtype = .ping) := by
              simp only [not_or]
              exact ⟨other, notSender, ping⟩
            rw [copyFor, if_neg sends, broadcast, if_pos rfl, if_pos reached, found]
            simp [notSender, apart]

variable [DecidableEq ι]

def answersTo (r : Roster ι) (i : ι) (d : Deployment ι) : Move ι → List Packet
  | .work k locals ok => (d.handledFrom r i (.work k locals ok)).map fun pack =>
      answerTo locals (d.server.popped (r.link i)) (register locals (d.server.popped (r.link i)) (r.link i) pack.fromUid)
        (r.link i) pack
  | _ => []

def copiedTo (r : Roster ι) (i j : ι) (d : Deployment ι) (e : Move ι) : List Packet :=
  (d.handledFrom r i e).flatMap fun pack => (copyFor (d.step r e).server.dcnClients pack (r.uid j)).toList

theorem pushedTo_handled (sound : Sound r d) {i : ι} (j : ι) {locals : Locals} {pack : Packet} (ok : Conn → Bool)
    (fromUid : pack.fromUid = r.uid i) (next : d.server.nextPacket locals (r.link i) = some pack) :
    d.pushedTo r j (.work i locals ok) =
      (if j = i then d.answersTo r i (.work i locals ok) else []) ++ d.copiedTo r i j (.work i locals ok) := by
  obtain ⟨c, present⟩ := Server.nextPacket_some next
  have wf : (d.server.popped (r.link i)).WellFormed := Routing.wellFormed_modify sound.wf fun c => ⟨rfl, rfl, rfl⟩
  have isOpen : (d.server.popped (r.link i)).clients (r.link i) = some { c with readQ := (popBlock c.readQ).2.2 } := by
    simp [Server.popped, present]
  have answered : d.answersTo r i (.work i locals ok) =
      [answerTo locals (d.server.popped (r.link i))
        (register locals (d.server.popped (r.link i)) (r.link i) pack.fromUid) (r.link i) pack] := by
    simp [answersTo, handledFrom, next]
  have copied : d.copiedTo r i j (.work i locals ok) =
      (copyFor (register locals (d.server.popped (r.link i)) (r.link i) pack.fromUid) pack (r.uid j)).toList := by
    simp [copiedTo, handledFrom, next, step, serverStep, Server.dcnAsyncWorker_some ok next]
  rw [pushedTo, Routing.filterMap_packetTo, Server.dcnAsyncWorker_some ok next, answered, copied]
  have apart : r.link i = r.link j ↔ j = i := ⟨fun same => r.links same.symm, fun same => congrArg r.link same.symm⟩
  by_cases own : pack.fromUid = pack.toUid
  · have nothing : copyFor (register locals (d.server.popped (r.link i)) (r.link i) pack.fromUid) pack (r.uid j) = none := by
      rw [copyFor, if_pos (.inl own)]
    simp only [handlePacket, respond_self own, nothing, answerTo, if_pos own]
    by_cases same : j = i <;> simp [pushes, apart, same]
  · have registry : (d.server.popped (r.link i)).dcnClients = d.server.dcnClients := rfl
    have honest := honest_register sound i locals registry
    rw [← fromUid] at honest
    have routed := Routing.routed_sentOn locals pack wf isOpen
    rw [← routed_copy honest j fromUid own routed]
    simp only [handlePacket, respond_other own, Routing.pushes_cons_push, Routing.pushes_append_change, answerTo,
      if_neg own]
    by_cases same : j = i <;> simp [apart, same]

theorem mem_copyFor {dcnClients : Map UInt64 Conn} {pack sent : Packet} {uid : UInt64}
    (copied : copyFor dcnClients pack uid = some sent) :
    sent.fromOs = 1 ∧ sent.fromUid = pack.fromUid ∧ sent.toUid = uid ∧ sent.packtype = pack.packtype := by
  unfold copyFor at copied
  split at copied
  · cases copied
  · split at copied
    · split at copied
      · obtain ⟨_, _, rfl⟩ := Option.map_eq_some_iff.mp copied
        exact ⟨rfl, rfl, rfl, rfl⟩
      · cases copied
    · split at copied
      · next target =>
        obtain ⟨_, _, rfl⟩ := Option.map_eq_some_iff.mp copied
        exact ⟨rfl, rfl, target, rfl⟩
      · cases copied

theorem mem_handledFrom (sound : Sound r d) {i : ι} {e : Move ι} {pack : Packet} (member : pack ∈ d.handledFrom r i e) :
    pack.fromUid = r.uid i := by
  cases e with
  | work k locals ok =>
    simp only [handledFrom] at member
    split at member
    · rcases nextPacket_cases sound i locals with ⟨next, _⟩ | ⟨_, _, handled, _, _, _, fromUid, _, next⟩
      · rw [next] at member
        cases member
      · rw [next] at member
        cases List.mem_singleton.mp member
        exact fromUid
    · cases member
  | _ => cases member

theorem mem_copiedTo (sound : Sound r d) {i j : ι} {e : Move ι} {sent : Packet} (member : sent ∈ d.copiedTo r i j e) :
    sent.fromOs = 1 ∧ sent.fromUid = r.uid i ∧ sent.toUid = r.uid j := by
  obtain ⟨pack, handled, copied⟩ := List.mem_flatMap.mp member
  obtain ⟨fromOs, fromUid, toUid, _⟩ := mem_copyFor (Option.mem_toList.mp copied)
  exact ⟨fromOs, fromUid.trans (mem_handledFrom sound handled), toUid⟩

theorem fromOs_answerTo {locals : Locals} {s : Server} {dcnClients : Map UInt64 Conn} {cli : Conn} {pack : Packet} :
    (answerTo locals s dcnClients cli pack).fromOs = 0 := by
  unfold answerTo
  split <;> rfl

theorem mem_answersTo {i : ι} {e : Move ι} {answer : Packet} (member : answer ∈ d.answersTo r i e) : answer.fromOs = 0 := by
  cases e with
  | work k locals ok =>
    obtain ⟨pack, _, rfl⟩ := List.mem_map.mp member
    exact fromOs_answerTo
  | _ => cases member

theorem pushedTo_cases (sound : Sound r d) (j : ι) (e : Move ι) :
    d.pushedTo r j e = [] ∧ (∀ i, d.copiedTo r i j e = []) ∧ d.answersTo r j e = [] ∨
    ∃ k, d.pushedTo r j e = d.answersTo r j e ++ d.copiedTo r k j e ∧ (∀ i, i ≠ k → d.copiedTo r i j e = []) := by
  cases e with
  | work k locals ok =>
    rcases nextPacket_cases sound k locals with ⟨next, _⟩ | ⟨_, _, pack, _, _, _, fromUid, _, next⟩
    · refine .inl ⟨by rw [pushedTo, Server.dcnAsyncWorker_none ok next]; rfl, fun i => ?_, ?_⟩
      all_goals
        simp only [copiedTo, answersTo, handledFrom]
        split
        · next same => subst same; rw [next]; rfl
        · rfl
    · refine .inr ⟨k, ?_, fun i other => ?_⟩
      · rw [pushedTo_handled sound j ok fromUid next]
        by_cases same : j = k
        · rw [if_pos same, same]
        · have nothing : d.answersTo r j (.work k locals ok) = [] := by simp [answersTo, handledFrom, Ne.symm same]
          rw [if_neg same, nothing]
      · simp [copiedTo, handledFrom, Ne.symm other]
  | _ => exact .inl ⟨rfl, fun i => rfl, rfl⟩

theorem copies_step (sound : Sound r d) (i j : ι) (e : Move ι) :
    (d.pushedTo r j e).filter (fun pack => pack.fromOs ≠ 0 ∧ pack.fromUid = r.uid i) = d.copiedTo r i j e := by
  rcases pushedTo_cases sound j e with ⟨nothing, copies, _⟩ | ⟨k, pushed, others⟩
  · rw [nothing, copies i]
    rfl
  · have answers : (d.answersTo r j e).filter (fun pack => pack.fromOs ≠ 0 ∧ pack.fromUid = r.uid i) = [] := by
      refine List.filter_eq_nil_iff.mpr fun answer member => ?_
      simp [mem_answersTo member]
    rw [pushed, List.filter_append, answers, List.nil_append]
    by_cases same : i = k
    · subst same
      refine List.filter_eq_self.mpr fun sent member => ?_
      obtain ⟨fromOs, fromUid, _⟩ := mem_copiedTo sound member
      simp [fromOs, fromUid]
    · rw [others i same]
      refine List.filter_eq_nil_iff.mpr fun sent member => ?_
      have apart : r.uid k ≠ r.uid i := fun equal => same (r.uids equal).symm
      simp [(mem_copiedTo sound member).2.1, apart]

theorem answers_step (sound : Sound r d) (i : ι) (e : Move ι) :
    (d.pushedTo r i e).filter (fun pack => pack.fromOs = 0) = d.answersTo r i e := by
  rcases pushedTo_cases sound i e with ⟨nothing, _, answers⟩ | ⟨k, pushed, _⟩
  · rw [nothing, answers]
    rfl
  · have copies : (d.copiedTo r k i e).filter (fun pack => pack.fromOs = 0) = [] := by
      refine List.filter_eq_nil_iff.mpr fun sent member => ?_
      simp [(mem_copiedTo sound member).1]
    rw [pushed, List.filter_append, copies, List.append_nil]
    exact List.filter_eq_self.mpr fun answer member => by simp [mem_answersTo member]

end Copies

section Run

variable [DecidableEq ι] (r : Roster ι) (moves : List (Move ι))

theorem outbound_run (i : ι) : Runs.outputs (step r) (handledFrom r i) (start r) moves ++
    (Runs.run (step r) (start r) moves).outbound r i = Runs.outputs (step r) (sentBy i) (start r) moves :=
  Runs.outputs_fifo_all (handledFrom r i) (sentBy i) (outbound r i) (fun _ e sound => sound_step sound e)
    (fun _ e sound => outbound_step sound i e) sound_start moves

theorem inbound_run (i : ι) : Runs.outputs (step r) (receivedBy i) (start r) moves ++
    (Runs.run (step r) (start r) moves).inbound r i = Runs.outputs (step r) (pushedTo r i) (start r) moves :=
  Runs.outputs_fifo_all (receivedBy i) (pushedTo r i) (inbound r i) (fun _ e sound => sound_step sound e)
    (fun _ e sound => inbound_step sound i e) sound_start moves

/-- The mailbox is the last queue on the way from one user to a party. -/
theorem mailbox_step {d : Deployment ι} (sound : Sound r d) (j : ι) (uid : UInt64) (e : Move ι) :
    (d.gatheredBy j e).filter (fun pack => pack.fromUid = uid) ++ queuedFrom ((d.step r e).session j).usrResponses uid =
      queuedFrom (d.session j).usrResponses uid ++ (d.receivedBy j e).filter (IsRequestOf (r.uid j) uid) := by
  have kept : ∀ {k f}, (f (d.session k)).usrResponses = (d.session k).usrResponses →
      queuedFrom ((d.onSession k f).session j).usrResponses uid = queuedFrom (d.session j).usrResponses uid := by
    intro k f same
    by_cases here : j = k
    · subst here
      rw [session_onSession_self, same]
    · rw [session_onSession_of_ne f here]
  have both : ∀ {k f g}, (f (d.session k)).usrResponses = (d.session k).usrResponses →
      queuedFrom ((d.onBoth r k f g).session j).usrResponses uid = queuedFrom (d.session j).usrResponses uid :=
    fun same => kept same
  -- The handler and a gather are steps of the mailbox itself.
  have mailbox : ∀ e : MailboxEvent, Delivery.Readable.event e → ∀ k,
      (if k = j then returnedBy (d.session j) e else []).filter (fun pack => pack.fromUid = uid) ++
          queuedFrom ((d.onSession k fun s => mailboxStep s e).session j).usrResponses uid =
        queuedFrom (d.session j).usrResponses uid ++
          (if k = j then handledBy (d.session j) e else []).filter (IsRequestOf (r.uid j) uid) := by
    intro e readable k
    by_cases here : k = j
    · subst here
      have balanced := Delivery.balanced_step (sound.intact k) readable uid
      rw [sound.cliUid] at balanced
      rwa [if_pos rfl, if_pos rfl, session_onSession_self]
    · rw [if_neg here, if_neg here, session_onSession_of_ne _ (Ne.symm here)]
      simp
  cases e with
  | message k undecoded => simpa [gatheredBy, receivedBy, step, returnedBy] using mailbox (.message undecoded) trivial k
  | gather k fromUid hasTimeout =>
    simpa [gatheredBy, receivedBy, step, handledBy] using mailbox (.gather fromUid hasTimeout) trivial k
  | join k => simp [gatheredBy, receivedBy, step]
  | work k locals ok => simp [gatheredBy, receivedBy, step]
  | request k pack toUid =>
    simp only [gatheredBy, receivedBy, List.filter_nil, List.nil_append, List.append_nil, step]
    exact kept rfl
  | collect k muid =>
    simp only [gatheredBy, receivedBy, List.filter_nil, List.nil_append, List.append_nil, step]
    exact kept rfl
  | watch k pack =>
    obtain ⟨usrWaiters, watched⟩ := registerWaiter_eq (d.session k) pack
    simp only [gatheredBy, receivedBy, List.filter_nil, List.nil_append, List.append_nil, step]
    exact kept (by rw [watched])
  | upload k =>
    simp only [gatheredBy, receivedBy, List.filter_nil, List.nil_append, List.append_nil, step]
    rcases upload_cases r d k with same | ⟨c, block, rest, _, _, moved⟩
    · rw [same]
    · rw [moved]
      exact both rfl
  | download k =>
    simp only [gatheredBy, receivedBy, List.filter_nil, List.nil_append, List.append_nil, step]
    rcases download_cases r d k with same | ⟨c, block, rest, _, _, moved⟩
    · rw [same]
    · rw [moved]
      exact both rfl

theorem mailbox_run (j : ι) (uid : UInt64) :
    (Runs.outputs (step r) (gatheredBy j) (start r) moves).filter (fun pack => pack.fromUid = uid) ++
        queuedFrom ((Runs.run (step r) (start r) moves).session j).usrResponses uid =
      (Runs.outputs (step r) (receivedBy j) (start r) moves).filter (IsRequestOf (r.uid j) uid) := by
  rw [Runs.filter_outputs, Runs.filter_outputs]
  exact Runs.outputs_fifo_all _ _ (fun d : Deployment ι => queuedFrom (d.session j).usrResponses uid)
    (fun _ e sound => sound_step sound e) (fun _ e sound => mailbox_step r sound j uid e) sound_start moves

/-- The answers come back in the order of the packets they answer, one for each. -/
theorem answers_run (i : ι) :
    (Runs.outputs (step r) (receivedBy i) (start r) moves).filter (fun pack => pack.fromOs = 0) ++
        ((Runs.run (step r) (start r) moves).inbound r i).filter (fun pack => pack.fromOs = 0) =
      Runs.outputs (step r) (answersTo r i) (start r) moves := by
  have kept : ∀ (d : Deployment ι) e, Sound r d → Sound r (d.step r e) := fun _ e sound => sound_step sound e
  rw [← List.filter_append, inbound_run, Runs.filter_outputs]
  exact Runs.outputs_congr _ kept (fun d e sound => answers_step sound i e) sound_start

omit [DecidableEq ι] in
theorem accepted_of_code {locals : Locals} {s : Server} {dcnClients : Map UInt64 Conn} {cli : Conn} {pack : Packet}
    (code : (answerTo locals s dcnClients cli pack).data = intBytes 200) :
    pack.fromUid ≠ pack.toUid ∧ ¬Unknown dcnClients pack := by
  have self : intBytes 102 ≠ intBytes 200 := by decide
  have refused : intBytes 101 ≠ intBytes 200 := by decide
  unfold answerTo at code
  split at code
  · exact absurd code self
  · next other =>
    refine ⟨other, fun unknown => refused ?_⟩
    rwa [Routing.answerCode_of_unknown unknown] at code

theorem copied_of_accepted {d : Deployment ι} (sound : Sound r d) {i : ι} {e : Move ι} {answer : Packet}
    (answered : answer ∈ d.answersTo r i e) (code : answer.data = intBytes 200) :
    ∃ pack ∈ d.handledFrom r i e, pack.muid = answer.muid ∧ ∀ j, r.uid j = pack.toUid → pack.isBroadcast = false →
      ¬(pack.toUid = 0 ∧ pack.packtype = .ping) → unicastCopy pack ∈ d.copiedTo r i j e := by
  cases e with
  | work k locals ok =>
    obtain ⟨pack, handled, rfl⟩ := List.mem_map.mp answered
    refine ⟨pack, handled, Party.muid_answerTo.symm, fun j named single noPing => ?_⟩
    obtain ⟨other, known⟩ := accepted_of_code code
    have fromUid := mem_handledFrom sound handled
    have next : d.server.nextPacket locals (r.link i) = some pack ∧ k = i := by
      simp only [handledFrom] at handled
      split at handled
      · next same => exact ⟨Option.mem_toList.mp handled, same⟩
      · cases handled
    obtain ⟨next, rfl⟩ := next
    have registry : (d.step r (.work k locals ok)).server.dcnClients =
        register locals (d.server.popped (r.link k)) (r.link k) pack.fromUid := by
      simp [step, serverStep, Server.dcnAsyncWorker_some ok next]
    obtain ⟨toCli, found⟩ := Routing.found_of_known known noPing single
    have notSender : r.uid j ≠ pack.fromUid := fun same => other (same.symm.trans named)
    have sends : ¬(pack.fromUid = pack.toUid ∨ r.uid j = pack.fromUid ∨ pack.toUid = 0 ∧ pack.packtype = .ping) := by
      simp only [not_or]
      exact ⟨other, notSender, noPing⟩
    have copied : copyFor (register locals (d.server.popped (r.link k)) (r.link k) pack.fromUid) pack (r.uid j) =
        some (unicastCopy pack) := by
      rw [copyFor, if_neg sends, single, if_pos named.symm, named, found]
      rfl
    refine List.mem_flatMap.mpr ⟨pack, handled, ?_⟩
    rw [registry, copied]
    exact List.mem_singleton.mpr rfl
  | _ => cases answered

end Run

end Deployment

end Dcn
