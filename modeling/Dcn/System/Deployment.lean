import Dcn.Client.Delivery
import Dcn.Client.Integrity
import Dcn.Client.Refusals
import Dcn.Server.Routing

/-! A server and any number of sessions, each on a connection of its own.

A party is a session that packs its requests with dcn_request and stays
connected. Its write queue, the read queue of its connection, the connection's
write queue and its own read queue are joined to lines of whole blocks, in both
directions. A run of dcn_async_worker is one step, from its pop to its last push,
so the handlers come one after another; so are a dcn_request and a run of a
session's handler. Two handlers at once can push in the other order than they
popped; the runs of `Dcn.Relay` have them.
-/

set_option autoImplicit false

namespace Dcn

/-- The parties' UIDs, and the address, descriptor and endpoint of the connection
of each, no two of them alike. -/
structure Roster (ι : Type) where
  uid : ι → UInt64
  link : ι → Conn
  fd : ι → Int
  ip : ι → String
  port : ι → UInt16
  uids : Function.Injective uid
  links : Function.Injective link
  fds : Function.Injective fd
  positive : ∀ i, 0 < fd i
  endpoints : ∀ i j, ip i = ip j → port i = port j → i = j

structure Deployment (ι : Type) where
  server : Server
  session : ι → Session

/-- A party connects, makes a request, or looks for what it asked for; a block
moves up to the server or down to a party; a handler runs on either side. -/
inductive Move (ι : Type) where
  | join (i : ι)
  | request (i : ι) (pack : SizedPacket) (toUid : UInt64)
  | upload (i : ι)
  | work (i : ι) (locals : Locals) (ok : Conn → Bool)
  | download (i : ι)
  | message (i : ι) (undecoded : Undecoded)
  | gather (i : ι) (fromUid : UInt64) (hasTimeout : Bool)
  | watch (i : ι) (pack : Packet)
  | collect (i : ι) (muid : UInt64)

def contents (q : Queue) : List Packet := q.blocks.map gathered

namespace Deployment

variable {ι : Type} [DecidableEq ι] (r : Roster ι)

omit [DecidableEq ι] in
def start : Deployment ι := ⟨dcnServInit, fun i => dcnNewSession (r.uid i)⟩

def onSession (d : Deployment ι) (i : ι) (f : Session → Session) : Deployment ι :=
  { d with session := Function.update d.session i (f (d.session i)) }

def onBoth (d : Deployment ι) (i : ι) (f : Session → Session) (g : Client → Client) : Deployment ι :=
  { d.onSession i f with server := d.server.modify (r.link i) g }

omit [DecidableEq ι] in
def conn (d : Deployment ι) (i : ι) : Option Client := d.server.clients (r.link i)

def upload (d : Deployment ι) (i : ι) : Deployment ι :=
  match d.conn r i, popBlock (d.session i).writeq with
  | some _, (_, some block, writeq) =>
    { d.onSession i (fun s => { s with writeq := writeq }) with
      server := serverStep d.server (.frame (r.link i) block) }
  | _, _ => d

def download (d : Deployment ι) (i : ι) : Deployment ι :=
  match (d.conn r i).map fun c => popBlock c.writeQ with
  | some (_, some block, writeQ) =>
    d.onBoth r i (fun s => { s with readq := pushBlock s.readq block }) fun c => { c with writeQ := writeQ }
  | _ => d

def step (d : Deployment ι) : Move ι → Deployment ι
  | .join i => { d with server := serverStep d.server (.accept (r.link i) (r.fd i) (r.ip i) (r.port i)) }
  | .request i pack toUid => d.onSession i fun s => (dcnRequest s pack.pack toUid).2
  | .upload i => d.upload r i
  | .work i locals ok => { d with server := serverStep d.server (.work (r.link i) locals ok) }
  | .download i => d.download r i
  | .message i undecoded => d.onSession i fun s => mailboxStep s (.message undecoded)
  | .gather i fromUid hasTimeout => d.onSession i fun s => mailboxStep s (.gather fromUid hasTimeout)
  | .watch i pack => d.onSession i fun s => registerWaiter s pack
  | .collect i muid => d.onSession i fun s => { s with
      responses := mapErase s.responses muid
      cndResponses := mapErase s.cndResponses muid }

section Histories

variable (i : ι)

def sentBy (d : Deployment ι) : Move ι → List Packet
  | .request k pack toUid => if k = i then [(dcnRequest (d.session i) pack.pack toUid).1] else []
  | _ => []

def handledFrom (d : Deployment ι) : Move ι → List Packet
  | .work k locals _ => if k = i then (d.server.nextPacket locals (r.link i)).toList else []
  | _ => []

omit [DecidableEq ι] in
def pushedTo (d : Deployment ι) : Move ι → List Packet
  | .work k locals ok => (dcnAsyncWorker locals ok d.server (r.link k)).2.filterMap (Effect.packetTo (r.link i))
  | _ => []

def receivedBy (d : Deployment ι) : Move ι → List Packet
  | .message k undecoded => if k = i then handledBy (d.session i) (.message undecoded) else []
  | _ => []

def gatheredBy (d : Deployment ι) : Move ι → List Packet
  | .gather k fromUid hasTimeout => if k = i then returnedBy (d.session i) (.gather fromUid hasTimeout) else []
  | _ => []

omit [DecidableEq ι] in
/-- What the party sent and the server has not handled yet. -/
def outbound (d : Deployment ι) : List Packet :=
  ((d.conn r i).map fun c => contents c.readQ).getD [] ++ contents (d.session i).writeq

omit [DecidableEq ι] in
def inbound (d : Deployment ι) : List Packet :=
  contents (d.session i).readq ++ ((d.conn r i).map fun c => contents c.writeQ).getD []

end Histories

def Own (i : ι) (block : Block) : Prop :=
  ∃ pack : Packet, pack.Fits ∧ block = packetSerial pack ∧ pack.fromUid = r.uid i ∧ pack.fromOs = 0

/-- The registry and the connections are the parties', each under its own UID,
and every block on its way can be decoded. -/
structure Sound (d : Deployment ι) : Prop where
  wf : d.server.WellFormed
  addresses : ∀ cli c, d.server.clients cli = some c →
    ∃ i, cli = r.link i ∧ c.fd = r.fd i ∧ c.ip = r.ip i ∧ c.port = r.port i
  honest : ∀ e ∈ d.server.dcnClients.entries, ∃ i, e = (r.uid i, r.link i)
  cliUid : ∀ i, (d.session i).cliUid = r.uid i
  outgoing : ∀ i, ∀ block ∈ (d.session i).writeq.blocks, Own r i block
  uploaded : ∀ i c, d.conn r i = some c → ∀ block ∈ c.readQ.blocks, Own r i block
  pushed : ∀ i c, d.conn r i = some c → ∀ block ∈ c.writeQ.blocks,
    ∃ pack : Packet, pack.Fits ∧ block = packetSerial pack
  intact : ∀ i, Delivery.Intact (d.session i)

section Sessions

variable {session : Session}

theorem writeq_onPacket (undecoded : Undecoded) (pack : Packet) :
    (onPacket undecoded session pack).writeq = session.writeq := by
  rcases onPacket_cases undecoded session pack with
    ⟨_, same⟩ | ⟨_, _, same⟩ | ⟨_, _, _, ⟨_, same⟩ | same⟩ | ⟨_, _, _, same⟩
  all_goals rw [same]
  · rfl
  · rw [wakeAnswered_eq]
  · rw [wakeAnswered_eq]

theorem writeq_mailboxStep (e : MailboxEvent) : (mailboxStep session e).writeq = session.writeq := by
  cases e with
  | receive block => rfl
  | message undecoded =>
    simp only [mailboxStep, dcnOnMessage]
    split
    · rfl
    · rw [writeq_onPacket]
  | gather fromUid hasTimeout =>
    simp only [mailboxStep, asyncGrequests]
    repeat' split
    all_goals rfl

theorem registerWaiter_eq (session : Session) (pack : Packet) :
    ∃ usrWaiters, registerWaiter session pack = { session with usrWaiters := usrWaiters } := by
  unfold registerWaiter
  split
  · exact ⟨session.usrWaiters, rfl⟩
  · split
    · exact ⟨session.usrWaiters, rfl⟩
    · exact ⟨_, rfl⟩

end Sessions

section Frame

variable {d : Deployment ι} {i j : ι}

@[simp] theorem server_onSession (f : Session → Session) : (d.onSession i f).server = d.server := rfl

@[simp] theorem session_onSession_self (f : Session → Session) : (d.onSession i f).session i = f (d.session i) := by
  simp [onSession]

theorem session_onSession_of_ne (f : Session → Session) (differ : j ≠ i) :
    (d.onSession i f).session j = d.session j := by
  simp [onSession, differ]

omit [DecidableEq ι] in
theorem conn_modify_self (f : Client → Client) :
    conn r { d with server := d.server.modify (r.link i) f } i = (d.conn r i).map f :=
  Server.clients_modify_self ..

omit [DecidableEq ι] in
theorem conn_modify_of_ne (f : Client → Client) (differ : j ≠ i) :
    conn r { d with server := d.server.modify (r.link i) f } j = d.conn r j :=
  Server.clients_modify_of_ne _ _ _ fun same => differ (r.links same)

omit [DecidableEq ι] in
theorem conn_of_server {e : Deployment ι} (same : e.server = d.server) : e.conn r i = d.conn r i := by
  rw [conn, conn, same]

theorem session_onBoth_self (f : Session → Session) (g : Client → Client) :
    (d.onBoth r i f g).session i = f (d.session i) :=
  session_onSession_self f

theorem session_onBoth_of_ne (f : Session → Session) (g : Client → Client) (differ : j ≠ i) :
    (d.onBoth r i f g).session j = d.session j :=
  session_onSession_of_ne f differ

theorem conn_onBoth_self (f : Session → Session) (g : Client → Client) :
    (d.onBoth r i f g).conn r i = (d.conn r i).map g :=
  conn_modify_self r g

theorem conn_onBoth_of_ne (f : Session → Session) (g : Client → Client) (differ : j ≠ i) :
    (d.onBoth r i f g).conn r j = d.conn r j :=
  conn_modify_of_ne r g differ

theorem upload_cases (d : Deployment ι) (i : ι) : d.upload r i = d ∨
    ∃ c block rest, d.conn r i = some c ∧ (d.session i).writeq.blocks = block :: rest ∧
      d.upload r i = d.onBoth r i (fun s => { s with writeq := ⟨rest⟩ }) fun c =>
        { c with readQ := pushBlock c.readQ block, tasks := c.tasks + 1 } := by
  unfold upload
  cases present : d.conn r i with
  | none => exact .inl rfl
  | some c =>
    cases shape : (d.session i).writeq.blocks with
    | nil =>
      rw [popBlock_nil shape]
      exact .inl rfl
    | cons block rest =>
      rw [popBlock_cons shape]
      exact .inr ⟨c, block, rest, rfl, rfl, rfl⟩

theorem download_cases (d : Deployment ι) (i : ι) : d.download r i = d ∨
    ∃ c block rest, d.conn r i = some c ∧ c.writeQ.blocks = block :: rest ∧
      d.download r i = d.onBoth r i (fun s => { s with readq := pushBlock s.readq block }) fun c =>
        { c with writeQ := ⟨rest⟩ } := by
  unfold download
  cases present : d.conn r i with
  | none => exact .inl rfl
  | some c =>
    cases shape : c.writeQ.blocks with
    | nil =>
      rw [Option.map_some, popBlock_nil shape]
      exact .inl rfl
    | cons block rest =>
      rw [Option.map_some, popBlock_cons shape]
      exact .inr ⟨c, block, rest, rfl, shape, rfl⟩

theorem clients_work (s : Server) (cli other : Conn) (locals : Locals) (ok : Conn → Bool) :
    (serverStep s (.work cli locals ok)).clients other = (s.clients other).map fun c =>
      (dcnAsyncWorker locals ok s cli).2.foldl (Effect.apply ok other)
        (if other = cli then { c with readQ := (popBlock c.readQ).2.2 } else c) := by
  simp only [serverStep]
  cases next : s.nextPacket locals cli with
  | none =>
    rw [Server.dcnAsyncWorker_none ok next]
    simp only [List.foldl_nil]
    by_cases same : other = cli
    · subst same
      cases present : s.clients other with
      | none => rfl
      | some c =>
        have empty : c.readQ.blocks = [] := by
          rw [Server.nextPacket, present, Option.bind_some, Option.map_eq_none_iff] at next
          cases shape : c.readQ.blocks with
          | nil => rfl
          | cons block rest =>
            rw [popBlock_cons shape] at next
            cases next
        simp [popBlock_nil empty]
    · cases s.clients other <;> simp [same]
  | some pack =>
    rw [Server.dcnAsyncWorker_some ok next]
    simp only [handlePacket, Server.clients_foldl_perform, Server.popped]
    by_cases same : other = cli
    · subst same
      simp [Function.comp_def]
    · rw [Server.clients_modify_of_ne _ _ _ same]
      simp [same]

end Frame

section Soundness

variable {r} {d : Deployment ι} {i : ι}

omit [DecidableEq ι] in
theorem sound_start : Sound r (start r) where
  wf := by
    have nothing : Runs.Along serverStep Server.Admits dcnServInit [] := trivial
    exact (Routing.wellFormed_throughout nothing).last
  addresses cli c present := by cases present
  honest e member := by cases member
  cliUid i := rfl
  outgoing i block member := by cases member
  uploaded i c present := by cases present
  pushed i c present := by cases present
  intact i := by
    refine ⟨fun block member => ?_, fun uid targ found => ?_⟩
    · cases member
    · cases found

theorem Sound.onSession (sound : Sound r d) (i : ι) (f : Session → Session)
    (cliUid : (f (d.session i)).cliUid = (d.session i).cliUid)
    (outgoing : ∀ block ∈ (f (d.session i)).writeq.blocks, Own r i block)
    (intact : Delivery.Intact (f (d.session i))) : Sound r (d.onSession i f) := by
  refine ⟨sound.wf, sound.addresses, sound.honest, fun j => ?_, fun j => ?_, sound.uploaded, sound.pushed, fun j => ?_⟩
  all_goals
    by_cases same : j = i
    · subst same
      rw [session_onSession_self]
      first
        | exact cliUid.trans (sound.cliUid j)
        | assumption
    · rw [session_onSession_of_ne f same]
      first
        | exact sound.cliUid j
        | exact sound.outgoing j
        | exact sound.intact j

theorem Sound.onConn (sound : Sound r d) (i : ι) {f : Client → Client} (same : ∀ c, (f c).SameAddress c)
    (uploaded : ∀ c, d.conn r i = some c → ∀ block ∈ (f c).readQ.blocks, Own r i block)
    (pushed : ∀ c, d.conn r i = some c → ∀ block ∈ (f c).writeQ.blocks,
      ∃ pack : Packet, pack.Fits ∧ block = packetSerial pack) :
    Sound r { d with server := d.server.modify (r.link i) f } := by
  refine ⟨Routing.wellFormed_modify sound.wf same, fun cli c present => ?_, sound.honest, sound.cliUid, sound.outgoing,
    fun j c present => ?_, fun j c present => ?_, sound.intact⟩
  · obtain ⟨c', before, ip, port, fd⟩ := Routing.addresses_modify same cli c present
    obtain ⟨k, isLink, addressed⟩ := sound.addresses cli c' before
    exact ⟨k, isLink, by rw [fd, addressed.1], by rw [ip, addressed.2.1], by rw [port, addressed.2.2]⟩
  all_goals
    by_cases here : j = i
    · subst here
      rw [conn_modify_self] at present
      obtain ⟨c', before, rfl⟩ := Option.map_eq_some_iff.mp present
      first
        | exact uploaded c' before
        | exact pushed c' before
    · rw [conn_modify_of_ne r f here] at present
      first
        | exact sound.uploaded j c present
        | exact sound.pushed j c present

theorem sound_join (sound : Sound r d) (i : ι) : Sound r (d.step r (.join i)) := by
  have fresh : (d.conn r i).isSome = false → ∀ cli c, d.server.clients cli = some c →
      c.fd ≠ r.fd i ∧ ¬(c.ip = r.ip i ∧ c.port = r.port i) := by
    intro absent cli c present
    obtain ⟨k, isLink, fd, ip, port⟩ := sound.addresses cli c present
    have differ : k ≠ i := by
      rintro rfl
      rw [conn, ← isLink, present] at absent
      cases absent
    exact ⟨fun same => differ (r.fds (fd ▸ same)), fun same => differ (r.endpoints k i (ip ▸ same.1) (port ▸ same.2))⟩
  cases accepted : (d.conn r i).isSome with
  | true =>
    have same : d.step r (.join i) = d := by simp [step, serverStep, show (d.server.clients (r.link i)).isSome = true from accepted]
    rw [same]
    exact sound
  | false =>
    have old : ∀ {cli c}, (d.step r (.join i)).server.clients cli = some c →
        d.server.clients cli = some c ∨ cli = r.link i ∧ c = acceptClient (r.fd i) (r.ip i) (r.port i) :=
      fun present => Server.clients_accept present
    refine ⟨?_, fun cli c present => ?_, ?_, sound.cliUid, sound.outgoing, fun j c present => ?_, fun j c present => ?_,
      sound.intact⟩
    · exact Routing.wellFormed_step d.server (.accept (r.link i) (r.fd i) (r.ip i) (r.port i)) sound.wf
        ⟨trivial, r.positive i, fresh accepted⟩
    · rcases old present with before | ⟨here, rfl⟩
      · exact sound.addresses cli c before
      · exact ⟨i, here, rfl, rfl, rfl⟩
    · simp only [step, serverStep]
      split <;> exact sound.honest
    all_goals rcases old present with before | ⟨_, rfl⟩
    · exact sound.uploaded j c before
    · exact fun block member => by cases member
    · exact sound.pushed j c before
    · exact fun block member => by cases member

theorem sound_request (sound : Sound r d) (i : ι) (pack : SizedPacket) (toUid : UInt64) :
    Sound r (d.step r (.request i pack toUid)) := by
  have intact : Delivery.Intact (dcnRequest (d.session i) pack.pack toUid).2 :=
    ⟨(sound.intact i).arrived, (sound.intact i).senders⟩
  refine sound.onSession i (fun s => (dcnRequest s pack.pack toUid).2) rfl (fun block member => ?_) intact
  rcases List.mem_append.mp member with before | new
  · exact sound.outgoing i block before
  · exact ⟨(dcnRequest (d.session i) pack.pack toUid).1, pack.fits, List.mem_singleton.mp new, sound.cliUid i, rfl⟩

theorem sound_upload (sound : Sound r d) (i : ι) : Sound r (d.step r (.upload i)) := by
  simp only [step]
  rcases upload_cases r d i with same | ⟨c, block, rest, present, shape, moved⟩
  · rwa [same]
  · have own : Own r i block := sound.outgoing i block (shape ▸ List.mem_cons_self)
    rw [moved]
    refine Sound.onConn (sound.onSession i (fun s => { s with writeq := ⟨rest⟩ }) rfl (fun other member => ?_) ?_) i (fun c => ⟨rfl, rfl, rfl⟩)
      (fun c' before other member => ?_) fun c' before => sound.pushed i c' before
    · exact sound.outgoing i other (shape ▸ List.mem_cons_of_mem _ member)
    · exact ⟨(sound.intact i).arrived, (sound.intact i).senders⟩
    · rcases List.mem_append.mp member with old | new
      · exact sound.uploaded i c' before other old
      · exact List.mem_singleton.mp new ▸ own

theorem sound_download (sound : Sound r d) (i : ι) : Sound r (d.step r (.download i)) := by
  simp only [step]
  rcases download_cases r d i with same | ⟨c, block, rest, present, shape, moved⟩
  · rwa [same]
  · obtain ⟨pack, fits, serial⟩ := sound.pushed i c present block (shape ▸ List.mem_cons_self)
    rw [moved]
    refine Sound.onConn (sound.onSession i (fun s => { s with readq := pushBlock s.readq block }) rfl (sound.outgoing i) ?_) i (fun c => ⟨rfl, rfl, rfl⟩)
      (fun c' before => sound.uploaded i c' before) fun c' before other member => ?_
    · refine ⟨fun other member => ?_, (sound.intact i).senders⟩
      rcases List.mem_append.mp member with old | new
      · exact (sound.intact i).arrived other old
      · rw [List.mem_singleton.mp new, serial]
        exact ⟨by rw [length_packetSerial]; exact fits, by rw [fits.deserial_serial]; rfl⟩
    · have here : c' = c := Option.some.inj (before.symm.trans present)
      subst here
      exact sound.pushed i c' present other (shape ▸ List.mem_cons_of_mem _ member)

theorem fits_of_push {s : Server} {cli target : Conn} {locals : Locals} {ok : Conn → Bool} {pack sent : Packet}
    (fits : pack.Fits) (member : .push target sent ∈ (handlePacket locals ok s cli pack).2) : sent.Fits := by
  rcases Party.push_mem_respond member with ⟨_, rfl⟩ | ⟨_, data⟩
  · exact Party.fits_answerTo
  · unfold Packet.Fits
    rw [data]
    exact fits

omit [DecidableEq ι] in
theorem nextPacket_cases (sound : Sound r d) (i : ι) (locals : Locals) :
    d.server.nextPacket locals (r.link i) = none ∧ (∀ c, d.conn r i = some c → c.readQ.blocks = []) ∨
    ∃ c rest pack, d.conn r i = some c ∧ c.readQ.blocks = packetSerial pack :: rest ∧ pack.Fits ∧
      pack.fromUid = r.uid i ∧ pack.fromOs = 0 ∧ d.server.nextPacket locals (r.link i) = some pack := by
  cases present : d.conn r i with
  | none =>
    refine .inl ⟨?_, fun c found => by cases found⟩
    rw [Server.nextPacket, show d.server.clients (r.link i) = none from present]
    rfl
  | some c =>
    have here : d.server.clients (r.link i) = some c := present
    cases shape : c.readQ.blocks with
    | nil =>
      refine .inl ⟨?_, fun c' found => ?_⟩
      · rw [Server.nextPacket, here, Option.bind_some, popBlock_nil shape]
        rfl
      · cases found
        exact shape
    | cons block rest =>
      obtain ⟨pack, fits, rfl, fromUid, fromOs⟩ := sound.uploaded i c present block (shape ▸ List.mem_cons_self)
      refine .inr ⟨c, rest, pack, rfl, shape, fits, fromUid, fromOs, ?_⟩
      rw [Server.nextPacket, here, Option.bind_some, popBlock_cons shape, Option.map_some, fits.deserial_serial]
      rfl

omit [DecidableEq ι] in
/-- Who sends under his own UID on his own connection is registered there. -/
theorem honest_register (sound : Sound r d) (i : ι) (locals : Locals) {s : Server}
    (same : s.dcnClients = d.server.dcnClients) :
    ∀ e ∈ (register locals s (r.link i) (r.uid i)).entries, ∃ k, e = (r.uid k, r.link k) := by
  intro e member
  rcases register_cases locals s (r.link i) (r.uid i) with stored | kept
  · rw [stored] at member
    rcases Map.mem_mapSet.mp member with ⟨key, val⟩ | ⟨_, before⟩
    · exact ⟨i, Prod.ext key val⟩
    · exact sound.honest e (same ▸ before)
  · rw [kept, same] at member
    exact sound.honest e member

theorem sound_work (sound : Sound r d) (i : ι) (locals : Locals) (ok : Conn → Bool) :
    Sound r (d.step r (.work i locals ok)) := by
  have wf := Routing.wellFormed_step d.server (.work (r.link i) locals ok) sound.wf ⟨trivial, trivial⟩
  have clients := fun other => clients_work d.server (r.link i) other locals ok
  rcases nextPacket_cases sound i locals with ⟨next, _⟩ | ⟨c, rest, pack, present, shape, fits, fromUid, _, next⟩
  · have same : d.step r (.work i locals ok) = d := by simp [step, serverStep, Server.dcnAsyncWorker_none ok next]
    rwa [same]
  · have run := Server.dcnAsyncWorker_some ok next
    refine ⟨wf, fun cli c' opened => ?_, ?_, sound.cliUid, sound.outgoing, fun j c' opened => ?_,
      fun j c' opened => ?_, sound.intact⟩
    · obtain ⟨before, found, rfl⟩ := Option.map_eq_some_iff.mp ((clients cli).symm.trans opened)
      obtain ⟨k, isLink, addressed⟩ := sound.addresses cli before found
      have address := @Effect.sameAddress_foldl_apply ok cli
        (if cli = r.link i then { before with readQ := (popBlock before.readQ).2.2 } else before)
        (dcnAsyncWorker locals ok d.server (r.link i)).2
      have popped : (if cli = r.link i then { before with readQ := (popBlock before.readQ).2.2 } else before).SameAddress
          before := by
        split <;> exact ⟨rfl, rfl, rfl⟩
      obtain ⟨ip, port, fd⟩ := address.trans popped
      exact ⟨k, isLink, by rw [fd, addressed.1], by rw [ip, addressed.2.1], by rw [port, addressed.2.2]⟩
    · simp only [step, serverStep, run, Server.dcnClients_handlePacket, fromUid]
      exact honest_register sound i locals rfl
    · obtain ⟨before, found, rfl⟩ := Option.map_eq_some_iff.mp ((clients (r.link j)).symm.trans opened)
      intro block member
      rw [Effect.readQ_foldl_apply] at member
      split at member
      · refine sound.uploaded j before found block ?_
        cases queue : before.readQ.blocks with
        | nil => rwa [popBlock_nil queue, queue] at member
        | cons first more =>
          rw [popBlock_cons queue] at member
          exact List.mem_cons_of_mem _ member
      · exact sound.uploaded j before found block member
    · obtain ⟨before, found, rfl⟩ := Option.map_eq_some_iff.mp ((clients (r.link j)).symm.trans opened)
      intro block member
      rw [Effect.blocks_foldl_apply] at member
      rcases List.mem_append.mp member with old | new
      · refine sound.pushed j before found block ?_
        split at old <;> exact old
      · obtain ⟨sent, pushed, rfl⟩ := List.mem_map.mp new
        obtain ⟨e, inside, isPush⟩ := List.mem_filterMap.mp pushed
        rw [run, Effect.packetTo_eq_some.mp isPush] at inside
        exact ⟨sent, fits_of_push fits inside, rfl⟩

theorem sound_mailbox (sound : Sound r d) (i : ι) (e : MailboxEvent) (readable : Delivery.Readable.event e) :
    Sound r (d.onSession i fun s => mailboxStep s e) := by
  refine sound.onSession i (fun s => mailboxStep s e) (Delivery.cliUid_step _ e) ?_ (Delivery.intact_step (sound.intact i) readable)
  rw [writeq_mailboxStep]
  exact sound.outgoing i

theorem sound_step (sound : Sound r d) (e : Move ι) : Sound r (d.step r e) := by
  cases e with
  | join i => exact sound_join sound i
  | request i pack toUid => exact sound_request sound i pack toUid
  | upload i => exact sound_upload sound i
  | work i locals ok => exact sound_work sound i locals ok
  | download i => exact sound_download sound i
  | message i undecoded => exact sound_mailbox sound i (.message undecoded) trivial
  | gather i fromUid hasTimeout => exact sound_mailbox sound i (.gather fromUid hasTimeout) trivial
  | watch i pack =>
    obtain ⟨usrWaiters, watched⟩ := registerWaiter_eq (d.session i) pack
    refine sound.onSession i (fun s => registerWaiter s pack) ?_ ?_ ?_
    all_goals rw [watched]
    · exact sound.outgoing i
    · exact ⟨(sound.intact i).arrived, (sound.intact i).senders⟩
  | collect i muid =>
    have intact : Delivery.Intact { d.session i with
        responses := mapErase (d.session i).responses muid
        cndResponses := mapErase (d.session i).cndResponses muid } :=
      ⟨(sound.intact i).arrived, (sound.intact i).senders⟩
    exact sound.onSession i (fun s => { s with
      responses := mapErase s.responses muid
      cndResponses := mapErase s.cndResponses muid }) rfl (sound.outgoing i) intact

end Soundness

end Deployment

end Dcn
