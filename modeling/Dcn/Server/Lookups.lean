import Dcn.Memory.Pointers
import Dcn.Server.Handling

/-! The handlers of several workers with the pointers of their lookups (server.c).

map_at on dcn_clients returns a pointer into its array of values, which the
handler follows later, and map_key_by_val one into its array of keys, which the
disconnector gives to map_erase. Other threads may have had the arrays replaced
by then. What follows the use of a pointer into an array that was given back is
left out, so such a step changes nothing.
-/

set_option autoImplicit false

namespace Dcn

inductive LookupExit where
  | declined
  | ping
  | broadcast
  | unknown
  | unicast (toCliPtr : SlotPtr)
  deriving DecidableEq, Repr

/-- The next step of dcn_async_worker after its pop. A broadcast asks for the
copies of one slot, which are pushed one effect after the other. -/
inductive LookupPc where
  | session
  | shadow
  | shadowTest (shadow : SlotPtr)
  | shadowIp (shadow : SlotPtr)
  | shadowPort (shadow : SlotPtr)
  | store
  | route
  | answer (exit : LookupExit)
  | target (toCliPtr : SlotPtr)
  | print (toCliPtr : SlotPtr) (toCli : Conn)
  | forward (toCli : Conn)
  | measure
  | keyAt (i len : Nat)
  | lookup (i len : Nat) (key : UInt64)
  | copyTarget (i len : Nat) (key : UInt64) (toCliPtr : SlotPtr)
  | copyPrint (i len : Nat) (key : UInt64) (toCliPtr : SlotPtr) (toCli : Conn)
  | copy (i len : Nat) (effects : List Effect)
  | notify
  deriving DecidableEq, Repr

structure LookupRun where
  cli : Conn
  pack : Packet
  pc : LookupPc

/-- The server, the arrays of dcn_clients, the runs of the handler, and the
connection that the event loop disconnects, with the key that it has found. -/
structure Lookups (ω : Type) where
  server : Server
  arrays : Arrays
  worker : ω → Option LookupRun
  disconnecting : Option (Conn × Option SlotPtr)

/-- A step of the event loop, the first and the second part of a disconnect, a
worker that enters the handler and pops, or a step of a worker. -/
inductive LookupsEvent (ω : Type) where
  | loop (event : ServerEvent)
  | find (cli : Conn)
  | erase (delOk : Bool)
  | pop (t : ω) (cli : Conn) (locals : Locals)
  | work (t : ω) (locals : Locals) (ok : Conn → Bool) (moved : Moved)

def lookupExit (arrays : Arrays) (dcnClients : Map UInt64 Conn) (pack : Packet) : LookupExit :=
  if pack.fromUid = pack.toUid then .declined
  else if pack.toUid = 0 ∧ pack.packtype = .ping then .ping
  else if pack.toUid = 0 ∧ pack.isBroadcast then .broadcast
  else
    match arrays.find dcnClients pack.toUid with
    | none => .unknown
    | some toCliPtr => if pack.isBroadcast then .broadcast else .unicast toCliPtr

def LookupExit.pack (locals : Locals) (pack : Packet) : LookupExit → Packet
  | .declined => selfAnswer locals pack
  | .unknown => codeAnswer pack 101
  | .ping | .broadcast | .unicast _ => codeAnswer pack 200

namespace LookupPc

/-- The pointer into the array of values that a later step follows. -/
def pointer : LookupPc → Option SlotPtr
  | .shadowTest ptr | .shadowIp ptr | .shadowPort ptr => some ptr
  | .answer (.unicast ptr) | .target ptr | .print ptr _ => some ptr
  | .copyTarget _ _ _ ptr | .copyPrint _ _ _ ptr _ => some ptr
  | _ => none

def uid (pack : Packet) : LookupPc → UInt64
  | .shadowTest _ | .shadowIp _ | .shadowPort _ => pack.fromUid
  | .copyTarget _ _ key _ | .copyPrint _ _ key _ _ => key
  | _ => pack.toUid

def follows : LookupPc → Bool
  | .answer _ => false
  | pc => pc.pointer.isSome

/-- The pointer is followed at once, or after the answer that it was found for. -/
theorem follows_or_answer {pc : LookupPc} {ptr : SlotPtr} (has : pc.pointer = some ptr) :
    pc.follows = true ∨ pc = .answer (.unicast ptr) := by
  cases pc with
  | answer exit =>
    cases exit with
    | unicast toCliPtr =>
      cases has
      exact .inr rfl
    | _ => cases has
  | _ => exact .inl (Option.isSome_of_mem has)

end LookupPc

namespace Lookups

variable {ω : Type} [DecidableEq ω]

def init (ω : Type) : Lookups ω := ⟨dcnServInit, .init, fun _ => none, none⟩

def goto (s : Lookups ω) (t : ω) (h : LookupRun) (pc : LookupPc) : Lookups ω :=
  { s with worker := Function.update s.worker t (some { h with pc := pc }) }

def leave (s : Lookups ω) (t : ω) : Lookups ω := { s with worker := Function.update s.worker t none }

def through (s : Lookups ω) (t : ω) (h : LookupRun) (ptr : SlotPtr) (next : Conn → LookupPc) : Lookups ω :=
  match s.arrays.value s.server.dcnClients ptr with
  | none => s
  | some cli => s.goto t h (next cli)

def answered (s : Lookups ω) (t : ω) (h : LookupRun) : LookupExit → Lookups ω
  | .declined => s.leave t
  | .ping | .unknown => s.goto t h .notify
  | .broadcast => s.goto t h .measure
  | .unicast toCliPtr => s.goto t h (.target toCliPtr)

def work (s : Lookups ω) (t : ω) (locals : Locals) (ok : Conn → Bool) (moved : Moved) : Lookups ω :=
  match s.worker t with
  | none => s
  | some h =>
    match h.pc with
    | .session => { s with
        server := { s.server with
          dcnSessions := mapSet s.server.dcnSessions h.pack.fromUid h.pack.muid } }.goto t h .shadow
    | .shadow =>
      match s.arrays.find s.server.dcnClients h.pack.fromUid with
      | none => s.goto t h .store
      | some shadow => s.goto t h (.shadowTest shadow)
    -- A stored pointer is never NULL.
    | .shadowTest shadow => s.through t h shadow fun _ => .shadowIp shadow
    | .shadowIp shadow => s.through t h shadow fun cli =>
        if (s.server.deref locals cli).ip ≠ (s.server.deref locals h.cli).ip then .store else .shadowPort shadow
    | .shadowPort shadow => s.through t h shadow fun cli =>
        if (s.server.deref locals cli).port ≠ (s.server.deref locals h.cli).port then .store else .route
    | .store => { s with
        server := { s.server with dcnClients := mapSet s.server.dcnClients h.pack.fromUid h.cli }
        arrays := s.arrays.set (mapIn s.server.dcnClients h.pack.fromUid) moved }.goto t h .route
    | .route => s.goto t h (.answer (lookupExit s.arrays s.server.dcnClients h.pack))
    | .answer exit =>
      { s with server := s.server.perform ok (.push h.cli (exit.pack locals h.pack)) }.answered t h exit
    | .target toCliPtr => s.through t h toCliPtr fun toCli => .print toCliPtr toCli
    -- The test of the pointer and what is printed are read through it again.
    | .print toCliPtr toCli => s.through t h toCliPtr fun _ => .forward toCli
    | .forward toCli =>
      if 0 < (s.server.deref locals toCli).fd then
        { s with server := s.server.perform ok (.push toCli (unicastCopy h.pack)) }.goto t h .notify
      else s.goto t h .notify
    | .measure => s.goto t h (.keyAt 0 s.server.dcnClients.entries.length)
    | .keyAt i len =>
      if i < len then
        match mapKeyAt s.server.dcnClients i with
        | none => s.goto t h (.keyAt (i + 1) len)
        | some key => s.goto t h (.lookup i len key)
      else s.goto t h .notify
    | .lookup i len key =>
      match s.arrays.find s.server.dcnClients key with
      | none => s.goto t h (.keyAt (i + 1) len)
      | some toCliPtr =>
        if key = h.pack.fromUid then s.goto t h (.keyAt (i + 1) len)
        else s.goto t h (.copyTarget i len key toCliPtr)
    | .copyTarget i len key toCliPtr => s.through t h toCliPtr fun toCli => .copyPrint i len key toCliPtr toCli
    | .copyPrint i len key toCliPtr toCli => s.through t h toCliPtr fun _ =>
        .copy (i + 1) len (broadcastTo locals s.server h.cli h.pack key toCli)
    | .copy i len (effect :: rest) =>
      { s with server := s.server.perform ok effect }.goto t h (.copy i len rest)
    | .copy i len [] => s.goto t h (.keyAt i len)
    | .notify => { s with server := s.server.perform ok (.changeClimod h.cli .output) }.leave t

def pop (s : Lookups ω) (t : ω) (cli : Conn) (locals : Locals) : Lookups ω :=
  match s.worker t, s.server.nextPacket locals cli with
  | none, some pack => { s with
      server := s.server.popped cli
      worker := Function.update s.worker t (some ⟨cli, pack, .session⟩) }
  | _, _ => s

/-- The event loop does nothing else during a disconnect, and it runs no handler. -/
def loop (s : Lookups ω) : ServerEvent → Lookups ω
  | .work _ _ _ | .disconnect _ _ => s
  | event => if s.disconnecting = none then { s with server := serverStep s.server event } else s

def find (s : Lookups ω) (cli : Conn) : Lookups ω :=
  if s.disconnecting = none ∧ (s.server.clients cli).isSome then
    { s with disconnecting := some (cli, s.arrays.findByVal s.server.dcnClients cli) }
  else s

/-- map_erase with the key found, which is followed there, and close_client. -/
def erase (s : Lookups ω) (delOk : Bool) : Lookups ω :=
  match s.disconnecting with
  | none => s
  | some (cli, none) => { s with server := closeClient s.server cli delOk, disconnecting := none }
  | some (cli, some ptr) =>
    match s.arrays.key s.server.dcnClients ptr with
    | none => s
    | some key => { s with
        server := closeClient { s.server with dcnClients := mapErase s.server.dcnClients key } cli delOk
        arrays := s.arrays.erase (mapIn s.server.dcnClients key)
        disconnecting := none }

def step (s : Lookups ω) : LookupsEvent ω → Lookups ω
  | .loop event => s.loop event
  | .find cli => s.find cli
  | .erase delOk => s.erase delOk
  | .pop t cli locals => s.pop t cli locals
  | .work t locals ok moved => s.work t locals ok moved

@[simp] theorem worker_goto (s : Lookups ω) (t : ω) (h : LookupRun) (pc : LookupPc) :
    (s.goto t h pc).worker = Function.update s.worker t (some { h with pc := pc }) := rfl

@[simp] theorem worker_leave (s : Lookups ω) (t : ω) : (s.leave t).worker = Function.update s.worker t none := rfl

section Uninterrupted

variable {locals : Locals} {ok : Conn → Bool} {moved : Moved} {t : ω}

def Reaches (locals : Locals) (ok : Conn → Bool) (moved : Moved) (t : ω) (s s' : Lookups ω) : Prop :=
  ∃ n, Runs.run step s (List.replicate n (.work t locals ok moved)) = s'

theorem Reaches.refl (s : Lookups ω) : Reaches locals ok moved t s s := ⟨0, rfl⟩

theorem Reaches.next {s s' : Lookups ω} (later : Reaches locals ok moved t (s.work t locals ok moved) s') :
    Reaches locals ok moved t s s' := by
  obtain ⟨n, run⟩ := later
  refine ⟨n + 1, ?_⟩
  rw [List.replicate_succ, Runs.run_cons]
  exact run

theorem Reaches.trans {s s' s'' : Lookups ω} (first : Reaches locals ok moved t s s')
    (second : Reaches locals ok moved t s' s'') : Reaches locals ok moved t s s'' := by
  obtain ⟨n, run⟩ := first
  obtain ⟨m, rest⟩ := second
  refine ⟨n + m, ?_⟩
  rw [List.replicate_add, Runs.run_append, run, rest]

/-- Where a worker is that has not followed the pointer of its lookup yet, and
where one is that has read the connection with the lookup. -/
inductive Place (value : SlotPtr → Option Conn) : HandlerPc → LookupPc → Prop where
  | session : Place value .session .session
  | lookup : Place value .lookup .shadow
  | store : Place value .store .store
  | route : Place value .route .route
  | declined : Place value (.answer .declined) (.answer .declined)
  | ping : Place value (.answer .ping) (.answer .ping)
  | toAll : Place value (.answer .broadcast) (.answer .broadcast)
  | unknown : Place value (.answer .unknown) (.answer .unknown)
  | unicast (toCli : Conn) (ptr : SlotPtr) (reads : value ptr = some toCli) :
    Place value (.answer (.unicast toCli)) (.answer (.unicast ptr))
  | forward (toCli : Conn) (ptr : SlotPtr) (reads : value ptr = some toCli) : Place value (.forward toCli) (.target ptr)
  | measure : Place value .measure .measure
  | copy (i len : Nat) (effects : List Effect) : Place value (.broadcast i len effects) (.copy i len effects)
  | keyAt (i len : Nat) : Place value (.broadcast i len []) (.keyAt i len)
  | notify : Place value .notify .notify

structure Alike (t : ω) (r : Relay ω) (s : Lookups ω) : Prop where
  server : s.server = r.server
  worker : r.worker t = none ∧ s.worker t = none ∨ ∃ h pc, r.worker t = some h ∧ s.worker t = some ⟨h.cli, h.pack, pc⟩ ∧
    Place (s.arrays.value s.server.dcnClients) h.pc pc

variable {r : Relay ω} {s : Lookups ω} {h : Handling} {k : LookupRun}

theorem alike_goto {place : HandlerPc} {pc : LookupPc} (server : s.server = r.server)
    (cli : k.cli = h.cli) (pack : k.pack = h.pack) (same : Place (s.arrays.value s.server.dcnClients) place pc) :
    Alike t (r.goto t h place) (s.goto t k pc) where
  server := server
  worker := .inr ⟨{ h with pc := place }, pc, Function.update_self .., by simp [cli, pack], same⟩

theorem alike_leave (server : s.server = r.server) : Alike t (r.leave t) (s.leave t) :=
  ⟨server, .inl ⟨Function.update_self .., Function.update_self ..⟩⟩

theorem through_value {ptr : SlotPtr} {next : Conn → LookupPc} {cli : Conn}
    (reads : s.arrays.value s.server.dcnClients ptr = some cli) : s.through t k ptr next = s.goto t k (next cli) := by
  rw [through, reads]

theorem reaches_stores (here : s.worker t = some k) (at_ : k.pc = .shadow) :
    Reaches locals ok moved t s
      (s.goto t k (if storesClient locals s.server k.cli k.pack.fromUid then .store else .route)) := by
  cases found : s.arrays.find s.server.dcnClients k.pack.fromUid with
  | none =>
    refine ⟨1, ?_⟩
    simp [step, work, here, at_, found, storesClient, Arrays.find_eq_none.mp found]
  | some ptr =>
    obtain ⟨shadow, read, stored⟩ := (Arrays.pointsTo_find found).value (Arrays.array_find found)
    have looked : s.work t locals ok moved = s.goto t k (.shadowTest ptr) := by simp only [work, here, at_, found]
    have tested : (s.goto t k (.shadowTest ptr)).work t locals ok moved = s.goto t k (.shadowIp ptr) := by
      simp [work, through, goto, read]
    refine Reaches.next (looked ▸ Reaches.next (tested ▸ ?_))
    by_cases ip : (s.server.deref locals shadow).ip = (s.server.deref locals k.cli).ip
    · by_cases port : (s.server.deref locals shadow).port = (s.server.deref locals k.cli).port
      · exact ⟨2, by simp [step, work, through, goto, read, ip, port, storesClient, stored]⟩
      · exact ⟨2, by simp [step, work, through, goto, read, ip, port, storesClient, stored]⟩
    · exact ⟨1, by simp [step, work, through, goto, read, ip, storesClient, stored]⟩

omit [DecidableEq ω] in
theorem place_route (pack : Packet) : Place (s.arrays.value s.server.dcnClients)
    (.answer (exitOf s.server.dcnClients pack)) (.answer (lookupExit s.arrays s.server.dcnClients pack)) := by
  unfold exitOf lookupExit
  split
  · exact .declined
  split
  · exact .ping
  split
  · exact .toAll
  cases found : s.arrays.find s.server.dcnClients pack.toUid with
  | none =>
    rw [Arrays.find_eq_none.mp found]
    exact .unknown
  | some ptr =>
    obtain ⟨toCli, read, stored⟩ := (Arrays.pointsTo_find found).value (Arrays.array_find found)
    rw [stored]
    dsimp only
    split
    · exact .toAll
    · exact .unicast toCli ptr read

theorem reaches_turn {i len : Nat} (here : s.worker t = some k) (at_ : k.pc = .keyAt i len) (more : i < len) :
    Reaches locals ok moved t s (s.goto t k (.keyAt (i + 1) len)) ∧
        broadcastAt locals s.server s.server.dcnClients k.cli k.pack i = [] ∨
      Reaches locals ok moved t s
        (s.goto t k (.copy (i + 1) len (broadcastAt locals s.server s.server.dcnClients k.cli k.pack i))) := by
  cases slot : mapKeyAt s.server.dcnClients i with
  | none => exact .inl ⟨⟨1, by simp [step, work, here, at_, more, slot]⟩, by simp [broadcastAt, slot]⟩
  | some key =>
    have read : s.work t locals ok moved = s.goto t k (.lookup i len key) := by
      simp only [work, here, at_, more, ↓reduceIte, slot]
    cases found : s.arrays.find s.server.dcnClients key with
    | none =>
      refine .inl ⟨Reaches.next (read ▸ ⟨1, ?_⟩), ?_⟩
      · simp [step, work, goto, found]
      · simp [broadcastAt, slot, Arrays.find_eq_none.mp found]
    | some ptr =>
      obtain ⟨toCli, value, stored⟩ := (Arrays.pointsTo_find found).value (Arrays.array_find found)
      by_cases own : key = k.pack.fromUid
      · subst own
        refine .inl ⟨Reaches.next (read ▸ ⟨1, ?_⟩), ?_⟩
        · simp [step, work, goto, found]
        · simp [broadcastAt, slot, stored, broadcastTo]
      · refine .inr (Reaches.next (read ▸ ⟨3, ?_⟩))
        simp [List.replicate, step, work, through, goto, found, own, value, broadcastAt, slot, stored]

theorem alike_turn {i len : Nat} (server : s.server = r.server) (here : r.worker t = some h)
    (at_ : h.pc = .broadcast i len []) (there : s.worker t = some ⟨h.cli, h.pack, .keyAt i len⟩) :
    ∃ s', Reaches locals ok moved t s s' ∧ Alike t (r.work t locals ok) s' := by
  by_cases more : i < len
  · have turned : r.work t locals ok = r.goto t h (.broadcast (i + 1) len
        (broadcastAt locals s.server s.server.dcnClients h.cli h.pack i)) := by
      simp only [Relay.work, here, at_, more, ↓reduceIte, server]
    rw [turned]
    rcases @reaches_turn ω _ locals ok moved t s _ i len there rfl more with ⟨reaches, nothing⟩ | reaches
    · refine ⟨_, reaches, alike_goto server rfl rfl ?_⟩
      rw [nothing]
      exact .keyAt ..
    · exact ⟨_, reaches, alike_goto server rfl rfl (.copy ..)⟩
  · refine ⟨_, ⟨1, rfl⟩, ?_⟩
    simp only [Relay.work, here, at_, List.replicate, Runs.run_cons, Runs.run_nil, step, work, there, more, ↓reduceIte]
    exact alike_goto server rfl rfl .notify

/-- What the worker does in one step that reads with the lookup, it does in some
steps of its own. -/
theorem alike_work (alike : Alike t r s) :
    ∃ s', Reaches locals ok moved t s s' ∧ Alike t (r.work t locals ok) s' := by
  obtain ⟨server, ⟨idle, still⟩ | ⟨h, pc, here, there, same⟩⟩ := alike
  · exact ⟨s, .refl s, by rw [Relay.work, idle]; exact server, .inl ⟨by rw [Relay.work, idle]; exact idle, still⟩⟩
  have one : Reaches locals ok moved t s (s.work t locals ok moved) := ⟨1, rfl⟩
  generalize at_ : h.pc = place at same
  cases same with
  | session =>
    refine ⟨_, one, ?_⟩
    simp only [Relay.work, here, at_, work, there]
    exact alike_goto (by rw [server]) rfl rfl .lookup
  | lookup =>
    refine ⟨_, reaches_stores there rfl, ?_⟩
    simp only [Relay.work, here, at_, server]
    split <;> exact alike_goto server rfl rfl (by constructor)
  | store =>
    refine ⟨_, one, ?_⟩
    simp only [Relay.work, here, at_, work, there]
    exact alike_goto (by rw [server]) rfl rfl .route
  | route =>
    refine ⟨_, one, ?_⟩
    simp only [Relay.work, here, at_, work, there, ← server]
    exact alike_goto server rfl rfl (place_route h.pack)
  | declined =>
    refine ⟨_, one, ?_⟩
    simp only [Relay.work, here, at_, work, there, Relay.answered, answered]
    exact alike_leave (by rw [server]; rfl)
  | ping | unknown =>
    refine ⟨_, one, ?_⟩
    simp only [Relay.work, here, at_, work, there, Relay.answered, answered]
    exact alike_goto (by rw [server]; rfl) rfl rfl .notify
  | toAll =>
    refine ⟨_, one, ?_⟩
    simp only [Relay.work, here, at_, work, there, Relay.answered, answered]
    exact alike_goto (by rw [server]; rfl) rfl rfl .measure
  | unicast toCli ptr reads =>
    refine ⟨_, one, ?_⟩
    simp only [Relay.work, here, at_, work, there, Relay.answered, answered]
    refine alike_goto (by rw [server]; rfl) rfl rfl (.forward toCli ptr ?_)
    rw [← reads]
    exact congrArg (s.arrays.value · ptr) (Server.dcnClients_perform ..)
  | forward toCli ptr reads =>
    -- The pointer is followed twice before the copy is made.
    let k : LookupRun := ⟨h.cli, h.pack, .target ptr⟩
    have read : s.work t locals ok moved = s.goto t k (.print ptr toCli) := by
      simp only [work, there, through_value reads]
      rfl
    have printed : (s.goto t k (.print ptr toCli)).work t locals ok moved = s.goto t k (.forward toCli) := by
      simp [work, through, goto, reads]
    have reaches : Reaches locals ok moved t s (s.goto t k (.forward toCli)) :=
      .next (read ▸ .next (printed ▸ .refl _))
    by_cases valid : 0 < (s.server.deref locals toCli).fd
    · have positive : 0 < (r.server.deref locals toCli).fd := server ▸ valid
      refine ⟨{ s with server := s.server.perform ok (.push toCli (unicastCopy h.pack)) }.goto t k .notify,
        reaches.trans ⟨1, ?_⟩, ?_⟩
      · simp [step, work, goto, valid, k]
      · simp only [Relay.work, here, at_, positive, ↓reduceIte]
        exact alike_goto (by rw [server]) rfl rfl .notify
    · have invalid : ¬0 < (r.server.deref locals toCli).fd := server ▸ valid
      refine ⟨s.goto t k .notify, reaches.trans ⟨1, ?_⟩, ?_⟩
      · simp [step, work, goto, valid, k]
      · simp only [Relay.work, here, at_, invalid, ↓reduceIte]
        exact alike_goto server rfl rfl .notify
  | measure =>
    refine ⟨_, one, ?_⟩
    simp only [Relay.work, here, at_, work, there, server]
    exact alike_goto server rfl rfl (.keyAt ..)
  | keyAt i len => exact alike_turn server here at_ there
  | copy i len effects =>
    cases effects with
    | cons effect rest =>
      refine ⟨_, one, ?_⟩
      simp only [Relay.work, here, at_, work, there]
      exact alike_goto (by rw [server]) rfl rfl (.copy ..)
    | nil =>
      -- The test of the loop is a step of its own here.
      have begun : s.work t locals ok moved = s.goto t ⟨h.cli, h.pack, .copy i len []⟩ (.keyAt i len) := by
        simp only [work, there]
      have placed : (s.goto t ⟨h.cli, h.pack, .copy i len []⟩ (.keyAt i len)).worker t =
          some ⟨h.cli, h.pack, .keyAt i len⟩ := Function.update_self ..
      obtain ⟨s', reaches, alike⟩ := @alike_turn ω _ locals ok moved t r
        (s.goto t ⟨h.cli, h.pack, .copy i len []⟩ (.keyAt i len)) h i len server here at_ placed
      exact ⟨s', Reaches.next (begun ▸ reaches), alike⟩
  | notify =>
    refine ⟨_, one, ?_⟩
    simp only [Relay.work, here, at_, work, there]
    exact alike_leave (by rw [server])

theorem alike_run (n : Nat) (alike : Alike t r s) : ∃ s', Reaches locals ok moved t s s' ∧
    Alike t (Runs.run Relay.step r (List.replicate n (.work t locals ok))) s' := by
  induction n generalizing r s with
  | zero => exact ⟨s, .refl s, alike⟩
  | succ n ih =>
    obtain ⟨between, first, there⟩ := @alike_work ω _ locals ok moved t r s alike
    obtain ⟨s', rest, after⟩ := ih there
    rw [List.replicate_succ, Runs.run_cons]
    exact ⟨s', first.trans rest, after⟩

/-- A worker that nothing comes between does what the handler does in one step. -/
theorem reaches_handlePacket (here : s.worker t = some k) (start : k.pc = .session) :
    ∃ s', Reaches locals ok moved t s s' ∧ s'.worker t = none ∧
      s'.server = (handlePacket locals ok s.server k.cli k.pack).1 := by
  let h : Handling := ⟨k.cli, 0, k.pack, .session⟩
  let r : Relay ω := ⟨s.server, fun _ => some h, fun _ => [], 0, []⟩
  have alike : Alike t r s := ⟨rfl, .inr ⟨h, .session, rfl, by rw [here, ← start], .session⟩⟩
  obtain ⟨sent, n, handled⟩ := @Relay.reaches_handlePacket ω _ locals ok t h r rfl rfl
  obtain ⟨s', reaches, server, after⟩ := alike_run n alike
  rw [handled] at server after
  refine ⟨s', reaches, ?_, server⟩
  rcases after with ⟨-, idle⟩ | ⟨h', pc, busy, -⟩
  · exact idle
  · simp [Relay.put] at busy

end Uninterrupted

end Lookups

end Dcn
