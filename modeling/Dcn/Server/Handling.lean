import Dcn.Foundation.Runs
import Dcn.Server.Effects

/-! The handlers of several workers, step by step (server.c).

Each pop, push and store is a step of its own, and the event loop works between
the steps. A lookup reads the connection that it finds; `Dcn.Lookups` keeps the
pointer and has the read as a later step. A pass of the broadcast loop looks the
key and its connection up in one step. Blocks are stamped when they are framed,
which no step of the program reads. A run that nothing comes between is
`dcnAsyncWorker`.
-/

set_option autoImplicit false

namespace Dcn

inductive Exit where
  | declined
  | ping
  | broadcast
  | unknown
  | unicast (toCli : Conn)
  deriving DecidableEq, Repr

inductive HandlerPc where
  | session
  | lookup
  | store
  | route
  | answer (exit : Exit)
  | forward (toCli : Conn)
  | measure
  | broadcast (i len : Nat) (effects : List Effect)
  | notify
  deriving DecidableEq, Repr

/-- A run of the handler: the connection, the stamp of the block it popped, the
packet and the next step. -/
structure Handling where
  cli : Conn
  stamp : Nat
  pack : Packet
  pc : HandlerPc

structure Forwarded where
  cli : Conn
  stamp : Nat
  pack : Packet
  toCli : Conn

def Handling.copy (h : Handling) (toCli : Conn) : Forwarded := ⟨h.cli, h.stamp, h.pack, toCli⟩

/-- The server, the runs of the handler, the stamps of the blocks in each read
queue with the next stamp, and the copies pushed so far. -/
structure Relay (ω : Type) where
  server : Server
  worker : ω → Option Handling
  stamps : Conn → List Nat
  clock : Nat
  forwarded : List Forwarded

/-- A step of the event loop, a worker that enters the handler of a connection
and pops, or a step of a worker. -/
inductive RelayEvent (ω : Type) where
  | loop (event : ServerEvent)
  | pop (t : ω) (cli : Conn) (locals : Locals)
  | work (t : ω) (locals : Locals) (ok : Conn → Bool)

def storesClient (locals : Locals) (s : Server) (cli : Conn) (fromUid : UInt64) : Bool :=
  match mapAt s.dcnClients fromUid with
  | none => true
  | some shadow => (s.deref locals shadow).ip ≠ (s.deref locals cli).ip ∨
      (s.deref locals shadow).port ≠ (s.deref locals cli).port

def exitOf (dcnClients : Map UInt64 Conn) (pack : Packet) : Exit :=
  if pack.fromUid = pack.toUid then .declined
  else if pack.toUid = 0 ∧ pack.packtype = .ping then .ping
  else if pack.toUid = 0 ∧ pack.isBroadcast then .broadcast
  else
    match mapAt dcnClients pack.toUid with
    | none => .unknown
    | some toCli => if pack.isBroadcast then .broadcast else .unicast toCli

def exitAnswer (locals : Locals) (pack : Packet) : Exit → Packet
  | .declined => selfAnswer locals pack
  | .unknown => codeAnswer pack 101
  | .ping | .broadcast | .unicast _ => codeAnswer pack 200

namespace Relay

variable {ω : Type} [DecidableEq ω]

def init (ω : Type) : Relay ω where
  server := dcnServInit
  worker := fun _ => none
  stamps := fun _ => []
  clock := 0
  forwarded := []

def goto (s : Relay ω) (t : ω) (h : Handling) (pc : HandlerPc) : Relay ω :=
  { s with worker := Function.update s.worker t (some { h with pc := pc }) }

def leave (s : Relay ω) (t : ω) : Relay ω := { s with worker := Function.update s.worker t none }

def answered (s : Relay ω) (t : ω) (h : Handling) : Exit → Relay ω
  | .declined => s.leave t
  | .ping | .unknown => s.goto t h .notify
  | .broadcast => s.goto t h .measure
  | .unicast toCli => s.goto t h (.forward toCli)

def work (s : Relay ω) (t : ω) (locals : Locals) (ok : Conn → Bool) : Relay ω :=
  match s.worker t with
  | none => s
  | some h =>
    match h.pc with
    | .session => { s with
        server := { s.server with
          dcnSessions := mapSet s.server.dcnSessions h.pack.fromUid h.pack.muid } }.goto t h .lookup
    | .lookup => s.goto t h (if storesClient locals s.server h.cli h.pack.fromUid then .store else .route)
    | .store => { s with
        server := { s.server with
          dcnClients := mapSet s.server.dcnClients h.pack.fromUid h.cli } }.goto t h .route
    | .route => s.goto t h (.answer (exitOf s.server.dcnClients h.pack))
    | .answer exit =>
      { s with server := s.server.perform ok (.push h.cli (exitAnswer locals h.pack exit)) }.answered t h exit
    | .forward toCli =>
      if 0 < (s.server.deref locals toCli).fd then
        { s with
          server := s.server.perform ok (.push toCli (unicastCopy h.pack))
          forwarded := s.forwarded ++ [h.copy toCli] }.goto t h .notify
      else s.goto t h .notify
    | .measure => s.goto t h (.broadcast 0 s.server.dcnClients.entries.length [])
    | .broadcast i len (effect :: rest) =>
      { s with server := s.server.perform ok effect }.goto t h (.broadcast i len rest)
    | .broadcast i len [] =>
      if i < len then
        s.goto t h (.broadcast (i + 1) len
          (broadcastAt locals s.server s.server.dcnClients h.cli h.pack i))
      else s.goto t h .notify
    | .notify => { s with server := s.server.perform ok (.changeClimod h.cli .output) }.leave t

def pop (s : Relay ω) (t : ω) (cli : Conn) (locals : Locals) : Relay ω :=
  match s.worker t, s.server.nextPacket locals cli with
  | none, some pack => { s with
      server := s.server.popped cli
      worker := Function.update s.worker t
        (some ⟨cli, (s.stamps cli).head?.getD s.clock, pack, .session⟩)
      stamps := Function.update s.stamps cli (s.stamps cli).tail
      clock := s.clock + 1 }
  | _, _ => s

def loop (s : Relay ω) : ServerEvent → Relay ω
  | .work _ _ _ => s
  | .accept cli fd ip port =>
    if (s.server.clients cli).isSome then s
    else { s with
      server := serverStep s.server (.accept cli fd ip port)
      stamps := Function.update s.stamps cli [] }
  | .frame cli block =>
    if (s.server.clients cli).isSome then
      { s with
        server := serverStep s.server (.frame cli block)
        stamps := Function.update s.stamps cli (s.stamps cli ++ [s.clock])
        clock := s.clock + 1 }
    else s
  | event => { s with server := serverStep s.server event }

def step (s : Relay ω) : RelayEvent ω → Relay ω
  | .loop event => s.loop event
  | .pop t cli locals => s.pop t cli locals
  | .work t locals ok => s.work t locals ok

end Relay

namespace Relay

variable {ω : Type} [DecidableEq ω]

section Uninterrupted

variable {locals : Locals} {ok : Conn → Bool} {t : ω} {h : Handling}

theorem register_storesClient (locals : Locals) (s : Server) (cli : Conn) (fromUid : UInt64) :
    register locals s cli fromUid =
      if storesClient locals s cli fromUid then mapSet s.dcnClients fromUid cli else s.dcnClients := by
  unfold register storesClient
  cases mapAt s.dcnClients fromUid with
  | none => rfl
  | some shadow => simp

def sentBy (locals : Locals) (s : Server) (dcnClients : Map UInt64 Conn) (cli : Conn) (pack : Packet) :
    Exit → List Effect
  | .declined => []
  | .ping | .unknown => [.changeClimod cli .output]
  | .broadcast => broadcastLoop locals s dcnClients cli pack ++ [.changeClimod cli .output]
  | .unicast toCli => unicast locals s toCli pack ++ [.changeClimod cli .output]

theorem respond_exitOf (locals : Locals) (s : Server) (dcnClients : Map UInt64 Conn) (cli : Conn) (pack : Packet) :
    respond locals s dcnClients cli pack = .push cli (exitAnswer locals pack (exitOf dcnClients pack)) ::
      sentBy locals s dcnClients cli pack (exitOf dcnClients pack) := by
  unfold respond exitOf
  by_cases own : pack.fromUid = pack.toUid
  · rw [if_pos own, if_pos own]
    rfl
  rw [if_neg own, if_neg own]
  by_cases ping : pack.toUid = 0 ∧ pack.packtype = .ping
  · rw [if_pos ping, if_pos ping]
    rfl
  rw [if_neg ping, if_neg ping, forwards]
  by_cases all : pack.toUid = 0 ∧ pack.isBroadcast = true
  · rw [if_pos all, if_pos all]
    rfl
  rw [if_neg all, if_neg all]
  cases mapAt dcnClients pack.toUid with
  | none => rfl
  | some toCli => cases broadcast : pack.isBroadcast <;> simp [exitAnswer, sentBy]

theorem fd_deref_perform (s : Server) (e : Effect) (ptr : Conn) :
    ((s.perform ok e).deref locals ptr).fd = (s.deref locals ptr).fd := by
  unfold Server.deref
  rw [Server.clients_perform]
  cases s.clients ptr with
  | none => rfl
  | some c => exact (Effect.sameAddress_apply c e).2.2

theorem fd_deref_foldl_perform (s : Server) (effects : List Effect) (ptr : Conn) :
    ((effects.foldl (Server.perform ok) s).deref locals ptr).fd = (s.deref locals ptr).fd := by
  induction effects generalizing s with
  | nil => rfl
  | cons e rest ih => rw [List.foldl_cons, ih, fd_deref_perform]

theorem broadcastAt_congr {s s' : Server} (same : ∀ ptr, (s.deref locals ptr).fd = (s'.deref locals ptr).fd)
    (dcnClients : Map UInt64 Conn) (cli : Conn) (pack : Packet) (i : Nat) :
    broadcastAt locals s dcnClients cli pack i = broadcastAt locals s' dcnClients cli pack i := by
  unfold broadcastAt broadcastTo
  simp only [same]

def Reaches (locals : Locals) (ok : Conn → Bool) (t : ω) (s s' : Relay ω) : Prop :=
  ∃ n, Runs.run step s (List.replicate n (.work t locals ok)) = s'

theorem Reaches.next {s s' : Relay ω} (later : Reaches locals ok t (s.work t locals ok) s') :
    Reaches locals ok t s s' := by
  obtain ⟨n, run⟩ := later
  refine ⟨n + 1, ?_⟩
  rw [List.replicate_succ, Runs.run_cons]
  exact run

theorem Reaches.trans {s s' s'' : Relay ω} (first : Reaches locals ok t s s') (second : Reaches locals ok t s' s'') :
    Reaches locals ok t s s'' := by
  obtain ⟨n, run⟩ := first
  obtain ⟨m, rest⟩ := second
  refine ⟨n + m, ?_⟩
  rw [List.replicate_add, Runs.run_append, run, rest]

/-- The state with the server, the copies and the place of one worker changed;
the worker is idle where there is no place. -/
def put (s : Relay ω) (t : ω) (h : Handling) (server : Server) (forwarded : List Forwarded)
    (pc : Option HandlerPc) : Relay ω :=
  { s with
    server := server
    forwarded := forwarded
    worker := Function.update s.worker t (pc.map fun pc => { h with pc := pc }) }

variable (s : Relay ω) (forwarded : List Forwarded)

theorem reaches_effects (server : Server) (i len : Nat) (effects : List Effect) :
    Reaches locals ok t (s.put t h server forwarded (some (.broadcast i len effects)))
      (s.put t h (effects.foldl (Server.perform ok) server) forwarded (some (.broadcast i len []))) := by
  induction effects generalizing server with
  | nil => exact ⟨0, rfl⟩
  | cons effect rest ih =>
    refine Reaches.next ?_
    have performed : (s.put t h server forwarded (some (.broadcast i len (effect :: rest)))).work t locals ok =
        s.put t h (server.perform ok effect) forwarded (some (.broadcast i len rest)) := by
      simp [work, put, goto]
    rw [performed]
    exact ih (server.perform ok effect)

/-- The loop over what is left of the registry performs what the loop over the
registry decides, as the handler's own effects change nothing it looks at. -/
theorem reaches_loop (base server : Server) (same : ∀ ptr, (base.deref locals ptr).fd = (server.deref locals ptr).fd)
    (len i left : Nat) (rest : i + left = len) :
    Reaches locals ok t (s.put t h server forwarded (some (.broadcast i len [])))
      (s.put t h (((List.range' i left).flatMap
        (broadcastAt locals base server.dcnClients h.cli h.pack)).foldl (Server.perform ok) server)
        forwarded (some .notify)) := by
  induction left generalizing i server with
  | zero =>
    have done : ¬i < len := by omega
    refine Reaches.next ⟨0, ?_⟩
    simp [work, put, goto, done]
  | succ left ih =>
    have more : i < len := by omega
    let effects := broadcastAt locals base server.dcnClients h.cli h.pack i
    have begun : (s.put t h server forwarded (some (.broadcast i len []))).work t locals ok =
        s.put t h server forwarded (some (.broadcast (i + 1) len effects)) := by
      simp [work, put, goto, more, effects, broadcastAt_congr same]
    have after : ∀ ptr, (base.deref locals ptr).fd =
        ((effects.foldl (Server.perform ok) server).deref locals ptr).fd := by
      intro ptr
      rw [same ptr, fd_deref_foldl_perform]
    refine Reaches.next ?_
    rw [begun]
    refine (reaches_effects s forwarded server (i + 1) len effects).trans ?_
    have later := ih (effects.foldl (Server.perform ok) server) after (i + 1) (by omega)
    rw [Server.dcnClients_foldl_perform] at later
    rw [List.range'_succ, List.flatMap_cons, List.foldl_append]
    exact later

theorem reaches_answer (base server : Server) (exit : Exit)
    (same : ∀ ptr, (base.deref locals ptr).fd = (server.deref locals ptr).fd) :
    ∃ sent, Reaches locals ok t (s.put t h server forwarded (some (.answer exit)))
      (s.put t h ((sentBy locals base server.dcnClients h.cli h.pack exit).foldl (Server.perform ok)
        (server.perform ok (.push h.cli (exitAnswer locals h.pack exit)))) sent none) := by
  let answered := server.perform ok (.push h.cli (exitAnswer locals h.pack exit))
  have after : ∀ ptr, (base.deref locals ptr).fd = (answered.deref locals ptr).fd := by
    intro ptr
    rw [same ptr, fd_deref_perform]
  -- The last step of every exit but one.
  have notified : ∀ (server : Server) (sent : List Forwarded), Reaches locals ok t
      (s.put t h server sent (some .notify))
      (s.put t h (server.perform ok (.changeClimod h.cli .output)) sent none) :=
    fun server sent => ⟨1, by simp [step, work, put, leave]⟩
  cases exit with
  | declined => exact ⟨forwarded, 1, by simp [step, work, put, Relay.answered, leave, sentBy]⟩
  | ping =>
    refine ⟨forwarded, Reaches.next ?_⟩
    have went : (s.put t h server forwarded (some (.answer .ping))).work t locals ok =
        s.put t h answered forwarded (some .notify) := by
      simp [work, put, Relay.answered, goto, answered]
    rw [went]
    exact notified answered forwarded
  | unknown =>
    refine ⟨forwarded, Reaches.next ?_⟩
    have went : (s.put t h server forwarded (some (.answer .unknown))).work t locals ok =
        s.put t h answered forwarded (some .notify) := by
      simp [work, put, Relay.answered, goto, answered]
    rw [went]
    exact notified answered forwarded
  | broadcast =>
    refine ⟨forwarded, Reaches.next (Reaches.next ?_)⟩
    have went : ((s.put t h server forwarded (some (.answer .broadcast))).work t locals ok).work t locals ok =
        s.put t h answered forwarded (some (.broadcast 0 answered.dcnClients.entries.length [])) := by
      simp [work, put, Relay.answered, goto, answered]
    have clients : server.dcnClients = answered.dcnClients := (Server.dcnClients_perform ok server _).symm
    rw [went, sentBy, List.foldl_append, broadcastLoop, List.range_eq_range', clients]
    exact (reaches_loop s forwarded base answered after _ 0 _ (Nat.zero_add _)).trans (notified _ forwarded)
  | unicast toCli =>
    by_cases positive : 0 < (base.deref locals toCli).fd
    · refine ⟨forwarded ++ [h.copy toCli], Reaches.next (Reaches.next ?_)⟩
      have went : ((s.put t h server forwarded (some (.answer (.unicast toCli)))).work t locals ok).work t locals ok =
          s.put t h (answered.perform ok (.push toCli (unicastCopy h.pack))) (forwarded ++ [h.copy toCli])
            (some .notify) := by
        have valid : 0 < (answered.deref locals toCli).fd := after toCli ▸ positive
        simp only [answered] at valid
        simp [work, put, Relay.answered, goto, answered, valid, Handling.copy]
      rw [went, sentBy, unicast, if_pos positive]
      exact notified _ _
    · refine ⟨forwarded, Reaches.next (Reaches.next ?_)⟩
      have went : ((s.put t h server forwarded (some (.answer (.unicast toCli)))).work t locals ok).work t locals ok =
          s.put t h answered forwarded (some .notify) := by
        have invalid : ¬0 < (answered.deref locals toCli).fd := after toCli ▸ positive
        simp only [answered] at invalid
        simp [work, put, Relay.answered, goto, answered, invalid]
      rw [went, sentBy, unicast, if_neg positive]
      exact notified _ _

/-- A worker that nothing comes between does what the handler does in one step. -/
theorem reaches_handlePacket (here : s.worker t = some h) (start : h.pc = .session) :
    ∃ sent, Reaches locals ok t s
      (s.put t h (handlePacket locals ok s.server h.cli h.pack).1 sent none) := by
  let registered : Server := { s.server with
    dcnClients := register locals s.server h.cli h.pack.fromUid
    dcnSessions := mapSet s.server.dcnSessions h.pack.fromUid h.pack.muid }
  have begun : s = s.put t h s.server s.forwarded (some .session) := by
    rw [put, Option.map_some, ← start, Function.update_eq_self_iff.mpr here.symm]
  have routed : Reaches locals ok t s
      (s.put t h registered s.forwarded (some (.answer (exitOf registered.dcnClients h.pack)))) := by
    have stored := register_storesClient locals s.server h.cli h.pack.fromUid
    have lookup : storesClient locals
        { s.server with dcnSessions := mapSet s.server.dcnSessions h.pack.fromUid h.pack.muid } h.cli h.pack.fromUid =
        storesClient locals s.server h.cli h.pack.fromUid := rfl
    cases stores : storesClient locals s.server h.cli h.pack.fromUid with
    | true =>
      refine ⟨4, ?_⟩
      simp [step, work, here, start, goto, put, lookup, stores, registered, stored]
    | false =>
      refine ⟨3, ?_⟩
      simp [step, work, here, start, goto, put, lookup, stores, registered, stored]
  obtain ⟨sent, answered⟩ := reaches_answer s s.forwarded s.server registered
    (exitOf registered.dcnClients h.pack) (fun ptr => rfl)
  refine ⟨sent, routed.trans ?_⟩
  have effects := respond_exitOf locals s.server registered.dcnClients h.cli h.pack
  have handled : (handlePacket locals ok s.server h.cli h.pack).1 =
      (respond locals s.server registered.dcnClients h.cli h.pack).foldl (Server.perform ok) registered := rfl
  rw [handled, effects, List.foldl_cons]
  exact answered

end Uninterrupted

end Relay

end Dcn
