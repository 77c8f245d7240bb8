import Dcn.Server.Stale

/-! Pointers to connections that were closed (epldplx-c.c, server.c).

close_client frees a struct client. Its address may be in tasks of the pool, in
handlers that run and in the registry, and those who find it there look at the
struct. A handler that has looked a connection up has only a pointer to the slot
of the registry, until it reads the address through it.
-/

set_option autoImplicit false

namespace Dcn

def Effect.target : Effect → Conn
  | .push target _ | .changeClimod target _ => target

def LookupPc.conns : LookupPc → List Conn
  | .print _ toCli | .forward toCli | .copyPrint _ _ _ _ toCli => [toCli]
  | .copy _ _ effects => effects.map Effect.target
  | _ => []

def LookupRun.conns (h : LookupRun) : List Conn := h.cli :: h.pc.conns

def Lookups.reads {ω : Type} (s : Lookups ω) (h : LookupRun) : List Conn :=
  match h.pc with
  | .shadowIp shadow | .shadowPort shadow => h.cli :: (s.arrays.value s.server.dcnClients shadow).toList
  | .answer _ | .notify => [h.cli]
  | .print toCliPtr _ => (s.arrays.value s.server.dcnClients toCliPtr).toList
  | .forward toCli => [toCli]
  | .copyPrint _ _ _ toCliPtr toCli => toCli :: h.cli :: (s.arrays.value s.server.dcnClients toCliPtr).toList
  | .copy _ _ (effect :: _) => [effect.target]
  | _ => []

/-- The server and its workers with the connections that the tasks in the pool's
queue are for, and that of the task that a worker has taken. -/
structure Pooled (ω : Type) where
  lookups : Lookups ω
  tasks : List Conn
  taken : ω → Option Conn

/-- A step of the event loop, the first and the second part of a disconnect, a
worker that takes a task, one that enters the handler and pops, or a step of one
in the handler. -/
inductive PooledEvent (ω : Type) where
  | loop (event : ServerEvent)
  | find (cli : Conn)
  | erase (delOk : Bool)
  | take (t : ω)
  | pop (t : ω) (locals : Locals)
  | work (t : ω) (locals : Locals) (ok : Conn → Bool) (moved : Moved)

namespace Pooled

variable {ω : Type} [DecidableEq ω]

def init (ω : Type) : Pooled ω := ⟨.init ω, [], fun _ => none⟩

def IsOpen (s : Pooled ω) (c : Conn) : Prop := (s.lookups.server.clients c).isSome

/-- run_server creates a task with every block that it frames. -/
def scheduled (s : Pooled ω) : PooledEvent ω → List Conn
  | .loop (.frame cli _) =>
    if s.lookups.disconnecting = none ∧ (s.lookups.server.clients cli).isSome then [cli] else []
  | _ => []

def inner (s : Pooled ω) : PooledEvent ω → Option (LookupsEvent ω)
  | .loop event => some (.loop event)
  | .find cli => some (.find cli)
  | .erase delOk => some (.erase delOk)
  | .take _ => none
  | .pop t locals => (s.taken t).map fun cli => .pop t cli locals
  | .work t locals ok moved => some (.work t locals ok moved)

def next (s : Pooled ω) (e : PooledEvent ω) : Lookups ω := (s.inner e).elim s.lookups s.lookups.step

def step (s : Pooled ω) (e : PooledEvent ω) : Pooled ω :=
  match e with
  | .take t =>
    match s.taken t, s.lookups.worker t, s.tasks with
    | none, none, cli :: rest => { s with tasks := rest, taken := Function.update s.taken t (some cli) }
    | _, _, _ => s
  | .pop t _ => { s with lookups := s.next e, taken := Function.update s.taken t none }
  | _ => { s with lookups := s.next e, tasks := s.tasks ++ s.scheduled e }

/-- The connections that a step reads or writes. Those of the event loop are in
the epoll set, from which a connection is removed before it is freed. -/
def touched (s : Pooled ω) : PooledEvent ω → List Conn
  | .pop t _ => (s.taken t).toList
  | .work t _ _ _ => ((s.lookups.worker t).map s.lookups.reads).getD []
  | _ => []

/-- The step stays away from what was freed, arrays and connections. -/
def Safe (s : Pooled ω) (e : PooledEvent ω) : Prop :=
  (∀ event ∈ s.inner e, s.lookups.Safe event) ∧ ∀ c ∈ s.touched e, s.IsOpen c

/-- Nobody is left with a pointer to the connection but the registry, under the
key that is erased with it. -/
structure Clear (s : Pooled ω) (c : Conn) : Prop where
  tasks : c ∉ s.tasks
  taken : ∀ t, s.taken t ≠ some c
  workers : ∀ t h, s.lookups.worker t = some h → c ∉ h.conns
  registry : ∀ uid, (uid, c) ∈ s.lookups.server.dcnClients.entries → ∃ ptr ∈ s.lookups.keyPointer,
    s.lookups.arrays.key s.lookups.server.dcnClients ptr = some uid

def ClosesClear (s : Pooled ω) : PooledEvent ω → Prop
  | .erase true => ∀ disconnect ∈ s.lookups.disconnecting, s.Clear disconnect.1
  | _ => True

def Still (s : Pooled ω) (e : PooledEvent ω) : Prop := ∀ event ∈ s.inner e, s.lookups.Still event

inductive Held (s : Pooled ω) (c : Conn) : Prop where
  | task (member : c ∈ s.tasks)
  | taken (t : ω) (has : s.taken t = some c)
  | worker (t : ω) (h : LookupRun) (here : s.lookups.worker t = some h) (member : c ∈ h.conns)
  | registry (uid : UInt64) (member : (uid, c) ∈ s.lookups.server.dcnClients.entries)

section Steps

variable {s : Lookups ω} {t : ω} {h : LookupRun} {locals : Locals} {ok : Conn → Bool} {moved : Moved} {c : Conn}
  {ptr : SlotPtr}

omit [DecidableEq ω] in
theorem registered_value (read : s.arrays.value s.server.dcnClients ptr = some c) :
    ∃ uid, (uid, c) ∈ s.server.dcnClients.entries := by
  rw [Arrays.value] at read
  split at read
  · obtain ⟨e, entry, rfl⟩ := Option.map_eq_some_iff.mp read
    exact ⟨e.1, List.mem_of_getElem? entry⟩
  · cases read

/-- What a step of a handler does with connections: it opens and closes none, and
those that it goes on with it has already, or reads in the registry, where it
leaves its own. -/
structure Moves (s next : Lookups ω) (t : ω) (h : LookupRun) : Prop where
  clients : ∀ c, (next.server.clients c).isSome = (s.server.clients c).isSome
  registry : ∀ uid c, (uid, c) ∈ next.server.dcnClients.entries → c = h.cli ∨ (uid, c) ∈ s.server.dcnClients.entries
  conns : ∀ after, next.worker t = some after → ∀ c ∈ after.conns,
    c ∈ h.conns ∨ ∃ uid, (uid, c) ∈ s.server.dcnClients.entries

theorem moves_goto {between : Lookups ω} {pc : LookupPc}
    (clients : ∀ c, (between.server.clients c).isSome = (s.server.clients c).isSome)
    (registry : ∀ uid c, (uid, c) ∈ between.server.dcnClients.entries →
      c = h.cli ∨ (uid, c) ∈ s.server.dcnClients.entries)
    (conns : ∀ c ∈ pc.conns, c ∈ h.conns ∨ ∃ uid, (uid, c) ∈ s.server.dcnClients.entries) :
    Moves s (between.goto t h pc) t h := by
  refine ⟨clients, registry, fun after there c member => ?_⟩
  rw [Lookups.worker_goto, Function.update_self, Option.some.injEq] at there
  subst there
  rcases List.mem_cons.mp member with own | more
  · exact .inl (own ▸ List.mem_cons_self)
  · exact conns c more

theorem moves_plain {between : Lookups ω} {pc : LookupPc}
    (clients : ∀ c, (between.server.clients c).isSome = (s.server.clients c).isSome)
    (registry : between.server.dcnClients = s.server.dcnClients) (plain : pc.conns = []) :
    Moves s (between.goto t h pc) t h :=
  moves_goto clients (fun _ _ member => .inr (registry ▸ member)) fun c member => by
    rw [plain] at member
    cases member

theorem moves_leave {between : Lookups ω}
    (clients : ∀ c, (between.server.clients c).isSome = (s.server.clients c).isSome)
    (registry : between.server.dcnClients = s.server.dcnClients) : Moves s (between.leave t) t h := by
  refine ⟨clients, fun _ _ member => .inr (registry ▸ member), fun after there => ?_⟩
  rw [Lookups.worker_leave, Function.update_self] at there
  cases there

theorem moves_through (here : s.worker t = some h) {next : Conn → LookupPc}
    (conns : ∀ cli, ∀ c ∈ (next cli).conns, c = cli ∨ c ∈ h.conns) : Moves s (s.through t h ptr next) t h := by
  unfold Lookups.through
  cases read : s.arrays.value s.server.dcnClients ptr with
  | none =>
    refine ⟨fun _ => rfl, fun _ _ => .inr, fun after there c member => .inl ?_⟩
    cases here.symm.trans there
    exact member
  | some cli =>
    refine moves_goto (fun _ => rfl) (fun _ _ => .inr) fun c member => ?_
    rcases conns cli c member with rfl | own
    · exact .inr (registered_value read)
    · exact .inl own

omit [DecidableEq ω] in
theorem target_broadcastTo {server : Server} {cli toCli : Conn} {pack : Packet} {key : UInt64} {effect : Effect}
    (member : effect ∈ broadcastTo locals server cli pack key toCli) : effect.target = toCli := by
  unfold broadcastTo at member
  split_ifs at member
  · cases member
  · cases member
  · rcases List.mem_cons.mp member with rfl | more
    · rfl
    · cases List.mem_singleton.mp more
      rfl
  · cases member

theorem work_moves (here : s.worker t = some h) : Moves s (s.work t locals ok moved) t h := by
  have kept : ∀ c, (s.server.clients c).isSome = (s.server.clients c).isSome := fun _ => rfl
  have performed : ∀ effect c, ((s.server.perform ok effect).clients c).isSome = (s.server.clients c).isSome :=
    Server.isSome_clients_perform ok s.server
  have next : ∀ {d}, d ∈ h.pc.conns → d ∈ h.conns := List.mem_cons_of_mem _
  cases at_ : h.pc with
  | session =>
    simp only [Lookups.work, here, at_]
    exact moves_plain kept rfl rfl
  | shadow =>
    simp only [Lookups.work, here, at_]
    split <;> exact moves_plain kept rfl rfl
  | shadowTest shadow =>
    simp only [Lookups.work, here, at_]
    exact moves_through here fun _ _ member => by cases member
  | shadowIp shadow | shadowPort shadow =>
    simp only [Lookups.work, here, at_]
    refine moves_through here fun _ _ member => ?_
    split at member <;> cases member
  | store =>
    simp only [Lookups.work, here, at_]
    refine moves_goto kept (fun uid c member => ?_) (fun c member => by cases member)
    rcases Map.mem_mapSet.mp member with ⟨-, own⟩ | ⟨-, old⟩
    · exact .inl own
    · exact .inr old
  | route =>
    simp only [Lookups.work, here, at_]
    exact moves_plain kept rfl rfl
  | answer exit =>
    simp only [Lookups.work, here, at_]
    have opens := performed (.push h.cli (exit.pack locals h.pack))
    cases exit with
    | declined => exact moves_leave opens (Server.dcnClients_perform ..)
    | _ => exact moves_plain opens (Server.dcnClients_perform ..) rfl
  | target toCliPtr =>
    simp only [Lookups.work, here, at_]
    exact moves_through here fun _ _ member => .inl (List.mem_singleton.mp member)
  | print toCliPtr toCli =>
    simp only [Lookups.work, here, at_]
    refine moves_through here fun _ _ member => .inr (next ?_)
    rw [at_]
    exact member
  | forward toCli =>
    simp only [Lookups.work, here, at_]
    have opens := performed (.push toCli (unicastCopy h.pack))
    split
    · exact moves_plain opens (Server.dcnClients_perform ..) rfl
    · exact moves_plain kept rfl rfl
  | measure =>
    simp only [Lookups.work, here, at_]
    exact moves_plain kept rfl rfl
  | keyAt i len =>
    simp only [Lookups.work, here, at_]
    repeat' split
    all_goals exact moves_plain kept rfl rfl
  | lookup i len key =>
    simp only [Lookups.work, here, at_]
    repeat' split
    all_goals exact moves_plain kept rfl rfl
  | copyTarget i len key toCliPtr =>
    simp only [Lookups.work, here, at_]
    exact moves_through here fun _ _ member => .inl (List.mem_singleton.mp member)
  | copyPrint i len key toCliPtr toCli =>
    simp only [Lookups.work, here, at_]
    refine moves_through here fun _ c member => .inr (next ?_)
    obtain ⟨effect, isEffect, rfl⟩ := List.mem_map.mp member
    rw [at_, target_broadcastTo isEffect]
    exact List.mem_singleton_self _
  | copy i len effects =>
    cases effects with
    | nil =>
      simp only [Lookups.work, here, at_]
      exact moves_plain kept rfl rfl
    | cons effect rest =>
      simp only [Lookups.work, here, at_]
      have opens := performed effect
      refine moves_goto opens (fun _ _ member => .inr ?_) fun c member => .inl (next ?_)
      · rwa [Server.dcnClients_perform] at member
      · rw [at_]
        exact List.mem_cons_of_mem _ member
  | notify =>
    simp only [Lookups.work, here, at_]
    have opens := performed (.changeClimod h.cli .output)
    exact moves_leave opens (Server.dcnClients_perform ..)

end Steps

section Tidy

variable {s : Pooled ω} {c : Conn}

def Tidy (s : Pooled ω) : Prop := ∀ c, s.Held c → s.IsOpen c

omit [DecidableEq ω] in
theorem mem_reads {r : Lookups ω} {h : LookupRun} (reads : c ∈ r.reads h) :
    c ∈ h.conns ∨ ∃ uid, (uid, c) ∈ r.server.dcnClients.entries := by
  have own : h.cli ∈ h.conns := List.mem_cons_self
  have next : ∀ {d}, d ∈ h.pc.conns → d ∈ h.conns := List.mem_cons_of_mem _
  unfold Lookups.reads at reads
  cases at_ : h.pc with
  | shadowIp ptr | shadowPort ptr =>
    simp only [at_] at reads
    rcases List.mem_cons.mp reads with rfl | more
    · exact .inl own
    · exact .inr (registered_value (Option.mem_toList.mp more))
  | answer exit | notify =>
    simp only [at_] at reads
    exact .inl (List.mem_singleton.mp reads ▸ own)
  | print ptr toCli =>
    simp only [at_] at reads
    exact .inr (registered_value (Option.mem_toList.mp reads))
  | forward toCli =>
    simp only [at_] at reads
    exact .inl (next (at_ ▸ reads))
  | copyPrint i len key ptr toCli =>
    simp only [at_] at reads
    rcases List.mem_cons.mp reads with rfl | more
    · refine .inl (next ?_)
      rw [at_]
      exact List.mem_singleton_self _
    · rcases List.mem_cons.mp more with rfl | more
      · exact .inl own
      · exact .inr (registered_value (Option.mem_toList.mp more))
  | copy i len effects =>
    cases effects with
    | nil =>
      simp only [at_] at reads
      cases reads
    | cons effect rest =>
      simp only [at_] at reads
      refine .inl (next ?_)
      rw [at_, List.mem_singleton.mp reads]
      exact List.mem_cons_self
  | _ =>
    simp only [at_] at reads
    cases reads

omit [DecidableEq ω] in
theorem held_of_touched {e : PooledEvent ω} (touched : c ∈ s.touched e) : s.Held c := by
  cases e with
  | pop t locals => exact .taken t (Option.mem_toList.mp touched)
  | work t locals ok moved =>
    simp only [Pooled.touched] at touched
    cases here : s.lookups.worker t with
    | none =>
      rw [here] at touched
      cases touched
    | some h =>
      rw [here] at touched
      rcases mem_reads touched with own | ⟨uid, member⟩
      · exact .worker t h here own
      · exact .registry uid member
  | _ => cases touched

theorem tidy_work (tidy : s.Tidy) (t : ω) (locals : Locals) (ok : Conn → Bool) (moved : Moved) :
    (s.step (.work t locals ok moved)).Tidy := by
  have shape : s.step (.work t locals ok moved) = { s with lookups := s.lookups.work t locals ok moved } := by
    simp [step, next, inner, scheduled, Lookups.step]
  rw [shape]
  cases here : s.lookups.worker t with
  | none =>
    rw [Lookups.work_idle here]
    exact tidy
  | some h =>
    have moves := @work_moves ω _ s.lookups t h locals ok moved here
    have others := (@Lookups.work_spec ω _ s.lookups t h locals ok moved here).others
    intro c has
    refine (moves.clients c).trans (tidy c ?_)
    cases has with
    | task member => exact .task member
    | taken u has => exact .taken u has
    | worker u after there member =>
      by_cases same : u = t
      · subst same
        rcases moves.conns after there c member with own | ⟨uid, member⟩
        · exact .worker u h here own
        · exact .registry uid member
      · exact .worker u after ((others u same).symm.trans there) member
    | registry uid member =>
      rcases moves.registry uid c member with rfl | old
      · exact .worker t h here List.mem_cons_self
      · exact .registry uid old

theorem tidy_take (tidy : s.Tidy) (t : ω) : (s.step (.take t)).Tidy := by
  simp only [step]
  split
  · next cli rest free idle shape =>
    refine fun c has => tidy c ?_
    cases has with
    | task member => exact .task (shape ▸ List.mem_cons_of_mem _ member)
    | taken u has =>
      by_cases same : u = t
      · subst same
        have isCli : some cli = some c := (Function.update_self u _ _).symm.trans has
        cases isCli
        exact .task (shape ▸ List.mem_cons_self)
      · exact .taken u ((Function.update_of_ne same ..).symm.trans has)
    | worker u h there member => exact .worker u h there member
    | registry uid member => exact .registry uid member
  · exact tidy

theorem tidy_pop (tidy : s.Tidy) (t : ω) (locals : Locals) : (s.step (.pop t locals)).Tidy := by
  have left : ∀ u c, Function.update s.taken t none u = some c → s.taken u = some c := by
    intro u c has
    by_cases same : u = t
    · subst same
      rw [Function.update_self] at has
      cases has
    · rwa [Function.update_of_ne same] at has
  have unpopped : Tidy { s with taken := Function.update s.taken t none } := by
    refine fun c has => tidy c ?_
    cases has with
    | task member => exact .task member
    | taken u has => exact .taken u (left u c has)
    | worker u h there member => exact .worker u h there member
    | registry uid member => exact .registry uid member
  cases task : s.taken t with
  | none => simpa only [step, next, inner, task, Option.map_none, Option.elim_none] using unpopped
  | some cli =>
    simp only [step, next, inner, task, Option.map_some, Option.elim_some, Lookups.step, Lookups.pop]
    split
    · next pack idle _ =>
      intro c has
      refine (Server.isSome_clients_modify ..).trans (tidy c ?_)
      cases has with
      | task member => exact .task member
      | taken u has => exact .taken u (left u c has)
      | worker u h there member =>
        dsimp only at there
        by_cases same : u = t
        · subst same
          rw [Function.update_self, Option.some.injEq] at there
          subst there
          exact .taken u (List.mem_singleton.mp member ▸ task)
        · rw [Function.update_of_ne same] at there
          exact .worker u h there member
      | registry uid member => exact .registry uid member
    · exact unpopped

omit [DecidableEq ω] in
theorem isOpen_loop {event : ServerEvent} (isOpen : s.IsOpen c) : ((s.lookups.loop event).server.clients c).isSome := by
  cases event with
  | work cli locals ok | disconnect cli delOk => exact isOpen
  | accept cli fd ip port =>
    simp only [Lookups.loop, serverStep]
    split
    · split
      · exact isOpen
      · by_cases here : c = cli
        · simp [here]
        · exact (congrArg Option.isSome (Function.update_of_ne here _ _)).trans isOpen
    · exact isOpen
  | frame cli block | epollout cli aw modOk =>
    simp only [Lookups.loop, serverStep]
    split
    · exact (Server.isSome_clients_modify ..).trans isOpen
    · exact isOpen

theorem tidy_loop (tidy : s.Tidy) (event : ServerEvent) : (s.step (.loop event)).Tidy := by
  obtain ⟨-, workers, -⟩ := Lookups.loop_spec s.lookups event
  have registry := Lookups.dcnClients_loop s.lookups event
  intro c has
  refine isOpen_loop ?_
  cases has with
  | task member =>
    rcases List.mem_append.mp member with old | new
    · exact tidy c (.task old)
    · cases event with
      | frame cli block =>
        simp only [scheduled] at new
        split at new
        · next isOpen => exact List.mem_singleton.mp new ▸ isOpen.2
        · cases new
      | _ => cases new
  | taken u has => exact tidy c (.taken u has)
  | worker u h there member => exact tidy c (.worker u h ((congrFun workers u).symm.trans there) member)
  | registry uid member =>
    refine tidy c (.registry uid ?_)
    rw [← registry]
    exact member

theorem tidy_find (tidy : s.Tidy) (cli : Conn) : (s.step (.find cli)).Tidy := by
  obtain ⟨-, workers, server, -⟩ := Lookups.find_spec s.lookups cli
  have shape : s.step (.find cli) = { s with lookups := s.lookups.find cli } := by
    simp [step, next, inner, scheduled, Lookups.step]
  rw [shape]
  intro c has
  have opens : Pooled.IsOpen { s with lookups := s.lookups.find cli } c ↔ s.IsOpen c := by
    rw [IsOpen, IsOpen, server]
  refine opens.mpr (tidy c ?_)
  cases has with
  | task member => exact .task member
  | taken u has => exact .taken u has
  | worker u h there member => exact .worker u h ((congrFun workers u).symm.trans there) member
  | registry uid member => exact .registry uid (server ▸ member)

omit [DecidableEq ω] in
theorem registry_erase (r : Lookups ω) (delOk : Bool) {uid : UInt64}
    (member : (uid, c) ∈ (r.erase delOk).server.dcnClients.entries) : (uid, c) ∈ r.server.dcnClients.entries := by
  rcases (Lookups.erase_spec r delOk).2 with ⟨-, same, -⟩ | ⟨ptr, key, -, -, -, -, erased, -⟩
  · rwa [same] at member
  · rw [erased] at member
    exact (Map.mem_mapErase.mp member).2

omit [DecidableEq ω] in
theorem isSome_closeClient {server : Server} {cli : Conn} {delOk : Bool} (isOpen : (server.clients c).isSome) :
    ((closeClient server cli delOk).clients c).isSome ∨ delOk = true ∧ cli = c := by
  unfold closeClient
  split
  · next ok =>
    by_cases here : c = cli
    · exact .inr ⟨ok, here.symm⟩
    · exact .inl ((congrArg Option.isSome (Function.update_of_ne here _ _)).trans isOpen)
  · exact .inl isOpen

omit [DecidableEq ω] in
/-- A connection that it closes is the one that the event loop disconnects, and
the key that was found for it is gone. -/
theorem isSome_erase (r : Lookups ω) (delOk : Bool) (isOpen : (r.server.clients c).isSome) :
    ((r.erase delOk).server.clients c).isSome ∨ delOk = true ∧ (∃ key, r.disconnecting = some (c, key)) ∧
      ∀ uid ptr, r.keyPointer = some ptr → r.arrays.key r.server.dcnClients ptr = some uid →
        (uid, c) ∉ (r.erase delOk).server.dcnClients.entries := by
  have registry : ∀ (server : Server) cli, (closeClient server cli delOk).dcnClients = server.dcnClients := by
    intro server cli
    unfold closeClient
    split <;> rfl
  cases busy : r.disconnecting with
  | none =>
    simp only [Lookups.erase, busy]
    exact .inl isOpen
  | some disconnect =>
    obtain ⟨cli, key⟩ := disconnect
    cases key with
    | none =>
      simp only [Lookups.erase, busy]
      refine (isSome_closeClient isOpen).imp_right ?_
      rintro ⟨ok, rfl⟩
      refine ⟨ok, ⟨none, rfl⟩, fun uid ptr found => ?_⟩
      rw [Lookups.keyPointer, busy] at found
      cases found
    | some ptr =>
      cases followed : r.arrays.key r.server.dcnClients ptr with
      | none =>
        simp only [Lookups.erase, busy, followed]
        exact .inl isOpen
      | some key =>
        simp only [Lookups.erase, busy, followed, registry]
        have present : (({ r.server with dcnClients := mapErase r.server.dcnClients key } : Server).clients c).isSome :=
          isOpen
        refine (isSome_closeClient present).imp_right ?_
        rintro ⟨ok, rfl⟩
        refine ⟨ok, ⟨some ptr, rfl⟩, fun uid other found isKey member => ?_⟩
        rw [Lookups.keyPointer, busy] at found
        cases found
        cases followed.symm.trans isKey
        exact (Map.mem_mapErase.mp member).1 rfl

theorem tidy_erase (tidy : s.Tidy) {delOk : Bool} (clear : s.ClosesClear (.erase delOk)) :
    (s.step (.erase delOk)).Tidy := by
  have workers := (Lookups.erase_spec s.lookups delOk).1
  have shape : s.step (.erase delOk) = { s with lookups := s.lookups.erase delOk } := by
    simp [step, next, inner, scheduled, Lookups.step]
  rw [shape]
  intro c has
  have held : s.Held c := by
    cases has with
    | task member => exact .task member
    | taken u has => exact .taken u has
    | worker u h there member => exact .worker u h ((congrFun workers u).symm.trans there) member
    | registry uid member => exact .registry uid (registry_erase s.lookups delOk member)
  refine (isSome_erase s.lookups delOk (tidy c held)).resolve_right ?_
  rintro ⟨rfl, ⟨key, closes⟩, erased⟩
  have clean : s.Clear c := clear (c, key) closes
  cases has with
  | task member => exact clean.tasks member
  | taken u has => exact clean.taken u has
  | worker u h there member => exact clean.workers u h ((congrFun workers u).symm.trans there) member
  | registry uid member =>
    obtain ⟨ptr, found, isKey⟩ := clean.registry uid (registry_erase s.lookups true member)
    exact erased uid ptr found isKey member

theorem tidy_step (s : Pooled ω) (e : PooledEvent ω) (tidy : s.Tidy) (clear : s.ClosesClear e) : (s.step e).Tidy := by
  cases e with
  | loop event => exact tidy_loop tidy event
  | find cli => exact tidy_find tidy cli
  | erase delOk => exact tidy_erase tidy clear
  | take t => exact tidy_take tidy t
  | pop t locals => exact tidy_pop tidy t locals
  | work t locals ok moved => exact tidy_work tidy t locals ok moved

omit [DecidableEq ω] in
theorem tidy_init : (init ω).Tidy := by
  intro c has
  cases has with
  | task member => cases member
  | taken t has => cases has
  | worker t h here member => cases here
  | registry uid member => cases member

end Tidy

section Runs

def Sound (s : Pooled ω) : Prop := s.Tidy ∧ (Lookups.handles ω).Current s.lookups

/-- A connection is closed when it is clear, and an array given back when nobody
has a pointer into it. -/
def GivesBack (s : Pooled ω) (e : PooledEvent ω) : Prop := s.ClosesClear e ∧ s.Still e

theorem current_step (s : Pooled ω) (e : PooledEvent ω) (current : (Lookups.handles ω).Current s.lookups)
    (still : s.Still e) : (Lookups.handles ω).Current (s.step e).lookups := by
  have moved : (Lookups.handles ω).Current (s.next e) := by
    unfold next
    cases what : s.inner e with
    | none => exact current
    | some event =>
      exact (Lookups.handles ω).current_step s.lookups event current (Lookups.still_iff.mpr (still event what))
  cases e with
  | take t =>
    simp only [step]
    split <;> exact current
  | _ => exact moved

theorem sound_step (s : Pooled ω) (e : PooledEvent ω) (sound : s.Sound) (fine : s.GivesBack e) : (s.step e).Sound :=
  ⟨tidy_step s e sound.1 fine.1, current_step s e sound.2 fine.2⟩

theorem Sound.safe {s : Pooled ω} (sound : s.Sound) (e : PooledEvent ω) : s.Safe e :=
  ⟨fun _ _ => Lookups.safe_iff.mp fun i v _ has => sound.2 i v has,
    fun c touched => sound.1 c (held_of_touched touched)⟩

/-- While each connection is closed when it is clear, and each array of the
registry given back when nobody has a pointer into it, nothing that was freed is
looked at. -/
theorem safe_of_clear {events : List (PooledEvent ω)} (fine : Runs.Along step GivesBack (init ω) events) :
    Runs.Along step Safe (init ω) events :=
  Runs.forever_of_invariant sound_step (fun _ e sound _ => sound.safe e) ⟨tidy_init, Lookups.current_init⟩ events fine

def handled : List (PooledEvent Unit) :=
  [.loop (.accept 1 5 "127.0.0.1" 40000), .loop (.frame 1 (packetSerial (packetInit [] 7 0 1))), .take (),
    .pop () .blank] ++ List.replicate 6 (.work () .blank (fun _ => true) ⟨false, false⟩)

theorem safe_of_clear_handled : Runs.Along step Safe (init Unit) (handled ++ [.find 1, .erase true]) := by
  have idle : (Runs.run step (init Unit) (handled ++ [.find 1])).lookups.worker () = none := rfl
  have taken : (Runs.run step (init Unit) (handled ++ [.find 1])).taken () ≠ some 1 := by decide
  have entries : (Runs.run step (init Unit) (handled ++ [.find 1])).lookups.server.dcnClients.entries = [(7, 1)] := by
    decide
  have unmoved : ∀ (s : Pooled Unit), s.GivesBack (.work () .blank (fun _ => true) ⟨false, false⟩) := by
    refine fun s => ⟨trivial, fun event has => ?_⟩
    cases has
    exact fun _ _ _ _ => ⟨fun moves => absurd moves Bool.false_ne_true, fun moves => absurd moves Bool.false_ne_true⟩
  have plain : Runs.Along step GivesBack (init Unit) handled := by
    simp only [handled, List.replicate, List.cons_append, List.nil_append, Runs.along_cons, Runs.along_nil, unmoved,
      and_true]
    refine ⟨⟨trivial, fun event has => ?_⟩, ⟨trivial, fun event has => ?_⟩, ⟨trivial, fun event has => ?_⟩,
      trivial, fun event has => ?_⟩ <;> cases has <;> trivial
  have found : (Runs.run step (init Unit) handled).GivesBack (.find 1) := by
    refine ⟨trivial, fun event has => ?_⟩
    cases has
    trivial
  refine safe_of_clear (Runs.along_append.mpr ⟨plain, found, ⟨fun disconnect closes => ?_, fun event has => ?_⟩,
    trivial⟩)
  · cases closes
    refine ⟨by decide, fun t => ?_, fun t h here => ?_, fun uid member => ⟨⟨0, 0⟩, rfl, ?_⟩⟩
    · exact taken
    · cases idle.symm.trans here
    · have listed : (uid, 1) ∈ [((7 : UInt64), (1 : Conn))] := entries ▸ (show (uid, (1 : Conn)) ∈
        (Runs.run step (init Unit) (handled ++ [.find 1])).lookups.server.dcnClients.entries from member)
      cases List.mem_singleton.mp listed
      rfl
  · cases has
    intro ptr _ _ key _ u
    rfl

end Runs

end Pooled

end Dcn
