import Dcn.Server.Effects
import Dcn.Server.Registry

/-! Output interest.

The event loop writes to a connection only while its descriptor is polled for
output. The handler's exits push to one or more write queues; each of these
connections has to be polled for output afterwards, because of the exit or
because it was before.
-/

set_option autoImplicit false

namespace Dcn

namespace Server

def Scheduled (s : Server) : Prop :=
  ∀ cli c, s.clients cli = some c → c.writeQ.blocks ≠ [] → c.mode = .output

def Polled (s : Server) (cli : Conn) : Prop := ∀ c, s.clients cli = some c → c.mode = .output

end Server

/-- Each connection the packet is answered or sent on to is polled for output
already, or its exit switches it and the switch succeeds. -/
structure Server.Notifies (s : Server) (locals : Locals) (ok : Conn → Bool) (cli : Conn)
    (pack : Packet) : Prop where
  sender : s.Polled cli ∨ (pack.fromUid ≠ pack.toUid ∧ ok cli = true)
  recipient : pack.fromUid ≠ pack.toUid → ¬(pack.toUid = 0 ∧ pack.packtype = .ping) →
    pack.isBroadcast = false → ∀ toCli, mapAt s.dcnClients pack.toUid = some toCli → toCli ≠ cli →
      0 < (s.deref locals toCli).fd → s.Polled toCli
  recipients : pack.fromUid ≠ pack.toUid → pack.isBroadcast = true →
    (pack.toUid = 0 ∨ (mapAt s.dcnClients pack.toUid).isSome) →
    ∀ e ∈ s.dcnClients.entries, Reaches locals s cli pack e → s.Polled e.2 ∨ ok e.2 = true

def Server.Notified (s : Server) : ServerEvent → Prop
  | .work cli locals ok => ∀ pack, s.nextPacket locals cli = some pack → s.Notifies locals ok cli pack
  | _ => True

namespace Interest

section Exits

variable {locals : Locals} {ok : Conn → Bool} {s : Server} {cli : Conn} {pack : Packet}

theorem asksOutput_respond (locals : Locals) (s : Server) (dcnClients : Map UInt64 Conn) (cli : Conn)
    (pack : Packet) : ∀ e ∈ respond locals s dcnClients cli pack, e.AsksOutput := by
  intro e member
  cases e with
  | push => trivial
  | changeClimod target mode =>
    by_cases own : pack.fromUid = pack.toUid
    · rw [respond_self own] at member
      simp at member
    rw [respond_other own, List.mem_cons, List.mem_append, List.mem_singleton] at member
    rcases member with answer | sent | last
    · cases answer
    · rcases sentOn_cases with empty | ⟨toCli, _, _, _, single⟩ | ⟨_, _, loop⟩
      · rw [empty] at sent
        cases sent
      · rw [single, unicast] at sent
        split at sent <;> simp at sent
      · rw [loop, changeClimod_mem_broadcastLoop] at sent
        exact sent.1
    · cases last
      rfl

theorem scheduled_foldl_perform {effects : List Effect} (kept : s.Scheduled)
    (asks : ∀ e ∈ effects, e.AsksOutput) :
    (effects.foldl (Server.perform ok) s).Scheduled ↔
      ∀ target sent, .push target sent ∈ effects →
        s.Polled target ∨ (ok target = true ∧ .changeClimod target .output ∈ effects) := by
  constructor
  · -- A block pushed waits, so its connection must be polled after the effects.
    intro scheduled target sent pushed
    by_cases switched : ok target = true ∧ .changeClimod target .output ∈ effects
    · exact .inr switched
    · refine .inl fun c present => ?_
      have after : (effects.foldl (Server.perform ok) s).clients target =
          some (effects.foldl (Effect.apply ok target) c) := by
        rw [Server.clients_foldl_perform, present]; rfl
      have waiting : (effects.foldl (Effect.apply ok target) c).writeQ.blocks ≠ [] := by
        have sentTo : sent ∈ effects.filterMap (Effect.packetTo target) :=
          List.mem_filterMap.mpr ⟨_, pushed, Effect.packetTo_eq_some.mpr rfl⟩
        rw [Effect.blocks_foldl_apply]
        exact List.append_ne_nil_of_right_ne_nil _ (List.ne_nil_of_mem (List.mem_map_of_mem sentTo))
      exact ((Effect.mode_foldl_apply c asks).mp (scheduled target _ after waiting)).resolve_right switched
  · -- What waits afterwards waited before or was pushed.
    intro polled target t after waiting
    rw [Server.clients_foldl_perform] at after
    obtain ⟨c, present, rfl⟩ := Option.map_eq_some_iff.mp after
    rw [Effect.mode_foldl_apply c asks]
    cases pushes : effects.filterMap (Effect.packetTo target) with
    | nil =>
      rw [Effect.blocks_foldl_apply, pushes, List.map_nil, List.append_nil] at waiting
      exact .inl (kept target c present waiting)
    | cons sent rest =>
      have sentTo : sent ∈ effects.filterMap (Effect.packetTo target) := pushes ▸ List.mem_cons_self
      obtain ⟨e, member, hit⟩ := List.mem_filterMap.mp sentTo
      rw [Effect.packetTo_eq_some.mp hit] at member
      exact (polled target sent member).imp (fun holds => holds c present) id

theorem not_changeClimod_unicast {toCli target : Conn} {mode : Mode} :
    .changeClimod target mode ∉ unicast locals s toCli pack := by
  unfold unicast
  split <;> simp

def PushesPolled (ok : Conn → Bool) (s : Server) (effects : List Effect) : Prop :=
  ∀ target sent, .push target sent ∈ effects →
    s.Polled target ∨ (ok target = true ∧ .changeClimod target .output ∈ effects)

theorem notifies_of_pushesPolled
    (polled : PushesPolled ok s (respond locals s (register locals s cli pack.fromUid) cli pack)) :
    s.Notifies locals ok cli pack := by
  by_cases own : pack.fromUid = pack.toUid
  · rw [respond_self own] at polled
    have sender := polled cli _ List.mem_cons_self
    exact ⟨.inl (by simpa using sender), fun other => absurd own other, fun other => absurd own other⟩
  · rw [respond_other own] at polled
    refine ⟨?_, fun _ noPing single toCli found differ positive => ?_,
      fun _ broadcast reached e member reaches => ?_⟩
    · exact (polled cli _ List.mem_cons_self).imp_right fun switched => ⟨own, switched.1⟩
    · rw [← mapAt_register_of_ne locals s cli pack.fromUid (Ne.symm own)] at found
      rw [sentOn_unicast noPing single found] at polled
      have pushed := polled toCli (unicastCopy pack)
        (List.mem_cons_of_mem _ (List.mem_append_left _ (push_mem_unicast.mpr ⟨positive, rfl, rfl⟩)))
      -- The unicast exit switches no connection but the sender's.
      refine pushed.resolve_right fun switched => ?_
      have last := switched.2
      rw [List.mem_cons, List.mem_append, List.mem_singleton] at last
      rcases last with answer | sent | last
      · cases answer
      · exact not_changeClimod_unicast sent
      · cases last
        exact differ rfl
    · rw [← mapAt_register_of_ne locals s cli pack.fromUid (Ne.symm own)] at reached
      rw [← mem_register_of_ne locals s cli pack.fromUid reaches.1] at member
      rw [sentOn_broadcast broadcast reached] at polled
      have pushed := polled e.2 (broadcastCopy pack e.1) (List.mem_cons_of_mem _
        (List.mem_append_left _ (push_mem_broadcastLoop.mpr ⟨e.1, member, reaches, rfl⟩)))
      exact pushed.imp_right And.left

theorem pushesPolled_of_notifies (notified : s.Notifies locals ok cli pack) :
    PushesPolled ok s (respond locals s (register locals s cli pack.fromUid) cli pack) := by
  intro target sent pushed
  by_cases own : pack.fromUid = pack.toUid
  · rw [respond_self own, List.mem_singleton] at pushed
    cases pushed
    exact .inl (notified.sender.resolve_right fun other => other.1 own)
  · rw [respond_other own] at pushed ⊢
    -- The last effect of every exit but the first switches the sender.
    have sender : s.Polled cli ∨ (ok cli = true ∧ .changeClimod cli .output ∈
        Effect.push cli (codeAnswer pack (answerCode locals s (register locals s cli pack.fromUid) cli pack)) ::
          (sentOn locals s (register locals s cli pack.fromUid) cli pack ++ [.changeClimod cli .output])) :=
      notified.sender.imp_right fun switched => ⟨switched.2, by simp⟩
    rw [List.mem_cons, List.mem_append, List.mem_singleton] at pushed
    rcases pushed with answer | sentOn | last
    · cases answer
      exact sender
    · rcases sentOn_cases with empty | ⟨toCli, noPing, single, found, shape⟩ | ⟨broadcast, reached, shape⟩
      · rw [empty] at sentOn
        cases sentOn
      · rw [shape, push_mem_unicast] at sentOn
        obtain ⟨positive, same, _⟩ := sentOn
        subst same
        by_cases back : target = cli
        · subst back
          exact sender
        · rw [mapAt_register_of_ne locals s cli pack.fromUid (Ne.symm own)] at found
          exact .inl (notified.recipient own noPing single target found back positive)
      · rw [shape, push_mem_broadcastLoop] at sentOn
        obtain ⟨key, member, reaches, _⟩ := sentOn
        have switched : .changeClimod target .output ∈
            broadcastLoop locals s (register locals s cli pack.fromUid) cli pack :=
          changeClimod_mem_broadcastLoop.mpr ⟨rfl, key, member, reaches⟩
        rw [mapAt_register_of_ne locals s cli pack.fromUid (Ne.symm own)] at reached
        rw [mem_register_of_ne locals s cli pack.fromUid reaches.1] at member
        rw [shape]
        exact (notified.recipients own broadcast reached _ member reaches).imp_right fun success =>
          ⟨success, by simp [switched]⟩
    · cases last

theorem scheduled_handlePacket (kept : s.Scheduled) :
    (handlePacket locals ok s cli pack).1.Scheduled ↔ s.Notifies locals ok cli pack := by
  let registered : Server := { s with
    dcnClients := register locals s cli pack.fromUid, dcnSessions := mapSet s.dcnSessions pack.fromUid pack.muid }
  have performed : (handlePacket locals ok s cli pack).1.Scheduled ↔ PushesPolled ok registered
      (respond locals s (register locals s cli pack.fromUid) cli pack) :=
    scheduled_foldl_perform kept (asksOutput_respond locals s _ cli pack)
  exact performed.trans ⟨notifies_of_pushesPolled, pushesPolled_of_notifies⟩

end Exits

section Step

variable {s : Server}

theorem fd_deref_popped (locals : Locals) (s : Server) (cli ptr : Conn) :
    ((s.popped cli).deref locals ptr).fd = (s.deref locals ptr).fd := by
  unfold Server.deref Server.popped
  by_cases same : ptr = cli
  · subst same
    rw [Server.clients_modify_self]
    cases s.clients ptr <;> rfl
  · rw [Server.clients_modify_of_ne s cli _ same]

theorem polled_popped {cli target : Conn} : (s.popped cli).Polled target ↔ s.Polled target := by
  unfold Server.Polled Server.popped
  by_cases same : target = cli
  · subst same
    rw [Server.clients_modify_self]
    cases s.clients target <;> simp
  · rw [Server.clients_modify_of_ne s cli _ same]

theorem notifies_popped {locals : Locals} {ok : Conn → Bool} {cli : Conn} {pack : Packet} :
    (s.popped cli).Notifies locals ok cli pack ↔ s.Notifies locals ok cli pack := by
  have reaches : ∀ e, Reaches locals (s.popped cli) cli pack e ↔ Reaches locals s cli pack e := by
    intro e
    unfold Reaches
    rw [fd_deref_popped, fd_deref_popped]
  constructor
  · rintro ⟨sender, recipient, recipients⟩
    simp only [polled_popped, fd_deref_popped, reaches] at sender recipient recipients
    exact ⟨sender, recipient, recipients⟩
  · rintro ⟨sender, recipient, recipients⟩
    refine ⟨?_, ?_, ?_⟩ <;> simp only [polled_popped, fd_deref_popped, reaches]
    exacts [sender, recipient, recipients]

theorem scheduled_modify {cli : Conn} {f : Client → Client} (kept : s.Scheduled)
    (polled : ∀ c, (f c).writeQ.blocks ≠ [] → c.writeQ.blocks ≠ [] ∧ (f c).mode = c.mode) :
    (s.modify cli f).Scheduled := by
  intro target t present waiting
  obtain ⟨c, before, changed | same⟩ := Server.clients_modify_cases s cli f present
  · subst changed
    obtain ⟨waited, mode⟩ := polled c waiting
    rw [mode]
    exact kept target c before waited
  · subst same
    exact kept target t before waiting

theorem mode_runServerEpollout {c : Client} {aw : WriteResult} {modOk : Bool}
    (notLast : (drain sfullWrite c.outbox aw).code ≠ some 2) :
    (runServerEpollout c aw modOk).1.mode = c.mode := by
  have more : (drain sfullWrite ⟨c.writeQ, c.alrWritten⟩ aw).code ≠ some 2 := notLast
  simp [runServerEpollout, more]

theorem waiting_runServerEpollout {c : Client} {aw : WriteResult} {modOk : Bool}
    (waiting : (runServerEpollout c aw modOk).1.writeQ.blocks ≠ []) :
    c.writeQ.blocks ≠ [] ∧ (runServerEpollout c aw modOk).1.mode = c.mode := by
  have queue : (runServerEpollout c aw modOk).1.writeQ = (drain sfullWrite c.outbox aw).outbox.queue :=
    congrArg Outbox.queue (Writing.outbox_runServerEpollout c aw modOk)
  rw [queue] at waiting
  cases shape : c.writeQ.blocks with
  | nil =>
    rw [Writing.drain_empty shape] at waiting
    exact absurd shape waiting
  | cons block rest =>
    refine ⟨by simp, mode_runServerEpollout ?_⟩
    have outbox : c.outbox.queue.blocks = block :: rest := shape
    -- A block still waiting after a pop was not the last one.
    by_cases success : (sfullWrite c.outbox.offset aw).1 = 0
    · rw [Writing.drain_popped outbox success] at waiting ⊢
      simp [show rest ≠ [] from waiting]
    · rw [Writing.drain_kept outbox success]
      simp

theorem scheduled_step (s : Server) (e : ServerEvent) (kept : s.Scheduled) :
    (serverStep s e).Scheduled ↔ s.Notified e := by
  cases e with
  | accept cli fd ip port =>
    refine iff_of_true (fun target c present waiting => ?_) trivial
    rcases Server.clients_accept present with old | ⟨_, new⟩
    · exact kept target c old waiting
    · subst new
      exact absurd rfl waiting
  | frame cli block =>
    refine iff_of_true ?_ trivial
    exact scheduled_modify kept fun c waiting => ⟨waiting, rfl⟩
  | work cli locals ok =>
    simp only [serverStep, Server.Notified]
    cases next : s.nextPacket locals cli with
    | none =>
      rw [Server.dcnAsyncWorker_none ok next]
      simp [kept]
    | some pack =>
      have popped : (s.popped cli).Scheduled := scheduled_modify kept fun c waiting => ⟨waiting, rfl⟩
      rw [Server.dcnAsyncWorker_some ok next, scheduled_handlePacket popped, notifies_popped]
      simp
  | epollout cli aw modOk =>
    refine iff_of_true ?_ trivial
    exact scheduled_modify kept fun c waiting => waiting_runServerEpollout waiting
  | disconnect cli delOk =>
    exact iff_of_true (fun target c present => kept target c (Server.clients_disconnect present)) trivial

end Step

/-- In every run of the server each connection with something to write is
polled for output, exactly when every packet handled notifies the connections
it is answered and sent on to. -/
theorem scheduled_iff (events : List ServerEvent) :
    Runs.Throughout serverStep Server.Scheduled dcnServInit events ↔
      Runs.Along serverStep Server.Notified dcnServInit events := by
  have start : dcnServInit.Scheduled := fun cli c present => by cases present
  exact Runs.throughout_iff_along_all (fun _ => True) (fun _ _ _ => trivial)
    (fun s e _ kept => scheduled_step s e kept) trivial start

/-- User 8 pings and is written its answer; then user 7 sends it a request. -/
def idleRecipient : List ServerEvent :=
  [.accept 1 5 "127.0.0.1" 40000, .accept 2 6 "127.0.0.1" 40001,
   .frame 2 (packetSerial { packetInit [] 8 0 1 with packtype := .ping }), .work 2 .blank fun _ => true,
   .epollout 2 (.count 65) true,
   .frame 1 (packetSerial (packetInit [104, 105] 7 8 1)), .work 1 .blank fun _ => true]

theorem unicast_strands_idle_recipient :
    ¬Runs.Throughout serverStep Server.Scheduled dcnServInit idleRecipient := by
  intro always
  have stranded : ((Runs.run serverStep dcnServInit idleRecipient).clients 2).map
      (fun c => (decide (c.writeQ.blocks = []), c.mode)) = some (false, .input) := by decide
  obtain ⟨c, present, idle⟩ := Option.map_eq_some_iff.mp stranded
  have waiting : c.writeQ.blocks ≠ [] := of_decide_eq_false (congrArg Prod.fst idle)
  have input : c.mode = .input := congrArg Prod.snd idle
  rw [always.last 2 c present waiting] at input
  cases input

end Interest

end Dcn
