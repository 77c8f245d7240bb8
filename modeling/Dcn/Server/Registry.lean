import Dcn.Server.Worker

/-! Closed connections in the registry.

Every packet registers its sender's UID for the connection it came on, and a
disconnect removes the first UID registered for the connection. The two balance
exactly when a connection that is closed has one UID at most.
-/

set_option autoImplicit false

namespace Dcn

def Server.RegistryOpen (s : Server) : Prop :=
  ∀ uid cli, (uid, cli) ∈ s.dcnClients.entries → (s.clients cli).isSome

def Server.OneUidAtClose (s : Server) : ServerEvent → Prop
  | .disconnect cli true => (s.clients cli).isSome →
      ∀ first second, (first, cli) ∈ s.dcnClients.entries → (second, cli) ∈ s.dcnClients.entries →
        first = second
  | _ => True

namespace Registry

theorem registryOpen_of_grows {s t : Server} (kept : s.RegistryOpen) (same : t.dcnClients = s.dcnClients)
    (grows : ∀ cli, (s.clients cli).isSome → (t.clients cli).isSome) : t.RegistryOpen := by
  intro uid cli member
  rw [same] at member
  exact grows cli (kept uid cli member)

theorem isSome_of_mem_register {locals : Locals} {s : Server} {cli ptr : Conn} {fromUid uid : UInt64}
    (kept : s.RegistryOpen) (present : (s.clients cli).isSome)
    (member : (uid, ptr) ∈ (register locals s cli fromUid).entries) : (s.clients ptr).isSome := by
  rcases register_cases locals s cli fromUid with stored | same
  · rw [stored, Map.mem_mapSet] at member
    rcases member with ⟨_, rfl⟩ | ⟨_, member⟩
    · exact present
    · exact kept uid ptr member
  · rw [same] at member
    exact kept uid ptr member

theorem registryOpen_handlePacket {locals : Locals} {ok : Conn → Bool} {s : Server} {cli : Conn}
    {pack : Packet} (kept : s.RegistryOpen) (present : (s.clients cli).isSome) :
    (handlePacket locals ok s cli pack).1.RegistryOpen := by
  intro uid ptr member
  rw [Server.isSome_clients_handlePacket]
  rw [Server.dcnClients_handlePacket] at member
  exact isSome_of_mem_register kept present member

theorem registryOpen_work {locals : Locals} {ok : Conn → Bool} {s : Server} {cli : Conn}
    (kept : s.RegistryOpen) : (dcnAsyncWorker locals ok s cli).1.RegistryOpen := by
  cases next : s.nextPacket locals cli with
  | none => rwa [Server.dcnAsyncWorker_none ok next]
  | some pack =>
    obtain ⟨c, present⟩ := Server.nextPacket_some next
    rw [Server.dcnAsyncWorker_some ok next]
    apply registryOpen_handlePacket
    · exact registryOpen_of_grows kept rfl fun other isOpen => by simpa [Server.popped] using isOpen
    · simp [Server.popped, present]

theorem mem_dcnDisconnector {s : Server} {cli ptr : Conn} {uid : UInt64} :
    (uid, ptr) ∈ (dcnDisconnector s cli).dcnClients.entries ↔
      mapKeyByVal s.dcnClients cli ≠ some uid ∧ (uid, ptr) ∈ s.dcnClients.entries := by
  unfold dcnDisconnector
  cases found : mapKeyByVal s.dcnClients cli with
  | none => simp
  | some key =>
    simp only [Map.mem_mapErase, ne_eq, Option.some.injEq]
    exact and_congr_left' (not_congr eq_comm)

theorem absent_dcnDisconnector_iff {s : Server} {cli : Conn} :
    (∀ uid, (uid, cli) ∉ (dcnDisconnector s cli).dcnClients.entries) ↔
      ∀ first second, (first, cli) ∈ s.dcnClients.entries → (second, cli) ∈ s.dcnClients.entries →
        first = second := by
  simp only [mem_dcnDisconnector]
  cases found : mapKeyByVal s.dcnClients cli with
  | none =>
    have absent := Map.mapKeyByVal_eq_none.mp found
    exact iff_of_true (fun uid left => absent uid left.2) fun first _ member => absurd member (absent first)
  | some key =>
    have stored := Map.mapKeyByVal_eq_some found
    refine ⟨fun absent first second one two => ?_, fun single uid left => ?_⟩
    · have isKey : ∀ uid, (uid, cli) ∈ s.dcnClients.entries → uid = key := by
        intro uid member
        by_contra other
        exact absent uid ⟨fun same => other (Option.some.inj same).symm, member⟩
      rw [isKey first one, isKey second two]
    · exact left.1 (congrArg some (single key uid stored left.2))

theorem registryOpen_disconnect {s : Server} {cli : Conn} (kept : s.RegistryOpen) :
    (closeClient (dcnDisconnector s cli) cli true).RegistryOpen ↔
      ∀ uid, (uid, cli) ∉ (dcnDisconnector s cli).dcnClients.entries := by
  refine ⟨fun isOpen uid member => ?_, fun absent uid ptr member => ?_⟩
  · have closed := isOpen uid cli member
    simp [closeClient] at closed
  · have other : ptr ≠ cli := by
      intro same
      exact absent uid (same ▸ member)
    simp only [closeClient, ↓reduceIte, Function.update_of_ne other, Server.clients_dcnDisconnector]
    exact kept uid ptr (mem_dcnDisconnector.mp member).2

theorem registryOpen_step (s : Server) (e : ServerEvent) (kept : s.RegistryOpen) :
    (serverStep s e).RegistryOpen ↔ s.OneUidAtClose e := by
  cases e with
  | accept cli fd ip port =>
    refine iff_of_true ?_ trivial
    simp only [serverStep]
    split
    · exact kept
    · intro uid ptr member
      by_cases same : ptr = cli
      · subst same; simp
      · simpa [same] using kept uid ptr member
  | frame cli block =>
    refine iff_of_true ?_ trivial
    exact registryOpen_of_grows kept rfl fun other isOpen => by simpa [serverStep] using isOpen
  | work cli locals ok => exact iff_of_true (registryOpen_work kept) trivial
  | epollout cli aw modOk =>
    refine iff_of_true ?_ trivial
    exact registryOpen_of_grows kept rfl fun other isOpen => by simpa [serverStep] using isOpen
  | disconnect cli delOk =>
    cases present : (s.clients cli).isSome with
    | false =>
      refine iff_of_true (by simpa [serverStep, present] using kept) ?_
      cases delOk with
      | false => trivial
      | true => simp [Server.OneUidAtClose, present]
    | true =>
      simp only [serverStep, present, ↓reduceIte]
      cases delOk with
      | false =>
        refine iff_of_true ?_ trivial
        intro uid ptr member
        simpa [closeClient] using kept uid ptr (mem_dcnDisconnector.mp member).2
      | true =>
        -- The disconnector erases one UID of the connection before it is freed.
        rw [registryOpen_disconnect kept, absent_dcnDisconnector_iff]
        simp [Server.OneUidAtClose, present]

/-- In every run of the server the registry holds open connections only,
exactly when no connection is closed while two UIDs are registered for it. -/
theorem registry_open_iff (events : List ServerEvent) :
    Runs.Throughout serverStep Server.RegistryOpen dcnServInit events ↔
      Runs.Along serverStep Server.OneUidAtClose dcnServInit events := by
  have start : dcnServInit.RegistryOpen := fun uid cli member => by cases member
  exact Runs.throughout_iff_along_all (fun _ => True) (fun _ _ _ => trivial)
    (fun s e _ kept => registryOpen_step s e kept) trivial start

/-- One connection speaks as 7 and then as 8, and is disconnected. -/
def twoUids : List ServerEvent :=
  [.accept 1 5 "127.0.0.1" 40000,
   .frame 1 (packetSerial (packetInit [] 7 0 1)), .work 1 .blank fun _ => true,
   .frame 1 (packetSerial (packetInit [] 8 0 2)), .work 1 .blank fun _ => true,
   .disconnect 1 true]

theorem registry_keeps_closed_connection :
    ¬Runs.Throughout serverStep Server.RegistryOpen dcnServInit twoUids := by
  intro always
  have last := always.last 8 1
  revert last
  decide

end Registry

end Dcn
