import Dcn.Server.Routing

/-! Who a UID designates (server.c, and the protocol comment in server.h).

The comment promises an error code to a client that comes with a UID somebody
else has. The registration step compares the address cached for the UID with the
sender's and stores the sender's connection where they differ, so what decides
is the two addresses, and the answer does not depend on it.
-/

set_option autoImplicit false

namespace Dcn

def Client.SameEndpoint (c d : Client) : Prop := c.ip = d.ip ∧ c.port = d.port

structure Intrusion (locals : Locals) (s : Server) (cli owner : Conn) (c d : Client) (pack : Packet) : Prop where
  sender : s.clients cli = some c
  read : s.nextPacket locals cli = some pack
  registered : mapAt s.dcnClients pack.fromUid = some owner
  isOpen : s.clients owner = some d
  other : owner ≠ cli

def Refused (cli : Conn) (effects : List Effect) : Prop :=
  ∃ answer, pushes effects = [(cli, answer)] ∧ answer.data ≠ intBytes 200

def ServerEvent.disconnects (owner : Conn) : ServerEvent → Prop
  | .disconnect cli _ => cli = owner
  | _ => False

/-- Through the whole run a UID registered for an open connection designates
that connection for as long as it is not disconnected. -/
def Server.Owned (start : Server) (events : List ServerEvent) : Prop :=
  ∀ before between after, events = before ++ (between ++ after) → ∀ uid owner,
    mapAt (Runs.run serverStep start before).dcnClients uid = some owner →
    ((Runs.run serverStep start before).clients owner).isSome →
    (∀ e ∈ between, ¬e.disconnects owner) →
    mapAt (Runs.run serverStep start (before ++ between)).dcnClients uid = some owner

/-- No packet is handled whose sender's UID is registered for another open
connection at another address. -/
def Server.NotTaken (s : Server) : ServerEvent → Prop
  | .work cli locals _ => ∀ owner c d pack, Intrusion locals s cli owner c d pack → d.SameEndpoint c
  | _ => True

namespace Ownership

section Register

variable {locals : Locals} {ok : Conn → Bool} {s : Server} {cli owner : Conn} {c d : Client} {pack : Packet}

/-- The registration step leaves the UID where it is exactly when the addresses
agree. -/
theorem mapAt_register_iff {uid : UInt64} (sender : s.clients cli = some c)
    (registered : mapAt s.dcnClients uid = some owner) (isOpen : s.clients owner = some d) (other : owner ≠ cli) :
    mapAt (register locals s cli uid) uid = some owner ↔ d.SameEndpoint c := by
  unfold register
  simp only [registered, Routing.deref_of_present sender, Routing.deref_of_present isOpen]
  split
  · next differ =>
    rw [Map.mapAt_mapSet_self]
    refine iff_of_false (fun same => other (Option.some.inj same).symm) fun same => ?_
    exact differ.elim (fun ip => ip same.1) fun port => port same.2
  · next same =>
    obtain ⟨ip, port⟩ := not_or.mp same
    exact iff_of_true registered ⟨not_not.mp ip, not_not.mp port⟩

theorem register_of_same (same : d.SameEndpoint c) {uid : UInt64} (sender : s.clients cli = some c)
    (registered : mapAt s.dcnClients uid = some owner) (isOpen : s.clients owner = some d) :
    register locals s cli uid = s.dcnClients := by
  unfold register
  simp only [registered, Routing.deref_of_present sender, Routing.deref_of_present isOpen]
  exact if_neg fun differ => differ.elim (fun ip => ip same.1) fun port => port same.2

theorem clients_popped (intrusion : Intrusion locals s cli owner c d pack) :
    (s.popped cli).clients cli = some { c with readQ := (popBlock c.readQ).2.2 } ∧
      (s.popped cli).clients owner = some d := by
  refine ⟨?_, ?_⟩
  · rw [Server.popped, Server.clients_modify_self, intrusion.sender]
    rfl
  · rw [Server.popped, Server.clients_modify_of_ne s cli _ intrusion.other]
    exact intrusion.isOpen

theorem mapAt_intrusion_iff (ok : Conn → Bool) (intrusion : Intrusion locals s cli owner c d pack) :
    mapAt (dcnAsyncWorker locals ok s cli).1.dcnClients pack.fromUid = some owner ↔ d.SameEndpoint c := by
  obtain ⟨sender, isOpen⟩ := clients_popped intrusion
  rw [Server.dcnAsyncWorker_some ok intrusion.read, Server.dcnClients_handlePacket]
  have decided := @mapAt_register_iff locals _ _ _ _ _ _ sender intrusion.registered isOpen intrusion.other
  exact decided

theorem refused_respond_iff (locals : Locals) (s : Server) (dcnClients : Map UInt64 Conn) (cli : Conn)
    (pack : Packet) : Refused cli (respond locals s dcnClients cli pack) ↔
      pack.fromUid = pack.toUid ∨ Unknown dcnClients pack := by
  by_cases own : pack.fromUid = pack.toUid
  · refine iff_of_true ⟨selfAnswer locals pack, ?_, fun code => ?_⟩ (.inl own)
    · rw [respond_self own]
      rfl
    · have differ : intBytes 102 ≠ intBytes 200 := by decide
      exact differ code
  · rw [respond_other own, Refused, Routing.pushes_cons_push, Routing.pushes_append_change]
    by_cases unknown : Unknown dcnClients pack
    · refine iff_of_true ⟨codeAnswer pack 101, ?_, fun code => ?_⟩ (.inr unknown)
      · rw [Routing.answerCode_of_unknown unknown, Routing.sentOn_of_unknown unknown]
        rfl
      · have differ : intBytes 101 ≠ intBytes 200 := by decide
        exact differ code
    · rw [Routing.answerCode_of_known unknown]
      refine iff_of_false ?_ fun either => either.elim own unknown
      rintro ⟨answer, only, code⟩
      obtain ⟨first, _⟩ := List.cons.inj only
      have same : codeAnswer pack 200 = answer := congrArg Prod.snd first
      exact code (same ▸ rfl)

theorem kept_and_refused_iff (ok : Conn → Bool) (intrusion : Intrusion locals s cli owner c d pack) :
    (mapAt (dcnAsyncWorker locals ok s cli).1.dcnClients pack.fromUid = some owner ∧
      Refused cli (dcnAsyncWorker locals ok s cli).2) ↔
    d.SameEndpoint c ∧ (pack.fromUid = pack.toUid ∨ Unknown s.dcnClients pack) := by
  rw [mapAt_intrusion_iff ok intrusion]
  refine and_congr_right fun same => ?_
  obtain ⟨sender, isOpen⟩ := clients_popped intrusion
  have agreed : d.SameEndpoint { c with readQ := (popBlock c.readQ).2.2 } := same
  have unchanged : register locals (s.popped cli) cli pack.fromUid = s.dcnClients :=
    register_of_same agreed sender intrusion.registered isOpen
  rw [Server.dcnAsyncWorker_some ok intrusion.read]
  have effects : (handlePacket locals ok (s.popped cli) cli pack).2 =
      respond locals (s.popped cli) (register locals (s.popped cli) cli pack.fromUid) cli pack := rfl
  rw [effects, unchanged]
  exact refused_respond_iff locals (s.popped cli) s.dcnClients cli pack

end Register

section Run

variable {s : Server} {owner : Conn} {uid : UInt64}

theorem owner_step (e : ServerEvent) (notTaken : s.NotTaken e) (registered : mapAt s.dcnClients uid = some owner)
    (isOpen : (s.clients owner).isSome) (stays : ¬e.disconnects owner) :
    mapAt (serverStep s e).dcnClients uid = some owner ∧ ((serverStep s e).clients owner).isSome := by
  cases e with
  | accept cli fd ip port =>
    simp only [serverStep]
    split
    · exact ⟨registered, isOpen⟩
    · refine ⟨registered, ?_⟩
      by_cases same : owner = cli
      · subst same
        simp
      · simpa [same] using isOpen
  | frame cli block => exact ⟨registered, by simpa [serverStep] using isOpen⟩
  | epollout cli aw modOk => exact ⟨registered, by simpa [serverStep] using isOpen⟩
  | work cli locals ok =>
    simp only [serverStep]
    cases next : s.nextPacket locals cli with
    | none =>
      rw [Server.dcnAsyncWorker_none ok next]
      exact ⟨registered, isOpen⟩
    | some pack =>
      refine ⟨?_, ?_⟩
      · by_cases mine : uid = pack.fromUid
        · subst mine
          obtain ⟨c, sender⟩ := Server.nextPacket_some next
          obtain ⟨d, there⟩ := Option.isSome_iff_exists.mp isOpen
          by_cases same : owner = cli
          · -- The sender has the UID already; storing it again changes nothing.
            subst same
            rw [Server.dcnAsyncWorker_some ok next, Server.dcnClients_handlePacket]
            rcases register_cases locals (s.popped owner) owner pack.fromUid with stored | kept
            · rw [stored, Map.mapAt_mapSet_self]
            · rw [kept]
              exact registered
          · have intrusion : Intrusion locals s cli owner c d pack := ⟨sender, next, registered, there, same⟩
            exact (mapAt_intrusion_iff ok intrusion).mpr (notTaken owner c d pack intrusion)
        · rw [Server.dcnAsyncWorker_some ok next, Server.dcnClients_handlePacket, mapAt_register_of_ne _ _ _ _ mine]
          exact registered
      · rw [Server.dcnAsyncWorker_some ok next, Server.isSome_clients_handlePacket]
        simpa [Server.popped] using isOpen
  | disconnect cli delOk =>
    have other : owner ≠ cli := fun same => stays same.symm
    simp only [serverStep]
    split
    · have kept : mapAt (dcnDisconnector s cli).dcnClients uid = some owner := by
        rw [Map.mapAt_eq_some_iff, Registry.mem_dcnDisconnector]
        refine ⟨fun found => other ?_, Map.mapAt_eq_some_iff.mp registered⟩
        have erased := Map.mapAt_eq_some_iff.mpr (Map.mapKeyByVal_eq_some found)
        rw [registered] at erased
        exact Option.some.inj erased
      cases delOk with
      | false => exact ⟨kept, by simpa [closeClient] using isOpen⟩
      | true => exact ⟨kept, by simpa [closeClient, other] using isOpen⟩
    · exact ⟨registered, isOpen⟩

theorem owner_run (between : List ServerEvent) (notTaken : Runs.Along serverStep Server.NotTaken s between)
    (registered : mapAt s.dcnClients uid = some owner) (isOpen : (s.clients owner).isSome)
    (stays : ∀ e ∈ between, ¬e.disconnects owner) :
    mapAt (Runs.run serverStep s between).dcnClients uid = some owner := by
  induction between generalizing s with
  | nil => exact registered
  | cons e rest ih =>
    obtain ⟨here, later⟩ := notTaken
    obtain ⟨kept, still⟩ := owner_step e here registered isOpen (stays e List.mem_cons_self)
    exact ih later kept still fun f member => stays f (List.mem_cons_of_mem e member)

theorem owned_iff (start : Server) (events : List ServerEvent) :
    start.Owned events ↔ Runs.Along serverStep Server.NotTaken start events := by
  constructor
  · intro owned
    refine Runs.along_iff_split.mpr fun before e after same => ?_
    cases e with
    | work cli locals ok =>
      intro owner c d pack intrusion
      have isOpen : ((Runs.run serverStep start before).clients owner).isSome := by
        rw [intrusion.isOpen]
        rfl
      have kept := owned before [.work cli locals ok] after same pack.fromUid owner intrusion.registered isOpen
        fun e member => by
          rw [List.mem_singleton.mp member]
          exact id
      rw [Runs.run_append] at kept
      exact (mapAt_intrusion_iff ok intrusion).mp kept
    | _ => trivial
  · intro notTaken before between after same uid owner registered isOpen stays
    rw [Runs.run_append]
    refine owner_run between (Runs.along_iff_split.mpr fun first e rest parts => ?_) registered isOpen stays
    rw [← Runs.run_append]
    refine Runs.along_iff_split.mp notTaken (before ++ first) e (rest ++ after) ?_
    rw [same, parts]
    simp

end Run

/-- What the protocol comment promises of one packet, and of a run. -/
theorem uid_ownership_iff (events : List ServerEvent) :
    (∀ locals ok s cli owner c d pack, Intrusion locals s cli owner c d pack →
      ((mapAt (dcnAsyncWorker locals ok s cli).1.dcnClients pack.fromUid = some owner ∧
          Refused cli (dcnAsyncWorker locals ok s cli).2) ↔
        d.SameEndpoint c ∧ (pack.fromUid = pack.toUid ∨ Unknown s.dcnClients pack))) ∧
    (dcnServInit.Owned events ↔ Runs.Along serverStep Server.NotTaken dcnServInit events) :=
  ⟨fun _ ok _ _ _ _ _ _ intrusion => kept_and_refused_iff ok intrusion, owned_iff dcnServInit events⟩

def beforeTakeover : List ServerEvent :=
  [.accept 1 5 "127.0.0.1" 40000, .accept 2 6 "127.0.0.1" 40001,
   .frame 1 (packetSerial { packetInit [] 7 0 1 with packtype := .ping }), .work 1 .blank fun _ => true,
   .frame 2 (packetSerial (packetInit [104, 105] 7 8 1))]

def contested : Server := Runs.run serverStep dcnServInit beforeTakeover

def owning : Client :=
  { acceptClient 5 "127.0.0.1" 40000 with
    writeQ := ⟨[packetSerial (codeAnswer (packetInit [] 7 0 1) 200)]⟩, mode := .output, tasks := 1 }

def intruding : Client :=
  { acceptClient 6 "127.0.0.1" 40001 with
    readQ := ⟨[packetSerial (packetInit [104, 105] 7 8 1)]⟩, tasks := 1 }

theorem intrusion_contested :
    Intrusion .blank contested 2 1 intruding owning (packetInit [104, 105] 7 8 1) where
  sender := by decide
  read := by decide
  registered := by decide
  isOpen := by decide
  other := by decide

/-- The second connection is not told, and has the UID from then on. -/
theorem contested_not_kept :
    ¬(mapAt (dcnAsyncWorker .blank (fun _ => true) contested 2).1.dcnClients 7 = some 1 ∧
      Refused 2 (dcnAsyncWorker .blank (fun _ => true) contested 2).2) := by
  intro kept
  have agreed := ((uid_ownership_iff []).1 _ (fun _ => true) _ _ _ _ _ _ intrusion_contested).mp kept
  have differ : ¬owning.SameEndpoint intruding := by
    unfold Client.SameEndpoint
    decide
  exact differ agreed.1

theorem contested_taken_over :
    ¬dcnServInit.Owned (beforeTakeover ++ [.work 2 .blank fun _ => true]) := by
  intro owned
  have kept := owned beforeTakeover [.work 2 .blank fun _ => true] [] rfl 7 1 (by decide) (by decide)
    fun e member => by
      rw [List.mem_singleton.mp member]
      exact id
  revert kept
  decide

end Ownership

end Dcn
