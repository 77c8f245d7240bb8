import Dcn.Foundation.Runs
import Dcn.Memory.Pointers
import Dcn.Server.Effects
import Dcn.Server.Registry

/-! The broadcast loop while other threads change the registry (server.c).

The length of dcn_clients is read once. In each turn the key of a slot is
copied, a pointer to its connection looked up, the connection read through the
pointer twice, and a copy of the packet pushed. Other threads may register and
erase users and close connections between these steps. An erase closes the gap
it leaves, so the entries behind it move one slot to the front, and it gives the
arrays of the map back, which the pointer may be into.
-/

set_option autoImplicit false

namespace Dcn

/-- The step the loop takes next. It is lost once it has read an array or a
connection that was given back. -/
inductive BroadcastPc where
  | snapshot
  | keyAt (i len : Nat)
  | lookup (i len : Nat) (key : UInt64)
  | target (i len : Nat) (key : UInt64) (toCliPtr : SlotPtr)
  | print (i len : Nat) (key : UInt64) (toCliPtr : SlotPtr) (toCli : Conn)
  | push (i len : Nat) (key : UInt64) (toCli : Conn)
  | done
  | lost
  deriving DecidableEq, Repr

structure Broadcasting where
  server : Server
  arrays : Arrays
  pc : BroadcastPc
  effects : List Effect

inductive BroadcastEvent where
  | advance (locals : Locals)
  | register (uid : UInt64) (cli : Conn) (moved : Moved)
  | erase (uid : UInt64)
  | connections (clients : Conn → Option Client)

namespace BroadcastPc

def passed : BroadcastPc → Nat → Bool
  | .snapshot, _ => false
  | .keyAt i _, slot => slot < i
  | .lookup i _ _, slot | .target i _ _ _, slot | .print i _ _ _ _, slot | .push i _ _ _, slot => slot ≤ i
  | .done, _ | .lost, _ => true

def carries (uid : UInt64) (conn : Conn) : BroadcastPc → Nat
  | .lookup _ _ key | .target _ _ key _ => if key = uid then 1 else 0
  | .print _ _ key _ toCli | .push _ _ key toCli => if key = uid ∧ toCli = conn then 1 else 0
  | _ => 0

def Within (pc : BroadcastPc) (slot : Nat) : Prop :=
  match pc with
  | .keyAt _ len | .lookup _ len _ | .target _ len _ _ | .print _ len _ _ _ | .push _ len _ _ =>
    pc.passed slot = false → slot < len
  | .snapshot | .done | .lost => True

def pointer : BroadcastPc → Option (UInt64 × SlotPtr)
  | .target _ _ key toCliPtr | .print _ _ key toCliPtr _ => some (key, toCliPtr)
  | _ => none

end BroadcastPc

namespace Broadcasting

def loopTest (i len : Nat) : BroadcastPc := if i < len then .keyAt i len else .done

section Loop

variable (cli : Conn) (pack : Packet)

def advance (s : Broadcasting) (locals : Locals) : Broadcasting :=
  match s.pc with
  | .snapshot => { s with pc := loopTest 0 s.server.dcnClients.entries.length }
  | .keyAt i len => { s with
      pc := match mapKeyAt s.server.dcnClients i with
        | none => loopTest (i + 1) len
        | some key => .lookup i len key }
  | .lookup i len key => { s with
      pc := match s.arrays.find s.server.dcnClients key with
        | none => loopTest (i + 1) len
        | some toCliPtr => if key = pack.fromUid then loopTest (i + 1) len else .target i len key toCliPtr }
  | .target i len key toCliPtr => { s with
      pc := match s.arrays.value s.server.dcnClients toCliPtr with
        | none => .lost
        | some toCli => .print i len key toCliPtr toCli }
  -- The test of the pointer and what is printed are read through it again.
  | .print i len key toCliPtr toCli => { s with
      pc := match (s.arrays.value s.server.dcnClients toCliPtr).bind s.server.clients with
        | none => .lost
        | some _ => .push i len key toCli }
  | .push i len key toCli =>
    match s.server.clients toCli, s.server.clients cli with
    | some _, some _ => { s with
        pc := loopTest (i + 1) len
        effects := s.effects ++ broadcastTo locals s.server cli pack key toCli }
    | _, _ => { s with pc := .lost }
  | .done | .lost => s

def step (s : Broadcasting) : BroadcastEvent → Broadcasting
  | .advance locals => s.advance cli pack locals
  | .register uid conn moved => { s with
      server := { s.server with dcnClients := mapSet s.server.dcnClients uid conn }
      arrays := s.arrays.set (mapIn s.server.dcnClients uid) moved }
  | .erase uid => { s with
      server := { s.server with dcnClients := mapErase s.server.dcnClients uid }
      arrays := s.arrays.erase (mapIn s.server.dcnClients uid) }
  | .connections clients => { s with server := { s.server with clients := clients } }

end Loop

/-- The user is registered to an open connection that is not the sender's. -/
def Stays (cli : Conn) (uid : UInt64) (conn : Conn) (s : Broadcasting) : Prop :=
  mapAt s.server.dcnClients uid = some conn ∧
    ∃ c d, s.server.clients conn = some c ∧ s.server.clients cli = some d ∧ 0 < c.fd ∧ c.fd ≠ d.fd

def copies (pack : Packet) (uid : UInt64) (conn : Conn) (s : Broadcasting) : Nat :=
  s.effects.count (.push conn (broadcastCopy pack uid))

/-- The erase of a user does not move another from a slot that the loop has yet
to read to one that it has passed. -/
def NotSkipped (uid : UInt64) (s : Broadcasting) : BroadcastEvent → Prop
  | .erase key => ∀ slot gap, mapKeyAt s.server.dcnClients (slot + 1) = some uid →
      mapKeyAt s.server.dcnClients gap = some key → gap ≤ slot → s.pc.passed slot → s.pc.passed (slot + 1)
  | _ => True

def LiveAt (s : Broadcasting) : BroadcastPc → Prop
  | .target _ _ _ toCliPtr => toCliPtr.array = s.arrays.values
  | .print _ _ key toCliPtr _ =>
    toCliPtr.array = s.arrays.values ∧ ∀ toCli ∈ mapAt s.server.dcnClients key, (s.server.clients toCli).isSome
  | .push _ _ _ toCli => (s.server.clients toCli).isSome
  | _ => True

def Live (s : Broadcasting) : Prop := s.LiveAt s.pc

/-- An erase does not skip the user, and a step of the loop reads what is there. -/
def Undisturbed (uid : UInt64) (s : Broadcasting) : BroadcastEvent → Prop
  | .advance _ => s.Live
  | event => NotSkipped uid s event

section Uninterrupted

variable {cli : Conn} {pack : Packet}

theorem server_advance (s : Broadcasting) (locals : Locals) : (s.advance cli pack locals).server = s.server := by
  unfold advance
  cases s.pc with
  | push i len key toCli =>
    dsimp only
    split <;> rfl
  | _ => rfl

def Reaches (cli : Conn) (pack : Packet) (locals : Locals) (s s' : Broadcasting) : Prop :=
  ∃ n, Runs.run (step cli pack) s (List.replicate n (.advance locals)) = s'

theorem Reaches.next {locals : Locals} {s s' : Broadcasting}
    (later : Reaches cli pack locals (s.advance cli pack locals) s') : Reaches cli pack locals s s' := by
  obtain ⟨n, run⟩ := later
  refine ⟨n + 1, ?_⟩
  rw [List.replicate_succ, Runs.run_cons]
  exact run

theorem Reaches.trans {locals : Locals} {s s' s'' : Broadcasting} (first : Reaches cli pack locals s s')
    (second : Reaches cli pack locals s' s'') : Reaches cli pack locals s s'' := by
  obtain ⟨n, run⟩ := first
  obtain ⟨m, rest⟩ := second
  refine ⟨n + m, ?_⟩
  rw [List.replicate_add, Runs.run_append, run, rest]

theorem turn (locals : Locals) {server : Server} {arrays : Arrays} (effects : List Effect) {i len : Nat}
    (registry : server.RegistryOpen) (sender : (server.clients cli).isSome)
    (bound : i < server.dcnClients.entries.length) :
    Reaches cli pack locals ⟨server, arrays, .keyAt i len, effects⟩ ⟨server, arrays, loopTest (i + 1) len,
      effects ++ broadcastAt locals server server.dcnClients cli pack i⟩ := by
  obtain ⟨d, isCli⟩ := Option.isSome_iff_exists.mp sender
  have slot : server.dcnClients.entries[i]? = some server.dcnClients.entries[i] := List.getElem?_eq_getElem bound
  generalize server.dcnClients.entries[i] = e at slot
  have isKey : mapKeyAt server.dcnClients i = some e.1 := by rw [mapKeyAt, slot]; rfl
  have entry := List.mem_of_getElem? slot
  obtain ⟨c, isOpen⟩ := Option.isSome_iff_exists.mp (registry e.1 e.2 entry)
  rw [broadcastAt_of_getElem slot]
  refine .next ?_
  simp only [advance, isKey]
  cases found : arrays.find server.dcnClients e.1 with
  | none =>
    have stored : mapAt server.dcnClients e.1 = some e.2 := Map.mapAt_eq_some_iff.mpr entry
    rw [Arrays.find_eq_none.mp found] at stored
    cases stored
  | some ptr =>
    obtain ⟨toCli, read, stored⟩ := (Arrays.pointsTo_find found).value (Arrays.array_find found)
    cases (Map.mapAt_eq_some_iff.mpr entry).symm.trans stored
    by_cases own : e.1 = pack.fromUid
    · rw [own] at found
      exact ⟨1, by simp [step, advance, found, own, broadcastTo]⟩
    · exact ⟨4, by simp [List.replicate, step, advance, found, own, read, isOpen, isCli]⟩

theorem turns (locals : Locals) {server : Server} (arrays : Arrays) (effects : List Effect) (left i : Nat)
    (registry : server.RegistryOpen) (sender : (server.clients cli).isSome)
    (range : i + left = server.dcnClients.entries.length) :
    Reaches cli pack locals ⟨server, arrays, loopTest i server.dcnClients.entries.length, effects⟩ ⟨server, arrays,
      .done, effects ++ (List.range' i left).flatMap (broadcastAt locals server server.dcnClients cli pack)⟩ := by
  induction left generalizing i effects with
  | zero =>
    rw [loopTest, if_neg (by omega)]
    exact ⟨0, by simp⟩
  | succ left ih =>
    have first := @turn cli pack locals server arrays effects i server.dcnClients.entries.length registry sender
      (by omega)
    rw [loopTest, if_pos (by omega), List.range'_succ, List.flatMap_cons, ← List.append_assoc]
    exact first.trans (ih _ (i + 1) (by omega))

/-- The loop that nothing comes between has the effects of `broadcastLoop`. -/
theorem uninterrupted (locals : Locals) {server : Server} (arrays : Arrays) (registry : server.RegistryOpen)
    (sender : (server.clients cli).isSome) :
    Reaches cli pack locals ⟨server, arrays, .snapshot, []⟩
      ⟨server, arrays, .done, broadcastLoop locals server server.dcnClients cli pack⟩ := by
  have whole := @turns cli pack locals server arrays [] server.dcnClients.entries.length 0 registry sender
    (Nat.zero_add _)
  rw [List.nil_append, ← List.range_eq_range'] at whole
  exact .next whole

end Uninterrupted

def Pointing (s : Broadcasting) : Prop :=
  ∀ e ∈ s.pc.pointer, s.arrays.PointsTo s.server.dcnClients e.1 e.2

section Pointing

variable {cli : Conn} {pack : Packet} {s : Broadcasting}

theorem pointer_loopTest (i len : Nat) : (loopTest i len).pointer = none := by
  unfold loopTest
  split <;> rfl

theorem pointing_advance (locals : Locals) (pointing : s.Pointing) : (s.advance cli pack locals).Pointing := by
  have none : ∀ s' : Broadcasting, s'.pc.pointer = none → s'.Pointing := by
    intro s' nothing e has
    rw [nothing] at has
    cases has
  cases place : s.pc with
  | snapshot =>
    simp only [advance, place]
    exact none _ (pointer_loopTest ..)
  | keyAt i len =>
    simp only [advance, place]
    refine none _ ?_
    dsimp only
    split
    · exact pointer_loopTest ..
    · rfl
  | lookup i len key =>
    simp only [advance, place]
    cases found : s.arrays.find s.server.dcnClients key with
    | none => exact none _ (pointer_loopTest ..)
    | some ptr =>
      by_cases own : key = pack.fromUid
      · simp only [own, ↓reduceIte]
        exact none _ (pointer_loopTest ..)
      · simp only [own, ↓reduceIte]
        intro e has
        cases has
        exact Arrays.pointsTo_find found
  | target i len key ptr =>
    simp only [advance, place]
    cases read : s.arrays.value s.server.dcnClients ptr with
    | none => exact none _ rfl
    | some toCli =>
      intro e has
      cases has
      exact pointing (key, ptr) (by rw [place]; rfl)
  | print i len key ptr toCli =>
    simp only [advance, place]
    refine none _ ?_
    dsimp only
    split <;> rfl
  | push i len key toCli =>
    simp only [advance, place]
    refine none _ ?_
    split
    · exact pointer_loopTest ..
    · rfl
  | done | lost =>
    simp only [advance, place]
    exact pointing

theorem pointing_step (event : BroadcastEvent) (pointing : s.Pointing) : (s.step cli pack event).Pointing := by
  cases event with
  | advance locals => exact pointing_advance locals pointing
  | register uid conn moved => exact fun e has => (pointing e has).set uid conn moved
  | erase uid => exact fun e has => (pointing e has).erase uid
  | connections clients => exact pointing

theorem lost_advance_iff (locals : Locals) {uid : UInt64} {conn : Conn} (stays : s.Stays cli uid conn)
    (pointing : s.Pointing) (going : s.pc ≠ .lost) : (s.advance cli pack locals).pc ≠ .lost ↔ s.Live := by
  have tests : ∀ i len, loopTest i len ≠ .lost := by
    intro i len
    unfold loopTest
    split <;> exact BroadcastPc.noConfusion
  cases place : s.pc with
  | snapshot =>
    simp only [advance, place, Live, LiveAt]
    exact iff_of_true (tests _ _) trivial
  | keyAt i len =>
    simp only [advance, place, Live, LiveAt]
    refine iff_of_true ?_ trivial
    split
    · exact tests _ _
    · exact BroadcastPc.noConfusion
  | lookup i len key =>
    simp only [advance, place, Live, LiveAt]
    refine iff_of_true ?_ trivial
    split
    · exact tests _ _
    · split
      · exact tests _ _
      · exact BroadcastPc.noConfusion
  | target i len key ptr =>
    simp only [advance, place, Live, LiveAt]
    by_cases there : ptr.array = s.arrays.values
    · obtain ⟨toCli, read, -⟩ := (pointing (key, ptr) (by rw [place]; rfl)).value there
      simp [read, there]
    · simp [Arrays.value, there]
  | print i len key ptr toCli =>
    simp only [advance, place, Live, LiveAt]
    by_cases there : ptr.array = s.arrays.values
    · obtain ⟨current, read, stored⟩ := (pointing (key, ptr) (by rw [place]; rfl)).value there
      cases isOpen : s.server.clients current <;> simp [read, there, stored, isOpen]
    · simp [Arrays.value, there]
  | push i len key toCli =>
    obtain ⟨-, -, d, -, isCli, -⟩ := stays
    simp only [advance, place, Live, LiveAt]
    cases isOpen : s.server.clients toCli with
    | none => simp
    | some c => simp [isCli, tests]
  | done => simp [advance, place, Live, LiveAt]
  | lost => exact absurd place going

end Pointing

section Copies

variable {cli : Conn} {pack : Packet} {uid : UInt64} {conn : Conn} {s : Broadcasting} {slot : Nat}

def owed (pack : Packet) (uid : UInt64) (conn : Conn) (s : Broadcasting) : Nat :=
  copies pack uid conn s + s.pc.carries uid conn

theorem carries_loopTest (i len : Nat) : (loopTest i len).carries uid conn = 0 := by
  unfold loopTest
  split <;> rfl

theorem passed_loopTest {i len : Nat} (inside : slot < i ∨ slot < len) :
    (loopTest i len).passed slot = decide (slot < i) := by
  unfold loopTest
  split
  · rfl
  · next ends =>
    have before : slot < i := by omega
    rw [decide_eq_true before]
    rfl

theorem within_loopTest {i len : Nat} (inside : slot < i ∨ slot < len) : (loopTest i len).Within slot := by
  unfold loopTest
  split
  · intro ahead
    have here : ¬ slot < i := of_decide_eq_false ahead
    exact inside.resolve_left here
  · trivial

theorem within_iff {i len : Nat} : ((slot ≤ i : Bool) = false → slot < len) ↔ slot < i + 1 ∨ slot < len := by
  rw [decide_eq_false_iff_not, Nat.lt_succ_iff, ← or_iff_not_imp_left]

theorem count_broadcastTo (locals : Locals) {key : UInt64} {toCli : Conn} (stays : s.Stays cli uid conn)
    (other : uid ≠ pack.fromUid) :
    (broadcastTo locals s.server cli pack key toCli).count (.push conn (broadcastCopy pack uid)) =
      if key = uid ∧ toCli = conn then 1 else 0 := by
  obtain ⟨-, c, d, isConn, isCli, positive, differ⟩ := stays
  by_cases same : key = uid ∧ toCli = conn
  · obtain ⟨rfl, rfl⟩ := same
    have conn : s.server.deref locals toCli = c := by rw [Server.deref, isConn]; rfl
    have sender : s.server.deref locals cli = d := by rw [Server.deref, isCli]; rfl
    simp [broadcastTo, other, conn, sender, differ, positive]
  · rw [if_neg same, List.count_eq_zero]
    intro member
    rw [show broadcastTo locals s.server cli pack key toCli = _ from broadcastTo_eq (key, toCli)] at member
    split at member
    · simp only [broadcastPair, List.mem_cons, reduceCtorEq, Effect.push.injEq, List.not_mem_nil, or_false,
        false_or] at member
      exact same ⟨(congrArg Packet.toUid member.2).symm, member.1.symm⟩
    · cases member

theorem passed_next {i len : Nat} (inside : slot < i + 1 ∨ slot < len) :
    (loopTest (i + 1) len).passed slot = decide (slot ≤ i) := by
  rw [passed_loopTest inside, decide_eq_decide]
  exact Nat.lt_succ_iff

/-- One state follows another, and the user is owed a copy more exactly where
its slot was passed between them. -/
structure Accounts (pack : Packet) (uid : UInt64) (conn : Conn) (slot : Nat) (s s' : Broadcasting) : Prop where
  within : s'.pc.Within slot
  kept : s.pc.passed slot → s'.pc.passed slot
  counted : owed pack uid conn s' + (s.pc.passed slot).toNat = owed pack uid conn s + (s'.pc.passed slot).toNat

theorem accounts_keyAt (locals : Locals) (here : mapKeyAt s.server.dcnClients slot = some uid) {i len : Nat}
    (place : s.pc = .keyAt i len) (within : s.pc.Within slot) :
    Accounts pack uid conn slot s (s.advance cli pack locals) := by
  have bound := Map.mapKeyAt_lt here
  rw [place] at within
  cases read : mapKeyAt s.server.dcnClients i with
  | none =>
    have beyond : s.server.dcnClients.entries.length ≤ i := by
      simpa [mapKeyAt] using read
    have past : slot < i := by omega
    simp only [advance, place, read]
    have inside : slot < i + 1 ∨ slot < len := .inl (Nat.lt_succ_of_lt past)
    refine ⟨within_loopTest inside, ?_, ?_⟩
    · simp only [passed_next inside]
      exact fun _ => decide_eq_true past.le
    · simp only [owed, place, carries_loopTest, passed_next inside, decide_eq_true past.le]
      simp [BroadcastPc.passed, BroadcastPc.carries, copies, past]
  | some key =>
    have isUser : key = uid ↔ slot = i := by
      constructor
      · rintro rfl
        exact Map.mapKeyAt_inj here read
      · rintro rfl
        exact Option.some.inj (read.symm.trans here)
    simp only [advance, place, read]
    refine ⟨?_, ?_, ?_⟩
    · intro ahead
      have ahead : ¬ slot ≤ i := of_decide_eq_false ahead
      exact within (decide_eq_false (by omega))
    · rw [place]
      exact fun past => decide_eq_true (of_decide_eq_true past : slot < i).le
    · simp only [owed, place, BroadcastPc.passed, BroadcastPc.carries, isUser]
      rcases Nat.lt_trichotomy slot i with past | same | ahead
      · simp [copies, past, Nat.le_of_lt past, Nat.ne_of_lt past]
      · simp [copies, same]
      · simp [copies, Nat.not_lt_of_lt ahead, Nat.not_le_of_lt ahead, Nat.ne_of_gt ahead]

theorem accounts_lookup (locals : Locals) (stays : s.Stays cli uid conn) (other : uid ≠ pack.fromUid) {i len : Nat}
    {key : UInt64} (place : s.pc = .lookup i len key) (within : s.pc.Within slot) :
    Accounts pack uid conn slot s (s.advance cli pack locals) := by
  rw [place] at within
  have inside := within_iff.mp within
  -- A turn that ends here is not the user's.
  have ends : key ≠ uid → Accounts pack uid conn slot s { s with pc := loopTest (i + 1) len } := by
    intro otherKey
    refine ⟨within_loopTest inside, ?_, ?_⟩
    · rw [place, passed_next inside]
      exact id
    · simp only [owed, place, carries_loopTest, passed_next inside]
      simp [BroadcastPc.passed, BroadcastPc.carries, copies, otherKey]
  cases found : s.arrays.find s.server.dcnClients key with
  | none =>
    simp only [advance, place, found]
    refine ends ?_
    rintro rfl
    have missing := Arrays.find_eq_none.mp found
    rw [stays.1] at missing
    cases missing
  | some ptr =>
    by_cases own : key = pack.fromUid
    · simp only [advance, place, found, if_pos own]
      exact ends fun same => other (same.symm.trans own)
    · simp only [advance, place, found, if_neg own]
      refine ⟨within, by rw [place]; exact id, ?_⟩
      simp only [owed, place, BroadcastPc.carries]
      rfl

theorem accounts_target (locals : Locals) (stays : s.Stays cli uid conn) (pointing : s.Pointing) (live : s.Live)
    {i len : Nat} {key : UInt64} {ptr : SlotPtr} (place : s.pc = .target i len key ptr) (within : s.pc.Within slot) :
    Accounts pack uid conn slot s (s.advance cli pack locals) := by
  rw [place] at within
  rw [Live, place] at live
  obtain ⟨toCli, read, stored⟩ := (pointing (key, ptr) (by rw [place]; rfl)).value live
  have sameConn : key = uid → toCli = conn := by
    rintro rfl
    exact Option.some.inj (stored.symm.trans stays.1)
  have carried : (key = uid ∧ toCli = conn) ↔ key = uid := and_iff_left_of_imp sameConn
  simp only [advance, place, read]
  refine ⟨within, by rw [place]; exact id, ?_⟩
  simp only [owed, place, BroadcastPc.carries, carried]
  rfl

theorem accounts_print (locals : Locals) (pointing : s.Pointing) (live : s.Live) {i len : Nat} {key : UInt64}
    {ptr : SlotPtr} {toCli : Conn} (place : s.pc = .print i len key ptr toCli) (within : s.pc.Within slot) :
    Accounts pack uid conn slot s (s.advance cli pack locals) := by
  rw [place] at within
  rw [Live, place] at live
  obtain ⟨current, read, stored⟩ := (pointing (key, ptr) (by rw [place]; rfl)).value live.1
  obtain ⟨c, isOpen⟩ := Option.isSome_iff_exists.mp (live.2 current stored)
  simp only [advance, place, read, Option.bind_some, isOpen]
  refine ⟨within, by rw [place]; exact id, ?_⟩
  simp only [owed, place, BroadcastPc.carries]
  rfl

theorem accounts_push (locals : Locals) (stays : s.Stays cli uid conn) (other : uid ≠ pack.fromUid) (live : s.Live)
    {i len : Nat} {key : UInt64} {toCli : Conn} (place : s.pc = .push i len key toCli) (within : s.pc.Within slot) :
    Accounts pack uid conn slot s (s.advance cli pack locals) := by
  rw [place] at within
  rw [Live, place] at live
  have inside := within_iff.mp within
  obtain ⟨c, isOpen⟩ := Option.isSome_iff_exists.mp live
  obtain ⟨-, -, d, -, isCli, -⟩ := id stays
  simp only [advance, place, isOpen, isCli]
  refine ⟨within_loopTest inside, ?_, ?_⟩
  · rw [place, passed_next inside]
    exact id
  · simp only [owed, place, carries_loopTest, passed_next inside, copies, List.count_append,
      count_broadcastTo locals stays other]
    simp [BroadcastPc.passed, BroadcastPc.carries]

/-- A step of the loop owes the user a copy more exactly where it passes the
user's slot. -/
theorem accounts_advance (locals : Locals) (stays : s.Stays cli uid conn) (other : uid ≠ pack.fromUid)
    (here : mapKeyAt s.server.dcnClients slot = some uid) (pointing : s.Pointing) (live : s.Live)
    (within : s.pc.Within slot) : Accounts pack uid conn slot s (s.advance cli pack locals) := by
  cases place : s.pc with
  | snapshot =>
    have bound := Map.mapKeyAt_lt here
    simp only [advance, place]
    refine ⟨within_loopTest (.inr bound), ?_, ?_⟩
    · simp [place, BroadcastPc.passed]
    · simp only [owed, place, carries_loopTest, passed_loopTest (.inr bound)]
      simp [BroadcastPc.passed, BroadcastPc.carries, copies]
  | keyAt i len => exact accounts_keyAt locals here place within
  | lookup i len key => exact accounts_lookup locals stays other place within
  | target i len key ptr => exact accounts_target locals stays pointing live place within
  | print i len key ptr toCli => exact accounts_print locals pointing live place within
  | push i len key toCli => exact accounts_push locals stays other live place within
  | done | lost =>
    simp only [advance, place]
    exact ⟨by simp [place, BroadcastPc.Within], id, rfl⟩

end Copies

/-- The user has the copy that it is owed: none before the loop passes its slot,
and one after. -/
def Reached (pack : Packet) (uid : UInt64) (conn : Conn) (s : Broadcasting) : Prop :=
  s.pc ≠ .lost ∧ ∃ slot, mapKeyAt s.server.dcnClients slot = some uid ∧ s.pc.Within slot ∧
    owed pack uid conn s = (s.pc.passed slot).toNat

def Missed (pack : Packet) (uid : UInt64) (conn : Conn) (s : Broadcasting) : Prop :=
  s.pc = .lost ∨ ∃ slot, mapKeyAt s.server.dcnClients slot = some uid ∧ s.pc.Within slot ∧ s.pc.passed slot = true ∧
    owed pack uid conn s = 0

section Steps

variable {cli : Conn} {pack : Packet} {uid : UInt64} {conn : Conn} {s : Broadcasting} {event : BroadcastEvent}

theorem passed_of_succ {pc : BroadcastPc} {slot : Nat} (past : pc.passed (slot + 1) = true) :
    pc.passed slot = true := by
  cases pc with
  | snapshot => cases past
  | done | lost => rfl
  | _ =>
    simp only [BroadcastPc.passed, decide_eq_true_eq] at past ⊢
    omega

theorem within_of_succ {pc : BroadcastPc} {slot : Nat} (within : pc.Within (slot + 1)) : pc.Within slot := by
  have later : pc.passed slot = false → pc.passed (slot + 1) = false := by
    intro ahead
    by_contra past
    rw [Bool.not_eq_false] at past
    rw [passed_of_succ past] at ahead
    cases ahead
  cases pc with
  | snapshot | done | lost => trivial
  | _ => exact fun ahead => Nat.lt_of_succ_lt (within (later ahead))

theorem Missed.not_reached (missed : s.Missed pack uid conn) : ¬ s.Reached pack uid conn := by
  rintro ⟨going, slot, here, -, due⟩
  obtain ⟨place, there, -, past, none⟩ := missed.resolve_left going
  cases Map.mapKeyAt_inj here there
  rw [none, past] at due
  cases due

/-- Where the erase of another user leaves a user: its slot, or the one before. -/
theorem slot_erase {key : UInt64} {slot : Nat} (here : mapKeyAt s.server.dcnClients slot = some uid)
    (kept : (s.step cli pack (.erase key)).Stays cli uid conn) :
    mapKeyAt (mapErase s.server.dcnClients key) slot = some uid ∧
        (∀ gap, mapKeyAt s.server.dcnClients gap = some key → slot < gap) ∨
      ∃ before gap, slot = before + 1 ∧ mapKeyAt s.server.dcnClients gap = some key ∧ gap ≤ before ∧
        mapKeyAt (mapErase s.server.dcnClients key) before = some uid := by
  have otherKey : uid ≠ key := by
    rintro rfl
    obtain ⟨i, found⟩ := Map.mapKeyAt_of_mapAt kept.1
    obtain ⟨e, entry, isUser⟩ := Option.map_eq_some_iff.mp found
    have member := Map.mem_mapErase.mp (List.mem_of_getElem? entry)
    exact member.1 isUser
  rcases Map.mapKeyAt_mapErase s.server.dcnClients key with same | ⟨gap, isKey, moved⟩
  · exact .inl ⟨(same slot).2.trans here, fun gap isKey => absurd isKey (same gap).1⟩
  · have apart : slot ≠ gap := by
      rintro rfl
      exact otherKey (Option.some.inj (here.symm.trans isKey))
    rcases Nat.lt_or_gt_of_ne apart with before | behind
    · refine .inl ⟨by rw [moved, if_pos before, here], fun place isKey' => ?_⟩
      rwa [Map.mapKeyAt_inj isKey' isKey]
    · obtain ⟨back, rfl⟩ : ∃ back, slot = back + 1 := ⟨slot - 1, by omega⟩
      exact .inr ⟨back, gap, rfl, isKey, by omega, by rw [moved, if_neg (by omega), here]⟩

/-- A step keeps a user that has what it is owed so unless it skips the user or
is lost. -/
theorem reached_step_iff (stays : s.Stays cli uid conn) (kept : (s.step cli pack event).Stays cli uid conn)
    (other : uid ≠ pack.fromUid) (pointing : s.Pointing) (reached : s.Reached pack uid conn) :
    (s.step cli pack event).Reached pack uid conn ↔ Undisturbed uid s event := by
  obtain ⟨going, slot, here, within, due⟩ := reached
  cases event with
  | advance locals =>
    have still := @lost_advance_iff cli pack s locals uid conn stays pointing going
    refine ⟨fun next => still.mp next.1, fun live => ⟨still.mpr live, slot, ?_⟩⟩
    obtain ⟨within', -, owes⟩ := accounts_advance locals stays other here pointing live within
    refine ⟨?_, within', ?_⟩
    · rwa [step, server_advance]
    · rw [step]
      omega
  | register key conn' moved => exact iff_of_true ⟨going, slot, Map.mapKeyAt_mapSet here, within, due⟩ trivial
  | connections clients => exact iff_of_true ⟨going, slot, here, within, due⟩ trivial
  | erase key =>
    rcases slot_erase here kept with ⟨still, before⟩ | ⟨back, gap, rfl, isKey, front, moved⟩
    · refine iff_of_true ⟨going, slot, still, within, due⟩ fun slot' gap here' isKey front _ => ?_
      cases Map.mapKeyAt_inj here here'
      have later := before gap isKey
      omega
    · constructor
      · rintro ⟨-, slot', there, -, due'⟩ place gap' here' - - past
        cases Map.mapKeyAt_inj here here'
        cases Map.mapKeyAt_inj there moved
        have same : s.pc.passed (back + 1) = s.pc.passed back := by
          have owes : (s.pc.passed (back + 1)).toNat = (s.pc.passed back).toNat := due.symm.trans due'
          rw [Bool.eq_iff_iff, ← Bool.toNat_eq_one, owes, Bool.toNat_eq_one]
        rw [same]
        exact past
      · intro notSkipped
        refine ⟨going, back, moved, within_of_succ within, due.trans ?_⟩
        have same : s.pc.passed (back + 1) = s.pc.passed back :=
          Bool.eq_iff_iff.mpr ⟨passed_of_succ, notSkipped back gap here isKey front⟩
        rw [same]
        rfl

theorem missed_of_disturbed (stays : s.Stays cli uid conn) (kept : (s.step cli pack event).Stays cli uid conn)
    (pointing : s.Pointing) (reached : s.Reached pack uid conn) (disturbed : ¬ Undisturbed uid s event) :
    (s.step cli pack event).Missed pack uid conn := by
  obtain ⟨going, slot, here, within, due⟩ := reached
  cases event with
  | advance locals => exact .inl (not_not.mp (mt (lost_advance_iff locals stays pointing going).mp disturbed))
  | register key conn' moved => exact absurd trivial disturbed
  | connections clients => exact absurd trivial disturbed
  | erase key =>
    simp only [Undisturbed, NotSkipped, not_forall] at disturbed
    obtain ⟨back, gap, here', isKey, front, past, ahead⟩ := disturbed
    cases Map.mapKeyAt_inj here here'
    rcases slot_erase here kept with ⟨still, before⟩ | ⟨back', gap', same, -, -, moved⟩
    · have later := before gap isKey
      omega
    · cases same
      refine .inr ⟨back, moved, within_of_succ within, past, ?_⟩
      rw [Bool.not_eq_true] at ahead
      rw [ahead] at due
      exact due

theorem lost_step (lost : s.pc = .lost) : (s.step cli pack event).pc = .lost := by
  cases event with
  | advance locals => simp only [step, advance, lost]
  | _ => exact lost

theorem missed_step (stays : s.Stays cli uid conn) (kept : (s.step cli pack event).Stays cli uid conn)
    (other : uid ≠ pack.fromUid) (pointing : s.Pointing) (missed : s.Missed pack uid conn) :
    (s.step cli pack event).Missed pack uid conn := by
  by_cases going : s.pc = .lost
  · exact .inl (lost_step going)
  obtain ⟨slot, here, within, past, none⟩ := missed.resolve_left going
  cases event with
  | advance locals =>
    by_cases live : s.Live
    · obtain ⟨within', still, owes⟩ := accounts_advance locals stays other here pointing live within
      rw [past, still past] at owes
      refine .inr ⟨slot, ?_, within', still past, ?_⟩
      · rwa [step, server_advance]
      · rw [step]
        omega
    · exact .inl (not_not.mp (mt (lost_advance_iff locals stays pointing going).mp live))
  | register key conn' moved => exact .inr ⟨slot, Map.mapKeyAt_mapSet here, within, past, none⟩
  | connections clients => exact .inr ⟨slot, here, within, past, none⟩
  | erase key =>
    rcases slot_erase here kept with ⟨still, -⟩ | ⟨back, gap, rfl, -, -, moved⟩
    · exact .inr ⟨slot, still, within, past, none⟩
    · exact .inr ⟨back, moved, within_of_succ within, passed_of_succ past, none⟩

theorem copies_sender (event : BroadcastEvent) (none : copies pack pack.fromUid conn s = 0) :
    copies pack pack.fromUid conn (s.step cli pack event) = 0 := by
  -- The sender's own UID is skipped.
  cases event with
  | advance locals =>
    cases place : s.pc with
    | push i len key toCli =>
      simp only [step, advance, place]
      split
      · rw [copies] at none ⊢
        rw [List.count_append, none, Nat.zero_add, List.count_eq_zero]
        intro member
        rw [show broadcastTo locals s.server cli pack key toCli = _ from broadcastTo_eq (key, toCli)] at member
        split at member
        · next reaches =>
          simp only [broadcastPair, List.mem_cons, reduceCtorEq, Effect.push.injEq, List.not_mem_nil, or_false,
            false_or] at member
          exact reaches.1 (congrArg Packet.toUid member.2).symm
        · cases member
      · exact none
    | _ =>
      simp only [step, advance, place]
      exact none
  | _ => exact none

end Steps

/-- Where a user keeps its connection during the whole loop, the loop ends with
exactly one copy pushed for it, unless it is the sender, an erase moves it out of
the way of the loop, or the loop follows a pointer into what was given back. -/
theorem copied_once_iff (cli : Conn) (pack : Packet) (uid : UInt64) (conn : Conn) (server : Server) (arrays : Arrays)
    (events : List BroadcastEvent)
    (stays : Runs.Throughout (step cli pack) (Stays cli uid conn) ⟨server, arrays, .snapshot, []⟩ events)
    (ends : (Runs.run (step cli pack) ⟨server, arrays, .snapshot, []⟩ events).pc = .done ∨
      (Runs.run (step cli pack) ⟨server, arrays, .snapshot, []⟩ events).pc = .lost) :
    ((Runs.run (step cli pack) ⟨server, arrays, .snapshot, []⟩ events).pc = .done ∧
        copies pack uid conn (Runs.run (step cli pack) ⟨server, arrays, .snapshot, []⟩ events) = 1) ↔
      uid ≠ pack.fromUid ∧ Runs.Along (step cli pack) (Undisturbed uid) ⟨server, arrays, .snapshot, []⟩ events := by
  by_cases sender : uid = pack.fromUid
  · subst sender
    have kept : ∀ s event, copies pack pack.fromUid conn s = 0 →
        copies pack pack.fromUid conn (step cli pack s event) = 0 := fun _ event none => copies_sender event none
    have start : copies pack pack.fromUid conn ⟨server, arrays, .snapshot, []⟩ = 0 := rfl
    rw [(Runs.throughout_of_preserved_all kept start events).last]
    simp
  · have along := Runs.along_of_throughout stays
    have known : (⟨server, arrays, .snapshot, []⟩ : Broadcasting).Stays cli uid conn :=
      Runs.throughout_iff_initial.mp stays [] List.nil_prefix
    obtain ⟨slot, here⟩ := Map.mapKeyAt_of_mapAt known.1
    have pointing : (⟨server, arrays, .snapshot, []⟩ : Broadcasting).Pointing := fun e has => by cases has
    have start : (⟨server, arrays, .snapshot, []⟩ : Broadcasting).Reached pack uid conn :=
      ⟨BroadcastPc.noConfusion, slot, here, trivial, rfl⟩
    let followed (s : Broadcasting) : Prop := s.Pointing ∧ (Reached pack uid conn s ∨ Missed pack uid conn s)
    have preserved : ∀ s event, followed s → (Stays cli uid conn s ∧ Stays cli uid conn (s.step cli pack event)) →
        followed (s.step cli pack event) := by
      rintro s event ⟨pointing, reached | missed⟩ ⟨before, after⟩
      · by_cases undisturbed : Undisturbed uid s event
        · exact ⟨pointing_step event pointing,
            .inl ((reached_step_iff before after sender pointing reached).mpr undisturbed)⟩
        · exact ⟨pointing_step event pointing, .inr (missed_of_disturbed before after pointing reached undisturbed)⟩
      · exact ⟨pointing_step event pointing, .inr (missed_step before after sender pointing missed)⟩
    have lost : ∀ s event, followed s → (Stays cli uid conn s ∧ Stays cli uid conn (s.step cli pack event)) →
        ¬ Reached pack uid conn s → ¬ Reached pack uid conn (s.step cli pack event) := by
      rintro s event ⟨pointing, follows⟩ ⟨before, after⟩ not
      exact (missed_step before after sender pointing (follows.resolve_left not)).not_reached
    have throughout := Runs.throughout_iff_along preserved
      (fun s event follows reached stays => reached_step_iff stays.1 stays.2 sender follows.1 reached)
      ⟨pointing, .inl start⟩ start along
    have atEnd : ((Runs.run (step cli pack) ⟨server, arrays, .snapshot, []⟩ events).pc = .done ∧
        copies pack uid conn (Runs.run (step cli pack) ⟨server, arrays, .snapshot, []⟩ events) = 1) ↔
        Reached pack uid conn (Runs.run (step cli pack) ⟨server, arrays, .snapshot, []⟩ events) := by
      have final := stays.last
      obtain ⟨slot, here⟩ := Map.mapKeyAt_of_mapAt final.1
      rcases ends with done | gone
      · simp only [Reached, owed, done]
        exact ⟨fun once => ⟨BroadcastPc.noConfusion, slot, here, trivial, by rw [once.2]; rfl⟩,
          fun ⟨_, _, _, _, due⟩ => ⟨trivial, due⟩⟩
      · simp [Reached, gone]
    rw [atEnd, ← throughout]
    exact ⟨fun reached => ⟨sender, Runs.throughout_of_last preserved lost ⟨pointing, .inl start⟩ along reached⟩,
      fun reached => reached.2.last⟩

def threeUsers : Server where
  clients conn := some (acceptClient (conn + 4) "" 0)
  dcnClients := mapSet (mapSet (mapSet (mapInit UInt64 Conn) 1 0) 2 1) 3 2
  dcnSessions := mapInit UInt64 UInt64

def toAll : Packet := { packetInit [7] 1 0 0 with packtype := .broadcast }

theorem threeUsers_stays {s : Broadcasting} (clients : s.server.clients = threeUsers.clients)
    (known : mapAt s.server.dcnClients 3 = some 2) : s.Stays 0 3 2 :=
  ⟨known, acceptClient 6 "" 0, acceptClient 4 "" 0, by rw [clients]; rfl, by rw [clients]; rfl, by decide, by decide⟩

instance (s : Broadcasting) : (pc : BroadcastPc) → Decidable (s.LiveAt pc)
  | .target _ _ _ toCliPtr => inferInstanceAs (Decidable (toCliPtr.array = s.arrays.values))
  | .print _ _ key toCliPtr _ => inferInstanceAs (Decidable (toCliPtr.array = s.arrays.values ∧
      ∀ toCli ∈ mapAt s.server.dcnClients key, (s.server.clients toCli).isSome))
  | .push _ _ _ toCli => inferInstanceAs (Decidable ((s.server.clients toCli).isSome = true))
  | .snapshot | .keyAt _ _ | .lookup _ _ _ | .done | .lost => .isTrue trivial

instance (s : Broadcasting) : Decidable s.Live := inferInstanceAs (Decidable (s.LiveAt s.pc))

theorem copied_once_alone :
    (Runs.run (step 0 toAll) ⟨threeUsers, .init, .snapshot, []⟩ (List.replicate 13 (.advance .blank))).pc = .done ∧
      copies toAll 3 2
        (Runs.run (step 0 toAll) ⟨threeUsers, .init, .snapshot, []⟩ (List.replicate 13 (.advance .blank))) = 1 := by
  apply (copied_once_iff 0 toAll 3 2 threeUsers .init (List.replicate 13 (.advance .blank)) ?_ (.inl (by decide))).mpr
  · refine ⟨by decide, ?_⟩
    simp only [List.replicate, Runs.along_cons, Runs.along_nil, Undisturbed, and_true]
    refine ⟨?_, ?_, ?_, ?_, ?_, ?_, ?_, ?_, ?_, ?_, ?_, ?_, ?_⟩ <;> decide
  · simp only [List.replicate, Runs.throughout_cons, Runs.throughout_nil]
    refine ⟨?_, ?_, ?_, ?_, ?_, ?_, ?_, ?_, ?_, ?_, ?_, ?_, ?_, ?_⟩ <;> exact threeUsers_stays rfl (by decide)

/-- User 2 is erased when the loop is about to read slot 2. -/
def lateErase : List BroadcastEvent :=
  List.replicate 8 (.advance .blank) ++ [.erase 2, .advance .blank]

/-- User 2 is erased when the loop has looked up user 3. -/
def freedArray : List BroadcastEvent :=
  List.replicate 10 (.advance .blank) ++ [.erase 2, .advance .blank]

/-- User 3 is registered throughout, and gets no copy: its slot is passed, or the
array with its slot is given back before it is read. -/
theorem erase_skips_user :
    (Runs.Throughout (step 0 toAll) (Stays 0 3 2) ⟨threeUsers, .init, .snapshot, []⟩ lateErase ∧
      (Runs.run (step 0 toAll) ⟨threeUsers, .init, .snapshot, []⟩ lateErase).pc = .done ∧
        copies toAll 3 2 (Runs.run (step 0 toAll) ⟨threeUsers, .init, .snapshot, []⟩ lateErase) ≠ 1) ∧
    Runs.Throughout (step 0 toAll) (Stays 0 3 2) ⟨threeUsers, .init, .snapshot, []⟩ freedArray ∧
      (Runs.run (step 0 toAll) ⟨threeUsers, .init, .snapshot, []⟩ freedArray).pc = .lost ∧
        copies toAll 3 2 (Runs.run (step 0 toAll) ⟨threeUsers, .init, .snapshot, []⟩ freedArray) ≠ 1 := by
  refine ⟨⟨?_, by decide, by decide⟩, ?_, by decide, by decide⟩
  · simp only [lateErase, List.replicate, List.cons_append, List.nil_append, Runs.throughout_cons, Runs.throughout_nil]
    refine ⟨?_, ?_, ?_, ?_, ?_, ?_, ?_, ?_, ?_, ?_, ?_⟩ <;> exact threeUsers_stays rfl (by decide)
  · simp only [freedArray, List.replicate, List.cons_append, List.nil_append, Runs.throughout_cons, Runs.throughout_nil]
    refine ⟨?_, ?_, ?_, ?_, ?_, ?_, ?_, ?_, ?_, ?_, ?_, ?_, ?_⟩ <;> exact threeUsers_stays rfl (by decide)

end Broadcasting

end Dcn
