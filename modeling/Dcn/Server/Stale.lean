import Dcn.Foundation.Lifetime
import Dcn.Server.Lookups

/-! Pointers into dcn_clients whose arrays are given back (server.c).

A worker has a pointer into the array of values from map_at to the last use of
what it points to, and the event loop has one into the array of keys from
map_key_by_val to map_erase. None is used after its array was given back exactly
if arrays are given back when nobody has a pointer into them.
-/

set_option autoImplicit false

namespace Dcn

namespace Lookups

variable {ω : Type} [DecidableEq ω]

def pointer (s : Lookups ω) (t : ω) : Option SlotPtr := (s.worker t).bind fun h => h.pc.pointer

def keyPointer (s : Lookups ω) : Option SlotPtr := s.disconnecting.bind Prod.snd

def Safe (s : Lookups ω) : LookupsEvent ω → Prop
  | .work t _ _ _ => ∀ h ptr, s.worker t = some h → h.pc.follows = true → h.pc.pointer = some ptr →
      ptr.array = s.arrays.values
  | .erase _ => ∀ ptr, s.keyPointer = some ptr → ptr.array = s.arrays.keys
  | _ => True

instance decidableSafe (s : Lookups ω) : (event : LookupsEvent ω) → Decidable (s.Safe event)
  | .work t _ _ _ => decidable_of_iff (∀ h ∈ s.worker t, h.pc.follows = true → ∀ ptr ∈ h.pc.pointer,
      ptr.array = s.arrays.values)
      ⟨fun all h ptr here follows points => all h here follows ptr points,
        fun safe h here follows ptr points => safe h ptr here follows points⟩
  | .erase _ => inferInstanceAs (Decidable (∀ ptr ∈ s.keyPointer, ptr.array = s.arrays.keys))
  | .loop _ | .find _ | .pop .. => .isTrue trivial

/-- A new UID is stored in arrays that are moved, or a UID erased, when nobody
has a pointer into what is given back. -/
def Still (s : Lookups ω) : LookupsEvent ω → Prop
  | .work t _ _ moved => ∀ h, s.worker t = some h → h.pc = .store → mapIn s.server.dcnClients h.pack.fromUid = false →
      (moved.values = true → ∀ u, s.pointer u = none) ∧ (moved.keys = true → s.keyPointer = none)
  | .erase _ => ∀ ptr, s.keyPointer = some ptr → ptr.array = s.arrays.keys →
      ∀ key, mapKeyAt s.server.dcnClients ptr.slot = some key → ∀ u, s.pointer u = none
  | _ => True

section Steps

variable {s : Lookups ω} {t u : ω} {h : LookupRun} {locals : Locals} {ok : Conn → Bool} {moved : Moved} {ptr : SlotPtr}

/-- What a step of a worker leaves as it is, what it stores, and where a pointer
that its worker then has is from. -/
structure Worked (s next : Lookups ω) (t : ω) (h : LookupRun) (moved : Moved) : Prop where
  disconnecting : next.disconnecting = s.disconnecting
  others : ∀ u, u ≠ t → next.worker u = s.worker u
  registry : h.pc ≠ .store ∧ next.arrays = s.arrays ∧ next.server.dcnClients = s.server.dcnClients ∨
    h.pc = .store ∧ next.arrays = s.arrays.set (mapIn s.server.dcnClients h.pack.fromUid) moved ∧
      next.server.dcnClients = mapSet s.server.dcnClients h.pack.fromUid h.cli ∧ next.pointer t = none
  pointer : ∀ h' ptr, next.worker t = some h' → h'.pc.pointer = some ptr →
    h.pc.pointer = some ptr ∧ h'.pc.uid h'.pack = h.pc.uid h.pack ∨
      h.pc.pointer = none ∧ s.arrays.find s.server.dcnClients (h'.pc.uid h'.pack) = some ptr

theorem worked_goto {between : Lookups ω} {pc : LookupPc} (disconnecting : between.disconnecting = s.disconnecting)
    (workers : between.worker = s.worker) (place : h.pc ≠ .store) (arrays : between.arrays = s.arrays)
    (registry : between.server.dcnClients = s.server.dcnClients)
    (pointer : ∀ ptr, pc.pointer = some ptr → h.pc.pointer = some ptr ∧ pc.uid h.pack = h.pc.uid h.pack ∨
      h.pc.pointer = none ∧ s.arrays.find s.server.dcnClients (pc.uid h.pack) = some ptr) :
    Worked s (between.goto t h pc) t h moved where
  disconnecting := disconnecting
  others u other := by rw [worker_goto, Function.update_of_ne other, workers]
  registry := .inl ⟨place, arrays, registry⟩
  pointer h' ptr here has := by
    rw [worker_goto, Function.update_self, Option.some.injEq] at here
    subst here
    exact pointer ptr has

theorem worked_plain {between : Lookups ω} {pc : LookupPc} (disconnecting : between.disconnecting = s.disconnecting)
    (workers : between.worker = s.worker) (place : h.pc ≠ .store) (arrays : between.arrays = s.arrays)
    (registry : between.server.dcnClients = s.server.dcnClients) (free : pc.pointer = none) :
    Worked s (between.goto t h pc) t h moved :=
  worked_goto disconnecting workers place arrays registry fun ptr has => by
    rw [free] at has
    cases has

theorem worked_leave {between : Lookups ω} (disconnecting : between.disconnecting = s.disconnecting)
    (workers : between.worker = s.worker) (place : h.pc ≠ .store) (arrays : between.arrays = s.arrays)
    (registry : between.server.dcnClients = s.server.dcnClients) : Worked s (between.leave t) t h moved where
  disconnecting := disconnecting
  others u other := by rw [worker_leave, Function.update_of_ne other, workers]
  registry := .inl ⟨place, arrays, registry⟩
  pointer h' ptr here := by
    rw [worker_leave, Function.update_self] at here
    cases here

theorem worked_through (here : s.worker t = some h) (place : h.pc ≠ .store) {next : Conn → LookupPc}
    (keeps : ∀ cli ptr, (next cli).pointer = some ptr →
      h.pc.pointer = some ptr ∧ (next cli).uid h.pack = h.pc.uid h.pack) :
    Worked s (s.through t h ptr next) t h moved := by
  unfold through
  cases s.arrays.value s.server.dcnClients ptr with
  | none =>
    refine ⟨rfl, fun _ _ => rfl, .inl ⟨place, rfl, rfl⟩, fun h' ptr there has => .inl ?_⟩
    cases here.symm.trans there
    exact ⟨has, rfl⟩
  | some cli => exact worked_goto rfl rfl place rfl rfl fun ptr has => .inl (keeps cli ptr has)

theorem find_of_lookupExit {arrays : Arrays} {dcnClients : Map UInt64 Conn} {pack : Packet}
    (unicast : lookupExit arrays dcnClients pack = .unicast ptr) : arrays.find dcnClients pack.toUid = some ptr := by
  unfold lookupExit at unicast
  repeat' split at unicast
  all_goals cases unicast
  assumption

theorem work_spec (here : s.worker t = some h) : Worked s (s.work t locals ok moved) t h moved := by
  have place : ∀ {pc : LookupPc}, h.pc = pc → pc ≠ .store → h.pc ≠ .store := fun at_ differ => at_ ▸ differ
  cases at_ : h.pc with
  | session =>
    simp only [work, here, at_]
    exact worked_plain rfl rfl (place at_ (by simp)) rfl rfl rfl
  | shadow =>
    simp only [work, here, at_]
    cases found : s.arrays.find s.server.dcnClients h.pack.fromUid with
    | none => exact worked_plain rfl rfl (place at_ (by simp)) rfl rfl rfl
    | some shadow =>
      refine worked_goto rfl rfl (place at_ (by simp)) rfl rfl fun ptr has => .inr ⟨by rw [at_]; rfl, ?_⟩
      cases has
      exact found
  | shadowTest shadow =>
    simp only [work, here, at_]
    exact worked_through here (place at_ (by simp)) fun cli ptr has => by rw [at_]; exact ⟨has, rfl⟩
  | shadowIp shadow =>
    simp only [work, here, at_]
    refine worked_through here (place at_ (by simp)) fun cli ptr has => ?_
    split at has
    · cases has
    · next same => rw [at_, if_neg same]; exact ⟨has, rfl⟩
  | shadowPort shadow =>
    simp only [work, here, at_]
    refine worked_through here (place at_ (by simp)) fun cli ptr has => ?_
    split at has <;> cases has
  | store =>
    simp only [work, here, at_]
    refine ⟨rfl, fun u other => Function.update_of_ne other .., .inr ⟨at_, rfl, rfl, ?_⟩, fun h' ptr there has => ?_⟩
    · simp [pointer, goto, LookupPc.pointer]
    · rw [worker_goto, Function.update_self, Option.some.injEq] at there
      subst there
      cases has
  | route =>
    simp only [work, here, at_]
    refine worked_goto rfl rfl (place at_ (by simp)) rfl rfl fun ptr has => .inr ⟨by rw [at_]; rfl, ?_⟩
    cases exit : lookupExit s.arrays s.server.dcnClients h.pack with
    | unicast toCliPtr =>
      rw [exit] at has
      cases has
      exact find_of_lookupExit exit
    | _ =>
      rw [exit] at has
      cases has
  | answer exit =>
    -- The pointer of a unicast is kept over the push of the answer.
    simp only [work, here, at_]
    have differ : h.pc ≠ .store := place at_ (by simp)
    have registry : (s.server.perform ok (.push h.cli (exit.pack locals h.pack))).dcnClients = s.server.dcnClients :=
      Server.dcnClients_perform ..
    cases exit with
    | declined => exact worked_leave rfl rfl differ rfl registry
    | unicast toCliPtr =>
      refine worked_goto rfl rfl differ rfl registry fun ptr has => .inl ⟨?_, by rw [at_]; rfl⟩
      rw [at_]
      exact has
    | _ => exact worked_plain rfl rfl differ rfl registry rfl
  | target toCliPtr =>
    simp only [work, here, at_]
    exact worked_through here (place at_ (by simp)) fun cli ptr has => by rw [at_]; exact ⟨has, rfl⟩
  | print toCliPtr toCli =>
    simp only [work, here, at_]
    exact worked_through here (place at_ (by simp)) fun cli ptr has => by cases has
  | forward toCli =>
    simp only [work, here, at_]
    split
    · exact worked_plain rfl rfl (place at_ (by simp)) rfl (Server.dcnClients_perform ..) rfl
    · exact worked_plain rfl rfl (place at_ (by simp)) rfl rfl rfl
  | measure =>
    simp only [work, here, at_]
    exact worked_plain rfl rfl (place at_ (by simp)) rfl rfl rfl
  | keyAt i len =>
    simp only [work, here, at_]
    repeat' split
    all_goals exact worked_plain rfl rfl (place at_ (by simp)) rfl rfl rfl
  | lookup i len key =>
    simp only [work, here, at_]
    cases found : s.arrays.find s.server.dcnClients key with
    | none => exact worked_plain rfl rfl (place at_ (by simp)) rfl rfl rfl
    | some toCliPtr =>
      dsimp only
      split
      · exact worked_plain rfl rfl (place at_ (by simp)) rfl rfl rfl
      · refine worked_goto rfl rfl (place at_ (by simp)) rfl rfl fun ptr has => .inr ⟨by rw [at_]; rfl, ?_⟩
        cases has
        exact found
  | copyTarget i len key toCliPtr =>
    simp only [work, here, at_]
    exact worked_through here (place at_ (by simp)) fun cli ptr has => by rw [at_]; exact ⟨has, rfl⟩
  | copyPrint i len key toCliPtr toCli =>
    simp only [work, here, at_]
    exact worked_through here (place at_ (by simp)) fun cli ptr has => by cases has
  | copy i len effects =>
    cases effects with
    | nil =>
      simp only [work, here, at_]
      exact worked_plain rfl rfl (place at_ (by simp)) rfl rfl rfl
    | cons effect rest =>
      simp only [work, here, at_]
      exact worked_plain rfl rfl (place at_ (by simp)) rfl (Server.dcnClients_perform ..) rfl
  | notify =>
    simp only [work, here, at_]
    exact worked_leave rfl rfl (place at_ (by simp)) rfl (Server.dcnClients_perform ..)

def Pointing (s : Lookups ω) : Prop :=
  ∀ t h ptr, s.worker t = some h → h.pc.pointer = some ptr →
    s.arrays.PointsTo s.server.dcnClients (h.pc.uid h.pack) ptr

omit [DecidableEq ω] in
theorem dcnClients_loop (s : Lookups ω) (event : ServerEvent) :
    (s.loop event).server.dcnClients = s.server.dcnClients := by
  cases event with
  | work cli locals ok | disconnect cli delOk => rfl
  | accept cli fd ip port =>
    simp only [loop, serverStep]
    repeat' split
    all_goals rfl
  | frame cli block | epollout cli aw modOk =>
    simp only [loop, serverStep]
    split <;> rfl

omit [DecidableEq ω] in
theorem loop_spec (s : Lookups ω) (event : ServerEvent) : (s.loop event).arrays = s.arrays ∧
    (s.loop event).worker = s.worker ∧ (s.loop event).disconnecting = s.disconnecting := by
  cases event with
  | work cli locals ok | disconnect cli delOk => exact ⟨rfl, rfl, rfl⟩
  | _ =>
    simp only [loop]
    split <;> exact ⟨rfl, rfl, rfl⟩

omit [DecidableEq ω] in
theorem find_spec (s : Lookups ω) (cli : Conn) : (s.find cli).arrays = s.arrays ∧ (s.find cli).worker = s.worker ∧
    (s.find cli).server = s.server ∧ ((s.find cli).disconnecting = s.disconnecting ∨ s.disconnecting = none ∧
      (s.find cli).disconnecting = some (cli, s.arrays.findByVal s.server.dcnClients cli)) := by
  unfold find
  split
  · next free => exact ⟨rfl, rfl, rfl, .inr ⟨free.1, rfl⟩⟩
  · exact ⟨rfl, rfl, rfl, .inl rfl⟩

omit [DecidableEq ω] in
theorem erase_spec (s : Lookups ω) (delOk : Bool) : (s.erase delOk).worker = s.worker ∧
    ((s.erase delOk).arrays = s.arrays ∧ (s.erase delOk).server.dcnClients = s.server.dcnClients ∧
        ((s.erase delOk).disconnecting = s.disconnecting ∨ (s.erase delOk).disconnecting = none) ∨
      ∃ ptr key, s.keyPointer = some ptr ∧ ptr.array = s.arrays.keys ∧
        mapKeyAt s.server.dcnClients ptr.slot = some key ∧
        (s.erase delOk).arrays = s.arrays.erase (mapIn s.server.dcnClients key) ∧
        (s.erase delOk).server.dcnClients = mapErase s.server.dcnClients key ∧
        (s.erase delOk).disconnecting = none) := by
  have closed : ∀ (server : Server) (cli : Conn), (closeClient server cli delOk).dcnClients = server.dcnClients := by
    intro server cli
    unfold closeClient
    split <;> rfl
  cases busy : s.disconnecting with
  | none =>
    simp only [erase, busy]
    exact ⟨trivial, .inl ⟨trivial, trivial, .inl trivial⟩⟩
  | some disconnect =>
    obtain ⟨cli, key⟩ := disconnect
    cases key with
    | none =>
      simp only [erase, busy]
      exact ⟨trivial, .inl ⟨trivial, closed .., .inr trivial⟩⟩
    | some ptr =>
      cases followed : s.arrays.key s.server.dcnClients ptr with
      | none =>
        simp only [erase, busy, followed]
        exact ⟨trivial, .inl ⟨trivial, trivial, .inl trivial⟩⟩
      | some key =>
        simp only [erase, busy, followed]
        rw [Arrays.key] at followed
        split at followed
        · next there =>
          have holder : s.keyPointer = some ptr := by rw [keyPointer, busy, Option.bind_some]
          exact ⟨trivial, .inr ⟨ptr, key, holder, there, followed, rfl, closed .., trivial⟩⟩
        · cases followed

theorem pop_spec (s : Lookups ω) (t : ω) (cli : Conn) (locals : Locals) : (s.pop t cli locals).arrays = s.arrays ∧
    (s.pop t cli locals).disconnecting = s.disconnecting ∧
    (s.pop t cli locals).server.dcnClients = s.server.dcnClients ∧
    ((s.pop t cli locals).worker = s.worker ∨ s.worker t = none ∧ ∃ pack,
      (s.pop t cli locals).worker = Function.update s.worker t (some ⟨cli, pack, .session⟩)) := by
  cases here : s.worker t with
  | some h =>
    simp only [pop, here]
    exact ⟨trivial, trivial, trivial, .inl trivial⟩
  | none =>
    cases next : s.server.nextPacket locals cli with
    | none =>
      simp only [pop, here, next]
      exact ⟨trivial, trivial, trivial, .inl trivial⟩
    | some pack =>
      simp only [pop, here, next]
      exact ⟨trivial, trivial, rfl, .inr ⟨trivial, pack, rfl⟩⟩

theorem work_idle (idle : s.worker t = none) : s.work t locals ok moved = s := by
  simp only [work, idle]

omit [DecidableEq ω] in
theorem Worked.pointsTo {next : Lookups ω} (worked : Worked s next t h moved) {uid : UInt64}
    (points : s.arrays.PointsTo s.server.dcnClients uid ptr) : next.arrays.PointsTo next.server.dcnClients uid ptr := by
  rcases worked.registry with ⟨-, arrays, registry⟩ | ⟨-, arrays, registry, -⟩
  · rw [arrays, registry]
    exact points
  · rw [arrays, registry]
    exact points.set h.pack.fromUid h.cli moved

omit [DecidableEq ω] in
theorem Pointing.same {next : Lookups ω} (pointing : s.Pointing) (workers : next.worker = s.worker)
    (arrays : next.arrays = s.arrays) (registry : next.server.dcnClients = s.server.dcnClients) : next.Pointing := by
  intro u h ptr there has
  rw [workers] at there
  rw [arrays, registry]
  exact pointing u h ptr there has

theorem pointing_step (s : Lookups ω) (e : LookupsEvent ω) (pointing : s.Pointing) : (s.step e).Pointing := by
  cases e with
  | loop event =>
    obtain ⟨arrays, workers, -⟩ := loop_spec s event
    exact pointing.same workers arrays (dcnClients_loop s event)
  | find cli =>
    obtain ⟨arrays, workers, server, -⟩ := find_spec s cli
    exact pointing.same workers arrays (congrArg Server.dcnClients server)
  | erase delOk =>
    obtain ⟨workers, ⟨arrays, registry, -⟩ | ⟨_, key, -, -, -, arrays, registry, -⟩⟩ := erase_spec s delOk
    · exact pointing.same workers arrays registry
    · intro u h ptr there has
      rw [step, workers] at there
      rw [step, arrays, registry]
      exact (pointing u h ptr there has).erase key
  | pop t cli locals =>
    obtain ⟨arrays, -, registry, same | ⟨-, pack, entered⟩⟩ := pop_spec s t cli locals
    · exact pointing.same same arrays registry
    · intro u h ptr there has
      rw [step, entered] at there
      rw [step, arrays, registry]
      by_cases here : u = t
      · subst here
        rw [Function.update_self, Option.some.injEq] at there
        subst there
        cases has
      · rw [Function.update_of_ne here] at there
        exact pointing u h ptr there has
  | work t locals ok moved =>
    cases here : s.worker t with
    | none =>
      rw [step, work_idle here]
      exact pointing
    | some h =>
      have worked := @work_spec ω _ s t h locals ok moved here
      intro u h' ptr there has
      rw [step] at there ⊢
      by_cases same : u = t
      · subst same
        -- A pointer that was there before, or one that this step has looked up.
        rcases worked.pointer h' ptr there has with ⟨kept, sameUid⟩ | ⟨-, found⟩
        · rw [sameUid]
          exact worked.pointsTo (pointing u h ptr here kept)
        · exact worked.pointsTo (Arrays.pointsTo_find found)
      · rw [worked.others u same] at there
        exact worked.pointsTo (pointing u h' ptr there has)

end Steps

/-- The pointers, with what tells the arrays that they are into: those of the
workers, and that of the event loop. -/
def version (s : Lookups ω) : Option ω → Nat
  | none => s.arrays.keys
  | some _ => s.arrays.values

def array (s : Lookups ω) : Option ω → Option Nat
  | none => s.keyPointer.map SlotPtr.array
  | some t => (s.pointer t).map SlotPtr.array

def Uses (s : Lookups ω) : LookupsEvent ω → Option ω → Prop
  | .erase _, none => True
  | .work t _ _ _, some u => t = u ∧ ∃ h, s.worker t = some h ∧ h.pc.follows = true
  | _, _ => False

def left (s : Lookups ω) : Option ω → Nat
  | none => 0
  | some t => (s.worker t).elim 0 fun h => if h.pc.follows then 0 else 1

section Handles

variable {s : Lookups ω} {e : LookupsEvent ω} {i : Option ω} {v : Nat} {t : ω} {ptr : SlotPtr}

omit [DecidableEq ω] in
theorem pointer_eq_some : s.pointer t = some ptr ↔ ∃ h, s.worker t = some h ∧ h.pc.pointer = some ptr :=
  Option.bind_eq_some_iff

theorem keyPointer_step (has : (s.step e).keyPointer = some ptr) :
    s.keyPointer = some ptr ∨ s.keyPointer = none ∧ ptr.array = (s.step e).arrays.keys := by
  have same : (s.step e).disconnecting = s.disconnecting → s.keyPointer = some ptr := fun unchanged => by
    rwa [keyPointer, unchanged] at has
  cases e with
  | loop event => exact .inl (same (loop_spec s event).2.2)
  | pop t cli locals => exact .inl (same (pop_spec s t cli locals).2.1)
  | find cli =>
    obtain ⟨arrays, -, -, unchanged | ⟨free, found⟩⟩ := find_spec s cli
    · exact .inl (same unchanged)
    · rw [keyPointer, step, found, Option.bind_some] at has
      obtain ⟨slot, -, rfl⟩ := Option.map_eq_some_iff.mp has
      exact .inr ⟨by rw [keyPointer, free, Option.bind_none], by rw [step, arrays]⟩
  | erase delOk =>
    have kept : (s.erase delOk).disconnecting = s.disconnecting ∨ (s.erase delOk).disconnecting = none := by
      rcases (erase_spec s delOk).2 with ⟨-, -, kept⟩ | ⟨-, -, -, -, -, -, -, dropped⟩
      · exact kept
      · exact .inr dropped
    rcases kept with unchanged | dropped
    · exact .inl (same unchanged)
    · rw [keyPointer, step, dropped] at has
      cases has
  | work t locals ok moved =>
    cases here : s.worker t with
    | none =>
      rw [step, work_idle here] at has
      exact .inl has
    | some h => exact .inl (same (work_spec here).disconnecting)

theorem pointer_step (has : (s.step e).pointer t = some ptr) :
    s.pointer t = some ptr ∨ s.pointer t = none ∧ ptr.array = (s.step e).arrays.values := by
  have same : (s.step e).worker t = s.worker t → s.pointer t = some ptr := fun unchanged => by
    rwa [pointer, unchanged] at has
  cases e with
  | loop event => exact .inl (same (congrFun (loop_spec s event).2.1 t))
  | find cli => exact .inl (same (congrFun (find_spec s cli).2.1 t))
  | erase delOk => exact .inl (same (congrFun (erase_spec s delOk).1 t))
  | pop u cli locals =>
    obtain ⟨-, -, -, workers | ⟨-, pack, entered⟩⟩ := pop_spec s u cli locals
    · exact .inl (same (congrFun workers t))
    · by_cases isT : t = u
      · subst isT
        rw [pointer, step, entered, Function.update_self] at has
        cases has
      · exact .inl (same (by rw [step, entered, Function.update_of_ne isT]))
  | work u locals ok moved =>
    cases here : s.worker u with
    | none =>
      rw [step, work_idle here] at has
      exact .inl has
    | some h =>
      have worked := @work_spec ω _ s u h locals ok moved here
      by_cases isT : t = u
      · subst isT
        obtain ⟨h', there, holds⟩ := pointer_eq_some.mp has
        rcases worked.pointer h' ptr there holds with ⟨kept, -⟩ | ⟨free, found⟩
        · exact .inl (pointer_eq_some.mpr ⟨h, here, kept⟩)
        · refine .inr ⟨by rw [pointer, here, Option.bind_some, free], ?_⟩
          -- The step that stores leaves its worker without a pointer.
          rcases worked.registry with ⟨-, arrays, -⟩ | ⟨-, -, -, none⟩
          · rw [Arrays.array_find found, step, arrays]
          · rw [step, none] at has
            cases has
      · exact .inl (same (worked.others t isT))

theorem taken (has : (s.step e).array i = some v) :
    s.array i = some v ∨ s.array i = none ∧ v = (s.step e).version i := by
  cases i with
  | none =>
    obtain ⟨ptr, holder, rfl⟩ := Option.map_eq_some_iff.mp has
    rcases keyPointer_step holder with kept | ⟨free, fresh⟩
    · exact .inl (congrArg (Option.map SlotPtr.array) kept)
    · exact .inr ⟨congrArg (Option.map SlotPtr.array) free, fresh⟩
  | some t =>
    obtain ⟨ptr, holder, rfl⟩ := Option.map_eq_some_iff.mp has
    rcases pointer_step holder with kept | ⟨free, fresh⟩
    · exact .inl (congrArg (Option.map SlotPtr.array) kept)
    · exact .inr ⟨congrArg (Option.map SlotPtr.array) free, fresh⟩

/-- A worker with a pointer follows it with its next step or the one after its answer. -/
theorem used (has : s.array i = some v) (stale : v ≠ s.version i) :
    ∃ e, (∀ j, (s.step e).version j = s.version j) ∧
      (s.Uses e i ∨ (s.step e).array i = some v ∧ (s.step e).left i < s.left i) := by
  obtain ⟨ptr, holder, rfl⟩ : ∃ ptr, (i.elim s.keyPointer s.pointer) = some ptr ∧ ptr.array = v := by
    cases i <;> exact Option.map_eq_some_iff.mp has
  cases i with
  | none =>
    refine ⟨.erase true, fun j => ?_, .inl trivial⟩
    obtain ⟨-, ⟨arrays, -⟩ | ⟨other, key, found, there, -⟩⟩ := erase_spec s true
    · cases j <;> rw [version, version, step, arrays]
    · cases holder.symm.trans found
      exact absurd there stale
  | some t =>
    obtain ⟨h, here, holds⟩ := pointer_eq_some.mp holder
    have worked := @work_spec ω _ s t h .blank (fun _ => true) ⟨false, false⟩ here
    refine ⟨.work t .blank (fun _ => true) ⟨false, false⟩, fun j => ?_, ?_⟩
    · rcases worked.registry with ⟨-, arrays, -⟩ | ⟨-, arrays, -⟩
      · cases j <;> rw [version, version, step, arrays]
      · cases j <;> rw [version, version, step, arrays, Arrays.set] <;> split <;> rfl
    · rcases LookupPc.follows_or_answer holds with follows | at_
      · exact .inl ⟨rfl, h, here, follows⟩
      · refine .inr ⟨?_, ?_⟩
        · simp [array, pointer, step, work, here, at_, answered, LookupPc.pointer]
        · simp [left, step, work, here, at_, answered, LookupPc.follows, LookupPc.pointer]

end Handles

def handles (ω : Type) [DecidableEq ω] : Handles (Lookups ω) (LookupsEvent ω) (Option ω) where
  step := step
  version := version
  pointer := array
  uses := Uses
  left := left
  taken := taken
  used := used

section Exact

variable {s : Lookups ω} {e : LookupsEvent ω} {t : ω}

theorem safe_iff : (handles ω).Safe s e ↔ s.Safe e := by
  cases e with
  | work t locals ok moved =>
    constructor
    · intro safe h ptr here follows has
      have holder : s.pointer t = some ptr := pointer_eq_some.mpr ⟨h, here, has⟩
      exact safe (some t) ptr.array ⟨rfl, h, here, follows⟩ (congrArg (Option.map SlotPtr.array) holder)
    · rintro safe (_ | u) v uses has
      · cases uses
      · obtain ⟨rfl, h, here, follows⟩ := uses
        obtain ⟨ptr, holder, rfl⟩ := Option.map_eq_some_iff.mp has
        obtain ⟨h', there, holds⟩ := pointer_eq_some.mp holder
        cases here.symm.trans there
        exact safe h ptr here follows holds
  | erase delOk =>
    constructor
    · intro safe ptr holder
      exact safe none ptr.array trivial (congrArg (Option.map SlotPtr.array) holder)
    · rintro safe (_ | u) v uses has
      · obtain ⟨ptr, holder, rfl⟩ := Option.map_eq_some_iff.mp has
        exact safe ptr holder
      · cases uses
  | _ => exact ⟨fun _ => trivial, fun _ i v uses => by cases i <;> cases uses⟩

omit [DecidableEq ω] in
theorem arrays_erase {delOk : Bool} {ptr : SlotPtr} {key : UInt64} (holder : s.keyPointer = some ptr)
    (there : ptr.array = s.arrays.keys) (slot : mapKeyAt s.server.dcnClients ptr.slot = some key) :
    (s.erase delOk).arrays = ⟨s.arrays.keys + 1, s.arrays.values + 1⟩ := by
  obtain ⟨⟨cli, found⟩, busy, rfl⟩ := Option.bind_eq_some_iff.mp holder
  obtain ⟨val, -, entry⟩ := Arrays.exists_mapValAt slot
  have followed : s.arrays.key s.server.dcnClients ptr = some key := by rw [Arrays.key, if_pos there, slot]
  have present : mapIn s.server.dcnClients key = true := by rw [mapIn, Map.mapAt_eq_some_iff.mpr entry]; rfl
  simp only [erase, busy, followed, Arrays.erase, present, ↓reduceIte]

theorem none_held (i : Option ω) (still : (handles ω).Still s e) (replaced : (s.step e).version i ≠ s.version i)
    (kept : (s.step e).array i = s.array i) : s.array i = none := by
  cases holds : s.array i with
  | none => rfl
  | some v =>
    have held : ((handles ω).pointer s i).isSome := Option.isSome_of_mem holds
    cases holds.symm.trans (kept.symm.trans (still i replaced held))

omit [DecidableEq ω] in
theorem version_of_arrays {next : Lookups ω} (same : next.arrays = s.arrays) (i : Option ω) :
    next.version i = s.version i := by
  cases i <;> rw [version, version, same]

theorem still_erase_iff {delOk : Bool} : (handles ω).Still s (.erase delOk) ↔ s.Still (.erase delOk) := by
  obtain ⟨workers, changes⟩ := erase_spec s delOk
  constructor
  · intro still ptr holder there key slot u
    refine Option.map_eq_none_iff.mp (none_held (some u) still ?_ ?_)
    · rw [version, version, step, arrays_erase holder there slot]
      exact Nat.succ_ne_self _
    · rw [array, array, pointer, pointer, step, workers]
  · intro still i replaced held
    rcases changes with ⟨same, -⟩ | ⟨ptr, key, holder, there, slot, -, -, free⟩
    · exact absurd (version_of_arrays same i) replaced
    · cases i with
      | none => simp [handles, array, keyPointer, step, free]
      | some u => simp [handles, array, still ptr holder there key slot u] at held

theorem still_work_iff {locals : Locals} {ok : Conn → Bool} {moved : Moved} :
    (handles ω).Still s (.work t locals ok moved) ↔ s.Still (.work t locals ok moved) := by
  cases here : s.worker t with
  | none =>
    have same : (s.step (.work t locals ok moved)).arrays = s.arrays := by rw [step, work_idle here]
    refine ⟨fun _ h there => ?_, fun _ i replaced _ => absurd (version_of_arrays same i) replaced⟩
    cases here.symm.trans there
  | some h =>
    have worked := @work_spec ω _ s t h locals ok moved here
    constructor
    · intro still h' there store new
      cases here.symm.trans there
      rcases worked.registry with ⟨other, -⟩ | ⟨-, arrays, -⟩
      · exact absurd store other
      rw [new, Arrays.set, if_neg Bool.false_ne_true] at arrays
      refine ⟨fun moves u => ?_, fun moves => ?_⟩
      · by_cases isT : u = t
        · subst isT
          simp [pointer, here, store, LookupPc.pointer]
        · refine Option.map_eq_none_iff.mp (none_held (some u) still ?_ ?_)
          · rw [version, version, step, arrays, moves]
            exact Nat.succ_ne_self _
          · rw [array, array, pointer, pointer, step, worked.others u isT]
      · refine Option.map_eq_none_iff.mp (none_held none still ?_ ?_)
        · rw [version, version, step, arrays, moves]
          exact Nat.succ_ne_self _
        · rw [array, array, keyPointer, keyPointer, step, worked.disconnecting]
    · intro still i replaced held
      rcases worked.registry with ⟨-, same, -⟩ | ⟨store, arrays, -⟩
      · exact absurd (version_of_arrays same i) replaced
      cases new : mapIn s.server.dcnClients h.pack.fromUid with
      | true =>
        have same : (s.work t locals ok moved).arrays = s.arrays := by rw [arrays, new, Arrays.set, if_pos rfl]
        exact absurd (version_of_arrays same i) replaced
      | false =>
        obtain ⟨values, keys⟩ := still h here store new
        rw [new, Arrays.set, if_neg Bool.false_ne_true] at arrays
        cases i with
        | none =>
          cases moves : moved.keys with
          | true => simp [handles, array, keys moves] at held
          | false => exact absurd (by simp [handles, version, step, arrays, moves]) replaced
        | some u =>
          cases moves : moved.values with
          | true => simp [handles, array, values moves u] at held
          | false => exact absurd (by simp [handles, version, step, arrays, moves]) replaced

theorem still_iff : (handles ω).Still s e ↔ s.Still e := by
  cases e with
  | loop event =>
    exact ⟨fun _ => trivial, fun _ i replaced _ => absurd (version_of_arrays (loop_spec s event).1 i) replaced⟩
  | find cli =>
    exact ⟨fun _ => trivial, fun _ i replaced _ => absurd (version_of_arrays (find_spec s cli).1 i) replaced⟩
  | pop t cli locals =>
    exact ⟨fun _ => trivial, fun _ i replaced _ => absurd (version_of_arrays (pop_spec s t cli locals).1 i) replaced⟩
  | erase delOk => exact still_erase_iff
  | work t locals ok moved => exact still_work_iff

/-- No step uses a pointer into an array that was given back, whatever follows
that gives arrays back when nobody has a pointer into them. -/
def Harmless (s : Lookups ω) : Prop := Runs.Forever step Still Safe s

theorem harmless_handles (s : Lookups ω) : (handles ω).Harmless s ↔ s.Harmless := by
  have still : (handles ω).Still = Still := funext fun _ => funext fun _ => propext still_iff
  have safe : (handles ω).Safe = Safe := funext fun _ => funext fun _ => propext safe_iff
  rw [Handles.Harmless, still, safe]
  rfl

theorem current_init : (handles ω).Current (init ω) := by
  rintro (_ | u) v has <;> cases has

theorem current_run {events : List (LookupsEvent ω)} (still : Runs.Along step Still (init ω) events) :
    (handles ω).Current (Runs.run step (init ω) events) :=
  (handles ω).current_run current_init (still.mono fun _ _ => still_iff.mpr)

/-- As long as arrays are given back when nobody has a pointer into them, every
pointer of a worker is to the connection that is registered at that time for the
UID that was looked up. -/
theorem target_registered {events : List (LookupsEvent ω)} (still : Runs.Along step Still (init ω) events)
    {h : LookupRun} {ptr : SlotPtr} (here : (Runs.run step (init ω) events).worker t = some h)
    (has : h.pc.pointer = some ptr) :
    ∃ cli, (Runs.run step (init ω) events).arrays.value (Runs.run step (init ω) events).server.dcnClients ptr =
        some cli ∧ mapAt (Runs.run step (init ω) events).server.dcnClients (h.pc.uid h.pack) = some cli := by
  have start : (init ω).Pointing := fun t h ptr here => by cases here
  have points := (Runs.throughout_of_preserved_all pointing_step start events).last t h ptr here has
  have holder : (Runs.run step (init ω) events).pointer t = some ptr := pointer_eq_some.mpr ⟨h, here, has⟩
  exact points.value (current_run still (some t) ptr.array (congrArg (Option.map SlotPtr.array) holder))

/-- Two packets of one user and one of another: the user is registered, a second
worker has looked the user up, and a third is to register the other. -/
def crossing : List (LookupsEvent (Option Bool)) :=
  let first := packetSerial (packetInit [] 5 0 1)
  let second := packetSerial (packetInit [] 7 0 1)
  let works := fun t => LookupsEvent.work t .blank (fun _ => true) ⟨false, false⟩
  [.loop (.accept 1 5 "127.0.0.1" 40000), .loop (.accept 2 6 "127.0.0.1" 40001), .loop (.frame 1 first),
    .loop (.frame 1 first), .loop (.frame 2 second), .pop none 1 .blank, works none, works none, works none,
    .pop (some false) 1 .blank, works (some false), works (some false), .pop (some true) 2 .blank, works (some true),
    works (some true)]

theorem still_crossing : Runs.Along step Still (init (Option Bool)) crossing := by
  have unmoved : ∀ (s : Lookups (Option Bool)) t locals ok, s.Still (.work t locals ok ⟨false, false⟩) :=
    fun _ _ _ _ _ _ _ _ => ⟨fun moves => absurd moves Bool.false_ne_true, fun moves => absurd moves Bool.false_ne_true⟩
  repeat' first
  | exact trivial
  | exact unmoved _ _ _ _
  | constructor

theorem target_registered_crossing :
    ∃ cli, (Runs.run step (init (Option Bool)) crossing).arrays.value
        (Runs.run step (init (Option Bool)) crossing).server.dcnClients ⟨0, 0⟩ = some cli ∧
      mapAt (Runs.run step (init (Option Bool)) crossing).server.dcnClients 5 = some cli :=
  @target_registered (Option Bool) _ (some false) crossing still_crossing
    ⟨1, packetInit [] 5 0 1, .shadowTest ⟨0, 0⟩⟩ ⟨0, 0⟩ rfl rfl

/-- The condition cannot be weakened. -/
theorem harmless_iff_still {events : List (LookupsEvent ω)} (still : Runs.Along step Still (init ω) events)
    (e : LookupsEvent ω) :
    ((Runs.run step (init ω) events).step e).Harmless ↔ (Runs.run step (init ω) events).Still e := by
  rw [← harmless_handles, ← still_iff]
  exact (handles ω).harmless_step_iff (current_run still)

theorem harmless_iff_still_crossing :
    ¬((Runs.run step (init (Option Bool)) crossing).step
      (.work (some true) .blank (fun _ => true) ⟨true, true⟩)).Harmless := by
  refine (harmless_iff_still still_crossing _).not.mpr fun still => ?_
  have values := (still ⟨2, packetInit [] 7 0 1, .store⟩ rfl rfl rfl).1 rfl (some false)
  exact absurd values (by decide)

end Exact

end Lookups

end Dcn
