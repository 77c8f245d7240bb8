import Dcn.Client.Responses

/-! Whether each request gets its own response.

The calls to a peer share one waiter, and a call waits only where no response
of the peer is stored. A flag that is up says that some response came, not
whose. What is wanted is that a call passes its test or its wait with its own
response stored, that a call whose response is stored finds the flag up or a
handler run on the way to raise it, and that the search for the response follows
its pointers into arrays that are there.
-/

set_option autoImplicit false

namespace Dcn

variable {τ η : Type} [DecidableEq τ] [DecidableEq η]

namespace ReqPc

def cmuid : ReqPc τ → Option UInt64
  | .idle => none
  | .test cmuid | .create cmuid | .request cmuid | .check cmuid | .find cmuid | .follow cmuid _ | .wait cmuid _
  | .search cmuid | .read cmuid _ | .copy cmuid _ _ | .free cmuid _ _ _ | .erase cmuid _ _ | .returned cmuid _
  | .lost cmuid => some cmuid

def equipped : ReqPc τ → Bool
  | .request _ | .check _ | .find _ | .follow _ _ | .wait _ _ => true
  | _ => false

def waiting : ReqPc τ → Option (UInt64 × τ)
  | .wait cmuid respWaiter => some (cmuid, respWaiter)
  | _ => none

def finding : ReqPc τ → Option UInt64
  | .find cmuid | .follow cmuid _ => some cmuid
  | _ => none

def collecting : ReqPc τ → Option UInt64
  | .search cmuid | .read cmuid _ | .copy cmuid _ _ | .free cmuid _ _ _ => some cmuid
  | _ => none

def waiterStr : ReqPc τ → Option SlotPtr
  | .follow _ waiterStr => some waiterStr
  | _ => none

def lcUrsp : ReqPc τ → Option SlotPtr
  | .read _ lcUrsp | .copy _ lcUrsp _ | .free _ lcUrsp _ _ | .erase _ lcUrsp _ => some lcUrsp
  | _ => none

def packPtr : ReqPc τ → Option (UInt64 × SlotPtr)
  | .copy cmuid _ packPtr | .free cmuid _ packPtr _ => some (cmuid, packPtr)
  | _ => none

def plain : ReqPc τ → Bool
  | .idle | .test _ | .create _ | .request _ | .check _ | .returned _ (some _) => true
  | _ => false

def settled : ReqPc τ → Bool
  | .idle | .wait _ _ | .returned _ _ | .lost _ => true
  | _ => false

omit [DecidableEq τ] in
theorem cmuid_of_collecting {pc : ReqPc τ} {k : UInt64} (collects : pc.collecting = some k) : pc.cmuid = some k := by
  cases pc <;> cases collects <;> rfl

omit [DecidableEq τ] in
theorem collecting_of_packPtr {pc : ReqPc τ} {e : UInt64 × SlotPtr} (has : pc.packPtr = some e) :
    pc.collecting = some e.1 := by
  cases pc <;> cases has <;> rfl

end ReqPc

def ResponsePc.waking : ResponsePc → Option Packet
  | .find pack | .set pack _ => some pack
  | _ => none

namespace Responses

def Early (s : Responses τ η) : Prop := ∃ c cmuid, s.calls c = .returned cmuid none ∧ cmuid ∉ s.stored

/-- A call is blocked on a waiter that is not ready, its own response is stored,
and no step is in progress. -/
def Stuck (s : Responses τ η) : Prop :=
  (∀ h, s.handlers h = .idle) ∧ (∀ c, (s.calls c).settled = true) ∧
    ∃ c cmuid respWaiter, s.calls c = .wait cmuid respWaiter ∧ (s.responseOf cmuid).isSome ∧
      s.isReady respWaiter = false

def Lost (s : Responses τ η) : Prop := ∃ c cmuid, s.calls c = .lost cmuid

def target (s : Responses τ η) (h : η) : Option τ :=
  (s.handlers h).waking.bind fun pack => mapAt s.usrWaiters pack.fromUid

def awaited (s : Responses τ η) (pc : ReqPc τ) : Option (UInt64 × τ) :=
  pc.waiting <|> pc.finding.bind fun cmuid => (mapAt s.usrWaiters s.peer).map (Prod.mk cmuid)

/-- A call tests for a response where none is stored or its own is. -/
def ChecksInTurn (s : Responses τ η) (cmuid : UInt64) : Prop := s.responseExists = true → (s.responseOf cmuid).isSome

/-- A call takes a flag where its own response is stored, and where a handler
run is still to raise the flag for each other call on that waiter whose response
is stored. -/
def WakesInTurn (s : Responses τ η) (c : τ) (cmuid : UInt64) (respWaiter : τ) : Prop :=
  s.isReady respWaiter = true → (s.responseOf cmuid).isSome ∧
    ∀ d, d ≠ c → ∀ e ∈ s.awaited (s.calls d), e.2 = respWaiter → (s.responseOf e.1).isSome →
      ∃ h, s.target h = some respWaiter

/-- The peer gets a new waiter where those that wait on the old one have their
response stored and that flag up, and where a handler run is still to raise the
new one for those yet to find it whose response is stored. -/
def CreatesInTurn (s : Responses τ η) : Prop :=
  (∀ d, ∀ e ∈ (s.calls d).waiting, (s.responseOf e.1).isSome ∧ s.isReady e.2 = true) ∧
  ∀ d, ∀ cmuid ∈ (s.calls d).finding, (s.responseOf cmuid).isSome →
    ∃ h, ∃ pack ∈ (s.handlers h).waking, pack.fromUid = s.peer

def InTurnAt (s : Responses τ η) (c : τ) : ReqPc τ → Prop
  | .create _ => s.CreatesInTurn
  | .check cmuid => s.ChecksInTurn cmuid
  | .wait cmuid respWaiter => s.WakesInTurn c cmuid respWaiter
  | .read _ lcUrsp | .erase _ lcUrsp _ => lcUrsp.array = s.usrArrays.values
  | .copy _ _ packPtr | .free _ _ packPtr _ => packPtr.array = s.respArrays.values
  | _ => True

def InTurn (s : Responses τ η) : ResponseEvent τ η → Prop
  | .advance c _ => s.InTurnAt c (s.calls c)
  | _ => True

section Decide

/-- What holds of an option's value is decided at that value, and not at every
value of a finite type. -/
local instance (priority := high) decidableForallMem {α : Type} (p : α → Prop) [DecidablePred p] :
    (value : Option α) → Decidable (∀ a ∈ value, p a)
  | none => .isTrue (by simp)
  | some a => decidable_of_iff (p a) (by simp)

variable [Fintype τ] [Fintype η] (s : Responses τ η) (c respWaiter : τ) (cmuid : UInt64)

instance : Decidable (s.ChecksInTurn cmuid) :=
  inferInstanceAs (Decidable (s.responseExists = true → (s.responseOf cmuid).isSome))

instance : Decidable (s.WakesInTurn c cmuid respWaiter) :=
  inferInstanceAs (Decidable (s.isReady respWaiter = true → (s.responseOf cmuid).isSome ∧
    ∀ d, d ≠ c → ∀ e ∈ s.awaited (s.calls d), e.2 = respWaiter → (s.responseOf e.1).isSome →
      ∃ h, s.target h = some respWaiter))

instance : Decidable s.CreatesInTurn :=
  inferInstanceAs (Decidable ((∀ d, ∀ e ∈ (s.calls d).waiting, (s.responseOf e.1).isSome ∧ s.isReady e.2 = true) ∧
  ∀ d, ∀ cmuid ∈ (s.calls d).finding, (s.responseOf cmuid).isSome →
    ∃ h, ∃ pack ∈ (s.handlers h).waking, pack.fromUid = s.peer))

instance : (pc : ReqPc τ) → Decidable (s.InTurnAt c pc)
  | .create _ => inferInstanceAs (Decidable s.CreatesInTurn)
  | .check cmuid => inferInstanceAs (Decidable (s.ChecksInTurn cmuid))
  | .wait cmuid respWaiter => inferInstanceAs (Decidable (s.WakesInTurn c cmuid respWaiter))
  | .read _ lcUrsp | .erase _ lcUrsp _ => inferInstanceAs (Decidable (lcUrsp.array = s.usrArrays.values))
  | .copy _ _ packPtr | .free _ _ packPtr _ => inferInstanceAs (Decidable (packPtr.array = s.respArrays.values))
  | .idle | .test _ | .request _ | .find _ | .follow _ _ | .search _ | .returned _ _ | .lost _ => .isTrue trivial

instance : DecidablePred s.InTurn
  | .advance c _ => inferInstanceAs (Decidable (s.InTurnAt c (s.calls c)))
  | .call _ _ | .arrive _ _ | .handle _ _ _ => .isTrue trivial

end Decide

structure Finds (s : Responses τ η) (uid : UInt64) (ptr : SlotPtr) : Prop where
  points : s.waiterArrays.PointsTo s.usrWaiters uid ptr
  current : ptr.array = s.waiterArrays.values

/-- What holds of a call, by where it is: NULL is not returned, a call yet to
collect has its response, and one whose response is stored has the flag of its
waiter up or about to be raised. One whose response is not stored waits on the
waiter that the peer has now. Pointers are to the slots of what was looked up. -/
structure Serves (s : Responses τ η) (pc : ReqPc τ) : Prop where
  entry : pc.equipped = true → (mapAt s.usrWaiters s.peer).isSome
  collecting : ∀ cmuid ∈ pc.collecting, (s.responseOf cmuid).isSome
  returned : ∀ cmuid, pc ≠ .returned cmuid none
  found : ∀ cmuid, pc ≠ .lost cmuid
  awake : ∀ e ∈ s.awaited pc, (s.responseOf e.1).isSome →
    s.isReady e.2 = true ∨ ∃ h, s.target h = some e.2
  current : ∀ e ∈ pc.waiting, s.responseOf e.1 = none → mapAt s.usrWaiters s.peer = some e.2
  waiterStr : ∀ ptr ∈ pc.waiterStr, s.Finds s.peer ptr
  lcUrsp : ∀ ptr ∈ pc.lcUrsp, s.usrArrays.PointsTo s.usrResponses s.peer ptr
  packPtr : ∀ e ∈ pc.packPtr, ∀ targ, mapAt s.usrResponses s.peer = some targ →
    s.respArrays.PointsTo targ.responses e.1 e.2

structure Served (s : Responses τ η) : Prop where
  unique : ∀ c d cmuid, (s.calls c).cmuid = some cmuid → (s.calls d).cmuid = some cmuid → c = d
  used : ∀ c cmuid, (s.calls c).cmuid = some cmuid → cmuid ∈ s.used
  only : ∀ uid c, mapAt s.usrWaiters uid = some c → uid = s.peer
  storing : ∀ h pack, s.handlers h = .store pack → pack.packtype = .response
  setting : ∀ h pack ptr, s.handlers h = .set pack ptr → s.Finds pack.fromUid ptr
  serves : ∀ c, s.Serves (s.calls c)

variable {s : Responses τ η}

omit [DecidableEq τ] [DecidableEq η] in
theorem Served.not_early (served : s.Served) : ¬ s.Early := by
  rintro ⟨c, cmuid, returned, _⟩
  exact (served.serves c).returned cmuid returned

omit [DecidableEq τ] [DecidableEq η] in
theorem Served.not_lost (served : s.Served) : ¬ s.Lost := by
  rintro ⟨c, cmuid, lost⟩
  exact (served.serves c).found cmuid lost

omit [DecidableEq τ] [DecidableEq η] in
theorem Served.not_stuck (served : s.Served) : ¬ s.Stuck := by
  rintro ⟨handlers, _, c, cmuid, respWaiter, waits, stored, unready⟩
  rcases (served.serves c).awake (cmuid, respWaiter) (by rw [waits]; rfl) stored with ready | ⟨h, sets⟩
  · rw [ready] at unready
    cases unready
  · rw [target, handlers h] at sets
    cases sets

omit [DecidableEq τ] [DecidableEq η] in
theorem Finds.value {uid : UInt64} {ptr : SlotPtr} (finds : s.Finds uid ptr) :
    ∃ respWaiter, s.waiterArrays.value s.usrWaiters ptr = some respWaiter ∧ mapAt s.usrWaiters uid = some respWaiter :=
  finds.points.value finds.current

section Calls

variable {c : τ} {moved : Moved}

omit [DecidableEq τ] [DecidableEq η] in
theorem cmuid_of_awaited {pc : ReqPc τ} {e : UInt64 × τ} (awaited : e ∈ s.awaited pc) : pc.cmuid = some e.1 := by
  cases pc with
  | wait cmuid respWaiter =>
    cases awaited
    rfl
  | find cmuid =>
    obtain ⟨respWaiter, _, rfl⟩ := Option.map_eq_some_iff.mp awaited
    rfl
  | follow cmuid ptr =>
    obtain ⟨respWaiter, _, rfl⟩ := Option.map_eq_some_iff.mp awaited
    rfl
  | _ => cases awaited

omit [DecidableEq τ] [DecidableEq η] in
theorem cmuid_of_waiting {pc : ReqPc τ} {e : UInt64 × τ} (waits : e ∈ pc.waiting) : pc.cmuid = some e.1 := by
  cases pc with
  | wait cmuid respWaiter =>
    cases waits
    rfl
  | _ => cases waits

omit [DecidableEq η] in
theorem Served.stepped (served : s.Served) {s' : Responses τ η} {pc : ReqPc τ}
    (calls : s'.calls = Function.update s.calls c pc) (used : s'.used = s.used) (handlers : s'.handlers = s.handlers)
    (cmuid : pc.cmuid = (s.calls c).cmuid) (only : ∀ uid c, mapAt s'.usrWaiters uid = some c → uid = s'.peer)
    (setting : ∀ uid ptr, s.Finds uid ptr → s'.Finds uid ptr)
    (others : ∀ d, d ≠ c → s'.Serves (s.calls d)) (own : s'.Serves pc) : s'.Served := by
  have numbers : ∀ d, (s'.calls d).cmuid = (s.calls d).cmuid := by
    intro d
    rw [calls]
    by_cases same : d = c
    · rw [same, Function.update_self, cmuid]
    · rw [Function.update_of_ne same]
  refine ⟨fun d e k first second => ?_, fun d k number => ?_, only, fun h pack stores => ?_,
    fun h pack ptr sets => ?_, fun d => ?_⟩
  · rw [numbers] at first second
    exact served.unique d e k first second
  · rw [used]
    exact served.used d k (numbers d ▸ number)
  · exact served.storing h pack (handlers ▸ stores)
  · exact setting _ _ (served.setting h pack ptr (handlers ▸ sets))
  · rw [calls]
    by_cases same : d = c
    · rw [same, Function.update_self]
      exact own
    · rw [Function.update_of_ne same]
      exact others d same

omit [DecidableEq τ] [DecidableEq η] in
theorem Serves.calls {pc : ReqPc τ} (serves : s.Serves pc) (calls : τ → ReqPc τ) :
    Serves { s with calls := calls } pc := by
  obtain ⟨entry, collecting, returned, found, awake, current, waiterStr, lcUrsp, packPtr⟩ := serves
  exact ⟨entry, collecting, returned, found, awake, current,
    fun ptr has => ⟨(waiterStr ptr has).points, (waiterStr ptr has).current⟩, lcUrsp, packPtr⟩

omit [DecidableEq η] in
theorem Served.goto (served : s.Served) {pc : ReqPc τ} (cmuid : pc.cmuid = (s.calls c).cmuid) (own : s.Serves pc) :
    (s.goto c pc).Served :=
  served.stepped rfl rfl rfl cmuid served.only (fun _ _ finds => ⟨finds.points, finds.current⟩)
    (fun d _ => (served.serves d).calls _) (own.calls _)

omit [DecidableEq τ] [DecidableEq η] in
theorem serves_plain {pc : ReqPc τ} (entry : pc.equipped = true → (mapAt s.usrWaiters s.peer).isSome)
    (plain : pc.plain = true) : s.Serves pc := by
  have other : pc.collecting = none ∧ pc.waiting = none ∧ pc.finding = none ∧ pc.waiterStr = none ∧
      pc.lcUrsp = none ∧ pc.packPtr = none := by
    cases pc <;> simp_all [ReqPc.plain, ReqPc.collecting, ReqPc.waiting, ReqPc.finding, ReqPc.waiterStr, ReqPc.lcUrsp,
      ReqPc.packPtr]
  obtain ⟨collecting, waiting, finding, waiterStr, lcUrsp, packPtr⟩ := other
  refine ⟨entry, fun _ has => ?_, fun cmuid returned => ?_, fun cmuid lost => ?_, fun e has => ?_, fun e has => ?_,
    fun ptr has => ?_, fun ptr has => ?_, fun e has => ?_⟩
  · rw [collecting] at has
    cases has
  · rw [returned] at plain
    cases plain
  · rw [lost] at plain
    cases plain
  · rw [awaited, waiting, finding] at has
    cases has
  · rw [waiting] at has
    cases has
  · rw [waiterStr] at has
    cases has
  · rw [lcUrsp] at has
    cases has
  · rw [packPtr] at has
    cases has

omit [DecidableEq τ] [DecidableEq η] in
theorem serves_collecting {pc : ReqPc τ} {cmuid : UInt64} (collects : pc.collecting = some cmuid)
    (stored : (s.responseOf cmuid).isSome) (lcUrsp : ∀ ptr ∈ pc.lcUrsp, s.usrArrays.PointsTo s.usrResponses s.peer ptr)
    (packPtr : ∀ e ∈ pc.packPtr, ∀ targ, mapAt s.usrResponses s.peer = some targ →
      s.respArrays.PointsTo targ.responses e.1 e.2) : s.Serves pc := by
  have other : pc.equipped = false ∧ pc.waiting = none ∧ pc.finding = none ∧ pc.waiterStr = none := by
    cases pc <;> cases collects <;> exact ⟨rfl, rfl, rfl, rfl⟩
  obtain ⟨equipped, waiting, finding, waiterStr⟩ := other
  refine ⟨fun equips => ?_, fun k has => ?_, fun k returned => ?_, fun k lost => ?_, fun e has => ?_,
    fun e has => ?_, fun ptr has => ?_, lcUrsp, packPtr⟩
  · rw [equipped] at equips
    cases equips
  · cases collects.symm.trans has
    exact stored
  · rw [returned] at collects
    cases collects
  · rw [lost] at collects
    cases collects
  · rw [awaited, waiting, finding] at has
    cases has
  · rw [waiting] at has
    cases has
  · rw [waiterStr] at has
    cases has

omit [DecidableEq η] in
theorem served_test (served : s.Served) {cmuid : UInt64} (tests : s.calls c = .test cmuid) :
    (s.advance c moved).Served := by
  simp only [advance, tests]
  split
  · next found =>
    exact served.goto (by rw [tests]; rfl) (serves_plain (fun _ => found) rfl)
  · exact served.goto (by rw [tests]; rfl) (serves_plain (fun equipped => by cases equipped) rfl)

omit [DecidableEq τ] [DecidableEq η] in
theorem finds_create (served : s.Served) {uid : UInt64} {ptr : SlotPtr} (finds : s.Finds uid ptr) (c : τ)
    (calls : τ → ReqPc τ) : Finds { s with
      usrWaiters := mapSet s.usrWaiters s.peer c
      waiterArrays := s.waiterArrays.set (mapIn s.usrWaiters s.peer) moved
      calls := calls } uid ptr := by
  -- A waiter stored over another moves no array, and where there is none nobody has
  -- a pointer.
  obtain ⟨respWaiter, -, stored⟩ := finds.value
  have present : mapIn s.usrWaiters s.peer = true := by
    rw [mapIn, ← served.only uid respWaiter stored, stored]
    rfl
  refine ⟨finds.points.set s.peer c moved, ?_⟩
  simp only [present, Arrays.set, ↓reduceIte]
  exact finds.current

omit [DecidableEq η] in
theorem served_create (served : s.Served) {cmuid : UInt64} (creates : s.calls c = .create cmuid)
    (inTurn : s.InTurn (.advance c moved)) : (s.advance c moved).Served := by
  rw [InTurn, creates] at inTurn
  obtain ⟨waiting, finding⟩ := inTurn
  have entry : mapAt (mapSet s.usrWaiters s.peer c) s.peer = some c := Map.mapAt_mapSet_self _ _ _
  simp only [advance, creates]
  refine served.stepped rfl rfl rfl (by rw [creates]; rfl) (fun uid d found => ?_)
    (fun uid ptr finds => finds_create served finds c _) (fun d other => ?_) ?_
  · simp only [Responses.goto, Map.mapAt_mapSet] at found
    split at found
    · next same => exact same
    · exact served.only uid d found
  · have before := served.serves d
    refine ⟨fun _ => by rw [Option.isSome_iff_exists]; exact ⟨c, entry⟩, before.collecting, before.returned,
      before.found, fun e awaited stored => ?_, fun e waits missing => ?_,
      fun ptr has => finds_create served (before.waiterStr ptr has) c _, before.lcUrsp, before.packPtr⟩
    · cases waits : (s.calls d).waiting with
      | some held =>
        have isHeld : held = e := by
          rw [Responses.awaited, waits] at awaited
          exact Option.some.inj awaited
        exact .inl (isHeld ▸ (waiting d held waits).2)
      | none =>
        -- The handler runs on the way to the waiter raise the new one.
        rw [Responses.awaited, waits] at awaited
        obtain ⟨number, finds, isNew⟩ := Option.bind_eq_some_iff.mp awaited
        simp only [Responses.goto, entry, Option.map_some, Option.some.injEq] at isNew
        subst isNew
        obtain ⟨h, pack, wakes, from_peer⟩ := finding d number finds stored
        refine .inr ⟨h, ?_⟩
        rw [target]
        exact Option.bind_eq_some_iff.mpr ⟨pack, wakes, from_peer ▸ entry⟩
    · have stored := (waiting d e waits).1
      rw [show s.responseOf e.1 = none from missing] at stored
      cases stored
  · exact serves_plain (fun _ => by rw [Option.isSome_iff_exists]; exact ⟨c, entry⟩) rfl

omit [DecidableEq τ] [DecidableEq η] in
theorem responseOf_of_not_exists (nothing : s.responseExists = false) (cmuid : UInt64) : s.responseOf cmuid = none := by
  unfold responseExists at nothing
  unfold responseOf
  cases peers : mapAt s.usrResponses s.peer with
  | none => rfl
  | some lcUrsp =>
    rw [peers] at nothing
    simp only [mapEmpty, Bool.not_eq_false', List.isEmpty_iff] at nothing
    simp [mapAt, nothing]

omit [DecidableEq η] in
theorem served_check (served : s.Served) {cmuid : UInt64} (checks : s.calls c = .check cmuid)
    (inTurn : s.InTurn (.advance c moved)) : (s.advance c moved).Served := by
  rw [InTurn, checks] at inTurn
  simp only [advance, checks]
  split
  · next some_response =>
    exact served.goto (by rw [checks]; rfl)
      (serves_collecting rfl (inTurn some_response) (fun _ has => by cases has) fun _ has => by cases has)
  · next none_stored =>
    rw [Bool.not_eq_true] at none_stored
    have before := served.serves c
    rw [checks] at before
    refine served.goto (by rw [checks]; rfl) ⟨fun _ => before.entry rfl, fun number collects => ?_,
      fun number returned => ?_, fun number lost => ?_, fun e awaited stored => ?_, fun e waits => ?_,
      fun ptr has => ?_, fun ptr has => ?_, fun e has => ?_⟩
    · cases collects
    · cases returned
    · cases lost
    · rw [responseOf_of_not_exists none_stored] at stored
      cases stored
    · cases waits
    · cases has
    · cases has
    · cases has

omit [DecidableEq η] in
theorem served_find (served : s.Served) {cmuid : UInt64} (finds : s.calls c = .find cmuid) :
    (s.advance c moved).Served := by
  have before := served.serves c
  rw [finds] at before
  obtain ⟨respWaiter, entry⟩ := Option.isSome_iff_exists.mp (before.entry rfl)
  simp only [advance, finds]
  cases found : s.waiterArrays.find s.usrWaiters s.peer with
  | none =>
    rw [Arrays.find_eq_none.mp found] at entry
    cases entry
  | some ptr =>
    refine served.goto (by rw [finds]; rfl) ⟨fun _ => before.entry rfl, fun number collects => ?_,
      fun number returned => ?_, fun number lost => ?_, before.awake, fun e waits => ?_, fun other has => ?_,
      fun other has => ?_, fun e has => ?_⟩
    · cases collects
    · cases returned
    · cases lost
    · cases waits
    · cases has
      exact ⟨Arrays.pointsTo_find found, Arrays.array_find found⟩
    · cases has
    · cases has

omit [DecidableEq η] in
theorem served_follow (served : s.Served) {cmuid : UInt64} {ptr : SlotPtr} (follows : s.calls c = .follow cmuid ptr) :
    (s.advance c moved).Served := by
  have before := served.serves c
  rw [follows] at before
  obtain ⟨respWaiter, read, entry⟩ := (before.waiterStr ptr rfl).value
  simp only [advance, follows, through, read]
  refine served.goto (by rw [follows]; rfl) ⟨fun _ => before.entry rfl, fun number collects => ?_,
    fun number returned => ?_, fun number lost => ?_, fun e awaited stored => ?_, fun e waits _ => ?_,
    fun other has => ?_, fun other has => ?_, fun e has => ?_⟩
  · cases collects
  · cases returned
  · cases lost
  · cases awaited
    refine before.awake (cmuid, respWaiter) ?_ stored
    simp [Responses.awaited, ReqPc.waiting, ReqPc.finding, entry]
  · cases waits
    exact entry
  · cases has
  · cases has
  · cases has

omit [DecidableEq η] in
theorem served_wait (served : s.Served) {cmuid : UInt64} {respWaiter : τ} (waits : s.calls c = .wait cmuid respWaiter)
    (inTurn : s.InTurn (.advance c moved)) : (s.advance c moved).Served := by
  rw [InTurn, waits] at inTurn
  simp only [advance, waits]
  split
  · next ready =>
    obtain ⟨stored, raised⟩ := inTurn ready
    have finds : ∀ uid ptr, s.Finds uid ptr → Finds ({ s with
        isReady := Function.update s.isReady respWaiter false }.goto c (.search cmuid)) uid ptr :=
      fun uid ptr finds => ⟨finds.points, finds.current⟩
    refine served.stepped rfl rfl rfl (by rw [waits]; rfl) served.only finds (fun d other => ?_) ?_
    · have before := served.serves d
      refine ⟨before.entry, before.collecting, before.returned, before.found, fun e awaited held => ?_, before.current,
        fun ptr has => finds _ _ (before.waiterStr ptr has), before.lcUrsp, before.packPtr⟩
      by_cases same : e.2 = respWaiter
      · rw [same]
        exact .inr (raised d other e awaited same held)
      · rcases before.awake e awaited held with up | sets
        · exact .inl ((Function.update_of_ne same _ _).trans up)
        · exact .inr sets
    · exact serves_collecting rfl stored (fun _ has => by cases has) fun _ has => by cases has
  · exact served

omit [DecidableEq η] in
theorem served_search (served : s.Served) {cmuid : UInt64} (searches : s.calls c = .search cmuid) :
    (s.advance c moved).Served := by
  have stored := (served.serves c).collecting cmuid (by rw [searches]; rfl)
  simp only [advance, searches]
  cases found : s.usrArrays.find s.usrResponses s.peer with
  | none =>
    rw [responseOf, Arrays.find_eq_none.mp found] at stored
    cases stored
  | some ptr =>
    refine served.goto (by rw [searches]; rfl) (serves_collecting rfl stored (fun other has => ?_) fun e has => ?_)
    · cases has
      exact Arrays.pointsTo_find found
    · cases has

omit [DecidableEq η] in
theorem served_read (served : s.Served) {cmuid : UInt64} {lcUrsp : SlotPtr} (reads : s.calls c = .read cmuid lcUrsp)
    (inTurn : s.InTurn (.advance c moved)) : (s.advance c moved).Served := by
  rw [InTurn, reads] at inTurn
  have before := served.serves c
  rw [reads] at before
  have stored := before.collecting cmuid rfl
  obtain ⟨targ, read, peers⟩ := (before.lcUrsp lcUrsp rfl).value inTurn
  simp only [advance, reads, through, read]
  cases found : s.respArrays.find targ.responses cmuid with
  | none =>
    rw [responseOf, peers, Option.bind_some, Arrays.find_eq_none.mp found] at stored
    cases stored
  | some ptr =>
    refine served.goto (by rw [reads]; rfl)
      (serves_collecting rfl stored (fun other has => ?_) fun e has other theirs => ?_)
    · cases has
      exact before.lcUrsp lcUrsp rfl
    · cases has
      cases peers.symm.trans theirs
      exact Arrays.pointsTo_find found

omit [DecidableEq τ] [DecidableEq η] in
theorem Serves.packetAt {pc : ReqPc τ} (serves : s.Serves pc) {e : UInt64 × SlotPtr} (has : pc.packPtr = some e)
    (there : e.2.array = s.respArrays.values) : ∃ pack, s.packetAt e.2 = some pack := by
  obtain ⟨found, held⟩ := Option.isSome_iff_exists.mp (serves.collecting e.1 (ReqPc.collecting_of_packPtr has))
  obtain ⟨targ, peers, -⟩ := Option.bind_eq_some_iff.mp held
  obtain ⟨pack, read, -⟩ := (serves.packPtr e has targ peers).value there
  exact ⟨pack, by rw [Responses.packetAt, peers, Option.bind_some, read]⟩

omit [DecidableEq η] in
theorem served_copy (served : s.Served) {cmuid : UInt64} {lcUrsp packPtr : SlotPtr}
    (copies : s.calls c = .copy cmuid lcUrsp packPtr) (inTurn : s.InTurn (.advance c moved)) :
    (s.advance c moved).Served := by
  rw [InTurn, copies] at inTurn
  have before := served.serves c
  rw [copies] at before
  obtain ⟨pack, read⟩ := before.packetAt (show (ReqPc.copy cmuid lcUrsp packPtr).packPtr = _ from rfl) inTurn
  simp only [advance, copies, through, read]
  exact served.goto (by rw [copies]; rfl)
    (serves_collecting rfl (before.collecting cmuid rfl) before.lcUrsp before.packPtr)

omit [DecidableEq η] in
theorem served_free (served : s.Served) {cmuid : UInt64} {lcUrsp packPtr : SlotPtr} {answer : Packet}
    (frees : s.calls c = .free cmuid lcUrsp packPtr answer) (inTurn : s.InTurn (.advance c moved)) :
    (s.advance c moved).Served := by
  rw [InTurn, frees] at inTurn
  have before := served.serves c
  rw [frees] at before
  obtain ⟨pack, read⟩ := before.packetAt (show (ReqPc.free cmuid lcUrsp packPtr answer).packPtr = _ from rfl) inTurn
  simp only [advance, frees, through, read]
  refine served.goto (by rw [frees]; rfl) ⟨fun equipped => ?_, fun number collects => ?_, fun number returned => ?_,
    fun number lost => ?_, fun e awaited => ?_, fun e waits => ?_, fun ptr has => ?_, before.lcUrsp, fun e has => ?_⟩
  · cases equipped
  · cases collects
  · cases returned
  · cases lost
  · cases awaited
  · cases waits
  · cases has
  · cases has

omit [DecidableEq η] in
theorem served_erase (served : s.Served) {cmuid : UInt64} {lcUrsp : SlotPtr} {answer : Packet}
    (erases : s.calls c = .erase cmuid lcUrsp answer) (inTurn : s.InTurn (.advance c moved)) :
    (s.advance c moved).Served := by
  -- What a call erases is its own response, so the others keep theirs.
  rw [InTurn, erases] at inTurn
  have mine := served.serves c
  rw [erases] at mine
  obtain ⟨targ, read, peers⟩ := (mine.lcUrsp lcUrsp rfl).value inTurn
  simp only [advance, erases, through, read]
  generalize next : Responses.goto { s with
    usrResponses := mapSet s.usrResponses s.peer { targ with responses := mapErase targ.responses cmuid }
    respArrays := s.respArrays.erase (mapIn targ.responses cmuid) } c (.returned cmuid (some answer)) = s'
  have usrResponses : s'.usrResponses =
      mapSet s.usrResponses s.peer { targ with responses := mapErase targ.responses cmuid } := by rw [← next]; rfl
  have respArrays : s'.respArrays = s.respArrays.erase (mapIn targ.responses cmuid) := by rw [← next]; rfl
  have peer : s'.peer = s.peer := by rw [← next]; rfl
  have waiters : s'.usrWaiters = s.usrWaiters ∧ s'.waiterArrays = s.waiterArrays ∧ s'.isReady = s.isReady ∧
      s'.usrArrays = s.usrArrays ∧ s'.handlers = s.handlers := by
    rw [← next]
    exact ⟨rfl, rfl, rfl, rfl, rfl⟩
  obtain ⟨usrWaiters, waiterArrays, isReady, usrArrays, handlers⟩ := waiters
  have kept : ∀ other, other ≠ cmuid → s'.responseOf other = s.responseOf other := by
    intro other differ
    simp only [responseOf, peer, usrResponses, Map.mapAt_mapSet_self, peers, Option.bind_some]
    exact Map.mapAt_mapErase_of_ne _ differ
  have finds : ∀ uid ptr, s.Finds uid ptr → s'.Finds uid ptr := by
    intro uid ptr finds
    constructor
    · rw [usrWaiters, waiterArrays]
      exact finds.points
    · rw [waiterArrays]
      exact finds.current
  have targets : s'.target = s.target := by
    funext h
    rw [target, target, handlers, usrWaiters]
  refine served.stepped (by rw [← next]; rfl) (by rw [← next]; rfl) handlers (by rw [erases]; rfl)
    (by rw [usrWaiters, peer]; exact served.only) finds (fun d other => ?_)
    (serves_plain (fun equipped => by cases equipped) rfl)
  have before := served.serves d
  have differs : ∀ k, (s.calls d).cmuid = some k → k ≠ cmuid := by
    rintro k theirs rfl
    exact other (served.unique d c k theirs (by rw [erases]; rfl))
  have awaits : s'.awaited (s.calls d) = s.awaited (s.calls d) := by
    rw [awaited, awaited, usrWaiters, peer]
  refine ⟨?_, fun k collects => ?_, before.returned, before.found, fun e awaited held => ?_, fun e waits missing => ?_,
    fun ptr has => ?_, fun ptr has => ?_, fun e has theirs found => ?_⟩
  · rw [usrWaiters, peer]
    exact before.entry
  · rw [kept k (differs k (ReqPc.cmuid_of_collecting collects))]
    exact before.collecting k collects
  · rw [awaits] at awaited
    rw [kept e.1 (differs e.1 (cmuid_of_awaited awaited))] at held
    rw [isReady, targets]
    exact before.awake e awaited held
  · rw [kept e.1 (differs e.1 (cmuid_of_waiting waits))] at missing
    rw [usrWaiters, peer]
    exact before.current e waits missing
  · rw [peer]
    exact finds _ _ (before.waiterStr ptr has)
  · rw [usrArrays, usrResponses, peer]
    have present : mapIn s.usrResponses s.peer = true := by rw [mapIn, peers]; rfl
    have points := (before.lcUrsp ptr has).set s.peer { targ with responses := mapErase targ.responses cmuid } moved
    rwa [present, Arrays.set, if_pos rfl] at points
  · rw [usrResponses, peer, Map.mapAt_mapSet_self, Option.some.injEq] at found
    rw [respArrays, ← found]
    exact (before.packPtr e has targ peers).erase cmuid

omit [DecidableEq η] in
theorem served_advance (served : s.Served) (inTurn : s.InTurn (.advance c moved)) : (s.advance c moved).Served := by
  cases pc : s.calls c with
  | idle => simpa only [advance, pc] using served
  | test cmuid => exact served_test served pc
  | create cmuid => exact served_create served pc inTurn
  | request cmuid =>
    have before := served.serves c
    rw [pc] at before
    simp only [advance, pc]
    exact served.goto (by rw [pc]; rfl) (serves_plain (fun _ => before.entry rfl) rfl)
  | check cmuid => exact served_check served pc inTurn
  | find cmuid => exact served_find served pc
  | follow cmuid waiterStr => exact served_follow served pc
  | wait cmuid respWaiter => exact served_wait served pc inTurn
  | search cmuid => exact served_search served pc
  | read cmuid lcUrsp => exact served_read served pc inTurn
  | copy cmuid lcUrsp packPtr => exact served_copy served pc inTurn
  | free cmuid lcUrsp packPtr answer => exact served_free served pc inTurn
  | erase cmuid lcUrsp answer => exact served_erase served pc inTurn
  | returned cmuid answer => simpa only [advance, pc] using served
  | lost cmuid => simpa only [advance, pc] using served

end Calls

section Handler

variable {h : η} {moved users : Moved}

omit [DecidableEq τ] in
theorem Served.handled (served : s.Served) {s' : Responses τ η} {pc : ResponsePc}
    (handlers : s'.handlers = Function.update s.handlers h pc)
    (calls : s'.calls = s.calls) (used : s'.used = s.used) (usrWaiters : s'.usrWaiters = s.usrWaiters)
    (waiterArrays : s'.waiterArrays = s.waiterArrays) (peer : s'.peer = s.peer)
    (stores : ∀ pack, pc = .store pack → pack.packtype = .response)
    (sets : ∀ pack ptr, pc = .set pack ptr → s.Finds pack.fromUid ptr)
    (serves : (∀ uid ptr, s.Finds uid ptr → s'.Finds uid ptr) → ∀ c, s'.Serves (s.calls c)) : s'.Served := by
  have finds : ∀ uid ptr, s.Finds uid ptr → s'.Finds uid ptr := by
    intro uid ptr finds
    constructor
    · rw [usrWaiters, waiterArrays]
      exact finds.points
    · rw [waiterArrays]
      exact finds.current
  refine ⟨?_, ?_, ?_, fun g pack at_store => ?_, fun g pack ptr at_set => ?_, ?_⟩
  · rw [calls]
    exact served.unique
  · rw [calls, used]
    exact served.used
  · rw [usrWaiters, peer]
    exact served.only
  · by_cases same : g = h
    · rw [handlers, same, Function.update_self] at at_store
      exact stores pack at_store
    · rw [handlers, Function.update_of_ne same] at at_store
      exact served.storing g pack at_store
  · by_cases same : g = h
    · rw [handlers, same, Function.update_self] at at_set
      exact finds _ _ (sets pack ptr at_set)
    · rw [handlers, Function.update_of_ne same] at at_set
      exact finds _ _ (served.setting g pack ptr at_set)
  · rw [calls]
    exact serves finds

omit [DecidableEq τ] in
theorem target_handlerGoto_of_ne {g : η} (pc : ResponsePc) (other : g ≠ h) :
    (s.handlerGoto h pc).target g = s.target g := by
  simp only [target, handlerGoto, Function.update_of_ne other]

omit [DecidableEq τ] in
theorem target_of_untargeted {pc : ResponsePc} {respWaiter : τ} (untargeted : s.target h = none)
    (sets : ∃ g, s.target g = some respWaiter) : ∃ g, (s.handlerGoto h pc).target g = some respWaiter := by
  obtain ⟨g, sets⟩ := sets
  have other : g ≠ h := by
    rintro rfl
    rw [untargeted] at sets
    cases sets
  exact ⟨g, by rw [target_handlerGoto_of_ne pc other, sets]⟩

omit [DecidableEq τ] in
theorem served_handlerGoto (served : s.Served) {pc : ResponsePc}
    (kept : ∀ respWaiter, s.target h = some respWaiter → (s.handlerGoto h pc).target h = some respWaiter)
    (stores : ∀ pack, pc = .store pack → pack.packtype = .response)
    (sets : ∀ pack ptr, pc = .set pack ptr → s.Finds pack.fromUid ptr) : (s.handlerGoto h pc).Served := by
  refine served.handled rfl rfl rfl rfl rfl rfl stores sets fun finds c => ?_
  have before := served.serves c
  refine ⟨before.entry, before.collecting, before.returned, before.found, fun e awaited stored => ?_, before.current,
    fun ptr has => finds _ _ (before.waiterStr ptr has), before.lcUrsp, before.packPtr⟩
  refine (before.awake e awaited stored).imp_right ?_
  rintro ⟨g, theirs⟩
  refine ⟨g, ?_⟩
  by_cases mine : g = h
  · rw [mine] at theirs ⊢
    exact kept e.2 theirs
  · rw [target_handlerGoto_of_ne pc mine, theirs]

omit [DecidableEq τ] [DecidableEq η] in
theorem peers_storeUser_of_ne {pack : Packet} (other : pack.fromUid ≠ s.peer) :
    mapAt (storeUser s.usrResponses pack) s.peer = mapAt s.usrResponses s.peer := by
  have differ : s.peer ≠ pack.fromUid := fun same => other same.symm
  simp only [storeUser, Map.mapAt_mapSet_of_ne _ _ differ]

omit [DecidableEq τ] [DecidableEq η] in
theorem peers_storeUser {pack : Packet} (from_peer : pack.fromUid = s.peer) (response : pack.packtype = .response) :
    ∃ targ, mapAt (storeUser s.usrResponses pack) s.peer = some targ ∧ targ.responses =
      mapSet ((mapAt s.usrResponses s.peer).getD ⟨queueInit, mapInit UInt64 Packet⟩).responses pack.cmuid
        (copyPacket pack) := by
  simp only [storeUser, from_peer, Map.mapAt_mapSet_self, response, ne_eq, not_true_eq_false, ↓reduceIte,
    Option.some.injEq, exists_eq_left']

omit [DecidableEq τ] [DecidableEq η] in
theorem isSome_responseOf_storeUser {s' : Responses τ η} {pack : Packet} (response : pack.packtype = .response)
    (peer : s'.peer = s.peer) (usrResponses : s'.usrResponses = storeUser s.usrResponses pack) {cmuid : UInt64}
    (stored : (s.responseOf cmuid).isSome) : (s'.responseOf cmuid).isSome := by
  rw [responseOf, peer, usrResponses]
  by_cases from_peer : pack.fromUid = s.peer
  · obtain ⟨found, held⟩ := Option.isSome_iff_exists.mp stored
    obtain ⟨targ, peers, mine⟩ := Option.bind_eq_some_iff.mp held
    obtain ⟨targ', there, responses⟩ := peers_storeUser from_peer response
    rw [there, Option.bind_some, responses, peers, Option.getD_some, Map.mapAt_mapSet]
    split
    · rfl
    · rw [mine]
      rfl
  · rw [peers_storeUser_of_ne from_peer]
    exact stored

theorem served_store (served : s.Served) {pack : Packet} (stores : s.handlers h = .store pack) :
    (s.handle h moved users).Served := by
  have response := served.storing h pack stores
  have untargeted : s.target h = none := by
    simp only [target, stores, ResponsePc.waking, Option.bind_none]
  have finds : (s.handlerGoto h (.find pack)).target h = mapAt s.usrWaiters pack.fromUid := by
    simp only [target, handlerGoto, Function.update_self, ResponsePc.waking, Option.bind_some]
  simp only [handle, stores]
  generalize next : handlerGoto { s with
    usrResponses := storeUser s.usrResponses pack
    usrArrays := s.usrArrays.set (mapIn s.usrResponses pack.fromUid) users
    respArrays :=
      if pack.fromUid = s.peer then s.respArrays.set (s.responseOf pack.cmuid).isSome moved else s.respArrays
    stored := if pack.fromUid = s.peer then s.stored ++ [pack.cmuid] else s.stored } h (.find pack) = s'
  have usrResponses : s'.usrResponses = storeUser s.usrResponses pack := by rw [← next]; rfl
  have usrArrays : s'.usrArrays = s.usrArrays.set (mapIn s.usrResponses pack.fromUid) users := by rw [← next]; rfl
  have respArrays : s'.respArrays = if pack.fromUid = s.peer then
      s.respArrays.set (s.responseOf pack.cmuid).isSome moved else s.respArrays := by rw [← next]; rfl
  have rest : s'.peer = s.peer ∧ s'.usrWaiters = s.usrWaiters ∧ s'.isReady = s.isReady ∧
      s'.target = (s.handlerGoto h (.find pack)).target := by
    rw [← next]
    exact ⟨rfl, rfl, rfl, rfl⟩
  obtain ⟨peer, usrWaiters, isReady, targets⟩ := rest
  have grows : ∀ {k}, (s.responseOf k).isSome → (s'.responseOf k).isSome :=
    isSome_responseOf_storeUser response peer usrResponses
  have handlers : s'.handlers = Function.update s.handlers h (.find pack) := by rw [← next]; rfl
  refine served.handled handlers (by rw [← next]; rfl) (by rw [← next]; rfl) usrWaiters (by rw [← next]; rfl) peer
    (fun _ at_store => by cases at_store) (fun _ _ at_set => by cases at_set) fun keeps c => ?_
  have before := served.serves c
  have awaits : s'.awaited (s.calls c) = s.awaited (s.calls c) := by
    rw [awaited, awaited, usrWaiters, peer]
  refine ⟨?_, fun k collects => grows (before.collecting k collects), before.returned, before.found,
    fun e awaited stored => ?_, fun e waits missing => ?_, fun ptr has => ?_, fun ptr has => ?_,
    fun e has targ found => ?_⟩
  · rw [usrWaiters, peer]
    exact before.entry
  · rw [awaits] at awaited
    rw [isReady, targets]
    cases held : (s.responseOf e.1).isSome with
    | true =>
      rcases before.awake e awaited held with ready | sets
      · exact .inl ready
      · exact .inr (target_of_untargeted untargeted sets)
    | false =>
      -- The response is the one just stored, and its run looks up this waiter.
      rw [Bool.eq_false_iff, ne_eq, Option.not_isSome_iff_eq_none] at held
      have from_peer : pack.fromUid = s.peer := by
        by_contra other
        rw [responseOf, peer, usrResponses, peers_storeUser_of_ne other, ← responseOf, held] at stored
        cases stored
      have entry : mapAt s.usrWaiters s.peer = some e.2 := by
        cases waits : (s.calls c).waiting with
        | some own =>
          rw [Responses.awaited, waits] at awaited
          cases awaited
          exact before.current e waits held
        | none =>
          rw [Responses.awaited, waits] at awaited
          obtain ⟨number, -, isPeers⟩ := Option.bind_eq_some_iff.mp awaited
          obtain ⟨respWaiter, found, rfl⟩ := Option.map_eq_some_iff.mp isPeers
          exact found
      exact .inr ⟨h, by rw [← entry, ← from_peer]; exact finds⟩
  · have kept : s.responseOf e.1 = none := by
      rw [← Option.not_isSome_iff_eq_none]
      intro held
      have still := grows held
      rw [missing] at still
      cases still
    rw [usrWaiters, peer]
    exact before.current e waits kept
  · rw [peer]
    exact keeps _ _ (before.waiterStr ptr has)
  · rw [usrArrays, usrResponses, peer]
    exact (before.lcUrsp ptr has).set pack.fromUid _ users
  · rw [usrResponses, peer] at found
    rw [respArrays]
    by_cases from_peer : pack.fromUid = s.peer
    · -- A call with a pointer has its response, so the peer has its queues.
      obtain ⟨mine, held⟩ := Option.isSome_iff_exists.mp (before.collecting e.1 (ReqPc.collecting_of_packPtr has))
      obtain ⟨old, peers, -⟩ := Option.bind_eq_some_iff.mp held
      obtain ⟨targ', there, responses⟩ := peers_storeUser from_peer response
      cases found.symm.trans there
      have present : (s.responseOf pack.cmuid).isSome = mapIn old.responses pack.cmuid := by
        rw [responseOf, peers, Option.bind_some, mapIn]
      rw [if_pos from_peer, responses, peers, Option.getD_some, present]
      exact (before.packPtr e has old peers).set pack.cmuid (copyPacket pack) moved
    · rw [peers_storeUser_of_ne from_peer] at found
      rw [if_neg from_peer]
      exact before.packPtr e has targ found

omit [DecidableEq τ] in
theorem served_handler_find [DecidableEq τ] (served : s.Served) {pack : Packet} (finds : s.handlers h = .find pack) :
    (s.handle h moved users).Served := by
  have here : s.target h = mapAt s.usrWaiters pack.fromUid := by
    simp only [target, finds, ResponsePc.waking, Option.bind_some]
  simp only [handle, finds]
  cases found : s.waiterArrays.find s.usrWaiters pack.fromUid with
  | some ptr =>
    refine served_handlerGoto served (fun respWaiter mine => ?_) (fun _ at_store => by cases at_store)
      fun other place at_set => ?_
    · rw [here] at mine
      simp only [target, handlerGoto, Function.update_self, ResponsePc.waking, Option.bind_some, mine]
    · cases at_set
      exact ⟨Arrays.pointsTo_find found, Arrays.array_find found⟩
  | none =>
    refine served_handlerGoto served (fun respWaiter mine => ?_) (fun _ at_store => by cases at_store)
      fun other place at_set => by cases at_set
    rw [here, Arrays.find_eq_none.mp found] at mine
    cases mine

theorem served_set (served : s.Served) {pack : Packet} {ptr : SlotPtr} (sets : s.handlers h = .set pack ptr) :
    (s.handle h moved users).Served := by
  obtain ⟨respWaiter, read, entry⟩ := (served.setting h pack ptr sets).value
  have here : s.target h = some respWaiter := by
    simp only [target, sets, ResponsePc.waking, Option.bind_some, entry]
  simp only [handle, sets, read]
  refine served.handled (show _ = Function.update s.handlers h .idle from rfl) rfl rfl rfl rfl rfl
    (fun _ at_store => by cases at_store) (fun _ _ at_set => by cases at_set) fun finds c => ?_
  have before := served.serves c
  refine ⟨before.entry, before.collecting, before.returned, before.found, fun e awaited stored => ?_, before.current,
    fun place has => finds _ _ (before.waiterStr place has), before.lcUrsp, before.packPtr⟩
  by_cases same : e.2 = respWaiter
  · left
    simp only [handlerGoto, same, Function.update_self]
  · rcases before.awake e awaited stored with ready | ⟨g, theirs⟩
    · exact .inl ((Function.update_of_ne same _ _).trans ready)
    · have other : g ≠ h := by
        rintro rfl
        rw [here, Option.some.injEq] at theirs
        exact same theirs.symm
      exact .inr ⟨g, by rw [← theirs]; exact target_handlerGoto_of_ne .idle other⟩

omit [DecidableEq η] in
theorem served_call (served : s.Served) {c : τ} {cmuid : UInt64} (fresh : cmuid ∉ s.used) :
    Served ({ s with used := s.used ++ [cmuid] }.goto c (.test cmuid)) := by
  have theirs : ∀ d k, d ≠ c → (s.calls d).cmuid = some k → k ≠ cmuid := by
    rintro d k _ number rfl
    exact fresh (served.used d k number)
  refine ⟨fun d e k first second => ?_, fun d k number => ?_, served.only, served.storing,
    fun h pack ptr sets => ⟨(served.setting h pack ptr sets).points, (served.setting h pack ptr sets).current⟩,
    fun d => ?_⟩
  · simp only [Responses.goto] at first second
    by_cases mine : d = c
    · by_cases also : e = c
      · exact mine.trans also.symm
      · rw [mine, Function.update_self] at first
        rw [Function.update_of_ne also] at second
        exact absurd (Option.some.inj first).symm (theirs e k also second)
    · rw [Function.update_of_ne mine] at first
      by_cases also : e = c
      · rw [also, Function.update_self] at second
        exact absurd (Option.some.inj second).symm (theirs d k mine first)
      · rw [Function.update_of_ne also] at second
        exact served.unique d e k first second
  · simp only [Responses.goto] at number ⊢
    by_cases mine : d = c
    · rw [mine, Function.update_self] at number
      exact List.mem_append_right _ (List.mem_singleton.mpr (Option.some.inj number).symm)
    · rw [Function.update_of_ne mine] at number
      exact List.mem_append_left _ (served.used d k number)
  · simp only [Responses.goto]
    by_cases mine : d = c
    · rw [mine, Function.update_self]
      exact serves_plain (fun equipped => by cases equipped) rfl
    · rw [Function.update_of_ne mine]
      obtain ⟨entry, collecting, returned, found, awake, current, waiterStr, lcUrsp, packPtr⟩ := served.serves d
      exact ⟨entry, collecting, returned, found, awake, current,
        fun ptr has => ⟨(waiterStr ptr has).points, (waiterStr ptr has).current⟩, lcUrsp, packPtr⟩

theorem served_step (s : Responses τ η) (event : ResponseEvent τ η) (served : s.Served) (inTurn : s.InTurn event) :
    (s.step event).Served := by
  cases event with
  | call c cmuid =>
    simp only [step]
    split
    · next free => exact served_call served free.2
    · exact served
  | advance c moved => exact served_advance served inTurn
  | arrive h pack =>
    simp only [step]
    split
    · next free =>
      refine served_handlerGoto served (fun respWaiter mine => ?_) (fun other at_store => ?_)
        fun _ _ at_set => by cases at_set
      · rw [target, free.1] at mine
        cases mine
      · cases at_store
        exact free.2
    · exact served
  | handle h moved users =>
    cases at_h : s.handlers h with
    | idle => simpa only [step, handle, at_h] using served
    | store pack => exact served_store served at_h
    | find pack => exact served_handler_find served at_h
    | set pack ptr => exact served_set served at_h

omit [DecidableEq τ] [DecidableEq η] in
theorem served_start (peer : UInt64) : (start τ η peer).Served := by
  refine ⟨fun _ _ _ number => ?_, fun _ _ number => ?_, fun _ _ found => ?_, fun _ _ stores => ?_,
    fun _ _ _ sets => ?_, fun _ => serves_plain (fun equipped => by cases equipped) rfl⟩
  · cases number
  · cases number
  · cases found
  · cases stores
  · cases sets

/-- In every run whose tests, wake-ups, new waiters and searches are in turn, no
call returns NULL before its response is stored, none is left blocked with its
response stored, and none reads an array that was given back. -/
theorem requests_served (peer : UInt64) (events : List (ResponseEvent τ η))
    (inTurn : Runs.Along step InTurn (start τ η peer) events) :
    Runs.Throughout step (fun s => ¬ s.Early ∧ ¬ s.Stuck ∧ ¬ s.Lost) (start τ η peer) events :=
  (Runs.throughout_of_preserved served_step (served_start peer) inTurn).mono
    fun _ served => ⟨served.not_early, served.not_stuck, served.not_lost⟩

end Handler

def responseFrom (uid cmuid : UInt64) : Packet :=
  { packetInit [] uid 1 0 with fromOs := 1, packtype := .response, cmuid := cmuid }

section Schedules

variable {τ η : Type}

def advances (c : τ) (n : Nat) : List (ResponseEvent τ η) := List.replicate n (.advance c ⟨true, true⟩)

def answers (h : η) (uid cmuid : UInt64) : List (ResponseEvent τ η) :=
  .arrive h (responseFrom uid cmuid) :: List.replicate 3 (.handle h ⟨true, true⟩ ⟨true, true⟩)

end Schedules

def inTurn : List (ResponseEvent Unit Unit) :=
  .call () 0 :: advances () 6 ++ answers () 2 0 ++ advances () 6

/-- A call that finds its response stored leaves the flag up for the next. -/
def staleFlag : List (ResponseEvent Bool Bool) :=
  .call false 0 :: advances false 3 ++ answers false 2 0 ++ advances false 6 ++ .call true 1 :: advances true 8

/-- Two calls wait, both responses come, and one flag serves one call. -/
def sharedFlag : List (ResponseEvent Bool Bool) :=
  .call false 0 :: advances false 6 ++ .call true 1 :: advances true 5 ++ answers false 2 0 ++ answers true 2 1 ++
    advances false 6

/-- A call is in its search when a response of another user is stored. -/
def movedQueues : List (ResponseEvent Bool Bool) :=
  .call false 0 :: advances false 6 ++ answers false 2 0 ++ advances false 2 ++ answers true 3 0 ++ advances false 1

theorem requests_served_inTurn :
    Runs.Throughout step (fun s => ¬ s.Early ∧ ¬ s.Stuck ∧ ¬ s.Lost) (start Unit Unit 2) inTurn :=
  requests_served 2 inTurn (by decide)

/-- A flag left up sends the next call back with NULL, a flag taken by one call
leaves the other blocked, and a search reads an array that was given back. -/
theorem requests_unserved :
    (Runs.run step (start Bool Bool 2) staleFlag).Early ∧ (Runs.run step (start Bool Bool 2) sharedFlag).Stuck ∧
      (Runs.run step (start Bool Bool 2) movedQueues).Lost := by
  refine ⟨⟨true, 1, rfl, by decide⟩, ⟨by decide, by decide, true, 1, false, rfl, rfl, rfl⟩, ⟨false, 0, rfl⟩⟩

end Responses

end Dcn
