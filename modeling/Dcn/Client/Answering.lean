import Dcn.Client.Numbering

/-! Whether an answered request is woken.

The packet is on its way before the waiter is registered, so the answer can be
handled while cnd_responses has no entry for it. The handler reads the waiter
through a pointer into cnd_responses, whose array another call may have given
back by then. A handler run that finds the entries of all calls under its number,
and then the array where it was, leaves none of them unwoken.
-/

set_option autoImplicit false

namespace Dcn

namespace CallPc

def awaited : CallPc → Option Packet
  | .push packet | .increment packet | .register packet | .wait packet => some packet
  | _ => none

def registered : CallPc → Bool
  | .wait _ | .erase _ | .returned _ => true
  | _ => false

end CallPc

namespace AnswerPc

def looking : AnswerPc → Option Packet
  | .lookup pack => some pack
  | _ => none

def pointer : AnswerPc → Option SlotPtr
  | .set _ waiterPtr => some waiterPtr
  | _ => none

end AnswerPc

namespace Requests

variable {τ η : Type} [DecidableEq τ] [DecidableEq η]

/-- An answer under the number of a request was handled to the end, the request
is in its wait, and its waiter is not ready and never was set. -/
def Unwoken (s : Requests τ η) : Prop :=
  ∃ c packet, s.calls c = .wait packet ∧ packet.muid ∈ s.handled ∧ s.isReady c = false ∧ s.wasSet c = false

/-- A handler run looks up a number only when each call that has it is
registered under it, or was set already, and follows its pointer only into the
array that is there; and no call takes a number that was looked up. -/
def Registered (s : Requests τ η) : RequestEvent τ η → Prop
  | .handle h => (∀ pack ∈ (s.handlers h).looking, ∀ c, ∀ packet ∈ (s.calls c).awaited,
      packet.muid = pack.muid → s.wasSet c = true ∨ mapAt s.cndResponses pack.muid = some c) ∧
      ∀ ptr ∈ (s.handlers h).pointer, ptr.array = s.cndArrays.values
  | .advance c _ => (s.calls c).reading = true → s.lastMuid ∉ s.lookedUp
  | _ => True

instance [Fintype τ] (s : Requests τ η) : DecidablePred s.Registered
  | .handle h => inferInstanceAs (Decidable ((∀ pack ∈ (s.handlers h).looking, ∀ c,
      ∀ packet ∈ (s.calls c).awaited, packet.muid = pack.muid →
        s.wasSet c = true ∨ mapAt s.cndResponses pack.muid = some c) ∧
      ∀ ptr ∈ (s.handlers h).pointer, ptr.array = s.cndArrays.values))
  | .advance c _ => inferInstanceAs (Decidable ((s.calls c).reading = true → s.lastMuid ∉ s.lookedUp))
  | .call _ _ _ | .send | .answer _ _ | .pop _ _ => .isTrue trivial

/-- The calls under a number that was handled were set, and a handler run whose
pointer is good leaves no other call under its number unset. A call comes into
cnd_responses, and is set, when it has registered. -/
structure Woken (s : Requests τ η) : Prop where
  handled : ∀ muid ∈ s.handled, ∀ c packet, (s.calls c).awaited = some packet → packet.muid = muid →
    s.wasSet c = true
  setting : ∀ h pack ptr, s.handlers h = .set pack ptr → ptr.array = s.cndArrays.values → ∀ c packet,
    (s.calls c).awaited = some packet → packet.muid = pack.muid →
      s.wasSet c = true ∨ mapAt s.cndResponses pack.muid = some c
  looked : ∀ muid ∈ s.handled, muid ∈ s.lookedUp
  looking : ∀ h pack ptr, s.handlers h = .set pack ptr →
    pack.muid ∈ s.lookedUp ∧ s.cndArrays.PointsTo s.cndResponses pack.muid ptr
  unregistered : ∀ c, (s.calls c).registered = false → s.wasSet c = false ∧ ∀ muid, mapAt s.cndResponses muid ≠ some c

section Steps

variable {s : Requests τ η} {c : τ} {h : η} {moved : Moved} {pack packet : Packet}

omit [DecidableEq τ] [DecidableEq η] in
theorem Woken.not_unwoken (woken : s.Woken) : ¬ s.Unwoken := by
  rintro ⟨c, packet, waits, handled, _, unset⟩
  have set : s.wasSet c = true := woken.handled _ handled c packet (by rw [waits]; rfl) rfl
  rw [set] at unset
  cases unset

/-- What a call may do that is neither about to register nor to erase its entry:
it takes no number that was looked up. -/
structure Moves (s s' : Requests τ η) : Prop where
  handlers : s'.handlers = s.handlers
  wasSet : s'.wasSet = s.wasSet
  handled : s'.handled = s.handled
  lookedUp : s'.lookedUp = s.lookedUp
  entries : s'.cndResponses = s.cndResponses
  arrays : s'.cndArrays = s.cndArrays
  awaited : ∀ c packet, (s'.calls c).awaited = some packet →
    (s.calls c).awaited = some packet ∨ packet.muid ∉ s.lookedUp
  registered : ∀ c, (s'.calls c).registered = false → (s.calls c).registered = false

omit [DecidableEq τ] [DecidableEq η] in
theorem Woken.moves (woken : s.Woken) {s' : Requests τ η} (moves : s.Moves s') : s'.Woken := by
  obtain ⟨handlers, wasSet, handled, lookedUp, entries, arrays, awaited, registered⟩ := moves
  refine ⟨fun muid member c packet waits same => ?_, fun h pack ptr sets there c packet waits same => ?_,
    fun muid member => ?_, fun h pack ptr sets => ?_, fun c unregistered => ?_⟩
  · rw [handled] at member
    rw [wasSet]
    rcases awaited c packet waits with before | unseen
    · exact woken.handled muid member c packet before same
    · exact absurd (same ▸ woken.looked muid member) unseen
  · rw [handlers] at sets
    rw [wasSet, entries]
    rcases awaited c packet waits with before | unseen
    · exact woken.setting h pack ptr sets (arrays ▸ there) c packet before same
    · exact absurd (same ▸ (woken.looking h pack ptr sets).1) unseen
  · rw [lookedUp]
    exact woken.looked muid (handled ▸ member)
  · rw [lookedUp, entries, arrays]
    exact woken.looking h pack ptr (handlers ▸ sets)
  · rw [wasSet, entries]
    exact woken.unregistered c (registered c unregistered)

omit [DecidableEq τ] [DecidableEq η] in
theorem Woken.of_handlers (woken : s.Woken) {s' : Requests τ η} (calls : s'.calls = s.calls)
    (wasSet : s'.wasSet = s.wasSet) (handled : s'.handled = s.handled) (lookedUp : s'.lookedUp = s.lookedUp)
    (entries : s'.cndResponses = s.cndResponses) (arrays : s'.cndArrays = s.cndArrays)
    (sets : ∀ h pack ptr, s'.handlers h = .set pack ptr → s.handlers h = .set pack ptr) : s'.Woken := by
  refine ⟨?_, fun h pack ptr later => ?_, ?_, fun h pack ptr later => ?_, ?_⟩
  · rw [calls, wasSet, handled]
    exact woken.handled
  · rw [calls, wasSet, entries, arrays]
    exact woken.setting h pack ptr (sets h pack ptr later)
  · rw [handled, lookedUp]
    exact woken.looked
  · rw [lookedUp, entries, arrays]
    exact woken.looking h pack ptr (sets h pack ptr later)
  · rw [calls, wasSet, entries]
    exact woken.unregistered

omit [DecidableEq η] in
theorem moves_goto {pc : CallPc}
    (awaited : ∀ packet, pc.awaited = some packet → (s.calls c).awaited = some packet ∨ packet.muid ∉ s.lookedUp)
    (registered : pc.registered = false → (s.calls c).registered = false) {s' : Requests τ η}
    (handlers : s'.handlers = s.handlers) (wasSet : s'.wasSet = s.wasSet) (handled : s'.handled = s.handled)
    (lookedUp : s'.lookedUp = s.lookedUp) (entries : s'.cndResponses = s.cndResponses)
    (arrays : s'.cndArrays = s.cndArrays) (calls : s'.calls = s.calls) : s.Moves (s'.goto c pc) := by
  refine ⟨handlers, wasSet, handled, lookedUp, entries, arrays, fun d packet waits => ?_, fun d unregistered => ?_⟩
  · by_cases same : d = c
    · rw [same, calls_goto] at waits
      exact same ▸ awaited packet waits
    · rw [calls_goto_of_ne s' pc same, calls] at waits
      exact .inl waits
  · by_cases same : d = c
    · rw [same, calls_goto] at unregistered
      exact same ▸ registered unregistered
    · rwa [calls_goto_of_ne s' pc same, calls] at unregistered

omit [DecidableEq η] in
/-- A call registers its waiter. No handler run has a good pointer for its number,
as it would have found the call unregistered. -/
theorem woken_register (woken : s.Woken) (registers : s.calls c = .register packet) : (s.advance c moved).Woken := by
  have unset := woken.unregistered c (by rw [registers]; rfl)
  have others : ∀ d, d ≠ c → (s.advance c moved).calls d = s.calls d := fun _ other => calls_advance_of_ne other
  have mine : (s.advance c moved).calls c = .wait packet := by
    simp only [advance, registers, calls_goto]
  have awaited : ∀ d q, ((s.advance c moved).calls d).awaited = some q → (s.calls d).awaited = some q := by
    intro d q waits
    by_cases same : d = c
    · rw [same, mine] at waits
      rw [same, registers]
      exact waits
    · rwa [others d same] at waits
  have elsewhere : ∀ h pack ptr, s.handlers h = .set pack ptr → ptr.array = s.cndArrays.values →
      pack.muid ≠ packet.muid := by
    intro h pack ptr sets there same
    rcases woken.setting h pack ptr sets there c packet (by rw [registers]; rfl) same.symm with set | entry
    · rw [unset.1] at set
      cases set
    · exact unset.2 _ entry
  have handlers : (s.advance c moved).handlers = s.handlers := by
    simp only [advance, registers, goto]
  have wasSet : (s.advance c moved).wasSet = s.wasSet := by
    simp only [advance, registers, goto]
  have entries : (s.advance c moved).cndResponses = mapSet s.cndResponses packet.muid c := by
    simp only [advance, registers, goto]
  have arrays : (s.advance c moved).cndArrays = s.cndArrays.set (mapIn s.cndResponses packet.muid) moved := by
    simp only [advance, registers, goto]
  have histories : (s.advance c moved).handled = s.handled ∧ (s.advance c moved).lookedUp = s.lookedUp := by
    simp only [advance, registers, goto, and_self]
  refine ⟨fun muid member d q waits => ?_, fun h pack ptr sets there d q waits same => ?_, fun muid member => ?_,
    fun h pack ptr sets => ?_, fun d unregistered => ?_⟩
  · rw [wasSet]
    exact woken.handled muid (histories.1 ▸ member) d q (awaited d q waits)
  · rw [handlers] at sets
    rw [arrays] at there
    have before := Arrays.current_of_set (woken.looking h pack ptr sets).2.taken there
    rw [wasSet, entries, Map.mapAt_mapSet_of_ne _ _ (elsewhere h pack ptr sets before)]
    exact woken.setting h pack ptr sets before d q (awaited d q waits) same
  · rw [histories.2]
    exact woken.looked muid (histories.1 ▸ member)
  · rw [handlers] at sets
    obtain ⟨seen, points⟩ := woken.looking h pack ptr sets
    rw [histories.2, entries, arrays]
    exact ⟨seen, points.set packet.muid c moved⟩
  · by_cases same : d = c
    · rw [same, mine] at unregistered
      cases unregistered
    · rw [others d same] at unregistered
      obtain ⟨before, absent⟩ := woken.unregistered d unregistered
      rw [wasSet, entries]
      refine ⟨before, fun muid => ?_⟩
      rw [Map.mapAt_mapSet]
      split
      · rw [ne_eq, Option.some.injEq]
        exact fun isC => same isC.symm
      · exact absent muid

omit [DecidableEq η] in
theorem woken_erase (woken : s.Woken) (erases : s.calls c = .erase packet) : (s.advance c moved).Woken := by
  -- A call erases its entry, with which all pointers go bad.
  have others : ∀ d, d ≠ c → (s.advance c moved).calls d = s.calls d := fun _ other => calls_advance_of_ne other
  have mine : (s.advance c moved).calls c = .returned packet := by
    simp only [advance, erases, calls_goto]
  have awaited : ∀ d q, ((s.advance c moved).calls d).awaited = some q → (s.calls d).awaited = some q := by
    intro d q waits
    by_cases same : d = c
    · rw [same, mine] at waits
      cases waits
    · rwa [others d same] at waits
  have entries : (s.advance c moved).cndResponses = mapErase s.cndResponses packet.muid := by
    simp only [advance, erases, goto]
  have arrays : (s.advance c moved).cndArrays = s.cndArrays.erase (mapIn s.cndResponses packet.muid) := by
    simp only [advance, erases, goto]
  have rest : (s.advance c moved).handlers = s.handlers ∧ (s.advance c moved).wasSet = s.wasSet ∧
      (s.advance c moved).handled = s.handled ∧ (s.advance c moved).lookedUp = s.lookedUp := by
    simp only [advance, erases, goto, and_self]
  obtain ⟨handlers, wasSet, handled, lookedUp⟩ := rest
  have kept : ∀ muid d, mapAt (mapErase s.cndResponses packet.muid) muid = some d → mapAt s.cndResponses muid = some d := by
    intro muid d found
    rw [Map.mapAt_eq_some_iff] at found ⊢
    exact (Map.eraseEntries_sublist packet.muid _).subset found
  refine ⟨fun muid member d q waits => ?_, fun h pack ptr sets there d q waits same => ?_, fun muid member => ?_,
    fun h pack ptr sets => ?_, fun d unregistered => ?_⟩
  · rw [wasSet]
    exact woken.handled muid (handled ▸ member) d q (awaited d q waits)
  · rw [handlers] at sets
    rw [arrays] at there
    obtain ⟨before, absent⟩ := Arrays.current_of_erase (woken.looking h pack ptr sets).2.taken there
    rw [wasSet, entries]
    refine (woken.setting h pack ptr sets before d q (awaited d q waits) same).imp_right fun entry => ?_
    have other : pack.muid ≠ packet.muid := by
      intro isMine
      rw [← isMine, mapIn, entry] at absent
      cases absent
    rw [Map.mapAt_mapErase_of_ne _ other]
    exact entry
  · rw [lookedUp]
    exact woken.looked muid (handled ▸ member)
  · rw [handlers] at sets
    obtain ⟨seen, points⟩ := woken.looking h pack ptr sets
    rw [lookedUp, entries, arrays]
    exact ⟨seen, points.erase packet.muid⟩
  · by_cases same : d = c
    · rw [same, mine] at unregistered
      cases unregistered
    · rw [others d same] at unregistered
      obtain ⟨before, missing⟩ := woken.unregistered d unregistered
      rw [wasSet, entries]
      exact ⟨before, fun muid found => missing muid (kept muid d found)⟩

omit [DecidableEq η] in
theorem woken_advance (woken : s.Woken) (registered : s.Registered (.advance c moved)) : (s.advance c moved).Woken := by
  cases pc : s.calls c with
  | idle => simpa only [advance, pc] using woken
  | read mine toUid =>
    -- The number is new, so no handler run looked it up.
    simp only [advance, pc]
    refine woken.moves (moves_goto (fun packet waits => .inr ?_) (fun _ => by rw [pc]; rfl) rfl rfl rfl rfl rfl rfl rfl)
    rw [CallPc.awaited, Option.some.injEq] at waits
    rw [← waits]
    exact registered (by rw [pc]; rfl)
  | push mine =>
    simp only [advance, pc]
    exact woken.moves (moves_goto (fun packet waits => .inl (by rw [pc]; exact waits)) (fun _ => by rw [pc]; rfl)
      rfl rfl rfl rfl rfl rfl rfl)
  | increment mine =>
    simp only [advance, pc]
    exact woken.moves (moves_goto (fun packet waits => .inl (by rw [pc]; exact waits)) (fun _ => by rw [pc]; rfl)
      rfl rfl rfl rfl rfl rfl rfl)
  | register mine => exact woken_register woken pc
  | wait mine =>
    simp only [advance, pc]
    split
    · exact woken.moves (moves_goto (fun packet waits => by cases waits) (fun missing => by cases missing)
        rfl rfl rfl rfl rfl rfl rfl)
    · exact woken
  | erase mine => exact woken_erase woken pc
  | returned mine => simpa only [advance, pc] using woken

omit [DecidableEq τ] in
theorem sets_handlerGoto {g : η} {pc : AnswerPc} {ptr : SlotPtr}
    (sets : (s.handlerGoto h pc).handlers g = .set pack ptr) :
    pc = .set pack ptr ∨ s.handlers g = .set pack ptr := by
  by_cases same : g = h
  · simp only [same, handlerGoto, Function.update_self] at sets
    exact .inl sets
  · simp only [handlerGoto, Function.update_of_ne same] at sets
    exact .inr sets

omit [DecidableEq τ] in
theorem Woken.ends (woken : s.Woken) {s' : Requests τ η} (calls : s'.calls = s.calls)
    (entries : s'.cndResponses = s.cndResponses) (arrays : s'.cndArrays = s.cndArrays)
    (handled : s'.handled = s.handled ++ [pack.muid])
    (lookedUp : ∀ muid ∈ s.lookedUp, muid ∈ s'.lookedUp) (seen : pack.muid ∈ s'.lookedUp)
    (kept : ∀ c, s.wasSet c = true → s'.wasSet c = true)
    (set : ∀ c packet, (s.calls c).awaited = some packet → packet.muid = pack.muid → s'.wasSet c = true)
    (unregistered : ∀ c, (s.calls c).registered = false → s'.wasSet c = false)
    (handlers : s'.handlers = s.handlers) : (s'.handlerGoto h .idle).Woken := by
  refine ⟨fun muid member c packet waits same => ?_, fun g other ptr sets there c packet waits same => ?_,
    fun muid member => ?_, fun g other ptr sets => ?_, fun c missing => ?_⟩
  · simp only [handlerGoto, handled, calls] at member waits ⊢
    rcases List.mem_append.mp member with before | now
    · exact kept c (woken.handled muid before c packet waits same)
    · exact set c packet waits (same.trans (List.mem_singleton.mp now))
  · rcases sets_handlerGoto sets with now | before
    · cases now
    · simp only [handlerGoto, calls, entries, arrays] at there waits ⊢
      exact (woken.setting g other ptr (handlers ▸ before) there c packet waits same).imp_left (kept c)
  · simp only [handlerGoto, handled] at member ⊢
    rcases List.mem_append.mp member with before | now
    · exact lookedUp muid (woken.looked muid before)
    · rw [List.mem_singleton.mp now]
      exact seen
  · rcases sets_handlerGoto sets with now | before
    · cases now
    · obtain ⟨looked, points⟩ := woken.looking g other ptr (handlers ▸ before)
      simp only [handlerGoto, entries, arrays]
      exact ⟨lookedUp _ looked, points⟩
  · simp only [handlerGoto, calls, entries] at missing ⊢
    exact ⟨unregistered c missing, (woken.unregistered c missing).2⟩

theorem woken_lookup (woken : s.Woken) (looks : s.handlers h = .lookup pack)
    (registered : s.Registered (.handle h)) : (s.handle h).Woken := by
  have entered := registered.1 pack (by rw [looks]; rfl)
  simp only [handle, looks]
  cases found : s.cndArrays.find s.cndResponses pack.muid with
  | none =>
    -- Without an entry all the calls under the number were set before.
    refine woken.ends rfl rfl rfl rfl (fun muid seen => List.mem_append_left _ seen)
      (List.mem_append_right _ (List.mem_singleton_self _)) (fun _ set => set) (fun c packet waits same => ?_)
      (fun c missing => (woken.unregistered c missing).1) rfl
    rcases entered c packet waits same with set | entry
    · exact set
    · rw [Arrays.find_eq_none.mp found] at entry
      cases entry
  | some ptr =>
    refine ⟨woken.handled, fun g other waiter sets there d packet waits same => ?_,
      fun muid member => List.mem_append_left _ (woken.looked muid member), fun g other waiter sets => ?_,
      woken.unregistered⟩
    · rcases sets_handlerGoto sets with now | before
      · cases now
        exact entered d packet waits same
      · exact woken.setting g other waiter before there d packet waits same
    · rcases sets_handlerGoto sets with now | before
      · cases now
        exact ⟨List.mem_append_right _ (List.mem_singleton_self _), Arrays.pointsTo_find found⟩
      · obtain ⟨seen, points⟩ := woken.looking g other waiter before
        exact ⟨List.mem_append_left _ seen, points⟩

theorem woken_set (woken : s.Woken) {ptr : SlotPtr} (sets : s.handlers h = .set pack ptr)
    (registered : s.Registered (.handle h)) : (s.handle h).Woken := by
  obtain ⟨seen, points⟩ := woken.looking h pack ptr sets
  have there : ptr.array = s.cndArrays.values := registered.2 ptr (by rw [sets]; rfl)
  obtain ⟨waiter, read, entry⟩ := points.value there
  have kept : ∀ c, s.wasSet c = true → Function.update s.wasSet waiter true c = true := by
    intro c set
    by_cases same : c = waiter
    · rw [same, Function.update_self]
    · rw [Function.update_of_ne same, set]
  simp only [handle, sets, read]
  refine woken.ends rfl rfl rfl rfl (fun _ looked => looked) seen kept (fun c packet waits same => ?_)
    (fun c missing => ?_) rfl
  · rcases woken.setting h pack ptr sets there c packet waits same with set | mine
    · exact kept c set
    · rw [entry, Option.some.injEq] at mine
      rw [← mine]
      exact Function.update_self ..
  · obtain ⟨unset, absent⟩ := woken.unregistered c missing
    have other : c ≠ waiter := by
      rintro rfl
      exact absent _ entry
    exact (Function.update_of_ne other ..).trans unset

theorem woken_handle (woken : s.Woken) (registered : s.Registered (.handle h)) : (s.handle h).Woken := by
  cases pc : s.handlers h with
  | idle => simpa only [handle, pc] using woken
  | store pack =>
    simp only [handle, pc]
    refine woken.of_handlers rfl rfl rfl rfl rfl rfl fun g other ptr sets => ?_
    rcases sets_handlerGoto sets with now | before
    · cases now
    · exact before
  | lookup pack => exact woken_lookup woken pc registered
  | set pack ptr => exact woken_set woken pc registered

omit [DecidableEq τ] [DecidableEq η] in
theorem received_ne_set {cliUid : UInt64} {undecoded : Undecoded} {other : Packet} {ptr : SlotPtr} :
    AnswerPc.received cliUid undecoded pack ≠ .set other ptr := by
  unfold AnswerPc.received
  split_ifs <;> simp

theorem woken_step (s : Requests τ η) (event : RequestEvent τ η) (woken : s.Woken) (registered : s.Registered event) :
    (s.step event).Woken := by
  cases event with
  | call c packet toUid =>
    simp only [step]
    split
    · next idle =>
      exact woken.moves (moves_goto (fun packet waits => by cases waits) (fun _ => by rw [idle]; rfl)
        rfl rfl rfl rfl rfl rfl rfl)
    · exact woken
  | advance c moved => exact woken_advance woken registered
  | send =>
    simp only [step, send]
    split
    · exact woken.of_handlers rfl rfl rfl rfl rfl rfl fun _ _ _ sets => sets
    · exact woken
  | answer inx reply =>
    simp only [step, answer]
    split
    · exact woken.of_handlers rfl rfl rfl rfl rfl rfl fun _ _ _ sets => sets
    · exact woken
  | pop h undecoded =>
    simp only [step]
    split
    · refine woken.of_handlers rfl rfl rfl rfl rfl rfl fun g other ptr sets => ?_
      rcases sets_handlerGoto sets with now | before
      · exact absurd now received_ne_set
      · exact before
    · exact woken
  | handle h => exact woken_handle woken registered

omit [DecidableEq τ] [DecidableEq η] in
theorem woken_start (uid : UInt64) : (start τ η uid).Woken := by
  refine ⟨fun _ member => ?_, fun _ _ _ sets => ?_, fun _ member => ?_, fun _ _ _ sets => ?_,
    fun c _ => ⟨rfl, fun muid found => ?_⟩⟩
  · cases member
  · cases sets
  · cases member
  · cases sets
  · cases found

/-- In every run whose handler runs find the calls under their answers' numbers
registered, and their pointers good, no answered request is left unwoken. -/
theorem answered_woken (uid : UInt64) (events : List (RequestEvent τ η))
    (registered : Runs.Along step Registered (start τ η uid) events) :
    Runs.Throughout step (fun s => ¬ s.Unwoken) (start τ η uid) events :=
  (Runs.throughout_of_preserved woken_step (woken_start uid) registered).mono fun _ woken => woken.not_unwoken

end Steps

def reply : ServerAnswer := ⟨packetInit [] 0 0 0, rfl, by decide⟩

def undecoded : Undecoded := ⟨packetInit [] 0 0 0, ⟨0, 0, 0⟩⟩

section Schedules

variable {τ η : Type}

def asks (c : τ) (packet : Packet) : List (RequestEvent τ η) :=
  let advance := RequestEvent.advance c ⟨true, true⟩
  [.call c packet 2, advance, advance, .send, .answer 0 reply, advance, advance]

def finds (h : η) : List (RequestEvent τ η) := [.pop h undecoded, .handle h, .handle h]

end Schedules

/-- The answer to a request comes after its waiter is registered, or before. -/
def answerLate (packet : Packet) : List (RequestEvent Unit Unit) :=
  asks () packet ++ finds () ++ [.handle (), .advance () ⟨false, false⟩, .advance () ⟨false, false⟩]

def answerEarly (packet : Packet) : List (RequestEvent Unit Unit) :=
  let advance := RequestEvent.advance () ⟨true, true⟩
  [.call () packet 2, advance, advance, .send, .answer 0 reply] ++ finds () ++ [advance, advance]

/-- Two requests are answered. A handler run has the pointer to the waiter of the
first when the second, which was woken, erases its entry. -/
def entryErased (packet : Packet) : List (RequestEvent Bool Bool) :=
  asks false packet ++ asks true packet ++ finds false ++ finds true ++
    [.handle true, .advance true ⟨false, false⟩, .advance true ⟨false, false⟩, .handle false]

theorem answered_woken_late :
    Runs.Throughout step (fun s => ¬ s.Unwoken) (start Unit Unit 1) (answerLate (packetInit [] 0 0 0)) :=
  answered_woken 1 (answerLate (packetInit [] 0 0 0)) (by decide)

/-- An answer that is handled before the waiter is registered finds no entry, and
one whose array is given back finds no waiter in it; the request that then waits
is not woken. -/
theorem answer_outruns_waiter :
    (Runs.run step (start Unit Unit 1) (answerEarly (packetInit [] 0 0 0))).Unwoken ∧
      (Runs.run step (start Bool Bool 1) (entryErased (packetInit [] 0 0 0))).Unwoken := by
  refine ⟨⟨(), _, rfl, ?_, rfl, rfl⟩, ⟨false, _, rfl, ?_, rfl, rfl⟩⟩
  · decide
  · decide

end Requests

end Dcn
