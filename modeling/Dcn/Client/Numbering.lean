import Dcn.Client.Requests
import Mathlib.Data.Fintype.Basic

/-! The numbers that the calls of one session give their packets.

A call reads last_muid first and advances it after the packet is queued. As
long as no call reads while another is between the two, the calls count up, and
the entry a call makes in cnd_responses stays its own.
-/

set_option autoImplicit false

namespace Dcn

def CallPc.taking : CallPc → Option Packet
  | .push packet | .increment packet => some packet
  | _ => none

def CallPc.queued : CallPc → Option Packet
  | .increment packet | .register packet | .wait packet | .erase packet | .returned packet => some packet
  | _ => none

def CallPc.entered : CallPc → Option Packet
  | .wait packet | .erase packet => some packet
  | _ => none

def CallPc.reading : CallPc → Bool
  | .read _ _ => true
  | _ => false

def RequestEvent.caller {τ η : Type} : RequestEvent τ η → Option τ
  | .call c _ _ => some c
  | _ => none

namespace Requests

variable {τ η : Type} [DecidableEq τ]

/-- The packets on writeq carry different numbers, and a call that waits, or
that is about to erase its entry, finds it in cnd_responses. -/
structure Distinct (s : Requests τ η) : Prop where
  muids : (s.pushed.map fun e => e.2.muid).Nodup
  entries : ∀ c packet, (s.calls c).entered = some packet → mapAt s.cndResponses packet.muid = some c

/-- No call reads last_muid between the read and the increment of another. -/
def Alone (s : Requests τ η) : RequestEvent τ η → Prop
  | .advance c _ => (s.calls c).reading = true → ∀ d, (s.calls d).taking = none
  | _ => True

instance [Fintype τ] (s : Requests τ η) : DecidablePred s.Alone
  | .advance c _ => inferInstanceAs (Decidable ((s.calls c).reading = true → ∀ d, (s.calls d).taking = none))
  | .call _ _ _ | .send | .answer _ _ | .pop _ _ | .handle _ => .isTrue trivial

def numberAt (k : Nat) : UInt64 := UInt64.ofNat (k + 1)

theorem numberAt_succ (k : Nat) : numberAt (k + 1) = numberAt k + 1 := by
  simp [numberAt]

/-- The packets pushed are numbered in order, and last_muid is the next number
except while a call is about to advance it. -/
structure Numbered (s : Requests τ η) : Prop where
  muids : (s.pushed.map fun e => e.2.muid) = (List.range s.pushed.length).map numberAt
  owners : (s.pushed.map Prod.fst).Nodup
  own : ∀ c packet, (s.calls c).queued = some packet → (c, packet) ∈ s.pushed
  fresh : ∀ c, (s.calls c).queued = none → c ∉ s.pushed.map Prod.fst
  alone : ∀ c d, (s.calls c).taking.isSome → (s.calls d).taking.isSome → c = d
  number : ∀ c packet, (s.calls c).taking = some packet → packet.muid = s.lastMuid
  counted : (∀ c packet, s.calls c ≠ .increment packet) → s.lastMuid = numberAt s.pushed.length
  counting : ∀ c packet, s.calls c = .increment packet → s.lastMuid + 1 = numberAt s.pushed.length

section Steps

variable {s : Requests τ η} {c : τ} {moved : Moved}

@[simp] theorem calls_goto (s : Requests τ η) (c : τ) (pc : CallPc) : (s.goto c pc).calls c = pc :=
  Function.update_self _ _ _

theorem calls_goto_of_ne (s : Requests τ η) {c d : τ} (pc : CallPc) (other : d ≠ c) :
    (s.goto c pc).calls d = s.calls d :=
  Function.update_of_ne other _ _

theorem calls_advance_of_ne {d : τ} (other : d ≠ c) : (s.advance c moved).calls d = s.calls d := by
  cases pc : s.calls c with
  | wait packet =>
    simp only [advance, pc]
    split
    · exact calls_goto_of_ne _ _ other
    · rfl
  | idle => simp only [advance, pc]
  | returned packet => simp only [advance, pc]
  | _ =>
    simp only [advance, pc]
    exact calls_goto_of_ne _ _ other

theorem Numbered.still (numbered : s.Numbered) {s' : Requests τ η} {pc : CallPc}
    (calls : s'.calls = Function.update s.calls c pc) (lastMuid : s'.lastMuid = s.lastMuid)
    (pushed : s'.pushed = s.pushed) (queued : pc.queued = (s.calls c).queued)
    (before : (s.calls c).taking = none) (after : pc.taking = none) : s'.Numbered := by
  have taking : ∀ d, (s'.calls d).taking = (s.calls d).taking := by
    intro d
    rw [calls]
    by_cases same : d = c
    · rw [same, Function.update_self, before, after]
    · rw [Function.update_of_ne same]
  have queues : ∀ d, (s'.calls d).queued = (s.calls d).queued := by
    intro d
    rw [calls]
    by_cases same : d = c
    · rw [same, Function.update_self, queued]
    · rw [Function.update_of_ne same]
  have increments : ∀ d packet, s'.calls d = .increment packet ↔ s.calls d = .increment packet := by
    intro d packet
    rw [calls]
    by_cases same : d = c
    · rw [same, Function.update_self]
      constructor
      · rintro rfl
        cases after
      · intro at_increment
        rw [at_increment] at before
        cases before
    · rw [Function.update_of_ne same]
  refine ⟨?_, ?_, fun d packet => ?_, fun d => ?_, fun d e => ?_, fun d packet => ?_, fun none => ?_,
    fun d packet => ?_⟩
  · rw [pushed]
    exact numbered.muids
  · rw [pushed]
    exact numbered.owners
  · rw [queues, pushed]
    exact numbered.own d packet
  · rw [queues, pushed]
    exact numbered.fresh d
  · rw [taking, taking]
    exact numbered.alone d e
  · rw [taking, lastMuid]
    exact numbered.number d packet
  · rw [lastMuid, pushed]
    exact numbered.counted fun d packet at_increment => none d packet ((increments d packet).mpr at_increment)
  · rw [increments, lastMuid, pushed]
    exact numbered.counting d packet

theorem numbered_read (numbered : s.Numbered) {packet : Packet} {toUid : UInt64}
    (reads : s.calls c = .read packet toUid) (alone : s.Alone (.advance c moved)) : (s.advance c moved).Numbered := by
  have nobody : ∀ d, (s.calls d).taking = none := alone (by rw [reads]; rfl)
  have others : ∀ d, d ≠ c → (s.advance c moved).calls d = s.calls d := fun _ other => calls_advance_of_ne other
  have mine : ∃ filled : Packet, (s.advance c moved).calls c = .push filled ∧ filled.muid = s.lastMuid := by
    simp only [advance, reads, calls_goto, CallPc.push.injEq]
    exact ⟨_, rfl, rfl⟩
  obtain ⟨filled, at_push, number⟩ := mine
  have lastMuid : (s.advance c moved).lastMuid = s.lastMuid := by
    simp only [advance, reads, goto]
  have pushed : (s.advance c moved).pushed = s.pushed := by
    simp only [advance, reads, goto]
  have unqueued : c ∉ s.pushed.map Prod.fst := numbered.fresh c (by rw [reads]; rfl)
  have only_c : ∀ d, ((s.advance c moved).calls d).taking.isSome → d = c := by
    intro d takes
    by_contra other
    rw [others d other, nobody d] at takes
    cases takes
  refine ⟨by rw [pushed]; exact numbered.muids, by rw [pushed]; exact numbered.owners, fun d packet queued => ?_,
    fun d unqueued' => ?_, fun d e first second => (only_c d first).trans (only_c e second).symm,
    fun d packet takes => ?_, fun _ => ?_, fun d packet at_increment => ?_⟩
  · by_cases same : d = c
    · rw [same, at_push] at queued
      cases queued
    · rw [others d same] at queued
      exact pushed ▸ numbered.own d packet queued
  · by_cases same : d = c
    · rw [same, pushed]
      exact unqueued
    · rw [others d same] at unqueued'
      exact pushed ▸ numbered.fresh d unqueued'
  · have same : d = c := only_c d (by rw [takes]; rfl)
    rw [same, at_push, CallPc.taking, Option.some.injEq] at takes
    rw [← takes, lastMuid, number]
  · rw [lastMuid, pushed]
    refine numbered.counted fun d packet at_increment => ?_
    have takes := nobody d
    rw [at_increment] at takes
    cases takes
  · have same : d = c := only_c d (by rw [at_increment]; rfl)
    rw [same, at_push] at at_increment
    cases at_increment

theorem numbered_push (numbered : s.Numbered) {packet : Packet} (pushes : s.calls c = .push packet) :
    (s.advance c moved).Numbered := by
  have others : ∀ d, d ≠ c → (s.advance c moved).calls d = s.calls d := fun _ other => calls_advance_of_ne other
  have mine : (s.advance c moved).calls c = .increment packet := by
    simp only [advance, pushes, calls_goto]
  have lastMuid : (s.advance c moved).lastMuid = s.lastMuid := by
    simp only [advance, pushes, goto]
  have pushed : (s.advance c moved).pushed = s.pushed ++ [(c, packet)] := by
    simp only [advance, pushes, goto]
  have taking : ∀ d, ((s.advance c moved).calls d).taking = (s.calls d).taking := by
    intro d
    by_cases same : d = c
    · rw [same, mine, pushes]
      rfl
    · rw [others d same]
  -- The call that pushes is the one whose number comes next.
  have counted : s.lastMuid = numberAt s.pushed.length := by
    refine numbered.counted fun d other at_increment => ?_
    have same : d = c := numbered.alone d c (by rw [at_increment]; rfl) (by rw [pushes]; rfl)
    rw [same, pushes] at at_increment
    cases at_increment
  have number : packet.muid = numberAt s.pushed.length := by
    rw [← counted]
    exact numbered.number c packet (by rw [pushes]; rfl)
  refine ⟨?_, ?_, fun d other queued => ?_, fun d unqueued => ?_, fun d e => ?_, fun d other takes => ?_,
    fun none => ?_, fun d other at_increment => ?_⟩
  · rw [pushed, List.map_append, numbered.muids, List.length_append, List.length_singleton, List.range_succ,
      List.map_append]
    simp [number]
  · rw [pushed, List.map_append]
    refine List.Nodup.append numbered.owners (List.nodup_singleton c) ?_
    simpa using numbered.fresh c (by rw [pushes]; rfl)
  · rw [pushed, List.mem_append]
    by_cases same : d = c
    · rw [same, mine, CallPc.queued, Option.some.injEq] at queued
      rw [same, queued]
      exact .inr (List.mem_singleton_self _)
    · rw [others d same] at queued
      exact .inl (numbered.own d other queued)
  · by_cases same : d = c
    · rw [same, mine] at unqueued
      cases unqueued
    · rw [others d same] at unqueued
      rw [pushed, List.map_append, List.mem_append]
      rintro (before | now)
      · exact numbered.fresh d unqueued before
      · exact same (List.mem_singleton.mp now)
  · rw [taking, taking]
    exact numbered.alone d e
  · rw [taking] at takes
    rw [lastMuid]
    exact numbered.number d other takes
  · exact absurd mine (none c packet)
  · rw [lastMuid, pushed, counted, List.length_append, List.length_singleton, numberAt_succ]

theorem numbered_increment (numbered : s.Numbered) {packet : Packet} (increments : s.calls c = .increment packet) :
    (s.advance c moved).Numbered := by
  have others : ∀ d, d ≠ c → (s.advance c moved).calls d = s.calls d := fun _ other => calls_advance_of_ne other
  have mine : (s.advance c moved).calls c = .register packet := by
    simp only [advance, increments, calls_goto]
  have pushed : (s.advance c moved).pushed = s.pushed := by
    simp only [advance, increments, goto]
  have lastMuid : (s.advance c moved).lastMuid = s.lastMuid + 1 := by
    simp only [advance, increments, goto]
  have queues : ∀ d, ((s.advance c moved).calls d).queued = (s.calls d).queued := by
    intro d
    by_cases same : d = c
    · rw [same, mine, increments]
      rfl
    · rw [others d same]
  -- The call was the only one on the way to its increment.
  have nobody : ∀ d, ((s.advance c moved).calls d).taking = none := by
    intro d
    by_cases same : d = c
    · rw [same, mine]
      rfl
    · rw [others d same, ← Option.not_isSome_iff_eq_none]
      intro takes
      exact same (numbered.alone d c takes (by rw [increments]; rfl))
  refine ⟨by rw [pushed]; exact numbered.muids, by rw [pushed]; exact numbered.owners, fun d other => ?_,
    fun d => ?_, fun d e takes => ?_, fun d other takes => ?_, fun _ => ?_, fun d other at_increment => ?_⟩
  · rw [queues, pushed]
    exact numbered.own d other
  · rw [queues, pushed]
    exact numbered.fresh d
  · rw [nobody d] at takes
    cases takes
  · rw [nobody d] at takes
    cases takes
  · rw [lastMuid, pushed]
    exact numbered.counting c packet increments
  · have takes := nobody d
    rw [at_increment] at takes
    cases takes

theorem numbered_advance (numbered : s.Numbered) (alone : s.Alone (.advance c moved)) : (s.advance c moved).Numbered := by
  cases pc : s.calls c with
  | idle => simpa only [advance, pc] using numbered
  | read packet toUid => exact numbered_read numbered pc alone
  | push packet => exact numbered_push numbered pc
  | increment packet => exact numbered_increment numbered pc
  | register packet =>
    simp only [advance, pc]
    exact numbered.still rfl rfl rfl (by rw [pc]; rfl) (by rw [pc]; rfl) rfl
  | wait packet =>
    simp only [advance, pc]
    split
    · exact numbered.still rfl rfl rfl (by rw [pc]; rfl) (by rw [pc]; rfl) rfl
    · exact numbered
  | erase packet =>
    simp only [advance, pc]
    exact numbered.still rfl rfl rfl (by rw [pc]; rfl) (by rw [pc]; rfl) rfl
  | returned packet => simpa only [advance, pc] using numbered

end Steps

section Run

variable {s : Requests τ η}

omit [DecidableEq τ] in
theorem Numbered.congr (numbered : s.Numbered) {s' : Requests τ η} (calls : s'.calls = s.calls)
    (lastMuid : s'.lastMuid = s.lastMuid) (pushed : s'.pushed = s.pushed) : s'.Numbered where
  muids := by simpa only [pushed] using numbered.muids
  owners := by simpa only [pushed] using numbered.owners
  own := by simpa only [calls, pushed] using numbered.own
  fresh := by simpa only [calls, pushed] using numbered.fresh
  alone := by simpa only [calls] using numbered.alone
  number := by simpa only [calls, lastMuid] using numbered.number
  counted := by simpa only [calls, lastMuid, pushed] using numbered.counted
  counting := by simpa only [calls, lastMuid, pushed] using numbered.counting

omit [DecidableEq τ] in
theorem Numbered.nodup (numbered : s.Numbered) (few : s.pushed.length ≤ 2 ^ 64) :
    (s.pushed.map fun e => e.2.muid).Nodup := by
  rw [numbered.muids]
  refine List.Nodup.map_on (fun i first j second same => ?_) List.nodup_range
  rw [List.mem_range] at first second
  have values := congrArg UInt64.toNat same
  simp only [numberAt, UInt64.toNat_ofNat'] at values
  omega

omit [DecidableEq τ] in
theorem Numbered.same_call (numbered : s.Numbered) (few : s.pushed.length ≤ 2 ^ 64) {c d : τ} {p q : Packet}
    (first : (c, p) ∈ s.pushed) (second : (d, q) ∈ s.pushed) (muid : p.muid = q.muid) : c = d :=
  congrArg Prod.fst (List.inj_on_of_nodup_map (numbered.nodup few) first second muid)

variable [DecidableEq η]

theorem step_cases (s : Requests τ η) (event : RequestEvent τ η) :
    (∃ c packet toUid, event.caller = some c ∧ s.calls c = .idle ∧ s.step event = s.goto c (.read packet toUid)) ∨
    (∃ c moved, event = .advance c moved) ∨
    ((s.step event).calls = s.calls ∧ (s.step event).lastMuid = s.lastMuid ∧
      (s.step event).pushed = s.pushed ∧ (s.step event).cndResponses = s.cndResponses) := by
  cases event with
  | call c packet toUid =>
    by_cases idle : s.calls c = .idle
    · exact .inl ⟨c, packet, toUid, rfl, idle, by simp only [step, if_pos idle]⟩
    · refine .inr (.inr ?_)
      simp only [step, if_neg idle]
      exact ⟨trivial, trivial, trivial, trivial⟩
  | advance c moved => exact .inr (.inl ⟨c, moved, rfl⟩)
  | send =>
    refine .inr (.inr ?_)
    simp only [step, send]
    split <;> exact ⟨rfl, rfl, rfl, rfl⟩
  | answer inx reply =>
    refine .inr (.inr ?_)
    simp only [step, answer]
    split <;> exact ⟨rfl, rfl, rfl, rfl⟩
  | pop h undecoded =>
    refine .inr (.inr ?_)
    simp only [step]
    split <;> exact ⟨rfl, rfl, rfl, rfl⟩
  | handle h =>
    refine .inr (.inr ?_)
    simp only [step, handle]
    split
    · exact ⟨rfl, rfl, rfl, rfl⟩
    · exact ⟨rfl, rfl, rfl, rfl⟩
    · split <;> exact ⟨rfl, rfl, rfl, rfl⟩
    · split <;> exact ⟨rfl, rfl, rfl, rfl⟩

theorem numbered_step (event : RequestEvent τ η) (numbered : s.Numbered) (alone : s.Alone event) :
    (s.step event).Numbered := by
  rcases s.step_cases event with ⟨c, packet, toUid, _, idle, made⟩ | ⟨c, moved, rfl⟩ | ⟨calls, lastMuid, pushed, _⟩
  · rw [made]
    exact numbered.still rfl rfl rfl (by rw [idle]; rfl) (by rw [idle]; rfl) rfl
  · exact numbered_advance numbered alone
  · exact numbered.congr calls lastMuid pushed

omit [DecidableEq τ] [DecidableEq η] in
theorem queued_of_entered {pc : CallPc} {packet : Packet} (entered : pc.entered = some packet) :
    pc.queued = some packet := by
  cases pc <;> simp_all [CallPc.entered, CallPc.queued]

omit [DecidableEq τ] [DecidableEq η] in
theorem Numbered.other_muid (numbered : s.Numbered) (few : s.pushed.length ≤ 2 ^ 64) {c d : τ} {p q : Packet}
    (first : (s.calls c).queued = some p) (second : (s.calls d).queued = some q) (other : d ≠ c) :
    q.muid ≠ p.muid := by
  intro same
  exact other (numbered.same_call few (numbered.own d q second) (numbered.own c p first) same)

omit [DecidableEq η] in
theorem entries_advance (c : τ) (moved : Moved) (numbered : s.Numbered) (few : s.pushed.length ≤ 2 ^ 64)
    (entries : ∀ d packet, (s.calls d).entered = some packet → mapAt s.cndResponses packet.muid = some d)
    (d : τ) (packet : Packet) (entered : ((s.advance c moved).calls d).entered = some packet) :
    mapAt (s.advance c moved).cndResponses packet.muid = some d := by
  by_cases same : d = c
  · subst same
    cases pc : s.calls d with
    | register mine =>
      simp only [advance, pc, goto, Function.update_self] at entered ⊢
      cases entered
      exact Map.mapAt_mapSet_self _ _ _
    | wait mine =>
      simp only [advance, pc] at entered ⊢
      split at entered
      · next ready =>
        rw [if_pos ready]
        simp only [goto, Function.update_self] at entered ⊢
        cases entered
        exact entries d _ (by rw [pc]; rfl)
      · next waits =>
        rw [if_neg waits]
        exact entries d packet entered
    | erase mine =>
      simp only [advance, pc, goto, Function.update_self] at entered
      cases entered
    | _ =>
      simp only [advance, pc, goto, Function.update_self] at entered
      cases entered
  · have still : (s.advance c moved).calls d = s.calls d := calls_advance_of_ne same
    rw [still] at entered
    have before := entries d packet entered
    have queued := queued_of_entered entered
    cases pc : s.calls c with
    | register mine =>
      have differ := numbered.other_muid few (by rw [pc]; rfl) queued same
      simp only [advance, pc, goto]
      rw [Map.mapAt_mapSet_of_ne _ _ differ]
      exact before
    | erase mine =>
      have differ := numbered.other_muid few (by rw [pc]; rfl) queued same
      simp only [advance, pc, goto]
      rw [Map.mapAt_mapErase_of_ne _ differ]
      exact before
    | wait mine =>
      simp only [advance, pc]
      split
      · exact before
      · exact before
    | _ =>
      simp only [advance, pc, goto]
      exact before

theorem entries_step (event : RequestEvent τ η) (numbered : s.Numbered) (few : s.pushed.length ≤ 2 ^ 64)
    (entries : ∀ c packet, (s.calls c).entered = some packet → mapAt s.cndResponses packet.muid = some c) :
    ∀ c packet, ((s.step event).calls c).entered = some packet →
      mapAt (s.step event).cndResponses packet.muid = some c := by
  rcases s.step_cases event with ⟨d, mine, toUid, _, _, made⟩ | ⟨d, moved, rfl⟩ | ⟨calls, _, _, cndResponses⟩
  · rw [made]
    intro c packet entered
    by_cases same : c = d
    · rw [same, calls_goto] at entered
      cases entered
    · rw [calls_goto_of_ne s _ same] at entered
      exact entries c packet entered
  · exact entries_advance d moved numbered few entries
  · rw [calls, cndResponses]
    exact entries

theorem pushed_step (s : Requests τ η) (event : RequestEvent τ η) :
    s.pushed.length ≤ (s.step event).pushed.length := by
  rcases s.step_cases event with ⟨c, packet, toUid, _, _, made⟩ | ⟨c, moved, rfl⟩ | ⟨_, _, pushed, _⟩
  · rw [made]
    exact Nat.le_refl _
  · simp only [step]
    cases pc : s.calls c with
    | push packet => simp [advance, pc, goto]
    | wait packet =>
      simp only [advance, pc]
      split
      · exact Nat.le_refl _
      · exact Nat.le_refl _
    | _ => simp [advance, pc, goto]
  · rw [pushed]

theorem caller_of_busy (event : RequestEvent τ η) {c : τ} (busy : (s.step event).calls c ≠ .idle) :
    s.calls c ≠ .idle ∨ event.caller = some c := by
  rcases s.step_cases event with ⟨d, packet, toUid, caller, _, made⟩ | ⟨d, moved, rfl⟩ | ⟨calls, _⟩
  · by_cases same : c = d
    · exact .inr (same ▸ caller)
    · rw [made, calls_goto_of_ne s _ same] at busy
      exact .inl busy
  · by_cases same : c = d
    · subst same
      refine .inl fun idle => busy ?_
      simp only [step, advance, idle]
    · rw [step, calls_advance_of_ne same] at busy
      exact .inl busy
  · rw [calls] at busy
    exact .inl busy

theorem caller_mem_of_busy {events : List (RequestEvent τ η)} {c : τ}
    (busy : (Runs.run step s events).calls c ≠ .idle) :
    s.calls c ≠ .idle ∨ c ∈ events.filterMap RequestEvent.caller := by
  induction events generalizing s with
  | nil => exact .inl busy
  | cons event rest ih =>
    rcases ih busy with after | later
    · rcases caller_of_busy event after with before | now
      · exact .inl before
      · exact .inr (List.mem_filterMap.mpr ⟨event, List.mem_cons_self, now⟩)
    · obtain ⟨made, member, call⟩ := List.mem_filterMap.mp later
      exact .inr (List.mem_filterMap.mpr ⟨made, List.mem_cons_of_mem event member, call⟩)

theorem Numbered.pushed_le {uid : UInt64} {events : List (RequestEvent τ η)}
    (numbered : (Runs.run step (start τ η uid) events).Numbered) :
    (Runs.run step (start τ η uid) events).pushed.length ≤ (events.filterMap RequestEvent.caller).length := by
  rw [← List.length_map Prod.fst]
  refine numbered.owners.length_le_of_subset fun c member => ?_
  have busy : (Runs.run step (start τ η uid) events).calls c ≠ .idle := by
    intro idle
    exact numbered.fresh c (by rw [idle]; rfl) member
  rcases caller_mem_of_busy busy with before | made
  · exact absurd rfl before
  · exact made

omit [DecidableEq τ] [DecidableEq η] in
theorem numbered_start (uid : UInt64) : (start τ η uid).Numbered := by
  refine ⟨rfl, List.nodup_nil, fun _ _ queued => ?_, fun _ _ member => ?_, fun _ _ takes => ?_,
    fun _ _ takes => ?_, fun _ => rfl, fun _ _ at_increment => ?_⟩
  · cases queued
  · cases member
  · cases takes
  · cases takes
  · cases at_increment

/-- In every run of fewer than 2^64 calls where none reads last_muid between
the read and the increment of another, the packets on writeq carry different
numbers and no entry of cnd_responses is overwritten. -/
theorem muids_distinct (uid : UInt64) (events : List (RequestEvent τ η))
    (few : (events.filterMap RequestEvent.caller).length < 2 ^ 64)
    (alone : Runs.Along step Alone (start τ η uid) events) :
    Runs.Throughout step Distinct (start τ η uid) events := by
  have kept : Runs.Throughout step (fun s : Requests τ η => s.Numbered ∧ (s.pushed.length ≤ 2 ^ 64 →
      ∀ c packet, (s.calls c).entered = some packet → mapAt s.cndResponses packet.muid = some c))
      (start τ η uid) events := by
    refine Runs.throughout_of_preserved (fun s event kept alone => ?_)
      ⟨numbered_start uid, fun _ _ _ entered => ?_⟩ alone
    · refine ⟨numbered_step event kept.1 alone, fun after => ?_⟩
      have before := (pushed_step s event).trans after
      exact entries_step event kept.1 before (kept.2 before)
    · cases entered
  rw [Runs.throughout_iff_initial] at kept ⊢
  intro before initial
  obtain ⟨numbered, entries⟩ := kept before initial
  have bound : (Runs.run step (start τ η uid) before).pushed.length ≤ 2 ^ 64 := by
    have made := numbered.pushed_le
    have fewer := (initial.sublist.filterMap RequestEvent.caller).length_le
    omega
  exact ⟨numbered.nodup bound, entries bound⟩

end Run

def apart (packet : Packet) : List (RequestEvent Bool Unit) :=
  let advance := fun c => RequestEvent.advance c ⟨false, false⟩
  [.call false packet 2, .call true packet 2, advance false, advance false, advance false, advance true,
    advance false, advance true, advance true, advance true]

def together (packet : Packet) : List (RequestEvent Bool Unit) :=
  let advance := fun c => RequestEvent.advance c ⟨false, false⟩
  [.call false packet 2, .call true packet 2, advance false, advance true, advance false, advance true]

theorem muids_distinct_apart :
    Runs.Throughout step Distinct (start Bool Unit 1) (apart (packetInit [] 0 0 0)) :=
  muids_distinct 1 (apart (packetInit [] 0 0 0)) (by decide) (by decide)

/-- Two calls that read one after the other push packets with the same number. -/
theorem muid_repeats : ¬ (Runs.run step (start Bool Unit 1) (together (packetInit [] 0 0 0))).Distinct := by
  intro distinct
  exact absurd distinct.muids (by decide)

end Requests

end Dcn
