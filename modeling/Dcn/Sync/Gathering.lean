import Mathlib.Data.Finset.Card
import Mathlib.Data.List.Basic
import Mathlib.Logic.Function.Basic
import Dcn.Foundation.Runs

/-! asyncio_gather while its futures complete (asyncio.c, thr-pool.c).

The gatherer assigns four pointers in each future, one after the other, and
takes no lock for it. A worker that completes a future tests one of the pointers
and then follows all four. The completion of a future is known by the future:
one worker runs it, once.
-/

set_option autoImplicit false

namespace Dcn

inductive SharedField where
  | condMtx
  | done
  | isReady
  | isDone
  deriving DecidableEq, Repr

def SharedField.pos : SharedField → Nat
  | .condMtx => 0
  | .done => 1
  | .isReady => 2
  | .isDone => 3

/-- The step that the completion of a future takes next: the store of is_ready,
the signal, the test of shared_is_ready, and the steps on the shared fields. It
is skipped where the test finds NULL. -/
inductive CompletePc where
  | running
  | signal
  | test
  | sharedStore
  | sharedAdd
  | sharedLock
  | sharedBroadcast
  | sharedUnlock
  | skipped
  | finished
  deriving DecidableEq, Repr

def CompletePc.busy : CompletePc → Bool
  | .running | .skipped | .finished => false
  | _ => true

def CompletePc.shares : CompletePc → Bool
  | .sharedStore | .sharedAdd | .sharedLock | .sharedBroadcast | .sharedUnlock => true
  | _ => false

def CompletePc.counted : CompletePc → Bool
  | .sharedLock | .sharedBroadcast | .sharedUnlock | .finished => true
  | _ => false

/-- The number of assignments that the gatherer has made, the futures and their
completions, what it shares with them, and whether a worker followed a pointer
that was NULL. -/
structure Gathering (φ : Type) where
  assigned : Nat
  isReady : φ → Bool
  pc : φ → CompletePc
  done : Nat
  mutex : Option φ
  nullUsed : Bool

inductive GatherEvent (φ : Type) where
  | assign
  | advance (f : φ)
  deriving DecidableEq, Repr

namespace Gathering

variable {φ : Type} [DecidableEq φ]

def start (φ : Type) : Gathering φ := ⟨0, fun _ => false, fun _ => .running, 0, none, false⟩

def goto (s : Gathering φ) (f : φ) (pc : CompletePc) : Gathering φ := { s with pc := Function.update s.pc f pc }

section Futures

variable (futures : List φ) (s : Gathering φ)

def installed (f : φ) (field : SharedField) : Bool := 4 * futures.idxOf f + field.pos < s.assigned

def follow (f : φ) (field : SharedField) : Gathering φ :=
  { s with nullUsed := s.nullUsed || !s.installed futures f field }

def advance (f : φ) : Gathering φ :=
  match s.pc f with
  | .running => { s with isReady := Function.update s.isReady f true }.goto f .signal
  | .signal => s.goto f .test
  | .test => s.goto f (if s.installed futures f .isReady then .sharedStore else .skipped)
  | .sharedStore => (s.follow futures f .isReady).goto f .sharedAdd
  | .sharedAdd => { s.follow futures f .done with done := s.done + 1 }.goto f .sharedLock
  | .sharedLock =>
    if s.mutex = none then { s.follow futures f .condMtx with mutex := some f }.goto f .sharedBroadcast else s
  | .sharedBroadcast => (s.follow futures f .isDone).goto f .sharedUnlock
  | .sharedUnlock => { s.follow futures f .condMtx with mutex := none }.goto f .finished
  | .skipped | .finished => s

def step : GatherEvent φ → Gathering φ
  | .assign => if s.assigned < 4 * futures.length then { s with assigned := s.assigned + 1 } else s
  | .advance f => s.advance futures f

def Complete : Prop :=
  s.assigned = 4 * futures.length ∧ ∀ f ∈ futures, s.isReady f = true ∧ (s.pc f).busy = false

/-- `done` is the number of futures once all have completed, and never more, and
no worker followed NULL. -/
def Counts : Prop :=
  (s.Complete futures → s.done = futures.length) ∧ s.done ≤ futures.length ∧ s.nullUsed = false

/-- A completion tests shared_is_ready, and broadcasts to shared_is_done, when
they are assigned. -/
def Timely : GatherEvent φ → Prop
  | .assign => True
  | .advance f => f ∈ futures →
      (s.pc f = .test → s.installed futures f .isReady) ∧ (s.pc f = .sharedBroadcast → s.installed futures f .isDone)

instance : DecidablePred (s.Timely futures)
  | .assign => .isTrue trivial
  | .advance f => inferInstanceAs (Decidable (f ∈ futures →
      (s.pc f = .test → s.installed futures f .isReady) ∧ (s.pc f = .sharedBroadcast → s.installed futures f .isDone)))

def Unskipped : Prop := s.nullUsed = false ∧ ∀ f ∈ futures, s.pc f ≠ .skipped

/-- What holds whatever the order of the steps: a future is ready once its
completion has begun, a completion that follows the fields has found them, and
`done` counts the completions that added to it. -/
structure Tallied : Prop where
  ready : ∀ f, s.isReady f = true ↔ s.pc f ≠ .running
  bound : s.assigned ≤ 4 * futures.length
  found : ∀ f, (s.pc f).shares = true → s.installed futures f .isReady = true
  done : s.done = (futures.toFinset.filter fun f => (s.pc f).counted = true).card

end Futures

section Steps

variable {futures : List φ} {s : Gathering φ} {f : φ}

theorem installed_earlier {field : SharedField} (earlier : field.pos ≤ 2) (found : s.installed futures f .isReady = true) :
    s.installed futures f field = true := by
  have place : SharedField.isReady.pos = 2 := rfl
  rw [installed, decide_eq_true_iff] at found ⊢
  omega

theorem mem_of_installed (bound : s.assigned ≤ 4 * futures.length) {field : SharedField}
    (found : s.installed futures f field = true) : f ∈ futures := by
  rw [installed, decide_eq_true_iff] at found
  exact List.idxOf_lt_length_iff.mp (by omega)

def next (futures : List φ) (s : Gathering φ) (f : φ) : CompletePc :=
  match s.pc f with
  | .running => .signal
  | .signal => .test
  | .test => if s.installed futures f .isReady then .sharedStore else .skipped
  | .sharedStore => .sharedAdd
  | .sharedAdd => .sharedLock
  | .sharedLock => if s.mutex = none then .sharedBroadcast else .sharedLock
  | .sharedBroadcast => .sharedUnlock
  | .sharedUnlock => .finished
  | .skipped => .skipped
  | .finished => .finished

def followed (s : Gathering φ) (f : φ) : Option SharedField :=
  match s.pc f with
  | .sharedStore => some .isReady
  | .sharedAdd => some .done
  | .sharedLock => if s.mutex = none then some .condMtx else none
  | .sharedBroadcast => some .isDone
  | .sharedUnlock => some .condMtx
  | _ => none

/-! What a step of a completion does, field by field; the mutex does not count. -/

section Advance

variable (futures : List φ) (s : Gathering φ) (f : φ)

theorem advance_pc : (s.advance futures f).pc = Function.update s.pc f (s.next futures f) := by
  cases pc : s.pc f with
  | sharedLock =>
    simp only [advance, next, pc]
    split
    · rfl
    · rw [← pc, Function.update_eq_self]
  | skipped | finished =>
    simp only [advance, next, pc]
    rw [← pc, Function.update_eq_self]
  | _ => simp only [advance, next, pc, goto, follow]

theorem advance_assigned : (s.advance futures f).assigned = s.assigned := by
  unfold advance
  cases s.pc f with
  | sharedLock =>
    simp only
    split <;> rfl
  | _ => rfl

theorem advance_isReady :
    (s.advance futures f).isReady = if s.pc f = .running then Function.update s.isReady f true else s.isReady := by
  cases pc : s.pc f with
  | sharedLock =>
    simp only [advance, pc]
    split <;> simp [goto, follow]
  | _ => simp [advance, pc, goto, follow]

theorem advance_done : (s.advance futures f).done = if s.pc f = .sharedAdd then s.done + 1 else s.done := by
  cases pc : s.pc f with
  | sharedLock =>
    simp only [advance, pc]
    split <;> simp [goto, follow]
  | _ => simp [advance, pc, goto, follow]

theorem advance_nullUsed : (s.advance futures f).nullUsed =
    (s.nullUsed || (s.followed f).any fun field => !s.installed futures f field) := by
  cases pc : s.pc f with
  | sharedLock =>
    simp only [advance, followed, pc]
    split <;> simp [goto, follow]
  | _ => simp [advance, followed, pc, goto, follow]

end Advance

theorem next_ne_running : s.next futures f ≠ .running := by
  unfold next
  split <;> (try split) <;> simp

theorem installed_of_next (tallied : s.Tallied futures) (shares : (s.next futures f).shares = true) :
    s.installed futures f .isReady = true := by
  have found := tallied.found f
  cases pc : s.pc f with
  | test =>
    simp only [next, pc] at shares
    split at shares
    · next there => exact there
    · cases shares
  | running | signal | sharedUnlock | skipped | finished =>
    simp only [next, pc] at shares
    cases shares
  | _ => exact found (by rw [pc]; rfl)

theorem counted_next :
    (s.next futures f).counted = if s.pc f = .sharedAdd then true else (s.pc f).counted := by
  unfold next
  cases s.pc f with
  | test =>
    simp only
    split <;> rfl
  | sharedLock =>
    simp only
    split <;> rfl
  | _ => rfl

theorem card_counted_advance (tallied : s.Tallied futures) (f : φ) :
    (futures.toFinset.filter fun g => ((s.advance futures f).pc g).counted = true).card =
      (s.advance futures f).done := by
  rw [advance_done, advance_pc]
  by_cases adds : s.pc f = .sharedAdd
  · have member := mem_of_installed tallied.bound (tallied.found f (by rw [adds]; rfl))
    have more : (futures.toFinset.filter fun g => (Function.update s.pc f (s.next futures f) g).counted = true) =
        insert f (futures.toFinset.filter fun g => (s.pc g).counted = true) := by
      ext g
      by_cases here : g = f
      · subst here
        simp [counted_next, adds, member]
      · simp [here]
    have fresh : f ∉ futures.toFinset.filter fun g => (s.pc g).counted = true := by
      rw [Finset.mem_filter, adds]
      exact fun both => absurd both.2 Bool.false_ne_true
    rw [if_pos adds, more, Finset.card_insert_of_notMem fresh, tallied.done]
  -- Any other step moves the completion within the counted ones, or outside.
  · rw [if_neg adds, tallied.done]
    congr 1
    apply Finset.filter_congr
    intro g _
    by_cases here : g = f
    · subst here
      rw [Function.update_self, counted_next, if_neg adds]
    · rw [Function.update_of_ne here]

theorem tallied_advance (tallied : s.Tallied futures) (f : φ) : (s.advance futures f).Tallied futures := by
  have same : ∀ g field, (s.advance futures f).installed futures g field = s.installed futures g field := by
    intro g field
    rw [installed, installed, advance_assigned]
  constructor
  · intro g
    rw [advance_isReady, advance_pc]
    by_cases here : g = f
    · subst here
      rw [Function.update_self]
      refine iff_of_true ?_ next_ne_running
      split
      · exact Function.update_self ..
      · next started => exact (tallied.ready g).mpr started
    · rw [Function.update_of_ne here]
      split
      · rw [Function.update_of_ne here]
        exact tallied.ready g
      · exact tallied.ready g
  · rw [advance_assigned]
    exact tallied.bound
  · intro g shares
    rw [same]
    rw [advance_pc] at shares
    by_cases here : g = f
    · subst here
      rw [Function.update_self] at shares
      exact installed_of_next tallied shares
    · rw [Function.update_of_ne here] at shares
      exact tallied.found g shares
  · exact (card_counted_advance tallied f).symm

theorem tallied_step (event : GatherEvent φ) (tallied : s.Tallied futures) : (s.step futures event).Tallied futures := by
  cases event with
  | assign =>
    rw [step]
    split
    · next more =>
      refine ⟨tallied.ready, more, fun f shares => ?_, tallied.done⟩
      have found := tallied.found f shares
      rw [installed, decide_eq_true_iff] at found ⊢
      exact Nat.lt_succ_of_lt found
    · exact tallied
  | advance f => exact tallied_advance tallied f

theorem tallied_start (futures : List φ) : (start φ).Tallied futures where
  ready f := by simp [start]
  bound := Nat.zero_le _
  found f shares := by cases shares
  done := by
    rw [Finset.filter_false_of_mem fun f _ => by simp [start, CompletePc.counted]]
    rfl

theorem next_eq_skipped :
    s.next futures f = .skipped ↔ s.pc f = .test ∧ ¬ s.installed futures f .isReady = true ∨ s.pc f = .skipped := by
  cases pc : s.pc f with
  | test =>
    simp only [next, pc]
    split
    · next there => simp [there]
    · next missing => simp [missing]
  | sharedLock =>
    simp only [next, pc]
    split <;> simp
  | _ => simp [next, pc]

theorem follows_null (tallied : s.Tallied futures) :
    ((s.followed f).any fun field => !s.installed futures f field) = true ↔
      s.pc f = .sharedBroadcast ∧ ¬ s.installed futures f .isDone = true := by
  have earlier : (s.pc f).shares = true → ∀ field, SharedField.pos field ≤ 2 → s.installed futures f field = true :=
    fun shares field before => installed_earlier before (tallied.found f shares)
  cases pc : s.pc f with
  | sharedStore =>
    rw [pc] at earlier
    simp [followed, pc, earlier rfl .isReady (by decide)]
  | sharedAdd =>
    rw [pc] at earlier
    simp [followed, pc, earlier rfl .done (by decide)]
  | sharedUnlock =>
    rw [pc] at earlier
    simp [followed, pc, earlier rfl .condMtx (by decide)]
  | sharedLock =>
    rw [pc] at earlier
    simp only [followed, pc]
    split
    · simp [earlier rfl .condMtx (by decide)]
    · simp
  | sharedBroadcast => simp [followed, pc]
  | _ => simp [followed, pc]

/-- A step skips no future and follows no NULL exactly where it is timely. -/
theorem unskipped_step_iff (event : GatherEvent φ) (tallied : s.Tallied futures) (unskipped : s.Unskipped futures) :
    (s.step futures event).Unskipped futures ↔ s.Timely futures event := by
  obtain ⟨unused, kept⟩ := unskipped
  cases event with
  | assign =>
    refine iff_of_true ?_ trivial
    rw [step]
    split <;> exact ⟨unused, kept⟩
  | advance f =>
    have null := @follows_null _ _ _ _ f tallied
    have places : (∀ g ∈ futures, (s.advance futures f).pc g ≠ .skipped) ↔ (f ∈ futures → s.next futures f ≠ .skipped) := by
      rw [advance_pc]
      constructor
      · intro all member
        have own := all f member
        rwa [Function.update_self] at own
      · intro own g member
        by_cases here : g = f
        · subst here
          rw [Function.update_self]
          exact own member
        · rw [Function.update_of_ne here]
          exact kept g member
    rw [step, Unskipped, places, advance_nullUsed, unused, Bool.false_or, ← Bool.not_eq_true, null]
    constructor
    · rintro ⟨followed, moves⟩ member
      refine ⟨fun test => ?_, fun broadcast => ?_⟩
      · by_contra missing
        exact moves member (next_eq_skipped.mpr (.inl ⟨test, missing⟩))
      · by_contra missing
        exact followed ⟨broadcast, missing⟩
    · intro timely
      refine ⟨?_, fun member skips => ?_⟩
      · rintro ⟨broadcast, missing⟩
        have found := tallied.found f (by rw [broadcast]; rfl)
        exact missing ((timely (mem_of_installed tallied.bound found)).2 broadcast)
      · rcases next_eq_skipped.mp skips with ⟨test, missing⟩ | skipped
        · exact missing ((timely member).1 test)
        · exact kept f member skipped

theorem unskipped_of_step (event : GatherEvent φ) (after : (s.step futures event).Unskipped futures) :
    s.Unskipped futures := by
  cases event with
  | assign =>
    rw [step] at after
    split at after
    · exact after
    · exact after
  | advance f =>
    obtain ⟨unused, kept⟩ := after
    rw [step, advance_nullUsed] at unused
    refine ⟨(Bool.or_eq_false_iff.mp unused).1, fun g member skipped => kept g member ?_⟩
    rw [step, advance_pc]
    by_cases here : g = f
    · subst here
      rw [Function.update_self]
      exact next_eq_skipped.mpr (.inr skipped)
    · rwa [Function.update_of_ne here]

theorem counts_of_unskipped (distinct : futures.Nodup) (tallied : s.Tallied futures) (unskipped : s.Unskipped futures) :
    s.Counts futures := by
  refine ⟨fun complete => ?_, ?_, unskipped.1⟩
  · have all : ∀ f ∈ futures.toFinset, (s.pc f).counted = true := by
      intro f member
      have member := List.mem_toFinset.mp member
      obtain ⟨ready, ended⟩ := complete.2 f member
      have started := (tallied.ready f).mp ready
      have kept := unskipped.2 f member
      cases place : s.pc f <;> simp_all [CompletePc.busy, CompletePc.counted]
    rw [tallied.done, Finset.filter_true_of_mem all, List.toFinset_card_of_nodup distinct]
  · rw [tallied.done]
    exact (Finset.card_filter_le _ _).trans (List.toFinset_card_le futures)

theorem unskipped_of_counts (distinct : futures.Nodup) (tallied : s.Tallied futures) (complete : s.Complete futures)
    (counts : s.Counts futures) : s.Unskipped futures := by
  refine ⟨counts.2.2, fun f member skipped => ?_⟩
  have whole := counts.1 complete
  rw [tallied.done, ← List.toFinset_card_of_nodup distinct] at whole
  have counted := Finset.card_filter_eq_iff.mp whole f (List.mem_toFinset.mpr member)
  rw [skipped] at counted
  cases counted

end Steps

section Runs

variable {futures : List φ} {events : List (GatherEvent φ)}

theorem tallied_run (futures : List φ) (events : List (GatherEvent φ)) :
    Runs.Throughout (step futures) (Tallied futures) (start φ) events :=
  Runs.throughout_of_preserved_all (fun _ event tallied => tallied_step event tallied) (tallied_start futures) events

theorem unskipped_iff_timely : Runs.Throughout (step futures) (Unskipped futures) (start φ) events ↔
    Runs.Along (step futures) (Timely futures) (start φ) events :=
  Runs.throughout_iff_along_all (Tallied futures) (fun _ event tallied => tallied_step event tallied)
    (fun _ event tallied unskipped => unskipped_step_iff event tallied unskipped) (tallied_start futures)
    ⟨rfl, fun _ _ skipped => by cases skipped⟩

end Runs

/-- In every run whose completions find the fields that they follow, `done` is
the number of futures once all have completed. A run in which all complete has
no other completions, if `done` comes to that. -/
theorem gather_counts_iff (futures : List φ) (distinct : futures.Nodup) (events : List (GatherEvent φ)) :
    (Runs.Along (step futures) (Timely futures) (start φ) events →
      Runs.Throughout (step futures) (Counts futures) (start φ) events) ∧
    ((Runs.run (step futures) (start φ) events).Complete futures →
      Runs.Throughout (step futures) (Counts futures) (start φ) events →
        Runs.Along (step futures) (Timely futures) (start φ) events) := by
  have tallied := tallied_run futures events
  constructor
  · intro timely s member
    exact counts_of_unskipped distinct (tallied s member) (unskipped_iff_timely.mpr timely s member)
  · intro complete counts
    have last := unskipped_of_counts distinct tallied.last complete counts.last
    exact unskipped_iff_timely.mp (Runs.throughout_of_last_all (fun _ event after => unskipped_of_step event after) last)

/-- One future that completes after asyncio_gather has assigned its fields, and
one that completes before. -/
def completesLate : List (GatherEvent Unit) := List.replicate 4 .assign ++ List.replicate 8 (.advance ())

def completesEarly : List (GatherEvent Unit) := List.replicate 3 (.advance ()) ++ List.replicate 4 .assign

theorem gather_counts_late : Runs.Throughout (step [()]) (Counts [()]) (start Unit) completesLate :=
  (gather_counts_iff [()] (List.nodup_singleton ()) completesLate).1 (by decide)

theorem gather_misses_early : ¬ Runs.Throughout (step [()]) (Counts [()]) (start Unit) completesEarly := by
  intro counts
  have complete : (Runs.run (step [()]) (start Unit) completesEarly).Complete [()] := by
    refine ⟨by decide, fun f _ => ?_⟩
    cases f
    decide
  exact absurd (counts.last.1 complete) (by decide)

end Gathering

end Dcn
