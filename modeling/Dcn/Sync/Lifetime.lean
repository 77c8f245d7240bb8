import Dcn.Foundation.Lifetime
import Dcn.Sync.Future

/-! Waiters and futures under the threads that free them (client.c, thr-pool.c).

The thread of a request registers its waiter, waits, frees the waiter and then
erases the entry; the threads that handle responses look the entry up and set
the waiter they find. A future is completed by the worker that has its task and
freed by the thread that awaits it. The waits themselves are those of Waiter and
Future.
-/

set_option autoImplicit false

namespace Dcn

/-- The step that the thread of a request takes next, from map_set at the end
of dcn_request to the end of wait_response. -/
inductive WaitPc where
  | register
  | call
  | waits
  | free
  | erase
  | returned
  deriving DecidableEq, Repr

/-- The waiter of a request, used by the thread of the request (`none`) and by
the threads that handle responses. Those that are `found` have the pointer from
cnd_responses and are about to call waiter_set. -/
structure RequestWaiter (τ : Type) where
  waiter : Waiter (Option τ)
  pc : WaitPc
  entry : Bool
  found : τ → Bool
  freed : Bool
  misused : Bool

/-- The thread of the request takes its next step, or returns from its block
unasked; or a thread takes its next step in handling a response. -/
inductive RequestWaiterEvent (τ : Type) where
  | request
  | wake
  | handle (t : τ)
  deriving DecidableEq, Repr

namespace RequestWaiter

variable {τ : Type} [DecidableEq τ]

def start (τ : Type) : RequestWaiter τ := ⟨.init (Option τ), .register, false, fun _ => false, false, false⟩

def request (s : RequestWaiter τ) : RequestWaiter τ :=
  match s.pc with
  | .register => { s with entry := true, pc := .call }
  | .call => { s with waiter := s.waiter.step (.wait none false), pc := .waits }
  | .waits => if s.waiter.pc none = .outside then { s with pc := .free } else { s with waiter := s.waiter.advance none }
  -- waiter_free leaves the entry in cnd_responses, for map_erase to take out.
  | .free => { s with freed := true, pc := .erase }
  | .erase => { s with entry := false, pc := .returned }
  | .returned => s

/-- A thread outside of waiter_set looks the entry up, or calls waiter_set on
what it found; every step inside touches the waiter. -/
def handle (s : RequestWaiter τ) (t : τ) : RequestWaiter τ :=
  if s.waiter.pc (some t) = .outside then
    if s.found t then
      { s with waiter := s.waiter.step (.set (some t)), found := Function.update s.found t false }
    else { s with found := Function.update s.found t s.entry }
  else { s with waiter := s.waiter.advance (some t), misused := s.misused || s.freed }

def step (s : RequestWaiter τ) : RequestWaiterEvent τ → RequestWaiter τ
  | .request => s.request
  | .wake => { s with waiter := s.waiter.wake none true }
  | .handle t => s.handle t

def uses (s : RequestWaiter τ) (t : τ) : Bool := s.found t || decide (s.waiter.pc (some t) ≠ .outside)

/-- The waiter is freed when no thread uses it, and found before it is freed. -/
def Spaced (s : RequestWaiter τ) : RequestWaiterEvent τ → Prop
  | .request => s.pc = .free → ∀ t, s.uses t = false
  | .handle t => s.uses t = false → s.entry = true → s.freed = false
  | .wake => True

instance [Fintype τ] (s : RequestWaiter τ) : DecidablePred s.Spaced
  | .request => inferInstanceAs (Decidable (s.pc = .free → ∀ t, s.uses t = false))
  | .handle t => inferInstanceAs (Decidable (s.uses t = false → s.entry = true → s.freed = false))
  | .wake => .isTrue trivial

def lifetime (s : RequestWaiter τ) : Lifetime.State τ := ⟨s.uses, s.freed, s.misused⟩

def action (s : RequestWaiter τ) : RequestWaiterEvent τ → Lifetime.Action τ
  | .request => if s.pc = .free then .free else .skip
  | .handle t =>
    if s.waiter.pc (some t) = .outside then
      if s.found t = false ∧ s.entry = true then .take t else .skip
    else .touch t (!(s.handle t).uses t)
  | .wake => .skip

variable (s : RequestWaiter τ)

theorem uses_request : s.request.uses = s.uses := by
  funext t
  have other : some t ≠ none := Option.some_ne_none t
  unfold request
  cases s.pc with
  | call =>
    simp only [uses, Waiter.step]
    split
    · simp only [Waiter.goto, Function.update_of_ne other]
    · rfl
  | waits =>
    simp only
    split
    · rfl
    · simp only [uses]
      rw [Waiter.pc_advance_of_ne s.waiter other]
  | _ => rfl

theorem lifetime_request : s.request.lifetime = Lifetime.step s.lifetime (s.action .request) := by
  rw [lifetime, uses_request, action, request]
  cases s.pc with
  | waits =>
    simp only
    split <;> rfl
  | _ => rfl

theorem uses_handle (t : τ) : (s.handle t).uses = Function.update s.uses t ((s.handle t).uses t) := by
  funext u
  by_cases same : u = t
  · subst same
    rw [Function.update_self]
  · have other : some u ≠ some t := fun equal => same (Option.some.inj equal)
    rw [Function.update_of_ne same, handle]
    split
    · next outside =>
      split
      · simp only [uses, Waiter.step, if_pos outside, Waiter.goto, Function.update_of_ne same, Function.update_of_ne other]
      · simp only [uses, Function.update_of_ne same]
    · simp only [uses, Waiter.pc_advance_of_ne s.waiter other]

theorem lifetime_handle (t : τ) : (s.handle t).lifetime = Lifetime.step s.lifetime (s.action (.handle t)) := by
  rw [lifetime, uses_handle, action]
  by_cases outside : s.waiter.pc (some t) = .outside
  · rw [if_pos outside]
    by_cases found : s.found t = true
    -- The call of waiter_set: the thread uses the waiter before and after it.
    · have kept : (s.handle t).uses t = s.uses t := by
        simp [handle, uses, outside, found, Waiter.step, Waiter.goto]
      rw [kept, Function.update_eq_self, if_neg (by simp [found])]
      simp only [handle, if_pos outside, if_pos found, Lifetime.step, lifetime]
    · rw [Bool.not_eq_true] at found
      have looked : (s.handle t).uses t = s.entry := by
        simp [handle, uses, outside, found]
      rw [looked]
      by_cases entry : s.entry = true
      · rw [if_pos ⟨found, entry⟩, entry]
        simp [handle, outside, found, Lifetime.step, lifetime]
      · have unused : s.uses t = s.entry := by
          simp [uses, outside, found, entry]
        rw [if_neg (fun both => entry both.2), ← unused, Function.update_eq_self]
        simp [handle, outside, found, Lifetime.step, lifetime]
  -- Inside waiter_set every step touches the waiter, the last one drops it.
  · have using_ : s.lifetime.held t = true := by
      simp [lifetime, uses, outside]
    rw [if_neg outside, Lifetime.step, if_pos using_, Bool.not_not]
    simp only [handle, if_neg outside, lifetime]

theorem lifetime_step (event : RequestWaiterEvent τ) :
    (s.step event).lifetime = Lifetime.step s.lifetime (s.action event) := by
  cases event with
  | request => exact lifetime_request s
  | wake =>
    simp only [step, action, Lifetime.step, lifetime, Lifetime.State.mk.injEq, and_self, and_true]
    funext t
    rw [uses, uses, Waiter.pc_wake_of_ne s.waiter true (Option.some_ne_none t)]
  | handle t => exact lifetime_handle s t

theorem clear_iff_spaced (event : RequestWaiterEvent τ) :
    Lifetime.Clear s.lifetime (s.action event) ↔ s.Spaced event := by
  cases event with
  | request =>
    rw [action]
    split
    · next at_free => exact ⟨fun clear _ => clear, fun spaced => spaced at_free⟩
    · next elsewhere => exact iff_of_true trivial fun at_free => absurd at_free elsewhere
  | wake => exact Iff.rfl
  | handle t =>
    rw [action]
    by_cases outside : s.waiter.pc (some t) = .outside
    · rw [if_pos outside]
      by_cases finds : s.found t = false ∧ s.entry = true
      · have unused : s.uses t = false := by
          simp [uses, finds.1, outside]
        rw [if_pos finds]
        exact ⟨fun fresh _ _ => fresh, fun spaced => spaced unused finds.2⟩
      · rw [if_neg finds]
        refine iff_of_true trivial fun unused entry => absurd ⟨?_, entry⟩ finds
        exact (Bool.or_eq_false_iff.mp unused).1
    · rw [if_neg outside]
      refine iff_of_true trivial fun unused => ?_
      simp [uses, outside] at unused

theorem never_misused_iff (τ : Type) [DecidableEq τ] (events : List (RequestWaiterEvent τ)) :
    (Runs.Along step Spaced (start τ) events → Runs.Throughout step (fun s => s.misused = false) (start τ) events) ∧
    ((∀ t, (Runs.run step (start τ) events).uses t = false) →
      Runs.Throughout step (fun s => s.misused = false) (start τ) events → Runs.Along step Spaced (start τ) events) :=
  Lifetime.never_misused_iff lifetime action (fun _ => True) lifetime_step (fun _ _ _ => trivial)
    (fun s event _ => clear_iff_spaced s event) trivial (Lifetime.settled_of_dropped rfl fun _ => rfl)

end RequestWaiter

/-- The step that the thread takes next that awaits a future: before or in the
wait of await_future, at __future_free, which it reaches with a copy of
out_block, and past it. -/
inductive AwaitPc where
  | call
  | waits
  | free
  | returned
  deriving DecidableEq, Repr

/-- A future, used by the thread that awaits it (`none`) and by the worker that
completes it, which may be any. Its task is `queued` until a worker has run it. -/
structure AwaitedFuture (τ : Type) where
  future : Future (Option τ)
  pc : AwaitPc
  queued : Bool
  freed : Bool
  misused : Bool

/-- The awaiting thread takes its next step, or returns from its block unasked;
a worker comes to the completion of the task, or takes its next step there; or
asyncio_gather has the future. -/
inductive AwaitedFutureEvent (τ : Type) where
  | await
  | wake
  | complete (t : τ)
  | work (t : τ) (choice : Nat)
  | install
  | gather (locks : Bool)
  deriving DecidableEq, Repr

namespace AwaitedFuture

variable {τ : Type} [DecidableEq τ]

def start (τ : Type) : AwaitedFuture τ := ⟨.init (Option τ), .call, true, false, false⟩

def await (s : AwaitedFuture τ) : AwaitedFuture τ :=
  match s.pc with
  | .call => { s with future := s.future.step (.await none), pc := .waits }
  | .waits =>
    if s.future.pc none = .outside then { s with pc := .free } else { s with future := s.future.advance none 0 }
  -- __future_free sets the shared fields to NULL.
  | .free => { s with future := { s.future with shared := none }, freed := true, pc := .returned }
  | .returned => s

def work (s : AwaitedFuture τ) (t : τ) (choice : Nat) : AwaitedFuture τ :=
  if s.future.pc (some t) = .outside then s
  else { s with future := s.future.advance (some t) choice, misused := s.misused || s.freed }

def step (s : AwaitedFuture τ) : AwaitedFutureEvent τ → AwaitedFuture τ
  | .await => s.await
  | .wake => { s with future := s.future.step (.wake none) }
  | .complete t => if s.queued then { s with future := s.future.step (.complete (some t)), queued := false } else s
  | .work t choice => s.work t choice
  | .install => { s with future := s.future.step .install }
  | .gather locks => { s with future := s.future.step (.gather locks) }

def uses (s : AwaitedFuture τ) (t : τ) : Bool := decide (s.future.pc (some t) ≠ .outside)

/-- The future is freed when its completion is through. -/
def Spaced (s : AwaitedFuture τ) : AwaitedFutureEvent τ → Prop
  | .await => s.pc = .free → ∀ t, s.uses t = false
  | _ => True

instance [Fintype τ] (s : AwaitedFuture τ) : DecidablePred s.Spaced
  | .await => inferInstanceAs (Decidable (s.pc = .free → ∀ t, s.uses t = false))
  | .wake | .complete _ | .work _ _ | .install | .gather _ => .isTrue trivial

def past (s : AwaitedFuture τ) : Bool :=
  match s.pc with
  | .call => false
  | .waits => s.future.pc none = .outside || s.future.pc none = .unlock
  | .free | .returned => true

/-- While the task is queued the future is not ready and no worker completes
it; the awaiting thread is past its test only on a ready future, and it alone
frees. -/
structure Tidy (s : AwaitedFuture τ) : Prop where
  pending : s.queued = true → s.future.isReady = false
  idle : s.queued = true → ∀ t, s.uses t = false
  outside : s.pc = .call → s.future.pc none = .outside
  awaits : Future.completing (s.future.pc none) = false
  ready : s.past = true → s.future.isReady = true
  freed : s.freed = true → s.pc = .returned

def lifetime (s : AwaitedFuture τ) : Lifetime.State τ := ⟨s.uses, s.freed, s.misused⟩

def action (s : AwaitedFuture τ) : AwaitedFutureEvent τ → Lifetime.Action τ
  | .await => if s.pc = .free then .free else .skip
  | .complete t => if s.queued then .take t else .skip
  | .work t choice =>
    if s.future.pc (some t) = .outside then .skip
    else .touch t (!(s.work t choice).uses t)
  | _ => .skip

section Users

variable (s : AwaitedFuture τ)

omit [DecidableEq τ] in
theorem uses_congr {s s' : AwaitedFuture τ} (same : ∀ t, s'.future.pc (some t) = s.future.pc (some t)) :
    s'.uses = s.uses := by
  funext t
  rw [uses, uses, same]

theorem uses_await : s.await.uses = s.uses := by
  apply uses_congr
  intro t
  have other : some t ≠ none := Option.some_ne_none t
  unfold await
  cases s.pc with
  | call =>
    simp only [Future.step]
    split
    · simp only [Future.goto, Function.update_of_ne other]
    · rfl
  | waits =>
    simp only
    split
    · rfl
    · exact Future.pc_advance_of_ne s.future 0 other
  | free | returned => rfl

theorem lifetime_await : s.await.lifetime = Lifetime.step s.lifetime (s.action .await) := by
  rw [lifetime, uses_await, action, await]
  cases s.pc with
  | waits =>
    simp only
    split <;> rfl
  | _ => rfl

theorem lifetime_complete (t : τ) : (s.step (.complete t)).lifetime = Lifetime.step s.lifetime (s.action (.complete t)) := by
  rw [step, action]
  split
  · rw [Lifetime.step, lifetime, Lifetime.State.mk.injEq]
    refine ⟨funext fun u => ?_, rfl, rfl⟩
    by_cases same : u = t
    · subst same
      rw [Function.update_self, uses, Future.step]
      split
      · simp [Future.goto]
      · next busy => exact decide_eq_true busy
    · have other : some u ≠ some t := fun equal => same (Option.some.inj equal)
      rw [Function.update_of_ne same, uses, Future.step]
      split
      · simp only [Future.goto, Function.update_of_ne other, lifetime, uses]
      · rfl
  · rfl

theorem lifetime_work (t : τ) (choice : Nat) :
    (s.work t choice).lifetime = Lifetime.step s.lifetime (s.action (.work t choice)) := by
  rw [action]
  by_cases outside : s.future.pc (some t) = .outside
  · rw [if_pos outside, work, if_pos outside]
    rfl
  · have using_ : s.lifetime.held t = true := decide_eq_true outside
    have moved : (s.work t choice).uses = Function.update s.uses t ((s.work t choice).uses t) := by
      funext u
      by_cases same : u = t
      · subst same
        rw [Function.update_self]
      · have other : some u ≠ some t := fun equal => same (Option.some.inj equal)
        rw [Function.update_of_ne same, work, if_neg outside, uses, uses]
        rw [Future.pc_advance_of_ne s.future choice other]
    rw [if_neg outside, Lifetime.step, if_pos using_, Bool.not_not, lifetime, Lifetime.State.mk.injEq]
    refine ⟨moved, ?_, ?_⟩
    · rw [work, if_neg outside]
      rfl
    · rw [work, if_neg outside]
      rfl

theorem lifetime_step (event : AwaitedFutureEvent τ) :
    (s.step event).lifetime = Lifetime.step s.lifetime (s.action event) := by
  cases event with
  | await => exact lifetime_await s
  | complete t => exact lifetime_complete s t
  | work t choice => exact lifetime_work s t choice
  | wake =>
    rw [step, Future.step]
    split <;> rfl
  | install =>
    rw [step, Future.step]
    split <;> rfl
  | gather locks => rfl

end Users

section Order

variable {s : AwaitedFuture τ}

omit [DecidableEq τ] in
theorem Tidy.still (tidy : s.Tidy) {f : Future (Option τ)} (places : f.pc = s.future.pc)
    (flag : f.isReady = s.future.isReady) : Tidy { s with future := f } where
  pending := by
    rw [flag]
    exact tidy.pending
  idle queued t := by
    rw [uses, places]
    exact tidy.idle queued t
  outside := by
    rw [places]
    exact tidy.outside
  awaits := by
    rw [places]
    exact tidy.awaits
  ready passed := by
    rw [flag]
    apply tidy.ready
    rw [past, places] at passed
    exact passed
  freed := tidy.freed

theorem tidy_start (τ : Type) [DecidableEq τ] : (start τ).Tidy where
  pending _ := rfl
  idle _ _ := rfl
  outside _ := rfl
  awaits := rfl
  ready passed := by cases passed
  freed gone := by cases gone

theorem Tidy.wait (tidy : s.Tidy) (place : s.pc = .waits) (inside : s.future.pc none ≠ .outside) :
    Tidy { s with future := s.future.advance none 0 } := by
  have fresh : s.freed ≠ true := fun gone => by simpa [place] using tidy.freed gone
  obtain ⟨awaits, leaves⟩ := Future.awaits_advance s.future 0 tidy.awaits
  have flag : (s.future.advance none 0).isReady = s.future.isReady := by
    rw [Future.isReady_advance]
    cases at_ : s.future.pc none with
    | store => simpa [at_, Future.completing] using tidy.awaits
    | _ => simp
  refine ⟨fun queued => ?_, fun queued t => ?_, by simp [place], awaits, fun later => ?_, fun gone => absurd gone fresh⟩
  · rw [flag]
    exact tidy.pending queued
  · rw [uses, Future.pc_advance_of_ne s.future 0 (Option.some_ne_none t)]
    exact tidy.idle queued t
  · rw [flag]
    simp only [past, place, Bool.or_eq_true, decide_eq_true_eq] at later
    rcases leaves inside later with ready | unlocks
    · exact ready
    · exact tidy.ready (by simp [past, place, unlocks])

theorem Tidy.await (tidy : s.Tidy) : s.await.Tidy := by
  cases place : s.pc with
  | call =>
    have users := uses_await s
    have outside := tidy.outside place
    have fresh : s.freed ≠ true := fun gone => by simpa [place] using tidy.freed gone
    have at_lock : s.await = { s with future := s.future.goto none .lock, pc := .waits } := by
      simp only [AwaitedFuture.await, place, Future.step, if_pos outside]
    rw [at_lock] at users ⊢
    refine ⟨tidy.pending, fun queued t => ?_, by simp, ?_, ?_, fun gone => absurd gone fresh⟩
    · rw [users]
      exact tidy.idle queued t
    · simp [Future.goto, Future.completing]
    · simp [past, Future.goto]
  | waits =>
    simp only [AwaitedFuture.await, place]
    split
    · next outside =>
      have fresh : s.freed ≠ true := fun gone => by simpa [place] using tidy.freed gone
      have ready := tidy.ready (by simp [past, place, outside])
      exact ⟨tidy.pending, tidy.idle, by simp, tidy.awaits, fun _ => ready, fun gone => absurd gone fresh⟩
    · next inside => simpa only [place] using tidy.wait place inside
  | free =>
    have ready := tidy.ready (by simp [past, place])
    simp only [AwaitedFuture.await, place]
    exact ⟨tidy.pending, tidy.idle, by simp, tidy.awaits, fun _ => ready, fun _ => rfl⟩
  | returned => simpa only [AwaitedFuture.await, place] using tidy

theorem Tidy.complete (tidy : s.Tidy) (t : τ) : (s.step (.complete t)).Tidy := by
  rw [step]
  split
  · next queued =>
    have outside : s.future.pc (some t) = .outside := by
      simpa [uses] using tidy.idle queued t
    have other : none ≠ some t := (Option.some_ne_none t).symm
    have own : (s.future.goto (some t) .store).pc none = s.future.pc none := by
      simp only [Future.goto, Function.update_of_ne other]
    rw [Future.step, if_pos outside]
    refine ⟨by simp, by simp, fun call => ?_, ?_, fun passed => ?_, tidy.freed⟩
    · rw [own]
      exact tidy.outside call
    · rw [own]
      exact tidy.awaits
    · apply tidy.ready
      rw [past, own] at passed
      exact passed
  · exact tidy

theorem Tidy.work (tidy : s.Tidy) (t : τ) (choice : Nat) : (s.work t choice).Tidy := by
  rw [AwaitedFuture.work]
  split
  · exact tidy
  · next inside =>
    have begun : s.queued ≠ true := by
      intro queued
      simpa [uses, inside] using tidy.idle queued t
    have own := Future.pc_advance_of_ne s.future choice (Option.some_ne_none t).symm
    refine ⟨fun queued => absurd queued begun, fun queued => absurd queued begun, fun call => ?_, ?_, fun passed => ?_,
      tidy.freed⟩
    · rw [own]
      exact tidy.outside call
    · rw [own]
      exact tidy.awaits
    · rw [past, own] at passed
      rw [Future.isReady_advance, tidy.ready passed, Bool.true_or]

theorem Tidy.step (tidy : s.Tidy) (event : AwaitedFutureEvent τ) : (s.step event).Tidy := by
  cases event with
  | await => exact tidy.await
  | complete t => exact tidy.complete t
  | work t choice => exact tidy.work t choice
  | wake =>
    rw [AwaitedFuture.step, Future.step]
    apply tidy.still
    · split <;> rfl
    · split <;> rfl
  | install =>
    rw [AwaitedFuture.step, Future.step]
    apply tidy.still
    · split <;> rfl
    · split <;> rfl
  | gather locks => exact tidy.still rfl rfl

/-- A completion begins before the free: the task is no longer queued then. -/
theorem Tidy.clear_iff_spaced (tidy : s.Tidy) (event : AwaitedFutureEvent τ) :
    Lifetime.Clear s.lifetime (s.action event) ↔ s.Spaced event := by
  cases event with
  | await =>
    rw [action]
    split
    · next at_free => exact ⟨fun clear _ => clear, fun spaced => spaced at_free⟩
    · next elsewhere => exact iff_of_true trivial fun at_free => absurd at_free elsewhere
  | complete t =>
    rw [action]
    split
    · next queued =>
      -- A future that is freed was ready, and its task had been run.
      refine iff_of_true (Bool.eq_false_iff.mpr fun gone => ?_) trivial
      have ready := tidy.ready (by rw [past, tidy.freed gone])
      rw [tidy.pending queued] at ready
      cases ready
    · exact Iff.rfl
  | work t choice =>
    rw [action]
    split <;> exact Iff.rfl
  | wake | install | gather locks => exact Iff.rfl

end Order

theorem never_misused_iff (τ : Type) [DecidableEq τ] (events : List (AwaitedFutureEvent τ)) :
    (Runs.Along step Spaced (start τ) events → Runs.Throughout step (fun s => s.misused = false) (start τ) events) ∧
    ((∀ t, (Runs.run step (start τ) events).uses t = false) →
      Runs.Throughout step (fun s => s.misused = false) (start τ) events → Runs.Along step Spaced (start τ) events) :=
  Lifetime.never_misused_iff lifetime action Tidy lifetime_step (fun _ event tidy => tidy.step event)
    (fun _ event tidy => tidy.clear_iff_spaced event) (tidy_start τ) (Lifetime.settled_of_dropped rfl fun _ => rfl)

end AwaitedFuture

namespace Lifetimes

def waitsLate : List (RequestWaiterEvent Unit) :=
  [.request, .request, .handle (), .handle (), .handle (), .handle ()] ++ List.replicate 7 .request

def awaitsLate : List (AwaitedFutureEvent Unit) :=
  [.complete (), .work () 0, .work () 0, .work () 0] ++ List.replicate 6 .await

/-- It tests, returns and frees between the store of is_ready and the wake-up. -/
def freesBetween : List (RequestWaiterEvent Unit) :=
  [.request, .request, .handle (), .handle (), .handle ()] ++ List.replicate 6 .request ++ [.handle ()]

def awaitsBetween : List (AwaitedFutureEvent Unit) :=
  [.complete (), .work () 0] ++ List.replicate 6 .await ++ [.work () 0]

end Lifetimes

end Dcn
