import Dcn.Foundation.Runs
import Dcn.Foundation.Wakeup
import Mathlib.Data.Fintype.Basic

/-! A waiter under any number of threads (asyncio.c).

Each atomic access and each call of the threads library is a step of its own.
cnd_wait is three: the release of the mutex together with the block, the return
from the block, and the lock again. A blocked thread may return for no reason.
waiter_set takes no lock.
-/

set_option autoImplicit false

namespace Dcn

/-- The step a thread takes next, in waiter_wait, in waiter_wait_for with a
timeout that is not negative (`timed`), or in waiter_set. A negative timeout
makes the call a waiter_wait. -/
inductive WaiterPc where
  | outside
  | lock (timed : Bool)
  | test (timed : Bool)
  | release (timed : Bool)
  | waiting (timed : Bool)
  | failed
  | load
  | clear
  | unlock (isReady : Bool)
  | store
  | broadcast
  deriving DecidableEq, Repr

structure Waiter (τ : Type) where
  isReady : Bool
  cmtx : Option τ
  wcond : Condition τ
  pc : τ → WaiterPc

/-- A thread calls waiter_wait or waiter_wait_for, or waiter_set; it takes its
next step; or it returns from the block unasked, where `success` is false after
a timeout or an error of cnd_timedwait. -/
inductive WaiterEvent (τ : Type) where
  | wait (t : τ) (timed : Bool)
  | set (t : τ)
  | advance (t : τ)
  | wake (t : τ) (success : Bool)
  deriving DecidableEq, Repr

namespace Waiter

variable {τ : Type} [DecidableEq τ]

def init (τ : Type) : Waiter τ := ⟨false, none, .init τ, fun _ => .outside⟩

def goto (w : Waiter τ) (t : τ) (pc : WaiterPc) : Waiter τ := { w with pc := Function.update w.pc t pc }

def advance (w : Waiter τ) (t : τ) : Waiter τ :=
  match w.pc t with
  | .outside => w
  | .lock timed => if w.cmtx = none then { w with cmtx := some t }.goto t (.test timed) else w
  | .test timed => w.goto t (if w.isReady then (if timed then .load else .clear) else .release timed)
  | .release timed => { w with cmtx := none, wcond := w.wcond.block t }.goto t (.waiting timed)
  -- The lock at the end of cnd_wait, once the thread is not blocked any more.
  | .waiting timed =>
    if t ∉ w.wcond.waiting ∧ w.cmtx = none then { w with cmtx := some t }.goto t (.test timed) else w
  | .failed => if w.cmtx = none then { w with cmtx := some t }.goto t .load else w
  | .load => w.goto t (if w.isReady then .clear else .unlock false)
  | .clear => { w with isReady := false }.goto t (.unlock true)
  | .unlock _ => { w with cmtx := none }.goto t .outside
  | .store => { w with isReady := true }.goto t .broadcast
  | .broadcast => { w with wcond := w.wcond.broadcast }.goto t .outside

def wake (w : Waiter τ) (t : τ) (success : Bool) : Waiter τ :=
  match w.pc t, success with
  | .waiting _, true => { w with wcond := w.wcond.release t }
  | .waiting true, false => { w with wcond := w.wcond.release t }.goto t .failed
  | _, _ => w

def step (w : Waiter τ) : WaiterEvent τ → Waiter τ
  | .wait t timed => if w.pc t = .outside then w.goto t (.lock timed) else w
  | .set t => if w.pc t = .outside then w.goto t .store else w
  | .advance t => w.advance t
  | .wake t success => w.wake t success

/-- A thread is blocked in waiter_wait on a waiter that is ready, and no
waiter_set is under way. -/
def Stranded (w : Waiter τ) : Prop :=
  w.isReady = true ∧ (∀ t, w.pc t ≠ .store ∧ w.pc t ≠ .broadcast) ∧
    ∃ t, w.pc t = .waiting false ∧ t ∈ w.wcond.waiting

/-- The last broadcast on a ready waiter finds no thread of waiter_wait between
its test of is_ready and its block. -/
def Timely (w : Waiter τ) : WaiterEvent τ → Prop
  | .advance t => w.pc t = .broadcast → w.isReady = true → (∀ u, w.pc u = .broadcast → u = t) →
      ∀ u, w.pc u ≠ .release false
  | _ => True

instance [Fintype τ] (w : Waiter τ) : Decidable w.Stranded :=
  inferInstanceAs (Decidable (w.isReady = true ∧ (∀ t, w.pc t ≠ .store ∧ w.pc t ≠ .broadcast) ∧
    ∃ t, w.pc t = .waiting false ∧ t ∈ w.wcond.waiting))

instance [Fintype τ] (w : Waiter τ) : DecidablePred w.Timely
  | .advance t => inferInstanceAs (Decidable (w.pc t = .broadcast → w.isReady = true →
      (∀ u, w.pc u = .broadcast → u = t) → ∀ u, w.pc u ≠ .release false))
  | .wait _ _ | .set _ | .wake _ _ => .isTrue trivial

def stage : WaiterPc → Wakeup.Stage
  | .release false => .checked
  | .waiting false => .waiting
  | .broadcast => .notifying
  | _ => .outside

def wakeup (w : Waiter τ) : Wakeup.State τ := Wakeup.observe stage w.isReady w.wcond w.pc

def advanceAction (t : τ) : WaiterPc → Wakeup.Action τ
  | .test false => .check t
  | .release false => .block t
  | .clear => .lower
  | .store => .raise t
  | .broadcast => .notify t fun _ => true
  | _ => .skip

def action (w : Waiter τ) : WaiterEvent τ → Wakeup.Action τ
  | .advance t => advanceAction t (w.pc t)
  | .wake t true => if w.pc t = .waiting false then .wake t else .skip
  | _ => .skip

section Steps

variable (w : Waiter τ) {t u : τ}

theorem pc_advance_of_ne (other : u ≠ t) : (w.advance t).pc u = w.pc u := by
  unfold advance
  cases w.pc t with
  | outside => rfl
  | lock timed | failed | waiting timed =>
    simp only
    split
    · exact Function.update_of_ne other ..
    · rfl
  | _ => exact Function.update_of_ne other ..

theorem pc_wake_of_ne (success : Bool) (other : u ≠ t) : (w.wake t success).pc u = w.pc u := by
  unfold wake
  split
  · rfl
  · exact Function.update_of_ne other ..
  · rfl

theorem wakeup_advance : (w.advance t).wakeup = Wakeup.step w.wakeup (advanceAction t (w.pc t)) := by
  cases pc : w.pc t with
  | outside => simp only [advance, pc, advanceAction, Wakeup.step]
  | lock timed =>
    simp only [advance, pc, advanceAction, Wakeup.step]
    split
    · exact Wakeup.observe_skip stage (by rw [pc]; rfl)
    · rfl
  | test timed =>
    cases timed with
    | true =>
      simp only [advance, pc, advanceAction, Wakeup.step]
      refine Wakeup.observe_skip stage ?_
      rw [pc]
      cases w.isReady <;> rfl
    | false =>
      simp only [advance, pc, advanceAction]
      cases ready : w.isReady with
      | true =>
        rw [if_pos rfl, Wakeup.step, if_pos (show w.wakeup.flag = true from ready)]
        exact Wakeup.observe_skip stage (by rw [pc]; rfl)
      | false =>
        rw [if_neg Bool.false_ne_true]
        exact Wakeup.observe_check stage ready rfl
  | release timed =>
    simp only [advance, pc]
    cases timed with
    | true =>
      have others : ∀ u, u ≠ t → (u ∈ (w.wcond.block t).waiting ↔ u ∈ w.wcond.waiting) := by
        intro u other
        rw [Condition.mem_block]
        exact or_iff_left other
      exact Wakeup.observe_still stage others (by rw [pc]; rfl)
    | false => exact Wakeup.observe_block stage (by rw [pc]; rfl) rfl
  | waiting timed =>
    simp only [advance, pc, advanceAction, Wakeup.step]
    split
    · next awake =>
      refine Wakeup.observe_skip stage ?_
      rw [pc]
      cases timed <;> simp [goto, stage, Wakeup.phaseOf, awake.1]
    · rfl
  | failed =>
    simp only [advance, pc, advanceAction, Wakeup.step]
    split
    · exact Wakeup.observe_skip stage (by rw [pc]; rfl)
    · rfl
  | load =>
    simp only [advance, pc, advanceAction, Wakeup.step]
    refine Wakeup.observe_skip stage ?_
    rw [pc]
    cases w.isReady <;> rfl
  | clear =>
    simp only [advance, pc]
    exact Wakeup.observe_still stage (fun _ _ => Iff.rfl) (by rw [pc]; rfl)
  | unlock isReady =>
    simp only [advance, pc, advanceAction, Wakeup.step]
    exact Wakeup.observe_skip stage (by rw [pc]; rfl)
  | store =>
    simp only [advance, pc]
    exact Wakeup.observe_raise stage rfl
  | broadcast =>
    simp only [advance, pc]
    exact Wakeup.observe_notify stage _ (by simp [goto]) rfl

theorem wakeup_wake (success : Bool) :
    (w.wake t success).wakeup = Wakeup.step w.wakeup (w.action (.wake t success)) := by
  have others : ∀ u, u ≠ t → (u ∈ (w.wcond.release t).waiting ↔ u ∈ w.wcond.waiting) := by
    intro u other
    rw [Condition.mem_release]
    exact and_iff_left other
  by_cases waits : w.pc t = .waiting false
  · cases success with
    | true =>
      simp only [wake, waits, action, ↓reduceIte]
      exact Wakeup.observe_wake stage (by rw [waits]; rfl)
    | false => simp only [wake, waits, action, Wakeup.step]
  · by_cases timed : w.pc t = .waiting true
    · cases success with
      | true =>
        -- Only the condition variable changes, and not for a thread that counts.
        simp only [wake, timed, action, Wakeup.step]
        have stays : Function.update w.pc t (.waiting true) = w.pc := by
          rw [← timed, Function.update_eq_self]
        have still := @Wakeup.observe_still _ _ _ stage w.isReady _ _ w.pc t (.waiting true) others
          (by rw [timed]; rfl)
        rw [stays] at still
        exact still
      | false =>
        simp only [wake, timed, action, Wakeup.step]
        exact Wakeup.observe_still stage others (by rw [timed]; rfl)
    · have unmoved : w.wake t success = w := by
        unfold wake
        split
        · next either at_wait =>
          cases either
          · exact absurd at_wait waits
          · exact absurd at_wait timed
        · next _ at_wait => exact absurd at_wait timed
        · rfl
      have skipped : w.action (.wake t success) = .skip := by
        cases success <;> simp [action, waits]
      rw [unmoved, skipped, Wakeup.step]

theorem wakeup_step (event : WaiterEvent τ) : (w.step event).wakeup = Wakeup.step w.wakeup (w.action event) := by
  cases event with
  | wait t timed =>
    simp only [step, action, Wakeup.step]
    split
    · next outside => exact Wakeup.observe_skip stage (by rw [outside]; rfl)
    · rfl
  | set t =>
    simp only [step, action, Wakeup.step]
    split
    · next outside => exact Wakeup.observe_skip stage (by rw [outside]; rfl)
    · rfl
  | advance t => exact wakeup_advance w
  | wake t success => exact wakeup_wake w success

end Steps

section Stages

variable {pc : WaiterPc}

theorem stage_eq_checked : stage pc = .checked ↔ pc = .release false := by
  cases pc with
  | release timed => cases timed <;> simp [stage]
  | waiting timed => cases timed <;> simp [stage]
  | _ => simp [stage]

theorem stage_eq_waiting : stage pc = .waiting ↔ pc = .waiting false := by
  cases pc with
  | release timed => cases timed <;> simp [stage]
  | waiting timed => cases timed <;> simp [stage]
  | _ => simp [stage]

theorem stage_eq_notifying : stage pc = .notifying ↔ pc = .broadcast := by
  cases pc with
  | release timed => cases timed <;> simp [stage]
  | waiting timed => cases timed <;> simp [stage]
  | _ => simp [stage]

end Stages

variable {w : Waiter τ}

theorem Stranded.wakeup (stranded : w.Stranded) : Wakeup.Stranded w.wakeup := by
  obtain ⟨ready, quiet, t, waits, blocked⟩ := stranded
  refine ⟨ready, fun u notifies => ?_, t, ?_⟩
  · exact (quiet u).2 (stage_eq_notifying.mp (Wakeup.phaseOf_eq_notifying.mp notifies))
  · exact Wakeup.phaseOf_eq_blocked.mpr ⟨stage_eq_waiting.mpr waits, blocked⟩

/-- A broadcast reaches all that are blocked, so only a thread about to block
can be missed. -/
theorem Timely.wakeup {event : WaiterEvent τ} (timely : w.Timely event) : Wakeup.Timely w.wakeup (w.action event) := by
  cases event with
  | advance t =>
    cases pc : w.pc t with
    | broadcast =>
      simp only [action, pc, advanceAction]
      intro ready last u _
      refine ⟨fun checked => ?_, fun _ => rfl⟩
      have alone : ∀ v, w.pc v = .broadcast → v = t := by
        intro v notifies
        exact last v (Wakeup.phaseOf_eq_notifying.mpr (stage_eq_notifying.mpr notifies))
      exact timely pc ready alone u (stage_eq_checked.mp (Wakeup.phaseOf_eq_checked.mp checked))
    | test timed => cases timed <;> simp [action, pc, advanceAction, Wakeup.Timely]
    | release timed => cases timed <;> simp [action, pc, advanceAction, Wakeup.Timely]
    | _ => simp [action, pc, advanceAction, Wakeup.Timely]
  | wake t success =>
    cases success with
    | true => by_cases waits : w.pc t = .waiting false <;> simp [action, waits, Wakeup.Timely]
    | false => trivial
  | _ => trivial

theorem covered_init (τ : Type) [DecidableEq τ] : Wakeup.Covered (init τ).wakeup := by
  intro up
  cases up

theorem never_stranded {events : List (WaiterEvent τ)} (timely : Runs.Along step Timely (init τ) events) :
    Runs.Throughout step (fun w => ¬ w.Stranded) (init τ) events := by
  refine (Wakeup.never_stranded wakeup action wakeup_step (covered_init τ) ?_).mono
    fun w awake stranded => awake stranded.wakeup
  exact timely.mono fun w event timely => timely.wakeup

end Waiter

end Dcn
