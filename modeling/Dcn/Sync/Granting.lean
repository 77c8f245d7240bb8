import Dcn.Foundation.Locking
import Dcn.Sync.Waiter

/-! How often a waiter lets threads return (asyncio.c).

A thread that finds the flag up has the return granted and clears the flag in a
later step. Between the two it holds the mutex, so nobody else is granted the
same store of a waiter_set.
-/

set_option autoImplicit false

namespace Dcn

namespace WaiterPc

def locked : WaiterPc → Bool
  | .test _ | .release _ | .load | .clear | .unlock _ => true
  | .outside | .lock _ | .waiting _ | .failed | .store | .broadcast => false

end WaiterPc

def WaiterEvent.thread {τ : Type} : WaiterEvent τ → τ
  | .wait t _ | .set t | .advance t | .wake t _ => t

namespace Waiter

variable {τ : Type} [DecidableEq τ]

def passes (w : Waiter τ) : WaiterEvent τ → Bool
  | .advance t => w.pc t = .test false ∧ w.isReady = true
  | _ => false

def decides (w : Waiter τ) : WaiterEvent τ → Bool
  | .advance t => w.pc t = .load ∧ w.isReady = true
  | _ => false

def stores (w : Waiter τ) : WaiterEvent τ → Bool
  | .advance t => w.pc t = .store
  | _ => false

end Waiter

/-- A waiter, with the calls of waiter_wait past their wait, the calls of
waiter_wait_for that return true and the calls of waiter_set that have stored. -/
structure Tally (τ : Type) where
  waiter : Waiter τ
  passed : Nat
  decided : Nat
  stored : Nat

namespace Tally

variable {τ : Type} [DecidableEq τ]

def init (τ : Type) : Tally τ := ⟨.init τ, 0, 0, 0⟩

def step (s : Tally τ) (e : WaiterEvent τ) : Tally τ where
  waiter := s.waiter.step e
  passed := s.passed + (s.waiter.passes e).toNat
  decided := s.decided + (s.waiter.decides e).toNat
  stored := s.stored + (s.waiter.stores e).toNat

def granted (s : Tally τ) : Nat := s.passed + s.decided

structure Sound (s : Tally τ) : Prop where
  exclusive : Mutex.Exclusive WaiterPc.locked s.waiter.cmtx s.waiter.pc
  bounded : s.granted ≤ s.stored
  pending : s.waiter.isReady = true → (∀ t, s.waiter.pc t ≠ .clear) → s.granted < s.stored

end Tally

namespace Waiter

variable {τ : Type} [DecidableEq τ] {w : Waiter τ} {t : τ}

theorem exclusive_advance (exclusive : Mutex.Exclusive WaiterPc.locked w.cmtx w.pc) :
    Mutex.Exclusive WaiterPc.locked (w.advance t).cmtx (w.advance t).pc := by
  cases pc : w.pc t with
  | outside => simpa only [advance, pc] using exclusive
  | lock _ | failed =>
    simp only [advance, pc]
    split
    · next free =>
      rw [free] at exclusive
      exact exclusive.acquire
    · exact exclusive
  | waiting timed =>
    simp only [advance, pc]
    split
    · next free =>
      rw [free.2] at exclusive
      exact exclusive.acquire
    · exact exclusive
  | test _ | load | clear =>
    simp only [advance, pc, goto]
    exact exclusive.move fun _ => by rw [pc]; rfl
  | release _ | unlock _ =>
    simp only [advance, pc, goto]
    exact exclusive.release (by rw [pc]; rfl) rfl
  | store | broadcast =>
    simp only [advance, pc, goto]
    exact exclusive.move fun held => by cases held

theorem exclusive_wake {success : Bool} (exclusive : Mutex.Exclusive WaiterPc.locked w.cmtx w.pc) :
    Mutex.Exclusive WaiterPc.locked (w.wake t success).cmtx (w.wake t success).pc := by
  unfold wake
  split
  · exact exclusive
  · exact exclusive.move fun held => by cases held
  · exact exclusive

theorem exclusive_step (e : WaiterEvent τ) (exclusive : Mutex.Exclusive WaiterPc.locked w.cmtx w.pc) :
    Mutex.Exclusive WaiterPc.locked (w.step e).cmtx (w.step e).pc := by
  cases e with
  | wait t timed =>
    simp only [step]
    split
    · exact exclusive.move fun held => by cases held
    · exact exclusive
  | set t =>
    simp only [step]
    split
    · exact exclusive.move fun held => by cases held
    · exact exclusive
  | advance t => exact exclusive_advance exclusive
  | wake t success => exact exclusive_wake exclusive

theorem step_other {e : WaiterEvent τ} {u : τ} (other : u ≠ e.thread) : (w.step e).pc u = w.pc u := by
  have moved (v : Waiter τ) (place : WaiterPc) : (v.goto e.thread place).pc u = v.pc u :=
    Function.update_of_ne other _ _
  cases e with
  | wait t timed =>
    simp only [step]
    split
    · exact moved w _
    · rfl
  | set t =>
    simp only [step]
    split
    · exact moved w _
    · rfl
  | advance t =>
    simp only [step, advance]
    split <;> (try split) <;> first | rfl | exact moved _ _
  | wake t success =>
    simp only [step, wake]
    split
    · rfl
    · exact moved _ _
    · rfl

theorem raised_step {e : WaiterEvent τ} (noStore : w.stores e = false) (up : (w.step e).isReady = true) :
    w.isReady = true := by
  cases e with
  | wait t timed =>
    simp only [step] at up
    split at up <;> exact up
  | set t =>
    simp only [step] at up
    split at up <;> exact up
  | advance t =>
    have elsewhere : w.pc t ≠ .store := of_decide_eq_false noStore
    simp only [step, advance] at up
    split at up <;> (try split at up) <;> first | exact up | contradiction
  | wake t success =>
    simp only [step, wake] at up
    split at up <;> exact up

end Waiter

namespace Tally

variable {τ : Type} [DecidableEq τ] {s : Tally τ} {e : WaiterEvent τ} {t : τ}

theorem Sound.quiet (sound : s.Sound) (passes : s.waiter.passes e = false)
    (decides : s.waiter.decides e = false) (stores : s.waiter.stores e = false)
    (stays : (s.waiter.step e).isReady = true → s.waiter.pc e.thread = .clear →
      (s.waiter.step e).pc e.thread = .clear) : (s.step e).Sound := by
  have granted : (s.step e).granted = s.granted := by
    simp [step, Tally.granted, passes, decides]
  have stored : (s.step e).stored = s.stored := by
    simp [step, stores]
  refine ⟨Waiter.exclusive_step e sound.exclusive, ?_, fun up nobody => ?_⟩
  · rw [granted, stored]
    exact sound.bounded
  · rw [granted, stored]
    apply sound.pending (Waiter.raised_step stores up)
    intro t clears
    by_cases same : t = e.thread
    · subst same
      exact nobody _ (stays up clears)
    · exact nobody t ((Waiter.step_other same).trans clears)

/-- The thread that is granted its return holds the mutex, so nobody else is
about to clear the flag. -/
theorem Sound.grant (sound : s.Sound) (up : s.waiter.isReady = true) (locked : (s.waiter.pc t).locked = true)
    (differ : s.waiter.pc t ≠ .clear) (clears : (s.waiter.step e).pc t = .clear)
    (granted : (s.step e).granted = s.granted + 1) (stored : (s.step e).stored = s.stored) :
    (s.step e).Sound := by
  have nobody : ∀ u, s.waiter.pc u ≠ .clear := by
    intro u clearing
    have inside : (s.waiter.pc u).locked = true := by rw [clearing]; rfl
    rw [sound.exclusive.alone locked inside] at clearing
    exact differ clearing
  have room := sound.pending up nobody
  refine ⟨Waiter.exclusive_step e sound.exclusive, by omega, fun _ others => ?_⟩
  exact absurd clears (others t)

theorem Sound.store (sound : s.Sound) (granted : (s.step e).granted = s.granted)
    (stored : (s.step e).stored = s.stored + 1) : (s.step e).Sound := by
  have bounded := sound.bounded
  exact ⟨Waiter.exclusive_step e sound.exclusive, by omega, fun _ _ => by omega⟩

theorem sound_advance (sound : s.Sound) : (s.step (.advance t)).Sound := by
  -- Away from the two loads and the store nothing is counted.
  have quiet : (∀ timed, s.waiter.pc t ≠ .test timed) → s.waiter.pc t ≠ .load → s.waiter.pc t ≠ .store →
      ((s.waiter.step (.advance t)).isReady = true → s.waiter.pc t ≠ .clear) → (s.step (.advance t)).Sound := by
    intro noTest noLoad noStore elsewhere
    exact sound.quiet (decide_eq_false fun at_test => noTest false at_test.1)
      (decide_eq_false fun at_load => noLoad at_load.1) (decide_eq_false noStore)
      fun up clears => absurd clears (elsewhere up)
  cases pc : s.waiter.pc t with
  | test timed =>
    cases up : s.waiter.isReady with
    | true =>
      cases timed with
      | false =>
        refine sound.grant up (by rw [pc]; rfl) (by simp [pc]) ?_ ?_ ?_
        · simp [Waiter.step, Waiter.advance, pc, up, Waiter.goto]
        · simp [step, granted, Waiter.passes, Waiter.decides, pc, up, Nat.add_right_comm]
        · simp [step, Waiter.stores, pc]
      | true =>
        apply sound.quiet
        · simp [Waiter.passes, pc]
        · simp [Waiter.decides, pc]
        · simp [Waiter.stores, pc]
        · simp [WaiterEvent.thread, pc]
    | false =>
      apply sound.quiet
      · simp [Waiter.passes, up]
      · simp [Waiter.decides, up]
      · simp [Waiter.stores, pc]
      · simp [WaiterEvent.thread, pc]
  | load =>
    cases up : s.waiter.isReady with
    | true =>
      refine sound.grant up (by rw [pc]; rfl) (by simp [pc]) ?_ ?_ ?_
      · simp [Waiter.step, Waiter.advance, pc, up, Waiter.goto]
      · simp [step, granted, Waiter.passes, Waiter.decides, pc, up, Nat.add_assoc]
      · simp [step, Waiter.stores, pc]
    | false =>
      apply sound.quiet
      · simp [Waiter.passes, up]
      · simp [Waiter.decides, up]
      · simp [Waiter.stores, pc]
      · simp [WaiterEvent.thread, pc]
  | store =>
    apply sound.store
    · simp [step, granted, Waiter.passes, Waiter.decides, pc]
    · simp [step, Waiter.stores, pc]
  | clear =>
    refine quiet (by simp [pc]) (by simp [pc]) (by simp [pc]) fun ready => ?_
    simp [Waiter.step, Waiter.advance, pc, Waiter.goto] at ready
  | outside | lock _ | release _ | waiting _ | failed | unlock _ | broadcast =>
    apply quiet <;> simp [pc]

theorem sound_step (s : Tally τ) (e : WaiterEvent τ) (sound : s.Sound) : (s.step e).Sound := by
  cases e with
  | advance t => exact sound_advance sound
  | wait t timed | set t =>
    apply sound.quiet rfl rfl rfl
    intro _ clears
    have inside : s.waiter.pc t = .clear := clears
    simp [Waiter.step, WaiterEvent.thread, inside]
  | wake t success =>
    apply sound.quiet rfl rfl rfl
    intro _ clears
    have inside : s.waiter.pc t = .clear := clears
    simp [Waiter.step, Waiter.wake, WaiterEvent.thread, inside]

omit [DecidableEq τ] in
theorem sound_init (τ : Type) : (init τ).Sound where
  exclusive := fun t held => by cases held
  bounded := Nat.le_refl _
  pending := fun up => by cases up

/-- However the steps of the threads fall, no more calls return by a set flag
than calls of waiter_set have stored it. -/
theorem granted_le_stored (events : List (WaiterEvent τ)) :
    Runs.Throughout step (fun s => s.passed + s.decided ≤ s.stored) (init τ) events :=
  (Runs.throughout_of_preserved_all sound_step (sound_init τ) events).mono fun _ sound => sound.bounded

theorem waiter_states (events : List (WaiterEvent τ)) :
    (Runs.states step (init τ) events).map waiter = Runs.states Waiter.step (.init τ) events :=
  Runs.states_project waiter (fun _ _ => rfl) (init τ) events

end Tally

end Dcn
