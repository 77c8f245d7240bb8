import Dcn.Sync.Waiter

/-! A future under any number of threads (thr-pool.c).

Threads await it and workers complete it. A completion stores and signals
without the mutex under which the flag is tested; it then does the same for the
flag that asyncio_gather shares among its futures, there with the lock. The
gatherer appears through that lock alone.
-/

set_option autoImplicit false

namespace Dcn

/-- The step a thread takes next in await_future, up to its unlock, or in the
completion of a task of __thr_work, from its store of is_ready on. -/
inductive FuturePc where
  | outside
  | lock
  | test
  | release
  | waiting
  | unlock
  | store
  | signal
  | shared
  | sharedStore
  | sharedAdd
  | sharedLock
  | sharedBroadcast
  | sharedUnlock
  deriving DecidableEq, Repr

/-- What the shared_ fields point to. The mutex can be held by the gatherer,
which is none of the threads here. -/
structure Shared (τ : Type) where
  isReady : Bool
  done : UInt64
  condMtx : Option (Option τ)

structure Future (τ : Type) where
  isReady : Bool
  condMtx : Option τ
  isDone : Condition τ
  shared : Option (Shared τ)
  pc : τ → FuturePc

/-- A thread awaits the future or completes it; it takes its next step, where
`choice` says whom a signal releases; it returns from its block unasked; or the
gatherer installs the shared fields, or takes or leaves the shared mutex. -/
inductive FutureEvent (τ : Type) where
  | await (t : τ)
  | complete (t : τ)
  | advance (t : τ) (choice : Nat)
  | wake (t : τ)
  | install
  | gather (locks : Bool)
  deriving DecidableEq, Repr

namespace Future

variable {τ : Type} [DecidableEq τ]

def init (τ : Type) : Future τ := ⟨false, none, .init τ, none, fun _ => .outside⟩

def goto (f : Future τ) (t : τ) (pc : FuturePc) : Future τ := { f with pc := Function.update f.pc t pc }

def withShared (f : Future τ) (change : Shared τ → Shared τ) : Future τ := { f with shared := f.shared.map change }

def advance (f : Future τ) (t : τ) (choice : Nat) : Future τ :=
  match f.pc t with
  | .outside => f
  | .lock => if f.condMtx = none then { f with condMtx := some t }.goto t .test else f
  | .test => f.goto t (if f.isReady then .unlock else .release)
  | .release => { f with condMtx := none, isDone := f.isDone.block t }.goto t .waiting
  | .waiting =>
    if t ∉ f.isDone.waiting ∧ f.condMtx = none then { f with condMtx := some t }.goto t .test else f
  | .unlock => { f with condMtx := none }.goto t .outside
  | .store => { f with isReady := true }.goto t .signal
  | .signal => { f with isDone := f.isDone.signal choice }.goto t .shared
  | .shared => f.goto t (if f.shared.isSome then .sharedStore else .outside)
  | .sharedStore => (f.withShared fun sh => { sh with isReady := true }).goto t .sharedAdd
  | .sharedAdd => (f.withShared fun sh => { sh with done := sh.done + 1 }).goto t .sharedLock
  | .sharedLock =>
    if (f.shared.bind Shared.condMtx).isNone then
      (f.withShared fun sh => { sh with condMtx := some (some t) }).goto t .sharedBroadcast
    else f
  -- Only the gatherer waits on the shared condition.
  | .sharedBroadcast => f.goto t .sharedUnlock
  | .sharedUnlock => (f.withShared fun sh => { sh with condMtx := none }).goto t .outside

/-- The gatherer's lock waits while a completion holds the mutex. -/
def gather (f : Future τ) (locks : Bool) : Future τ :=
  f.withShared fun sh =>
    match locks, sh.condMtx with
    | true, none => { sh with condMtx := some none }
    | false, some none => { sh with condMtx := none }
    | _, _ => sh

def step (f : Future τ) : FutureEvent τ → Future τ
  | .await t => if f.pc t = .outside then f.goto t .lock else f
  | .complete t => if f.pc t = .outside then f.goto t .store else f
  | .advance t choice => f.advance t choice
  | .wake t => if f.pc t = .waiting then { f with isDone := f.isDone.release t } else f
  | .install => if f.shared.isSome then f else { f with shared := some ⟨false, 0, none⟩ }
  | .gather locks => f.gather locks

def completing : FuturePc → Bool
  | .store | .signal | .shared | .sharedStore | .sharedAdd | .sharedLock | .sharedBroadcast | .sharedUnlock => true
  | _ => false

/-- A thread is blocked in await_future on a future that is ready, and no
completion is under way. -/
def Stranded (f : Future τ) : Prop :=
  f.isReady = true ∧ (∀ t, completing (f.pc t) = false) ∧ ∃ t, f.pc t = .waiting ∧ t ∈ f.isDone.waiting

/-- The last signal on a ready future finds no thread between its test of
is_ready and its block, and no thread blocked but the one it releases. -/
def Timely (f : Future τ) : FutureEvent τ → Prop
  | .advance t choice => f.pc t = .signal → f.isReady = true → (∀ u, f.pc u = .signal → u = t) →
      ∀ u, f.pc u ≠ .release ∧ (f.pc u = .waiting → u ∈ f.isDone.waiting → f.isDone.picked choice = some u)
  | _ => True

instance [Fintype τ] (f : Future τ) : Decidable f.Stranded :=
  inferInstanceAs (Decidable (f.isReady = true ∧ (∀ t, completing (f.pc t) = false) ∧
    ∃ t, f.pc t = .waiting ∧ t ∈ f.isDone.waiting))

instance [Fintype τ] (f : Future τ) : DecidablePred f.Timely
  | .advance t choice => inferInstanceAs (Decidable (f.pc t = .signal → f.isReady = true →
      (∀ u, f.pc u = .signal → u = t) →
      ∀ u, f.pc u ≠ .release ∧ (f.pc u = .waiting → u ∈ f.isDone.waiting → f.isDone.picked choice = some u)))
  | .await _ | .complete _ | .wake _ | .install | .gather _ => .isTrue trivial

def stage : FuturePc → Wakeup.Stage
  | .release => .checked
  | .waiting => .waiting
  | .signal => .notifying
  | _ => .outside

def wakeup (f : Future τ) : Wakeup.State τ := Wakeup.observe stage f.isReady f.isDone f.pc

def advanceAction (f : Future τ) (t : τ) (choice : Nat) : FuturePc → Wakeup.Action τ
  | .test => .check t
  | .release => .block t
  | .store => .raise t
  | .signal => .notify t fun u => f.isDone.picked choice = some u
  | _ => .skip

def action (f : Future τ) : FutureEvent τ → Wakeup.Action τ
  | .advance t choice => f.advanceAction t choice (f.pc t)
  | .wake t => if f.pc t = .waiting then .wake t else .skip
  | _ => .skip

section Steps

variable (f : Future τ) {t u : τ}

theorem pc_advance_of_ne (choice : Nat) (other : u ≠ t) : (f.advance t choice).pc u = f.pc u := by
  unfold advance
  cases f.pc t with
  | outside => rfl
  | lock | waiting | sharedLock =>
    simp only
    split
    · exact Function.update_of_ne other ..
    · rfl
  | _ => exact Function.update_of_ne other ..

theorem isReady_advance (choice : Nat) : (f.advance t choice).isReady = (f.isReady || f.pc t = .store) := by
  -- Only the store of a completion makes the future ready, and nothing unmakes it.
  cases pc : f.pc t with
  | lock | waiting | sharedLock =>
    simp only [advance, pc]
    split <;> simp [goto, withShared]
  | _ => simp [advance, pc, goto, withShared]

theorem wakeup_goto {pc : FuturePc} (own : stage pc = stage (f.pc t)) : (f.goto t pc).wakeup = f.wakeup :=
  Wakeup.observe_skip stage (by rw [own])

theorem awaits_advance (choice : Nat) (awaits : completing (f.pc t) = false) :
    completing ((f.advance t choice).pc t) = false ∧ (f.pc t ≠ .outside →
      (f.advance t choice).pc t = .outside ∨ (f.advance t choice).pc t = .unlock →
        f.isReady = true ∨ f.pc t = .unlock) := by
  cases pc : f.pc t with
  | outside => simp [advance, pc, completing]
  | lock | waiting =>
    simp only [advance, pc]
    split <;> simp [goto, completing, pc]
  | test => cases ready : f.isReady <;> simp [advance, pc, goto, completing, ready]
  | release | unlock => simp [advance, pc, goto, completing]
  | _ => simp [pc, completing] at awaits

theorem wakeup_advance (choice : Nat) :
    (f.advance t choice).wakeup = Wakeup.step f.wakeup (f.advanceAction t choice (f.pc t)) := by
  cases pc : f.pc t with
  | outside => simp only [advance, pc, advanceAction, Wakeup.step]
  | lock =>
    simp only [advance, pc, advanceAction, Wakeup.step]
    split
    · exact wakeup_goto { f with condMtx := some t } (by rw [pc]; rfl)
    · rfl
  | test =>
    simp only [advance, pc, advanceAction]
    cases ready : f.isReady with
    | true =>
      rw [if_pos rfl, Wakeup.step, if_pos (show f.wakeup.flag = true from ready)]
      exact wakeup_goto f (by rw [pc]; rfl)
    | false =>
      rw [if_neg Bool.false_ne_true]
      exact Wakeup.observe_check stage ready rfl
  | release =>
    simp only [advance, pc]
    exact Wakeup.observe_block stage (by rw [pc]; rfl) rfl
  | waiting =>
    simp only [advance, pc, advanceAction, Wakeup.step]
    split
    · next awake =>
      refine Wakeup.observe_skip stage ?_
      rw [pc]
      simp [goto, stage, Wakeup.phaseOf, awake.1]
    · rfl
  | store =>
    simp only [advance, pc]
    exact Wakeup.observe_raise stage rfl
  | signal =>
    simp only [advance, pc, advanceAction]
    refine Wakeup.observe_notify stage _ (fun u => ?_) rfl
    simp only [goto, Condition.mem_signal, ne_eq, decide_eq_false_iff_not]
  | shared =>
    simp only [advance, pc, advanceAction, Wakeup.step]
    refine wakeup_goto f ?_
    rw [pc]
    cases f.shared <;> rfl
  | sharedLock =>
    simp only [advance, pc, advanceAction, Wakeup.step]
    split
    · exact wakeup_goto (f.withShared _) (by rw [withShared, pc]; rfl)
    · rfl
  | _ =>
    simp only [advance, pc, advanceAction, Wakeup.step]
    exact Wakeup.observe_skip stage (by simp [withShared, pc, stage])

theorem wakeup_step (event : FutureEvent τ) : (f.step event).wakeup = Wakeup.step f.wakeup (f.action event) := by
  cases event with
  | await t =>
    simp only [step, action, Wakeup.step]
    split
    · next outside => exact wakeup_goto f (by rw [outside]; rfl)
    · rfl
  | complete t =>
    simp only [step, action, Wakeup.step]
    split
    · next outside => exact wakeup_goto f (by rw [outside]; rfl)
    · rfl
  | advance t choice => exact wakeup_advance f choice
  | wake t =>
    simp only [step, action]
    split
    · next waits => exact Wakeup.observe_wake stage (by rw [waits]; rfl)
    · rfl
  | install =>
    simp only [step, action, Wakeup.step]
    split <;> rfl
  | gather locks => rfl

end Steps

section Stages

variable {pc : FuturePc}

theorem stage_eq_checked : stage pc = .checked ↔ pc = .release := by
  cases pc <;> simp [stage]

theorem stage_eq_waiting : stage pc = .waiting ↔ pc = .waiting := by
  cases pc <;> simp [stage]

theorem stage_eq_notifying : stage pc = .notifying ↔ pc = .signal := by
  cases pc <;> simp [stage]

end Stages

variable {f : Future τ}

theorem Stranded.wakeup (stranded : f.Stranded) : Wakeup.Stranded f.wakeup := by
  obtain ⟨ready, quiet, t, waits, blocked⟩ := stranded
  refine ⟨ready, fun u notifies => ?_, t, ?_⟩
  · have busy := quiet u
    rw [stage_eq_notifying.mp (Wakeup.phaseOf_eq_notifying.mp notifies)] at busy
    cases busy
  · exact Wakeup.phaseOf_eq_blocked.mpr ⟨stage_eq_waiting.mpr waits, blocked⟩

theorem Timely.wakeup {event : FutureEvent τ} (timely : f.Timely event) :
    Wakeup.Timely f.wakeup (f.action event) := by
  cases event with
  | advance t choice =>
    cases pc : f.pc t with
    | signal =>
      simp only [action, pc, advanceAction]
      intro ready last u _
      have alone : ∀ v, f.pc v = .signal → v = t := by
        intro v notifies
        exact last v (Wakeup.phaseOf_eq_notifying.mpr (stage_eq_notifying.mpr notifies))
      obtain ⟨past, released⟩ := timely pc ready alone u
      refine ⟨fun checked => past (stage_eq_checked.mp (Wakeup.phaseOf_eq_checked.mp checked)), fun blocked => ?_⟩
      obtain ⟨waits, member⟩ := Wakeup.phaseOf_eq_blocked.mp blocked
      exact decide_eq_true (released (stage_eq_waiting.mp waits) member)
    | _ => simp [action, pc, advanceAction, Wakeup.Timely]
  | wake t => by_cases waits : f.pc t = .waiting <;> simp [action, waits, Wakeup.Timely]
  | _ => trivial

theorem covered_init (τ : Type) [DecidableEq τ] : Wakeup.Covered (init τ).wakeup := by
  intro up
  cases up

theorem never_stranded {events : List (FutureEvent τ)} (timely : Runs.Along step Timely (init τ) events) :
    Runs.Throughout step (fun f => ¬ f.Stranded) (init τ) events := by
  refine (Wakeup.never_stranded wakeup action wakeup_step (covered_init τ) ?_).mono
    fun f awake stranded => awake stranded.wakeup
  exact timely.mono fun f event timely => timely.wakeup

end Future

namespace Waking

/-- No thread is left blocked on a waiter or a future that is ready, in every
run whose broadcasts and signals are timely. -/
theorem wakeups_kept (τ : Type) [DecidableEq τ] (waits : List (WaiterEvent τ)) (awaits : List (FutureEvent τ))
    (broadcasts : Runs.Along Waiter.step Waiter.Timely (Waiter.init τ) waits)
    (signals : Runs.Along Future.step Future.Timely (Future.init τ) awaits) :
    Runs.Throughout Waiter.step (fun w => ¬ w.Stranded) (Waiter.init τ) waits ∧
      Runs.Throughout Future.step (fun f => ¬ f.Stranded) (Future.init τ) awaits :=
  ⟨Waiter.never_stranded broadcasts, Future.never_stranded signals⟩

def setAfterBlock : List (WaiterEvent Bool) :=
  [.wait false false, .advance false, .advance false, .advance false, .set true, .advance true, .advance true,
    .advance false, .advance false, .advance false, .advance false]

def completeAfterBlock : List (FutureEvent Bool) :=
  [.await false, .advance false 0, .advance false 0, .advance false 0, .complete true, .advance true 0,
    .advance true 0, .advance true 0, .advance false 0, .advance false 0, .advance false 0]

/-- The wake-up comes between the test and the block. -/
def setBeforeBlock : List (WaiterEvent Bool) :=
  [.wait false false, .advance false, .advance false, .set true, .advance true, .advance true, .advance false]

def completeBeforeBlock : List (FutureEvent Bool) :=
  [.await false, .advance false 0, .advance false 0, .complete true, .advance true 0, .advance true 0,
    .advance true 0, .advance false 0]

theorem wakeups_kept_asleep :
    Runs.Throughout Waiter.step (fun w => ¬ w.Stranded) (Waiter.init Bool) setAfterBlock ∧
      Runs.Throughout Future.step (fun f => ¬ f.Stranded) (Future.init Bool) completeAfterBlock :=
  wakeups_kept Bool setAfterBlock completeAfterBlock (by decide) (by decide)

/-- A thread that tested before the store blocks after the wake-up, and no step
is left that would wake it. -/
theorem wakeup_lost :
    (Runs.run Waiter.step (Waiter.init Bool) setBeforeBlock).Stranded ∧
      (Runs.run Future.step (Future.init Bool) completeBeforeBlock).Stranded := by
  decide

end Waking

end Dcn
