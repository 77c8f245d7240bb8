import Dcn.Foundation.Runs
import Dcn.Foundation.Wakeup
import Dcn.Memory.Queue
import Mathlib.Data.Fintype.Basic

/-! Stopping the thread pool: loop_stop and pool_free against the loop of
__thr_work.

pool_free lowers is_active and broadcasts without holding the mutex of the task
queue, so both can fall between a worker's test and its wait, which are in one
locked section. A worker that holds the mutex between two of its steps is in
`holder`. The mutex that queue_free destroys is taken to work on, and coroutines
return. What is due after the broadcast are the steps of pool_free and of the
workers: nothing is submitted or signalled any more, and nobody returns from a
wait unasked.
-/

set_option autoImplicit false

namespace Dcn

/-- Where a worker is in __thr_work: at the test of is_active, before the lock,
between the test in the locked section and cnd_wait, in cnd_wait, behind the
unlock with a task, at its return. -/
inductive ThrPc where
  | test
  | lock
  | checked
  | waiting
  | took (task : Block)
  | exited
  deriving DecidableEq, Repr

inductive FreePc where
  | before
  | stored
  | broadcast
  | freed
  | returned
  deriving DecidableEq, Repr

/-- A pool, the thread that stops it, and the tasks that were submitted, started
and freed with the queue. -/
structure Closing (ω : Type) where
  isActive : Bool
  q : Queue
  hasTasks : Condition ω
  holder : Option ω
  workers : ω → ThrPc
  free : FreePc
  submitted : List Block
  started : List Block
  dropped : List Block

/-- A task is pushed or signalled; a worker tests, locks, waits, is woken unasked
or returns from its coroutine; the pool is stopped, step by step. -/
inductive ClosingEvent (ω : Type) where
  | push (task : Block)
  | signal (choice : Nat)
  | test (w : ω)
  | lock (w : ω)
  | wait (w : ω)
  | wake (w : ω)
  | finish (w : ω)
  | store
  | broadcast
  | queueFree
  | join

namespace Closing

variable {ω : Type} [DecidableEq ω]

def init (ω : Type) : Closing ω := ⟨true, queueInit, .init ω, none, fun _ => .test, .before, [], [], []⟩

def goto (c : Closing ω) (w : ω) (pc : ThrPc) : Closing ω := { c with workers := Function.update c.workers w pc }

def Enters (c : Closing ω) (w : ω) : Prop := c.workers w = .lock ∨ c.workers w = .waiting ∧ w ∉ c.hasTasks.waiting

instance (c : Closing ω) (w : ω) : Decidable (c.Enters w) := inferInstanceAs (Decidable (_ ∨ _))

/-- The locked section: to cnd_wait with the mutex, back to the outer test
without a task, or out with one. -/
def enter (c : Closing ω) (w : ω) : Closing ω :=
  match popBlock c.q with
  | (_, none, _) => if c.isActive then { c with holder := some w }.goto w .checked else c.goto w .test
  | (_, some task, q) => { c with q := q, started := c.started ++ [task] }.goto w (.took task)

variable [Fintype ω]

def step (c : Closing ω) : ClosingEvent ω → Closing ω
  | .push task =>
    if c.holder = none then { c with q := pushBlock c.q task, submitted := c.submitted ++ [task] } else c
  | .signal choice => { c with hasTasks := c.hasTasks.signal choice }
  | .test w => if c.workers w = .test then c.goto w (if c.isActive then .lock else .exited) else c
  | .lock w => if c.Enters w ∧ c.holder = none then c.enter w else c
  | .wait w =>
    if c.workers w = .checked then { c with hasTasks := c.hasTasks.block w, holder := none }.goto w .waiting else c
  | .wake w => { c with hasTasks := c.hasTasks.release w }
  | .finish w =>
    match c.workers w with
    | .took _ => c.goto w .test
    | _ => c
  | .store => if c.free = .before then { c with isActive := false, free := .stored } else c
  | .broadcast => if c.free = .stored then { c with hasTasks := c.hasTasks.broadcast, free := .broadcast } else c
  | .queueFree =>
    if c.free = .broadcast ∧ c.holder = none then
      { c with q := queueInit, dropped := c.dropped ++ c.q.blocks, free := .freed }
    else c
  | .join => if c.free = .freed ∧ ∀ w, c.workers w = .exited then { c with free := .returned } else c

omit [DecidableEq ω] [Fintype ω] in
def Due (c : Closing ω) : ClosingEvent ω → Prop
  | .test w => c.workers w = .test
  | .lock w => c.Enters w ∧ c.holder = none
  | .wait w => c.workers w = .checked
  | .finish w => ∃ task, c.workers w = .took task
  | .queueFree => c.free = .broadcast ∧ c.holder = none
  | .join => c.free = .freed ∧ ∀ w, c.workers w = .exited
  | _ => False

/-- What every step keeps: the mutex is held where a worker is about to wait,
nobody but those at their wait is blocked, the pool is active until pool_free
begins, and the tasks are accounted for until the queue is freed. -/
structure Sound (c : Closing ω) : Prop where
  held : ∀ w, c.workers w = .checked ↔ c.holder = some w
  blocked : ∀ w ∈ c.hasTasks.waiting, c.workers w = .waiting
  active : c.isActive = true ↔ c.free = .before
  tasks : c.free ≠ .freed → c.free ≠ .returned → c.dropped = [] ∧ c.submitted = c.started ++ c.q.blocks

section Sound

variable {c : Closing ω} {w : ω}

omit [Fintype ω] [DecidableEq ω] in
theorem sound_init : (init ω).Sound where
  held w := by
    constructor
    · intro checked
      cases checked
    · intro held
      cases held
  blocked w member := by cases member
  active := iff_of_true rfl rfl
  tasks _ _ := ⟨rfl, rfl⟩

omit [Fintype ω] [DecidableEq ω] in
theorem not_mem_waiting (sound : c.Sound) (elsewhere : c.workers w ≠ .waiting) : w ∉ c.hasTasks.waiting :=
  fun member => elsewhere (sound.blocked w member)

omit [Fintype ω] in
theorem Sound.move (sound : c.Sound) (outside : c.workers w ≠ .checked) (awake : w ∉ c.hasTasks.waiting) {pc : ThrPc}
    (still : pc ≠ .checked) : (c.goto w pc).Sound where
  held v := by
    by_cases same : v = w
    · subst same
      have free : c.holder ≠ some v := fun held => outside ((sound.held v).mpr held)
      simp [goto, still, free]
    · simpa [goto, same] using sound.held v
  blocked v member := by
    have other : v ≠ w := by
      rintro rfl
      exact awake member
    simpa [goto, other] using sound.blocked v member
  active := sound.active
  tasks := sound.tasks

omit [Fintype ω] [DecidableEq ω] in
theorem not_checked_of_enters (enters : c.Enters w) : c.workers w ≠ .checked := by
  rcases enters with lock | ⟨waiting, -⟩
  · simp [lock]
  · simp [waiting]

omit [Fintype ω] [DecidableEq ω] in
theorem awake_of_enters (sound : c.Sound) (enters : c.Enters w) : w ∉ c.hasTasks.waiting := by
  rcases enters with lock | ⟨-, awake⟩
  · exact not_mem_waiting sound (by simp [lock])
  · exact awake

omit [Fintype ω] in
theorem sound_enter (sound : c.Sound) (enters : c.Enters w) (free : c.holder = none) : (c.enter w).Sound := by
  have outside := not_checked_of_enters enters
  have awake := awake_of_enters sound enters
  cases shape : c.q.blocks with
  | nil =>
    simp only [enter, popBlock_nil shape]
    split
    · exact {
        held := fun v => by
          by_cases same : v = w
          · subst same
            simp [goto]
          · have others : c.workers v ≠ .checked := fun checked => by
              rw [(sound.held v).mp checked] at free
              cases free
            simp [goto, same, others, Ne.symm same]
        blocked := fun v member => by
          have other : v ≠ w := by
            rintro rfl
            exact awake member
          simpa [goto, other] using sound.blocked v member
        active := sound.active
        tasks := sound.tasks }
    · exact sound.move outside awake (by simp)
  | cons task rest =>
    simp only [enter, popBlock_cons shape]
    have taken : { c with q := ⟨rest⟩, started := c.started ++ [task] }.Sound := {
      held := sound.held
      blocked := sound.blocked
      active := sound.active
      tasks := fun notFreed notReturned => by
        obtain ⟨nothing, all⟩ := sound.tasks notFreed notReturned
        exact ⟨nothing, by simp [all, shape]⟩ }
    exact taken.move outside awake (by simp)

theorem sound_step (sound : c.Sound) (e : ClosingEvent ω) : (c.step e).Sound := by
  cases e with
  | push task =>
    simp only [step]
    split
    · refine ⟨sound.held, sound.blocked, sound.active, fun notFreed notReturned => ?_⟩
      obtain ⟨nothing, all⟩ := sound.tasks notFreed notReturned
      exact ⟨nothing, by simp [all]⟩
    · exact sound
  | signal choice =>
    exact ⟨sound.held, fun v member => sound.blocked v (Condition.mem_signal.mp member).1, sound.active, sound.tasks⟩
  | test w =>
    simp only [step]
    split
    · next test =>
      refine sound.move (by simp [test]) (not_mem_waiting sound (by simp [test])) ?_
      split <;> simp
    · exact sound
  | lock w =>
    simp only [step]
    split
    · next free => exact sound_enter sound free.1 free.2
    · exact sound
  | wait w =>
    simp only [step]
    split
    · next checked =>
      refine ⟨fun v => ?_, fun v member => ?_, sound.active, sound.tasks⟩
      · by_cases same : v = w
        · subst same
          simp [goto]
        · have others : c.workers v ≠ .checked := by
            intro also
            have both := (sound.held v).mp also
            rw [(sound.held w).mp checked] at both
            exact same (Option.some.inj both).symm
          simp [goto, same, others]
      · by_cases same : v = w
        · subst same
          simp [goto]
        · have before : v ∈ c.hasTasks.waiting := (Condition.mem_block.mp member).resolve_right same
          simpa [goto, same] using sound.blocked v before
    · exact sound
  | wake w =>
    exact ⟨sound.held, fun v member => sound.blocked v (Condition.mem_release.mp member).1, sound.active, sound.tasks⟩
  | finish w =>
    cases here : c.workers w with
    | took task =>
      simp only [step, here]
      exact sound.move (by simp [here]) (not_mem_waiting sound (by simp [here])) (by simp)
    | _ => simpa only [step, here] using sound
  | store =>
    simp only [step]
    split
    · next before =>
      exact ⟨sound.held, sound.blocked, iff_of_false (by simp) (by simp),
        fun _ _ => sound.tasks (by simp [before]) (by simp [before])⟩
    · exact sound
  | broadcast =>
    simp only [step]
    split
    · next stored =>
      refine ⟨sound.held, fun v member => ?_, ?_, fun _ _ => sound.tasks (by simp [stored]) (by simp [stored])⟩
      · cases member
      have inactive := sound.active.not.mpr (by simp [stored] : c.free ≠ .before)
      exact iff_of_false inactive (by simp)
    · exact sound
  | queueFree =>
    simp only [step]
    split
    · next due =>
      have inactive := sound.active.not.mpr (by simp [due.1] : c.free ≠ .before)
      exact ⟨sound.held, sound.blocked, iff_of_false inactive (by simp), fun notFreed => absurd rfl notFreed⟩
    · exact sound
  | join =>
    simp only [step]
    split
    · next due =>
      have inactive := sound.active.not.mpr (by simp [due.1] : c.free ≠ .before)
      exact ⟨sound.held, sound.blocked, iff_of_false inactive (by simp), fun _ notReturned => absurd rfl notReturned⟩
    · exact sound

end Sound

section Rest

variable {c : Closing ω} {w : ω} {e : ClosingEvent ω}

omit [Fintype ω] in
def cost (c : Closing ω) (w : ω) : Nat :=
  match c.workers w with
  | .exited => 0
  | .waiting => if w ∈ c.hasTasks.waiting then 0 else 3
  | .checked | .test => 1
  | .took _ => 2
  | .lock => 3

def FreePc.cost : FreePc → Nat
  | .broadcast => 2
  | .freed => 1
  | _ => 0

def rank (c : Closing ω) : Nat := ∑ w, c.cost w + FreePc.cost c.free

omit [Fintype ω] in
theorem cost_of_enters (enters : c.Enters w) : c.cost w = 3 := by
  rcases enters with lock | ⟨waiting, awake⟩
  · simp [cost, lock]
  · simp [cost, waiting, awake]

inductive Next (c d : Closing ω) : Prop where
  | move (w : ω) (pc : ThrPc) (unchecked : c.workers w ≠ .checked) (up : c.workers w = .waiting → w ∉ c.hasTasks.waiting)
      (still : pc ≠ .checked) (cheaper : d.cost w < c.cost w) (workers : d.workers = Function.update c.workers w pc)
      (hasTasks : d.hasTasks = c.hasTasks) (free : d.free = c.free) : Next c d
  | wait (w : ω) (checked : c.workers w = .checked) (workers : d.workers = Function.update c.workers w .waiting)
      (hasTasks : d.hasTasks = c.hasTasks.block w) (free : d.free = c.free) : Next c d
  | queueFree (before : c.free = .broadcast) (workers : d.workers = c.workers) (hasTasks : d.hasTasks = c.hasTasks)
      (free : d.free = .freed) : Next c d
  | join (before : c.free = .freed) (all : ∀ w, c.workers w = .exited) (workers : d.workers = c.workers)
      (hasTasks : d.hasTasks = c.hasTasks) (free : d.free = .returned) : Next c d

theorem next_of_due (inactive : c.isActive = false) (due : c.Due e) : Next c (c.step e) := by
  cases e with
  | test w =>
    have test : c.workers w = .test := due
    rw [step, if_pos test, inactive]
    exact .move w .exited (by simp [test]) (by simp [test]) (by simp) (by simp [cost, goto, test]) rfl rfl rfl
  | lock w =>
    obtain ⟨enters, free⟩ := due
    have unchecked := not_checked_of_enters enters
    have up : c.workers w = .waiting → w ∉ c.hasTasks.waiting := by
      intro waiting
      rcases enters with lock | ⟨-, awake⟩
      · simp [lock] at waiting
      · exact awake
    rw [step, if_pos ⟨enters, free⟩, enter]
    cases shape : c.q.blocks with
    | nil =>
      simp only [popBlock_nil shape, inactive, Bool.false_eq_true, ↓reduceIte]
      refine .move w .test unchecked up (by simp) ?_ rfl rfl rfl
      rw [cost_of_enters enters]
      simp [cost, goto]
    | cons task rest =>
      simp only [popBlock_cons shape]
      refine .move w (.took task) unchecked up (by simp) ?_ rfl rfl rfl
      rw [cost_of_enters enters]
      simp [cost, goto]
  | wait w =>
    have checked : c.workers w = .checked := due
    rw [step, if_pos checked]
    exact .wait w checked rfl rfl rfl
  | finish w =>
    obtain ⟨task, took⟩ := due
    simp only [step, took]
    exact .move w .test (by simp [took]) (by simp [took]) (by simp) (by simp [cost, goto, took]) rfl rfl rfl
  | queueFree =>
    obtain ⟨before, free⟩ := due
    rw [step, if_pos ⟨before, free⟩]
    exact .queueFree before rfl rfl rfl
  | join =>
    obtain ⟨before, all⟩ := due
    rw [step, if_pos ⟨before, all⟩]
    exact .join before all rfl rfl rfl
  | _ => exact due.elim

variable {d : Closing ω}

theorem rank_falls (next : Next c d) : d.rank < c.rank := by
  unfold rank
  cases next with
  | move w pc unchecked up still cheaper workers hasTasks free =>
    have drop : ∑ v, d.cost v + 1 ≤ ∑ v, c.cost v := by
      apply sum_le_of_drop (Finset.mem_univ w)
      · intro v other
        simp only [cost, workers, Function.update_of_ne other, hasTasks]
      · exact cheaper
    rw [free]
    omega
  | wait w checked workers hasTasks free =>
    have drop : ∑ v, d.cost v + 1 ≤ ∑ v, c.cost v := by
      apply sum_le_of_drop (Finset.mem_univ w)
      · intro v other
        simp [cost, workers, hasTasks, other]
      · simp [cost, workers, hasTasks, checked]
    rw [free]
    omega
  | queueFree before workers hasTasks free =>
    have same : ∀ v, d.cost v = c.cost v := fun v => by simp only [cost, workers, hasTasks]
    simp only [same, before, free, FreePc.cost]
    omega
  | join before all workers hasTasks free =>
    have same : ∀ v, d.cost v = c.cost v := fun v => by simp only [cost, workers, hasTasks]
    simp only [same, before, free, FreePc.cost]
    omega

omit [Fintype ω] [DecidableEq ω] in
def Released (c : Closing ω) : Prop :=
  (c.free = .broadcast ∨ c.free = .freed ∨ c.free = .returned) ∧ c.hasTasks.waiting = [] ∧ ∀ w, c.workers w ≠ .checked

omit [Fintype ω] in
theorem released_next (released : c.Released) (next : Next c d) : d.Released := by
  obtain ⟨stage, nobody, unchecked⟩ := released
  cases next with
  | move w pc out up still cheaper workers hasTasks free =>
    refine ⟨free ▸ stage, hasTasks ▸ nobody, fun v => ?_⟩
    rw [workers]
    by_cases same : v = w
    · subst same
      rwa [Function.update_self]
    · rw [Function.update_of_ne same]
      exact unchecked v
  | wait w checked workers hasTasks free => exact absurd checked (unchecked w)
  | queueFree before workers hasTasks free => exact ⟨.inr (.inl free), hasTasks ▸ nobody, workers ▸ unchecked⟩
  | join before all workers hasTasks free => exact ⟨.inr (.inr free), hasTasks ▸ nobody, workers ▸ unchecked⟩

omit [Fintype ω] [DecidableEq ω] in
/-- When nobody waits and nothing is due, every worker has returned, and so has
pool_free. -/
theorem returned_of_released (sound : c.Sound) (released : c.Released) (quiet : ∀ e, ¬c.Due e) : c.free = .returned := by
  obtain ⟨stage, nobody, unchecked⟩ := released
  have free : c.holder = none := by
    cases held : c.holder with
    | none => rfl
    | some w => exact absurd ((sound.held w).mpr held) (unchecked w)
  have all : ∀ w, c.workers w = .exited := by
    intro w
    cases at_ : c.workers w with
    | test => exact absurd at_ (quiet (.test w))
    | lock => exact absurd ⟨.inl at_, free⟩ (quiet (.lock w))
    | checked => exact absurd at_ (unchecked w)
    | waiting => exact absurd ⟨.inr ⟨at_, by simp [nobody]⟩, free⟩ (quiet (.lock w))
    | took task => exact absurd ⟨task, at_⟩ (quiet (.finish w))
    | exited => rfl
  rcases stage with broadcast | freed | returned
  · exact absurd ⟨broadcast, free⟩ (quiet .queueFree)
  · exact absurd ⟨freed, all⟩ (quiet .join)
  · exact returned

omit [Fintype ω] [DecidableEq ω] in
def Stranded (c : Closing ω) (w : ω) : Prop :=
  (c.workers w = .checked ∨ c.workers w = .waiting ∧ w ∈ c.hasTasks.waiting) ∧ c.free ≠ .returned

omit [Fintype ω] in
theorem stranded_next (stranded : c.Stranded w) (next : Next c d) : d.Stranded w := by
  obtain ⟨sleeps, running⟩ := stranded
  cases next with
  | move v pc unchecked up still cheaper workers hasTasks free =>
    have other : w ≠ v := by
      rintro rfl
      rcases sleeps with checked | ⟨waiting, member⟩
      · exact unchecked checked
      · exact up waiting member
    refine ⟨?_, free ▸ running⟩
    rwa [workers, hasTasks, Function.update_of_ne other]
  | wait v checked workers hasTasks free =>
    refine ⟨?_, free ▸ running⟩
    rw [workers, hasTasks, Condition.mem_block]
    by_cases same : w = v
    · subst same
      exact .inr ⟨Function.update_self .., .inr rfl⟩
    · rw [Function.update_of_ne same]
      exact sleeps.imp_right fun ⟨waiting, member⟩ => ⟨waiting, .inl member⟩
  | queueFree before workers hasTasks free =>
    refine ⟨?_, by simp [free]⟩
    rwa [workers, hasTasks]
  | join before all workers hasTasks free =>
    rcases sleeps with checked | ⟨waiting, -⟩
    · simp [all w] at checked
    · simp [all w] at waiting

omit [Fintype ω] [DecidableEq ω] in
def Emptied (c : Closing ω) : Prop :=
  c.free = .freed ∨ c.free = .returned → c.q.blocks = [] ∧ c.submitted = c.started ++ c.dropped

theorem emptied_due (sound : c.Sound) (emptied : c.Emptied) (due : c.Due e) : (c.step e).Emptied := by
  cases e with
  | test w =>
    have test : c.workers w = .test := due
    rw [step, if_pos test]
    exact emptied
  | lock w =>
    obtain ⟨enters, free⟩ := due
    rw [step, if_pos ⟨enters, free⟩, enter]
    intro freed
    cases shape : c.q.blocks with
    | nil =>
      simp only [popBlock_nil shape] at freed ⊢
      split
      · next active =>
        rw [if_pos active] at freed
        exact emptied freed
      · next inactive =>
        rw [if_neg inactive] at freed
        exact emptied freed
    | cons task rest =>
      simp only [popBlock_cons shape] at freed
      have empty := (emptied freed).1
      rw [shape] at empty
      cases empty
  | wait w =>
    have checked : c.workers w = .checked := due
    rw [step, if_pos checked]
    exact emptied
  | finish w =>
    obtain ⟨task, took⟩ := due
    simp only [step, took]
    exact emptied
  | queueFree =>
    obtain ⟨before, free⟩ := due
    rw [step, if_pos ⟨before, free⟩]
    obtain ⟨nothing, all⟩ := sound.tasks (by simp [before]) (by simp [before])
    exact fun _ => ⟨rfl, by simp [nothing, all]⟩
  | join =>
    obtain ⟨before, all⟩ := due
    rw [step, if_pos ⟨before, all⟩]
    exact fun _ => emptied (.inl before)
  | _ => exact due.elim

end Rest

section Runs

variable {c : Closing ω}

theorem sound_run (events : List (ClosingEvent ω)) : (Runs.run step (init ω) events).Sound := by
  have kept : ∀ (c : Closing ω) e, c.Sound → (c.step e).Sound := fun _ e sound => sound_step sound e
  exact (Runs.throughout_of_preserved_all kept sound_init events).last

structure Behind (c : Closing ω) : Prop where
  sound : c.Sound
  inactive : c.isActive = false
  emptied : c.Emptied

theorem inactive_step {e : ClosingEvent ω} (inactive : c.isActive = false) : (c.step e).isActive = false := by
  cases e with
  | lock w =>
    simp only [step, enter]
    repeat' split
    all_goals exact inactive
  | signal choice | wake w => exact inactive
  | _ =>
    simp only [step]
    split <;> first | exact inactive | rfl

theorem behind_due {e : ClosingEvent ω} (behind : c.Behind) (due : c.Due e) : (c.step e).Behind :=
  ⟨sound_step behind.sound e, inactive_step behind.inactive, emptied_due behind.sound behind.emptied due⟩

theorem behind_broadcast (sound : c.Sound) (stored : c.free = .stored) : (c.step .broadcast).Behind := by
  refine ⟨sound_step sound .broadcast, ?_, ?_⟩
  · have inactive := sound.active.not.mpr (by simp [stored] : c.free ≠ .before)
    exact inactive_step (Bool.eq_false_iff.mpr inactive)
  · rw [step, if_pos stored]
    rintro (freed | returned)
    · cases freed
    · cases returned

/-- The only worker found the pool active and the queue empty when is_active is
lowered, and waits after the broadcast. -/
def late : Closing Unit := Runs.run step (init Unit) [.test (), .lock (), .store]

end Runs

end Closing

end Dcn
