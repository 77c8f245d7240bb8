import Dcn.Foundation.Runs
import Mathlib.Logic.Function.Basic

/-! A flag that threads wait for on a condition variable.

A waiting thread tests the flag and, where it is down, blocks; a notifying
thread raises the flag and then releases blocked threads. The two are not
under one lock, so a test and the block after it can lie on both sides of a
notification. `Covered` is what rules out a thread that sleeps on a raised flag,
and a notification is the only step that can end it.
-/

set_option autoImplicit false

structure Condition (τ : Type) where
  waiting : List τ
  deriving DecidableEq, Repr

namespace Condition

variable {τ : Type} [DecidableEq τ]

def init (τ : Type) : Condition τ := ⟨[]⟩

def block (c : Condition τ) (t : τ) : Condition τ := ⟨c.waiting ++ [t]⟩

/-- The thread returns from its wait, for whatever reason. -/
def release (c : Condition τ) (t : τ) : Condition τ := ⟨c.waiting.filter fun u => u ≠ t⟩

def picked (c : Condition τ) (choice : Nat) : Option τ := c.waiting[choice % c.waiting.length]?

def signal (c : Condition τ) (choice : Nat) : Condition τ :=
  match c.picked choice with
  | some t => c.release t
  | none => c

def broadcast (_ : Condition τ) : Condition τ := ⟨[]⟩

variable {c : Condition τ} {t u : τ}

omit [DecidableEq τ] in
@[simp] theorem waiting_init : (init τ).waiting = [] := rfl

omit [DecidableEq τ] in
@[simp] theorem waiting_broadcast : c.broadcast.waiting = [] := rfl

omit [DecidableEq τ] in
@[simp] theorem mem_block : u ∈ (c.block t).waiting ↔ u ∈ c.waiting ∨ u = t := by
  simp [block]

@[simp] theorem mem_release : u ∈ (c.release t).waiting ↔ u ∈ c.waiting ∧ u ≠ t := by
  simp [release]

theorem mem_signal {choice : Nat} : u ∈ (c.signal choice).waiting ↔ u ∈ c.waiting ∧ c.picked choice ≠ some u := by
  unfold signal
  split
  · next released picked =>
    rw [mem_release, picked, ne_eq, ne_eq, Option.some.injEq, @eq_comm τ u]
  · next none_blocked =>
    simp [none_blocked]

end Condition

namespace Wakeup

/-- How far a thread is: before its test or past its wait, between the test that
found the flag down and the block, blocked, or about to notify. -/
inductive Phase where
  | outside
  | checked
  | blocked
  | notifying
  deriving DecidableEq, Repr

structure State (τ : Type) where
  flag : Bool
  phase : τ → Phase

inductive Action (τ : Type) where
  | raise (t : τ)
  | notify (t : τ) (woken : τ → Bool)
  | check (t : τ)
  | block (t : τ)
  | wake (t : τ)
  | lower
  | skip

variable {τ : Type} [DecidableEq τ]

def step (s : State τ) : Action τ → State τ
  | .raise t => ⟨true, Function.update s.phase t .notifying⟩
  | .notify t woken =>
    { s with phase := fun u => if u = t ∨ (s.phase u = .blocked ∧ woken u) then .outside else s.phase u }
  | .check t => if s.flag then s else { s with phase := Function.update s.phase t .checked }
  | .block t => if s.phase t = .checked then { s with phase := Function.update s.phase t .blocked } else s
  | .wake t => if s.phase t = .blocked then { s with phase := Function.update s.phase t .outside } else s
  | .lower => { s with flag := false }
  | .skip => s

/-- While the flag is up and a thread sleeps or is about to, somebody is still
to notify. -/
def Covered (s : State τ) : Prop :=
  s.flag = true → (∃ t, s.phase t = .checked ∨ s.phase t = .blocked) → ∃ t, s.phase t = .notifying

def Stranded (s : State τ) : Prop :=
  s.flag = true ∧ (∀ t, s.phase t ≠ .notifying) ∧ ∃ t, s.phase t = .blocked

/-- The last notification on a raised flag finds no thread between its test and
its block, and it releases all that are blocked. -/
def Timely (s : State τ) : Action τ → Prop
  | .notify t woken => s.flag = true → (∀ u, s.phase u = .notifying → u = t) →
      ∀ u, u ≠ t → s.phase u ≠ .checked ∧ (s.phase u = .blocked → woken u = true)
  | _ => True

variable {s : State τ}

omit [DecidableEq τ] in
theorem Covered.not_stranded (covered : Covered s) : ¬ Stranded s := by
  rintro ⟨up, quiet, t, sleeps⟩
  obtain ⟨u, notifies⟩ := covered up ⟨t, .inr sleeps⟩
  exact quiet u notifies

theorem Covered.move (covered : Covered s) {t : τ} {phase : Phase} (kept : s.phase t ≠ .notifying)
    (asleep : phase = .checked ∨ phase = .blocked → s.phase t = .checked ∨ s.phase t = .blocked) :
    Covered { s with phase := Function.update s.phase t phase } := by
  rintro up ⟨u, sleeps⟩
  dsimp only at sleeps ⊢
  have before : ∃ v, s.phase v = .checked ∨ s.phase v = .blocked := by
    by_cases same : u = t
    · subst same
      rw [Function.update_self] at sleeps
      exact ⟨u, asleep sleeps⟩
    · rw [Function.update_of_ne same] at sleeps
      exact ⟨u, sleeps⟩
  obtain ⟨v, notifies⟩ := covered up before
  have other : v ≠ t := by
    rintro rfl
    exact kept notifies
  exact ⟨v, by rwa [Function.update_of_ne other]⟩

theorem covered_notify_iff (t : τ) (woken : τ → Bool) :
    Covered (step s (.notify t woken)) ↔ Timely s (.notify t woken) := by
  constructor
  · intro covered up last u other
    refine Classical.by_contradiction fun missed => ?_
    -- A thread that is missed sleeps after the notification, with nobody left.
    have sleeps : ¬ (s.phase u = .blocked ∧ woken u = true) ∧ (s.phase u = .checked ∨ s.phase u = .blocked) := by
      cases phase : s.phase u <;> simp_all
    obtain ⟨v, notifies⟩ := covered up ⟨u, by simpa [step, other, sleeps.1] using sleeps.2⟩
    simp only [step] at notifies
    split at notifies
    · cases notifies
    · next still => exact still (.inl (last v notifies))
  · rintro timely up ⟨u, sleeps⟩
    simp only [step] at sleeps
    split at sleeps
    · simp at sleeps
    · next still =>
      refine Classical.by_contradiction fun nobody => ?_
      have last : ∀ v, s.phase v = .notifying → v = t := by
        intro v notifies
        by_contra other
        exact nobody ⟨v, by simp [step, other, notifies]⟩
      obtain ⟨unchecked, released⟩ := timely up last u fun same => still (.inl same)
      rcases sleeps with checked | blocked
      · exact unchecked checked
      · exact still (.inr ⟨blocked, released blocked⟩)

/-- A notification that is not timely is all that can end the cover. -/
theorem covered_step_iff (covered : Covered s) (a : Action τ) : Covered (step s a) ↔ Timely s a := by
  cases a with
  | raise t =>
    refine iff_of_true ?_ trivial
    intro _ _
    exact ⟨t, Function.update_self _ _ _⟩
  | notify t woken => exact covered_notify_iff t woken
  | check t =>
    refine iff_of_true ?_ trivial
    simp only [step]
    split
    · exact covered
    · next down =>
      intro up
      exact absurd up down
  | block t =>
    refine iff_of_true ?_ trivial
    simp only [step]
    split
    · next checked => exact covered.move (by simp [checked]) fun _ => .inl checked
    · exact covered
  | wake t =>
    refine iff_of_true ?_ trivial
    simp only [step]
    split
    · next blocked => exact covered.move (by simp [blocked]) fun _ => .inr blocked
    · exact covered
  | lower =>
    refine iff_of_true ?_ trivial
    intro up
    cases up
  | skip => exact iff_of_true covered trivial

/-- A program whose steps do to the flag and the phases what their actions say
never leaves a thread asleep on the raised flag, where each of them is timely. -/
theorem never_stranded {σ α : Type} {next : σ → α → σ} {start : σ} {events : List α} (view : σ → State τ)
    (action : σ → α → Action τ) (agrees : ∀ p a, view (next p a) = step (view p) (action p a))
    (covered : Covered (view start))
    (timely : Runs.Along next (fun p a => Timely (view p) (action p a)) start events) :
    Runs.Throughout next (fun p => ¬ Stranded (view p)) start events := by
  have throughout : Runs.Throughout next (fun p => Covered (view p)) start events := by
    refine Runs.throughout_of_preserved (fun p a covered timely => ?_) covered timely
    rw [agrees]
    exact (covered_step_iff covered _).mpr timely
  exact throughout.mono fun p covered => covered.not_stranded

/-! A program is observed through its condition variable and the place of each
thread in its code, of which only the stage counts. -/

/-- What a place in the code means; a thread at a wait is blocked only while
the condition variable holds it. -/
inductive Stage where
  | outside
  | checked
  | waiting
  | notifying
  deriving DecidableEq, Repr

def phaseOf (cond : Condition τ) (t : τ) : Stage → Phase
  | .outside => .outside
  | .checked => .checked
  | .waiting => if t ∈ cond.waiting then .blocked else .outside
  | .notifying => .notifying

section Stages

variable {cond : Condition τ} {t : τ} {stage : Stage}

@[simp] theorem phaseOf_eq_checked : phaseOf cond t stage = .checked ↔ stage = .checked := by
  cases stage <;> simp [phaseOf, ite_eq_iff]

@[simp] theorem phaseOf_eq_notifying : phaseOf cond t stage = .notifying ↔ stage = .notifying := by
  cases stage <;> simp [phaseOf, ite_eq_iff]

@[simp] theorem phaseOf_eq_blocked : phaseOf cond t stage = .blocked ↔ stage = .waiting ∧ t ∈ cond.waiting := by
  cases stage <;> simp [phaseOf]

end Stages

variable {π : Type} (stage : π → Stage)

def observe (flag : Bool) (cond : Condition τ) (pc : τ → π) : State τ :=
  ⟨flag, fun t => phaseOf cond t (stage (pc t))⟩

section Observe

variable {flag : Bool} {cond cond' : Condition τ} {pc : τ → π} {t : τ} {place : π}

theorem observe_update (others : ∀ u, u ≠ t → (u ∈ cond'.waiting ↔ u ∈ cond.waiting)) :
    observe stage flag cond' (Function.update pc t place) =
      ⟨flag, Function.update (observe stage flag cond pc).phase t (phaseOf cond' t (stage place))⟩ := by
  rw [observe, State.mk.injEq]
  refine ⟨rfl, funext fun u => ?_⟩
  by_cases same : u = t
  · subst same
    simp only [Function.update_self]
  · simp only [Function.update_of_ne same, observe, phaseOf, others u same]

theorem observe_still (others : ∀ u, u ≠ t → (u ∈ cond'.waiting ↔ u ∈ cond.waiting))
    (own : phaseOf cond' t (stage place) = phaseOf cond t (stage (pc t))) :
    observe stage flag cond' (Function.update pc t place) = observe stage flag cond pc := by
  rw [observe_update stage others, own, observe, State.mk.injEq]
  exact ⟨rfl, Function.update_eq_self t (observe stage flag cond pc).phase⟩

theorem observe_skip (own : phaseOf cond t (stage place) = phaseOf cond t (stage (pc t))) :
    observe stage flag cond (Function.update pc t place) = observe stage flag cond pc :=
  observe_still stage (fun _ _ => Iff.rfl) own

theorem observe_check (down : flag = false) (checked : stage place = .checked) :
    observe stage flag cond (Function.update pc t place) = step (observe stage flag cond pc) (.check t) := by
  have skipped : ¬ (observe stage flag cond pc).flag = true := by
    simp [observe, down]
  rw [observe_update stage fun _ _ => Iff.rfl, checked, step, if_neg skipped]
  rfl

theorem observe_block (checked : stage (pc t) = .checked) (waits : stage place = .waiting) :
    observe stage flag (cond.block t) (Function.update pc t place) =
      step (observe stage flag cond pc) (.block t) := by
  have others : ∀ u, u ≠ t → (u ∈ (cond.block t).waiting ↔ u ∈ cond.waiting) := by
    intro u other
    rw [Condition.mem_block]
    exact or_iff_left other
  have before : (observe stage flag cond pc).phase t = .checked := by
    simp only [observe, checked, phaseOf]
  have asleep : phaseOf (cond.block t) t .waiting = .blocked := by
    simp [phaseOf]
  rw [observe_update stage others, waits, asleep, step, if_pos before]
  rfl

theorem observe_raise (notifies : stage place = .notifying) :
    observe stage true cond (Function.update pc t place) = step (observe stage flag cond pc) (.raise t) := by
  rw [observe_update stage fun _ _ => Iff.rfl, notifies]
  rfl

theorem observe_notify (woken : τ → Bool)
    (released : ∀ u, u ∈ cond'.waiting ↔ u ∈ cond.waiting ∧ woken u = false) (outside : stage place = .outside) :
    observe stage flag cond' (Function.update pc t place) =
      step (observe stage flag cond pc) (.notify t woken) := by
  rw [observe, step, State.mk.injEq]
  refine ⟨rfl, funext fun u => ?_⟩
  by_cases same : u = t
  · subst same
    simp [outside, phaseOf]
  · simp only [Function.update_of_ne same, observe, same, false_or]
    -- Only a thread at a wait depends on the condition variable.
    cases stage (pc u) with
    | waiting =>
      simp only [phaseOf, released]
      cases woken u <;> by_cases blocked : u ∈ cond.waiting <;> simp [blocked]
    | _ => simp [phaseOf]

theorem observe_wake (waits : stage (pc t) = .waiting) :
    observe stage flag (cond.release t) pc = step (observe stage flag cond pc) (.wake t) := by
  have others : ∀ u, u ≠ t → (u ∈ (cond.release t).waiting ↔ u ∈ cond.waiting) := by
    intro u other
    rw [Condition.mem_release]
    exact and_iff_left other
  have freed : phaseOf (cond.release t) t (stage (pc t)) = .outside := by
    simp [waits, phaseOf]
  have updated : observe stage flag (cond.release t) pc =
      ⟨flag, Function.update (observe stage flag cond pc).phase t .outside⟩ := by
    rw [← freed, ← observe_update stage others, Function.update_eq_self]
  rw [updated, step]
  split
  · rfl
  · next awake =>
    have already : (observe stage flag cond pc).phase t = .outside := by
      simp only [observe, waits, phaseOf] at awake ⊢
      split at awake
      · exact absurd rfl awake
      · next gone => exact if_neg gone
    rw [← already, Function.update_eq_self]
    rfl

end Observe

end Wakeup
