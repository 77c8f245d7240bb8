import Dcn.Foundation.Runs
import Mathlib.Logic.Function.Basic

/-! Objects that are freed or replaced while others have them.

A thread that has the object of a `Lifetime` will touch it again until it drops
it. `Settled` is what keeps every touch before the free, and only a free under a
thread that has the object, or a take after the free, ends it. The holders of
`Handles` take a pointer to a thing as it is and use it later. What it points to
is told by how often the thing had been replaced, so a pointer to what was there
before never fits again. No use is of what was replaced exactly if nothing is
replaced that a holder keeps a pointer to.
-/

set_option autoImplicit false

namespace Lifetime

structure State (τ : Type) where
  held : τ → Bool
  freed : Bool
  misused : Bool

inductive Action (τ : Type) where
  | take (t : τ)
  | touch (t : τ) (drops : Bool)
  | free
  | skip

variable {τ : Type} [DecidableEq τ]

def step (s : State τ) : Action τ → State τ
  | .take t => { s with held := Function.update s.held t true }
  | .touch t drops =>
    if s.held t then
      { s with held := Function.update s.held t (!drops), misused := s.misused || s.freed }
    else s
  | .free => { s with freed := true }
  | .skip => s

/-- Nothing was touched after the free, and nothing is left that will be. -/
def Settled (s : State τ) : Prop :=
  s.misused = false ∧ (s.freed = true → ∀ t, s.held t = false)

/-- The object is freed when no thread has it, and taken before it is freed. -/
def Clear (s : State τ) : Action τ → Prop
  | .free => ∀ t, s.held t = false
  | .take _ => s.freed = false
  | _ => True

variable {s : State τ}

/-- A step that is not clear is all that can unsettle the object. -/
theorem settled_step_iff (settled : Settled s) (a : Action τ) : Settled (step s a) ↔ Clear s a := by
  obtain ⟨unused, gone⟩ := settled
  cases a with
  | take t =>
    constructor
    · intro after
      refine Bool.eq_false_iff.mpr fun freed => ?_
      have dropped : Function.update s.held t true t = false := after.2 freed t
      rw [Function.update_self] at dropped
      cases dropped
    · intro fresh
      refine ⟨unused, fun freed => ?_⟩
      rw [Clear, show s.freed = true from freed] at fresh
      cases fresh
  | touch t drops =>
    refine iff_of_true ?_ trivial
    rw [step]
    split
    · next has =>
      have fresh : s.freed = false := by
        refine Bool.eq_false_iff.mpr fun freed => ?_
        rw [gone freed t] at has
        cases has
      refine ⟨?_, fun freed => ?_⟩
      · rw [unused, fresh]
        rfl
      · rw [fresh] at freed
        cases freed
    · exact ⟨unused, gone⟩
  | free =>
    constructor
    · intro after
      exact after.2 rfl
    · intro nobody
      exact ⟨unused, fun _ => nobody⟩
  | skip => exact iff_of_true ⟨unused, gone⟩ trivial

theorem settled_of_step (a : Action τ) (after : Settled (step s a)) : Settled s := by
  cases a with
  | take t =>
    refine ⟨after.1, fun freed u => ?_⟩
    have dropped : Function.update s.held t true u = false := after.2 freed u
    by_cases same : u = t
    · subst same
      rw [Function.update_self] at dropped
      cases dropped
    · rwa [Function.update_of_ne same] at dropped
  | touch t drops =>
    rw [step] at after
    split at after
    · obtain ⟨unused, fresh⟩ := Bool.or_eq_false_iff.mp after.1
      refine ⟨unused, fun freed => ?_⟩
      rw [fresh] at freed
      cases freed
    · exact after
  | free => exact ⟨after.1, fun _ => after.2 rfl⟩
  | skip => exact after

omit [DecidableEq τ] in
theorem settled_of_dropped (unused : s.misused = false) (dropped : ∀ t, s.held t = false) : Settled s :=
  ⟨unused, fun _ => dropped⟩

section Programs

variable {σ α : Type} {next : σ → α → σ} {start : σ} {events : List α} (view : σ → State τ)
variable (action : σ → α → Action τ) (invariant : σ → Prop) {allowed : σ → α → Prop}
variable (agrees : ∀ p a, view (next p a) = step (view p) (action p a))
variable (preserved : ∀ p a, invariant p → invariant (next p a))
variable (clears : ∀ p a, invariant p → (Clear (view p) (action p a) ↔ allowed p a))

include agrees preserved clears

theorem settled_iff_allowed (holds : invariant start) (settled : Settled (view start)) :
    Runs.Throughout next (fun p => Settled (view p)) start events ↔ Runs.Along next allowed start events := by
  refine Runs.throughout_iff_along_all invariant preserved (fun p a holds settled => ?_) holds settled
  rw [agrees, ← clears p a holds]
  exact settled_step_iff settled (action p a)

/-- A program whose steps do to the object what their actions say never touches
it after the free, where each of them is clear. A run that never does, and at
whose end no thread has the object, has clear steps alone. -/
theorem never_misused_iff (holds : invariant start) (settled : Settled (view start)) :
    (Runs.Along next allowed start events → Runs.Throughout next (fun p => (view p).misused = false) start events) ∧
    ((∀ t, (view (Runs.run next start events)).held t = false) →
      Runs.Throughout next (fun p => (view p).misused = false) start events → Runs.Along next allowed start events) := by
  constructor
  · intro clear
    have throughout := (settled_iff_allowed view action invariant agrees preserved clears holds settled).mpr clear
    exact throughout.mono fun _ settled => settled.1
  · intro dropped unused
    refine (settled_iff_allowed view action invariant agrees preserved clears holds settled).mp ?_
    refine Runs.throughout_of_last_all (fun p a after => ?_) (settled_of_dropped unused.last dropped)
    rw [agrees] at after
    exact settled_of_step (action p a) after

end Programs

end Lifetime

/-- A system with holders that have one pointer at most. A pointer is taken to
what is there, and one that does not fit is used in the end: by a step that
replaces nothing, after others that do not and leave less to be done. -/
structure Handles (σ α ι : Type) where
  step : σ → α → σ
  version : σ → ι → Nat
  pointer : σ → ι → Option Nat
  uses : σ → α → ι → Prop
  left : σ → ι → Nat
  taken : ∀ {s a i v}, pointer (step s a) i = some v →
    pointer s i = some v ∨ pointer s i = none ∧ v = version (step s a) i
  used : ∀ {s i v}, pointer s i = some v → v ≠ version s i → ∃ a, (∀ j, version (step s a) j = version s j) ∧
    (uses s a i ∨ pointer (step s a) i = some v ∧ left (step s a) i < left s i)

namespace Handles

variable {σ α ι : Type} (h : Handles σ α ι) {s : σ} {a : α} {actions : List α} {i : ι} {v : Nat}

def Safe (s : σ) (a : α) : Prop := ∀ i v, h.uses s a i → h.pointer s i = some v → v = h.version s i

/-- Who has a pointer to what the step replaces drops it with the step. -/
def Still (s : σ) (a : α) : Prop :=
  ∀ i, h.version (h.step s a) i ≠ h.version s i → (h.pointer s i).isSome → h.pointer (h.step s a) i = none

def Current (s : σ) : Prop := ∀ i v, h.pointer s i = some v → v = h.version s i

def Harmless (s : σ) : Prop := Runs.Forever h.step h.Still h.Safe s

theorem current_step (s : σ) (a : α) (current : h.Current s) (still : h.Still s a) : h.Current (h.step s a) := by
  intro i v has
  rcases h.taken has with kept | ⟨-, fresh⟩
  · by_contra stale
    have before := current i v kept
    have replaced : h.version (h.step s a) i ≠ h.version s i := fun same => stale (before.trans same.symm)
    have dropped := still i replaced (by rw [kept]; rfl)
    rw [dropped] at has
    cases has
  · exact fresh

theorem current_run (current : h.Current s) (still : Runs.Along h.step h.Still s actions) :
    h.Current (Runs.run h.step s actions) :=
  (Runs.throughout_of_preserved h.current_step current still).last

theorem harmless_of_current (current : h.Current s) : h.Harmless s :=
  Runs.forever_of_invariant h.current_step (fun _ _ current _ i v _ has => current i v has) current

theorem not_harmless_of_stale (has : h.pointer s i = some v) (stale : v ≠ h.version s i) : ¬h.Harmless s := by
  induction measured : h.left s i using Nat.strong_induction_on generalizing s with
  | _ n ih =>
    intro harmless
    obtain ⟨a, same, rest⟩ := h.used has stale
    have still : h.Still s a := fun j replaced => absurd (same j) replaced
    rcases rest with now | ⟨keeps, less⟩
    · exact stale (harmless.now still i v now has)
    · exact ih _ (measured ▸ less) keeps ((same i).symm ▸ stale) rfl (harmless.next still)

/-- The condition on the steps cannot be weakened. -/
theorem harmless_step_iff (current : h.Current s) : h.Harmless (h.step s a) ↔ h.Still s a := by
  refine ⟨fun harmless i replaced held => ?_, fun still => h.harmless_of_current (h.current_step s a current still)⟩
  cases after : h.pointer (h.step s a) i with
  | none => rfl
  | some v =>
    rcases h.taken after with kept | ⟨free, -⟩
    · have before := current i v kept
      exact absurd harmless (h.not_harmless_of_stale after fun same => replaced (same.symm.trans before))
    · rw [free] at held
      cases held

end Handles
