import Mathlib.Data.List.Basic
import Mathlib.Logic.Function.Basic

/-! Threads under one lock.

The lock is the thread that holds it, and a place in the code is inside when a
thread there holds the lock. Each lemma of `Mutex` is what one kind of step does
to the fact that only the holder is inside. `Locking` follows one thread that
may take its lock more than once: how often it holds the lock after a path is
defined for the paths on which it gives back only what it holds, and holds it at
every use that is guarded.
-/

set_option autoImplicit false

namespace Mutex

variable {τ π : Type} (inside : π → Bool)

def Exclusive (owner : Option τ) (pc : τ → π) : Prop := ∀ t, inside (pc t) = true → owner = some t

variable {inside} {owner : Option τ} {pc : τ → π} {t u : τ} {place : π}

theorem Exclusive.alone (exclusive : Exclusive inside owner pc) (here : inside (pc t) = true)
    (there : inside (pc u) = true) : u = t :=
  Option.some.inj ((exclusive u there).symm.trans (exclusive t here))

variable [DecidableEq τ]

theorem Exclusive.move (exclusive : Exclusive inside owner pc)
    (within : inside place = true → inside (pc t) = true) :
    Exclusive inside owner (Function.update pc t place) := by
  intro u held
  by_cases same : u = t
  · subst same
    rw [Function.update_self] at held
    exact exclusive u (within held)
  · rw [Function.update_of_ne same] at held
    exact exclusive u held

theorem Exclusive.acquire (exclusive : Exclusive inside none pc) :
    Exclusive inside (some t) (Function.update pc t place) := by
  intro u held
  by_cases same : u = t
  · rw [same]
  · rw [Function.update_of_ne same] at held
    cases exclusive u held

theorem Exclusive.release (exclusive : Exclusive inside owner pc) (held : inside (pc t) = true)
    (left : inside place = false) : Exclusive inside none (Function.update pc t place) := by
  intro u still
  by_cases same : u = t
  · subst same
    rw [Function.update_self, left] at still
    cases still
  · rw [Function.update_of_ne same] at still
    exact absurd (exclusive.alone held still) same

end Mutex

namespace Locking

inductive Event (ε : Type) where
  | lock
  | unlock
  | use (what : ε)
  deriving DecidableEq

structure Path (ε : Type) where
  events : List (Event ε)
  returned : Bool

variable {ε : Type} (guarded : ε → Bool)

/-- How often the lock is held after an event; none where the event is not
allowed. -/
def Event.after (held : Nat) : Event ε → Option Nat
  | .lock => some (held + 1)
  | .unlock => if held = 0 then none else some (held - 1)
  | .use what => if guarded what && held = 0 then none else some held

def after (held : Nat) (events : List (Event ε)) : Option Nat :=
  events.foldlM (Event.after guarded) held

/-- The thread keeps the discipline, and holds the lock no longer once it
returned. -/
def Kept (path : Path ε) : Prop :=
  ∃ held, after guarded 0 path.events = some held ∧ (path.returned = true → held = 0)

variable {guarded} {held : Nat} {events : List (Event ε)} {what : ε}

@[simp] theorem after_nil : after guarded held [] = some held := rfl

@[simp] theorem after_lock : after guarded held (.lock :: events) = after guarded (held + 1) events := rfl

@[simp] theorem after_unlock : after guarded (held + 1) (.unlock :: events) = after guarded held events := rfl

@[simp] theorem after_unlock_free : after guarded 0 (.unlock :: events) = none := rfl

@[simp] theorem after_use_held : after guarded (held + 1) (.use what :: events) = after guarded (held + 1) events := by
  simp [after, Event.after]

theorem after_use_free : after guarded 0 (.use what :: events) =
    if guarded what then none else after guarded 0 events := by
  cases guards : guarded what <;> simp [after, Event.after, guards]

theorem after_append (first second : List (Event ε)) :
    after guarded held (first ++ second) = (after guarded held first).bind fun held => after guarded held second :=
  List.foldlM_append

theorem Kept.of_free {returned : Bool} (free : after guarded 0 events = some 0) : Kept guarded ⟨events, returned⟩ :=
  ⟨0, free, fun _ => rfl⟩

theorem not_kept_of_none {path : Path ε} (breaks : after guarded 0 path.events = none) : ¬ Kept guarded path := by
  rintro ⟨held, reached, _⟩
  rw [breaks] at reached
  cases reached

end Locking
