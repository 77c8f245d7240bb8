import Mathlib.Logic.Function.Basic

/-! Objects in a table, and who has them.

A table has an object at some keys. Of these some are live, and every live one
is had by exactly one owner, who knows its key and the object itself. Owners
that change an object, take one on or give one up one at a time keep that.
-/

set_option autoImplicit false

variable {κ β ν σ : Type}

structure Custody (table : κ → Option β) (live : β → Prop) (own : ν → Option (κ × β)) : Prop where
  holds : ∀ n k b, own n = some (k, b) → table k = some b ∧ live b
  known : ∀ k b, table k = some b → live b → ∃ n, own n = some (k, b)
  alone : ∀ n m k b c, own n = some (k, b) → own m = some (k, c) → n = m

namespace Custody

variable {table : κ → Option β} {live : β → Prop} {own : ν → Option (κ × β)} {k : κ} {n : ν} {b : β}

theorem empty (live : β → Prop) : Custody (fun _ : κ => none) live (fun _ : ν => none) where
  holds n k b has := by cases has
  known k b found := by cases found
  alone n m k b c first := by cases first

theorem free (custody : Custody table live own) (idle : ∀ b, table k = some b → ¬live b) (m : ν) (c : β) :
    own m ≠ some (k, c) := by
  intro has
  obtain ⟨found, alive⟩ := custody.holds m k c has
  exact idle c found alive

section Observe

variable [DecidableEq ν] (state : ν → σ) (n : ν) (s : σ) (f : ν → σ → β)

theorem observe_update :
    (fun m => f m (Function.update state n s m)) = Function.update (fun m => f m (state m)) n (f n s) := by
  funext m
  exact Function.apply_update f state n s m

theorem observe_same (same : f n s = f n (state n)) :
    (fun m => f m (Function.update state n s m)) = fun m => f m (state m) := by
  rw [observe_update state n s f, same]
  exact Function.update_eq_self n _

end Observe

theorem keep [DecidableEq ν] {state : ν → σ} {s : σ} (f : ν → σ → Option (κ × β))
    (custody : Custody table live fun m => f m (state m)) (same : f n s = f n (state n)) :
    Custody table live fun m => f m (Function.update state n s m) := by
  rw [observe_same state n s f same]
  exact custody

variable [DecidableEq κ]

omit [DecidableEq κ] in
theorem update_none [DecidableEq ν] {entry : ν → Option β} {m : ν} {c : β}
    (left : Function.update entry n none m = some c) : m ≠ n ∧ entry m = some c := by
  by_cases same : m = n
  · subst same
    rw [Function.update_self] at left
    cases left
  · rw [Function.update_of_ne same] at left
    exact ⟨same, left⟩

theorem update_dead {t : Option β} (dead : ∀ b, t = some b → ¬live b) {j : κ} {c : β}
    (found : Function.update table k t j = some c) (alive : live c) : j ≠ k ∧ table j = some c := by
  by_cases same : j = k
  · subst same
    rw [Function.update_self] at found
    exact absurd alive (dead c found)
  · rw [Function.update_of_ne same] at found
    exact ⟨same, found⟩

theorem idle (custody : Custody table live own) (nobody : ∀ m c, own m ≠ some (k, c)) {t : Option β}
    (dead : ∀ b, t = some b → ¬live b) : Custody (Function.update table k t) live own where
  holds m j c has := by
    have other : j ≠ k := fun same => nobody m c (same ▸ has)
    rw [Function.update_of_ne other]
    exact custody.holds m j c has
  known j c found alive := custody.known j c (update_dead dead found alive).2 alive
  alone := custody.alone

variable [DecidableEq ν]

/-- An owner who has nothing else takes an object that nobody else has. -/
theorem put (custody : Custody table live own) (nobody : ∀ m c, own m = some (k, c) → m = n)
    (only : ∀ j c, own n = some (j, c) → j = k) (alive : live b) :
    Custody (Function.update table k (some b)) live (Function.update own n (some (k, b))) where
  holds m j c has := by
    by_cases same : m = n
    · subst same
      rw [Function.update_self] at has
      cases has
      exact ⟨Function.update_self .., alive⟩
    · rw [Function.update_of_ne same] at has
      have other : j ≠ k := fun equal => same (nobody m c (equal ▸ has))
      rw [Function.update_of_ne other]
      exact custody.holds m j c has
  known j c found alive := by
    by_cases same : j = k
    · subst same
      rw [Function.update_self] at found
      cases found
      exact ⟨n, Function.update_self ..⟩
    · rw [Function.update_of_ne same] at found
      obtain ⟨m, has⟩ := custody.known j c found alive
      have other : m ≠ n := fun equal => same (only j c (equal ▸ has))
      exact ⟨m, by rwa [Function.update_of_ne other]⟩
  alone m p j c d first second := by
    have fresh : ∀ q e, q ≠ n → own q = some (k, e) → False := fun q e other has => other (nobody q e has)
    by_cases one : m = n <;> by_cases two : p = n
    · rw [one, two]
    · subst one
      rw [Function.update_self] at first
      rw [Function.update_of_ne two] at second
      cases first
      exact (fresh p d two second).elim
    · subst two
      rw [Function.update_self] at second
      rw [Function.update_of_ne one] at first
      cases second
      exact (fresh m c one first).elim
    · rw [Function.update_of_ne one] at first
      rw [Function.update_of_ne two] at second
      exact custody.alone m p j c d first second

theorem change (custody : Custody table live own) {c : β} (has : own n = some (k, c)) (alive : live b) :
    Custody (Function.update table k (some b)) live (Function.update own n (some (k, b))) := by
  refine custody.put (fun m d other => custody.alone m n k d c other has) (fun j d also => ?_) alive
  rw [has] at also
  cases also
  rfl

theorem take (custody : Custody table live own) (nothing : own n = none) (idle : ∀ b, table k = some b → ¬live b)
    (alive : live b) : Custody (Function.update table k (some b)) live (Function.update own n (some (k, b))) := by
  refine custody.put (fun m c has => absurd has (custody.free idle m c)) (fun j c has => ?_) alive
  rw [nothing] at has
  cases has

theorem drop (custody : Custody table live own) {c : β} (has : own n = some (k, c)) {t : Option β}
    (dead : ∀ b, t = some b → ¬live b) : Custody (Function.update table k t) live (Function.update own n none) where
  holds m j d left := by
    obtain ⟨same, left⟩ := update_none left
    have other : j ≠ k := fun equal => same (custody.alone m n k d c (equal ▸ left) has)
    rw [Function.update_of_ne other]
    exact custody.holds m j d left
  known j d found alive := by
    obtain ⟨same, found⟩ := update_dead dead found alive
    obtain ⟨m, left⟩ := custody.known j d found alive
    have other : m ≠ n := by
      intro equal
      rw [equal, has] at left
      cases left
      exact same rfl
    exact ⟨m, by rwa [Function.update_of_ne other]⟩
  alone m p j d e first second := custody.alone m p j d e (update_none first).2 (update_none second).2

end Custody
