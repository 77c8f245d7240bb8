import Mathlib.Computability.StateTransition

/-! Loops whose body may leave them.

The body of a loop is a function to an optional next state; no next state means
the loop is left. `runFuel` is the executable reading, and `Halts` is the
existence of a result of Mathlib's `StateTransition.eval`.
-/

set_option autoImplicit false

namespace Loop

variable {σ τ : Type} (step : σ → Option σ)

/-- At most `fuel` tests of the loop condition; none when they do not suffice. -/
def runFuel : Nat → σ → Option σ
  | 0, _ => none
  | fuel + 1, s =>
    match step s with
    | none => some s
    | some next => runFuel fuel next

def Halts (s : σ) : Prop := (StateTransition.eval step s).Dom

variable {step}

theorem runFuel_exit {s : σ} {fuel : Nat} (exit : step s = none) :
    runFuel step (fuel + 1) s = some s := by
  simp [runFuel, exit]

theorem runFuel_next {s next : σ} {fuel : Nat} (body : step s = some next) :
    runFuel step (fuel + 1) s = runFuel step fuel next := by
  simp [runFuel, body]

theorem mem_eval_of_runFuel {fuel : Nat} {s last : σ} (result : runFuel step fuel s = some last) :
    last ∈ StateTransition.eval step s := by
  induction fuel generalizing s with
  | zero => simp [runFuel] at result
  | succ fuel ih =>
    cases body : step s with
    | none =>
      rw [runFuel_exit body] at result
      cases result
      exact StateTransition.mem_eval.mpr ⟨.refl, body⟩
    | some next =>
      rw [runFuel_next body] at result
      have reached := StateTransition.mem_eval.mp (ih result)
      exact StateTransition.mem_eval.mpr ⟨.head body reached.1, reached.2⟩

theorem runFuel_of_mem_eval {s last : σ} (result : last ∈ StateTransition.eval step s) :
    ∃ fuel, runFuel step fuel s = some last := by
  obtain ⟨path, exit⟩ := StateTransition.mem_eval.mp result
  induction path using Relation.ReflTransGen.head_induction_on with
  | refl => exact ⟨1, runFuel_exit exit⟩
  | head body _ ih =>
    obtain ⟨fuel, rest⟩ := ih (StateTransition.mem_eval.mpr ⟨‹_›, exit⟩)
    exact ⟨fuel + 1, (runFuel_next body).trans rest⟩

theorem halts_iff_runFuel {s : σ} : Halts step s ↔ ∃ fuel last, runFuel step fuel s = some last := by
  constructor
  · intro halts
    obtain ⟨fuel, result⟩ := runFuel_of_mem_eval (Part.get_mem halts)
    exact ⟨fuel, _, result⟩
  · rintro ⟨fuel, last, result⟩
    exact Part.dom_iff_mem.mpr ⟨last, mem_eval_of_runFuel result⟩

theorem halts_iff_of_projection {other : τ → Option τ} (project : σ → τ)
    (agrees : ∀ s, (step s).map project = other (project s)) (s : σ) :
    Halts step s ↔ Halts other (project s) := by
  have respects : StateTransition.Respects step other (fun a b => project a = b) := by
    rw [StateTransition.fun_respects]
    intro a
    have same := agrees a
    cases body : step a with
    | none => rw [body] at same; exact same.symm
    | some next => rw [body] at same; exact .single same.symm
  exact (StateTransition.tr_eval_dom respects rfl).symm

/-- Where every iteration shrinks the state or leaves it as it was, the loop
halts exactly when it never comes to a state that its body leaves as it was. -/
theorem halts_iff_no_stall (size : σ → Nat)
    (shrinks : ∀ s next, step s = some next → size next < size s ∨ next = s) (s : σ) :
    Halts step s ↔ ∀ t, StateTransition.Reaches step s t → step t ≠ some t := by
  constructor
  · intro halts t reached stall
    rw [Halts, StateTransition.reaches_eval reached] at halts
    obtain ⟨path, exit⟩ := StateTransition.mem_eval.mp (Part.get_mem halts)
    -- From a state that the body keeps only that state is reached, and it is no exit.
    have stays : ∀ u, StateTransition.Reaches step t u → u = t := by
      intro u walk
      induction walk with
      | refl => rfl
      | tail _ body same =>
        subst same
        exact Option.some.inj ((Option.mem_def.mp body).symm.trans stall)
    rw [stays _ path, stall] at exit
    cases exit
  · intro moving
    -- Every iteration shrinks the size, so the induction is on its bound.
    induction measured : size s using Nat.strong_induction_on generalizing s with
    | _ bound ih =>
      cases body : step s with
      | none => exact halts_iff_runFuel.mpr ⟨1, s, runFuel_exit body⟩
      | some next =>
        rcases shrinks s next body with smaller | same
        · have tail := ih (size next) (measured ▸ smaller) next
            (fun t reached => moving t (.head body reached)) rfl
          obtain ⟨fuel, last, result⟩ := halts_iff_runFuel.mp tail
          exact halts_iff_runFuel.mpr ⟨fuel + 1, last, (runFuel_next body).trans result⟩
        · exact absurd (same ▸ body) (moving s .refl)

structure Part (σ τ : Type) where
  get : σ → τ
  put : σ → τ → σ
  get_put : ∀ s t, get (put s t) = t
  put_get : ∀ s, put s (get s) = s
  put_put : ∀ s t u, put (put s t) u = put s u

def Part.lift (part : Part σ τ) (body : τ → Option τ) (s : σ) : Option σ :=
  (body (part.get s)).map (part.put s)

theorem Part.runFuel_lift (part : Part σ τ) (body : τ → Option τ) (fuel : Nat) (s : σ) :
    runFuel (part.lift body) fuel s = (runFuel body fuel (part.get s)).map (part.put s) := by
  induction fuel generalizing s with
  | zero => rfl
  | succ fuel ih =>
    cases next : body (part.get s) with
    | none => simp [runFuel, lift, next, part.put_get]
    | some t =>
      have same : (fun u => part.put (part.put s t) u) = part.put s := funext (part.put_put s t)
      simp [runFuel, lift, next, ih, part.get_put, same]

theorem Part.reaches_lift (part : Part σ τ) (body : τ → Option τ) {s t : σ} :
    StateTransition.Reaches (part.lift body) s t ↔
      ∃ u, StateTransition.Reaches body (part.get s) u ∧ t = part.put s u := by
  constructor
  · intro reached
    induction reached with
    | refl => exact ⟨part.get s, .refl, (part.put_get s).symm⟩
    | tail _ next ih =>
      obtain ⟨u, inner, rfl⟩ := ih
      obtain ⟨v, body, rfl⟩ := Option.map_eq_some_iff.mp (Option.mem_def.mp next)
      rw [part.get_put] at body
      exact ⟨v, inner.tail body, part.put_put s u v⟩
  · rintro ⟨u, inner, rfl⟩
    induction inner with
    | refl =>
      rw [part.put_get]
      exact .refl
    | tail _ next ih =>
      refine ih.tail (Option.map_eq_some_iff.mpr ⟨_, ?_, part.put_put s _ _⟩)
      rw [part.get_put]
      exact next

theorem Part.halts_lift (part : Part σ τ) (body : τ → Option τ) (s : σ) :
    Halts (part.lift body) s ↔ Halts body (part.get s) := by
  apply halts_iff_of_projection
  intro s
  simp only [lift, Option.map_map]
  cases body (part.get s) with
  | none => rfl
  | some t => exact congrArg some (part.get_put s t)

/-- The rule of a loop over a list that may fail: what holds with the whole list
to go through holds at the end with nothing to go through. -/
theorem foldlM_some {ι : Type} {body : σ → ι → Option σ} (invariant : List ι → σ → Prop)
    (kept : ∀ i rest s, invariant (i :: rest) s → ∃ t, body s i = some t ∧ invariant rest t) {items : List ι} {s : σ}
    (start : invariant items s) : ∃ t, items.foldlM body s = some t ∧ invariant [] t := by
  induction items generalizing s with
  | nil => exact ⟨s, rfl, start⟩
  | cons i rest ih =>
    obtain ⟨t, ran, next⟩ := kept i rest s start
    obtain ⟨u, later, ends⟩ := ih next
    refine ⟨u, ?_, ends⟩
    rw [List.foldlM_cons, ran]
    exact later

end Loop
