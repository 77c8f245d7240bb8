import Mathlib.Algebra.BigOperators.Group.Finset.Basic
import Mathlib.Algebra.Order.BigOperators.Group.Finset
import Mathlib.Data.List.Infix

/-! Runs of a labelled transition function.

A system is a total function from a state and an action to the next state; an
action that is not enabled leaves the state as it is. Statements about every
reachable state are statements about every state a run passes through. A
property can also be kept only by some steps; `throughout_iff_along` then says
which runs keep it. A number that falls with every step bounds the length of a
run and brings it to rest. Two machines that answer calls are related by a
simulation.
-/

set_option autoImplicit false

namespace Runs

variable {σ α : Type} (step : σ → α → σ)

def run (s : σ) (actions : List α) : σ := actions.foldl step s

def states (s : σ) : List α → List σ
  | [] => [s]
  | a :: rest => s :: states (step s a) rest

/-- `allowed` holds of every step of the run, in the state it is taken from. -/
def Along (allowed : σ → α → Prop) (s : σ) : List α → Prop
  | [] => True
  | a :: rest => allowed s a ∧ Along allowed (step s a) rest

def Throughout (property : σ → Prop) (s : σ) (actions : List α) : Prop :=
  ∀ t ∈ states step s actions, property t

@[simp] theorem run_nil (s : σ) : run step s [] = s := rfl

@[simp] theorem run_cons (s : σ) (a : α) (rest : List α) :
    run step s (a :: rest) = run step (step s a) rest := rfl

theorem run_append (s : σ) (first second : List α) :
    run step s (first ++ second) = run step (run step s first) second :=
  List.foldl_append

variable {step} {s : σ} {a : α} {rest actions : List α}
variable {property invariant : σ → Prop} {allowed legal : σ → α → Prop}

@[simp] theorem throughout_nil : Throughout step property s [] ↔ property s := by
  simp [Throughout, states]

@[simp] theorem throughout_cons :
    Throughout step property s (a :: rest) ↔ property s ∧ Throughout step property (step s a) rest := by
  simp [Throughout, states]

@[simp] theorem along_nil : Along step allowed s [] := trivial

@[simp] theorem along_cons :
    Along step allowed s (a :: rest) ↔ allowed s a ∧ Along step allowed (step s a) rest := Iff.rfl

instance decidableAlong [∀ s a, Decidable (allowed s a)] :
    (s : σ) → (actions : List α) → Decidable (Along step allowed s actions)
  | _, [] => .isTrue trivial
  | s, a :: rest =>
    have := decidableAlong (step s a) rest
    inferInstanceAs (Decidable (allowed s a ∧ Along step allowed (step s a) rest))

theorem Along.mono {wider : σ → α → Prop} (weaken : ∀ s a, allowed s a → wider s a)
    (along : Along step allowed s actions) : Along step wider s actions := by
  induction actions generalizing s with
  | nil => trivial
  | cons a rest ih => exact ⟨weaken _ _ along.1, ih along.2⟩

theorem along_true (s : σ) (actions : List α) : Along step (fun _ _ => True) s actions := by
  induction actions generalizing s with
  | nil => trivial
  | cons a rest ih => exact ⟨trivial, ih (step s a)⟩

theorem along_of_forall {fine : α → Prop} (all : ∀ a ∈ actions, fine a) :
    Along step (fun _ a => fine a) s actions := by
  induction actions generalizing s with
  | nil => trivial
  | cons a rest ih =>
    exact ⟨all a List.mem_cons_self, ih fun b member => all b (List.mem_cons_of_mem a member)⟩

theorem along_iff_forall {fine : α → Prop} : Along step (fun _ a => fine a) s actions ↔ ∀ a ∈ actions, fine a := by
  refine ⟨fun along a member => ?_, along_of_forall⟩
  induction actions generalizing s with
  | nil => cases member
  | cons b rest ih =>
    rcases List.mem_cons.mp member with same | later
    · exact same ▸ along.1
    · exact ih along.2 later

theorem throughout_iff_initial :
    Throughout step property s actions ↔ ∀ before, before <+: actions → property (run step s before) := by
  induction actions generalizing s with
  | nil =>
    simp only [throughout_nil, List.prefix_nil]
    exact ⟨fun holds before same => same ▸ holds, fun holds => holds [] rfl⟩
  | cons a rest ih =>
    rw [throughout_cons, ih]
    constructor
    · rintro ⟨here, later⟩ before initial
      cases before with
      | nil => exact here
      | cons b tail =>
        obtain ⟨same, shorter⟩ := List.cons_prefix_cons.mp initial
        subst same
        exact later tail shorter
    · intro holds
      exact ⟨holds [] List.nil_prefix,
        fun tail initial => holds (a :: tail) (List.cons_prefix_cons.mpr ⟨rfl, initial⟩)⟩

theorem along_iff_split :
    Along step allowed s actions ↔
      ∀ before a after, actions = before ++ a :: after → allowed (run step s before) a := by
  induction actions generalizing s with
  | nil =>
    refine iff_of_true trivial fun before a after same => ?_
    cases before <;> cases same
  | cons b rest ih =>
    rw [along_cons, ih]
    constructor
    · rintro ⟨here, later⟩ before a after same
      cases before with
      | nil =>
        cases same
        exact here
      | cons _ tail =>
        cases same
        exact later tail a after rfl
    · intro holds
      exact ⟨holds [] b rest rfl, fun before a after same => holds (b :: before) a after (by rw [same]; rfl)⟩

theorem throughout_append {more : List α} : Throughout step property s (actions ++ more) ↔
    Throughout step property s actions ∧ Throughout step property (run step s actions) more := by
  induction actions generalizing s with
  | nil =>
    rw [List.nil_append, throughout_nil, run_nil]
    refine ⟨fun holds => ⟨?_, holds⟩, And.right⟩
    exact throughout_iff_initial.mp holds [] List.nil_prefix
  | cons a rest ih => rw [List.cons_append, throughout_cons, throughout_cons, ih, run_cons, and_assoc]

theorem along_append {more : List α} : Along step allowed s (actions ++ more) ↔
    Along step allowed s actions ∧ Along step allowed (run step s actions) more := by
  induction actions generalizing s with
  | nil => simp only [List.nil_append, along_nil, run_nil, true_and]
  | cons a rest ih => rw [List.cons_append, along_cons, along_cons, ih, run_cons, and_assoc]

theorem Throughout.last (throughout : Throughout step property s actions) :
    property (run step s actions) :=
  throughout_iff_initial.mp throughout actions List.prefix_rfl

theorem Throughout.mono {wider : σ → Prop} (weaken : ∀ s, property s → wider s)
    (throughout : Throughout step property s actions) : Throughout step wider s actions :=
  fun t member => weaken t (throughout t member)

theorem throughout_of_preserved
    (preserved : ∀ s a, invariant s → legal s a → invariant (step s a))
    (start : invariant s) (along : Along step legal s actions) :
    Throughout step invariant s actions := by
  induction actions generalizing s with
  | nil => exact throughout_nil.mpr start
  | cons a rest ih =>
    exact throughout_cons.mpr ⟨start, ih (preserved s a start along.1) along.2⟩

/-- When a legal step keeps the property exactly if it is allowed, the property
holds throughout exactly the runs all of whose steps are allowed. -/
theorem throughout_iff_along
    (preserved : ∀ s a, invariant s → legal s a → invariant (step s a))
    (exact_step : ∀ s a, invariant s → property s → legal s a → (property (step s a) ↔ allowed s a))
    (start : invariant s) (holds : property s) (along : Along step legal s actions) :
    Throughout step property s actions ↔ Along step allowed s actions := by
  induction actions generalizing s with
  | nil => simp [holds]
  | cons a rest ih =>
    have kept := exact_step s a start holds along.1
    have later := fun next => ih (preserved s a start along.1) next along.2
    rw [throughout_cons, along_cons]
    constructor
    · rintro ⟨_, tail⟩
      have next : property (step s a) := tail _ (by cases rest <;> simp [states])
      exact ⟨kept.mp next, (later next).mp tail⟩
    · rintro ⟨head, tail⟩
      have next := kept.mpr head
      exact ⟨holds, (later next).mpr tail⟩

theorem along_iff_along {kept : σ → α → Prop}
    (preserved : ∀ s a, invariant s → legal s a → allowed s a → invariant (step s a))
    (exact_step : ∀ s a, invariant s → legal s a → (kept s a ↔ allowed s a))
    (start : invariant s) (along : Along step legal s actions) :
    Along step kept s actions ↔ Along step allowed s actions := by
  induction actions generalizing s with
  | nil => exact Iff.rfl
  | cons a rest ih =>
    rw [along_cons, along_cons, exact_step s a start along.1]
    exact and_congr_right fun fine => ih (preserved s a start along.1 fine) along.2

theorem throughout_of_preserved_all (preserved : ∀ s a, invariant s → invariant (step s a))
    (start : invariant s) (actions : List α) : Throughout step invariant s actions :=
  throughout_of_preserved (fun s a kept _ => preserved s a kept) start (along_true s actions)

theorem throughout_iff_along_all (invariant : σ → Prop)
    (preserved : ∀ s a, invariant s → invariant (step s a))
    (exact_step : ∀ s a, invariant s → property s → (property (step s a) ↔ allowed s a))
    (start : invariant s) (holds : property s) :
    Throughout step property s actions ↔ Along step allowed s actions := by
  exact throughout_iff_along (fun s a kept _ => preserved s a kept)
    (fun s a kept holds _ => exact_step s a kept holds) start holds (along_true s actions)

theorem along_of_throughout (throughout : Throughout step property s actions) :
    Along step (fun s a => property s ∧ property (step s a)) s actions := by
  induction actions generalizing s with
  | nil => trivial
  | cons a rest ih =>
    obtain ⟨here, later⟩ := throughout_cons.mp throughout
    exact ⟨⟨here, throughout_iff_initial.mp later [] List.nil_prefix⟩, ih later⟩

/-- A property that no legal step regains holds throughout the runs at whose
end it holds. -/
theorem throughout_of_last (preserved : ∀ s a, invariant s → legal s a → invariant (step s a))
    (lost : ∀ s a, invariant s → legal s a → ¬ property s → ¬ property (step s a))
    (start : invariant s) (along : Along step legal s actions) (last : property (run step s actions)) :
    Throughout step property s actions := by
  induction actions generalizing s with
  | nil => exact throughout_nil.mpr last
  | cons a rest ih =>
    have later := ih (preserved s a start along.1) along.2 last
    refine throughout_cons.mpr ⟨?_, later⟩
    by_contra missing
    exact lost s a start along.1 missing (throughout_iff_initial.mp later [] List.nil_prefix)

theorem throughout_of_last_all (lost : ∀ s a, property (step s a) → property s) (last : property (run step s actions)) :
    Throughout step property s actions := by
  induction actions generalizing s with
  | nil => exact throughout_nil.mpr last
  | cons a rest ih =>
    have later := ih last
    exact throughout_cons.mpr ⟨lost s a (throughout_iff_initial.mp later [] List.nil_prefix), later⟩

section Outputs

variable {β : Type} (out taken put : σ → α → List β) (held : σ → List β)

def outputs (step : σ → α → σ) (out : σ → α → List β) (s : σ) : List α → List β
  | [] => []
  | a :: rest => out s a ++ outputs step out (step s a) rest

@[simp] theorem outputs_nil : outputs step out s [] = [] := rfl

@[simp] theorem outputs_cons :
    outputs step out s (a :: rest) = out s a ++ outputs step out (step s a) rest := rfl

theorem filter_outputs (keep : β → Bool) (s : σ) (actions : List α) :
    (outputs step out s actions).filter keep = outputs step (fun s a => (out s a).filter keep) s actions := by
  induction actions generalizing s with
  | nil => rfl
  | cons a rest ih => rw [outputs_cons, outputs_cons, List.filter_append, ih]

theorem map_outputs {γ : Type} (f : β → γ) (s : σ) (actions : List α) :
    (outputs step out s actions).map f = outputs step (fun s a => (out s a).map f) s actions := by
  induction actions generalizing s with
  | nil => rfl
  | cons a rest ih => rw [outputs_cons, outputs_cons, List.map_append, ih]

theorem mem_outputs {b : β} : b ∈ outputs step out s actions ↔
    ∃ before a after, actions = before ++ a :: after ∧ b ∈ out (run step s before) a := by
  induction actions generalizing s with
  | nil => simp
  | cons a rest ih =>
    rw [outputs_cons, List.mem_append, ih]
    constructor
    · rintro (here | ⟨before, c, after, rfl, member⟩)
      · exact ⟨[], a, rest, rfl, here⟩
      · exact ⟨a :: before, c, after, rfl, member⟩
    · rintro ⟨before, c, after, same, member⟩
      cases before with
      | nil =>
        cases same
        exact .inl member
      | cons _ tail =>
        cases same
        exact .inr ⟨tail, c, after, rfl, member⟩

theorem outputs_congr {other : σ → α → List β} (preserved : ∀ s a, invariant s → invariant (step s a))
    (agree : ∀ s a, invariant s → out s a = other s a) (start : invariant s) :
    outputs step out s actions = outputs step other s actions := by
  induction actions generalizing s with
  | nil => rfl
  | cons a rest ih => rw [outputs_cons, outputs_cons, agree s a start, ih (preserved s a start)]

/-- Where every step takes from the front of what is held and puts at its end,
what a run takes and what it leaves is what was held and what it put, in order. -/
theorem outputs_fifo (preserved : ∀ s a, invariant s → legal s a → invariant (step s a))
    (balanced : ∀ s a, invariant s → legal s a → taken s a ++ held (step s a) = held s ++ put s a)
    (start : invariant s) (along : Along step legal s actions) :
    outputs step taken s actions ++ held (run step s actions) = held s ++ outputs step put s actions := by
  induction actions generalizing s with
  | nil => simp
  | cons a rest ih =>
    have later := ih (preserved s a start along.1) along.2
    have here := balanced s a start along.1
    rw [outputs_cons, outputs_cons, run_cons, List.append_assoc, later, ← List.append_assoc, here,
      List.append_assoc]

theorem outputs_fifo_all (preserved : ∀ s a, invariant s → invariant (step s a))
    (balanced : ∀ s a, invariant s → taken s a ++ held (step s a) = held s ++ put s a) (start : invariant s)
    (actions : List α) :
    outputs step taken s actions ++ held (run step s actions) = held s ++ outputs step put s actions :=
  outputs_fifo taken put held (fun s a kept _ => preserved s a kept) (fun s a kept _ => balanced s a kept) start
    (along_true s actions)

end Outputs

section Projection

variable {τ : Type} {other : τ → α → τ} (project : σ → τ)

theorem states_project (agrees : ∀ s a, project (step s a) = other (project s) a) (s : σ)
    (actions : List α) : (states step s actions).map project = states other (project s) actions := by
  induction actions generalizing s with
  | nil => rfl
  | cons a rest ih => rw [states, List.map_cons, ih, agrees, states]

theorem throughout_project (agrees : ∀ s a, project (step s a) = other (project s) a)
    (kept : τ → Prop) (s : σ) (actions : List α) :
    Throughout step (fun t => kept (project t)) s actions ↔
      Throughout other kept (project s) actions := by
  simp only [Throughout, ← states_project project agrees, List.forall_mem_map]

theorem along_project (agrees : ∀ s a, project (step s a) = other (project s) a)
    (kept : τ → α → Prop) (s : σ) (actions : List α) :
    Along step (fun t a => kept (project t) a) s actions ↔ Along other kept (project s) actions := by
  induction actions generalizing s with
  | nil => exact Iff.rfl
  | cons a rest ih => rw [along_cons, along_cons, ih, agrees]

end Projection

section Forever

variable {safe : σ → α → Prop}

def Forever (step : σ → α → σ) (allowed safe : σ → α → Prop) (s : σ) : Prop :=
  ∀ actions, Along step allowed s actions → Along step safe s actions

theorem Forever.now (forever : Forever step allowed safe s) (fine : allowed s a) : safe s a :=
  (forever [a] ⟨fine, trivial⟩).1

theorem Forever.next (forever : Forever step allowed safe s) (fine : allowed s a) :
    Forever step allowed safe (step s a) :=
  fun rest along => (forever (a :: rest) ⟨fine, along⟩).2

theorem forever_of_invariant {invariant : σ → Prop}
    (preserved : ∀ s a, invariant s → allowed s a → invariant (step s a))
    (safe_of : ∀ s a, invariant s → allowed s a → safe s a) (holds : invariant s) :
    Forever step allowed safe s := by
  intro actions along
  induction actions generalizing s with
  | nil => trivial
  | cons a rest ih => exact ⟨safe_of s a holds along.1, ih (preserved s a holds along.1) along.2⟩

end Forever

section Rest

variable {due : σ → α → Prop} (rank : σ → Nat)

/-- A run of steps that are due is no longer than the rank it starts with. -/
theorem length_add_rank_le (preserved : ∀ s a, invariant s → due s a → invariant (step s a))
    (falls : ∀ s a, invariant s → due s a → rank (step s a) < rank s) (start : invariant s)
    (along : Along step due s actions) : actions.length + rank (run step s actions) ≤ rank s := by
  induction actions generalizing s with
  | nil => simp
  | cons a rest ih =>
    have later := ih (preserved s a start along.1) along.2
    have here := falls s a start along.1
    rw [List.length_cons, run_cons]
    omega

/-- Where steps are due, they can be taken until none is. -/
theorem exists_rest (preserved : ∀ s a, invariant s → due s a → invariant (step s a))
    (falls : ∀ s a, invariant s → due s a → rank (step s a) < rank s) (start : invariant s) :
    ∃ actions, Along step due s actions ∧ ∀ a, ¬due (run step s actions) a := by
  induction measured : rank s using Nat.strong_induction_on generalizing s with
  | _ n ih =>
    by_cases more : ∃ a, due s a
    · obtain ⟨a, isDue⟩ := more
      obtain ⟨rest, along, final⟩ := ih _ (measured ▸ falls s a start isDue) (preserved s a start isDue) rfl
      exact ⟨a :: rest, ⟨isDue, along⟩, final⟩
    · exact ⟨[], trivial, fun a isDue => more ⟨a, isDue⟩⟩

end Rest

end Runs

section Sums

variable {ι : Type} [DecidableEq ι] {parts : Finset ι} {before after : ι → Nat} {i : ι} {k : Nat}

theorem sum_le_of_raise (others : ∀ j, j ≠ i → after j = before j) (raise : after i ≤ before i + k) :
    ∑ j ∈ parts, after j ≤ ∑ j ∈ parts, before j + k := by
  by_cases inside : i ∈ parts
  · rw [← Finset.add_sum_erase parts after inside, ← Finset.add_sum_erase parts before inside]
    have same : ∑ j ∈ parts.erase i, after j = ∑ j ∈ parts.erase i, before j :=
      Finset.sum_congr rfl fun j member => others j (Finset.ne_of_mem_erase member)
    omega
  · have same : ∑ j ∈ parts, after j = ∑ j ∈ parts, before j :=
      Finset.sum_congr rfl fun j member => others j fun isI => inside (isI ▸ member)
    omega

theorem sum_le_of_drop (inside : i ∈ parts) (others : ∀ j, j ≠ i → after j = before j)
    (drop : after i + k ≤ before i) : ∑ j ∈ parts, after j + k ≤ ∑ j ∈ parts, before j := by
  rw [← Finset.add_sum_erase parts after inside, ← Finset.add_sum_erase parts before inside]
  have same : ∑ j ∈ parts.erase i, after j = ∑ j ∈ parts.erase i, before j :=
    Finset.sum_congr rfl fun j member => others j (Finset.ne_of_mem_erase member)
  omega

end Sums

/-! The concrete machine answers a call and moves on, or it has no result, which
is how a fault of the code is modelled. The abstract machine always answers. A
relation that one call keeps, with equal answers, is kept by every run. -/

namespace Refinement

variable {σ τ α β : Type}

/-- The answers to the calls and the state left; none once a call has no result. -/
def execute (concrete : σ → α → Option (β × σ)) : σ → List α → Option (List β × σ)
  | s, [] => some ([], s)
  | s, a :: rest =>
    (concrete s a).bind fun r => (execute concrete r.2 rest).map fun last => (r.1 :: last.1, last.2)

def replay (abstract : τ → α → β × τ) : τ → List α → List β × τ
  | t, [] => ([], t)
  | t, a :: rest =>
    let last := replay abstract (abstract t a).2 rest
    ((abstract t a).1 :: last.1, last.2)

def Simulates (concrete : σ → α → Option (β × σ)) (abstract : τ → α → β × τ) (related : σ → τ → Prop) : Prop :=
  ∀ s t a, related s t → ∃ next, concrete s a = some ((abstract t a).1, next) ∧ related next (abstract t a).2

variable {concrete : σ → α → Option (β × σ)} {abstract : τ → α → β × τ} {related : σ → τ → Prop}

theorem Simulates.run (simulates : Simulates concrete abstract related) (calls : List α) {s : σ} {t : τ}
    (start : related s t) :
    ∃ last, execute concrete s calls = some ((replay abstract t calls).1, last) ∧
      related last (replay abstract t calls).2 := by
  induction calls generalizing s t with
  | nil => exact ⟨s, rfl, start⟩
  | cons a rest ih =>
    obtain ⟨next, answered, kept⟩ := simulates s t a start
    obtain ⟨last, executed, related⟩ := ih kept
    refine ⟨last, ?_, related⟩
    rw [execute, answered, Option.bind_some, executed]
    rfl

end Refinement
