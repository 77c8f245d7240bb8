import Mathlib.Algebra.Order.BigOperators.Group.Finset
import Mathlib.Data.Fintype.Card
import Dcn.Foundation.Runs

/-! Worklists with a state, processed in any order.

An item is processed by a function of the state and of a label, and may give
rise to more items. Where every item stands for a vertex of a tree and gives
rise to items for children of its vertex only, no vertex has two items in any
run, whatever the order; so what is processed is bounded, and a log kept by the
state is a log over distinct vertices.
-/

set_option autoImplicit false

structure Worklist (σ ι : Type) where
  state : σ
  pending : List ι
  done : List ι

namespace Worklist

variable {σ ι κ ν β : Type}

def start (state : σ) (root : ι) : Worklist σ ι := ⟨state, [root], []⟩

def items (w : Worklist σ ι) : List ι := w.pending ++ w.done

def step (process : σ → κ → ι → σ × List ι) (w : Worklist σ ι) (choice : Nat × κ) : Worklist σ ι :=
  match w.pending[choice.1]? with
  | none => w
  | some a =>
    let (state, more) := process w.state choice.2 a
    ⟨state, w.pending.eraseIdx choice.1 ++ more, w.done ++ [a]⟩

structure Spreads (process : σ → κ → ι → σ × List ι) (valid : σ → Prop) (good : ι → Prop)
    (vertex : ι → ν) (parent : ν → Option ν) : Prop where
  state : ∀ s k a, valid s → good a → valid (process s k a).1
  items : ∀ s k a, valid s → good a → ∀ b ∈ (process s k a).2, good b
  child : ∀ s k a, valid s → good a → ∀ b ∈ (process s k a).2, parent (vertex b) = some (vertex a)
  distinct : ∀ s k a, valid s → good a → ((process s k a).2.map vertex).Nodup

structure Grown (valid : σ → Prop) (good : ι → Prop) (vertex : ι → ν) (parent : ν → Option ν)
    (w : Worklist σ ι) : Prop where
  state : valid w.state
  items : ∀ a ∈ w.items, good a
  distinct : (w.items.map vertex).Nodup
  rooted : ∀ a ∈ w.items, ∀ v, parent (vertex a) = some v → v ∈ w.done.map vertex

/-- The state's log is what the processed items stand for, in their order. -/
def Logged (log : σ → List β) (entries : ι → List β) (w : Worklist σ ι) : Prop :=
  log w.state = w.done.flatMap entries

structure Complete (vertex : ι → ν) (parent : ν → Option ν) (root : ν) (w : Worklist σ ι) : Prop where
  root : root ∈ w.items.map vertex
  child : ∀ a ∈ w.done, ∀ v, parent v = some (vertex a) → v ∈ w.items.map vertex

section Lists

variable {α : Type}

theorem filter_eq_singleton {l : List α} {key : α → β} {picks : α → Bool} (keys : (l.map key).Nodup) {a : α}
    (member : a ∈ l) (picked : picks a = true) (same : ∀ b ∈ l, picks b = true → key b = key a) :
    l.filter picks = [a] := by
  have kept : ((l.filter picks).map key).Nodup := keys.sublist (List.filter_sublist.map key)
  have inside : a ∈ l.filter picks := List.mem_filter.mpr ⟨member, picked⟩
  have equal : (l.filter picks).map key = List.replicate (l.filter picks).length (key a) := by
    rw [← List.length_map key]
    refine List.eq_replicate_of_mem (List.forall_mem_map.mpr fun b member => ?_)
    exact same b (List.mem_filter.mp member).1 (List.mem_filter.mp member).2
  rw [equal, List.nodup_replicate] at kept
  obtain ⟨b, only⟩ := List.length_eq_one_iff.mp (Nat.le_antisymm kept (List.length_pos_of_mem inside))
  rw [only, List.mem_singleton] at inside
  rw [only, inside]

theorem nodup_filterMap {l : List α} {key : α → β} {f : α → Option ν} (keys : (l.map key).Nodup)
    (same : ∀ a ∈ l, ∀ b ∈ l, ∀ v, f a = some v → f b = some v → key a = key b) : (l.filterMap f).Nodup := by
  have apart := List.Pairwise.and_mem.mp (List.pairwise_map.mp keys)
  apply List.pairwise_filterMap.mpr
  refine apart.imp fun {a b} between v isV u isU equal => ?_
  subst equal
  exact between.2.2 (same a between.1 b between.2.1 v isV isU)

theorem nodup_flatMap {l : List α} {vertex : α → ν} {entries : α → List β} (place : β → ν)
    (distinct : (l.map vertex).Nodup) (each : ∀ a ∈ l, (entries a).Nodup)
    (placed : ∀ a ∈ l, ∀ e ∈ entries a, place e = vertex a) : (l.flatMap entries).Nodup := by
  have apart := List.Pairwise.and_mem.mp (List.pairwise_map.mp distinct)
  refine List.nodup_flatMap.mpr ⟨each, apart.imp fun {a b} between e isLeft isRight => ?_⟩
  exact between.2.2 ((placed a between.1 e isLeft).symm.trans (placed b between.2.1 e isRight))

theorem length_le_sum [Fintype ν] {l : List (ν × β)} (within : ν → List β) (distinct : l.Nodup)
    (inside : ∀ e ∈ l, e.2 ∈ within e.1) : l.length ≤ ∑ v, (within v).length := by
  classical
  calc l.length = l.toFinset.card := (List.toFinset_card_of_nodup distinct).symm
    _ ≤ (Finset.univ.biUnion fun v => ((within v).map (Prod.mk v)).toFinset).card := by
        apply Finset.card_le_card
        intro e member
        simpa using ⟨e.1, e.2, inside e (by simpa using member), rfl⟩
    _ ≤ ∑ v, ((within v).map (Prod.mk v)).toFinset.card := Finset.card_biUnion_le
    _ ≤ ∑ v, (within v).length := by
        refine Finset.sum_le_sum fun v _ => ?_
        simpa using List.toFinset_card_le ((within v).map (Prod.mk v))

end Lists

section Step

variable {process : σ → κ → ι → σ × List ι} {w : Worklist σ ι} {choice : Nat × κ} {a : ι}

theorem step_none (nothing : w.pending[choice.1]? = none) : step process w choice = w := by
  simp [step, nothing]

theorem step_some (taken : w.pending[choice.1]? = some a) : step process w choice =
    ⟨(process w.state choice.2 a).1, w.pending.eraseIdx choice.1 ++ (process w.state choice.2 a).2,
      w.done ++ [a]⟩ := by
  simp [step, taken]

theorem items_step (taken : w.pending[choice.1]? = some a) :
    (step process w choice).items.Perm (w.items ++ (process w.state choice.2 a).2) := by
  obtain ⟨bound, rfl⟩ := List.getElem?_eq_some_iff.mp taken
  have whole : (w.pending[choice.1] :: w.pending.eraseIdx choice.1).Perm w.pending :=
    List.getElem_cons_eraseIdx_perm bound
  rw [step_some taken]
  classical
  apply List.perm_iff_count.mpr
  intro b
  have count := whole.count_eq b
  simp only [items, List.count_append, List.count_cons, List.count_nil] at count ⊢
  omega

theorem done_step (taken : w.pending[choice.1]? = some a) : (step process w choice).done = w.done ++ [a] := by
  rw [step_some taken]

variable (process) in
theorem exists_step (label : κ) (member : a ∈ w.pending) :
    ∃ choice, (step process w choice).state = (process w.state label a).1 ∧
      ∀ b ∈ (process w.state label a).2, b ∈ (step process w choice).pending := by
  obtain ⟨i, taken⟩ := List.mem_iff_getElem?.mp member
  refine ⟨(i, label), ?_⟩
  rw [step_some taken]
  exact ⟨rfl, fun b new => List.mem_append_right _ new⟩

end Step

section Tree

variable {process : σ → κ → ι → σ × List ι} {valid : σ → Prop} {good : ι → Prop} {vertex : ι → ν}
variable {parent : ν → Option ν}

theorem grown_start {state : σ} {root : ι} (ready : valid state) (isGood : good root)
    (top : parent (vertex root) = none) : Grown valid good vertex parent (start state root) := by
  have only : ∀ a ∈ (start state root).items, a = root := by simp [start, items]
  refine ⟨ready, fun a member => only a member ▸ isGood, by simp [start, items], fun a member v isParent => ?_⟩
  rw [only a member, top] at isParent
  cases isParent

/-- A step keeps the vertices distinct: the items it adds are for children of
a vertex that was not processed before, so none of them had an item. -/
theorem grown_step (spreads : Spreads process valid good vertex parent) (w : Worklist σ ι)
    (choice : Nat × κ) (grown : Grown valid good vertex parent w) :
    Grown valid good vertex parent (step process w choice) := by
  cases taken : w.pending[choice.1]? with
  | none => rwa [step_none taken]
  | some a =>
    have pending : a ∈ w.pending := List.mem_of_getElem? taken
    have isGood : good a := grown.items a (List.mem_append_left _ pending)
    have added : (step process w choice).items.Perm _ := items_step taken
    have isChild := spreads.child w.state choice.2 a grown.state isGood
    have unprocessed : vertex a ∉ w.done.map vertex := by
      intro processed
      have split := grown.distinct
      rw [items, List.map_append, List.nodup_append] at split
      exact split.2.2 _ (List.mem_map_of_mem pending) _ processed rfl
    refine ⟨?_, fun b member => ?_, ?_, fun b member v isParent => ?_⟩
    · rw [step_some taken]
      exact spreads.state w.state choice.2 a grown.state isGood
    · rcases List.mem_append.mp (added.mem_iff.mp member) with old | new
      · exact grown.items b old
      · exact spreads.items w.state choice.2 a grown.state isGood b new
    · rw [(added.map vertex).nodup_iff, List.map_append, List.nodup_append]
      refine ⟨grown.distinct, spreads.distinct w.state choice.2 a grown.state isGood, ?_⟩
      intro v old u new same
      subst same
      obtain ⟨b, wasThere, isVertex⟩ := List.mem_map.mp old
      obtain ⟨c, isNew, again⟩ := List.mem_map.mp new
      -- A vertex twice would be a child of `a`, whose items have `a` processed before.
      have parentOf : parent (vertex b) = some (vertex a) := by
        rw [isVertex, ← again]
        exact isChild c isNew
      exact unprocessed (grown.rooted b wasThere _ parentOf)
    · rw [done_step taken, List.map_append, List.mem_append]
      rcases List.mem_append.mp (added.mem_iff.mp member) with old | new
      · exact .inl (grown.rooted b old v isParent)
      · rw [isChild b new] at isParent
        cases isParent
        exact .inr (by simp)

theorem Grown.distinct_done {w : Worklist σ ι} (grown : Grown valid good vertex parent w) :
    (w.done.map vertex).Nodup := by
  have split := grown.distinct
  rw [Worklist.items, List.map_append, List.nodup_append] at split
  exact split.2.1

theorem Grown.good_done {w : Worklist σ ι} (grown : Grown valid good vertex parent w) {a : ι}
    (member : a ∈ w.done) : good a :=
  grown.items a (List.mem_append_right _ member)

theorem Grown.length_done_le [Fintype ν] {w : Worklist σ ι} (grown : Grown valid good vertex parent w) :
    w.done.length ≤ Fintype.card ν := by
  rw [← List.length_map vertex]
  exact grown.distinct_done.length_le_card

theorem logged_step {log : σ → List β} {entries : ι → List β}
    (appends : ∀ s k a, valid s → good a → log (process s k a).1 = log s ++ entries a) {w : Worklist σ ι}
    (choice : Nat × κ) (grown : Grown valid good vertex parent w) (logged : Logged log entries w) :
    Logged log entries (step process w choice) := by
  cases taken : w.pending[choice.1]? with
  | none => rwa [step_none taken]
  | some a =>
    have isGood : good a := grown.items a (List.mem_append_left _ (List.mem_of_getElem? taken))
    rw [step_some taken]
    simp only [Logged, List.flatMap_append, List.flatMap_singleton]
    rw [appends w.state choice.2 a grown.state isGood, logged]

theorem all_step {kept : ι → Prop}
    (keeps : ∀ s k a, valid s → good a → kept a → ∀ b ∈ (process s k a).2, kept b) {w : Worklist σ ι}
    (choice : Nat × κ) (grown : Grown valid good vertex parent w) (all : ∀ a ∈ w.items, kept a) :
    ∀ a ∈ (step process w choice).items, kept a := by
  cases taken : w.pending[choice.1]? with
  | none => rwa [step_none taken]
  | some a =>
    have member : a ∈ w.items := List.mem_append_left _ (List.mem_of_getElem? taken)
    intro b inside
    rcases List.mem_append.mp ((items_step taken).mem_iff.mp inside) with old | new
    · exact all b old
    · exact keeps w.state choice.2 a grown.state (grown.items a member) (all a member) b new

theorem complete_start {state : σ} {first : ι} : Complete vertex parent (vertex first) (start state first) where
  root := by simp [start, items]
  child a member := by cases member

/-- Where every item gives rise to one for each child of its vertex, no child
is left out. -/
theorem complete_step {kept : ι → Prop}
    (reaches : ∀ s k a, valid s → good a → kept a → ∀ v, parent v = some (vertex a) →
      v ∈ (process s k a).2.map vertex) {w : Worklist σ ι} (choice : Nat × κ)
    (grown : Grown valid good vertex parent w) (all : ∀ a ∈ w.items, kept a) {root : ν}
    (complete : Complete vertex parent root w) : Complete vertex parent root (step process w choice) := by
  cases taken : w.pending[choice.1]? with
  | none => rwa [step_none taken]
  | some a =>
    have member : a ∈ w.items := List.mem_append_left _ (List.mem_of_getElem? taken)
    have added : ∀ v, v ∈ (step process w choice).items.map vertex ↔
        v ∈ w.items.map vertex ∨ v ∈ (process w.state choice.2 a).2.map vertex := by
      intro v
      rw [((items_step taken).map vertex).mem_iff, List.map_append, List.mem_append]
    refine ⟨(added root).mpr (.inl complete.root), fun b isDone v isParent => (added v).mpr ?_⟩
    rw [done_step taken, List.mem_append, List.mem_singleton] at isDone
    rcases isDone with old | last
    · exact .inl (complete.child b old v isParent)
    · subst last
      exact .inr (reaches w.state choice.2 b grown.state (grown.items b member) (all b member) v isParent)

end Tree

section Quiescence

variable {process : σ → κ → ι → σ × List ι}

theorem run_of_empty {w : Worklist σ ι} (empty : w.pending = []) (choices : List (Nat × κ)) :
    Runs.run (step process) w choices = w := by
  induction choices with
  | nil => rfl
  | cons choice rest ih => rw [Runs.run_cons, step_none (by simp [empty]), ih]

theorem drained_or_processed (label : κ) (w : Worklist σ ι) (n : Nat) :
    (Runs.run (step process) w (List.replicate n (0, label))).pending = [] ∨
      (Runs.run (step process) w (List.replicate n (0, label))).done.length = w.done.length + n := by
  -- Taking the first item each time either empties the worklist or processes an
  -- item in every step.
  induction n generalizing w with
  | zero => exact .inr rfl
  | succ n ih =>
    rw [List.replicate_succ, Runs.run_cons]
    cases taken : w.pending[0]? with
    | none =>
      have empty : w.pending = [] := by simpa using taken
      rw [step_none taken, run_of_empty empty]
      exact .inl empty
    | some a =>
      have further := ih (step process w (0, label))
      rw [done_step taken, List.length_append] at further
      rcases further with empty | more
      · exact .inl empty
      · exact .inr (by simp at more; omega)

/-- A worklist that processes a bounded number of items can be run empty. -/
theorem exists_quiescent (label : κ) {w : Worklist σ ι} {bound : Nat}
    (bounded : ∀ choices, (Runs.run (step process) w choices).done.length ≤ bound) :
    ∃ more, (Runs.run (step process) w more).pending = [] := by
  refine ⟨List.replicate (bound + 1) (0, label), ?_⟩
  have limit := bounded (List.replicate (bound + 1) (0, label))
  rcases drained_or_processed label w (bound + 1) with empty | more
  · exact empty
  · omega

end Quiescence

end Worklist
