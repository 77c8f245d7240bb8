import Mathlib.Combinatorics.SimpleGraph.Acyclic
import Mathlib.Combinatorics.SimpleGraph.Metric

/-! Trees from a root, and cycles that a root reaches.

Where no cycle passes through the vertices that a root reaches, every one of
them but the root has a parent, the vertex before it on the path from the root,
and of two adjacent vertices one is the parent of the other. Where one does, the
root has an endless walk that never turns back.
-/

set_option autoImplicit false

namespace Forest

variable {V : Type} {G : SimpleGraph V} {root : V}

/-- No cycle passes through a vertex that the root reaches. -/
def TreeFrom (G : SimpleGraph V) (root : V) : Prop :=
  ∀ v, G.Reachable root v → ∀ cycle : G.Walk v v, ¬cycle.IsCycle

def component (G : SimpleGraph V) (root : V) : SimpleGraph V where
  Adj u v := G.Adj u v ∧ G.Reachable root u
  symm := ⟨fun _ _ edge => ⟨edge.1.symm, edge.2.trans edge.1.reachable⟩⟩
  loopless := ⟨fun _ edge => G.irrefl edge.1⟩

theorem component_le : component G root ≤ G := fun _ _ edge => edge.1

theorem isAcyclic_component (tree : TreeFrom G root) : (component G root).IsAcyclic := by
  intro v cycle isCycle
  have inside : (component G root).Adj v cycle.snd := cycle.adj_snd isCycle.not_nil
  exact tree v inside.2 (cycle.mapLe component_le) (isCycle.mapLe component_le)

theorem reachable_component {v : V} (reached : G.Reachable root v) : (component G root).Reachable root v := by
  obtain ⟨walk⟩ := reached.symm
  have back : ∀ {u w : V} (p : G.Walk u w), G.Reachable root u → (component G root).Reachable u w := by
    intro u w p
    induction p with
    | nil => exact fun _ => .rfl
    | cons edge rest ih =>
      intro here
      have inside : (component G root).Adj _ _ := ⟨edge, here⟩
      exact inside.reachable.trans (ih (here.trans edge.reachable))
  exact (back walk reached).symm

open Classical in
noncomputable def parent (G : SimpleGraph V) (root v : V) : Option V :=
  if reached : v ≠ root ∧ (component G root).Reachable root v then
    some reached.2.exists_isPath.choose.penultimate
  else none

theorem parent_root : parent G root root = none := by
  simp [parent]

theorem parent_of_mem_support (tree : TreeFrom G root) {u v : V} (edge : G.Adj u v) (reached : G.Reachable root u)
    {path : (component G root).Walk root u} (isPath : path.IsPath) (member : v ∈ path.support) :
    parent G root u = some v := by
  have acyclic := isAcyclic_component tree
  have inside : (component G root).Adj u v := ⟨edge, reached⟩
  have other : u ≠ root := by
    intro same
    subst same
    have trivial : path = .nil := by simpa using isPath
    rw [trivial, SimpleGraph.Walk.support_nil, List.mem_singleton] at member
    exact edge.ne member.symm
  have there := reachable_component reached
  unfold parent
  rw [dif_pos ⟨other, there⟩]
  have chosen := there.exists_isPath.choose_spec
  have same : path = there.exists_isPath.choose :=
    congrArg Subtype.val ((acyclic.subsingleton_path root u).elim ⟨path, isPath⟩ ⟨_, chosen⟩)
  rw [← same, ← acyclic.eq_penultimate_of_adj_end isPath inside member]

theorem parent_of_adj (tree : TreeFrom G root) {u v : V} (edge : G.Adj u v) (reached : G.Reachable root u) :
    parent G root u = some v ∨ parent G root v = some u := by
  have further := reached.trans edge.reachable
  have acyclic := isAcyclic_component tree
  obtain ⟨toU, pathU⟩ := (reachable_component reached).exists_isPath
  obtain ⟨toV, pathV⟩ := (reachable_component further).exists_isPath
  -- The path to one of the two ends in the edge between them.
  by_cases member : v ∈ toU.support
  · exact .inl (parent_of_mem_support tree edge reached pathU member)
  · have inside : (component G root).Adj v u := ⟨edge.symm, further⟩
    have before := acyclic.mem_support_of_ne_mem_support_of_adj_of_isPath pathV pathU inside member
    exact .inr (parent_of_mem_support tree edge.symm further pathV before)

/-- Where every edge leads from one vertex to the one above it there is no
cycle: the deepest vertex of a cycle would have two above it. -/
theorem treeFrom_of_above (above : V → Option V) (depth : V → Nat)
    (edges : ∀ u v, G.Adj u v → depth v ≤ depth u → above u = some v) : TreeFrom G root := by
  classical
  intro v _ cycle isCycle
  obtain ⟨u, isDeepest, deepest⟩ := cycle.support.toFinset.exists_max_image depth ⟨v, by simp⟩
  have member : u ∈ cycle.support := List.mem_toFinset.mp isDeepest
  have rotated := isCycle.rotate member
  have lower : ∀ w ∈ (cycle.rotate u member).support, depth w ≤ depth u := by
    intro w inside
    rw [SimpleGraph.Walk.mem_support_rotate_iff] at inside
    exact deepest w (List.mem_toFinset.mpr inside)
  have next := edges _ _ (SimpleGraph.Walk.adj_snd rotated.not_nil)
    (lower _ (SimpleGraph.Walk.getVert_mem_support _ _))
  have last := edges _ _ (SimpleGraph.Walk.adj_penultimate rotated.not_nil).symm
    (lower _ (SimpleGraph.Walk.getVert_mem_support _ _))
  rw [next] at last
  exact rotated.snd_ne_penultimate (Option.some.inj last)

structure Onward (G : SimpleGraph V) (f : Nat → V) : Prop where
  adj : ∀ i, G.Adj (f i) (f (i + 1))
  ahead : ∀ i, f (i + 2) ≠ f i

theorem onward_cycle {u : V} {cycle : G.Walk u u} (isCycle : cycle.IsCycle) :
    Onward G fun i => cycle.getVert (i % cycle.length) := by
  have long := isCycle.three_le_length
  have succ : ∀ i, cycle.getVert ((i + 1) % cycle.length) = cycle.getVert (i % cycle.length + 1) := by
    intro i
    have small : i % cycle.length < cycle.length := Nat.mod_lt i (by omega)
    rw [Nat.add_mod, Nat.mod_eq_of_lt (by omega : 1 < cycle.length)]
    rcases Nat.lt_or_ge (i % cycle.length + 1) cycle.length with inside | last
    · rw [Nat.mod_eq_of_lt inside]
    · have full : i % cycle.length + 1 = cycle.length := by omega
      rw [full, Nat.mod_self, SimpleGraph.Walk.getVert_zero, SimpleGraph.Walk.getVert_length]
  refine ⟨fun i => ?_, fun i same => ?_⟩
  · rw [succ]
    exact cycle.adj_getVert_succ (Nat.mod_lt i (by omega))
  · have first : i % cycle.length < cycle.length := Nat.mod_lt i (by omega)
    have second : (i + 2) % cycle.length < cycle.length := Nat.mod_lt _ (by omega)
    have equal : (i + 2) % cycle.length = i % cycle.length :=
      isCycle.getVert_injOn' (Nat.le_sub_one_of_lt second) (Nat.le_sub_one_of_lt first) same
    have divides : cycle.length ∣ 2 := (Nat.modEq_zero_iff_dvd).mp (Nat.ModEq.add_left_cancel' i equal)
    have short := Nat.le_of_dvd (by omega) divides
    omega

/-- A root that reaches a cycle has an endless walk that never turns back: to
the nearest vertex of the cycle and then round it. -/
theorem exists_onward (cyclic : ¬TreeFrom G root) : ∃ f, f 0 = root ∧ Onward G f := by
  classical
  simp only [TreeFrom, not_forall, not_not] at cyclic
  obtain ⟨v, reached, cycle, isCycle⟩ := cyclic
  obtain ⟨u, isNearest, nearest⟩ := cycle.support.toFinset.exists_min_image (G.dist root) ⟨v, by simp⟩
  have onCycle : u ∈ cycle.support := List.mem_toFinset.mp isNearest
  have there : G.Reachable root u := reached.trans (cycle.takeUntil u onCycle).reachable
  obtain ⟨path, isPath, isShortest⟩ := there.exists_path_of_dist
  have round := onward_cycle (isCycle.rotate onCycle)
  have rotated : ∀ i, (cycle.rotate u onCycle).getVert i ∈ cycle.support := fun i =>
    (SimpleGraph.Walk.mem_support_rotate_iff _ _ _).mp (SimpleGraph.Walk.getVert_mem_support _ i)
  let g : Nat → V := fun i => (cycle.rotate u onCycle).getVert (i % (cycle.rotate u onCycle).length)
  have g_zero : g 0 = u := by simp [g]
  let f : Nat → V := fun i => if i < path.length then path.getVert i else g (i - path.length)
  have before : ∀ i, i ≤ path.length → f i = path.getVert i := by
    intro i small
    rcases Nat.lt_or_eq_of_le small with less | last
    · exact if_pos less
    · subst last
      simp [f, g_zero]
  have after : ∀ i, f (path.length + i) = g i := by
    intro i
    simp [f]
  refine ⟨f, ?_, fun i => ?_, fun i same => ?_⟩
  · rw [before 0 (Nat.zero_le _), SimpleGraph.Walk.getVert_zero]
  · rcases Nat.lt_or_ge i path.length with less | more
    · rw [before i less.le, before (i + 1) less]
      exact path.adj_getVert_succ less
    · obtain ⟨j, rfl⟩ := Nat.exists_eq_add_of_le more
      rw [after, Nat.add_assoc, after]
      exact round.adj j
  · rcases Nat.lt_or_ge i path.length with less | more
    · rcases Nat.lt_or_ge path.length (i + 2) with beyond | inside
      · have edge : i + 2 = path.length + 1 := by omega
        rw [edge, after, before i less.le] at same
        have near := nearest _ (List.mem_toFinset.mpr (same ▸ rotated _ : path.getVert i ∈ cycle.support))
        have bound := SimpleGraph.dist_le (path.take i)
        rw [SimpleGraph.Walk.take_length] at bound
        omega
      · rw [before _ inside, before i less.le] at same
        have equal := isPath.getVert_injOn inside less.le same
        omega
    · obtain ⟨j, rfl⟩ := Nat.exists_eq_add_of_le more
      rw [Nat.add_assoc, after, after] at same
      exact round.ahead j same
end Forest
