import Mathlib.Algebra.Order.Group.Multiset
import Mathlib.Data.Finset.SDiff
import Mathlib.Data.Finset.Basic
import Dcn.Foundation.Runs

/-! A heap with an allocator over it that tracks the blocks it hands out.

Blocks come from the heap itself or through the allocator, and go back either
way; the allocator can also be told to give back all that it tracks. An address
may be handed out again once it is free. `Owns` says which blocks are had of
either kind, as multisets, and each call has a rule for it.
-/

set_option autoImplicit false

namespace Heap

/-- The blocks that are allocated, those that the allocator tracks, and whether
a block was released that was not allocated. -/
structure State (α : Type) where
  allocated : Finset α
  tracked : Finset α
  doubled : Bool

/-- A block is had from the heap or given back to it; had through the allocator,
given back through it or moved, where `none` is NULL; or all that is tracked is
given back. -/
inductive Call (α : Type) where
  | malloc (p : α)
  | free (p : α)
  | take (p : α)
  | give (p : Option α)
  | move (p : Option α) (q : α)
  | collect
  deriving DecidableEq

variable {α : Type} [DecidableEq α]

def release (h : State α) (p : α) : State α :=
  { h with allocated := h.allocated.erase p, doubled := h.doubled || decide (p ∉ h.allocated) }

/-- What is not tracked is neither given back nor moved. -/
def step (h : State α) : Call α → State α
  | .malloc p => { h with allocated := insert p h.allocated }
  | .free p => release h p
  | .take p | .move none p => { h with allocated := insert p h.allocated, tracked := insert p h.tracked }
  | .give none => h
  | .give (some p) => if p ∈ h.tracked then { release h p with tracked := h.tracked.erase p } else h
  -- The block may stay where it is.
  | .move (some p) q =>
    if p ∈ h.tracked then
      { release h p with allocated := insert q (h.allocated.erase p), tracked := insert q (h.tracked.erase p) }
    else h
  | .collect => ⟨h.allocated \ h.tracked, ∅, h.doubled || decide (¬ h.tracked ⊆ h.allocated)⟩

def Fresh (h : State α) : Call α → Prop
  | .malloc p | .take p | .move none p => p ∉ h.allocated
  | .move (some p) q => q ∉ h.allocated.erase p
  | _ => True

/-- No block was released twice, and what is tracked is allocated. -/
def Sound (h : State α) : Prop := h.doubled = false ∧ h.tracked ⊆ h.allocated

instance (h : State α) : Decidable (Sound h) := inferInstanceAs (Decidable (_ ∧ _))

instance (h : State α) : DecidablePred (Fresh h)
  | .malloc p | .take p | .move none p => inferInstanceAs (Decidable (p ∉ h.allocated))
  | .move (some p) q => inferInstanceAs (Decidable (q ∉ h.allocated.erase p))
  | .free _ | .give _ | .collect => .isTrue trivial

def block : Option α → Multiset α
  | none => 0
  | some p => {p}

omit [DecidableEq α] in
@[simp] theorem block_none : block (none : Option α) = 0 := rfl

omit [DecidableEq α] in
@[simp] theorem block_some (p : α) : block (some p) = {p} := rfl

def blocks (l : List α) : Multiset α := l

omit [DecidableEq α] in
@[simp] theorem blocks_nil : blocks ([] : List α) = 0 := rfl

omit [DecidableEq α] in
@[simp] theorem blocks_cons (p : α) (l : List α) : blocks (p :: l) = {p} + blocks l := rfl

omit [DecidableEq α] in
@[simp] theorem blocks_append (l m : List α) : blocks (l ++ m) = blocks l + blocks m := rfl

structure Owns (h : State α) (held plain : Multiset α) : Prop where
  sound : Sound h
  tracked : h.tracked.val = held
  apart : (held + plain).Nodup
  allocated : ∀ p ∈ plain, p ∈ h.allocated

section Owns

variable {h : State α} {held plain : Multiset α} {p q : α}

omit [DecidableEq α] in
theorem Owns.allocated_of_mem (owns : Owns h held plain) (member : p ∈ held + plain) : p ∈ h.allocated := by
  rcases Multiset.mem_add.mp member with mine | mine
  · rw [← owns.tracked] at mine
    exact owns.sound.2 mine
  · exact owns.allocated p mine

omit [DecidableEq α] in
theorem Owns.fresh (owns : Owns h held plain) (fresh : p ∉ h.allocated) : ({p} + (held + plain)).Nodup := by
  rw [Multiset.singleton_add, Multiset.nodup_cons]
  exact ⟨fun member => fresh (owns.allocated_of_mem member), owns.apart⟩

theorem Owns.malloc (owns : Owns h held plain) (fresh : p ∉ h.allocated) :
    Owns (step h (.malloc p)) held ({p} + plain) where
  sound := ⟨owns.sound.1, owns.sound.2.trans (Finset.subset_insert p h.allocated)⟩
  tracked := owns.tracked
  apart := by
    rw [← add_assoc, add_comm held, add_assoc]
    exact owns.fresh fresh
  allocated r member := by
    rcases Multiset.mem_add.mp member with new | old
    · exact Finset.mem_insert.mpr (.inl (Multiset.mem_singleton.mp new))
    · exact Finset.mem_insert_of_mem (owns.allocated r old)

omit [DecidableEq α] in
theorem Owns.forget (owns : Owns h held ({p} + plain)) : Owns h held plain where
  sound := owns.sound
  tracked := owns.tracked
  apart := by
    have apart := owns.apart
    rw [← add_assoc, add_comm held, add_assoc] at apart
    exact (Multiset.nodup_add.mp apart).2.1
  allocated r member := owns.allocated r (Multiset.mem_add.mpr (.inr member))

theorem Owns.take (owns : Owns h held plain) (fresh : p ∉ h.allocated) :
    Owns (step h (.take p)) ({p} + held) plain where
  sound := ⟨owns.sound.1, Finset.insert_subset_insert p owns.sound.2⟩
  tracked := by
    have absent : p ∉ h.tracked := fun member => fresh (owns.sound.2 member)
    rw [step, Finset.insert_val_of_notMem absent, owns.tracked, Multiset.singleton_add]
  apart := by
    rw [add_assoc]
    exact owns.fresh fresh
  allocated r member := Finset.mem_insert_of_mem (owns.allocated r member)

omit [DecidableEq α] in
theorem Owns.others (owns : Owns h ({p} + held) plain) : p ∈ h.tracked ∧ p ∈ h.allocated ∧ p ∉ held + plain := by
  have member : p ∈ h.tracked.val := by
    rw [owns.tracked]
    exact Multiset.mem_add.mpr (.inl (Multiset.mem_singleton_self p))
  have apart := owns.apart
  rw [add_assoc, Multiset.singleton_add, Multiset.nodup_cons] at apart
  exact ⟨member, owns.sound.2 member, apart.1⟩

theorem Owns.erase_tracked (owns : Owns h ({p} + held) plain) : (h.tracked.erase p).val = held := by
  rw [Finset.erase_val, owns.tracked, Multiset.singleton_add, Multiset.erase_cons_head]

theorem Owns.give (owns : Owns h ({p} + held) plain) : Owns (step h (.give (some p))) held plain := by
  obtain ⟨tracked, allocated, other⟩ := owns.others
  rw [step, if_pos tracked]
  refine ⟨⟨?_, Finset.erase_subset_erase p owns.sound.2⟩, owns.erase_tracked, ?_, fun r member => ?_⟩
  · simp [release, owns.sound.1, allocated]
  · have apart := owns.apart
    rw [add_assoc, Multiset.singleton_add, Multiset.nodup_cons] at apart
    exact apart.2
  · apply Finset.mem_erase.mpr
    refine ⟨fun same => other ?_, owns.allocated r member⟩
    subst same
    exact Multiset.mem_add.mpr (.inr member)

theorem Owns.move (owns : Owns h ({p} + held) plain) (fresh : q ∉ h.allocated.erase p) :
    Owns (step h (.move (some p) q)) ({q} + held) plain := by
  obtain ⟨tracked, allocated, other⟩ := owns.others
  -- A move is a release and an allocation in one.
  have without := owns.give
  rw [step, if_pos tracked] at without
  rw [step, if_pos tracked]
  exact without.take fresh

theorem Owns.free (owns : Owns h held ({p} + plain)) : Owns (step h (.free p)) held plain := by
  have allocated := owns.allocated p (Multiset.mem_add.mpr (.inl (Multiset.mem_singleton_self p)))
  have apart := owns.apart
  rw [← add_assoc, add_comm held, add_assoc, Multiset.singleton_add, Multiset.nodup_cons] at apart
  have other : ∀ r ∈ held + plain, r ≠ p := fun r member same => apart.1 (same ▸ member)
  refine ⟨⟨?_, fun r member => ?_⟩, owns.tracked, apart.2, fun r member => ?_⟩
  · simp [step, release, owns.sound.1, allocated]
  · have mine : r ∈ held := owns.tracked ▸ member
    exact Finset.mem_erase.mpr ⟨other r (Multiset.mem_add.mpr (.inl mine)), owns.sound.2 member⟩
  · have mine : r ∈ {p} + plain := Multiset.mem_add.mpr (.inr member)
    exact Finset.mem_erase.mpr ⟨other r (Multiset.mem_add.mpr (.inr member)), owns.allocated r mine⟩

theorem Owns.collect (owns : Owns h held plain) : Owns (step h .collect) 0 plain := by
  refine ⟨⟨?_, Finset.empty_subset _⟩, rfl, ?_, fun r member => ?_⟩
  · simp [step, owns.sound.1, owns.sound.2]
  · rw [zero_add]
    exact (Multiset.nodup_add.mp owns.apart).2.1
  · refine Finset.mem_sdiff.mpr ⟨owns.allocated r member, fun tracked => ?_⟩
    have mine : r ∈ held := owns.tracked ▸ tracked
    exact Multiset.disjoint_left.mp (Multiset.nodup_add.mp owns.apart).2.2 mine member

/-- A tracked block that goes back to the heap itself is tracked and free. -/
theorem Owns.not_sound_of_free (owns : Owns h ({p} + held) plain) : ¬ Sound (step h (.free p)) := by
  intro sound
  have member : p ∈ h.allocated.erase p := sound.2 owns.others.1
  exact absurd rfl (Finset.ne_of_mem_erase member)

end Owns

/-- From where the first blocks are had, the calls are sound at every moment and
leave the others. -/
def Triple (held plain : Multiset α) (calls : List (Call α)) (held' plain' : Multiset α) : Prop :=
  ∀ h, Owns h held plain → Runs.Along step Fresh h calls →
    Runs.Throughout step Sound h calls ∧ Owns (Runs.run step h calls) held' plain'

namespace Triple

variable {held plain held₁ plain₁ held' plain' : Multiset α} {calls more : List (Call α)} {p q : α}

theorem done (sameHeld : held = held') (samePlain : plain = plain') : Triple held plain [] held' plain' := by
  subst sameHeld samePlain
  intro h owns _
  exact ⟨Runs.throughout_nil.mpr owns.sound, owns⟩

theorem cons {call : Call α} (first : ∀ h, Owns h held plain → Fresh h call → Owns (step h call) held₁ plain₁)
    (rest : Triple held₁ plain₁ calls held' plain') : Triple held plain (call :: calls) held' plain' := by
  intro h owns fresh
  obtain ⟨sound, after⟩ := rest (step h call) (first h owns fresh.1) fresh.2
  exact ⟨Runs.throughout_cons.mpr ⟨owns.sound, sound⟩, after⟩

theorem congr (triple : Triple held plain calls held' plain') {held₂ plain₂ held₃ plain₃ : Multiset α}
    (sameHeld : held₂ = held) (samePlain : plain₂ = plain) (newHeld : held' = held₃) (newPlain : plain' = plain₃) :
    Triple held₂ plain₂ calls held₃ plain₃ := by
  subst sameHeld samePlain newHeld newPlain
  exact triple

theorem append (first : Triple held plain calls held₁ plain₁) (rest : Triple held₁ plain₁ more held' plain') :
    Triple held plain (calls ++ more) held' plain' := by
  intro h owns fresh
  obtain ⟨early, late⟩ := Runs.along_append.mp fresh
  obtain ⟨sound, between⟩ := first h owns early
  obtain ⟨still, after⟩ := rest _ between late
  rw [Runs.run_append]
  exact ⟨Runs.throughout_append.mpr ⟨sound, still⟩, after⟩

theorem malloc (rest : Triple held ({p} + plain) calls held' plain') :
    Triple held plain (.malloc p :: calls) held' plain' :=
  cons (fun _ owns fresh => owns.malloc fresh) rest

theorem free (split : plain = {p} + plain₁) (rest : Triple held plain₁ calls held' plain') :
    Triple held plain (.free p :: calls) held' plain' := by
  subst split
  exact cons (fun _ owns _ => owns.free) rest

theorem take (rest : Triple ({p} + held) plain calls held' plain') :
    Triple held plain (.take p :: calls) held' plain' :=
  cons (fun _ owns fresh => owns.take fresh) rest

theorem leak (rest : Triple held plain calls held' plain') : Triple held plain (.malloc p :: calls) held' plain' :=
  cons (fun _ owns fresh => (owns.malloc fresh).forget) rest

theorem give (p : Option α) (split : held = block p + held₁) (rest : Triple held₁ plain calls held' plain') :
    Triple held plain (.give p :: calls) held' plain' := by
  subst split
  cases p with
  | none => exact cons (fun _ owns _ => by rwa [block, zero_add] at owns) rest
  | some p => exact cons (fun _ owns _ => owns.give) rest

theorem move (p : Option α) (split : held = block p + held₁) (rest : Triple ({q} + held₁) plain calls held' plain') :
    Triple held plain (.move p q :: calls) held' plain' := by
  subst split
  cases p with
  | none => exact cons (fun _ owns fresh => by rw [block, zero_add] at owns; exact owns.take fresh) rest
  | some p => exact cons (fun _ owns fresh => owns.move fresh) rest

theorem collect (rest : Triple 0 plain calls held' plain') : Triple held plain (.collect :: calls) held' plain' :=
  cons (fun _ owns _ => owns.collect) rest

end Triple

end Heap
