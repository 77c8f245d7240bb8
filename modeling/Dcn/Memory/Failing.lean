import Dcn.Memory.Array

/-! Maps and arrays where allocations may fail (map.c, array.c).

Each realloc and malloc of a call gives memory or NULL. A call that fails should
leave what can be seen of the container, the validity of its buffers and the
count of its mutex as they were.
-/

set_option autoImplicit false

namespace Dcn

/-- A call that returns and reports a failure leaves what is observed as it was. -/
def Atomic {σ ρ ω : Type} (observe : σ → ω) (failed : ρ → Prop) (before : σ) (result : Option (ρ × σ)) : Prop :=
  ∀ code after, result = some (code, after) → failed code → observe after = observe before

/-- A map, whether its `keys` points to memory that is not freed, and how often
the calling thread holds its mutex. -/
structure HeldMap where
  map : FlatMap
  keysLive : Bool
  mtx : Nat

namespace HeldMap

variable (s : HeldMap)

def findKey (key : Block) : Option (Option Nat) := if s.keysLive then s.map.findKey key else none

/-- map_set for a key that is not there. Both reallocs come before the map is
changed, and neither failure unlocks the mutex. -/
def mapAppend (key val : Block) (keys values : Realloc) : Option (Int × HeldMap) :=
  match keys with
  | none => some (-1, { s with mtx := s.mtx + 1 })
  | some kFresh =>
    match values with
    -- The old keys are freed, unless there were none.
    | none => some (-2, { s with keysLive := s.map.keys.isEmpty, mtx := s.mtx + 1 })
    | some vFresh =>
      (FlatMap.grow s.map.keys s.map.kSize s.map.len key kFresh).bind fun keys =>
        (FlatMap.grow s.map.values s.map.vSize s.map.len val vFresh).map fun values =>
          (0, { s with map := { s.map with keys := keys, values := values, len := s.map.len + 1 } })

def mapSet (key val : Option Block) (keys values : Realloc) : Option (Int × HeldMap) :=
  match key, val with
  | some key, some val =>
    if s.map.kSize = 0 ∨ s.map.vSize = 0 then some (-4, s)
    else (s.findKey key).bind fun
      | some inx => (Records.writeAt s.map.values (inx * s.map.vSize) val).map fun values =>
          (0, { s with map := { s.map with values := values } })
      | none => s.mapAppend key val keys values
  | _, _ => some (-3, s)

def mapErase (key : Block) (keys values : Realloc) : Option (Int × HeldMap) :=
  (s.findKey key).bind fun
    | none => some (1, s)
    | some inx =>
      if s.map.len = 1 then some (0, { s with map := { s.map with keys := [], values := [], len := s.map.len - 1 } })
      else
        match keys with
        | none => some (-1, s)
        | some kFresh =>
          match values with
          | none => some (-2, s)
          | some vFresh =>
            (FlatMap.close s.map.keys s.map.kSize s.map.len inx kFresh).bind fun keys =>
              (FlatMap.close s.map.values s.map.vSize s.map.len inx vFresh).map fun values =>
                (0, { s with map := { s.map with keys := keys, values := values, len := s.map.len - 1 } })

def slot (i : Nat) : Option Block × Option Block :=
  (if s.keysLive then Records.readAt s.map.keys (i * s.map.kSize) s.map.kSize else none,
    Records.readAt s.map.values (i * s.map.vSize) s.map.vSize)

def observed : List (Option Block × Option Block) × Bool × Nat :=
  ((List.range s.map.len).map s.slot, s.keysLive, s.mtx)

end HeldMap

def FlatArray.observed (a : FlatArray) : List (Option (Int × Option Block)) × Nat :=
  ((List.range a.len).map a.arrayCopyAt, a.mtx)

namespace HeldMap

section Calls

variable {s : HeldMap} {key val : Block} {keys values : Realloc}

theorem mapSet_memory (live : s.keysLive = true) (kFresh vFresh : Nat → UInt8) :
    s.mapSet (some key) (some val) (some kFresh) (some vFresh) =
      (s.map.mapSet key val kFresh vFresh).map fun r => (r.1, { s with map := r.2 }) := by
  obtain ⟨map, keysLive, mtx⟩ := s
  cases live
  simp only [mapSet, FlatMap.mapSet, findKey, ↓reduceIte]
  split
  · rfl
  · rcases found : map.findKey key with _ | _ | inx
    · rfl
    · rcases grown : FlatMap.grow map.keys map.kSize map.len key kFresh with _ | grown
      · simp [mapAppend, grown]
      · simp [mapAppend, grown, Option.map_map, Function.comp_def]
    · simp [Option.map_map, Function.comp_def]

theorem mapErase_memory (live : s.keysLive = true) (kFresh vFresh : Nat → UInt8) :
    s.mapErase key (some kFresh) (some vFresh) =
      (s.map.mapErase key kFresh vFresh).map fun r => (r.1, { s with map := r.2 }) := by
  obtain ⟨map, keysLive, mtx⟩ := s
  cases live
  simp only [mapErase, FlatMap.mapErase, findKey, ↓reduceIte]
  rcases found : map.findKey key with _ | _ | inx
  · rfl
  · rfl
  · simp only [Option.bind_some]
    split
    · rfl
    · rcases closed : FlatMap.close map.keys map.kSize map.len inx kFresh with _ | closed
      · rfl
      · simp [Option.map_map, Function.comp_def]

theorem mapAppend_atomic_iff :
    Atomic observed (· < 0) s (s.mapAppend key val keys values) ↔ ¬ (keys = none ∨ values = none) := by
  have locks : ∀ (code : Int) (after : HeldMap), code < 0 → after.mtx = s.mtx + 1 →
      ¬ Atomic observed (· < 0) s (some (code, after)) := by
    intro code after fails locked atomic
    have count := congrArg (fun o => o.2.2) (atomic code after rfl fails)
    simp [observed, locked] at count
  rcases keys with _ | kFresh
  · exact iff_of_false (locks _ _ (by decide) rfl) (by simp)
  · rcases values with _ | vFresh
    · exact iff_of_false (locks _ _ (by decide) rfl) (by simp)
    · refine iff_of_true ?_ (by simp)
      intro code after returns fails
      simp only [mapAppend, Option.bind_eq_some_iff, Option.map_eq_some_iff, Prod.mk.injEq] at returns
      obtain ⟨_, -, _, -, rfl, -⟩ := returns
      exact absurd fails (by decide)

theorem mapSet_atomic_iff (key val : Option Block) :
    Atomic observed (· < 0) s (s.mapSet key val keys values) ↔
      ¬ (s.map.kSize ≠ 0 ∧ s.map.vSize ≠ 0 ∧ val.isSome ∧ (∃ k, key = some k ∧ s.findKey k = some none) ∧
        (keys = none ∨ values = none)) := by
  have same : ∀ code : Int, Atomic observed (· < 0) s (some (code, s)) := by
    rintro code other after ⟨⟩ -
    rfl
  rcases key with _ | key
  · exact iff_of_true (same _) (by simp)
  · rcases val with _ | val
    · exact iff_of_true (same _) (by simp)
    · rw [mapSet]
      split
      · next sizes => exact iff_of_true (same _) fun fails => sizes.elim fails.1 fails.2.1
      · next sizes =>
        obtain ⟨kPos, vPos⟩ := not_or.mp sizes
        rcases found : s.findKey key with _ | _ | inx
        · refine iff_of_true ?_ (by simp [found])
          rintro code after ⟨⟩
        · rw [Option.bind_some, mapAppend_atomic_iff]
          simp [kPos, vPos, found]
        · refine iff_of_true ?_ (by simp [found])
          intro code after returns fails
          obtain ⟨_, -, same⟩ := Option.map_eq_some_iff.mp returns
          cases same
          exact absurd fails (by decide)

theorem mapErase_atomic : Atomic observed (· < 0) s (s.mapErase key keys values) := by
  intro code after returns fails
  unfold mapErase at returns
  rcases found : s.findKey key with _ | _ | inx <;> rw [found] at returns
  · cases returns
  · cases returns
    rfl
  · simp only [Option.bind_some] at returns
    split at returns
    · cases returns
      exact absurd fails (by decide)
    · rcases keys with _ | kFresh
      · cases returns
        rfl
      · rcases values with _ | vFresh
        · cases returns
          rfl
        · obtain ⟨_, -, returns⟩ := Option.bind_eq_some_iff.mp returns
          obtain ⟨_, -, same⟩ := Option.map_eq_some_iff.mp returns
          cases same
          exact absurd fails (by decide)

end Calls

end HeldMap

namespace FlatArray

variable {a : FlatArray} {inx : Nat} {block : Block} {larger shrunk : Realloc}

theorem arrayAppend_atomic : Atomic observed (· < 0) a (a.arrayAppend block larger) := by
  intro code after returns fails
  unfold arrayAppend at returns
  split at returns
  · obtain ⟨_, -, same⟩ := Option.map_eq_some_iff.mp returns
    cases same
    exact absurd fails (by decide)
  · rcases larger with _ | fresh
    · cases returns
      rfl
    · obtain ⟨_, -, same⟩ := Option.map_eq_some_iff.mp returns
      cases same
      exact absurd fails (by decide)

theorem closed_isSome_iff (bound : inx < a.len) :
    (a.closed inx).isSome ↔ (inx < a.len - 1 → a.len * a.elSize ≤ a.blocks.length) := by
  unfold closed
  split
  · next before =>
    have whole : (inx + 1) * a.elSize + (a.len - inx - 1) * a.elSize = a.len * a.elSize := by
      rw [← Nat.add_mul]
      congr 1
      omega
    have place : inx * a.elSize + a.elSize = (inx + 1) * a.elSize := (Nat.succ_mul inx a.elSize).symm
    by_cases room : a.len * a.elSize ≤ a.blocks.length
    · refine iff_of_true ?_ fun _ => room
      rw [Records.readAt, if_pos (by omega), Option.bind_some, Records.writeAt, if_pos]
      · rfl
      · rw [List.length_take, List.length_drop]
        omega
    · refine iff_of_false ?_ fun fits => room (fits before)
      rw [Records.readAt, if_neg (by omega)]
      simp
  · next last => exact iff_of_true rfl fun before => absurd before last

theorem arrayDel_atomic_iff : Atomic observed (· = false) a (a.arrayDel inx shrunk) ↔
    ¬ (inx < a.len ∧ (inx < a.len - 1 → a.len * a.elSize ≤ a.blocks.length) ∧ a.Spacious ∧ shrunk = none) := by
  unfold arrayDel
  split
  · next outside =>
    refine iff_of_true ?_ fun fails => by omega
    rintro code after ⟨⟩ -
    rfl
  · next inside =>
    have bound : inx < a.len := by omega
    rw [← closed_isSome_iff bound]
    rcases a.closed inx with _ | blocks
    · refine iff_of_true ?_ (by simp)
      rintro code after ⟨⟩
    · rw [Option.map_some]
      by_cases spacious : a.Spacious
      · rw [if_pos spacious]
        rcases shrunk with _ | fresh
        · refine iff_of_false (fun atomic => ?_) (by simp [bound, spacious])
          have count := congrArg Prod.snd (atomic false _ rfl rfl)
          simp [observed, shorter] at count
        · refine iff_of_true ?_ (by simp)
          rintro code after ⟨⟩ ⟨⟩
      · rw [if_neg spacious]
        refine iff_of_true ?_ (by simp [spacious])
        rintro code after ⟨⟩ ⟨⟩

end FlatArray

/-- A failing map_erase or array_append leaves the container as it was, a failing
map_set unless it gets no memory for a new key, and a failing array_del unless
it gets none for a smaller block. -/
theorem failures_atomic_iff (m : HeldMap) (key val : Option Block) (erased : Block) (a : FlatArray) (block : Block)
    (inx : Nat) (keys values larger shrunk : Realloc) :
    (Atomic HeldMap.observed (· < 0) m (m.mapSet key val keys values) ↔
      ¬ (m.map.kSize ≠ 0 ∧ m.map.vSize ≠ 0 ∧ val.isSome ∧ (∃ k, key = some k ∧ m.findKey k = some none) ∧
        (keys = none ∨ values = none))) ∧
    Atomic HeldMap.observed (· < 0) m (m.mapErase erased keys values) ∧
    Atomic FlatArray.observed (· < 0) a (a.arrayAppend block larger) ∧
    (Atomic FlatArray.observed (· = false) a (a.arrayDel inx shrunk) ↔
      ¬ (inx < a.len ∧ (inx < a.len - 1 → a.len * a.elSize ≤ a.blocks.length) ∧ a.Spacious ∧ shrunk = none)) :=
  ⟨HeldMap.mapSet_atomic_iff key val, HeldMap.mapErase_atomic, FlatArray.arrayAppend_atomic, FlatArray.arrayDel_atomic_iff⟩

theorem mapSet_keeps_lock : ¬ Atomic HeldMap.observed (· < 0) ⟨FlatMap.mapInit 1 1, true, 0⟩
    (HeldMap.mapSet ⟨FlatMap.mapInit 1 1, true, 0⟩ (some [1]) (some [2]) none none) := by
  intro atomic
  have count := atomic (-1) ⟨FlatMap.mapInit 1 1, true, 1⟩ rfl (by decide)
  revert count
  decide

end Dcn
