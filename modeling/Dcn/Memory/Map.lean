import Mathlib.Algebra.GroupWithZero.Nat
import Mathlib.Data.List.Nodup
import Mathlib.Data.List.Perm.Basic

/-! The map of map.c: two arrays scanned from the front.

Keys and values are compared by their bytes, which for the integers and
pointers the program stores is equality. The scan of a lookup stops at the
first hit, so a key is stored once; the structure carries that fact. Allocation
succeeds and the key and value sizes are not zero, so `map_set` returns 0.
-/

set_option autoImplicit false

namespace Dcn

/-- struct map, as the key-value pairs in slot order. -/
structure Map (κ ν : Type) where
  entries : List (κ × ν)
  unique : (entries.map Prod.fst).Nodup

namespace Map

variable {κ ν : Type} [DecidableEq κ]

/-- The slots after `map_set`: the first slot of the key is overwritten, else
the pair is appended. -/
def setEntries (key : κ) (val : ν) : List (κ × ν) → List (κ × ν)
  | [] => [(key, val)]
  | e :: rest => if e.1 = key then (e.1, val) :: rest else e :: setEntries key val rest

def eraseEntries (key : κ) : List (κ × ν) → List (κ × ν)
  | [] => []
  | e :: rest => if e.1 = key then rest else e :: eraseEntries key rest

theorem keys_setEntries (key : κ) (val : ν) (entries : List (κ × ν)) :
    (setEntries key val entries).map Prod.fst =
      if key ∈ entries.map Prod.fst then entries.map Prod.fst else entries.map Prod.fst ++ [key] := by
  induction entries with
  | nil => simp [setEntries]
  | cons e rest ih =>
    by_cases hit : e.1 = key
    · simp [setEntries, hit]
    · have miss : key ≠ e.1 := fun same => hit same.symm
      simp only [setEntries, hit, ↓reduceIte, List.map_cons, ih, List.mem_cons, miss, false_or]
      split <;> rfl

theorem eraseEntries_sublist (key : κ) (entries : List (κ × ν)) :
    (eraseEntries key entries).Sublist entries := by
  induction entries with
  | nil => exact .slnil
  | cons e rest ih =>
    by_cases hit : e.1 = key
    · simp only [eraseEntries, hit, ↓reduceIte]
      exact List.sublist_cons_self _ _
    · simp only [eraseEntries, hit, ↓reduceIte]
      exact ih.cons_cons e

end Map

variable {κ ν : Type} [DecidableEq κ]

def mapInit (κ ν : Type) : Map κ ν := ⟨[], List.nodup_nil⟩

def mapAt (m : Map κ ν) (key : κ) : Option ν :=
  (m.entries.find? (fun e => e.1 = key)).map Prod.snd

def mapIn (m : Map κ ν) (key : κ) : Bool := (mapAt m key).isSome

def mapEmpty (m : Map κ ν) : Bool := m.entries.isEmpty

def mapSet (m : Map κ ν) (key : κ) (val : ν) : Map κ ν where
  entries := Map.setEntries key val m.entries
  unique := by
    rw [Map.keys_setEntries]
    split
    · exact m.unique
    · next absent => exact List.Nodup.append m.unique (List.nodup_singleton key) (by simpa using absent)

def mapErase (m : Map κ ν) (key : κ) : Map κ ν where
  entries := Map.eraseEntries key m.entries
  unique := m.unique.sublist ((Map.eraseEntries_sublist key m.entries).map Prod.fst)

def mapKeyByVal [DecidableEq ν] (m : Map κ ν) (val : ν) : Option κ :=
  (m.entries.find? (fun e => e.2 = val)).map Prod.fst

def mapKeyAt (m : Map κ ν) (inx : Nat) : Option κ := m.entries[inx]?.map Prod.fst

def mapValAt (m : Map κ ν) (inx : Nat) : Option ν := m.entries[inx]?.map Prod.snd

def mapValueIn [DecidableEq ν] (m : Map κ ν) (val : ν) : Bool := m.entries.any fun e => e.2 = val

namespace Map

omit [DecidableEq κ] in
@[simp] theorem entries_mapInit : (mapInit κ ν).entries = [] := rfl

@[simp] theorem mapAt_mapInit (key : κ) : mapAt (mapInit κ ν) key = none := rfl

theorem mapAt_eq_some_iff {m : Map κ ν} {key : κ} {val : ν} :
    mapAt m key = some val ↔ (key, val) ∈ m.entries := by
  obtain ⟨entries, unique⟩ := m
  simp only [mapAt]
  induction entries with
  | nil => simp
  | cons e rest ih =>
    simp only [List.map_cons, List.nodup_cons] at unique
    -- A hit ends the scan, so the key must not come again.
    by_cases hit : e.1 = key
    · subst hit
      rw [List.find?_cons_of_pos (by simp)]
      constructor
      · intro same
        cases same
        exact List.mem_cons_self
      · intro member
        rcases List.mem_cons.mp member with same | member
        · rw [← same]; rfl
        · exact absurd (List.mem_map.mpr ⟨_, member, rfl⟩) unique.1
    · rw [List.find?_cons_of_neg (by simpa using hit), ih unique.2, List.mem_cons]
      constructor
      · exact .inr
      · rintro (same | member)
        · exact absurd (congrArg Prod.fst same).symm hit
        · exact member

theorem mapAt_slot (m : Map κ ν) (inx : Nat) :
    ((mapKeyAt m inx).bind fun key => (mapAt m key).map (Prod.mk key)) = m.entries[inx]? := by
  unfold mapKeyAt
  cases slot : m.entries[inx]? with
  | none => rfl
  | some e =>
    have found : mapAt m e.1 = some e.2 := mapAt_eq_some_iff.mpr (List.mem_of_getElem? slot)
    simp [found]

theorem mem_setEntries {key k : κ} {val v : ν} {entries : List (κ × ν)}
    (unique : (entries.map Prod.fst).Nodup) :
    (k, v) ∈ setEntries key val entries ↔ (k = key ∧ v = val) ∨ (k ≠ key ∧ (k, v) ∈ entries) := by
  induction entries with
  | nil =>
    simp only [setEntries, List.mem_singleton, Prod.mk.injEq, List.not_mem_nil, and_false, or_false]
  | cons e rest ih =>
    obtain ⟨fresh, unique⟩ := List.nodup_cons.mp unique
    have absent : ∀ w, (e.1, w) ∉ rest := fun w member => fresh (List.mem_map.mpr ⟨_, member, rfl⟩)
    by_cases hit : e.1 = key
    · subst hit
      simp only [setEntries, ↓reduceIte, List.mem_cons, Prod.mk.injEq]
      constructor
      · rintro (same | member)
        · exact .inl same
        · by_cases other : k = e.1
          · subst other; exact absurd member (absent v)
          · exact .inr ⟨other, .inr member⟩
      · rintro (same | ⟨other, same | member⟩)
        · exact .inl same
        · exact absurd (congrArg Prod.fst same) other
        · exact .inr member
    · simp only [setEntries, hit, ↓reduceIte, List.mem_cons, ih unique]
      constructor
      · rintro (rfl | same | ⟨other, member⟩)
        · exact .inr ⟨hit, .inl rfl⟩
        · exact .inl same
        · exact .inr ⟨other, .inr member⟩
      · rintro (same | ⟨other, same | member⟩)
        · exact .inr (.inl same)
        · exact .inl same
        · exact .inr (.inr ⟨other, member⟩)

theorem mem_mapSet {m : Map κ ν} {key k : κ} {val v : ν} :
    (k, v) ∈ (mapSet m key val).entries ↔ (k = key ∧ v = val) ∨ (k ≠ key ∧ (k, v) ∈ m.entries) :=
  mem_setEntries m.unique

@[simp] theorem mapAt_mapSet_self (m : Map κ ν) (key : κ) (val : ν) :
    mapAt (mapSet m key val) key = some val :=
  mapAt_eq_some_iff.mpr (mem_mapSet.mpr (.inl ⟨rfl, rfl⟩))

theorem mapEmpty_mapSet (m : Map κ ν) (key : κ) (val : ν) : mapEmpty (mapSet m key val) = false := by
  have present := mapAt_eq_some_iff.mp (mapAt_mapSet_self m key val)
  rw [mapEmpty, List.isEmpty_eq_false_iff]
  exact List.ne_nil_of_mem present

theorem mapAt_mapSet_of_ne (m : Map κ ν) {key other : κ} (val : ν) (differ : other ≠ key) :
    mapAt (mapSet m key val) other = mapAt m other := by
  apply Option.ext
  intro v
  simp only [mapAt_eq_some_iff, mem_mapSet, differ, false_and, ne_eq, not_false_eq_true, true_and, false_or]

theorem mapAt_mapSet (m : Map κ ν) (key other : κ) (val : ν) :
    mapAt (mapSet m key val) other = if other = key then some val else mapAt m other := by
  split
  · next same => rw [same, mapAt_mapSet_self]
  · next differ => exact mapAt_mapSet_of_ne m val differ

theorem setEntries_of_mem {key : κ} {val : ν} {entries : List (κ × ν)}
    (unique : (entries.map Prod.fst).Nodup) (member : (key, val) ∈ entries) :
    setEntries key val entries = entries := by
  induction entries with
  | nil => cases member
  | cons e rest ih =>
    obtain ⟨fresh, unique⟩ := List.nodup_cons.mp unique
    rcases List.mem_cons.mp member with same | member
    · subst same; simp [setEntries]
    · have miss : e.1 ≠ key := fun same => fresh (List.mem_map.mpr ⟨_, member, same.symm⟩)
      simp [setEntries, miss, ih unique member]

theorem mapSet_of_present {m : Map κ ν} {key : κ} {val : ν} (present : mapAt m key = some val) :
    mapSet m key val = m := by
  have same := setEntries_of_mem m.unique (mapAt_eq_some_iff.mp present)
  obtain ⟨entries, unique⟩ := m
  simp only [mapSet, same]

theorem sum_setEntries {key : κ} {old val : ν} {entries : List (κ × ν)} (f : κ × ν → Nat)
    (unique : (entries.map Prod.fst).Nodup) (member : (key, old) ∈ entries) :
    ((setEntries key val entries).map f).sum + f (key, old) = (entries.map f).sum + f (key, val) := by
  induction entries with
  | nil => cases member
  | cons e rest ih =>
    obtain ⟨fresh, unique⟩ := List.nodup_cons.mp unique
    rcases List.mem_cons.mp member with same | member
    · subst same
      simp [setEntries]
      omega
    · have miss : e.1 ≠ key := fun same => fresh (List.mem_map.mpr ⟨_, member, same.symm⟩)
      have later := ih unique member
      simp only [setEntries, miss, ↓reduceIte, List.map_cons, List.sum_cons]
      omega

theorem sum_mapSet {m : Map κ ν} {key : κ} {old : ν} (f : κ × ν → Nat) (val : ν)
    (present : mapAt m key = some old) :
    ((mapSet m key val).entries.map f).sum + f (key, old) = (m.entries.map f).sum + f (key, val) :=
  sum_setEntries f m.unique (mapAt_eq_some_iff.mp present)

theorem mem_eraseEntries {key k : κ} {v : ν} {entries : List (κ × ν)}
    (unique : (entries.map Prod.fst).Nodup) :
    (k, v) ∈ eraseEntries key entries ↔ k ≠ key ∧ (k, v) ∈ entries := by
  induction entries with
  | nil => simp [eraseEntries]
  | cons e rest ih =>
    obtain ⟨fresh, unique⟩ := List.nodup_cons.mp unique
    have absent : ∀ w, (e.1, w) ∉ rest := fun w member => fresh (List.mem_map.mpr ⟨_, member, rfl⟩)
    by_cases hit : e.1 = key
    · subst hit
      simp only [eraseEntries, ↓reduceIte, List.mem_cons]
      constructor
      · intro member
        exact ⟨fun same => absent v (same ▸ member), .inr member⟩
      · rintro ⟨other, same | member⟩
        · exact absurd (congrArg Prod.fst same) other
        · exact member
    · simp only [eraseEntries, hit, ↓reduceIte, List.mem_cons, ih unique]
      constructor
      · rintro (rfl | ⟨other, member⟩)
        · exact ⟨hit, .inl rfl⟩
        · exact ⟨other, .inr member⟩
      · rintro ⟨other, same | member⟩
        · exact .inl same
        · exact .inr ⟨other, member⟩

theorem mem_mapErase {m : Map κ ν} {key k : κ} {v : ν} :
    (k, v) ∈ (mapErase m key).entries ↔ k ≠ key ∧ (k, v) ∈ m.entries :=
  mem_eraseEntries m.unique

@[simp] theorem mapAt_mapErase_self (m : Map κ ν) (key : κ) : mapAt (mapErase m key) key = none := by
  cases found : mapAt (mapErase m key) key with
  | none => rfl
  | some val =>
    have other := (mem_mapErase.mp (mapAt_eq_some_iff.mp found)).1
    exact absurd rfl other

theorem mapAt_mapErase_of_ne (m : Map κ ν) {key other : κ} (differ : other ≠ key) :
    mapAt (mapErase m key) other = mapAt m other := by
  apply Option.ext
  intro v
  simp only [mapAt_eq_some_iff, mem_mapErase, differ, ne_eq, not_false_eq_true, true_and]

omit [DecidableEq κ] in
theorem mapKeyByVal_eq_some [DecidableEq ν] {m : Map κ ν} {val : ν} {key : κ}
    (found : mapKeyByVal m val = some key) : (key, val) ∈ m.entries := by
  obtain ⟨e, hit, rfl⟩ := Option.map_eq_some_iff.mp found
  have holds : e.2 = val := by simpa using List.find?_some hit
  exact holds ▸ List.mem_of_find?_eq_some hit

omit [DecidableEq κ] in
theorem mapKeyByVal_eq_none [DecidableEq ν] {m : Map κ ν} {val : ν} :
    mapKeyByVal m val = none ↔ ∀ key, (key, val) ∉ m.entries := by
  simp only [mapKeyByVal, Option.map_eq_none_iff, List.find?_eq_none, decide_eq_true_eq]
  exact ⟨fun absent key member => absent _ member rfl,
    fun absent e member same => absent e.1 (same ▸ member)⟩

theorem filter_key (m : Map κ ν) (key : κ) :
    m.entries.filter (fun e => e.1 = key) = ((mapAt m key).map (Prod.mk key)).toList := by
  obtain ⟨entries, unique⟩ := m
  simp only [mapAt]
  induction entries with
  | nil => rfl
  | cons e rest ih =>
    simp only [List.map_cons, List.nodup_cons] at unique
    by_cases hit : e.1 = key
    · subst hit
      have others : rest.filter (fun other => other.1 = e.1) = [] := by
        refine List.filter_eq_nil_iff.mpr fun other member same => ?_
        exact unique.1 (of_decide_eq_true same ▸ List.mem_map_of_mem member)
      rw [List.filter_cons_of_pos (by simp), List.find?_cons_of_pos (by simp), others]
      rfl
    · rw [List.filter_cons_of_neg (by simpa using hit), List.find?_cons_of_neg (by simpa using hit), ih unique.2]

theorem flatMap_range {α β : Type} {l : List α} {f : Nat → List β} {g : α → List β}
    (agree : ∀ i a, l[i]? = some a → f i = g a) : (List.range l.length).flatMap f = l.flatMap g := by
  induction l generalizing f with
  | nil => rfl
  | cons a rest ih =>
    rw [List.length_cons, List.range_succ_eq_map, List.flatMap_cons, List.flatMap_cons, agree 0 a rfl,
      List.flatMap_map]
    exact congrArg (g a ++ ·) (ih fun i b slot => agree (i + 1) b slot)

end Map

end Dcn
