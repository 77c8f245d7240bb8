import Mathlib.Data.List.Find
import Mathlib.Logic.Function.Basic
import Dcn.Memory.FlatMap

/-! Runs of calls on a map: its buffers, the list of pairs and the association
that it is for.

The buffers answer every call as the list does and are never left; the list
answers as an association of keys with values whose keys are in the order of
their first insertion.
-/

set_option autoImplicit false

namespace Dcn

structure Assoc (κ ν : Type) where
  order : List κ
  value : κ → Option ν

namespace Assoc

variable {κ ν : Type} [DecidableEq κ]

def init (κ ν : Type) : Assoc κ ν := ⟨[], fun _ => none⟩

def set (a : Assoc κ ν) (key : κ) (val : ν) : Assoc κ ν :=
  ⟨if key ∈ a.order then a.order else a.order ++ [key], Function.update a.value key (some val)⟩

def erase (a : Assoc κ ν) (key : κ) : Assoc κ ν := ⟨a.order.erase key, Function.update a.value key none⟩

def keyOf [DecidableEq ν] (a : Assoc κ ν) (val : ν) : Option κ := a.order.find? fun key => a.value key = some val

structure Sound (a : Assoc κ ν) : Prop where
  distinct : a.order.Nodup
  used : ∀ key, key ∈ a.order ↔ (a.value key).isSome = true

end Assoc

/-- The buffers hold the keys in their order and the value of each. A key that is
not in use is not erased, and a key is found by its value if there is one. -/
structure FlatMap.Refines {k v : Nat} (f : FlatMap) (a : Assoc (Slot k) (Slot v)) : Prop where
  sound : a.Sound
  len : f.len = a.order.length
  keys : f.keys = (a.order.map Subtype.val).flatten
  values : f.values = ((a.order.filterMap a.value).map Subtype.val).flatten
  absent : ∀ key kFresh vFresh, a.value key = none →
    a.erase key = a ∧ f.mapErase key.val kFresh vFresh = some (1, f)
  byValue : ∀ val, ((a.keyOf val).isSome = true ↔ ∃ key, a.value key = some val) ∧
    ∀ key, a.keyOf val = some key → a.value key = some val

def assocCall {k v : Nat} (a : Assoc (Slot k) (Slot v)) : MapCall k v → MapAnswer × Assoc (Slot k) (Slot v)
  | .set key val _ _ => (⟨0, none⟩, a.set key val)
  | .erase key _ _ => (⟨if (a.value key).isSome then 0 else 1, none⟩, a.erase key)
  | .clear => (⟨0, none⟩, .init (Slot k) (Slot v))
  | .atKey key => (.found ((a.value key).map Subtype.val), a)
  | .isIn key => (.flag (a.value key).isSome, a)
  | .copyAt key => (.found ((a.value key).map Subtype.val), a)
  | .keyByVal val => (.found ((a.keyOf val).map Subtype.val), a)
  | .valueIn val => (.flag (a.order.any fun key => a.value key = some val), a)
  | .keyAt inx => (.indexed (a.order[inx]?.map Subtype.val), a)
  | .valAt inx => (.indexed ((a.order[inx]?.bind a.value).map Subtype.val), a)
  | .empty => (.flag a.order.isEmpty, a)

namespace Map

section Slots

variable {κ ν : Type} [DecidableEq κ] {entries : List (κ × ν)} {key : κ}

theorem slot_some {i : Nat} (found : (entries.findIdx? fun e => e.1 = key) = some i) :
    ∃ val, entries[i]? = some (key, val) ∧ (entries.find? fun e => e.1 = key) = some (key, val) ∧
      (∀ new, setEntries key new entries = entries.set i (key, new)) ∧
      eraseEntries key entries = entries.eraseIdx i := by
  induction entries generalizing i with
  | nil => cases found
  | cons e rest ih =>
    rw [List.findIdx?_cons] at found
    by_cases hit : e.1 = key
    · subst hit
      simp only [decide_true, ↓reduceIte, Option.some.injEq] at found
      subst found
      exact ⟨e.2, rfl, List.find?_cons_of_pos (by simp), fun new => by simp [setEntries], by simp [eraseEntries]⟩
    · simp only [hit, decide_false, Bool.false_eq_true, ↓reduceIte, Option.map_eq_some_iff] at found
      obtain ⟨j, later, same⟩ := found
      subst same
      obtain ⟨val, place, first, stored, erased⟩ := ih later
      refine ⟨val, place, ?_, fun new => ?_, ?_⟩
      · rw [List.find?_cons_of_neg (by simpa using hit), first]
      · simp [setEntries, hit, stored]
      · simp [eraseEntries, hit, erased]

theorem slot_none (missing : (entries.findIdx? fun e => e.1 = key) = none) :
    (entries.find? fun e => e.1 = key) = none ∧ (∀ new, setEntries key new entries = entries ++ [(key, new)]) ∧
      eraseEntries key entries = entries := by
  induction entries with
  | nil => exact ⟨rfl, fun new => rfl, rfl⟩
  | cons e rest ih =>
    rw [List.findIdx?_cons] at missing
    by_cases hit : e.1 = key
    · simp [hit] at missing
    · simp only [hit, decide_false, Bool.false_eq_true, ↓reduceIte, Option.map_eq_none_iff] at missing
      obtain ⟨absent, stored, erased⟩ := ih missing
      refine ⟨?_, fun new => ?_, ?_⟩
      · rw [List.find?_cons_of_neg (by simpa using hit), absent]
      · simp [setEntries, hit, stored]
      · simp [eraseEntries, hit, erased]

end Slots

section Keys

variable {κ ν : Type} [DecidableEq κ] {m : Map κ ν} {key k : κ} {val : ν} {i j : Nat}

omit [DecidableEq κ] in
theorem mapKeyAt_eq (m : Map κ ν) (i : Nat) : mapKeyAt m i = (m.entries.map Prod.fst)[i]? := by
  rw [mapKeyAt, List.getElem?_map]

omit [DecidableEq κ] in
theorem mapKeyAt_lt (slot : mapKeyAt m i = some k) : i < m.entries.length := by
  rw [mapKeyAt_eq] at slot
  simpa using (List.getElem?_eq_some_iff.mp slot).1

omit [DecidableEq κ] in
theorem mapKeyAt_inj (first : mapKeyAt m i = some k) (second : mapKeyAt m j = some k) : i = j := by
  have bound := mapKeyAt_lt first
  rw [mapKeyAt_eq] at first second
  exact (List.getElem?_inj (by simpa using bound) m.unique).mp (first.trans second.symm)

theorem mapKeyAt_of_mapAt (found : mapAt m k = some val) : ∃ i, mapKeyAt m i = some k := by
  obtain ⟨i, slot⟩ := List.mem_iff_getElem?.mp (mapAt_eq_some_iff.mp found)
  exact ⟨i, by rw [mapKeyAt, slot]; rfl⟩

theorem mapKeyAt_mapSet (slot : mapKeyAt m i = some k) : mapKeyAt (mapSet m key val) i = some k := by
  have bound := mapKeyAt_lt slot
  rw [mapKeyAt_eq] at slot ⊢
  have keys : (mapSet m key val).entries.map Prod.fst = _ := keys_setEntries key val m.entries
  rw [keys]
  split
  · exact slot
  · rw [List.getElem?_append_left (by simpa using bound), slot]

theorem mapKeyAt_mapErase (m : Map κ ν) (key : κ) :
    (∀ i, mapKeyAt m i ≠ some key ∧ mapKeyAt (mapErase m key) i = mapKeyAt m i) ∨
      ∃ gap, mapKeyAt m gap = some key ∧
        ∀ i, mapKeyAt (mapErase m key) i = if i < gap then mapKeyAt m i else mapKeyAt m (i + 1) := by
  cases found : m.entries.findIdx? fun e => e.1 = key with
  | none =>
    have erased : (mapErase m key).entries = m.entries := (slot_none found).2.2
    refine .inl fun i => ⟨fun slot => ?_, by rw [mapKeyAt, erased, mapKeyAt]⟩
    obtain ⟨e, entry, isKey⟩ := Option.map_eq_some_iff.mp slot
    have absent := List.findIdx?_eq_none_iff.mp found e (List.mem_of_getElem? entry)
    exact absurd isKey (by simpa using absent)
  | some gap =>
    obtain ⟨val, slot, -, -, removed⟩ := slot_some found
    have erased : (mapErase m key).entries = m.entries.eraseIdx gap := removed
    refine .inr ⟨gap, by rw [mapKeyAt, slot]; rfl, fun i => ?_⟩
    rw [mapKeyAt, erased, List.getElem?_eraseIdx]
    split <;> rfl

end Keys

end Map

namespace FlatMap

section Represents

variable {k v : Nat} {f : FlatMap} {m : Map (Slot k) (Slot v)}

theorem sized_keyRows (m : Map (Slot k) (Slot v)) : Records.Sized k m.keyRows := by
  intro r member
  obtain ⟨e, -, same⟩ := List.mem_map.mp member
  exact same ▸ e.1.property

theorem sized_valRows (m : Map (Slot k) (Slot v)) : Records.Sized v m.valRows := by
  intro r member
  obtain ⟨e, -, same⟩ := List.mem_map.mp member
  exact same ▸ e.2.property

theorem length_keyRows (m : Map (Slot k) (Slot v)) : m.keyRows.length = m.entries.length := List.length_map _

theorem length_valRows (m : Map (Slot k) (Slot v)) : m.valRows.length = m.entries.length := List.length_map _

theorem represents_init (k v : Nat) : (mapInit k v).Represents (Dcn.mapInit (Slot k) (Slot v)) :=
  ⟨rfl, rfl, rfl, rfl, rfl⟩

namespace Represents

theorem findKey (represents : f.Represents m) (key : Slot k) :
    f.findKey key.val = some (m.entries.findIdx? fun e => e.1 = key) := by
  rw [FlatMap.findKey, represents.keys, represents.kSize, represents.len, ← length_keyRows,
    scan_whole (sized_keyRows m), Map.keyRows, List.findIdx?_map]
  simp only [Function.comp_def, Subtype.ext_iff]

theorem findVal (represents : f.Represents m) (val : Slot v) :
    f.findVal val.val = some (m.entries.findIdx? fun e => e.2 = val) := by
  rw [FlatMap.findVal, represents.values, represents.vSize, represents.len, ← length_valRows,
    scan_whole (sized_valRows m), Map.valRows, List.findIdx?_map]
  simp only [Function.comp_def, Subtype.ext_iff]

theorem readKey (represents : f.Represents m) {i : Nat} {e : Slot k × Slot v} (slot : m.entries[i]? = some e) :
    Records.readAt f.keys (i * f.kSize) f.kSize = some e.1.val := by
  rw [represents.keys, represents.kSize]
  exact Records.readAt_row (sized_keyRows m) (by simp [Map.keyRows, slot])

theorem readVal (represents : f.Represents m) {i : Nat} {e : Slot k × Slot v} (slot : m.entries[i]? = some e) :
    Records.readAt f.values (i * f.vSize) f.vSize = some e.2.val := by
  rw [represents.values, represents.vSize]
  exact Records.readAt_row (sized_valRows m) (by simp [Map.valRows, slot])

theorem positive (represents : f.Represents m) (kPos : 0 < k) (vPos : 0 < v) : ¬(f.kSize = 0 ∨ f.vSize = 0) := by
  rw [represents.kSize, represents.vSize]
  omega

theorem mapSet (represents : f.Represents m) (kPos : 0 < k) (vPos : 0 < v) (key : Slot k) (val : Slot v)
    (kFresh vFresh : Nat → UInt8) :
    ∃ next, f.mapSet key.val val.val kFresh vFresh = some (0, next) ∧ next.Represents (Dcn.mapSet m key val) := by
  rw [FlatMap.mapSet, if_neg (represents.positive kPos vPos), represents.findKey key, Option.bind_some]
  cases slot : m.entries.findIdx? fun e => e.1 = key with
  | some i =>
    obtain ⟨old, place, -, stored, -⟩ := Map.slot_some slot
    have bound : i < m.valRows.length := by
      rw [length_valRows]
      exact (List.getElem?_eq_some_iff.mp place).1
    have entries : (Dcn.mapSet m key val).entries = m.entries.set i (key, val) := stored val
    have keys : (Dcn.mapSet m key val).keyRows = m.keyRows := by
      -- The key of the slot is the one that is stored there.
      have isKey : m.keyRows[i]? = some key.val := by simp [Map.keyRows, place]
      obtain ⟨inside, isKey⟩ := List.getElem?_eq_some_iff.mp isKey
      rw [Map.keyRows, entries, List.map_set]
      exact isKey ▸ List.set_getElem_self inside
    have values : (Dcn.mapSet m key val).valRows = m.valRows.set i val.val := by
      rw [Map.valRows, entries, List.map_set, Map.valRows]
    refine ⟨{ f with values := (m.valRows.set i val.val).flatten }, ?_, represents.kSize, represents.vSize, ?_, ?_, ?_⟩
    · dsimp only
      rw [represents.values, represents.vSize, Records.writeAt_row (sized_valRows m) bound val.property, Option.map_some]
    · rw [entries, List.length_set]
      exact represents.len
    · rw [keys]
      exact represents.keys
    · rw [values]
  | none =>
    obtain ⟨-, stored, -⟩ := Map.slot_none slot
    have entries : (Dcn.mapSet m key val).entries = m.entries ++ [(key, val)] := stored val
    have keys : grow f.keys f.kSize f.len key.val kFresh = some (m.keyRows ++ [key.val]).flatten := by
      rw [represents.keys, represents.kSize, represents.len, ← length_keyRows]
      exact grow_rows (sized_keyRows m) key.property kFresh
    have values : grow f.values f.vSize f.len val.val vFresh = some (m.valRows ++ [val.val]).flatten := by
      rw [represents.values, represents.vSize, represents.len, ← length_valRows]
      exact grow_rows (sized_valRows m) val.property vFresh
    have newKeys : (Dcn.mapSet m key val).keyRows = m.keyRows ++ [key.val] := by
      rw [Map.keyRows, entries, List.map_append, Map.keyRows]
      rfl
    have newValues : (Dcn.mapSet m key val).valRows = m.valRows ++ [val.val] := by
      rw [Map.valRows, entries, List.map_append, Map.valRows]
      rfl
    refine ⟨{ f with
        keys := (m.keyRows ++ [key.val]).flatten
        values := (m.valRows ++ [val.val]).flatten
        len := f.len + 1 }, ?_, represents.kSize, represents.vSize, ?_, ?_, ?_⟩
    · dsimp only
      rw [keys, Option.bind_some, values, Option.map_some]
    · rw [entries, List.length_append]
      exact congrArg (· + 1) represents.len
    · rw [newKeys]
    · rw [newValues]

theorem mapErase (represents : f.Represents m) (key : Slot k) (kFresh vFresh : Nat → UInt8) :
    ∃ next, f.mapErase key.val kFresh vFresh = some (if Dcn.mapIn m key then 0 else 1, next) ∧
      next.Represents (Dcn.mapErase m key) := by
  rw [FlatMap.mapErase, represents.findKey key, Option.bind_some]
  cases slot : m.entries.findIdx? fun e => e.1 = key with
  | none =>
    obtain ⟨absent, -, erased⟩ := Map.slot_none slot
    have entries : (Dcn.mapErase m key).entries = m.entries := erased
    have missing : Dcn.mapIn m key = false := by
      rw [Dcn.mapIn, Dcn.mapAt, absent]
      rfl
    refine ⟨f, by simp [missing], represents.kSize, represents.vSize, ?_, ?_, ?_⟩
    · rw [entries, represents.len]
    · rw [Map.keyRows, entries, represents.keys, Map.keyRows]
    · rw [Map.valRows, entries, represents.values, Map.valRows]
  | some i =>
    obtain ⟨old, place, first, -, erased⟩ := Map.slot_some slot
    have bound : i < m.entries.length := (List.getElem?_eq_some_iff.mp place).1
    have entries : (Dcn.mapErase m key).entries = m.entries.eraseIdx i := erased
    have found : Dcn.mapIn m key = true := by
      rw [Dcn.mapIn, Dcn.mapAt, first]
      rfl
    have left : (m.entries.eraseIdx i).length = f.len - 1 := by rw [List.length_eraseIdx_of_lt bound, represents.len]
    have keys : (Dcn.mapErase m key).keyRows = m.keyRows.eraseIdx i := by
      rw [Map.keyRows, entries, Map.keyRows, List.eraseIdx_map]
    have values : (Dcn.mapErase m key).valRows = m.valRows.eraseIdx i := by
      rw [Map.valRows, entries, Map.valRows, List.eraseIdx_map]
    dsimp only
    rw [found]
    by_cases only : f.len = 1
    · have nothing : (Dcn.mapErase m key).entries = [] := by
        rw [entries]
        apply List.length_eq_zero_iff.mp
        omega
      rw [if_pos only]
      refine ⟨_, rfl, represents.kSize, represents.vSize, ?_, ?_, ?_⟩
      · rw [entries, left]
      · rw [Map.keyRows, nothing]
        rfl
      · rw [Map.valRows, nothing]
        rfl
    · have closeKeys : close f.keys f.kSize f.len i kFresh = some (m.keyRows.eraseIdx i).flatten := by
        rw [represents.keys, represents.kSize, represents.len, ← length_keyRows]
        exact close_rows (sized_keyRows m) (by rwa [length_keyRows]) kFresh
      have closeValues : close f.values f.vSize f.len i vFresh = some (m.valRows.eraseIdx i).flatten := by
        rw [represents.values, represents.vSize, represents.len, ← length_valRows]
        exact close_rows (sized_valRows m) (by rwa [length_valRows]) vFresh
      rw [if_neg only, closeKeys, Option.bind_some, closeValues, Option.map_some]
      refine ⟨_, rfl, represents.kSize, represents.vSize, ?_, ?_, ?_⟩
      · rw [entries, left]
      · rw [keys]
      · rw [values]

theorem mapKeyAt (represents : f.Represents m) (inx : Nat) :
    f.mapKeyAt inx = some (if (Dcn.mapKeyAt m inx).isSome then 0 else -1, (Dcn.mapKeyAt m inx).map Subtype.val) := by
  unfold FlatMap.mapKeyAt Dcn.mapKeyAt
  cases slot : m.entries[inx]? with
  | none =>
    rw [represents.len, if_pos (List.getElem?_eq_none_iff.mp slot)]
    rfl
  | some e =>
    have bound : ¬m.entries.length ≤ inx := Nat.not_le.mpr (List.getElem?_eq_some_iff.mp slot).1
    rw [represents.len, if_neg bound, Nat.mul_comm, represents.readKey slot]
    rfl

theorem mapValAt (represents : f.Represents m) (inx : Nat) :
    f.mapValAt inx = some (if (Dcn.mapValAt m inx).isSome then 0 else -1, (Dcn.mapValAt m inx).map Subtype.val) := by
  unfold FlatMap.mapValAt Dcn.mapValAt
  cases slot : m.entries[inx]? with
  | none =>
    rw [represents.len, if_pos (List.getElem?_eq_none_iff.mp slot)]
    rfl
  | some e =>
    have bound : ¬m.entries.length ≤ inx := Nat.not_le.mpr (List.getElem?_eq_some_iff.mp slot).1
    rw [represents.len, if_neg bound, Nat.mul_comm, represents.readVal slot]
    rfl

theorem mapIn (represents : f.Represents m) (key : Slot k) : f.mapIn key.val = some (Dcn.mapIn m key) := by
  rw [FlatMap.mapIn, represents.findKey key, Option.map_some, List.findIdx?_isSome, Dcn.mapIn, Dcn.mapAt,
    Option.isSome_map, List.isSome_find?]

theorem mapValueIn (represents : f.Represents m) (val : Slot v) : f.mapValueIn val.val = some (Dcn.mapValueIn m val) := by
  rw [FlatMap.mapValueIn, represents.findVal val, Option.map_some, List.findIdx?_isSome, Dcn.mapValueIn]

theorem mapCopyAt (represents : f.Represents m) (key : Slot k) :
    f.mapCopyAt key.val = some ((Dcn.mapAt m key).map Subtype.val) := by
  rw [FlatMap.mapCopyAt, represents.findKey key, Option.bind_some, Dcn.mapAt, List.find?_eq_bind_findIdx?_getElem?]
  cases slot : m.entries.findIdx? fun e => e.1 = key with
  | none => rfl
  | some i =>
    obtain ⟨val, place, -⟩ := Map.slot_some slot
    simp only [represents.readVal place, Option.map_some, Option.bind_some, place]

theorem mapAt (represents : f.Represents m) (kPos : 0 < k) (vPos : 0 < v) (key : Slot k) :
    (f.mapAt key.val).bind (pointee f.values f.vSize) = some ((Dcn.mapAt m key).map Subtype.val) := by
  rw [FlatMap.mapAt, if_neg (represents.positive kPos vPos), ← represents.mapCopyAt key, FlatMap.mapCopyAt]
  cases f.findKey key.val with
  | none => rfl
  | some hit => cases hit <;> rfl

theorem mapKeyByVal (represents : f.Represents m) (val : Slot v) :
    (f.mapKeyByVal val.val).bind (pointee f.keys f.kSize) = some ((Dcn.mapKeyByVal m val).map Subtype.val) := by
  rw [FlatMap.mapKeyByVal, represents.findVal val, Option.map_some, Option.bind_some, Dcn.mapKeyByVal,
    List.find?_eq_bind_findIdx?_getElem?]
  cases slot : m.entries.findIdx? fun e => e.2 = val with
  | none => rfl
  | some i =>
    have bound : i < m.entries.length := (List.findIdx?_eq_some_iff_findIdx_eq.mp slot).1
    have place : m.entries[i]? = some m.entries[i] := List.getElem?_eq_getElem bound
    simp only [Option.map_some, pointee, represents.readKey place, Option.bind_some, place]

theorem mapEmpty (represents : f.Represents m) : f.mapEmpty = Dcn.mapEmpty m := by
  rw [FlatMap.mapEmpty, represents.len, Dcn.mapEmpty]
  cases m.entries <;> rfl

end Represents

theorem flatCall_simulates (kPos : 0 < k) (vPos : 0 < v) : Refinement.Simulates flatCall (@mapCall k v) Represents := by
  intro f m call represents
  cases call with
  | set key val kFresh vFresh =>
    obtain ⟨next, stored, after⟩ := represents.mapSet kPos vPos key val kFresh vFresh
    exact ⟨next, by simp only [flatCall, mapCall, stored, Option.map_some], after⟩
  | erase key kFresh vFresh =>
    obtain ⟨next, erased, after⟩ := represents.mapErase key kFresh vFresh
    exact ⟨next, by simp only [flatCall, mapCall, erased, Option.map_some], after⟩
  | clear => exact ⟨f.mapClear, rfl, represents.kSize, represents.vSize, rfl, rfl, rfl⟩
  | atKey key =>
    exact ⟨f, by simp only [flatCall, mapCall, represents.mapAt kPos vPos, Option.map_some], represents⟩
  | isIn key => exact ⟨f, by simp only [flatCall, mapCall, represents.mapIn, Option.map_some], represents⟩
  | copyAt key => exact ⟨f, by simp only [flatCall, mapCall, represents.mapCopyAt, Option.map_some], represents⟩
  | keyByVal val => exact ⟨f, by simp only [flatCall, mapCall, represents.mapKeyByVal, Option.map_some], represents⟩
  | valueIn val => exact ⟨f, by simp only [flatCall, mapCall, represents.mapValueIn, Option.map_some], represents⟩
  | keyAt inx =>
    refine ⟨f, ?_, represents⟩
    simp only [flatCall, mapCall, represents.mapKeyAt, Option.map_some, MapAnswer.indexed, Option.isSome_map]
  | valAt inx =>
    refine ⟨f, ?_, represents⟩
    simp only [flatCall, mapCall, represents.mapValAt, Option.map_some, MapAnswer.indexed, Option.isSome_map]
  | empty => exact ⟨f, by simp only [flatCall, mapCall, represents.mapEmpty], represents⟩

end Represents

end FlatMap

namespace Map

section Assoc

variable {κ ν : Type} [DecidableEq κ]

def assoc (m : Map κ ν) : Assoc κ ν := ⟨m.entries.map Prod.fst, mapAt m⟩

theorem mem_order {m : Map κ ν} {key : κ} : key ∈ m.assoc.order ↔ ∃ val, mapAt m key = some val := by
  rw [assoc, List.mem_map]
  constructor
  · rintro ⟨⟨_, val⟩, member, rfl⟩
    exact ⟨val, mapAt_eq_some_iff.mpr member⟩
  · rintro ⟨val, found⟩
    exact ⟨(key, val), mapAt_eq_some_iff.mp found, rfl⟩

theorem sound_assoc (m : Map κ ν) : m.assoc.Sound :=
  ⟨m.unique, fun _ => mem_order.trans Option.isSome_iff_exists.symm⟩

theorem assoc_mapInit : (mapInit κ ν).assoc = .init κ ν := rfl

theorem assoc_mapSet (m : Map κ ν) (key : κ) (val : ν) : (mapSet m key val).assoc = m.assoc.set key val := by
  have order : (mapSet m key val).assoc.order = (m.assoc.set key val).order := keys_setEntries key val m.entries
  have value : (mapSet m key val).assoc.value = (m.assoc.set key val).value := by
    funext other
    exact (mapAt_mapSet m key other val).trans (Function.update_apply ..).symm
  exact congrArg₂ Assoc.mk order value

theorem keys_eraseEntries (key : κ) (entries : List (κ × ν)) :
    (eraseEntries key entries).map Prod.fst = (entries.map Prod.fst).erase key := by
  induction entries with
  | nil => rfl
  | cons e rest ih =>
    by_cases hit : e.1 = key
    · simp [eraseEntries, hit]
    · rw [eraseEntries, if_neg hit, List.map_cons, List.map_cons, List.erase_cons_tail (by simpa using hit), ih]

theorem assoc_mapErase (m : Map κ ν) (key : κ) : (mapErase m key).assoc = m.assoc.erase key := by
  have order : (mapErase m key).assoc.order = (m.assoc.erase key).order := keys_eraseEntries key m.entries
  have value : (mapErase m key).assoc.value = (m.assoc.erase key).value := by
    funext other
    apply Option.ext
    intro val
    by_cases same : other = key
    · subst same
      simp [assoc, Assoc.erase]
    · simp [assoc, Assoc.erase, same, mapAt_mapErase_of_ne m same]
  exact congrArg₂ Assoc.mk order value

theorem mapValAt_eq (m : Map κ ν) (inx : Nat) : mapValAt m inx = m.assoc.order[inx]?.bind m.assoc.value := by
  simp only [mapValAt, assoc, List.getElem?_map]
  cases slot : m.entries[inx]? with
  | none => rfl
  | some e => exact (mapAt_eq_some_iff.mpr (List.mem_of_getElem? slot)).symm

theorem mapKeyByVal_eq [DecidableEq ν] (m : Map κ ν) (val : ν) : mapKeyByVal m val = m.assoc.keyOf val := by
  have same : ∀ e ∈ m.entries, (mapAt m e.1 = some val ↔ e.2 = val) := by
    intro e member
    rw [mapAt_eq_some_iff.mpr member]
    exact Option.some_inj
  rw [mapKeyByVal, Assoc.keyOf, assoc, List.find?_map]
  refine congrArg (Option.map Prod.fst) (List.find?_congr fun e member => ?_)
  simp [same e member]

theorem mapValueIn_eq [DecidableEq ν] (m : Map κ ν) (val : ν) :
    mapValueIn m val = m.assoc.order.any fun key => m.assoc.value key = some val := by
  have found : (mapKeyByVal m val).isSome = (m.assoc.keyOf val).isSome := congrArg Option.isSome (mapKeyByVal_eq m val)
  rw [mapKeyByVal, Option.isSome_map, List.isSome_find?] at found
  rw [mapValueIn, found, Assoc.keyOf, List.isSome_find?]

theorem mapCall_assoc {k v : Nat} (m : Map (Slot k) (Slot v)) (call : MapCall k v) :
    (mapCall m call).1 = (assocCall m.assoc call).1 ∧ (mapCall m call).2.assoc = (assocCall m.assoc call).2 := by
  cases call with
  | set key val kFresh vFresh => exact ⟨rfl, assoc_mapSet m key val⟩
  | erase key kFresh vFresh => exact ⟨rfl, assoc_mapErase m key⟩
  | clear => exact ⟨rfl, assoc_mapInit⟩
  | keyByVal val => exact ⟨by simp only [mapCall, assocCall, mapKeyByVal_eq], rfl⟩
  | valueIn val => exact ⟨by simp only [mapCall, assocCall, mapValueIn_eq], rfl⟩
  | keyAt inx => exact ⟨by simp only [mapCall, assocCall, mapKeyAt, assoc, List.getElem?_map], rfl⟩
  | valAt inx => exact ⟨by simp only [mapCall, assocCall, mapValAt_eq], rfl⟩
  | empty => exact ⟨by simp only [mapCall, assocCall, mapEmpty, assoc, List.isEmpty_map], rfl⟩
  | _ => exact ⟨rfl, rfl⟩

end Assoc

end Map

namespace Assoc

variable {κ ν : Type} [DecidableEq κ] {a : Assoc κ ν}

theorem Sound.erase_absent (sound : a.Sound) {key : κ} (absent : a.value key = none) : a.erase key = a := by
  have unused : key ∉ a.order := by
    rw [sound.used, absent]
    exact Bool.false_ne_true
  have order : a.order.erase key = a.order := List.erase_of_not_mem unused
  have value : Function.update a.value key none = a.value := by
    rw [← absent]
    exact Function.update_eq_self key a.value
  exact congrArg₂ Assoc.mk order value

omit [DecidableEq κ] in
theorem Sound.keyOf [DecidableEq ν] (sound : a.Sound) (val : ν) :
    ((a.keyOf val).isSome = true ↔ ∃ key, a.value key = some val) ∧
      ∀ key, a.keyOf val = some key → a.value key = some val := by
  refine ⟨?_, fun key found => by simpa using List.find?_some found⟩
  rw [Assoc.keyOf, List.find?_isSome]
  constructor
  · rintro ⟨key, -, has⟩
    exact ⟨key, by simpa using has⟩
  · rintro ⟨key, has⟩
    refine ⟨key, (sound.used key).mpr ?_, by simpa using has⟩
    rw [has]
    rfl

end Assoc

namespace FlatMap

section Runs

variable {k v : Nat}

theorem refines_of_represents {f : FlatMap} {m : Map (Slot k) (Slot v)} (represents : f.Represents m) :
    f.Refines m.assoc where
  sound := Map.sound_assoc m
  len := represents.len.trans (List.length_map _).symm
  keys := by
    rw [represents.keys, Map.keyRows, Map.assoc, List.map_map]
    rfl
  values := by
    have each : (m.entries.map Prod.fst).filterMap (Dcn.mapAt m) = m.entries.map Prod.snd := by
      rw [List.filterMap_map, ← List.filterMap_eq_map]
      exact List.filterMap_congr fun e member => Map.mapAt_eq_some_iff.mpr member
    rw [represents.values, Map.valRows, Map.assoc, each, List.map_map]
    rfl
  absent key kFresh vFresh absent := by
    have missing : (m.entries.findIdx? fun e => e.1 = key) = none := by
      rw [List.findIdx?_eq_none_iff]
      intro e member
      have differ : e.1 ≠ key := by
        intro same
        have has : Dcn.mapAt m e.1 = some e.2 := Map.mapAt_eq_some_iff.mpr member
        have none : Dcn.mapAt m key = none := absent
        rw [same, none] at has
        cases has
      simpa using differ
    refine ⟨(Map.sound_assoc m).erase_absent absent, ?_⟩
    rw [FlatMap.mapErase, represents.findKey key, missing, Option.bind_some]
  byValue := (Map.sound_assoc m).keyOf

/-- For any sizes but 0, and any sequence of calls: the buffers are never left,
every call is answered as by the association, and the buffers hold it. -/
theorem map_refines_association (kPos : 0 < k) (vPos : 0 < v) (calls : List (MapCall k v)) :
    ∃ last, Refinement.execute flatCall (mapInit k v) calls =
        some ((Refinement.replay assocCall (.init (Slot k) (Slot v)) calls).1, last) ∧
      last.Refines (Refinement.replay assocCall (.init (Slot k) (Slot v)) calls).2 := by
  have simulates : Refinement.Simulates flatCall (@assocCall k v) fun f a => ∃ m, f.Represents m ∧ m.assoc = a := by
    rintro f _ call ⟨m, represents, rfl⟩
    obtain ⟨answer, after⟩ := Map.mapCall_assoc m call
    obtain ⟨next, called, kept⟩ := flatCall_simulates kPos vPos f m call represents
    exact ⟨next, answer ▸ called, _, kept, after⟩
  obtain ⟨last, executed, m, represents, isAssoc⟩ :=
    simulates.run calls ⟨Dcn.mapInit (Slot k) (Slot v), represents_init k v, rfl⟩
  exact ⟨last, executed, isAssoc ▸ refines_of_represents represents⟩

end Runs

theorem map_refines_association_two :
    ∃ last, Refinement.execute flatCall (mapInit 2 1)
        [.set ⟨[1, 2], rfl⟩ ⟨[7], rfl⟩ (fun _ => 0) fun _ => 0, .set ⟨[1, 3], rfl⟩ ⟨[8], rfl⟩ (fun _ => 0) fun _ => 0,
          .set ⟨[1, 2], rfl⟩ ⟨[9], rfl⟩ (fun _ => 0) fun _ => 0, .atKey ⟨[1, 2], rfl⟩,
          .erase ⟨[1, 2], rfl⟩ (fun _ => 0) fun _ => 0, .keyByVal ⟨[8], rfl⟩] =
        some ([⟨0, none⟩, ⟨0, none⟩, ⟨0, none⟩, ⟨1, some [9]⟩, ⟨0, none⟩, ⟨1, some [1, 3]⟩], last) := by
  obtain ⟨last, executed, -⟩ := @map_refines_association 2 1 (by decide) (by decide) _
  exact ⟨last, executed⟩

end FlatMap

end Dcn
