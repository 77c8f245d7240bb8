import Dcn.Memory.Allocator
import Dcn.Foundation.Heap
import Dcn.Foundation.Loop
import Dcn.Foundation.Runs

/-! The allocator's table over whole runs: it holds the addresses that were
returned and not given back, and nothing else.

The set of those addresses is kept beside the table and follows the results of
the calls only. Every call keeps the two in step, whatever it has to splice.
-/

set_option autoImplicit false

namespace Dcn

namespace Allocator

def Holds (a : Allocator) (n ptr : UInt64) : Prop := (a.buckets.store n).map Linked.Node.value = some ptr

/-- The array is as long as the capacity says, `size` counts the tracked
addresses, and each is in one node, in the chain of its place. -/
structure Exact (a : Allocator) (tracked : Finset UInt64) : Prop where
  positive : 0 < a.capacity
  length : a.length = a.capacity.toNat
  counted : a.size = tracked.card
  chains : ∃ chains : Nat → List UInt64,
    (∀ i < a.length, Linked.Chain a.buckets.store (a.buckets.heads i) (chains i) ∧ (chains i).Nodup ∧
      ∀ n ∈ chains i, ∃ p ∈ tracked, a.Holds n p) ∧
    ∀ p ∈ tracked, ∃ n ∈ chains (hashPtr p a.capacity).toNat, a.Holds n p ∧
      ∀ i < a.length, ∀ m ∈ chains i, a.Holds m p → i = (hashPtr p a.capacity).toNat ∧ m = n

structure Serves (a : Allocator) (tracked : Finset UInt64) : Prop where
  freed : ∀ p ∈ tracked, ∃ b, alcFree (some p) a = some b ∧ b.Exact (tracked.erase p)
  notFreed : ∀ p ∉ tracked, alcFree (some p) a = some a
  nullFreed : alcFree none a = some a
  replaced : a.capacity.toNat < 2 ^ 63 → ∀ p ∈ tracked, ∀ q ∉ tracked.erase p, ∀ newBytes ≠ 0, ∀ bk loaded callocOk,
    ∃ b, alcRealloc (some p) newBytes (some q) bk loaded callocOk a = some (some q, b) ∧
      b.Exact (insert q (tracked.erase p))
  restored : ∀ p ∈ tracked, ∀ newBytes ≠ 0, ∀ bk loaded callocOk,
    ∃ b, alcRealloc (some p) newBytes none bk loaded callocOk a = some (none, b) ∧ b.Exact tracked
  unknown : ∀ p ∉ tracked, ∀ newBytes newPtr bk loaded callocOk,
    alcRealloc (some p) newBytes newPtr bk loaded callocOk a = some (none, a)

def slot (capacity ptr : UInt64) : Nat := (hashPtr ptr capacity).toNat

structure Tracks (a : Allocator) (owned tracked : Finset UInt64) : Prop where
  positive : a.capacity ≠ 0
  length : a.length = a.capacity.toNat
  counted : a.size = owned.card
  filed : ∃ value chains, Linked.Filed (slot a.capacity) a.buckets owned value chains ∧ owned.image value = tracked

theorem slot_lt {capacity : UInt64} (positive : capacity ≠ 0) (ptr : UInt64) : slot capacity ptr < capacity.toNat := by
  rw [slot, hashPtr, UInt64.toNat_mod]
  apply Nat.mod_lt
  exact Nat.pos_of_ne_zero fun zero => positive (UInt64.toNat_inj.mp zero)

section Tracks

variable {a : Allocator} {owned tracked : Finset UInt64}

theorem indexOf_eq (positive : a.capacity ≠ 0) (length : a.length = a.capacity.toNat) (ptr : UInt64) :
    a.indexOf ptr = some (slot a.capacity ptr) := by
  have inside : (hashPtr ptr a.capacity).toNat < a.length := length ▸ slot_lt positive ptr
  rw [Allocator.indexOf, if_neg positive, if_pos inside]
  rfl

theorem Tracks.indexOf (tracks : a.Tracks owned tracked) (ptr : UInt64) :
    a.indexOf ptr = some (slot a.capacity ptr) := indexOf_eq tracks.positive tracks.length ptr

theorem Tracks.counted_tracked (tracks : a.Tracks owned tracked) : a.size = tracked.card := by
  obtain ⟨value, chains, filed, same⟩ := tracks.filed
  rw [tracks.counted, ← same, Finset.card_image_of_injOn filed.single]

theorem Tracks.not_owned (tracks : a.Tracks owned tracked) {n : UInt64} (unused : a.buckets.store n = none) :
    n ∉ owned := by
  obtain ⟨value, chains, filed, -⟩ := tracks.filed
  intro member
  have stored := filed.stored n member
  rw [unused] at stored
  cases stored

theorem Tracks.exact (tracks : a.Tracks owned tracked) : a.Exact tracked := by
  obtain ⟨value, chains, filed, same⟩ := tracks.filed
  subst same
  have holds {n p : UInt64} (member : n ∈ owned) (isValue : a.Holds n p) : value n = p :=
    Option.some.inj ((filed.stored n member).symm.trans isValue)
  refine ⟨?_, tracks.length, tracks.counted_tracked, chains, ?_, ?_⟩
  · exact UInt64.pos_iff_ne_zero.mpr tracks.positive
  · intro i _
    refine ⟨filed.chain i, filed.distinct i, fun n member => ?_⟩
    have inside := filed.owned_of_mem member
    exact ⟨value n, Finset.mem_image_of_mem value inside, filed.stored n inside⟩
  · intro p isTracked
    obtain ⟨n, inside, isValue⟩ := Finset.mem_image.mp isTracked
    subst isValue
    refine ⟨n, (filed.filed _ n).mpr ⟨inside, rfl⟩, filed.stored n inside, ?_⟩
    intro i _ m member isValue
    obtain ⟨other, isIndex⟩ := (filed.filed i m).mp member
    have sameValue := holds other isValue
    exact ⟨by rw [← isIndex, sameValue]; rfl, filed.single other inside sameValue⟩

theorem Tracks.file (tracks : a.Tracks owned tracked) {n p : UInt64} (absent : n ∉ owned) (new : p ∉ tracked) :
    (a.file (slot a.capacity p) n p).Tracks (insert n owned) (insert p tracked) := by
  obtain ⟨value, chains, filed, same⟩ := tracks.filed
  subst same
  refine ⟨tracks.positive, tracks.length, ?_, _, _, filed.link absent new, Linked.Filed.image_link absent⟩
  rw [Finset.card_insert_of_notMem absent]
  exact congrArg (· + 1) tracks.counted

theorem Tracks.findPtr (tracks : a.Tracks owned tracked) (p : UInt64) :
    a.findPtr (slot a.capacity p) p = some none ∧ p ∉ tracked ∨
      ∃ prev n node, a.findPtr (slot a.capacity p) p = some (some (prev, n, node)) ∧ p ∈ tracked ∧ node.value = p ∧
        n ∈ owned ∧ (a.cut (slot a.capacity p) prev node.next).Tracks (owned.erase n) (tracked.erase p) := by
  obtain ⟨value, chains, filed, same⟩ := tracks.filed
  subst same
  have room : owned.card < a.size + 1 := Nat.lt_succ_of_le tracks.counted.ge
  rcases filed.find p room with ⟨nothing, missing⟩ | ⟨before, n, node, after, split, member, isValue, found, walked⟩
  · exact .inl ⟨nothing, missing⟩
  · have sameValue : value n = p := (filed.value_of member found).symm.trans isValue
    have isTracked : p ∈ owned.image value := sameValue ▸ Finset.mem_image_of_mem value member
    refine .inr ⟨_, n, node, walked, isTracked, isValue, member, tracks.positive, tracks.length, ?_, value, _,
      filed.cut split found, ?_⟩
    · rw [Finset.card_erase_of_mem member]
      exact congrArg (· - 1) tracks.counted
    · rw [filed.image_cut member, sameValue]

theorem Tracks.free (tracks : a.Tracks owned tracked) {n : UInt64} (absent : n ∉ owned) :
    ({ a with buckets := a.buckets.free n } : Allocator).Tracks owned tracked := by
  obtain ⟨value, chains, filed, same⟩ := tracks.filed
  exact ⟨tracks.positive, tracks.length, tracks.counted, value, chains, filed.free absent, same⟩

end Tracks

/-- While chains are filed anew: the nodes that were moved are in the new array,
all others as they were. -/
structure Moving (old : Allocator) (value : UInt64 → UInt64) (newCapacity : UInt64) (moved : Finset UInt64)
    (b : Allocator) : Prop where
  length : b.length = newCapacity.toNat
  capacity : b.capacity = newCapacity
  counted : b.size = moved.card
  filed : ∃ chains, Linked.Filed (slot newCapacity) b.buckets moved value chains
  others : ∀ n ∉ moved, b.buckets.store n = old.buckets.store n

section Moving

variable {old b : Allocator} {value : UInt64 → UInt64} {newCapacity : UInt64} {moved : Finset UInt64}

theorem Moving.file (moving : Moving old value newCapacity moved b) (positive : newCapacity ≠ 0) {n : UInt64}
    (absent : n ∉ moved) (new : value n ∉ moved.image value) :
    ∃ c, b.fileEntry n (value n) = some c ∧
      Moving old value newCapacity (insert n moved) c ∧ ∀ m, m ≠ n → c.buckets.store m = b.buckets.store m := by
  obtain ⟨chains, filed⟩ := moving.filed
  have indexed : b.indexOf (value n) = some (slot newCapacity (value n)) := by
    have indexed := indexOf_eq (moving.capacity ▸ positive) (moving.length.trans (by rw [moving.capacity])) (value n)
    rwa [moving.capacity] at indexed
  have linked := filed.link absent new
  rw [Function.update_eq_self] at linked
  refine ⟨b.file (slot newCapacity (value n)) n (value n), by rw [fileEntry, indexed, Option.map_some],
    ⟨moving.length, moving.capacity, ?_, ⟨_, linked⟩, ?_⟩, ?_⟩
  · rw [Finset.card_insert_of_notMem absent]
    exact congrArg (· + 1) moving.counted
  · intro m outside
    obtain ⟨other, outside⟩ := not_or.mp (mt Finset.mem_insert.mpr outside)
    exact (Function.update_of_ne other _ _).trans (moving.others m outside)
  · intro m other
    exact Function.update_of_ne other _ _

theorem Moving.refile (moving : Moving old value newCapacity moved b) (positive : newCapacity ≠ 0)
    {head : Option UInt64} {nodes : List UInt64} (chain : Linked.Chain old.buckets.store head nodes)
    (distinct : nodes.Nodup) (values : ∀ n ∈ nodes, (old.buckets.store n).map Linked.Node.value = some (value n))
    (new : ∀ n ∈ nodes, n ∉ moved) (single : Set.InjOn value (moved ∪ nodes.toFinset : Finset UInt64)) {fuel : Nat}
    (enough : nodes.length < fuel) :
    ∃ c, b.refile fuel head = some c ∧ Moving old value newCapacity (moved ∪ nodes.toFinset) c := by
  set target := moved ∪ nodes.toFinset with isTarget
  have here : Linked.Chain b.buckets.store head nodes := chain.congr fun n member => moving.others n (new n member)
  have start : target \ nodes.toFinset = moved := by
    rw [isTarget, Finset.union_sdiff_right, Finset.sdiff_eq_self_iff_disjoint]
    exact Finset.disjoint_right.mpr fun n member => new n (List.mem_toFinset.mp member)
  let invariant (pending : List UInt64) (c : Allocator) : Prop :=
    (∀ n ∈ pending, n ∈ nodes) ∧ Moving old value newCapacity (target \ pending.toFinset) c
  have acts : ∀ n rest c node, n ∉ rest → invariant (n :: rest) c → c.buckets.store n = some node →
      ∃ d, c.fileEntry n node.value = some d ∧ invariant rest d ∧
        ∀ m ∈ rest, d.buckets.store m = c.buckets.store m := by
    rintro n rest c node absent ⟨inside, moving⟩ stored
    have member : n ∈ nodes := inside n List.mem_cons_self
    have inTarget : n ∈ target := Finset.mem_union_right _ (List.mem_toFinset.mpr member)
    have pending : n ∉ target \ (n :: rest).toFinset := by simp
    have isValue : node.value = value n := by
      have isOld := values n member
      rw [← moving.others n pending, stored] at isOld
      exact Option.some.inj isOld
    have distinctValue : value n ∉ (target \ (n :: rest).toFinset).image value := by
      intro isImage
      obtain ⟨m, moved, same⟩ := Finset.mem_image.mp isImage
      have isNode := single (Finset.mem_sdiff.mp moved).1 inTarget same
      exact pending (isNode ▸ moved)
    have next : insert n (target \ (n :: rest).toFinset) = target \ rest.toFinset := by
      rw [List.toFinset_cons, Finset.sdiff_insert, Finset.insert_erase]
      exact Finset.mem_sdiff.mpr ⟨inTarget, fun later => absent (List.mem_toFinset.mp later)⟩
    obtain ⟨d, filed, moving, others⟩ := moving.file positive pending distinctValue
    rw [isValue]
    rw [next] at moving
    exact ⟨d, filed, ⟨fun m later => inside m (List.mem_cons_of_mem n later), moving⟩,
      fun m later => others m (ne_of_mem_of_not_mem later absent)⟩
  obtain ⟨c, walked, -, ends⟩ := Linked.Chain.visit (fun c => c.buckets.store) fileEntry invariant acts here distinct
    enough ⟨fun n member => member, by rwa [start]⟩
  exact ⟨c, walked, by simpa using ends⟩

def movedBefore (capacity : UInt64) (value : UInt64 → UInt64) (owned : Finset UInt64) (rest : List Nat) :
    Finset UInt64 :=
  owned.filter fun n => slot capacity (value n) ∉ rest

variable {owned : Finset UInt64} {chains : Nat → List UInt64} {i : Nat} {rest : List Nat}

theorem movedBefore_cons (filed : Linked.Filed (slot old.capacity) old.buckets owned value chains) (absent : i ∉ rest) :
    movedBefore old.capacity value owned (i :: rest) ∪ (chains i).toFinset =
      movedBefore old.capacity value owned rest := by
  ext n
  simp only [movedBefore, Finset.mem_union, Finset.mem_filter, List.mem_toFinset, filed.filed, List.mem_cons, not_or]
  constructor
  · rintro (⟨member, -, later⟩ | ⟨member, isIndex⟩)
    · exact ⟨member, later⟩
    · exact ⟨member, isIndex ▸ absent⟩
  · rintro ⟨member, later⟩
    by_cases isIndex : slot old.capacity (value n) = i
    · exact .inr ⟨member, isIndex⟩
    · exact .inl ⟨member, isIndex, later⟩

theorem Moving.refileAt (filed : Linked.Filed (slot old.capacity) old.buckets owned value chains)
    (counted : old.size = owned.card) (inside : i < old.length) (absent : i ∉ rest)
    (moving : Moving old value newCapacity (movedBefore old.capacity value owned (i :: rest)) b)
    (positive : newCapacity ≠ 0) :
    ∃ c, old.refileAt b i = some c ∧ Moving old value newCapacity (movedBefore old.capacity value owned rest) c := by
  have next := movedBefore_cons filed absent
  have values : ∀ n ∈ chains i, (old.buckets.store n).map Linked.Node.value = some (value n) :=
    fun n member => filed.stored n (filed.owned_of_mem member)
  have new : ∀ n ∈ chains i, n ∉ movedBefore old.capacity value owned (i :: rest) := by
    intro n member isMoved
    have gone := (Finset.mem_filter.mp isMoved).2
    rw [((filed.filed i n).mp member).2] at gone
    exact gone List.mem_cons_self
  have single : Set.InjOn value
      (movedBefore old.capacity value owned (i :: rest) ∪ (chains i).toFinset : Finset UInt64) := by
    rw [next]
    exact filed.single.mono (Finset.coe_subset.mpr (Finset.filter_subset _ owned))
  have enough : (chains i).length < old.size + 1 := by
    have room := filed.length_le i
    omega
  obtain ⟨c, walked, moving⟩ := moving.refile positive (filed.chain i) (filed.distinct i) values new single enough
  rw [next] at moving
  exact ⟨c, by rw [Allocator.refileAt, if_pos inside, walked], moving⟩

end Moving

section Operations

variable {a : Allocator} {owned tracked : Finset UInt64}

theorem double_ne_zero {capacity : UInt64} (positive : capacity ≠ 0) (bound : capacity.toNat < 2 ^ 63) :
    capacity * 2 ≠ 0 := by
  intro zero
  have product : (capacity * 2).toNat = capacity.toNat * 2 % 2 ^ 64 := UInt64.toNat_mul capacity 2
  have isZero : capacity.toNat = 0 := by
    rw [zero] at product
    simp only [UInt64.toNat_zero] at product
    omega
  exact positive (UInt64.toNat_inj.mp isZero)

/-- A resize moves every chain of the old array, or leaves the table as it is. -/
theorem Tracks.resize (tracks : a.Tracks owned tracked) (bound : a.capacity.toNat < 2 ^ 63) (callocOk : Bool) :
    ∃ b, a.hashTableResize (a.capacity * 2) callocOk = some b ∧ b.Tracks owned tracked := by
  cases callocOk with
  | false => exact ⟨a, rfl, tracks⟩
  | true =>
    obtain ⟨value, chains, filed, same⟩ := tracks.filed
    have positive := double_ne_zero tracks.positive bound
    let invariant (rest : List Nat) (b : Allocator) : Prop :=
      rest.Nodup ∧ (∀ i ∈ rest, i < a.length) ∧
        Moving a value (a.capacity * 2) (movedBefore a.capacity value owned rest) b
    have body : ∀ i rest b, invariant (i :: rest) b → ∃ c, a.refileAt b i = some c ∧ invariant rest c := by
      rintro i rest b ⟨distinct, inside, moving⟩
      obtain ⟨absent, distinct⟩ := List.nodup_cons.mp distinct
      obtain ⟨c, walked, moving⟩ :=
        Moving.refileAt filed tracks.counted (inside i List.mem_cons_self) absent moving positive
      exact ⟨c, walked, distinct, fun j later => inside j (List.mem_cons_of_mem i later), moving⟩
    have nothing : movedBefore a.capacity value owned (List.range a.capacity.toNat) = ∅ := by
      apply Finset.filter_eq_empty_iff.mpr
      intro n _ outside
      exact outside (List.mem_range.mpr (slot_lt tracks.positive (value n)))
    have everything : movedBefore a.capacity value owned [] = owned :=
      Finset.filter_eq_self.mpr fun n _ => List.not_mem_nil
    have start : invariant (List.range a.capacity.toNat)
        ⟨⟨a.buckets.store, fun _ => none⟩, (a.capacity * 2).toNat, 0, a.capacity * 2⟩ := by
      refine ⟨List.nodup_range, fun i member => ?_, ?_⟩
      · rw [tracks.length]
        exact List.mem_range.mp member
      · rw [nothing]
        exact ⟨rfl, rfl, rfl, ⟨_, Linked.Filed.empty _ _ value⟩, fun n _ => rfl⟩
    obtain ⟨b, ran, -, -, moving⟩ := Loop.foldlM_some invariant body start
    rw [everything] at moving
    obtain ⟨newChains, refiled⟩ := moving.filed
    refine ⟨b, by rw [hashTableResize, if_pos rfl, ran], ?_, ?_, moving.counted, value, newChains, ?_, same⟩
    · rw [moving.capacity]
      exact positive
    · rw [moving.length, moving.capacity]
    · rw [moving.capacity]
      exact refiled

theorem Tracks.grow (tracks : a.Tracks owned tracked) (bound : a.capacity.toNat < 2 ^ 63) (loaded callocOk : Bool) :
    ∃ b, a.growIfLoaded loaded callocOk = some b ∧ b.Tracks owned tracked := by
  cases loaded with
  | false => exact ⟨a, rfl, tracks⟩
  | true => exact tracks.resize bound callocOk

theorem Tracks.malloc (tracks : a.Tracks owned tracked) (bound : a.capacity.toNat < 2 ^ 63) {ptr : Option UInt64}
    (new : ∀ p, ptr = some p → p ∉ tracked) {n : UInt64} (absent : n ∉ owned) (loaded callocOk : Bool) :
    ∃ b after, alcMalloc ptr (some n) loaded callocOk a = some (ptr, b) ∧ b.Tracks after (tracked ∪ ptr.toFinset) := by
  cases ptr with
  | none => exact ⟨a, owned, rfl, by rwa [Option.toFinset_none, Finset.union_empty]⟩
  | some p =>
    obtain ⟨b, grown, tracks⟩ := tracks.grow bound loaded callocOk
    have filed := tracks.file absent (new p rfl)
    refine ⟨b.file (slot b.capacity p) n p, insert n owned, ?_, ?_⟩
    · simp only [alcMalloc, grown, tracks.indexOf, Option.bind_eq_bind, Option.bind_some]
    · rwa [Option.toFinset_some, Finset.union_comm, ← Finset.insert_eq]

theorem Tracks.calloc (tracks : a.Tracks owned tracked) {ptr : Option UInt64} (new : ∀ p, ptr = some p → p ∉ tracked)
    {n : UInt64} (absent : n ∉ owned) :
    ∃ b after, alcCalloc ptr (some n) a = some (ptr, b) ∧ b.Tracks after (tracked ∪ ptr.toFinset) := by
  cases ptr with
  | none => exact ⟨a, owned, rfl, by rwa [Option.toFinset_none, Finset.union_empty]⟩
  | some p =>
    refine ⟨a.file (slot a.capacity p) n p, insert n owned, ?_, ?_⟩
    · simp only [alcCalloc, tracks.indexOf, Option.bind_eq_bind, Option.bind_some]
    · rw [Option.toFinset_some, Finset.union_comm, ← Finset.insert_eq]
      exact tracks.file absent (new p rfl)

theorem Tracks.missing (tracks : a.Tracks owned tracked) {p : UInt64} (absent : p ∉ tracked) :
    a.findPtr (slot a.capacity p) p = some none := by
  rcases tracks.findPtr p with ⟨nothing, -⟩ | ⟨_, _, _, -, isTracked, -⟩
  · exact nothing
  · exact absurd isTracked absent

theorem Tracks.found (tracks : a.Tracks owned tracked) {p : UInt64} (isTracked : p ∈ tracked) :
    ∃ prev n node, a.findPtr (slot a.capacity p) p = some (some (prev, n, node)) ∧ node.value = p ∧ n ∈ owned ∧
      (a.cut (slot a.capacity p) prev node.next).Tracks (owned.erase n) (tracked.erase p) := by
  rcases tracks.findPtr p with ⟨-, absent⟩ | ⟨prev, n, node, walked, -, isValue, member, left⟩
  · exact absurd isTracked absent
  · exact ⟨prev, n, node, walked, isValue, member, left⟩

theorem Tracks.alcFree_missing (tracks : a.Tracks owned tracked) {p : UInt64} (absent : p ∉ tracked) :
    alcFree (some p) a = some a := by
  simp only [alcFree, tracks.indexOf, tracks.missing absent, Option.bind_eq_bind, Option.bind_some]

theorem Tracks.alcFree (tracks : a.Tracks owned tracked) (p : UInt64) :
    ∃ b after, alcFree (some p) a = some b ∧ b.Tracks after (tracked.erase p) := by
  by_cases isTracked : p ∈ tracked
  · obtain ⟨prev, n, node, walked, -, -, left⟩ := tracks.found isTracked
    refine ⟨_, owned.erase n, ?_, left.free (Finset.notMem_erase n owned)⟩
    simp only [Dcn.alcFree, tracks.indexOf, walked, Option.bind_eq_bind, Option.bind_some]
  · refine ⟨a, owned, tracks.alcFree_missing isTracked, ?_⟩
    rwa [Finset.erase_eq_of_notMem isTracked]

theorem Tracks.realloc_missing (tracks : a.Tracks owned tracked) {p : UInt64} (absent : p ∉ tracked)
    (newBytes : UInt64) (newPtr bk : Option UInt64) (loaded callocOk : Bool) :
    alcRealloc (some p) newBytes newPtr bk loaded callocOk a = some (none, a) := by
  by_cases zero : newBytes = 0
  · simp only [alcRealloc, zero, ↓reduceIte, tracks.alcFree_missing absent, Option.map_some]
  · simp only [alcRealloc, zero, ↓reduceIte, tracks.indexOf, tracks.missing absent, Option.bind_eq_bind,
      Option.bind_some]

theorem Tracks.realloc_failed (tracks : a.Tracks owned tracked) {p : UInt64} (isTracked : p ∈ tracked)
    {newBytes : UInt64} (nonZero : newBytes ≠ 0) (bk : Option UInt64) (loaded callocOk : Bool) :
    ∃ b, alcRealloc (some p) newBytes none bk loaded callocOk a = some (none, b) ∧ b.Tracks owned tracked := by
  obtain ⟨prev, n, node, walked, isValue, member, left⟩ := tracks.found isTracked
  have back := left.file (Finset.notMem_erase n owned) (Finset.notMem_erase p tracked)
  rw [Finset.insert_erase member, Finset.insert_erase isTracked] at back
  refine ⟨_, ?_, back⟩
  simp only [alcRealloc, nonZero, ↓reduceIte, tracks.indexOf, walked, Option.bind_eq_bind, Option.bind_some, isValue]
  rfl

theorem Tracks.realloc_done (tracks : a.Tracks owned tracked) (bound : a.capacity.toNat < 2 ^ 63) {p q : UInt64}
    (isTracked : p ∈ tracked) (new : q ∉ tracked.erase p) {newBytes : UInt64} (nonZero : newBytes ≠ 0)
    (bk : Option UInt64) (loaded callocOk : Bool) :
    ∃ b, alcRealloc (some p) newBytes (some q) bk loaded callocOk a = some (some q, b) ∧
      b.Tracks owned (insert q (tracked.erase p)) := by
  obtain ⟨prev, n, node, walked, isValue, member, left⟩ := tracks.found isTracked
  have back := left.file (Finset.notMem_erase n owned) new
  rw [Finset.insert_erase member, cut_capacity] at back
  obtain ⟨b, grown, after⟩ := back.grow bound loaded callocOk
  refine ⟨b, ?_, after⟩
  have filed : (if q = p then some ((a.cut (slot a.capacity p) prev node.next).file (slot a.capacity p) n node.value)
      else (a.cut (slot a.capacity p) prev node.next).fileEntry n q) =
      some ((a.cut (slot a.capacity p) prev node.next).file (slot a.capacity q) n q) := by
    by_cases same : q = p
    · rw [if_pos same, isValue, same]
    · rw [if_neg same, fileEntry, left.indexOf, Option.map_some, cut_capacity]
  simp only [alcRealloc, nonZero, ↓reduceIte, tracks.indexOf, walked, Option.bind_eq_bind, Option.bind_some, filed,
    grown]

theorem collect_chain {t : Linked.Table UInt64 UInt64} {head : Option UInt64} {nodes : List UInt64}
    (chain : Linked.Chain t.store head nodes) (distinct : nodes.Nodup) {fuel : Nat} (enough : nodes.length < fuel) :
    ∃ u, collect fuel head t = some u ∧ u.heads = t.heads ∧ ∀ m ∉ nodes, u.store m = t.store m := by
  let invariant (pending : List UInt64) (u : Linked.Table UInt64 UInt64) : Prop :=
    (∀ n ∈ pending, n ∈ nodes) ∧ u.heads = t.heads ∧ ∀ m ∉ nodes, u.store m = t.store m
  have acts : ∀ n rest u node, n ∉ rest → invariant (n :: rest) u → u.store n = some node →
      ∃ w, some (u.free n) = some w ∧ invariant rest w ∧ ∀ m ∈ rest, w.store m = u.store m := by
    rintro n rest u node absent ⟨inside, heads, others⟩ -
    refine ⟨_, rfl, ⟨fun m later => inside m (List.mem_cons_of_mem n later), heads, fun m outside => ?_⟩,
      fun m later => Function.update_of_ne (ne_of_mem_of_not_mem later absent) _ _⟩
    have other : m ≠ n := fun same => outside (same ▸ inside n List.mem_cons_self)
    exact (Function.update_of_ne other _ _).trans (others m outside)
  obtain ⟨u, walked, -, heads, others⟩ := Linked.Chain.visit Linked.Table.store (fun u n _ => some (u.free n)) invariant
    acts chain distinct enough ⟨fun n member => member, rfl, fun m _ => rfl⟩
  exact ⟨u, walked, heads, others⟩

theorem Tracks.gcollect (tracks : a.Tracks owned tracked) : ∃ b, alcGcollect a = some b ∧ b.Tracks ∅ ∅ := by
  obtain ⟨value, chains, filed, -⟩ := tracks.filed
  let invariant (rest : List Nat) (t : Linked.Table UInt64 UInt64) : Prop :=
    (∀ i ∈ rest, i < a.length) ∧ ∃ left chains, Linked.Filed (slot a.capacity) t left value chains ∧ left ⊆ owned ∧
      ∀ n ∈ left, slot a.capacity (value n) ∈ rest
  have body : ∀ i rest t, invariant (i :: rest) t → ∃ u, a.collectAt t i = some u ∧ invariant rest u := by
    rintro i rest t ⟨inside, left, chains, filed, some, pending⟩
    have enough : (chains i).length < a.size + 1 := by
      have room := filed.length_le i
      have fewer := Finset.card_le_card some
      rw [tracks.counted]
      omega
    obtain ⟨u, collected, heads, others⟩ := collect_chain (filed.chain i) (filed.distinct i) enough
    have agree : ∀ n ∈ left, slot a.capacity (value n) ≠ i → u.store n = t.store n :=
      fun n member other => others n fun inChain => other ((filed.filed i n).mp inChain).2
    have cleared := filed.clear i agree
    have emptied : a.collectAt t i = Option.some ⟨u.store, Function.update t.heads i none⟩ := by
      rw [collectAt, if_pos (inside i List.mem_cons_self), collected, Option.map_some, heads]
    refine ⟨_, emptied, ?_, _, _, cleared, ?_, ?_⟩
    · exact fun j later => inside j (List.mem_cons_of_mem i later)
    · exact (Finset.filter_subset _ left).trans some
    · intro n member
      obtain ⟨member, other⟩ := Finset.mem_filter.mp member
      exact (List.mem_cons.mp (pending n member)).resolve_left other
  have start : invariant (List.range a.capacity.toNat) a.buckets := by
    refine ⟨fun i member => ?_, owned, chains, filed, subset_rfl, fun n _ => ?_⟩
    · rw [tracks.length]
      exact List.mem_range.mp member
    · exact List.mem_range.mpr (slot_lt tracks.positive (value n))
  obtain ⟨t, ran, -, left, newChains, cleared, -, pending⟩ := Loop.foldlM_some invariant body start
  have nothing : left = ∅ := Finset.eq_empty_of_forall_notMem fun n member => List.not_mem_nil (pending n member)
  subst nothing
  refine ⟨{ a with buckets := t, size := 0 }, ?_, tracks.positive, tracks.length, rfl, value, newChains, cleared,
    Finset.image_empty value⟩
  rw [alcGcollect, ran, Option.map_some]

theorem Tracks.serves (tracks : a.Tracks owned tracked) : a.Serves tracked where
  freed p isTracked := by
    obtain ⟨b, after, ran, left⟩ := tracks.alcFree p
    exact ⟨b, ran, left.exact⟩
  notFreed p absent := tracks.alcFree_missing absent
  nullFreed := rfl
  replaced bound p isTracked q new newBytes nonZero bk loaded callocOk := by
    obtain ⟨b, ran, after⟩ := tracks.realloc_done bound isTracked new nonZero bk loaded callocOk
    exact ⟨b, ran, after.exact⟩
  restored p isTracked newBytes nonZero bk loaded callocOk := by
    obtain ⟨b, ran, after⟩ := tracks.realloc_failed isTracked nonZero bk loaded callocOk
    exact ⟨b, ran, after.exact⟩
  unknown p absent := tracks.realloc_missing absent

end Operations

end Allocator

inductive AllocCall where
  | malloc (ptr bk : Option UInt64) (loaded callocOk : Bool)
  | calloc (ptr bk : Option UInt64)
  | realloc (ptr : Option UInt64) (newBytes : UInt64) (newPtr bk : Option UInt64) (loaded callocOk : Bool)
  | free (ptr : Option UInt64)
  | gcollect

/-- What the call returns, NULL where that is nothing. -/
def Allocator.call (a : Allocator) : AllocCall → Option (Option UInt64 × Allocator)
  | .malloc ptr bk loaded callocOk => alcMalloc ptr bk loaded callocOk a
  | .calloc ptr bk => alcCalloc ptr bk a
  | .realloc ptr newBytes newPtr bk loaded callocOk => alcRealloc ptr newBytes newPtr bk loaded callocOk a
  | .free ptr => (alcFree ptr a).map fun a => (none, a)
  | .gcollect => (alcGcollect a).map fun a => (none, a)

def trackedAfter (tracked : Finset UInt64) (returned : Option UInt64) : AllocCall → Finset UInt64
  | .malloc .. | .calloc .. | .realloc none .. => tracked ∪ returned.toFinset
  | .realloc (some p) newBytes .. =>
    if newBytes = 0 then tracked.erase p
    else match returned with
      | none => tracked
      | some q => insert q (tracked.erase p)
  | .free none => tracked
  | .free (some p) => tracked.erase p
  | .gcollect => ∅

structure Tracking where
  allocator : Option Allocator
  tracked : Finset UInt64

namespace Tracking

def init (callocOk : Bool) : Tracking := ⟨some (allocatorInit callocOk), ∅⟩

def step (s : Tracking) (call : AllocCall) : Tracking :=
  match s.allocator.bind fun a => a.call call with
  | none => { s with allocator := none }
  | some (returned, a) => ⟨some a, trackedAfter s.tracked returned call⟩

def Unused (s : Tracking) (ptr : Option UInt64) : Prop := ∀ p, ptr = some p → p ∉ s.tracked

def NodeFor (s : Tracking) (bk : Option UInt64) : Prop :=
  ∃ n, bk = some n ∧ ∀ a, s.allocator = some a → a.buckets.store n = none

/-- The memory a call gets was not allocated, there is some for a node, and the
capacity is below 2^63. -/
def Admits (s : Tracking) (call : AllocCall) : Prop :=
  (∀ a, s.allocator = some a → a.capacity.toNat < 2 ^ 63) ∧
    match call with
    | .malloc ptr bk .. | .calloc ptr bk | .realloc none _ ptr bk .. => s.Unused ptr ∧ s.NodeFor bk
    | .realloc (some p) _ newPtr .. => ∀ q, newPtr = some q → q ∉ s.tracked.erase p
    | .free _ | .gcollect => True

/-- No call went wrong, the table is exact and the next call is served. -/
def Kept (s : Tracking) : Prop :=
  ∃ a, s.allocator = some a ∧ a.Exact s.tracked ∧ a.Serves s.tracked

def Inv (s : Tracking) : Prop := ∃ a owned, s.allocator = some a ∧ a.Tracks owned s.tracked

theorem Inv.kept {s : Tracking} (inv : s.Inv) : s.Kept := by
  obtain ⟨a, owned, isSome, tracks⟩ := inv
  exact ⟨a, isSome, tracks.exact, tracks.serves⟩

theorem Inv.of_call {s : Tracking} {call : AllocCall} {a b : Allocator} {returned : Option UInt64}
    {owned : Finset UInt64} (isSome : s.allocator = some a) (ran : a.call call = some (returned, b))
    (tracks : b.Tracks owned (trackedAfter s.tracked returned call)) : (s.step call).Inv := by
  have stepped : s.step call = ⟨some b, trackedAfter s.tracked returned call⟩ := by
    rw [step, isSome, Option.bind_some, ran]
  rw [stepped]
  exact ⟨b, owned, rfl, tracks⟩

/-- What a call comes to for the heap, where it gets a block that it asks for. -/
def onHeap : AllocCall → Option (Heap.Call UInt64)
  | .malloc ptr .. | .calloc ptr _ | .realloc none _ ptr .. => ptr.map .take
  | .realloc (some p) newBytes newPtr .. =>
    if newBytes = 0 then some (.give (some p)) else newPtr.map (.move (some p))
  | .free ptr => some (.give ptr)
  | .gcollect => some .collect

def Agrees (tracked : Finset UInt64) (call : AllocCall) (returned : Option UInt64) : Prop :=
  ∀ h : Heap.State UInt64, h.tracked = tracked →
    ((onHeap call).elim h (Heap.step h)).tracked = trackedAfter tracked returned call

section OnHeap

variable {s : Tracking} {h : Heap.State UInt64} {call : AllocCall} {tracked : Finset UInt64}

theorem tracked_take (ptr : Option UInt64) (same : h.tracked = tracked) :
    ((ptr.map Heap.Call.take).elim h (Heap.step h)).tracked = tracked ∪ ptr.toFinset := by
  cases ptr with
  | none =>
    rw [Option.map_none, Option.elim_none, Option.toFinset_none, Finset.union_empty]
    exact same
  | some p =>
    rw [Option.map_some, Option.elim_some, Option.toFinset_some, Finset.union_comm, ← Finset.insert_eq, ← same]
    rfl

theorem agrees_free (ptr : Option UInt64) : Agrees tracked (.free ptr) none := by
  intro h same
  cases ptr with
  | none => exact same
  | some p =>
    rw [onHeap, Option.elim_some, Heap.step, trackedAfter, ← same]
    split
    · rfl
    · next absent => exact (Finset.erase_eq_of_notMem absent).symm

theorem answered_realloc {a : Allocator} {owned : Finset UInt64} (tracks : a.Tracks owned tracked)
    (bound : a.capacity.toNat < 2 ^ 63) {p : UInt64} {newPtr : Option UInt64}
    (fresh : ∀ q, newPtr = some q → q ∉ tracked.erase p) (newBytes : UInt64) (bk : Option UInt64)
    (loaded callocOk : Bool) :
    ∃ b returned after, a.call (.realloc (some p) newBytes newPtr bk loaded callocOk) = some (returned, b) ∧
      b.Tracks after (trackedAfter tracked returned (.realloc (some p) newBytes newPtr bk loaded callocOk)) ∧
      Agrees tracked (.realloc (some p) newBytes newPtr bk loaded callocOk) returned := by
  by_cases zero : newBytes = 0
  · obtain ⟨b, after, ran, next⟩ := tracks.alcFree p
    have answered : a.call (.realloc (some p) newBytes newPtr bk loaded callocOk) = some (none, b) := by
      simp only [Allocator.call, alcRealloc, if_pos zero, ran, Option.map_some]
    refine ⟨b, none, after, answered, by rwa [trackedAfter, if_pos zero], fun h same => ?_⟩
    rw [onHeap, if_pos zero, trackedAfter, if_pos zero]
    exact agrees_free (some p) h same
  · by_cases isTracked : p ∈ tracked
    · cases newPtr with
      | none =>
        obtain ⟨b, ran, next⟩ := tracks.realloc_failed isTracked zero bk loaded callocOk
        refine ⟨b, none, owned, ran, by rwa [trackedAfter, if_neg zero], fun h same => ?_⟩
        rw [onHeap, if_neg zero, trackedAfter, if_neg zero]
        exact same
      | some q =>
        obtain ⟨b, ran, next⟩ := tracks.realloc_done bound isTracked (fresh q rfl) zero bk loaded callocOk
        refine ⟨b, some q, owned, ran, by rwa [trackedAfter, if_neg zero], fun h same => ?_⟩
        rw [onHeap, if_neg zero, trackedAfter, if_neg zero, Option.map_some, Option.elim_some, Heap.step, same,
          if_pos isTracked]
    · have ran := tracks.realloc_missing isTracked newBytes newPtr bk loaded callocOk
      refine ⟨a, none, owned, ran, by rwa [trackedAfter, if_neg zero], fun h same => ?_⟩
      rw [onHeap, if_neg zero, trackedAfter, if_neg zero]
      cases newPtr with
      | none => exact same
      | some q => rw [Option.map_some, Option.elim_some, Heap.step, same, if_neg isTracked, same]

/-- Every call that is admitted is answered, and keeps the table and the
addresses that are out in step. -/
theorem Inv.answered (inv : s.Inv) (admitted : s.Admits call) : ∃ a b returned owned, s.allocator = some a ∧
    a.call call = some (returned, b) ∧ b.Tracks owned (trackedAfter s.tracked returned call) ∧
      Agrees s.tracked call returned := by
  obtain ⟨a, owned, isSome, tracks⟩ := inv
  obtain ⟨small, memory⟩ := admitted
  have bound := small a isSome
  have node {bk : Option UInt64} (given : s.NodeFor bk) : ∃ n, bk = some n ∧ n ∉ owned := by
    obtain ⟨n, isNode, unused⟩ := given
    exact ⟨n, isNode, tracks.not_owned (unused a isSome)⟩
  cases call with
  | malloc ptr bk loaded callocOk =>
    obtain ⟨n, isNode, absent⟩ := node memory.2
    subst isNode
    obtain ⟨b, after, ran, next⟩ := tracks.malloc bound memory.1 absent loaded callocOk
    exact ⟨a, b, ptr, after, isSome, ran, next, fun _ same => tracked_take ptr same⟩
  | calloc ptr bk =>
    obtain ⟨n, isNode, absent⟩ := node memory.2
    subst isNode
    obtain ⟨b, after, ran, next⟩ := tracks.calloc memory.1 absent
    exact ⟨a, b, ptr, after, isSome, ran, next, fun _ same => tracked_take ptr same⟩
  | realloc ptr newBytes newPtr bk loaded callocOk =>
    cases ptr with
    | none =>
      obtain ⟨n, isNode, absent⟩ := node memory.2
      subst isNode
      obtain ⟨b, after, ran, next⟩ := tracks.malloc bound memory.1 absent loaded callocOk
      exact ⟨a, b, newPtr, after, isSome, ran, next, fun _ same => tracked_take newPtr same⟩
    | some p =>
      obtain ⟨b, returned, after, ran, next, agrees⟩ :=
        answered_realloc tracks bound memory newBytes bk loaded callocOk
      exact ⟨a, b, returned, after, isSome, ran, next, agrees⟩
  | free ptr =>
    cases ptr with
    | none => exact ⟨a, a, none, owned, isSome, rfl, tracks, agrees_free none⟩
    | some p =>
      obtain ⟨b, after, ran, next⟩ := tracks.alcFree p
      have answered : a.call (.free (some p)) = some (none, b) := by rw [Allocator.call, ran, Option.map_some]
      exact ⟨a, b, none, after, isSome, answered, next, agrees_free (some p)⟩
  | gcollect =>
    obtain ⟨b, ran, next⟩ := tracks.gcollect
    have answered : a.call .gcollect = some (none, b) := by rw [Allocator.call, ran, Option.map_some]
    exact ⟨a, b, none, ∅, isSome, answered, next, fun _ _ => rfl⟩

theorem Inv.step (inv : s.Inv) (admitted : s.Admits call) : (s.step call).Inv := by
  obtain ⟨a, b, returned, owned, isSome, ran, tracks, -⟩ := inv.answered admitted
  exact .of_call isSome ran tracks

theorem tracked_onHeap (inv : s.Inv) (admitted : s.Admits call) (same : h.tracked = s.tracked) :
    ((onHeap call).elim h (Heap.step h)).tracked = (s.step call).tracked := by
  obtain ⟨a, b, returned, owned, isSome, ran, -, agrees⟩ := inv.answered admitted
  rw [agrees h same, Tracking.step, isSome, Option.bind_some, ran]

theorem exact_onHeap {calls : List AllocCall} (inv : s.Inv) (same : h.tracked = s.tracked)
    (admitted : Runs.Along Tracking.step Admits s calls) : ∃ a, (Runs.run Tracking.step s calls).allocator = some a ∧
      a.Exact (Runs.run Heap.step h (calls.filterMap onHeap)).tracked := by
  induction calls generalizing s h with
  | nil =>
    obtain ⟨a, owned, isSome, tracks⟩ := inv
    rw [← same] at tracks
    exact ⟨a, isSome, tracks.exact⟩
  | cons call rest ih =>
    obtain ⟨a, isSome, exact_⟩ := ih (inv.step admitted.1) (tracked_onHeap inv admitted.1 same) admitted.2
    refine ⟨a, isSome, ?_⟩
    cases found : onHeap call with
    | none =>
      rw [found] at exact_
      rwa [List.filterMap_cons_none found]
    | some c =>
      rw [found] at exact_
      rwa [List.filterMap_cons_some found]

end OnHeap

theorem inv_init : (init true).Inv := by
  have empty := Linked.Filed.empty (Allocator.slot 1024) (fun _ : UInt64 => none) fun p : UInt64 => p
  exact ⟨allocatorInit true, ∅, rfl, by decide, rfl, rfl, fun p => p, _, empty, rfl⟩

theorem not_kept_init : ¬(init false).Kept := by
  rintro ⟨a, isSome, exact, -⟩
  cases isSome
  exact absurd exact.length (by decide)

/-- The table is exact and serves every call through the whole run exactly if
allocator_init got its array. -/
theorem table_exact_iff (callocOk : Bool) {calls : List AllocCall}
    (admitted : Runs.Along step Admits (init callocOk) calls) :
    Runs.Throughout step Kept (init callocOk) calls ↔ callocOk = true := by
  cases callocOk with
  | true =>
    have preserved : ∀ s call, Inv s → Admits s call → Inv (step s call) := fun s call inv legal => inv.step legal
    have throughout := Runs.throughout_of_preserved preserved inv_init admitted
    exact iff_of_true (throughout.mono fun s inv => inv.kept) rfl
  | false =>
    refine iff_of_false (fun throughout => ?_) Bool.false_ne_true
    exact not_kept_init (Runs.throughout_iff_initial.mp throughout [] List.nil_prefix)

def moved : List AllocCall :=
  [.malloc (some 4096) (some 8192) false true, .realloc (some 4096) 64 (some 12288) none false true, .free (some 12288)]

theorem table_exact_moved : Runs.Throughout step Kept (init true) moved := by
  apply (table_exact_iff true ?_).mpr rfl
  refine ⟨⟨?_, ?_, 8192, rfl, ?_⟩, ⟨?_, ?_⟩, ⟨?_, trivial⟩, trivial⟩
  · rintro a isSome
    cases isSome
    decide
  · rintro p -
    exact Finset.notMem_empty p
  · rintro a isSome
    cases isSome
    rfl
  · rintro a isSome
    cases isSome
    decide
  · rintro q isNew
    cases isNew
    decide
  · rintro a isSome
    cases isSome
    decide

/-- The first block of an allocator that got no array is filed through NULL. -/
theorem table_not_had : Runs.Along step Admits (init false) [.malloc (some 4096) (some 8192) false true] ∧
    ¬Runs.Throughout step Kept (init false) [.malloc (some 4096) (some 8192) false true] ∧
    (step (init false) (.malloc (some 4096) (some 8192) false true)).allocator.isNone = true := by
  refine ⟨⟨⟨?_, ?_, 8192, rfl, ?_⟩, trivial⟩, ?_, by decide⟩
  · rintro a isSome
    cases isSome
    decide
  · rintro p -
    exact Finset.notMem_empty p
  · rintro a isSome
    cases isSome
    rfl
  · intro throughout
    exact not_kept_init (throughout (init false) List.mem_cons_self)

end Tracking

end Dcn
