import Dcn.Foundation.Linked
import Mathlib.Data.Finset.Image

/-! The tracking allocator: the address of every block it hands out, in a hash
table of singly linked chains.

A pointer is none where it is NULL. The results of malloc, calloc and realloc,
the test of the load factor and whether a new bucket array can be had come with
the call. A call gives nothing where it goes through a pointer that is NULL or
dangles, outside the bucket array, or divides by zero.
-/

set_option autoImplicit false

namespace Dcn

/-- The place of an address in a table; the product wraps. -/
def hashPtr (ptr tableSize : UInt64) : UInt64 := ptr * 2654435761 % tableSize

/-- The bucket nodes in memory and the entries of the array that `buckets`
points to, of which there are `length`. -/
structure Allocator where
  buckets : Linked.Table UInt64 UInt64
  length : Nat
  size : Nat
  capacity : UInt64

/-- The array may not be had: the table then has its capacity all the same. -/
def allocatorInit (callocOk : Bool) : Allocator :=
  ⟨⟨fun _ => none, fun _ => none⟩, if callocOk then 1024 else 0, 0, 1024⟩

namespace Allocator

def indexOf (a : Allocator) (ptr : UInt64) : Option Nat :=
  if a.capacity = 0 then none
  else if (hashPtr ptr a.capacity).toNat < a.length then some (hashPtr ptr a.capacity).toNat
  else none

def file (a : Allocator) (index : Nat) (bk ptr : UInt64) : Allocator :=
  { a with buckets := a.buckets.link index bk ptr, size := a.size + 1 }

def fileEntry (a : Allocator) (entry ptr : UInt64) : Option Allocator :=
  (a.indexOf ptr).map fun newIndex => a.file newIndex entry ptr

def cut (a : Allocator) (index : Nat) (prev : Linked.Cell UInt64) (next : Option UInt64) : Allocator :=
  { a with buckets := a.buckets.write index prev next, size := a.size - 1 }

@[simp] theorem cut_capacity (a : Allocator) (index : Nat) (prev : Linked.Cell UInt64) (next : Option UInt64) :
    (a.cut index prev next).capacity = a.capacity := rfl

/-- The walk to the node of an address along the chain of an index, which has no
more nodes than `size` counts. -/
def findPtr (a : Allocator) (index : Nat) (ptr : UInt64) :
    Option (Option (Linked.Cell UInt64 × UInt64 × Linked.Node UInt64 UInt64)) :=
  Linked.find a.buckets.store (fun p => p = ptr) (a.size + 1) .head (a.buckets.heads index)

def refile (fuel : Nat) (entry : Option UInt64) (a : Allocator) : Option Allocator :=
  Linked.visit (fun a => a.buckets.store) fileEntry fuel entry a

def refileAt (old b : Allocator) (i : Nat) : Option Allocator :=
  if i < old.length then b.refile (old.size + 1) (old.buckets.heads i) else none

def hashTableResize (newCapacity : UInt64) (callocOk : Bool) (a : Allocator) : Option Allocator :=
  if callocOk then
    (List.range a.capacity.toNat).foldlM a.refileAt
      ⟨⟨a.buckets.store, fun _ => none⟩, newCapacity.toNat, 0, newCapacity⟩
  else some a

def growIfLoaded (loaded callocOk : Bool) (a : Allocator) : Option Allocator :=
  if loaded then a.hashTableResize (a.capacity * 2) callocOk else some a

end Allocator

open Allocator

def alcMalloc (ptr bk : Option UInt64) (loaded callocOk : Bool) (a : Allocator) :
    Option (Option UInt64 × Allocator) :=
  match ptr with
  | none => some (none, a)
  | some p => do
    let a ← a.growIfLoaded loaded callocOk
    let index ← a.indexOf p
    let n ← bk
    some (some p, a.file index n p)

def alcFree (ptr : Option UInt64) (a : Allocator) : Option Allocator :=
  match ptr with
  | none => some a
  | some p => do
    let inx ← a.indexOf p
    match ← a.findPtr inx p with
    | none => some a
    | some (prev, n, current) =>
      let left := a.cut inx prev current.next
      some { left with buckets := left.buckets.free n }

def alcCalloc (ptr bk : Option UInt64) (a : Allocator) : Option (Option UInt64 × Allocator) :=
  match ptr with
  | none => some (none, a)
  | some p => do
    let index ← a.indexOf p
    let n ← bk
    some (some p, a.file index n p)

def alcRealloc (ptr : Option UInt64) (newBytes : UInt64) (newPtr bk : Option UInt64) (loaded callocOk : Bool)
    (a : Allocator) : Option (Option UInt64 × Allocator) :=
  match ptr with
  | none => alcMalloc newPtr bk loaded callocOk a
  | some p =>
    if newBytes = 0 then (alcFree (some p) a).map fun a => (none, a)
    else do
      let oldIndex ← a.indexOf p
      match ← a.findPtr oldIndex p with
      | none => some (none, a)
      | some (prev, n, oldBucket) =>
        let left := a.cut oldIndex prev oldBucket.next
        match newPtr with
        | none => some (none, left.file oldIndex n oldBucket.value)
        | some q => do
          let back ← (if q = p then some (left.file oldIndex n oldBucket.value) else left.fileEntry n q)
          let grown ← back.growIfLoaded loaded callocOk
          some (some q, grown)

def Allocator.collect (fuel : Nat) (entry : Option UInt64) (t : Linked.Table UInt64 UInt64) :
    Option (Linked.Table UInt64 UInt64) :=
  Linked.visit Linked.Table.store (fun t n _ => some (t.free n)) fuel entry t

def Allocator.collectAt (a : Allocator) (t : Linked.Table UInt64 UInt64) (i : Nat) :
    Option (Linked.Table UInt64 UInt64) :=
  if i < a.length then
    (collect (a.size + 1) (t.heads i) t).map fun t => ⟨t.store, Function.update t.heads i none⟩
  else none

def alcGcollect (a : Allocator) : Option Allocator :=
  ((List.range a.capacity.toNat).foldlM a.collectAt a.buckets).map fun t => { a with buckets := t, size := 0 }

end Dcn
