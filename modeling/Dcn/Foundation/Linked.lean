import Mathlib.Data.Finset.Card
import Mathlib.Data.List.Nodup
import Mathlib.Logic.Function.Basic

/-! Singly linked chains in a store of nodes, and tables of them.

A chain is the list of the nodes that following the next pointers from a head
passes. A node is cut out of it by one write, to the cell that points to it. In
a table there are chains for many indices in one store, and every node that the
table owns is in the chain of the index of its value.
-/

set_option autoImplicit false

namespace Linked

variable {ν α : Type}

structure Node (ν α : Type) where
  value : α
  next : Option ν
  deriving DecidableEq, Repr

abbrev Store (ν α : Type) := ν → Option (Node ν α)

inductive Cell (ν : Type) where
  | head
  | next (n : ν)
  deriving DecidableEq, Repr

def Chain (store : Store ν α) : Option ν → List ν → Prop
  | head, [] => head = none
  | head, n :: rest => head = some n ∧ ∃ node, store n = some node ∧ Chain store node.next rest

def cellAfter (prev : Cell ν) : List ν → Cell ν
  | [] => prev
  | n :: rest => cellAfter (.next n) rest

/-- The walk that acts on each node of a chain, its next pointer read first. None
without enough fuel, where a pointer dangles or an action fails. -/
def visit {σ : Type} (store : σ → Store ν α) (act : σ → ν → α → Option σ) : Nat → Option ν → σ → Option σ
  | 0, _, _ => none
  | _ + 1, none, s => some s
  | fuel + 1, some n, s =>
    (store s n).bind fun node => (act s n node.value).bind fun s => visit store act fuel node.next s

def find (store : Store ν α) (picks : α → Bool) : Nat → Cell ν → Option ν → Option (Option (Cell ν × ν × Node ν α))
  | 0, _, _ => none
  | _ + 1, _, none => some none
  | fuel + 1, prev, some n =>
    (store n).bind fun node =>
      if picks node.value then some (some (prev, n, node)) else find store picks fuel (.next n) node.next

section Chains

variable {store other : Store ν α} {head : Option ν} {nodes : List ν}

theorem Chain.congr (chain : Chain store head nodes) (agree : ∀ n ∈ nodes, other n = store n) :
    Chain other head nodes := by
  induction nodes generalizing head with
  | nil => exact chain
  | cons n rest ih =>
    obtain ⟨isHead, node, stored, later⟩ := chain
    refine ⟨isHead, node, (agree n List.mem_cons_self).trans stored, ?_⟩
    exact ih later fun m member => agree m (List.mem_cons_of_mem n member)

theorem Chain.stored (chain : Chain store head nodes) {n : ν} (member : n ∈ nodes) : ∃ node, store n = some node := by
  induction nodes generalizing head with
  | nil => cases member
  | cons m rest ih =>
    obtain ⟨_, node, stored, later⟩ := chain
    rcases List.mem_cons.mp member with same | member
    · exact ⟨node, same ▸ stored⟩
    · exact ih later member

/-- The walk rule: an action on the first of the pending nodes leaves the others
as they are and the invariant with them. -/
theorem Chain.visit {σ : Type} (store : σ → Store ν α) (act : σ → ν → α → Option σ) (invariant : List ν → σ → Prop)
    (acts : ∀ n rest s node, n ∉ rest → invariant (n :: rest) s → store s n = some node →
      ∃ t, act s n node.value = some t ∧ invariant rest t ∧ ∀ m ∈ rest, store t m = store s m)
    {s : σ} {fuel : Nat} (chain : Chain (store s) head nodes) (distinct : nodes.Nodup) (enough : nodes.length < fuel)
    (start : invariant nodes s) : ∃ t, Linked.visit store act fuel head s = some t ∧ invariant [] t := by
  induction nodes generalizing head fuel s with
  | nil =>
    cases fuel with
    | zero => cases enough
    | succ fuel =>
      have ends : head = none := chain
      subst ends
      exact ⟨s, rfl, start⟩
  | cons n rest ih =>
    obtain ⟨isHead, node, stored, later⟩ := chain
    obtain ⟨absent, distinct⟩ := List.nodup_cons.mp distinct
    subst isHead
    cases fuel with
    | zero => cases enough
    | succ fuel =>
      obtain ⟨t, acted, kept, agree⟩ := acts n rest s node absent start stored
      obtain ⟨u, walked, ends⟩ := ih (later.congr agree) distinct (Nat.lt_of_succ_lt_succ enough) kept
      refine ⟨u, ?_, ends⟩
      simp only [Linked.visit, stored, acted, Option.bind_some]
      exact walked

/-- With more fuel than there are nodes the walk ends: behind a stretch of nodes
that are not picked there is one that is, or nothing. -/
theorem Chain.find (chain : Chain store head nodes) (picks : α → Bool) {fuel : Nat} (enough : nodes.length < fuel)
    (prev : Cell ν) :
    Linked.find store picks fuel prev head = some none ∧
        (∀ n ∈ nodes, ∀ node, store n = some node → picks node.value = false) ∨
      ∃ before n node after, nodes = before ++ n :: after ∧ store n = some node ∧ picks node.value = true ∧
        Linked.find store picks fuel prev head = some (some (cellAfter prev before, n, node)) := by
  induction nodes generalizing head prev fuel with
  | nil =>
    cases fuel with
    | zero => cases enough
    | succ fuel =>
      have ends : head = none := chain
      subst ends
      exact .inl ⟨rfl, fun n member => by cases member⟩
  | cons n rest ih =>
    obtain ⟨isHead, node, stored, later⟩ := chain
    subst isHead
    cases fuel with
    | zero => cases enough
    | succ fuel =>
      cases hit : picks node.value with
      | true =>
        refine .inr ⟨[], n, node, rest, rfl, stored, hit, ?_⟩
        simp only [Linked.find, stored, Option.bind_some, hit, ↓reduceIte, cellAfter]
      | false =>
        have steps : Linked.find store picks (fuel + 1) prev (some n) =
            Linked.find store picks fuel (.next n) node.next := by
          simp only [Linked.find, stored, Option.bind_some, hit, Bool.false_eq_true, ↓reduceIte]
        rw [steps]
        rcases ih later (Nat.lt_of_succ_lt_succ enough) (.next n) with
          ⟨nothing, missed⟩ | ⟨before, m, found, after, split, rest⟩
        · refine .inl ⟨nothing, fun m member other isNode => ?_⟩
          rcases List.mem_cons.mp member with same | member
          · subst same
            rw [stored] at isNode
            cases isNode
            exact hit
          · exact missed m member other isNode
        · exact .inr ⟨n :: before, m, found, after, by rw [split]; rfl, rest⟩

theorem cellAfter_mem (m : ν) (before : List ν) : ∃ last ∈ m :: before, cellAfter (.next m) before = .next last := by
  induction before generalizing m with
  | nil => exact ⟨m, List.mem_cons_self, rfl⟩
  | cons k before ih =>
    obtain ⟨last, member, same⟩ := ih k
    exact ⟨last, List.mem_cons_of_mem m member, same⟩

theorem cellAfter_ne {before : List ν} {n : ν} (absent : n ∉ before) : cellAfter .head before ≠ .next n := by
  cases before with
  | nil => simp [cellAfter]
  | cons m before =>
    obtain ⟨last, member, same⟩ := cellAfter_mem m before
    intro other
    have isLast : cellAfter (.next m) before = .next n := other
    rw [same] at isLast
    cases isLast
    exact absent member

variable [DecidableEq ν]

def storeAfter (store : Store ν α) (cell : Cell ν) (next : Option ν) : Store ν α :=
  match cell with
  | .head => store
  | .next n => Function.update store n ((store n).map fun node => { node with next := next })

theorem storeAfter_of_ne {cell : Cell ν} {n : ν} (other : cell ≠ .next n) (next : Option ν) :
    storeAfter store cell next n = store n := by
  cases cell with
  | head => rfl
  | next m => exact Function.update_of_ne (fun same => other (congrArg _ same.symm)) _ _

theorem storeAfter_value (cell : Cell ν) (next : Option ν) (n : ν) :
    (storeAfter store cell next n).map Node.value = (store n).map Node.value := by
  cases cell with
  | head => rfl
  | next m =>
    by_cases same : n = m
    · subst same
      simp only [storeAfter, Function.update_self]
      cases store n <;> rfl
    · exact congrArg _ (Function.update_of_ne same _ _)

theorem Chain.cut_behind {m n : ν} {node mNode : Node ν α} {before after : List ν} (here : store m = some mNode)
    (chain : Chain store mNode.next (before ++ n :: after)) (distinct : (m :: (before ++ n :: after)).Nodup)
    (found : store n = some node) :
    ∃ kept, storeAfter store (cellAfter (.next m) before) node.next m = some kept ∧
      Chain (storeAfter store (cellAfter (.next m) before) node.next) kept.next (before ++ after) := by
  induction before generalizing m mNode with
  | nil =>
    obtain ⟨-, stored, isNode, later⟩ := chain
    rw [found] at isNode
    cases isNode
    refine ⟨{ mNode with next := node.next }, ?_, ?_⟩
    · simp only [cellAfter, storeAfter, Function.update_self, here, Option.map_some]
    · apply later.congr
      intro k member
      apply storeAfter_of_ne
      intro same
      cases same
      exact (List.nodup_cons.mp distinct).1 (List.mem_append_right _ (List.mem_cons_of_mem n member))
  | cons k before ih =>
    obtain ⟨isNext, kNode, stored, later⟩ := chain
    obtain ⟨absent, distinct⟩ := List.nodup_cons.mp distinct
    obtain ⟨kept, isKept, rest⟩ := ih stored later distinct
    obtain ⟨last, member, isLast⟩ := cellAfter_mem k before
    refine ⟨mNode, ?_, isNext, kept, isKept, rest⟩
    refine Eq.trans (storeAfter_of_ne ?_ _) here
    change cellAfter (.next k) before ≠ .next m
    rw [isLast]
    intro same
    cases same
    rcases List.mem_cons.mp member with same | member
    · subst same
      exact absent List.mem_cons_self
    · exact absent (List.mem_cons_of_mem k (List.mem_append_left _ member))

def headAfter (head : Option ν) (cell : Cell ν) (next : Option ν) : Option ν :=
  match cell with
  | .head => next
  | .next _ => head

/-- Cutting a node out is one write, to the cell that points to it. -/
theorem Chain.cut {n : ν} {node : Node ν α} {before after : List ν} (chain : Chain store head (before ++ n :: after))
    (distinct : (before ++ n :: after).Nodup) (found : store n = some node) :
    Chain (storeAfter store (cellAfter .head before) node.next) (headAfter head (cellAfter .head before) node.next)
      (before ++ after) := by
  cases before with
  | nil =>
    obtain ⟨-, stored, isNode, later⟩ := chain
    rw [found] at isNode
    cases isNode
    exact later
  | cons m before =>
    obtain ⟨isHead, mNode, here, later⟩ := chain
    obtain ⟨kept, isKept, rest⟩ := Chain.cut_behind here later distinct found
    obtain ⟨last, -, isLast⟩ := cellAfter_mem m before
    refine ⟨?_, kept, isKept, rest⟩
    change headAfter head (cellAfter (.next m) before) node.next = some m
    rw [isLast]
    exact isHead

end Chains

structure Table (ν α : Type) where
  store : Store ν α
  heads : Nat → Option ν

namespace Table

variable [DecidableEq ν]

def write (t : Table ν α) (i : Nat) (cell : Cell ν) (next : Option ν) : Table ν α :=
  ⟨storeAfter t.store cell next, Function.update t.heads i (headAfter (t.heads i) cell next)⟩

def link (t : Table ν α) (i : Nat) (n : ν) (value : α) : Table ν α :=
  ⟨Function.update t.store n (some ⟨value, t.heads i⟩), Function.update t.heads i (some n)⟩

def free (t : Table ν α) (n : ν) : Table ν α := { t with store := Function.update t.store n none }

end Table

/-- The owned nodes have these values, no two the same, and each is in the chain
of the index of its value. -/
structure Filed (index : α → Nat) (t : Table ν α) (owned : Finset ν) (value : ν → α) (chains : Nat → List ν) :
    Prop where
  chain : ∀ i, Chain t.store (t.heads i) (chains i)
  distinct : ∀ i, (chains i).Nodup
  filed : ∀ i n, n ∈ chains i ↔ n ∈ owned ∧ index (value n) = i
  stored : ∀ n ∈ owned, (t.store n).map Node.value = some (value n)
  single : Set.InjOn value owned

namespace Filed

variable {index : α → Nat} {t : Table ν α} {owned : Finset ν} {value : ν → α} {chains : Nat → List ν}

theorem empty (index : α → Nat) (store : Store ν α) (value : ν → α) :
    Filed index ⟨store, fun _ => none⟩ ∅ value fun _ => [] where
  chain i := rfl
  distinct i := List.nodup_nil
  filed i n := by simp
  stored n member := by cases member
  single := by simp

theorem value_of (filed : Filed index t owned value chains) {n : ν} (member : n ∈ owned) {node : Node ν α}
    (found : t.store n = some node) : node.value = value n := by
  have stored := filed.stored n member
  rw [found] at stored
  exact Option.some.inj stored

theorem owned_of_mem (filed : Filed index t owned value chains) {i : Nat} {n : ν} (member : n ∈ chains i) : n ∈ owned :=
  ((filed.filed i n).mp member).1

theorem length_le [DecidableEq ν] (filed : Filed index t owned value chains) (i : Nat) :
    (chains i).length ≤ owned.card := by
  rw [← List.toFinset_card_of_nodup (filed.distinct i)]
  apply Finset.card_le_card
  intro n member
  exact filed.owned_of_mem (List.mem_toFinset.mp member)

theorem congr (filed : Filed index t owned value chains) {store : Store ν α}
    (agree : ∀ n ∈ owned, store n = t.store n) :
    Filed index ⟨store, t.heads⟩ owned value chains where
  chain i := (filed.chain i).congr fun n member => agree n (filed.owned_of_mem member)
  distinct := filed.distinct
  filed := filed.filed
  stored n member := (congrArg _ (agree n member)).trans (filed.stored n member)
  single := filed.single

theorem clear (filed : Filed index t owned value chains) (i : Nat) {store : Store ν α}
    (agree : ∀ n ∈ owned, index (value n) ≠ i → store n = t.store n) :
    Filed index ⟨store, Function.update t.heads i none⟩ (owned.filter fun n => index (value n) ≠ i) value
      (Function.update chains i []) where
  chain j := by
    by_cases same : j = i
    · subst same
      simp only [Function.update_self]
      rfl
    · simp only [Function.update_of_ne same]
      apply (filed.chain j).congr
      intro n member
      obtain ⟨inside, isIndex⟩ := (filed.filed j n).mp member
      exact agree n inside (isIndex ▸ same)
  distinct j := by
    by_cases same : j = i
    · subst same
      rw [Function.update_self]
      exact List.nodup_nil
    · rw [Function.update_of_ne same]
      exact filed.distinct j
  filed j n := by
    by_cases same : j = i
    · subst same
      simp
    · rw [Function.update_of_ne same, filed.filed, Finset.mem_filter]
      refine ⟨fun ⟨inside, isIndex⟩ => ⟨⟨inside, isIndex ▸ same⟩, isIndex⟩, fun ⟨kept, isIndex⟩ => ⟨kept.1, isIndex⟩⟩
  stored n member := by
    obtain ⟨inside, other⟩ := Finset.mem_filter.mp member
    exact (congrArg _ (agree n inside other)).trans (filed.stored n inside)
  single := filed.single.mono (by exact_mod_cast Finset.filter_subset _ owned)

variable [DecidableEq ν]

theorem free (filed : Filed index t owned value chains) {n : ν} (absent : n ∉ owned) :
    Filed index (t.free n) owned value chains := by
  apply filed.congr
  intro m member
  exact Function.update_of_ne (ne_of_mem_of_not_mem member absent) _ _

theorem cut (filed : Filed index t owned value chains) {i : Nat} {before after : List ν} {n : ν} {node : Node ν α}
    (split : chains i = before ++ n :: after) (found : t.store n = some node) :
    Filed index (t.write i (cellAfter .head before) node.next) (owned.erase n) value
      (Function.update chains i (before ++ after)) where
  chain j := by
    have here := filed.chain i
    have distinct := filed.distinct i
    rw [split] at here distinct
    by_cases same : j = i
    · subst same
      simp only [Table.write, Function.update_self]
      exact here.cut distinct found
    · simp only [Table.write, Function.update_of_ne same]
      apply (filed.chain j).congr
      intro m member
      apply storeAfter_of_ne
      apply cellAfter_ne
      intro inside
      -- a node is in the chain of one index
      have ofOne : m ∈ chains i := by
        rw [split]
        exact List.mem_append_left _ inside
      exact same (((filed.filed j m).mp member).2.symm.trans ((filed.filed i m).mp ofOne).2)
  distinct j := by
    by_cases same : j = i
    · subst same
      have distinct := filed.distinct j
      rw [split, List.nodup_middle] at distinct
      rw [Function.update_self]
      exact (List.nodup_cons.mp distinct).2
    · rw [Function.update_of_ne same]
      exact filed.distinct j
  filed j m := by
    have ofChain := filed.filed j m
    by_cases same : j = i
    · subst same
      have distinct := filed.distinct j
      rw [split, List.nodup_middle] at distinct
      have gone := (List.nodup_cons.mp distinct).1
      rw [split] at ofChain
      rw [Function.update_self, Finset.mem_erase, and_assoc, ← ofChain, List.mem_append, List.mem_append, List.mem_cons]
      rw [List.mem_append] at gone
      constructor
      · intro member
        refine ⟨fun isNode => gone (isNode ▸ member), ?_⟩
        exact member.imp_right Or.inr
      · rintro ⟨other, member⟩
        exact member.imp_right fun later => later.resolve_left other
    · have inside : n ∈ chains i := by
        rw [split]
        simp
      rw [Function.update_of_ne same, Finset.mem_erase, and_assoc, ← ofChain]
      refine ⟨fun member => ⟨fun isNode => ?_, member⟩, fun kept => kept.2⟩
      subst isNode
      exact same ((ofChain.mp member).2.symm.trans ((filed.filed i m).mp inside).2)
  stored m member := (storeAfter_value _ _ m).trans (filed.stored m (Finset.mem_of_mem_erase member))
  single := filed.single.mono (by exact_mod_cast Finset.erase_subset n owned)

variable [DecidableEq α]

theorem find (filed : Filed index t owned value chains) (v : α) {fuel : Nat} (enough : owned.card < fuel) :
    Linked.find t.store (fun w => w = v) fuel .head (t.heads (index v)) = some none ∧ v ∉ owned.image value ∨
      ∃ before n node after, chains (index v) = before ++ n :: after ∧ n ∈ owned ∧ node.value = v ∧
        t.store n = some node ∧
        Linked.find t.store (fun w => w = v) fuel .head (t.heads (index v)) =
          some (some (cellAfter .head before, n, node)) := by
  have room : (chains (index v)).length < fuel := (filed.length_le (index v)).trans_lt enough
  rcases (filed.chain (index v)).find (fun w => w = v) room .head with
    ⟨nothing, missed⟩ | ⟨before, n, node, after, split, found, hit, walked⟩
  · refine .inl ⟨nothing, fun isValue => ?_⟩
    obtain ⟨n, member, same⟩ := Finset.mem_image.mp isValue
    have inChain : n ∈ chains (index v) := (filed.filed _ n).mpr ⟨member, by rw [same]⟩
    obtain ⟨node, found⟩ := (filed.chain (index v)).stored inChain
    have missed := missed n inChain node found
    rw [filed.value_of member found, same] at missed
    simp at missed
  · have inChain : n ∈ chains (index v) := by
      rw [split]
      simp
    have member := filed.owned_of_mem inChain
    exact .inr ⟨before, n, node, after, split, member, by simpa using hit, found, walked⟩

theorem link (filed : Filed index t owned value chains) {n : ν} {v : α} (absent : n ∉ owned)
    (new : v ∉ owned.image value) :
    Filed index (t.link (index v) n v) (insert n owned) (Function.update value n v)
      (Function.update chains (index v) (n :: chains (index v))) where
  chain i := by
    have kept : Chain (t.link (index v) n v).store (t.heads i) (chains i) := by
      apply (filed.chain i).congr
      intro m member
      exact Function.update_of_ne (ne_of_mem_of_not_mem (filed.owned_of_mem member) absent) _ _
    by_cases same : i = index v
    · subst same
      simp only [Table.link, Function.update_self]
      exact ⟨rfl, _, Function.update_self _ _ _, kept⟩
    · simp only [Table.link, Function.update_of_ne same]
      exact kept
  distinct i := by
    by_cases same : i = index v
    · subst same
      rw [Function.update_self]
      exact List.nodup_cons.mpr ⟨fun member => absent (filed.owned_of_mem member), filed.distinct _⟩
    · rw [Function.update_of_ne same]
      exact filed.distinct i
  filed i m := by
    by_cases isNew : m = n
    · subst isNew
      have outside : m ∉ chains i := fun member => absent (filed.owned_of_mem member)
      by_cases same : i = index v
      · subst same
        simp
      · simp [Function.update_of_ne same, outside, Ne.symm same]
    · have older := filed.filed i m
      by_cases same : i = index v
      · subst same
        simp [isNew, older]
      · simp [Function.update_of_ne same, isNew, older]
  stored m member := by
    by_cases isNew : m = n
    · subst isNew
      simp [Table.link]
    · have older : m ∈ owned := (Finset.mem_insert.mp member).resolve_left isNew
      simp only [Table.link, Function.update_of_ne isNew]
      exact filed.stored m older
  single := by
    intro a aMem b bMem same
    have off : ∀ m ∈ owned, value m ≠ v := fun m member isValue => new (Finset.mem_image.mpr ⟨m, member, isValue⟩)
    rcases Finset.mem_insert.mp aMem with aNew | aOld <;> rcases Finset.mem_insert.mp bMem with bNew | bOld
    · exact aNew.trans bNew.symm
    · have other : b ≠ n := ne_of_mem_of_not_mem bOld absent
      rw [aNew, Function.update_self, Function.update_of_ne other] at same
      exact absurd same.symm (off b bOld)
    · have other : a ≠ n := ne_of_mem_of_not_mem aOld absent
      rw [bNew, Function.update_self, Function.update_of_ne other] at same
      exact absurd same (off a aOld)
    · have aOther : a ≠ n := ne_of_mem_of_not_mem aOld absent
      have bOther : b ≠ n := ne_of_mem_of_not_mem bOld absent
      rw [Function.update_of_ne aOther, Function.update_of_ne bOther] at same
      exact filed.single aOld bOld same

theorem image_link {n : ν} {v : α} (absent : n ∉ owned) :
    (insert n owned).image (Function.update value n v) = insert v (owned.image value) := by
  rw [Finset.image_insert, Function.update_self]
  congr 1
  apply Finset.image_congr
  intro m member
  exact Function.update_of_ne (ne_of_mem_of_not_mem member absent) _ _

theorem image_cut (filed : Filed index t owned value chains) {n : ν} (member : n ∈ owned) :
    (owned.erase n).image value = (owned.image value).erase (value n) := by
  ext v
  simp only [Finset.mem_image, Finset.mem_erase]
  constructor
  · rintro ⟨m, ⟨other, inside⟩, same⟩
    exact ⟨fun isValue => other (filed.single inside member (same.trans isValue)), m, inside, same⟩
  · rintro ⟨other, m, inside, same⟩
    exact ⟨m, ⟨fun isNode => other (by rw [← same, isNode]), inside⟩, same⟩

end Filed

end Linked
