/-
# Doubly linked lists on a heap

Nodes with a link in either direction.  A pointer is a number and NULL is 0; a pointer can be
followed when its node is allocated, and otherwise there is no result.  `Segment` is a stretch of a
list between two pointers: `before` is what the first node leads back to, `after` is where the last
one leads.  A list is a segment between NULL and NULL whose nodes are distinct (`DList`), and its
two chains are the reverse of each other (`DList.next_chain`, `DList.prev_chain`).

The rules are those of pointer surgery: segments are put together (`segment_append`), the links at
the two ends are set (`Segment.setNext_last`, `Segment.setPrev_first`), and a segment does not mind
what happens to other nodes (`Segment.congr`).
-/
import Mathlib.Data.List.Nodup
import Mathlib.Data.List.Perm.Subperm
import Mathlib.Logic.Function.Basic

namespace Zgdb.Lib

/-! ## 1. The heap

A node that is freed is not allocated any more, and an operation on it has no result: this is how a
use after a free, and a second free, show in the model. -/

structure DNode (α : Type) where
  data : α
  next : Nat
  prev : Nat
deriving DecidableEq, Repr

/-- Nodes by pointer.  NULL is no node, and neither is a pointer that was never handed out. -/
structure DHeap (α : Type) where
  node : Nat → Option (DNode α)
  top : Nat
  null : node 0 = none
  fresh : ∀ p, top < p → node p = none

namespace DHeap

variable {α : Type}

def empty : DHeap α := ⟨fun _ => none, 0, rfl, fun _ _ => rfl⟩

/-- A new node with NULL links; its pointer is the new `top`. -/
def malloc (h : DHeap α) (a : α) : DHeap α where
  node p := if p = h.top + 1 then some ⟨a, 0, 0⟩ else h.node p
  top := h.top + 1
  null := by rw [if_neg (by omega), h.null]
  fresh p hp := by rw [if_neg (by omega), h.fresh p (by omega)]

/-- Change a node, if it is allocated. -/
def modify (h : DHeap α) (p : Nat) (f : DNode α → DNode α) : DHeap α where
  node x := if x = p then (h.node p).map f else h.node x
  top := h.top
  null := by
    split
    · rename_i h0
      rw [← h0, h.null]
      rfl
    · exact h.null
  fresh x hx := by
    split
    · rename_i h0
      rw [← h0, h.fresh x hx]
      rfl
    · exact h.fresh x hx

/-- The node of a pointer is gone. -/
def erase (h : DHeap α) (p : Nat) : DHeap α where
  node x := if x = p then none else h.node x
  top := h.top
  null := by split <;> simp [h.null]
  fresh x hx := by split <;> simp [h.fresh x hx]

/-- `p->next = q` -/
def setNext (h : DHeap α) (p q : Nat) : Option (DHeap α) :=
  if (h.node p).isSome then some (h.modify p fun n => { n with next := q }) else none

/-- `p->prev = q` -/
def setPrev (h : DHeap α) (p q : Nat) : Option (DHeap α) :=
  if (h.node p).isSome then some (h.modify p fun n => { n with prev := q }) else none

/-- `free(p)` of a node -/
def free (h : DHeap α) (p : Nat) : Option (DHeap α) :=
  if (h.node p).isSome then some (h.erase p) else none

variable {h h' : DHeap α} {p q x : Nat} {a : α} {n : DNode α} {f : DNode α → DNode α}

@[simp] theorem malloc_self : (h.malloc a).node (h.top + 1) = some ⟨a, 0, 0⟩ := if_pos rfl

theorem malloc_of_ne (hx : x ≠ h.top + 1) : (h.malloc a).node x = h.node x := if_neg hx

theorem modify_self (hp : h.node p = some n) : (h.modify p f).node p = some (f n) := by
  simp [modify, hp]

theorem modify_of_ne (hx : x ≠ p) : (h.modify p f).node x = h.node x := if_neg hx

/-- Changing a node neither allocates nor frees one. -/
@[simp] theorem isSome_modify : ((h.modify p f).node x).isSome = (h.node x).isSome := by
  simp only [modify]
  split
  · rename_i hx
    rw [hx, Option.isSome_map]
  · rfl

theorem erase_of_ne (hx : x ≠ p) : (h.erase p).node x = h.node x := if_neg hx

theorem setPrev_eq (hp : h.node p = some n) (q : Nat) :
    h.setPrev p q = some (h.modify p fun n => { n with prev := q }) := by
  simp [setPrev, hp]

theorem free_eq (hp : h.node p = some n) : h.free p = some (h.erase p) := by
  simp [free, hp]

/-- An allocated node has a pointer that was handed out. -/
theorem le_top (hp : h.node p = some n) : p ≤ h.top := by
  by_contra hlt
  rw [h.fresh p (by omega)] at hp
  cases hp

theorem ne_null (hp : h.node p = some n) : p ≠ 0 := by
  rintro rfl
  rw [h.null] at hp
  cases hp

end DHeap

/-! ## 2. Segments

A segment says where it comes from and where it goes, so two of them that meet can be put together,
and a list can be opened at any place for an insertion and closed again. -/

section Segments

variable {α : Type}

/-- The nodes `xs`, each a pointer with its data, are linked in both directions. -/
def Segment (h : DHeap α) : (before first : Nat) → List (Nat × α) → (last after : Nat) → Prop
  | before, first, [], last, after => first = after ∧ last = before
  | before, first, x :: xs, last, after =>
    first = x.1 ∧ ∃ next, h.node x.1 = some ⟨x.2, next, before⟩ ∧ Segment h x.1 next xs last after

/-- The whole list from `head` to `tail`. -/
structure DList (h : DHeap α) (head tail : Nat) (xs : List (Nat × α)) : Prop where
  segment : Segment h 0 head xs tail 0
  nodup : (xs.map Prod.fst).Nodup

variable {h h' : DHeap α} {before first last after p : Nat} {x : Nat × α} {xs ys : List (Nat × α)}

/-- **The frame rule** of segments. -/
theorem Segment.congr (hs : Segment h before first xs last after)
    (heq : ∀ x ∈ xs, h'.node x.1 = h.node x.1) : Segment h' before first xs last after := by
  induction xs generalizing before first with
  | nil => exact hs
  | cons x xs ih =>
    obtain ⟨hf, next, hx, hs⟩ := hs
    refine ⟨hf, next, ?_, ih hs fun y hy => heq y (List.mem_cons_of_mem _ hy)⟩
    rw [heq x List.mem_cons_self, hx]

/-- Segments are put together where the links meet. -/
theorem segment_append : Segment h before first (xs ++ ys) last after ↔
    ∃ l f, Segment h before first xs l f ∧ Segment h l f ys last after := by
  induction xs generalizing before first with
  | nil =>
    constructor
    · intro hs
      exact ⟨before, first, ⟨rfl, rfl⟩, hs⟩
    · rintro ⟨l, f, ⟨rfl, rfl⟩, hs⟩
      exact hs
  | cons x xs ih =>
    constructor
    · rintro ⟨hf, next, hx, hs⟩
      obtain ⟨l, f, hxs, hys⟩ := ih.mp hs
      exact ⟨l, f, ⟨hf, next, hx, hxs⟩, hys⟩
    · rintro ⟨l, f, ⟨hf, next, hx, hxs⟩, hys⟩
      exact ⟨hf, next, hx, ih.mpr ⟨l, f, hxs, hys⟩⟩

/-- A segment that ends with `x`. -/
theorem segment_concat : Segment h before first (xs ++ [x]) last after ↔
    ∃ l, Segment h before first xs l x.1 ∧ h.node x.1 = some ⟨x.2, after, l⟩ ∧ last = x.1 := by
  rw [segment_append]
  constructor
  · rintro ⟨l, f, hxs, rfl, next, hx, rfl, rfl⟩
    exact ⟨l, hxs, hx, rfl⟩
  · rintro ⟨l, hxs, hx, rfl⟩
    exact ⟨l, x.1, hxs, rfl, after, hx, rfl, rfl⟩

theorem Segment.node_mem (hs : Segment h before first xs last after) (hx : x ∈ xs) :
    ∃ next prev, h.node x.1 = some ⟨x.2, next, prev⟩ := by
  induction xs generalizing before first with
  | nil => cases hx
  | cons y ys ih =>
    obtain ⟨-, next, hy, hs⟩ := hs
    rcases List.mem_cons.mp hx with rfl | hx
    · exact ⟨next, before, hy⟩
    · exact ih hs hx

/-- The link behind the last node is set. -/
theorem Segment.setNext_last (hs : Segment h before first (xs ++ [x]) last after)
    (hn : x.1 ∉ xs.map Prod.fst) (q : Nat) :
    Segment (h.modify x.1 fun n => { n with next := q }) before first (xs ++ [x]) last q := by
  obtain ⟨l, hxs, hx, rfl⟩ := segment_concat.mp hs
  refine segment_concat.mpr ⟨l, hxs.congr ?_, DHeap.modify_self hx, rfl⟩
  intro y hy
  exact DHeap.modify_of_ne fun he => hn (he ▸ List.mem_map_of_mem hy)

/-- The link in front of the first node is set. -/
theorem Segment.setPrev_first (hs : Segment h before first (x :: xs) last after)
    (hn : x.1 ∉ xs.map Prod.fst) (q : Nat) :
    Segment (h.modify x.1 fun n => { n with prev := q }) q first (x :: xs) last after := by
  obtain ⟨hf, next, hx, hxs⟩ := hs
  refine ⟨hf, next, DHeap.modify_self hx, hxs.congr ?_⟩
  intro y hy
  exact DHeap.modify_of_ne fun he => hn (he ▸ List.mem_map_of_mem hy)

/-- A segment does not mind a node that is not on it. -/
theorem Segment.modify (hs : Segment h before first xs last after) (hp : p ∉ xs.map Prod.fst)
    (f : DNode α → DNode α) : Segment (h.modify p f) before first xs last after :=
  hs.congr fun _ hy => DHeap.modify_of_ne fun he => hp (he ▸ List.mem_map_of_mem hy)

theorem Segment.erase (hs : Segment h before first xs last after) (hp : p ∉ xs.map Prod.fst) :
    Segment (h.erase p) before first xs last after :=
  hs.congr fun _ hy => DHeap.erase_of_ne fun he => hp (he ▸ List.mem_map_of_mem hy)

theorem Segment.malloc (hs : Segment h before first xs last after) (a : α) :
    Segment (h.malloc a) before first xs last after := by
  refine hs.congr fun y hy => DHeap.malloc_of_ne ?_
  obtain ⟨next, prev, hnode⟩ := hs.node_mem hy
  have := DHeap.le_top hnode
  omega

/-- A list is empty when its head is NULL, and when its tail is. -/
theorem DList.head_eq_null {head tail : Nat} (hl : DList h head tail xs) : head = 0 ↔ xs = [] := by
  constructor
  · intro h0
    cases xs with
    | nil => rfl
    | cons x xs =>
      obtain ⟨⟨hf, next, hx, -⟩, -⟩ := hl
      exact absurd (hf.symm.trans h0) (DHeap.ne_null hx)
  · rintro rfl
    exact hl.segment.1

theorem DList.tail_eq_null {head tail : Nat} (hl : DList h head tail xs) : tail = 0 ↔ xs = [] := by
  constructor
  · intro h0
    rcases List.eq_nil_or_concat' xs with rfl | ⟨ys, y, rfl⟩
    · rfl
    · obtain ⟨l, -, hy, hlast⟩ := segment_concat.mp hl.segment
      exact absurd (hlast.symm.trans h0) (DHeap.ne_null hy)
  · rintro rfl
    exact hl.segment.2

/-- A list is no longer than the heap has handed out pointers. -/
theorem DList.length_le_top {head tail : Nat} (hl : DList h head tail xs) : xs.length ≤ h.top := by
  have hsub : xs.map Prod.fst ⊆ List.range' 1 h.top := by
    intro p hp
    obtain ⟨x, hx, rfl⟩ := List.mem_map.mp hp
    obtain ⟨next, prev, hnode⟩ := hl.segment.node_mem hx
    have h1 := DHeap.le_top hnode
    have h0 := DHeap.ne_null hnode
    exact List.mem_range'_1.mpr (by omega)
  have hle := (List.subperm_of_subset hl.nodup hsub).length_le
  rwa [List.length_map, List.length_range'] at hle

/-! ## 3. The two chains

A list can be followed from its head along the next links and from its tail along the previous ones;
either walk is what a reader of the list sees. -/

/-- Following one link from `p` leads through the nodes of a list and then to `stop`. -/
def Follows (link : Nat → Option Nat) : Nat → List Nat → Nat → Prop
  | p, [], stop => p = stop
  | p, q :: qs, stop => p = q ∧ ∃ n, link q = some n ∧ Follows link n qs stop

theorem follows_append {link : Nat → Option Nat} {p stop : Nat} {qs rs : List Nat} :
    Follows link p (qs ++ rs) stop ↔ ∃ m, Follows link p qs m ∧ Follows link m rs stop := by
  induction qs generalizing p with
  | nil => exact ⟨fun hf => ⟨p, rfl, hf⟩, fun ⟨m, he, hf⟩ => he ▸ hf⟩
  | cons q qs ih =>
    constructor
    · rintro ⟨hp, n, hn, hf⟩
      obtain ⟨m, h1, h2⟩ := ih.mp hf
      exact ⟨m, ⟨hp, n, hn, h1⟩, h2⟩
    · rintro ⟨m, ⟨hp, n, hn, h1⟩, h2⟩
      exact ⟨hp, n, hn, ih.mpr ⟨m, h1, h2⟩⟩

def nextOf (h : DHeap α) (p : Nat) : Option Nat := (h.node p).map DNode.next

def prevOf (h : DHeap α) (p : Nat) : Option Nat := (h.node p).map DNode.prev

def dataOf (h : DHeap α) (p : Nat) : Option α := (h.node p).map DNode.data

theorem Segment.next_chain (hs : Segment h before first xs last after) :
    Follows (nextOf h) first (xs.map Prod.fst) after := by
  induction xs generalizing before first with
  | nil => exact hs.1
  | cons x xs ih =>
    obtain ⟨hf, next, hx, hs⟩ := hs
    exact ⟨hf, next, by simp [nextOf, hx], ih hs⟩

theorem Segment.prev_chain (hs : Segment h before first xs last after) :
    Follows (prevOf h) last (xs.map Prod.fst).reverse before := by
  induction xs generalizing before first with
  | nil => exact hs.2
  | cons x xs ih =>
    obtain ⟨-, next, hx, hs⟩ := hs
    rw [List.map_cons, List.reverse_cons, follows_append]
    exact ⟨x.1, ih hs, rfl, before, by simp [prevOf, hx], rfl⟩

theorem Segment.data (hs : Segment h before first xs last after) :
    (xs.map Prod.fst).map (dataOf h) = (xs.map Prod.snd).map some := by
  rw [List.map_map, List.map_map]
  refine List.map_congr_left ?_
  intro x hx
  obtain ⟨next, prev, hnode⟩ := hs.node_mem hx
  simp [dataOf, hnode]

/-- **The links forward** lead from the head through all nodes to NULL. -/
theorem DList.next_chain {head tail : Nat} (hl : DList h head tail xs) :
    Follows (nextOf h) head (xs.map Prod.fst) 0 := hl.segment.next_chain

/-- **The links back** lead from the tail through the same nodes in the opposite order. -/
theorem DList.prev_chain {head tail : Nat} (hl : DList h head tail xs) :
    Follows (prevOf h) tail (xs.map Prod.fst).reverse 0 := hl.segment.prev_chain

/-! ## 4. Linking in and out

The steps of an insertion at either end or in front of a node, and of a removal at either end, each
from the list before to the list after. -/

namespace DList

variable {head tail : Nat} {a : α} {next prev : Nat}

/-- A node alone. -/
theorem single (hp : h.node p = some ⟨a, 0, 0⟩) : DList h p p [(p, a)] :=
  ⟨⟨rfl, 0, hp, rfl, rfl⟩, by simp⟩

/-- **Linking a node in at the head.** -/
theorem linkFront (hl : DList h head tail (x :: xs)) (hp : h.node p = some ⟨a, next, prev⟩)
    (hn : p ∉ (x :: xs).map Prod.fst) :
    DList (((h.modify p fun n => { n with prev := 0 }).modify head
      fun n => { n with prev := p }).modify
      p fun n => { n with next := head }) p tail ((p, a) :: x :: xs) := by
  obtain ⟨hs, hnd⟩ := hl
  have hhead : head = x.1 := hs.1
  have hne : p ≠ head := by
    rintro rfl
    exact hn (hhead ▸ List.mem_cons_self)
  refine ⟨⟨rfl, head, ?_, ?_⟩, List.nodup_cons.mpr ⟨hn, hnd⟩⟩
  · rw [DHeap.modify_self ((DHeap.modify_of_ne hne).trans (DHeap.modify_self hp))]
  · have hx : x.1 ∉ xs.map Prod.fst := (List.nodup_cons.mp hnd).1
    have hs' := ((hs.modify hn fun n => { n with prev := 0 }).setPrev_first hx p).modify hn
      fun n => { n with next := head }
    rw [← hhead] at hs'
    exact hs'

/-- **Linking a node in at the tail.** -/
theorem linkBack (hl : DList h head tail (xs ++ [x])) (hp : h.node p = some ⟨a, 0, prev⟩)
    (hn : p ∉ (xs ++ [x]).map Prod.fst) :
    DList ((h.modify p fun n => { n with prev := tail }).modify tail fun n => { n with next := p })
      head p (xs ++ [x] ++ [(p, a)]) := by
  obtain ⟨hs, hnd⟩ := hl
  obtain ⟨l, -, -, htail⟩ := segment_concat.mp hs
  have hne : p ≠ tail := by
    rintro rfl
    exact hn (by rw [htail]; simp)
  have hx : x.1 ∉ xs.map Prod.fst := by
    rw [List.map_append] at hnd
    have hdis := (List.nodup_append.mp hnd).2.2
    intro hm
    exact hdis x.1 hm x.1 (by simp) rfl
  refine ⟨segment_concat.mpr ⟨tail, ?_, ?_, rfl⟩, ?_⟩
  · have hs' := (hs.modify hn fun n => { n with prev := tail }).setNext_last hx p
    rw [← htail] at hs'
    exact hs'
  · rw [DHeap.modify_of_ne hne, DHeap.modify_self hp]
  · rw [List.map_append, List.map_cons, List.map_nil]
    exact (List.nodup_append.mpr ⟨hnd, by simp, fun y hy z hz => by
      rw [List.mem_singleton.mp hz]
      rintro rfl
      exact hn hy⟩)

/-- **Linking a node in before another one** that is not the first. -/
theorem linkBefore {y : Nat × α} (hl : DList h head tail (xs ++ [x] ++ y :: ys))
    (hp : h.node p = some ⟨a, next, prev⟩) (hn : p ∉ (xs ++ [x] ++ y :: ys).map Prod.fst) :
    (∃ after, h.node y.1 = some ⟨y.2, after, x.1⟩) ∧
    DList ((((h.modify x.1 fun n => { n with next := p }).modify p
      fun n => { n with prev := x.1 }).modify
      y.1 fun n => { n with prev := p }).modify p fun n => { n with next := y.1 })
      head tail (xs ++ [x] ++ (p, a) :: y :: ys) := by
  obtain ⟨hs, hnd⟩ := hl
  obtain ⟨l, f, hxs, hys⟩ := segment_append.mp hs
  obtain ⟨l', -, -, rfl⟩ := segment_concat.mp hxs
  obtain ⟨rfl, after, hy, hrest⟩ := id hys
  rw [List.map_append] at hn hnd
  obtain ⟨hn1, hn2⟩ : p ∉ (xs ++ [x]).map Prod.fst ∧ p ∉ (y :: ys).map Prod.fst := by
    rw [List.mem_append, not_or] at hn
    exact hn
  obtain ⟨hnd1, hnd2, hdis⟩ := List.nodup_append.mp hnd
  have hx1 : x.1 ∈ (xs ++ [x]).map Prod.fst := by simp
  have hy1 : y.1 ∈ (y :: ys).map Prod.fst := List.mem_cons_self
  have hxx : x.1 ∉ xs.map Prod.fst := by
    rw [List.map_append] at hnd1
    intro hm
    exact (List.nodup_append.mp hnd1).2.2 x.1 hm x.1 (by simp) rfl
  have hxys : x.1 ∉ (y :: ys).map Prod.fst := fun hm => hdis _ hx1 _ hm rfl
  have hyxs : y.1 ∉ (xs ++ [x]).map Prod.fst := fun hm => hdis _ hm _ hy1 rfl
  have hyys : y.1 ∉ ys.map Prod.fst := (List.nodup_cons.mp hnd2).1
  have hpx : p ≠ x.1 := fun he => hn1 (he ▸ hx1)
  have hpy : p ≠ y.1 := fun he => hn2 (he ▸ hy1)
  refine ⟨⟨after, hy⟩, ?_, ?_⟩
  · refine segment_append.mpr ⟨x.1, p, ?_, rfl, y.1, ?_, ?_⟩
    · exact (((hxs.setNext_last hxx p).modify hn1 _).modify hyxs _).modify hn1 _
    · rw [DHeap.modify_self ((DHeap.modify_of_ne hpy).trans
        (DHeap.modify_self ((DHeap.modify_of_ne hpx).trans hp)))]
    · exact (((hys.modify hxys _).modify hn2 _).setPrev_first hyys p).modify hn2 _
  · rw [List.map_append, List.map_cons]
    refine List.nodup_append.mpr ⟨hnd1, List.nodup_cons.mpr ⟨hn2, hnd2⟩, ?_⟩
    intro u hu v hv
    rcases List.mem_cons.mp hv with rfl | hv
    · rintro rfl
      exact hn1 hu
    · exact hdis u hu v hv

/-- **The tail is taken out** of a list with another node. -/
theorem unlinkBack {y : Nat × α} (hl : DList h head tail (xs ++ [y] ++ [x])) :
    h.node tail = some ⟨x.2, 0, y.1⟩ ∧
    DList ((((h.modify tail fun n => { n with prev := 0 }).modify y.1
      fun n => { n with next := 0 })).erase
      tail) head y.1 (xs ++ [y]) := by
  obtain ⟨hs, hnd⟩ := hl
  obtain ⟨l, hxs, hx, rfl⟩ := segment_concat.mp hs
  obtain ⟨l', -, -, rfl⟩ := segment_concat.mp hxs
  rw [List.map_append] at hnd
  obtain ⟨hnd1, -, hdis⟩ := List.nodup_append.mp hnd
  have hxys : x.1 ∉ (xs ++ [y]).map Prod.fst := fun hm => hdis _ hm x.1 (by simp) rfl
  have hyxs : y.1 ∉ xs.map Prod.fst := by
    rw [List.map_append] at hnd1
    intro hm
    exact (List.nodup_append.mp hnd1).2.2 y.1 hm y.1 (by simp) rfl
  exact ⟨hx, ((hxs.modify hxys _).setNext_last hyxs 0).erase hxys, hnd1⟩

/-- **The head is taken out** of a list with another node. -/
theorem unlinkFront {y : Nat × α} (hl : DList h head tail (x :: y :: ys)) :
    h.node head = some ⟨x.2, y.1, 0⟩ ∧
    DList ((((h.modify head fun n => { n with next := 0 }).modify y.1
      fun n => { n with prev := 0 })).erase
      head) y.1 tail (y :: ys) := by
  obtain ⟨⟨rfl, next, hx, hs⟩, hnd⟩ := hl
  obtain ⟨hxys, hnd1⟩ := List.nodup_cons.mp hnd
  obtain rfl : next = y.1 := hs.1
  have hyys : y.1 ∉ ys.map Prod.fst := (List.nodup_cons.mp hnd1).1
  exact ⟨hx, ((hs.modify hxys _).setPrev_first hyys 0).erase hxys, hnd1⟩

end DList

end Segments

end Zgdb.Lib
