/-
# Lists that own their nodes

Several doubly linked lists on one heap.  `Owns h0 h ls` says that since `h0` nothing has happened
to the heap except for the nodes of the lists `ls`: the lists are in order and share no node, their
nodes are new, and every other pointer leads to what it led to before.  A node that belonged to none
of the lists would be a leak, and one that belonged to two of them would be freed twice.

The rules are those of the operations: an empty list begins (`Owns.begin`), a node is linked in at a
tail (`Owns.pushFirst`, `Owns.pushBack`), and a list whose nodes are freed is gone (`Owns.freed`).
The order of the lists does not matter (`Owns.perm`).
-/
import Zgdb.Lib.DoublyLinked

namespace Zgdb.Lib

/-- A list: where it begins and ends, and its nodes, each a pointer with its data. -/
structure Linked (α : Type) where
  head : Nat
  tail : Nat
  nodes : List (Nat × α)

namespace Linked

variable {α : Type}

def pointers (l : Linked α) : List Nat := l.nodes.map Prod.fst

def values (l : Linked α) : List α := l.nodes.map Prod.snd

/-- No node yet. -/
def empty : Linked α := ⟨0, 0, []⟩

/-- With another node at the tail. -/
def push (l : Linked α) (p : Nat) (a : α) : Linked α where
  head := if l.nodes = [] then p else l.head
  tail := p
  nodes := l.nodes ++ [(p, a)]

@[simp] theorem pointers_empty : (empty : Linked α).pointers = [] := rfl

@[simp] theorem values_empty : (empty : Linked α).values = [] := rfl

@[simp] theorem pointers_push (l : Linked α) (p : Nat) (a : α) :
    (l.push p a).pointers = l.pointers ++ [p] := by
  simp [pointers, push]

@[simp] theorem values_push (l : Linked α) (p : Nat) (a : α) :
    (l.push p a).values = l.values ++ [a] := by
  simp [values, push]

end Linked

/-! ## 1. Ownership

What is owned is a list of lists, since a function of the program holds several of them at once.
Everything that is not owned is where it was before the function was called, which is what its
caller relies on. -/

section Owns

variable {α : Type}

/-- The pointers of all lists. -/
def allPointers (ls : List (Linked α)) : List Nat := ls.flatMap Linked.pointers

/-- Since `h0` there are the nodes of these lists, and nothing else is changed. -/
structure Owns (h0 h : DHeap α) (ls : List (Linked α)) : Prop where
  segment : ∀ l ∈ ls, Segment h 0 l.head l.nodes l.tail 0
  nodup : (allPointers ls).Nodup
  fresh : ∀ p ∈ allPointers ls, h0.top < p
  rest : ∀ p, p ∉ allPointers ls → h.node p = h0.node p
  top : h0.top ≤ h.top

variable {h0 h h' : DHeap α} {l : Linked α} {ls ls' : List (Linked α)} {p : Nat} {a : α}

@[simp] theorem allPointers_nil : allPointers ([] : List (Linked α)) = [] := rfl

@[simp] theorem allPointers_cons (l : Linked α) (ls : List (Linked α)) :
    allPointers (l :: ls) = l.pointers ++ allPointers ls := List.flatMap_cons

theorem Owns.refl (h : DHeap α) : Owns h h [] :=
  ⟨fun _ hl => (by cases hl), List.nodup_nil, fun _ hp => (by cases hp), fun _ _ => rfl,
    Nat.le_refl _⟩

/-- **The order of the lists** does not matter. -/
theorem Owns.perm (ho : Owns h0 h ls) (hp : ls.Perm ls') : Owns h0 h ls' := by
  have hall : (allPointers ls).Perm (allPointers ls') := hp.flatMap_right _
  refine ⟨?_, hall.nodup_iff.mp ho.nodup, ?_, ?_, ho.top⟩
  · intro l hl
    exact ho.segment l (hp.mem_iff.mpr hl)
  · intro p hmem
    exact ho.fresh p (hall.mem_iff.mpr hmem)
  · intro p hmem
    exact ho.rest p fun hin => hmem (hall.mem_iff.mp hin)

/-- A list in the middle comes first. -/
theorem Owns.toFront (ho : Owns h0 h (ls ++ l :: ls')) : Owns h0 h (l :: (ls ++ ls')) :=
  ho.perm List.perm_middle

theorem Owns.toMiddle (ho : Owns h0 h (l :: (ls ++ ls'))) : Owns h0 h (ls ++ l :: ls') :=
  ho.perm List.perm_middle.symm

/-- A list that begins. -/
theorem Owns.begin (ho : Owns h0 h ls) : Owns h0 h (.empty :: ls) := by
  refine ⟨?_, ho.nodup, ho.fresh, ho.rest, ho.top⟩
  intro l hl
  rcases List.mem_cons.mp hl with rfl | hl
  · exact ⟨rfl, rfl⟩
  · exact ho.segment l hl

/-- Each list is one. -/
theorem Owns.dlist (ho : Owns h0 h ls) (hl : l ∈ ls) : DList h l.head l.tail l.nodes :=
  ⟨ho.segment l hl, (List.nodup_flatMap.mp ho.nodup).1 l hl⟩

/-- A node of a list has a pointer that was handed out. -/
theorem Owns.le_top (ho : Owns h0 h ls) (hp : p ∈ allPointers ls) : p ≤ h.top := by
  obtain ⟨l, hl, hpl⟩ := List.mem_flatMap.mp hp
  obtain ⟨x, hx, rfl⟩ := List.mem_map.mp hpl
  obtain ⟨next, prev, hnode⟩ := (ho.segment l hl).node_mem hx
  exact DHeap.le_top hnode

/-! ## 2. The operations

One rule for each thing that a program does to its lists.  None of them looks at the other lists
that are owned. -/

/-- A heap that differs from `h` in the nodes of the first list and in a new one. -/
theorem Owns.grown (ho : Owns h0 h (l :: ls)) {l' : Linked α}
    (hpointers : l'.pointers = l.pointers ++ [h.top + 1])
    (hsegment : Segment h' 0 l'.head l'.nodes l'.tail 0)
    (hsame : ∀ p, p ∉ l'.pointers → h'.node p = h.node p) (htop : h'.top = h.top + 1) :
    Owns h0 h' (l' :: ls) := by
  have hnew : h.top + 1 ∉ allPointers (l :: ls) := by
    intro hmem
    have := ho.le_top hmem
    omega
  have hperm : (allPointers (l' :: ls)).Perm ((h.top + 1) :: allPointers (l :: ls)) := by
    rw [allPointers_cons, allPointers_cons, hpointers, List.append_assoc]
    exact List.perm_middle
  have hnodup : (allPointers (l' :: ls)).Nodup :=
    hperm.nodup_iff.mpr (List.nodup_cons.mpr ⟨hnew, ho.nodup⟩)
  refine ⟨?_, hnodup, ?_, ?_, ?_⟩
  · intro l1 hl1
    rcases List.mem_cons.mp hl1 with rfl | hmem
    · exact hsegment
    · -- the nodes of the others are not those of the first list
      refine (ho.segment l1 (List.mem_cons_of_mem _ hmem)).congr ?_
      intro x hx
      refine hsame x.1 ?_
      intro hin
      rw [allPointers_cons] at hnodup
      have hx1 : x.1 ∈ allPointers ls := List.mem_flatMap.mpr ⟨l1, hmem, List.mem_map_of_mem hx⟩
      exact (List.nodup_append.mp hnodup).2.2 x.1 hin x.1 hx1 rfl
  · intro p hp
    rcases List.mem_cons.mp (hperm.mem_iff.mp hp) with rfl | hp
    · exact Nat.lt_succ_of_le ho.top
    · exact ho.fresh p hp
  · intro p hp
    have hp' : p ∉ l'.pointers := fun hin => hp (by
      rw [allPointers_cons]
      exact List.mem_append_left _ hin)
    rw [hsame p hp']
    exact ho.rest p fun hin => hp (hperm.mem_iff.mpr (List.mem_cons_of_mem _ hin))
  · rw [htop]
    exact Nat.le_succ_of_le ho.top

/-- **The first node** of a list. -/
theorem Owns.pushFirst (ho : Owns h0 h (l :: ls)) (hnil : l.nodes = []) (a : α) :
    Owns h0 ((h.malloc a).modify (h.top + 1) fun n => { n with prev := 0 })
      (l.push (h.top + 1) a :: ls) := by
  refine ho.grown (by simp) ?_ ?_ rfl
  · have hsingle : DList ((h.malloc a).modify (h.top + 1) fun n => { n with prev := 0 })
        (h.top + 1) (h.top + 1) [(h.top + 1, a)] := .single (DHeap.modify_self DHeap.malloc_self)
    simpa [Linked.push, hnil] using hsingle.segment
  · intro p hp
    have hne : p ≠ h.top + 1 := by
      rintro rfl
      simp at hp
    rw [DHeap.modify_of_ne hne, DHeap.malloc_of_ne hne]

/-- **Another node** at the tail of a list. -/
theorem Owns.pushBack (ho : Owns h0 h (l :: ls)) (hne : l.nodes ≠ []) (a : α) :
    Owns h0 (((h.malloc a).modify (h.top + 1) fun n => { n with prev := l.tail }).modify l.tail
      fun n => { n with next := h.top + 1 }) (l.push (h.top + 1) a :: ls) := by
  have hl := ho.dlist List.mem_cons_self
  obtain ⟨xs, x, hxs⟩ := (List.eq_nil_or_concat' l.nodes).resolve_left hne
  have htail : l.tail ∈ l.pointers := by
    have hs := hl.segment
    rw [hxs] at hs
    obtain ⟨-, -, -, htail⟩ := segment_concat.mp hs
    rw [Linked.pointers, hxs, htail]
    simp
  have hnew : h.top + 1 ∉ l.pointers := by
    intro hmem
    have hle : h.top + 1 ≤ h.top := ho.le_top (by
      rw [allPointers_cons]
      exact List.mem_append_left _ hmem)
    omega
  refine ho.grown (by simp) ?_ ?_ rfl
  · have hmalloc : DList (h.malloc a) l.head l.tail (xs ++ [x]) :=
      hxs ▸ ⟨hl.segment.malloc a, hl.nodup⟩
    have hnew' : h.top + 1 ∉ (xs ++ [x]).map Prod.fst := hxs ▸ hnew
    have hlinked := (hmalloc.linkBack DHeap.malloc_self hnew').segment
    show Segment _ 0 (if l.nodes = [] then _ else _) (l.nodes ++ _) _ 0
    rw [if_neg hne, hxs]
    exact hlinked
  · intro p hp
    simp only [Linked.pointers_push, List.mem_append, List.mem_singleton, not_or] at hp
    have hpt : p ≠ l.tail := fun he => hp.1 (he ▸ htail)
    rw [DHeap.modify_of_ne hpt, DHeap.modify_of_ne hp.2, DHeap.malloc_of_ne hp.2]

/-- **A list that is freed** leaves the others. -/
theorem Owns.freed (ho : Owns h0 h (l :: ls)) (hgone : ∀ p ∈ l.pointers, h'.node p = none)
    (hsame : ∀ p, p ∉ l.pointers → h'.node p = h.node p) (htop : h'.top = h.top) :
    Owns h0 h' ls := by
  have hnodup := ho.nodup
  rw [allPointers_cons] at hnodup
  obtain ⟨-, hnodup', hdisjoint⟩ := List.nodup_append.mp hnodup
  have hfresh : ∀ p ∈ l.pointers ++ allPointers ls, h0.top < p := fun p hp =>
    ho.fresh p (by rwa [allPointers_cons])
  refine ⟨?_, hnodup', ?_, ?_, ?_⟩
  · intro l1 hl1
    refine (ho.segment l1 (List.mem_cons_of_mem _ hl1)).congr ?_
    intro x hx
    refine hsame x.1 ?_
    intro hin
    have hx1 : x.1 ∈ allPointers ls := List.mem_flatMap.mpr ⟨l1, hl1, List.mem_map_of_mem hx⟩
    exact hdisjoint x.1 hin x.1 hx1 rfl
  · intro p hp
    exact hfresh p (List.mem_append_right _ hp)
  · intro p hp
    by_cases hl : p ∈ l.pointers
    · rw [hgone p hl, h0.fresh p (hfresh p (List.mem_append_left _ hl))]
    · rw [hsame p hl]
      refine ho.rest p ?_
      rw [allPointers_cons, List.mem_append, not_or]
      exact ⟨hl, hp⟩
  · rw [htop]
    exact ho.top

end Owns

/-! ## 3. Freeing and walking

A list is freed from its head on, each node after its next link was read. -/

section Walk

variable {α : Type} {h : DHeap α} {before first last : Nat} {xs : List (Nat × α)}

/-- `while (p != NULL)`: the node is freed, and its link is followed. -/
def DHeap.freeAll (h : DHeap α) : (fuel : Nat) → (p : Nat) → Option (DHeap α)
  | 0, _ => none
  | fuel + 1, p =>
    if p = 0 then some h
    else do
      let node ← h.node p
      let h ← h.free p
      h.freeAll fuel node.next

/-- **Freeing a chain** frees its nodes, each of them once, and no others. -/
theorem Segment.freeAll (hs : Segment h before first xs last 0) (hn : (xs.map Prod.fst).Nodup)
    {fuel : Nat} (hfuel : xs.length < fuel) :
    ∃ h', h.freeAll fuel first = some h' ∧ h'.top = h.top ∧
      (∀ p ∈ xs.map Prod.fst, h'.node p = none) ∧
      ∀ p, p ∉ xs.map Prod.fst → h'.node p = h.node p := by
  induction xs generalizing h before first fuel with
  | nil =>
    obtain ⟨fuel, rfl⟩ : ∃ n, fuel = n + 1 := ⟨fuel - 1, by simp at hfuel; omega⟩
    obtain ⟨rfl, -⟩ := hs
    exact ⟨h, if_pos rfl, rfl, fun p hp => (by cases hp), fun _ _ => rfl⟩
  | cons x xs ih =>
    obtain ⟨fuel, rfl⟩ : ∃ n, fuel = n + 1 := ⟨fuel - 1, by omega⟩
    obtain ⟨rfl, next, hx, hs⟩ := hs
    obtain ⟨hxs, hn'⟩ := List.nodup_cons.mp hn
    obtain ⟨h', hrun, htop, hgone, hsame⟩ :=
      ih (hs.erase hxs) hn' (Nat.lt_of_succ_lt_succ hfuel)
    refine ⟨h', ?_, htop, ?_, ?_⟩
    · rw [DHeap.freeAll, if_neg (DHeap.ne_null hx), hx]
      show (h.free x.1 >>= fun h => h.freeAll fuel next) = some h'
      rw [DHeap.free_eq hx]
      exact hrun
    · intro p hp
      rcases List.mem_cons.mp hp with rfl | hp
      · rw [hsame x.1 hxs]
        exact if_pos rfl
      · exact hgone p hp
    · intro p hp
      rw [List.map_cons, List.mem_cons, not_or] at hp
      rw [hsame p hp.2, DHeap.erase_of_ne hp.1]

/-- Where a list goes on. -/
def firstPointer (xs : List (Nat × α)) : Nat :=
  match xs with
  | [] => 0
  | x :: _ => x.1

theorem Segment.first_eq (hs : Segment h before first xs last 0) : first = firstPointer xs := by
  cases xs with
  | nil => exact hs.1
  | cons x xs => exact hs.1

/-- **A node on the way**: what it carries and where it leads. -/
theorem DList.node_at {head tail : Nat} {ys : List (Nat × α)} {x : Nat × α}
    (hl : DList h head tail (xs ++ x :: ys)) :
    ∃ node, h.node x.1 = some node ∧ node.data = x.2 ∧ node.next = firstPointer ys := by
  obtain ⟨l, f, -, hys⟩ := segment_append.mp hl.segment
  obtain ⟨-, next, hx, hrest⟩ := hys
  exact ⟨⟨x.2, next, l⟩, hx, rfl, hrest.first_eq⟩

end Walk

end Zgdb.Lib
