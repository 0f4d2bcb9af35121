/-
# The free list node by node

`index/list/freelist.c` once more, with the pointers: a `freeIndexesList` points to its first and to
its last node, a node to the next and to the one before, and an operation relinks nodes.  `none`
stands for a pointer that is followed and leads to no node, and for a scan that does not stop.

A list whose nodes are those of a list of `FreeList.lean` (`Shows`) stays one: every operation does
to the nodes what its counterpart does (`insertNode_refines`, `findRelevantIndex_refines`), so what
is proved of the lists holds of the nodes.
-/
import Zgdb.Lib.DoublyLinked
import Zgdb.FreeList

namespace Zgdb.Pointers

open Zgdb.Lib

/-! ## 1. The code

The functions of the source line by line, with the pointers that they follow and write. -/

/-- A field of 40 bits. -/
def field40 (v : Nat) : Nat := v % 2 ^ 40

/-- `freeIndexesList`, with the heap its nodes are on.  `head` and `tail` are addresses, 0 for NULL;
the fields are those of the source. -/
structure FreeIndexesList where
  heap : DHeap Node
  head : Nat
  tail : Nat
  indexesCount : Nat
  newIndexesCount : Nat

/-- `createIndexesList`, before any node is allocated -/
def createIndexesList : FreeIndexesList := ⟨.empty, 0, 0, 0, 0⟩

/-- `createNewNode`: the heap and the pointer. -/
def createNewNode (heap : DHeap Node) (indexOrder blockSize : Nat) : DHeap Node × Nat :=
  (heap.malloc ⟨field40 indexOrder, blockSize⟩, heap.top + 1)

/-- The `while` loop of `insertNode`. -/
def insertScan (heap : DHeap Node) (blockSize : Nat) : (fuel : Nat) → (temp : Nat) → Option Nat
  | 0, _ => none
  | fuel + 1, temp => do
    let node ← heap.node temp
    if node.data.blockSize < blockSize then insertScan heap blockSize fuel node.next else some temp

def insertNode (list : FreeIndexesList) (newNode : Nat) : Option FreeIndexesList := do
  if list.head = 0 then
    let heap ← list.heap.setPrev newNode 0
    return { list with heap := heap, head := newNode, tail := newNode }
  let new ← list.heap.node newNode
  let head ← list.heap.node list.head
  if new.data.blockSize < head.data.blockSize ∨ new.data.blockSize = 0 then
    let heap ← list.heap.setPrev newNode 0
    let heap ← heap.setPrev list.head newNode
    let heap ← heap.setNext newNode list.head
    return { list with heap := heap, head := newNode }
  let tail ← list.heap.node list.tail
  if new.data.blockSize ≥ tail.data.blockSize then
    let heap ← list.heap.setPrev newNode list.tail
    let heap ← heap.setNext list.tail newNode
    return { list with heap := heap, tail := newNode }
  let temp ← insertScan list.heap new.data.blockSize (list.heap.top + 1) head.next
  let node ← list.heap.node temp
  let heap ← list.heap.setNext node.prev newNode
  let heap ← heap.setPrev newNode node.prev
  let heap ← heap.setPrev temp newNode
  let heap ← heap.setNext newNode temp
  return { list with heap := heap }

def insertNewIndex (list : FreeIndexesList) (indexOrder : Nat) : Option FreeIndexesList := do
  let (heap, newNode) := createNewNode list.heap indexOrder 0
  let list ← insertNode { list with heap := heap } newNode
  return { list with
    newIndexesCount := field40 (list.newIndexesCount + 1)
    indexesCount := field40 (list.indexesCount + 1) }

def insertDeadIndex (list : FreeIndexesList) (indexOrder blockSize : Nat) :
    Option FreeIndexesList := do
  let (heap, newNode) := createNewNode list.heap indexOrder blockSize
  let list ← insertNode { list with heap := heap } newNode
  return { list with indexesCount := field40 (list.indexesCount + 1) }

/-- `count--` for a field of 40 bits. -/
def decrement (count : Nat) : Nat := field40 (count + (2 ^ 40 - 1))

/-- `findRelevantIndex`; the inner `none` is the NULL result. -/
def findRelevantIndex (list : FreeIndexesList) (reqSize : Nat) :
    Option (Option RelevantIndexMeta × FreeIndexesList) := do
  if list.indexesCount = 1 ∧ list.newIndexesCount = 1 then
    let head ← list.heap.node list.head
    let heap ← list.heap.free list.head
    return (some head.data, { list with
      heap := heap, head := 0, tail := 0
      newIndexesCount := decrement list.newIndexesCount
      indexesCount := decrement list.indexesCount })
  if list.indexesCount = 1 ∧ list.newIndexesCount = 0 then
    let tail ← list.heap.node list.tail
    if tail.data.blockSize ≥ reqSize then
      let heap ← list.heap.free list.tail
      return (some tail.data, { list with
        heap := heap, head := 0, tail := 0, indexesCount := decrement list.indexesCount })
    else return (none, list)
  if list.tail = 0 ∨ list.head = 0 then return (none, list)
  let tail ← list.heap.node list.tail
  if tail.data.blockSize ≥ reqSize then
    let pr := tail.prev
    let heap ← list.heap.setPrev list.tail 0
    let heap ← heap.setNext pr 0
    let heap ← heap.free list.tail
    return (some tail.data, { list with
      heap := heap, tail := pr, indexesCount := decrement list.indexesCount })
  let head ← list.heap.node list.head
  if head.data.blockSize = 0 then
    let pr := head.next
    let heap ← list.heap.setNext list.head 0
    let heap ← heap.setPrev pr 0
    let heap ← heap.free list.head
    return (some head.data, { list with
      heap := heap, head := pr
      newIndexesCount := decrement list.newIndexesCount
      indexesCount := decrement list.indexesCount })
  else return (none, list)

/-! ## 2. What the nodes show

A list on the heap shows a list of nodes: the pointers of both directions agree with it, and both
ends. -/

/-- The nodes `xs` of a list are those of a list without pointers. -/
structure Shows (s : FreeIndexesList) (xs : List (Nat × Node)) (list : Zgdb.FreeIndexesList) :
    Prop where
  dlist : DList s.heap s.head s.tail xs
  nodes : list.nodes = xs.map Prod.snd
  indexes : s.indexesCount = list.indexesCount
  newIndexes : s.newIndexesCount = list.newIndexesCount

theorem shows_createIndexesList : Shows createIndexesList [] Zgdb.createIndexesList :=
  ⟨⟨⟨rfl, rfl⟩, by simp⟩, rfl, rfl, rfl⟩

/-! ## 3. Insertion

A new node is loose at first.  It is linked at the front, or in front of the first node that is not
smaller, or at the tail. -/

section Insert

variable {heap : DHeap Node} {xs : List (Nat × Node)} {head tail newNode : Nat} {n : Node}

/-- The scan stops at the first node that is not smaller, if there is one, and that is the place in
the list. -/
theorem insertScan_spec {before first last after : Nat}
    (hs : Segment heap before first xs last after)
    {x : Nat × Node} (hx : x ∈ xs) (hle : n.blockSize ≤ x.2.blockSize) {fuel : Nat}
    (hfuel : xs.length < fuel) :
    ∃ l y r, xs = l ++ y :: r ∧ insertScan heap n.blockSize fuel first = some y.1 ∧
      Zgdb.insertScan n (xs.map Prod.snd) = (l ++ (newNode, n) :: y :: r).map Prod.snd := by
  induction xs generalizing before first fuel with
  | nil => cases hx
  | cons z zs ih =>
    obtain ⟨fuel, rfl⟩ : ∃ m, fuel = m + 1 := ⟨fuel - 1, by omega⟩
    obtain ⟨rfl, next, hz, hs⟩ := hs
    by_cases hlt : z.2.blockSize < n.blockSize
    · have hx' : x ∈ zs := by
        rcases List.mem_cons.mp hx with rfl | hx
        · omega
        · exact hx
      obtain ⟨l, y, r, hxs, hrun, hlist⟩ := ih hs hx' (by simpa using hfuel)
      refine ⟨z :: l, y, r, by rw [hxs, List.cons_append], ?_, ?_⟩
      · simp only [insertScan, hz, Option.bind_eq_bind, Option.bind_some, if_pos hlt, hrun]
      · rw [List.map_cons, Zgdb.insertScan, if_pos hlt, hlist, List.cons_append, List.map_cons]
    · refine ⟨[], z, zs, rfl, ?_, ?_⟩
      · simp only [insertScan, hz, Option.bind_eq_bind, Option.bind_some, if_neg hlt]
      · rw [List.map_cons, Zgdb.insertScan, if_neg hlt, List.nil_append, List.map_cons,
          List.map_cons]

/-- A node that is on the heap and not on the list. -/
structure Loose (heap : DHeap Node) (xs : List (Nat × Node)) (newNode : Nat) (n : Node) : Prop where
  node : heap.node newNode = some ⟨n, 0, 0⟩
  notMem : newNode ∉ xs.map Prod.fst

/-- **An insertion links the node in** where the list without pointers has it. -/
theorem insertNode_refines (hl : DList heap head tail xs) (hn : Loose heap xs newNode n)
    (count newCount : Nat) :
    ∃ heap' head' tail' ys, insertNode ⟨heap, head, tail, count, newCount⟩ newNode
        = some ⟨heap', head', tail', count, newCount⟩ ∧
      DList heap' head' tail' ys ∧ ys.map Prod.snd = Zgdb.insertNode (xs.map Prod.snd) n := by
  obtain ⟨hnode, hnot⟩ := hn
  unfold insertNode
  rcases List.eq_nil_or_concat' xs with rfl | ⟨ys, t, hxs⟩
  · rw [if_pos (hl.head_eq_null.mpr rfl)]
    simp only [DHeap.setPrev_eq hnode, Option.bind_eq_bind, Option.bind_some]
    exact ⟨_, _, _, [(newNode, n)], rfl, DList.single (DHeap.modify_self hnode), rfl⟩
  have hne : xs ≠ [] := by
    rw [hxs]
    simp
  rw [if_neg (by rwa [hl.head_eq_null])]
  obtain ⟨x, zs, hcons⟩ := List.exists_cons_of_ne_nil hne
  obtain ⟨hhead, next, hx, hrest⟩ : Segment heap 0 head (x :: zs) tail 0 := hcons ▸ hl.segment
  obtain ⟨pr, -, ht, htail⟩ := segment_concat.mp (hxs ▸ hl.segment)
  rw [← hhead] at hx
  rw [← htail] at ht
  have hlast : ∀ hne, (List.map Prod.snd (x :: zs)).getLast hne = t.2 := by
    rw [← hcons, hxs]
    simp
  simp only [hnode, hx, Option.bind_eq_bind, Option.bind_some]
  by_cases hfront : n.blockSize < x.2.blockSize ∨ n.blockSize = 0
  · simp only [if_pos hfront, DHeap.setPrev, DHeap.setNext, DHeap.isSome_modify, hnode, hx,
      Option.isSome_some, if_true, Option.bind_some]
    refine ⟨_, _, _, (newNode, n) :: x :: zs, rfl, (hcons ▸ hl).linkFront hnode (hcons ▸ hnot), ?_⟩
    rw [hcons, List.map_cons, List.map_cons, Zgdb.insertNode, if_pos hfront]
  simp only [if_neg hfront, ht, Option.bind_some]
  by_cases hback : n.blockSize ≥ t.2.blockSize
  · simp only [if_pos hback, DHeap.setPrev, DHeap.setNext, DHeap.isSome_modify, hnode, ht,
      Option.isSome_some, if_true, Option.bind_some]
    refine ⟨_, _, _, xs ++ [(newNode, n)], rfl, ?_, ?_⟩
    · rw [hxs]
      exact (hxs ▸ hl).linkBack hnode (hxs ▸ hnot)
    · have hback' : n.blockSize ≥ ((List.map Prod.snd (x :: zs)).getLast (by simp)).blockSize := by
        rwa [hlast]
      rw [hcons, List.map_append, List.map_cons, Zgdb.insertNode, if_neg hfront]
      exact (if_pos hback').symm
  -- the node belongs between the first and the last one
  have htz : t ∈ zs := by
    have hmem : t ∈ x :: zs := hcons ▸ hxs ▸ List.mem_append_right _ List.mem_cons_self
    rcases List.mem_cons.mp hmem with rfl | hmem
    · omega
    · exact hmem
  have hfuel : zs.length < heap.top + 1 := by
    have hle := hl.length_le_top
    rw [hcons, List.length_cons] at hle
    omega
  obtain ⟨l, y, r, hzs, hscan, hlist⟩ := insertScan_spec hrest htz
    (n := n) (by omega) hfuel
  obtain ⟨l', x', hl'x⟩ : ∃ l' x', x :: l = l' ++ [x'] := by
    rcases List.eq_nil_or_concat' (x :: l) with h0 | ⟨l', x', h⟩
    · cases h0
    · exact ⟨l', x', h⟩
  have hsplit : xs = l' ++ [x'] ++ y :: r := by
    rw [hcons, hzs, ← hl'x, List.cons_append]
  have hl' := hsplit ▸ hl
  obtain ⟨⟨after, hy⟩, hdl⟩ := hl'.linkBefore hnode (hsplit ▸ hnot)
  obtain ⟨nx, px, hx'⟩ := hl'.segment.node_mem (x := x') (by simp)
  have hback' : ¬ n.blockSize ≥ ((List.map Prod.snd (x :: zs)).getLast (by simp)).blockSize := by
    rwa [hlast]
  simp only [if_neg hback, hscan, hy, DHeap.setPrev, DHeap.setNext, DHeap.isSome_modify, hnode, hx',
    Option.isSome_some, if_true, Option.bind_some]
  refine ⟨_, _, _, l' ++ [x'] ++ (newNode, n) :: y :: r, rfl, hdl, ?_⟩
  rw [hcons, List.map_cons, Zgdb.insertNode, if_neg hfront]
  refine Eq.trans ?_ (if_neg hback').symm
  rw [hlist, ← hl'x, List.cons_append, List.map_cons]

/-- A new node is loose. -/
theorem createNewNode_loose (hl : DList heap head tail xs) (indexOrder blockSize : Nat) :
    DList (createNewNode heap indexOrder blockSize).1 head tail xs ∧
      Loose (createNewNode heap indexOrder blockSize).1 xs
        (createNewNode heap indexOrder blockSize).2
        ⟨field40 indexOrder, blockSize⟩ := by
  refine ⟨⟨hl.segment.malloc _, hl.nodup⟩, DHeap.malloc_self, ?_⟩
  intro hm
  obtain ⟨x, hx, he⟩ := List.mem_map.mp hm
  obtain ⟨next, prev, hnode⟩ := hl.segment.node_mem hx
  have hle := DHeap.le_top hnode
  simp only [createNewNode] at he
  omega

variable {s : FreeIndexesList} {list : Zgdb.FreeIndexesList}

/-- A counter below its limit counts on. -/
theorem field40_eq {v : Nat} (hv : v < 2 ^ 40) : field40 v = v := Nat.mod_eq_of_lt hv

theorem decrement_eq {c : Nat} (h0 : 0 < c) (hc : c < 2 ^ 40) : decrement c = c - 1 := by
  rw [decrement, field40]
  omega

theorem FreeIndexesList.Sound.newIndexes_le {list : Zgdb.FreeIndexesList} (h : list.Sound) :
    list.newIndexesCount ≤ list.nodes.length := by
  rw [h.newIndexes]
  exact List.countP_le_length

theorem insertNewIndex_refines (h : Shows s xs list) (hc : list.Sound)
    (hlt : list.nodes.length + 1 < 2 ^ 40) (k : Nat) :
    ∃ s' ys, insertNewIndex s k = some s' ∧ Shows s' ys (Zgdb.insertNewIndex list (field40 k)) := by
  obtain ⟨heap, head, tail, count, newCount⟩ := s
  obtain ⟨hl, hnodes, rfl, rfl⟩ := h
  obtain ⟨hl', hloose⟩ := createNewNode_loose hl k 0
  obtain ⟨heap', head', tail', ys, hrun, hys, hmap⟩ :=
    insertNode_refines hl' hloose list.indexesCount list.newIndexesCount
  have hle := FreeIndexesList.Sound.newIndexes_le hc
  refine ⟨⟨heap', head', tail', field40 (list.indexesCount + 1),
    field40 (list.newIndexesCount + 1)⟩,
    ys, ?_, hys, ?_, ?_, ?_⟩
  · simp only [insertNewIndex, hrun]
    rfl
  · rw [Zgdb.insertNewIndex, hmap, hnodes]
  · exact field40_eq (by rw [hc.indexes]; exact hlt)
  · exact field40_eq (by omega)

theorem insertDeadIndex_refines (h : Shows s xs list) (hc : list.Sound)
    (hlt : list.nodes.length + 1 < 2 ^ 40) (k size : Nat) :
    ∃ s' ys, insertDeadIndex s k size = some s' ∧
      Shows s' ys (Zgdb.insertDeadIndex list (field40 k) size) := by
  obtain ⟨heap, head, tail, count, newCount⟩ := s
  obtain ⟨hl, hnodes, rfl, rfl⟩ := h
  obtain ⟨hl', hloose⟩ := createNewNode_loose hl k size
  obtain ⟨heap', head', tail', ys, hrun, hys, hmap⟩ :=
    insertNode_refines hl' hloose list.indexesCount list.newIndexesCount
  refine ⟨⟨heap', head', tail', field40 (list.indexesCount + 1), list.newIndexesCount⟩,
    ys, ?_, hys, ?_, ?_, rfl⟩
  · simp only [insertDeadIndex, hrun]
    rfl
  · rw [Zgdb.insertDeadIndex, hmap, hnodes]
  · exact field40_eq (by rw [hc.indexes]; exact hlt)

end Insert

/-! ## 4. Choice

A node is taken at one of the ends.  The node next to it becomes the end, with no pointer left to
the one that was taken. -/

section Choice

variable {xs : List (Nat × Node)} {s : FreeIndexesList} {list : Zgdb.FreeIndexesList}

/-- An empty list has nothing to choose. -/
theorem findRelevantIndex_empty (h : Shows s [] list) (hc : list.Sound) (reqSize : Nat) :
    Zgdb.findRelevantIndex list reqSize = none ∧ findRelevantIndex s reqSize = some (none, s) := by
  have hnodes : list.nodes = [] := h.nodes
  have hcount : list.indexesCount = 0 := by rw [hc.indexes, hnodes, List.length_nil]
  have hcount' : s.indexesCount = 0 := h.indexes.trans hcount
  have hne : s.tail = 0 ∨ s.head = 0 := Or.inr (h.dlist.head_eq_null.mpr rfl)
  unfold findRelevantIndex Zgdb.findRelevantIndex
  constructor
  · rw [if_neg (by omega), if_neg (by omega), hnodes]
    rfl
  · rw [if_neg (by omega), if_neg (by omega), if_pos hne]
    rfl

/-- A list of one node: both programs tell the two sorts of it apart by the counters. -/
theorem findRelevantIndex_one {x : Nat × Node} (h : Shows s [x] list) (hc : list.Sound)
    (reqSize : Nat) :
    (Zgdb.findRelevantIndex list reqSize = none ∧ findRelevantIndex s reqSize = some (none, s)) ∨
    ∃ list' s', Zgdb.findRelevantIndex list reqSize = some (x.2, list') ∧
      findRelevantIndex s reqSize = some (some x.2, s') ∧ Shows s' [] list' := by
  obtain ⟨heap, head, tail, count, newCount⟩ := s
  obtain ⟨nodes, ic, nc⟩ := list
  obtain ⟨hl, hnodes, hic, hnc⟩ := h
  obtain ⟨h1, h2, h3⟩ := hc
  simp only at hl hnodes hic hnc h1 h2 h3
  subst hic hnc hnodes
  obtain ⟨hhead, next, hx, hnext, htail⟩ := hl.segment
  rw [← hhead] at hx
  obtain rfl : count = 1 := h1
  obtain rfl : head = tail := hhead.trans htail.symm
  have hempty : ∀ heap : DHeap Node, DList heap 0 0 [] := fun heap => ⟨⟨rfl, rfl⟩, List.nodup_nil⟩
  have hnew : newCount = 0 ∨ newCount = 1 := by
    rw [List.map_cons, List.map_nil, List.countP_singleton] at h2
    split at h2 <;> omega
  unfold findRelevantIndex Zgdb.findRelevantIndex
  simp only [hx, DHeap.free_eq hx, Option.bind_eq_bind, Option.bind_some, List.map_cons,
    List.map_nil,
    List.head?_cons, List.getLast?_singleton]
  rcases hnew with rfl | rfl
  · by_cases hle : x.2.blockSize ≥ reqSize
    · right
      rw [if_neg (by simp), if_pos (by simp), if_pos hle, if_neg (by simp), if_pos (by simp),
        if_pos hle]
      exact ⟨_, _, rfl, rfl, hempty _, rfl, decrement_eq (by omega) (by omega), rfl⟩
    · left
      rw [if_neg (by simp), if_pos (by simp), if_neg hle, if_neg (by simp), if_pos (by simp),
        if_neg hle]
      exact ⟨rfl, rfl⟩
  · rw [if_pos (by simp), if_pos (by simp)]
    exact Or.inr ⟨_, _, rfl, rfl, hempty _, rfl, decrement_eq (by omega) (by omega),
      decrement_eq (by omega) (by omega)⟩

/-- A list of at least two nodes: the one that is taken has a neighbour. -/
theorem findRelevantIndex_more {x y : Nat × Node} {xs : List (Nat × Node)}
    (h : Shows s (x :: y :: xs) list) (hc : list.Sound) (hlt : list.nodes.length < 2 ^ 40)
    (reqSize : Nat) :
    (Zgdb.findRelevantIndex list reqSize = none ∧ findRelevantIndex s reqSize = some (none, s)) ∨
    ∃ n list' s' l p r, Zgdb.findRelevantIndex list reqSize = some (n, list') ∧
      findRelevantIndex s reqSize = some (some n, s') ∧ x :: y :: xs = l ++ (p, n) :: r ∧
      Shows s' (l ++ r) list' := by
  obtain ⟨heap, head, tail, count, newCount⟩ := s
  obtain ⟨nodes, ic, nc⟩ := list
  obtain ⟨hl, hnodes, hic, hnc⟩ := h
  obtain ⟨h1, h2, h3⟩ := hc
  simp only at hl hnodes hic hnc h1 h2 h3 hlt
  subst hic hnc hnodes
  obtain ⟨ys, u, t, hsplit⟩ : ∃ ys u t, x :: y :: xs = ys ++ [u] ++ [t] := by
    rcases List.eq_nil_or_concat' (y :: xs) with h0 | ⟨zs, t, hzs⟩
    · cases h0
    · rcases List.eq_nil_or_concat' (x :: zs) with h0 | ⟨ws, u, hws⟩
      · cases h0
      · exact ⟨ws, u, t, by rw [hzs, ← List.cons_append, hws]⟩
  have hcount : 1 < count := by
    rw [h1]
    simp
  obtain ⟨hhead, hfront⟩ := hl.unlinkFront
  obtain ⟨htail, hback⟩ := (hsplit ▸ hl).unlinkBack
  obtain ⟨nx, px, hy⟩ := hl.segment.node_mem (x := y) (by simp)
  obtain ⟨nu, pu, hu⟩ := hl.segment.node_mem (x := u) (by rw [hsplit]; simp)
  have hne : ¬ (tail = 0 ∨ head = 0) := by
    rw [hl.head_eq_null, hl.tail_eq_null]
    simp
  have hlast : ((x :: y :: xs).map Prod.snd).getLast? = some t.2 := by
    rw [hsplit]
    simp
  have hdrop : ((x :: y :: xs).map Prod.snd).dropLast = (ys ++ [u]).map Prod.snd := by
    rw [← List.map_dropLast, hsplit, List.dropLast_concat]
  unfold findRelevantIndex Zgdb.findRelevantIndex
  simp only [hlast]
  rw [if_neg (by omega), if_neg (by omega), if_neg (by omega), if_neg (by omega), if_neg hne]
  simp only [htail, hhead, Option.bind_eq_bind, Option.bind_some, List.map_cons, List.head?_cons]
  by_cases hle : t.2.blockSize ≥ reqSize
  · right
    simp only [if_pos hle, DHeap.setPrev, DHeap.setNext, DHeap.free, DHeap.isSome_modify, htail, hu,
      Option.isSome_some, if_true, Option.bind_some]
    refine ⟨t.2, _, _, ys ++ [u], t.1, [], rfl, rfl, hsplit, ?_, ?_, ?_, rfl⟩
    · rw [List.append_nil]
      exact hback
    · rw [List.append_nil]
      exact hdrop
    · exact decrement_eq (by omega) (by rw [h1]; exact hlt)
  rw [if_neg hle, if_neg hle]
  by_cases hz : x.2.blockSize = 0
  · right
    simp only [if_pos hz, DHeap.setPrev, DHeap.setNext, DHeap.free, DHeap.isSome_modify, hhead, hy,
      Option.isSome_some, if_true, Option.bind_some]
    have hnew : 0 < newCount := by
      rw [h2]
      exact List.countP_pos_iff.mpr ⟨x.2, by simp, by simpa using hz⟩
    have hle : newCount ≤ count := by
      rw [h1, h2]
      exact List.countP_le_length
    have hcount' : count < 2 ^ 40 := h1 ▸ hlt
    exact ⟨x.2, _, _, [], x.1, y :: xs, rfl, rfl, rfl, hfront, rfl,
      decrement_eq (by omega) hcount', decrement_eq hnew (by omega)⟩
  · rw [if_neg hz, if_neg hz]
    exact Or.inl ⟨rfl, rfl⟩

/-- **A choice takes the node out** that the list without pointers has chosen, and without a
result nothing has changed. -/
theorem findRelevantIndex_refines (h : Shows s xs list) (hc : list.Sound)
    (hlt : list.nodes.length < 2 ^ 40) (reqSize : Nat) :
    (Zgdb.findRelevantIndex list reqSize = none ∧ findRelevantIndex s reqSize = some (none, s)) ∨
    ∃ n list' s' l p r, Zgdb.findRelevantIndex list reqSize = some (n, list') ∧
      findRelevantIndex s reqSize = some (some n, s') ∧ xs = l ++ (p, n) :: r ∧
      Shows s' (l ++ r) list' := by
  match xs with
  | [] => exact Or.inl (findRelevantIndex_empty h hc reqSize)
  | [x] =>
    rcases findRelevantIndex_one h hc reqSize with h0 | ⟨list', s', h1, h2, h3⟩
    · exact Or.inl h0
    · exact Or.inr ⟨x.2, list', s', [], x.1, [], h1, h2, rfl, h3⟩
  | x :: y :: xs => exact findRelevantIndex_more h hc hlt reqSize

end Choice

end Zgdb.Pointers
