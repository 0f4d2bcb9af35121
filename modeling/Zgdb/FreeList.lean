/-
# The list of free indices

`index/list/freelist.c`.  The list holds the indices a block can still be attached to: NEW ones
with block size 0, and DEAD ones with the size of the block they keep.  `insertNode` puts a node
of size 0 in front and any other node where the sizes stay in order, and `findRelevantIndex`
takes the last node when it is large enough, otherwise a NEW node from the front.

The doubly linked list is a `List` from `head` to `tail`; the two counters are kept beside it, as
the source does.  `Sound` says that they are right and the nodes in order, and
`findRelevantIndex_spec` with `findRelevantIndex_isSome` is all that the allocation code needs to
know.
-/
import Mathlib.Algebra.GroupWithZero.Nat
import Mathlib.Data.List.Perm.Basic
import Mathlib.Data.List.Sort

namespace Zgdb

/-- `node`; `relevantIndexMeta` has the same two fields. -/
structure Node where
  indexOrder : Nat
  blockSize : Nat
deriving DecidableEq, Repr

abbrev RelevantIndexMeta := Node

/-- `freeIndexesList`, the nodes from `head` to `tail` -/
structure FreeIndexesList where
  nodes : List Node
  indexesCount : Nat
  newIndexesCount : Nat
deriving DecidableEq, Repr

def createIndexesList : FreeIndexesList := ⟨[], 0, 0⟩

/-! ## 1. Insertion

NEW nodes go to the front, whatever is there; the others are kept in the order of their sizes, the
largest at the tail. -/

/-- The `while` loop of `insertNode`: in front of the first node that is not smaller.  It never
runs off the list, because `insertNode` enters it only when the tail is larger. -/
def insertScan (newNode : Node) : List Node → List Node
  | [] => [newNode]
  | temp :: rest =>
    if temp.blockSize < newNode.blockSize then temp :: insertScan newNode rest
    else newNode :: temp :: rest

def insertNode (nodes : List Node) (newNode : Node) : List Node :=
  match nodes with
  | [] => [newNode]
  | head :: rest =>
    if newNode.blockSize < head.blockSize ∨ newNode.blockSize = 0 then newNode :: head :: rest
    else if newNode.blockSize ≥ ((head :: rest).getLast (by simp)).blockSize then
      (head :: rest) ++ [newNode]
    else head :: insertScan newNode rest

def insertNewIndex (list : FreeIndexesList) (indexOrder : Nat) : FreeIndexesList where
  nodes := insertNode list.nodes ⟨indexOrder, 0⟩
  newIndexesCount := list.newIndexesCount + 1
  indexesCount := list.indexesCount + 1

def insertDeadIndex (list : FreeIndexesList) (indexOrder blockSize : Nat) : FreeIndexesList where
  nodes := insertNode list.nodes ⟨indexOrder, blockSize⟩
  newIndexesCount := list.newIndexesCount
  indexesCount := list.indexesCount + 1

/-! ## 2. Choice

The cases of the source are kept apart: a list of one NEW node, a list of one DEAD node, and a
longer list.  They differ in how the node is taken out, and in a list of one NEW node nobody looks
at what was asked for. -/

/-- `findRelevantIndex`; `none` is the NULL result, which leaves the list as it was. -/
def findRelevantIndex (list : FreeIndexesList) (reqSize : Nat) :
    Option (RelevantIndexMeta × FreeIndexesList) :=
  if list.indexesCount = 1 ∧ list.newIndexesCount = 1 then
    match list.nodes.head? with
    | none => none
    | some head => some (head, ⟨[], list.indexesCount - 1, list.newIndexesCount - 1⟩)
  else if list.indexesCount = 1 ∧ list.newIndexesCount = 0 then
    match list.nodes.getLast? with
    | none => none
    | some tail =>
      if tail.blockSize ≥ reqSize then some
        (tail, ⟨[], list.indexesCount - 1, list.newIndexesCount⟩)
      else none
  else
    match list.nodes.head?, list.nodes.getLast? with
    | some head, some tail =>
      if tail.blockSize ≥ reqSize then
        some (tail, ⟨list.nodes.dropLast, list.indexesCount - 1, list.newIndexesCount⟩)
      else if head.blockSize = 0 then
        some (head, ⟨list.nodes.tail, list.indexesCount - 1, list.newIndexesCount - 1⟩)
      else none
    | _, _ => none

/-! ## 3. What the operations do to the nodes

An insertion adds one node and a choice takes one; the rest is a permutation.  The counters follow
from it, and with the order of the nodes the head says whether there is a NEW one, and the tail how
large the largest block is. -/

theorem perm_insertScan (n : Node) : ∀ l : List Node, (insertScan n l).Perm (n :: l)
  | [] => List.Perm.refl _
  | x :: l => by
    rw [insertScan]
    split
    · exact ((perm_insertScan n l).cons x).trans (List.Perm.swap _ _ _)
    · exact List.Perm.refl _

/-- An insertion adds the node and moves none. -/
theorem perm_insertNode (l : List Node) (n : Node) : (insertNode l n).Perm (n :: l) := by
  cases l with
  | nil => exact List.Perm.refl _
  | cons x l =>
    rw [insertNode]
    split
    · exact List.Perm.refl _
    · split
      · exact List.perm_append_comm
      · exact ((perm_insertScan n l).cons x).trans (List.Perm.swap _ _ _)

section Sorted

/-- The nodes stand in the order of their sizes, so the NEW ones are in front. -/
def Sorted (l : List Node) : Prop := l.Pairwise fun a b => a.blockSize ≤ b.blockSize

theorem sorted_insertScan {n : Node} {l : List Node} (h : Sorted l) : Sorted (insertScan n l) := by
  induction l with
  | nil => exact List.pairwise_singleton _ _
  | cons x l ih =>
    obtain ⟨hx, hl⟩ := List.pairwise_cons.mp h
    rw [insertScan]
    split
    · rename_i hlt
      refine List.pairwise_cons.mpr ⟨?_, ih hl⟩
      intro y hy
      rcases List.mem_cons.mp ((perm_insertScan n l).mem_iff.mp hy) with rfl | hy
      · omega
      · exact hx y hy
    · rename_i hge
      refine List.pairwise_cons.mpr ⟨?_, h⟩
      intro y hy
      rcases List.mem_cons.mp hy with rfl | hy
      · omega
      · have := hx y hy
        omega

/-- The last node of an ordered list is the largest. -/
theorem Sorted.le_getLast {l : List Node} (h : Sorted l) (hne : l ≠ []) {x : Node} (hx : x ∈ l) :
    x.blockSize ≤ (l.getLast hne).blockSize := by
  rw [← List.dropLast_append_getLast hne] at h hx
  rcases List.mem_append.mp hx with hx | hx
  · exact (List.pairwise_append.mp h).2.2 x hx _ List.mem_cons_self
  · rw [List.mem_singleton.mp hx]

theorem sorted_insertNode {n : Node} {l : List Node} (h : Sorted l) : Sorted (insertNode l n) := by
  cases l with
  | nil => exact List.pairwise_singleton _ _
  | cons x l =>
    obtain ⟨hx, hl⟩ := List.pairwise_cons.mp h
    rw [insertNode]
    split
    · rename_i hlt
      refine List.pairwise_cons.mpr ⟨?_, h⟩
      intro y hy
      rcases List.mem_cons.mp hy with rfl | hy
      · omega
      · have := hx y hy
        omega
    · rename_i hnot
      split
      · rename_i hge
        refine List.pairwise_append.mpr ⟨h, List.pairwise_singleton _ _, ?_⟩
        intro y hy z hz
        rw [List.mem_singleton.mp hz]
        have := h.le_getLast (by simp) hy
        omega
      · refine List.pairwise_cons.mpr ⟨?_, sorted_insertScan hl⟩
        intro y hy
        rcases List.mem_cons.mp ((perm_insertScan n l).mem_iff.mp hy) with rfl | hy
        · omega
        · exact hx y hy

end Sorted

/-- The counters of the list are right, and its nodes are in order: the NEW ones in front, behind
them the others by size.  So the tail is the largest, and the head says whether there is a NEW
one. -/
structure FreeIndexesList.Sound (list : FreeIndexesList) : Prop where
  indexes : list.indexesCount = list.nodes.length
  newIndexes : list.newIndexesCount = list.nodes.countP (·.blockSize = 0)
  sorted : Sorted list.nodes

theorem sound_createIndexesList : createIndexesList.Sound := ⟨rfl, rfl, List.Pairwise.nil⟩

theorem FreeIndexesList.Sound.insertNewIndex {list : FreeIndexesList} (h : list.Sound)
    (k : Nat) : (insertNewIndex list k).Sound := by
  refine ⟨?_, ?_, sorted_insertNode h.sorted⟩
  · simp only [Zgdb.insertNewIndex, (perm_insertNode _ _).length_eq, List.length_cons, h.indexes]
  · simp only [Zgdb.insertNewIndex, (perm_insertNode _ _).countP_eq, List.countP_cons, h.newIndexes,
      decide_true, if_true]

theorem FreeIndexesList.Sound.insertDeadIndex {list : FreeIndexesList} (h : list.Sound)
    (k : Nat) {size : Nat} (hs : 0 < size) : (insertDeadIndex list k size).Sound := by
  have hs' : size ≠ 0 := by omega
  refine ⟨?_, ?_, sorted_insertNode h.sorted⟩
  · simp only [Zgdb.insertDeadIndex, (perm_insertNode _ _).length_eq, List.length_cons, h.indexes]
  · simp [Zgdb.insertDeadIndex, (perm_insertNode _ _).countP_eq, h.newIndexes, hs']

/-- **What an allocation gets**: one node of the list, NEW or at least as large as asked; the
other nodes stay in the list and the counters stay right. -/
theorem findRelevantIndex_spec {list list' : FreeIndexesList} {reqSize : Nat}
    {n : RelevantIndexMeta} (hc : list.Sound) (hreq : 0 < reqSize)
    (h : findRelevantIndex list reqSize = some (n, list')) :
    list.nodes.Perm (n :: list'.nodes) ∧ list'.Sound ∧
      (n.blockSize = 0 ∨ reqSize ≤ n.blockSize) := by
  obtain ⟨nodes, ic, nc⟩ := list
  obtain ⟨h1, h2, h3⟩ := hc
  simp only at h1 h2 h3
  unfold findRelevantIndex at h
  simp only at h
  split at h
  · rename_i h11
    cases nodes with
    | nil => cases h
    | cons x l =>
      simp only [List.head?_cons, Option.some.injEq, Prod.mk.injEq] at h
      obtain ⟨rfl, rfl⟩ := h
      rw [h11.1, List.length_cons] at h1
      obtain rfl : l = [] := List.length_eq_zero_iff.mp (by omega)
      rw [h11.2] at h2
      refine ⟨List.Perm.refl _, ⟨by simp [h11.1], by simp [h11.2], List.Pairwise.nil⟩, Or.inl ?_⟩
      by_contra hne
      simp [hne] at h2
  · split at h
    · rename_i h10
      cases nodes with
      | nil => cases h
      | cons x l =>
        rw [h10.1, List.length_cons] at h1
        obtain rfl : l = [] := List.length_eq_zero_iff.mp (by omega)
        simp only [List.getLast?_singleton] at h
        split at h
        · rename_i hle
          simp only [Option.some.injEq, Prod.mk.injEq] at h
          obtain ⟨rfl, rfl⟩ := h
          exact ⟨List.Perm.refl _, ⟨by simp [h10.1], by simp [h10.2], List.Pairwise.nil⟩,
            Or.inr hle⟩
        · cases h
    · cases nodes with
      | nil => cases h
      | cons x l =>
        have hlast : (x :: l).getLast? = some ((x :: l).getLast (by simp)) :=
          List.getLast?_eq_getLast_of_ne_nil _
        rw [List.head?_cons, hlast] at h
        simp only at h
        split at h
        · rename_i hle
          simp only [Option.some.injEq, Prod.mk.injEq] at h
          obtain ⟨rfl, rfl⟩ := h
          have hsplit : (x :: l).dropLast ++ [(x :: l).getLast (by simp)] = x :: l :=
            List.dropLast_append_getLast (by simp)
          have hperm : (x :: l).Perm ((x :: l).getLast (by simp) :: (x :: l).dropLast) := by
            conv_lhs => rw [← hsplit]
            exact List.perm_append_comm
          refine ⟨hperm, ⟨?_, ?_, h3.sublist (List.dropLast_sublist _)⟩, Or.inr hle⟩
          · simp only [h1, List.length_dropLast]
          · have hne : ¬ ((x :: l).getLast (by simp)).blockSize = 0 := by omega
            exact h2.trans ((hperm.countP_eq _).trans
              (List.countP_cons_of_neg (by simpa only [decide_eq_true_eq] using hne)))
        · split at h
          · rename_i hz
            simp only [Option.some.injEq, Prod.mk.injEq] at h
            obtain ⟨rfl, rfl⟩ := h
            refine ⟨List.Perm.refl _, ⟨by simp [h1], ?_, (List.pairwise_cons.mp h3).2⟩, Or.inl hz⟩
            simp only [h2, List.countP_cons, hz, decide_true, if_true, List.tail_cons]
            omega
          · cases h

/-- An allocation that a node would do for gets the largest. -/
theorem findRelevantIndex_largest {list list' : FreeIndexesList} {reqSize : Nat}
    {n x : RelevantIndexMeta} (hc : list.Sound)
    (h : findRelevantIndex list reqSize = some (n, list'))
    (hx : x ∈ list.nodes) (hle : reqSize ≤ x.blockSize) :
    ∀ y ∈ list.nodes, y.blockSize ≤ n.blockSize := by
  obtain ⟨nodes, ic, nc⟩ := list
  obtain ⟨h1, -, h3⟩ := hc
  simp only at h1 h3 hx
  cases nodes with
  | nil => cases hx
  | cons z l =>
    have hlast : (z :: l).getLast? = some ((z :: l).getLast (by simp)) :=
      List.getLast?_eq_getLast_of_ne_nil _
    have hmax : ∀ y ∈ z :: l, y.blockSize ≤ ((z :: l).getLast (by simp)).blockSize := fun y hy =>
      h3.le_getLast (by simp) hy
    have hone : ic = 1 → (z :: l).getLast (by simp) = z := by
      intro hic
      rw [hic, List.length_cons] at h1
      obtain rfl : l = [] := List.length_eq_zero_iff.mp (by omega)
      rfl
    have hfits := hle.trans (hmax x hx)
    have hn : n = (z :: l).getLast (by simp) := by
      unfold findRelevantIndex at h
      simp only [List.head?_cons, hlast, ge_iff_le, hfits, if_true] at h
      split at h
      · rename_i h11
        simp only [Option.some.injEq, Prod.mk.injEq] at h
        rw [hone h11.1, ← h.1]
      · split at h <;>
        · simp only [Option.some.injEq, Prod.mk.injEq] at h
          exact h.1.symm
    rw [hn]
    exact hmax

/-- An empty list has no index. -/
theorem findRelevantIndex_nil {list : FreeIndexesList} (h : list.nodes = []) (reqSize : Nat) :
    findRelevantIndex list reqSize = none := by
  unfold findRelevantIndex
  rw [h]
  simp

/-- A NEW node in front will do for any request. -/
theorem findRelevantIndex_isSome_of_head {list : FreeIndexesList} {x : Node} {l : List Node}
    (hl : list.nodes = x :: l) (hx : x.blockSize = 0) (hnew : 0 < list.newIndexesCount)
    (reqSize : Nat) : ∃ r, findRelevantIndex list reqSize = some r := by
  have hlast : (x :: l).getLast? = some ((x :: l).getLast (by simp)) :=
    List.getLast?_eq_getLast_of_ne_nil _
  unfold findRelevantIndex
  simp only [hl, List.head?_cons, hlast, hx, if_true]
  split
  · exact ⟨_, rfl⟩
  · rw [if_neg (by omega)]
    split <;> exact ⟨_, rfl⟩

/-- The NEW nodes stand in front. -/
theorem Sorted.eq_cons {l : List Node} (h : Sorted l) (hnew : 0 < l.countP (·.blockSize = 0)) :
    ∃ x l', l = x :: l' ∧ x.blockSize = 0 ∧ Sorted l' ∧
      l.countP (·.blockSize = 0) = l'.countP (·.blockSize = 0) + 1 := by
  cases l with
  | nil => cases hnew
  | cons x l =>
    obtain ⟨hle, hs⟩ := List.pairwise_cons.mp h
    have hx : x.blockSize = 0 := by
      obtain ⟨y, hy, hz⟩ := List.countP_pos_iff.mp hnew
      have hz' : y.blockSize = 0 := by simpa using hz
      rcases List.mem_cons.mp hy with rfl | hy
      · exact hz'
      · have := hle y hy
        omega
    exact ⟨x, l, rfl, hx, hs, List.countP_cons_of_pos (by simpa using hx)⟩

/-- **An allocation gets an index** as long as there is a NEW one. -/
theorem findRelevantIndex_isSome {list : FreeIndexesList} (h : list.Sound)
    (hnew : 0 < list.newIndexesCount) (reqSize : Nat) :
    ∃ r, findRelevantIndex list reqSize = some r := by
  obtain ⟨x, l, hl, hx, -⟩ := h.sorted.eq_cons (h.newIndexes ▸ hnew)
  exact findRelevantIndex_isSome_of_head hl hx hnew reqSize

/-- **Two NEW indices serve two requests**, whatever is asked for. -/
theorem findRelevantIndex_twice {list : FreeIndexesList} (h : list.Sound)
    (hnew : 2 ≤ list.newIndexesCount) (reqSize reqSize' : Nat) :
    ∃ n list', findRelevantIndex list reqSize = some (n, list') ∧
      ∃ r, findRelevantIndex list' reqSize' = some r := by
  obtain ⟨nodes, ic, nc⟩ := list
  obtain ⟨h1, h2, h3⟩ := h
  simp only at h1 h2 h3 hnew
  obtain ⟨x, l, rfl, hx, hs, hcount⟩ := h3.eq_cons (by omega)
  obtain ⟨y, l, rfl, hy, -⟩ := hs.eq_cons (by omega)
  have hlast : (x :: y :: l).getLast? = some ((x :: y :: l).getLast (by simp)) :=
    List.getLast?_eq_getLast_of_ne_nil _
  simp only [List.length_cons] at h1
  unfold findRelevantIndex
  simp only [if_neg (by omega : ¬ (ic = 1 ∧ nc = 1)), if_neg (by omega : ¬ (ic = 1 ∧ nc = 0)),
    List.head?_cons, hlast, hx, if_true]
  split
  · -- the last node goes, and the first one stays
    exact ⟨_, _, rfl, findRelevantIndex_isSome_of_head (List.dropLast_cons_cons ..) hx
      (Nat.lt_of_lt_of_le (by decide) hnew) reqSize'⟩
  · exact ⟨_, _, rfl, findRelevantIndex_isSome_of_head rfl hy (Nat.le_sub_of_add_le hnew) reqSize'⟩

/-- An allocation gets an index as long as a node is large enough. -/
theorem findRelevantIndex_isSome_of_le {list : FreeIndexesList} (h : list.Sound) {reqSize : Nat}
    {x : Node} (hx : x ∈ list.nodes) (hle : reqSize ≤ x.blockSize) :
    ∃ r, findRelevantIndex list reqSize = some r := by
  obtain ⟨nodes, ic, nc⟩ := list
  obtain ⟨-, -, h3⟩ := h
  simp only at h3 hx
  cases nodes with
  | nil => cases hx
  | cons z l =>
    have hlast : (z :: l).getLast? = some ((z :: l).getLast (by simp)) :=
      List.getLast?_eq_getLast_of_ne_nil _
    have hfits := hle.trans (h3.le_getLast (by simp) hx)
    unfold findRelevantIndex
    simp only [List.head?_cons, hlast, ge_iff_le, hfits, if_true]
    split
    · exact ⟨_, rfl⟩
    · split <;> exact ⟨_, rfl⟩

/-- **The one largest node is taken.** -/
theorem findRelevantIndex_perm {list : FreeIndexesList} (h : list.Sound) {n : Node}
    {rest : List Node} (hp : list.nodes.Perm (n :: rest))
    (hrest : ∀ m ∈ rest, m = n ∨ m.blockSize < n.blockSize) {reqSize : Nat} (hreq : 0 < reqSize)
    (hle : reqSize ≤ n.blockSize) :
    ∃ list', findRelevantIndex list reqSize = some (n, list') ∧ list'.nodes.Perm rest ∧
      list'.Sound := by
  have hn : n ∈ list.nodes := hp.mem_iff.mpr List.mem_cons_self
  obtain ⟨⟨m, list'⟩, hr⟩ := findRelevantIndex_isSome_of_le h hn hle
  obtain ⟨hperm, hsound, -⟩ := findRelevantIndex_spec h hreq hr
  have hlarge : n.blockSize ≤ m.blockSize := findRelevantIndex_largest h hr hn hle n hn
  have hmn : m = n := by
    have hm : m ∈ n :: rest := hp.mem_iff.mp (hperm.mem_iff.mpr List.mem_cons_self)
    rcases List.mem_cons.mp hm with rfl | hm
    · rfl
    · rcases hrest m hm with rfl | hlt
      · rfl
      · omega
  subst hmn
  exact ⟨list', hr, (hperm.symm.trans hp).cons_inv, hsound⟩

/-- **The choice**: the largest node if it is large enough, otherwise a NEW one, otherwise none. -/
theorem findRelevantIndex_choice {list : FreeIndexesList} (h : list.Sound) {reqSize : Nat}
    (hreq : 0 < reqSize) :
    (∃ n list', findRelevantIndex list reqSize = some (n, list') ∧ reqSize ≤ n.blockSize ∧
      ∀ y ∈ list.nodes, y.blockSize ≤ n.blockSize) ∨
    (∀ y ∈ list.nodes, y.blockSize < reqSize) ∧
      ((∃ n list', findRelevantIndex list reqSize = some (n, list') ∧ n.blockSize = 0) ∨
        findRelevantIndex list reqSize = none ∧ ∀ y ∈ list.nodes, y.blockSize ≠ 0) := by
  by_cases hfit : ∃ x ∈ list.nodes, reqSize ≤ x.blockSize
  · obtain ⟨x, hx, hle⟩ := hfit
    obtain ⟨⟨n, list'⟩, hr⟩ := findRelevantIndex_isSome_of_le h hx hle
    have hmax := findRelevantIndex_largest h hr hx hle
    exact Or.inl ⟨n, list', hr, hle.trans (hmax x hx), hmax⟩
  · have hsmall : ∀ y ∈ list.nodes, y.blockSize < reqSize := by
      intro y hy
      by_contra hge
      exact hfit ⟨y, hy, by omega⟩
    refine Or.inr ⟨hsmall, ?_⟩
    cases hr : findRelevantIndex list reqSize with
    | some r =>
      obtain ⟨n, list'⟩ := r
      obtain ⟨hp, -, hz | hle⟩ := findRelevantIndex_spec h hreq hr
      · exact Or.inl ⟨n, list', rfl, hz⟩
      · have := hsmall n (hp.mem_iff.mpr List.mem_cons_self)
        omega
    | none =>
      refine Or.inr ⟨rfl, ?_⟩
      intro y hy hz
      have hnew : 0 < list.newIndexesCount := by
        rw [h.newIndexes]
        exact List.countP_pos_iff.mpr ⟨y, hy, by simpa using hz⟩
      obtain ⟨r, hr'⟩ := findRelevantIndex_isSome h hnew reqSize
      rw [hr] at hr'
      cases hr'

/-- An allocation takes at most one NEW index. -/
theorem newIndexesCount_le {list list' : FreeIndexesList} {n : Node} (h : list.Sound)
    (h' : list'.Sound) (hp : list.nodes.Perm (n :: list'.nodes)) :
    list.newIndexesCount ≤ list'.newIndexesCount + 1 := by
  rw [h.newIndexes, h'.newIndexes, hp.countP_eq, List.countP_cons]
  split <;> omega

end Zgdb
