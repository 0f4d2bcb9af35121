/-
# Runs of the free list

Any sequence of `insertNewIndex`, `insertDeadIndex` and `findRelevantIndex` on an empty list, with
the node that each has inserted or returned written down (`Ledger`).  The caller promises sizes
other than 0 and fewer than `2 ^ 40` nodes (`Permitted`), the rest is the list's own.

In every state of such a run the nodes are linked in both directions, in order, and counted; what is
in the list and what has been returned is what has been inserted; and every further operation
returns (`run_represented`).  A request gets the largest node that fits, or a NEW one, and takes no
other node out (`run_choice`).
-/
import Mathlib.Data.List.Induction
import Zgdb.ListNodes
import Zgdb.Lib.Run

namespace Zgdb.Pointers

open Zgdb.Lib

/-! ## 1. The machine

The list with an account of it: what has been inserted and what has been given out, each as a
multiset in a list. -/

inductive Operation where
  | insertNewIndex (indexOrder : Nat)
  | insertDeadIndex (indexOrder blockSize : Nat)
  | findRelevantIndex (reqSize : Nat)

/-- A list, with the nodes that have been inserted, an order in its 40 bits, and those that have
been returned.  The two lists of nodes are kept for the balance alone; no operation looks at
them. -/
structure Ledger where
  list : FreeIndexesList
  inserted : List Node
  returned : List Node

def Ledger.initial : Ledger := ⟨createIndexesList, [], []⟩

def Ledger.step (t : Ledger) : Operation → Option Ledger
  | .insertNewIndex indexOrder =>
    (insertNewIndex t.list indexOrder).map fun list =>
      { t with list := list, inserted := ⟨field40 indexOrder, 0⟩ :: t.inserted }
  | .insertDeadIndex indexOrder blockSize =>
    (insertDeadIndex t.list indexOrder blockSize).map fun list =>
      { t with list := list, inserted := ⟨field40 indexOrder, blockSize⟩ :: t.inserted }
  | .findRelevantIndex reqSize =>
    (findRelevantIndex t.list reqSize).map fun r =>
      { t with list := r.2, returned := r.1.toList ++ t.returned }

/-- What the caller promises.  An index is inserted as DEAD with the size of a block, which is not
0, and a request asks for some bytes.  The bound on the nodes is that of the counters of the source,
which have 40 bits. -/
def Permitted (t : Ledger) : Operation → Prop
  | .insertNewIndex _ => t.inserted.length + 1 < t.returned.length + 2 ^ 40
  | .insertDeadIndex _ blockSize =>
    0 < blockSize ∧ t.inserted.length + 1 < t.returned.length + 2 ^ 40
  | .findRelevantIndex reqSize => 0 < reqSize

/-! ## 2. The invariant

What is in the list and what was given out is what was inserted, and the list is in order. -/

/-- The nodes of the list are those of a list without pointers that is in order, and nothing has
been lost: what was inserted is what is in the list and what was returned, each as often as it was
inserted. -/
structure Balanced (t : Ledger) (xs : List (Nat × Node)) (list : Zgdb.FreeIndexesList) : Prop where
  shows : Shows t.list xs list
  sound : list.Sound
  few : list.nodes.length < 2 ^ 40
  perm : t.inserted.Perm (list.nodes ++ t.returned)

theorem balanced_initial : Balanced Ledger.initial [] Zgdb.createIndexesList :=
  ⟨shows_createIndexesList, sound_createIndexesList, by decide, List.Perm.nil⟩

section Steps

variable {t : Ledger} {xs : List (Nat × Node)} {list : Zgdb.FreeIndexesList}

/-- There is room for one more node. -/
theorem Balanced.room (h : Balanced t xs list)
    (hlt : t.inserted.length + 1 < t.returned.length + 2 ^ 40) :
    list.nodes.length + 1 < 2 ^ 40 := by
  have hlen := h.perm.length_eq
  rw [List.length_append] at hlen
  omega

/-- An insertion adds its node to either side. -/
theorem perm_insertNode_append {inserted nodes returned : List Node} {n : Node}
    (h : inserted.Perm (nodes ++ returned)) :
    (n :: inserted).Perm (Zgdb.insertNode nodes n ++ returned) :=
  (h.cons n).trans ((perm_insertNode nodes n).symm.append_right returned)

/-- **What a permitted operation does**: it returns, and the ledger stays balanced. -/
theorem Balanced.step (h : Balanced t xs list) {op : Operation} (hop : Permitted t op) :
    ∃ t' ys list', t.step op = some t' ∧ Balanced t' ys list' := by
  cases op with
  | insertNewIndex k =>
    obtain ⟨s', ys, hrun, hys⟩ := insertNewIndex_refines h.shows h.sound (h.room hop) k
    refine ⟨_, ys, _, by rw [Ledger.step, hrun]; rfl, hys, h.sound.insertNewIndex _, ?_,
      perm_insertNode_append h.perm⟩
    rw [Zgdb.insertNewIndex, (perm_insertNode _ _).length_eq]
    exact h.room hop
  | insertDeadIndex k size =>
    obtain ⟨hsize, hlt⟩ := hop
    obtain ⟨s', ys, hrun, hys⟩ := insertDeadIndex_refines h.shows h.sound (h.room hlt) k size
    refine ⟨_, ys, _, by rw [Ledger.step, hrun]; rfl, hys, h.sound.insertDeadIndex _ hsize, ?_,
      perm_insertNode_append h.perm⟩
    rw [Zgdb.insertDeadIndex, (perm_insertNode _ _).length_eq]
    exact h.room hlt
  | findRelevantIndex reqSize =>
    rcases findRelevantIndex_refines h.shows h.sound h.few reqSize with
      ⟨-, hrun⟩ | ⟨n, list', s', l, p, r, hlist, hrun, -, hys⟩
    · exact ⟨_, xs, list, by rw [Ledger.step, hrun]; rfl, h.shows, h.sound, h.few, h.perm⟩
    · obtain ⟨hp, hsound, -⟩ := findRelevantIndex_spec h.sound hop hlist
      refine ⟨_, l ++ r, list', by rw [Ledger.step, hrun]; rfl, hys, hsound, ?_, ?_⟩
      · have hlen := hp.length_eq
        have hfew := h.few
        rw [List.length_cons] at hlen
        omega
      · exact h.perm.trans ((hp.append_right _).trans List.perm_middle.symm)

end Steps

/-- **Every run keeps the ledger balanced.** -/
theorem run_balanced {ops : List Operation} {t : Ledger}
    (h : Run Ledger.step Permitted Ledger.initial ops t) : ∃ xs list, Balanced t xs list := by
  refine h.inv (I := fun t => ∃ xs list, Balanced t xs list) ⟨[], _, balanced_initial⟩ ?_
  rintro s op u ⟨xs, list, hs⟩ hop hu
  obtain ⟨u', ys, list', hu', hb⟩ := hs.step hop
  rw [hu] at hu'
  cases hu'
  exact ⟨ys, list', hb⟩

/-! ## 3. The list on its heap

The same run with pointers.  No access fails, and the heap shows the list in both directions. -/

/-- `nodes` are the nodes of the list, at the pointers `ptrs`: either end is NULL exactly if there
are none, the two chains are finite and each the reverse of the other, and the sizes are in order
and the counters right. -/
structure Represents (s : FreeIndexesList) (ptrs : List Nat) (nodes : List Node) : Prop where
  ends : s.head = 0 ∧ s.tail = 0 ∧ nodes = [] ∨ s.head ≠ 0 ∧ s.tail ≠ 0 ∧ nodes ≠ []
  next : Follows (nextOf s.heap) s.head ptrs 0
  prev : Follows (prevOf s.heap) s.tail ptrs.reverse 0
  distinct : ptrs.Nodup
  data : ptrs.map (dataOf s.heap) = nodes.map some
  sorted : nodes.Pairwise fun a b => a.blockSize ≤ b.blockSize
  indexes : s.indexesCount = nodes.length
  newIndexes : s.newIndexesCount = nodes.countP (·.blockSize = 0)

theorem Shows.represents {s : FreeIndexesList} {xs : List (Nat × Node)}
    {list : Zgdb.FreeIndexesList} (h : Shows s xs list) (hc : list.Sound) :
    Represents s (xs.map Prod.fst) list.nodes where
  ends := by
    rcases List.eq_nil_or_concat' xs with rfl | ⟨ys, y, hxs⟩
    · exact Or.inl ⟨h.dlist.head_eq_null.mpr rfl, h.dlist.tail_eq_null.mpr rfl, h.nodes⟩
    · have hne : xs ≠ [] := by
        rw [hxs]
        simp
      refine Or.inr ⟨fun h0 => hne (h.dlist.head_eq_null.mp h0),
        fun h0 => hne (h.dlist.tail_eq_null.mp h0), ?_⟩
      rw [h.nodes]
      simpa using hne
  next := h.dlist.next_chain
  prev := h.dlist.prev_chain
  distinct := h.dlist.nodup
  data := by rw [h.dlist.segment.data, h.nodes]
  sorted := hc.sorted
  indexes := h.indexes.trans hc.indexes
  newIndexes := h.newIndexes.trans hc.newIndexes

/-- **The free list in every state of a run** is what its pointers and counters say, holds what has
been inserted and not returned, and takes any further operation. -/
theorem run_represented {ops : List Operation} {t : Ledger}
    (h : Run Ledger.step Permitted Ledger.initial ops t) :
    ∃ ptrs nodes, Represents t.list ptrs nodes ∧ t.inserted.Perm (nodes ++ t.returned) ∧
      ∀ op, Permitted t op → ∃ u, t.step op = some u := by
  obtain ⟨xs, list, hb⟩ := run_balanced h
  refine ⟨xs.map Prod.fst, list.nodes, hb.shows.represents hb.sound, hb.perm, ?_⟩
  intro op hop
  obtain ⟨u, -, -, hu, -⟩ := hb.step hop
  exact ⟨u, hu⟩

/-- The sizes of an operation are not 0. -/
def Operation.Sized : Operation → Prop
  | .insertNewIndex _ => True
  | .insertDeadIndex _ blockSize => 0 < blockSize
  | .findRelevantIndex reqSize => 0 < reqSize

/-- Every sequence of operations that is short enough is a run. -/
theorem exists_run (ops : List Operation) (hsized : ∀ op ∈ ops, op.Sized)
    (hlen : ops.length < 2 ^ 40) :
    ∃ t, Run Ledger.step Permitted Ledger.initial ops t ∧ t.inserted.length ≤ ops.length := by
  induction ops using List.reverseRecOn with
  | nil => exact ⟨_, Run.nil _, le_refl _⟩
  | append_singleton ops op ih =>
    rw [List.length_append, List.length_singleton] at hlen
    obtain ⟨t, hrun, hle⟩ := ih (fun o ho => hsized o (List.mem_append_left _ ho)) (by omega)
    have hop : Permitted t op := by
      have hpos := hsized op (by simp)
      cases op with
      | insertNewIndex k => exact show t.inserted.length + 1 < t.returned.length + 2 ^ 40 by omega
      | insertDeadIndex k size => exact ⟨hpos, by omega⟩
      | findRelevantIndex reqSize => exact hpos
    obtain ⟨xs, list, hb⟩ := run_balanced hrun
    obtain ⟨u, -, -, hu, -⟩ := hb.step hop
    refine ⟨u, hrun.snoc hop hu, ?_⟩
    rw [List.length_append, List.length_singleton]
    cases op with
    | insertNewIndex k =>
      obtain ⟨s', -, rfl⟩ := Option.map_eq_some_iff.mp hu
      exact Nat.succ_le_succ hle
    | insertDeadIndex k size =>
      obtain ⟨s', -, rfl⟩ := Option.map_eq_some_iff.mp hu
      exact Nat.succ_le_succ hle
    | findRelevantIndex reqSize =>
      obtain ⟨r, -, rfl⟩ := Option.map_eq_some_iff.mp hu
      exact Nat.le_succ_of_le hle

/-- Insertions at both ends and in the middle, and three requests: one that a DEAD index is large
enough for, and two for more than any of them has. -/
def sampleOperations : List Operation :=
  [.insertDeadIndex 5 64, .insertDeadIndex 12 64, .insertNewIndex 1, .insertDeadIndex 7 80,
    .insertDeadIndex 9 70, .findRelevantIndex 56, .findRelevantIndex 345, .findRelevantIndex 345]

theorem sample_run : ∃ t, Run Ledger.step Permitted Ledger.initial sampleOperations t := by
  obtain ⟨t, h, -⟩ := exists_run sampleOperations
    (by simp [sampleOperations, Operation.Sized]) (by simp [sampleOperations])
  exact ⟨t, h⟩

theorem sample_represented : ∃ t, Run Ledger.step Permitted Ledger.initial sampleOperations t ∧
    ∃ ptrs nodes, Represents t.list ptrs nodes ∧ t.inserted.Perm (nodes ++ t.returned) ∧
      ∀ op, Permitted t op → ∃ u, t.step op = some u := by
  obtain ⟨t, h⟩ := sample_run
  exact ⟨t, h, run_represented h⟩

/-! ## 4. The choice

Three cases of a request: the largest DEAD node fits, it does not and there is a NEW one, or there
is none. -/

/-- `s'` is the list without the node `n`; the others are where they were. -/
def TakesOut (s' : FreeIndexesList) (ptrs : List Nat) (nodes : List Node) (n : Node) : Prop :=
  ∃ ps p qs l r, ptrs = ps ++ p :: qs ∧ nodes = l ++ n :: r ∧ ps.length = l.length ∧
    Represents s' (ps ++ qs) (l ++ r)

/-- What a request gets of the nodes of a list: the largest node when it is large enough, otherwise
a NEW one, otherwise NULL and the list as it was. -/
structure Chooses (s : FreeIndexesList) (ptrs : List Nat) (nodes : List Node) (reqSize : Nat) :
    Prop where
  dead : (∃ x ∈ nodes, reqSize ≤ x.blockSize) → ∃ n s',
    findRelevantIndex s reqSize = some (some n, s') ∧ reqSize ≤ n.blockSize ∧
      (∀ x ∈ nodes, x.blockSize ≤ n.blockSize) ∧ TakesOut s' ptrs nodes n
  new : (∀ x ∈ nodes, x.blockSize < reqSize) → (∃ x ∈ nodes, x.blockSize = 0) → ∃ n s',
    findRelevantIndex s reqSize = some (some n, s') ∧ n.blockSize = 0 ∧ TakesOut s' ptrs nodes n
  null : (∀ x ∈ nodes, x.blockSize < reqSize) → (∀ x ∈ nodes, x.blockSize ≠ 0) →
    findRelevantIndex s reqSize = some (none, s)

theorem Balanced.chooses {t : Ledger} {xs : List (Nat × Node)} {list : Zgdb.FreeIndexesList}
    (h : Balanced t xs list) {reqSize : Nat} (hreq : 0 < reqSize) :
    Chooses t.list (xs.map Prod.fst) list.nodes reqSize := by
  have htakes : ∀ n list', Zgdb.findRelevantIndex list reqSize = some (n, list') →
      ∃ s', findRelevantIndex t.list reqSize = some (some n, s') ∧
        TakesOut s' (xs.map Prod.fst) list.nodes n := by
    intro n list' hlist
    rcases findRelevantIndex_refines h.shows h.sound h.few reqSize with
      ⟨hnone, -⟩ | ⟨n', list'', s', l, p, r, hlist', hrun, hxs, hys⟩
    · rw [hlist] at hnone
      cases hnone
    · rw [hlist] at hlist'
      cases hlist'
      obtain ⟨-, hsound, -⟩ := findRelevantIndex_spec h.sound hreq hlist
      have hrep := hys.represents hsound
      rw [hys.nodes, List.map_append, List.map_append] at hrep
      refine ⟨s', hrun, l.map Prod.fst, p, r.map Prod.fst, l.map Prod.snd,
        r.map Prod.snd, ?_, ?_, ?_,
        hrep⟩
      · rw [hxs, List.map_append, List.map_cons]
      · rw [h.shows.nodes, hxs, List.map_append, List.map_cons]
      · rw [List.length_map, List.length_map]
  rcases findRelevantIndex_choice h.sound hreq with
    ⟨n, list', hlist, hle, hmax⟩ | ⟨hsmall, ⟨n, list', hlist, hz⟩ | ⟨hnone, hnew⟩⟩
  · obtain ⟨s', hrun, htake⟩ := htakes n list' hlist
    obtain ⟨hp, -, -⟩ := findRelevantIndex_spec h.sound hreq hlist
    have hmem : n ∈ list.nodes := hp.mem_iff.mpr List.mem_cons_self
    refine ⟨fun _ => ⟨n, s', hrun, hle, hmax, htake⟩, ?_, ?_⟩
    · intro hsmall
      exact absurd (hsmall n hmem) (by omega)
    · intro hsmall
      exact absurd (hsmall n hmem) (by omega)
  · obtain ⟨s', hrun, htake⟩ := htakes n list' hlist
    obtain ⟨hp, -, -⟩ := findRelevantIndex_spec h.sound hreq hlist
    have hmem : n ∈ list.nodes := hp.mem_iff.mpr List.mem_cons_self
    refine ⟨?_, fun _ _ => ⟨n, s', hrun, hz, htake⟩, fun _ hnew => absurd hz (hnew n hmem)⟩
    rintro ⟨x, hx, hle⟩
    exact absurd (hsmall x hx) (by omega)
  · refine ⟨?_, ?_, ?_⟩
    · rintro ⟨x, hx, hle⟩
      exact absurd (hsmall x hx) (by omega)
    · rintro - ⟨x, hx, hz⟩
      exact absurd hz (hnew x hx)
    · intro _ _
      rcases findRelevantIndex_refines h.shows h.sound h.few reqSize with
        ⟨-, hrun⟩ | ⟨n, list', -, -, -, -, hlist, -⟩
      · exact hrun
      · rw [hnone] at hlist
        cases hlist

/-- **What a request gets in every state of a run.** The largest DEAD node when it is large enough,
else a NEW one, else nothing; the node that is taken is unlinked, and the pointers, the counters and
all other nodes are as before.  The three cases exclude each other and there is no fourth. -/
theorem run_chooses {ops : List Operation} {t : Ledger}
    (h : Run Ledger.step Permitted Ledger.initial ops t) {reqSize : Nat} (hreq : 0 < reqSize) :
    ∃ ptrs nodes, Represents t.list ptrs nodes ∧ Chooses t.list ptrs nodes reqSize := by
  obtain ⟨xs, list, hb⟩ := run_balanced h
  exact ⟨_, _, hb.shows.represents hb.sound, hb.chooses hreq⟩

theorem sample_chooses : ∃ t, Run Ledger.step Permitted Ledger.initial sampleOperations t ∧
    ∃ ptrs nodes, Represents t.list ptrs nodes ∧ Chooses t.list ptrs nodes 64 := by
  obtain ⟨t, h⟩ := sample_run
  exact ⟨t, h, run_chooses h (by decide)⟩

end Zgdb.Pointers
