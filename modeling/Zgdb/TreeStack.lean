/-
# The iterator on its stack

`data/treestack/treestack.c`, the array that the document iterator of `data/iterator/dociterator.c`
keeps its pending sons in, and the iterator on it.  `none` stands for an access outside the array,
and for a place that is read before it was written.

A stack that shows a list stays one (`TreeStack.Shows.push`, `TreeStack.Shows.pop`), so the iterator
does what the one of `Document.lean` does, and it visits a forest in the order of the walk
(`visitAll_eq`): every document once, each with its stored header, its parent and its depth, and the
sibling chain before anything below it (`docIterator_visits`).
-/
import Zgdb.First

namespace Zgdb.Stacked

open Zgdb.Lib AddrSpace

/-! ## 1. The stack

The array grows by a factor when it is full.  What it shows is the list of the entries below the
top, whatever lies above. -/

/-- `INIT_SIZE` -/
def initSize : Nat := 20

/-- `MULTIPLIER` -/
def multiplier : Nat := 2

/-- `treeStack`; `none` is a place of the array that was not written yet.  The array doubles when it
is full, so that a push always succeeds as long as there is memory. -/
structure TreeStack where
  data : List (Option NodeEntry)
  size : Nat
  top : Nat

def createStack : TreeStack := ⟨List.replicate initSize none, initSize, 0⟩

/-- `resize`: `realloc` keeps what is in the array. -/
def resize (stack : TreeStack) : TreeStack :=
  let size := stack.size * multiplier
  { stack with
    size := size
    data := stack.data.take size ++ List.replicate (size - stack.data.length) none }

def push (stack : TreeStack) (value : NodeEntry) : Option TreeStack :=
  let stack := if stack.top ≥ stack.size then resize stack else stack
  if stack.top < stack.data.length then
    some { stack with data := stack.data.set stack.top (some value), top := stack.top + 1 }
  else none

/-- `pop`; the inner `none` is the NULL result. -/
def pop (stack : TreeStack) : Option (Option NodeEntry × TreeStack) :=
  if stack.top = 0 then some (none, stack)
  else do
    let entry ← (stack.data[stack.top - 1]?).join
    return (some entry, { stack with top := stack.top - 1 })

/-- `peek`; the inner `none` is the NULL result. -/
def peek (stack : TreeStack) : Option (Option NodeEntry) :=
  if stack.top = 0 then some none else (stack.data[stack.top - 1]?).join.map some

/-- The places in use show the entries, with the top in front. -/
structure TreeStack.Shows (stack : TreeStack) (entries : List NodeEntry) : Prop where
  size : stack.size = stack.data.length
  size_pos : 0 < stack.size
  top : stack.top = entries.length
  places : entries.reverse.map some <+: stack.data

section Stack

variable {stack : TreeStack} {entries : List NodeEntry}

theorem shows_createStack : createStack.Shows [] :=
  ⟨rfl, by decide, rfl, List.nil_prefix⟩

/-- The array is at least as long as what it shows. -/
theorem TreeStack.Shows.top_le (h : stack.Shows entries) : stack.top ≤ stack.size := by
  have hle := h.places.length_le
  rw [List.length_map, List.length_reverse] at hle
  rw [h.top, h.size]
  exact hle

theorem TreeStack.Shows.resize (h : stack.Shows entries) : (resize stack).Shows entries := by
  obtain ⟨rest, hrest⟩ := h.places
  have hsize := h.size
  have hpos := h.size_pos
  have hmul : stack.size * multiplier = stack.size + stack.size := Nat.mul_two _
  refine ⟨?_, ?_, h.top, ?_⟩
  · simp only [Stacked.resize, List.length_append, List.length_take, List.length_replicate]
    omega
  · simp only [Stacked.resize]
    omega
  · have htake : stack.data.take (stack.size * multiplier) = stack.data :=
      List.take_of_length_le (by omega)
    simp only [Stacked.resize, htake]
    exact h.places.trans (List.prefix_append _ _)

/-- **A push puts its entry on top**, in an array that is made larger when it is full. -/
theorem TreeStack.Shows.push (h : stack.Shows entries) (value : NodeEntry) :
    ∃ stack', push stack value = some stack' ∧ stack'.Shows (value :: entries) := by
  have hroom : ∃ stack1 : TreeStack,
      (if stack.top ≥ stack.size then Stacked.resize stack else stack)
      = stack1 ∧ stack1.Shows entries ∧ stack1.top < stack1.size := by
    by_cases hfull : stack.top ≥ stack.size
    · refine ⟨_, if_pos hfull, h.resize, ?_⟩
      have hle := h.top_le
      have hpos := h.size_pos
      have hmul : stack.size * multiplier = stack.size + stack.size := Nat.mul_two _
      simp only [Stacked.resize]
      omega
    · exact ⟨_, if_neg hfull, h, by omega⟩
  obtain ⟨stack1, he, h1, hlt⟩ := hroom
  obtain ⟨rest, hrest⟩ := h1.places
  have hlt' : stack1.top < stack1.data.length := h1.size ▸ hlt
  refine ⟨{ stack1 with data := stack1.data.set stack1.top (some value), top := stack1.top + 1 },
    ?_, ?_⟩
  · simp only [Stacked.push, he, if_pos hlt']
  · refine ⟨?_, h1.size_pos, ?_, ?_⟩
    · rw [List.length_set]
      exact h1.size
    · rw [List.length_cons]
      exact congrArg (· + 1) h1.top
    · -- the entry is written behind the places in use
      have hlen : (entries.reverse.map some).length = stack1.top := by
        rw [List.length_map, List.length_reverse, h1.top]
      cases rest with
      | nil =>
        rw [List.append_nil] at hrest
        rw [← hrest, hlen] at hlt'
        omega
      | cons r rest =>
        refine ⟨rest, ?_⟩
        show (value :: entries).reverse.map some ++ rest = stack1.data.set stack1.top (some value)
        rw [← hrest, ← hlen, List.set_append_right _ _ (le_refl _), Nat.sub_self,
          List.set_cons_zero,
          List.reverse_cons, List.map_append, List.map_singleton, List.append_assoc,
          List.singleton_append]

/-- **A pop takes the entry on top.** -/
theorem TreeStack.Shows.pop {value : NodeEntry} (h : stack.Shows (value :: entries)) :
    peek stack = some (some value) ∧
      ∃ stack', pop stack = some (some value, stack') ∧ stack'.Shows entries := by
  have htop : stack.top = entries.length + 1 := h.top
  have hplaces := h.places
  rw [List.reverse_cons, List.map_append, List.map_singleton] at hplaces
  obtain ⟨rest, hrest⟩ := hplaces
  have hget : stack.data[stack.top - 1]? = some (some value) := by
    have hlen : stack.top - 1 = (entries.reverse.map some).length := by
      rw [List.length_map, List.length_reverse, htop, Nat.add_sub_cancel]
    rw [hlen, ← hrest, List.append_assoc, List.getElem?_append_right (le_refl _), Nat.sub_self]
    rfl
  refine ⟨?_, ⟨stack.data, stack.size, stack.top - 1⟩, ?_, h.size, h.size_pos, ?_, ?_⟩
  · rw [peek, if_neg (by omega), hget]
    rfl
  · rw [Stacked.pop, if_neg (by omega), hget]
    rfl
  · show stack.top - 1 = entries.length
    omega
  · exact ⟨[some value] ++ rest, by rw [← List.append_assoc, hrest]⟩

theorem TreeStack.Shows.peek_nil (h : stack.Shows []) : peek stack = some none :=
  if_pos h.top

end Stack

/-! ## 2. The iterator

The pending sons are in the array instead of a list; every other field is the same. -/

/-- `documentIterator` -/
structure DocumentIterator where
  stop : Bool
  next : NodeEntry
  pStack : TreeStack

def createDocIterator (order orderParent startDepth : Nat) : DocumentIterator where
  stop := false
  next := ⟨order, orderParent, startDepth⟩
  pStack := createStack

def hasNextDoc (it : DocumentIterator) : Bool := !it.stop

variable {A : Type} [BlockSpace A]

/-- `nextDoc`: the document, its depth, and the iterator moved on. -/
def nextDoc (file : ZgdbFile A) (it : DocumentIterator) :
    Option (Document × Nat × DocumentIterator) := do
  let header := getDocumentHeader file it.next.order
  let depth := it.next.depth
  let document : Document := ⟨isRootDocumentHeader header, it.next.orderParent, header⟩
  if header.indexBrother = 0 ∧ header.indexSon = 0 then
    let top ← peek it.pStack
    if top = none then return (document, depth, { it with stop := true })
    else
      let (pEntry, pStack) ← pop it.pStack
      let entry ← pEntry
      return (document, depth, { it with next := entry, pStack := pStack })
  else if header.indexBrother ≠ 0 ∧ header.indexSon ≠ 0 then
    let next := ⟨header.indexBrother, document.indexParent, it.next.depth⟩
    let pStack ← push it.pStack ⟨header.indexSon, header.indexAttached, depth + 1⟩
    return (document, depth, { it with next := next, pStack := pStack })
  else if header.indexBrother ≠ 0 ∧ header.indexSon = 0 then
    return (document, depth,
      { it with next := ⟨header.indexBrother, document.indexParent, it.next.depth⟩ })
  else
    return (document, depth,
      { it with next := ⟨header.indexSon, header.indexAttached, it.next.depth + 1⟩ })

/-- `while (hasNextDoc(…)) nextDoc(…)`: the documents with their depths. -/
def visitAll (file : ZgdbFile A) : (fuel : Nat) → DocumentIterator → Option (List (Document × Nat))
  | 0, _ => none
  | fuel + 1, it =>
    if hasNextDoc it then do
      let (document, depth, it) ← nextDoc file it
      let rest ← visitAll file fuel it
      return (document, depth) :: rest
    else some []

/-- The iterators stand at the same place. -/
structure DocumentIterator.Shows (it : DocumentIterator) (jt : Zgdb.DocumentIterator) : Prop where
  stop : it.stop = jt.stop
  next : it.next = jt.next
  pStack : it.pStack.Shows jt.pStack

theorem shows_createDocIterator (order orderParent startDepth : Nat) :
    (createDocIterator order orderParent startDepth).Shows
      (Zgdb.createDocIterator order orderParent startDepth) :=
  ⟨rfl, rfl, shows_createStack⟩

/-- **`nextDoc` does what it does with a list for the stack.** -/
theorem nextDoc_refines (file : ZgdbFile A) {it : DocumentIterator} {jt : Zgdb.DocumentIterator}
    (h : it.Shows jt) :
    ∃ it', nextDoc file it
        = some ((Zgdb.nextDoc file jt).1, (Zgdb.nextDoc file jt).2.1, it') ∧
      it'.Shows (Zgdb.nextDoc file jt).2.2 := by
  obtain ⟨stop, next, pStack⟩ := it
  obtain ⟨stop', next', entries⟩ := jt
  obtain ⟨rfl, rfl, hstack⟩ := h
  simp only at hstack
  unfold nextDoc Zgdb.nextDoc
  simp only
  by_cases hb : (getDocumentHeader file next.order).indexBrother = 0 <;>
    by_cases hs : (getDocumentHeader file next.order).indexSon = 0
  · cases entries with
    | nil =>
      simp only [hb, hs, and_self, if_true, hstack.peek_nil, Option.bind_eq_bind, Option.bind_some]
      exact ⟨_, rfl, rfl, rfl, hstack⟩
    | cons entry rest =>
      obtain ⟨hpeek, pStack', hpop, hstack'⟩ := hstack.pop
      simp only [hb, hs, and_self, if_true, hpeek, hpop, Option.bind_eq_bind, Option.bind_some,
        reduceCtorEq, if_false]
      exact ⟨_, rfl, rfl, rfl, hstack'⟩
  · simp only [hb, hs, true_and, false_and, if_false, ne_eq, not_true_eq_false]
    exact ⟨_, rfl, rfl, rfl, hstack⟩
  · simp only [hb, hs, and_true, and_false, if_false, if_true, ne_eq, not_true_eq_false,
      not_false_eq_true]
    exact ⟨_, rfl, rfl, rfl, hstack⟩
  · obtain ⟨pStack', hpush, hstack'⟩ := hstack.push ⟨(getDocumentHeader file next.order).indexSon,
      (getDocumentHeader file next.order).indexAttached, next.depth + 1⟩
    simp only [hb, hs, and_self, if_false, if_true, ne_eq, not_false_eq_true, hpush,
      Option.bind_eq_bind, Option.bind_some]
    exact ⟨_, rfl, rfl, rfl, hstack'⟩

/-! ## 3. A whole visit

On a forest the iterator comes to each document once.  The order is that of the walk, which is known
from the tree. -/

/-- The document of an entry of the walk, with its depth. -/
def visitOf (file : ZgdbFile A) (e : Nat × Nat × Nat) : Document × Nat :=
  (documentAt file e.1 e.2.1, e.2.2)

/-- **The iterator takes the walk to its end.** -/
theorem visitAll_eq {file : ZgdbFile A} {n : Nat} {e : Nat × Nat × Nat}
    {stack L : List (Nat × Nat × Nat)}
    (hw : Forest.walk (sonOf file) (brotherOf file) n e stack = some L)
    (hatt : ∀ e ∈ L, (getDocumentHeader file e.1).indexAttached = e.1) {it : DocumentIterator}
    (hit : it.Shows ⟨false, nodeEntry e, stack.map nodeEntry⟩) {fuel : Nat} (hfuel : n < fuel) :
    visitAll file fuel it = some (L.map (visitOf file)) := by
  induction n generalizing e stack L it fuel with
  | zero => cases hw
  | succ n ih =>
    obtain ⟨fuel, rfl⟩ : ∃ m, fuel = m + 1 := ⟨fuel - 1, by omega⟩
    have hstart : hasNextDoc it = true := by
      rw [hasNextDoc, hit.stop]
      rfl
    obtain ⟨it', hrun, hit'⟩ := nextDoc_refines file hit
    rw [Forest.walk] at hw
    rw [visitAll, if_pos hstart, hrun]
    simp only [Option.bind_eq_bind, Option.bind_some]
    cases hnext : Forest.walkNext (sonOf file) (brotherOf file) e stack with
    | none =>
      rw [hnext] at hw
      obtain rfl := Option.some.inj hw
      rw [nextDoc_eq stack (hatt e List.mem_cons_self), hnext] at hit' ⊢
      obtain ⟨fuel, rfl⟩ : ∃ m, fuel = m + 1 := ⟨fuel - 1, by omega⟩
      have hstop : ¬ hasNextDoc it' = true := by
        rw [hasNextDoc, hit'.stop]
        simp [iteratorAt]
      rw [visitAll, if_neg hstop]
      rfl
    | some r =>
      obtain ⟨e', stack'⟩ := r
      rw [hnext] at hw
      obtain ⟨L', hL', rfl⟩ := Option.map_eq_some_iff.mp hw
      rw [nextDoc_eq stack (hatt e List.mem_cons_self), hnext] at hit' ⊢
      rw [ih hL' (fun x hx => hatt x (List.mem_cons_of_mem _ hx)) hit' (by omega)]
      rfl

/-- The documents of a forest, from `s` on: each of them once, the sibling chain of `s` before all
others, each with its stored header, its parent (`q` for the chain of `s`) and its depth.  The order
below the chain is left open. -/
structure VisitsForest (file : ZgdbFile A) (F : Forest Nat) (s q startDepth : Nat)
    (visits : List (Document × Nat)) : Prop where
  once : (visits.map fun v => v.1.header.indexAttached).Nodup
  complete : ∀ k, k ∈ visits.map (fun v => v.1.header.indexAttached) ↔ k ∈ F.nodes
  rootsFirst : F.roots <+: visits.map fun v => v.1.header.indexAttached
  stored : ∀ v ∈ visits, v.1.header = getDocumentHeader file v.1.header.indexAttached ∧
    v.1.isRoot = isRootDocumentHeader v.1.header
  placed : ∀ v ∈ visits, ∃ n, Forest.StandsBelow (sonOf file) (brotherOf file) (some s) q
    v.1.header.indexAttached v.1.indexParent n ∧ v.2 = startDepth + n

/-- **The iterator visits a forest** and comes to its end: each document once, with its stored
header, the index of its parent and its depth, all brothers before what is below any of them.  The
forest is any finite one that the links form from the first document on; the stack grows as far as
it has to. -/
theorem docIterator_visits {file : ZgdbFile A} {F : Forest Nat} {s : Nat}
    (hlinks : F.Represents (sonOf file) (brotherOf file) (some s)) (hn : F.nodes.Nodup)
    (hatt : ∀ k ∈ F.nodes, (getDocumentHeader file k).indexAttached = k) (q startDepth : Nat)
    {fuel : Nat} (hfuel : F.nodes.length < fuel) :
    ∃ visits, visitAll file fuel (createDocIterator s q startDepth) = some visits ∧
      VisitsForest file F s q startDepth visits := by
  have hwalk := hlinks.walk 0 q startDepth []
  rw [Forest.resume, Option.map_some, List.append_nil, Nat.add_zero] at hwalk
  have hperm := Forest.perm_map_visit F q startDepth
  have hatt' : ∀ e ∈ F.visit q startDepth, (getDocumentHeader file e.1).indexAttached = e.1 :=
    fun e he => hatt e.1 (hperm.mem_iff.mp (List.mem_map_of_mem he))
  have horders : ((F.visit q startDepth).map (visitOf file)).map
      (fun v => v.1.header.indexAttached) = (F.visit q startDepth).map Prod.fst := by
    rw [List.map_map]
    exact List.map_congr_left hatt'
  refine ⟨_, visitAll_eq hwalk hatt' (shows_createDocIterator s q startDepth) hfuel,
    ?_, ?_, ?_, ?_, ?_⟩
  · rw [horders]
    exact hperm.nodup_iff.mpr hn
  · intro k
    rw [horders]
    exact hperm.mem_iff
  · rw [horders, Forest.visit_eq, List.map_append, List.map_map]
    refine ⟨_, congrArg (· ++ _) ?_⟩
    exact (List.map_id _).symm
  · intro v hv
    obtain ⟨e, he, rfl⟩ := List.mem_map.mp hv
    have hke : (visitOf file e).1.header.indexAttached = e.1 := hatt' e he
    rw [hke]
    exact ⟨rfl, rfl⟩
  · intro v hv
    obtain ⟨e, he, rfl⟩ := List.mem_map.mp hv
    have hke : (visitOf file e).1.header.indexAttached = e.1 := hatt' e he
    rw [hke]
    exact hlinks.standsBelow (n := 0) (fun c hc => .entry hc) he

/-- The root, its two sons, and a document below the second of them. -/
theorem docIterator_visits_family : ∃ (file : ZgdbFile Nat) (n q r : Nat) (visits : _),
    visitAll file 5 (createDocIterator 0 7 3) = some visits ∧
      VisitsForest file (family n q r) 0 7 3 visits := by
  obtain ⟨file, n, q, r, es, own, -, hs⟩ :=
    create_family (⟨some, fun _ => ⟨0, true, 0, false⟩⟩ : Env Nat)
  obtain ⟨visits, hrun, hvisits⟩ :=
    docIterator_visits hs.links hs.nodup (fun k hk => hs.attached hk) 7 3 (by decide : 4 < 5)
  exact ⟨file, n, q, r, visits, hrun, hvisits⟩

end Zgdb.Stacked
