/-
# Freeing documents and toasts

`del` and the toast loop of `deleteDocument` only mark indices DEAD and put them into the free
list; no byte of the data area changes, so whatever is read on the way is what was there before.
`Freed` records what a sequence of such steps has done.  The subtree part of `deleteDocument` runs
`del` over the document iterator, whose order is that of `Forest.visit` (`forEachDocument_walk`).
-/
import Zgdb.Insert

namespace Zgdb

open Zgdb.Lib AddrSpace

variable {A : Type} [BlockSpace A]

/-! ## 1. Freed indices

An index that is freed is not looked at again by the same deletion, so the order in which indices
are freed shows in the free list only, and there up to a permutation. -/

/-- In the tables, exactly the indices `ks` have been freed, each with the capacity of its block.
They are DEAD now and keep their blocks, and the free list has got one node for each of them. -/
structure Reclaimed (file file' : ZgdbFile A) (ks : List Nat) : Prop where
  indexes : ∀ k, file'.indexes k =
    if k ∈ ks then ⟨.dead, (file.indexes k).offset⟩ else file.indexes k
  freeList : file'.freeList.nodes.Perm
    (ks.map (fun k => ⟨k, blockCapacity file k⟩) ++ file.freeList.nodes)
  header : file'.header = { file.header with nodes := file'.header.nodes }

theorem Reclaimed.perm {file file' : ZgdbFile A} {ks ls : List Nat} (h : Reclaimed file file' ks)
    (hp : ks.Perm ls) : Reclaimed file file' ls := by
  refine ⟨?_, ?_, h.header⟩
  · intro k
    rw [h.indexes]
    simp only [hp.mem_iff]
  · exact h.freeList.trans ((hp.map _).append_right _)

theorem Reclaimed.alive_iff {file file' : ZgdbFile A} {ks : List Nat} (h : Reclaimed file file' ks)
    {k : Nat} : Alive file' k ↔ Alive file k ∧ k ∉ ks := by
  unfold Alive
  rw [h.header, h.indexes]
  by_cases hk : k ∈ ks <;> simp [hk]

/-- The indices `ks` have been freed, and no byte of the data area has changed. -/
structure Freed (file file' : ZgdbFile A) (ks : List Nat) :
    Prop extends Reclaimed file file' ks where
  mem : file'.mem = file.mem

namespace Freed

variable {file file' file'' : ZgdbFile A} {ks ls : List Nat}

theorem refl (file : ZgdbFile A) : Freed file file [] :=
  ⟨⟨fun _ => by simp, List.Perm.refl _, rfl⟩, rfl⟩

theorem blockPos (h : Freed file file' ks) (k : Nat) : blockPos file' k = blockPos file k := by
  have hi : (file'.indexes k).offset = (file.indexes k).offset := by
    rw [h.indexes]
    split <;> rfl
  unfold Zgdb.blockPos getIndex
  rw [h.header]
  split
  · rfl
  · rw [hi]

theorem blockAt (h : Freed file file' ks) (k : Nat) : blockAt file' k = blockAt file k := by
  unfold Zgdb.blockAt
  rw [h.blockPos, h.mem]

theorem getDocumentHeader (h : Freed file file' ks) (k : Nat) :
    getDocumentHeader file' k = getDocumentHeader file k := by
  rw [getDocumentHeader_eq, getDocumentHeader_eq, h.blockAt]

theorem toastAt (h : Freed file file' ks) (k : Nat) : toastAt file' k = toastAt file k := by
  rw [toastAt_eq, toastAt_eq, h.blockAt]

theorem blockCapacity (h : Freed file file' ks) (k : Nat) :
    blockCapacity file' k = blockCapacity file k := blockCapacity_congr (h.blockAt k)

theorem alive_iff (h : Freed file file' ks) {k : Nat} :
    Alive file' k ↔ Alive file k ∧ k ∉ ks := h.toReclaimed.alive_iff

theorem trans (h : Freed file file' ks) (h' : Freed file' file'' ls) :
    Freed file file'' (ks ++ ls) := by
  refine ⟨⟨?_, ?_, ?_⟩, h'.mem.trans h.mem⟩
  · intro k
    rw [h'.indexes, h.indexes]
    by_cases hk : k ∈ ks <;> by_cases hl : k ∈ ls <;> simp [hk, hl]
  · refine h'.freeList.trans ?_
    have hmap : ls.map (fun k => (⟨k, Zgdb.blockCapacity file' k⟩ : Node))
        = ls.map fun k => ⟨k, Zgdb.blockCapacity file k⟩ :=
      List.map_congr_left fun k _ => by rw [h.blockCapacity]
    rw [hmap, List.map_append, List.append_assoc]
    refine (h.freeList.append_left _).trans ?_
    rw [← List.append_assoc, ← List.append_assoc]
    exact List.perm_append_comm.append_right _
  · rw [h'.header, h.header]

theorem perm (h : Freed file file' ks) (hp : ks.Perm ls) : Freed file file' ls :=
  ⟨h.toReclaimed.perm hp, h.mem⟩

end Freed

/-- Indices freed after the tables were left alone. -/
theorem Reclaimed.of_freed {file file1 file' : ZgdbFile A} {ks : List Nat}
    (h : Freed file1 file' ks) (hi : file1.indexes = file.indexes)
    (hl : file1.freeList = file.freeList) (hh : file1.header = file.header)
    (hcap : ∀ k ∈ ks, blockCapacity file1 k = blockCapacity file k) : Reclaimed file file' ks := by
  refine ⟨?_, ?_, ?_⟩
  · intro k
    rw [h.indexes, hi]
  · have hmap : ks.map (fun k => (⟨k, blockCapacity file k⟩ : Node))
        = ks.map fun k => ⟨k, blockCapacity file1 k⟩ :=
      List.map_congr_left fun k hk => by rw [hcap k hk]
    rw [hmap, ← hl]
    exact h.freeList
  · rw [h.header, hh]

/-- One ALIVE index freed. -/
theorem freed_freeIndex {file : ZgdbFile A} {k : Nat} (h : Alive file k) :
    Freed file (freeIndex file k (blockCapacity file k)) [k] := by
  rw [freeIndex_eq h]
  refine ⟨⟨?_, perm_insertNode _ _, rfl⟩, rfl⟩
  intro i
  by_cases hik : i = k
  · subst hik; simp
  · simp [hik]

/-- `freeIndex` moves no block, whatever the index is. -/
theorem getDocumentHeader_freeIndex (file : ZgdbFile A) (order size k : Nat) :
    getDocumentHeader (freeIndex file order size) k = getDocumentHeader file k := by
  unfold freeIndex killIndex
  split
  · rfl
  · split
    · rfl
    · unfold getDocumentHeader freadAt
      have hp : blockPos ({ setIndex file order { file.indexes order with flag := .dead } with
          freeList := insertDeadIndex file.freeList order size } : ZgdbFile A) k
          = blockPos file k := by
        unfold blockPos getIndex setIndex
        by_cases hk : k = order
        · subst hk
          simp only [if_true]
          split <;> rfl
        · simp only [if_neg hk]
      exact congrArg (fun p => load documentHeaderK file.mem (add p 0)) hp

theorem getDocumentHeader_del (doc : Document) (file : ZgdbFile A) (k : Nat) :
    getDocumentHeader (del doc file) k = getDocumentHeader file k := by
  unfold del
  split
  · rfl
  · exact getDocumentHeader_freeIndex _ _ _ _

/-- What a deletion asks of an invariant `P` of a file and its live documents: they are ALIVE and
begin with a document header, and `P` survives that an index is freed with the capacity of its
block, and another count of the documents. -/
structure Reclaims (P : ZgdbFile A → List Nat → Prop) : Prop where
  doc : ∀ {file docs k}, P file docs → k ∈ docs → Alive file k ∧ IsDocument file k
  free : ∀ {file docs docs' k}, P file docs → Alive file k → IsDocument file k ∨ IsToast file k →
    (∀ j, j ∈ docs' ↔ j ∈ docs ∧ j ≠ k) → P (freeIndex file k (blockCapacity file k)) docs'
  count : ∀ {file docs}, P file docs → ∀ m,
    P (saveHeader { file with header := { file.header with nodes := m } }) docs
  congr : ∀ {file docs docs'}, P file docs → (∀ j, j ∈ docs' ↔ j ∈ docs) → P file docs'

theorem Blocks.congr {file : ZgdbFile A} {docs docs' : List Nat} (h : Blocks file docs)
    (hdocs : ∀ j, j ∈ docs' ↔ j ∈ docs) : Blocks file docs' :=
  ⟨h.placed, h.block, fun k => (hdocs k).trans (h.docs k)⟩

/-- The blocks of a store are reclaimed. -/
theorem blocks_reclaims : Reclaims (A := A) Blocks where
  doc h hk := (h.docs _).mp hk
  free h hal _ hdocs := h.free hal hdocs
  count h _ := h.kept rfl rfl rfl fun j hj => Kept.of_agrees (h.block j hj) fun _ _ => rfl
  congr h hdocs := h.congr hdocs

section Reclaim

variable {P : ZgdbFile A → List Nat → Prop}

/-- **A document deleted by `del`**. -/
theorem del_spec (hP : Reclaims P) {file file0 : ZgdbFile A} {docs docs' : List Nat} {k p : Nat}
    (hb : P file docs) (hk : k ∈ docs) (h0 : k ≠ 0)
    (hh : getDocumentHeader file0 k = getDocumentHeader file k)
    (hdocs : ∀ j, j ∈ docs' ↔ j ∈ docs ∧ j ≠ k) :
    Freed file (del (documentAt file0 k p) file) [k] ∧
      P (del (documentAt file0 k p) file) docs' ∧
      (del (documentAt file0 k p) file).header.nodes = file.header.nodes - 1 := by
  obtain ⟨hal, hdoc⟩ := hP.doc hb hk
  have hroot : (documentAt file0 k p).isRoot = false := by
    show isRootDocumentHeader (getDocumentHeader file0 k) = false
    rw [hh]
    simp only [isRootDocumentHeader, hdoc.attached, h0, false_and, and_false, decide_false]
  have hdel : del (documentAt file0 k p) file = saveHeader
      { freeIndex file k (blockCapacity file k) with
        header := { (freeIndex file k (blockCapacity file k)).header with
          nodes := (freeIndex file k (blockCapacity file k)).header.nodes - 1 } } := by
    unfold del
    rw [hroot, if_neg (by simp), hdoc.capacity]
    show saveHeader _ = _
    have h1 : (documentAt file0 k p).header = getDocumentHeader file k := hh
    rw [h1, hdoc.attached]
  have hf := freed_freeIndex hal
  have hbf := hP.free hb hal (Or.inl hdoc) hdocs
  rw [hdel]
  refine ⟨⟨⟨hf.indexes, hf.freeList, ?_⟩, hf.mem⟩, ?_, ?_⟩
  · show ({ (freeIndex file k (blockCapacity file k)).header with nodes := _ } : ZgdbHeader) = _
    rw [hf.header]
    rfl
  · exact hP.count hbf _
  · show (freeIndex file k (blockCapacity file k)).header.nodes - 1 = _
    rw [freeIndex_eq hal]

end Reclaim

/-! ## 2. The document iterator

The iterator of the source against the walk of the library: the entries on the stack are the pending
sons, with their parents and depths. -/

/-- An entry of the walk as the iterator keeps it. -/
def nodeEntry (e : Nat × Nat × Nat) : NodeEntry := ⟨e.1, e.2.1, e.2.2⟩

/-- The iterator where the walk stands. -/
def iteratorAt : Option ((Nat × Nat × Nat) × List (Nat × Nat × Nat)) → DocumentIterator →
    DocumentIterator
  | none, it => { it with stop := true }
  | some (e, stack), _ => ⟨false, nodeEntry e, stack.map nodeEntry⟩

/-- **`nextDoc` takes one step of the walk.** -/
theorem nextDoc_eq {file : ZgdbFile A} {e : Nat × Nat × Nat} (stack : List (Nat × Nat × Nat))
    (hatt : (getDocumentHeader file e.1).indexAttached = e.1) :
    nextDoc file ⟨false, nodeEntry e, stack.map nodeEntry⟩
      = (documentAt file e.1 e.2.1, e.2.2,
          iteratorAt (Forest.walkNext (sonOf file) (brotherOf file) e stack)
            ⟨false, nodeEntry e, stack.map nodeEntry⟩) := by
  obtain ⟨k, p, d⟩ := e
  simp only [nextDoc, nodeEntry, documentAt, Forest.walkNext, sonOf, brotherOf, link]
  by_cases hb : (getDocumentHeader file k).indexBrother = 0 <;>
    by_cases hs : (getDocumentHeader file k).indexSon = 0
  · cases stack with
    | nil => simp [hb, hs, iteratorAt]
    | cons top rest => simp [hb, hs, iteratorAt, nodeEntry]
  · simp only [hb, hs, true_and, false_and, if_false, if_true, ne_eq, not_true_eq_false, iteratorAt,
      nodeEntry]
    rw [hatt]
  · simp only [hb, hs, and_true, and_false, if_false, if_true, ne_eq, not_true_eq_false,
      not_false_eq_true, iteratorAt, nodeEntry]
  · simp only [hb, hs, and_self, if_false, if_true, ne_eq, not_false_eq_true, iteratorAt,
      List.map_cons, nodeEntry]
    rw [hatt]

/-- **`forEachDocument` runs its consumer over the walk**, in the order of the walk and to its
end, if the consumer leaves the headers alone. -/
theorem forEachLoop_eq {file0 : ZgdbFile A} {consumer : Document → ZgdbFile A → ZgdbFile A}
    (hkeep : ∀ doc file k, getDocumentHeader (consumer doc file) k = getDocumentHeader file k)
    {n : Nat} {e : Nat × Nat × Nat} {stack L : List (Nat × Nat × Nat)}
    (hw : Forest.walk (sonOf file0) (brotherOf file0) n e stack = some L)
    (hatt : ∀ e ∈ L, (getDocumentHeader file0 e.1).indexAttached = e.1) {file : ZgdbFile A}
    (hfile : ∀ k, getDocumentHeader file k = getDocumentHeader file0 k) {fuel : Nat}
    (hfuel : n < fuel) :
    forEachLoop consumer fuel file ⟨false, nodeEntry e, stack.map nodeEntry⟩
      = some (L.foldl (fun f e => consumer (documentAt file0 e.1 e.2.1) f) file) := by
  induction n generalizing e stack L file fuel with
  | zero => cases hw
  | succ n ih =>
    obtain ⟨fuel, rfl⟩ : ∃ m, fuel = m + 1 := ⟨fuel - 1, by omega⟩
    have hson : sonOf file = sonOf file0 := funext fun k => by rw [sonOf, sonOf, hfile]
    have hbrother : brotherOf file = brotherOf file0 := funext fun k => by
      rw [brotherOf, brotherOf, hfile]
    have hdoc : documentAt file e.1 e.2.1 = documentAt file0 e.1 e.2.1 := by
      unfold documentAt
      rw [hfile]
    have hstart : hasNextDoc ⟨false, nodeEntry e, stack.map nodeEntry⟩ = true := rfl
    rw [Forest.walk] at hw
    rw [forEachLoop, if_pos hstart]
    cases hnext : Forest.walkNext (sonOf file0) (brotherOf file0) e stack with
    | none =>
      rw [hnext] at hw
      obtain rfl := Option.some.inj hw
      rw [nextDoc_eq stack ((hfile e.1).symm ▸ hatt e List.mem_cons_self), hson, hbrother, hnext,
        hdoc]
      obtain ⟨fuel, rfl⟩ : ∃ m, fuel = m + 1 := ⟨fuel - 1, by omega⟩
      rfl
    | some r =>
      obtain ⟨e', stack'⟩ := r
      rw [hnext] at hw
      obtain ⟨L', hL', rfl⟩ := Option.map_eq_some_iff.mp hw
      rw [nextDoc_eq stack ((hfile e.1).symm ▸ hatt e List.mem_cons_self), hson, hbrother, hnext,
        hdoc]
      exact ih hL' (fun x hx => hatt x (List.mem_cons_of_mem _ hx))
        (fun k => (hkeep _ _ k).trans (hfile k)) (by omega)

/-! ## 3. Many documents, many toasts

Freeing a list of documents, or the toasts of a list, is one step after the other; all headers are
still there to be read. -/

variable {P : ZgdbFile A → List Nat → Prop}

/-- **`del` over a list of documents.** -/
theorem foldl_del_spec (hP : Reclaims P) {file0 : ZgdbFile A} {L : List (Nat × Nat × Nat)}
    {file : ZgdbFile A} {docs docs' : List Nat} (hb : P file docs)
    (hh : ∀ k, getDocumentHeader file k = getDocumentHeader file0 k)
    (hn : (L.map Prod.fst).Nodup) (hmem : ∀ e ∈ L, e.1 ∈ docs ∧ e.1 ≠ 0)
    (hdocs : ∀ j, j ∈ docs' ↔ j ∈ docs ∧ j ∉ L.map Prod.fst) :
    Freed file (L.foldl (fun f e => del (documentAt file0 e.1 e.2.1) f) file) (L.map Prod.fst) ∧
      P (L.foldl (fun f e => del (documentAt file0 e.1 e.2.1) f) file) docs' ∧
      (L.foldl (fun f e => del (documentAt file0 e.1 e.2.1) f) file).header.nodes
        = file.header.nodes - L.length := by
  induction L generalizing file docs with
  | nil =>
    exact ⟨Freed.refl file, hP.congr hb fun j => by rw [hdocs]; simp, rfl⟩
  | cons e L ih =>
    rw [List.map_cons, List.nodup_cons] at hn
    obtain ⟨hk, h0⟩ := hmem e List.mem_cons_self
    have hrest : ∀ j, j ∈ docs.filter (· ≠ e.1) ↔ j ∈ docs ∧ j ≠ e.1 := fun j => by simp
    obtain ⟨hf, hb', hnodes⟩ := del_spec (p := e.2.1) hP hb hk h0 (hh e.1).symm hrest
    have hh' : ∀ k, getDocumentHeader (del (documentAt file0 e.1 e.2.1) file) k
        = getDocumentHeader file0 k := fun k => (getDocumentHeader_del _ _ k).trans (hh k)
    have hmem' : ∀ x ∈ L, x.1 ∈ docs.filter (· ≠ e.1) ∧ x.1 ≠ 0 := by
      intro x hx
      obtain ⟨h1, h2⟩ := hmem x (List.mem_cons_of_mem _ hx)
      exact ⟨(hrest x.1).mpr ⟨h1, fun he => hn.1 (he ▸ List.mem_map_of_mem hx)⟩, h2⟩
    have hdocs' : ∀ j, j ∈ docs' ↔ j ∈ docs.filter (· ≠ e.1) ∧ j ∉ L.map Prod.fst := by
      intro j
      rw [hdocs, hrest, List.map_cons, List.mem_cons, not_or, and_assoc]
    obtain ⟨hf2, hb2, hnodes2⟩ := ih hb' hh' hn.2 hmem' hdocs'
    refine ⟨hf.trans hf2, hb2, ?_⟩
    rw [List.foldl_cons, hnodes2, hnodes, List.length_cons]
    omega

/-- **The toast loop of `deleteDocument`.** -/
theorem freeToasts_spec (hP : Reclaims P) {ts : List Nat} {file : ZgdbFile A} {docs : List Nat}
    {order fuel : Nat} (hb : P file docs) (hlist : ToastList file order ts) (hn : ts.Nodup)
    (htoast : ∀ t ∈ ts, Alive file t ∧ IsToast file t) (hfuel : ts.length < fuel) :
    ∃ file', freeToasts fuel file order = some file' ∧ Freed file file' ts ∧ P file' docs ∧
      file'.header.nodes = file.header.nodes := by
  induction ts generalizing file order fuel with
  | nil =>
    obtain ⟨fuel, rfl⟩ : ∃ m, fuel = m + 1 := ⟨fuel - 1, by omega⟩
    obtain rfl : order = 0 := hlist
    exact ⟨file, rfl, Freed.refl file, hb, rfl⟩
  | cons t ts ih =>
    obtain ⟨fuel, rfl⟩ : ∃ m, fuel = m + 1 := ⟨fuel - 1, by omega⟩
    obtain ⟨rfl, h0, hrest⟩ := hlist
    rw [List.nodup_cons] at hn
    obtain ⟨hal, hto⟩ := htoast order List.mem_cons_self
    have hf := freed_freeIndex hal
    have hb' : P (freeIndex file order (blockCapacity file order)) docs := by
      refine hP.free hb hal (Or.inr hto) fun j => ⟨fun hj => ⟨hj, ?_⟩, And.left⟩
      rintro rfl
      exact (hP.doc hb hj).2.not_isToast hto
    have htoast' : ∀ t ∈ ts, Alive (freeIndex file order (blockCapacity file order)) t ∧
        IsToast (freeIndex file order (blockCapacity file order)) t := by
      intro t ht
      obtain ⟨h1, h2⟩ := htoast t (List.mem_cons_of_mem _ ht)
      refine ⟨hf.alive_iff.mpr ⟨h1, ?_⟩, (isToast_congr (hf.blockAt t)).mpr h2⟩
      rw [List.mem_singleton]
      rintro rfl
      exact hn.1 ht
    obtain ⟨file', hrun, hf2, hb2, hnodes⟩ := ih hb' (hrest.congr fun t _ => hf.toastAt t) hn.2
      htoast' (Nat.lt_of_succ_lt_succ hfuel)
    refine ⟨file', ?_, hf.trans hf2, hb2, ?_⟩
    · rw [freeToasts, if_neg h0, ← hrun, hto.capacity]
      rfl
    · rw [hnodes, freeIndex_eq hal]

end Zgdb
