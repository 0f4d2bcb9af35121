/-
# An index that is free twice

A deletion of a root with several sons leaves the root with a link to a DEAD index
(`deleteRoot_cut`).  A second deletion follows this link: `del` puts every index it meets into the
free list, DEAD or not, so all of them are in the list twice (`deleteRoot_again`).

A document with texts takes two indices, one for its toast and one for itself.  When the list has
one index twice it is taken for both (`createDocument_twice`): the toast is written to the old
block, and then the index is attached to the end of the file.  From there the header of the
document is read as that of its toast, and its capacity as the number of slots in use
(`toastAt_document`).
-/
import Zgdb.Create
import Zgdb.DeleteRoot
import Zgdb.Local

namespace Zgdb

open Zgdb.Lib AddrSpace

variable {A : Type} [BlockSpace A]

/-! ## 1. Two deletions of the root

The first deletion has freed the sons and left a link to one of them.  The second follows the link
and frees them again, without a look at their flags. -/

omit [BlockSpace A] in
/-- A DEAD index goes to the free list all the same. -/
theorem freeIndex_of_dead {file : ZgdbFile A} {k : Nat} (h : Dead file k) (blockSize : Nat) :
    freeIndex file k blockSize
      = { file with freeList := insertDeadIndex file.freeList k blockSize } := by
  have hflag : (file.indexes k).flag ≠ .alive := by
    rw [h.2]
    decide
  have hlt := h.1
  unfold freeIndex killIndex
  rw [if_neg (by omega), if_pos hflag]

/-- Only the free list has changed, by the nodes `ns`, and the count of documents. -/
structure Relisted (file file' : ZgdbFile A) (ns : List Node) : Prop where
  perm : file'.freeList.nodes.Perm (ns ++ file.freeList.nodes)
  sound : file'.freeList.Sound
  indexes : file'.indexes = file.indexes
  mem : file'.mem = file.mem
  header : file'.header = { file.header with nodes := file'.header.nodes }

omit [BlockSpace A] in
theorem Relisted.trans {file file' file'' : ZgdbFile A} {ns ms : List Node}
    (h : Relisted file file' ns)
    (h' : Relisted file' file'' ms) : Relisted file file'' (ns ++ ms) := by
  refine ⟨?_, h'.sound, h'.indexes.trans h.indexes, h'.mem.trans h.mem, ?_⟩
  · refine h'.perm.trans ((h.perm.append_left ms).trans ?_)
    rw [← List.append_assoc]
    exact List.perm_append_comm.append_right _
  · rw [h'.header, h.header]

omit [BlockSpace A] in
theorem Relisted.dead_iff {file file' : ZgdbFile A} {ns : List Node} (h : Relisted file file' ns)
    {k : Nat} : Dead file' k ↔ Dead file k := by
  unfold Dead
  rw [h.header, h.indexes]

theorem Relisted.blockPos {file file' : ZgdbFile A} {ns : List Node} (h : Relisted file file' ns)
    (k : Nat) : blockPos file' k = blockPos file k := by
  unfold Zgdb.blockPos getIndex
  rw [h.header, h.indexes]

theorem Relisted.blockAt {file file' : ZgdbFile A} {ns : List Node} (h : Relisted file file' ns)
    (k : Nat) : blockAt file' k = blockAt file k := by
  unfold Zgdb.blockAt
  rw [h.blockPos, h.mem]

/-- **`del` on a document that is DEAD.** -/
theorem del_dead {file0 file : ZgdbFile A} {k p : Nat} (hs : file.freeList.Sound)
    (hdead : Dead file k) (h0 : k ≠ 0) (hatt : (getDocumentHeader file0 k).indexAttached = k)
    (hcap : 0 < (getDocumentHeader file0 k).capacity) :
    Relisted file (del (documentAt file0 k p) file)
      [⟨k, (getDocumentHeader file0 k).capacity⟩] := by
  have hroot : (documentAt file0 k p).isRoot = false := by
    show isRootDocumentHeader (getDocumentHeader file0 k) = false
    simp only [isRootDocumentHeader, hatt, h0, false_and, and_false, decide_false]
  have hdel : del (documentAt file0 k p) file = saveHeader
      { file with
        freeList := insertDeadIndex file.freeList k (getDocumentHeader file0 k).capacity
        header := { file.header with nodes := file.header.nodes - 1 } } := by
    have hfree := freeIndex_of_dead hdead (getDocumentHeader file0 k).capacity
    unfold del
    rw [hroot, if_neg (by simp)]
    show saveHeader { freeIndex file (getDocumentHeader file0 k).indexAttached
      (getDocumentHeader file0 k).capacity with header := _ } = _
    simp only [documentAt, hatt, hfree]
  rw [hdel]
  exact ⟨perm_insertNode _ _, hs.insertDeadIndex k hcap, rfl, rfl, rfl⟩

theorem foldl_del_dead {file0 : ZgdbFile A} {L : List (Nat × Nat × Nat)} {file : ZgdbFile A}
    (hs : file.freeList.Sound)
    (hmem : ∀ e ∈ L, Dead file e.1 ∧ e.1 ≠ 0 ∧ (getDocumentHeader file0 e.1).indexAttached = e.1 ∧
      0 < (getDocumentHeader file0 e.1).capacity) :
    Relisted file (L.foldl (fun f e => del (documentAt file0 e.1 e.2.1) f) file)
      (L.map fun e => ⟨e.1, (getDocumentHeader file0 e.1).capacity⟩) := by
  induction L generalizing file with
  | nil => exact ⟨List.Perm.refl _, hs, rfl, rfl, rfl⟩
  | cons e L ih =>
    obtain ⟨hdead, h0, hatt, hcap⟩ := hmem e List.mem_cons_self
    have hone : Relisted file (del (documentAt file0 e.1 e.2.1) file) _ :=
      del_dead hs hdead h0 hatt hcap
    refine hone.trans (ih hone.sound ?_)
    intro x hx
    obtain ⟨hx1, hx2⟩ := hmem x (List.mem_cons_of_mem _ hx)
    exact ⟨hone.dead_iff.mpr hx1, hx2⟩

/-- The root has lost its sons, and the free list has got `ns` once more. -/
structure CutAgain (file file' : ZgdbFile A) (ns : List Node) : Prop where
  root : getDocumentHeader file' 0 = { getDocumentHeader file 0 with indexSon := 0 }
  docs : ∀ k, Used file k → k ≠ 0 → Agrees file file' k (blockCapacity file k)
  perm : file'.freeList.nodes.Perm (ns ++ file.freeList.nodes)
  sound : file'.freeList.Sound
  indexes : file'.indexes = file.indexes
  header : file'.header = { file.header with nodes := file'.header.nodes }

section Again

variable {file file1 : ZgdbFile A} {T G : Forest Nat} {es : Nat → List StoredElement}
  {own : Nat → List Nat} {fuel c : Nat}

section Steps

variable {file2 : ZgdbFile A}

theorem RootCut.attached_root (hs : Store file T es own) (hcut : RootCut file file1 T G) :
    (getDocumentHeader file1 0).indexAttached = 0 := by
  rw [hcut.root]
  exact hs.attached hs.root_mem

theorem RootCut.links_root (hcut : RootCut file file1 T G) :
    G.Represents (sonOf file1) (brotherOf file1) (link (getDocumentHeader file1 0).indexSon) := by
  rw [hcut.root]
  exact hcut.links

theorem RootCut.zero_notMem (hcut : RootCut file file1 T G) : 0 ∉ G.nodes :=
  fun h => (hcut.below 0 h).2.1 rfl

theorem RootCut.dead (hs : Store file T es own) (hcut : RootCut file file1 T G) :
    ∀ k ∈ G.nodes, Dead file1 k := by
  intro k hk
  refine ⟨?_, ?_⟩
  · rw [hcut.reclaimed.header]
    exact (hs.alive (hcut.below k hk).1).1
  · rw [hcut.reclaimed.indexes, if_pos hk]

/-- The one son that the root still leads to has no brother. -/
theorem RootCut.one_son (hcut : RootCut file file1 T G) (hr : G.roots = [c]) :
    (getDocumentHeader file1 0).indexSon = c ∧ c ≠ 0 ∧ c ∈ G.nodes ∧
      (getDocumentHeader file1 c).indexBrother = 0 := by
  have hlinks := hcut.links_root
  have hentry : link (getDocumentHeader file1 0).indexSon = some c := by
    have h := hlinks.entry
    rwa [hr] at h
  obtain ⟨hc, hc0⟩ := link_eq_some.mp hentry
  refine ⟨hc, hc0, hlinks.entry_mem hentry, ?_⟩
  cases G with
  | nil => cases hr
  | cons a s b =>
    rw [Forest.roots_cons, List.cons.injEq] at hr
    obtain ⟨rfl, hb⟩ := hr
    have h := hlinks.2.2.entry
    rw [hb] at h
    exact link_eq_none.mp h

/-- **It is unlinked**: the root has no sons any more. -/
theorem RootCut.unlink_again (hs : Store file T es own) (hcut : RootCut file file1 T G)
    (hr : G.roots = [c]) :
    unlink file1 (documentAt file1 0 0) ([c].map (documentAt file1 · 0))
      = some (fwriteAt documentHeaderK file1 (blockPos file1 0) 0
        { getDocumentHeader file1 0 with indexSon := 0 }) := by
  obtain ⟨hc, -, hcG, hbrother⟩ := hcut.one_son hr
  unfold unlink
  refine (if_pos (hc.trans (hcut.below c hcG).2.2.1.attached.symm)).trans ?_
  show some (writeHeader file1 { getDocumentHeader file1 0 with
    indexSon := (getDocumentHeader file1 c).indexBrother }) = _
  rw [hbrother, writeHeader, hcut.attached_root hs]

/-- The header of the root is all that changes. -/
theorem RootCut.relinked (hs : Store file T es own) (hcut : RootCut file file1 T G)
    (hf2 : file2 = fwriteAt documentHeaderK file1 (blockPos file1 0) 0
      { getDocumentHeader file1 0 with indexSon := 0 }) :
    getDocumentHeader file2 0 = { getDocumentHeader file1 0 with indexSon := 0 } ∧
      (∀ k, Used file1 k → k ≠ 0 → Agrees file1 file2 k (blockCapacity file1 k)) ∧
      ∀ k ∈ G.nodes, getDocumentHeader file2 k = getDocumentHeader file1 k := by
  have h0d : 0 ∈ T.nodes.filter (· ∉ G.nodes) := by simp [hs.root_mem, hcut.zero_notMem]
  obtain ⟨-, hhdr, -, hothers, -⟩ := relink_spec
    { getDocumentHeader file1 0 with indexSon := 0 } hcut.blocks h0d rfl hf2
  refine ⟨hhdr, hothers, ?_⟩
  intro k hk
  obtain ⟨-, hk0, hdoc, -⟩ := hcut.below k hk
  exact (hdoc.of_eqOn ((hothers k (Or.inr (hcut.dead hs k hk)) hk0).mono hdoc.header_le)).2.1

/-- **The subtree is walked from the link that was read before**, and every document of it goes to
the free list. -/
theorem RootCut.deleteSubtree_again (hs : Store file T es own) (hcut : RootCut file file1 T G)
    (hr : G.roots = [c]) (hlen : G.nodes.length < fuel)
    (hf2 : file2 = fwriteAt documentHeaderK file1 (blockPos file1 0) 0
      { getDocumentHeader file1 0 with indexSon := 0 }) :
    ∃ file3 ns, deleteSubtree fuel file2 (documentAt file1 0 0) = some file3 ∧
      Relisted file2 file3 ns ∧ ns.Perm (G.nodes.map fun k => ⟨k, blockCapacity file k⟩) := by
  obtain ⟨hc, hc0, hcG, -⟩ := hcut.one_son hr
  obtain ⟨-, -, hsame⟩ := hcut.relinked hs hf2
  have hlinks2 : G.Represents (sonOf file2) (brotherOf file2) (some c) := by
    have hlinks := hcut.links_root
    rw [hc, link_of_ne hc0] at hlinks
    refine hlinks.congr ?_
    intro k hk
    rw [sonOf, brotherOf, hsame k hk]
    exact ⟨rfl, rfl⟩
  obtain ⟨L, hL⟩ : ∃ L, L = G.visit 0 0 := ⟨_, rfl⟩
  have hperm : (L.map Prod.fst).Perm G.nodes := hL ▸ Forest.perm_map_visit G 0 0
  have hvisit : ∀ e ∈ L, e.1 ∈ G.nodes := fun e he => hperm.mem_iff.mp (List.mem_map_of_mem he)
  have hatt2 : ∀ k ∈ G.nodes, (getDocumentHeader file2 k).indexAttached = k := by
    intro k hk
    rw [hsame k hk]
    exact (hcut.below k hk).2.2.1.attached
  have hcap2 : ∀ k ∈ G.nodes, (getDocumentHeader file2 k).capacity = blockCapacity file k := by
    intro k hk
    obtain ⟨-, -, hdoc, hcap⟩ := hcut.below k hk
    rw [hsame k hk, ← hdoc.capacity, hcap]
  have hwalk := hlinks2.walk 0 0 0 []
  rw [Forest.resume, Option.map_some, List.append_nil, ← hL] at hwalk
  have hrun := forEachLoop_eq getDocumentHeader_del hwalk (fun e he => hatt2 e.1 (hvisit e he))
    (fun _ => rfl) hlen
  have hsound : file2.freeList.Sound := by
    rw [hf2]
    exact hcut.blocks.placed.sound
  have hlist : Relisted file2 (L.foldl (fun f e => del (documentAt file2 e.1 e.2.1) f) file2) _ :=
    foldl_del_dead hsound fun e he => by
      have he' := hvisit e he
      refine ⟨?_, (hcut.below e.1 he').2.1, hatt2 e.1 he', ?_⟩
      · rw [hf2]
        exact hcut.dead hs e.1 he'
      · rw [hcap2 e.1 he']
        exact hs.blocks.capacity_pos (Or.inl (hs.alive (hcut.below e.1 he').1))
  refine ⟨_, _, ?_, hlist, ?_⟩
  · have hson : (documentAt file1 0 0).header.indexSon = c := hc
    have hdocatt : (documentAt file1 0 0).header.indexAttached = 0 := hcut.attached_root hs
    unfold deleteSubtree
    rw [hson, if_pos hc0, ← hrun]
    show forEachLoop del fuel file2 (createDocIterator
      (getDocumentHeader file2 c).indexAttached (documentAt file1 0 0).header.indexAttached 0) = _
    rw [hatt2 c hcG, hdocatt]
    rfl
  · have hmap : L.map (fun e => (⟨e.1, (getDocumentHeader file2 e.1).capacity⟩ : Node))
        = (L.map Prod.fst).map fun k => ⟨k, blockCapacity file k⟩ := by
      rw [List.map_map]
      exact List.map_congr_left fun e he => by
        rw [hcap2 e.1 (hvisit e he)]
        rfl
    rw [hmap]
    exact hperm.map _

end Steps

/-- **The root deleted again**: what the first deletion freed goes to the free list a second time,
if the root still leads to one son. -/
theorem deleteRoot_again (hs : Store file T es own) (hcut : RootCut file file1 T G)
    (hG : G.nodes.Nodup) (hr : G.roots = [c]) (hfuel : file.header.indexCount < fuel) :
    ∃ file2, deleteDocument fuel file1 (documentAt file1 0 0) = some file2 ∧
      CutAgain file1 file2 (G.nodes.map fun k => ⟨k, blockCapacity file k⟩) := by
  have hlen : G.nodes.length < fuel := by
    have := length_le_of_lt hG fun x hx => (hs.alive (hcut.below x hx).1).1
    omega
  -- the scan finds the one son
  have hdocatt : (documentAt file1 0 0).header.indexAttached = 0 := hcut.attached_root hs
  have hscan : scanSons file1 (documentAt file1 0 0) fuel (getDocumentHeader file1 0).indexSon
      = _ :=
    scanSons_all hcut.links_root
      (fun h => hcut.zero_notMem (Forest.mem_nodes_of_mem_roots (hdocatt ▸ h)))
      (fun k hk => (hcut.below k hk).2.2.1.attached)
      (Nat.lt_of_le_of_lt (Forest.length_roots_le G) hlen)
  rw [hdocatt, hr] at hscan
  -- what is below it is freed
  obtain ⟨file2, hf2⟩ : ∃ file2, file2 = fwriteAt documentHeaderK file1 (blockPos file1 0) 0
    { getDocumentHeader file1 0 with indexSon := 0 } := ⟨_, rfl⟩
  obtain ⟨hhdr, hothers, -⟩ := hcut.relinked hs hf2
  obtain ⟨file3, ns, hsub, hlist, hns⟩ := hcut.deleteSubtree_again hs hr hlen hf2
  refine ⟨file3, ?_, ?_, ?_, ?_, hlist.sound, ?_, ?_⟩
  · rw [deleteRoot_run (hcut.root ▸ hs.root) (hcut.root ▸ hs.rootToast) (by omega) hscan
      ((hcut.unlink_again hs hr).trans (congrArg some hf2.symm))]
    exact hsub
  · rw [getDocumentHeader_eq, hlist.blockAt, ← getDocumentHeader_eq, hhdr]
  · intro k hk hk0 d hd
    rw [hlist.blockAt]
    exact hothers k hk hk0 d hd
  · have hp := hlist.perm
    rw [show file2.freeList = file1.freeList by rw [hf2]; rfl] at hp
    exact hp.trans (hns.append_right _)
  · rw [hlist.indexes, hf2]
    rfl
  · rw [hlist.header, hf2]
    rfl

end Again

/-! ## 2. A creation from an index that is free twice

The two allocations of a creation get the same index.  The second one moves the block to the end of
the file, and all that was written to the old place is out of reach. -/

/-- The DEAD index `k` is in the free list twice, with a block of `c` bytes that ends in the file,
and no other node is as large.  The next two allocations get the same index and the same block. -/
structure FreeTwice (file : ZgdbFile Nat) (k c : Nat) : Prop where
  sound : file.freeList.Sound
  perm : ∃ rest, file.freeList.nodes.Perm (⟨k, c⟩ :: ⟨k, c⟩ :: rest) ∧
    ∀ n ∈ rest, n.blockSize < c
  lt : ∀ n ∈ file.freeList.nodes, n.indexOrder < file.header.indexCount
  dead : Dead file k
  below : (file.indexes k).offset + c ≤ file.header.fileSize

/-- A document that is its own toast: the second allocation of a creation gave it the block of the
first.  Its header lies where the header of the toast was, so that the fields of the toast are read
from those of the document. -/
structure Overlaid (file : ZgdbFile Nat) (schema : DocumentSchema) (k c : Nat) : Prop where
  doc : IsDocument file k
  size : (getDocumentHeader file k).size = docSize schema
  capacity : (getDocumentHeader file k).capacity = c
  count : (getDocumentHeader file k).attrCount = schema.capacity
  toast : (getDocumentHeader file k).firstToastIndex = k
  holds : HoldsElements (blockAt file k) sizeofDocumentHeader (storeElements 0 schema.elements)

/-- The old block of an index and the one it is attached to next. -/
def oldAndNew (k p m q n : Nat) (h : p + m ≤ q) : Layout Nat where
  mem j := j = k ∨ j = k + 1
  pos j := if j = k then p else q
  len j := if j = k then m else n
  apart := by
    rintro i j (rfl | rfl) (rfl | rfl) hij
    · exact absurd rfl hij
    · rw [if_pos rfl, if_pos rfl, if_neg (by omega), if_neg (by omega), apart_nat]
      omega
    · rw [if_pos rfl, if_pos rfl, if_neg (by omega), if_neg (by omega), apart_nat]
      omega
    · exact absurd rfl hij

/-- The index has been taken once, for a toast in its old block. -/
structure TakenOnce (file file1 : ZgdbFile Nat) (k c : Nat) : Prop where
  toast : IsToast file1 k
  used : (toastAt file1 k).used = 0
  self : file1.indexes k = ⟨.alive, (file.indexes k).offset⟩
  other : ∀ j, j ≠ k → file1.indexes j = file.indexes j
  indexCount : file1.header.indexCount = file.header.indexCount
  fileSize : file1.header.fileSize = file.header.fileSize
  sound : file1.freeList.Sound
  perm : ∃ rest, file1.freeList.nodes.Perm (⟨k, c⟩ :: rest) ∧ ∀ n ∈ rest, n.blockSize < c

section Create

variable {file : ZgdbFile Nat} {schema : DocumentSchema} {k c : Nat}

theorem FreeTwice.createToast_eq (h : FreeTwice file k c) (htext : schema.reqToast = true)
    (hreq : sizeofToast ≤ toastRequest schema) (hle : toastRequest schema ≤ c) :
    ∃ file1, createToast file schema = some (k, file1) ∧ TakenOnce file file1 k c := by
  obtain ⟨rest, hp, hrest⟩ := h.perm
  have hpos : 0 < toastRequest schema := Nat.lt_of_lt_of_le (by decide) hreq
  obtain ⟨list, hfind, hlist, hsound⟩ := findRelevantIndex_perm h.sound hp
    (fun m hm => (List.mem_cons.mp hm).imp id (hrest m)) hpos hle
  obtain ⟨file1, hrun⟩ : ∃ file1, allocToast file (toastRequest schema)
      (toastRequest schema + sizeofToast) = some (k, file1) := by
    unfold allocToast
    rw [hfind]
    exact ⟨_, rfl⟩
  obtain ⟨n, hkn, hal⟩ := allocToast_cases h.sound h.lt hpos hrun
  obtain ⟨list', hfind'⟩ := hal.chosen
  obtain ⟨rfl, rfl⟩ := Prod.mk.inj (Option.some.inj (hfind.symm.trans hfind'))
  have hc : c ≠ 0 := by
    have : 0 < c := Nat.lt_of_lt_of_le hpos hle
    omega
  have hcap : chosenCapacity ⟨k, c⟩ (toastRequest schema + sizeofToast) = c := if_neg hc
  have htoast := IsToast.of_holds (hal.holds h.dead.1) rfl rfl (by
    show sizeofToast ≤ chosenCapacity ⟨k, c⟩ (toastRequest schema + sizeofToast)
    rw [hcap]
    exact hreq.trans hle)
  refine ⟨file1, ?_, htoast.1, ?_, ?_, hal.attached.other, hal.attached.indexCount, ?_,
    hal.attached.sound, rest, ?_, hrest⟩
  · rw [createToast, if_pos htext, hrun]
  · rw [htoast.2.1]
    rfl
  · exact hal.attached.self.trans (by rw [blockOffset_of_dead h.dead.1 h.dead.2])
  · rw [hal.attached.fileSize, if_neg hc]
  · exact (hal.attached.perm.symm.trans hp).cons_inv

/-- **The elements go to the end of the file**, their texts to the toast. -/
theorem TakenOnce.writeElements {file1 : ZgdbFile Nat} (h : TakenOnce file file1 k c)
    (hk : k < file.header.indexCount) (hbelow : (file.indexes k).offset + c ≤ file.header.fileSize)
    (hwf : schema.Wf) (hroom : sizeofToast + chunksOf schema.elements * chunkRecord ≤ c)
    (list : FreeIndexesList) {file3 : ZgdbFile Nat}
    (hf3 : file3 = Zgdb.writeElements { file1 with freeList := list } file.header.fileSize
      sizeofDocumentHeader k schema.elements) :
    ∃ (L : Layout Nat) (W : Nat → Nat → Prop), L.mem (k + 1) ∧
      L.pos (k + 1) = file.header.fileSize ∧ L.len (k + 1) = docSize schema ∧
      Writes L W { file1 with freeList := list } file3 ∧
      HoldsElements (L.block file3.mem (k + 1)) sizeofDocumentHeader
        (storeElements 0 schema.elements) := by
  obtain ⟨L, hL⟩ : ∃ L, L = oldAndNew k (file.indexes k).offset c file.header.fileSize
    (docSize schema) hbelow := ⟨_, rfl⟩
  have hLk : L.mem k ∧ L.pos k = (file.indexes k).offset ∧ L.len k = c := by
    rw [hL]
    exact ⟨Or.inl rfl, if_pos rfl, if_pos rfl⟩
  have hLn : L.mem (k + 1) ∧ L.pos (k + 1) = file.header.fileSize ∧
      L.len (k + 1) = docSize schema := by
    rw [hL]
    exact ⟨Or.inr rfl, if_neg (by omega), if_neg (by omega)⟩
  have hat0 : ∀ j, blockAt { file1 with freeList := list } j = blockAt file1 j := fun _ => rfl
  have hpos : blockPos { file1 with freeList := list } k = (file.indexes k).offset := by
    have hget : getIndex file1 k = ⟨.alive, (file.indexes k).offset⟩ := by
      rw [← h.self]
      exact getIndex_eq (h.indexCount ▸ hk)
    show (getIndex file1 k).offset = _
    rw [hget]
  have harea : Area L { file1 with freeList := list } [k] := by
    refine ⟨?_, ?_, ?_⟩
    · intro t ht
      obtain rfl := List.mem_singleton.mp ht
      exact ⟨hLk.1, hLk.2.1.trans hpos.symm⟩
    · intro t ht
      obtain rfl := List.mem_singleton.mp ht
      exact (isToast_congr (hat0 t)).mpr h.toast
    · intro t ht
      obtain rfl := List.mem_singleton.mp ht
      rw [hLk.2.2]
      exact (Nat.le_add_right _ _).trans hroom
  have hsize : docSize schema = sizeofDocumentHeader
      + (schema.elements.map getElementSize).sum := by
    rw [docSize, hwf.sizeOfElements_eq]
  have hown : ∀ x ∈ [k], x = k ∧ (toastAt { file1 with freeList := list } x).used = 0 ∧
      sizeofToast + (0 + chunksOf schema.elements) * chunkRecord ≤ L.len x := by
    intro x hx
    obtain rfl := List.mem_singleton.mp hx
    refine ⟨rfl, h.used, ?_⟩
    rw [Nat.zero_add, hLk.2.2]
    exact hroom
  obtain ⟨hw, hholds, -⟩ := writeElements_spec schema.elements hLn.1
    (Nat.le_of_eq (hsize.symm.trans hLn.2.2.symm)) harea
    (fun he => absurd (List.mem_singleton.mp he) (by omega))
    hown fun e _ _ => List.mem_singleton.mpr rfl
  rw [hLn.2.1, ← hf3] at hw hholds
  exact ⟨L, _, hLn.1, hLn.2.1, hLn.2.2, hw, hholds⟩

/-- **The document gets the end of the file**, and takes the index with it. -/
theorem TakenOnce.createBlock_eq {file1 : ZgdbFile Nat} (h : TakenOnce file file1 k c)
    (hk : k < file.header.indexCount) (hbelow : (file.indexes k).offset + c ≤ file.header.fileSize)
    (now : UInt32) (name : Name) (parentHeader : DocumentHeader) (hwf : schema.Wf)
    (hroom : sizeofToast + chunksOf schema.elements * chunkRecord ≤ c) (hle : docSize schema ≤ c) :
    ∃ file2, createBlock now file1 name schema k parentHeader = some (k, file2) ∧
      file2.indexes k = ⟨.alive, file.header.fileSize⟩ ∧
      (∀ j, j ≠ k → file2.indexes j = file.indexes j) ∧
      file2.header.indexCount = file.header.indexCount ∧
      Holds documentHeaderK (blockAt file2 k) 0
        (newHeader now file1 name schema k parentHeader ⟨k, c⟩) ∧
      HoldsElements (blockAt file2 k) sizeofDocumentHeader (storeElements 0 schema.elements) := by
  obtain ⟨rest, hp, hrest⟩ := h.perm
  have hpos : 0 < docSize schema := Nat.add_pos_left (by decide) _
  have hk1 : k < file1.header.indexCount := h.indexCount ▸ hk
  obtain ⟨list, hfind, hlist, hsound⟩ := findRelevantIndex_perm h.sound hp
    (fun m hm => Or.inr (hrest m hm)) hpos hle
  have hoff : blockOffset file1 k = file.header.fileSize := by
    rw [blockOffset, getIndex_eq hk1, h.self, ← h.fileSize]
    rfl
  obtain ⟨file3, hf3⟩ : ∃ file3, file3 = Zgdb.writeElements { file1 with freeList := list }
    file.header.fileSize sizeofDocumentHeader k schema.elements := ⟨_, rfl⟩
  obtain ⟨L, W, hmem, hLpos, hlen, hw, hholds⟩ := h.writeElements hk hbelow hwf hroom list hf3
  -- the file that is returned
  have hfind' : findRelevantIndex file1.freeList (sizeofDocumentHeader + schema.sizeOfElements)
      = some (⟨k, c⟩, list) := hfind
  obtain ⟨⟨order, file2⟩, hrun⟩ : ∃ r, createBlock now file1 name schema k parentHeader
      = some r := by
    unfold createBlock
    simp only [hfind']
    exact ⟨_, rfl⟩
  have hcopy := hrun
  unfold createBlock at hcopy
  simp only [hfind'] at hcopy
  obtain ⟨ho, hf⟩ := Prod.mk.inj (Option.some.inj hcopy)
  have hoff' : blockOffset { file1 with freeList := list } k = file.header.fileSize := hoff
  have hbase : (BlockSpace.base k file.header.fileSize : Nat) = file.header.fileSize := rfl
  rw [hoff', hbase, ← hf3, ← hoff] at hf
  obtain ⟨hmem2, -, hat, -⟩ := createBlock_attached hk1 (hp.trans (hlist.symm.cons _)) hsound
    hw.tables hf.symm
  have hmem3 : file2.mem = store documentHeaderK file3.mem (add (L.pos (k + 1)) 0)
      (newHeader now file1 name schema k parentHeader ⟨k, c⟩) := by
    rw [hmem2, hLpos, ← hoff]
    rfl
  have hcount : file2.header.indexCount = file.header.indexCount :=
    hat.indexCount.trans h.indexCount
  have hblock : blockAt file2 k = L.block file2.mem (k + 1) := by
    have hpos2 : blockPos file2 k = L.pos (k + 1) := by
      rw [hat.blockPos_self hk1, hoff, hLpos]
      rfl
    unfold blockAt Layout.block view
    rw [hpos2]
  refine ⟨file2, by rw [hrun, ho], ?_, fun j hj => ?_, hcount, ?_, ?_⟩
  · rw [hat.self, hoff]
  · rw [hat.other j hj, h.other j hj]
  · rw [hblock, hmem3]
    exact Layout.holds_block_store _ _ _
  · rw [hblock, hmem3, Layout.block_store]
    refine hholds.of_eqOn (fun d hd _ => store_apply_nat (Or.inr ?_)) (Nat.le_refl _)
      (Nat.le_refl _)
    exact (Nat.zero_add _).le.trans hd

/-- **A creation that gets the index twice.** -/
theorem createDocument_twice {expandIndexes : ZgdbFile Nat → Option (ZgdbFile Nat)} (now : UInt32)
    (name : Name) {p : Nat} (h : FreeTwice file k c) (hp : p < file.header.indexCount) (hpk : p ≠ k)
    (hend : (file.indexes p).offset + sizeofDocumentHeader ≤ file.header.fileSize)
    (hatt : (getDocumentHeader file p).indexAttached = p)
    (hexp : expanded expandIndexes file = some file) (hwf : schema.Wf) (hcomplete : schema.Complete)
    (htext : schema.reqToast = true) (hreq : toastRequest schema ≤ c) (hle : docSize schema ≤ c) :
    ∃ file', createDocument expandIndexes now file name schema (documentAt file p 0)
        = some (.createOk, file') ∧
      (getDocumentHeader file' p).indexSon = k ∧ Overlaid file' schema k c := by
  have hroom := hwf.le_toastRequest htext
  obtain ⟨file1, hrun1, h1⟩ := h.createToast_eq htext ((Nat.le_add_right _ _).trans hroom) hreq
  obtain ⟨file2, hrun2, hk2, hother2, hcount2, hhead2, hholds2⟩ :=
    h1.createBlock_eq h.dead.1 h.below
    now name (getDocumentHeader file p) hwf (hroom.trans hreq) hle
  obtain ⟨file', hf'⟩ : ∃ file', file' = fwriteAt documentHeaderK file2 (blockPos file2 p) 0
    { getDocumentHeader file p with indexSon := k } := ⟨_, rfl⟩
  have hrun : createDocument expandIndexes now file name schema (documentAt file p 0)
      = some (.createOk, file') := by
    have hatt' : (documentAt file p 0).header.indexAttached = p := hatt
    have hne : ¬ schema.capacity ≠ schema.size := not_not.mpr hcomplete
    unfold createDocument
    simp only [hatt', if_neg hne, hexp, Option.bind_eq_bind, Option.bind_some, hrun1, hrun2, hf']
    rfl
  -- the header of the parent lies in front of the new block
  have hk : k < file2.header.indexCount := hcount2 ▸ h.dead.1
  have hpos : blockPos file2 p = (file.indexes p).offset := by
    rw [blockPos, getIndex_eq (hcount2 ▸ hp), hother2 p hpk]
    rfl
  have hposk : blockPos file2 k = file.header.fileSize := by
    rw [blockPos, getIndex_eq hk, hk2]
    rfl
  have hat : blockAt file' k = blockAt file2 k := by
    funext d
    have hap : Apart (blockPos file2 k) (d + 1) (add (blockPos file2 p) 0)
        documentHeaderK.size := by
      rw [shift_zero, hpos, hposk, apart_nat]
      exact Or.inr (Or.inr (Or.inr hend))
    rw [hf']
    exact view_store_of_apart hap (Nat.lt_succ_self d)
  have hheader : Holds documentHeaderK (blockAt file' p) 0
      { getDocumentHeader file p with indexSon := k } := by
    rw [hf', blockAt_fwriteAt]
    exact holds_store
  rw [← hat] at hhead2 hholds2
  have hc : c ≠ 0 := by
    have := hwf.toastRequest_pos htext
    omega
  obtain ⟨hdoc, hget, -⟩ := IsDocument.of_holds hhead2 rfl rfl (Nat.le_add_right _ _)
    (by simpa only [newHeader, chosenCapacity, if_neg hc] using hle)
  refine ⟨file', hrun, ?_, ⟨hdoc, ?_, ?_, ?_, ?_, hholds2⟩⟩
  · rw [getDocumentHeader_eq, load_of_holds hheader]
  · rw [hget]
    rfl
  · rw [hget]
    exact if_neg hc
  · rw [hget]
    rfl
  · rw [hget]
    rfl

end Create

/-! ## 3. The document as a toast

What `updateElement` makes of such a document: its header is read as that of a toast, and the chunks
are looked for behind it, where the elements are. -/

theorem le_five (v : Nat) : le 5 v = [UInt8.ofNat v, UInt8.ofNat (v / 256),
    UInt8.ofNat (v / 256 / 256), UInt8.ofNat (v / 256 / 256 / 256),
    UInt8.ofNat (v / 256 / 256 / 256 / 256)] := rfl

/-- Where a document header lies, a toast is read whose `capacity` and `used` are the `size` and
the `capacity` of the document. -/
theorem toastAt_document {file : ZgdbFile A} {k : Nat} {header : DocumentHeader}
    (h : ∀ d < sizeofToast, blockAt file k d = ⟨.documentHeader header, d⟩)
    (hsize : header.size < 256 ^ 5) (hcap : header.capacity < 256 ^ 5) :
    (toastAt file k).capacity = header.size ∧ (toastAt file k).used = header.capacity := by
  have hobj : (blockAt file k 0).obj = .documentHeader header := by rw [h 0 (by decide)]
  have hload : toastAt file k
      = decodeToast ((cells (blockAt file k) 0 sizeofToast).map cellByte) := by
    rw [toastAt_eq, load, hobj]
    rfl
  have hcells : (cells (blockAt file k) 0 sizeofToast).map cellByte
      = (List.range sizeofToast).map fun d => cellByte ⟨.documentHeader header, d⟩ := by
    rw [cells, List.map_map]
    refine List.map_congr_left ?_
    intro d hd
    simp only [Function.comp_apply, add_nat, Nat.zero_add, h d (List.mem_range.mp hd)]
  have hslice : ∀ f : Nat → UInt8, slice ((List.range sizeofToast).map f) 1 5
        = [f 1, f 2, f 3, f 4, f 5] ∧
      slice ((List.range sizeofToast).map f) 8 5 = [f 8, f 9, f 10, f 11, f 12] := fun f =>
    ⟨rfl, rfl⟩
  have hsizes : [cellByte ⟨.documentHeader header, 1⟩, cellByte ⟨.documentHeader header, 2⟩,
      cellByte ⟨.documentHeader header, 3⟩, cellByte ⟨.documentHeader header, 4⟩,
      cellByte ⟨.documentHeader header, 5⟩] = le 5 header.size := by
    simp [cellByte, Obj.bytes, le_five]
  have hcaps : [cellByte ⟨.documentHeader header, 8⟩, cellByte ⟨.documentHeader header, 9⟩,
      cellByte ⟨.documentHeader header, 10⟩, cellByte ⟨.documentHeader header, 11⟩,
      cellByte ⟨.documentHeader header, 12⟩] = le 5 header.capacity := by
    simp [cellByte, Obj.bytes, le_five, pad, field40]
  rw [hload, hcells, decodeToast, (hslice _).1, (hslice _).2, hsizes, hcaps]
  exact ⟨leValue_le 5 _ hsize, leValue_le 5 _ hcap⟩

/-- **An update of the same length** of its one short text writes behind the bytes that are read as
the header of the toast. -/
theorem Overlaid.update_equal {strtod : CString → StrtodResult} {file : ZgdbFile Nat}
    {schema : DocumentSchema} {k c : Nat} {name : Name} {txt : Text} {key input : CString}
    (h : Overlaid file schema k c) (hes : schema.elements = [⟨name, .text txt⟩])
    (hone : schema.capacity = 1) (hkey : key.chars = name.chars)
    (hlen : input.strlen + 1 = txt.size) (hchunks : chunkCount txt.size = 1) :
    storedText file k key = some ⟨txt.size, 0⟩ ∧
    ∃ file', updateElement strtod file (documentAt file k 0) key input
        = some (.updateOk, file') ∧
      ∀ d < sizeofToast, blockAt file' k d = blockAt file k d := by
  have hatt : (documentAt file k 0).header.indexAttached = k := h.doc.attached
  have hholds := h.holds
  rw [hes] at hholds
  have hholds' : HoldsElements (blockAt file k) sizeofDocumentHeader
    ([] ++ (⟨name, .text ⟨txt.size, 0⟩⟩ : StoredElement) :: []) := by
    simpa [storeElements, storeElement] using hholds
  have hcount : (documentAt file k 0).header.attrCount
      = ([] ++ (⟨name, .text ⟨txt.size, 0⟩⟩ : StoredElement) :: []).length := h.count.trans hone
  refine ⟨storedText_of_holds hatt hcount hholds' hkey (by simp), ?_⟩
  have hvalue : freadAt firstTextChunkK file (blockPos file k)
      (sizeofDocumentHeader + storedSize [] + elementHead) = ⟨txt.size, 0⟩ := by
    obtain ⟨-, ⟨-, -, hv⟩, -⟩ := holdsElements_append.mp hholds'
    rw [freadAt_eq]
    exact load_of_holds hv
  have hfirst : (documentAt file k 0).header.firstToastIndex = k := h.toast
  have hrun : updateElement strtod file (documentAt file k 0) key input = _ :=
    updateElement_of_holds hcount (by rw [hatt]; exact hholds') hkey (by simp)
  rw [hatt] at hrun
  -- one chunk is written, where the document says its toast is
  obtain ⟨chunk, file', hf'⟩ : ∃ (chunk : TextChunk) (file' : ZgdbFile Nat),
      file' = fwriteAt textChunkK file (blockPos file k) (sizeofToast + 0 + 1) chunk ∧
        updateText file (blockPos file k) (documentAt file k 0)
          (sizeofDocumentHeader + storedSize []) input = some file' := by
    unfold updateText
    simp only [hvalue, hlen, if_true, updateEqual, hfirst, hchunks, rewriteChunks]
    exact ⟨_, _, rfl, rfl⟩
  refine ⟨file', ?_, ?_⟩
  · rw [hrun]
    refine (updateFound_text _ _).trans ?_
    rw [hf'.2]
    rfl
  · intro d hd
    rw [hf'.1, blockAt_fwriteAt]
    exact store_apply_nat (Or.inl (Nat.lt_of_lt_of_le hd (Nat.le_add_right _ _)))

end Zgdb
