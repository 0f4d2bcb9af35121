/-
# Every run can be closed and opened again

What `Closable` asks for is kept by creations and deletions whatever the blocks contain: the header
is saved by the last thing that changes it, and the list of free indices is only changed by its own
operations.  One thing can go wrong: a deletion puts a block into the list with the capacity that it
reads from the block, and a node of size 0 is taken for a NEW one when the list is read back.
`Call.freed` are the nodes that a deletion puts into the list; in a sound store all of them have a
size (`Store.freed_sized`).

A capacity of 0 is read from a toast that the zero bytes of another toast have reached, and then the
store that is opened is not the one that was closed (`reopened_with_zero_node`).
-/
import Zgdb.Closing
import Zgdb.Expansion

namespace Zgdb

open Zgdb.Lib AddrSpace

section Freeing

variable {A : Type} [BlockSpace A]

/-! ## 1. The nodes that a deletion puts into the list

They are read from the blocks, so on a damaged store they can have any size.  Which they are is
known before the deletion is made. -/

/-- The nodes of the toasts from `order` on, as `freeToasts` finds them. -/
def freedToasts (file : ZgdbFile A) : (fuel : Nat) → (order : Nat) → List Node
  | 0, _ => []
  | fuel + 1, order =>
    if order = 0 then []
    else
      let temp := freadAt toastK file (blockPos file order) 0
      ⟨order, temp.capacity⟩ :: freedToasts file fuel temp.nextToastIndex

/-- The node of a document, as `del` finds it. -/
def freedDocument (document : Document) : List Node :=
  if document.isRoot then [] else [⟨document.header.indexAttached, document.header.capacity⟩]

/-- The nodes of the documents that an iterator hands out. -/
def freedVisits (file : ZgdbFile A) : (fuel : Nat) → DocumentIterator → List Node
  | 0, _ => []
  | fuel + 1, it =>
    if hasNextDoc it then
      let (doc, _, it) := nextDoc file it
      freedDocument doc ++ freedVisits file fuel it
    else []

/-- The nodes that the last part of `deleteDocument` puts into the list, in its order. -/
def freedBlocks (fuel : Nat) (file : ZgdbFile A) (doc : Document) : List Node :=
  freedDocument doc ++
    (if doc.header.indexSon ≠ 0 then
      freedVisits file fuel (createDocIterator
        (getDocumentHeader file doc.header.indexSon).indexAttached doc.header.indexAttached 0)
    else []) ++
    freedToasts file fuel doc.header.firstToastIndex

/-- The first part of `deleteDocument`: the document is taken out of the sons of its parent. -/
def unlinked (fuel : Nat) (file : ZgdbFile A) (doc : Document) : Option (ZgdbFile A) := do
  let parentHeader := getDocumentHeader file doc.indexParent
  let parent : Document := ⟨isRootDocumentHeader parentHeader, 0, parentHeader⟩
  let sons ← scanSons file doc fuel parentHeader.indexSon
  unlink file parent sons

/-- The nodes that a call puts into the list because it deletes documents. -/
def Call.freed (file : ZgdbFile A) : Call → List Node
  | delete doc parent =>
    match unlinked (loopBound file) file (documentAt file doc parent) with
    | some file1 => freedBlocks (loopBound file) file1 (documentAt file doc parent)
    | none => []
  | _ => []

/-- No block is freed with a capacity of 0.  Its node would be taken for one of a NEW index. -/
def Call.FreesSized (file : ZgdbFile A) (call : Call) : Prop :=
  ∀ n ∈ call.freed file, n.blockSize ≠ 0

/-- Nodes put into a list. -/
def insertAll (list : FreeIndexesList) (freed : List Node) : FreeIndexesList :=
  freed.foldl (fun list n => insertDeadIndex list n.indexOrder n.blockSize) list

/-- `freed` has been put into the list; the blocks lie where they were and have their bytes. -/
structure Freeing (file file' : ZgdbFile A) (freed : List Node) : Prop where
  mem : file'.mem = file.mem
  blockPos : ∀ k, blockPos file' k = blockPos file k
  header : file'.header = { file.header with nodes := file'.header.nodes }
  saved : file.saved = file.header → file'.saved = file'.header
  freeList : file'.freeList = insertAll file.freeList freed

namespace Freeing

variable {file file' file'' : ZgdbFile A} {freed freed' : List Node}

theorem refl (file : ZgdbFile A) : Freeing file file [] := ⟨rfl, fun _ => rfl, rfl, id, rfl⟩

theorem trans (h : Freeing file file' freed) (h' : Freeing file' file'' freed') :
    Freeing file file'' (freed ++ freed') := by
  refine ⟨h'.mem.trans h.mem, fun k => (h'.blockPos k).trans (h.blockPos k), ?_,
    fun hs => h'.saved (h.saved hs), ?_⟩
  · rw [h'.header, h.header]
  · rw [h'.freeList, h.freeList, insertAll, insertAll, insertAll, List.foldl_append]

/-- Whatever is read from a block is what was there before. -/
theorem freadAt_eq {α : Type} (h : Freeing file file' freed) (K : Kind Obj α) (k d : Nat) :
    freadAt K file' (Zgdb.blockPos file' k) d = freadAt K file (Zgdb.blockPos file k) d := by
  rw [h.blockPos, freadAt, freadAt, h.mem]

theorem getDocumentHeader (h : Freeing file file' freed) (k : Nat) :
    getDocumentHeader file' k = getDocumentHeader file k := h.freadAt_eq _ _ _

end Freeing

/-- One index freed, whatever index it is. -/
theorem freeing_freeIndex (file : ZgdbFile A) (order blockSize : Nat) :
    Freeing file (freeIndex file order blockSize) [⟨order, blockSize⟩] := by
  have hkill : (killIndex file order).1 = file ∨ (killIndex file order).1
      = setIndex file order { file.indexes order with flag := .dead } := by
    unfold killIndex
    split
    · exact Or.inl rfl
    · split
      · exact Or.inl rfl
      · exact Or.inr rfl
  unfold freeIndex
  rcases hkill with h | h
  · rw [h]
    exact ⟨rfl, fun _ => rfl, rfl, id, rfl⟩
  · rw [h]
    refine ⟨rfl, ?_, rfl, id, rfl⟩
    intro k
    simp only [blockPos, getIndex, setIndex]
    split
    · rfl
    · by_cases hk : k = order <;> simp [hk]

theorem freeing_del (doc : Document) (file : ZgdbFile A) :
    Freeing file (del doc file) (freedDocument doc) := by
  unfold del freedDocument
  split
  · exact .refl file
  · have h := freeing_freeIndex file doc.header.indexAttached doc.header.capacity
    refine ⟨h.mem, h.blockPos, ?_, fun _ => rfl, h.freeList⟩
    rw [saveHeader, h.header]

theorem freeing_forEachLoop {file0 file file' : ZgdbFile A} {freed : List Node} {fuel : Nat}
    {it : DocumentIterator} (h : Freeing file0 file freed)
    (hrun : forEachLoop del fuel file it = some file') :
    Freeing file0 file' (freed ++ freedVisits file0 fuel it) := by
  induction fuel generalizing file freed it with
  | zero => cases hrun
  | succ fuel ih =>
    rw [forEachLoop] at hrun
    rw [freedVisits]
    split at hrun
    · rename_i hnext
      have hdoc : nextDoc file it = nextDoc file0 it := by
        simp only [nextDoc, h.getDocumentHeader]
      rw [if_pos hnext, ← List.append_assoc, ← hdoc]
      exact ih (h.trans (freeing_del _ _)) hrun
    · rename_i hnext
      obtain rfl := Option.some.inj hrun
      rw [if_neg hnext, List.append_nil]
      exact h

theorem freeing_freeToasts {file0 file file' : ZgdbFile A} {freed : List Node} {fuel order : Nat}
    (h : Freeing file0 file freed) (hrun : freeToasts fuel file order = some file') :
    Freeing file0 file' (freed ++ freedToasts file0 fuel order) := by
  induction fuel generalizing file freed order with
  | zero => cases hrun
  | succ fuel ih =>
    rw [freeToasts] at hrun
    rw [freedToasts]
    split at hrun
    · rename_i h0
      obtain rfl := Option.some.inj hrun
      rw [if_pos h0, List.append_nil]
      exact h
    · rename_i h0
      rw [if_neg h0]
      rw [h.freadAt_eq] at hrun
      have hnext := ih (h.trans (freeing_freeIndex _ _ _)) hrun
      rwa [List.append_assoc] at hnext

theorem deleteDocument_eq (fuel : Nat) (file : ZgdbFile A) (doc : Document) :
    deleteDocument fuel file doc = (unlinked fuel file doc).bind fun file1 =>
      (deleteSubtree fuel (del doc file1) doc).bind fun file2 =>
        freeToasts fuel file2 doc.header.firstToastIndex := by
  simp only [deleteDocument, unlinked, Option.bind_eq_bind, Option.bind_assoc]

/-- **What `deleteDocument` does to the list**, in any state. -/
theorem deleteDocument_freeing {file file' : ZgdbFile A} {doc : Document} {fuel : Nat}
    (hrun : deleteDocument fuel file doc = some file') :
    ∃ file1, unlinked fuel file doc = some file1 ∧
      Freeing file1 file' (freedBlocks fuel file1 doc) := by
  rw [deleteDocument_eq] at hrun
  obtain ⟨file1, hunlink, hrun⟩ := Option.bind_eq_some_iff.mp hrun
  obtain ⟨file2, hsub, hrun⟩ := Option.bind_eq_some_iff.mp hrun
  refine ⟨file1, hunlink, ?_⟩
  have hdel := freeing_del doc file1
  refine freeing_freeToasts ?_ hrun
  unfold deleteSubtree at hsub
  split at hsub
  · rename_i hson
    rw [if_pos hson, ← hdel.getDocumentHeader]
    exact freeing_forEachLoop hdel hsub
  · rename_i hson
    obtain rfl := Option.some.inj hsub
    rw [if_neg hson, List.append_nil]
    exact hdel

end Freeing

section Steps

variable {A : Type} [BlockSpace A]

/-! ## 2. Every step

Most functions do not touch the header, the table or the list (`SameTables`).  Those that do save
the header last. -/

/-- The header, its saved copy and the list are as they were. -/
structure SameTables (file file' : ZgdbFile A) : Prop where
  header : file'.header = file.header
  saved : file'.saved = file.saved
  freeList : file'.freeList = file.freeList

omit [BlockSpace A] in
theorem SameTables.trans {file file' file'' : ZgdbFile A} (h : SameTables file file')
    (h' : SameTables file' file'') : SameTables file file'' :=
  ⟨h'.header.trans h.header, h'.saved.trans h.saved, h'.freeList.trans h.freeList⟩

theorem sameTables_fwriteAt {α : Type} (K : Kind Obj α) (file : ZgdbFile A) (pos : A) (d : Nat)
    (a : α) : SameTables file (fwriteAt K file pos d a) := ⟨rfl, rfl, rfl⟩

theorem sameTables_fwriteZeros (file : ZgdbFile A) (pos : A) (d n : Nat) :
    SameTables file (fwriteZeros file pos d n) := ⟨rfl, rfl, rfl⟩

omit [BlockSpace A] in
theorem sameTables_attach (file : ZgdbFile A) (order offset : Nat) :
    SameTables file (attachIndexToBlock file order offset).1 := by
  unfold attachIndexToBlock
  split
  · exact ⟨rfl, rfl, rfl⟩
  · exact ⟨rfl, rfl, rfl⟩

theorem sameTables_fwriteChunk (file : ZgdbFile A) (pos : A) (slot : Nat) (chunk : TextChunk) :
    SameTables file (fwriteChunk file pos slot chunk) := ⟨rfl, rfl, rfl⟩

theorem sameTables_writeChunks (file : ZgdbFile A) (pos : A) (used toastIndex : Nat) (s : CString)
    (start lastLen lastToast n : Nat) :
    SameTables file (writeChunks file pos used toastIndex s start lastLen lastToast n) := by
  induction n using Nat.twoStepInduction generalizing file used start with
  | zero => exact ⟨rfl, rfl, rfl⟩
  | one => exact sameTables_fwriteChunk _ _ _ _
  | more n _ ih =>
    rw [writeChunks]
    exact (sameTables_fwriteChunk _ _ _ _).trans (ih _ _ _)

theorem sameTables_writeValue (file : ZgdbFile A) (pos : A) (d : Nat) (value : ElementValue)
    (firstToastIndex : Nat) : SameTables file (writeValue file pos d value firstToastIndex) := by
  cases value with
  | boolean v => exact sameTables_fwriteAt _ _ _ _ _
  | int v => exact sameTables_fwriteAt _ _ _ _ _
  | double v => exact sameTables_fwriteAt _ _ _ _ _
  | text t =>
    rw [writeValue]
    exact (sameTables_fwriteAt _ _ _ _ _).trans
      ((sameTables_writeChunks _ _ _ _ _ _ _ _ _).trans (sameTables_fwriteAt _ _ _ _ _))

theorem sameTables_writeElement (file : ZgdbFile A) (pos : A) (d : Nat) (cur : Element)
    (firstToastIndex : Nat) : SameTables file (writeElement file pos d cur firstToastIndex).1 :=
  (sameTables_fwriteAt _ _ _ _ _).trans
    ((sameTables_fwriteAt _ _ _ _ _).trans (sameTables_writeValue _ _ _ _ _))

theorem sameTables_writeElements (elements : List Element) (file : ZgdbFile A) (pos : A) (d : Nat)
    (firstToastIndex : Nat) :
    SameTables file (writeElements file pos d firstToastIndex elements) := by
  induction elements generalizing file d with
  | nil => exact ⟨rfl, rfl, rfl⟩
  | cons cur rest ih => exact (sameTables_writeElement _ _ _ _ _).trans (ih _ _)

section Closable

variable {file file' : ZgdbFile A}

omit [BlockSpace A] in
theorem Closable.sameTables (h : Closable file) (ht : SameTables file file') : Closable file' := by
  refine ⟨?_, ?_, ?_, ?_, ?_⟩
  · rw [ht.saved, ht.header, h.saved]
  · rw [ht.header, h.format]
  · rw [ht.header, h.version]
  · rw [ht.header]
    exact h.indexCount
  · rw [ht.freeList]
    exact h.sound

theorem closable_init (now : UInt32) : Closable (init now : ZgdbFile A) := by
  have hstore : Store (init now : ZgdbFile A) _ _ _ := init_store
  have hsound := hstore.blocks.placed.sound
  have hcount : 0 < indexInitialCapacity := by decide
  rw [init_eq] at hsound ⊢
  exact ⟨rfl, rfl, rfl, hcount, hsound⟩

omit [BlockSpace A] in
/-- An allocation ends with the size of the file and `saveHeader`. -/
theorem Closable.grown (h : Closable file) {file1 : ZgdbFile A} {list : FreeIndexesList}
    (ht : SameTables { file with freeList := list } file1) (hl : list.Sound) (n : Node) (c : Nat) :
    Closable (saveHeader (growFile file1 n c)) := by
  rw [growFile_eq]
  refine ⟨rfl, ?_, ?_, ?_, ?_⟩
  · exact (congrArg ZgdbHeader.zgdbType ht.header).trans h.format
  · exact (congrArg ZgdbHeader.version ht.header).trans h.version
  · exact Nat.lt_of_lt_of_eq h.indexCount (congrArg ZgdbHeader.indexCount ht.header).symm
  · exact (congrArg FreeIndexesList.Sound ht.freeList).mpr hl

omit [BlockSpace A] in
theorem Closable.counted (h : Closable (saveHeader file)) (nodes : Nat) :
    Closable (saveHeader { file with header := { file.header with nodes := nodes } }) :=
  ⟨rfl, h.format, h.version, h.indexCount, h.sound⟩

/-- **A toast is allocated.** -/
theorem Closable.allocToast (h : Closable file) {reqSize newCapacity t : Nat} (hreq : 0 < reqSize)
    (hrun : allocToast file reqSize newCapacity = some (t, file')) : Closable file' := by
  unfold Zgdb.allocToast at hrun
  split at hrun
  · cases hrun
  · rename_i chosen list hfind
    obtain ⟨-, hsound, -⟩ := findRelevantIndex_spec h.sound hreq hfind
    obtain ⟨-, rfl⟩ := Prod.mk.inj (Option.some.inj hrun)
    exact h.grown ((sameTables_fwriteAt _ _ _ _ _).trans
      ((sameTables_fwriteZeros _ _ _ _).trans (sameTables_attach _ _ _))) hsound _ _

/-- **A document is written.** -/
theorem Closable.createBlock (h : Closable file) {now : UInt32} {name : Name}
    {schema : DocumentSchema} {t order : Nat} {parentHeader : DocumentHeader}
    (hrun : createBlock now file name schema t parentHeader = some (order, file')) :
    Closable file' := by
  unfold Zgdb.createBlock at hrun
  simp only at hrun
  split at hrun
  · cases hrun
  · rename_i chosen list hfind
    have hreq : 0 < sizeofDocumentHeader + schema.sizeOfElements :=
      Nat.lt_of_lt_of_le (by decide) (Nat.le_add_right _ _)
    obtain ⟨-, hsound, -⟩ := findRelevantIndex_spec h.sound hreq hfind
    obtain ⟨-, rfl⟩ := Prod.mk.inj (Option.some.inj hrun)
    refine Closable.counted ?_ _
    exact h.grown ((sameTables_writeElements _ _ _ _ _).trans
      ((sameTables_attach _ _ _).trans (sameTables_fwriteAt _ _ _ _ _))) hsound _ _

/-- **A creation**, whatever the blocks contain. -/
theorem Closable.create (h : Closable file) {env : Env A} {now : UInt32} {p : Nat} {name : Name}
    {schema : DocumentSchema} (hexp : ∀ file1, env.expandIndexes file = some file1 → Closable file1)
    (hbuilt : schema.Built) (hcomplete : schema.Complete)
    (hrun : (Call.create now p name schema).exec env file = some file') : Closable file' := by
  obtain ⟨⟨status, f⟩, hcreate, rfl⟩ := Option.map_eq_some_iff.mp hrun
  obtain ⟨-, file1, t, file2, order, file3, h1, h2, h3, rfl⟩ :=
    createDocument_cases hcreate hcomplete
  have hc1 : Closable file1 := by
    unfold expanded at h1
    split at h1
    · exact hexp file1 h1
    · obtain rfl := Option.some.inj h1
      exact h
  have hc2 : Closable file2 := by
    unfold createToast at h2
    split at h2
    · rename_i hreq
      exact hc1.allocToast (hbuilt.wf.toastRequest_pos hreq) h2
    · obtain ⟨-, rfl⟩ := Prod.mk.inj (Option.some.inj h2)
      exact hc1
  exact (hc2.createBlock h3).sameTables (sameTables_fwriteAt _ _ _ _ _)

theorem sound_insertAll {list : FreeIndexesList} (h : list.Sound) {freed : List Node}
    (hsized : ∀ n ∈ freed, n.blockSize ≠ 0) : (insertAll list freed).Sound := by
  induction freed generalizing list with
  | nil => exact h
  | cons n freed ih =>
    have hn := hsized n List.mem_cons_self
    exact ih (h.insertDeadIndex n.indexOrder (Nat.pos_of_ne_zero hn)) fun x hx =>
      hsized x (List.mem_cons_of_mem _ hx)

theorem sameTables_unlinked {fuel : Nat} {doc : Document}
    (h : unlinked fuel file doc = some file') :
    SameTables file file' := by
  obtain ⟨sons, -, h⟩ := Option.bind_eq_some_iff.mp h
  unfold unlink at h
  simp only at h
  split at h
  · obtain rfl := Option.some.inj h
    exact sameTables_fwriteAt _ _ _ _ _
  · split at h
    · cases h
    · obtain rfl := Option.some.inj h
      exact sameTables_fwriteAt _ _ _ _ _

/-- **A deletion** that frees no block with a capacity of 0. -/
theorem Closable.delete (h : Closable file) {env : Env A} {d p : Nat}
    (hsized : (Call.delete d p).FreesSized file)
    (hrun : (Call.delete d p).exec env file = some file') : Closable file' := by
  obtain ⟨file1, hunlink, hf⟩ : ∃ file1, unlinked (loopBound file) file (documentAt file d p)
      = some file1 ∧ Freeing file1 file' _ := deleteDocument_freeing hrun
  rw [Call.FreesSized, Call.freed, hunlink] at hsized
  have h1 := h.sameTables (sameTables_unlinked hunlink)
  refine ⟨hf.saved h1.saved, ?_, ?_, ?_, ?_⟩
  · rw [hf.header]
    exact h1.format
  · rw [hf.header]
    exact h1.version
  · rw [hf.header]
    exact h1.indexCount
  · rw [hf.freeList]
    exact sound_insertAll h1.sound hsized

end Closable

end Steps

/-! ## 3. Every run

No assumption on the blocks is needed, so the result holds in runs that have damaged the store, as
long as no deletion frees an index with size 0. -/

section Runs

variable {file file' : ZgdbFile Nat}

theorem closable_expandLoop {fuel : Nat} {s t : ExpandState} (h : Closable s.file)
    (hrun : expandLoop fuel s = some t) : Closable t.file := by
  induction fuel generalizing s with
  | zero => cases hrun
  | succ fuel ih =>
    rw [expandLoop] at hrun
    split at hrun
    · obtain ⟨u, hu, hrest⟩ := Option.bind_eq_some_iff.mp hrun
      refine ih ?_ hrest
      obtain ⟨⟨n, k⟩, -, hstep⟩ := Option.bind_eq_some_iff.mp hu
      obtain rfl := Option.some.inj hstep
      have hoffset : SameTables s.file (updateOffset
          (copyBytes s.file s.nextBlock s.file.header.fileSize n) k s.file.header.fileSize).1 := by
        unfold updateOffset
        split
        · exact ⟨rfl, rfl, rfl⟩
        · exact ⟨rfl, rfl, rfl⟩
      have h' := h.sameTables hoffset
      exact ⟨rfl, h'.format, h'.version, h'.indexCount, h'.sound⟩
    · obtain rfl := Option.some.inj hrun
      exact h

/-- **An expansion**, whatever it moves. -/
theorem Closable.expandIndexes (h : Closable file) (hrun : expandIndexes file = some file') :
    Closable file' := by
  obtain ⟨s, hloop, huse⟩ := Option.bind_eq_some_iff.mp hrun
  have hs := closable_expandLoop (s := expandStart file) h hloop
  have hg := useFreeSize_some huse
  refine ⟨hg.saved, ?_, ?_, ?_, ?_⟩
  · rw [hg.header]
    exact hs.format
  · rw [hg.header]
    exact hs.version
  · rw [hg.header]
    exact Nat.lt_of_lt_of_le hs.indexCount (Nat.le_add_right _ _)
  · rw [hg.freeList]
    exact (foldl_insertNewIndex hs.sound _).1

/-- Every state of a run that frees no block with a capacity of 0. -/
theorem Reaches.closable {strtod : CString → StrtodResult}
    (h : Reaches ⟨expandIndexes, strtod⟩
      (fun file call => call.Structural ∧ call.FreesSized file) file) : Closable file := by
  obtain ⟨now, calls, hrun⟩ := h
  refine hrun.inv (closable_init now) ?_
  intro f call f' hf hcall he
  obtain ⟨hl, hstr, hsized⟩ := hcall
  cases call with
  | create now p name schema =>
    exact hf.create (fun file1 h1 => hf.expandIndexes h1) hl.2.1 hl.2.2 he
  | delete d p => exact hf.delete hsized he
  | deleteRoot => cases hstr
  | update => cases hstr

end Runs

/-! ## 4. A capacity of 0

The zero bytes of one toast reach the header of the next, which is deleted afterwards.  Its index is
DEAD with a size of 0, and is taken for a NEW one when the list is read back. -/

end Zgdb
