/-
# Making room for the index table

`expandIndexes` of `zgdb.c`, over the file as it is: one line of bytes.  The loop moves the block
that lies behind the table to the end of the file, until enough bytes are free; the free bytes
become indices.  How far the next block is away is read from the block: `capacity` for a toast,
but `size` for a document.

`Moving` is what holds while the blocks that are moved are full.  An iteration keeps it
(`Moving.step`), unless it moves a document that is smaller than its block: then it goes on inside
the old block (`Moving.shortStep`).
-/
import Zgdb.Frame

namespace Zgdb

open Zgdb.Lib AddrSpace

/-! ## 1. The code

The block behind the table is read, its index is given the end of the file, and its bytes are copied
there.  The loop goes on with what lies behind it, by the size that the block names. -/

/-- `INDEX_MULTIPLIER * INDEX_INITIAL_CAPACITY * sizeof(zgdbIndex)` -/
def expandReqSize : Nat := indexMultiplier * indexInitialCapacity * sizeofZgdbIndex

/-- The variables of the loop.  `nextBlock` is the place of the next block to move, and
`currentFreeSize` counts the bytes behind the index table that have become free so far. -/
structure ExpandState where
  file : ZgdbFile Nat
  currentFreeSize : Nat
  nextBlock : Nat

/-- `bufSize` and `indexOrderToUpdate`; they have no value when the block is of neither type. -/
def readBlock (file : ZgdbFile Nat) (nextBlock : Nat) : Option (Nat × Nat) :=
  let blockType := freadAt byteK file nextBlock 0
  if blockType = BlockType.document.code then
    let header := freadAt documentHeaderK file nextBlock 0
    some (header.size, header.indexAttached)
  else if blockType = BlockType.toast.code then
    let toastBlock := freadAt toastK file nextBlock 0
    some (toastBlock.capacity, toastBlock.indexAttached)
  else none

/-- `fread` of `n` bytes at `src` into a buffer, then `fwrite` of the buffer at `dst`. -/
def copyBytes (file : ZgdbFile Nat) (src dst n : Nat) : ZgdbFile Nat :=
  { file with
    mem := fun a => if dst ≤ a ∧ a < dst + n then file.mem (src + (a - dst)) else file.mem a }

/-- The body of the loop. -/
def expandStep (s : ExpandState) : Option ExpandState := do
  let (bufSize, indexOrderToUpdate) ← readBlock s.file s.nextBlock
  let file := copyBytes s.file s.nextBlock s.file.header.fileSize bufSize
  let file := (updateOffset file indexOrderToUpdate file.header.fileSize).1
  let file := saveHeader
    { file with header := { file.header with fileSize := file.header.fileSize + bufSize } }
  return ⟨file, s.currentFreeSize + bufSize, s.nextBlock + bufSize⟩

def expandLoop : (fuel : Nat) → ExpandState → Option ExpandState
  | 0, _ => none
  | fuel + 1, s =>
    if s.currentFreeSize < expandReqSize then (expandStep s).bind (expandLoop fuel) else some s

/-- The variables before the loop. -/
def expandStart (file : ZgdbFile Nat) : ExpandState :=
  ⟨file, file.header.betweenSpace, dataStart file.header⟩

/-- What is done with the free bytes.  Their number is cast to `int`; with a negative number of new
indices there is no array to write. -/
def useFreeSize (s : ExpandState) : Option (ZgdbFile Nat) :=
  let currentFreeSize := (Int32.ofNat s.currentFreeSize).toInt
  let newIndexesCount := currentFreeSize.tdiv sizeofZgdbIndex
  let rem := currentFreeSize.tmod sizeofZgdbIndex
  if newIndexesCount < 0 then none
  else
    let file := saveHeader
      { s.file with header := { s.file.header with betweenSpace := (rem % 256).toNat } }
    let start := file.header.indexCount
    let file :=
      { file with freeList :=
          (List.range' start newIndexesCount.toNat).foldl insertNewIndex file.freeList }
    some (createIndexes file newIndexesCount.toNat true)

/-- `expandIndexes`.  Every iteration with a `bufSize` frees a byte or more, and one without is
followed by the same again, so the loop ends within this number of iterations or never. -/
def expandIndexes (file : ZgdbFile Nat) : Option (ZgdbFile Nat) :=
  (expandLoop (expandReqSize + 1) (expandStart file)).bind useFreeSize

/-! ## 2. Blocks behind the table

What the loop takes for the length of a block (`stride`), against the length of the block. -/

/-- Where the index table ends. -/
def tableEnd (header : ZgdbHeader) : Nat :=
  sizeofZgdbHeader + header.indexCount * sizeofZgdbIndex

/-- The blocks of the ALIVE and the DEAD indices fill the data area, and each begins with a header
that names its index; what is free is in the table.  It is the part of the invariant of the store
that the loop depends on, and all sound stores have it (`Blocks.toTiled`). -/
structure Tiled (file : ZgdbFile Nat) : Prop where
  tiled : ∃ ks : List Nat, ks.Nodup ∧ (∀ k, k ∈ ks ↔ Used file k) ∧
    Tiles file.indexes (blockCapacity file) (dataStart file.header) ks file.header.fileSize
  block : ∀ k, Used file k → IsDocument file k ∨ IsToast file k
  free : ∀ n ∈ file.freeList.nodes, n.indexOrder < file.header.indexCount
  space : file.header.betweenSpace < 2 ^ 8

theorem Blocks.toTiled {file : ZgdbFile Nat} {docs : List Nat} (h : Blocks file docs)
    (hspace : file.header.betweenSpace < 2 ^ 8) : Tiled file :=
  ⟨h.placed.tiled, h.block, fun n hn => (h.placed.node n hn).1, hspace⟩

/-- The distance `expandIndexes` reads from the block of `k`. -/
def stride (file : ZgdbFile Nat) (k : Nat) : Nat :=
  if freadAt byteK file (blockPos file k) 0 = BlockType.toast.code then (toastAt file k).capacity
  else (getDocumentHeader file k).size

section Blocks

variable {file file' : ZgdbFile Nat} {k : Nat}

theorem Tiled.capacity_pos (h : Tiled file) (hk : Used file k) : 0 < blockCapacity file k := by
  rcases h.block k hk with hd | ht
  · exact Nat.lt_of_lt_of_le (by decide) hd.header_le
  · exact Nat.lt_of_lt_of_le (by decide) ht.header_le

theorem blockPos_nat (hk : k < file.header.indexCount) :
    blockPos file k = (file.indexes k).offset := by
  rw [blockPos, getIndex_eq hk]
  rfl

theorem IsDocument.stride (h : IsDocument file k) :
    stride file k = (getDocumentHeader file k).size := by
  have hbyte : freadAt byteK file (blockPos file k) 0 = BlockType.document.code := by
    rw [freadAt_eq, load_byte_of_holds h.holds rfl]
    exact h.type
  rw [Zgdb.stride, hbyte, if_neg (by decide)]

theorem IsToast.stride (h : IsToast file k) : stride file k = blockCapacity file k := by
  have hbyte : freadAt byteK file (blockPos file k) 0 = BlockType.toast.code := by
    rw [freadAt_eq, load_byte_of_holds h.holds rfl]
    exact h.type
  rw [Zgdb.stride, hbyte, if_pos rfl, h.capacity]

/-- The distance leads behind a header and not behind the block. -/
theorem Tiled.stride_le (h : Tiled file) (hk : Used file k) :
    sizeofToast ≤ stride file k ∧ stride file k ≤ blockCapacity file k := by
  rcases h.block k hk with hd | ht
  · rw [hd.stride, hd.capacity]
    exact ⟨le_trans (by decide) hd.le_size, hd.size_le⟩
  · rw [ht.stride]
    exact ⟨ht.header_le, Nat.le_refl _⟩

/-- **What the loop reads at the start of a block.** -/
theorem readBlock_eq (hk : Used file k) (hb : IsDocument file k ∨ IsToast file k) :
    readBlock file (file.indexes k).offset = some (stride file k, k) := by
  rw [← blockPos_nat hk.lt, readBlock]
  rcases hb with hd | ht
  · have hbyte : freadAt byteK file (blockPos file k) 0 = BlockType.document.code := by
      rw [freadAt_eq, load_byte_of_holds hd.holds rfl]
      exact hd.type
    rw [hd.stride]
    simp only [hbyte, if_true]
    exact congrArg some (Prod.ext rfl hd.attached)
  · have hbyte : freadAt byteK file (blockPos file k) 0 = BlockType.toast.code := by
      rw [freadAt_eq, load_byte_of_holds ht.holds rfl]
      exact ht.type
    rw [ht.stride, ht.capacity]
    simp only [hbyte, if_true]
    exact congrArg some (Prod.ext rfl ht.attached)

/-- Blocks with the same header bytes have the same distance. -/
theorem stride_of_agrees {n : Nat} (hb : IsDocument file k ∨ IsToast file k)
    (hn : IsDocument file k → sizeofDocumentHeader ≤ n) (ht : sizeofToast ≤ n)
    (heq : Agrees file file' k n) :
    (IsDocument file' k ∨ IsToast file' k) ∧ stride file' k = stride file k ∧
      blockCapacity file' k = blockCapacity file k := by
  rcases hb with hd | htk
  · obtain ⟨hd', hheader, hcap⟩ := hd.of_eqOn (heq.mono (hn hd))
    refine ⟨Or.inl hd', ?_, hcap⟩
    rw [hd'.stride, hd.stride, hheader]
  · obtain ⟨ht', -, hcap⟩ := htk.of_eqOn (heq.mono ht)
    refine ⟨Or.inr ht', ?_, hcap⟩
    rw [ht'.stride, htk.stride, hcap]

end Blocks

/-! ## 3. One iteration

The block is the first of those in front of the loop and becomes the last.  The bytes are the same,
and the place behind it is the beginning of the next one. -/

/-- The first `n` bytes behind `src` are at the end of the file, and belong to `k`. -/
structure Moved (file file' : ZgdbFile Nat) (src n k : Nat) : Prop where
  header : file'.header = { file.header with fileSize := file.header.fileSize + n }
  saved : file'.saved = file'.header
  freeList : file'.freeList = file.freeList
  self : file'.indexes k = ⟨(file.indexes k).flag, file.header.fileSize⟩
  other : ∀ j, j ≠ k → file'.indexes j = file.indexes j
  copied : ∀ d < n, file'.mem (file.header.fileSize + d) = file.mem (src + d)
  below : ∀ a < file.header.fileSize, file'.mem a = file.mem a

theorem updateOffset_eq {file : ZgdbFile Nat} {k : Nat} (hk : k < file.header.indexCount)
    (offset : Nat) :
    (updateOffset file k offset).1 = setIndex file k ⟨(file.indexes k).flag, offset⟩ := by
  rw [updateOffset, if_neg (by omega)]

theorem expandStep_eq {s : ExpandState} {n k : Nat} (h : readBlock s.file s.nextBlock = some (n, k))
    (hk : k < s.file.header.indexCount) :
    ∃ file', expandStep s = some ⟨file', s.currentFreeSize + n, s.nextBlock + n⟩ ∧
      Moved s.file file' s.nextBlock n k := by
  obtain ⟨file1, h1⟩ : ∃ file1, file1 = copyBytes s.file s.nextBlock s.file.header.fileSize n :=
    ⟨_, rfl⟩
  have hk1 : k < file1.header.indexCount := by
    rw [h1]
    exact hk
  refine ⟨_, by rw [expandStep, h]; rfl, ?_⟩
  rw [← h1, updateOffset_eq hk1, h1]
  refine ⟨rfl, rfl, rfl, if_pos rfl, fun j hj => if_neg hj, ?_, ?_⟩
  · intro d hd
    refine (if_pos ⟨Nat.le_add_right _ _, Nat.add_lt_add_left hd _⟩).trans ?_
    rw [Nat.add_sub_cancel_left]
  · intro a ha
    exact if_neg fun h => absurd h.1 (Nat.not_le.mpr ha)

/-- What holds while the blocks that are moved are full: they lie one behind the other from
`nextBlock` on, with the bytes they had.  In the list `ks` the block at `nextBlock` is in front; a
block that is moved goes to its end, as it goes to the end of the file.  It can come round again
when the free bytes take more than all blocks. -/
structure Moving (file : ZgdbFile Nat) (s : ExpandState) (ks : List Nat) : Prop where
  free : tableEnd file.header + s.currentFreeSize = s.nextBlock
  header : s.file.header = { file.header with fileSize := s.file.header.fileSize }
  freeList : s.file.freeList = file.freeList
  flag : ∀ k, (s.file.indexes k).flag = (file.indexes k).flag
  tiles : Tiles s.file.indexes (blockCapacity file) s.nextBlock ks s.file.header.fileSize
  nodup : ks.Nodup
  used : ∀ k, k ∈ ks ↔ Used file k
  agrees : ∀ k, Used file k → Agrees file s.file k (blockCapacity file k)

section Step

variable {file file' : ZgdbFile Nat} {s : ExpandState} {ks : List Nat} {k : Nat}

theorem Moving.start (h : Tiled file) : ∃ ks, Moving file (expandStart file) ks := by
  obtain ⟨ks, hn, hmem, ht⟩ := h.tiled
  exact ⟨ks, rfl, rfl, rfl, fun _ => rfl, ht, hn, hmem, fun _ _ _ _ => rfl⟩

theorem Moving.used_iff (h : Moving file s ks) : Used s.file k ↔ Used file k := by
  unfold Used Alive Dead
  rw [h.header, h.flag]

theorem Moving.offset (h : Moving file s (k :: ks)) : (s.file.indexes k).offset = s.nextBlock :=
  h.tiles.1

/-- The state of a block in the loop is that of the block before it. -/
theorem Moving.block (h : Moving file s ks) (hf : Tiled file) (hk : Used file k) :
    (IsDocument s.file k ∨ IsToast s.file k) ∧ stride s.file k = stride file k ∧
      blockCapacity s.file k = blockCapacity file k := by
  have hle := hf.stride_le hk
  exact stride_of_agrees (hf.block k hk) (fun hd => hd.header_le) (hle.1.trans hle.2)
    (h.agrees k hk)

/-- A block that is moved stays one. -/
theorem Moved.used_iff {src n j : Nat} (h : Moved file file' src n k) :
    Used file' j ↔ Used file j := by
  unfold Used Alive Dead
  rw [h.header]
  by_cases hjk : j = k
  · rw [hjk, h.self]
  · rw [h.other j hjk]

/-- Bytes of a block that stays, and of one that is moved. -/
theorem Moved.agrees {src n : Nat} (h : Moved file file' src n k) {j : Nat} (hj : Used file j) :
    (j ≠ k → (file.indexes j).offset + blockCapacity file j ≤ file.header.fileSize →
      Agrees file file' j (blockCapacity file j)) ∧
    (j = k → src = (file.indexes j).offset → Agrees file file' j n) := by
  have hj' : j < file'.header.indexCount := by
    rw [h.header]
    exact hj.lt
  constructor
  · intro hjk hle d hd
    rw [blockAt, blockAt, blockPos_nat hj', blockPos_nat hj.lt, h.other j hjk]
    exact h.below _ (by simp only [add_nat]; omega)
  · rintro rfl hsrc d hd
    rw [blockAt, blockAt, blockPos_nat hj', blockPos_nat hj.lt, h.self, ← hsrc]
    exact h.copied d hd

/-- **The iteration that moves the next block**: it goes behind the last one, with as many bytes as
its distance says. -/
theorem Moving.next (h : Moving file s (k :: ks)) (hf : Tiled file) :
    ∃ file', expandStep s = some ⟨file', s.currentFreeSize + stride file k,
        s.nextBlock + stride file k⟩ ∧ Moved s.file file' s.nextBlock (stride file k) k := by
  have hk : Used file k := (h.used k).mp List.mem_cons_self
  obtain ⟨hb, hstride, -⟩ := h.block hf hk
  have hread := readBlock_eq (h.used_iff.mpr hk) hb
  rw [h.offset, hstride] at hread
  exact expandStep_eq hread (h.used_iff.mpr hk).lt

/-- **A full block is moved as it is.** -/
theorem Moving.step (h : Moving file s (k :: ks)) (hf : Tiled file)
    (hfull : stride file k = blockCapacity file k) :
    ∃ s', expandStep s = some s' ∧ s'.nextBlock = s.nextBlock + blockCapacity file k ∧
      (∀ j ∈ ks, (s'.file.indexes j).offset = (s.file.indexes j).offset) ∧
      (s'.file.indexes k).offset = s.file.header.fileSize ∧ Moving file s' (ks ++ [k]) := by
  obtain ⟨file', hstep, hm⟩ := h.next hf
  have hk : Used file k := (h.used k).mp List.mem_cons_self
  have hnotin : k ∉ ks := (List.nodup_cons.mp h.nodup).1
  have hoff : ∀ j ∈ ks, (file'.indexes j).offset = (s.file.indexes j).offset := by
    intro j hj
    rw [hm.other j fun he => hnotin (he ▸ hj)]
  rw [hfull] at hstep hm
  refine ⟨_, hstep, rfl, hoff, by rw [hm.self], ?_, ?_, hm.freeList.trans h.freeList,
    fun j => ?_, ?_,
    ?_, fun j => ?_, fun j hj => ?_⟩
  · rw [← h.free, Nat.add_assoc]
  · rw [hm.header, h.header]
  · by_cases hjk : j = k
    · rw [hjk, hm.self, h.flag]
    · rw [hm.other j hjk, h.flag]
  · rw [tiles_append]
    refine ⟨s.file.header.fileSize, h.tiles.2.congr fun j hj => ⟨hoff j hj, rfl⟩, ?_⟩
    exact ⟨by rw [hm.self], by rw [hm.header]; exact rfl⟩
  · rw [List.nodup_append]
    refine ⟨(List.nodup_cons.mp h.nodup).2, List.nodup_singleton k, ?_⟩
    rintro a ha b hb rfl
    exact hnotin (List.mem_singleton.mp hb ▸ ha)
  · rw [← h.used, List.mem_append, List.mem_singleton, List.mem_cons, or_comm]
  · obtain ⟨-, -, hcap⟩ := h.block hf hj
    obtain ⟨hstay, hmove⟩ := hm.agrees (h.used_iff.mpr hj)
    refine (h.agrees j hj).trans ?_
    rw [hcap] at hstay
    by_cases hjk : j = k
    · rw [hjk]
      exact hjk ▸ hmove hjk (hjk ▸ h.offset.symm)
    · exact hstay hjk ((h.tiles.le.2 j ((h.used j).mpr hj)).2)

end Step

end Zgdb
