/-
# Making room among records

`expandIndexes` of `zgdb.c` once more, over records.  The walk behind the table still goes by the
places of the blocks, so a place where no record begins has nothing to read.  A record that is moved
goes with its index: only its place in the file changes.

The free bytes are cast to `int`.  `Expandable` bounds how far a block that the walk can reach
leads; then the cast loses nothing and the list gets the indices it needs
(`ByRecord.expandIndexes_supplies`).  Without the bound the records are kept all the same
(`RecordStore.expand`).
-/
import Zgdb.ExpandIndexes
import Zgdb.Records

namespace Zgdb.ByRecord

open Zgdb.Lib AddrSpace

/-! ## 1. The code -/

/-- The variables of the loop. -/
structure ExpandState where
  file : ZgdbFile RecordPos
  currentFreeSize : Nat
  nextBlock : Nat

/-- The record that begins at a place of the file. -/
def recordAt (file : ZgdbFile RecordPos) (place : Nat) : Option Nat :=
  (List.range file.header.indexCount).find? fun k =>
    ((file.indexes k).flag = .alive ∨ (file.indexes k).flag = .dead) ∧
      (file.indexes k).offset = place

/-- `bufSize` and `indexOrderToUpdate`, read from a record. -/
def readBlock (file : ZgdbFile RecordPos) (k : Nat) : Option (Nat × Nat) :=
  let blockType := freadAt byteK file (blockPos file k) 0
  if blockType = BlockType.document.code then
    let header := freadAt documentHeaderK file (blockPos file k) 0
    some (header.size, header.indexAttached)
  else if blockType = BlockType.toast.code then
    let toastBlock := freadAt toastK file (blockPos file k) 0
    some (toastBlock.capacity, toastBlock.indexAttached)
  else none

/-- The body of the loop.  The bytes that are copied are those of the record. -/
def expandStep (s : ExpandState) : Option ExpandState := do
  let k ← recordAt s.file s.nextBlock
  let (bufSize, indexOrderToUpdate) ← readBlock s.file k
  let file := (updateOffset s.file indexOrderToUpdate s.file.header.fileSize).1
  let file := saveHeader
    { file with header := { file.header with fileSize := file.header.fileSize + bufSize } }
  return ⟨file, s.currentFreeSize + bufSize, s.nextBlock + bufSize⟩

def expandLoop : (fuel : Nat) → ExpandState → Option ExpandState
  | 0, _ => none
  | fuel + 1, s =>
    if s.currentFreeSize < expandReqSize then (expandStep s).bind (expandLoop fuel) else some s

/-- The variables before the loop. -/
def expandStart (file : ZgdbFile RecordPos) : ExpandState :=
  ⟨file, file.header.betweenSpace, dataStart file.header⟩

/-- What is done with the free bytes; their number is cast to `int`. -/
def useFreeSize (s : ExpandState) : Option (ZgdbFile RecordPos) :=
  let currentFreeSize := (Int32.ofNat s.currentFreeSize).toInt
  let newIndexesCount := currentFreeSize.tdiv sizeofZgdbIndex
  let rem := currentFreeSize.tmod sizeofZgdbIndex
  if newIndexesCount < 0 then none
  else
    let file := saveHeader
      { s.file with header := { s.file.header with betweenSpace := (rem % 256).toNat } }
    let start := file.header.indexCount
    let file :=
      { file with freeList :=
          (List.range' start newIndexesCount.toNat).foldl insertNewIndex file.freeList }
    some (createIndexes file newIndexesCount.toNat true)

/-- `expandIndexes`; the loop ends within this number of iterations or never. -/
def expandIndexes (file : ZgdbFile RecordPos) : Option (ZgdbFile RecordPos) :=
  (expandLoop (expandReqSize + 1) (expandStart file)).bind useFreeSize

/-! ## 2. The walk

An iteration moves one record, and has no result at a place where none begins.  What it moves keeps
its flag and its bytes, and all others are as they were. -/

/-- Only the places of the records and the size of the file are new. -/
structure Walking (file : ZgdbFile RecordPos) (s : ExpandState) : Prop where
  header : s.file.header = { file.header with fileSize := s.file.header.fileSize }
  freeList : s.file.freeList = file.freeList
  mem : s.file.mem = file.mem
  flag : ∀ k, (s.file.indexes k).flag = (file.indexes k).flag

variable {file file1 : ZgdbFile RecordPos} {s s' : ExpandState}

theorem walking_start (file : ZgdbFile RecordPos) : Walking file (expandStart file) :=
  ⟨rfl, rfl, rfl, fun _ => rfl⟩

/-- What an iteration does with the record `k`: the index `order` is told its new place. -/
structure Stepped (s s' : ExpandState) (k bufSize order : Nat) : Prop where
  record : recordAt s.file s.nextBlock = some k
  read : readBlock s.file k = some (bufSize, order)
  free : s'.currentFreeSize = s.currentFreeSize + bufSize
  next : s'.nextBlock = s.nextBlock + bufSize
  header : s'.file.header = { s.file.header with fileSize := s.file.header.fileSize + bufSize }
  freeList : s'.file.freeList = s.file.freeList
  mem : s'.file.mem = s.file.mem
  self : s'.file.indexes order = s.file.indexes order ∨
    s'.file.indexes order = ⟨(s.file.indexes order).flag, s.file.header.fileSize⟩
  other : ∀ j, j ≠ order → s'.file.indexes j = s.file.indexes j

theorem expandStep_cases (h : expandStep s = some s') :
    ∃ k bufSize order, Stepped s s' k bufSize order := by
  obtain ⟨k, hk, h⟩ := Option.bind_eq_some_iff.mp h
  obtain ⟨⟨bufSize, order⟩, hread, h⟩ := Option.bind_eq_some_iff.mp h
  obtain rfl := Option.some.inj h
  refine ⟨k, bufSize, order, ?_⟩
  simp only [updateOffset]
  split
  · exact ⟨hk, hread, rfl, rfl, rfl, rfl, rfl, Or.inl rfl, fun _ _ => rfl⟩
  · exact ⟨hk, hread, rfl, rfl, rfl, rfl, rfl, Or.inr (if_pos rfl), fun j hj => if_neg hj⟩

theorem Stepped.flag {k bufSize order : Nat} (h : Stepped s s' k bufSize order) (j : Nat) :
    (s'.file.indexes j).flag = (s.file.indexes j).flag := by
  by_cases hj : j = order
  · rw [hj]
    rcases h.self with hi | hi <;> rw [hi]
  · rw [h.other j hj]

theorem Walking.step (h : Walking file s) (hs : expandStep s = some s') : Walking file s' := by
  obtain ⟨k, bufSize, order, hst⟩ := expandStep_cases hs
  refine ⟨?_, hst.freeList.trans h.freeList, hst.mem.trans h.mem,
    fun j => (hst.flag j).trans (h.flag j)⟩
  rw [hst.header, h.header]

theorem Walking.used_iff (h : Walking file s) {k : Nat} : Used s.file k ↔ Used file k := by
  unfold Used Alive Dead
  rw [h.header, h.flag]

/-- An iteration that finds a record to move. -/
theorem expandStep_of {k bufSize order : Nat} (hk : recordAt s.file s.nextBlock = some k)
    (hread : readBlock s.file k = some (bufSize, order)) :
    ∃ s', expandStep s = some s' ∧ Stepped s s' k bufSize order := by
  obtain ⟨s', hs⟩ : ∃ s', expandStep s = some s' := by
    unfold expandStep
    simp only [hk, hread, Option.bind_eq_bind, Option.bind_some]
    exact ⟨_, rfl⟩
  obtain ⟨k', bufSize', order', hst⟩ := expandStep_cases hs
  obtain rfl := Option.some.inj (hk.symm.trans hst.record)
  obtain ⟨rfl, rfl⟩ := Prod.mk.inj (Option.some.inj (hread.symm.trans hst.read))
  exact ⟨s', hs, hst⟩

/-- **The loop keeps what an iteration keeps**, and ends with enough free bytes. -/
theorem expandLoop_inv {P : ExpandState → Prop}
    (hstep : ∀ s s', P s → s.currentFreeSize < expandReqSize → expandStep s = some s' → P s')
    {fuel : Nat} (hP : P s) (h : expandLoop fuel s = some s') :
    P s' ∧ expandReqSize ≤ s'.currentFreeSize := by
  induction fuel generalizing s with
  | zero => cases h
  | succ fuel ih =>
    rw [expandLoop] at h
    by_cases hlt : s.currentFreeSize < expandReqSize
    · rw [if_pos hlt] at h
      obtain ⟨t, ht, h⟩ := Option.bind_eq_some_iff.mp h
      exact ih (hstep s t hP hlt ht) h
    · rw [if_neg hlt] at h
      obtain rfl := Option.some.inj h
      exact ⟨hP, Nat.not_lt.mp hlt⟩

/-! ## 3. What comes out

Indices are added, and nothing else is different for who looks at the records by their indices. -/

/-- The free bytes have become `n` indices. -/
structure Grown (file file1 : ZgdbFile RecordPos) (n : Nat) : Prop where
  indexCount : file1.header.indexCount = file.header.indexCount + n
  space : file1.header.betweenSpace < 2 ^ 8
  nodes : file1.header.nodes = file.header.nodes
  freeList : file1.freeList = (List.range' file.header.indexCount n).foldl insertNewIndex
    file.freeList
  old : ∀ k < file.header.indexCount, (file1.indexes k).flag = (file.indexes k).flag
  new : ∀ k, file.header.indexCount ≤ k → k < file.header.indexCount + n →
    (file1.indexes k).flag = .new
  mem : file1.mem = file.mem

/-- The number of new indices. -/
def newIndexes (currentFreeSize : Nat) : Nat :=
  ((Int32.ofNat currentFreeSize).toInt.tdiv sizeofZgdbIndex).toNat

theorem Walking.grown (h : Walking file s) (hu : useFreeSize s = some file1) :
    Grown file file1 (newIndexes s.currentFreeSize) := by
  have hcount : s.file.header.indexCount = file.header.indexCount := by rw [h.header]
  have hnodes : s.file.header.nodes = file.header.nodes := by rw [h.header]
  unfold useFreeSize at hu
  simp only at hu
  split at hu
  · cases hu
  · obtain rfl := Option.some.inj hu
    rw [newIndexes]
    generalize ((Int32.ofNat s.currentFreeSize).toInt.tdiv sizeofZgdbIndex).toNat = n
    refine ⟨congrArg (· + n) hcount, ?_, hnodes, ?_, ?_, ?_, h.mem⟩
    · show (((Int32.ofNat s.currentFreeSize).toInt.tmod sizeofZgdbIndex) % 256).toNat < 2 ^ 8
      omega
    · rw [← hcount, ← h.freeList]
      rfl
    · intro k hk
      rw [← hcount] at hk
      rw [← h.flag]
      exact congrArg ZgdbIndex.flag (if_neg fun hle => Nat.not_le.mpr hk hle.1)
    · intro k h1 h2
      rw [← hcount] at h1 h2
      exact congrArg ZgdbIndex.flag (if_pos ⟨h1, h2⟩)

theorem Grown.alive_iff {n k : Nat} (h : Grown file file1 n) : Alive file1 k ↔ Alive file k := by
  unfold Alive
  rw [h.indexCount]
  constructor
  · rintro ⟨hk, hf⟩
    by_cases hlt : k < file.header.indexCount
    · exact ⟨hlt, h.old k hlt ▸ hf⟩
    · rw [h.new k (by omega) hk] at hf
      cases hf
  · rintro ⟨hk, hf⟩
    exact ⟨by omega, (h.old k hk).trans hf⟩

theorem Grown.used_iff {n k : Nat} (h : Grown file file1 n) : Used file1 k ↔ Used file k := by
  unfold Used
  rw [h.alive_iff]
  refine or_congr_right ?_
  unfold Dead
  rw [h.indexCount]
  constructor
  · rintro ⟨hk, hf⟩
    by_cases hlt : k < file.header.indexCount
    · exact ⟨hlt, h.old k hlt ▸ hf⟩
    · rw [h.new k (by omega) hk] at hf
      cases hf
  · rintro ⟨hk, hf⟩
    exact ⟨by omega, (h.old k hk).trans hf⟩

/-- The records are where they were: only their places in the file may have changed. -/
theorem Grown.blockAt_eq {n : Nat} (h : Grown file file1 n) (k : Nat) :
    blockAt file1 k = blockAt file k := by
  funext d
  show file1.mem _ = file.mem _
  rw [h.mem]
  rfl

theorem Grown.records {n : Nat} {docs : List Nat} (h : Grown file file1 n)
    (hr : Records file docs) : Records file1 docs := by
  obtain ⟨hsound, -, -⟩ := foldl_insertNewIndex hr.sound (List.range' file.header.indexCount n)
  have hlt : ∀ m ∈ file.freeList.nodes, m.indexOrder < file.header.indexCount := fun m hm =>
    (hr.node m hm).1
  refine ⟨h.freeList ▸ hsound, h.freeList ▸ nodup_insertNewIndexes n hr.nodup hlt, ?_,
    ?_, ?_, h.space⟩
  · intro m hm
    rw [h.alive_iff, h.indexCount]
    rw [h.freeList, mem_insertNewIndexes] at hm
    rcases hm with ⟨-, hle, hlt'⟩ | hm
    · exact ⟨hlt', fun hal => Nat.not_le.mpr hal.1 hle⟩
    · exact ⟨Nat.lt_of_lt_of_le (hlt m hm) (Nat.le_add_right _ n), (hr.node m hm).2⟩
  · intro k hk
    have hcl : SameClass file file1 k :=
      .of_agrees (hr.block k (h.used_iff.mp hk)) fun d _ => by rw [h.blockAt_eq]
    exact hcl.record
  · intro k
    rw [hr.docs, h.alive_iff, isDocument_congr (h.blockAt_eq k)]

/-- **An expansion that returns keeps the store**, whatever it adds. -/
theorem expandIndexes_grown (h : expandIndexes file = some file1) :
    ∃ s, Walking file s ∧ Grown file file1 (newIndexes s.currentFreeSize) := by
  obtain ⟨s, hloop, huse⟩ := Option.bind_eq_some_iff.mp h
  obtain ⟨hw, -⟩ := expandLoop_inv (fun _ _ hw _ hs => hw.step hs) (walking_start file) hloop
  exact ⟨s, hw, hw.grown huse⟩

/-! ## 4. How many indices

The loop counts the free bytes by what the blocks say, so they are bounded by how far a block leads.
Below `2 ^ 31` the cast to `int` is exact, and enough bytes give enough indices. -/

/-- No record that begins in the bytes that are asked for leads `2 ^ 31` bytes or more behind the
table. -/
def Expandable (file : ZgdbFile RecordPos) : Prop :=
  ∀ k bufSize order, Used file k → readBlock file k = some (bufSize, order) →
    (file.indexes k).offset < tableEnd file.header + expandReqSize →
    (file.indexes k).offset + bufSize < tableEnd file.header + 2 ^ 31

/-- The free bytes fit into an `int`.  A record is where it was, or has been counted among them. -/
structure Counting (file : ZgdbFile RecordPos) (s : ExpandState) : Prop extends Walking file s where
  count : tableEnd file.header + s.currentFreeSize = s.nextBlock
  small : s.currentFreeSize < 2 ^ 31
  place : ∀ k bufSize order, Used file k → readBlock file k = some (bufSize, order) →
    (s.file.indexes k).offset = (file.indexes k).offset ∨ bufSize ≤ s.currentFreeSize

theorem counting_start (h : file.header.betweenSpace < 2 ^ 8) : Counting file (expandStart file) :=
  { walking_start file with
    count := rfl
    small := Nat.lt_trans h (by decide)
    place := fun _ _ _ _ _ => Or.inl rfl }

theorem Walking.readBlock_eq (h : Walking file s) (k : Nat) :
    readBlock s.file k = readBlock file k := by
  unfold readBlock freadAt
  rw [h.mem]
  rfl

/-- What is read from a record are its bytes. -/
theorem readBlock_congr {k : Nat} (h : blockAt file1 k = blockAt file k) :
    readBlock file1 k = readBlock file k := by
  simp only [readBlock, freadAt_eq, h]

/-- The record of a toast. -/
theorem readBlock_toast {k : Nat} (h : ToastRecord file k) :
    readBlock file k = some ((toastAt file k).capacity, k) := by
  have hne : ¬ BlockType.toast.code = BlockType.document.code := by decide
  unfold readBlock
  simp only [h.type_byte, if_neg hne, if_true]
  exact congrArg some (Prod.ext rfl h.attached)

/-- The record of a document. -/
theorem readBlock_document {k : Nat} (h : IsDocument file k) :
    readBlock file k = some ((getDocumentHeader file k).size, k) := by
  unfold readBlock
  simp only [h.type_byte, if_true]
  exact congrArg some (Prod.ext rfl h.attached)

/-- A record tells its own index a new place. -/
theorem readBlock_order {k bufSize order : Nat} {docs : List Nat} (hr : Records file docs)
    (hk : Used file k) (h : readBlock file k = some (bufSize, order)) : order = k := by
  rcases hr.block k hk with hd | ht
  · rw [readBlock_document hd] at h
    exact (Prod.mk.inj (Option.some.inj h)).2.symm
  · rw [readBlock_toast ht] at h
    exact (Prod.mk.inj (Option.some.inj h)).2.symm

theorem recordAt_spec {place k : Nat} (h : recordAt file place = some k) :
    Used file k ∧ (file.indexes k).offset = place := by
  have hlt := List.mem_range.mp (List.mem_of_find?_eq_some h)
  have hp := List.find?_some h
  obtain ⟨hflag, hoff⟩ := of_decide_eq_true hp
  exact ⟨hflag.imp (fun hf => ⟨hlt, hf⟩) fun hf => ⟨hlt, hf⟩, hoff⟩

/-- The one record at a place. -/
theorem recordAt_eq {place k : Nat} (hk : Used file k) (hoff : (file.indexes k).offset = place)
    (huniq : ∀ j, Used file j → (file.indexes j).offset = place → j = k) :
    recordAt file place = some k := by
  have hsome : (recordAt file place).isSome := by
    refine List.find?_isSome.mpr ⟨k, List.mem_range.mpr hk.lt, decide_eq_true ⟨?_, hoff⟩⟩
    exact hk.imp And.right And.right
  obtain ⟨j, hj⟩ := Option.isSome_iff_exists.mp hsome
  obtain ⟨hju, hjoff⟩ := recordAt_spec hj
  rw [hj, huniq j hju hjoff]

/-- **An iteration counts the bytes of the record it moves.** -/
theorem Counting.step {docs : List Nat} (h : Counting file s) (hr : Records file docs)
    (he : Expandable file) (hlt : s.currentFreeSize < expandReqSize)
    (hs : expandStep s = some s') : Counting file s' := by
  obtain ⟨k, bufSize, order, hst⟩ := expandStep_cases hs
  obtain ⟨hks, hoff⟩ := recordAt_spec hst.record
  have hk : Used file k := h.used_iff.mp hks
  have hread : readBlock file k = some (bufSize, order) :=
    (h.readBlock_eq k).symm.trans hst.read
  obtain rfl := readBlock_order hr hk hread
  have hreq : expandReqSize = 1800000 := rfl
  have hcount := h.count
  refine { h.toWalking.step hs with count := ?_, small := ?_, place := ?_ }
  · rw [hst.free, hst.next]
    omega
  · rw [hst.free]
    rcases h.place order bufSize order hk hread with hsame | hle
    · -- it has not been moved before, so it begins in the bytes that are asked for
      rw [hsame] at hoff
      have := he order bufSize order hk hread (by omega)
      omega
    · omega
  · intro j b o hj hb
    rw [hst.free]
    by_cases hjk : j = order
    · subst hjk
      obtain ⟨rfl, -⟩ := Prod.mk.inj (Option.some.inj (hread.symm.trans hb))
      exact Or.inr (Nat.le_add_left _ _)
    · rw [hst.other j hjk]
      exact (h.place j b o hj hb).imp_right fun hle => hle.trans (Nat.le_add_right _ _)

/-- Free bytes that fit into an `int` are all used. -/
theorem newIndexes_eq {n : Nat} (h : n < 2 ^ 31) : newIndexes n = n / sizeofZgdbIndex := by
  have hcast : (Int32.ofNat n).toInt = n := Int32.toInt_ofNat_of_lt h
  have hquot : (n : Int).tdiv sizeofZgdbIndex = (n / sizeofZgdbIndex : Nat) := rfl
  rw [newIndexes, hcast, hquot, Int.toNat_natCast]

/-- **An expansion supplies the list** when no record it can reach leads too far. -/
theorem expandIndexes_supplies {docs : List Nat} (hr : Records file docs) (he : Expandable file)
    (h : expandIndexes file = some file1) :
    file.freeList.newIndexesCount + addedIndexes ≤ file1.freeList.newIndexesCount := by
  obtain ⟨s, hloop, huse⟩ := Option.bind_eq_some_iff.mp h
  obtain ⟨hc, hge⟩ := expandLoop_inv (fun _ _ hc hlt hs => hc.step hr he hlt hs)
    (counting_start hr.space) hloop
  have hg := hc.grown huse
  rw [newIndexes_eq hc.small] at hg
  obtain ⟨-, -, hnew⟩ := foldl_insertNewIndex hr.sound
    (List.range' file.header.indexCount (s.currentFreeSize / sizeofZgdbIndex))
  rw [hg.freeList, hnew, List.length_range']
  have hreq : expandReqSize = 1800000 := rfl
  have hadd : addedIndexes = 200000 := rfl
  have hsize : s.currentFreeSize / sizeofZgdbIndex = s.currentFreeSize / 9 := rfl
  omega

end Zgdb.ByRecord
