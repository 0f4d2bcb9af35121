/-
# The store file, its index table and its blocks

`format/zgdbfile.c`, `index/zgdbindex.c` and the header accessors of `data/zgdbdata.c`.  A file is
its header, the table of indices, the free list and the bytes of the data area.  The index table
is the mapped table of the source; `saved` is the copy of the header that `saveHeader` writes to
the start of the file.

Everything the code reads or writes in the data area lies at a displacement from the offset of
some index, so the code is written once over a `BlockSpace`: the positions of the data area, with
the position where the block of an index starts.  There are two of them.  `Nat` is the file as it
is, one line of bytes in which blocks may overlap.  `RecordPos` gives each index a record of its
own.
-/
import Zgdb.Data
import Zgdb.FreeList

namespace Zgdb

open Zgdb.Lib AddrSpace

/-! ## 1. Positions of blocks

The functions of the store are written once for both spaces.  Over bytes they are the functions of
the source; over records a block cannot run into another one, which separates what the links and
tables do from what the layout does. -/

/-- The positions of the data area: `base order offset` is where the block attached to `order` at
`offset` starts.  Blocks whose extents do not overlap have no position in common. -/
class BlockSpace (A : Type) extends AddrSpace A where
  base : Nat → Nat → A
  base_apart : ∀ {j k : Nat}, j ≠ k → ∀ {o n o' n' : Nat}, o + n ≤ o' ∨ o' + n' ≤ o →
    Apart (base j o) n (base k o') n'

/-- The file as one line of bytes: a block starts at its offset. -/
instance : BlockSpace Nat where
  base _ offset := offset
  base_apart _ _ _ _ _ h := by
    rw [apart_nat]
    omega

/-- A position inside the record of one index. -/
structure RecordPos where
  order : Nat
  disp : Nat
deriving DecidableEq, Repr

/-- Each attached block as a record of its own. -/
instance : BlockSpace RecordPos where
  add p n := ⟨p.order, p.disp + n⟩
  disp p a := if p.order = a.order ∧ p.disp ≤ a.disp then some (a.disp - p.disp) else none
  disp_eq_some := by
    rintro ⟨k, d⟩ ⟨k', d'⟩ n
    by_cases h : k = k' ∧ d ≤ d'
    · obtain ⟨rfl, h⟩ := h
      simp only [true_and, if_pos h, Option.some.injEq, RecordPos.mk.injEq]
      exact (Nat.sub_eq_iff_eq_add' h).trans eq_comm
    · simp only [if_neg h, reduceCtorEq, RecordPos.mk.injEq, false_iff]
      omega
  shift_zero _ := rfl
  shift_shift p m n := by simp only [RecordPos.mk.injEq, true_and]; omega
  base order _ := ⟨order, 0⟩
  base_apart hjk _ _ _ _ _ _ _ _ _ h := hjk (congrArg RecordPos.order h)

/-! ## 2. The file -/

/-- `indexFlags` -/
inductive IndexFlag where
  | new
  | alive
  | dead
  | invalid
deriving DecidableEq, Repr

/-- `zgdbIndex` -/
structure ZgdbIndex where
  flag : IndexFlag
  offset : Nat
deriving DecidableEq, Repr

/-- `zgdbHeader` -/
structure ZgdbHeader where
  zgdbType : UInt32
  version : UInt8
  indexCount : Nat
  betweenSpace : Nat
  nodes : Nat
  fileSize : Nat
deriving DecidableEq, Repr

/-- `zgdbFile` -/
structure ZgdbFile (A : Type) where
  header : ZgdbHeader
  saved : ZgdbHeader
  indexes : Nat → ZgdbIndex
  freeList : FreeIndexesList
  mem : Mem A Obj

/-- `document` -/
structure Document where
  isRoot : Bool
  indexParent : Nat
  header : DocumentHeader
deriving DecidableEq

/-- `isRootDocumentHeader` -/
def isRootDocumentHeader (header : DocumentHeader) : Bool :=
  header.name = Name.root ∧ header.indexAttached = 0 ∧ header.attrCount = 0 ∧
    header.indexBrother = 0

/-- `generateId`, at the time `now` -/
def generateId (now : UInt32) (offset : Nat) : DocumentId := ⟨now, offset⟩

/-- `getZgdbFormat`: the characters Z, G, D, B. -/
def getZgdbFormat : UInt32 := 0x4244475A

section Code

variable {A : Type} [BlockSpace A]

def saveHeader (file : ZgdbFile A) : ZgdbFile A := { file with saved := file.header }

/-! ## 3. The index table

The table is mapped into memory, so a change of an entry is in the file at once.  Of these functions
only `createIndexes` changes the header, which it saves. -/

def getIndex (file : ZgdbFile A) (order : Nat) : ZgdbIndex :=
  if order > file.header.indexCount - 1 then ⟨.invalid, 0⟩ else file.indexes order

/-- Overwrite one entry of the mapped table. -/
def setIndex (file : ZgdbFile A) (order : Nat) (index : ZgdbIndex) : ZgdbFile A :=
  { file with indexes := fun i => if i = order then index else file.indexes i }

def createIndexes (file : ZgdbFile A) (n : Nat) (expand : Bool) : ZgdbFile A :=
  saveHeader
    { file with
      indexes := fun i =>
        if file.header.indexCount ≤ i ∧ i < file.header.indexCount + n then ⟨.new, 0⟩
        else file.indexes i
      header := { file.header with
        indexCount := file.header.indexCount + n
        fileSize := if expand then file.header.fileSize
          else file.header.fileSize + n * sizeofZgdbIndex } }

def attachIndexToBlock (file : ZgdbFile A) (order blockOffset : Nat) : ZgdbFile A × Bool :=
  if order > file.header.indexCount - 1 then (file, false)
  else (setIndex file order ⟨.alive, blockOffset⟩, true)

def killIndex (file : ZgdbFile A) (order : Nat) : ZgdbFile A × Bool :=
  if order > file.header.indexCount - 1 then (file, false)
  else if (file.indexes order).flag ≠ .alive then (file, false)
  else (setIndex file order { file.indexes order with flag := .dead }, true)

def updateOffset (file : ZgdbFile A) (indexOrder offset : Nat) : ZgdbFile A × Bool :=
  if indexOrder > file.header.indexCount - 1 then (file, false)
  else (setIndex file indexOrder { file.indexes indexOrder with offset := offset }, true)

/-! ## 4. Reading and writing blocks -/

/-- Where `getIndex(file, order).offset` points to. -/
def blockPos (file : ZgdbFile A) (order : Nat) : A :=
  BlockSpace.base order (getIndex file order).offset

/-- The bytes of the block of `order`, by displacement. -/
def blockAt (file : ZgdbFile A) (order : Nat) : Mem Nat Obj :=
  fun d => file.mem (add (blockPos file order) d)

/-- `fseeko` to `pos + d`, then `fread` of one object. -/
def freadAt {α : Type} (k : Kind Obj α) (file : ZgdbFile A) (pos : A) (d : Nat) : α :=
  load k file.mem (add pos d)

/-- `fseeko` to `pos + d`, then `fwrite` of one object. -/
def fwriteAt {α : Type} (k : Kind Obj α) (file : ZgdbFile A) (pos : A) (d : Nat) (a : α) :
    ZgdbFile A :=
  { file with mem := store k file.mem (add pos d) a }

/-- `fwrite` of a buffer of `n` zero bytes at `pos + d`. -/
def fwriteZeros (file : ZgdbFile A) (pos : A) (d n : Nat) : ZgdbFile A :=
  { file with mem := fill file.mem (add pos d) n ⟨.byte 0, 0⟩ }

def getDocumentHeader (file : ZgdbFile A) (order : Nat) : DocumentHeader :=
  freadAt documentHeaderK file (blockPos file order) 0

/-- The branch of `loadOrCreateZgdbFile` for a path that does not exist. -/
def createZgdbFile : ZgdbFile A :=
  let header : ZgdbHeader :=
    { zgdbType := getZgdbFormat, version := 1, indexCount := 0, betweenSpace := 0, nodes := 0,
      fileSize := sizeofZgdbHeader }
  { header := header, saved := header, indexes := fun _ => ⟨.new, 0⟩,
    freeList := createIndexesList, mem := fun _ => ⟨.byte 0, 0⟩ }

def createRootDocument (now : UInt32) (file : ZgdbFile A) (offset : Nat) : ZgdbFile A :=
  let header : DocumentHeader :=
    { id := generateId now offset, size := sizeofDocumentHeader, capacity := sizeofDocumentHeader,
      attrCount := 0, indexAttached := 0, indexBrother := 0, indexSon := 0, name := Name.root,
      firstToastIndex := 0, blockType := BlockType.document.code }
  let file := fwriteAt documentHeaderK file (BlockSpace.base 0 offset) 0 header
  saveHeader
    { file with header := { file.header with
        fileSize := file.header.fileSize + sizeofDocumentHeader
        nodes := file.header.nodes + 1 } }

/-- `init` on a path that does not exist. -/
def init (now : UInt32) : ZgdbFile A :=
  let file : ZgdbFile A := createIndexes createZgdbFile indexInitialCapacity false
  let offset := file.header.indexCount * sizeofZgdbIndex + sizeofZgdbHeader
  let file := createRootDocument now file offset
  let file := (attachIndexToBlock file 0 offset).1
  { file with
    freeList := (List.range' 1 (indexInitialCapacity - 1)).foldl insertNewIndex file.freeList }

end Code

end Zgdb
