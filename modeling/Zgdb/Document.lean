/-
# Creating, visiting and deleting documents

`createDocument`, `deleteDocument`, `createNewToast` and `forEachDocument` of `zgdb.c` with the
document iterator of `data/iterator/dociterator.c`.

`createDocument` is written over the function that makes room for new indices, because that one
moves blocks and is a subject of its own; it is called where the source calls `expandIndexes`.

Loops that follow links take the number of iterations they may make.  `none` stands for what has
no result in C: a NULL that is dereferenced, or a loop that has not ended.
-/
import Zgdb.Element

namespace Zgdb

open Zgdb.Lib AddrSpace

variable {A : Type} [BlockSpace A]

/-- `createStatus` -/
inductive CreateStatus where
  | createOk
  | outOfIndex
  | createFailed
deriving DecidableEq, Repr

/-! ## 1. Allocation

A block goes to the end of the file when its index is NEW, and to the place of the old block when
the index was DEAD.  The capacity of an old block is kept, also when it is larger than what was
asked for. -/

/-- Where the block of a chosen index goes: a DEAD index keeps its place, any other gets the end
of the file. -/
def blockOffset (file : ZgdbFile A) (order : Nat) : Nat :=
  let index := getIndex file order
  if index.flag = .dead then index.offset else file.header.fileSize

/-- Count `n` bytes at the end of the file, unless the block was there already. -/
def growFile (file : ZgdbFile A) (chosen : RelevantIndexMeta) (n : Nat) : ZgdbFile A :=
  if chosen.blockSize = 0 then
    { file with header := { file.header with fileSize := file.header.fileSize + n } }
  else file

/-- The body that `createNewToast` and the toast part of `createDocument` share: ask for
`reqSize` bytes; a NEW index gets a block of `newCapacity`.  The header is followed by as many
zero bytes as the whole block has. -/
def allocToast (file : ZgdbFile A) (reqSize newCapacity : Nat) : Option (Nat × ZgdbFile A) :=
  match findRelevantIndex file.freeList reqSize with
  | none => none
  | some (chosen, freeList) =>
    let file := { file with freeList := freeList }
    let offsetToast := blockOffset file chosen.indexOrder
    let pos : A := BlockSpace.base chosen.indexOrder offsetToast
    let cap := if chosen.blockSize = 0 then newCapacity else chosen.blockSize
    let toastBlock : Toast :=
      { blockType := BlockType.toast.code, capacity := cap, used := 0,
        indexAttached := chosen.indexOrder, nextToastIndex := 0 }
    let file := fwriteAt toastK file pos 0 toastBlock
    let file := fwriteZeros file pos sizeofToast cap
    let file := (attachIndexToBlock file chosen.indexOrder offsetToast).1
    some (chosen.indexOrder, saveHeader (growFile file chosen cap))

/-- `createNewToast` -/
def createNewToast (file : ZgdbFile A) (size : Nat) : Option (Nat × ZgdbFile A) :=
  allocToast file size size

/-! ## 2. Creation

The order is that of the source: room in the index table, the toast, the elements behind the place
of the header, the header, and then the link of the parent. -/

/-- The size of the toast block that is asked for. -/
def toastRequest (schema : DocumentSchema) : Nat := 2 * schema.minToastCapacity * chunkRecord

/-- The toast part of `createDocument`; index 0 when the schema has no text. -/
def createToast (file : ZgdbFile A) (schema : DocumentSchema) : Option (Nat × ZgdbFile A) :=
  if schema.reqToast then
    allocToast file (toastRequest schema) (toastRequest schema + sizeofToast)
  else some (0, file)

/-- The document part of `createDocument`: the block with its elements and its header, linked in
front of the sons of the parent; the result is the index of the new document. -/
def createBlock [TextCut] (now : UInt32) (file : ZgdbFile A) (name : Name) (schema : DocumentSchema)
    (toastIndex : Nat) (parentHeader : DocumentHeader) : Option (Nat × ZgdbFile A) :=
  let docSize := sizeofDocumentHeader + schema.sizeOfElements
  match findRelevantIndex file.freeList docSize with
  | none => none
  | some (chosen, freeList) =>
    let file := { file with freeList := freeList }
    let offset := blockOffset file chosen.indexOrder
    let pos : A := BlockSpace.base chosen.indexOrder offset
    let file := writeElements file pos sizeofDocumentHeader toastIndex schema.elements
    let header : DocumentHeader :=
      { id := generateId now offset, size := docSize,
        capacity := if chosen.blockSize = 0 then docSize else chosen.blockSize,
        attrCount := schema.capacity, indexAttached := chosen.indexOrder,
        indexBrother := parentHeader.indexSon, indexSon := 0, firstToastIndex := toastIndex,
        blockType := BlockType.document.code, name := name }
    let file := (attachIndexToBlock file chosen.indexOrder offset).1
    let file := fwriteAt documentHeaderK file pos 0 header
    let file := growFile file chosen docSize
    some (chosen.indexOrder,
      saveHeader { file with header := { file.header with nodes := file.header.nodes + 1 } })

/-- The threshold below which `createDocument` expands the index table: at most an eighth of the
initial number of indices are NEW.  It is looked at before a creation only; an update that takes an
index does not ask. -/
def needsExpansion (file : ZgdbFile A) : Bool :=
  file.freeList.newIndexesCount ≤ indexInitialCapacity / 8

/-- The file in which `createDocument` allocates: the file itself, or what the expansion leaves of
it.  There is no result when the expansion does not return. -/
def expanded (expandIndexes : ZgdbFile A → Option (ZgdbFile A)) (file : ZgdbFile A) :
    Option (ZgdbFile A) :=
  if needsExpansion file then expandIndexes file else some file

/-- `createDocument` at the time `now`, with `expandIndexes` as a parameter. -/
def createDocument [TextCut] (expandIndexes : ZgdbFile A → Option (ZgdbFile A)) (now : UInt32)
    (file : ZgdbFile A) (name : Name) (schema : DocumentSchema) (parent : Document) :
    Option (CreateStatus × ZgdbFile A) := do
  let parentHeader := getDocumentHeader file parent.header.indexAttached
  if schema.capacity ≠ schema.size then return (.outOfIndex, file)
  let file ← expanded expandIndexes file
  let (toastIndex, file) ← createToast file schema
  let (order, file) ← createBlock now file name schema toastIndex parentHeader
  let file := fwriteAt documentHeaderK file (blockPos file parent.header.indexAttached) 0
    { parentHeader with indexSon := order }
  return (.createOk, file)

/-! ## 3. The document iterator

A visit gives the document at hand, then goes to its brother; the first sons wait on a stack.  So
all brothers come before what is below any of them. -/

/-- `nodeEntry` -/
structure NodeEntry where
  order : Nat
  orderParent : Nat
  depth : Nat
deriving DecidableEq, Repr

/-- `documentIterator`; the stack of the source, with its top in front. -/
structure DocumentIterator where
  stop : Bool
  next : NodeEntry
  pStack : List NodeEntry
deriving DecidableEq, Repr

def createDocIterator (order orderParent startDepth : Nat) : DocumentIterator where
  stop := false
  next := ⟨order, orderParent, startDepth⟩
  pStack := []

def hasNextDoc (it : DocumentIterator) : Bool := !it.stop

/-- `nextDoc`: the document, its depth, and the iterator moved on. -/
def nextDoc (file : ZgdbFile A) (it : DocumentIterator) : Document × Nat × DocumentIterator :=
  let header := getDocumentHeader file it.next.order
  let depth := it.next.depth
  let document : Document := ⟨isRootDocumentHeader header, it.next.orderParent, header⟩
  let it :=
    if header.indexBrother = 0 ∧ header.indexSon = 0 then
      match it.pStack with
      | [] => { it with stop := true }
      | entry :: rest => { it with next := entry, pStack := rest }
    else if header.indexBrother ≠ 0 ∧ header.indexSon ≠ 0 then
      { it with
        next := ⟨header.indexBrother, document.indexParent, it.next.depth⟩
        pStack := ⟨header.indexSon, header.indexAttached, depth + 1⟩ :: it.pStack }
    else if header.indexBrother ≠ 0 then
      { it with next := ⟨header.indexBrother, document.indexParent, it.next.depth⟩ }
    else
      { it with next := ⟨header.indexSon, header.indexAttached, it.next.depth + 1⟩ }
  (document, depth, it)

/-- The loop of `forEachDocument`. -/
def forEachLoop (consumer : Document → ZgdbFile A → ZgdbFile A) :
    (fuel : Nat) → ZgdbFile A → DocumentIterator → Option (ZgdbFile A)
  | 0, _, _ => none
  | fuel + 1, file, it =>
    if hasNextDoc it then
      let (doc, _, it) := nextDoc file it
      forEachLoop consumer fuel (consumer doc file) it
    else some file

def forEachDocument (fuel : Nat) (file : ZgdbFile A) (consumer : Document → ZgdbFile A → ZgdbFile A)
    (start : Document) : Option (ZgdbFile A) :=
  forEachLoop consumer fuel file
    (createDocIterator start.header.indexAttached start.indexParent 0)

/-! ## 4. Deletion

The sons of the parent are scanned up to the document, to find the link to it.  Then the document is
freed, with what is below it, and the toasts of its own list. -/

/-- Mark an index DEAD and put it into the free list with the size of its block. -/
def freeIndex (file : ZgdbFile A) (order blockSize : Nat) : ZgdbFile A :=
  let file := (killIndex file order).1
  { file with freeList := insertDeadIndex file.freeList order blockSize }

/-- `del` -/
def del (document : Document) (file : ZgdbFile A) : ZgdbFile A :=
  if document.isRoot then file
  else
    let file := freeIndex file document.header.indexAttached document.header.capacity
    saveHeader { file with header := { file.header with nodes := file.header.nodes - 1 } }

/-- The first loop of `deleteDocument`: the sons of the parent from `tempIndex` up to `doc`. -/
def scanSons (file : ZgdbFile A) (doc : Document) :
    (fuel : Nat) → (tempIndex : Nat) → Option (List Document)
  | 0, _ => none
  | fuel + 1, tempIndex =>
    if tempIndex = 0 then some []
    else
      let tempHeader := getDocumentHeader file tempIndex
      let tempD : Document :=
        ⟨isRootDocumentHeader tempHeader, doc.header.indexAttached, tempHeader⟩
      if doc.header.indexAttached = tempHeader.indexAttached then some [tempD]
      else (scanSons file doc fuel tempHeader.indexBrother).map (tempD :: ·)

/-- Write back a header to the block its `indexAttached` names. -/
def writeHeader (file : ZgdbFile A) (header : DocumentHeader) : ZgdbFile A :=
  fwriteAt documentHeaderK file (blockPos file header.indexAttached) 0 header

/-- Take the last document of `pList`, the list that starts with the parent, out of the chain: the
link that led to it now leads to its brother. -/
def unlink (file : ZgdbFile A) (par : Document) (sons : List Document) : Option (ZgdbFile A) :=
  let forDelete := (par :: sons).getLast (by simp)
  if par.header.indexSon = forDelete.header.indexAttached then
    some (writeHeader file { par.header with indexSon := forDelete.header.indexBrother })
  else
    match (par :: sons).dropLast.getLast? with
    | none => none
    | some prev =>
      some (writeHeader file { prev.header with indexBrother := forDelete.header.indexBrother })

/-- The last loop of `deleteDocument`: the toasts from `order` on. -/
def freeToasts : (fuel : Nat) → ZgdbFile A → (order : Nat) → Option (ZgdbFile A)
  | 0, _, _ => none
  | fuel + 1, file, order =>
    if order = 0 then some file
    else
      let temp := freadAt toastK file (blockPos file order) 0
      freeToasts fuel (freeIndex file order temp.capacity) temp.nextToastIndex

/-- The subtree part of `deleteDocument`. -/
def deleteSubtree (fuel : Nat) (file : ZgdbFile A) (doc : Document) : Option (ZgdbFile A) :=
  if doc.header.indexSon ≠ 0 then
    let childHeader := getDocumentHeader file doc.header.indexSon
    forEachDocument fuel file del
      ⟨isRootDocumentHeader childHeader, doc.header.indexAttached, childHeader⟩
  else some file

def deleteDocument (fuel : Nat) (file : ZgdbFile A) (doc : Document) : Option (ZgdbFile A) := do
  let parentHeader := getDocumentHeader file doc.indexParent
  let parent : Document := ⟨isRootDocumentHeader parentHeader, 0, parentHeader⟩
  let sons ← scanSons file doc fuel parentHeader.indexSon
  let file ← unlink file parent sons
  let file := del doc file
  let file ← deleteSubtree fuel file doc
  freeToasts fuel file doc.header.firstToastIndex

end Zgdb
