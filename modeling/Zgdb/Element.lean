/-
# Writing and iterating the elements of a document

`writeElement` of `data/zgdbdata.c` and `data/iterator/eliterator.c`.  A document keeps its
elements one after the other behind its header: the type, the key, and the value.  The value of a
text is a `firstTextChunk`; the characters are cut into chunks of 32 bytes in a toast, each chunk
with the toast and the offset of the next one.

Writer and reader have the same rule for the last chunk: it carries `size % CHUNK_SIZE` bytes.
For a size that is a multiple of `CHUNK_SIZE` this is none at all.

`nextEl` reads through a buffer of 64 bytes that is loaded at the current element and reloaded
when a field does not fit in the rest of it.
-/
import Zgdb.File
import Zgdb.Schema

namespace Zgdb

open Zgdb.Lib AddrSpace

variable {A : Type} [BlockSpace A]

/-! ## 1. Writing

`writeElement` writes the head of the element and then its value.  For a text it goes to the toast,
writes the chunks into the slots behind the used ones, and writes the header of the toast back with
the new count. -/

/-- `n` characters of `s` from `start`, in a chunk whose other bytes are those of `old`. -/
def overlay (s : CString) (start n : Nat) (old : List UInt8) : List UInt8 :=
  (List.range n).map (fun i => s.at (start + i)) ++ old.drop n

/-- A chunk cleared by `memset`. -/
def clearedChunk : List UInt8 := List.replicate chunkSize 0

/-- One chunk with its type byte, at slot `slot` of the toast at `pos`. -/
def fwriteChunk (file : ZgdbFile A) (pos : A) (slot : Nat) (chunk : TextChunk) : ZgdbFile A :=
  let d := sizeofToast + slot * chunkRecord
  let file := fwriteAt byteK file pos d ElementType.textChunk.code
  fwriteAt textChunkK file pos (d + 1) chunk

/-- The loop that writes the characters of `s` from `start` to `n` consecutive slots of a toast,
the first of them `used`: every chunk is full and leads to the next slot, except the last, which
takes `lastLen` characters and leads to offset 0 of `lastToast`. -/
def writeChunks (file : ZgdbFile A) (pos : A) (used toastIndex : Nat) (s : CString) (start : Nat)
    (lastLen lastToast : Nat) : (n : Nat) → ZgdbFile A
  | 0 => file
  | 1 => fwriteChunk file pos used
      { data := overlay s start lastLen clearedChunk, nextOffset := 0, toastIndex := lastToast }
  | n + 2 =>
    let file := fwriteChunk file pos used
      { data := overlay s start chunkSize clearedChunk, nextOffset := (used + 1) * chunkRecord,
        toastIndex := toastIndex }
    writeChunks file pos (used + 1) toastIndex s (start + chunkSize) lastLen lastToast (n + 1)

/-- The value of an element at `pos + d`; the result is the file and the bytes written. -/
def writeValue [TextCut] (file : ZgdbFile A) (pos : A) (d : Nat) (value : ElementValue)
    (firstToastIndex : Nat) : ZgdbFile A :=
  match value with
  | .boolean v => fwriteAt byteK file pos d v
  | .int v => fwriteAt intK file pos d v
  | .double v => fwriteAt doubleK file pos d v
  | .text t =>
    let indexToast : A := blockPos file firstToastIndex
    let tempToast := freadAt toastK file indexToast 0
    let file := fwriteAt firstTextChunkK file pos d
      { size := t.size, offsetInToast := tempToast.used * chunkRecord }
    let file := writeChunks file indexToast tempToast.used firstToastIndex t.data 0
      (TextCut.rem t.size) firstToastIndex (TextCut.chunks t.size)
    fwriteAt toastK file indexToast 0
      { tempToast with used := tempToast.used + TextCut.chunks t.size }

/-- `writeElement` at `pos + d`; the result is the file and the bytes written. -/
def writeElement [TextCut] (file : ZgdbFile A) (pos : A) (d : Nat) (cur : Element)
    (firstToastIndex : Nat) :
    ZgdbFile A × Nat :=
  let file := fwriteAt byteK file pos d cur.value.type.code
  let file := fwriteAt nameK file pos (d + 1) cur.key
  (writeValue file pos (d + elementHead) cur.value firstToastIndex,
    elementHead + cur.value.type.valueSize)

/-- The loop of `createDocument` over the elements of the schema. -/
def writeElements [TextCut] (file : ZgdbFile A) (pos : A) (d : Nat) (firstToastIndex : Nat) :
    List Element → ZgdbFile A
  | [] => file
  | cur :: rest =>
    let (file, n) := writeElement file pos d cur firstToastIndex
    writeElements file pos (d + n) firstToastIndex rest

/-! ## 2. The element iterator

A buffer of 64 bytes can end in the middle of a field.  Whenever the rest of it is too short for the
next field, it is loaded again from the start of the element, and the element is read anew; since it
is loaded from the block each time, a buffer shows the block as it is when it is loaded. -/

/-- The stream over `bufTemp`: the bytes that were loaded and the position in them. -/
structure Buffer where
  cells : Mem Nat Obj
  pos : Nat

/-- `elementIterator`; `offsetInFile` is counted from the start of the document's block `block`. -/
structure ElementIterator (A : Type) where
  block : A
  offsetInFile : Nat
  doc : Document
  allAttributesCount : Nat
  allAttributesSize : Nat
  passedAttributesCount : Nat
  buffer : Option Buffer

/-- `elementEntry`; `value` is absent when no data was requested or the type is none of the
four. -/
structure ElementEntry where
  type : UInt8
  key : Name
  value : Option ElementValue
  offsetInDocument : Nat
deriving DecidableEq

def createElIterator (file : ZgdbFile A) (doc : Document) : ElementIterator A where
  block := blockPos file doc.header.indexAttached
  offsetInFile := sizeofDocumentHeader
  doc := doc
  allAttributesCount := doc.header.attrCount
  allAttributesSize := doc.header.size - sizeofDocumentHeader
  passedAttributesCount := 0
  buffer := none

def hasNextEl (it : ElementIterator A) : Bool :=
  it.allAttributesCount ≠ it.passedAttributesCount

/-- Where the chain walks stand: the current toast, its header, and the offset of the next
chunk. -/
structure Cursor (A : Type) where
  indexToast : A
  toast : Toast
  nextOffset : Nat

/-- Open the toast of index `order` at `offset`. -/
def openToast (file : ZgdbFile A) (order offset : Nat) : Cursor A :=
  { indexToast := blockPos file order, toast := freadAt toastK file (blockPos file order) 0,
    nextOffset := offset }

/-- Step from a chunk to the one it leads to, in this toast or in another. -/
def Cursor.advance (file : ZgdbFile A) (cur : Cursor A) (chunk : TextChunk) : Cursor A :=
  if chunk.toastIndex = cur.toast.indexAttached then { cur with nextOffset := chunk.nextOffset }
  else openToast file chunk.toastIndex chunk.nextOffset

/-- The chunk a cursor stands at, behind its type byte. -/
def Cursor.chunk (file : ZgdbFile A) (cur : Cursor A) : TextChunk :=
  freadAt textChunkK file cur.indexToast (sizeofToast + cur.nextOffset + 1)

/-- The reading loop: the bytes of `n` chunks, of which the last gives `lastLen`. -/
def readChunks (file : ZgdbFile A) (lastLen : Nat) : (n : Nat) → Cursor A → List UInt8
  | 0, _ => []
  | n + 1, cur =>
    let chunk := cur.chunk file
    chunk.data.take (if n = 0 then lastLen else chunkSize)
      ++ readChunks file lastLen n (cur.advance file chunk)

/-- What `strcpy` takes from a buffer: the bytes up to the first NUL. -/
def cString (buf : List UInt8) : CString where
  chars := buf.takeWhile (· ≠ 0)
  noNul h := by simpa using List.mem_takeWhile_imp h

/-- The `TYPE_TEXT` case of `nextEl` with `reqData`. -/
def readText [TextCut] (file : ZgdbFile A) (firstToastIndex : Nat) (firstChunk : FirstTextChunk) :
    Text where
  size := firstChunk.size
  data := cString (fit firstChunk.size
    (readChunks file (TextCut.rem firstChunk.size) (TextCut.chunks firstChunk.size)
      (openToast file firstToastIndex firstChunk.offsetInToast)))

/-- The bytes the value of a type takes in the buffer. -/
def typeSize (type : UInt8) : Nat :=
  if type = ElementType.boolean.code then 1
  else if type = ElementType.int.code then 4
  else if type = ElementType.double.code then 8
  else if type = ElementType.text.code then sizeofFirstTextChunk
  else 0

/-- Whether the element at the position of the buffer lies in it as a whole: the three checks
that ask for `updateBuffer`. -/
def Buffer.room (buf : Buffer) : Bool :=
  readBufferSize - buf.pos ≥ 1 ∧ readBufferSize - (buf.pos + 1) ≥ sizeofName ∧
    readBufferSize - (buf.pos + elementHead) ≥ typeSize (load byteK buf.cells buf.pos)

/-- The value of an element whose type byte is `type`, at `d`. -/
def readValue [TextCut] (file : ZgdbFile A) (doc : Document) (cells : Mem Nat Obj)
    (type : UInt8) (d : Nat) :
    Option ElementValue :=
  if type = ElementType.boolean.code then some (.boolean (load byteK cells d))
  else if type = ElementType.int.code then some (.int (load intK cells d))
  else if type = ElementType.double.code then some (.double (load doubleK cells d))
  else if type = ElementType.text.code then
    some (.text (readText file doc.header.firstToastIndex (load firstTextChunkK cells d)))
  else none

/-- Load the buffer at `offsetInFile`. -/
def ElementIterator.loadBuffer (file : ZgdbFile A) (it : ElementIterator A) : Buffer where
  cells d := file.mem (add it.block (it.offsetInFile + d))
  pos := 0

/-- The buffer the element is decoded from: the one at hand if the element lies in it, else a
fresh one, which any element fits in. -/
def ElementIterator.updateBuffer (file : ZgdbFile A) (it : ElementIterator A) : Buffer :=
  match it.buffer with
  | none => it.loadBuffer file
  | some buf => if buf.room then buf else it.loadBuffer file

def nextEl [TextCut] (file : ZgdbFile A) (it : ElementIterator A) (reqData : Bool) :
    ElementEntry × ElementIterator A :=
  let buf := it.updateBuffer file
  let type := load byteK buf.cells buf.pos
  let key := load nameK buf.cells (buf.pos + 1)
  let value := if reqData then readValue file it.doc buf.cells type
      (buf.pos + elementHead) else none
  let n := elementHead + typeSize type
  ({ type := type, key := key, value := value, offsetInDocument := it.offsetInFile },
    { it with
      buffer := some { buf with pos := buf.pos + n }
      offsetInFile := it.offsetInFile + n
      passedAttributesCount := it.passedAttributesCount + 1 })

/-- `while (hasNextEl(…)) nextEl(…)`, `n` elements being left. -/
def iterateEl [TextCut] (file : ZgdbFile A) (reqData : Bool) : (n : Nat) → ElementIterator A →
    List ElementEntry
  | 0, _ => []
  | n + 1, it =>
    let (entry, it) := nextEl file it reqData
    entry :: iterateEl file reqData n it

/-- All entries of a document. -/
def elementEntries [TextCut] (file : ZgdbFile A) (doc : Document) (reqData : Bool) :
    List ElementEntry :=
  iterateEl file reqData doc.header.attrCount (createElIterator file doc)

end Zgdb
