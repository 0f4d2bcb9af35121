/-
# Updating an element

`updateElement` of `zgdb.c`.  A scalar is converted and overwritten in place.  A text goes one of
five ways, by its old and its new size: the same size and a smaller size rewrite the chunks that
are there; a larger size rewrites them too when the new number of chunks is not larger, otherwise
it appends chunks, to the toast the chain ends in when the first toast has room for all of them,
else to what is left of it and to a new toast.

A new size that is a multiple of `CHUNK_SIZE` is raised by one (and the number of chunks with it),
so that the last chunk of the reader is not the one that carries no bytes.  In the growing case
the same is done for the OLD size: the chain is then taken to be one chunk longer than
`writeElement` made it.

The loop of the source that looks for the last chunk only reads, and nothing it reads is used; it
is left out.
-/
import Zgdb.Convert
import Zgdb.Document

namespace Zgdb

open Zgdb.Lib AddrSpace

variable {A : Type} [BlockSpace A]

/-- `updateElementStatus` -/
inductive UpdateElementStatus where
  | updateOk
  | elementNotFound
  | invalidName
  | typeParseError
  | documentNotFound
deriving DecidableEq, Repr

/-! ## 1. The chain loops

A loop follows the chain of a text from its first chunk.  The next chunk is in the same toast when
the link names that toast, and otherwise the header of the other toast is read; the cursor holds the
toast at hand. -/

/-- `fwrite` of the chunk a cursor stands at. -/
def Cursor.fwriteChunk (file : ZgdbFile A) (cur : Cursor A) (chunk : TextChunk) : ZgdbFile A :=
  fwriteAt textChunkK file cur.indexToast (sizeofToast + cur.nextOffset + 1) chunk

/-- Overwrite the characters of `n` chunks with those of `s` from `start`; the last takes
`lastLen` of them, and every chunk keeps the characters behind those it takes. -/
def rewriteChunks (file : ZgdbFile A) (s : CString) (start lastLen : Nat) :
    (n : Nat) → Cursor A → ZgdbFile A
  | 0, _ => file
  | n + 1, cur =>
    let chunk := cur.chunk file
    let chunk := { chunk with
      data := overlay s start (if n = 0 then lastLen else chunkSize) chunk.data }
    let file := cur.fwriteChunk file chunk
    rewriteChunks file s (start + chunkSize) lastLen n (cur.advance file chunk)

/-- Fill `n` chunks with the characters of `s` from `start` and give the last its new link.
`moveLast` says whether the cursor follows that link to another toast. -/
def relinkChunks (file : ZgdbFile A) (s : CString) (start : Nat)
    (relink : Cursor A → TextChunk → TextChunk) (moveLast : Bool) :
    (n : Nat) → Cursor A → ZgdbFile A × Cursor A
  | 0, cur => (file, cur)
  | n + 1, cur =>
    let chunk := cur.chunk file
    let chunk := if n = 0 then relink cur chunk else chunk
    let chunk := { chunk with data := overlay s start chunkSize chunk.data }
    let file := cur.fwriteChunk file chunk
    let cur := if n = 0 ∧ ¬ moveLast ∧ chunk.toastIndex ≠ cur.toast.indexAttached then cur
      else cur.advance file chunk
    relinkChunks file s (start + chunkSize) relink moveLast n cur

/-- Write a toast header back with `n` more chunks in use. -/
def addUsed (file : ZgdbFile A) (cur : Cursor A) (n : Nat) : ZgdbFile A :=
  fwriteAt toastK file cur.indexToast 0 { cur.toast with used := cur.toast.used + n }

/-! ## 2. Room in a toast

The subtractions are those of `uint64_t`: a counter that is too large would give a huge number of
slots. -/

/-- Subtraction of unsigned 64-bit numbers. -/
def sub64 (a b : Nat) : Nat := if b ≤ a then a - b else a + 2 ^ 64 - b

/-- The chunks a toast has room for. -/
def toastSlots (t : Toast) : Nat := sub64 t.capacity sizeofToast / chunkRecord

/-- `left` -/
def chunksLeft (t : Toast) : Nat := sub64 (toastSlots t) t.used

/-! ## 3. The text cases

Which case is taken depends on the sizes alone, in chunks and in bytes; where the chunks go depends
on the first toast. -/

/-- `newLength == oldLength` -/
def updateEqual (file : ZgdbFile A) (doc : Document) (firstChunk : FirstTextChunk)
    (input : CString) : ZgdbFile A :=
  let newLength := input.strlen + 1
  rewriteChunks file input 0 (newLength % chunkSize) (chunkCount newLength)
    (openToast file doc.header.firstToastIndex firstChunk.offsetInToast)

/-- A length as the source raises it when it fills its last chunk. -/
def bumped (length : Nat) : Nat := if length % chunkSize = 0 then length + 1 else length

/-- Write `firstChunk` back with another size. -/
def writeSize (file : ZgdbFile A) (block : A) (d : Nat) (firstChunk : FirstTextChunk) (size : Nat) :
    ZgdbFile A :=
  fwriteAt firstTextChunkK file block (d + elementHead) { firstChunk with size := size }

/-- `newLength < oldLength` -/
def updateShorter (file : ZgdbFile A) (block : A) (doc : Document) (d : Nat)
    (firstChunk : FirstTextChunk) (input : CString) : ZgdbFile A :=
  let newLength := input.strlen + 1
  let chunks := if newLength % chunkSize = 0 then chunkCount newLength + 1 else chunkCount newLength
  let file := rewriteChunks file input 0 (newLength % chunkSize) chunks
    (openToast file doc.header.firstToastIndex firstChunk.offsetInToast)
  writeSize file block d firstChunk (bumped newLength)

/-- `left >= req`: the new chunks go to the toast the chain ends in. -/
def growInToast (file : ZgdbFile A) (input : CString) (chunks req lastLen : Nat) (cur : Cursor A) :
    ZgdbFile A :=
  let (file, cur) := relinkChunks file input 0
    (fun cur chunk => { chunk with nextOffset := cur.toast.used * chunkRecord }) true chunks cur
  let file := writeChunks file cur.indexToast cur.toast.used cur.toast.indexAttached input
    (chunkSize * chunks) lastLen cur.toast.indexAttached req
  addUsed file cur req

/-- The case `left < req` behind `createNewToast`: fill what is left of the toast, then the new
one. -/
def fillAcrossToasts (file : ZgdbFile A) (input : CString) (chunks req lastLen newToastIndex : Nat)
    (cur : Cursor A) : ZgdbFile A :=
  let left := chunksLeft cur.toast
  -- update prev toast
  let cur := { cur with toast := { cur.toast with nextToastIndex := newToastIndex } }
  let file := fwriteAt toastK file cur.indexToast 0 cur.toast
  let (file, cur) := relinkChunks file input 0
    (fun cur chunk =>
      if left = 0 then { chunk with nextOffset := 0, toastIndex := newToastIndex }
      else { chunk with nextOffset := cur.toast.used * chunkRecord }) false chunks cur
  let file :=
    if left ≠ 0 then
      let file := writeChunks file cur.indexToast cur.toast.used cur.toast.indexAttached input
        (chunkSize * chunks) chunkSize newToastIndex left
      addUsed file cur left
    else file
  -- move to new toast
  let cur := openToast file cur.toast.nextToastIndex 0
  let file := writeChunks file cur.indexToast cur.toast.used cur.toast.indexAttached input
    (chunkSize * (chunks + left)) lastLen cur.toast.indexAttached (req - left)
  addUsed file cur (req - left)

/-- `left < req`: what is left of the toast, then a new toast. -/
def growAcrossToasts (file : ZgdbFile A) (input : CString) (chunks req lastLen : Nat)
    (cur : Cursor A) : Option (ZgdbFile A) :=
  match createNewToast file (req * chunkRecord + cur.toast.capacity) with
  | none => none
  | some (newToastIndex, file) =>
    some (fillAcrossToasts file input chunks req lastLen newToastIndex cur)

/-- `newLength > oldLength`: first the two lengths and chunk counts the source computes. -/
structure Growth where
  newLength : Nat
  chunks : Nat
  chunksNew : Nat
  lastLen : Nat
deriving DecidableEq, Repr

def growth (oldLength newLength : Nat) : Growth :=
  let full := oldLength % chunkSize = 0
  let newLength := if full then newLength + 1 else newLength
  { newLength := bumped newLength
    chunks := if full then chunkCount oldLength + 1 else chunkCount oldLength
    chunksNew := if newLength % chunkSize = 0 then chunkCount newLength
      + 1 else chunkCount newLength
    lastLen := newLength % chunkSize }

def updateLonger (file : ZgdbFile A) (block : A) (doc : Document) (d : Nat)
    (firstChunk : FirstTextChunk) (input : CString) : Option (ZgdbFile A) := do
  let g := growth firstChunk.size (input.strlen + 1)
  let cur := openToast file doc.header.firstToastIndex firstChunk.offsetInToast
  let file ←
    if g.chunksNew ≤ g.chunks then some (rewriteChunks file input 0 g.lastLen g.chunksNew cur)
    else if chunksLeft cur.toast ≥ g.chunksNew - g.chunks then
      some (growInToast file input g.chunks (g.chunksNew - g.chunks) g.lastLen cur)
    else growAcrossToasts file input g.chunks (g.chunksNew - g.chunks) g.lastLen cur
  return writeSize file block d firstChunk g.newLength

/-- The `TYPE_TEXT` case, for the element at `block + d`. -/
def updateText (file : ZgdbFile A) (block : A) (doc : Document) (d : Nat) (input : CString) :
    Option (ZgdbFile A) :=
  let firstChunk := freadAt firstTextChunkK file block (d + elementHead)
  if input.strlen + 1 = firstChunk.size then some (updateEqual file doc firstChunk input)
  else if input.strlen + 1 < firstChunk.size then
    some (updateShorter file block doc d firstChunk input)
  else updateLonger file block doc d firstChunk input

/-! ## 4. `updateElement` -/

/-- The switch over the type of the element found at `block + d`; `none` inside when the type is
none of the four, so that the search goes on. -/
def updateFound (strtod : CString → StrtodResult) (file : ZgdbFile A) (block : A) (doc : Document)
    (d : Nat) (type : UInt8) (input : CString) :
    Option (Option (UpdateElementStatus × ZgdbFile A)) :=
  if type = ElementType.boolean.code then
    some (some (.updateOk, fwriteAt byteK file block (d + elementHead) (str2boolean input)))
  else if type = ElementType.int.code then
    match str2int input with
    | (.success, some v) => some (some (.updateOk, fwriteAt intK file block (d + elementHead) v))
    | _ => some (some (.typeParseError, file))
  else if type = ElementType.double.code then
    match str2double strtod input with
    | (.success, some v) => some (some (.updateOk, fwriteAt doubleK file block (d + elementHead) v))
    | _ => some (some (.typeParseError, file))
  else if type = ElementType.text.code then
    (updateText file block doc d input).map fun file => some (.updateOk, file)
  else some none

/-- The loop over the elements, `n` of them being left. -/
def updateLoop (strtod : CString → StrtodResult) (file : ZgdbFile A) (doc : Document)
    (key input : CString) : (n : Nat) → ElementIterator A →
    Option (UpdateElementStatus × ZgdbFile A)
  | 0, _ => some (.elementNotFound, file)
  | n + 1, it =>
    let (entry, it') := nextEl file it false
    if key.chars = entry.key.chars then
      match updateFound strtod file it.block doc entry.offsetInDocument entry.type input with
      | none => none
      | some (some result) => some result
      | some none => updateLoop strtod file doc key input n it'
    else updateLoop strtod file doc key input n it'

/-- `updateElement`; `none` when `createNewToast` gets no index. -/
def updateElement (strtod : CString → StrtodResult) (file : ZgdbFile A) (doc : Document)
    (key input : CString) : Option (UpdateElementStatus × ZgdbFile A) :=
  if key.strlen > 13 then some (.invalidName, file)
  else updateLoop strtod file doc key input doc.header.attrCount (createElIterator file doc)

end Zgdb
