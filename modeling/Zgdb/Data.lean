/-
# The objects a store file is made of

`zgdbdata.h`, `zgdbfile.h` and `zgdbindex.h`: the structures that are written to the file with
their sizes, and the byte layout the compiler gives them.  A field of 40 bits is a natural
number here; its width only shows in `Obj.bytes`, that is, when something else than the object
that was stored is read from the same place.

The layout is not a formality.  `toast` is laid out as the first 32 bytes of `documentHeader`:
`capacity`, `used`, `indexAttached` and `nextToastIndex` lie where a document keeps `size`,
`capacity`, `indexAttached` and `indexSon`.
-/
import Mathlib.Algebra.Group.Int.Defs
import Mathlib.Algebra.GroupWithZero.Nat
import Mathlib.Data.List.TakeWhile
import Zgdb.Lib.Memory

namespace Zgdb

open Zgdb.Lib

/-! ## 1. Constants -/

/-- `CHUNK_SIZE` -/
def chunkSize : Nat := 32

/-- `INDEX_INITIAL_CAPACITY` -/
def indexInitialCapacity : Nat := 50000

/-- `INDEX_MULTIPLIER` -/
def indexMultiplier : Nat := 4

/-- `READ_BUFFER_SIZE` -/
def readBufferSize : Nat := 64

/-- `sizeof(zgdbHeader)` -/
def sizeofZgdbHeader : Nat := 32

/-- `sizeof(zgdbIndex)`, a packed structure -/
def sizeofZgdbIndex : Nat := 9

/-- `sizeof(documentHeader)` -/
def sizeofDocumentHeader : Nat := 80

/-- `sizeof(toast)` -/
def sizeofToast : Nat := 32

/-- `sizeof(textChunk)`, a packed structure -/
def sizeofTextChunk : Nat := 45

/-- `sizeof(firstTextChunk)`, a packed structure -/
def sizeofFirstTextChunk : Nat := 12

/-- `13 * sizeof(char)`, the bytes of a key or a name -/
def sizeofName : Nat := 13

/-- `sizeof(uint8_t) + sizeof(textChunk)`: one chunk in a toast, with its type byte. -/
def chunkRecord : Nat := 1 + sizeofTextChunk

/-- The chunks of a text: `div((int) size, CHUNK_SIZE)`, the quotient raised by one when there is a
remainder.  This is the count for a size below `2 ^ 31`, which `(int)` leaves as it is; the texts of
a request are shorter, as its length has 31 bits itself.  `Sized.chunks` is the count with the cast,
and `Sized.chunks_of_lt` says that they agree. -/
def chunkCount (size : Nat) : Nat :=
  if size % chunkSize ≠ 0 then size / chunkSize + 1 else size / chunkSize

/-- How a text of some size is cut: the number of its chunks, and of the characters in the last one.
The source takes both from `div((int) size, CHUNK_SIZE)`, where `size` has 32 bits.  What is written
over a cut holds for the division of natural numbers (`natCut`, the default) and for the one with
the casts (`Sized.intCut`). -/
class TextCut where
  chunks : Nat → Nat
  rem : Nat → Nat

/-- The cut of a size that the cast to `int` leaves as it is. -/
instance natCut : TextCut where
  chunks := chunkCount
  rem size := size % chunkSize

@[simp] theorem natCut_chunks (size : Nat) : natCut.chunks size = chunkCount size := rfl

@[simp] theorem natCut_rem (size : Nat) : natCut.rem size = size % chunkSize := rfl

/-! ## 2. Strings and names -/

/-- A C string without its terminator. -/
structure CString where
  chars : List UInt8
  noNul : 0 ∉ chars
deriving DecidableEq

/-- `strlen` -/
def CString.strlen (s : CString) : Nat := s.chars.length

/-- `s[i]`, the terminator included.  Past the terminator C gives no value; the model reads 0. -/
def CString.at (s : CString) (i : Nat) : UInt8 := s.chars.getD i 0

/-- A `char[13]` holding a string: a key or a document name. -/
structure Name where
  chars : List UInt8
  short : chars.length ≤ 12
  noNul : 0 ∉ chars
deriving DecidableEq

/-- `"root"` -/
def Name.root : Name := ⟨[114, 111, 111, 116], by decide, by decide⟩

/-- `"id"` -/
def Name.id : Name := ⟨[105, 100], by decide, by decide⟩

/-! ## 3. The structures of the file -/

/-- `blockType` -/
inductive BlockType where
  | document
  | toast
deriving DecidableEq, Repr

def BlockType.code : BlockType → UInt8
  | document => 0x00
  | toast => 0x01

/-- `elementType`, the values that are written to a file -/
inductive ElementType where
  | int
  | double
  | boolean
  | text
  | textChunk
deriving DecidableEq, Repr

def ElementType.code : ElementType → UInt8
  | int => 0x01
  | double => 0x02
  | boolean => 0x03
  | text => 0x04
  | textChunk => 0x05

/-- `documentId` -/
structure DocumentId where
  timestamp : UInt32
  offset : Nat
deriving DecidableEq

/-- `documentHeader` -/
structure DocumentHeader where
  blockType : UInt8
  size : Nat
  capacity : Nat
  indexAttached : Nat
  indexSon : Nat
  indexBrother : Nat
  firstToastIndex : Nat
  attrCount : Nat
  name : Name
  id : DocumentId
deriving DecidableEq

/-- `firstTextChunk` -/
structure FirstTextChunk where
  size : Nat
  offsetInToast : Nat
deriving DecidableEq, Repr

/-- `textChunk`; `data` is a `char[CHUNK_SIZE]` -/
structure TextChunk where
  data : List UInt8
  toastIndex : Nat
  nextOffset : Nat
deriving DecidableEq, Repr

/-- `toast` -/
structure Toast where
  blockType : UInt8
  capacity : Nat
  used : Nat
  indexAttached : Nat
  nextToastIndex : Nat
deriving DecidableEq, Repr

/-- Anything that is written to a file in one `fwrite`; a double is its bit pattern.  `node` and
`freeIndexesList` are the two structures of a free list, without their pointers. -/
inductive Obj where
  | byte (b : UInt8)
  | name (n : Name)
  | int (v : Int32)
  | double (v : UInt64)
  | firstTextChunk (c : FirstTextChunk)
  | textChunk (c : TextChunk)
  | toast (t : Toast)
  | documentHeader (h : DocumentHeader)
  | node (indexOrder blockSize : Nat)
  | freeIndexesList (indexesCount newIndexesCount : Nat)
deriving DecidableEq

/-! ## 4. The byte layout

The layout that the compiler gives: little endian, with the padding and the bit-fields as the
compiler places them.  It is used in two ways: to read an object from bytes that were stored as
other objects, and to say which bytes a frame leaves alone. -/

/-- The low `n` bytes of a number, least significant first. -/
def le : Nat → Nat → List UInt8
  | 0, _ => []
  | n + 1, v => UInt8.ofNat v :: le n (v / 256)

/-- The number a list of bytes stands for. -/
def leValue : List UInt8 → Nat
  | [] => 0
  | b :: bs => b.toNat + 256 * leValue bs

/-- `n` bytes of a list from position `i`. -/
def slice (bs : List UInt8) (i n : Nat) : List UInt8 := (bs.drop i).take n

def pad (n : Nat) : List UInt8 := List.replicate n 0

/-- Bring a byte list to a given length. -/
def fit (n : Nat) (bs : List UInt8) : List UInt8 := bs.take n ++ pad (n - bs.length)

/-- A bit-field of 40 bits in a unit of 8 bytes. -/
def field40 (v : Nat) : List UInt8 := le 5 v ++ pad 3

def Obj.bytes : Obj → List UInt8
  | byte b => [b]
  | name n => fit sizeofName n.chars
  | int v => le 4 v.toUInt32.toNat
  | double v => le 8 v.toNat
  | firstTextChunk c => le 4 c.size ++ le 8 c.offsetInToast
  | textChunk c => fit chunkSize c.data ++ le 5 c.toastIndex ++ le 8 c.nextOffset
  | toast t => t.blockType :: (le 5 t.capacity ++ pad 2) ++ field40 t.used ++
      field40 t.indexAttached ++ field40 t.nextToastIndex
  | documentHeader h => h.blockType :: (le 5 h.size ++ pad 2) ++ field40 h.capacity ++
      field40 h.indexAttached ++ field40 h.indexSon ++ field40 h.indexBrother ++
      field40 h.firstToastIndex ++ le 4 h.attrCount ++ fit sizeofName h.name.chars ++
      le 4 h.id.timestamp.toNat ++ le 8 h.id.offset ++ pad 3
  -- the pointers are bytes that no one reads back
  | node order size => field40 order ++ le 8 size ++ pad 16
  | freeIndexesList count newCount => pad 16 ++ field40 count ++ field40 newCount

/-- The byte a cell stands for. -/
def cellByte (c : Cell Obj) : UInt8 := c.obj.bytes.getD c.idx 0

/-- A `char[13]` as a string: up to the first NUL. -/
def decodeName (bs : List UInt8) : Name where
  chars := (bs.take 12).takeWhile (· ≠ 0)
  short := ((List.takeWhile_prefix _).length_le).trans (by simp)
  noNul := fun h => by simpa using List.mem_takeWhile_imp h

def decodeFirstTextChunk (bs : List UInt8) : FirstTextChunk where
  size := leValue (slice bs 0 4)
  offsetInToast := leValue (slice bs 4 8)

def decodeTextChunk (bs : List UInt8) : TextChunk where
  data := slice bs 0 chunkSize
  toastIndex := leValue (slice bs 32 5)
  nextOffset := leValue (slice bs 37 8)

def decodeToast (bs : List UInt8) : Toast where
  blockType := bs.getD 0 0
  capacity := leValue (slice bs 1 5)
  used := leValue (slice bs 8 5)
  indexAttached := leValue (slice bs 16 5)
  nextToastIndex := leValue (slice bs 24 5)

def decodeDocumentHeader (bs : List UInt8) : DocumentHeader where
  blockType := bs.getD 0 0
  size := leValue (slice bs 1 5)
  capacity := leValue (slice bs 8 5)
  indexAttached := leValue (slice bs 16 5)
  indexSon := leValue (slice bs 24 5)
  indexBrother := leValue (slice bs 32 5)
  firstToastIndex := leValue (slice bs 40 5)
  attrCount := leValue (slice bs 48 4)
  name := decodeName (slice bs 52 13)
  id := ⟨UInt32.ofNat (leValue (slice bs 65 4)), leValue (slice bs 69 8)⟩

/-! ## 5. The kinds of object that are read and written -/

/-- `uint8_t` -/
def byteK : Kind Obj UInt8 where
  size := 1
  wrap := .byte
  unwrap | .byte b => some b | _ => none
  decode cs := (cs.map cellByte).getD 0 0
  size_pos := by decide
  unwrap_wrap _ := rfl

/-- `char[13]` -/
def nameK : Kind Obj Name where
  size := sizeofName
  wrap := .name
  unwrap | .name n => some n | _ => none
  decode cs := decodeName (cs.map cellByte)
  size_pos := by decide
  unwrap_wrap _ := rfl

/-- `int32_t` -/
def intK : Kind Obj Int32 where
  size := 4
  wrap := .int
  unwrap | .int v => some v | _ => none
  decode cs := (UInt32.ofNat (leValue (cs.map cellByte))).toInt32
  size_pos := by decide
  unwrap_wrap _ := rfl

/-- `double` -/
def doubleK : Kind Obj UInt64 where
  size := 8
  wrap := .double
  unwrap | .double v => some v | _ => none
  decode cs := UInt64.ofNat (leValue (cs.map cellByte))
  size_pos := by decide
  unwrap_wrap _ := rfl

def firstTextChunkK : Kind Obj FirstTextChunk where
  size := sizeofFirstTextChunk
  wrap := .firstTextChunk
  unwrap | .firstTextChunk c => some c | _ => none
  decode cs := decodeFirstTextChunk (cs.map cellByte)
  size_pos := by decide
  unwrap_wrap _ := rfl

def textChunkK : Kind Obj TextChunk where
  size := sizeofTextChunk
  wrap := .textChunk
  unwrap | .textChunk c => some c | _ => none
  decode cs := decodeTextChunk (cs.map cellByte)
  size_pos := by decide
  unwrap_wrap _ := rfl

def toastK : Kind Obj Toast where
  size := sizeofToast
  wrap := .toast
  unwrap | .toast t => some t | _ => none
  decode cs := decodeToast (cs.map cellByte)
  size_pos := by decide
  unwrap_wrap _ := rfl

def documentHeaderK : Kind Obj DocumentHeader where
  size := sizeofDocumentHeader
  wrap := .documentHeader
  unwrap | .documentHeader h => some h | _ => none
  decode cs := decodeDocumentHeader (cs.map cellByte)
  size_pos := by decide
  unwrap_wrap _ := rfl

theorem leValue_le (n v : Nat) (h : v < 256 ^ n) : leValue (le n v) = v := by
  induction n generalizing v with
  | zero =>
    simp only [Nat.pow_zero] at h
    simp only [le, leValue]
    omega
  | succ n ih =>
    have hdiv : v / 256 < 256 ^ n := Nat.div_lt_of_lt_mul (by rwa [Nat.pow_succ'] at h)
    simp only [le, leValue, ih _ hdiv, UInt8.toNat_ofNat']
    omega

end Zgdb
