/-
# Elements through the file stream

`writeElement` and `readElement` of `data/zgdbdata.c` work on a `FILE *`: every `fwrite` and
`fread` moves its position on, and the text branches leave the document for the toast and come
back.  A `Handle` is the file with that position.

* The bytes `writeElement` returns are the distance the position moves, and what it leaves in the
  file is what `writeElement` of `Element.lean` says, which is told where to write
  (`Handle.writeElement_eq`).
* `nextEl` decodes through a buffer of 64 bytes; an element that does not fit in the rest of it is
  read again from its first byte in a fresh buffer.  The loop over `nextEl` returns what
  `readElement` reads at the same positions, for every content of the block (`nextEl_agrees`).
-/
import Zgdb.RoundTrip

namespace Zgdb

open Zgdb.Lib AddrSpace

variable {A : Type} [BlockSpace A]

/-! ## 1. The stream

The position is part of the state, so a function that writes too much or at a wrong place would
leave it there. -/

/-- The bytes of one `fwrite`. -/
structure Extent (A : Type) where
  pos : A
  disp : Nat
  size : Nat

/-- An open file; the position of the stream is `disp` bytes behind `pos`.  The log of what was
written is for the proofs only: no function reads it, and it says which bytes a loop has touched and
in which order. -/
structure Handle (A : Type) where
  file : ZgdbFile A
  pos : A
  disp : Nat
  log : List (Extent A)

namespace Handle

def fseeko (h : Handle A) (pos : A) (disp : Nat) : Handle A := { h with pos := pos, disp := disp }

def fread {α : Type} (k : Kind Obj α) (h : Handle A) : α × Handle A :=
  (freadAt k h.file h.pos h.disp, { h with disp := h.disp + k.size })

def fwrite {α : Type} (k : Kind Obj α) (a : α) (h : Handle A) : Handle A :=
  { h with
    file := fwriteAt k h.file h.pos h.disp a
    disp := h.disp + k.size
    log := h.log ++ [⟨h.pos, h.disp, k.size⟩] }

/-! ## 2. Writing

A text is written at the toast and the document goes on behind its entry; for this the source keeps
the position and seeks back to it. -/

/-- The loop over the `chunks` chunks of a text, `count` of them being written. -/
def writeChunks (used firstToastIndex : Nat) (cur : Text) (chunks rem : Nat) :
    (left count : Nat) → Handle A → Handle A
  | 0, _, h => h
  | left + 1, count, h =>
    let tempTextChunk : TextChunk :=
      if count = chunks - 1 then
        { data := overlay cur.data (chunkSize * count) rem clearedChunk, nextOffset := 0,
          toastIndex := firstToastIndex }
      else
        { data := overlay cur.data (chunkSize * count) chunkSize clearedChunk,
          nextOffset := (used + count + 1) * chunkRecord, toastIndex := firstToastIndex }
    writeChunks used firstToastIndex cur chunks rem left (count + 1)
      ((h.fwrite byteK ElementType.textChunk.code).fwrite textChunkK tempTextChunk)

/-- The `switch` of `writeElement`. -/
def writeValue [TextCut] (h : Handle A) (value : ElementValue) (firstToastIndex : Nat) : Handle A :=
  match value with
  | .boolean v => h.fwrite byteK v
  | .int v => h.fwrite intK v
  | .double v => h.fwrite doubleK v
  | .text text =>
    let chunks := TextCut.chunks text.size
    let indexToast : A := blockPos h.file firstToastIndex
    let (tempToast, toastStream) := (h.fseeko indexToast 0).fread toastK
    let h := toastStream.fseeko h.pos h.disp
    let nextOffset := tempToast.used * chunkRecord
    let h := h.fwrite firstTextChunkK { size := text.size, offsetInToast := nextOffset }
    let toastStream := writeChunks tempToast.used firstToastIndex text chunks
      (TextCut.rem text.size) chunks 0 (h.fseeko indexToast (sizeofToast + nextOffset))
    let toastStream := (toastStream.fseeko indexToast 0).fwrite toastK
      { tempToast with used := tempToast.used + chunks }
    toastStream.fseeko h.pos h.disp

/-- `writeElement`; the result is the stream and the bytes written, a difference of positions. -/
def writeElement [TextCut] (h : Handle A) (cur : Element) (firstToastIndex : Nat) :
    Handle A × Nat :=
  let t := h.disp
  let h := (h.fwrite byteK cur.value.type.code).fwrite nameK cur.key
  let h := h.writeValue cur.value firstToastIndex
  (h, h.disp - t)

/-- The loop of `createDocument` over the elements: for each the position it is written at and what
the call returns. -/
def writeElements [TextCut] (firstToastIndex : Nat) : List Element → Handle A →
    Handle A × List (Nat × Nat)
  | [], h => (h, [])
  | cur :: rest, h =>
    let (next, n) := h.writeElement cur firstToastIndex
    let (last, calls) := writeElements firstToastIndex rest next
    (last, (h.disp, n) :: calls)

/-- The chunks of a text go where `writeChunks` puts them: to the slots behind the used ones. -/
theorem writeChunks_file {used t : Nat} {text : Text} {chunks rem : Nat} {pos : A} :
    ∀ (left count : Nat) (file : ZgdbFile A) (log : List (Extent A)), count + left = chunks →
      (writeChunks used t text chunks rem left count
          ⟨file, pos, sizeofToast + (used + count) * chunkRecord, log⟩).file
        = Zgdb.writeChunks file pos (used + count) t text.data (chunkSize * count) rem t left
  | 0, _, _, _, _ => rfl
  | 1, count, file, log, hc => by
    have hlast : count = chunks - 1 := by omega
    simp only [writeChunks, if_pos hlast]
    rfl
  | left + 2, count, file, log, hc => by
    have hlast : count ≠ chunks - 1 := by omega
    have hslot : sizeofToast + (used + count) * chunkRecord + byteK.size + textChunkK.size
        = sizeofToast + (used + (count + 1)) * chunkRecord := by
      simp only [byteK, textChunkK, chunkRecord, sizeofTextChunk]
      omega
    rw [writeChunks, if_neg hlast]
    simp only [fwrite]
    rw [hslot, writeChunks_file (left + 1) (count + 1) _ _ (by omega), Zgdb.writeChunks,
      Nat.mul_add, Nat.mul_one, Nat.add_assoc used count 1]
    rfl

/-- The two writes of a chunk at slot `slot` of the toast at `pos`. -/
def recordLog (pos : A) (slot : Nat) : List (Extent A) :=
  [⟨pos, sizeofToast + slot * chunkRecord, byteK.size⟩,
    ⟨pos, sizeofToast + slot * chunkRecord + byteK.size, textChunkK.size⟩]

theorem writeChunks_log {used t : Nat} {text : Text} {chunks rem : Nat} {pos : A} :
    ∀ (left count : Nat) (file : ZgdbFile A) (log : List (Extent A)),
      (writeChunks used t text chunks rem left count
          ⟨file, pos, sizeofToast + (used + count) * chunkRecord, log⟩).log
        = log ++ (List.range' (used + count) left).flatMap (recordLog pos)
  | 0, _, _, log => (List.append_nil log).symm
  | left + 1, count, file, log => by
    have hslot : sizeofToast + (used + count) * chunkRecord + byteK.size + textChunkK.size
        = sizeofToast + (used + (count + 1)) * chunkRecord := by
      simp only [byteK, textChunkK, chunkRecord, sizeofTextChunk]
      omega
    simp only [writeChunks, fwrite]
    rw [hslot, writeChunks_log left (count + 1), List.range'_succ, List.flatMap_cons, recordLog,
      Nat.add_assoc used count 1]
    simp only [List.append_assoc, List.cons_append, List.nil_append]

/-- The writes of the value of an element. -/
def valueLog [TextCut] (file : ZgdbFile A) (pos : A) (d : Nat) (value : ElementValue) (t : Nat) :
    List (Extent A) :=
  match value with
  | .text text =>
    let indexToast : A := blockPos file t
    ⟨pos, d, sizeofFirstTextChunk⟩ ::
      ((List.range' (freadAt toastK file indexToast 0).used (TextCut.chunks text.size)).flatMap
          (recordLog indexToast)
        ++ [⟨indexToast, 0, sizeofToast⟩])
  | value => [⟨pos, d, value.type.valueSize⟩]

theorem writeValue_eq [TextCut] (h : Handle A) (value : ElementValue) (t : Nat) :
    h.writeValue value t =
      ⟨Zgdb.writeValue h.file h.pos h.disp value t, h.pos, h.disp + value.type.valueSize,
        h.log ++ valueLog h.file h.pos h.disp value t⟩ := by
  obtain ⟨file, pos, d, log⟩ := h
  cases value with
  | text text =>
    have hfile : ∀ (used : Nat) (file' : ZgdbFile A) (log : List (Extent A)),
        (writeChunks used t text (TextCut.chunks text.size) (TextCut.rem text.size)
            (TextCut.chunks text.size) 0
            ⟨file', blockPos file t, sizeofToast + used * chunkRecord, log⟩).file
          = Zgdb.writeChunks file' (blockPos file t) used t text.data 0 (TextCut.rem text.size) t
            (TextCut.chunks text.size) := fun used file' log =>
      writeChunks_file (TextCut.chunks text.size) 0 file' log (Nat.zero_add _)
    have hlog : ∀ (used : Nat) (file' : ZgdbFile A) (log : List (Extent A)),
        (writeChunks used t text (TextCut.chunks text.size) (TextCut.rem text.size)
            (TextCut.chunks text.size) 0
            ⟨file', blockPos file t, sizeofToast + used * chunkRecord, log⟩).log
          = log ++ (List.range' used (TextCut.chunks text.size)).flatMap
            (recordLog (blockPos file t)) := fun used file' log =>
      writeChunks_log (TextCut.chunks text.size) 0 file' log
    simp only [writeValue, fwrite, fread, fseeko, hfile, hlog, List.append_assoc]
    rfl
  | boolean v => rfl
  | int v => rfl
  | double v => rfl

/-- The writes of an element. -/
def elementLog [TextCut] (file : ZgdbFile A) (pos : A) (d : Nat) (cur : Element) (t : Nat) :
    List (Extent A) :=
  ⟨pos, d, byteK.size⟩ :: ⟨pos, d + byteK.size, nameK.size⟩ ::
    valueLog (fwriteAt nameK (fwriteAt byteK file pos d cur.value.type.code) pos (d + 1) cur.key)
      pos
      (d + elementHead) cur.value t

/-- **One element through the stream**: the file, the distance the position moves, and the writes.
-/
theorem writeElement_eq [TextCut] (h : Handle A) (cur : Element) (t : Nat) :
    h.writeElement cur t =
      (⟨(Zgdb.writeElement h.file h.pos h.disp cur t).1, h.pos, h.disp + getElementSize cur,
          h.log ++ elementLog h.file h.pos h.disp cur t⟩,
        getElementSize cur) := by
  have hd : h.disp + byteK.size + nameK.size + cur.value.type.valueSize
      = h.disp + getElementSize cur := by
    rw [Nat.add_assoc h.disp, Nat.add_assoc h.disp]
    rfl
  simp only [writeElement, writeValue_eq, fwrite, hd, Nat.add_sub_cancel_left, List.append_assoc]
  rfl

/-- The positions elements are written at, from `d` on, with their sizes. -/
def places : Nat → List Element → List (Nat × Nat)
  | _, [] => []
  | d, e :: rest => (d, getElementSize e) :: places (d + getElementSize e) rest

theorem places_sizes (d : Nat) (elements : List Element) :
    ((places d elements).map Prod.snd) = elements.map getElementSize := by
  induction elements generalizing d with
  | nil => rfl
  | cons e rest ih => rw [places, List.map_cons, ih, List.map_cons]

/-- **All elements through the stream**: the file, and where they are written. -/
theorem writeElements_eq [TextCut] (t : Nat) (elements : List Element) (h : Handle A) :
    (h.writeElements t elements).1.file = Zgdb.writeElements h.file h.pos h.disp t elements ∧
      (h.writeElements t elements).2 = places h.disp elements := by
  induction elements generalizing h with
  | nil => exact ⟨rfl, rfl⟩
  | cons e rest ih =>
    obtain ⟨hfile, hplaces⟩ := ih (h.writeElement e t).1
    rw [writeElement_eq] at hfile hplaces
    simp only [writeElements, writeElement_eq, hfile, hplaces, places, Zgdb.writeElements]
    exact ⟨rfl, trivial⟩

/-! ## 3. Reading

`readElement` reads field by field at the position, without a buffer. -/

end Handle

/-- `element`, as it is read; there is no value when the type is none of the four. -/
structure ReadElement where
  type : UInt8
  key : Name
  value : Option ElementValue
deriving DecidableEq

namespace Handle

/-- `readElement`.  The chunks of a text are read elsewhere in the file and the position is set back
behind the `firstTextChunk`. -/
def readElement [TextCut] (h : Handle A) (doc : Document) : ReadElement × Handle A :=
  let (type, h) := h.fread byteK
  let (key, h) := h.fread nameK
  if type = ElementType.boolean.code then
    let (v, h) := h.fread byteK
    (⟨type, key, some (.boolean v)⟩, h)
  else if type = ElementType.int.code then
    let (v, h) := h.fread intK
    (⟨type, key, some (.int v)⟩, h)
  else if type = ElementType.double.code then
    let (v, h) := h.fread doubleK
    (⟨type, key, some (.double v)⟩, h)
  else if type = ElementType.text.code then
    let (firstChunk, h) := h.fread firstTextChunkK
    (⟨type, key, some (.text (readText h.file doc.header.firstToastIndex firstChunk))⟩, h)
  else (⟨type, key, none⟩, h)

/-- `n` calls of `readElement`: for each the position it starts at and the element. -/
def readElements [TextCut] (doc : Document) : (n : Nat) → Handle A →
    List (Nat × ReadElement) × Handle A
  | 0, h => ([], h)
  | n + 1, h =>
    let (cur, next) := h.readElement doc
    let (rest, last) := readElements doc n next
    ((h.disp, cur) :: rest, last)

theorem readElement_eq [TextCut] (h : Handle A) (doc : Document) :
    let m := view h.file.mem h.pos
    let type := load byteK m h.disp
    h.readElement doc =
      (⟨type, load nameK m (h.disp + 1), readValue h.file doc m type (h.disp + elementHead)⟩,
        { h with disp := h.disp + (elementHead + typeSize type) }) := by
  obtain ⟨file, pos, d, log⟩ := h
  have hl : ∀ {α : Type} (K : Kind Obj α) (x : Nat),
      freadAt K file pos x = load K (view file.mem pos) x := fun K x => (load_view _ _ _).symm
  have hd : d + byteK.size + nameK.size = d + elementHead := rfl
  simp only [readElement, fread, hl, hd, readValue, typeSize]
  generalize load byteK (view file.mem pos) d = type
  split
  · rfl
  · split
    · rfl
    · split
      · rfl
      · split <;> rfl

end Handle

/-! ## 4. The buffer of 64 bytes

While a field fits into the rest of the buffer, reading it from the buffer and reading it from the
file are the same.  When it does not the element is begun again, with a buffer that starts at it. -/

namespace Buffer

/-- `READ_BUFFER_SIZE - curPos >= n` -/
def fits (buf : Buffer) (n : Nat) : Bool := readBufferSize - buf.pos ≥ n

def fread {α : Type} (k : Kind Obj α) (buf : Buffer) : α × Buffer :=
  (load k buf.cells buf.pos, { buf with pos := buf.pos + k.size })

/-- One case of the `switch` of `nextEl`; `none` is `reqUpdateBuffer`. -/
def decodeValue {α : Type} (k : Kind Obj α) (wrap : α → ElementValue) (reqData : Bool)
    (buf : Buffer) : Option (Option ElementValue × Buffer) :=
  if buf.fits k.size then
    if reqData then
      let (v, buf) := buf.fread k
      some (some (wrap v), buf)
    else some (none, { buf with pos := buf.pos + k.size })
  else none

/-- The `switch` of `nextEl`; a type that is none of the four has no value and takes no bytes. -/
def decodeSwitch [TextCut] (file : ZgdbFile A) (doc : Document) (reqData : Bool) (type : UInt8)
    (buf : Buffer) : Option (Option ElementValue × Buffer) :=
  if type = ElementType.boolean.code then decodeValue byteK .boolean reqData buf
  else if type = ElementType.int.code then decodeValue intK .int reqData buf
  else if type = ElementType.double.code then decodeValue doubleK .double reqData buf
  else if type = ElementType.text.code then
    decodeValue firstTextChunkK
      (fun c => .text (readText file doc.header.firstToastIndex c)) reqData buf
  else some (none, buf)

/-- `nextEl` from the label `updateBuffer` on; `none` is a field that does not fit, which leads back
to the label with a fresh buffer. -/
def decode [TextCut] (file : ZgdbFile A) (doc : Document) (reqData : Bool) (buf : Buffer) :
    Option (ReadElement × Buffer) :=
  if buf.fits byteK.size then
    let (type, buf) := buf.fread byteK
    if buf.fits nameK.size then
      let (key, buf) := buf.fread nameK
      (decodeSwitch file doc reqData type buf).map fun r => (⟨type, key, r.1⟩, r.2)
    else none
  else none

/-- The buffer shows the bytes of `m` from `start` on, as far as it reaches. -/
structure Shows (buf : Buffer) (m : Mem Nat Obj) (start : Nat) : Prop where
  pos_le : buf.pos ≤ readBufferSize
  cells : ∀ d < readBufferSize, buf.cells d = m (start + d)

variable {buf : Buffer} {m : Mem Nat Obj} {start : Nat}

theorem Shows.load {α : Type} {k : Kind Obj α} (h : buf.Shows m start)
    (hfit : buf.pos + k.size ≤ readBufferSize) :
    load k buf.cells buf.pos = load k m (start + buf.pos) := by
  have hview : Lib.load k m (start + buf.pos) = Lib.load k (view m start) buf.pos :=
    (load_view m start buf.pos).symm
  rw [hview]
  refine load_congr ?_
  intro i hi
  have hlt : buf.pos + i < readBufferSize := by omega
  exact h.cells _ hlt

theorem Shows.fits (h : buf.Shows m start) {n : Nat} :
    buf.fits n = true ↔ buf.pos + n ≤ readBufferSize := by
  have hle := h.pos_le
  rw [Buffer.fits, decide_eq_true_eq]
  omega

theorem Shows.decodeValue {α : Type} {k : Kind Obj α} {wrap : α → ElementValue} (reqData : Bool)
    (h : buf.Shows m start) :
    Buffer.decodeValue k wrap reqData buf =
      if buf.pos + k.size ≤ readBufferSize then
        some (if reqData then some (wrap (Lib.load k m (start + buf.pos))) else none,
          { buf with pos := buf.pos + k.size })
      else none := by
  unfold Buffer.decodeValue
  by_cases hfit : buf.pos + k.size ≤ readBufferSize
  · rw [if_pos (h.fits.mpr hfit), if_pos hfit]
    cases reqData with
    | true => simp only [if_true, Buffer.fread, h.load hfit]
    | false => rfl
  · rw [if_neg (mt h.fits.mp hfit), if_neg hfit]

theorem Shows.decodeSwitch [TextCut] {file : ZgdbFile A} {doc : Document} (reqData : Bool)
    (type : UInt8)
    (h : buf.Shows m start) :
    Buffer.decodeSwitch file doc reqData type buf =
      if buf.pos + typeSize type ≤ readBufferSize then
        some (if reqData then readValue file doc m type (start + buf.pos) else none,
          { buf with pos := buf.pos + typeSize type })
      else none := by
  unfold Buffer.decodeSwitch typeSize readValue
  by_cases h1 : type = ElementType.boolean.code
  · simp only [if_pos h1, h.decodeValue]
    rfl
  · by_cases h2 : type = ElementType.int.code
    · simp only [if_neg h1, if_pos h2, h.decodeValue]
      rfl
    · by_cases h3 : type = ElementType.double.code
      · simp only [if_neg h1, if_neg h2, if_pos h3, h.decodeValue]
        rfl
      · by_cases h4 : type = ElementType.text.code
        · simp only [if_neg h1, if_neg h2, if_neg h3, if_pos h4, h.decodeValue]
          rfl
        · simp only [if_neg h1, if_neg h2, if_neg h3, if_neg h4, Nat.add_zero, if_pos h.pos_le,
            ite_self]

/-- **One pass over an element**: it fits, and is read as it lies in the block, or the buffer has to
be loaded again. -/
theorem Shows.decode [TextCut] (h : buf.Shows m start) (file : ZgdbFile A) (doc : Document)
    (reqData : Bool) :
    let d := start + buf.pos
    let type := Lib.load byteK m d
    let n := elementHead + typeSize type
    Buffer.decode file doc reqData buf =
      if buf.pos + n ≤ readBufferSize then
        some (⟨type, Lib.load nameK m (d + 1),
            if reqData then readValue file doc m type (d + elementHead) else none⟩,
          { buf with pos := buf.pos + n })
      else none := by
  intro d type n
  unfold Buffer.decode
  by_cases h1 : buf.pos + byteK.size ≤ readBufferSize
  · have hs1 : Shows { buf with pos := buf.pos + byteK.size } m start := ⟨h1, h.cells⟩
    rw [if_pos (h.fits.mpr h1)]
    simp only [fread, h.load h1]
    by_cases h2 : buf.pos + byteK.size + nameK.size ≤ readBufferSize
    · have hs2 : Shows { buf with pos := buf.pos + byteK.size + nameK.size } m start :=
        ⟨h2, h.cells⟩
      have hn : buf.pos + byteK.size + nameK.size + typeSize type = buf.pos + n := by
        rw [Nat.add_assoc buf.pos, Nat.add_assoc buf.pos]
        rfl
      rw [if_pos (hs1.fits.mpr h2)]
      simp only [hs1.load h2, hs2.decodeSwitch]
      change Option.map _ (if buf.pos + byteK.size + nameK.size + typeSize type ≤ _ then _ else _)
        = _
      rw [hn]
      by_cases h3 : buf.pos + n ≤ readBufferSize
      · rw [if_pos h3, if_pos h3, Option.map_some]
        have hd : start + (buf.pos + byteK.size + nameK.size) = d + elementHead := by
          rw [Nat.add_assoc buf.pos, ← Nat.add_assoc]
          rfl
        rw [hd]
        rfl
      · rw [if_neg h3, if_neg h3, Option.map_none]
    · have hover : ¬ buf.pos + n ≤ readBufferSize := fun hle => h2 (le_trans (by
        simp only [n, byteK, nameK, elementHead]
        omega) hle)
      rw [if_neg (mt hs1.fits.mp h2), if_neg hover]
  · have hover : ¬ buf.pos + n ≤ readBufferSize := fun hle => h1 (le_trans (by
      simp only [n, byteK, elementHead]
      omega) hle)
    rw [if_neg (mt h.fits.mp h1), if_neg hover]

end Buffer

/-! ## 5. The loop over the elements

An element is at most as long as a buffer, so it is begun again once at most.  Then the loop is that
of `readElement`, for any bytes in the block. -/

/-- `bufTemp` after a load: 64 bytes of the block, and behind them whatever the memory holds. -/
def ElementIterator.window (beyond : Mem Nat Obj) (file : ZgdbFile A) (it : ElementIterator A) :
    Buffer where
  cells d :=
    if d < readBufferSize then file.mem (add it.block (it.offsetInFile + d)) else beyond d
  pos := 0

/-- The jumps of `nextEl` to `updateBuffer`.  An element that does not fit is read again from its
first byte in a fresh buffer. -/
def nextElLoop [TextCut] (beyond : Mem Nat Obj) (file : ZgdbFile A) (it : ElementIterator A)
    (reqData : Bool) : (jumps : Nat) → Buffer → Option (ElementEntry × ElementIterator A)
  | 0, _ => none
  | jumps + 1, buf =>
    match buf.decode file it.doc reqData with
    | none => nextElLoop beyond file it reqData jumps (it.window beyond file)
    | some (cur, next) =>
      some ({ type := cur.type, key := cur.key, value := cur.value,
              offsetInDocument := it.offsetInFile },
        { it with
          buffer := some next
          offsetInFile := it.offsetInFile + (next.pos - buf.pos)
          passedAttributesCount := it.passedAttributesCount + 1 })

/-- `nextEl` with a buffer that ends after 64 bytes. -/
def nextElBuffered [TextCut] (beyond : Mem Nat Obj) (jumps : Nat) (file : ZgdbFile A)
    (it : ElementIterator A) (reqData : Bool) : Option (ElementEntry × ElementIterator A) :=
  nextElLoop beyond file it reqData jumps (it.buffer.getD (it.window beyond file))

/-- `while (hasNextEl(…)) nextEl(…)`: the entries, and the iterator in the end. -/
def drainEl [TextCut] (beyond : Mem Nat Obj) (file : ZgdbFile A) (reqData : Bool) :
    (fuel : Nat) → ElementIterator A → Option (List ElementEntry × ElementIterator A)
  | 0, it => if hasNextEl it then none else some ([], it)
  | fuel + 1, it =>
    if hasNextEl it then do
      let (entry, it) ← nextElBuffered beyond 2 file it reqData
      let (entries, it) ← drainEl beyond file reqData fuel it
      return (entry :: entries, it)
    else some ([], it)

/-- The entry `nextEl` returns where `readElement` reads an element. -/
def entryOf (reqData : Bool) (r : Nat × ReadElement) : ElementEntry where
  type := r.2.type
  key := r.2.key
  value := if reqData then r.2.value else none
  offsetInDocument := r.1

/-- The stream at the byte behind the header of a document. -/
def elementStream (file : ZgdbFile A) (doc : Document) : Handle A :=
  ⟨file, blockPos file doc.header.indexAttached, sizeofDocumentHeader, []⟩

/-- The iterator stands where the stream stands, and its buffer shows the block there.  This is what
relates the two decodings: whatever is in the window is what `fread` would return, so it does not
matter where the window ends. -/
structure Follows (it : ElementIterator A) (h : Handle A) : Prop where
  buffer : ∀ buf, it.buffer = some buf →
    ∃ start, start + buf.pos = h.disp ∧ buf.Shows (view h.file.mem h.pos) start
  block : it.block = h.pos
  offset : it.offsetInFile = h.disp

theorem follows_elementStream (file : ZgdbFile A) (doc : Document) :
    Follows (createElIterator file doc) (elementStream file doc) where
  buffer _ h := by cases h
  block := rfl
  offset := rfl

theorem typeSize_le (type : UInt8) : elementHead + typeSize type ≤ readBufferSize := by
  unfold typeSize
  repeat' split
  all_goals decide

section Follow

variable {beyond : Mem Nat Obj} {it : ElementIterator A} {h : Handle A}

theorem Follows.window (hf : Follows it h) :
    (it.window beyond h.file).Shows (view h.file.mem h.pos) h.disp where
  pos_le := Nat.zero_le _
  cells d hd := by
    simp only [ElementIterator.window, if_pos hd, hf.block, hf.offset]
    rfl

/-- A pass over a buffer in which the element fits. -/
theorem Follows.pass [TextCut] (hf : Follows it h) (reqData : Bool) {buf : Buffer}
    {start jumps : Nat}
    (hpos : start + buf.pos = h.disp) (hs : buf.Shows (view h.file.mem h.pos) start)
    (hfit : buf.pos + (elementHead + typeSize (load byteK (view h.file.mem h.pos) h.disp))
      ≤ readBufferSize) :
    ∃ it', nextElLoop beyond h.file it reqData (jumps + 1) buf
        = some (entryOf reqData (h.disp, (h.readElement it.doc).1), it') ∧
      Follows it' (h.readElement it.doc).2 ∧ it'.doc = it.doc ∧
      it'.allAttributesCount = it.allAttributesCount ∧
      it'.passedAttributesCount = it.passedAttributesCount + 1 := by
  have hdecode := hs.decode h.file it.doc reqData
  simp only [hpos, if_pos hfit] at hdecode
  rw [nextElLoop, hdecode, Handle.readElement_eq]
  refine ⟨_, congrArg some (Prod.ext ?_ rfl), ⟨?_, hf.block, ?_⟩, rfl, rfl, rfl⟩
  · simp only [entryOf, hf.offset]
  · rintro buf' hbuf
    obtain rfl := Option.some.inj hbuf
    refine ⟨start, ?_, hfit, hs.cells⟩
    rw [← Nat.add_assoc, hpos]
  · rw [hf.offset, Nat.add_sub_cancel_left]

/-- **One step**: `nextEl` returns what `readElement` reads, with at most one jump, and both stand
at the same place afterwards. -/
theorem Follows.next [TextCut] (hf : Follows it h) (reqData : Bool) :
    ∃ it', nextElBuffered beyond 2 h.file it reqData
        = some (entryOf reqData (h.disp, (h.readElement it.doc).1), it') ∧
      Follows it' (h.readElement it.doc).2 ∧ it'.doc = it.doc ∧
      it'.allAttributesCount = it.allAttributesCount ∧
      it'.passedAttributesCount = it.passedAttributesCount + 1 := by
  -- an element always fits in a fresh buffer
  have hfresh : (it.window beyond h.file).pos
      + (elementHead + typeSize (load byteK (view h.file.mem h.pos) h.disp)) ≤ readBufferSize :=
    (Nat.zero_add _).le.trans (typeSize_le _)
  unfold nextElBuffered
  cases hb : it.buffer with
  | none => exact hf.pass reqData (Nat.add_zero _) hf.window hfresh
  | some buf =>
    obtain ⟨start, hpos, hs⟩ := hf.buffer buf hb
    by_cases hfit : buf.pos
        + (elementHead + typeSize (load byteK (view h.file.mem h.pos) h.disp)) ≤ readBufferSize
    · exact hf.pass reqData hpos hs hfit
    · have hdecode := hs.decode h.file it.doc reqData
      simp only [hpos, if_neg hfit] at hdecode
      rw [Option.getD_some, nextElLoop, hdecode]
      exact hf.pass reqData (Nat.add_zero _) hf.window hfresh

/-- **The whole loop**: it ends, with the entries of the elements `readElement` reads. -/
theorem Follows.drain [TextCut] {file : ZgdbFile A} {doc : Document} (reqData : Bool) {n : Nat} :
    ∀ {fuel : Nat} {it : ElementIterator A} {h : Handle A}, Follows it h → h.file = file →
      it.doc = doc → it.allAttributesCount = it.passedAttributesCount + n → n ≤ fuel →
      ∃ it', drainEl beyond file reqData fuel it
          = some ((h.readElements doc n).1.map (entryOf reqData), it') ∧
        hasNextEl it' = false ∧ it'.offsetInFile = (h.readElements doc n).2.disp := by
  induction n with
  | zero =>
    intro fuel it h hf _ _ hcount _
    have hstop : hasNextEl it = false := by simp [hasNextEl, hcount]
    refine ⟨it, ?_, hstop, hf.offset⟩
    cases fuel <;> simp [drainEl, hstop, Handle.readElements]
  | succ n ih =>
    intro fuel it h hf hfile hdoc hcount hfuel
    obtain ⟨fuel, rfl⟩ : ∃ m, fuel = m + 1 := ⟨fuel - 1, by omega⟩
    have hgo : hasNextEl it = true := by simp [hasNextEl, hcount]
    obtain ⟨it1, hentry, hnext, hdoc1, hall, hpassed⟩ := hf.next reqData
    rw [hdoc, hfile] at hentry
    rw [hdoc] at hnext hdoc1
    have hsame : (h.readElement doc).2.file = file := by rw [Handle.readElement_eq]; exact hfile
    have hn : n ≤ fuel := by omega
    obtain ⟨it', hrun, hstop, hoff⟩ := ih hnext hsame hdoc1 (by omega) hn
    refine ⟨it', ?_, hstop, hoff⟩
    rw [drainEl, if_pos hgo, hentry]
    simp only [Option.bind_eq_bind, Option.bind_some, hrun, Handle.readElements, List.map_cons]
    rfl

end Follow

/-- `nextEl` of `Element.lean`, whose buffer does not end, returns the same entries. -/
theorem iterateEl_eq_readElements [TextCut] {file : ZgdbFile A} {doc : Document} (reqData : Bool)
    {n : Nat} :
    ∀ {it : ElementIterator A} {h : Handle A}, it.Window file → h.file = file → it.doc = doc →
      it.block = h.pos → it.offsetInFile = h.disp →
      iterateEl file reqData n it = (h.readElements doc n).1.map (entryOf reqData) := by
  induction n with
  | zero => exact fun _ _ _ _ _ => rfl
  | succ n ih =>
    intro it h hw hfile hdoc hblock hoffset
    obtain ⟨hentry, hwindow, hblock', hdoc', hoffset'⟩ := nextEl_eq hw reqData
    rw [hblock, hoffset, hdoc] at hentry
    rw [hblock] at hblock'
    have hr := Handle.readElement_eq h doc
    rw [hfile] at hr
    have hsame : (h.readElement doc).2.file = file := by rw [hr]
    have hpos : (nextEl file it reqData).2.block = (h.readElement doc).2.pos := by
      rw [hr]
      exact hblock'
    have hdisp : (nextEl file it reqData).2.offsetInFile = (h.readElement doc).2.disp := by
      rw [hr, hoffset', hblock, hoffset]
    have hhead : (nextEl file it reqData).1 = entryOf reqData (h.disp, (h.readElement doc).1) := by
      rw [hr, hentry]
      rfl
    have hrest := ih hwindow hsame (hdoc'.trans hdoc) hpos hdisp
    exact List.cons_eq_cons.mpr ⟨hhead, hrest⟩

/-- The entries the store's theorems speak of are those that `readElement` reads. -/
theorem elementEntries_eq_readElements [TextCut] (file : ZgdbFile A) (doc : Document)
    (reqData : Bool) :
    elementEntries file doc reqData
      = ((elementStream file doc).readElements doc doc.header.attrCount).1.map
          (entryOf reqData) :=
  iterateEl_eq_readElements reqData (fun _ h => by cases h) rfl rfl rfl rfl

/-! ## 6. What `createDocument` wrote

The three functions on one document: what is returned, what is written and what is read have the
same lengths. -/

/-- Stored elements are read where they lie, one behind the other. -/
theorem Handle.readElements_of_holds [TextCut] (doc : Document) {es : List StoredElement} :
    ∀ {h : Handle A}, HoldsElements (view h.file.mem h.pos) h.disp es →
      (h.readElements doc es.length).1.map (entryOf true)
          = entriesOf h.file doc.header.firstToastIndex true h.disp es ∧
        (h.readElements doc es.length).2.disp = h.disp + storedSize es := by
  induction es with
  | nil => exact fun _ => ⟨rfl, rfl⟩
  | cons e es ih =>
    rintro h ⟨he, hes⟩
    have htype : load byteK (view h.file.mem h.pos) h.disp = e.value.type.code :=
      load_of_holds he.type
    have hr : h.readElement doc =
        (⟨e.value.type.code, e.key, some (e.value.read h.file doc.header.firstToastIndex)⟩,
          { h with disp := h.disp + e.size }) := by
      rw [readElement_eq, htype, load_of_holds he.key, readValue_of_holds he.value, typeSize_code]
      rfl
    obtain ⟨hlist, hlast⟩ := ih (h := { h with disp := h.disp + e.size }) hes
    rw [List.length_cons, readElements, hr]
    refine ⟨?_, ?_⟩
    · rw [List.map_cons, hlist]
      rfl
    · rw [hlast, storedSize_cons, Nat.add_assoc]

/-- The entries of written elements: their positions, types and keys. -/
theorem entriesOf_places [TextCut] (file : ZgdbFile A) (t : Nat) {elements : List Element}
    {d used : Nat} :
    (entriesOf file t true d (storeElements used elements)).map
        (fun e => (e.offsetInDocument, e.type, e.key))
      = List.zipWith (fun p e => (p.1, e.value.type.code, e.key)) (Handle.places d elements)
          elements := by
  induction elements generalizing d used with
  | nil => rfl
  | cons e rest ih =>
    have htype : (storeElement used e).value.type = e.value.type := by
      obtain ⟨key, v⟩ := e
      cases v <;> rfl
    rw [storeElements, entriesOf, List.map_cons, ih, Handle.places, List.zipWith_cons_cons,
      htype, storeElement_size]
    rfl

/-- **The buffered and the plain decoding agree.**  For every document the loop over `nextEl` ends
and returns, element by element, what `attrCount` calls of `readElement` read behind the header,
each with the position of the call; without data it returns the same types, keys and positions.
So does the loop over a buffer without an end (`elementEntries`), which the model reads elements by.
In a document that `createDocument` wrote these are the positions, the types and the keys of the
elements of the schema. -/
theorem nextEl_agrees (file : ZgdbFile A) (doc : Document) :
    let plain := ((elementStream file doc).readElements doc doc.header.attrCount).1
    (∀ beyond reqData fuel, doc.header.attrCount ≤ fuel → ∃ it',
      drainEl beyond file reqData fuel (createElIterator file doc)
          = some (plain.map (entryOf reqData), it') ∧ hasNextEl it' = false) ∧
    (∀ reqData, elementEntries file doc reqData = plain.map (entryOf reqData)) ∧
    ∀ schema : DocumentSchema, schema.Built → schema.Complete →
      NewDocument file schema doc.header.indexAttached →
      doc.header = getDocumentHeader file doc.header.indexAttached →
      plain.map (fun r => (r.1, r.2.type, r.2.key))
        = List.zipWith (fun p e => (p.1, e.value.type.code, e.key))
            ((elementStream file doc).writeElements doc.header.firstToastIndex schema.elements).2
            schema.elements := by
  intro plain
  refine ⟨?_, elementEntries_eq_readElements file doc, ?_⟩
  · intro beyond reqData fuel hfuel
    obtain ⟨it', hrun, hstop, -⟩ := (follows_elementStream file doc).drain reqData rfl rfl
      (Nat.zero_add _).symm hfuel
    exact ⟨it', hrun, hstop⟩
  · intro schema hbuilt hcomplete hnew hdoc
    have hcount : doc.header.attrCount = (storeElements 0 schema.elements).length := by
      rw [hdoc, hnew.count, storeElements_length, ← hbuilt.wf.size_eq]
      exact hcomplete
    obtain ⟨hlist, -⟩ := Handle.readElements_of_holds doc (h := elementStream file doc)
      hnew.holds
    rw [← hcount] at hlist
    rw [(Handle.writeElements_eq _ _ _).2, ← entriesOf_places file doc.header.firstToastIndex]
    change _ = (entriesOf (elementStream file doc).file doc.header.firstToastIndex true
      (elementStream file doc).disp (storeElements 0 schema.elements)).map _
    rw [← hlist, List.map_map]
    rfl

/-- Elements of all types, of 81 bytes: the last of them does not fit in the first buffer. -/
def allTypes : DocumentSchema :=
  (addDoubleToSchema (addIntToSchema (addTextToSchema (addBooleanToSchema (initSchema 4) keyA 1).2
    keyB stringA).2 keyC 7).2 keyD 0).2

theorem allTypes_built : allTypes.Built := .double _ _
    (.int _ _ (.text _ _ (.boolean _ _ (.init 4))))

/-- A document with elements of all types under the root of a new store. -/
theorem nextEl_agrees_first : ∃ (file : ZgdbFile RecordPos) (n : Nat)
    (plain : List (Nat × ReadElement)),
    plain = ((elementStream file (documentAt file n 0)).readElements (documentAt file n 0) 4).1 ∧
      (∀ beyond reqData, ∃ it', drainEl beyond file reqData 4
          (createElIterator file (documentAt file n 0)) = some (plain.map (entryOf reqData), it')) ∧
      plain.map (fun r => (r.1, r.2.type, r.2.key)) =
        [(80, ElementType.boolean.code, keyA), (95, ElementType.text.code, keyB),
          (121, ElementType.int.code, keyC), (139, ElementType.double.code, keyD)] := by
  obtain ⟨file, -, hnew⟩ := newDocument_first recordEnv allTypes_built (by decide)
  generalize (getDocumentHeader file 0).indexSon = n at hnew
  have hatt : (documentAt file n 0).header.indexAttached = n := hnew.attached
  have hcount : (documentAt file n 0).header.attrCount = 4 := hnew.count
  obtain ⟨hloop, -, hwritten⟩ := nextEl_agrees file (documentAt file n 0)
  have hw := hwritten allTypes allTypes_built (by decide) (by rw [hatt]; exact hnew)
    (by rw [hatt]; rfl)
  rw [hcount] at hloop hw
  refine ⟨file, n, _, rfl, ?_, ?_⟩
  · intro beyond reqData
    obtain ⟨it', h, -⟩ := hloop beyond reqData 4 (Nat.le_refl 4)
    exact ⟨it', h⟩
  · rw [hw, (Handle.writeElements_eq _ _ _).2]
    rfl

end Zgdb
