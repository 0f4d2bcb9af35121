/-
# Elements as they lie in a block, and what the iterator makes of them

`StoredElement` is an element as it is stored: for a text the `firstTextChunk` instead of the
characters.  `HoldsElements` says that a list of them lies intact in a block, and
`elementEntries_eq` that the iterator then returns exactly this list, each entry with its
displacement, whatever its buffer held before: a buffer is only a window on the block
(`ElementIterator.Window`), so it does not matter when it is reloaded.
-/
import Zgdb.Element

namespace Zgdb

open Zgdb.Lib AddrSpace

/-! ## 1. Stored elements

A list of stored elements is what the bytes of a document say, without a word on texts: the chunk
with the size and the first offset is a value like the others here. -/

inductive StoredValue where
  | boolean (v : UInt8)
  | int (v : Int32)
  | double (v : UInt64)
  | text (first : FirstTextChunk)
deriving DecidableEq

def StoredValue.type : StoredValue → ElementType
  | boolean _ => .boolean
  | int _ => .int
  | double _ => .double
  | text _ => .text

structure StoredElement where
  key : Name
  value : StoredValue
deriving DecidableEq

/-- The bytes of a stored element. -/
def StoredElement.size (e : StoredElement) : Nat := elementHead + e.value.type.valueSize

/-- The bytes of a list of stored elements. -/
def storedSize (es : List StoredElement) : Nat := (es.map StoredElement.size).sum

@[simp] theorem storedSize_nil : storedSize [] = 0 := rfl
@[simp] theorem storedSize_cons (e : StoredElement) (es : List StoredElement) :
    storedSize (e :: es) = e.size + storedSize es := by simp [storedSize]

theorem storedSize_append (es fs : List StoredElement) :
    storedSize (es ++ fs) = storedSize es + storedSize fs := by simp [storedSize]

def HoldsValue (m : Mem Nat Obj) (d : Nat) : StoredValue → Prop
  | .boolean v => Holds byteK m d v
  | .int v => Holds intK m d v
  | .double v => Holds doubleK m d v
  | .text first => Holds firstTextChunkK m d first

structure HoldsElement (m : Mem Nat Obj) (d : Nat) (e : StoredElement) : Prop where
  type : Holds byteK m d e.value.type.code
  key : Holds nameK m (d + 1) e.key
  value : HoldsValue m (d + elementHead) e.value

/-- The elements lie one after the other from `d`. -/
def HoldsElements (m : Mem Nat Obj) : Nat → List StoredElement → Prop
  | _, [] => True
  | d, e :: es => HoldsElement m d e ∧ HoldsElements m (d + e.size) es

theorem HoldsValue.of_eqOn {m m' : Mem Nat Obj} {d lo hi : Nat} {v : StoredValue}
    (h : HoldsValue m d v) (hlo : lo ≤ d) (hhi : d + v.type.valueSize ≤ hi)
    (heq : ∀ x, lo ≤ x → x < hi → m' x = m x) : HoldsValue m' d v := by
  cases v <;> exact Holds.of_eqOn h hlo hhi heq

theorem HoldsElement.of_eqOn {m m' : Mem Nat Obj} {d lo hi : Nat} {e : StoredElement}
    (h : HoldsElement m d e) (hlo : lo ≤ d) (hhi : d + e.size ≤ hi)
    (heq : ∀ x, lo ≤ x → x < hi → m' x = m x) : HoldsElement m' d e := by
  have hs : e.size = 1 + sizeofName + e.value.type.valueSize := rfl
  exact ⟨h.type.of_eqOn hlo (by simp only [byteK]; omega) heq,
    h.key.of_eqOn (by omega) (by simp only [nameK]; omega) heq,
    h.value.of_eqOn (by omega) (by simp only [elementHead]; omega) heq⟩

/-- **The frame rule** of a list of elements. -/
theorem HoldsElements.of_eqOn {m m' : Mem Nat Obj} {lo hi : Nat}
    (heq : ∀ x, lo ≤ x → x < hi → m' x = m x) : ∀ {es : List StoredElement} {d : Nat},
    HoldsElements m d es → lo ≤ d → d + storedSize es ≤ hi → HoldsElements m' d es
  | [], _, _, _, _ => trivial
  | e :: es, d, ⟨he, hes⟩, hlo, hhi => by
    rw [storedSize_cons] at hhi
    exact ⟨he.of_eqOn hlo (by omega) heq, hes.of_eqOn heq (by omega) (by omega)⟩

theorem holdsElements_append {m : Mem Nat Obj} : ∀ {es fs : List StoredElement} {d : Nat},
    HoldsElements m d (es ++ fs) ↔ HoldsElements m d es ∧ HoldsElements m (d + storedSize es) fs
  | [], fs, d => by simp [HoldsElements]
  | e :: es, fs, d => by
    rw [List.cons_append, HoldsElements, HoldsElements, holdsElements_append, storedSize_cons,
      and_assoc, Nat.add_assoc]

theorem ElementType.code_inj {s t : ElementType} (h : s.code = t.code) : s = t := by
  cases s <;> cases t <;> first | rfl | cases h

theorem Holds.unique {α : Type} {K : Kind Obj α} {m : Mem Nat Obj} {d : Nat} {a b : α}
    (h : Holds K m d a) (h' : Holds K m d b) : a = b :=
  (load_of_holds h).symm.trans (load_of_holds h')

theorem HoldsValue.unique {m : Mem Nat Obj} {d : Nat} {v v' : StoredValue} (h : HoldsValue m d v)
    (h' : HoldsValue m d v') (htype : v.type = v'.type) : v = v' := by
  cases v with
  | boolean v =>
    cases v' with
    | boolean w => exact congrArg _ (Holds.unique h h')
    | _ => cases htype
  | int v =>
    cases v' with
    | int w => exact congrArg _ (Holds.unique h h')
    | _ => cases htype
  | double v =>
    cases v' with
    | double w => exact congrArg _ (Holds.unique h h')
    | _ => cases htype
  | text f =>
    cases v' with
    | text g => exact congrArg _ (Holds.unique h h')
    | _ => cases htype

theorem HoldsElement.unique {m : Mem Nat Obj} {d : Nat} {e e' : StoredElement}
    (h : HoldsElement m d e) (h' : HoldsElement m d e') : e = e' := by
  have hkey : e.key = e'.key := Holds.unique h.key h'.key
  have htype : e.value.type = e'.value.type := ElementType.code_inj (Holds.unique h.type h'.type)
  have hvalue : e.value = e'.value := h.value.unique h'.value htype
  cases e
  cases e'
  simp only at hkey hvalue
  rw [hkey, hvalue]

/-- **The bytes say what the elements are**, given how many there are. -/
theorem HoldsElements.unique {m : Mem Nat Obj} : ∀ {es es' : List StoredElement} {d : Nat},
    HoldsElements m d es → HoldsElements m d es' → es.length = es'.length → es = es'
  | [], [], _, _, _, _ => rfl
  | e :: es, e' :: es', d, ⟨he, hes⟩, ⟨he', hes'⟩, hlen => by
    obtain rfl := he.unique he'
    rw [hes.unique hes' (Nat.succ.inj hlen)]

/-! ## 2. What the iterator returns

The proof goes element by element.  At each the buffer is a window on the block, so a field is read
from the buffer or after a reload with the same result. -/

section Read

variable {A : Type} [BlockSpace A]

/-- The value `nextEl` returns for a stored value of a document with this first toast. -/
def StoredValue.read [TextCut] (file : ZgdbFile A) (firstToastIndex : Nat) :
    StoredValue → ElementValue
  | boolean v => .boolean v
  | int v => .int v
  | double v => .double v
  | text first => .text (readText file firstToastIndex first)

/-- The entries of a list of stored elements from displacement `d`. -/
def entriesOf [TextCut] (file : ZgdbFile A) (firstToastIndex : Nat) (reqData : Bool) :
    Nat → List StoredElement → List ElementEntry
  | _, [] => []
  | d, e :: es =>
    { type := e.value.type.code, key := e.key,
      value := if reqData then some (e.value.read file firstToastIndex) else none,
      offsetInDocument := d } :: entriesOf file firstToastIndex reqData (d + e.size) es

/-- The buffer of an iterator is a window on the block, at the current element. -/
def ElementIterator.Window (file : ZgdbFile A) (it : ElementIterator A) : Prop :=
  ∀ buf, it.buffer = some buf → ∃ start, start + buf.pos = it.offsetInFile ∧
    buf.cells = view (view file.mem it.block) start

theorem ElementIterator.Window.updateBuffer {file : ZgdbFile A} {it : ElementIterator A}
    (h : it.Window file) : ∃ start, start + (it.updateBuffer file).pos = it.offsetInFile ∧
      (it.updateBuffer file).cells = view (view file.mem it.block) start := by
  have hload : ∃ start, start + (it.loadBuffer file).pos = it.offsetInFile ∧
      (it.loadBuffer file).cells = view (view file.mem it.block) start :=
    ⟨it.offsetInFile, rfl, rfl⟩
  unfold ElementIterator.updateBuffer
  cases hb : it.buffer with
  | none => exact hload
  | some buf =>
    simp only
    split
    · exact h buf hb
    · exact hload

theorem readValue_view [TextCut] (file : ZgdbFile A) (doc : Document) (m : Mem Nat Obj)
    (start : Nat)
    (type : UInt8) (d : Nat) :
    readValue file doc (view m start) type d = readValue file doc m type (start + d) := by
  simp only [readValue, load_view, add_nat]

/-- `nextEl` reads the element at `offsetInFile` of the block, and its buffer stays a window. -/
theorem nextEl_eq [TextCut] {file : ZgdbFile A} {it : ElementIterator A} (h : it.Window file)
    (reqData : Bool) :
    let m := view file.mem it.block
    let d := it.offsetInFile
    let type := load byteK m d
    (nextEl file it reqData).1 =
      { type := type, key := load nameK m (d + 1),
        value := if reqData then readValue file it.doc m type (d + elementHead) else none,
        offsetInDocument := d } ∧
    (nextEl file it reqData).2.Window file ∧
    (nextEl file it reqData).2.block = it.block ∧ (nextEl file it reqData).2.doc = it.doc ∧
    (nextEl file it reqData).2.offsetInFile = d + (elementHead + typeSize type) := by
  obtain ⟨start, hpos, hcells⟩ := h.updateBuffer
  have hl : ∀ {α : Type} (K : Kind Obj α) (x : Nat),
      load K (it.updateBuffer file).cells ((it.updateBuffer file).pos + x)
        = load K (view file.mem it.block) (it.offsetInFile + x) := by
    intro α K x
    rw [hcells, load_view, add_nat, ← hpos, Nat.add_assoc]
  have hl0 := hl byteK 0
  rw [Nat.add_zero, Nat.add_zero] at hl0
  refine ⟨?_, ?_, rfl, rfl, ?_⟩
  · have hv : ∀ type, readValue file it.doc (it.updateBuffer file).cells type
        ((it.updateBuffer file).pos + elementHead)
          = readValue file it.doc (view file.mem it.block) type
            (it.offsetInFile + elementHead) := by
      intro type
      rw [hcells, readValue_view, ← Nat.add_assoc, hpos]
    simp only [nextEl, hl0, hl nameK 1, hv]
  · rintro buf hbuf
    simp only [nextEl, Option.some.injEq] at hbuf
    subst hbuf
    refine ⟨start, ?_, hcells⟩
    show start + ((it.updateBuffer file).pos + _) = it.offsetInFile + _
    rw [← Nat.add_assoc, hpos]
  · show it.offsetInFile + (elementHead + typeSize _) = _
    rw [hl0]

theorem typeSize_code (v : StoredValue) : typeSize v.type.code = v.type.valueSize := by
  cases v <;> rfl

/-- The value that is read where a stored value lies. -/
theorem readValue_of_holds [TextCut] {file : ZgdbFile A} {doc : Document}
    {m : Mem Nat Obj} {d : Nat}
    {v : StoredValue} (h : HoldsValue m d v) :
    readValue file doc m v.type.code d = some (v.read file doc.header.firstToastIndex) := by
  cases v with
  | boolean v => exact congrArg (fun x => some (ElementValue.boolean x)) (load_of_holds h)
  | int v => exact congrArg (fun x => some (ElementValue.int x)) (load_of_holds h)
  | double v => exact congrArg (fun x => some (ElementValue.double x)) (load_of_holds h)
  | text first =>
    exact congrArg
      (fun x => some (ElementValue.text (readText file doc.header.firstToastIndex x)))
      (load_of_holds h)

/-- One step of the iteration over stored elements. -/
theorem nextEl_of_holds [TextCut] {file : ZgdbFile A} {it : ElementIterator A} (h : it.Window file)
    {e : StoredElement} (he : HoldsElement (view file.mem it.block) it.offsetInFile e)
    (reqData : Bool) :
    (nextEl file it reqData).1 =
      { type := e.value.type.code, key := e.key,
        value := if reqData then some (e.value.read file it.doc.header.firstToastIndex) else none,
        offsetInDocument := it.offsetInFile } ∧
    (nextEl file it reqData).2.Window file ∧
    (nextEl file it reqData).2.block = it.block ∧ (nextEl file it reqData).2.doc = it.doc ∧
    (nextEl file it reqData).2.offsetInFile = it.offsetInFile + e.size := by
  obtain ⟨h1, h2, h3, h4, h5⟩ := nextEl_eq h reqData
  rw [load_of_holds he.type] at h1 h5
  rw [load_of_holds he.key, readValue_of_holds he.value] at h1
  refine ⟨h1, h2, h3, h4, ?_⟩
  rw [h5, typeSize_code]
  rfl

theorem iterateEl_eq [TextCut] {file : ZgdbFile A} (reqData : Bool) : ∀ {es : List StoredElement}
    {it : ElementIterator A}, it.Window file →
    HoldsElements (view file.mem it.block) it.offsetInFile es →
    iterateEl file reqData es.length it
      = entriesOf file it.doc.header.firstToastIndex reqData it.offsetInFile es
  | [], _, _, _ => rfl
  | e :: es, it, hw, ⟨he, hes⟩ => by
    obtain ⟨h1, h2, h3, h4, h5⟩ := nextEl_of_holds hw he reqData
    have hes' : HoldsElements (view file.mem (nextEl file it reqData).2.block)
        (nextEl file it reqData).2.offsetInFile es := by rw [h3, h5]; exact hes
    have ih := iterateEl_eq reqData h2 hes'
    rw [h4, h5] at ih
    rw [List.length_cons, iterateEl, entriesOf, ← h1, ← ih]

/-- **The iterator returns the stored elements**, in order and with their displacements. -/
theorem elementEntries_eq [TextCut] {file : ZgdbFile A} {doc : Document} {es : List StoredElement}
    (hlen : doc.header.attrCount = es.length)
    (hes : HoldsElements (blockAt file doc.header.indexAttached) sizeofDocumentHeader es)
    (reqData : Bool) :
    elementEntries file doc reqData
      = entriesOf file doc.header.firstToastIndex reqData sizeofDocumentHeader es := by
  rw [elementEntries, hlen]
  have hw : (createElIterator file doc).Window file := fun _ h => by cases h
  exact iterateEl_eq reqData hw hes

/-- Entries that carry data depend on the file through the texts only. -/
theorem entriesOf_congr {file file' : ZgdbFile A} {t t' : Nat} {reqData : Bool} :
    ∀ {es : List StoredElement} {d : Nat},
    (∀ e ∈ es, ∀ f, e.value = .text f → readText file' t' f = readText file t f) →
    entriesOf file' t' reqData d es = entriesOf file t reqData d es
  | [], _, _ => rfl
  | e :: es, d, h => by
    have he : e.value.read file' t' = e.value.read file t := by
      cases hv : e.value with
      | text f => exact congrArg ElementValue.text (h e List.mem_cons_self f hv)
      | _ => rfl
    rw [entriesOf, entriesOf, he,
      entriesOf_congr fun x hx => h x (List.mem_cons_of_mem _ hx)]

end Read

end Zgdb
