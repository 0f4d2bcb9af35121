/-
# What `createDocument` writes for its elements

`writeElements` puts the elements behind the header of the new block and the characters of the
texts into the slots of the toast, one text after the other.  The elements then lie in the block
as `storeElements` says (`writeElements_spec`), and the chunks of the toast are a `Texts` in which
every chain spells its string (`Written.texts`, `Written.spells`).
-/
import Zgdb.Store

namespace Zgdb

open Zgdb.Lib AddrSpace

/-! ## 1. The stored form of a schema

The texts of a schema take the slots of the toast in the order of the elements: the first chunk of a
text is where the chunks of the texts before it end. -/

/-- The form an element is stored in when `used` slots of the toast are taken. -/
def storeElement (used : Nat) (e : Element) : StoredElement where
  key := e.key
  value :=
    match e.value with
    | .boolean v => .boolean v
    | .int v => .int v
    | .double v => .double v
    | .text t => .text { size := t.size, offsetInToast := used * chunkRecord }

def storeElements [TextCut] : Nat → List Element → List StoredElement
  | _, [] => []
  | used, e :: rest => storeElement used e :: storeElements (used + e.chunks) rest

/-- The chunks a list of elements takes in the toast. -/
def chunksOf [TextCut] (elements : List Element) : Nat := (elements.map Element.chunks).sum

@[simp] theorem chunksOf_nil [TextCut] : chunksOf [] = 0 := rfl
@[simp] theorem chunksOf_cons [TextCut] (e : Element) (es : List Element) :
    chunksOf (e :: es) = e.chunks + chunksOf es := by simp [chunksOf]

theorem chunksOf_eq_zero [TextCut] {elements : List Element}
    (h : ∀ e ∈ elements, e.value.type ≠ .text) : chunksOf elements = 0 := by
  induction elements with
  | nil => rfl
  | cons e rest ih =>
    rw [chunksOf_cons, ih fun x hx => h x (List.mem_cons_of_mem _ hx)]
    have he := h e List.mem_cons_self
    obtain ⟨key, v⟩ := e
    cases v with
    | text txt => exact absurd rfl he
    | _ => rfl

theorem storeElement_size (used : Nat) (e : Element) :
    (storeElement used e).size = getElementSize e := by
  obtain ⟨key, v⟩ := e
  cases v <;> rfl

theorem textsOf_eq_nil [TextCut] {used : Nat} {elements : List Element}
    (h : ∀ e ∈ elements, e.value.type ≠ .text) : textsOf (storeElements used elements) = [] := by
  induction elements generalizing used with
  | nil => rfl
  | cons e rest ih =>
    have he := h e List.mem_cons_self
    have hrest : textsOf (storeElements (used + e.chunks) rest) = [] :=
      ih fun x hx => h x (List.mem_cons_of_mem _ hx)
    obtain ⟨key, v⟩ := e
    cases v with
    | text txt => exact absurd rfl he
    | _ => exact hrest

theorem storeElements_size [TextCut] (used : Nat) (elements : List Element) :
    storedSize (storeElements used elements) = (elements.map getElementSize).sum := by
  induction elements generalizing used with
  | nil => rfl
  | cons e rest ih =>
    rw [storeElements, storedSize_cons, ih, storeElement_size, List.map_cons, List.sum_cons]

theorem storeElements_length [TextCut] (used : Nat) (elements : List Element) :
    (storeElements used elements).length = elements.length := by
  induction elements generalizing used with
  | nil => rfl
  | cons e rest ih => rw [storeElements, List.length_cons, ih, List.length_cons]

theorem storeElements_keys [TextCut] (used : Nat) (elements : List Element) :
    (storeElements used elements).map StoredElement.key = elements.map Element.key := by
  induction elements generalizing used with
  | nil => rfl
  | cons e rest ih => rw [storeElements, List.map_cons, ih, List.map_cons]; rfl

/-! ## 2. One element

An element is written in up to three places: in the block of the document, in the header of the
toast, and in the slots behind the used ones. -/

variable {A : Type} [BlockSpace A] {L : Layout A}

/-- The bytes that are written for elements of `n` bytes at `d` in block `k`, with `m` chunks from
slot `used` of toast `t`, which is in `own` if there are texts. -/
def elementBytes (k d n : Nat) (own : List Nat) (t used m : Nat) : Nat → Nat → Prop :=
  fun j x => Layout.span k d (d + n) j x ∨ j ∈ own ∧ (x < sizeofToast ∨ slotBytes t used m j x)

/-- The chunks of a text of `str` in the slots from `used` on. -/
def TextWritten [TextCut] (file : ZgdbFile A) (t used : Nat) (txt : Text) : Prop :=
  ∀ i < TextCut.chunks txt.size, chunkAt file (t, (used + i) * chunkRecord)
    = { data := overlay txt.data (0 + chunkSize * i)
          (if i + 1 = TextCut.chunks txt.size then TextCut.rem txt.size else chunkSize) clearedChunk
        nextOffset := if i + 1 = TextCut.chunks txt.size then 0 else (used + i + 1) * chunkRecord
        toastIndex := if i + 1 = TextCut.chunks txt.size then t else t }

section Write

variable {own : List Nat} {k t : Nat} {file : ZgdbFile A}

/-- The head of an element and a value of one object. -/
theorem holdsElement_store {α : Type} {K : Kind Obj α} {m : Mem Nat Obj} {d : Nat} {a : α}
    {e : StoredElement} (hv : ∀ m', Holds K m' (d + elementHead) a →
      HoldsValue m' (d + elementHead) e.value) :
    HoldsElement (store K (store nameK (store byteK m d e.value.type.code) (d + 1) e.key)
      (d + elementHead) a) d e where
  type := (holds_store.store_nat (Or.inl (Nat.le_refl _))).store_nat
    (Or.inl (by simp only [byteK, elementHead]; omega))
  key := holds_store.store_nat (Or.inl (by simp only [nameK, elementHead]; omega))
  value := hv _ holds_store

/-- Writing a value of one object changes the bytes of the element only. -/
theorem writes_element {α : Type} {K : Kind Obj α} (hk : L.mem k) {d n : Nat} (code : UInt8)
    (key : Name) (a : α) (hn : n = elementHead + K.size) (hd : d + n ≤ L.len k) :
    Writes L (Layout.span k d (d + n)) file
      (fwriteAt K (fwriteAt nameK (fwriteAt byteK file (L.pos k) d code) (L.pos k) (d + 1) key)
        (L.pos k) (d + elementHead) a) := by
  have hb : d + byteK.size ≤ L.len k := by simp only [byteK, elementHead] at hn ⊢; omega
  have hm : d + 1 + nameK.size ≤ L.len k := by simp only [nameK, elementHead] at hn ⊢; omega
  have hv : d + elementHead + K.size ≤ L.len k := by omega
  refine ((writes_fwriteAt hk hb).mono ?_).comp
    (((writes_fwriteAt hk hm).mono ?_).comp ((writes_fwriteAt hk hv).mono ?_)) <;>
  · rintro j x ⟨hj, h1, h2⟩
    refine ⟨hj, ?_, ?_⟩ <;>
    · simp only [byteK, nameK, elementHead, sizeofName] at h1 h2 hn ⊢
      omega

/-- The memory of a block after its element was written. -/
theorem block_element {α : Type} {K : Kind Obj α} (d : Nat) (code : UInt8) (key : Name) (a : α) :
    L.block (fwriteAt K (fwriteAt nameK (fwriteAt byteK file (L.pos k) d code)
      (L.pos k) (d + 1) key)
        (L.pos k) (d + elementHead) a).mem k
      = store K (store nameK (store byteK (L.block file.mem k) d code) (d + 1) key)
        (d + elementHead) a := by
  unfold fwriteAt
  rw [Layout.block_store, Layout.block_store, Layout.block_store]

/-- A toast header written in its place. -/
theorem Area.fwriteToast (h : Area L file own) {x : Nat} (hx : x ∈ own) (toast : Toast)
    (htype : toast.blockType = BlockType.toast.code) (hatt : toast.indexAttached = x)
    (hcap : sizeofToast ≤ toast.capacity) :
    Writes L (Layout.span x 0 sizeofToast) file (fwriteAt toastK file (blockPos file x) 0 toast) ∧
      IsToast (fwriteAt toastK file (blockPos file x) 0 toast) x ∧
      toastAt (fwriteAt toastK file (blockPos file x) 0 toast) x = toast := by
  have hsh := h.shows x hx
  have hw : Writes L (Layout.span x 0 sizeofToast) file
      (fwriteAt toastK file (blockPos file x) 0 toast) := by
    have hle : 0 + toastK.size ≤ L.len x := by rw [Nat.zero_add]; exact h.le_len x hx
    rw [← hsh.pos]
    exact (writes_fwriteAt hsh.mem hle).mono fun k d hd => by rwa [Nat.zero_add] at hd
  have hh : Holds toastK (blockAt (fwriteAt toastK file (blockPos file x) 0 toast) x) 0 toast := by
    rw [blockAt_fwriteAt]
    exact holds_store
  have hto := IsToast.of_holds hh htype hatt hcap
  exact ⟨hw, hto.1, hto.2.1⟩

/-- An area after its own toasts were written. -/
theorem Area.of_writes {W : Nat → Nat → Prop} (ha : Area L file own) (hw : Writes L W file file')
    (hto : ∀ t ∈ own, IsToast file' t) : Area L file' own :=
  ⟨fun t ht => hw.shows (ha.shows t ht), hto, ha.le_len⟩

/-- A toast header that is written leaves the other ones. -/
theorem Area.toastAt_header {file' : ZgdbFile A} {x y : Nat} (h : Area L file own)
    (hw : Writes L (Layout.span x 0 sizeofToast) file file') (hy : y ∈ own) (hyx : y ≠ x) :
    IsToast file' y ∧ toastAt file' y = toastAt file y :=
  h.toastAt_eq hw hy fun _ _ hd => hyx hd.1

/-- A toast header that is written leaves every chunk. -/
theorem Area.chunkAt_header {file' : ZgdbFile A} {x : Nat} {s : Slot} (h : Area L file own)
    (hw : Writes L (Layout.span x 0 sizeofToast) file file') (hs : SlotIn L own s) :
    chunkAt file' s = chunkAt file s := by
  refine h.chunkAt_eq hw hs ?_
  rintro d ⟨-, hd, -⟩ ⟨-, -, hlt⟩
  simp only [chunkStart] at hd
  omega

/-- An area whose toast `x` has a new header. -/
theorem Area.header {file' : ZgdbFile A} {x : Nat} (h : Area L file own)
    (hw : Writes L (Layout.span x 0 sizeofToast) file file') (hx : IsToast file' x) :
    Area L file' own := by
  refine h.of_writes hw ?_
  intro y hy
  by_cases hyx : y = x
  · exact hyx ▸ hx
  · exact (h.toastAt_header hw hy hyx).1

/-- The toasts of an area are as they were when something else is written. -/
theorem Area.toast_kept {W : Nat → Nat → Prop} {file' : ZgdbFile A} (h : Area L file own)
    (hw : Writes L W file file') (hW : ∀ x ∈ own, ∀ d < sizeofToast, ¬ W x d) {used : Nat}
    (hused : ∀ x ∈ own, (toastAt file x).used = used) (x : Nat) (hx : x ∈ own) :
    IsToast file' x ∧ toastAt file' x = { toastAt file x with used := used + 0 } := by
  have hto := h.toastAt_eq hw hx (hW x hx)
  refine ⟨hto.1, hto.2.trans ?_⟩
  rw [Nat.add_zero, ← hused x hx]

/-- **A value of one object written** as an element. -/
theorem writeScalar_spec {α : Type} {K : Kind Obj α} {d used : Nat} {a : α} {e : StoredElement}
    (hk : L.mem k) (hsize : e.size = elementHead + K.size) (hd : d + e.size ≤ L.len k)
    (h : Area L file own) (hkt : k ∉ own) (hused : ∀ x ∈ own, (toastAt file x).used = used)
    (hv : ∀ m', Holds K m' (d + elementHead) a → HoldsValue m' (d + elementHead) e.value)
    {file' : ZgdbFile A} (hf : file' = fwriteAt K (fwriteAt nameK (fwriteAt byteK file (L.pos k) d
      e.value.type.code) (L.pos k) (d + 1) e.key) (L.pos k) (d + elementHead) a) :
    Writes L (Layout.span k d (d + e.size)) file file' ∧
      HoldsElement (L.block file'.mem k) d e ∧
      ∀ x ∈ own, IsToast file' x ∧ toastAt file' x = { toastAt file x with used := used + 0 } := by
  have hw : Writes L (Layout.span k d (d + e.size)) file file' := by
    rw [hf]
    exact writes_element hk _ _ a hsize hd
  refine ⟨hw, ?_, h.toast_kept hw (fun x hx d hd hwx => hkt (hwx.1 ▸ hx)) hused⟩
  rw [hf, block_element]
  exact holdsElement_store hv

/-- **One element written**: it lies in the block, and the toast has its chunks. -/
theorem writeElement_spec [TextCut] {d used : Nat} (e : Element) (hk : L.mem k)
    (hd : d + getElementSize e ≤ L.len k) (h : Area L file own) (hkt : k ∉ own)
    (hused : ∀ x ∈ own, x = t ∧ (toastAt file x).used = used ∧
      sizeofToast + (used + e.chunks) * chunkRecord ≤ L.len x)
    (htext : e.value.type = .text → t ∈ own) :
    Writes L (elementBytes k d (getElementSize e) own t used e.chunks) file
        (writeElement file (L.pos k) d e t).1 ∧
      HoldsElement (L.block (writeElement file (L.pos k) d e t).1.mem k) d (storeElement used e) ∧
      (∀ x ∈ own, IsToast (writeElement file (L.pos k) d e t).1 x ∧
        toastAt (writeElement file (L.pos k) d e t).1 x
          = { toastAt file x with used := used + e.chunks }) ∧
      ∀ txt, e.value = .text txt →
        TextWritten (writeElement file (L.pos k) d e t).1 t used txt := by
  obtain ⟨key, v⟩ := e
  have hu : ∀ x ∈ own, (toastAt file x).used = used := fun x hx => (hused x hx).2.1
  have hscalar : ∀ {file' : ZgdbFile A},
      (Writes L (Layout.span k d (d + getElementSize ⟨key, v⟩)) file file' ∧
      HoldsElement (L.block file'.mem k) d (storeElement used ⟨key, v⟩) ∧
      ∀ x ∈ own, IsToast file' x ∧ toastAt file' x = { toastAt file x with used := used + 0 }) →
      (∀ txt, v ≠ .text txt) →
      Writes L (elementBytes k d (getElementSize ⟨key, v⟩) own t used 0) file file' ∧
      HoldsElement (L.block file'.mem k) d (storeElement used ⟨key, v⟩) ∧
      (∀ x ∈ own, IsToast file' x ∧ toastAt file' x = { toastAt file x with used := used + 0 }) ∧
      ∀ txt, v = .text txt → TextWritten file' t used txt := fun hs hne =>
    ⟨hs.1.mono fun j x hx => Or.inl hx, hs.2.1, hs.2.2, fun txt hv => absurd hv (hne txt)⟩
  cases v with
  | boolean v =>
    exact hscalar (writeScalar_spec (K := byteK) (e := storeElement used ⟨key, .boolean v⟩) hk rfl
      hd
      h hkt hu (fun _ hh => hh) rfl) (by simp)
  | int v =>
    exact hscalar (writeScalar_spec (K := intK) (e := storeElement used ⟨key, .int v⟩) hk rfl hd
      h hkt hu (fun _ hh => hh) rfl) (by simp)
  | double v =>
    exact hscalar (writeScalar_spec (K := doubleK) (e := storeElement used ⟨key, .double v⟩) hk rfl
      hd
      h hkt hu (fun _ hh => hh) rfl) (by simp)
  | text txt =>
    have ht : t ∈ own := htext rfl
    obtain ⟨-, hut, hfit⟩ := hused t ht
    -- the head of the element changes nothing of the toast
    have h2 : Writes L (Layout.span k d (d + getElementSize ⟨key, .text txt⟩)) file
        (fwriteAt nameK (fwriteAt byteK file (L.pos k) d ElementType.text.code) (L.pos k) (d + 1)
          key) := by
      have hb : d + byteK.size ≤ L.len k := by
        simp only [byteK, getElementSize, elementHead] at hd ⊢; omega
      have hm : d + 1 + nameK.size ≤ L.len k := by
        simp only [nameK, getElementSize, elementHead] at hd ⊢; omega
      refine ((writes_fwriteAt hk hb).mono ?_).comp ((writes_fwriteAt hk hm).mono ?_) <;>
      · rintro j x ⟨hj, h1, h2⟩
        refine ⟨hj, ?_, ?_⟩ <;>
        · simp only [byteK, nameK, elementHead, sizeofName, getElementSize] at h1 h2 ⊢
          omega
    have hto2 := (h.toastAt_eq h2 ht fun x _ hx => hkt (hx.1 ▸ ht)).2
    have hpos2 := h2.blockPos_eq t
    have hf : (writeElement file (L.pos k) d ⟨key, .text txt⟩ t).1 = fwriteAt toastK
        (writeChunks (fwriteAt firstTextChunkK (fwriteAt nameK (fwriteAt byteK file (L.pos k) d
            ElementType.text.code) (L.pos k) (d + 1) key) (L.pos k) (d + elementHead)
            { size := txt.size, offsetInToast := used * chunkRecord })
          (blockPos file t) used t txt.data 0 (TextCut.rem txt.size) t (TextCut.chunks txt.size))
        (blockPos file t) 0 { toastAt file t with used := used + TextCut.chunks txt.size } := by
      unfold toastAt at hto2 hut
      simp only [writeElement, writeValue, ElementValue.type, hpos2]
      rw [hpos2] at hto2
      rw [hto2, hut]
      rfl
    obtain ⟨file3, hf3⟩ : ∃ file3, file3 = fwriteAt firstTextChunkK (fwriteAt nameK (fwriteAt byteK
        file (L.pos k) d ElementType.text.code) (L.pos k) (d + 1) key) (L.pos k) (d + elementHead)
        { size := txt.size, offsetInToast := used * chunkRecord } := ⟨_, rfl⟩
    obtain ⟨hw3, hh3, -⟩ := writeScalar_spec (e := storeElement used ⟨key, .text txt⟩) hk rfl hd h
      hkt hu (fun _ hh => hh) hf3
    rw [← hf3] at hf
    have h3 : Area L file3 own := h.writes hw3 fun x hx d _ hwx => hkt (hwx.1 ▸ hx)
    -- the chunks
    obtain ⟨file4, hf4⟩ : ∃ file4, file4 = writeChunks file3 (blockPos file t) used t txt.data 0
      (TextCut.rem txt.size) t (TextCut.chunks txt.size) := ⟨_, rfl⟩
    have hchunks : Writes L (slotBytes t used (TextCut.chunks txt.size)) file3 file4 ∧
        TextWritten file4 t used txt := by
      rw [hf4]
      exact writeChunks_spec _ h3 ht hfit (hw3.blockPos_eq t).symm
    obtain ⟨hw4, hc4⟩ := hchunks
    rw [← hf4] at hf
    have h4 : Area L file4 own := h3.writes hw4 fun x _ d hd => not_slotBytes_header hd
    -- the counter
    have hpos4 : blockPos file4 t = blockPos file t := (hw4.blockPos_eq t).trans (hw3.blockPos_eq t)
    obtain ⟨hw5, hto5, hta5⟩ := h4.fwriteToast ht
      { toastAt file t with used := used + TextCut.chunks txt.size } (h.toast t ht).type
      (h.toast t ht).attached (h.toast t ht).le_capacity
    rw [hpos4, ← hf] at hw5 hto5 hta5
    generalize (writeElement file (L.pos k) d ⟨key, .text txt⟩ t).1 = file5 at hw5 hto5 hta5
    have hkt' : k ≠ t := fun he => hkt (he ▸ ht)
    have hsize : (storeElement used ⟨key, .text txt⟩).size = getElementSize ⟨key, .text txt⟩ :=
      storeElement_size used _
    refine ⟨(hw3.mono fun j x hx => Or.inl hx).comp
      ((hw4.mono fun j x hx => Or.inr ⟨hx.1 ▸ ht, Or.inr hx⟩).comp
        (hw5.mono fun j x hx => Or.inr ⟨hx.1 ▸ ht, Or.inl hx.2.2⟩)), ?_, ?_, ?_⟩
    · refine hh3.of_eqOn (Nat.le_refl d) (Nat.le_refl _) ?_
      intro x _ hx
      have hx' : x < L.len k := by omega
      rw [hw5.only k hk x hx' fun hwx => hkt' hwx.1, hw4.only k hk x hx' fun hwx => hkt' hwx.1]
    · intro x hx
      obtain rfl := (hused x hx).1
      exact ⟨hto5, hta5⟩
    · intro txt' htxt i hi
      cases htxt
      have hs : SlotIn L own (t, (used + i) * chunkRecord) :=
        slotIn_of_lt ht (by simp only [Element.chunks]; omega) hfit
      rw [h4.chunkAt_header hw5 hs, hc4 i hi]

/-! ## 3. All elements

The loop keeps what it has written before: the block grows behind it, and the slots of earlier texts
lie below the counter of the toast. -/

/-- The chunks of the texts of a schema, from slot `used` on. -/
def Written [TextCut] (file : ZgdbFile A) (t : Nat) : Nat → List Element → Prop
  | _, [] => True
  | used, e :: rest =>
    (∀ txt, e.value = .text txt → TextWritten file t used txt)
      ∧ Written file t (used + e.chunks) rest

theorem TextWritten.congr [TextCut] {file' : ZgdbFile A} {used : Nat} {txt : Text}
    (h : TextWritten file t used txt)
    (heq : ∀ i, i < used + TextCut.chunks txt.size →
      chunkAt file' (t, i * chunkRecord) = chunkAt file (t, i * chunkRecord)) :
    TextWritten file' t used txt := by
  intro i hi
  rw [heq _ (by omega), h i hi]

theorem Written.congr [TextCut] {file' : ZgdbFile A} {used : Nat} {elements : List Element}
    (h : Written file t used elements)
    (heq : ∀ i, i < used + chunksOf elements →
      chunkAt file' (t, i * chunkRecord) = chunkAt file (t, i * chunkRecord)) :
    Written file' t used elements := by
  induction elements generalizing used with
  | nil => trivial
  | cons e rest ih =>
    rw [chunksOf_cons] at heq
    refine ⟨fun txt htxt => (h.1 txt htxt).congr fun i hi => heq i ?_, ih h.2 fun i hi => heq i ?_⟩
    · have hc : e.chunks = TextCut.chunks txt.size := by rw [Element.chunks, htxt]
      omega
    · omega

/-- **All elements written**: they lie in the block, and the toast has their chunks. -/
theorem writeElements_spec [TextCut] (elements : List Element) {file : ZgdbFile A} {d used : Nat}
    (hk : L.mem k) (hd : d + (elements.map getElementSize).sum ≤ L.len k) (h : Area L file own)
    (hkt : k ∉ own)
    (hused : ∀ x ∈ own, x = t ∧ (toastAt file x).used = used ∧
      sizeofToast + (used + chunksOf elements) * chunkRecord ≤ L.len x)
    (htext : ∀ e ∈ elements, e.value.type = .text → t ∈ own) :
    Writes L (elementBytes k d (elements.map getElementSize).sum own t used (chunksOf elements))
      file
        (writeElements file (L.pos k) d t elements) ∧
      HoldsElements (L.block (writeElements file (L.pos k) d t elements).mem k) d
        (storeElements used elements) ∧
      (∀ x ∈ own, IsToast (writeElements file (L.pos k) d t elements) x ∧
        toastAt (writeElements file (L.pos k) d t elements) x
          = { toastAt file x with used := used + chunksOf elements }) ∧
      Written (writeElements file (L.pos k) d t elements) t used elements := by
  induction elements generalizing file d used with
  | nil =>
    refine ⟨Writes.refl, trivial, fun x hx => ⟨h.toast x hx, ?_⟩, trivial⟩
    obtain ⟨-, hu, -⟩ := hused x hx
    show toastAt file x = _
    rw [chunksOf_nil, Nat.add_zero, ← hu]
  | cons e rest ih =>
    rw [List.map_cons, List.sum_cons] at hd
    rw [chunksOf_cons] at hused
    have hd1 : d + getElementSize e ≤ L.len k := by omega
    have hused1 : ∀ x ∈ own, x = t ∧ (toastAt file x).used = used ∧
        sizeofToast + (used + e.chunks) * chunkRecord ≤ L.len x := by
      intro x hx
      obtain ⟨hxt, hu, hfit⟩ := hused x hx
      exact ⟨hxt, hu,
        le_trans (Nat.add_le_add_left (Nat.mul_le_mul_right _ (by omega)) _) hfit⟩
    obtain ⟨hw1, hh1, hto1, hwr1⟩ :=
      writeElement_spec e hk hd1 h hkt hused1 (htext e List.mem_cons_self)
    have hrec : writeElements file (L.pos k) d t (e :: rest)
        = writeElements (writeElement file (L.pos k) d e t).1 (L.pos k) (d + getElementSize e) t
          rest := rfl
    rw [hrec]
    generalize (writeElement file (L.pos k) d e t).1 = file1 at hw1 hh1 hto1 hwr1
    have h1 : Area L file1 own :=
      ⟨fun x hx => hw1.shows (h.shows x hx), fun x hx => (hto1 x hx).1, h.le_len⟩
    have hd2 : d + getElementSize e + (rest.map getElementSize).sum ≤ L.len k := by omega
    have hused2 : ∀ x ∈ own, x = t ∧ (toastAt file1 x).used = used + e.chunks ∧
        sizeofToast + (used + e.chunks + chunksOf rest) * chunkRecord ≤ L.len x := by
      intro x hx
      refine ⟨(hused x hx).1, by rw [(hto1 x hx).2], ?_⟩
      rw [Nat.add_assoc used]
      exact (hused x hx).2.2
    obtain ⟨hw2, hh2, hto2, hwr2⟩ :=
      ih hd2 h1 hused2 fun x hx => htext x (List.mem_cons_of_mem _ hx)
    generalize writeElements file1 (L.pos k) (d + getElementSize e) t rest
      = file2 at hw2 hh2 hto2 hwr2
    refine ⟨(hw1.mono ?_).comp (hw2.mono ?_), ⟨?_, ?_⟩, fun x hx => ⟨(hto2 x hx).1, ?_⟩, ?_, hwr2⟩
    · rintro j x (⟨hj, h1, h2⟩ | ⟨hj, hx | ⟨hjt, h1, h2⟩⟩)
      · exact Or.inl ⟨hj, h1, by rw [List.map_cons, List.sum_cons]; omega⟩
      · exact Or.inr ⟨hj, Or.inl hx⟩
      · refine Or.inr ⟨hj, Or.inr ⟨hjt, h1, lt_of_lt_of_le h2 ?_⟩⟩
        rw [chunksOf_cons]
        exact Nat.add_le_add_left (Nat.mul_le_mul_right _ (by omega)) _
    · rintro j x (⟨hj, h1, h2⟩ | ⟨hj, hx | ⟨hjt, h1, h2⟩⟩)
      · exact Or.inl ⟨hj, by omega, by rw [List.map_cons, List.sum_cons]; omega⟩
      · exact Or.inr ⟨hj, Or.inl hx⟩
      · refine Or.inr ⟨hj, Or.inr ⟨hjt, le_trans ?_ h1, ?_⟩⟩
        · exact Nat.add_le_add_left (Nat.mul_le_mul_right _ (by omega)) _
        · rwa [chunksOf_cons, ← Nat.add_assoc]
    · -- the rest lies behind the first element
      rw [← storeElement_size used] at hd
      refine hh1.of_eqOn (Nat.le_refl d) (Nat.le_refl _) ?_
      intro x _ hx
      refine hw2.only k hk x (by omega) ?_
      rintro (⟨-, h1, -⟩ | ⟨hj, -⟩)
      · rw [storeElement_size] at hx
        omega
      · exact hkt hj
    · rw [storeElement_size]
      exact hh2
    · rw [(hto2 x hx).2, (hto1 x hx).2, chunksOf_cons, Nat.add_assoc]
    · -- and takes later slots
      intro txt htxt
      have ht : t ∈ own := htext e List.mem_cons_self (by rw [htxt]; rfl)
      have hc : e.chunks = TextCut.chunks txt.size := by rw [Element.chunks, htxt]
      refine (hwr1 txt htxt).congr ?_
      intro i hi
      have hs : SlotIn L own (t, i * chunkRecord) :=
        slotIn_of_lt ht (by omega) (hused t ht).2.2
      refine h1.chunkAt_eq hw2 hs ?_
      intro x hx
      rintro (⟨hj, -, -⟩ | ⟨-, hx' | hx'⟩)
      · exact hkt (hj ▸ ht)
      · exact not_chunkBytes hx' hx
      · exact not_slotBytes (by omega) hx hx'

end Write

/-! ## 4. The texts that are there then

From the slots to the chains: the chunks of a text are linked in order, and chains of different
texts have different slots, as the slots were given out one after the other. -/

section Read

variable {file : ZgdbFile A} {t : Nat}

/-- The chain of a written text. -/
theorem TextWritten.chain {used : Nat} {txt : Text} (h : TextWritten file t used txt) :
    textPath file t { size := txt.size, offsetInToast := used * chunkRecord }
        = (List.range (chunkCount txt.size)).map (fun i => (t, (used + i) * chunkRecord)) ∧
      Spells txt.data (txt.size % chunkSize) (chunkCount txt.size) 0
        (Chain.read (chunkHeap file) (chunkCount txt.size) (t, used * chunkRecord)) :=
  fresh_chain h

/-- Every slot of the written texts leads to this toast. -/
theorem Written.stay {used : Nat} {elements : List Element} (h : Written file t used elements)
    {j : Nat} (hj : used ≤ j) (hlt : j < used + chunksOf elements) :
    (chunkAt file (t, j * chunkRecord)).toastIndex = t := by
  induction elements generalizing used with
  | nil => rw [chunksOf_nil] at hlt; omega
  | cons e rest ih =>
    rw [chunksOf_cons] at hlt
    by_cases hje : j < used + e.chunks
    · obtain ⟨key, v⟩ := e
      cases v with
      | text txt =>
        simp only [Element.chunks, natCut_chunks] at hje
        have hc := h.1 txt rfl (j - used) (by rw [natCut_chunks]; omega)
        rw [show used + (j - used) = j by omega] at hc
        rw [hc]
        exact ite_self t
      | _ => simp only [Element.chunks] at hje; omega
    · exact ih h.2 (by omega) (by omega)

/-- The slots of a text are those from `a` on, and lie between two bounds. -/
structure Placement (file : ZgdbFile A) (t lo hi : Nat) (f : FirstTextChunk) (a : Nat) : Prop where
  lo_le : lo ≤ a
  le_hi : a + chunkCount f.size ≤ hi
  path : textPath file t f
    = (List.range (chunkCount f.size)).map (fun i => (t, (a + i) * chunkRecord))

theorem chunkRecord_mul_inj {i j : Nat} : i * chunkRecord = j * chunkRecord ↔ i = j := by
  simp only [chunkRecord, sizeofTextChunk]
  omega

theorem Placement.mem_iff {lo hi a : Nat} {f : FirstTextChunk} (h : Placement file t lo hi f a)
    {x : Slot} : x ∈ textPath file t f ↔
      ∃ i < chunkCount f.size, x = (t, (a + i) * chunkRecord) := by
  rw [h.path, List.mem_map]
  simp only [List.mem_range, eq_comm]

theorem Placement.nodup {lo hi a : Nat} {f : FirstTextChunk} (h : Placement file t lo hi f a) :
    (textPath file t f).Nodup := by
  rw [h.path]
  refine List.Nodup.map ?_ List.nodup_range
  intro i j hij
  have := chunkRecord_mul_inj.mp (Prod.mk.inj hij).2
  omega

/-- **The texts are placed one after the other.** -/
theorem Written.placed {used : Nat} {elements : List Element} (h : Written file t used elements)
    (hok : ∀ e ∈ elements, e.TextOk) :
    (∀ f ∈ textsOf (storeElements used elements), 0 < f.size ∧
      ∃ a, Placement file t used (used + chunksOf elements) f a) ∧
    (textsOf (storeElements used elements)).Pairwise
      fun f g => ∀ x ∈ textPath file t f, x ∉ textPath file t g := by
  induction elements generalizing used with
  | nil => exact ⟨by simp [storeElements, textsOf], List.Pairwise.nil⟩
  | cons e rest ih =>
    obtain ⟨ih1, ih2⟩ := ih h.2 fun x hx => hok x (List.mem_cons_of_mem _ hx)
    have hup : ∀ f ∈ textsOf (storeElements (used + e.chunks) rest), 0 < f.size ∧
        ∃ a, Placement file t (used + e.chunks) (used + chunksOf (e :: rest)) f a := by
      rw [chunksOf_cons, ← Nat.add_assoc]
      exact ih1
    have hlow : ∀ f ∈ textsOf (storeElements (used + e.chunks) rest), 0 < f.size ∧
        ∃ a, Placement file t used (used + chunksOf (e :: rest)) f a := by
      intro f hf
      obtain ⟨h0, a, ha⟩ := hup f hf
      exact ⟨h0, a, le_trans (Nat.le_add_right _ _) ha.lo_le, ha.le_hi, ha.path⟩
    obtain ⟨key, v⟩ := e
    cases v with
    | text txt =>
      have hpl : Placement file t used (used + chunkCount txt.size)
          { size := txt.size, offsetInToast := used * chunkRecord } used :=
        ⟨Nat.le_refl _, Nat.le_refl _, (h.1 txt rfl).chain.1⟩
      have hcons : textsOf (storeElements used (⟨key, .text txt⟩ :: rest))
          = { size := txt.size, offsetInToast := used * chunkRecord }
            :: textsOf (storeElements (used + Element.chunks ⟨key, .text txt⟩) rest) := rfl
      rw [hcons]
      refine ⟨?_, List.pairwise_cons.mpr ⟨?_, ih2⟩⟩
      · intro f hf
        rcases List.mem_cons.mp hf with rfl | hf
        · refine ⟨?_, used, hpl.lo_le, le_trans hpl.le_hi ?_, hpl.path⟩
          · have := hok _ List.mem_cons_self txt rfl
            simp only [this]
            omega
          · rw [chunksOf_cons]
            simp only [Element.chunks, natCut_chunks]
            omega
        · exact hlow f hf
      · -- a later text starts behind this one
        intro g hg x hx hxg
        obtain ⟨-, a, ha⟩ := hup g hg
        obtain ⟨i, hi, rfl⟩ := hpl.mem_iff.mp hx
        obtain ⟨j, hj, he⟩ := ha.mem_iff.mp hxg
        have h1 := chunkRecord_mul_inj.mp (Prod.mk.inj he).2
        have h2 := ha.lo_le
        simp only [Element.chunks, natCut_chunks] at h2 hi
        omega
    | _ => exact ⟨hlow, ih2⟩

/-- **The chunks of a new toast are in order.** -/
theorem Written.texts {elements : List Element} (h : Written file t 0 elements)
    (hok : ∀ e ∈ elements, e.TextOk) (halive : Alive file t) (htoast : IsToast file t)
    (hused : (toastAt file t).used = chunksOf elements)
    (hfits : sizeofToast + chunksOf elements * chunkRecord ≤ (toastAt file t).capacity) :
    Texts file [t] t (textsOf (storeElements 0 elements)) := by
  obtain ⟨hpl, hdis⟩ := h.placed hok
  rw [Nat.zero_add] at hpl
  refine ⟨?_, ?_, ?_, Or.inl List.mem_cons_self, fun f hf => (hpl f hf).1, ?_, ?_, hdis, ?_⟩
  · intro x hx
    rw [List.mem_singleton.mp hx]
    exact halive
  · intro x hx
    rw [List.mem_singleton.mp hx]
    exact htoast
  · intro x hx
    rw [List.mem_singleton.mp hx, hused]
    exact hfits
  · intro f hf x hx
    obtain ⟨-, a, ha⟩ := hpl f hf
    obtain ⟨i, hi, rfl⟩ := ha.mem_iff.mp hx
    have := ha.le_hi
    exact ⟨List.mem_cons_self, a + i, by rw [hused]; omega, rfl⟩
  · intro f hf
    obtain ⟨-, a, ha⟩ := hpl f hf
    exact ha.nodup
  · intro _
    refine ⟨fun x hx => List.mem_singleton.mp hx, ?_⟩
    rintro ⟨x1, x2⟩ ⟨hm, j, hj, rfl⟩
    obtain rfl := List.mem_singleton.mp hm
    simp only [hused] at hj
    exact h.stay (Nat.zero_le j) (by omega)

/-- The content of a value that is a text. -/
def ElementValue.content : ElementValue → Option CString
  | text t => some t.data
  | _ => none

/-- An element no text of which fills its last chunk.  The size counts the terminator, so the
shortest text that is excluded has 31 characters. -/
def Element.NotFull (e : Element) : Prop := ∀ txt, e.value = .text txt → txt.size % chunkSize ≠ 0

instance (e : Element) : Decidable e.NotFull :=
  match h : e.value with
  | .text txt => decidable_of_iff (txt.size % chunkSize ≠ 0)
      ⟨fun hn t ht => by rw [h] at ht; cases ht; exact hn, fun hn => hn txt h⟩
  | .boolean _ | .int _ | .double _ => isTrue fun t ht => by rw [h] at ht; cases ht

/-- **What the written elements read**: the content that was written, except for a text that fills
its last chunk. -/
theorem Written.read {used : Nat} {elements : List Element} (h : Written file t used elements)
    (hok : ∀ e ∈ elements, e.TextOk)
    (hnamed : ∀ e ∈ elements, e.value.type = .text → Named file t) :
    List.Forall₂ (fun e s => StoredElement.key s = e.key ∧
      ((StoredValue.read file t (StoredElement.value s)).content = e.value.content ↔ e.NotFull))
      elements (storeElements used elements) := by
  induction elements generalizing used with
  | nil => exact List.Forall₂.nil
  | cons e rest ih =>
    refine List.Forall₂.cons ⟨rfl, ?_⟩ (ih h.2 (fun x hx => hok x (List.mem_cons_of_mem _ hx))
      fun x hx => hnamed x (List.mem_cons_of_mem _ hx))
    have hok' := hok e List.mem_cons_self
    have hnamed' := hnamed e List.mem_cons_self
    have hw := h.1
    obtain ⟨key, v⟩ := e
    cases v with
    | text txt =>
      obtain ⟨hpath, hspells⟩ := (hw txt rfl).chain
      have hsize : txt.size = txt.data.strlen + 1 := hok' txt rfl
      have ht : Named file t := hnamed' rfl
      have hn : ∀ x ∈ textPath file t { size := txt.size, offsetInToast := used * chunkRecord },
          Named file x.1 := by
        intro x hx
        rw [hpath] at hx
        obtain ⟨i, -, rfl⟩ := List.mem_map.mp hx
        exact ht
      constructor
      · rintro hread txt' htxt hfull
        cases htxt
        rw [hsize] at hspells hfull
        exact readText_full ht hn hsize hfull (by rw [hsize]; exact hspells) (Option.some.inj hread)
      · intro hnf
        have hne := hnf txt rfl
        rw [hsize] at hne
        have hread : readText file t { size := txt.size, offsetInToast := used * chunkRecord }
            = ⟨txt.size, txt.data⟩ :=
          readText_spelled ht hn (by rw [bumped, if_neg hne]; exact hsize)
            (by rw [← hsize]; exact hspells)
        exact congrArg (fun x => some (Text.data x)) hread
    | _ => exact ⟨fun _ txt' htxt => (by cases htxt), fun _ => rfl⟩

end Read

end Zgdb
