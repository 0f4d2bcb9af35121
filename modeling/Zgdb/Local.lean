/-
# One document by itself

What `nextEl` and `updateElement` do to a document depends on its block and on its toasts, not on
the rest of the store.  Here the store is reduced to a layout: the block of the document and those
of the toasts lie apart, whatever else the file holds and however the free list looks.

`Local` is a document with its stored elements.  Its rules are the local ones of the store:
`updateElement` goes to the element of the key (`Local.updateElement_text`), and a value written
over another of its type is the only change of the document block (`Local.setValue`).
-/
import Zgdb.Updates

namespace Zgdb

open Zgdb.Lib AddrSpace

variable {A : Type} [BlockSpace A]

/-- The block of `k` is one of the layout and holds a document with the elements `es`.  Nothing is
said of any other block: an update that stays inside the document and its toasts can be followed in
such a piece of the file. -/
structure Local (L : Layout A) (file : ZgdbFile A) (k : Nat) (es : List StoredElement) : Prop where
  shows : Shows L file k
  isDocument : IsDocument file k
  count : (getDocumentHeader file k).attrCount = es.length
  size : (getDocumentHeader file k).size = sizeofDocumentHeader + storedSize es
  le_len : (getDocumentHeader file k).size ≤ L.len k
  holds : HoldsElements (blockAt file k) sizeofDocumentHeader es
  keys : (es.map StoredElement.key).Nodup

/-- A live document of a store. -/
theorem Store.local {file : ZgdbFile A} {T : Forest Nat} {es : Nat → List StoredElement}
    {own : Nat → List Nat} {k : Nat} (hs : Store file T es own) (hk : k ∈ T.nodes) :
    Local hs.blocks.layout file k (es k) := by
  have hD := hs.doc k hk
  have hdoc := hs.isDocument hk
  refine ⟨⟨Or.inl (hs.alive hk), rfl⟩, hdoc, hD.count, hD.size, ?_, hD.holds, hD.keys⟩
  show _ ≤ blockCapacity file k
  rw [hdoc.capacity]
  exact hdoc.size_le

/-- What a document holds is in its bytes. -/
theorem Local.unique {L : Layout A} {file : ZgdbFile A} {k : Nat} {es es' : List StoredElement}
    (h : Local L file k es) (h' : Local L file k es') : es = es' :=
  h.holds.unique h'.holds (h.count.symm.trans h'.count)

namespace Local

/-! ## 1. Reading

The element iterator gives an entry for each stored element.  Where the entry of a key stands does
not depend on the texts. -/

section Read

variable {L : Layout A} {file file' : ZgdbFile A} {k p : Nat} {es pre post : List StoredElement}
  {e : StoredElement} {name : Name} {v v' : StoredValue} {f : FirstTextChunk}

/-- The iterator returns the stored elements. -/
theorem elementEntries (h : Local L file k es) (p : Nat) (reqData : Bool) :
    elementEntries file (documentAt file k p) reqData
      = entriesOf file (getDocumentHeader file k).firstToastIndex reqData
        sizeofDocumentHeader es :=
  elementEntries_documentAt h.isDocument.attached h.count h.holds p reqData

theorem length_entriesOf (file : ZgdbFile A) (first : Nat) (reqData : Bool) :
    ∀ (es : List StoredElement) (d : Nat), (entriesOf file first reqData d es).length = es.length
  | [], _ => rfl
  | e :: es, d => by rw [entriesOf, List.length_cons, List.length_cons, length_entriesOf]

/-- The entry of one element. -/
theorem entry (h : Local L file k (pre ++ ⟨name, v⟩ :: post)) (p : Nat) :
    (Zgdb.elementEntries file (documentAt file k p) true)[pre.length]?
      = some { type := v.type.code, key := name,
               value := some (v.read file (getDocumentHeader file k).firstToastIndex),
               offsetInDocument := sizeofDocumentHeader + storedSize pre } := by
  rw [h.elementEntries, entriesOf_append, List.getElem?_append_right (by rw [length_entriesOf]),
    length_entriesOf, Nat.sub_self]
  rfl

/-- A text is stored where its value lies. -/
theorem holds_value (h : Local L file k (pre ++ ⟨name, v⟩ :: post)) :
    HoldsValue (blockAt file k) (valueAt pre) v := by
  obtain ⟨-, ⟨-, -, hv⟩, -⟩ := holdsElements_append.mp h.holds
  exact hv

theorem firstTextChunk (h : Local L file k (pre ++ ⟨name, .text f⟩ :: post)) :
    freadAt firstTextChunkK file (blockPos file k)
      (sizeofDocumentHeader + storedSize pre + elementHead) = f := by
  rw [freadAt_eq]
  exact load_of_holds h.holds_value

/-- A value lies in the block. -/
theorem value_le (h : Local L file k (pre ++ ⟨name, v⟩ :: post)) :
    valueAt pre + v.type.valueSize + storedSize post ≤ L.len k := by
  have hle := h.le_len
  rw [h.size, storedSize_value] at hle
  exact hle

theorem key_ne (h : Local L file k (pre ++ ⟨name, v⟩ :: post)) :
    ∀ x ∈ pre ++ post, x.key ≠ name := other_keys h.keys

/-- The text of a key is found. -/
theorem storedText_eq {key : CString} (h : Local L file k (pre ++ ⟨name, .text f⟩ :: post))
    (hkey : key.chars = name.chars) : storedText file k key = some f :=
  storedText_of_holds h.isDocument.attached h.count h.holds hkey fun x hx =>
    h.key_ne x (List.mem_append_left _ hx)

/-- A key that has a stored text names a text element. -/
theorem split_of_storedText {key : CString} (h : Local L file k es)
    (hf : storedText file k key = some f) :
    ∃ pre name post, es = pre ++ ⟨name, .text f⟩ :: post ∧ key.chars = name.chars := by
  obtain ⟨e, hfind, -⟩ := Option.map_eq_some_iff.mp hf
  have hkey := List.find?_some hfind
  have hmem := List.mem_of_find?_eq_some hfind
  rw [h.elementEntries] at hmem
  rw [decide_eq_true_eq] at hkey
  obtain ⟨x, hx, hex, htype⟩ := key_of_mem_entriesOf hmem
  have hxkey : key.chars = x.key.chars := hex ▸ hkey.1
  rcases element_cases es key with habsent | ⟨pre, name, v, post, rfl, hname⟩
  · exact absurd hxkey (habsent x hx)
  · have hxv : x = ⟨name, v⟩ := by
      by_contra hne
      have hx' : x ∈ pre ++ post := by
        rcases List.mem_append.mp hx with hx | hx
        · exact List.mem_append_left _ hx
        · exact List.mem_append_right _ ((List.mem_cons.mp hx).resolve_left hne)
      refine h.key_ne x hx' ?_
      rw [Name.mk.injEq, ← hxkey, hname]
    rw [hkey.2, hxv] at htype
    cases v with
    | text g =>
      obtain rfl := Option.some.inj ((h.storedText_eq hname).symm.trans hf)
      exact ⟨pre, name, post, rfl, hname⟩
    | _ => exact absurd htype (by simp only [StoredValue.type]; decide)

end Read

/-! ## 2. Updating

The place of a value is known from the elements before it, and what is written there is seen by the
iterator at that element only. -/

section Update

variable {strtod : CString → StrtodResult} {L : Layout A} {W : Nat → Nat → Prop}
  {file file1 file' : ZgdbFile A} {k : Nat} {key input : CString}
  {pre post : List StoredElement} {name : Name} {v v' : StoredValue} {f : FirstTextChunk}

/-- **An update of a text** is that of the element of its key. -/
theorem updateElement_text (h : Local L file k (pre ++ ⟨name, .text f⟩ :: post))
    (hkey : key.chars = name.chars) (p : Nat) :
    updateElement strtod file (documentAt file k p) key input
      = (updateText file (blockPos file k) (documentAt file k p)
          (sizeofDocumentHeader + storedSize pre) input).map fun file => (.updateOk, file) := by
  have hatt : (documentAt file k p).header.indexAttached = k := h.isDocument.attached
  rw [updateElement_of_holds h.count (by rw [hatt]; exact h.holds) hkey
    (fun x hx => h.key_ne x (List.mem_append_left _ hx)), hatt]
  exact updateFound_text _ _

/-- **A value set**: the block is left alone, then the value is written over another of its
type. -/
theorem setValue (h : Local L file k (pre ++ ⟨name, v⟩ :: post)) (htype : v'.type = v.type)
    (hw : Writes L W file file1) (hW : ∀ d, ¬ W k d)
    (hw2 : Writes L (Layout.span k (valueAt pre) (valueAt pre + v.type.valueSize)) file1 file')
    (hnew : HoldsValue (blockAt file' k) (valueAt pre) v') :
    Local L file' k (pre ++ ⟨name, v'⟩ :: post) ∧
      getDocumentHeader file' k = getDocumentHeader file k := by
  have hle := h.le_len
  have hkd : ∀ d < L.len k, d < valueAt pre ∨ valueAt pre + v.type.valueSize ≤ d →
      blockAt file' k d = blockAt file k d := by
    intro d hd hout
    rw [hw2.blockAt_eq (hw.shows h.shows) hd, hw.blockAt_eq h.shows hd (hW d)]
    rintro ⟨-, h1, h2⟩
    omega
  have hat : sizeofDocumentHeader ≤ valueAt pre := by
    unfold valueAt
    omega
  obtain ⟨hdoc, hhdr, -⟩ := h.isDocument.of_eqOn fun d hd => hkd d
    (Nat.lt_of_lt_of_le hd (h.isDocument.le_size.trans hle)) (Or.inl (Nat.lt_of_lt_of_le hd hat))
  refine ⟨⟨hw2.shows (hw.shows h.shows), hdoc, ?_, ?_, by rw [hhdr]; exact hle, ?_, ?_⟩, hhdr⟩
  · rw [hhdr, h.count, List.length_append, List.length_append]
    rfl
  · rw [hhdr, h.size, storedSize_value, storedSize_value, htype]
  · exact holdsElements_value h.holds h.value_le htype hnew hkd
  · have hkeys := h.keys
    rw [List.map_append, List.map_cons] at hkeys ⊢
    exact hkeys

/-- **A text set**: the block is left alone, then the `firstTextChunk` is written over another. -/
theorem setText {f' : FirstTextChunk} (h : Local L file k (pre ++ ⟨name, .text f⟩ :: post))
    (hw : Writes L W file file1) (hW : ∀ d, ¬ W k d)
    (hf : file' = fwriteAt firstTextChunkK file1 (blockPos file k) (valueAt pre) f') :
    Writes L (Layout.span k (valueAt pre) (valueAt pre + firstTextChunkK.size)) file1 file' ∧
      Local L file' k (pre ++ ⟨name, .text f'⟩ :: post) ∧
      getDocumentHeader file' k = getDocumentHeader file k := by
  have hw2 : Writes L (Layout.span k (valueAt pre) (valueAt pre + firstTextChunkK.size))
      file1 file' := by
    rw [hf, ← h.shows.pos]
    exact writes_fwriteAt h.shows.mem ((Nat.le_add_right _ _).trans h.value_le)
  have hnew : HoldsValue (blockAt file' k) (valueAt pre) (.text f') := by
    rw [hf, ← hw.blockPos_eq k, blockAt_fwriteAt]
    exact holds_store
  exact ⟨hw2, h.setValue rfl hw hW hw2 hnew⟩

end Update

end Local

/-! ## 3. Toasts beside the document

The chunks of a text are looked for in the toasts only, so a write to the document block does not
change what it reads. -/

section Beside

variable {L : Layout A} {file file' : ZgdbFile A} {own : List Nat} {first k : Nat}
  {f : FirstTextChunk}

/-- Writing to another block leaves the toasts alone. -/
theorem Area.beside (h : Area L file own) (hk : k ∉ own) {lo hi : Nat}
    (hw : Writes L (Layout.span k lo hi) file file') :
    Area L file' own ∧ (∀ t ∈ own, toastAt file' t = toastAt file t) ∧
      ∀ x, SlotIn L own x → chunkAt file' x = chunkAt file x := by
  have hout : ∀ t ∈ own, ∀ d, ¬ Layout.span k lo hi t d := by
    rintro t ht d ⟨he, -⟩
    exact hk (he ▸ ht)
  exact ⟨h.writes hw fun t ht d _ => hout t ht d,
    fun t ht => (h.toastAt_eq hw ht fun d _ => hout t ht d).2,
    fun x hx => h.chunkAt_eq hw hx fun d _ => hout x.1 hx.mem d⟩

/-- A text depends on the chunks of its chain only. -/
theorem textPath_congr (heq : ∀ x ∈ textPath file first f, chunkAt file' x = chunkAt file x) :
    textPath file' first f = textPath file first f :=
  Chain.path_congr_on fun x hx => congrArg Link.next (chunkHeap_congr (heq x hx))

theorem readText_congr (ha : Area L file own) (ha' : Area L file' own) (hfirst : first ∈ own)
    (hin : ∀ x ∈ textPath file first f, SlotIn L own x)
    (heq : ∀ x ∈ textPath file first f, chunkAt file' x = chunkAt file x) :
    readText file' first f = readText file first f := by
  have hpath := textPath_congr heq
  rw [readText_eq (ha.named hfirst) fun x hx => ha.named (hin x hx).mem,
    readText_eq (ha'.named hfirst) fun x hx => ha'.named (hin x (hpath ▸ hx)).mem,
    Chain.read_congr fun x hx => chunkHeap_congr (heq x hx)]

end Beside

end Zgdb
