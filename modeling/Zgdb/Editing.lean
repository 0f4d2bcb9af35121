/-
# Text updates

What an update of a text changes is the text.  A clean update leaves every other element, of this
document and of the others, as it reads, and writes no document header (`Updated.othersKept`).  A
text that grows across toasts is to read back as it was set, and no block is to change but that of
the document, those of its toasts and the new one (`GrownProperly`).
-/
import Zgdb.Local
import Zgdb.Ownership

namespace Zgdb

open Zgdb.Lib AddrSpace

variable {A : Type} [BlockSpace A]

/-! ## 1. The element behind a key

What a reader sees of a text is the entry of its key in the list that the element iterator gives. -/

/-- The text that `nextEl` returns for a key. -/
def textOf (file : ZgdbFile A) (k : Nat) (key : CString) : Option CString :=
  ((entries file k).find? fun e => key.chars = e.key.chars).bind fun e =>
    e.value.bind ElementValue.content

section Store

variable {file file' : ZgdbFile A} {T : Forest Nat} {es : Nat → List StoredElement}
  {own : Nat → List Nat} {k : Nat} {key input : CString} {pre post : List StoredElement}
  {name : Name} {v v' : StoredValue} {f f' : FirstTextChunk} {own' : List Nat}

theorem Store.elementEntries_eq (hs : Store file T es own) (hk : k ∈ T.nodes) (reqData : Bool) :
    elementEntries file (documentAt file k 0) reqData
      = entriesOf file (getDocumentHeader file k).firstToastIndex reqData sizeofDocumentHeader
        (es k) :=
  (hs.local hk).elementEntries 0 reqData

/-- A key that has a stored text names a text element. -/
theorem Store.split_of_storedText (hs : Store file T es own) (hk : k ∈ T.nodes)
    (h : storedText file k key = some f) :
    ∃ pre name post, es k = pre ++ ⟨name, .text f⟩ :: post ∧ key.chars = name.chars :=
  (hs.local hk).split_of_storedText h

/-- What is read behind the key of a text. -/
theorem Store.textOf_eq (hs : Store file T es own) (hk : k ∈ T.nodes)
    (hes : es k = pre ++ ⟨name, .text f⟩ :: post) (hkey : key.chars = name.chars) :
    textOf file k key
      = some (readText file (getDocumentHeader file k).firstToastIndex f).data := by
  have hpre : ∀ x ∈ entriesOf file (getDocumentHeader file k).firstToastIndex true
      sizeofDocumentHeader pre, ¬ decide (key.chars = x.key.chars) = true := by
    intro x hx
    obtain ⟨e, he, hxe, -⟩ := key_of_mem_entriesOf hx
    rw [decide_eq_true_eq]
    intro hkx
    refine hs.key_ne hk hes e (List.mem_append_left _ he) ?_
    rw [← hxe, Name.mk.injEq, ← hkx, hkey]
  rw [textOf, entries, hs.elementEntries_eq hk, hes, entriesOf_append, List.find?_append,
    List.find?_eq_none.mpr hpre, Option.none_or, entriesOf, List.find?_cons_of_pos]
  · rfl
  · exact decide_eq_true hkey

/-! ## 2. What an edit leaves alone

An edit changes one value and chunks of one document.  All other entries read as before, in this
document since the chains are disjoint, in the others since their blocks and toasts have not
changed. -/

/-- Nothing but the element behind the key reads differently, and no header is written.  All other
elements of the document and all elements of the other documents read as before, in the same
order. -/
structure OthersKept (file file' : ZgdbFile A) (k : Nat) (key : CString) : Prop where
  headers : ∀ j, Live file j → getDocumentHeader file' j = getDocumentHeader file j
  documents : ∀ j, Live file j → j ≠ k → entries file' j = entries file j
  elements : (entries file' k).filter (fun e => key.chars ≠ e.key.chars)
    = (entries file k).filter fun e => key.chars ≠ e.key.chars

theorem Edited.othersKept (hs : Store file T es own) (hk : k ∈ T.nodes)
    (hes : es k = pre ++ ⟨name, v⟩ :: post) (hkey : key.chars = name.chars)
    (htype : v'.type = v.type) (h : Edited file file' T es own k pre name v' post own') :
    OthersKept file file' k key where
  headers j hj := h.headers j (hs.live_iff.mp hj)
  documents j hj := h.others j (hs.live_iff.mp hj)
  elements := by
    have hread : ∀ l, (∀ g ∈ textsOf l, g ∈ textsOf pre ++ textsOf post) → ∀ d,
        entriesOf file' (getDocumentHeader file k).firstToastIndex true d l
          = entriesOf file (getDocumentHeader file k).firstToastIndex true d l := fun l hl d =>
      entriesOf_congr fun e he g hg => (h.texts g (hl g (mem_textsOf.mpr ⟨e, he, hg⟩))).reads
    have hsize : (⟨name, v'⟩ : StoredElement).size = (⟨name, v⟩ : StoredElement).size := by
      rw [StoredElement.size, StoredElement.size, htype]
    rw [entries, entries, h.store.elementEntries_eq hk, hs.elementEntries_eq hk, h.headers k hk,
      Function.update_self, hes]
    simp only [entriesOf_append, entriesOf, List.filter_append, List.filter_cons, hkey, hsize,
      hread pre fun g hg => List.mem_append_left _ hg,
      hread post fun g hg => List.mem_append_right _ hg]
    simp

theorem OthersKept.refl (file : ZgdbFile A) (k : Nat) (key : CString) :
    OthersKept file file k key := ⟨fun _ _ => rfl, fun _ _ _ => rfl, rfl⟩

/-- **An update leaves the other elements alone.** -/
theorem Updated.othersKept (hs : Store file T es own) (hk : k ∈ T.nodes)
    (h : Updated file file' T es own k key input) : OthersKept file file' k key := by
  cases h with
  | absent _ hf => exact hf ▸ .refl file k key
  | scalar hes hkey _ htype h _ => exact h.othersKept hs hk hes hkey htype
  | within hes hkey _ h _ => exact h.edited.othersKept hs hk hes hkey (by rfl)
  | across hes hkey _ h _ => exact h.edited.othersKept hs hk hes hkey (by rfl)

end Store

/-! ## 3. Growth across toasts

What a caller expects of the branch that takes a new toast, in terms of entries and of bytes of
blocks. -/

/-- The block of `j` has the bytes it had. -/
def SameBytes (file file' : ZgdbFile A) (j : Nat) : Prop :=
  ∀ d < blockCapacity file j, cellByte (blockAt file' j d) = cellByte (blockAt file j d)

/-- What a growth across toasts is for: the text reads as the input, and no block is written but
that of the document, those of its toasts and a new one. -/
structure GrownProperly (file file' : ZgdbFile A) (k : Nat) (key input : CString) : Prop where
  reads : textOf file' k key = some input
  root : SameBytes file file' 0
  blocks : ∀ j, Used file j → j ≠ k → ¬ OnToastList file k j → ¬ Visits file k j →
    ¬ (Alive file' j ∧ ¬ Alive file j) → SameBytes file file' j

theorem Agrees.sameBytes {file file' : ZgdbFile A} {j : Nat}
    (h : Agrees file file' j (blockCapacity file j)) : SameBytes file file' j := by
  intro d hd
  rw [h d hd]

end Zgdb
