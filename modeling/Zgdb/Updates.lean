/-
# What an update does to the store

`updateElement` on any key of a live document, as one statement: nothing, a scalar set, a text
updated within the toasts of the document, or a text updated across toasts (`Updated`).  The
condition is on the text behind the key, as the code itself finds it (`storedText`).
-/
import Zgdb.Resize

namespace Zgdb

open Zgdb.Lib AddrSpace

variable {A : Type} [BlockSpace A]

/-! ## 1. The text of a key -/

/-- The `firstTextChunk` of the text with a key, found by iterating the document.  This is what the
conditions on an update are stated with, since a caller can find it in the file. -/
def storedText (file : ZgdbFile A) (k : Nat) (key : CString) : Option FirstTextChunk :=
  ((elementEntries file (documentAt file k 0) false).find?
      fun e => key.chars = e.key.chars ∧ e.type = ElementType.text.code).map fun e =>
    freadAt firstTextChunkK file (blockPos file k) (e.offsetInDocument + elementHead)

/-- What an update of a text relies on, as a condition on the store before it.

A text that grows has no stored size that is a multiple of `CHUNK_SIZE`: of such a text
`updateElement` counts one chunk more than it has, and follows the link behind the last one.  And a
growth that needs a new toast is safe: the chain of the text lies in the first toast, there is an
index for the new one, and clearing it does not run into another block.  Updates of other types, and
of a key that is not there, are clean in every store. -/
def UpdateClean (file : ZgdbFile A) (k : Nat) (key input : CString) : Prop :=
  ∀ f, storedText file k key = some f →
    (f.size < input.strlen + 1 → f.size % chunkSize ≠ 0) ∧
    (Crosses file (getDocumentHeader file k).firstToastIndex f (input.strlen + 1) →
      CrossSafe file (getDocumentHeader file k).firstToastIndex f (input.strlen + 1))

theorem entriesOf_append (file : ZgdbFile A) (first : Nat) (reqData : Bool) :
    ∀ (pre post : List StoredElement) (d : Nat), entriesOf file first reqData d (pre ++ post)
      = entriesOf file first reqData d pre
        ++ entriesOf file first reqData (d + storedSize pre) post
  | [], post, d => by simp [entriesOf]
  | e :: pre, post, d => by
    rw [List.cons_append, entriesOf, entriesOf, entriesOf_append, storedSize_cons, Nat.add_assoc]
    rfl

theorem key_of_mem_entriesOf {file : ZgdbFile A} {first : Nat} {reqData : Bool} {x : ElementEntry} :
    ∀ {es : List StoredElement} {d : Nat}, x ∈ entriesOf file first reqData d es →
      ∃ e ∈ es, x.key = e.key ∧ x.type = e.value.type.code
  | e :: es, d, h => by
    rcases List.mem_cons.mp h with rfl | h
    · exact ⟨e, List.mem_cons_self, rfl, rfl⟩
    · obtain ⟨y, hy, hxy⟩ := key_of_mem_entriesOf h
      exact ⟨y, List.mem_cons_of_mem _ hy, hxy⟩

/-- The text of a key is the first with that key. -/
theorem storedText_of_holds {file : ZgdbFile A} {k : Nat} {key : CString}
    {pre post : List StoredElement} {name : Name} {f : FirstTextChunk}
    (hatt : (getDocumentHeader file k).indexAttached = k)
    (hcount : (getDocumentHeader file k).attrCount = (pre ++ ⟨name, .text f⟩ :: post).length)
    (hholds : HoldsElements (blockAt file k) sizeofDocumentHeader (pre ++ ⟨name, .text f⟩ :: post))
    (hkey : key.chars = name.chars) (hne : ∀ e ∈ pre, e.key ≠ name) :
    storedText file k key = some f := by
  have hentries := elementEntries_documentAt hatt hcount hholds 0 false
  have hpre : ∀ x ∈ entriesOf file (getDocumentHeader file k).firstToastIndex false
      sizeofDocumentHeader pre,
      ¬ (decide (key.chars = x.key.chars ∧ x.type = ElementType.text.code)) = true := by
    intro x hx
    obtain ⟨e, he, hxe, -⟩ := key_of_mem_entriesOf hx
    rw [decide_eq_true_eq]
    rintro ⟨hkx, -⟩
    refine hne e he ?_
    rw [← hxe, Name.mk.injEq, ← hkx, hkey]
  have hread : freadAt firstTextChunkK file (blockPos file k)
      (sizeofDocumentHeader + storedSize pre + elementHead) = f := by
    rw [freadAt_eq]
    obtain ⟨-, ⟨-, -, hv⟩, -⟩ := holdsElements_append.mp hholds
    exact load_of_holds hv
  rw [storedText, hentries, entriesOf_append, List.find?_append, List.find?_eq_none.mpr hpre,
    Option.none_or, entriesOf, List.find?_cons_of_pos]
  · exact congrArg some hread
  · exact decide_eq_true ⟨hkey, rfl⟩

/-- The keys of the elements around one are other keys. -/
theorem other_keys {pre post : List StoredElement} {x : StoredElement}
    (h : ((pre ++ x :: post).map StoredElement.key).Nodup) : ∀ e ∈ pre ++ post, e.key ≠ x.key := by
  rw [List.map_append, List.map_cons, List.nodup_middle, List.nodup_cons] at h
  intro e he hx
  refine h.1 ?_
  rw [← List.map_append, ← hx]
  exact List.mem_map_of_mem he

section Spec

variable {strtod : CString → StrtodResult} {file file' : ZgdbFile A} {T : Forest Nat}
  {es : Nat → List StoredElement} {own : Nat → List Nat} {k : Nat} {key input : CString}

theorem Store.key_ne (hs : Store file T es own) (hk : k ∈ T.nodes) {pre post : List StoredElement}
    {name : Name} {v : StoredValue} (hes : es k = pre ++ ⟨name, v⟩ :: post) :
    ∀ e ∈ pre ++ post, e.key ≠ name := by
  have hkeys := (hs.doc k hk).keys
  rw [hes] at hkeys
  exact other_keys hkeys

/-- **The text of a key is found.** -/
theorem Store.storedText_eq (hs : Store file T es own) (hk : k ∈ T.nodes)
    {pre post : List StoredElement} {name : Name} {f : FirstTextChunk}
    (hes : es k = pre ++ ⟨name, .text f⟩ :: post) (hkey : key.chars = name.chars) :
    storedText file k key = some f := by
  have hcount := (hs.doc k hk).count
  have hholds := (hs.doc k hk).holds
  rw [hes] at hcount hholds
  exact storedText_of_holds (hs.attached hk) hcount hholds hkey fun e he =>
    hs.key_ne hk hes e (List.mem_append_left _ he)

/-- What an update makes of a sound store, whatever the key and the input: nothing, when the
document has no such key or the input is refused; one value of the same type; or one text, within
the toasts of the document or with a new one. -/
inductive Updated (file file' : ZgdbFile A) (T : Forest Nat) (es : Nat → List StoredElement)
    (own : Nat → List Nat) (k : Nat) (key input : CString) : Prop
  | absent (habsent : ∀ e ∈ es k, key.chars ≠ e.key.chars) (hf : file' = file)
  | scalar {pre post : List StoredElement} {name : Name} {v v' : StoredValue}
      (hes : es k = pre ++ ⟨name, v⟩ :: post) (hkey : key.chars = name.chars)
      (hv : v.type ≠ .text) (htype : v'.type = v.type)
      (h : Edited file file' T es own k pre name v' post (own k))
      (hto : ∀ t ∈ own k, (toastAt file' t).nextToastIndex = (toastAt file t).nextToastIndex)
  | within {pre post : List StoredElement} {name : Name} {f f' : FirstTextChunk}
      (hes : es k = pre ++ ⟨name, .text f⟩ :: post) (hkey : key.chars = name.chars)
      (hcross : ¬ Crosses file (getDocumentHeader file k).firstToastIndex f (input.strlen + 1))
      (h : TextUpdated file file' T es own k pre name f post input f' (own k))
      (hto : ∀ t ∈ own k, (toastAt file' t).nextToastIndex = (toastAt file t).nextToastIndex)
  | across {pre post : List StoredElement} {name : Name} {f f' : FirstTextChunk} {t : Nat}
      (hes : es k = pre ++ ⟨name, .text f⟩ :: post) (hkey : key.chars = name.chars)
      (hcross : Crosses file (getDocumentHeader file k).firstToastIndex f (input.strlen + 1))
      (h : TextUpdated file file' T es own k pre name f post input f' (t :: own k))
      (hto : Crossed file file' (own k) (getDocumentHeader file k).firstToastIndex t f')

/-- The element of a key, or none. -/
theorem element_cases (es : List StoredElement) (key : CString) :
    (∀ e ∈ es, key.chars ≠ e.key.chars) ∨
      ∃ pre name v post, es = pre ++ ⟨name, v⟩ :: post ∧ key.chars = name.chars := by
  by_cases h : ∃ e ∈ es, key.chars = e.key.chars
  · obtain ⟨⟨name, v⟩, he, hkey⟩ := h
    obtain ⟨pre, post, hsplit⟩ := List.append_of_mem he
    exact Or.inr ⟨pre, name, v, post, hsplit, hkey⟩
  · exact Or.inl fun e he hkey => h ⟨e, he, hkey⟩

/-- **`updateElement` on a live document** returns and keeps the store sound. -/
theorem updateElement_spec (hs : Store file T es own) (hk : k ∈ T.nodes) (p : Nat)
    (hclean : UpdateClean file k key input) :
    ∃ status file', updateElement strtod file (documentAt file k p) key input
      = some (status, file') ∧ Updated file file' T es own k key input := by
  rcases element_cases (es k) key with habsent | ⟨pre, name, v, post, hes, hkey⟩
  · obtain ⟨status, h⟩ : ∃ status, updateElement strtod file (documentAt file k p) key input
        = some (status, file) := updateElement_absent hs hk p habsent
    exact ⟨status, file, h, .absent habsent rfl⟩
  by_cases hv : v.type = .text
  · cases v with
    | text f =>
      obtain ⟨hgrow, hcross⟩ := hclean f (hs.storedText_eq hk hes hkey)
      rw [updateElement_text hs hk p hes hkey]
      by_cases hc : Crosses file (getDocumentHeader file k).firstToastIndex f (input.strlen + 1)
      · obtain ⟨file', f', t, hrun, h, hto⟩ :=
        updateText_across hs hk p hes (hgrow hc.1) hc (hcross hc)
        exact ⟨.updateOk, file', by rw [hrun]; rfl, .across hes hkey hc h hto⟩
      · obtain ⟨file', f', hrun, h, hto⟩ := updateText_within hs hk p hes hgrow hc
        exact ⟨.updateOk, file', by rw [hrun]; rfl, .within hes hkey hc h hto⟩
    | _ => cases hv
  · obtain ⟨status, file', v', hrun, htype, h, hto⟩ : ∃ status file' v',
        updateElement strtod file (documentAt file k p) key input = some (status, file') ∧ _ :=
      updateElement_scalar hs hk p hes hkey hv
    exact ⟨status, file', hrun, .scalar hes hkey hv htype h fun t ht => by rw [hto t ht]⟩

end Spec

end Zgdb
