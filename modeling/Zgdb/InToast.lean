/-
# Text updates that make no new toast

A document as `createDocument` leaves it lies in two blocks, its own and that of its toast.  While
every growth of a text finds enough slots in the toast, `updateElement` writes to these two blocks
only: the chains of the texts stay disjoint and below `used`, and no stored size is ever a multiple
of `CHUNK_SIZE`, because a new size that is one is raised (`Editable.update`).  So after any number
of such calls every text reads as it was last written (`edits_in_first_toast`).

Nothing is assumed about what the other blocks hold; the two blocks only have to lie apart.  They
need not when the root has been deleted before: its last deletion can leave an index in the free
list twice, and the new document is then its own toast (`edits_overrun_toast`).
-/
import Zgdb.Crossing
import Zgdb.Twice

namespace Zgdb

open Zgdb.Lib AddrSpace

variable {A : Type} [BlockSpace A]

/-! ## 1. A document whose texts can be updated

The invariant of a document that is edited in its first toast.  No stored size is a multiple of
`CHUNK_SIZE`, and an update keeps this up. -/

/-- A document and its toasts under a layout, and no text that fills its last chunk.  The layout may
leave out everything else, so what follows holds in any store around the document, sound or not. -/
structure Editable (L : Layout A) (file : ZgdbFile A) (k : Nat) (es : List StoredElement)
    (own : List Nat) : Prop extends Local L file k es where
  toasts : ∀ t ∈ own, Shows L file t ∧ (toastAt file t).capacity ≤ L.len t
  texts : Texts file own (getDocumentHeader file k).firstToastIndex (textsOf es)
  notFull : ∀ f ∈ textsOf es, f.size % chunkSize ≠ 0

section Step

variable {strtod : CString → StrtodResult} {L : Layout A} {file : ZgdbFile A} {k : Nat}
  {es pre post : List StoredElement} {own : List Nat} {name : Name} {f : FirstTextChunk}
  {key input : CString}

theorem Editable.area (h : Editable L file k es own) : Area L file own where
  shows t ht := (h.toasts t ht).1
  toast := h.texts.toast
  le_len t ht := (h.texts.toast t ht).header_le.trans (by
    rw [(h.texts.toast t ht).capacity]
    exact (h.toasts t ht).2)

theorem Editable.notMem (h : Editable L file k es own) : k ∉ own := fun hk =>
  h.isDocument.not_isToast (h.texts.toast k hk)

/-- What an update of one text leaves: the text `f'` in its place, which reads as the input, and the
other texts as they were.  The document is editable again, which carries the result over runs of
updates. -/
structure TextSet (L : Layout A) (file file' : ZgdbFile A) (k : Nat) (pre : List StoredElement)
    (name : Name) (post : List StoredElement) (own : List Nat) (input : CString)
    (f' : FirstTextChunk) : Prop where
  editable : Editable L file' k (pre ++ ⟨name, .text f'⟩ :: post) own
  header : getDocumentHeader file' k = getDocumentHeader file k
  writes : Writes L (fun j _ => j = k ∨ j ∈ own) file file'
  reads : readText file' (getDocumentHeader file k).firstToastIndex f' = ⟨f'.size, input⟩
  kept : ∀ g ∈ textsOf pre ++ textsOf post,
    TextKept file file' (getDocumentHeader file k).firstToastIndex g

/-- **An update that makes no new toast** keeps the document editable. -/
theorem Editable.update (h : Editable L file k (pre ++ ⟨name, .text f⟩ :: post) own)
    (hkey : key.chars = name.chars)
    (hcross : ¬ Crosses file (getDocumentHeader file k).firstToastIndex f (input.strlen + 1))
    (p : Nat) :
    ∃ file' f', updateElement strtod file (documentAt file k p) key input
        = some (.updateOk, file') ∧ TextSet L file file' k pre name post own input f' := by
  obtain ⟨first, hfirst⟩ : ∃ first, first = (getDocumentHeader file k).firstToastIndex := ⟨_, rfl⟩
  have htexts := h.texts
  rw [← hfirst] at hcross htexts
  rw [textsOf_append_cons, textsOf_text] at htexts
  have hfm : f ∈ textsOf pre ++ f :: textsOf post := List.mem_append_right _ List.mem_cons_self
  have hmod : f.size % chunkSize ≠ 0 := by
    refine h.notFull f ?_
    rw [textsOf_append_cons, textsOf_text]
    exact hfm
  obtain ⟨file1, f', hrun, -, hsize, hr, -⟩ := updateText_rewrites htexts h.area
    (fun t ht => (h.toasts t ht).2) h.shows h.notMem h.holds_value
    ((Nat.le_add_right _ _).trans h.value_le) (show (documentAt file k p).header.firstToastIndex
      = first from hfirst.symm) (fun _ => hmod) hcross
  obtain ⟨file', hfile'⟩ : ∃ file', file' = fwriteAt firstTextChunkK file1 (blockPos file k)
      (valueAt pre) f' := ⟨_, rfl⟩
  obtain ⟨hw2, hlocal, hhdr⟩ := h.setText hr.writes (fun _ => h.notMem) hfile'
  have hsize' : f'.size = bumped (input.strlen + 1) := by
    rw [hsize]
    by_cases he : input.strlen + 1 = f.size
    · rw [if_pos he, bumped, if_neg (by rwa [he]), he]
    · rw [if_neg he]
  -- the toasts are not written with the document block
  have hagree : ∀ t ∈ own, Agrees file1 file' t (toastAt file1 t).capacity := by
    intro t ht d hd
    rw [hr.capacity t ht] at hd
    have hsh := (h.toasts t ht)
    refine hw2.blockAt_eq (hr.writes.shows hsh.1) (Nat.lt_of_lt_of_le hd hsh.2) ?_
    rintro ⟨rfl, -⟩
    exact h.notMem ht
  obtain ⟨htexts', hkept⟩ := hr.texts.frame
    (fun t ht => hw2.alive_iff.mpr (hr.texts.alive t ht)) hagree
  have hfm' : f' ∈ textsOf pre ++ f' :: textsOf post := List.mem_append_right _ List.mem_cons_self
  have hes' : textsOf (pre ++ ⟨name, .text f'⟩ :: post) = textsOf pre ++ f' :: textsOf post := by
    rw [textsOf_append_cons, textsOf_text]
  refine ⟨file', f', ?_, ⟨hlocal, fun t ht => ⟨?_, ?_⟩, ?_, ?_⟩, hhdr, ?_, ?_, ?_⟩
  · rw [h.updateElement_text hkey, hfile']
    exact congrArg (Option.map fun file => (UpdateElementStatus.updateOk, file)) hrun
  · exact hw2.shows (hr.writes.shows (h.toasts t ht).1)
  · rw [(hr.texts.toast_frame hagree ht).2, hr.capacity t ht]
    exact (h.toasts t ht).2
  · rw [hhdr, ← hfirst, hes']
    exact htexts'
  · intro g hg
    rw [hes'] at hg
    rcases List.mem_append.mp hg with hg | hg
    · refine h.notFull g ?_
      rw [textsOf_append_cons, textsOf_text]
      exact List.mem_append_left _ hg
    · rcases List.mem_cons.mp hg with rfl | hg
      · rw [hsize']
        exact bumped_mod _
      · refine h.notFull g ?_
        rw [textsOf_append_cons, textsOf_text]
        exact List.mem_append_right _ (List.mem_cons_of_mem _ hg)
  · refine (hr.writes.mono fun _ _ => Or.inr).comp (hw2.mono fun j d hd => Or.inl hd.1)
  · rw [← hfirst, (hkept f' hfm').reads]
    exact readText_spelled (hr.texts.named (hr.texts.first_of_mem hfm'))
      (fun x hx => hr.texts.named (hr.texts.inUse f' hfm' x hx).mem) hsize' hr.spells
  · intro g hg
    rw [← hfirst]
    refine (hr.reads g hg).trans (hkept g ?_)
    rcases List.mem_append.mp hg with hg | hg
    · exact List.mem_append_left _ hg
    · exact List.mem_append_right _ (List.mem_cons_of_mem _ hg)

end Step

/-! ## 2. What the texts read

The texts of a document, each with its key; an update of one key replaces its text and no other. -/

/-- The texts among stored elements, each with its key. -/
def contents (file : ZgdbFile A) (first : Nat) (es : List StoredElement) : List (Name × CString) :=
  es.filterMap fun e => (e.value.read file first).content.map (e.key, ·)

/-- A call of `updateElement` on a document. -/
structure Edit where
  key : CString
  input : CString

/-- A text after some calls: what was last written to it. -/
def lastWritten (edits : List Edit) (text : Name × CString) : Name × CString :=
  (text.1,
    ((edits.filter fun e => e.key.chars = text.1.chars).getLast?.map Edit.input).getD text.2)

theorem lastWritten_snoc (edits : List Edit) (e : Edit) (text : Name × CString) :
    lastWritten (edits ++ [e]) text
      = if e.key.chars = text.1.chars then (text.1, e.input) else lastWritten edits text := by
  by_cases h : e.key.chars = text.1.chars
  · simp [lastWritten, h]
  · simp [lastWritten, h]

section Read

variable {L : Layout A} {file file' : ZgdbFile A} {k first : Nat} {es pre post : List StoredElement}
  {own : List Nat} {name : Name} {f f' : FirstTextChunk} {key input : CString}

theorem key_of_mem_contents {text : Name × CString} (h : text ∈ contents file first es) :
    ∃ e ∈ es, e.key = text.1 := by
  obtain ⟨e, he, hread⟩ := List.mem_filterMap.mp h
  obtain ⟨c, -, rfl⟩ := Option.map_eq_some_iff.mp hread
  exact ⟨e, he, rfl⟩

theorem contents_congr (h : ∀ g ∈ textsOf es, readText file' first g = readText file first g) :
    contents file' first es = contents file first es := by
  refine List.filterMap_congr ?_
  intro e he
  obtain ⟨key, v⟩ := e
  cases v with
  | text g =>
    have hread := h g (mem_textsOf.mpr ⟨_, he, rfl⟩)
    simp only [StoredValue.read, hread]
  | _ => rfl

theorem contents_split : contents file first (pre ++ ⟨name, .text f⟩ :: post)
    = contents file first pre ++ (name, (readText file first f).data)
      :: contents file first post := by
  rw [contents, List.filterMap_append, List.filterMap_cons]
  rfl

/-- The iterator returns the texts. -/
theorem Local.textsRead (h : Local L file k es) :
    textsRead file k = contents file (getDocumentHeader file k).firstToastIndex es := by
  rw [Zgdb.textsRead, entries, h.elementEntries]
  generalize sizeofDocumentHeader = d
  clear h
  induction es generalizing d with
  | nil => rfl
  | cons e es ih =>
    rw [contents, entriesOf, List.filterMap_cons, List.filterMap_cons, ih]
    rfl

/-- **One text reads differently**, and it reads as the input. -/
theorem TextSet.textsRead (h : Editable L file k (pre ++ ⟨name, .text f⟩ :: post) own)
    (hkey : key.chars = name.chars) (hset : TextSet L file file' k pre name post own input f') :
    textsRead file' k
      = (textsRead file k).map fun t => if key.chars = t.1.chars then (t.1, input) else t := by
  obtain ⟨first, hfirst⟩ : ∃ first, first = (getDocumentHeader file k).firstToastIndex := ⟨_, rfl⟩
  have hkept := hset.kept
  have hreads := hset.reads
  rw [← hfirst] at hkept hreads
  -- the keys of the other elements are other keys
  have hother : ∀ es, (∀ e ∈ es, e.key ≠ name) → (contents file first es).map
      (fun t => if key.chars = t.1.chars then (t.1, input) else t) = contents file first es := by
    intro es hne
    refine (List.map_congr_left ?_).trans (List.map_id _)
    intro t ht
    obtain ⟨e, he, hek⟩ := key_of_mem_contents ht
    refine if_neg fun hc => hne e he ?_
    rw [hek, Name.mk.injEq, ← hc, hkey]
  rw [hset.editable.textsRead, h.textsRead, hset.header, ← hfirst, contents_split, contents_split,
    contents_congr fun g hg => (hkept g (List.mem_append_left _ hg)).reads,
    contents_congr fun g hg => (hkept g (List.mem_append_right _ hg)).reads, hreads,
    List.map_append, List.map_cons, hother pre fun e he => h.key_ne e (List.mem_append_left _ he),
    hother post fun e he => h.key_ne e (List.mem_append_right _ he), if_pos hkey]

end Read

/-! ## 3. Many calls

A run of updates that stay in the first toast is followed with the text that was last written to
each key. -/

/-- One call on the document as it is stored. -/
def Edit.exec (strtod : CString → StrtodResult) (k : Nat) (file : ZgdbFile A) (e : Edit) :
    Option (ZgdbFile A) :=
  (updateElement strtod file (documentAt file k 0) e.key e.input).map Prod.snd

/-- The key is that of a text, and when the text needs more chunks than it has, the toast has as
many left (`left >= req`).  This is asked of each call where it is made: an update before it can
have taken the slots. -/
def Edit.Stays (k : Nat) (file : ZgdbFile A) (e : Edit) : Prop :=
  ∃ f, storedText file k e.key = some f ∧
    ¬ Crosses file (getDocumentHeader file k).firstToastIndex f (e.input.strlen + 1)

section Runs

variable {strtod : CString → StrtodResult} {L : Layout A} {file file' : ZgdbFile A} {k : Nat}
  {es : List StoredElement} {own : List Nat} {edits : List Edit}

/-- What some calls have left of a document: the texts as they were last written, and everything
outside its blocks as it was. -/
structure Rewrote (L : Layout A) (file file' : ZgdbFile A) (k : Nat) (own : List Nat)
    (edits : List Edit) : Prop where
  editable : ∃ es, Editable L file' k es own
  header : getDocumentHeader file' k = getDocumentHeader file k
  writes : Writes L (fun j _ => j = k ∨ j ∈ own) file file'
  reads : textsRead file' k = (textsRead file k).map (lastWritten edits)

theorem Editable.rewrote (h : Editable L file k es own) : Rewrote L file file k own [] where
  editable := ⟨es, h⟩
  header := rfl
  writes := .refl
  reads := (List.map_id _).symm

/-- **One more call**: it returns, and writes one text. -/
theorem Rewrote.snoc (h : Rewrote L file file' k own edits) {e : Edit} (hst : e.Stays k file') :
    ∃ file'', updateElement strtod file' (documentAt file' k 0) e.key e.input
        = some (.updateOk, file'') ∧ Rewrote L file file'' k own (edits ++ [e]) := by
  obtain ⟨es, hed⟩ := h.editable
  obtain ⟨f, hf, hcross⟩ := hst
  obtain ⟨pre, name, post, rfl, hkey⟩ := hed.split_of_storedText hf
  obtain ⟨file'', f', hrun, hset⟩ : ∃ file'' f', updateElement strtod file' (documentAt file' k 0)
      e.key e.input = some (.updateOk, file'') ∧ _ := hed.update hkey hcross 0
  refine ⟨file'', hrun, ⟨_, hset.editable⟩, hset.header.trans h.header,
    h.writes.comp hset.writes, ?_⟩
  rw [hset.textsRead hed hkey, h.reads, List.map_map]
  refine List.map_congr_left ?_
  intro t _
  rw [lastWritten_snoc]
  rfl

/-- **Any number of calls.** -/
theorem Editable.run (h : Editable L file k es own)
    (hrun : Run (Edit.exec strtod k) (fun file e => e.Stays k file) file edits file') :
    Rewrote L file file' k own edits := by
  induction hrun with
  | nil => exact h.rewrote
  | @snoc file1 file2 edits e hrun hst hexec ih =>
    obtain ⟨file'', hupdate, hnext⟩ := ih.snoc hst
    have hsame : e.exec strtod k file1 = some file'' := by
      rw [Edit.exec, hupdate]
      rfl
    obtain rfl := Option.some.inj (hsame.symm.trans hexec)
    exact hnext

end Runs

/-! ## 4. A new document

A document is created with a toast for its texts, one chain behind the other.  A schema without a
text that fills its last chunk gives a document to which the invariant applies. -/

/-- The byte lies in the block of `k`. -/
def InExtent (file : ZgdbFile A) (k : Nat) (a : A) : Prop :=
  ∃ d < blockCapacity file k, add (blockPos file k) d = a

/-- What any number of calls leave of the document `k`, which was created with `schema`: every text
reads as it was last written, `used` counts slots that the toast has, and no byte outside the two
blocks is written; and the next call returns. -/
structure EditedInPlace (strtod : CString → StrtodResult) (schema : DocumentSchema)
    (file file' : ZgdbFile A) (k : Nat) (edits : List Edit) : Prop where
  reads : textsRead file' k = (textsAdded schema).map (lastWritten edits)
  used : schema.reqToast = true →
    (toastAt file' (getDocumentHeader file' k).firstToastIndex).used
      ≤ toastSlots (toastAt file' (getDocumentHeader file' k).firstToastIndex)
  outside : ∀ a, ¬ InExtent file k a →
    (schema.reqToast = true → ¬ InExtent file (getDocumentHeader file k).firstToastIndex a) →
    file'.mem a = file.mem a
  tables : file' = { file with mem := file'.mem }
  others : ∃ cap, Placed file cap ∧ ∀ j, Used file j → j ≠ k →
    (schema.reqToast = true → j ≠ (getDocumentHeader file k).firstToastIndex) →
    Agrees file file' j (cap j)
  next : ∀ e : Edit, e.Stays k file' → ∃ file'',
    updateElement strtod file' (documentAt file' k 0) e.key e.input = some (.updateOk, file'')

theorem notFull_storeElements {used : Nat} {elements : List Element}
    (h : ∀ e ∈ elements, e.NotFull) :
    ∀ f ∈ textsOf (storeElements used elements), f.size % chunkSize ≠ 0 := by
  induction elements generalizing used with
  | nil => exact fun f hf => absurd hf List.not_mem_nil
  | cons e rest ih =>
    have hrest := fun x hx => h x (List.mem_cons_of_mem _ hx)
    have he := h e List.mem_cons_self
    intro f hf
    obtain ⟨key, v⟩ := e
    cases v with
    | text txt =>
      rcases List.mem_cons.mp hf with rfl | hf
      · exact he txt rfl
      · exact ih hrest f hf
    | _ => exact ih hrest f hf

section New

variable {strtod : CString → StrtodResult} {L : Layout A} {file : ZgdbFile A}
  {schema : DocumentSchema} {n : Nat} {own : List Nat}

/-- The texts of a new document. -/
theorem NewBlocks.texts (h : NewBlocks file schema n own) (hwf : schema.Wf) :
    Texts file own (getDocumentHeader file n).firstToastIndex
      (textsOf (storeElements 0 schema.elements)) := by
  have hown := h.own_eq
  by_cases hr : schema.reqToast = true
  · rw [if_pos hr] at hown
    obtain ⟨halive, hto, hused, hle⟩ := h.toast (getDocumentHeader file n).firstToastIndex
      (hown ▸ List.mem_cons_self)
    rw [hown]
    exact h.written.texts hwf.textOk halive hto hused hle
  · rw [if_neg hr] at hown
    rw [hown, textsOf_eq_nil fun e he hte => hr (hwf.reqToast_iff.mpr ⟨e, he, hte⟩)]
    exact Texts.nil file _

/-- A new document by itself. -/
theorem NewBlocks.local (h : NewBlocks file schema n own) (hwf : schema.Wf)
    (hcomplete : schema.Complete) (hshow : Shows L file n) (hlen : blockCapacity file n ≤ L.len n) :
    Local L file n (storeElements 0 schema.elements) := by
  refine ⟨hshow, h.isDocument, ?_, ?_, ?_, h.holds, ?_⟩
  · rw [h.count, storeElements_length, ← hwf.size_eq]
    exact hcomplete
  · rw [h.size, docSize, storeElements_size, ← hwf.sizeOfElements_eq]
  · rw [h.isDocument.capacity] at hlen
    exact h.isDocument.size_le.trans hlen
  · rw [storeElements_keys]
    exact hwf.keys_nodup

/-- **A new document can be edited**, under any layout that shows its blocks. -/
theorem NewBlocks.editable (h : NewBlocks file schema n own) (hwf : schema.Wf)
    (hcomplete : schema.Complete) (hfull : ∀ e ∈ schema.elements, e.NotFull)
    (hshow : ∀ j, j = n ∨ j ∈ own → Shows L file j ∧ blockCapacity file j ≤ L.len j) :
    Editable L file n (storeElements 0 schema.elements) own := by
  obtain ⟨hself, hlen⟩ := hshow n (Or.inl rfl)
  refine ⟨h.local hwf hcomplete hself hlen, ?_, h.texts hwf, notFull_storeElements hfull⟩
  intro t ht
  obtain ⟨hsh, hle⟩ := hshow t (Or.inr ht)
  rw [(h.toast t ht).2.1.capacity] at hle
  exact ⟨hsh, hle⟩

/-- **Any number of calls on a new document.** -/
theorem NewBlocks.edited {file' : ZgdbFile A} {edits : List Edit}
    (h : NewBlocks file schema n own) (hwf : schema.Wf) (hcomplete : schema.Complete)
    (hfull : ∀ e ∈ schema.elements, e.NotFull)
    (hrun : Run (Edit.exec strtod n) (fun file e => e.Stays n file) file edits file') :
    EditedInPlace strtod schema file file' n edits := by
  obtain ⟨cap, hp, hcapn, hcapo⟩ := h.placed
  have hblock : ∀ j, j = n ∨ j ∈ own → Used file j ∧ cap j = blockCapacity file j := by
    rintro j (rfl | hj)
    · exact ⟨Or.inl h.alive, hcapn⟩
    · exact ⟨Or.inl (h.toast j hj).1, hcapo j hj⟩
  have hmem : ∀ j, j ∈ own ↔ schema.reqToast = true ∧
      j = (getDocumentHeader file n).firstToastIndex := by
    intro j
    rw [h.own_eq]
    split <;> simp_all
  -- the used blocks as a layout
  have hedit := h.editable hwf hcomplete hfull (L := hp.layout) fun j hj =>
    ⟨⟨(hblock j hj).1, rfl⟩, Nat.le_of_eq (hblock j hj).2.symm⟩
  have hall := hedit.run hrun
  obtain ⟨es, hlast⟩ := hall.editable
  have hfits := hlast.texts.fits
  refine ⟨?_, ?_, ?_, hall.writes.tables, ⟨cap, hp, ?_⟩, ?_⟩
  · rw [hall.reads, ← (h.newDocument.textsRead hwf hcomplete).mpr hfull]
  · intro hr
    rw [hall.header]
    have hle := hfits _ ((hmem _).mpr ⟨hr, rfl⟩)
    rw [toastSlots, sub64, if_pos (by omega)]
    exact used_le_slots hle
  · -- a layout of the two blocks and of the byte
    intro a hself ho
    obtain ⟨i, hi⟩ : ∃ i, i = n + (getDocumentHeader file n).firstToastIndex + 1 := ⟨_, rfl⟩
    have hne : ∀ j, j = n ∨ j ∈ own → j ≠ i := by
      rintro j (rfl | hj)
      · omega
      · have := ((hmem j).mp hj).2
        omega
    have hout : ∀ j, j = n ∨ j ∈ own → ∀ d < cap j, add (blockPos file j) d ≠ a := by
      rintro j hj d hd rfl
      rw [(hblock j hj).2] at hd
      rcases hj with rfl | hj
      · exact hself ⟨d, hd, rfl⟩
      · obtain ⟨hr, rfl⟩ := (hmem j).mp hj
        exact ho hr ⟨d, hd, rfl⟩
    have hbyte := h.editable hwf hcomplete hfull
      (L := hp.layout.withByte (fun j => j = n ∨ j ∈ own) i a (fun j hj => (hblock j hj).1) hout)
      fun j hj => ⟨⟨Or.inl ⟨hj, hne j hj⟩, if_neg (hne j hj)⟩, by
        rw [← (hblock j hj).2]
        exact Nat.le_of_eq (if_neg (hne j hj)).symm⟩
    have hsame := (hbyte.run hrun).writes.only i (Or.inr rfl) 0
      (Nat.lt_of_lt_of_le Nat.zero_lt_one (Nat.le_of_eq (if_pos rfl).symm)) fun hi => hne i hi rfl
    have hpos : add ((hp.layout.withByte (fun j => j = n ∨ j ∈ own) i a
        (fun j hj => (hblock j hj).1) hout).pos i) 0 = a := by
      rw [shift_zero]
      exact if_pos rfl
    unfold Layout.block view at hsame
    rwa [hpos] at hsame
  · intro j hj hjn hjo d hd
    refine hall.writes.blockAt_eq ⟨hj, rfl⟩ hd ?_
    rintro (rfl | hjo')
    · exact hjn rfl
    · exact hjo ((hmem j).mp hjo').1 ((hmem j).mp hjo').2
  · intro e he
    obtain ⟨file'', hupdate, -⟩ := hall.snoc he
    exact ⟨file'', hupdate⟩

end New

/-- **Text updates in the first toast.** A document is created where the table, the free list and
the blocks are in order; then any of its texts are updated, any number of times, and no update needs
more slots than its toast has left.  Every text reads as it was last written to its key, and nothing
but the two blocks of the document has changed.  The other blocks may hold anything. -/
theorem edits_in_first_toast {expandIndexes : ZgdbFile A → Option (ZgdbFile A)}
    {strtod : CString → StrtodResult} {now : UInt32} {file file' file'' : ZgdbFile A} {name : Name}
    {schema : DocumentSchema} {parent : Document} {edits : List Edit} (hbuilt : schema.Built)
    (hfull : ∀ e ∈ schema.elements, e.NotFull)
    (hplace : ∀ file1, expanded expandIndexes file = some file1 →
      Arranged file1 parent.header.indexAttached)
    (hc : createDocument expandIndexes now file name schema parent = some (.createOk, file'))
    (hrun : Run (Edit.exec strtod (getDocumentHeader file' parent.header.indexAttached).indexSon)
      (fun file e => e.Stays (getDocumentHeader file' parent.header.indexAttached).indexSon file)
      file' edits file'') :
    EditedInPlace strtod schema file' file''
      (getDocumentHeader file' parent.header.indexAttached).indexSon edits := by
  have hcomplete : schema.Complete := by
    by_contra hne
    rw [createDocument, if_pos (by exact hne)] at hc
    cases hc
  obtain ⟨n, own, rfl, hnew⟩ := createDocument_newBlocks hbuilt.wf hcomplete hplace hc
  exact hnew.edited hbuilt.wf hcomplete hfull hrun

/-- A text of one character grows to two chunks, which its toast has. -/
theorem edits_in_first_toast_init : ∃ (file' file'' : ZgdbFile Nat),
    createDocument flatEnv.expandIndexes 0 (init 0) keyA oneText
        (documentAt (init 0 : ZgdbFile Nat) 0 0) = some (.createOk, file') ∧
      Edit.exec flatEnv.strtod (getDocumentHeader file' 0).indexSon file'
        ⟨stringKeyA, longString 40⟩ = some file'' ∧
      EditedInPlace flatEnv.strtod oneText file' file'' (getDocumentHeader file' 0).indexSon
        [⟨stringKeyA, longString 40⟩] := by
  have hs : Store (init 0 : ZgdbFile Nat) _ _ _ := init_store
  obtain ⟨hclean, file', n, own', hrun, hi, hend⟩ :=
    create_first flatEnv 0 keyA oneText_built (by decide)
  have hatt : (documentAt (init 0 : ZgdbFile Nat) 0 0).header.indexAttached = 0 :=
    hs.attached hs.root_mem
  have hplace : ∀ file1, expanded flatEnv.expandIndexes (init 0) = some file1 →
      Arranged file1 (documentAt (init 0 : ZgdbFile Nat) 0 0).header.indexAttached := by
    intro file1 h1
    rw [hatt]
    exact (hclean file1 h1).1.arranged hs.blocks hs.root_mem
  -- one of the two slots of its toast is taken
  have hleft : chunksLeft (toastAt file' (getDocumentHeader file' n).firstToastIndex) = 1 := by
    obtain ⟨m, own, hm, hnew⟩ :=
      createDocument_newBlocks oneText_built.wf (by decide) hplace hrun
    rw [hatt, hi.son] at hm
    subst hm
    obtain ⟨t, rfl, -, hcap, -⟩ := hend.text (by decide)
    obtain ⟨hfirst, -⟩ := hi.list
    obtain ⟨-, hto, hused, hle⟩ := hnew.toast (getDocumentHeader file' n).firstToastIndex (by
      rw [hnew.own_eq]
      exact List.mem_cons_self)
    have hsize := hto.capacity
    rw [hfirst, hcap] at hsize
    rw [← hused] at hle
    rw [chunksLeft_eq hle, hused, hfirst, ← hsize]
    decide
  have hn : n ∈ (rootTree.insertUnder 0 n).nodes :=
    (Forest.mem_nodes_insertUnder (by simp) List.mem_cons_self).mpr (Or.inl rfl)
  have hstays : Edit.Stays n file' ⟨stringKeyA, longString 40⟩ := by
    refine ⟨⟨2, 0⟩, ?_, ?_⟩
    · have hes : Function.update (fun _ => []) n (storeElements 0 oneText.elements) n
          = [] ++ (⟨keyA, .text ⟨2, 0⟩⟩ : StoredElement) :: [] := Function.update_self ..
      exact hi.store.storedText_eq hn hes rfl
    · intro h
      have hlt := h.2.2
      rw [hleft, strlen_longString] at hlt
      exact absurd hlt (by decide)
  -- no calls, and then the one
  have hnone := edits_in_first_toast oneText_built (by decide) hplace hrun
    (.nil file' : Run (Edit.exec flatEnv.strtod _) _ file' [] file')
  rw [hatt, hi.son] at hnone
  obtain ⟨file'', hupdate⟩ := hnone.next _ hstays
  have hexec : Edit.exec flatEnv.strtod n file' ⟨stringKeyA, longString 40⟩ = some file'' := by
    rw [Edit.exec, hupdate]
    rfl
  obtain ⟨k, hk⟩ : ∃ k, k = (getDocumentHeader file'
      (documentAt (init 0 : ZgdbFile Nat) 0 0).header.indexAttached).indexSon := ⟨_, rfl⟩
  have hkn : k = n := by rw [hk, hatt, hi.son]
  have hone : Run (Edit.exec flatEnv.strtod k) (fun file e => e.Stays k file) file'
      [⟨stringKeyA, longString 40⟩] file'' := by
    rw [hkn]
    exact (Run.nil file').snoc hstays hexec
  rw [hk] at hone
  have h := edits_in_first_toast oneText_built (by decide) hplace hrun hone
  rw [hatt] at h
  exact ⟨file', file'', hrun, hi.son ▸ hexec, h⟩

/-! ## 5. A document that is its own toast

What `Arranged` is there for: the state before the creation is one that a run reaches, and the free
list has an index twice. -/

/-- Two documents, and the root deleted twice: the index of the second one is free twice. -/
theorem deleted_twice : ∃ (file : ZgdbFile Nat) (q : Nat), Reaches flatEnv (fun _ _ => True) file ∧
    FreeTwice file q 106 ∧ q ≠ 0 ∧ 0 < file.header.indexCount ∧
      (file.indexes 0).offset + sizeofDocumentHeader ≤ file.header.fileSize ∧
      (getDocumentHeader file 0).indexAttached = 0 := by
  obtain ⟨file1, n, es, own, hl1, -, hexec1, hn0, -, -, hnext⟩ := create_two flatEnv
  obtain ⟨hl2, -, file2, q, own2, hexec2, hi, hend⟩ :=
    hnext 0 keyB oneText (by simp) oneText_built (by decide)
  have hs := hi.store
  have htree : (onlySon n).insertUnder 0 q = .cons 0 (.cons q .nil (.cons n .nil .nil)) .nil := by
    simp [Forest.insertUnder]
  rw [htree] at hs
  have hr : ((Forest.cons 0 (.cons q .nil (.cons n .nil .nil)) .nil).sonsOf 0).roots
      = q :: ([] ++ [n]) := by
    simp [Forest.sonsOf]
  have hq0 : q ≠ 0 := fun he => hi.fresh (he ▸ List.mem_cons_self)
  have hqn : q ≠ n := fun he => hi.fresh (he ▸ by simp)
  have hG : ((Forest.cons 0 (.cons q .nil (.cons n .nil .nil)) .nil).remove n).sonsOf 0
      = .cons q .nil .nil := by
    simp [Forest.remove, Forest.sonsOf, hqn, Ne.symm hn0]
  have hqT : q ∈ (Forest.cons 0 (.cons q .nil (.cons n .nil .nil)) .nil :
      Forest Nat).nodes := by simp
  have hused : ∀ k ∈ (Forest.cons 0 (.cons q .nil (.cons n .nil .nil)) .nil : Forest Nat).nodes,
      Used file2 k := fun k hk => Or.inl (hs.alive hk)
  -- the root is deleted twice
  obtain ⟨file3, hrun3, hcut⟩ := deleteRoot_cut hs (Nat.lt_succ_self _) hr
  rw [hG] at hcut
  obtain ⟨-, hperm3, hheader3⟩ := hcut.reclaimed
  have hcount3 : file3.header.indexCount = file2.header.indexCount := by rw [hheader3]
  have hindex3 : file3.indexes q = ⟨.dead, (file2.indexes q).offset⟩ := by
    rw [hcut.reclaimed.indexes, if_pos (by simp)]
  obtain ⟨file4, hrun4, hagain⟩ : ∃ file4, deleteDocument (loopBound file3) file3
      (documentAt file3 0 0) = some file4 ∧ _ :=
    deleteRoot_again hs hcut (by simp)
      (rfl : (Forest.cons q .nil .nil).roots = [q]) (by rw [loopBound, hcount3]; omega)
  have hcap : blockCapacity file2 q = 106 := hend.docCapacity
  have hsize4 : file4.header.fileSize = file2.header.fileSize := by rw [hagain.header, hheader3]
  have hcount4 : file4.header.indexCount = file2.header.indexCount := by
    rw [hagain.header, hcount3]
  have hperm : file4.freeList.nodes.Perm (⟨q, 106⟩ :: ⟨q, 106⟩ :: file2.freeList.nodes) := by
    have h4 := hagain.perm
    simp only [Forest.nodes_cons, Forest.nodes_nil, List.append_nil, List.map_cons, List.map_nil,
      hcap, List.singleton_append] at h4 hperm3
    exact h4.trans (hperm3.cons _)
  have htwice : FreeTwice file4 q 106 := by
    refine ⟨hagain.sound, ⟨_, hperm, ?_⟩, ?_, ⟨?_, ?_⟩, ?_⟩
    · intro m hm
      rw [hend.undead m hm]
      decide
    · intro m hm
      rw [hcount4]
      rcases List.mem_cons.mp (hperm.mem_iff.mp hm) with rfl | hm
      · exact (hused q hqT).lt
      · rcases List.mem_cons.mp hm with rfl | hm
        · exact (hused q hqT).lt
        · exact hs.blocks.placed.node_lt m hm
    · rw [hcount4]
      exact (hused q hqT).lt
    · rw [hagain.indexes, hindex3]
    · rw [hagain.indexes, hindex3, hsize4, ← hcap]
      exact hs.blocks.placed.below (hused q hqT)
  have hroot : getDocumentHeader file4 0 = { getDocumentHeader file2 0 with indexSon := 0 } := by
    rw [hagain.root, hcut.root]
  have hatt : (getDocumentHeader file4 0).indexAttached = 0 := by
    rw [hroot]
    exact hs.attached hs.root_mem
  have hbelow : (file4.indexes 0).offset + sizeofDocumentHeader ≤ file4.header.fileSize := by
    have hle := (hs.isDocument hs.root_mem).header_le
    have hend2 := hs.blocks.placed.below (hused 0 hs.root_mem)
    rw [hagain.indexes, hcut.reclaimed.indexes, if_neg (by simp [Ne.symm hq0]), hsize4]
    omega
  have hreach2 : Reaches flatEnv (fun _ _ => True) file2 :=
    ((Reaches.new 0).snoc hl1 trivial hexec1).snoc hl2 trivial hexec2
  have hlegal : ∀ file : ZgdbFile Nat, Call.deleteRoot.Legal file := fun _ => trivial
  have hreach : Reaches flatEnv (fun _ _ => True) file4 :=
    (hreach2.snoc (hlegal file2) trivial hrun3).snoc (hlegal file3) trivial hrun4
  exact ⟨file4, q, hreach, htwice, hq0, hcount4 ▸ (hused 0 hs.root_mem).lt, hbelow, hatt⟩

/-- Two documents, the root deleted twice, and a document with a text whose text is updated: its
toast counts more slots than it has. -/
theorem edits_overrun_toast : ∃ (file file' file'' : ZgdbFile Nat) (k : Nat),
    Reaches flatEnv (fun _ _ => True) file ∧ (∀ e ∈ oneText.elements, e.NotFull) ∧
      createDocument flatEnv.expandIndexes 0 file keyA oneText (documentAt file 0 0)
        = some (.createOk, file') ∧
      (getDocumentHeader file' 0).indexSon = k ∧ Edit.Stays k file' ⟨stringKeyA, stringKeyB⟩ ∧
      Edit.exec flatEnv.strtod k file' ⟨stringKeyA, stringKeyB⟩ = some file'' ∧
      toastSlots (toastAt file'' (getDocumentHeader file' k).firstToastIndex)
        < (toastAt file'' (getDocumentHeader file' k).firstToastIndex).used := by
  obtain ⟨file, q, hreach, htwice, hq0, hlt, hbelow, hatt⟩ := deleted_twice
  -- the document gets the index twice
  obtain ⟨file', hrun, hson, hover⟩ := createDocument_twice 0 keyA htwice hlt (Ne.symm hq0) hbelow
    hatt (ite_self (some file) : expanded flatEnv.expandIndexes file = some file) oneText_built.wf
    (by decide) (by decide) (by decide) (by decide)
  -- its text is updated
  obtain ⟨hstored, file'', hrun', hsame⟩ : storedText file' q stringKeyA = some ⟨2, 0⟩ ∧
      ∃ file'', updateElement flatEnv.strtod file' (documentAt file' q 0) stringKeyA stringKeyB
          = some (.updateOk, file'') ∧ ∀ d < sizeofToast, blockAt file'' q d = blockAt file' q d :=
    hover.update_equal (show oneText.elements = [⟨keyA, .text ⟨2, stringA⟩⟩] from rfl) rfl rfl rfl
      rfl
  have hheader : ∀ d < sizeofToast,
      blockAt file'' q d = ⟨.documentHeader (getDocumentHeader file' q), d⟩ := by
    intro d hd
    have h := hover.doc.holds d (Nat.lt_trans hd (by decide))
    rw [add_nat, Nat.zero_add] at h
    exact (hsame d hd).trans h
  obtain ⟨hcapacity, htaken⟩ := toastAt_document hheader (by rw [hover.size]; decide)
    (by rw [hover.capacity]; decide)
  rw [hover.size] at hcapacity
  rw [hover.capacity] at htaken
  refine ⟨file, file', file'', q, hreach, by decide, hrun, hson, ⟨_, hstored, fun hcross => ?_⟩,
    ?_, ?_⟩
  · exact absurd hcross.1 (by decide)
  · rw [Edit.exec, hrun']
    rfl
  · rw [hover.toast, toastSlots, hcapacity, htaken]
    decide

end Zgdb
