/-
# Updates of scalars

`updateElement` on an int, a boolean or a double.  Which element is updated, and whether, depends
on nothing but the entries of the document and the input, so the results of section 1 hold for every
file and every document: a call that does not return UPDATE_OK leaves the file as it was
(`updateElement_failed`), and the element is the first of the key (`updateElement_first`).

What is read afterwards is a matter of the places: the document must lie apart from its toasts
(`Standing`).  A new document does where the blocks lie apart, and so does every live document of a
store (`scalar_updates`).  Where the code has given out a block twice, the value of a number can lie
in a text of the same document (`number_changes_text`).
-/
import Zgdb.InToast
import Zgdb.Integers
import Zgdb.Spare

namespace Zgdb

open Zgdb.Lib AddrSpace

variable {A : Type} [BlockSpace A]

/-! ## 1. Which element is updated

The switch on the type decides whether the input is accepted.  An input that is refused leaves the
element, and with it the file. -/

section Which

variable {strtod : CString → StrtodResult} {file file' : ZgdbFile A} {doc : Document}
  {key input : CString} {status : UpdateElementStatus}

/-- A case of the switch that does not succeed writes nothing. -/
theorem updateFound_failed {block : A} {d : Nat} {type : UInt8}
    (h : updateFound strtod file block doc d type input = some (some (status, file')))
    (hstatus : status ≠ .updateOk) : file' = file := by
  unfold updateFound at h
  split at h
  · cases h
    exact absurd rfl hstatus
  · split at h
    · split at h
      · cases h
        exact absurd rfl hstatus
      · cases h
        rfl
    · split at h
      · split at h
        · cases h
          exact absurd rfl hstatus
        · cases h
          rfl
      · split at h
        · obtain ⟨file1, -, h1⟩ := Option.map_eq_some_iff.mp h
          cases h1
          exact absurd rfl hstatus
        · cases h

theorem updateLoop_failed {n : Nat} {it : ElementIterator A}
    (h : updateLoop strtod file doc key input n it = some (status, file'))
    (hstatus : status ≠ .updateOk) : file' = file := by
  induction n generalizing it with
  | zero =>
    cases h
    rfl
  | succ n ih =>
    rw [updateLoop] at h
    by_cases hkey : key.chars = (nextEl file it false).1.key.chars
    · simp only [if_pos hkey] at h
      rcases hf : updateFound strtod file it.block doc (nextEl file it false).1.offsetInDocument
        (nextEl file it false).1.type input with _ | _ | result
      · rw [hf] at h
        cases h
      · rw [hf] at h
        exact ih h
      · rw [hf] at h
        obtain rfl := Option.some.inj h
        exact updateFound_failed hf hstatus
    · simp only [if_neg hkey] at h
      exact ih h

/-- **A call that does not return UPDATE_OK** leaves the file as it was. -/
theorem updateElement_failed
    (h : updateElement strtod file doc key input = some (status, file'))
    (hstatus : status ≠ .updateOk) : file' = file := by
  unfold updateElement at h
  split at h
  · cases h
    rfl
  · exact updateLoop_failed h hstatus

theorem updateLoop_first {n : Nat} {it : ElementIterator A} {e : ElementEntry}
    (h : (iterateEl file false n it).find? (fun e => key.chars = e.key.chars) = some e)
    (hne : updateFound strtod file it.block doc e.offsetInDocument e.type input ≠ some none) :
    updateLoop strtod file doc key input n it
      = (updateFound strtod file it.block doc e.offsetInDocument e.type input).join := by
  induction n generalizing it with
  | zero => cases h
  | succ n ih =>
    rw [iterateEl] at h
    rw [updateLoop]
    by_cases hkey : key.chars = (nextEl file it false).1.key.chars
    · rw [List.find?_cons_of_pos (by simpa using hkey)] at h
      obtain rfl := Option.some.inj h
      simp only [if_pos hkey]
      rcases hf : updateFound strtod file it.block doc (nextEl file it false).1.offsetInDocument
        (nextEl file it false).1.type input with _ | _ | result
      · rfl
      · exact absurd hf hne
      · rfl
    · rw [List.find?_cons_of_neg (by simpa using hkey)] at h
      simp only [if_neg hkey]
      exact ih h hne

/-- The first element of a key, as the loop of `updateElement` meets it.  It is found by the entries
alone, so the definition makes sense for any bytes in the block. -/
def firstElement (file : ZgdbFile A) (doc : Document) (key : CString) : Option ElementEntry :=
  (elementEntries file doc false).find? fun e => key.chars = e.key.chars

/-- **The first element of the key** decides. -/
theorem updateElement_first {e : ElementEntry} (h : firstElement file doc key = some e)
    (hne : updateFound strtod file (blockPos file doc.header.indexAttached) doc e.offsetInDocument
      e.type input ≠ some none) :
    updateElement strtod file doc key input = (updateFound strtod file
      (blockPos file doc.header.indexAttached) doc e.offsetInDocument e.type input).join := by
  have hkey : key.chars = e.key.chars := by simpa using List.find?_some h
  have hlen : ¬ key.strlen > 13 := by
    have hshort := e.key.short
    rw [← hkey] at hshort
    simp only [CString.strlen]
    omega
  rw [updateElement, if_neg hlen]
  exact updateLoop_first h hne

/-- An int is set when `str2int` accepts the input. -/
theorem updateElement_int {e : ElementEntry} (h : firstElement file doc key = some e)
    (htype : e.type = ElementType.int.code) {v : Int32} (hv : str2int input = (.success, some v)) :
    updateElement strtod file doc key input = some (.updateOk, fwriteAt intK file
      (blockPos file doc.header.indexAttached) (e.offsetInDocument + elementHead) v) := by
  have hint : ElementType.int.code ≠ ElementType.boolean.code := by decide
  have hfound : updateFound strtod file (blockPos file doc.header.indexAttached) doc
      e.offsetInDocument e.type input = some (some (.updateOk, fwriteAt intK file
        (blockPos file doc.header.indexAttached) (e.offsetInDocument + elementHead) v)) := by
    rw [htype, updateFound, if_neg hint, if_pos rfl, hv]
  rw [updateElement_first h (by simp [hfound]), hfound]
  rfl

/-- Else the call fails. -/
theorem updateElement_int_refused {e : ElementEntry} (h : firstElement file doc key = some e)
    (htype : e.type = ElementType.int.code) (hv : (str2int input).1 ≠ .success) :
    updateElement strtod file doc key input = some (.typeParseError, file) := by
  have hint : ElementType.int.code ≠ ElementType.boolean.code := by decide
  have hfound : updateFound strtod file (blockPos file doc.header.indexAttached) doc
      e.offsetInDocument e.type input = some (some (.typeParseError, file)) := by
    rw [htype, updateFound, if_neg hint, if_pos rfl]
    split
    · rename_i hsuccess
      exact absurd (congrArg Prod.fst hsuccess) hv
    · rfl
  rw [updateElement_first h (by simp [hfound]), hfound]
  rfl

/-- A double is set when `str2double` accepts the input. -/
theorem updateElement_double {e : ElementEntry} (h : firstElement file doc key = some e)
    (htype : e.type = ElementType.double.code) {v : UInt64}
    (hv : str2double strtod input = (.success, some v)) :
    updateElement strtod file doc key input = some (.updateOk, fwriteAt doubleK file
      (blockPos file doc.header.indexAttached) (e.offsetInDocument + elementHead) v) := by
  have hboolean : ElementType.double.code ≠ ElementType.boolean.code := by decide
  have hint : ElementType.double.code ≠ ElementType.int.code := by decide
  have hfound : updateFound strtod file (blockPos file doc.header.indexAttached) doc
      e.offsetInDocument e.type input = some (some (.updateOk, fwriteAt doubleK file
        (blockPos file doc.header.indexAttached) (e.offsetInDocument + elementHead) v)) := by
    rw [htype, updateFound, if_neg hboolean, if_neg hint, if_pos rfl, hv]
  rw [updateElement_first h (by simp [hfound]), hfound]
  rfl

/-- Else the call fails. -/
theorem updateElement_double_refused {e : ElementEntry} (h : firstElement file doc key = some e)
    (htype : e.type = ElementType.double.code) (hv : (str2double strtod input).1 ≠ .success) :
    updateElement strtod file doc key input = some (.typeParseError, file) := by
  have hboolean : ElementType.double.code ≠ ElementType.boolean.code := by decide
  have hint : ElementType.double.code ≠ ElementType.int.code := by decide
  have hfound : updateFound strtod file (blockPos file doc.header.indexAttached) doc
      e.offsetInDocument e.type input = some (some (.typeParseError, file)) := by
    rw [htype, updateFound, if_neg hboolean, if_neg hint, if_pos rfl]
    split
    · rename_i hsuccess
      exact absurd (congrArg Prod.fst hsuccess) hv
    · rfl
  rw [updateElement_first h (by simp [hfound]), hfound]
  rfl

end Which

/-! ## 2. What is read afterwards

The bytes of a value are its own as long as the block of the document is apart from the toasts.
Then the entries after the update are those before it, with one value replaced. -/

/-- A document of a layout whose texts lie in the toasts `own`.  The toasts matter to an update of a
number only because a text of the document could otherwise lie in the bytes of the number. -/
structure Standing (L : Layout A) (file : ZgdbFile A) (k : Nat) (es : List StoredElement)
    (own : List Nat) : Prop extends Local L file k es where
  area : Area L file own
  first : ∀ f ∈ textsOf es, (getDocumentHeader file k).firstToastIndex ∈ own
  slots : ∀ f ∈ textsOf es, ∀ x ∈ textPath file (getDocumentHeader file k).firstToastIndex f,
    SlotIn L own x

/-- What the conversions make of the input; nothing for a double and for a text. -/
def converted (input : CString) : StoredValue → Option StoredValue
  | .int _ => (str2int input).2.map .int
  | .boolean _ => some (.boolean (str2boolean input))
  | _ => none

/-- The value behind the elements `pre` is `v` now: its bytes are the only ones that changed, and
the iteration returns it among what it returned before.  What is stated is the file as a whole, not
the document alone. -/
structure SetInPlace (L : Layout A) (file file' : ZgdbFile A) (k : Nat) (pre : List StoredElement)
    (name : Name) (v : StoredValue) (post : List StoredElement) (own : List Nat) : Prop where
  standing : Standing L file' k (pre ++ ⟨name, v⟩ :: post) own
  header : getDocumentHeader file' k = getDocumentHeader file k
  tables : file' = { file with mem := file'.mem }
  outside : ∀ a, (∀ d < v.type.valueSize, add (add (blockPos file k) (valueAt pre)) d ≠ a) →
    file'.mem a = file.mem a
  entries : ∀ p, elementEntries file' (documentAt file' k p) true
    = (elementEntries file (documentAt file k p) true).set pre.length
      { type := v.type.code, key := name,
        value := some (v.read file (getDocumentHeader file k).firstToastIndex),
        offsetInDocument := sizeofDocumentHeader + storedSize pre }

section Stand

variable {strtod : CString → StrtodResult} {L : Layout A} {file file' : ZgdbFile A} {k : Nat}
  {pre post : List StoredElement} {name : Name} {v v' : StoredValue} {own : List Nat}
  {key input : CString}

/-- The entries of a list in which one value is another of its type. -/
theorem entriesOf_set {first d : Nat} (htype : v'.type = v.type)
    (hreads : ∀ f ∈ textsOf (pre ++ ⟨name, v'⟩ :: post),
      readText file' first f = readText file first f) :
    entriesOf file' first true d (pre ++ ⟨name, v'⟩ :: post)
      = (entriesOf file first true d (pre ++ ⟨name, v⟩ :: post)).set pre.length
          { type := v'.type.code, key := name, value := some (v'.read file first),
            offsetInDocument := d + storedSize pre } := by
  have hsame : entriesOf file' first true d (pre ++ ⟨name, v'⟩ :: post)
      = entriesOf file first true d (pre ++ ⟨name, v'⟩ :: post) :=
    entriesOf_congr fun e he f hf => hreads f (mem_textsOf.mpr ⟨e, he, hf⟩)
  have hsize : (⟨name, v'⟩ : StoredElement).size = (⟨name, v⟩ : StoredElement).size :=
    congrArg (fun t : ElementType => elementHead + t.valueSize) htype
  have hlen := Local.length_entriesOf file first true pre d
  rw [hsame, entriesOf_append, entriesOf_append, entriesOf, entriesOf, hsize,
    List.set_append_right _ _ (Nat.le_of_eq hlen), hlen, Nat.sub_self, List.set_cons_zero]
  rfl

theorem Standing.notMem {es : List StoredElement} (h : Standing L file k es own) : k ∉ own :=
  fun hk => h.isDocument.not_isToast (h.area.toast k hk)

/-- **A scalar written over another** of its type. -/
theorem Standing.setScalar (h : Standing L file k (pre ++ ⟨name, v⟩ :: post) own)
    (hv : v.type ≠ .text) (htype : v'.type = v.type) {α : Type} {K : Kind Obj α} {a : α}
    (hsize : K.size = v.type.valueSize)
    (hholds : ∀ (m : Mem Nat Obj) (d : Nat), Holds K m d a → HoldsValue m d v')
    (hf : file' = fwriteAt K file (blockPos file k) (valueAt pre) a) :
    SetInPlace L file file' k pre name v' post own := by
  have hend : valueAt pre + K.size ≤ L.len k := by
    rw [hsize]
    exact (Nat.le_add_right _ _).trans h.value_le
  have hw : Writes L (Layout.span k (valueAt pre) (valueAt pre + v.type.valueSize)) file file' := by
    rw [hf, ← h.shows.pos, ← hsize]
    exact writes_fwriteAt h.shows.mem hend
  have hnew : HoldsValue (blockAt file' k) (valueAt pre) v' := by
    rw [hf, blockAt_fwriteAt]
    exact hholds _ _ holds_store
  obtain ⟨hlocal, hheader⟩ := h.setValue (W := fun _ _ => False) htype Writes.refl
    (fun _ => not_false) hw hnew
  obtain ⟨harea, -, hchunk⟩ := h.area.beside h.notMem hw
  have hsame : textsOf (pre ++ ⟨name, v'⟩ :: post) = textsOf (pre ++ ⟨name, v⟩ :: post) :=
    (textsOf_scalar hv htype).1
  have hpath : ∀ f ∈ textsOf (pre ++ ⟨name, v⟩ :: post),
      textPath file' (getDocumentHeader file k).firstToastIndex f
        = textPath file (getDocumentHeader file k).firstToastIndex f := fun f hf =>
    textPath_congr fun x hx => hchunk x (h.slots f hf x hx)
  have hreads : ∀ f ∈ textsOf (pre ++ ⟨name, v⟩ :: post),
      readText file' (getDocumentHeader file k).firstToastIndex f
        = readText file (getDocumentHeader file k).firstToastIndex f := fun f hf =>
    readText_congr h.area harea (h.first f hf) (h.slots f hf) fun x hx =>
      hchunk x (h.slots f hf x hx)
  refine ⟨⟨hlocal, harea, ?_, ?_⟩, hheader, ?_, ?_, ?_⟩
  · rw [hheader, hsame]
    exact h.first
  · rw [hheader, hsame]
    intro f hf x hx
    rw [hpath f hf] at hx
    exact h.slots f hf x hx
  · rw [hf]
    rfl
  · intro x hx
    rw [hf]
    exact store_apply_of_ne fun d hd => hx d (by rw [htype, ← hsize]; exact hd)
  · intro p
    rw [hlocal.elementEntries, h.toLocal.elementEntries, hheader]
    exact entriesOf_set htype fun f hf => hreads f (hsame ▸ hf)

variable (strtod input) in
/-- **An update of an int or a boolean** sets its value when the input converts, and fails when it
does not. -/
theorem Standing.update (h : Standing L file k (pre ++ ⟨name, v⟩ :: post) own)
    (hkey : key.chars = name.chars) (hv : v.type = .int ∨ v.type = .boolean) (p : Nat) :
    match converted input v with
    | some v' => ∃ file', updateElement strtod file (documentAt file k p) key input
        = some (.updateOk, file') ∧ SetInPlace L file file' k pre name v' post own
    | none => updateElement strtod file (documentAt file k p) key input
        = some (.typeParseError, file) := by
  have hatt : (documentAt file k p).header.indexAttached = k := h.isDocument.attached
  have hfound : updateElement strtod file (documentAt file k p) key input = _ :=
    updateElement_of_holds h.count (holdsElements_documentAt hatt h.holds p) hkey
      fun x hx => h.key_ne x (List.mem_append_left _ hx)
  rw [hatt] at hfound
  have hint : ElementType.int.code ≠ ElementType.boolean.code := by decide
  cases v with
  | int i =>
    simp only [updateFound, StoredValue.type, if_neg hint, if_true] at hfound
    rcases hc : str2int input with ⟨status, _ | w⟩
    · simp only [converted, hc, Option.map_none]
      rw [hfound, hc]
      cases status <;> rfl
    · obtain rfl : status = .success := by
        by_contra hne
        have hlong : (str2long input).1 = status := congrArg Prod.fst hc
        have hnone : (str2int input).2 = none :=
          congrArg (Option.map Int32.ofInt) (str2long_stored (hlong ▸ hne))
        rw [hc] at hnone
        cases hnone
      simp only [converted, hc, Option.map_some]
      refine ⟨_, by rw [hfound, hc]; rfl, ?_⟩
      exact h.setScalar (fun hv => by cases hv) rfl (K := intK) rfl (fun _ _ h => h) rfl
  | boolean b =>
    simp only [converted]
    refine ⟨_, hfound, ?_⟩
    exact h.setScalar (fun hv => by cases hv) rfl (K := byteK) rfl (fun _ _ h => h) rfl
  | double x => rcases hv with hv | hv <;> cases hv
  | text f => rcases hv with hv | hv <;> cases hv

end Stand

/-! ## 3. Documents that stand

Two ways to know that a document lies apart from its toasts: it is a live document of a store, or it
has just been created among blocks that do not overlap. -/

section Documents

variable {file : ZgdbFile A} {L : Layout A} {k : Nat} {es : List StoredElement} {own : List Nat}

theorem Local.standing (h : Local L file k es)
    (htoasts : ∀ t ∈ own, Shows L file t ∧ (toastAt file t).capacity ≤ L.len t)
    (htexts : Texts file own (getDocumentHeader file k).firstToastIndex (textsOf es)) :
    Standing L file k es own where
  toLocal := h
  area := ⟨fun t ht => (htoasts t ht).1, htexts.toast,
    fun t ht => (htexts.toast t ht).header_le.trans
    (by rw [(htexts.toast t ht).capacity]; exact (htoasts t ht).2)⟩
  first _ hf := htexts.first_of_mem hf
  slots f hf x hx := htexts.slotIn (fun t ht => (htoasts t ht).2) (htexts.inUse f hf x hx)

/-- **The live documents of a store** stand. -/
theorem Store.standing {T : Forest Nat} {es : Nat → List StoredElement} {own : Nat → List Nat}
    (hs : Store file T es own) (hk : k ∈ T.nodes) :
    Standing hs.blocks.layout file k (es k) (own k) := by
  have htexts := (hs.doc k hk).texts
  obtain ⟨harea, hlen⟩ := hs.area fun t ht => ⟨htexts.alive t ht, htexts.toast t ht⟩
  exact (hs.local hk).standing (fun t ht => ⟨harea.shows t ht, hlen t ht⟩) htexts

/-- **A new document** stands. -/
theorem NewBlocks.standing {schema : DocumentSchema} {n : Nat} (h : NewBlocks file schema n own)
    (hwf : schema.Wf) (hcomplete : schema.Complete) :
    ∃ L : Layout A, Standing L file n (storeElements 0 schema.elements) own := by
  obtain ⟨cap, hp, hcapn, hcapo⟩ := h.placed
  refine ⟨hp.layout, (h.local hwf hcomplete ⟨Or.inl h.alive, rfl⟩
    (Nat.le_of_eq hcapn.symm)).standing
    (fun t ht => ⟨⟨Or.inl (h.toast t ht).1, rfl⟩, ?_⟩) (h.texts hwf)⟩
  rw [← (h.toast t ht).2.1.capacity]
  exact Nat.le_of_eq (hcapo t ht).symm

end Documents

/-- What an update of an int or a boolean has done when it returns UPDATE_OK, wherever the element
stands in the document. -/
def SetsScalars (strtod : CString → StrtodResult) (L : Layout A) (file : ZgdbFile A) (k : Nat)
    (es : List StoredElement) (own : List Nat) : Prop :=
  ∀ (pre : List StoredElement) (name : Name) (v : StoredValue) (post : List StoredElement)
    (key input : CString) (p : Nat) (file' : ZgdbFile A),
    es = pre ++ ⟨name, v⟩ :: post → key.chars = name.chars → v.type = .int ∨ v.type = .boolean →
    updateElement strtod file (documentAt file k p) key input = some (.updateOk, file') →
    ∃ v', converted input v = some v' ∧ SetInPlace L file file' k pre name v' post own

theorem Standing.setsScalars {strtod : CString → StrtodResult} {L : Layout A} {file : ZgdbFile A}
    {k : Nat} {es : List StoredElement} {own : List Nat} (h : Standing L file k es own) :
    SetsScalars strtod L file k es own := by
  rintro pre name v post key input p file' rfl hkey hv hrun
  have hupdate := h.update strtod input hkey hv p
  rcases hc : converted input v with _ | v'
  · rw [hc] at hupdate
    cases hupdate.symm.trans hrun
  · rw [hc] at hupdate
    obtain ⟨file1, hrun1, hset⟩ := hupdate
    cases hrun1.symm.trans hrun
    exact ⟨v', rfl, hset⟩

/-- **Updates of scalars are exact, and those that fail change nothing.**  For every file and every
document the file is as it was when the status is not UPDATE_OK, and an int is updated exactly when
`str2int` accepts the input.  A document that `createDocument` wrote, at once and as long as it
lives in a clean run, reads the converted input for an int or a boolean that was updated and the old
value for every other element, and no byte but those of the value has changed. -/
theorem scalar_updates (strtod : CString → StrtodResult) :
    (∀ (file file' : ZgdbFile A) (doc : Document) (key input : CString)
        (status : UpdateElementStatus),
      updateElement strtod file doc key input = some (status, file') → status ≠ .updateOk →
        file' = file) ∧
    (∀ (file : ZgdbFile A) (doc : Document) (key input : CString) (e : ElementEntry),
      firstElement file doc key = some e → e.type = ElementType.int.code → ∃ status file',
        updateElement strtod file doc key input = some (status, file') ∧
          (status = .updateOk ↔ (str2int input).1 = .success)) ∧
    (∀ (expandIndexes : ZgdbFile A → Option (ZgdbFile A)) (now : UInt32) (file file' : ZgdbFile A)
        (name : Name) (schema : DocumentSchema) (parent : Document), schema.Built →
      (∀ file1, expanded expandIndexes file = some file1 →
        Arranged file1 parent.header.indexAttached) →
      createDocument expandIndexes now file name schema parent = some (.createOk, file') →
      ∃ n L own, (getDocumentHeader file' parent.header.indexAttached).indexSon = n ∧
        Standing L file' n (storeElements 0 schema.elements) own ∧
        SetsScalars strtod L file' n (storeElements 0 schema.elements) own) ∧
    ∀ (env : Env A) (file : ZgdbFile A) (k : Nat), Reaches env (Call.Clean env) file →
      Live file k → ∃ L es own, Standing L file k es own ∧ SetsScalars strtod L file k es own := by
  refine ⟨fun _ _ _ _ _ _ => updateElement_failed, ?_, ?_, ?_⟩
  · intro file doc key input e he htype
    by_cases hv : (str2int input).1 = .success
    · obtain ⟨v, hv'⟩ := str2int_stored hv
      exact ⟨_, _, updateElement_int he htype hv', by simp [hv]⟩
    · exact ⟨_, _, updateElement_int_refused he htype hv, by simp [hv]⟩
  · intro expandIndexes now file file' name schema parent hbuilt hplace hc
    have hcomplete : schema.Complete := by
      by_contra hne
      rw [createDocument, if_pos (by exact hne)] at hc
      cases hc
    obtain ⟨n, own, hson, hnew⟩ := createDocument_newBlocks hbuilt.wf hcomplete hplace hc
    obtain ⟨L, hstand⟩ := hnew.standing hbuilt.wf hcomplete
    exact ⟨n, L, own, hson, hstand, hstand.setsScalars⟩
  · intro env file k hreach hlive
    obtain ⟨T, es, own, hs⟩ := hreach.sound fun _ _ _ hc => hc
    have hstand := hs.standing (hs.live_iff.mp hlive)
    exact ⟨_, _, _, hstand, hstand.setsScalars⟩

/-- The number of a document with a text and a number, under the root of a new store. -/
theorem scalar_updates_first : ∃ (file' file'' : ZgdbFile Nat) (n : Nat) (L : Layout Nat)
    (own : List Nat),
    createDocument flatEnv.expandIndexes 0 (init 0) keyA textAndInt
        (documentAt (init 0 : ZgdbFile Nat) 0 0) = some (.createOk, file') ∧
      updateElement flatEnv.strtod file' (documentAt file' n 0) stringKeyB ⟨[45, 55], by decide⟩
        = some (.updateOk, file'') ∧
      SetInPlace L file' file'' n [⟨keyA, .text ⟨2, 0⟩⟩] keyB (.int (-7)) [] own := by
  obtain ⟨hclean, file', -, -, hrun, -⟩ :=
    create_first flatEnv 0 keyA textAndInt_built (by decide)
  have hs : Store (init 0 : ZgdbFile Nat) _ _ _ := init_store
  have hatt : (documentAt (init 0 : ZgdbFile Nat) 0 0).header.indexAttached = 0 :=
    hs.attached hs.root_mem
  obtain ⟨n, L, own, -, hstand, hsets⟩ := (scalar_updates flatEnv.strtod).2.2.1
    flatEnv.expandIndexes 0 (init 0) file' keyA textAndInt (documentAt (init 0) 0 0)
    textAndInt_built (fun file1 h1 => by
      rw [hatt]
      exact (hclean file1 h1).1.arranged hs.blocks hs.root_mem) hrun
  have hes : storeElements 0 textAndInt.elements
      = [⟨keyA, .text ⟨2, 0⟩⟩] ++ ⟨keyB, .int 0⟩ :: [] := rfl
  have hupdate := Standing.update flatEnv.strtod ⟨[45, 55], by decide⟩ (hes ▸ hstand)
    (rfl : stringKeyB.chars = keyB.chars) (.inl rfl) 0
  obtain ⟨file'', hrun', -⟩ := hupdate
  obtain ⟨v', hv', hset⟩ := hsets _ _ _ _ _ _ 0 file'' hes rfl (.inl rfl) hrun'
  cases hv'
  exact ⟨file', file'', n, L, own, hrun, hrun', hset⟩

/-! ## 4. A document that overlaps its toast

After two deletions of the root an index is in the free list twice.  The document that gets both of
its nodes has its numbers where its texts are. -/

/-- A text and three numbers. -/
def textAndInts : DocumentSchema :=
  (addIntToSchema (addIntToSchema (addIntToSchema (addTextToSchema (initSchema 4) keyA stringA).2
    keyB 0).2 keyC 0).2 keyD 0).2

theorem textAndInts_built : textAndInts.Built := .int _ _
    (.int _ _ (.int _ _ (.text _ _ (.init 4))))

/-- The first document is deleted.  The toast of the next document takes its block, and the zero
bytes run into the toast of the second document, which is deleted next: its toast is free with a
block of size 0.  The last document gets this block as if it was NEW, while its own toast takes the
block of the second document right behind. -/
def overlapCalls : List Call :=
  [.create 0 0 keyA onlyInt, .create 0 0 keyA oneText, .delete 49999 0, .create 0 0 keyA oneText,
    .delete 49997 0, .create 0 0 keyA textAndInts]

abbrev overlapAt (n : Nat) : ZgdbFile Nat := stateAt 0 overlapCalls n

theorem overlap_returns : ∀ n < 6, ∀ call ∈ overlapCalls[n]?,
    (call.exec flatEnv (overlapAt n)).isSome ∧ Live (overlapAt n) 0 ∧
      needsExpansion (overlapAt n) = false := by
  decide +kernel

/-- What is deleted is the second son, and has no sons. -/
theorem overlap_sons : ∀ x ∈ [(2, 49997, 49999), (4, 49996, 49997)],
    sonOf (overlapAt x.1) 0 = some x.2.1 ∧ brotherOf (overlapAt x.1) x.2.1 = some x.2.2 ∧
      Live (overlapAt x.1) x.2.2 ∧ (getDocumentHeader (overlapAt x.1) x.2.2).indexSon = 0 := by
  decide +kernel

theorem overlap_create {n : Nat} {schema : DocumentSchema} (hn : n < 6)
    (hcall : overlapCalls[n]? = some (.create 0 0 keyA schema)) (hbuilt : schema.Built)
    (hcomplete : schema.Complete) : (Call.create 0 0 keyA schema).Legal (overlapAt n) ∧
      (Call.create 0 0 keyA schema).Simple (overlapAt n) ∧ True := by
  obtain ⟨-, hlive, hexp⟩ := overlap_returns n hn _ hcall
  exact ⟨⟨hlive, hbuilt, hcomplete⟩, hexp, trivial⟩

theorem overlap_delete {n d : Nat} (a : Nat) (hn : n < 6) (hd : d ≠ 0)
    (hcall : overlapCalls[n]? = some (.delete d 0))
    (h : (n, a, d) ∈ [(2, 49997, 49999), (4, 49996, 49997)]) :
    (Call.delete d 0).Legal (overlapAt n) ∧ (Call.delete d 0).Simple (overlapAt n) ∧ True := by
  obtain ⟨-, hroot, -⟩ := overlap_returns n hn _ hcall
  obtain ⟨h1, h2, hlive, hleaf⟩ := overlap_sons _ h
  exact ⟨⟨hlive, hd, hroot, .next (.first h1) h2⟩, hleaf, trivial⟩

theorem overlap_step {n : Nat} {call : Call} (hn : n < 6) (hcall : overlapCalls[n]? = some call) :
    call.Legal (overlapAt n) ∧ call.Simple (overlapAt n) ∧ True := by
  match n, hn with
  | 0, hn =>
    obtain rfl := Option.some.inj hcall
    exact overlap_create hn rfl onlyInt_built rfl
  | 1, hn | 3, hn =>
    obtain rfl := Option.some.inj hcall
    exact overlap_create hn rfl oneText_built rfl
  | 5, hn =>
    obtain rfl := Option.some.inj hcall
    exact overlap_create hn rfl textAndInts_built rfl
  | 2, hn =>
    obtain rfl := Option.some.inj hcall
    exact overlap_delete 49997 hn (by decide) rfl (by decide)
  | 4, hn =>
    obtain rfl := Option.some.inj hcall
    exact overlap_delete 49996 hn (by decide) rfl (by decide)

theorem overlap_run : ∃ left, Run (Call.exec flatEnv)
    (fun file call => call.Legal file ∧ call.Unexpanded file ∧ True) (init 0) overlapCalls
    ((overlapAt 6).withFree left) := by
  refine run_stateAt (fun _ _ _ h => h) (by simp [overlapCalls, indexInitialCapacity]) ?_
  intro n call hcall
  have hn : n < 6 := (List.getElem?_eq_some_iff.mp hcall).1
  exact ⟨(overlap_returns n hn call hcall).1, overlap_step hn hcall⟩

theorem textsRead_withFree (file : ZgdbFile A) (list : FreeIndexesList) (k : Nat) :
    textsRead (file.withFree list) k = textsRead file k := by
  have hdoc : documentAt (file.withFree list) k 0 = documentAt file k 0 := rfl
  rw [textsRead, entries, elementEntries_withFree, hdoc]
  rfl

/-- The last number of the document, as it is found. -/
def overlapEntry : ElementEntry where
  type := ElementType.int.code
  key := keyD
  value := none
  offsetInDocument := 142

def stringKeyD : CString := ⟨[100], keyD.noNul⟩

/-- `25088`, whose second byte is the letter `b`. -/
def overlapInput : CString := ⟨[50, 53, 48, 56, 56], by decide⟩

theorem overlap_end : (getDocumentHeader (overlapAt 6) 0).indexSon = 49998 ∧
    (getDocumentHeader (overlapAt 6) 49998).indexAttached = 49998 ∧
    firstElement (overlapAt 6) (documentAt (overlapAt 6) 49998 0) stringKeyD = some overlapEntry ∧
    textsRead (overlapAt 6) 49998 = [(keyA, ⟨[], by decide⟩)] ∧
    textsRead (fwriteAt intK (overlapAt 6) (blockPos (overlapAt 6) 49998) (142 + elementHead) 25088)
      49998 = [(keyA, ⟨[98], by decide⟩)] := by
  decide +kernel

theorem overlapInput_int : str2int overlapInput = (.success, some 25088) := by
  decide +kernel

/-- **The update of a number changes a text** of the same document, which `createDocument` has just
written. -/
theorem number_changes_text : ∃ (file' file'' : ZgdbFile Nat) (n : Nat) (e : ElementEntry),
    Run (Call.exec flatEnv) (fun file call => call.Legal file ∧ call.Unexpanded file) (init 0)
      (overlapCalls.dropLast ++ [.create 0 0 keyA textAndInts]) file' ∧
      (getDocumentHeader file' 0).indexSon = n ∧
      firstElement file' (documentAt file' n 0) stringKeyD = some e ∧
      e.type = ElementType.int.code ∧
      updateElement flatEnv.strtod file' (documentAt file' n 0) stringKeyD overlapInput
        = some (.updateOk, file'') ∧
      textsRead file' n = [(keyA, ⟨[], by decide⟩)] ∧
      textsRead file'' n = [(keyA, ⟨[98], by decide⟩)] := by
  obtain ⟨left, hrun⟩ := overlap_run
  obtain ⟨hson, hatt, hfirst, hread, hset⟩ := overlap_end
  have hcalls : overlapCalls = overlapCalls.dropLast ++ [.create 0 0 keyA textAndInts] := rfl
  rw [hcalls] at hrun
  generalize overlapAt 6 = file at hrun hson hatt hfirst hread hset
  have hfirst' : firstElement (file.withFree left) (documentAt (file.withFree left) 49998 0)
      stringKeyD = some overlapEntry := by
    rw [firstElement, elementEntries_withFree]
    exact hfirst
  have hblock : (documentAt (file.withFree left) 49998 0).header.indexAttached = 49998 := hatt
  have hupdate : updateElement flatEnv.strtod (file.withFree left) _ stringKeyD overlapInput = _ :=
    updateElement_int hfirst' rfl overlapInput_int
  rw [hblock] at hupdate
  refine ⟨_, _, 49998, overlapEntry, hrun.mono fun _ _ h => ⟨h.1, h.2.1⟩, hson, hfirst', rfl,
    hupdate, ?_, ?_⟩
  · rw [textsRead_withFree]
    exact hread
  · exact (textsRead_withFree _ left _).trans hset

end Zgdb
