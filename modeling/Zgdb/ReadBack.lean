/-
# The texts of a new document, as they were added

`writeElement` and `nextEl` have the same rule for the last chunk of a text: it takes the remainder
of the size.  When the size, with the terminator, is a multiple of `CHUNK_SIZE` the remainder is 0
and the last chunk stays empty.  From `2 ^ 31` bytes on the size is negative as an `int`.  Where
neither is the case the texts read back as they were added, in whatever order they stand between
elements of other types; where one of them is, they do not (`texts_read_back`).

That a text of `2 ^ 31` bytes or more does not read back needs nothing of what was written for it:
no count of chunks is above `2 ^ 26`, so `nextEl` returns no text of more than `2 ^ 31` characters.
-/
import Zgdb.Accounting

namespace Zgdb

namespace Sized

open Zgdb.Lib AddrSpace

variable {A : Type} [BlockSpace A]

/-! ## 1. What can be read

The reader is bounded by the count of the chunks, and this by the cast to `int`.  It is a bound on
what comes back, for any bytes in the file. -/

/-- The texts of a list of entries, each with its key. -/
def textsIn (entries : List ElementEntry) : List (Name × CString) :=
  entries.filterMap fun e => (e.value.bind ElementValue.content).map (e.key, ·)

/-- The texts that the loop over `nextEl` returns for document `k`; `none` is a loop that does not
end. -/
def textsRead (beyond : Mem Nat Obj) (file : ZgdbFile A) (k : Nat) :
    Option (List (Name × CString)) :=
  (drainEl beyond file true (getDocumentHeader file k).attrCount
    (createElIterator file (documentAt file k 0))).map fun r => textsIn r.1

/-- The loop over the chunks copies at most 32 characters from each. -/
theorem length_readChunks_le {file : ZgdbFile A} {lastLen : Nat} (hlast : lastLen ≤ chunkSize) :
    ∀ (n : Nat) (cur : Cursor A), (readChunks file lastLen n cur).length ≤ chunkSize * n := by
  intro n
  induction n with
  | zero => exact fun _ => Nat.le_refl _
  | succ n ih =>
    intro cur
    have hrest := ih (cur.advance file (cur.chunk file))
    have hfirst : ((cur.chunk file).data.take (if n = 0 then lastLen else chunkSize)).length
        ≤ chunkSize := by
      refine (List.length_take_le _ _).trans ?_
      split
      · exact hlast
      · exact Nat.le_refl _
    rw [readChunks, List.length_append, Nat.mul_succ]
    omega

/-- What `strcpy` takes from a buffer that was cleared before `bs` was copied to it. -/
theorem strlen_cString_fit_le (n : Nat) (bs : List UInt8) :
    (cString (fit n bs)).strlen ≤ bs.length := by
  show ((bs.take n ++ pad (n - bs.length)).takeWhile (· ≠ 0)).length ≤ bs.length
  rw [List.takeWhile_append]
  have hpad : (pad (n - bs.length)).takeWhile (· ≠ 0) = [] := by
    cases n - bs.length <;> simp [pad, List.replicate_succ]
  have hle := (List.takeWhile_prefix (· ≠ 0) (l := bs.take n)).length_le
  have htake := List.length_take_le' n bs
  split
  · rw [hpad, List.append_nil]
    exact htake
  · exact hle.trans htake

theorem intCut_rem_le (size : Nat) : intCut.rem size ≤ chunkSize := by
  have hlt : rem size < 32 := Int.tmod_lt_of_pos _ (by decide)
  show (rem size).toNat ≤ 32
  omega

/-- **No text of more than `2 ^ 31` characters is read.** -/
theorem strlen_readText_le (file : ZgdbFile A) (t : Nat) (f : FirstTextChunk) :
    (@readText A _ intCut file t f).data.strlen ≤ 2 ^ 31 := by
  refine (strlen_cString_fit_le _ _).trans ?_
  refine (length_readChunks_le (intCut_rem_le _) _ _).trans ?_
  have hle := intCut_chunks_le f.size
  unfold chunkSize
  omega

theorem strlen_readElement_le {h : Handle A} {doc : Document} {txt : Text}
    (hv : (@Handle.readElement A _ intCut h doc).1.value = some (.text txt)) :
    txt.data.strlen ≤ 2 ^ 31 := by
  rw [@Handle.readElement_eq A _ intCut] at hv
  simp only [readValue] at hv
  repeat' split at hv
  all_goals first
    | cases hv; exact strlen_readText_le _ _ _
    | cases hv

theorem strlen_readElements_le {doc : Document} {txt : Text} {n : Nat} :
    ∀ {h : Handle A}, ∀ x ∈ (@Handle.readElements A _ intCut doc n h).1,
      x.2.value = some (.text txt) → txt.data.strlen ≤ 2 ^ 31 := by
  induction n with
  | zero => exact fun _ hx => absurd hx List.not_mem_nil
  | succ n ih =>
    intro h x hx hv
    rcases List.mem_cons.mp hx with rfl | hx
    · exact strlen_readElement_le hv
    · exact ih x hx hv

/-- The loop over `nextEl` returns what `readElement` reads, or does not end. -/
theorem textsRead_some {beyond : Mem Nat Obj} {file : ZgdbFile A} {k : Nat}
    {texts : List (Name × CString)} (h : textsRead beyond file k = some texts) :
    ∀ x ∈ texts, x.2.strlen ≤ 2 ^ 31 := by
  obtain ⟨⟨entries, it'⟩, hdrain, rfl⟩ := Option.map_eq_some_iff.mp h
  obtain ⟨it1, hrun, -⟩ := @Follows.drain A _ beyond intCut file (documentAt file k 0) true
    (getDocumentHeader file k).attrCount _ _ _ (follows_elementStream file (documentAt file k 0))
    rfl rfl (Nat.zero_add _).symm (Nat.le_refl _)
  have hentries := (Prod.mk.inj (Option.some.inj (hrun.symm.trans (drainEl_eq_some.mp hdrain).1))).1
  rintro ⟨key, v⟩ hx
  obtain ⟨e, he, hev⟩ := List.mem_filterMap.mp hx
  obtain ⟨v', hv', hkey⟩ := Option.map_eq_some_iff.mp hev
  obtain ⟨-, rfl⟩ := Prod.mk.inj hkey
  obtain ⟨val, hval, hcontent⟩ := Option.bind_eq_some_iff.mp hv'
  rw [← hentries] at he
  obtain ⟨r, hr, rfl⟩ := List.mem_map.mp he
  cases val with
  | text txt =>
    cases hcontent
    exact strlen_readElements_le r hr hval
  | _ => cases hcontent

/-! ## 2. What is read of a new document

For a text below `2 ^ 31` bytes the cut with the casts is the one without, so what the iterator
returns for the new document is known from `RoundTrip.lean`. -/

section Stored

variable {file : ZgdbFile A} {t d used : Nat} {elements : List Element}

/-- A text that is cut as the source does reads the same. -/
theorem readText_eq {c : TextCut} {f : FirstTextChunk} (h : Cuts c f.size) :
    @readText A _ intCut file t f = @readText A _ c file t f := by
  simp only [readText, h.chunks_eq, h.rem]

/-- So do the elements of a schema, where they are stored. -/
theorem entriesOf_eq {c : TextCut} (h : ∀ e ∈ elements, CutBy c e) :
    @entriesOf A _ intCut file t true d (@storeElements c used elements)
      = @entriesOf A _ c file t true d (@storeElements c used elements) := by
  induction elements generalizing d used with
  | nil => rfl
  | cons e rest ih =>
    obtain ⟨key, v⟩ := e
    refine congrArg₂ List.cons ?_ (ih fun x hx => h x (List.mem_cons_of_mem _ hx))
    cases v with
    | text txt =>
      have hc : Cuts c txt.size := h _ List.mem_cons_self txt rfl
      simp only [storeElement, StoredValue.read,
        readText_eq (f := { size := txt.size, offsetInToast := used * chunkRecord }) hc]
    | _ => rfl

/-- **What the loop over `nextEl` returns for a new document** no text of which is counted wrong. -/
theorem textsRead_newDocument {schema : DocumentSchema} {n : Nat} (beyond : Mem Nat Obj)
    (hnew : NewDocument file schema n) (hwf : schema.Wf) (hcomplete : schema.Complete)
    (hcut : ∀ e ∈ schema.elements, CutBy natCut e) :
    textsRead beyond file n = some (Zgdb.textsRead file n) := by
  have hcount : (getDocumentHeader file n).attrCount
      = (storeElements 0 schema.elements).length := by
    rw [hnew.count, storeElements_length, ← hwf.size_eq]
    exact hcomplete
  have hholds := holdsElements_documentAt hnew.attached hnew.holds 0
  obtain ⟨it', hrun, -⟩ := @Follows.drain A _ beyond intCut file (documentAt file n 0) true
    (getDocumentHeader file n).attrCount _ _ _ (follows_elementStream file (documentAt file n 0))
    rfl rfl (Nat.zero_add _).symm (Nat.le_refl _)
  have hread := (@Handle.readElements_of_holds A _ intCut (documentAt file n 0)
    (storeElements 0 schema.elements) (elementStream file (documentAt file n 0)) hholds).1
  rw [hcount, hread] at hrun
  have hsame : elementEntries file (documentAt file n 0) true
      = @entriesOf A _ intCut file (documentAt file n 0).header.firstToastIndex true
        sizeofDocumentHeader (storeElements 0 schema.elements) := by
    rw [elementEntries_eq hcount hholds, entriesOf_eq hcut]
  have hsizes : ∀ e ∈ @entriesOf A _ intCut file (documentAt file n 0).header.firstToastIndex true
      sizeofDocumentHeader (storeElements 0 schema.elements), ∀ txt, e.value = some (.text txt) →
      ∃ x ∈ schema.elements, ∃ txt', x.value = .text txt' ∧ txt.size = txt'.size := by
    rw [entriesOf_eq hcut]
    exact fun e he txt hv => size_of_mem_entriesOf he hv
  rw [textsRead, hcount, drainEl_eq_some.mpr ⟨hrun, ?_⟩]
  · show some (textsIn _) = some (Zgdb.textsRead file n)
    rw [Zgdb.textsRead, entries, hsame]
    rfl
  · intro e he
    rcases hv : e.value with _ | v
    · rfl
    cases v with
    | text txt =>
      obtain ⟨x, hx, txt', hx', hsize⟩ := hsizes e he txt hv
      have hends := (hcut x hx).ends
      rw [hx'] at hends
      simpa only [Option.all_some, ends, hsize] using hends
    | _ => rfl

end Stored

/-! ## 3. The round trip

One direction is section 2.  For the other, a text that is too long is longer than what can be read,
and one that fills its last chunk reads back without the characters of it. -/

section RoundTrip

variable {expandIndexes : ZgdbFile A → Option (ZgdbFile A)} {now : UInt32} {file file' : ZgdbFile A}
  {name : Name} {schema : DocumentSchema} {parent : Document} {capacity : Nat}
  {calls : List AddCall} {statuses : List AddStatus}

/-- The texts that fill a slot are below `2 ^ 31` bytes, and none of them fills its last chunk. -/
def AllPartial (capacity : Nat) (calls : List AddCall) : Prop :=
  ∀ key v, AddCall.text key v ∈ accepted capacity [] calls →
    v.strlen + 1 < 2 ^ 31 ∧ (v.strlen + 1) % chunkSize ≠ 0

/-- A creation returns only if the loops over all texts end. -/
theorem countable_of_createDocument
    (hcalls : addAll (initSchema capacity) calls = some (statuses, schema))
    (hc : createDocument expandIndexes now file name schema parent = some (.createOk, file')) :
    schema.Complete ∧ AllCountable capacity calls := by
  obtain ⟨hfilled, -, hlt⟩ := addAll_filled (filled_initSchema capacity) hcalls
  unfold createDocument at hc
  split at hc
  · cases hc
  · rename_i hcomplete
    split at hc
    · rename_i hends
      exact ⟨not_not.mp hcomplete, countable_of_ends hfilled hlt (List.all_eq_true.mp hends)⟩
    · cases hc

/-- The texts that are added are those of the calls. -/
theorem mem_textsAdded (hfilled : schema.Filled capacity (accepted capacity [] calls)) {key : Name}
    {v : CString} (hv : AddCall.text key v ∈ accepted capacity [] calls) :
    (key, v) ∈ textsAdded schema := by
  refine List.mem_filterMap.mpr ⟨(AddCall.text key v).element, ?_, rfl⟩
  rw [hfilled.elements_eq]
  exact List.mem_map_of_mem hv

/-- Below `2 ^ 31` bytes nothing is lost but what the last chunks lose. -/
theorem textsRead_iff (hcalls : addAll (initSchema capacity) calls = some (statuses, schema))
    (hplace : ∀ file1, expanded expandIndexes file = some file1 →
      Arranged file1 parent.header.indexAttached)
    (hc : createDocument expandIndexes now file name schema parent = some (.createOk, file'))
    (hshort : ∀ key v, AddCall.text key v ∈ accepted capacity [] calls → v.strlen + 1 < 2 ^ 31)
    (beyond : Mem Nat Obj) :
    textsRead beyond file' (getDocumentHeader file' parent.header.indexAttached).indexSon
      = some (textsAdded schema) ↔ AllPartial capacity calls := by
  have hcut : ∀ call ∈ accepted capacity [] calls, CutBy natCut call.element := by
    rintro call hx txt htxt
    cases call with
    | text key v =>
      cases htxt
      exact cuts_natCut (hshort key v hx)
    | _ => cases htxt
  obtain ⟨hcomplete, -⟩ := countable_of_createDocument hcalls hc
  obtain ⟨hfilled, -, -⟩ := addAll_filled (filled_initSchema capacity) hcalls
  have hbuilt : schema.Built := by
    obtain ⟨hbuilt, -, -⟩ := addAll_spec calls (.init capacity)
    rw [addAll_eq (filled_initSchema capacity) hcut, Option.some.injEq] at hcalls
    rwa [hcalls] at hbuilt
  have hcuts : ∀ e ∈ schema.elements, CutBy natCut e := by
    rw [hfilled.elements_eq]
    exact List.forall_mem_map.mpr hcut
  rw [createDocument_eq hcuts] at hc
  obtain ⟨n, own, rfl, hblocks⟩ := createDocument_newBlocks hbuilt.wf hcomplete hplace hc
  have hnew := hblocks.newDocument
  rw [textsRead_newDocument beyond hnew hbuilt.wf hcomplete hcuts, Option.some.injEq,
    hnew.textsRead hbuilt.wf hcomplete, hfilled.elements_eq, List.forall_mem_map]
  constructor
  · intro h key v hv
    exact ⟨hshort key v hv, h _ hv _ rfl⟩
  · rintro h call hx txt htxt
    cases call with
    | text key v =>
      cases htxt
      exact (h key v hx).2
    | _ => cases htxt

/-- **The texts of a new document read back** exactly when each of them has fewer than `2 ^ 31`
bytes with its terminator and none fills its last chunk. -/
theorem texts_read_back (hcalls : addAll (initSchema capacity) calls = some (statuses, schema))
    (hplace : ∀ file1, expanded expandIndexes file = some file1 →
      Arranged file1 parent.header.indexAttached)
    (hc : createDocument expandIndexes now file name schema parent = some (.createOk, file')) :
    (∀ beyond,
      textsRead beyond file' (getDocumentHeader file' parent.header.indexAttached).indexSon
        = some (textsAdded schema)) ↔ AllPartial capacity calls := by
  constructor
  · intro h
    have hread := h fun _ => file'.mem (BlockSpace.base 0 0)
    refine (textsRead_iff hcalls hplace hc ?_ _).mp hread
    intro key v hv
    obtain ⟨hfilled, -, -⟩ := addAll_filled (filled_initSchema capacity) hcalls
    have hle : v.strlen ≤ 2 ^ 31 := textsRead_some hread (key, v) (mem_textsAdded hfilled hv)
    rcases (countable_of_createDocument hcalls hc).2 key v hv with hlt | hlt
    · exact hlt
    · omega
  · intro h beyond
    exact (textsRead_iff hcalls hplace hc (fun key v hv => (h key v hv).1) beyond).mpr h

end RoundTrip

/-- The first document of a store, of a schema whose texts are below `2 ^ 31` bytes. -/
theorem createDocument_first {schema : DocumentSchema} (hbuilt : schema.Built)
    (hcomplete : schema.Complete) (hcut : ∀ e ∈ schema.elements, CutBy natCut e) :
    ∃ file' : ZgdbFile RecordPos,
      createDocument expandRecords 0 (init 0) keyA schema
        (documentAt (init 0 : ZgdbFile RecordPos) 0 0)
        = some (.createOk, file') := by
  obtain ⟨file', hrun, -⟩ := newDocument_first recordEnv hbuilt hcomplete
  exact ⟨file', (createDocument_eq hcut).trans hrun⟩

/-- A text of two chunks, an int and a text of one chunk. -/
def mixedCalls : List AddCall := [.text keyA string40, .int keyB 7, .text keyC stringA]

def mixedSchema : DocumentSchema :=
  { capacity := 3, size := 3, sizeOfElements := 70, minToastCapacity := 3, reqToast := true
    elements := [⟨keyA, .text (Text.ofString string40)⟩, ⟨keyB, .int 7⟩,
      ⟨keyC, .text (Text.ofString stringA)⟩] }

theorem mixedCalls_schema : addAll (initSchema 3) mixedCalls
    = some ([.addOk, .addOk, .addOk], mixedSchema) := by decide

theorem mixedSchema_built : mixedSchema.Built :=
  .text keyC stringA (.int keyB 7 (.text keyA string40 (.init 3)))

/-- An int between two texts, in a new store. -/
theorem texts_read_back_init : ∃ file' : ZgdbFile RecordPos,
    createDocument expandRecords 0 (init 0) keyA mixedSchema
        (documentAt (init 0 : ZgdbFile RecordPos) 0 0) = some (.createOk, file') ∧
      ∀ beyond, textsRead beyond file' (getDocumentHeader file' 0).indexSon
        = some [(keyA, string40), (keyC, stringA)] := by
  have hatt : (documentAt (init 0 : ZgdbFile RecordPos) 0 0).header.indexAttached = 0 :=
    init_store.attached List.mem_cons_self
  have hcut : ∀ e ∈ mixedSchema.elements, CutBy natCut e := by
    simp only [mixedSchema, List.forall_mem_cons]
    refine ⟨?_, ?_, ?_, by simp⟩ <;>
    · intro txt htxt
      cases htxt
      try exact cuts_natCut (by decide)
  obtain ⟨file', hrun⟩ := createDocument_first mixedSchema_built (by decide) hcut
  refine ⟨file', hrun, ?_⟩
  have h := (texts_read_back mixedCalls_schema
    (fun file1 he => hatt.symm ▸ arranged_init recordEnv he) hrun).mpr (by
      intro key v hv
      have hmem : AddCall.text key v ∈
        [.text keyA string40, .int keyB 7, .text keyC stringA] := hv
      simp only [List.mem_cons, AddCall.text.injEq, reduceCtorEq, List.not_mem_nil, or_false,
        false_or] at hmem
      rcases hmem with ⟨-, rfl⟩ | ⟨-, rfl⟩ <;> decide)
  rwa [hatt] at h

/-- A schema of a text that fills its chunk. -/
def fullText : DocumentSchema := (Zgdb.addTextToSchema (initSchema 1) keyA string31).2

/-- A text of 31 characters does not read back. -/
theorem full_text_lost : ∃ file' : ZgdbFile RecordPos,
    addAll (initSchema 1) [.text keyA string31] = some ([.addOk], fullText) ∧
      createDocument expandRecords 0 (init 0) keyA fullText
        (documentAt (init 0 : ZgdbFile RecordPos) 0 0) = some (.createOk, file') ∧
      ∀ beyond, textsRead beyond file' (getDocumentHeader file' 0).indexSon
        ≠ some (textsAdded fullText) := by
  have hatt : (documentAt (init 0 : ZgdbFile RecordPos) 0 0).header.indexAttached = 0 :=
    init_store.attached List.mem_cons_self
  have hcalls : addAll (initSchema 1) [.text keyA string31] = some ([.addOk], fullText) := by decide
  have hcut : ∀ e ∈ fullText.elements, CutBy natCut e := by
    intro e he txt htxt
    obtain rfl := List.mem_singleton.mp he
    cases htxt
    exact cuts_natCut (by decide)
  obtain ⟨file', hrun⟩ := createDocument_first (.text keyA string31 (.init 1) : fullText.Built)
    (by decide) hcut
  refine ⟨file', hcalls, hrun, fun beyond hread => ?_⟩
  have hshort : ∀ key v, AddCall.text key v ∈ accepted 1 [] [.text keyA string31] →
      v.strlen + 1 < 2 ^ 31 := by
    intro key v hv
    have hmem : AddCall.text key v ∈ [.text keyA string31] := hv
    simp only [List.mem_singleton, AddCall.text.injEq] at hmem
    obtain ⟨-, rfl⟩ := hmem
    decide
  have hiff := textsRead_iff hcalls
    (fun file1 he => hatt.symm ▸ arranged_init recordEnv he) hrun hshort beyond
  rw [hatt] at hiff
  exact absurd (hiff.mp hread keyA string31 List.mem_cons_self).2 (by decide)

end Sized

end Zgdb
