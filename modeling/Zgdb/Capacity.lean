/-
# The blocks of a new document are large enough

`createDocument` asks for a toast of `2 * minToastCapacity` chunk records and leaves the toast
header out of the request.  A NEW index gets a block with the header added, a DEAD one is taken as
it is.  The factor 2 makes up for it: one record is larger than the header, so in either case the
chunks of all texts lie in the block behind the header (`blocks_large_enough`).

The writes are those of the file stream (`Handle.log`), one list for each call of `writeElement`.
-/
import Zgdb.Accounting

namespace Zgdb

open Zgdb.Lib AddrSpace

variable {A : Type} [BlockSpace A]

/-! ## 1. The writes of the elements

Each call of `writeElement` leaves a list of writes.  They go to three places, and the records of
different calls to different slots. -/

/-- The writes of each call of `writeElement` in the loop of `createDocument`. -/
def Handle.writeLogs [TextCut] (firstToastIndex : Nat) : List Element → Handle A →
    List (List (Extent A))
  | [], _ => []
  | cur :: rest, h =>
    let next := (h.writeElement cur firstToastIndex).1
    next.log.drop h.log.length :: next.writeLogs firstToastIndex rest

/-- The write lies in the block at `pos` from `lo` on, below `hi`. -/
def Extent.Within (pos : A) (lo hi : Nat) (w : Extent A) : Prop :=
  w.pos = pos ∧ lo ≤ w.disp ∧ w.disp + w.size ≤ hi

omit [BlockSpace A] in
theorem Extent.Within.mono {pos : A} {lo hi lo' hi' : Nat} {w : Extent A}
    (h : w.Within pos lo hi) (hlo : lo' ≤ lo) (hhi : hi ≤ hi') : w.Within pos lo' hi' :=
  ⟨h.1, hlo.trans h.2.1, h.2.2.trans hhi⟩

omit [BlockSpace A] in
/-- The two writes of a record lie in its slot. -/
theorem Handle.recordLog_within {pos : A} {slot : Nat} {w : Extent A}
    (hw : w ∈ recordLog pos slot) :
    w.Within pos (sizeofToast + slot * chunkRecord) (sizeofToast + (slot + 1) * chunkRecord) := by
  simp only [recordLog, List.mem_cons, List.not_mem_nil, or_false] at hw
  rcases hw with rfl | rfl
  · refine ⟨rfl, Nat.le_refl _, ?_⟩
    simp only [byteK, chunkRecord, sizeofTextChunk]
    omega
  · refine ⟨rfl, Nat.le_add_right _ _, ?_⟩
    simp only [byteK, textChunkK, chunkRecord, sizeofTextChunk]
    omega

/-- A write of an element is in the document, is the toast header, or is in the slots the element
gets. -/
def ElementWrite (pos toastPos : A) (d n used chunks : Nat) (w : Extent A) : Prop :=
  w.Within pos d (d + n) ∨ w = ⟨toastPos, 0, sizeofToast⟩ ∨
    w.Within toastPos (sizeofToast + used * chunkRecord)
      (sizeofToast + (used + chunks) * chunkRecord)

section Logs

variable {L : Layout A} {own : List Nat} {k t : Nat} {file : ZgdbFile A}

/-- The head of an element leaves the toast header as it is. -/
theorem Area.toastAt_head (h : Area L file own) {d : Nat} (hk : L.mem k) (hkt : k ∉ own)
    (hd : d + elementHead ≤ L.len k) (code : UInt8) (key : Name) (ht : t ∈ own) :
    toastAt (fwriteAt nameK (fwriteAt byteK file (L.pos k) d code) (L.pos k) (d + 1) key) t
      = toastAt file t := by
  have hb : d + byteK.size ≤ L.len k := by
    simp only [byteK, elementHead] at hd ⊢
    omega
  have hm : d + 1 + nameK.size ≤ L.len k := by
    simp only [nameK, elementHead] at hd ⊢
    omega
  have h1 : Writes L (Layout.span k d (d + byteK.size)) file
      (fwriteAt byteK file (L.pos k) d code) := writes_fwriteAt hk hb
  have h2 : Writes L (Layout.span k (d + 1) (d + 1 + nameK.size))
      (fwriteAt byteK file (L.pos k) d code)
      (fwriteAt nameK (fwriteAt byteK file (L.pos k) d code) (L.pos k) (d + 1) key) :=
    writes_fwriteAt hk hm
  have hne : ∀ x ∈ own, ∀ y, ∀ lo hi, ¬ Layout.span k lo hi x y := fun x hx y lo hi hs =>
    hkt (hs.1 ▸ hx)
  have harea := h.writes h1 fun x hx y _ => hne x hx y _ _
  rw [(harea.toastAt_eq h2 ht fun y _ => hne t ht y _ _).2,
    (h.toastAt_eq h1 ht fun y _ => hne t ht y _ _).2]

/-- **The writes of one element.** -/
theorem elementLog_within [TextCut] {d used : Nat} (e : Element) (hk : L.mem k)
    (hd : d + getElementSize e ≤ L.len k) (h : Area L file own) (hkt : k ∉ own)
    (hused : ∀ x ∈ own, x = t ∧ (toastAt file x).used = used)
    (htext : e.value.type = .text → t ∈ own) :
    ∀ w ∈ Handle.elementLog file (L.pos k) d e t,
      ElementWrite (L.pos k) (L.pos t) d (getElementSize e) used e.chunks w := by
  have hhead : d + elementHead ≤ L.len k := by
    unfold getElementSize at hd
    omega
  intro w hw
  simp only [Handle.elementLog, List.mem_cons] at hw
  rcases hw with rfl | rfl | hw
  · refine Or.inl ⟨rfl, Nat.le_refl _, ?_⟩
    simp only [byteK, getElementSize, elementHead]
    omega
  · refine Or.inl ⟨rfl, Nat.le_add_right _ _, ?_⟩
    simp only [byteK, nameK, getElementSize, elementHead]
    omega
  · obtain ⟨key, v⟩ := e
    have hvalue : ∀ n, n = v.type.valueSize → w = ⟨L.pos k, d + elementHead, n⟩ →
        ElementWrite (L.pos k) (L.pos t) d (getElementSize ⟨key, v⟩) used
          (Element.chunks ⟨key, v⟩) w := by
      rintro n rfl rfl
      refine Or.inl ⟨rfl, Nat.le_add_right _ _, ?_⟩
      simp only [getElementSize]
      omega
    cases v with
    | text txt =>
      have ht : t ∈ own := htext rfl
      have hread := h.toastAt_head hk hkt hhead (ElementValue.text txt).type.code key ht
      have hpos : blockPos (fwriteAt nameK (fwriteAt byteK file (L.pos k) d
          (ElementValue.text txt).type.code) (L.pos k) (d + 1) key) t = L.pos t :=
        (h.shows t ht).pos.symm
      simp only [toastAt] at hread
      simp only [Handle.valueLog, hread, List.mem_cons, List.mem_append, List.mem_flatMap,
        List.mem_range'_1, List.not_mem_nil, or_false] at hw
      rcases hw with hw | ⟨i, hi, hw⟩ | hw
      · exact hvalue _ rfl hw
      · rw [hpos] at hw
        have hu : (freadAt toastK file (blockPos file t) 0).used = used := (hused t ht).2
        rw [hu] at hi
        refine Or.inr (Or.inr ((Handle.recordLog_within hw).mono ?_ ?_))
        · exact Nat.add_le_add_left (Nat.mul_le_mul_right _ hi.1) _
        · exact Nat.add_le_add_left (Nat.mul_le_mul_right _ hi.2) _
      · rw [hpos] at hw
        subst hw
        exact Or.inr (Or.inl rfl)
    | boolean v => exact hvalue _ rfl (List.mem_singleton.mp hw)
    | int v => exact hvalue _ rfl (List.mem_singleton.mp hw)
    | double v => exact hvalue _ rfl (List.mem_singleton.mp hw)

/-- Writes into the slots of the toast at `pos`: every write of the first list ends before every
write of the second begins. -/
def RecordsApart (pos : A) (log log' : List (Extent A)) : Prop :=
  ∀ w ∈ log, ∀ w' ∈ log', w.pos = pos → w'.pos = pos → sizeofToast ≤ w.disp →
    sizeofToast ≤ w'.disp → w.disp + w.size ≤ w'.disp

/-- **The writes of all elements**: each in its place, and the records of different elements one
behind the other. -/
theorem writeLogs_spec [TextCut] (elements : List Element) {file : ZgdbFile A} {d used : Nat}
    {log : List (Extent A)} (hk : L.mem k) (hd : d + (elements.map getElementSize).sum ≤ L.len k)
    (h : Area L file own) (hkt : k ∉ own)
    (hused : ∀ x ∈ own, x = t ∧ (toastAt file x).used = used ∧
      sizeofToast + (used + chunksOf elements) * chunkRecord ≤ L.len x)
    (htext : ∀ e ∈ elements, e.value.type = .text → t ∈ own) (ht : t ∈ own) :
    (∀ l ∈ Handle.writeLogs t elements ⟨file, L.pos k, d, log⟩, ∀ w ∈ l,
      ElementWrite (L.pos k) (L.pos t) d (elements.map getElementSize).sum used
        (chunksOf elements) w) ∧
      (Handle.writeLogs t elements ⟨file, L.pos k, d, log⟩).Pairwise (RecordsApart (L.pos t)) := by
  induction elements generalizing file d used log with
  | nil => exact ⟨by simp [Handle.writeLogs], List.Pairwise.nil⟩
  | cons e rest ih =>
    rw [List.map_cons, List.sum_cons] at hd ⊢
    rw [chunksOf_cons] at hused ⊢
    have hde : d + getElementSize e ≤ L.len k := by omega
    have htexte : e.value.type = .text → t ∈ own := htext e List.mem_cons_self
    obtain ⟨hwrites, -, htoasts, -⟩ :=
      writeElement_spec e hk hde h hkt (fun x hx => ⟨(hused x hx).1,
      (hused x hx).2.1, le_trans (Nat.add_le_add_left (Nat.mul_le_mul_right _ (by omega)) _)
        (hused x hx).2.2⟩) htexte
    have hfirst := elementLog_within e hk hde h hkt
      (fun x hx => ⟨(hused x hx).1, (hused x hx).2.1⟩) htexte
    -- the rest is written in the file the first element leaves
    have harea : Area L (writeElement file (L.pos k) d e t).1 own :=
      ⟨fun x hx => hwrites.shows (h.shows x hx), fun x hx => (htoasts x hx).1, h.le_len⟩
    obtain ⟨hrest, hpair⟩ := ih (d := d + getElementSize e) (by omega) harea
      (fun x hx => ⟨(hused x hx).1, by rw [(htoasts x hx).2], by
        rw [Nat.add_assoc]
        exact (hused x hx).2.2⟩) fun x hx => htext x (List.mem_cons_of_mem _ hx)
    have hlogs : Handle.writeLogs t (e :: rest) ⟨file, L.pos k, d, log⟩
        = Handle.elementLog file (L.pos k) d e t ::
          Handle.writeLogs t rest ⟨(writeElement file (L.pos k) d e t).1, L.pos k,
            d + getElementSize e, log ++ Handle.elementLog file (L.pos k) d e t⟩ := by
      simp only [Handle.writeLogs, Handle.writeElement_eq, List.drop_left]
    -- the document and the toast start at different places
    have hne : L.pos k ≠ L.pos t := by
      intro he
      have hapart := L.apart hk (h.shows t ht).mem (fun hkt' => hkt (hkt' ▸ ht))
      have hlen : 0 < L.len k := by
        simp only [getElementSize, elementHead, sizeofName] at hde
        omega
      exact hapart 0 hlen 0 (Nat.lt_of_lt_of_le (by decide) (h.le_len t ht)) (by rw [he])
    have hslots : ∀ {d n used chunks : Nat} {w : Extent A},
        ElementWrite (L.pos k) (L.pos t) d n used chunks w → w.pos = L.pos t →
        sizeofToast ≤ w.disp → w.Within (L.pos t) (sizeofToast + used * chunkRecord)
          (sizeofToast + (used + chunks) * chunkRecord) := by
      rintro d n used chunks w (hw | rfl | hw) hpos hle
      · exact absurd (hw.1.symm.trans hpos) hne
      · exact absurd hle (Nat.not_le_of_lt (by decide : 0 < sizeofToast))
      · exact hw
    rw [hlogs]
    refine ⟨List.forall_mem_cons.mpr ⟨?_, ?_⟩, List.pairwise_cons.mpr ⟨?_, hpair⟩⟩
    · intro w hw
      rcases hfirst w hw with hw | hw | hw
      · exact Or.inl (hw.mono (Nat.le_refl _) (by omega))
      · exact Or.inr (Or.inl hw)
      · refine Or.inr (Or.inr (hw.mono (Nat.le_refl _) ?_))
        exact Nat.add_le_add_left (Nat.mul_le_mul_right _ (by omega)) _
    · intro l hl w hw
      rcases hrest l hl w hw with hw | hw | hw
      · exact Or.inl (hw.mono (Nat.le_add_right _ _) (by omega))
      · exact Or.inr (Or.inl hw)
      · refine Or.inr (Or.inr (hw.mono ?_ ?_)) <;>
          exact Nat.add_le_add_left (Nat.mul_le_mul_right _ (by omega)) _
    · intro l hl w hw w' hw' hpos hpos' hle hle'
      have h1 := hslots (hfirst w hw) hpos hle
      have h2 := hslots (hrest l hl w' hw') hpos' hle'
      exact h1.2.2.trans h2.2.1

end Logs

/-! ## 2. The two blocks

In a file whose blocks lie apart the two blocks that are chosen are apart from each other, so what
is written to one does not change where the other is. -/

/-- The stream at the start of the element loop, for a document in the block of the node `n`. -/
def elementLoop (file : ZgdbFile A) (n : RelevantIndexMeta) : Handle A where
  file := file
  pos := BlockSpace.base n.indexOrder (blockOffset file n.indexOrder)
  disp := sizeofDocumentHeader
  log := []

/-- The block of the node `n` and the toast `t` take a document: every write of the element loop
lies in the document, is the toast header, or lies in the toast behind its header; the records of
different elements do not overlap; the counts fit the capacities. -/
structure Suffices [TextCut] (file : ZgdbFile A) (schema : DocumentSchema) (t : Nat)
    (n : RelevantIndexMeta) : Prop where
  inside : ∀ log ∈ (elementLoop file n).writeLogs t schema.elements, ∀ w ∈ log,
    w.Within (elementLoop file n).pos sizeofDocumentHeader (docSize schema) ∨
      w = ⟨blockPos file t, 0, sizeofToast⟩ ∨
      w.Within (blockPos file t) sizeofToast (toastAt file t).capacity
  apart : ((elementLoop file n).writeLogs t schema.elements).Pairwise
    (RecordsApart (blockPos file t))
  used : (toastAt ((elementLoop file n).writeElements t schema.elements).1.file t).used
    = schema.minToastCapacity
  records : schema.minToastCapacity ≤ ((toastAt file t).capacity - sizeofToast) / chunkRecord
  document : docSize schema ≤ chosenCapacity n (docSize schema)

/-- The element loop in a file whose blocks lie apart, with a toast that has the room. -/
theorem suffices_of_placed [TextCut] {file : ZgdbFile A} {cap : Nat → Nat} {schema : DocumentSchema}
    {t : Nat} {n : Node} {list : FreeIndexesList} (h : Placed file cap) (hwf : schema.Wf)
    (halive : Alive file t) (htoast : IsToast file t) (hzero : (toastAt file t).used = 0)
    (hcapacity : (toastAt file t).capacity = cap t)
    (hle : sizeofToast + chunksOf schema.elements * chunkRecord ≤ cap t)
    (hfind : findRelevantIndex file.freeList (docSize schema) = some (n, list)) :
    Suffices { file with freeList := list } schema t n := by
  obtain ⟨hperm, -, hlarge⟩ := findRelevantIndex_spec h.sound (Nat.add_pos_left (by decide) _) hfind
  have hn : n ∈ file.freeList.nodes := hperm.mem_iff.mpr List.mem_cons_self
  have hlarge : n.blockSize = 0 ∨ docSize schema ≤ n.blockSize := hlarge
  have hcap : docSize schema ≤ chosenCapacity n (docSize schema) := by
    unfold chosenCapacity
    split
    · exact Nat.le_refl _
    · rename_i hne
      exact hlarge.resolve_left hne
  have htn : t ≠ n.indexOrder := fun he => h.not_alive hn (he ▸ halive)
  -- the layout: the used blocks and the new one
  obtain ⟨L, hL⟩ : ∃ L, L = h.extend hn (docSize schema) := ⟨_, rfl⟩
  have hpost : L.pos t = blockPos file t := hL ▸ h.extend_pos_other hn _ htn
  have hlent : L.len t = cap t := hL ▸ h.extend_len_other hn _ htn
  have hposn : L.pos n.indexOrder
      = BlockSpace.base n.indexOrder (blockOffset file n.indexOrder) :=
    hL ▸ h.extend_pos_self hn _
  have hlenn : L.len n.indexOrder = chosenCapacity n (docSize schema) :=
    hL ▸ h.extend_len_self hn _
  have hmemn : L.mem n.indexOrder := hL ▸ Or.inl rfl
  have hmemt : L.mem t := hL ▸ Or.inr (Or.inl halive)
  have hsum : sizeofDocumentHeader + (schema.elements.map getElementSize).sum = docSize schema := by
    rw [docSize, hwf.sizeOfElements_eq]
  have hroom : sizeofDocumentHeader + (schema.elements.map getElementSize).sum
      ≤ L.len n.indexOrder := by
    rw [hsum, hlenn]
    exact hcap
  -- the file of the loop differs from `file` in the free list
  have hblock : ∀ j, blockAt ({ file with freeList := list } : ZgdbFile A) j = blockAt file j :=
    fun _ => rfl
  have hhead : toastAt ({ file with freeList := list } : ZgdbFile A) t = toastAt file t := by
    rw [toastAt_eq, hblock, ← toastAt_eq]
  have harea : Area L ({ file with freeList := list } : ZgdbFile A) [t] := by
    refine ⟨fun x hx => ?_, fun x hx => ?_, fun x hx => ?_⟩ <;>
      obtain rfl := List.mem_singleton.mp hx
    · exact ⟨hmemt, hpost⟩
    · exact (isToast_congr (hblock x)).mpr htoast
    · rw [hlent]
      exact (Nat.le_add_right _ _).trans hle
  have hused : ∀ x ∈ [t], x = t ∧
      (toastAt ({ file with freeList := list } : ZgdbFile A) x).used = 0 ∧
      sizeofToast + (0 + chunksOf schema.elements) * chunkRecord ≤ L.len x := by
    intro x hx
    obtain rfl := List.mem_singleton.mp hx
    rw [hhead, hlent, Nat.zero_add]
    exact ⟨rfl, hzero, hle⟩
  have hnt : n.indexOrder ∉ [t] := fun hx => htn (List.mem_singleton.mp hx).symm
  have hloop : elementLoop ({ file with freeList := list } : ZgdbFile A) n
      = ⟨{ file with freeList := list }, L.pos n.indexOrder, sizeofDocumentHeader, []⟩ := by
    rw [hposn]
    rfl
  obtain ⟨hinside, hapart⟩ := writeLogs_spec schema.elements hmemn hroom harea hnt hused
    (fun _ _ _ => List.mem_singleton.mpr rfl) (List.mem_singleton.mpr rfl)
  obtain ⟨-, -, htoasts, -⟩ := writeElements_spec schema.elements hmemn hroom harea hnt hused
    fun _ _ _ => List.mem_singleton.mpr rfl
  have hchunks : chunksOf schema.elements = schema.minToastCapacity := hwf.minToastCapacity_eq.symm
  have hposl : blockPos ({ file with freeList := list } : ZgdbFile A) t = L.pos t := hpost.symm
  refine ⟨?_, ?_, ?_, ?_, hcap⟩
  · rw [hloop, hposl, hhead, hcapacity]
    intro log hlog w hw
    rcases hinside log hlog w hw with hw | hw | hw
    · rw [hsum] at hw
      exact Or.inl hw
    · exact Or.inr (Or.inl hw)
    · refine Or.inr (Or.inr (hw.mono (Nat.le_add_right _ _) ?_))
      rw [Nat.zero_add]
      exact hle
  · rw [hloop, hposl]
    exact hapart
  · rw [hloop, (Handle.writeElements_eq _ _ _).1]
    have := (htoasts t (List.mem_singleton.mpr rfl)).2
    rw [this, Nat.zero_add]
    exact hchunks
  · rw [hhead, hcapacity, ← hchunks, Nat.le_div_iff_mul_le (by decide)]
    omega

/-! ## 3. In the types of the source

The loop has a result exactly if every text has a count.  Then the blocks are those of section 2. -/

/-- A document part that returns was given an index. -/
theorem createBlock_find {now : UInt32} {file : ZgdbFile A} {name : Name} {schema : DocumentSchema}
    {t : Nat} {parentHeader : DocumentHeader} {r : Nat × ZgdbFile A}
    (h : createBlock now file name schema t parentHeader = some r) :
    ∃ n list, findRelevantIndex file.freeList (docSize schema) = some (n, list) := by
  cases hfind : findRelevantIndex file.freeList (docSize schema) with
  | none =>
    unfold docSize at hfind
    simp only [createBlock, hfind] at h
    cases h
  | some r => exact ⟨r.1, r.2, rfl⟩

namespace Sized

/-- The element loop ends, and what it writes lies in the two blocks. -/
def Fits (file : ZgdbFile A) (schema : DocumentSchema) (t : Nat) (n : RelevantIndexMeta) : Prop :=
  (∃ r, writeElements t schema.elements (elementLoop file n) = some r) ∧
    @Suffices A _ intCut file schema t n

section Fit

variable {capacity : Nat} {calls : List AddCall} {statuses : List AddStatus}
  {schema : DocumentSchema}

/-- The loop ends only if every text has a count. -/
theorem Fits.countable {file : ZgdbFile A} {t : Nat} {n : RelevantIndexMeta}
    (h : Fits file schema t n)
    (hcalls : addAll (initSchema capacity) calls = some (statuses, schema)) :
    AllCountable capacity calls := by
  obtain ⟨hfilled, -, hlt⟩ := addAll_filled (filled_initSchema capacity) hcalls
  obtain ⟨⟨last, written⟩, hwritten⟩ := h.1
  exact countable_of_ends hfilled hlt (ends_of_writeElements hwritten)

/-- The blocks that `createDocument` chooses for a schema whose texts are cut as the source does. -/
theorem fits_of_cut [c : TextCut] (hc : c = intCut)
    (hcut : ∀ call ∈ accepted capacity [] calls, CutBy c call.element)
    (hcalls : addAll (initSchema capacity) calls = some (statuses, schema))
    (hchunk : 0 < schema.minToastCapacity) {file1 file2 : ZgdbFile A} {cap : Nat → Nat} {t : Nat}
    {n : Node} {list : FreeIndexesList} (hplaced : Placed file1 cap)
    (htoast : createToast file1 schema = some (t, file2))
    (hfind : findRelevantIndex file2.freeList (docSize schema) = some (n, list)) :
    Fits { file2 with freeList := list } schema t n := by
  obtain ⟨hfilled, -, -⟩ := addAll_filled (filled_initSchema capacity) hcalls
  have hwf : schema.Wf := by
    obtain ⟨hbuilt, -, -⟩ := addAll_spec calls (.init capacity)
    rw [addAll_eq (filled_initSchema capacity) hcut, Option.some.injEq] at hcalls
    rw [hcalls] at hbuilt
    exact hbuilt.wf
  have hcut : ∀ e ∈ schema.elements, CutBy c e := by
    rw [hfilled.elements_eq]
    exact List.forall_mem_map.mpr hcut
  have hpos : 0 < chunksOf schema.elements := hchunk.trans_eq hwf.minToastCapacity_eq
  have hreq : schema.reqToast = true := by
    by_contra hr
    have hz : chunksOf schema.elements = 0 := chunksOf_eq_zero fun e he hte =>
      hr (hwf.reqToast_iff.mpr ⟨e, he, hte⟩)
    omega
  obtain ⟨cap2, own, hp2, -, hcap, hown, htoasts⟩ :=
    createToast_placed hplaced hwf (fun _ => hpos) htoast
  have ht : t ∈ own := by
    rw [hown, if_pos hreq]
    exact List.mem_cons_self
  obtain ⟨-, halive, hto, hzero, hle⟩ := htoasts t ht
  exact ⟨⟨_, writeElements_eq t hcut _⟩,
    hc ▸ suffices_of_placed hp2 hwf halive hto hzero (hcap t ht) hle hfind⟩

/-- **The blocks of a new document are large enough** exactly when every text has a count.  Where
one has none the element loop does not end, whatever blocks were chosen; where all have one the
blocks suffice, whatever indices `findRelevantIndex` chooses, new ones or dead blocks of the size it
was asked for, in a file whose used blocks lie one behind the other, for a schema that counts a
chunk. -/
theorem blocks_large_enough
    (hcalls : addAll (initSchema capacity) calls = some (statuses, schema)) :
    (∀ (file : ZgdbFile A) (t : Nat) (n : RelevantIndexMeta), Fits file schema t n →
      AllCountable capacity calls) ∧
    (AllCountable capacity calls → 0 < schema.minToastCapacity →
      ∀ (file1 file2 : ZgdbFile A) (cap : Nat → Nat) (t : Nat) (n : Node) (list : FreeIndexesList),
        Placed file1 cap → createToast file1 schema = some (t, file2) →
        findRelevantIndex file2.freeList (docSize schema) = some (n, list) →
        Fits { file2 with freeList := list } schema t n) :=
  ⟨fun _ _ _ h => h.countable hcalls,
    fun h hchunk _ _ _ _ _ _ hplaced htoast hfind =>
      @fits_of_cut A _ _ _ _ _ intCut rfl h.cutBy hcalls hchunk _ _ _ _ _ _ hplaced htoast hfind⟩

end Fit

/-- A text of two chunks and a double, in the blocks that a new store gives them. -/
theorem blocks_large_enough_init : ∃ (file : ZgdbFile RecordPos) (t : Nat) (n : Node),
    Fits file textAndDouble t n := by
  have hbuilt : textAndDouble.Built := .double keyB 0 (.text keyA string40 (.init 2))
  obtain ⟨-, file', n, own', hrun, -⟩ := create_first recordEnv 0 keyA hbuilt (by decide)
  have hsound : Sound (init 0 : ZgdbFile RecordPos) := ⟨_, _, _, init_store⟩
  obtain ⟨file1, hexp1, hr, -⟩ := hsound.room expands_records
  obtain ⟨-, file1', t, file2, order, file3, hexp, htoast, hblock, -⟩ :=
    createDocument_cases hrun (by decide)
  obtain rfl : file1' = file1 := Option.some.inj (hexp.symm.trans hexp1)
  obtain ⟨n, list, hfind⟩ := createBlock_find hblock
  have hfits := (blocks_large_enough threeCalls_schema).2 threeCalls_countable (by decide)
    file1' file2 _ t n list hr.placed htoast hfind
  exact ⟨_, t, n, hfits⟩

/-- A text of `2 ^ 31 - 1` characters makes a complete schema; no blocks are large enough for it. -/
theorem long_text_never_fits :
    addAll (initSchema 1) [.text keyA longText] = some ([.addOk], uncountedSchema longText) ∧
      (uncountedSchema longText).Complete ∧
      ∀ (file : ZgdbFile RecordPos) (t : Nat) (n : Node),
        ¬ Fits file (uncountedSchema longText) t n := by
  obtain ⟨hnot, hrun, -⟩ := uncounted longText_size
  exact ⟨hrun, rfl, fun file t n h => hnot (h.countable hrun)⟩

end Sized

end Zgdb
