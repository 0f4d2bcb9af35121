/-
# What an allocation leaves

The two allocating parts of the code, `allocToast` and `createBlock`, take a node from the free
list, write a block and attach its index.  Both keep every other block as it is
(`allocToast_spec`, `createBlock_spec`) -- the first only when the zero bytes it writes behind
the header, which are as many as the whole block has, do not run into another block (`NoSpill`).
A new block at the end of the file has nothing behind it, and a record is not followed by
anything, so the condition is about reused blocks of a file.
-/
import Zgdb.Written

namespace Zgdb

open Zgdb.Lib AddrSpace

variable {A : Type} [BlockSpace A]

/-! ## 1. The bytes behind a toast

Everything that goes wrong in an allocation goes wrong here.  A reused block is followed by another
block, or by the end of the file, and the zeros run over its end by the size of a toast header. -/

/-- The zero bytes behind the block of a reused node run into block `j`.  `createNewToast` clears as
many bytes as the block has, but from behind the header on, so that the last `sizeof(toast)` of them
are behind the block.  At the end of the file this does no harm; behind a DEAD block there is
another one, or the end of the file. -/
def Spills (file : ZgdbFile A) (n : Node) (j : Nat) : Prop :=
  n.blockSize ≠ 0 ∧ Used file j ∧ j ≠ n.indexOrder ∧
    ¬ Apart (blockPos file j) (blockCapacity file j)
      (add (blockPos file n.indexOrder) n.blockSize) sizeofToast

/-- The toast that an allocation of `reqSize` bytes gets does not spill.  This is a condition on the
free list and the layout before the allocation: the node it chooses is NEW, or nothing lies behind
its block. -/
def NoSpill (file : ZgdbFile A) (reqSize : Nat) : Prop :=
  ∀ n list, findRelevantIndex file.freeList reqSize = some (n, list) → ∀ j, ¬ Spills file n j

/-- Records do not spill. -/
theorem noSpill_record (file : ZgdbFile RecordPos) (reqSize : Nat) : NoSpill file reqSize := by
  rintro n list - j ⟨-, -, hj, hap⟩
  refine hap fun i _ x _ he => hj ?_
  exact congrArg RecordPos.order he

/-- **A block that is about to be written lies apart from every other one**, with the zero bytes
behind it. -/
theorem Blocks.alloc_apart {file : ZgdbFile A} {docs : List Nat} (h : Blocks file docs) {n : Node}
    (hn : n ∈ file.freeList.nodes) (hspill : ∀ j, ¬ Spills file n j) {j : Nat} (hj : Used file j)
    (hjn : j ≠ n.indexOrder) (newCapacity : Nat) :
    Apart (blockPos file j) (blockCapacity file j)
      (BlockSpace.base n.indexOrder (blockOffset file n.indexOrder))
      (chosenCapacity n newCapacity + sizeofToast) := by
  obtain ⟨hlt, ⟨hz, hf⟩ | ⟨hp, hf, hcap⟩⟩ := h.placed.node n hn
  · rw [blockOffset_of_new hlt hf, blockPos, getIndex_eq hj.lt]
    exact BlockSpace.base_apart hjn (Or.inl (h.placed.below hj))
  · refine (h.placed.chosen_apart hn hj hjn newCapacity).append ?_
    have hpos : (BlockSpace.base n.indexOrder (blockOffset file n.indexOrder) : A)
        = blockPos file n.indexOrder := by
      rw [blockOffset_of_dead hlt hf, blockPos, getIndex_eq hlt]
    rw [chosenCapacity, if_neg (by omega), hpos]
    by_contra hap
    exact hspill j ⟨by omega, hj, hjn, hap⟩

/-- A block whose bytes are as before keeps its class. -/
theorem Kept.of_agrees {file file' : ZgdbFile A} {j : Nat} (h : IsDocument file j ∨ IsToast file j)
    (heq : Agrees file file' j (blockCapacity file j)) : Kept file file' j := by
  rcases h with hd | ht
  · have := hd.of_eqOn (heq.mono hd.header_le)
    exact ⟨Or.inl ⟨hd, this.1⟩, this.2.2⟩
  · have := ht.of_eqOn (heq.mono ht.header_le)
    exact ⟨Or.inr ⟨ht, this.1⟩, this.2.2⟩

/-! ## 2. A toast

The node is taken, the header and the zeros are written, the index is attached.  The block that the
header names is the one that the index table then gives for the index. -/

omit [BlockSpace A] in
theorem attachIndexToBlock_eq {file : ZgdbFile A} {k : Nat} (h : k < file.header.indexCount)
    (offset : Nat) : (attachIndexToBlock file k offset).1 = setIndex file k ⟨.alive, offset⟩ := by
  rw [attachIndexToBlock, if_neg (by omega)]

omit [BlockSpace A] in
theorem growFile_eq (file : ZgdbFile A) (n : Node) (c : Nat) :
    growFile file n c = { file with header := { file.header with
      fileSize := if n.blockSize = 0 then file.header.fileSize
        + c else file.header.fileSize } } := by
  unfold growFile
  split <;> rfl

/-- The header of a toast in the block of the node `n`. -/
def toastHeader (n : Node) (newCapacity : Nat) : Toast where
  blockType := BlockType.toast.code
  capacity := chosenCapacity n newCapacity
  used := 0
  indexAttached := n.indexOrder
  nextToastIndex := 0

/-- The parts of an allocation: a node of the free list, its index attached, the header and the
zero bytes behind it. -/
structure ToastAlloc (file file' : ZgdbFile A) (reqSize newCapacity : Nat) (n : Node) : Prop where
  chosen : ∃ list, findRelevantIndex file.freeList reqSize = some (n, list)
  mem : n ∈ file.freeList.nodes
  attached : Attached file file' n newCapacity
  large : n.blockSize = 0 ∨ reqSize ≤ n.blockSize
  bytes : file'.mem = fill (store toastK file.mem
      (add (BlockSpace.base n.indexOrder (blockOffset file n.indexOrder)) 0)
      (toastHeader n newCapacity))
    (add (BlockSpace.base n.indexOrder (blockOffset file n.indexOrder)) sizeofToast)
    (chosenCapacity n newCapacity) ⟨.byte 0, 0⟩
  nodes : file'.header.nodes = file.header.nodes

theorem allocToast_cases {file file' : ZgdbFile A} {reqSize newCapacity t : Nat}
    (hs : file.freeList.Sound)
    (hnode : ∀ n ∈ file.freeList.nodes, n.indexOrder < file.header.indexCount) (hreq : 0 < reqSize)
    (ha : allocToast file reqSize newCapacity = some (t, file')) :
    ∃ n, t = n.indexOrder ∧ ToastAlloc file file' reqSize newCapacity n := by
  unfold allocToast at ha
  cases hfind : findRelevantIndex file.freeList reqSize with
  | none => rw [hfind] at ha; cases ha
  | some r =>
    obtain ⟨n, list⟩ := r
    rw [hfind] at ha
    obtain ⟨hperm, hsound, hle⟩ := findRelevantIndex_spec hs hreq hfind
    have hn : n ∈ file.freeList.nodes := hperm.mem_iff.mpr List.mem_cons_self
    have hlt := hnode n hn
    obtain ⟨ht, hf⟩ := Prod.mk.inj (Option.some.inj ha)
    rw [attachIndexToBlock_eq (by exact hlt), growFile_eq] at hf
    subst hf
    refine ⟨n, ht.symm, ⟨list, hfind⟩, hn, ?_, hle, rfl, rfl⟩
    refine ⟨hperm, hsound, rfl, rfl, fun j hj => if_neg hj, if_pos rfl, ?_⟩
    by_cases hz : n.blockSize = 0
    · simp only [saveHeader, setIndex, fwriteZeros, fwriteAt, hz, if_true]
    · simp only [saveHeader, setIndex, fwriteZeros, fwriteAt, hz, if_false]

/-- The header of an allocated toast lies in its block. -/
theorem ToastAlloc.holds {file file' : ZgdbFile A} {reqSize newCapacity : Nat} {n : Node}
    (h : ToastAlloc file file' reqSize newCapacity n)
    (hlt : n.indexOrder < file.header.indexCount) :
    Holds toastK (blockAt file' n.indexOrder) 0 (toastHeader n newCapacity) := by
  have hview : blockAt file' n.indexOrder = view file'.mem
      (BlockSpace.base n.indexOrder (blockOffset file n.indexOrder)) := by
    rw [← h.attached.blockPos_self hlt]
    rfl
  rw [hview, h.bytes, view_fill, view_store]
  exact holds_store.fill_nat (Or.inl (Nat.le_refl _))

/-- **A toast allocated**: an empty toast of its own, every other block as it was. -/
theorem allocToast_spec {file file' : ZgdbFile A} {docs : List Nat} {reqSize newCapacity t : Nat}
    (h : Blocks file docs) (hreq : sizeofToast ≤ reqSize) (hnew : sizeofToast ≤ newCapacity)
    (hspill : NoSpill file reqSize) (ha : allocToast file reqSize newCapacity = some (t, file')) :
    ∃ n, t = n.indexOrder ∧ ToastAlloc file file' reqSize newCapacity n ∧
      (∀ j, Used file j → j ≠ t → Agrees file file' j (blockCapacity file j)) ∧
      IsToast file' t ∧ toastAt file' t = toastHeader n newCapacity ∧ Blocks file' docs := by
  obtain ⟨n, rfl, hal⟩ := allocToast_cases h.placed.sound h.placed.node_lt
      (Nat.lt_of_lt_of_le (by decide) hreq) ha
  obtain ⟨list, hfind⟩ := hal.chosen
  have hlt := (h.placed.node n hal.mem).1
  have hcap : sizeofToast ≤ chosenCapacity n newCapacity := by
    have hle := hal.large
    unfold chosenCapacity
    split <;> omega
  -- nothing is written outside the block and the bytes behind it
  have hagrees : ∀ j, Used file j → j ≠ n.indexOrder →
      Agrees file file' j (blockCapacity file j) := by
    intro j hj hjn d hd
    have hap := h.alloc_apart hal.mem (hspill n list hfind) hj hjn newCapacity
    have hap1 : Apart (blockPos file j) (blockCapacity file j)
        (add (BlockSpace.base n.indexOrder (blockOffset file n.indexOrder)) 0) sizeofToast := by
      rw [shift_zero]
      exact hap.mono (Nat.le_refl _) (Nat.le_add_left _ _)
    have hap2 : Apart (add (blockPos file j) 0) (blockCapacity file j)
        (add (BlockSpace.base n.indexOrder (blockOffset file n.indexOrder)) sizeofToast)
        (chosenCapacity n newCapacity) :=
      hap.sub (by omega) (by omega)
    rw [shift_zero] at hap2
    show file'.mem (add (blockPos file' j) d) = file.mem (add (blockPos file j) d)
    rw [hal.attached.blockPos_other hjn, hal.bytes]
    exact (view_fill_of_apart hap2 hd).trans (view_store_of_apart hap1 hd)
  obtain ⟨hto, hta, hcapacity⟩ := IsToast.of_holds (hal.holds hlt) rfl rfl hcap
  refine ⟨n, rfl, hal, hagrees, hto, hta, ?_⟩
  refine h.attach hal.attached (fun j hj hjn => Kept.of_agrees (h.block j hj) (hagrees j hj hjn))
    (Or.inr hto) hcapacity ?_
  intro j
  have hnd : n.indexOrder ∉ docs := fun hd => h.placed.not_alive hal.mem ((h.docs _).mp hd).1
  constructor
  · intro hj
    refine Or.inl ⟨?_, hj⟩
    rintro rfl
    exact hnd hj
  · rintro (⟨-, hj⟩ | ⟨rfl, hd⟩)
    · exact hj
    · exact absurd hto hd.not_isToast

/-! ## 3. A document block

The elements are written before the header and before the index is attached, so the block is not
among the used ones yet.  The layout is extended by it first, and the writes are followed in the
extended layout. -/

/-- The size of the block of a new document. -/
def docSize (schema : DocumentSchema) : Nat := sizeofDocumentHeader + schema.sizeOfElements

/-- The header of a new document in the block of the node `n`. -/
def newHeader (now : UInt32) (file : ZgdbFile A) (name : Name) (schema : DocumentSchema)
    (toastIndex : Nat) (parentHeader : DocumentHeader) (n : Node) : DocumentHeader where
  id := generateId now (blockOffset file n.indexOrder)
  size := docSize schema
  capacity := chosenCapacity n (docSize schema)
  attrCount := schema.capacity
  indexAttached := n.indexOrder
  indexBrother := parentHeader.indexSon
  indexSon := 0
  firstToastIndex := toastIndex
  blockType := BlockType.document.code
  name := name

/-- The bytes and the tables that `createBlock` leaves: the header and the elements of a document in
the block of the node `n`, its chunks in the toasts `own`, and every other block of capacity `cap`
as it was. -/
structure BlockFilled (file file' : ZgdbFile A) (cap : Nat → Nat) (schema : DocumentSchema)
    (header : DocumentHeader) (own : List Nat) (n : Node) : Prop where
  chosen : ∃ list, findRelevantIndex file.freeList (docSize schema) = some (n, list)
  mem : n ∈ file.freeList.nodes
  large : docSize schema ≤ chosenCapacity n (docSize schema)
  attached : Attached file file' n (docSize schema)
  others : ∀ j, Used file j → j ≠ n.indexOrder → j ∉ own → Agrees file file' j (cap j)
  toast : ∀ x ∈ own, IsToast file' x ∧
    toastAt file' x = { toastAt file x with used := chunksOf schema.elements }
  written : Written file' header.firstToastIndex 0 schema.elements
  head : Holds documentHeaderK (blockAt file' n.indexOrder) 0 header
  holds : HoldsElements (blockAt file' n.indexOrder) sizeofDocumentHeader
    (storeElements 0 schema.elements)
  nodes : file'.header.nodes = file.header.nodes + 1

/-- A layout of the used blocks, of capacities `cap`, with the block that the node `n` gets. -/
structure Hosts (file : ZgdbFile A) (L : Layout A) (cap : Nat → Nat) (n : Node) (c : Nat) :
    Prop where
  used : ∀ j, Used file j → L.mem j
  posOther : ∀ j, j ≠ n.indexOrder → L.pos j = blockPos file j
  lenOther : ∀ j, j ≠ n.indexOrder → L.len j = cap j
  self : L.mem n.indexOrder
  posSelf : L.pos n.indexOrder = BlockSpace.base n.indexOrder (blockOffset file n.indexOrder)
  lenSelf : L.len n.indexOrder = chosenCapacity n c

theorem Placed.hosts {file : ZgdbFile A} {cap : Nat → Nat} (h : Placed file cap) {n : Node}
    (hn : n ∈ file.freeList.nodes) (c : Nat) : Hosts file (h.extend hn c) cap n c where
  used _ hj := Or.inr hj
  posOther _ hj := h.extend_pos_other hn c hj
  lenOther _ hj := h.extend_len_other hn c hj
  self := Or.inl rfl
  posSelf := h.extend_pos_self hn c
  lenSelf := h.extend_len_self hn c

/-- The steps of `createBlock`, in a layout that hosts the new block: the elements are written in
`file1`, then the header, and the tables of `file'` last. -/
structure BlockSteps (L : Layout A) (file file1 file' : ZgdbFile A) (cap : Nat → Nat)
    (schema : DocumentSchema) (header : DocumentHeader) (own : List Nat) (n : Node) : Prop where
  hosts : Hosts file L cap n (docSize schema)
  lt : n.indexOrder < file.header.indexCount
  large : docSize schema ≤ L.len n.indexOrder
  elementSizes : (storedSize (storeElements 0 schema.elements)) + sizeofDocumentHeader
    = docSize schema
  used : ∀ x ∈ own, Used file x ∧ x ≠ n.indexOrder
  room : ∀ x ∈ own, sizeofToast + chunksOf schema.elements * chunkRecord ≤ L.len x
  textToast : 0 < chunksOf schema.elements → header.firstToastIndex ∈ own
  area : Area L file1 own
  writes : Writes L (elementBytes n.indexOrder sizeofDocumentHeader
      (schema.elements.map getElementSize).sum own header.firstToastIndex 0
      (chunksOf schema.elements)) { file with freeList := file'.freeList } file1
  elements : HoldsElements (L.block file1.mem n.indexOrder) sizeofDocumentHeader
    (storeElements 0 schema.elements)
  toasts : ∀ x ∈ own, toastAt file1 x = { toastAt file x with used := chunksOf schema.elements }
  written : Written file1 header.firstToastIndex 0 schema.elements
  mem : file'.mem = (fwriteAt documentHeaderK file1 (L.pos n.indexOrder) 0 header).mem
  attached : Attached file file' n (docSize schema)

namespace BlockSteps

variable {L : Layout A} {file file1 file' : ZgdbFile A} {cap : Nat → Nat} {schema : DocumentSchema}
  {header : DocumentHeader} {own : List Nat} {n : Node}

theorem notMem (h : BlockSteps L file file1 file' cap schema header own n) : n.indexOrder ∉ own :=
  fun hn => (h.used n.indexOrder hn).2 rfl

/-- The header is written to the new block. -/
theorem writesHeader (h : BlockSteps L file file1 file' cap schema header own n) :
    Writes L (Layout.span n.indexOrder 0 sizeofDocumentHeader) file1
      (fwriteAt documentHeaderK file1 (L.pos n.indexOrder) 0 header) := by
  have hle : 0 + documentHeaderK.size ≤ L.len n.indexOrder := by
    have hlarge := h.large
    simp only [documentHeaderK, docSize] at hlarge ⊢
    omega
  refine (writes_fwriteAt h.hosts.self hle).mono ?_
  intro j d hd
  rwa [Nat.zero_add] at hd

theorem not_header (h : BlockSteps L file file1 file' cap schema header own n) {x : Nat}
    (hx : x ∈ own) (d : Nat) : ¬ Layout.span n.indexOrder 0 sizeofDocumentHeader x d := by
  intro hd
  exact h.notMem (hd.1 ▸ hx)

/-- The blocks of the file that is returned are those of the layout. -/
theorem view (h : BlockSteps L file file1 file' cap schema header own n) (j : Nat) :
    blockAt file' j
      = L.block (fwriteAt documentHeaderK file1 (L.pos n.indexOrder) 0 header).mem j := by
  have hpos : blockPos file' j = L.pos j := by
    by_cases hjn : j = n.indexOrder
    · rw [hjn, h.attached.blockPos_self h.lt, h.hosts.posSelf]
    · rw [h.attached.blockPos_other hjn, h.hosts.posOther j hjn]
  unfold blockAt Layout.block Lib.view
  rw [hpos, h.mem]

/-- **A block that is not written stays.** -/
theorem others (h : BlockSteps L file file1 file' cap schema header own n) {j : Nat}
    (hj : Used file j) (hjn : j ≠ n.indexOrder) (hjo : j ∉ own) :
    Agrees file file' j (cap j) := by
  intro d hd
  rw [← h.hosts.lenOther j hjn] at hd
  have hmem := h.hosts.used j hj
  have hview : L.block file.mem j = blockAt file j := by
    unfold blockAt Layout.block Lib.view
    rw [h.hosts.posOther j hjn]
  rw [h.view j, h.writesHeader.only j hmem d hd fun hs => hjn hs.1,
    h.writes.only j hmem d hd, hview]
  rintro (hs | hs)
  · exact hjn hs.1
  · exact hjo hs.1

/-- The header does not touch the toasts. -/
theorem blockAt_own (h : BlockSteps L file file1 file' cap schema header own n) {x : Nat}
    (hx : x ∈ own) : blockAt file' x
      = blockAt (fwriteAt documentHeaderK file1 (L.pos n.indexOrder) 0 header) x := by
  rw [h.view x]
  unfold blockAt Layout.block Lib.view
  rw [(h.writesHeader.shows (h.area.shows x hx)).pos]

/-- **The toasts count the chunks.** -/
theorem toast (h : BlockSteps L file file1 file' cap schema header own n) {x : Nat} (hx : x ∈ own) :
    IsToast file' x ∧
      toastAt file' x = { toastAt file x with used := chunksOf schema.elements } := by
  have h2 := h.area.toastAt_eq h.writesHeader hx fun d _ => h.not_header hx d
  refine ⟨(isToast_congr (h.blockAt_own hx)).mpr h2.1, ?_⟩
  rw [toastAt_eq, h.blockAt_own hx, ← toastAt_eq, h2.2, h.toasts x hx]

/-- **The chunks are written.** -/
theorem chunks (h : BlockSteps L file file1 file' cap schema header own n) :
    Written file' header.firstToastIndex 0 schema.elements := by
  refine h.written.congr ?_
  intro i hi
  have ht : header.firstToastIndex ∈ own := h.textToast (by omega)
  have hs : SlotIn L own (header.firstToastIndex, i * chunkRecord) :=
    slotIn_of_lt ht (by omega : i < chunksOf schema.elements) (h.room _ ht)
  rw [← h.area.chunkAt_eq h.writesHeader hs fun d _ => h.not_header ht d, chunkAt_eq, chunkAt_eq,
    h.blockAt_own ht]

/-- **The block starts with the header.** -/
theorem head (h : BlockSteps L file file1 file' cap schema header own n) :
    Holds documentHeaderK (blockAt file' n.indexOrder) 0 header := by
  have hstore : (fwriteAt documentHeaderK file1 (L.pos n.indexOrder) 0 header).mem
      = store documentHeaderK file1.mem (add (L.pos n.indexOrder) 0) header := rfl
  rw [h.view, hstore]
  exact Layout.holds_block_store _ _ _

/-- **The elements follow it.** -/
theorem holds (h : BlockSteps L file file1 file' cap schema header own n) :
    HoldsElements (blockAt file' n.indexOrder) sizeofDocumentHeader
      (storeElements 0 schema.elements) := by
  rw [h.view]
  refine h.elements.of_eqOn ?_ (Nat.le_refl _) (Nat.le_refl _)
  intro d hd hlt
  have hsize := h.elementSizes
  have hlarge := h.large
  refine h.writesHeader.only _ h.hosts.self d (by omega) ?_
  intro hs
  have := hs.2.2
  omega

end BlockSteps

/-- **The elements of a new document**, written in a layout that hosts its block. -/
theorem Hosts.writeElements {file : ZgdbFile A} {L : Layout A} {cap : Nat → Nat} {n : Node}
    {own : List Nat} {schema : DocumentSchema} {t : Nat}
    (h : Hosts file L cap n (docSize schema)) (hwf : schema.Wf) (list : FreeIndexesList)
    (hlarge : docSize schema ≤ L.len n.indexOrder) (hnown : n.indexOrder ∉ own)
    (hown : ∀ x ∈ own, x = t ∧ Alive file x ∧ IsToast file x ∧ (toastAt file x).used = 0 ∧
      sizeofToast + chunksOf schema.elements * chunkRecord ≤ L.len x)
    (htext : schema.reqToast = true → t ∈ own) {file1 : ZgdbFile A}
    (hf1 : file1 = Zgdb.writeElements { file with freeList := list } (L.pos n.indexOrder)
      sizeofDocumentHeader t schema.elements) :
    Writes L (elementBytes n.indexOrder sizeofDocumentHeader
        (schema.elements.map getElementSize).sum own t 0 (chunksOf schema.elements))
        { file with freeList := list } file1 ∧
      HoldsElements (L.block file1.mem n.indexOrder) sizeofDocumentHeader
        (storeElements 0 schema.elements) ∧
      (∀ x ∈ own, IsToast file1 x ∧
        toastAt file1 x = { toastAt file x with used := 0 + chunksOf schema.elements }) ∧
      Written file1 t 0 schema.elements ∧ Area L file1 own := by
  have hsize : docSize schema = sizeofDocumentHeader
      + (schema.elements.map getElementSize).sum := by
    rw [docSize, hwf.sizeOfElements_eq]
  have hne : ∀ x ∈ own, x ≠ n.indexOrder := fun x hx he => hnown (he ▸ hx)
  have hat0 : ∀ x, blockAt { file with freeList := list } x = blockAt file x := fun _ => rfl
  have harea : Area L { file with freeList := list } own := by
    refine ⟨fun x hx => ⟨h.used x (Or.inl (hown x hx).2.1), ?_⟩,
      fun x hx => (isToast_congr (hat0 x)).mpr (hown x hx).2.2.1, ?_⟩
    · exact h.posOther x (hne x hx)
    · intro x hx
      exact (Nat.le_add_right _ _).trans (hown x hx).2.2.2.2
  subst hf1
  obtain ⟨hw, hh, hto, hwr⟩ : Writes L (elementBytes n.indexOrder sizeofDocumentHeader
        (schema.elements.map getElementSize).sum own t 0 (chunksOf schema.elements))
        { file with freeList := list } _ ∧ _ ∧ _ ∧ _ := by
    refine writeElements_spec schema.elements h.self (by omega) harea hnown ?_
      fun e he hte => htext (hwf.reqToast_iff.mpr ⟨e, he, hte⟩)
    intro x hx
    refine ⟨(hown x hx).1, (hown x hx).2.2.2.1, ?_⟩
    rw [Nat.zero_add]
    exact (hown x hx).2.2.2.2
  exact ⟨hw, hh, hto, hwr, fun x hx => hw.shows (harea.shows x hx), fun x hx => (hto x hx).1,
    harea.le_len⟩

/-- **The tables that `createBlock` leaves**, whatever the elements wrote. -/
theorem createBlock_attached {file file1 file' : ZgdbFile A} {n : Node} {list : FreeIndexesList}
    {reqSize : Nat} {pos : A} {header : DocumentHeader}
    (hlt : n.indexOrder < file.header.indexCount)
    (hperm : file.freeList.nodes.Perm (n :: list.nodes)) (hsound : list.Sound)
    (htables : file1 = { file with freeList := list, mem := file1.mem })
    (hf : file' = saveHeader { growFile (fwriteAt documentHeaderK (attachIndexToBlock file1
        n.indexOrder (blockOffset file n.indexOrder)).1 pos 0 header) n reqSize with
      header := { (growFile (fwriteAt documentHeaderK (attachIndexToBlock file1 n.indexOrder
          (blockOffset file n.indexOrder)).1 pos 0 header) n reqSize).header with
        nodes := (growFile (fwriteAt documentHeaderK (attachIndexToBlock file1 n.indexOrder
          (blockOffset file n.indexOrder)).1 pos 0 header) n reqSize).header.nodes + 1 } }) :
    file'.mem = (fwriteAt documentHeaderK file1 pos 0 header).mem ∧ file'.freeList = list ∧
      Attached file file' n reqSize ∧ file'.header.nodes = file.header.nodes + 1 := by
  have hlt1 : n.indexOrder < file1.header.indexCount := by
    rw [htables]
    exact hlt
  rw [attachIndexToBlock_eq hlt1, growFile_eq] at hf
  have hindexes : file'.indexes = fun i =>
      if i = n.indexOrder then ⟨.alive, blockOffset file n.indexOrder⟩ else file.indexes i := by
    rw [hf, htables]
    rfl
  have hheader : file'.header = { file.header with
      fileSize := if n.blockSize = 0 then file.header.fileSize + reqSize
        else file.header.fileSize
      nodes := file.header.nodes + 1 } := by
    rw [hf, htables]
    rfl
  have hfree : file'.freeList = list := by
    rw [hf, htables]
    rfl
  refine ⟨by rw [hf]; rfl, hfree, ⟨hfree ▸ hperm, hfree ▸ hsound, ?_, ?_, ?_, ?_, ?_⟩, ?_⟩
  · rw [hheader]
  · rw [hheader]
  · intro j hj
    rw [hindexes]
    exact if_neg hj
  · rw [hindexes]
    exact if_pos rfl
  · rw [hheader]
  · rw [hheader]

/-- **A block filled with a document**, in a layout that hosts it. -/
theorem createBlock_hosted {now : UInt32} {file file' : ZgdbFile A} {cap : Nat → Nat}
    {own : List Nat} {name : Name} {schema : DocumentSchema} {t order : Nat}
    {parentHeader : DocumentHeader} (hs : file.freeList.Sound)
    (hnode : ∀ n ∈ file.freeList.nodes, n.indexOrder < file.header.indexCount ∧
      ¬ Alive file n.indexOrder)
    (hhost : ∀ n ∈ file.freeList.nodes, ∃ L, Hosts file L cap n (docSize schema))
    (hwf : schema.Wf)
    (hown : ∀ x ∈ own, x = t ∧ Alive file x ∧ IsToast file x ∧ (toastAt file x).used = 0 ∧
      sizeofToast + chunksOf schema.elements * chunkRecord ≤ cap x)
    (htext : schema.reqToast = true → t ∈ own)
    (hc : createBlock now file name schema t parentHeader = some (order, file')) :
    ∃ n, order = n.indexOrder ∧
      BlockFilled file file' cap schema (newHeader now file name schema t parentHeader n) own
        n := by
  unfold createBlock at hc
  cases hfind : findRelevantIndex file.freeList (sizeofDocumentHeader + schema.sizeOfElements) with
  | none => simp only [hfind] at hc; cases hc
  | some r =>
    obtain ⟨n, list⟩ := r
    simp only [hfind] at hc
    obtain ⟨hperm, hsound, hle⟩ := findRelevantIndex_spec hs
      (Nat.add_pos_left (by decide) _) hfind
    have hn : n ∈ file.freeList.nodes := hperm.mem_iff.mpr List.mem_cons_self
    obtain ⟨hlt, hnal⟩ := hnode n hn
    obtain ⟨L, hhosts⟩ := hhost n hn
    have hcap : docSize schema ≤ chosenCapacity n (docSize schema) := by
      unfold chosenCapacity docSize
      split <;> omega
    have hlarge : docSize schema ≤ L.len n.indexOrder := hhosts.lenSelf.symm ▸ hcap
    have hnx : ∀ x ∈ own, x ≠ n.indexOrder := fun x hx he => hnal (he ▸ (hown x hx).2.1)
    have hown' : ∀ x ∈ own, x = t ∧ Alive file x ∧ IsToast file x ∧ (toastAt file x).used = 0 ∧
        sizeofToast + chunksOf schema.elements * chunkRecord ≤ L.len x := by
      intro x hx
      rw [hhosts.lenOther x (hnx x hx)]
      exact hown x hx
    -- the elements
    obtain ⟨file1, hf1⟩ : ∃ file1, file1 = writeElements { file with freeList := list }
      (L.pos n.indexOrder) sizeofDocumentHeader t schema.elements := ⟨_, rfl⟩
    obtain ⟨hw1, hh1, hto1, hwr1, harea⟩ := hhosts.writeElements hwf list hlarge
      (fun hx => hnx n.indexOrder hx rfl) hown' htext hf1
    -- the header and the tables
    obtain ⟨ho, hf⟩ := Prod.mk.inj (Option.some.inj hc)
    have hbase : (BlockSpace.base n.indexOrder
        (blockOffset { file with freeList := list } n.indexOrder) : A) = L.pos n.indexOrder :=
      hhosts.posSelf.symm
    rw [hbase, ← hf1] at hf
    obtain ⟨hmem, hfree, hat, hnodes⟩ := createBlock_attached hlt hperm hsound hw1.tables hf.symm
    have htextToast : 0 < chunksOf schema.elements → t ∈ own := by
      intro hpos
      by_contra ht
      have hz : chunksOf schema.elements = 0 := chunksOf_eq_zero fun e he hte =>
        ht (htext (hwf.reqToast_iff.mpr ⟨e, he, hte⟩))
      omega
    have h : BlockSteps L file file1 file' cap schema
        (newHeader now file name schema t parentHeader n) own n :=
      { hosts := hhosts, lt := hlt, large := hlarge
        elementSizes := by
          rw [storeElements_size, docSize, hwf.sizeOfElements_eq, Nat.add_comm]
        used := fun x hx => ⟨Or.inl (hown x hx).2.1, hnx x hx⟩
        room := fun x hx => (hown' x hx).2.2.2.2
        textToast := htextToast, area := harea
        writes := by rw [hfree]; exact hw1
        elements := hh1
        toasts := fun x hx => by rw [(hto1 x hx).2, Nat.zero_add]
        written := hwr1, mem := hmem, attached := hat }
    exact ⟨n, ho.symm, ⟨list, hfind⟩, hn, hcap, hat, fun j hj hjn hjo => h.others hj hjn hjo,
      fun x hx => h.toast hx, h.chunks, h.head, h.holds, hnodes⟩

/-- The blocks need only lie apart: nothing is asked of what the others hold. -/
theorem createBlock_filled {now : UInt32} {file file' : ZgdbFile A} {cap : Nat → Nat}
    {own : List Nat} {name : Name} {schema : DocumentSchema} {t order : Nat}
    {parentHeader : DocumentHeader} (h : Placed file cap) (hwf : schema.Wf)
    (hown : ∀ x ∈ own, x = t ∧ Alive file x ∧ IsToast file x ∧ (toastAt file x).used = 0 ∧
      sizeofToast + chunksOf schema.elements * chunkRecord ≤ cap x)
    (htext : schema.reqToast = true → t ∈ own)
    (hc : createBlock now file name schema t parentHeader = some (order, file')) :
    ∃ n, order = n.indexOrder ∧
      BlockFilled file file' cap schema (newHeader now file name schema t parentHeader n) own n :=
  createBlock_hosted h.sound (fun n hn => ⟨h.node_lt n hn, h.not_alive hn⟩)
    (fun _ hn => ⟨_, h.hosts hn _⟩) hwf hown htext hc

/-- What `createBlock` leaves of a store in order: a document in the block of the node `n`. -/
structure Created (file file' : ZgdbFile A) (schema : DocumentSchema) (header : DocumentHeader)
    (own : List Nat) (n : Node) : Prop
    extends BlockFilled file file' (blockCapacity file) schema header own n where
  doc : IsDocument file' n.indexOrder
  header : getDocumentHeader file' n.indexOrder = header
  tables : Extended file file'
  blocks : ∀ docs docs', Blocks file docs →
    (∀ j, j ∈ docs' ↔ j = n.indexOrder ∨ j ∈ docs) → Blocks file' docs'

/-- **A document block created.** -/
theorem createBlock_spec {now : UInt32} {file file' : ZgdbFile A} {docs own : List Nat}
    {name : Name}
    {schema : DocumentSchema} {t order : Nat} {parentHeader : DocumentHeader} (h : Blocks file docs)
    (hwf : schema.Wf)
    (hown : ∀ x ∈ own, x = t ∧ Alive file x ∧ IsToast file x ∧ (toastAt file x).used = 0 ∧
      sizeofToast + chunksOf schema.elements * chunkRecord ≤ (toastAt file x).capacity)
    (htext : schema.reqToast = true → t ∈ own)
    (hc : createBlock now file name schema t parentHeader = some (order, file')) :
    ∃ n, order = n.indexOrder ∧
      Created file file' schema (newHeader now file name schema t parentHeader n) own n := by
  have hown' : ∀ x ∈ own, x = t ∧ Alive file x ∧ IsToast file x ∧ (toastAt file x).used = 0 ∧
      sizeofToast + chunksOf schema.elements * chunkRecord ≤ blockCapacity file x := by
    intro x hx
    rw [(hown x hx).2.2.1.capacity]
    exact hown x hx
  obtain ⟨n, ho, hb⟩ := createBlock_filled h.placed hwf hown' htext hc
  obtain ⟨hdoc, hhdr, hcapacity⟩ := IsDocument.of_holds hb.head rfl rfl
    (by simp only [newHeader, docSize]; omega) hb.large
  have hcapacities : ∀ j, Used file j → j ≠ n.indexOrder →
      blockCapacity file' j = blockCapacity file j := by
    intro j hj hjn
    by_cases hjo : j ∈ own
    · obtain ⟨h1, h2⟩ := hb.toast j hjo
      rw [h1.capacity, h2, (hown j hjo).2.2.1.capacity]
    · exact (Kept.of_agrees (h.block j hj) (hb.others j hj hjn hjo)).2
  refine ⟨n, ho, hb, hdoc, hhdr, hb.attached.extended h.placed hb.mem hcapacities hcapacity, ?_⟩
  intro docs docs' hbl hdocs
  refine hbl.attach hb.attached ?_ (Or.inl hdoc) hcapacity ?_
  · intro j hj hjn
    by_cases hjo : j ∈ own
    · exact ⟨Or.inr ⟨(hown j hjo).2.2.1, (hb.toast j hjo).1⟩, hcapacities j hj hjn⟩
    · exact Kept.of_agrees (hbl.block j hj) (hb.others j hj hjn hjo)
  · intro j
    have hnd : n.indexOrder ∉ docs := fun hd => hbl.placed.not_alive hb.mem ((hbl.docs _).mp hd).1
    rw [hdocs]
    constructor
    · rintro (rfl | hj)
      · exact Or.inr ⟨rfl, hdoc⟩
      · exact Or.inl ⟨fun he => hnd (he ▸ hj), hj⟩
    · rintro (⟨_, hj⟩ | ⟨hj, _⟩)
      · exact Or.inr hj
      · exact Or.inl hj

end Zgdb
