/-
# The bytes a creation changes

In the file as it is, one line of bytes, a creation writes to the block of the new document, to the
block of its toast and to the header of the parent.  It changes no other byte of the data area as
long as the zero bytes of a reused toast do not reach into another block (`create_frame`).

They do when a DEAD block gets a toast again and another block starts where it ends: the code
writes as many zero bytes behind the header of a toast as the whole block has.  Then the header of
the next block is gone (`spilled_frame`).
-/
import Zgdb.Allocation

namespace Zgdb

open Zgdb.Lib AddrSpace

variable {env : Env Nat} {file file' : ZgdbFile Nat} {T : Forest Nat}
  {es : Nat → List StoredElement} {own : Nat → List Nat} {p : Nat}

/-! ## 1. The frame

A creation without expansion writes to the new toast, to the new document, to the header of the
parent and to the tables.  The first three are what `CreateFrame` takes out, and the tables are not
in the data area. -/

/-- The byte at a place of the file. -/
def byteAt (file : ZgdbFile Nat) (a : Nat) : UInt8 := cellByte (file.mem a)

/-- The place lies in the block of `k`. -/
def InBlock (file : ZgdbFile Nat) (k a : Nat) : Prop :=
  (file.indexes k).offset ≤ a ∧ a < (file.indexes k).offset + blockCapacity file k

/-- The place lies in the document header of `k`. -/
def InHeader (file : ZgdbFile Nat) (k a : Nat) : Prop :=
  (file.indexes k).offset ≤ a ∧ a < (file.indexes k).offset + sizeofDocumentHeader

/-- What a creation under `p` leaves as it was: every byte of the data area outside the block of the
new document, the block of its toast and the header of the parent.  The other headers and the
elements of all documents follow from the bytes, and are stated because they are what a reader asks
for. -/
structure CreateFrame (file file' : ZgdbFile Nat) (p : Nat) : Prop where
  bytes : ∀ a, dataStart file.header ≤ a → a < file.header.fileSize →
    ∀ n t, (getDocumentHeader file' p).indexSon = n →
      (getDocumentHeader file' n).firstToastIndex = t →
      ¬ InBlock file' n a → (t ≠ 0 → ¬ InBlock file' t a) → ¬ InHeader file p a →
      byteAt file' a = byteAt file a
  headers : ∀ k, Live file k → k ≠ p → getDocumentHeader file' k = getDocumentHeader file k
  elements : ∀ k, Live file k → entries file' k = entries file k

/-- A byte of a block. -/
theorem byteAt_block (file : ZgdbFile Nat) {k d : Nat} (hk : k < file.header.indexCount) :
    byteAt file ((file.indexes k).offset + d) = cellByte (blockAt file k d) := by
  rw [byteAt, blockAt, blockPos, getIndex_eq hk]
  rfl

/-- A byte that is the same in a block is the same in the file. -/
theorem Extended.byteAt_eq (h : Extended file file') {k d : Nat} (hk : Used file k)
    (heq : blockAt file' k d = blockAt file k d) :
    byteAt file' ((file.indexes k).offset + d) = byteAt file ((file.indexes k).offset + d) := by
  rw [byteAt_block file hk.lt, ← heq, ← h.offset k hk, byteAt_block file' (h.used k hk).lt]

/-- **A created leaf leaves the frame alone.** -/
theorem Inserted.frame {n : Nat} {name : Name} {schema : DocumentSchema} {own' : List Nat}
    (hs : Store file T es own) (hp : p ∈ T.nodes)
    (h : Inserted file file' T es own p n name schema own') (hext : Extended file file') :
    CreateFrame file file' p where
  bytes := by
    rintro a h1 h2 m t hm rfl hnot htoast hheader
    obtain rfl : n = m := h.son.symm.trans hm
    obtain ⟨k, hk, hle, hlt⟩ := hs.blocks.placed.filled.cover a h1 h2
    obtain ⟨d, rfl⟩ := Nat.exists_eq_add_of_le hle
    have hd : d < blockCapacity file k := by omega
    have hin : InBlock file' k ((file.indexes k).offset + d) := by
      rw [InBlock, hext.offset k hk, hext.capacity k hk]
      exact ⟨hle, hlt⟩
    have hkn : k ≠ n := fun he => hnot (he ▸ hin)
    have hko : k ∉ own' := by
      intro hko
      obtain ⟨x, rfl⟩ : ∃ x, own' = [x] := by
        match own', h.single, hko with
        | [x], _, _ => exact ⟨x, rfl⟩
      obtain rfl := List.mem_singleton.mp hko
      obtain ⟨hfirst, h0, -⟩ := h.list
      exact htoast (hfirst ▸ h0) (hfirst ▸ hin)
    refine hext.byteAt_eq hk ?_
    by_cases hkp : k = p
    · subst hkp
      refine h.parent d ?_ hd
      by_contra hlt'
      exact hheader ⟨hle, by omega⟩
    · exact h.others k hk hkn hko hkp d hd
  headers := by
    intro k hk hkp
    have hkT := hs.live_iff.mp hk
    have hdoc := hs.isDocument hkT
    have hal := hs.alive hkT
    refine (hdoc.of_eqOn ((h.others k (Or.inl hal) ?_ ?_ hkp).mono hdoc.header_le)).2.1
    · exact fun he => h.fresh (he ▸ hkT)
    · intro hko
      have hD := h.store.doc n ((Forest.mem_nodes_insertUnder hs.nodup hp).mpr (Or.inl rfl))
      rw [Function.update_self] at hD
      have hkT' : k ∈ (T.insertUnder p n).nodes :=
        (Forest.mem_nodes_insertUnder hs.nodup hp).mpr (Or.inr hkT)
      exact (h.store.isDocument hkT').not_isToast (hD.texts.toast k (by rwa [Function.update_self]))
  elements := fun k hk => h.carried.entries hs (hs.live_iff.mp hk)

/-- **The frame of a creation** without expansion, in any state of a clean run, if the toast does
not spill: no byte of the data area changes but those of the new document, of its toast and of the
header of the parent.  The file grows at its end only, so places of the old file keep their
meaning. -/
theorem create_frame (h : Reaches env (Call.Clean env) file) {now : UInt32} {name : Name}
    {schema : DocumentSchema} (hl : (Call.create now p name schema).Legal file)
    (hn : needsExpansion file = false)
    (hspill : schema.reqToast = true → NoSpill file (toastRequest schema))
    (he : createDocument env.expandIndexes now file name schema (documentAt file p 0)
      = some (.createOk, file')) : CreateFrame file file' p := by
  obtain ⟨T, es, own, hs⟩ := h.sound fun _ _ _ hc => hc
  have hexp : expanded env.expandIndexes file = some file := expanded_of_not hn
  have hclean : (Call.create now p name schema).Clean env file := by
    intro file1 h1
    obtain rfl := Option.some.inj (hexp.symm.trans h1)
    exact ⟨Relocated.refl hs.blocks, hspill⟩
  have hrun : (Call.create now p name schema).exec env file = some file' := by
    rw [Call.exec, he]
    rfl
  obtain ⟨n, own', hi, halloc⟩ := exec_create hs hl hclean hrun
  obtain ⟨file2, m, -, ha⟩ := halloc file hexp
  exact hi.frame hs (hs.live_iff.mp hl.1) ha.extended

/-- A text under the root of a new store. -/
theorem create_frame_init : ∃ file',
    createDocument some 0 (init 0 : ZgdbFile Nat) keyA oneText
      (documentAt (init 0 : ZgdbFile Nat) 0 0)
        = some (.createOk, file') ∧ CreateFrame (init 0) file' 0 := by
  obtain ⟨hclean, file', n, own', hrun, -⟩ :=
    create_first (A := Nat) ⟨some, fun _ => ⟨0, true, 0, false⟩⟩ 0 keyA oneText_built (by decide)
  have hn : needsExpansion (init 0 : ZgdbFile Nat) = false := by
    simp only [needsExpansion, decide_eq_false_iff_not]
    rw [(init_undead 0).2]
    decide
  have hspill := (hclean (init 0) (expanded_of_not hn)).2
  exact ⟨file', hrun, create_frame (Reaches.new 0) ⟨live_init 0, oneText_built, by decide⟩
    hn hspill hrun⟩

/-! ## 2. A toast that spills

A toast whose block was used before gets zero bytes behind its header, as many as the whole block
has.  The last of them lie behind the block.  When the next block starts there, its header is
overwritten; the size of a document is then not what it was. -/

/-- A write to another part of the file changes no byte of a block. -/
theorem blockAt_fwriteAt_apart {α : Type} {K : Kind Obj α} {pos : Nat} {x : α} {j d : Nat}
    (h : blockPos file j + d < pos ∨ pos + K.size ≤ blockPos file j + d) :
    blockAt (fwriteAt K file pos 0 x) j d = blockAt file j d := by
  show store K file.mem (add pos 0) x (blockPos file j + d) = file.mem (blockPos file j + d)
  exact store_apply_nat (by simpa using h)

/-- The second byte of a block of less than 256 bytes is not zero: it is the low byte of a size or
of a capacity. -/
theorem Blocks.second_byte {docs : List Nat} (hb : Blocks file docs) {j : Nat} (hj : Used file j)
    (hsmall : blockCapacity file j < 256) :
    byteAt file ((file.indexes j).offset + 1) ≠ 0 := by
  have hle : ∀ n : Nat, 0 < n → n < 256 → UInt8.ofNat n ≠ 0 := by
    intro n h0 hn he
    have hz : (UInt8.ofNat n).toNat = 0 := by rw [he]; rfl
    rw [UInt8.toNat_ofNat', Nat.mod_eq_of_lt hn] at hz
    omega
  rw [byteAt_block file hj.lt]
  rcases hb.block j hj with hd | ht
  · have hcell := hd.holds 1 (by decide)
    rw [add_nat] at hcell
    rw [hcell]
    have hsize := hd.size_le
    have hpos := hd.le_size
    rw [hd.capacity] at hsmall
    simp only [sizeofDocumentHeader] at hpos
    exact hle _ (by omega) (by omega)
  · have hcell := ht.holds 1 (by decide)
    rw [add_nat] at hcell
    rw [hcell]
    have hpos := ht.le_capacity
    rw [ht.capacity] at hsmall
    simp only [sizeofToast] at hpos
    exact hle _ (by omega) hsmall

section Spill

variable {now : UInt32} {name : Name} {schema : DocumentSchema} {n0 : Node} {list : FreeIndexesList}
  {j : Nat}

/-- What a creation leaves whose toast has got the block of the DEAD node `n0`, and its document the
NEW node `m`: the zero bytes behind the header of the toast end `sizeofToast` behind the block. -/
structure SpillMade (file file' : ZgdbFile Nat) (p : Nat) (n0 m : Node) : Prop where
  fresh : ∀ k, Used file k → k ≠ m.indexOrder
  indexCount : file'.header.indexCount = file.header.indexCount
  self : Used file n0.indexOrder ∧ Alive file' n0.indexOrder ∧ n0.indexOrder ≠ p
  alive : ∀ k, Alive file k → Alive file' k
  aliveNew : Alive file' m.indexOrder
  offset : ∀ k, Used file k → (file'.indexes k).offset = (file.indexes k).offset
  offsetNew : (file'.indexes m.indexOrder).offset = file.header.fileSize
  parent : Holds documentHeaderK (blockAt file' p) 0
    { getDocumentHeader file p with indexSon := m.indexOrder }
  attached : (getDocumentHeader file' m.indexOrder).indexAttached = m.indexOrder
  brother : (getDocumentHeader file' m.indexOrder).indexBrother
    = (getDocumentHeader file p).indexSon
  firstToast : (getDocumentHeader file' m.indexOrder).firstToastIndex = n0.indexOrder
  capacity : blockCapacity file' n0.indexOrder = n0.blockSize
  bytes : ∀ j, Used file j → j ≠ p → j ≠ n0.indexOrder → ∀ d < blockCapacity file j,
    blockAt file' j d =
      if (file.indexes n0.indexOrder).offset + n0.blockSize ≤ (file.indexes j).offset + d ∧
        (file.indexes j).offset + d
          < (file.indexes n0.indexOrder).offset + n0.blockSize + sizeofToast then ⟨.byte 0, 0⟩
      else blockAt file j d

/-- A toast in the block of the DEAD node `n0`. -/
structure DeadToast (file file2 : ZgdbFile Nat) (schema : DocumentSchema) (n0 : Node) : Prop where
  alloc : ToastAlloc file file2 (toastRequest schema) (toastRequest schema + sizeofToast) n0
  blocks : Placed file (blockCapacity file)
  dead : n0.blockSize ≠ 0
  lt : n0.indexOrder < file.header.indexCount
  flag : (file.indexes n0.indexOrder).flag = .dead
  size : n0.blockSize = blockCapacity file n0.indexOrder
  room : sizeofToast + chunksOf schema.elements * chunkRecord ≤ n0.blockSize

namespace DeadToast

variable {file2 : ZgdbFile Nat}

theorem used (h : DeadToast file file2 schema n0) : Used file n0.indexOrder :=
  Or.inr ⟨h.lt, h.flag⟩

theorem chosen (h : DeadToast file file2 schema n0) (c : Nat) :
    chosenCapacity n0 c = n0.blockSize := if_neg h.dead

theorem offset (h : DeadToast file file2 schema n0) :
    blockOffset file n0.indexOrder = (file.indexes n0.indexOrder).offset :=
  blockOffset_of_dead h.lt h.flag

theorem toast (h : DeadToast file file2 schema n0) : IsToast file2 n0.indexOrder ∧
    toastAt file2 n0.indexOrder = toastHeader n0 (toastRequest schema + sizeofToast) := by
  have hle : sizeofToast ≤ (toastHeader n0 (toastRequest schema + sizeofToast)).capacity := by
    show sizeofToast ≤ chosenCapacity n0 _
    rw [h.chosen]
    exact (Nat.le_add_right _ _).trans h.room
  have hto := IsToast.of_holds (h.alloc.holds h.lt) rfl rfl hle
  exact ⟨hto.1, hto.2.1⟩

theorem alive_iff (h : DeadToast file file2 schema n0) (k : Nat) :
    Alive file2 k ↔ k = n0.indexOrder ∨ Alive file k := h.alloc.attached.alive_iff h.lt

theorem usedAfter (h : DeadToast file file2 schema n0) {k : Nat} (hk : Used file k) :
    Used file2 k :=
  (h.alloc.attached.used_iff h.lt).mpr (Or.inr hk)

theorem placed (h : DeadToast file file2 schema n0) : Placed file2 (blockCapacity file) :=
  h.blocks.attach h.alloc.attached (fun _ _ _ => rfl) (by rw [h.chosen, h.size])

theorem blockPos_other (h : DeadToast file file2 schema n0) {k : Nat} (hk : Used file k)
    (hk0 : k ≠ n0.indexOrder) : blockPos file2 k = (file.indexes k).offset := by
  rw [h.alloc.attached.blockPos_other hk0, blockPos, getIndex_eq hk.lt]
  rfl

/-- **The bytes that the toast writes behind its block.** -/
theorem mem_eq (h : DeadToast file file2 schema n0) {a : Nat}
    (ha : a < (file.indexes n0.indexOrder).offset ∨
      (file.indexes n0.indexOrder).offset + n0.blockSize ≤ a) :
    file2.mem a = if (file.indexes n0.indexOrder).offset + n0.blockSize ≤ a ∧
        a < (file.indexes n0.indexOrder).offset + n0.blockSize + sizeofToast then ⟨.byte 0, 0⟩
      else file.mem a := by
  have hbase : (BlockSpace.base n0.indexOrder (file.indexes n0.indexOrder).offset : Nat)
      = (file.indexes n0.indexOrder).offset := rfl
  have hroom := h.room
  have hsize : toastK.size = sizeofToast := rfl
  rw [h.alloc.bytes, h.chosen, h.offset]
  by_cases hz : (file.indexes n0.indexOrder).offset + n0.blockSize ≤ a ∧
      a < (file.indexes n0.indexOrder).offset + n0.blockSize + sizeofToast
  · obtain ⟨e, rfl⟩ := Nat.exists_eq_add_of_le (by omega :
      (file.indexes n0.indexOrder).offset + sizeofToast ≤ a)
    rw [if_pos hz]
    exact (fill_apply_add e).trans (if_pos (by omega))
  · rw [if_neg hz]
    exact (fill_apply_nat (by rw [add_nat]; omega)).trans (store_apply_nat (by rw [add_nat]; omega))

end DeadToast

/-- The steps of such a creation: the toast, the document in the block of the NEW node `m`, the
header of the parent. -/
structure SpillSteps (file file2 file3 file' : ZgdbFile Nat) (p : Nat) (schema : DocumentSchema)
    (header : DocumentHeader) (n0 m : Node) : Prop where
  toast : DeadToast file file2 schema n0
  block : BlockFilled file2 file3 (blockCapacity file) schema header [n0.indexOrder] m
  unused : (file2.indexes m.indexOrder).flag = .new
  lt : m.indexOrder < file2.header.indexCount
  parent : Used file p ∧ documentHeaderK.size ≤ blockCapacity file p ∧ p ≠ n0.indexOrder
  linked : file' = fwriteAt documentHeaderK file3 (blockPos file3 p) 0
    { getDocumentHeader file p with indexSon := m.indexOrder }

namespace SpillSteps

variable {file2 file3 file' : ZgdbFile Nat} {header : DocumentHeader} {m : Node}

theorem fresh (h : SpillSteps file file2 file3 file' p schema header n0 m) {k : Nat}
    (hk : Used file k) : k ≠ m.indexOrder := by
  rintro rfl
  have hnew := h.unused
  rcases h.toast.usedAfter hk with ⟨-, hf⟩ | ⟨-, hf⟩ <;> rw [hnew] at hf <;> cases hf

theorem indexes (h : SpillSteps file file2 file3 file' p schema header n0 m) :
    file'.indexes = file3.indexes := by
  rw [h.linked]
  rfl

theorem fileHeader (h : SpillSteps file file2 file3 file' p schema header n0 m) :
    file'.header = file3.header := by
  rw [h.linked]
  rfl

theorem indexCount (h : SpillSteps file file2 file3 file' p schema header n0 m) :
    file'.header.indexCount = file.header.indexCount := by
  rw [h.fileHeader, h.block.attached.indexCount, h.toast.alloc.attached.indexCount]

theorem alive_iff (h : SpillSteps file file2 file3 file' p schema header n0 m) (k : Nat) :
    Alive file' k ↔ k = m.indexOrder ∨ k = n0.indexOrder ∨ Alive file k := by
  have hsame : Alive file' k ↔ Alive file3 k := by
    unfold Alive
    rw [h.fileHeader, h.indexes]
  rw [hsame, h.block.attached.alive_iff h.lt, h.toast.alive_iff]

theorem offset (h : SpillSteps file file2 file3 file' p schema header n0 m) {k : Nat}
    (hk : Used file k) : (file'.indexes k).offset = (file.indexes k).offset := by
  rw [h.indexes, h.block.attached.other k (h.fresh hk)]
  by_cases hk0 : k = n0.indexOrder
  · rw [hk0, h.toast.alloc.attached.self, h.toast.offset]
  · rw [h.toast.alloc.attached.other k hk0]

theorem offsetNew (h : SpillSteps file file2 file3 file' p schema header n0 m) :
    (file'.indexes m.indexOrder).offset = file.header.fileSize := by
  rw [h.indexes, h.block.attached.self, blockOffset_of_new h.lt h.unused,
    h.toast.alloc.attached.fileSize, if_neg h.toast.dead]

theorem blockPos_eq (h : SpillSteps file file2 file3 file' p schema header n0 m) {k : Nat}
    (hk : k < file.header.indexCount) : blockPos file3 k = (file'.indexes k).offset := by
  have hlt3 : k < file3.header.indexCount := by
    rw [← h.fileHeader, h.indexCount]
    exact hk
  rw [blockPos, getIndex_eq hlt3, h.indexes]
  rfl

theorem posNew (h : SpillSteps file file2 file3 file' p schema header n0 m) :
    blockPos file3 m.indexOrder = file.header.fileSize := by
  have hlt := h.lt
  rw [h.toast.alloc.attached.indexCount] at hlt
  rw [h.blockPos_eq hlt, h.offsetNew]

/-- The header of the parent is the last that is written. -/
theorem read (h : SpillSteps file file2 file3 file' p schema header n0 m) {k d : Nat}
    (hd : blockPos file3 k + d < (file.indexes p).offset ∨
      (file.indexes p).offset + documentHeaderK.size ≤ blockPos file3 k + d) :
    blockAt file' k d = blockAt file3 k d := by
  rw [h.linked, h.blockPos_eq h.parent.1.lt, h.offset h.parent.1]
  exact blockAt_fwriteAt_apart hd

/-- The new document has the header it was given. -/
theorem newDocument (h : SpillSteps file file2 file3 file' p schema header n0 m) :
    getDocumentHeader file' m.indexOrder = header := by
  have hin := h.toast.blocks.filled.inside p h.parent.1
  have hle := h.parent.2.1
  have hholds := h.block.head.congr fun i _ => h.read (by
    rw [h.posNew, add_nat]
    omega : blockPos file3 m.indexOrder + add 0 i < _ ∨ _)
  rw [getDocumentHeader_eq, load_of_holds hholds]

/-- The toast has the capacity of its block. -/
theorem capacity (h : SpillSteps file file2 file3 file' p schema header n0 m) :
    blockCapacity file' n0.indexOrder = n0.blockSize := by
  obtain ⟨hto3, hta3⟩ := h.block.toast _ List.mem_cons_self
  have hdisj := h.toast.blocks.filled.disjoint n0.indexOrder p h.toast.used h.parent.1
    h.parent.2.2.symm
  have hsize := h.toast.size
  have hroom := h.toast.room
  have hle := h.parent.2.1
  have hcap := (hto3.of_eqOn fun d hd => h.read (by
    rw [h.blockPos_eq h.toast.lt, h.offset h.toast.used]
    omega)).2.2
  rw [hcap, hto3.capacity, hta3, h.toast.toast.2]
  exact h.toast.chosen _

/-- **The zero bytes behind the toast** are all that the other blocks see. -/
theorem bytes (h : SpillSteps file file2 file3 file' p schema header n0 m) {j d : Nat}
    (hj : Used file j) (hjp : j ≠ p) (hj0 : j ≠ n0.indexOrder) (hd : d < blockCapacity file j) :
    blockAt file' j d =
      if (file.indexes n0.indexOrder).offset + n0.blockSize ≤ (file.indexes j).offset + d ∧
        (file.indexes j).offset + d
          < (file.indexes n0.indexOrder).offset + n0.blockSize + sizeofToast then ⟨.byte 0, 0⟩
      else blockAt file j d := by
  have hdisj := h.toast.blocks.filled.disjoint j p hj h.parent.1 hjp
  have hdisj0 := h.toast.blocks.filled.disjoint j n0.indexOrder hj h.toast.used hj0
  have hle := h.parent.2.1
  have hsize := h.toast.size
  have hread : blockAt file' j d = blockAt file3 j d := h.read (by
    rw [h.blockPos_eq hj.lt, h.offset hj]
    omega)
  have hj2 : blockAt file2 j d = file2.mem ((file.indexes j).offset + d) := by
    rw [blockAt, h.toast.blockPos_other hj hj0]
    rfl
  have hj1 : blockAt file j d = file.mem ((file.indexes j).offset + d) := by
    rw [blockAt, blockPos, getIndex_eq hj.lt]
    rfl
  rw [hread, h.block.others j (h.toast.usedAfter hj) (h.fresh hj) (by simpa using hj0) d hd, hj2,
    hj1, h.toast.mem_eq (by omega)]

end SpillSteps

/-- **The way of a creation whose toast gets a DEAD block.** -/
theorem Store.spillSteps {file' : ZgdbFile Nat} (hs : Store file T es own)
    (hl : (Call.create now p name schema).Legal file) (hn : needsExpansion file = false)
    (hreq : schema.reqToast = true)
    (hfind : findRelevantIndex file.freeList (toastRequest schema) = some (n0, list))
    (hdead : n0.blockSize ≠ 0) (hnew : ∀ x ∈ list.nodes, x.blockSize < docSize schema)
    (he : createDocument env.expandIndexes now file name schema (documentAt file p 0)
      = some (.createOk, file')) : ∃ file2 file3 m, SpillSteps file file2 file3 file' p schema
        (newHeader now file2 name schema n0.indexOrder (getDocumentHeader file p) m) n0 m := by
  have hwf := hl.2.1.wf
  have hp := hs.live_iff.mp hl.1
  have hask0 := hwf.toastRequest_pos hreq
  have hplace := hs.blocks.placed
  obtain ⟨-, file1, t, file2, order, file3, h1, h2, h3, hf⟩ := createDocument_cases he hl.2.2
  obtain rfl := Option.some.inj ((expanded_of_not hn).symm.trans h1)
  rw [createToast, if_pos hreq] at h2
  -- the toast: its block is the one of the DEAD node
  obtain ⟨n, rfl, hal⟩ := allocToast_cases hplace.sound hplace.node_lt hask0 h2
  obtain ⟨l, hl'⟩ := hal.chosen
  obtain ⟨rfl, rfl⟩ := Prod.mk.inj (Option.some.inj (hfind.symm.trans hl'))
  obtain ⟨hlt, ⟨hz, -⟩ | ⟨-, hflag, hsize⟩⟩ := hplace.node n0 hal.mem
  · exact absurd hz hdead
  have htoast : DeadToast file file2 schema n0 := ⟨hal, hplace, hdead, hlt, hflag, hsize,
    (hwf.le_toastRequest hreq).trans (hal.large.resolve_left hdead)⟩
  have hplaced := htoast.placed
  -- the document gets a NEW index
  obtain ⟨m, rfl, hb⟩ : ∃ m, order = m.indexOrder ∧ BlockFilled file2 file3 (blockCapacity file)
      schema (newHeader now file2 name schema n0.indexOrder _ m) [n0.indexOrder] m := by
    refine createBlock_filled hplaced hwf ?_ (fun _ => List.mem_cons_self) h3
    intro x hx
    obtain rfl := List.mem_singleton.mp hx
    refine ⟨rfl, (htoast.alive_iff _).mpr (Or.inl rfl), htoast.toast.1, ?_, ?_⟩
    · rw [htoast.toast.2]
      rfl
    · rw [← hsize]
      exact htoast.room
  have hmem : m ∈ list.nodes := by
    obtain ⟨hperm, -, -⟩ := findRelevantIndex_spec hplace.sound hask0 hfind
    have hmn : m ∈ n0 :: list.nodes := hperm.mem_iff.mp
      (hal.attached.perm.mem_iff.mpr (List.mem_cons_of_mem _ hb.mem))
    refine (List.mem_cons.mp hmn).resolve_left ?_
    rintro rfl
    exact hplaced.not_alive hb.mem ((htoast.alive_iff _).mpr (Or.inl rfl))
  have hm0 : m.blockSize = 0 := by
    by_contra hne
    have hle := hb.large
    rw [chosenCapacity, if_neg hne] at hle
    have := hnew m hmem
    omega
  obtain ⟨hltm, hmnode⟩ := hplaced.node m hb.mem
  have hmnew : (file2.indexes m.indexOrder).flag = .new := by
    rcases hmnode with ⟨-, hf⟩ | ⟨hpos, -⟩
    · exact hf
    · omega
  have hindexp : (documentAt file p 0).header.indexAttached = p := hs.attached hp
  rw [hindexp] at hf hb
  have hp0 : p ≠ n0.indexOrder := fun h0 => hplace.not_alive hal.mem (h0 ▸ hs.alive hp)
  exact ⟨file2, file3, m, htoast, hb, hmnew, hltm,
    ⟨Or.inl (hs.alive hp), (hs.isDocument hp).header_le, hp0⟩, hf⟩

/-- **A creation whose toast gets a DEAD block.** -/
theorem Store.spillMade (hs : Store file T es own)
    (hl : (Call.create now p name schema).Legal file) (hn : needsExpansion file = false)
    (hreq : schema.reqToast = true)
    (hfind : findRelevantIndex file.freeList (toastRequest schema) = some (n0, list))
    (hdead : n0.blockSize ≠ 0) (hnew : ∀ x ∈ list.nodes, x.blockSize < docSize schema)
    (he : createDocument env.expandIndexes now file name schema (documentAt file p 0)
      = some (.createOk, file')) : ∃ m, SpillMade file file' p n0 m := by
  obtain ⟨file2, file3, m, h⟩ := hs.spillSteps hl hn hreq hfind hdead hnew he
  have hhead := h.newDocument
  refine ⟨m, fun k hk => h.fresh hk, h.indexCount,
    ⟨h.toast.used, (h.alive_iff _).mpr (Or.inr (Or.inl rfl)), h.parent.2.2.symm⟩,
    fun k hk => (h.alive_iff k).mpr (Or.inr (Or.inr hk)), (h.alive_iff _).mpr (Or.inl rfl),
    fun k hk => h.offset hk, h.offsetNew, ?_, ?_, ?_, ?_, h.capacity,
    fun j hj hjp hj0 d hd => h.bytes hj hjp hj0 hd⟩
  · rw [h.linked, blockAt_fwriteAt]
    exact holds_store
  · rw [hhead]
    rfl
  · rw [hhead]
    rfl
  · rw [hhead]
    rfl

/-- **A reused toast in front of another block breaks the frame.** -/
theorem Store.spilled (hs : Store file T es own)
    (hl : (Call.create now p name schema).Legal file) (hn : needsExpansion file = false)
    (hreq : schema.reqToast = true)
    (hfind : findRelevantIndex file.freeList (toastRequest schema) = some (n0, list))
    (hdead : n0.blockSize ≠ 0) (hj : Used file j) (hjp : j ≠ p)
    (hnext : (file.indexes j).offset = (file.indexes n0.indexOrder).offset + n0.blockSize)
    (hsmall : blockCapacity file j < 256) (hnew : ∀ x ∈ list.nodes, x.blockSize < docSize schema)
    (he : createDocument env.expandIndexes now file name schema (documentAt file p 0)
      = some (.createOk, file')) : ¬ CreateFrame file file' p := by
  obtain ⟨m, h⟩ := hs.spillMade hl hn hreq hfind hdead hnew he
  have hp := hs.live_iff.mp hl.1
  have hfilled := hs.blocks.placed.filled
  have hj0 : j ≠ n0.indexOrder := by
    rintro rfl
    omega
  have hjcap : sizeofToast ≤ blockCapacity file j := by
    rcases hs.blocks.block j hj with hd | ht
    · exact le_trans (by decide) hd.header_le
    · exact ht.header_le
  simp only [sizeofToast] at hjcap
  have hinj := hfilled.inside j hj
  have hdisj := hfilled.disjoint j p hj (Or.inl (hs.alive hp)) hjp
  have hpcap := (hs.isDocument hp).header_le
  simp only [sizeofDocumentHeader] at hpcap
  -- the second byte is zero now
  have hzero : byteAt file' ((file.indexes j).offset + 1) = 0 := by
    have hcell := h.bytes j hj hjp hj0 1 (by omega)
    rw [if_pos (by simp only [sizeofToast]; omega)] at hcell
    rw [← h.offset j hj, byteAt_block file' (h.indexCount ▸ hj.lt), hcell]
    rfl
  intro hframe
  have hson : (getDocumentHeader file' p).indexSon = m.indexOrder := by
    rw [getDocumentHeader_eq, load_of_holds h.parent]
  refine hs.blocks.second_byte hj hsmall ((hframe.bytes _ (by omega) (by omega) _ _ hson
    h.firstToast ?_ ?_ ?_).symm.trans hzero)
  · rw [InBlock, h.offsetNew]
    omega
  · intro _
    rw [InBlock, h.capacity, h.offset _ h.self.1]
    omega
  · rw [InHeader]
    simp only [sizeofDocumentHeader]
    omega

end Spill

/-- A file in which nothing needs to be expanded. -/
def flatEnv : Env Nat := ⟨some, fun _ => ⟨0, true, 0, false⟩⟩

/-- A schema of a short text and a number. -/
def textAndInt : DocumentSchema :=
  (addIntToSchema (addTextToSchema (initSchema 2) keyA stringA).2 keyB 0).2

theorem textAndInt_built : textAndInt.Built := .int _ _ (.text _ _ (.init 2))

/-- A document with a text is created and deleted, and one with a text and a number is created: its
toast takes the old toast, and the zero bytes reach into the block of the old document. -/
theorem spilled_frame : ∃ file file' : ZgdbFile Nat,
    Reaches flatEnv (fun _ _ => True) file ∧ (Call.create 0 0 keyB textAndInt).Legal file ∧
      needsExpansion file = false ∧
      createDocument flatEnv.expandIndexes 0 file keyB textAndInt (documentAt file 0 0)
        = some (.createOk, file') ∧
      ¬ CreateFrame file file' 0 := by
  obtain ⟨-, file1, n, own', hrun1, hi, hend⟩ :=
    create_first flatEnv 0 keyA oneText_built (by decide)
  obtain ⟨t, rfl, hot, hct, hon⟩ := hend.text (by decide)
  have hs1 := hi.store
  have htree : rootTree.insertUnder 0 n = .cons 0 (.cons n .nil .nil) .nil := by
    simp [Forest.insertUnder]
  have hn0 : n ≠ 0 := fun h0 => hi.fresh (h0 ▸ List.mem_cons_self)
  have hsons : (rootTree.insertUnder 0 n).sonsOf 0 = .cons n .nil .nil := by
    simp [htree, Forest.sonsOf]
  have hbelow : (rootTree.insertUnder 0 n).sonsOf n = .nil := by
    simp [htree, Forest.sonsOf, Ne.symm hn0]
  have h0 : 0 ∈ (rootTree.insertUnder 0 n).nodes := by simp [htree]
  have hlive : ∀ k, k = 0 ∨ k = n → Live file1 k := fun k hk =>
    hs1.live_iff.mpr (by simp [htree, hk])
  have hdel : (Call.delete n 0).Legal file1 :=
    ⟨hlive n (Or.inr rfl), hn0, hlive 0 (Or.inl rfl), (hs1.sonOf_iff h0).mpr (by simp [hsons])⟩
  obtain ⟨file2, hrun2, ts, hr⟩ : ∃ file2, (Call.delete n 0).exec flatEnv file1 = some file2 ∧ _ :=
    exec_delete _ hs1 hdel
  obtain rfl := hr.list.unique hi.list
  have hs2 := hr.store
  have hlive2 : Live file2 0 := hs2.live_iff.mpr
    ((Forest.mem_nodes_remove hs1.nodup (hs1.live_iff.mp hdel.1)).mpr
      ⟨h0, Ne.symm hn0, by simp [hbelow]⟩)
  have hcreate : (Call.create 0 0 keyA oneText).Legal (init 0 : ZgdbFile Nat) :=
    ⟨live_init 0, oneText_built, by decide⟩
  have hexec : (Call.create 0 0 keyA oneText).exec flatEnv (init 0) = some file1 := by
    rw [Call.exec, hrun1]
    rfl
  have hreach : Reaches flatEnv (fun _ _ => True) file2 :=
    ((Reaches.new 0).snoc hcreate trivial hexec).snoc hdel trivial hrun2
  -- the free list: the toast is the largest node
  have hfree : file2.freeList.nodes.Perm (⟨n, 106⟩ :: ⟨t, 124⟩ :: file1.freeList.nodes) := by
    have h := hr.reclaimed.freeList
    rw [hbelow] at h
    simp only [Forest.nodes_nil, List.nil_append, List.map_cons, List.map_nil, hct,
      hend.docCapacity] at h
    exact h
  have hnew : file2.freeList.newIndexesCount = file1.freeList.newIndexesCount := by
    rw [hs2.blocks.placed.sound.newIndexes, hs1.blocks.placed.sound.newIndexes, hfree.countP_eq]
    simp
  have hroom := hend.room
  rw [(init_undead 0).2, ← hnew] at hroom
  have hmany : indexInitialCapacity - 1 = 49999 := rfl
  have hexp : needsExpansion file2 = false := by
    have hcap : indexInitialCapacity / 8 = 6250 := rfl
    simp only [needsExpansion, decide_eq_false_iff_not]
    omega
  have hlarger : file2.freeList.nodes.Perm (⟨t, 124⟩ :: ⟨n, 106⟩ :: file1.freeList.nodes) :=
    hfree.trans (List.Perm.swap ..)
  have hsmaller : ∀ x ∈ (⟨n, 106⟩ : Node) :: file1.freeList.nodes, x.blockSize < 124 := by
    intro x hx
    rcases List.mem_cons.mp hx with rfl | hx
    · show 106 < 124
      omega
    · rw [hend.undead x hx]
      decide
  obtain ⟨list, hfind, hlist, -⟩ := findRelevantIndex_perm hs2.blocks.placed.sound hlarger
    (fun x hx => Or.inr (hsmaller x hx)) (by decide)
    (show toastRequest textAndInt ≤ 124 by decide)
  have hrest : ∀ x ∈ list.nodes, x.blockSize < docSize textAndInt := by
    intro x hx
    have hsize : docSize textAndInt = 124 := by decide
    rw [hsize]
    exact hsmaller x (hlist.mem_iff.mp hx)
  have hnode : ⟨n, 106⟩ ∈ file2.freeList.nodes := hfree.mem_iff.mpr List.mem_cons_self
  have hdead : Used file2 n := by
    obtain ⟨hlt, ⟨hz, -⟩ | ⟨-, hf, -⟩⟩ := hs2.blocks.placed.node ⟨n, 106⟩ hnode
    · cases hz
    · exact Or.inr ⟨hlt, hf⟩
  have hcapn : blockCapacity file2 n = 106 := by
    obtain ⟨-, ⟨hz, -⟩ | ⟨-, -, hc⟩⟩ := hs2.blocks.placed.node ⟨n, 106⟩ hnode
    · cases hz
    · exact hc.symm
  have hoff : ∀ k, (file2.indexes k).offset = (file1.indexes k).offset := by
    intro k
    rw [hr.reclaimed.indexes]
    split <;> rfl
  have hl : (Call.create 0 0 keyB textAndInt).Legal file2 :=
    ⟨hlive2, textAndInt_built, by decide⟩
  obtain ⟨file', hrun⟩ : ∃ file', createDocument flatEnv.expandIndexes 0 file2 keyB textAndInt
      (documentAt file2 0 0) = some (.createOk, file') :=
    createDocument_isSome hl.2.2 (expanded_of_not hexp) hs2.blocks.placed.sound (by omega)
  refine ⟨file2, file', hreach, hl, hexp, hrun, ?_⟩
  refine hs2.spilled hl hexp (by decide) hfind (Nat.succ_ne_zero 123) hdead hn0 ?_
    (by rw [hcapn]; decide)
    hrest hrun
  rw [hoff, hoff, hon, hot]
  rfl

end Zgdb
