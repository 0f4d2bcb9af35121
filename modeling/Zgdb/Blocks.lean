/-
# Every index in its class, every block in its place

The invariant of the allocation side of the store.  An index is ALIVE and in no node of the free
list, or NEW or DEAD and in exactly one, and the blocks of the ALIVE and the DEAD indices fill the
data area without a gap (`Placed`).  Each of them begins with the header of a document or of a
toast that names its own index, and this header gives the capacity of the block (`Blocks`).

The rules at the end are the two ways the code changes an index: a chosen index gets a block
(`Blocks.attach`), and an ALIVE index is freed (`Blocks.free`).  Both leave every other block in
its class.
-/
import Zgdb.Document
import Zgdb.Text
import Zgdb.Lib.Layout

namespace Zgdb

open Zgdb.Lib AddrSpace

variable {A : Type}

/-! ## 1. Classes of indices and of blocks

What the header of a block says is read from its bytes, so each predicate comes with the rule that
it depends on the first bytes of the block only. -/

def Alive (file : ZgdbFile A) (k : Nat) : Prop :=
  k < file.header.indexCount ∧ (file.indexes k).flag = .alive

def Dead (file : ZgdbFile A) (k : Nat) : Prop :=
  k < file.header.indexCount ∧ (file.indexes k).flag = .dead

/-- An index with a block: ALIVE or DEAD.  A DEAD index keeps its block until it is given out again,
so the blocks of both take part in the layout of the file. -/
def Used (file : ZgdbFile A) (k : Nat) : Prop := Alive file k ∨ Dead file k

theorem getIndex_eq {file : ZgdbFile A} {k : Nat} (h : k < file.header.indexCount) :
    getIndex file k = file.indexes k := if_neg (by omega)

theorem Used.lt {file : ZgdbFile A} {k : Nat} (h : Used file k) : k < file.header.indexCount :=
  h.elim And.left And.left

variable [BlockSpace A]

/-- The capacity recorded in the block of an index, read by the type byte as `expandIndexes`
does. -/
def blockCapacity (file : ZgdbFile A) (k : Nat) : Nat :=
  if freadAt byteK file (blockPos file k) 0 = BlockType.toast.code then (toastAt file k).capacity
  else (getDocumentHeader file k).capacity

/-- The block of `k` begins with a document header that names `k`.  The block is `capacity` bytes
long and the document takes `size` of them: a block that has been given out again can be longer than
the document that lies in it now. -/
structure IsDocument (file : ZgdbFile A) (k : Nat) : Prop where
  holds : Holds documentHeaderK (blockAt file k) 0 (getDocumentHeader file k)
  type : (getDocumentHeader file k).blockType = BlockType.document.code
  attached : (getDocumentHeader file k).indexAttached = k
  le_size : sizeofDocumentHeader ≤ (getDocumentHeader file k).size
  size_le : (getDocumentHeader file k).size ≤ (getDocumentHeader file k).capacity

/-- The block of `k` begins with a toast header that names `k`.  A toast takes all of its block; how
many chunks of it are in use says the counter `used`, which this predicate leaves open. -/
structure IsToast (file : ZgdbFile A) (k : Nat) : Prop where
  holds : Holds toastK (blockAt file k) 0 (toastAt file k)
  type : (toastAt file k).blockType = BlockType.toast.code
  attached : (toastAt file k).indexAttached = k
  le_capacity : sizeofToast ≤ (toastAt file k).capacity

/-- Reading the header of a block is reading its view. -/
theorem getDocumentHeader_eq (file : ZgdbFile A) (k : Nat) :
    getDocumentHeader file k = load documentHeaderK (blockAt file k) 0 :=
  (load_view _ _ _).symm

theorem toastAt_eq (file : ZgdbFile A) (k : Nat) :
    toastAt file k = load toastK (blockAt file k) 0 :=
  (load_view _ _ _).symm

theorem freadAt_eq {α : Type} (K : Kind Obj α) (file : ZgdbFile A) (k d : Nat) :
    freadAt K file (blockPos file k) d = load K (blockAt file k) d :=
  (load_view _ _ _).symm

/-- The first byte of an object is the first byte of its representation. -/
theorem load_byte_of_holds {α : Type} {K : Kind Obj α} {m : Mem Nat Obj} {d : Nat} {a : α}
    (h : Holds K m d a) (hb : byteK.unwrap (K.wrap a) = none) :
    load byteK m d = (K.wrap a).bytes.getD 0 0 := by
  have h0 : m d = ⟨K.wrap a, 0⟩ := h 0 K.size_pos
  have hc : cells m d 1 = [⟨K.wrap a, 0⟩] := by simp [cells, h0]
  unfold load
  rw [h0]
  simp only [hb]
  show (List.map cellByte (cells m d 1)).getD 0 0 = _
  rw [hc]
  rfl

theorem IsDocument.of_holds {file : ZgdbFile A} {k : Nat} {h : DocumentHeader}
    (hh : Holds documentHeaderK (blockAt file k) 0 h) (ht : h.blockType = BlockType.document.code)
    (hk : h.indexAttached = k) (hs : sizeofDocumentHeader ≤ h.size) (hc : h.size ≤ h.capacity) :
    IsDocument file k ∧ getDocumentHeader file k = h ∧ blockCapacity file k = h.capacity := by
  have hl : getDocumentHeader file k = h := by rw [getDocumentHeader_eq, load_of_holds hh]
  refine ⟨⟨hl ▸ hh, hl ▸ ht, hl ▸ hk, hl ▸ hs, hl ▸ hc⟩, hl, ?_⟩
  rw [blockCapacity, freadAt_eq, load_byte_of_holds hh rfl]
  show (if h.blockType = _ then _ else _) = _
  rw [ht, if_neg (by decide), hl]

theorem IsToast.of_holds {file : ZgdbFile A} {k : Nat} {t : Toast}
    (hh : Holds toastK (blockAt file k) 0 t) (ht : t.blockType = BlockType.toast.code)
    (hk : t.indexAttached = k) (hc : sizeofToast ≤ t.capacity) :
    IsToast file k ∧ toastAt file k = t ∧ blockCapacity file k = t.capacity := by
  have hl : toastAt file k = t := by rw [toastAt_eq, load_of_holds hh]
  refine ⟨⟨hl ▸ hh, hl ▸ ht, hl ▸ hk, hl ▸ hc⟩, hl, ?_⟩
  rw [blockCapacity, freadAt_eq, load_byte_of_holds hh rfl]
  show (if t.blockType = _ then _ else _) = _
  rw [ht, if_pos rfl, hl]

theorem IsDocument.capacity {file : ZgdbFile A} {k : Nat} (h : IsDocument file k) :
    blockCapacity file k = (getDocumentHeader file k).capacity :=
  (IsDocument.of_holds h.holds h.type h.attached h.le_size h.size_le).2.2

theorem IsToast.capacity {file : ZgdbFile A} {k : Nat} (h : IsToast file k) :
    blockCapacity file k = (toastAt file k).capacity :=
  (IsToast.of_holds h.holds h.type h.attached h.le_capacity).2.2

/-- No block is both. -/
theorem IsDocument.not_isToast {file : ZgdbFile A} {k : Nat} (h : IsDocument file k) :
    ¬ IsToast file k := by
  intro ht
  have h1 := h.holds 0 (by decide)
  have h2 := ht.holds 0 (by decide)
  rw [h1] at h2
  cases h2

/-- A header lies inside its block. -/
theorem IsDocument.header_le {file : ZgdbFile A} {k : Nat} (h : IsDocument file k) :
    sizeofDocumentHeader ≤ blockCapacity file k := by
  rw [h.capacity]
  exact h.le_size.trans h.size_le

theorem IsToast.header_le {file : ZgdbFile A} {k : Nat} (h : IsToast file k) :
    sizeofToast ≤ blockCapacity file k := by
  rw [h.capacity]
  exact h.le_capacity

/-- Blocks with the same header bytes are of the same class. -/
theorem IsDocument.of_eqOn {file file' : ZgdbFile A} {k : Nat} (h : IsDocument file k)
    (heq : ∀ d < sizeofDocumentHeader, blockAt file' k d = blockAt file k d) :
    IsDocument file' k ∧ getDocumentHeader file' k = getDocumentHeader file k ∧
      blockCapacity file' k = blockCapacity file k := by
  rw [h.capacity]
  exact IsDocument.of_holds
    (h.holds.of_eqOn (Nat.le_refl 0) (Nat.le_refl _) fun x _ hx => heq x
      (by rwa [Nat.zero_add] at hx))
    h.type h.attached h.le_size h.size_le

theorem IsToast.of_eqOn {file file' : ZgdbFile A} {k : Nat} (h : IsToast file k)
    (heq : ∀ d < sizeofToast, blockAt file' k d = blockAt file k d) :
    IsToast file' k ∧ toastAt file' k = toastAt file k ∧
      blockCapacity file' k = blockCapacity file k := by
  rw [h.capacity]
  exact IsToast.of_holds
    (h.holds.of_eqOn (Nat.le_refl 0) (Nat.le_refl _) fun x _ hx => heq x
      (by rwa [Nat.zero_add] at hx))
    h.type h.attached h.le_capacity

/-- What is read from the head of a block depends on its bytes only. -/
theorem blockCapacity_congr {file file' : ZgdbFile A} {k : Nat}
    (h : blockAt file' k = blockAt file k) : blockCapacity file' k = blockCapacity file k := by
  simp only [blockCapacity, freadAt_eq, toastAt_eq, getDocumentHeader_eq, h]

theorem isDocument_congr {file file' : ZgdbFile A} {k : Nat}
    (h : blockAt file' k = blockAt file k) : IsDocument file' k ↔ IsDocument file k :=
  ⟨fun hd => (hd.of_eqOn fun d _ => by rw [h]).1, fun hd => (hd.of_eqOn fun d _ => by rw [h]).1⟩

theorem isToast_congr {file file' : ZgdbFile A} {k : Nat}
    (h : blockAt file' k = blockAt file k) : IsToast file' k ↔ IsToast file k :=
  ⟨fun hd => (hd.of_eqOn fun d _ => by rw [h]).1, fun hd => (hd.of_eqOn fun d _ => by rw [h]).1⟩

/-! ## 2. The invariant

`Tiles` lays blocks one behind the other from one place to another.  From it follows what the frame
rules need: the blocks are disjoint, and they lie between the table and the end of the file. -/

/-- The blocks `ks`, in this order and with these capacities, fill the file from `start` to
`stop`. -/
def Tiles (indexes : Nat → ZgdbIndex) (cap : Nat → Nat) : Nat → List Nat → Nat → Prop
  | start, [], stop => start = stop
  | start, k :: ks, stop => (indexes k).offset = start ∧ Tiles indexes cap (start + cap k) ks stop

/-- Where the data area starts. -/
def dataStart (header : ZgdbHeader) : Nat :=
  sizeofZgdbHeader + header.indexCount * sizeofZgdbIndex + header.betweenSpace

/-- The index table and the free list say the same, and the blocks of the ALIVE and the DEAD
indices, of capacities `cap`, fill the data area.

The free list has each index that is not ALIVE exactly once, a NEW one with size 0 and a DEAD one
with the size of the block that it keeps.  The blocks follow one another in some order from the end
of the table to `fileSize`, without gaps, so that no two of them share a byte and the file grows
only at its end. -/
structure Placed (file : ZgdbFile A) (cap : Nat → Nat) : Prop where
  sound : file.freeList.Sound
  nodup : (file.freeList.nodes.map Node.indexOrder).Nodup
  node : ∀ n ∈ file.freeList.nodes, n.indexOrder < file.header.indexCount ∧
    (n.blockSize = 0 ∧ (file.indexes n.indexOrder).flag = .new ∨
      0 < n.blockSize ∧ (file.indexes n.indexOrder).flag = .dead ∧
        n.blockSize = cap n.indexOrder)
  free : ∀ k < file.header.indexCount, (file.indexes k).flag = .alive ∨
    ∃ n ∈ file.freeList.nodes, n.indexOrder = k
  tiled : ∃ ks : List Nat, ks.Nodup ∧ (∀ k, k ∈ ks ↔ Used file k) ∧
    Tiles file.indexes cap (dataStart file.header) ks file.header.fileSize

section Tiles

variable {indexes indexes' : Nat → ZgdbIndex} {cap cap' : Nat → Nat}

theorem tiles_append {start stop : Nat} {ks ls : List Nat} :
    Tiles indexes cap start (ks ++ ls) stop ↔
      ∃ mid, Tiles indexes cap start ks mid ∧ Tiles indexes cap mid ls stop := by
  induction ks generalizing start with
  | nil => simp [Tiles]
  | cons k ks ih =>
    simp only [List.cons_append, Tiles, ih]
    tauto

theorem Tiles.congr {start stop : Nat} {ks : List Nat} (h : Tiles indexes cap start ks stop)
    (heq : ∀ k ∈ ks, (indexes' k).offset = (indexes k).offset ∧ cap' k = cap k) :
    Tiles indexes' cap' start ks stop := by
  induction ks generalizing start with
  | nil => exact h
  | cons k ks ih =>
    have hk := heq k List.mem_cons_self
    refine ⟨hk.1.trans h.1, ?_⟩
    rw [hk.2]
    exact ih h.2 fun j hj => heq j (List.mem_cons_of_mem _ hj)

theorem Tiles.le {start stop : Nat} {ks : List Nat} (h : Tiles indexes cap start ks stop) :
    start ≤ stop ∧ ∀ k ∈ ks, start ≤ (indexes k).offset ∧ (indexes k).offset + cap k ≤ stop := by
  induction ks generalizing start with
  | nil => exact ⟨Nat.le_of_eq h, by simp⟩
  | cons k ks ih =>
    obtain ⟨h0, hks⟩ := h
    obtain ⟨hle, hall⟩ := ih hks
    refine ⟨by omega, ?_⟩
    intro j hj
    rcases List.mem_cons.mp hj with rfl | hj
    · omega
    · have := hall j hj
      omega

/-- **Tiles do not overlap.** -/
theorem Tiles.disjoint {start stop : Nat} {ks : List Nat} (h : Tiles indexes cap start ks stop)
    {j k : Nat} (hj : j ∈ ks) (hk : k ∈ ks) (hjk : j ≠ k) :
    (indexes j).offset + cap j ≤ (indexes k).offset ∨
      (indexes k).offset + cap k ≤ (indexes j).offset := by
  induction ks generalizing start with
  | nil => cases hj
  | cons i ks ih =>
    obtain ⟨h0, hks⟩ := h
    rcases List.mem_cons.mp hj with rfl | hj' <;> rcases List.mem_cons.mp hk with rfl | hk'
    · exact absurd rfl hjk
    · have := hks.le.2 k hk'
      omega
    · have := hks.le.2 j hj'
      omega
    · exact ih hks hj' hk'

end Tiles

namespace Placed

variable {file : ZgdbFile A} {cap : Nat → Nat}

omit [BlockSpace A] in
theorem congr (h : Placed file cap) {cap' : Nat → Nat} (heq : ∀ k, Used file k → cap' k = cap k) :
    Placed file cap' := by
  obtain ⟨ks, hn, hmem, ht⟩ := h.tiled
  refine ⟨h.sound, h.nodup, ?_, h.free, ks, hn, hmem, ?_⟩
  · intro n hn
    refine (h.node n hn).imp_right (Or.imp_right ?_)
    intro hd
    have hu : Used file n.indexOrder := Or.inr ⟨(h.node n hn).1, hd.2.1⟩
    exact ⟨hd.1, hd.2.1, hd.2.2.trans (heq _ hu).symm⟩
  · exact ht.congr fun k hk => ⟨rfl, heq k ((hmem k).mp hk)⟩

omit [BlockSpace A] in
theorem node_lt (h : Placed file cap) :
    ∀ n ∈ file.freeList.nodes, n.indexOrder < file.header.indexCount := fun n hn => (h.node n hn).1

omit [BlockSpace A] in
theorem not_alive (h : Placed file cap) {n : Node} (hn : n ∈ file.freeList.nodes) :
    ¬ Alive file n.indexOrder := by
  rintro ⟨_, ha⟩
  rcases (h.node n hn).2 with ⟨_, hf⟩ | ⟨_, hf, _⟩ <;> rw [ha] at hf <;> cases hf

/-- **The blocks lie apart.** -/
theorem apart (h : Placed file cap) {j k : Nat} (hj : Used file j) (hk : Used file k)
    (hjk : j ≠ k) : Apart (blockPos file j) (cap j) (blockPos file k) (cap k) := by
  obtain ⟨ks, _, hmem, ht⟩ := h.tiled
  rw [blockPos, blockPos, getIndex_eq hj.lt, getIndex_eq hk.lt]
  exact BlockSpace.base_apart hjk (ht.disjoint ((hmem j).mpr hj) ((hmem k).mpr hk) hjk)

omit [BlockSpace A] in
/-- A block ends before the end of the file. -/
theorem below (h : Placed file cap) {k : Nat} (hk : Used file k) :
    (file.indexes k).offset + cap k ≤ file.header.fileSize := by
  obtain ⟨ks, _, hmem, ht⟩ := h.tiled
  exact (ht.le.2 k ((hmem k).mpr hk)).2

/-- The used blocks as a layout. -/
def layout (h : Placed file cap) : Layout A where
  mem := Used file
  pos := blockPos file
  len := cap
  apart := h.apart

end Placed

/-- The blocks of the store, each with its header; `docs` are the indices of the live documents.
The blocks of the DEAD indices are among them: their headers are read when an expansion of the index
table moves them. -/
structure Blocks (file : ZgdbFile A) (docs : List Nat) : Prop where
  placed : Placed file (blockCapacity file)
  block : ∀ k, Used file k → IsDocument file k ∨ IsToast file k
  docs : ∀ k, k ∈ docs ↔ Alive file k ∧ IsDocument file k

/-- The used blocks as a layout. -/
def Blocks.layout {file : ZgdbFile A} {docs : List Nat} (h : Blocks file docs) : Layout A :=
  h.placed.layout

theorem Blocks.capacity_pos {file : ZgdbFile A} {docs : List Nat} (h : Blocks file docs) {k : Nat}
    (hk : Used file k) : 0 < blockCapacity file k := by
  rcases h.block k hk with hd | ht
  · exact Nat.lt_of_lt_of_le (by decide) hd.header_le
  · exact Nat.lt_of_lt_of_le (by decide) ht.header_le

/-! ## 3. A chosen index

A NEW index gets the bytes at the end of the file, and a DEAD one the place where its block is.  In
either case the block lies apart from all others that are used, so what is written to it is seen
nowhere else. -/

/-- The capacity the block of a chosen index has. -/
def chosenCapacity (n : RelevantIndexMeta) (newCapacity : Nat) : Nat :=
  if n.blockSize = 0 then newCapacity else n.blockSize

omit [BlockSpace A] in
/-- A NEW index gets the end of the file. -/
theorem blockOffset_of_new {file : ZgdbFile A} {k : Nat} (h : k < file.header.indexCount)
    (hf : (file.indexes k).flag = .new) : blockOffset file k = file.header.fileSize := by
  simp only [blockOffset, getIndex_eq h, hf, reduceCtorEq, if_false]

omit [BlockSpace A] in
/-- A DEAD index keeps its place. -/
theorem blockOffset_of_dead {file : ZgdbFile A} {k : Nat} (h : k < file.header.indexCount)
    (hf : (file.indexes k).flag = .dead) : blockOffset file k = (file.indexes k).offset := by
  simp only [blockOffset, getIndex_eq h, hf, if_true]

/-- **The block of a chosen index lies apart from every other block.** -/
theorem Placed.chosen_apart {file : ZgdbFile A} {cap : Nat → Nat} (h : Placed file cap) {n : Node}
    (hn : n ∈ file.freeList.nodes) {j : Nat} (hj : Used file j) (hjn : j ≠ n.indexOrder)
    (newCapacity : Nat) :
    Apart (blockPos file j) (cap j)
      (BlockSpace.base n.indexOrder (blockOffset file n.indexOrder))
      (chosenCapacity n newCapacity) := by
  obtain ⟨hlt, ⟨hz, hf⟩ | ⟨hp, hf, hcap⟩⟩ := h.node n hn
  · rw [blockOffset_of_new hlt hf, blockPos, getIndex_eq hj.lt]
    exact BlockSpace.base_apart hjn (Or.inl (h.below hj))
  · have hap := h.apart hj (Or.inr ⟨hlt, hf⟩) hjn
    rw [chosenCapacity, if_neg (by omega), hcap, blockOffset_of_dead hlt hf]
    rwa [blockPos, blockPos, getIndex_eq hlt] at hap

/-- The used blocks together with the block a chosen index is about to get. -/
def Placed.extend {file : ZgdbFile A} {cap : Nat → Nat} (h : Placed file cap) {n : Node}
    (hn : n ∈ file.freeList.nodes) (newCapacity : Nat) : Layout A where
  mem j := j = n.indexOrder ∨ Used file j
  pos j := if j = n.indexOrder then BlockSpace.base n.indexOrder (blockOffset file n.indexOrder)
    else blockPos file j
  len j := if j = n.indexOrder then chosenCapacity n newCapacity else cap j
  apart := by
    intro j k hj hk hjk
    by_cases hjn : j = n.indexOrder
    · have hkn : k ≠ n.indexOrder := fun he => hjk (hjn.trans he.symm)
      rw [if_pos hjn, if_pos hjn, if_neg hkn, if_neg hkn]
      exact (h.chosen_apart hn (hk.resolve_left hkn) hkn newCapacity).symm
    · rw [if_neg hjn, if_neg hjn]
      by_cases hkn : k = n.indexOrder
      · rw [if_pos hkn, if_pos hkn]
        exact h.chosen_apart hn (hj.resolve_left hjn) hjn newCapacity
      · rw [if_neg hkn, if_neg hkn]
        exact h.apart (hj.resolve_left hjn) (hk.resolve_left hkn) hjk

section Extend

variable {file : ZgdbFile A} {cap : Nat → Nat} (h : Placed file cap) {n : Node}
  (hn : n ∈ file.freeList.nodes) (c : Nat)

theorem Placed.extend_pos_self : (h.extend hn c).pos n.indexOrder
    = BlockSpace.base n.indexOrder (blockOffset file n.indexOrder) := if_pos rfl

theorem Placed.extend_pos_other {j : Nat} (hj : j ≠ n.indexOrder) :
    (h.extend hn c).pos j = blockPos file j := if_neg hj

theorem Placed.extend_len_self : (h.extend hn c).len n.indexOrder = chosenCapacity n c := if_pos rfl

theorem Placed.extend_len_other {j : Nat} (hj : j ≠ n.indexOrder) :
    (h.extend hn c).len j = cap j := if_neg hj

end Extend

/-- A block keeps its class and its capacity. -/
def Kept (file file' : ZgdbFile A) (j : Nat) : Prop :=
  (IsDocument file j ∧ IsDocument file' j ∨ IsToast file j ∧ IsToast file' j) ∧
    blockCapacity file' j = blockCapacity file j

theorem Kept.isDocument_iff {file file' : ZgdbFile A} {j : Nat} (h : Kept file file' j) :
    IsDocument file j ↔ IsDocument file' j := by
  constructor
  · intro hd
    exact h.1.elim And.right fun ht => absurd ht.1 hd.not_isToast
  · intro hd
    exact h.1.elim And.left fun ht => absurd ht.2 hd.not_isToast

/-- What taking the node `n` from the free list and attaching its index does to the tables.  The
file grows by `newCapacity` when the index was NEW; a DEAD one comes with the block it kept, at its
place and in its size. -/
structure Attached (file file' : ZgdbFile A) (n : Node) (newCapacity : Nat) : Prop where
  perm : file.freeList.nodes.Perm (n :: file'.freeList.nodes)
  sound : file'.freeList.Sound
  indexCount : file'.header.indexCount = file.header.indexCount
  betweenSpace : file'.header.betweenSpace = file.header.betweenSpace
  other : ∀ j, j ≠ n.indexOrder → file'.indexes j = file.indexes j
  self : file'.indexes n.indexOrder = ⟨.alive, blockOffset file n.indexOrder⟩
  fileSize : file'.header.fileSize =
    if n.blockSize = 0 then file.header.fileSize + newCapacity else file.header.fileSize

namespace Attached

variable {file file' : ZgdbFile A} {n : Node} {newCapacity : Nat}

omit [BlockSpace A] in
theorem getIndex_other (h : Attached file file' n newCapacity) {j : Nat} (hj : j ≠ n.indexOrder) :
    getIndex file' j = getIndex file j := by
  simp only [getIndex, h.indexCount, h.other j hj]

theorem blockPos_other (h : Attached file file' n newCapacity) {j : Nat} (hj : j ≠ n.indexOrder) :
    blockPos file' j = blockPos file j := by
  rw [blockPos, h.getIndex_other hj, blockPos]

theorem blockPos_self (h : Attached file file' n newCapacity)
    (hlt : n.indexOrder < file.header.indexCount) :
    blockPos file' n.indexOrder
      = BlockSpace.base n.indexOrder (blockOffset file n.indexOrder) := by
  rw [blockPos, getIndex_eq (h.indexCount ▸ hlt), h.self]

omit [BlockSpace A] in
theorem used_iff (h : Attached file file' n newCapacity)
    (hlt : n.indexOrder < file.header.indexCount) {j : Nat} :
    Used file' j ↔ j = n.indexOrder ∨ Used file j := by
  by_cases hj : j = n.indexOrder
  · subst hj
    simp only [true_or, iff_true]
    exact Or.inl ⟨h.indexCount ▸ hlt, by rw [h.self]⟩
  · simp only [hj, false_or, Used, Alive, Dead, h.indexCount, h.other j hj]

omit [BlockSpace A] in
theorem alive_iff (h : Attached file file' n newCapacity)
    (hlt : n.indexOrder < file.header.indexCount) {j : Nat} :
    Alive file' j ↔ j = n.indexOrder ∨ Alive file j := by
  by_cases hj : j = n.indexOrder
  · subst hj
    simp only [true_or, iff_true]
    exact ⟨h.indexCount ▸ hlt, by rw [h.self]⟩
  · simp only [hj, false_or, Alive, h.indexCount, h.other j hj]

omit [BlockSpace A] in
theorem fileSize_le (h : Attached file file' n newCapacity) :
    file.header.fileSize ≤ file'.header.fileSize := by
  rw [h.fileSize]
  split <;> omega

end Attached

/-- The tables after allocations: more blocks, and each that was there keeps its place and its
capacity. -/
structure Extended (file file' : ZgdbFile A) : Prop where
  indexCount : file'.header.indexCount = file.header.indexCount
  betweenSpace : file'.header.betweenSpace = file.header.betweenSpace
  fileSize : file.header.fileSize ≤ file'.header.fileSize
  used : ∀ k, Used file k → Used file' k
  offset : ∀ k, Used file k → (file'.indexes k).offset = (file.indexes k).offset
  capacity : ∀ k, Used file k → blockCapacity file' k = blockCapacity file k

theorem Extended.refl (file : ZgdbFile A) : Extended file file :=
  ⟨rfl, rfl, Nat.le_refl _, fun _ h => h, fun _ _ => rfl, fun _ _ => rfl⟩

theorem Extended.trans {file file' file'' : ZgdbFile A} (h : Extended file file')
    (h' : Extended file' file'') : Extended file file'' :=
  ⟨h'.indexCount.trans h.indexCount, h'.betweenSpace.trans h.betweenSpace,
    h.fileSize.trans h'.fileSize, fun k hk => h'.used k (h.used k hk),
    fun k hk => (h'.offset k (h.used k hk)).trans (h.offset k hk),
    fun k hk => (h'.capacity k (h.used k hk)).trans (h.capacity k hk)⟩

/-- An attached block extends the tables; a DEAD one keeps its capacity. -/
theorem Attached.extended {file file' : ZgdbFile A} {n : Node} {newCapacity : Nat}
    (h : Attached file file' n newCapacity) (hp : Placed file (blockCapacity file))
    (hn : n ∈ file.freeList.nodes)
    (hcap : ∀ j, Used file j → j ≠ n.indexOrder → blockCapacity file' j = blockCapacity file j)
    (hself : blockCapacity file' n.indexOrder = chosenCapacity n newCapacity) :
    Extended file file' := by
  obtain ⟨hlt, hnode⟩ := hp.node n hn
  have hdead : Used file n.indexOrder → (file.indexes n.indexOrder).flag = .dead := fun hu =>
    (hu.resolve_left (hp.not_alive hn)).2
  refine ⟨h.indexCount, h.betweenSpace, h.fileSize_le, fun k hk => (h.used_iff hlt).mpr (Or.inr hk),
    ?_, ?_⟩
  · intro k hk
    by_cases hkn : k = n.indexOrder
    · subst hkn
      rw [h.self]
      exact blockOffset_of_dead hlt (hdead hk)
    · rw [h.other k hkn]
  · intro k hk
    by_cases hkn : k = n.indexOrder
    · subst hkn
      rcases hnode with ⟨-, hf⟩ | ⟨hpos, -, hsize⟩
      · rw [hdead hk] at hf
        cases hf
      · rw [hself, chosenCapacity, if_neg (by omega), hsize]
    · exact hcap k hk hkn

omit [BlockSpace A] in
/-- **Attaching a chosen index** places its block and moves no other. -/
theorem Placed.attach {file file' : ZgdbFile A} {cap cap' : Nat → Nat} (h : Placed file cap)
    {n : Node} {newCapacity : Nat} (ha : Attached file file' n newCapacity)
    (hcap : ∀ j, Used file j → j ≠ n.indexOrder → cap' j = cap j)
    (hself : cap' n.indexOrder = chosenCapacity n newCapacity) : Placed file' cap' := by
  have hn : n ∈ file.freeList.nodes := ha.perm.mem_iff.mpr List.mem_cons_self
  have hlt := (h.node n hn).1
  have hnd := (ha.perm.map Node.indexOrder).nodup_iff.mp h.nodup
  rw [List.map_cons, List.nodup_cons] at hnd
  have hne : ∀ x ∈ file'.freeList.nodes, x.indexOrder ≠ n.indexOrder := fun x hx he =>
    hnd.1 (he ▸ List.mem_map_of_mem hx)
  refine ⟨ha.sound, hnd.2, ?_, ?_, ?_⟩
  · intro x hx
    have hxo := h.node x (ha.perm.mem_iff.mpr (List.mem_cons_of_mem _ hx))
    rw [ha.indexCount, ha.other _ (hne x hx)]
    refine ⟨hxo.1, hxo.2.imp id fun hd => ⟨hd.1, hd.2.1, ?_⟩⟩
    rw [hcap _ (Or.inr ⟨hxo.1, hd.2.1⟩) (hne x hx)]
    exact hd.2.2
  · intro k hk
    by_cases hkn : k = n.indexOrder
    · left; rw [hkn, ha.self]
    · rw [ha.other k hkn]
      refine (h.free k (ha.indexCount ▸ hk)).imp id ?_
      rintro ⟨x, hx, hxk⟩
      refine ⟨x, (List.mem_cons.mp (ha.perm.mem_iff.mp hx)).resolve_left ?_, hxk⟩
      rintro rfl
      exact hkn hxk.symm
  · obtain ⟨ks, hks, hmem, ht⟩ := h.tiled
    have hstart : dataStart file'.header = dataStart file.header := by
      rw [dataStart, ha.indexCount, ha.betweenSpace, dataStart]
    rw [hstart, ha.fileSize]
    rcases (h.node n hn).2 with ⟨hz, hf⟩ | ⟨hp, hf, hc⟩
    · -- a NEW index: one more tile, at the end
      have hnu : n.indexOrder ∉ ks := by
        rw [hmem, Used, Alive, Dead, hf]
        rintro (⟨_, h⟩ | ⟨_, h⟩) <;> cases h
      refine ⟨ks ++ [n.indexOrder], ?_, ?_, ?_⟩
      · rw [List.nodup_append]
        refine ⟨hks, by simp, ?_⟩
        rintro a ha' b hb rfl
        rw [List.mem_singleton] at hb
        exact hnu (hb ▸ ha')
      · intro k
        rw [List.mem_append, List.mem_singleton, hmem, ha.used_iff hlt]
        tauto
      · rw [if_pos hz, tiles_append]
        refine ⟨file.header.fileSize, ht.congr ?_, ?_⟩
        · intro k hk
          have hkn : k ≠ n.indexOrder := fun he => hnu (he ▸ hk)
          rw [ha.other k hkn]
          exact ⟨rfl, hcap k ((hmem k).mp hk) hkn⟩
        · rw [chosenCapacity, if_pos hz] at hself
          exact ⟨by rw [ha.self, blockOffset_of_new hlt hf], by rw [hself]; exact rfl⟩
    · -- a DEAD index: the same tiles
      have hnu : Used file n.indexOrder := Or.inr ⟨hlt, hf⟩
      refine ⟨ks, hks, ?_, ?_⟩
      · intro k
        rw [hmem, ha.used_iff hlt]
        constructor
        · exact Or.inr
        · rintro (rfl | hk)
          · exact hnu
          · exact hk
      · rw [if_neg (by omega)]
        refine ht.congr ?_
        intro k hk
        by_cases hkn : k = n.indexOrder
        · subst hkn
          rw [chosenCapacity, if_neg (by omega)] at hself
          rw [ha.self, blockOffset_of_dead hlt hf, hself, hc]
          exact ⟨rfl, rfl⟩
        · rw [ha.other k hkn]
          exact ⟨rfl, hcap k ((hmem k).mp hk) hkn⟩

/-- **Attaching a chosen index** keeps every block in its class; the new block may be of either
kind. -/
theorem Blocks.attach {file file' : ZgdbFile A} {docs docs' : List Nat} (h : Blocks file docs)
    {n : Node} {newCapacity : Nat} (ha : Attached file file' n newCapacity)
    (hkept : ∀ j, Used file j → j ≠ n.indexOrder → Kept file file' j)
    (hnew : IsDocument file' n.indexOrder ∨ IsToast file' n.indexOrder)
    (hcap : blockCapacity file' n.indexOrder = chosenCapacity n newCapacity)
    (hdocs : ∀ j, j ∈ docs' ↔ j ≠ n.indexOrder ∧ j ∈ docs ∨
      j = n.indexOrder ∧ IsDocument file' n.indexOrder) : Blocks file' docs' := by
  have hn : n ∈ file.freeList.nodes := ha.perm.mem_iff.mpr List.mem_cons_self
  have hlt := (h.placed.node n hn).1
  refine ⟨h.placed.attach ha (fun j hj hjn => (hkept j hj hjn).2) hcap, ?_, ?_⟩
  · intro k hk
    rcases (ha.used_iff hlt).mp hk with rfl | hk
    · exact hnew
    · by_cases hkn : k = n.indexOrder
      · exact hkn ▸ hnew
      · exact (hkept k hk hkn).1.imp And.right And.right
  · intro k
    rw [hdocs, ha.alive_iff hlt]
    by_cases hkn : k = n.indexOrder
    · subst hkn; simp
    · simp only [ne_eq, hkn, not_false_eq_true, true_and, false_and, or_false, h.docs, false_or]
      exact and_congr_right fun hal => (hkept k (Or.inl hal) hkn).isDocument_iff

/-! ## 4. A freed index

Only the flag and the free list change: the block is where it was, and the layout of the file is the
same as before. -/

section Free

variable {file : ZgdbFile A} {k : Nat}

omit [BlockSpace A] in
theorem freeIndex_eq (h : Alive file k) (size : Nat) :
    freeIndex file k size = { file with
      indexes := fun i => if i = k then ⟨.dead, (file.indexes k).offset⟩ else file.indexes i
      freeList := insertDeadIndex file.freeList k size } := by
  have h1 : ¬ k > file.header.indexCount - 1 := by have := h.1; omega
  simp only [freeIndex, killIndex, if_neg h1, h.2, ne_eq, not_true_eq_false, if_false, setIndex]

/-- Freeing moves no block. -/
theorem blockPos_freeIndex (h : Alive file k) (size j : Nat) :
    blockPos (freeIndex file k size) j = blockPos file j := by
  rw [freeIndex_eq h]
  simp only [blockPos, getIndex]
  by_cases hjk : j = k
  · subst hjk; simp only [if_true]; split <;> rfl
  · simp only [if_neg hjk]

theorem blockAt_freeIndex (h : Alive file k) (size j : Nat) :
    blockAt (freeIndex file k size) j = blockAt file j := by
  funext d
  rw [blockAt, blockPos_freeIndex h, freeIndex_eq h]
  rfl

omit [BlockSpace A] in
theorem freeIndex_used_iff (h : Alive file k) (size : Nat) {j : Nat} :
    Used (freeIndex file k size) j ↔ Used file j := by
  rw [freeIndex_eq h]
  by_cases hjk : j = k
  · subst hjk
    simp only [Used, Alive, Dead, h.1, h.2, if_true, true_and, reduceCtorEq, or_true, true_or]
  · simp only [Used, Alive, Dead, if_neg hjk]

omit [BlockSpace A] in
theorem freeIndex_alive_iff (h : Alive file k) (size : Nat) {j : Nat} :
    Alive (freeIndex file k size) j ↔ Alive file j ∧ j ≠ k := by
  rw [freeIndex_eq h]
  by_cases hjk : j = k
  · subst hjk
    simp only [Alive, if_true, reduceCtorEq, and_false, ne_eq, not_true_eq_false]
  · simp only [Alive, hjk, if_false, ne_eq, not_false_eq_true, and_true]

omit [BlockSpace A] in
/-- **Freeing an ALIVE index** with the capacity of its block. -/
theorem Placed.free_index {cap : Nat → Nat} (hp : Placed file cap) (h : Alive file k)
    (hpos : 0 < cap k) : Placed (freeIndex file k (cap k)) cap := by
  have hkn : k ∉ file.freeList.nodes.map Node.indexOrder := by
    intro hmem
    obtain ⟨x, hx, rfl⟩ := List.mem_map.mp hmem
    exact hp.not_alive hx h
  have hperm := perm_insertNode file.freeList.nodes ⟨k, cap k⟩
  have hused := fun {j} => freeIndex_used_iff h (cap k) (j := j)
  rw [freeIndex_eq h] at hused ⊢
  refine ⟨hp.sound.insertDeadIndex k hpos, ?_, ?_, ?_, ?_⟩
  · refine (hperm.map Node.indexOrder).nodup_iff.mpr ?_
    rw [List.map_cons, List.nodup_cons]
    exact ⟨hkn, hp.nodup⟩
  · intro x hx
    rcases List.mem_cons.mp (hperm.mem_iff.mp hx) with rfl | hx
    · exact ⟨h.1, Or.inr ⟨hpos, by simp, rfl⟩⟩
    · have hxk : x.indexOrder ≠ k := fun he => hkn (he ▸ List.mem_map_of_mem hx)
      simp only [if_neg hxk]
      exact hp.node x hx
  · intro j hj
    by_cases hjk : j = k
    · exact Or.inr ⟨⟨k, cap k⟩, hperm.mem_iff.mpr List.mem_cons_self, hjk.symm⟩
    · simp only [if_neg hjk]
      refine (hp.free j hj).imp id ?_
      rintro ⟨x, hx, hxj⟩
      exact ⟨x, hperm.mem_iff.mpr (List.mem_cons_of_mem _ hx), hxj⟩
  · obtain ⟨ks, hks, hmem, ht⟩ := hp.tiled
    refine ⟨ks, hks, fun j => (hmem j).trans hused.symm, ht.congr fun j _ => ⟨?_, rfl⟩⟩
    by_cases hjk : j = k
    · subst hjk; simp
    · simp only [if_neg hjk]

/-- **Freeing an ALIVE index** keeps every block in its class. -/
theorem Blocks.free {docs docs' : List Nat} (h : Blocks file docs) (hk : Alive file k)
    (hdocs : ∀ j, j ∈ docs' ↔ j ∈ docs ∧ j ≠ k) :
    Blocks (freeIndex file k (blockCapacity file k)) docs' := by
  have hat := blockAt_freeIndex hk (blockCapacity file k)
  have hcap : blockCapacity (freeIndex file k (blockCapacity file k)) = blockCapacity file :=
    funext fun j => blockCapacity_congr (hat j)
  refine ⟨?_, ?_, ?_⟩
  · rw [hcap]
    exact h.placed.free_index hk (h.capacity_pos (Or.inl hk))
  · intro j hj
    rw [isDocument_congr (hat j), isToast_congr (hat j)]
    exact h.block j ((freeIndex_used_iff hk _).mp hj)
  · intro j
    rw [hdocs, h.docs, isDocument_congr (hat j), freeIndex_alive_iff hk]
    tauto

end Free

end Zgdb
