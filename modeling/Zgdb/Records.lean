/-
# The store as records

When each attached block is a record of its own, the places of the blocks do not matter: what the
allocation relies on is that the free list is in order, that no ALIVE index is in it, and that
every record begins with a header that names its index (`Records`).  `RecordStore` adds the tree of
the documents and the toasts each of them leads to.

Nothing is said about the elements, and a toast that no document leads to may be smaller than its
own header.  The invariant survives a new toast of any size, a creation and a deletion.
-/
import Zgdb.Runs

namespace Zgdb

open Zgdb.Lib AddrSpace

variable {A : Type} [BlockSpace A]

/-! ## 1. Records

A block is a space of its own here, so a write that is too long runs into nothing.  What is left of
the layout are the classes of the indices and the headers. -/

/-- The block of `k` begins with a toast header that names `k`, whatever capacity it says. -/
structure ToastRecord (file : ZgdbFile A) (k : Nat) : Prop where
  holds : Holds toastK (blockAt file k) 0 (toastAt file k)
  type : (toastAt file k).blockType = BlockType.toast.code
  attached : (toastAt file k).indexAttached = k
  capacity_pos : 0 < (toastAt file k).capacity

section Record

variable {file file' : ZgdbFile A} {k : Nat}

theorem IsToast.record (h : IsToast file k) : ToastRecord file k :=
  ⟨h.holds, h.type, h.attached, Nat.lt_of_lt_of_le (by decide) h.le_capacity⟩

theorem ToastRecord.of_holds {t : Toast} (hh : Holds toastK (blockAt file k) 0 t)
    (ht : t.blockType = BlockType.toast.code) (hk : t.indexAttached = k) (hc : 0 < t.capacity) :
    ToastRecord file k := by
  have hl : toastAt file k = t := by rw [toastAt_eq, load_of_holds hh]
  exact ⟨hl ▸ hh, hl ▸ ht, hl ▸ hk, hl ▸ hc⟩

theorem ToastRecord.type_byte (h : ToastRecord file k) :
    freadAt byteK file (blockPos file k) 0 = BlockType.toast.code := by
  rw [freadAt_eq, load_byte_of_holds h.holds rfl]
  exact h.type

theorem IsDocument.type_byte (h : IsDocument file k) :
    freadAt byteK file (blockPos file k) 0 = BlockType.document.code := by
  rw [freadAt_eq, load_byte_of_holds h.holds rfl]
  exact h.type

theorem IsDocument.not_toastRecord (h : IsDocument file k) : ¬ ToastRecord file k := by
  intro ht
  have hbyte := h.type_byte
  rw [ht.type_byte] at hbyte
  cases hbyte

/-- What a record says of its capacity is not zero. -/
theorem blockCapacity_pos (h : IsDocument file k ∨ ToastRecord file k) :
    0 < blockCapacity file k := by
  rcases h with hd | ht
  · exact Nat.lt_of_lt_of_le (by decide) hd.header_le
  · rw [blockCapacity, ht.type_byte, if_pos rfl]
    exact ht.capacity_pos

/-- A record keeps its class. -/
def SameClass (file file' : ZgdbFile A) (k : Nat) : Prop :=
  IsDocument file k ∧ IsDocument file' k ∨ ToastRecord file k ∧ ToastRecord file' k

theorem SameClass.isDocument_iff (h : SameClass file file' k) :
    IsDocument file k ↔ IsDocument file' k := by
  rcases h with ⟨h1, h2⟩ | ⟨h1, h2⟩
  · exact ⟨fun _ => h2, fun _ => h1⟩
  · exact ⟨fun hd => absurd h1 hd.not_toastRecord, fun hd => absurd h2 hd.not_toastRecord⟩

theorem SameClass.record (h : SameClass file file' k) : IsDocument file' k ∨ ToastRecord file' k :=
  h.imp And.right And.right

/-- A record is what its first bytes are. -/
theorem SameClass.of_agrees (h : IsDocument file k ∨ ToastRecord file k)
    (heq : Agrees file file' k sizeofDocumentHeader) : SameClass file file' k := by
  rcases h with hd | ht
  · exact Or.inl ⟨hd, (hd.of_eqOn heq).1⟩
  · refine Or.inr ⟨ht, ToastRecord.of_holds ?_ ht.type ht.attached ht.capacity_pos⟩
    refine ht.holds.of_eqOn (Nat.le_refl 0) (Nat.le_refl _) fun x _ hx => heq x ?_
    rw [Nat.zero_add] at hx
    exact hx.trans_le (by decide)

end Record

/-- The free list is in order and disjoint from the ALIVE indices, and every record begins with a
header of its own; `docs` are the indices of the live documents.  It says less than `Blocks`:
nothing about the places of the records, which a file of records does not depend on. -/
structure Records (file : ZgdbFile A) (docs : List Nat) : Prop where
  sound : file.freeList.Sound
  nodup : (file.freeList.nodes.map Node.indexOrder).Nodup
  node : ∀ n ∈ file.freeList.nodes, n.indexOrder < file.header.indexCount ∧
    ¬ Alive file n.indexOrder
  block : ∀ k, Used file k → IsDocument file k ∨ ToastRecord file k
  docs : ∀ k, k ∈ docs ↔ Alive file k ∧ IsDocument file k
  space : file.header.betweenSpace < 2 ^ 8

namespace Records

variable {file file' : ZgdbFile A} {docs docs' : List Nat} {n : Node} {c k : Nat}

/-- The live documents are those that are listed. -/
theorem live_iff (h : Records file docs) : Live file k ↔ k ∈ docs := by
  refine Iff.trans (and_congr_right ?_) (h.docs k).symm
  intro hal
  constructor
  · intro hb
    refine (h.block k (Or.inl hal)).resolve_right ?_
    intro ht
    rw [ht.type_byte] at hb
    cases hb
  · exact IsDocument.type_byte

theorem congr (h : Records file docs) (hdocs : ∀ j, j ∈ docs' ↔ j ∈ docs) : Records file docs' :=
  { h with docs := fun k => (hdocs k).trans (h.docs k) }

/-- Tables that stay the same, and records that keep their class. -/
theorem kept (h : Records file docs) (hi : file'.indexes = file.indexes)
    (hl : file'.freeList = file.freeList)
    (hh : file'.header = { file.header with nodes := file'.header.nodes })
    (hkept : ∀ k, Used file k → SameClass file file' k) : Records file' docs := by
  have halive : ∀ k, Alive file' k ↔ Alive file k := by
    intro k
    unfold Alive
    rw [hh, hi]
  have hused : ∀ k, Used file' k ↔ Used file k := by
    intro k
    unfold Used Dead
    rw [halive, hh, hi]
  refine ⟨hl ▸ h.sound, hl ▸ h.nodup, ?_, ?_, ?_, ?_⟩
  · intro n hn
    rw [hl] at hn
    rw [halive, hh]
    exact h.node n hn
  · intro k hk
    exact (hkept k ((hused k).mp hk)).record
  · intro k
    rw [h.docs, halive]
    exact and_congr_right fun hal => (hkept k (Or.inl hal)).isDocument_iff
  · rw [hh]
    exact h.space

/-- **Attaching a chosen index** keeps the other records. -/
theorem attach (h : Records file docs) (ha : Attached file file' n c)
    (hkept : ∀ j, Used file j → j ≠ n.indexOrder → SameClass file file' j)
    (hnew : IsDocument file' n.indexOrder ∨ ToastRecord file' n.indexOrder)
    (hdocs : ∀ j, j ∈ docs' ↔ j ∈ docs ∨ j = n.indexOrder ∧ IsDocument file' n.indexOrder) :
    Records file' docs' := by
  have hn : n ∈ file.freeList.nodes := ha.perm.mem_iff.mpr List.mem_cons_self
  obtain ⟨hlt, hnal⟩ := h.node n hn
  have hnd := (ha.perm.map Node.indexOrder).nodup_iff.mp h.nodup
  rw [List.map_cons, List.nodup_cons] at hnd
  refine ⟨ha.sound, hnd.2, ?_, ?_, ?_, ?_⟩
  · intro x hx
    obtain ⟨h1, h2⟩ := h.node x (ha.perm.mem_iff.mpr (List.mem_cons_of_mem _ hx))
    have hne : x.indexOrder ≠ n.indexOrder := fun he =>
      hnd.1 (he ▸ List.mem_map_of_mem hx)
    rw [ha.indexCount, ha.alive_iff hlt]
    exact ⟨h1, fun hor => hor.elim hne h2⟩
  · intro k hk
    by_cases hkn : k = n.indexOrder
    · exact hkn ▸ hnew
    · exact (hkept k (((ha.used_iff hlt).mp hk).resolve_left hkn) hkn).record
  · intro k
    rw [hdocs, ha.alive_iff hlt, h.docs]
    by_cases hkn : k = n.indexOrder
    · subst hkn
      simp [hnal]
    · simp only [hkn, false_and, or_false, false_or]
      exact and_congr_right fun hal => (hkept k (Or.inl hal) hkn).isDocument_iff
  · rw [ha.betweenSpace]
    exact h.space

/-- **Freeing an ALIVE index** keeps the records. -/
theorem free (h : Records file docs) (hk : Alive file k)
    (hdocs : ∀ j, j ∈ docs' ↔ j ∈ docs ∧ j ≠ k) :
    Records (freeIndex file k (blockCapacity file k)) docs' := by
  have hat := blockAt_freeIndex hk (blockCapacity file k)
  have halive := fun {j} => freeIndex_alive_iff hk (blockCapacity file k) (j := j)
  have hused := fun {j} => freeIndex_used_iff hk (blockCapacity file k) (j := j)
  have hperm := perm_insertNode file.freeList.nodes ⟨k, blockCapacity file k⟩
  have hkn : k ∉ file.freeList.nodes.map Node.indexOrder := by
    intro hmem
    obtain ⟨x, hx, rfl⟩ := List.mem_map.mp hmem
    exact (h.node x hx).2 hk
  have heq := freeIndex_eq hk (blockCapacity file k)
  refine ⟨?_, ?_, ?_, ?_, ?_, ?_⟩
  · rw [heq]
    exact h.sound.insertDeadIndex k (blockCapacity_pos (h.block k (Or.inl hk)))
  · rw [heq]
    refine (hperm.map Node.indexOrder).nodup_iff.mpr ?_
    rw [List.map_cons, List.nodup_cons]
    exact ⟨hkn, h.nodup⟩
  · intro x hx
    rw [heq] at hx
    rw [halive]
    rw [heq]
    rcases List.mem_cons.mp (hperm.mem_iff.mp hx) with rfl | hx
    · exact ⟨hk.1, fun hal => hal.2 rfl⟩
    · exact ⟨(h.node x hx).1, fun hal => (h.node x hx).2 hal.1⟩
  · intro j hj
    have hcl : SameClass file (freeIndex file k (blockCapacity file k)) j :=
      .of_agrees (h.block j (hused.mp hj)) fun d _ => by rw [hat]
    exact hcl.record
  · intro j
    rw [hdocs, h.docs, isDocument_congr (hat j), halive]
    tauto
  · rw [heq]
    exact h.space

end Records

/-- The records of a store are reclaimed. -/
theorem records_reclaims : Reclaims (A := A) Records where
  doc h hk := (h.docs _).mp hk
  free h hal _ hdocs := h.free hal hdocs
  count h _ := h.kept rfl rfl rfl fun j hj => .of_agrees (h.block j hj) fun _ _ => rfl
  congr h hdocs := h.congr hdocs

/-! ## 2. Documents and their toasts

The toasts of a document are those on its list; a text may use others, of which nothing is said. -/

/-- The toasts `ts` that the document `k` leads to. -/
structure OwnToasts (file : ZgdbFile A) (k : Nat) (ts : List Nat) : Prop where
  list : ToastList file (getDocumentHeader file k).firstToastIndex ts
  nodup : ts.Nodup
  toast : ∀ t ∈ ts, Alive file t ∧ IsToast file t

theorem OwnToasts.frame {file file' : ZgdbFile A} {k : Nat} {ts : List Nat}
    (h : OwnToasts file k ts)
    (hfirst : (getDocumentHeader file' k).firstToastIndex
      = (getDocumentHeader file k).firstToastIndex)
    (halive : ∀ t ∈ ts, Alive file' t)
    (heq : ∀ t ∈ ts, Agrees file file' t sizeofDocumentHeader) : OwnToasts file' k ts := by
  have htoast : ∀ t ∈ ts, IsToast file' t ∧ toastAt file' t = toastAt file t := by
    intro t ht
    have h1 := (h.toast t ht).2.of_eqOn ((heq t ht).mono (by decide))
    exact ⟨h1.1, h1.2.1⟩
  refine ⟨?_, h.nodup, fun t ht => ⟨halive t ht, (htoast t ht).1⟩⟩
  rw [hfirst]
  exact h.list.congr fun t ht => (htoast t ht).2

/-- The records with the tree `T` of the documents; `own k` are the toasts of document `k`.  This is
the invariant of the structure of a store alone, without the elements and the texts. -/
structure RecordStore (file : ZgdbFile A) (T : Forest Nat) (own : Nat → List Nat) : Prop where
  records : Records file T.nodes
  nodup : T.nodes.Nodup
  links : T.Represents (sonOf file) (brotherOf file) (some 0)
  toasts : ∀ k ∈ T.nodes, OwnToasts file k (own k)
  apart : ∀ j ∈ T.nodes, ∀ k ∈ T.nodes, j ≠ k → ∀ t ∈ own j, t ∉ own k

/-- **A sound store is one of records.** -/
theorem Store.recordStore {file : ZgdbFile A} {T : Forest Nat} {es : Nat → List StoredElement}
    {own : Nat → List Nat} (hs : Store file T es own) (hspace : file.header.betweenSpace < 2 ^ 8) :
    ∃ own', RecordStore file T own' := by
  have hb := hs.blocks
  have hlist : ∀ k, ∃ ts, k ∈ T.nodes → OwnToasts file k ts ∧ ∀ t ∈ ts, t ∈ own k := by
    intro k
    by_cases hk : k ∈ T.nodes
    · obtain ⟨ts, hts, hn, hsub⟩ := (hs.doc k hk).list
      have htexts := (hs.doc k hk).texts
      exact ⟨ts, fun _ => ⟨⟨hts, hn, fun t ht =>
        ⟨htexts.alive t (hsub t ht), htexts.toast t (hsub t ht)⟩⟩, hsub⟩⟩
    · exact ⟨[], fun h => absurd h hk⟩
  choose own' hown using hlist
  refine ⟨own', ⟨hb.placed.sound, hb.placed.nodup, ?_, ?_, hb.docs, hspace⟩,
    hs.nodup, hs.links, fun k hk => (hown k hk).1, ?_⟩
  · intro n hn
    exact ⟨hb.placed.node_lt n hn, hb.placed.not_alive hn⟩
  · intro k hk
    exact (hb.block k hk).imp_right IsToast.record
  · intro j hj k hk hjk t ht htk
    exact hs.apart j hj k hk hjk t ((hown j hj).2 t ht) ((hown k hk).2 t htk)

namespace RecordStore

variable {file file' : ZgdbFile A} {T : Forest Nat} {own : Nat → List Nat} {k : Nat}

theorem document (h : RecordStore file T own) (hk : k ∈ T.nodes) :
    Alive file k ∧ IsDocument file k := (h.records.docs k).mp hk

theorem root_mem (h : RecordStore file T own) : 0 ∈ T.nodes := h.links.entry_mem rfl

/-- A toast is no document. -/
theorem toast_notMem (h : RecordStore file T own) (hk : k ∈ T.nodes) {t : Nat} (ht : t ∈ own k) :
    t ∉ T.nodes := fun htn =>
  (h.document htn).2.not_isToast ((h.toasts k hk).toast t ht).2

/-- **ALIVE records that keep their first bytes keep the store.** -/
theorem of_agrees (h : RecordStore file T own) (hr : Records file' T.nodes)
    (halive : ∀ k, Alive file k → Alive file' k)
    (heq : ∀ k, Alive file k → Agrees file file' k sizeofDocumentHeader) :
    RecordStore file' T own := by
  have hhdr : ∀ k ∈ T.nodes, getDocumentHeader file' k = getDocumentHeader file k := fun k hk =>
    ((h.document hk).2.of_eqOn (heq k (h.document hk).1)).2.1
  refine ⟨hr, h.nodup, h.links.congr ?_, ?_, h.apart⟩
  · intro k hk
    rw [sonOf, sonOf, brotherOf, brotherOf, hhdr k hk]
    exact ⟨rfl, rfl⟩
  · intro k hk
    have ht := (h.toasts k hk).toast
    exact (h.toasts k hk).frame (by rw [hhdr k hk]) (fun t hto => halive t (ht t hto).1)
      fun t hto => heq t (ht t hto).1

end RecordStore

/-- A new store. -/
theorem init_recordStore {now : UInt32} :
    ∃ T own, RecordStore (init now : ZgdbFile A) T own := by
  have hs : Store (init now : ZgdbFile A) _ _ _ := init_store
  obtain ⟨own, h⟩ := hs.recordStore (by rw [init_header]; decide)
  exact ⟨_, own, h⟩

/-! ## 3. A new toast

The record is written before its index is used, and no other record changes. -/

section Writes

variable {file file' : ZgdbFile RecordPos} {T : Forest Nat} {own : Nat → List Nat} {docs : List Nat}

/-- Different records have no position in common. -/
theorem record_apart {j k : Nat} (hjk : j ≠ k) (d m e n : Nat) :
    Apart (⟨j, d⟩ : RecordPos) m ⟨k, e⟩ n := fun _ _ _ _ he => hjk (congrArg RecordPos.order he)

/-- A write to one record leaves the others. -/
theorem blockAt_fwriteAt_other {α : Type} {K : Kind Obj α} (file : ZgdbFile RecordPos) {j k : Nat}
    (hjk : j ≠ k) (d : Nat) (a : α) :
    blockAt (fwriteAt K file (blockPos file k) d a) j = blockAt file j := by
  funext x
  exact view_store_of_apart (record_apart hjk 0 (x + 1) _ _) (Nat.lt_succ_self x)

/-- **A toast of any size**: no document leads to it. -/
theorem RecordStore.allocToast (h : RecordStore file T own) {reqSize newCapacity t : Nat}
    (hreq : 0 < reqSize) (hnew : 0 < newCapacity)
    (ha : allocToast file reqSize newCapacity = some (t, file')) :
    ∃ n, t = n.indexOrder ∧ ToastAlloc file file' reqSize newCapacity n ∧
      Holds toastK (blockAt file' t) 0 (toastHeader n newCapacity) ∧
      (∀ j, j ≠ t → blockAt file' j = blockAt file j) ∧ RecordStore file' T own := by
  have hr := h.records
  obtain ⟨n, rfl, hal⟩ := allocToast_cases hr.sound (fun n hn => (hr.node n hn).1) hreq ha
  obtain ⟨hlt, hnal⟩ := hr.node n hal.mem
  have hholds := hal.holds hlt
  have hothers : ∀ j, j ≠ n.indexOrder → blockAt file' j = blockAt file j := by
    intro j hj
    funext x
    show file'.mem _ = file.mem _
    rw [hal.bytes]
    exact (view_fill_of_apart (record_apart hj 0 (x + 1) _ _) (Nat.lt_succ_self x)).trans
      (view_store_of_apart (record_apart hj 0 (x + 1) _ _) (Nat.lt_succ_self x))
  have hpos : 0 < chosenCapacity n newCapacity := by
    have hle := hal.large
    unfold chosenCapacity
    split <;> omega
  have hrec : ToastRecord file' n.indexOrder := .of_holds hholds rfl rfl hpos
  refine ⟨n, rfl, hal, hholds, hothers, ?_⟩
  refine h.of_agrees (hr.attach hal.attached ?_ (Or.inr hrec) ?_)
    (fun k hk => (hal.attached.alive_iff hlt).mpr (Or.inr hk)) ?_
  · intro j hj hjn
    exact .of_agrees (hr.block j hj) fun d _ => by rw [hothers j hjn]
  · intro j
    constructor
    · exact Or.inl
    · rintro (hj | ⟨rfl, hd⟩)
      · exact hj
      · exact absurd hrec hd.not_toastRecord
  · intro k hk d _
    rw [hothers k fun he => hnal (he ▸ hk)]

/-- **`createNewToast`**, with any positive size. -/
theorem RecordStore.createNewToast (h : RecordStore file T own) {size t : Nat} (hsize : 0 < size)
    (hc : createNewToast file size = some (t, file')) : RecordStore file' T own := by
  obtain ⟨n, -, -, -, -, h'⟩ := h.allocToast hsize hsize hc
  exact h'

/-! ## 4. A deletion

The subtree and the toasts of the document are freed; all that is needed of their records are the
headers. -/

/-- **A document header written back with other links** keeps the records. -/
theorem Records.relink (h : Records file docs) {p : Nat} {header : DocumentHeader} (hp : p ∈ docs)
    (hh : (getDocumentHeader file p).SameButLinks header)
    (hf : file' = fwriteAt documentHeaderK file (blockPos file p) 0 header) :
    Records file' docs ∧ getDocumentHeader file' p = header ∧
      ∀ j, j ≠ p → blockAt file' j = blockAt file j := by
  have hdoc := ((h.docs p).mp hp).2
  obtain ⟨hdoc', hhdr, -⟩ := hdoc.relink hh hf
  have hothers : ∀ j, j ≠ p → blockAt file' j = blockAt file j := by
    intro j hj
    rw [hf, blockAt_fwriteAt_other file hj]
  refine ⟨h.kept (by rw [hf]; rfl) (by rw [hf]; rfl) (by rw [hf]; rfl) ?_, hhdr, hothers⟩
  intro k hk
  by_cases hkp : k = p
  · subst hkp
    exact Or.inl ⟨hdoc, hdoc'⟩
  · exact .of_agrees (h.block k hk) fun d _ => by rw [hothers k hkp]

/-- **The link past a document** keeps the other records and the first toast of each document. -/
theorem RecordStore.unlink (h : RecordStore file T own) {d : Nat} (hd : d ∈ T.nodes)
    {l : Bool × Nat}
    (hl : l.2 ∈ T.nodes) (h0 : d ≠ 0) (hld : Forest.Leads (sonOf file) (brotherOf file) l d)
    (hf : file' = fwriteAt documentHeaderK file (blockPos file l.2) 0 (skipHeader file l d)) :
    Unlinked Records file file' T d (own d) l ∧ (∀ j, j ≠ l.2 → blockAt file' j = blockAt file j) ∧
      ∀ k ∈ T.nodes, (getDocumentHeader file' k).firstToastIndex
        = (getDocumentHeader file k).firstToastIndex := by
  have hbut := skipHeader_sameButLinks file l d
  obtain ⟨hr, hhdr, hothers⟩ := h.records.relink hl hbut hf
  have hsame : ∀ k ∈ T.nodes, k ≠ l.2 → getDocumentHeader file' k = getDocumentHeader file k := by
    intro k _ hkl
    rw [getDocumentHeader_eq, hothers k hkl, ← getDocumentHeader_eq]
  refine ⟨⟨hr, remove_represents h.links h.nodup h0 hl hld hhdr hsame, hsame, ?_⟩, hothers, ?_⟩
  · intro t ht
    have htl : t ≠ l.2 := fun he => h.toast_notMem hd ht (he ▸ hl)
    refine ⟨(isToast_congr (hothers t htl)).mpr ((h.toasts d hd).toast t ht).2, ?_⟩
    rw [toastAt_eq, hothers t htl, ← toastAt_eq]
  · intro k hk
    by_cases hkl : k = l.2
    · rw [hkl, hhdr, hbut]
    · rw [hsame k hk hkl]

/-- **`deleteDocument` removes a subtree**, and returns. -/
theorem RecordStore.deleteDocument (h : RecordStore file T own) {p d : Nat} (hp : p ∈ T.nodes)
    (hd : d ∈ (T.sonsOf p).roots) :
    ∃ file', deleteDocument (loopBound file) file (documentAt file d p) = some file' ∧
      RecordStore file' (T.remove d) own := by
  have hdT : d ∈ T.nodes := Forest.mem_nodes_of_mem_sonsOf (Forest.mem_nodes_of_mem_roots hd)
  have hmem : ∀ j, j ∈ (T.remove d).nodes ↔ j ∈ T.nodes ∧ j ≠ d ∧ j ∉ (T.sonsOf d).nodes :=
    fun j => Forest.mem_nodes_remove h.nodup hdT
  obtain ⟨hlist, hn, htoast⟩ := h.toasts d hdT
  obtain ⟨l, file1, file', h0, hlr, hld, hf1, hrun, hfr, hr, -⟩ :=
    deleteDocument_run records_reclaims h.links h.nodup (fun k hk => h.document hk) hp hd hlist hn
      (fun t ht => ⟨(htoast t ht).1, h.toast_notMem hdT ht⟩)
      (fun l hl h0 hld => (h.unlink hdT hl h0 hld rfl).1) (Nat.lt_succ_self _)
  have hl := ((hmem l.2).mp hlr).1
  obtain ⟨hu, hothers, hfirst⟩ := h.unlink hdT hl h0 hld hf1
  refine ⟨file', hrun, hr, Forest.nodup_remove h.nodup, ?_, ?_, ?_⟩
  · refine hu.links.congr ?_
    intro k _
    rw [sonOf, sonOf, brotherOf, brotherOf, hfr.getDocumentHeader]
    exact ⟨rfl, rfl⟩
  · intro k hk
    obtain ⟨hkT, hkd, hks⟩ := (hmem k).mp hk
    have hown := h.toasts k hkT
    refine hown.frame (by rw [hfr.getDocumentHeader, hfirst k hkT]) ?_ ?_
    · -- what is freed is `d`, what is below it, and its toasts
      intro t ht
      have htT := h.toast_notMem hkT ht
      have hal : Alive file1 t := by
        rw [hf1]
        exact (hown.toast t ht).1
      refine hfr.alive_iff.mpr ⟨hal, ?_⟩
      intro hfreed
      rcases List.mem_cons.mp hfreed with rfl | hfreed
      · exact htT hdT
      · rcases List.mem_append.mp hfreed with ht' | ht'
        · exact htT (Forest.mem_nodes_of_mem_sonsOf ht')
        · exact h.apart k hkT d hdT hkd t ht ht'
    · intro t ht x _
      rw [hfr.blockAt, hothers t fun he => h.toast_notMem hkT ht (he ▸ hl)]
  · intro j hj k hk
    exact h.apart j ((hmem j).mp hj).1 k ((hmem k).mp hk).1

/-! ## 5. A creation

A toast and a document, whichever indices they get, and the link of the parent. -/

/-- What the toast part of `createDocument` leaves: no toast, or an empty one of its own. -/
structure ToastGiven (file file' : ZgdbFile RecordPos) (schema : DocumentSchema) (t : Nat)
    (own : List Nat) : Prop where
  own_eq : own = [] ∧ t = 0 ∨ own = [t] ∧ ¬ Alive file t
  mem : schema.reqToast = true → t ∈ own
  toast : ∀ x ∈ own, x = t ∧ Alive file' x ∧ IsToast file' x ∧ (toastAt file' x).used = 0 ∧
    (toastAt file' x).nextToastIndex = 0
  kept : ∀ k, Alive file k → Alive file' k ∧ blockAt file' k = blockAt file k

theorem RecordStore.toastGiven (h : RecordStore file T own) {schema : DocumentSchema} {t : Nat}
    (hwf : schema.Wf) (hc : createToast file schema = some (t, file')) :
    RecordStore file' T own ∧ ∃ own', ToastGiven file file' schema t own' := by
  unfold createToast at hc
  by_cases hreq : schema.reqToast = true
  · rw [if_pos hreq] at hc
    have hask : sizeofToast ≤ toastRequest schema :=
      (Nat.le_add_right _ _).trans (hwf.le_toastRequest hreq)
    have hask0 := hwf.toastRequest_pos hreq
    obtain ⟨n, rfl, hal, hholds, hothers, h'⟩ :=
      h.allocToast hask0 (Nat.add_pos_left hask0 _) hc
    obtain ⟨hlt, hnal⟩ := h.records.node n hal.mem
    have hcap : sizeofToast ≤ chosenCapacity n (toastRequest schema + sizeofToast) := by
      have hle := hal.large
      unfold chosenCapacity
      split <;> omega
    obtain ⟨hto, hta, -⟩ := IsToast.of_holds hholds rfl rfl hcap
    refine ⟨h', [n.indexOrder], Or.inr ⟨rfl, hnal⟩, fun _ => List.mem_cons_self, ?_, ?_⟩
    · intro x hx
      obtain rfl := List.mem_singleton.mp hx
      exact ⟨rfl, (hal.attached.alive_iff hlt).mpr (Or.inl rfl), hto, by rw [hta]; rfl,
        by rw [hta]; rfl⟩
    · intro k hk
      exact ⟨(hal.attached.alive_iff hlt).mpr (Or.inr hk), hothers k fun he => hnal (he ▸ hk)⟩
  · rw [if_neg hreq] at hc
    obtain ⟨rfl, rfl⟩ := Prod.mk.inj (Option.some.inj hc)
    exact ⟨h, [], Or.inl ⟨rfl, rfl⟩, fun hr => absurd hr hreq, by simp, fun k hk => ⟨hk, rfl⟩⟩

/-- Records host a block of any size, whatever the capacities of the others are. -/
theorem record_hosts (file : ZgdbFile RecordPos) (cap : Nat → Nat) (n : Node) (c : Nat) :
    ∃ L, Hosts file L cap n c := by
  refine ⟨⟨fun _ => True, blockPos file,
    fun j => if j = n.indexOrder then chosenCapacity n c else cap j,
    fun _ _ hjk => record_apart hjk _ _ _ _⟩, fun _ _ => trivial, fun _ _ => rfl, ?_,
    trivial, rfl, ?_⟩
  · intro j hj
    exact if_neg hj
  · exact if_pos rfl

/-- The steps of a creation on records: the toasts `own'` in `file2`, the document in the record of
the node `n` in `file3`, the header of the parent `p`. -/
structure RecordMaking (file file2 file3 file' : ZgdbFile RecordPos) (T : Forest Nat)
    (own : Nat → List Nat) (p t : Nat) (now : UInt32) (name : Name) (schema : DocumentSchema)
    (n : Node) (own' : List Nat) : Prop where
  before : RecordStore file T own
  mem : p ∈ T.nodes
  expanded : RecordStore file2 T own
  given : ToastGiven file file2 schema t own'
  block : BlockFilled file2 file3
    (fun _ => sizeofDocumentHeader + (sizeofToast + chunksOf schema.elements * chunkRecord)) schema
    (newHeader now file2 name schema t (getDocumentHeader file p) n) own' n
  linked : file' = fwriteAt documentHeaderK file3 (blockPos file3 p) 0
    { getDocumentHeader file p with indexSon := n.indexOrder }

namespace RecordMaking

variable {file2 file3 : ZgdbFile RecordPos} {p t : Nat} {now : UInt32} {name : Name}
  {schema : DocumentSchema} {n : Node} {own' : List Nat}

/-- What was ALIVE has another index. -/
theorem other (h : RecordMaking file file2 file3 file' T own p t now name schema n own') {k : Nat}
    (hk : Alive file k) : k ≠ n.indexOrder ∧ k ∉ own' := by
  refine ⟨?_, ?_⟩
  · rintro rfl
    exact (h.expanded.records.node n h.block.mem).2 (h.given.kept _ hk).1
  · intro hko
    rcases h.given.own_eq with ⟨ho, -⟩ | ⟨ho, hna⟩
    · rw [ho] at hko
      cases hko
    · rw [ho, List.mem_singleton] at hko
      exact hna (hko ▸ hk)

theorem fresh (h : RecordMaking file file2 file3 file' T own p t now name schema n own') :
    n.indexOrder ∉ T.nodes := fun hn => (h.other (h.before.document hn).1).1 rfl

theorem mem_nodes (h : RecordMaking file file2 file3 file' T own p t now name schema n own')
    (k : Nat) : k ∈ (T.insertUnder p n.indexOrder).nodes ↔ k = n.indexOrder ∨ k ∈ T.nodes :=
  Forest.mem_nodes_insertUnder h.before.nodup h.mem

/-- The header of the new document, before that of its parent is written. -/
theorem newDocument (h : RecordMaking file file2 file3 file' T own p t now name schema n own') :
    IsDocument file3 n.indexOrder ∧ getDocumentHeader file3 n.indexOrder
      = newHeader now file2 name schema t (getDocumentHeader file p) n := by
  obtain ⟨hdoc, hhdr, -⟩ :=
    IsDocument.of_holds h.block.head rfl rfl (Nat.le_add_right _ _) h.block.large
  exact ⟨hdoc, hhdr⟩

/-- **What was ALIVE keeps its header** until that of the parent is written. -/
theorem agrees (h : RecordMaking file file2 file3 file' T own p t now name schema n own') {k : Nat}
    (hk : Alive file k) : Agrees file file3 k sizeofDocumentHeader := by
  intro d hd
  obtain ⟨hkn, hko⟩ := h.other hk
  obtain ⟨halive, heq⟩ := h.given.kept k hk
  rw [h.block.others k (Or.inl halive) hkn hko d (by omega), heq]

theorem header (h : RecordMaking file file2 file3 file' T own p t now name schema n own') {k : Nat}
    (hk : k ∈ T.nodes) : getDocumentHeader file3 k = getDocumentHeader file k := by
  obtain ⟨halive, hdoc⟩ := h.before.document hk
  exact (hdoc.of_eqOn (h.agrees halive)).2.1

/-- **The records** before the header of the parent is written. -/
theorem records (h : RecordMaking file file2 file3 file' T own p t now name schema n own') :
    Records file3 (T.insertUnder p n.indexOrder).nodes := by
  have hdoc := h.newDocument.1
  refine h.expanded.records.attach h.block.attached ?_ (Or.inl hdoc) ?_
  · intro j hj hjn
    by_cases hjo : j ∈ own'
    · exact Or.inr ⟨(h.given.toast j hjo).2.2.1.record, (h.block.toast j hjo).1.record⟩
    · exact .of_agrees (h.expanded.records.block j hj)
        ((h.block.others j hj hjn hjo).mono (by omega))
  · intro j
    rw [h.mem_nodes, or_comm, and_iff_left_of_imp fun he => he ▸ hdoc]

/-- **The header of the parent** is the last that is written. -/
theorem relinked (h : RecordMaking file file2 file3 file' T own p t now name schema n own') :
    Records file' (T.insertUnder p n.indexOrder).nodes ∧
      getDocumentHeader file' p = { getDocumentHeader file p with indexSon := n.indexOrder } ∧
      ∀ k, k ≠ p → blockAt file' k = blockAt file3 k :=
  h.records.relink ((h.mem_nodes p).mpr (Or.inr h.mem))
    (by rw [h.header h.mem]; rfl : (getDocumentHeader file3 p).SameButLinks _) h.linked

theorem headers (h : RecordMaking file file2 file3 file' T own p t now name schema n own') :
    ∀ k ∈ T.nodes, k ≠ p → getDocumentHeader file' k = getDocumentHeader file k := by
  intro k hk hkp
  rw [getDocumentHeader_eq, h.relinked.2.2 k hkp, ← getDocumentHeader_eq, h.header hk]

theorem newHeader_eq (h : RecordMaking file file2 file3 file' T own p t now name schema n own') :
    getDocumentHeader file' n.indexOrder
      = newHeader now file2 name schema t (getDocumentHeader file p) n := by
  have hnp : n.indexOrder ≠ p := fun he => h.fresh (he ▸ h.mem)
  rw [getDocumentHeader_eq, h.relinked.2.2 _ hnp, ← getDocumentHeader_eq, h.newDocument.2]

theorem alive_iff (h : RecordMaking file file2 file3 file' T own p t now name schema n own')
    (k : Nat) : Alive file' k ↔ k = n.indexOrder ∨ Alive file2 k := by
  rw [← h.block.attached.alive_iff (h.expanded.records.node n h.block.mem).1, h.linked]
  rfl

/-- **The new document has its toasts.** -/
theorem ownToasts_new (h : RecordMaking file file2 file3 file' T own p t now name schema n own') :
    OwnToasts file' n.indexOrder own' := by
  have htoast : ∀ x ∈ own', IsToast file' x ∧ (toastAt file' x).nextToastIndex = 0 := by
    intro x hx
    have hxp : x ≠ p := fun he => (h.other (h.before.document h.mem).1).2 (he ▸ hx)
    have hat := h.relinked.2.2 x hxp
    obtain ⟨h1, h4⟩ := h.block.toast x hx
    refine ⟨(isToast_congr hat).mpr h1, ?_⟩
    rw [toastAt_eq, hat, ← toastAt_eq, h4]
    exact (h.given.toast x hx).2.2.2.2
  refine ⟨?_, ?_, ?_⟩
  · rw [h.newHeader_eq]
    show ToastList file' t own'
    rcases h.given.own_eq with ⟨ho, h0⟩ | ⟨ho, hna⟩
    · rw [ho]
      exact h0
    · rw [ho]
      refine ⟨rfl, fun h0 => hna (h0 ▸ (h.before.document h.before.root_mem).1), ?_⟩
      exact (htoast t (ho ▸ List.mem_cons_self)).2
  · rcases h.given.own_eq with ⟨ho, -⟩ | ⟨ho, -⟩ <;> rw [ho]
    exacts [List.nodup_nil, List.nodup_singleton t]
  · intro x hx
    exact ⟨(h.alive_iff x).mpr (Or.inr (h.given.toast x hx).2.1), (htoast x hx).1⟩

/-- **The other documents keep theirs.** -/
theorem ownToasts_other (h : RecordMaking file file2 file3 file' T own p t now name schema n own')
    {k : Nat} (hk : k ∈ T.nodes) : OwnToasts file' k (own k) := by
  have hown := h.before.toasts k hk
  refine hown.frame ?_ ?_ ?_
  · by_cases hkp : k = p
    · rw [hkp, h.relinked.2.1]
    · rw [h.headers k hk hkp]
  · intro x hx
    exact (h.alive_iff x).mpr (Or.inr (h.given.kept x (hown.toast x hx).1).1)
  · intro x hx d hd
    rw [h.relinked.2.2 x fun he => h.before.toast_notMem hk hx (he ▸ h.mem)]
    exact h.agrees (hown.toast x hx).1 d hd

theorem notMem_own (h : RecordMaking file file2 file3 file' T own p t now name schema n own')
    {k : Nat} (hk : k ∈ T.nodes) : ∀ x ∈ own k, x ∉ own' := by
  intro x hx
  exact (h.other ((h.before.toasts k hk).toast x hx).1).2

/-- **The store of records** with the new leaf. -/
theorem recordStore (h : RecordMaking file file2 file3 file' T own p t now name schema n own') :
    RecordStore file' (T.insertUnder p n.indexOrder)
      (Function.update own n.indexOrder own') := by
  have hb := h.before
  have hn0 : n.indexOrder ≠ 0 := fun h0 => h.fresh (h0 ▸ hb.root_mem)
  have hupd : ∀ k ∈ T.nodes, k ≠ n.indexOrder := fun k hk he => h.fresh (he ▸ hk)
  refine ⟨h.relinked.1, Forest.nodup_insertUnder hb.nodup h.mem h.fresh,
    insert_represents hb.links hb.nodup hn0 h.fresh (by rw [h.newHeader_eq]; rfl)
      (by rw [h.newHeader_eq]; rfl) h.relinked.2.1 h.headers, ?_, ?_⟩
  · intro k hk
    rcases (h.mem_nodes k).mp hk with rfl | hk
    · rw [Function.update_self]
      exact h.ownToasts_new
    · rw [Function.update_of_ne (hupd k hk)]
      exact h.ownToasts_other hk
  · intro j hj k hk hjk x hx
    rcases (h.mem_nodes j).mp hj with rfl | hj <;> rcases (h.mem_nodes k).mp hk with rfl | hk
    · exact absurd rfl hjk
    · rw [Function.update_self] at hx
      rw [Function.update_of_ne (hupd k hk)]
      exact fun hxk => h.notMem_own hk x hxk hx
    · rw [Function.update_of_ne (hupd j hj)] at hx
      rw [Function.update_self]
      exact h.notMem_own hj x hx
    · rw [Function.update_of_ne (hupd j hj)] at hx
      rw [Function.update_of_ne (hupd k hk)]
      exact hb.apart j hj k hk hjk x hx

end RecordMaking

/-- **`createDocument` inserts a leaf**, once the table is expanded. -/
theorem RecordStore.insertLeaf (h : RecordStore file T own) {p t order : Nat} {now : UInt32}
    {name : Name} {schema : DocumentSchema} {file2 file3 : ZgdbFile RecordPos} (hp : p ∈ T.nodes)
    (hwf : schema.Wf) (h2 : createToast file schema = some (t, file2))
    (h3 : createBlock now file2 name schema t (getDocumentHeader file p) = some (order, file3))
    (hf : file' = fwriteAt documentHeaderK file3 (blockPos file3 p) 0
      { getDocumentHeader file p with indexSon := order }) :
    ∃ own', RecordStore file' (T.insertUnder p order) (Function.update own order own') := by
  obtain ⟨hs2, own', hg⟩ := h.toastGiven hwf h2
  have hhost : ∀ n ∈ file2.freeList.nodes, ∃ L, Hosts file2 L
      (fun _ => sizeofDocumentHeader + (sizeofToast + chunksOf schema.elements * chunkRecord)) n
      (docSize schema) := fun n _ => record_hosts file2 _ n _
  obtain ⟨n, rfl, hb⟩ := createBlock_hosted hs2.records.sound hs2.records.node hhost hwf
    (fun x hx => ⟨(hg.toast x hx).1, (hg.toast x hx).2.1, (hg.toast x hx).2.2.1,
      (hg.toast x hx).2.2.2.1, by omega⟩) hg.mem h3
  have hmake : RecordMaking file file2 file3 file' T own p t now name schema n own' :=
    ⟨h, hp, hs2, hg, hb, hf⟩
  exact ⟨own', hmake.recordStore⟩

end Writes

end Zgdb
