/-
# `createDocument` inserts a leaf

`createDocument` makes a toast if the schema has texts, makes the document block, and writes the
header of the parent back with the new document as its first son.  In the tree this is
`insertUnder` (`createDocument_spec`); every other document keeps its elements and its texts
(`Inserted.carried`).

An expansion of the index table is a `Relocated`: the blocks may move, but they keep their bytes,
and the new indices are NEW.
-/
import Mathlib.Algebra.Order.BigOperators.Group.List
import Mathlib.Algebra.Order.Group.Nat
import Zgdb.Create

namespace Zgdb

open Zgdb.Lib AddrSpace

variable {A : Type} [BlockSpace A]

/-! ## 1. Blocks that move

An expansion is used through this relation alone, so that the results do not depend on how blocks
are moved. -/

/-- The blocks have new places and the same bytes; the table has grown by NEW indices.  This is what
`createDocument` relies on when it expands the table, and it is asked of each expansion of a run.
The function of the source does it when the blocks that lie in its way are full
(`expandIndexes_relocated`), and otherwise not (`expandIndexes_preserves`). -/
structure Relocated (file file' : ZgdbFile A) : Prop where
  indexCount : file.header.indexCount ≤ file'.header.indexCount
  flag : ∀ k < file.header.indexCount, (file'.indexes k).flag = (file.indexes k).flag
  fresh : ∀ k, file.header.indexCount ≤ k → k < file'.header.indexCount →
    (file'.indexes k).flag = .new
  agrees : ∀ k, Used file k → Agrees file file' k (blockCapacity file k)
  placed : Placed file' (blockCapacity file)
  nodes : file'.header.nodes = file.header.nodes

theorem Relocated.alive_iff {file file' : ZgdbFile A} (h : Relocated file file') {k : Nat} :
    Alive file' k ↔ Alive file k := by
  constructor
  · rintro ⟨hk, hf⟩
    by_cases hlt : k < file.header.indexCount
    · exact ⟨hlt, h.flag k hlt ▸ hf⟩
    · rw [h.fresh k (by omega) hk] at hf
      cases hf
  · rintro ⟨hk, hf⟩
    exact ⟨by have := h.indexCount; omega, (h.flag k hk).trans hf⟩

theorem Relocated.used_iff {file file' : ZgdbFile A} (h : Relocated file file') {k : Nat} :
    Used file' k ↔ Used file k := by
  unfold Used
  rw [h.alive_iff]
  refine or_congr_right ?_
  constructor
  · rintro ⟨hk, hf⟩
    by_cases hlt : k < file.header.indexCount
    · exact ⟨hlt, h.flag k hlt ▸ hf⟩
    · rw [h.fresh k (by omega) hk] at hf
      cases hf
  · rintro ⟨hk, hf⟩
    exact ⟨by have := h.indexCount; omega, (h.flag k hk).trans hf⟩

/-- **A relocation keeps every block in its class.** -/
theorem Relocated.blocks {file file' : ZgdbFile A} {docs : List Nat} (h : Relocated file file')
    (hb : Blocks file docs) : Blocks file' docs := by
  have hkept : ∀ k, Used file k → Kept file file' k := fun k hk =>
    Kept.of_agrees (hb.block k hk) (h.agrees k hk)
  refine ⟨h.placed.congr fun k hk => (hkept k (h.used_iff.mp hk)).2, ?_, ?_⟩
  · intro k hk
    exact (hkept k (h.used_iff.mp hk)).1.imp And.right And.right
  · intro k
    rw [hb.docs, h.alive_iff]
    exact and_congr_right fun hal => (hkept k (Or.inl hal)).isDocument_iff

theorem Relocated.refl {file : ZgdbFile A} {docs : List Nat} (hb : Blocks file docs) :
    Relocated file file :=
  ⟨Nat.le_refl _, fun _ _ => rfl, fun k h1 h2 => absurd h2 (by omega),
    fun _ _ _ _ => rfl, hb.placed,
    rfl⟩

/-- Blocks that keep their class, in tables that stay the same. -/
theorem Blocks.kept {file file' : ZgdbFile A} {docs : List Nat} (hb : Blocks file docs)
    (hi : file'.indexes = file.indexes) (hl : file'.freeList = file.freeList)
    (hh : file'.header = { file.header with nodes := file'.header.nodes })
    (hkept : ∀ k, Used file k → Kept file file' k) : Blocks file' docs := by
  have hused : ∀ k, Used file' k ↔ Used file k := by
    intro k
    unfold Used Alive Dead
    rw [hh, hi]
  have halive : ∀ k, Alive file' k ↔ Alive file k := by
    intro k
    unfold Alive
    rw [hh, hi]
  have hplaced : Placed file' (blockCapacity file) := by
    refine ⟨hl ▸ hb.placed.sound, hl ▸ hb.placed.nodup, ?_, ?_, ?_⟩
    · rw [hl, hi, hh]
      exact hb.placed.node
    · rw [hl, hi, hh]
      exact hb.placed.free
    · obtain ⟨ks, hn, hmem, ht⟩ := hb.placed.tiled
      refine ⟨ks, hn, fun k => (hmem k).trans (hused k).symm, ?_⟩
      rw [hi, hh]
      exact ht
  refine ⟨hplaced.congr fun k hk => (hkept k ((hused k).mp hk)).2, ?_, ?_⟩
  · intro k hk
    exact (hkept k ((hused k).mp hk)).1.imp And.right And.right
  · intro k
    rw [hb.docs, halive]
    refine and_congr_right ?_
    intro hal
    exact (hkept k (Or.inl hal)).isDocument_iff

/-! ## 2. Documents that are carried over

What is known of a document is known again when the bytes of its block and its toasts are the same,
wherever they lie, and its links may have changed. -/

/-- Every document of the tree keeps its elements and its toasts: at most its links are new, and its
toasts are ALIVE and unchanged.  What is read of a document depends on nothing else. -/
def Carried (T : Forest Nat) (own : Nat → List Nat) (file file' : ZgdbFile A) : Prop :=
  ∀ k ∈ T.nodes, Relinked file file' k ∧
    ∀ t ∈ own k, Alive file' t ∧ Agrees file file' t (toastAt file t).capacity

section Carried

variable {file file' file'' : ZgdbFile A} {T : Forest Nat} {es : Nat → List StoredElement}
  {own : Nat → List Nat}

theorem Carried.doc (h : Carried T own file file') (hs : Store file T es own) {k : Nat}
    (hk : k ∈ T.nodes) : Doc file' k (es k) (own k) :=
  (hs.doc k hk).frame (h k hk).1 (fun t ht => ((h k hk).2 t ht).1) fun t ht => ((h k hk).2 t ht).2

/-- **A carried document reads as before.** -/
theorem Carried.entries (h : Carried T own file file') (hs : Store file T es own) {k : Nat}
    (hk : k ∈ T.nodes) : entries file' k = entries file k :=
  (hs.doc k hk).entries_frame (h k hk).1 (hs.attached hk) (fun t ht => ((h k hk).2 t ht).1)
    fun t ht => ((h k hk).2 t ht).2

theorem Carried.name (h : Carried T own file file') {k : Nat} (hk : k ∈ T.nodes) :
    (getDocumentHeader file' k).name = (getDocumentHeader file k).name := (h k hk).1.name

/-- Blocks that keep all their bytes carry the documents. -/
theorem Carried.of_agrees (hs : Store file T es own) (halive : ∀ k, Alive file k → Alive file' k)
    (heq : ∀ k, Alive file k → Agrees file file' k (blockCapacity file k)) :
    Carried T own file file' := by
  intro k hk
  have hd := hs.isDocument hk
  refine ⟨Relinked.of_agrees hd ((heq k (hs.alive hk)).mono ?_), ?_⟩
  · rw [hd.capacity]
    exact hd.size_le
  · intro t ht
    have htexts := (hs.doc k hk).texts
    refine ⟨halive t (htexts.alive t ht), ?_⟩
    rw [← (htexts.toast t ht).capacity]
    exact heq t (htexts.alive t ht)

/-- **Blocks that keep all their bytes keep the store.** -/
theorem Store.of_agrees (hs : Store file T es own) (hb : Blocks file' T.nodes)
    (halive : ∀ k, Alive file k → Alive file' k)
    (heq : ∀ k, Alive file k → Agrees file file' k (blockCapacity file k))
    (hnodes : file'.header.nodes = file.header.nodes) :
    Store file' T es own ∧ Carried T own file file' ∧
      ∀ k ∈ T.nodes, getDocumentHeader file' k = getDocumentHeader file k := by
  have hc : Carried T own file file' := Carried.of_agrees hs halive heq
  have hhdr : ∀ k ∈ T.nodes, getDocumentHeader file' k = getDocumentHeader file k := by
    intro k hk
    have hd := hs.isDocument hk
    exact (hd.of_eqOn ((heq k (hs.alive hk)).mono hd.header_le)).2.1
  refine ⟨⟨hb, hs.nodup, ?_, ?_, ?_, hnodes.trans hs.nodes, fun k hk => hc.doc hs hk, hs.apart⟩,
    hc, hhdr⟩
  · refine hs.links.congr ?_
    intro k hk
    rw [sonOf, sonOf, brotherOf, brotherOf, hhdr k hk]
    exact ⟨rfl, rfl⟩
  · rw [hhdr 0 hs.root_mem]
    exact hs.root
  · rw [hhdr 0 hs.root_mem]
    exact hs.rootToast

/-- **A relocation keeps the store.** -/
theorem Store.relocate (hs : Store file T es own) (h : Relocated file file') :
    Store file' T es own ∧ Carried T own file file' ∧
      ∀ k ∈ T.nodes, getDocumentHeader file' k = getDocumentHeader file k :=
  hs.of_agrees (h.blocks hs.blocks) (fun _ hk => h.alive_iff.mpr hk)
    (fun k hk => h.agrees k (Or.inl hk)) h.nodes

end Carried

/-! ## 3. The toast of a new document

`minToastCapacity` counts the chunks of all texts, so the toast that is made for them has as many
slots, or more when an old block is taken. -/

/-- A schema with texts takes at least one chunk. -/
theorem DocumentSchema.Wf.chunksOf_pos {schema : DocumentSchema} (h : schema.Wf)
    (hreq : schema.reqToast = true) : 0 < chunksOf schema.elements := by
  obtain ⟨e, he, hte⟩ := h.reqToast_iff.mp hreq
  have hle : e.chunks ≤ chunksOf schema.elements :=
    List.le_sum_of_mem (List.mem_map_of_mem he)
  refine Nat.lt_of_lt_of_le ?_ hle
  have hok := h.textOk e he
  obtain ⟨key, v⟩ := e
  cases v with
  | text txt =>
    refine chunkCount_pos ?_
    rw [hok txt rfl]
    omega
  | _ => cases hte

theorem DocumentSchema.Wf.toastRequest_eq [TextCut] {schema : DocumentSchema} (h : schema.Wf) :
    toastRequest schema = 2 * chunksOf schema.elements * chunkRecord := by
  rw [toastRequest, h.minToastCapacity_eq]
  rfl

/-- The block that is asked for has room for the header and all texts. -/
theorem DocumentSchema.Wf.toastRequest_room [TextCut] {schema : DocumentSchema} (h : schema.Wf)
    (hpos : 0 < chunksOf schema.elements) :
    sizeofToast + chunksOf schema.elements * chunkRecord ≤ toastRequest schema := by
  rw [h.toastRequest_eq]
  simp only [chunkRecord, sizeofTextChunk, sizeofToast]
  omega

theorem DocumentSchema.Wf.le_toastRequest {schema : DocumentSchema} (h : schema.Wf)
    (hreq : schema.reqToast = true) :
    sizeofToast + chunksOf schema.elements * chunkRecord ≤ toastRequest schema :=
  h.toastRequest_room (h.chunksOf_pos hreq)

theorem DocumentSchema.Wf.toastRequest_pos {schema : DocumentSchema} (h : schema.Wf)
    (hreq : schema.reqToast = true) : 0 < toastRequest schema :=
  Nat.lt_of_lt_of_le (by decide) ((Nat.le_add_right _ _).trans (h.le_toastRequest hreq))

/-- What the toast part of `createDocument` leaves: no toast, or an empty one with room for all
texts. -/
structure ToastMade (file file' : ZgdbFile A) (schema : DocumentSchema) (t : Nat) (own : List Nat) :
    Prop where
  own_eq : own = [] ∧ t = 0 ∨ own = [t] ∧ ¬ Alive file t
  mem : schema.reqToast = true → t ∈ own
  noText : schema.reqToast = false → own = [] ∧ file' = file
  nodes : file'.header.nodes = file.header.nodes
  used : ∀ j, Used file j → Used file' j
  alive : ∀ j, Alive file' j ↔ Alive file j ∨ j ∈ own
  others : ∀ j, Used file j → j ∉ own → Agrees file file' j (blockCapacity file j)
  toast : ∀ x ∈ own, x = t ∧ Alive file' x ∧ IsToast file' x ∧ (toastAt file' x).used = 0 ∧
    sizeofToast + chunksOf schema.elements * chunkRecord ≤ (toastAt file' x).capacity
  next : ∀ x ∈ own, (toastAt file' x).nextToastIndex = 0
  tables : Extended file file'
  alloc : ∀ x ∈ own, ∃ n, x = n.indexOrder ∧
    ToastAlloc file file' (toastRequest schema) (toastRequest schema + sizeofToast) n ∧
    toastAt file' x = toastHeader n (toastRequest schema + sizeofToast)

/-- **The toast part of `createDocument`.** -/
theorem createToast_spec {file file' : ZgdbFile A} {docs : List Nat} {schema : DocumentSchema}
    {t : Nat} (h : Blocks file docs) (hwf : schema.Wf)
    (hspill : schema.reqToast = true → NoSpill file (toastRequest schema))
    (hc : createToast file schema = some (t, file')) :
    Blocks file' docs ∧ ∃ own, ToastMade file file' schema t own := by
  unfold createToast at hc
  by_cases hreq : schema.reqToast = true
  · rw [if_pos hreq] at hc
    have hle := hwf.le_toastRequest hreq
    obtain ⟨n, rfl, hal, hothers, hto, hta, hb⟩ :=
      allocToast_spec h (by omega) (by omega) (hspill hreq) hc
    have hn := hal.mem
    have hat := hal.attached
    have hsize := hal.large
    have hnodes := hal.nodes
    have hlt := (h.placed.node n hn).1
    refine ⟨hb, [n.indexOrder], Or.inr ⟨rfl, h.placed.not_alive hn⟩, fun _ => List.mem_cons_self,
      fun hr => absurd (hreq.symm.trans hr) (by decide), hnodes,
        fun j hj => (hat.used_iff hlt).mpr (Or.inr hj),
      fun j => by rw [hat.alive_iff hlt, List.mem_singleton, or_comm],
      fun j hj hjo => hothers j hj fun he => hjo (he ▸ List.mem_cons_self), ?_, ?_,
      hat.extended h.placed hn (fun j hj hjn =>
        (Kept.of_agrees (h.block j hj) (hothers j hj hjn)).2) (by rw [hto.capacity, hta]; rfl),
      fun x hx => ?_⟩
    · intro x hx
      obtain rfl := List.mem_singleton.mp hx
      refine ⟨rfl, (hat.alive_iff hlt).mpr (Or.inl rfl), hto, by rw [hta]; rfl, ?_⟩
      rw [hta]
      simp only [toastHeader, chosenCapacity]
      split <;> omega
    · intro x hx
      obtain rfl := List.mem_singleton.mp hx
      rw [hta]
      rfl
    · obtain rfl := List.mem_singleton.mp hx
      exact ⟨n, rfl, hal, hta⟩
  · rw [if_neg hreq] at hc
    obtain ⟨rfl, rfl⟩ := Prod.mk.inj (Option.some.inj hc)
    exact ⟨h, [], Or.inl ⟨rfl, rfl⟩, fun hr => absurd hr hreq, fun _ => ⟨rfl, rfl⟩, rfl,
      fun _ hj => hj, fun _ => by simp,
      fun j _ _ d _ => rfl, by simp, by simp, .refl file, by simp⟩

/-! ## 4. A header written back

The parent is written back as a whole, from the copy that was read at the start, with one field
changed.  The other fields are still those of the file, as nothing else has written to this header.
-/

/-- A header with at most other links. -/
def DocumentHeader.SameButLinks (header header' : DocumentHeader) : Prop :=
  header' = { header with indexSon := header'.indexSon, indexBrother := header'.indexBrother }

theorem IsDocument.relink {file file' : ZgdbFile A} {p : Nat} {header : DocumentHeader}
    (hdoc : IsDocument file p) (hh : (getDocumentHeader file p).SameButLinks header)
    (hf : file' = fwriteAt documentHeaderK file (blockPos file p) 0 header) :
    IsDocument file' p ∧ getDocumentHeader file' p = header ∧
      blockCapacity file' p = header.capacity := by
  have hat : blockAt file' p = store documentHeaderK (blockAt file p) 0 header := by
    rw [hf, blockAt_fwriteAt]
  refine IsDocument.of_holds (by rw [hat]; exact holds_store) ?_ ?_ ?_ ?_
  · rw [hh]; exact hdoc.type
  · rw [hh]; exact hdoc.attached
  · rw [hh]; exact hdoc.le_size
  · rw [hh]; exact hdoc.size_le

/-- **A document header written back with other links** changes nothing else. -/
theorem relink_spec {file : ZgdbFile A} {docs : List Nat} {p : Nat} (header : DocumentHeader)
    (h : Blocks file docs) (hp : p ∈ docs)
    (hh : (getDocumentHeader file p).SameButLinks header) {file' : ZgdbFile A}
    (hf : file' = fwriteAt documentHeaderK file (blockPos file p) 0 header) :
    Blocks file' docs ∧ getDocumentHeader file' p = header ∧ Relinked file file' p ∧
      (∀ j, Used file j → j ≠ p → Agrees file file' j (blockCapacity file j)) ∧
      (∀ d, sizeofDocumentHeader ≤ d → d < blockCapacity file p →
        blockAt file' p d = blockAt file p d) ∧ Extended file file' := by
  have hdoc := ((h.docs p).mp hp).2
  have hused : Used file p := Or.inl ((h.docs p).mp hp).1
  have hat : blockAt file' p = store documentHeaderK (blockAt file p) 0 header := by
    rw [hf, blockAt_fwriteAt]
  have hdoc' := hdoc.relink hh hf
  have hcap : header.capacity = blockCapacity file p := by
    rw [hh, hdoc.capacity]
  have hbody : ∀ d, sizeofDocumentHeader ≤ d → blockAt file' p d = blockAt file p d := by
    intro d hd
    rw [hat]
    exact store_apply_nat (Or.inr (by simpa [documentHeaderK] using hd))
  have hothers : ∀ j, Used file j → j ≠ p → Agrees file file' j (blockCapacity file j) := by
    intro j hj hjp d hd
    have hap := (h.placed.apart hj hused hjp).mono (Nat.le_refl _) hdoc.header_le
    rw [← AddrSpace.shift_zero (blockPos file p)] at hap
    rw [hf]
    exact view_store_of_apart hap hd
  have hkept : ∀ j, Used file j → Kept file file' j := by
    intro j hj
    by_cases hjp : j = p
    · subst hjp
      exact ⟨Or.inl ⟨hdoc, hdoc'.1⟩, hdoc'.2.2.trans hcap⟩
    · exact Kept.of_agrees (h.block j hj) (hothers j hj hjp)
  refine ⟨h.kept (by rw [hf]; rfl) (by rw [hf]; rfl) (by rw [hf]; rfl) hkept, hdoc'.2.1,
    ⟨?_, fun d hd _ => hbody d hd⟩, hothers, fun d hd _ => hbody d hd, ?_⟩
  · rw [hdoc'.2.1]
    exact hh
  · have hcapacity := fun k hk => (hkept k hk).2
    rw [hf] at hcapacity ⊢
    exact ⟨rfl, rfl, Nat.le_refl _, fun _ hk => hk, fun _ _ => rfl, hcapacity⟩

/-! ## 5. The new leaf

The steps are put together: each file on the way is named (`Making`), and what is asked of the last
one is carried back through them. -/

/-- What `createDocument` makes of a sound store: a new leaf `n` in front of the sons of `p`, with
the elements of the schema; the toasts `own'` are its own, one if the schema has texts.  No other
block changes, apart from the link in the header of the parent, and the new document reads as what
was written. -/
structure Inserted (file file' : ZgdbFile A) (T : Forest Nat) (es : Nat → List StoredElement)
    (own : Nat → List Nat) (p n : Nat) (name : Name) (schema : DocumentSchema) (own' : List Nat) :
    Prop where
  fresh : n ∉ T.nodes
  store : Store file' (T.insertUnder p n) (Function.update es n (storeElements 0 schema.elements))
    (Function.update own n own')
  carried : Carried T own file file'
  name : (getDocumentHeader file' n).name = name
  written : Written file' (getDocumentHeader file' n).firstToastIndex 0 schema.elements
  others : ∀ j, Used file j → j ≠ n → j ∉ own' → j ≠ p → Agrees file file' j (blockCapacity file j)
  parent : ∀ d, sizeofDocumentHeader ≤ d → d < blockCapacity file p →
    blockAt file' p d = blockAt file p d
  alive : ∀ k, Alive file' k ↔ k = n ∨ k ∈ own' ∨ Alive file k
  list : ToastList file' (getDocumentHeader file' n).firstToastIndex own'
  single : own'.length ≤ 1
  son : (getDocumentHeader file' p).indexSon = n

/-- The allocations behind a creation: the toast, then the block of the document, whose node is
`m`; what follows only writes to the data area. -/
structure Allocated (file file2 file' : ZgdbFile A) (schema : DocumentSchema) (m : Node)
    (own' : List Nat) : Prop where
  toast : ∃ t, ToastMade file file2 schema t own'
  chosen : ∃ list, findRelevantIndex file2.freeList (docSize schema) = some (m, list)
  placed : Placed file2 (blockCapacity file2)
  mem : m ∈ file2.freeList.nodes
  attached : Attached file2 file' m (docSize schema)
  tables : Extended file2 file'
  capacity : blockCapacity file' m.indexOrder = chosenCapacity m (docSize schema)

/-- **The new document is in order** once its block and its toast are there. -/
theorem Created.doc_ok {file file' file'' : ZgdbFile A} {docs own : List Nat} {now : UInt32}
    {name : Name} {schema : DocumentSchema} {parentHeader : DocumentHeader} {t : Nat} {n : Node}
    (hwf : schema.Wf) (hcomplete : schema.Complete) (hm : ToastMade file file' schema t own)
    (hb : Blocks file' docs)
    (hc : Created file' file'' schema (newHeader now file' name schema t parentHeader n) own n)
    (ht : own = [t] → t ≠ 0) :
    Doc file'' n.indexOrder (storeElements 0 schema.elements) own := by
  have hhdr := hc.header
  have hlt := (hb.placed.node n hc.mem).1
  have hno : own = [] → ∀ e ∈ schema.elements, e.value.type ≠ .text := by
    intro ho e he hte
    have := hm.mem (hwf.reqToast_iff.mpr ⟨e, he, hte⟩)
    rw [ho] at this
    cases this
  refine ⟨?_, ?_, hc.holds, ?_, ?_, ?_⟩
  · rw [hhdr, storeElements_length, ← hwf.size_eq, ← hcomplete]
    rfl
  · rw [hhdr, storeElements_size, ← hwf.sizeOfElements_eq]
    rfl
  · rw [storeElements_keys]
    exact hwf.keys_nodup
  · rw [hhdr]
    show Texts file'' own t _
    rcases hm.own_eq with ⟨ho, -⟩ | ⟨ho, -⟩
    · rw [textsOf_eq_nil (hno ho), ho]
      exact Texts.nil file'' t
    · have hx : t ∈ own := ho ▸ List.mem_cons_self
      obtain ⟨hto, hta⟩ := hc.toast t hx
      obtain ⟨-, hal, -, -, hfits⟩ := hm.toast t hx
      have hwritten : Written file'' t 0 schema.elements := hc.written
      rw [ho]
      refine hwritten.texts hwf.textOk ((hc.attached.alive_iff hlt).mpr (Or.inr hal)) hto
        (by rw [hta]) ?_
      rw [hta]
      exact hfits
  · rw [hhdr]
    show ∃ ts, ToastList file'' t ts ∧ ts.Nodup ∧ ∀ x ∈ ts, x ∈ own
    rcases hm.own_eq with ⟨ho, rfl⟩ | ⟨ho, -⟩
    · exact ⟨[], rfl, List.nodup_nil, by simp⟩
    · have hx : t ∈ own := ho ▸ List.mem_cons_self
      refine ⟨[t], ⟨rfl, ht ho, ?_⟩, List.nodup_singleton t, ?_⟩
      · rw [(hc.toast t hx).2]
        exact hm.next t hx
      · intro x hxt
        rw [List.mem_singleton.mp hxt]
        exact hx

/-- The tables after both allocations. -/
theorem Allocated.extended {file file2 file' : ZgdbFile A} {schema : DocumentSchema} {m : Node}
    {own' : List Nat} (h : Allocated file file2 file' schema m own') : Extended file file' := by
  obtain ⟨t, ht⟩ := h.toast
  exact ht.tables.trans h.tables

/-- **The links of a new leaf** encode the tree with it. -/
theorem insert_represents {file file' : ZgdbFile A} {T : Forest Nat} {p n : Nat}
    (hlinks : T.Represents (sonOf file) (brotherOf file) (some 0)) (hn : T.nodes.Nodup) (h0 : n ≠ 0)
    (hfresh : n ∉ T.nodes) (hson : (getDocumentHeader file' n).indexSon = 0)
    (hbrother : (getDocumentHeader file' n).indexBrother = (getDocumentHeader file p).indexSon)
    (hparent : getDocumentHeader file' p = { getDocumentHeader file p with indexSon := n })
    (hsame : ∀ k ∈ T.nodes, k ≠ p → getDocumentHeader file' k = getDocumentHeader file k) :
    (T.insertUnder p n).Represents (sonOf file') (brotherOf file') (some 0) := by
  refine hlinks.insertUnder ?_ ?_ ?_ ?_ hn hfresh ?_
  · rw [sonOf, hson]
    rfl
  · rw [brotherOf, hbrother]
    rfl
  · rw [sonOf, hparent]
    exact link_of_ne h0
  · rw [brotherOf, hparent]
    rfl
  · intro k hk hkp
    rw [sonOf, brotherOf, hsame k hk hkp]
    exact ⟨rfl, rfl⟩

section Create

variable {expandIndexes : ZgdbFile A → Option (ZgdbFile A)} {now : UInt32} {file file' : ZgdbFile A}
  {name : Name} {schema : DocumentSchema} {parent : Document} {status : CreateStatus}

/-- An incomplete schema is refused and nothing changes. -/
theorem createDocument_incomplete [TextCut] (h : ¬ schema.Complete) :
    createDocument expandIndexes now file name schema parent = some (.outOfIndex, file) :=
  if_pos h

/-- The parts of a creation that returns. -/
theorem createDocument_cases [TextCut]
    (hc : createDocument expandIndexes now file name schema parent = some (status, file'))
    (hcomplete : schema.Complete) : status = .createOk ∧ ∃ file1 t file2 order file3,
      expanded expandIndexes file = some file1 ∧ createToast file1 schema = some (t, file2) ∧
      createBlock now file2 name schema t (getDocumentHeader file parent.header.indexAttached)
        = some (order, file3) ∧
      file' = fwriteAt documentHeaderK file3 (blockPos file3 parent.header.indexAttached) 0
        { getDocumentHeader file parent.header.indexAttached with indexSon := order } := by
  have hne : ¬ schema.capacity ≠ schema.size := not_not.mpr hcomplete
  unfold createDocument at hc
  simp only [if_neg hne] at hc
  obtain ⟨file1, h1, hc⟩ := Option.bind_eq_some_iff.mp hc
  obtain ⟨⟨t, file2⟩, h2, hc⟩ := Option.bind_eq_some_iff.mp hc
  obtain ⟨⟨order, file3⟩, h3, hc⟩ := Option.bind_eq_some_iff.mp hc
  obtain ⟨rfl, rfl⟩ := Prod.mk.inj (Option.some.inj hc)
  exact ⟨rfl, file1, t, file2, order, file3, h1, h2, h3, rfl⟩

variable {T : Forest Nat} {es : Nat → List StoredElement} {own : Nat → List Nat}

/-- The blocks through the whole of `createDocument`: what was there before keeps its bytes until
the header of the parent is written. -/
theorem create_agrees {file1 file2 file3 : ZgdbFile A} {docs own' : List Nat} {t : Nat}
    {header : DocumentHeader} {n : Node} (hb : Blocks file docs) (h1 : Relocated file file1)
    (h2 : ToastMade file1 file2 schema t own') (h3 : Created file2 file3 schema header own' n)
    {j : Nat} (hj : Used file j) (hjn : j ≠ n.indexOrder) (hjo : j ∉ own') :
    Agrees file file3 j (blockCapacity file j) ∧
      blockCapacity file3 j = blockCapacity file j := by
  have hb1 := h1.blocks hb
  have a1 := h1.agrees j hj
  have hj1 : Used file1 j := h1.used_iff.mpr hj
  have c1 := (Kept.of_agrees (hb.block j hj) a1).2
  have a2 := h2.others j hj1 hjo
  have k2 := Kept.of_agrees (hb1.block j hj1) a2
  have a3 := h3.others j (h2.used j hj1) hjn hjo
  have k3 := Kept.of_agrees (k2.1.imp And.right And.right) a3
  rw [c1] at a2
  rw [k2.2, c1] at a3
  exact ⟨(a1.trans a2).trans a3, k3.2.trans (k2.2.trans c1)⟩

/-- A creation under `p` on its way: `file1` with room in the index table, `file2` with the toast,
`file3` with the block of the new document, and `file'` when the parent leads to it. -/
structure Making (file file1 file2 file3 file' : ZgdbFile A) (docs : List Nat) (p : Nat)
    (now : UInt32) (name : Name) (schema : DocumentSchema) (t : Nat) (n : Node) (own' : List Nat) :
    Prop where
  relocated : Relocated file file1
  blocks : Blocks file2 docs
  toast : ToastMade file1 file2 schema t own'
  block : Created file2 file3 schema
    (newHeader now file2 name schema t (getDocumentHeader file p) n) own' n
  linked : file' = fwriteAt documentHeaderK file3 (blockPos file3 p) 0
    { getDocumentHeader file p with indexSon := n.indexOrder }

/-- **The way of a creation that returns.** -/
theorem createDocument_making {docs : List Nat} (hb : Blocks file docs) (hwf : schema.Wf)
    (hcomplete : schema.Complete)
    (hexp : ∀ file1, expanded expandIndexes file = some file1 → Relocated file file1)
    (hspill : ∀ file1, expanded expandIndexes file = some file1 → schema.reqToast = true →
      NoSpill file1 (toastRequest schema))
    (hc : createDocument expandIndexes now file name schema parent = some (status, file')) :
    status = .createOk ∧ ∃ file1 file2 file3 t n own', expanded expandIndexes file = some file1 ∧
      Making file file1 file2 file3 file' docs parent.header.indexAttached now name schema t n
        own' := by
  obtain ⟨hst, file1, t, file2, order, file3, he, htoast, hblock, hf⟩ :=
    createDocument_cases hc hcomplete
  have h1 := hexp file1 he
  obtain ⟨hb2, own', h2⟩ := createToast_spec (h1.blocks hb) hwf (hspill file1 he) htoast
  obtain ⟨n, rfl, h3⟩ := createBlock_spec hb2 hwf (fun x hx => h2.toast x hx) h2.mem hblock
  exact ⟨hst, file1, file2, file3, t, n, own', he, h1, hb2, h2, h3, hf⟩

namespace Making

variable {file1 file2 file3 : ZgdbFile A} {p t : Nat} {n : Node} {own' : List Nat}

theorem node_lt {docs : List Nat}
    (h : Making file file1 file2 file3 file' docs p now name schema t n own') :
    n.indexOrder < file2.header.indexCount := (h.blocks.placed.node n h.block.mem).1

/-- The index of the new document is not in use, and neither is that of its toast. -/
theorem notAlive {docs : List Nat}
    (h : Making file file1 file2 file3 file' docs p now name schema t n own')
    {k : Nat} (hk : Alive file k) : k ≠ n.indexOrder ∧ k ∉ own' := by
  have hk1 : Alive file1 k := h.relocated.alive_iff.mpr hk
  refine ⟨?_, ?_⟩
  · intro he
    exact h.blocks.placed.not_alive h.block.mem (he ▸ (h.toast.alive k).mpr (Or.inl hk1))
  · intro hko
    rcases h.toast.own_eq with ⟨ho, -⟩ | ⟨ho, hna⟩
    · rw [ho] at hko
      cases hko
    · rw [ho, List.mem_singleton] at hko
      exact hna (hko ▸ hk1)

variable (h : Making file file1 file2 file3 file' T.nodes p now name schema t n own')
  (hs : Store file T es own) (hp : p ∈ T.nodes)

include h

theorem alive_iff (k : Nat) : Alive file' k ↔ k = n.indexOrder ∨ k ∈ own' ∨ Alive file k := by
  have hal3 : Alive file' k ↔ Alive file3 k := by rw [h.linked]; rfl
  rw [hal3, h.block.attached.alive_iff h.node_lt, h.toast.alive, h.relocated.alive_iff,
    or_comm (a := Alive file k)]

include hs

theorem fresh : n.indexOrder ∉ T.nodes := fun hn => (h.notAlive (hs.alive hn)).1 rfl

/-- What was there keeps its bytes until the parent is written. -/
theorem kept {j : Nat} (hj : Used file j) (hjn : j ≠ n.indexOrder) (hjo : j ∉ own') :
    Agrees file file3 j (blockCapacity file j) ∧ blockCapacity file3 j = blockCapacity file j :=
  create_agrees hs.blocks h.relocated h.toast h.block hj hjn hjo

include hp

/-- The parent is still as it was read. -/
theorem parentKept : Agrees file file3 p (blockCapacity file p) ∧
    blockCapacity file3 p = blockCapacity file p ∧
    getDocumentHeader file3 p = getDocumentHeader file p := by
  obtain ⟨hnew, hown⟩ := h.notAlive (hs.alive hp)
  obtain ⟨hagrees, hcap⟩ := h.kept hs (Or.inl (hs.alive hp)) hnew hown
  have hdoc := hs.isDocument hp
  exact ⟨hagrees, hcap, (hdoc.of_eqOn (hagrees.mono hdoc.header_le)).2.1⟩

/-- **The last write** makes the parent lead to the new document. -/
theorem relinked : Blocks file' (T.insertUnder p n.indexOrder).nodes ∧
    getDocumentHeader file' p = { getDocumentHeader file p with indexSon := n.indexOrder } ∧
    Relinked file3 file' p ∧
    (∀ j, Used file3 j → j ≠ p → Agrees file3 file' j (blockCapacity file3 j)) ∧
    (∀ d, sizeofDocumentHeader ≤ d → d < blockCapacity file3 p →
      blockAt file' p d = blockAt file3 p d) ∧ Extended file3 file' := by
  refine relink_spec _ (h.block.blocks _ _ h.blocks fun j =>
    Forest.mem_nodes_insertUnder hs.nodup hp) ?_ ?_ h.linked
  · exact (Forest.mem_nodes_insertUnder hs.nodup hp).mpr (Or.inr hp)
  · rw [(h.parentKept hs hp).2.2]
    rfl

theorem others {j : Nat} (hj : Used file j) (hjn : j ≠ n.indexOrder) (hjo : j ∉ own')
    (hjp : j ≠ p) : Agrees file file' j (blockCapacity file j) := by
  obtain ⟨hagrees, hcap⟩ := h.kept hs hj hjn hjo
  have hused : Used file3 j := (h.block.attached.used_iff h.node_lt).mpr
    (Or.inr (h.toast.used j (h.relocated.used_iff.mpr hj)))
  have hbehind := (h.relinked hs hp).2.2.2.1 j hused hjp
  rw [hcap] at hbehind
  exact hagrees.trans hbehind

/-- What is alive and not the parent keeps its bytes. -/
theorem aliveKept {j : Nat} (hj : Alive file j) (hjp : j ≠ p) :
    Agrees file file' j (blockCapacity file j) :=
  h.others hs hp (Or.inl hj) (h.notAlive hj).1 (h.notAlive hj).2 hjp

/-- Every document is carried over. -/
theorem carried : Carried T own file file' := by
  intro k hk
  have hdoc := hs.isDocument hk
  have hle : (getDocumentHeader file k).size ≤ blockCapacity file k := by
    rw [hdoc.capacity]
    exact hdoc.size_le
  refine ⟨?_, ?_⟩
  · by_cases hkp : k = p
    · subst hkp
      exact (Relinked.of_agrees hdoc ((h.parentKept hs hp).1.mono hle)).trans
        (h.relinked hs hp).2.2.1
    · exact Relinked.of_agrees hdoc ((h.aliveKept hs hp (hs.alive hk) hkp).mono hle)
  · intro x hx
    have htexts := (hs.doc k hk).texts
    have hax := htexts.alive x hx
    have hxp : x ≠ p := fun he => hs.toast_notMem hk hx (he ▸ hp)
    refine ⟨(h.alive_iff x).mpr (Or.inr (Or.inr hax)), ?_⟩
    rw [← (htexts.toast x hx).capacity]
    exact h.aliveKept hs hp hax hxp

theorem headers {k : Nat} (hk : k ∈ T.nodes) (hkp : k ≠ p) :
    getDocumentHeader file' k = getDocumentHeader file k := by
  have hdoc := hs.isDocument hk
  exact (hdoc.of_eqOn ((h.aliveKept hs hp (hs.alive hk) hkp).mono hdoc.header_le)).2.1

/-- The last write leaves the block of the new document as it is. -/
theorem newKept : Agrees file3 file' n.indexOrder (blockCapacity file3 n.indexOrder) := by
  have hused : Used file3 n.indexOrder :=
    (h.block.attached.used_iff h.node_lt).mpr (Or.inl rfl)
  exact (h.relinked hs hp).2.2.2.1 _ hused fun he => h.fresh hs (he ▸ hp)

/-- **The header of the new document.** -/
theorem newHeader_eq : getDocumentHeader file' n.indexOrder
    = newHeader now file2 name schema t (getDocumentHeader file p) n := by
  rw [← h.block.header]
  exact (h.block.doc.of_eqOn ((h.newKept hs hp).mono h.block.doc.header_le)).2.1

/-- Neither does it touch its toast. -/
theorem ownKept {x : Nat} (hx : x ∈ own') :
    Alive file' x ∧ Agrees file3 file' x (toastAt file3 x).capacity := by
  have hax : Alive file3 x :=
    (h.block.attached.alive_iff h.node_lt).mpr (Or.inr (h.toast.toast x hx).2.1)
  have hxp : x ≠ p := fun he => (h.notAlive (hs.alive hp)).2 (he ▸ hx)
  refine ⟨(h.alive_iff x).mpr (Or.inr (Or.inl hx)), ?_⟩
  rw [← (h.block.toast x hx).1.capacity]
  exact (h.relinked hs hp).2.2.2.1 x (Or.inl hax) hxp

/-- **The new document is in order.** -/
theorem doc (hwf : schema.Wf) (hcomplete : schema.Complete) :
    Doc file' n.indexOrder (storeElements 0 schema.elements) own' := by
  refine (h.block.doc_ok hwf hcomplete h.toast h.blocks ?_).frame
    (Relinked.of_agrees h.block.doc ((h.newKept hs hp).mono ?_))
    (fun x hx => (h.ownKept hs hp hx).1)
    fun x hx => (h.ownKept hs hp hx).2
  · intro ho ht
    exact (h.notAlive (hs.alive hs.root_mem)).2 (by rw [ho, ht]; exact List.mem_cons_self)
  · rw [h.block.doc.capacity]
    exact h.block.doc.size_le

/-- The texts of the new document are written. -/
theorem written (hwf : schema.Wf) :
    Written file' (getDocumentHeader file' n.indexOrder).firstToastIndex 0 schema.elements := by
  have hw : Written file3 t 0 schema.elements := h.block.written
  rw [h.newHeader_eq hs hp]
  refine hw.congr ?_
  intro i hi
  have ht : t ∈ own' := by
    by_contra ht
    have hz : chunksOf schema.elements = 0 := chunksOf_eq_zero fun e he hte =>
      ht (h.toast.mem (hwf.reqToast_iff.mpr ⟨e, he, hte⟩))
    omega
  refine (h.ownKept hs hp ht).2.chunkAt ?_
  have hfits := (h.toast.toast t ht).2.2.2.2
  rw [(h.block.toast t ht).2]
  simp only [chunkStart, chunkRecord, sizeofTextChunk] at hfits ⊢
  omega

/-- The toasts of the new document. -/
theorem toastList :
    ToastList file' (getDocumentHeader file' n.indexOrder).firstToastIndex own' := by
  rw [h.newHeader_eq hs hp]
  show ToastList file' t own'
  rcases h.toast.own_eq with ⟨ho, rfl⟩ | ⟨ho, -⟩
  · rw [ho]
    exact rfl
  · have ht : t ∈ own' := ho ▸ List.mem_cons_self
    have hto := h.block.toast t ht
    have ht' := (hto.1.of_eqOn ((h.ownKept hs hp ht).2.mono hto.1.le_capacity)).2.1
    rw [ho]
    refine ⟨rfl, fun h0 => (h.notAlive (hs.alive hs.root_mem)).2 (h0 ▸ ht), ?_⟩
    rw [ht', hto.2]
    exact h.toast.next t ht

/-- **The store with the new leaf.** -/
theorem store (hwf : schema.Wf) (hcomplete : schema.Complete) :
    Store file' (T.insertUnder p n.indexOrder)
      (Function.update es n.indexOrder (storeElements 0 schema.elements))
      (Function.update own n.indexOrder own') := by
  have hfresh := h.fresh hs
  have hcarried := h.carried hs hp
  have hmem : ∀ k, k ∈ (T.insertUnder p n.indexOrder).nodes ↔ k = n.indexOrder ∨ k ∈ T.nodes :=
    fun k => Forest.mem_nodes_insertUnder hs.nodup hp
  have hupd : ∀ k ∈ T.nodes, k ≠ n.indexOrder := fun k hk he => hfresh (he ▸ hk)
  have hn0 : n.indexOrder ≠ 0 := fun h0 => hfresh (h0 ▸ hs.root_mem)
  have hlinks := insert_represents hs.links hs.nodup hn0 hfresh
    (by rw [h.newHeader_eq hs hp]; rfl) (by rw [h.newHeader_eq hs hp]; rfl) (h.relinked hs hp).2.1
    fun k hk hkp => h.headers hs hp hk hkp
  refine ⟨(h.relinked hs hp).1, Forest.nodup_insertUnder hs.nodup hp hfresh, hlinks, ?_, ?_, ?_, ?_,
    ?_⟩
  · have hroot := hs.root
    by_cases h0 : 0 = p
    · subst h0
      rw [(h.relinked hs hp).2.1]
      exact hroot
    · rw [h.headers hs hp hs.root_mem h0]
      exact hroot
  · rw [(hcarried 0 hs.root_mem).1.firstToastIndex]
    exact hs.rootToast
  · have hlen := (Forest.perm_nodes_insertUnder (x := n.indexOrder) hs.nodup hp).length_eq
    have hnodes : file'.header.nodes = file3.header.nodes := by rw [h.linked]; rfl
    rw [hlen, List.length_cons, hnodes, h.block.nodes, h.toast.nodes, h.relocated.nodes, hs.nodes]
  · intro k hk
    rcases (hmem k).mp hk with rfl | hk
    · rw [Function.update_self, Function.update_self]
      exact h.doc hs hp hwf hcomplete
    · rw [Function.update_of_ne (hupd k hk), Function.update_of_ne (hupd k hk)]
      exact hcarried.doc hs hk
  · have hdisj : ∀ k ∈ T.nodes, ∀ x ∈ own k, x ∉ own' := fun k hk x hx =>
      (h.notAlive ((hs.doc k hk).texts.alive x hx)).2
    intro j hj k hk hjk x hx
    rcases (hmem j).mp hj with rfl | hj <;> rcases (hmem k).mp hk with rfl | hk
    · exact absurd rfl hjk
    · rw [Function.update_self] at hx
      rw [Function.update_of_ne (hupd k hk)]
      exact fun hxk => hdisj k hk x hxk hx
    · rw [Function.update_of_ne (hupd j hj)] at hx
      rw [Function.update_self]
      exact hdisj j hj x hx
    · rw [Function.update_of_ne (hupd j hj)] at hx
      rw [Function.update_of_ne (hupd k hk)]
      exact hs.apart j hj k hk hjk x hx

/-- The allocations on the way. -/
theorem allocated : Allocated file1 file2 file' schema n own' := by
  have hext := (h.relinked hs hp).2.2.2.2.2
  have hused : Used file3 n.indexOrder :=
    (h.block.attached.used_iff h.node_lt).mpr (Or.inl rfl)
  have hattached : Attached file2 file' n (docSize schema) := by
    have hat := h.block.attached
    rw [h.linked]
    exact ⟨hat.perm, hat.sound, hat.indexCount, hat.betweenSpace, hat.other, hat.self, hat.fileSize⟩
  refine ⟨⟨t, h.toast⟩, h.block.chosen, h.blocks.placed, h.block.mem, hattached,
    h.block.tables.trans hext, ?_⟩
  rw [hext.capacity _ hused, h.block.doc.capacity, h.block.header]
  rfl

end Making

/-- **`createDocument` inserts a leaf** in front of the sons of the parent. -/
theorem createDocument_spec (hs : Store file T es own)
    (hp : parent.header.indexAttached ∈ T.nodes) (hwf : schema.Wf) (hcomplete : schema.Complete)
    (hexp : ∀ file1, expanded expandIndexes file = some file1 → Relocated file file1)
    (hspill : ∀ file1, expanded expandIndexes file = some file1 → schema.reqToast = true →
      NoSpill file1 (toastRequest schema))
    (hc : createDocument expandIndexes now file name schema parent = some (status, file')) :
    status = .createOk ∧ ∃ n own',
      Inserted file file' T es own parent.header.indexAttached n name schema own' ∧
      ∀ file1, expanded expandIndexes file = some file1 →
        ∃ file2 m, n = m.indexOrder ∧ Allocated file1 file2 file' schema m own' := by
  obtain ⟨hst, file1, file2, file3, t, n, own', he, h⟩ :=
    createDocument_making hs.blocks hwf hcomplete hexp hspill hc
  have hnew := h.newHeader_eq hs hp
  refine ⟨hst, n.indexOrder, own', ?_, ?_⟩
  · exact {
      fresh := h.fresh hs
      store := h.store hs hp hwf hcomplete
      carried := h.carried hs hp
      name := by rw [hnew]; rfl
      written := h.written hs hp hwf
      others := fun j hj hjn hjo hjp => h.others hs hp hj hjn hjo hjp
      parent := by
        intro d hd hdlt
        obtain ⟨hagrees, hcap, -⟩ := h.parentKept hs hp
        rw [(h.relinked hs hp).2.2.2.2.1 d hd (by rw [hcap]; exact hdlt)]
        exact hagrees d hdlt
      alive := h.alive_iff
      list := h.toastList hs hp
      single := by
        rcases h.toast.own_eq with ⟨ho, -⟩ | ⟨ho, -⟩ <;> rw [ho]
        exacts [Nat.zero_le _, Nat.le_refl _]
      son := by rw [(h.relinked hs hp).2.1] }
  · intro file1' he'
    obtain rfl := Option.some.inj (he.symm.trans he')
    exact ⟨file2, n, rfl, h.allocated hs hp⟩

omit [BlockSpace A] in
theorem attachIndexToBlock_freeList (file : ZgdbFile A) (order offset : Nat) :
    (attachIndexToBlock file order offset).1.freeList = file.freeList := by
  unfold attachIndexToBlock
  split <;> rfl

/-- An allocation takes its index from the list, and no other. -/
theorem allocToast_eq {file : ZgdbFile A} {reqSize : Nat} {n : Node} {list : FreeIndexesList}
    (hr : findRelevantIndex file.freeList reqSize = some (n, list)) (newCapacity : Nat) :
    ∃ file', allocToast file reqSize newCapacity = some (n.indexOrder, file') ∧
      file'.freeList = list := by
  rw [allocToast, hr]
  refine ⟨_, rfl, ?_⟩
  rw [growFile_eq]
  exact attachIndexToBlock_freeList _ _ _

/-- Each call of `findRelevantIndex` that `createDocument` makes gets an index.  The second call
sees the list that the first one has left, so two NEW indices are enough and one need not be. -/
structure FindsIndexes (file : ZgdbFile A) (schema : DocumentSchema) : Prop where
  toast : schema.reqToast = true →
    ∃ r, findRelevantIndex file.freeList (toastRequest schema) = some r
  document : ∀ t file', createToast file schema = some (t, file') →
    ∃ r, findRelevantIndex file'.freeList (docSize schema) = some r

/-- **Two NEW indices are enough** for a creation. -/
theorem FindsIndexes.of_new {file : ZgdbFile A} (hs : file.freeList.Sound)
    (hnew : 2 ≤ file.freeList.newIndexesCount) (schema : DocumentSchema) :
    FindsIndexes file schema := by
  refine ⟨fun _ => findRelevantIndex_isSome hs (by omega) _, ?_⟩
  intro t file' hc
  unfold createToast at hc
  by_cases hreq : schema.reqToast = true
  · rw [if_pos hreq] at hc
    obtain ⟨n, list, hr, hr'⟩ := findRelevantIndex_twice hs hnew (toastRequest schema)
      (docSize schema)
    obtain ⟨file2, h2, hl⟩ := allocToast_eq hr (toastRequest schema + sizeofToast)
    obtain ⟨-, rfl⟩ := Prod.mk.inj (Option.some.inj (h2.symm.trans hc))
    rw [hl]
    exact hr'
  · rw [if_neg hreq] at hc
    obtain ⟨-, rfl⟩ := Prod.mk.inj (Option.some.inj hc)
    exact findRelevantIndex_isSome hs (by omega) _

/-- **`createDocument` returns** exactly when each call gets an index. -/
theorem createDocument_isSome_iff {file1 : ZgdbFile A} (hcomplete : schema.Complete)
    (he : expanded expandIndexes file = some file1) :
    (∃ file', createDocument expandIndexes now file name schema parent
        = some (.createOk, file')) ↔ FindsIndexes file1 schema := by
  have hne : ¬ schema.capacity ≠ schema.size := not_not.mpr hcomplete
  constructor
  · rintro ⟨file', hc⟩
    obtain ⟨-, file1', t, file2, order, file3, he', h2, h3, -⟩ := createDocument_cases hc hcomplete
    obtain rfl := Option.some.inj (he.symm.trans he')
    refine ⟨?_, ?_⟩
    · intro hreq
      rw [createToast, if_pos hreq, allocToast] at h2
      cases hr : findRelevantIndex file1.freeList (toastRequest schema) with
      | none =>
        rw [hr] at h2
        cases h2
      | some r => exact ⟨r, rfl⟩
    · intro t' file2' h2'
      obtain ⟨rfl, rfl⟩ := Prod.mk.inj (Option.some.inj (h2.symm.trans h2'))
      rw [createBlock] at h3
      cases hr : findRelevantIndex file2.freeList (docSize schema) with
      | none =>
        rw [docSize] at hr
        rw [hr] at h3
        cases h3
      | some r => exact ⟨r, rfl⟩
  · rintro ⟨htoast, hdoc⟩
    obtain ⟨t, file2, h2⟩ : ∃ t file2, createToast file1 schema = some (t, file2) := by
      unfold createToast
      by_cases hreq : schema.reqToast = true
      · obtain ⟨⟨n, list⟩, hr⟩ := htoast hreq
        obtain ⟨file2, h2, -⟩ := allocToast_eq hr (toastRequest schema + sizeofToast)
        exact ⟨_, file2, by rw [if_pos hreq, h2]⟩
      · exact ⟨0, file1, if_neg hreq⟩
    obtain ⟨⟨n, list⟩, hr⟩ := hdoc t file2 h2
    rw [docSize] at hr
    unfold createDocument
    simp only [if_neg hne, he, Option.bind_eq_bind, Option.bind_some, h2, createBlock, hr]
    exact ⟨_, rfl⟩

theorem createDocument_isSome {file1 : ZgdbFile A} (hcomplete : schema.Complete)
    (he : expanded expandIndexes file = some file1) (hs : file1.freeList.Sound)
    (hnew : 2 ≤ file1.freeList.newIndexesCount) :
    ∃ file', createDocument expandIndexes now file name schema parent = some (.createOk, file') :=
  (createDocument_isSome_iff hcomplete he).mpr (.of_new hs hnew schema)

end Create

end Zgdb
