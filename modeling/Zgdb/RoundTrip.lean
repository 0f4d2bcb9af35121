/-
# A created document reads back

What `createDocument` writes lies in the new block and in its toast, whatever the other blocks hold
(`createDocument_newBlocks`): for this part it does not matter whether the toast spills.  The texts
of the new document read back as they were added exactly when none of them fills its last chunk
(`NewDocument.textsRead`): for a text whose length and terminator make a multiple of `CHUNK_SIZE`
the rule for the last chunk gives no bytes.
-/
import Zgdb.Tree

namespace Zgdb

open Zgdb.Lib AddrSpace

variable {A : Type} [BlockSpace A]

/-! ## 1. The new document

The document and its toast are written into two blocks of their own.  If these two blocks lie apart
nothing is asked of the others, and it does not matter either what the zero bytes of the toast have
hit. -/

/-- The new document `n` in the file: its header, its elements and the chunks of its texts.  This is
what `createDocument` writes, before it is said what the iterator makes of it. -/
structure NewDocument (file' : ZgdbFile A) (schema : DocumentSchema) (n : Nat) : Prop where
  attached : (getDocumentHeader file' n).indexAttached = n
  count : (getDocumentHeader file' n).attrCount = schema.capacity
  holds : HoldsElements (blockAt file' n) sizeofDocumentHeader (storeElements 0 schema.elements)
  written : Written file' (getDocumentHeader file' n).firstToastIndex 0 schema.elements
  named : schema.reqToast = true → Named file' (getDocumentHeader file' n).firstToastIndex

/-- The blocks of the new document `n` and of its toasts `own`, one or none, among the blocks of the
file, and filled as the schema says. -/
structure NewBlocks (file' : ZgdbFile A) (schema : DocumentSchema) (n : Nat) (own : List Nat) :
    Prop where
  alive : Alive file' n
  isDocument : IsDocument file' n
  count : (getDocumentHeader file' n).attrCount = schema.capacity
  size : (getDocumentHeader file' n).size = docSize schema
  holds : HoldsElements (blockAt file' n) sizeofDocumentHeader (storeElements 0 schema.elements)
  written : Written file' (getDocumentHeader file' n).firstToastIndex 0 schema.elements
  own_eq : own = if schema.reqToast then [(getDocumentHeader file' n).firstToastIndex] else []
  toast : ∀ x ∈ own, Alive file' x ∧ IsToast file' x ∧
    (toastAt file' x).used = chunksOf schema.elements ∧
    sizeofToast + chunksOf schema.elements * chunkRecord ≤ (toastAt file' x).capacity
  ne : ∀ x ∈ own, x ≠ n
  placed : ∃ cap, Placed file' cap ∧ cap n = blockCapacity file' n ∧
    ∀ x ∈ own, cap x = blockCapacity file' x

/-- The index table and the free list say the same, the used blocks lie one behind the other, and
document `p` has one of them.  It is far less than a sound store: nothing is said of the contents of
any block, so a creation does what it should in a store whose documents are damaged, too. -/
def Arranged (file : ZgdbFile A) (p : Nat) : Prop :=
  ∃ cap, Placed file cap ∧ Alive file p ∧ sizeofDocumentHeader ≤ cap p

section Create

variable {expandIndexes : ZgdbFile A → Option (ZgdbFile A)} {now : UInt32} {file file' : ZgdbFile A}
  {name : Name} {schema : DocumentSchema} {parent : Document} {status : CreateStatus}
    {docs : List Nat}

/-- The toast part in a file whose blocks lie apart. -/
theorem createToast_placed [TextCut] {cap : Nat → Nat} {t : Nat} (h : Placed file cap)
    (hwf : schema.Wf)
    (hpos : schema.reqToast = true → 0 < chunksOf schema.elements)
    (hc : createToast file schema = some (t, file')) :
    ∃ cap' own, Placed file' cap' ∧ (∀ j, Alive file j → Alive file' j ∧ j ∉ own ∧ cap' j = cap j) ∧
      (∀ x ∈ own, (toastAt file' x).capacity = cap' x) ∧
      own = (if schema.reqToast then [t] else []) ∧
      ∀ x ∈ own, x = t ∧ Alive file' x ∧ IsToast file' x ∧ (toastAt file' x).used = 0 ∧
        sizeofToast + chunksOf schema.elements * chunkRecord ≤ cap' x := by
  by_cases hreq : schema.reqToast = true
  · rw [createToast, if_pos hreq] at hc
    have hroom := hwf.toastRequest_room (hpos hreq)
    have hask0 : 0 < toastRequest schema :=
      Nat.lt_of_lt_of_le (by decide) ((Nat.le_add_right _ _).trans hroom)
    obtain ⟨n, rfl, hal⟩ := allocToast_cases h.sound h.node_lt hask0 hc
    have hlt := (h.node n hal.mem).1
    obtain ⟨c, hcdef⟩ : ∃ c, c = chosenCapacity n (toastRequest schema + sizeofToast) := ⟨_, rfl⟩
    have hle : sizeofToast + chunksOf schema.elements * chunkRecord ≤ c := by
      have hl := hal.large
      rw [hcdef]
      unfold chosenCapacity
      split <;> omega
    have hne : ∀ j, Alive file j → j ≠ n.indexOrder := fun j hj he =>
      h.not_alive hal.mem (he ▸ hj)
    have hst : sizeofToast ≤ (toastHeader n (toastRequest schema + sizeofToast)).capacity := by
      refine (Nat.le_add_right _ _).trans (hle.trans (Nat.le_of_eq ?_))
      rw [hcdef]; rfl
    obtain ⟨hto, hta, -⟩ := IsToast.of_holds (hal.holds hlt) rfl rfl hst
    refine ⟨Function.update cap n.indexOrder c, [n.indexOrder],
      h.attach hal.attached (fun j _ hj => Function.update_of_ne hj _ _)
        (by rw [Function.update_self, hcdef]), fun j hj => ⟨?_, ?_, ?_⟩, ?_, (if_pos hreq).symm, ?_⟩
    · exact (hal.attached.alive_iff hlt).mpr (Or.inr hj)
    · simpa using hne j hj
    · exact Function.update_of_ne (hne j hj) _ _
    · intro x hx
      obtain rfl := List.mem_singleton.mp hx
      rw [hta, Function.update_self, hcdef]
      rfl
    · intro x hx
      obtain rfl := List.mem_singleton.mp hx
      refine ⟨rfl, (hal.attached.alive_iff hlt).mpr (Or.inl rfl), hto, by rw [hta]; rfl, ?_⟩
      rw [Function.update_self]
      exact hle
  · rw [createToast, if_neg hreq] at hc
    obtain ⟨rfl, rfl⟩ := Prod.mk.inj (Option.some.inj hc)
    exact ⟨cap, [], h, fun j hj => ⟨hj, List.not_mem_nil, rfl⟩, by simp, (if_neg hreq).symm,
      by simp⟩

/-- **A creation writes the new document** and its toast into two blocks of their own. -/
theorem createDocument_newBlocks (hwf : schema.Wf) (hcomplete : schema.Complete)
    (hplace : ∀ file1, expanded expandIndexes file = some file1 →
      Arranged file1 parent.header.indexAttached)
    (hc : createDocument expandIndexes now file name schema parent = some (status, file')) :
    ∃ n own, (getDocumentHeader file' parent.header.indexAttached).indexSon = n ∧
      NewBlocks file' schema n own := by
  obtain ⟨-, file1, t, file2, order, file3, he, htoast, hblock, hf⟩ :=
    createDocument_cases hc hcomplete
  obtain ⟨cap1, hp1, halp, hcap80⟩ := hplace file1 he
  generalize parent.header.indexAttached = p at halp hcap80 hblock hf
  obtain ⟨cap2, own, hp2, hkeep, hcapo, hown, htoasts⟩ :=
    createToast_placed hp1 hwf hwf.chunksOf_pos htoast
  have hmem : schema.reqToast = true → t ∈ own := by
    intro hr
    rw [hown, if_pos hr]
    exact List.mem_cons_self
  obtain ⟨n, rfl, h3⟩ := createBlock_filled hp2 hwf htoasts hmem hblock
  have hlt := (hp2.node n h3.mem).1
  obtain ⟨hal2, hpo, hcapp⟩ := hkeep p halp
  have hpn : p ≠ n.indexOrder := fun he => hp2.not_alive h3.mem (he ▸ hal2)
  -- the header of the parent lies apart from the new document and from its toast
  have hp3 : Placed file3 (Function.update cap2 n.indexOrder (chosenCapacity n (docSize schema))) :=
    hp2.attach h3.attached (fun j _ hj => Function.update_of_ne hj _ _) (Function.update_self ..)
  have hap : ∀ j, Alive file3 j → j ≠ p → ∀ c,
      c ≤ Function.update cap2 n.indexOrder (chosenCapacity n (docSize schema)) j →
      ∀ d < c, blockAt file' j d = blockAt file3 j d := by
    intro j hj hjp c hle d hd
    have h : Apart (blockPos file3 j) c (add (blockPos file3 p) 0) documentHeaderK.size := by
      rw [AddrSpace.shift_zero]
      refine (hp3.apart (Or.inl hj)
        (Or.inl ((h3.attached.alive_iff hlt).mpr (Or.inr hal2))) hjp).mono hle ?_
      rw [Function.update_of_ne hpn, hcapp]
      exact hcap80
    rw [hf]
    change blockAt _ j d = blockAt file3 j d
    exact view_store_of_apart (k := documentHeaderK) h hd
  have haln : Alive file3 n.indexOrder := (h3.attached.alive_iff hlt).mpr (Or.inl rfl)
  have hn : ∀ d < docSize schema, blockAt file' n.indexOrder d = blockAt file3 n.indexOrder d :=
    hap _ haln (Ne.symm hpn) _ (by rw [Function.update_self]; exact h3.large)
  have hhead : Holds documentHeaderK (blockAt file' n.indexOrder) 0
      (newHeader now file2 name schema t (getDocumentHeader file p) n) := by
    refine h3.head.of_eqOn (Nat.zero_le _) (Nat.le_refl _) fun d _ hd => hn d ?_
    rw [Nat.zero_add] at hd
    exact Nat.lt_of_lt_of_le hd (Nat.le_add_right _ _)
  obtain ⟨hdoc, hhdr, hcapn⟩ := IsDocument.of_holds hhead rfl rfl (Nat.le_add_right _ _) h3.large
  have ht : ∀ x ∈ own, Alive file3 x ∧ x ≠ p ∧ x ≠ n.indexOrder := by
    intro x hx
    have hx2 := (htoasts x hx).2.1
    exact ⟨(h3.attached.alive_iff hlt).mpr (Or.inr hx2), fun he => hpo (he ▸ hx),
      fun he => hp2.not_alive h3.mem (he ▸ hx2)⟩
  have hbytes : ∀ x ∈ own, ∀ d < sizeofToast + chunksOf schema.elements * chunkRecord,
      blockAt file' x d = blockAt file3 x d := by
    intro x hx
    obtain ⟨h1, h2, h3⟩ := ht x hx
    exact hap x h1 h2 _ (by rw [Function.update_of_ne h3]; exact (htoasts x hx).2.2.2.2)
  have htoast' : ∀ x ∈ own, IsToast file' x ∧
      toastAt file' x = { toastAt file2 x with used := chunksOf schema.elements } := by
    intro x hx
    obtain ⟨hto, hta⟩ := h3.toast x hx
    obtain ⟨hto', hta', -⟩ := hto.of_eqOn fun d hd =>
      hbytes x hx d (Nat.lt_of_lt_of_le hd (Nat.le_add_right _ _))
    exact ⟨hto', hta'.trans hta⟩
  refine ⟨n.indexOrder, own, ?_, ⟨by rw [hf]; exact haln,
    hdoc, by rw [hhdr]; rfl, by rw [hhdr]; rfl, ?_, ?_, ?_, ?_, ?_, ?_⟩⟩
  · rw [getDocumentHeader_eq, hf, blockAt_fwriteAt, load_of_holds holds_store]
  · refine h3.holds.of_eqOn (fun d _ hd => hn d ?_) (Nat.le_refl _) (Nat.le_refl _)
    rw [storeElements_size, ← hwf.sizeOfElements_eq] at hd
    exact hd
  · have hw3 : Written file3 t 0 schema.elements := h3.written
    rw [hhdr]
    refine hw3.congr ?_
    intro i hi
    have hreq : schema.reqToast = true := by
      by_contra hr
      have hz : chunksOf schema.elements = 0 := chunksOf_eq_zero fun e he hte =>
        hr (hwf.reqToast_iff.mpr ⟨e, he, hte⟩)
      omega
    rw [chunkAt_eq, chunkAt_eq]
    refine load_congr fun d hd => hbytes t (hmem hreq) _ ?_
    have hd' : d < sizeofTextChunk := hd
    have hi' : i + 1 ≤ chunksOf schema.elements := by omega
    have := Nat.mul_le_mul_right chunkRecord hi'
    simp only [add_nat, chunkStart, chunkRecord, sizeofTextChunk, sizeofToast] at *
    omega
  · rw [hhdr]
    exact hown
  · intro x hx
    obtain ⟨hto, hta⟩ := htoast' x hx
    refine ⟨?_, hto, by rw [hta], ?_⟩
    · rw [hf]
      exact (ht x hx).1
    · rw [hta]
      exact (htoasts x hx).2.2.2.2.trans (Nat.le_of_eq (hcapo x hx).symm)
  · exact fun x hx => (ht x hx).2.2
  · have hp' : Placed file' (Function.update cap2 n.indexOrder
        (chosenCapacity n (docSize schema))) := by
      rw [hf]
      exact ⟨hp3.sound, hp3.nodup, hp3.node, hp3.free, hp3.tiled⟩
    refine ⟨_, hp', ?_, ?_⟩
    · rw [Function.update_self, hcapn]
      rfl
    · intro x hx
      obtain ⟨hto, hta⟩ := htoast' x hx
      rw [Function.update_of_ne (ht x hx).2.2, ← hcapo x hx, hto.capacity, hta]

/-- The new document itself. -/
theorem NewBlocks.newDocument {n : Nat} {own : List Nat} (h : NewBlocks file' schema n own) :
    NewDocument file' schema n where
  attached := h.isDocument.attached
  count := h.count
  holds := h.holds
  written := h.written
  named hr := by
    have hx : (getDocumentHeader file' n).firstToastIndex ∈ own := by
      rw [h.own_eq, if_pos hr]
      exact List.mem_cons_self
    exact (h.toast _ hx).2.1.attached

theorem Relocated.arranged {file1 : ZgdbFile A} (h : Relocated file file1) (hb : Blocks file docs)
    {p : Nat} (hp : p ∈ docs) : Arranged file1 p :=
  ⟨_, h.placed, h.alive_iff.mpr ((hb.docs p).mp hp).1, ((hb.docs p).mp hp).2.header_le⟩

/-- **A creation writes the new document**, in a file whose blocks lie apart. -/
theorem createDocument_written (hb : Blocks file docs) (hp : parent.header.indexAttached ∈ docs)
    (hwf : schema.Wf) (hcomplete : schema.Complete)
    (hexp : ∀ file1, expanded expandIndexes file = some file1 → Relocated file file1)
    (hc : createDocument expandIndexes now file name schema parent = some (status, file')) :
    ∃ n, (getDocumentHeader file' parent.header.indexAttached).indexSon = n ∧
      NewDocument file' schema n := by
  obtain ⟨n, own, hson, hnew⟩ := createDocument_newBlocks hwf hcomplete
    (fun file1 he => (hexp file1 he).arranged hb hp) hc
  exact ⟨n, hson, hnew.newDocument⟩

end Create

/-! ## 2. The texts

A text of the schema has a size and a string.  The size of the last chunk is the remainder of the
size, so a text that fills its last chunk reads back without the characters of that chunk. -/

/-- The texts that `nextEl` returns for a stored document, each with its key. -/
def textsRead (file : ZgdbFile A) (k : Nat) : List (Name × CString) :=
  (entries file k).filterMap fun e => (e.value.bind ElementValue.content).map (e.key, ·)

/-- The texts that were added to a schema. -/
def textsAdded (schema : DocumentSchema) : List (Name × CString) :=
  schema.elements.filterMap fun e => e.value.content.map (e.key, ·)

theorem textsRead_entriesOf {file : ZgdbFile A} {t d : Nat} {elements : List Element}
    {ss : List StoredElement}
    (h : List.Forall₂ (fun e s => StoredElement.key s = e.key ∧
      ((StoredValue.read file t (StoredElement.value s)).content = e.value.content ↔ e.NotFull))
      elements ss)
    (htext : List.Forall₂ (fun e s => (StoredElement.value s).type = e.value.type) elements ss) :
    ((entriesOf file t true d ss).filterMap
        fun e => (e.value.bind ElementValue.content).map (e.key, ·))
      = elements.filterMap (fun e => e.value.content.map (e.key, ·)) ↔
        ∀ e ∈ elements, e.NotFull := by
  induction h generalizing d with
  | nil => simp [entriesOf]
  | @cons e s elements ss h _ ih =>
    obtain ⟨hkey, hread⟩ := h
    rcases htext with _ | ⟨ht, htext⟩
    have ih := ih htext (d := d + s.size)
    obtain ⟨key, v⟩ := e
    obtain ⟨skey, sv⟩ := s
    obtain rfl : skey = key := hkey
    cases v with
    | text txt =>
      cases sv with
      | text f =>
        simp only [entriesOf, List.filterMap_cons, if_true, Option.bind_some, ElementValue.content,
          Option.map_some, List.cons.injEq, Prod.mk.injEq, true_and, StoredValue.read,
          List.forall_mem_cons] at ih hread ⊢
        rw [ih, ← hread, Option.some.injEq]
      | _ => cases ht
    | _ =>
      cases sv <;> cases ht
      simp only [entriesOf, List.filterMap_cons, if_true, Option.bind_some, ElementValue.content,
        Option.map_none, StoredValue.read, List.forall_mem_cons, true_iff] at ih hread ⊢
      rw [ih]
      exact ⟨fun h => ⟨hread, h⟩, And.right⟩

theorem storeElements_types (used : Nat) (elements : List Element) :
    List.Forall₂ (fun e s => (StoredElement.value s).type = e.value.type) elements
      (storeElements used elements) := by
  induction elements generalizing used with
  | nil => exact .nil
  | cons e rest ih =>
    refine .cons ?_ (ih _)
    obtain ⟨key, v⟩ := e
    cases v <;> rfl

/-- **What the texts of a new document read.** -/
theorem NewDocument.textsRead {file' : ZgdbFile A} {schema : DocumentSchema} {n : Nat}
    (h : NewDocument file' schema n) (hwf : schema.Wf) (hcomplete : schema.Complete) :
    textsRead file' n = textsAdded schema ↔ ∀ e ∈ schema.elements, e.NotFull := by
  have hcount : (getDocumentHeader file' n).attrCount
      = (storeElements 0 schema.elements).length := by
    rw [h.count, storeElements_length, ← hwf.size_eq]
    exact hcomplete
  rw [Zgdb.textsRead, entries, elementEntries_documentAt h.attached hcount h.holds 0 true]
  exact textsRead_entriesOf (h.written.read hwf.textOk fun e he hte =>
    h.named (hwf.reqToast_iff.mpr ⟨e, he, hte⟩)) (storeElements_types 0 schema.elements)

/-! ## 3. The first document of a store

In a new store both blocks go to the end of the file. -/

/-- A new store is in order after an expansion, if it were expanded. -/
theorem arranged_init (env : Env A) {file1 : ZgdbFile A}
    (he : expanded env.expandIndexes (init 0) = some file1) : Arranged file1 0 := by
  rw [expanded, init_unexpanded, if_neg (by decide)] at he
  obtain rfl := Option.some.inj he
  have hb := (init_store : Store (init 0 : ZgdbFile A) _ _ _).blocks
  have h0 := (hb.docs 0).mp List.mem_cons_self
  exact ⟨_, hb.placed, h0.1, h0.2.header_le⟩

theorem newDocument_first (env : Env A) {schema : DocumentSchema} (hbuilt : schema.Built)
    (hcomplete : schema.Complete) : ∃ file : ZgdbFile A,
      createDocument env.expandIndexes 0 (init 0) keyA schema (documentAt (init 0 : ZgdbFile A) 0 0)
          = some (.createOk, file) ∧
        NewDocument file schema (getDocumentHeader file 0).indexSon := by
  obtain ⟨-, file, n, own, hrun, -⟩ := create_first env 0 keyA hbuilt hcomplete
  have hatt : (documentAt (init 0 : ZgdbFile A) 0 0).header.indexAttached = 0 :=
    init_store.attached List.mem_cons_self
  obtain ⟨n, own, hson, hnew⟩ := createDocument_newBlocks hbuilt.wf hcomplete
    (fun file1 he => hatt.symm ▸ arranged_init env he) hrun
  rw [hatt] at hson
  exact ⟨file, hrun, hson ▸ hnew.newDocument⟩

/-- A text of 31 characters, which fill a chunk with the terminator. -/
def string31 : CString := ⟨List.replicate 31 97, by decide⟩

end Zgdb
