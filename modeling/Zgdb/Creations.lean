/-
# Indices for every creation

The calls that take indices or give them back, over records: creations, deletions of documents other
than the root, and the new toasts that updates ask for, of any positive size and without a look at
the reserve.  Every run keeps the records in order (`RecordCall.exec_store`), so the reserve that
`createDocument` sees is exact: above the threshold it holds the two indices a creation takes, and
below it `expandIndexes` adds more -- unless the free bytes do not fit into its `int`
(`creations_served`).

They do not when a toast of almost `2 ^ 32` bytes lies behind the table: then nothing is added, and
a creation on an empty list gets no index (`creation_unserved`).
-/
import Zgdb.ExpandRecords

namespace Zgdb

open Zgdb.Lib AddrSpace

/-! ## 1. Runs

The calls differ from those of `Runs.lean` in the toasts: an update asks for a toast of some size,
and which update it is does not matter to the indices. -/

/-- The calls; documents are named by their index. -/
inductive RecordCall where
  | create (now : UInt32) (parent : Nat) (name : Name) (schema : DocumentSchema)
  | delete (doc parent : Nat)
  | newToast (size : Nat)

namespace RecordCall

def exec (file : ZgdbFile RecordPos) : RecordCall → Option (ZgdbFile RecordPos)
  | create now parent name schema =>
    (createDocument ByRecord.expandIndexes now file name schema (documentAt file parent 0)).map
      Prod.snd
  | delete doc parent => deleteDocument (loopBound file) file (documentAt file doc parent)
  | newToast size => (createNewToast file size).map Prod.snd

/-- What the caller promises: the documents are there, a schema was built by the functions for it, a
document is deleted under its parent, and a toast is not empty. -/
def Legal (file : ZgdbFile RecordPos) : RecordCall → Prop
  | create _ parent _ schema => Live file parent ∧ schema.Built
  | delete doc parent => Live file doc ∧ doc ≠ 0 ∧ Live file parent ∧ SonOf file parent doc
  | newToast size => 0 < size

end RecordCall

/-- The records are in order. -/
def InOrder (file : ZgdbFile RecordPos) : Prop := ∃ T own, RecordStore file T own

section Steps

variable {file file1 file' : ZgdbFile RecordPos} {T : Forest Nat} {own : Nat → List Nat}

/-- **The records after an expansion**, if there is one. -/
theorem RecordStore.expansion (h : RecordStore file T own)
    (he : expanded ByRecord.expandIndexes file = some file1) :
    RecordStore file1 T own ∧ ∀ k, blockAt file1 k = blockAt file k := by
  unfold expanded at he
  split at he
  · obtain ⟨s, -, hg⟩ := ByRecord.expandIndexes_grown he
    have hb := hg.blockAt_eq
    exact ⟨h.of_agrees (hg.records h.records) (fun k hk => hg.alive_iff.mpr hk)
      fun k _ d _ => by rw [hb], hb⟩
  · obtain rfl := Option.some.inj he
    exact ⟨h, fun _ => rfl⟩

/-- **A legal call keeps the records in order.** -/
theorem RecordCall.exec_store {call : RecordCall} (h : InOrder file) (hl : call.Legal file)
    (he : call.exec file = some file') : InOrder file' := by
  obtain ⟨T, own, h⟩ := h
  cases call with
  | create now p name schema =>
    obtain ⟨hp, hbuilt⟩ := hl
    have hpT := h.records.live_iff.mp hp
    obtain ⟨⟨status, f⟩, hrun, rfl⟩ := Option.map_eq_some_iff.mp he
    by_cases hc : schema.Complete
    · obtain ⟨-, file1, t, file2, order, file3, h1, h2, h3, hf⟩ := createDocument_cases hrun hc
      have hatt : (documentAt file p 0).header.indexAttached = p := (h.document hpT).2.attached
      obtain ⟨hs1, hb⟩ := h.expansion h1
      have hhdr : getDocumentHeader file p = getDocumentHeader file1 p := by
        rw [getDocumentHeader_eq, getDocumentHeader_eq, hb]
      rw [hatt, hhdr] at h3 hf
      obtain ⟨own', h'⟩ := hs1.insertLeaf hpT hbuilt.wf h2 h3 hf
      exact ⟨_, _, h'⟩
    · rw [createDocument_incomplete hc] at hrun
      obtain ⟨-, rfl⟩ := Prod.mk.inj (Option.some.inj hrun)
      exact ⟨T, own, h⟩
  | delete d p =>
    obtain ⟨-, -, hp, hson⟩ := hl
    have hpT := h.records.live_iff.mp hp
    obtain ⟨file1, hrun, h'⟩ := h.deleteDocument hpT ((h.links.isSon_iff hpT).mp hson)
    obtain rfl := Option.some.inj (hrun.symm.trans he)
    exact ⟨_, _, h'⟩
  | newToast size =>
    obtain ⟨⟨t, f⟩, hrun, rfl⟩ := Option.map_eq_some_iff.mp he
    exact ⟨T, own, h.createNewToast hl hrun⟩

/-- **Every state of a run is in order.** -/
theorem inOrder_of_run {now : UInt32} {calls : List RecordCall}
    (h : Run RecordCall.exec (fun file call => call.Legal file) (init now) calls file) :
    InOrder file :=
  h.inv init_recordStore fun _ _ _ hf hl he => RecordCall.exec_store hf hl he

/-! ## 2. The reserve

Above the threshold the reserve is there, below it the table has just been expanded.  The creation
takes one index for the toast and one for the document. -/

/-- **The reserve holds the two indices** a creation takes, once it is made up. -/
theorem RecordStore.two_new (h : RecordStore file T own)
    (he : expanded ByRecord.expandIndexes file = some file1)
    (hfit : needsExpansion file = true → ByRecord.Expandable file) :
    2 ≤ file1.freeList.newIndexesCount := by
  unfold expanded at he
  by_cases hn : needsExpansion file = true
  · rw [if_pos hn] at he
    have hle := ByRecord.expandIndexes_supplies h.records (hfit hn) he
    have hadd : addedIndexes = 200000 := rfl
    omega
  · rw [if_neg hn] at he
    obtain rfl := Option.some.inj he
    have hcap : indexInitialCapacity / 8 = 6250 := rfl
    rw [needsExpansion, decide_eq_true_eq] at hn
    omega

end Steps

/-! ## 3. Toasts that use the list up

The run that leaves one large toast behind the table and no index in the list. -/

/-- A new toast behind all other blocks. -/
structure Appended (file file' : ZgdbFile RecordPos) (size t : Nat) : Prop where
  fresh : ¬ Used file t
  used : ∀ k, Used file' k ↔ k = t ∨ Used file k
  new : ∀ n ∈ file'.freeList.nodes, n.blockSize = 0 ∧ (file'.indexes n.indexOrder).flag = .new
  length : file.freeList.nodes.length = file'.freeList.nodes.length + 1
  indexCount : file'.header.indexCount = file.header.indexCount
  space : file'.header.betweenSpace = file.header.betweenSpace
  fileSize : file'.header.fileSize = file.header.fileSize + size
  offset : (file'.indexes t).offset = file.header.fileSize
  others : ∀ k, k ≠ t → file'.indexes k = file.indexes k
  read : ByRecord.readBlock file' t = some (size, t)
  readOthers : ∀ k, k ≠ t → ByRecord.readBlock file' k = ByRecord.readBlock file k

section UsedUp

variable {file file1 file' : ZgdbFile RecordPos}

/-- **A toast on a list of NEW indices.** -/
theorem newToast_appended (h : InOrder file)
    (hnew : ∀ n ∈ file.freeList.nodes, n.blockSize = 0 ∧ (file.indexes n.indexOrder).flag = .new)
    (hlen : 0 < file.freeList.nodes.length) {size : Nat} (hsize : 0 < size) :
    ∃ file' t, (RecordCall.newToast size).exec file = some file' ∧ Appended file file' size t := by
  obtain ⟨T, own, h⟩ := h
  have hr := h.records
  have hcount : 0 < file.freeList.newIndexesCount := by
    obtain ⟨x, hx⟩ := List.exists_mem_of_length_pos hlen
    rw [hr.sound.newIndexes]
    exact List.countP_pos_iff.mpr ⟨x, hx, by simpa using (hnew x hx).1⟩
  obtain ⟨⟨n, list⟩, hfind⟩ := findRelevantIndex_isSome hr.sound hcount size
  obtain ⟨file', hc, hl⟩ := allocToast_eq hfind size
  obtain ⟨n', hn', hal, hholds, hothers, -⟩ := h.allocToast hsize hsize hc
  obtain ⟨hz, hflag⟩ := hnew n' hal.mem
  obtain ⟨hlt, -⟩ := hr.node n' hal.mem
  rw [hn'] at hc hholds hothers
  have hcap : (toastHeader n' size).capacity = size := if_pos hz
  have hrec : ToastRecord file' n'.indexOrder := .of_holds hholds rfl rfl (hsize.trans_eq hcap.symm)
  have hnd := (hal.attached.perm.map Node.indexOrder).nodup_iff.mp hr.nodup
  rw [List.map_cons, List.nodup_cons] at hnd
  refine ⟨file', n'.indexOrder, ?_, ?_, fun k => hal.attached.used_iff hlt, ?_, ?_,
    hal.attached.indexCount, hal.attached.betweenSpace, ?_, ?_, hal.attached.other, ?_,
    fun k hk => ByRecord.readBlock_congr (hothers k hk)⟩
  · rw [RecordCall.exec, createNewToast, hc]
    rfl
  · rintro (⟨-, hf⟩ | ⟨-, hf⟩) <;> rw [hflag] at hf <;> cases hf
  · intro x hx
    have hxo := hnew x (hal.attached.perm.mem_iff.mpr (List.mem_cons_of_mem _ hx))
    rw [hal.attached.other _ fun he => hnd.1 (he ▸ List.mem_map_of_mem hx)]
    exact hxo
  · rw [hal.attached.perm.length_eq, List.length_cons]
  · rw [hal.attached.fileSize, if_pos hz]
  · rw [hal.attached.self]
    exact blockOffset_of_new hlt hflag
  · rw [ByRecord.readBlock_toast hrec, toastAt_eq, load_of_holds hholds, hcap]

/-- Behind the table lie the root and the toast `t` of `size` bytes, then `j` toasts of one byte;
the other indices are NEW. -/
structure Filling (size j : Nat) (file : ZgdbFile RecordPos) (t : Nat) : Prop where
  run : Run RecordCall.exec (fun file call => call.Legal file) (init 0)
    (.newToast size :: List.replicate j (.newToast 1)) file
  new : ∀ n ∈ file.freeList.nodes, n.blockSize = 0 ∧ (file.indexes n.indexOrder).flag = .new
  length : file.freeList.nodes.length + j = 49998
  indexCount : file.header.indexCount = indexInitialCapacity
  space : file.header.betweenSpace = 0
  fileSize : rootOffset + (sizeofDocumentHeader + size) ≤ file.header.fileSize
  root : Used file 0 ∧ (file.indexes 0).offset = rootOffset ∧
    ByRecord.readBlock file 0 = some (sizeofDocumentHeader, 0)
  toast : t ≠ 0 ∧ Used file t ∧ (file.indexes t).offset = rootOffset + sizeofDocumentHeader ∧
    ByRecord.readBlock file t = some (size, t)
  others : ∀ k, Used file k → k ≠ 0 → k ≠ t →
    rootOffset + (sizeofDocumentHeader + size) ≤ (file.indexes k).offset

theorem filling_zero {size : Nat} (hsize : 0 < size) : ∃ file t, Filling size 0 file t := by
  obtain ⟨hu, -⟩ := init_undead (A := RecordPos) 0
  have hplaced : Placed (init 0 : ZgdbFile RecordPos) _ := init_placed
  have hlen : (init 0 : ZgdbFile RecordPos).freeList.nodes.length = 49999 := by
    rw [init_freeList, (perm_foldl_insertNewIndex _ _).length_eq]
    simp [createIndexesList, indexInitialCapacity]
  have hnew : ∀ n ∈ (init 0 : ZgdbFile RecordPos).freeList.nodes, n.blockSize = 0 ∧
      ((init 0 : ZgdbFile RecordPos).indexes n.indexOrder).flag = .new := by
    intro n hn
    rcases (hplaced.node n hn).2 with h | ⟨hpos, -⟩
    · exact h
    · have := hu n hn
      omega
  obtain ⟨file, t, he, ha⟩ := newToast_appended init_recordStore hnew (by rw [hlen]; decide)
    hsize
  have ht : t ≠ 0 := fun h0 => ha.fresh (init_used.mpr h0)
  have hindex : file.indexes 0 = ⟨.alive, rootOffset⟩ := by
    rw [ha.others 0 ht.symm, init_index, if_pos rfl]
  refine ⟨file, t, (Run.nil _).snoc hsize he, ha.new, ?_, ?_, ?_, ?_,
    ⟨(ha.used 0).mpr (Or.inr (init_used.mpr rfl)), by rw [hindex], ?_⟩,
    ⟨ht, (ha.used t).mpr (Or.inl rfl), ?_, ha.read⟩, fun k hk h0 hkt => ?_⟩
  · have := ha.length
    omega
  · rw [ha.indexCount, init_header]
    rfl
  · rw [ha.space, init_header]
    rfl
  · rw [ha.fileSize, init_header]
    exact Nat.le_of_eq (Nat.add_assoc _ _ _).symm
  · obtain ⟨hdoc, hhdr, -⟩ : IsDocument (init 0 : ZgdbFile RecordPos) 0 ∧
      getDocumentHeader (init 0 : ZgdbFile RecordPos) 0 = rootHeader 0 ∧ _ := init_root
    rw [ha.readOthers 0 ht.symm, ByRecord.readBlock_document hdoc, hhdr]
    rfl
  · rw [ha.offset, init_header]
    rfl
  · exact absurd (init_used.mp (((ha.used k).mp hk).resolve_left hkt)) h0

/-- **One more toast of one byte.** -/
theorem Filling.step {size j t : Nat} (h : Filling size j file t) (hj : j < 49998) :
    ∃ file', Filling size (j + 1) file' t := by
  have hlen := h.length
  obtain ⟨file', x, he, ha⟩ := newToast_appended (inOrder_of_run h.run) h.new (by omega)
    (by decide : 0 < 1)
  have hx : ∀ k, Used file k → k ≠ x := fun k hk hkx => ha.fresh (hkx ▸ hk)
  obtain ⟨hroot, hrootOffset, hrootRead⟩ := h.root
  obtain ⟨ht, htoast, htoastOffset, htoastRead⟩ := h.toast
  refine ⟨file', ?_, ha.new, ?_, ha.indexCount.trans h.indexCount, ha.space.trans h.space, ?_,
    ⟨(ha.used 0).mpr (Or.inr hroot), ?_, ?_⟩, ⟨ht, (ha.used t).mpr (Or.inr htoast), ?_, ?_⟩, ?_⟩
  · rw [List.replicate_succ', ← List.cons_append]
    exact h.run.snoc (by decide : 0 < 1) he
  · have := ha.length
    omega
  · rw [ha.fileSize]
    exact h.fileSize.trans (Nat.le_add_right _ _)
  · rw [ha.others 0 (hx 0 hroot), hrootOffset]
  · rw [ha.readOthers 0 (hx 0 hroot), hrootRead]
  · rw [ha.others t (hx t htoast), htoastOffset]
  · rw [ha.readOthers t (hx t htoast), htoastRead]
  · intro k hk h0 hkt
    rcases (ha.used k).mp hk with rfl | hk
    · rw [ha.offset]
      exact h.fileSize
    · rw [ha.others k (hx k hk)]
      exact h.others k hk h0 hkt

theorem filling {size : Nat} (hsize : 0 < size) (j : Nat) (hj : j ≤ 49998) :
    ∃ file t, Filling size j file t := by
  induction j with
  | zero => exact filling_zero hsize
  | succ j ih =>
    obtain ⟨file, t, h⟩ := ih (by omega)
    obtain ⟨file', h'⟩ := h.step (by omega)
    exact ⟨file', t, h'⟩

/-- **The walk over the root and the toast** frees the bytes of both. -/
theorem Filling.expandLoop {size j t : Nat} (h : Filling size j file t) (hpos : 0 < size)
    (hge : expandReqSize ≤ sizeofDocumentHeader + size) :
    ∃ s, ByRecord.expandLoop (expandReqSize + 1) (ByRecord.expandStart file) = some s ∧
      ByRecord.Walking file s ∧ s.currentFreeSize = sizeofDocumentHeader + size := by
  obtain ⟨hroot, hrootOffset, hrootRead⟩ := h.root
  obtain ⟨ht, htoast, htoastOffset, htoastRead⟩ := h.toast
  have hsize := h.fileSize
  have hreq : expandReqSize = 1800000 := rfl
  have hheader : sizeofDocumentHeader = 80 := rfl
  have hstart : (ByRecord.expandStart file).nextBlock = rootOffset := by
    show dataStart file.header = _
    rw [dataStart, h.indexCount, h.space]
    rfl
  have hfree : (ByRecord.expandStart file).currentFreeSize = 0 := h.space
  have hw := ByRecord.walking_start file
  -- the root is moved behind the other blocks
  have h0 : ByRecord.recordAt file rootOffset = some 0 := by
    refine ByRecord.recordAt_eq hroot hrootOffset ?_
    intro i hi hoff
    by_contra hi0
    by_cases hit : i = t
    · rw [hit, htoastOffset] at hoff
      omega
    · have := h.others i hi hi0 hit
      omega
  obtain ⟨s1, hs1, hst1⟩ := ByRecord.expandStep_of (s := ByRecord.expandStart file)
    (hstart ▸ h0) hrootRead
  have hw1 := hw.step hs1
  -- the toast comes next
  have h1 : ByRecord.recordAt s1.file s1.nextBlock = some t := by
    rw [hst1.next, hstart]
    refine ByRecord.recordAt_eq (hw1.used_iff.mpr htoast) ?_ ?_
    · rw [hst1.other t ht]
      exact htoastOffset
    · intro i hi hoff
      by_contra hit
      by_cases hi0 : i = 0
      · rcases hst1.self with hi' | hi' <;> rw [hi0, hi'] at hoff
        · have hoff' : (file.indexes 0).offset = rootOffset + sizeofDocumentHeader := hoff
          omega
        · have hoff' : file.header.fileSize = rootOffset + sizeofDocumentHeader := hoff
          omega
      · rw [hst1.other i hi0] at hoff
        have hoff' : (file.indexes i).offset = rootOffset + sizeofDocumentHeader := hoff
        have := h.others i (hw1.used_iff.mp hi) hi0 hit
        omega
  obtain ⟨s2, hs2, hst2⟩ := ByRecord.expandStep_of h1 ((hw1.readBlock_eq t).trans htoastRead)
  have hw2 := hw1.step hs2
  have hsum : s2.currentFreeSize = sizeofDocumentHeader + size := by
    rw [hst2.free, hst1.free, hfree, Nat.zero_add]
  refine ⟨s2, ?_, hw2, hsum⟩
  show ByRecord.expandLoop (1799998 + 1 + 1 + 1) (ByRecord.expandStart file) = some s2
  rw [ByRecord.expandLoop, if_pos (by rw [hfree]; decide), hs1, Option.bind_some,
    ByRecord.expandLoop, if_pos (by rw [hst1.free, hfree]; decide), hs2, Option.bind_some,
    ByRecord.expandLoop, if_neg (by rw [hsum]; exact Nat.not_lt.mpr hge)]

/-- The expansion adds as many indices as the `int` says. -/
theorem Filling.expandIndexes {size j t n : Nat} (h : Filling size j file t) (hpos : 0 < size)
    (hge : expandReqSize ≤ sizeofDocumentHeader + size)
    (hint : (Int32.ofNat (sizeofDocumentHeader + size)).toInt.tdiv sizeofZgdbIndex = (n : Int)) :
    ∃ file1, ByRecord.expandIndexes file = some file1 ∧ file1.freeList
      = (List.range' file.header.indexCount n).foldl insertNewIndex file.freeList := by
  obtain ⟨s, hloop, hw, hsum⟩ := h.expandLoop hpos hge
  rw [← hsum] at hint
  obtain ⟨file1, huse⟩ : ∃ file1, ByRecord.useFreeSize s = some file1 := by
    unfold ByRecord.useFreeSize
    simp only [hint]
    exact ⟨_, rfl⟩
  have hg := hw.grown huse
  refine ⟨file1, by rw [ByRecord.expandIndexes, hloop]; exact huse, ?_⟩
  rw [hg.freeList, ByRecord.newIndexes, hint, Int.toNat_natCast]

/-! ## 4. Creations that are served, and one that is not

The condition is on the state in front of the creation: what `expandIndexes` is about to free fits
into its `int`. -/

/-- **A creation never runs out of indices**: in every state of every run, if an expansion returns
and no record it can reach leads `2 ^ 31` bytes behind the table, each request for an index is
served, and the creation returns. -/
theorem creations_served {now : UInt32} {calls : List RecordCall}
    (h : Run RecordCall.exec (fun file call => call.Legal file) (init now) calls file)
    (hfit : needsExpansion file = true → ByRecord.Expandable file)
    (he : expanded ByRecord.expandIndexes file = some file1) (schema : DocumentSchema)
    (hcomplete : schema.Complete) :
    FindsIndexes file1 schema ∧
      ∀ now name parent, ∃ file', createDocument ByRecord.expandIndexes now file name schema parent
        = some (.createOk, file') := by
  obtain ⟨T, own, hs⟩ := inOrder_of_run h
  have hf : FindsIndexes file1 schema :=
    .of_new (hs.expansion he).1.records.sound (hs.two_new he hfit) schema
  exact ⟨hf, fun now name parent => (createDocument_isSome_iff hcomplete he).mpr hf⟩

/-- Toasts have left as few NEW indices as the reserve has: the creation that follows expands the
table by what the first of them frees, and is served. -/
theorem creations_served_expanded : ∃ file file1 : ZgdbFile RecordPos, needsExpansion file = true ∧
    ByRecord.expandIndexes file = some file1 ∧ FindsIndexes file1 (initSchema 0) ∧
    ∃ file', createDocument ByRecord.expandIndexes 0 file Name.id (initSchema 0)
      (documentAt file 0 0)
      = some (.createOk, file') := by
  have hpos : 0 < 2000000 := by decide
  obtain ⟨file, t, h⟩ := filling hpos 43748 (by decide)
  obtain ⟨file1, hexp, -⟩ := h.expandIndexes (n := 222231) hpos (by decide) (by decide)
  obtain ⟨T, own, hs⟩ := inOrder_of_run h.run
  have hlen := h.length
  have hn : needsExpansion file = true := by
    have hle := List.countP_le_length (l := file.freeList.nodes) (p := (·.blockSize = 0))
    have heighth : indexInitialCapacity / 8 = 6250 := rfl
    rw [needsExpansion, hs.records.sound.newIndexes, decide_eq_true_eq]
    omega
  have he : expanded ByRecord.expandIndexes file = some file1 := by
    rw [expanded, if_pos hn, hexp]
  -- the root and the first toast are all that the walk comes to
  have hfit : ByRecord.Expandable file := by
    intro k bufSize order hk hread hlt
    have hreq : expandReqSize = 1800000 := rfl
    have hroot : tableEnd file.header = rootOffset := by
      rw [tableEnd, h.indexCount]
      rfl
    have hheader : sizeofDocumentHeader = 80 := rfl
    by_cases h0 : k = 0
    · obtain ⟨-, hoff, hread0⟩ := h.root
      rw [h0, hread0] at hread
      cases hread
      rw [h0, hoff]
      omega
    · by_cases hkt : k = t
      · obtain ⟨-, -, hoff, hreadt⟩ := h.toast
        rw [hkt, hreadt] at hread
        cases hread
        rw [hkt, hoff]
        omega
      · have := h.others k hk h0 hkt
        omega
  obtain ⟨hf, hrun⟩ := creations_served h.run (fun _ => hfit) he (initSchema 0) rfl
  exact ⟨file, file1, hn, hexp, hf, hrun 0 Name.id _⟩

/-- A toast that ends `2 ^ 32` bytes behind the root begins. -/
def hugeSize : Nat := 2 ^ 32 - sizeofDocumentHeader

/-- A toast of almost `2 ^ 32` bytes, then one toast for each index that is left: the creation that
follows expands the table by no index, and gets none. -/
theorem creation_unserved : ∃ file file1 : ZgdbFile RecordPos,
    Run RecordCall.exec (fun file call => call.Legal file) (init 0)
      (.newToast hugeSize :: List.replicate 49998 (.newToast 1)) file ∧
    expanded ByRecord.expandIndexes file = some file1 ∧ (initSchema 0).Complete ∧
    ¬ FindsIndexes file1 (initSchema 0) ∧
    createDocument ByRecord.expandIndexes 0 file Name.id (initSchema 0) (documentAt file 0 0)
      = none := by
  have hpos : 0 < hugeSize := by decide
  obtain ⟨file, t, h⟩ := filling hpos 49998 (Nat.le_refl _)
  -- the bytes that are freed are no `int`, and nothing is added
  obtain ⟨file1, hexp, hlist⟩ := h.expandIndexes (n := 0) hpos (by decide) (by decide)
  obtain ⟨T, own, hs⟩ := inOrder_of_run h.run
  have hnil : file.freeList.nodes = [] := by
    have := h.length
    exact List.length_eq_zero_iff.mp (by omega)
  have hn : needsExpansion file = true := by
    rw [needsExpansion, hs.records.sound.newIndexes, hnil]
    rfl
  have he : expanded ByRecord.expandIndexes file = some file1 := by
    rw [expanded, if_pos hn, hexp]
  have hcomplete : (initSchema 0).Complete := rfl
  have hnot : ¬ FindsIndexes file1 (initSchema 0) := by
    intro hf
    obtain ⟨r, hr⟩ := hf.document 0 file1 rfl
    rw [findRelevantIndex_nil (hlist ▸ hnil)] at hr
    cases hr
  refine ⟨file, file1, h.run, he, hcomplete, hnot, ?_⟩
  cases hc : createDocument ByRecord.expandIndexes 0 file Name.id (initSchema 0)
      (documentAt file 0 0) with
  | none => rfl
  | some r =>
    obtain ⟨status, file'⟩ := r
    obtain ⟨rfl, -⟩ := createDocument_cases hc hcomplete
    exact absurd ((createDocument_isSome_iff hcomplete he).mp ⟨file', hc⟩) hnot

end UsedUp

end Zgdb
