/-
# Creations before the first deletion

As long as nothing has been deleted, every free index is NEW (`Undead`), and an allocation takes
the end of the file: the toast first, the document behind it (`create_undead`).  A new store is in
this state, so the places of its first documents are known (`create_first`).
-/
import Zgdb.Expand

namespace Zgdb

open Zgdb.Lib AddrSpace

variable {A : Type} [BlockSpace A]

/-! ## 1. Allocation at the end of the file

A NEW index has no block, so the file grows by what the allocation asks for.  The offsets of the
first documents are sums of the sizes of their blocks. -/

/-- No free index has a block. -/
def Undead (file : ZgdbFile A) : Prop := ∀ n ∈ file.freeList.nodes, n.blockSize = 0

theorem Undead.noSpill {file : ZgdbFile A} {docs : List Nat} (h : Undead file)
    (hb : Blocks file docs) {reqSize : Nat} (hreq : 0 < reqSize) : NoSpill file reqSize := by
  rintro n list hfind j ⟨hn, -⟩
  have hmem := (findRelevantIndex_spec hb.placed.sound hreq hfind).1.mem_iff.mpr
    (List.mem_cons_self : n ∈ n :: list.nodes)
  exact hn (h n hmem)

omit [BlockSpace A] in
/-- Where an allocation from NEW indices puts a block. -/
theorem Undead.attached {file file' : ZgdbFile A} {cap : Nat → Nat} {n : Node} {newCapacity : Nat}
    (h : Undead file) (hp : Placed file cap) (hn : n ∈ file.freeList.nodes)
    (ha : Attached file file' n newCapacity) :
    Undead file' ∧ (file'.indexes n.indexOrder).offset = file.header.fileSize ∧
      file'.header.fileSize = file.header.fileSize + newCapacity ∧
      chosenCapacity n newCapacity = newCapacity ∧
      file.freeList.newIndexesCount ≤ file'.freeList.newIndexesCount + 1 := by
  have hz := h n hn
  obtain ⟨hlt, hnode⟩ := hp.node n hn
  have hf : (file.indexes n.indexOrder).flag = .new := by
    rcases hnode with ⟨-, hf⟩ | ⟨hpos, -⟩
    · exact hf
    · omega
  refine ⟨fun m hm => h m (ha.perm.mem_iff.mpr (List.mem_cons_of_mem _ hm)), ?_, ?_, ?_, ?_⟩
  · rw [ha.self]
    exact blockOffset_of_new hlt hf
  · rw [ha.fileSize, if_pos hz]
  · rw [chosenCapacity, if_pos hz]
  · exact newIndexesCount_le hp.sound ha.sound ha.perm

/-- What a creation from NEW indices leaves, besides the leaf. -/
structure PlacedAtEnd (file file' : ZgdbFile A) (schema : DocumentSchema) (n : Nat)
    (own' : List Nat) : Prop where
  undead : Undead file'
  room : file.freeList.newIndexesCount ≤ file'.freeList.newIndexesCount + 2
  tables : Extended file file'
  docCapacity : blockCapacity file' n = docSize schema
  fileEnd : file'.header.fileSize = (file'.indexes n).offset + docSize schema
  noText : schema.reqToast = false → own' = [] ∧
    (file'.indexes n).offset = file.header.fileSize
  text : schema.reqToast = true → ∃ t, own' = [t] ∧
    (file'.indexes t).offset = file.header.fileSize ∧
    blockCapacity file' t = toastRequest schema + sizeofToast ∧
    (file'.indexes n).offset = file.header.fileSize + (toastRequest schema + sizeofToast)

theorem Allocated.atEnd {file file2 file' : ZgdbFile A} {schema : DocumentSchema} {m : Node}
    {own' docs : List Nat} (hb : Blocks file docs) (hu : Undead file)
    (h : Allocated file file2 file' schema m own') :
    PlacedAtEnd file file' schema m.indexOrder own' := by
  obtain ⟨t, ht⟩ := h.toast
  have hdoc : ∀ hu2 : Undead file2, Undead file' ∧
      (file'.indexes m.indexOrder).offset = file2.header.fileSize ∧
      blockCapacity file' m.indexOrder = docSize schema ∧
      file'.header.fileSize = (file'.indexes m.indexOrder).offset + docSize schema ∧
      file2.freeList.newIndexesCount ≤ file'.freeList.newIndexesCount + 1 := by
    intro hu2
    obtain ⟨h1, h2, h3, h4, h5⟩ := hu2.attached h.placed h.mem h.attached
    exact ⟨h1, h2, h.capacity.trans h4, by rw [h2, h3], h5⟩
  cases hreq : schema.reqToast with
  | false =>
    obtain ⟨ho, hf⟩ := ht.noText hreq
    obtain ⟨h1, h2, h3, hend, h4⟩ := hdoc (hf ▸ hu)
    rw [hf] at h2 h4
    exact ⟨h1, by omega, h.extended, h3, hend, fun _ => ⟨ho, h2⟩, fun hr => by
      rw [hreq] at hr
      cases hr⟩
  | true =>
    have hx : t ∈ own' := ht.mem hreq
    have ho : own' = [t] := by
      rcases ht.own_eq with ⟨ho, -⟩ | ⟨ho, -⟩
      · rw [ho] at hx
        cases hx
      · exact ho
    obtain ⟨n, rfl, hal, hta⟩ := ht.alloc t hx
    obtain ⟨h1, h2, h3, h4, h5⟩ := hu.attached hb.placed hal.mem hal.attached
    obtain ⟨d1, d2, d3, dend, d4⟩ := hdoc h1
    have hto := ht.toast _ hx
    have hused : Used file2 n.indexOrder := Or.inl hto.2.1
    refine ⟨d1, by omega, h.extended, d3, dend, fun hr => (by rw [hreq] at hr; cases hr), fun _ =>
      ⟨n.indexOrder, ho, ?_, ?_, by rw [d2, h3]⟩⟩
    · rw [h.tables.offset _ hused, h2]
    · rw [h.tables.capacity _ hused, hto.2.2.1.capacity, hta]
      exact h4

section Create

variable {env : Env A} {file : ZgdbFile A} {T : Forest Nat} {es : Nat → List StoredElement}
  {own : Nat → List Nat} {now : UInt32} {p : Nat} {name : Name} {schema : DocumentSchema}

variable (env) in
/-- **A creation from NEW indices** returns, and takes the end of the file. -/
theorem create_undead (hs : Store file T es own) (hu : Undead file)
    (hnew : indexInitialCapacity / 8 < file.freeList.newIndexesCount)
    (hl : (Call.create now p name schema).Legal file) :
    (Call.create now p name schema).Clean env file ∧ ∃ file' n own',
      createDocument env.expandIndexes now file name schema (documentAt file p 0)
        = some (.createOk, file') ∧
      Inserted file file' T es own p n name schema own' ∧ PlacedAtEnd file file' schema n own' := by
  have hexp : expanded env.expandIndexes file = some file :=
    expanded_of_not (by simpa [needsExpansion] using hnew)
  have hcap : indexInitialCapacity / 8 = 6250 := rfl
  obtain ⟨file', hrun⟩ : ∃ file', createDocument env.expandIndexes now file name schema
      (documentAt file p 0) = some (.createOk, file') :=
    createDocument_isSome hl.2.2 hexp hs.blocks.placed.sound (by omega)
  have hclean : (Call.create now p name schema).Clean env file := by
    intro file1 h1
    obtain rfl := Option.some.inj (hexp.symm.trans h1)
    exact ⟨Relocated.refl hs.blocks, fun hreq =>
      hu.noSpill hs.blocks (hl.2.1.wf.toastRequest_pos hreq)⟩
  have he : (Call.create now p name schema).exec env file = some file' := by
    rw [Call.exec, hrun]
    rfl
  obtain ⟨n, own', hi, halloc⟩ := exec_create hs hl hclean he
  obtain ⟨file2, m, rfl, ha⟩ := halloc file hexp
  exact ⟨hclean, file', m.indexOrder, own', hrun, hi, ha.atEnd hs.blocks hu⟩

/-- A new store has no DEAD index, and NEW ones to spare. -/
theorem init_undead (now : UInt32) : Undead (init now : ZgdbFile A) ∧
    (init now : ZgdbFile A).freeList.newIndexesCount = indexInitialCapacity - 1 := by
  obtain ⟨-, hp, hn⟩ := foldl_insertNewIndex sound_createIndexesList
    (List.range' 1 (indexInitialCapacity - 1))
  rw [← init_freeList (A := A)] at hp hn
  refine ⟨?_, ?_⟩
  · intro n hmem
    have hm := hp.mem_iff.mp hmem
    simp only [createIndexesList, List.append_nil, List.mem_map] at hm
    obtain ⟨k, -, rfl⟩ := hm
    rfl
  · rw [hn, List.length_range']
    rfl

theorem init_unexpanded (now : UInt32) : needsExpansion (init now : ZgdbFile A) = false := by
  simp only [needsExpansion, decide_eq_false_iff_not]
  rw [(init_undead now).2]
  decide

/-- The tree of a new store. -/
abbrev rootTree : Forest Nat := .cons 0 .nil .nil

theorem live_init (now : UInt32) : Live (init now : ZgdbFile A) 0 :=
  init_store.live_iff.mpr List.mem_cons_self

/-- **The first document of a store.** -/
theorem create_first (env : Env A) (now : UInt32) (name : Name) (hbuilt : schema.Built)
    (hcomplete : schema.Complete) :
    (Call.create now 0 name schema).Clean env (init now) ∧ ∃ file' n own',
      createDocument env.expandIndexes now (init now) name schema
        (documentAt (init now : ZgdbFile A) 0 0)
        = some (.createOk, file') ∧
      Inserted (init now) file' rootTree (fun _ => []) (fun _ => []) 0 n name schema own' ∧
      PlacedAtEnd (init now) file' schema n own' := by
  obtain ⟨hu, hn⟩ : _ ∧ (init now : ZgdbFile A).freeList.newIndexesCount = _ := init_undead now
  exact create_undead _ init_store hu (by rw [hn]; decide) ⟨live_init now, hbuilt, hcomplete⟩

end Create

/-! ## 2. Samples

The stores that the examples of the other modules start from: one document, two of them, one that
was deleted, and some that were created again in its blocks.  Each comes with the facts on its links
and blocks that such an example needs. -/

def keyA : Name := ⟨[97], by decide, by decide⟩

def keyB : Name := ⟨[98], by decide, by decide⟩

def keyC : Name := ⟨[99], by decide, by decide⟩

def keyD : Name := ⟨[100], by decide, by decide⟩

def stringA : CString := ⟨[97], by decide⟩

/-- A schema of one short text. -/
def oneText : DocumentSchema := (addTextToSchema (initSchema 1) keyA stringA).2

theorem oneText_built : oneText.Built := .text _ _ (.init 1)

/-- A schema without elements. -/
theorem noElements_built : (initSchema 0).Built := .init 0

/-- A root with one son. -/
abbrev onlySon (n : Nat) : Forest Nat := .cons 0 (.cons n .nil .nil) .nil

/-- **The second document of a store**, under the root or under the first one. -/
theorem create_two (env : Env A) : ∃ file n es own,
    (Call.create 0 0 keyA (initSchema 0)).Legal (init 0 : ZgdbFile A) ∧
      (Call.create 0 0 keyA (initSchema 0)).Clean env (init 0) ∧
      (Call.create 0 0 keyA (initSchema 0)).exec env (init 0) = some file ∧ n ≠ 0 ∧
      Store file (onlySon n) es own ∧ (getDocumentHeader file n).name = keyA ∧
      ∀ p name schema, p ∈ (onlySon n).nodes → schema.Built → schema.Complete →
        (Call.create 0 p name schema).Legal file ∧ (Call.create 0 p name schema).Clean env file ∧
          ∃ file' q own', (Call.create 0 p name schema).exec env file = some file' ∧
            Inserted file file' (onlySon n) es own p q name schema own' ∧
            PlacedAtEnd file file' schema q own' := by
  obtain ⟨hclean, file, n, own1, hrun, hi, hend⟩ := create_first env 0 keyA noElements_built rfl
  have hs := hi.store
  have htree : rootTree.insertUnder 0 n = onlySon n := by simp [Forest.insertUnder]
  rw [htree] at hs
  have hn0 : n ≠ 0 := fun h0 => hi.fresh (h0 ▸ List.mem_cons_self)
  have hexec : (Call.create 0 0 keyA (initSchema 0)).exec env (init 0) = some file := by
    rw [Call.exec, hrun]
    rfl
  have hnew : indexInitialCapacity / 8 < file.freeList.newIndexesCount := by
    have hroom := hend.room
    rw [(init_undead 0).2] at hroom
    have hmany : indexInitialCapacity - 1 = 49999 := rfl
    have hcap : indexInitialCapacity / 8 = 6250 := rfl
    omega
  refine ⟨file, n, _, _, ⟨live_init 0, noElements_built, rfl⟩, hclean, hexec, hn0, hs, hi.name, ?_⟩
  intro p name schema hp hbuilt hcomplete
  have hl : (Call.create 0 p name schema).Legal file := ⟨hs.live_iff.mpr hp, hbuilt, hcomplete⟩
  obtain ⟨hclean', file', q, own', hrun', hi', hend'⟩ := create_undead env hs hend.undead hnew hl
  refine ⟨hl, hclean', file', q, own', ?_, hi', hend'⟩
  rw [Call.exec, hrun']
  rfl

/-- What is left when the first document of a store has been deleted. -/
structure FirstDeleted (env : Env A) (schema : DocumentSchema) (file : ZgdbFile A) (n : Nat)
    (own' : List Nat) : Prop where
  reach : Reaches env
    (fun file call => call.Clean env file ∧ call.Structural ∧ call.Unexpanded file) file
  store : ∃ es own, Store file rootTree es own
  offset : schema.reqToast = false →
    (file.indexes n).offset = rootOffset + sizeofDocumentHeader
  freeList : ∃ new : List Node, (∀ m ∈ new, m.blockSize = 0) ∧ file.freeList.nodes.Perm
    (⟨n, docSize schema⟩ :: (own'.map (fun t => ⟨t, toastRequest schema + sizeofToast⟩) ++ new))
  room : indexInitialCapacity / 8 + 2 < file.freeList.newIndexesCount
  indexCount : file.header.indexCount = indexInitialCapacity
  betweenSpace : file.header.betweenSpace = 0

/-- **The first document of a store, created and deleted.** -/
theorem create_delete (env : Env A) {schema : DocumentSchema} (hbuilt : schema.Built)
    (hcomplete : schema.Complete) : ∃ (file : ZgdbFile A) (n : Nat) (own' : List Nat),
      (schema.reqToast = false → own' = []) ∧ (schema.reqToast = true → ∃ t, own' = [t]) ∧
        FirstDeleted env schema file n own' := by
  obtain ⟨hclean, file1, n, own', hrun1, hi, hend⟩ := create_first env 0 keyA hbuilt hcomplete
  have hs1 := hi.store
  have htree : rootTree.insertUnder 0 n = onlySon n := by simp [Forest.insertUnder]
  have hn0 : n ≠ 0 := fun h0 => hi.fresh (h0 ▸ List.mem_cons_self)
  rw [htree] at hs1
  have hbelow : (onlySon n).sonsOf n = .nil := by simp [Forest.sonsOf, Ne.symm hn0]
  have hremove : (onlySon n).remove n = rootTree := by
    simp [Forest.remove, Ne.symm hn0]
  have hlive : ∀ k, k = 0 ∨ k = n → Live file1 k := fun k hk => hs1.live_iff.mpr (by simpa using hk)
  have hdel : (Call.delete n 0).Legal file1 :=
    ⟨hlive n (Or.inr rfl), hn0, hlive 0 (Or.inl rfl),
      (hs1.sonOf_iff hs1.root_mem).mpr (by simp [Forest.sonsOf])⟩
  obtain ⟨file2, hrun2, ts, hr⟩ : ∃ file2, (Call.delete n 0).exec env file1 = some file2 ∧ _ :=
    exec_delete _ hs1 hdel
  obtain rfl := hr.list.unique hi.list
  have hcreate : (Call.create 0 0 keyA schema).Legal (init 0 : ZgdbFile A) :=
    ⟨live_init 0, hbuilt, hcomplete⟩
  have hexec : (Call.create 0 0 keyA schema).exec env (init 0) = some file1 := by
    rw [Call.exec, hrun1]
    rfl
  have hs2 := hr.store
  rw [hremove] at hs2
  have hcap : ∀ t ∈ ts, blockCapacity file1 t = toastRequest schema + sizeofToast := by
    intro t ht
    cases hreq : schema.reqToast with
    | false =>
      rw [(hend.noText hreq).1] at ht
      cases ht
    | true =>
      obtain ⟨t', rfl, -, hc, -⟩ := hend.text hreq
      rw [List.mem_singleton.mp ht, hc]
  have hperm : file2.freeList.nodes.Perm (⟨n, docSize schema⟩ ::
      (ts.map (fun t => ⟨t, toastRequest schema + sizeofToast⟩) ++ file1.freeList.nodes)) := by
    have h := hr.reclaimed.freeList
    have hmap : ts.map (fun k => (⟨k, blockCapacity file1 k⟩ : Node))
        = ts.map fun t => ⟨t, toastRequest schema + sizeofToast⟩ :=
      List.map_congr_left fun t ht => by rw [hcap t ht]
    rwa [hbelow, Forest.nodes_nil, List.nil_append, List.map_cons, hmap, hend.docCapacity] at h
  have hnew : file2.freeList.newIndexesCount = file1.freeList.newIndexesCount := by
    rw [hs2.blocks.placed.sound.newIndexes, hs1.blocks.placed.sound.newIndexes, hperm.countP_eq]
    simp [docSize, sizeofDocumentHeader, List.countP_map, Function.comp_def, sizeofToast]
  have hroom := hend.room
  rw [(init_undead 0).2, ← hnew] at hroom
  have hmany : indexInitialCapacity - 1 = 49999 := rfl
  have heighth : indexInitialCapacity / 8 = 6250 := rfl
  refine ⟨file2, n, ts, fun hreq => (hend.noText hreq).1,
    fun hreq => (hend.text hreq).imp fun _ ht => ht.1,
    ((Reaches.new 0).snoc hcreate ⟨hclean, trivial, init_unexpanded 0⟩ hexec).snoc hdel
      ⟨trivial, trivial, trivial⟩ hrun2, ⟨_, _, hs2⟩,
    fun hreq => ?_, ⟨_, hend.undead, hperm⟩, by omega, ?_, ?_⟩
  · rw [hr.reclaimed.indexes, if_pos List.mem_cons_self]
    exact (hend.noText hreq).2.trans (by rw [init_header]; rfl)
  · rw [hr.reclaimed.header]
    exact hend.tables.indexCount.trans (by rw [init_header]; rfl)
  · rw [hr.reclaimed.header]
    exact hend.tables.betweenSpace.trans (by rw [init_header]; rfl)

/-- **A document without text** is created in any store that does not expand its index table. -/
theorem Store.createPlain {env : Env A} {file : ZgdbFile A} {T : Forest Nat}
    {es : Nat → List StoredElement} {own : Nat → List Nat} (hs : Store file T es own)
    (hexp : needsExpansion file = false) {p : Nat} (hp : p ∈ T.nodes) (name : Name)
    {schema : DocumentSchema} (hbuilt : schema.Built) (hcomplete : schema.Complete)
    (hreq : schema.reqToast = false) :
    (Call.create 0 p name schema).Legal file ∧ (Call.create 0 p name schema).Clean env file ∧
      ∃ file', (Call.create 0 p name schema).exec env file = some file' := by
  have hroom : ¬ file.freeList.newIndexesCount ≤ indexInitialCapacity / 8 := by
    simpa [needsExpansion] using hexp
  refine ⟨⟨hs.live_iff.mpr hp, hbuilt, hcomplete⟩, ?_, ?_⟩
  · intro file1 h1
    obtain rfl := Option.some.inj ((expanded_of_not hexp).symm.trans h1)
    exact ⟨Relocated.refl hs.blocks, fun htext => by rw [hreq] at htext; cases htext⟩
  · obtain ⟨file', hrun⟩ : ∃ file', createDocument env.expandIndexes 0 file name schema
        (documentAt file p 0) = some (.createOk, file') :=
      createDocument_isSome hcomplete (expanded_of_not hexp) hs.blocks.placed.sound (by
        have heighth : indexInitialCapacity / 8 = 6250 := rfl
        omega)
    exact ⟨file', by rw [Call.exec, hrun]; rfl⟩

/-- A document without elements is created in the place of a document that was deleted. -/
structure CreatedAgain (env : Env A) (file file' : ZgdbFile A) (m : Node) : Prop where
  legal : (Call.create 0 0 keyB (initSchema 0)).Legal file
  clean : (Call.create 0 0 keyB (initSchema 0)).Clean env file
  unexpanded : needsExpansion file = false
  exec : (Call.create 0 0 keyB (initSchema 0)).exec env file = some file'
  inserted : ∃ es own, Inserted file file' rootTree es own 0 m.indexOrder keyB (initSchema 0) []
  allocated : Allocated file file file' (initSchema 0) m []

/-- **The largest free block is taken again** by a document that fits in it. -/
theorem FirstDeleted.createAgain {env : Env A} {schema : DocumentSchema}
    {file : ZgdbFile A} {n : Nat}
    {own' : List Nat} (h : FirstDeleted env schema file n own') {m : Node} {rest : List Node}
    (hperm : file.freeList.nodes.Perm (m :: rest)) (hrest : ∀ x ∈ rest, x.blockSize < m.blockSize)
    (hle : sizeofDocumentHeader ≤ m.blockSize) : ∃ file', CreatedAgain env file file' m := by
  obtain ⟨es, own, hs⟩ := h.store
  have hroom := h.room
  have hexp : needsExpansion file = false := by
    simp only [needsExpansion, decide_eq_false_iff_not]
    omega
  obtain ⟨hl, hclean, file', hexec⟩ : _ ∧ (Call.create 0 0 keyB (initSchema 0)).Clean env file
      ∧ _ :=
    hs.createPlain hexp List.mem_cons_self keyB noElements_built rfl rfl
  obtain ⟨x, own'', hi, halloc⟩ := exec_create hs hl hclean hexec
  obtain ⟨file2, m', rfl, ha⟩ := halloc file (expanded_of_not hexp)
  -- the block is the one that has become free
  obtain ⟨t, htoast⟩ := ha.toast
  obtain ⟨rfl, rfl⟩ := htoast.noText rfl
  obtain ⟨list, hfind⟩ := ha.chosen
  obtain ⟨list', hfind', -⟩ := findRelevantIndex_perm hs.blocks.placed.sound hperm
    (fun x hx => Or.inr (hrest x hx)) (by decide) (show docSize (initSchema 0) ≤ _ from hle)
  obtain rfl : m' = m := congrArg Prod.fst (Option.some.inj (hfind.symm.trans hfind'))
  exact ⟨file', hl, hclean, hexp, hexec, ⟨es, own, hi⟩, ha⟩

/-- A root with a son that has a son. -/
abbrev nested (n q : Nat) : Forest Nat := .cons 0 (.cons n (.cons q .nil .nil) .nil) .nil

/-- A store in which `n` documents without elements have been created. -/
structure Planted (env : Env A) (file : ZgdbFile A) (T : Forest Nat) (n : Nat) : Prop where
  run : Reaches env
    (fun file call => call.Clean env file ∧ call.Structural ∧ call.Unexpanded file) file
  store : ∃ es own, Store file T es own
  undead : Undead file
  room : indexInitialCapacity - 1 ≤ file.freeList.newIndexesCount + 2 * n

theorem Planted.reach {env : Env A} {file : ZgdbFile A} {T : Forest Nat} {n : Nat}
    (h : Planted env file T n) : Reaches env (Call.Clean env) file := h.run.mono fun _ _ hc => hc.1

theorem Planted.new (env : Env A) : Planted env (init 0) rootTree 0 where
  run := Reaches.new 0
  store := ⟨_, _, init_store⟩
  undead := (init_undead 0).1
  room := by rw [(init_undead 0).2, Nat.mul_zero, Nat.add_zero]

/-- **One more document** below one that is there. -/
theorem Planted.create {env : Env A} {file : ZgdbFile A} {T : Forest Nat} {n : Nat}
    (h : Planted env file T n) (hn : n < 20000) {p : Nat} (hp : p ∈ T.nodes) (name : Name) :
    ∃ file' q, q ∉ T.nodes ∧ Planted env file' (T.insertUnder p q) (n + 1) ∧
      (getDocumentHeader file' q).name = name ∧
      ∀ k ∈ T.nodes, (getDocumentHeader file' k).name = (getDocumentHeader file k).name := by
  obtain ⟨es, own, hs⟩ := h.store
  have hroom := h.room
  have hmany : indexInitialCapacity - 1 = 49999 := rfl
  have heighth : indexInitialCapacity / 8 = 6250 := rfl
  have hl : (Call.create 0 p name (initSchema 0)).Legal file :=
    ⟨hs.live_iff.mpr hp, noElements_built, rfl⟩
  obtain ⟨hclean, file', q, own', hrun, hi, hend⟩ :=
    create_undead env hs h.undead (by omega : indexInitialCapacity / 8 < _) hl
  have hexec : (Call.create 0 p name (initSchema 0)).exec env file = some file' := by
    rw [Call.exec, hrun]
    rfl
  have hend' := hend.room
  have hunexpanded : (Call.create 0 p name (initSchema 0)).Unexpanded file := by
    simp only [Call.Unexpanded, needsExpansion, decide_eq_false_iff_not]
    omega
  refine ⟨file', q, hi.fresh, ⟨h.run.snoc hl ⟨hclean, trivial, hunexpanded⟩ hexec,
      ⟨_, _, hi.store⟩, hend.undead, by omega⟩,
    hi.name, fun k hk => hi.carried.name hk⟩

/-- A document `a` with a document `b` below it. -/
theorem planted_nested (env : Env A) : ∃ file n q, Planted env file (nested n q) 2 ∧
    (getDocumentHeader file n).name = keyA ∧ (getDocumentHeader file q).name = keyB := by
  obtain ⟨file1, n, hn, h1, hname, -⟩ :=
    (Planted.new env).create (by omega) List.mem_cons_self keyA
  obtain ⟨file2, q, -, h2, hname', hkept⟩ :=
    h1.create (p := n) (by omega) (by simp [Forest.insertUnder])
    keyB
  have hn0 : n ≠ 0 := fun h0 => hn (h0 ▸ List.mem_cons_self)
  have htree : (rootTree.insertUnder 0 n).insertUnder n q = nested n q := by
    simp [Forest.insertUnder, Ne.symm hn0]
  rw [htree] at h2
  refine ⟨file2, n, q, h2, ?_, hname'⟩
  rw [hkept n (by simp [Forest.insertUnder]), hname]

theorem create_nested (env : Env A) : ∃ file n q es own,
    Reaches env (Call.Clean env) file ∧ Store file (nested n q) es own ∧
      (getDocumentHeader file n).name = keyA ∧ (getDocumentHeader file q).name = keyB := by
  obtain ⟨file, n, q, h, hn, hq⟩ := planted_nested env
  obtain ⟨es, own, hs⟩ := h.store
  exact ⟨file, n, q, es, own, h.reach, hs, hn, hq⟩

/-- A root with two sons, the second of which has a son. -/
abbrev family (n q r : Nat) : Forest Nat :=
  .cons 0 (.cons r .nil (.cons n (.cons q .nil .nil) .nil)) .nil

/-- A document with a document below it, and another one in front of it. -/
theorem create_family (env : Env A) : ∃ file n q r es own,
    Reaches env (fun file call => call.Clean env file ∧ call.Structural ∧ call.Unexpanded file) file
      ∧
      Store file (family n q r) es own := by
  obtain ⟨file1, n, hn, h1, -, -⟩ := (Planted.new env).create (by omega) List.mem_cons_self keyA
  have hn0 : n ≠ 0 := fun h0 => hn (h0 ▸ List.mem_cons_self)
  obtain ⟨file2, q, -, h2, -, -⟩ :=
    h1.create (p := n) (by omega) (by simp [Forest.insertUnder]) keyB
  obtain ⟨file3, r, -, h3, -, -⟩ := h2.create (p := 0) (by omega)
    (by simp [Forest.insertUnder, Ne.symm hn0]) keyA
  obtain ⟨es, own, hs⟩ := h3.store
  have htree : ((rootTree.insertUnder 0 n).insertUnder n q).insertUnder 0 r = family n q r := by
    simp [Forest.insertUnder, Ne.symm hn0]
  rw [htree] at hs
  exact ⟨file3, n, q, r, es, own, h3.run, hs⟩

end Zgdb
