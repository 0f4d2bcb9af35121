/-
# Room for new documents

`createDocument` expands the index table when few indices are NEW.  It relies on three things
(`Expands`): the expansion returns, it moves blocks without changing them, and it adds indices.
Then a creation always gets the two indices it takes (`Sound.room`), and so it returns
(`exec_create_isSome`).

Over records nothing has to be moved out of the way of the table: `expandRecords` adds the indices
and shifts every offset by the bytes they take.
-/
import Zgdb.Runs

namespace Zgdb

open Zgdb.Lib AddrSpace

variable {A : Type} [BlockSpace A]

/-! ## 1. What is relied on

The expansion of the byte store is examined with that function itself.  The results on runs only use
that its blocks are where the table says and read as they did (`Relocated`); for a run over records
it is an assumption on the parameter, and a step over bytes that does not meet it is not clean. -/

/-- The indices an expansion adds at least. -/
def addedIndexes : Nat := indexMultiplier * indexInitialCapacity

/-- What `createDocument` relies on when it expands the table of a sound store, for every such
store.  It is an assumption on the parameter of a group of results; runs ask for it step by step
instead (`Call.Clean`). -/
def Expands (expandIndexes : ZgdbFile A → Option (ZgdbFile A)) : Prop :=
  ∀ file, Sound file → needsExpansion file = true → ∃ file1, expandIndexes file = some file1 ∧
    Relocated file file1 ∧ file.header.indexCount + addedIndexes ≤ file1.header.indexCount

omit [BlockSpace A] in
theorem expanded_of_not {expandIndexes : ZgdbFile A → Option (ZgdbFile A)} {file : ZgdbFile A}
    (h : needsExpansion file = false) : expanded expandIndexes file = some file := by
  rw [expanded, h]
  exact if_neg Bool.false_ne_true

theorem two_le_length {α : Type} {l : List α} {a b : α} (ha : a ∈ l) (hb : b ∈ l) (h : a ≠ b) :
    2 ≤ l.length := by
  match l, ha, hb with
  | [x], ha, hb =>
    rw [List.mem_singleton] at ha hb
    exact absurd (ha.trans hb.symm) h
  | _ :: _ :: _, _, _ => exact Nat.le_add_left 2 _

omit [BlockSpace A] in
/-- Two NEW indices are two NEW nodes. -/
theorem Placed.two_new {file : ZgdbFile A} {cap : Nat → Nat} (h : Placed file cap) {j k : Nat}
    (hj : j < file.header.indexCount) (hk : k < file.header.indexCount) (hjk : j ≠ k)
    (hfj : (file.indexes j).flag = .new) (hfk : (file.indexes k).flag = .new) :
    2 ≤ file.freeList.newIndexesCount := by
  have hnode : ∀ i, i < file.header.indexCount → (file.indexes i).flag = .new →
      ∃ n ∈ file.freeList.nodes.filter (·.blockSize = 0), n.indexOrder = i := by
    intro i hi hf
    rcases h.free i hi with ha | ⟨n, hn, rfl⟩
    · rw [hf] at ha
      cases ha
    · refine ⟨n, List.mem_filter.mpr ⟨hn, ?_⟩, rfl⟩
      rcases (h.node n hn).2 with ⟨hz, -⟩ | ⟨-, hd, -⟩
      · simpa using hz
      · rw [hf] at hd
        cases hd
  obtain ⟨a, ha, rfl⟩ := hnode j hj hfj
  obtain ⟨b, hb, rfl⟩ := hnode k hk hfk
  rw [h.sound.newIndexes, List.countP_eq_length_filter]
  exact two_le_length ha hb fun he => hjk (by rw [he])

/-- **A creation has room.** -/
theorem Sound.room {file : ZgdbFile A} {expandIndexes : ZgdbFile A → Option (ZgdbFile A)}
    (hs : Sound file) (hexp : Expands expandIndexes) :
    ∃ file1, expanded expandIndexes file = some file1 ∧ Relocated file file1 ∧
      2 ≤ file1.freeList.newIndexesCount := by
  obtain ⟨T, es, own, h⟩ := hs
  by_cases hn : needsExpansion file = true
  · obtain ⟨file1, he, hr, hle⟩ := hexp file ⟨T, es, own, h⟩ hn
    have hadd : addedIndexes = 200000 := rfl
    refine ⟨file1, by rw [expanded, if_pos hn, he], hr, ?_⟩
    exact hr.placed.two_new (by omega : file.header.indexCount < _)
      (by omega : file.header.indexCount + 1 < _) (by omega) (hr.fresh _ (by omega) (by omega))
      (hr.fresh _ (by omega) (by omega))
  · refine ⟨file, by rw [expanded, if_neg hn], Relocated.refl h.blocks, ?_⟩
    have hcap : indexInitialCapacity / 8 = 6250 := rfl
    rw [needsExpansion, decide_eq_true_eq] at hn
    omega

/-- **A legal creation returns.** -/
theorem exec_create_isSome {env : Env A} {file : ZgdbFile A} (hs : Sound file)
    (hexp : Expands env.expandIndexes) {now : UInt32} {p : Nat} {name : Name}
    {schema : DocumentSchema} (hl : (Call.create now p name schema).Legal file) :
    ∃ file', createDocument env.expandIndexes now file name schema (documentAt file p 0)
      = some (.createOk, file') := by
  obtain ⟨file1, he, hr, hnew⟩ := hs.room hexp
  obtain ⟨T, es, own, h⟩ := hs
  exact createDocument_isSome hl.2.2 he (hr.blocks h.blocks).placed.sound hnew

/-! ## 2. An expansion of records

A record is addressed by the place of its block, so a block that is moved is the same record at
another offset.  This is the function that the runs over records have for an example. -/

/-- The table grows by `addedIndexes`; the blocks keep their records, further behind. -/
def expandRecords (file : ZgdbFile RecordPos) : Option (ZgdbFile RecordPos) :=
  some (saveHeader
    { file with
      indexes := fun k =>
        if k < file.header.indexCount then
          { file.indexes k with
            offset := (file.indexes k).offset + addedIndexes * sizeofZgdbIndex }
        else ⟨.new, 0⟩
      freeList := (List.range' file.header.indexCount addedIndexes).foldl insertNewIndex
        file.freeList
      header := { file.header with
        indexCount := file.header.indexCount + addedIndexes
        fileSize := file.header.fileSize + addedIndexes * sizeofZgdbIndex } })

/-- Tiles moved as a whole. -/
theorem Tiles.shift {indexes indexes' : Nat → ZgdbIndex} {cap : Nat → Nat} {start stop m : Nat}
    {ks : List Nat} (h : Tiles indexes cap start ks stop)
    (heq : ∀ k ∈ ks, (indexes' k).offset = (indexes k).offset + m) :
    Tiles indexes' cap (start + m) ks (stop + m) := by
  induction ks generalizing start with
  | nil =>
    have h' : start = stop := h
    exact congrArg (· + m) h'
  | cons k ks ih =>
    refine ⟨by rw [heq k List.mem_cons_self, h.1], ?_⟩
    have hks := ih h.2 fun j hj => heq j (List.mem_cons_of_mem _ hj)
    rwa [Nat.add_right_comm] at hks

omit [BlockSpace A] in
/-- **A table that grows**: the blocks are still in place, the new indices are free. -/
theorem Placed.grown {file file1 : ZgdbFile A} {cap : Nat → Nat} (h : Placed file cap) {n : Nat}
    (hcount : file1.header.indexCount = file.header.indexCount + n)
    (hlist : file1.freeList
      = (List.range' file.header.indexCount n).foldl insertNewIndex file.freeList)
    (hold : ∀ k < file.header.indexCount, (file1.indexes k).flag = (file.indexes k).flag)
    (hnew : ∀ k, file.header.indexCount ≤ k → k < file.header.indexCount + n →
      (file1.indexes k).flag = .new)
    (htiled : ∃ ks : List Nat, ks.Nodup ∧ (∀ k, k ∈ ks ↔ Used file1 k) ∧
      Tiles file1.indexes cap (dataStart file1.header) ks file1.header.fileSize) :
    Placed file1 cap := by
  obtain ⟨hsound, -, -⟩ := foldl_insertNewIndex h.sound (List.range' file.header.indexCount n)
  refine ⟨hlist ▸ hsound, hlist ▸ nodup_insertNewIndexes n h.nodup h.node_lt, ?_, ?_, htiled⟩
  · intro m hm
    rw [hlist, mem_insertNewIndexes] at hm
    rcases hm with ⟨h0, hle, hlt⟩ | hm
    · exact ⟨by omega, Or.inl ⟨h0, hnew _ hle hlt⟩⟩
    · have hlt := (h.node m hm).1
      rw [hold _ hlt]
      exact ⟨by omega, (h.node m hm).2⟩
  · intro k hk
    simp only [hlist, mem_insertNewIndexes]
    by_cases hlt : k < file.header.indexCount
    · rw [hold k hlt]
      exact (h.free k hlt).imp id fun ⟨m, hm, hmk⟩ => ⟨m, Or.inr hm, hmk⟩
    · exact Or.inr ⟨⟨k, 0⟩, Or.inl ⟨rfl, Nat.not_lt.mp hlt, hcount ▸ hk⟩, rfl⟩

/-- **The expansion of records relocates.** -/
theorem expandRecords_relocated {file file1 : ZgdbFile RecordPos} {docs : List Nat}
    (hb : Blocks file docs) (h : expandRecords file = some file1) : Relocated file file1 := by
  have hf := (Option.some.inj h).symm
  have hold : ∀ k, k < file.header.indexCount → file1.indexes k = { file.indexes k with
      offset := (file.indexes k).offset + addedIndexes * sizeofZgdbIndex } := by
    intro k hk
    simp only [hf, saveHeader, if_pos hk]
  have hnew : ∀ k, ¬ k < file.header.indexCount → file1.indexes k = ⟨.new, 0⟩ := by
    intro k hk
    simp only [hf, saveHeader, if_neg hk]
  have hcount : file1.header.indexCount = file.header.indexCount + addedIndexes := by
    rw [hf, saveHeader]
  refine ⟨by omega, fun k hk => by rw [hold k hk], fun k hk _ => by rw [hnew k (by omega)],
    fun k _ d _ => by rw [hf]; rfl, ?_, by rw [hf, saveHeader]⟩
  refine hb.placed.grown hcount (by rw [hf, saveHeader]) (fun k hk => by rw [hold k hk])
    (fun k hk _ => by rw [hnew k (by omega)]) ?_
  obtain ⟨ks, hnd, hmem, ht⟩ := hb.placed.tiled
  have hlt : ∀ k ∈ ks, k < file.header.indexCount := fun k hk => ((hmem k).mp hk).lt
  refine ⟨ks, hnd, fun k => (hmem k).trans ?_, ?_⟩
  · unfold Used Alive Dead
    by_cases hk : k < file.header.indexCount
    · have hk' : k < file1.header.indexCount := by omega
      rw [hold k hk]
      simp only [hk, hk']
    · simp only [hnew k hk, hk, false_and, or_self, reduceCtorEq, and_false]
  · have hshift : Tiles file1.indexes (blockCapacity file)
        (dataStart file.header + addedIndexes * sizeofZgdbIndex) ks
        (file.header.fileSize + addedIndexes * sizeofZgdbIndex) :=
      ht.shift fun k hk => by rw [hold k (hlt k hk)]
    have hstart : dataStart file1.header
        = dataStart file.header + addedIndexes * sizeofZgdbIndex := by
      rw [hf]
      simp only [saveHeader, dataStart, Nat.add_mul]
      omega
    have hsize : file1.header.fileSize
        = file.header.fileSize + addedIndexes * sizeofZgdbIndex := by rw [hf, saveHeader]
    rwa [hstart, hsize]

/-- **Records can be expanded.** -/
theorem expands_records : Expands expandRecords := by
  rintro file ⟨T, es, own, h⟩ -
  exact ⟨_, rfl, expandRecords_relocated h.blocks rfl, Nat.le_refl _⟩

end Zgdb
