/-
# A new store

`init` on a path that does not exist: the table of NEW indices, the root document right behind it
at index 0, and every other index in the free list.  The tree is the root alone.
-/
import Zgdb.Store

namespace Zgdb

open Zgdb.Lib AddrSpace

variable {A : Type} [BlockSpace A]

/-- `insertNewIndex` over a list of indices adds their nodes. -/
theorem perm_foldl_insertNewIndex (list : FreeIndexesList) (ks : List Nat) :
    (ks.foldl insertNewIndex list).nodes.Perm (ks.map (fun k => ⟨k, 0⟩) ++ list.nodes) := by
  induction ks generalizing list with
  | nil => exact List.Perm.refl _
  | cons k ks ih =>
    have h1 := (perm_insertNode list.nodes ⟨k, 0⟩).append_left (ks.map fun k => (⟨k, 0⟩ : Node))
    exact (ih (insertNewIndex list k)).trans (h1.trans List.perm_middle)

/-- **`insertNewIndex` over a list of indices.** -/
theorem foldl_insertNewIndex {list : FreeIndexesList} (h : list.Sound) (ks : List Nat) :
    (ks.foldl insertNewIndex list).Sound ∧
      (ks.foldl insertNewIndex list).nodes.Perm (ks.map (fun k => ⟨k, 0⟩) ++ list.nodes) ∧
      (ks.foldl insertNewIndex list).newIndexesCount = list.newIndexesCount + ks.length := by
  refine ⟨?_, perm_foldl_insertNewIndex list ks, ?_⟩
  · induction ks generalizing list with
    | nil => exact h
    | cons k ks ih => exact ih (h.insertNewIndex k)
  · clear h
    induction ks generalizing list with
    | nil => rfl
    | cons k ks ih =>
      rw [List.foldl_cons, ih, List.length_cons]
      show list.newIndexesCount + 1 + ks.length = _
      omega

/-- The nodes after NEW indices are inserted in a row. -/
theorem mem_insertNewIndexes {list : FreeIndexesList} {start n : Nat} {m : Node} :
    m ∈ ((List.range' start n).foldl insertNewIndex list).nodes ↔
      (m.blockSize = 0 ∧ start ≤ m.indexOrder ∧ m.indexOrder < start + n) ∨ m ∈ list.nodes := by
  rw [(perm_foldl_insertNewIndex list _).mem_iff, List.mem_append]
  refine or_congr_left ?_
  simp only [List.mem_map, List.mem_range'_1]
  constructor
  · rintro ⟨k, hk, rfl⟩
    exact ⟨rfl, hk⟩
  · rintro ⟨h0, hk⟩
    exact ⟨m.indexOrder, hk, by rw [← h0]⟩

/-- Indices behind those of the list are no duplicates. -/
theorem nodup_insertNewIndexes {list : FreeIndexesList} {start : Nat} (n : Nat)
    (hn : (list.nodes.map Node.indexOrder).Nodup) (hlt : ∀ m ∈ list.nodes, m.indexOrder < start) :
    (((List.range' start n).foldl insertNewIndex list).nodes.map Node.indexOrder).Nodup := by
  refine ((perm_foldl_insertNewIndex list _).map Node.indexOrder).nodup_iff.mpr ?_
  rw [List.map_append, List.map_map, List.nodup_append]
  refine ⟨by simpa [Function.comp_def] using List.nodup_range', hn, ?_⟩
  rintro a ha b hb rfl
  obtain ⟨k, hk, rfl⟩ := List.mem_map.mp ha
  obtain ⟨m, hm, hme⟩ := List.mem_map.mp hb
  have h1 := hlt m hm
  have h2 := (List.mem_range'_1.mp hk).1
  have h3 : m.indexOrder = k := hme
  omega

/-- Where the root document of a new store lies. -/
def rootOffset : Nat := sizeofZgdbHeader + indexInitialCapacity * sizeofZgdbIndex

/-- The header of the root document of a new store. -/
def rootHeader (now : UInt32) : DocumentHeader where
  id := generateId now rootOffset
  size := sizeofDocumentHeader
  capacity := sizeofDocumentHeader
  attrCount := 0
  indexAttached := 0
  indexBrother := 0
  indexSon := 0
  name := Name.root
  firstToastIndex := 0
  blockType := BlockType.document.code

/-- The header of a new store. -/
def freshHeader : ZgdbHeader where
  zgdbType := getZgdbFormat
  version := 1
  indexCount := indexInitialCapacity
  betweenSpace := 0
  nodes := 1
  fileSize := rootOffset + sizeofDocumentHeader

/-- The data area of a new store. -/
def rootMem (now : UInt32) : Mem A Obj :=
  store documentHeaderK (fun _ => ⟨.byte 0, 0⟩) (add (BlockSpace.base 0 rootOffset) 0)
    (rootHeader now)

section Init

variable {now : UInt32}

theorem init_eq (now : UInt32) : (init now : ZgdbFile A) =
    { header := freshHeader
      saved := freshHeader
      indexes := fun k => if k = 0 then ⟨.alive, rootOffset⟩ else ⟨.new, 0⟩
      freeList := (List.range' 1 (indexInitialCapacity - 1)).foldl insertNewIndex createIndexesList
      mem := rootMem now } := by
  have hoff : indexInitialCapacity * sizeofZgdbIndex + sizeofZgdbHeader = rootOffset :=
    Nat.add_comm _ _
  have hsize : sizeofZgdbHeader + indexInitialCapacity * sizeofZgdbIndex = rootOffset := rfl
  simp only [init, createRootDocument, createIndexes, createZgdbFile, attachIndexToBlock, setIndex,
    saveHeader, fwriteAt, gt_iff_lt, Nat.not_lt_zero, if_false, Nat.zero_add, Nat.zero_le, true_and,
    Bool.false_eq_true, ite_self, hoff, hsize, rootHeader, freshHeader, rootMem]

theorem init_header : (init now : ZgdbFile A).header = freshHeader := by
  rw [init_eq]

theorem init_index (k : Nat) : (init now : ZgdbFile A).indexes k =
    if k = 0 then ⟨.alive, rootOffset⟩ else ⟨.new, 0⟩ := by
  rw [init_eq]

theorem init_freeList : (init now : ZgdbFile A).freeList =
    (List.range' 1 (indexInitialCapacity - 1)).foldl insertNewIndex createIndexesList := by
  rw [init_eq]

theorem init_mem : (init now : ZgdbFile A).mem = rootMem now := by
  rw [init_eq]

theorem init_blockPos : blockPos (init now : ZgdbFile A) 0 = BlockSpace.base 0 rootOffset := by
  have hlt : 0 < (init now : ZgdbFile A).header.indexCount := by
    rw [init_header]
    exact Nat.zero_lt_succ _
  rw [blockPos, getIndex_eq hlt, init_index, if_pos rfl]

theorem init_root : IsDocument (init now : ZgdbFile A) 0 ∧
    getDocumentHeader (init now : ZgdbFile A) 0 = rootHeader now ∧
    blockCapacity (init now : ZgdbFile A) 0 = sizeofDocumentHeader := by
  have hat : blockAt (init now : ZgdbFile A) 0
      = store documentHeaderK (view (fun _ => ⟨.byte 0, 0⟩) (BlockSpace.base 0 rootOffset : A)) 0
        (rootHeader now) := by
    rw [← view_store, ← rootMem, ← init_mem, ← init_blockPos]
    rfl
  exact IsDocument.of_holds (hat ▸ holds_store) rfl rfl (Nat.le_refl _) (Nat.le_refl _)

/-- Only the root has a block. -/
theorem init_used {k : Nat} : Used (init now : ZgdbFile A) k ↔ k = 0 := by
  unfold Used Alive Dead
  rw [init_header, init_index]
  by_cases hk : k = 0
  · subst hk
    simp [freshHeader, indexInitialCapacity]
  · simp [hk]

theorem init_alive {k : Nat} : Alive (init now : ZgdbFile A) k ↔ k = 0 := by
  unfold Alive
  rw [init_header, init_index]
  by_cases hk : k = 0
  · subst hk
    simp [freshHeader, indexInitialCapacity]
  · simp [hk]

theorem init_placed : Placed (init now : ZgdbFile A) (blockCapacity (init now : ZgdbFile A)) := by
  obtain ⟨hs, -, -⟩ := foldl_insertNewIndex sound_createIndexesList
    (List.range' 1 (indexInitialCapacity - 1))
  have hn : (((List.range' 1 (indexInitialCapacity - 1)).foldl insertNewIndex
      createIndexesList).nodes.map Node.indexOrder).Nodup :=
    nodup_insertNewIndexes _ List.nodup_nil (by simp [createIndexesList])
  rw [← init_freeList (A := A)] at hs hn
  have hmem : ∀ n, n ∈ (init now : ZgdbFile A).freeList.nodes ↔
      n.blockSize = 0 ∧ 1 ≤ n.indexOrder ∧ n.indexOrder < indexInitialCapacity := by
    intro n
    rw [init_freeList, mem_insertNewIndexes]
    simp [createIndexesList, indexInitialCapacity]
  refine ⟨hs, hn, ?_, ?_, [0], List.nodup_singleton 0, ?_, ?_⟩
  · intro n hn
    obtain ⟨h0, h1, h2⟩ := (hmem n).mp hn
    rw [init_header, init_index, if_neg (by omega)]
    exact ⟨h2, Or.inl ⟨h0, rfl⟩⟩
  · intro k hk
    rw [init_header] at hk
    rw [init_index]
    by_cases h0 : k = 0
    · left
      rw [if_pos h0]
    · exact Or.inr ⟨⟨k, 0⟩, (hmem _).mpr ⟨rfl, Nat.pos_of_ne_zero h0, hk⟩, rfl⟩
  · intro k
    rw [List.mem_singleton, init_used]
  · refine ⟨?_, ?_⟩
    · rw [init_index, if_pos rfl, init_header]
      rfl
    · rw [init_root.2.2, init_header]
      rfl

/-- **A new store is sound**: the root, without elements and without toasts. -/
theorem init_store : Store (init now : ZgdbFile A) (.cons 0 .nil .nil) (fun _ => [])
    fun _ => [] := by
  obtain ⟨hdoc, hhdr, -⟩ : IsDocument (init now : ZgdbFile A) 0 ∧
      getDocumentHeader (init now : ZgdbFile A) 0 = rootHeader now ∧ _ := init_root
  have hnodes : (Forest.cons 0 .nil .nil : Forest Nat).nodes = [0] := rfl
  refine ⟨⟨init_placed, ?_, ?_⟩, List.nodup_singleton 0, ?_, ?_, ?_, ?_,
    ?_, fun _ _ _ _ _ _ h => absurd h List.not_mem_nil⟩
  · intro k hk
    exact Or.inl (init_used.mp hk ▸ hdoc)
  · intro k
    rw [hnodes, List.mem_singleton, init_alive]
    exact ⟨fun h => ⟨h, h ▸ hdoc⟩, And.left⟩
  · refine ⟨rfl, ?_, ?_⟩
    · rw [sonOf, hhdr]; rfl
    · rw [brotherOf, hhdr]; rfl
  · rw [hhdr]; rfl
  · rw [hhdr]; rfl
  · rw [init_header]; rfl
  · intro k hk
    rw [hnodes, List.mem_singleton] at hk
    subst hk
    refine ⟨by rw [hhdr]; rfl, by rw [hhdr]; rfl, trivial, List.nodup_nil, Texts.nil _ _, [], ?_,
      List.nodup_nil, by simp⟩
    rw [hhdr]
    rfl

end Init

end Zgdb
