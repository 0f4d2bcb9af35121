/-
# Every index in one class, the blocks without a gap

What a run of creations and deletions leaves in the tables, as long as the index table is not
expanded: an index is ALIVE, NEW or DEAD, and the free list says the same, each free index with one
node and a DEAD one with the capacity of its block (`InClass`).  The blocks of the ALIVE and the
DEAD indices lie apart and fill the file behind the table (`Filled`).
-/
import Zgdb.Tree

namespace Zgdb

open Zgdb.Lib AddrSpace

variable {A : Type} [BlockSpace A]

/-! ## 1. Classes

The free list and the table are two accounts of the same indices.  An index that both call free has
one node, and an index that is ALIVE has none. -/

/-- The nodes of an index in the free list. -/
def nodesOf (file : ZgdbFile A) (k : Nat) : List Node :=
  file.freeList.nodes.filter (·.indexOrder = k)

/-- What the table and the free list say of an index in a class: an ALIVE one is in no node, a NEW
one in a single node of size 0, and a DEAD one in a single node with the capacity of the block that
it keeps.  The invalid class has no index. -/
def InClass (file : ZgdbFile A) (k : Nat) : IndexFlag → Prop
  | .alive => (file.indexes k).flag = .alive ∧ nodesOf file k = []
  | .new => (file.indexes k).flag = .new ∧ nodesOf file k = [⟨k, 0⟩]
  | .dead => (file.indexes k).flag = .dead ∧ nodesOf file k = [⟨k, blockCapacity file k⟩]
  | .invalid => False

theorem InClass.flag {file : ZgdbFile A} {k : Nat} {c : IndexFlag} (h : InClass file k c) :
    (file.indexes k).flag = c := by
  cases c with
  | invalid => exact h.elim
  | _ => exact h.1

/-- The one element with its key. -/
theorem filter_key_eq {α : Type} {f : α → Nat} {l : List α} (hn : (l.map f).Nodup) {x : α}
    (hx : x ∈ l) : l.filter (f · = f x) = [x] := by
  induction l with
  | nil => cases hx
  | cons y l ih =>
    rw [List.map_cons, List.nodup_cons] at hn
    rcases List.mem_cons.mp hx with rfl | hx
    · have hrest : l.filter (f · = f x) = [] := List.filter_eq_nil_iff.mpr fun z hz hzx =>
        hn.1 (of_decide_eq_true hzx ▸ List.mem_map_of_mem hz)
      rw [List.filter_cons_of_pos (by simp), hrest]
    · have hne : f y ≠ f x := fun he => hn.1 (he ▸ List.mem_map_of_mem hx)
      rw [List.filter_cons_of_neg (by simpa using hne), ih hn.2 hx]

/-- **Every index is in exactly one class.** -/
theorem Placed.inClass {file : ZgdbFile A} (h : Placed file (blockCapacity file)) {k : Nat}
    (hk : k < file.header.indexCount) : ∃! c, InClass file k c := by
  refine existsUnique_of_exists_of_unique ?_ fun c c' hc hc' => hc.flag.symm.trans hc'.flag
  by_cases hn : ∃ n ∈ file.freeList.nodes, n.indexOrder = k
  · obtain ⟨n, hn, rfl⟩ := hn
    have hone : nodesOf file n.indexOrder = [n] := filter_key_eq h.nodup hn
    rcases (h.node n hn).2 with ⟨hz, hf⟩ | ⟨-, hf, hcap⟩
    · exact ⟨.new, hf, by rw [hone, ← hz]⟩
    · exact ⟨.dead, hf, by rw [hone, ← hcap]⟩
  · refine ⟨.alive, (h.free k hk).resolve_right hn, List.filter_eq_nil_iff.mpr ?_⟩
    intro n hn' he
    exact hn ⟨n, hn', of_decide_eq_true he⟩

/-! ## 2. Blocks

The blocks of the free indices count as well: a DEAD block stays where it was, between others, until
it is used again. -/

/-- The blocks of the ALIVE and the DEAD indices lie apart, and fill the file from `start` on.
Every byte behind `start` belongs to one block, so the file has no holes that nothing could take
again. -/
structure Filled (file : ZgdbFile A) (start : Nat) : Prop where
  inside : ∀ k, Used file k → start ≤ (file.indexes k).offset ∧
    (file.indexes k).offset + blockCapacity file k ≤ file.header.fileSize
  disjoint : ∀ j k, Used file j → Used file k → j ≠ k →
    (file.indexes j).offset + blockCapacity file j ≤ (file.indexes k).offset ∨
      (file.indexes k).offset + blockCapacity file k ≤ (file.indexes j).offset
  cover : ∀ a, start ≤ a → a < file.header.fileSize →
    ∃ k, Used file k ∧ (file.indexes k).offset ≤ a ∧
      a < (file.indexes k).offset + blockCapacity file k

/-- Every place between tiles is in one of them. -/
theorem Tiles.cover {indexes : Nat → ZgdbIndex} {cap : Nat → Nat} {start stop : Nat}
    {ks : List Nat} (h : Tiles indexes cap start ks stop) {a : Nat} (h1 : start ≤ a)
    (h2 : a < stop) :
    ∃ k ∈ ks, (indexes k).offset ≤ a ∧ a < (indexes k).offset + cap k := by
  induction ks generalizing start with
  | nil =>
    have he : start = stop := h
    omega
  | cons k ks ih =>
    obtain ⟨h0, hks⟩ := h
    by_cases ha : a < start + cap k
    · exact ⟨k, List.mem_cons_self, by omega⟩
    · obtain ⟨j, hj, hja⟩ := ih hks (by omega)
      exact ⟨j, List.mem_cons_of_mem _ hj, hja⟩

/-- **The blocks fill the data area.** -/
theorem Placed.filled {file : ZgdbFile A} (h : Placed file (blockCapacity file)) :
    Filled file (dataStart file.header) := by
  obtain ⟨ks, -, hmem, ht⟩ := h.tiled
  refine ⟨fun k hk => ht.le.2 k ((hmem k).mpr hk),
    fun j k hj hk => ht.disjoint ((hmem j).mpr hj) ((hmem k).mpr hk), ?_⟩
  intro a h1 h2
  obtain ⟨k, hk, hka⟩ := ht.cover h1 h2
  exact ⟨k, (hmem k).mp hk, hka⟩

/-! ## 3. Runs without expansion

A call that does not expand the table keeps every index in a class.  The example goes through a
creation, a deletion and a creation that uses the DEAD blocks again. -/

section Records

variable {env : Env RecordPos} {file : ZgdbFile RecordPos}

/-- Without expansion nothing is asked of `expandIndexes`. -/
theorem Call.Structural.clean_of_unexpanded {call : Call} (hs : Sound file) (h : call.Structural)
    (hu : call.Unexpanded file) : call.Clean env file := by
  cases call with
  | create now p name schema =>
    obtain ⟨T, es, own, hs⟩ := hs
    intro file1 he
    obtain rfl := Option.some.inj ((expanded_of_not hu).symm.trans he)
    exact ⟨Relocated.refl hs.blocks, fun _ => noSpill_record _ _⟩
  | delete d p => trivial
  | deleteRoot => cases h
  | update k key input => cases h

/-- One call keeps the store sound and the table closed. -/
theorem structural_closed {file' : ZgdbFile RecordPos} {call : Call} (hs : Sound file)
    (hb : file.header.betweenSpace = 0) (hl : call.Legal file) (hc : call.Structural)
    (hu : call.Unexpanded file) (he : call.exec env file = some file') :
    Sound file' ∧ file'.header.betweenSpace = 0 := by
  have hclean : call.Clean env file := hc.clean_of_unexpanded hs hu
  refine ⟨exec_sound hs hl hclean he, ?_⟩
  obtain ⟨T, es, own, hs⟩ := hs
  cases call with
  | create now p name schema =>
    obtain ⟨n, own', -, halloc⟩ := exec_create hs hl hclean he
    obtain ⟨file2, m, -, ha⟩ := halloc file (expanded_of_not hu)
    rw [ha.extended.betweenSpace, hb]
  | delete d p =>
    obtain ⟨file'', hrun, ts, h⟩ : ∃ file'', (Call.delete d p).exec env file = some file'' ∧ _ :=
      exec_delete _ hs hl
    obtain rfl := Option.some.inj (hrun.symm.trans he)
    rw [h.reclaimed.header]
    exact hb
  | deleteRoot => cases hc
  | update k key input => cases hc

/-- **Index classes and blocks** after any creations and deletions without expansion.  Each index is
in exactly one class, ALIVE, NEW or DEAD, with the flag, the block and the nodes of the free list
that belong to it; and the blocks of the ALIVE and the DEAD ones fill the data area without a gap or
an overlap.  It is read off the invariant of the store, which every clean call keeps. -/
theorem structural_allocation
    (h : Reaches env (fun file call => call.Structural ∧ call.Unexpanded file) file) :
    (∀ k < file.header.indexCount, ∃! c, InClass file k c) ∧
      Filled file (sizeofZgdbHeader + file.header.indexCount * sizeofZgdbIndex) := by
  obtain ⟨now, calls, hrun⟩ := h
  have hinit : Sound (init now : ZgdbFile RecordPos) ∧
      (init now : ZgdbFile RecordPos).header.betweenSpace = 0 :=
    ⟨⟨_, _, _, init_store⟩, by rw [init_header]; rfl⟩
  obtain ⟨⟨T, es, own, hs⟩, hb⟩ := hrun.inv hinit fun f call f' hf hcall he =>
    structural_closed hf.1 hf.2 hcall.1 hcall.2.1 hcall.2.2 he
  refine ⟨fun k hk => hs.blocks.placed.inClass hk, ?_⟩
  have hf := hs.blocks.placed.filled
  rw [dataStart, hb, Nat.add_zero] at hf
  exact hf

/-- A document with a text was created and deleted, and a document without elements has the block of
its toast: that index is ALIVE again, the one of the deleted document is DEAD. -/
theorem structural_allocation_again : ∃ (file : ZgdbFile RecordPos) (n t : Nat),
    Reaches recordEnv (fun file call => call.Structural ∧ call.Unexpanded file) file ∧
      Live file t ∧ Dead file n ∧ (∀ k < file.header.indexCount, ∃! c, InClass file k c) ∧
      Filled file (sizeofZgdbHeader + file.header.indexCount * sizeofZgdbIndex) := by
  obtain ⟨file, n, own', -, hown, h⟩ := create_delete recordEnv oneText_built (by decide)
  obtain ⟨t, rfl⟩ := hown (by decide)
  obtain ⟨new, hzero, hfree⟩ := h.freeList
  have hdoc : docSize oneText = 106 := by decide
  have htoast : toastRequest oneText + sizeofToast = 124 := by decide
  rw [hdoc, htoast] at hfree
  have hsmaller : ∀ x ∈ (⟨n, 106⟩ : Node) :: new, x.blockSize < 124 := by
    intro x hx
    rcases List.mem_cons.mp hx with rfl | hx
    · exact (by decide : 106 < 124)
    · exact hzero x hx ▸ (by decide : 0 < 124)
  obtain ⟨file', hcreated⟩ := h.createAgain (m := ⟨t, 124⟩)
    (hfree.trans (List.Perm.swap ⟨t, 124⟩ ⟨n, 106⟩ new)) hsmaller (by decide : 80 ≤ 124)
  obtain ⟨es, own, hi⟩ := hcreated.inserted
  have hreach : Reaches recordEnv (fun file call => call.Structural ∧ call.Unexpanded file) file' :=
    (h.reach.mono fun _ _ hc => hc.2).snoc hcreated.legal ⟨trivial, hcreated.unexpanded⟩
      hcreated.exec
  refine ⟨file', n, t, hreach, hi.store.live_iff.mpr (by simp [Forest.insertUnder]), ?_,
    structural_allocation hreach⟩
  have hplaced := hcreated.allocated.placed
  have hn : (⟨n, 106⟩ : Node) ∈ file.freeList.nodes := hfree.mem_iff.mpr List.mem_cons_self
  have hnt : n ≠ t := by
    have hnodup := (hfree.map Node.indexOrder).nodup_iff.mp hplaced.nodup
    rintro rfl
    simp at hnodup
  obtain ⟨hlt, ⟨hz, -⟩ | ⟨-, hf, -⟩⟩ := hplaced.node _ hn
  · cases hz
  · refine ⟨hcreated.allocated.attached.indexCount ▸ hlt, ?_⟩
    rw [hcreated.allocated.attached.other n hnt]
    exact hf


end Records

end Zgdb
