/-
# When an expansion preserves the store

`expandIndexes` does what it should (`ExpandsWell`) exactly when every block that it has to move
is full: a document that was put into a larger block is moved with `size` bytes, and the loop goes
on inside the block it has left (`expandIndexes_preserves`).

With this expansion, a run whose creations find full blocks behind the table is clean, and a
creation of this kind that follows it is served (`creations_expand`).
-/
import Zgdb.Allocation
import Zgdb.ExpandIndexes

namespace Zgdb

open Zgdb.Lib AddrSpace

/-! ## 1. What is expected

`ExpandsWell` is the result and the way to it: not only should the store be preserved, the loop
should read its sizes from headers and not from other bytes. -/

/-- One more iteration. -/
def Iterates (s t : ExpandState) : Prop :=
  s.currentFreeSize < expandReqSize ∧ expandStep s = some t

/-- What an expansion should leave: blocks that fill the data area again, each with its flag and its
bytes, and more indices, which are NEW and in the free list. -/
structure Preserved (file file' : ZgdbFile Nat) : Prop where
  tiled : Tiled file'
  flag : ∀ k < file.header.indexCount, (file'.indexes k).flag = (file.indexes k).flag
  agrees : ∀ k, Used file k → Agrees file file' k (blockCapacity file k)
  more : file.header.indexCount + addedIndexes ≤ file'.header.indexCount
  added : ∀ k, file.header.indexCount ≤ k → k < file'.header.indexCount → InClass file' k .new

/-- The expansion ends, each of its iterations is at the start of a block, and the store is
preserved.  An iteration that begins inside a block reads the type, the size and the index there
from bytes that are none of these. -/
structure ExpandsWell (file : ZgdbFile Nat) : Prop where
  starts : ∀ s, Relation.ReflTransGen Iterates (expandStart file) s →
    s.currentFreeSize < expandReqSize →
      ∃ k, Used s.file k ∧ (s.file.indexes k).offset = s.nextBlock
  preserved : ∃ file', expandIndexes file = some file' ∧ Preserved file file'

/-- The block can be moved: it is full, and with it the free bytes fit into an `int`.  A document is
moved with `size` bytes and not with its capacity, so the rest of a larger block would be taken for
the next one; the cast to `int` decides how many indices are made of the free bytes. -/
def Movable (file : ZgdbFile Nat) (k : Nat) : Prop :=
  (IsDocument file k → (getDocumentHeader file k).size = (getDocumentHeader file k).capacity) ∧
    (file.indexes k).offset + blockCapacity file k < tableEnd file.header + 2 ^ 31

/-! ## 2. The loop over full blocks

The blocks that the table grows over are moved to the end of the file, one after the other.  While
each of them is full the next one begins where the last one ended. -/

/-- The blocks that the loop will come to are full, and the free bytes fit into an `int`. -/
structure Sliding (file : ZgdbFile Nat) (s : ExpandState) (ks : List Nat) : Prop
    extends Moving file s ks where
  nonempty : ks ≠ []
  fits : ∀ k ∈ ks, (s.file.indexes k).offset < tableEnd file.header + expandReqSize →
    stride file k = blockCapacity file k ∧
      (s.file.indexes k).offset + blockCapacity file k < tableEnd file.header + 2 ^ 31
  bound : s.currentFreeSize < 2 ^ 31

section Loop

variable {file : ZgdbFile Nat} {s t : ExpandState} {ks : List Nat}

/-- **One iteration over full blocks.** -/
theorem Sliding.step (h : Sliding file s ks) (hf : Tiled file)
    (hlt : s.currentFreeSize < expandReqSize) :
    ∃ t ks', expandStep s = some t ∧ s.currentFreeSize < t.currentFreeSize
      ∧ Sliding file t ks' := by
  obtain ⟨k, rest, rfl⟩ := List.exists_cons_of_ne_nil h.nonempty
  have hfree := h.free
  have hoff := h.offset
  obtain ⟨hfull, hk31⟩ := h.fits k List.mem_cons_self (by omega)
  obtain ⟨t, hstep, hnext, hstay, hself, hm⟩ := h.toMoving.step hf hfull
  have hpos := hf.capacity_pos ((h.used k).mp List.mem_cons_self)
  have hfree' := hm.free
  refine ⟨t, rest ++ [k], hstep, by omega, hm, by simp, fun j hj hzone => ?_, by omega⟩
  rcases List.mem_append.mp hj with hj | hj
  · rw [hstay j hj] at hzone ⊢
    exact h.fits j (List.mem_cons_of_mem _ hj) hzone
  · -- the block comes round again: everything lies below the bytes that are asked for
    obtain rfl := List.mem_singleton.mp hj
    rw [hself] at hzone ⊢
    have hin := (h.tiles.le.2 j List.mem_cons_self).2
    have hreq : expandReqSize = 1800000 := rfl
    exact ⟨hfull, by omega⟩

/-- **The loop over full blocks ends.** -/
theorem Sliding.loop (h : Sliding file s ks) (hf : Tiled file) {fuel : Nat}
    (hfuel : expandReqSize - s.currentFreeSize < fuel) :
    ∃ t ks', expandLoop fuel s = some t ∧ expandReqSize ≤ t.currentFreeSize ∧
      Sliding file t ks' := by
  induction fuel generalizing s ks with
  | zero => omega
  | succ fuel ih =>
    rw [expandLoop]
    split
    · rename_i hlt
      obtain ⟨t, ks', hstep, hmore, ht⟩ := h.step hf hlt
      rw [hstep]
      exact ih ht (by omega)
    · rename_i hge
      exact ⟨s, ks, rfl, by omega, h⟩

/-- Every state of the loop is over full blocks. -/
theorem Sliding.iterates (h : Sliding file s ks) (hf : Tiled file)
    (hrun : Relation.ReflTransGen Iterates s t) : ∃ ks', Sliding file t ks' := by
  induction hrun with
  | refl => exact ⟨ks, h⟩
  | tail _ hstep ih =>
    obtain ⟨ks', h'⟩ := ih
    obtain ⟨u, ks'', hu, -, hs⟩ := h'.step hf hstep.1
    obtain rfl := Option.some.inj (hu.symm.trans hstep.2)
    exact ⟨ks'', hs⟩

/-- An iteration over full blocks is at the start of one. -/
theorem Sliding.starts (h : Sliding file s ks) :
    ∃ k, Used s.file k ∧ (s.file.indexes k).offset = s.nextBlock := by
  obtain ⟨k, rest, rfl⟩ := List.exists_cons_of_ne_nil h.nonempty
  exact ⟨k, h.used_iff.mpr ((h.used k).mp List.mem_cons_self), h.offset⟩

end Loop

/-! ## 3. The new indices

The free bytes are cast to `int` and divided by the size of an entry.  What is left over stays
between the table and the data, and is used by the next expansion. -/

section Indices

variable {file file' : ZgdbFile Nat} {s : ExpandState} {ks : List Nat}

/-- The tables when `n` indices have been made of the free bytes. -/
structure Grown (s : ExpandState) (file' : ZgdbFile Nat) (n rem : Nat) : Prop where
  header : file'.header = { s.file.header with
    indexCount := s.file.header.indexCount + n, betweenSpace := rem }
  saved : file'.saved = file'.header
  indexes : ∀ k, file'.indexes k =
    if s.file.header.indexCount ≤ k ∧ k < s.file.header.indexCount + n then ⟨.new, 0⟩
    else s.file.indexes k
  freeList : file'.freeList
    = (List.range' s.file.header.indexCount n).foldl insertNewIndex s.file.freeList
  mem : file'.mem = s.file.mem

theorem Grown.old {n rem k : Nat} (h : Grown s file' n rem) (hk : k < s.file.header.indexCount) :
    file'.indexes k = s.file.indexes k := by
  rw [h.indexes, if_neg (by omega)]

/-- No block is made of the free bytes. -/
theorem Grown.used_iff {n rem k : Nat} (h : Grown s file' n rem) :
    Used file' k ↔ Used s.file k := by
  have hcount : file'.header.indexCount = s.file.header.indexCount + n := by rw [h.header]
  unfold Used Alive Dead
  rw [hcount]
  by_cases hk : k < s.file.header.indexCount
  · have hk' : k < s.file.header.indexCount + n := by omega
    rw [h.old hk]
    simp only [hk, hk']
  · simp only [hk, false_and, or_self, iff_false]
    rintro (⟨hk', hflag⟩ | ⟨hk', hflag⟩) <;>
    · rw [h.indexes, if_pos ⟨Nat.le_of_not_lt hk, hk'⟩] at hflag
      cases hflag

theorem useFreeSize_some {file' : ZgdbFile Nat} (h : useFreeSize s = some file') :
    Grown s file' ((Int32.ofNat s.currentFreeSize).toInt.tdiv sizeofZgdbIndex).toNat
      ((Int32.ofNat s.currentFreeSize).toInt.tmod sizeofZgdbIndex % 256).toNat := by
  unfold useFreeSize at h
  simp only at h
  split at h
  · cases h
  · obtain rfl := Option.some.inj h
    exact ⟨rfl, rfl, fun k => rfl, rfl, rfl⟩

/-- Free bytes that fit into an `int`. -/
theorem useFreeSize_eq (h : s.currentFreeSize < 2 ^ 31) :
    ∃ file', useFreeSize s = some file' ∧
      Grown s file' (s.currentFreeSize / sizeofZgdbIndex)
        (s.currentFreeSize % sizeofZgdbIndex) := by
  have hcast : (Int32.ofNat s.currentFreeSize).toInt = s.currentFreeSize :=
    Int32.toInt_ofNat_of_lt h
  have hquot : (s.currentFreeSize : Int).tdiv sizeofZgdbIndex
      = (s.currentFreeSize / sizeofZgdbIndex : Nat) := rfl
  have hrem : (((s.currentFreeSize : Int).tmod sizeofZgdbIndex) % 256).toNat
      = s.currentFreeSize % sizeofZgdbIndex := by
    have hlt : s.currentFreeSize % 9 < 9 := Nat.mod_lt _ (by decide)
    show (((s.currentFreeSize % 9 : Nat) : Int) % 256).toNat = s.currentFreeSize % 9
    omega
  have hneg : ¬ ((s.currentFreeSize / sizeofZgdbIndex : Nat) : Int) < 0 :=
    Int.not_lt.mpr (Int.natCast_nonneg _)
  cases hrun : useFreeSize s with
  | none =>
    unfold useFreeSize at hrun
    simp only [hcast, hquot, if_neg hneg] at hrun
    cases hrun
  | some file' =>
    have hg := useFreeSize_some hrun
    rw [hcast, hquot, hrem, Int.toNat_natCast] at hg
    exact ⟨file', rfl, hg⟩

/-- What is taken for free fits into an `int` whatever is free. -/
theorem useFreeSize_lt {file' : ZgdbFile Nat} (h : useFreeSize s = some file') :
    dataStart file'.header < tableEnd s.file.header + 2 ^ 31 := by
  have hg := useFreeSize_some h
  have hlo := (Int32.ofNat s.currentFreeSize).le_toInt
  have hhi := (Int32.ofNat s.currentFreeSize).toInt_lt
  generalize (Int32.ofNat s.currentFreeSize).toInt = c at hg hlo hhi
  have hsum : (c.tdiv sizeofZgdbIndex).toNat * 9 + (c.tmod sizeofZgdbIndex % 256).toNat
      < 2 ^ 31 := by
    show (c.tdiv 9).toNat * 9 + (c.tmod 9 % 256).toNat < 2 ^ 31
    have hdiv := Int.tmod_add_mul_tdiv c 9
    have hlo9 := Int.lt_tmod_of_pos c (by decide : (0 : Int) < 9)
    have hhi9 := Int.tmod_lt_of_pos c (by decide : (0 : Int) < 9)
    rcases lt_or_ge c 0 with hc | hc
    · omega
    · have hr := Int.tmod_nonneg 9 hc
      omega
  rw [dataStart, hg.header]
  simp only [tableEnd, sizeofZgdbIndex] at hsum ⊢
  omega

/-- **The new indices** are NEW, and each has one node in the free list. -/
theorem Grown.added {n rem : Nat} (h : Grown s file' n rem)
    (hfree : ∀ m ∈ s.file.freeList.nodes, m.indexOrder < s.file.header.indexCount) {k : Nat}
    (h1 : s.file.header.indexCount ≤ k) (h2 : k < s.file.header.indexCount + n) :
    InClass file' k .new := by
  refine ⟨by rw [h.indexes, if_pos ⟨h1, h2⟩], ?_⟩
  have hperm := (perm_foldl_insertNewIndex s.file.freeList
    (List.range' s.file.header.indexCount n)).filter (·.indexOrder = k)
  rw [← h.freeList, List.filter_append] at hperm
  have hold : s.file.freeList.nodes.filter (·.indexOrder = k) = [] :=
    List.filter_eq_nil_iff.mpr fun m hm he => by
      have := hfree m hm
      have := of_decide_eq_true he
      omega
  have hnew : ((List.range' s.file.header.indexCount n).map fun k => (⟨k, 0⟩ : Node)).filter
      (·.indexOrder = k) = [⟨k, 0⟩] := by
    refine filter_key_eq (f := Node.indexOrder) (x := ⟨k, 0⟩) ?_ ?_
    · simpa [Function.comp_def] using List.nodup_range'
    · exact List.mem_map_of_mem (List.mem_range'_1.mpr ⟨h1, h2⟩)
  rw [hold, hnew, List.append_nil] at hperm
  exact List.perm_singleton.mp hperm

/-- **The blocks as the loop leaves them**, in the grown tables. -/
theorem Moving.preserved (h : Moving file s ks) (hf : Tiled file)
    (hreq : expandReqSize ≤ s.currentFreeSize)
    (hg : Grown s file' (s.currentFreeSize / sizeofZgdbIndex)
      (s.currentFreeSize % sizeofZgdbIndex)) : Preserved file file' := by
  have hcount : s.file.header.indexCount = file.header.indexCount := by rw [h.header]
  have hspace : file'.header.betweenSpace = s.currentFreeSize % sizeofZgdbIndex := by rw [hg.header]
  have hcount' : file'.header.indexCount
      = file.header.indexCount + s.currentFreeSize / sizeofZgdbIndex := by
    rw [hg.header, ← hcount]
  have hmore : addedIndexes ≤ s.currentFreeSize / sizeofZgdbIndex :=
    (Nat.le_div_iff_mul_le (by decide)).mpr hreq
  have hold : ∀ k < file.header.indexCount, file'.indexes k = s.file.indexes k := fun k hk =>
    hg.old (hcount ▸ hk)
  have hused : ∀ k, Used file' k ↔ Used file k := fun k => hg.used_iff.trans h.used_iff
  have hat : ∀ k, Used file k → blockAt file' k = blockAt s.file k := by
    intro k hk
    funext d
    rw [blockAt, blockAt, blockPos_nat ((hused k).mpr hk).lt, blockPos_nat (h.used_iff.mpr hk).lt,
      hold k hk.lt, hg.mem]
  have hblock : ∀ k, Used file k → (IsDocument file' k ∨ IsToast file' k) ∧
      blockCapacity file' k = blockCapacity file k := by
    intro k hk
    obtain ⟨hb, -, hcap⟩ := h.block hf hk
    rw [isDocument_congr (hat k hk), isToast_congr (hat k hk), blockCapacity_congr (hat k hk)]
    exact ⟨hb, hcap⟩
  refine ⟨⟨⟨ks, h.nodup, fun k => (h.used k).trans (hused k).symm, ?_⟩,
    fun k hk => (hblock k ((hused k).mp hk)).1, fun n hn => ?_, ?_⟩, fun k hk => ?_, fun k hk => ?_,
    by omega, fun k h1 h2 => ?_⟩
  · have hstart : dataStart file'.header = s.nextBlock := by
      have hfree := h.free
      have hdiv := Nat.div_add_mod s.currentFreeSize 9
      rw [dataStart, hcount', hspace]
      simp only [tableEnd, sizeofZgdbIndex] at hfree ⊢
      omega
    have hsize : file'.header.fileSize = s.file.header.fileSize := by rw [hg.header]
    rw [hstart, hsize]
    refine h.tiles.congr ?_
    intro k hk
    have hk' := (h.used k).mp hk
    exact ⟨by rw [hold k hk'.lt], (hblock k hk').2⟩
  · rw [hg.freeList, h.freeList] at hn
    rcases List.mem_append.mp ((perm_foldl_insertNewIndex _ _).mem_iff.mp hn) with hn | hn
    · obtain ⟨k, hk, rfl⟩ := List.mem_map.mp hn
      have hlt := (List.mem_range'_1.mp hk).2
      rw [hcount, ← hcount'] at hlt
      exact hlt
    · have := hf.free n hn
      omega
  · rw [hspace]
    exact lt_trans (Nat.mod_lt _ (by decide)) (by decide)
  · rw [hold k hk, h.flag]
  · intro d hd
    rw [hat k hk]
    exact h.agrees k hk d hd
  · refine hg.added ?_ (by omega) (by omega)
    intro m hm
    rw [h.freeList] at hm
    rw [hcount]
    exact hf.free m hm

end Indices

/-! ## 4. The exact condition

For the converse the loop is followed up to the first block that is not full.  It goes on inside
that block, where it reads what it takes for a header, or the file ends there. -/

section Exact

variable {file : ZgdbFile Nat} {s t : ExpandState} {ks pre post : List Nat} {k : Nat}

theorem Tiled.full_iff (h : Tiled file) (hk : Used file k) :
    stride file k = blockCapacity file k ↔
      (IsDocument file k →
        (getDocumentHeader file k).size = (getDocumentHeader file k).capacity) := by
  rcases h.block k hk with hd | ht
  · rw [hd.stride, hd.capacity]
    exact ⟨fun h _ => h, fun h => h hd⟩
  · exact iff_of_true ht.stride fun hd => absurd ht hd.not_isToast

/-- The loop goes on from where it has come to. -/
theorem expandLoop_of_iterates (h : Relation.ReflTransGen Iterates s t) {fuel : Nat}
    {r : ExpandState} (hr : expandLoop fuel s = some r) : ∃ fuel', expandLoop fuel' t = some r := by
  induction h with
  | refl => exact ⟨fuel, hr⟩
  | tail _ hstep ih =>
    obtain ⟨fuel', h'⟩ := ih
    cases fuel' with
    | zero => cases h'
    | succ fuel' =>
      rw [expandLoop, if_pos hstep.1, hstep.2] at h'
      exact ⟨fuel', h'⟩

/-- Where enough is free the expansion ends. -/
theorem expandIndexes_of_iterates (h : Relation.ReflTransGen Iterates (expandStart file) s)
    (hge : ¬ s.currentFreeSize < expandReqSize) {file' : ZgdbFile Nat}
    (hr : expandIndexes file = some file') : useFreeSize s = some file' := by
  obtain ⟨r, hloop, huse⟩ := Option.bind_eq_some_iff.mp hr
  obtain ⟨fuel, hs⟩ := expandLoop_of_iterates h hloop
  cases fuel with
  | zero => cases hs
  | succ fuel =>
    rw [expandLoop, if_neg hge] at hs
    rwa [Option.some.inj hs]

/-- **The loop comes to a block** behind full ones. -/
theorem Moving.advance (h : Moving file s (pre ++ k :: post)) (hf : Tiled file)
    (hfull : ∀ j ∈ pre, stride file j = blockCapacity file j)
    (hzone : (s.file.indexes k).offset < tableEnd file.header + expandReqSize) :
    ∃ t, Relation.ReflTransGen Iterates s t ∧ Moving file t (k :: (post ++ pre)) ∧
      (t.file.indexes k).offset = (s.file.indexes k).offset := by
  induction pre generalizing s post with
  | nil =>
    rw [List.append_nil]
    exact ⟨s, .refl, h, rfl⟩
  | cons a pre ih =>
    have hk : k ∈ pre ++ k :: post := by simp
    obtain ⟨t, hstep, -, hstay, -, hm⟩ := h.step hf (hfull a List.mem_cons_self)
    have hlt : s.currentFreeSize < expandReqSize := by
      have hfree := h.free
      have hle := (h.tiles.le.2 k (List.mem_cons_of_mem _ hk)).1
      omega
    have hm' : Moving file t (pre ++ k :: (post ++ [a])) := by simpa using hm
    rw [← hstay k hk] at hzone ⊢
    obtain ⟨u, hrun, hu, hoff⟩ :=
      ih hm' (fun j hj => hfull j (List.mem_cons_of_mem _ hj)) hzone
    rw [List.append_assoc, List.singleton_append] at hu
    exact ⟨u, .head ⟨hlt, hstep⟩ hrun, hu, hoff⟩

/-- **Behind a block that is not full** the loop loses the blocks, or the file ends in one. -/
theorem ExpandsWell.full (h : ExpandsWell file) (hf : Tiled file)
    (hrun : Relation.ReflTransGen Iterates (expandStart file) s) (hm : Moving file s (k :: ks))
    (hlt : s.currentFreeSize < expandReqSize) : stride file k = blockCapacity file k := by
  by_contra hne
  have hk : Used file k := (hm.used k).mp List.mem_cons_self
  have hshort : stride file k < blockCapacity file k := by
    have := (hf.stride_le hk).2
    omega
  have hpos := (hf.stride_le hk).1
  obtain ⟨file1, hstep, hmoved⟩ := hm.next hf
  have hrun1 := hrun.tail ⟨hlt, hstep⟩
  have hend := hm.tiles.2.le
  by_cases hgo : s.currentFreeSize + stride file k < expandReqSize
  · obtain ⟨j, hj, hoff⟩ := h.starts _ hrun1 hgo
    have hjs := (hm.used j).mpr (hm.used_iff.mp (hmoved.used_iff.mp hj))
    simp only at hoff
    by_cases hjk : j = k
    · rw [hjk, hmoved.self] at hoff
      have := hend.1
      simp only at hoff
      omega
    · rw [hmoved.other j hjk] at hoff
      have := (hend.2 j ((List.mem_cons.mp hjs).resolve_left hjk)).1
      simp only [sizeofToast] at hpos
      omega
  · obtain ⟨file', hexp, hp⟩ := h.preserved
    have huse := useFreeSize_some (expandIndexes_of_iterates hrun1 hgo hexp)
    have hle := hf.stride_le hk
    obtain ⟨-, -, hcap⟩ := stride_of_agrees (hf.block k hk) (fun hd => hd.header_le)
      (hle.1.trans hle.2) (hp.agrees k hk)
    have hk1 : Used file1 k := hmoved.used_iff.mpr (hm.used_iff.mpr hk)
    have hused' : Used file' k := huse.used_iff.mpr hk1
    have hidx : file'.indexes k = file1.indexes k := huse.old hk1.lt
    obtain ⟨ls, -, hmem, htiles⟩ := hp.tiled.tiled
    have hin := (htiles.le.2 k ((hmem k).mpr hused')).2
    rw [hcap, hidx, hmoved.self, huse.header] at hin
    simp only [hmoved.header] at hin
    omega

/-- **Free bytes that do not fit into an `int`** leave the data area in front of the blocks. -/
theorem ExpandsWell.bound (h : ExpandsWell file) (hf : Tiled file)
    (hrun : Relation.ReflTransGen Iterates (expandStart file) s) (hm : Moving file s (k :: ks))
    (hlt : s.currentFreeSize < expandReqSize) :
    s.nextBlock + blockCapacity file k < tableEnd file.header + 2 ^ 31 := by
  by_contra hge
  obtain ⟨t, hstep, hnext, -, -, ht⟩ := hm.step hf (h.full hf hrun hm hlt)
  have hfree := ht.free
  have hreq : expandReqSize = 1800000 := rfl
  obtain ⟨file', hexp, hp⟩ := h.preserved
  have huse := expandIndexes_of_iterates (hrun.tail ⟨hlt, hstep⟩) (by omega) hexp
  have hstart := useFreeSize_lt huse
  have hheader : tableEnd t.file.header = tableEnd file.header := by
    rw [ht.header]
    rfl
  rw [hheader] at hstart
  have hgrown := useFreeSize_some huse
  have hk : Used file k := (hm.used k).mp List.mem_cons_self
  obtain ⟨ls, -, hmem, htiles⟩ := hp.tiled.tiled
  have hkls : k ∈ ls := (hmem k).mpr (hgrown.used_iff.mpr (ht.used_iff.mpr hk))
  -- the first block of the data area lies further behind than the data area begins
  obtain ⟨j, rest, rfl⟩ := List.exists_cons_of_ne_nil (List.ne_nil_of_mem hkls)
  have hj : Used t.file j := hgrown.used_iff.mp ((hmem j).mp List.mem_cons_self)
  have hoff := htiles.1
  rw [hgrown.old hj.lt] at hoff
  have hle := (ht.tiles.le.2 j ((ht.used j).mpr (ht.used_iff.mp hj))).1
  omega

/-- **An expansion that preserves the store** has only moved blocks that can be moved. -/
theorem ExpandsWell.movable (h : ExpandsWell file) (hf : Tiled file) :
    (∃ k, Used file k) ∧ ∀ k, Used file k →
      (file.indexes k).offset < tableEnd file.header + expandReqSize → Movable file k := by
  have hreq : expandReqSize = 1800000 := rfl
  obtain ⟨ks, hstart⟩ := Moving.start hf
  have hspace : (expandStart file).currentFreeSize < expandReqSize := by
    have := hf.space
    rw [hreq]
    exact lt_trans this (by decide)
  obtain ⟨k0, hk0, -⟩ := h.starts _ .refl hspace
  refine ⟨⟨k0, hk0⟩, ?_⟩
  have hreach : ∀ n pre k post, pre.length = n → ks = pre ++ k :: post →
      (file.indexes k).offset < tableEnd file.header + expandReqSize →
      ∃ s, Relation.ReflTransGen Iterates (expandStart file) s ∧
        Moving file s (k :: (post ++ pre)) ∧ s.nextBlock = (file.indexes k).offset ∧
        s.currentFreeSize < expandReqSize := by
    intro n
    induction n using Nat.strong_induction_on with
    | _ n ih =>
      intro pre k post hn hks hzone
      have hfull : ∀ j ∈ pre, stride file j = blockCapacity file j := by
        intro j hj
        obtain ⟨p1, p2, rfl⟩ := List.append_of_mem hj
        have htiles := hstart.tiles
        rw [hks, List.append_assoc, List.cons_append, tiles_append] at htiles
        obtain ⟨mid, -, hmid⟩ := htiles
        have hjk : (file.indexes j).offset ≤ (file.indexes k).offset := by
          have h1 := hmid.1
          have h2 := (hmid.2.le.2 k (by simp)).1
          simp only [expandStart] at h1 h2
          omega
        obtain ⟨s, hrun, hs, -, hlt⟩ := ih p1.length (by simp at hn; omega) p1 j (p2 ++ k :: post)
          rfl (by simp [hks]) (by omega)
        exact h.full hf hrun hs hlt
      obtain ⟨s, hrun, hs, hoff⟩ := (hks ▸ hstart).advance hf hfull hzone
      have hnext := hs.offset.symm.trans hoff
      have hfree := hs.free
      exact ⟨s, hrun, hs, hnext, by simp only [expandStart] at hnext; omega⟩
  intro k hk hzone
  obtain ⟨pre, post, hks⟩ := List.append_of_mem ((hstart.used k).mpr hk)
  obtain ⟨s, hrun, hs, hnext, hlt⟩ := hreach pre.length pre k post rfl hks hzone
  refine ⟨(hf.full_iff hk).mp (h.full hf hrun hs hlt), ?_⟩
  rw [← hnext]
  exact h.bound hf hrun hs hlt

/-- Blocks that can be moved before the loop. -/
theorem sliding_of_movable (hf : Tiled file) (hne : ∃ k, Used file k)
    (hmov : ∀ k, Used file k →
      (file.indexes k).offset < tableEnd file.header + expandReqSize → Movable file k) :
    ∃ ks, Sliding file (expandStart file) ks := by
  obtain ⟨k0, hk0⟩ := hne
  obtain ⟨ks, hstart⟩ := Moving.start hf
  refine ⟨ks, hstart, List.ne_nil_of_mem ((hstart.used k0).mpr hk0), ?_, ?_⟩
  · intro k hk hzone
    have hku := (hstart.used k).mp hk
    obtain ⟨hfull, h31⟩ := hmov k hku hzone
    exact ⟨(hf.full_iff hku).mpr hfull, h31⟩
  · exact lt_trans hf.space (by decide)

/-- **Blocks that can be moved** are moved, and the store is preserved. -/
theorem expandsWell_of_movable (hf : Tiled file) (hne : ∃ k, Used file k)
    (hmov : ∀ k, Used file k →
      (file.indexes k).offset < tableEnd file.header + expandReqSize → Movable file k) :
    ExpandsWell file := by
  obtain ⟨ks, hslide⟩ := sliding_of_movable hf hne hmov
  refine ⟨?_, ?_⟩
  · intro s hrun _
    obtain ⟨ks', hs⟩ := hslide.iterates hf hrun
    exact hs.starts
  · obtain ⟨t, ks', hloop, hge, ht⟩ := hslide.loop hf (by omega : _ < expandReqSize + 1)
    obtain ⟨file', huse, hg⟩ := useFreeSize_eq ht.bound
    exact ⟨file', Option.bind_eq_some_iff.mpr ⟨t, hloop, huse⟩, ht.toMoving.preserved hf hge hg⟩

/-- **Expansion** preserves the store exactly when there are blocks, and those that begin in the
bytes that it asks for can be moved.  It asks for a fixed number of bytes behind the table, so the
condition is on the blocks of the file it starts with, not on those the loop comes to.  That it is
needed follows from the first block that cannot be moved. -/
theorem expandIndexes_preserves (hf : Tiled file) :
    ExpandsWell file ↔ (∃ k, Used file k) ∧ ∀ k, Used file k →
      (file.indexes k).offset < tableEnd file.header + expandReqSize → Movable file k :=
  ⟨fun h => h.movable hf, fun h => expandsWell_of_movable hf h.1 h.2⟩

/-- **What `createDocument` relies on** holds of an expansion that moves full blocks only. -/
theorem expandIndexes_relocated {docs : List Nat} (hb : Blocks file docs)
    (hspace : file.header.betweenSpace < 2 ^ 8) (hne : ∃ k, Used file k)
    (hmov : ∀ k, Used file k →
      (file.indexes k).offset < tableEnd file.header + expandReqSize → Movable file k) :
    ∃ file', expandIndexes file = some file' ∧ Relocated file file' ∧
      file.header.indexCount + addedIndexes ≤ file'.header.indexCount := by
  have hf := hb.toTiled hspace
  obtain ⟨ks, hslide⟩ := sliding_of_movable hf hne hmov
  obtain ⟨t, ks', hloop, hge, ht⟩ := hslide.loop hf (by omega : _ < expandReqSize + 1)
  obtain ⟨file', huse, hg⟩ := useFreeSize_eq ht.bound
  have hp := ht.toMoving.preserved hf hge hg
  have hcount : t.file.header.indexCount = file.header.indexCount := by rw [ht.header]
  have hcount' : file'.header.indexCount
      = file.header.indexCount + t.currentFreeSize / sizeofZgdbIndex := by
    rw [hg.header, ← hcount]
  have hnew : ∀ k, file.header.indexCount ≤ k →
      k < file.header.indexCount + t.currentFreeSize / sizeofZgdbIndex →
      (file'.indexes k).flag = .new := fun k h1 h2 => (hp.added k h1 (by omega)).1
  refine ⟨file', Option.bind_eq_some_iff.mpr ⟨t, hloop, huse⟩, ⟨by have := hp.more; omega, hp.flag,
    fun k h1 h2 => hnew k h1 (by omega), hp.agrees, ?_, ?_⟩, hp.more⟩
  · refine hb.placed.grown hcount' ?_ hp.flag hnew ?_
    · rw [hg.freeList, hcount, ht.freeList]
    · obtain ⟨ls, hnodup, hmem, htiles⟩ := hp.tiled.tiled
      refine ⟨ls, hnodup, hmem, htiles.congr fun k hk => ⟨rfl, ?_⟩⟩
      have hk' := ht.used_iff.mp (hg.used_iff.mp ((hmem k).mp hk))
      exact (Kept.of_agrees (hb.block k hk') (hp.agrees k hk')).2.symm
  · rw [hg.header, ht.header]

end Exact

/-! ## 5. Runs that expand the table

A run whose blocks are full up to where the table grows is clean, so all results on clean runs hold
of it with the expansion of the source.  This is what ties `Relocated` in `Call.Clean` to
`expandIndexes`. -/

/-- The file with its own expansion. -/
def fileEnv : Env Nat := ⟨expandIndexes, fun _ => ⟨0, true, 0, false⟩⟩

/-- The bytes that an expansion asks for can be had: `betweenSpace` is what its `uint8_t` can hold,
and the blocks that begin there can be moved. -/
structure FullAhead (file : ZgdbFile Nat) : Prop where
  space : file.header.betweenSpace < 2 ^ 8
  movable : ∀ k, Used file k →
    (file.indexes k).offset < tableEnd file.header + expandReqSize → Movable file k

/-- A clean call, where what is asked of an expansion is asked of the store before it: a creation
that expands the table finds full blocks behind it. -/
def Call.Slides (file : ZgdbFile Nat) : Call → Prop
  | create _ _ _ schema => (needsExpansion file = true → FullAhead file) ∧
      ∀ file1, expanded expandIndexes file = some file1 →
        (schema.reqToast = true → NoSpill file1 (toastRequest schema))
  | call => call.Clean fileEnv file

/-- **The expansion of the source relocates** the blocks of a store that has full ones ahead. -/
theorem Store.expanded_relocated {file : ZgdbFile Nat} {T : Forest Nat}
    {es : Nat → List StoredElement} {own : Nat → List Nat} (hs : Store file T es own)
    (hfull : needsExpansion file = true → FullAhead file) :
    ∃ file1, expanded expandIndexes file = some file1 ∧ Relocated file file1 ∧
      2 ≤ file1.freeList.newIndexesCount ∧
      (needsExpansion file = true →
        file.header.indexCount + addedIndexes ≤ file1.header.indexCount) := by
  by_cases hn : needsExpansion file = true
  · obtain ⟨file1, he, hr, hle⟩ := expandIndexes_relocated hs.blocks (hfull hn).space
      ⟨0, .inl (hs.alive hs.root_mem)⟩ (hfull hn).movable
    have hadd : addedIndexes = 200000 := rfl
    refine ⟨file1, by rw [expanded, if_pos hn, he], hr, ?_, fun _ => hle⟩
    exact hr.placed.two_new (by omega : file.header.indexCount < _)
      (by omega : file.header.indexCount + 1 < _) (by omega) (hr.fresh _ (by omega) (by omega))
      (hr.fresh _ (by omega) (by omega))
  · refine ⟨file, expanded_of_not (by simpa using hn), Relocated.refl hs.blocks, ?_,
      fun h => absurd h hn⟩
    have hcap : indexInitialCapacity / 8 = 6250 := rfl
    rw [needsExpansion, decide_eq_true_eq] at hn
    omega

theorem Call.Slides.clean {file : ZgdbFile Nat} {call : Call} (hs : Sound file)
    (h : call.Slides file) : call.Clean fileEnv file := by
  cases call with
  | create now p name schema =>
    obtain ⟨T, es, own, hs⟩ := hs
    obtain ⟨file1, he, hr, -⟩ := hs.expanded_relocated h.1
    intro file1' he'
    obtain rfl := Option.some.inj (he.symm.trans he')
    exact ⟨hr, h.2 _ he⟩
  | _ => exact h

/-- **Such a run is clean.** -/
theorem Reaches.clean_of_slides {file : ZgdbFile Nat}
    (h : Reaches fileEnv (fun file call => call.Slides file) file) :
    Reaches fileEnv (Call.Clean fileEnv) file ∧ Sound file := by
  obtain ⟨now, calls, hrun⟩ := h
  induction hrun with
  | nil => exact ⟨Reaches.new now, _, _, _, init_store⟩
  | snoc _ hcall he ih =>
    have hclean := hcall.2.clean ih.2
    exact ⟨ih.1.snoc hcall.1 hclean he, exec_sound ih.2 hcall.1 hclean he⟩

/-- **Creations that expand the table.**  With the expansion of the source, runs whose creations
find full blocks behind the table are clean, and a legal creation of this kind is served after
them: it leaves a clean state, and when it had to expand the table there are more indices. -/
theorem creations_expand {file : ZgdbFile Nat}
    (h : Reaches fileEnv (fun file call => call.Slides file) file) {now : UInt32} {p : Nat}
    {name : Name} {schema : DocumentSchema} (hl : (Call.create now p name schema).Legal file)
    (hslides : (Call.create now p name schema).Slides file) :
    ∃ file', createDocument expandIndexes now file name schema (documentAt file p 0)
        = some (.createOk, file') ∧
      Reaches fileEnv (Call.Clean fileEnv) file' ∧ Sound file' ∧
      (needsExpansion file = true →
        file.header.indexCount + addedIndexes ≤ file'.header.indexCount) := by
  obtain ⟨hreach, hsound⟩ := h.clean_of_slides
  have hclean := hslides.clean hsound
  have hsound' := hsound
  obtain ⟨T, es, own, hs⟩ := hsound
  obtain ⟨file1, he, hr, hnew, hmore⟩ := hs.expanded_relocated hslides.1
  obtain ⟨file', hrun⟩ : ∃ file', createDocument expandIndexes now file name schema
      (documentAt file p 0) = some (.createOk, file') :=
    createDocument_isSome hl.2.2 he (hr.blocks hs.blocks).placed.sound hnew
  have hexec : (Call.create now p name schema).exec fileEnv file = some file' := by
    simp [Call.exec, fileEnv, hrun]
  obtain ⟨n, own', -, halloc⟩ := exec_create hs hl hclean hexec
  obtain ⟨file2, m, -, ha⟩ := halloc file1 he
  refine ⟨file', hrun, hreach.snoc hl hclean hexec, exec_sound hsound' hl hclean hexec,
    fun hn => ?_⟩
  rw [ha.extended.indexCount]
  exact hmore hn

/-! ## 6. Samples

Documents without elements are created until the table has to be expanded, and once more.  Then a
smaller document is put into a larger block, and the next expansion loses it. -/

section Samples

/-- Without DEAD indices every block is in use. -/
theorem Undead.alive {file : ZgdbFile Nat} {cap : Nat → Nat} (h : Undead file)
    (hp : Placed file cap) {k : Nat} (hk : Used file k) : Alive file k := by
  rcases hk with hk | ⟨hlt, hf⟩
  · exact hk
  · rcases hp.free k hlt with ha | ⟨x, hx, rfl⟩
    · rw [hf] at ha
      cases ha
    · rcases (hp.node x hx).2 with ⟨-, hnew⟩ | ⟨hpos, -⟩
      · rw [hf] at hnew
        cases hnew
      · have := h x hx
        omega

/-- A store in which documents without elements have been created, and nothing else. -/
structure Plain (file : ZgdbFile Nat) (T : Forest Nat) : Prop where
  run : Reaches fileEnv (fun file call => call.Slides file) file
  store : ∃ es own, Store file T es own ∧ ∀ k ∈ T.nodes, es k = []
  undead : Undead file
  alive : ∀ k, Alive file k → k ∈ T.nodes
  capacity : ∀ k ∈ T.nodes, blockCapacity file k = sizeofDocumentHeader
  fileSize : file.header.fileSize = rootOffset + sizeofDocumentHeader * T.nodes.length
  indexCount : file.header.indexCount = indexInitialCapacity
  betweenSpace : file.header.betweenSpace = 0

theorem Plain.new : Plain (init 0) rootTree where
  run := Reaches.new 0
  store := ⟨_, _, init_store, fun _ _ => rfl⟩
  undead := (init_undead 0).1
  alive k hk := by simp [init_alive.mp hk]
  capacity k hk := by
    obtain rfl : k = 0 := by simpa using hk
    have hroot : IsDocument (init 0 : ZgdbFile Nat) 0 ∧ _ := init_root
    exact hroot.2.2
  fileSize := by rw [init_header]; rfl
  indexCount := by rw [init_header]; rfl
  betweenSpace := by rw [init_header]; rfl

/-- One more document under the root. -/
theorem Plain.create {file : ZgdbFile Nat} {T : Forest Nat} (h : Plain file T)
    (hexp : needsExpansion file = false) :
    ∃ file' T', Plain file' T' ∧ T'.nodes.length = T.nodes.length + 1 := by
  obtain ⟨es, own, hs, hplain⟩ := h.store
  have hroom : indexInitialCapacity / 8 < file.freeList.newIndexesCount := by
    simpa [needsExpansion] using hexp
  have hl : (Call.create 0 0 keyA (initSchema 0)).Legal file :=
    ⟨hs.live_iff.mpr hs.root_mem, noElements_built, rfl⟩
  obtain ⟨-, file', n, own', hrun, hi, hend⟩ := create_undead fileEnv hs h.undead hroom hl
  have hexec : (Call.create 0 0 keyA (initSchema 0)).exec fileEnv file = some file' := by
    rw [Call.exec, hrun]
    rfl
  obtain ⟨rfl, hoff⟩ := hend.noText rfl
  have hperm := Forest.perm_nodes_insertUnder (x := n) hs.nodup hs.root_mem
  have hused : ∀ k ∈ T.nodes, Used file k := fun k hk => .inl (hs.alive hk)
  have hdoc : docSize (initSchema 0) = sizeofDocumentHeader := rfl
  refine ⟨file', T.insertUnder 0 n, ?_, hperm.length_eq⟩
  constructor
  · exact h.run.snoc hl
      ⟨fun hn => absurd (hexp.symm.trans hn) Bool.false_ne_true, fun _ _ hreq => by cases hreq⟩
        hexec
  · refine ⟨_, _, hi.store, fun k hk => ?_⟩
    rcases List.mem_cons.mp (hperm.mem_iff.mp hk) with rfl | hk
    · rw [Function.update_self]
      rfl
    · have hkn : k ≠ n := fun he => hi.fresh (he ▸ hk)
      rw [Function.update_of_ne hkn]
      exact hplain k hk
  · exact hend.undead
  · intro k hk
    rcases (hi.alive k).mp hk with rfl | hk | hk
    · exact hperm.mem_iff.mpr List.mem_cons_self
    · cases hk
    · exact hperm.mem_iff.mpr (List.mem_cons_of_mem _ (h.alive k hk))
  · intro k hk
    rcases List.mem_cons.mp (hperm.mem_iff.mp hk) with rfl | hk
    · exact hend.docCapacity
    · rw [hend.tables.capacity k (hused k hk), h.capacity k hk]
  · rw [hend.fileEnd, hoff, h.fileSize, hperm.length_eq, List.length_cons, hdoc, Nat.mul_succ,
      Nat.add_assoc]
  · exact hend.tables.indexCount.trans h.indexCount
  · exact hend.tables.betweenSpace.trans h.betweenSpace

/-- **Creations go on until the table has to be expanded**: there are only so many indices. -/
theorem create_until_full : ∃ file T, Plain file T ∧ needsExpansion file = true := by
  by_contra hnone
  have hmore : ∀ n, ∃ file T, Plain file T ∧ T.nodes.length = n + 1 := by
    intro n
    induction n with
    | zero => exact ⟨_, _, Plain.new, rfl⟩
    | succ n ih =>
      obtain ⟨file, T, h, hlen⟩ := ih
      have hexp : needsExpansion file = false := by
        by_contra hexp
        exact hnone ⟨file, T, h, by simpa using hexp⟩
      obtain ⟨file', T', h', hlen'⟩ := h.create hexp
      exact ⟨file', T', h', by omega⟩
  obtain ⟨file, T, h, hlen⟩ := hmore indexInitialCapacity
  obtain ⟨es, own, hs, -⟩ := h.store
  have hle := length_le_of_lt hs.nodup fun k hk => (hs.alive hk).1
  rw [h.indexCount] at hle
  omega

/-- All of its blocks can be moved. -/
theorem Plain.movable {file : ZgdbFile Nat} {T : Forest Nat} (h : Plain file T) {k : Nat}
    (hk : Used file k) : Movable file k := by
  obtain ⟨es, own, hs, hplain⟩ := h.store
  have hkT := h.alive k (h.undead.alive hs.blocks.placed hk)
  have hcap := h.capacity k hkT
  have hle := length_le_of_lt hs.nodup fun j hj => (hs.alive hj).1
  refine ⟨fun _ => ?_, ?_⟩
  · rw [(hs.doc k hkT).size, hplain k hkT, ← (hs.isDocument hkT).capacity, hcap]
    rfl
  · obtain ⟨ls, -, hmem, htiles⟩ := hs.blocks.placed.tiled
    have hin := (htiles.le.2 k ((hmem k).mpr hk)).2
    have hsize : sizeofDocumentHeader = 80 := rfl
    rw [h.fileSize, hsize] at hin
    rw [h.indexCount] at hle
    have hstart : tableEnd file.header = rootOffset := by
      rw [tableEnd, h.indexCount]
      rfl
    have hinit : indexInitialCapacity = 50000 := rfl
    omega

/-- **An expansion that is needed**: a run whose next creation expands the table, and an expansion
that preserves the store. -/
theorem expansion_needed : ∃ file : ZgdbFile Nat,
    Reaches fileEnv (Call.Clean fileEnv) file ∧ needsExpansion file = true ∧ ExpandsWell file := by
  obtain ⟨file, T, h, hexp⟩ := create_until_full
  obtain ⟨es, own, hs, -⟩ := h.store
  have hf := hs.blocks.toTiled (by rw [h.betweenSpace]; decide)
  exact ⟨file, h.run.clean_of_slides.1, hexp, (expandIndexes_preserves hf).mpr
    ⟨⟨0, .inl (hs.alive hs.root_mem)⟩, fun _ hk _ => h.movable hk⟩⟩

/-- **The creation that expands** the table of such a store. -/
theorem creations_expand_plain : ∃ file file' : ZgdbFile Nat, needsExpansion file = true ∧
    createDocument expandIndexes 0 file keyA (initSchema 0) (documentAt file 0 0)
        = some (.createOk, file') ∧
      file.header.indexCount + addedIndexes ≤ file'.header.indexCount := by
  obtain ⟨file, T, h, hexp⟩ := create_until_full
  obtain ⟨es, own, hs, -⟩ := h.store
  have hl : (Call.create 0 0 keyA (initSchema 0)).Legal file :=
    ⟨hs.live_iff.mpr hs.root_mem, noElements_built, rfl⟩
  have hslides : (Call.create 0 0 keyA (initSchema 0)).Slides file :=
    ⟨fun _ => ⟨by rw [h.betweenSpace]; decide, fun _ hk _ => h.movable hk⟩,
      fun _ _ hreq => by cases hreq⟩
  obtain ⟨file', hrun, -, -, hmore⟩ := creations_expand h.run hl hslides
  exact ⟨file, file', hexp, hrun, hmore hexp⟩

/-- A schema of one number. -/
def oneInt : DocumentSchema := (addIntToSchema (initSchema 1) keyA 0).2

theorem oneInt_built : oneInt.Built := .int _ _ (.init 1)

/-- A document is created, deleted, and a smaller one created in its place. -/
theorem create_smaller : ∃ (file : ZgdbFile Nat) (n : Nat),
    Reaches fileEnv (Call.Clean fileEnv) file ∧ Tiled file ∧ Used file n ∧ IsDocument file n ∧
      (getDocumentHeader file n).size = 80 ∧ (getDocumentHeader file n).capacity = 98 ∧
      (file.indexes n).offset < tableEnd file.header + expandReqSize := by
  obtain ⟨file, n, own', hown, -, h⟩ := create_delete fileEnv oneInt_built (by decide)
  obtain rfl := hown (by decide)
  obtain ⟨new, hzero, hfree⟩ := h.freeList
  have hsize : docSize oneInt = 98 := by decide
  rw [hsize] at hfree
  -- the block is the one that has become free
  obtain ⟨file', hcreated⟩ := h.createAgain (m := ⟨n, 98⟩) hfree
    (fun x hx => hzero x hx ▸ (by decide : 0 < 98)) (by decide : 80 ≤ 98)
  obtain ⟨es, own, hi⟩ := hcreated.inserted
  have ha := hcreated.allocated
  have hs' := hi.store
  have hT : n ∈ (rootTree.insertUnder 0 n).nodes := by simp [Forest.insertUnder]
  have hdoc := hs'.isDocument hT
  have hcount : file'.header.indexCount = indexInitialCapacity :=
    ha.tables.indexCount.trans h.indexCount
  have hdead : Used file n := by
    obtain ⟨hlt, ⟨hz, -⟩ | ⟨-, hf, -⟩⟩ := ha.placed.node ⟨n, 98⟩ ha.mem
    · cases hz
    · exact Or.inr ⟨hlt, hf⟩
  have hreach : Reaches fileEnv (Call.Clean fileEnv) file :=
    h.reach.mono fun _ _ hc => hc.1
  refine ⟨file', n, hreach.snoc hcreated.legal hcreated.clean hcreated.exec, hs'.blocks.toTiled ?_,
    ha.tables.used n hdead, hdoc, ?_, ?_, ?_⟩
  · rw [ha.tables.betweenSpace, h.betweenSpace]
    decide
  · rw [(hs'.doc n hT).size, Function.update_self]
    rfl
  · rw [← hdoc.capacity, ha.capacity]
    rfl
  · rw [ha.tables.offset n hdead, h.offset (by decide), tableEnd, hcount]
    decide

/-- A document in a larger block is moved with its own size, and the store is not preserved. -/
theorem smaller_document_lost : ∃ file : ZgdbFile Nat,
    Reaches fileEnv (Call.Clean fileEnv) file ∧ Tiled file ∧ ¬ ExpandsWell file := by
  obtain ⟨file, n, hreach, hf, hn, hdoc, hsize, hcap, hzone⟩ := create_smaller
  refine ⟨file, hreach, hf, ?_⟩
  intro h
  have hfull := ((h.movable hf).2 n hn hzone).1 hdoc
  rw [hsize, hcap] at hfull
  cases hfull

end Samples

end Zgdb
