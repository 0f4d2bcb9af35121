/-
# Closing a store and opening it again

`finish`, and `init` on a path that exists: `writeFreelist`, `readFreeList`, `closeZgdbFile` and
`loadOrCreateZgdbFile` of `format/zgdbfile.c`.  The free list is not part of the file while the
store is open.  It is written behind the end of the data area, its two counters first and then its
nodes from `head` to `tail`; a store that is opened inserts them again, one after the other.

The two insertions treat a node by its size: one of size 0 goes to the front and counts as NEW, any
other one goes where its size belongs.  So a list in order comes back with its NEW nodes in the
opposite order and the others as they were (`reinsert_eq`).  Which node an allocation gets is
decided by the counters and the sizes alone (`allocations_eq`).
-/
import Zgdb.Lib.Sequence
import Zgdb.Fresh

namespace Zgdb

open Zgdb.Lib AddrSpace

/-! ## 1. The code

The file that is closed ends in the counters and the nodes of the list.  They are read when it is
opened, and what lies in front of them is the data. -/

/-- `sizeof(node)`, and of `freeIndexesList` as well -/
def sizeofNode : Nat := 32

/-- What is read back of a `freeIndexesList`. -/
structure ListCounters where
  indexesCount : Nat
  newIndexesCount : Nat
deriving DecidableEq, Repr

def nodeK : Kind Obj Node where
  size := sizeofNode
  wrap n := .node n.indexOrder n.blockSize
  unwrap | .node order size => some ⟨order, size⟩ | _ => none
  decode cs := ⟨leValue (slice (cs.map cellByte) 0 5), leValue (slice (cs.map cellByte) 8 8)⟩
  size_pos := by decide
  unwrap_wrap _ := rfl

def freeIndexesListK : Kind Obj ListCounters where
  size := sizeofNode
  wrap c := .freeIndexesList c.indexesCount c.newIndexesCount
  unwrap | .freeIndexesList count newCount => some ⟨count, newCount⟩ | _ => none
  decode cs := ⟨leValue (slice (cs.map cellByte) 16 5), leValue (slice (cs.map cellByte) 24 5)⟩
  size_pos := by decide
  unwrap_wrap _ := rfl

/-- A file that no one has open: the header in front, the index table, and what is behind it, with
the free list at the end. -/
structure ClosedFile where
  zgdbHeader : ZgdbHeader
  indexes : Nat → ZgdbIndex
  mem : Mem Nat Obj

def writeFreelist (file : ZgdbFile Nat) : ZgdbFile Nat :=
  let pos := file.header.fileSize
  let file := fwriteAt freeIndexesListK file pos 0
    ⟨file.freeList.indexesCount, file.freeList.newIndexesCount⟩
  { file with mem := storeAll nodeK file.mem (pos + sizeofNode) file.freeList.nodes }

/-- `closeZgdbFile`; the header in the file is the one that `saveHeader` wrote last. -/
def closeZgdbFile (file : ZgdbFile Nat) : ClosedFile :=
  let file := writeFreelist file
  ⟨file.saved, file.indexes, file.mem⟩

def finish (file : ZgdbFile Nat) : ClosedFile := closeZgdbFile file

/-- The body of the loop of `readFreeList`. -/
def reinsert (list : FreeIndexesList) (temp : Node) : FreeIndexesList :=
  if temp.blockSize = 0 then insertNewIndex list temp.indexOrder
  else insertDeadIndex list temp.indexOrder temp.blockSize

/-- `readFreeList`.  The loop counts in an `int`: with a `count` from 2^31 on it has no end that C
defines. -/
def readFreeList (file : ClosedFile) : Option FreeIndexesList :=
  let pos := file.zgdbHeader.fileSize
  let count := (load freeIndexesListK file.mem pos).indexesCount
  if 2 ^ 31 ≤ count then none
  else some ((loadAll nodeK file.mem (pos + sizeofNode) count).foldl reinsert createIndexesList)

/-- `getVersion` -/
def getVersion : UInt8 := 1

/-- The branch of `loadOrCreateZgdbFile` for a path that exists. -/
def loadZgdbFile (file : ClosedFile) : Option (ZgdbFile Nat) :=
  let header := file.zgdbHeader
  if header.zgdbType ≠ getZgdbFormat then none
  else if header.version ≠ getVersion then none
  else (readFreeList file).map fun freeList => ⟨header, header, file.indexes, freeList, file.mem⟩

/-- What `init` does to the file that `loadOrCreateZgdbFile` returns. -/
def initTables {A : Type} [BlockSpace A] (now : UInt32) (file : ZgdbFile A) : ZgdbFile A :=
  if file.header.indexCount = 0 then
    let file := createIndexes file indexInitialCapacity false
    let offset := file.header.indexCount * sizeofZgdbIndex + sizeofZgdbHeader
    let file := createRootDocument now file offset
    let file := (attachIndexToBlock file 0 offset).1
    { file with
      freeList := (List.range' 1 (indexInitialCapacity - 1)).foldl insertNewIndex file.freeList }
  else file

/-- `init` on a path that exists. -/
def reopen (now : UInt32) (file : ClosedFile) : Option (ZgdbFile Nat) :=
  (loadZgdbFile file).map (initTables now)

-- `init` is the same function on a new path
example (now : UInt32) : (init now : ZgdbFile Nat) = initTables now createZgdbFile := rfl

/-! ## 2. A list that is inserted again

The nodes come back one by one.  The DEAD ones keep their order, as they are sorted; each NEW one
goes in front of those before it. -/

/-- A list in order begins with its NEW nodes. -/
theorem Sorted.eq_append {l : List Node} (h : Sorted l) :
    l = l.filter (·.blockSize = 0) ++ l.filter (·.blockSize ≠ 0) := by
  induction l with
  | nil => rfl
  | cons x l ih =>
    obtain ⟨hx, hl⟩ := List.pairwise_cons.mp h
    by_cases h0 : x.blockSize = 0
    · simpa [h0] using ih hl
    · have hall : ∀ y ∈ l, y.blockSize ≠ 0 := by
        intro y hy
        have := hx y hy
        omega
      have hno : l.filter (·.blockSize = 0) = [] :=
        List.filter_eq_nil_iff.mpr fun y hy => by simpa using hall y hy
      have hid : l.filter (·.blockSize ≠ 0) = l :=
        List.filter_eq_self.mpr fun y hy => by simpa using hall y hy
      rw [List.filter_cons_of_neg (by simpa using h0), List.filter_cons_of_pos (by simpa using h0),
        hno, hid, List.nil_append]

/-- NEW nodes go to the front, each before the one inserted last. -/
theorem foldl_reinsert_new {news : List Node} (h : ∀ n ∈ news, n.blockSize = 0)
    (list : FreeIndexesList) : news.foldl reinsert list =
      ⟨news.reverse ++ list.nodes, list.indexesCount + news.length,
        list.newIndexesCount + news.length⟩ := by
  induction news generalizing list with
  | nil => rfl
  | cons n news ih =>
    have hn := h n List.mem_cons_self
    have hfront : reinsert list n
        = ⟨n :: list.nodes, list.indexesCount + 1, list.newIndexesCount + 1⟩ := by
      obtain ⟨order, size⟩ := n
      obtain rfl : size = 0 := hn
      obtain ⟨nodes, ic, nc⟩ := list
      cases nodes <;> simp [reinsert, insertNewIndex, insertNode]
    rw [List.foldl_cons, ih (fun x hx => h x (List.mem_cons_of_mem _ hx)), hfront]
    simp only [List.reverse_cons, List.append_assoc, List.singleton_append, List.length_cons,
      FreeIndexesList.mk.injEq, true_and]
    omega

/-- Nodes with a size that come in order go to the end. -/
theorem foldl_reinsert_dead {deads : List Node} (h : ∀ n ∈ deads, n.blockSize ≠ 0)
    (hs : Sorted deads) (list : FreeIndexesList)
    (hle : ∀ x ∈ list.nodes, ∀ n ∈ deads, x.blockSize ≤ n.blockSize) :
    deads.foldl reinsert list =
      ⟨list.nodes ++ deads, list.indexesCount + deads.length, list.newIndexesCount⟩ := by
  induction deads generalizing list with
  | nil => simp
  | cons n deads ih =>
    obtain ⟨hn, hs⟩ := List.pairwise_cons.mp hs
    have h0 := h n List.mem_cons_self
    have hend : reinsert list n
        = ⟨list.nodes ++ [n], list.indexesCount + 1, list.newIndexesCount⟩ := by
      obtain ⟨nodes, ic, nc⟩ := list
      cases nodes with
      | nil => simp [reinsert, h0, insertDeadIndex, insertNode]
      | cons x l =>
        have hhead := hle x List.mem_cons_self n List.mem_cons_self
        have hlast := hle _ (List.getLast_mem (List.cons_ne_nil x l)) n List.mem_cons_self
        have hnot : ¬ n.blockSize < x.blockSize := by omega
        simp [reinsert, h0, insertDeadIndex, insertNode, hnot, hlast]
    rw [List.foldl_cons, hend, ih (fun x hx => h x (List.mem_cons_of_mem _ hx)) hs]
    · simp only [List.append_assoc, List.singleton_append, List.length_cons,
        FreeIndexesList.mk.injEq, true_and, and_true]
      omega
    · intro x hx y hy
      rcases List.mem_append.mp hx with hx | hx
      · exact hle x hx y (List.mem_cons_of_mem _ hy)
      · rw [List.mem_singleton.mp hx]
        exact hn y hy

/-- **A list in order that is inserted again**: the NEW nodes come in the opposite order, the
others as they were, and the counters are counted anew. -/
theorem reinsert_eq {l : List Node} (h : Sorted l) : l.foldl reinsert createIndexesList =
    ⟨(l.filter (·.blockSize = 0)).reverse ++ l.filter (·.blockSize ≠ 0), l.length,
      l.countP (·.blockSize = 0)⟩ := by
  have hlen : l.length = (l.filter (·.blockSize = 0)).length
      + (l.filter (·.blockSize ≠ 0)).length := by
    rw [← List.length_append, ← h.eq_append]
  have hnew : ∀ n ∈ l.filter (·.blockSize = 0), n.blockSize = 0 := by
    intro n hn
    simpa using (List.mem_filter.mp hn).2
  have hdead : ∀ n ∈ l.filter (·.blockSize ≠ 0), n.blockSize ≠ 0 := by
    intro n hn
    simpa using (List.mem_filter.mp hn).2
  conv_lhs => rw [h.eq_append]
  rw [List.foldl_append, foldl_reinsert_new hnew,
    foldl_reinsert_dead hdead (h.sublist List.filter_sublist)]
  · simp only [createIndexesList, List.append_nil, Nat.zero_add, List.countP_eq_length_filter, hlen]
  · intro x hx n _
    have hx' : x ∈ l.filter (·.blockSize = 0) := by
      simpa [createIndexesList] using hx
    rw [hnew x hx']
    exact Nat.zero_le _

/-- The nodes with a size come back in their order. -/
theorem filter_reinsert {l : List Node} (h : Sorted l) :
    (l.foldl reinsert createIndexesList).nodes.filter (·.blockSize ≠ 0)
      = l.filter (·.blockSize ≠ 0) := by
  have hnone : (l.filter (·.blockSize = 0)).reverse.filter (·.blockSize ≠ 0) = [] := by
    refine List.filter_eq_nil_iff.mpr ?_
    intro n hn
    have hn' := (List.mem_filter.mp (List.mem_reverse.mp hn)).2
    simpa using hn'
  rw [reinsert_eq h, List.filter_append, hnone, List.nil_append, List.filter_filter]
  simp

/-- No node is lost and none is new. -/
theorem mem_reinsert {l : List Node} (h : Sorted l) {n : Node} :
    n ∈ (l.foldl reinsert createIndexesList).nodes ↔ n ∈ l := by
  rw [reinsert_eq h, List.mem_append, List.mem_reverse, ← List.mem_append, ← h.eq_append]

/-! ## 3. What allocations get

Requests see the sizes of the nodes and the counters.  So two lists of the same sizes serve the same
requests with nodes of the same sizes. -/

/-- The sizes of the blocks that a sequence of requests gets; `none` is a NULL. -/
def allocations : FreeIndexesList → List Nat → List (Option Nat)
  | _, [] => []
  | list, reqSize :: rest =>
    match findRelevantIndex list reqSize with
    | none => none :: allocations list rest
    | some (chosen, list) => some chosen.blockSize :: allocations list rest

/-- The counters are the same, and the nodes have the same sizes.  Nodes of one size may have
changed places; which sizes the allocations get depends on nothing else. -/
structure SameSizes (list list' : FreeIndexesList) : Prop where
  indexes : list'.indexesCount = list.indexesCount
  newIndexes : list'.newIndexesCount = list.newIndexesCount
  sizes : list'.nodes.map Node.blockSize = list.nodes.map Node.blockSize

section Sizes

variable {list list' : FreeIndexesList}

/-- One allocation goes the same way in both. -/
theorem SameSizes.find (h : SameSizes list list') (reqSize : Nat) :
    findRelevantIndex list reqSize = none ∧ findRelevantIndex list' reqSize = none ∨
      ∃ n rest n' rest', findRelevantIndex list reqSize = some (n, rest) ∧
        findRelevantIndex list' reqSize = some (n', rest') ∧ n'.blockSize = n.blockSize ∧
        SameSizes rest rest' := by
  obtain ⟨nodes, ic, nc⟩ := list
  obtain ⟨nodes', ic', nc'⟩ := list'
  obtain ⟨hic, hnc, hsizes⟩ := h
  simp only at hic hnc hsizes
  subst hic hnc
  cases nodes with
  | nil =>
    obtain rfl := List.map_eq_nil_iff.mp hsizes
    left
    simp [findRelevantIndex]
  | cons x l =>
    cases nodes' with
    | nil => cases hsizes
    | cons y l' =>
      have hhead : y.blockSize = x.blockSize := List.head_eq_of_cons_eq hsizes
      have htail : l'.map Node.blockSize = l.map Node.blockSize := List.tail_eq_of_cons_eq hsizes
      obtain ⟨z, hz⟩ : ∃ z, (x :: l).getLast? = some z :=
        ⟨_, List.getLast?_eq_getLast_of_ne_nil (by simp)⟩
      obtain ⟨w, hw⟩ : ∃ w, (y :: l').getLast? = some w :=
        ⟨_, List.getLast?_eq_getLast_of_ne_nil (by simp)⟩
      have hlast : w.blockSize = z.blockSize := by
        have hmap := congrArg List.getLast? hsizes
        rw [List.getLast?_map, List.getLast?_map, hz, hw] at hmap
        exact Option.some.inj hmap
      have hdrop : (y :: l').dropLast.map Node.blockSize
          = (x :: l).dropLast.map Node.blockSize := by
        rw [List.map_dropLast, List.map_dropLast, hsizes]
      unfold findRelevantIndex
      simp only [List.head?_cons, hz, hw, hlast, hhead]
      split
      · exact Or.inr ⟨_, _, _, _, rfl, rfl, hhead, rfl, rfl, rfl⟩
      · split
        · split
          · exact Or.inr ⟨_, _, _, _, rfl, rfl, hlast, rfl, rfl, rfl⟩
          · exact Or.inl ⟨rfl, rfl⟩
        · split
          · exact Or.inr ⟨_, _, _, _, rfl, rfl, hlast, rfl, rfl, hdrop⟩
          · split
            · exact Or.inr ⟨_, _, _, _, rfl, rfl, hhead, rfl, rfl, htail⟩
            · exact Or.inl ⟨rfl, rfl⟩

/-- **Every sequence of requests gets the same.** -/
theorem allocations_eq (h : SameSizes list list') (reqs : List Nat) :
    allocations list' reqs = allocations list reqs := by
  induction reqs generalizing list list' with
  | nil => rfl
  | cons reqSize rest ih =>
    rcases h.find reqSize with ⟨hn, hn'⟩ | ⟨n, m, n', m', hf, hf', hsize, hm⟩
    · simp only [allocations, hn, hn', ih h]
    · simp only [allocations, hf, hf', hsize, ih hm]

/-- A list that was written and read back. -/
theorem FreeIndexesList.Sound.reinsert_sameSizes (h : list.Sound) :
    SameSizes list (list.nodes.foldl reinsert createIndexesList) := by
  have hzero : (list.nodes.filter (·.blockSize = 0)).map Node.blockSize
      = List.replicate (list.nodes.filter (·.blockSize = 0)).length 0 := by
    refine List.eq_replicate_iff.mpr ⟨List.length_map _, ?_⟩
    intro b hb
    obtain ⟨n, hn, rfl⟩ := List.mem_map.mp hb
    simpa using (List.mem_filter.mp hn).2
  rw [reinsert_eq h.sorted]
  refine ⟨h.indexes.symm, h.newIndexes.symm, ?_⟩
  conv_rhs => rw [h.sorted.eq_append]
  rw [List.map_append, List.map_append, List.map_reverse, hzero, List.reverse_replicate]

/-- The list that is read back has its counters right. -/
theorem sound_reinsert {m : FreeIndexesList} (h : m.Sound) (l : List Node) :
    (l.foldl reinsert m).Sound := by
  induction l generalizing m with
  | nil => exact h
  | cons n l ih =>
    refine ih ?_
    unfold reinsert
    split
    · exact h.insertNewIndex _
    · exact h.insertDeadIndex _ (by omega)

end Sizes

/-! ## 4. The round trip

What `finish` writes is what `init` reads, if the number of nodes survives the cast to `int`. -/

/-- The store that was opened is the one that was closed: the header, the index table and all bytes
up to the end of the file, and a free list with the same counters, the same DEAD nodes in the same
order and the same NEW orders, from which every sequence of requests gets the same. -/
structure Restored (file file' : ZgdbFile Nat) : Prop where
  header : file'.header = file.header
  saved : file'.saved = file'.header
  indexes : file'.indexes = file.indexes
  bytes : ∀ a < file.header.fileSize, file'.mem a = file.mem a
  sound : file'.freeList.Sound
  counters : file'.freeList.indexesCount = file.freeList.indexesCount ∧
    file'.freeList.newIndexesCount = file.freeList.newIndexesCount
  dead : file'.freeList.nodes.filter (·.blockSize ≠ 0)
    = file.freeList.nodes.filter (·.blockSize ≠ 0)
  new : ∀ order, ⟨order, 0⟩ ∈ file'.freeList.nodes ↔ ⟨order, 0⟩ ∈ file.freeList.nodes
  allocations : ∀ reqs, allocations file'.freeList reqs = allocations file.freeList reqs

/-- What a store needs to be opened again: the header in the file is up to date, names the format
and counts an index, and the free list has its counters right. -/
structure Closable {A : Type} (file : ZgdbFile A) : Prop where
  saved : file.saved = file.header
  format : file.header.zgdbType = getZgdbFormat
  version : file.header.version = getVersion
  indexCount : 0 < file.header.indexCount
  sound : file.freeList.Sound

/-- What `writeFreelist` writes is read back. -/
theorem readFreeList_closeZgdbFile {file : ZgdbFile Nat} (hsaved : file.saved = file.header)
    (hcount : file.freeList.indexesCount = file.freeList.nodes.length) :
    readFreeList (closeZgdbFile file) = if 2 ^ 31 ≤ file.freeList.indexesCount then none
      else some (file.freeList.nodes.foldl reinsert createIndexesList) := by
  have hpos : (closeZgdbFile file).zgdbHeader.fileSize = file.header.fileSize := by
    rw [← hsaved]
    rfl
  have hcounters : load freeIndexesListK (closeZgdbFile file).mem file.header.fileSize
      = ⟨file.freeList.indexesCount, file.freeList.newIndexesCount⟩ := by
    have hstored : Holds freeIndexesListK (fwriteAt freeIndexesListK file file.header.fileSize 0
        ⟨file.freeList.indexesCount, file.freeList.newIndexesCount⟩).mem file.header.fileSize
        ⟨file.freeList.indexesCount, file.freeList.newIndexesCount⟩ := holds_store
    refine load_of_holds (hstored.congr ?_)
    intro i hi
    exact storeAll_apply_nat (by rw [add_nat]; exact Nat.add_lt_add_left hi _)
  have hnodes : loadAll nodeK (closeZgdbFile file).mem (file.header.fileSize + sizeofNode)
      file.freeList.indexesCount = file.freeList.nodes := by
    rw [hcount]
    exact loadAll_storeAll _ _ _
  simp only [readFreeList, hpos, hcounters, hnodes]

/-- **Close and open**: the store comes back if its free indices can be counted in an `int`, and
otherwise it cannot be opened. -/
theorem Closable.reopen_iff {file : ZgdbFile Nat} (h : Closable file) (now : UInt32) :
    (∃ file', reopen now (finish file) = some file' ∧ Restored file file') ↔
      file.freeList.indexesCount < 2 ^ 31 := by
  have hlist := readFreeList_closeZgdbFile h.saved h.sound.indexes
  have hheader : (finish file).zgdbHeader = file.header := h.saved
  constructor
  · rintro ⟨file', hopen, -⟩
    by_contra hge
    rw [if_pos (by omega)] at hlist
    simp [reopen, loadZgdbFile, finish, hlist] at hopen
  · intro hlt
    rw [if_neg (by omega)] at hlist
    have hload : loadZgdbFile (finish file) = some ⟨file.header, file.header, file.indexes,
        file.freeList.nodes.foldl reinsert createIndexesList, (finish file).mem⟩ := by
      rw [loadZgdbFile, hheader, if_neg (by simp [h.format]), if_neg (by simp [h.version]), finish,
        hlist]
      rfl
    have hcount : file.header.indexCount ≠ 0 := Nat.ne_of_gt h.indexCount
    have hsizes := h.sound.reinsert_sameSizes
    refine ⟨_, by rw [reopen, hload, Option.map_some, initTables, if_neg hcount], ?_⟩
    refine ⟨rfl, rfl, rfl, ?_,
      sound_reinsert sound_createIndexesList _, ⟨hsizes.indexes, hsizes.newIndexes⟩,
      ?_, ?_, allocations_eq hsizes⟩
    · intro a ha
      refine (storeAll_apply_nat (by omega)).trans ?_
      exact store_apply_nat (Or.inl (by simpa using ha))
    · exact filter_reinsert h.sound.sorted
    · intro order
      exact mem_reinsert h.sound.sorted

end Zgdb
