/-
# NEW indices that a run does not need

The free list of a new store has one node for each index, and a run takes a few of them from the
front.  A store that has left out some NEW nodes further back goes the same way (`exec_spare`), so a
run on a new store can be followed on one with a short free list, where it can be evaluated
(`run_stateAt`).
-/
import Zgdb.Frame

namespace Zgdb

open Zgdb.Lib AddrSpace

/-! ## 1. Lists

All nodes that are left out are NEW.  The functions of the free list look at the front or at the
tail, so they take and insert the same nodes, unless the shorter list runs empty. -/

/-- `short` is the list without some NEW nodes behind the first `k` of them, with the counters of
`list`.  As long as no more than `k` NEW nodes are taken, the two lists behave alike, so a run on a
table of 50000 indices can be followed on a short list. -/
structure Spare (k : Nat) (list short : FreeIndexesList) : Prop where
  indexesCount : short.indexesCount = list.indexesCount
  newIndexesCount : short.newIndexesCount = list.newIndexesCount
  enough : k < list.indexesCount
  nodes : ∃ zs pad ds : List Node, (∀ z ∈ zs ++ pad, z.blockSize = 0) ∧ k ≤ zs.length ∧
    list.nodes = zs ++ (pad ++ ds) ∧ short.nodes = zs ++ ds

section Lists

variable {k reqSize : Nat} {list short rest : FreeIndexesList} {n : Node}

theorem Spare.mono {j : Nat} (h : Spare k list short) (hj : j ≤ k) : Spare j list short := by
  obtain ⟨zs, pad, ds, hz, hk, hlist, hshort⟩ := h.nodes
  exact ⟨h.indexesCount, h.newIndexesCount, Nat.lt_of_le_of_lt hj h.enough, zs, pad, ds, hz,
    hj.trans hk, hlist, hshort⟩

/-- Both lists give the same node. -/
theorem Spare.find (h : Spare (k + 1) list short) (hreq : 0 < reqSize)
    (hfind : findRelevantIndex short reqSize = some (n, rest)) :
    ∃ left, findRelevantIndex list reqSize = some (n, left) ∧ Spare k left rest := by
  obtain ⟨zs, pad, ds, hz, hk, hlist, hshort⟩ := h.nodes
  obtain ⟨z, zs, rfl⟩ := List.exists_cons_of_length_pos (Nat.lt_of_lt_of_le (Nat.succ_pos k) hk)
  have hmany := h.enough
  have hz0 : z.blockSize = 0 := hz z List.mem_cons_self
  have hzs : ∀ x ∈ zs ++ pad, x.blockSize = 0 := fun x hx => hz x (List.mem_cons_of_mem z hx)
  have hk' : k ≤ zs.length := Nat.le_of_succ_le_succ hk
  unfold findRelevantIndex at hfind ⊢
  rw [h.indexesCount, h.newIndexesCount, if_neg (by omega), if_neg (by omega)] at hfind
  rw [if_neg (by omega), if_neg (by omega)]
  rw [hshort] at hfind
  rw [hlist]
  -- the front node is taken unless a DEAD node at the end is large enough
  have hfront : ∀ tail tail' : Node, tail.blockSize = tail'.blockSize ∧ tail'.blockSize < reqSize →
      (if tail'.blockSize ≥ reqSize
        then some (tail', (⟨(z :: zs ++ ds).dropLast, list.indexesCount - 1, list.newIndexesCount⟩ :
          FreeIndexesList))
        else if z.blockSize = 0 then
          some (z, ⟨(z :: zs ++ ds).tail, list.indexesCount - 1, list.newIndexesCount - 1⟩)
        else none) = some (n, rest) →
      ∃ left, (if tail.blockSize ≥ reqSize
        then some (tail, (⟨(z :: zs ++ (pad ++ ds)).dropLast, list.indexesCount - 1,
          list.newIndexesCount⟩ : FreeIndexesList))
        else if z.blockSize = 0 then
          some (z, ⟨(z :: zs ++ (pad ++ ds)).tail, list.indexesCount - 1, list.newIndexesCount - 1⟩)
        else none) = some (n, left) ∧ Spare k left rest := by
    rintro tail tail' ⟨heq, hlt⟩ hf
    rw [if_neg (by omega), if_pos hz0, Option.some.injEq, Prod.mk.injEq] at hf
    obtain ⟨rfl, rfl⟩ := hf
    rw [if_neg (by omega), if_pos hz0]
    exact ⟨_, rfl, rfl, rfl, by simp only; omega, zs, pad, ds, hzs, hk', rfl, rfl⟩
  rcases List.eq_nil_or_concat' ds with rfl | ⟨ds, d, rfl⟩
  · obtain ⟨tail, htail⟩ : ∃ tail, (z :: zs ++ (pad ++ [])).getLast? = some tail := by
      rw [List.getLast?_eq_some_getLast (by simp)]
      exact ⟨_, rfl⟩
    obtain ⟨tail', htail'⟩ : ∃ tail', (z :: zs ++ []).getLast? = some tail' := by
      rw [List.getLast?_eq_some_getLast (by simp)]
      exact ⟨_, rfl⟩
    have h0 : tail.blockSize = 0 := hz tail (by simpa using List.mem_of_getLast? htail)
    have h0' : tail'.blockSize = 0 :=
      hz tail' (List.mem_append_left _ (by simpa using List.mem_of_getLast? htail'))
    rw [htail'] at hfind
    rw [htail]
    exact hfront tail tail' ⟨by omega, by omega⟩ hfind
  · have hlast : (z :: zs ++ (pad ++ (ds ++ [d]))).getLast? = some d := by
      rw [← List.append_assoc, ← List.append_assoc, List.getLast?_concat]
    have hlast' : (z :: zs ++ (ds ++ [d])).getLast? = some d := by
      rw [← List.append_assoc, List.getLast?_concat]
    rw [hlast'] at hfind
    rw [hlast]
    by_cases hd : d.blockSize ≥ reqSize
    · simp only [List.cons_append, List.head?_cons, if_pos hd, Option.some.injEq,
        Prod.mk.injEq] at hfind ⊢
      obtain ⟨rfl, rfl⟩ := hfind
      refine ⟨_, ⟨rfl, rfl⟩, rfl, rfl, by simp only; omega, z :: zs, pad, ds, hz, by omega, ?_, ?_⟩
      · simp only [← List.cons_append, ← List.append_assoc, List.dropLast_concat]
      · simp only [← List.cons_append, ← List.append_assoc, List.dropLast_concat]
    · exact hfront d d ⟨rfl, by omega⟩ hfind

/-- The scan goes past NEW nodes. -/
theorem insertScan_zeros {zs : List Node} (hz : ∀ z ∈ zs, z.blockSize = 0) (hn : 0 < n.blockSize)
    (l : List Node) : insertScan n (zs ++ l) = zs ++ insertScan n l := by
  induction zs with
  | nil => rfl
  | cons z zs ih =>
    have hz0 := hz z List.mem_cons_self
    rw [List.cons_append, insertScan, if_pos (by omega),
      ih fun x hx => hz x (List.mem_cons_of_mem z hx), List.cons_append]

/-- Where a DEAD node goes in a list that starts with NEW ones. -/
theorem insertNode_zeros {zs : List Node} (hne : zs ≠ []) (hz : ∀ x ∈ zs, x.blockSize = 0)
    (hn : 0 < n.blockSize) (ds : List Node) : insertNode (zs ++ ds) n
      = zs ++ if ∀ d ∈ ds.getLast?, n.blockSize ≥ d.blockSize then ds ++ [n]
        else insertScan n ds := by
  obtain ⟨z, zs, rfl⟩ := List.exists_cons_of_ne_nil hne
  have hz0 := hz z List.mem_cons_self
  rw [List.cons_append, insertNode, if_neg (by omega)]
  rcases List.eq_nil_or_concat' ds with rfl | ⟨ds, d, rfl⟩
  · have hlast : ((z :: (zs ++ [])).getLast (by simp)).blockSize = 0 :=
      hz _ (by simp)
    rw [if_pos (by omega), if_pos (by simp), List.append_nil, List.cons_append, List.nil_append,
      List.cons_append]
  · have hlast : (z :: (zs ++ (ds ++ [d]))).getLast (by simp) = d := by
      simp
    rw [hlast, List.getLast?_concat]
    by_cases hd : n.blockSize ≥ d.blockSize
    · rw [if_pos hd, if_pos (by simpa using hd)]
      simp
    · rw [if_neg hd, if_neg (by simpa using hd),
        insertScan_zeros (fun x hx => hz x (List.mem_cons_of_mem z hx)) hn, List.cons_append]

/-- A DEAD node has the same place in both lists. -/
theorem Spare.insertDeadIndex (h : Spare (k + 1) list short) (order blockSize : Nat) :
    Spare (k + 1) (insertDeadIndex list order blockSize)
      (insertDeadIndex short order blockSize) := by
  obtain ⟨zs, pad, ds, hz, hk, hlist, hshort⟩ := h.nodes
  have hne : zs ≠ [] := by
    rintro rfl
    cases hk
  have hzs : ∀ x ∈ zs, x.blockSize = 0 := fun x hx => hz x (List.mem_append_left _ hx)
  refine ⟨congrArg (· + 1) h.indexesCount, h.newIndexesCount, Nat.lt_succ_of_lt h.enough, ?_⟩
  simp only [Zgdb.insertDeadIndex, hlist, hshort]
  rcases Nat.eq_zero_or_pos blockSize with rfl | hpos
  · obtain ⟨z, zs, rfl⟩ := List.exists_cons_of_ne_nil hne
    refine ⟨⟨order, 0⟩ :: z :: zs, pad, ds, ?_, Nat.le_succ_of_le hk, ?_, ?_⟩
    · rintro x (_ | ⟨_, hx⟩)
      · rfl
      · exact hz x hx
    · simp [insertNode]
    · simp [insertNode]
  · refine ⟨zs, pad, _, hz, hk, ?_, insertNode_zeros (n := ⟨order, blockSize⟩) hne hzs hpos ds⟩
    rw [← List.append_assoc, ← List.append_assoc]
    exact insertNode_zeros (n := ⟨order, blockSize⟩) (by simp [hne]) hz hpos ds

end Lists

/-! ## 2. Stores

All that a function of the store does with the free list is to hand it on to those of section 1.
Everything else commutes with an exchange of the list. -/

variable {A : Type} [BlockSpace A]

/-- The store with another free list. -/
def ZgdbFile.withFree (file : ZgdbFile A) (list : FreeIndexesList) : ZgdbFile A :=
  { file with freeList := list }

section Writes

variable (file : ZgdbFile A) (list : FreeIndexesList)

theorem writeChunks_withFree (pos : A) (toastIndex : Nat) (s : CString) (lastLen lastToast : Nat) :
    ∀ (n : Nat) (file : ZgdbFile A) (used start : Nat),
    writeChunks (file.withFree list) pos used toastIndex s start lastLen lastToast n
      = (writeChunks file pos used toastIndex s start lastLen lastToast n).withFree list
  | 0, _, _, _ => rfl
  | n + 1, file, used, start => by
    rw [writeChunks_succ, writeChunks_succ, ← writeChunks_withFree]
    rfl

theorem writeElements_withFree (pos : A) (t : Nat) (elements : List Element) (d : Nat) :
    writeElements (file.withFree list) pos d t elements
      = (writeElements file pos d t elements).withFree list := by
  induction elements generalizing file d with
  | nil => rfl
  | cons cur elements ih =>
    have hvalue : ∀ file : ZgdbFile A,
        writeValue (file.withFree list) pos (d + elementHead) cur.value t
        = (writeValue file pos (d + elementHead) cur.value t).withFree list := by
      intro file
      cases cur.value with
      | text v =>
        have hchunks := writeChunks_withFree list (blockPos file t) t v.data (v.size % chunkSize) t
          (chunkCount v.size) (fwriteAt firstTextChunkK file pos (d + elementHead) ⟨v.size,
            (freadAt toastK file (blockPos file t) 0).used * chunkRecord⟩)
          (freadAt toastK file (blockPos file t) 0).used 0
        exact congrArg (fun f : ZgdbFile A => fwriteAt toastK f (blockPos file t) 0 _) hchunks
      | _ => rfl
    simp only [writeElements, writeElement]
    rw [← ih, ← hvalue]
    rfl

omit [BlockSpace A] in
theorem save_withFree : saveHeader (file.withFree list) = (saveHeader file).withFree list := rfl

omit [BlockSpace A] in
theorem blockOffset_withFree (order : Nat) :
    blockOffset (file.withFree list) order = blockOffset file order := rfl

theorem fwriteAt_withFree {α : Type} (K : Kind Obj α) (pos : A) (d : Nat) (a : α) :
    fwriteAt K (file.withFree list) pos d a = (fwriteAt K file pos d a).withFree list := rfl

omit [BlockSpace A] in
theorem growFile_withFree (n : Node) (size : Nat) :
    growFile (file.withFree list) n size = (growFile file n size).withFree list := by
  unfold growFile
  split <;> rfl

omit [BlockSpace A] in
theorem attach_withFree (order offset : Nat) :
    (attachIndexToBlock (file.withFree list) order offset).1
    = (attachIndexToBlock file order offset).1.withFree list := by
  by_cases h : order > file.header.indexCount - 1 <;>
    simp [attachIndexToBlock, ZgdbFile.withFree, setIndex, h]

omit [BlockSpace A] in
theorem kill_withFree (order : Nat) :
    (killIndex (file.withFree list) order).1 = (killIndex file order).1.withFree list := by
  by_cases h : order > file.header.indexCount - 1
  · simp [killIndex, ZgdbFile.withFree, h]
  · by_cases hflag : (file.indexes order).flag = .alive <;>
      simp [killIndex, ZgdbFile.withFree, setIndex, h, hflag]

theorem writeElements_freeList (pos : A) (t : Nat) (elements : List Element) (d : Nat) :
    (writeElements file pos d t elements).freeList = file.freeList := by
  have h := writeElements_withFree file file.freeList pos t elements d
  change writeElements file pos d t elements = _ at h
  rw [h]
  rfl

theorem getDocumentHeader_withFree (order : Nat) :
    getDocumentHeader (file.withFree list) order = getDocumentHeader file order := rfl

end Writes

section Reads

theorem readChunks_withFree (file : ZgdbFile A) (list : FreeIndexesList) (lastLen n : Nat)
    (cur : Cursor A) :
    readChunks (file.withFree list) lastLen n cur = readChunks file lastLen n cur := by
  induction n generalizing cur with
  | zero => rfl
  | succ n ih =>
    rw [readChunks, readChunks, ih]
    rfl

theorem nextEl_withFree (file : ZgdbFile A) (list : FreeIndexesList) (it : ElementIterator A)
    (reqData : Bool) : nextEl (file.withFree list) it reqData = nextEl file it reqData := by
  have htext : ∀ first f, readText (file.withFree list) first f = readText file first f := by
    intro first f
    rw [readText, readChunks_withFree]
    rfl
  have hvalue : ∀ cells type d, readValue (file.withFree list) it.doc cells type d
      = readValue file it.doc cells type d := by
    intro cells type d
    simp only [readValue, htext]
  simp only [nextEl, hvalue]
  rfl

theorem iterateEl_withFree (file : ZgdbFile A) (list : FreeIndexesList) (reqData : Bool) (n : Nat)
    (it : ElementIterator A) :
    iterateEl (file.withFree list) reqData n it = iterateEl file reqData n it := by
  induction n generalizing it with
  | zero => rfl
  | succ n ih =>
    rw [iterateEl, iterateEl, nextEl_withFree]
    exact congrArg (List.cons _) (ih _)

theorem elementEntries_withFree (file : ZgdbFile A) (list : FreeIndexesList) (doc : Document)
    (reqData : Bool) :
    elementEntries (file.withFree list) doc reqData = elementEntries file doc reqData :=
  iterateEl_withFree file list reqData _ _

end Reads

/-! ## 3. Creations -/

section Creations

variable {k : Nat} {file out : ZgdbFile A} {list : FreeIndexesList}

theorem allocToast_spare {reqSize newCapacity order : Nat} (h : Spare (k + 1) list file.freeList)
    (hreq : 0 < reqSize) (ha : allocToast file reqSize newCapacity = some (order, out)) :
    ∃ left, allocToast (file.withFree list) reqSize newCapacity = some (order, out.withFree left) ∧
      Spare k left out.freeList := by
  unfold allocToast at ha
  split at ha
  · cases ha
  · rename_i chosen rest hfind
    obtain ⟨left, hleft, hspare⟩ := h.find hreq hfind
    obtain ⟨rfl, rfl⟩ := Prod.mk.inj (Option.some.inj ha)
    refine ⟨left, ?_, ?_⟩
    · have hfree : findRelevantIndex (file.withFree list).freeList reqSize = some (chosen, left) :=
        hleft
      rw [allocToast, hfree, ← save_withFree, ← growFile_withFree, ← attach_withFree]
      rfl
    · rw [growFile_eq]
      change Spare k left (attachIndexToBlock _ _ _).1.freeList
      rw [attachIndexToBlock_freeList]
      exact hspare

theorem createToast_spare {schema : DocumentSchema} {t : Nat} (h : Spare (k + 1) list file.freeList)
    (hwf : schema.Wf) (hc : createToast file schema = some (t, out)) :
    ∃ left, createToast (file.withFree list) schema = some (t, out.withFree left) ∧
      Spare k left out.freeList := by
  unfold createToast at hc ⊢
  by_cases hreq : schema.reqToast = true
  · rw [if_pos hreq] at hc ⊢
    exact allocToast_spare h (hwf.toastRequest_pos hreq) hc
  · rw [if_neg hreq] at hc ⊢
    obtain ⟨rfl, rfl⟩ := Prod.mk.inj (Option.some.inj hc)
    exact ⟨list, rfl, h.mono (Nat.le_succ k)⟩

theorem createBlock_spare {now : UInt32} {name : Name} {schema : DocumentSchema} {t order : Nat}
    {parentHeader : DocumentHeader} (h : Spare (k + 1) list file.freeList)
    (hc : createBlock now file name schema t parentHeader = some (order, out)) :
    ∃ left, createBlock now (file.withFree list) name schema t parentHeader
        = some (order, out.withFree left) ∧ Spare k left out.freeList := by
  unfold createBlock at hc
  dsimp only at hc
  split at hc
  · cases hc
  · rename_i chosen rest hfind
    obtain ⟨left, hleft, hspare⟩ :=
      h.find (Nat.lt_of_lt_of_le (by decide) (Nat.le_add_right _ _)) hfind
    obtain ⟨rfl, rfl⟩ := Prod.mk.inj (Option.some.inj hc)
    refine ⟨left, ?_, ?_⟩
    · have hfree : findRelevantIndex (file.withFree list).freeList
          (sizeofDocumentHeader + schema.sizeOfElements) = some (chosen, left) := hleft
      simp only [createBlock, hfree]
      have h0 : ({ file.withFree list with freeList := left } : ZgdbFile A)
          = ({ file with freeList := rest } : ZgdbFile A).withFree left := rfl
      rw [h0]
      generalize ({ file with freeList := rest } : ZgdbFile A) = file
      simp only [blockOffset_withFree, writeElements_withFree, attach_withFree, fwriteAt_withFree,
        growFile_withFree]
      rfl
    · rw [growFile_eq]
      change Spare k left (attachIndexToBlock _ _ _).1.freeList
      rw [attachIndexToBlock_freeList, writeElements_freeList]
      exact hspare

omit [BlockSpace A] in
theorem needsExpansion_spare {k : Nat} (h : Spare k list file.freeList) :
    needsExpansion (file.withFree list) = needsExpansion file := by
  simp only [needsExpansion, h.newIndexesCount]
  rfl

/-- **A creation** takes the same indices from both lists. -/
theorem createDocument_spare {expandIndexes : ZgdbFile A → Option (ZgdbFile A)} {now : UInt32}
    {name : Name} {schema : DocumentSchema} {parent : Document} {status : CreateStatus}
    (h : Spare (k + 2) list file.freeList) (hexp : needsExpansion file = false) (hwf : schema.Wf)
    (hcomplete : schema.Complete)
    (hc : createDocument expandIndexes now file name schema parent = some (status, out)) :
    ∃ left, createDocument expandIndexes now (file.withFree list) name schema parent
        = some (status, out.withFree left) ∧ Spare k left out.freeList := by
  obtain ⟨rfl, file1, t, file2, order, file3, h1, h2, h3, rfl⟩ := createDocument_cases hc hcomplete
  obtain rfl := Option.some.inj ((expanded_of_not hexp).symm.trans h1)
  obtain ⟨left2, htoast, hspare2⟩ := createToast_spare h hwf h2
  obtain ⟨left, hblock, hspare⟩ := createBlock_spare hspare2 h3
  refine ⟨left, ?_, hspare⟩
  have hexp' : expanded expandIndexes (file.withFree list) = some (file.withFree list) :=
    expanded_of_not ((needsExpansion_spare h).trans hexp)
  have hne : ¬ schema.capacity ≠ schema.size := not_not.mpr hcomplete
  unfold createDocument
  simp only [if_neg hne, hexp', htoast, Option.bind_eq_bind, Option.bind_some,
    getDocumentHeader_withFree, hblock]
  rfl

end Creations

/-! ## 4. Deletions -/

section Deletions

variable {k : Nat} {file out : ZgdbFile A} {list : FreeIndexesList} {doc : Document}

theorem scanSons_withFree (fuel order : Nat) :
    scanSons (file.withFree list) doc fuel order = scanSons file doc fuel order := by
  induction fuel generalizing order with
  | zero => rfl
  | succ fuel ih => simp only [scanSons, ih, getDocumentHeader_withFree]

theorem unlink_withFree (par : Document) (sons : List Document) :
    unlink (file.withFree list) par sons
      = (unlink file par sons).map fun file => file.withFree list := by
  unfold unlink
  dsimp only
  split
  · rfl
  · split <;> rfl

theorem unlink_freeList {par : Document} {sons : List Document}
    (h : unlink file par sons = some out) :
    out.freeList = file.freeList := by
  unfold unlink at h
  dsimp only at h
  split at h
  · rw [← Option.some.inj h]
    rfl
  · split at h
    · cases h
    · rw [← Option.some.inj h]
      rfl

omit [BlockSpace A] in
theorem killIndex_freeList (file : ZgdbFile A) (order : Nat) :
    (killIndex file order).1.freeList = file.freeList := by
  have h := kill_withFree file file.freeList order
  change (killIndex file order).1 = _ at h
  rw [h]
  rfl

omit [BlockSpace A] in
theorem freeIndex_spare (h : Spare (k + 1) list file.freeList) (order size : Nat) :
    ∃ left, freeIndex (file.withFree list) order size = (freeIndex file order size).withFree left ∧
      Spare (k + 1) left (freeIndex file order size).freeList := by
  refine ⟨insertDeadIndex list order size, ?_, ?_⟩
  · simp only [freeIndex, kill_withFree]
    rfl
  · simp only [freeIndex, killIndex_freeList]
    exact h.insertDeadIndex order size

omit [BlockSpace A] in
theorem del_spare (h : Spare (k + 1) list file.freeList) (doc : Document) :
    ∃ left, del doc (file.withFree list) = (del doc file).withFree left ∧
      Spare (k + 1) left (del doc file).freeList := by
  unfold del
  split
  · exact ⟨list, rfl, h⟩
  · obtain ⟨left, hleft, hspare⟩ := freeIndex_spare h doc.header.indexAttached doc.header.capacity
    exact ⟨left, by rw [hleft]; rfl, hspare⟩

theorem freeToasts_spare {fuel order : Nat} (h : Spare (k + 1) list file.freeList)
    (hf : freeToasts fuel file order = some out) :
    ∃ left, freeToasts fuel (file.withFree list) order = some (out.withFree left) ∧
      Spare (k + 1) left out.freeList := by
  induction fuel generalizing file list order with
  | zero => cases hf
  | succ fuel ih =>
    rw [freeToasts] at hf ⊢
    split at hf
    · rename_i h0
      obtain rfl := Option.some.inj hf
      rw [if_pos h0]
      exact ⟨list, rfl, h⟩
    · rename_i h0
      rw [if_neg h0]
      obtain ⟨left, hleft, hspare⟩ :=
        freeIndex_spare h order (freadAt toastK file (blockPos file order) 0).capacity
      obtain ⟨left', hrun, hspare'⟩ := ih hspare hf
      refine ⟨left', ?_, hspare'⟩
      rw [← hleft] at hrun
      exact hrun

/-- **A deletion** of a document without sons gives the same indices to both lists. -/
theorem deleteDocument_spare {fuel : Nat} (h : Spare (k + 1) list file.freeList)
    (hson : doc.header.indexSon = 0) (hd : deleteDocument fuel file doc = some out) :
    ∃ left, deleteDocument fuel (file.withFree list) doc = some (out.withFree left) ∧
      Spare (k + 1) left out.freeList := by
  unfold deleteDocument at hd ⊢
  obtain ⟨sons, hscan, hd⟩ := Option.bind_eq_some_iff.mp hd
  obtain ⟨file1, hunlink, hd⟩ := Option.bind_eq_some_iff.mp hd
  obtain ⟨file2, hsubtree, hd⟩ := Option.bind_eq_some_iff.mp hd
  have hleaf : ∀ f : ZgdbFile A, deleteSubtree fuel f doc = some f := fun f =>
    if_neg (not_not.mpr hson)
  obtain rfl := Option.some.inj ((hleaf _).symm.trans hsubtree)
  rw [← unlink_freeList hunlink] at h
  obtain ⟨left1, hdel, hspare1⟩ := del_spare h doc
  obtain ⟨left, htoasts, hspare⟩ := freeToasts_spare hspare1 hd
  refine ⟨left, ?_, hspare⟩
  simp only [getDocumentHeader_withFree, scanSons_withFree, hscan, Option.bind_eq_bind,
    Option.bind_some, unlink_withFree, hunlink, Option.map_some, hdel, hleaf, htoasts]

end Deletions

/-! ## 5. Runs

The run is followed call by call: a creation may take two nodes from the front, a deletion puts some
back.  As the list left out nodes of the back only, it goes the same way. -/

/-- Creations, and deletions of documents without sons, that do not expand the index table. -/
def Call.Simple (file : ZgdbFile A) : Call → Prop
  | create .. => needsExpansion file = false
  | delete doc _ => (getDocumentHeader file doc).indexSon = 0
  | deleteRoot => False
  | update .. => False

section Runs

variable {env : Env A} {k : Nat} {file out : ZgdbFile A} {list : FreeIndexesList}

theorem exec_spare {call : Call} (h : Spare (k + 2) list file.freeList) (hl : call.Legal file)
    (hs : call.Simple file) (he : call.exec env file = some out) :
    ∃ left, call.exec env (file.withFree list) = some (out.withFree left) ∧
      Spare k left out.freeList := by
  cases call with
  | create now p name schema =>
    obtain ⟨⟨status, f⟩, hrun, rfl⟩ := Option.map_eq_some_iff.mp he
    obtain ⟨left, hleft, hspare⟩ := createDocument_spare h hs hl.2.1.wf hl.2.2 hrun
    refine ⟨left, ?_, hspare⟩
    exact congrArg (Option.map Prod.snd) hleft
  | delete d p =>
    have hson : (documentAt file d p).header.indexSon = 0 := hs
    obtain ⟨left, hleft, hspare⟩ := deleteDocument_spare h hson he
    exact ⟨left, hleft, hspare.mono (Nat.le_add_right k 2)⟩
  | deleteRoot => exact hs.elim
  | update => exact hs.elim

/-- **A run goes the same way** on both stores, as long as there are two NEW nodes for each call. -/
theorem run_spare {ok : ZgdbFile A → Call → Prop}
    (hok : ∀ file call list, ok file call → ok (file.withFree list) call) {calls : List Call}
    (hrun : Run (Call.exec env) (fun file call => call.Legal file ∧ call.Simple file ∧ ok file call)
      file calls out) (h : Spare (k + 2 * calls.length) list file.freeList) :
    ∃ left, Run (Call.exec env) (fun file call => call.Legal file ∧ call.Unexpanded file ∧
      ok file call) (file.withFree list) calls (out.withFree left) ∧ Spare k left out.freeList := by
  induction hrun generalizing k with
  | nil => exact ⟨list, .nil _, h⟩
  | @snoc out out' calls call _ hcall he ih =>
    obtain ⟨hl, hs, hc⟩ := hcall
    obtain ⟨left, hleft, hspare⟩ :=
      ih (k := k + 2) (h.mono (by rw [List.length_append]; simp; omega))
    obtain ⟨left', hexec, hspare'⟩ := exec_spare hspare hl hs he
    refine ⟨left', hleft.snoc ⟨?_, ?_, hok _ _ _ hc⟩ hexec, hspare'⟩
    · cases call with
      | deleteRoot => trivial
      | _ => exact hl
    · cases call with
      | create => exact (needsExpansion_spare hspare).trans hs
      | _ => trivial

/-- The NEW nodes of the last `n` indices of a new store. -/
def firstNodes (n : Nat) : List Node :=
  (List.range' (indexInitialCapacity - n) n).reverse.map fun order => ⟨order, 0⟩

/-- A new store whose free list holds `n` nodes only. -/
def shortInit (now : UInt32) (n : Nat) : ZgdbFile A :=
  (init now).withFree ⟨firstNodes n, indexInitialCapacity - 1, indexInitialCapacity - 1⟩

/-- NEW indices are put in front of one another. -/
theorem foldl_insertNewIndex_eq (ks : List Nat) (list : FreeIndexesList) :
    ks.foldl insertNewIndex list = ⟨(ks.reverse.map fun order => ⟨order, 0⟩) ++ list.nodes,
      list.indexesCount + ks.length, list.newIndexesCount + ks.length⟩ := by
  induction ks generalizing list with
  | nil => rfl
  | cons k ks ih =>
    have hfront : insertNode list.nodes ⟨k, 0⟩ = ⟨k, 0⟩ :: list.nodes := by
      cases list.nodes with
      | nil => rfl
      | cons => exact if_pos (.inr rfl)
    rw [List.foldl_cons, ih, insertNewIndex, hfront]
    simp only [List.reverse_cons, List.map_append, List.map_cons, List.map_nil, List.append_assoc,
      List.cons_append, List.nil_append, List.length_cons, FreeIndexesList.mk.injEq, true_and]
    omega

theorem shortInit_freeList {now : UInt32} {n : Nat} :
    (shortInit now n : ZgdbFile A).freeList
      = ⟨firstNodes n, indexInitialCapacity - 1, indexInitialCapacity - 1⟩ := rfl

/-- The indices of a new store, the last `n` apart. -/
theorem range'_split {n : Nat} (hn : n < indexInitialCapacity - 1) :
    List.range' 1 (indexInitialCapacity - 1)
      = List.range' 1 (indexInitialCapacity - 1 - n) ++ List.range'
        (indexInitialCapacity - n) n := by
  have hstart : 1 + (indexInitialCapacity - 1 - n) = indexInitialCapacity - n := by omega
  have hlength : indexInitialCapacity - 1 - n + n = indexInitialCapacity - 1 := by omega
  rw [← hstart, List.range'_append_1, hlength]

/-- The NEW nodes of the indices that were inserted last. -/
theorem spare_newIndexes {ks : List Nat} (js : List Nat) (h : 0 < ks.length) :
    Spare js.length ((ks ++ js).foldl insertNewIndex createIndexesList)
      ⟨js.reverse.map fun order => ⟨order, 0⟩, (ks ++ js).length, (ks ++ js).length⟩ := by
  rw [foldl_insertNewIndex_eq]
  refine ⟨(Nat.zero_add _).symm, (Nat.zero_add _).symm, ?_,
    js.reverse.map fun order => ⟨order, 0⟩, ks.reverse.map fun order => ⟨order, 0⟩, [], ?_, ?_, ?_,
    (List.append_nil _).symm⟩
  · simp only [createIndexesList, List.length_append]
    omega
  · intro z hz
    rw [← List.map_append] at hz
    obtain ⟨order, -, rfl⟩ := List.mem_map.mp hz
    rfl
  · rw [List.length_map, List.length_reverse]
  · simp only [createIndexesList, List.reverse_append, List.map_append, List.append_nil]

theorem init_spare {now : UInt32} {n : Nat} (hn : n < indexInitialCapacity - 1) :
    Spare n (init now : ZgdbFile A).freeList (shortInit now n : ZgdbFile A).freeList := by
  have hks : 0 < (List.range' 1 (indexInitialCapacity - 1 - n)).length := by
    rw [List.length_range']
    omega
  have h := spare_newIndexes (List.range' (indexInitialCapacity - n) n) hks
  rw [← range'_split hn, List.length_range', List.length_range'] at h
  rw [init_freeList, shortInit_freeList, firstNodes]
  exact h

end Runs

/-! ## 6. Runs that are evaluated

A new store has some hundred nodes, and a run on it is not evaluated in reasonable time.  With a
short list it is; the theorem carries the result over to the new store. -/

omit [BlockSpace A] in
theorem withFree_withFree (file : ZgdbFile A) (list list' : FreeIndexesList) :
    (file.withFree list).withFree list' = file.withFree list' := rfl

omit [BlockSpace A] in
theorem withFree_freeList (file : ZgdbFile A) : file.withFree file.freeList = file := rfl

theorem shortInit_withFree {now : UInt32} {m : Nat} :
    (shortInit now m : ZgdbFile A).withFree (init now : ZgdbFile A).freeList = init now := by
  rw [shortInit, withFree_withFree, withFree_freeList]

theorem live_withFree {file : ZgdbFile A} {list : FreeIndexesList} {k : Nat} :
    Live (file.withFree list) k ↔ Live file k := Iff.rfl

instance (file : ZgdbFile A) (k : Nat) : Decidable (Live file k) :=
  inferInstanceAs (Decidable ((_ ∧ _) ∧ _))

def after (file : ZgdbFile Nat) (call : Call) : ZgdbFile Nat := (call.exec flatEnv file).getD file

theorem after_eq {file : ZgdbFile Nat} {call : Call} (h : (call.exec flatEnv file).isSome) :
    call.exec flatEnv file = some (after file call) := by
  obtain ⟨file', he⟩ := Option.isSome_iff_exists.mp h
  rw [after, he]
  rfl

/-- The store after the first `n` of the calls, with a free list of two nodes for each call. -/
def stateAt (now : UInt32) (calls : List Call) (n : Nat) : ZgdbFile Nat :=
  (calls.take n).foldl after (shortInit now (2 * calls.length))

section Evaluated

variable {now : UInt32} {calls : List Call} {ok : ZgdbFile Nat → Call → Prop}

theorem stateAt_succ {n : Nat} {call : Call} (h : calls[n]? = some call) :
    stateAt now calls (n + 1) = after (stateAt now calls n) call := by
  rw [stateAt, List.take_add_one, h, Option.toList_some, List.foldl_append]
  rfl

/-- The calls one by one, on the short list. -/
theorem run_take (h : ∀ n call, calls[n]? = some call →
      (call.exec flatEnv (stateAt now calls n)).isSome ∧ ok (stateAt now calls n) call) {n : Nat}
    (hn : n ≤ calls.length) :
    Run (Call.exec flatEnv) ok (stateAt now calls 0) (calls.take n) (stateAt now calls n) := by
  induction n with
  | zero => exact .nil _
  | succ n ih =>
    have hcall : calls[n]? = some calls[n] := List.getElem?_eq_getElem hn
    obtain ⟨hreturns, hok⟩ := h n _ hcall
    have hexec := after_eq hreturns
    rw [← stateAt_succ hcall] at hexec
    rw [List.take_add_one, hcall, Option.toList_some]
    exact (ih (Nat.le_of_succ_le hn)).snoc hok hexec

/-- **The calls on a new store**, when each can be followed on the short list. -/
theorem run_stateAt (hok : ∀ file call list, ok file call → ok (file.withFree list) call)
    (hmany : 2 * calls.length < indexInitialCapacity - 1)
    (h : ∀ n call, calls[n]? = some call → (call.exec flatEnv (stateAt now calls n)).isSome ∧
      call.Legal (stateAt now calls n) ∧ call.Simple (stateAt now calls n) ∧
      ok (stateAt now calls n) call) :
    ∃ left, Run (Call.exec flatEnv)
      (fun file call => call.Legal file ∧ call.Unexpanded file ∧ ok file call) (init now) calls
      ((stateAt now calls calls.length).withFree left) := by
  have hshort : Run (Call.exec flatEnv) (fun file call => call.Legal file ∧ call.Simple file ∧
      ok file call) (stateAt now calls 0) (calls.take calls.length)
      (stateAt now calls calls.length) := run_take h (Nat.le_refl _)
  rw [List.take_length] at hshort
  have hspare : Spare (0 + 2 * calls.length) (init now : ZgdbFile Nat).freeList
      (stateAt now calls 0).freeList := by
    rw [Nat.zero_add]
    exact init_spare hmany
  obtain ⟨left, hrun, -⟩ := run_spare hok hshort hspare
  have hstart : (stateAt now calls 0).withFree (init now : ZgdbFile Nat).freeList = init now :=
    shortInit_withFree
  rw [hstart] at hrun
  exact ⟨left, hrun⟩

end Evaluated

/-- A document with a number. -/
def onlyInt : DocumentSchema := (addIntToSchema (initSchema 1) keyA 0).2

theorem onlyInt_built : onlyInt.Built := .int _ _ (.init 1)

end Zgdb
