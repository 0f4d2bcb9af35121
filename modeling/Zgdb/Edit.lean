/-
# `updateElement` on a text

The element is found by its key (`updateLoop_eq`), its chunks are changed in one of the ways of
the branches, and the new size is written to the document block (`Store.setText`).  Every branch
but one is an instance of one rule: only bytes of the toasts of the document change, and the texts
of the document are in order again.

The branch that needs another toast is right under two conditions on the state: the chain of the
text lies in the first toast (`OnFirst`), and the new toast gets an index and does not spill.
-/
import Zgdb.Grow
import Zgdb.Insert

namespace Zgdb

open Zgdb.Lib AddrSpace

variable {A : Type} [BlockSpace A]

/-! ## 1. One value of a store set

`updateElement` writes to the toasts first and to the block of the document at the end.
`ValueWrites` says so for all of its branches, and from it follow the frame, the headers, the layout
and what the document says. -/

/-- The value behind the elements `pre` of document `k` is `v` now, and the document uses the toasts
`own'`; nothing else of what a document says is different.  No header is written, so the tree is as
it was; the blocks of other documents keep their bytes, and the other texts of `k` keep their
chunks. -/
structure Edited (file file' : ZgdbFile A) (T : Forest Nat) (es : Nat → List StoredElement)
    (own : Nat → List Nat) (k : Nat) (pre : List StoredElement) (key : Name) (v : StoredValue)
    (post : List StoredElement) (own' : List Nat) : Prop where
  store : Store file' T (Function.update es k (pre ++ ⟨key, v⟩ :: post))
    (Function.update own k own')
  headers : ∀ j ∈ T.nodes, getDocumentHeader file' j = getDocumentHeader file j
  agrees : ∀ j, Used file j → j ≠ k → j ∉ own' → Agrees file file' j (blockCapacity file j)
  others : ∀ j ∈ T.nodes, j ≠ k → entries file' j = entries file j
  texts : ∀ g ∈ textsOf pre ++ textsOf post,
    TextKept file file' (getDocumentHeader file k).firstToastIndex g
  alive : ∀ j, Alive file' j ↔ Alive file j ∨ j ∈ own'

/-- Where a value lies in its document. -/
def valueAt (pre : List StoredElement) : Nat :=
  sizeofDocumentHeader + storedSize pre + elementHead

theorem storedSize_value (pre post : List StoredElement) (key : Name) (v : StoredValue) :
    sizeofDocumentHeader + storedSize (pre ++ ⟨key, v⟩ :: post)
      = valueAt pre + v.type.valueSize + storedSize post := by
  have he : (⟨key, v⟩ : StoredElement).size = elementHead + v.type.valueSize := rfl
  rw [storedSize_append, storedSize_cons, he, valueAt]
  omega

/-- A value lies in the block of its document. -/
theorem Store.value_le {file : ZgdbFile A} {T : Forest Nat} {es : Nat → List StoredElement}
    {own : Nat → List Nat} {k : Nat} {pre post : List StoredElement} {key : Name} {v : StoredValue}
    (hs : Store file T es own) (hk : k ∈ T.nodes) (hes : es k = pre ++ ⟨key, v⟩ :: post) :
    valueAt pre + v.type.valueSize + storedSize post ≤ blockCapacity file k := by
  have hdoc := hs.isDocument hk
  have hsize := (hs.doc k hk).size
  rw [hes, storedSize_value] at hsize
  rw [hdoc.capacity, ← hsize]
  exact hdoc.size_le

/-- A value among stored elements, replaced by another of its type. -/
theorem holdsElements_value {m m' : Mem Nat Obj} {pre post : List StoredElement} {key : Name}
    {v v' : StoredValue} {hi : Nat}
    (h : HoldsElements m sizeofDocumentHeader (pre ++ ⟨key, v⟩ :: post))
    (hhi : valueAt pre + v.type.valueSize + storedSize post ≤ hi) (htype : v'.type = v.type)
    (hnew : HoldsValue m' (valueAt pre) v')
    (heq : ∀ x < hi, x < valueAt pre ∨ valueAt pre + v.type.valueSize ≤ x → m' x = m x) :
    HoldsElements m' sizeofDocumentHeader (pre ++ ⟨key, v'⟩ :: post) := by
  have hat : valueAt pre = sizeofDocumentHeader + storedSize pre + elementHead := rfl
  have hhead : elementHead = 1 + sizeofName := rfl
  have hbefore : ∀ x, x < valueAt pre → m' x = m x := fun x hx =>
    heq x (by omega) (Or.inl hx)
  obtain ⟨hpre, ⟨hcode, hkey, -⟩, hpost⟩ := holdsElements_append.mp h
  refine holdsElements_append.mpr ⟨?_, ⟨?_, ?_, hnew⟩, ?_⟩
  · exact hpre.of_eqOn (fun x _ hx => hbefore x (by omega)) (Nat.le_refl _) (Nat.le_refl _)
  · rw [htype]
    refine hcode.of_eqOn (Nat.zero_le _) (Nat.le_refl _) fun x _ hx => hbefore x ?_
    simp only [byteK] at hx
    omega
  · refine hkey.of_eqOn (Nat.zero_le _) (Nat.le_refl _) fun x _ hx => hbefore x ?_
    simp only [nameK] at hx
    omega
  · have he : ∀ w : StoredValue, (⟨key, w⟩ : StoredElement).size
        = elementHead + w.type.valueSize := fun _ => rfl
    rw [he] at hpost ⊢
    rw [htype]
    refine hpost.of_eqOn (fun x hx hlt => heq x (by omega) (Or.inr (by omega))) (Nat.le_refl _)
      (Nat.le_refl _)

theorem textsOf_append_cons (pre post : List StoredElement) (e : StoredElement) :
    textsOf (pre ++ e :: post) = textsOf pre ++ textsOf (e :: post) := List.filterMap_append

theorem textsOf_text (post : List StoredElement) (key : Name) (f : FirstTextChunk) :
    textsOf (⟨key, .text f⟩ :: post) = f :: textsOf post := rfl

section Value

variable {file file1 file' : ZgdbFile A} {T : Forest Nat} {es : Nat → List StoredElement}
  {own : Nat → List Nat} {k : Nat} {pre post : List StoredElement} {key : Name}
  {v v' : StoredValue} {own' : List Nat}

/-- The writes that set a value of document `k`: its toasts are now `own'` and change first
(`file1`), then `size` bytes of its block from `d` on do. -/
structure ValueWrites (hs : Store file T es own) (file1 file' : ZgdbFile A) (k d size : Nat)
    (own' : List Nat) : Prop where
  mem : k ∈ T.nodes
  toasts : ∀ t ∈ own', Alive file t ∧ IsToast file t ∧ ∀ j ∈ T.nodes, j ≠ k → t ∉ own j
  first : Writes hs.blocks.layout (fun j _ => j ∈ own') file file1
  still : ∀ t ∈ own', IsToast file1 t
  capacity : ∀ t ∈ own', (toastAt file1 t).capacity = (toastAt file t).capacity
  header_le : sizeofDocumentHeader ≤ d
  value : Writes hs.blocks.layout (Layout.span k d (d + size)) file1 file'

namespace ValueWrites

variable {hs : Store file T es own} {d size : Nat}

theorem notMem (h : ValueWrites hs file1 file' k d size own') {j : Nat} (hj : j ∈ T.nodes) :
    j ∉ own' :=
  fun ht => (hs.isDocument hj).not_isToast (h.toasts j ht).2.1

theorem all (h : ValueWrites hs file1 file' k d size own') :
    Writes hs.blocks.layout (fun j x => j ∈ own' ∨ Layout.span k d (d + size) j x) file file' :=
  (h.first.mono fun _ _ hx => Or.inl hx).comp (h.value.mono fun _ _ hx => Or.inr hx)

theorem alive_iff (h : ValueWrites hs file1 file' k d size own') (j : Nat) :
    Alive file' j ↔ Alive file j := h.all.alive_iff

/-- **The frame**: every other block stays. -/
theorem agrees (h : ValueWrites hs file1 file' k d size own') {j : Nat} (hj : Used file j)
    (hjk : j ≠ k) (hjo : j ∉ own') : Agrees file file' j (blockCapacity file j) := by
  intro x hx
  refine h.all.blockAt_eq ⟨hj, rfl⟩ hx ?_
  rintro (ht | ht)
  · exact hjo ht
  · exact hjk ht.1

/-- The document block changes at the value only. -/
theorem outside (h : ValueWrites hs file1 file' k d size own') :
    ∀ x < blockCapacity file k, x < d ∨ d + size ≤ x → blockAt file' k x = blockAt file k x := by
  intro x hx hout
  refine h.all.blockAt_eq ⟨Or.inl (hs.alive h.mem), rfl⟩ hx ?_
  rintro (ht | ⟨-, h1, h2⟩)
  · exact h.notMem h.mem ht
  · omega

theorem header (h : ValueWrites hs file1 file' k d size own') :
    IsDocument file' k ∧ getDocumentHeader file' k = getDocumentHeader file k ∧
      blockCapacity file' k = blockCapacity file k := by
  have hdoc := hs.isDocument h.mem
  exact hdoc.of_eqOn fun x hx => h.outside x (Nat.lt_of_lt_of_le hx hdoc.header_le)
    (Or.inl (Nat.lt_of_lt_of_le hx h.header_le))

/-- **Every header stays.** -/
theorem headers (h : ValueWrites hs file1 file' k d size own') :
    ∀ j ∈ T.nodes, getDocumentHeader file' j = getDocumentHeader file j := by
  intro j hj
  by_cases hjk : j = k
  · subst hjk
    exact h.header.2.1
  · have hd := hs.isDocument hj
    have hagrees := h.agrees (Or.inl (hs.alive hj)) hjk (h.notMem hj)
    exact (hd.of_eqOn (hagrees.mono hd.header_le)).2.1

/-- The value is written beside the toasts. -/
theorem agrees_toast (h : ValueWrites hs file1 file' k d size own') :
    ∀ t ∈ own', Agrees file1 file' t (toastAt file1 t).capacity := by
  intro t ht x hx
  obtain ⟨halive, htoast, -⟩ := h.toasts t ht
  rw [h.capacity t ht, ← htoast.capacity] at hx
  have hshows : Shows hs.blocks.layout file t := ⟨Or.inl halive, rfl⟩
  exact h.value.blockAt_eq (h.first.shows hshows) hx fun hd => h.notMem h.mem (hd.1 ▸ ht)

theorem toast (h : ValueWrites hs file1 file' k d size own') {t : Nat} (ht : t ∈ own') :
    IsToast file' t ∧ toastAt file' t = toastAt file1 t := by
  have hto := (h.still t ht).of_eqOn ((h.agrees_toast t ht).mono (h.still t ht).le_capacity)
  exact ⟨hto.1, hto.2.1⟩

/-- **Every block keeps its class and its capacity.** -/
theorem kept (h : ValueWrites hs file1 file' k d size own') {j : Nat} (hj : Used file j) :
    Kept file file' j := by
  by_cases hjk : j = k
  · subst hjk
    exact ⟨Or.inl ⟨hs.isDocument h.mem, h.header.1⟩, h.header.2.2⟩
  · by_cases hjo : j ∈ own'
    · have hT := (h.toasts j hjo).2.1
      obtain ⟨hT', heq⟩ := h.toast hjo
      refine ⟨Or.inr ⟨hT, hT'⟩, ?_⟩
      rw [hT'.capacity, heq, h.capacity j hjo, hT.capacity]
    · exact Kept.of_agrees (hs.blocks.block j hj) (h.agrees hj hjk hjo)

theorem blocks (h : ValueWrites hs file1 file' k d size own') : Blocks file' T.nodes :=
  hs.blocks.kept h.all.indexes_eq h.all.freeList_eq (by rw [h.all.header_eq]) fun _ hj => h.kept hj

/-- **The other documents** keep their elements and their toasts. -/
theorem carried (h : ValueWrites hs file1 file' k d size own') {j : Nat} (hj : j ∈ T.nodes)
    (hjk : j ≠ k) : Relinked file file' j ∧
      ∀ t ∈ own j, Alive file' t ∧ Agrees file file' t (toastAt file t).capacity := by
  have hd := hs.isDocument hj
  have hagrees := h.agrees (Or.inl (hs.alive hj)) hjk (h.notMem hj)
  refine ⟨Relinked.of_agrees hd (hagrees.mono ?_), ?_⟩
  · rw [hd.capacity]
    exact hd.size_le
  · intro t ht
    have htexts := (hs.doc j hj).texts
    have halive := htexts.alive t ht
    have htk : t ≠ k := fun he => hs.toast_notMem hj ht (he ▸ h.mem)
    refine ⟨(h.alive_iff t).mpr halive, ?_⟩
    rw [← (htexts.toast t ht).capacity]
    exact h.agrees (Or.inl halive) htk fun hto => (h.toasts t hto).2.2 j hj hjk ht

/-- **The document** has the new value and uses the toasts `own'`. -/
theorem doc (h : ValueWrites hs file1 file' k (valueAt pre) v.type.valueSize own')
    (hes : es k = pre ++ ⟨key, v⟩ :: post) (htype : v'.type = v.type)
    (htexts : Texts file' own' (getDocumentHeader file k).firstToastIndex
      (textsOf (pre ++ ⟨key, v'⟩ :: post)))
    (hlist : ∃ ts, ToastList file1 (getDocumentHeader file k).firstToastIndex ts ∧ ts.Nodup ∧
      ∀ t ∈ ts, t ∈ own')
    (hnew : HoldsValue (blockAt file' k) (valueAt pre) v') :
    Doc file' k (pre ++ ⟨key, v'⟩ :: post) own' := by
  have hD := hs.doc k h.mem
  have hholds := hD.holds
  have hkeys := hD.keys
  have hcount := hD.count
  have hsize := hD.size
  rw [hes] at hholds hkeys hcount hsize
  have hhdr := h.header.2.1
  obtain ⟨ts, hts, hn, hsub⟩ := hlist
  refine ⟨?_, ?_, ?_, ?_, ?_, ts, ?_, hn, hsub⟩
  · rw [hhdr, hcount, List.length_append, List.length_append]
    rfl
  · rw [hhdr, hsize, storedSize_value, storedSize_value, htype]
  · exact holdsElements_value hholds (hs.value_le h.mem hes) htype hnew h.outside
  · rw [List.map_append, List.map_cons] at hkeys ⊢
    exact hkeys
  · rw [hhdr]
    exact htexts
  · rw [hhdr]
    exact hts.congr fun t ht => (h.toast (hsub t ht)).2

/-- **The store** after the value was set, from its document. -/
theorem store {elements : List StoredElement} (h : ValueWrites hs file1 file' k d size own')
    (hdoc : Doc file' k elements own') :
    Store file' T (Function.update es k elements) (Function.update own k own') := by
  have hheaders := h.headers
  refine ⟨h.blocks, hs.nodup, ?_, ?_, ?_, ?_, ?_, ?_⟩
  · refine hs.links.congr ?_
    intro j hj
    rw [sonOf, sonOf, brotherOf, brotherOf, hheaders j hj]
    exact ⟨rfl, rfl⟩
  · rw [hheaders 0 hs.root_mem]
    exact hs.root
  · rw [hheaders 0 hs.root_mem]
    exact hs.rootToast
  · rw [h.all.header_eq]
    exact hs.nodes
  · intro j hj
    by_cases hjk : j = k
    · subst hjk
      rw [Function.update_self, Function.update_self]
      exact hdoc
    · rw [Function.update_of_ne hjk, Function.update_of_ne hjk]
      obtain ⟨h1, h2⟩ := h.carried hj hjk
      exact (hs.doc j hj).frame h1 (fun t ht => (h2 t ht).1) fun t ht => (h2 t ht).2
  · intro i hi j hj hij t ht
    by_cases hik : i = k
    · subst hik
      rw [Function.update_self] at ht
      rw [Function.update_of_ne (Ne.symm hij)]
      exact (h.toasts t ht).2.2 j hj (Ne.symm hij)
    · rw [Function.update_of_ne hik] at ht
      by_cases hjk : j = k
      · subst hjk
        rw [Function.update_self]
        exact fun hto => (h.toasts t hto).2.2 i hi hik ht
      · rw [Function.update_of_ne hjk]
        exact hs.apart i hi j hj hij t ht

end ValueWrites

/-- **A value set**: the chunks of the texts changed within the toasts `own'`, then the value
written to the document block. -/
theorem Store.setValue (hs : Store file T es own) (hk : k ∈ T.nodes)
    (hes : es k = pre ++ ⟨key, v⟩ :: post) (htype : v'.type = v.type)
    (hown : ∀ t ∈ own', Alive file t ∧ IsToast file t ∧ ∀ j ∈ T.nodes, j ≠ k → t ∉ own j)
    (hw : Writes hs.blocks.layout (fun j _ => j ∈ own') file file1)
    (hcap : ∀ t ∈ own', (toastAt file1 t).capacity = (toastAt file t).capacity)
    (htexts : Texts file1 own' (getDocumentHeader file k).firstToastIndex
      (textsOf (pre ++ ⟨key, v'⟩ :: post)))
    (hreads : ∀ g ∈ textsOf pre ++ textsOf post,
      TextKept file file1 (getDocumentHeader file k).firstToastIndex g)
    (hlist : ∃ ts, ToastList file1 (getDocumentHeader file k).firstToastIndex ts ∧ ts.Nodup ∧
      ∀ t ∈ ts, t ∈ own')
    (hw2 : Writes hs.blocks.layout
      (Layout.span k (valueAt pre) (valueAt pre + v.type.valueSize)) file1 file')
    (hnew : HoldsValue (blockAt file' k) (valueAt pre) v') :
    Edited file file' T es own k pre key v' post own' ∧
      (∀ g ∈ textsOf (pre ++ ⟨key, v'⟩ :: post),
        TextKept file1 file' (getDocumentHeader file k).firstToastIndex g) ∧
      ∀ t ∈ own', toastAt file' t = toastAt file1 t := by
  have hat : sizeofDocumentHeader ≤ valueAt pre := by
    unfold valueAt
    omega
  have h : ValueWrites hs file1 file' k (valueAt pre) v.type.valueSize own' :=
    ⟨hk, hown, hw, htexts.toast, hcap, hat, hw2⟩
  obtain ⟨htexts', hframe⟩ := htexts.frame (fun t ht => (h.alive_iff t).mpr (hown t ht).1)
    h.agrees_toast
  refine ⟨⟨h.store (h.doc hes htype htexts' hlist hnew), h.headers,
    fun j hj hjk hjo => h.agrees hj hjk hjo, ?_, ?_, ?_⟩, hframe, fun t ht => (h.toast ht).2⟩
  · intro j hj hjk
    obtain ⟨h1, h2⟩ := h.carried hj hjk
    exact (hs.doc j hj).entries_frame h1 (hs.attached hj) (fun t ht => (h2 t ht).1)
      fun t ht => (h2 t ht).2
  · intro g hg
    refine TextKept.trans (hreads g hg) (hframe g ?_)
    rw [textsOf_append_cons]
    rcases List.mem_append.mp hg with hg | hg
    · exact List.mem_append_left _ hg
    · refine List.mem_append_right _ ?_
      obtain ⟨e, he, hv⟩ := mem_textsOf.mp hg
      exact mem_textsOf.mpr ⟨e, List.mem_cons_of_mem _ he, hv⟩
  · intro j
    rw [h.alive_iff]
    exact ⟨Or.inl, fun hj => hj.elim id fun ht => (hown j ht).1⟩

end Value

/-! ## 2. The element of a key

The loop of `updateElement` goes through the document with the element iterator.  On stored elements
it stops at the first one of the key; the keys of a document differ, so that is the only one. -/

section Find

variable {strtod : CString → StrtodResult} {file : ZgdbFile A} {doc : Document}
  {key input : CString} {pre post : List StoredElement} {e : StoredElement}

/-- The switch knows every type that is stored. -/
theorem updateFound_ne_none (block : A) (d : Nat) (v : StoredValue) :
    updateFound strtod file block doc d v.type.code input ≠ some none := by
  cases v with
  | boolean v => simp [updateFound, StoredValue.type]
  | int v =>
    have h : ElementType.int.code ≠ ElementType.boolean.code := by decide
    simp only [updateFound, StoredValue.type, if_neg h, if_true]
    split <;> simp
  | double v =>
    have h1 : ElementType.double.code ≠ ElementType.boolean.code := by decide
    have h2 : ElementType.double.code ≠ ElementType.int.code := by decide
    simp only [updateFound, StoredValue.type, if_neg h1, if_neg h2, if_true]
    split <;> simp
  | text f =>
    have h1 : ElementType.text.code ≠ ElementType.boolean.code := by decide
    have h2 : ElementType.text.code ≠ ElementType.int.code := by decide
    have h3 : ElementType.text.code ≠ ElementType.double.code := by decide
    simp only [updateFound, StoredValue.type, if_neg h1, if_neg h2, if_neg h3, if_true]
    cases updateText file block doc d input <;> simp

/-- **The loop stops at the element of the key.** -/
theorem updateLoop_found (hkey : key.chars = e.key.chars) :
    ∀ {pre : List StoredElement} {it : ElementIterator A}, it.Window file →
    HoldsElements (view file.mem it.block) it.offsetInFile (pre ++ e :: post) →
    (∀ x ∈ pre, key.chars ≠ x.key.chars) →
    updateLoop strtod file doc key input (pre ++ e :: post).length it
      = (updateFound strtod file it.block doc (it.offsetInFile + storedSize pre)
          e.value.type.code input).join
  | [], it, hw, ⟨he, _⟩, _ => by
    obtain ⟨h1, -, -, -, -⟩ := nextEl_of_holds hw he false
    have hne : updateFound strtod file it.block doc it.offsetInFile e.value.type.code input
        ≠ some none := updateFound_ne_none _ _ _
    rw [List.nil_append, List.length_cons, updateLoop]
    simp only [h1, if_pos hkey, storedSize_nil, Nat.add_zero]
    generalize updateFound strtod file it.block doc it.offsetInFile e.value.type.code input
      = r at hne
    rcases r with _ | _ | r
    · rfl
    · exact absurd rfl hne
    · rfl
  | x :: pre, it, hw, ⟨hx, hxs⟩, hpre => by
    obtain ⟨h1, h2, h3, -, h5⟩ := nextEl_of_holds hw hx false
    have hkx : ¬ key.chars = x.key.chars := hpre x List.mem_cons_self
    have hxs' : HoldsElements (view file.mem (nextEl file it false).2.block)
        (nextEl file it false).2.offsetInFile (pre ++ e :: post) := by rw [h3, h5]; exact hxs
    have ih := updateLoop_found hkey h2 hxs' fun y hy => hpre y (List.mem_cons_of_mem _ hy)
    rw [h3, h5] at ih
    rw [List.cons_append, List.length_cons, updateLoop]
    simp only [h1, if_neg hkx]
    rw [ih, storedSize_cons, Nat.add_assoc]

/-- A key that no element has is not found. -/
theorem updateLoop_absent : ∀ {es : List StoredElement} {it : ElementIterator A}, it.Window file →
    HoldsElements (view file.mem it.block) it.offsetInFile es →
    (∀ x ∈ es, key.chars ≠ x.key.chars) →
    updateLoop strtod file doc key input es.length it = some (.elementNotFound, file)
  | [], _, _, _, _ => rfl
  | x :: es, it, hw, ⟨hx, hxs⟩, hes => by
    obtain ⟨h1, h2, h3, -, h5⟩ := nextEl_of_holds hw hx false
    have hkx : ¬ key.chars = x.key.chars := hes x List.mem_cons_self
    have hxs' : HoldsElements (view file.mem (nextEl file it false).2.block)
        (nextEl file it false).2.offsetInFile es := by rw [h3, h5]; exact hxs
    rw [List.length_cons, updateLoop]
    simp only [h1, if_neg hkx]
    exact updateLoop_absent h2 hxs' fun y hy => hes y (List.mem_cons_of_mem _ hy)

/-- **What `updateElement` does is decided by the first element of the key.** -/
theorem updateElement_of_holds (hcount : doc.header.attrCount = (pre ++ e :: post).length)
    (hholds : HoldsElements (blockAt file doc.header.indexAttached) sizeofDocumentHeader
      (pre ++ e :: post)) (hkey : key.chars = e.key.chars) (hpre : ∀ x ∈ pre, x.key ≠ e.key) :
    updateElement strtod file doc key input
      = (updateFound strtod file (blockPos file doc.header.indexAttached) doc
          (sizeofDocumentHeader + storedSize pre) e.value.type.code input).join := by
  have hlen : ¬ key.strlen > 13 := by
    have h1 := e.key.short
    rw [← hkey] at h1
    simp only [CString.strlen]
    omega
  have hw : (createElIterator file doc).Window file := fun _ h => by cases h
  have hpre' : ∀ x ∈ pre, key.chars ≠ x.key.chars := by
    intro x hx he
    refine hpre x hx ?_
    rw [Name.mk.injEq, ← he, hkey]
  rw [updateElement, if_neg hlen, hcount]
  exact updateLoop_found hkey hw hholds hpre'

/-- The text case of the switch. -/
theorem updateFound_text (block : A) (d : Nat) :
    (updateFound strtod file block doc d ElementType.text.code input).join
      = (updateText file block doc d input).map fun file => (.updateOk, file) := by
  have h1 : ElementType.text.code ≠ ElementType.boolean.code := by decide
  have h2 : ElementType.text.code ≠ ElementType.int.code := by decide
  have h3 : ElementType.text.code ≠ ElementType.double.code := by decide
  simp only [updateFound, if_neg h1, if_neg h2, if_neg h3, if_true]
  cases updateText file block doc d input <;> rfl

end Find

section Element

variable {strtod : CString → StrtodResult} {file : ZgdbFile A} {T : Forest Nat}
  {es : Nat → List StoredElement} {own : Nat → List Nat} {k : Nat} {key input : CString}

/-- **What `updateElement` does is decided by the element of the key.** -/
theorem updateElement_found (hs : Store file T es own) (hk : k ∈ T.nodes) (p : Nat)
    {pre post : List StoredElement} {name : Name} {v : StoredValue}
    (hes : es k = pre ++ ⟨name, v⟩ :: post) (hkey : key.chars = name.chars) :
    updateElement strtod file (documentAt file k p) key input
      = (updateFound strtod file (blockPos file k) (documentAt file k p)
          (sizeofDocumentHeader + storedSize pre) v.type.code input).join := by
  have hD := hs.doc k hk
  have hcount := hD.count
  have hholds := hD.holds
  rw [hes] at hcount hholds
  have hatt : (documentAt file k p).header.indexAttached = k := hs.attached hk
  have hpre : ∀ x ∈ pre, x.key ≠ name := by
    intro x hx he
    have hkeys := hD.keys
    rw [hes, List.map_append, List.map_cons, List.nodup_append] at hkeys
    exact hkeys.2.2 x.key (List.mem_map_of_mem hx) name List.mem_cons_self he
  rw [updateElement_of_holds hcount (by rw [hatt]; exact hholds) hkey hpre, hatt]

/-- **A key that no element has** leaves the file as it was. -/
theorem updateElement_absent (hs : Store file T es own) (hk : k ∈ T.nodes) (p : Nat)
    (habsent : ∀ e ∈ es k, key.chars ≠ e.key.chars) : ∃ status,
    updateElement strtod file (documentAt file k p) key input = some (status, file) := by
  have hD := hs.doc k hk
  by_cases hlen : key.strlen > 13
  · exact ⟨.invalidName, if_pos hlen⟩
  have hw : (createElIterator file (documentAt file k p)).Window file := fun _ h => by cases h
  have hholds : HoldsElements (view file.mem (createElIterator file (documentAt file k p)).block)
      (createElIterator file (documentAt file k p)).offsetInFile (es k) :=
    holdsElements_documentAt (hs.attached hk) hD.holds p
  have hcount : (documentAt file k p).header.attrCount = (es k).length := hD.count
  refine ⟨.elementNotFound, ?_⟩
  rw [updateElement, if_neg hlen, hcount]
  exact updateLoop_absent hw hholds habsent

end Element

/-! ## 3. Scalars

An int, a boolean or a double is replaced by a value of the same size, at the same place.  The
toasts of the document are not touched. -/

section Scalar

variable {strtod : CString → StrtodResult} {file file' : ZgdbFile A} {T : Forest Nat}
  {es : Nat → List StoredElement} {own : Nat → List Nat} {k : Nat} {key input : CString}
  {pre post : List StoredElement} {name : Name} {v : StoredValue}

/-- Nothing is edited. -/
theorem Edited.refl (hs : Store file T es own) (hk : k ∈ T.nodes)
    (hes : es k = pre ++ ⟨name, v⟩ :: post) :
    Edited file file T es own k pre name v post (own k) := by
  refine ⟨?_, fun _ _ => rfl, fun _ _ _ _ _ _ => rfl, fun _ _ _ => rfl,
    fun _ _ => .refl _ _ _,
    fun j => ⟨Or.inl, fun h => h.elim id ((hs.doc k hk).texts.alive j)⟩⟩
  rw [← hes, Function.update_eq_self, Function.update_eq_self]
  exact hs

/-- A scalar has no chunks. -/
theorem textsOf_scalar {v' : StoredValue} (hv : v.type ≠ .text) (htype : v'.type = v.type) :
    textsOf (pre ++ ⟨name, v'⟩ :: post) = textsOf (pre ++ ⟨name, v⟩ :: post) ∧
      textsOf (pre ++ ⟨name, v⟩ :: post) = textsOf pre ++ textsOf post := by
  have hnone : ∀ w : StoredValue, w.type ≠ .text →
      textsOf (pre ++ ⟨name, w⟩ :: post) = textsOf pre ++ textsOf post := by
    intro w hw
    rw [textsOf_append_cons]
    cases w with
    | text f => exact absurd rfl hw
    | _ => rfl
  exact ⟨(hnone v' (htype ▸ hv)).trans (hnone v hv).symm, hnone v hv⟩

/-- **A scalar overwritten in place.** -/
theorem Store.setScalar (hs : Store file T es own) (hk : k ∈ T.nodes)
    (hes : es k = pre ++ ⟨name, v⟩ :: post) {v' : StoredValue} (hv : v.type ≠ .text)
    (htype : v'.type = v.type) {α : Type} {K : Kind Obj α} {a : α}
    (hsize : K.size = v.type.valueSize)
    (hholds : ∀ (m : Mem Nat Obj) (d : Nat), Holds K m d a → HoldsValue m d v')
    (hf : file' = fwriteAt K file (blockPos file k) (valueAt pre) a) :
    Edited file file' T es own k pre name v' post (own k) ∧
      ∀ t ∈ own k, toastAt file' t = toastAt file t := by
  have hD := hs.doc k hk
  have htexts := hD.texts
  rw [hes, ← (textsOf_scalar hv htype).1] at htexts
  have hend : valueAt pre + K.size ≤ hs.blocks.layout.len k := by
    rw [hsize]
    exact (Nat.le_add_right _ _).trans (hs.value_le hk hes)
  have hw : Writes hs.blocks.layout (Layout.span k (valueAt pre) (valueAt pre + v.type.valueSize))
      file file' := by
    rw [hf, ← hsize]
    exact writes_fwriteAt (Or.inl (hs.alive hk)) hend
  have hnew : HoldsValue (blockAt file' k) (valueAt pre) v' := by
    rw [hf, blockAt_fwriteAt]
    exact hholds _ _ holds_store
  obtain ⟨hedit, -, hto⟩ := hs.setValue hk hes htype
    (fun t ht => ⟨hD.texts.alive t ht, hD.texts.toast t ht, fun j hj hjk hto =>
      hs.apart j hj k hk hjk t hto ht⟩) Writes.refl (fun _ _ => rfl) htexts
        (fun _ _ => .refl _ _ _) hD.list
    hw hnew
  exact ⟨hedit, hto⟩

/-- **An update of a scalar** sets its value, or leaves the file as it was. -/
theorem updateElement_scalar (hs : Store file T es own) (hk : k ∈ T.nodes) (p : Nat)
    (hes : es k = pre ++ ⟨name, v⟩ :: post) (hkey : key.chars = name.chars) (hv : v.type ≠ .text) :
    ∃ status file' v', updateElement strtod file (documentAt file k p) key input
        = some (status, file') ∧ v'.type = v.type ∧
      Edited file file' T es own k pre name v' post (own k) ∧
      ∀ t ∈ own k, toastAt file' t = toastAt file t := by
  have hsame : Edited file file T es own k pre name v post (own k) ∧
      ∀ t ∈ own k, toastAt file t = toastAt file t := ⟨Edited.refl hs hk hes, fun _ _ => rfl⟩
  rw [updateElement_found hs hk p hes hkey]
  cases v with
  | boolean b =>
    refine ⟨.updateOk, _, .boolean (str2boolean input), rfl, rfl, ?_⟩
    exact hs.setScalar hk hes hv rfl (K := byteK) rfl (fun _ _ h => h) rfl
  | int i =>
    have h1 : ElementType.int.code ≠ ElementType.boolean.code := by decide
    simp only [updateFound, StoredValue.type, if_neg h1, if_true]
    split
    · rename_i w hw
      refine ⟨.updateOk, _, .int w, rfl, rfl, ?_⟩
      exact hs.setScalar hk hes hv rfl (K := intK) rfl (fun _ _ h => h) rfl
    · exact ⟨.typeParseError, file, .int i, rfl, rfl, hsame⟩
  | double x =>
    have h1 : ElementType.double.code ≠ ElementType.boolean.code := by decide
    have h2 : ElementType.double.code ≠ ElementType.int.code := by decide
    simp only [updateFound, StoredValue.type, if_neg h1, if_neg h2, if_true]
    split
    · rename_i w hw
      refine ⟨.updateOk, _, .double w, rfl, rfl, ?_⟩
      exact hs.setScalar hk hes hv rfl (K := doubleK) rfl (fun _ _ h => h) rfl
    · exact ⟨.typeParseError, file, .double x, rfl, rfl, hsame⟩
  | text f => exact absurd rfl hv

/-- The text case of the switch. -/
theorem updateElement_text (hs : Store file T es own) (hk : k ∈ T.nodes) (p : Nat)
    {f : FirstTextChunk} (hes : es k = pre ++ ⟨name, .text f⟩ :: post)
    (hkey : key.chars = name.chars) :
    updateElement strtod file (documentAt file k p) key input
      = (updateText file (blockPos file k) (documentAt file k p)
          (sizeofDocumentHeader + storedSize pre) input).map fun file => (.updateOk, file) := by
  rw [updateElement_found hs hk p hes hkey]
  exact updateFound_text _ _

end Scalar

end Zgdb
