/-
# A sound store

`Doc` is what is known of one live document: its elements lie behind its header one after the
other, and its texts and its toast list are in order.  `Store` puts the parts together: every
block is in its place, the son and brother links encode an ordered tree whose nodes are the live
documents, each of these is a `Doc`, and no two of them share a toast.

The tree, the stored elements and the toasts of each document are the abstract state; the
operations are described by what they do to it.
-/
import Zgdb.Stored
import Zgdb.Texts
import Zgdb.Lib.Forest

namespace Zgdb

open Zgdb.Lib AddrSpace

/-- A link field of a header: index 0 is no link. -/
def link (order : Nat) : Option Nat := if order = 0 then none else some order

@[simp] theorem link_zero : link 0 = none := rfl

theorem link_of_ne {order : Nat} (h : order ≠ 0) : link order = some order := if_neg h

theorem link_eq_some {order k : Nat} : link order = some k ↔ order = k ∧ k ≠ 0 := by
  unfold link
  split
  · rename_i h
    simp only [reduceCtorEq, false_iff, not_and, not_not]
    omega
  · rename_i h
    rw [Option.some.injEq]
    exact ⟨fun he => ⟨he, he ▸ h⟩, And.left⟩

theorem link_eq_none {order : Nat} : link order = none ↔ order = 0 := by
  unfold link
  split <;> simp_all

variable {A : Type} [BlockSpace A]

def sonOf (file : ZgdbFile A) (k : Nat) : Option Nat := link (getDocumentHeader file k).indexSon

def brotherOf (file : ZgdbFile A) (k : Nat) : Option Nat :=
  link (getDocumentHeader file k).indexBrother

/-- The document of an index as the iterators of the source hand it out. -/
def documentAt (file : ZgdbFile A) (k indexParent : Nat) : Document :=
  ⟨isRootDocumentHeader (getDocumentHeader file k), indexParent, getDocumentHeader file k⟩

/-- All entries of the stored document of an index. -/
def entries (file : ZgdbFile A) (k : Nat) : List ElementEntry :=
  elementEntries file (documentAt file k 0) true

/-! ## 1. One document

A document is described by its elements and by the set of toasts that it uses; the frame rule says
which bytes this description depends on. -/

/-- Following `nextToastIndex` from `order` gives the toasts `ts`, then 0. -/
def ToastList (file : ZgdbFile A) : Nat → List Nat → Prop
  | order, [] => order = 0
  | order, t :: ts => order = t ∧ t ≠ 0 ∧ ToastList file (toastAt file t).nextToastIndex ts

/-- The texts among stored elements. -/
def StoredElement.first? (e : StoredElement) : Option FirstTextChunk :=
  match e.value with
  | .text f => some f
  | _ => none

def textsOf (es : List StoredElement) : List FirstTextChunk := es.filterMap StoredElement.first?

theorem mem_textsOf {es : List StoredElement} {f : FirstTextChunk} :
    f ∈ textsOf es ↔ ∃ e ∈ es, e.value = .text f := by
  rw [textsOf, List.mem_filterMap]
  refine exists_congr fun e => and_congr_right ?_
  intro _
  unfold StoredElement.first?
  split
  · rename_i g hg
    rw [hg, Option.some.injEq, StoredValue.text.injEq]
  · rename_i hne
    exact ⟨fun h => absurd h (by simp), fun h => absurd h (hne f)⟩

/-- A live document: its elements `es` and the toasts `own` it uses.  The elements lie behind the
header one after the other and take the rest of `size`; no key occurs twice.  The texts among them
are chains in `own`, and `own` has every toast of the list that begins at `firstToastIndex`.  It may
have more: toasts that are reached along a chain of chunks only, which is what goes wrong when such
a document is deleted. -/
structure Doc (file : ZgdbFile A) (k : Nat) (es : List StoredElement) (own : List Nat) : Prop where
  count : (getDocumentHeader file k).attrCount = es.length
  size : (getDocumentHeader file k).size = sizeofDocumentHeader + storedSize es
  holds : HoldsElements (blockAt file k) sizeofDocumentHeader es
  keys : (es.map StoredElement.key).Nodup
  texts : Texts file own (getDocumentHeader file k).firstToastIndex (textsOf es)
  list : ∃ ts, ToastList file (getDocumentHeader file k).firstToastIndex ts ∧ ts.Nodup ∧
    ∀ t ∈ ts, t ∈ own

/-- At most the links of a document are new: this is how its neighbours see a creation or a
deletion.  Its elements lie where they were, byte by byte. -/
structure Relinked (file file' : ZgdbFile A) (k : Nat) : Prop where
  header : getDocumentHeader file' k =
    { getDocumentHeader file k with
      indexSon := (getDocumentHeader file' k).indexSon
      indexBrother := (getDocumentHeader file' k).indexBrother }
  body : ∀ d, sizeofDocumentHeader ≤ d → d < (getDocumentHeader file k).size →
    blockAt file' k d = blockAt file k d

theorem Relinked.attached {file file' : ZgdbFile A} {k : Nat} (h : Relinked file file' k) :
    (getDocumentHeader file' k).indexAttached = (getDocumentHeader file k).indexAttached := by
  rw [h.header]

theorem Relinked.name {file file' : ZgdbFile A} {k : Nat} (h : Relinked file file' k) :
    (getDocumentHeader file' k).name = (getDocumentHeader file k).name := by
  rw [h.header]

theorem Relinked.firstToastIndex {file file' : ZgdbFile A} {k : Nat} (h : Relinked file file' k) :
    (getDocumentHeader file' k).firstToastIndex
      = (getDocumentHeader file k).firstToastIndex := by
  rw [h.header]

theorem Relinked.trans {file file' file'' : ZgdbFile A} {k : Nat} (h : Relinked file file' k)
    (h' : Relinked file' file'' k) : Relinked file file'' k := by
  refine ⟨?_, ?_⟩
  · rw [h'.header, h.header]
  · intro d hd hlt
    rw [h'.body d hd (by rw [h.header]; exact hlt), h.body d hd hlt]

/-- A document whose bytes are as before. -/
theorem Relinked.of_agrees {file file' : ZgdbFile A} {k : Nat}
    (hk : IsDocument file k) (h : Agrees file file' k (getDocumentHeader file k).size) :
    Relinked file file' k := by
  have heq := (hk.of_eqOn (h.mono hk.le_size)).2.1
  exact ⟨by rw [heq], fun d _ hd => h d hd⟩

theorem ToastList.congr_next {file file' : ZgdbFile A} {order : Nat} {ts : List Nat}
    (h : ToastList file order ts)
    (heq : ∀ t ∈ ts, (toastAt file' t).nextToastIndex = (toastAt file t).nextToastIndex) :
    ToastList file' order ts := by
  induction ts generalizing order with
  | nil => exact h
  | cons t ts ih =>
    obtain ⟨ho, ht, hts⟩ := h
    refine ⟨ho, ht, ?_⟩
    rw [heq t List.mem_cons_self]
    exact ih hts fun x hx => heq x (List.mem_cons_of_mem _ hx)

theorem ToastList.congr {file file' : ZgdbFile A} {order : Nat} {ts : List Nat}
    (h : ToastList file order ts) (heq : ∀ t ∈ ts, toastAt file' t = toastAt file t) :
    ToastList file' order ts := h.congr_next fun t ht => by rw [heq t ht]

/-- A list that is followed has one way. -/
theorem ToastList.unique {file : ZgdbFile A} {order : Nat} {ts us : List Nat}
    (h : ToastList file order ts) (h' : ToastList file order us) : ts = us := by
  induction ts generalizing order us with
  | nil =>
    cases us with
    | nil => rfl
    | cons u us => exact absurd (h'.1.symm.trans h) h'.2.1
  | cons t ts ih =>
    cases us with
    | nil => exact absurd (h.1.symm.trans h') h.2.1
    | cons u us =>
      obtain ⟨rfl, -, hts⟩ := h
      obtain ⟨rfl, -, hus⟩ := h'
      rw [ih hts hus]

/-- The elements of document `k` lie where the iterator looks for them, at the index that its header
names. -/
theorem holdsElements_documentAt {file : ZgdbFile A} {k : Nat} {es : List StoredElement}
    (hatt : (getDocumentHeader file k).indexAttached = k)
    (h : HoldsElements (blockAt file k) sizeofDocumentHeader es) (p : Nat) :
    HoldsElements (blockAt file (documentAt file k p).header.indexAttached) sizeofDocumentHeader
      es := by
  have hk : (documentAt file k p).header.indexAttached = k := hatt
  rwa [hk]

/-- **What the iterator returns for document `k`.** -/
theorem elementEntries_documentAt {file : ZgdbFile A} {k : Nat} {es : List StoredElement}
    (hatt : (getDocumentHeader file k).indexAttached = k)
    (hcount : (getDocumentHeader file k).attrCount = es.length)
    (h : HoldsElements (blockAt file k) sizeofDocumentHeader es) (p : Nat) (reqData : Bool) :
    elementEntries file (documentAt file k p) reqData
      = entriesOf file (getDocumentHeader file k).firstToastIndex reqData sizeofDocumentHeader es :=
  elementEntries_eq hcount (holdsElements_documentAt hatt h p) reqData

namespace Doc

variable {file file' : ZgdbFile A} {k : Nat} {es : List StoredElement} {own : List Nat}

/-- What iterating the document gives. -/
theorem entries_eq (h : Doc file k es own) (hk : (getDocumentHeader file k).indexAttached = k) :
    entries file k = entriesOf file (getDocumentHeader file k).firstToastIndex true
      sizeofDocumentHeader es :=
  elementEntries_documentAt hk h.count h.holds 0 true

/-- **The frame rule**: a document depends on its own bytes, without its links, and on those of
its toasts. -/
theorem frame (h : Doc file k es own) (hk : Relinked file file' k)
    (halive : ∀ t ∈ own, Alive file' t)
    (heq : ∀ t ∈ own, Agrees file file' t (toastAt file t).capacity) : Doc file' k es own := by
  have htexts := h.texts.frame halive heq
  obtain ⟨ts, hts, hn, hsub⟩ := h.list
  refine ⟨?_, ?_, ?_, h.keys, ?_, ts, ?_, hn, hsub⟩
  · rw [hk.header]
    exact h.count
  · rw [hk.header]
    exact h.size
  · refine h.holds.of_eqOn (fun d hd hlt => hk.body d hd ?_) (Nat.le_refl _) (Nat.le_refl _)
    rw [h.size]
    exact hlt
  · rw [hk.firstToastIndex]
    exact htexts.1
  · rw [hk.firstToastIndex]
    refine hts.congr ?_
    intro t ht
    have htoast := h.texts.toast t (hsub t ht)
    exact (htoast.of_eqOn ((heq t (hsub t ht)).mono htoast.le_capacity)).2.1

/-- A framed document reads as before. -/
theorem entries_frame (h : Doc file k es own) (hk : Relinked file file' k)
    (hatt : (getDocumentHeader file k).indexAttached = k) (halive : ∀ t ∈ own, Alive file' t)
    (heq : ∀ t ∈ own, Agrees file file' t (toastAt file t).capacity) :
    entries file' k = entries file k := by
  rw [h.entries_eq hatt, (h.frame hk halive heq).entries_eq (hk.attached.trans hatt),
    hk.firstToastIndex]
  exact entriesOf_congr fun e he f hf =>
    ((h.texts.frame halive heq).2 f (mem_textsOf.mpr ⟨e, he, hf⟩)).reads

end Doc

/-! ## 2. The store -/

/-- The invariant of the store.  `T` is the tree of the documents, `es k` and `own k` are the
elements and the toasts of document `k`.

The tree is what the links of the headers encode, the first son and the next brother, from the root
at index 0; its nodes are all the live documents, and none of them is met twice.  No toast belongs
to two documents (`apart`), so the texts of one can be changed, and its toasts freed, without regard
to the others.  A toast that is ALIVE need not belong to any document. -/
structure Store (file : ZgdbFile A) (T : Forest Nat) (es : Nat → List StoredElement)
    (own : Nat → List Nat) : Prop where
  blocks : Blocks file T.nodes
  nodup : T.nodes.Nodup
  links : T.Represents (sonOf file) (brotherOf file) (some 0)
  root : isRootDocumentHeader (getDocumentHeader file 0) = true
  rootToast : (getDocumentHeader file 0).firstToastIndex = 0
  nodes : file.header.nodes = T.nodes.length
  doc : ∀ k ∈ T.nodes, Doc file k (es k) (own k)
  apart : ∀ j ∈ T.nodes, ∀ k ∈ T.nodes, j ≠ k → ∀ t ∈ own j, t ∉ own k

namespace Store

variable {file : ZgdbFile A} {T : Forest Nat} {es : Nat → List StoredElement} {own : Nat → List Nat}

theorem root_mem (h : Store file T es own) : 0 ∈ T.nodes := h.links.entry_mem rfl

theorem alive (h : Store file T es own) {k : Nat} (hk : k ∈ T.nodes) : Alive file k :=
  ((h.blocks.docs k).mp hk).1

theorem isDocument (h : Store file T es own) {k : Nat} (hk : k ∈ T.nodes) : IsDocument file k :=
  ((h.blocks.docs k).mp hk).2

theorem attached (h : Store file T es own) {k : Nat} (hk : k ∈ T.nodes) :
    (getDocumentHeader file k).indexAttached = k := (h.isDocument hk).attached

/-- A toast is no document. -/
theorem toast_notMem (h : Store file T es own) {k t : Nat} (hk : k ∈ T.nodes) (ht : t ∈ own k) :
    t ∉ T.nodes := fun htn =>
  (h.isDocument htn).not_isToast ((h.doc k hk).texts.toast t ht)

theorem root_brother (h : Store file T es own) : brotherOf file 0 = none := by
  have hr := h.root
  simp only [isRootDocumentHeader, decide_eq_true_eq] at hr
  rw [brotherOf, hr.2.2.2, link_zero]

/-- The tree is the root with what is below it. -/
theorem tree_eq (h : Store file T es own) : T = .cons 0 (T.sonsOf 0) .nil := by
  cases T with
  | nil => exact absurd h.links (Option.some_ne_none 0)
  | cons a s b =>
    obtain ⟨ha, _, hb⟩ := h.links
    obtain rfl : 0 = a := Option.some.inj ha
    rw [h.root_brother] at hb
    rw [hb.eq_nil, Forest.sonsOf, if_pos rfl]

end Store

end Zgdb
