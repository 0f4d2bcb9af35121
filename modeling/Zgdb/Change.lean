/-
# One text changed among the texts of a document

A change of one text that goes through its own chunks and through fresh ones keeps the invariant
of the texts and leaves the other texts as they read (`Texts.change`).  The loop that rewrites a
chain is the case without fresh chunks (`Texts.rewrite`): it serves a text that keeps its size,
that shrinks, and that grows inside its last chunk.
-/
import Zgdb.Texts

namespace Zgdb

open Zgdb.Lib AddrSpace

variable {A : Type} [BlockSpace A]

/-! ## 1. The chunks that are changed

The new chain of the text may be longer than the old one.  What it has in addition comes from slots
that no text used, so the chains stay apart and no other text has changed. -/

section Change

variable {file file' : ZgdbFile A} {own own' : List Nat} {first : Nat}
    {pre post : List FirstTextChunk}
  {f f' : FirstTextChunk}

theorem mem_of_mem_append {α : Type} {pre post : List α} {a x : α} (h : x ∈ pre ++ post) :
    x ∈ pre ++ a :: post := by
  rcases List.mem_append.mp h with h | h
  · exact List.mem_append_left _ h
  · exact List.mem_append_right _ (List.mem_cons_of_mem _ h)

/-- The chunks of another text are not among those of the changed one. -/
theorem Texts.notMem_path (h : Texts file own first (pre ++ f :: post)) {g : FirstTextChunk}
    (hg : g ∈ pre ++ post) {x : Slot} (hx : x ∈ textPath file first g) :
    x ∉ textPath file first f := by
  obtain ⟨_, hpost, hcross⟩ := List.pairwise_append.mp h.disjoint
  rcases List.mem_append.mp hg with hg | hg
  · exact hcross g hg f List.mem_cons_self x hx
  · exact fun hxf => (List.pairwise_cons.mp hpost).1 g hg x hxf hx

/-- **One text changed**: in its own chunks and in such as were not in use. -/
theorem Texts.change (h : Texts file own first (pre ++ f :: post)) (hpos : 0 < f'.size)
    (hmem : ∀ t ∈ own, t ∈ own') (hal : ∀ t ∈ own', Alive file' t)
    (hto : ∀ t ∈ own', IsToast file' t)
    (hfits : ∀ t ∈ own',
      sizeofToast + (toastAt file' t).used * chunkRecord ≤ (toastAt file' t).capacity)
    (huse : ∀ x, InUse file own x → InUse file' own' x)
    (hheap : ∀ x, InUse file own x → x ∉ textPath file first f →
      chunkHeap file' x = chunkHeap file x)
    (hpath : ∀ x ∈ textPath file' first f',
      InUse file' own' x ∧ (x ∈ textPath file first f ∨ ¬ InUse file own x))
    (hnodup : (textPath file' first f').Nodup)
    (hroom : chunksLeft (toastAt file' first) ≠ 0 →
      (∀ t ∈ own', t = first) ∧ ∀ x, InUse file' own' x → (chunkAt file' x).toastIndex = first) :
    Texts file' own' first (pre ++ f' :: post) ∧
      ∀ g ∈ pre ++ post, TextKept file file' first g := by
  have hf : f ∈ pre ++ f :: post := List.mem_append_right _ List.mem_cons_self
  have hfirst := h.first_of_mem hf
  have hcell : ∀ g ∈ pre ++ post, ∀ x ∈ textPath file first g,
      chunkHeap file' x = chunkHeap file x := fun g hg x hx =>
    hheap x (h.inUse g (mem_of_mem_append hg) x hx) (h.notMem_path hg hx)
  have hpaths : ∀ g ∈ pre ++ post, textPath file' first g = textPath file first g := fun g hg =>
    Chain.path_congr_on fun x hx => congrArg Link.next (hcell g hg x hx)
  have hcases : ∀ g ∈ pre ++ f' :: post, g = f' ∨ g ∈ pre ++ post := by
    intro g hg
    rcases List.mem_append.mp hg with hg | hg
    · exact Or.inr (List.mem_append_left _ hg)
    · rcases List.mem_cons.mp hg with rfl | hg
      · exact Or.inl rfl
      · exact Or.inr (List.mem_append_right _ hg)
  refine ⟨⟨hal, hto, hfits, Or.inl (hmem _ hfirst), ?_, ?_, ?_, ?_, hroom⟩, ?_⟩
  · intro g hg
    rcases hcases g hg with rfl | hg
    · exact hpos
    · exact h.size_pos g (mem_of_mem_append hg)
  · intro g hg x hx
    rcases hcases g hg with rfl | hg
    · exact (hpath x hx).1
    · rw [hpaths g hg] at hx
      exact huse x (h.inUse g (mem_of_mem_append hg) x hx)
  · intro g hg
    rcases hcases g hg with rfl | hg
    · exact hnodup
    · rw [hpaths g hg]
      exact h.nodup g (mem_of_mem_append hg)
  · -- a chunk of the changed text is an old one of it, or was not in use
    have hout : ∀ g ∈ pre ++ post, ∀ x ∈ textPath file' first f', x ∉ textPath file' first g := by
      intro g hg x hx hxg
      rw [hpaths g hg] at hxg
      rcases (hpath x hx).2 with hxf | hxu
      · exact h.notMem_path hg hxg hxf
      · exact hxu (h.inUse g (mem_of_mem_append hg) x hxg)
    obtain ⟨hpre, hpost, hcross⟩ := List.pairwise_append.mp h.disjoint
    have hpost' := (List.pairwise_cons.mp hpost).2
    have hkeep : ∀ g ∈ pre ++ post, ∀ g' ∈ pre ++ post,
        (∀ x ∈ textPath file first g, x ∉ textPath file first g') →
        ∀ x ∈ textPath file' first g, x ∉ textPath file' first g' := by
      intro g hg g' hg' hd
      rw [hpaths g hg, hpaths g' hg']
      exact hd
    refine List.pairwise_append.mpr ⟨?_, List.pairwise_cons.mpr ⟨?_, ?_⟩, ?_⟩
    · exact hpre.imp_of_mem fun ha hb => hkeep _ (List.mem_append_left _ ha) _
        (List.mem_append_left _ hb)
    · intro g hg
      exact hout g (List.mem_append_right _ hg)
    · exact hpost'.imp_of_mem fun ha hb => hkeep _ (List.mem_append_right _ ha) _
        (List.mem_append_right _ hb)
    · intro g hg g' hg'
      rcases List.mem_cons.mp hg' with rfl | hg'
      · intro x hx hxf
        exact hout g (List.mem_append_left _ hg) x hxf hx
      · exact hkeep g (List.mem_append_left _ hg) g' (List.mem_append_right _ hg')
          (hcross g hg g' (List.mem_cons_of_mem _ hg'))
  · intro g hg
    refine ⟨hpaths g hg, ?_⟩
    have hnamed : ∀ x ∈ textPath file first g, Named file x.1 := fun x hx =>
      h.named (h.inUse g (mem_of_mem_append hg) x hx).mem
    have hnamed' : ∀ x ∈ textPath file' first g, Named file' x.1 := by
      intro x hx
      rw [hpaths g hg] at hx
      exact (hto _ (hmem _ (h.inUse g (mem_of_mem_append hg) x hx).mem)).attached
    rw [readText_eq (h.named hfirst) hnamed, readText_eq (hto _ (hmem _ hfirst)).attached hnamed']
    congr 4
    exact Chain.read_congr (hcell g hg)

end Change

/-! ## 2. A chain rewritten

Each link is read before its chunk is written, and it is written as it was.  So the loop follows the
chain of the file it started with, and the chain is the same afterwards. -/

section Rewrite

variable {L : Layout A} {file file' : ZgdbFile A} {own : List Nat} {first : Nat}
  {pre post fs : List FirstTextChunk} {f f' : FirstTextChunk} {str : CString} {lastLen : Nat}

/-- A slot in use lies in its toast. -/
theorem Texts.slotIn (h : Texts file own first fs)
    (hlen : ∀ t ∈ own, (toastAt file t).capacity ≤ L.len t) {x : Slot} (hx : InUse file own x) :
    SlotIn L own x := by
  obtain ⟨j, hj, hle⟩ := hx.le_capacity h.fits
  exact ⟨hx.mem, j, hj, hle.trans (hlen _ hx.mem)⟩

/-- **A rewritten text**: the loop goes through its chunks, or the first of them. -/
theorem Texts.rewrite (h : Texts file own first (pre ++ f :: post)) (ha : Area L file own)
    (hlen : ∀ t ∈ own, (toastAt file t).capacity ≤ L.len t)
    (hle : chunkCount f'.size ≤ chunkCount f.size) (hpos : 0 < f'.size)
    (hoff : f'.offsetInToast = f.offsetInToast)
    (hf : file' = rewriteChunks file str 0 lastLen (chunkCount f'.size)
      (openToast file first f.offsetInToast)) :
    Writes L (pathBytes (textPath file first f)) file file' ∧
      Texts file' own first (pre ++ f' :: post) ∧
      (∀ g ∈ pre ++ post, TextKept file file' first g) ∧
      Spells str lastLen (chunkCount f'.size) 0
        (Chain.read (chunkHeap file') (chunkCount f'.size) (first, f'.offsetInToast)) ∧
      ∀ t ∈ own, toastAt file' t = toastAt file t := by
  have hfm : f ∈ pre ++ f :: post := List.mem_append_right _ List.mem_cons_self
  have hfirst := h.first_of_mem hfm
  have hinitial : ∀ x ∈ Chain.path (chunkHeap file) (chunkCount f'.size) (first, f.offsetInToast),
      x ∈ textPath file first f := fun x hx =>
    (Chain.path_prefix _ _ hle).subset hx
  have hin : ∀ x, InUse file own x → SlotIn L own x := fun x hx => h.slotIn hlen hx
  have hnodup : (Chain.path (chunkHeap file) (chunkCount f'.size) (first, f.offsetInToast)).Nodup :=
    (h.nodup f hfm).sublist (Chain.path_prefix _ _ hle).sublist
  obtain ⟨hw, hlinks, hoffPath, hspells⟩ := ha.rewrite (h.named hfirst)
    (fun x hx => hin x (h.inUse f hfm x (hinitial x hx))) hnodup hf
  have hw' : Writes L (pathBytes (textPath file first f)) file file' :=
    hw.mono fun k d hd => pathBytes_mono hinitial hd
  have hto : ∀ t ∈ own, IsToast file' t ∧ toastAt file' t = toastAt file t := fun t ht =>
    ha.toastAt_eq hw ht fun d hd => not_pathBytes hd
  have huse : ∀ x, InUse file' own x ↔ InUse file own x := by
    intro x
    constructor
    · rintro ⟨hm, j, hj, hx⟩
      exact ⟨hm, j, (hto _ hm).2 ▸ hj, hx⟩
    · rintro ⟨hm, j, hj, hx⟩
      exact ⟨hm, j, (hto _ hm).2.symm ▸ hj, hx⟩
  have hnext : ∀ x, InUse file own x → (chunkHeap file' x).next = (chunkHeap file x).next :=
    fun x hx => hlinks x (hin x hx)
  have hpath : textPath file' first f'
      = Chain.path (chunkHeap file) (chunkCount f'.size) (first, f.offsetInToast) := by
    rw [textPath, hoff]
    exact Chain.path_congr_on fun x hx => hnext x (h.inUse f hfm x (hinitial x hx))
  have hchange : Texts file' own first (pre ++ f' :: post) ∧
      ∀ g ∈ pre ++ post, TextKept file file' first g := by
    refine h.change hpos (fun _ ht => ht) (fun t ht => hw.alive_iff.mpr (h.alive t ht))
      (fun t ht => (hto t ht).1) (fun t ht => by rw [(hto t ht).2]; exact h.fits t ht)
      (fun x hx => (huse x).mpr hx) (fun x hx hxf => ?_) (fun x hx => ?_)
      (by rw [hpath]; exact hnodup) fun hleft => ?_
    · exact hoffPath x (hin x hx) fun hxp => hxf (hinitial x hxp)
    · rw [hpath] at hx
      exact ⟨(huse x).mpr (h.inUse f hfm x (hinitial x hx)), Or.inl (hinitial x hx)⟩
    · rw [(hto first hfirst).2] at hleft
      refine ⟨(h.room hleft).1, ?_⟩
      intro x hx
      have hx' := (huse x).mp hx
      have hn := congrArg Prod.fst (hnext x hx')
      exact hn.trans ((h.room hleft).2 x hx')
  refine ⟨hw', hchange.1, hchange.2, ?_, fun t ht => (hto t ht).2⟩
  rw [hoff]
  exact hspells

end Rewrite

end Zgdb
