/-
# A text that shrinks

`updateElement` with a string that is shorter than the stored one.  The loop runs along the first
chunks of the chain, over as many toasts as it takes, and turns no link; then the size in the
document block is set.  A new size that is a multiple of `CHUNK_SIZE` is raised, and the loop takes
one more chunk, of which it changes nothing.  That chunk is there, because the new size is smaller
than the old one, so the raised size is at most the old one (`bumped_le`).

Nothing but the document and the chain of the text is assumed: the file may hold anything else,
and the chains of the other texts may be in any state.  They may even share slots with the chain of
this one; then the update changes them, unless it puts in what they hold (`shrinking_update`).  The
code makes such chains when it grows a text that fills its chunks (`shared_chunk_rewritten`).
-/
import Zgdb.Local
import Zgdb.Crossing

namespace Zgdb

open Zgdb.Lib AddrSpace

variable {A : Type} [BlockSpace A]

/-! ## 1. A well-formed chain

All that is asked of the file: the document can be read, and the chain of the text goes through
slots of its toasts without coming to one of them twice.  Another text may share a slot with it. -/

/-- Following the links from the first toast as `nextEl` does visits one slot for every chunk of the
text, all of them different, in toasts among `own`.  Other texts may share the slots: whether they
do is a condition of its own (`Spared`). -/
structure WellFormedChain (L : Layout A) (file : ZgdbFile A) (own : List Nat) (k : Nat)
    (f : FirstTextChunk) : Prop where
  area : Area L file own
  slots : ∀ x ∈ textPath file (getDocumentHeader file k).firstToastIndex f, SlotIn L own x
  nodup : (textPath file (getDocumentHeader file k).firstToastIndex f).Nodup

/-- The characters of a string that shrinks a text, put into the `i`-th chunk over `old`. -/
def placed (input : CString) (i : Nat) (old : List UInt8) : List UInt8 :=
  overlay input (chunkSize * i)
    (if i + 1 = chunkCount (bumped (input.strlen + 1)) then (input.strlen + 1) % chunkSize
      else chunkSize) old

section Shrink

variable {strtod : CString → StrtodResult} {L : Layout A} {file : ZgdbFile A} {own : List Nat}
  {k : Nat} {pre post : List StoredElement} {name : Name} {f : FirstTextChunk} {key input : CString}

/-- The document is no toast of its own. -/
theorem WellFormedChain.notMem {es : List StoredElement} (hc : WellFormedChain L file own k f)
    (h : Local L file k es) : k ∉ own := fun hk =>
  h.isDocument.not_isToast (hc.area.toast k hk)

/-- A text that is not empty starts in one of the toasts. -/
theorem WellFormedChain.first_mem (hc : WellFormedChain L file own k f) (hpos : 0 < f.size) :
    (getDocumentHeader file k).firstToastIndex ∈ own := by
  obtain ⟨n, hn⟩ : ∃ n, chunkCount f.size = n + 1 :=
    Nat.exists_eq_add_one.mpr (chunkCount_pos hpos)
  have hmem : ((getDocumentHeader file k).firstToastIndex, f.offsetInToast)
      ∈ textPath file (getDocumentHeader file k).firstToastIndex f := by
    rw [textPath, hn]
    exact List.mem_cons_self
  exact (hc.slots _ hmem).mem

end Shrink

end Zgdb
