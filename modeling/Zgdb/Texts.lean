/-
# The texts of one document

The text elements of a document share the slots of its toasts.  `Texts` says how: the chains of
different texts visit different slots, every slot lies below the `used` counter of its toast, and
as long as the first toast has room all chunks are in it.  Nothing but the bytes of the toasts is
involved, so whatever leaves these alone keeps the texts (`Texts.frame`).

The second part is what `nextEl` makes of a chain that spells a string: the string, when the
stored size is the raised one (`readText_spelled`), and something shorter when it is a multiple of
`CHUNK_SIZE` (`readText_full`).
-/
import Zgdb.Area

namespace Zgdb

open Zgdb.Lib AddrSpace

variable {A : Type} [BlockSpace A]

/-! ## 1. The invariant

The frame rules are what the section is for: what leaves the toasts of a document alone leaves its
texts alone, and an update of one text leaves the others alone because they visit other slots. -/

/-- The slots of a text. -/
def textPath (file : ZgdbFile A) (first : Nat) (f : FirstTextChunk) : List Slot :=
  Chain.path (chunkHeap file) (chunkCount f.size) (first, f.offsetInToast)

/-- A slot of one of the toasts, below its `used` counter. -/
structure InUse (file : ZgdbFile A) (own : List Nat) (x : Slot) : Prop where
  mem : x.1 ∈ own
  index : ∃ j < (toastAt file x.1).used, x.2 = j * chunkRecord

/-- The chunks of the toasts `own`, the first of which is `first`, hold the texts `fs`.

The chunks in use are those below the counters of the toasts.  Each text has chunks of its own along
its chain, which never comes back to a chunk, and no two texts share one.  `room` is what the growth
of a text relies on, since it looks for room in the toast where its chain ends: as long as the first
toast has slots left there is no other toast, and all chunks in use link inside it. -/
structure Texts (file : ZgdbFile A) (own : List Nat) (first : Nat) (fs : List FirstTextChunk) :
    Prop where
  alive : ∀ t ∈ own, Alive file t
  toast : ∀ t ∈ own, IsToast file t
  fits : ∀ t ∈ own,
    sizeofToast + (toastAt file t).used * chunkRecord ≤ (toastAt file t).capacity
  first_mem : first ∈ own ∨ own = [] ∧ fs = []
  size_pos : ∀ f ∈ fs, 0 < f.size
  inUse : ∀ f ∈ fs, ∀ x ∈ textPath file first f, InUse file own x
  nodup : ∀ f ∈ fs, (textPath file first f).Nodup
  disjoint : fs.Pairwise fun f g => ∀ x ∈ textPath file first f, x ∉ textPath file first g
  room : chunksLeft (toastAt file first) ≠ 0 →
    (∀ t ∈ own, t = first) ∧ ∀ x, InUse file own x → (chunkAt file x).toastIndex = first

/-- A text has the chunks it had, and reads as before.  The chunks are part of it because an update
of another text must not find them free later on. -/
structure TextKept (file file' : ZgdbFile A) (first : Nat) (f : FirstTextChunk) : Prop where
  path : textPath file' first f = textPath file first f
  reads : readText file' first f = readText file first f

theorem TextKept.refl (file : ZgdbFile A) (first : Nat) (f : FirstTextChunk) :
    TextKept file file first f := ⟨rfl, rfl⟩

theorem TextKept.trans {file file' file'' : ZgdbFile A} {first : Nat} {f : FirstTextChunk}
    (h : TextKept file file' first f) (h' : TextKept file' file'' first f) :
    TextKept file file'' first f := ⟨h'.path.trans h.path, h'.reads.trans h.reads⟩

/-- Bytes of a block that are as before. -/
def Agrees (file file' : ZgdbFile A) (k n : Nat) : Prop :=
  ∀ d < n, blockAt file' k d = blockAt file k d

theorem Agrees.mono {file file' : ZgdbFile A} {k m n : Nat} (h : Agrees file file' k n)
    (hmn : m ≤ n) : Agrees file file' k m := fun d hd => h d (Nat.lt_of_lt_of_le hd hmn)

theorem Agrees.trans {file file' file'' : ZgdbFile A} {k n : Nat} (h : Agrees file file' k n)
    (h' : Agrees file' file'' k n) : Agrees file file'' k n := fun d hd => (h' d hd).trans (h d hd)

theorem Agrees.chunkAt {file file' : ZgdbFile A} {x : Slot} {n : Nat} (h : Agrees file file' x.1 n)
    (hn : chunkStart x + sizeofTextChunk ≤ n) : chunkAt file' x = chunkAt file x := by
  rw [chunkAt_eq, chunkAt_eq]
  refine load_congr fun i hi => h _ ?_
  have hi' : i < sizeofTextChunk := hi
  rw [add_nat]
  omega

theorem InUse.le_capacity {file : ZgdbFile A} {own : List Nat} {x : Slot} (hx : InUse file own x)
    (hfits : ∀ t ∈ own,
      sizeofToast + (toastAt file t).used * chunkRecord ≤ (toastAt file t).capacity) :
    ∃ j, x.2 = j * chunkRecord ∧
      sizeofToast + (j + 1) * chunkRecord ≤ (toastAt file x.1).capacity := by
  obtain ⟨j, hj, hx2⟩ := hx.index
  refine ⟨j, hx2, le_trans ?_ (hfits _ hx.mem)⟩
  exact Nat.add_le_add_left (Nat.mul_le_mul_right _ hj) _

namespace Texts

variable {file file' : ZgdbFile A} {own : List Nat} {first : Nat} {fs : List FirstTextChunk}

/-- A document without texts. -/
theorem nil (file : ZgdbFile A) (first : Nat) : Texts file [] first [] where
  alive := by simp
  toast := by simp
  fits := by simp
  first_mem := Or.inr ⟨rfl, rfl⟩
  size_pos := by simp
  inUse := by simp
  nodup := by simp
  disjoint := List.Pairwise.nil
  room _ := ⟨by simp, fun x hx => absurd hx.mem (by simp)⟩

theorem first_of_mem (h : Texts file own first fs) {f : FirstTextChunk} (hf : f ∈ fs) :
    first ∈ own :=
  h.first_mem.resolve_right fun hn => List.ne_nil_of_mem hf hn.2

theorem named (h : Texts file own first fs) {t : Nat} (ht : t ∈ own) : Named file t :=
  (h.toast t ht).attached

/-- The toasts depend on their bytes only. -/
theorem toast_frame (h : Texts file own first fs)
    (heq : ∀ t ∈ own, Agrees file file' t (toastAt file t).capacity) {t : Nat} (ht : t ∈ own) :
    IsToast file' t ∧ toastAt file' t = toastAt file t :=
  have := (h.toast t ht).of_eqOn ((heq t ht).mono (h.toast t ht).le_capacity)
  ⟨this.1, this.2.1⟩

/-- The chunks depend on the bytes of the toasts only. -/
theorem chunk_frame (h : Texts file own first fs)
    (heq : ∀ t ∈ own, Agrees file file' t (toastAt file t).capacity) {x : Slot}
    (hx : InUse file own x) : chunkAt file' x = chunkAt file x := by
  obtain ⟨j, hj, hle⟩ := hx.le_capacity h.fits
  refine (heq _ hx.mem).chunkAt (le_trans ?_ hle)
  simp only [chunkStart, hj, chunkRecord, sizeofTextChunk]
  omega

theorem path_frame (h : Texts file own first fs)
    (heq : ∀ t ∈ own, Agrees file file' t (toastAt file t).capacity) {f : FirstTextChunk}
    (hf : f ∈ fs) : textPath file' first f = textPath file first f :=
  Chain.path_congr_on fun x hx => congrArg Link.next
    (chunkHeap_congr (h.chunk_frame heq (h.inUse f hf x hx)))

/-- **The frame rule**: the texts depend on the bytes of the toasts only. -/
theorem frame (h : Texts file own first fs) (halive : ∀ t ∈ own, Alive file' t)
    (heq : ∀ t ∈ own, Agrees file file' t (toastAt file t).capacity) :
    Texts file' own first fs ∧ ∀ f ∈ fs, TextKept file file' first f := by
  have htoast : ∀ t ∈ own, IsToast file' t ∧ toastAt file' t = toastAt file t := fun t ht =>
    h.toast_frame heq ht
  have hinUse : ∀ x, InUse file' own x ↔ InUse file own x := by
    intro x
    constructor
    · rintro ⟨hm, j, hj, hx⟩
      exact ⟨hm, j, (htoast _ hm).2 ▸ hj, hx⟩
    · rintro ⟨hm, j, hj, hx⟩
      exact ⟨hm, j, (htoast _ hm).2.symm ▸ hj, hx⟩
  have hchunk : ∀ x, InUse file own x → chunkAt file' x = chunkAt file x := fun x hx =>
    h.chunk_frame heq hx
  have hpath : ∀ f ∈ fs, textPath file' first f = textPath file first f := fun f hf =>
    h.path_frame heq hf
  refine ⟨⟨halive, fun t ht => (htoast t ht).1, ?_, h.first_mem, h.size_pos, ?_, ?_, ?_, ?_⟩, ?_⟩
  · intro t ht
    rw [(htoast t ht).2]
    exact h.fits t ht
  · intro f hf x hx
    rw [hpath f hf] at hx
    exact (hinUse x).mpr (h.inUse f hf x hx)
  · intro f hf
    rw [hpath f hf]
    exact h.nodup f hf
  · refine h.disjoint.imp_of_mem fun {f g} hf hg hfg x hx => ?_
    rw [hpath f hf] at hx
    rw [hpath g hg]
    exact hfg x hx
  · intro hleft
    rcases h.first_mem with hown | ⟨rfl, _⟩
    · rw [(htoast first hown).2] at hleft
      refine ⟨(h.room hleft).1, ?_⟩
      intro x hx
      rw [hchunk x ((hinUse x).mp hx)]
      exact (h.room hleft).2 x ((hinUse x).mp hx)
    · exact ⟨by simp, fun x hx => absurd hx.mem (by simp)⟩
  · intro f hf
    refine ⟨hpath f hf, ?_⟩
    have hfirst : first ∈ own := h.first_of_mem hf
    have hnamed : ∀ x ∈ textPath file first f, Named file x.1 := fun x hx =>
      h.named (h.inUse f hf x hx).mem
    rw [readText_eq (h.named hfirst) hnamed,
      readText_eq (htoast _ hfirst).1.attached]
    · congr 4
      exact Chain.read_congr fun x hx => chunkHeap_congr (hchunk x (h.inUse f hf x hx))
    · intro x hx
      have hx' : x ∈ textPath file first f := by rw [← hpath f hf]; exact hx
      exact (htoast _ (h.inUse f hf x hx').mem).1.attached

end Texts

/-! ## 2. What a text reads

`cString` stops at the first zero byte, so a text can be longer than what is read of it, but not the
other way round. -/

section Read

variable {file : ZgdbFile A} {first : Nat} {f : FirstTextChunk} {str : CString}

/-- **A text of the raised size is read as the string its chain spells.** -/
theorem readText_spelled (hfirst : Named file first)
    (hn : ∀ x ∈ textPath file first f, Named file x.1) (hsize : f.size = bumped (str.strlen + 1))
    (hs : Spells str ((str.strlen + 1) % chunkSize) (chunkCount f.size) 0
      (Chain.read (chunkHeap file) (chunkCount f.size) (first, f.offsetInToast))) :
    readText file first f = ⟨f.size, str⟩ := by
  obtain ⟨olds, hlen, hread⟩ := hs
  rw [readText_eq hfirst hn, hread]
  by_cases hfull : (str.strlen + 1) % chunkSize = 0
  · -- the raised size: all characters lie before the last piece
    rw [bumped, if_pos hfull] at hsize
    have hmod : (str.strlen + 1 + 1) % chunkSize ≠ 0 := by
      simp only [chunkSize] at hfull ⊢
      omega
    have hdiv : (str.strlen + 1 + 1) / chunkSize = (str.strlen + 1) / chunkSize := by
      simp only [chunkSize] at hfull ⊢
      omega
    have hcount : chunkCount f.size = chunkCount (str.strlen + 1) + 1 := by
      rw [hsize, chunkCount_of_rem hmod, chunkCount_of_mul hfull, hdiv]
    rw [hcount] at hlen ⊢
    rw [hsize]
    exact congrArg (Text.mk _) (cString_bumped hfull hlen _ _)
  · rw [bumped, if_neg hfull] at hsize
    rw [hsize] at hlen ⊢
    exact congrArg (Text.mk _) (cString_pieces hfull hlen)

/-- A buffer gives no more characters than were put into it. -/
theorem strlen_cString_fit_le {n : Nat} (bs : List UInt8) :
    (cString (fit n bs)).strlen ≤ bs.length := by
  have hpad : ∀ k, (pad k).takeWhile (· ≠ 0) = [] := by
    intro k
    cases k <;> simp [pad, List.replicate_succ]
  show ((bs.take n ++ pad (n - bs.length)).takeWhile (· ≠ 0)).length ≤ bs.length
  rw [List.takeWhile_append]
  split
  · rw [hpad, List.append_nil, List.length_take]
    exact Nat.min_le_right _ _
  · exact ((List.takeWhile_prefix _).length_le).trans (by simp)

/-- **A text whose size is a multiple of `CHUNK_SIZE` is not read as the string its chain
spells**: the last piece is missing. -/
theorem readText_full (hfirst : Named file first)
    (hn : ∀ x ∈ textPath file first f, Named file x.1) (hsize : f.size = str.strlen + 1)
    (hfull : (str.strlen + 1) % chunkSize = 0)
    (hs : Spells str ((str.strlen + 1) % chunkSize) (chunkCount f.size) 0
      (Chain.read (chunkHeap file) (chunkCount f.size) (first, f.offsetInToast))) :
    (readText file first f).data ≠ str := by
  obtain ⟨olds, hlen, hread⟩ := hs
  rw [readText_eq hfirst hn, hread]
  rw [hsize] at hlen ⊢
  obtain ⟨n, hn1⟩ : ∃ n, chunkCount (str.strlen + 1) = n + 1 := by
    rw [chunkCount_of_mul hfull]
    simp only [chunkSize] at hfull ⊢
    exact ⟨(str.strlen + 1) / 32 - 1, by omega⟩
  have hlt : chunkSize * n < str.strlen := by
    rw [chunkCount_of_mul hfull] at hn1
    simp only [chunkSize] at hfull hn1 ⊢
    omega
  rw [hn1] at hlen ⊢
  obtain ⟨old, hold⟩ := takeChunks_overlays str ((str.strlen + 1) % chunkSize)
    ((str.strlen + 1) % chunkSize) n 0 olds hlen
  rw [hold, hfull, List.take_zero, List.append_nil]
  intro (he : cString _ = str)
  have hle := strlen_cString_fit_le (n := str.strlen + 1) (charsFrom str 0 (chunkSize * n))
  rw [he, length_charsFrom] at hle
  omega

end Read

end Zgdb
