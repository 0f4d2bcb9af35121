/-
# The characters of a text as a chain of chunks

The chunks of all toasts form a heap of linked cells: the place of a chunk is the index of its
toast and its offset there (`Slot`), its link is the pair of its `toastIndex` and `nextOffset`.
As long as every toast header on the way names its own index, the reading loop of `nextEl` reads
the chain of this heap (`readChunks_eq`), because it stays in the current toast exactly when the
link names it.

The second half is about cutting a string: what the pieces of `overlays` give when they are put
together again, and that the reader gets the string back when the size is not a multiple of
`CHUNK_SIZE` (`cString_pieces`), loses the last piece when it is, and gets it back again when the
size was raised (`cString_bumped`).
-/
import Zgdb.Element
import Zgdb.Lib.Chain

namespace Zgdb

open Zgdb.Lib AddrSpace

/-! ## 1. The heap of chunks

The reader of a text knows its first chunk and the number of its chunks.  It follows the links and
stops after that number, so the link of the last chunk does not matter to it. -/

/-- The place of a chunk: its toast and its offset behind the toast header. -/
abbrev Slot := Nat × Nat

section Heap

variable {A : Type} [BlockSpace A]

/-- The toast header of the block of `order`. -/
def toastAt (file : ZgdbFile A) (order : Nat) : Toast := freadAt toastK file (blockPos file order) 0

/-- The chunk at a slot. -/
def chunkAt (file : ZgdbFile A) (s : Slot) : TextChunk :=
  freadAt textChunkK file (blockPos file s.1) (sizeofToast + s.2 + 1)

/-- The heap of chunks. -/
def chunkHeap (file : ZgdbFile A) (s : Slot) : Link Slot (List UInt8) where
  data := (chunkAt file s).data
  next := ((chunkAt file s).toastIndex, (chunkAt file s).nextOffset)

/-- The toast header at `order` names it. -/
def Named (file : ZgdbFile A) (order : Nat) : Prop := (toastAt file order).indexAttached = order

/-- The cursor stands at a slot. -/
structure Cursor.At (file : ZgdbFile A) (cur : Cursor A) (s : Slot) : Prop where
  indexToast : cur.indexToast = blockPos file s.1
  attached : cur.toast.indexAttached = s.1
  nextOffset : cur.nextOffset = s.2

theorem at_openToast {file : ZgdbFile A} {order offset : Nat} (h : Named file order) :
    (openToast file order offset).At file (order, offset) := ⟨rfl, h, rfl⟩

theorem Cursor.At.chunk {file : ZgdbFile A} {cur : Cursor A} {s : Slot} (h : cur.At file s) :
    cur.chunk file = chunkAt file s := by
  rw [Cursor.chunk, h.indexToast, h.nextOffset]
  rfl

/-- A cursor follows the link of a chunk, in this toast or to another. -/
theorem Cursor.At.advance {file : ZgdbFile A} {cur : Cursor A} {s : Slot} (h : cur.At file s)
    {chunk : TextChunk} (hn : Named file chunk.toastIndex) :
    (cur.advance file chunk).At file (chunk.toastIndex, chunk.nextOffset) := by
  unfold Cursor.advance
  split
  · rename_i he
    exact ⟨h.indexToast.trans (by rw [he, h.attached]), he.symm, rfl⟩
  · exact at_openToast hn

/-- Put the pieces of a text together: whole chunks, and `lastLen` bytes of the last. -/
def takeChunks (lastLen : Nat) : List (List UInt8) → List UInt8
  | [] => []
  | [c] => c.take lastLen
  | c :: d :: cs => c.take chunkSize ++ takeChunks lastLen (d :: cs)

/-- **The reading loop reads the chain.** -/
theorem readChunks_eq {file : ZgdbFile A} {lastLen : Nat} : ∀ {n : Nat} {cur : Cursor A} {s : Slot},
    cur.At file s → (∀ x ∈ Chain.path (chunkHeap file) n s, Named file x.1) →
    readChunks file lastLen n cur = takeChunks lastLen (Chain.read (chunkHeap file) n s)
  | 0, _, _, _, _ => rfl
  | 1, cur, s, h, _ => by
    rw [readChunks, h.chunk, readChunks, List.append_nil]
    rfl
  | n + 2, cur, s, h, hn => by
    have hnext : Named file (chunkAt file s).toastIndex :=
      hn _ (List.mem_cons_of_mem _ List.mem_cons_self)
    have ih : readChunks file lastLen (n + 1) (cur.advance file (chunkAt file s)) = _ :=
      readChunks_eq (h.advance hnext) fun x hx => hn x (List.mem_cons_of_mem _ hx)
    rw [readChunks, h.chunk, ih]
    rfl

/-- What `nextEl` reads of a text. -/
theorem readText_eq {file : ZgdbFile A} {first : Nat} {f : FirstTextChunk}
    (hfirst : Named file first)
    (hn : ∀ x ∈ Chain.path (chunkHeap file) (chunkCount f.size) (first, f.offsetInToast),
      Named file x.1) :
    readText file first f =
      ⟨f.size, cString (fit f.size (takeChunks (f.size % chunkSize)
        (Chain.read (chunkHeap file) (chunkCount f.size) (first, f.offsetInToast))))⟩ := by
  simp only [readText, natCut_chunks, natCut_rem, readChunks_eq (at_openToast hfirst) hn]

end Heap

/-! ## 2. Cutting a string

Each chunk gets 32 characters and the last one what is left, over what was in the chunk before.
Where the size is a multiple of 32 nothing is left for the last chunk, although it counts. -/

/-- The characters `start`, …, `start + n - 1` of a string. -/
def charsFrom (s : CString) (start n : Nat) : List UInt8 :=
    (List.range n).map fun i => s.at (start + i)

@[simp] theorem length_charsFrom (s : CString) (start n : Nat) :
    (charsFrom s start n).length = n := by simp [charsFrom]

theorem charsFrom_add (s : CString) (start m n : Nat) :
    charsFrom s start (m + n) = charsFrom s start m ++ charsFrom s (start + m) n := by
  simp only [charsFrom, List.range_add, List.map_append, List.map_map]
  congr 1
  exact List.map_congr_left fun i _ => by rw [Function.comp_apply, Nat.add_assoc]

theorem overlay_eq (s : CString) (start n : Nat) (old : List UInt8) :
    overlay s start n old = charsFrom s start n ++ old.drop n := rfl

theorem take_overlay (s : CString) (start n : Nat) (old : List UInt8) :
    (overlay s start n old).take n = charsFrom s start n := by
  rw [overlay_eq, List.take_append_of_le_length (by simp), List.take_of_length_le (by simp)]

/-- The characters of a string with its terminator. -/
theorem charsFrom_zero (s : CString) : charsFrom s 0 (s.strlen + 1) = s.chars ++ [0] := by
  rw [charsFrom_add]
  congr 1
  · refine List.ext_getElem (by simp [CString.strlen]) ?_
    intro i h1 h2
    simp [charsFrom, CString.at, List.getElem?_eq_getElem h2]
  · simp [charsFrom, CString.at, CString.strlen]

/-- The changes the writing loops make to `n` chunks: every one takes its full share of `s`, the
last takes `lastLen` characters. -/
def overlays (s : CString) (lastLen : Nat) : (n start : Nat) → List (List UInt8 → List UInt8)
  | 0, _ => []
  | 1, start => [overlay s start lastLen]
  | n + 2, start => overlay s start chunkSize :: overlays s lastLen (n + 1) (start + chunkSize)

@[simp] theorem length_overlays (s : CString) (lastLen : Nat) : ∀ (n start : Nat),
    (overlays s lastLen n start).length = n
  | 0, _ => rfl
  | 1, _ => rfl
  | n + 2, start => by rw [overlays, List.length_cons, length_overlays s lastLen (n + 1)]

theorem overlays_succ (s : CString) (lastLen n start : Nat) :
    overlays s lastLen (n + 1) start =
      overlay s start (if n = 0 then lastLen else chunkSize)
        :: overlays s lastLen n (start + chunkSize) := by
  cases n <;> rfl

theorem overlays_eq_map (s : CString) (lastLen n start : Nat) :
    overlays s lastLen n start = (List.range n).map fun i =>
      overlay s (start + chunkSize * i) (if i + 1 = n then lastLen else chunkSize) := by
  induction n generalizing start with
  | zero => rfl
  | succ n ih =>
    rw [overlays_succ, ih, List.range_succ_eq_map, List.map_cons, List.map_map]
    congr 1
    · have h0 : 0 + 1 = n + 1 ↔ n = 0 := by omega
      simp only [Nat.mul_zero, Nat.add_zero, h0]
    · refine List.map_congr_left ?_
      intro i _
      simp only [Function.comp_apply, Nat.succ_eq_add_one, Nat.add_right_cancel_iff]
      rw [show start + chunkSize + chunkSize * i = start + chunkSize * (i + 1) by
        rw [Nat.mul_succ]; omega]

/-- The changes along two chains, one after the other. -/
theorem overlays_append (s : CString) (lastLen m start : Nat) {n : Nat} (hn : 0 < n) :
    overlays s lastLen (m + n) start =
      overlays s chunkSize m start ++ overlays s lastLen n (start + chunkSize * m) := by
  induction m generalizing start with
  | zero => rw [Nat.zero_add, Nat.mul_zero, Nat.add_zero]; rfl
  | succ m ih =>
    rw [Nat.add_right_comm, overlays_succ, overlays_succ, ih, if_neg (by omega), ite_self,
      List.cons_append]
    rw [show start + chunkSize + chunkSize * m = start + chunkSize * (m + 1) by
      rw [Nat.mul_succ]; omega]

/-- The pieces `ds` are what the writing loops make of any `n` chunks. -/
def Spells (s : CString) (lastLen n start : Nat) (ds : List (List UInt8)) : Prop :=
  ∃ olds : List (List UInt8), olds.length = n ∧
    ds = List.zipWith (fun f d => f d) (overlays s lastLen n start) olds

theorem Spells.append {s : CString} {lastLen m n start : Nat} {ds es : List (List UInt8)}
    (h : Spells s chunkSize m start ds) (h' : Spells s lastLen n (start + chunkSize * m) es)
    (hn : 0 < n) : Spells s lastLen (m + n) start (ds ++ es) := by
  obtain ⟨olds, hlen, rfl⟩ := h
  obtain ⟨olds', hlen', rfl⟩ := h'
  refine ⟨olds ++ olds', by rw [List.length_append, hlen, hlen'], ?_⟩
  rw [overlays_append s lastLen m start hn, List.zipWith_append (by rw [length_overlays, hlen])]

/-- The pieces put together: everything before the last piece, then what is taken of it. -/
theorem takeChunks_overlays (s : CString) (w r : Nat) :
    ∀ (n start : Nat) (olds : List (List UInt8)),
    olds.length = n + 1 → ∃ old,
      takeChunks r (List.zipWith (fun f d => f d) (overlays s w (n + 1) start) olds)
        = charsFrom s start (chunkSize * n) ++ (overlay s (start + chunkSize * n) w old).take r
  | 0, start, [old], _ => ⟨old, by simp [overlays, takeChunks, charsFrom]⟩
  | n + 1, start, o :: o' :: olds, hlen => by
    obtain ⟨old, ih⟩ := takeChunks_overlays s w r n (start + chunkSize) (o' :: olds)
      (by simpa using hlen)
    refine ⟨old, ?_⟩
    have hz : List.zipWith (fun f d => f d) (overlays s w (n + 1 + 1) start) (o :: o' :: olds)
        = overlay s start chunkSize o
          :: List.zipWith (fun f d => f d) (overlays s w (n + 1) (start + chunkSize))
            (o' :: olds) :=
      rfl
    rw [hz]
    cases hrest : List.zipWith (fun f d => f d) (overlays s w (n + 1) (start + chunkSize))
        (o' :: olds) with
    | nil =>
      have := congrArg List.length hrest
      simp [List.length_zipWith] at this
    | cons c cs =>
      rw [takeChunks, ← hrest, ih, take_overlay, ← List.append_assoc, ← charsFrom_add]
      have h1 : chunkSize + chunkSize * n
          = chunkSize * (n + 1) := by rw [Nat.mul_succ, Nat.add_comm]
      have h2 : start + chunkSize + chunkSize * n = start + chunkSize * (n + 1) := by
        rw [Nat.add_assoc, h1]
      rw [h1, h2]

/-- A chunk count in terms of quotient and remainder. -/
theorem chunkCount_of_rem {size : Nat} (h : size % chunkSize ≠ 0) :
    chunkCount size = size / chunkSize + 1 := if_pos h

theorem chunkCount_of_mul {size : Nat} (h : size % chunkSize = 0) :
    chunkCount size = size / chunkSize := if_neg (not_not.mpr h)

theorem chunkCount_pos {size : Nat} (h : 0 < size) : 0 < chunkCount size := by
  unfold chunkCount chunkSize
  split <;> omega

/-- `strcpy` from a buffer that starts with a string and its terminator. -/
theorem cString_of_prefix {s : CString} {buf : List UInt8} (h : s.chars ++ [0] <+: buf) :
    cString buf = s := by
  obtain ⟨rest, rfl⟩ := h
  have ht : (s.chars ++ [0] ++ rest).takeWhile (· ≠ 0) = s.chars := by
    rw [List.append_assoc, List.takeWhile_append_of_pos]
    · simp
    · intro x hx
      have : x ≠ 0 := fun h0 => s.noNul (h0 ▸ hx)
      simpa using this
  cases s
  simp only [cString, CString.mk.injEq]
  exact ht

theorem fit_of_length_eq {n : Nat} {bs : List UInt8} (h : bs.length = n) : fit n bs = bs := by
  rw [fit, h, Nat.sub_self, List.take_of_length_le (Nat.le_of_eq h)]
  exact List.append_nil _

/-- **The pieces of a string give it back** when its size is not a multiple of `CHUNK_SIZE`. -/
theorem cString_pieces {s : CString} (h : (s.strlen + 1) % chunkSize ≠ 0) {olds : List (List UInt8)}
    (hlen : olds.length = chunkCount (s.strlen + 1)) :
    cString (fit (s.strlen + 1) (takeChunks ((s.strlen + 1) % chunkSize)
      (List.zipWith (fun f d => f d)
        (overlays s ((s.strlen + 1) % chunkSize) (chunkCount (s.strlen + 1)) 0) olds))) = s := by
  rw [chunkCount_of_rem h] at hlen ⊢
  obtain ⟨old, hold⟩ := takeChunks_overlays s ((s.strlen + 1) % chunkSize)
    ((s.strlen + 1) % chunkSize) _ 0 olds hlen
  rw [hold, take_overlay, ← charsFrom_add, Nat.div_add_mod, charsFrom_zero,
    fit_of_length_eq (by simp [CString.strlen])]
  exact cString_of_prefix (List.prefix_refl _)

/-- **The pieces of a string give it back** when the size was raised above a multiple of
`CHUNK_SIZE`: all of it is before the last piece. -/
theorem cString_bumped {s : CString} (h : (s.strlen + 1) % chunkSize = 0) {olds : List (List UInt8)}
    (hlen : olds.length = chunkCount (s.strlen + 1) + 1) (w r : Nat) :
    cString (fit (s.strlen + 2) (takeChunks r (List.zipWith (fun f d => f d)
        (overlays s w (chunkCount (s.strlen + 1) + 1) 0) olds))) = s := by
  rw [chunkCount_of_mul h] at hlen ⊢
  obtain ⟨old, hold⟩ := takeChunks_overlays s w r _ 0 olds hlen
  rw [hold, Nat.mul_div_cancel' (Nat.dvd_of_mod_eq_zero h), charsFrom_zero]
  refine cString_of_prefix ?_
  rw [fit, List.take_append, List.take_of_length_le (by simp [CString.strlen]), List.append_assoc]
  exact List.prefix_append _ _

end Zgdb
