/-
# Growing a text

When a text needs more chunks than it has, its chain is relinked to fresh chunks.  They go behind
the chunks of the first toast as long as it has room for all of them (`Texts.growInToast`), else
to what is left of it and to a new toast (`Texts.growAcross`).

The second case is only right for a chain that lies in the first toast: the code counts the free
chunks of the first toast, and follows `nextToastIndex` of the toast the chain ends in.
-/
import Zgdb.Change
import Zgdb.Written

namespace Zgdb

open Zgdb.Lib AddrSpace

variable {A : Type} [BlockSpace A] {L : Layout A}

/-! ## 1. Room in a toast

The counter of slots in use and the capacity of the block are both in the header.  Where the slots
in use fit into the block, the subtractions of `chunksLeft` do not wrap around. -/

theorem used_le_slots {t : Toast} (h : sizeofToast + t.used * chunkRecord ≤ t.capacity) :
    t.used ≤ (t.capacity - sizeofToast) / chunkRecord :=
  (Nat.le_div_iff_mul_le (by decide)).mpr (by omega)

theorem chunksLeft_eq {t : Toast} (h : sizeofToast + t.used * chunkRecord ≤ t.capacity) :
    chunksLeft t = (t.capacity - sizeofToast) / chunkRecord - t.used := by
  have h1 : sizeofToast ≤ t.capacity := by omega
  have h2 : toastSlots t = (t.capacity - sizeofToast) / chunkRecord := by
    rw [toastSlots, sub64, if_pos h1]
  rw [chunksLeft, h2, sub64, if_pos (used_le_slots h)]

/-- The chunks a toast has left fit into it. -/
theorem fits_of_le_chunksLeft {t : Toast} (h : sizeofToast + t.used * chunkRecord ≤ t.capacity)
    {n : Nat} (hn : n ≤ chunksLeft t) :
    sizeofToast + (t.used + n) * chunkRecord ≤ t.capacity := by
  have h1 := used_le_slots h
  rw [chunksLeft_eq h] at hn
  have h2 : (t.used + n) * chunkRecord ≤ t.capacity - sizeofToast :=
    (Nat.le_div_iff_mul_le (by decide)).mp (by omega)
  omega

/-- A toast whose free chunks were all filled has none left. -/
theorem chunksLeft_filled {t : Toast} (h : sizeofToast + t.used * chunkRecord ≤ t.capacity)
    (next : Nat) :
    chunksLeft { t with used := t.used + chunksLeft t, nextToastIndex := next } = 0 := by
  have h1 := chunksLeft_eq h
  have h2 := chunksLeft_eq (t := { t with used := t.used + chunksLeft t, nextToastIndex := next })
    (fits_of_le_chunksLeft h (Nat.le_refl _))
  rw [h2]
  show (t.capacity - sizeofToast) / chunkRecord - (t.used + chunksLeft t) = 0
  omega

/-! ## 2. Fresh chunks at the end of a toast

The slots behind the counter are in no chain.  When the chunks are written and counted they form a
chain of their own, and every chain that was there before is as it was. -/

/-- **Fresh chunks written to the end of a toast** and counted in its header. -/
theorem Area.append {file file' : ZgdbFile A} {own : List Nat} {str : CString}
    {t n start lastLen lastToast : Nat} {cur : Cursor A} (h : Area L file own) (ht : t ∈ own)
    (hpos : cur.indexToast = blockPos file t) (htype : cur.toast.blockType = BlockType.toast.code)
    (hatt : cur.toast.indexAttached = t) (hcap : sizeofToast ≤ cur.toast.capacity)
    (hfit : sizeofToast + (cur.toast.used + n) * chunkRecord ≤ L.len t)
    (hf : file' = addUsed (writeChunks file cur.indexToast cur.toast.used
      cur.toast.indexAttached str
      start lastLen lastToast n) cur n) :
    Writes L (fun k _ => k = t) file file' ∧ IsToast file' t ∧
      toastAt file' t = { cur.toast with used := cur.toast.used + n } ∧
      (∀ x, SlotIn L own x → (x.1 = t → ∃ i < cur.toast.used, x.2 = i * chunkRecord) →
        chunkAt file' x = chunkAt file x) ∧
      ∀ i < n, chunkAt file' (t, (cur.toast.used + i) * chunkRecord)
        = { data := overlay str (start + chunkSize * i) (if i + 1 = n then lastLen else chunkSize)
              clearedChunk
            nextOffset := if i + 1 = n then 0 else (cur.toast.used + i + 1) * chunkRecord
            toastIndex := if i + 1 = n then lastToast else t } := by
  obtain ⟨hw1, hc1⟩ : Writes L (slotBytes t cur.toast.used n) file
        (writeChunks file cur.indexToast cur.toast.used cur.toast.indexAttached str start lastLen
          lastToast n) ∧ _ := writeChunks_spec n h ht hfit hpos
  rw [hatt] at hf hw1 hc1
  generalize writeChunks file cur.indexToast cur.toast.used t str start lastLen lastToast n = file1
    at hf hw1 hc1
  have h1 : Area L file1 own := h.writes hw1 fun _ _ d hd => not_slotBytes_header hd
  obtain ⟨hw2, hto2, hta2⟩ :=
    h1.fwriteToast ht { cur.toast with used := cur.toast.used + n } htype hatt hcap
  have hf' : file' = fwriteAt toastK file1 (blockPos file1 t) 0
      { cur.toast with used := cur.toast.used + n } := by
    rw [hf, addUsed, hpos, hw1.blockPos_eq]
  rw [← hf'] at hw2 hto2 hta2
  refine ⟨(hw1.mono fun k d hd => hd.1).comp (hw2.mono fun k d hd => hd.1), hto2, hta2, ?_, ?_⟩
  · intro x hx hold
    rw [h1.chunkAt_header hw2 hx]
    refine h.chunkAt_eq hw1 hx ?_
    intro d hd hs
    have hxt : x.1 = t := hs.1
    obtain ⟨i, hi, hxi⟩ := hold hxt
    have hx' : x = (t, i * chunkRecord) := Prod.ext hxt hxi
    rw [hx'] at hd hs
    exact not_slotBytes hi hd hs
  · intro i hi
    have hs := slotIn_of_lt ht (by omega : cur.toast.used + i < cur.toast.used + n) hfit
    rw [h1.chunkAt_header hw2 hs]
    exact hc1 i hi

/-- Slots from `used` on are not in use. -/
theorem not_inUse_fresh {file : ZgdbFile A} {own : List Nat} {t i : Nat} :
    ¬ InUse file own (t, ((toastAt file t).used + i) * chunkRecord) := by
  rintro ⟨-, j, hj, hx⟩
  have : (toastAt file t).used + i = j := Nat.eq_of_mul_eq_mul_right (by decide) hx
  have hj' : j < (toastAt file t).used := hj
  omega

theorem nodup_slots (t used n : Nat) :
    ((List.range n).map fun i => ((t, (used + i) * chunkRecord) : Slot)).Nodup := by
  refine List.Nodup.map ?_ List.nodup_range
  intro i j hij
  have h1 : (used + i) * chunkRecord = (used + j) * chunkRecord := congrArg Prod.snd hij
  have : used + i = used + j := Nat.eq_of_mul_eq_mul_right (by decide) h1
  omega

/-! ## 3. A chain that grows

The old chunks are rewritten and the last of them is linked to the first fresh chunk.  The text then
is the one path from its first chunk over the link to the end; for this the link of the last chunk,
to which no reader had looked before, has to be set by the loop.

Across toasts this happens in two halves.  What is left of the first toast is filled and the chain
is relinked (`Texts.fillFirst`); then the cursor goes to the new toast and writes the rest there. -/

section Grow

variable {file file' : ZgdbFile A} {own own' : List Nat} {first : Nat}
  {pre post : List FirstTextChunk} {f f' : FirstTextChunk} {str : CString} {lastLen req : Nat}

/-- What is left of a text whose chain goes on: the pieces are laid over its old chunks, and the
last of them leads to `link`. -/
def relinkedHeap (file : ZgdbFile A) (first : Nat) (f : FirstTextChunk) (str : CString)
    (link : Slot) : Slot → Link Slot (List UInt8) :=
  Chain.setNext (Chain.rewrite (chunkHeap file) (overlays str chunkSize (chunkCount f.size) 0)
    (first, f.offsetInToast))
    (Chain.after (chunkHeap file) (chunkCount f.size - 1) (first, f.offsetInToast)) link

theorem relinkedHeap_next (file : ZgdbFile A) (first : Nat) (f : FirstTextChunk) (str : CString)
    (link x : Slot) : (relinkedHeap file first f str link x).next = link ∨
      (relinkedHeap file first f str link x).next = (chunkHeap file x).next := by
  unfold relinkedHeap
  by_cases hx : x = Chain.after (chunkHeap file) (chunkCount f.size - 1) (first, f.offsetInToast)
  · left
    rw [← hx, Chain.setNext_self]
  · right
    rw [Chain.setNext_of_ne hx, Chain.rewrite_next]

/-- **A text that grows by fresh chunks.** -/
theorem Texts.grow (link : Slot) (h : Texts file own first (pre ++ f :: post)) (hreq : 0 < req)
    (hcount : chunkCount f'.size = chunkCount f.size + req)
    (hoff : f'.offsetInToast = f.offsetInToast) (hmem : ∀ t ∈ own, t ∈ own')
    (hal : ∀ t ∈ own', Alive file' t) (hto : ∀ t ∈ own', IsToast file' t)
    (hfits : ∀ t ∈ own',
      sizeofToast + (toastAt file' t).used * chunkRecord ≤ (toastAt file' t).capacity)
    (huse : ∀ x, InUse file own x → InUse file' own' x)
    (hold : ∀ x ∈ textPath file first f,
      chunkHeap file' x = relinkedHeap file first f str link x)
    (hother : ∀ x, InUse file own x → x ∉ textPath file first f →
      chunkHeap file' x = chunkHeap file x)
    (hfresh : ∀ x ∈ Chain.path (chunkHeap file') req link, InUse file' own' x ∧ ¬ InUse file own x)
    (hnodup : (Chain.path (chunkHeap file') req link).Nodup)
    (hspells : Spells str lastLen req (chunkSize * chunkCount f.size)
      (Chain.read (chunkHeap file') req link))
    (hroom : chunksLeft (toastAt file' first) ≠ 0 →
      (∀ t ∈ own', t = first) ∧ ∀ x, InUse file' own' x → (chunkAt file' x).toastIndex = first) :
    Texts file' own' first (pre ++ f' :: post) ∧
      (∀ g ∈ pre ++ post, TextKept file file' first g) ∧
      Spells str lastLen (chunkCount f'.size) 0
        (Chain.read (chunkHeap file') (chunkCount f'.size) (first, f'.offsetInToast)) ∧
      textPath file' first f'
        = textPath file first f ++ Chain.path (chunkHeap file') req link := by
  have hfm : f ∈ pre ++ f :: post := List.mem_append_right _ List.mem_cons_self
  obtain ⟨k, hk⟩ : ∃ k, chunkCount f.size = k + 1 :=
    Nat.exists_eq_add_one.mpr (chunkCount_pos (h.size_pos f hfm))
  have hn := h.nodup f hfm
  unfold textPath at hn hold
  rw [hk] at hn hold
  have hold' : ∀ x ∈ Chain.path (chunkHeap file) (k + 1) (first, f.offsetInToast),
      chunkHeap file' x = Chain.setNext (Chain.rewrite (chunkHeap file)
        (overlays str chunkSize (k + 1) 0) (first, f.offsetInToast))
        (Chain.after (chunkHeap file) k (first, f.offsetInToast)) link x := by
    intro x hx
    rw [hold x hx, relinkedHeap, hk]
    rfl
  obtain ⟨hpath, hread⟩ := Chain.grow (length_overlays str chunkSize (k + 1) 0) hn hold' req
  have hcount' : chunkCount f'.size = k + 1 + req := by rw [hcount, hk]
  have hsplit : textPath file' first f'
      = textPath file first f ++ Chain.path (chunkHeap file') req link := by
    rw [textPath, textPath, hoff, hcount', hk, hpath]
  have hpos : 0 < f'.size := by
    rcases Nat.eq_zero_or_pos f'.size with h0 | h0
    · rw [h0] at hcount'
      have : chunkCount 0 = 0 := rfl
      omega
    · exact h0
  have hchange : Texts file' own' first (pre ++ f' :: post) ∧
      ∀ g ∈ pre ++ post, TextKept file file' first g := by
    refine h.change hpos hmem hal hto hfits huse hother ?_ ?_ hroom
    · intro x hx
      rw [hsplit] at hx
      rcases List.mem_append.mp hx with hx | hx
      · exact ⟨huse x (h.inUse f hfm x hx), Or.inl hx⟩
      · exact ⟨(hfresh x hx).1, Or.inr (hfresh x hx).2⟩
    · rw [hsplit]
      refine List.nodup_append.mpr ⟨h.nodup f hfm, hnodup, ?_⟩
      rintro x hx y hy rfl
      exact (hfresh x hy).2 (h.inUse f hfm x hx)
  refine ⟨hchange.1, hchange.2, ?_, hsplit⟩
  rw [hcount', hoff, hread]
  refine Spells.append (m := k + 1) ⟨_, ?_, rfl⟩ ?_ hreq
  · rw [Chain.read, List.length_map, Chain.length_path]
  · rw [Nat.zero_add, ← hk]
    exact hspells

/-- The cell of a chunk, from the chunk. -/
theorem next_eq_of_chunkAt {file : ZgdbFile A} {x : Slot} {c : TextChunk} (h : chunkAt file x = c) :
    (chunkHeap file x).next = (c.toastIndex, c.nextOffset) := by
  rw [← h]
  rfl

/-- **A text relinked**: its chain lies in the first toast, and the chunks are as in `file`. -/
theorem Texts.relink {file0 file1 : ZgdbFile A} {cur cur1 : Cursor A}
    {relink : Cursor A → TextChunk → TextChunk} {moveLast : Bool} (link : Slot)
    (h : Texts file own first (pre ++ f :: post)) (ha : Area L file0 own)
    (hsame : ∀ x, InUse file own x → SlotIn L own x ∧ chunkAt file0 x = chunkAt file x)
    (hone : ∀ x ∈ textPath file first f, x.1 = first)
    (hcur : cur.At file0 (first, f.offsetInToast))
    (hrel : ∀ cur' : Cursor A, cur'.toast = cur.toast → ∀ x ∈ textPath file first f,
      relink cur' (chunkAt file x)
        = { chunkAt file x with toastIndex := link.1, nextOffset := link.2 })
    (hlast : moveLast = true → link.1 = first)
    (hr : relinkChunks file0 str 0 relink moveLast (chunkCount f.size) cur = (file1, cur1)) :
    Writes L (pathBytes (textPath file first f)) file0 file1 ∧
      (∀ x, InUse file own x → chunkHeap file1 x = relinkedHeap file first f str link x) ∧
      (∀ x, InUse file own x → x ∉ textPath file first f → chunkHeap file1 x = chunkHeap file x) ∧
      cur1.indexToast = cur.indexToast ∧ cur1.toast = cur.toast := by
  have hfm : f ∈ pre ++ f :: post := List.mem_append_right _ List.mem_cons_self
  obtain ⟨k, hk⟩ : ∃ k, chunkCount f.size = k + 1 :=
    Nat.exists_eq_add_one.mpr (chunkCount_pos (h.size_pos f hfm))
  have huse := h.inUse f hfm
  have hn := h.nodup f hfm
  unfold textPath at hn huse hone hrel ⊢
  rw [hk] at hn huse hone hrel hr ⊢
  have hheap : ∀ x, InUse file own x → chunkHeap file0 x = chunkHeap file x := fun x hx =>
    chunkHeap_congr (hsame x hx).2
  have hpath : Chain.path (chunkHeap file0) (k + 1) (first, f.offsetInToast)
      = Chain.path (chunkHeap file) (k + 1) (first, f.offsetInToast) :=
    Chain.path_congr_on fun x hx => congrArg Link.next (hheap x (huse x hx))
  have hafter : Chain.after (chunkHeap file0) k (first, f.offsetInToast)
      = Chain.after (chunkHeap file) k (first, f.offsetInToast) := by
    refine Chain.after_congr fun m hm => congrArg Link.next (hheap _ (huse _ ?_))
    exact Chain.after_mem_path _ _ (by omega)
  have hend : Chain.after (chunkHeap file) k (first, f.offsetInToast)
      ∈ Chain.path (chunkHeap file) (k + 1) (first, f.offsetInToast) :=
    Chain.after_mem_path _ _ (Nat.lt_succ_self k)
  obtain ⟨hw, hheap1, hpos, htoast⟩ : Writes L (pathBytes (Chain.path (chunkHeap file0) (k + 1)
        (first, f.offsetInToast))) file0 (relinkChunks file0 str 0 relink moveLast (k + 1) cur).1 ∧
      (∀ y, SlotIn L own y → chunkHeap (relinkChunks file0 str 0 relink moveLast (k + 1) cur).1 y
        = Chain.setNext (Chain.rewrite (chunkHeap file0) (overlays str chunkSize (k + 1) 0)
          (first, f.offsetInToast))
          (Chain.after (chunkHeap file0) k (first, f.offsetInToast)) link y) ∧ _ ∧ _ := by
    refine relinkChunks_spec k ha hcur rfl ?_ (by rw [hpath]; exact hn) ?_ hlast
    · intro x hx
      rw [hpath] at hx
      exact ⟨(hsame x (huse x hx)).1, hone x hx⟩
    · intro cur' hcur'
      rw [hafter, (hsame _ (huse _ hend)).2]
      exact hrel cur' hcur' _ hend
  rw [hr, hpath] at hw
  rw [hr] at hheap1 hpos htoast
  have hrelinked : ∀ x, InUse file own x →
      chunkHeap file1 x = relinkedHeap file first f str link x := by
    intro x hx
    have hrewrite : ∀ x, InUse file own x →
        Chain.rewrite (chunkHeap file0) (overlays str chunkSize (k + 1) 0)
          (first, f.offsetInToast) x
          = Chain.rewrite (chunkHeap file) (overlays str chunkSize (k + 1) 0)
            (first, f.offsetInToast) x := fun x hx =>
      Chain.rewrite_congr hheap (fun z hz => huse z (by rwa [length_overlays] at hz)) x hx
    rw [hheap1 x (hsame x hx).1, relinkedHeap, hk, hafter]
    exact Chain.setNext_congr (hrewrite _ (huse _ hend)) (hrewrite x hx)
  refine ⟨hw, hrelinked, ?_, hpos, htoast⟩
  intro x hx hxf
  rw [hrelinked x hx, relinkedHeap, hk, Chain.setNext_of_ne, Chain.rewrite_of_notMem]
  · rwa [length_overlays]
  · rintro rfl
    exact hxf hend

/-- **A text that grows inside the first toast.** -/
theorem Texts.growInToast (h : Texts file own first (pre ++ f :: post)) (ha : Area L file own)
    (hlen : ∀ t ∈ own, (toastAt file t).capacity ≤ L.len t) (hreq : 0 < req)
    (hleft : req ≤ chunksLeft (toastAt file first))
    (hcount : chunkCount f'.size = chunkCount f.size + req)
    (hoff : f'.offsetInToast = f.offsetInToast)
    (hf : file' = Zgdb.growInToast file str (chunkCount f.size) req lastLen
      (openToast file first f.offsetInToast)) :
    Writes L (fun k _ => k = first) file file' ∧ Texts file' own first (pre ++ f' :: post) ∧
      (∀ g ∈ pre ++ post, TextKept file file' first g) ∧
      Spells str lastLen (chunkCount f'.size) 0
        (Chain.read (chunkHeap file') (chunkCount f'.size) (first, f'.offsetInToast)) ∧
      toastAt file' first
        = { toastAt file first with used := (toastAt file first).used + req } := by
  have hfm : f ∈ pre ++ f :: post := List.mem_append_right _ List.mem_cons_self
  have hfirst := h.first_of_mem hfm
  obtain ⟨hone, hlinks⟩ := h.room (by omega)
  have hin : ∀ x, InUse file own x → SlotIn L own x := fun x hx => h.slotIn hlen hx
  have hfit := fits_of_le_chunksLeft (h.fits first hfirst) hleft
  have hpath1 : ∀ x ∈ textPath file first f, x.1 = first := fun x hx =>
    hone x.1 (h.inUse f hfm x hx).mem
  -- the chain is relinked
  obtain ⟨file1, cur1, hr⟩ : ∃ file1 cur1, relinkChunks file str 0
      (fun cur chunk => { chunk with nextOffset := cur.toast.used * chunkRecord }) true
      (chunkCount f.size) (openToast file first f.offsetInToast) = (file1, cur1) := ⟨_, _, rfl⟩
  obtain ⟨hw1, hold1, hother1, hpos1, htoast1⟩ := h.relink
    (first, (toastAt file first).used * chunkRecord) ha (fun x hx => ⟨hin x hx, rfl⟩)
    hpath1 (at_openToast (h.named hfirst))
    (fun cur' hcur' x hx => by
      rw [hcur', ← hlinks x (h.inUse f hfm x hx)]
      rfl)
    (fun _ => rfl) hr
  have hto1 : ∀ t ∈ own, IsToast file1 t ∧ toastAt file1 t = toastAt file t := fun t ht =>
    ha.toastAt_eq hw1 ht fun d hd => not_pathBytes hd
  have h1 := ha.of_writes hw1 fun t ht => (hto1 t ht).1
  -- the fresh chunks
  have htoast : cur1.toast = toastAt file first := htoast1
  have hf1 : file' = addUsed (writeChunks file1 cur1.indexToast cur1.toast.used
      cur1.toast.indexAttached str (chunkSize * chunkCount f.size) lastLen
      cur1.toast.indexAttached req) cur1 req := by
    rw [hf, Zgdb.growInToast, hr]
  obtain ⟨hw2, hto2, hta2, hkeep2, hfresh2⟩ := h1.append hfirst
    (hpos1.trans (hw1.blockPos_eq first).symm) (by rw [htoast]; exact (h.toast _ hfirst).type)
    (by rw [htoast]; exact h.named hfirst) (by rw [htoast]; exact (h.toast _ hfirst).le_capacity)
    (by rw [htoast]; exact hfit.trans (hlen first hfirst)) hf1
  rw [htoast] at hta2 hkeep2 hfresh2
  rw [h.named hfirst] at hfresh2
  have hkeep : ∀ x, InUse file own x → chunkHeap file' x = chunkHeap file1 x := by
    intro x hx
    refine chunkHeap_congr (hkeep2 x (hin x hx) ?_)
    intro hxt
    obtain ⟨j, hj, hxj⟩ := hx.index
    exact ⟨j, hxt ▸ hj, hxj⟩
  obtain ⟨hfpath, hfspells⟩ := fresh_chain hfresh2
  have hown : ∀ {t}, t ∈ own → t = first := fun ht => hone _ ht
  have hused : (toastAt file' first).used = (toastAt file first).used + req := by rw [hta2]
  have huse : ∀ x, InUse file own x → InUse file' own x := by
    rintro x ⟨hm, j, hj, hx⟩
    refine ⟨hm, j, ?_, hx⟩
    rw [hown hm] at hj ⊢
    omega
  obtain ⟨hgtexts, hgreads, hgspells, -⟩ : Texts file' own first (pre ++ f' :: post) ∧
      (∀ g ∈ pre ++ post, TextKept file file' first g) ∧
      Spells str lastLen (chunkCount f'.size) 0
        (Chain.read (chunkHeap file') (chunkCount f'.size) (first, f'.offsetInToast)) ∧ _ := by
    refine h.grow (first, (toastAt file first).used * chunkRecord) hreq hcount hoff
      (fun _ ht => ht) ?_ (fun t ht => hown ht ▸ hto2) ?_ huse
      ?_ ?_ ?_ ?_ hfspells fun _ => ⟨hone, ?_⟩
    · intro t ht
      exact hw2.alive_iff.mpr (hw1.alive_iff.mpr (h.alive t ht))
    · intro t ht
      rw [hown ht, hta2]
      exact hfit
    · intro x hx
      rw [hkeep x (h.inUse f hfm x hx), hold1 x (h.inUse f hfm x hx)]
    · intro x hx hxf
      rw [hkeep x hx, hother1 x hx hxf]
    · intro x hx
      rw [hfpath] at hx
      obtain ⟨i, hi, rfl⟩ := List.mem_map.mp hx
      have hi' := List.mem_range.mp hi
      exact ⟨⟨hfirst, _, by rw [hused]; omega, rfl⟩, not_inUse_fresh⟩
    · rw [hfpath]
      exact nodup_slots _ _ _
    · -- every chunk of the toast still leads to one of the toast
      intro x hx
      obtain ⟨hm, j, hj, hxj⟩ := hx
      rw [hown hm, hused] at hj
      by_cases hlt : j < (toastAt file first).used
      · have hxu : InUse file own x := ⟨hm, j, by rw [hown hm]; exact hlt, hxj⟩
        show (chunkHeap file' x).next.1 = first
        rw [hkeep x hxu, hold1 x hxu]
        rcases relinkedHeap_next file first f str (first, (toastAt file first).used * chunkRecord) x
          with hn | hn
        · rw [hn]
        · rw [hn]
          exact hlinks x hxu
      · have hx' : x = (first, ((toastAt file first).used + (j - (toastAt file first).used))
            * chunkRecord) := Prod.ext (hown hm) (by rw [hxj]; congr 1; omega)
        rw [hx', hfresh2 _ (by omega)]
        exact ite_self _
  refine ⟨?_, hgtexts, hgreads, hgspells, hta2⟩
  refine (hw1.mono ?_).comp (hw2.mono fun k d hd => hd)
  rintro k d ⟨x, hx, hd⟩
  exact hd.1.trans (hpath1 x hx)

/-- **Two fresh chains**, one at the end of the first toast and one in a new toast. -/
theorem fresh_chains {first t used left rest start : Nat} (hrest : 0 < rest)
    (h1 : ∀ i < left, chunkAt file' (first, (used + i) * chunkRecord)
      = { data := overlay str (start + chunkSize * i)
            (if i + 1 = left then chunkSize else chunkSize) clearedChunk
          nextOffset := if i + 1 = left then 0 else (used + i + 1) * chunkRecord
          toastIndex := if i + 1 = left then t else first })
    (h2 : ∀ i < rest, chunkAt file' (t, (0 + i) * chunkRecord)
      = { data := overlay str (start + chunkSize * left + chunkSize * i)
            (if i + 1 = rest then lastLen else chunkSize) clearedChunk
          nextOffset := if i + 1 = rest then 0 else (0 + i + 1) * chunkRecord
          toastIndex := if i + 1 = rest then t else t }) :
    Chain.path (chunkHeap file') (left + rest)
      (if left = 0 then (t, 0) else (first, used * chunkRecord))
        = (List.range left).map (fun i => (first, (used + i) * chunkRecord))
          ++ (List.range rest).map (fun i => (t, (0 + i) * chunkRecord)) ∧
      Spells str lastLen (left + rest) start (Chain.read (chunkHeap file') (left + rest)
        (if left = 0 then (t, 0) else (first, used * chunkRecord))) := by
  obtain ⟨hp2, hs2⟩ := fresh_chain h2
  rw [Nat.zero_mul] at hp2 hs2
  cases left with
  | zero =>
    rw [Nat.mul_zero, Nat.add_zero] at hs2
    rw [if_pos rfl, Nat.zero_add]
    exact ⟨hp2, hs2⟩
  | succ m =>
    obtain ⟨hp1, hs1⟩ := fresh_chain h1
    rw [if_neg (Nat.succ_ne_zero m)]
    -- the last chunk of the first part leads to the new toast
    have hlinks : ∀ i < m, (chunkHeap file' (first, (used + i) * chunkRecord)).next
        = (first, (used + (i + 1)) * chunkRecord) := by
      intro i hi
      have hne : ¬ i + 1 = m + 1 := by omega
      rw [next_eq_of_chunkAt (h1 i (by omega))]
      simp only [if_neg hne]
      rfl
    have hafter : Chain.after (chunkHeap file') (m + 1) (first, used * chunkRecord) = (t, 0) := by
      have hm : Chain.after (chunkHeap file') m (first, used * chunkRecord)
          = (first, (used + m) * chunkRecord) :=
        Chain.after_of_links (fun i => (first, (used + i) * chunkRecord)) hlinks
      rw [Chain.after_succ, hm, next_eq_of_chunkAt (h1 m (Nat.lt_succ_self m))]
      simp only [if_true]
    refine ⟨?_, ?_⟩
    · rw [Chain.path_append, hafter, hp1, hp2]
    · rw [Chain.read_append, hafter]
      exact hs1.append hs2 hrest

/-- What is left of the first toast is filled; when nothing is left, nothing is written. -/
theorem Area.fillRest {file file' : ZgdbFile A} {t left start lastToast : Nat} {cur : Cursor A}
    (h : Area L file own) (ht : t ∈ own) (hpos : cur.indexToast = blockPos file t)
    (htoast : toastAt file t = cur.toast)
    (hfit : sizeofToast + (cur.toast.used + left) * chunkRecord ≤ L.len t)
    (hf : file' = if left ≠ 0 then
        addUsed (writeChunks file cur.indexToast cur.toast.used cur.toast.indexAttached str start
          chunkSize lastToast left) cur left
      else file) :
    Writes L (fun k _ => k = t) file file' ∧ IsToast file' t ∧
      toastAt file' t = { cur.toast with used := cur.toast.used + left } ∧
      (∀ x, SlotIn L own x → (x.1 = t → ∃ i < cur.toast.used, x.2 = i * chunkRecord) →
        chunkAt file' x = chunkAt file x) ∧
      ∀ i < left, chunkAt file' (t, (cur.toast.used + i) * chunkRecord)
        = { data := overlay str (start + chunkSize * i)
              (if i + 1 = left then chunkSize else chunkSize) clearedChunk
            nextOffset := if i + 1 = left then 0 else (cur.toast.used + i + 1) * chunkRecord
            toastIndex := if i + 1 = left then lastToast else t } := by
  have hto := h.toast t ht
  by_cases hleft : left = 0
  · subst hleft
    rw [if_neg (by simp)] at hf
    subst hf
    exact ⟨Writes.refl, hto, htoast, fun _ _ _ => rfl, fun i hi => absurd hi (Nat.not_lt_zero i)⟩
  · rw [if_pos hleft] at hf
    exact h.append ht hpos (htoast ▸ hto.type) (htoast ▸ hto.attached) (htoast ▸ hto.le_capacity)
      hfit hf

/-- `fillAcrossToasts` in its steps. -/
theorem fillAcrossToasts_eq {file file2 : ZgdbFile A} (file3 : ZgdbFile A) {chunks t : Nat}
    {cur cur2 : Cursor A}
    (hr : relinkChunks (fwriteAt toastK file cur.indexToast 0
        { cur.toast with nextToastIndex := t }) str 0
      (fun cur' chunk =>
        if chunksLeft cur.toast = 0 then { chunk with nextOffset := 0, toastIndex := t }
        else { chunk with nextOffset := cur'.toast.used * chunkRecord }) false chunks
      { cur with toast := { cur.toast with nextToastIndex := t } } = (file2, cur2))
    (hf3 : file3 = if chunksLeft cur.toast ≠ 0 then
        addUsed (writeChunks file2 cur2.indexToast cur2.toast.used cur2.toast.indexAttached str
          (chunkSize * chunks) chunkSize t (chunksLeft cur.toast)) cur2 (chunksLeft cur.toast)
      else file2) :
    fillAcrossToasts file str chunks req lastLen t cur
      = addUsed (writeChunks file3 (openToast file3 cur2.toast.nextToastIndex 0).indexToast
          (openToast file3 cur2.toast.nextToastIndex 0).toast.used
          (openToast file3 cur2.toast.nextToastIndex 0).toast.indexAttached str
          (chunkSize * (chunks + chunksLeft cur.toast)) lastLen
          (openToast file3 cur2.toast.nextToastIndex 0).toast.indexAttached
          (req - chunksLeft cur.toast))
        (openToast file3 cur2.toast.nextToastIndex 0) (req - chunksLeft cur.toast) := by
  subst hf3
  simp only [fillAcrossToasts, hr]

/-- Where the chain of a text goes on when it is to grow across toasts. -/
def acrossLink (file : ZgdbFile A) (first t : Nat) : Slot :=
  if chunksLeft (toastAt file first) = 0 then (t, 0)
  else (first, (toastAt file first).used * chunkRecord)

/-- The first toast filled: its header names the new toast `t`, the text is relinked, and the
chunks that were left are written. -/
structure FirstFilled (L : Layout A) (file file' : ZgdbFile A) (own : List Nat) (first t : Nat)
    (f : FirstTextChunk) (str : CString) : Prop where
  writes : Writes L (fun k _ => k = first) file file'
  toast : IsToast file' first
  header : toastAt file' first = { toastAt file first with
    used := (toastAt file first).used + chunksLeft (toastAt file first), nextToastIndex := t }
  other : ∀ x ∈ t :: own, x ≠ first → IsToast file' x ∧ toastAt file' x = toastAt file x
  old : ∀ x ∈ textPath file first f,
    chunkHeap file' x = relinkedHeap file first f str (acrossLink file first t) x
  others : ∀ x, InUse file own x → x ∉ textPath file first f → chunkHeap file' x = chunkHeap file x
  fresh : ∀ i < chunksLeft (toastAt file first),
    chunkAt file' (first, ((toastAt file first).used + i) * chunkRecord)
      = { data := overlay str (chunkSize * chunkCount f.size + chunkSize * i)
            (if i + 1 = chunksLeft (toastAt file first) then chunkSize else chunkSize) clearedChunk
          nextOffset := if i + 1 = chunksLeft (toastAt file first) then 0
            else ((toastAt file first).used + i + 1) * chunkRecord
          toastIndex := if i + 1 = chunksLeft (toastAt file first) then t else first }

/-- **The first toast is filled** before the code moves to the new one. -/
theorem Texts.fillFirst {t : Nat} (h : Texts file own first (pre ++ f :: post))
    (ha : Area L file (t :: own)) (hlen : ∀ x ∈ t :: own, (toastAt file x).capacity ≤ L.len x)
    (hone : ∀ x ∈ textPath file first f, x.1 = first)
    (hf : file' = fillAcrossToasts file str (chunkCount f.size) req lastLen t
      (openToast file first f.offsetInToast)) :
    ∃ file3 cur, FirstFilled L file file3 own first t f str ∧
      cur.indexToast = blockPos file3 t ∧ cur.toast = toastAt file3 t ∧
      file' = addUsed (writeChunks file3 cur.indexToast cur.toast.used cur.toast.indexAttached str
        (chunkSize * (chunkCount f.size + chunksLeft (toastAt file first))) lastLen
        cur.toast.indexAttached (req - chunksLeft (toastAt file first))) cur
        (req - chunksLeft (toastAt file first)) := by
  have hfm : f ∈ pre ++ f :: post := List.mem_append_right _ List.mem_cons_self
  have hfirst := h.first_of_mem hfm
  have hfirst' : first ∈ t :: own := List.mem_cons_of_mem _ hfirst
  have hT := h.toast first hfirst
  have hlen' : ∀ x ∈ own, (toastAt file x).capacity ≤ L.len x := fun x hx =>
    hlen x (List.mem_cons_of_mem _ hx)
  have hin : ∀ x, InUse file own x → SlotIn L (t :: own) x := by
    intro x hx
    obtain ⟨hm, hfits⟩ := h.slotIn hlen' hx
    exact ⟨List.mem_cons_of_mem _ hm, hfits⟩
  -- the header of the first toast
  obtain ⟨file1, hf1⟩ : ∃ file1, file1 = fwriteAt toastK file (blockPos file first) 0
      { toastAt file first with nextToastIndex := t } := ⟨_, rfl⟩
  obtain ⟨hw1, hto1, hta1⟩ := ha.fwriteToast hfirst'
    { toastAt file first with nextToastIndex := t } hT.type hT.attached hT.le_capacity
  rw [← hf1] at hw1 hto1 hta1
  have hA1 : Area L file1 (t :: own) := ha.header hw1 hto1
  have hAown : Area L file1 own := ⟨fun x hx => hA1.shows x (List.mem_cons_of_mem _ hx),
    fun x hx => hA1.toast x (List.mem_cons_of_mem _ hx),
    fun x hx => hA1.le_len x (List.mem_cons_of_mem _ hx)⟩
  -- the chain is relinked
  obtain ⟨cur, hcur⟩ : ∃ cur : Cursor A, cur = { openToast file first f.offsetInToast with
      toast := { toastAt file first with nextToastIndex := t } } := ⟨_, rfl⟩
  obtain ⟨file2, cur2, hr⟩ : ∃ file2 cur2, relinkChunks file1 str 0
      (fun cur chunk =>
        if chunksLeft (toastAt file first) = 0 then { chunk with nextOffset := 0, toastIndex := t }
        else { chunk with nextOffset := cur.toast.used * chunkRecord }) false
      (chunkCount f.size) cur = (file2, cur2) := ⟨_, _, rfl⟩
  have hcurAt : cur.At file1 (first, f.offsetInToast) := by
    subst hcur
    exact ⟨(hw1.blockPos_eq first).symm, hT.attached, rfl⟩
  have hctoast : cur.toast = { toastAt file first with nextToastIndex := t } := by rw [hcur]
  obtain ⟨hw2, hold2, hother2, hpos2, htoast2⟩ := h.relink
    (acrossLink file first t) hAown
    (fun x hx => ⟨h.slotIn hlen' hx, ha.chunkAt_header hw1 (hin x hx)⟩)
    hone hcurAt (fun cur' hcur' x hx => by
      rw [hcur', hctoast, acrossLink]
      by_cases hl : chunksLeft (toastAt file first) = 0
      · simp only [if_pos hl]
      · simp only [if_neg hl]
        rw [← (h.room hl).2 x (h.inUse f hfm x hx)])
    (fun hm => absurd hm (by simp)) hr
  have hto2 : ∀ x ∈ t :: own, IsToast file2 x ∧ toastAt file2 x = toastAt file1 x := fun x hx =>
    hA1.toastAt_eq hw2 hx fun d hd => not_pathBytes hd
  have hA2 : Area L file2 (t :: own) := hA1.of_writes hw2 fun x hx => (hto2 x hx).1
  have hc2 : cur2.toast = { toastAt file first with nextToastIndex := t } := htoast2.trans hctoast
  have hu2 : cur2.toast.used = (toastAt file first).used := by rw [hc2]
  -- what is left of the first toast
  obtain ⟨file3, hf3⟩ : ∃ file3, file3 = if chunksLeft (toastAt file first) ≠ 0 then
        addUsed (writeChunks file2 cur2.indexToast cur2.toast.used cur2.toast.indexAttached str
          (chunkSize * chunkCount f.size) chunkSize t (chunksLeft (toastAt file first))) cur2
          (chunksLeft (toastAt file first))
      else file2 := ⟨_, rfl⟩
  have hpos2' : cur2.indexToast = blockPos file2 first := by
    rw [hpos2, hcur, hw2.blockPos_eq, hw1.blockPos_eq]
    rfl
  have hfit := fits_of_le_chunksLeft (h.fits first hfirst) (Nat.le_refl _)
  obtain ⟨hw3, hto3, hta3, hkeep3, hfresh3⟩ := hA2.fillRest hfirst' hpos2'
    ((hto2 first hfirst').2.trans (hta1.trans hc2.symm))
    (by rw [hu2]; exact hfit.trans (hlen first hfirst')) hf3
  rw [hu2] at hkeep3 hfresh3
  have hkeepT : ∀ x ∈ t :: own, x ≠ first → IsToast file3 x ∧ toastAt file3 x = toastAt file x := by
    intro x hx hxf
    have h3 := hA2.toastAt_eq hw3 hx fun d _ hd => hxf hd
    exact ⟨h3.1, h3.2.trans ((hto2 x hx).2.trans (ha.toastAt_header hw1 hx hxf).2)⟩
  have hnext : cur2.toast.nextToastIndex = t := by rw [hc2]
  have hkeep : ∀ x, InUse file own x → chunkHeap file3 x = chunkHeap file2 x := by
    intro x hx
    refine chunkHeap_congr (hkeep3 x (hin x hx) ?_)
    intro hxt
    obtain ⟨j, hj, hxj⟩ := hx.index
    exact ⟨j, hxt ▸ hj, hxj⟩
  refine ⟨file3, openToast file3 t 0, ⟨?_, hto3, ?_, hkeepT, ?_, ?_, hfresh3⟩, rfl, rfl, ?_⟩
  · refine (hw1.mono fun k d hd => hd.1).comp ((hw2.mono ?_).comp hw3)
    rintro k d ⟨x, hx, hd⟩
    exact hd.1.trans (hone x hx)
  · rw [hta3, hu2, hc2]
  · intro x hx
    have hxu := h.inUse f hfm x hx
    rw [hkeep x hxu, hold2 x hxu]
  · intro x hx hxf
    rw [hkeep x hx, hother2 x hx hxf]
  · subst hf1 hcur
    rw [hf, fillAcrossToasts_eq _ hr hf3, hnext]
    rfl

/-- A text grown across toasts: what is left of the first toast is filled, and the rest lies in
the toast `t`, which follows the first one now. -/
structure GrownAcross (L : Layout A) (file file' : ZgdbFile A) (own : List Nat) (first t : Nat)
    (pre : List FirstTextChunk) (f f' : FirstTextChunk) (post : List FirstTextChunk)
    (str : CString) (lastLen : Nat) : Prop where
  writes : Writes L (fun k _ => k = first ∨ k = t) file file'
  texts : Texts file' (t :: own) first (pre ++ f' :: post)
  reads : ∀ g ∈ pre ++ post, TextKept file file' first g
  spells : Spells str lastLen (chunkCount f'.size) 0
    (Chain.read (chunkHeap file') (chunkCount f'.size) (first, f'.offsetInToast))
  next : (toastAt file' first).nextToastIndex = t
  kept : ∀ x ∈ t :: own, x ≠ first →
    (toastAt file' x).nextToastIndex = (toastAt file x).nextToastIndex
  capacity : ∀ x ∈ t :: own, (toastAt file' x).capacity = (toastAt file x).capacity
  tail : ∃ path n, 0 < n ∧
    textPath file' first f' = path ++ (List.range n).map fun i => (t, (0 + i) * chunkRecord)

/-- The two halves of a growth across toasts: the first toast filled in `file3`, then the rest of
the chunks in the new toast `t`. -/
structure FilledAcross (L : Layout A) (file file3 file' : ZgdbFile A) (own : List Nat)
    (first t : Nat) (f : FirstTextChunk) (str : CString) (req lastLen : Nat) : Prop where
  firstHalf : FirstFilled L file file3 own first t f str
  area : Area L file3 (t :: own)
  mem : first ∈ own
  new : t ∉ own
  writes : Writes L (fun k _ => k = t) file3 file'
  toast : IsToast file' t
  header : toastAt file' t
    = { toastAt file t with used := req - chunksLeft (toastAt file first) }
  kept : ∀ x, SlotIn L (t :: own) x → x.1 ≠ t → chunkAt file' x = chunkAt file3 x
  fresh : ∀ i < req - chunksLeft (toastAt file first), chunkAt file' (t, (0 + i) * chunkRecord)
    = { data := overlay str (chunkSize * chunkCount f.size
            + chunkSize * chunksLeft (toastAt file first) + chunkSize * i)
          (if i + 1 = req - chunksLeft (toastAt file first) then lastLen else chunkSize)
            clearedChunk
        nextOffset := if i + 1 = req - chunksLeft (toastAt file first) then 0
          else (0 + i + 1) * chunkRecord
        toastIndex := if i + 1 = req - chunksLeft (toastAt file first) then t else t }

namespace FilledAcross

variable {file3 : ZgdbFile A} {t : Nat}

theorem toast_own (h : FilledAcross L file file3 file' own first t f str req lastLen) {x : Nat}
    (hx : x ∈ own) : IsToast file' x ∧ toastAt file' x = toastAt file3 x :=
  h.area.toastAt_eq h.writes (List.mem_cons_of_mem _ hx) fun _ _ hd => h.new (hd ▸ hx)

/-- The header of the first toast: it is full, and `t` follows. -/
theorem header_first (h : FilledAcross L file file3 file' own first t f str req lastLen) :
    toastAt file' first = { toastAt file first with
      used := (toastAt file first).used + chunksLeft (toastAt file first), nextToastIndex := t } :=
  (h.toast_own h.mem).2.trans h.firstHalf.header

theorem header_other (h : FilledAcross L file file3 file' own first t f str req lastLen) {x : Nat}
    (hx : x ∈ own) (hxf : x ≠ first) : toastAt file' x = toastAt file x :=
  (h.toast_own hx).2.trans (h.firstHalf.other x (List.mem_cons_of_mem _ hx) hxf).2

theorem isToast (h : FilledAcross L file file3 file' own first t f str req lastLen) {x : Nat}
    (hx : x ∈ t :: own) : IsToast file' x := by
  rcases List.mem_cons.mp hx with rfl | hx
  · exact h.toast
  · exact (h.toast_own hx).1

theorem capacity (h : FilledAcross L file file3 file' own first t f str req lastLen) {x : Nat}
    (hx : x ∈ t :: own) : (toastAt file' x).capacity = (toastAt file x).capacity := by
  rcases List.mem_cons.mp hx with rfl | hx
  · rw [h.header]
  · by_cases hxf : x = first
    · rw [hxf, h.header_first]
    · rw [h.header_other hx hxf]

theorem next (h : FilledAcross L file file3 file' own first t f str req lastLen) {x : Nat}
    (hx : x ∈ t :: own) (hxf : x ≠ first) :
    (toastAt file' x).nextToastIndex = (toastAt file x).nextToastIndex := by
  rcases List.mem_cons.mp hx with rfl | hx
  · rw [h.header]
  · rw [h.header_other hx hxf]

/-- The chunks that were in use are those of `file3`. -/
theorem chunkHeap_eq (h : FilledAcross L file file3 file' own first t f str req lastLen)
    (hlen : ∀ x ∈ own, (toastAt file x).capacity ≤ L.len x) {fs : List FirstTextChunk}
    (htexts : Texts file own first fs) {x : Slot} (hx : InUse file own x) :
    chunkHeap file' x = chunkHeap file3 x := by
  obtain ⟨hm, hfits⟩ := htexts.slotIn hlen hx
  refine chunkHeap_congr (h.kept x ⟨List.mem_cons_of_mem _ hm, hfits⟩ ?_)
  rintro rfl
  exact h.new hx.mem

/-- A slot in use stays in use. -/
theorem inUse (h : FilledAcross L file file3 file' own first t f str req lastLen) {x : Slot}
    (hx : InUse file own x) : InUse file' (t :: own) x := by
  obtain ⟨hm, j, hj, hxj⟩ := hx
  refine ⟨List.mem_cons_of_mem _ hm, j, ?_, hxj⟩
  by_cases hxf : x.1 = first
  · rw [hxf] at hj ⊢
    rw [h.header_first]
    exact Nat.lt_of_lt_of_le hj (Nat.le_add_right _ _)
  · rw [h.header_other hm hxf]
    exact hj

/-- The counters of the toasts fit. -/
theorem fits (h : FilledAcross L file file3 file' own first t f str req lastLen)
    {fs : List FirstTextChunk} (htexts : Texts file own first fs)
    (hroom : sizeofToast + req * chunkRecord ≤ (toastAt file t).capacity) {x : Nat}
    (hx : x ∈ t :: own) :
    sizeofToast + (toastAt file' x).used * chunkRecord ≤ (toastAt file' x).capacity := by
  rcases List.mem_cons.mp hx with rfl | hx
  · rw [h.header]
    refine le_trans ?_ hroom
    exact Nat.add_le_add_left (Nat.mul_le_mul_right _ (Nat.sub_le _ _)) _
  · by_cases hxf : x = first
    · rw [hxf, h.header_first]
      exact fits_of_le_chunksLeft (htexts.fits first h.mem) (Nat.le_refl _)
    · rw [h.header_other hx hxf]
      exact htexts.fits x hx

/-- **The fresh chunks** go on from the link in one chain. -/
theorem chain (h : FilledAcross L file file3 file' own first t f str req lastLen)
    (hleft : chunksLeft (toastAt file first) < req)
    (hfit : sizeofToast + ((toastAt file first).used + chunksLeft (toastAt file first))
      * chunkRecord
      ≤ L.len first) :
    Chain.path (chunkHeap file') req (acrossLink file first t)
        = (List.range (chunksLeft (toastAt file first))).map
            (fun i => (first, ((toastAt file first).used + i) * chunkRecord))
          ++ (List.range (req - chunksLeft (toastAt file first))).map
            (fun i => (t, (0 + i) * chunkRecord)) ∧
      Spells str lastLen req (chunkSize * chunkCount f.size)
        (Chain.read (chunkHeap file') req (acrossLink file first t)) := by
  have hft : first ≠ t := fun he => h.new (he ▸ h.mem)
  have hfresh : ∀ i < chunksLeft (toastAt file first),
      chunkAt file' (first, ((toastAt file first).used + i) * chunkRecord)
        = chunkAt file3 (first, ((toastAt file first).used + i) * chunkRecord) := by
    intro i hi
    have hs : SlotIn L (t :: own) (first, ((toastAt file first).used + i) * chunkRecord) :=
      slotIn_of_lt (List.mem_cons_of_mem _ h.mem) (Nat.add_lt_add_left hi _) hfit
    exact h.kept _ hs hft
  have hsum : chunksLeft (toastAt file first) + (req - chunksLeft (toastAt file first)) = req := by
    omega
  obtain ⟨hpath, hspells⟩ := fresh_chains (by omega : 0 < req - chunksLeft (toastAt file first))
    (fun i hi => (hfresh i hi).trans (h.firstHalf.fresh i hi)) h.fresh
  rw [hsum] at hpath hspells
  exact ⟨hpath, hspells⟩

/-- A fresh chunk lies behind those of the first toast, or in the new one. -/
theorem fresh_inUse (h : FilledAcross L file file3 file' own first t f str req lastLen) {x : Slot}
    (hx : x ∈ (List.range (chunksLeft (toastAt file first))).map
        (fun i => (first, ((toastAt file first).used + i) * chunkRecord))
      ++ (List.range (req - chunksLeft (toastAt file first))).map
        (fun i => (t, (0 + i) * chunkRecord))) :
    InUse file' (t :: own) x ∧ ¬ InUse file own x := by
  rcases List.mem_append.mp hx with hx | hx
  · obtain ⟨i, hi, rfl⟩ := List.mem_map.mp hx
    refine ⟨⟨List.mem_cons_of_mem _ h.mem, _, ?_, rfl⟩, not_inUse_fresh⟩
    show _ < (toastAt file' first).used
    rw [h.header_first]
    exact Nat.add_lt_add_left (List.mem_range.mp hi) _
  · obtain ⟨i, hi, rfl⟩ := List.mem_map.mp hx
    refine ⟨⟨List.mem_cons_self, 0 + i, ?_, rfl⟩, fun hu => h.new hu.mem⟩
    show _ < (toastAt file' t).used
    rw [h.header, Nat.zero_add]
    exact List.mem_range.mp hi

theorem nodup (h : FilledAcross L file file3 file' own first t f str req lastLen) :
    ((List.range (chunksLeft (toastAt file first))).map
        (fun i => ((first, ((toastAt file first).used + i) * chunkRecord) : Slot))
      ++ (List.range (req - chunksLeft (toastAt file first))).map
        (fun i => (t, (0 + i) * chunkRecord))).Nodup := by
  refine List.nodup_append.mpr ⟨nodup_slots _ _ _, nodup_slots _ _ _, ?_⟩
  rintro x hx y hy rfl
  obtain ⟨i, -, rfl⟩ := List.mem_map.mp hx
  obtain ⟨j, -, hj⟩ := List.mem_map.mp hy
  have hft : t = first := congrArg Prod.fst hj
  exact h.new (hft ▸ h.mem)

end FilledAcross

/-- **The two halves**, in turn. -/
theorem Texts.fillAcross {t : Nat} (h : Texts file own first (pre ++ f :: post))
    (ha : Area L file (t :: own)) (hlen : ∀ x ∈ t :: own, (toastAt file x).capacity ≤ L.len x)
    (hnew : t ∉ own) (hzero : (toastAt file t).used = 0)
    (hroom : sizeofToast + req * chunkRecord ≤ (toastAt file t).capacity)
    (hone : ∀ x ∈ textPath file first f, x.1 = first)
    (hf : file' = fillAcrossToasts file str (chunkCount f.size) req lastLen t
      (openToast file first f.offsetInToast)) :
    ∃ file3, FilledAcross L file file3 file' own first t f str req lastLen := by
  have hfirst := h.first_of_mem (List.mem_append_right pre (List.mem_cons_self : f ∈ f :: post))
  have hft : first ≠ t := fun he => hnew (he ▸ hfirst)
  have htm : t ∈ t :: own := List.mem_cons_self
  obtain ⟨file3, cur, h3, hpos3, htoast3, hf4⟩ := h.fillFirst ha hlen hone hf
  have hA3 : Area L file3 (t :: own) := ha.of_writes h3.writes fun x hx => by
    by_cases hxf : x = first
    · exact hxf ▸ h3.toast
    · exact (h3.other x hx hxf).1
  obtain ⟨hto3, hta3⟩ := h3.other t htm (Ne.symm hft)
  have hused3 : cur.toast.used = 0 := by rw [htoast3, hta3, hzero]
  have hatt3 : cur.toast.indexAttached = t := by rw [htoast3, hto3.attached]
  have hfit4 : sizeofToast + (cur.toast.used + (req - chunksLeft (toastAt file first)))
      * chunkRecord ≤ L.len t := by
    rw [hused3, Nat.zero_add]
    refine le_trans ?_ (hroom.trans (hlen t htm))
    exact Nat.add_le_add_left (Nat.mul_le_mul_right _ (Nat.sub_le _ _)) _
  obtain ⟨hw4, hto4, hta4, hkeep4, hfresh4⟩ := hA3.append htm hpos3 (htoast3 ▸ hto3.type) hatt3
    (htoast3 ▸ hto3.le_capacity) hfit4 hf4
  rw [hused3] at hta4 hkeep4 hfresh4
  simp only [hatt3, Nat.mul_add] at hfresh4
  refine ⟨file3, h3, hA3, hfirst, hnew, hw4, hto4, ?_, ?_, hfresh4⟩
  · rw [hta4, htoast3, hta3, Nat.zero_add]
  · intro x hx hxt
    exact hkeep4 x hx fun he => absurd he hxt

/-- **A text that grows across toasts**: its chain lies in the first toast, and `t` is a new toast
with room for the chunks. -/
theorem Texts.growAcross {t : Nat} (h : Texts file own first (pre ++ f :: post))
    (ha : Area L file (t :: own)) (hlen : ∀ x ∈ t :: own, (toastAt file x).capacity ≤ L.len x)
    (hnew : t ∉ own) (halive : Alive file t) (hzero : (toastAt file t).used = 0)
    (hroom : sizeofToast + req * chunkRecord ≤ (toastAt file t).capacity)
    (hone : ∀ x ∈ textPath file first f, x.1 = first)
    (hleft : chunksLeft (toastAt file first) < req)
    (hcount : chunkCount f'.size = chunkCount f.size + req)
    (hoff : f'.offsetInToast = f.offsetInToast)
    (hf : file' = fillAcrossToasts file str (chunkCount f.size) req lastLen t
      (openToast file first f.offsetInToast)) :
    GrownAcross L file file' own first t pre f f' post str lastLen := by
  have hfm : f ∈ pre ++ f :: post := List.mem_append_right _ List.mem_cons_self
  have hfirst := h.first_of_mem hfm
  have hlen' : ∀ x ∈ own, (toastAt file x).capacity ≤ L.len x := fun x hx =>
    hlen x (List.mem_cons_of_mem _ hx)
  obtain ⟨file3, hall⟩ := h.fillAcross ha hlen hnew hzero hroom hone hf
  have hfit := fits_of_le_chunksLeft (h.fits first hfirst) (Nat.le_refl _)
  obtain ⟨hpath, hspells⟩ := hall.chain hleft (hfit.trans (hlen' first hfirst))
  obtain ⟨hgtexts, hgreads, hgspells, hgpath⟩ : Texts file' (t :: own) first (pre ++ f' :: post) ∧
      (∀ g ∈ pre ++ post, TextKept file file' first g) ∧
      Spells str lastLen (chunkCount f'.size) 0
        (Chain.read (chunkHeap file') (chunkCount f'.size) (first, f'.offsetInToast)) ∧
      textPath file' first f' = textPath file first f
        ++ Chain.path (chunkHeap file') req (acrossLink file first t) := by
    refine h.grow (acrossLink file first t) (by omega) hcount hoff
      (fun x hx => List.mem_cons_of_mem _ hx) ?_ (fun x hx => hall.isToast hx)
      (fun x hx => hall.fits h hroom hx) (fun x hx => hall.inUse hx) ?_
      ?_ ?_ ?_ hspells fun hl => absurd ?_ hl
    · intro x hx
      refine hall.writes.alive_iff.mpr (hall.firstHalf.writes.alive_iff.mpr ?_)
      rcases List.mem_cons.mp hx with rfl | hx
      · exact halive
      · exact h.alive x hx
    · intro x hx
      rw [hall.chunkHeap_eq hlen' h (h.inUse f hfm x hx), hall.firstHalf.old x hx]
    · intro x hx hxf
      rw [hall.chunkHeap_eq hlen' h hx, hall.firstHalf.others x hx hxf]
    · intro x hx
      rw [hpath] at hx
      exact hall.fresh_inUse hx
    · rw [hpath]
      exact hall.nodup
    · -- the first toast is full
      rw [hall.header_first]
      exact chunksLeft_filled (h.fits first hfirst) t
  refine ⟨(hall.firstHalf.writes.mono fun k d hd => Or.inl hd).comp
      (hall.writes.mono fun k d hd => Or.inr hd),
    hgtexts, hgreads, hgspells, by rw [hall.header_first], fun x hx hxf => hall.next hx hxf,
    fun x hx => hall.capacity hx,
    textPath file first f ++ (List.range (chunksLeft (toastAt file first))).map
      (fun i => (first, ((toastAt file first).used + i) * chunkRecord)),
    req - chunksLeft (toastAt file first), by omega, ?_⟩
  rw [hgpath, hpath, List.append_assoc]

end Grow

end Zgdb
