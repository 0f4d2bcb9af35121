/-
# A text that grows across toasts again

The code that grows a text across toasts walks its chain with a cursor and links the new toast to
the first one.  The cursor ends where the chain ends.  If that is another toast, the code follows
*its* `nextToastIndex` to find the new toast; behind the last toast this is 0, the index of the
root, and the rest of the text and a toast header are written to the block of the root
(`updateText_again`).
-/
import Zgdb.Editing

namespace Zgdb

open Zgdb.Lib AddrSpace

variable {A : Type} [BlockSpace A]

/-! ## 1. Where the relinking loop ends

The loop reads a link and goes to the toast that it names.  After the last chunk the cursor stands
in the toast of that chunk, and this need not be the first toast of the document. -/

section Relink

variable {L : Layout A} {own : List Nat} {str : CString}

/-- **The relinking loop ends at the toast of the last chunk**, whatever toasts the chain visits, if
the new link leads out of it.  It writes to the toasts only. -/
theorem relinkChunks_cursor {relink : Cursor A → TextChunk → TextChunk} {link : Slot} (n : Nat)
    {file : ZgdbFile A} {cur : Cursor A} {s : Slot} {start : Nat} (h : Area L file own)
    (hcur : cur.At file s) (htoast : cur.toast = toastAt file s.1)
    (hp : ∀ x ∈ Chain.path (chunkHeap file) (n + 1) s, SlotIn L own x)
    (hn : (Chain.path (chunkHeap file) (n + 1) s).Nodup)
    (hrel : ∀ cur' : Cursor A, relink cur' (chunkAt file (Chain.after (chunkHeap file) n s))
      = { chunkAt file (Chain.after (chunkHeap file) n s) with
          toastIndex := link.1, nextOffset := link.2 })
    (hlast : link.1 ≠ (Chain.after (chunkHeap file) n s).1) :
    Writes L (pathBytes (Chain.path (chunkHeap file) (n + 1) s)) file
        (relinkChunks file str start relink false (n + 1) cur).1 ∧
      (relinkChunks file str start relink false (n + 1) cur).2.toast
        = toastAt file (Chain.after (chunkHeap file) n s).1 := by
  induction n generalizing file cur s start with
  | zero =>
    have hs := hp s List.mem_cons_self
    have hrel' := hrel cur
    rw [Chain.after] at hrel' hlast ⊢
    have hstay : True ∧ ¬ false = true ∧ link.1 ≠ cur.toast.indexAttached :=
      ⟨trivial, Bool.false_ne_true, by rw [hcur.attached]; exact hlast⟩
    rw [relinkChunks, hcur.chunk, if_pos rfl, hrel', relinkChunks]
    simp only [hcur.fwriteChunk]
    rw [if_pos hstay]
    obtain ⟨hw1, -⟩ := h.put hs
      { chunkAt file s with
        toastIndex := link.1, nextOffset := link.2
        data := overlay str start chunkSize (chunkAt file s).data }
    exact ⟨hw1.mono fun k d hd => ⟨s, List.mem_cons_self, hd⟩, htoast⟩
  | succ n ih =>
    have hp' : ∀ x ∈ Chain.path (chunkHeap file) (n + 1) (chunkHeap file s).next, SlotIn L own x :=
      fun x hx => hp x (List.mem_cons_of_mem _ hx)
    obtain ⟨file1, cur1, hrun, hstep⟩ := relinkChunks_step str start relink false h hcur hp hn
    have hkeep : ∀ t ∈ own, toastAt file1 t = toastAt file t := fun t ht =>
      (h.toastAt_eq hstep.writes ht fun d hd => not_chunkBytes hd).2
    have htoast1 : cur1.toast = toastAt file1 (chunkHeap file s).next.1 := by
      rw [hstep.cursor]
      unfold Cursor.advance
      split
      · rename_i he
        have hsame : (chunkHeap file s).next.1 = s.1 := he.trans hcur.attached
        rw [hsame, hkeep s.1 (hp s List.mem_cons_self).mem]
        exact htoast
      · rfl
    obtain ⟨hw2, ht2⟩ := @ih file1 cur1 _ (start + chunkSize) hstep.area hstep.at_next htoast1
      (by rw [hstep.path]; exact hp') (by rw [hstep.path]; exact (List.nodup_cons.mp hn).2)
      (fun cur' => by rw [hstep.after, hstep.last]; exact hrel cur')
      (by rw [hstep.after]; exact hlast)
    rw [hstep.path] at hw2
    rw [hrun]
    have hmem := Chain.after_mem_path (chunkHeap file) (chunkHeap file s).next (Nat.lt_succ_self n)
    refine ⟨(hstep.writes.mono ?_).comp (hw2.mono ?_), ?_⟩
    · intro k d hd
      exact ⟨s, List.mem_cons_self, hd⟩
    · intro k d hd
      exact pathBytes_mono (fun x hx => List.mem_cons_of_mem _ hx) hd
    · rw [ht2, hstep.after, hkeep _ (hp' _ hmem).mem]
      rfl

end Relink

/-! ## 2. A toast header over a document header

A toast header and a document header are laid out differently.  The counter of a toast lies where a
document has the lowest byte of its capacity, so a toast header over that of a document changes the
capacity. -/

/-- The first byte of `used` lies where a document header has the first byte of its capacity. -/
theorem cellByte_toast (t : Toast) : cellByte ⟨.toast t, 8⟩ = UInt8.ofNat t.used := rfl

theorem toastAt_used_mod {file : ZgdbFile A} {k : Nat} (h : IsDocument file k) :
    UInt8.ofNat (toastAt file k).used = cellByte (blockAt file k 8) := by
  have hobj : (blockAt file k 0).obj = .documentHeader (getDocumentHeader file k) := by
    have h0 := h.holds 0 (by decide)
    rw [AddrSpace.shift_zero] at h0
    rw [h0]
    rfl
  have hload : toastAt file k = decodeToast
      ((cells (blockAt file k) 0 sizeofToast).map cellByte) := by
    rw [toastAt_eq, load, hobj]
    rfl
  have hslice : slice ((cells (blockAt file k) 0 sizeofToast).map cellByte) 8 5
      = [cellByte (blockAt file k 8), cellByte (blockAt file k 9), cellByte (blockAt file k 10),
        cellByte (blockAt file k 11), cellByte (blockAt file k 12)] := by
    simp [cells, slice, sizeofToast, List.range, List.range.loop]
  rw [hload, decodeToast, hslice]
  simp only [leValue]
  generalize cellByte (blockAt file k 8) = b
  have hb := b.toNat_lt
  apply UInt8.toNat.inj
  rw [UInt8.toNat_ofNat']
  omega

/-- The chunk loop moves no block. -/
theorem blockPos_writeChunks (pos : A) (toastIndex : Nat) (s : CString) (lastLen lastToast : Nat)
    (k : Nat) : ∀ (n : Nat) (file : ZgdbFile A) (used start : Nat),
    blockPos (writeChunks file pos used toastIndex s start lastLen lastToast n) k = blockPos file k
  | 0, _, _, _ => rfl
  | 1, _, _, _ => rfl
  | n + 2, _, used, _ =>
    blockPos_writeChunks pos toastIndex s lastLen lastToast k (n + 1) _ (used + 1) _

/-! ## 3. The second growth

The first toast is full, the chain ends in the second, and the third has just been added behind the
first.  The code goes from the second toast to the index it names, which is 0. -/

section Again

variable {file : ZgdbFile A} {T : Forest Nat} {es : Nat → List StoredElement} {own : Nat → List Nat}
  {k : Nat} {pre post : List StoredElement} {name : Name} {f : FirstTextChunk} {input : CString}
  {first last : Nat}

/-- **The relinking loop ends at the toast of the last chunk**, once the first toast names the new
one. -/
theorem ToastAdded.relinkChunks_again {file0 file1 : ZgdbFile A} {t size : Nat}
    {fs gs : List FirstTextChunk} {relink : Cursor A → TextChunk → TextChunk} {cur : Cursor A}
    (h : ToastAdded file file0 T es own t size) (hk : k ∈ T.nodes)
    (htexts : Texts file (own k) first (fs ++ f :: gs))
    (hlast : (Chain.after (chunkHeap file) (chunkCount f.size - 1) (first, f.offsetInToast)).1
      = last)
    (hout : last ≠ first)
    (hf1 : file1 = fwriteAt toastK file0 (Zgdb.blockPos file0 first) 0
      { toastAt file0 first with nextToastIndex := t })
    (hcur : cur = { openToast file0 first f.offsetInToast with
      toast := { toastAt file0 first with nextToastIndex := t } })
    (hrel : ∀ cur' chunk, relink cur' chunk = { chunk with nextOffset := 0, toastIndex := t })
    (input : CString) :
    Writes h.store.blocks.layout (fun j _ => j ∈ own k) file0
        (relinkChunks file1 input 0 relink false (chunkCount f.size) cur).1 ∧
      (relinkChunks file1 input 0 relink false (chunkCount f.size) cur).2.toast
        = toastAt file last := by
  have hfm : f ∈ fs ++ f :: gs := List.mem_append_right _ List.mem_cons_self
  have hfo : first ∈ own k := htexts.first_of_mem hfm
  have htexts0 := h.texts_own hk htexts
  have htoast := h.toast_own hk htexts
  obtain ⟨ha, hlen⟩ := h.store.area fun x hx => ⟨(htoast x hx).1, (htoast x hx).2.1⟩
  obtain ⟨m, hm⟩ : ∃ m, chunkCount f.size = m + 1 :=
    Nat.exists_eq_add_one.mpr (chunkCount_pos (htexts.size_pos f hfm))
  have huse := htexts.inUse f hfm
  have huse0 := htexts0.inUse f hfm
  have hnodup := htexts0.nodup f hfm
  unfold textPath at huse huse0 hnodup
  rw [hm] at huse huse0 hnodup hlast ⊢
  rw [Nat.add_sub_cancel] at hlast
  -- the header of the first toast
  have hT0 := ha.toast first hfo
  obtain ⟨hw1, hto1, hta1⟩ := ha.fwriteToast hfo
    { toastAt file0 first with nextToastIndex := t } hT0.type hT0.attached hT0.le_capacity
  rw [← hf1] at hw1 hto1 hta1
  have hA1 := ha.header hw1 hto1
  have hin : ∀ x ∈ Chain.path (chunkHeap file0) (m + 1) (first, f.offsetInToast),
      SlotIn h.store.blocks.layout (own k) x := fun x hx => htexts0.slotIn hlen (huse0 x hx)
  -- the chain is where it was
  have hnext1 : ∀ x ∈ Chain.path (chunkHeap file0) (m + 1) (first, f.offsetInToast),
      (chunkHeap file1 x).next = (chunkHeap file0 x).next := fun x hx =>
    congrArg Link.next (chunkHeap_congr (ha.chunkAt_header hw1 (hin x hx)))
  have hnext0 : ∀ x ∈ Chain.path (chunkHeap file) (m + 1) (first, f.offsetInToast),
      (chunkHeap file0 x).next = (chunkHeap file x).next := fun x hx =>
    congrArg Link.next (chunkHeap_congr (htexts.chunk_frame (h.agrees_own hk) (huse x hx)))
  have hpath1 := Chain.path_congr_on hnext1
  have hafter1 : Chain.after (chunkHeap file1) m (first, f.offsetInToast)
      = Chain.after (chunkHeap file0) m (first, f.offsetInToast) :=
    Chain.after_congr fun i hi => hnext1 _ (Chain.after_mem_path _ _ (by omega))
  have hafter0 : Chain.after (chunkHeap file0) m (first, f.offsetInToast)
      = Chain.after (chunkHeap file) m (first, f.offsetInToast) :=
    Chain.after_congr fun i hi => hnext0 _ (Chain.after_mem_path _ _ (by omega))
  have hlastOwn : last ∈ own k := by
    rw [← hlast]
    exact (huse _ (Chain.after_mem_path _ _ (Nat.lt_succ_self m))).mem
  have hlastNe : t ≠ last := fun he => h.notMem_own htexts (he ▸ hlastOwn)
  -- the loop
  have hcurAt : cur.At file1 (first, f.offsetInToast) := by
    subst hcur
    exact ⟨(hw1.blockPos_eq first).symm, hT0.attached, rfl⟩
  obtain ⟨hw2, ht2⟩ := @relinkChunks_cursor A _ _ _ input relink (t, 0) m file1 cur
    (first, f.offsetInToast) 0 hA1 hcurAt (by rw [hcur, hta1]) (by rw [hpath1]; exact hin)
    (by rw [hpath1]; exact hnodup) (fun cur' => hrel cur' _)
    (by rw [hafter1, hafter0, hlast]; exact hlastNe)
  refine ⟨(hw1.mono ?_).comp (hw2.mono ?_), ?_⟩
  · rintro j d ⟨rfl, -⟩
    exact hfo
  · rintro j d ⟨x, hx, rfl, -⟩
    rw [hpath1] at hx
    exact (hin x hx).mem
  · rw [ht2, hafter1, hafter0, hlast, (ha.toastAt_header hw1 hlastOwn hout).2]
    exact (htoast last hlastOwn).2.2

/-- **The rest of the text goes to the block of the root**, when the toast the loop ends at is the
last one of its list. -/
theorem fillAcrossToasts_again {file0 file1 : ZgdbFile A}
    {relink : Cursor A → TextChunk → TextChunk}
    {cur : Cursor A} {chunks t : Nat} (req lastLen : Nat)
    (hf1 : file1 = fwriteAt toastK file0 (blockPos file0 first) 0
      { toastAt file0 first with nextToastIndex := t })
    (hcur : cur = { openToast file0 first f.offsetInToast with
      toast := { toastAt file0 first with nextToastIndex := t } })
    (hrelink : relink = fun cur' chunk =>
      if chunksLeft (openToast file0 first f.offsetInToast).toast = 0 then
        { chunk with nextOffset := 0, toastIndex := t }
      else { chunk with nextOffset := cur'.toast.used * chunkRecord })
    (hfull : chunksLeft (openToast file0 first f.offsetInToast).toast = 0)
    (hnext : (relinkChunks file1 input 0 relink false chunks cur).2.toast.nextToastIndex = 0) :
    ∃ file3 : ZgdbFile A,
      blockPos file3 0 = blockPos (relinkChunks file1 input 0 relink false chunks cur).1 0 ∧
      fillAcrossToasts file0 input chunks req lastLen t (openToast file0 first f.offsetInToast)
        = fwriteAt toastK file3 (blockPos file3 0) 0
          { toastAt (relinkChunks file1 input 0 relink false chunks cur).1 0 with
            used := (toastAt (relinkChunks file1 input 0 relink false chunks cur).1 0).used
              + req } := by
  obtain ⟨file2, cur2, hr⟩ : ∃ file2 cur2,
      relinkChunks file1 input 0 relink false chunks cur = (file2, cur2) := ⟨_, _, rfl⟩
  rw [hr] at hnext ⊢
  have hsteps := @fillAcrossToasts_eq A _ input lastLen req file0 file2 file2 chunks t
    (openToast file0 first f.offsetInToast) cur2 (by rw [← hr, hf1, hcur, hrelink]; rfl)
    (by rw [if_neg (not_not.mpr hfull)])
  rw [hsteps, hnext, hfull]
  have hpos := blockPos_writeChunks (blockPos file2 0) (toastAt file2 0).indexAttached input lastLen
    (toastAt file2 0).indexAttached 0 (req - 0) file2 (toastAt file2 0).used
    (chunkSize * (chunks + 0))
  exact ⟨_, hpos, by rw [hpos]; rfl⟩

/-- A toast header that goes to the block of a document counts up a byte of its capacity. -/
theorem cellByte_again {file2 : ZgdbFile A} {root : Nat} (file3 : ZgdbFile A) (req : Nat)
    (hdoc : IsDocument file2 root) :
    cellByte (blockAt (fwriteAt toastK file3 (blockPos file3 root) 0
        { toastAt file2 root with used := (toastAt file2 root).used + req }) root 8)
      = cellByte (blockAt file2 root 8) + UInt8.ofNat req := by
  rw [blockAt_fwriteAt]
  have hstore : store toastK (blockAt file3 root) 0
      { toastAt file2 root with used := (toastAt file2 root).used + req } 8
        = ⟨.toast { toastAt file2 root with used := (toastAt file2 root).used + req }, 8⟩ := rfl
  rw [hstore, cellByte_toast, ← toastAt_used_mod hdoc]
  exact UInt8.ofNat_add _ _

/-- The root keeps its header while the toasts of a document are written. -/
theorem ToastAdded.root_header {file0 file2 : ZgdbFile A} {t size : Nat}
    (h : ToastAdded file file0 T es own t size) (hs : Store file T es own) (hk : k ∈ T.nodes)
    (hw : Writes h.store.blocks.layout (fun j _ => j ∈ own k) file0 file2) :
    (∀ d < documentHeaderK.size, blockAt file2 0 d = blockAt file 0 d) ∧
      Zgdb.blockPos file2 0 = Zgdb.blockPos file 0 := by
  have h0T := hs.root_mem
  have h0own : 0 ∉ own k := fun h => hs.toast_notMem hk h h0T
  have hused : Used file 0 := Or.inl (hs.alive h0T)
  have h0t : 0 ≠ t := fun he => h.fresh (he ▸ hs.alive h0T)
  refine ⟨?_, (hw.blockPos_eq 0).trans (h.blockPos 0 h0t)⟩
  intro d hd
  have h1 := h.agrees 0 hused h0t
  have hcap : blockCapacity file0 0 = blockCapacity file 0 :=
    (Kept.of_agrees (hs.blocks.block 0 hused) h1).2
  have hd' : d < blockCapacity file 0 := Nat.lt_of_lt_of_le hd (hs.isDocument h0T).header_le
  have hlen0 : d < h.store.blocks.layout.len 0 := by
    show d < blockCapacity file0 0
    rwa [hcap]
  rw [← h1 d hd']
  exact hw.blockAt_eq ⟨h.used 0 hused, rfl⟩ hlen0 h0own

/-- **A text whose chain ends in a later toast, grown across toasts**, changes the block of the
root. -/
theorem updateText_again (hs : Store file T es own) (hk : k ∈ T.nodes) (p : Nat)
    (hes : es k = pre ++ ⟨name, .text f⟩ :: post) (hmod : f.size % chunkSize ≠ 0)
    (hfirst : (getDocumentHeader file k).firstToastIndex = first)
    (hcross : Crosses file first f (input.strlen + 1)) (hfull : chunksLeft (toastAt file first) = 0)
    (hlast : (Chain.after (chunkHeap file) (chunkCount f.size - 1) (first, f.offsetInToast)).1
      = last)
    (hout : last ≠ first) (hnext : (toastAt file last).nextToastIndex = 0)
    (hr : ∃ r, findRelevantIndex file.freeList (crossRequest file first f (input.strlen + 1))
      = some r)
    (hspill : NoSpill file (crossRequest file first f (input.strlen + 1))) :
    ∃ file', updateText file (blockPos file k) (documentAt file k p)
        (sizeofDocumentHeader + storedSize pre) input = some file' ∧
      cellByte (blockAt file' 0 8) = cellByte (blockAt file 0 8)
        + UInt8.ofNat (chunkCount (bumped (input.strlen + 1)) - chunkCount f.size) := by
  have htexts := (hs.doc k hk).texts
  rw [hes, textsOf_append_cons, textsOf_text, hfirst] at htexts
  have hfo : first ∈ own k := htexts.first_of_mem (List.mem_append_right _ List.mem_cons_self)
  -- the new toast
  have hheader : sizeofToast ≤ crossRequest file first f (input.strlen + 1) := by
    rw [crossRequest_eq hmod]
    exact (htexts.toast first hfo).le_capacity.trans (Nat.le_add_left _ _)
  obtain ⟨t, file0, hc, h0⟩ := hs.newToast hheader hspill hr
  have hhead : (documentAt file k p).header.firstToastIndex = first := hfirst
  have hrun := updateText_newToast (hs.holds_text hk hes) hhead hmod hcross hc
  rw [h0.openToast_own hk htexts hfo] at hrun
  have hfull0 : chunksLeft (openToast file0 first f.offsetInToast).toast = 0 := by
    show chunksLeft (toastAt file0 first) = 0
    rw [(h0.toast_own hk htexts first hfo).2.2]
    exact hfull
  -- the loop ends at the last toast
  obtain ⟨hw, hend⟩ := h0.relinkChunks_again hk htexts hlast hout rfl rfl
    (fun _ _ => if_pos hfull0) input
  obtain ⟨file3, hpos3, hfill⟩ := fillAcrossToasts_again
    (chunkCount (bumped (input.strlen + 1)) - chunkCount f.size) ((input.strlen + 1) % chunkSize)
    rfl rfl rfl hfull0 (by rw [hend]; exact hnext)
  obtain ⟨hroot, hpos⟩ := h0.root_header hs hk hw
  have hbyte := cellByte_again file3 (chunkCount (bumped (input.strlen + 1)) - chunkCount f.size)
    ((hs.isDocument hs.root_mem).of_eqOn hroot).1
  rw [← hfill, hroot 8 (by decide)] at hbyte
  have hpos4 : blockPos (fillAcrossToasts file0 input (chunkCount f.size)
      (chunkCount (bumped (input.strlen + 1)) - chunkCount f.size)
        ((input.strlen + 1) % chunkSize) t
      (openToast file0 first f.offsetInToast)) 0 = blockPos file 0 := by
    rw [hfill]
    exact hpos3.trans hpos
  generalize fillAcrossToasts file0 input (chunkCount f.size)
    (chunkCount (bumped (input.strlen + 1)) - chunkCount f.size) ((input.strlen + 1) % chunkSize) t
    (openToast file0 first f.offsetInToast) = file4 at hrun hbyte hpos4
  refine ⟨_, hrun, ?_⟩
  -- the size of the text is written to its document
  have h0T := hs.root_mem
  have hk0 : 0 ≠ k := by
    rintro rfl
    rw [hs.own_root] at hfo
    cases hfo
  have hlen : 8 < hs.blocks.layout.len 0 :=
    Nat.lt_of_lt_of_le (by decide) (hs.isDocument h0T).header_le
  have hw5 : Writes hs.blocks.layout (Layout.span k (valueAt pre)
      (valueAt pre + firstTextChunkK.size)) file4
      (fwriteAt firstTextChunkK file4 (blockPos file k) (valueAt pre)
        { f with size := bumped (input.strlen + 1) }) :=
    writes_fwriteAt (Or.inl (hs.alive hk)) ((Nat.le_add_right _ _).trans (hs.value_le hk hes))
  have hkept := hw5.blockAt_eq ⟨Or.inl (hs.alive h0T), hpos4.symm⟩ hlen fun hd => hk0 hd.1
  exact (congrArg cellByte hkept).trans hbyte

end Again

end Zgdb
