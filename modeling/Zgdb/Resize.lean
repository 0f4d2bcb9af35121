/-
# `updateElement` on a text

A text keeps its size, shrinks, or grows: within its last chunk, into the rest of the first toast,
or across to a new toast.  Every case but the last rewrites toasts of the document only
(`Rewritten`); the last allocates before it does so.

Two of the cases are right under a condition.  A text that grows must not have a stored size that
is a multiple of `CHUNK_SIZE`, because `updateElement` takes its chain to be one chunk longer than
`writeElement` made it.  And a text that grows across toasts must lie in the first toast as a
whole, the new toast must get an index, and its zero bytes must not spill into another block
(`CrossSafe`).
-/
import Zgdb.Edit

namespace Zgdb

open Zgdb.Lib AddrSpace

variable {A : Type} [BlockSpace A]

/-! ## 1. Sizes

A size that is a multiple of `CHUNK_SIZE` is raised by one, so that the reader takes all characters
of the last chunk.  The code does it by hand in each branch; here the raised size is `bumped`, and
the numbers of chunks follow from it. -/

theorem bumped_mod (n : Nat) : bumped n % chunkSize ≠ 0 := by
  unfold bumped
  split <;> simp only [chunkSize] at * <;> omega

theorem le_bumped (n : Nat) : n ≤ bumped n := by
  unfold bumped
  split <;> omega

theorem bumped_le {m n : Nat} (h : m < n) : bumped m ≤ n := by
  unfold bumped
  split <;> omega

theorem chunkCount_eq (n : Nat) : chunkCount n = (n + 31) / 32 := by
  by_cases h : n % chunkSize = 0
  · rw [chunkCount_of_mul h]
    simp only [chunkSize] at *
    omega
  · rw [chunkCount_of_rem h]
    simp only [chunkSize] at *
    omega

theorem chunkCount_mono {m n : Nat} (h : m ≤ n) : chunkCount m ≤ chunkCount n := by
  have h1 : chunkCount m = (m + 31) / 32 := chunkCount_eq m
  have h2 : chunkCount n = (n + 31) / 32 := chunkCount_eq n
  omega

/-- The raised length has the raised number of chunks. -/
theorem chunkCount_bumped (n : Nat) :
    (if n % chunkSize = 0 then chunkCount n + 1 else chunkCount n) = chunkCount (bumped n) := by
  unfold bumped
  split
  · rename_i h
    have h' : (n + 1) % chunkSize ≠ 0 := by
      simp only [chunkSize] at *
      omega
    rw [chunkCount_of_mul h, chunkCount_of_rem h']
    simp only [chunkSize] at *
    omega
  · rfl

/-- The lengths and chunk counts of a growth, when the stored size is none that is raised. -/
theorem growth_eq {size : Nat} (h : size % chunkSize ≠ 0) (n : Nat) :
    growth size n = ⟨bumped n, chunkCount size, chunkCount (bumped n), n % chunkSize⟩ := by
  simp only [growth, if_neg h, chunkCount_bumped]

/-- `left < req`: the branch of `updateElement` that makes a new toast.  The text grows, it needs
more chunks than it has, and more of them than the first toast has slots left. -/
def Crosses (file : ZgdbFile A) (first : Nat) (f : FirstTextChunk) (n : Nat) : Prop :=
  f.size < n ∧ (growth f.size n).chunks < (growth f.size n).chunksNew ∧
    chunksLeft (toastAt file first) < (growth f.size n).chunksNew - (growth f.size n).chunks

instance (file : ZgdbFile A) (first : Nat) (f : FirstTextChunk) (n : Nat) :
    Decidable (Crosses file first f n) := inferInstanceAs (Decidable (_ ∧ _))

/-- The size `createNewToast` is asked for. -/
def crossRequest (file : ZgdbFile A) (first : Nat) (f : FirstTextChunk) (n : Nat) : Nat :=
  ((growth f.size n).chunksNew - (growth f.size n).chunks) * chunkRecord
    + (toastAt file first).capacity

/-- What a growth across toasts relies on.  The chain lies in the first toast, as the code counts
the room there and then fills the toast in which the chain ends; the new toast gets an index, since
the NULL that `findRelevantIndex` returns otherwise is not looked at; and its zero bytes do not run
into another block. -/
structure CrossSafe (file : ZgdbFile A) (first : Nat) (f : FirstTextChunk) (n : Nat) : Prop where
  onFirst : ∀ x ∈ textPath file first f, x.1 = first
  index : ∃ r, findRelevantIndex file.freeList (crossRequest file first f n) = some r
  noSpill : NoSpill file (crossRequest file first f n)

/-! ## 2. The chunks rewritten

What the branches have in common: only toasts of the document change, the text reads as the input,
and the other texts read as they did. -/

/-- The chunks of a text spell `input` now, and those of the other texts what they did. -/
structure Rewritten (L : Layout A) (file file' : ZgdbFile A) (own : List Nat) (first : Nat)
    (pre : List FirstTextChunk) (f : FirstTextChunk) (post : List FirstTextChunk)
    (input : CString) : Prop where
  writes : Writes L (fun j _ => j ∈ own) file file'
  capacity : ∀ t ∈ own, (toastAt file' t).capacity = (toastAt file t).capacity
  texts : Texts file' own first (pre ++ f :: post)
  reads : ∀ g ∈ pre ++ post, TextKept file file' first g
  spells : Spells input ((input.strlen + 1) % chunkSize) (chunkCount f.size) 0
    (Chain.read (chunkHeap file') (chunkCount f.size) (first, f.offsetInToast))

section Rewritten

variable {L : Layout A} {file file' : ZgdbFile A} {own : List Nat} {first : Nat}
  {pre post : List FirstTextChunk} {f f' : FirstTextChunk} {input : CString}

/-- **The chain is long enough.** -/
theorem Texts.rewritten (h : Texts file own first (pre ++ f :: post)) (ha : Area L file own)
    (hlen : ∀ t ∈ own, (toastAt file t).capacity ≤ L.len t)
    (hle : chunkCount f'.size ≤ chunkCount f.size) (hpos : 0 < f'.size)
    (hoff : f'.offsetInToast = f.offsetInToast)
    (hf : file' = rewriteChunks file input 0 ((input.strlen + 1) % chunkSize) (chunkCount f'.size)
      (openToast file first f.offsetInToast)) :
    Rewritten L file file' own first pre f' post input ∧
      ∀ t ∈ own, (toastAt file' t).nextToastIndex = (toastAt file t).nextToastIndex := by
  have hfm : f ∈ pre ++ f :: post := List.mem_append_right _ List.mem_cons_self
  obtain ⟨hw, htexts, hreads, hspells, hto⟩ := h.rewrite ha hlen hle hpos hoff hf
  refine ⟨⟨hw.mono ?_, fun t ht => by rw [hto t ht], htexts, hreads, hspells⟩,
    fun t ht => by rw [hto t ht]⟩
  rintro k d ⟨x, hx, hd⟩
  have hkx : k = x.1 := hd.1
  rw [hkx]
  exact (h.inUse f hfm x hx).mem

/-- **The first toast has room.** -/
theorem Texts.grownInToast (h : Texts file own first (pre ++ f :: post)) (ha : Area L file own)
    (hlen : ∀ t ∈ own, (toastAt file t).capacity ≤ L.len t)
    (hlt : chunkCount f.size < chunkCount f'.size)
    (hleft : chunkCount f'.size - chunkCount f.size ≤ chunksLeft (toastAt file first))
    (hoff : f'.offsetInToast = f.offsetInToast)
    (hf : file' = Zgdb.growInToast file input (chunkCount f.size)
      (chunkCount f'.size - chunkCount f.size) ((input.strlen + 1) % chunkSize)
      (openToast file first f.offsetInToast)) :
    Rewritten L file file' own first pre f' post input ∧
      ∀ t ∈ own, (toastAt file' t).nextToastIndex = (toastAt file t).nextToastIndex := by
  have hfm : f ∈ pre ++ f :: post := List.mem_append_right _ List.mem_cons_self
  have hfirst := h.first_of_mem hfm
  have hone := (h.room (by omega)).1
  obtain ⟨hw, htexts, hreads, hspells, hto⟩ :=
    h.growInToast ha hlen (by omega) hleft (by omega) hoff hf
  refine ⟨⟨hw.mono ?_, ?_, htexts, hreads, hspells⟩, ?_⟩
  · rintro k d hkd
    have hk : k = first := hkd
    exact hk ▸ hfirst
  · intro t ht
    rw [hone t ht, hto]
  · intro t ht
    rw [hone t ht, hto]

/-- A text grown across toasts is rewritten. -/
theorem GrownAcross.rewritten {t : Nat} (hfirst : first ∈ own)
    (h : GrownAcross L file file' own first t pre f f' post input
      ((input.strlen + 1) % chunkSize)) :
    Rewritten L file file' (t :: own) first pre f' post input := by
  refine ⟨h.writes.mono ?_, h.capacity, h.texts, h.reads, h.spells⟩
  rintro k d (rfl | rfl)
  · exact List.mem_cons_of_mem _ hfirst
  · exact List.mem_cons_self

end Rewritten

/-! ## 3. A text set

When the chunks are done the code writes the size and the place of the first chunk to the document
block.  So the rule is that of `Store.setValue`, with the chunks as the first part of the writes. -/

section Text

variable {file file0 file1 file' : ZgdbFile A} {T : Forest Nat} {es : Nat → List StoredElement}
  {own : Nat → List Nat} {k : Nat} {pre post : List StoredElement} {name : Name}
  {f f' : FirstTextChunk} {input : CString} {own' : List Nat}

/-- The toasts of a document as an area. -/
theorem Store.area (hs : Store file T es own) {own' : List Nat}
    (hown : ∀ t ∈ own', Alive file t ∧ IsToast file t) :
    Area hs.blocks.layout file own' ∧
      ∀ t ∈ own', (toastAt file t).capacity ≤ hs.blocks.layout.len t := by
  refine ⟨⟨fun t ht => ⟨Or.inl (hown t ht).1, rfl⟩, fun t ht => (hown t ht).2,
    fun t ht => (hown t ht).2.header_le⟩, ?_⟩
  intro t ht
  show _ ≤ blockCapacity file t
  rw [(hown t ht).2.capacity]

/-- **A text set**: its chunks rewritten, then its `firstTextChunk`. -/
theorem Store.setText (hs : Store file T es own) (hk : k ∈ T.nodes)
    (hes : es k = pre ++ ⟨name, .text f⟩ :: post)
    (hown : ∀ t ∈ own', Alive file t ∧ IsToast file t ∧ ∀ j ∈ T.nodes, j ≠ k → t ∉ own j)
    (hr : Rewritten hs.blocks.layout file file1 own' (getDocumentHeader file k).firstToastIndex
      (textsOf pre) f' (textsOf post) input)
    (hlist : ∃ ts, ToastList file1 (getDocumentHeader file k).firstToastIndex ts ∧ ts.Nodup ∧
      ∀ t ∈ ts, t ∈ own')
    (hf : file' = fwriteAt firstTextChunkK file1 (blockPos file k) (valueAt pre) f') :
    Edited file file' T es own k pre name (.text f') post own' ∧
      (f'.size = bumped (input.strlen + 1) →
        readText file' (getDocumentHeader file k).firstToastIndex f' = ⟨f'.size, input⟩) ∧
      textPath file' (getDocumentHeader file k).firstToastIndex f'
        = textPath file1 (getDocumentHeader file k).firstToastIndex f' ∧
      ∀ t ∈ own', toastAt file' t = toastAt file1 t := by
  have hfm : f' ∈ textsOf pre ++ f' :: textsOf post := List.mem_append_right _ List.mem_cons_self
  have hend : valueAt pre + firstTextChunkK.size ≤ hs.blocks.layout.len k :=
    (Nat.le_add_right _ _).trans (hs.value_le hk hes)
  have hw : Writes hs.blocks.layout (Layout.span k (valueAt pre)
      (valueAt pre + (StoredValue.text f).type.valueSize)) file1 file' := by
    rw [hf]
    exact writes_fwriteAt (Or.inl (hs.alive hk)) hend
  have hnew : HoldsValue (blockAt file' k) (valueAt pre) (.text f') := by
    rw [hf, ← hr.writes.blockPos_eq k, blockAt_fwriteAt]
    exact holds_store
  have htexts : Texts file1 own' (getDocumentHeader file k).firstToastIndex
      (textsOf (pre ++ ⟨name, .text f'⟩ :: post)) := by
    rw [textsOf_append_cons, textsOf_text]
    exact hr.texts
  have htype : (StoredValue.text f').type = (StoredValue.text f).type := rfl
  obtain ⟨hedit, hreads, hto⟩ :=
    hs.setValue hk hes htype hown hr.writes hr.capacity htexts hr.reads hlist hw hnew
  have hf' := hreads f' (by rw [textsOf_append_cons, textsOf_text]; exact hfm)
  refine ⟨hedit, ?_, hf'.path, hto⟩
  intro hsize
  rw [hf'.reads]
  exact readText_spelled (hr.texts.named (hr.texts.first_of_mem hfm))
    (fun x hx => hr.texts.named (hr.texts.inUse f' hfm x hx).mem) hsize hr.spells

end Text

/-! ## 4. The cases of `updateText`

A text of the same size, a shorter one, one that grows in its last chunk and one that grows into the
rest of the first toast write to the toasts of the document only.  A growth across toasts allocates
in addition, and then has an empty toast to fill (`ToastAdded`). -/

/-- What an update makes of a text: `f'` takes its place, and reads as the input unless its size is
a multiple of `CHUNK_SIZE`.  Such a size is raised by one when a text is shortened or lengthened to
it, so that the reader takes the whole of the last chunk, but not when a text of that size is
replaced. -/
structure TextUpdated (file file' : ZgdbFile A) (T : Forest Nat) (es : Nat → List StoredElement)
    (own : Nat → List Nat) (k : Nat) (pre : List StoredElement) (name : Name)
    (f : FirstTextChunk) (post : List StoredElement) (input : CString) (f' : FirstTextChunk)
    (own' : List Nat) : Prop where
  edited : Edited file file' T es own k pre name (.text f') post own'
  offset : f'.offsetInToast = f.offsetInToast
  size : f'.size = if input.strlen + 1 = f.size then f.size else bumped (input.strlen + 1)
  reads : f'.size % chunkSize ≠ 0 →
    readText file' (getDocumentHeader file k).firstToastIndex f' = ⟨f'.size, input⟩

section Cases

variable {file file' : ZgdbFile A} {T : Forest Nat} {es : Nat → List StoredElement}
  {own : Nat → List Nat} {k : Nat} {pre post : List StoredElement} {name : Name}
  {f : FirstTextChunk} {input : CString}

/-- The `firstTextChunk` that `updateElement` reads. -/
theorem Store.holds_text (hs : Store file T es own) (hk : k ∈ T.nodes)
    (hes : es k = pre ++ ⟨name, .text f⟩ :: post) :
    Holds firstTextChunkK (blockAt file k) (valueAt pre) f := by
  have hD := (hs.doc k hk).holds
  rw [hes] at hD
  exact (holdsElements_append.mp hD).2.1.value

/-- A text that was rewritten within the toasts of its document is set. -/
theorem Store.setWithin {file1 : ZgdbFile A} {f' : FirstTextChunk} (hs : Store file T es own)
    (hk : k ∈ T.nodes) (hes : es k = pre ++ ⟨name, .text f⟩ :: post)
    (hoff : f'.offsetInToast = f.offsetInToast)
    (hsize : f'.size = if input.strlen + 1 = f.size then f.size else bumped (input.strlen + 1))
    (hr : Rewritten hs.blocks.layout file file1 (own k) (getDocumentHeader file k).firstToastIndex
      (textsOf pre) f' (textsOf post) input)
    (hnext : ∀ t ∈ own k, (toastAt file1 t).nextToastIndex = (toastAt file t).nextToastIndex)
    (hf : file' = fwriteAt firstTextChunkK file1 (blockPos file k) (valueAt pre) f') :
    TextUpdated file file' T es own k pre name f post input f' (own k) ∧
      ∀ t ∈ own k, (toastAt file' t).nextToastIndex = (toastAt file t).nextToastIndex := by
  have hD := hs.doc k hk
  obtain ⟨ts, hts, hn, hsub⟩ := hD.list
  obtain ⟨hedit, hreads, -, hto⟩ := hs.setText hk hes
    (fun t ht => ⟨hD.texts.alive t ht, hD.texts.toast t ht, fun j hj hjk hto =>
      hs.apart j hj k hk hjk t hto ht⟩) hr
    ⟨ts, hts.congr_next fun t ht => hnext t (hsub t ht), hn, hsub⟩ hf
  refine ⟨⟨hedit, hoff, hsize, fun hmod => hreads ?_⟩, fun t ht => by rw [hto t ht, hnext t ht]⟩
  rw [hsize] at hmod ⊢
  by_cases he : input.strlen + 1 = f.size
  · rw [if_pos he] at hmod ⊢
    rw [bumped, if_neg (he ▸ hmod), he]
  · rw [if_neg he]

/-- What the branch `left < req` adds: the new toast follows the first one, and the chain ends in
it.  A toast that followed the first one before is on no list any more. -/
structure Crossed (file file' : ZgdbFile A) (own : List Nat) (first t : Nat)
    (f' : FirstTextChunk) : Prop where
  fresh : ¬ Alive file t
  next : (toastAt file' first).nextToastIndex = t
  last : (toastAt file' t).nextToastIndex = 0
  kept : ∀ x ∈ own, x ≠ first →
    (toastAt file' x).nextToastIndex = (toastAt file x).nextToastIndex
  tail : ∃ path n, 0 < n ∧
    textPath file' first f' = path ++ (List.range n).map fun i => (t, (0 + i) * chunkRecord)
  agrees : ∀ x ∈ own, x ≠ first → Agrees file file' x (blockCapacity file x)
  newIndexes : file.freeList.newIndexesCount ≤ file'.freeList.newIndexesCount + 1

/-- **An update that makes no new toast** rewrites the chunks of the text, and then its
`firstTextChunk`: everything but a growth across toasts, and but a growth of a text whose size is
a multiple of `CHUNK_SIZE`. -/
theorem updateText_rewrites {L : Layout A} {own : List Nat} {first d : Nat} {doc : Document}
    {fs gs : List FirstTextChunk} (htexts : Texts file own first (fs ++ f :: gs))
    (ha : Area L file own) (hlen : ∀ t ∈ own, (toastAt file t).capacity ≤ L.len t)
    (hk : Shows L file k) (hko : k ∉ own)
    (hf : Holds firstTextChunkK (blockAt file k) (d + elementHead) f)
    (hd : d + elementHead + firstTextChunkK.size ≤ L.len k)
    (hfirst : doc.header.firstToastIndex = first)
    (hgrow : f.size < input.strlen + 1 → f.size % chunkSize ≠ 0)
    (hcross : ¬ Crosses file first f (input.strlen + 1)) :
    ∃ file1 f', updateText file (blockPos file k) doc d input
        = some (fwriteAt firstTextChunkK file1 (blockPos file k) (d + elementHead) f') ∧
      f'.offsetInToast = f.offsetInToast ∧
      f'.size = (if input.strlen + 1 = f.size then f.size else bumped (input.strlen + 1)) ∧
      Rewritten L file file1 own first fs f' gs input ∧
      ∀ t ∈ own, (toastAt file1 t).nextToastIndex = (toastAt file t).nextToastIndex := by
  have hfm : f ∈ fs ++ f :: gs := List.mem_append_right _ List.mem_cons_self
  have hfirstChunk : freadAt firstTextChunkK file (blockPos file k) (d + elementHead) = f := by
    rw [freadAt_eq]
    exact load_of_holds hf
  simp only [updateText, hfirstChunk]
  by_cases heq : input.strlen + 1 = f.size
  · -- the size stays
    rw [if_pos heq, if_pos heq]
    obtain ⟨file', hfile⟩ : ∃ file', file' = updateEqual file doc f input := ⟨_, rfl⟩
    rw [← hfile]
    rw [updateEqual, hfirst, heq, ← heq] at hfile
    have hr := htexts.rewritten ha hlen (Nat.le_refl _) (htexts.size_pos f hfm) rfl
      (hfile.trans (by rw [heq]))
    refine ⟨file', f, ?_, rfl, rfl, hr.1, hr.2⟩
    rw [← hr.1.writes.blockPos_eq k, fwriteAt_same]
    -- the block of the document is as it was
    refine hf.congr fun i hi => hr.1.writes.blockAt_eq hk ?_ hko
    have hi' : i < firstTextChunkK.size := hi
    rw [add_nat]
    omega
  · -- another size
    rw [if_neg heq, if_neg heq]
    obtain ⟨f', hf'⟩ : ∃ f' : FirstTextChunk, f' = { f with size := bumped (input.strlen + 1) } :=
      ⟨_, rfl⟩
    have hoff : f'.offsetInToast = f.offsetInToast := by rw [hf']
    have hbump : f'.size = bumped (input.strlen + 1) := by rw [hf']
    have hpos : 0 < f'.size := by
      rw [hbump]
      exact Nat.lt_of_lt_of_le (Nat.succ_pos _) (le_bumped _)
    by_cases hlt : input.strlen + 1 < f.size
    · -- it shrinks
      rw [if_pos hlt]
      have hle : chunkCount f'.size ≤ chunkCount f.size := by
        rw [hbump]
        exact chunkCount_mono (bumped_le hlt)
      obtain ⟨hr, hnext⟩ : Rewritten L file _ own first fs f' gs input ∧ _ :=
        htexts.rewritten ha hlen hle hpos hoff rfl
      refine ⟨_, f', ?_, hoff, hbump, hr, hnext⟩
      rw [hf', updateShorter, hfirst, writeSize, chunkCount_bumped]
    · -- it grows
      rw [if_neg hlt]
      have hmod := hgrow (by omega)
      have hg := growth_eq hmod (input.strlen + 1)
      simp only [Crosses, hg, ← hbump, not_and, not_lt] at hcross
      simp only [updateLonger, hfirst, hg, ← hbump]
      by_cases hle : chunkCount f'.size ≤ chunkCount f.size
      · rw [if_pos hle]
        obtain ⟨hr, hnext⟩ : Rewritten L file _ own first fs f' gs input ∧ _ :=
          htexts.rewritten ha hlen hle hpos hoff rfl
        refine ⟨_, f', ?_, hoff, rfl, hr, hnext⟩
        rw [hf']
        rfl
      · rw [if_neg hle]
        have hleft := hcross (by omega) (by omega)
        have hcond : chunksLeft (openToast file first f.offsetInToast).toast
            ≥ chunkCount f'.size - chunkCount f.size := hleft
        rw [if_pos hcond]
        obtain ⟨hr, hnext⟩ : Rewritten L file _ own first fs f' gs input ∧ _ :=
          htexts.grownInToast ha hlen (by omega) hleft hoff rfl
        refine ⟨_, f', ?_, hoff, rfl, hr, hnext⟩
        rw [hf']
        rfl

/-- **A text updated within the toasts of its document.** -/
theorem updateText_within (hs : Store file T es own) (hk : k ∈ T.nodes) (p : Nat)
    (hes : es k = pre ++ ⟨name, .text f⟩ :: post)
    (hgrow : f.size < input.strlen + 1 → f.size % chunkSize ≠ 0)
    (hcross : ¬ Crosses file (getDocumentHeader file k).firstToastIndex f (input.strlen + 1)) :
    ∃ file' f', updateText file (blockPos file k) (documentAt file k p)
        (sizeofDocumentHeader + storedSize pre) input = some file' ∧
      TextUpdated file file' T es own k pre name f post input f' (own k) ∧
      ∀ t ∈ own k, (toastAt file' t).nextToastIndex = (toastAt file t).nextToastIndex := by
  have hD := hs.doc k hk
  have htexts := hD.texts
  rw [hes, textsOf_append_cons, textsOf_text] at htexts
  obtain ⟨ha, hlen⟩ := hs.area fun t ht => ⟨hD.texts.alive t ht, hD.texts.toast t ht⟩
  have hko : k ∉ own k := fun h => (hs.isDocument hk).not_isToast (hD.texts.toast k h)
  have hfirst : (documentAt file k p).header.firstToastIndex
      = (getDocumentHeader file k).firstToastIndex := rfl
  obtain ⟨file1, f', hrun, hoff, hsize, hr, hnext⟩ := updateText_rewrites htexts ha hlen
    ⟨Or.inl (hs.alive hk), rfl⟩ hko (hs.holds_text hk hes)
    ((Nat.le_add_right _ _).trans (hs.value_le hk hes)) hfirst hgrow hcross
  exact ⟨_, f', hrun, hs.setWithin hk hes hoff hsize hr hnext rfl⟩

/-- What `createNewToast` leaves: an empty toast `t`, and everything else as it was. -/
structure ToastAdded (file file' : ZgdbFile A) (T : Forest Nat) (es : Nat → List StoredElement)
    (own : Nat → List Nat) (t size : Nat) : Prop where
  store : Store file' T es own
  carried : Carried T own file file'
  headers : ∀ j ∈ T.nodes, getDocumentHeader file' j = getDocumentHeader file j
  used : ∀ j, Used file j → Used file' j
  alive : ∀ j, Alive file' j ↔ j = t ∨ Alive file j
  blockPos : ∀ j, j ≠ t → blockPos file' j = blockPos file j
  agrees : ∀ j, Used file j → j ≠ t → Agrees file file' j (blockCapacity file j)
  fresh : ¬ Alive file t
  toast : IsToast file' t
  empty : (toastAt file' t).used = 0
  last : (toastAt file' t).nextToastIndex = 0
  room : size ≤ (toastAt file' t).capacity
  newIndexes : file.freeList.newIndexesCount ≤ file'.freeList.newIndexesCount + 1

/-- **`createNewToast` adds an empty toast.** -/
theorem Store.newToast (hs : Store file T es own) {size : Nat} (hsize : sizeofToast ≤ size)
    (hspill : NoSpill file size) (hr : ∃ r, findRelevantIndex file.freeList size = some r) :
    ∃ t file', createNewToast file size = some (t, file')
      ∧ ToastAdded file file' T es own t size := by
  obtain ⟨⟨n, list⟩, hr⟩ := hr
  obtain ⟨file', hc⟩ : ∃ file', createNewToast file size = some (n.indexOrder, file') := by
    rw [createNewToast, allocToast, hr]
    exact ⟨_, rfl⟩
  obtain ⟨m, ht, hal, hagrees, hto, hta, hb⟩ := allocToast_spec hs.blocks hsize hsize hspill hc
  have hm := hal.mem
  have hat := hal.attached
  have hbs := hal.large
  have hnodes := hal.nodes
  have hlt := (hs.blocks.placed.node m hm).1
  have hfresh : ¬ Alive file n.indexOrder := ht ▸ hs.blocks.placed.not_alive hm
  obtain ⟨hs', hcarried, hhdr⟩ := hs.of_agrees hb (fun j hj => (hat.alive_iff hlt).mpr (Or.inr hj))
    (fun j hj => hagrees j (Or.inl hj) fun he => hfresh (he ▸ hj)) hnodes
  refine ⟨n.indexOrder, file', hc, hs', hcarried, hhdr,
    fun j hj => (hat.used_iff hlt).mpr (Or.inr hj),
    fun j => by rw [hat.alive_iff hlt, ht], fun j hj => hat.blockPos_other (ht ▸ hj),
      hagrees, hfresh,
    hto, by rw [hta]; rfl, by rw [hta]; rfl, ?_,
    newIndexesCount_le hs.blocks.placed.sound hat.sound hat.perm⟩
  rw [hta]
  show size ≤ chosenCapacity m size
  unfold chosenCapacity
  split <;> omega

/-! ### A document whose text grows across toasts -/

section Added

variable {file0 : ZgdbFile A} {fs : List FirstTextChunk} {first t size : Nat}

theorem ToastAdded.agrees_own (h : ToastAdded file file0 T es own t size) (hk : k ∈ T.nodes) :
    ∀ x ∈ own k, Agrees file file0 x (toastAt file x).capacity :=
  fun x hx => ((h.carried k hk).2 x hx).2

theorem ToastAdded.toast_own (h : ToastAdded file file0 T es own t size) (hk : k ∈ T.nodes)
    (htexts : Texts file (own k) first fs) :
    ∀ x ∈ own k, Alive file0 x ∧ IsToast file0 x ∧ toastAt file0 x = toastAt file x := by
  intro x hx
  exact ⟨((h.carried k hk).2 x hx).1, htexts.toast_frame (h.agrees_own hk) hx⟩

theorem ToastAdded.notMem_own (h : ToastAdded file file0 T es own t size)
    (htexts : Texts file (own k) first fs) : t ∉ own k :=
  fun ht => h.fresh (htexts.alive t ht)

theorem ToastAdded.texts_own (h : ToastAdded file file0 T es own t size) (hk : k ∈ T.nodes)
    (htexts : Texts file (own k) first fs) : Texts file0 (own k) first fs :=
  (htexts.frame (fun x hx => ((h.carried k hk).2 x hx).1) (h.agrees_own hk)).1

/-- The first toast is opened where it was. -/
theorem ToastAdded.openToast_own (h : ToastAdded file file0 T es own t size) (hk : k ∈ T.nodes)
    (htexts : Texts file (own k) first fs) (hfirst : first ∈ own k) (offset : Nat) :
    openToast file first offset = openToast file0 first offset := by
  have hne : first ≠ t := fun he => h.notMem_own htexts (he ▸ hfirst)
  have hto : freadAt toastK file (Zgdb.blockPos file first) 0
      = freadAt toastK file0 (Zgdb.blockPos file0 first) 0 :=
    (h.toast_own hk htexts first hfirst).2.2.symm
  rw [openToast, openToast, hto, h.blockPos first hne]

/-- The new toast belongs to the document alone, as its other toasts do. -/
theorem ToastAdded.sole (h : ToastAdded file file0 T es own t size) (hs : Store file T es own)
    (hk : k ∈ T.nodes) (htexts : Texts file (own k) first fs) :
    ∀ x ∈ t :: own k, Alive file0 x ∧ IsToast file0 x ∧ ∀ j ∈ T.nodes, j ≠ k → x ∉ own j := by
  intro x hx
  rcases List.mem_cons.mp hx with rfl | hx
  · refine ⟨(h.alive x).mpr (Or.inl rfl), h.toast, ?_⟩
    intro j hj hjk hxj
    exact h.fresh ((hs.doc j hj).texts.alive x hxj)
  · obtain ⟨halive, htoast, -⟩ := h.toast_own hk htexts x hx
    refine ⟨halive, htoast, ?_⟩
    intro j hj hjk hxj
    exact hs.apart j hj k hk hjk x hxj hx

/-- No toast of the document has the index of the root. -/
theorem ToastAdded.ne_zero (h : ToastAdded file file0 T es own t size) (hs : Store file T es own)
    (hk : k ∈ T.nodes) : ∀ x ∈ t :: own k, x ≠ 0 := by
  rintro x hx rfl
  rcases List.mem_cons.mp hx with rfl | hx
  · exact h.fresh (hs.alive hs.root_mem)
  · exact hs.toast_notMem hk hx hs.root_mem

/-- **The chunks of a text that grows across toasts.** -/
theorem ToastAdded.growAcross {file1 : ZgdbFile A} {fs gs : List FirstTextChunk}
    (h : ToastAdded file file0 T es own t size) (hs : Store file T es own) (hk : k ∈ T.nodes)
    (htexts : Texts file (own k) first (fs ++ f :: gs))
    (hone : ∀ x ∈ textPath file first f, x.1 = first)
    (hlt : chunkCount f.size < chunkCount f'.size)
    (hleft : chunksLeft (toastAt file first) < chunkCount f'.size - chunkCount f.size)
    (hsize : size = (chunkCount f'.size - chunkCount f.size) * chunkRecord
      + (toastAt file first).capacity)
    (hoff : f'.offsetInToast = f.offsetInToast)
    (hf : file1 = fillAcrossToasts file0 input (chunkCount f.size)
      (chunkCount f'.size - chunkCount f.size) ((input.strlen + 1) % chunkSize) t
      (openToast file0 first f.offsetInToast)) :
    GrownAcross h.store.blocks.layout file0 file1 (own k) first t fs f f' gs input
      ((input.strlen + 1) % chunkSize) := by
  have hfm : f ∈ fs ++ f :: gs := List.mem_append_right _ List.mem_cons_self
  have hfo : first ∈ own k := htexts.first_of_mem hfm
  have hsole := h.sole hs hk htexts
  obtain ⟨ha, hlen⟩ := h.store.area fun x hx => ⟨(hsole x hx).1, (hsole x hx).2.1⟩
  have hroom : sizeofToast + (chunkCount f'.size - chunkCount f.size) * chunkRecord
      ≤ (toastAt file0 t).capacity := by
    have h1 := h.room
    have h2 := (htexts.toast first hfo).le_capacity
    omega
  have hone0 : ∀ x ∈ textPath file0 first f, x.1 = first := by
    rw [htexts.path_frame (h.agrees_own hk) hfm]
    exact hone
  have hleft0 : chunksLeft (toastAt file0 first) < chunkCount f'.size - chunkCount f.size := by
    rw [(h.toast_own hk htexts first hfo).2.2]
    exact hleft
  exact (h.texts_own hk htexts).growAcross ha hlen (h.notMem_own htexts)
    (hsole t List.mem_cons_self).1 h.empty hroom hone0 hleft0 (by omega) hoff hf

/-- The first toast and the new one are the toasts of the document in their order. -/
theorem ToastAdded.toastList {file1 : ZgdbFile A} {L : Layout A} {fs gs : List FirstTextChunk}
    {lastLen : Nat} (h : ToastAdded file file0 T es own t size) (hs : Store file T es own)
    (hk : k ∈ T.nodes) (htexts : Texts file (own k) first (fs ++ f :: gs))
    (hgrown : GrownAcross L file0 file1 (own k) first t fs f f' gs input lastLen) :
    ∃ ts, ToastList file1 first ts ∧ ts.Nodup ∧ ∀ x ∈ ts, x ∈ t :: own k := by
  have hfo : first ∈ own k := htexts.first_of_mem (List.mem_append_right _ List.mem_cons_self)
  have hft : first ≠ t := fun he => h.notMem_own htexts (he ▸ hfo)
  have hlast : (toastAt file1 t).nextToastIndex = 0 :=
    (hgrown.kept t List.mem_cons_self (Ne.symm hft)).trans h.last
  have hne0 := h.ne_zero hs hk
  refine ⟨[first, t], ⟨rfl, hne0 first (List.mem_cons_of_mem _ hfo), hgrown.next,
    hne0 t List.mem_cons_self, hlast⟩, ?_, ?_⟩
  · simp [hft]
  · intro x hx
    rcases List.mem_cons.mp hx with rfl | hx
    · exact List.mem_cons_of_mem _ hfo
    · rw [List.mem_singleton.mp hx]
      exact List.mem_cons_self

/-- The other toasts of the document keep their contents when the text is set. -/
theorem ToastAdded.agrees_rest {file1 file' : ZgdbFile A} {fs gs : List FirstTextChunk} {d n : Nat}
    {lastLen : Nat} (h : ToastAdded file file0 T es own t size) (hs : Store file T es own)
    (hk : k ∈ T.nodes) (htexts : Texts file (own k) first (fs ++ f :: gs))
    (hgrown : GrownAcross h.store.blocks.layout file0 file1 (own k) first t fs f f' gs
      input lastLen)
    (hw : Writes h.store.blocks.layout (Layout.span k d n) file1 file') :
    ∀ x ∈ own k, x ≠ first → Agrees file file' x (blockCapacity file x) := by
  intro x hx hxf
  have hused : Used file x := Or.inl (htexts.alive x hx)
  have hxk : x ≠ k := fun he => hs.toast_notMem hk hx (he ▸ hk)
  have hxt : x ≠ t := fun he => h.notMem_own htexts (he ▸ hx)
  have hx0 := h.agrees x hused hxt
  have hcap : blockCapacity file0 x = blockCapacity file x :=
    (Kept.of_agrees (hs.blocks.block x hused) hx0).2
  refine hx0.trans ?_
  intro d hd
  rw [← hcap] at hd
  have hall := (hgrown.writes.mono fun _ _ => Or.inl).comp (hw.mono fun _ _ => Or.inr)
  refine hall.blockAt_eq ⟨h.used x hused, rfl⟩ hd ?_
  rintro ((he | he) | he)
  · exact hxf he
  · exact hxt he
  · exact hxk he.1

end Added

theorem crossRequest_eq {first : Nat} (hmod : f.size % chunkSize ≠ 0) (n : Nat) :
    crossRequest file first f n
      = (chunkCount (bumped n) - chunkCount f.size) * chunkRecord
        + (toastAt file first).capacity := by
  rw [crossRequest, growth_eq hmod]

/-- **The run of an update that grows a text across toasts**: a new toast, the chunks, and last the
`firstTextChunk`. -/
theorem updateText_crossing {block : A} {doc : Document} {d : Nat}
    (hf : freadAt firstTextChunkK file block (d + elementHead) = f)
    (hcross : Crosses file doc.header.firstToastIndex f (input.strlen + 1)) :
    updateText file block doc d input
      = (createNewToast file (crossRequest file doc.header.firstToastIndex f
        (input.strlen + 1))).map
          fun (t, file0) => writeSize (fillAcrossToasts file0 input
            (growth f.size (input.strlen + 1)).chunks
            ((growth f.size (input.strlen + 1)).chunksNew -
              (growth f.size (input.strlen + 1)).chunks)
            (growth f.size (input.strlen + 1)).lastLen t
            (openToast file doc.header.firstToastIndex f.offsetInToast)) block d f
              (growth f.size (input.strlen + 1)).newLength := by
  obtain ⟨hlt, hchunks, hleft⟩ := hcross
  obtain ⟨g, hg⟩ : ∃ g, g = growth f.size (input.strlen + 1) := ⟨_, rfl⟩
  obtain ⟨cur, hcur⟩ : ∃ cur, cur = openToast file doc.header.firstToastIndex f.offsetInToast :=
    ⟨_, rfl⟩
  rw [← hg] at hchunks hleft
  have hroom : ¬ chunksLeft cur.toast ≥ g.chunksNew - g.chunks := by
    rw [hcur]
    exact Nat.not_le.mpr hleft
  have hsize : crossRequest file doc.header.firstToastIndex f (input.strlen + 1)
      = (g.chunksNew - g.chunks) * chunkRecord + cur.toast.capacity := by
    rw [crossRequest, hg, hcur]
    rfl
  simp only [updateText, hf, updateLonger, ← hg, ← hcur, hsize]
  rw [if_neg (by omega), if_neg (by omega), if_neg (by omega), if_neg hroom, growAcrossToasts]
  cases createNewToast file ((g.chunksNew - g.chunks) * chunkRecord + cur.toast.capacity) <;> rfl

/-- The same with the toast that it gets, for a stored size that is not raised. -/
theorem updateText_newToast {file0 : ZgdbFile A} {doc : Document} {d first t : Nat}
    (hf : Holds firstTextChunkK (blockAt file k) (d + elementHead) f)
    (hfirst : doc.header.firstToastIndex = first) (hmod : f.size % chunkSize ≠ 0)
    (hcross : Crosses file first f (input.strlen + 1))
    (hc : createNewToast file (crossRequest file first f (input.strlen + 1)) = some (t, file0)) :
    updateText file (blockPos file k) doc d input
      = some (fwriteAt firstTextChunkK (fillAcrossToasts file0 input (chunkCount f.size)
          (chunkCount (bumped (input.strlen + 1)) - chunkCount f.size)
          ((input.strlen + 1) % chunkSize) t (openToast file first f.offsetInToast))
        (blockPos file k) (d + elementHead) { f with size := bumped (input.strlen + 1) }) := by
  have hread : freadAt firstTextChunkK file (blockPos file k) (d + elementHead) = f := by
    rw [freadAt_eq]
    exact load_of_holds hf
  subst hfirst
  rw [updateText_crossing hread hcross, hc, growth_eq hmod]
  rfl

/-- An edit of the store after a toast was added. -/
theorem Edited.after {file0 : ZgdbFile A} {v v0 : StoredValue} {own' : List Nat} {t size : Nat}
    (hs : Store file T es own) (hk : k ∈ T.nodes) (hes : es k = pre ++ ⟨name, v0⟩ :: post)
    (h0 : ToastAdded file file0 T es own t size) (ht : t ∈ own')
    (h : Edited file0 file' T es own k pre name v post own') :
    Edited file file' T es own k pre name v post own' := by
  refine ⟨h.store, fun j hj => (h.headers j hj).trans (h0.headers j hj), ?_,
    fun j hj hjk => (h.others j hj hjk).trans (h0.carried.entries hs hj), ?_, ?_⟩
  · intro j hj hjk hjo
    have hjt : j ≠ t := fun he => hjo (he ▸ ht)
    have h1 := h0.agrees j hj hjt
    have h2 := h.agrees j (h0.used j hj) hjk hjo
    rw [(Kept.of_agrees (hs.blocks.block j hj) h1).2] at h2
    exact h1.trans h2
  · intro g hg
    have hg0 := h.texts g hg
    rw [h0.headers k hk] at hg0
    have hc := (h0.carried k hk).2
    refine TextKept.trans
      (((hs.doc k hk).texts.frame (fun x hx => (hc x hx).1) fun x hx => (hc x hx).2).2 g ?_) hg0
    rw [hes, textsOf_append_cons]
    rcases List.mem_append.mp hg with hg | hg
    · exact List.mem_append_left _ hg
    · obtain ⟨e, he, hv⟩ := mem_textsOf.mp hg
      exact List.mem_append_right _ (mem_textsOf.mpr ⟨e, List.mem_cons_of_mem _ he, hv⟩)
  · intro j
    rw [h.alive, h0.alive]
    constructor
    · rintro ((rfl | hj) | hj)
      · exact Or.inr ht
      · exact Or.inl hj
      · exact Or.inr hj
    · exact fun hj => hj.imp Or.inr id

/-- **A text updated across toasts.** -/
theorem updateText_across (hs : Store file T es own) (hk : k ∈ T.nodes) (p : Nat)
    (hes : es k = pre ++ ⟨name, .text f⟩ :: post) (hmod : f.size % chunkSize ≠ 0)
    (hcross : Crosses file (getDocumentHeader file k).firstToastIndex f (input.strlen + 1))
    (hsafe : CrossSafe file (getDocumentHeader file k).firstToastIndex f (input.strlen + 1)) :
    ∃ file' f' t, updateText file (blockPos file k) (documentAt file k p)
        (sizeofDocumentHeader + storedSize pre) input = some file' ∧
      TextUpdated file file' T es own k pre name f post input f' (t :: own k) ∧
      Crossed file file' (own k) (getDocumentHeader file k).firstToastIndex t f' := by
  obtain ⟨first, hfirst⟩ : ∃ first, first = (getDocumentHeader file k).firstToastIndex := ⟨_, rfl⟩
  have htexts := (hs.doc k hk).texts
  rw [hes, textsOf_append_cons, textsOf_text] at htexts
  rw [← hfirst] at hcross hsafe htexts ⊢
  have hcross' := hcross
  obtain ⟨hlt, hchunks, hleft⟩ := hcross'
  simp only [growth_eq hmod] at hchunks hleft
  obtain ⟨hone, hr, hspill⟩ := hsafe
  have hfo : first ∈ own k := htexts.first_of_mem (List.mem_append_right _ List.mem_cons_self)
  have hsize : crossRequest file first f (input.strlen + 1) = _ := crossRequest_eq hmod _
  -- the new toast
  have hheader : sizeofToast ≤ crossRequest file first f (input.strlen + 1) := by
    rw [hsize]
    exact (htexts.toast first hfo).le_capacity.trans (Nat.le_add_left _ _)
  obtain ⟨t, file0, hc, h0⟩ := hs.newToast hheader hspill hr
  have hft : first ≠ t := fun he => h0.notMem_own htexts (he ▸ hfo)
  -- the chunks
  obtain ⟨f', hf'⟩ : ∃ f' : FirstTextChunk, f' = { f with size := bumped (input.strlen + 1) } :=
    ⟨_, rfl⟩
  have hoff : f'.offsetInToast = f.offsetInToast := by rw [hf']
  have hbump : f'.size = bumped (input.strlen + 1) := by rw [hf']
  have hhead : (documentAt file k p).header.firstToastIndex = first := hfirst.symm
  have hrun := updateText_newToast (hs.holds_text hk hes) hhead hmod hcross hc
  rw [← hbump] at hchunks hleft hsize
  rw [← hf', ← hbump, h0.openToast_own hk htexts hfo] at hrun
  obtain ⟨file1, hf1⟩ : ∃ file1, file1 = fillAcrossToasts file0 input (chunkCount f.size)
      (chunkCount f'.size - chunkCount f.size) ((input.strlen + 1) % chunkSize) t
      (openToast file0 first f.offsetInToast) := ⟨_, rfl⟩
  have hgrown := h0.growAcross hs hk htexts hone hchunks hleft hsize hoff hf1
  -- the text
  have hpos : blockPos file0 k = blockPos file k :=
    h0.blockPos k fun he => h0.fresh (he ▸ hs.alive hk)
  rw [← hf1] at hrun
  obtain ⟨file', hf⟩ : ∃ file', file' = fwriteAt firstTextChunkK file1 (blockPos file0 k)
      (valueAt pre) f' := ⟨_, rfl⟩
  have hhdr : (getDocumentHeader file0 k).firstToastIndex = first := by
    rw [h0.headers k hk, hfirst]
  obtain ⟨hedit, hreads, hpath, htoast⟩ := h0.store.setText hk hes (h0.sole hs hk htexts)
    (by rw [hhdr]; exact hgrown.rewritten hfo)
    (by rw [hhdr]; exact h0.toastList hs hk htexts hgrown) hf
  rw [hhdr] at hreads hpath
  have hlast : (toastAt file1 t).nextToastIndex = 0 :=
    (hgrown.kept t List.mem_cons_self (Ne.symm hft)).trans h0.last
  have hw : Writes h0.store.blocks.layout (Layout.span k (valueAt pre)
      (valueAt pre + firstTextChunkK.size)) file1 file' := by
    rw [hf]
    exact writes_fwriteAt (Or.inl (h0.store.alive hk))
      ((Nat.le_add_right _ _).trans (h0.store.value_le hk hes))
  refine ⟨file', f', t, ?_, ⟨Edited.after hs hk hes h0 List.mem_cons_self hedit, hoff, ?_,
    fun _ => hfirst ▸ hreads hbump⟩, ?_⟩
  · rw [hf, hpos]
    exact hrun
  · rw [if_neg (by omega), hbump]
  refine ⟨h0.fresh, ?_, ?_, ?_, ?_, h0.agrees_rest hs hk htexts hgrown hw, ?_⟩
  · rw [htoast first (List.mem_cons_of_mem _ hfo)]
    exact hgrown.next
  · rw [htoast t List.mem_cons_self]
    exact hlast
  · intro x hx hxf
    rw [htoast x (List.mem_cons_of_mem _ hx), hgrown.kept x (List.mem_cons_of_mem _ hx) hxf,
      (h0.toast_own hk htexts x hx).2.2]
  · rw [hpath]
    exact hgrown.tail
  · rw [hw.freeList_eq, hgrown.writes.freeList_eq]
    exact h0.newIndexes

end Cases

end Zgdb
