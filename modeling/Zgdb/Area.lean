/-
# The chunk loops and what they change

Under a layout, a piece of code is described by the set of bytes it may change (`Writes`) and by
the chunks it leaves at the slots of some toasts (`Area`).  Two slots of an area do not overlap
(`SlotIn.apart`), so a chunk that is written changes the heap of chunks at one place.  Hence the
three loops of the code are the three operations on chains: `rewriteChunks` changes the data
along a chain, `relinkChunks` also turns its last link, and `writeChunks` lays out a new chain in
fresh slots.
-/
import Zgdb.Blocks
import Zgdb.Update

namespace Zgdb

open Zgdb.Lib AddrSpace

variable {A : Type} [BlockSpace A] {L : Layout A} {W W' : Nat → Nat → Prop}
variable {file file' file'' : ZgdbFile A}

/-! ## 1. What a piece of code changes

A statement on writes is composed from those of the parts, by the union of their sets.  It says
nothing of what is written; that is said by `Holds` for the places that matter. -/

/-- `file'` differs from `file` in the bytes of the set `W` at most, and in no table.  A set of
bytes is a relation between a block and a displacement in it, so that what a function leaves alone
can be read off from its set. -/
structure Writes (L : Layout A) (W : Nat → Nat → Prop) (file file' : ZgdbFile A) : Prop where
  tables : file' = { file with mem := file'.mem }
  only : L.Only file.mem file'.mem W

/-- Block `k` of the layout is the block the index table gives for `k`. -/
structure Shows (L : Layout A) (file : ZgdbFile A) (k : Nat) : Prop where
  mem : L.mem k
  pos : L.pos k = blockPos file k

namespace Writes

theorem refl : Writes L W file file := ⟨rfl, Layout.only_refl⟩

theorem comp (h : Writes L W file file') (h' : Writes L W file' file'') :
    Writes L W file file'' := by
  refine ⟨?_, h.only.comp h'.only⟩
  rw [h'.tables, h.tables]

theorem mono (h : Writes L W file file') (hw : ∀ k d, W k d → W' k d) : Writes L W' file file' :=
  ⟨h.tables, h.only.mono hw⟩

theorem header_eq (h : Writes L W file file') : file'.header = file.header := by rw [h.tables]

theorem indexes_eq (h : Writes L W file file') : file'.indexes = file.indexes := by rw [h.tables]

theorem freeList_eq (h : Writes L W file file') : file'.freeList = file.freeList := by
  rw [h.tables]

theorem getIndex_eq (h : Writes L W file file') (k : Nat) : getIndex file' k = getIndex file k := by
  rw [h.tables]; rfl

theorem blockPos_eq (h : Writes L W file file') (k : Nat) : blockPos file' k = blockPos file k := by
  rw [blockPos, h.getIndex_eq, blockPos]

theorem alive_iff (h : Writes L W file file') {k : Nat} : Alive file' k ↔ Alive file k := by
  rw [Alive, Alive, h.header_eq, h.indexes_eq]

theorem shows (h : Writes L W file file') {k : Nat} (hk : Shows L file k) : Shows L file' k :=
  ⟨hk.mem, hk.pos.trans (h.blockPos_eq k).symm⟩

/-- A byte outside the set is as it was. -/
theorem blockAt_eq (h : Writes L W file file') {k : Nat} (hk : Shows L file k) {d : Nat}
    (hd : d < L.len k) (hw : ¬ W k d) : blockAt file' k d = blockAt file k d := by
  have h1 := h.only k hk.mem d hd hw
  unfold Layout.block at h1
  rw [hk.pos] at h1
  rw [blockAt, blockAt, h.blockPos_eq]
  exact h1

end Writes

/-- One object written inside a block. -/
theorem writes_fwriteAt {α : Type} {K : Kind Obj α} {k d : Nat} {a : α} (hk : L.mem k)
    (hd : d + K.size ≤ L.len k) :
    Writes L (Layout.span k d (d + K.size)) file (fwriteAt K file (L.pos k) d a) :=
  ⟨rfl, Layout.only_store hk hd⟩

/-- What is written can be read back. -/
theorem blockAt_fwriteAt {α : Type} {K : Kind Obj α} (file : ZgdbFile A) (k d : Nat) (a : α) :
    blockAt (fwriteAt K file (blockPos file k) d a) k = store K (blockAt file k) d a :=
  view_store _ _ _ _

/-- Writing an object where it lies already changes nothing. -/
theorem fwriteAt_same {α : Type} {K : Kind Obj α} {file : ZgdbFile A} {k d : Nat} {a : α}
    (h : Holds K (blockAt file k) d a) : fwriteAt K file (blockPos file k) d a = file := by
  have hm : Holds K file.mem (add (blockPos file k) d) a := by
    intro i hi
    rw [shift_shift]
    exact h i hi
  rw [fwriteAt, store_of_holds hm]

/-! ## 2. Slots and areas

A slot is a place for a chunk in a toast, at a multiple of the size of a chunk with its type byte.
Two slots are the same or do not overlap, so the chunks of some toasts behave like the cells of a
heap. -/

/-- Where the chunk of a slot lies in its toast. -/
def chunkStart (s : Slot) : Nat := sizeofToast + s.2 + 1

/-- The bytes of the chunk of a slot. -/
def chunkBytes (s : Slot) : Nat → Nat → Prop :=
  Layout.span s.1 (chunkStart s) (chunkStart s + sizeofTextChunk)

/-- A slot of one of the toasts `own`, inside its block. -/
structure SlotIn (L : Layout A) (own : List Nat) (s : Slot) : Prop where
  mem : s.1 ∈ own
  fits : ∃ j, s.2 = j * chunkRecord ∧ sizeofToast + (j + 1) * chunkRecord ≤ L.len s.1

/-- The toasts `own` lie in the layout, each with its header. -/
structure Area (L : Layout A) (file : ZgdbFile A) (own : List Nat) : Prop where
  shows : ∀ t ∈ own, Shows L file t
  toast : ∀ t ∈ own, IsToast file t
  le_len : ∀ t ∈ own, sizeofToast ≤ L.len t

theorem SlotIn.le_len {own : List Nat} {s : Slot} (h : SlotIn L own s) :
    chunkStart s + sizeofTextChunk ≤ L.len s.1 := by
  obtain ⟨j, hj, hle⟩ := h.fits
  simp only [chunkStart, hj, chunkRecord, sizeofTextChunk, sizeofToast] at hle ⊢
  omega

/-- **Two slots do not overlap.** -/
theorem SlotIn.apart {own own' : List Nat} {x y : Slot} (hx : SlotIn L own x) (hy : SlotIn L own' y)
    (hxy : x ≠ y) {d : Nat} (hd : chunkBytes y y.1 d) : ¬ chunkBytes x y.1 d := by
  rintro ⟨h1, h2, h3⟩
  obtain ⟨_, h4, h5⟩ := hd
  obtain ⟨i, hi, _⟩ := hx.fits
  obtain ⟨j, hj, _⟩ := hy.fits
  simp only [chunkStart, hi, hj, chunkRecord, sizeofTextChunk, sizeofToast] at h2 h3 h4 h5
  have hij : i = j := by omega
  exact hxy (Prod.ext h1.symm (by rw [hi, hj, hij]))

/-- No chunk overlaps a toast header. -/
theorem not_chunkBytes {s : Slot} {t d : Nat} (hd : d < sizeofToast) : ¬ chunkBytes s t d := by
  rintro ⟨_, h, _⟩
  simp only [chunkStart] at h
  omega

theorem chunkAt_eq (file : ZgdbFile A) (s : Slot) :
    chunkAt file s = load textChunkK (blockAt file s.1) (chunkStart s) := freadAt_eq _ _ _ _

/-- The heap of chunks at a slot is its chunk. -/
theorem chunkHeap_congr {s : Slot} (h : chunkAt file' s = chunkAt file s) :
    chunkHeap file' s = chunkHeap file s := by
  unfold chunkHeap
  rw [h]

namespace Area

variable {own : List Nat}

theorem named (h : Area L file own) {t : Nat} (ht : t ∈ own) : Named file t :=
    (h.toast t ht).attached

/-- A toast header is read as before when its bytes are. -/
theorem toastAt_eq (h : Area L file own) (hw : Writes L W file file') {t : Nat} (ht : t ∈ own)
    (hd : ∀ d < sizeofToast, ¬ W t d) : IsToast file' t ∧ toastAt file' t = toastAt file t := by
  have heq : ∀ d < sizeofToast, blockAt file' t d = blockAt file t d := fun d hd' =>
    hw.blockAt_eq (h.shows t ht) (Nat.lt_of_lt_of_le hd' (h.le_len t ht)) (hd d hd')
  have := (h.toast t ht).of_eqOn heq
  exact ⟨this.1, this.2.1⟩

/-- An area survives what leaves its toast headers alone. -/
theorem writes (h : Area L file own) (hw : Writes L W file file')
    (hd : ∀ t ∈ own, ∀ d < sizeofToast, ¬ W t d) : Area L file' own where
  shows t ht := hw.shows (h.shows t ht)
  toast t ht := (h.toastAt_eq hw ht (hd t ht)).1
  le_len := h.le_len

/-- A chunk is read as before when its bytes are. -/
theorem chunkAt_eq (h : Area L file own) (hw : Writes L W file file') {s : Slot}
    (hs : SlotIn L own s) (hd : ∀ d, chunkBytes s s.1 d → ¬ W s.1 d) :
    chunkAt file' s = chunkAt file s := by
  rw [Zgdb.chunkAt_eq, Zgdb.chunkAt_eq]
  refine load_congr ?_
  intro i hi
  have hle := hs.le_len
  have hi' : i < sizeofTextChunk := hi
  rw [add_nat]
  exact hw.blockAt_eq (h.shows _ hs.mem) (by omega) (hd _ ⟨rfl, by omega, by omega⟩)

/-- **A chunk that is written changes the chunks of an area at one slot.** -/
theorem put (h : Area L file own) {s : Slot} (hs : SlotIn L own s) (c : TextChunk) :
    Writes L (chunkBytes s) file (fwriteAt textChunkK file (blockPos file s.1) (chunkStart s) c) ∧
      ∀ y, SlotIn L own y →
        chunkAt (fwriteAt textChunkK file (blockPos file s.1) (chunkStart s) c) y
          = if y = s then c else chunkAt file y := by
  have hsh := h.shows _ hs.mem
  have hw : Writes L (chunkBytes s) file
      (fwriteAt textChunkK file (blockPos file s.1) (chunkStart s) c) := by
    have hle : chunkStart s + textChunkK.size ≤ L.len s.1 := hs.le_len
    rw [← hsh.pos]
    exact writes_fwriteAt hsh.mem hle
  refine ⟨hw, ?_⟩
  intro y hy
  by_cases hys : y = s
  · rw [if_pos hys, hys, Zgdb.chunkAt_eq, blockAt_fwriteAt]
    exact load_of_holds holds_store
  · rw [if_neg hys]
    exact h.chunkAt_eq hw hy fun d hd => hs.apart hy (Ne.symm hys) hd

end Area

/-! ## 3. Rewriting a chain

The loops write one chunk after the other, each at the place to which the chunk before leads.  As
the links are read before the chunk is written, the loop goes the way of the old chain. -/

section Loops

variable {own : List Nat} {str : CString}

/-- The bytes of the chunks along a chain. -/
def pathBytes (path : List Slot) : Nat → Nat → Prop := fun k d => ∃ x ∈ path, chunkBytes x k d

theorem not_pathBytes {path : List Slot} {t d : Nat} (hd : d < sizeofToast) :
    ¬ pathBytes path t d := by
  rintro ⟨x, _, hx⟩
  exact not_chunkBytes hd hx

theorem pathBytes_mono {path path' : List Slot} (h : ∀ x ∈ path, x ∈ path') {k d : Nat}
    (hd : pathBytes path k d) : pathBytes path' k d := by
  obtain ⟨x, hx, hxd⟩ := hd
  exact ⟨x, h x hx, hxd⟩

/-- A chunk given new data: one cell of the heap changes its data, and no link changes. -/
theorem Area.putData {file : ZgdbFile A} (h : Area L file own) {s : Slot} (hs : SlotIn L own s)
    (data : List UInt8) {file1 : ZgdbFile A}
    (hf1 : fwriteAt textChunkK file (blockPos file s.1) (chunkStart s)
      { chunkAt file s with data := data } = file1) :
    Writes L (chunkBytes s) file file1 ∧ Area L file1 own ∧
      (∀ y, SlotIn L own y → chunkHeap file1 y
        = Function.update (chunkHeap file) s { chunkHeap file s with data := data } y) ∧
      ∀ y, SlotIn L own y → (chunkHeap file1 y).next = (chunkHeap file y).next := by
  subst hf1
  obtain ⟨hw, hc⟩ := h.put hs { chunkAt file s with data := data }
  have hheap : ∀ y, SlotIn L own y →
      chunkHeap (fwriteAt textChunkK file (blockPos file s.1) (chunkStart s)
          { chunkAt file s with data := data }) y
        = Function.update (chunkHeap file) s { chunkHeap file s with data := data } y := by
    intro y hy
    by_cases hys : y = s
    · rw [hys, Function.update_self, chunkHeap, hc s hs, if_pos rfl]
      rfl
    · rw [Function.update_of_ne hys]
      exact chunkHeap_congr (by rw [hc y hy, if_neg hys])
  refine ⟨hw, h.writes hw fun t _ d hd => not_chunkBytes hd, hheap, ?_⟩
  intro y hy
  rw [hheap y hy]
  by_cases hys : y = s
  · rw [hys, Function.update_self]
  · rw [Function.update_of_ne hys]

/-- Writing at a cursor is writing at its slot. -/
theorem Cursor.At.fwriteChunk {file : ZgdbFile A} {cur : Cursor A} {s : Slot} (h : cur.At file s)
    (c : TextChunk) : cur.fwriteChunk file c
      = fwriteAt textChunkK file (blockPos file s.1) (chunkStart s) c := by
  rw [Cursor.fwriteChunk, h.indexToast, h.nextOffset]
  rfl

theorem Cursor.At.writes {file file' : ZgdbFile A} {cur : Cursor A} {s : Slot} (h : cur.At file s)
    (hw : Writes L W file file') : cur.At file' s :=
  ⟨h.indexToast.trans (hw.blockPos_eq _).symm, h.attached, h.nextOffset⟩

/-- **The rewriting loop changes the data along a chain**, and no other byte. -/
theorem rewriteChunks_spec {lastLen : Nat} (n : Nat) {file : ZgdbFile A} {cur : Cursor A} {s : Slot}
    {start : Nat} (h : Area L file own) (hcur : cur.At file s)
    (hp : ∀ x ∈ Chain.path (chunkHeap file) n s, SlotIn L own x) :
    Writes L (pathBytes (Chain.path (chunkHeap file) n s)) file
        (rewriteChunks file str start lastLen n cur) ∧
      ∀ y, SlotIn L own y → chunkHeap (rewriteChunks file str start lastLen n cur) y
        = Chain.rewrite (chunkHeap file) (overlays str lastLen n start) s y := by
  induction n generalizing file cur s start with
  | zero => exact ⟨Writes.refl, fun _ _ => rfl⟩
  | succ n ih =>
    have hs : SlotIn L own s := hp s List.mem_cons_self
    have hp' : ∀ x ∈ Chain.path (chunkHeap file) n (chunkHeap file s).next, SlotIn L own x :=
      fun x hx => hp x (List.mem_cons_of_mem _ hx)
    rw [rewriteChunks, hcur.chunk, overlays_succ, Chain.rewrite]
    simp only [hcur.fwriteChunk]
    generalize (if n = 0 then lastLen else chunkSize) = w
    generalize hf1 : fwriteAt textChunkK file (blockPos file s.1) (chunkStart s) _ = file1
    obtain ⟨hw1, h1, hheap, hnext⟩ := h.putData hs _ hf1
    have hfirst : Writes L (pathBytes (Chain.path (chunkHeap file) (n + 1) s)) file file1 :=
      hw1.mono fun k d hd => ⟨s, List.mem_cons_self, hd⟩
    cases n with
    | zero => exact ⟨hfirst, hheap⟩
    | succ n =>
      have hadv : (cur.advance file1 { chunkAt file s with
          data := overlay str start w (chunkAt file s).data }).At file1 (chunkHeap file s).next :=
        (hcur.writes hw1).advance (h1.named (hp' _ List.mem_cons_self).mem)
      have hpath := Chain.path_congr_on fun x hx => hnext x (hp' x hx)
      obtain ⟨hw2, hc2⟩ := ih h1 hadv (by rw [hpath]; exact hp')
      rw [hpath] at hw2
      refine ⟨hfirst.comp (hw2.mono ?_), ?_⟩
      · intro k d hd
        exact pathBytes_mono (fun x hx => List.mem_cons_of_mem _ hx) hd
      · intro y hy
        rw [hc2 y hy]
        refine Chain.rewrite_congr hheap ?_ y hy
        intro x hx
        rw [length_overlays, Chain.path_update_data] at hx
        exact hp' x hx

/-- **A chain rewritten from its start**: every link stays, the cells off the chain stay, and its
own cells spell the string. -/
theorem Area.rewrite {file file' : ZgdbFile A} {lastLen n : Nat} {s : Slot} (h : Area L file own)
    (hfirst : Named file s.1) (hp : ∀ x ∈ Chain.path (chunkHeap file) n s, SlotIn L own x)
    (hn : (Chain.path (chunkHeap file) n s).Nodup)
    (hf : file' = rewriteChunks file str 0 lastLen n (openToast file s.1 s.2)) :
    Writes L (pathBytes (Chain.path (chunkHeap file) n s)) file file' ∧
      (∀ y, SlotIn L own y → (chunkHeap file' y).next = (chunkHeap file y).next) ∧
      (∀ y, SlotIn L own y → y ∉ Chain.path (chunkHeap file) n s →
        chunkHeap file' y = chunkHeap file y) ∧
      Spells str lastLen n 0 (Chain.read (chunkHeap file') n s) := by
  have hlength := length_overlays str lastLen n 0
  obtain ⟨hw, hheap⟩ : Writes L (pathBytes (Chain.path (chunkHeap file) n s)) file file' ∧
      ∀ y, SlotIn L own y →
        chunkHeap file' y = Chain.rewrite (chunkHeap file) (overlays str lastLen n 0) s y := by
    rw [hf]
    exact rewriteChunks_spec n h (at_openToast hfirst) hp
  have hnext : ∀ y, SlotIn L own y → (chunkHeap file' y).next = (chunkHeap file y).next := by
    intro y hy
    rw [hheap y hy, Chain.rewrite_next]
  refine ⟨hw, hnext, ?_, Chain.read (chunkHeap file) n s, ?_, ?_⟩
  · intro y hy hyp
    rw [hheap y hy, Chain.rewrite_of_notMem]
    rw [hlength]
    exact hyp
  · rw [Chain.read, List.length_map, Chain.length_path]
  · have hread := Chain.read_rewrite (h := chunkHeap file) (s := s) (by rw [hlength]; exact hn)
    rw [hlength] at hread
    have hpath : Chain.path (chunkHeap file') n s = Chain.path (chunkHeap file) n s :=
      Chain.path_congr_on fun x hx => hnext x (hp x hx)
    rw [← hread, Chain.read, Chain.read, Chain.path_rewrite, hpath]
    exact List.map_congr_left fun x hx => by rw [hheap x (hp x hx)]

/-- **Each cell of a rewritten chain** has its piece of the string over what it had. -/
theorem Area.rewrite_data {file file' : ZgdbFile A} {lastLen n : Nat} {s : Slot}
    (h : Area L file own) (hfirst : Named file s.1)
    (hp : ∀ x ∈ Chain.path (chunkHeap file) n s, SlotIn L own x)
    (hn : (Chain.path (chunkHeap file) n s).Nodup)
    (hf : file' = rewriteChunks file str 0 lastLen n (openToast file s.1 s.2)) {i : Nat} {x : Slot}
    (hx : (Chain.path (chunkHeap file) n s)[i]? = some x) :
    (chunkHeap file' x).data = overlay str (chunkSize * i)
      (if i + 1 = n then lastLen else chunkSize) (chunkHeap file x).data := by
  have hlength := length_overlays str lastLen n 0
  have hheap : chunkHeap file' x
      = Chain.rewrite (chunkHeap file) (overlays str lastLen n 0) s x := by
    rw [hf]
    exact (rewriteChunks_spec n h (at_openToast hfirst) hp).2 x (hp x (List.mem_of_getElem? hx))
  have hread := Chain.read_rewrite (h := chunkHeap file) (s := s) (by rw [hlength]; exact hn)
  rw [hlength, Chain.read, Chain.path_rewrite] at hread
  have hi : i < n := by
    have hlt := (List.getElem?_eq_some_iff.mp hx).1
    rwa [Chain.length_path] at hlt
  have hdata := congrArg (fun l => l[i]?) hread
  simp only [List.getElem?_map, hx, Option.map_some, List.getElem?_zipWith, overlays_eq_map,
    Chain.read, List.getElem?_range hi, Nat.zero_add, Option.some.injEq] at hdata
  rw [hheap, overlays_eq_map]
  simp only [Nat.zero_add]
  exact hdata

/-- One turn of the relinking loop, with `n` more before the last: the chunk at `s` has new data,
and the cursor is at the next one. -/
structure RelinkStep (L : Layout A) (own : List Nat) (str : CString) (start : Nat)
    (file file1 : ZgdbFile A) (cur cur1 : Cursor A) (s : Slot) (n : Nat) : Prop where
  writes : Writes L (chunkBytes s) file file1
  area : Area L file1 own
  heap : ∀ y, SlotIn L own y → chunkHeap file1 y = Function.update (chunkHeap file) s
    { chunkHeap file s with data := overlay str start chunkSize (chunkHeap file s).data } y
  cursor : cur1 = cur.advance file1 { chunkAt file s with
    data := overlay str start chunkSize (chunkAt file s).data }
  at_next : cur1.At file1 (chunkHeap file s).next
  path : Chain.path (chunkHeap file1) (n + 1) (chunkHeap file s).next
    = Chain.path (chunkHeap file) (n + 1) (chunkHeap file s).next
  after : Chain.after (chunkHeap file1) n (chunkHeap file s).next
    = Chain.after (chunkHeap file) n (chunkHeap file s).next
  last : chunkAt file1 (Chain.after (chunkHeap file) n (chunkHeap file s).next)
    = chunkAt file (Chain.after (chunkHeap file) n (chunkHeap file s).next)

/-- **A turn of the relinking loop** that is not the last. -/
theorem relinkChunks_step (str : CString) (start : Nat) (relink : Cursor A → TextChunk → TextChunk)
    (moveLast : Bool) {n : Nat} {file : ZgdbFile A} {cur : Cursor A} {s : Slot}
    (h : Area L file own)
    (hcur : cur.At file s) (hp : ∀ x ∈ Chain.path (chunkHeap file) (n + 1 + 1) s, SlotIn L own x)
    (hn : (Chain.path (chunkHeap file) (n + 1 + 1) s).Nodup) :
    ∃ file1 cur1, relinkChunks file str start relink moveLast (n + 1 + 1) cur
        = relinkChunks file1 str (start + chunkSize) relink moveLast (n + 1) cur1 ∧
      RelinkStep L own str start file file1 cur cur1 s n := by
  have hs := hp s List.mem_cons_self
  have hp' : ∀ x ∈ Chain.path (chunkHeap file) (n + 1) (chunkHeap file s).next, SlotIn L own x :=
    fun x hx => hp x (List.mem_cons_of_mem _ hx)
  obtain ⟨file1, hf1⟩ : ∃ file1, fwriteAt textChunkK file (blockPos file s.1) (chunkStart s)
    { chunkAt file s with data := overlay str start chunkSize (chunkAt file s).data } = file1 :=
    ⟨_, rfl⟩
  obtain ⟨hw1, h1, hheap, hnext⟩ := h.putData hs _ hf1
  -- the last chunk of the chain is another one than the first
  have hmem : Chain.after (chunkHeap file) n (chunkHeap file s).next
      ∈ Chain.path (chunkHeap file) (n + 1) (chunkHeap file s).next :=
    Chain.after_mem_path _ _ (Nat.lt_succ_self n)
  have hne : Chain.after (chunkHeap file) n (chunkHeap file s).next ≠ s := by
    intro he
    rw [he] at hmem
    exact (List.nodup_cons.mp hn).1 hmem
  refine ⟨file1, _, ?_, hw1, h1, hheap, rfl, (hcur.writes hw1).advance ?_,
    Chain.path_congr_on fun x hx => hnext x (hp' x hx), ?_, ?_⟩
  · rw [relinkChunks, hcur.chunk, if_neg (Nat.succ_ne_zero n)]
    simp only [hcur.fwriteChunk, Nat.succ_ne_zero, false_and, if_false, hf1]
  · exact h1.named (hp' _ List.mem_cons_self).mem
  · exact Chain.after_congr fun m hm =>
      hnext _ (hp' _ (Chain.after_mem_path (chunkHeap file) _ (by omega)))
  · exact h.chunkAt_eq hw1 (hp' _ hmem) fun d hd => hs.apart (hp' _ hmem) hne.symm hd

/-- **The relinking loop changes the data along a chain and its last link**, and ends at the last
toast when the whole chain lies in one. -/
theorem relinkChunks_spec {relink : Cursor A → TextChunk → TextChunk} {moveLast : Bool}
    {toast : Toast} {t : Nat} {link : Slot} (n : Nat) {file : ZgdbFile A} {cur : Cursor A}
    {s : Slot} {start : Nat} (h : Area L file own) (hcur : cur.At file s)
    (htoast : cur.toast = toast)
    (hp : ∀ x ∈ Chain.path (chunkHeap file) (n + 1) s, SlotIn L own x ∧ x.1 = t)
    (hn : (Chain.path (chunkHeap file) (n + 1) s).Nodup)
    (hrel : ∀ cur' : Cursor A, cur'.toast = toast →
      relink cur' (chunkAt file (Chain.after (chunkHeap file) n s))
        = { chunkAt file (Chain.after (chunkHeap file) n s) with
            toastIndex := link.1, nextOffset := link.2 })
    (hlast : moveLast = true → link.1 = t) :
    Writes L (pathBytes (Chain.path (chunkHeap file) (n + 1) s)) file
        (relinkChunks file str start relink moveLast (n + 1) cur).1 ∧
      (∀ y, SlotIn L own y →
        chunkHeap (relinkChunks file str start relink moveLast (n + 1) cur).1 y
          = Chain.setNext (Chain.rewrite (chunkHeap file) (overlays str chunkSize (n + 1) start) s)
            (Chain.after (chunkHeap file) n s) link y) ∧
      (relinkChunks file str start relink moveLast (n + 1) cur).2.indexToast = cur.indexToast ∧
      (relinkChunks file str start relink moveLast (n + 1) cur).2.toast = toast := by
  induction n generalizing file cur s start with
  | zero =>
    obtain ⟨hs, hst⟩ := hp s List.mem_cons_self
    have hrel' := hrel cur htoast
    rw [Chain.after] at hrel' ⊢
    rw [relinkChunks, hcur.chunk, if_pos rfl, hrel', relinkChunks]
    simp only [hcur.fwriteChunk]
    generalize hf1 : fwriteAt textChunkK file (blockPos file s.1) (chunkStart s) _ = file1
    obtain ⟨hw1, hc1⟩ := h.put hs
      { chunkAt file s with
        toastIndex := link.1, nextOffset := link.2
        data := overlay str start chunkSize (chunkAt file s).data }
    rw [hf1] at hw1 hc1
    refine ⟨hw1.mono fun k d hd => ⟨s, List.mem_cons_self, hd⟩, ?_, ?_⟩
    · intro y hy
      by_cases hys : y = s
      · rw [hys, Chain.setNext_self, chunkHeap, hc1 s hs, if_pos rfl]
        simp only [overlays, Chain.rewrite, Function.update_self]
        rfl
      · rw [Chain.setNext_of_ne hys]
        simp only [overlays, Chain.rewrite, Function.update_of_ne hys]
        exact chunkHeap_congr (by rw [hc1 y hy, if_neg hys])
    · -- the cursor moves inside the toast, or not at all
      have hatt : cur.toast.indexAttached = t := hcur.attached.trans hst
      by_cases hlt : link.1 = t
      · have hne : ¬ (True ∧ ¬ moveLast = true ∧ link.1 ≠ cur.toast.indexAttached) := by
          rw [hatt, hlt]
          simp
        rw [if_neg hne, Cursor.advance, if_pos (by rw [hatt, hlt])]
        exact ⟨rfl, htoast⟩
      · have hmove : ¬ moveLast = true := fun hm => hlt (hlast hm)
        rw [if_pos ⟨trivial, hmove, by rw [hatt]; exact hlt⟩]
        exact ⟨rfl, htoast⟩
  | succ n ih =>
    have hst := (hp s List.mem_cons_self).2
    have hp' : ∀ x ∈ Chain.path (chunkHeap file) (n + 1) (chunkHeap file s).next,
        SlotIn L own x ∧ x.1 = t := fun x hx => hp x (List.mem_cons_of_mem _ hx)
    obtain ⟨file1, cur1, hrun, hstep⟩ :=
      relinkChunks_step str start relink moveLast h hcur (fun x hx => (hp x hx).1) hn
    have hlink : (chunkHeap file s).next.1 = cur.toast.indexAttached :=
      (hp' _ List.mem_cons_self).2.trans (hst.symm.trans hcur.attached.symm)
    have hstay : cur1 = { cur with nextOffset := (chunkHeap file s).next.2 } :=
      hstep.cursor.trans (if_pos hlink)
    have hrel1 : ∀ cur' : Cursor A, cur'.toast = toast →
        relink cur' (chunkAt file1 (Chain.after (chunkHeap file1) n (chunkHeap file s).next))
          = { chunkAt file1 (Chain.after (chunkHeap file1) n (chunkHeap file s).next) with
              toastIndex := link.1, nextOffset := link.2 } := by
      intro cur' hcur'
      rw [hstep.after, hstep.last]
      exact hrel cur' hcur'
    obtain ⟨hw2, hc2, hi2, ht2⟩ := @ih file1 cur1 _ (start + chunkSize) hstep.area hstep.at_next
      (by rw [hstay]; exact htoast) (by rw [hstep.path]; exact hp')
      (by rw [hstep.path]; exact (List.nodup_cons.mp hn).2) hrel1
    rw [hstep.path] at hw2
    rw [hrun]
    refine ⟨(hstep.writes.mono ?_).comp (hw2.mono ?_), ?_, ?_, ht2⟩
    · intro k d hd
      exact ⟨s, List.mem_cons_self, hd⟩
    · intro k d hd
      exact pathBytes_mono (fun x hx => List.mem_cons_of_mem _ hx) hd
    · intro y hy
      have hcongr : ∀ x, SlotIn L own x →
          Chain.rewrite (chunkHeap file1) (overlays str chunkSize (n + 1) (start + chunkSize))
              (chunkHeap file s).next x
            = Chain.rewrite (Function.update (chunkHeap file) s { chunkHeap file s with
                data := overlay str start chunkSize (chunkHeap file s).data })
              (overlays str chunkSize (n + 1) (start + chunkSize)) (chunkHeap file s).next x := by
        refine fun x hx => Chain.rewrite_congr hstep.heap ?_ x hx
        intro z hz
        rw [length_overlays, Chain.path_update_data] at hz
        exact (hp' z hz).1
      have hmem := Chain.after_mem_path (chunkHeap file) (chunkHeap file s).next
          (Nat.lt_succ_self n)
      have hover : overlays str chunkSize (n + 1 + 1) start
          = overlay str start chunkSize :: overlays str chunkSize (n + 1) (start + chunkSize) := by
        rw [overlays_succ, if_neg (Nat.succ_ne_zero n)]
      rw [hc2 y hy, hstep.after, hover, Chain.rewrite]
      exact Chain.setNext_congr (hcongr _ (hp' _ hmem).1) (hcongr y hy)
    · rw [hi2, hstay]

/-! ## 4. Fresh chunks

The new chunks lie one behind the other, each linked to the next, and no chain has come to them
before. -/

theorem writeChunks_succ (file : ZgdbFile A) (pos : A) (used toastIndex : Nat) (s : CString)
    (start lastLen lastToast n : Nat) :
    writeChunks file pos used toastIndex s start lastLen lastToast (n + 1)
      = writeChunks (fwriteChunk file pos used
          { data := overlay s start (if n = 0 then lastLen else chunkSize) clearedChunk
            nextOffset := if n = 0 then 0 else (used + 1) * chunkRecord
            toastIndex := if n = 0 then lastToast else toastIndex })
          pos (used + 1) toastIndex s (start + chunkSize) lastLen lastToast n := by
  cases n <;> rfl

/-- The bytes of `n` slots of a toast from slot `used` on, with their type bytes. -/
def slotBytes (t used n : Nat) : Nat → Nat → Prop :=
  Layout.span t (sizeofToast + used * chunkRecord) (sizeofToast + (used + n) * chunkRecord)

theorem not_slotBytes_header {t used n k d : Nat} (hd : d < sizeofToast) :
    ¬ slotBytes t used n k d := by
  rintro ⟨_, h, _⟩
  omega

/-- The chunks below slot `used` are not among the slots from `used` on. -/
theorem not_slotBytes {t used n i : Nat} {k d : Nat} (hi : i < used)
    (hd : chunkBytes (t, i * chunkRecord) k d) : ¬ slotBytes t used n k d := by
  obtain ⟨_, _, h1⟩ := hd
  rintro ⟨_, h2, _⟩
  simp only [chunkStart, chunkRecord, sizeofTextChunk] at h1 h2
  omega

theorem slotIn_of_lt {t i n : Nat} (ht : t ∈ own) (hi : i < n)
    (hfit : sizeofToast + n * chunkRecord ≤ L.len t) : SlotIn L own (t, i * chunkRecord) := by
  refine ⟨ht, i, rfl, le_trans ?_ hfit⟩
  exact Nat.add_le_add_left (Nat.mul_le_mul_right _ hi) _

/-- One chunk with its type byte. -/
theorem Area.fwriteChunk (h : Area L file own) {t used : Nat} (ht : t ∈ own)
    (hfit : sizeofToast + (used + 1) * chunkRecord ≤ L.len t) {pos : A}
    (hpos : pos = blockPos file t) (c : TextChunk) :
    Writes L (slotBytes t used 1) file (Zgdb.fwriteChunk file pos used c) ∧
      chunkAt (Zgdb.fwriteChunk file pos used c) (t, used * chunkRecord) = c := by
  have hsh := h.shows t ht
  have hs : SlotIn L own (t, used * chunkRecord) := slotIn_of_lt ht (Nat.lt_succ_self used) hfit
  have hbyte : Writes L (slotBytes t used 1) file
      (fwriteAt byteK file pos (sizeofToast + used * chunkRecord) ElementType.textChunk.code) := by
    rw [hpos, ← hsh.pos]
    refine (writes_fwriteAt hsh.mem ?_).mono ?_
    · simp only [byteK, chunkRecord, sizeofTextChunk] at hfit ⊢
      omega
    · rintro k d ⟨hk, h1, h2⟩
      refine ⟨hk, h1, ?_⟩
      simp only [byteK, chunkRecord, sizeofTextChunk] at h2 ⊢
      omega
  have h1 : Area L _ own := h.writes hbyte fun t _ d hd => not_slotBytes_header hd
  obtain ⟨hw, hc⟩ := h1.put hs c
  have hput : Zgdb.fwriteChunk file pos used c = fwriteAt textChunkK
      (fwriteAt byteK file pos (sizeofToast + used * chunkRecord) ElementType.textChunk.code)
      (blockPos (fwriteAt byteK file pos (sizeofToast + used * chunkRecord)
        ElementType.textChunk.code) t) (chunkStart (t, used * chunkRecord)) c := by
    rw [hbyte.blockPos_eq, ← hpos]
    rfl
  rw [hput]
  refine ⟨hbyte.comp (hw.mono ?_), by rw [hc _ hs, if_pos rfl]⟩
  rintro k d ⟨hk, h1, h2⟩
  refine ⟨hk, ?_, ?_⟩ <;>
    · simp only [chunkStart, chunkRecord, sizeofTextChunk] at h1 h2 ⊢
      omega

/-- **The writing loop lays out fresh chunks** in the slots from `used` on. -/
theorem writeChunks_spec {lastLen lastToast toastIndex t : Nat} (n : Nat) {file : ZgdbFile A}
    {pos : A} {used start : Nat} (h : Area L file own) (ht : t ∈ own)
    (hfit : sizeofToast + (used + n) * chunkRecord ≤ L.len t) (hpos : pos = blockPos file t) :
    Writes L (slotBytes t used n) file
        (writeChunks file pos used toastIndex str start lastLen lastToast n) ∧
      ∀ i < n, chunkAt (writeChunks file pos used toastIndex str start lastLen lastToast n)
          (t, (used + i) * chunkRecord)
        = { data := overlay str (start + chunkSize * i) (if i + 1 = n then lastLen else chunkSize)
              clearedChunk
            nextOffset := if i + 1 = n then 0 else (used + i + 1) * chunkRecord
            toastIndex := if i + 1 = n then lastToast else toastIndex } := by
  induction n generalizing file used start with
  | zero => exact ⟨Writes.refl, fun i hi => absurd hi (Nat.not_lt_zero i)⟩
  | succ n ih =>
    have hfit1 : sizeofToast + (used + 1) * chunkRecord ≤ L.len t :=
      le_trans (Nat.add_le_add_left (Nat.mul_le_mul_right _ (by omega)) _) hfit
    have hfit2 : sizeofToast + (used + 1 + n) * chunkRecord ≤ L.len t := by
      rwa [show used + 1 + n = used + (n + 1) by omega]
    rw [writeChunks_succ]
    generalize hc : ({ data := overlay str start (if n = 0 then lastLen else chunkSize) clearedChunk
                       nextOffset := if n = 0 then 0 else (used + 1) * chunkRecord
                       toastIndex := if n = 0 then lastToast else toastIndex } : TextChunk) = c
    obtain ⟨hw1, hc1⟩ := h.fwriteChunk ht hfit1 hpos c
    have h1 := h.writes hw1 fun t _ d hd => not_slotBytes_header hd
    obtain ⟨hw2, hc2⟩ := @ih _ _ (start + chunkSize) h1 hfit2
      (hpos.trans (hw1.blockPos_eq t).symm)
    refine ⟨(hw1.mono ?_).comp (hw2.mono ?_), ?_⟩
    · rintro k d ⟨hk, h3, h4⟩
      refine ⟨hk, h3, lt_of_lt_of_le h4 ?_⟩
      exact Nat.add_le_add_left (Nat.mul_le_mul_right _ (by omega)) _
    · rintro k d ⟨hk, h3, h4⟩
      refine ⟨hk, le_trans ?_ h3, by rwa [show used + (n + 1) = used + 1 + n by omega]⟩
      exact Nat.add_le_add_left (Nat.mul_le_mul_right _ (by omega)) _
    · intro i hi
      cases i with
      | zero =>
        have hs : SlotIn L own (t, used * chunkRecord) :=
          slotIn_of_lt ht (Nat.lt_succ_self used) hfit1
        have hkeep := h1.chunkAt_eq hw2 hs fun d hd =>
          not_slotBytes (Nat.lt_succ_self used) hd
        have h0 : 0 + 1 = n + 1 ↔ n = 0 := by omega
        simp only [Nat.mul_zero, Nat.add_zero, h0]
        rw [hkeep, hc1, ← hc]
      | succ i =>
        have := hc2 i (by omega)
        have he : used + 1 + i = used + (i + 1) := by omega
        have hst : start + chunkSize + chunkSize * i = start + chunkSize * (i + 1) := by
          rw [Nat.mul_succ]; omega
        rw [he, hst] at this
        rw [this]
        simp only [Nat.add_right_cancel_iff]

/-- **A fresh chain spells its part of the string.** -/
theorem fresh_chain {lastLen lastToast t n used start : Nat} {file : ZgdbFile A}
    (hc : ∀ i < n, chunkAt file (t, (used + i) * chunkRecord)
        = { data := overlay str (start + chunkSize * i) (if i + 1 = n then lastLen else chunkSize)
              clearedChunk
            nextOffset := if i + 1 = n then 0 else (used + i + 1) * chunkRecord
            toastIndex := if i + 1 = n then lastToast else t }) :
    Chain.path (chunkHeap file) n (t, used * chunkRecord)
        = (List.range n).map (fun i => (t, (used + i) * chunkRecord)) ∧
      Spells str lastLen n start (Chain.read (chunkHeap file) n (t, used * chunkRecord)) := by
  have hlink : ∀ i, i + 1 < n → (chunkHeap file (t, (used + i) * chunkRecord)).next
      = (t, (used + (i + 1)) * chunkRecord) := by
    intro i hi
    rw [chunkHeap, hc i (by omega)]
    simp only [show ¬ i + 1 = n by omega, if_false]
    rfl
  have hpath := Chain.path_of_links (fun i => (t, (used + i) * chunkRecord)) hlink
  refine ⟨hpath, List.replicate n clearedChunk, List.length_replicate, ?_⟩
  rw [Chain.read]
  simp only [Nat.add_zero] at hpath
  rw [hpath, overlays_eq_map, List.map_map]
  refine List.ext_getElem (by simp) ?_
  intro i h1 h2
  have hi : i < n := by simpa using h1
  simp [chunkHeap, hc i hi]

end Loops

end Zgdb
