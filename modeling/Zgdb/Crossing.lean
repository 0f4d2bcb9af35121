/-
# Updates of texts, over the runs of the store

Three results on what updates of texts do in the states that runs reach, each with a document of a
new store for which it holds and one for which its condition fails.

* In a clean run a text grows across toasts as it should while its chain lies in the first of them
  (`crossing_update`).  When it grows again, the code fills what is behind the toast in which the
  chain ends; there is none, and it writes to the block of index 0, that of the root
  (`root_overwritten`).
* In an orderly run every toast that the chunks of a document visit is on its list, so a deletion
  frees them all (`toasts_owned`).  When a second text grows across toasts, the first toast loses
  the toast that followed it (`toast_cut_off`).
* In a clean run a clean update leaves all other elements alone (`text_update_frame`).  A text that
  fills its chunk needs no growth across toasts to overwrite its neighbour
  (`neighbour_overwritten`).
-/
import Zgdb.Again
import Zgdb.Frame
import Zgdb.RoundTrip

namespace Zgdb

open Zgdb.Lib AddrSpace

variable {A : Type} [BlockSpace A]

/-! ## 1. The first document

A document with texts in a new store, and what the results below use of its toast: which chunks are
in it, that no toast follows it, and that an orderly run leads here. -/

/-- A document with texts under the root of a new store. -/
structure FirstTexts (env : Env A) (file : ZgdbFile A) (schema : DocumentSchema) (n t : Nat) :
    Prop where
  reaches : Reaches env (Call.Orderly env) file
  store : Store file (rootTree.insertUnder 0 n)
    (Function.update (fun _ => []) n (storeElements 0 schema.elements))
    (Function.update (fun _ => []) n [t])
  mem : n ∈ (rootTree.insertUnder 0 n).nodes
  first : (getDocumentHeader file n).firstToastIndex = t
  next : (toastAt file t).nextToastIndex = 0
  capacity : (toastAt file t).capacity = toastRequest schema + sizeofToast
  written : Written file t 0 schema.elements
  undead : Undead file
  newIndexes : indexInitialCapacity - 1 ≤ file.freeList.newIndexesCount + 2

theorem create_firstTexts (env : Env A) {schema : DocumentSchema} (hbuilt : schema.Built)
    (hcomplete : schema.Complete) (hreq : schema.reqToast = true) :
    ∃ file n t, FirstTexts env file schema n t := by
  obtain ⟨hclean, file, n, own', hrun, hi, hend⟩ := create_first env 0 keyA hbuilt hcomplete
  obtain ⟨t, rfl, -, hcap, -⟩ := hend.text hreq
  have hn : n ∈ (rootTree.insertUnder 0 n).nodes :=
    (Forest.mem_nodes_insertUnder (by simp) List.mem_cons_self).mpr (Or.inl rfl)
  obtain ⟨hfirst, -, hnext⟩ := hi.list
  have hT : IsToast file t := (hi.store.doc n hn).texts.toast t (by
    rw [Function.update_self]
    exact List.mem_cons_self)
  refine ⟨file, n, t, ⟨?_, hi.store, hn, hfirst, hnext, ?_, hfirst ▸ hi.written, hend.undead, ?_⟩⟩
  · have hl : (Call.create 0 0 keyA schema).Legal (init 0 : ZgdbFile A) :=
      ⟨live_init 0, hbuilt, hcomplete⟩
    refine (Reaches.new 0).snoc hl ⟨hclean, trivial⟩ ?_
    rw [Call.exec, hrun]
    rfl
  · rw [← hT.capacity]
    exact hcap
  · exact (Nat.le_of_eq (init_undead 0).2.symm).trans hend.room

/-! ## 2. A short text that grows

A text of one chunk lies in one slot of the first toast.  When it grows by more chunks than the
toast has left the chain is short enough to be followed by hand. -/

section Store

variable {env : Env A} {file file' : ZgdbFile A} {T : Forest Nat} {es : Nat → List StoredElement}
  {own : Nat → List Nat} {k : Nat} {key input : CString} {pre post : List StoredElement}
  {name : Name} {f : FirstTextChunk}

/-- The one chunk of a short text is in the first toast. -/
theorem textPath_short (file : ZgdbFile A) (first : Nat) (h : chunkCount f.size = 1) :
    textPath file first f = [(first, f.offsetInToast)] := by
  rw [textPath, h]
  rfl

/-- A short text crosses when the input needs more chunks than are left. -/
theorem crosses_short (file : ZgdbFile A) (first : Nat) {n : Nat} (hmod : f.size % chunkSize ≠ 0)
    (hone : chunkCount f.size = 1) (hlt : f.size < n)
    (h : chunksLeft (toastAt file first) + 1 < chunkCount n) : Crosses file first f n := by
  have hmono := chunkCount_mono (le_bumped n)
  refine ⟨hlt, ?_, ?_⟩
  · simp only [growth_eq hmod, hone]
    omega
  · simp only [growth_eq hmod, hone]
    omega

/-- A toast has no more chunks left than its capacity has slots. -/
theorem Texts.chunksLeft_le {own : List Nat} {first : Nat} {fs : List FirstTextChunk}
    (h : Texts file own first fs) (hf : first ∈ own) {m : Nat}
    (hc : (toastAt file first).capacity = m * chunkRecord + sizeofToast) :
    chunksLeft (toastAt file first) ≤ m := by
  rw [chunksLeft_eq (h.fits first hf), hc, Nat.add_sub_cancel,
    Nat.mul_div_cancel _ (by decide : 0 < chunkRecord)]
  exact Nat.sub_le _ _

variable (env) in
/-- **A growth across toasts**, as a call. -/
theorem exec_across (hs : Store file T es own) (hk : k ∈ T.nodes)
    (hes : es k = pre ++ ⟨name, .text f⟩ :: post) (hkey : key.chars = name.chars)
    (hmod : f.size % chunkSize ≠ 0)
    (hcross : Crosses file (getDocumentHeader file k).firstToastIndex f (input.strlen + 1))
    (hsafe : CrossSafe file (getDocumentHeader file k).firstToastIndex f (input.strlen + 1)) :
    ∃ file' f' t, (Call.update k key input).exec env file = some file' ∧
      TextUpdated file file' T es own k pre name f post input f' (t :: own k) ∧
      Crossed file file' (own k) (getDocumentHeader file k).firstToastIndex t f' := by
  obtain ⟨file', f', t, hrun, h⟩ := updateText_across hs hk 0 hes hmod hcross hsafe
  refine ⟨file', f', t, ?_, h⟩
  rw [Call.exec, updateElement_text hs hk 0 hes hkey, hrun]
  rfl

/-- The condition of a clean update, for the text that is there. -/
theorem Store.updateClean (hs : Store file T es own) (hk : k ∈ T.nodes)
    (hes : es k = pre ++ ⟨name, .text f⟩ :: post) (hkey : key.chars = name.chars)
    (hmod : f.size % chunkSize ≠ 0)
    (hsafe : CrossSafe file (getDocumentHeader file k).firstToastIndex f (input.strlen + 1)) :
    UpdateClean file k key input := by
  intro g hg
  obtain rfl := Option.some.inj ((hs.storedText_eq hk hes hkey).symm.trans hg)
  exact ⟨fun _ => hmod, fun _ => hsafe⟩

end Store

/-! ## 3. The first growth

The first document with two texts, of which one grows out of the toast. -/

/-- The text of `keyA`, as a call takes it. -/
def stringKeyA : CString := ⟨[97], keyA.noNul⟩

def stringKeyB : CString := ⟨[98], keyB.noNul⟩

/-- A schema of two short texts. -/
def twoTexts : DocumentSchema :=
  (addTextToSchema (addTextToSchema (initSchema 2) keyA stringA).2 keyB stringA).2

theorem twoTexts_built : twoTexts.Built := .text _ _ (.text _ _ (.init 2))

/-- A text of `n` characters. -/
def longString (n : Nat) : CString := ⟨List.replicate n 98, by simp⟩

@[simp] theorem strlen_longString (n : Nat) : (longString n).strlen = n := by
  simp [longString, CString.strlen]

/-- What the toast of a first document holds at most. -/
theorem FirstTexts.chunksLeft_le {env : Env A} {file : ZgdbFile A} {schema : DocumentSchema}
    {n t : Nat} (h : FirstTexts env file schema n t) (hwf : schema.Wf) :
    chunksLeft (toastAt file t) ≤ 2 * chunksOf schema.elements := by
  have htexts := (h.store.doc n h.mem).texts
  rw [h.first, Function.update_self] at htexts
  refine htexts.chunksLeft_le List.mem_cons_self ?_
  rw [h.capacity, hwf.toastRequest_eq]

/-- **The short text of a first document grows across toasts.** -/
theorem FirstTexts.across {env : Env A} {file : ZgdbFile A} {schema : DocumentSchema}
    {n t : Nat} (h : FirstTexts env file schema n t) (hwf : schema.Wf) (f : FirstTextChunk)
    (input : CString) (hmod : f.size % chunkSize ≠ 0) (hone : chunkCount f.size = 1)
    (hlt : f.size < input.strlen + 1)
    (hlong : 2 * chunksOf schema.elements + 1 < chunkCount (input.strlen + 1)) :
    Crosses file (getDocumentHeader file n).firstToastIndex f (input.strlen + 1) ∧
      CrossSafe file (getDocumentHeader file n).firstToastIndex f (input.strlen + 1) := by
  rw [h.first]
  refine ⟨crosses_short file t hmod hone hlt ?_, ?_, ?_, ?_⟩
  · have := h.chunksLeft_le hwf
    omega
  · intro x hx
    rw [textPath_short file t hone, List.mem_singleton] at hx
    rw [hx]
  · refine findRelevantIndex_isSome h.store.blocks.placed.sound ?_ _
    have hnew := h.newIndexes
    have hmany : indexInitialCapacity - 1 = 49999 := rfl
    omega
  · refine h.undead.noSpill h.store.blocks ?_
    rw [crossRequest, h.capacity]
    exact Nat.lt_of_lt_of_le (by decide : 0 < sizeofToast)
      ((Nat.le_add_left _ _).trans (Nat.le_add_left _ _))

theorem FirstTexts.live {env : Env A} {file : ZgdbFile A} {schema : DocumentSchema}
    {n t : Nat} (h : FirstTexts env file schema n t) : Live file n := h.store.live_iff.mpr h.mem

/-- What a first document is after one of its texts has grown across toasts. -/
structure FirstCrossed (env : Env A) (file file' : ZgdbFile A) (schema : DocumentSchema)
    (pre post : List StoredElement) (name : Name) (input : CString) (n t t' : Nat)
    (f' : FirstTextChunk) : Prop where
  reaches : Reaches env (Call.Orderly env) file'
  store : Store file' (rootTree.insertUnder 0 n)
    (Function.update (Function.update (fun _ => []) n (storeElements 0 schema.elements)) n
      (pre ++ ⟨name, .text f'⟩ :: post))
    (Function.update (Function.update (fun _ => []) n [t]) n [t', t])
  first : (getDocumentHeader file' n).firstToastIndex = t
  offset : ∀ f, storeElements 0 schema.elements = pre ++ ⟨name, .text f⟩ :: post →
    f'.offsetInToast = f.offsetInToast
  size : f'.size = bumped (input.strlen + 1)
  crossed : Crossed file file' [t] t t' f'
  full : chunksLeft (toastAt file' t) = 0
  newIndexes : indexInitialCapacity - 1 ≤ file'.freeList.newIndexesCount + 3

/-- **The first growth.** -/
theorem FirstTexts.grow {env : Env A} {file : ZgdbFile A} {schema : DocumentSchema} {n t : Nat}
    (h : FirstTexts env file schema n t) (key input : CString) (hwf : schema.Wf)
    (f : FirstTextChunk) {pre post : List StoredElement} {name : Name}
    (hes : storeElements 0 schema.elements = pre ++ ⟨name, .text f⟩ :: post)
    (hkey : key.chars = name.chars) (hmod : f.size % chunkSize ≠ 0) (hone : chunkCount f.size = 1)
    (hlt : f.size < input.strlen + 1)
    (hlong : 2 * chunksOf schema.elements + 1 < chunkCount (input.strlen + 1)) :
    ∃ file' t' f', FirstCrossed env file file' schema pre post name input n t t' f' := by
  obtain ⟨hcross, hsafe⟩ := h.across hwf f input hmod hone hlt hlong
  have hes' : Function.update (fun _ => []) n (storeElements 0 schema.elements) n
      = pre ++ (⟨name, .text f⟩ : StoredElement) :: post := by rw [Function.update_self, hes]
  obtain ⟨file', f', t', hrun, hu, hc⟩ :=
    exec_across env h.store h.mem hes' hkey hmod hcross hsafe
  rw [h.first] at hc
  rw [Function.update_self] at hc
  have hown : Function.update (fun _ => []) n [t] n = [t] := Function.update_self ..
  have hstore := hu.edited.store
  rw [hown] at hstore
  have hhead : (getDocumentHeader file' n).firstToastIndex = t := by
    rw [hu.edited.headers n h.mem, h.first]
  have htexts := (hstore.doc n h.mem).texts
  rw [Function.update_self, hhead] at htexts
  have hsize := hu.size
  rw [if_neg (by omega)] at hsize
  refine ⟨file', t', f', ⟨?_, hstore, hhead, ?_, hsize, hc, ?_, ?_⟩⟩
  · have hl : (Call.update n key input).Legal file := h.live
    refine h.reaches.snoc hl ⟨h.store.updateClean h.mem hes' hkey hmod hsafe, ?_⟩ hrun
    intro g hg _
    rw [h.first, h.next]
  · intro g hg
    have hfg : f = g := by
      have he := hes.symm.trans hg
      simpa using he
    rw [← hfg, hu.offset]
  · by_contra hne
    have htt : t' = t := (htexts.room hne).1 t' List.mem_cons_self
    have hal := (h.store.doc n h.mem).texts.alive t (by rw [hown]; exact List.mem_cons_self)
    exact hc.fresh (htt ▸ hal)
  · exact h.newIndexes.trans (by have := hc.newIndexes; omega)

/-! ## 4. Growth across toasts

One growth is as it should be; the second growth of the same text overwrites the root. -/

section Runs

variable {env : Env A} {file : ZgdbFile A} {k : Nat} {key input : CString} {f : FirstTextChunk}

/-- **A text grows across toasts** as it should while its chain lies in the first one.  The call
returns UPDATE_OK, the text reads as the input, and only the block of the document, those of its
toasts and the new one have changed.  `CrossSafe` is asked of the state before the call; it fails
from the second such growth of one text on (`root_overwritten`). -/
theorem crossing_update (h : Reaches env (Call.Clean env) file) (hl : Live file k)
    (hf : storedText file k key = some f) (hmod : f.size % chunkSize ≠ 0)
    (hcross : Crosses file (getDocumentHeader file k).firstToastIndex f (input.strlen + 1))
    (hsafe : CrossSafe file (getDocumentHeader file k).firstToastIndex f (input.strlen + 1))
    (p : Nat) :
    ∃ file', updateElement env.strtod file (documentAt file k p) key input
      = some (.updateOk, file') ∧ GrownProperly file file' k key input := by
  obtain ⟨T, es, own, hs⟩ := h.sound fun _ _ _ hc => hc
  have hk := hs.live_iff.mp hl
  obtain ⟨pre, name, post, hes, hkey⟩ := hs.split_of_storedText hk hf
  obtain ⟨file', f', t, hrun, hu, hc⟩ := updateText_across hs hk p hes hmod hcross hsafe
  refine ⟨file', by rw [updateElement_text hs hk p hes hkey, hrun]; rfl, ?_⟩
  have hsize := hu.size
  rw [if_neg (by have := hcross.1; omega)] at hsize
  have hread := hu.reads (by rw [hsize]; exact bumped_mod _)
  have hfm : f ∈ textsOf (es k) :=
    mem_textsOf.mpr ⟨_, by rw [hes]; exact List.mem_append_right _ List.mem_cons_self, rfl⟩
  have hfirst := (hs.doc k hk).texts.first_of_mem hfm
  have hlist : OnToastList file k (getDocumentHeader file k).firstToastIndex := by
    obtain ⟨ts, hts, -⟩ := (hs.doc k hk).list
    cases ts with
    | nil => exact absurd hs.root_mem (hs.toast_notMem hk (hts ▸ hfirst))
    | cons x ts => exact ⟨x :: ts, hts, hts.1 ▸ List.mem_cons_self⟩
  have hblocks : ∀ j, Used file j → j ≠ k → ¬ OnToastList file k j → ¬ Visits file k j →
      ¬ (Alive file' j ∧ ¬ Alive file j) → SameBytes file file' j := by
    intro j hj hjk hjl _ hjnew
    by_cases hjo : j ∈ own k
    · exact (hc.agrees j hjo fun he => hjl (he ▸ hlist)).sameBytes
    · refine (hu.edited.agrees j hj hjk ?_).sameBytes
      intro hjt
      rcases List.mem_cons.mp hjt with rfl | hjt
      · exact hjnew ⟨(hu.edited.alive j).mpr (Or.inr List.mem_cons_self), hc.fresh⟩
      · exact hjo hjt
  have h0 : ∀ {t}, t ∈ own k → t ≠ 0 := fun ht he => hs.toast_notMem hk ht (he ▸ hs.root_mem)
  have hk0 : 0 ≠ k := by
    rintro rfl
    rw [hs.own_root] at hfirst
    cases hfirst
  refine ⟨?_, hblocks 0 (Or.inl (hs.alive hs.root_mem)) hk0
    (fun ht => h0 (hs.own_of_list hk ht) rfl)
    (fun ht => h0 (hs.own_of_visits hk ht) rfl) fun ⟨_, hn⟩ => hn (hs.alive hs.root_mem), hblocks⟩
  rw [hu.edited.store.textOf_eq hk (by rw [Function.update_self]) hkey,
    hu.edited.headers k hk, hread]

end Runs

/-- The one text of a document grows across toasts, in a file of bytes. -/
theorem crossing_update_first : ∃ (file file' : ZgdbFile Nat) (n : Nat),
    Live file n ∧ updateElement flatEnv.strtod file (documentAt file n 0) stringKeyA
      (longString 150)
        = some (.updateOk, file') ∧ GrownProperly file file' n stringKeyA (longString 150) := by
  obtain ⟨file, n, t, h⟩ := create_firstTexts flatEnv oneText_built (by decide) (by decide)
  have hes : Function.update (fun _ => []) n (storeElements 0 oneText.elements) n
      = [] ++ (⟨keyA, .text ⟨2, 0⟩⟩ : StoredElement) :: [] := Function.update_self ..
  have hf := h.store.storedText_eq h.mem hes (rfl : stringKeyA.chars = keyA.chars)
  have hmod : 2 % chunkSize ≠ 0 := by decide
  obtain ⟨hcross, hsafe⟩ := h.across oneText_built.wf ⟨2, 0⟩ (longString 150) hmod
    (by decide) (by rw [strlen_longString]; decide) (by rw [strlen_longString]; decide)
  have hreach : Reaches flatEnv (Call.Clean flatEnv) file :=
    h.reaches.mono fun _ _ hc => hc.1
  obtain ⟨file', hrun, hgrown⟩ := crossing_update hreach h.live hf hmod hcross hsafe 0
  exact ⟨file, file', n, h.live, hrun, hgrown⟩

/-- The chain of the text ends in the new toast. -/
theorem Crossed.after {file file' : ZgdbFile A} {own : List Nat} {first t : Nat}
    {f' : FirstTextChunk}
    (h : Crossed file file' own first t f') (hpos : 0 < f'.size) :
    (Chain.after (chunkHeap file') (chunkCount f'.size - 1) (first, f'.offsetInToast)).1 = t := by
  obtain ⟨path, n, hn, hpath⟩ := h.tail
  obtain ⟨m, hm⟩ : ∃ m, chunkCount f'.size = m + 1 :=
    Nat.exists_eq_add_one.mpr (chunkCount_pos hpos)
  obtain ⟨i, rfl⟩ : ∃ i, n = i + 1 := Nat.exists_eq_add_one.mpr hn
  rw [textPath, hm, Chain.path_succ_last, List.range_succ, List.map_append, ← List.append_assoc]
    at hpath
  have hlast := congrArg List.getLast? hpath
  simp only [List.map_cons, List.map_nil, List.getLast?_append, List.getLast?_singleton,
    Option.some_or, Option.some.injEq] at hlast
  rw [hm, Nat.add_sub_cancel, hlast]

/-- A text grows across toasts, and again: the second growth writes to the block of the root. -/
theorem root_overwritten : ∃ (file file' : ZgdbFile RecordPos) (n : Nat) (f : FirstTextChunk),
    Reaches recordEnv (Call.Clean recordEnv) file ∧ Live file n ∧
      storedText file n stringKeyA = some f ∧ f.size % chunkSize ≠ 0 ∧
      Crosses file (getDocumentHeader file n).firstToastIndex f ((longString 300).strlen + 1) ∧
      updateElement recordEnv.strtod file (documentAt file n 0) stringKeyA (longString 300)
        = some (.updateOk, file') ∧
      ¬ GrownProperly file file' n stringKeyA (longString 300) := by
  obtain ⟨file1, n, t, h⟩ := create_firstTexts recordEnv oneText_built (by decide) (by decide)
  have hes : storeElements 0 oneText.elements
      = [] ++ (⟨keyA, .text ⟨2, 0⟩⟩ : StoredElement) :: [] :=
    rfl
  obtain ⟨file, t', f, hc⟩ := h.grow stringKeyA (longString 150)
    oneText_built.wf ⟨2, 0⟩ hes rfl (by decide) (by decide) (by rw [strlen_longString]; decide)
    (by rw [strlen_longString]; decide)
  have hsize : f.size = 151 := by rw [hc.size, strlen_longString]; decide
  have hmod : f.size % chunkSize ≠ 0 := by rw [hsize]; decide
  have hs := hc.store
  have hes' : Function.update (Function.update (fun _ => []) n (storeElements 0 oneText.elements)) n
      ([] ++ (⟨keyA, .text f⟩ : StoredElement) :: []) n = [] ++ ⟨keyA, .text f⟩ :: [] :=
    Function.update_self ..
  have hf := hs.storedText_eq h.mem hes' (rfl : stringKeyA.chars = keyA.chars)
  have hlong : chunkCount (bumped ((longString 300).strlen + 1)) = 10 := by
    rw [strlen_longString]; decide
  have hshort : chunkCount f.size = 5 := by rw [hsize]; decide
  have hcross : Crosses file t f ((longString 300).strlen + 1) := by
    refine ⟨by rw [hsize, strlen_longString]; decide, ?_, ?_⟩
    · simp only [growth_eq hmod, hlong, hshort]
      decide
    · simp only [growth_eq hmod, hlong, hshort, hc.full]
      decide
  have htt : t' ≠ t := by
    rintro rfl
    exact hc.crossed.fresh ((h.store.doc n h.mem).texts.alive t' (by
      rw [Function.update_self]
      exact List.mem_cons_self))
  have hindex : ∃ r, findRelevantIndex file.freeList
      (crossRequest file t f ((longString 300).strlen + 1)) = some r := by
    refine findRelevantIndex_isSome hs.blocks.placed.sound ?_ _
    have hnew := hc.newIndexes
    have hmany : indexInitialCapacity - 1 = 49999 := rfl
    omega
  obtain ⟨file', hrun, hbyte⟩ := updateText_again hs h.mem 0 hes' hmod hc.first hcross hc.full
    (hc.crossed.after (by rw [hsize]; decide)) htt hc.crossed.last hindex (noSpill_record _ _)
  refine ⟨file, file', n, f, hc.reaches.mono fun _ _ hc => hc.1, hs.live_iff.mpr h.mem, hf, hmod,
    hc.first ▸ hcross, ?_, ?_⟩
  · rw [updateElement_text hs h.mem 0 hes' rfl, hrun]
    rfl
  · intro hgrown
    rw [hlong, hshort] at hbyte
    have hcap : 8 < blockCapacity file 0 :=
      Nat.lt_of_lt_of_le (by decide) (hs.isDocument hs.root_mem).header_le
    have hsame := (hgrown.root 8 hcap).symm.trans hbyte
    generalize cellByte (blockAt file 0 8) = b at hsame
    have hdiff := congrArg (fun x => x - b) hsame
    simp [UInt8.add_comm b] at hdiff

/-! ## 5. The toasts of a document

The same document, but now the other text grows.  Its chain lies in the first toast, so nothing is
overwritten; the toast of the first growth is no longer on the list. -/

/-- **Toasts are owned** in every state of an orderly run: each live document has a toast list
without repetitions, on which are all the toasts that the chunks of its texts visit, and no two
documents share one.  So a deletion of a document, which frees what is on its list, leaves no toast
of its texts ALIVE. -/
theorem toasts_owned {env : Env A} {file : ZgdbFile A} (h : Reaches env (Call.Orderly env) file) :
    ToastsOwned file ∧ ∀ d p, (Call.delete d p).Legal file →
      ∃ file', deleteDocument (loopBound file) file (documentAt file d p) = some file' ∧
        ∀ t, Visits file d t → Dead file' t := by
  obtain ⟨T, es, own, hs, hl⟩ := h.tidy
  exact ⟨hs.toastsOwned hl, fun d p hlegal => exec_delete_visited env hs hl hlegal⟩

/-- A document with a toast, in a file of bytes. -/
theorem toasts_owned_first : ∃ (file : ZgdbFile Nat) (n t : Nat),
    Live file n ∧ (getDocumentHeader file n).firstToastIndex = t ∧ Alive file t ∧
      ToastsOwned file := by
  obtain ⟨file, n, t, h⟩ := create_firstTexts flatEnv oneText_built (by decide) (by decide)
  refine ⟨file, n, t, h.live, h.first, ?_, (toasts_owned h.reaches).1⟩
  refine (h.store.doc n h.mem).texts.alive t ?_
  rw [Function.update_self]
  exact List.mem_cons_self

/-- Both texts of a document grow across toasts: the toast of the first one is on no list. -/
theorem toast_cut_off : ∃ file : ZgdbFile RecordPos,
    Reaches recordEnv (fun _ _ => True) file ∧ ¬ ToastsOwned file := by
  obtain ⟨file1, n, t, h⟩ := create_firstTexts recordEnv twoTexts_built (by decide) (by decide)
  have hes : storeElements 0 twoTexts.elements
      = [] ++ (⟨keyA, .text ⟨2, 0⟩⟩ : StoredElement) :: [⟨keyB, .text ⟨2, chunkRecord⟩⟩] := rfl
  obtain ⟨file2, t2, f2, hc⟩ := h.grow stringKeyA (longString 250)
    twoTexts_built.wf ⟨2, 0⟩ hes rfl (by decide) (by decide) (by rw [strlen_longString]; decide)
    (by rw [strlen_longString]; decide)
  -- the other text
  have hs := hc.store
  have hes' : Function.update (Function.update (fun _ => []) n (storeElements 0 twoTexts.elements))
      n
      ([] ++ (⟨keyA, .text f2⟩ : StoredElement) :: [⟨keyB, .text ⟨2, chunkRecord⟩⟩]) n
        = [⟨keyA, .text f2⟩] ++ (⟨keyB, .text ⟨2, chunkRecord⟩⟩ : StoredElement) :: [] :=
    Function.update_self ..
  have hmod : 2 % chunkSize ≠ 0 := by decide
  have hone : chunkCount 2 = 1 := by decide
  have hcross : Crosses file2 (getDocumentHeader file2 n).firstToastIndex ⟨2, chunkRecord⟩
      ((longString 40).strlen + 1) := by
    rw [hc.first]
    refine crosses_short file2 t hmod hone (by rw [strlen_longString]; decide) ?_
    rw [hc.full, strlen_longString]
    decide
  have hsafe : CrossSafe file2 (getDocumentHeader file2 n).firstToastIndex ⟨2, chunkRecord⟩
      ((longString 40).strlen + 1) := by
    rw [hc.first]
    refine ⟨?_, findRelevantIndex_isSome hs.blocks.placed.sound ?_ _, noSpill_record _ _⟩
    · intro x hx
      rw [textPath_short file2 t hone, List.mem_singleton] at hx
      rw [hx]
    · have hnew := hc.newIndexes
      have hmany : indexInitialCapacity - 1 = 49999 := rfl
      omega
  obtain ⟨file3, f3, t3, hrun, hu, hc3⟩ := exec_across recordEnv
    hs h.mem hes' (rfl : stringKeyB.chars = keyB.chars) hmod hcross hsafe
  have hl : (Call.update n stringKeyB (longString 40)).Legal file2 := hs.live_iff.mpr h.mem
  refine ⟨file3, (hc.reaches.mono fun _ _ _ => trivial).snoc hl trivial hrun, ?_⟩
  intro howned
  have hs3 := hu.edited.store
  rw [hc.first] at hc3
  have hhead : (getDocumentHeader file3 n).firstToastIndex = t := by
    rw [hu.edited.headers n h.mem, hc.first]
  obtain ⟨ts, hts, -, hall⟩ := howned.list n (hs3.live_iff.mpr h.mem)
  rw [hhead] at hts
  -- the list is the first toast and the newest
  have hlist : ∀ x ∈ ts, x = t ∨ x = t3 := by
    intro x hx
    rcases ts with _ | ⟨a, ts⟩
    · cases hx
    · obtain ⟨rfl, -, hrest⟩ := hts
      rw [hc3.next] at hrest
      rcases ts with _ | ⟨b, ts⟩
      · exact Or.inl (List.mem_singleton.mp hx)
      · obtain ⟨rfl, -, hend⟩ := hrest
        rw [hc3.last] at hend
        rcases ts with _ | ⟨c, ts⟩
        · simpa using hx
        · exact absurd hend.1.symm hend.2.1
  have hfirst1 : t ∈ Function.update (fun _ => ([] : List Nat)) n [t] n := by
    rw [Function.update_self]
    exact List.mem_cons_self
  have ht2 : Alive file2 t2 := (hs.doc n h.mem).texts.alive t2 (by
    rw [Function.update_self]
    exact List.mem_cons_self)
  refine absurd (hlist t2 (hall t2 ?_)) ?_
  · -- the grown text still goes there
    have hfm : f2 ∈ textsOf [(⟨keyA, .text f2⟩ : StoredElement)] := List.mem_cons_self
    have hkept := hu.edited.texts f2 (List.mem_append_left _ hfm)
    rw [hc.first] at hkept
    obtain ⟨path, m, hm, hpath⟩ := hc.crossed.tail
    refine ⟨f2, ?_, (t2, (0 + 0) * chunkRecord), ?_, rfl⟩
    · rw [hs3.firstChunks_eq h.mem, Function.update_self, textsOf_append_cons]
      exact List.mem_append_left _ hfm
    · rw [hhead, hkept.path, hpath]
      exact List.mem_append_right _ (List.mem_map.mpr ⟨0, List.mem_range.mpr hm, rfl⟩)
  · rintro (rfl | rfl)
    · exact hc.crossed.fresh ((h.store.doc n h.mem).texts.alive t2 hfirst1)
    · exact hc3.fresh ht2

/-! ## 6. What an update leaves alone -/

section Runs

variable {env : Env A} {file : ZgdbFile A} {k : Nat} {key input : CString} {f : FirstTextChunk}

/-- **Text updates do not interfere** in a clean run.  A clean update returns, whatever the input;
every other element of the document and every element of the other documents reads as before, in the
same order, and no document header is written. -/
theorem text_update_frame (h : Reaches env (Call.Clean env) file) (hl : Live file k)
    (hc : UpdateClean file k key input) (p : Nat) :
    ∃ status file', updateElement env.strtod file (documentAt file k p) key input
      = some (status, file') ∧ OthersKept file file' k key := by
  obtain ⟨T, es, own, hs⟩ := h.sound fun _ _ _ hc => hc
  have hk := hs.live_iff.mp hl
  obtain ⟨status, file', hrun, hu⟩ : ∃ status file', updateElement env.strtod file
      (documentAt file k p) key input = some (status, file') ∧ _ := updateElement_spec hs hk p hc
  exact ⟨status, file', hrun, hu.othersKept hs hk⟩

end Runs

/-- One of two texts grows across toasts, in a file of bytes: the other is left alone. -/
theorem text_update_frame_first : ∃ (file file' : ZgdbFile Nat) (n : Nat)
    (status : UpdateElementStatus), Live file n ∧
      updateElement flatEnv.strtod file (documentAt file n 0) stringKeyA (longString 250)
        = some (status, file') ∧ OthersKept file file' n stringKeyA := by
  obtain ⟨file, n, t, h⟩ := create_firstTexts flatEnv twoTexts_built (by decide) (by decide)
  have hes : Function.update (fun _ => []) n (storeElements 0 twoTexts.elements) n
      = [] ++ (⟨keyA, .text ⟨2, 0⟩⟩ : StoredElement) :: [⟨keyB, .text ⟨2, chunkRecord⟩⟩] :=
    Function.update_self ..
  obtain ⟨-, hsafe⟩ := h.across twoTexts_built.wf ⟨2, 0⟩ (longString 250) (by decide)
    (by decide) (by rw [strlen_longString]; decide) (by rw [strlen_longString]; decide)
  have hreach : Reaches flatEnv (Call.Clean flatEnv) file :=
    h.reaches.mono fun _ _ hc => hc.1
  obtain ⟨status, file', hrun, hkept⟩ := text_update_frame hreach h.live
    (h.store.updateClean h.mem hes (rfl : stringKeyA.chars = keyA.chars) (by decide) hsafe) 0
  exact ⟨file, file', n, status, h.live, hrun, hkept⟩

/-- A schema of a short text and one that fills its chunk. -/
def shortAndFull : DocumentSchema :=
  (addTextToSchema (addTextToSchema (initSchema 2) keyA stringA).2 keyB string31).2

theorem shortAndFull_built : shortAndFull.Built := .text _ _ (.text _ _ (.init 2))

/-- What a text of two bytes reads, from its one chunk. -/
theorem readText_two {file : ZgdbFile A} {t : Nat} (h : Named file t) :
    (readText file t ⟨2, 0⟩).data = cString (fit 2 ((chunkHeap file (t, 0)).data.take 2)) := by
  rw [readText_eq h fun x hx => ?_]
  · rfl
  · have hx' : x ∈ [(t, 0)] := hx
    rw [List.mem_singleton.mp hx']
    exact h

namespace FirstTexts

variable {file file1 file' : ZgdbFile RecordPos} {n t : Nat}

theorem elements_shortAndFull :
    Function.update (fun _ => []) n (storeElements 0 shortAndFull.elements) n
      = [⟨keyA, .text ⟨2, 0⟩⟩] ++ (⟨keyB, .text ⟨32, chunkRecord⟩⟩ : StoredElement) :: [] :=
  Function.update_self ..

/-- The toast of the document with the chunks of its two texts. -/
theorem area_shortAndFull (h : FirstTexts recordEnv file shortAndFull n t) :
    Area h.store.blocks.layout file [t] ∧ SlotIn h.store.blocks.layout [t] (t, 0) ∧
      SlotIn h.store.blocks.layout [t] (t, chunkRecord) ∧
      Texts file [t] t [⟨2, 0⟩, ⟨32, chunkRecord⟩] := by
  have hown : Function.update (fun _ => []) n [t] n = [t] := Function.update_self ..
  have htexts := (h.store.doc n h.mem).texts
  rw [h.first, elements_shortAndFull, hown] at htexts
  obtain ⟨ha, hlen⟩ := h.store.area fun x hx => ⟨htexts.alive x hx, htexts.toast x hx⟩
  refine ⟨ha, ?_, ?_, htexts⟩
  · exact htexts.slotIn hlen (htexts.inUse ⟨2, 0⟩ List.mem_cons_self _ List.mem_cons_self)
  · exact htexts.slotIn hlen (htexts.inUse ⟨32, chunkRecord⟩
      (List.mem_cons_of_mem _ List.mem_cons_self) _ List.mem_cons_self)

theorem toast_ne (h : FirstTexts recordEnv file shortAndFull n t) : t ≠ n := by
  rintro rfl
  refine h.store.toast_notMem h.mem ?_ h.mem
  rw [Function.update_self]
  exact List.mem_cons_self

/-- The last link of the text that fills its chunk leads to the first chunk of the toast. -/
theorem path_shortAndFull (h : FirstTexts recordEnv file shortAndFull n t) :
    (chunkHeap file (t, chunkRecord)).next = (t, 0) ∧
      Chain.path (chunkHeap file) 2 (t, chunkRecord) = [(t, chunkRecord), (t, 0)] := by
  have hnext : (chunkHeap file (t, chunkRecord)).next = (t, 0) := by
    have hw : TextWritten file t 1 ⟨32, string31⟩ := h.written.2.1 _ rfl
    have hslot : chunkAt file (t, chunkRecord) = _ := hw 0 (by decide)
    rw [chunkHeap, hslot]
    rfl
  refine ⟨hnext, ?_⟩
  rw [Chain.path_succ, hnext]
  rfl

/-- The second piece of the text goes to the chunk of the short one. -/
theorem rewrite_shortAndFull (h : FirstTexts recordEnv file shortAndFull n t)
    (hf1 : file1 = rewriteChunks file (longString 40) 0 10 2 (openToast file t chunkRecord)) :
    Writes h.store.blocks.layout (pathBytes [(t, chunkRecord), (t, 0)]) file file1 ∧
      (∀ y, SlotIn h.store.blocks.layout [t] y →
        (chunkHeap file1 y).next = (chunkHeap file y).next) ∧
      (chunkHeap file1 (t, 0)).data = overlay (longString 40) 32 10
        (chunkHeap file (t, 0)).data := by
  obtain ⟨ha, hslotA, hslotB, -⟩ := h.area_shortAndFull
  obtain ⟨hnext, hpath⟩ := h.path_shortAndFull
  have hp : ∀ x ∈ Chain.path (chunkHeap file) 2 (t, chunkRecord),
      SlotIn h.store.blocks.layout [t] x := by
    rw [hpath]
    intro x hx
    rcases List.mem_cons.mp hx with rfl | hx
    · exact hslotB
    · rw [List.mem_singleton.mp hx]
      exact hslotA
  have hnodup : (Chain.path (chunkHeap file) 2 (t, chunkRecord)).Nodup := by
    rw [hpath]
    simp [chunkRecord, sizeofTextChunk]
  have hnamed := ha.named (List.mem_cons_self : t ∈ [t])
  obtain ⟨hw, hkept, -⟩ := ha.rewrite hnamed hp hnodup hf1
  rw [hpath] at hw
  refine ⟨hw, hkept, ha.rewrite_data hnamed hp hnodup hf1 (i := 1) ?_⟩
  rw [hpath]
  rfl

theorem run_shortAndFull (h : FirstTexts recordEnv file shortAndFull n t)
    (hf1 : file1 = rewriteChunks file (longString 40) 0 10 2 (openToast file t chunkRecord)) :
    updateElement recordEnv.strtod file (documentAt file n 0) stringKeyB (longString 40)
      = some (.updateOk, fwriteAt firstTextChunkK file1 (blockPos file n)
        (valueAt [⟨keyA, .text ⟨2, 0⟩⟩]) ⟨42, chunkRecord⟩) := by
  have hfirstChunk : freadAt firstTextChunkK file (blockPos file n)
      (sizeofDocumentHeader + storedSize [⟨keyA, .text ⟨2, 0⟩⟩] + elementHead)
        = ⟨32, chunkRecord⟩ := by
    rw [freadAt_eq]
    exact load_of_holds (h.store.holds_text h.mem elements_shortAndFull)
  have hopen : openToast file (documentAt file n 0).header.firstToastIndex chunkRecord
      = openToast file t chunkRecord := by
    rw [← h.first]
    rfl
  have hg : growth 32 41 = ⟨42, 2, 2, 10⟩ := by decide
  rw [updateElement_text h.store h.mem 0 elements_shortAndFull rfl]
  simp only [updateText, hfirstChunk, strlen_longString, updateLonger, hg, hopen, ← hf1]
  rfl

/-- What the update writes, as that of a value. -/
theorem valueWrites_shortAndFull (h : FirstTexts recordEnv file shortAndFull n t)
    (hf1 : file1 = rewriteChunks file (longString 40) 0 10 2 (openToast file t chunkRecord))
    (hf : file' = fwriteAt firstTextChunkK file1 (blockPos file n)
      (valueAt [⟨keyA, .text ⟨2, 0⟩⟩]) ⟨42, chunkRecord⟩) :
    ValueWrites h.store file1 file' n (valueAt [⟨keyA, .text ⟨2, 0⟩⟩])
      firstTextChunkK.size [t] := by
  obtain ⟨ha, -, -, htexts⟩ := h.area_shortAndFull
  obtain ⟨hw, -⟩ := h.rewrite_shortAndFull hf1
  have hto1 : ∀ x ∈ [t], IsToast file1 x ∧ toastAt file1 x = toastAt file x := fun x hx =>
    ha.toastAt_eq hw hx fun d hd => not_pathBytes hd
  refine ⟨h.mem, ?_, hw.mono ?_, fun x hx => (hto1 x hx).1, ?_, by decide, ?_⟩
  · intro x hx
    refine ⟨htexts.alive x hx, htexts.toast x hx, ?_⟩
    intro j _ hjn hxj
    rw [Function.update_of_ne hjn] at hxj
    cases hxj
  · rintro j d ⟨x, hx, rfl, -⟩
    rcases List.mem_cons.mp hx with rfl | hx
    · exact List.mem_cons_self
    · rw [List.mem_singleton.mp hx]
      exact List.mem_cons_self
  · intro x hx
    rw [(hto1 x hx).2]
  · rw [hf]
    exact writes_fwriteAt (Or.inl (h.store.alive h.mem))
      ((Nat.le_add_right _ _).trans (h.store.value_le h.mem elements_shortAndFull))

end FirstTexts

/-- The text that fills its chunk grows by a chunk: the code takes it to have that one already, and
writes where its last link leads, to the first chunk of the toast. -/
theorem neighbour_overwritten : ∃ (file file' : ZgdbFile RecordPos) (n : Nat),
    Reaches recordEnv (Call.Clean recordEnv) file ∧ Live file n ∧
      updateElement recordEnv.strtod file (documentAt file n 0) stringKeyB (longString 40)
        = some (.updateOk, file') ∧ ¬ OthersKept file file' n stringKeyB := by
  obtain ⟨file, n, t, h⟩ := create_firstTexts recordEnv shortAndFull_built (by decide) (by decide)
  have hs := h.store
  have hes := FirstTexts.elements_shortAndFull (n := n)
  obtain ⟨ha, hslotA, -⟩ := h.area_shortAndFull
  obtain ⟨file1, hf1⟩ : ∃ file1, file1 = rewriteChunks file (longString 40) 0 10 2
      (openToast file t chunkRecord) := ⟨_, rfl⟩
  obtain ⟨file', hf⟩ : ∃ file', file' = fwriteAt firstTextChunkK file1 (blockPos file n)
      (valueAt [⟨keyA, .text ⟨2, 0⟩⟩]) ⟨42, chunkRecord⟩ := ⟨_, rfl⟩
  obtain ⟨hw1, -, hdata1⟩ := h.rewrite_shortAndFull hf1
  have hv := h.valueWrites_shortAndFull hf1 hf
  refine ⟨file, file', n, h.reaches.mono fun _ _ hc => hc.1, hs.live_iff.mpr h.mem,
    hf ▸ h.run_shortAndFull hf1, ?_⟩
  intro hkept
  -- what the elements of the document are now
  have hnew : HoldsValue (blockAt file' n) (valueAt [⟨keyA, .text ⟨2, 0⟩⟩])
      (.text ⟨42, chunkRecord⟩) := by
    rw [hf, ← hw1.blockPos_eq n, blockAt_fwriteAt]
    exact holds_store
  have hD := hs.doc n h.mem
  have hholds' := holdsElements_value (hes ▸ hD.holds) (hs.value_le h.mem hes) (by rfl) hnew
    hv.outside
  have hcount : (getDocumentHeader file' n).attrCount
      = [(⟨keyA, .text ⟨2, 0⟩⟩ : StoredElement), ⟨keyB, .text ⟨42, chunkRecord⟩⟩].length := by
    rw [hv.header.2.1, hD.count, hes]
    rfl
  have hentries := elementEntries_documentAt hv.header.1.attached hcount hholds' 0 true
  -- the short text reads differently
  have hA1 := ha.of_writes hw1 hv.still
  have hheap' : chunkHeap file' (t, 0) = chunkHeap file1 (t, 0) :=
    chunkHeap_congr (hA1.chunkAt_eq hv.value hslotA fun d _ hd => h.toast_ne hd.1)
  have hread' : (readText file' t ⟨2, 0⟩).data = cString (fit 2 [98, 98]) := by
    rw [readText_two (hv.toast List.mem_cons_self).1.attached, hheap', hdata1]
    rfl
  have hread : (readText file t ⟨2, 0⟩).data = cString (fit 2 [97, 0]) := by
    have hw : TextWritten file t 0 ⟨2, stringA⟩ := h.written.1 _ rfl
    have hchunk : chunkAt file (t, 0) = _ := hw 0 (by decide)
    rw [readText_two (ha.named List.mem_cons_self), chunkHeap, hchunk]
    rfl
  have hsame := hkept.elements
  rw [entries, hentries, entries, hs.elementEntries_eq h.mem, hes, h.first] at hsame
  have hfirst' : (getDocumentHeader file' n).firstToastIndex = t := by
    rw [hv.header.2.1, h.first]
  rw [hfirst'] at hsame
  have hhead := congrArg (fun l => (l.head?.bind fun e => e.value.bind ElementValue.content)) hsame
  have htext : some (readText file' t ⟨2, 0⟩).data = some (readText file t ⟨2, 0⟩).data := hhead
  rw [hread, hread'] at htext
  exact absurd htext (by decide)

end Zgdb
