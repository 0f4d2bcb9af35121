/-
# Text updates and the reserve of indices

`createDocument` makes sure that there are NEW indices to spare before it takes one.
`updateElement` takes an index for a new toast from the same list, and does not look.

An update of a text returns exactly when it needs no new toast, or the list has an index for it
(`updateText_isSome_iff`); this holds of any file.  So updates alone use the list up: a text that
grows across toasts and shrinks again takes one NEW index each time (`Draining.step`), and after as
many rounds as there are NEW indices the next growth gets none (`reserve_drained`).
-/
import Zgdb.Crossing
import Zgdb.Expand

namespace Zgdb

open Zgdb.Lib AddrSpace

variable {A : Type} [BlockSpace A]

/-! ## 1. An index for a request

A request is met when there is a NEW index, or when the largest DEAD block is large enough. -/

/-- The list has an index for a block of `reqSize` bytes: a NEW one, or a DEAD one with a block
that is large enough. -/
def FreeIndexesList.HasRoom (list : FreeIndexesList) (reqSize : Nat) : Prop :=
  ∃ n ∈ list.nodes, n.blockSize = 0 ∨ reqSize ≤ n.blockSize

/-- **`findRelevantIndex` finds an index when there is one.** -/
theorem findRelevantIndex_isSome_iff {list : FreeIndexesList} (h : list.Sound) {reqSize : Nat}
    (hreq : 0 < reqSize) :
    (∃ r, findRelevantIndex list reqSize = some r) ↔ list.HasRoom reqSize := by
  constructor
  · rintro ⟨⟨n, list'⟩, hr⟩
    obtain ⟨hp, -, hn⟩ := findRelevantIndex_spec h hreq hr
    exact ⟨n, hp.mem_iff.mpr List.mem_cons_self, hn⟩
  · rintro ⟨n, hn, hz | hle⟩
    · refine findRelevantIndex_isSome h ?_ reqSize
      rw [h.newIndexes]
      exact List.countP_pos_iff.mpr ⟨n, hn, by simpa using hz⟩
    · exact findRelevantIndex_isSome_of_le h hn hle

/-! ## 2. What an update does to the list

The chunk loops do not look at the free list.  An update takes from it only in the branch that makes
a toast, so whether it returns is known beforehand. -/

section Update

variable {file file' : ZgdbFile A} {doc : Document} {block : A} {d : Nat} {input : CString}

theorem rewriteChunks_freeList (s : CString) (lastLen : Nat) : ∀ (n : Nat) (file : ZgdbFile A)
    (start : Nat) (cur : Cursor A),
    (rewriteChunks file s start lastLen n cur).freeList = file.freeList
  | 0, _, _, _ => rfl
  | n + 1, file, start, cur => by
    rw [rewriteChunks, rewriteChunks_freeList]
    rfl

theorem relinkChunks_freeList (s : CString) (relink : Cursor A → TextChunk → TextChunk)
    (moveLast : Bool) : ∀ (n : Nat) (file : ZgdbFile A) (start : Nat) (cur : Cursor A),
    (relinkChunks file s start relink moveLast n cur).1.freeList = file.freeList
  | 0, _, _, _ => rfl
  | n + 1, file, start, cur => by
    rw [relinkChunks, relinkChunks_freeList]
    rfl

theorem writeChunks_freeList (pos : A) (toastIndex : Nat) (s : CString) (lastLen lastToast : Nat) :
    ∀ (n : Nat) (file : ZgdbFile A) (used start : Nat),
    (writeChunks file pos used toastIndex s start lastLen lastToast n).freeList = file.freeList
  | 0, _, _, _ => rfl
  | n + 1, file, used, start => by
    rw [writeChunks_succ, writeChunks_freeList]
    rfl

theorem growInToast_freeList (file : ZgdbFile A) (input : CString) (chunks req lastLen : Nat)
    (cur : Cursor A) : (growInToast file input chunks req lastLen cur).freeList
      = file.freeList := by
  unfold growInToast addUsed
  show (writeChunks _ _ _ _ _ _ _ _ _).freeList = _
  rw [writeChunks_freeList, relinkChunks_freeList]

theorem fillAcrossToasts_freeList (file : ZgdbFile A) (input : CString)
    (chunks req lastLen newToastIndex : Nat) (cur : Cursor A) :
    (fillAcrossToasts file input chunks req lastLen newToastIndex cur).freeList
      = file.freeList := by
  unfold fillAcrossToasts addUsed
  show (writeChunks _ _ _ _ _ _ _ _ _).freeList = _
  rw [writeChunks_freeList]
  split
  · show (writeChunks _ _ _ _ _ _ _ _ _).freeList = _
    rw [writeChunks_freeList, relinkChunks_freeList]
    rfl
  · rw [relinkChunks_freeList]
    rfl

/-- `createNewToast` returns when it gets an index, and takes no other. -/
theorem createNewToast_eq (file : ZgdbFile A) (size : Nat) :
    findRelevantIndex file.freeList size = none ∧ createNewToast file size = none ∨
      ∃ n list file', findRelevantIndex file.freeList size = some (n, list) ∧
        createNewToast file size = some (n.indexOrder, file') ∧ file'.freeList = list := by
  rw [createNewToast]
  cases hr : findRelevantIndex file.freeList size with
  | none => exact Or.inl ⟨rfl, by rw [allocToast, hr]⟩
  | some r =>
    obtain ⟨n, list⟩ := r
    obtain ⟨file', h, hl⟩ := allocToast_eq hr size
    exact Or.inr ⟨n, list, file', rfl, h, hl⟩

/-- The request of a growth is not empty. -/
theorem Crosses.request_pos {first n : Nat} {f : FirstTextChunk} (h : Crosses file first f n) :
    0 < crossRequest file first f n := by
  obtain ⟨-, hchunks, -⟩ := h
  have hreq : 0 < ((growth f.size n).chunksNew - (growth f.size n).chunks) * chunkRecord :=
    Nat.mul_pos (by omega) (by decide)
  rw [crossRequest]
  omega

variable (doc) in
/-- An update of a text that needs no new toast returns, and takes no index. -/
theorem updateText_stays {f : FirstTextChunk}
    (hf : freadAt firstTextChunkK file block (d + elementHead) = f)
    (h : ¬ Crosses file doc.header.firstToastIndex f (input.strlen + 1)) :
    ∃ file', updateText file block doc d input = some file' ∧ file'.freeList = file.freeList := by
  simp only [updateText, hf]
  by_cases heq : input.strlen + 1 = f.size
  · rw [if_pos heq]
    exact ⟨_, rfl, rewriteChunks_freeList _ _ _ _ _ _⟩
  rw [if_neg heq]
  by_cases hlt : input.strlen + 1 < f.size
  · rw [if_pos hlt]
    exact ⟨_, rfl, rewriteChunks_freeList _ _ _ _ _ _⟩
  rw [if_neg hlt]
  simp only [updateLonger]
  by_cases hle : (growth f.size (input.strlen + 1)).chunksNew
      ≤ (growth f.size (input.strlen + 1)).chunks
  · rw [if_pos hle]
    exact ⟨_, rfl, rewriteChunks_freeList _ _ _ _ _ _⟩
  rw [if_neg hle]
  have hroom : chunksLeft (openToast file doc.header.firstToastIndex f.offsetInToast).toast
      ≥ (growth f.size (input.strlen + 1)).chunksNew -
        (growth f.size (input.strlen + 1)).chunks := by
    by_contra hleft
    exact h ⟨by omega, by omega, Nat.not_le.mp hleft⟩
  rw [if_pos hroom]
  exact ⟨_, rfl, growInToast_freeList _ _ _ _ _ _⟩

variable (doc) in
/-- One that needs a new toast takes an index for it, or fails. -/
theorem updateText_crosses {f : FirstTextChunk}
    (hf : freadAt firstTextChunkK file block (d + elementHead) = f)
    (h : Crosses file doc.header.firstToastIndex f (input.strlen + 1)) :
    findRelevantIndex file.freeList (crossRequest file doc.header.firstToastIndex f
        (input.strlen + 1)) = none ∧ updateText file block doc d input = none ∨
      ∃ n list file', findRelevantIndex file.freeList (crossRequest file
          doc.header.firstToastIndex f (input.strlen + 1)) = some (n, list) ∧
        updateText file block doc d input = some file' ∧ file'.freeList = list := by
  rw [updateText_crossing hf h]
  rcases createNewToast_eq file (crossRequest file doc.header.firstToastIndex f
    (input.strlen + 1)) with ⟨hr, hc⟩ | ⟨n, list, file1, hr, hc, hl⟩
  · refine Or.inl ⟨hr, ?_⟩
    rw [hc]
    rfl
  · refine Or.inr ⟨n, list, _, hr, by rw [hc]; rfl, ?_⟩
    rw [← hl]
    exact fillAcrossToasts_freeList _ _ _ _ _ _ _

/-- **An update of a text returns** exactly when it needs no new toast or there is an index
for it. -/
theorem updateText_isSome_iff {f : FirstTextChunk} (hs : file.freeList.Sound)
    (hf : freadAt firstTextChunkK file block (d + elementHead) = f) :
    (∃ file', updateText file block doc d input = some file') ↔
      (Crosses file doc.header.firstToastIndex f (input.strlen + 1) →
        file.freeList.HasRoom (crossRequest file doc.header.firstToastIndex f
          (input.strlen + 1))) := by
  by_cases hc : Crosses file doc.header.firstToastIndex f (input.strlen + 1)
  · rw [← findRelevantIndex_isSome_iff hs hc.request_pos]
    rcases updateText_crosses doc hf hc with ⟨hr, hnone⟩ | ⟨n, list, file', hr, hsome, -⟩
    · simp [hr, hnone, hc]
    · simp [hr, hsome]
  · obtain ⟨file', hsome, -⟩ := updateText_stays doc hf hc
    simp [hsome, hc]

/-- What an allocation does to the list, or nothing. -/
def TakesOne (list list' : FreeIndexesList) : Prop :=
  list' = list ∨ ∃ size n, 0 < size ∧ findRelevantIndex list size = some (n, list')

theorem updateText_takesOne (h : updateText file block doc d input = some file') :
    TakesOne file.freeList file'.freeList := by
  by_cases hc : Crosses file doc.header.firstToastIndex
      (freadAt firstTextChunkK file block (d + elementHead)) (input.strlen + 1)
  · rcases updateText_crosses doc rfl hc with ⟨-, hnone⟩ | ⟨n, list, file1, hr, hsome, hl⟩
    · rw [hnone] at h
      cases h
    · rw [hsome, Option.some.injEq] at h
      exact Or.inr ⟨_, n, hc.request_pos, by rw [hr, ← h, hl]⟩
  · obtain ⟨file1, hsome, hl⟩ := updateText_stays doc rfl hc
    rw [hsome, Option.some.injEq] at h
    exact Or.inl (h ▸ hl)

variable {strtod : CString → StrtodResult} {key : CString} {status : UpdateElementStatus}

theorem updateFound_takesOne {type : UInt8}
    (h : updateFound strtod file block doc d type input = some (some (status, file'))) :
    TakesOne file.freeList file'.freeList := by
  have hsame : ∀ {file1 : ZgdbFile A} {st : UpdateElementStatus},
      some (some (st, file1)) = some (some (status, file')) → file1.freeList = file.freeList →
      TakesOne file.freeList file'.freeList := by
    intro file1 st he hl
    simp only [Option.some.injEq, Prod.mk.injEq] at he
    exact Or.inl (he.2 ▸ hl)
  unfold updateFound at h
  split at h
  · exact hsame h rfl
  split at h
  · split at h <;> exact hsame h rfl
  split at h
  · split at h <;> exact hsame h rfl
  split at h
  · obtain ⟨file1, hrun, he⟩ := Option.map_eq_some_iff.mp h
    simp only [Option.some.injEq, Prod.mk.injEq] at he
    exact he.2 ▸ updateText_takesOne hrun
  · cases h

/-- **An update takes at most one index.** -/
theorem updateLoop_takesOne : ∀ (n : Nat) (it : ElementIterator A),
    updateLoop strtod file doc key input n it = some (status, file') →
    TakesOne file.freeList file'.freeList
  | 0, _, h => by
    simp only [updateLoop, Option.some.injEq, Prod.mk.injEq] at h
    exact Or.inl (h.2 ▸ rfl)
  | n + 1, it, h => by
    unfold updateLoop at h
    simp only at h
    split at h
    · split at h
      · cases h
      · rename_i hfound
        rw [Option.some.injEq] at h
        exact updateFound_takesOne (h ▸ hfound)
      · exact updateLoop_takesOne n _ h
    · exact updateLoop_takesOne n _ h

theorem updateElement_takesOne (h : updateElement strtod file doc key input = some (status, file'))
    :
    TakesOne file.freeList file'.freeList := by
  unfold updateElement at h
  split at h
  · simp only [Option.some.injEq, Prod.mk.injEq] at h
    exact Or.inl (h.2 ▸ rfl)
  · exact updateLoop_takesOne _ _ h

omit [BlockSpace A] in
theorem TakesOne.newIndexes {list list' : FreeIndexesList} (h : TakesOne list list')
    (hs : list.Sound) : list.newIndexesCount ≤ list'.newIndexesCount + 1 := by
  rcases h with rfl | ⟨size, n, hpos, hr⟩
  · exact Nat.le_succ _
  · obtain ⟨hp, hs', -⟩ := findRelevantIndex_spec hs hpos hr
    exact newIndexesCount_le hs hs' hp

end Update

/-! ## 3. Runs in which every growth has an index

A creation sees to a reserve of NEW indices, an update may take one.  So a run is served when its
updates take no more than the creations between them have put in reserve. -/

/-- The condition on a step: an update that needs a new toast finds a NEW index in the list, or a
DEAD one with a block that is large enough.  The rest keeps the store sound.  Only creations expand
the index table, so the list can run out under updates (`reserve_drained`). -/
def Call.Supplied (env : Env A) (file : ZgdbFile A) (call : Call) : Prop :=
  match call with
  | update doc key input => ∀ f, storedText file doc key = some f →
      (f.size < input.strlen + 1 → f.size % chunkSize ≠ 0) ∧
      (Crosses file (getDocumentHeader file doc).firstToastIndex f (input.strlen + 1) →
        (∀ x ∈ textPath file (getDocumentHeader file doc).firstToastIndex f,
          x.1 = (getDocumentHeader file doc).firstToastIndex) ∧
        NoSpill file (crossRequest file (getDocumentHeader file doc).firstToastIndex f
          (input.strlen + 1)) ∧
        file.freeList.HasRoom (crossRequest file (getDocumentHeader file doc).firstToastIndex f
          (input.strlen + 1)))
  | call => call.Clean env file

/-- The indices a call takes at most. -/
def Call.takes : Call → Nat
  | create _ _ _ _ => 2
  | update _ _ _ => 1
  | _ => 0

section Runs

variable {env : Env A} {file file' : ZgdbFile A} {T : Forest Nat} {es : Nat → List StoredElement}
  {own : Nat → List Nat} {k : Nat} {key input : CString} {f : FirstTextChunk}

/-- **An update of a text of a sound store returns** exactly when the list can serve it. -/
theorem Store.updateElement_isSome_iff (hs : Store file T es own) (hk : k ∈ T.nodes)
    (hf : storedText file k key = some f) (strtod : CString → StrtodResult) (input : CString)
    (p : Nat) :
    (∃ status file', updateElement strtod file (documentAt file k p) key input
        = some (status, file')) ↔
      (Crosses file (getDocumentHeader file k).firstToastIndex f (input.strlen + 1) →
        file.freeList.HasRoom (crossRequest file (getDocumentHeader file k).firstToastIndex f
          (input.strlen + 1))) := by
  obtain ⟨pre, name, post, hes, hkey⟩ := hs.split_of_storedText hk hf
  have hread : freadAt firstTextChunkK file (blockPos file k)
      (sizeofDocumentHeader + storedSize pre + elementHead) = f := by
    rw [freadAt_eq]
    exact load_of_holds (hs.holds_text hk hes)
  rw [updateElement_text hs hk p hes hkey]
  refine Iff.trans ?_ (@updateText_isSome_iff A _ file (documentAt file k p) _ _ input f
    hs.blocks.placed.sound hread)
  simp

/-- Where the list can serve it, an update is clean. -/
theorem Store.clean_of_supplied (hs : Store file T es own) {call : Call}
    (h : call.Supplied env file) : call.Clean env file := by
  cases call with
  | update doc key input =>
    intro f hf
    obtain ⟨hmod, hcross⟩ := h f hf
    refine ⟨hmod, ?_⟩
    intro hc
    obtain ⟨honFirst, hspill, hroom⟩ := hcross hc
    exact ⟨honFirst, (findRelevantIndex_isSome_iff hs.blocks.placed.sound hc.request_pos).mpr hroom,
      hspill⟩
  | create now p name schema => exact h
  | delete d p => exact h
  | deleteRoot => exact h

omit [BlockSpace A] in
/-- The NEW indices, counted in the table. -/
theorem Placed.newIndexesCount_eq {cap : Nat → Nat} (h : Placed file cap) :
    file.freeList.newIndexesCount = ((List.range file.header.indexCount).filter fun k =>
      (file.indexes k).flag = .new).length := by
  rw [h.sound.newIndexes, List.countP_eq_length_filter,
    ← List.length_map Node.indexOrder]
  refine List.Perm.length_eq ((List.perm_ext_iff_of_nodup ?_ ?_).mpr ?_)
  · exact h.nodup.sublist (List.filter_sublist.map _)
  · exact List.nodup_range.filter _
  · intro k
    simp only [List.mem_map, List.mem_filter, decide_eq_true_eq, List.mem_range]
    constructor
    · rintro ⟨n, ⟨hn, hz⟩, rfl⟩
      obtain ⟨hlt, ⟨-, hf⟩ | ⟨hpos, -⟩⟩ := h.node n hn
      · exact ⟨hlt, hf⟩
      · omega
    · rintro ⟨hlt, hf⟩
      rcases h.free k hlt with ha | ⟨n, hn, rfl⟩
      · rw [hf] at ha
        cases ha
      · refine ⟨n, ⟨hn, ?_⟩, rfl⟩
        rcases (h.node n hn).2 with ⟨hz, -⟩ | ⟨-, hd, -⟩
        · exact hz
        · rw [hf] at hd
          cases hd

/-- An expansion takes no NEW index away. -/
theorem Relocated.newIndexes (h : Relocated file file') (hb : Blocks file T.nodes) :
    file.freeList.newIndexesCount ≤ file'.freeList.newIndexesCount := by
  rw [hb.placed.newIndexesCount_eq, h.placed.newIndexesCount_eq]
  refine List.Subperm.length_le (List.subperm_of_subset (List.nodup_range.filter _) ?_)
  intro k hk
  simp only [List.mem_filter, decide_eq_true_eq, List.mem_range] at hk ⊢
  have hle := h.indexCount
  exact ⟨by omega, (h.flag k hk.1).trans hk.2⟩

/-- A creation takes at most two. -/
theorem Allocated.newIndexes {file1 file2 : ZgdbFile A} {schema : DocumentSchema} {m : Node}
    {own' docs : List Nat} (hb : Blocks file1 docs)
    (h : Allocated file1 file2 file' schema m own') :
    file1.freeList.newIndexesCount ≤ file'.freeList.newIndexesCount + 2 := by
  have hdoc := newIndexesCount_le h.placed.sound h.attached.sound h.attached.perm
  have htoast : file1.freeList.newIndexesCount ≤ file2.freeList.newIndexesCount + 1 := by
    obtain ⟨t, ht⟩ := h.toast
    cases hreq : schema.reqToast with
    | false =>
      rw [(ht.noText hreq).2]
      exact Nat.le_succ _
    | true =>
      obtain ⟨n, -, hal, -⟩ := ht.alloc t (ht.mem hreq)
      exact newIndexesCount_le hb.placed.sound hal.attached.sound hal.attached.perm
  omega

/-- A deletion takes none. -/
theorem Reclaimed.newIndexes {ks : List Nat} (h : Reclaimed file file' ks)
    (hs : file.freeList.Sound) (hs' : file'.freeList.Sound) :
    file.freeList.newIndexesCount ≤ file'.freeList.newIndexesCount := by
  rw [hs.newIndexes, hs'.newIndexes, h.freeList.countP_eq, List.countP_append]
  exact Nat.le_add_left _ _

/-- **A clean call takes no more NEW indices than it may.** -/
theorem exec_takes {call : Call} (hs : Sound file) (hl : call.Legal file) (hc : call.Clean env file)
    (he : call.exec env file = some file') :
    file.freeList.newIndexesCount ≤ file'.freeList.newIndexesCount + call.takes := by
  obtain ⟨T, es, own, hs⟩ := hs
  have hsound := hs.blocks.placed.sound
  cases call with
  | create now p name schema =>
    obtain ⟨n, own', -, halloc⟩ := exec_create hs hl hc he
    obtain ⟨file1, h1⟩ : ∃ file1, expanded env.expandIndexes file = some file1 := by
      obtain ⟨⟨status, f⟩, hrun, -⟩ := Option.map_eq_some_iff.mp he
      obtain ⟨-, file1, -, -, -, -, h1, -⟩ := createDocument_cases hrun hl.2.2
      exact ⟨file1, h1⟩
    obtain ⟨file2, m, -, h⟩ := halloc file1 h1
    have hr := (hc file1 h1).1
    have hle := hr.newIndexes hs.blocks
    have := h.newIndexes (hr.blocks hs.blocks)
    show _ ≤ file'.freeList.newIndexesCount + 2
    omega
  | delete d p =>
    obtain ⟨file1, hrun, ts, h⟩ := exec_delete env hs hl
    obtain rfl := Option.some.inj (hrun.symm.trans he)
    exact h.reclaimed.newIndexes hsound h.store.blocks.placed.sound
  | deleteRoot =>
    obtain ⟨file1, hrun, h⟩ := exec_deleteRoot hs hc
    obtain rfl := Option.some.inj (hrun.symm.trans he)
    rcases h with ⟨rfl, -⟩ | ⟨h, -, hr⟩
    · exact Nat.le_refl _
    · exact hr.newIndexes hsound h.blocks.placed.sound
  | update k key input =>
    obtain ⟨⟨status, f⟩, hrun, rfl⟩ := Option.map_eq_some_iff.mp he
    exact (updateElement_takesOne hrun).newIndexes hsound

/-- A run keeps the store sound, and has taken no more NEW indices than its calls may take. -/
theorem supplied_run {now : UInt32} {calls : List Call}
    (h : Run (Call.exec env) (fun file call => call.Legal file ∧ call.Supplied env file) (init now)
      calls file) : Sound file ∧
      indexInitialCapacity - 1 ≤ file.freeList.newIndexesCount + (calls.map Call.takes).sum := by
  induction h with
  | nil =>
    refine ⟨⟨_, _, _, init_store⟩, ?_⟩
    rw [(init_undead now).2]
    exact Nat.le_add_right _ _
  | snoc _ hok he ih =>
    obtain ⟨hs, hle⟩ := ih
    obtain ⟨T, es, own, hS⟩ := id hs
    have hc := hS.clean_of_supplied hok.2
    refine ⟨exec_sound hs hok.1 hc he, ?_⟩
    have := exec_takes hs hok.1 hc he
    rw [List.map_append, List.sum_append, List.map_singleton, List.sum_singleton]
    omega

/-- **Updates of texts and the reserve**: in every state of a run in which every growth across
toasts had an index, an update of a text gets what it needs exactly when the list has it; and it
does as long as the calls of the run cannot have taken all the indices of a new store.  An update
never expands the table, so nothing but deletions and creations puts indices back. -/
theorem text_updates_served {now : UInt32} {calls : List Call}
    (h : Run (Call.exec env) (fun file call => call.Legal file ∧ call.Supplied env file) (init now)
      calls file) {k : Nat} {key : CString} {f : FirstTextChunk} (hl : Live file k)
    (hf : storedText file k key = some f) (input : CString) (p : Nat) :
    ((∃ status file', updateElement env.strtod file (documentAt file k p) key input
        = some (status, file')) ↔
      (Crosses file (getDocumentHeader file k).firstToastIndex f (input.strlen + 1) →
        file.freeList.HasRoom (crossRequest file (getDocumentHeader file k).firstToastIndex f
          (input.strlen + 1)))) ∧
    ((calls.map Call.takes).sum < indexInitialCapacity - 1 →
      ∃ status file', updateElement env.strtod file (documentAt file k p) key input
        = some (status, file')) := by
  obtain ⟨⟨T, es, own, hs⟩, hle⟩ := supplied_run h
  have hiff := hs.updateElement_isSome_iff (hs.live_iff.mp hl) hf env.strtod input p
  refine ⟨hiff, fun hlt => hiff.mpr ?_⟩
  intro _
  have hsound := hs.blocks.placed.sound
  have hnew : 0 < file.freeList.nodes.countP (·.blockSize = 0) := by
    rw [← hsound.newIndexes]
    omega
  obtain ⟨n, hn, hz⟩ := List.countP_pos_iff.mp hnew
  exact ⟨n, hn, Or.inl (by simpa using hz)⟩

end Runs

/-- The text of a first document, in a file of bytes, grows across toasts. -/
theorem text_updates_served_first : ∃ (file file' : ZgdbFile Nat) (n : Nat)
    (status : UpdateElementStatus), Live file n ∧
      updateElement flatEnv.strtod file (documentAt file n 0) stringKeyA (longString 150)
        = some (status, file') := by
  obtain ⟨hclean, file, n, own', hexec, hi, -⟩ :=
    create_first flatEnv 0 keyA oneText_built (by decide)
  have hl : (Call.create 0 0 keyA oneText).Legal (init 0 : ZgdbFile Nat) :=
    ⟨live_init 0, oneText_built, by decide⟩
  have he : (Call.create 0 0 keyA oneText).exec flatEnv (init 0) = some file := by
    rw [Call.exec, hexec]
    rfl
  have hn : n ∈ (rootTree.insertUnder 0 n).nodes :=
    (Forest.mem_nodes_insertUnder (by simp) List.mem_cons_self).mpr (Or.inl rfl)
  have hes : Function.update (fun _ => []) n (storeElements 0 oneText.elements) n
      = [] ++ (⟨keyA, .text ⟨2, 0⟩⟩ : StoredElement) :: [] := Function.update_self ..
  have hf := hi.store.storedText_eq hn hes (rfl : stringKeyA.chars = keyA.chars)
  have hlive : Live file n := hi.store.live_iff.mpr hn
  obtain ⟨-, hserved⟩ := text_updates_served ((Run.nil _).snoc ⟨hl, hclean⟩ he) hlive hf
    (longString 150) 0
  obtain ⟨status, file', hrun⟩ := hserved (by decide)
  exact ⟨file, file', n, status, hlive, hrun⟩

/-! ## 4. A run that uses the list up

A text grows out of the first toast and shrinks again, over and over.  Each growth adds a toast,
though the chain has gone back to the first one, and no creation comes to expand the table. -/

/-- All free indices are NEW, `m` of them, and the one text of document `k` has one chunk, in a
first toast with few slots left. -/
structure Draining (env : Env A) (k m : Nat) (file : ZgdbFile A) : Prop where
  reaches : Reaches env (Call.Clean env) file
  undead : Undead file
  length : file.freeList.nodes.length = m
  store : ∃ T es own f, Store file T es own ∧ k ∈ T.nodes ∧ es k = [⟨keyA, .text f⟩] ∧
    f.size = 2 ∧ chunksLeft (toastAt file (getDocumentHeader file k).firstToastIndex) ≤ 2

section Drain

variable {env : Env A} {file file' : ZgdbFile A} {k m : Nat}

/-- The long text that needs a new toast. -/
theorem Draining.crosses (h : Draining env k m file) : ∃ T es own f, Store file T es own ∧
    k ∈ T.nodes ∧ es k = [] ++ ⟨keyA, .text f⟩ :: [] ∧ f.size = 2 ∧
    Crosses file (getDocumentHeader file k).firstToastIndex f ((longString 150).strlen + 1) := by
  obtain ⟨T, es, own, f, hs, hk, hes, hsize, hleft⟩ := h.store
  refine ⟨T, es, own, f, hs, hk, hes, hsize, ?_⟩
  have hlong : chunkCount ((longString 150).strlen + 1) = 5 := by
    rw [strlen_longString]
    decide
  refine crosses_short file _ (by rw [hsize]; decide) (by rw [hsize]; decide) ?_ (by omega)
  rw [hsize, strlen_longString]
  decide

/-- A run that updates a text returns what the update of the text returns. -/
theorem exec_updateText {T : Forest Nat} {es : Nat → List StoredElement} {own : Nat → List Nat}
    {f : FirstTextChunk} (hs : Store file T es own) (hk : k ∈ T.nodes)
    (hes : es k = [] ++ ⟨keyA, .text f⟩ :: []) (input : CString) :
    (Call.update k stringKeyA input).exec env file
      = updateText file (blockPos file k) (documentAt file k 0)
        (sizeofDocumentHeader + storedSize []) input := by
  rw [Call.exec, updateElement_text hs hk 0 hes (rfl : stringKeyA.chars = keyA.chars)]
  cases updateText file (blockPos file k) (documentAt file k 0)
    (sizeofDocumentHeader + storedSize []) input <;> rfl

/-- A document with a second toast has no slot left in its first. -/
theorem Store.first_full {T : Forest Nat} {es : Nat → List StoredElement} {own : Nat → List Nat}
    (hs : Store file T es own) (hk : k ∈ T.nodes) {t : Nat} (ht : t ∈ own k)
    (hne : t ≠ (getDocumentHeader file k).firstToastIndex) :
    chunksLeft (toastAt file (getDocumentHeader file k).firstToastIndex) = 0 := by
  by_contra hleft
  exact hne (((hs.doc k hk).texts.room hleft).1 t ht)

/-- **One round**: the text grows across toasts and shrinks again, and one NEW index is gone. -/
theorem Draining.step (h : Draining env k (m + 1) file) : ∃ file', Draining env k m file' := by
  obtain ⟨T, es, own, f, hs, hk, hes, hsize, hcross⟩ := h.crosses
  have hsound := hs.blocks.placed.sound
  have hmod : f.size % chunkSize ≠ 0 := by rw [hsize]; decide
  have hone : chunkCount f.size = 1 := by rw [hsize]; decide
  have hfm : f ∈ textsOf (es k) := by rw [hes]; exact List.mem_cons_self
  have hfirst := (hs.doc k hk).texts.first_of_mem hfm
  have hread : freadAt firstTextChunkK file (blockPos file k)
      (sizeofDocumentHeader + storedSize [] + elementHead) = f := by
    rw [freadAt_eq]
    exact load_of_holds (hs.holds_text hk hes)
  -- the growth
  obtain ⟨n0, hn0⟩ : ∃ n0, n0 ∈ file.freeList.nodes :=
    List.exists_mem_of_length_pos (by rw [h.length]; exact Nat.succ_pos m)
  have hsafe : CrossSafe file (getDocumentHeader file k).firstToastIndex f
      ((longString 150).strlen + 1) := by
    refine ⟨?_, ?_, h.undead.noSpill hs.blocks hcross.request_pos⟩
    · intro x hx
      rw [textPath_short file _ hone, List.mem_singleton] at hx
      rw [hx]
    · exact (findRelevantIndex_isSome_iff hsound hcross.request_pos).mpr
        ⟨n0, hn0, Or.inl (h.undead n0 hn0)⟩
  obtain ⟨file1, f1, t, hrun, hu, hc⟩ :=
    exec_across env hs hk hes (rfl : stringKeyA.chars = keyA.chars) hmod hcross hsafe
  have hlist : ∃ n, file.freeList.nodes.Perm (n :: file1.freeList.nodes) := by
    rw [exec_updateText hs hk hes] at hrun
    rcases updateText_crosses (documentAt file k 0) hread hcross with
      ⟨-, hnone⟩ | ⟨n, list, file2, hr, hsome, hl⟩
    · rw [hnone] at hrun
      cases hrun
    · obtain rfl := Option.some.inj (hsome.symm.trans hrun)
      exact ⟨n, hl ▸ (findRelevantIndex_spec hsound hcross.request_pos hr).1⟩
  obtain ⟨n, hperm⟩ := hlist
  have hlive : (Call.update k stringKeyA (longString 150)).Legal file := hs.live_iff.mpr hk
  have hreach1 := h.reaches.snoc hlive
    (hs.updateClean hk hes (rfl : stringKeyA.chars = keyA.chars) hmod hsafe) hrun
  -- the document after it
  have hs1 := hu.edited.store
  have hes1 : Function.update es k ([] ++ ⟨keyA, .text f1⟩ :: []) k
      = [] ++ (⟨keyA, .text f1⟩ : StoredElement) :: [] := Function.update_self ..
  have hsize1 : f1.size = 151 := by
    rw [hu.size, hsize, strlen_longString]
    rfl
  have hhdr1 := hu.edited.headers k hk
  have hne : t ≠ (getDocumentHeader file k).firstToastIndex := by
    rintro rfl
    exact hc.fresh ((hs.doc k hk).texts.alive _ hfirst)
  have hread1 : freadAt firstTextChunkK file1 (blockPos file1 k)
      (sizeofDocumentHeader + storedSize [] + elementHead) = f1 := by
    rw [freadAt_eq]
    exact load_of_holds (hs1.holds_text hk hes1)
  -- it shrinks again
  have hshort : ¬ f1.size < (longString 1).strlen + 1 := by
    rw [hsize1, strlen_longString]
    decide
  have hstays : ¬ Crosses file1 (getDocumentHeader file1 k).firstToastIndex f1
      ((longString 1).strlen + 1) := fun hc' => hshort hc'.1
  obtain ⟨file2, f2, hrun2, hu2, -⟩ := updateText_within hs1 hk 0 hes1
    (fun hlt => absurd hlt hshort) hstays
  have hlist2 : file2.freeList = file1.freeList := by
    obtain ⟨file3, hsome, hl⟩ := updateText_stays (documentAt file1 k 0) hread1 hstays
    obtain rfl := Option.some.inj (hsome.symm.trans hrun2)
    exact hl
  have hclean2 : (Call.update k stringKeyA (longString 1)).Clean env file1 := by
    intro g hg
    obtain rfl := Option.some.inj
      ((hs1.storedText_eq hk hes1 (rfl : stringKeyA.chars = keyA.chars)).symm.trans hg)
    exact ⟨fun hlt => absurd hlt hshort, fun hc' => absurd hc'.1 hshort⟩
  have hlive2 : (Call.update k stringKeyA (longString 1)).Legal file1 := hs1.live_iff.mpr hk
  have hs2 := hu2.edited.store
  refine ⟨file2, hreach1.snoc hlive2 hclean2 (by rw [exec_updateText hs1 hk hes1]; exact hrun2),
    ?_, ?_, T, _, _, f2, hs2, hk, Function.update_self .., ?_, ?_⟩
  · intro x hx
    rw [hlist2] at hx
    exact h.undead x (hperm.mem_iff.mpr (List.mem_cons_of_mem _ hx))
  · have hlen := hperm.length_eq
    rw [h.length, List.length_cons] at hlen
    rw [hlist2]
    omega
  · rw [hu2.size, hsize1, strlen_longString]
    rfl
  · rw [hs2.first_full hk (t := t)]
    · exact Nat.zero_le _
    · rw [Function.update_self, Function.update_self]
      exact List.mem_cons_self
    · rw [hu2.edited.headers k hk, hhdr1]
      exact hne

/-- **Round after round the list runs empty.** -/
theorem Draining.run (h : Draining env k m file) : ∃ file', Draining env k 0 file' := by
  induction m generalizing file with
  | zero => exact ⟨file, h⟩
  | succ m ih =>
    obtain ⟨file', h'⟩ := h.step
    exact ih h'

/-- The first document of a new store, with a text of one character. -/
theorem draining_first (env : Env A) : ∃ k m file, Draining env k m (file : ZgdbFile A) := by
  obtain ⟨file, n, t, h⟩ := create_firstTexts env oneText_built (by decide) (by decide)
  refine ⟨n, _, file, h.reaches.mono fun _ _ hc => hc.1, h.undead, rfl, _, _, _, ⟨2, 0⟩, h.store,
    h.mem, Function.update_self .., rfl, ?_⟩
  rw [h.first]
  exact h.chunksLeft_le oneText_built.wf

end Drain

/-- In a file of bytes, a text that grows and shrinks as often as there are NEW indices: the next
growth gets none. -/
theorem reserve_drained : ∃ (file : ZgdbFile Nat) (n : Nat) (f : FirstTextChunk),
    Reaches flatEnv (Call.Clean flatEnv) file ∧ Live file n ∧
      storedText file n stringKeyA = some f ∧
      Crosses file (getDocumentHeader file n).firstToastIndex f ((longString 150).strlen + 1) ∧
      findRelevantIndex file.freeList (crossRequest file (getDocumentHeader file n).firstToastIndex
        f ((longString 150).strlen + 1)) = none ∧
      updateElement flatEnv.strtod file (documentAt file n 0) stringKeyA (longString 150)
        = none := by
  obtain ⟨n, m, file0, h0⟩ := draining_first flatEnv
  obtain ⟨file, h⟩ := h0.run
  obtain ⟨T, es, own, f, hs, hk, hes, hsize, hcross⟩ := h.crosses
  have hnodes := List.length_eq_zero_iff.mp h.length
  have hf := hs.storedText_eq hk hes (rfl : stringKeyA.chars = keyA.chars)
  refine ⟨file, n, f, h.reaches, hs.live_iff.mpr hk, hf, hcross,
    findRelevantIndex_nil hnodes _, ?_⟩
  have hiff := hs.updateElement_isSome_iff hk hf flatEnv.strtod (longString 150) 0
  cases hr : updateElement flatEnv.strtod file (documentAt file n 0) stringKeyA
    (longString 150) with
  | none => rfl
  | some r =>
    obtain ⟨x, hx, -⟩ := hiff.mp ⟨r.1, r.2, hr⟩ hcross
    rw [hnodes] at hx
    cases hx

end Zgdb
