/-
# The size of a text in the types of the source

The size of a text is a `uint32_t`, and what is cut into chunks is `div((int) size, CHUNK_SIZE)`:
two conversions that lose something.  Up to `2 ^ 31 - 1` bytes with the terminator they do not, and
`Element.lean` counts as the source does.  Behind that

* `addTextToSchema` of a string of `2 ^ 32 - 1` characters or more allocates the size modulo
  `2 ^ 32`, and `strcpy` runs over the end;
* a size from `2 ^ 31` on is negative as an `int`, and so is its count of chunks.  The counter of
  the loops over the chunks is a `size_t`: `count < chunks` compares with the count modulo `2 ^ 64`,
  and the loop leaves the string.  For 62 sizes just below `2 ^ 32` the count is 0 or 1 all the same
  (`Countable`): these texts end, and lose all their characters.

This file has the functions with the conversions; `none` is what has no result.  The rules for the
cut (`intCut`) are an instance of what the other files are written over, so their results carry
over where no count is negative.
-/
import Zgdb.Handle

namespace Zgdb

namespace Sized

open Zgdb.Lib AddrSpace

/-! ## 1. The conversions

The number of chunks as the source computes it, in 32 bits.  `Countable` are the sizes below `2 ^
32` for which it is not negative. -/

/-- `(int) size`, for a `size` of type `uint32_t`. -/
def toInt (size : Nat) : Int := (UInt32.ofNat size).toInt32.toInt

/-- `div((int) size, CHUNK_SIZE).quot`; C rounds to zero. -/
def quot (size : Nat) : Int := (toInt size).tdiv chunkSize

/-- `div((int) size, CHUNK_SIZE).rem`, of the sign of `(int) size` -/
def rem (size : Nat) : Int := (toInt size).tmod chunkSize

/-- `int chunks`, as five functions compute it. -/
def chunks (size : Nat) : Int := if rem size ≠ 0 then quot size + 1 else quot size

/-- What the loops make of it where they end: `rem` characters of the last chunk, none if `rem` is
negative. -/
@[reducible] def intCut : TextCut where
  chunks size := (chunks size).toNat
  rem size := (rem size).toNat

/-- An `int` added to a `size_t`.  A sum that is not negative is left as it is: the texts of a
schema are in memory, so their chunks cannot come near `2 ^ 64`. -/
def sizeT (sum : Int) : Nat := if 0 ≤ sum then sum.toNat else (sum % 2 ^ 64).toNat

/-- The sizes with a count that is not negative. -/
def Countable (size : Nat) : Prop :=
  size < 2 ^ 31 ∨ 2 ^ 32 - 64 < size ∧ size < 2 ^ 32 ∧ size ≠ 2 ^ 32 - 32

instance (size : Nat) : Decidable (Countable size) :=
  inferInstanceAs (Decidable (_ ∨ _))

theorem toInt_eq (size : Nat) : toInt size = (BitVec.ofNat 32 size).toInt := rfl

theorem toInt_of_lt {size : Nat} (h : size < 2 ^ 31) : toInt size = size := by
  rw [toInt_eq, BitVec.toInt_eq_toNat_cond, BitVec.toNat_ofNat]
  omega

theorem toInt_of_le {m : Nat} (hpos : 0 < m) (h : m ≤ 2 ^ 31) :
    toInt (2 ^ 32 - m) = -(m : Int) := by
  rw [toInt_eq, BitVec.toInt_eq_toNat_cond, BitVec.toNat_ofNat]
  omega

theorem rem_of_lt {size : Nat} (h : size < 2 ^ 31) : rem size = (size % chunkSize : Nat) := by
  rw [rem, toInt_of_lt h, Int.ofNat_tmod]

theorem rem_of_le {m : Nat} (hpos : 0 < m) (h : m ≤ 2 ^ 31) :
    rem (2 ^ 32 - m) = -((m % chunkSize : Nat) : Int) := by
  rw [rem, toInt_of_le hpos h, Int.neg_tmod, Int.ofNat_tmod]

/-- Below `2 ^ 31` nothing is lost. -/
theorem chunks_of_lt {size : Nat} (h : size < 2 ^ 31) : chunks size = chunkCount size := by
  have hq : quot size = (size / chunkSize : Nat) := by
    rw [quot, toInt_of_lt h, Int.ofNat_tdiv]
  rw [chunks, chunkCount, rem_of_lt h, hq]
  by_cases hz : size % chunkSize = 0
  · simp [hz]
  · rw [if_pos hz, if_pos (by exact_mod_cast hz)]
    rfl

/-- Above it the count is that of what is missing to `2 ^ 32`, downwards. -/
theorem chunks_of_le {m : Nat} (hpos : 0 < m) (h : m ≤ 2 ^ 31) :
    chunks (2 ^ 32 - m) = if m % chunkSize = 0 then -((m / chunkSize : Nat) : Int)
      else 1 - ((m / chunkSize : Nat) : Int) := by
  have hq : quot (2 ^ 32 - m) = -((m / chunkSize : Nat) : Int) := by
    rw [quot, toInt_of_le hpos h, Int.neg_tdiv, Int.ofNat_tdiv]
  rw [chunks, rem_of_le hpos h, hq]
  by_cases hz : m % chunkSize = 0
  · simp [hz]
  · rw [if_pos (by omega), if_neg hz]
    omega

/-- **Which counts are not negative.** -/
theorem chunks_nonneg_iff {size : Nat} (h : size < 2 ^ 32) : 0 ≤ chunks size ↔ Countable size := by
  unfold Countable
  by_cases hlt : size < 2 ^ 31
  · rw [chunks_of_lt hlt]
    exact ⟨fun _ => Or.inl hlt, fun _ => Int.natCast_nonneg _⟩
  · obtain ⟨m, hm⟩ : ∃ m, m = 2 ^ 32 - size := ⟨_, rfl⟩
    obtain rfl : size = 2 ^ 32 - m := by omega
    rw [chunks_of_le (by omega) (by omega)]
    by_cases hz : m % chunkSize = 0
    · rw [if_pos hz]
      unfold chunkSize at hz ⊢
      omega
    · rw [if_neg hz]
      unfold chunkSize at hz ⊢
      omega

/-- No text has more than `2 ^ 26` chunks. -/
theorem intCut_chunks_le (size : Nat) : intCut.chunks size ≤ 2 ^ 26 := by
  have hle : toInt size < 2 ^ 31 := by
    rw [toInt_eq, BitVec.toInt_eq_toNat_cond]
    omega
  have hq : quot size < 2 ^ 26 := by
    change (toInt size).tdiv 32 < 2 ^ 26
    rcases le_or_gt 0 (toInt size) with hpos | hneg
    · rw [Int.tdiv_eq_ediv_of_nonneg hpos]
      omega
    · have hle : 0 ≤ (-toInt size).tdiv 32 := Int.tdiv_nonneg (by omega) (by decide)
      rw [Int.neg_tdiv] at hle
      omega
  show (chunks size).toNat ≤ _
  unfold chunks
  by_cases hz : rem size = 0
  · rw [if_neg (not_not.mpr hz)]
    exact Int.toNat_le.mpr hq.le
  · rw [if_pos hz]
    exact Int.toNat_le.mpr hq

/-! ## 2. The functions of the source

The functions of `Schema.lean`, `Element.lean` and `Document.lean` once more, where a text without a
count has no result. -/

/-- `addTextToSchema`.  From `2 ^ 32` on the `malloc` is for the size modulo `2 ^ 32`, and the
`strcpy` behind it has no result. -/
def addTextToSchema (schema : DocumentSchema) (key : Name) (initValue : CString) :
    Option (AddStatus × DocumentSchema) :=
  match addElement schema key (.text (Text.ofString initValue)) with
  | (.addOk, schema) =>
    if initValue.strlen + 1 < 2 ^ 32 then
      some (.addOk, { schema with
        reqToast := true
        minToastCapacity := sizeT (schema.minToastCapacity + chunks (initValue.strlen + 1)) })
    else none
  | refused => some refused

/-- The loops over the chunks of a value end. -/
def ends : ElementValue → Bool
  | .text t => 0 ≤ chunks t.size
  | _ => true

variable {A : Type} [BlockSpace A]

/-- `writeElement` -/
def writeElement (h : Handle A) (cur : Element) (firstToastIndex : Nat) :
    Option (Handle A × Nat) :=
  if ends cur.value then some (@Handle.writeElement A _ intCut h cur firstToastIndex) else none

/-- The loop of `createDocument` over the elements. -/
def writeElements (firstToastIndex : Nat) :
    List Element → Handle A → Option (Handle A × List (Nat × Nat))
  | [], h => some (h, [])
  | cur :: rest, h => do
    let (next, n) ← writeElement h cur firstToastIndex
    let (last, calls) ← writeElements firstToastIndex rest next
    return (last, (h.disp, n) :: calls)

/-- `createDocument`.  Nothing is left of a creation one of whose loops does not end. -/
def createDocument (expandIndexes : ZgdbFile A → Option (ZgdbFile A)) (now : UInt32)
    (file : ZgdbFile A) (name : Name) (schema : DocumentSchema) (parent : Document) :
    Option (CreateStatus × ZgdbFile A) :=
  if schema.capacity ≠ schema.size then some (.outOfIndex, file)
  else if schema.elements.all fun e => ends e.value then
    @Zgdb.createDocument A _ intCut expandIndexes now file name schema parent
  else none

/-- `nextEl` -/
def nextEl (beyond : Mem Nat Obj) (file : ZgdbFile A) (it : ElementIterator A) (reqData : Bool) :
    Option (ElementEntry × ElementIterator A) := do
  let (entry, it) ← @nextElBuffered A _ intCut beyond 2 file it reqData
  if entry.value.all ends then return (entry, it) else none

/-- `while (hasNextEl(…)) nextEl(…)`: the entries, and the iterator in the end. -/
def drainEl (beyond : Mem Nat Obj) (file : ZgdbFile A) (reqData : Bool) :
    (fuel : Nat) → ElementIterator A → Option (List ElementEntry × ElementIterator A)
  | 0, it => if hasNextEl it then none else some ([], it)
  | fuel + 1, it =>
    if hasNextEl it then do
      let (entry, it) ← nextEl beyond file it reqData
      let (entries, it) ← drainEl beyond file reqData fuel it
      return (entry :: entries, it)
    else some ([], it)

/-! ## 3. Where nothing is lost

The other files are written over a cut of a size, which has two instances.  Where every text has a
count they give the same schema, the same writes and the same entries. -/

/-- `c` cuts a text of this size as the source does, whose loops over it end. -/
structure Cuts (c : TextCut) (size : Nat) : Prop where
  lt : size < 2 ^ 32
  chunks : chunks size = c.chunks size
  rem : c.rem size = intCut.rem size

theorem cuts_intCut {size : Nat} (h : Countable size) : Cuts intCut size := by
  have hlt : size < 2 ^ 32 := by
    unfold Countable at h
    omega
  exact ⟨hlt, (Int.toNat_of_nonneg ((chunks_nonneg_iff hlt).mpr h)).symm, rfl⟩

theorem cuts_natCut {size : Nat} (h : size < 2 ^ 31) : Cuts natCut size where
  lt := h.trans (by decide)
  chunks := chunks_of_lt h
  rem := by
    show size % chunkSize = (rem size).toNat
    rw [rem_of_lt h, Int.toNat_natCast]

theorem Cuts.chunks_eq {c : TextCut} {size : Nat} (h : Cuts c size) :
    c.chunks size = intCut.chunks size := by
  show c.chunks size = (Sized.chunks size).toNat
  rw [h.chunks, Int.toNat_natCast]

/-- `c` cuts the text of an element so, if it is one. -/
def CutBy (c : TextCut) (e : Element) : Prop := ∀ txt, e.value = .text txt → Cuts c txt.size

section Agree

variable {c : TextCut} {e : Element} {elements : List Element}

theorem CutBy.ends (h : CutBy c e) : ends e.value = true := by
  obtain ⟨key, v⟩ := e
  cases v with
  | text txt =>
    have hc := (h txt rfl).chunks
    simp only [Sized.ends, hc, decide_eq_true_eq]
    exact Int.natCast_nonneg _
  | _ => rfl

theorem CutBy.writeElement (h : CutBy c e) (handle : Handle A) (t : Nat) :
    @Handle.writeElement A _ c handle e t = @Handle.writeElement A _ intCut handle e t := by
  obtain ⟨key, v⟩ := e
  cases v with
  | text txt =>
    have hc := h txt rfl
    simp only [Handle.writeElement, Handle.writeValue, hc.chunks_eq, hc.rem]
  | _ => rfl

theorem CutBy.writeElement_file (h : CutBy c e) (file : ZgdbFile A) (pos : A) (d t : Nat) :
    @Zgdb.writeElement A _ c file pos d e t = @Zgdb.writeElement A _ intCut file pos d e t := by
  obtain ⟨key, v⟩ := e
  cases v with
  | text txt =>
    have hc := h txt rfl
    simp only [Zgdb.writeElement, Zgdb.writeValue, hc.chunks_eq, hc.rem]
  | _ => rfl

/-- **The element loop ends** and leaves what a loop that cuts so leaves. -/
theorem writeElements_eq (t : Nat) (h : ∀ e ∈ elements, CutBy c e) (handle : Handle A) :
    writeElements t elements handle = some (@Handle.writeElements A _ c t elements handle) := by
  induction elements generalizing handle with
  | nil => rfl
  | cons e rest ih =>
    have he := h e List.mem_cons_self
    simp only [writeElements, writeElement, he.ends, if_true, Option.bind_eq_bind,
      Option.bind_some, ih fun x hx => h x (List.mem_cons_of_mem _ hx), Handle.writeElements,
      he.writeElement]
    rfl

/-- An element loop that ends has no text with a negative count. -/
theorem ends_of_writeElements {t : Nat} {handle : Handle A} {r : Handle A × List (Nat × Nat)}
    (h : writeElements t elements handle = some r) : ∀ e ∈ elements, ends e.value = true := by
  induction elements generalizing handle r with
  | nil => simp
  | cons e rest ih =>
    obtain ⟨⟨next, n⟩, hnext, h⟩ := Option.bind_eq_some_iff.mp h
    obtain ⟨⟨last, calls⟩, hrest, -⟩ := Option.bind_eq_some_iff.mp h
    refine List.forall_mem_cons.mpr ⟨?_, ih hrest⟩
    by_contra hn
    rw [writeElement, if_neg hn] at hnext
    cases hnext

theorem writeElements_file (h : ∀ e ∈ elements, CutBy c e) (file : ZgdbFile A) (pos : A)
    (d t : Nat) : @Zgdb.writeElements A _ c file pos d t elements
      = @Zgdb.writeElements A _ intCut file pos d t elements := by
  induction elements generalizing file d with
  | nil => rfl
  | cons e rest ih =>
    simp only [Zgdb.writeElements, (h e List.mem_cons_self).writeElement_file]
    exact ih (fun x hx => h x (List.mem_cons_of_mem _ hx)) _ _

/-- **A creation without such a text** is one that cuts so. -/
theorem createDocument_eq {expandIndexes : ZgdbFile A → Option (ZgdbFile A)} {now : UInt32}
    {file : ZgdbFile A} {name : Name} {schema : DocumentSchema} {parent : Document}
    (h : ∀ e ∈ schema.elements, CutBy c e) :
    createDocument expandIndexes now file name schema parent
      = @Zgdb.createDocument A _ c expandIndexes now file name schema parent := by
  have hall : (schema.elements.all fun e => ends e.value) = true :=
    List.all_eq_true.mpr fun e he => (h e he).ends
  unfold createDocument
  by_cases hc : schema.capacity = schema.size
  · rw [if_neg (not_not.mpr hc), if_pos hall]
    simp only [Zgdb.createDocument, createBlock, writeElements_file h]
  · rw [if_pos hc]
    exact (createDocument_incomplete hc).symm

/-- **Only an incomplete schema is rejected**, and then nothing was written. -/
theorem createDocument_outOfIndex {expandIndexes : ZgdbFile A → Option (ZgdbFile A)} {now : UInt32}
    {file file' : ZgdbFile A} {name : Name} {schema : DocumentSchema} {parent : Document} :
    createDocument expandIndexes now file name schema parent = some (.outOfIndex, file') ↔
      schema.capacity ≠ schema.size ∧ file' = file := by
  unfold createDocument
  by_cases hc : schema.capacity = schema.size
  · rw [if_neg (not_not.mpr hc)]
    refine ⟨fun h => ?_, fun h => absurd hc h.1⟩
    split at h
    · exact absurd (@createDocument_cases A _ _ _ _ _ _ _ _ _ intCut h hc).1 (by simp)
    · cases h
  · rw [if_pos hc]
    simp only [Option.some.injEq, Prod.mk.injEq, true_and, ne_eq, hc, not_false_eq_true, eq_comm]

/-- `nextEl` returns where the loop over a text ends. -/
theorem nextEl_eq_some {beyond : Mem Nat Obj} {file : ZgdbFile A} {reqData : Bool}
    {it : ElementIterator A} {r : ElementEntry × ElementIterator A} :
    nextEl beyond file it reqData = some r ↔
      @nextElBuffered A _ intCut beyond 2 file it reqData = some r ∧ r.1.value.all ends = true := by
  unfold nextEl
  cases @nextElBuffered A _ intCut beyond 2 file it reqData with
  | none => simp
  | some r' =>
    simp only [Option.bind_eq_bind, Option.bind_some, Option.ite_none_right_eq_some,
      Option.pure_def, Option.some.injEq]
    constructor
    · rintro ⟨hends, rfl⟩
      exact ⟨rfl, hends⟩
    · rintro ⟨rfl, hends⟩
      exact ⟨hends, rfl⟩

/-- **The loop over `nextEl`** is the one that cuts by `intCut`, where the loops over the texts end.
-/
theorem drainEl_eq_some {beyond : Mem Nat Obj} {file : ZgdbFile A} {reqData : Bool} {fuel : Nat}
    {it it' : ElementIterator A} {entries : List ElementEntry} :
    drainEl beyond file reqData fuel it = some (entries, it') ↔
      @Zgdb.drainEl A _ intCut beyond file reqData fuel it = some (entries, it') ∧
        ∀ e ∈ entries, e.value.all ends = true := by
  induction fuel generalizing it it' entries with
  | zero =>
    unfold Zgdb.drainEl
    rw [drainEl]
    split
    · simp
    · simp only [Option.some.injEq, Prod.mk.injEq]
      constructor
      · rintro ⟨rfl, rfl⟩
        simp
      · exact And.left
  | succ fuel ih =>
    unfold Zgdb.drainEl
    rw [drainEl]
    split
    · simp only [Option.bind_eq_bind, Option.bind_eq_some_iff, Option.pure_def, nextEl_eq_some,
        Option.some.injEq, Prod.mk.injEq, Prod.exists, ih]
      constructor
      · rintro ⟨entry, it1, ⟨hbuf, hends⟩, rest, it2, ⟨hrest, hall⟩, rfl, rfl⟩
        exact ⟨⟨entry, it1, hbuf, rest, it2, hrest, rfl, rfl⟩,
          List.forall_mem_cons.mpr ⟨hends, hall⟩⟩
      · rintro ⟨⟨entry, it1, hbuf, rest, it2, hrest, rfl, rfl⟩, hall⟩
        exact ⟨entry, it1, ⟨hbuf, hall _ List.mem_cons_self⟩, rest, it2,
          ⟨hrest, fun e he => hall e (List.mem_cons_of_mem _ he)⟩, rfl, rfl⟩
    · simp only [Option.some.injEq, Prod.mk.injEq]
      constructor
      · rintro ⟨rfl, rfl⟩
        simp
      · exact And.left

end Agree

end Sized

end Zgdb
