/-
# The accounting of a schema

Four functions fill a schema and count as they go: `size`, `sizeOfElements`, `minToastCapacity`.
Three others produce and consume the bytes: `getElementSize`, `writeElement`, `nextEl`.  After any
sequence of `add…ToSchema` calls the counts are right for all of them (`schema_accounting`), so
`createDocument` may size its blocks by the counts alone; it rejects a schema exactly when some of
its slots are still empty.
-/
import Zgdb.Sizes

namespace Zgdb

open Zgdb.Lib AddrSpace

/-! ## 1. Sequences of calls

A call is one of the four functions with its arguments.  What matters of a sequence are the calls
that are accepted: they fill the slots, in their order. -/

/-- A call of one of the four `add…ToSchema` functions. -/
inductive AddCall where
  | int (key : Name) (initValue : Int32)
  | double (key : Name) (initValue : UInt64)
  | boolean (key : Name) (initValue : UInt8)
  | text (key : Name) (initValue : CString)

namespace AddCall

def key : AddCall → Name
  | int key _ | double key _ | boolean key _ | text key _ => key

/-- The value the element gets. -/
def value : AddCall → ElementValue
  | int _ v => .int v
  | double _ v => .double v
  | boolean _ v => .boolean v
  | text _ v => .text (Text.ofString v)

def exec [TextCut] (schema : DocumentSchema) : AddCall → AddStatus × DocumentSchema
  | int key v => addIntToSchema schema key v
  | double key v => addDoubleToSchema schema key v
  | boolean key v => addBooleanToSchema schema key v
  | text key v => addTextToSchema schema key v

end AddCall

/-- The calls one after the other: their statuses and the schema. -/
def addAll [TextCut] : DocumentSchema → List AddCall → List AddStatus × DocumentSchema
  | schema, [] => ([], schema)
  | schema, call :: calls =>
    let (status, schema) := call.exec schema
    let (statuses, schema) := addAll schema calls
    (status :: statuses, schema)

section Calls

variable {s : DocumentSchema}

/-- The status does not depend on the type. -/
theorem AddCall.exec_status [TextCut] (call : AddCall) (s : DocumentSchema) :
    (call.exec s).1 = (addElement s call.key call.value).1 := by
  cases call with
  | text key v =>
    rcases addElement_cases s key (.text (Text.ofString v)) with ⟨-, hne⟩ | ⟨-, -, heq⟩
    · simp only [exec, addTextToSchema, AddCall.key, AddCall.value]
      generalize addElement s key (.text (Text.ofString v)) = r at hne
      obtain ⟨status, s'⟩ := r
      cases status with
      | addOk => exact absurd rfl hne
      | nameExists => rfl
      | schemaOverflow => rfl
    · simp only [exec, addTextToSchema, AddCall.key, AddCall.value, heq]
  | int key v => rfl
  | double key v => rfl
  | boolean key v => rfl

/-- A refused call leaves the schema as it was. -/
theorem AddCall.exec_refused [TextCut] {call : AddCall} (h : (call.exec s).1 ≠ .addOk) :
    (call.exec s).2 = s := by
  have hadd : (addElement s call.key call.value).2 = s := by
    rw [call.exec_status] at h
    rcases addElement_cases s call.key call.value with ⟨hs, -⟩ | ⟨-, -, heq⟩
    · exact hs
    · exact absurd (by rw [heq]) h
  cases call with
  | text key v =>
    simp only [exec, addTextToSchema] at h ⊢
    simp only [AddCall.key, AddCall.value] at hadd
    generalize addElement s key (.text (Text.ofString v)) = r at h hadd
    obtain ⟨status, s'⟩ := r
    cases status with
    | addOk => exact absurd rfl h
    | nameExists => exact hadd
    | schemaOverflow => exact hadd
  | int key v => exact hadd
  | double key v => exact hadd
  | boolean key v => exact hadd

/-- An accepted call fills one more slot. -/
theorem AddCall.exec_accepted [TextCut] {call : AddCall} (h : (call.exec s).1 = .addOk) :
    (call.exec s).2.capacity = s.capacity ∧ (call.exec s).2.size = s.size + 1 := by
  have heq : ∃ s', addElement s call.key call.value = (.addOk, s') ∧ s'.capacity = s.capacity ∧
      s'.size = s.size + 1 := by
    rw [call.exec_status] at h
    rcases addElement_cases s call.key call.value with ⟨-, hne⟩ | ⟨-, -, heq⟩
    · exact absurd h hne
    · exact ⟨_, heq, rfl, rfl⟩
  obtain ⟨s', heq, hcap, hsize⟩ := heq
  cases call <;>
  · simp only [AddCall.key, AddCall.value] at heq
    simp only [exec, addIntToSchema, addDoubleToSchema, addBooleanToSchema, addTextToSchema, heq]
    exact ⟨hcap, hsize⟩

theorem DocumentSchema.Built.exec [TextCut] (h : s.Built) (call : AddCall) :
    (call.exec s).2.Built := by
  cases call with
  | int key v => exact .int key v h
  | double key v => exact .double key v h
  | boolean key v => exact .boolean key v h
  | text key v => exact .text key v h

/-- The schema after a sequence of calls: as many slots are filled as calls were accepted. -/
theorem addAll_spec [TextCut] (calls : List AddCall) : ∀ {s : DocumentSchema}, s.Built →
    (addAll s calls).2.Built ∧ (addAll s calls).2.capacity = s.capacity ∧
      (addAll s calls).2.size = s.size + (addAll s calls).1.count .addOk := by
  induction calls with
  | nil => exact fun h => ⟨h, rfl, rfl⟩
  | cons call calls ih =>
    intro s h
    obtain ⟨hbuilt, hcap, hsize⟩ := ih (h.exec call)
    refine ⟨hbuilt, ?_⟩
    simp only [addAll]
    by_cases hok : (call.exec s).1 = .addOk
    · obtain ⟨hcap', hsize'⟩ := AddCall.exec_accepted hok
      rw [hok, List.count_cons_self, hcap, hcap', hsize, hsize']
      exact ⟨rfl, by omega⟩
    · rw [List.count_cons_of_ne hok, hcap, hsize, AddCall.exec_refused hok]
      exact ⟨rfl, rfl⟩

end Calls

/-! ## 2. The calls in the types of the source

The same sequence with the sizes as `uint32_t` and the counts as `int`.  It has no result where a
text runs over the end of its memory; otherwise it accepts and refuses the same calls. -/

/-- The element a call adds. -/
def AddCall.element (call : AddCall) : Element := ⟨call.key, call.value⟩

/-- A slot is empty for the call, `filled` being the calls that filled one. -/
def AddCall.Admits (capacity : Nat) (filled : List AddCall) (call : AddCall) : Prop :=
  call.key ≠ Name.id ∧ call.key ∉ filled.map AddCall.key ∧ filled.length < capacity

instance (capacity : Nat) (filled : List AddCall) (call : AddCall) :
    Decidable (call.Admits capacity filled) :=
  inferInstanceAs (Decidable (_ ∧ _))

/-- The calls that fill a slot, behind those that filled one before. -/
def accepted (capacity : Nat) : (filled : List AddCall) → List AddCall → List AddCall
  | filled, [] => filled
  | filled, call :: calls =>
    if call.Admits capacity filled then accepted capacity (filled ++ [call]) calls
    else accepted capacity filled calls

theorem mem_accepted_of_mem {capacity : Nat} {calls : List AddCall} :
    ∀ {filled : List AddCall} {call : AddCall}, call ∈ filled →
      call ∈ accepted capacity filled calls := by
  induction calls with
  | nil => exact fun h => h
  | cons x calls ih =>
    intro filled call h
    rw [accepted]
    split
    · exact ih (List.mem_append_left _ h)
    · exact ih h

theorem accepted_append (capacity : Nat) (before after : List AddCall) :
    ∀ filled : List AddCall, accepted capacity filled (before ++ after)
      = accepted capacity (accepted capacity filled before) after := by
  induction before with
  | nil => exact fun _ => rfl
  | cons x before ih =>
    intro filled
    rw [List.cons_append, accepted, accepted]
    split
    · exact ih _
    · exact ih _

/-- A schema whose slots these calls filled. -/
structure DocumentSchema.Filled (s : DocumentSchema) (capacity : Nat) (filled : List AddCall) :
    Prop where
  elements_eq : s.elements = filled.map AddCall.element
  capacity_eq : s.capacity = capacity
  size_eq : s.size = filled.length
  le : filled.length ≤ capacity

theorem filled_initSchema (capacity : Nat) : (initSchema capacity).Filled capacity [] :=
  ⟨rfl, rfl, rfl, Nat.zero_le _⟩

section Filled

variable {s : DocumentSchema} {capacity : Nat} {filled : List AddCall}

/-- When a call fills a slot. -/
theorem DocumentSchema.Filled.addElement (h : s.Filled capacity filled) (call : AddCall) :
    (call.Admits capacity filled →
      (Zgdb.addElement s call.key call.value).1 = .addOk ∧
        (Zgdb.addElement s call.key call.value).2.Filled capacity (filled ++ [call])) ∧
    (¬ call.Admits capacity filled →
      (Zgdb.addElement s call.key call.value).1 ≠ .addOk ∧
        (Zgdb.addElement s call.key call.value).2 = s) := by
  have hkeys : s.elements.map Element.key = filled.map AddCall.key := by
    rw [h.elements_eq, List.map_map]
    rfl
  have hany : (s.elements.any fun e => e.key = call.key) = true ↔
      call.key ∈ filled.map AddCall.key := by
    rw [← hkeys]
    simp
  have hfull : s.size = s.capacity ↔ ¬ filled.length < capacity := by
    have hle := h.le
    rw [h.size_eq, h.capacity_eq]
    omega
  unfold Zgdb.addElement
  constructor
  · rintro ⟨hid, hmem, hlt⟩
    rw [if_neg hid, if_neg (mt hany.mp hmem), if_neg fun hc => hfull.mp hc hlt]
    refine ⟨rfl, ?_, h.capacity_eq, ?_, ?_⟩
    · simp only [h.elements_eq, List.map_append, List.map_singleton, AddCall.element]
    · simp only [h.size_eq, List.length_append, List.length_singleton]
    · simp only [List.length_append, List.length_singleton]
      omega
  · intro hno
    by_cases hid : call.key = Name.id
    · simp [hid]
    · by_cases hmem : call.key ∈ filled.map AddCall.key
      · rw [if_neg hid, if_pos (hany.mpr hmem)]
        exact ⟨by simp, rfl⟩
      · have hlt : ¬ filled.length < capacity := fun hlt => hno ⟨hid, hmem, hlt⟩
        rw [if_neg hid, if_neg (mt hany.mp hmem), if_pos (hfull.mpr hlt)]
        exact ⟨by simp, rfl⟩

end Filled

namespace Sized

def exec (schema : DocumentSchema) : AddCall → Option (AddStatus × DocumentSchema)
  | .int key v => some (addIntToSchema schema key v)
  | .double key v => some (addDoubleToSchema schema key v)
  | .boolean key v => some (addBooleanToSchema schema key v)
  | .text key v => addTextToSchema schema key v

/-- The calls one after the other: their statuses and the schema. -/
def addAll : DocumentSchema → List AddCall → Option (List AddStatus × DocumentSchema)
  | schema, [] => some ([], schema)
  | schema, call :: calls => do
    let (status, schema) ← exec schema call
    let (statuses, schema) ← addAll schema calls
    return (status :: statuses, schema)

theorem sizeT_add (a b : Nat) : sizeT ((a : Int) + b) = a + b := by
  have hle : (0 : Int) ≤ (a : Int) + b := Int.natCast_nonneg (a + b)
  rw [sizeT, if_pos hle]
  exact Int.toNat_natCast (a + b)

section Calls

variable {s : DocumentSchema} {capacity : Nat} {filled : List AddCall} {call : AddCall}

/-- A call returns unless it copies a string past its memory, and then the schema is `addElement`'s
but for the count of the chunks. -/
theorem exec_cases {r : AddStatus × DocumentSchema} (h : exec s call = some r) :
    r.1 = (Zgdb.addElement s call.key call.value).1 ∧
      (∀ capacity filled, (Zgdb.addElement s call.key call.value).2.Filled capacity filled →
        r.2.Filled capacity filled) ∧
      (r.1 = .addOk → ∀ txt, call.value = .text txt → txt.size < 2 ^ 32) := by
  cases call with
  | text key v =>
    simp only [exec, addTextToSchema] at h
    simp only [AddCall.key, AddCall.value]
    generalize Zgdb.addElement s key (.text (Text.ofString v)) = r' at h
    obtain ⟨status, s'⟩ := r'
    cases status with
    | addOk =>
      simp only at h
      split at h
      · rename_i hlt
        cases h
        refine ⟨rfl, fun capacity filled hf => ⟨hf.1, hf.2, hf.3, hf.4⟩, ?_⟩
        rintro - txt htxt
        cases htxt
        exact hlt
      · cases h
    | nameExists =>
      cases h
      exact ⟨rfl, fun _ _ hf => hf, by simp⟩
    | schemaOverflow =>
      cases h
      exact ⟨rfl, fun _ _ hf => hf, by simp⟩
  | _ =>
    cases h
    refine ⟨rfl, fun _ _ hf => hf, ?_⟩
    rintro - txt htxt
    cases htxt

/-- **A call that returns** on a schema whose slots the calls `filled` filled. -/
theorem exec_filled {r : AddStatus × DocumentSchema} (hf : s.Filled capacity filled)
    (h : exec s call = some r) :
    if call.Admits capacity filled then
      r.1 = .addOk ∧ r.2.Filled capacity (filled ++ [call]) ∧
        ∀ txt, call.value = .text txt → txt.size < 2 ^ 32
    else r.1 ≠ .addOk ∧ r.2.Filled capacity filled := by
  obtain ⟨hstatus, hfilled, hlt⟩ := exec_cases h
  obtain ⟨hyes, hno⟩ := hf.addElement call
  by_cases hadm : call.Admits capacity filled
  · rw [if_pos hadm]
    obtain ⟨hok, hf'⟩ := hyes hadm
    exact ⟨hstatus.trans hok, hfilled _ _ hf', hlt (hstatus.trans hok)⟩
  · rw [if_neg hadm]
    obtain ⟨hok, hs⟩ := hno hadm
    exact ⟨fun he => hok (hstatus.symm.trans he), hfilled _ _ (hs.symm ▸ hf)⟩

/-- A call without a text that is counted wrong returns as if nothing were lost. -/
theorem exec_eq {c : TextCut} (h : (Zgdb.addElement s call.key call.value).1 = .addOk →
    CutBy c call.element) : exec s call = some (@AddCall.exec c s call) := by
  cases call with
  | text key v =>
    simp only [exec, addTextToSchema, AddCall.exec, Zgdb.addTextToSchema, AddCall.key,
      AddCall.value] at h ⊢
    generalize Zgdb.addElement s key (.text (Text.ofString v)) = r at h
    obtain ⟨status, s'⟩ := r
    cases status with
    | addOk =>
      have hc : Cuts c (v.strlen + 1) := h rfl _ rfl
      simp only [if_pos hc.lt, hc.chunks, sizeT_add]
    | nameExists => rfl
    | schemaOverflow => rfl
  | _ => rfl

/-- The calls fill the slots they are admitted to, with texts of a size that 32 bits hold. -/
theorem addAll_filled {calls : List AddCall} : ∀ {s : DocumentSchema} {filled : List AddCall}
    {statuses : List AddStatus} {s' : DocumentSchema}, s.Filled capacity filled →
    addAll s calls = some (statuses, s') →
    s'.Filled capacity (accepted capacity filled calls) ∧
      filled.length + statuses.count .addOk = (accepted capacity filled calls).length ∧
      ∀ call ∈ accepted capacity filled calls, call ∈ filled ∨
        ∀ txt, call.value = .text txt → txt.size < 2 ^ 32 := by
  induction calls with
  | nil =>
    rintro s filled statuses s' hf h
    cases h
    exact ⟨hf, rfl, fun call hc => Or.inl hc⟩
  | cons call calls ih =>
    rintro s filled statuses s' hf h
    obtain ⟨⟨status, s1⟩, h1, h⟩ := Option.bind_eq_some_iff.mp h
    obtain ⟨⟨rest, s2⟩, h2, h⟩ := Option.bind_eq_some_iff.mp h
    cases h
    have h1' := exec_filled hf h1
    rw [accepted]
    by_cases hadm : call.Admits capacity filled
    · rw [if_pos hadm] at h1' ⊢
      obtain ⟨rfl, hf1, hlt⟩ := h1'
      obtain ⟨hf2, hcount, hall⟩ := ih hf1 h2
      refine ⟨hf2, ?_, ?_⟩
      · rw [List.count_cons_self, ← hcount, List.length_append, List.length_singleton]
        omega
      · intro x hx
        rcases hall x hx with hx | hx
        · rcases List.mem_append.mp hx with hx | hx
          · exact Or.inl hx
          · exact Or.inr (List.mem_singleton.mp hx ▸ hlt)
        · exact Or.inr hx
    · rw [if_neg hadm] at h1' ⊢
      obtain ⟨hne, hf1⟩ := h1'
      obtain ⟨hf2, hcount, hall⟩ := ih hf1 h2
      exact ⟨hf2, by rw [List.count_cons_of_ne hne, hcount], hall⟩

/-- **Calls without a text that is counted wrong** return as if nothing were lost. -/
theorem addAll_eq {c : TextCut} {calls : List AddCall} : ∀ {s : DocumentSchema}
    {filled : List AddCall}, s.Filled capacity filled →
    (∀ call ∈ accepted capacity filled calls, CutBy c call.element) →
    addAll s calls = some (@Zgdb.addAll c s calls) := by
  induction calls with
  | nil => exact fun _ _ => rfl
  | cons call calls ih =>
    intro s filled hf hcut
    obtain ⟨hyes, hno⟩ := hf.addElement call
    have hexec : exec s call = some (@AddCall.exec c s call) := by
      refine exec_eq fun hok => ?_
      have hadm : call.Admits capacity filled := by
        by_contra hadm
        exact (hno hadm).1 hok
      rw [accepted, if_pos hadm] at hcut
      exact hcut call (mem_accepted_of_mem (List.mem_append_right _ List.mem_cons_self))
    have h1 := exec_filled hf hexec
    have hrest : addAll (@AddCall.exec c s call).2 calls
        = some (@Zgdb.addAll c (@AddCall.exec c s call).2 calls) := by
      rw [accepted] at hcut
      by_cases hadm : call.Admits capacity filled
      · rw [if_pos hadm] at h1 hcut
        exact ih h1.2.1 hcut
      · rw [if_neg hadm] at h1 hcut
        exact ih h1.2 hcut
    simp only [addAll, hexec, Option.bind_eq_bind, Option.bind_some, hrest]
    rfl

end Calls

end Sized

/-! ## 3. The bytes

`writeElement` is followed on the stream and `nextEl` through its buffer.  Both need a layout in
which the block of the document and the toast have room and lie apart. -/

section Bytes

variable {A : Type} [BlockSpace A] {L : Layout A} {file : ZgdbFile A} {s : DocumentSchema}
  {k d t : Nat}

/-- Block `k` has room from `d` on for the elements of a schema, and the toast `t`, another block,
for their chunks behind the used slots. -/
structure RoomFor (L : Layout A) (file : ZgdbFile A) (s : DocumentSchema) (k d t : Nat) : Prop where
  block : L.mem k
  elements : d + s.sizeOfElements ≤ L.len k
  toast : s.reqToast = true → t ≠ k ∧ Shows L file t ∧ IsToast file t ∧
    sizeofToast + ((toastAt file t).used + s.minToastCapacity) * chunkRecord ≤ L.len t

/-- The texts that are read from stored elements have the sizes they were stored with. -/
theorem size_of_mem_entriesOf [TextCut] {t d used : Nat} {elements : List Element}
    {entry : ElementEntry} (h : entry ∈ entriesOf file t true d (storeElements used elements))
    {txt : Text} (hv : entry.value = some (.text txt)) :
    ∃ e ∈ elements, ∃ txt', e.value = .text txt' ∧ txt.size = txt'.size := by
  induction elements generalizing d used with
  | nil => cases h
  | cons e rest ih =>
    rw [storeElements, entriesOf] at h
    rcases List.mem_cons.mp h with rfl | h
    · obtain ⟨key, v⟩ := e
      cases v with
      | text txt' =>
        simp only [storeElement, StoredValue.read, if_true, Option.some.injEq,
          ElementValue.text.injEq] at hv
        exact ⟨_, List.mem_cons_self, txt', rfl, hv ▸ rfl⟩
      | _ => simp [storeElement, StoredValue.read] at hv
    · obtain ⟨e', he', h'⟩ := ih h
      exact ⟨e', List.mem_cons_of_mem _ he', h'⟩

/-- What the elements take, `file'` being the file in which they are written: the way `nextEl` goes
over them, and the slots of the toast. -/
structure Spent [TextCut] (L : Layout A) (file file' : ZgdbFile A) (s : DocumentSchema)
    (k d t : Nat) :
    Prop where
  distance : ∀ beyond reqData fuel (it : ElementIterator A), it.block = L.pos k →
    it.offsetInFile = d → it.buffer = none →
    it.allAttributesCount = it.passedAttributesCount + s.size → s.size ≤ fuel →
    ∃ entries it', drainEl beyond file' reqData fuel it = some (entries, it') ∧
      it'.offsetInFile - it.offsetInFile = s.sizeOfElements ∧
      ∀ e ∈ entries, ∀ txt, e.value = some (.text txt) → ∃ x ∈ s.elements, ∃ txt',
        x.value = .text txt' ∧ txt.size = txt'.size
  used : s.reqToast = true → (toastAt file' t).used - (toastAt file t).used = s.minToastCapacity

/-- **The counts are what the elements take.** -/
theorem DocumentSchema.Wf.spent [TextCut] (hwf : s.Wf) (h : RoomFor L file s k d t) :
    Spent L file (Handle.writeElements t s.elements ⟨file, L.pos k, d, []⟩).1.file s k d t := by
  obtain ⟨own, hown⟩ : ∃ own, own = if s.reqToast then [t] else [] := ⟨_, rfl⟩
  have hmem : ∀ x, x ∈ own ↔ s.reqToast = true ∧ x = t := by
    intro x
    rw [hown]
    split <;> simp_all
  have harea : Area L file own := by
    refine ⟨fun x hx => ?_, fun x hx => ?_, fun x hx => ?_⟩ <;>
      obtain ⟨hr, rfl⟩ := (hmem x).mp hx <;> obtain ⟨-, hs, hto, hle⟩ := h.toast hr
    · exact hs
    · exact hto
    · exact (Nat.le_add_right _ _).trans hle
  have hkt : k ∉ own := by
    intro hk
    obtain ⟨hr, rfl⟩ := (hmem k).mp hk
    exact (h.toast hr).1 rfl
  have hsum : (s.elements.map getElementSize).sum = s.sizeOfElements := hwf.sizeOfElements_eq.symm
  have hchunks : chunksOf s.elements = s.minToastCapacity := hwf.minToastCapacity_eq.symm
  have hused : ∀ x ∈ own, x = t ∧ (toastAt file x).used = (toastAt file t).used ∧
      sizeofToast + ((toastAt file t).used + chunksOf s.elements) * chunkRecord ≤ L.len x := by
    intro x hx
    obtain ⟨hr, rfl⟩ := (hmem x).mp hx
    rw [hchunks]
    exact ⟨rfl, rfl, (h.toast hr).2.2.2⟩
  obtain ⟨-, hholds, htoasts, -⟩ := writeElements_spec s.elements h.block
    (by rw [hsum]; exact h.elements) harea hkt hused
    fun e he hte => (hmem t).mpr ⟨hwf.reqToast_iff.mpr ⟨e, he, hte⟩, rfl⟩
  rw [(Handle.writeElements_eq _ _ _).1]
  refine ⟨?_, ?_⟩
  · intro beyond reqData fuel it hblock hoffset hbuffer hcount hfuel
    have hfollows : Follows it
        ⟨writeElements file (L.pos k) d t s.elements, L.pos k, d, []⟩ :=
      ⟨fun buf hbuf => (Option.some_ne_none buf (hbuf.symm.trans hbuffer)).elim, hblock, hoffset⟩
    obtain ⟨it', hrun, -, hlast⟩ := hfollows.drain reqData rfl rfl hcount hfuel
    obtain ⟨hlist, hdisp⟩ := Handle.readElements_of_holds it.doc
      (h := ⟨writeElements file (L.pos k) d t s.elements, L.pos k, d, []⟩) hholds
    rw [storeElements_length, ← hwf.size_eq] at hlist hdisp
    rw [storeElements_size, hsum] at hdisp
    refine ⟨_, it', hrun, by rw [hlast, hdisp, hoffset, Nat.add_sub_cancel_left], ?_⟩
    intro e he txt htxt
    cases reqData with
    | false =>
      obtain ⟨r, -, rfl⟩ := List.mem_map.mp he
      cases htxt
    | true =>
      rw [hlist] at he
      exact size_of_mem_entriesOf he htxt
  · intro hr
    rw [(htoasts t ((hmem t).mpr ⟨hr, rfl⟩)).2, hchunks]
    exact Nat.add_sub_cancel_left _ _

end Bytes

/-! ## 4. The accounting

Where every text has a count the functions with the casts are those without them, and the accounting
is the one of section 3.  Where one has none, `writeElement` of that text has no result while its
call is accepted. -/

namespace Sized

/-- What the elements take, `file'` being the file in which they are written: the way `nextEl` goes
over them, and the slots of the toast. -/
structure Spent {A : Type} [BlockSpace A] (L : Layout A) (file file' : ZgdbFile A)
    (s : DocumentSchema) (k d t : Nat) : Prop where
  distance : ∀ beyond reqData fuel (it : ElementIterator A), it.block = L.pos k →
    it.offsetInFile = d → it.buffer = none →
    it.allAttributesCount = it.passedAttributesCount + s.size → s.size ≤ fuel →
    ∃ entries it', drainEl beyond file' reqData fuel it = some (entries, it') ∧
      it'.offsetInFile - it.offsetInFile = s.sizeOfElements
  used : s.reqToast = true → (toastAt file' t).used - (toastAt file t).used = s.minToastCapacity

/-- The counts of a schema are right for the functions that write, read and create. -/
structure Accounted (A : Type) [BlockSpace A] (capacity : Nat) (statuses : List AddStatus)
    (s : DocumentSchema) : Prop where
  keys : (s.elements.map Element.key).Nodup
  sizes : s.sizeOfElements = (s.elements.map getElementSize).sum
  returned : ∀ (h : Handle A) (t : Nat), ∃ last calls,
    writeElements t s.elements h = some (last, calls) ∧
      s.sizeOfElements = (calls.map Prod.snd).sum
  spent : ∀ (L : Layout A) (file : ZgdbFile A) (k d t : Nat), RoomFor L file s k d t →
    ∃ last calls, writeElements t s.elements ⟨file, L.pos k, d, []⟩ = some (last, calls) ∧
      Spent L file last.file s k d t
  rejected : ∀ (expandIndexes : ZgdbFile A → Option (ZgdbFile A)) (now : UInt32)
    (file : ZgdbFile A) (name : Name) (parent : Document),
    ((∃ file', createDocument expandIndexes now file name s parent = some (.outOfIndex, file')) ↔
      statuses.count .addOk < capacity) ∧
    ∀ file', createDocument expandIndexes now file name s parent = some (.outOfIndex, file') →
      file' = file

/-- The accounting over a sequence of calls: each of them is accepted when its key is not `id` and
not there yet and a slot is empty, and changes nothing otherwise; and the counts are right in the
end. -/
structure SchemaAccounting (A : Type) [BlockSpace A] (capacity : Nat) (calls : List AddCall) :
    Prop where
  step : ∀ before call after, calls = before ++ call :: after → ∃ statuses s status s',
    addAll (initSchema capacity) before = some (statuses, s) ∧ exec s call = some (status, s') ∧
      (status = .addOk ↔ call.key ≠ Name.id ∧ call.key ∉ s.elements.map Element.key ∧
        s.size < capacity) ∧
      (status ≠ .addOk → s' = s)
  counts : ∃ statuses s, addAll (initSchema capacity) calls = some (statuses, s) ∧
    Accounted A capacity statuses s

section Accounting

variable {A : Type} [BlockSpace A] {capacity : Nat} {calls : List AddCall}

/-- The texts that fill a slot have a count.  A text whose call is refused, because its key is there
or the array is full, is not asked for anything. -/
def AllCountable (capacity : Nat) (calls : List AddCall) : Prop :=
  ∀ key v, AddCall.text key v ∈ accepted capacity [] calls → Countable (v.strlen + 1)

theorem AllCountable.cutBy (h : AllCountable capacity calls) :
    ∀ call ∈ accepted capacity [] calls, CutBy intCut call.element := by
  rintro call hc txt htxt
  cases call with
  | text key v =>
    cases htxt
    exact cuts_intCut (h key v hc)
  | _ => cases htxt

/-- Where the loops over the elements end, every text has a count. -/
theorem countable_of_ends {s : DocumentSchema}
    (hfilled : s.Filled capacity (accepted capacity [] calls))
    (hlt : ∀ call ∈ accepted capacity [] calls, call ∈ [] ∨
      ∀ txt, call.value = .text txt → txt.size < 2 ^ 32)
    (hends : ∀ e ∈ s.elements, ends e.value = true) : AllCountable capacity calls := by
  intro key v hc
  have hend := hends (AddCall.text key v).element (by
    rw [hfilled.elements_eq]
    exact List.mem_map_of_mem hc)
  have hsize : v.strlen + 1 < 2 ^ 32 :=
    (hlt _ hc).resolve_left List.not_mem_nil (Text.ofString v) rfl
  exact (chunks_nonneg_iff hsize).mp (of_decide_eq_true hend)

/-- **The counts are right only if every text has one.** -/
theorem SchemaAccounting.countable (h : SchemaAccounting A capacity calls) :
    AllCountable capacity calls := by
  obtain ⟨statuses, s, hrun, hcounts⟩ := h.counts
  obtain ⟨hfilled, -, hlt⟩ := addAll_filled (filled_initSchema capacity) hrun
  obtain ⟨last, written, hwritten, -⟩ :=
    hcounts.returned ⟨init 0, BlockSpace.base 0 0, 0, []⟩ 0
  exact countable_of_ends hfilled hlt (ends_of_writeElements hwritten)

/-- One call of a sequence whose texts are cut as the source does. -/
theorem step_of_cut [c : TextCut] (hcut : ∀ call ∈ accepted capacity [] calls, CutBy c call.element)
    {before after : List AddCall} {call : AddCall} (he : calls = before ++ call :: after) :
    ∃ statuses s status s',
    addAll (initSchema capacity) before = some (statuses, s) ∧ exec s call = some (status, s') ∧
      (status = .addOk ↔ call.key ≠ Name.id ∧ call.key ∉ s.elements.map Element.key ∧
        s.size < capacity) ∧
      (status ≠ .addOk → s' = s) := by
  subst he
  rw [accepted_append] at hcut
  obtain ⟨⟨statuses, s⟩, hbefore⟩ : ∃ r, addAll (initSchema capacity) before = some r :=
    ⟨_, addAll_eq (filled_initSchema capacity) fun x hx => hcut x (mem_accepted_of_mem hx)⟩
  obtain ⟨hf, -, -⟩ := addAll_filled (filled_initSchema capacity) hbefore
  generalize accepted capacity [] before = filled at hcut hf
  obtain ⟨hyes, hno⟩ := hf.addElement call
  have hexec : exec s call = some (call.exec s) := by
    refine exec_eq fun hok => ?_
    have hadm : call.Admits capacity filled := by
      by_contra hadm
      exact (hno hadm).1 hok
    rw [accepted, if_pos hadm] at hcut
    exact hcut call (mem_accepted_of_mem (List.mem_append_right _ List.mem_cons_self))
  refine ⟨statuses, s, (call.exec s).1, (call.exec s).2, hbefore, hexec, ?_,
    fun hne => AddCall.exec_refused hne⟩
  have hkeys : s.elements.map Element.key = filled.map AddCall.key := by
    rw [hf.elements_eq, List.map_map]
    rfl
  rw [AddCall.exec_status, hkeys, hf.size_eq]
  constructor
  · intro hok
    by_contra hadm
    exact (hno hadm).1 hok
  · exact fun hadm => (hyes hadm).1

/-- **The counts after such a sequence.** -/
theorem counts_of_cut [c : TextCut] (hc : c = intCut)
    (hcut : ∀ call ∈ accepted capacity [] calls, CutBy c call.element) :
    ∃ statuses s, addAll (initSchema capacity) calls = some (statuses, s) ∧
      Accounted A capacity statuses s := by
  obtain ⟨⟨statuses, s⟩, hr⟩ : ∃ r, r = Zgdb.addAll (initSchema capacity) calls := ⟨_, rfl⟩
  have hrun := addAll_eq (filled_initSchema capacity) hcut
  rw [← hr] at hrun
  obtain ⟨hfilled, hcount, -⟩ := addAll_filled (filled_initSchema capacity) hrun
  obtain ⟨hbuilt, -, -⟩ := addAll_spec calls (.init capacity)
  rw [← hr] at hbuilt
  have hwf : s.Wf := hbuilt.wf
  have hcut : ∀ e ∈ s.elements, CutBy c e := by
    rw [hfilled.elements_eq]
    exact List.forall_mem_map.mpr hcut
  refine ⟨statuses, s, hrun, hwf.keys_nodup, hwf.sizeOfElements_eq, ?_, ?_, ?_⟩
  · intro handle t
    refine ⟨_, _, writeElements_eq t hcut handle, ?_⟩
    rw [(Handle.writeElements_eq _ _ _).2, Handle.places_sizes]
    exact hwf.sizeOfElements_eq
  · intro L file k d t hroom
    have hspent := hwf.spent hroom
    refine ⟨_, _, writeElements_eq t hcut _, ?_, hspent.used⟩
    intro beyond reqData fuel it hblock hoffset hbuffer hcounts hfuel
    obtain ⟨entries, it', hdrain, hdist, hsizes⟩ :=
      hspent.distance beyond reqData fuel it hblock hoffset hbuffer hcounts hfuel
    refine ⟨entries, it', drainEl_eq_some.mpr ⟨hc ▸ hdrain, ?_⟩, hdist⟩
    intro e he
    rcases hv : e.value with _ | v
    · rfl
    cases v with
    | text txt =>
      obtain ⟨x, hx, txt', hx', hsize⟩ := hsizes e he txt hv
      have hends := (hcut x hx).ends
      rw [hx'] at hends
      simpa only [Option.all_some, ends, hsize] using hends
    | _ => rfl
  · intro expandIndexes now file name parent
    have hle := hfilled.le
    have hsize := hfilled.size_eq
    have hcap := hfilled.capacity_eq
    rw [← hcount, List.length_nil, Nat.zero_add] at hle hsize
    simp only [createDocument_outOfIndex]
    refine ⟨⟨?_, fun hlt => ⟨file, by omega, rfl⟩⟩, fun _ h => h.2⟩
    rintro ⟨file', hne, -⟩
    omega

/-- **Schema accounting** holds of a sequence of calls exactly when every text that fills a slot has
a count: when it has, with its terminator, fewer than `2 ^ 31` bytes or one of the 62 sizes below
`2 ^ 32` whose count is 0 or 1. -/
theorem schema_accounting (A : Type) [BlockSpace A] (capacity : Nat) (calls : List AddCall) :
    SchemaAccounting A capacity calls ↔ AllCountable capacity calls :=
  ⟨SchemaAccounting.countable, fun h =>
    ⟨fun _ _ _ he => @step_of_cut _ _ intCut h.cutBy _ _ _ he,
      @counts_of_cut A _ _ _ intCut rfl h.cutBy⟩⟩

end Accounting

/-- Records of one kilobyte. -/
def kilobytes : Layout RecordPos where
  mem _ := True
  pos k := ⟨k, 0⟩
  len _ := 1024
  apart _ _ hne _ _ _ _ h := hne (congrArg RecordPos.order h)

/-- A toast of one kilobyte in the record of index 1, five of its slots in use. -/
def toastInRecord : ZgdbFile RecordPos :=
  fwriteAt toastK (init 0) ⟨1, 0⟩ 0
    { blockType := BlockType.toast.code, capacity := 1024, used := 5, indexAttached := 1,
      nextToastIndex := 0 }

def string40 : CString := ⟨List.replicate 40 97, by decide⟩

/-- A text of two chunks, a second one under the same key, and a double. -/
def threeCalls : List AddCall := [.text keyA string40, .text keyA stringA, .double keyB 0]

/-- What they make of a schema of two slots. -/
def textAndDouble : DocumentSchema :=
  { capacity := 2, size := 2, sizeOfElements := 48, minToastCapacity := 2, reqToast := true
    elements := [⟨keyA, .text (Text.ofString string40)⟩, ⟨keyB, .double 0⟩] }

theorem threeCalls_schema : addAll (initSchema 2) threeCalls
    = some ([.addOk, .nameExists, .addOk], textAndDouble) := by decide

theorem threeCalls_countable : AllCountable 2 threeCalls := by
  intro key v hv
  have hmem : AddCall.text key v ∈ [.text keyA string40, .double keyB 0] := hv
  simp only [List.mem_cons, AddCall.text.injEq, reduceCtorEq, List.not_mem_nil, or_false] at hmem
  obtain ⟨-, rfl⟩ := hmem
  decide

/-- The three calls, and the elements written behind byte 80 of a record. -/
theorem schema_accounting_record : SchemaAccounting RecordPos 2 threeCalls ∧
    ∃ last calls, writeElements 1 textAndDouble.elements ⟨toastInRecord, ⟨0, 0⟩, 80, []⟩
        = some (last, calls) ∧
      (calls.map Prod.snd).sum = 48 ∧
      (toastAt last.file 1).used - (toastAt toastInRecord 1).used = 2 := by
  have h := (schema_accounting RecordPos 2 threeCalls).mpr threeCalls_countable
  obtain ⟨statuses, s, hrun, hcounts⟩ := h.counts
  obtain ⟨-, rfl⟩ := Prod.mk.inj (Option.some.inj (threeCalls_schema.symm.trans hrun))
  have hholds : Holds toastK (blockAt toastInRecord 1) 0
      { blockType := BlockType.toast.code, capacity := 1024, used := 5, indexAttached := 1,
        nextToastIndex := 0 } := by
    have hb : blockAt toastInRecord 1
        = store toastK (blockAt (init 0 : ZgdbFile RecordPos) 1) 0 _ :=
      blockAt_fwriteAt (init 0) 1 0 _
    rw [hb]
    exact holds_store
  obtain ⟨hto, hta, -⟩ := IsToast.of_holds hholds rfl rfl (by decide)
  have hroom : RoomFor kilobytes toastInRecord textAndDouble 0 80 1 := by
    refine ⟨trivial, by decide, fun _ => ⟨by decide, ⟨trivial, rfl⟩, hto, ?_⟩⟩
    rw [hta]
    decide
  obtain ⟨last, calls, hwritten, hspent⟩ := hcounts.spent kilobytes toastInRecord 0 80 1 hroom
  obtain ⟨last', calls', hwritten', hsum⟩ := hcounts.returned ⟨toastInRecord, ⟨0, 0⟩, 80, []⟩ 1
  obtain ⟨rfl, rfl⟩ := Prod.mk.inj (Option.some.inj (hwritten.symm.trans hwritten'))
  exact ⟨h, last, calls, hwritten, hsum.symm, hspent.used rfl⟩

/-- The schema of one text that counts as minus 67108864 chunks. -/
def uncountedSchema (v : CString) : DocumentSchema :=
  { capacity := 1, size := 1, sizeOfElements := 26, minToastCapacity := 2 ^ 64 - 2 ^ 26
    reqToast := true, elements := [⟨keyA, .text (Text.ofString v)⟩] }

theorem uncounted {v : CString} (hv : v.strlen + 1 = 2 ^ 31) :
    ¬ AllCountable 1 [.text keyA v] ∧
      addAll (initSchema 1) [.text keyA v] = some ([.addOk], uncountedSchema v) ∧
      ∀ (h : Handle RecordPos) (t : Nat),
        writeElements t (uncountedSchema v).elements h = none := by
  have hchunks : chunks (v.strlen + 1) = -2 ^ 26 := by
    rw [hv]
    decide
  refine ⟨?_, ?_, ?_⟩
  · intro h
    have hc := h keyA v List.mem_cons_self
    rw [hv] at hc
    exact absurd hc (by decide)
  · have hadd : addElement (initSchema 1) keyA (.text (Text.ofString v)) = (.addOk,
        { initSchema 1 with
          elements := [⟨keyA, .text (Text.ofString v)⟩], size := 1, sizeOfElements := 26 }) := rfl
    have hexec : exec (initSchema 1) (.text keyA v) = some (.addOk, uncountedSchema v) := by
      simp only [exec, addTextToSchema, hadd, hchunks]
      rw [if_pos (by rw [hv]; decide)]
      rfl
    rw [addAll, hexec]
    rfl
  · intro h t
    have hends : ends (.text (Text.ofString v)) = false := by
      simp only [ends, Text.ofString, hchunks]
      decide
    simp only [uncountedSchema, writeElements, writeElement, hends]
    rfl

/-- A text of `2 ^ 31 - 1` characters. -/
def longText : CString :=
  ⟨List.replicate (2 ^ 31 - 1) 97, fun h => absurd (List.eq_of_mem_replicate h) (by decide)⟩

theorem longText_size : longText.strlen + 1 = 2 ^ 31 := by
  simp only [CString.strlen, longText, List.length_replicate]
  omega

/-- A text of `2 ^ 31 - 1` characters is accepted; what is written for it does not end. -/
theorem long_text_uncounted : ¬ SchemaAccounting RecordPos 1 [.text keyA longText] ∧
    addAll (initSchema 1) [.text keyA longText] = some ([.addOk], uncountedSchema longText) ∧
    ∀ (h : Handle RecordPos) (t : Nat),
      writeElements t (uncountedSchema longText).elements h = none := by
  obtain ⟨hnot, hs⟩ := uncounted longText_size
  exact ⟨fun h => hnot h.countable, hs⟩

end Sized

end Zgdb
