/-
# Elements and schemas

`schema/zgdbschema.c` and the element types of `data/zgdbdata.h`.  A schema is an array of
elements of fixed capacity that is filled by the four `add…ToSchema` functions; `createDocument`
accepts it when it is full.  The functions are one check (`addElement`) at four types; only the
text one also counts the chunks its document will need in a toast.

`DocumentSchema.Built` is what a caller can hold: a schema made by `initSchema` and the `add`
functions.  Everything the store relies on is derived from it (`DocumentSchema.Wf`).
-/
import Mathlib.Algebra.BigOperators.Group.List.Basic
import Zgdb.Data

namespace Zgdb

/-! ## 1. Elements -/

/-- `text`; `size` is a `uint32_t`. -/
structure Text where
  size : Nat
  data : CString
deriving DecidableEq

/-- A copied string: `strlen` and the terminator make its size.  From `2 ^ 32` on the size loses its
high bits and the copy runs over the end of its memory (`Sized.addTextToSchema`). -/
def Text.ofString (s : CString) : Text := ⟨s.strlen + 1, s⟩

/-- The value of an element; the constructor is the `type` of the source. -/
inductive ElementValue where
  | boolean (v : UInt8)
  | int (v : Int32)
  | double (v : UInt64)
  | text (v : Text)
deriving DecidableEq

def ElementValue.type : ElementValue → ElementType
  | boolean _ => .boolean
  | int _ => .int
  | double _ => .double
  | text _ => .text

/-- `element` -/
structure Element where
  key : Name
  value : ElementValue
deriving DecidableEq

/-- The bytes of a value in a document. -/
def ElementType.valueSize : ElementType → Nat
  | boolean => 1
  | int => 4
  | double => 8
  | text => sizeofFirstTextChunk
  | textChunk => 0

/-- `sizeof(uint8_t) + 13 * sizeof(char)`, what precedes the value of an element. -/
def elementHead : Nat := 1 + sizeofName

/-- `getElementSize` -/
def getElementSize (cur : Element) : Nat := elementHead + cur.value.type.valueSize

/-- The chunks an element takes in the toast. -/
def Element.chunks [TextCut] (e : Element) : Nat :=
  match e.value with
  | .text t => TextCut.chunks t.size
  | _ => 0

/-! ## 2. Schemas

An element is refused for a key that is there already or is `id`, and when the array is full.  A
refused call leaves the schema as it was, so what counts is the list of the accepted elements. -/

/-- `documentSchema`; `elements` are the slots that are filled. -/
structure DocumentSchema where
  capacity : Nat
  size : Nat
  sizeOfElements : Nat
  minToastCapacity : Nat
  reqToast : Bool
  elements : List Element
deriving DecidableEq

/-- `addStatus` -/
inductive AddStatus where
  | addOk
  | nameExists
  | schemaOverflow
deriving DecidableEq, Repr

def initSchema (capacity : Nat) : DocumentSchema :=
  { capacity := capacity, size := 0, sizeOfElements := 0, minToastCapacity := 0,
    reqToast := false, elements := [] }

/-- What the four functions have in common. -/
def addElement (schema : DocumentSchema) (key : Name) (value : ElementValue) :
    AddStatus × DocumentSchema :=
  if key = Name.id then (.nameExists, schema)
  else if schema.elements.any (fun e => e.key = key) then (.nameExists, schema)
  else if schema.size = schema.capacity then (.schemaOverflow, schema)
  else (.addOk,
    { schema with
      elements := schema.elements ++ [⟨key, value⟩]
      size := schema.size + 1
      sizeOfElements := schema.sizeOfElements + (elementHead + value.type.valueSize) })

def addIntToSchema (schema : DocumentSchema) (key : Name) (initValue : Int32) :
    AddStatus × DocumentSchema :=
  addElement schema key (.int initValue)

def addDoubleToSchema (schema : DocumentSchema) (key : Name) (initValue : UInt64) :
    AddStatus × DocumentSchema :=
  addElement schema key (.double initValue)

def addBooleanToSchema (schema : DocumentSchema) (key : Name) (initValue : UInt8) :
    AddStatus × DocumentSchema :=
  addElement schema key (.boolean initValue)

def addTextToSchema [TextCut] (schema : DocumentSchema) (key : Name) (initValue : CString) :
    AddStatus × DocumentSchema :=
  match addElement schema key (.text (Text.ofString initValue)) with
  | (.addOk, schema) =>
    (.addOk, { schema with
      reqToast := true
      minToastCapacity := schema.minToastCapacity + TextCut.chunks (initValue.strlen + 1) })
  | refused => refused

/-- The schemas a caller can build. -/
inductive DocumentSchema.Built [TextCut] : DocumentSchema → Prop where
  | init (capacity : Nat) : Built (initSchema capacity)
  | int {s : DocumentSchema} (key : Name) (v : Int32) :
      Built s → Built (addIntToSchema s key v).2
  | double {s : DocumentSchema} (key : Name) (v : UInt64) :
      Built s → Built (addDoubleToSchema s key v).2
  | boolean {s : DocumentSchema} (key : Name) (v : UInt8) :
      Built s → Built (addBooleanToSchema s key v).2
  | text {s : DocumentSchema} (key : Name) (v : CString) :
      Built s → Built (addTextToSchema s key v).2

/-- `createDocument` refuses any other schema. -/
def DocumentSchema.Complete (s : DocumentSchema) : Prop := s.capacity = s.size

instance (s : DocumentSchema) : Decidable s.Complete :=
  inferInstanceAs (Decidable (s.capacity = s.size))

/-! ## 3. What a built schema satisfies

A schema has no more elements than its array has places, no key occurs twice, and the chunks that
were counted are those of its texts.  The functions keep this, so every schema that a caller can
have satisfies it. -/

/-- A text element holds its string with the size of the string and its terminator. -/
def Element.TextOk (e : Element) : Prop := ∀ t, e.value = .text t → t.size = t.data.strlen + 1

/-- The accounting of a schema is right and its keys are distinct. -/
structure DocumentSchema.Wf [TextCut] (s : DocumentSchema) : Prop where
  size_eq : s.size = s.elements.length
  size_le : s.size ≤ s.capacity
  sizeOfElements_eq : s.sizeOfElements = (s.elements.map getElementSize).sum
  minToastCapacity_eq : s.minToastCapacity = (s.elements.map Element.chunks).sum
  reqToast_iff : s.reqToast = true ↔ ∃ e ∈ s.elements, e.value.type = .text
  keys_nodup : (s.elements.map Element.key).Nodup
  textOk : ∀ e ∈ s.elements, e.TextOk

theorem wf_initSchema [TextCut] (capacity : Nat) : (initSchema capacity).Wf where
  size_eq := rfl
  size_le := Nat.zero_le _
  sizeOfElements_eq := rfl
  minToastCapacity_eq := rfl
  reqToast_iff := by simp [initSchema]
  keys_nodup := List.nodup_nil
  textOk := by simp [initSchema]

/-- The one way an addition succeeds. -/
theorem addElement_cases (s : DocumentSchema) (key : Name) (value : ElementValue) :
    (addElement s key value).2 = s ∧ (addElement s key value).1 ≠ .addOk ∨
      (key ∉ s.elements.map Element.key ∧ s.size ≠ s.capacity ∧
        addElement s key value = (.addOk,
          { s with
            elements := s.elements ++ [⟨key, value⟩]
            size := s.size + 1
            sizeOfElements := s.sizeOfElements + (elementHead + value.type.valueSize) })) := by
  unfold addElement
  by_cases hid : key = Name.id
  · left; simp [hid]
  · by_cases hany : (s.elements.any fun e => e.key = key) = true
    · left; simp only [if_neg hid, if_pos hany, ne_eq, reduceCtorEq, not_false_eq_true, and_self]
    · by_cases hfull : s.size = s.capacity
      · left
        simp only [if_neg hid, if_neg hany, if_pos hfull, ne_eq, reduceCtorEq, not_false_eq_true,
          and_self]
      · right
        refine ⟨?_, hfull, by rw [if_neg hid, if_neg hany, if_neg hfull]⟩
        simpa using hany

/-- A successful addition of a value keeps the schema in order, given how the toast accounting of
that value is done. -/
theorem DocumentSchema.Wf.add [TextCut] {s : DocumentSchema} (h : s.Wf) {key : Name}
    {value : ElementValue}
    (hkey : key ∉ s.elements.map Element.key) (hfull : s.size ≠ s.capacity)
    (htext : Element.TextOk ⟨key, value⟩) :
    DocumentSchema.Wf
      { s with
        elements := s.elements ++ [⟨key, value⟩]
        size := s.size + 1
        sizeOfElements := s.sizeOfElements + (elementHead + value.type.valueSize)
        reqToast := s.reqToast || value.type = .text
        minToastCapacity := s.minToastCapacity + Element.chunks ⟨key, value⟩ } where
  size_eq := by simp [h.size_eq]
  size_le := by have := h.size_le; simp only; omega
  sizeOfElements_eq := by simp [h.sizeOfElements_eq, getElementSize]
  minToastCapacity_eq := by simp [h.minToastCapacity_eq]
  reqToast_iff := by
    simp only [Bool.or_eq_true, h.reqToast_iff, decide_eq_true_eq, List.mem_append,
      List.mem_singleton]
    constructor
    · rintro (⟨e, he, ht⟩ | ht)
      · exact ⟨e, Or.inl he, ht⟩
      · exact ⟨_, Or.inr rfl, ht⟩
    · rintro ⟨e, he | rfl, ht⟩
      · exact Or.inl ⟨e, he, ht⟩
      · exact Or.inr ht
  keys_nodup := by
    rw [List.map_append, List.nodup_append]
    refine ⟨h.keys_nodup, by simp, ?_⟩
    rintro a ha b hb rfl
    rw [List.map_singleton, List.mem_singleton] at hb
    exact hkey (by rwa [hb] at ha)
  textOk := by
    intro e he
    rcases List.mem_append.mp he with he | he
    · exact h.textOk e he
    · exact (List.mem_singleton.mp he) ▸ htext

/-- Adding a value that is not a text. -/
theorem DocumentSchema.Wf.addElement [TextCut] {s : DocumentSchema} (h : s.Wf) {key : Name}
    {value : ElementValue} (hv : value.type ≠ .text) : (Zgdb.addElement s key value).2.Wf := by
  rcases addElement_cases s key value with ⟨hs, _⟩ | ⟨hkey, hfull, heq⟩
  · rwa [hs]
  · have hc : Element.chunks ⟨key, value⟩ = 0 := by
      cases value <;> first | rfl | exact absurd rfl hv
    have htext : Element.TextOk ⟨key, value⟩ := by rintro t rfl; exact absurd rfl hv
    have := h.add hkey hfull htext
    rw [heq]
    simpa [hc, hv] using this

theorem DocumentSchema.Wf.addText [TextCut] {s : DocumentSchema} (h : s.Wf) {key : Name}
    {v : CString} :
    (addTextToSchema s key v).2.Wf := by
  unfold addTextToSchema
  rcases addElement_cases s key (.text (Text.ofString v)) with ⟨hs, hne⟩ | ⟨hkey, hfull, heq⟩
  · generalize Zgdb.addElement s key (.text (Text.ofString v)) = r at hs hne
    obtain ⟨st, s'⟩ := r
    obtain rfl : s' = s := hs
    cases st with
    | addOk => exact absurd rfl hne
    | nameExists => exact h
    | schemaOverflow => exact h
  · have htext : Element.TextOk ⟨key, .text (Text.ofString v)⟩ := by rintro t ht; cases ht; rfl
    have := h.add hkey hfull htext
    rw [heq]
    simpa [Element.chunks, ElementValue.type, Text.ofString] using this

/-- **Every schema a caller can build is in order.** -/
theorem DocumentSchema.Built.wf [TextCut] {s : DocumentSchema} (h : s.Built) : s.Wf := by
  induction h with
  | init capacity => exact wf_initSchema capacity
  | int key v _ ih => exact ih.addElement (by simp [ElementValue.type])
  | double key v _ ih => exact ih.addElement (by simp [ElementValue.type])
  | boolean key v _ ih => exact ih.addElement (by simp [ElementValue.type])
  | text key v _ ih => exact ih.addText

end Zgdb
