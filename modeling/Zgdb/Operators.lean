/-
# The comparison operators

A single predicate on the value of an element, with every operator.  The operators agree with each
other as one expects, for every type and every document: `NOT_EQUALS` is the negation of `EQUALS`,
an int is less than, equal to or greater than the input, and an inverted predicate says the
opposite.

The key `id` is the exception.  Its text is compared before the elements are looked at, and always
for equality, so `NOT_EQUALS` says what `EQUALS` says (`operators_consistent`).
-/
import Zgdb.Doubles
import Zgdb.Find

namespace Zgdb

open Zgdb.Lib AddrSpace

variable {A : Type} [BlockSpace A]

/-! ## 1. One predicate

The predicate is followed from the string of the query over the conversion to the comparison, for
each type of element. -/

/-- `calculatePredicate` for a step whose predicate is one comparison with the element of a key. -/
def comparison (env : SearchEnv) (file : ZgdbFile A) (temp : Document) (s : Step) (docNumber : Nat)
    (key : Name) (input : CString) (isInverted : Bool) (operator : CompOperator) : Bool :=
  calculatePredicate env file temp
    { s with pred := [⟨.none, isInverted, .byElementValue key operator input⟩] } docNumber

/-- Whether the type of an element accepts an input. -/
def Accepts (strtod : CString → StrtodResult) (input : CString) : ElementValue → Prop
  | .int _ => (str2int input).1 = .success
  | .double _ => (str2double strtod input).1 = .success
  | .boolean _ => True
  | .text _ => True

/-- The element of the key: `v` is its value.  Keys are unique in a document; where they are not the
last element counts. -/
def ElementOf (file : ZgdbFile A) (temp : Document) (key : Name) (v : ElementValue) : Prop :=
  ∃ pre e post, elementEntries file temp true = pre ++ e :: post ∧ e.key = key ∧ e.value = some v ∧
    ∀ x ∈ post, x.key ≠ key

/-- The document has the key, and the type of its element accepts the input.  For the key `id`
nothing is asked, as the source takes it before it looks at the elements. -/
def HasKey (strtod : CString → StrtodResult) (file : ZgdbFile A) (temp : Document) (key : Name)
    (input : CString) : Prop :=
  key = Name.id ∨ ∃ v, ElementOf file temp key v ∧ Accepts strtod input v

/-- The elements of a stored document are those of its keys. -/
theorem Local.elementOf {L : Layout A} {file : ZgdbFile A} {k : Nat} {pre post : List StoredElement}
    {name : Name} {v : StoredValue} (h : Local L file k (pre ++ ⟨name, v⟩ :: post)) (p : Nat) :
    ElementOf file (documentAt file k p) name
      (v.read file (getDocumentHeader file k).firstToastIndex) := by
  refine ⟨_, _, _, (h.elementEntries p true).trans (entriesOf_append ..), rfl, rfl, ?_⟩
  intro x hx
  obtain ⟨e, he, hkey, -⟩ := key_of_mem_entriesOf hx
  rw [hkey]
  exact h.key_ne e (List.mem_append_right _ he)

/-- The laws of the operators on an int: it is less, equal or greater. -/
structure Ordered (compare : CompOperator → Bool) : Prop where
  one : [.less, .equals, .greater].countP compare = 1
  eqGreater : compare .eqGreater = !compare .less
  eqLess : compare .eqLess = !compare .greater

/-- The laws of the operators: an inequality is the negation of the equality, the orders on an int
fit together, and an inverted test is the negation of the test. -/
structure Consistent (env : SearchEnv) (file : ZgdbFile A) (temp : Document) (s : Step)
    (docNumber : Nat) (key : Name) (input : CString) : Prop where
  notEquals : comparison env file temp s docNumber key input false .notEquals
    = !comparison env file temp s docNumber key input false .equals
  ordered : ∀ v, ElementOf file temp key (.int v) → (str2int input).1 = .success →
    Ordered (comparison env file temp s docNumber key input false)
  inverted : ∀ operator, comparison env file temp s docNumber key input true operator
    = !comparison env file temp s docNumber key input false operator

section Laws

variable {env : SearchEnv} {file : ZgdbFile A} {temp : Document} {s : Step} {docNumber : Nat}
  {key : Name} {input : CString} {v : ElementValue}

/-- **An inverted predicate** says the opposite. -/
theorem comparison_inverted (operator : CompOperator) :
    comparison env file temp s docNumber key input true operator
      = !comparison env file temp s docNumber key input false operator := by
  by_cases hkey : key = Name.id <;>
    simp [comparison, calculatePredicate, combinePredicate, predicateRes, hkey]

/-- The operator does not matter for an `id`. -/
theorem comparison_id (operator : CompOperator) :
    comparison env file temp s docNumber Name.id input false operator
      = decide (idText temp.header.id = input.chars) := by
  simp [comparison, calculatePredicate, combinePredicate, predicateRes]

/-- The element of the key decides, where its type accepts the input and has the operator. -/
theorem comparison_element {operator : CompOperator} {res : Bool} (hkey : key ≠ Name.id)
    (helement : ElementOf file temp key v)
    (hres : checkElementValue env.strtod operator input v = some res) :
    comparison env file temp s docNumber key input false operator = res := by
  obtain ⟨pre, e, post, hentries, he, hv, hpost⟩ := helement
  have hrest : ∀ (es : List ElementEntry) (r : Bool), (∀ x ∈ es, x.key ≠ key) →
      es.foldl (fun res e => if e.key = key
        then (e.value.bind (checkElementValue env.strtod operator input)).getD res else res) r
        = r := by
    intro es
    induction es with
    | nil => exact fun _ _ => rfl
    | cons x xs ih =>
      intro r hes
      rw [List.foldl_cons, if_neg (hes x List.mem_cons_self)]
      exact ih r fun y hy => hes y (List.mem_cons_of_mem _ hy)
  have hcheck : checkElements env.strtod key operator input (elementEntries file temp true)
      = res := by
    rw [checkElements, hentries, List.foldl_append, List.foldl_cons, hrest post _ hpost, if_pos he,
      hv, Option.bind_some, hres, Option.getD_some]
  simp [comparison, calculatePredicate, combinePredicate, predicateRes, hkey, hcheck]

/-- What the two basic operators store, for an input that is accepted. -/
theorem checkElementValue_accepted {strtod : CString → StrtodResult} (h : Accepts strtod input v) :
    ∃ res, checkElementValue strtod .equals input v = some res ∧
      checkElementValue strtod .notEquals input v = some (!res) := by
  cases v with
  | int v =>
    obtain ⟨w, hw⟩ := str2int_stored h
    exact ⟨_, by rw [checkElementValue, hw]; rfl, by rw [checkElementValue, hw]; rfl⟩
  | double v =>
    obtain ⟨w, hw⟩ := str2double_stored h
    exact ⟨_, by rw [checkElementValue, hw]; rfl, by rw [checkElementValue, hw]; rfl⟩
  | boolean v => exact ⟨_, rfl, by simp [checkElementValue, compareBoolean]⟩
  | text t => exact ⟨_, rfl, by simp [checkElementValue, compareText]⟩

/-- An int is less than, equal to or greater than an int. -/
theorem compareInt_ordered (v w : Int32) :
    Ordered fun operator => (compareInt operator v w).getD false := by
  have hlt : ∀ x y : Int32, x < y ↔ x.toInt < y.toInt := fun _ _ => Int32.lt_iff_toInt_lt
  have heq : v = w ↔ v.toInt = w.toInt := Int32.toInt_inj.symm
  rcases lt_trichotomy v.toInt w.toInt with h | h | h
  · have h1 : v < w := (hlt v w).mpr h
    have h2 : ¬ w < v := fun h2 => by have := (hlt w v).mp h2; omega
    have h3 : v ≠ w := fun h3 => by have := heq.mp h3; omega
    constructor <;> simp [compareInt, compareNumbers, h1, h2, h3]
  · obtain rfl := heq.mpr h
    have h1 : ¬ v < v := fun h1 => by have := (hlt v v).mp h1; omega
    constructor <;> simp [compareInt, compareNumbers, h1]
  · have h1 : w < v := (hlt w v).mpr h
    have h2 : ¬ v < w := fun h2 => by have := (hlt v w).mp h2; omega
    have h3 : v ≠ w := fun h3 => by have := heq.mp h3; omega
    constructor <;> simp [compareInt, compareNumbers, h1, h2, h3]

end Laws

/-- **The operators are consistent**, for every element and every input that its type accepts, but
not for the key `id`.  For an id the operator is not looked at, so that inequality says what
equality says.  For any other key inequality is the negation of equality, the orders of an int fit
together, and an inverted test says the opposite. -/
theorem operators_consistent (env : SearchEnv) (file : ZgdbFile A) (temp : Document) (s : Step)
    (docNumber : Nat) {key : Name} {input : CString} (h : HasKey env.strtod file temp key input) :
    Consistent env file temp s docNumber key input ↔ key ≠ Name.id := by
  constructor
  · rintro hc rfl
    have hne := hc.notEquals
    rw [comparison_id, comparison_id] at hne
    cases hd : decide (idText temp.header.id = input.chars) <;> rw [hd] at hne <;> cases hne
  · intro hkey
    refine ⟨?_, ?_, comparison_inverted⟩
    · obtain ⟨v, hv, haccept⟩ := h.resolve_left hkey
      obtain ⟨res, heq, hne⟩ := checkElementValue_accepted haccept
      rw [comparison_element hkey hv heq, comparison_element hkey hv hne]
    · intro v hv hint
      obtain ⟨w, hw⟩ := str2int_stored hint
      have hcompare : ∀ operator, operator ≠ .contains →
          comparison env file temp s docNumber key input false operator
            = (compareInt operator v w).getD false := by
        intro operator hop
        refine comparison_element hkey hv ?_
        rw [checkElementValue, hw, Option.bind_some]
        cases operator <;> first | rfl | exact absurd rfl hop
      have ho := compareInt_ordered v w
      refine ⟨?_, ?_, ?_⟩
      · rw [← ho.one]
        exact List.countP_congr fun operator hop => by
          rw [hcompare operator (by rintro rfl; simp at hop)]
      · rw [hcompare _ (by decide), hcompare _ (by decide)]
        exact ho.eqGreater
      · rw [hcompare _ (by decide), hcompare _ (by decide)]
        exact ho.eqLess

/-- A step that looks at the root. -/
def anyStep : Step := ⟨.absolutePath, Name.root, .documentStep, []⟩

/-- A search without surroundings. -/
def plainSearch : SearchEnv := ⟨fun _ => ⟨0, true, 0, false⟩, fun _ => false⟩

/-- The number of a document with a text and a number. -/
theorem operators_consistent_first : ∃ (file : ZgdbFile Nat) (n : Nat),
    createDocument flatEnv.expandIndexes 0 (init 0) keyA textAndInt
        (documentAt (init 0 : ZgdbFile Nat) 0 0) = some (.createOk, file) ∧
      Consistent plainSearch file (documentAt file n 0) anyStep 0 keyB ⟨[45, 55], by decide⟩ := by
  obtain ⟨-, file, n, own', hrun, hi, -⟩ := create_first flatEnv 0 keyA textAndInt_built (by decide)
  have hn : n ∈ (rootTree.insertUnder 0 n).nodes :=
    (Forest.mem_nodes_insertUnder (by simp) List.mem_cons_self).mpr (Or.inl rfl)
  obtain ⟨L, hlocal⟩ : ∃ L, Local L file n ([⟨keyA, .text ⟨2, 0⟩⟩] ++ ⟨keyB, .int 0⟩ :: []) := by
    have hlocal := hi.store.local hn
    rw [Function.update_self] at hlocal
    exact ⟨_, hlocal⟩
  have helement : ElementOf file (documentAt file n 0) keyB (.int 0) := hlocal.elementOf 0
  have haccept : Accepts plainSearch.strtod ⟨[45, 55], by decide⟩ (.int 0) :=
    show (str2int _).1 = .success by decide
  exact ⟨file, n, hrun, (operators_consistent plainSearch file _ anyStep 0
    (.inr ⟨.int 0, helement, haccept⟩)).mpr (by decide)⟩

/-- `NOT_EQUALS` holds of the root and its own `id`. -/
theorem id_notEquals : ∃ (file : ZgdbFile Nat) (input : CString), file = init 0 ∧
    comparison plainSearch file (documentAt file 0 0) anyStep 0 Name.id input false .equals = true ∧
      comparison plainSearch file (documentAt file 0 0) anyStep 0 Name.id input false .notEquals
        = true := by
  refine ⟨init 0, ⟨idText (documentAt (init 0 : ZgdbFile Nat) 0 0).header.id, ?_⟩, rfl, ?_, ?_⟩
  · simp [idText, zero_notMem_decimal]
  · rw [comparison_id]
    exact decide_eq_true rfl
  · rw [comparison_id]
    exact decide_eq_true rfl

end Zgdb
