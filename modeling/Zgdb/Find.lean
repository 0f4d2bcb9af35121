/-
# Searching the documents

`calculatePredicate`, `findIf0`, `findIfFromRoot`, `join` and `parent` of `zgdb.c`.  A path is
evaluated step by step over a list of contexts: a context is the first son of a document that the
step before matched, and a step scans what the document iterator makes of it, for a relative step to
the end, for an absolute one until the depth changes.

`SearchEnv` holds what the code takes from elsewhere: `strtod`, and what the variable `generalRes`
of `calculatePredicate` holds when a chain of predicates does not begin with `NONE`.
-/
import Mathlib.Data.List.Infix
import Zgdb.Document
import Zgdb.Filter
import Zgdb.Numerals

namespace Zgdb

/-- The surroundings of a search: `strtod`, and what is in `generalRes` before `calculatePredicate`
has stored anything there.  It is a variable without an initial value, so it may be anything, and
another value for every document; a chain that begins with `NONE` does not read it. -/
structure SearchEnv where
  strtod : CString → StrtodResult
  generalRes : Document → Bool

/-! ## 1. Predicates

Predicates are combined from left to right, without precedence, in a variable of the function.  What
a predicate says of a value depends on the type of the element: some operators are not supported for
some types, and then nothing is stored. -/

/-- A double that is not a number. -/
def isNan (bits : UInt64) : Bool := 0x7FF0000000000000 < bits.toNat % 2 ^ 63

/-- The place of a double among the doubles; the two zeros have the same. -/
def doubleRank (bits : UInt64) : Int :=
  if bits.toNat < 2 ^ 63 then bits.toNat else -(bits.toNat % 2 ^ 63 : Nat)

/-- The comparisons of `calculatePredicate` for numbers, from the three basic ones; `none` where it
prints that the operator is not supported. -/
def compareNumbers (operator : CompOperator) (equal less greater : Bool) : Option Bool :=
  match operator with
  | .equals => some equal
  | .notEquals => some (!equal)
  | .greater => some greater
  | .less => some less
  | .eqGreater => some (greater || equal)
  | .eqLess => some (less || equal)
  | .contains => none

def compareInt (operator : CompOperator) (v value : Int32) : Option Bool :=
  compareNumbers operator (v = value) (v < value) (value < v)

def compareDouble (operator : CompOperator) (v value : UInt64) : Option Bool :=
  let ordered := !isNan v && !isNan value
  compareNumbers operator (ordered && doubleRank v = doubleRank value)
    (ordered && doubleRank v < doubleRank value) (ordered && doubleRank value < doubleRank v)

def compareBoolean (operator : CompOperator) (v value : UInt8) : Option Bool :=
  match operator with
  | .equals => some (value = v)
  | .notEquals => some (value ≠ v)
  | _ => none

def compareText (operator : CompOperator) (data input : CString) : Option Bool :=
  match operator with
  | .equals => some (input = data)
  | .notEquals => some (input ≠ data)
  | .contains => some (input.chars <:+: data.chars)
  | _ => none

/-- What `calculatePredicate` stores in `res` for an element with the key it looks for; `none` where
it stores nothing. -/
def checkElementValue (strtod : CString → StrtodResult) (operator : CompOperator)
    (input : CString) :
    ElementValue → Option Bool
  | .int v => (str2int input).2.bind (compareInt operator v)
  | .boolean v => compareBoolean operator v (str2boolean input)
  | .double v => (str2double strtod input).2.bind (compareDouble operator v)
  | .text t => compareText operator t.data input

/-- The text a document is found by as `id`: the digits of the offset, then those of the time. -/
def idText (id : DocumentId) : List UInt8 := decimal id.offset ++ decimal id.timestamp.toNat

/-- `strlen(tsC) + strlen(offC)`: the bytes allocated for that text. -/
def idAllocated (id : DocumentId) : Nat :=
  (decimal id.timestamp.toNat).length + (decimal id.offset).length

/-- The bytes `strcpy` and `strcat` write there, the terminator included. -/
def idWritten (id : DocumentId) : Nat := (idText id).length + 1

/-- **Every text of an id overflows its block**, by the terminator. -/
theorem idWritten_eq (id : DocumentId) : idWritten id = idAllocated id + 1 := by
  simp [idWritten, idAllocated, idText, Nat.add_comm]

/-- The loop over the elements; the last one with the key decides. -/
def checkElements (strtod : CString → StrtodResult) (key : Name) (operator : CompOperator)
    (input : CString) (es : List ElementEntry) : Bool :=
  es.foldl (fun res e =>
    if e.key = key then (e.value.bind (checkElementValue strtod operator input)).getD res else res)
    false

variable {A : Type} [BlockSpace A]

/-- `res` of one predicate, before the inversion; `none` for `BY_ELEMENT`, which is passed over.  An
`id` is compared for equality, whatever the operator.

Its text is written one byte over the end of its block (`idWritten_eq`), which C leaves undefined
and a build with `-fsanitize=address` ends at.  The value here is the one of a build in which that
byte belongs to nothing else. -/
def predicateRes (strtod : CString → StrtodResult) (file : ZgdbFile A) (temp : Document)
    (docNumber : Nat) : PredicateValue → Option Bool
  | .byDocumentNumber index => some (index.toNat = docNumber)
  | .byElementValue key operator input =>
    if key = Name.id then some (idText temp.header.id = input.chars)
    else some (checkElements strtod key operator input (elementEntries file temp true))
  | .byElement .. => none

/-- The body of the loop over the chain. -/
def combinePredicate (strtod : CString → StrtodResult) (file : ZgdbFile A) (temp : Document)
    (docNumber : Nat) (generalRes : Bool) (currentPredicate : Predicate) : Bool :=
  match predicateRes strtod file temp docNumber currentPredicate.value with
  | none => generalRes
  | some res =>
    let res := if currentPredicate.isInverted then !res else res
    match currentPredicate.logOp with
    | .none => res
    | .and => generalRes && res
    | .or => generalRes || res

def calculatePredicate (env : SearchEnv) (file : ZgdbFile A) (temp : Document) (s : Step)
    (docNumber : Nat) : Bool :=
  if s.pred = [] then true
  else s.pred.foldl (combinePredicate env.strtod file temp docNumber) (env.generalRes temp)

/-! ## 2. Results

A result has two lists and a type that says which of them counts.  The type is that of the last
match. -/

/-- `resultType` -/
inductive ResultType where
  | undefinedResult
  | documentResult
  | elementResult
deriving DecidableEq, Repr

/-- `findIfResult`; the lists from `head` to `tail`. -/
structure FindIfResult where
  type : ResultType
  documentList : List Document
  elementList : List (Document × ElementEntry)
deriving DecidableEq

/-! ## 3. Sons and parents

Neither scans with an iterator: `join` follows the brother links, and `parent` reads the index that
was handed on with the document. -/

/-- The loop of `join`: the sons from `tempIndex` on, the first of them being number `docNumber`. -/
def joinLoop (env : SearchEnv) (file : ZgdbFile A) (parent : Document) (s : Step) :
    (fuel : Nat) → (tempIndex docNumber : Nat) → Option (List Document)
  | 0, _, _ => none
  | fuel + 1, tempIndex, docNumber =>
    if tempIndex = 0 then some []
    else
      let tempHeader := getDocumentHeader file tempIndex
      let temp : Document :=
        ⟨isRootDocumentHeader tempHeader, parent.header.indexAttached, tempHeader⟩
      (joinLoop env file parent s fuel tempHeader.indexBrother (docNumber + 1)).map fun pList =>
        if calculatePredicate env file temp s docNumber then temp :: pList else pList

/-- `join`; the empty chain is the NULL pointer. -/
def join (env : SearchEnv) (fuel : Nat) (file : ZgdbFile A) (parent : Document)
    (p : List Predicate) :
    Option (List Document) :=
  joinLoop env file parent ⟨.absolutePath, parent.header.name, .documentStep, p⟩ fuel
    parent.header.indexSon 0

def parent (file : ZgdbFile A) (doc : Document) : Document :=
  let tempHeader := getDocumentHeader file doc.indexParent
  ⟨isRootDocumentHeader tempHeader, doc.indexParent, tempHeader⟩

/-! ## 4. One step

The scan of a context is one loop for both types of paths.  It writes to three things that outlive
it: the number of the next match, the contexts of the step to come, and the result. -/

/-- What a step accumulates: the number of the next match in the present context, the contexts of
the next step, and the result.  A context is the first son of a document that matched; the scan of a
context goes on from there over its brothers. -/
structure StepState where
  docNumber : Nat
  tempContextList : List Document
  ifResult : FindIfResult

/-- The document a match leaves as a context. -/
def childContext (file : ZgdbFile A) (temp : Document) : List Document :=
  if temp.header.indexSon ≠ 0 then
    [⟨false, temp.header.indexAttached, getDocumentHeader file temp.header.indexSon⟩]
  else []

/-- The body of the inner loop for a document step. -/
def matchDocument (env : SearchEnv) (file : ZgdbFile A) (s : Step) (last : Bool) (temp : Document)
    (st : StepState) : StepState :=
  if temp.header.name = s.stepName then
    let st :=
      if calculatePredicate env file temp s st.docNumber then
        { st with
          tempContextList := st.tempContextList ++ childContext file temp
          ifResult :=
            if last then
              { st.ifResult with
                type := .documentResult
                documentList := st.ifResult.documentList ++ [temp] }
            else st.ifResult }
      else st
    { st with docNumber := st.docNumber + 1 }
  else st

/-- The body of the inner loop for an element step. -/
def matchElements (file : ZgdbFile A) (s : Step) (last : Bool) (temp : Document) (st : StepState) :
    StepState :=
  let found := (elementEntries file temp true).filter (·.key = s.stepName)
  if last ∧ found ≠ [] then
    { st with
      ifResult := { st.ifResult with
        type := .elementResult
        elementList := st.ifResult.elementList ++ found.map fun e => (temp, e) } }
  else st

/-- The body of the inner loop. -/
def matchStep (env : SearchEnv) (file : ZgdbFile A) (s : Step) (last : Bool) (temp : Document)
    (st : StepState) : StepState :=
  match s.sType with
  | .documentStep => matchDocument env file s last temp st
  | .elementStep => matchElements file s last temp st

/-- The inner loop over one context; an absolute step looks at the depth of the document before the
one it is about to fetch. -/
def scanLoop (env : SearchEnv) (file : ZgdbFile A) (s : Step) (last : Bool) (prevDepth : Nat) :
    (fuel : Nat) → DocumentIterator → (depth : Nat) → StepState → Option (Nat × StepState)
  | 0, _, _, _ => none
  | fuel + 1, it, depth, st =>
    if hasNextDoc it ∧ (s.pType = .absolutePath → depth = prevDepth) then
      let (temp, depth, it) := nextDoc file it
      scanLoop env file s last prevDepth fuel it depth (matchStep env file s last temp st)
    else some (depth, st)

/-- The loop over the contexts of a step. -/
def scanContexts (env : SearchEnv) (fuel : Nat) (file : ZgdbFile A) (s : Step) (last : Bool) :
    (contextList : List Document) → (depth : Nat) → StepState → Option (Nat × StepState)
  | [], depth, st => some (depth, st)
  | tempRes :: next, depth, st => do
    let it := createDocIterator tempRes.header.indexAttached tempRes.indexParent depth
    let (depth, st) ← scanLoop env file s last depth fuel it depth { st with docNumber := 0 }
    scanContexts env fuel file s last next depth st

/-! ## 5. Paths

The search starts at the sons of the root.  The bare paths `/` and `//` are answered at once, with
the root and with its sons. -/

/-- The depth the contexts of the next step are taken to have. -/
def depthAfter (pType : PathType) (depth : Nat) : Nat :=
  match pType with
  | .absolutePath => depth
  | .relativePath => 1

/-- The loop over the steps from number `i` on; `none` where a step is read that was never added. -/
def findSteps (env : SearchEnv) (fuel : Nat) (file : ZgdbFile A) (size : Nat) :
    (i : Nat) → List Step → (contextList : List Document) → (depth : Nat) → FindIfResult →
      Option FindIfResult
  | i, [], _, _, ifResult => if i = size then some ifResult else none
  | i, s :: rest, contextList, depth, ifResult => do
    let (depth, st) ←
      scanContexts env fuel file s (i + 1 = size) contextList depth ⟨0, [], ifResult⟩
    findSteps env fuel file size (i + 1) rest st.tempContextList
      (depthAfter s.pType depth) st.ifResult

/-- The two paths that are answered at once: one document step without a name.  The absolute one
finds the root and the relative one the sons of the root, whatever their predicates are. -/
def isBarePath (p : Path) (pType : PathType) : Prop :=
  p.size = 1 ∧ ∃ s ∈ p.steps, s.sType = .documentStep ∧ s.pType = pType ∧ s.stepName.chars = []

instance (p : Path) (pType : PathType) : Decidable (isBarePath p pType) :=
  inferInstanceAs (Decidable (_ ∧ _))

def findIf0 (env : SearchEnv) (fuel : Nat) (file : ZgdbFile A) (order orderParent : Nat) (p : Path)
    (ifResult : FindIfResult) : Option FindIfResult :=
  let rootIterator := createDocIterator order orderParent 0
  let (root, _, rootIterator) := nextDoc file rootIterator
  if isBarePath p .absolutePath then
    some { ifResult with type := .documentResult, documentList := ifResult.documentList ++ [root] }
  else if isBarePath p .relativePath then
    (join env fuel file root []).map fun list =>
      { ifResult with type := .documentResult, documentList := list }
  else if hasNextDoc rootIterator then
    let (context, depth, _) := nextDoc file rootIterator
    findSteps env fuel file p.size 0 p.steps [context] depth ifResult
  else some ifResult

/-- The end of `findIfFromRoot`; a list that is destroyed is empty. -/
def FindIfResult.destroyLists (ifResult : FindIfResult) : FindIfResult :=
  match ifResult.type with
  | .elementResult => { ifResult with documentList := [] }
  | .documentResult => { ifResult with elementList := [] }
  | .undefinedResult => { ifResult with documentList := [], elementList := [] }

/-- `findIfFromRoot` -/
def findIfFromRoot (env : SearchEnv) (fuel : Nat) (file : ZgdbFile A) (p : Path) :
    Option FindIfResult :=
  (findIf0 env fuel file 0 0 p ⟨.undefinedResult, [], []⟩).map FindIfResult.destroyLists

end Zgdb
