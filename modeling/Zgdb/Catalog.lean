/-
# Catalogs

What the store is for, without blocks, indices and free lists: a tree of documents, each with an id,
a name and its elements (`Catalog`), and what a request does to it (`Catalog.execute`).  A new
document becomes a node that is not in the tree, whichever that is, with whichever offset in its id
(`Place`).  The decoders and the wording of the answers are those of the server; the search and the
changes are on the tree.
-/
import Zgdb.Sessions

namespace Zgdb

open Zgdb.Lib

/-! ## 1. Catalogs and their changes

A tree with three functions on its nodes.  A change is a change of the tree or of one value of a
function. -/

/-- A tree of documents, each with its id, its name and its elements in order.  This is what a
store is for, without blocks, indices, free lists and toasts: documents are nodes, and a text is a
string. -/
structure Catalog where
  tree : Forest Nat
  id : Nat → DocumentId
  name : Nat → Name
  elements : Nat → List Element

/-- A value without the bytes it takes. -/
def ElementValue.plain : ElementValue → ElementValue
  | .text t => .text (Text.ofString t.data)
  | v => v

/-- The root alone. -/
def Catalog.new (id : DocumentId) : Catalog :=
  ⟨.cons 0 .nil .nil, fun _ => id, fun _ => Name.root, fun _ => []⟩

/-- Where a new document goes: the index that the store gives it, and the offset for its id.  The
catalog has no way of its own to choose them, so they come with the request. -/
structure Place where
  node : Nat
  offset : Nat

/-- A new document in front of the sons of `p`. -/
def Catalog.create (c : Catalog) (now : UInt32) (p : Nat) (place : Place) (name : Name)
    (elements : List Element) : Catalog where
  tree := c.tree.insertUnder p place.node
  id := Function.update c.id place.node (generateId now place.offset)
  name := Function.update c.name place.node name
  elements := Function.update c.elements place.node elements

section Create

variable (c : Catalog) (now : UInt32) (p : Nat) (place : Place) (name : Name)
  (elements : List Element)

/-- The new document. -/
theorem Catalog.create_self :
    (c.create now p place name elements).id place.node = generateId now place.offset ∧
      (c.create now p place name elements).name place.node = name ∧
      (c.create now p place name elements).elements place.node = elements :=
  ⟨Function.update_self .., Function.update_self .., Function.update_self ..⟩

/-- The others. -/
theorem Catalog.create_of_ne {k : Nat} (hk : k ≠ place.node) :
    (c.create now p place name elements).id k = c.id k ∧
      (c.create now p place name elements).name k = c.name k ∧
      (c.create now p place name elements).elements k = c.elements k :=
  ⟨Function.update_of_ne hk .., Function.update_of_ne hk .., Function.update_of_ne hk ..⟩

end Create

/-- Without `d` and what is below it; the root stays. -/
def Catalog.delete (c : Catalog) (d : Nat) : Catalog :=
  { c with tree := if d = 0 then .cons 0 .nil .nil else c.tree.remove d }

/-- With another value behind a key of document `k`. -/
def Catalog.set (c : Catalog) (k : Nat) (key : CString) (v : ElementValue) : Catalog :=
  { c with
    elements := Function.update c.elements k
      ((c.elements k).map fun e => if key.chars = e.key.chars then ⟨e.key, v⟩ else e) }

/-- The input as a value of the type of another one. -/
def convertInput (strtod : CString → StrtodResult) (input : CString) :
    ElementValue → Option ElementValue
  | .boolean _ => some (.boolean (str2boolean input))
  | .int _ => (str2int input).2.map .int
  | .double _ => (str2double strtod input).2.map .double
  | .text _ => some (.text (Text.ofString input))

/-- An update of an element. -/
def Catalog.update (strtod : CString → StrtodResult) (c : Catalog) (k : Nat) (key input : CString) :
    UpdateElementStatus × Catalog :=
  if key.strlen > 13 then (.invalidName, c)
  else
    match (c.elements k).find? fun e => key.chars = e.key.chars with
    | none => (.elementNotFound, c)
    | some e =>
      match convertInput strtod input e.value with
      | none => (.typeParseError, c)
      | some v => (.updateOk, c.set k key v)

/-! ## 2. Searches

The evaluation of paths with the tests of a catalog.  It has no contexts and no iterator. -/

/-- `res` of a predicate on document `k`, before the inversion. -/
def Catalog.predicateRes (strtod : CString → StrtodResult) (c : Catalog) (k docNumber : Nat) :
    PredicateValue → Option Bool
  | .byDocumentNumber index => some (index.toNat = docNumber)
  | .byElementValue key operator input =>
    if key = Name.id then some (idText (c.id k) = input.chars)
    else some ((c.elements k).foldl (fun res e =>
      if e.key = key then (checkElementValue strtod operator input e.value).getD res else res)
        false)
  | .byElement .. => none

/-- One more predicate of a chain. -/
def Catalog.combine (strtod : CString → StrtodResult) (c : Catalog) (k docNumber : Nat)
    (generalRes : Bool) (p : Predicate) : Bool :=
  match c.predicateRes strtod k docNumber p.value with
  | none => generalRes
  | some res =>
    let res := if p.isInverted then !res else res
    match p.logOp with
    | .none => res
    | .and => generalRes && res
    | .or => generalRes || res

/-- A chain of predicates on document `k`; it begins with `NONE`. -/
def Catalog.passes (strtod : CString → StrtodResult) (c : Catalog) (pred : List Predicate)
    (k docNumber : Nat) : Bool :=
  if pred = [] then true else pred.foldl (c.combine strtod k docNumber) false

/-- The tests of a search. -/
def Catalog.tests (strtod : CString → StrtodResult) (c : Catalog) : StepTests where
  named s k := c.name k = s.stepName
  passes s e n := c.passes strtod s.pred e.1 n

/-- What a search finds: documents with their parents, or elements with their documents. -/
structure Finding where
  type : ResultType
  documents : List (Nat × Nat)
  elements : List ((Nat × Nat) × Element)

/-- Nothing. -/
def Finding.empty : Finding := ⟨.undefinedResult, [], []⟩

def Finding.ofDocuments (docs : List (Nat × Nat)) : Finding :=
  if docs = [] then .empty else ⟨.documentResult, docs, []⟩

def Finding.ofElements (els : List ((Nat × Nat) × Element)) : Finding :=
  if els = [] then .empty else ⟨.elementResult, [], els⟩

/-- The elements of a document with the name of a step. -/
def Catalog.elementsNamed (c : Catalog) (s : Step) (e : Nat × Nat) : List ((Nat × Nat) × Element) :=
  ((c.elements e.1).filter (·.key = s.stepName)).map fun el => (e, el)

/-- What the path `ss` finds. -/
def Catalog.pathValue (strtod : CString → StrtodResult) (c : Catalog) (ss : List Step) : Finding :=
  if isBarePath ⟨ss, ss.length⟩ .absolutePath then ⟨.documentResult, [(0, 0)], []⟩
  else if isBarePath ⟨ss, ss.length⟩ .relativePath then
    ⟨.documentResult, (c.tree.sonsOf 0).roots.map fun k => (k, 0), []⟩
  else
    match ss.getLast? with
    | none => .empty
    | some s =>
      let es := evaluate (c.tests strtod) c.tree ss.dropLast s
      match s.sType with
      | .documentStep => .ofDocuments es
      | .elementStep => .ofElements (es.flatMap (c.elementsNamed s))

/-- A path with fewer steps than it should have is only answered when there is nothing to search. -/
def Catalog.search (strtod : CString → StrtodResult) (c : Catalog) (p : Path) : Option Finding :=
  if p.steps.length = p.size then some (c.pathValue strtod p.steps)
  else if (c.tree.sonsOf 0).roots = [] then some .empty
  else none

/-! ## 3. Requests

What a request does and what it is answered, on the decoded request. -/

/-- What the requests need from elsewhere. -/
structure CatalogEnv where
  strtod : CString → StrtodResult
  sprintfF : UInt64 → CString
  now : UInt32

/-- What the path of a request finds. -/
def Catalog.find (env : CatalogEnv) (root : XmlNode) (c : Catalog) : Except Crash Finding := do
  let p ← defined (pathFromXml root)
  defined (c.search env.strtod p)

/-- The first document that was found. -/
def Finding.head (found : Finding) : Except Crash (Nat × Nat) :=
  match found.documents with
  | [] => .error .emptyHead
  | head :: _ => .ok head

def Catalog.add (env : CatalogEnv) (place : Place) (root : XmlNode) (c : Catalog) :
    Except Crash (CreateStatus × Catalog) := do
  let documentNode ← defined (findNodeByName [root] "document")
  let schemaNode ← defined (findNodeByName [root] "schema")
  let schema ← defined (createSchemaFromXml env.strtod schemaNode)
  let found ← c.find env root
  let head ← found.head
  let name ← defined (strcpyName (xmlNodeGetContent documentNode))
  if schema.Complete then
    return (.createOk, c.create env.now head.1 place name schema.elements)
  else return (.outOfIndex, c)

def Catalog.executeDelete (env : CatalogEnv) (root : XmlNode) (c : Catalog) :
    Except Crash (ResultType × Catalog) := do
  let found ← c.find env root
  if found.type = .undefinedResult then return (found.type, c)
  else
    let head ← found.head
    return (found.type, c.delete head.1)

def Catalog.executeUpdate (env : CatalogEnv) (root : XmlNode) (c : Catalog) :
    Except Crash (UpdateElementStatus × Catalog) := do
  let found ← c.find env root
  let elementNode := root.children.head?
  if found.type = .undefinedResult then return (.documentNotFound, c)
  else
    let head ← found.head
    let name ← defined (elementNode.bind (xmlGetProp · "name"))
    let newValue ← defined (elementNode.bind (xmlGetProp · "newValue"))
    return c.update env.strtod head.1 name newValue

def Catalog.executeJoin (env : CatalogEnv) (root : XmlNode) (c : Catalog) :
    Except Crash (List (Nat × Nat)) := do
  let found ← c.find env root
  let predicateNode ← defined (findNodeByName [root] "predicate")
  let st ← defined (sizeProp predicateNode)
  let chain ← if st ≠ 0 then defined (createPredicateFromXml predicateNode) else .ok []
  let head ← found.head
  return joined (c.tests env.strtod) c.tree (joinStep (c.name head.1) chain) head.1

/-- The names of documents, as they are answered. -/
def nameChildren (names : List Name) : List XmlNode :=
  names.map fun name => newChild "document" ⟨name.chars, name.noNul⟩ []

/-- An element that was found, as it is answered. -/
def Catalog.elementChild (sprintfF : UInt64 → CString) (c : Catalog)
    (found : (Nat × Nat) × Element) : Except Crash XmlNode := do
  let props ← elementProps sprintfF (some found.2.value)
  let name := c.name found.1.1
  return newChild "element" ⟨found.2.key.chars, found.2.key.noNul⟩
    (props ++ [("document", ⟨name.chars, name.noNul⟩)])

def Catalog.findAnswer (sprintfF : UInt64 → CString) (c : Catalog) (found : Finding) :
    Except Crash XmlNode :=
  match found.type with
  | .undefinedResult => return answer "findStatus" [info "UNDEFINED RESULT"]
  | .documentResult =>
    return answer "findStatus"
      (info "DOCUMENT" :: nameChildren (found.documents.map fun e => c.name e.1))
  | .elementResult => do
    let children ← found.elements.mapM (c.elementChild sprintfF)
    return answer "findStatus" (info "ELEMENT" :: children)

/-- **A request** on a catalog: its answer, and the catalog behind it. -/
def Catalog.execute (env : CatalogEnv) (place : Place) (root : XmlNode) (c : Catalog) :
    Except Crash (XmlNode × Catalog) := do
  let string := xmlGetProp root "type"
  if string = some (xmlChar "add") then
    let (status, c) ← c.add env place root
    return (createAnswer status, c)
  else if string = some (xmlChar "delete") then
    let (type, c) ← c.executeDelete env root
    return (deleteAnswer type, c)
  else if string = some (xmlChar "update") then
    let (status, c) ← c.executeUpdate env root
    return (updateAnswer status, c)
  else if string = some (xmlChar "find") then
    let found ← c.find env root
    let answer ← c.findAnswer env.sprintfF found
    return (answer, c)
  else if string = some (xmlChar "join") then
    let list ← c.executeJoin env root
    return (answer "joinStatus" (nameChildren (list.map fun e => c.name e.1)), c)
  else if string = some (xmlChar "parent") then
    let found ← c.find env root
    let head ← found.head
    return (answer "parentStatus" (nameChildren [c.name head.2]), c)
  else return (.element "answer" [] [], c)

/-- The requests of a session, each with its time and with the place that it has for a document. -/
def Catalog.serve (strtod : CString → StrtodResult) (sprintfF : UInt64 → CString) :
    List ((UInt32 × XmlNode) × Place) → Catalog → Except Crash (List XmlNode × Catalog)
  | [], c => .ok ([], c)
  | ((now, root), place) :: requests, c => do
    let (answer, c) ← c.execute ⟨strtod, sprintfF, now⟩ place root
    let (answers, c) ← Catalog.serve strtod sprintfF requests c
    return (answer :: answers, c)

end Zgdb
