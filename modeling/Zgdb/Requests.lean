/-
# The requests of the server

`zgdbXmlRequest.c` from `executeAddFromXml` on.  A request is decoded, its path is searched, and the
first document of the result is taken without a look at whether there is one.  `Crash` tells this
failure from the others: a string that does not fit, a variable that is used without a value, a
search that does not end.
-/
import Zgdb.Decode
import Zgdb.Find
import Zgdb.Update

namespace Zgdb

variable {A : Type} [BlockSpace A]

/-- How a request ends without an answer: the server follows the head of an empty list, or does what
C leaves undefined. -/
inductive Crash where
  | emptyHead
  | undefined
deriving DecidableEq, Repr

/-- What the server takes from elsewhere: `sprintf` with `%f`, the time, and what the calls take. -/
structure ServerEnv (A : Type) where
  expandIndexes : ZgdbFile A → Option (ZgdbFile A)
  search : SearchEnv
  sprintfF : UInt64 → CString
  now : UInt32

/-- A step of the decoder, or of the store, that may have no result. -/
def defined {α : Type} : Option α → Except Crash α
  | some a => .ok a
  | none => .error .undefined

/-! ## 1. The path of a request

The node of the path is searched in the tree, decoded and evaluated.  `defined` turns what C leaves
undefined into a crash. -/

/-- The path that every request begins with; without a size it is not created. -/
def pathFromXml (root : XmlNode) : Option Path := do
  let pathNode ← root.children.getLast?
  let pathSizeChar ← xmlGetProp pathNode "size"
  let pSize ← (str2long pathSizeChar).2
  if pSize ≠ 0 then
    let p ← createPathFromXml pathNode (createPath pSize.toNat)
    p.usable
  else none

/-- `findIfFromRoot(file, p)` with the path of the request. -/
def findFromXml (env : ServerEnv A) (fuel : Nat) (root : XmlNode) (file : ZgdbFile A) :
    Except Crash FindIfResult := do
  let p ← defined (pathFromXml root)
  defined (findIfFromRoot env.search fuel file p)

/-- `list.head->document` -/
def headDocument (list : List Document) : Except Crash Document :=
  match list with
  | [] => .error .emptyHead
  | head :: _ => .ok head

/-! ## 2. The handlers

One for each request.  They decode what the request brings along and make at most one call on the
store. -/

def executeAddFromXml (env : ServerEnv A) (fuel : Nat) (root : XmlNode) (file : ZgdbFile A) :
    Except Crash (CreateStatus × ZgdbFile A) := do
  let documentNode ← defined (findNodeByName [root] "document")
  let name := xmlNodeGetContent documentNode
  let schemaNode ← defined (findNodeByName [root] "schema")
  let schema ← defined (createSchemaFromXml env.search.strtod schemaNode)
  let ifResult ← findFromXml env fuel root file
  let head ← headDocument ifResult.documentList
  let name ← defined (strcpyName name)
  defined (createDocument env.expandIndexes env.now file name schema head)

def executeDeleteFromXml (env : ServerEnv A) (fuel : Nat) (root : XmlNode) (file : ZgdbFile A) :
    Except Crash (FindIfResult × ZgdbFile A) := do
  let ifResult ← findFromXml env fuel root file
  if ifResult.type = .undefinedResult then return (ifResult, file)
  else
    let head ← headDocument ifResult.documentList
    let file ← defined (deleteDocument fuel file head)
    return (ifResult, file)

def executeUpdateFromXml (env : ServerEnv A) (fuel : Nat) (root : XmlNode) (file : ZgdbFile A) :
    Except Crash (UpdateElementStatus × ZgdbFile A) := do
  let ifResult ← findFromXml env fuel root file
  let elementNode := root.children.head?
  let nameChar := elementNode.bind (xmlGetProp · "name")
  let newValueChar := elementNode.bind (xmlGetProp · "newValue")
  if ifResult.type = .undefinedResult then return (.documentNotFound, file)
  else
    let head ← headDocument ifResult.documentList
    let nameChar ← defined nameChar
    let newValueChar ← defined newValueChar
    defined (updateElement env.search.strtod file head nameChar newValueChar)

def executeFindFromXml (env : ServerEnv A) (fuel : Nat) (root : XmlNode) (file : ZgdbFile A) :
    Except Crash FindIfResult := findFromXml env fuel root file

def executeJoinFromXml (env : ServerEnv A) (fuel : Nat) (root : XmlNode) (file : ZgdbFile A) :
    Except Crash (List Document) := do
  let ifResult ← findFromXml env fuel root file
  let predicateNode ← defined (findNodeByName [root] "predicate")
  let st ← defined (sizeProp predicateNode)
  if st ≠ 0 then
    let xml ← defined (createPredicateFromXml predicateNode)
    let head ← headDocument ifResult.documentList
    defined (join env.search fuel file head xml)
  else
    let head ← headDocument ifResult.documentList
    defined (join env.search fuel file head [])

def executeParentFromXml (env : ServerEnv A) (fuel : Nat) (root : XmlNode) (file : ZgdbFile A) :
    Except Crash Document := do
  let ifResult ← findFromXml env fuel root file
  let head ← headDocument ifResult.documentList
  return parent file head

/-! ## 3. Answers

The XML of an answer.  Numbers are printed into arrays of 50 bytes. -/

/-- `xmlNewChild` with a content. -/
def newChild (name : String) (content : CString) (props : List (String × CString)) : XmlNode :=
  .element name props (textChildren content)

/-- `rootAnswer` with its type and its children. -/
def answer (type : String) (children : List XmlNode) : XmlNode :=
  .element "answer" [("type", xmlChar type)] children

def info (text : String) : XmlNode := newChild "info" (xmlChar text) []

/-- The `document` children, one for each document. -/
def documentChildren (list : List Document) : List XmlNode :=
  list.map fun doc => newChild "document" ⟨doc.header.name.chars, doc.header.name.noNul⟩ []

/-- A `char[50]` that is printed into. -/
def sizeChar (s : CString) : Except Crash CString :=
  if s.strlen < 50 then .ok s else .error .undefined

/-- The type and the value of an element. -/
def elementProps (sprintfF : UInt64 → CString) :
    Option ElementValue → Except Crash (List (String × CString))
  | some (.int v) => do
    let value ← sizeChar (sprintfD v)
    return [("type", xmlChar "INT"), ("value", value)]
  | some (.text t) => return [("type", xmlChar "TEXT"), ("value", t.data)]
  | some (.double v) => do
    let value ← sizeChar (sprintfF v)
    return [("type", xmlChar "DOUBLE"), ("value", value)]
  | some (.boolean v) => do
    let value ← sizeChar (sprintfZu v.toNat)
    return [("type", xmlChar "BOOLEAN"), ("value", value)]
  | none => return []

/-- The `element` child of a found element. -/
def elementChild (sprintfF : UInt64 → CString) (found : Document × ElementEntry) :
    Except Crash XmlNode := do
  let props ← elementProps sprintfF found.2.value
  let name := found.1.header.name
  return newChild "element" ⟨found.2.key.chars, found.2.key.noNul⟩
    (props ++ [("document", ⟨name.chars, name.noNul⟩)])

def createAnswer : CreateStatus → XmlNode
  | .createOk => answer "createStatus" [info "CREATE OK"]
  | .outOfIndex => answer "createStatus" [info "OUT OF INDEX"]
  | .createFailed => answer "createStatus" [info "CREATE FAILED"]

def deleteAnswer : ResultType → XmlNode
  | .undefinedResult => answer "deleteStatus" [info "DOCUMENT NOT FOUND"]
  | .documentResult => answer "deleteStatus" [info "DOCUMENT DELETED"]
  | .elementResult => answer "deleteStatus" [info "WTF (ELEMENT?)"]

def updateAnswer : UpdateElementStatus → XmlNode
  | .updateOk => answer "updateStatus" [info "UPDATE OK"]
  | .elementNotFound => answer "updateStatus" [info "ELEMENT NOT FOUND"]
  | .invalidName => answer "updateStatus" [info "INVALID NAME"]
  | .typeParseError => answer "updateStatus" [info "TYPE PARSE ERROR"]
  | .documentNotFound => answer "updateStatus" [info "DOCUMENT NOT FOUND"]

def findAnswer (sprintfF : UInt64 → CString) (ifResult : FindIfResult) : Except Crash XmlNode :=
  match ifResult.type with
  | .undefinedResult => return answer "findStatus" [info "UNDEFINED RESULT"]
  | .documentResult =>
    return answer "findStatus" (info "DOCUMENT" :: documentChildren ifResult.documentList)
  | .elementResult => do
    let children ← ifResult.elementList.mapM (elementChild sprintfF)
    return answer "findStatus" (info "ELEMENT" :: children)

/-- `executeZgdbFromXml` -/
def executeZgdbFromXml (env : ServerEnv A) (fuel : Nat) (root : XmlNode) (file : ZgdbFile A) :
    Except Crash (XmlNode × ZgdbFile A) := do
  let string := xmlGetProp root "type"
  if string = some (xmlChar "add") then
    let (status, file) ← executeAddFromXml env fuel root file
    return (createAnswer status, file)
  else if string = some (xmlChar "delete") then
    let (ifResult, file) ← executeDeleteFromXml env fuel root file
    return (deleteAnswer ifResult.type, file)
  else if string = some (xmlChar "update") then
    let (status, file) ← executeUpdateFromXml env fuel root file
    return (updateAnswer status, file)
  else if string = some (xmlChar "find") then
    let ifResult ← executeFindFromXml env fuel root file
    let answer ← findAnswer env.sprintfF ifResult
    return (answer, file)
  else if string = some (xmlChar "join") then
    let list ← executeJoinFromXml env fuel root file
    return (answer "joinStatus" (documentChildren list), file)
  else if string = some (xmlChar "parent") then
    let xml ← executeParentFromXml env fuel root file
    return (answer "parentStatus" (documentChildren [xml]), file)
  else return (.element "answer" [] [], file)

end Zgdb
