/-
# The decoder of the server

`zgdbXmlRequest.c` up to the requests: predicates, paths and schemas out of XML trees.  A step that
C leaves undefined gives `none`: a copy from NULL, a copy of more than a `char[13]` holds, a step
from NULL to its neighbour, a variable that is used without a value.

`createPathFromXml` puts the address of a variable of an inner block into the step.  Where a step
has a predicate the decoded path holds what that variable held; it has ended when the path is used
(`PathWith.usable`).
-/
import Zgdb.Filter
import Zgdb.Numerals
import Zgdb.Schema
import Zgdb.Xml

namespace Zgdb

/-! ## 1. Values

Strings are copied into arrays of 13 bytes.  A longer one is a step that C leaves undefined. -/

/-- `strcpy` into a `char[13]`. -/
def strcpyName (s : CString) : Option Name :=
  if h : s.chars.length ≤ 12 then some ⟨s.chars, h, s.noNul⟩ else none

/-- An attribute that was set to 0 and is read with `str2long`. -/
def sizeProp (node : XmlNode) : Option Int := do
  let sizeChar ← xmlGetProp node "size"
  pure ((str2long sizeChar).2.getD 0)

/-- `getCompOperator` -/
def getCompOperator (predicateNode : XmlNode) : Option CompOperator :=
  let compOperatorChar := xmlGetProp predicateNode "compOperator"
  if compOperatorChar = some (xmlChar "contains") then some .contains
  else if compOperatorChar = some (xmlChar "EQ") then some .equals
  else if compOperatorChar = some (xmlChar "EQ_GR") then some .eqGreater
  else if compOperatorChar = some (xmlChar "EQ_LE") then some .eqLess
  else if compOperatorChar = some (xmlChar "GR") then some .greater
  else if compOperatorChar = some (xmlChar "LE") then some .less
  else if compOperatorChar = some (xmlChar "NEQ") then some .notEquals
  else none

/-! ## 2. Predicates

The children of the predicate node, one behind the other, as many as the attribute says. -/

/-- The connector of a predicate element. -/
def getLogOp (node : XmlNode) : Option LogOperator :=
  let logOpChar := xmlGetProp node "logOp"
  if logOpChar = some (xmlChar "NONE") then some .none
  else if logOpChar = some (xmlChar "OR") then some .or
  else if logOpChar = some (xmlChar "AND") then some .and
  else none

/-- The kind of a predicate element and its operands. -/
def getPredicateValue (node : XmlNode) : Option PredicateValue :=
  let typeChar := xmlGetProp node "type"
  if typeChar = some (xmlChar "BY_DOCUMENT_NUMBER") then do
    let indexChar ← xmlGetProp node "index"
    let index ← (str2long indexChar).2
    pure (.byDocumentNumber (UInt64.ofInt index))
  else if typeChar = some (xmlChar "BY_ELEMENT_VALUE") then do
    let keyChar ← xmlGetProp node "key"
    let valueChar ← xmlGetProp node "value"
    let key ← strcpyName keyChar
    let operator ← getCompOperator node
    pure (.byElementValue key operator valueChar)
  else if typeChar = some (xmlChar "BY_ELEMENT") then do
    let key1Char ← xmlGetProp node "key1"
    let key2Char ← xmlGetProp node "key2"
    let key1 ← strcpyName key1Char
    let key2 ← strcpyName key2Char
    let operator ← getCompOperator node
    pure (.byElement key1 operator key2)
  else none

/-- The body of the loop of `createPredicateFromXml`. -/
def getPredicate (node : XmlNode) : Option Predicate := do
  let logOp ← getLogOp node
  let value ← getPredicateValue node
  pure ⟨logOp, decide (xmlGetProp node "inverted" = some (xmlChar "1")), value⟩

/-- The loop: `s` elements, one behind the other. -/
def getPredicates : (s : Nat) → List XmlNode → Option (List Predicate)
  | 0, _ => some []
  | _ + 1, [] => none
  | s + 1, node :: next => do
    let tPred ← getPredicate node
    let rest ← getPredicates s next
    pure (tPred :: rest)

/-- `createPredicateFromXml`: the chain that begins with the returned predicate. -/
def createPredicateFromXml (predicateNode : XmlNode) : Option (List Predicate) := do
  let s ← sizeProp predicateNode
  if predicateNode.children = [] then none
  else
    let chain ← getPredicates s.toNat predicateNode.children
    if chain = [] then none else pure chain

/-! ## 3. Paths

A step is read from its node, its predicate from the node of the path. -/

/-- What `s.pred` points to: NULL, or the variable `xml` of the block, which held a chain. -/
abbrev BlockPredicate := Option (List Predicate)

/-- The axis of a step. -/
def getPathType (node : XmlNode) : Option PathType :=
  let pathTypeChar := xmlGetProp node "pathType"
  if pathTypeChar = some (xmlChar "abs") then some .absolutePath
  else if pathTypeChar = some (xmlChar "rel") then some .relativePath
  else none

/-- The kind of a step. -/
def getStepType (node : XmlNode) : Option StepType :=
  let stepTypeChar := xmlGetProp node "stepType"
  if stepTypeChar = some (xmlChar "el") then some .elementStep
  else if stepTypeChar = some (xmlChar "doc") then some .documentStep
  else none

/-- The predicate of a step of the path below `pathNode`. -/
def getStepPredicate (pathNode : XmlNode) : Option BlockPredicate := do
  let predicateNode ← findNodeByName [pathNode] "predicate"
  let st ← sizeProp predicateNode
  if st ≠ 0 then do
    let xml ← createPredicateFromXml predicateNode
    pure (some xml)
  else pure none

/-- The body of the loop of `createPathFromXml`. -/
def getStep (pathNode temp : XmlNode) : Option (StepWith BlockPredicate) := do
  let pType ← getPathType temp
  let sType ← getStepType temp
  let stepName ← strcpyName (xmlNodeGetContent temp)
  let pred ← getStepPredicate pathNode
  pure ⟨pType, stepName, sType, pred⟩

/-- `createPathFromXml` -/
def createPathFromXml (pathNode : XmlNode) (p : PathWith BlockPredicate) :
    Option (PathWith BlockPredicate) :=
  if pathNode.children = [] then none
  else
    pathNode.children.foldlM (fun p temp => do
      let s ← getStep pathNode temp
      pure (addStep p s)) p

/-- The path for a caller of `createPathFromXml`, for whom the variables of the block have ended. -/
def PathWith.usable (p : PathWith BlockPredicate) : Option Path :=
  if ∀ s ∈ p.steps, s.pred = none then
    some ⟨p.steps.map fun s => ⟨s.pType, s.stepName, s.sType, []⟩, p.size⟩
  else none

/-! ## 4. Schemas

The type of an element is a string, and says how the content is converted. -/

/-- What the loop of `executeAddFromXml` adds for one element; the statuses are not looked at. -/
def addFromXml (strtod : CString → StrtodResult) (schema : DocumentSchema) (temp : XmlNode) :
    Option DocumentSchema := do
  let type := xmlGetProp temp "type"
  if type = some (xmlChar "INT") then do
    let key ← (xmlGetProp temp "key").bind strcpyName
    let value ← xmlGetProp temp "value"
    let v ← (str2int value).2
    pure (addIntToSchema schema key v).2
  else if type = some (xmlChar "DBL") then do
    let key ← (xmlGetProp temp "key").bind strcpyName
    let value ← xmlGetProp temp "value"
    let v ← (str2double strtod value).2
    pure (addDoubleToSchema schema key v).2
  else if type = some (xmlChar "STR") then do
    let key ← (xmlGetProp temp "key").bind strcpyName
    let value ← xmlGetProp temp "value"
    pure (addTextToSchema schema key value).2
  else if type = some (xmlChar "BOOL") then do
    let key ← (xmlGetProp temp "key").bind strcpyName
    let value ← xmlGetProp temp "value"
    pure (addBooleanToSchema schema key (str2boolean value)).2
  else pure schema

/-- The schema that `executeAddFromXml` builds. -/
def createSchemaFromXml (strtod : CString → StrtodResult) (schemaNode : XmlNode) :
    Option DocumentSchema := do
  let sizeChar ← xmlGetProp schemaNode "size"
  let s ← (str2long sizeChar).2
  if schemaNode.children = [] then none
  else schemaNode.children.foldlM (addFromXml strtod) (initSchema s.toNat)

end Zgdb
