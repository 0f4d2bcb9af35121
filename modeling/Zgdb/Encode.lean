/-
# The encoder of the client

`zpathXml.c`: the XML tree of a request.  `sprintf` with `%f` is a parameter.
-/
import Zgdb.Ast
import Zgdb.Numerals
import Zgdb.Xml

namespace Zgdb

/-! ## 1. Predicates

One node for each predicate of the chain, with its operators and its operands as attributes. -/

/-- `zpathCompOperatorToXml` -/
def zpathCompOperatorToXml : AstCompOperator → String × CString
  | .contains => ("compOperator", xmlChar "contains")
  | .equals => ("compOperator", xmlChar "EQ")
  | .eqGreater => ("compOperator", xmlChar "EQ_GR")
  | .eqLess => ("compOperator", xmlChar "EQ_LE")
  | .greater => ("compOperator", xmlChar "GR")
  | .less => ("compOperator", xmlChar "LE")
  | .notEquals => ("compOperator", xmlChar "NEQ")

/-- The first attribute of a predicate element. -/
def zpathLogOpToXml : AstLogOperator → String × CString
  | .and => ("logOp", xmlChar "AND")
  | .or => ("logOp", xmlChar "OR")
  | .none => ("logOp", xmlChar "NONE")

/-- The attributes of each kind of predicate. -/
def zpathPredicateValueToXml : AstPredicateValue → List (String × CString)
  | .byDocumentNumber index =>
    [("type", xmlChar "BY_DOCUMENT_NUMBER"), ("index", sprintfZu index.toNat)]
  | .byElementValue key operator input =>
    [("type", xmlChar "BY_ELEMENT_VALUE"), ("key", key), ("value", input),
      zpathCompOperatorToXml operator]
  | .byElement key1 operator key2 =>
    [("type", xmlChar "BY_ELEMENT"), ("element1", key1), ("element2", key2),
      zpathCompOperatorToXml operator]

/-- The body of the loop of `zpathPredicateToXml`. -/
def zpathPredicateElementToXml (temp : AstPredicate) : XmlNode :=
  .element "predicateElement"
    (zpathLogOpToXml temp.logOp
      :: ("inverted", xmlChar (if temp.isInverted then "1" else "0"))
      :: zpathPredicateValueToXml temp.value) []

/-- `zpathPredicateToXml`: the child that is added to `root`. -/
def zpathPredicateToXml (first : List AstPredicate) : XmlNode :=
  .element "predicate" [("size", sprintfZu first.length)] (first.map zpathPredicateElementToXml)

/-! ## 2. Paths

A node for the path with the number of its steps, and one for each step. -/

/-- The attribute of the axis of a step. -/
def zpathPathTypeToXml : AstPathType → String × CString
  | .absolutePath => ("pathType", xmlChar "abs")
  | .relativePath => ("pathType", xmlChar "rel")

/-- The attribute of the kind of a step. -/
def zpathStepTypeToXml : AstStepType → String × CString
  | .documentStep => ("stepType", xmlChar "doc")
  | .elementStep => ("stepType", xmlChar "el")

/-- The body of the loop of `zpathPathToXml`. -/
def zpathStepToXml (temp : AstStep) : XmlNode :=
  .element "step" [zpathPathTypeToXml temp.pType, zpathStepTypeToXml temp.sType]
    (textChildren temp.stepName ++ [zpathPredicateToXml temp.pred])

/-- `zpathPathToXml`: the children that are added to `root`. -/
def zpathPathToXml (first : List AstStep) : List XmlNode := first.map zpathStepToXml

/-- The `path` child of a request. -/
def zpathPathNodeToXml (path : AstPath) : XmlNode :=
  .element "path" [("size", sprintfZu path.size)] (zpathPathToXml path.firstStep)

/-! ## 3. Requests

The root element names the request.  The path comes in it, and what the request brings along. -/

/-- The type and the value of a schema element. -/
def zpathSchemaValueToXml (sprintfF : UInt64 → CString) : AstSchemaValue → CString × CString
  | .int integer => (xmlChar "INT", sprintfD integer)
  | .double dbl => (xmlChar "DBL", sprintfF dbl)
  | .boolean boolean => (xmlChar "BOOL", sprintfD (if boolean then 1 else 0))
  | .string string => (xmlChar "STR", string)

/-- The body of the schema loop of `zpathToXml`. -/
def zpathSchemaElementToXml (sprintfF : UInt64 → CString) (temp : AstAddSchema) : XmlNode :=
  let value := zpathSchemaValueToXml sprintfF temp.value
  .element "schemaElement" [("type", value.1), ("key", temp.name), ("value", value.2)] []

/-- The schema of an ADD request. -/
def zpathSchemaToXml (sprintfF : UInt64 → CString) (first : List AstAddSchema) : XmlNode :=
  .element "schema" [("size", sprintfZu first.length)]
    (first.map (zpathSchemaElementToXml sprintfF))

/-- The type of a request and what stands before its path. -/
def zpathRequestToXml (sprintfF : UInt64 → CString) : AstRequest → CString × List XmlNode
  | .add docName first =>
    (xmlChar "add",
      [.element "document" [] (textChildren docName), zpathSchemaToXml sprintfF first])
  | .delete => (xmlChar "delete", [])
  | .update elName value =>
    (xmlChar "update", [.element "element" [("name", elName), ("newValue", value)] []])
  | .find => (xmlChar "find", [])
  | .join pred => (xmlChar "join", [zpathPredicateToXml pred])
  | .parent => (xmlChar "parent", [])

/-- `zpathToXml`: the root element of the document. -/
def zpathToXml (sprintfF : UInt64 → CString) (tree : Ast) : XmlNode :=
  let request := zpathRequestToXml sprintfF tree.request
  .element "request" [("type", request.1)] (request.2 ++ [zpathPathNodeToXml tree.path])

end Zgdb
