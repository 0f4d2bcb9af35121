/-
# The query tree of the client

`zgdbAst.h`: what the parser of the client builds and `zpathXml.c` encodes.  The chains that are
linked by `nextPredicate`, `nextStep` and `next` are lists here; how the parser links them is the
subject of `Parser`.  A union with the enumeration that selects in it is one inductive type.
-/
import Zgdb.Data

namespace Zgdb

/-- `astPathType` -/
inductive AstPathType where
  | absolutePath
  | relativePath
deriving DecidableEq, Repr

/-- `astStepType` -/
inductive AstStepType where
  | documentStep
  | elementStep
deriving DecidableEq, Repr

/-- `astLogOperator` -/
inductive AstLogOperator where
  | none
  | and
  | or
deriving DecidableEq, Repr

/-- `astCompOperator` -/
inductive AstCompOperator where
  | equals
  | notEquals
  | greater
  | less
  | eqGreater
  | eqLess
  | contains
deriving DecidableEq, Repr

/-- `astPredicateType` with the union of `astPredicate`: `index`, `astCheckType`,
`astCheckTypeElement`. -/
inductive AstPredicateValue where
  | byDocumentNumber (index : UInt64)
  | byElementValue (key : CString) (operator : AstCompOperator) (input : CString)
  | byElement (key1 : CString) (operator : AstCompOperator) (key2 : CString)
deriving DecidableEq

/-- `astPredicate` -/
structure AstPredicate where
  logOp : AstLogOperator
  isInverted : Bool
  value : AstPredicateValue
deriving DecidableEq

/-- `astStep` -/
structure AstStep where
  pType : AstPathType
  stepName : CString
  sType : AstStepType
  pred : List AstPredicate
deriving DecidableEq

/-- `astPath` -/
structure AstPath where
  firstStep : List AstStep
  size : Nat
deriving DecidableEq

/-- `schemaElementType` with the union of `astAddSchema`; a double is its bits. -/
inductive AstSchemaValue where
  | int (integer : Int32)
  | double (dbl : UInt64)
  | boolean (boolean : Bool)
  | string (string : CString)
deriving DecidableEq

/-- `astAddSchema` -/
structure AstAddSchema where
  name : CString
  value : AstSchemaValue
deriving DecidableEq

/-- `requestType` with the union of `ast`. -/
inductive AstRequest where
  | add (docName : CString) (first : List AstAddSchema)
  | delete
  | update (elName value : CString)
  | find
  | join (pred : List AstPredicate)
  | parent
deriving DecidableEq

/-- `ast` -/
structure Ast where
  request : AstRequest
  path : AstPath
deriving DecidableEq

end Zgdb
