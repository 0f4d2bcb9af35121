/-
# Paths and predicates

`data/filter`: the path that `findIfFromRoot` evaluates.  The predicate of a step is a chain, the
empty one where the pointer of the source is NULL.
-/
import Zgdb.Data

namespace Zgdb

/-- `pathType` -/
inductive PathType where
  | absolutePath
  | relativePath
deriving DecidableEq, Repr

/-- `stepType` -/
inductive StepType where
  | documentStep
  | elementStep
deriving DecidableEq, Repr

/-- `logOperator` -/
inductive LogOperator where
  | none
  | and
  | or
deriving DecidableEq, Repr

/-- `compOperator` -/
inductive CompOperator where
  | equals
  | notEquals
  | greater
  | less
  | eqGreater
  | eqLess
  | contains
deriving DecidableEq, Repr

/-- `predicateType` with the union of `predicate`: `index`, `checkType`, `checkElement`. -/
inductive PredicateValue where
  | byDocumentNumber (index : UInt64)
  | byElementValue (key : Name) (operator : CompOperator) (input : CString)
  | byElement (key1 : Name) (operator : CompOperator) (key2 : Name)
deriving DecidableEq

/-- `predicate` -/
structure Predicate where
  logOp : LogOperator
  isInverted : Bool
  value : PredicateValue
deriving DecidableEq

/-- `step`, with the type of its predicate -/
structure StepWith (P : Type) where
  pType : PathType
  stepName : Name
  sType : StepType
  pred : P
deriving DecidableEq

/-- `step`, with a predicate that can be read -/
abbrev Step := StepWith (List Predicate)

/-- `path`; the steps that are filled are `capacity` many. -/
structure PathWith (P : Type) where
  steps : List (StepWith P)
  size : Nat
deriving DecidableEq

/-- `path`, with predicates that can be read -/
abbrev Path := PathWith (List Predicate)

variable {P : Type}

/-- `createPath` -/
def createPath (n : Nat) : PathWith P := ⟨[], n⟩

/-- `addStep` -/
def addStep (p : PathWith P) (newStep : StepWith P) : PathWith P :=
  if p.steps.length ≠ p.size then { p with steps := p.steps ++ [newStep] } else p

end Zgdb
