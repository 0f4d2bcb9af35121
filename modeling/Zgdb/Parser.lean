/-
# The grammar of the client and its actions

`parser.y`: the derivations of the grammar, one inductive type for each nonterminal and one
constructor for each production, the tokens a derivation stands for, and the actions, which run on
the global variables of the parser in the order in which bison reduces.  An action in the middle of
a production runs where it stands.

Nodes come from `malloc`, which is taken to return zeroed memory, and are linked by pointers.  The
members of the union in `ast` are kept apart: an action only uses those of its own request.  An
action that follows a NULL pointer gives `none`.
-/
import Zgdb.Ast
import Zgdb.Lib.LinkedList

namespace Zgdb

open Zgdb.Lib

/-! ## 1. Tokens and derivations

One type for each nonterminal.  A derivation is more than its tokens: it says which production was
used, and in which order the actions run. -/

/-- A token with the value the lexer gives it; a string or key is the text between its quotes. -/
inductive Token where
  | add | delete | update | find | join | parent
  | int | dbl | str | bool
  | absolute | relative | lbrac | rbrac | lrobrac | rrobrac | comma | colon | on | end
  | eq | notEq | ls | gr | grEq | lsEq | cont
  | andSym | orSym | notSym
  | dnumber (decimal : UInt64)
  | number (number : Int32)
  | string (quoted : CString)
  | key (quoted : CString)
deriving DecidableEq

/-- `op` -/
inductive OpTree where
  | eq | notEq | gr | ls | grEq | lsEq | cont
deriving DecidableEq

/-- `sym` -/
inductive SymTree where
  | andSym | orSym
deriving DecidableEq

/-- `not` -/
inductive NotTree where
  | empty | notSym
deriving DecidableEq

/-- `predicate` -/
inductive PredicateTree where
  | number (v : Int32)
  | value (key : CString) (op : OpTree) (string : CString)
  | element (key1 : CString) (op : OpTree) (key2 : CString)
deriving DecidableEq

/-- `predicates` and `jpredicates` -/
inductive PredicatesTree where
  | last (not : NotTree) (predicate : PredicateTree)
  | more (not : NotTree) (predicate : PredicateTree) (sym : SymTree) (rest : PredicatesTree)
deriving DecidableEq

/-- `base` -/
inductive BaseTree where
  | plain (string : CString)
  | filtered (string : CString) (predicates : PredicatesTree)
deriving DecidableEq

/-- `entry` -/
inductive EntryTree where
  | absoluteBase (base : BaseTree)
  | absoluteKey (key : CString)
  | relativeBase (base : BaseTree)
  | relativeKey (key : CString)
deriving DecidableEq

/-- `path` -/
inductive PathTree where
  | last (entry : EntryTree)
  | more (entry : EntryTree) (path : PathTree)
deriving DecidableEq

/-- `element` -/
inductive ElementTree where
  | int (key : CString) (number : Int32)
  | dbl (key : CString) (decimal : UInt64)
  | bool (key : CString) (string : CString)
  | str (key : CString) (string : CString)
deriving DecidableEq

/-- `elements` -/
inductive ElementsTree where
  | last (element : ElementTree)
  | more (element : ElementTree) (rest : ElementsTree)
deriving DecidableEq

/-- `zpath` -/
inductive ZpathTree where
  | add (string : CString) (schema : ElementsTree) (path : PathTree)
  | update (key string : CString) (path : PathTree)
  | delete (path : PathTree)
  | find (path : PathTree)
  | joinOn (jpredicates : PredicatesTree) (path : PathTree)
  | join (path : PathTree)
  | parent (path : PathTree)
deriving DecidableEq

def OpTree.tokens : OpTree → List Token
  | eq => [.eq]
  | notEq => [.notEq]
  | gr => [.gr]
  | ls => [.ls]
  | grEq => [.grEq]
  | lsEq => [.lsEq]
  | cont => [.cont]

def SymTree.tokens : SymTree → List Token
  | andSym => [.andSym]
  | orSym => [.orSym]

def NotTree.tokens : NotTree → List Token
  | empty => []
  | notSym => [.notSym]

def PredicateTree.tokens : PredicateTree → List Token
  | number v => [.lbrac, .number v, .rbrac]
  | value key op string => [.lbrac, .key key] ++ op.tokens ++ [.string string, .rbrac]
  | element key1 op key2 => [.lbrac, .key key1] ++ op.tokens ++ [.key key2, .rbrac]

def PredicatesTree.tokens : PredicatesTree → List Token
  | last not predicate => not.tokens ++ predicate.tokens
  | more not predicate sym rest => not.tokens ++ predicate.tokens ++ sym.tokens ++ rest.tokens

def BaseTree.tokens : BaseTree → List Token
  | plain string => [.string string]
  | filtered string predicates => .string string :: predicates.tokens

def EntryTree.tokens : EntryTree → List Token
  | absoluteBase base => .absolute :: base.tokens
  | absoluteKey key => [.absolute, .key key]
  | relativeBase base => .relative :: base.tokens
  | relativeKey key => [.relative, .key key]

def PathTree.tokens : PathTree → List Token
  | last entry => entry.tokens ++ [.end]
  | more entry path => entry.tokens ++ path.tokens

def ElementTree.tokens : ElementTree → List Token
  | int key number => [.int, .colon, .key key, .colon, .number number]
  | dbl key decimal => [.dbl, .colon, .key key, .colon, .dnumber decimal]
  | bool key string => [.bool, .colon, .key key, .colon, .string string]
  | str key string => [.str, .colon, .key key, .colon, .string string]

def ElementsTree.tokens : ElementsTree → List Token
  | last element => element.tokens
  | more element rest => element.tokens ++ .comma :: rest.tokens

/-- The tokens of a derivation. -/
def ZpathTree.tokens : ZpathTree → List Token
  | add string schema path =>
    [.add, .string string, .lrobrac] ++ schema.tokens ++ .rrobrac :: path.tokens
  | update key string path => [.update, .key key, .string string] ++ path.tokens
  | delete path => .delete :: path.tokens
  | find path => .find :: path.tokens
  | joinOn jpredicates path => .join :: jpredicates.tokens ++ .on :: path.tokens
  | join path => .join :: path.tokens
  | parent path => .parent :: path.tokens

/-! ## 2. The variables of the parser

The global variables and the nodes they lead to.  Strings arrive with their quotes and are cleaned
by the actions. -/

/-- The bytes of `yytext` for a string: a quote on each side. -/
def stringText (quoted : CString) : List UInt8 := 34 :: quoted.chars ++ [34]

/-- The bytes of `yytext` for a key: `@` before the quotes. -/
def keyText (quoted : CString) : List UInt8 := 64 :: 34 :: quoted.chars ++ [34]

/-- `cleanString`: the bytes move down by one and the last one is cut off. -/
def cleanString (string : List UInt8) : List UInt8 := string.tail.dropLast

/-- `cleanKey` -/
def cleanKey (string : List UInt8) : List UInt8 := string.tail.tail.dropLast

/-- `astStep` but its `nextStep`; `pred` and the NULL `stepName` are pointers. -/
structure StepNode where
  pType : AstPathType
  stepName : Option (List UInt8)
  sType : AstStepType
  pred : Nat

/-- `astPredicateType` with the union of `astPredicate`, as the actions fill it. -/
inductive PredicateNodeValue where
  | byDocumentNumber (index : UInt64)
  | byElementValue (key : List UInt8) (operator : AstCompOperator) (input : List UInt8)
  | byElement (key1 : List UInt8) (operator : AstCompOperator) (key2 : List UInt8)

/-- `astPredicate` but its `nextPredicate`. -/
structure PredicateNode where
  logOp : AstLogOperator
  isInverted : Bool
  value : PredicateNodeValue

/-- The union of `astAddSchema`, as the actions fill it. -/
inductive SchemaNodeValue where
  | int (integer : Int32)
  | double (dbl : UInt64)
  | boolean (boolean : Bool)
  | string (string : List UInt8)

/-- `astAddSchema` but its `next`. -/
structure SchemaNode where
  name : List UInt8
  value : SchemaNodeValue

/-- `requestType` -/
inductive RequestType where
  | add | delete | update | find | join | parent
deriving DecidableEq, Repr

/-- `tree`, with pointers to its lists. -/
structure TreeNode where
  type : RequestType
  docName : List UInt8
  first : Nat
  elName : List UInt8
  value : List UInt8
  pred : Nat
  firstStep : Nat
  size : Nat

/-- The globals of `parser.y` and the heap. -/
structure ParserState where
  steps : Heap StepNode
  predicates : Heap PredicateNode
  schemas : Heap SchemaNode
  tree : TreeNode
  aStep : Nat
  aPredicate : Nat
  symbolValue : AstLogOperator
  isFirstPred : Bool
  inv : Bool

/-- The globals before `yyparse`. -/
def initialParser : ParserState where
  steps := .empty ⟨.absolutePath, none, .documentStep, 0⟩
  predicates := .empty ⟨.none, false, .byDocumentNumber 0⟩
  schemas := .empty ⟨[], .int 0⟩
  tree := ⟨.add, [], 0, [], [], 0, 0, 0⟩
  aStep := 0
  aPredicate := 0
  symbolValue := .none
  isFirstPred := true
  inv := false

/-! ## 3. The functions that the actions call

Each takes the variables and leaves them changed; one that needs a node which is not there has no
result. -/

namespace ParserState

variable (s : ParserState)

/-- The four `add…Schema` functions have the list in common. -/
def addSchema (node : SchemaNode) : Option ParserState :=
  let schemas := s.schemas.malloc node
  if s.tree.first = 0 then
    some { s with schemas := schemas, tree := { s.tree with first := schemas.top } }
  else (schemas.link s.tree.first schemas.top).map fun schemas => { s with schemas := schemas }

def addIntSchema (name : List UInt8) (v : Int32) : Option ParserState :=
  s.addSchema ⟨cleanKey name, .int v⟩

def addDblSchema (name : List UInt8) (v : UInt64) : Option ParserState :=
  s.addSchema ⟨cleanKey name, .double v⟩

/-- `strcmp(v, "true") == 0` -/
def addBoolSchema (name v : List UInt8) : Option ParserState :=
  s.addSchema ⟨cleanKey name, .boolean (cleanString v = [116, 114, 117, 101])⟩

def addStrSchema (name v : List UInt8) : Option ParserState :=
  s.addSchema ⟨cleanKey name, .string (cleanString v)⟩

/-- The three `fill…Predicate` functions have the allocation in common. -/
def fillPredicate (value : PredicateNodeValue) : ParserState :=
  let predicates := s.predicates.malloc ⟨.none, false, value⟩
  { s with predicates := predicates, aPredicate := predicates.top }

def fillIndexPredicate (v : Int32) : ParserState :=
  s.fillPredicate (.byDocumentNumber (UInt64.ofInt v.toInt))

def fillValuePredicate (key : List UInt8) (op : AstCompOperator) (str : List UInt8) : ParserState :=
  s.fillPredicate (.byElementValue (cleanKey key) op (cleanString str))

def fillElementPredicate (key1 : List UInt8) (op : AstCompOperator) (key2 : List UInt8) :
    ParserState :=
  s.fillPredicate (.byElement (cleanKey key1) op (cleanKey key2))

def addStep : Option ParserState :=
  if s.tree.firstStep = 0 then
    some { s with tree := { s.tree with firstStep := s.aStep, size := s.tree.size + 1 } }
  else (s.steps.link s.tree.firstStep s.aStep).map fun steps =>
    { s with steps := steps, tree := { s.tree with size := s.tree.size + 1 } }

/-- Fill in the connector and the inversion of `aPredicate`. -/
def markPredicate (logOp : AstLogOperator) : Heap PredicateNode :=
  s.predicates.setData s.aPredicate
    { (s.predicates.node s.aPredicate).data with logOp := logOp, isInverted := s.inv }

/-- What `addPredicate` and `addJPredicate` have in common: the chain from `head`, and how its first
node is set. -/
def addPredicateTo (head : Nat) (setHead : ParserState → ParserState) : Option ParserState :=
  if s.isFirstPred then
    some { setHead s with isFirstPred := false, predicates := s.markPredicate .none }
  else ((s.markPredicate s.symbolValue).link head s.aPredicate).map fun predicates =>
    { s with predicates := predicates }

/-- The predicates of the step at hand. -/
def addPredicate : Option ParserState :=
  s.addPredicateTo (s.steps.node s.aStep).data.pred fun s => { s with
    steps := s.steps.setData s.aStep { (s.steps.node s.aStep).data with pred := s.aPredicate } }

/-- The predicates of JOIN. -/
def addJPredicate : Option ParserState :=
  s.addPredicateTo s.tree.pred fun s => { s with tree := { s.tree with pred := s.aPredicate } }

/-- The first action of `entry`: a document step starts a new chain of predicates. -/
def newStep (pType : AstPathType) (sType : AstStepType) : ParserState :=
  let steps := s.steps.malloc ⟨pType, none, sType, 0⟩
  { s with
    steps := steps
    aStep := steps.top
    isFirstPred := match sType with
      | .documentStep => true
      | .elementStep => s.isFirstPred }

/-- `aStep->stepName = ...` -/
def nameStep (stepName : List UInt8) : ParserState :=
  { s with
    steps := s.steps.setData s.aStep
      { (s.steps.node s.aStep).data with stepName := some stepName } }

end ParserState

/-! ## 4. The actions in their order

The run of a derivation: its parts from left to right, each followed by its action, and actions
within a production where they stand. -/

/-- The value of `op`, as the operator it is cast to. -/
def OpTree.value : OpTree → AstCompOperator
  | eq => .equals
  | notEq => .notEquals
  | gr => .greater
  | ls => .less
  | grEq => .eqGreater
  | lsEq => .eqLess
  | cont => .contains

/-- The value of `sym`, as the connector it is cast to. -/
def SymTree.value : SymTree → AstLogOperator
  | andSym => .and
  | orSym => .or

/-- The value of `not`. -/
def NotTree.value : NotTree → Bool
  | empty => false
  | notSym => true

def PredicateTree.run (s : ParserState) : PredicateTree → ParserState
  | number v => s.fillIndexPredicate v
  | value key op string => s.fillValuePredicate (keyText key) op.value (stringText string)
  | element key1 op key2 => s.fillElementPredicate (keyText key1) op.value (keyText key2)

/-- `predicates`, and `jpredicates` with the other `add` function. -/
def PredicatesTree.run (add : ParserState → Option ParserState) (s : ParserState) :
    PredicatesTree → Option ParserState
  | last not predicate => add { predicate.run s with inv := not.value }
  | more not predicate sym rest => do
    let s ← add { predicate.run s with inv := not.value }
    rest.run add { s with symbolValue := sym.value }

def BaseTree.run (s : ParserState) : BaseTree → Option ParserState
  | plain string => some (s.nameStep (cleanString (stringText string)))
  | filtered string predicates =>
    predicates.run ParserState.addPredicate (s.nameStep (cleanString (stringText string)))

def EntryTree.run (s : ParserState) : EntryTree → Option ParserState
  | absoluteBase base => base.run (s.newStep .absolutePath .documentStep)
  | absoluteKey key =>
    some ((s.newStep .absolutePath .elementStep).nameStep (cleanKey (keyText key)))
  | relativeBase base => base.run (s.newStep .relativePath .documentStep)
  | relativeKey key =>
    some ((s.newStep .relativePath .elementStep).nameStep (cleanKey (keyText key)))

def PathTree.run (s : ParserState) : PathTree → Option ParserState
  | last entry => do
    let s ← entry.run s
    s.addStep
  | more entry path => do
    let s ← entry.run s
    let s ← s.addStep
    path.run s

def ElementTree.run (s : ParserState) : ElementTree → Option ParserState
  | int key number => s.addIntSchema (keyText key) number
  | dbl key decimal => s.addDblSchema (keyText key) decimal
  | bool key string => s.addBoolSchema (keyText key) (stringText string)
  | str key string => s.addStrSchema (keyText key) (stringText string)

def ElementsTree.run (s : ParserState) : ElementsTree → Option ParserState
  | last element => element.run s
  | more element rest => do
    let s ← element.run s
    rest.run s

/-- The `create…Request` functions without arguments. -/
def createRequest (s : ParserState) (type : RequestType) : ParserState :=
  { s with tree := { s.tree with type := type } }

def createAddRequest (s : ParserState) (name : List UInt8) : ParserState :=
  { s with tree := { s.tree with type := .add, docName := cleanString name } }

def createUpdateRequest (s : ParserState) (name input : List UInt8) : ParserState :=
  { s with
    tree := { s.tree with type := .update, elName := cleanKey name, value := cleanString input } }

/-- The actions of a derivation. -/
def ZpathTree.run (s : ParserState) : ZpathTree → Option ParserState
  | add string schema path => do
    let s ← schema.run (createAddRequest s (stringText string))
    path.run s
  | update key string path => path.run (createUpdateRequest s (keyText key) (stringText string))
  | delete path => path.run (createRequest s .delete)
  | find path => path.run (createRequest s .find)
  | joinOn jpredicates path => do
    let s ← jpredicates.run ParserState.addJPredicate (createRequest s .join)
    path.run s
  | join path => path.run (createRequest s .join)
  | parent path => path.run (createRequest s .parent)

end Zgdb
