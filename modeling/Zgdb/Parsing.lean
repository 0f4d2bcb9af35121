/-
# The parser builds the query that was written

For every derivation of the grammar the actions return, and the tree they leave, read along its
pointers, is the query of the derivation (`parser_builds`): the steps in their order, each with its
own predicates, these with the connectors that stand before them.

The argument goes over the derivation.  A chain of predicates belongs to the step at hand or to the
JOIN (`ChainOwner`); adding to it leaves every other node alone, because the nodes of a chain are
newer than everything that was there when it was begun.
-/
import Mathlib.Data.List.Forall2
import Zgdb.Element
import Zgdb.Parser

namespace Zgdb

open Zgdb.Lib

/-! ## 1. The query of a derivation

What a derivation says, without pointers and without the order of the actions. -/

def PredicateTree.ast : PredicateTree → AstPredicateValue
  | number v => .byDocumentNumber (UInt64.ofInt v.toInt)
  | value key op string => .byElementValue key op.value string
  | element key1 op key2 => .byElement key1 op.value key2

/-- The predicates, the first with the given connector, the others with the one before them. -/
def PredicatesTree.ast (logOp : AstLogOperator) : PredicatesTree → List AstPredicate
  | last not predicate => [⟨logOp, not.value, predicate.ast⟩]
  | more not predicate sym rest => ⟨logOp, not.value, predicate.ast⟩ :: rest.ast sym.value

def BaseTree.ast (pType : AstPathType) : BaseTree → AstStep
  | plain string => ⟨pType, string, .documentStep, []⟩
  | filtered string predicates => ⟨pType, string, .documentStep, predicates.ast .none⟩

def EntryTree.ast : EntryTree → AstStep
  | absoluteBase base => base.ast .absolutePath
  | absoluteKey key => ⟨.absolutePath, key, .elementStep, []⟩
  | relativeBase base => base.ast .relativePath
  | relativeKey key => ⟨.relativePath, key, .elementStep, []⟩

def PathTree.ast : PathTree → List AstStep
  | last entry => [entry.ast]
  | more entry path => entry.ast :: path.ast

def ElementTree.ast : ElementTree → AstAddSchema
  | int key number => ⟨key, .int number⟩
  | dbl key decimal => ⟨key, .double decimal⟩
  | bool key string => ⟨key, .boolean (string.chars = [116, 114, 117, 101])⟩
  | str key string => ⟨key, .string string⟩

def ElementsTree.ast : ElementsTree → List AstAddSchema
  | last element => [element.ast]
  | more element rest => element.ast :: rest.ast

/-- The request of a derivation. -/
def ZpathTree.request : ZpathTree → AstRequest
  | add string schema _ => .add string schema.ast
  | update key string _ => .update key string
  | delete _ => .delete
  | find _ => .find
  | joinOn jpredicates _ => .join (jpredicates.ast .none)
  | join _ => .join []
  | parent _ => .parent

/-- The path of a derivation. -/
def ZpathTree.path : ZpathTree → PathTree
  | add _ _ path => path
  | update _ _ path => path
  | delete path => path
  | find path => path
  | joinOn _ path => path
  | join path => path
  | parent path => path

/-- **The query of a derivation.** -/
def ZpathTree.ast (z : ZpathTree) : Ast := ⟨z.request, z.path.ast, z.path.ast.length⟩

/-! ## 2. Reading the tree of the parser

The tree is read along its pointers, with a list for each chain.  A pointer to no node gives no
result. -/

def PredicateNodeValue.ast : PredicateNodeValue → AstPredicateValue
  | byDocumentNumber index => .byDocumentNumber index
  | byElementValue key operator input => .byElementValue (cString key) operator (cString input)
  | byElement key1 operator key2 => .byElement (cString key1) operator (cString key2)

def PredicateNode.ast (n : PredicateNode) : AstPredicate := ⟨n.logOp, n.isInverted, n.value.ast⟩

def SchemaNode.ast (n : SchemaNode) : AstAddSchema where
  name := cString n.name
  value := match n.value with
    | .int v => .int v
    | .double v => .double v
    | .boolean v => .boolean v
    | .string v => .string (cString v)

namespace ParserState

variable (s : ParserState)

def readPredicates (p : Nat) : List AstPredicate :=
  (s.predicates.read s.predicates.top p).map PredicateNode.ast

/-- A step; one without a name is not one. -/
def readStep (n : StepNode) : Option AstStep :=
  n.stepName.map fun stepName => ⟨n.pType, cString stepName, n.sType, s.readPredicates n.pred⟩

def readRequest : AstRequest :=
  match s.tree.type with
  | .add => .add (cString s.tree.docName)
      ((s.schemas.read s.schemas.top s.tree.first).map SchemaNode.ast)
  | .delete => .delete
  | .update => .update (cString s.tree.elName) (cString s.tree.value)
  | .find => .find
  | .join => .join (s.readPredicates s.tree.pred)
  | .parent => .parent

/-- `getAst` -/
def readAst : Option Ast :=
  ((s.steps.read s.steps.top s.tree.firstStep).mapM s.readStep).map fun steps =>
    ⟨s.readRequest, steps, s.tree.size⟩

end ParserState

theorem cString_chars (s : CString) : cString s.chars = s := by
  have h : s.chars.takeWhile (· ≠ 0) = s.chars :=
    List.takeWhile_eq_self_iff.mpr fun c hc => by
      simpa using fun h0 : c = 0 => s.noNul (h0 ▸ hc)
  exact CString.mk.injEq .. ▸ h

@[simp] theorem cleanString_stringText (s : CString) : cleanString (stringText s) = s.chars := by
  simp [cleanString, stringText]

@[simp] theorem cleanKey_keyText (s : CString) : cleanKey (keyText s) = s.chars := by
  simp [cleanKey, keyText]

/-! ## 3. One predicate

A predicate is put at the end of the chain of its owner.  All nodes that are older than the chain
stay as they are. -/

namespace ParserState

variable {s s' : ParserState}

/-- The predicates in a list of nodes. -/
def predicatesOf (s : ParserState) (ps : List Nat) : List AstPredicate :=
  ps.map fun p => (s.predicates.node p).data.ast

/-- The nodes up to `top` are as they were, but for the links of `ps`. -/
structure PredicatesKept (s s' : ParserState) (ps : List Nat) : Prop where
  top : s.predicates.top ≤ s'.predicates.top
  data : ∀ p ≤ s.predicates.top, (s'.predicates.node p).data = (s.predicates.node p).data
  next : ∀ p ≤ s.predicates.top, p ∉ ps → (s'.predicates.node p).next = (s.predicates.node p).next

theorem PredicatesKept.predicatesOf_eq {ps qs : List Nat} (h : s.PredicatesKept s' ps)
    (hq : ∀ q ∈ qs, q ≤ s.predicates.top) : s'.predicatesOf qs = s.predicatesOf qs :=
  List.map_congr_left fun q hmem => by rw [h.data q (hq q hmem)]

theorem PredicatesKept.trans {t : ParserState} (h : s.PredicatesKept s' [])
    (h' : s'.PredicatesKept t []) : s.PredicatesKept t [] where
  top := h.top.trans h'.top
  data p hp := (h'.data p (hp.trans h.top)).trans (h.data p hp)
  next p hp hnot := (h'.next p (hp.trans h.top) hnot).trans (h.next p hp hnot)

theorem PredicatesKept.of_eq {ps : List Nat} (h : s'.predicates = s.predicates) :
    s.PredicatesKept s' ps :=
  ⟨by rw [h], fun _ _ => by rw [h], fun _ _ _ => by rw [h]⟩

/-- A chain apart from `ps` stays. -/
theorem PredicatesKept.chain {ps qs : List Nat} {head : Nat} (h : s.PredicatesKept s' ps)
    (hc : s.predicates.Chain head qs) (hq : ∀ q ∈ qs, q ∉ ps) : s'.predicates.Chain head qs :=
  hc.congr h.top fun q hmem => h.next q (hc.inside q hmem).2 (hq q hmem)

end ParserState

open ParserState

/-- Where a chain of predicates hangs: what adds to it, its first node, and what an addition may
change besides the chain. -/
structure ChainOwner (add : ParserState → Option ParserState) (head : ParserState → Nat)
    (rel : ParserState → ParserState → Prop) : Prop where
  trans : ∀ {s t u}, rel s t → rel t u → rel s u
  inner : ∀ (s : ParserState) (predicates : Heap PredicateNode) (aPredicate : Nat)
    (symbolValue : AstLogOperator) (isFirstPred inv : Bool),
    rel s { s with predicates, aPredicate, symbolValue, isFirstPred, inv } ∧
      head { s with predicates, aPredicate, symbolValue, isFirstPred, inv } = head s
  first : ∀ s : ParserState, s.isFirstPred = true → ∃ s', add s = some s' ∧
    head s' = s.aPredicate ∧ s'.predicates = s.markPredicate .none ∧ s'.isFirstPred = false ∧
      s'.symbolValue = s.symbolValue ∧ rel s s'
  later : ∀ s : ParserState, s.isFirstPred = false → add s
    = ((s.markPredicate s.symbolValue).link (head s) s.aPredicate).map fun predicates =>
      { s with predicates }

/-- The chain of the step at hand. -/
def StepChain (s s' : ParserState) : Prop :=
  s'.aStep = s.aStep ∧ s'.tree = s.tree ∧ s'.schemas = s.schemas ∧ s'.steps.top = s.steps.top ∧
    (∀ p, p ≠ s.aStep → s'.steps.node p = s.steps.node p) ∧
    ∃ pred, s'.steps.node s.aStep
      = ⟨{ (s.steps.node s.aStep).data with pred }, (s.steps.node s.aStep).next⟩

/-- The chain of JOIN. -/
def JoinChain (s s' : ParserState) : Prop :=
  s'.steps = s.steps ∧ s'.schemas = s.schemas ∧ ∃ pred, s'.tree = { s.tree with pred }

theorem stepChain_owner :
    ChainOwner addPredicate (fun s => (s.steps.node s.aStep).data.pred) StepChain where
  trans := by
    rintro s t u ⟨h1, h2, h3, h4, h5, pred, h6⟩ ⟨k1, k2, k3, k4, k5, pred', k6⟩
    refine ⟨k1.trans h1, k2.trans h2, k3.trans h3, k4.trans h4,
      fun p hp => (k5 p (h1 ▸ hp)).trans (h5 p hp), pred', ?_⟩
    rw [h1] at k6
    rw [k6, h6]
  inner s predicates aPredicate symbolValue isFirstPred inv :=
    ⟨⟨rfl, rfl, rfl, rfl, fun _ _ => rfl, _, rfl⟩, rfl⟩
  first s hfirst := by
    refine ⟨_, if_pos hfirst, ?_, rfl, rfl, rfl,
      ⟨rfl, rfl, rfl, rfl, fun p hp => Heap.setData_of_ne hp, s.aPredicate, ?_⟩⟩
    · simp
    · simp
  later s hfirst := by
    rw [addPredicate, addPredicateTo, if_neg (by simp [hfirst])]

theorem joinChain_owner : ChainOwner addJPredicate (fun s => s.tree.pred) JoinChain where
  trans := by
    rintro s t u ⟨h1, h2, pred, h3⟩ ⟨k1, k2, pred', k3⟩
    refine ⟨k1.trans h1, k2.trans h2, pred', ?_⟩
    rw [k3, h3]
  inner s predicates aPredicate symbolValue isFirstPred inv := ⟨⟨rfl, rfl, _, rfl⟩, rfl⟩
  first s hfirst := ⟨_, if_pos hfirst, rfl, rfl, rfl, rfl, rfl, rfl, _, rfl⟩
  later s hfirst := by
    rw [addJPredicate, addPredicateTo, if_neg (by simp [hfirst])]

/-- A predicate is filled in before it is added. -/
theorem PredicateTree.run_eq (s : ParserState) (t : PredicateTree) :
    ∃ v, t.run s = s.fillPredicate v ∧ v.ast = t.ast := by
  cases t with
  | number v => exact ⟨_, rfl, rfl⟩
  | value key op string =>
    refine ⟨_, rfl, ?_⟩
    simp [PredicateNodeValue.ast, PredicateTree.ast, cString_chars]
  | element key1 op key2 =>
    refine ⟨_, rfl, ?_⟩
    simp [PredicateNodeValue.ast, PredicateTree.ast, cString_chars]

variable {add : ParserState → Option ParserState} {head : ParserState → Nat}
  {rel : ParserState → ParserState → Prop} {s : ParserState} {ps : List Nat}

/-- **One predicate is added** to the end of its chain, with its connector. -/
theorem ChainOwner.one (ho : ChainOwner add head rel) (hc : s.predicates.Chain (head s) ps)
    (hfirst : s.isFirstPred = true ↔ ps = []) (t : PredicateTree) (inv : Bool) :
    ∃ s', add { t.run s with inv } = some s' ∧ rel s s' ∧ s'.isFirstPred = false ∧
      s'.predicates.top = s.predicates.top + 1 ∧
      s'.predicates.Chain (head s') (ps ++ [s.predicates.top + 1]) ∧ s.PredicatesKept s' ps ∧
      (s'.predicates.node (s.predicates.top + 1)).data.ast
        = ⟨if ps = [] then .none else s.symbolValue, inv, t.ast⟩ := by
  obtain ⟨v, hrun, hv⟩ := t.run_eq s
  obtain ⟨s0, hs0⟩ : ∃ s0, s0 = { t.run s with inv } := ⟨_, rfl⟩
  have hs0' : s0 = { s with
      predicates := s.predicates.malloc ⟨.none, false, v⟩
      aPredicate := s.predicates.top + 1
      inv } := by
    rw [hs0, hrun]
    rfl
  obtain ⟨hrel, hhead⟩ := ho.inner s (s.predicates.malloc ⟨.none, false, v⟩)
    (s.predicates.top + 1) s.symbolValue s.isFirstPred inv
  rw [← hs0'] at hrel hhead
  rw [← hs0]
  -- the heap in which the new node is marked
  have hmark : ∀ logOp, (s0.markPredicate logOp).top = s.predicates.top + 1 ∧
      (∀ q ≤ s.predicates.top, (s0.markPredicate logOp).node q = s.predicates.node q) ∧
      (s0.markPredicate logOp).node (s.predicates.top + 1) = ⟨⟨logOp, inv, v⟩, 0⟩ := by
    intro logOp
    rw [hs0', markPredicate]
    refine ⟨rfl, ?_, by simp⟩
    intro q hq
    rw [Heap.setData_of_ne (show q ≠ s.predicates.top + 1 by omega), Heap.malloc_old hq]
  by_cases hps : ps = []
  · have hsf : s0.isFirstPred = true := by
      rw [hs0']
      exact hfirst.mpr hps
    obtain ⟨s', hadd, hhead', hpred, hisf, -, hrel'⟩ := ho.first s0 hsf
    obtain ⟨htop, hold, hnew⟩ := hmark .none
    have ha : s0.aPredicate = s.predicates.top + 1 := by rw [hs0']
    refine ⟨s', hadd, ho.trans hrel hrel', hisf, hpred ▸ htop, ?_, ?_, ?_⟩
    · rw [hhead', ha, hps, hpred]
      exact Heap.chain_single (Nat.succ_pos _) htop.ge (by rw [hnew])
    · refine ⟨?_, ?_, ?_⟩
      · rw [hpred]
        omega
      · intro q hq
        rw [hpred, hold q hq]
      · intro q hq _
        rw [hpred, hold q hq]
    · rw [hpred, hnew, if_pos hps]
      simp [PredicateNode.ast, hv]
  · have hsf : s0.isFirstPred = false := by
      rw [hs0', ← Bool.not_eq_true]
      exact fun h => hps (hfirst.mp h)
    obtain ⟨init, q, rfl⟩ := (List.eq_nil_or_concat ps).resolve_left hps
    rw [List.concat_eq_append] at hc hfirst hps ⊢
    obtain ⟨htop, hold, hnew⟩ := hmark s.symbolValue
    have hsym : s0.symbolValue = s.symbolValue := by rw [hs0']
    have ha : s0.aPredicate = s.predicates.top + 1 := by rw [hs0']
    have hcm : (s0.markPredicate s.symbolValue).Chain (head s) (init ++ [q]) :=
      hc.congr (by omega) fun p hp => by rw [hold p (hc.inside p hp).2]
    have hfresh : s.predicates.top + 1 ∉ init ++ [q] := by
      intro hmem
      have := (hc.inside _ hmem).2
      omega
    obtain ⟨hlink, hchain⟩ := hcm.append (Nat.succ_pos _) htop.ge hfresh (by rw [hnew])
    have hadd : add s0 = some { s0 with
        predicates := (s0.markPredicate s.symbolValue).setNext q (s.predicates.top + 1) } := by
      rw [ho.later s0 hsf, hsym, hhead, ha, hlink, Option.map_some]
    obtain ⟨hrel', hhead'⟩ := ho.inner s0
      ((s0.markPredicate s.symbolValue).setNext q (s.predicates.top + 1)) s0.aPredicate
      s0.symbolValue s0.isFirstPred s0.inv
    refine ⟨_, hadd, ho.trans hrel hrel', hsf, htop, ?_, ⟨?_, ?_, ?_⟩, ?_⟩
    · rw [hhead', hhead]
      exact hchain
    · exact (show s.predicates.top ≤ (s0.markPredicate s.symbolValue).top by omega)
    · intro p hp
      simp [hold p hp]
    · intro p hp hpq
      have hne : p ≠ q := fun he => hpq (by simp [he])
      simp [Heap.setNext_of_ne hne, hold p hp]
    · simp [hnew, PredicateNode.ast, hv]

/-- **A list of predicates is added** in its order. -/
theorem PredicatesTree.run_spec (ho : ChainOwner add head rel) (t : PredicatesTree)
    {s : ParserState} {ps : List Nat} (hc : s.predicates.Chain (head s) ps)
    (hfirst : s.isFirstPred = true ↔ ps = []) :
    ∃ s' new, t.run add s = some s' ∧ rel s s' ∧ s'.isFirstPred = false ∧
      s'.predicates.Chain (head s') (ps ++ new) ∧ s.PredicatesKept s' ps ∧
      (∀ q ∈ new, s.predicates.top < q) ∧
      s'.predicatesOf new = t.ast (if ps = [] then .none else s.symbolValue) := by
  induction t generalizing s ps with
  | last not predicate =>
    obtain ⟨s', hadd, hrel, hisf, htop, hchain, hkept, hdata⟩ :=
      ho.one hc hfirst predicate not.value
    refine ⟨s', [s.predicates.top + 1], hadd, hrel, hisf, hchain, hkept, by simp, ?_⟩
    simp only [predicatesOf, List.map_singleton, hdata, PredicatesTree.ast]
  | more not predicate sym rest ih =>
    obtain ⟨s1, hadd, hrel1, hisf1, htop1, hchain1, hkept1, hdata1⟩ :=
      ho.one hc hfirst predicate not.value
    obtain ⟨hrel2, hhead2⟩ := ho.inner s1 s1.predicates s1.aPredicate sym.value
        s1.isFirstPred s1.inv
    have hne : ps ++ [s.predicates.top + 1] ≠ [] := by simp
    obtain ⟨s', new, hrun, hrel3, hisf, hchain, hkept, hnew, hdata⟩ :=
      ih (s := { s1 with symbolValue := sym.value })
        (show Heap.Chain _ _ (ps ++ [s.predicates.top + 1]) by rw [hhead2]; exact hchain1)
        (by simp [hisf1])
    have htop : s1.predicates.top ≤ s'.predicates.top := hkept.top
    refine ⟨s', (s.predicates.top + 1) :: new, ?_, ho.trans hrel1 (ho.trans hrel2 hrel3), hisf, ?_,
      ⟨?_, ?_, ?_⟩, ?_, ?_⟩
    · simp only [PredicatesTree.run, hadd, Option.bind_eq_bind, Option.bind_some]
      exact hrun
    · simpa using hchain
    · omega
    · intro p hp
      rw [hkept.data p (show p ≤ s1.predicates.top by omega)]
      exact hkept1.data p hp
    · intro p hp hpq
      rw [hkept.next p (show p ≤ s1.predicates.top by omega)]
      · exact hkept1.next p hp hpq
      · simp only [List.mem_append, List.mem_singleton]
        rintro (h | h)
        · exact hpq h
        · omega
    · intro q hq
      rcases List.mem_cons.mp hq with rfl | hq
      · exact Nat.lt_succ_self _
      · have := hnew q hq
        have h1 : s1.predicates.top < q := this
        omega
    · have hfirstData := hkept.data (s.predicates.top + 1) htop1.ge
      rw [if_neg hne] at hdata
      rw [PredicatesTree.ast, ← hdata]
      simp only [predicatesOf, List.map_cons, List.cons.injEq, and_true]
      rw [hfirstData, ← hdata1]

/-! ## 4. One step

A step owns the predicates that stand behind it; what was read of the steps before it stays. -/

/-- A node that holds a step with its predicates. -/
def StepHolds (s : ParserState) (p : Nat) (a : AstStep) : Prop :=
  ∃ pred ps, (s.steps.node p).data = ⟨a.pType, some a.stepName.chars, a.sType, pred⟩ ∧
    s.predicates.Chain pred ps ∧ s.predicatesOf ps = a.pred

/-- A new step that is not yet linked; everything else is as it was. -/
structure EntryRead (s s' : ParserState) (a : AstStep) : Prop where
  aStep : s'.aStep = s.steps.top + 1
  stepsTop : s'.steps.top = s.steps.top + 1
  steps : ∀ p ≤ s.steps.top, s'.steps.node p = s.steps.node p
  next : (s'.steps.node (s.steps.top + 1)).next = 0
  holds : StepHolds s' (s.steps.top + 1) a
  predicates : s.PredicatesKept s' []
  tree : s'.tree = s.tree
  schemas : s'.schemas = s.schemas

theorem newStep_node (s : ParserState) (pType : AstPathType) (sType : AstStepType)
    (name : List UInt8) : ((s.newStep pType sType).nameStep name).steps.node (s.steps.top + 1)
      = ⟨⟨pType, some name, sType, 0⟩, 0⟩ := by
  simp [newStep, nameStep]

theorem newStep_old (s : ParserState) (pType : AstPathType) (sType : AstStepType)
    (name : List UInt8) {p : Nat} (hp : p ≤ s.steps.top) :
    ((s.newStep pType sType).nameStep name).steps.node p = s.steps.node p := by
  have hne : p ≠ s.steps.top + 1 := by omega
  simp [newStep, nameStep, Heap.setData_of_ne hne, Heap.malloc_old hp]

/-- A step without predicates. -/
theorem entryRead_plain (s : ParserState) (pType : AstPathType) (sType : AstStepType)
    (name : CString) : EntryRead s ((s.newStep pType sType).nameStep name.chars)
      ⟨pType, name, sType, []⟩ where
  aStep := rfl
  stepsTop := rfl
  steps _ hp := newStep_old s pType sType _ hp
  next := by rw [newStep_node]
  holds := ⟨0, [], by rw [newStep_node], Heap.chain_nil _, rfl⟩
  predicates := .of_eq rfl
  tree := rfl
  schemas := rfl

theorem BaseTree.run_spec (t : BaseTree) (s : ParserState) (pType : AstPathType) :
    ∃ s', t.run (s.newStep pType .documentStep) = some s' ∧ EntryRead s s' (t.ast pType) := by
  cases t with
  | plain string =>
    refine ⟨_, rfl, ?_⟩
    rw [cleanString_stringText]
    exact entryRead_plain s pType .documentStep string
  | filtered string predicates =>
    obtain ⟨s1, hs1⟩ : ∃ s1, s1 = (s.newStep pType .documentStep).nameStep string.chars := ⟨_, rfl⟩
    have hread := entryRead_plain s pType .documentStep string
    have hnode := newStep_node s pType .documentStep string.chars
    rw [← hs1] at hread hnode
    have hpred : (s1.steps.node s1.aStep).data.pred = 0 := by rw [hread.aStep, hnode]
    have hisf : s1.isFirstPred = true := by
      rw [hs1]
      rfl
    obtain ⟨s', new, hrun, ⟨haStep, htree, hschemas, htop, hother, pred, hself⟩, -,
        hchain, hkept, -,
      hdata⟩ := predicates.run_spec stepChain_owner
        (show Heap.Chain _ _ [] by rw [hpred]; exact Heap.chain_nil _) (by simp [hisf])
    rw [hread.aStep, hnode] at hself
    refine ⟨s', ?_, haStep.trans hread.aStep, htop.trans hread.stepsTop, ?_, ?_, ?_, ?_,
      htree.trans hread.tree, hschemas.trans hread.schemas⟩
    · rw [BaseTree.run, cleanString_stringText, ← hs1, hrun]
    · intro p hp
      rw [hother p (by rw [hread.aStep]; omega), hread.steps p hp]
    · rw [hself]
    · refine ⟨pred, new, by rw [hself]; rfl, ?_, by simpa [BaseTree.ast] using hdata⟩
      rw [haStep, hread.aStep, hself] at hchain
      exact hchain
    · have hsame : s1.predicates = s.predicates := by rw [hs1]; rfl
      refine ⟨hsame ▸ hkept.top, ?_, ?_⟩
      · intro p hp
        rw [hkept.data p (hsame.symm ▸ hp), hsame]
      · intro p hp hnot
        rw [hkept.next p (hsame.symm ▸ hp) hnot, hsame]

/-- **An entry makes one step**, with its own predicates. -/
theorem EntryTree.run_spec (e : EntryTree) (s : ParserState) :
    ∃ s', e.run s = some s' ∧ EntryRead s s' e.ast := by
  cases e with
  | absoluteBase base => exact base.run_spec s .absolutePath
  | absoluteKey key =>
    refine ⟨_, rfl, ?_⟩
    rw [cleanKey_keyText]
    exact entryRead_plain s .absolutePath .elementStep key
  | relativeBase base => exact base.run_spec s .relativePath
  | relativeKey key =>
    refine ⟨_, rfl, ?_⟩
    rw [cleanKey_keyText]
    exact entryRead_plain s .relativePath .elementStep key

/-! ## 5. Paths

The steps come one after the other, so the steps that are read are those of the path so far. -/

/-- The list of the steps so far. -/
structure Built (s : ParserState) (as : List AstStep) : Prop where
  chain : ∃ ls, s.steps.Chain s.tree.firstStep ls ∧ List.Forall₂ (StepHolds s) ls as
  size : s.tree.size = as.length

/-- A step whose node and predicates stay. -/
theorem StepHolds.kept {s s' : ParserState} {p : Nat} {a : AstStep} (h : StepHolds s p a)
    (hk : s.PredicatesKept s' []) (hp : (s'.steps.node p).data = (s.steps.node p).data) :
    StepHolds s' p a := by
  obtain ⟨pred, ps, hdata, hc, hps⟩ := h
  refine ⟨pred, ps, hp.trans hdata, hk.chain hc (by simp), ?_⟩
  rw [hk.predicatesOf_eq fun q hq => (hc.inside q hq).2, hps]

/-- Only the list of the steps is another one. -/
def SameRequest (s s' : ParserState) : Prop :=
  s'.schemas = s.schemas ∧ ∃ firstStep size, s'.tree = { s.tree with firstStep, size }

theorem SameRequest.trans {s t u : ParserState} (h : SameRequest s t) (h' : SameRequest t u) :
    SameRequest s u := by
  obtain ⟨h1, f, n, h2⟩ := h
  obtain ⟨k1, f', n', k2⟩ := h'
  exact ⟨k1.trans h1, f', n', by rw [k2, h2]⟩

theorem forall₂_concat {α β : Type} {R : α → β → Prop} {l : List α} {m : List β} {a : α} {b : β}
    (h : List.Forall₂ R l m) (hab : R a b) : List.Forall₂ R (l ++ [a]) (m ++ [b]) :=
  List.rel_append h (.cons hab .nil)

/-- **A step is added** to the end of the path. -/
theorem EntryRead.addStep {s s1 : ParserState} {a : AstStep} {as : List AstStep}
    (h : EntryRead s s1 a) (hb : Built s as) :
    ∃ s2, s1.addStep = some s2 ∧ Built s2 (as ++ [a]) ∧ s2.predicates = s1.predicates ∧
      SameRequest s s2 := by
  obtain ⟨ls, hc, hall⟩ := hb.chain
  have hsize := hb.size
  have hall1 : List.Forall₂ (StepHolds s1) ls as := by
    have hmem : List.Forall₂ (fun p b => p ∈ ls ∧ StepHolds s p b) ls as :=
      (List.forall₂_and_left _ _).mpr ⟨fun _ hp => hp, hall⟩
    refine hmem.imp ?_
    intro p b hpb
    exact hpb.2.kept h.predicates (by rw [h.steps p (hc.inside p hpb.1).2])
  have hc1 : s1.steps.Chain s1.tree.firstStep ls := by
    rw [h.tree]
    exact hc.congr (by rw [h.stepsTop]; omega) fun p hp => by rw [h.steps p (hc.inside p hp).2]
  have hkeep : ∀ steps tree, s1.PredicatesKept { s1 with steps, tree } [] := fun _ _ => .of_eq rfl
  by_cases hls : ls = []
  · subst hls
    have hzero : s1.tree.firstStep = 0 := hc1.linked
    have has : as = [] := by cases hall1; rfl
    subst has
    refine ⟨_, if_pos hzero, ⟨⟨[s1.aStep], ?_, ?_⟩, ?_⟩, rfl, h.schemas, s1.aStep,
      s1.tree.size + 1, by simp only [h.tree]⟩
    · exact Heap.chain_single (by rw [h.aStep]; exact Nat.succ_pos _) (by rw [h.aStep, h.stepsTop])
        (by rw [h.aStep]; exact h.next)
    · refine .cons ?_ .nil
      exact (h.aStep ▸ h.holds).kept (hkeep _ _) rfl
    · simp [h.tree, hsize]
  · obtain ⟨init, q, rfl⟩ := (List.eq_nil_or_concat ls).resolve_left hls
    rw [List.concat_eq_append] at hc hc1 hall1
    have hne : s1.tree.firstStep ≠ 0 := hc1.head_ne (by simp)
    have hfresh : s1.aStep ∉ init ++ [q] := by
      intro hmem
      have := (hc.inside _ hmem).2
      rw [h.aStep] at this
      omega
    obtain ⟨hlink, hchain⟩ := hc1.append (by rw [h.aStep]; omega) (by rw [h.aStep, h.stepsTop])
      hfresh (by rw [h.aStep]; exact h.next)
    refine ⟨{ s1 with
        steps := s1.steps.setNext q s1.aStep
        tree := { s1.tree with size := s1.tree.size + 1 } }, ?_,
      ⟨⟨_, hchain, ?_⟩, ?_⟩, rfl, h.schemas, s1.tree.firstStep, s1.tree.size + 1,
      by simp only [h.tree]⟩
    · rw [ParserState.addStep, if_neg hne, hlink, Option.map_some]
    · refine forall₂_concat (hall1.imp fun p b hpb => hpb.kept (hkeep _ _) (by simp)) ?_
      exact (h.aStep ▸ h.holds).kept (hkeep _ _) (by simp)
    · simp [h.tree, hsize]

/-- **A path adds its steps** in their order. -/
theorem PathTree.run_spec (t : PathTree) {s : ParserState} {as : List AstStep} (hb : Built s as) :
    ∃ s', t.run s = some s' ∧ Built s' (as ++ t.ast) ∧ s.PredicatesKept s' [] ∧
      SameRequest s s' := by
  induction t generalizing s as with
  | last entry =>
    obtain ⟨s1, hrun, hread⟩ := entry.run_spec s
    obtain ⟨s2, hadd, hb2, hpred, hsame⟩ := hread.addStep hb
    refine ⟨s2, ?_, hb2, ?_, hsame⟩
    · simp only [PathTree.run, hrun, Option.bind_eq_bind, Option.bind_some, hadd]
    · exact hread.predicates.trans (.of_eq hpred)
  | more entry path ih =>
    obtain ⟨s1, hrun, hread⟩ := entry.run_spec s
    obtain ⟨s2, hadd, hb2, hpred, hsame⟩ := hread.addStep hb
    obtain ⟨s', hrun', hb', hkept, hsame'⟩ := ih hb2
    refine ⟨s', ?_, ?_, ?_, hsame.trans hsame'⟩
    · simp only [PathTree.run, hrun, Option.bind_eq_bind, Option.bind_some, hadd, hrun']
    · simpa [PathTree.ast] using hb'
    · exact (hread.predicates.trans (.of_eq hpred)).trans hkept

/-! ## 6. Schemas

The elements of an ADD are chained in their order; the path that was built before is not touched. -/

/-- **A schema element is added** to the end of the schema. -/
theorem addSchema_spec {s : ParserState} {ps : List Nat} (hc : s.schemas.Chain s.tree.first ps)
    (node : SchemaNode) : ∃ schemas first, s.addSchema node
      = some { s with schemas, tree := { s.tree with first } } ∧
        schemas.Chain first (ps ++ [s.schemas.top + 1]) ∧
        (∀ p ∈ ps, (schemas.node p).data = (s.schemas.node p).data) ∧
        (schemas.node (s.schemas.top + 1)).data = node := by
  by_cases hps : ps = []
  · subst hps
    have hzero : s.tree.first = 0 := hc.linked
    refine ⟨_, _, if_pos hzero, ?_, by simp, by simp⟩
    exact Heap.chain_single (Nat.succ_pos _) le_rfl (by simp)
  · obtain ⟨init, q, rfl⟩ := (List.eq_nil_or_concat ps).resolve_left hps
    rw [List.concat_eq_append] at hc ⊢
    have hc' : (s.schemas.malloc node).Chain s.tree.first (init ++ [q]) :=
      hc.congr (Nat.le_succ _) fun p hp => by rw [Heap.malloc_old (hc.inside p hp).2]
    have hfresh : s.schemas.top + 1 ∉ init ++ [q] := by
      intro hmem
      have := (hc.inside _ hmem).2
      omega
    obtain ⟨hlink, hchain⟩ := hc'.append (Nat.succ_pos _) le_rfl hfresh (by simp)
    have hne : s.tree.first ≠ 0 := hc.head_ne (by simp)
    refine ⟨_, s.tree.first, ?_, hchain, ?_, by simp⟩
    · rw [addSchema, if_neg hne]
      simp only [Heap.malloc_top, hlink, Option.map_some]
    · intro p hp
      rw [Heap.setNext_data, Heap.malloc_old (hc.inside p hp).2]

theorem ElementTree.run_eq (s : ParserState) (t : ElementTree) :
    ∃ node : SchemaNode, t.run s = s.addSchema node ∧ node.ast = t.ast := by
  cases t with
  | int key number => exact ⟨_, rfl, by simp [SchemaNode.ast, ElementTree.ast, cString_chars]⟩
  | dbl key decimal => exact ⟨_, rfl, by simp [SchemaNode.ast, ElementTree.ast, cString_chars]⟩
  | bool key string => exact ⟨_, rfl, by simp [SchemaNode.ast, ElementTree.ast, cString_chars]⟩
  | str key string => exact ⟨_, rfl, by simp [SchemaNode.ast, ElementTree.ast, cString_chars]⟩

/-- **A schema is built** in its order. -/
theorem ElementsTree.run_spec (t : ElementsTree) {s : ParserState} {ps : List Nat}
    (hc : s.schemas.Chain s.tree.first ps) :
    ∃ schemas first, t.run s = some { s with schemas, tree := { s.tree with first } } ∧
      ∃ new, schemas.Chain first (ps ++ new) ∧
        (∀ p ∈ ps, (schemas.node p).data = (s.schemas.node p).data) ∧
        new.map (fun p => (schemas.node p).data.ast) = t.ast := by
  induction t generalizing s ps with
  | last element =>
    obtain ⟨node, hrun, hnode⟩ := element.run_eq s
    obtain ⟨schemas, first, hadd, hchain, hold, hnew⟩ := addSchema_spec hc node
    refine ⟨schemas, first, hrun.trans hadd, _, hchain, hold, ?_⟩
    simp [hnew, hnode, ElementsTree.ast]
  | more element rest ih =>
    obtain ⟨node, hrun, hnode⟩ := element.run_eq s
    obtain ⟨schemas1, first1, hadd, hchain1, hold1, hnew1⟩ := addSchema_spec hc node
    obtain ⟨schemas, first, hrun', new, hchain, hold, hnew⟩ :=
      ih (s := { s with schemas := schemas1, tree := { s.tree with first := first1 } }) hchain1
    refine ⟨schemas, first, ?_, (s.schemas.top + 1) :: new, by simpa using hchain,
      fun p hp => ?_, ?_⟩
    · simp only [ElementsTree.run, hrun, hadd, Option.bind_eq_bind, Option.bind_some, hrun']
    · exact (hold p (List.mem_append_left _ hp)).trans (hold1 p hp)
    · rw [List.map_cons, hnew, hold _ (by simp), hnew1, hnode]
      rfl

/-! ## 7. Queries

The request is set at the end.  What is read from the tree then is the query. -/

/-- **The steps are read** as they were built. -/
theorem Built.read {s : ParserState} {as : List AstStep} (hb : Built s as) :
    s.readAst = some ⟨s.readRequest, as, as.length⟩ := by
  obtain ⟨ls, hc, hall⟩ := hb.chain
  have hsteps : (ls.map fun p => (s.steps.node p).data).mapM s.readStep = some as := by
    clear hc
    have hlen := hb.size
    clear hlen hb
    induction hall with
    | nil => rfl
    | @cons p a ls as hp _ ih =>
      obtain ⟨pred, ps, hdata, hchain, hps⟩ := hp
      have hread : s.readStep (s.steps.node p).data = some a := by
        rw [readStep, hdata, Option.map_some, readPredicates, hchain.read, List.map_map,
          cString_chars]
        rw [predicatesOf] at hps
        simp only [Function.comp_def, hps]
      simp [hread, ih]
  rw [readAst, hc.read, hsteps, Option.map_some, hb.size]

theorem built_initial {s : ParserState} (hs : s.tree.firstStep = 0) (hn : s.tree.size = 0) :
    Built s [] :=
  ⟨⟨[], by rw [hs]; exact Heap.chain_nil _, .nil⟩, hn⟩

/-- A path behind a request that is read already. -/
theorem PathTree.run_readAst (t : PathTree) {s : ParserState} {request : AstRequest}
    (hs : s.tree.firstStep = 0) (hn : s.tree.size = 0)
    (hrequest : ∀ s', s.PredicatesKept s' [] → SameRequest s s' → s'.readRequest = request) :
    (t.run s).bind readAst = some ⟨request, t.ast, t.ast.length⟩ := by
  obtain ⟨s', hrun, hb, hkept, hsame⟩ := t.run_spec (built_initial hs hn)
  rw [hrun, Option.bind_some, hb.read, hrequest s' hkept hsame, List.nil_append]

/-- **The parser builds the query that was written**, for every derivation of the grammar.  No
action follows a NULL pointer, and the tree that is left on the heap, read along its pointers, is
the query of the derivation.  The induction is over the derivation, with the invariant on owners of
chains for the predicates. -/
theorem parser_builds (z : ZpathTree) : (z.run initialParser).bind readAst = some z.ast := by
  cases z with
  | add string schema path =>
    obtain ⟨schemas, first, hrun, new, hchain, -, hnew⟩ := schema.run_spec
      (s := createAddRequest initialParser (stringText string)) (Heap.chain_nil _)
    simp only [ZpathTree.run, hrun, Option.bind_eq_bind, Option.bind_some]
    refine path.run_readAst rfl rfl fun s' _ ⟨hschemas, f, n, htree⟩ => ?_
    rw [readRequest, htree, hschemas]
    simp only [createAddRequest, cleanString_stringText, cString_chars, hchain.read]
    rw [List.nil_append, List.map_map]
    exact congrArg _ hnew
  | update key string path =>
    refine path.run_readAst rfl rfl fun s' _ ⟨_, f, n, htree⟩ => ?_
    rw [readRequest, htree]
    simp only [createUpdateRequest, cleanString_stringText, cleanKey_keyText, cString_chars]
    rfl
  | delete path =>
    refine path.run_readAst rfl rfl fun s' _ ⟨_, f, n, htree⟩ => ?_
    rw [readRequest, htree]
    rfl
  | find path =>
    refine path.run_readAst rfl rfl fun s' _ ⟨_, f, n, htree⟩ => ?_
    rw [readRequest, htree]
    rfl
  | joinOn jpredicates path =>
    obtain ⟨s1, new, hrun, ⟨-, -, pred, htree1⟩, -, hchain, -, -, hnew⟩ :=
      jpredicates.run_spec joinChain_owner (s := createRequest initialParser .join)
        (Heap.chain_nil _) (by simp [createRequest, initialParser])
    rw [List.nil_append] at hchain
    simp only [ZpathTree.run, hrun, Option.bind_eq_bind, Option.bind_some]
    refine path.run_readAst (by rw [htree1]; rfl) (by rw [htree1]; rfl)
      fun s' hkept ⟨_, f, n, htree⟩ => ?_
    have hpreds : s'.readPredicates s1.tree.pred = jpredicates.ast .none := by
      rw [readPredicates, (hkept.chain hchain (by simp)).read, List.map_map]
      exact (hkept.predicatesOf_eq fun q hq => (hchain.inside q hq).2).trans (by simpa using hnew)
    have htype : s1.tree.type = .join := by rw [htree1]; rfl
    rw [readRequest, htree]
    simp only [htype, hpreds]
    rfl
  | join path =>
    refine path.run_readAst rfl rfl fun s' _ ⟨_, f, n, htree⟩ => ?_
    have hpreds : s'.readPredicates 0 = [] := by
      rw [readPredicates, (Heap.chain_nil _).read]
      rfl
    rw [readRequest, htree]
    exact congrArg _ hpreds
  | parent path =>
    refine path.run_readAst rfl rfl fun s' _ ⟨_, f, n, htree⟩ => ?_
    rw [readRequest, htree]
    rfl

end Zgdb
