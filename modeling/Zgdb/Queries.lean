/-
# What a query means

A query asks for something at the documents that its path finds (`Query`), and on a catalog its
answer is read off the tree (`Catalog.ask`), without XML.  The client writes it as XML and the
server decodes that; for a query that both sides understand alike (`Means`) the server does on its
catalog what the query asks for, and answers it (`Means.execute`).

What is not understood is left out by `Means`: predicates on the steps of a path, a boolean that is
true, a double, a name of more than 12 bytes.
-/
import Zgdb.Catalog
import Zgdb.RequestPath

namespace Zgdb

open Zgdb.Lib

/-! ## 1. Queries and their answers

What is asked and what is answered, in terms of the catalog. -/

/-- What a query asks for. -/
inductive Demand where
  | add (name : Name) (elements : List Element)
  | delete
  | update (elName value : CString)
  | find
  | join (chain : List Predicate)
  | parent

structure Query where
  demand : Demand
  steps : List Step

/-- What a query is answered; an element comes with the name of its document. -/
inductive Answer where
  | create (status : CreateStatus)
  | delete (type : ResultType)
  | update (status : UpdateElementStatus)
  | nothing
  | documents (names : List Name)
  | elements (els : List (Element × Name))
  | join (names : List Name)
  | parent (name : Name)

/-- What was found, by name. -/
def Catalog.found (c : Catalog) (found : Finding) : Answer :=
  match found.type with
  | .undefinedResult => .nothing
  | .documentResult => .documents (found.documents.map fun e => c.name e.1)
  | .elementResult => .elements (found.elements.map fun x => (x.2, c.name x.1.1))

/-- **A query** on a catalog: its answer, and the catalog behind it.  A query that works on a
document takes the first one that its path finds, and has no answer when there is none. -/
def Catalog.ask (env : CatalogEnv) (place : Place) (q : Query) (c : Catalog) :
    Except Crash (Answer × Catalog) :=
  let found := c.pathValue env.strtod q.steps
  match q.demand with
  | .add name elements => do
    let head ← found.head
    return (.create .createOk, c.create env.now head.1 place name elements)
  | .delete =>
    if found.type = .undefinedResult then return (.delete .undefinedResult, c)
    else do
      let head ← found.head
      return (.delete found.type, c.delete head.1)
  | .update elName value =>
    if found.type = .undefinedResult then return (.update .documentNotFound, c)
    else do
      let head ← found.head
      let (status, c) := c.update env.strtod head.1 elName value
      return (.update status, c)
  | .find => return (c.found found, c)
  | .join chain => do
    let head ← found.head
    let list := joined (c.tests env.strtod) c.tree (joinStep (c.name head.1) chain) head.1
    return (.join (list.map fun e => c.name e.1), c)
  | .parent => do
    let head ← found.head
    return (.parent (c.name head.2), c)

/-- An element of an answer. -/
def elementXml (sprintfF : UInt64 → CString) (x : Element × Name) : Except Crash XmlNode := do
  let props ← elementProps sprintfF (some x.1.value)
  return newChild "element" ⟨x.1.key.chars, x.1.key.noNul⟩
    (props ++ [("document", ⟨x.2.chars, x.2.noNul⟩)])

/-- An answer as the server writes it. -/
def Answer.xml (sprintfF : UInt64 → CString) : Answer → Except Crash XmlNode
  | create status => .ok (createAnswer status)
  | delete type => .ok (deleteAnswer type)
  | update status => .ok (updateAnswer status)
  | nothing => .ok (answer "findStatus" [info "UNDEFINED RESULT"])
  | documents names => .ok (answer "findStatus" (info "DOCUMENT" :: nameChildren names))
  | elements els => do
    let children ← els.mapM (elementXml sprintfF)
    return answer "findStatus" (info "ELEMENT" :: children)
  | join names => .ok (answer "joinStatus" (nameChildren names))
  | parent name => .ok (answer "parentStatus" (nameChildren [name]))

/-! ## 2. Queries that are understood

For such a query the XML that the client writes is decoded to what was asked.  So the catalog
executes it as the query is answered. -/

/-- Both sides understand alike what is asked for. -/
def SameDemand : AstRequest → Demand → Prop
  | .add docName first, .add name elements =>
    name.chars = docName.chars ∧ (first ≠ [] ∧ first.length ≤ 2 ^ 31 - 1) ∧
      ((∀ a ∈ first, a.Valid ∧ a.value ≠ .boolean true) ∧ (first.map AstAddSchema.name).Nodup) ∧
      List.Forall₂ SameElement first elements
  | .delete, .delete => True
  | .update elName value, .update elName' value' => elName' = elName ∧ value' = value
  | .find, .find => True
  | .join pred, .join chain =>
    pred.length ≤ 2 ^ 31 - 1 ∧ (∀ a ∈ pred, a.Numbered ∧ a.Readable) ∧
      List.Forall₂ SamePredicate pred chain
  | .parent, .parent => True
  | _, _ => False

/-- Both sides understand the query alike: the client's tree and the server's query have the same
demand and the same steps.  There are no predicates in the path, which do not arrive, and all names
fit. -/
structure Means (a : Ast) (q : Query) : Prop where
  demand : SameDemand a.request q.demand
  steps : List.Forall₂ SameStep a.path.firstStep q.steps
  plain : ∀ s ∈ a.path.firstStep, s.Plain
  nonempty : a.path.firstStep ≠ []
  size : a.path.size = a.path.firstStep.length
  length : a.path.firstStep.length ≤ 2 ^ 31 - 1

section Codec

variable (sprintfF : UInt64 → CString) {a : Ast} {q : Query}

/-- A plain step has one meaning. -/
theorem SameStep.bare {a : AstStep} {s : Step} (h : SameStep a s) (hp : a.Plain) :
    a.bare = some s := by
  obtain ⟨pType, stepName, sType, pred⟩ := s
  obtain ⟨rfl, rfl, hname, hpred⟩ := h
  rw [hp.1] at hpred
  obtain rfl := List.forall₂_nil_left_iff.mp hpred
  have hname' : (⟨a.stepName.chars, hp.2, a.stepName.noNul⟩ : Name) = stepName := by
    rw [Name.mk.injEq, hname]
  rw [AstStep.bare, strcpyName_of_short hp.2, hname']
  rfl

theorem mapM_bare {first : List AstStep} {ss : List Step} (h : List.Forall₂ SameStep first ss)
    (hp : ∀ a ∈ first, a.Plain) : first.mapM AstStep.bare = some ss := by
  induction h with
  | nil => rfl
  | cons h _ ih =>
    rw [List.mapM_cons, h.bare (hp _ List.mem_cons_self),
      ih fun a ha => hp a (List.mem_cons_of_mem _ ha)]
    rfl

/-- **The path of the query is read.** -/
theorem Means.path (h : Means a q) :
    pathFromXml (zpathToXml sprintfF a) = some ⟨q.steps, q.steps.length⟩ := by
  obtain ⟨request, first, size⟩ := a
  obtain rfl : size = first.length := h.size
  refine (pathFromXml_iff h.nonempty).mpr ⟨q.steps, ⟨h.length, ?_, mapM_bare h.steps h.plain⟩, ?_⟩
  · intro s hs
    exact .inl (h.plain s (List.mem_of_mem_head? hs)).1
  · rw [h.steps.length_eq]

/-- What it finds. -/
theorem Means.find (h : Means a q) (env : CatalogEnv) (c : Catalog) :
    c.find env (zpathToXml sprintfF a) = .ok (c.pathValue env.strtod q.steps) := by
  rw [Catalog.find, h.path sprintfF]
  show defined (c.search env.strtod ⟨q.steps, q.steps.length⟩) = _
  rw [Catalog.search, if_pos rfl]
  rfl

theorem Name.eq_iff {x y : Name} : x = y ↔ x.chars = y.chars := by
  obtain ⟨chars, short, noNul⟩ := x
  obtain ⟨chars', short', noNul'⟩ := y
  rw [Name.mk.injEq]

/-- A predicate has one meaning. -/
theorem SamePredicate.unique {a : AstPredicate} {p p' : Predicate} (h : SamePredicate a p)
    (h' : SamePredicate a p') : p = p' := by
  obtain ⟨logOp, isInverted, value⟩ := p
  obtain ⟨logOp', isInverted', value'⟩ := p'
  obtain ⟨rfl, rfl, hvalue⟩ := h
  obtain ⟨rfl, rfl, hvalue'⟩ := h'
  rw [Predicate.mk.injEq]
  refine ⟨rfl, rfl, ?_⟩
  generalize a.value = v at hvalue hvalue'
  cases v <;> cases value <;> cases value' <;> simp_all [SameValue, Name.eq_iff]

/-- So has an element. -/
theorem SameElement.unique {a : AstAddSchema} {e e' : Element} (h : SameElement a e)
    (h' : SameElement a e') : e = e' := by
  obtain ⟨key, value⟩ := e
  obtain ⟨key', value'⟩ := e'
  obtain ⟨hkey, hvalue⟩ := h
  obtain ⟨hkey', hvalue'⟩ := h'
  rw [Element.mk.injEq, Name.eq_iff]
  refine ⟨hkey.trans hkey'.symm, ?_⟩
  generalize a.value = v at hvalue hvalue'
  cases v <;> cases value <;> cases value' <;> simp_all [SameSchemaValue]

/-- **A chain is read** as it is understood. -/
theorem createPredicateFromXml_readable {pred : List AstPredicate} {chain : List Predicate}
    (hne : pred ≠ []) (hlen : pred.length ≤ 2 ^ 31 - 1)
    (hr : ∀ a ∈ pred, a.Numbered ∧ a.Readable) (hsame : List.Forall₂ SamePredicate pred chain) :
    createPredicateFromXml (zpathPredicateToXml pred) = some chain := by
  have hchildren : (zpathPredicateToXml pred).children ≠ [] := by
    simpa [zpathPredicateToXml, XmlNode.children] using hne
  have hsize : sizeProp (zpathPredicateToXml pred) = some (pred.length : Int) := by
    rw [sizeProp_predicates, if_pos hlen]
  obtain ⟨ps, hps, hsame'⟩ := getPredicates_readable (fun a ha => (hr a ha).1) fun a
      ha => (hr a ha).2
  have hunique : Relator.RightUnique SamePredicate := fun _ _ _ h h' => h.unique h'
  obtain rfl : ps = chain := hunique.forall₂ hsame' hsame
  have hps0 : ps ≠ [] := by
    rintro rfl
    exact hne (List.forall₂_nil_right_iff.mp hsame)
  have hps' : getPredicates pred.length (zpathPredicateToXml pred).children = some ps := hps
  rw [createPredicateFromXml, hsize]
  simp only [Option.bind_eq_bind, Option.bind_some, if_neg hchildren, Int.toNat_natCast, hps',
    if_neg hps0, Option.pure_def]

/-- **A schema is read** as it is understood. -/
theorem createSchemaFromXml_same {first : List AstAddSchema} {elements : List Element}
    (strtod : CString → StrtodResult) (hne : first ≠ []) (hlen : first.length ≤ 2 ^ 31 - 1)
    (hv : ∀ a ∈ first, a.Valid ∧ a.value ≠ .boolean true)
    (hnodup : (first.map AstAddSchema.name).Nodup)
    (hsame : List.Forall₂ SameElement first elements) :
    ∃ schema, createSchemaFromXml strtod (zpathSchemaToXml sprintfF first) = some schema ∧
      schema.elements = elements ∧ schema.Complete := by
  obtain ⟨schema, hschema, hreceived, hcomplete⟩ :=
    createSchema_received sprintfF strtod hne (fun a ha => (hv a ha).1) hnodup hlen
  refine ⟨schema, hschema, ?_, hcomplete⟩
  have hunique : Relator.RightUnique SameElement := fun _ _ _ h h' => h.unique h'
  refine hunique.forall₂ ?_ hsame
  refine ((List.forall₂_and_left _ _).mpr ⟨hv, hreceived⟩).imp ?_
  rintro a e ⟨⟨hva, hbool⟩, hr⟩
  exact (hr.same_iff hva.noDouble).mpr hbool

/-- The document of an ADD request. -/
theorem findNodeByName_document (docName : CString) (first : List AstAddSchema) (path : AstPath) :
    findNodeByName [zpathToXml sprintfF ⟨.add docName first, path⟩] "document"
      = some (.element "document" [] (textChildren docName)) :=
  findNodeByName_below (by decide) (findNodeByName_self rfl _)

theorem xmlNodeGetContent_textChildren (name : String) (s : CString) :
    xmlNodeGetContent (.element name [] (textChildren s)) = s := by
  refine xmlNodeGetContent_eq ?_
  by_cases h : s.chars = [] <;> simp [XmlNode.content, textChildren, h]

/-- The predicate of a JOIN request. -/
theorem findNodeByName_join (pred : List AstPredicate) (path : AstPath) :
    findNodeByName [zpathToXml sprintfF ⟨.join pred, path⟩] "predicate"
      = some (zpathPredicateToXml pred) :=
  findNodeByName_below (by decide) (findNodeByName_self rfl _)

end Codec

section Execute

variable {env : CatalogEnv} {place : Place} {c : Catalog} {a : Ast} {q : Query}

/-- An answer that is written, with the catalog behind it. -/
def written (sprintfF : UInt64 → CString) (x : Answer × Catalog) :
    Except Crash (XmlNode × Catalog) :=
  do
  let xml ← x.1.xml sprintfF
  return (xml, x.2)

/-- What was found is answered by name. -/
theorem Catalog.found_xml (sprintfF : UInt64 → CString) (c : Catalog) (found : Finding) :
    (c.found found).xml sprintfF = c.findAnswer sprintfF found := by
  rw [Catalog.found, Catalog.findAnswer]
  cases found.type with
  | undefinedResult => rfl
  | documentResult => rfl
  | elementResult =>
    simp only [Answer.xml, List.mapM_map]
    rfl

/-- A document that is added. -/
theorem Means.add {docName : CString} {first : List AstAddSchema} {path : AstPath} {name : Name}
    {elements : List Element} {steps : List Step}
    (h : Means ⟨.add docName first, path⟩ ⟨.add name elements, steps⟩) :
    c.add env place (zpathToXml env.sprintfF ⟨.add docName first, path⟩) =
      ((c.pathValue env.strtod steps).head >>= fun head =>
        .ok (.createOk, c.create env.now head.1 place name elements)) := by
  have hfind := h.find env.sprintfF env c
  obtain ⟨hname, ⟨hne, hlen⟩, ⟨hv, hnodup⟩, hsame⟩ := h.demand
  obtain ⟨schema, hschema, rfl, hcomplete⟩ :=
    createSchemaFromXml_same env.sprintfF env.strtod hne hlen hv hnodup hsame
  have hname' : strcpyName docName = some name := by
    have hshort : docName.chars.length ≤ 12 := hname ▸ name.short
    rw [strcpyName_of_short hshort, Option.some.injEq, Name.eq_iff, hname]
  simp only [Catalog.add, findNodeByName_document, findNodeByName_schema, defined, ok_bind,
    hschema, hfind, xmlNodeGetContent_textChildren, hname', if_pos hcomplete]
  rfl

/-- The documents of a JOIN. -/
theorem Means.executeJoin {pred : List AstPredicate} {path : AstPath} {chain : List Predicate}
    {steps : List Step} (h : Means ⟨.join pred, path⟩ ⟨.join chain, steps⟩) :
    c.executeJoin env (zpathToXml env.sprintfF ⟨.join pred, path⟩) =
      ((c.pathValue env.strtod steps).head >>= fun head => .ok (joined (c.tests env.strtod) c.tree
        (joinStep (c.name head.1) chain) head.1)) := by
  have hfind := h.find env.sprintfF env c
  obtain ⟨hlen, hr, hsame⟩ := h.demand
  simp only [Catalog.executeJoin, hfind, ok_bind, findNodeByName_join, defined,
    sizeProp_predicates, if_pos hlen]
  by_cases hnil : pred = []
  · subst hnil
    obtain rfl := List.forall₂_nil_left_iff.mp hsame
    rfl
  · have hne : (pred.length : Int) ≠ 0 := by simpa using hnil
    simp only [if_pos hne, createPredicateFromXml_readable hnil hlen hr hsame, ok_bind]
    rfl

/-- **A query that is understood** is answered as it was meant. -/
theorem Means.execute (h : Means a q) : c.execute env place (zpathToXml env.sprintfF a)
    = c.ask env place q >>= written env.sprintfF := by
  have hfind := h.find env.sprintfF env c
  have hdemand := h.demand
  obtain ⟨request, path⟩ := a
  obtain ⟨demand, steps⟩ := q
  rw [Catalog.execute, Catalog.ask]
  simp only [type_prop]
  cases request with
  | add docName first =>
    cases demand with
    | add name elements =>
      simp only [zpathRequestToXml, h.add]
      rw [if_pos trivial, bind_assoc, bind_assoc]
      rfl
    | _ => exact hdemand.elim
  | delete =>
    cases demand with
    | delete =>
      simp only [zpathRequestToXml, Catalog.executeDelete, hfind, ok_bind]
      rw [if_neg (by decide), if_pos trivial]
      by_cases hund : (c.pathValue env.strtod steps).type = .undefinedResult
      · rw [if_pos hund, if_pos hund, hund]
        rfl
      · rw [if_neg hund, if_neg hund, bind_assoc, bind_assoc]
        rfl
    | _ => exact hdemand.elim
  | update elName value =>
    cases demand with
    | update elName' value' =>
      obtain ⟨rfl, rfl⟩ := hdemand
      have hnode : (zpathToXml env.sprintfF ⟨.update elName' value', path⟩).children.head?
          = some (.element "element" [("name", elName'), ("newValue", value')] []) := rfl
      have hprops : xmlGetProp (.element "element" [("name", elName'), ("newValue", value')] [])
          "name"
            = some elName' ∧
          xmlGetProp (.element "element" [("name", elName'), ("newValue", value')] []) "newValue"
            = some value' := ⟨rfl, rfl⟩
      simp only [zpathRequestToXml, Catalog.executeUpdate, hfind, ok_bind, hnode, Option.bind_some,
        hprops.1, hprops.2, defined]
      rw [if_neg (by decide), if_neg (by decide), if_pos trivial]
      by_cases hund : (c.pathValue env.strtod steps).type = .undefinedResult
      · rw [if_pos hund, if_pos hund]
        rfl
      · rw [if_neg hund, if_neg hund, bind_assoc, bind_assoc]
        rfl
    | _ => exact hdemand.elim
  | find =>
    cases demand with
    | find =>
      simp only [zpathRequestToXml, hfind, ok_bind]
      rw [if_neg (by decide), if_neg (by decide), if_neg (by decide), if_pos trivial,
        ← Catalog.found_xml]
      rfl
    | _ => exact hdemand.elim
  | join pred =>
    cases demand with
    | join chain =>
      simp only [zpathRequestToXml, h.executeJoin]
      rw [if_neg (by decide), if_neg (by decide), if_neg (by decide), if_neg (by decide),
        if_pos trivial, bind_assoc, bind_assoc]
      rfl
    | _ => exact hdemand.elim
  | parent =>
    cases demand with
    | parent =>
      simp only [zpathRequestToXml, hfind, ok_bind]
      rw [if_neg (by decide), if_neg (by decide), if_neg (by decide), if_neg (by decide),
        if_neg (by decide), if_pos trivial, bind_assoc]
      rfl
    | _ => exact hdemand.elim

end Execute

end Zgdb
