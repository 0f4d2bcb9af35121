/-
# Sessions

The requests of a connection, one after the other (`serve`): whatever XML trees arrive, a request
that is answered makes one call on the store or none (`callOf`), the call is one that its caller may
make, and without a call the file stays as it is (`executeZgdbFromXml_calls`).  A session from a new
store is therefore a run of legal calls, and sound as long as they are clean (`session_run`).
-/
import Zgdb.Evaluation
import Zgdb.EmptyResults
import Zgdb.SchemaCodec

namespace Zgdb

open Zgdb.Lib AddrSpace

variable {A : Type} [BlockSpace A]

/-! ## 1. The call of a request

What a request is about to do to the store, from the XML tree and the file alone. -/

/-- What the calls take from elsewhere. -/
def ServerEnv.calls (env : ServerEnv A) : Env A := ⟨env.expandIndexes, env.search.strtod⟩

/-- The document that a request works on, the first one that its path finds. -/
def target (env : ServerEnv A) (root : XmlNode) (file : ZgdbFile A) : Option Document :=
  match findFromXml env (loopBound file) root file with
  | .ok ifResult => ifResult.documentList.head?
  | .error _ => none

/-- The creation that an ADD request asks for; a schema that is not full is refused. -/
def addCall (env : ServerEnv A) (root : XmlNode) (parent : Nat) : Option Call := do
  let documentNode ← findNodeByName [root] "document"
  let name ← strcpyName (xmlNodeGetContent documentNode)
  let schemaNode ← findNodeByName [root] "schema"
  let schema ← createSchemaFromXml env.search.strtod schemaNode
  if schema.Complete then some (.create env.now parent name schema) else none

/-- The deletion of a document. -/
def deleteCall (doc : Document) : Call :=
  if doc.header.indexAttached = 0 then .deleteRoot
  else .delete doc.header.indexAttached doc.indexParent

/-- The update that an UPDATE request asks for. -/
def updateCall (root : XmlNode) (doc : Nat) : Option Call := do
  let elementNode ← root.children.head?
  let name ← xmlGetProp elementNode "name"
  let newValue ← xmlGetProp elementNode "newValue"
  return .update doc name newValue

/-- The call that a request makes. -/
def callOf (env : ServerEnv A) (root : XmlNode) (file : ZgdbFile A) : Option Call := do
  let doc ← target env root file
  let type ← xmlGetProp root "type"
  if type = xmlChar "add" then addCall env root doc.header.indexAttached
  else if type = xmlChar "delete" then some (deleteCall doc)
  else if type = xmlChar "update" then updateCall root doc.header.indexAttached
  else none

/-! ## 2. What the path of a request finds

The first document of a result is a live document, and the parent it carries is the one it hangs
below.  So the handlers pass to the store what a caller may pass. -/

section Found

variable {env : SearchEnv} {file : ZgdbFile A} {T : Forest Nat} {fuel : Nat}

/-- The root, or a document with its parent. -/
def Held (file : ZgdbFile A) (T : Forest Nat) (doc : Document) : Prop :=
  doc = documentAt file 0 0 ∨ ∃ k, FoundAs file T doc k

/-- A node that is fetched has its parent with it. -/
theorem DocTree.foundAs_of_reached (h : DocTree file T) {p : Nat} (hp : p ∈ T.nodes)
    {pType : PathType} {e : Nat × Nat} (he : e ∈ reached T p pType) :
    FoundAs file T (documentAt file e.1 e.2) e.1 := by
  have hdoc : documentAt file e.1 e.2 ∈ scanned file T p pType := by
    rw [scanned_eq]
    exact List.mem_map_of_mem he
  obtain ⟨k, hfound⟩ : ∃ k, FoundAs file T (documentAt file e.1 e.2) k := by
    obtain ⟨k, -, hk⟩ := (mem_scanned h hp).mp hdoc
    exact ⟨k, hk⟩
  have hk : k = e.1 := by
    obtain ⟨q, hq, hson, heq⟩ := hfound
    have h1 := h.attached k (h.son_mem hq hson)
    have h2 := h.attached e.1 (h.mem_reached hp he)
    have h3 := congrArg (fun doc : Document => doc.header.indexAttached) heq
    exact h1.symm.trans (h3.symm.trans h2)
  rwa [hk] at hfound

/-- The loop over the steps ends when it has seen all of them. -/
theorem findSteps_size {size i : Nat} {ss : List Step} {contextList : List Document} {depth : Nat}
    {r r' : FindIfResult}
    (hr : findSteps env fuel file size i ss contextList depth r = some r') : i
      + ss.length = size := by
  induction ss generalizing i contextList depth r with
  | nil =>
    simp only [findSteps, Option.ite_none_right_eq_some] at hr
    exact hr.1
  | cons s ss ih =>
    simp only [findSteps, Option.bind_eq_bind, Option.bind_eq_some_iff] at hr
    obtain ⟨x, -, hrest⟩ := hr
    have hsize := ih hrest
    rw [List.length_cons]
    omega

theorem DocTree.parentsAfter_mem (h : DocTree file T) {tests : StepTests} {ss : List Step}
    {parents : List Nat} (hp : ∀ p ∈ parents, p ∈ T.nodes) :
    ∀ p ∈ parentsAfter tests T ss parents, p ∈ T.nodes := by
  induction ss generalizing parents with
  | nil => exact hp
  | cons s ss ih => exact ih (h.nextParents_mem hp)

/-- What a path evaluates to is in the tree. -/
theorem DocTree.foundAs_of_evaluate (h : DocTree file T) {tests : StepTests} {ss : List Step}
    {s : Step} {e : Nat × Nat} (he : e ∈ evaluate tests T ss s) :
    FoundAs file T (documentAt file e.1 e.2) e.1 := by
  have hparents : ∀ p ∈ parentsAfter tests T ss [0], p ∈ T.nodes :=
    h.parentsAfter_mem (by simpa using h.root_mem)
  unfold evaluate lastNodes at he
  cases hs : s.sType with
  | documentStep =>
    simp only [hs, List.mem_flatMap] at he
    obtain ⟨p, hp, hep⟩ := he
    exact h.foundAs_of_reached (hparents p hp) (mem_of_mem_matched hep)
  | elementStep =>
    simp only [hs, List.mem_flatMap] at he
    obtain ⟨p, hp, hep⟩ := he
    exact h.foundAs_of_reached (hparents p hp) hep

theorem documentList_addElements (r : FindIfResult) (els : List (Document × ElementEntry)) :
    (r.addElements els).documentList = r.documentList := by
  cases els <;> rfl

/-- The documents of the value of a path. -/
theorem DocTree.held_of_pathValue (h : DocTree file T) {ss : List Step} {doc : Document}
    (hdoc : doc ∈ (pathValue env file T ss).documentList) : Held file T doc := by
  unfold pathValue at hdoc
  split at hdoc
  · exact Or.inl (List.mem_singleton.mp hdoc)
  · split at hdoc
    · obtain ⟨e, he, rfl⟩ := List.mem_map.mp hdoc
      obtain ⟨k, hk, rfl⟩ := List.mem_map.mp he
      exact Or.inr ⟨k, 0, h.root_mem, (h.sonOf_iff h.root_mem).mpr hk, rfl⟩
    · split at hdoc
      · cases hdoc
      · rename_i s _
        unfold resultOf at hdoc
        cases hs : s.sType with
        | elementStep =>
          simp only [hs, documentList_addElements, FindIfResult.empty] at hdoc
          cases hdoc
        | documentStep =>
          simp only [hs, documentList_addDocuments, FindIfResult.empty, List.nil_append] at hdoc
          obtain ⟨e, he, rfl⟩ := List.mem_map.mp hdoc
          exact Or.inr ⟨e.1, h.foundAs_of_evaluate he⟩

/-- **A path with too few steps** is only answered when there is nothing to search. -/
theorem DocTree.search_short (h : DocTree file T) {p : Path} (hlt : p.steps.length < p.size) :
    findIfFromRoot env fuel file p = if sonOf file 0 = none then some .empty else none := by
  have hbare : ∀ pType, ¬ isBarePath p pType := by
    rintro pType ⟨hsize, s, hs, -⟩
    have hpos := List.length_pos_of_mem hs
    omega
  simp only [findIfFromRoot, findIf0, nextDoc_root h, if_neg (hbare .absolutePath),
    if_neg (hbare .relativePath)]
  cases hx : sonOf file 0 with
  | none => rfl
  | some x =>
    have hgo : hasNextDoc (createDocIterator x 0 1) = true := rfl
    simp only [hgo, if_true, reduceCtorEq, if_false, Option.map_eq_none_iff]
    refine Option.eq_none_iff_forall_ne_some.mpr ?_
    intro r hr
    have hsize := findSteps_size hr
    omega

/-- **What a search returns** is the root or a document with its parent. -/
theorem DocTree.held_of_search (h : DocTree file T) (hfuel : T.nodes.length < fuel) {p : Path}
    (hle : p.steps.length ≤ p.size) {r : FindIfResult}
    (hr : findIfFromRoot env fuel file p = some r) : ∀ doc ∈ r.documentList, Held file T doc := by
  rcases Nat.lt_or_eq_of_le hle with hlt | hsize
  · rw [h.search_short hlt, Option.ite_none_right_eq_some] at hr
    obtain rfl := Option.some.inj hr.2
    intro doc hdoc
    cases hdoc
  · have hp : p = ⟨p.steps, p.steps.length⟩ := by rw [hsize]
    rw [hp, h.search_eq env hfuel, Option.some.injEq] at hr
    intro doc hdoc
    exact h.held_of_pathValue (hr ▸ hdoc)

end Found

/-! ## 3. The parts of a request

The decoders build schemas by the `add…ToSchema` functions and paths by `addStep`, so what they hand
over satisfies what those keep. -/

section Parts

variable {α β : Type}

theorem bind_ok {x : Except Crash α} {f : α → Except Crash β} {b : β} :
    (x >>= f) = .ok b ↔ ∃ a, x = .ok a ∧ f a = .ok b := by
  cases x with
  | error c => exact ⟨fun h => (by cases h), fun ⟨a, ha, _⟩ => (by cases ha)⟩
  | ok a => exact ⟨fun h => ⟨a, rfl, h⟩, fun ⟨a', ha, h⟩ => (by cases ha; exact h)⟩

theorem defined_ok {x : Option α} {a : α} : defined x = .ok a ↔ x = some a := by
  cases x <;> simp [defined]

theorem headDocument_ok {list : List Document} {doc : Document} :
    headDocument list = .ok doc ↔ list.head? = some doc := by
  cases list <;> simp [headDocument]

theorem findFromXml_ok {env : ServerEnv A} {fuel : Nat} {root : XmlNode} {file : ZgdbFile A}
    {r : FindIfResult} : findFromXml env fuel root file = .ok r ↔
      ∃ p, pathFromXml root = some p ∧ findIfFromRoot env.search fuel file p = some r := by
  simp only [findFromXml, bind_ok, defined_ok]

end Parts

/-- A path is never filled beyond its size. -/
theorem length_addStep_le {P : Type} {p : PathWith P} (h : p.steps.length ≤ p.size)
    (newStep : StepWith P) : (addStep p newStep).steps.length ≤ (addStep p newStep).size := by
  unfold addStep
  split
  · rw [List.length_append, List.length_singleton]
    exact Nat.lt_of_le_of_ne h (by assumption)
  · exact h

theorem length_createPathFromXml_le {pathNode : XmlNode} {p p' : PathWith BlockPredicate}
    (hp : createPathFromXml pathNode p = some p') (hle : p.steps.length ≤ p.size) :
    p'.steps.length ≤ p'.size := by
  unfold createPathFromXml at hp
  split at hp
  · cases hp
  · generalize pathNode.children = nodes at hp
    induction nodes generalizing p with
    | nil =>
      obtain rfl := Option.some.inj hp
      exact hle
    | cons temp nodes ih =>
      rw [List.foldlM_cons, Option.bind_eq_bind, Option.bind_eq_some_iff] at hp
      obtain ⟨p1, hp1, hrest⟩ := hp
      obtain ⟨s, -, hs⟩ := Option.bind_eq_some_iff.mp hp1
      obtain rfl := Option.some.inj hs
      exact ih (length_addStep_le hle s) hrest

/-- The path of a request is not filled beyond its size. -/
theorem length_pathFromXml_le {root : XmlNode} {p : Path} (hp : pathFromXml root = some p) :
    p.steps.length ≤ p.size := by
  simp only [pathFromXml, Option.bind_eq_bind, Option.bind_eq_some_iff,
    Option.ite_none_right_eq_some] at hp
  obtain ⟨pathNode, -, sizeChar, -, pSize, -, -, p', hp', husable⟩ := hp
  have hle := length_createPathFromXml_le hp' (Nat.zero_le _)
  unfold PathWith.usable at husable
  split at husable
  · obtain rfl := Option.some.inj husable
    simpa using hle
  · cases husable

theorem built_addFromXml {strtod : CString → StrtodResult} {schema schema' : DocumentSchema}
    {temp : XmlNode} (hb : schema.Built) (h : addFromXml strtod schema temp = some schema') :
    schema'.Built := by
  simp only [addFromXml, Option.bind_eq_bind, Option.pure_def] at h
  split at h
  · obtain ⟨key, -, h⟩ := Option.bind_eq_some_iff.mp h
    obtain ⟨value, -, h⟩ := Option.bind_eq_some_iff.mp h
    obtain ⟨v, -, h⟩ := Option.bind_eq_some_iff.mp h
    exact Option.some.inj h ▸ hb.int key v
  · split at h
    · obtain ⟨key, -, h⟩ := Option.bind_eq_some_iff.mp h
      obtain ⟨value, -, h⟩ := Option.bind_eq_some_iff.mp h
      obtain ⟨v, -, h⟩ := Option.bind_eq_some_iff.mp h
      exact Option.some.inj h ▸ hb.double key v
    · split at h
      · obtain ⟨key, -, h⟩ := Option.bind_eq_some_iff.mp h
        obtain ⟨value, -, h⟩ := Option.bind_eq_some_iff.mp h
        exact Option.some.inj h ▸ hb.text key value
      · split at h
        · obtain ⟨key, -, h⟩ := Option.bind_eq_some_iff.mp h
          obtain ⟨value, -, h⟩ := Option.bind_eq_some_iff.mp h
          exact Option.some.inj h ▸ hb.boolean key (str2boolean value)
        · exact Option.some.inj h ▸ hb

/-- **The schema of a request** is one that a caller can build. -/
theorem built_createSchemaFromXml {strtod : CString → StrtodResult} {schemaNode : XmlNode}
    {schema : DocumentSchema} (h : createSchemaFromXml strtod schemaNode = some schema) :
    schema.Built := by
  simp only [createSchemaFromXml, Option.bind_eq_bind, Option.bind_eq_some_iff] at h
  obtain ⟨sizeChar, -, size, -, h⟩ := h
  split at h
  · cases h
  · have hb : (initSchema size.toNat).Built := .init _
    generalize schemaNode.children = nodes at h
    generalize initSchema size.toNat = schema0 at h hb
    induction nodes generalizing schema0 with
    | nil => exact Option.some.inj h ▸ hb
    | cons temp nodes ih =>
      rw [List.foldlM_cons, Option.bind_eq_bind, Option.bind_eq_some_iff] at h
      obtain ⟨schema1, h1, hrest⟩ := h
      exact ih schema1 hrest (built_addFromXml hb h1)

theorem SonOf.ne_zero {file : ZgdbFile A} {p d : Nat} (h : SonOf file p d) : d ≠ 0 := by
  cases h with
  | first h => exact (link_eq_some.mp h).2
  | next _ h => exact (link_eq_some.mp h).2

/-! ## 4. The call that is made

For each request: what the handler does to the file is the call that was read off the tree, or
nothing. -/

section Calls

variable {file file' : ZgdbFile A} {T : Forest Nat} {es : Nat → List StoredElement}
  {own : Nat → List Nat}

/-- The parent that a document was found under does not matter to an update. -/
theorem Store.updateElement_parent {strtod : CString → StrtodResult} (hs : Store file T es own)
    {k : Nat} (hk : k ∈ T.nodes) (p : Nat) (key input : CString) :
    (updateElement strtod file (documentAt file k p) key input).map Prod.snd
      = (updateElement strtod file (documentAt file k 0) key input).map Prod.snd := by
  rcases element_cases (es k) key with habsent | ⟨pre, name, v, post, hes, hkey⟩
  · obtain ⟨status, h⟩ : ∃ status, updateElement strtod file (documentAt file k p) key input
        = some (status, file) := updateElement_absent hs hk p habsent
    obtain ⟨status', h'⟩ : ∃ status, updateElement strtod file (documentAt file k 0) key input
        = some (status, file) := updateElement_absent hs hk 0 habsent
    rw [h, h']
    rfl
  · rw [updateElement_found hs hk p hes hkey, updateElement_found hs hk 0 hes hkey]
    rfl

variable {env : ServerEnv A} {root : XmlNode}

/-- What a request works on is held by the tree. -/
theorem Store.held (hs : Store file T es own) {r : FindIfResult}
    (hfind : findFromXml env (loopBound file) root file = .ok r) :
    ∀ doc ∈ r.documentList, Held file T doc := by
  obtain ⟨p, hp, hr⟩ := findFromXml_ok.mp hfind
  exact hs.docTree.held_of_search hs.docTree_fuel (length_pathFromXml_le hp) hr

theorem target_eq {r : FindIfResult} {doc : Document}
    (hfind : findFromXml env (loopBound file) root file = .ok r)
    (hhead : headDocument r.documentList = .ok doc) : target env root file = some doc := by
  simp only [target, hfind, headDocument_ok.mp hhead]

/-- A document that is held is live; it is the root, or stored below the parent it carries. -/
theorem Store.held_cases (hs : Store file T es own) {doc : Document} (hd : Held file T doc) :
    ∃ k q, doc = documentAt file k q ∧ k ∈ T.nodes ∧
      (k = 0 ∧ q = 0 ∨ k ≠ 0 ∧ q ∈ T.nodes ∧ SonOf file q k) := by
  rcases hd with rfl | ⟨k, q, hq, hson, rfl⟩
  · exact ⟨0, 0, rfl, hs.root_mem, Or.inl ⟨rfl, rfl⟩⟩
  · exact ⟨k, q, rfl, hs.docTree.son_mem hq hson, Or.inr ⟨hson.ne_zero, hq, hson⟩⟩

/-- The document that a request works on. -/
theorem Store.target_cases (hs : Store file T es own) {r : FindIfResult} {doc : Document}
    (hfind : findFromXml env (loopBound file) root file = .ok r)
    (hhead : headDocument r.documentList = .ok doc) :
    target env root file = some doc ∧ ∃ k q, doc = documentAt file k q ∧ k ∈ T.nodes ∧
      (k = 0 ∧ q = 0 ∨ k ≠ 0 ∧ q ∈ T.nodes ∧ SonOf file q k) := by
  refine ⟨target_eq hfind hhead, hs.held_cases ?_⟩
  exact hs.held hfind doc (List.mem_of_mem_head? (headDocument_ok.mp hhead))

/-- What became of the call of a request. -/
def Made (env : ServerEnv A) (file file' : ZgdbFile A) (call : Option Call) : Prop :=
  call = none ∧ file' = file ∨
    ∃ c, call = some c ∧ c.Legal file ∧ c.exec env.calls file = some file'

/-- **An ADD request** creates a document, or its schema is refused. -/
theorem Store.executeAdd (hs : Store file T es own) {status : CreateStatus}
    (hrun : executeAddFromXml env (loopBound file) root file = .ok (status, file')) :
    ∃ doc, target env root file = some doc ∧
      Made env file file' (addCall env root doc.header.indexAttached) := by
  simp only [executeAddFromXml, bind_ok, defined_ok] at hrun
  obtain ⟨documentNode, hdocument, schemaNode, hschemaNode, schema, hschema, r, hfind, doc, hhead,
    name, hname, hcreate⟩ := hrun
  obtain ⟨htarget, k, q, rfl, hk, -⟩ := hs.target_cases hfind hhead
  refine ⟨_, htarget, ?_⟩
  have hatt : (documentAt file k q).header.indexAttached = k := hs.attached hk
  have hcall : addCall env root k
      = if schema.Complete then some (.create env.now k name schema) else none := by
    simp [addCall, hdocument, hname, hschemaNode, hschema]
  rw [hatt, hcall]
  by_cases hcomplete : schema.Complete
  · rw [if_pos hcomplete]
    refine Or.inr ⟨_, rfl, ⟨hs.live_iff.mpr hk, built_createSchemaFromXml hschema, hcomplete⟩, ?_⟩
    have hcreate' : createDocument env.expandIndexes env.now file name schema
      (documentAt file k 0) = some (status, file') := hcreate
    rw [Call.exec, ServerEnv.calls, hcreate']
    rfl
  · rw [if_neg hcomplete]
    refine Or.inl ⟨rfl, ?_⟩
    have hne : schema.capacity ≠ schema.size := hcomplete
    have hrefused : createDocument env.expandIndexes env.now file name schema (documentAt file k q)
        = some (.outOfIndex, file) := by
      unfold createDocument
      rw [if_pos hne]
      rfl
    rw [hrefused, Option.some.injEq, Prod.mk.injEq] at hcreate
    exact hcreate.2.symm

/-- Without a result there is no document. -/
theorem documentList_of_undefined {r : FindIfResult}
    (hfind : findFromXml env (loopBound file) root file = .ok r)
    (htype : r.type = .undefinedResult) :
    r.documentList = [] := by
  obtain ⟨p, -, hr⟩ := findFromXml_ok.mp hfind
  obtain ⟨r0, -, rfl⟩ := Option.map_eq_some_iff.mp hr
  unfold FindIfResult.destroyLists at htype ⊢
  split at htype <;> simp_all

theorem target_none {r : FindIfResult}
    (hfind : findFromXml env (loopBound file) root file = .ok r) (hempty : r.documentList = []) :
    target env root file = none := by
  simp [target, hfind, hempty]

/-- **A DELETE request** deletes a document, or finds none. -/
theorem Store.executeDelete (hs : Store file T es own) {r : FindIfResult}
    (hrun : executeDeleteFromXml env (loopBound file) root file = .ok (r, file')) :
    Made env file file' ((target env root file).map deleteCall) := by
  simp only [executeDeleteFromXml, bind_ok] at hrun
  obtain ⟨r', hfind, hrun⟩ := hrun
  split at hrun
  · rename_i htype
    obtain ⟨rfl, rfl⟩ := Prod.mk.inj (Except.ok.inj hrun)
    exact Or.inl ⟨by rw [target_none hfind (documentList_of_undefined hfind htype)]; rfl, rfl⟩
  · obtain ⟨doc, hhead, hrun⟩ := bind_ok.mp hrun
    obtain ⟨file1, hdelete, hrun⟩ := bind_ok.mp hrun
    obtain ⟨rfl, rfl⟩ := Prod.mk.inj (Except.ok.inj hrun)
    rw [defined_ok] at hdelete
    obtain ⟨htarget, k, q, rfl, hk, hkq⟩ := hs.target_cases hfind hhead
    have hatt : (documentAt file k q).header.indexAttached = k := hs.attached hk
    refine Or.inr ⟨_, by rw [htarget]; rfl, ?_⟩
    rcases hkq with ⟨rfl, rfl⟩ | ⟨hk0, hq, hson⟩
    · rw [deleteCall, if_pos hatt]
      exact ⟨trivial, hdelete⟩
    · rw [deleteCall, hatt, if_neg hk0]
      exact ⟨⟨hs.live_iff.mpr hk, hk0, hs.live_iff.mpr hq, hson⟩, hdelete⟩

/-- **An UPDATE request** updates an element, or finds no document. -/
theorem Store.executeUpdate (hs : Store file T es own) {status : UpdateElementStatus}
    (hrun : executeUpdateFromXml env (loopBound file) root file = .ok (status, file')) :
    Made env file file'
      ((target env root file).bind fun doc => updateCall root doc.header.indexAttached) := by
  simp only [executeUpdateFromXml, bind_ok] at hrun
  obtain ⟨r, hfind, hrun⟩ := hrun
  split at hrun
  · rename_i htype
    obtain ⟨rfl, rfl⟩ := Prod.mk.inj (Except.ok.inj hrun)
    exact Or.inl ⟨by rw [target_none hfind (documentList_of_undefined hfind htype)]; rfl, rfl⟩
  · obtain ⟨doc, hhead, hrun⟩ := bind_ok.mp hrun
    obtain ⟨name, hname, hrun⟩ := bind_ok.mp hrun
    obtain ⟨newValue, hvalue, hupdate⟩ := bind_ok.mp hrun
    rw [defined_ok] at hname hvalue hupdate
    obtain ⟨htarget, k, q, rfl, hk, -⟩ := hs.target_cases hfind hhead
    have hatt : (documentAt file k q).header.indexAttached = k := hs.attached hk
    obtain ⟨elementNode, hnode, hname⟩ := Option.bind_eq_some_iff.mp hname
    have hcall : updateCall root k = some (.update k name newValue) := by
      rw [hnode, Option.bind_some] at hvalue
      simp [updateCall, hnode, hname, hvalue]
    refine Or.inr ⟨.update k name newValue, by rw [htarget, Option.bind_some, hatt, hcall],
      hs.live_iff.mpr hk, ?_⟩
    have hexec : (updateElement env.search.strtod file (documentAt file k q) name newValue).map
        Prod.snd = some file' := by
      rw [hupdate]
      rfl
    rw [hs.updateElement_parent hk] at hexec
    exact hexec

variable (env) in
/-- **A request makes one call or none**, whatever the tree is that arrives. -/
theorem Store.executeZgdbFromXml_calls (hs : Store file T es own) {answer : XmlNode}
    (hrun : executeZgdbFromXml env (loopBound file) root file = .ok (answer, file')) :
    Made env file file' (callOf env root file) := by
  simp only [executeZgdbFromXml] at hrun
  by_cases hadd : xmlGetProp root "type" = some (xmlChar "add")
  · rw [if_pos hadd] at hrun
    obtain ⟨⟨status, file1⟩, hexec, hret⟩ := bind_ok.mp hrun
    obtain ⟨rfl, rfl⟩ := Prod.mk.inj (Except.ok.inj hret)
    obtain ⟨doc, htarget, hmade⟩ := hs.executeAdd hexec
    simpa [callOf, htarget, hadd] using hmade
  rw [if_neg hadd] at hrun
  by_cases hdelete : xmlGetProp root "type" = some (xmlChar "delete")
  · rw [if_pos hdelete] at hrun
    obtain ⟨⟨r, file1⟩, hexec, hret⟩ := bind_ok.mp hrun
    obtain ⟨rfl, rfl⟩ := Prod.mk.inj (Except.ok.inj hret)
    have hmade := hs.executeDelete hexec
    have hne : xmlChar "delete" ≠ xmlChar "add" := by decide
    cases htarget : target env root file <;> simpa [callOf, htarget, hdelete, hne] using hmade
  rw [if_neg hdelete] at hrun
  by_cases hupdate : xmlGetProp root "type" = some (xmlChar "update")
  · rw [if_pos hupdate] at hrun
    obtain ⟨⟨status, file1⟩, hexec, hret⟩ := bind_ok.mp hrun
    obtain ⟨rfl, rfl⟩ := Prod.mk.inj (Except.ok.inj hret)
    have hmade := hs.executeUpdate hexec
    have hne : xmlChar "update" ≠ xmlChar "add" ∧ xmlChar "update" ≠ xmlChar "delete" := by decide
    simpa [callOf, hupdate, hne] using hmade
  rw [if_neg hupdate] at hrun
  -- the other requests do not write
  have hcall : callOf env root file = none := by
    cases htarget : target env root file with
    | none => simp [callOf, htarget]
    | some doc =>
      cases htype : xmlGetProp root "type" with
      | none => simp [callOf, htype]
      | some type =>
        rw [htype, Option.some.injEq] at hadd hdelete hupdate
        simp [callOf, htarget, htype, hadd, hdelete, hupdate]
  refine Or.inl ⟨hcall, ?_⟩
  split at hrun
  · obtain ⟨r, -, hrun⟩ := bind_ok.mp hrun
    obtain ⟨answer', -, hret⟩ := bind_ok.mp hrun
    exact (Prod.mk.inj (Except.ok.inj hret)).2.symm
  · split at hrun
    · obtain ⟨list, -, hret⟩ := bind_ok.mp hrun
      exact (Prod.mk.inj (Except.ok.inj hret)).2.symm
    · split at hrun
      · obtain ⟨xml, -, hret⟩ := bind_ok.mp hrun
        exact (Prod.mk.inj (Except.ok.inj hret)).2.symm
      · exact (Prod.mk.inj (Except.ok.inj hrun)).2.symm

end Calls

/-! ## 5. Sessions

One request is a step of the run or leaves the file alone.  So the run of a session is the sequence
of its calls. -/

/-- The requests of a connection, each with the time at which it is served, and their answers. -/
def serve (env : ServerEnv A) : List (UInt32 × XmlNode) → ZgdbFile A →
    Except Crash (List XmlNode × ZgdbFile A)
  | [], file => .ok ([], file)
  | (now, root) :: requests, file => do
    let (answer, file) ← executeZgdbFromXml { env with now := now } (loopBound file) root file
    let (answers, file) ← serve env requests file
    return (answer :: answers, file)

/-- The calls of a session. -/
def sessionCalls (env : ServerEnv A) : List (UInt32 × XmlNode) → ZgdbFile A → List Call
  | [], _ => []
  | (now, root) :: requests, file =>
    (callOf { env with now := now } root file).toList ++
      match executeZgdbFromXml { env with now := now } (loopBound file) root file with
      | .ok (_, file) => sessionCalls env requests file
      | .error _ => []

/-- Every call of the session is clean where it is made: in the file that the requests before it
have left.  A request that is not answered ends the session, and nothing is asked of those behind
it. -/
def CleanSession (env : ServerEnv A) : List (UInt32 × XmlNode) → ZgdbFile A → Prop
  | [], _ => True
  | (now, root) :: requests, file =>
    (∀ call, callOf { env with now := now } root file = some call → call.Clean env.calls file) ∧
      ∀ answer file', executeZgdbFromXml { env with now := now } (loopBound file) root file
        = .ok (answer, file') → CleanSession env requests file'

section Sessions

variable {env : ServerEnv A} {file file' : ZgdbFile A} {requests : List (UInt32 × XmlNode)}
  {answers : List XmlNode}

/-- One request of a session and the others. -/
theorem serve_cons {now : UInt32} {root : XmlNode}
    (hrun : serve env ((now, root) :: requests) file = .ok (answers, file')) :
    ∃ answer file1 rest, executeZgdbFromXml { env with now := now } (loopBound file) root file
        = .ok (answer, file1) ∧ serve env requests file1 = .ok (rest, file') ∧
      answers = answer :: rest := by
  obtain ⟨⟨answer, file1⟩, hexec, hrun⟩ := bind_ok.mp hrun
  obtain ⟨⟨rest, file2⟩, hrest, hret⟩ := bind_ok.mp hrun
  obtain ⟨rfl, rfl⟩ := Prod.mk.inj (Except.ok.inj hret)
  exact ⟨answer, file1, rest, hexec, hrest, rfl⟩

/-- **A session is a run of legal calls**, from any sound store. -/
theorem serve_run (hs : Sound file) (hclean : CleanSession env requests file)
    (hrun : serve env requests file = .ok (answers, file')) :
    Run (Call.exec env.calls) (fun file call => call.Legal file ∧ call.Clean env.calls file) file
        (sessionCalls env requests file) file' ∧
      Sound file' ∧ answers.length = requests.length := by
  induction requests generalizing file answers with
  | nil =>
    obtain ⟨rfl, rfl⟩ := Prod.mk.inj (Except.ok.inj hrun)
    exact ⟨.nil _, hs, rfl⟩
  | cons x requests ih =>
    obtain ⟨now, root⟩ := x
    obtain ⟨answer, file1, rest, hexec, hrest, rfl⟩ := serve_cons hrun
    obtain ⟨T, es, own, hs'⟩ := id hs
    rcases hs'.executeZgdbFromXml_calls _ hexec with ⟨hnone, rfl⟩ | ⟨call, hcall, hlegal, he⟩
    · obtain ⟨hrun', hs1, hlen⟩ := ih hs (hclean.2 _ _ hexec) hrest
      refine ⟨?_, hs1, congrArg Nat.succ hlen⟩
      simpa only [sessionCalls, hnone, hexec, Option.toList_none, List.nil_append] using hrun'
    · have hc := hclean.1 call hcall
      obtain ⟨hrun', hs1, hlen⟩ := ih (exec_sound hs hlegal hc he) (hclean.2 _ _ hexec) hrest
      refine ⟨?_, hs1, congrArg Nat.succ hlen⟩
      have hone : Run (Call.exec env.calls)
          (fun file call => call.Legal file ∧ call.Clean env.calls file) file [call] file1 :=
        .snoc (.nil _) ⟨hlegal, hc⟩ he
      simpa only [sessionCalls, hcall, hexec, Option.toList_some] using hone.append hrun'

/-- **Sessions from a new store.** Whatever requests arrive, those that are answered make a run of
legal calls, at most one each, and the store is sound behind them if the calls are clean.  A request
without a call leaves the file as it is, so the run of the calls is all that has happened to the
file. -/
theorem session_run {now : UInt32} (hclean : CleanSession env requests (init now))
    (hrun : serve env requests (init now) = .ok (answers, file)) :
    Run (Call.exec env.calls) (fun file call => call.Legal file ∧ call.Clean env.calls file)
        (init now) (sessionCalls env requests (init now)) file ∧
      Sound file ∧ answers.length = requests.length :=
  serve_run ⟨_, _, _, init_store⟩ hclean hrun

end Sessions

/-! ## 6. A sample

One request, the creation of a document with an int. -/

/-- The path `/""` of the root. -/
def pathRoot : PathTree := .last (.absoluteBase (.plain ⟨[], by decide⟩))

def stepsRoot : List Step := [⟨.absolutePath, ⟨[], by decide, by decide⟩, .documentStep, []⟩]

theorem readable_pathRoot : Readable pathRoot.ast stepsRoot := ⟨by decide, by decide, rfl⟩

/-- The elements of the request. -/
def numberA : List AstAddSchema := [⟨stringA, .int 7⟩]

/-- A request to add a document below the root. -/
def addA (sprintfF : UInt64 → CString) : XmlNode :=
  zpathToXml sprintfF ⟨.add stringA numberA, pathRoot.ast, pathRoot.ast.length⟩

section Sample

variable (env : ServerEnv A)

/-- Its path finds the root. -/
theorem addA_find : findFromXml env (loopBound (init env.now : ZgdbFile A)) (addA env.sprintfF)
    (init env.now) = .ok ⟨.documentResult, [documentAt (init env.now : ZgdbFile A) 0 0], []⟩ := by
  have hs : Store (init env.now : ZgdbFile A) rootTree _ _ := init_store
  have hpath : ∃ p, pathFromXml (addA env.sprintfF) = some p ∧ p = ⟨stepsRoot, 1⟩ :=
    ⟨_, (pathFromXml_iff pathRoot.ast_ne_nil).mpr ⟨stepsRoot, readable_pathRoot, rfl⟩, rfl⟩
  obtain ⟨p, hp, rfl⟩ := hpath
  exact findFromXml_ok.mpr ⟨_, hp, hs.docTree.search_eq env.search hs.docTree_fuel stepsRoot⟩

omit [BlockSpace A] in
/-- Its schema. -/
theorem addA_schema : ∃ schemaNode schema,
    findNodeByName [addA env.sprintfF] "schema" = some schemaNode ∧
      createSchemaFromXml env.search.strtod schemaNode = some schema ∧ schema.Complete ∧
      ∀ e ∈ schema.elements, e.NotFull := by
  have hvalid : ∀ a ∈ numberA, a.Valid := by
    simp only [numberA, List.forall_mem_singleton]
    exact ⟨by simp, by decide, by decide⟩
  obtain ⟨schema, hschema, hreceived, hcomplete⟩ := createSchema_received env.sprintfF
    env.search.strtod (List.cons_ne_nil _ _) hvalid (by simp) (by decide)
  refine ⟨_, schema, findNodeByName_schema _ _ _ _, hschema, hcomplete, ?_⟩
  intro e he
  obtain ⟨e', es, he', hes, heq⟩ := List.forall₂_cons_left_iff.mp hreceived
  rw [List.forall₂_nil_left_iff.mp hes] at heq
  rw [heq, List.mem_singleton] at he
  subst he
  intro txt htxt
  rw [he'.value] at htxt
  cases htxt

omit [BlockSpace A] in
/-- Its name. -/
theorem addA_name : ∃ documentNode,
    findNodeByName [addA env.sprintfF] "document" = some documentNode ∧
      strcpyName (xmlNodeGetContent documentNode) = some keyA := by
  refine ⟨.element "document" [] (textChildren stringA), ?_, ?_⟩
  · refine findNodeByName_below (by decide) ?_
    exact findNodeByName_self rfl _
  · have hcontent : xmlNodeGetContent (.element "document" [] (textChildren stringA)) = stringA :=
      xmlNodeGetContent_eq (by simp [XmlNode.content, textChildren, stringA])
    rw [hcontent]
    rfl

/-- Its call is clean in a new store. -/
theorem addA_call : ∃ schema, callOf env (addA env.sprintfF) (init env.now : ZgdbFile A)
      = some (.create env.now 0 keyA schema) ∧ (∀ e ∈ schema.elements, e.NotFull) ∧
    (Call.create env.now 0 keyA schema).Clean env.calls (init env.now : ZgdbFile A) ∧
    ((Call.create env.now 0 keyA schema).exec env.calls (init env.now : ZgdbFile A)).isSome := by
  have hs : Store (init env.now : ZgdbFile A) rootTree _ _ := init_store
  obtain ⟨schemaNode, schema, hnode, hschema, hcomplete, hfull⟩ := addA_schema env
  obtain ⟨documentNode, hdocument, hname⟩ := addA_name env
  have htype : xmlGetProp (addA env.sprintfF) "type" = some (xmlChar "add") :=
    type_prop env.sprintfF ⟨pathRoot.ast, pathRoot.ast.length⟩ (.add stringA numberA)
  have htarget := target_eq (addA_find env) rfl
  have hatt : (documentAt (init env.now : ZgdbFile A) 0 0).header.indexAttached = 0 :=
    hs.attached hs.root_mem
  have hcall : callOf env (addA env.sprintfF) (init env.now : ZgdbFile A)
      = some (.create env.now 0 keyA schema) := by
    simp [callOf, addCall, htarget, htype, hatt, hdocument, hname, hnode, hschema, hcomplete]
  obtain ⟨hclean, file, -, -, hrun, -⟩ := create_first env.calls env.now keyA
    (built_createSchemaFromXml hschema) hcomplete
  refine ⟨schema, hcall, hfull, hclean, ?_⟩
  rw [Call.exec, hrun]
  rfl

/-- A new store serves it. -/
theorem addA_served : ∃ answer file, executeZgdbFromXml env (loopBound (init env.now : ZgdbFile A))
    (addA env.sprintfF) (init env.now) = .ok (answer, file) := by
  have hs : Store (init env.now : ZgdbFile A) rootTree _ _ := init_store
  obtain ⟨schemaNode, schema, hnode, hschema, hcomplete, -⟩ := addA_schema env
  obtain ⟨documentNode, hdocument, hname⟩ := addA_name env
  obtain ⟨-, file, -, -, hcreate, -⟩ := create_first env.calls env.now keyA
    (built_createSchemaFromXml hschema) hcomplete
  refine ⟨createAnswer .createOk, file, ?_⟩
  have hexec : executeAddFromXml env (loopBound (init env.now : ZgdbFile A)) (addA env.sprintfF)
      (init env.now) = .ok (.createOk, file) := by
    simp only [executeAddFromXml, bind_ok, defined_ok]
    exact ⟨_, hdocument, _, hnode, _, hschema, _, addA_find env, _, rfl, _, hname, hcreate⟩
  refine (execute_add env _ env.sprintfF _ _ stringA numberA).trans ?_
  rw [show executeAddFromXml env _ (zpathToXml env.sprintfF
    ⟨.add stringA numberA, pathRoot.ast, pathRoot.ast.length⟩) _ = _ from hexec]
  rfl

end Sample

/-- A session of one request. -/
theorem session_run_addA : ∃ (answers : List XmlNode) (file : ZgdbFile RecordPos),
    serve recordServer [(0, addA recordServer.sprintfF)] (init 0) = .ok (answers, file) ∧
      Sound file ∧ answers.length = 1 := by
  obtain ⟨answer, file, hexec⟩ := addA_served recordServer
  have hrun : serve recordServer [(0, addA recordServer.sprintfF)] (init 0)
      = .ok ([answer], file) := by
    have hexec' : executeZgdbFromXml { recordServer with now := 0 }
        (loopBound (init 0 : ZgdbFile RecordPos)) (addA recordServer.sprintfF) (init 0)
        = .ok (answer, file) := hexec
    rw [serve, hexec']
    rfl
  have hclean : CleanSession recordServer [(0, addA recordServer.sprintfF)] (init 0) := by
    refine ⟨?_, fun _ _ _ => trivial⟩
    intro call hcall
    obtain ⟨schema, hcall', -, hc, -⟩ := addA_call recordServer
    obtain rfl := Option.some.inj (hcall'.symm.trans hcall)
    exact hc
  exact ⟨[answer], file, hrun, (session_run hclean hrun).2⟩

end Zgdb
