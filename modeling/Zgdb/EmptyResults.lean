/-
# Requests and empty results

Whether a request survives a search that finds no document depends on the handler: FIND answers it,
DELETE and UPDATE answer it unless elements were found in its place, the others take the head of an
empty list (`withstood_iff`).  On a store whose links form a tree what the search finds is known,
and with it which requests are withstood (`request_withstood`).
-/
import Zgdb.Parsing
import Zgdb.RequestPath
import Zgdb.Search

namespace Zgdb

open Zgdb.Lib AddrSpace

/-! ## 1. Outcomes

A handler that takes the head of an empty list fails at this place, whatever would have come behind
it. -/

section Outcomes

variable {α β : Type}

/-- No head of an empty list is taken. -/
def Headed (x : Except Crash α) : Prop := x ≠ .error .emptyHead

/-- There is no result. -/
def Fails (x : Except Crash α) : Prop := ∃ c, x = .error c

theorem headed_ok (a : α) : Headed (.ok a : Except Crash α) := fun h => by cases h

theorem headed_defined (x : Option α) : Headed (defined x) := by
  cases x <;> exact fun h => by cases h

theorem Headed.bind {x : Except Crash α} {f : α → Except Crash β} (hx : Headed x)
    (hf : ∀ a, x = .ok a → Headed (f a)) : Headed (x >>= f) := by
  cases x with
  | error c => exact fun h => hx (by cases h; rfl)
  | ok a => exact hf a rfl

theorem Fails.bind {x : Except Crash α} (h : Fails x) (f : α → Except Crash β) :
    Fails (x >>= f) := by
  obtain ⟨c, rfl⟩ := h
  exact ⟨c, rfl⟩

theorem Fails.after {x : Except Crash α} {f : α → Except Crash β}
    (h : ∀ a, x = .ok a → Fails (f a)) : Fails (x >>= f) := by
  cases x with
  | error c => exact ⟨c, rfl⟩
  | ok a => exact h a rfl

theorem Fails.not_ok {x : Except Crash α} (h : Fails x) (a : α) : x ≠ .ok a := by
  obtain ⟨c, rfl⟩ := h
  exact fun h => by cases h

theorem ok_bind (a : α) (f : α → Except Crash β) : (Except.ok a >>= f) = f a := rfl

theorem fails_head : Fails (headDocument []) := ⟨_, rfl⟩

theorem headed_head {list : List Document} (h : list ≠ []) : Headed (headDocument list) := by
  cases list with
  | nil => exact absurd rfl h
  | cons head list => exact headed_ok head

end Outcomes

/-! ## 2. Printed elements

Printing has failures of its own: a text of at most 49 characters is expected for a number, and a
double can be longer. -/

/-- Every double that was found is printed in less than 50 characters. -/
def Printable (sprintfF : UInt64 → CString) (list : List (Document × ElementEntry)) : Prop :=
  ∀ found ∈ list, ∀ v, found.2.value = some (.double v) → (sprintfF v).strlen < 50

theorem length_decimal {n k : Nat} (h : n < 10 ^ (k + 1)) : (decimal n).length ≤ k + 1 := by
  induction k generalizing n with
  | zero =>
    rw [decimal, if_pos (by simpa using h)]
    simp
  | succ k ih =>
    rw [decimal]
    split
    · simp
    · have hlt : n / 10 < 10 ^ (k + 1) := by
        rw [Nat.div_lt_iff_lt_mul (by decide), ← Nat.pow_succ]
        exact h
      have hrec := ih hlt
      simp only [List.length_append, List.length_singleton]
      omega

theorem length_sprintfD (v : Int32) : (sprintfD v).strlen < 50 := by
  have hv : v.toInt.natAbs < 10 ^ (9 + 1) := by
    have h1 := v.toInt_lt
    have h2 := v.le_toInt
    omega
  have hlen := length_decimal hv
  unfold CString.strlen sprintfD
  simp only
  split
  · rw [List.length_cons]
    omega
  · omega

theorem length_sprintfZu_byte (v : UInt8) : (sprintfZu v.toNat).strlen < 50 := by
  have hv : v.toNat < 10 ^ (2 + 1) := by
    have := v.toNat_lt
    omega
  have hlen := length_decimal hv
  exact show (decimal v.toNat).length < 50 by omega

/-- An element is printed unless it is a long double. -/
theorem elementChild_ok {sprintfF : UInt64 → CString} {found : Document × ElementEntry} :
    (∃ child, elementChild sprintfF found = .ok child) ↔
      ∀ v, found.2.value = some (.double v) → (sprintfF v).strlen < 50 := by
  unfold elementChild
  cases hvalue : found.2.value with
  | none => exact ⟨fun _ v h => (by cases h), fun _ => ⟨_, rfl⟩⟩
  | some value =>
    cases value with
    | int v => simp [elementProps, sizeChar, length_sprintfD]
    | text t => exact ⟨fun _ v h => (by cases h), fun _ => ⟨_, rfl⟩⟩
    | boolean v => simp [elementProps, sizeChar, length_sprintfZu_byte]
    | double v =>
      by_cases h : (sprintfF v).strlen < 50
      · simp [elementProps, sizeChar, h]
      · simp [elementProps, sizeChar, h]

theorem mapM_ok {α β : Type} {f : α → Except Crash β} {list : List α} :
    (∃ out, list.mapM f = .ok out) ↔ ∀ a ∈ list, ∃ b, f a = .ok b := by
  induction list with
  | nil => exact ⟨fun _ a ha => absurd ha List.not_mem_nil, fun _ => ⟨[], rfl⟩⟩
  | cons a list ih =>
    rw [List.mapM_cons, List.forall_mem_cons, ← ih]
    constructor
    · rintro ⟨out, hout⟩
      cases ha : f a with
      | error c => simp [ha] at hout; cases hout
      | ok b =>
        cases hl : list.mapM f with
        | error c => simp [ha, hl] at hout; cases hout
        | ok rest => exact ⟨⟨b, rfl⟩, rest, rfl⟩
    · rintro ⟨⟨b, hb⟩, rest, hrest⟩
      exact ⟨b :: rest, by rw [hb, hrest]; rfl⟩

/-- **A result is printed** unless a long double is in it. -/
theorem findAnswer_ok {sprintfF : UInt64 → CString} {r : FindIfResult} :
    (∃ answer, findAnswer sprintfF r = .ok answer) ↔
      (r.type = .elementResult → Printable sprintfF r.elementList) := by
  unfold findAnswer
  cases r.type with
  | undefinedResult => exact ⟨fun _ h => (by cases h), fun _ => ⟨_, rfl⟩⟩
  | documentResult => exact ⟨fun _ h => (by cases h), fun _ => ⟨_, rfl⟩⟩
  | elementResult =>
    have hmap : (∃ out, r.elementList.mapM (elementChild sprintfF) = .ok out) ↔ _ := mapM_ok
    simp only [elementChild_ok] at hmap
    simp only [forall_const]
    rw [Printable, ← hmap]
    cases r.elementList.mapM (elementChild sprintfF) with
    | error c => exact ⟨fun ⟨a, ha⟩ => (by cases ha), fun ⟨a, ha⟩ => (by cases ha)⟩
    | ok children => exact ⟨fun _ => ⟨children, rfl⟩, fun _ => ⟨_, rfl⟩⟩

theorem headed_sizeChar (s : CString) : Headed (sizeChar s) := by
  unfold sizeChar
  split <;> exact fun h => by cases h

theorem headed_elementChild (sprintfF : UInt64 → CString) (found : Document × ElementEntry) :
    Headed (elementChild sprintfF found) := by
  refine .bind ?_ fun _ _ => headed_ok _
  cases found.2.value with
  | none => exact headed_ok _
  | some value =>
    cases value with
    | int v => exact .bind (headed_sizeChar _) fun _ _ => headed_ok _
    | text t => exact headed_ok _
    | boolean v => exact .bind (headed_sizeChar _) fun _ _ => headed_ok _
    | double v => exact .bind (headed_sizeChar _) fun _ _ => headed_ok _

theorem headed_mapM {α β : Type} {f : α → Except Crash β} (hf : ∀ a, Headed (f a))
    (list : List α) : Headed (list.mapM f) := by
  induction list with
  | nil => exact headed_ok []
  | cons a list ih =>
    rw [List.mapM_cons]
    exact .bind (hf a) fun _ _ => .bind ih fun _ _ => headed_ok _

theorem headed_findAnswer (sprintfF : UInt64 → CString) (r : FindIfResult) :
    Headed (findAnswer sprintfF r) := by
  unfold findAnswer
  cases r.type with
  | undefinedResult => exact headed_ok _
  | documentResult => exact headed_ok _
  | elementResult =>
    exact .bind (headed_mapM (headed_elementChild sprintfF) _) fun _ _ => headed_ok _

/-! ## 3. The handlers on the result of the search

Some handlers look at the type of the result before they take the first document, the others do not.
-/

variable {A : Type} [BlockSpace A]

section Handlers

variable (env : ServerEnv A) (fuel : Nat) (sprintfF : UInt64 → CString) (path : AstPath)
  (file : ZgdbFile A)

theorem type_prop (request : AstRequest) :
    xmlGetProp (zpathToXml sprintfF ⟨request, path⟩) "type"
      = some (zpathRequestToXml sprintfF request).1 := by
  simp [zpathToXml, xmlGetProp]

theorem execute_add (docName : CString) (first : List AstAddSchema) :
    executeZgdbFromXml env fuel (zpathToXml sprintfF ⟨.add docName first, path⟩) file
      = (do
        let (status, file) ←
          executeAddFromXml env fuel (zpathToXml sprintfF ⟨.add docName first, path⟩) file
        return (createAnswer status, file)) := by
  rw [executeZgdbFromXml]
  simp only [type_prop, zpathRequestToXml]
  rw [if_pos trivial]

theorem execute_delete :
    executeZgdbFromXml env fuel (zpathToXml sprintfF ⟨.delete, path⟩) file
      = (do
        let (ifResult, file) ←
          executeDeleteFromXml env fuel (zpathToXml sprintfF ⟨.delete, path⟩) file
        return (deleteAnswer ifResult.type, file)) := by
  rw [executeZgdbFromXml]
  simp only [type_prop, zpathRequestToXml]
  rw [if_neg (by decide), if_pos trivial]

theorem execute_update (elName value : CString) :
    executeZgdbFromXml env fuel (zpathToXml sprintfF ⟨.update elName value, path⟩) file
      = (do
        let (status, file) ←
          executeUpdateFromXml env fuel (zpathToXml sprintfF ⟨.update elName value, path⟩) file
        return (updateAnswer status, file)) := by
  rw [executeZgdbFromXml]
  simp only [type_prop, zpathRequestToXml]
  rw [if_neg (by decide), if_neg (by decide), if_pos trivial]

theorem execute_find :
    executeZgdbFromXml env fuel (zpathToXml sprintfF ⟨.find, path⟩) file
      = (do
        let ifResult ← executeFindFromXml env fuel (zpathToXml sprintfF ⟨.find, path⟩) file
        let answer ← findAnswer env.sprintfF ifResult
        return (answer, file)) := by
  rw [executeZgdbFromXml]
  simp only [type_prop, zpathRequestToXml]
  rw [if_neg (by decide), if_neg (by decide), if_neg (by decide), if_pos trivial]

theorem execute_join (pred : List AstPredicate) :
    executeZgdbFromXml env fuel (zpathToXml sprintfF ⟨.join pred, path⟩) file
      = (do
        let list ← executeJoinFromXml env fuel (zpathToXml sprintfF ⟨.join pred, path⟩) file
        return (answer "joinStatus" (documentChildren list), file)) := by
  rw [executeZgdbFromXml]
  simp only [type_prop, zpathRequestToXml]
  rw [if_neg (by decide), if_neg (by decide), if_neg (by decide), if_neg (by decide),
    if_pos trivial]

theorem execute_parent :
    executeZgdbFromXml env fuel (zpathToXml sprintfF ⟨.parent, path⟩) file
      = (do
        let xml ← executeParentFromXml env fuel (zpathToXml sprintfF ⟨.parent, path⟩) file
        return (answer "parentStatus" (documentChildren [xml]), file)) := by
  rw [executeZgdbFromXml]
  simp only [type_prop, zpathRequestToXml]
  rw [if_neg (by decide), if_neg (by decide), if_neg (by decide), if_neg (by decide),
    if_neg (by decide), if_pos trivial]

end Handlers

/-- What a request asks of the result of its search, if it is to be withstood.  The handlers that
take the first document need one; DELETE and UPDATE also answer when nothing was found; FIND prints
whatever there is. -/
def Served (sprintfF : UInt64 → CString) : AstRequest → FindIfResult → Prop
  | .find, r => r.type = .elementResult → Printable sprintfF r.elementList
  | .delete, r => r.type = .undefinedResult ∨ r.documentList ≠ []
  | .update _ _, r => r.type = .undefinedResult ∨ r.documentList ≠ []
  | .add _ _, r => r.documentList ≠ []
  | .join _, r => r.documentList ≠ []
  | .parent, r => r.documentList ≠ []

section Requests

variable {env : ServerEnv A} {fuel : Nat} {sprintfF : UInt64 → CString} {request : AstRequest}
  {path : AstPath} {file : ZgdbFile A}

/-- **A search without a result** ends the request. -/
theorem fails_of_search
    (h : Fails (findFromXml env fuel (zpathToXml sprintfF ⟨request, path⟩) file)) :
    Fails (executeZgdbFromXml env fuel (zpathToXml sprintfF ⟨request, path⟩) file) := by
  cases request with
  | add docName first =>
    rw [execute_add]
    exact .bind (.after fun _ _ => .after fun _ _ => .after fun _ _ => h.bind _) _
  | delete =>
    rw [execute_delete]
    exact (h.bind _).bind _
  | update elName value =>
    rw [execute_update]
    exact (h.bind _).bind _
  | find =>
    rw [execute_find]
    exact h.bind _
  | join pred =>
    rw [execute_join]
    exact (h.bind _).bind _
  | parent =>
    rw [execute_parent]
    exact (h.bind _).bind _

/-- **With a document** no head of an empty list is taken. -/
theorem headed_of_document {r : FindIfResult}
    (h : findFromXml env fuel (zpathToXml sprintfF ⟨request, path⟩) file = .ok r)
    (hne : r.documentList ≠ []) :
    Headed (executeZgdbFromXml env fuel (zpathToXml sprintfF ⟨request, path⟩) file) := by
  have hsearch : Headed (findFromXml env fuel (zpathToXml sprintfF ⟨request, path⟩) file) := by
    rw [h]
    exact headed_ok r
  have hhead : ∀ r', findFromXml env fuel (zpathToXml sprintfF ⟨request, path⟩) file = .ok r' →
      Headed (headDocument r'.documentList) := by
    intro r' h'
    obtain rfl := Except.ok.inj (h.symm.trans h')
    exact headed_head hne
  cases request with
  | add docName first =>
    rw [execute_add]
    refine .bind ?_ fun _ _ => headed_ok _
    refine .bind (headed_defined _) fun _ _ => .bind (headed_defined _) fun _ _ =>
      .bind (headed_defined _) fun _ _ => .bind hsearch fun r' h' => .bind (hhead r' h') ?_
    intro _ _
    exact .bind (headed_defined _) fun _ _ => headed_defined _
  | delete =>
    rw [execute_delete]
    refine .bind (.bind hsearch ?_) fun _ _ => headed_ok _
    intro r' h'
    split
    · exact headed_ok _
    · exact .bind (hhead r' h') fun _ _ => .bind (headed_defined _) fun _ _ => headed_ok _
  | update elName value =>
    rw [execute_update]
    refine .bind (.bind hsearch ?_) fun _ _ => headed_ok _
    intro r' h'
    simp only
    split
    · exact headed_ok _
    · exact .bind (hhead r' h') fun _ _ => .bind (headed_defined _) fun _ _ =>
        .bind (headed_defined _) fun _ _ => headed_defined _
  | find =>
    rw [execute_find]
    exact .bind hsearch fun r' h' => .bind (headed_findAnswer _ _) fun _ _ => headed_ok _
  | join pred =>
    rw [execute_join]
    refine .bind (.bind hsearch fun r' h' => .bind (headed_defined _) fun _ _ =>
      .bind (headed_defined _) ?_) fun _ _ => headed_ok _
    intro _ _
    split
    · exact .bind (headed_defined _) fun _ _ => .bind (hhead r' h') fun _ _ => headed_defined _
    · exact .bind (hhead r' h') fun _ _ => headed_defined _
  | parent =>
    rw [execute_parent]
    exact .bind (.bind hsearch fun r' h' => .bind (hhead r' h') fun _ _ => headed_ok _)
      fun _ _ => headed_ok _

/-- **Without a document** the request is answered exactly when it is served. -/
theorem answered_iff {r : FindIfResult}
    (h : findFromXml env fuel (zpathToXml sprintfF ⟨request, path⟩) file = .ok r)
    (hnil : r.documentList = []) :
    (∃ answer, executeZgdbFromXml env fuel (zpathToXml sprintfF ⟨request, path⟩) file
      = .ok (answer, file)) ↔ Served env.sprintfF request r := by
  have hhead : ∀ r', findFromXml env fuel (zpathToXml sprintfF ⟨request, path⟩) file = .ok r' →
      Fails (headDocument r'.documentList) := by
    intro r' h'
    obtain rfl := Except.ok.inj (h.symm.trans h')
    rw [hnil]
    exact fails_head
  have hnone : ∀ {x : Except Crash (XmlNode × ZgdbFile A)}, Fails x →
      ((∃ answer, x = .ok (answer, file)) ↔ r.documentList ≠ []) := by
    intro x hx
    simp only [hnil, ne_eq, not_true_eq_false, iff_false, not_exists]
    exact fun _ => hx.not_ok _
  cases request with
  | add docName first =>
    rw [execute_add]
    exact hnone (.bind (.after fun _ _ => .after fun _ _ => .after fun _ _ =>
      .after fun r' h' => (hhead r' h').bind _) _)
  | delete =>
    rw [execute_delete]
    by_cases htype : r.type = .undefinedResult
    · refine iff_of_true ⟨deleteAnswer r.type, ?_⟩ (Or.inl htype)
      simp only [executeDeleteFromXml, h, ok_bind, if_pos htype]
      rfl
    · simp only [Served, htype, false_or]
      refine hnone (.bind (.after ?_) _)
      intro r' h'
      obtain rfl := Except.ok.inj (h.symm.trans h')
      rw [if_neg htype]
      exact (hhead _ h).bind _
  | update elName value =>
    rw [execute_update]
    by_cases htype : r.type = .undefinedResult
    · refine iff_of_true ⟨updateAnswer .documentNotFound, ?_⟩ (Or.inl htype)
      simp only [executeUpdateFromXml, h, ok_bind, if_pos htype]
      rfl
    · simp only [Served, htype, false_or]
      refine hnone (.bind (.after ?_) _)
      intro r' h'
      obtain rfl := Except.ok.inj (h.symm.trans h')
      simp only [if_neg htype]
      exact (hhead _ h).bind _
  | find =>
    rw [execute_find, executeFindFromXml, h, ok_bind, Served, ← findAnswer_ok]
    constructor
    · rintro ⟨a, ha⟩
      cases hf : findAnswer env.sprintfF r with
      | error c => rw [hf] at ha; cases ha
      | ok a' => exact ⟨a', rfl⟩
    · rintro ⟨a, ha⟩
      exact ⟨a, by rw [ha]; rfl⟩
  | join pred =>
    rw [execute_join]
    refine hnone (.bind (.after fun r' h' => .after fun _ _ => .after ?_) _)
    intro _ _
    split
    · exact .after fun _ _ => (hhead r' h').bind _
    · exact (hhead r' h').bind _
  | parent =>
    rw [execute_parent]
    exact hnone (.bind (.after fun r' h' => (hhead r' h').bind _) _)

/-- Of a result with elements `findIfFromRoot` destroys the documents. -/
theorem documentList_of_elements {root : XmlNode} {r : FindIfResult}
    (h : findFromXml env fuel root file = .ok r) (htype : r.type = .elementResult) :
    r.documentList = [] := by
  unfold findFromXml at h
  cases hp : defined (pathFromXml root) with
  | error c => rw [hp] at h; cases h
  | ok p =>
    rw [hp, ok_bind] at h
    cases hr : findIfFromRoot env.search fuel file p with
    | none => rw [hr] at h; cases h
    | some r' =>
      rw [hr] at h
      obtain rfl : r' = r := Except.ok.inj h
      obtain ⟨r0, -, rfl⟩ := Option.map_eq_some_iff.mp hr
      revert htype
      unfold FindIfResult.destroyLists
      cases r0.type with
      | undefinedResult => exact fun htype => (by cases htype)
      | documentResult => exact fun htype => (by cases htype)
      | elementResult => exact fun _ => rfl

variable (env fuel file) in
/-- The request takes no head of an empty list, and without a document it is answered and changes
nothing.  This is what a client expects of a path that finds nothing. -/
structure Withstood (root : XmlNode) : Prop where
  headed : Headed (executeZgdbFromXml env fuel root file)
  answered : (¬ ∃ r, findFromXml env fuel root file = .ok r ∧ r.documentList ≠ []) →
    ∃ answer, executeZgdbFromXml env fuel root file = .ok (answer, file)

/-- **A request is withstood** exactly when its search has a result that serves it. -/
theorem withstood_iff :
    Withstood env fuel file (zpathToXml sprintfF ⟨request, path⟩) ↔
      ∃ r, findFromXml env fuel (zpathToXml sprintfF ⟨request, path⟩) file = .ok r ∧
        Served env.sprintfF request r := by
  constructor
  · rintro ⟨-, hanswered⟩
    cases hr : findFromXml env fuel (zpathToXml sprintfF ⟨request, path⟩) file with
    | error c =>
      obtain ⟨answer, ha⟩ := hanswered fun ⟨r, h, _⟩ => by rw [hr] at h; cases h
      exact absurd ha ((fails_of_search ⟨c, hr⟩).not_ok _)
    | ok r =>
      refine ⟨r, rfl, ?_⟩
      by_cases hnil : r.documentList = []
      · refine (answered_iff hr hnil).mp (hanswered ?_)
        rintro ⟨r', h', hne⟩
        rw [hr] at h'
        obtain rfl := Except.ok.inj h'
        exact hne hnil
      · cases request with
        | find => exact fun htype => absurd (documentList_of_elements hr htype) hnil
        | delete => exact Or.inr hnil
        | update elName value => exact Or.inr hnil
        | add docName first => exact hnil
        | join pred => exact hnil
        | parent => exact hnil
  · rintro ⟨r, hr, hserved⟩
    by_cases hnil : r.documentList = []
    · obtain ⟨answer, ha⟩ := (answered_iff hr hnil).mpr hserved
      exact ⟨ha ▸ headed_ok _, fun _ => ⟨answer, ha⟩⟩
    · exact ⟨headed_of_document hr hnil, fun hnone => absurd ⟨r, hr, hnil⟩ hnone⟩

end Requests

/-! ## 4. What the path of a request finds

On a tree it is known whether the path finds a document and whether it finds an element. -/

section Tree

variable (env : SearchEnv) (file : ZgdbFile A) (T : Forest Nat) (ss : List Step)

/-- The path finds a document: the root, a son of the root, or the end of a trail. -/
def FindsDocument : Prop :=
  if isBarePath ⟨ss, ss.length⟩ .absolutePath then True
  else if isBarePath ⟨ss, ss.length⟩ .relativePath then ∃ k, SonOf file 0 k
  else ∃ k, Trail (Scans file T) (Matched env file T) 0 ss k

/-- The path finds the element: it ends in an element step that gets to its document. -/
def FindsElement (found : Document × ElementEntry) : Prop :=
  ∃ ss' s a k, ss = ss' ++ [s] ∧ s.sType = .elementStep ∧
    Trail (Scans file T) (Matched env file T) 0 ss' a ∧ Scans file T s.pType a k ∧
      FoundAs file T found.1 k ∧ found.2 ∈ elementEntries file found.1 true ∧
        found.2.key = s.stepName

/-- A result that holds what the path finds. -/
structure Finds (r : FindIfResult) : Prop where
  documents : r.documentList ≠ [] ↔ FindsDocument env file T ss
  elements : ∀ found, found ∈ r.elementList ↔ FindsElement env file T ss found
  elementType : r.elementList ≠ [] → r.type = .elementResult
  undefinedType : r.type = .undefinedResult ↔ r.documentList = [] ∧ r.elementList = [] ∧
    ¬ isBarePath ⟨ss, ss.length⟩ .relativePath

end Tree

section Search

variable {env : SearchEnv} {file : ZgdbFile A} {T : Forest Nat} {fuel : Nat} {ss : List Step}

theorem isBarePath_element {pType : PathType} {ss' : List Step} {s : Step}
    (hs : s.sType = .elementStep) (hbare : isBarePath ⟨ss' ++ [s], (ss' ++ [s]).length⟩ pType) :
    False := by
  obtain ⟨hsize, s', hs', hdoc, -⟩ := hbare
  obtain rfl : ss' = [] := List.length_eq_zero_iff.mp (by simpa using hsize)
  obtain rfl := List.mem_singleton.mp hs'
  rw [hs] at hdoc
  cases hdoc

/-- A path that is answered at once finds no element. -/
theorem FindsElement.not_bare {pType : PathType} {found : Document × ElementEntry}
    (h : FindsElement env file T ss found) : ¬ isBarePath ⟨ss, ss.length⟩ pType := by
  obtain ⟨ss', s, a, k, rfl, hs, -⟩ := h
  exact isBarePath_element hs

section LastStep

variable (env : SearchEnv) (file : ZgdbFile A)

/-- The type of the result of a last step. -/
theorem stepResult_type (s : Step) (docs : List Document) :
    ((stepResult env file s true docs .empty).elementList ≠ [] →
        (stepResult env file s true docs .empty).type = .elementResult) ∧
      ((stepResult env file s true docs .empty).type = .undefinedResult ↔
        (stepResult env file s true docs .empty).documentList = [] ∧
          (stepResult env file s true docs .empty).elementList = []) := by
  unfold stepResult
  rw [if_pos rfl]
  cases s.sType with
  | documentStep =>
    cases docs.filter (satisfies env file s) <;>
      simp [FindIfResult.addDocuments, FindIfResult.empty]
  | elementStep =>
    cases docs.flatMap (elementsNamed file s) <;>
      simp [FindIfResult.addElements, FindIfResult.empty]

theorem stepResult_noElements {s : Step} (docs : List Document) (hs : s.sType = .documentStep) :
    (stepResult env file s true docs .empty).elementList = [] := by
  simp only [stepResult, if_true, hs]
  cases docs.filter (satisfies env file s) <;> rfl

theorem stepResult_noDocuments {s : Step} (docs : List Document) (hs : s.sType = .elementStep) :
    (stepResult env file s true docs .empty).documentList = [] := by
  simp only [stepResult, if_true, hs]
  cases docs.flatMap (elementsNamed file s) <;> rfl

end LastStep

variable (env) in
/-- The two paths that are answered at once. -/
theorem search_bare (h : DocTree file T) (hfuel : T.nodes.length < fuel) {pType : PathType}
    (hbare : isBarePath ⟨ss, ss.length⟩ pType) :
    ∃ r, findIfFromRoot env fuel file ⟨ss, ss.length⟩ = some r ∧ Finds env file T ss r := by
  have hnone : ∀ {found}, ¬ FindsElement env file T ss found := fun hf => hf.not_bare hbare
  simp only [findIfFromRoot, findIf0, nextDoc_root h]
  by_cases habs : isBarePath ⟨ss, ss.length⟩ .absolutePath
  · rw [if_pos habs]
    refine ⟨_, rfl, ?_, ?_, ?_, ?_⟩
    · simp [FindIfResult.destroyLists, FindsDocument, habs]
    · intro found
      simp [FindIfResult.destroyLists, hnone]
    · simp [FindIfResult.destroyLists]
    · simp [FindIfResult.destroyLists]
  · have hrel : isBarePath ⟨ss, ss.length⟩ .relativePath := by
      cases pType with
      | absolutePath => exact absurd hbare habs
      | relativePath => exact hbare
    rw [if_neg habs, if_pos hrel, join_root env h hfuel]
    refine ⟨_, rfl, ?_, ?_, ?_, ?_⟩
    · simp only [FindIfResult.destroyLists, FindsDocument, if_neg habs, if_pos hrel,
        h.sonOf_iff h.root_mem, ne_eq, List.map_eq_nil_iff]
      constructor
      · exact List.exists_mem_of_ne_nil _
      · rintro ⟨k, hk⟩
        exact List.ne_nil_of_mem hk
    · intro found
      simp [FindIfResult.destroyLists, hnone]
    · simp [FindIfResult.destroyLists]
    · simp [FindIfResult.destroyLists, hrel]

variable (env) in
/-- **What a path without predicates finds.** -/
theorem search_finds (h : DocTree file T) (hfuel : T.nodes.length < fuel) (hne : ss ≠ [])
    (hpred : ∀ s ∈ ss, s.pred = []) :
    ∃ r, findIfFromRoot env fuel file ⟨ss, ss.length⟩ = some r ∧ Finds env file T ss r := by
  by_cases hbare : ∃ pType, isBarePath ⟨ss, ss.length⟩ pType
  · obtain ⟨pType, hbare⟩ := hbare
    exact search_bare env h hfuel hbare
  · rw [not_exists] at hbare
    obtain ⟨ss, s, rfl⟩ : ∃ ss' s', ss = ss' ++ [s'] :=
      ⟨ss.dropLast, ss.getLast hne, (List.dropLast_append_getLast hne).symm⟩
    have hvalue : ∀ s' ∈ ss ++ [s], s'.ByValue := by
      intro s' hs' _ q hq
      rw [hpred s' hs'] at hq
      cases hq
    simp only [List.length_append, List.length_singleton] at hbare ⊢
    obtain ⟨docs, hrun, -⟩ := findIfFromRoot_spec env h hfuel hvalue hbare
    refine ⟨_, hrun, ?_⟩
    have hfd : FindsDocument env file T (ss ++ [s]) ↔
        ∃ k, Trail (Scans file T) (Matched env file T) 0 (ss ++ [s]) k := by
      simp [FindsDocument, hbare]
    obtain ⟨helements, hundefined⟩ := stepResult_type env file s docs
    refine ⟨?_, ?_, helements, ?_⟩
    · rw [hfd]
      cases hs : s.sType with
      | documentStep =>
        obtain ⟨r, hr, hdocs⟩ := search_documents env h hfuel hvalue hbare hs
        obtain rfl := Option.some.inj (hrun.symm.trans hr)
        constructor
        · intro hsome
          obtain ⟨doc, hdoc⟩ := List.exists_mem_of_ne_nil _ hsome
          obtain ⟨k, -, hk⟩ := (hdocs doc).mp hdoc
          exact ⟨k, hk⟩
        · rintro ⟨k, hk⟩
          obtain ⟨-, -, -, -, doc, hfound, -⟩ := Trail.append.mp hk
          exact List.ne_nil_of_mem ((hdocs doc).mpr ⟨k, hfound, hk⟩)
      | elementStep =>
        simp only [stepResult_noDocuments env file docs hs, ne_eq, not_true_eq_false, false_iff]
        rintro ⟨k, hk⟩
        obtain ⟨-, -, -, hdoc, -⟩ := Trail.append.mp hk
        rw [hs] at hdoc
        cases hdoc
    · intro found
      cases hs : s.sType with
      | documentStep =>
        simp only [stepResult_noElements env file docs hs, List.not_mem_nil, false_iff]
        rintro ⟨ss', s', a, k, heq, hs', -⟩
        obtain ⟨-, hone⟩ := List.append_inj' heq rfl
        obtain rfl := List.singleton_inj.mp hone
        rw [hs] at hs'
        cases hs'
      | elementStep =>
        obtain ⟨r, hr, hels⟩ := search_elements env h hfuel hvalue hs
        obtain rfl := Option.some.inj (hrun.symm.trans hr)
        rw [show found = (found.1, found.2) from rfl, hels]
        constructor
        · rintro ⟨a, k, htrail, hk⟩
          exact ⟨ss, s, a, k, rfl, hs, htrail, hk⟩
        · rintro ⟨ss', s', a, k, heq, -, htrail, hk⟩
          obtain ⟨hss, hone⟩ := List.append_inj' heq rfl
          obtain rfl := List.singleton_inj.mp hone
          subst hss
          exact ⟨a, k, htrail, hk⟩
    · rw [hundefined]
      simp [hbare]

end Search

/-! ## 5. Requests that are withstood

Both parts together: the condition on the store, for each kind of request. -/

section Tree

/-- What has to hold of the store for a request with the steps `ss` to be withstood.  It is stated
with what the path finds in the tree, and without the search. -/
def Withstands (sprintfF : UInt64 → CString) (env : SearchEnv) (file : ZgdbFile A) (T : Forest Nat)
    (ss : List Step) : AstRequest → Prop
  | .find => ∀ found, FindsElement env file T ss found →
      ∀ v, found.2.value = some (.double v) → (sprintfF v).strlen < 50
  | .delete | .update _ _ => FindsDocument env file T ss ∨
      ((∀ found, ¬ FindsElement env file T ss found) ∧
        ¬ isBarePath ⟨ss, ss.length⟩ .relativePath)
  | .add _ _ | .join _ | .parent => FindsDocument env file T ss

variable {env : SearchEnv} {file : ZgdbFile A} {T : Forest Nat} {ss : List Step}

theorem served_iff {r : FindIfResult} (h : Finds env file T ss r) (sprintfF : UInt64 → CString)
    (request : AstRequest) :
    Served sprintfF request r ↔ Withstands sprintfF env file T ss request := by
  have hnone : r.elementList = [] ↔ ∀ found, ¬ FindsElement env file T ss found := by
    simp only [List.eq_nil_iff_forall_not_mem, h.elements]
  have hdoc : (r.type = .undefinedResult ∨ r.documentList ≠ []) ↔ FindsDocument env file T ss ∨
      ((∀ found, ¬ FindsElement env file T ss found) ∧
        ¬ isBarePath ⟨ss, ss.length⟩ .relativePath) := by
    rw [h.undefinedType, ← h.documents, ← hnone]
    tauto
  cases request with
  | find =>
    simp only [Served, Withstands, Printable, ← h.elements]
    constructor
    · intro hserved found hfound
      exact hserved (h.elementType (List.ne_nil_of_mem hfound)) found hfound
    · exact fun hall _ => hall
  | delete => exact hdoc
  | update elName value => exact hdoc
  | add docName first => exact h.documents
  | join pred => exact h.documents
  | parent => exact h.documents

end Tree

theorem PathTree.ast_ne_nil (path : PathTree) : path.ast ≠ [] := by
  cases path <;> exact List.cons_ne_nil _ _

/-- The search of a request of the grammar, on links that form a tree. -/
theorem findFromXml_iff (env : ServerEnv A) {fuel : Nat} (sprintfF : UInt64 → CString)
    (z : ZpathTree) {file : ZgdbFile A} {T : Forest Nat} (h : DocTree file T)
    (hfuel : T.nodes.length < fuel) {r : FindIfResult} :
    findFromXml env fuel (zpathToXml sprintfF z.ast) file = .ok r ↔
      ∃ ss, Readable z.path.ast ss ∧
        findIfFromRoot env.search fuel file ⟨ss, ss.length⟩ = some r ∧
        Finds env.search file T ss r := by
  have hread : ∀ p, pathFromXml (zpathToXml sprintfF
      ⟨z.request, z.path.ast, z.path.ast.length⟩) = some p ↔
      ∃ ss, Readable z.path.ast ss ∧ p = ⟨ss, z.path.ast.length⟩ :=
    fun p => pathFromXml_iff z.path.ast_ne_nil
  constructor
  · intro hr
    cases hp : pathFromXml (zpathToXml sprintfF z.ast) with
    | none => rw [findFromXml, hp] at hr; cases hr
    | some p =>
      obtain ⟨ss, hss, rfl⟩ := (hread p).mp hp
      have hne : ss ≠ [] := by
        rw [← List.length_pos_iff, hss.length_eq, List.length_pos_iff]
        exact z.path.ast_ne_nil
      obtain ⟨r', hr', hfinds⟩ := search_finds env.search h hfuel hne hss.pred
      rw [findFromXml, hp, ← hss.length_eq] at hr
      simp only [defined, ok_bind, hr'] at hr
      obtain rfl := Except.ok.inj hr
      exact ⟨ss, hss, hr', hfinds⟩
  · rintro ⟨ss, hss, hr, -⟩
    have hp := (hread _).mpr ⟨ss, hss, rfl⟩
    rw [findFromXml, ZpathTree.ast, hp, ← hss.length_eq]
    simp only [defined, ok_bind, hr]

/-- **Requests that are withstood.** Whatever the store, a request of the grammar is withstood when
its search has a result that serves it.  On links that form a tree this is when the path is read and
the store has what the request needs; what that is depends on the handler (`Withstands`). -/
theorem request_withstood (env : ServerEnv A) (fuel : Nat) (sprintfF : UInt64 → CString)
    (z : ZpathTree) (file : ZgdbFile A) :
    (Withstood env fuel file (zpathToXml sprintfF z.ast) ↔
      ∃ r, findFromXml env fuel (zpathToXml sprintfF z.ast) file = .ok r ∧
        Served env.sprintfF z.request r) ∧
    ∀ T, DocTree file T → T.nodes.length < fuel →
      (Withstood env fuel file (zpathToXml sprintfF z.ast) ↔
        ∃ ss, Readable z.path.ast ss ∧
          Withstands env.sprintfF env.search file T ss z.request) := by
  have hserved : Withstood env fuel file (zpathToXml sprintfF z.ast) ↔
      ∃ r, findFromXml env fuel (zpathToXml sprintfF z.ast) file = .ok r ∧
        Served env.sprintfF z.request r := withstood_iff
  refine ⟨hserved, ?_⟩
  intro T h hfuel
  rw [hserved]
  constructor
  · rintro ⟨r, hr, hok⟩
    obtain ⟨ss, hss, -, hfinds⟩ := (findFromXml_iff env sprintfF z h hfuel).mp hr
    exact ⟨ss, hss, (served_iff hfinds _ _).mp hok⟩
  · rintro ⟨ss, hss, hok⟩
    have hne : ss ≠ [] := by
      rw [← List.length_pos_iff, hss.length_eq, List.length_pos_iff]
      exact z.path.ast_ne_nil
    obtain ⟨r, hr, hfinds⟩ := search_finds env.search h hfuel hne hss.pred
    exact ⟨r, (findFromXml_iff env sprintfF z h hfuel).mpr ⟨ss, hss, hr, hfinds⟩,
      (served_iff hfinds _ _).mpr hok⟩

section Records

/-- A server on records. -/
def recordServer : ServerEnv RecordPos :=
    ⟨recordEnv.expandIndexes, sampleSearch, fun _ => stringA, 0⟩

/-- The path `/a`. -/
def pathA : PathTree := .last (.absoluteBase (.plain stringA))

/-- The steps of the path `/a`. -/
def stepsA : List Step := [⟨.absolutePath, keyA, .documentStep, []⟩]

theorem readable_pathA : Readable pathA.ast stepsA := ⟨by decide, by decide, rfl⟩

theorem findsDocument_stepsA {env : SearchEnv} {file : ZgdbFile RecordPos} {T : Forest Nat} :
    FindsDocument env file T stepsA
      ↔ ∃ k, Trail (Scans file T) (Matched env file T) 0 stepsA k := by
  have habs : ¬ isBarePath ⟨stepsA, stepsA.length⟩ .absolutePath := by decide
  have hrel : ¬ isBarePath ⟨stepsA, stepsA.length⟩ .relativePath := by decide
  rw [FindsDocument, if_neg habs, if_neg hrel]

/-- In a store with a document `a` below the root, the request to delete `/a`. -/
theorem delete_withstood : ∃ (file : ZgdbFile RecordPos) (n q : Nat),
    DocTree file (nested n q) ∧
      Withstood recordServer 4 file (zpathToXml recordServer.sprintfF
        (ZpathTree.delete pathA).ast) := by
  obtain ⟨file, n, q, es, own, -, hs, hname, -⟩ := create_nested recordEnv
  have h := hs.docTree
  refine ⟨file, n, q, h, ((request_withstood recordServer 4 recordServer.sprintfF
    (.delete pathA) file).2 (nested n q) h (by simp)).mpr ⟨_, readable_pathA, Or.inl ?_⟩⟩
  have hson := (nested_nodes h).1
  have hfound : FoundAs file (nested n q) (documentAt file n 0) n := ⟨0, h.root_mem, hson, rfl⟩
  have hmatch : satisfies sampleSearch file ⟨.absolutePath, keyA, .documentStep, []⟩
      (documentAt file n 0) = true := by
    simp [satisfies, calculatePredicate, documentAt, hname]
  exact findsDocument_stepsA.mpr ⟨n, n, Or.inl hson, ⟨rfl, _, hfound, hmatch⟩, rfl⟩

/-- In a new store the request for the parent of `/a` takes the head of an empty list. -/
theorem parent_of_missing : Reaches recordEnv (Call.Clean recordEnv) (init 0) ∧
    executeZgdbFromXml recordServer 4
      (zpathToXml recordServer.sprintfF (ZpathTree.parent pathA).ast) (init 0)
        = .error .emptyHead := by
  refine ⟨.new 0, ?_⟩
  have h : DocTree (init 0 : ZgdbFile RecordPos) rootTree := init_store.docTree
  obtain ⟨r, hr, hfinds⟩ := search_finds sampleSearch h (by decide : _ < 4)
    (List.cons_ne_nil _ _ : stepsA ≠ []) readable_pathA.pred
  have hfind := (findFromXml_iff recordServer recordServer.sprintfF (.parent pathA) h
    (by decide : _ < 4)).mpr ⟨_, readable_pathA, hr, hfinds⟩
  have hnil : r.documentList = [] := by
    by_contra hne
    obtain ⟨k, a, hscan, -⟩ := findsDocument_stepsA.mp (hfinds.documents.mp hne)
    obtain ⟨-, x, hx⟩ := h.scans_mem h.root_mem hscan
    have hson := (h.sonOf_iff h.root_mem).mp (.first hx)
    cases hson
  have hexec := execute_parent recordServer 4 recordServer.sprintfF
    ⟨pathA.ast, pathA.ast.length⟩ (init 0)
  refine hexec.trans ?_
  simp only [ZpathTree.ast, ZpathTree.request, ZpathTree.path] at hfind
  rw [executeParentFromXml, hfind, ok_bind, hnil]
  rfl

end Records

end Zgdb
