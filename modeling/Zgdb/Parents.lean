/-
# Results carry their parent

The parent of a document is not stored in the file: it is threaded through the iterator, its stack,
the contexts of a search and the loop of `join`, and `deleteDocument` trusts it.  On links that form
a finite tree every document of a result carries the index of its parent in the tree, whatever the
path and its predicates are (`Carries`, `results_carry_parents`); so `parent` finds the parent,
`join` lists the sons, and the sibling scan of `deleteDocument` ends at the document.
-/
import Zgdb.Search
import Zgdb.Delete

namespace Zgdb

open Zgdb.Lib AddrSpace

variable {A : Type} [BlockSpace A]

/-! ## 1. What a document carries

A document in memory has the index of its parent beside its header.  It is right when it is that of
the tree; the root has itself for a parent. -/

/-- The document can be reached from the root. -/
def Reachable (file : ZgdbFile A) (k : Nat) : Prop := Relation.ReflTransGen (SonOf file) 0 k

/-- The document is what is stored under its index, and knows whether it is the root and which
document it hangs below.  `deleteDocument` and `parent` go by these fields of a result, and not by
the file. -/
structure Carries (file : ZgdbFile A) (doc : Document) : Prop where
  header : doc.header = getDocumentHeader file doc.header.indexAttached
  reachable : Reachable file doc.header.indexAttached
  isRoot : doc.isRoot = true ↔ doc.header.indexAttached = 0
  parent : doc.header.indexAttached ≠ 0 → ∀ q, Reachable file q →
    (SonOf file q doc.header.indexAttached ↔ q = doc.indexParent)
  parent_reachable : Reachable file doc.indexParent

/-- What `createRootDocument` puts at index 0, as far as it does not change.  Its links and its
place in the file do, but not its name, and it has no elements. -/
structure RootStored (file : ZgdbFile A) : Prop where
  name : (getDocumentHeader file 0).name = Name.root
  attrCount : (getDocumentHeader file 0).attrCount = 0

section Tree

variable {file : ZgdbFile A} {T : Forest Nat}

theorem DocTree.reachable_iff (h : DocTree file T) {k : Nat} : Reachable file k ↔ k ∈ T.nodes := by
  constructor
  · intro hk
    induction hk with
    | refl => exact h.root_mem
    | tail _ hson ih => exact h.son_mem ih hson
  · intro hk
    obtain ⟨r, hr, hrk⟩ := h.links.descends hk
    -- the root is the only node of the first chain
    obtain rfl : r = 0 := by
      have hlinks := h.links
      cases hT : T with
      | nil => rw [hT] at hk; cases hk
      | cons a s b =>
        rw [hT] at hlinks hr
        obtain ⟨ha, -, hb⟩ := hlinks
        obtain rfl := Option.some.inj ha
        rw [h.root_brother] at hb
        rw [hb.eq_nil] at hr
        simpa using hr
    exact hrk

/-- The test for the root finds the document at index 0. -/
theorem DocTree.isRoot_iff (h : DocTree file T) (hroot : RootStored file) {k : Nat}
    (hk : k ∈ T.nodes) : isRootDocumentHeader (getDocumentHeader file k) = true ↔ k = 0 := by
  have hatt : (getDocumentHeader file k).indexAttached = k := h.attached k hk
  have hbrother : (getDocumentHeader file 0).indexBrother = 0 := link_eq_none.mp h.root_brother
  simp only [isRootDocumentHeader, hatt, decide_eq_true_eq]
  constructor
  · rintro ⟨-, h0, -⟩
    exact h0
  · rintro rfl
    exact ⟨hroot.name, rfl, hroot.attrCount, hbrother⟩

theorem DocTree.carries_root (h : DocTree file T) (hroot : RootStored file) :
    Carries file (documentAt file 0 0) := by
  have hatt : (getDocumentHeader file 0).indexAttached = 0 := h.attached 0 h.root_mem
  refine ⟨?_, ?_, ?_, fun hne => absurd hatt hne, .refl⟩
  · show getDocumentHeader file 0 = getDocumentHeader file (getDocumentHeader file 0).indexAttached
    rw [hatt]
  · show Reachable file (getDocumentHeader file 0).indexAttached
    rw [hatt]
    exact .refl
  · exact (h.isRoot_iff hroot h.root_mem).trans ⟨fun _ => hatt, fun _ => rfl⟩

/-- A document found below its parent carries it. -/
theorem DocTree.carries_of_foundAs (h : DocTree file T) (hroot : RootStored file) {doc : Document}
    {k : Nat} (hd : FoundAs file T doc k) : Carries file doc := by
  obtain ⟨q, hq, hson, rfl⟩ := hd
  have hk := h.son_mem hq hson
  have hatt : (documentAt file k q).header.indexAttached = k := h.attached k hk
  refine ⟨?_, ?_, ?_, ?_, h.reachable_iff.mpr hq⟩
  · rw [hatt]
    rfl
  · rw [hatt]
    exact h.reachable_iff.mpr hk
  · rw [hatt]
    exact h.isRoot_iff hroot hk
  · intro _ p hp
    rw [hatt]
    constructor
    · exact fun hp' => h.links.isSon_unique h.nodup (h.reachable_iff.mp hp) hq hp' hson
    · rintro rfl
      exact hson

/-! ## 2. Searches

Every document of a result has been made by the iterator, which takes the parent from the stack. -/

/-- What a step may hold: contexts below nodes of the tree, and documents found in it. -/
structure Sees (file : ZgdbFile A) (T : Forest Nat) (st : StepState) : Prop where
  contexts : ∀ c ∈ st.tempContextList, IsContext file T c
  documents : ∀ doc ∈ st.ifResult.documentList, ∃ k, FoundAs file T doc k

variable (env : SearchEnv) (s : Step) (last : Bool) {fuel : Nat}

/-- **One document**, whatever the predicates say of it. -/
theorem Sees.matchStep (h : DocTree file T) {st : StepState} (hs : Sees file T st)
    {temp : Document} {k : Nat} (htemp : FoundAs file T temp k) :
    Sees file T (matchStep env file s last temp st) := by
  have hcontext : ∀ c ∈ childContext file temp, IsContext file T c := by
    intro c hc
    obtain ⟨x, hx, rfl⟩ := (mem_childContext h htemp).mp hc
    obtain ⟨q, hq, hson, -⟩ := htemp
    exact isContext_next h (h.son_mem hq hson) hx
  have hdocs : ∀ doc ∈ st.ifResult.documentList ++ [temp], ∃ k, FoundAs file T doc k := by
    intro doc hdoc
    rcases List.mem_append.mp hdoc with hdoc | hdoc
    · exact hs.documents doc hdoc
    · exact ⟨k, List.mem_singleton.mp hdoc ▸ htemp⟩
  have hcontexts : ∀ c ∈ st.tempContextList ++ childContext file temp, IsContext file T c :=
    fun c hc => (List.mem_append.mp hc).elim (hs.contexts c) (hcontext c)
  unfold Zgdb.matchStep
  cases s.sType with
  | documentStep =>
    simp only [matchDocument]
    by_cases hname : temp.header.name = s.stepName
    · by_cases hpred : calculatePredicate env file temp s st.docNumber = true
      · simp only [if_pos hname, if_pos hpred]
        cases last with
        | false => exact ⟨hcontexts, hs.documents⟩
        | true => exact ⟨hcontexts, hdocs⟩
      · simp only [if_pos hname, if_neg hpred]
        exact ⟨hs.contexts, hs.documents⟩
    · simp only [if_neg hname]
      exact hs
  | elementStep =>
    simp only [matchElements]
    split
    · exact ⟨hs.contexts, hs.documents⟩
    · exact hs

theorem Sees.foldl (h : DocTree file T) {docs : List Document}
    (hdocs : ∀ doc ∈ docs, ∃ k, FoundAs file T doc k) {st : StepState} (hs : Sees file T st) :
    Sees file T (docs.foldl (fun st temp => Zgdb.matchStep env file s last temp st) st) := by
  induction docs generalizing st with
  | nil => exact hs
  | cons temp docs ih =>
    obtain ⟨k, hk⟩ := hdocs temp List.mem_cons_self
    exact ih (fun doc hd => hdocs doc (List.mem_cons_of_mem _ hd)) (hs.matchStep env s last h hk)

/-- **The contexts of a step.** -/
theorem Sees.scanContexts (h : DocTree file T) (hfuel : T.nodes.length < fuel)
    {contextList : List Document} (hc : ∀ c ∈ contextList, IsContext file T c) (depth : Nat)
    {st : StepState} (hs : Sees file T st) :
    ∃ depth' st', Zgdb.scanContexts env fuel file s last contextList depth st
      = some (depth', st') ∧ Sees file T st' := by
  induction contextList generalizing depth st with
  | nil => exact ⟨depth, st, rfl, hs⟩
  | cons c contextList ih =>
    obtain ⟨hp, hx⟩ := hc c List.mem_cons_self
    obtain ⟨depth1, hscan⟩ := scanLoop_context env s last h hp hx hfuel depth
      { st with docNumber := 0 }
    have hs0 : Sees file T { st with docNumber := 0 } := ⟨hs.contexts, hs.documents⟩
    have hfound : ∀ doc ∈ scanned file T c.indexParent s.pType, ∃ k, FoundAs file T doc k := by
      intro doc hd
      obtain ⟨k, -, hk⟩ := (mem_scanned h hp).mp hd
      exact ⟨k, hk⟩
    have hs1 := hs0.foldl env s last h hfound
    obtain ⟨depth', st', hrun, hs'⟩ :=
      ih (fun c hm => hc c (List.mem_cons_of_mem _ hm)) depth1 hs1
    refine ⟨depth', st', ?_, hs'⟩
    rw [Zgdb.scanContexts, hscan]
    exact hrun

/-- **The steps of a path**: the loop ends when the path has as many steps as it says, and adds
documents of the tree only. -/
theorem findSteps_sees (h : DocTree file T) (hfuel : T.nodes.length < fuel) {size : Nat}
    {steps : List Step} {i depth : Nat} {contextList : List Document} {r : FindIfResult}
    (hc : ∀ c ∈ contextList, IsContext file T c)
    (hr : ∀ doc ∈ r.documentList, ∃ k, FoundAs file T doc k) :
    (i + steps.length = size →
      ∃ r', findSteps env fuel file size i steps contextList depth r = some r') ∧
      ∀ r', findSteps env fuel file size i steps contextList depth r = some r' →
        ∀ doc ∈ r'.documentList, ∃ k, FoundAs file T doc k := by
  induction steps generalizing i contextList depth r with
  | nil =>
    constructor
    · intro hsize
      exact ⟨r, if_pos hsize⟩
    · intro r' hrun
      rw [findSteps] at hrun
      split at hrun
      · exact Option.some.inj hrun ▸ hr
      · cases hrun
  | cons s steps ih =>
    have hs0 : Sees file T ⟨0, [], r⟩ := ⟨fun c hm => absurd hm List.not_mem_nil, hr⟩
    obtain ⟨depth', st', hrun, hs⟩ :=
      hs0.scanContexts env s (decide (i + 1 = size)) h hfuel hc depth
    have hstep : findSteps env fuel file size i (s :: steps) contextList depth r
        = findSteps env fuel file size (i + 1) steps st'.tempContextList
            (depthAfter s.pType depth') st'.ifResult := by
      rw [findSteps, hrun]
      rfl
    obtain ⟨ih1, ih2⟩ := ih (i := i + 1) hs.contexts hs.documents
    rw [hstep]
    refine ⟨fun hsize => ih1 ?_, ih2⟩
    rw [List.length_cons] at hsize
    omega

/-! ## 3. Sons

`join` gives its own document as the parent to each son. -/

/-- The loop of `join` with any predicates: some of the sons, in sibling order. -/
theorem joinLoop_sublist {s : Step} (parent : Document) {F : Forest Nat} {tempIndex : Nat}
    (hF : F.Represents (sonOf file) (brotherOf file) (link tempIndex)) {fuel : Nat}
    (hfuel : F.nodes.length < fuel) (docNumber : Nat) :
    ∃ list, joinLoop env file parent s fuel tempIndex docNumber = some list ∧
      list.Sublist (F.roots.map fun k => documentAt file k parent.header.indexAttached) := by
  induction F generalizing tempIndex fuel docNumber with
  | nil =>
    obtain ⟨fuel, rfl⟩ : ∃ m, fuel = m + 1 := ⟨fuel - 1, by simp at hfuel; omega⟩
    rw [joinLoop, if_pos (link_eq_none.mp hF)]
    exact ⟨[], rfl, List.Sublist.refl _⟩
  | cons a sons brothers _ ih =>
    obtain ⟨fuel, rfl⟩ : ∃ m, fuel = m + 1 := ⟨fuel - 1, by simp at hfuel; omega⟩
    obtain ⟨ha, -, hb⟩ := hF
    obtain ⟨rfl, hne⟩ := link_eq_some.mp ha
    have hlen : brothers.nodes.length < fuel := by
      simp at hfuel
      omega
    obtain ⟨list, hrun, hsub⟩ := ih hb hlen (docNumber + 1)
    simp only [joinLoop, if_neg hne, hrun, Option.map_some, Forest.roots_cons, List.map_cons]
    by_cases hpred : calculatePredicate env file ⟨isRootDocumentHeader (getDocumentHeader file
        tempIndex), parent.header.indexAttached, getDocumentHeader file tempIndex⟩ s docNumber
          = true
    · rw [if_pos hpred]
      exact ⟨_, rfl, hsub.cons_cons _⟩
    · rw [if_neg hpred]
      exact ⟨_, rfl, hsub.cons _⟩

/-- **`join` on a document of a result**: all sons without predicates, else some of them. -/
theorem DocTree.join (h : DocTree file T) (hfuel : T.nodes.length < fuel) {doc : Document}
    (hd : Carries file doc) :
    Zgdb.join env fuel file doc []
        = some ((T.sonsOf doc.header.indexAttached).roots.map fun k =>
            documentAt file k doc.header.indexAttached) ∧
      ∀ p, ∃ list, Zgdb.join env fuel file doc p = some list ∧
        ∀ son ∈ list, FoundAs file T son son.header.indexAttached := by
  have hmem := h.reachable_iff.mp hd.reachable
  have hsons : (T.sonsOf doc.header.indexAttached).Represents (sonOf file) (brotherOf file)
      (link doc.header.indexSon) := by
    rw [hd.header]
    have hs := h.links.sonsOf hmem
    rw [hd.header] at hs
    have hatt : (getDocumentHeader file doc.header.indexAttached).indexAttached
        = doc.header.indexAttached := h.attached _ hmem
    rw [hatt] at hs ⊢
    exact hs
  have hlen : (T.sonsOf doc.header.indexAttached).nodes.length < fuel := by
    have hsub := (List.subperm_of_subset (Forest.nodup_sonsOf h.nodup)
      fun k (hk : k ∈ (T.sonsOf doc.header.indexAttached).nodes) => DocTree.mem_below hk).length_le
    omega
  refine ⟨joinLoop_roots env rfl doc hsons hlen 0, ?_⟩
  intro p
  obtain ⟨list, hrun, hsub⟩ := joinLoop_sublist env doc hsons hlen 0
  refine ⟨list, hrun, ?_⟩
  intro son hson
  obtain ⟨k, hk, rfl⟩ := List.mem_map.mp (hsub.subset hson)
  have hksons := (h.sonOf_iff hmem).mpr hk
  have hatt : (documentAt file k doc.header.indexAttached).header.indexAttached = k :=
    h.attached k (h.son_mem hmem hksons)
  rw [hatt]
  exact ⟨_, hmem, hksons, rfl⟩

/-- **A search** finds the root or documents of the tree, and ends when the path is complete. -/
theorem findIfFromRoot_carries (h : DocTree file T) (hroot : RootStored file)
    (hfuel : T.nodes.length < fuel) (p : Path) :
    (p.steps.length = p.size → ∃ r, findIfFromRoot env fuel file p = some r) ∧
      ∀ r, findIfFromRoot env fuel file p = some r → ∀ doc ∈ r.documentList, Carries file doc := by
  have hdestroy : ∀ (r : FindIfResult), ∀ doc ∈ r.destroyLists.documentList,
      doc ∈ r.documentList := by
    intro r doc hdoc
    unfold FindIfResult.destroyLists at hdoc
    split at hdoc
    · cases hdoc
    · exact hdoc
    · cases hdoc
  -- it is enough to look at `findIf0`
  suffices hfind : (p.steps.length = p.size →
      ∃ r, findIf0 env fuel file 0 0 p ⟨.undefinedResult, [], []⟩ = some r) ∧
      ∀ r, findIf0 env fuel file 0 0 p ⟨.undefinedResult, [], []⟩ = some r →
        ∀ doc ∈ r.documentList, Carries file doc by
    constructor
    · intro hsize
      obtain ⟨r, hr⟩ := hfind.1 hsize
      exact ⟨r.destroyLists, by rw [findIfFromRoot, hr]; rfl⟩
    · intro r hr doc hdoc
      obtain ⟨r', hr', rfl⟩ := Option.map_eq_some_iff.mp hr
      exact hfind.2 r' hr' doc (hdestroy r' doc hdoc)
  simp only [findIf0, nextDoc_root h]
  by_cases habs : isBarePath p .absolutePath
  · rw [if_pos habs]
    refine ⟨fun _ => ⟨_, rfl⟩, ?_⟩
    intro r hr doc hdoc
    obtain rfl := Option.some.inj hr
    obtain rfl := List.mem_singleton.mp hdoc
    exact h.carries_root hroot
  · rw [if_neg habs]
    by_cases hrel : isBarePath p .relativePath
    · rw [if_pos hrel]
      obtain ⟨list, hjoin, hlist⟩ := (h.join env hfuel (h.carries_root hroot)).2 []
      rw [hjoin]
      refine ⟨fun _ => ⟨_, rfl⟩, ?_⟩
      intro r hr doc hdoc
      obtain rfl := Option.some.inj hr
      exact h.carries_of_foundAs hroot (hlist doc hdoc)
    · rw [if_neg hrel]
      cases hx : sonOf file 0 with
      | none =>
        refine ⟨fun _ => ⟨_, rfl⟩, ?_⟩
        intro r hr doc hdoc
        obtain rfl := Option.some.inj hr
        cases hdoc
      | some x =>
        have hxatt := h.attached x (h.links.mem_of_link h.root_mem (Or.inl hx))
        have hc : ∀ c ∈ [documentAt file x 0], IsContext file T c := by
          intro c hm
          obtain rfl := List.mem_singleton.mp hm
          exact ⟨h.root_mem, hx.trans (congrArg some hxatt.symm)⟩
        have hnext : nextDoc file (createDocIterator x 0 1) = _ :=
          nextDoc_eq (e := (x, 0, 1)) [] hxatt
        have hgo : hasNextDoc (createDocIterator x 0 1) = true := rfl
        simp only [hgo, if_true, hnext]
        obtain ⟨hsome, hdocs⟩ := findSteps_sees env (i := 0) (r := ⟨.undefinedResult, [], []⟩)
          h hfuel hc fun doc hdoc => absurd hdoc List.not_mem_nil
        refine ⟨fun hsize => hsome (by omega), ?_⟩
        intro r hr doc hdoc
        obtain ⟨k, hk⟩ := hdocs r hr doc hdoc
        exact h.carries_of_foundAs hroot hk

/-! ## 4. What relies on it

`parent`, `join` and the sibling scan of a deletion on a document that was found. -/

/-- `parent` of a document that is not the root is its parent in the tree. -/
theorem DocTree.parent (h : DocTree file T) (hroot : RootStored file) {doc : Document}
    (hd : Carries file doc) (hne : doc.header.indexAttached ≠ 0) :
    SonOf file (Zgdb.parent file doc).header.indexAttached doc.header.indexAttached ∧
      (Zgdb.parent file doc).header
        = getDocumentHeader file (Zgdb.parent file doc).header.indexAttached ∧
      ((Zgdb.parent file doc).isRoot = true ↔
        (Zgdb.parent file doc).header.indexAttached = 0) := by
  have hq := h.reachable_iff.mp hd.parent_reachable
  have hatt : (Zgdb.parent file doc).header.indexAttached = doc.indexParent := h.attached _ hq
  rw [hatt]
  exact ⟨(hd.parent hne _ hd.parent_reachable).mpr rfl, rfl, h.isRoot_iff hroot hq⟩

/-- **The sibling scan** ends at a document that is not the root. -/
theorem DocTree.scanSons (h : DocTree file T) (hfuel : T.nodes.length < fuel) {doc : Document}
    (hd : Carries file doc) (hne : doc.header.indexAttached ≠ 0) :
    ∃ before last, Zgdb.scanSons file doc fuel (getDocumentHeader file doc.indexParent).indexSon
        = some (before ++ [last]) ∧ last.header = doc.header := by
  have hq := h.reachable_iff.mp hd.parent_reachable
  have hson := (hd.parent hne _ hd.parent_reachable).mpr rfl
  obtain ⟨pre, rest, hr, hpre⟩ := List.eq_append_cons_of_mem ((h.sonOf_iff hq).mp hson)
  have hlen : pre.length < fuel := by
    have h1 := Forest.length_roots_le (T.sonsOf doc.indexParent)
    have h2 := (List.subperm_of_subset (Forest.nodup_sonsOf h.nodup)
      fun k (hk : k ∈ (T.sonsOf doc.indexParent).nodes) => DocTree.mem_below hk).length_le
    rw [hr, List.length_append] at h1
    omega
  have hscan := scanSons_eq rfl (h.links.sonsOf hq) hr hpre
    (fun k hk => h.attached k (DocTree.mem_below hk)) hlen
  rw [List.map_append, List.map_singleton] at hscan
  exact ⟨_, _, hscan, hd.header.symm⟩

end Tree

/-- **Results carry the true parent.**  On links that form a finite tree below the root document,
the documents a search or a `join` returns are what is stored under their index, can be reached, are
the root exactly at index 0, and carry the index of their parent; `parent` finds it, `join` without
predicates lists the sons in sibling order, and the sibling scan of `deleteDocument` ends at the
document. -/
theorem results_carry_parents (env : SearchEnv) {file : ZgdbFile A} {T : Forest Nat}
    (h : DocTree file T) (hroot : RootStored file) {fuel : Nat} (hfuel : T.nodes.length < fuel) :
    (∀ p : Path, (p.steps.length = p.size → ∃ r, findIfFromRoot env fuel file p = some r) ∧
      ∀ r, findIfFromRoot env fuel file p = some r → ∀ doc ∈ r.documentList, Carries file doc) ∧
    ∀ doc, Carries file doc →
      (∀ p, ∃ list, join env fuel file doc p = some list ∧ ∀ son ∈ list, Carries file son) ∧
      join env fuel file doc [] = some ((T.sonsOf doc.header.indexAttached).roots.map fun k =>
        documentAt file k doc.header.indexAttached) ∧
      (doc.header.indexAttached ≠ 0 →
        (SonOf file (parent file doc).header.indexAttached doc.header.indexAttached ∧
          (parent file doc).header
            = getDocumentHeader file (parent file doc).header.indexAttached ∧
          ((parent file doc).isRoot = true ↔ (parent file doc).header.indexAttached = 0)) ∧
        ∃ before last, scanSons file doc fuel (getDocumentHeader file doc.indexParent).indexSon
          = some (before ++ [last]) ∧ last.header = doc.header) := by
  refine ⟨findIfFromRoot_carries env h hroot hfuel, fun doc hd => ⟨?_, ?_, ?_⟩⟩
  · intro p
    obtain ⟨list, hrun, hlist⟩ := (h.join env hfuel hd).2 p
    exact ⟨list, hrun, fun son hson => h.carries_of_foundAs hroot (hlist son hson)⟩
  · exact (h.join env hfuel hd).1
  · intro hne
    exact ⟨h.parent hroot hd hne, h.scanSons hfuel hd hne⟩

/-- A creation keeps the root what it is. -/
theorem RootStored.relinked {file file' : ZgdbFile A} (h : RootStored file)
    (hk : Relinked file file' 0) : RootStored file' := by
  constructor
  · rw [hk.name, h.name]
  · rw [hk.header]
    exact h.attrCount

theorem rootStored_init (now : UInt32) : RootStored (init now : ZgdbFile A) := by
  obtain ⟨-, hheader, -⟩ : IsDocument (init now : ZgdbFile A) 0 ∧
    getDocumentHeader (init now : ZgdbFile A) 0 = rootHeader now ∧ _ := init_root
  constructor <;>
  · rw [hheader]
    rfl

/-- The first document of a store, as a relative path and a `join` find it. -/
theorem results_carry_parents_first : ∃ (file : ZgdbFile RecordPos) (n : Nat) (r : FindIfResult),
    findIfFromRoot sampleSearch 3 file ⟨[⟨.relativePath, keyA, .documentStep, []⟩], 1⟩ = some r ∧
      (∀ doc ∈ r.documentList, Carries file doc) ∧
      join sampleSearch 3 file (documentAt file 0 0) [] = some [documentAt file n 0] := by
  obtain ⟨-, file, n, own, -, hi, -⟩ := create_first recordEnv 0 keyA noElements_built rfl
  have hs := hi.store
  have htree : rootTree.insertUnder 0 n = onlySon n := by simp [Forest.insertUnder]
  rw [htree] at hs
  have h := hs.docTree
  have hroot : RootStored file :=
    (rootStored_init 0).relinked (hi.carried 0 List.mem_cons_self).1
  obtain ⟨hsearch, hjoin⟩ := results_carry_parents sampleSearch h hroot (show _ < 3 by simp)
  obtain ⟨hsome, hdocs⟩ := hsearch ⟨[⟨.relativePath, keyA, .documentStep, []⟩], 1⟩
  obtain ⟨r, hr⟩ := hsome rfl
  have hatt : (documentAt file 0 0).header.indexAttached = 0 := h.attached 0 h.root_mem
  obtain ⟨-, hsons, -⟩ := hjoin _ (h.carries_root hroot)
  rw [hatt] at hsons
  exact ⟨file, n, r, hr, hdocs r hr, by rw [hsons]; simp [Forest.sonsOf]⟩

end Zgdb
