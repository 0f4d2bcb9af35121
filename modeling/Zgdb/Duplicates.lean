/-
# Documents that are found twice

Every document that a relative step matches becomes a context of the next step, also one below
another match, and then the next step scans what is below it a second time.  So a document is found
once for every way that the steps have to it, and twice exactly if one step picks two documents, one
below the other, from both of which the steps behind it get to that document (`duplicates`).
-/
import Zgdb.RelativePath
import Zgdb.Lib.Descents

namespace Zgdb

open Zgdb.Lib AddrSpace

variable {A : Type} [BlockSpace A]

/-! ## 1. What a step picks

A step with its contexts in order is a list of picks, with repetitions where two contexts overlap.
-/

/-- The documents that a step picks of those it fetches, when `docNumber` documents with its name
came before. -/
def pickDocuments (env : SearchEnv) (file : ZgdbFile A) (s : Step) :
    (docNumber : Nat) → List Document → List Document
  | _, [] => []
  | docNumber, temp :: docs =>
    if temp.header.name = s.stepName then
      (if calculatePredicate env file temp s docNumber then [temp] else [])
        ++ pickDocuments env file s (docNumber + 1) docs
    else pickDocuments env file s docNumber docs

/-- The documents that a relative step picks below `p`, in the order of the scan.  Their numbers,
which the predicates may ask for, start at 0 for each context. -/
def picks (env : SearchEnv) (file : ZgdbFile A) (T : Forest Nat) (s : Step) (p : Nat) : List Nat :=
  (pickDocuments env file s 0 (scanned file T p .relativePath)).map fun temp =>
    temp.header.indexAttached

theorem pickDocuments_sublist (env : SearchEnv) (file : ZgdbFile A) (s : Step) (docNumber : Nat)
    (docs : List Document) : (pickDocuments env file s docNumber docs).Sublist docs := by
  induction docs generalizing docNumber with
  | nil => exact .slnil
  | cons temp docs ih =>
    rw [pickDocuments]
    split
    · split
      · exact (ih _).cons_cons _
      · exact (ih _).cons _
    · exact (ih _).cons _

section Pick

variable {env : SearchEnv} {file : ZgdbFile A} {T : Forest Nat} {s : Step} {last : Bool}

variable (env file last) in
/-- **The inner loop of a document step** leaves the contexts below its picks. -/
theorem foldl_matchDocument (hs : s.sType = .documentStep) (docs : List Document) (st : StepState) :
    (docs.foldl (fun st temp => matchStep env file s last temp st) st).tempContextList
        = st.tempContextList
          ++ (pickDocuments env file s st.docNumber docs).flatMap (childContext file) ∧
      (docs.foldl (fun st temp => matchStep env file s last temp st) st).ifResult
        = if last then st.ifResult.addDocuments (pickDocuments env file s st.docNumber docs)
          else st.ifResult := by
  induction docs generalizing st with
  | nil => cases last <;> simp [pickDocuments]
  | cons temp docs ih =>
    obtain ⟨i1, i2⟩ := ih (matchStep env file s last temp st)
    rw [List.foldl_cons, i1, i2, pickDocuments]
    simp only [matchStep, hs, matchDocument]
    by_cases hname : temp.header.name = s.stepName
    · cases hp : calculatePredicate env file temp s st.docNumber
      · simp [hname]
      · cases last <;> simp [hname, FindIfResult.addDocuments]
    · simp [hname]

/-- The documents that a step picks from all its contexts. -/
def pickedOf (env : SearchEnv) (file : ZgdbFile A) (T : Forest Nat) (s : Step)
    (contextList : List Document) : List Document :=
  contextList.flatMap fun c => pickDocuments env file s 0 (scanned file T c.indexParent s.pType)

variable (env last) in
/-- **A document step over all its contexts.** -/
theorem scanContexts_picked (h : DocTree file T) (hs : s.sType = .documentStep) {fuel : Nat}
    (hfuel : T.nodes.length < fuel) {contextList : List Document}
    (hc : ∀ c ∈ contextList, IsContext file T c) (depth : Nat) (st : StepState) :
    ∃ depth' st', scanContexts env fuel file s last contextList depth st = some (depth', st') ∧
      st'.tempContextList = st.tempContextList
        ++ (pickedOf env file T s contextList).flatMap (childContext file) ∧
      st'.ifResult = if last then st.ifResult.addDocuments (pickedOf env file T s contextList)
        else st.ifResult := by
  obtain ⟨depth', hrun⟩ := scanContexts_fold env last h hfuel hc depth st
  refine ⟨depth', _, hrun, ?_⟩
  clear hrun hc
  induction contextList generalizing st with
  | nil => cases last <;> simp [pickedOf]
  | cons c contextList ih =>
    obtain ⟨h1, h2⟩ := foldl_matchDocument env file last hs
      (scanned file T c.indexParent s.pType) { st with docNumber := 0 }
    obtain ⟨i1, i2⟩ := ih _
    rw [List.foldl_cons]
    refine ⟨?_, ?_⟩
    · rw [i1, h1, pickedOf, pickedOf, List.flatMap_cons, List.flatMap_append, List.append_assoc]
    · rw [i2, h2, pickedOf, pickedOf, List.flatMap_cons]
      cases last
      · rfl
      · exact (FindIfResult.addDocuments_append _ _ _).symm

end Pick

/-! ## 2. Picking in a tree

In a tree the picks of one context are distinct.  So repetitions come from contexts one of which is
below the other. -/

section Tree

variable {env : SearchEnv} {file : ZgdbFile A} {T : Forest Nat}

/-- The nodes above a node stand in one line. -/
theorem DocTree.line (h : DocTree file T) {a b k : Nat} (ha : a ∈ T.nodes) (hb : b ∈ T.nodes)
    (hak : Relation.TransGen (SonOf file) a k) (hbk : Relation.TransGen (SonOf file) b k) :
    a = b ∨ Relation.TransGen (SonOf file) a b ∨ Relation.TransGen (SonOf file) b a := by
  have hmem : ∀ {p c}, p ∈ T.nodes → Relation.TransGen (SonOf file) p c → c ∈ T.nodes := by
    intro p c hp hc
    exact DocTree.mem_below ((h.below_iff hp).mp hc)
  induction hak with
  | @single k hak =>
    cases hbk with
    | single hbk => exact Or.inl (h.links.isSon_unique h.nodup ha hb hak hbk)
    | @tail c _ hbc hck =>
      obtain rfl := h.links.isSon_unique h.nodup ha (hmem hb hbc) hak hck
      exact Or.inr (Or.inr hbc)
  | @tail d k had hdk ih =>
    have hd := hmem ha had
    cases hbk with
    | single hbk =>
      obtain rfl := h.links.isSon_unique h.nodup hd hb hdk hbk
      exact Or.inr (Or.inl had)
    | @tail c _ hbc hck =>
      obtain rfl := h.links.isSon_unique h.nodup hd (hmem hb hbc) hdk hck
      exact ih hbc

theorem DocTree.indexAttached (h : DocTree file T) {doc : Document} {k : Nat}
    (hd : FoundAs file T doc k) : doc.header.indexAttached = k := by
  obtain ⟨q, hq, hson, rfl⟩ := hd
  exact h.attached k (h.son_mem hq hson)

/-- What is scanned below a node is scanned once. -/
theorem DocTree.scanned_nodes (h : DocTree file T) {p : Nat} :
    (scanned file T p .relativePath).map (fun temp => temp.header.indexAttached)
      = ((T.sonsOf p).visit p 0).map Prod.fst := by
  rw [scanned, List.map_map]
  refine List.map_congr_left fun e he => h.attached e.1 (DocTree.mem_below (p := p) ?_)
  exact (Forest.perm_map_visit (T.sonsOf p) p 0).mem_iff.mp (List.mem_map_of_mem he)

variable (env) in
/-- **Steps pick downwards in a tree.** -/
theorem DocTree.descending (h : DocTree file T) :
    Descending (picks env file T) (Relation.TransGen (SonOf file)) (· ∈ T.nodes) where
  picked := by
    intro s p hp a ha
    obtain ⟨temp, hpick, rfl⟩ := List.mem_map.mp ha
    obtain ⟨k, hk, hfound⟩ := (mem_scanned h hp).mp ((pickDocuments_sublist ..).subset hpick)
    rw [h.indexAttached hfound]
    exact ⟨DocTree.mem_below ((h.below_iff hp).mp hk), hk⟩
  nodup := by
    intro s p hp
    refine ((pickDocuments_sublist env file s 0 _).map _).nodup ?_
    rw [h.scanned_nodes]
    exact (Forest.perm_map_visit (T.sonsOf p) p 0).nodup_iff.mpr (Forest.nodup_sonsOf h.nodup)
  trans := fun a b c hab hbc => hab.trans hbc
  irrefl := by
    intro a ha hself
    exact Forest.notMem_sonsOf h.nodup ha ((h.below_iff ha).mp hself)
  line := fun a b k ha hb hak hbk => h.line ha hb hak hbk

/-- A node without sons has nothing to pick. -/
theorem DocTree.descents_leaf (h : DocTree file T) {p : Nat} (hp : p ∈ T.nodes)
    (hleaf : sonOf file p = none) (s : Step) (ss : List Step) :
    descents (picks env file T) (s :: ss) p = [] := by
  have hsons : T.sonsOf p = .nil := (hleaf ▸ h.links.sonsOf hp).eq_nil
  simp [descents, picks, scanned, hsons, Forest.visit, pickDocuments]

/-- The context below a document gives what its node does. -/
theorem DocTree.descents_childContext (h : DocTree file T) {doc : Document} {k : Nat}
    (hd : FoundAs file T doc k) (s : Step) (ss : List Step) :
    ((childContext file doc).flatMap fun c =>
        descents (picks env file T) (s :: ss) c.indexParent)
      = descents (picks env file T) (s :: ss) doc.header.indexAttached := by
  have hatt := h.indexAttached hd
  unfold childContext
  split
  · simp
  · rename_i hzero
    rw [not_not] at hzero
    obtain ⟨q, hq, hson, rfl⟩ := hd
    have hk := h.son_mem hq hson
    have hnone : sonOf file k = none := by
      show link (getDocumentHeader file k).indexSon = none
      exact link_eq_none.mpr hzero
    rw [hatt, h.descents_leaf hk hnone, List.flatMap_nil]

/-! ## 3. What a path of relative steps finds

A document is in the result once for every chain of picks that ends at it. -/

/-- A relative document step, with any predicates. -/
structure StepWith.IsRelative (s : Step) : Prop where
  relative : s.pType = .relativePath
  document : s.sType = .documentStep

/-- What is picked is found in the tree. -/
theorem DocTree.foundAs_picked (h : DocTree file T) {s : Step} {contextList : List Document}
    (hc : ∀ c ∈ contextList, IsContext file T c) {doc : Document}
    (hd : doc ∈ pickedOf env file T s contextList) : ∃ k ∈ T.nodes, FoundAs file T doc k := by
  obtain ⟨c, hm, hd⟩ := List.mem_flatMap.mp hd
  have hp := (hc c hm).1
  obtain ⟨k, hk, hfound⟩ := (mem_scanned h hp).mp ((pickDocuments_sublist ..).subset hd)
  exact ⟨k, (h.scans_mem hp hk).1, hfound⟩

/-- The picks of a relative step, as nodes. -/
theorem map_pickedOf {s : Step} (hs : s.pType = .relativePath) (contextList : List Document) :
    (pickedOf env file T s contextList).map (fun doc => doc.header.indexAttached)
      = contextList.flatMap fun c => picks env file T s c.indexParent := by
  rw [pickedOf, List.map_flatMap, hs]
  rfl

/-- The contexts below the picks give what the nodes of the picks do. -/
theorem DocTree.descents_next (h : DocTree file T) {docs : List Document}
    (hd : ∀ doc ∈ docs, ∃ k ∈ T.nodes, FoundAs file T doc k) (s : Step) (ss : List Step) :
    ((docs.flatMap (childContext file)).flatMap fun c =>
        descents (picks env file T) (s :: ss) c.indexParent)
      = (docs.map fun doc => doc.header.indexAttached).flatMap
          (descents (picks env file T) (s :: ss)) := by
  rw [List.flatMap_assoc, List.flatMap_map]
  refine List.flatMap_congr ?_
  intro doc hm
  obtain ⟨k, -, hfound⟩ := hd doc hm
  exact h.descents_childContext hfound s ss

variable (env) in
/-- **The steps of a path** find what they descend to from their contexts. -/
theorem findSteps_descents (h : DocTree file T) {fuel : Nat} (hfuel : T.nodes.length < fuel)
    {size i : Nat} {s : Step} {ss : List Step} (hsize : i + ss.length + 1 = size)
    (hss : ∀ s' ∈ s :: ss, s'.IsRelative) {contextList : List Document}
    (hc : ∀ c ∈ contextList, IsContext file T c) (depth : Nat) (r : FindIfResult) :
    ∃ docs, findSteps env fuel file size i (s :: ss) contextList depth r
        = some (r.addDocuments docs) ∧
      docs.map (fun doc => doc.header.indexAttached)
        = contextList.flatMap fun c => descents (picks env file T) (s :: ss) c.indexParent := by
  induction ss generalizing i s contextList depth r with
  | nil =>
    have hlast : i + 1 = size := by simpa using hsize
    obtain ⟨hrel, hdoc⟩ := hss s List.mem_cons_self
    obtain ⟨depth', st', hrun, -, hr⟩ :=
      scanContexts_picked env true h hdoc hfuel hc depth ⟨0, [], r⟩
    refine ⟨pickedOf env file T s contextList, ?_, ?_⟩
    · rw [findSteps, decide_eq_true hlast, hrun]
      simp only [Option.bind_eq_bind, Option.bind_some, findSteps, if_pos hlast, hr, if_pos]
    · rw [map_pickedOf hrel]
      simp [descents]
  | cons t ss ih =>
    have hlast : ¬ i + 1 = size := by
      rw [List.length_cons] at hsize
      omega
    obtain ⟨hrel, hdoc⟩ := hss s List.mem_cons_self
    obtain ⟨depth', st', hrun, hnext, hr⟩ :=
      scanContexts_picked env false h hdoc hfuel hc depth ⟨0, [], r⟩
    have hfound : ∀ doc ∈ pickedOf env file T s contextList, ∃ k ∈ T.nodes, FoundAs file T doc k :=
      fun _ hd => h.foundAs_picked hc hd
    have hc' : ∀ c ∈ st'.tempContextList, IsContext file T c := by
      intro c hm
      rw [hnext] at hm
      obtain ⟨doc, hd, hchild⟩ := List.mem_flatMap.mp hm
      obtain ⟨k, hk, hd⟩ := hfound doc hd
      obtain ⟨x, hx, rfl⟩ := (mem_childContext h hd).mp hchild
      exact isContext_next h hk hx
    obtain ⟨docs, hsteps, hdocs⟩ := ih (i := i + 1) (by rw [List.length_cons] at hsize; omega)
      (fun s' hs' => hss s' (List.mem_cons_of_mem _ hs')) hc'
        (depthAfter s.pType depth') st'.ifResult
    refine ⟨docs, ?_, ?_⟩
    · rw [findSteps, decide_eq_false hlast, hrun]
      simp only [Option.bind_eq_bind, Option.bind_some]
      rw [hsteps, hr]
      rfl
    · rw [hdocs, hnext, List.nil_append, h.descents_next hfound, map_pickedOf hrel,
        List.flatMap_assoc]
      rfl

theorem destroyLists_addDocuments (docs : List Document) :
    (FindIfResult.empty.addDocuments docs).destroyLists = FindIfResult.empty.addDocuments docs := by
  cases docs <;> rfl

theorem not_barePath_absolute {p : Path} (hss : ∀ s ∈ p.steps, s.IsRelative) :
    ¬ isBarePath p .absolutePath := by
  rintro ⟨-, s, hs, -, habs, -⟩
  rw [(hss s hs).relative] at habs
  cases habs

variable (env) in
/-- **A path of relative steps finds what it descends to**, once for every way. -/
theorem search_descents (h : DocTree file T) {fuel : Nat} (hfuel : T.nodes.length < fuel) {s : Step}
    {ss : List Step} (hss : ∀ s' ∈ s :: ss, s'.IsRelative)
    (hbare : ¬ isBarePath ⟨s :: ss, ss.length + 1⟩ .relativePath) :
    ∃ r, findIfFromRoot env fuel file ⟨s :: ss, ss.length + 1⟩ = some r ∧
      r.documentList.map (fun doc => doc.header.indexAttached)
        = descents (picks env file T) (s :: ss) 0 := by
  simp only [findIfFromRoot, findIf0, nextDoc_root h,
    if_neg (not_barePath_absolute (p := ⟨s :: ss, ss.length + 1⟩) hss), if_neg hbare]
  cases hx : sonOf file 0 with
  | none => exact ⟨.empty, rfl, (h.descents_leaf h.root_mem hx s ss).symm⟩
  | some x =>
    have hxatt := h.attached x (h.links.mem_of_link h.root_mem (Or.inl hx))
    have hc : ∀ c ∈ [documentAt file x 0], IsContext file T c := by
      intro c hm
      obtain rfl := List.mem_singleton.mp hm
      exact ⟨h.root_mem, hx.trans (congrArg some hxatt.symm)⟩
    obtain ⟨docs, hsteps, hdocs⟩ := findSteps_descents env (i := 0) h hfuel
      (Nat.zero_add (ss.length + 1)) hss hc 1 .empty
    have hnext : nextDoc file (createDocIterator x 0 1) = _ := nextDoc_eq (e := (x, 0, 1)) [] hxatt
    refine ⟨FindIfResult.empty.addDocuments docs, ?_, ?_⟩
    · have hrun := congrArg (Option.map FindIfResult.destroyLists) hsteps
      rw [Option.map_some, destroyLists_addDocuments] at hrun
      have hgo : hasNextDoc (createDocIterator x 0 1) = true := rfl
      simpa only [hgo, if_true, hnext, FindIfResult.empty] using hrun
    · rw [documentList_addDocuments, FindIfResult.empty, List.nil_append, hdocs]
      simp [documentAt]

variable (env) in
/-- The path `//` finds the sons of the root, each once. -/
theorem search_sons (h : DocTree file T) {fuel : Nat} (hfuel : T.nodes.length < fuel) {p : Path}
    (hss : ∀ s ∈ p.steps, s.IsRelative) (hbare : isBarePath p .relativePath) :
    ∃ r, findIfFromRoot env fuel file p = some r ∧
      (r.documentList.map fun doc => doc.header.indexAttached).Nodup := by
  simp only [findIfFromRoot, findIf0, nextDoc_root h, if_neg (not_barePath_absolute hss),
    if_pos hbare, join_root env h hfuel]
  refine ⟨_, rfl, ?_⟩
  have hnodes : ((T.sonsOf 0).roots.map fun k => (documentAt file k 0).header.indexAttached)
      = (T.sonsOf 0).roots.map id := by
    refine List.map_congr_left fun k hk => h.attached k ?_
    exact DocTree.mem_below (Forest.mem_nodes_of_mem_roots hk)
  simp only [FindIfResult.destroyLists, List.map_map, Function.comp_def]
  rw [hnodes, List.map_id]
  exact Forest.nodup_roots (Forest.nodup_sonsOf h.nodup)

variable (env) in
/-- **Relative steps find a document twice** exactly if one of them picks two documents, one below
the other, from which the steps behind it get to one document.  In a tree these are the only two
ways to one result, since the picks of one context are distinct.  The steps may be of any number and
carry any predicates. -/
theorem duplicates (h : DocTree file T) {fuel : Nat} (hfuel : T.nodes.length < fuel)
    {ss : List Step} (hss : ∀ s ∈ ss, s.IsRelative) :
    ∃ r, findIfFromRoot env fuel file ⟨ss, ss.length⟩ = some r ∧
      ((r.documentList.map fun doc => doc.header.indexAttached).Nodup ↔
        ¬ Rejoins (picks env file T) (Relation.TransGen (SonOf file)) ss 0) := by
  have hdown := h.descending env
  cases ss with
  | nil =>
    refine ⟨.empty, ?_, by simp [FindIfResult.empty, Rejoins]⟩
    have hbare : ∀ pType, ¬ isBarePath (⟨[], 0⟩ : Path) pType := fun _ hb => absurd hb.1 (by simp)
    simp only [findIfFromRoot, findIf0, nextDoc_root h, List.length_nil, if_neg (hbare _)]
    cases sonOf file 0 <;> rfl
  | cons s ss =>
    by_cases hbare : isBarePath ⟨s :: ss, ss.length + 1⟩ .relativePath
    · obtain ⟨r, hrun, hnodup⟩ := search_sons env h hfuel hss hbare
      obtain rfl : ss = [] := by simpa using hbare.1
      refine ⟨r, hrun, iff_of_true hnodup ?_⟩
      rw [← hdown.nodup_descents h.root_mem]
      simpa [descents] using hdown.nodup s 0 h.root_mem
    · obtain ⟨r, hrun, hdocs⟩ := search_descents env h hfuel hss hbare
      exact ⟨r, hrun, by rw [hdocs, hdown.nodup_descents h.root_mem]⟩

/-! ## 4. Predicates on element values

Without numbers in the predicates a step picks whatever matches below its context, and the condition
on two documents becomes one on the tree. -/

/-- Where the number of a document does not matter, a step picks what satisfies it. -/
theorem pickDocuments_byValue {s : Step} (hs : s.IsRelativeDocument) (docNumber : Nat)
    (docs : List Document) :
    pickDocuments env file s docNumber docs = docs.filter (satisfies env file s) := by
  induction docs generalizing docNumber with
  | nil => rfl
  | cons temp docs ih =>
    rw [pickDocuments, ih, ih, List.filter_cons, satisfies,
      calculatePredicate_number (fun _ => hs.byValue) hs.document temp docNumber 0]
    by_cases hname : temp.header.name = s.stepName
    · cases calculatePredicate env file temp s 0 <;> simp [hname]
    · simp [hname]

theorem DocTree.mem_picks (h : DocTree file T) {s : Step} (hs : s.IsRelativeDocument) {p k : Nat}
    (hp : p ∈ T.nodes) : k ∈ picks env file T s p ↔
      Relation.TransGen (SonOf file) p k ∧ Matched env file T s k := by
  simp only [picks, pickDocuments_byValue hs, List.mem_map, List.mem_filter]
  constructor
  · rintro ⟨temp, ⟨hscan, hok⟩, rfl⟩
    obtain ⟨k, hk, hfound⟩ := (mem_scanned h hp).mp hscan
    rw [h.indexAttached hfound]
    exact ⟨hk, hs.document, temp, hfound, hok⟩
  · rintro ⟨hk, -, temp, hfound, hok⟩
    exact ⟨temp, ⟨(mem_scanned h hp).mpr ⟨k, hk, hfound⟩, hok⟩, h.indexAttached hfound⟩

variable (env) in
/-- **With predicates on element values** it is enough that the steps lead on from the lower one of
two nested picks. -/
theorem rejoins_byValue (h : DocTree file T) {ss : List Step}
    (hss : ∀ s ∈ ss, s.IsRelativeDocument) :
    Rejoins (picks env file T) (Relation.TransGen (SonOf file)) ss 0 ↔
      Nests (picks env file T) (Relation.TransGen (SonOf file)) ss 0 := by
  refine (h.descending env).rejoins_iff ?_ h.root_mem
  intro s hs a b ha hab k hk
  have hb : b ∈ T.nodes := DocTree.mem_below ((h.below_iff ha).mp hab)
  obtain ⟨hbk, hok⟩ := (h.mem_picks (hss s hs) hb).mp hk
  exact (h.mem_picks (hss s hs) ha).mpr ⟨hab.trans hbk, hok⟩

end Tree

/-! ## 5. A document that is found twice

Two documents of one name, one below the other, and a third below both of them. -/

/-- A root with a line of three documents below it. -/
abbrev nestedTwice (n q k : Nat) : Forest Nat :=
  .cons 0 (.cons n (.cons q (.cons k .nil .nil) .nil) .nil) .nil

/-- A document `a` with a document `a` below it, and below that a document `b`. -/
theorem create_nestedTwice (env : Env A) : ∃ file n q k,
    Reaches env (Call.Clean env) file ∧ DocTree file (nestedTwice n q k) ∧
      (getDocumentHeader file n).name = keyA ∧ (getDocumentHeader file q).name = keyA ∧
      (getDocumentHeader file k).name = keyB := by
  obtain ⟨file1, n, hn, h1, hname1, -⟩ :=
    (Planted.new env).create (by omega) List.mem_cons_self keyA
  obtain ⟨file2, q, hq, h2, hname2, hkept2⟩ :=
    h1.create (p := n) (by omega) (by simp [Forest.insertUnder]) keyA
  have hn0 : n ≠ 0 := fun h0 => hn (h0 ▸ List.mem_cons_self)
  have htree2 : (rootTree.insertUnder 0 n).insertUnder n q = nested n q := by
    simp [Forest.insertUnder, Ne.symm hn0]
  have hq0 : q ≠ 0 ∧ q ≠ n := by simpa [Forest.insertUnder] using hq
  rw [htree2] at h2
  obtain ⟨file3, k, -, h3, hname3, hkept3⟩ := h2.create (p := q) (by omega) (by simp) keyB
  have htree3 : (nested n q).insertUnder q k = nestedTwice n q k := by
    simp [Forest.insertUnder, Ne.symm hq0.1, Ne.symm hq0.2]
  obtain ⟨es, own, hs⟩ := h3.store
  rw [htree3] at hs
  refine ⟨file3, n, q, k, h3.reach, hs.docTree, ?_, ?_, hname3⟩
  · rw [hkept3 n (by simp), hkept2 n (by simp [Forest.insertUnder]), hname1]
  · rw [hkept3 q (by simp), hname2]

/-- A relative document step without predicates. -/
def relativeStep (name : Name) : Step := ⟨.relativePath, name, .documentStep, []⟩

theorem relativeStep_relative (name : Name) : (relativeStep name).IsRelative := ⟨rfl, rfl⟩

theorem relativeStep_byValue (name : Name) : (relativeStep name).IsRelativeDocument :=
  ⟨rfl, rfl, fun _ hq => absurd hq List.not_mem_nil⟩

/-- A step without predicates picks by the name. -/
theorem DocTree.picks_name {file : ZgdbFile A} {T : Forest Nat} (h : DocTree file T)
    {env : SearchEnv} {p q k : Nat} {name : Name} (hp : p ∈ T.nodes) (hq : q ∈ T.nodes)
    (hpk : Relation.TransGen (SonOf file) p k) (hqk : SonOf file q k)
    (hname : (getDocumentHeader file k).name = name) :
    k ∈ picks env file T (relativeStep name) p := by
  subst hname
  refine (h.mem_picks (relativeStep_byValue _) hp).mpr ⟨hpk, rfl, _, ⟨q, hq, hqk, rfl⟩, ?_⟩
  simp [satisfies, documentAt, relativeStep, calculatePredicate]

/-- The path of one step `b` over the same store. -/
theorem duplicates_first : ∃ (file : ZgdbFile RecordPos) (T : Forest Nat) (r : FindIfResult),
    findIfFromRoot sampleSearch 5 file ⟨[relativeStep keyB], 1⟩ = some r ∧
      ((r.documentList.map fun doc => doc.header.indexAttached).Nodup ↔
        ¬ Rejoins (picks sampleSearch file T) (Relation.TransGen (SonOf file))
          [relativeStep keyB] 0) := by
  obtain ⟨file, n, q, k, -, h, -⟩ := create_nestedTwice recordEnv
  have hstep : ∀ s ∈ [relativeStep keyB], s.IsRelative := by
    intro s hs
    rw [List.mem_singleton.mp hs]
    exact relativeStep_relative keyB
  obtain ⟨r, hrun, hiff⟩ := duplicates sampleSearch h (show _ < 5 by simp) hstep
  exact ⟨file, nestedTwice n q k, r, hrun, hiff⟩

/-- The path `//a//b` over the same store finds `b` from each `a`. -/
theorem document_found_twice : ∃ (file : ZgdbFile RecordPos) (n q k : Nat) (r : FindIfResult),
    Reaches recordEnv (Call.Clean recordEnv) file ∧ DocTree file (nestedTwice n q k) ∧
      findIfFromRoot sampleSearch 5 file ⟨[relativeStep keyA, relativeStep keyB], 2⟩ = some r ∧
      ¬ (r.documentList.map fun doc => doc.header.indexAttached).Nodup := by
  obtain ⟨file, n, q, k, hreach, h, hn, hq, hk⟩ := create_nestedTwice recordEnv
  have hnT : n ∈ (nestedTwice n q k).nodes := by simp
  have hqT : q ∈ (nestedTwice n q k).nodes := by simp
  obtain ⟨hn0, hq0, hqn⟩ : n ≠ 0 ∧ q ≠ 0 ∧ q ≠ n := by
    have hnodup := h.nodup
    simp at hnodup
    omega
  have h0n : SonOf file 0 n := (h.sonOf_iff h.root_mem).mpr (by simp [Forest.sonsOf])
  have hnq : SonOf file n q := (h.sonOf_iff hnT).mpr (by simp [Forest.sonsOf, hn0.symm])
  have hqk : SonOf file q k :=
    (h.sonOf_iff hqT).mpr (by simp [Forest.sonsOf, hq0.symm, hqn.symm])
  have hstep : ∀ s ∈ [relativeStep keyA, relativeStep keyB], s.IsRelative := by
    intro s hs
    rcases List.mem_pair.mp hs with rfl | rfl <;> exact relativeStep_relative _
  obtain ⟨r, hrun, hdocs⟩ := search_descents sampleSearch h (show _ < 5 by simp) hstep
    (fun hb => absurd hb.1 (by simp))
  refine ⟨file, n, q, k, r, hreach, h, hrun, ?_⟩
  rw [hdocs, (h.descending sampleSearch).nodup_descents h.root_mem, not_not]
  refine Or.inl ⟨n, ?_, q, ?_, .single hnq, k, ⟨k, ?_, rfl⟩, ⟨k, ?_, rfl⟩⟩
  · exact h.picks_name h.root_mem h.root_mem (.single h0n) h0n hn
  · exact h.picks_name h.root_mem hnT (.tail (.single h0n) hnq) hnq hq
  · exact h.picks_name hnT hqT (.tail (.single hnq) hqk) hqk hk
  · exact h.picks_name hqT hqT (.single hqk) hqk hk

end Zgdb
