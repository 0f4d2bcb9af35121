/-
# Two servers

Two servers may lay out their files differently, in bytes or in records, expand their tables
differently and serve at different times: the clients do not see it.  Two catalogs whose trees are
the same up to the names of the nodes (`Twin`) give the same answer to a request and stay so, as
long as no JOIN asks for an id (`Twin.execute`), and so two servers that are sent the same requests
give the same answers (`sessions_agree`).
-/
import Zgdb.Lib.Renaming
import Zgdb.Service

namespace Zgdb

open Zgdb.Lib AddrSpace

/-! ## 1. Searches in renamed trees

A search goes by the tree and the tests, so a renaming of the nodes that the tests do not see
renames what is found. -/

section Evaluate

variable {f : Nat → Nat} {T : Forest Nat} {tests tests' : StepTests} {s : Step}

/-- A node and its parent, renamed. -/
abbrev pair (f : Nat → Nat) : Nat × Nat → Nat × Nat := Prod.map f f

/-- Both nodes are in the tree. -/
def Inside (T : Forest Nat) (e : Nat × Nat) : Prop := e.1 ∈ T.nodes ∧ e.2 ∈ T.nodes

/-- What is fetched is in the tree. -/
theorem inside_of_reached {p : Nat} (hp : p ∈ T.nodes) {pType : PathType} {e : Nat × Nat}
    (he : e ∈ reached T p pType) : Inside T e := by
  have hbelow : ∀ {k}, k ∈ (T.sonsOf p).nodes → k ∈ T.nodes := Forest.mem_nodes_of_mem_sonsOf
  cases pType with
  | absolutePath =>
    rcases List.mem_append.mp he with he | he
    · obtain ⟨k, hk, rfl⟩ := List.mem_map.mp he
      exact ⟨hbelow (Forest.mem_nodes_of_mem_roots hk), hp⟩
    · obtain ⟨h1, h2⟩ := Forest.mem_of_firstBelow (Option.mem_toList.mp he)
      exact ⟨hbelow h1, hbelow h2⟩
  | relativePath =>
    obtain ⟨x, hx, rfl⟩ := List.mem_map.mp he
    refine ⟨hbelow ?_, ?_⟩
    · exact (Forest.perm_map_visit (T.sonsOf p) p 0).mem_iff.mp (List.mem_map_of_mem hx)
    · rcases Forest.parent_of_visit hx with h | h
      · exact h ▸ hp
      · exact hbelow h

theorem inside_of_matched {p : Nat} (hp : p ∈ T.nodes) {e : Nat × Nat}
    (he : e ∈ matched tests T s p) : Inside T e :=
  inside_of_reached hp (mem_of_mem_matched he)

theorem nextParents_inside {parents : List Nat} (hp : ∀ p ∈ parents, p ∈ T.nodes) :
    ∀ p ∈ nextParents tests T s parents, p ∈ T.nodes := by
  intro k hk
  unfold nextParents at hk
  cases hs : s.sType with
  | elementStep => simp [hs] at hk
  | documentStep =>
    simp only [hs] at hk
    obtain ⟨e, he, rfl⟩ := List.mem_map.mp hk
    obtain ⟨p, hpm, hep⟩ := List.mem_flatMap.mp he
    exact (inside_of_matched (hp p hpm) hep).1

theorem parentsAfter_inside {ss : List Step} {parents : List Nat}
    (hp : ∀ p ∈ parents, p ∈ T.nodes) : ∀ p ∈ parentsAfter tests T ss parents, p ∈ T.nodes := by
  induction ss generalizing parents with
  | nil => exact hp
  | cons s ss ih => exact ih (nextParents_inside hp)

/-- **What a path evaluates to** is in the tree. -/
theorem inside_of_evaluate {ss : List Step} (hroot : 0 ∈ T.nodes) {e : Nat × Nat}
    (he : e ∈ evaluate tests T ss s) : Inside T e := by
  have hparents : ∀ p ∈ parentsAfter tests T ss [0], p ∈ T.nodes :=
    parentsAfter_inside (by simpa using hroot)
  unfold evaluate lastNodes at he
  cases hs : s.sType with
  | documentStep =>
    simp only [hs, List.mem_flatMap] at he
    obtain ⟨p, hp, hep⟩ := he
    exact inside_of_matched (hparents p hp) hep
  | elementStep =>
    simp only [hs, List.mem_flatMap] at he
    obtain ⟨p, hp, hep⟩ := he
    exact inside_of_reached (hparents p hp) hep

/-- What is fetched below a renamed node. -/
theorem reached_map (h : Forest.Apart f T) {p : Nat} (hp : p ∈ T.nodes) (pType : PathType) :
    reached (T.map f) (f p) pType = (reached T p pType).map (pair f) := by
  cases pType with
  | absolutePath =>
    simp only [reached, Forest.sonsOf_map h hp, Forest.roots_map, Forest.firstBelow_map,
      List.map_append, List.map_map]
    cases (T.sonsOf p).firstBelow <;> rfl
  | relativePath =>
    simp only [reached, Forest.sonsOf_map h hp, Forest.visit_map, List.map_map]
    rfl

/-- The tests of renamed trees. -/
structure TestsTwin (f : Nat → Nat) (T : Forest Nat) (tests tests' : StepTests) (s : Step) :
    Prop where
  named : ∀ k ∈ T.nodes, tests'.named s (f k) = tests.named s k
  passes : ∀ e, Inside T e → ∀ n, tests'.passes s (pair f e) n = tests.passes s e n

/-- Those that pass, renamed. -/
theorem TestsTwin.filter_zipIdx (ht : TestsTwin f T tests tests' s) {l : List (Nat × Nat)}
    (hl : ∀ e ∈ l, Inside T e) :
    (((l.map (pair f)).zipIdx).filter fun x => tests'.passes s x.1 x.2).map Prod.fst
      = (((l.zipIdx).filter fun x => tests.passes s x.1 x.2).map Prod.fst).map (pair f) := by
  have hpass : ∀ x ∈ l.zipIdx, tests'.passes s (pair f x.1) x.2 = tests.passes s x.1 x.2 := by
    intro x hx
    exact ht.passes x.1 (hl x.1 (List.fst_mem_of_mem_zipIdx hx)) x.2
  rw [List.zipIdx_map, List.filter_map, List.map_map, List.map_map]
  refine congrArg₂ List.map rfl (List.filter_congr ?_)
  exact hpass

theorem matched_map (h : Forest.Apart f T) (ht : TestsTwin f T tests tests' s) {p : Nat}
    (hp : p ∈ T.nodes) : matched tests' (T.map f) s (f p) = (matched tests T s p).map (pair f) := by
  have hnamed : ((reached T p s.pType).map (pair f)).filter (fun e => tests'.named s e.1)
      = ((reached T p s.pType).filter fun e => tests.named s e.1).map (pair f) := by
    rw [List.filter_map]
    refine congrArg (List.map (pair f)) (List.filter_congr ?_)
    intro e he
    exact ht.named e.1 (inside_of_reached hp he).1
  rw [matched, matched, reached_map h hp, hnamed, ht.filter_zipIdx]
  intro e he
  exact inside_of_reached hp (List.mem_filter.mp he).1

/-- Below several nodes. -/
theorem flatMap_renamed {g g' : Nat → List (Nat × Nat)} {parents : List Nat}
    (hg : ∀ p ∈ parents, g' (f p) = (g p).map (pair f)) :
    (parents.map f).flatMap g' = (parents.flatMap g).map (pair f) := by
  rw [List.flatMap_map, List.map_flatMap]
  exact List.flatMap_congr hg

theorem nextParents_map (h : Forest.Apart f T) (ht : TestsTwin f T tests tests' s)
    {parents : List Nat} (hp : ∀ p ∈ parents, p ∈ T.nodes) :
    nextParents tests' (T.map f) s (parents.map f) = (nextParents tests T s parents).map f := by
  unfold nextParents
  cases s.sType with
  | elementStep => rfl
  | documentStep =>
    dsimp only
    rw [flatMap_renamed fun p hpm => matched_map h ht (hp p hpm), List.map_map, List.map_map]
    rfl

theorem parentsAfter_map (h : Forest.Apart f T) {ss : List Step}
    (ht : ∀ s ∈ ss, TestsTwin f T tests tests' s) {parents : List Nat}
    (hp : ∀ p ∈ parents, p ∈ T.nodes) :
    parentsAfter tests' (T.map f) ss (parents.map f) = (parentsAfter tests T ss parents).map f := by
  induction ss generalizing parents with
  | nil => rfl
  | cons s ss ih =>
    rw [parentsAfter, parentsAfter, nextParents_map h (ht s List.mem_cons_self) hp]
    exact ih (fun s' hs' => ht s' (List.mem_cons_of_mem _ hs')) (nextParents_inside hp)

/-- **A path on a renamed tree** finds the renamed nodes. -/
theorem evaluate_map (h : Forest.Apart f T) (hroot : 0 ∈ T.nodes) (h0 : f 0 = 0) {ss : List Step}
    (hss : ∀ s ∈ ss, TestsTwin f T tests tests' s) (ht : TestsTwin f T tests tests' s) :
    evaluate tests' (T.map f) ss s = (evaluate tests T ss s).map (pair f) := by
  have hzero : ∀ p ∈ ([0] : List Nat), p ∈ T.nodes := by simpa using hroot
  have hparents : ∀ p ∈ parentsAfter tests T ss [0], p ∈ T.nodes := parentsAfter_inside hzero
  have hmap := parentsAfter_map h hss hzero
  rw [List.map_cons, List.map_nil, h0] at hmap
  rw [evaluate, evaluate, hmap]
  unfold lastNodes
  cases s.sType with
  | documentStep => exact flatMap_renamed fun p hpm => matched_map h ht (hparents p hpm)
  | elementStep =>
    exact flatMap_renamed (g := fun p => reached T p s.pType) fun p hpm =>
      reached_map h (hparents p hpm) s.pType

theorem joined_map (h : Forest.Apart f T) (ht : TestsTwin f T tests tests' s) {p : Nat}
    (hp : p ∈ T.nodes) : joined tests' (T.map f) s (f p) = (joined tests T s p).map (pair f) := by
  have hsons : ((T.sonsOf p).map f).roots.map (fun k => (k, f p))
      = ((T.sonsOf p).roots.map fun k => (k, p)).map (pair f) := by
    rw [Forest.roots_map, List.map_map, List.map_map]
    rfl
  rw [joined, joined, Forest.sonsOf_map h hp, hsons, ht.filter_zipIdx]
  intro e he
  obtain ⟨k, hk, rfl⟩ := List.mem_map.mp he
  exact ⟨Forest.mem_nodes_of_mem_sonsOf (Forest.mem_nodes_of_mem_roots hk), hp⟩

theorem inside_of_joined {p : Nat} (hp : p ∈ T.nodes) {e : Nat × Nat}
    (he : e ∈ joined tests T s p) : Inside T e := by
  obtain ⟨x, hx, rfl⟩ := List.mem_map.mp he
  obtain ⟨k, hk, hke⟩ := List.mem_map.mp (List.fst_mem_of_mem_zipIdx (List.mem_filter.mp hx).1)
  rw [← hke]
  exact ⟨Forest.mem_nodes_of_mem_sonsOf (Forest.mem_nodes_of_mem_roots hk), hp⟩

end Evaluate

/-! ## 2. Twin catalogs

The ids of twins may differ, since they hold offsets and times.  No name, element or place in the
tree does. -/

/-- `c'` is `c` with other names for the nodes, and with other ids.  Two stores that are sent the
same requests give their documents different indices and ids, and nothing else in which they differ
reaches a client. -/
structure Twin (f : Nat → Nat) (c c' : Catalog) : Prop where
  shape : ∃ F, c.tree = .cons 0 F .nil
  nodup : c.tree.nodes.Nodup
  apart : Forest.Apart f c.tree
  root : f 0 = 0
  tree : c'.tree = c.tree.map f
  name : ∀ k ∈ c.tree.nodes, c'.name (f k) = c.name k
  elements : ∀ k ∈ c.tree.nodes, c'.elements (f k) = c.elements k

/-- The chain does not ask for an id. -/
def WithoutId (chain : List Predicate) : Prop :=
  ∀ p ∈ chain, ∀ operator input, p.value ≠ .byElementValue Name.id operator input

/-- The finding, renamed. -/
def Finding.map (f : Nat → Nat) (found : Finding) : Finding where
  type := found.type
  documents := found.documents.map (pair f)
  elements := found.elements.map fun x => (pair f x.1, x.2)

/-- What was found is in the tree. -/
structure Finding.Inside (T : Forest Nat) (found : Finding) : Prop where
  documents : ∀ e ∈ found.documents, Zgdb.Inside T e
  elements : ∀ x ∈ found.elements, Zgdb.Inside T x.1

section Twins

variable {f : Nat → Nat} {c c' : Catalog} {strtod : CString → StrtodResult} {s : Step}

theorem Twin.root_mem (h : Twin f c c') : 0 ∈ c.tree.nodes := by
  obtain ⟨F, hF⟩ := h.shape
  rw [hF]
  exact List.mem_cons_self

/-- A new catalog is its own twin. -/
theorem twin_new (i i' : DocumentId) : Twin id (.new i) (.new i') where
  shape := ⟨.nil, rfl⟩
  nodup := List.nodup_singleton 0
  apart := fun _ _ _ _ he => he
  root := rfl
  tree := rfl
  name _ _ := rfl
  elements _ _ := rfl

/-- One predicate. -/
theorem Twin.predicateRes (h : Twin f c c') {k : Nat} (hk : k ∈ c.tree.nodes) (n : Nat)
    {v : PredicateValue} (hv : ∀ operator input, v ≠ .byElementValue Name.id operator input) :
    c'.predicateRes strtod (f k) n v = c.predicateRes strtod k n v := by
  cases v with
  | byDocumentNumber index => rfl
  | byElement key1 operator key2 => rfl
  | byElementValue key operator input =>
    have hid : key ≠ Name.id := by
      rintro rfl
      exact hv operator input rfl
    rw [Catalog.predicateRes, Catalog.predicateRes, if_neg hid, if_neg hid, h.elements k hk]

/-- **A chain of predicates** that does not ask for an id. -/
theorem Twin.passes (h : Twin f c c') {k : Nat} (hk : k ∈ c.tree.nodes) (n : Nat)
    {chain : List Predicate} (hchain : WithoutId chain) :
    c'.passes strtod chain (f k) n = c.passes strtod chain k n := by
  rw [Catalog.passes, Catalog.passes]
  split
  · rfl
  · refine List.foldl_ext _ _ _ ?_
    intro generalRes p hp
    rw [Catalog.combine, Catalog.combine, h.predicateRes hk n (hchain p hp)]

theorem Twin.tests (h : Twin f c c') (hs : WithoutId s.pred) :
    TestsTwin f c.tree (c.tests strtod) (c'.tests strtod) s where
  named k hk := by
    show decide (c'.name (f k) = s.stepName) = decide (c.name k = s.stepName)
    rw [h.name k hk]
  passes e he n := h.passes he.1 n hs

theorem withoutId_nil : WithoutId [] := fun _ hp => (by cases hp)

theorem map_ofDocuments (docs : List (Nat × Nat)) :
    Finding.ofDocuments (docs.map (pair f)) = (Finding.ofDocuments docs).map f := by
  cases docs <;> rfl

theorem map_ofElements (els : List ((Nat × Nat) × Element)) :
    Finding.ofElements (els.map fun x => (pair f x.1, x.2)) = (Finding.ofElements els).map f := by
  cases els <;> rfl

/-- **The value of a path** without predicates. -/
theorem Twin.pathValue (h : Twin f c c') {ss : List Step} (hpred : ∀ s ∈ ss, s.pred = []) :
    c'.pathValue strtod ss = (c.pathValue strtod ss).map f := by
  have htests : ∀ s ∈ ss, TestsTwin f c.tree (c.tests strtod) (c'.tests strtod) s := by
    intro s hsm
    exact h.tests ((hpred s hsm).symm ▸ withoutId_nil)
  have hsons : c'.tree.sonsOf 0 = (c.tree.sonsOf 0).map f := by
    have hmap := Forest.sonsOf_map h.apart h.root_mem
    rwa [h.root, ← h.tree] at hmap
  unfold Catalog.pathValue
  split
  · simp only [Finding.map, List.map_cons, List.map_nil, pair, Prod.map, h.root]
  split
  · simp only [Finding.map, List.map_nil, List.map_map, hsons, Forest.roots_map]
    refine congrArg₂ (Finding.mk _) (List.map_congr_left ?_) rfl
    intro k _
    simp only [Function.comp_apply, pair, Prod.map, h.root]
  cases hlast : ss.getLast? with
  | none => rfl
  | some s =>
    have hsm : s ∈ ss := List.mem_of_getLast? hlast
    have heval : evaluate (c'.tests strtod) c'.tree ss.dropLast s
        = (evaluate (c.tests strtod) c.tree ss.dropLast s).map (pair f) := by
      rw [h.tree]
      exact evaluate_map h.apart h.root_mem h.root
        (fun s' hs' => htests s' (List.mem_of_mem_dropLast hs')) (htests s hsm)
    simp only [heval]
    cases s.sType with
    | documentStep => exact map_ofDocuments _
    | elementStep =>
      rw [← map_ofElements]
      refine congrArg Finding.ofElements ?_
      rw [List.flatMap_map, List.map_flatMap]
      refine List.flatMap_congr ?_
      intro e he
      have hmem := (inside_of_evaluate h.root_mem he).1
      have helements : c'.elements (pair f e).1 = c.elements e.1 := h.elements e.1 hmem
      rw [Catalog.elementsNamed, Catalog.elementsNamed, helements, List.map_map]
      rfl

/-- **A search** without predicates. -/
theorem Twin.search (h : Twin f c c') {p : Path} (hpred : ∀ s ∈ p.steps, s.pred = []) :
    c'.search strtod p = (c.search strtod p).map (Finding.map f) := by
  have hsons : (c'.tree.sonsOf 0).roots = (c.tree.sonsOf 0).roots.map f := by
    have hmap := Forest.sonsOf_map h.apart h.root_mem
    rw [h.root, ← h.tree] at hmap
    rw [hmap, Forest.roots_map]
  rw [Catalog.search, Catalog.search, h.pathValue hpred, hsons]
  split
  · rfl
  · simp only [List.map_eq_nil_iff]
    split <;> rfl

theorem inside_ofDocuments {T : Forest Nat} {docs : List (Nat × Nat)}
    (hdocs : ∀ e ∈ docs, Inside T e) : (Finding.ofDocuments docs).Inside T := by
  cases docs with
  | nil => exact ⟨fun _ he => (by cases he), fun _ hx => (by cases hx)⟩
  | cons e docs => exact ⟨hdocs, fun _ hx => (by cases hx)⟩

theorem inside_ofElements {T : Forest Nat} {els : List ((Nat × Nat) × Element)}
    (hels : ∀ x ∈ els, Inside T x.1) : (Finding.ofElements els).Inside T := by
  cases els with
  | nil => exact ⟨fun _ he => (by cases he), fun _ hx => (by cases hx)⟩
  | cons x els => exact ⟨fun _ he => (by cases he), hels⟩

/-- **What a search finds** is in the tree. -/
theorem Catalog.inside_search {found : Finding} (hroot : 0 ∈ c.tree.nodes) {p : Path}
    (hfound : c.search strtod p = some found) : found.Inside c.tree := by
  have hempty : Finding.empty.Inside c.tree :=
    ⟨fun _ he => (by cases he), fun _ hx => (by cases hx)⟩
  rw [Catalog.search] at hfound
  split at hfound
  · obtain rfl := Option.some.inj hfound
    unfold Catalog.pathValue
    split
    · refine ⟨?_, fun _ hx => (by cases hx)⟩
      intro e he
      obtain rfl := List.mem_singleton.mp he
      exact ⟨hroot, hroot⟩
    split
    · refine ⟨?_, fun _ hx => (by cases hx)⟩
      intro e he
      obtain ⟨k, hk, rfl⟩ := List.mem_map.mp he
      exact ⟨Forest.mem_nodes_of_mem_sonsOf (Forest.mem_nodes_of_mem_roots hk), hroot⟩
    cases p.steps.getLast? with
    | none => exact hempty
    | some s =>
      dsimp only
      cases s.sType with
      | documentStep => exact inside_ofDocuments fun e he => inside_of_evaluate hroot he
      | elementStep =>
        refine inside_ofElements ?_
        intro x hx
        obtain ⟨e, he, hx⟩ := List.mem_flatMap.mp hx
        obtain ⟨el, -, rfl⟩ := List.mem_map.mp hx
        exact inside_of_evaluate hroot he
  · rw [Option.ite_none_right_eq_some] at hfound
    obtain rfl := Option.some.inj hfound.2
    exact hempty

end Twins

/-! ## 3. Requests

New documents get nodes that are not in the trees; the renaming is extended by them. -/

section Edits

variable {f : Nat → Nat} {c c' : Catalog} {strtod : CString → StrtodResult}

theorem root_ne_of_fresh {x : Nat} (h : Twin f c c') (hx : x ∉ c.tree.nodes) : 0 ≠ x := by
  rintro rfl
  exact hx h.root_mem

/-- **A creation**, at one place and at the other. -/
theorem Twin.create (h : Twin f c c') {p : Nat} (hp : p ∈ c.tree.nodes) {place place' : Place}
    (hfresh : place.node ∉ c.tree.nodes) (hfresh' : place'.node ∉ c'.tree.nodes)
    (now now' : UInt32) (name : Name) (elements : List Element) :
    Twin (Function.update f place.node place'.node) (c.create now p place name elements)
      (c'.create now' (f p) place' name elements) := by
  have hmem : ∀ {k}, k ∈ (c.tree.insertUnder p place.node).nodes → k = place.node ∨ k
      ∈ c.tree.nodes :=
    (Forest.mem_nodes_insertUnder h.nodup hp).mp
  have hne : ∀ {k}, k ∈ c.tree.nodes → k ≠ place.node := by
    rintro k hk rfl
    exact hfresh hk
  have hne' : ∀ {k}, k ∈ c.tree.nodes → f k ≠ place'.node := by
    intro k hk he
    refine hfresh' (he ▸ ?_)
    rw [h.tree, Forest.nodes_map]
    exact List.mem_map_of_mem hk
  have hapart := h.apart.update hfresh (h.tree ▸ hfresh')
  refine ⟨?_, ?_, ?_, ?_, ?_, ?_, ?_⟩
  · obtain ⟨F, hF⟩ := h.shape
    show ∃ G, c.tree.insertUnder p place.node = _
    rw [hF, Forest.insertUnder]
    split
    · exact ⟨_, rfl⟩
    · exact ⟨_, rfl⟩
  · exact Forest.nodup_insertUnder h.nodup hp hfresh
  · exact hapart.mono fun k hk => hmem hk
  · rw [Function.update_of_ne (root_ne_of_fresh h hfresh), h.root]
  · have hinsert := Forest.insertUnder_map (f := Function.update f place.node place'.node)
      (hapart.mono fun k hk => Or.inr hk) hp place.node
    rw [Forest.map_update hfresh, Function.update_of_ne (hne hp), Function.update_self,
      ← h.tree] at hinsert
    exact hinsert
  · intro k hk
    rcases hmem hk with rfl | hk
    · rw [Function.update_self, (c.create_self now p place name elements).2.1,
        (c'.create_self now' (f p) place' name elements).2.1]
    · rw [Function.update_of_ne (hne hk), (c.create_of_ne now p place name elements (hne hk)).2.1,
        (c'.create_of_ne now' (f p) place' name elements (hne' hk)).2.1, h.name k hk]
  · intro k hk
    rcases hmem hk with rfl | hk
    · rw [Function.update_self, (c.create_self now p place name elements).2.2,
        (c'.create_self now' (f p) place' name elements).2.2]
    · rw [Function.update_of_ne (hne hk), (c.create_of_ne now p place name elements (hne hk)).2.2,
        (c'.create_of_ne now' (f p) place' name elements (hne' hk)).2.2, h.elements k hk]

/-- **A deletion.** -/
theorem Twin.delete (h : Twin f c c') {d : Nat} (hd : d ∈ c.tree.nodes) :
    Twin f (c.delete d) (c'.delete (f d)) := by
  have hzero : f d = 0 ↔ d = 0 := by
    constructor
    · intro he
      exact h.apart hd h.root_mem (he.trans h.root.symm)
    · rintro rfl
      exact h.root
  have hsub : ∀ k ∈ (c.delete d).tree.nodes, k ∈ c.tree.nodes := by
    intro k hk
    rw [Catalog.delete] at hk
    split at hk
    · obtain rfl := List.mem_singleton.mp hk
      exact h.root_mem
    · exact Forest.mem_nodes_of_mem_remove hk
  refine ⟨?_, ?_, ?_, h.root, ?_, ?_, ?_⟩
  · obtain ⟨F, hF⟩ := h.shape
    rw [Catalog.delete]
    split
    · exact ⟨.nil, rfl⟩
    · rename_i hd0
      refine ⟨F.remove d, ?_⟩
      show c.tree.remove d = _
      rw [hF, Forest.remove, if_neg (Ne.symm hd0)]
      rfl
  · rw [Catalog.delete]
    split
    · exact List.nodup_singleton 0
    · exact Forest.nodup_remove h.nodup
  · exact h.apart.mono hsub
  · rw [Catalog.delete, Catalog.delete]
    by_cases hd0 : d = 0
    · rw [if_pos hd0, if_pos (hzero.mpr hd0), Forest.map_cons, h.root]
      rfl
    · rw [if_neg hd0, if_neg (mt hzero.mp hd0), h.tree]
      refine Forest.remove_map (h.apart.mono ?_)
      rintro k (rfl | hk)
      · exact hd
      · exact hk
  · intro k hk
    exact h.name k (hsub k hk)
  · intro k hk
    exact h.elements k (hsub k hk)

variable (strtod) in
/-- **An update.** -/
theorem Twin.update (h : Twin f c c') {k : Nat} (hk : k ∈ c.tree.nodes) (key input : CString) :
    (c.update strtod k key input).1 = (c'.update strtod (f k) key input).1 ∧
      Twin f (c.update strtod k key input).2 (c'.update strtod (f k) key input).2 := by
  rw [Catalog.update, Catalog.update, h.elements k hk]
  split
  · exact ⟨rfl, h⟩
  split
  · exact ⟨rfl, h⟩
  split
  · exact ⟨rfl, h⟩
  rename_i w _
  refine ⟨rfl, h.shape, h.nodup, h.apart, h.root, h.tree, h.name, ?_⟩
  intro j hj
  show Function.update c'.elements (f k) _ (f j) = Function.update c.elements k _ j
  by_cases hjk : j = k
  · rw [hjk, Function.update_self, Function.update_self, h.elements k hk]
  · have hne : f j ≠ f k := fun he => hjk (h.apart hj hk he)
    rw [Function.update_of_ne hne, Function.update_of_ne hjk, h.elements j hj]

end Edits

/-- A JOIN does not ask for an id. -/
def AsksNoId (root : XmlNode) : Prop :=
  xmlGetProp root "type" = some (xmlChar "join") → ∀ node chain,
    findNodeByName [root] "predicate" = some node → createPredicateFromXml node = some chain →
    WithoutId chain

/-- The same result, and twins behind it. -/
def TwinResult {α : Type} (x y : α × Catalog) : Prop := x.1 = y.1 ∧ ∃ f, Twin f x.2 y.2

section Requests

variable {f : Nat → Nat} {c c' : Catalog} {strtod : CString → StrtodResult}
  {sprintfF : UInt64 → CString} {now now' : UInt32} {root : XmlNode}

/-- What the path of a request finds. -/
theorem Twin.find (h : Twin f c c') :
    Agree (fun found found' => found' = found.map f ∧ found.Inside c.tree)
      (c.find ⟨strtod, sprintfF, now⟩ root) (c'.find ⟨strtod, sprintfF, now'⟩ root) := by
  refine .same ?_
  intro p hp
  rw [defined_ok] at hp
  rw [h.search (pred_pathFromXml hp)]
  cases hfound : c.search strtod p with
  | none => exact .error _
  | some found => exact .ok ⟨rfl, c.inside_search h.root_mem hfound⟩

theorem Finding.Inside.head {T : Forest Nat} {found : Finding} (h : found.Inside T) :
    Agree (fun e e' => e' = pair f e ∧ Zgdb.Inside T e) found.head (found.map f).head := by
  have hdocs := h.documents
  unfold Finding.head Finding.map
  cases hd : found.documents with
  | nil => exact .error _
  | cons e docs =>
    rw [hd] at hdocs
    exact .ok ⟨rfl, hdocs e List.mem_cons_self⟩

theorem Twin.add (h : Twin f c c') {place place' : Place} (hfresh : place.node ∉ c.tree.nodes)
    (hfresh' : place'.node ∉ c'.tree.nodes) :
    Agree TwinResult (c.add ⟨strtod, sprintfF, now⟩ place root)
      (c'.add ⟨strtod, sprintfF, now'⟩ place' root) := by
  refine .same ?_
  intro documentNode _
  refine .same ?_
  intro schemaNode _
  refine .same ?_
  intro schema _
  refine h.find.bind ?_
  rintro found _ - - ⟨rfl, hinside⟩
  refine hinside.head.bind ?_
  rintro e _ - - ⟨rfl, he⟩
  refine .same ?_
  intro name _
  split
  · exact .ok ⟨rfl, _, h.create he.1 hfresh hfresh' now now' name schema.elements⟩
  · exact .ok ⟨rfl, f, h⟩

theorem Twin.executeDelete (h : Twin f c c') :
    Agree TwinResult (c.executeDelete ⟨strtod, sprintfF, now⟩ root)
      (c'.executeDelete ⟨strtod, sprintfF, now'⟩ root) := by
  refine h.find.bind ?_
  rintro found _ - - ⟨rfl, hinside⟩
  show Agree _ _ (if found.type = .undefinedResult then _ else _)
  split
  · exact .ok ⟨rfl, f, h⟩
  refine hinside.head.bind ?_
  rintro e _ - - ⟨rfl, he⟩
  exact .ok ⟨rfl, f, h.delete he.1⟩

theorem Twin.executeUpdate (h : Twin f c c') :
    Agree TwinResult (c.executeUpdate ⟨strtod, sprintfF, now⟩ root)
      (c'.executeUpdate ⟨strtod, sprintfF, now'⟩ root) := by
  refine h.find.bind ?_
  rintro found _ - - ⟨rfl, hinside⟩
  show Agree _ _ (if found.type = .undefinedResult then _ else _)
  split
  · exact .ok ⟨rfl, f, h⟩
  refine hinside.head.bind ?_
  rintro e _ - - ⟨rfl, he⟩
  refine .same ?_
  intro name _
  refine .same ?_
  intro newValue _
  obtain ⟨hstatus, htwin⟩ := h.update strtod he.1 name newValue
  exact .ok ⟨hstatus, f, htwin⟩

/-- The names of renamed documents. -/
theorem Twin.names (h : Twin f c c') {es : List (Nat × Nat)} (hes : ∀ e ∈ es, Inside c.tree e) :
    (es.map (pair f)).map (fun e => c'.name e.1) = es.map fun e => c.name e.1 := by
  rw [List.map_map]
  refine List.map_congr_left ?_
  intro e he
  exact h.name e.1 (hes e he).1

/-- **The answer of a FIND request.** -/
theorem Twin.findAnswer (h : Twin f c c') {found : Finding} (hinside : found.Inside c.tree) :
    c'.findAnswer sprintfF (found.map f) = c.findAnswer sprintfF found := by
  obtain ⟨type, documents, elements⟩ := found
  cases type with
  | undefinedResult => rfl
  | documentResult =>
    have hnames := h.names hinside.documents
    simp only [Catalog.findAnswer, Finding.map, hnames]
  | elementResult =>
    have hchildren : (elements.map fun x => (pair f x.1, x.2)).mapM (c'.elementChild sprintfF)
        = elements.mapM (c.elementChild sprintfF) := by
      rw [List.mapM_map]
      refine mapM_congr ?_
      intro x hx
      have hname : c'.name (pair f x.1).1 = c.name x.1.1 := h.name x.1.1 (hinside.elements x hx).1
      simp only [Function.comp_apply, Catalog.elementChild, hname]
    simp only [Catalog.findAnswer, Finding.map, hchildren]

/-- The sons that pass. -/
theorem Twin.join (h : Twin f c c') {found : Finding} (hinside : found.Inside c.tree)
    {chain : List Predicate} (hchain : WithoutId chain) :
    Agree (fun es es' => es' = es.map (pair f) ∧ ∀ e ∈ es, Inside c.tree e)
      (found.head >>= fun head => (.ok (joined (c.tests strtod) c.tree
        (joinStep (c.name head.1) chain) head.1) : Except Crash _))
      ((found.map f).head >>= fun head => .ok (joined (c'.tests strtod) c'.tree
        (joinStep (c'.name head.1) chain) head.1)) := by
  refine hinside.head.bind ?_
  rintro e _ - - ⟨rfl, he⟩
  have hname : c'.name (pair f e).1 = c.name e.1 := h.name e.1 he.1
  refine .ok ⟨?_, fun x hx => inside_of_joined he.1 hx⟩
  rw [hname, h.tree]
  exact joined_map h.apart (h.tests hchain) he.1

theorem Twin.executeJoin (h : Twin f c c') (hid : AsksNoId root)
    (htype : xmlGetProp root "type" = some (xmlChar "join")) :
    Agree (fun es es' => es' = es.map (pair f) ∧ ∀ e ∈ es, Inside c.tree e)
      (c.executeJoin ⟨strtod, sprintfF, now⟩ root)
        (c'.executeJoin ⟨strtod, sprintfF, now'⟩ root) := by
  refine h.find.bind ?_
  rintro found _ - - ⟨rfl, hinside⟩
  refine .same ?_
  intro predicateNode hnode
  refine .same ?_
  intro st _
  by_cases hst : st ≠ 0
  · rw [if_pos hst, if_pos hst]
    refine .same ?_
    intro chain hchain
    rw [defined_ok] at hnode hchain
    exact h.join hinside (hid htype _ _ hnode hchain)
  · rw [if_neg hst, if_neg hst]
    exact h.join hinside withoutId_nil

/-- **A request** to twins has one answer and leaves twins. -/
theorem Twin.execute (h : Twin f c c') (hid : AsksNoId root) {place place' : Place}
    (hfresh : place.node ∉ c.tree.nodes) (hfresh' : place'.node ∉ c'.tree.nodes) :
    Agree TwinResult (c.execute ⟨strtod, sprintfF, now⟩ place root)
      (c'.execute ⟨strtod, sprintfF, now'⟩ place' root) := by
  rw [Catalog.execute, Catalog.execute]
  dsimp only
  split
  · refine (h.add hfresh hfresh').bind ?_
    rintro ⟨status, c1⟩ ⟨status', c1'⟩ - - ⟨heq, htwin⟩
    obtain rfl : status = status' := heq
    exact .ok ⟨rfl, htwin⟩
  split
  · refine h.executeDelete.bind ?_
    rintro ⟨type, c1⟩ ⟨type', c1'⟩ - - ⟨heq, htwin⟩
    obtain rfl : type = type' := heq
    exact .ok ⟨rfl, htwin⟩
  split
  · refine h.executeUpdate.bind ?_
    rintro ⟨status, c1⟩ ⟨status', c1'⟩ - - ⟨heq, htwin⟩
    obtain rfl : status = status' := heq
    exact .ok ⟨rfl, htwin⟩
  split
  · refine h.find.bind ?_
    rintro found _ - - ⟨rfl, hinside⟩
    rw [h.findAnswer hinside]
    refine .same ?_
    intro a _
    exact .ok ⟨rfl, f, h⟩
  split
  · rename_i htype
    refine (h.executeJoin hid htype).bind ?_
    rintro es _ - - ⟨rfl, hes⟩
    rw [h.names hes]
    exact .ok ⟨rfl, f, h⟩
  split
  · refine h.find.bind ?_
    rintro found _ - - ⟨rfl, hinside⟩
    refine hinside.head.bind ?_
    rintro e _ - - ⟨rfl, he⟩
    have hname : c'.name (pair f e).2 = c.name e.2 := h.name e.2 he.2
    rw [hname]
    exact .ok ⟨rfl, f, h⟩
  · exact .ok ⟨rfl, f, h⟩

end Requests

/-! ## 4. Sessions

The renaming grows from request to request, and the answers are equal in each of them, as no answer
shows a node or an id. -/

section Sessions

variable {strtod : CString → StrtodResult} {sprintfF : UInt64 → CString}

/-- **Sessions on twins** have one list of answers, whatever the times and the places are. -/
theorem Twin.serve {requests requests' : List (UInt32 × XmlNode)} {places places' : List Place}
    (hroots : requests'.map Prod.snd = requests.map Prod.snd)
    (hlen : places.length = requests.length) (hlen' : places'.length = requests'.length)
    (hid : ∀ root ∈ requests.map Prod.snd, AsksNoId root) {f : Nat → Nat} {c c' : Catalog}
    (h : Twin f c c') (hfree : FreePlaces strtod sprintfF (requests.zip places) c)
    (hfree' : FreePlaces strtod sprintfF (requests'.zip places') c') :
    Agree TwinResult (Catalog.serve strtod sprintfF (requests.zip places) c)
      (Catalog.serve strtod sprintfF (requests'.zip places') c') := by
  induction requests generalizing requests' places places' f c c' with
  | nil =>
    obtain rfl := List.map_eq_nil_iff.mp hroots
    exact .ok ⟨rfl, f, h⟩
  | cons x requests ih =>
    obtain ⟨x', requests', rfl, hx, hrest⟩ := List.map_eq_cons_iff.mp hroots
    obtain ⟨now, root⟩ := x
    obtain ⟨now', root'⟩ := x'
    obtain rfl : root' = root := hx
    obtain ⟨place, places, rfl⟩ := List.exists_cons_of_length_eq_add_one hlen
    obtain ⟨place', places', rfl⟩ := List.exists_cons_of_length_eq_add_one hlen'
    rw [List.map_cons, List.forall_mem_cons] at hid
    rw [List.zip_cons_cons] at hfree hfree' ⊢
    rw [List.zip_cons_cons, Catalog.serve, Catalog.serve]
    refine (h.execute hid.1 hfree.1 hfree'.1).bind ?_
    rintro ⟨a, c1⟩ ⟨a', c1'⟩ hc hc' ⟨heq, f1, htwin⟩
    obtain rfl : a = a' := heq
    refine (ih hrest (Nat.succ.inj hlen) (Nat.succ.inj hlen') hid.2 htwin (hfree.2 _ _ hc)
      (hfree'.2 _ _ hc')).bind ?_
    rintro ⟨as, c2⟩ ⟨as', c2'⟩ - - ⟨heq', htwin'⟩
    obtain rfl : as = as' := heq'
    exact .ok ⟨rfl, htwin'⟩

end Sessions

section Servers

variable {A B : Type} [BlockSpace A] [BlockSpace B] {env : ServerEnv A} {env' : ServerEnv B}

/-- **Two servers answer alike.**  They are sent the same requests in a session from new stores;
their block spaces, their expansions of the table, and the times at which they serve may be others.
-/
theorem sessions_agree (hstrtod : env'.search.strtod = env.search.strtod)
    (hsprintfF : env'.sprintfF = env.sprintfF) {now now' : UInt32}
    {requests requests' : List (UInt32 × XmlNode)}
    (hroots : requests'.map Prod.snd = requests.map Prod.snd)
    (hserv : ServableSession env requests (init now))
    (hserv' : ServableSession env' requests' (init now'))
    (hid : ∀ root ∈ requests.map Prod.snd, AsksNoId root) :
    (serve env requests (init now)).map Prod.fst
      = (serve env' requests' (init now')).map Prod.fst := by
  obtain ⟨i, hkeeps⟩ := keeps_init (A := A) now
  obtain ⟨i', hkeeps'⟩ := keeps_init (A := B) now'
  obtain ⟨places, hlen, hfree, hagree⟩ := hkeeps.serve hserv
  obtain ⟨places', hlen', hfree', hagree'⟩ := hkeeps'.serve hserv'
  rw [hstrtod, hsprintfF] at hfree' hagree'
  have htwin := (twin_new i i').serve hroots hlen hlen' hid hfree hfree'
  have hall := (hagree.trans htwin).trans hagree'.symm
  generalize serve env requests (init now) = x at hall ⊢
  generalize serve env' requests' (init now') = y at hall ⊢
  cases hall with
  | error crash => rfl
  | ok h =>
    obtain ⟨z', ⟨z, hz, hz', -⟩, hy⟩ := h
    exact congrArg Except.ok ((hz.1.trans hz').trans hy.1.symm)

end Servers

/-- A server over bytes, as the one over records. -/
def flatServer : ServerEnv Nat := ⟨flatEnv.expandIndexes, sampleSearch, fun _ => stringA, 0⟩

/-- A request to both of them, at different times. -/
theorem sessions_agree_addA :
    (serve recordServer [(0, addA fun _ => stringA)] (init 0)).map Prod.fst
      = (serve flatServer [(1, addA fun _ => stringA)] (init 1)).map Prod.fst := by
  have htype : xmlGetProp (addA fun _ => stringA) "type" = some (xmlChar "add") :=
    type_prop (fun _ => stringA) ⟨pathRoot.ast, pathRoot.ast.length⟩ (.add stringA numberA)
  have hserv : ServableSession recordServer [(0, addA fun _ => stringA)] (init 0) :=
    ⟨servable_addA { recordServer with now := 0 }, fun _ _ _ => trivial⟩
  have hserv' : ServableSession flatServer [(1, addA fun _ => stringA)] (init 1) :=
    ⟨servable_addA { flatServer with now := 1 }, fun _ _ _ => trivial⟩
  have hid : ∀ root ∈ [((0 : UInt32), addA fun _ => stringA)].map Prod.snd, AsksNoId root := by
    intro root hroot hjoin
    obtain rfl := List.mem_singleton.mp hroot
    cases Option.some.inj (htype.symm.trans hjoin)
  exact sessions_agree (A := RecordPos) (B := Nat) (by rfl) (by rfl) (by rfl) hserv hserv' hid

end Zgdb
