/-
# What was written is read

A document that was added shows its elements to whoever asks for them below the document it was
added to, and an element that was updated shows its new value, on every catalog
(`Catalog.reads_added`, `Catalog.reads_updated`).  A query finds the document it works on by a way
through the tree, and the next search goes the same way: an update changes no document on the way,
and a new leaf leaves the first descent of every context on the way as it is (`StillMatched`).

Since users see one catalog, what one of them writes is what the next one reads, with the file
closed and opened again in between (`written_is_read`).
-/
import Zgdb.Client
import Zgdb.Lib.Insertion
import Zgdb.Twins

namespace Zgdb

open Zgdb.Lib

/-! ## 1. Ways through a tree

A document that is found hangs at the end of a way of matches.  A later search that takes the same
way comes to the same document. -/

section Ways

variable {tests tests' : StepTests} {T T' : Forest Nat} {s : Step} {ss : List Step} {p q : Nat}

/-- A match has its number among those with the name. -/
theorem mem_matched_iff {e : Nat × Nat} : e ∈ matched tests T s q ↔
    ∃ n, (e, n) ∈ ((reached T q s.pType).filter fun e => tests.named s e.1).zipIdx ∧
      tests.passes s e n = true := by
  simp only [matched, List.mem_map, List.mem_filter]
  constructor
  · rintro ⟨⟨e', n⟩, ⟨hmem, hpass⟩, rfl⟩
    exact ⟨n, hmem, hpass⟩
  · rintro ⟨n, hmem, hpass⟩
    exact ⟨(e, n), ⟨hmem, hpass⟩, rfl⟩

/-- What is fetched below a node is below it. -/
theorem below_of_reached {pType : PathType} {e : Nat × Nat} (he : e ∈ reached T q pType) :
    e.1 ∈ (T.sonsOf q).nodes := by
  cases pType with
  | absolutePath =>
    rcases List.mem_append.mp he with he | he
    · obtain ⟨k, hk, rfl⟩ := List.mem_map.mp he
      exact Forest.mem_nodes_of_mem_roots hk
    · exact (Forest.mem_of_firstBelow (Option.mem_toList.mp he)).1
  | relativePath =>
    obtain ⟨x, hx, rfl⟩ := List.mem_map.mp he
    exact (Forest.perm_map_visit (T.sonsOf q) q 0).mem_iff.mp (List.mem_map_of_mem hx)

theorem mem_nextParents {k : Nat} : k ∈ nextParents tests T s [q] ↔
    s.sType = .documentStep ∧ ∃ e ∈ matched tests T s q, e.1 = k := by
  unfold nextParents
  cases s.sType <;> simp

/-- The parents go their ways one by one. -/
theorem parentsAfter_flatMap (parents : List Nat) : parentsAfter tests T ss parents =
    parents.flatMap fun q => parentsAfter tests T ss [q] := by
  induction ss generalizing parents with
  | nil => simp [parentsAfter]
  | cons s ss ih =>
    have hnext : nextParents tests T s parents
        = parents.flatMap fun q => nextParents tests T s [q] := by
      unfold nextParents
      cases s.sType with
      | documentStep => simp [List.map_flatMap]
      | elementStep => simp
    rw [parentsAfter, ih, hnext, List.flatMap_assoc]
    refine List.flatMap_congr ?_
    intro q _
    rw [parentsAfter, ih]

theorem parentsAfter_append (parents : List Nat) : parentsAfter tests T (ss ++ [s]) parents =
    nextParents tests T s (parentsAfter tests T ss parents) := by
  induction ss generalizing parents with
  | nil => rfl
  | cons s' ss ih => exact ih _

/-- **A way begins** with a match at the end or above it. -/
theorem mem_parentsAfter_cons : p ∈ parentsAfter tests T (s :: ss) [q] ↔
    s.sType = .documentStep ∧ ∃ e ∈ matched tests T s q, p ∈ parentsAfter tests T ss [e.1] := by
  rw [parentsAfter, parentsAfter_flatMap, List.mem_flatMap]
  simp only [mem_nextParents]
  constructor
  · rintro ⟨r, ⟨hs, e, he, rfl⟩, hp⟩
    exact ⟨hs, e, he, hp⟩
  · rintro ⟨hs, e, he, hp⟩
    exact ⟨e.1, ⟨hs, e, he, rfl⟩, hp⟩

/-- A way leads to the node it begins at, or below it. -/
theorem below_of_parentsAfter (hn : T.nodes.Nodup) (hq : q ∈ T.nodes)
    (hp : p ∈ parentsAfter tests T ss [q]) : p = q ∨ p ∈ (T.sonsOf q).nodes := by
  induction ss generalizing q with
  | nil => exact .inl (List.mem_singleton.mp hp)
  | cons s ss ih =>
    obtain ⟨-, e, he, hp⟩ := mem_parentsAfter_cons.mp hp
    have hbelow := below_of_reached (mem_of_mem_matched he)
    rcases ih (Forest.mem_nodes_of_mem_sonsOf hbelow) hp with rfl | hp
    · exact .inr hbelow
    · exact .inr (Forest.mem_sonsOf_trans hn hq hbelow hp)

/-- Whatever a step matches on the way to `p` is still matched. -/
def StillMatched (tests tests' : StepTests) (T T' : Forest Nat) (p : Nat) (s : Step) : Prop :=
  ∀ q ∈ T.nodes, ∀ e ∈ matched tests T s q, p = e.1 ∨ p ∈ (T.sonsOf e.1).nodes →
    ∃ e' ∈ matched tests' T' s q, e'.1 = e.1

/-- **The way to `p`** is still there. -/
theorem parentsAfter_kept (hn : T.nodes.Nodup)
    (hkept : ∀ s ∈ ss, StillMatched tests tests' T T' p s)
    (hq : q ∈ T.nodes) (hp : p ∈ parentsAfter tests T ss [q]) :
    p ∈ parentsAfter tests' T' ss [q] := by
  induction ss generalizing q with
  | nil => exact hp
  | cons s ss ih =>
    obtain ⟨hs, e, he, hp⟩ := mem_parentsAfter_cons.mp hp
    have hmem := Forest.mem_nodes_of_mem_sonsOf (below_of_reached (mem_of_mem_matched he))
    have hbelow := below_of_parentsAfter hn hmem hp
    obtain ⟨e', he', heq⟩ := hkept s List.mem_cons_self q hq e he hbelow
    refine mem_parentsAfter_cons.mpr ⟨hs, e', he', ?_⟩
    rw [heq]
    exact ih (fun s' hs' => hkept s' (List.mem_cons_of_mem _ hs')) hmem hp

end Ways

/-! ## 2. Values of paths

A path with an element step at the end: which documents it comes to, and which elements it finds
there. -/

section Values

variable {strtod : CString → StrtodResult} {c : Catalog} {ss : List Step} {s : Step}

theorem Finding.ofElements_of_mem {els : List ((Nat × Nat) × Element)}
    {x : (Nat × Nat) × Element} (hx : x ∈ els) :
    Finding.ofElements els = ⟨.elementResult, [], els⟩ :=
  if_neg (List.ne_nil_of_mem hx)

/-- A path that ends in an element step is not answered at once. -/
theorem not_isBarePath_element (hs : s.sType = .elementStep) (pType : PathType) :
    ¬ isBarePath ⟨ss ++ [s], (ss ++ [s]).length⟩ pType := by
  rintro ⟨hsize, s', hmem, hdoc, -⟩
  obtain rfl : ss = [] := by simpa using hsize
  rw [List.nil_append, List.mem_singleton] at hmem
  rw [hmem, hs] at hdoc
  cases hdoc

/-- **The elements with a name** below the nodes that a path leads to. -/
theorem Catalog.pathValue_element (hs : s.sType = .elementStep) :
    c.pathValue strtod (ss ++ [s]) = .ofElements (((parentsAfter (c.tests strtod) c.tree ss
      [0]).flatMap fun p => reached c.tree p s.pType).flatMap (c.elementsNamed s)) := by
  rw [pathValue, if_neg (not_isBarePath_element hs _), if_neg (not_isBarePath_element hs _),
    List.getLast?_concat, List.dropLast_concat]
  simp only [hs, evaluate, lastNodes]

/-- What is read below a node on the way. -/
theorem Catalog.found_element (hs : s.sType = .elementStep) {p : Nat} {e : Nat × Nat}
    (el : Element) (hp : p ∈ parentsAfter (c.tests strtod) c.tree ss [0])
    (he : e ∈ reached c.tree p s.pType) (hel : el ∈ c.elements e.1) (hkey : el.key = s.stepName) :
    ∃ els, c.found (c.pathValue strtod (ss ++ [s])) = .elements els ∧ (el, c.name e.1) ∈ els := by
  have hmem : (e, el) ∈ ((parentsAfter (c.tests strtod) c.tree ss [0]).flatMap
      fun p => reached c.tree p s.pType).flatMap (c.elementsNamed s) := by
    refine List.mem_flatMap.mpr ⟨e, List.mem_flatMap.mpr ⟨p, hp, he⟩, ?_⟩
    exact List.mem_map.mpr ⟨el, List.mem_filter.mpr ⟨hel, by simpa using hkey⟩, rfl⟩
  rw [pathValue_element hs, Finding.ofElements_of_mem hmem]
  exact ⟨_, rfl, List.mem_map.mpr ⟨(e, el), hmem, rfl⟩⟩

/-- **The first document that is found** was matched on some way. -/
theorem Catalog.head_matched {e : Nat × Nat}
    (habs : ¬ isBarePath ⟨ss ++ [s], (ss ++ [s]).length⟩ .absolutePath)
    (hrel : ¬ isBarePath ⟨ss ++ [s], (ss ++ [s]).length⟩ .relativePath)
    (hhead : (c.pathValue strtod (ss ++ [s])).head = .ok e) :
    s.sType = .documentStep ∧ ∃ p ∈ parentsAfter (c.tests strtod) c.tree ss [0],
      e ∈ matched (c.tests strtod) c.tree s p := by
  rw [pathValue, if_neg habs, if_neg hrel, List.getLast?_concat, List.dropLast_concat] at hhead
  simp only [evaluate, lastNodes] at hhead
  cases hs : s.sType with
  | documentStep =>
    simp only [hs, Finding.ofDocuments] at hhead
    split at hhead
    · cases hhead
    · rename_i hne
      obtain ⟨e', es, hes⟩ := List.exists_cons_of_ne_nil hne
      rw [Finding.head, hes] at hhead
      obtain rfl := Except.ok.inj hhead
      have hmem : e' ∈ (parentsAfter (c.tests strtod) c.tree ss [0]).flatMap
          (matched (c.tests strtod) c.tree s) := hes ▸ List.mem_cons_self
      obtain ⟨p, hp, he⟩ := List.mem_flatMap.mp hmem
      exact ⟨rfl, p, hp, he⟩
  | elementStep =>
    simp only [hs, Finding.ofElements] at hhead
    split at hhead <;> cases hhead

/-- It was fetched by the last step, also when the path is answered at once. -/
theorem Catalog.head_reached {e : Nat × Nat}
    (habs : ¬ isBarePath ⟨ss ++ [s], (ss ++ [s]).length⟩ .absolutePath)
    (hhead : (c.pathValue strtod (ss ++ [s])).head = .ok e) :
    ∃ p ∈ parentsAfter (c.tests strtod) c.tree ss [0], e ∈ reached c.tree p s.pType := by
  by_cases hrel : isBarePath ⟨ss ++ [s], (ss ++ [s]).length⟩ .relativePath
  · rw [pathValue, if_neg habs, if_pos hrel] at hhead
    obtain ⟨hsize, s', hmem, -, hpType, -⟩ := hrel
    obtain rfl : ss = [] := by simpa using hsize
    obtain rfl : s' = s := List.mem_singleton.mp hmem
    have he : e ∈ (c.tree.sonsOf 0).roots.map fun k => (k, 0) := by
      simp only [Finding.head] at hhead
      split at hhead
      · cases hhead
      · rename_i head rest hlist
        obtain rfl := Except.ok.inj hhead
        exact hlist ▸ List.mem_cons_self
    obtain ⟨k, hk, rfl⟩ := List.mem_map.mp he
    refine ⟨0, List.mem_singleton_self 0, ?_⟩
    rw [hpType]
    refine List.mem_map.mpr ⟨(k, 0, 0), ?_, rfl⟩
    rw [Forest.visit_eq]
    exact List.mem_append_left _ (List.mem_map_of_mem hk)
  · obtain ⟨-, p, hp, he⟩ := head_matched habs hrel hhead
    exact ⟨p, hp, mem_of_mem_matched he⟩

end Values

/-! ## 3. Updates

An update changes a value, and a way without predicates does not look at values. -/

section Update

variable {strtod : CString → StrtodResult} {c : Catalog} {ss : List Step} {s : Step} {p k : Nat}

/-- Predicates look at one document. -/
theorem Catalog.passes_congr {c' : Catalog} (hid : c'.id k = c.id k)
    (hels : c'.elements k = c.elements k) (pred : List Predicate) (n : Nat) :
    c'.passes strtod pred k n = c.passes strtod pred k n := by
  have hres : ∀ v, c'.predicateRes strtod k n v = c.predicateRes strtod k n v := by
    intro v
    cases v <;> simp only [predicateRes, hid, hels]
  have hcombine : c'.combine strtod k n = c.combine strtod k n := by
    funext generalRes p
    simp only [combine, hres]
  rw [passes, passes, hcombine]

/-- An update changes no document on the way to the one that is updated. -/
theorem Catalog.stillMatched_set (hn : c.tree.nodes.Nodup) (hk : k ∈ (c.tree.sonsOf p).nodes)
    (key : CString) (v : ElementValue) :
    StillMatched (c.tests strtod) ((c.set k key v).tests strtod) c.tree c.tree p s := by
  intro q _ e he hp
  have hmem : e.1 ∈ c.tree.nodes :=
    Forest.mem_nodes_of_mem_sonsOf (below_of_reached (mem_of_mem_matched he))
  have hne : e.1 ≠ k := by
    have hbelow : k ∈ (c.tree.sonsOf e.1).nodes := by
      rcases hp with rfl | hp
      · exact hk
      · exact Forest.mem_sonsOf_trans hn hmem hp hk
    intro heq
    rw [heq] at hbelow hmem
    exact Forest.notMem_sonsOf hn hmem hbelow
  obtain ⟨n, hnumber, hpass⟩ := mem_matched_iff.mp he
  refine ⟨e, mem_matched_iff.mpr ⟨n, hnumber, ?_⟩, rfl⟩
  have hels : (c.set k key v).elements e.1 = c.elements e.1 := Function.update_of_ne hne _ _
  have hid : (c.set k key v).id e.1 = c.id e.1 := rfl
  exact (passes_congr hid hels _ _).trans hpass

/-- **What was updated is read.**  The steps may have any predicates. -/
theorem Catalog.reads_updated (hn : c.tree.nodes.Nodup) (h0 : 0 ∈ c.tree.nodes) {e : Nat × Nat}
    (habs : ¬ isBarePath ⟨ss ++ [s], (ss ++ [s]).length⟩ .absolutePath)
    (hhead : (c.pathValue strtod (ss ++ [s])).head = .ok e) {key input : CString} {c' : Catalog}
    (hupdate : c.update strtod e.1 key input = (.updateOk, c')) :
    ∃ el ∈ c.elements e.1, key.chars = el.key.chars ∧ ∃ v, convertInput strtod input el.value
      = some v ∧ ∃ els, c'.found (c'.pathValue strtod
        (ss ++ [⟨s.pType, el.key, .elementStep, []⟩])) = .elements els ∧
        (⟨el.key, v⟩, c.name e.1) ∈ els := by
  unfold update at hupdate
  split at hupdate
  · cases hupdate
  split at hupdate
  · cases hupdate
  rename_i el hfind
  split at hupdate
  · cases hupdate
  rename_i v hconvert
  obtain ⟨-, rfl⟩ := Prod.mk.inj hupdate
  have hel := List.mem_of_find?_eq_some hfind
  have hkey : key.chars = el.key.chars := by simpa using List.find?_some hfind
  refine ⟨el, hel, hkey, v, hconvert, ?_⟩
  obtain ⟨p, hp, he⟩ := head_reached habs hhead
  have hp' : p ∈ parentsAfter ((c.set e.1 key v).tests strtod) c.tree ss [0] :=
    parentsAfter_kept hn (fun s' _ => stillMatched_set hn (below_of_reached he) key v) h0 hp
  have hels : (c.set e.1 key v).elements e.1 = (c.elements e.1).map
      fun e => if key.chars = e.key.chars then ⟨e.key, v⟩ else e := Function.update_self ..
  refine found_element (c := c.set e.1 key v) (s := ⟨s.pType, el.key, .elementStep, []⟩) rfl
    ⟨el.key, v⟩ hp' he ?_ rfl
  rw [hels]
  exact List.mem_map.mpr ⟨el, hel, if_pos hkey⟩

end Update

/-! ## 4. New documents

A new leaf comes in front of its brothers and has no sons.  It can be one match more, and the one
document that an absolute step fetches too much is the same as before. -/

section Create

variable {strtod : CString → StrtodResult} {c : Catalog} {ss : List Step} {s : Step} {p : Nat}
  {now : UInt32} {place : Place} {name : Name} {elements : List Element}

/-- What is fetched on the way to `p` is still fetched. -/
theorem reached_insertUnder {T : Forest Nat} {q x : Nat} (hn : T.nodes.Nodup) (hx : x ∉ T.nodes)
    (hq : q ∈ T.nodes) {pType : PathType} {e : Nat × Nat} (he : e ∈ reached T q pType)
    (hp : p = e.1 ∨ p ∈ (T.sonsOf e.1).nodes) : e ∈ reached (T.insertUnder p x) q pType := by
  have hbelow := below_of_reached he
  have hpq : p ∈ (T.sonsOf q).nodes := by
    rcases hp with rfl | hp
    · exact hbelow
    · exact Forest.mem_sonsOf_trans hn hq hbelow hp
  have hqp : q ≠ p := by
    rintro rfl
    exact Forest.notMem_sonsOf hn hq hpq
  have hsons := Forest.sonsOf_insertUnder_of_ne hn hx hqp hq
  cases pType with
  | absolutePath =>
    rw [reached, hsons, Forest.roots_insertUnder, List.mem_append]
    rcases List.mem_append.mp he with he | he
    · exact .inl he
    · -- `p` is not among the roots, below which the first descent goes
      have hfirst := Option.mem_toList.mp he
      have hsonsNodup := Forest.nodup_sonsOf (d := q) hn
      have hroots : p ∉ (T.sonsOf q).roots := by
        rcases hp with rfl | hp
        · exact Forest.notMem_roots_of_firstBelow hsonsNodup hfirst
        · rw [← Forest.sonsOf_sonsOf hn hq hbelow] at hp
          exact Forest.notMem_roots_of_mem_sonsOf hsonsNodup hbelow hp
      rw [Forest.firstBelow_insertUnder hroots]
      exact .inr he
  | relativePath =>
    obtain ⟨x, hx, rfl⟩ := List.mem_map.mp he
    rw [reached, hsons]
    exact List.mem_map.mpr ⟨x, Forest.visit_insertUnder q 0 hx, rfl⟩

/-- A step without predicates still matches on the way to `p`. -/
theorem Catalog.stillMatched_create (hn : c.tree.nodes.Nodup) (hplace : place.node ∉ c.tree.nodes)
    (hs : s.pred = []) : StillMatched (c.tests strtod)
      ((c.create now p place name elements).tests strtod) c.tree
      (c.create now p place name elements).tree p s := by
  intro q hq e he hp
  have hreached := mem_of_mem_matched he
  have hmem : e.1 ∈ c.tree.nodes := Forest.mem_nodes_of_mem_sonsOf (below_of_reached hreached)
  have hne : e.1 ≠ place.node := fun h => hplace (h ▸ hmem)
  obtain ⟨n, hnumber, -⟩ := mem_matched_iff.mp he
  have hnamed : c.name e.1 = s.stepName := by
    simpa [tests] using (List.mem_filter.mp (List.fst_mem_of_mem_zipIdx hnumber)).2
  have hfiltered : e ∈ (reached (c.create now p place name elements).tree q s.pType).filter
      fun e => ((c.create now p place name elements).tests strtod).named s e.1 := by
    refine List.mem_filter.mpr ⟨reached_insertUnder hn hplace hq hreached hp, ?_⟩
    simpa [tests, (create_of_ne c now p place name elements hne).2.1] using hnamed
  obtain ⟨n', hn'⟩ := List.mem_iff_getElem?.mp hfiltered
  refine ⟨e, mem_matched_iff.mpr ⟨n', List.mk_mem_zipIdx_iff_getElem?.mpr hn', ?_⟩, rfl⟩
  simp [tests, passes, hs]

/-- **What was added is read**, below the document that the way leads to. -/
theorem Catalog.reads_added (hn : c.tree.nodes.Nodup) (h0 : 0 ∈ c.tree.nodes)
    (hplace : place.node ∉ c.tree.nodes) (hplain : ∀ s ∈ ss, s.pred = [])
    (hp : p ∈ parentsAfter (c.tests strtod) c.tree ss [0]) {el : Element} (hel : el ∈ elements) :
    ∃ els, (c.create now p place name elements).found
        ((c.create now p place name elements).pathValue strtod
          (ss ++ [⟨.absolutePath, el.key, .elementStep, []⟩])) = .elements els ∧
      (el, name) ∈ els := by
  have hpmem : p ∈ c.tree.nodes := parentsAfter_inside (by simpa using h0) p hp
  have hp' : p ∈ parentsAfter ((c.create now p place name elements).tests strtod)
      (c.create now p place name elements).tree ss [0] :=
    parentsAfter_kept hn (fun s hs => stillMatched_create hn hplace (hplain s hs)) h0 hp
  have hsons : ((c.create now p place name elements).tree.sonsOf p).roots
      = place.node :: (c.tree.sonsOf p).roots := by
    show ((c.tree.insertUnder p place.node).sonsOf p).roots = _
    rw [Forest.sonsOf_insertUnder_self hn hpmem, Forest.roots_cons]
  have he : (place.node, p) ∈ reached (c.create now p place name elements).tree
      p .absolutePath := by
    rw [reached, hsons]
    exact List.mem_append_left _ (List.mem_map_of_mem List.mem_cons_self)
  obtain ⟨-, hname, hels⟩ := create_self c now p place name elements
  obtain ⟨els, hfound, hmem⟩ := found_element (c := c.create now p place name elements)
    (s := ⟨.absolutePath, el.key, .elementStep, []⟩) (e := (place.node, p)) rfl el hp' he
    (hels.symm ▸ hel) rfl
  exact ⟨els, hfound, hname ▸ hmem⟩

end Create

/-! ## 5. Rooted catalogs

Nodes of a tree have no meaning of their own.  A catalog is rooted when its root is the node that
every search begins at; all requests keep this. -/

/-- One root, which has no elements. -/
structure Catalog.Rooted (c : Catalog) : Prop where
  shape : ∃ F, c.tree = .cons 0 F .nil
  nodup : c.tree.nodes.Nodup
  bare : c.elements 0 = []

/-- What only reads. -/
def Demand.Reads : Demand → Prop
  | .find => True
  | .join _ => True
  | .parent => True
  | _ => False

section Rooted

variable {strtod : CString → StrtodResult} {c c' : Catalog} {env : CatalogEnv} {place : Place}
  {q : Query} {ans : Answer}

theorem Catalog.rooted_new (id : DocumentId) : (Catalog.new id).Rooted :=
  ⟨⟨.nil, rfl⟩, List.nodup_singleton 0, rfl⟩

/-- A catalog is its own twin. -/
theorem twin_self (h : c.Rooted) : Twin id c c where
  shape := h.shape
  nodup := h.nodup
  apart := fun _ _ _ _ he => he
  root := rfl
  tree := (Forest.map_id _).symm
  name _ _ := rfl
  elements _ _ := rfl

theorem Twin.rooted {f : Nat → Nat} (h : Twin f c c') (hbare : c.elements 0 = []) : c.Rooted :=
  ⟨h.shape, h.nodup, hbare⟩

theorem Catalog.Rooted.create (h : c.Rooted) {p : Nat} (hp : p ∈ c.tree.nodes)
    (hplace : place.node ∉ c.tree.nodes) (now : UInt32) (name : Name) (elements : List Element) :
    (c.create now p place name elements).Rooted := by
  have hne := root_ne_of_fresh (twin_self h) hplace
  refine ((twin_self h).create hp hplace hplace now now name elements).rooted ?_
  rw [(c.create_of_ne now p place name elements hne).2.2, h.bare]

theorem Catalog.Rooted.delete (h : c.Rooted) {d : Nat} (hd : d ∈ c.tree.nodes) :
    (c.delete d).Rooted :=
  ((twin_self h).delete hd).rooted h.bare

theorem Catalog.Rooted.update (h : c.Rooted) {k : Nat} (hk : k ∈ c.tree.nodes)
    (key input : CString) : (c.update strtod k key input).2.Rooted := by
  refine ((twin_self h).update strtod hk key input).2.rooted ?_
  rw [Catalog.update]
  split
  · exact h.bare
  split
  · exact h.bare
  rename_i el hfind
  split
  · exact h.bare
  · -- an element was found, so that `k` is not the root
    have hne : 0 ≠ k := by
      rintro rfl
      rw [h.bare] at hfind
      cases hfind
    exact (Function.update_of_ne hne _ _).trans h.bare

/-- The first document that is found is in the tree. -/
theorem Catalog.Rooted.head (h : c.Rooted) {ss : List Step} {e : Nat × Nat}
    (hhead : (c.pathValue strtod ss).head = .ok e) : e.1 ∈ c.tree.nodes := by
  have hsearch : c.search strtod ⟨ss, ss.length⟩ = some (c.pathValue strtod ss) := if_pos rfl
  have hinside := Catalog.inside_search (twin_self h).root_mem hsearch
  unfold Finding.head at hhead
  split at hhead
  · cases hhead
  · rename_i head rest hlist
    obtain rfl := Except.ok.inj hhead
    exact (hinside.documents head (hlist ▸ List.mem_cons_self)).1

/-- **A query** leaves a rooted catalog. -/
theorem Catalog.Rooted.ask (h : c.Rooted) (hplace : place.node ∉ c.tree.nodes)
    (hask : c.ask env place q = .ok (ans, c')) : c'.Rooted := by
  rw [Catalog.ask] at hask
  cases hdemand : q.demand with
  | add name elements =>
    simp only [hdemand] at hask
    obtain ⟨e, hhead, hret⟩ := bind_ok.mp hask
    obtain ⟨-, rfl⟩ := Prod.mk.inj (Except.ok.inj hret)
    exact h.create (h.head hhead) hplace _ _ _
  | delete =>
    simp only [hdemand] at hask
    split at hask
    · obtain ⟨-, rfl⟩ := Prod.mk.inj (Except.ok.inj hask)
      exact h
    · obtain ⟨e, hhead, hret⟩ := bind_ok.mp hask
      obtain ⟨-, rfl⟩ := Prod.mk.inj (Except.ok.inj hret)
      exact h.delete (h.head hhead)
  | update elName value =>
    simp only [hdemand] at hask
    split at hask
    · obtain ⟨-, rfl⟩ := Prod.mk.inj (Except.ok.inj hask)
      exact h
    · obtain ⟨e, hhead, hret⟩ := bind_ok.mp hask
      obtain ⟨-, rfl⟩ := Prod.mk.inj (Except.ok.inj hret)
      exact h.update (h.head hhead) elName value
  | find =>
    simp only [hdemand] at hask
    obtain ⟨-, rfl⟩ := Prod.mk.inj (Except.ok.inj hask)
    exact h
  | join chain =>
    simp only [hdemand] at hask
    obtain ⟨e, -, hret⟩ := bind_ok.mp hask
    obtain ⟨-, rfl⟩ := Prod.mk.inj (Except.ok.inj hret)
    exact h
  | parent =>
    simp only [hdemand] at hask
    obtain ⟨e, -, hret⟩ := bind_ok.mp hask
    obtain ⟨-, rfl⟩ := Prod.mk.inj (Except.ok.inj hret)
    exact h

/-- What only reads leaves the catalog as it is. -/
theorem Catalog.ask_reads (hq : q.demand.Reads) (hask : c.ask env place q = .ok (ans, c')) :
    c' = c := by
  rw [Catalog.ask] at hask
  cases hdemand : q.demand with
  | add name elements =>
    rw [hdemand] at hq
    cases hq
  | delete =>
    rw [hdemand] at hq
    cases hq
  | update elName value =>
    rw [hdemand] at hq
    cases hq
  | find =>
    simp only [hdemand] at hask
    exact (Prod.mk.inj (Except.ok.inj hask)).2.symm
  | join chain =>
    simp only [hdemand] at hask
    obtain ⟨e, -, hret⟩ := bind_ok.mp hask
    exact (Prod.mk.inj (Except.ok.inj hret)).2.symm
  | parent =>
    simp only [hdemand] at hask
    obtain ⟨e, -, hret⟩ := bind_ok.mp hask
    exact (Prod.mk.inj (Except.ok.inj hret)).2.symm

end Rooted

/-! ## 6. Users

From catalogs to what is printed: the reply that reads the element, behind one that wrote it and any
that only read. -/

section Converse

variable {strtod : CString → StrtodResult} {sprintfF : UInt64 → CString} {c c' : Catalog}
  {l l' : List (Typed × Place)} {outs : List (List UInt8)}

theorem Catalog.reply_ok {env : CatalogEnv} {place : Place} {q : Query} {out : List UInt8}
    (hreply : c.reply env place q = .ok (out, c')) :
    ∃ ans, c.ask env place q = .ok (ans, c') ∧ ans.printed env.sprintfF = .ok out := by
  obtain ⟨⟨ans, c1⟩, hask, hrest⟩ := bind_ok.mp hreply
  obtain ⟨out', hprinted, hret⟩ := bind_ok.mp hrest
  obtain ⟨rfl, rfl⟩ := Prod.mk.inj (Except.ok.inj hret)
  exact ⟨ans, hask, hprinted⟩

theorem Catalog.converse_cons {x : Typed} {place : Place}
    (hrun : Catalog.converse strtod sprintfF ((x, place) :: l) c = .ok (outs, c')) :
    ∃ out c1 outs', c.reply ⟨strtod, sprintfF, x.asked⟩ place x.query = .ok (out, c1) ∧
      Catalog.converse strtod sprintfF l c1 = .ok (outs', c') ∧ outs = out :: outs' := by
  obtain ⟨⟨out, c1⟩, hreply, hrest⟩ := bind_ok.mp hrun
  obtain ⟨⟨outs', c2⟩, hconverse, hret⟩ := bind_ok.mp hrest
  obtain ⟨rfl, rfl⟩ := Prod.mk.inj (Except.ok.inj hret)
  exact ⟨out, c1, outs', hreply, hconverse, rfl⟩

/-- **A conversation and another one** behind it, which begins with a rooted catalog. -/
theorem Catalog.Rooted.converse_split (h : c.Rooted)
    (hfree : FreeAsked strtod sprintfF (l ++ l') c)
    (hrun : Catalog.converse strtod sprintfF (l ++ l') c = .ok (outs, c')) :
    ∃ outs1 c1 outs2, Catalog.converse strtod sprintfF l c = .ok (outs1, c1) ∧
      outs1.length = l.length ∧ c1.Rooted ∧ FreeAsked strtod sprintfF l' c1 ∧
      Catalog.converse strtod sprintfF l' c1 = .ok (outs2, c') ∧ outs = outs1 ++ outs2 := by
  induction l generalizing c outs with
  | nil => exact ⟨[], c, outs, rfl, rfl, h, hfree, hrun, rfl⟩
  | cons x l ih =>
    obtain ⟨x, place⟩ := x
    obtain ⟨hplace, hrest⟩ := hfree
    obtain ⟨out, c1, outs', hreply, hconverse, rfl⟩ := converse_cons hrun
    obtain ⟨ans, hask, -⟩ := reply_ok hreply
    obtain ⟨outs1, c2, outs2, hfirst, hlen, hrooted, hfree', hsecond, rfl⟩ :=
      ih (h.ask hplace hask) (hrest out c1 hreply) hconverse
    refine ⟨out :: outs1, c2, outs2, ?_, by simp [hlen], hrooted, hfree', hsecond, rfl⟩
    simp only [Catalog.converse, hreply, ok_bind, hfirst]
    rfl

/-- A conversation of those who only read. -/
theorem Catalog.converse_reads (hreads : ∀ x ∈ l, x.1.query.demand.Reads)
    (hrun : Catalog.converse strtod sprintfF l c = .ok (outs, c')) : c' = c := by
  induction l generalizing c outs with
  | nil => exact (Prod.mk.inj (Except.ok.inj hrun)).2.symm
  | cons x l ih =>
    obtain ⟨x, place⟩ := x
    obtain ⟨out, c1, outs', hreply, hconverse, rfl⟩ := converse_cons hrun
    obtain ⟨ans, hask, -⟩ := reply_ok hreply
    rw [List.forall_mem_cons] at hreads
    rw [ih hreads.2 hconverse, ask_reads hreads.1 hask]

end Converse

/-- What is printed of an answer to FIND, with the line of this element.  Other elements of the same
key may be printed beside it. -/
def ShowsElement (sprintfF : UInt64 → CString) (out : List UInt8) (x : Element × Name) : Prop :=
  ∃ (lines : List (List UInt8)) (line : List UInt8), out = bytes "FIND:\n" ++ lines.flatten ∧
    line ∈ lines ∧ elementLine sprintfF x = .ok line

/-- The steps to the documents of a path; to the root there are none. -/
def Query.way (q : Query) : List Step :=
  if isBarePath ⟨q.steps, q.steps.length⟩ .absolutePath then [] else q.steps

section Replies

variable {env env' : CatalogEnv} {place place' : Place} {c c1 c2 : Catalog} {q : Query}
  {out out' : List UInt8}

/-- **An element that is found** has its line. -/
theorem Catalog.reply_shows {steps : List Step} {els : List (Element × Name)} {x : Element × Name}
    (hreply : c.reply env place ⟨.find, steps⟩ = .ok (out, c1))
    (hfound : c.found (c.pathValue env.strtod steps) = .elements els) (hx : x ∈ els) :
    ShowsElement env.sprintfF out x := by
  obtain ⟨ans, hask, hprinted⟩ := reply_ok hreply
  obtain ⟨rfl, rfl⟩ := Prod.mk.inj (Except.ok.inj hask)
  rw [hfound, Answer.printed] at hprinted
  cases hlines : els.mapM (elementLine env.sprintfF) with
  | error e =>
    rw [hlines] at hprinted
    cases hprinted
  | ok lines =>
    rw [hlines] at hprinted
    obtain ⟨line, hmem, hline⟩ := mem_of_mapM_ok hlines hx
    exact ⟨lines, line, (Except.ok.inj hprinted).symm, hmem, hline⟩

/-- The way of a path without predicates leads to what it finds first. -/
theorem Catalog.head_on_way {e : Nat × Nat} (hnonempty : q.steps ≠ [])
    (hrel : ¬ isBarePath ⟨q.steps, q.steps.length⟩ .relativePath) {strtod : CString → StrtodResult}
    (hhead : (c.pathValue strtod q.steps).head = .ok e) :
    e.1 ∈ parentsAfter (c.tests strtod) c.tree q.way [0] := by
  rw [Query.way]
  split
  · rename_i habs
    rw [pathValue, if_pos habs] at hhead
    obtain rfl := Except.ok.inj hhead
    exact List.mem_singleton_self 0
  · rename_i habs
    obtain ⟨ss, s, hsteps⟩ := (List.eq_nil_or_concat' q.steps).resolve_left hnonempty
    rw [hsteps] at habs hrel hhead ⊢
    obtain ⟨hs, p, hp, he⟩ := head_matched habs hrel hhead
    rw [parentsAfter_append, nextParents, hs]
    exact List.mem_map_of_mem (List.mem_flatMap.mpr ⟨p, hp, he⟩)

/-- **What was added is shown.** -/
theorem Catalog.Rooted.shows_added (h : c.Rooted) (hplace : place.node ∉ c.tree.nodes)
    {name : Name} {elements : List Element} (hdemand : q.demand = .add name elements)
    (hnonempty : q.steps ≠ []) (hplain : ∀ s ∈ q.steps, s.pred = [])
    (hrel : ¬ isBarePath ⟨q.steps, q.steps.length⟩ .relativePath)
    (hreply : c.reply env place q = .ok (out, c1)) {el : Element} (hel : el ∈ elements)
    (hstrtod : env'.strtod = env.strtod)
    (hreply' : c1.reply env' place' ⟨.find, q.way ++ [⟨.absolutePath, el.key, .elementStep, []⟩]⟩
      = .ok (out', c2)) :
    out = bytes "CREATE:\nCREATE OK\n" ∧ ShowsElement env'.sprintfF out' (el, name) := by
  obtain ⟨ans, hask, hprinted⟩ := reply_ok hreply
  rw [Catalog.ask] at hask
  simp only [hdemand] at hask
  obtain ⟨e, hhead, hret⟩ := bind_ok.mp hask
  obtain ⟨rfl, rfl⟩ := Prod.mk.inj (Except.ok.inj hret)
  have hwayPlain : ∀ s ∈ q.way, s.pred = [] := by
    intro s hs
    rw [Query.way] at hs
    split at hs
    · cases hs
    · exact hplain s hs
  obtain ⟨els, hfound, hmem⟩ := reads_added h.nodup (twin_self h).root_mem hplace hwayPlain
    (head_on_way hnonempty hrel hhead) hel
  refine ⟨?_, reply_shows hreply' (hstrtod ▸ hfound) hmem⟩
  rw [← Except.ok.inj hprinted]
  decide

/-- An update that succeeds is answered with this text, and no other one is. -/
theorem updateOk_of_text {status : UpdateElementStatus} {sprintfF : UInt64 → CString}
    (h : (Answer.update status).printed sprintfF = .ok (bytes "UPDATE:\nUPDATE OK\n")) :
    status = .updateOk := by
  have htext := Except.ok.inj h
  revert htext
  cases status <;> decide

/-- **What was updated is shown.** -/
theorem Catalog.Rooted.shows_updated (h : c.Rooted) {key input : CString}
    (hdemand : q.demand = .update key input) {ss : List Step} {s : Step}
    (hsteps : q.steps = ss ++ [s])
    (hreply : c.reply env place q = .ok (bytes "UPDATE:\nUPDATE OK\n", c1)) {name : Name}
    (hname : name.chars = key.chars) (hstrtod : env'.strtod = env.strtod)
    (hreply' : c1.reply env' place' ⟨.find, ss ++ [⟨s.pType, name, .elementStep, []⟩]⟩
      = .ok (out', c2)) :
    ∃ old v document, convertInput env.strtod input old = some v ∧
      ShowsElement env'.sprintfF out' (⟨name, v⟩, document) := by
  obtain ⟨ans, hask, hprinted⟩ := reply_ok hreply
  rw [Catalog.ask] at hask
  simp only [hdemand] at hask
  split at hask
  · obtain ⟨rfl, -⟩ := Prod.mk.inj (Except.ok.inj hask)
    cases updateOk_of_text hprinted
  obtain ⟨e, hhead, hret⟩ := bind_ok.mp hask
  obtain ⟨rfl, rfl⟩ := Prod.mk.inj (Except.ok.inj hret)
  have hok := updateOk_of_text hprinted
  have hupdate : c.update env.strtod e.1 key input
      = (.updateOk, (c.update env.strtod e.1 key input).2) := by
    rw [← hok]
  have habs : ¬ isBarePath ⟨ss ++ [s], (ss ++ [s]).length⟩ .absolutePath := by
    -- the root has no elements to update
    intro habs
    rw [hsteps, pathValue, if_pos habs] at hhead
    obtain rfl := Except.ok.inj hhead
    rw [Catalog.update, h.bare] at hok
    split at hok <;> cases hok
  rw [hsteps] at hhead
  obtain ⟨el, -, hkey, v, hconvert, els, hfound, hmem⟩ :=
    reads_updated h.nodup (twin_self h).root_mem habs hhead hupdate
  obtain rfl : name = el.key := Name.eq_iff.mpr (hname.trans hkey)
  exact ⟨el.value, v, _, hconvert, reply_shows hreply' (hstrtod ▸ hfound) hmem⟩

end Replies

/-- Plain steps arrive without predicates. -/
theorem pred_of_plain {first : List AstStep} {ss : List Step} (h : List.Forall₂ SameStep first ss)
    (hp : ∀ a ∈ first, a.Plain) : ∀ s ∈ ss, s.pred = [] := by
  induction h with
  | nil =>
    intro s hs
    cases hs
  | cons h _ ih =>
    rw [List.forall_mem_cons] at hp ⊢
    refine ⟨?_, ih hp.2⟩
    have hpred := h.pred
    rw [hp.1.1] at hpred
    exact List.forall₂_nil_left_iff.mp hpred

theorem Means.steps_ne_nil {a : Ast} {q : Query} (h : Means a q) : q.steps ≠ [] := by
  intro hnil
  have hsteps := h.steps
  rw [hnil] at hsteps
  exact h.nonempty (List.forall₂_nil_right_iff.mp hsteps)

section Users

variable {env : ServerEnv Nat} {clients : List Client} {earlier between : List Typed} {x y : Typed}

/-- A conversation in which one user follows another one and some who only read. -/
theorem Catalog.Rooted.converse_around {strtod : CString → StrtodResult}
    {sprintfF : UInt64 → CString} {c c' : Catalog} {l : List (Typed × Place)}
    {all : List (List UInt8)} (h : c.Rooted)
    (hl : l.map Prod.fst = earlier ++ x :: (between ++ [y]))
    (hbetween : ∀ z ∈ between, z.query.demand.Reads) (hfree : FreeAsked strtod sprintfF l c)
    (hrun : Catalog.converse strtod sprintfF l c = .ok (all, c')) :
    ∃ (outs : List (List UInt8)) (out : List UInt8) (outs' : List (List UInt8)) (out' : List UInt8)
      (c1 c2 c3 : Catalog) (place place' : Place), all = outs ++ out :: (outs' ++ [out']) ∧
      outs.length = earlier.length ∧ outs'.length = between.length ∧ c1.Rooted ∧
      place.node ∉ c1.tree.nodes ∧
      c1.reply ⟨strtod, sprintfF, x.asked⟩ place x.query = .ok (out, c2) ∧
      c2.reply ⟨strtod, sprintfF, y.asked⟩ place' y.query = .ok (out', c3) := by
  obtain ⟨l1, rest, rfl, hl1, hrest⟩ := List.map_eq_append_iff.mp hl
  obtain ⟨⟨x', place⟩, rest', rfl, hx', hrest'⟩ := List.map_eq_cons_iff.mp hrest
  obtain ⟨l2, last, rfl, hl2, hlast⟩ := List.map_eq_append_iff.mp hrest'
  obtain ⟨⟨y', place'⟩, tail, rfl, hy', htail⟩ := List.map_eq_cons_iff.mp hlast
  obtain rfl := List.map_eq_nil_iff.mp htail
  obtain rfl : x' = x := hx'
  obtain rfl : y' = y := hy'
  -- the catalog before the first one of the two, and behind
  obtain ⟨outs, c1, all1, -, hlen1, hrooted, hfree1, hconverse1, rfl⟩ :=
    h.converse_split hfree hrun
  obtain ⟨out, c2, all2, hreply, hconverse2, rfl⟩ := Catalog.converse_cons hconverse1
  obtain ⟨ans, hask, -⟩ := Catalog.reply_ok hreply
  obtain ⟨outs', c3, all3, hreads, hlen2, -, -, hconverse3, rfl⟩ :=
    (hrooted.ask hfree1.1 hask).converse_split (hfree1.2 out c2 hreply) hconverse2
  obtain rfl : c3 = c2 := by
    refine Catalog.converse_reads ?_ hreads
    intro z hz
    exact hbetween z.1 (hl2 ▸ List.mem_map_of_mem hz)
  obtain ⟨out', c4, all4, hreply', hend, rfl⟩ := Catalog.converse_cons hconverse3
  obtain ⟨rfl, -⟩ := Prod.mk.inj (Except.ok.inj hend)
  refine ⟨outs, out, outs', out', c1, c3, c4, place, place', rfl, ?_, ?_, hrooted, hfree1.1, hreply,
    hreply'⟩
  · rw [hlen1, ← hl1, List.length_map]
  · rw [hlen2, ← hl2, List.length_map]

/-- **What was written is read.**  Behind any users, one user adds a document or updates an element,
others may read, and one looks below the same path for the element: it is printed for that user,
with the name of the document that was added, or with the new value.  The server closes the file and
opens it again between any two of them. -/
theorem written_is_read (hexp : env.expandIndexes = expandIndexes)
    (hx : List.Forall₂ (Connects env.sprintfF) (earlier ++ x :: (between ++ [y])) clients)
    (hserv : ServableClients env clients none) (hbetween : ∀ z ∈ between, z.query.demand.Reads) :
    ∀ answers path, serveClients env clients none = .ok (answers, path) →
      ∃ outs out outs' out', answers.flatten.mapM printAnswer
          = some (outs ++ out :: (outs' ++ [out'])) ∧
        outs.length = earlier.length ∧ outs'.length = between.length ∧
        (∀ name elements, x.query.demand = .add name elements →
          ¬ isBarePath ⟨x.query.steps, x.query.steps.length⟩ .relativePath → ∀ el ∈ elements,
          y.query = ⟨.find, x.query.way ++ [⟨.absolutePath, el.key, .elementStep, []⟩]⟩ →
          out = bytes "CREATE:\nCREATE OK\n" ∧ ShowsElement env.sprintfF out' (el, name)) ∧
        (∀ key input ss s name, x.query.demand = .update key input → x.query.steps = ss ++ [s] →
          name.chars = key.chars →
          y.query = ⟨.find, ss ++ [⟨s.pType, name, .elementStep, []⟩]⟩ →
          out = bytes "UPDATE:\nUPDATE OK\n" →
          ∃ old v document, convertInput env.search.strtod input old = some v ∧
            ShowsElement env.sprintfF out' (⟨name, v⟩, document)) := by
  obtain ⟨id, places, hlen, hfree, hagree⟩ := hserv.seen hexp hx
  intro answers path hrun
  rw [hrun] at hagree
  obtain ⟨⟨all, c⟩, hconverse, hprint, -⟩ := hagree.of_ok
  dsimp only at hprint
  have hfst : ((earlier ++ x :: (between ++ [y])).zip places).map Prod.fst
      = earlier ++ x :: (between ++ [y]) := List.map_fst_zip (Nat.le_of_eq hlen.symm)
  obtain ⟨outs, out, outs', out', c1, c2, c3, place, place', rfl, hlen1, hlen2, hrooted, hplace,
    hreply, hreply'⟩ := (Catalog.rooted_new id).converse_around hfst hbetween hfree hconverse
  refine ⟨outs, out, outs', out', hprint, hlen1, hlen2, ?_, ?_⟩
  · intro name elements hdemand hrel el hel hy
    rw [hy] at hreply'
    refine hrooted.shows_added hplace hdemand x.means.steps_ne_nil
      (pred_of_plain x.means.steps x.means.plain) hrel hreply hel ?_ hreply'
    rfl
  · rintro key input ss s name hdemand hsteps hname hy rfl
    rw [hy] at hreply'
    refine hrooted.shows_updated hdemand hsteps hreply hname ?_ hreply'
    rfl

end Users

/-! ## 7. A sample

The two users of `Client.lean`, and what the second of them reads. -/

/-- The catalog with the document that `typedAdd` adds. -/
def addedA (id : DocumentId) (place : Place) : Catalog :=
  (Catalog.new id).create 0 0 place keyA [⟨keyA, .int 7⟩]

/-- Its number is found. -/
theorem pathValue_addedA (strtod : CString → StrtodResult) (id : DocumentId) (place : Place) :
    (addedA id place).pathValue strtod [⟨.absolutePath, keyA, .elementStep, []⟩]
      = ⟨.elementResult, [], [((place.node, 0), ⟨keyA, .int 7⟩)]⟩ := by
  have helements : (addedA id place).elements place.node = [⟨keyA, .int 7⟩] :=
    ((Catalog.new id).create_self 0 0 place keyA [⟨keyA, .int 7⟩]).2.2
  have hnamed : (addedA id place).elementsNamed ⟨.absolutePath, keyA, .elementStep, []⟩
      (place.node, 0) = [((place.node, 0), ⟨keyA, .int 7⟩)] := by
    rw [Catalog.elementsNamed, helements]
    rfl
  have hvalue : (addedA id place).pathValue strtod ([] ++ [⟨.absolutePath, keyA, .elementStep, []⟩])
      = .ofElements ([(place.node, 0)].flatMap
        ((addedA id place).elementsNamed ⟨.absolutePath, keyA, .elementStep, []⟩)) :=
    Catalog.pathValue_element rfl
  rw [List.flatMap_singleton, hnamed] at hvalue
  exact hvalue

/-- The answer with its name, as it is printed. -/
theorem reply_addedA (env : CatalogEnv) (id : DocumentId) (place place' : Place) :
    ∃ out, (addedA id place).reply env place' typedFind.query = .ok (out, addedA id place) := by
  have hname : (addedA id place).name place.node = keyA :=
    ((Catalog.new id).create_self 0 0 place keyA [⟨keyA, .int 7⟩]).2.1
  have hfound : (addedA id place).found
      ((addedA id place).pathValue env.strtod [⟨.absolutePath, keyA, .elementStep, []⟩])
        = .elements [(⟨keyA, .int 7⟩, keyA)] := by
    rw [pathValue_addedA]
    exact congrArg (fun name => Answer.elements [(⟨keyA, .int 7⟩, name)]) hname
  have hask : (addedA id place).ask env place' typedFind.query
      = .ok (.elements [(⟨keyA, .int 7⟩, keyA)], addedA id place) :=
    congrArg (fun ans => Except.ok (ans, addedA id place)) hfound
  have hshown : (ElementValue.int 7).shown env.sprintfF = .ok ("INT", sprintfD 7) :=
    congrArg (Except.map fun value => ("INT", value)) (if_pos (length_sprintfD 7))
  obtain ⟨line, hline⟩ : ∃ line, elementLine env.sprintfF (⟨keyA, .int 7⟩, keyA) = .ok line := by
    rw [elementLine, hshown]
    exact ⟨_, rfl⟩
  have hprinted : (Answer.elements [(⟨keyA, .int 7⟩, keyA)]).printed env.sprintfF
      = .ok (bytes "FIND:\n" ++ [line].flatten) := by
    rw [Answer.printed, List.mapM_cons, hline]
    rfl
  refine ⟨bytes "FIND:\n" ++ [line].flatten, ?_⟩
  simp only [Catalog.reply, hask, ok_bind, hprinted]
  rfl

/-- Both users are answered. -/
theorem addThenFind_runs :
    ∃ answers path, serveClients fileServer addThenFind none = .ok (answers, path) := by
  obtain ⟨id, places, hlen, -, hagree⟩ := servable_addThenFind.seen rfl connects_addThenFind
  obtain ⟨place, place', rfl⟩ := List.length_eq_two.mp hlen
  have hadd : (Catalog.new id).reply ⟨fileServer.search.strtod, fileServer.sprintfF, 0⟩ place
      typedAdd.query = .ok (bytes "CREATE:\n" ++ (bytes "CREATE OK" ++ bytes "\n"),
        addedA id place) :=
    rfl
  obtain ⟨out, hfind⟩ :=
    reply_addedA ⟨fileServer.search.strtod, fileServer.sprintfF, 1⟩ id place place'
  have hconverse : Catalog.converse fileServer.search.strtod fileServer.sprintfF
      ([typedAdd, typedFind].zip [place, place']) (.new id)
        = .ok ([bytes "CREATE:\n" ++ (bytes "CREATE OK" ++ bytes "\n"), out], addedA id place) := by
    simp only [List.zip_cons_cons, Catalog.converse, typedAdd, typedFind] at hadd hfind ⊢
    simp only [hadd, ok_bind, hfind]
    rfl
  rw [hconverse] at hagree
  obtain ⟨⟨answers, path⟩, hrun, -⟩ := hagree.of_ok_right
  exact ⟨answers, path, hrun⟩

/-- One user adds a document, and the next one looks for its number. -/
theorem written_is_read_addThenFind : ∃ answers path out out',
    serveClients fileServer addThenFind none = .ok (answers, path) ∧
      answers.flatten.mapM printAnswer = some [out, out'] ∧
      out = bytes "CREATE:\nCREATE OK\n" ∧
      ShowsElement fileServer.sprintfF out' (⟨keyA, .int 7⟩, keyA) := by
  have hx : List.Forall₂ (Connects fileServer.sprintfF) ([] ++ typedAdd :: ([] ++ [typedFind]))
      addThenFind := connects_addThenFind
  obtain ⟨answers, path, hrun⟩ := addThenFind_runs
  obtain ⟨outs, out, outs', out', hprint, hlen, hlen', hadded, -⟩ :=
    written_is_read rfl hx servable_addThenFind (fun z hz => (by cases hz)) answers path hrun
  obtain rfl := List.length_eq_zero_iff.mp hlen
  obtain rfl := List.length_eq_zero_iff.mp hlen'
  have hway : typedAdd.query.way = [] := if_pos (by decide)
  have hquery : typedFind.query
      = ⟨.find, typedAdd.query.way ++ [⟨.absolutePath, keyA, .elementStep, []⟩]⟩ := by
    rw [hway]
    rfl
  obtain ⟨hout, hout'⟩ := hadded keyA [⟨keyA, .int 7⟩] rfl (by decide) ⟨keyA, .int 7⟩
    List.mem_cons_self hquery
  exact ⟨answers, path, out, out', hrun, hprint, hout, hout'⟩

end Zgdb
