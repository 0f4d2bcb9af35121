/-
# What the search for a node passes over

`findNodeByName` walks a list of siblings and puts its cursor on the first child of a node once it
has searched below that node, so the siblings behind a node with children are not reached.  Here
the node that is returned is told apart from equal ones by its address, the moves from the start
node that lead to it.

* `findNodeByName_first`: the search returns the first node of the name in document order exactly
  when no node with children has to be passed sideways, except the first of a list of children.
-/
import Zgdb.Xml

namespace Zgdb

/-! ## 1. Addresses and document order

`findNodeByName` returns a pointer.  Two nodes of the tree can look the same, so a node is named by
the way to it. -/

/-- A way from a node pointer: `node->children` is `children`, `node->next` is `next`. -/
inductive Address where
  | here
  | children (address : Address)
  | next (address : Address)
deriving DecidableEq, Repr

/-- The nodes of a forest in document order. -/
def documentOrder : List XmlNode → List (Address × XmlNode)
  | [] => []
  | .text content :: siblings =>
    (.here, .text content) :: (documentOrder siblings).map (Prod.map .next id)
  | .element name props children :: siblings =>
    (.here, .element name props children) :: (documentOrder children).map (Prod.map .children id)
      ++ (documentOrder siblings).map (Prod.map .next id)

theorem documentOrder_cons (node : XmlNode) (siblings : List XmlNode) :
    documentOrder (node :: siblings) = (.here, node)
      :: (documentOrder node.children).map (Prod.map .children id)
      ++ (documentOrder siblings).map (Prod.map .next id) := by
  cases node with
  | text content => simp [documentOrder, XmlNode.children]
  | element name props children => rw [documentOrder, XmlNode.children]

/-- The first node of a forest, in document order, that has the name. -/
def firstNamed (forest : List XmlNode) (nodeName : String) : Option (Address × XmlNode) :=
  (documentOrder forest).find? fun found => found.2.name = nodeName

theorem firstNamed_nil (nodeName : String) : firstNamed [] nodeName = none := by
  simp [firstNamed, documentOrder]

theorem firstNamed_cons_self {node : XmlNode} {nodeName : String} (h : node.name = nodeName)
    (siblings : List XmlNode) : firstNamed (node :: siblings) nodeName = some (.here, node) := by
  simp [firstNamed, documentOrder_cons, h]

theorem firstNamed_cons {node : XmlNode} {nodeName : String} (h : node.name ≠ nodeName)
    (siblings : List XmlNode) : firstNamed (node :: siblings) nodeName
      = ((firstNamed node.children nodeName).map (Prod.map .children id)).or
          ((firstNamed siblings nodeName).map (Prod.map .next id)) := by
  rw [firstNamed, documentOrder_cons, List.cons_append, List.find?_cons_of_neg (by simpa using h),
    List.find?_append, List.find?_map, List.find?_map]
  rfl

/-! ## 2. The search with addresses

The same function, which also says by which way it has come to the node; without the way it is
`findNodeByName`. -/

/-- `findNodeByName`, with the address of the node that is returned. -/
def findNodeAt : List XmlNode → String → Option (Address × XmlNode)
  | [], _ => none
  | node :: siblings, nodeName =>
    if node.name = nodeName then some (.here, node)
    else
      match node with
      | .element _ _ (child :: children) =>
        match findNodeAt (child :: children) nodeName with
        | some found => some (found.map .children id)
        -- the cursor is on the first child
        | none =>
          ((findNodeAt children nodeName).map (Prod.map .next id)).map (Prod.map .children id)
      | _ => (findNodeAt siblings nodeName).map (Prod.map .next id)

theorem findNodeAt_self {node : XmlNode} {nodeName : String} (h : node.name = nodeName)
    (siblings : List XmlNode) : findNodeAt (node :: siblings) nodeName = some (.here, node) := by
  cases node with
  | text content => simp [findNodeAt, h]
  | element name props children => cases children <;> simp [findNodeAt, h]

/-- A node is passed when nothing below it has the name: the search goes on behind its first child,
or behind the node when it has none. -/
theorem findNodeAt_cons {node : XmlNode} {nodeName : String} (h : node.name ≠ nodeName)
    (siblings : List XmlNode) : findNodeAt (node :: siblings) nodeName
      = match node.children with
        | [] => (findNodeAt siblings nodeName).map (Prod.map .next id)
        | child :: children => (findNodeAt (child :: children) nodeName
            |>.or ((findNodeAt children nodeName).map (Prod.map .next id))).map
              (Prod.map .children id) := by
  cases node with
  | text content => rw [findNodeAt, if_neg h, XmlNode.children]; simp
  | element name props children =>
    cases children with
    | nil => rw [findNodeAt, if_neg h, XmlNode.children]; simp
    | cons child children =>
      rw [findNodeAt, if_neg h]
      simp only [XmlNode.children]
      cases findNodeAt (child :: children) nodeName <;> rfl

theorem findNodeByName_eq (forest : List XmlNode) (nodeName : String) :
    findNodeByName forest nodeName = (findNodeAt forest nodeName).map Prod.snd := by
  fun_induction findNodeAt forest nodeName with
  | case1 => simp [findNodeByName]
  | case2 node siblings => exact findNodeByName_self rfl siblings
  | case3 siblings nodeName name props child children found hf h ih =>
    rw [findNodeByName, if_neg h]
    simp [ih, hf]
  | case4 siblings nodeName name props child children hf h ih ih' =>
    rw [findNodeByName, if_neg h]
    simp [ih, hf, ih', Function.comp_def]
  | case5 node siblings nodeName h hleaf ih =>
    cases node with
    | text content => simpa [findNodeByName, h, Function.comp_def] using ih
    | element name props children =>
      cases children with
      | nil => simpa [findNodeByName, h, Function.comp_def] using ih
      | cons child children => exact absurd rfl (hleaf name props child children)

/-- What is returned is a node of the forest with the name. -/
theorem findNodeAt_mem {forest : List XmlNode} {nodeName : String} {found : Address × XmlNode}
    (h : findNodeAt forest nodeName = some found) :
    found ∈ documentOrder forest ∧ found.2.name = nodeName := by
  fun_induction findNodeAt forest nodeName generalizing found with
  | case1 => cases h
  | case2 node siblings =>
    cases h
    exact ⟨by simp [documentOrder_cons], rfl⟩
  | case3 siblings nodeName name props child children found' hf hname ih =>
    cases h
    obtain ⟨hmem, heq⟩ := ih hf
    refine ⟨?_, heq⟩
    rw [documentOrder]
    exact List.mem_append_left _ (List.mem_cons_of_mem _ (List.mem_map_of_mem hmem))
  | case4 siblings nodeName name props child children hf hname ih ih' =>
    rcases Option.map_eq_some_iff.mp h with ⟨_, hnext, rfl⟩
    rcases Option.map_eq_some_iff.mp hnext with ⟨found', hf', rfl⟩
    obtain ⟨hmem, heq⟩ := ih' hf'
    refine ⟨?_, heq⟩
    have hbehind : found'.map .next id ∈ documentOrder (child :: children) := by
      rw [documentOrder_cons]
      exact List.mem_append_right _ (List.mem_map_of_mem hmem)
    rw [documentOrder]
    exact List.mem_append_left _ (List.mem_cons_of_mem _ (List.mem_map_of_mem hbehind))
  | case5 node siblings nodeName hname hleaf ih =>
    rcases Option.map_eq_some_iff.mp h with ⟨found', hf', rfl⟩
    obtain ⟨hmem, heq⟩ := ih hf'
    refine ⟨?_, heq⟩
    rw [documentOrder_cons]
    exact List.mem_append_right _ (List.mem_map_of_mem hmem)

theorem findNodeAt_none {forest : List XmlNode} {nodeName : String}
    (h : firstNamed forest nodeName = none) : findNodeAt forest nodeName = none := by
  rcases hf : findNodeAt forest nodeName with _ | found
  · rfl
  · obtain ⟨hmem, heq⟩ := findNodeAt_mem hf
    exact absurd heq (by simpa using List.find?_eq_none.mp h found hmem)

/-! ## 3. When the first node is found

The cursor is moved down and not back.  What lies behind a node with children is passed over, so the
condition is that no node with children stands between the start and the node, but for the first of
a list. -/

/-- No node that the way goes past sideways has children; the node it starts at may have some when
it is the first of a list of children (`firstChild`). -/
def Clear : Bool → List XmlNode → Address → Prop
  | _, node :: _, .children address => Clear true node.children address
  | firstChild, node :: siblings, .next address =>
    (firstChild = true ∨ node.children = []) ∧ Clear false siblings address
  | _, _, _ => True

theorem Clear.firstChild {forest : List XmlNode} {address : Address}
    (h : Clear false forest address) : Clear true forest address := by
  cases forest with
  | nil => cases address <;> trivial
  | cons node siblings =>
    cases address with
    | here => trivial
    | children address => exact h
    | next address => exact ⟨.inl rfl, h.2⟩

/-- The search goes clear ways only. -/
theorem findNodeAt_clear {forest : List XmlNode} {nodeName : String} {found : Address × XmlNode}
    (h : findNodeAt forest nodeName = some found) : Clear false forest found.1 := by
  fun_induction findNodeAt forest nodeName generalizing found with
  | case1 => cases h
  | case2 node siblings =>
    cases h
    trivial
  | case3 siblings nodeName name props child children found' hf hname ih =>
    cases h
    exact (ih hf).firstChild
  | case4 siblings nodeName name props child children hf hname ih ih' =>
    rcases Option.map_eq_some_iff.mp h with ⟨_, hnext, rfl⟩
    rcases Option.map_eq_some_iff.mp hnext with ⟨found', hf', rfl⟩
    exact ⟨.inl rfl, ih' hf'⟩
  | case5 node siblings nodeName hname hleaf ih =>
    rcases Option.map_eq_some_iff.mp h with ⟨found', hf', rfl⟩
    refine ⟨.inr ?_, ih hf'⟩
    cases node with
    | text content => rfl
    | element name props children =>
      cases children with
      | nil => rfl
      | cons child children => exact absurd rfl (hleaf name props child children)

/-- What is found in a list of children, or in the one without its first, when both are searched
rightly. -/
theorem findNodeAt_children {child : XmlNode} {children : List XmlNode} {nodeName : String}
    {found : Address × XmlNode}
    (hall : ∀ found, firstNamed (child :: children) nodeName = some found →
      Clear false (child :: children) found.1 →
        findNodeAt (child :: children) nodeName = some found)
    (htail : ∀ found, firstNamed children nodeName = some found → Clear false children found.1 →
      findNodeAt children nodeName = some found)
    (h : firstNamed (child :: children) nodeName = some found)
    (hc : Clear true (child :: children) found.1) :
    (findNodeAt (child :: children) nodeName).or
      ((findNodeAt children nodeName).map (Prod.map .next id)) = some found := by
  by_cases hclear : Clear false (child :: children) found.1
  · rw [hall found h hclear, Option.some_or]
  -- the node lies behind a first child that has children
  by_cases hname : child.name = nodeName
  · rw [firstNamed_cons_self hname, Option.some.injEq] at h
    exact absurd (h ▸ trivial) hclear
  rw [firstNamed_cons hname] at h
  rcases Option.or_eq_some_iff.mp h with hbelow | ⟨hbelow, hbehind⟩
  · rcases Option.map_eq_some_iff.mp hbelow with ⟨found', -, rfl⟩
    exact absurd hc hclear
  rcases Option.map_eq_some_iff.mp hbehind with ⟨found', hfound, rfl⟩
  have hnone : firstNamed child.children nodeName = none := Option.map_eq_none_iff.mp hbelow
  have hpassed : findNodeAt (child :: children) nodeName = none := by
    rw [findNodeAt_cons hname]
    rcases hch : child.children with _ | ⟨first, rest⟩
    · exact absurd ⟨.inr hch, hc.2⟩ hclear
    · rw [hch] at hnone
      have hrest : firstNamed rest nodeName = none := by
        refine List.find?_eq_none.mpr fun below hmem => ?_
        have := List.find?_eq_none.mp hnone (below.map .next id) (by
          rw [documentOrder_cons]
          exact List.mem_append_right _ (List.mem_map_of_mem hmem))
        exact this
      simp [findNodeAt_none hnone, findNodeAt_none hrest]
  rw [hpassed, htail found' hfound hc.2]
  rfl

theorem XmlNode.sizeOf_children (node : XmlNode) : sizeOf node.children ≤ sizeOf node := by
  cases node with
  | text content => simp [XmlNode.children]
  | element name props children =>
    simp only [XmlNode.children, XmlNode.element.sizeOf_spec]
    omega

/-- **The first node is found where the way to it is clear.** -/
theorem findNodeAt_of_clear (forest : List XmlNode) {nodeName : String}
    {found : Address × XmlNode} (h : firstNamed forest nodeName = some found)
    (hc : Clear false forest found.1) : findNodeAt forest nodeName = some found := by
  match forest with
  | [] => simp [firstNamed_nil] at h
  | node :: siblings =>
    by_cases hname : node.name = nodeName
    · rw [findNodeAt_self hname, ← h, firstNamed_cons_self hname]
    have hsize := node.sizeOf_children
    rw [firstNamed_cons hname] at h
    rw [findNodeAt_cons hname]
    rcases hch : node.children with _ | ⟨child, children⟩
    · rw [hch, firstNamed_nil, Option.map_none, Option.none_or] at h
      rcases Option.map_eq_some_iff.mp h with ⟨found', hfound, rfl⟩
      simp only
      rw [findNodeAt_of_clear siblings hfound hc.2]
      rfl
    · rw [hch] at h hsize
      rcases Option.or_eq_some_iff.mp h with hbelow | ⟨-, hbehind⟩
      · rcases Option.map_eq_some_iff.mp hbelow with ⟨found', hfound, rfl⟩
        have hc' : Clear true (child :: children) found'.1 := hch ▸ hc
        simp only
        rw [findNodeAt_children (fun _ => findNodeAt_of_clear _) (fun _ => findNodeAt_of_clear _)
          hfound hc']
        rfl
      · rcases Option.map_eq_some_iff.mp hbehind with ⟨found', -, rfl⟩
        rcases hc.1 with hfirst | hleaf
        · cases hfirst
        · rw [hch] at hleaf
          cases hleaf
termination_by sizeOf forest
decreasing_by
  · simp only [List.cons.sizeOf_spec]
    omega
  all_goals
    rw [hch] at hsize
    simp only [List.cons.sizeOf_spec] at hsize ⊢
    omega

/-- **`findNodeByName` finds the first node of the name**, or none when there is none, exactly when
the way to that node goes past no node with children, except the first of a list of children.  Nodes
are told apart by their addresses, since the function returns a pointer; without them it is the
function of the source. -/
theorem findNodeByName_first (forest : List XmlNode) (nodeName : String) :
    findNodeByName forest nodeName = (findNodeAt forest nodeName).map Prod.snd
      ∧ (findNodeAt forest nodeName = firstNamed forest nodeName
        ↔ ∀ found, firstNamed forest nodeName = some found → Clear false forest found.1) := by
  refine ⟨findNodeByName_eq forest nodeName, ?_, ?_⟩
  · intro h found hfound
    exact findNodeAt_clear (h.trans hfound)
  · intro h
    rcases hf : firstNamed forest nodeName with _ | found
    · exact findNodeAt_none hf
    · exact findNodeAt_of_clear forest hf (h found hf)

/-- `<a><x/></a><b/>`: the search for `b` ends below `a`. -/
theorem findNodeByName_passes :
    let forest : List XmlNode := [.element "a" [] [.element "x" [] []], .element "b" [] []]
    findNodeByName forest "b" = none
      ∧ firstNamed forest "b" = some (.next .here, .element "b" [] []) := by
  intro forest
  constructor
  · simp [forest, findNodeByName, XmlNode.name]
  · simp [forest, firstNamed, documentOrder, XmlNode.name]

end Zgdb
