/-
# XML trees

The part of libxml2 that the client and the server use: elements with attributes and children, and
text nodes.  A node pointer is the list of the node and the siblings behind it, NULL is the empty
list.  A document that one side writes is taken to arrive at the other with its elements,
attributes and texts.
-/
import Zgdb.Data

namespace Zgdb

/-- `xmlNode`: a text node, or an element with its `xmlNewProp` attributes in order. -/
inductive XmlNode where
  | text (content : CString)
  | element (name : String) (props : List (String × CString)) (children : List XmlNode)

/-- A string of the source. -/
def xmlChar (s : String) : CString where
  chars := s.toUTF8.data.toList.takeWhile (· ≠ 0)
  noNul h := by simpa using List.mem_takeWhile_imp h

/-- `node->name` -/
def XmlNode.name : XmlNode → String
  | text _ => "text"
  | element name _ _ => name

/-- `node->children` -/
def XmlNode.children : XmlNode → List XmlNode
  | text _ => []
  | element _ _ children => children

/-- `xmlGetProp` -/
def xmlGetProp : XmlNode → String → Option CString
  | .text _, _ => none
  | .element _ props _, name => (props.find? fun p => p.1 = name).map Prod.snd

/-- The characters below a node. -/
def XmlNode.content : XmlNode → List UInt8
  | text content => content.chars
  | element _ _ children => children.flatMap content

/-- `xmlNodeGetContent` -/
def xmlNodeGetContent (node : XmlNode) : CString where
  chars := node.content.takeWhile (· ≠ 0)
  noNul h := by simpa using List.mem_takeWhile_imp h

/-- A text without NUL is its own content. -/
theorem xmlNodeGetContent_eq {node : XmlNode} {s : CString} (h : node.content = s.chars) :
    xmlNodeGetContent node = s := by
  have hnul : node.content.takeWhile (· ≠ 0) = s.chars := by
    rw [h]
    exact List.takeWhile_eq_self_iff.mpr fun c hc => by
      simpa using fun h0 : c = 0 => s.noNul (h0 ▸ hc)
  exact CString.mk.injEq .. ▸ hnul

/-- `xmlNewChild` with a content, which becomes a text node. -/
def textChildren (content : CString) : List XmlNode :=
  if content.chars = [] then [] else [.text content]

/-- `findNodeByName`: the node, what lies below it and its siblings.  When nothing is found below a
node the search goes on behind its first child, not behind the node. -/
def findNodeByName : List XmlNode → String → Option XmlNode
  | [], _ => none
  | node :: siblings, nodeName =>
    if node.name = nodeName then some node
    else
      match node with
      | .element _ _ (child :: children) =>
        match findNodeByName (child :: children) nodeName with
        | some found => some found
        | none => findNodeByName children nodeName
      | _ => findNodeByName siblings nodeName

theorem findNodeByName_self {node : XmlNode} {nodeName : String} (h : node.name = nodeName)
    (siblings : List XmlNode) : findNodeByName (node :: siblings) nodeName = some node := by
  cases node with
  | text content => simp [findNodeByName, h]
  | element name props children => cases children <;> simp [findNodeByName, h]

theorem findNodeByName_text {nodeName : String} (h : nodeName ≠ "text") (content : CString)
    (siblings : List XmlNode) :
    findNodeByName (.text content :: siblings) nodeName = findNodeByName siblings nodeName := by
  simp [findNodeByName, XmlNode.name, Ne.symm h]

/-- What is found below a node. -/
theorem findNodeByName_below {name nodeName : String} {props : List (String × CString)}
    {children siblings : List XmlNode} {found : XmlNode} (h : name ≠ nodeName)
    (hf : findNodeByName children nodeName = some found) :
    findNodeByName (.element name props children :: siblings) nodeName = some found := by
  cases children with
  | nil => simp [findNodeByName] at hf
  | cons child children =>
    rw [findNodeByName, if_neg (by exact h)]
    simp [hf]

/-- A node without children is passed over. -/
theorem findNodeByName_leaf {name nodeName : String} {props : List (String × CString)}
    {siblings : List XmlNode} (h : name ≠ nodeName) :
    findNodeByName (.element name props [] :: siblings) nodeName
      = findNodeByName siblings nodeName := by
  simp [findNodeByName, XmlNode.name, h]

end Zgdb
