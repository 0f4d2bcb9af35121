/-
# What the user sees

The client prints the answer that it gets (`printAnswer` of `zpathXml.c`).  A run of the client
reads one query, sends it and prints one answer, so that users who run it one after the other talk
to one catalog: what is printed is what their queries are answered there (`users_see_catalog`), from
the text that each of them types, through both sides and the file on the disk.
-/
import Zgdb.Connections
import Zgdb.Queries
import Zgdb.Scanning

namespace Zgdb

open Zgdb.Lib

/-! ## 1. Printing

The client goes by the attribute `type` of the answer and prints what it finds in the children.
`none` stands for a child that is missing where it is followed. -/

/-- `printInfo`; the content of NULL is NULL, which `printf` must not get. -/
def printInfo (child : List XmlNode) : Option (List UInt8) :=
  child.head?.map fun child => (xmlNodeGetContent child).chars ++ bytes "\n"

/-- `printDoc` -/
def printDoc (child : List XmlNode) : List UInt8 :=
  child.flatMap fun temp => bytes "Document: " ++ (xmlNodeGetContent temp).chars ++ bytes "\n"

/-- The body of the loop of `printEl`; a property that is not there is NULL. -/
def printElement (temp : XmlNode) : Option (List UInt8) := do
  let type ← xmlGetProp temp "type"
  let value ← xmlGetProp temp "value"
  let doc ← xmlGetProp temp "document"
  return bytes "Element: " ++ (xmlNodeGetContent temp).chars ++ bytes ", type: " ++ type.chars
    ++ bytes ", value: " ++ value.chars ++ bytes ", doc: " ++ doc.chars ++ bytes "\n"

/-- `printEl` -/
def printEl (child : List XmlNode) : Option (List UInt8) :=
  (child.mapM printElement).map List.flatten

/-- `printAnswer` -/
def printAnswer (root : XmlNode) : Option (List UInt8) :=
  let string := xmlGetProp root "type"
  if string = some (xmlChar "createStatus") then
    (printInfo root.children).map (bytes "CREATE:\n" ++ ·)
  else if string = some (xmlChar "deleteStatus") then
    (printInfo root.children).map (bytes "DELETE:\n" ++ ·)
  else if string = some (xmlChar "updateStatus") then
    (printInfo root.children).map (bytes "UPDATE:\n" ++ ·)
  else if string = some (xmlChar "findStatus") then
    let pathSizeChar := root.children.head?.map xmlNodeGetContent
    if pathSizeChar = some (xmlChar "DOCUMENT") then
      some (bytes "FIND:\n" ++ printDoc root.children.tail)
    else if pathSizeChar = some (xmlChar "ELEMENT") then
      (printEl root.children.tail).map (bytes "FIND:\n" ++ ·)
    else (printInfo root.children).map (bytes "FIND:\n" ++ ·)
  else if string = some (xmlChar "joinStatus") then
    some (bytes "JOIN:\n" ++ printDoc root.children)
  else if string = some (xmlChar "parentStatus") then
    some (bytes "PARENT:\n" ++ printDoc root.children)
  else some []

/-! ## 2. Answers as they are printed

What a user reads of an answer, without the XML in between; it is what the client prints for the XML
that the server makes of the answer. -/

def CreateStatus.text : CreateStatus → String
  | createOk => "CREATE OK"
  | outOfIndex => "OUT OF INDEX"
  | createFailed => "CREATE FAILED"

def ResultType.deleteText : ResultType → String
  | undefinedResult => "DOCUMENT NOT FOUND"
  | documentResult => "DOCUMENT DELETED"
  | elementResult => "WTF (ELEMENT?)"

def UpdateElementStatus.text : UpdateElementStatus → String
  | updateOk => "UPDATE OK"
  | elementNotFound => "ELEMENT NOT FOUND"
  | invalidName => "INVALID NAME"
  | typeParseError => "TYPE PARSE ERROR"
  | documentNotFound => "DOCUMENT NOT FOUND"

/-- A line for each name. -/
def nameLines (names : List Name) : List UInt8 :=
  names.flatMap fun name => bytes "Document: " ++ name.chars ++ bytes "\n"

/-- The type of a value and how it is written; it is printed into 50 bytes unless it is a text. -/
def ElementValue.shown (sprintfF : UInt64 → CString) : ElementValue →
    Except Crash (String × CString)
  | int v => (sizeChar (sprintfD v)).map fun value => ("INT", value)
  | text t => .ok ("TEXT", t.data)
  | double v => (sizeChar (sprintfF v)).map fun value => ("DOUBLE", value)
  | boolean v => (sizeChar (sprintfZu v.toNat)).map fun value => ("BOOLEAN", value)

/-- The line of an element. -/
def elementLine (sprintfF : UInt64 → CString) (x : Element × Name) : Except Crash (List UInt8) :=
  (x.1.value.shown sprintfF).map fun shown =>
    bytes "Element: " ++ x.1.key.chars ++ bytes ", type: " ++ bytes shown.1 ++ bytes ", value: "
      ++ shown.2.chars ++ bytes ", doc: " ++ x.2.chars ++ bytes "\n"

/-- An answer as the user reads it. -/
def Answer.printed (sprintfF : UInt64 → CString) : Answer → Except Crash (List UInt8)
  | create status => .ok (bytes "CREATE:\n" ++ (bytes status.text ++ bytes "\n"))
  | delete type => .ok (bytes "DELETE:\n" ++ (bytes type.deleteText ++ bytes "\n"))
  | update status => .ok (bytes "UPDATE:\n" ++ (bytes status.text ++ bytes "\n"))
  | nothing => .ok (bytes "FIND:\n" ++ (bytes "UNDEFINED RESULT" ++ bytes "\n"))
  | documents names => .ok (bytes "FIND:\n" ++ nameLines names)
  | elements els =>
    (els.mapM (elementLine sprintfF)).map fun lines => bytes "FIND:\n" ++ lines.flatten
  | join names => .ok (bytes "JOIN:\n" ++ nameLines names)
  | parent name => .ok (bytes "PARENT:\n" ++ nameLines [name])

section Printing

variable (sprintfF : UInt64 → CString)

/-- The lines of documents. -/
theorem printDoc_nameChildren (names : List Name) : printDoc (nameChildren names)
    = nameLines names := by
  rw [printDoc, nameChildren, nameLines, List.flatMap_map]
  refine List.flatMap_congr ?_
  intro name _
  have hcontent : xmlNodeGetContent (newChild "document" ⟨name.chars, name.noNul⟩ [])
      = ⟨name.chars, name.noNul⟩ := xmlNodeGetContent_textChildren _ _
  rw [hcontent]

theorem xmlNodeGetContent_newChild (name : String) (s : CString) (props : List (String × CString)) :
    xmlNodeGetContent (newChild name s props) = s := by
  refine xmlNodeGetContent_eq ?_
  by_cases h : s.chars = [] <;> simp [newChild, XmlNode.content, textChildren, h]

/-- A status is printed as its text. -/
theorem printInfo_info {text : String} (h : (xmlChar text).chars = bytes text)
    (children : List XmlNode) :
    printInfo (info text :: children) = some (bytes text ++ bytes "\n") := by
  rw [printInfo, info, List.head?_cons, Option.map_some, xmlNodeGetContent_newChild, h]

/-- The attributes of an element, as they are shown. -/
theorem elementProps_shown (v : ElementValue) :
    Agree (fun props shown => props = [("type", xmlChar shown.1), ("value", shown.2)] ∧
      (xmlChar shown.1).chars = bytes shown.1) (elementProps sprintfF (some v))
        (v.shown sprintfF) := by
  have hsize : ∀ (type : String) (s : CString), (xmlChar type).chars = bytes type →
      Agree (fun props shown => props = [("type", xmlChar shown.1), ("value", shown.2)] ∧
        (xmlChar shown.1).chars = bytes shown.1)
        (sizeChar s >>= fun value => .ok [("type", xmlChar type), ("value", value)])
        ((sizeChar s).map fun value => (type, value)) := by
    intro type s htype
    unfold sizeChar
    split
    · exact .ok ⟨rfl, htype⟩
    · exact .error _
  cases v with
  | int v => exact hsize "INT" _ (by decide)
  | text t =>
    have htext : (xmlChar "TEXT").chars = bytes "TEXT" := by decide
    exact .ok ⟨rfl, htext⟩
  | double v => exact hsize "DOUBLE" _ (by decide)
  | boolean v => exact hsize "BOOLEAN" _ (by decide)

/-- **An element is printed** on its line. -/
theorem printElement_xml (x : Element × Name) :
    Agree (fun node line => printElement node = some line) (elementXml sprintfF x)
      (elementLine sprintfF x) := by
  have hline : elementLine sprintfF x = (x.1.value.shown sprintfF >>= fun shown =>
      .ok (bytes "Element: " ++ x.1.key.chars ++ bytes ", type: " ++ bytes shown.1
        ++ bytes ", value: " ++ shown.2.chars ++ bytes ", doc: " ++ x.2.chars ++ bytes "\n")) := by
    rw [elementLine]
    cases x.1.value.shown sprintfF <;> rfl
  rw [elementXml, hline]
  refine (elementProps_shown sprintfF x.1.value).bind ?_
  rintro props shown - - ⟨rfl, htype⟩
  refine .ok ?_
  rw [printElement, xmlNodeGetContent_newChild, ← htype]
  rfl

theorem printEl_xml {nodes : List XmlNode} {lines : List (List UInt8)}
    (h : List.Forall₂ (fun node line => printElement node = some line) nodes lines) :
    printEl nodes = some lines.flatten := by
  have hlines : nodes.mapM printElement = some lines := by
    induction h with
    | nil => rfl
    | cons h _ ih =>
      rw [List.mapM_cons, h, ih]
      rfl
  rw [printEl, hlines, Option.map_some]

/-- What is printed of an answer to FIND, by its first child. -/
theorem printAnswer_find (kind : String) (children : List XmlNode) :
    printAnswer (answer "findStatus" (info kind :: children)) =
      if xmlChar kind = xmlChar "DOCUMENT" then some (bytes "FIND:\n" ++ printDoc children)
      else if xmlChar kind = xmlChar "ELEMENT" then (printEl children).map (bytes "FIND:\n" ++ ·)
      else (printInfo (info kind :: children)).map (bytes "FIND:\n" ++ ·) := by
  have htype : xmlGetProp (answer "findStatus" (info kind :: children)) "type"
      = some (xmlChar "findStatus") := rfl
  have hhead : (answer "findStatus" (info kind :: children)).children.head?.map xmlNodeGetContent
      = some (xmlChar kind) := by
    show some (xmlNodeGetContent (info kind)) = _
    rw [info, xmlNodeGetContent_newChild]
  rw [printAnswer, htype, hhead, if_neg (by decide), if_neg (by decide), if_neg (by decide),
    if_pos rfl]
  simp only [Option.some.injEq]
  rfl

/-- **An answer is printed** as the user reads it. -/
theorem printAnswer_xml (ans : Answer) :
    Agree (fun xml out => printAnswer xml = some out) (ans.xml sprintfF)
      (ans.printed sprintfF) := by
  cases ans with
  | create status =>
    have htext : (xmlChar status.text).chars = bytes status.text := by cases status <;> decide
    have hxml : createAnswer status = answer "createStatus" [info status.text] := by
      cases status <;> rfl
    refine .ok ?_
    rw [hxml]
    show (printInfo [info status.text]).map (bytes "CREATE:\n" ++ ·) = _
    rw [printInfo_info htext, Option.map_some]
  | delete type =>
    have htext : (xmlChar type.deleteText).chars = bytes type.deleteText := by cases type <;> decide
    have hxml : deleteAnswer type = answer "deleteStatus" [info type.deleteText] := by
      cases type <;> rfl
    refine .ok ?_
    rw [hxml]
    show (printInfo [info type.deleteText]).map (bytes "DELETE:\n" ++ ·) = _
    rw [printInfo_info htext, Option.map_some]
  | update status =>
    have htext : (xmlChar status.text).chars = bytes status.text := by cases status <;> decide
    have hxml : updateAnswer status = answer "updateStatus" [info status.text] := by
      cases status <;> rfl
    refine .ok ?_
    rw [hxml]
    show (printInfo [info status.text]).map (bytes "UPDATE:\n" ++ ·) = _
    rw [printInfo_info htext, Option.map_some]
  | nothing =>
    refine .ok ?_
    rw [printAnswer_find, if_neg (by decide), if_neg (by decide), printInfo_info (by decide),
      Option.map_some]
  | documents names =>
    refine .ok ?_
    rw [printAnswer_find, if_pos rfl, printDoc_nameChildren]
  | elements els =>
    have hprinted : (Answer.elements els).printed sprintfF =
        (els.mapM (elementLine sprintfF) >>= fun lines => .ok
          (bytes "FIND:\n" ++ lines.flatten)) := by
      rw [Answer.printed]
      cases els.mapM (elementLine sprintfF) <;> rfl
    rw [hprinted]
    have hlines : Agree (List.Forall₂ fun node line => printElement node = some line)
        (els.mapM (elementXml sprintfF)) (els.mapM (elementLine sprintfF)) := by
      refine Agree.mapM (List.forall₂_same.mpr fun _ _ => rfl) ?_
      rintro x _ rfl
      exact printElement_xml sprintfF x
    refine hlines.bind ?_
    rintro nodes lines - - h
    refine .ok ?_
    rw [printAnswer_find, if_neg (by decide), if_pos rfl, printEl_xml h, Option.map_some]
  | join names =>
    refine .ok ?_
    rw [← printDoc_nameChildren]
    rfl
  | parent name =>
    refine .ok ?_
    rw [← printDoc_nameChildren]
    rfl

end Printing

/-! ## 3. Users

A user types a text, and the client sends what the parser builds of it.  The answers of all users
together are those of one conversation with a catalog. -/

/-- A query that is typed by one who connects at `connected` and asks at `asked`: its text, what the
parser builds from it, and what it means.  The fields tie the three together, so a theorem about
users can speak of the query and be about what was typed. -/
structure Typed where
  connected : UInt32
  asked : UInt32
  text : List UInt8
  tree : ZpathTree
  ast : Ast
  query : Query
  written : QueryText tree.tokens text
  built : (tree.run initialParser).bind ParserState.readAst = some ast
  means : Means ast query

/-- What the client sends for a text: the tokens of the text are those of a query, and the actions
of the parser for it build what is written as XML.  Anything may stand behind the query. -/
def Sends (sprintfF : UInt64 → CString) (text : List UInt8) (root : XmlNode) : Prop :=
  ∃ (z : ZpathTree) (rest : List UInt8) (ast : Ast),
    scan z.tokens.length text = some (z.tokens, rest) ∧
      (z.run initialParser).bind ParserState.readAst = some ast ∧ root = zpathToXml sprintfF ast

/-- A run of the client, as the server sees it: one connection with one request, which is what the
client sends for the text of the user. -/
def Connects (sprintfF : UInt64 → CString) (x : Typed) (client : Client) : Prop :=
  ∃ root, Sends sprintfF x.text root ∧ client = ⟨x.connected, [(x.asked, root)]⟩

/-- A query is asked, and the answer is printed. -/
def Catalog.reply (env : CatalogEnv) (place : Place) (q : Query) (c : Catalog) :
    Except Crash (List UInt8 × Catalog) := do
  let (ans, c) ← c.ask env place q
  let out ← ans.printed env.sprintfF
  return (out, c)

/-- One query after the other. -/
def Catalog.converse (strtod : CString → StrtodResult) (sprintfF : UInt64 → CString) :
    List (Typed × Place) → Catalog → Except Crash (List (List UInt8) × Catalog)
  | [], c => .ok ([], c)
  | (x, place) :: xs, c => do
    let (out, c) ← c.reply ⟨strtod, sprintfF, x.asked⟩ place x.query
    let (outs, c) ← Catalog.converse strtod sprintfF xs c
    return (out :: outs, c)

/-- Every place is free where it is taken. -/
def FreeAsked (strtod : CString → StrtodResult) (sprintfF : UInt64 → CString) :
    List (Typed × Place) → Catalog → Prop
  | [], _ => True
  | (x, place) :: xs, c => place.node ∉ c.tree.nodes ∧
    ∀ out c', c.reply ⟨strtod, sprintfF, x.asked⟩ place x.query = .ok (out, c') →
      FreeAsked strtod sprintfF xs c'

/-- What is printed of the answers is this, and the catalog is on the disk. -/
def Prints (x : List (List XmlNode) × Option ClosedFile) (y : List (List UInt8) × Catalog) : Prop :=
  x.1.flatten.mapM printAnswer = some y.1 ∧ OnDisk x.2 y.2

section Users

variable {sprintfF : UInt64 → CString}

/-- **What is sent** is what was typed. -/
theorem Typed.sends_iff (x : Typed) {root : XmlNode} :
    Sends sprintfF x.text root ↔ root = zpathToXml sprintfF x.ast := by
  obtain ⟨rest, hscan⟩ := scan_queryText x.written
  constructor
  · rintro ⟨z, rest', ast, hscan', hbuilt, rfl⟩
    obtain rfl := scan_unique hscan' hscan
    rw [Option.some.inj (hbuilt.symm.trans x.built)]
  · rintro rfl
    exact ⟨x.tree, rest, x.ast, hscan, x.built, rfl⟩

theorem Connects.client {x : Typed} {client : Client} (h : Connects sprintfF x client) :
    client = ⟨x.connected, [(x.asked, zpathToXml sprintfF x.ast)]⟩ := by
  obtain ⟨root, hsends, rfl⟩ := h
  rw [x.sends_iff.mp hsends]

/-- The requests of all users. -/
theorem allRequests_typed {xs : List Typed} {clients : List Client}
    (h : List.Forall₂ (Connects sprintfF) xs clients) :
    allRequests clients = xs.map fun x => (x.asked, zpathToXml sprintfF x.ast) := by
  induction h with
  | nil => rfl
  | cons h _ ih =>
    rw [allRequests, List.flatMap_cons, h.client]
    exact congrArg _ ih

variable {strtod : CString → StrtodResult} {c : Catalog}

/-- **One reply** is what is printed of the answer. -/
theorem Typed.reply (x : Typed) (env : CatalogEnv) (place : Place) :
    Agree (fun a b => printAnswer a.1 = some b.1 ∧ a.2 = b.2)
      (c.execute env place (zpathToXml env.sprintfF x.ast)) (c.reply env place x.query) := by
  rw [x.means.execute, Catalog.reply]
  refine Agree.same ?_
  rintro ⟨ans, c'⟩ -
  refine (printAnswer_xml env.sprintfF ans).bind ?_
  intro xml out _ _ hprint
  exact .ok ⟨hprint, rfl⟩

/-- **All replies**, one after the other. -/
theorem converse_agrees {l : List (Typed × Place)} :
    Agree (fun a b => a.1.mapM printAnswer = some b.1 ∧ a.2 = b.2)
      (Catalog.serve strtod sprintfF
        (l.map fun x => ((x.1.asked, zpathToXml sprintfF x.1.ast), x.2)) c)
      (Catalog.converse strtod sprintfF l c) := by
  induction l generalizing c with
  | nil => exact .ok ⟨rfl, rfl⟩
  | cons x l ih =>
    obtain ⟨x, place⟩ := x
    refine (x.reply ⟨strtod, sprintfF, x.asked⟩ place).bind ?_
    rintro ⟨answer, c1⟩ ⟨out, _⟩ - - ⟨hprint, rfl⟩
    refine ih.bind ?_
    rintro ⟨answers, c2⟩ ⟨outs, _⟩ - - ⟨hprints, rfl⟩
    refine .ok ⟨?_, rfl⟩
    rw [List.mapM_cons, hprint, hprints]
    rfl

/-- The places that are free for the requests are free for the queries. -/
theorem freeAsked_of_freePlaces {l : List (Typed × Place)} (h : FreePlaces strtod sprintfF
    (l.map fun x => ((x.1.asked, zpathToXml sprintfF x.1.ast), x.2)) c) :
    FreeAsked strtod sprintfF l c := by
  induction l generalizing c with
  | nil => trivial
  | cons x l ih =>
    obtain ⟨x, place⟩ := x
    obtain ⟨hfree, hrest⟩ := h
    refine ⟨hfree, ?_⟩
    intro out c' hreply
    have hagree := x.reply (c := c) ⟨strtod, sprintfF, x.asked⟩ place
    rw [hreply] at hagree
    obtain ⟨⟨answer, c1⟩, hexec, -, rfl⟩ := hagree.of_ok_right
    exact ih (hrest answer c1 hexec)

end Users

/-- The users see what the catalog replies, with some free places for its documents. -/
def SeenLike (env : ServerEnv Nat) (xs : List Typed) (clients : List Client)
    (path : Option ClosedFile) (c : Catalog) : Prop :=
  ∃ places : List Place, places.length = xs.length ∧
    FreeAsked env.search.strtod env.sprintfF (xs.zip places) c ∧
    Agree Prints (serveClients env clients path)
      (Catalog.converse env.search.strtod env.sprintfF (xs.zip places) c)

section Seen

variable {env : ServerEnv Nat} {xs : List Typed} {clients : List Client}

/-- What the server does like a catalog is seen like one. -/
theorem ConnectsLike.seen {path : Option ClosedFile} {c : Catalog}
    (h : ConnectsLike env clients path c)
    (hx : List.Forall₂ (Connects env.sprintfF) xs clients) : SeenLike env xs clients path c := by
  obtain ⟨places, hlen, hfree, hagree⟩ := h
  rw [allRequests_typed hx, List.length_map] at hlen
  rw [allRequests_typed hx, List.zip_map_left] at hfree hagree
  refine ⟨places, hlen, freeAsked_of_freePlaces hfree, (hagree.trans converse_agrees).mono ?_⟩
  rintro ⟨answers, path'⟩ ⟨outs, c'⟩ ⟨⟨all, _⟩, ⟨rfl, hdisk⟩, hprint, rfl⟩
  exact ⟨hprint, hdisk⟩

/-- Users of a server that has no file yet. -/
theorem ServableClients.seen (hexp : env.expandIndexes = expandIndexes)
    (hx : List.Forall₂ (Connects env.sprintfF) xs clients)
    (hserv : ServableClients env clients none) : ∃ id, SeenLike env xs clients none (.new id) := by
  obtain ⟨id, hlike⟩ := hserv.connectsLike hexp
  exact ⟨id, hlike.seen hx⟩

/-- **The users see one catalog.**  Users who run the client one after the other, each with a text
that means a query, read what their queries are answered on a catalog that began with the root
alone, and the file that is left on the disk opens as a store that keeps the catalog that is left;
or the server crashes, and the reply with it and alike. -/
theorem users_see_catalog (hexp : env.expandIndexes = expandIndexes)
    (hx : List.Forall₂ (Connects env.sprintfF) xs clients)
    (hserv : ServableClients env clients none) :
    ∃ (id : DocumentId) (places : List Place), places.length = xs.length ∧
      FreeAsked env.search.strtod env.sprintfF (xs.zip places) (.new id) ∧
      (∀ answers path, serveClients env clients none = .ok (answers, path) →
        ∃ outs c, Catalog.converse env.search.strtod env.sprintfF (xs.zip places) (.new id)
          = .ok (outs, c) ∧ answers.flatten.mapM printAnswer = some outs ∧ OnDisk path c) ∧
      ∀ crash, serveClients env clients none = .error crash →
        Catalog.converse env.search.strtod env.sprintfF (xs.zip places) (.new id)
          = .error crash := by
  obtain ⟨id, places, hlen, hfree, hagree⟩ := hserv.seen hexp hx
  refine ⟨id, places, hlen, hfree, ?_, ?_⟩
  · intro answers path hrun
    rw [hrun] at hagree
    obtain ⟨⟨outs, c⟩, hconverse, hprint, hdisk⟩ := hagree.of_ok
    exact ⟨outs, c, hconverse, hprint, hdisk⟩
  · intro crash hrun
    rw [hrun] at hagree
    exact hagree.of_error

end Seen

/-! ## 4. A sample

A document with an int is added, and the next user asks for it. -/

/-- A query to add a document with a number below the root. -/
def addATree : ZpathTree := .add stringA (.last (.int stringA 7)) pathRoot

theorem queryText_addATree :
    QueryText addATree.tokens (bytes "ADD \"a\"(INT:@\"a\":7) /\"\";") := by
  have hnumber : TextOf (.number 7) (bytes "7") := by
    let seven : Literal := ⟨⟨[55], by decide, by decide +kernel⟩, none, none⟩
    have htoken : seven.token = .number (atoi seven.mantissa) := by
      rw [Literal.token, if_pos (seven.isWhole_double rfl)]
    exact (show seven.token = .number 7 from htoken) ▸ .literal seven
  have h : QueryText addATree.tokens ([] ++ (Token.add.word ++ ([32] ++ (stringText stringA
      ++ ([] ++ (Token.lrobrac.word ++ ([] ++ (Token.int.word ++ ([] ++ (Token.colon.word
      ++ ([] ++ (keyText stringA ++ ([] ++ (Token.colon.word ++ ([] ++ (bytes "7"
      ++ ([] ++ (Token.rrobrac.word ++ ([32] ++ (Token.absolute.word
      ++ ([] ++ (stringText ⟨[], by decide⟩ ++ ([] ++ (Token.end.word ++ []))))))))))))))))))))))))
      := by
    refine .cons (by decide +kernel) (.word (by decide)) (by decide +kernel) ?_
    refine .cons (by decide +kernel) (.string (by decide)) (by decide +kernel) ?_
    refine .cons (by decide +kernel) (.word (by decide)) (by decide +kernel) ?_
    refine .cons (by decide +kernel) (.word (by decide)) (by decide +kernel) ?_
    refine .cons (by decide +kernel) (.word (by decide)) (by decide +kernel) ?_
    refine .cons (by decide +kernel) (.key (by decide)) (by decide +kernel) ?_
    refine .cons (by decide +kernel) (.word (by decide)) (by decide +kernel) ?_
    refine .cons (by decide +kernel) hnumber (by decide +kernel) ?_
    refine .cons (by decide +kernel) (.word (by decide)) (by decide +kernel) ?_
    refine .cons (by decide +kernel) (.word (by decide)) (by decide +kernel) ?_
    refine .cons (by decide +kernel) (.string (by decide)) (by decide +kernel) ?_
    exact .cons (by decide +kernel) (.word (by decide)) (by decide +kernel) (.nil [])
  exact h

/-- A query for its number. -/
def findElementATree : ZpathTree := .find pathElementA

theorem queryText_findElementATree :
    QueryText findElementATree.tokens (bytes "FIND /@\"a\";") := by
  have h : QueryText findElementATree.tokens ([] ++ (Token.find.word ++ ([32]
      ++ (Token.absolute.word ++ ([] ++
        (keyText stringA ++ ([] ++ (Token.end.word ++ [])))))))) := by
    refine .cons (by decide +kernel) (.word (by decide)) (by decide +kernel) ?_
    refine .cons (by decide +kernel) (.word (by decide)) (by decide +kernel) ?_
    refine .cons (by decide +kernel) (.key (by decide)) (by decide +kernel) ?_
    exact .cons (by decide +kernel) (.word (by decide)) (by decide +kernel) (.nil [])
  exact h

/-- The text that adds the document. -/
def typedAdd : Typed where
  connected := 0
  asked := 0
  text := bytes "ADD \"a\"(INT:@\"a\":7) /\"\";"
  tree := addATree
  ast := ⟨.add stringA numberA, pathRoot.ast, pathRoot.ast.length⟩
  query := ⟨.add keyA [⟨keyA, .int 7⟩], stepsRoot⟩
  written := queryText_addATree
  built := by decide
  means := by
    have hvalid : ∀ a ∈ numberA, a.Valid ∧ a.value ≠ .boolean true := by
      intro a ha
      rw [List.mem_singleton.mp ha]
      exact ⟨⟨by simp, by decide, by decide⟩, by decide⟩
    refine ⟨⟨rfl, ⟨by decide, by decide⟩, ⟨hvalid, by decide⟩, .cons ⟨rfl, rfl⟩ .nil⟩,
      .cons ⟨rfl, rfl, rfl, .nil⟩ .nil, ?_, List.cons_ne_nil _ _, rfl, by decide⟩
    intro s hs
    rw [List.mem_singleton.mp hs]
    exact ⟨rfl, by decide⟩

/-- The text that looks for the number. -/
def typedFind : Typed where
  connected := 1
  asked := 1
  text := bytes "FIND /@\"a\";"
  tree := findElementATree
  ast := ⟨.find, pathElementA.ast, pathElementA.ast.length⟩
  query := ⟨.find, [⟨.absolutePath, keyA, .elementStep, []⟩]⟩
  written := queryText_findElementATree
  built := by decide
  means := by
    refine ⟨trivial, .cons ⟨rfl, rfl, rfl, .nil⟩ .nil, ?_, List.cons_ne_nil _ _, rfl, by decide⟩
    intro s hs
    rw [List.mem_singleton.mp hs]
    exact ⟨rfl, by decide⟩

theorem connects_addThenFind :
    List.Forall₂ (Connects fileServer.sprintfF) [typedAdd, typedFind] addThenFind :=
  .cons ⟨_, typedAdd.sends_iff.mpr rfl, rfl⟩ (.cons ⟨_, typedFind.sends_iff.mpr rfl, rfl⟩ .nil)

theorem users_see_catalog_addThenFind : ∃ (id : DocumentId) (places : List Place),
    places.length = [typedAdd, typedFind].length ∧
    FreeAsked fileServer.search.strtod fileServer.sprintfF ([typedAdd, typedFind].zip places)
      (.new id) ∧
    (∀ answers path, serveClients fileServer addThenFind none = .ok (answers, path) →
      ∃ outs c, Catalog.converse fileServer.search.strtod fileServer.sprintfF
        ([typedAdd, typedFind].zip places) (.new id) = .ok (outs, c) ∧
        answers.flatten.mapM printAnswer = some outs ∧ OnDisk path c) ∧
    ∀ crash, serveClients fileServer addThenFind none = .error crash →
      Catalog.converse fileServer.search.strtod fileServer.sprintfF
        ([typedAdd, typedFind].zip places) (.new id) = .error crash :=
  users_see_catalog rfl connects_addThenFind servable_addThenFind

end Zgdb
