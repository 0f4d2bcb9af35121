/-
# What changes nothing

A request changes the file only when its user reads of a change: `CREATE OK`, `DOCUMENT DELETED` or
`UPDATE OK` (`ReportsChange`).  Whatever else is printed, the file is the same as before, whatever
it contains and whoever wrote it (`unreported`).  So the requests that were refused and those that
only read can be left out of any run of the server: the others get the answers that they got, and
the same file is left on the disk (`unreported_without_trace`).
-/
import Zgdb.Client
import Zgdb.EmptyResults
import Zgdb.Scalars

namespace Zgdb

open Zgdb.Lib AddrSpace

/-! ## 1. One request

A request that changes the file makes a call, and its answer says that the call has been carried
out.  The converse is not needed, and not true: an update can store what was there. -/

/-- The user reads of a change: one of the three lines that the client prints for a request that did
what it asked for. -/
def ReportsChange (answer : XmlNode) : Prop :=
  printAnswer answer = some (bytes "CREATE:\nCREATE OK\n") ∨
    printAnswer answer = some (bytes "DELETE:\nDOCUMENT DELETED\n") ∨
    printAnswer answer = some (bytes "UPDATE:\nUPDATE OK\n")

instance : DecidablePred ReportsChange := fun answer =>
  inferInstanceAs (Decidable (printAnswer answer = some (bytes "CREATE:\nCREATE OK\n") ∨
    printAnswer answer = some (bytes "DELETE:\nDOCUMENT DELETED\n") ∨
    printAnswer answer = some (bytes "UPDATE:\nUPDATE OK\n")))

/-- What is printed of an answer. -/
theorem printAnswer_eq (sprintfF : UInt64 → CString) (ans : Answer) {xml : XmlNode}
    {out : List UInt8} (hxml : ans.xml sprintfF = .ok xml) (hout : ans.printed sprintfF = .ok out) :
    printAnswer xml = some out := by
  have hagree := printAnswer_xml sprintfF ans
  rw [hxml] at hagree
  obtain ⟨out', hout', hprint⟩ := hagree.of_ok
  rw [hprint, Except.ok.inj (hout.symm.trans hout')]

section Request

variable {A : Type} [BlockSpace A] {env : ServerEnv A} {fuel : Nat} {root : XmlNode}
  {file file' : ZgdbFile A}

/-- A creation is reported, or it was refused. -/
theorem unreported_add {status : CreateStatus}
    (hadd : executeAddFromXml env fuel root file = .ok (status, file'))
    (hno : ¬ ReportsChange (createAnswer status)) : file' = file := by
  simp only [executeAddFromXml, bind_ok, defined_ok] at hadd
  obtain ⟨-, -, -, -, schema, -, -, -, head, -, name, -, hcreate⟩ := hadd
  by_cases hcomplete : schema.Complete
  · obtain ⟨rfl, -⟩ := createDocument_cases hcreate hcomplete
    have hprint : printAnswer (createAnswer .createOk)
        = some (bytes "CREATE:\n" ++ (bytes "CREATE OK" ++ bytes "\n")) :=
      printAnswer_eq env.sprintfF (.create .createOk) rfl rfl
    exact absurd (.inl (hprint.trans (congrArg some (by decide)))) hno
  · rw [createDocument_incomplete hcomplete] at hcreate
    exact (Prod.mk.inj (Option.some.inj hcreate)).2.symm

/-- A deletion is reported, or nothing was found. -/
theorem unreported_delete {ifResult : FindIfResult}
    (hdelete : executeDeleteFromXml env fuel root file = .ok (ifResult, file'))
    (hno : ¬ ReportsChange (deleteAnswer ifResult.type)) : file' = file := by
  obtain ⟨found, hfind, hrest⟩ := bind_ok.mp hdelete
  split at hrest
  · exact (Prod.mk.inj (Except.ok.inj hrest)).2.symm
  rename_i hfound
  obtain ⟨head, hhead, hrest⟩ := bind_ok.mp hrest
  obtain ⟨file1, -, hret⟩ := bind_ok.mp hrest
  obtain ⟨rfl, rfl⟩ := Prod.mk.inj (Except.ok.inj hret)
  cases htype : found.type with
  | undefinedResult => exact absurd htype hfound
  | documentResult =>
    have hprint : printAnswer (deleteAnswer .documentResult)
        = some (bytes "DELETE:\n" ++ (bytes "DOCUMENT DELETED" ++ bytes "\n")) :=
      printAnswer_eq env.sprintfF (.delete .documentResult) rfl rfl
    rw [htype] at hno
    exact absurd (.inr (.inl (hprint.trans (congrArg some (by decide))))) hno
  | elementResult =>
    -- there is no head to delete
    rw [documentList_of_elements hfind htype] at hhead
    cases hhead

/-- An update is reported, or it failed. -/
theorem unreported_update {status : UpdateElementStatus}
    (hupdate : executeUpdateFromXml env fuel root file = .ok (status, file'))
    (hno : ¬ ReportsChange (updateAnswer status)) : file' = file := by
  obtain ⟨found, -, hrest⟩ := bind_ok.mp hupdate
  dsimp only at hrest
  split at hrest
  · exact (Prod.mk.inj (Except.ok.inj hrest)).2.symm
  simp only [bind_ok, defined_ok] at hrest
  obtain ⟨head, -, key, -, input, -, hrun⟩ := hrest
  refine updateElement_failed hrun ?_
  rintro rfl
  have hprint : printAnswer (updateAnswer .updateOk)
      = some (bytes "UPDATE:\n" ++ (bytes "UPDATE OK" ++ bytes "\n")) :=
    printAnswer_eq env.sprintfF (.update .updateOk) rfl rfl
  exact hno (.inr (.inr (hprint.trans (congrArg some (by decide)))))

/-- **Who reads of no change** made none. -/
theorem unreported {answer : XmlNode}
    (hexec : executeZgdbFromXml env fuel root file = .ok (answer, file'))
    (hno : ¬ ReportsChange answer) : file' = file := by
  rw [executeZgdbFromXml] at hexec
  dsimp only at hexec
  split at hexec
  · obtain ⟨⟨status, file1⟩, hadd, hret⟩ := bind_ok.mp hexec
    obtain ⟨rfl, rfl⟩ := Prod.mk.inj (Except.ok.inj hret)
    exact unreported_add hadd hno
  split at hexec
  · obtain ⟨⟨ifResult, file1⟩, hdelete, hret⟩ := bind_ok.mp hexec
    obtain ⟨rfl, rfl⟩ := Prod.mk.inj (Except.ok.inj hret)
    exact unreported_delete hdelete hno
  split at hexec
  · obtain ⟨⟨status, file1⟩, hupdate, hret⟩ := bind_ok.mp hexec
    obtain ⟨rfl, rfl⟩ := Prod.mk.inj (Except.ok.inj hret)
    exact unreported_update hupdate hno
  split at hexec
  · obtain ⟨found, -, hrest⟩ := bind_ok.mp hexec
    obtain ⟨xml, -, hret⟩ := bind_ok.mp hrest
    exact (Prod.mk.inj (Except.ok.inj hret)).2.symm
  split at hexec
  · obtain ⟨list, -, hret⟩ := bind_ok.mp hexec
    exact (Prod.mk.inj (Except.ok.inj hret)).2.symm
  split at hexec
  · obtain ⟨xml, -, hret⟩ := bind_ok.mp hexec
    exact (Prod.mk.inj (Except.ok.inj hret)).2.symm
  · exact (Prod.mk.inj (Except.ok.inj hexec)).2.symm

end Request

/-! ## 2. Runs

What is left out did not change the file, so the next request finds what it would have found. -/

/-- The requests whose answers report a change. -/
def reported (requests : List (UInt32 × XmlNode)) (answers : List XmlNode) :
    List (UInt32 × XmlNode) :=
  ((requests.zip answers).filter fun x => ReportsChange x.2).map Prod.fst

/-- The clients, each with those of its requests. -/
def reportedClients (clients : List Client) (answers : List (List XmlNode)) : List Client :=
  List.zipWith (fun client answers => ⟨client.now, reported client.requests answers⟩)
    clients answers

section Runs

/-- **A session** without the requests that report no change. -/
theorem serve_reported {A : Type} [BlockSpace A] {env : ServerEnv A} {file file' : ZgdbFile A}
    {requests : List (UInt32 × XmlNode)} {answers : List XmlNode}
    (hrun : serve env requests file = .ok (answers, file')) :
    serve env (reported requests answers) file
      = .ok (answers.filter fun answer => ReportsChange answer, file') := by
  induction requests generalizing file answers with
  | nil =>
    obtain ⟨rfl, rfl⟩ := Prod.mk.inj (Except.ok.inj hrun)
    rfl
  | cons x requests ih =>
    obtain ⟨now, root⟩ := x
    obtain ⟨answer, file1, rest, hexec, hserve, rfl⟩ := serve_cons hrun
    have hothers := ih hserve
    by_cases hreport : ReportsChange answer
    · have hreported : reported ((now, root) :: requests) (answer :: rest)
          = (now, root) :: reported requests rest := by
        simp [reported, hreport]
      rw [hreported, List.filter_cons_of_pos (by simpa using hreport)]
      simp only [serve, hexec, ok_bind, hothers]
      rfl
    · have hreported : reported ((now, root) :: requests) (answer :: rest)
          = reported requests rest := by
        simp [reported, hreport]
      obtain rfl := unreported hexec hreport
      rw [hreported, List.filter_cons_of_neg (by simpa using hreport)]
      exact hothers

/-- **Left out without a trace.**  In a run of the server, on any file, the requests whose users
read of no change can be left out: the others are answered alike, and the same file is left. -/
theorem unreported_without_trace {env : ServerEnv Nat} {clients : List Client}
    {path path' : Option ClosedFile} {answers : List (List XmlNode)}
    (hrun : serveClients env clients path = .ok (answers, path')) :
    serveClients env (reportedClients clients answers) path
      = .ok (answers.map (List.filter fun answer => ReportsChange answer), path') := by
  induction clients generalizing path answers with
  | nil =>
    obtain ⟨rfl, rfl⟩ := Prod.mk.inj (Except.ok.inj hrun)
    rfl
  | cons client clients ih =>
    obtain ⟨file, hopen, hrest⟩ := bind_ok.mp hrun
    obtain ⟨⟨first, file1⟩, hserve, hrest⟩ := bind_ok.mp hrest
    obtain ⟨⟨rest, path1⟩, hclients, hret⟩ := bind_ok.mp hrest
    obtain ⟨rfl, rfl⟩ := Prod.mk.inj (Except.ok.inj hret)
    have hothers := ih hclients
    rw [reportedClients] at hothers
    simp only [reportedClients, List.zipWith_cons_cons, serveClients, hopen, ok_bind,
      serve_reported hserve, hothers]
    rfl

end Runs

/-! ## 3. A sample

One client that looks for an element before it adds the document which has it. -/

/-- One client looks twice for an element in a new file and then adds a document that has it. -/
def lookThenAdd : List Client :=
  [⟨0, [(1, findElementA fileServer.sprintfF), (1, findElementA fileServer.sprintfF),
    (0, addA fileServer.sprintfF)]⟩]

/-- What is looked for in a new file leaves it as it is. -/
theorem findElementA_init {answer : XmlNode} {file' : ZgdbFile Nat}
    (hexec : executeZgdbFromXml { fileServer with now := 1 } (loopBound (init 0 : ZgdbFile Nat))
      (findElementA fileServer.sprintfF) (init 0) = .ok (answer, file')) : file' = init 0 := by
  have hs : Store (init 0 : ZgdbFile Nat) rootTree _ _ := init_store
  rcases hs.executeZgdbFromXml_calls _ hexec with ⟨-, rfl⟩ | ⟨call, hcall, -⟩
  · rfl
  · rw [findElementA, callOf_find] at hcall
    cases hcall

theorem servable_lookThenAdd : ServableClients fileServer lookThenAdd none := by
  intro file hopen
  obtain rfl := Option.some.inj hopen
  refine ⟨⟨servable_find fileServer.sprintfF _, ?_⟩, ?_⟩
  · intro answer1 file1 hexec1
    obtain rfl := findElementA_init hexec1
    refine ⟨servable_find fileServer.sprintfF _, ?_⟩
    intro answer2 file2 hexec2
    obtain rfl := findElementA_init hexec2
    exact ⟨servable_addA fileServer, fun _ _ _ => trivial⟩
  · intro answers file' hrun
    obtain ⟨answer1, file1, rest1, hexec1, hrun1, -⟩ := serve_cons hrun
    obtain rfl := findElementA_init hexec1
    obtain ⟨answer2, file2, rest2, hexec2, hrun2, -⟩ := serve_cons hrun1
    obtain rfl := findElementA_init hexec2
    exact ⟨(serve_addA hrun2).2.2, trivial⟩

/-- The first two answers report no change, the third one does. -/
theorem lookThenAdd_runs : ∃ answer1 answer2 answer3 path,
    serveClients fileServer lookThenAdd none = .ok ([[answer1, answer2, answer3]], path) ∧
      ¬ ReportsChange answer1 ∧ ¬ ReportsChange answer2 ∧ ReportsChange answer3 := by
  obtain ⟨id, places, hlen, -, hagree⟩ := servable_lookThenAdd.connectsLike rfl
  obtain ⟨p1, p2, p3, rfl⟩ := List.length_eq_three.mp hlen
  have hunfound : ∀ answer, printAnswer answer
      = some (bytes "FIND:\n" ++ (bytes "UNDEFINED RESULT" ++ bytes "\n")) →
        ¬ ReportsChange answer := by
    intro answer h
    rw [ReportsChange, h]
    decide
  obtain ⟨c, hconverse⟩ : ∃ c, Catalog.converse fileServer.search.strtod fileServer.sprintfF
      [(typedFind, p1), (typedFind, p2), (typedAdd, p3)] (.new id)
        = .ok ([bytes "FIND:\n" ++ (bytes "UNDEFINED RESULT" ++ bytes "\n"),
          bytes "FIND:\n" ++ (bytes "UNDEFINED RESULT" ++ bytes "\n"),
          bytes "CREATE:\nCREATE OK\n"], c) := ⟨_, rfl⟩
  have hprints := hagree.trans (converse_agrees (c := .new id)
    (l := [(typedFind, p1), (typedFind, p2), (typedAdd, p3)]))
  rw [hconverse] at hprints
  obtain ⟨⟨answers, path⟩, hrun, ⟨all, c'⟩, ⟨rfl, -⟩, hprint, -⟩ := hprints.of_ok_right
  obtain ⟨file, -, hrest⟩ := bind_ok.mp hrun
  obtain ⟨⟨first, file1⟩, hserve, hrest⟩ := bind_ok.mp hrest
  obtain ⟨⟨rest, path1⟩, hnone, hret⟩ := bind_ok.mp hrest
  obtain ⟨rfl, rfl⟩ := Prod.mk.inj (Except.ok.inj hnone)
  obtain ⟨rfl, rfl⟩ := Prod.mk.inj (Except.ok.inj hret)
  obtain ⟨answer1, file2, rest1, -, hserve1, rfl⟩ := serve_cons hserve
  obtain ⟨answer2, file3, rest2, -, hserve2, rfl⟩ := serve_cons hserve1
  obtain ⟨answer3, file4, rest3, -, hserve3, rfl⟩ := serve_cons hserve2
  obtain ⟨rfl, -⟩ := Prod.mk.inj (Except.ok.inj hserve3)
  have hprint3 : [answer1, answer2, answer3].mapM printAnswer = some _ := hprint
  simp only [List.mapM_cons, List.mapM_nil, Option.bind_eq_bind, Option.bind_eq_some_iff,
    Option.pure_def, Option.some.injEq] at hprint3
  obtain ⟨out1, hout1, _, ⟨out2, hout2, _, ⟨out3, hout3, _, rfl, rfl⟩, rfl⟩, hout⟩ := hprint3
  simp only [List.cons.injEq, and_true] at hout
  obtain ⟨rfl, rfl, rfl⟩ := hout
  exact ⟨answer1, answer2, answer3, _, hrun, hunfound _ hout1, hunfound _ hout2, Or.inl hout3⟩

/-- Without the first two the document is added all the same, and the same file is left. -/
theorem unreported_without_trace_lookThenAdd : ∃ answer1 answer2 answer3 path,
    serveClients fileServer lookThenAdd none = .ok ([[answer1, answer2, answer3]], path) ∧
      serveClients fileServer [⟨0, [(0, addA fileServer.sprintfF)]⟩] none
        = .ok ([[answer3]], path) := by
  obtain ⟨answer1, answer2, answer3, path, hrun, hno1, hno2, hyes⟩ := lookThenAdd_runs
  refine ⟨answer1, answer2, answer3, path, hrun, ?_⟩
  have hwithout := unreported_without_trace hrun
  have hclients : reportedClients lookThenAdd [[answer1, answer2, answer3]]
      = [⟨0, [(0, addA fileServer.sprintfF)]⟩] := by
    simp [reportedClients, lookThenAdd, reported, hno1, hno2, hyes]
  have hanswers : [[answer1, answer2, answer3]].map (List.filter fun answer => ReportsChange answer)
      = [[answer3]] := by
    simp [hno1, hno2, hyes]
  rwa [hclients, hanswers] at hwithout

end Zgdb
