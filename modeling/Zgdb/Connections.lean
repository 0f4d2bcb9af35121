/-
# Connections

The loop of `main` in `zgdbServer/main.c`: for every connection the file is opened, its requests are
served, and the file is closed again (`serveClients`).  What a client changed is there for the next
one: all clients together get the answers that one session on a catalog gives to their requests, one
after the other, and the file that is left on the disk opens as a store that keeps the catalog that
is left (`connections_refine_catalog`).

Two facts carry this over the end of a connection.  Every clean call keeps what a file needs to be
opened again (`Closable.exec`), and the store that is opened keeps what the one that was closed kept
(`Restored.keeps`).
-/
import Zgdb.Reopening
import Zgdb.Service

namespace Zgdb

open Zgdb.Lib AddrSpace

/-! ## 1. Updates keep the tables

What a file needs to be opened again does not depend on the texts.  An update takes at most one
index, and leaves the header in the file up to date. -/

section Update

variable {A : Type} [BlockSpace A]

theorem sameTables_rewriteChunks (file : ZgdbFile A) (s : CString) (start lastLen n : Nat)
    (cur : Cursor A) : SameTables file (rewriteChunks file s start lastLen n cur) := by
  induction n generalizing file start cur with
  | zero => exact ⟨rfl, rfl, rfl⟩
  | succ n ih => exact (sameTables_fwriteAt _ _ _ _ _).trans (ih _ _ _)

theorem sameTables_relinkChunks (file : ZgdbFile A) (s : CString) (start : Nat)
    (relink : Cursor A → TextChunk → TextChunk) (moveLast : Bool) (n : Nat) (cur : Cursor A) :
    SameTables file (relinkChunks file s start relink moveLast n cur).1 := by
  induction n generalizing file start cur with
  | zero => exact ⟨rfl, rfl, rfl⟩
  | succ n ih => exact (sameTables_fwriteAt _ _ _ _ _).trans (ih _ _ _)

/-- Chunks that are written and counted. -/
theorem sameTables_addUsed (file : ZgdbFile A) (pos : A) (used toastIndex : Nat) (s : CString)
    (start lastLen lastToast n : Nat) (cur : Cursor A) (m : Nat) :
    SameTables file
      (addUsed (writeChunks file pos used toastIndex s start lastLen lastToast n) cur m) :=
  (sameTables_writeChunks _ _ _ _ _ _ _ _ _).trans (sameTables_fwriteAt _ _ _ _ _)

theorem sameTables_growInToast (file : ZgdbFile A) (input : CString) (chunks req lastLen : Nat)
    (cur : Cursor A) : SameTables file (growInToast file input chunks req lastLen cur) :=
  (sameTables_relinkChunks _ _ _ _ _ _ _).trans (sameTables_addUsed _ _ _ _ _ _ _ _ _ _ _)

theorem sameTables_fillAcrossToasts (file : ZgdbFile A) (input : CString)
    (chunks req lastLen newToastIndex : Nat) (cur : Cursor A) :
    SameTables file (fillAcrossToasts file input chunks req lastLen newToastIndex cur) := by
  unfold fillAcrossToasts
  dsimp only
  refine SameTables.trans ?_ (sameTables_addUsed _ _ _ _ _ _ _ _ _ _ _)
  have hlinked : ∀ (toast : Toast) (relink : Cursor A → TextChunk → TextChunk) (cur' : Cursor A),
      SameTables file (relinkChunks (fwriteAt toastK file cur.indexToast 0 toast) input 0 relink
        false chunks cur').1 := by
    intro toast relink cur'
    exact (sameTables_fwriteAt _ _ _ _ _).trans (sameTables_relinkChunks _ _ _ _ _ _ _)
  split
  · exact (hlinked _ _ _).trans (sameTables_addUsed _ _ _ _ _ _ _ _ _ _ _)
  · exact hlinked _ _ _

variable {file file' : ZgdbFile A}

/-- A text that grows; it is the only case in which an index is taken. -/
theorem Closable.updateLonger (h : Closable file) {block : A} {doc : Document} {d : Nat}
    {firstChunk : FirstTextChunk} {input : CString}
    (hrun : updateLonger file block doc d firstChunk input = some file') : Closable file' := by
  simp only [Zgdb.updateLonger] at hrun
  split at hrun
  · obtain rfl := Option.some.inj hrun
    exact h.sameTables ((sameTables_rewriteChunks _ _ _ _ _ _).trans
      (sameTables_fwriteAt _ _ _ _ _))
  rename_i hmore
  split at hrun
  · obtain rfl := Option.some.inj hrun
    exact h.sameTables ((sameTables_growInToast _ _ _ _ _ _).trans (sameTables_fwriteAt _ _ _ _ _))
  obtain ⟨file1, hgrow, hret⟩ := Option.bind_eq_some_iff.mp hrun
  obtain rfl := Option.some.inj hret
  unfold growAcrossToasts at hgrow
  split at hgrow
  · cases hgrow
  rename_i newToastIndex file2 hnew
  obtain rfl := Option.some.inj hgrow
  have hcap : 0 < chunkRecord := by decide
  have hreq := Nat.mul_pos (Nat.sub_pos_of_lt (Nat.lt_of_not_le hmore)) hcap
  have hnew' := h.allocToast (Nat.lt_of_lt_of_le hreq (Nat.le_add_right _ _)) hnew
  exact hnew'.sameTables
    ((sameTables_fillAcrossToasts _ _ _ _ _ _ _).trans (sameTables_fwriteAt _ _ _ _ _))

theorem Closable.updateText (h : Closable file) {block : A} {doc : Document} {d : Nat}
    {input : CString} (hrun : updateText file block doc d input = some file') : Closable file' := by
  unfold Zgdb.updateText at hrun
  dsimp only at hrun
  split at hrun
  · obtain rfl := Option.some.inj hrun
    exact h.sameTables (sameTables_rewriteChunks _ _ _ _ _ _)
  split at hrun
  · obtain rfl := Option.some.inj hrun
    exact h.sameTables ((sameTables_rewriteChunks _ _ _ _ _ _).trans
      (sameTables_fwriteAt _ _ _ _ _))
  · exact h.updateLonger hrun

theorem Closable.updateFound (h : Closable file) {strtod : CString → StrtodResult} {block : A}
    {doc : Document} {d : Nat} {type : UInt8} {input : CString} {status : UpdateElementStatus}
    (hrun : updateFound strtod file block doc d type input = some (some (status, file'))) :
    Closable file' := by
  unfold Zgdb.updateFound at hrun
  split at hrun
  · obtain ⟨-, rfl⟩ := Prod.mk.inj (Option.some.inj (Option.some.inj hrun))
    exact h.sameTables (sameTables_fwriteAt _ _ _ _ _)
  split at hrun
  · split at hrun
    · obtain ⟨-, rfl⟩ := Prod.mk.inj (Option.some.inj (Option.some.inj hrun))
      exact h.sameTables (sameTables_fwriteAt _ _ _ _ _)
    · obtain ⟨-, rfl⟩ := Prod.mk.inj (Option.some.inj (Option.some.inj hrun))
      exact h
  split at hrun
  · split at hrun
    · obtain ⟨-, rfl⟩ := Prod.mk.inj (Option.some.inj (Option.some.inj hrun))
      exact h.sameTables (sameTables_fwriteAt _ _ _ _ _)
    · obtain ⟨-, rfl⟩ := Prod.mk.inj (Option.some.inj (Option.some.inj hrun))
      exact h
  split at hrun
  · obtain ⟨file1, htext, hret⟩ := Option.map_eq_some_iff.mp hrun
    obtain ⟨-, rfl⟩ := Prod.mk.inj (Option.some.inj hret)
    exact h.updateText htext
  · cases hrun

theorem Closable.updateLoop (h : Closable file) {strtod : CString → StrtodResult} {doc : Document}
    {key input : CString} {n : Nat} {it : ElementIterator A} {status : UpdateElementStatus}
    (hrun : updateLoop strtod file doc key input n it = some (status, file')) : Closable file' := by
  induction n generalizing it with
  | zero =>
    obtain ⟨-, rfl⟩ := Prod.mk.inj (Option.some.inj hrun)
    exact h
  | succ n ih =>
    rw [Zgdb.updateLoop] at hrun
    dsimp only at hrun
    split at hrun
    · split at hrun
      · cases hrun
      · rename_i hfound
        obtain rfl := Option.some.inj hrun
        exact h.updateFound hfound
      · exact ih hrun
    · exact ih hrun

/-- **An update**, whatever the blocks contain. -/
theorem Closable.update (h : Closable file) {env : Env A} {k : Nat} {key input : CString}
    (hrun : (Call.update k key input).exec env file = some file') : Closable file' := by
  obtain ⟨⟨status, f⟩, hupdate, rfl⟩ := Option.map_eq_some_iff.mp hrun
  unfold updateElement at hupdate
  split at hupdate
  · obtain ⟨-, rfl⟩ := Prod.mk.inj (Option.some.inj hupdate)
    exact h
  · exact h.updateLoop hupdate

/-- A store with its header in order can be closed. -/
theorem Closable.freed (h : Closable file) {file1 : ZgdbFile A} {freed : List Node}
    (ht : SameTables file file1) (hf : Freeing file1 file' freed) (hs : file'.freeList.Sound) :
    Closable file' := by
  have h1 := h.sameTables ht
  refine ⟨hf.saved h1.saved, ?_, ?_, ?_, hs⟩
  · rw [hf.header]
    exact h1.format
  · rw [hf.header]
    exact h1.version
  · rw [hf.header]
    exact h1.indexCount

/-- **Every clean call** keeps what a file needs to be opened again. -/
theorem Closable.exec (h : Closable file) (hs : Sound file) {env : Env A} {call : Call}
    (hexp : ∀ file file1, env.expandIndexes file = some file1 → Closable file → Closable file1)
    (hl : call.Legal file) (hc : call.Clean env file) (hrun : call.exec env file = some file') :
    Closable file' := by
  obtain ⟨T, es, own, hs'⟩ := exec_sound hs hl hc hrun
  have hsound : file'.freeList.Sound := hs'.blocks.placed.sound
  cases call with
  | create now p name schema =>
    exact h.create (fun file1 h1 => hexp _ _ h1 h) hl.2.1 hl.2.2 hrun
  | delete d p =>
    obtain ⟨file1, hunlink, hf⟩ := deleteDocument_freeing hrun
    exact h.freed (sameTables_unlinked hunlink) hf hsound
  | deleteRoot =>
    obtain ⟨file1, hunlink, hf⟩ := deleteDocument_freeing hrun
    exact h.freed (sameTables_unlinked hunlink) hf hsound
  | update k key input => exact h.update hrun

end Update

/-! ## 2. A store that is opened again

The blocks, the links and the bytes are those of the store that was closed; the free list may have
its NEW nodes in another order. -/

section Reopen

variable {file file' : ZgdbFile Nat}

/-- No node is lost, and none comes twice. -/
theorem Restored.perm (h : Restored file file') (hp : Placed file (blockCapacity file)) :
    file'.freeList.nodes.Perm file.freeList.nodes := by
  have hmem : ∀ n ∈ file.freeList.nodes, n ∈ file'.freeList.nodes := by
    intro n hn
    by_cases h0 : n.blockSize = 0
    · obtain ⟨order, size⟩ := n
      obtain rfl : size = 0 := h0
      exact (h.new order).mpr hn
    · have hdead : n ∈ file.freeList.nodes.filter (·.blockSize ≠ 0) :=
        List.mem_filter.mpr ⟨hn, by simpa using h0⟩
      rw [← h.dead] at hdead
      exact (List.mem_filter.mp hdead).1
  have hlen : file'.freeList.nodes.length = file.freeList.nodes.length := by
    rw [← h.sound.indexes, ← hp.sound.indexes, h.counters.1]
  have hnodup : file.freeList.nodes.Nodup := hp.nodup.of_map
  exact ((List.subperm_of_subset hnodup hmem).perm_of_length_le (Nat.le_of_eq hlen)).symm

/-- **A file that is opened again** has its blocks where they were. -/
theorem Restored.relocated (h : Restored file file') (hp : Placed file (blockCapacity file)) :
    Relocated file file' := by
  have hperm := h.perm hp
  refine ⟨Nat.le_of_eq (congrArg ZgdbHeader.indexCount h.header).symm, ?_, ?_, ?_, ?_, ?_⟩
  · intro k _
    rw [h.indexes]
  · intro k hk hlt
    rw [h.header] at hlt
    omega
  · intro k hk d hd
    have hbelow := hp.below hk
    have hpos : blockPos file' k = blockPos file k := by
      rw [blockPos, blockPos, getIndex, getIndex, h.header, h.indexes]
    rw [blockAt, blockAt, hpos]
    refine h.bytes _ ?_
    rw [blockPos, getIndex_eq hk.lt, add_nat]
    exact Nat.lt_of_lt_of_le (Nat.add_lt_add_left hd _) hbelow
  · refine ⟨h.sound, (hperm.map _).nodup_iff.mpr hp.nodup, ?_, ?_, ?_⟩
    · intro n hn
      rw [h.header, h.indexes]
      exact hp.node n (hperm.mem_iff.mp hn)
    · intro k hk
      rw [h.header] at hk
      rw [h.indexes]
      refine (hp.free k hk).imp_right ?_
      rintro ⟨n, hn, hnk⟩
      exact ⟨n, hperm.mem_iff.mpr hn, hnk⟩
    · obtain ⟨ks, hnodup, hmem, htiles⟩ := hp.tiled
      refine ⟨ks, hnodup, ?_, ?_⟩
      · intro k
        rw [hmem, Used, Used, Alive, Alive, Dead, Dead, h.header, h.indexes]
      · rw [h.header, h.indexes]
        exact htiles
  · rw [h.header]

/-- **What was kept is kept.** -/
theorem Restored.keeps {c : Catalog} (h : Restored file file') (hk : Keeps file c) :
    Keeps file' c := by
  obtain ⟨es, own, hs, hun⟩ := hk.store
  obtain ⟨hs', hcarried, -⟩ := hs.relocate (h.relocated hs.blocks.placed)
  exact ⟨⟨es, own, hs', hun⟩, hk.carried (fun _ hm => hm) hs hcarried⟩

theorem Restored.closable (h : Restored file file') (hc : Closable file) : Closable file' := by
  refine ⟨h.saved, ?_, ?_, ?_, h.sound⟩
  · rw [h.header]
    exact hc.format
  · rw [h.header]
    exact hc.version
  · rw [h.header]
    exact hc.indexCount

end Reopen

/-! ## 3. Connections

A client is a step on the file on the disk: open, serve, close.  The relation to the catalog is
carried over the end of the connection. -/

/-- A client that connects at `now`, and what it asks for, each request with its time. -/
structure Client where
  now : UInt32
  requests : List (UInt32 × XmlNode)

/-- `init` on a path, where a file may be or none. -/
def openPath (now : UInt32) : Option ClosedFile → Option (ZgdbFile Nat)
  | none => some (init now)
  | some file => reopen now file

/-- The loop of `main`. -/
def serveClients (env : ServerEnv Nat) :
    List Client → Option ClosedFile → Except Crash (List (List XmlNode) × Option ClosedFile)
  | [], path => .ok ([], path)
  | client :: clients, path => do
    let file ← defined (openPath client.now path)
    let (answers, file) ← serve env client.requests file
    let (rest, path) ← serveClients env clients (some (finish file))
    return (answers :: rest, path)

/-- Every request of every client is servable where it is served, and the free indices can be
counted in an `int` whenever a connection ends. -/
def ServableClients (env : ServerEnv Nat) : List Client → Option ClosedFile → Prop
  | [], _ => True
  | client :: clients, path => ∀ file, openPath client.now path = some file →
    ServableSession env client.requests file ∧
      ∀ answers file', serve env client.requests file = .ok (answers, file') →
        file'.freeList.indexesCount < 2 ^ 31 ∧
          ServableClients env clients (some (finish file'))

/-- All requests, in the order in which they are served. -/
def allRequests (clients : List Client) : List (UInt32 × XmlNode) :=
  clients.flatMap Client.requests

/-- The file was closed with this catalog in it, and can be opened.  The number of free indices fits
into an `int`, in which `readFreeList` counts them. -/
def Contains (closed : ClosedFile) (c : Catalog) : Prop :=
  ∃ file, closed = finish file ∧ Closable file ∧ Keeps file c ∧
    file.freeList.indexesCount < 2 ^ 31

/-- What is on the disk; a catalog with the root alone need not be, because `init` makes it when
there is no file. -/
def OnDisk (path : Option ClosedFile) (c : Catalog) : Prop :=
  match path with
  | none => ∃ id, c = .new id
  | some closed => Contains closed c

section Connections

variable {env : ServerEnv Nat} {file file' : ZgdbFile Nat} {c : Catalog}
  {requests : List (UInt32 × XmlNode)}

/-- **What is on the disk is opened.** -/
theorem Contains.reopen {closed : ClosedFile} (h : Contains closed c) (now : UInt32) :
    ∃ file, reopen now closed = some file ∧ Closable file ∧ Keeps file c := by
  obtain ⟨file, rfl, hclosable, hkeeps, hcount⟩ := h
  obtain ⟨file', hopen, hr⟩ := (hclosable.reopen_iff now).mpr hcount
  exact ⟨file', hopen, hr.closable hclosable, hr.keeps hkeeps⟩

theorem ServableSession.clean (h : ServableSession env requests file) :
    CleanSession env requests file := by
  induction requests generalizing file with
  | nil => trivial
  | cons x requests ih =>
    obtain ⟨hone, hrest⟩ := h
    exact ⟨hone.clean, fun answer file' hexec => ih (hrest answer file' hexec)⟩

/-- A session leaves a file that can be closed. -/
theorem Closable.serve (h : Closable file) (hs : Sound file)
    (hexp : env.expandIndexes = Zgdb.expandIndexes) (hserv : ServableSession env requests file)
    {answers : List XmlNode} (hrun : serve env requests file = .ok (answers, file')) :
    Closable file' := by
  have hexp' : ∀ file file1, env.calls.expandIndexes file = some file1 → Closable file →
      Closable file1 := by
    intro file file1 h1 hc
    rw [ServerEnv.calls, hexp] at h1
    exact hc.expandIndexes h1
  have hboth := (serve_run hs hserv.clean hrun).1.inv (I := fun file => Sound file ∧ Closable file)
    ⟨hs, h⟩ (by
      rintro f call f' ⟨hf, hfc⟩ ⟨hl, hc⟩ he
      exact ⟨exec_sound hf hl hc he, hfc.exec hf hexp' hl hc he⟩)
  exact hboth.2

/-- A session on a catalog and another one behind it. -/
theorem Catalog.serve_append (strtod : CString → StrtodResult) (sprintfF : UInt64 → CString)
    (l l' : List ((UInt32 × XmlNode) × Place)) (c : Catalog) :
    Catalog.serve strtod sprintfF (l ++ l') c =
      (Catalog.serve strtod sprintfF l c >>= fun x =>
        Catalog.serve strtod sprintfF l' x.2 >>= fun y => .ok (x.1 ++ y.1, y.2)) := by
  induction l generalizing c with
  | nil =>
    show _ = Catalog.serve strtod sprintfF l' c >>= fun y => .ok (y.1, y.2)
    exact (bind_pure _).symm
  | cons x l ih =>
    obtain ⟨⟨now, root⟩, place⟩ := x
    simp only [List.cons_append, Catalog.serve, ih, bind_assoc]
    rfl

theorem freePlaces_append {strtod : CString → StrtodResult} {sprintfF : UInt64 → CString}
    {l l' : List ((UInt32 × XmlNode) × Place)} {c : Catalog} (h : FreePlaces strtod sprintfF l c)
    (h' : ∀ answers c', Catalog.serve strtod sprintfF l c = .ok (answers, c') →
      FreePlaces strtod sprintfF l' c') : FreePlaces strtod sprintfF (l ++ l') c := by
  induction l generalizing c with
  | nil => exact h' [] c rfl
  | cons x l ih =>
    obtain ⟨⟨now, root⟩, place⟩ := x
    obtain ⟨hfree, hrest⟩ := h
    refine ⟨hfree, ?_⟩
    intro answer c' hexec
    refine ih (hrest answer c' hexec) ?_
    intro answers c'' hserve
    refine h' (answer :: answers) c'' ?_
    simp only [Catalog.serve, hexec, ok_bind, hserve]
    rfl

/-- The same answers, and the catalog is on the disk. -/
def Leaves (x : List (List XmlNode) × Option ClosedFile) (y : List XmlNode × Catalog) : Prop :=
  x.1.flatten = y.1 ∧ OnDisk x.2 y.2

/-- The clients do to the file on the disk what one session does to a catalog, with some free places
for its documents. -/
def ConnectsLike (env : ServerEnv Nat) (clients : List Client) (path : Option ClosedFile)
    (c : Catalog) : Prop :=
  ∃ places : List Place, places.length = (allRequests clients).length ∧
    FreePlaces env.search.strtod env.sprintfF ((allRequests clients).zip places) c ∧
    Agree Leaves (serveClients env clients path)
      (Catalog.serve env.search.strtod env.sprintfF ((allRequests clients).zip places) c)

/-- **One connection** and those behind it. -/
theorem Keeps.connect (hk : Keeps file c) (hc : Closable file)
    (hexp : env.expandIndexes = Zgdb.expandIndexes) {client : Client}
    {clients : List Client} {path : Option ClosedFile}
    (hopen : openPath client.now path = some file)
    (hserv : ServableClients env (client :: clients) path)
    (hnext : ∀ closed c', Contains closed c' → ServableClients env clients (some closed) →
      ConnectsLike env clients (some closed) c') :
    ConnectsLike env (client :: clients) path c := by
  obtain ⟨hsession, hrest⟩ := hserv file hopen
  obtain ⟨places, hlen, hfree, hagree⟩ := hk.serve hsession
  have hall : allRequests (client :: clients)
      = client.requests ++ allRequests clients := List.flatMap_cons
  have hzip : ∀ places' : List Place, (allRequests (client :: clients)).zip
      (places ++ places') = client.requests.zip places ++ (allRequests clients).zip places' := by
    intro places'
    rw [hall, List.zip_append hlen.symm]
  have hfirst : serveClients env (client :: clients) path =
      (Zgdb.serve env client.requests file >>= fun x =>
        serveClients env clients (some (finish x.2)) >>= fun y =>
          .ok (x.1 :: y.1, y.2)) := by
    rw [serveClients, hopen]
    rfl
  -- the places for the others depend on what the first one leaves
  obtain ⟨places', hlen', hothers⟩ : ∃ places' : List Place,
      places'.length = (allRequests clients).length ∧ ∀ x y,
        Zgdb.serve env client.requests file = .ok x →
        Catalog.serve env.search.strtod env.sprintfF (client.requests.zip places) c = .ok y →
        FreePlaces env.search.strtod env.sprintfF ((allRequests clients).zip places') y.2 ∧
          Agree Leaves (serveClients env clients (some (finish x.2)))
            (Catalog.serve env.search.strtod env.sprintfF
              ((allRequests clients).zip places') y.2) := by
    cases hrun : Zgdb.serve env client.requests file with
    | error crash =>
      refine ⟨List.replicate _ ⟨0, 0⟩, List.length_replicate, ?_⟩
      intro x y hx
      cases hx
    | ok x =>
      rw [hrun] at hagree
      obtain ⟨y, hcatalog, -, hkeeps⟩ := hagree.of_ok
      obtain ⟨hcount, hservable⟩ := hrest x.1 x.2 hrun
      obtain ⟨es, own, hs, -⟩ := id hk.store
      have hclosable := hc.serve ⟨_, _, _, hs⟩ hexp hsession hrun
      obtain ⟨places', hlen', hfree', hagree'⟩ :=
        hnext (finish x.2) y.2 ⟨x.2, rfl, hclosable, hkeeps, hcount⟩ hservable
      refine ⟨places', hlen', ?_⟩
      intro x' y' hx hy
      obtain rfl := Except.ok.inj hx
      obtain rfl := Except.ok.inj (hcatalog.symm.trans hy)
      exact ⟨hfree', hagree'⟩
  refine ⟨places ++ places', ?_, ?_, ?_⟩
  · rw [hall, List.length_append, List.length_append, hlen, hlen']
  · rw [hzip]
    refine freePlaces_append hfree ?_
    intro answers c' hok
    rw [hok] at hagree
    obtain ⟨x, hx, -⟩ := hagree.of_ok_right
    exact (hothers x _ hx hok).1
  · rw [hzip, Catalog.serve_append, hfirst]
    refine hagree.bind ?_
    rintro ⟨answers, file'⟩ ⟨answers', c'⟩ hx hy ⟨heq, -⟩
    obtain rfl : answers = answers' := heq
    refine (hothers _ _ hx hy).2.bind ?_
    rintro ⟨rest, path'⟩ ⟨rest', c''⟩ - - ⟨heq, hdisk⟩
    obtain rfl : rest.flatten = rest' := heq
    exact .ok ⟨List.flatten_cons, hdisk⟩

/-- Clients of a file that is there. -/
theorem Contains.clients (hexp : env.expandIndexes = Zgdb.expandIndexes)
    {clients : List Client} {closed : ClosedFile} (h : Contains closed c)
    (hserv : ServableClients env clients (some closed)) :
    ConnectsLike env clients (some closed) c := by
  induction clients generalizing closed c with
  | nil => exact ⟨[], rfl, trivial, .ok ⟨rfl, h⟩⟩
  | cons client clients ih =>
    obtain ⟨file, hopen, hclosable, hkeeps⟩ := h.reopen client.now
    exact hkeeps.connect hclosable hexp hopen hserv fun closed c' hc' => ih hc'

/-- Clients of a server that has no file yet. -/
theorem ServableClients.connectsLike (hexp : env.expandIndexes = Zgdb.expandIndexes)
    {clients : List Client} (hserv : ServableClients env clients none) :
    ∃ id, ConnectsLike env clients none (.new id) := by
  cases clients with
  | nil => exact ⟨generateId 0 0, [], rfl, trivial, .ok ⟨rfl, generateId 0 0, rfl⟩⟩
  | cons client clients =>
    obtain ⟨id, hkeeps⟩ := keeps_init (A := Nat) client.now
    exact ⟨id, hkeeps.connect (closable_init client.now) hexp rfl hserv
      fun closed c' hc' => hc'.clients hexp⟩

/-- **The server refines a catalog over its connections.**  All clients together get the answers of
one session on a catalog with the root alone, and the file that is left on the disk opens as a store
that keeps the catalog that is left; or the server crashes, and the session with it and alike. -/
theorem connections_refine_catalog (hexp : env.expandIndexes = Zgdb.expandIndexes)
    {clients : List Client} (hserv : ServableClients env clients none) :
    ∃ (id : DocumentId) (places : List Place),
      places.length = (allRequests clients).length ∧
      FreePlaces env.search.strtod env.sprintfF ((allRequests clients).zip places) (.new id) ∧
      (∀ answers path, serveClients env clients none = .ok (answers, path) →
        ∃ c, Catalog.serve env.search.strtod env.sprintfF ((allRequests clients).zip places)
          (.new id) = .ok (answers.flatten, c) ∧ OnDisk path c) ∧
      ∀ crash, serveClients env clients none = .error crash →
        Catalog.serve env.search.strtod env.sprintfF ((allRequests clients).zip places)
          (.new id) = .error crash := by
  obtain ⟨id, places, hlen, hfree, hagree⟩ := hserv.connectsLike hexp
  refine ⟨id, places, hlen, hfree, ?_, ?_⟩
  · intro answers path hrun
    rw [hrun] at hagree
    obtain ⟨⟨answers', c⟩, hserve, heq, hdisk⟩ := hagree.of_ok
    obtain rfl : answers.flatten = answers' := heq
    exact ⟨c, hserve, hdisk⟩
  · intro crash hrun
    rw [hrun] at hagree
    exact hagree.of_error

end Connections

/-! ## 4. A sample

Two clients: one adds a document, the other asks for its element. -/

/-- A server of files. -/
def fileServer : ServerEnv Nat := ⟨expandIndexes, sampleSearch, fun _ => stringA, 0⟩

/-- The path `/@"a"` of the elements `a` of the sons of the root. -/
def pathElementA : PathTree := .last (.absoluteKey stringA)

/-- A request for them. -/
def findElementA (sprintfF : UInt64 → CString) : XmlNode :=
  zpathToXml sprintfF ⟨.find, pathElementA.ast, pathElementA.ast.length⟩

section Sample

variable {A : Type} [BlockSpace A] {env : ServerEnv A} {file : ZgdbFile A}

/-- A request to find makes no call. -/
theorem callOf_find (sprintfF : UInt64 → CString) (path : AstPath) :
    callOf env (zpathToXml sprintfF ⟨.find, path⟩) file = none := by
  refine Option.eq_none_iff_forall_ne_some.mpr ?_
  intro call hcall
  obtain ⟨doc, -, hcall⟩ := Option.bind_eq_some_iff.mp hcall
  obtain ⟨type, htype, hcall⟩ := Option.bind_eq_some_iff.mp hcall
  obtain rfl : type = xmlChar "find" :=
    Option.some.inj (htype.symm.trans (type_prop sprintfF path .find))
  rw [if_neg (by decide), if_neg (by decide), if_neg (by decide)] at hcall
  cases hcall

theorem servable_find (sprintfF : UInt64 → CString) (path : AstPath) :
    Servable env (zpathToXml sprintfF ⟨.find, path⟩) file := by
  have hnone : ∀ call, callOf env (zpathToXml sprintfF ⟨.find, path⟩) file ≠ some call := by
    intro call hcall
    rw [callOf_find] at hcall
    cases hcall
  refine ⟨fun call h => absurd h (hnone call), fun call h => absurd h (hnone call),
    fun call h => absurd h (hnone call), ?_⟩
  intro hjoin
  have htype : xmlChar "find" = xmlChar "join" :=
    Option.some.inj ((type_prop sprintfF path .find).symm.trans hjoin)
  cases htype

omit [BlockSpace A] in
/-- There are no more free indices than indices. -/
theorem Placed.indexesCount_le {cap : Nat → Nat} (h : Placed file cap) :
    file.freeList.indexesCount ≤ file.header.indexCount := by
  rw [h.sound.indexes, ← List.length_map Node.indexOrder]
  refine length_le_of_lt h.nodup ?_
  intro k hk
  obtain ⟨n, hn, rfl⟩ := List.mem_map.mp hk
  exact (h.node n hn).1

end Sample

/-- What the first client of the sample leaves. -/
theorem serve_addA {answers : List XmlNode} {file' : ZgdbFile Nat}
    (hrun : serve fileServer [(0, addA fileServer.sprintfF)] (init 0) = .ok (answers, file')) :
    Sound file' ∧ Closable file' ∧ file'.freeList.indexesCount < 2 ^ 31 := by
  have hs : Store (init 0 : ZgdbFile Nat) rootTree _ _ := init_store
  have hserv : ServableSession fileServer [(0, addA fileServer.sprintfF)] (init 0) :=
    ⟨servable_addA fileServer, fun _ _ _ => trivial⟩
  obtain ⟨-, hsound, -⟩ := session_run hserv.clean hrun
  refine ⟨hsound, (closable_init 0).serve ⟨_, _, _, hs⟩ rfl hserv hrun, ?_⟩
  obtain ⟨answer, file1, rest, hexec, hrest, -⟩ := serve_cons hrun
  obtain ⟨-, rfl⟩ := Prod.mk.inj (Except.ok.inj hrest)
  obtain ⟨schema, hcall, -⟩ := addA_call fileServer
  rcases hs.executeZgdbFromXml_calls _ hexec with ⟨hnone, -⟩ | ⟨call, hcall', hlegal, he⟩
  · have hcall0 : callOf { fileServer with now := 0 } (addA fileServer.sprintfF)
        (init 0 : ZgdbFile Nat) = _ := hcall
    rw [hcall0] at hnone
    cases hnone
  obtain rfl := Option.some.inj (hcall'.symm.trans hcall)
  obtain ⟨-, file2, n, own, hcreate, -, hend⟩ :=
    create_first (A := Nat) fileServer.calls 0 keyA hlegal.2.1 hlegal.2.2
  obtain rfl : file1 = file2 := by
    have he' : (createDocument fileServer.calls.expandIndexes 0 (init 0) keyA schema
      (documentAt (init 0 : ZgdbFile Nat) 0 0)).map Prod.snd = some file1 := he
    rw [hcreate] at he'
    exact (Option.some.inj he').symm
  obtain ⟨T, es, own', hs1⟩ := hsound
  refine Nat.lt_of_le_of_lt hs1.blocks.placed.indexesCount_le ?_
  rw [hend.tables.indexCount]
  decide

/-- One client adds a document, and the next one looks for its element. -/
def addThenFind : List Client :=
  [⟨0, [(0, addA fileServer.sprintfF)]⟩, ⟨1, [(1, findElementA fileServer.sprintfF)]⟩]

theorem servable_addThenFind : ServableClients fileServer addThenFind none := by
  intro file hopen
  obtain rfl := Option.some.inj hopen
  refine ⟨⟨servable_addA fileServer, fun _ _ _ => trivial⟩, ?_⟩
  intro answers file1 hrun
  obtain ⟨hsound, hclosable, hcount⟩ := serve_addA hrun
  refine ⟨hcount, ?_⟩
  intro file2 hopen2
  refine ⟨⟨servable_find fileServer.sprintfF _, fun _ _ _ => trivial⟩, ?_⟩
  intro answers2 file3 hrun2
  obtain ⟨file2', hopen2', hr⟩ := (hclosable.reopen_iff 1).mpr hcount
  obtain rfl := Option.some.inj (hopen2.symm.trans hopen2')
  obtain ⟨T, es, own, hs⟩ := hsound
  have hs2 := (hs.relocate (hr.relocated hs.blocks.placed)).1
  obtain ⟨answer, file4, rest, hexec, hrest, -⟩ := serve_cons hrun2
  obtain ⟨-, rfl⟩ := Prod.mk.inj (Except.ok.inj hrest)
  rcases hs2.executeZgdbFromXml_calls _ hexec with ⟨-, rfl⟩ | ⟨call, hcall, -⟩
  · exact ⟨hr.counters.1 ▸ hcount, trivial⟩
  · rw [findElementA, callOf_find] at hcall
    cases hcall

theorem connections_refine_catalog_addThenFind : ∃ (id : DocumentId) (places : List Place),
    places.length = (allRequests addThenFind).length ∧
    FreePlaces fileServer.search.strtod fileServer.sprintfF
      ((allRequests addThenFind).zip places) (.new id) ∧
    (∀ answers path, serveClients fileServer addThenFind none = .ok (answers, path) →
      ∃ c, Catalog.serve fileServer.search.strtod fileServer.sprintfF
        ((allRequests addThenFind).zip places) (.new id) = .ok (answers.flatten, c) ∧
        OnDisk path c) ∧
    ∀ crash, serveClients fileServer addThenFind none = .error crash →
      Catalog.serve fileServer.search.strtod fileServer.sprintfF
        ((allRequests addThenFind).zip places) (.new id) = .error crash :=
  connections_refine_catalog rfl servable_addThenFind

end Zgdb
