/-
# Runs of the store

The calls of a server, each on the documents it has looked up (`Call.exec`), what a caller promises
(`Call.Legal`), and the runs from a new store.  A call is clean when it does not reach one of the
places where the code leaves the store broken; `Call.Clean` names them:

* an expansion of the index table that does not keep the blocks as they are;
* a toast that gets a DEAD block which ends where another block starts (its zero bytes spill);
* the root deleted while it has several sons;
* a text grown from a size that is a multiple of `CHUNK_SIZE`, or across toasts while it does not
  lie in the first one.

Every call keeps the store sound if it is clean (`exec_sound`), so every state a clean run reaches
is sound (`Reaches.sound`).
-/
import Zgdb.DeleteRoot
import Zgdb.Fresh
import Zgdb.Updates
import Zgdb.Lib.Run

namespace Zgdb

open Zgdb.Lib AddrSpace

/-- What the calls take from elsewhere: `expandIndexes`, and `strtod` of the C library.  Results
that hold for every expansion of the index table have it as a parameter; the source's own is
`Zgdb.expandIndexes`, over a file of bytes. -/
structure Env (A : Type) where
  expandIndexes : ZgdbFile A → Option (ZgdbFile A)
  strtod : CString → StrtodResult

/-- The calls.  Documents are named by their index; `delete` takes the parent that the document was
found under.  A caller of the source holds copies of the headers instead, which it has just looked
up: `Call.exec` takes the headers as they are stored. -/
inductive Call where
  | create (now : UInt32) (parent : Nat) (name : Name) (schema : DocumentSchema)
  | delete (doc parent : Nat)
  | deleteRoot
  | update (doc : Nat) (key input : CString)

variable {A : Type} [BlockSpace A]

/-- More iterations than a loop of `deleteDocument` makes. -/
def loopBound (file : ZgdbFile A) : Nat := file.header.indexCount + 1

/-- A call on the documents as they are stored. -/
def Call.exec (env : Env A) (file : ZgdbFile A) : Call → Option (ZgdbFile A)
  | create now parent name schema =>
    (createDocument env.expandIndexes now file name schema (documentAt file parent 0)).map Prod.snd
  | delete doc parent => deleteDocument (loopBound file) file (documentAt file doc parent)
  | deleteRoot => deleteDocument (loopBound file) file (documentAt file 0 0)
  | update doc key input =>
    (updateElement env.strtod file (documentAt file doc 0) key input).map Prod.snd

/-- A live document: an ALIVE index whose block starts with the type byte of a document.  This is a
condition on the file alone, which a caller could check; in a sound store it names the nodes of the
tree (`Store.live_iff`). -/
def Live (file : ZgdbFile A) (k : Nat) : Prop :=
  Alive file k ∧ freadAt byteK file (blockPos file k) 0 = BlockType.document.code

/-- `d` is in the sibling chain of the sons of `p`. -/
def SonOf (file : ZgdbFile A) (p d : Nat) : Prop := Forest.IsSon (sonOf file) (brotherOf file) p d

/-- What the caller promises, and what the server keeps to: documents are live, a schema was built
by the `add…ToSchema` functions and is full, and a document is deleted under the parent whose son it
is.  The deletion of the root and updates with any key and any input are always legal. -/
def Call.Legal (file : ZgdbFile A) : Call → Prop
  | create _ parent _ schema => Live file parent ∧ schema.Built ∧ schema.Complete
  | delete doc parent => Live file doc ∧ doc ≠ 0 ∧ Live file parent ∧ SonOf file parent doc
  | deleteRoot => True
  | update doc _ _ => Live file doc

/-- The call does not reach a place where the store breaks.  This is a condition on the store before
the call, one for each of the places:

A creation: if the index table is expanded, the blocks are moved without a change (`Relocated`), and
the toast of the texts does not spill into another block when it is cleared (`NoSpill`).  A
deletion: the root is deleted only while it has at most one son; of several the code unlinks the
last one and frees the others, which the root goes on leading to.  An update: see `UpdateClean`.

What a clean call leaves is sound again (`exec_sound`), so the results on clean runs hold in each of
their states; each condition is needed, and the counterexamples of the results are calls that miss
one of them. -/
def Call.Clean (env : Env A) (file : ZgdbFile A) : Call → Prop
  | create _ _ _ schema => ∀ file1, expanded env.expandIndexes file = some file1 →
      Relocated file file1 ∧ (schema.reqToast = true → NoSpill file1 (toastRequest schema))
  | delete _ _ => True
  | deleteRoot => ∀ d, sonOf file 0 = some d → brotherOf file d = none
  | update doc key input => UpdateClean file doc key input

/-- Creations, and deletions of documents other than the root: the calls that change the tree and
write no text but those of new documents. -/
def Call.Structural : Call → Prop
  | create .. => True
  | delete .. => True
  | deleteRoot => False
  | update .. => False

/-- The call does not expand the index table. -/
def Call.Unexpanded (file : ZgdbFile A) : Call → Prop
  | create .. => needsExpansion file = false
  | _ => True

/-- The states of the runs from a new store whose calls are legal and meet the condition `ok`, each
where it is made.  A run is finite and may be empty; a call that does not return ends it before. -/
def Reaches (env : Env A) (ok : ZgdbFile A → Call → Prop) (file : ZgdbFile A) : Prop :=
  ∃ now calls, Run (Call.exec env) (fun file call => call.Legal file ∧ ok file call) (init now)
    calls file

/-- Everything is in order: some tree, elements and toasts meet the invariant of the store.  It is a
condition on the file alone, which the results on runs carry along. -/
def Sound (file : ZgdbFile A) : Prop := ∃ T es own, Store file T es own

theorem IsDocument.live {file : ZgdbFile A} {k : Nat} (h : IsDocument file k) (ha : Alive file k) :
    Live file k := by
  refine ⟨ha, ?_⟩
  rw [freadAt_eq, load_byte_of_holds h.holds rfl]
  exact h.type

section Steps

variable {env : Env A} {file file' : ZgdbFile A} {T : Forest Nat} {es : Nat → List StoredElement}
  {own : Nat → List Nat}

/-- The live documents are the nodes of the tree. -/
theorem Store.live_iff (hs : Store file T es own) {k : Nat} : Live file k ↔ k ∈ T.nodes := by
  refine Iff.trans (and_congr_right ?_) (hs.blocks.docs k).symm
  intro hal
  constructor
  · intro hb
    rw [freadAt_eq] at hb
    refine (hs.blocks.block k (Or.inl hal)).resolve_right ?_
    intro ht
    have hbyte := load_byte_of_holds ht.holds rfl
    have hcode : (toastK.wrap (toastAt file k)).bytes.getD 0 0 = BlockType.toast.code := ht.type
    rw [hb, hcode] at hbyte
    cases hbyte
  · intro hd
    exact (hd.live hal).2

theorem Store.sonOf_iff (hs : Store file T es own) {p d : Nat} (hp : p ∈ T.nodes) :
    SonOf file p d ↔ d ∈ (T.sonsOf p).roots := hs.links.isSon_iff hp

/-! ## 1. One call

A call is legal and clean: it does what the modules of the operations say, on the documents that are
named by an index. -/

/-- **A creation inserts a leaf.** -/
theorem exec_create (hs : Store file T es own) {now : UInt32} {p : Nat} {name : Name}
    {schema : DocumentSchema} (hl : (Call.create now p name schema).Legal file)
    (hc : (Call.create now p name schema).Clean env file)
    (he : (Call.create now p name schema).exec env file = some file') :
    ∃ n own', Inserted file file' T es own p n name schema own' ∧
      ∀ file1, expanded env.expandIndexes file = some file1 →
        ∃ file2 m, n = m.indexOrder ∧ Allocated file1 file2 file' schema m own' := by
  obtain ⟨hp, hbuilt, hcomplete⟩ := hl
  have hpT := hs.live_iff.mp hp
  have hatt : (documentAt file p 0).header.indexAttached = p := hs.attached hpT
  obtain ⟨⟨status, f⟩, hrun, rfl⟩ := Option.map_eq_some_iff.mp he
  obtain ⟨-, n, own', h⟩ := createDocument_spec hs (by rw [hatt]; exact hpT) hbuilt.wf hcomplete
    (fun file1 h1 => (hc file1 h1).1) (fun file1 h1 => (hc file1 h1).2) hrun
  rw [hatt] at h
  exact ⟨n, own', h⟩

variable (env) in
/-- **A deletion removes a subtree**, and returns. -/
theorem exec_delete (hs : Store file T es own) {d p : Nat} (hl : (Call.delete d p).Legal file) :
    ∃ file', (Call.delete d p).exec env file = some file' ∧
      ∃ ts, Removed file file' T es own d ts := by
  obtain ⟨-, -, hp, hson⟩ := hl
  have hpT := hs.live_iff.mp hp
  exact deleteDocument_spec hs hpT ((hs.sonOf_iff hpT).mp hson) (Nat.lt_succ_self _)

omit [BlockSpace A] in
/-- No node, one, or more. -/
theorem chain_cases (l : List Nat) :
    l = [] ∨ (∃ d, l = [d]) ∨ ∃ c mid d, l = c :: (mid ++ [d]) := by
  rcases l with _ | ⟨c, rest⟩
  · exact Or.inl rfl
  · rcases List.eq_nil_or_concat' rest with rfl | ⟨mid, d, rfl⟩
    · exact Or.inr (Or.inl ⟨c, rfl⟩)
    · exact Or.inr (Or.inr ⟨c, mid, d, rfl⟩)

/-- The links at the root, when it has more than one son. -/
theorem Store.root_many (hs : Store file T es own) {c d : Nat} {mid : List Nat}
    (hr : (T.sonsOf 0).roots = c :: (mid ++ [d])) :
    sonOf file 0 = some c ∧ ∃ e, brotherOf file c = some e := by
  have hsons := hs.links.sonsOf hs.root_mem
  constructor
  · have he := hsons.entry
    rw [hr] at he
    exact he
  · cases mid with
    | nil =>
      have hr' : (T.sonsOf 0).roots = [] ++ c :: d :: [] := hr
      exact ⟨d, hsons.brother_of_roots hr'⟩
    | cons e mid =>
      have hr' : (T.sonsOf 0).roots = [] ++ c :: e :: (mid ++ [d]) := hr
      exact ⟨e, hsons.brother_of_roots hr'⟩

/-- The root has at most one son when the first one has no brother. -/
theorem Store.root_clean (hs : Store file T es own) (hc : Call.deleteRoot.Clean env file) :
    (T.sonsOf 0).roots = [] ∨ ∃ d, (T.sonsOf 0).roots = [d] := by
  rcases chain_cases (T.sonsOf 0).roots with h | h | ⟨c, mid, d, h⟩
  · exact Or.inl h
  · exact Or.inr h
  · obtain ⟨hson, e, he⟩ := hs.root_many h
    exact absurd ((hc c hson).symm.trans he).symm (Option.some_ne_none e)

/-- **A deletion of the root** with at most one son leaves the root alone. -/
theorem exec_deleteRoot (hs : Store file T es own) (hc : Call.deleteRoot.Clean env file) :
    ∃ file', Call.deleteRoot.exec env file = some file' ∧
      (file' = file ∧ T = .cons 0 .nil .nil ∨
        Store file' (.cons 0 .nil .nil) es own ∧ Carried (.cons 0 .nil .nil) own file file' ∧
          Reclaimed file file' (T.sonsOf 0).nodes) := by
  rcases hs.root_clean hc with hr | ⟨d, hr⟩
  · refine ⟨file, deleteRoot_none hs (Nat.lt_succ_self _) hr, Or.inl ⟨rfl, ?_⟩⟩
    have hT := hs.tree_eq
    cases hF : T.sonsOf 0 with
    | nil => rwa [hF] at hT
    | cons a s b =>
      rw [hF] at hr
      cases hr
  · obtain ⟨file', hrun, h⟩ := deleteRoot_one hs (Nat.lt_succ_self _) hr
    exact ⟨file', hrun, Or.inr h⟩

/-- **An update** returns and keeps the tree. -/
theorem exec_update (hs : Store file T es own) {k : Nat} {key input : CString}
    (hl : (Call.update k key input).Legal file) (hc : (Call.update k key input).Clean env file) :
    ∃ file', (Call.update k key input).exec env file = some file' ∧
      Updated file file' T es own k key input := by
  obtain ⟨status, file', hrun, h⟩ : ∃ status file', updateElement env.strtod file
      (documentAt file k 0) key input = some (status, file') ∧ _ :=
    updateElement_spec hs (hs.live_iff.mp hl) 0 hc
  exact ⟨file', by rw [Call.exec, hrun]; rfl, h⟩

theorem Updated.sound {k : Nat} {key input : CString} (hs : Store file T es own)
    (h : Updated file file' T es own k key input) : Sound file' := by
  cases h with
  | absent _ hf => exact hf ▸ ⟨T, es, own, hs⟩
  | scalar _ _ _ _ h _ => exact ⟨_, _, _, h.store⟩
  | within _ _ _ h _ => exact ⟨_, _, _, h.edited.store⟩
  | across _ _ _ h _ => exact ⟨_, _, _, h.edited.store⟩

/-! ## 2. Many calls

The step lemma and, from it, what holds in every state of a run.  A condition on the calls that
implies the clean one gives runs of its own, and they are sound as well. -/

/-- **A clean call keeps the store sound.** -/
theorem exec_sound {call : Call} (hs : Sound file) (hl : call.Legal file) (hc : call.Clean env file)
    (he : call.exec env file = some file') : Sound file' := by
  obtain ⟨T, es, own, hs⟩ := hs
  cases call with
  | create now p name schema =>
    obtain ⟨n, own', h, -⟩ := exec_create hs hl hc he
    exact ⟨_, _, _, h.store⟩
  | delete d p =>
    obtain ⟨file'', hrun, ts, h⟩ : ∃ file'', (Call.delete d p).exec env file = some file'' ∧ _ :=
      exec_delete env hs hl
    obtain rfl := Option.some.inj (hrun.symm.trans he)
    exact ⟨_, _, _, h.store⟩
  | deleteRoot =>
    obtain ⟨file'', hrun, h⟩ := exec_deleteRoot hs hc
    obtain rfl := Option.some.inj (hrun.symm.trans he)
    rcases h with ⟨rfl, -⟩ | ⟨h, -⟩
    · exact ⟨T, es, own, hs⟩
    · exact ⟨_, _, _, h⟩
  | update k key input =>
    obtain ⟨file'', hrun, h⟩ := exec_update hs hl hc
    obtain rfl := Option.some.inj (hrun.symm.trans he)
    exact h.sound hs

/-- **Every state of a clean run is sound.** -/
theorem Reaches.sound {ok : ZgdbFile A → Call → Prop} (h : Reaches env ok file)
    (hok : ∀ file call, Sound file → ok file call → call.Clean env file) : Sound file := by
  obtain ⟨now, calls, hrun⟩ := h
  exact hrun.inv ⟨_, _, _, init_store⟩ fun f call f' hf hcall he =>
    exec_sound hf hcall.1 (hok f call hf hcall.2) he

theorem Reaches.new {ok : ZgdbFile A → Call → Prop} (now : UInt32) :
    Reaches env ok (init now) := ⟨now, [], .nil _⟩

/-- A run under a condition is one under a weaker condition. -/
theorem Reaches.mono {ok ok' : ZgdbFile A → Call → Prop} (h : Reaches env ok file)
    (hle : ∀ file call, ok file call → ok' file call) : Reaches env ok' file := by
  obtain ⟨now, calls, hrun⟩ := h
  exact ⟨now, calls, hrun.mono fun file call hc => ⟨hc.1, hle file call hc.2⟩⟩

theorem Reaches.snoc {ok : ZgdbFile A → Call → Prop} {call : Call} (h : Reaches env ok file)
    (hl : call.Legal file) (hok : ok file call) (he : call.exec env file = some file') :
    Reaches env ok file' := by
  obtain ⟨now, calls, hrun⟩ := h
  exact ⟨now, calls ++ [call], hrun.snoc ⟨hl, hok⟩ he⟩

end Steps

end Zgdb
