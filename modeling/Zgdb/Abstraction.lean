/-
# The catalog of a file

A file keeps a catalog when its links encode the tree of the catalog and each live document has the
id, the name and the elements that the catalog says (`Keeps`), and no stored text fills its last
chunk, so that every text reads back.  Each clean call does to the file what it does to the catalog:
a creation of texts that fill no chunk (`Keeps.create`), a deletion (`Keeps.delete`,
`Keeps.deleteRoot`), an update (`Keeps.update`).
-/
import Zgdb.Catalog
import Zgdb.Editing
import Zgdb.Parents
import Zgdb.RoundTrip
import Zgdb.Scalars

namespace Zgdb

open Zgdb.Lib AddrSpace

variable {A : Type} [BlockSpace A]

/-! ## 1. What a file keeps

The relation of a file and a catalog.  It is stated over what the iterator returns, so that the
bytes are out of sight from here on. -/

/-- An entry of the iterator is an element. -/
structure ReadsAs (x : ElementEntry) (y : Element) : Prop where
  key : x.key = y.key
  value : ∃ v, x.value = some v ∧ y.value = v.plain

/-- Document `k` is what the catalog says: its id, its name, and, element by element, what the
iterator returns. -/
structure Depicts (file : ZgdbFile A) (c : Catalog) (k : Nat) : Prop where
  id : (getDocumentHeader file k).id = c.id k
  name : (getDocumentHeader file k).name = c.name k
  elements : List.Forall₂ ReadsAs (entries file k) (c.elements k)

/-- No text fills its last chunk. -/
def Unfilled (T : Forest Nat) (es : Nat → List StoredElement) : Prop :=
  ∀ k ∈ T.nodes, ∀ f ∈ textsOf (es k), f.size % chunkSize ≠ 0

/-- The file keeps the catalog: it is a sound store with the tree of the catalog, each of its
documents is what the catalog says, and no text fills its last chunk, as the reader would lose the
end of it. -/
structure Keeps (file : ZgdbFile A) (c : Catalog) : Prop where
  store : ∃ es own, Store file c.tree es own ∧ Unfilled c.tree es
  document : ∀ k ∈ c.tree.nodes, Depicts file c k

section Reading

variable {file : ZgdbFile A} {first : Nat}

/-- Stored elements, as they are read. -/
def StoredElement.element (file : ZgdbFile A) (first : Nat) (e : StoredElement) : Element :=
  ⟨e.key, (e.value.read file first).plain⟩

theorem entriesOf_readsAs (es : List StoredElement) (d : Nat) :
    List.Forall₂ ReadsAs (entriesOf file first true d es) (es.map (·.element file first)) := by
  induction es generalizing d with
  | nil => exact .nil
  | cons e es ih => exact .cons ⟨rfl, _, rfl, rfl⟩ (ih _)

omit [BlockSpace A] in
theorem ReadsAs.unique {x : ElementEntry} {y z : Element} (h : ReadsAs x y) (h' : ReadsAs x z) :
    y = z := by
  obtain ⟨hk, v, hv, hy⟩ := h
  obtain ⟨hk', v', hv', hz⟩ := h'
  obtain rfl := Option.some.inj (hv.symm.trans hv')
  rw [Element.mk.injEq]
  exact ⟨hk.symm.trans hk', hy.trans hz.symm⟩

/-- What is kept of the entries is determined by them. -/
theorem readsAs_iff {es : List StoredElement} {d : Nat} {els : List Element} :
    List.Forall₂ ReadsAs (entriesOf file first true d es) els
      ↔ els = es.map (·.element file first) := by
  constructor
  · intro h
    have hunique : Relator.RightUnique ReadsAs := fun _ _ _ h h' => h.unique h'
    exact hunique.forall₂ h (entriesOf_readsAs es d)
  · rintro rfl
    exact entriesOf_readsAs es d

end Reading

section Keeps

variable {file file' : ZgdbFile A} {c : Catalog} {T : Forest Nat} {es : Nat → List StoredElement}
  {own : Nat → List Nat} {k : Nat}

/-- The elements of a document of a store. -/
def storedElements (file : ZgdbFile A) (es : Nat → List StoredElement) (k : Nat) : List Element :=
  (es k).map (·.element file (getDocumentHeader file k).firstToastIndex)

theorem Store.readsAs_iff (hs : Store file T es own) (hk : k ∈ T.nodes) {els : List Element} :
    List.Forall₂ ReadsAs (entries file k) els ↔ els = storedElements file es k := by
  rw [entries, hs.elementEntries_eq hk]
  exact Zgdb.readsAs_iff

/-- **A new store** keeps the root alone. -/
theorem keeps_init (now : UInt32) :
    ∃ id, Keeps (init now : ZgdbFile A) (.new id) := by
  have hs : Store (init now : ZgdbFile A) rootTree _ _ := init_store
  refine ⟨(getDocumentHeader (init now : ZgdbFile A) 0).id, ⟨_, _, hs, ?_⟩, ?_⟩
  · intro k _ f hf
    cases hf
  · intro k hk
    obtain rfl : k = 0 := by simpa [Catalog.new] using hk
    refine ⟨rfl, (rootStored_init now).name, ?_⟩
    exact (hs.readsAs_iff hs.root_mem).mpr rfl

/-- A document that is carried over is still what it was. -/
theorem Depicts.carried (h : Depicts file c k) (hlinked : Relinked file file' k)
    (hentries : entries file' k = entries file k) : Depicts file' c k := by
  refine ⟨?_, hlinked.name.trans h.name, hentries ▸ h.elements⟩
  rw [hlinked.header]
  exact h.id

theorem Depicts.delete (h : Depicts file c k) (d : Nat) : Depicts file (c.delete d) k :=
  ⟨h.id, h.name, h.elements⟩

/-- **What becomes of the documents that stay.** -/
theorem Keeps.carried (h : Keeps file c) {T' : Forest Nat}
    (hsub : ∀ k ∈ T'.nodes, k ∈ c.tree.nodes) (hs : Store file c.tree es own)
    (hc : Carried T' own file file') : ∀ k ∈ T'.nodes, Depicts file' c k := by
  intro k hk
  exact (h.document k (hsub k hk)).carried (hc k hk).1 (hc.untouched hs hsub k hk).2

end Keeps

/-! ## 2. Creations and deletions

A creation chooses the node, by the index that it takes, and the offset in the id.  All else is
determined by the request and its time. -/

section Create

variable {env : Env A} {file file' : ZgdbFile A} {c : Catalog} {T : Forest Nat}
  {es : Nat → List StoredElement} {own : Nat → List Nat}

/-- An element that was written is read as it is. -/
theorem element_of_content {first : Nat} {e : Element} {s : StoredElement} (hok : e.TextOk)
    (hkey : s.key = e.key) (htype : s.value.type = e.value.type)
    (hscalar : e.value.type ≠ .text → s.value.read file first = e.value)
    (hread : (s.value.read file first).content = e.value.content) : s.element file first = e := by
  obtain ⟨key, v⟩ := e
  obtain ⟨skey, sv⟩ := s
  obtain rfl : skey = key := hkey
  rw [StoredElement.element, Element.mk.injEq]
  refine ⟨rfl, ?_⟩
  cases v with
  | text t =>
    cases sv with
    | text f =>
      have hdata : (readText file first f).data = t.data := Option.some.inj hread
      have hsize : t.size = t.data.strlen + 1 := hok t rfl
      show ElementValue.text (Text.ofString (readText file first f).data) = .text t
      rw [hdata, Text.ofString, ← hsize]
    | _ => cases htype
  | _ =>
    have hv := hscalar (by simp [ElementValue.type])
    simp only at hv
    rw [hv]
    rfl

/-- The elements of a new document, as they are read. -/
theorem Written.elements_eq {first used : Nat} {elements : List Element}
    (h : Written file first used elements) (hok : ∀ e ∈ elements, e.TextOk)
    (hnamed : ∀ e ∈ elements, e.value.type = .text → Named file first)
    (hfull : ∀ e ∈ elements, e.NotFull) :
    (storeElements used elements).map (·.element file first) = elements := by
  have hread := h.read hok hnamed
  clear hnamed
  induction elements generalizing used with
  | nil => rfl
  | cons e rest ih =>
    rw [storeElements] at hread ⊢
    rw [List.forall₂_cons] at hread
    obtain ⟨⟨hkey, hcontent⟩, hrest⟩ := hread
    rw [List.map_cons, ih h.2 (fun x hx => hok x (List.mem_cons_of_mem _ hx))
      (fun x hx => hfull x (List.mem_cons_of_mem _ hx)) hrest]
    have htypes := storeElements_types used (e :: rest)
    rw [storeElements, List.forall₂_cons] at htypes
    rw [element_of_content (hok e List.mem_cons_self) hkey htypes.1 ?_
      (hcontent.mpr (hfull e List.mem_cons_self))]
    intro hne
    obtain ⟨key, v⟩ := e
    cases v with
    | text t => exact absurd rfl hne
    | _ => rfl

/-- **The id of a new document** holds the time. -/
theorem createDocument_stamp (hs : Store file T es own) {now : UInt32} {name : Name}
    {schema : DocumentSchema} {parent : Document} {status : CreateStatus}
    (hp : parent.header.indexAttached ∈ T.nodes) (hwf : schema.Wf) (hcomplete : schema.Complete)
    (hexp : ∀ file1, expanded env.expandIndexes file = some file1 → Relocated file file1)
    (hspill : ∀ file1, expanded env.expandIndexes file = some file1 → schema.reqToast = true →
      NoSpill file1 (toastRequest schema))
    (hc : createDocument env.expandIndexes now file name schema parent = some (status, file')) :
    ∃ offset, (getDocumentHeader file'
      (getDocumentHeader file' parent.header.indexAttached).indexSon).id
        = generateId now offset := by
  obtain ⟨-, file1, file2, file3, t, n, own', -, h⟩ :=
    createDocument_making hs.blocks hwf hcomplete hexp hspill hc
  rw [(h.relinked hs hp).2.1]
  refine ⟨blockOffset file2 n.indexOrder, ?_⟩
  show (getDocumentHeader file' n.indexOrder).id = _
  rw [h.newHeader_eq hs hp]
  rfl

/-- **A creation** of texts that fill no chunk. -/
theorem Keeps.create (h : Keeps file c) {now : UInt32} {p : Nat} {name : Name}
    {schema : DocumentSchema} (hl : (Call.create now p name schema).Legal file)
    (hc : (Call.create now p name schema).Clean env file)
    (hfull : ∀ e ∈ schema.elements, e.NotFull)
    (he : (Call.create now p name schema).exec env file = some file') :
    ∃ place : Place, place.node ∉ c.tree.nodes ∧
      Keeps file' (c.create now p place name schema.elements) := by
  obtain ⟨es, own, hs, hun⟩ := h.store
  obtain ⟨n, own', hi, -⟩ := exec_create hs hl hc he
  have hp := hs.live_iff.mp hl.1
  have hatt : (documentAt file p 0).header.indexAttached = p := hs.attached hp
  obtain ⟨⟨status, f⟩, hrun, rfl⟩ := Option.map_eq_some_iff.mp he
  obtain ⟨offset, hid⟩ := createDocument_stamp hs (by rw [hatt]; exact hp) hl.2.1.wf hl.2.2
    (fun file1 h1 => (hc file1 h1).1) (fun file1 h1 => (hc file1 h1).2) hrun
  obtain ⟨n', hson, hnew⟩ := createDocument_written hs.blocks (by rw [hatt]; exact hp) hl.2.1.wf
    hl.2.2 (fun file1 h1 => (hc file1 h1).1) hrun
  rw [hatt, hi.son] at hson hid
  subst hson
  have hcarried := h.carried (fun _ hk => hk) hs hi.carried
  have hmem : ∀ k ∈ (c.tree.insertUnder p n).nodes, k ≠ n → k ∈ c.tree.nodes := fun k hk hkn =>
    ((Forest.mem_nodes_insertUnder hs.nodup hp).mp hk).resolve_left hkn
  refine ⟨⟨n, offset⟩, hi.fresh, ⟨_, _, hi.store, ?_⟩, ?_⟩
  · intro k hk f hf
    by_cases hkn : k = n
    · rw [hkn, Function.update_self] at hf
      exact notFull_storeElements hfull f hf
    · rw [Function.update_of_ne hkn] at hf
      exact hun k (hmem k hk hkn) f hf
  · intro k hk
    by_cases hkn : k = n
    · subst hkn
      obtain ⟨hcid, hcname, hcelements⟩ :=
        c.create_self now p ⟨k, offset⟩ name schema.elements
      refine ⟨hid.trans hcid.symm, hi.name.trans hcname.symm, ?_⟩
      refine (hi.store.readsAs_iff hk).mpr (hcelements.trans ?_)
      rw [storedElements, Function.update_self]
      exact (hnew.written.elements_eq hl.2.1.wf.textOk (fun e he hte =>
        hnew.named (hl.2.1.wf.reqToast_iff.mpr ⟨e, he, hte⟩)) hfull).symm
    · have hold := hcarried k (hmem k hk hkn)
      obtain ⟨hcid, hcname, hcelements⟩ :=
        c.create_of_ne now p ⟨n, offset⟩ name schema.elements hkn
      exact ⟨hold.id.trans hcid.symm, hold.name.trans hcname.symm, hcelements ▸ hold.elements⟩

variable (env) in
/-- **A deletion.** -/
theorem Keeps.delete (h : Keeps file c) {d p : Nat} (hl : (Call.delete d p).Legal file) :
    ∃ file', (Call.delete d p).exec env file = some file' ∧ Keeps file' (c.delete d) := by
  obtain ⟨es, own, hs, hun⟩ := h.store
  obtain ⟨file', hrun, ts, hr⟩ : ∃ file', (Call.delete d p).exec env file = some file' ∧ _ :=
    exec_delete env hs hl
  have hsub : ∀ k ∈ (c.tree.remove d).nodes, k ∈ c.tree.nodes := fun k hk =>
    Forest.mem_nodes_of_mem_remove hk
  have htree : (c.delete d).tree = c.tree.remove d := if_neg hl.2.1
  refine ⟨file', hrun, ⟨es, own, htree ▸ hr.store, ?_⟩, ?_⟩
  · rw [htree]
    exact fun k hk => hun k (hsub k hk)
  · rw [htree]
    intro k hk
    exact (h.carried hsub hs hr.carried k hk).delete d

/-- **A deletion of the root** with at most one son. -/
theorem Keeps.deleteRoot (h : Keeps file c) (hc : Call.deleteRoot.Clean env file) :
    ∃ file', Call.deleteRoot.exec env file = some file' ∧ Keeps file' (c.delete 0) := by
  obtain ⟨es, own, hs, hun⟩ := h.store
  obtain ⟨file', hrun, hcases⟩ := exec_deleteRoot hs hc
  have hsub : ∀ k ∈ rootTree.nodes, k ∈ c.tree.nodes := by
    intro k hk
    obtain rfl := List.mem_singleton.mp hk
    exact hs.root_mem
  refine ⟨file', hrun, ?_⟩
  rcases hcases with ⟨rfl, htree⟩ | ⟨hs', hcarried, -⟩
  · rw [htree] at hs hun
    exact ⟨⟨es, own, hs, hun⟩, fun k hk => (h.document k (hsub k hk)).delete 0⟩
  · refine ⟨⟨es, own, hs', fun k hk => hun k (hsub k hk)⟩, ?_⟩
    intro k hk
    exact (h.carried hsub hs hcarried k hk).delete 0

end Create

/-! ## 3. Updates

An update converts the input on both sides in the same way.  For a text the file keeps what the
catalog has as long as the update is clean. -/

section Update

variable {strtod : CString → StrtodResult} {file file' : ZgdbFile A} {c : Catalog}
  {T : Forest Nat} {es : Nat → List StoredElement} {own : Nat → List Nat} {k : Nat}
  {key input : CString} {pre post : List StoredElement} {name : Name} {v v' : StoredValue}
  {own' : List Nat} {w : ElementValue}

/-- The elements of a document in which one value was set. -/
theorem Edited.storedElements (hs : Store file T es own) (hk : k ∈ T.nodes)
    (hes : es k = pre ++ ⟨name, v⟩ :: post) (hkey : key.chars = name.chars)
    (h : Edited file file' T es own k pre name v' post own')
    (hread : (v'.read file' (getDocumentHeader file k).firstToastIndex).plain = w) :
    storedElements file' (Function.update es k (pre ++ ⟨name, v'⟩ :: post)) k
      = (Zgdb.storedElements file es k).map fun e =>
          if key.chars = e.key.chars then ⟨e.key, w⟩ else e := by
  obtain ⟨first, hfirst⟩ : ∃ first, first = (getDocumentHeader file k).firstToastIndex := ⟨_, rfl⟩
  have hkeep : ∀ l : List StoredElement, (∀ e ∈ l, e ∈ pre ++ post) →
      l.map (·.element file' first) = (l.map (·.element file first)).map fun e =>
          if key.chars = e.key.chars then ⟨e.key, w⟩ else e := by
    intro l hl
    rw [List.map_map]
    refine List.map_congr_left ?_
    intro e he
    have hne : ¬ key.chars = e.key.chars := by
      intro heq
      refine hs.key_ne hk hes e (hl e he) ?_
      rw [Name.mk.injEq, ← heq, hkey]
    have hsame : e.element file' first = e.element file first := by
      obtain ⟨ekey, ev⟩ := e
      cases ev with
      | text f =>
        have hf : f ∈ textsOf pre ++ textsOf post := by
          rcases List.mem_append.mp (hl _ he) with hpre | hpost
          · exact List.mem_append_left _ (mem_textsOf.mpr ⟨_, hpre, rfl⟩)
          · exact List.mem_append_right _ (mem_textsOf.mpr ⟨_, hpost, rfl⟩)
        have hreads := (h.texts f hf).reads
        rw [← hfirst] at hreads
        simp only [StoredElement.element, StoredValue.read, hreads]
      | _ => rfl
    rw [hsame]
    exact (if_neg hne).symm
  rw [← hfirst] at hread
  have hmid : (⟨name, v'⟩ : StoredElement).element file' first = ⟨name, w⟩ := by
    rw [StoredElement.element, hread]
  rw [Zgdb.storedElements, Zgdb.storedElements, h.headers k hk, Function.update_self, hes, ← hfirst]
  simp only [List.map_append, List.map_cons]
  rw [hkeep pre fun e he => List.mem_append_left _ he,
    hkeep post fun e he => List.mem_append_right _ he, hmid]
  congr 2
  exact (if_pos hkey).symm

/-- **A value that is set.** -/
theorem Keeps.set (h : Keeps file c) (hs : Store file c.tree es own) (hun : Unfilled c.tree es)
    (hk : k ∈ c.tree.nodes) (hes : es k = pre ++ ⟨name, v⟩ :: post)
    (hkey : key.chars = name.chars) (he : Edited file file' c.tree es own k pre name v' post own')
    (hread : (v'.read file' (getDocumentHeader file k).firstToastIndex).plain = w)
    (hfull : ∀ f, v' = .text f → f.size % chunkSize ≠ 0) : Keeps file' (c.set k key w) := by
  refine ⟨⟨_, _, he.store, ?_⟩, ?_⟩
  · intro j hj f hf
    by_cases hjk : j = k
    · subst hjk
      have hold : ∀ g ∈ textsOf pre ++ textsOf post, g.size % chunkSize ≠ 0 := by
        intro g hg
        refine hun j hk g ?_
        rw [hes, textsOf_append_cons]
        rcases List.mem_append.mp hg with hg | hg
        · exact List.mem_append_left _ hg
        · obtain ⟨e, he', hv⟩ := mem_textsOf.mp hg
          exact List.mem_append_right _ (mem_textsOf.mpr ⟨e, List.mem_cons_of_mem _ he', hv⟩)
      rw [Function.update_self, textsOf_append_cons] at hf
      rcases List.mem_append.mp hf with hf | hf
      · exact hold f (List.mem_append_left _ hf)
      · obtain ⟨e, he', hv⟩ := mem_textsOf.mp hf
        rcases List.mem_cons.mp he' with rfl | he'
        · exact hfull f hv
        · exact hold f (List.mem_append_right _ (mem_textsOf.mpr ⟨e, he', hv⟩))
    · rw [Function.update_of_ne hjk] at hf
      exact hun j hj f hf
  · intro j hj
    have hold := h.document j hj
    have hheader := he.headers j hj
    refine ⟨(congrArg (·.id) hheader).trans hold.id,
      (congrArg (·.name) hheader).trans hold.name, ?_⟩
    by_cases hjk : j = k
    · subst hjk
      refine (he.store.readsAs_iff hk).mpr ?_
      rw [he.storedElements hs hk hes hkey hread, ← (hs.readsAs_iff hk).mp hold.elements]
      exact Function.update_self ..
    · have hsame : (c.set k key w).elements j = c.elements j := Function.update_of_ne hjk ..
      rw [hsame, he.others j hj hjk]
      exact hold.elements

/-- `str2int` stores a value on success only. -/
theorem str2int_cases (s : CString) :
    (∃ v, str2int s = (.success, some v)) ∨
      (str2int s).2 = none ∧ (str2int s).1 ≠ .success := by
  by_cases h : (str2int s).1 = .success
  · exact .inl (str2int_stored h)
  · refine .inr ⟨?_, h⟩
    rw [str2int, str2long_stored h]
    rfl

/-- So does `str2double`. -/
theorem str2double_cases (strtod : CString → StrtodResult) (s : CString) :
    (∃ v, str2double strtod s = (.success, some v)) ∨
      str2double strtod s = (.inconvertible, none) := by
  unfold str2double
  split
  · exact .inr rfl
  · dsimp only
    split
    · exact .inr rfl
    · split
      · exact .inr rfl
      · exact .inl ⟨_, rfl⟩

/-- The element of the key, in the catalog. -/
theorem Keeps.find (h : Keeps file c) (hs : Store file c.tree es own) (hk : k ∈ c.tree.nodes)
    (hes : es k = pre ++ ⟨name, v⟩ :: post) (hkey : key.chars = name.chars) :
    (c.elements k).find? (fun e => key.chars = e.key.chars)
      = some ((⟨name, v⟩ : StoredElement).element file
        (getDocumentHeader file k).firstToastIndex) := by
  have hpre : ∀ x ∈ pre.map (·.element file (getDocumentHeader file k).firstToastIndex),
      ¬ decide (key.chars = x.key.chars) = true := by
    intro x hx
    obtain ⟨e, he, rfl⟩ := List.mem_map.mp hx
    rw [decide_eq_true_eq]
    intro heq
    refine hs.key_ne hk hes e (List.mem_append_left _ he) ?_
    show (⟨e.key.chars, _, _⟩ : Name) = _
    rw [Name.mk.injEq, ← hkey]
    exact heq.symm
  rw [(hs.readsAs_iff hk).mp (h.document k hk).elements, storedElements, hes, List.map_append,
    List.map_cons, List.find?_append, List.find?_eq_none.mpr hpre, Option.none_or,
    List.find?_cons_of_pos]
  exact decide_eq_true hkey

omit [BlockSpace A] in
/-- The key of an element is short. -/
theorem not_long_of_key {x : Name} (hkey : key.chars = x.chars) : ¬ key.strlen > 13 := by
  have hshort := x.short
  rw [← hkey] at hshort
  simp only [CString.strlen]
  omega

theorem Catalog.update_set {e : Element}
    (hfind : (c.elements k).find? (fun e => key.chars = e.key.chars) = some e)
    (hconvert : convertInput strtod input e.value = some w) :
    c.update strtod k key input = (.updateOk, c.set k key w) := by
  have hkey : key.chars = e.key.chars := by simpa using List.find?_some hfind
  rw [Catalog.update, if_neg (not_long_of_key hkey), hfind]
  simp only [hconvert]

theorem Catalog.update_refused {e : Element}
    (hfind : (c.elements k).find? (fun e => key.chars = e.key.chars) = some e)
    (hconvert : convertInput strtod input e.value = none) :
    c.update strtod k key input = (.typeParseError, c) := by
  have hkey : key.chars = e.key.chars := by simpa using List.find?_some hfind
  rw [Catalog.update, if_neg (not_long_of_key hkey), hfind]
  simp only [hconvert]

/-- A text that was updated. -/
theorem Keeps.setText (h : Keeps file c) (hs : Store file c.tree es own)
    (hun : Unfilled c.tree es) (hk : k ∈ c.tree.nodes) {f f' : FirstTextChunk}
    (hes : es k = pre ++ ⟨name, .text f⟩ :: post) (hkey : key.chars = name.chars)
    (hu : TextUpdated file file' c.tree es own k pre name f post input f' own') :
    Keeps file' (c.set k key (.text (Text.ofString input))) := by
  have hf : f'.size % chunkSize ≠ 0 := by
    rw [hu.size]
    split
    · refine hun k hk f (mem_textsOf.mpr ⟨⟨name, .text f⟩, ?_, rfl⟩)
      rw [hes]
      exact List.mem_append_right _ List.mem_cons_self
    · exact bumped_mod _
  refine h.set hs hun hk hes hkey hu.edited ?_ ?_
  · rw [StoredValue.read, hu.reads hf]
    rfl
  · intro g hg
    cases hg
    exact hf

/-- The update of the file is that of the catalog. -/
def UpdateAgrees (strtod : CString → StrtodResult) (file : ZgdbFile A) (c : Catalog) (k p : Nat)
    (key input : CString) : Prop :=
  ∃ file', updateElement strtod file (documentAt file k p) key input
      = some ((c.update strtod k key input).1, file') ∧
    Keeps file' (c.update strtod k key input).2

variable (strtod input) in
/-- No element has the key. -/
theorem Keeps.update_absent (h : Keeps file c) (hs : Store file c.tree es own)
    (hk : k ∈ c.tree.nodes) (p : Nat) (habsent : ∀ e ∈ es k, key.chars ≠ e.key.chars) :
    UpdateAgrees strtod file c k p key input := by
  rw [UpdateAgrees, Catalog.update, updateElement]
  by_cases hlen : key.strlen > 13
  · rw [if_pos hlen, if_pos hlen]
    exact ⟨file, rfl, h⟩
  have hnone : (c.elements k).find? (fun e => key.chars = e.key.chars) = none := by
    rw [(hs.readsAs_iff hk).mp (h.document k hk).elements, storedElements, List.find?_eq_none]
    intro x hx
    obtain ⟨e, he, rfl⟩ := List.mem_map.mp hx
    rw [decide_eq_true_eq]
    exact habsent e he
  have hw : (createElIterator file (documentAt file k p)).Window file := fun _ h => by cases h
  have hholds : HoldsElements (view file.mem (createElIterator file (documentAt file k p)).block)
      (createElIterator file (documentAt file k p)).offsetInFile (es k) :=
    holdsElements_documentAt (hs.attached hk) (hs.doc k hk).holds p
  have hcount : (documentAt file k p).header.attrCount = (es k).length := (hs.doc k hk).count
  rw [if_neg hlen, if_neg hlen, hnone, hcount]
  exact ⟨file, updateLoop_absent hw hholds habsent, h⟩

section Found

variable (h : Keeps file c) (hs : Store file c.tree es own) (hun : Unfilled c.tree es)
  (hk : k ∈ c.tree.nodes) (p : Nat) (hes : es k = pre ++ ⟨name, v⟩ :: post)
  (hkey : key.chars = name.chars)
include h hs hk hes hkey

/-- The input does not convert. -/
theorem Keeps.update_refused (hconvert : convertInput strtod input
      (v.read file (getDocumentHeader file k).firstToastIndex).plain = none)
    (hfound : (updateFound strtod file (blockPos file k) (documentAt file k p)
      (sizeofDocumentHeader + storedSize pre) v.type.code input).join
        = some (.typeParseError, file)) : UpdateAgrees strtod file c k p key input := by
  rw [UpdateAgrees, Catalog.update_refused (h.find hs hk hes hkey) hconvert,
    updateElement_found hs hk p hes hkey]
  exact ⟨file, hfound, h⟩

include hun in
/-- The input converts. -/
theorem Keeps.update_scalar (v' : StoredValue) (hv : v.type ≠ .text) (htype : v'.type = v.type)
    (hconvert : convertInput strtod input
      (v.read file (getDocumentHeader file k).firstToastIndex).plain
        = some (v'.read file' (getDocumentHeader file k).firstToastIndex).plain)
    {α : Type} {K : Kind Obj α} {a : α} (hsize : K.size = v.type.valueSize)
    (hholds : ∀ (m : Mem Nat Obj) (d : Nat), Holds K m d a → HoldsValue m d v')
    (hf : file' = fwriteAt K file (blockPos file k) (valueAt pre) a)
    (hfound : (updateFound strtod file (blockPos file k) (documentAt file k p)
      (sizeofDocumentHeader + storedSize pre) v.type.code input).join
        = some (.updateOk, file')) : UpdateAgrees strtod file c k p key input := by
  obtain ⟨hedited, -⟩ := hs.setScalar hk hes hv htype hsize hholds hf
  rw [UpdateAgrees, Catalog.update_set (h.find hs hk hes hkey) hconvert,
    updateElement_found hs hk p hes hkey]
  refine ⟨file', hfound, h.set hs hun hk hes hkey hedited rfl ?_⟩
  rintro f rfl
  exact absurd htype.symm hv

end Found

/-- **An update** is the one of the catalog. -/
theorem Keeps.update (h : Keeps file c) (hk : k ∈ c.tree.nodes) (p : Nat)
    (hclean : UpdateClean file k key input) : UpdateAgrees strtod file c k p key input := by
  obtain ⟨es, own, hs, hun⟩ := h.store
  rcases element_cases (es k) key with habsent | ⟨pre, name, v, post, hes, hkey⟩
  · exact h.update_absent strtod input hs hk p habsent
  have hboolean : ElementType.int.code ≠ ElementType.boolean.code ∧
      ElementType.double.code ≠ ElementType.boolean.code := by decide
  have hint : ElementType.double.code ≠ ElementType.int.code := by decide
  cases v with
  | boolean b =>
    exact h.update_scalar hs hun hk p hes hkey (.boolean (str2boolean input))
      (fun hb => by cases hb) rfl rfl (K := byteK) rfl (fun _ _ h => h) rfl rfl
  | int i =>
    rcases str2int_cases input with ⟨w, hw⟩ | ⟨hnone, hfail⟩
    · refine h.update_scalar hs hun hk p hes hkey (.int w) (fun hi => by cases hi) rfl ?_
        (K := intK) rfl (fun _ _ h => h) rfl ?_
      · show (str2int input).2.map ElementValue.int = _
        rw [hw]
        rfl
      · simp only [updateFound, StoredValue.type, if_neg hboolean.1, if_true, hw]
        rfl
    · refine h.update_refused hs hk p hes hkey ?_ ?_
      · show (str2int input).2.map ElementValue.int = _
        rw [hnone]
        rfl
      · simp only [updateFound, StoredValue.type, if_neg hboolean.1, if_true]
        split
        · rename_i hsuccess
          exact absurd (congrArg Prod.fst hsuccess) hfail
        · rfl
  | double x =>
    rcases str2double_cases strtod input with ⟨w, hw⟩ | hfail
    · refine h.update_scalar hs hun hk p hes hkey (.double w) (fun hx => by cases hx) rfl ?_
        (K := doubleK) rfl (fun _ _ h => h) rfl ?_
      · show (str2double strtod input).2.map ElementValue.double = _
        rw [hw]
        rfl
      · simp only [updateFound, StoredValue.type, if_neg hboolean.2, if_neg hint, if_true, hw]
        rfl
    · refine h.update_refused hs hk p hes hkey ?_ ?_
      · show (str2double strtod input).2.map ElementValue.double = _
        rw [hfail]
        rfl
      · simp only [updateFound, StoredValue.type, if_neg hboolean.2, if_neg hint, if_true, hfail]
        rfl
  | text f =>
    obtain ⟨hgrow, hcross⟩ := hclean f (hs.storedText_eq hk hes hkey)
    rw [UpdateAgrees, updateElement_text hs hk p hes hkey,
      Catalog.update_set (h.find hs hk hes hkey) rfl]
    by_cases hc : Crosses file (getDocumentHeader file k).firstToastIndex f (input.strlen + 1)
    · obtain ⟨file', f', t, hrun, hu, -⟩ :=
      updateText_across hs hk p hes (hgrow hc.1) hc (hcross hc)
      rw [hrun]
      exact ⟨file', rfl, h.setText hs hun hk hes hkey hu⟩
    · obtain ⟨file', f', hrun, hu, -⟩ := updateText_within hs hk p hes hgrow hc
      rw [hrun]
      exact ⟨file', rfl, h.setText hs hun hk hes hkey hu⟩

end Update

end Zgdb
