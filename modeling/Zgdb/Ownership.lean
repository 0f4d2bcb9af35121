/-
# Who owns a toast

Two links lead from a document to its toasts: `nextToastIndex` from the first one, and the chunks of
its texts.  A growth across toasts puts the new toast behind the first one.  As long as there was
none behind it, the list of a document has every toast that its chunks visit (`Reaches.tidy`), and
a deletion, which goes by the list, frees them all (`exec_delete_visited`).

A second growth from the first toast cuts the first new toast off the list (`toast_cut_off`).
-/
import Zgdb.Allocation

namespace Zgdb

open Zgdb.Lib AddrSpace

variable {A : Type} [BlockSpace A]

/-! ## 1. Toast lists

Which toasts a document has can be asked in two ways: which are on the list that starts at
`firstToastIndex`, and which do the chunks of its texts visit.  A deletion goes by the list, a
reader by the chunks. -/

/-- The toast `t` is on the toast list of document `k`. -/
def OnToastList (file : ZgdbFile A) (k t : Nat) : Prop :=
  ∃ ts, ToastList file (getDocumentHeader file k).firstToastIndex ts ∧ t ∈ ts

/-- The text elements of a stored document, each with its first chunk. -/
def firstChunks (file : ZgdbFile A) (k : Nat) : List FirstTextChunk :=
  (elementEntries file (documentAt file k 0) false).filterMap fun e =>
    if e.type = ElementType.text.code then
      some (freadAt firstTextChunkK file (blockPos file k) (e.offsetInDocument + elementHead))
    else none

/-- A chunk of a text of document `k` lies in the toast `t`.  The chain is followed as the code
follows it, from the first toast of the document over the links of the chunks, whatever the toast
list says. -/
def Visits (file : ZgdbFile A) (k t : Nat) : Prop :=
  ∃ f ∈ firstChunks file k, ∃ x ∈ textPath file (getDocumentHeader file k).firstToastIndex f, x.1
    = t

/-- Every live document has a toast list, on which are all the toasts its texts use, and no two
documents share a toast.  `deleteDocument` frees the toasts of the list: a toast that is in use and
not on it would stay ALIVE for ever. -/
structure ToastsOwned (file : ZgdbFile A) : Prop where
  list : ∀ k, Live file k → ∃ ts, ToastList file (getDocumentHeader file k).firstToastIndex ts ∧
    ts.Nodup ∧ ∀ t, Visits file k t → t ∈ ts
  apart : ∀ j k, Live file j → Live file k → j ≠ k → ∀ t, OnToastList file j t →
    ¬ OnToastList file k t

theorem firstChunks_entriesOf {file : ZgdbFile A} {k first : Nat}
    {es : List StoredElement} {d : Nat}
    (h : HoldsElements (blockAt file k) d es) :
    ((entriesOf file first false d es).filterMap fun e =>
      if e.type = ElementType.text.code then
        some (freadAt firstTextChunkK file (blockPos file k) (e.offsetInDocument + elementHead))
      else none) = textsOf es := by
  induction es generalizing d with
  | nil => rfl
  | cons e es ih =>
    obtain ⟨he, hes⟩ := h
    rw [entriesOf, List.filterMap_cons, ih hes]
    obtain ⟨key, v⟩ := e
    cases v with
    | text f =>
      have hread : freadAt firstTextChunkK file (blockPos file k) (d + elementHead) = f := by
        rw [freadAt_eq]
        exact load_of_holds he.value
      simp only [StoredValue.type, if_true, hread, textsOf, StoredElement.first?,
        List.filterMap_cons]
    | _ => rfl

section Store

variable {file file' : ZgdbFile A} {T : Forest Nat} {es : Nat → List StoredElement}
  {own : Nat → List Nat}

theorem Store.firstChunks_eq (hs : Store file T es own) {k : Nat} (hk : k ∈ T.nodes) :
    firstChunks file k = textsOf (es k) := by
  have hD := hs.doc k hk
  rw [firstChunks, elementEntries_documentAt (hs.attached hk) hD.count hD.holds 0 false]
  exact firstChunks_entriesOf hD.holds

/-- The texts of a document only use its own toasts. -/
theorem Store.own_of_visits (hs : Store file T es own) {k t : Nat} (hk : k ∈ T.nodes)
    (h : Visits file k t) : t ∈ own k := by
  obtain ⟨f, hf, x, hx, rfl⟩ := h
  rw [hs.firstChunks_eq hk] at hf
  exact ((hs.doc k hk).texts.inUse f hf x hx).mem

theorem Store.own_of_list (hs : Store file T es own) {k t : Nat} (hk : k ∈ T.nodes)
    (h : OnToastList file k t) : t ∈ own k := by
  obtain ⟨ts, hts, ht⟩ := h
  obtain ⟨us, hus, -, hsub⟩ := (hs.doc k hk).list
  obtain rfl := hts.unique hus
  exact hsub t ht

/-- A document without a first toast has no toasts. -/
theorem Store.own_eq_nil (hs : Store file T es own) {k : Nat} (hk : k ∈ T.nodes)
    (h0 : (getDocumentHeader file k).firstToastIndex = 0) : own k = [] := by
  rcases (hs.doc k hk).texts.first_mem with h | h
  · rw [h0] at h
    exact absurd hs.root_mem (hs.toast_notMem hk h)
  · exact h.1

/-- All toasts of the documents are on their lists. -/
def Listed (file : ZgdbFile A) (T : Forest Nat) (own : Nat → List Nat) : Prop :=
  ∀ k ∈ T.nodes, ∀ t ∈ own k, OnToastList file k t

theorem Store.toastsOwned (hs : Store file T es own) (hl : Listed file T own) :
    ToastsOwned file where
  list := by
    intro k hk
    have hkT := hs.live_iff.mp hk
    obtain ⟨ts, hts, hn, -⟩ := (hs.doc k hkT).list
    refine ⟨ts, hts, hn, ?_⟩
    intro t ht
    obtain ⟨us, hus, hmem⟩ := hl k hkT t (hs.own_of_visits hkT ht)
    rwa [hts.unique hus]
  apart := by
    intro j k hj hk hjk t htj htk
    have hjT := hs.live_iff.mp hj
    have hkT := hs.live_iff.mp hk
    exact hs.apart j hjT k hkT hjk t (hs.own_of_list hjT htj) (hs.own_of_list hkT htk)

/-! ## 2. What a call does to the lists

A creation starts a list of at most one toast, a deletion takes whole lists away, and most updates
leave the lists as they are.  Only a growth across toasts changes one: the new toast follows the
first, in place of what followed it. -/

/-- A growth across toasts finds no toast behind the first one. -/
def Call.Appends (file : ZgdbFile A) : Call → Prop
  | update doc key input => ∀ f, storedText file doc key = some f →
      Crosses file (getDocumentHeader file doc).firstToastIndex f (input.strlen + 1) →
      (toastAt file (getDocumentHeader file doc).firstToastIndex).nextToastIndex = 0
  | _ => True

/-- Documents that are carried over keep their lists. -/
theorem Carried.onToastList (h : Carried T own file file') {U : Forest Nat}
    (hs : Store file U es own)
    {k t : Nat} (hk : k ∈ T.nodes) (hkU : k ∈ U.nodes) (ht : OnToastList file k t) :
    OnToastList file' k t := by
  obtain ⟨ts, hts, hmem⟩ := ht
  obtain ⟨hrel, hto⟩ := h k hk
  refine ⟨ts, ?_, hmem⟩
  rw [hrel.firstToastIndex]
  refine hts.congr ?_
  intro x hx
  have hxo := hs.own_of_list hkU ⟨ts, hts, hx⟩
  have htoast := (hs.doc k hkU).texts.toast x hxo
  exact (htoast.of_eqOn ((hto x hxo).2.mono htoast.le_capacity)).2.1

/-- A document whose toasts keep their links keeps its list. -/
theorem onToastList_congr {k t : Nat}
    (hh : (getDocumentHeader file' k).firstToastIndex = (getDocumentHeader file k).firstToastIndex)
    (heq : ∀ x, OnToastList file k x →
      (toastAt file' x).nextToastIndex = (toastAt file x).nextToastIndex)
    (ht : OnToastList file k t) : OnToastList file' k t := by
  obtain ⟨ts, hts, hmem⟩ := ht
  refine ⟨ts, ?_, hmem⟩
  rw [hh]
  exact hts.congr_next fun x hx => heq x ⟨ts, hts, hx⟩

/-- The list of a document whose first toast has none behind it. -/
theorem Listed.first (hl : Listed file T own) {k t : Nat} (hk : k ∈ T.nodes) (ht : t ∈ own k)
    (h0 : (toastAt file (getDocumentHeader file k).firstToastIndex).nextToastIndex = 0) :
    t = (getDocumentHeader file k).firstToastIndex := by
  obtain ⟨ts, hts, hmem⟩ := hl k hk t ht
  rcases ts with _ | ⟨x, ts⟩
  · cases hmem
  · obtain ⟨rfl, -, hrest⟩ := hts
    rw [h0] at hrest
    cases ts with
    | nil => exact List.mem_singleton.mp hmem
    | cons y ts => exact absurd hrest.1.symm hrest.2.1

/-- A document of which one value is set. -/
theorem Edited.listed {k : Nat} {pre post : List StoredElement} {key : Name} {v : StoredValue}
    {own' : List Nat} (hs : Store file T es own) (hl : Listed file T own) (hk : k ∈ T.nodes)
    (h : Edited file file' T es own k pre key v post own')
    (hown : ∀ t ∈ own', t ∈ own k ∨ ¬ Alive file t)
    (hlist : ∀ t ∈ own', OnToastList file' k t) :
    Listed file' T (Function.update own k own') := by
  intro j hj t ht
  by_cases hjk : j = k
  · subst hjk
    rw [Function.update_self] at ht
    exact hlist t ht
  · rw [Function.update_of_ne hjk] at ht
    refine onToastList_congr (by rw [h.headers j hj]) ?_ (hl j hj t ht)
    intro x hx
    have hxo := hs.own_of_list hj hx
    have htexts := (hs.doc j hj).texts
    have hal := htexts.alive x hxo
    have hto := htexts.toast x hxo
    have hxk : x ≠ k := fun he => hs.toast_notMem hj hxo (he ▸ hk)
    have hxo' : x ∉ own' := fun hx' => (hown x hx').elim (hs.apart j hj k hk hjk x hxo) (· hal)
    have hag := h.agrees x (Or.inl hal) hxk hxo'
    rw [(hto.of_eqOn (hag.mono hto.header_le)).2.1]

/-- The toasts of a document keep their links while one of its values is set. -/
theorem Edited.listed_same {k : Nat} {pre post : List StoredElement} {key : Name} {v : StoredValue}
    (hs : Store file T es own) (hl : Listed file T own) (hk : k ∈ T.nodes)
    (h : Edited file file' T es own k pre key v post (own k))
    (hto : ∀ t ∈ own k, (toastAt file' t).nextToastIndex = (toastAt file t).nextToastIndex) :
    Listed file' T (Function.update own k (own k)) :=
  h.listed hs hl hk (fun _ ht => Or.inl ht) fun t ht =>
    onToastList_congr (by rw [h.headers k hk]) (fun x hx => hto x (hs.own_of_list hk hx))
      (hl k hk t ht)

/-- **The new toast of a growth is behind the first one.** -/
theorem Crossed.listed {k t : Nat} {pre post : List StoredElement} {key : Name} {v : StoredValue}
    {f' : FirstTextChunk} (hs : Store file T es own) (hl : Listed file T own) (hk : k ∈ T.nodes)
    (h : Edited file file' T es own k pre key v post (t :: own k))
    (hc : Crossed file file' (own k) (getDocumentHeader file k).firstToastIndex t f')
    (hne : (getDocumentHeader file k).firstToastIndex ≠ 0)
    (h0 : (toastAt file (getDocumentHeader file k).firstToastIndex).nextToastIndex = 0) :
    Listed file' T (Function.update own k (t :: own k)) := by
  have ht0 : t ≠ 0 := fun he => hc.fresh (he ▸ hs.alive hs.root_mem)
  have hlist : ToastList file' (getDocumentHeader file' k).firstToastIndex
      [(getDocumentHeader file k).firstToastIndex, t] := by
    rw [h.headers k hk]
    exact ⟨rfl, hne, hc.next, ht0, hc.last⟩
  refine h.listed hs hl hk ?_ fun x hx => ⟨_, hlist, ?_⟩
  · intro x hx
    rcases List.mem_cons.mp hx with rfl | hx
    · exact Or.inr hc.fresh
    · exact Or.inl hx
  · rcases List.mem_cons.mp hx with rfl | hx
    · simp
    · rw [hl.first hk hx h0]
      exact List.mem_cons_self

/-- **An update keeps the lists complete**, and what is ALIVE is a toast of a document if it was not
before. -/
theorem Updated.listed {k : Nat} {key input : CString} (hs : Store file T es own)
    (hl : Listed file T own) (hk : k ∈ T.nodes) (ha : (Call.update k key input).Appends file)
    (h : Updated file file' T es own k key input) :
    ∃ es' own', Store file' T es' own' ∧ Listed file' T own' ∧ (∀ i t, t ∈ own i → t ∈ own' i) ∧
      ∀ j, Alive file' j → Alive file j ∨ j ∈ own' k := by
  have hkeep : ∀ own', (∀ t ∈ own k, t ∈ own') →
      ∀ i t, t ∈ own i → t ∈ Function.update own k own' i := by
    intro own' hsub i t ht
    by_cases hik : i = k
    · subst hik
      rw [Function.update_self]
      exact hsub t ht
    · rwa [Function.update_of_ne hik]
  cases h with
  | absent _ hf =>
    subst hf
    exact ⟨es, own, hs, hl, fun _ _ ht => ht, fun j hj => Or.inl hj⟩
  | scalar hes hkey hv htype h hto =>
    refine ⟨_, _, h.store, h.listed_same hs hl hk hto, hkeep _ fun _ ht => ht, ?_⟩
    intro j hj
    rw [Function.update_self]
    exact (h.alive j).mp hj
  | within hes hkey hcross h hto =>
    refine ⟨_, _, h.edited.store, h.edited.listed_same hs hl hk hto, hkeep _ fun _ ht => ht, ?_⟩
    intro j hj
    rw [Function.update_self]
    exact (h.edited.alive j).mp hj
  | @across pre post name f f' t hes hkey hcross h hto =>
    have hf : f ∈ textsOf (es k) :=
      mem_textsOf.mpr ⟨_, by rw [hes]; exact List.mem_append_right _ List.mem_cons_self, rfl⟩
    have hfirst := (hs.doc k hk).texts.first_of_mem hf
    have hne : (getDocumentHeader file k).firstToastIndex ≠ 0 := fun he =>
      hs.toast_notMem hk hfirst (he ▸ hs.root_mem)
    refine ⟨_, _, h.edited.store, hto.listed hs hl hk h.edited hne
      (ha f (hs.storedText_eq hk hes hkey) hcross), hkeep _ fun _ ht => List.mem_cons_of_mem _ ht,
      ?_⟩
    intro j hj
    rw [Function.update_self]
    exact (h.edited.alive j).mp hj

/-- **A creation keeps the lists complete.** -/
theorem Inserted.listed {p n : Nat} {name : Name} {schema : DocumentSchema} {own' : List Nat}
    (hs : Store file T es own) (hl : Listed file T own) (hp : p ∈ T.nodes)
    (h : Inserted file file' T es own p n name schema own') :
    Listed file' (T.insertUnder p n) (Function.update own n own') := by
  intro k hk t ht
  by_cases hkn : k = n
  · subst hkn
    rw [Function.update_self] at ht
    exact ⟨own', h.list, ht⟩
  · rw [Function.update_of_ne hkn] at ht
    have hkT := ((Forest.mem_nodes_insertUnder hs.nodup hp).mp hk).resolve_left hkn
    exact h.carried.onToastList hs hkT hkT (hl k hkT t ht)

/-- **A deletion keeps the lists complete.** -/
theorem Removed.listed {d : Nat} {ts : List Nat} (hs : Store file T es own)
    (hl : Listed file T own) (h : Removed file file' T es own d ts) :
    Listed file' (T.remove d) own := fun k hk t ht =>
  have hkT := Forest.mem_nodes_of_mem_remove hk
  h.carried.onToastList hs hk hkT (hl k hkT t ht)

end Store

/-! ## 3. Runs

`Call.Orderly` adds to a clean call what the lists need: a growth across toasts only where no toast
follows the first one.  Then every toast in use is on a list, in every state of a run. -/

section Runs

variable {env : Env A} {file file' : ZgdbFile A} {T : Forest Nat} {es : Nat → List StoredElement}
  {own : Nat → List Nat}

/-- `k` lies below `d` in the tree of the links. -/
def Below (file : ZgdbFile A) (d k : Nat) : Prop := Relation.TransGen (SonOf file) d k

theorem Store.below_iff (hs : Store file T es own) {d k : Nat} (hd : d ∈ T.nodes) :
    Below file d k ↔ k ∈ (T.sonsOf d).nodes := hs.links.transGen_iff hd

/-- No document below `d` has a toast.  The document itself may have some; these are on its own
list, which a deletion follows. -/
def NoToastBelow (file : ZgdbFile A) (d : Nat) : Prop :=
  ∀ k, Below file d k → (getDocumentHeader file k).firstToastIndex = 0

/-- A deletion has no document with a toast below the one it is for. -/
def Call.Swept (file : ZgdbFile A) : Call → Prop
  | delete doc _ => NoToastBelow file doc
  | deleteRoot => NoToastBelow file 0
  | _ => True

/-- Every ALIVE index is a document or one of its toasts, so that no index is lost. -/
def Accounted (file : ZgdbFile A) (T : Forest Nat) (own : Nat → List Nat) : Prop :=
  ∀ k, Alive file k → k ∈ T.nodes ∨ ∃ j ∈ T.nodes, k ∈ own j

/-- What a call leaves of an account. -/
theorem Inserted.accounted {p n : Nat} {name : Name} {schema : DocumentSchema} {own' : List Nat}
    (hs : Store file T es own) (hp : p ∈ T.nodes)
    (h : Inserted file file' T es own p n name schema own') (ha : Accounted file T own) :
    Accounted file' (T.insertUnder p n) (Function.update own n own') := by
  have hmem : ∀ k, k ∈ (T.insertUnder p n).nodes ↔ k = n ∨ k ∈ T.nodes := fun k =>
    Forest.mem_nodes_insertUnder hs.nodup hp
  intro k hk
  rcases (h.alive k).mp hk with rfl | hk | hk
  · exact Or.inl ((hmem k).mpr (Or.inl rfl))
  · exact Or.inr ⟨n, (hmem n).mpr (Or.inl rfl), by rwa [Function.update_self]⟩
  · refine (ha k hk).imp (fun hk => (hmem k).mpr (Or.inr hk)) ?_
    rintro ⟨j, hj, hkj⟩
    have hjn : j ≠ n := fun he => h.fresh (he ▸ hj)
    exact ⟨j, (hmem j).mpr (Or.inr hj), by rwa [Function.update_of_ne hjn]⟩

theorem Removed.accounted {d : Nat} {ts : List Nat} (hs : Store file T es own)
    (hl : Listed file T own) (hd : d ∈ T.nodes) (h : Removed file file' T es own d ts)
    (hswept : NoToastBelow file d) (ha : Accounted file T own) :
    Accounted file' (T.remove d) own := by
  intro k hk
  obtain ⟨hal, hfree⟩ := h.reclaimed.alive_iff.mp hk
  simp only [List.mem_cons, List.mem_append, not_or] at hfree
  obtain ⟨hkd, hks, hkt⟩ := hfree
  have hmem : ∀ j, j ∈ (T.remove d).nodes ↔ j ∈ T.nodes ∧ j ≠ d ∧ j ∉ (T.sonsOf d).nodes :=
    fun j => Forest.mem_nodes_remove hs.nodup hd
  refine (ha k hal).imp (fun hkT => (hmem k).mpr ⟨hkT, hkd, hks⟩) ?_
  rintro ⟨j, hj, hkj⟩
  refine ⟨j, (hmem j).mpr ⟨hj, ?_, ?_⟩, hkj⟩
  · rintro rfl
    obtain ⟨us, hus, hku⟩ := hl j hj k hkj
    rw [hus.unique h.list] at hku
    exact hkt hku
  · intro hjs
    rw [hs.own_eq_nil hj (hswept j ((hs.below_iff hd).mpr hjs))] at hkj
    cases hkj

/-- **One call**: the lists stay complete, and so does the account. -/
theorem exec_listed {call : Call} (hs : Store file T es own) (hl : Listed file T own)
    (hlegal : call.Legal file) (hclean : call.Clean env file) (happ : call.Appends file)
    (he : call.exec env file = some file') :
    ∃ T' es' own', Store file' T' es' own' ∧ Listed file' T' own' ∧
      (call.Swept file → Accounted file T own → Accounted file' T' own') := by
  cases call with
  | create now p name schema =>
    obtain ⟨n, own', h, -⟩ := exec_create hs hlegal hclean he
    have hp := hs.live_iff.mp hlegal.1
    exact ⟨_, _, _, h.store, h.listed hs hl hp, fun _ => h.accounted hs hp⟩
  | delete d p =>
    obtain ⟨file'', hrun, ts, h⟩ : ∃ file'', (Call.delete d p).exec env file = some file'' ∧ _ :=
      exec_delete _ hs hlegal
    obtain rfl := Option.some.inj (hrun.symm.trans he)
    exact ⟨_, _, _, h.store, h.listed hs hl, h.accounted hs hl (hs.live_iff.mp hlegal.1)⟩
  | deleteRoot =>
    obtain ⟨file'', hrun, h⟩ := exec_deleteRoot hs hclean
    obtain rfl := Option.some.inj (hrun.symm.trans he)
    rcases h with ⟨rfl, -⟩ | ⟨h, hc, hr⟩
    · exact ⟨T, es, own, hs, hl, fun _ => id⟩
    · have hT := hs.tree_eq
      have h0 : ∀ k, k ∈ (Forest.cons 0 .nil .nil).nodes → k = 0 := fun k hk => by simpa using hk
      refine ⟨_, _, _, h, ?_, ?_⟩
      · intro k hk t ht
        rw [h0 k hk, hs.own_root] at ht
        cases ht
      · intro hswept ha k hk
        obtain ⟨hal, hks⟩ := hr.alive_iff.mp hk
        have hnodes : ∀ j, j ∈ T.nodes → j = 0 ∨ j ∈ (T.sonsOf 0).nodes := by
          intro j hj
          rw [hT] at hj
          simpa using hj
        rcases ha k hal with hkT | ⟨j, hj, hkj⟩
        · exact Or.inl (by simpa using (hnodes k hkT).resolve_right hks)
        · rcases hnodes j hj with rfl | hjs
          · rw [hs.own_root] at hkj
            cases hkj
          · rw [hs.own_eq_nil hj (hswept j ((hs.below_iff hs.root_mem).mpr hjs))] at hkj
            cases hkj
  | update k key input =>
    obtain ⟨file'', hrun, h⟩ := exec_update hs hlegal hclean
    obtain rfl := Option.some.inj (hrun.symm.trans he)
    have hk := hs.live_iff.mp hlegal
    obtain ⟨es', own', hs', hl', hkeep, hal⟩ := h.listed hs hl hk happ
    refine ⟨T, es', own', hs', hl', ?_⟩
    intro _ ha j hj
    rcases hal j hj with hj | hj
    · exact (ha j hj).imp id fun ⟨i, hi, hji⟩ => ⟨i, hi, hkeep i j hji⟩
    · exact Or.inr ⟨k, hk, hj⟩

/-- The calls that keep the toast lists complete: clean ones, in which a growth across toasts does
not cut off what follows the first toast. -/
def Call.Orderly (env : Env A) (file : ZgdbFile A) (call : Call) : Prop :=
  call.Clean env file ∧ call.Appends file

/-- What holds in every state of such a run. -/
def Tidy (file : ZgdbFile A) : Prop := ∃ T es own, Store file T es own ∧ Listed file T own

theorem init_listed (now : UInt32) : Listed (init now : ZgdbFile A) rootTree fun _ => [] :=
  fun _ _ _ ht => by cases ht

/-- **Every state of an orderly run has complete toast lists.** -/
theorem Reaches.tidy (h : Reaches env (Call.Orderly env) file) : Tidy file := by
  obtain ⟨now, calls, hrun⟩ := h
  refine hrun.inv ⟨_, _, _, init_store, init_listed now⟩ ?_
  rintro f call f' ⟨T, es, own, hs, hl⟩ ⟨hlegal, hclean, happ⟩ he
  obtain ⟨T', es', own', hs', hl', -⟩ := exec_listed hs hl hlegal hclean happ he
  exact ⟨T', es', own', hs', hl'⟩

variable (env) in
/-- A live document that is deleted with the parent it has. -/
theorem exec_delete_visited (hs : Store file T es own) (hl : Listed file T own) {d p : Nat}
    (hlegal : (Call.delete d p).Legal file) :
    ∃ file', (Call.delete d p).exec env file = some file' ∧ ∀ t, Visits file d t →
      Dead file' t := by
  obtain ⟨file', hrun, ts, h⟩ := exec_delete env hs hlegal
  have hd := hs.live_iff.mp hlegal.1
  refine ⟨file', hrun, ?_⟩
  intro t ht
  have hto := hs.own_of_visits hd ht
  obtain ⟨us, hus, hmem⟩ := hl d hd t hto
  rw [hus.unique h.list] at hmem
  have hin : t ∈ d :: ((T.sonsOf d).nodes ++ ts) :=
    List.mem_cons_of_mem _ (List.mem_append_right _ hmem)
  refine ⟨?_, by rw [h.reclaimed.indexes, if_pos hin]⟩
  rw [h.reclaimed.header]
  exact ((hs.doc d hd).texts.alive t hto).1

end Runs

end Zgdb
