/-
# `deleteDocument` removes a subtree

The sibling scan finds the link that leads to the document -- the son link of the parent, or the
brother link of the previous son -- and only this link is written (`unlink_spec`).  The document
and everything below it are then freed, and the toasts of the document itself (`Reclaimed`).  In
the tree this is `remove` (`deleteDocument_spec`).
-/
import Zgdb.Free

namespace Zgdb

open Zgdb.Lib AddrSpace

variable {A : Type} [BlockSpace A]

/-! ## 1. The sibling scan

The scan collects the sons up to the document it looks for.  The last but one is the previous
brother, or the parent itself when the document is the first son. -/

/-- **The scan** collects the sons of the parent up to the document. -/
theorem scanSons_eq {file : ZgdbFile A} {doc : Document} {pre rest : List Nat} {d : Nat}
    (hdoc : doc.header.indexAttached = d) {G : Forest Nat} {order fuel : Nat}
    (h : G.Represents (sonOf file) (brotherOf file) (link order)) (hr : G.roots = pre ++ d :: rest)
    (hn : d ∉ pre) (hatt : ∀ k ∈ G.nodes, (getDocumentHeader file k).indexAttached = k)
    (hfuel : pre.length < fuel) :
    scanSons file doc fuel order = some ((pre ++ [d]).map (documentAt file · d)) := by
  induction pre generalizing G order fuel with
  | nil =>
    obtain ⟨fuel, rfl⟩ : ∃ m, fuel = m + 1 := ⟨fuel - 1, by omega⟩
    obtain ⟨hx, -⟩ := h.roots_cons hr
    obtain ⟨rfl, h0⟩ := link_eq_some.mp hx
    have hd := hatt order (h.entry_mem hx)
    simp only [scanSons, if_neg h0, hdoc, hd, if_true, List.nil_append, List.map_cons, List.map_nil,
      documentAt]
  | cons a pre ih =>
    obtain ⟨fuel, rfl⟩ : ∃ m, fuel = m + 1 := ⟨fuel - 1, by omega⟩
    obtain ⟨hx, G', hG', hr', hsub⟩ := h.roots_cons hr
    obtain ⟨rfl, h0⟩ := link_eq_some.mp hx
    have ha := hatt order (h.entry_mem hx)
    rw [List.mem_cons, not_or] at hn
    have ih' := ih hG' hr' hn.2 (fun k hk => hatt k (hsub k hk)) (Nat.lt_of_succ_lt_succ hfuel)
    simp only [scanSons, if_neg h0, hdoc, ha, if_neg hn.1]
    rw [show scanSons file doc fuel (getDocumentHeader file order).indexBrother = _ from ih']
    rfl

/-! ## 2. Unlinking

One header is written, with one link changed.  That this link is the one that leads to the document
is what makes the result the tree without its subtree. -/

/-- The header of `l.2` with its link `l` past `d`. -/
def skipHeader (file : ZgdbFile A) (l : Bool × Nat) (d : Nat) : DocumentHeader :=
  if l.1 then
    { getDocumentHeader file l.2 with indexSon := (getDocumentHeader file d).indexBrother }
  else { getDocumentHeader file l.2 with indexBrother := (getDocumentHeader file d).indexBrother }

theorem skipHeader_sameButLinks (file : ZgdbFile A) (l : Bool × Nat) (d : Nat) :
    (getDocumentHeader file l.2).SameButLinks (skipHeader file l d) := by
  unfold skipHeader DocumentHeader.SameButLinks
  split <;> rfl

/-- **Unlinking** writes the one header with a link to the document. -/
theorem unlink_eq {file : ZgdbFile A} {T : Forest Nat} {x : Option Nat} {p d : Nat} (c : Nat)
    {pre rest : List Nat} (hlinks : T.Represents (sonOf file) (brotherOf file) x) (hp : p ∈ T.nodes)
    (hr : (T.sonsOf p).roots = pre ++ d :: rest) (hn : d ∉ pre)
    (hatt : ∀ k ∈ T.nodes, (getDocumentHeader file k).indexAttached = k) :
    ∃ l : Bool × Nat, l.2 ∈ T.nodes ∧ Forest.Leads (sonOf file) (brotherOf file) l d ∧
      unlink file (documentAt file p 0) ((pre ++ [d]).map (documentAt file · c))
        = some (fwriteAt documentHeaderK file (blockPos file l.2) 0 (skipHeader file l d)) := by
  have hsons := hlinks.sonsOf hp
  have hsub : ∀ {k}, k ∈ (T.sonsOf p).roots → k ∈ T.nodes := fun hk =>
    Forest.mem_nodes_of_mem_sonsOf (Forest.mem_nodes_of_mem_roots hk)
  have hd := hatt d (hsub (hr ▸ List.mem_append_right _ List.mem_cons_self))
  have hlast : ∀ h, (documentAt file p 0 :: (pre ++ [d]).map (documentAt file · c)).getLast h
      = documentAt file d c := fun h => by simp
  rcases List.eq_nil_or_concat' pre with rfl | ⟨pre, q, rfl⟩
  · -- the first son: the son link of the parent
    have hx := (hsons.roots_cons hr).1
    refine ⟨(true, p), hp, hx, ?_⟩
    have hson : (documentAt file p 0).header.indexSon = d := (link_eq_some.mp hx).1
    unfold unlink
    rw [hlast]
    refine (if_pos (hson.trans hd.symm)).trans ?_
    simp only [writeHeader, documentAt, hatt p hp, skipHeader, if_true]
  · -- a later son: the brother link of the one before
    rw [List.append_assoc] at hr
    have hqT : q ∈ T.nodes := hsub (hr ▸ List.mem_append_right _ List.mem_cons_self)
    have hx := hsons.brother_of_roots hr
    refine ⟨(false, q), hqT, hx, ?_⟩
    have hne : (documentAt file p 0).header.indexSon
        ≠ (documentAt file d c).header.indexAttached := by
      intro he
      obtain ⟨a, l, hal⟩ : ∃ a l, pre ++ [q] = a :: l := by
        cases pre with
        | nil => exact ⟨q, [], rfl⟩
        | cons a l => exact ⟨a, l ++ [q], rfl⟩
      have hr' : (T.sonsOf p).roots = a :: (l ++ d :: rest) := by
        rw [hr, ← List.append_assoc, hal, List.cons_append]
      obtain ⟨rfl, -⟩ := link_eq_some.mp (hsons.roots_cons hr').1
      refine hn ?_
      rw [hal]
      exact List.mem_cons.mpr (Or.inl (hd.symm.trans he.symm))
    have hprev : (documentAt file p 0 ::
        ((pre ++ [q]) ++ [d]).map (documentAt file · c)).dropLast.getLast?
        = some (documentAt file q c) := by
      rw [List.map_append, ← List.cons_append, List.map_cons, List.map_nil, List.dropLast_concat,
        List.map_append, List.map_cons, List.map_nil, ← List.cons_append, List.getLast?_concat]
    unfold unlink
    rw [hlast]
    refine (if_neg hne).trans ?_
    rw [hprev]
    simp only [writeHeader, documentAt, hatt q hqT, skipHeader]
    rfl

/-- **The links past a document** encode the tree without its subtree. -/
theorem remove_represents {file file' : ZgdbFile A} {T : Forest Nat} {d : Nat} {l : Bool × Nat}
    (hlinks : T.Represents (sonOf file) (brotherOf file) (some 0)) (hn : T.nodes.Nodup) (h0 : d ≠ 0)
    (hl : l.2 ∈ T.nodes) (hld : Forest.Leads (sonOf file) (brotherOf file) l d)
    (hhdr : getDocumentHeader file' l.2 = skipHeader file l d)
    (hsame : ∀ k ∈ T.nodes, k ≠ l.2 → getDocumentHeader file' k = getDocumentHeader file k) :
    (T.remove d).Represents (sonOf file') (brotherOf file') (some 0) := by
  refine hlinks.remove_link hn (fun h => h0 (Option.some.inj h).symm) hl hld ?_ ?_ ?_
  · obtain ⟨k, c⟩ := l
    cases k with
    | true => rw [if_pos rfl, sonOf, hhdr]; rfl
    | false => rw [if_neg (by simp), brotherOf, hhdr]; rfl
  · intro a ha _ hal
    obtain ⟨k, c⟩ := l
    by_cases hac : a = c
    · subst hac
      cases k with
      | true => exact absurd rfl hal
      | false => rw [sonOf, hhdr]; rfl
    · rw [sonOf, hsame a ha hac, sonOf]
  · intro a ha _ hal
    obtain ⟨k, c⟩ := l
    by_cases hac : a = c
    · subst hac
      cases k with
      | false => exact absurd rfl hal
      | true => rw [brotherOf, hhdr]; rfl
    · rw [brotherOf, hsame a ha hac, brotherOf]

/-- **After unlinking**, the blocks are in their classes and the links encode the tree without the
subtree. -/
theorem unlink_spec {file file' : ZgdbFile A} {T : Forest Nat} {es : Nat → List StoredElement}
    {own : Nat → List Nat} (hs : Store file T es own) {d : Nat} (h0 : d ≠ 0)
    {l : Bool × Nat} (hl : l.2 ∈ T.nodes) (hld : Forest.Leads (sonOf file) (brotherOf file) l d)
    (hf : file' = fwriteAt documentHeaderK file (blockPos file l.2) 0 (skipHeader file l d)) :
    Blocks file' T.nodes ∧
      (T.remove d).Represents (sonOf file') (brotherOf file') (some 0) ∧
      Relinked file file' l.2 ∧
      (∀ j, Used file j → j ≠ l.2 → Agrees file file' j (blockCapacity file j)) ∧
      (∀ k ∈ T.nodes, k ≠ l.2 → getDocumentHeader file' k = getDocumentHeader file k) ∧
      isRootDocumentHeader (getDocumentHeader file' 0) = true := by
  obtain ⟨hb, hhdr, hrel, hothers, -⟩ :=
    relink_spec (skipHeader file l d) hs.blocks hl (skipHeader_sameButLinks file l d) hf
  have hsame : ∀ k ∈ T.nodes, k ≠ l.2 → getDocumentHeader file' k = getDocumentHeader file k := by
    intro k hk hkl
    have hdoc := hs.isDocument hk
    exact (hdoc.of_eqOn ((hothers k (Or.inl (hs.alive hk)) hkl).mono hdoc.header_le)).2.1
  refine ⟨hb, remove_represents hs.links hs.nodup h0 hl hld hhdr hsame, hrel, hothers, hsame, ?_⟩
  have hroot := hs.root
  by_cases hl0 : 0 = l.2
  · -- the root has no brother, so the link is its son link
    obtain ⟨k, c⟩ := l
    obtain rfl : 0 = c := hl0
    cases k with
    | true => rw [hhdr]; exact hroot
    | false => exact absurd (hs.root_brother ▸ hld) (Option.some_ne_none d).symm
  · rw [hsame 0 hs.root_mem hl0]
    exact hroot

/-! ## 3. The subtree

What is below the document is visited from its first son on, by the iterator over the links as they
are stored. -/

theorem length_le_of_lt {l : List Nat} {n : Nat} (hn : l.Nodup) (h : ∀ x ∈ l, x < n) :
    l.length ≤ n := by
  have := (List.subperm_of_subset hn fun x hx => List.mem_range.mpr (h x hx)).length_le
  rwa [List.length_range] at this

/-- **The subtree part** frees every document below. -/
theorem deleteSubtree_spec {P : ZgdbFile A → List Nat → Prop} (hP : Reclaims P) {file : ZgdbFile A}
    {docs docs' : List Nat} {doc : Document} {d fuel : Nat} {G : Forest Nat} (hb : P file docs)
    (hdoc : doc.header.indexAttached = d)
    (hlinks : G.Represents (sonOf file) (brotherOf file) (link doc.header.indexSon))
    (hn : G.nodes.Nodup) (hmem : ∀ k ∈ G.nodes, k ∈ docs ∧ k ≠ 0)
    (hdocs : ∀ j, j ∈ docs' ↔ j ∈ docs ∧ j ∉ G.nodes) (hfuel : G.nodes.length < fuel) :
    ∃ file', deleteSubtree fuel file doc = some file' ∧
      Freed file file' ((G.visit d 0).map Prod.fst) ∧ P file' docs' ∧
      file'.header.nodes = file.header.nodes - G.nodes.length := by
  have hperm := Forest.perm_map_visit G d 0
  unfold deleteSubtree
  by_cases h0 : doc.header.indexSon = 0
  · rw [h0, link_zero] at hlinks
    obtain rfl := hlinks.eq_nil
    exact ⟨file, if_neg (by simp [h0]), Freed.refl file,
      hP.congr hb fun j => by rw [hdocs]; simp, rfl⟩
  · rw [link_of_ne h0] at hlinks
    have hatt : ∀ k ∈ G.nodes, (getDocumentHeader file k).indexAttached = k := fun k hk =>
      (hP.doc hb (hmem k hk).1).2.attached
    have hentry : ∀ e ∈ G.visit d 0, e.1 ∈ G.nodes := fun e he =>
      hperm.mem_iff.mp (List.mem_map_of_mem he)
    have hwalk := hlinks.walk 0 d 0 []
    rw [Forest.resume, Option.map_some, List.append_nil] at hwalk
    have hrun := forEachLoop_eq getDocumentHeader_del hwalk (fun e he => hatt e.1 (hentry e he))
      (fun _ => rfl) hfuel
    have hspec := foldl_del_spec hP hb (fun _ => rfl) (hperm.nodup_iff.mpr hn)
      (fun e he => hmem e.1 (hentry e he)) fun j => (hdocs j).trans (by rw [hperm.mem_iff])
    rw [Forest.length_visit] at hspec
    refine ⟨_, ?_, hspec⟩
    rw [if_pos h0, ← hrun]
    show forEachLoop del fuel file (createDocIterator
      (getDocumentHeader file doc.header.indexSon).indexAttached doc.header.indexAttached 0) = _
    rw [hatt _ (hlinks.entry_mem rfl), hdoc]
    rfl

/-! ## 4. `deleteDocument`

The parts in their order: the link, the document, what is below it, and its toasts. -/

/-- What `deleteDocument` makes of a sound store: the subtree of `d` is gone, and its documents and
the toasts `ts` are free.  `ts` is the list of toasts of `d` itself; the toasts of the documents
below `d` are not among them and stay ALIVE. -/
structure Removed (file file' : ZgdbFile A) (T : Forest Nat) (es : Nat → List StoredElement)
    (own : Nat → List Nat) (d : Nat) (ts : List Nat) : Prop where
  store : Store file' (T.remove d) es own
  carried : Carried (T.remove d) own file file'
  list : ToastList file (getDocumentHeader file d).firstToastIndex ts
  reclaimed : Reclaimed file file' (d :: ((T.sonsOf d).nodes ++ ts))

section Delete

variable {file : ZgdbFile A} {T : Forest Nat} {es : Nat → List StoredElement} {own : Nat → List Nat}
  {p d fuel : Nat}

/-- The header with the link to `d` has been written, with the link past `d`. -/
structure Unlinked (P : ZgdbFile A → List Nat → Prop) (file file1 : ZgdbFile A) (T : Forest Nat)
    (d : Nat) (ts : List Nat) (l : Bool × Nat) : Prop where
  kept : P file1 T.nodes
  links : (T.remove d).Represents (sonOf file1) (brotherOf file1) (some 0)
  headers : ∀ k ∈ T.nodes, k ≠ l.2 → getDocumentHeader file1 k = getDocumentHeader file k
  toasts : ∀ t ∈ ts, IsToast file1 t ∧ toastAt file1 t = toastAt file t

/-- **The scan and the one header that is written.** -/
theorem scan_unlink (hlinks : T.Represents (sonOf file) (brotherOf file) (some 0))
    (hn : T.nodes.Nodup) (hatt : ∀ k ∈ T.nodes, (getDocumentHeader file k).indexAttached = k)
    (hp : p ∈ T.nodes) (hd : d ∈ (T.sonsOf p).roots) (hfuel : T.nodes.length < fuel) :
    ∃ (l : Bool × Nat) (sons : List Document), d ≠ 0 ∧ l.2 ∈ T.nodes ∧ l.2 ∈ (T.remove d).nodes ∧
      Forest.Leads (sonOf file) (brotherOf file) l d ∧
      scanSons file (documentAt file d p) fuel (getDocumentHeader file p).indexSon = some sons ∧
      unlink file (documentAt file p 0) sons
        = some (fwriteAt documentHeaderK file (blockPos file l.2) 0 (skipHeader file l d)) := by
  have hdT : d ∈ T.nodes := Forest.mem_nodes_of_mem_sonsOf (Forest.mem_nodes_of_mem_roots hd)
  obtain ⟨pre, rest, hr, hpre⟩ := List.eq_append_cons_of_mem hd
  have hfuel1 : pre.length < fuel := by
    have h1 := Forest.length_roots_le (T.sonsOf p)
    have h2 : (T.sonsOf p).nodes.length ≤ T.nodes.length :=
      (List.subperm_of_subset (Forest.nodup_sonsOf hn)
        fun x hx => Forest.mem_nodes_of_mem_sonsOf hx).length_le
    rw [hr, List.length_append] at h1
    omega
  obtain ⟨l, hl, hld, hwrite⟩ := unlink_eq d hlinks hp hr hpre hatt
  have h0 : d ≠ 0 := by
    rintro rfl
    exact (hlinks.leads_unique hn).1 l hl rfl hld
  refine ⟨l, _, h0, hl, hlinks.leads_remove hn hdT hl hld, hld, ?_, hwrite⟩
  exact scanSons_eq (hatt d hdT) (hlinks.sonsOf hp) hr hpre
    (fun k hk => hatt k (Forest.mem_nodes_of_mem_sonsOf hk)) hfuel1

/-- **The document is freed, and what is below it.** -/
theorem Unlinked.deleteSubtree {P : ZgdbFile A → List Nat → Prop} {file1 : ZgdbFile A}
    {ts : List Nat} {l : Bool × Nat} (hu : Unlinked P file file1 T d ts l) (hP : Reclaims P)
    (hlinks : T.Represents (sonOf file) (brotherOf file) (some 0)) (hn : T.nodes.Nodup)
    (hatt : (getDocumentHeader file d).indexAttached = d) (hd : d ∈ T.nodes) (h0 : d ≠ 0)
    (hl : l.2 ∈ (T.remove d).nodes) (hfuel : T.nodes.length < fuel) :
    ∃ file3, Zgdb.deleteSubtree fuel (del (documentAt file d p) file1) (documentAt file d p)
        = some file3 ∧
      Freed file1 file3 ([d] ++ ((T.sonsOf d).visit d 0).map Prod.fst) ∧
      P file3 (T.remove d).nodes ∧
      file3.header.nodes = file1.header.nodes - 1 - (T.sonsOf d).nodes.length := by
  have hmem : ∀ j, j ∈ (T.remove d).nodes ↔ j ∈ T.nodes ∧ j ≠ d ∧ j ∉ (T.sonsOf d).nodes :=
    fun j => Forest.mem_nodes_remove hn hd
  obtain ⟨-, hld, hls⟩ := (hmem l.2).mp hl
  obtain ⟨hb1, hlinks1, hsame1, -⟩ := hu
  have hrest : ∀ j, j ∈ T.nodes.filter (· ≠ d) ↔ j ∈ T.nodes ∧ j ≠ d := fun j => by simp
  obtain ⟨hfr2, hb2, hn2⟩ :=
    del_spec (p := p) hP hb1 hd h0 (hsame1 d hd (Ne.symm hld)).symm hrest
  have hlinks2 : (T.sonsOf d).Represents (sonOf (del (documentAt file d p) file1))
      (brotherOf (del (documentAt file d p) file1))
        (link (documentAt file d p).header.indexSon) := by
    refine (hlinks.sonsOf hd).congr ?_
    intro k hk
    have hkT := Forest.mem_nodes_of_mem_sonsOf hk
    have hkl : k ≠ l.2 := fun he => hls (he ▸ hk)
    rw [sonOf, brotherOf, getDocumentHeader_del, hsame1 k hkT hkl]
    exact ⟨rfl, rfl⟩
  have hbelow : ∀ k ∈ (T.sonsOf d).nodes, k ∈ T.nodes.filter (· ≠ d) ∧ k ≠ 0 := by
    intro k hk
    have hperm := Forest.perm_nodes_remove hn hd
    have hnd := List.nodup_cons.mp (hperm.nodup_iff.mp hn)
    refine ⟨(hrest k).mpr ⟨Forest.mem_nodes_of_mem_sonsOf hk, ?_⟩, ?_⟩
    · rintro rfl
      exact hnd.1 (List.mem_append_left _ hk)
    · rintro rfl
      exact (List.nodup_append.mp hnd.2).2.2 0 hk 0 (hlinks1.entry_mem rfl) rfl
  have hdocs3 : ∀ j, j ∈ (T.remove d).nodes ↔
      j ∈ T.nodes.filter (· ≠ d) ∧ j ∉ (T.sonsOf d).nodes := by
    intro j
    rw [hmem, hrest, and_assoc]
  have hatt' : (documentAt file d p).header.indexAttached = d := hatt
  have hlen : (T.sonsOf d).nodes.length ≤ T.nodes.length :=
    (List.subperm_of_subset (Forest.nodup_sonsOf hn)
      fun x hx => Forest.mem_nodes_of_mem_sonsOf hx).length_le
  obtain ⟨file3, hrun3, hfr3, hb3, hn3⟩ := deleteSubtree_spec hP hb2 hatt' hlinks2
    (Forest.nodup_sonsOf hn) hbelow hdocs3 (Nat.lt_of_le_of_lt hlen hfuel)
  exact ⟨file3, hrun3, hfr2.trans hfr3, hb3, by rw [hn3, hn2]⟩

/-- **Its toasts are freed last.** -/
theorem Unlinked.freeToasts {P : ZgdbFile A → List Nat → Prop} {file1 file3 : ZgdbFile A}
    {docs ts ks : List Nat} {l : Bool × Nat} (hu : Unlinked P file file1 T d ts l) (hP : Reclaims P)
    (htables : file1.indexes = file.indexes ∧ file1.header = file.header)
    (hts : ToastList file (getDocumentHeader file d).firstToastIndex ts) (htn : ts.Nodup)
    (htoast : ∀ t ∈ ts, Alive file t ∧ t ∉ T.nodes) (hks : ∀ k ∈ ks, k ∈ T.nodes)
    (hfreed : Freed file1 file3 ks) (hb : P file3 docs) (hfuel : file.header.indexCount < fuel) :
    ∃ file', Zgdb.freeToasts fuel file3 (documentAt file d p).header.firstToastIndex = some file' ∧
      Freed file1 file' (ks ++ ts) ∧ P file' docs ∧
      file'.header.nodes = file3.header.nodes := by
  have halive1 : ∀ k, Alive file1 k ↔ Alive file k := by
    intro k
    unfold Alive
    rw [htables.1, htables.2]
  have htoast3 : ∀ t ∈ ts, Alive file3 t ∧ IsToast file3 t := by
    intro t ht
    obtain ⟨halive, hnode⟩ := htoast t ht
    refine ⟨hfreed.alive_iff.mpr ⟨(halive1 t).mpr halive, fun hk => hnode (hks t hk)⟩, ?_⟩
    exact (isToast_congr (hfreed.blockAt t)).mpr (hu.toasts t ht).1
  have htlen : ts.length < fuel := by
    have := length_le_of_lt htn fun t ht => (htoast t ht).1.1
    omega
  have hts3 : ToastList file3 (documentAt file d p).header.firstToastIndex ts :=
    hts.congr fun t ht => (hfreed.toastAt t).trans (hu.toasts t ht).2
  obtain ⟨file', hrun4, hfr4, hb4, hn4⟩ := freeToasts_spec hP hb hts3 htn htoast3 htlen
  exact ⟨file', hrun4, hfreed.trans hfr4, hb4, hn4⟩

/-- **The run of `deleteDocument`**: one link is written, then the subtree and the toasts of the
document are freed.  It comes back when the loops may make one iteration more than there are
indices. -/
theorem deleteDocument_run {P : ZgdbFile A → List Nat → Prop} (hP : Reclaims P)
    (hlinks : T.Represents (sonOf file) (brotherOf file) (some 0)) (hn : T.nodes.Nodup)
    (hdoc : ∀ k ∈ T.nodes, Alive file k ∧ IsDocument file k) (hp : p ∈ T.nodes)
    (hd : d ∈ (T.sonsOf p).roots) {ts : List Nat}
    (hts : ToastList file (getDocumentHeader file d).firstToastIndex ts) (htn : ts.Nodup)
    (htoast : ∀ t ∈ ts, Alive file t ∧ t ∉ T.nodes)
    (hunlink : ∀ l : Bool × Nat, l.2 ∈ T.nodes → d ≠ 0 →
      Forest.Leads (sonOf file) (brotherOf file) l d → Unlinked P file
        (fwriteAt documentHeaderK file (blockPos file l.2) 0 (skipHeader file l d)) T d ts l)
    (hfuel : file.header.indexCount < fuel) :
    ∃ (l : Bool × Nat) (file1 file' : ZgdbFile A), d ≠ 0 ∧ l.2 ∈ (T.remove d).nodes ∧
      Forest.Leads (sonOf file) (brotherOf file) l d ∧
      file1 = fwriteAt documentHeaderK file (blockPos file l.2) 0 (skipHeader file l d) ∧
      deleteDocument fuel file (documentAt file d p) = some file' ∧
      Freed file1 file' (d :: ((T.sonsOf d).nodes ++ ts)) ∧ P file' (T.remove d).nodes ∧
      file'.header.nodes = file.header.nodes - 1 - (T.sonsOf d).nodes.length := by
  have hatt : ∀ k ∈ T.nodes, (getDocumentHeader file k).indexAttached = k := fun k hk =>
    (hdoc k hk).2.attached
  have hdT : d ∈ T.nodes := Forest.mem_nodes_of_mem_sonsOf (Forest.mem_nodes_of_mem_roots hd)
  have hlen : T.nodes.length < fuel :=
    Nat.lt_of_le_of_lt (length_le_of_lt hn fun x hx => (hdoc x hx).1.1) hfuel
  obtain ⟨l, sons, h0, hl, hlr, hld, hscan, hwrite⟩ := scan_unlink hlinks hn hatt hp hd hlen
  have hu := hunlink l hl h0 hld
  obtain ⟨file1, hf1⟩ : ∃ file1, file1
    = fwriteAt documentHeaderK file (blockPos file l.2) 0 (skipHeader file l d) := ⟨_, rfl⟩
  rw [← hf1] at hwrite hu
  have htables : file1.indexes = file.indexes ∧ file1.header = file.header := by
    rw [hf1]
    exact ⟨rfl, rfl⟩
  obtain ⟨file3, hrun3, hfr3, hb3, hn3⟩ :=
    hu.deleteSubtree (p := p) hP hlinks hn (hatt d hdT) hdT h0 hlr hlen
  have hvisit := Forest.perm_map_visit (T.sonsOf d) d 0
  have hks : ∀ k ∈ [d] ++ ((T.sonsOf d).visit d 0).map Prod.fst, k ∈ T.nodes := by
    intro k hk
    rcases List.mem_append.mp hk with hk | hk
    · exact List.mem_singleton.mp hk ▸ hdT
    · exact Forest.mem_nodes_of_mem_sonsOf (hvisit.mem_iff.mp hk)
  obtain ⟨file', hrun4, hfr4, hb4, hn4⟩ :=
    hu.freeToasts (p := p) hP htables hts htn htoast hks hfr3 hb3 hfuel
  refine ⟨l, file1, file', h0, hlr, hld, hf1, ?_, hfr4.perm ?_, hb4, ?_⟩
  · have hscan' : scanSons file (documentAt file d p) fuel
        (getDocumentHeader file (documentAt file d p).indexParent).indexSon = some sons := hscan
    have hwrite' : unlink file
        ⟨isRootDocumentHeader (getDocumentHeader file (documentAt file d p).indexParent), 0,
          getDocumentHeader file (documentAt file d p).indexParent⟩ sons = some file1 := hwrite
    unfold deleteDocument
    simp only [hscan', Option.bind_eq_bind, Option.bind_some, hwrite', hrun3, hrun4]
  · exact (hvisit.append_right ts).cons d
  · rw [hn4, hn3, htables.2]

/-- **`deleteDocument` removes the subtree** of the document, and comes back when the loops may
make one iteration more than there are indices. -/
theorem deleteDocument_spec (hs : Store file T es own) (hp : p ∈ T.nodes)
    (hd : d ∈ (T.sonsOf p).roots) (hfuel : file.header.indexCount < fuel) :
    ∃ file', deleteDocument fuel file (documentAt file d p) = some file' ∧
      ∃ ts, Removed file file' T es own d ts := by
  have hdT : d ∈ T.nodes := Forest.mem_nodes_of_mem_sonsOf (Forest.mem_nodes_of_mem_roots hd)
  have hmem : ∀ j, j ∈ (T.remove d).nodes ↔ j ∈ T.nodes ∧ j ≠ d ∧ j ∉ (T.sonsOf d).nodes :=
    fun j => Forest.mem_nodes_remove hs.nodup hdT
  obtain ⟨ts, hts, htn, hto⟩ := (hs.doc d hdT).list
  have htexts := (hs.doc d hdT).texts
  have hnl : ∀ {l : Bool × Nat}, l.2 ∈ T.nodes → ∀ t ∈ ts, t ≠ l.2 := fun hl t ht he =>
    hs.toast_notMem hdT (hto t ht) (he ▸ hl)
  obtain ⟨l, file1, file', h0, hlr, hld, hf1, hrun, hfr, hb4, hn4⟩ :=
    deleteDocument_run blocks_reclaims hs.links hs.nodup
      (fun k hk => (hs.blocks.docs k).mp hk) hp hd
      hts htn (fun t ht => ⟨htexts.alive t (hto t ht), hs.toast_notMem hdT (hto t ht)⟩)
      (fun l hl h0 hld => by
        obtain ⟨hb1, hlinks1, -, hothers1, hsame1, -⟩ := unlink_spec hs h0 hl hld rfl
        refine ⟨hb1, hlinks1, hsame1, ?_⟩
        intro t ht
        have htt := htexts.toast t (hto t ht)
        have h1 := htt.of_eqOn ((hothers1 t (Or.inl (htexts.alive t (hto t ht)))
          (hnl hl t ht)).mono htt.header_le)
        exact ⟨h1.1, h1.2.1⟩) hfuel
  obtain ⟨hl, hld', hls⟩ := (hmem l.2).mp hlr
  obtain ⟨hb1, hlinks1, hrel1, hothers1, hsame1, hroot1⟩ := unlink_spec hs h0 hl hld hf1
  have htables : file1.indexes = file.indexes ∧ file1.freeList = file.freeList ∧
      file1.header = file.header := by rw [hf1]; exact ⟨rfl, rfl, rfl⟩
  have halive1 : ∀ k, Alive file1 k ↔ Alive file k := by
    intro k
    unfold Alive
    rw [htables.1, htables.2.2]
  refine ⟨file', hrun, ts, ?_⟩
  have hfree_mem : ∀ x, x ∈ d :: ((T.sonsOf d).nodes ++ ts) ↔
      x = d ∨ x ∈ (T.sonsOf d).nodes ∨ x ∈ ts := by
    intro x
    rw [List.mem_cons, List.mem_append]
  -- the documents that stay
  have hcarried : Carried (T.remove d) own file file' := by
    intro k hk
    obtain ⟨hkT, hkd, hks⟩ := (hmem k).mp hk
    have hdoc1 : IsDocument file1 k := ((hb1.docs k).mp hkT).2
    have h1 : Relinked file file1 k := by
      by_cases hkl : k = l.2
      · rw [hkl]
        exact hrel1
      · have hdoc := hs.isDocument hkT
        refine Relinked.of_agrees hdoc ((hothers1 k (Or.inl (hs.alive hkT)) hkl).mono ?_)
        rw [hdoc.capacity]
        exact hdoc.size_le
    refine ⟨h1.trans (Relinked.of_agrees hdoc1 fun x _ => by rw [hfr.blockAt]), fun t ht => ?_⟩
    have hkt := (hs.doc k hkT).texts
    have htT := hs.toast_notMem hkT ht
    have hal := hkt.alive t ht
    refine ⟨hfr.alive_iff.mpr ⟨(halive1 t).mpr hal, ?_⟩, ?_⟩
    · intro hmem'
      rcases (hfree_mem t).mp hmem' with rfl | h | h
      · exact htT hdT
      · exact htT (Forest.mem_nodes_of_mem_sonsOf h)
      · exact hs.apart k hkT d hdT hkd t ht (hto t h)
    · intro x hx
      rw [hfr.blockAt]
      refine hothers1 t (Or.inl hal) (fun he => htT (he ▸ hl)) x ?_
      rwa [(hkt.toast t ht).capacity]
  refine ⟨?_, hcarried, hts, Reclaimed.of_freed hfr htables.1 htables.2.1 htables.2.2 ?_⟩
  · have h0r : 0 ∈ (T.remove d).nodes := hlinks1.entry_mem rfl
    refine ⟨hb4, Forest.nodup_remove hs.nodup, ?_, ?_, ?_, ?_, ?_, ?_⟩
    · refine hlinks1.congr ?_
      intro k _
      rw [sonOf, sonOf, brotherOf, brotherOf, hfr.getDocumentHeader]
      exact ⟨rfl, rfl⟩
    · rw [hfr.getDocumentHeader]
      exact hroot1
    · rw [(hcarried 0 h0r).1.firstToastIndex]
      exact hs.rootToast
    · have hlen' := (Forest.perm_nodes_remove hs.nodup hdT).length_eq
      rw [List.length_cons, List.length_append] at hlen'
      have hnodes := hs.nodes
      rw [hn4]
      omega
    · intro k hk
      obtain ⟨hkT, -, -⟩ := (hmem k).mp hk
      exact (hs.doc k hkT).frame (hcarried k hk).1 (fun t ht => ((hcarried k hk).2 t ht).1)
        fun t ht => ((hcarried k hk).2 t ht).2
    · intro j hj k hk
      exact hs.apart j ((hmem j).mp hj).1 k ((hmem k).mp hk).1
  · -- the capacities are those from before the header was written
    intro k hk
    have hk' : Used file k ∧ k ≠ l.2 := by
      rcases (hfree_mem k).mp hk with rfl | h | h
      · exact ⟨Or.inl (hs.alive hdT), Ne.symm hld'⟩
      · exact ⟨Or.inl (hs.alive (Forest.mem_nodes_of_mem_sonsOf h)), fun he => hls (he ▸ h)⟩
      · exact ⟨Or.inl (htexts.alive k (hto k h)), hnl hl k h⟩
    exact (Kept.of_agrees (hs.blocks.block k hk'.1) (hothers1 k hk'.1 hk'.2)).2

end Delete

end Zgdb
