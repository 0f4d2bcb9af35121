/-
# `deleteDocument` on the root

The root is its own parent, so the sibling scan runs over all its sons without finding it, and the
last of them is unlinked in its place.  The root itself is not freed; what lies behind its old son
link is.  With at most one son this empties the store (`deleteRoot_one`).  With more, the last son
is cut off but not freed, and the son link of the root still leads to the first one, which is DEAD
(`deleteRoot_many`).
-/
import Zgdb.Delete

namespace Zgdb

open Zgdb.Lib AddrSpace

variable {A : Type} [BlockSpace A]

/-- The scan for a document that is not among the sons collects all of them. -/
theorem scanSons_all {file : ZgdbFile A} {doc : Document} {G : Forest Nat} {order fuel : Nat}
    (h : G.Represents (sonOf file) (brotherOf file) (link order))
    (hn : doc.header.indexAttached ∉ G.roots)
    (hatt : ∀ k ∈ G.nodes, (getDocumentHeader file k).indexAttached = k)
    (hfuel : G.roots.length < fuel) :
    scanSons file doc fuel order
      = some (G.roots.map (documentAt file · doc.header.indexAttached)) := by
  induction G generalizing order fuel with
  | nil =>
    obtain ⟨fuel, rfl⟩ : ∃ m, fuel = m + 1 := ⟨fuel - 1, by omega⟩
    rw [scanSons, if_pos (link_eq_none.mp h)]
    rfl
  | cons a s b _ ihb =>
    obtain ⟨fuel, rfl⟩ : ∃ m, fuel = m + 1 := ⟨fuel - 1, by omega⟩
    obtain ⟨hx, -, hb⟩ := h
    obtain ⟨rfl, h0⟩ := link_eq_some.mp hx
    have ha := hatt order List.mem_cons_self
    rw [Forest.roots_cons, List.mem_cons, not_or] at hn
    have ih := ihb hb hn.2 (fun k hk => hatt k
        (List.mem_cons_of_mem _ (List.mem_append_right _ hk)))
      (Nat.lt_of_succ_lt_succ hfuel)
    simp only [scanSons, if_neg h0, ha, if_neg hn.1]
    rw [show scanSons file doc fuel (getDocumentHeader file order).indexBrother = _ from ih]
    rfl

section Root

variable {file : ZgdbFile A} {T : Forest Nat} {es : Nat → List StoredElement} {own : Nat → List Nat}
  {fuel : Nat}

/-- The scan of a deletion of the root. -/
theorem Store.scan_root (hs : Store file T es own) (hfuel : file.header.indexCount < fuel) :
    scanSons file (documentAt file 0 0) fuel (getDocumentHeader file 0).indexSon
      = some ((T.sonsOf 0).roots.map (documentAt file · 0)) := by
  have hsub : ∀ {k}, k ∈ (T.sonsOf 0).nodes → k ∈ T.nodes := Forest.mem_nodes_of_mem_sonsOf
  have hatt : (documentAt file 0 0).header.indexAttached = 0 := hs.attached hs.root_mem
  have h0 : 0 ∉ (T.sonsOf 0).roots := by
    intro h
    have hn := hs.nodup
    rw [hs.tree_eq] at hn
    exact (Forest.nodup_cons hn).1 (Forest.mem_nodes_of_mem_roots h)
  have hlen : (T.sonsOf 0).roots.length < fuel := by
    have h1 := Forest.length_roots_le (T.sonsOf 0)
    have h2 := length_le_of_lt (Forest.nodup_sonsOf hs.nodup) fun x hx => (hs.alive (hsub hx)).1
    omega
  have hscan : scanSons file (documentAt file 0 0) fuel (getDocumentHeader file 0).indexSon = _ :=
    scanSons_all (hs.links.sonsOf hs.root_mem) (by rw [hatt]; exact h0)
      (fun k hk => hs.attached (hsub hk)) hlen
  rw [hatt] at hscan
  exact hscan

/-- The root is not freed, and has no toasts. -/
theorem deleteRoot_run {file1 : ZgdbFile A} {sons : List Document}
    (hroot : isRootDocumentHeader (getDocumentHeader file 0) = true)
    (htoast : (getDocumentHeader file 0).firstToastIndex = 0) (hfuel : 0 < fuel)
    (hscan : scanSons file (documentAt file 0 0) fuel (getDocumentHeader file 0).indexSon
      = some sons)
    (hunlink : unlink file (documentAt file 0 0) sons = some file1) :
    deleteDocument fuel file (documentAt file 0 0)
      = deleteSubtree fuel file1 (documentAt file 0 0) := by
  have hscan' : scanSons file (documentAt file 0 0) fuel
      (getDocumentHeader file (documentAt file 0 0).indexParent).indexSon = some sons := hscan
  have hunlink' : unlink file
      ⟨isRootDocumentHeader (getDocumentHeader file (documentAt file 0 0).indexParent), 0,
        getDocumentHeader file (documentAt file 0 0).indexParent⟩ sons = some file1 := hunlink
  have hisRoot : (documentAt file 0 0).isRoot = true := hroot
  have hdel : del (documentAt file 0 0) file1 = file1 := by rw [del, if_pos hisRoot]
  have hfirst : (documentAt file 0 0).header.firstToastIndex = 0 := htoast
  have hfree : ∀ f : ZgdbFile A, freeToasts fuel f 0 = some f := by
    obtain ⟨n, rfl⟩ : ∃ n, fuel = n + 1 := ⟨fuel - 1, by omega⟩
    exact fun f => if_pos rfl
  unfold deleteDocument
  simp only [hscan', Option.bind_eq_bind, Option.bind_some, hunlink', hdel, hfirst, hfree]
  cases deleteSubtree fuel file1 (documentAt file 0 0) <;> rfl

theorem Store.deleteRoot_eq (hs : Store file T es own) (hfuel : file.header.indexCount < fuel)
    {file1 : ZgdbFile A}
    (hunlink : unlink file (documentAt file 0 0) ((T.sonsOf 0).roots.map (documentAt file · 0))
      = some file1) :
    deleteDocument fuel file (documentAt file 0 0)
      = deleteSubtree fuel file1 (documentAt file 0 0) :=
  deleteRoot_run hs.root hs.rootToast (by omega) (hs.scan_root hfuel) hunlink

/-- A root without sons is left as it is. -/
theorem deleteRoot_none (hs : Store file T es own) (hfuel : file.header.indexCount < fuel)
    (hr : (T.sonsOf 0).roots = []) :
    deleteDocument fuel file (documentAt file 0 0) = some file := by
  have hson : (getDocumentHeader file 0).indexSon = 0 := by
    have h := (hs.links.sonsOf hs.root_mem).entry
    rw [hr] at h
    exact link_eq_none.mp h
  have hbrother : (getDocumentHeader file 0).indexBrother = 0 := link_eq_none.mp hs.root_brother
  have hatt := hs.attached hs.root_mem
  have hunlink : unlink file (documentAt file 0 0) ((T.sonsOf 0).roots.map (documentAt file · 0))
      = some file := by
    have hsame : ({ getDocumentHeader file 0 with indexSon :=
      (getDocumentHeader file 0).indexBrother }
        : DocumentHeader) = getDocumentHeader file 0 := by
      rw [hbrother.trans hson.symm]
    rw [hr, List.map_nil]
    unfold unlink
    rw [List.getLast_singleton]
    refine (if_pos (hson.trans hatt.symm)).trans ?_
    show some (writeHeader file { getDocumentHeader file 0 with
      indexSon := (getDocumentHeader file 0).indexBrother }) = some file
    rw [hsame, writeHeader, hatt, fwriteAt_same (hs.isDocument hs.root_mem).holds]
  rw [hs.deleteRoot_eq hfuel hunlink, deleteSubtree, if_neg]
  exact not_not.mpr hson

/-- With sons, the last of them is unlinked in place of the root. -/
theorem Store.unlink_root (hs : Store file T es own) {pre : List Nat} {d : Nat}
    (hr : (T.sonsOf 0).roots = pre ++ [d]) :
    ∃ l : Bool × Nat, l.2 ∈ T.nodes ∧ Forest.Leads (sonOf file) (brotherOf file) l d ∧
      d ∈ T.nodes ∧ d ≠ 0 ∧ d ∉ pre ∧
      unlink file (documentAt file 0 0) ((T.sonsOf 0).roots.map (documentAt file · 0))
        = some (fwriteAt documentHeaderK file (blockPos file l.2) 0 (skipHeader file l d)) := by
  have hdr : d ∈ (T.sonsOf 0).roots := hr ▸ List.mem_append_right _ List.mem_cons_self
  have hdT : d ∈ T.nodes := Forest.mem_nodes_of_mem_sonsOf (Forest.mem_nodes_of_mem_roots hdr)
  have hn : d ∉ pre := by
    have h := (Forest.nodup_roots (Forest.nodup_sonsOf hs.nodup) : (T.sonsOf 0).roots.Nodup)
    rw [hr, List.nodup_append] at h
    exact fun hd => h.2.2 d hd d List.mem_cons_self rfl
  obtain ⟨l, hl, hld, hunlink⟩ :=
    unlink_eq 0 hs.links hs.root_mem hr hn fun k hk => hs.attached hk
  refine ⟨l, hl, hld, hdT, ?_, hn, hr ▸ hunlink⟩
  rintro rfl
  exact (hs.links.leads_unique hs.nodup).1 l hl rfl hld

/-- The root has no toasts. -/
theorem Store.own_root (hs : Store file T es own) : own 0 = [] := by
  have htexts := (hs.doc 0 hs.root_mem).texts
  rcases htexts.first_mem with h | h
  · rw [hs.rootToast] at h
    exact absurd hs.root_mem (hs.toast_notMem hs.root_mem h)
  · exact h.1

/-- **The root with one son**: everything below it is freed. -/
theorem deleteRoot_one (hs : Store file T es own) (hfuel : file.header.indexCount < fuel) {d : Nat}
    (hr : (T.sonsOf 0).roots = [d]) :
    ∃ file', deleteDocument fuel file (documentAt file 0 0) = some file' ∧
      Store file' (.cons 0 .nil .nil) es own ∧ Carried (.cons 0 .nil .nil) own file file' ∧
      Reclaimed file file' (T.sonsOf 0).nodes := by
  obtain ⟨l, hl, hld, -, h0, -, hunlink⟩ := hs.unlink_root (by rw [hr, List.nil_append])
  have hl0 : l = (true, 0) := by
    refine (hs.links.leads_unique hs.nodup).2 l (true, 0) hl hs.root_mem hld ?_
    have h := (hs.links.sonsOf hs.root_mem).entry
    rw [hr] at h
    exact h
  subst hl0
  obtain ⟨file1, hf1⟩ : ∃ file1, file1 = fwriteAt documentHeaderK file (blockPos file 0) 0
    (skipHeader file (true, 0) d) := ⟨_, rfl⟩
  obtain ⟨hb1, hlinks1, hrel1, hothers1, hsame1, hroot1⟩ := unlink_spec hs h0 hl hld hf1
  have htables : file1.indexes = file.indexes ∧ file1.freeList = file.freeList ∧
      file1.header = file.header := by rw [hf1]; exact ⟨rfl, rfl, rfl⟩
  -- the tree: the root and what is below it
  obtain ⟨F, hF⟩ : ∃ F, F = T.sonsOf 0 := ⟨_, rfl⟩
  have hT := hs.tree_eq
  rw [← hF] at hT hr
  have hmemT : ∀ k, k ∈ T.nodes ↔ k = 0 ∨ k ∈ F.nodes := fun k => by rw [hT]; simp
  have hn0 : 0 ∉ F.nodes ∧ F.nodes.Nodup := by
    have hn := hs.nodup
    rw [hT] at hn
    exact ⟨(Forest.nodup_cons hn).1, (Forest.nodup_cons hn).2.2.1⟩
  have hremove : T.remove d = .cons 0 .nil .nil := by
    rw [hT, Forest.remove, if_neg (Ne.symm h0)]
    cases F with
    | nil => cases hr
    | cons a s b =>
      rw [Forest.roots_cons, List.cons.injEq] at hr
      obtain ⟨rfl, hb⟩ := hr
      cases b with
      | nil => simp [Forest.remove]
      | cons _ _ _ => cases hb
  rw [hremove] at hlinks1
  -- everything below the root is freed
  have hsub : F.Represents (sonOf file1) (brotherOf file1)
      (link (documentAt file 0 0).header.indexSon) := by
    have h := hs.links.sonsOf hs.root_mem
    rw [← hF] at h
    refine h.congr ?_
    intro k hk
    have hk0 : k ≠ 0 := fun he => hn0.1 (he ▸ hk)
    rw [sonOf, brotherOf, hsame1 k ((hmemT k).mpr (Or.inr hk)) hk0]
    exact ⟨rfl, rfl⟩
  have hlen : F.nodes.length < fuel := by
    have := length_le_of_lt hn0.2 fun x hx => (hs.alive ((hmemT x).mpr (Or.inr hx))).1
    omega
  have hdocs : ∀ j, j ∈ [0] ↔ j ∈ T.nodes ∧ j ∉ F.nodes := by
    intro j
    rw [List.mem_singleton, hmemT]
    constructor
    · rintro rfl
      exact ⟨Or.inl rfl, hn0.1⟩
    · rintro ⟨h | h, hj⟩
      · exact h
      · exact absurd h hj
  obtain ⟨file', hrun, hfr, hb', hnodes⟩ :=
    deleteSubtree_spec blocks_reclaims hb1 (hs.attached hs.root_mem) hsub
    hn0.2 (fun k hk => ⟨(hmemT k).mpr (Or.inr hk), fun he => hn0.1 (he ▸ hk)⟩) hdocs hlen
  have hcarried : Carried (.cons 0 .nil .nil) own file file' := by
    intro k hk
    obtain rfl : k = 0 := List.mem_singleton.mp hk
    refine ⟨hrel1.trans (Relinked.of_agrees ((hb1.docs 0).mp hs.root_mem).2
      fun x _ => by rw [hfr.blockAt]), fun t ht => ?_⟩
    rw [hs.own_root] at ht
    cases ht
  refine ⟨file', (hs.deleteRoot_eq hfuel (hf1 ▸ hunlink)).trans hrun, ?_, hcarried, ?_⟩
  · have hhdr : ∀ k, getDocumentHeader file' k = getDocumentHeader file1 k := hfr.getDocumentHeader
    refine ⟨hb', List.nodup_singleton 0, ?_, ?_, ?_, ?_, ?_, ?_⟩
    · refine hlinks1.congr ?_
      intro k _
      rw [sonOf, brotherOf, hhdr]
      exact ⟨rfl, rfl⟩
    · rw [hhdr]
      exact hroot1
    · rw [(hcarried 0 List.mem_cons_self).1.firstToastIndex]
      exact hs.rootToast
    · have hcount := hs.nodes
      rw [hT] at hcount
      rw [hnodes, htables.2.2, hcount]
      simp
    · intro k hk
      obtain rfl : k = 0 := List.mem_singleton.mp hk
      have hc := hcarried 0 List.mem_cons_self
      exact (hs.doc 0 hs.root_mem).frame hc.1 (fun t ht => (hc.2 t ht).1) fun t ht => (hc.2 t ht).2
    · intro j hj k hk hjk
      exact absurd ((List.mem_singleton.mp hj).trans (List.mem_singleton.mp hk).symm) hjk
  · rw [← hF]
    refine Reclaimed.perm (Reclaimed.of_freed hfr htables.1 htables.2.1 htables.2.2 ?_)
      (Forest.perm_map_visit F 0 0)
    intro k hk
    have hk' : k ∈ F.nodes := (Forest.perm_map_visit F 0 0).mem_iff.mp hk
    have hkT := (hmemT k).mpr (Or.inr hk')
    have hu : Used file k := Or.inl (hs.alive hkT)
    have hk0 : k ≠ 0 := fun he => hn0.1 (he ▸ hk')
    exact (Kept.of_agrees (hs.blocks.block k hu) (hothers1 k hu hk0)).2

/-- A root whose last son was cut off, and what its links still lead to, `G`, freed. -/
structure RootCut (file file' : ZgdbFile A) (T G : Forest Nat) : Prop where
  root : getDocumentHeader file' 0 = getDocumentHeader file 0
  links : G.Represents (sonOf file') (brotherOf file') (sonOf file 0)
  below : ∀ k ∈ G.nodes, k ∈ T.nodes ∧ k ≠ 0 ∧ IsDocument file' k ∧
    blockCapacity file' k = blockCapacity file k
  reclaimed : Reclaimed file file' G.nodes
  blocks : Blocks file' (T.nodes.filter (· ∉ G.nodes))

/-- **The root with more sons**: the last one stays, and the others are freed while the root still
leads to them. -/
theorem deleteRoot_cut (hs : Store file T es own) (hfuel : file.header.indexCount < fuel)
    {c d : Nat} {mid : List Nat} (hr : (T.sonsOf 0).roots = c :: (mid ++ [d])) :
    ∃ file', deleteDocument fuel file (documentAt file 0 0) = some file' ∧
      RootCut file file' T ((T.remove d).sonsOf 0) := by
  have hr' : (T.sonsOf 0).roots = (c :: mid) ++ [d] := hr
  obtain ⟨l, hl, hld, -, h0, hdpre, hunlink⟩ := hs.unlink_root hr'
  have hl0 : l.2 ≠ 0 := by
    obtain ⟨k, x⟩ := l
    rintro rfl
    cases k with
    | true =>
      have hson := (hs.links.sonsOf hs.root_mem).entry
      rw [hr] at hson
      have hcd : c = d := Option.some.inj (hson.symm.trans hld)
      exact hdpre (hcd ▸ List.mem_cons_self)
    | false => exact Option.some_ne_none d (hld.symm.trans hs.root_brother)
  obtain ⟨file1, hf1⟩ : ∃ file1, file1 = fwriteAt documentHeaderK file (blockPos file l.2) 0
    (skipHeader file l d) := ⟨_, rfl⟩
  obtain ⟨hb1, hlinks1, hrel1, hothers1, hsame1, -⟩ := unlink_spec hs h0 hl hld hf1
  have htables : file1.indexes = file.indexes ∧ file1.freeList = file.freeList ∧
      file1.header = file.header := by rw [hf1]; exact ⟨rfl, rfl, rfl⟩
  have hroot1 : getDocumentHeader file1 0 = getDocumentHeader file 0 :=
    hsame1 0 hs.root_mem (Ne.symm hl0)
  -- the sons that are still linked are freed with what is below them
  obtain ⟨G, hG⟩ : ∃ G, G = (T.remove d).sonsOf 0 := ⟨_, rfl⟩
  have h0r : 0 ∈ (T.remove d).nodes := hlinks1.entry_mem rfl
  have hsub : G.Represents (sonOf file1) (brotherOf file1) (sonOf file 0) := by
    have h := hlinks1.sonsOf h0r
    rwa [sonOf, hroot1, ← hG] at h
  have hmem : ∀ k ∈ G.nodes, k ∈ T.nodes ∧ k ≠ 0 := by
    intro k hk
    rw [hG] at hk
    refine ⟨Forest.mem_nodes_of_mem_remove (Forest.mem_nodes_of_mem_sonsOf hk), ?_⟩
    rintro rfl
    exact Forest.notMem_sonsOf (Forest.nodup_remove hs.nodup) h0r hk
  have hn : G.nodes.Nodup := hG ▸ Forest.nodup_sonsOf (Forest.nodup_remove hs.nodup)
  have hlen : G.nodes.length < fuel := by
    have := length_le_of_lt hn fun x hx => (hs.alive (hmem x hx).1).1
    omega
  have hdocs : ∀ j, j ∈ T.nodes.filter (· ∉ G.nodes) ↔ j ∈ T.nodes ∧ j ∉ G.nodes := fun j => by simp
  have hentry : G.Represents (sonOf file1) (brotherOf file1)
      (link (documentAt file 0 0).header.indexSon) := hsub
  obtain ⟨file', hrun, hfr, hb', -⟩ := deleteSubtree_spec blocks_reclaims hb1
    (hs.attached hs.root_mem) hentry hn hmem hdocs hlen
  have hhdr : ∀ k, getDocumentHeader file' k = getDocumentHeader file1 k := hfr.getDocumentHeader
  -- the document before the last son keeps its capacity, and the others their bytes
  have hcap : ∀ k ∈ G.nodes, blockCapacity file1 k = blockCapacity file k := by
    intro k hk
    have hkT := (hmem k hk).1
    by_cases hkl : k = l.2
    · rw [((hb1.docs k).mp hkT).2.capacity, (hs.isDocument hkT).capacity, hkl, hrel1.header]
    · have hu : Used file k := Or.inl (hs.alive hkT)
      exact (Kept.of_agrees (hs.blocks.block k hu) (hothers1 k hu hkl)).2
  refine ⟨file', (hs.deleteRoot_eq hfuel (hf1 ▸ hunlink)).trans hrun, hG ▸ ⟨?_, ?_, ?_, ?_, hb'⟩⟩
  · rw [hhdr, hroot1]
  · refine hsub.congr ?_
    intro k _
    rw [sonOf, brotherOf, hhdr]
    exact ⟨rfl, rfl⟩
  · intro k hk
    exact ⟨(hmem k hk).1, (hmem k hk).2,
      (isDocument_congr (hfr.blockAt k)).mpr ((hb1.docs k).mp (hmem k hk).1).2,
      (hfr.blockCapacity k).trans (hcap k hk)⟩
  · exact Reclaimed.perm (Reclaimed.of_freed hfr htables.1 htables.2.1 htables.2.2 fun k hk =>
      hcap k ((Forest.perm_map_visit G 0 0).mem_iff.mp hk)) (Forest.perm_map_visit G 0 0)

/-- The son link of the root is then left dangling. -/
theorem deleteRoot_many (hs : Store file T es own) (hfuel : file.header.indexCount < fuel)
    {c d : Nat} {mid : List Nat} (hr : (T.sonsOf 0).roots = c :: (mid ++ [d])) :
    ∃ file', deleteDocument fuel file (documentAt file 0 0) = some file' ∧
      sonOf file' 0 = some c ∧ Dead file' c := by
  obtain ⟨file', hrun, hcut⟩ := deleteRoot_cut hs hfuel hr
  have hson : sonOf file 0 = some c := by
    have h := (hs.links.sonsOf hs.root_mem).entry
    rw [hr] at h
    exact h
  have hc : c ∈ ((T.remove d).sonsOf 0).nodes := hcut.links.entry_mem hson
  refine ⟨file', hrun, ?_, ?_, ?_⟩
  · rw [sonOf, hcut.root]
    exact hson
  · rw [hcut.reclaimed.header]
    exact (hs.alive (hcut.below c hc).1).1
  · rw [hcut.reclaimed.indexes, if_pos hc]

end Root

end Zgdb
