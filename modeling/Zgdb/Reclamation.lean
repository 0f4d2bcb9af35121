/-
# What a deletion gives back

`deleteDocument` frees a document, the documents below it and the toasts on its own list.  The
toasts of the documents below it are on other lists, which no loop follows: a deletion gives
everything back exactly when no document below has a toast (`deletion_reclaims`).
-/
import Zgdb.Frame
import Zgdb.Ownership

namespace Zgdb

open Zgdb.Lib AddrSpace

variable {A : Type} [BlockSpace A]

/-! ## 1. What there is to free

A deletion should make every block DEAD that belongs to the document, to a document below it, or to
one of their toasts.  That is compared with the indices of the free list afterwards. -/

/-- A document, one below it, or a toast on the list of one of them: what should be free when the
document is deleted. -/
def Holdings (file : ZgdbFile A) (d k : Nat) : Prop :=
  ∃ j, (j = d ∨ Below file d j) ∧ (k = j ∨ OnToastList file j k)

/-- A deletion of `d` frees all it holds, each index once and with the capacity of its block, and no
other index; what is ALIVE then is held by the root. -/
structure ReclaimsAll (file file' : ZgdbFile A) (d : Nat) : Prop where
  freed : ∃ ks, ks.Nodup ∧ (∀ k, k ∈ ks ↔ Holdings file d k) ∧ Reclaimed file file' ks
  account : ∀ k, Alive file' k → Holdings file' 0 k

section Store

variable {file file' : ZgdbFile A} {T : Forest Nat} {es : Nat → List StoredElement}
  {own : Nat → List Nat} {d : Nat} {ts : List Nat}

theorem Store.mem_nodes_iff (hs : Store file T es own) {k : Nat} :
    k ∈ T.nodes ↔ k = 0 ∨ Below file 0 k := by
  rw [hs.below_iff hs.root_mem]
  have hT := hs.tree_eq
  constructor
  · intro hk
    rw [hT] at hk
    simpa using hk
  · rintro (rfl | hk)
    · exact hs.root_mem
    · exact Forest.mem_nodes_of_mem_sonsOf hk

/-- A store whose account is complete is held by its root. -/
theorem Accounted.holdings (hs : Store file T es own) (hl : Listed file T own)
    (ha : Accounted file T own) {k : Nat} (hk : Alive file k) : Holdings file 0 k := by
  rcases ha k hk with hkT | ⟨j, hj, hkj⟩
  · exact ⟨k, hs.mem_nodes_iff.mp hkT, Or.inl rfl⟩
  · exact ⟨j, hs.mem_nodes_iff.mp hj, Or.inr (hl j hj k hkj)⟩

/-- What a deletion is to free, when no document below has a toast. -/
theorem Removed.holdings_iff (hs : Store file T es own) (hd : d ∈ T.nodes)
    (h : Removed file file' T es own d ts) (hn : NoToastBelow file d) {k : Nat} :
    k ∈ d :: ((T.sonsOf d).nodes ++ ts) ↔ Holdings file d k := by
  rw [List.mem_cons, List.mem_append]
  constructor
  · rintro (rfl | hk | hk)
    · exact ⟨k, Or.inl rfl, Or.inl rfl⟩
    · exact ⟨k, Or.inr ((hs.below_iff hd).mpr hk), Or.inl rfl⟩
    · exact ⟨d, Or.inl rfl, Or.inr ⟨ts, h.list, hk⟩⟩
  · rintro ⟨j, rfl | hj, rfl | hk⟩
    · exact Or.inl rfl
    · obtain ⟨us, hus, hku⟩ := hk
      exact Or.inr (Or.inr (hus.unique h.list ▸ hku))
    · exact Or.inr (Or.inl ((hs.below_iff hd).mp hj))
    · have hjT := Forest.mem_nodes_of_mem_sonsOf ((hs.below_iff hd).mp hj)
      have hko := hs.own_of_list hjT hk
      rw [hs.own_eq_nil hjT (hn j hj)] at hko
      cases hko

/-- A toast below a deleted document stays ALIVE. -/
theorem Removed.noToastBelow (hs : Store file T es own) (hd : d ∈ T.nodes)
    (h : Removed file file' T es own d ts) (hall : ReclaimsAll file file' d) :
    NoToastBelow file d := by
  intro j hj
  by_contra h0
  have hjs := (hs.below_iff hd).mp hj
  have hjT := Forest.mem_nodes_of_mem_sonsOf hjs
  -- the first toast is freed if everything is
  obtain ⟨us, hus, -, hsub⟩ := (hs.doc j hjT).list
  obtain ⟨t, us, rfl⟩ : ∃ t us', us = t :: us' := by
    cases us with
    | nil => exact absurd hus h0
    | cons t us => exact ⟨t, us, rfl⟩
  have hto : t ∈ own j := hsub t List.mem_cons_self
  obtain ⟨ks, -, hks, hr⟩ := hall.freed
  have hheld : Holdings file d t := ⟨j, Or.inr hj, Or.inr ⟨_, hus, List.mem_cons_self⟩⟩
  have hdead : (file'.indexes t).flag = .dead := by rw [hr.indexes, if_pos ((hks t).mpr hheld)]
  -- but it is on no list that is followed
  have hnot : t ∉ d :: ((T.sonsOf d).nodes ++ ts) := by
    have htT := hs.toast_notMem hjT hto
    rw [List.mem_cons, List.mem_append]
    rintro (rfl | ht | ht)
    · exact htT hd
    · exact htT (Forest.mem_nodes_of_mem_sonsOf ht)
    · refine hs.apart j hjT d hd ?_ t hto (hs.own_of_list hd ⟨ts, h.list, ht⟩)
      rintro rfl
      exact Forest.notMem_sonsOf hs.nodup hd hjs
  rw [h.reclaimed.indexes, if_neg hnot] at hdead
  have halive := ((hs.doc j hjT).texts.alive t hto).2
  rw [hdead] at halive
  cases halive

theorem init_accounted (now : UInt32) :
    Accounted (init now : ZgdbFile A) rootTree fun _ => [] := by
  intro k hk
  rw [init_alive.mp hk]
  exact Or.inl List.mem_cons_self

end Store

/-! ## 2. Runs

As soon as one toast has stayed behind, ALIVE and on no list, a later deletion can give back all
that belongs to its documents and the store has lost a block all the same.  So the runs are those in
which nothing was left behind before. -/

section Runs

variable {env : Env A} {file : ZgdbFile A} {d p : Nat}

/-- The calls that leave nothing behind: orderly ones, in which only documents are deleted that have
no toasts below them.  `deleteDocument` frees the toasts of the document itself, but not those of
the documents below it. -/
def Call.Sweeping (env : Env A) (file : ZgdbFile A) (call : Call) : Prop :=
  call.Orderly env file ∧ call.Swept file

/-- Every state of such a run is accounted for. -/
theorem Reaches.accounted (h : Reaches env (Call.Sweeping env) file) :
    ∃ T es own, Store file T es own ∧ Listed file T own ∧ Accounted file T own := by
  obtain ⟨now, calls, hrun⟩ := h
  refine hrun.inv (I := fun file => ∃ T es own, Store file T es own ∧ Listed file T own ∧
    Accounted file T own) ⟨_, _, _, init_store, init_listed now, init_accounted now⟩ ?_
  rintro f call f' ⟨T, es, own, hs, hl, ha⟩ ⟨hlegal, ⟨hclean, happ⟩, hswept⟩ he
  obtain ⟨T', es', own', hs', hl', ha'⟩ := exec_listed hs hl hlegal hclean happ he
  exact ⟨T', es', own', hs', hl', ha' hswept ha⟩

/-- **A deletion gives everything back** exactly when no document below has a toast.  The deletion
comes back in any case.  Every block of the document and of those below it is DEAD then and in the
free list with its size, as are the toasts of the document itself; the toasts of the documents below
are on lists that nobody follows. -/
theorem deletion_reclaims (h : Reaches env (Call.Sweeping env) file)
    (hlegal : (Call.delete d p).Legal file) :
    ∃ file', deleteDocument (loopBound file) file (documentAt file d p) = some file' ∧
      (ReclaimsAll file file' d ↔ NoToastBelow file d) := by
  obtain ⟨T, es, own, hs, hl, ha⟩ := h.accounted
  have hd := hs.live_iff.mp hlegal.1
  obtain ⟨file', hrun, ts, hr⟩ := exec_delete env hs hlegal
  refine ⟨file', hrun, hr.noToastBelow hs hd, fun hn => ⟨⟨_, ?_, fun k => hr.holdings_iff hs hd hn,
    hr.reclaimed⟩, ?_⟩⟩
  · -- the toasts are no documents, and the documents are nodes of a tree
    obtain ⟨us, hus, hnd, -⟩ := (hs.doc d hd).list
    obtain rfl := hus.unique hr.list
    have hout : ∀ t ∈ us, t ∉ T.nodes := fun t ht =>
      hs.toast_notMem hd (hs.own_of_list hd ⟨us, hus, ht⟩)
    rw [List.nodup_cons, List.mem_append, List.nodup_append]
    refine ⟨?_, Forest.nodup_sonsOf hs.nodup, hnd, ?_⟩
    · rintro (hds | hdt)
      · exact Forest.notMem_sonsOf hs.nodup hd hds
      · exact hout d hdt hd
    · rintro k hk t ht rfl
      exact hout k ht (Forest.mem_nodes_of_mem_sonsOf hk)
  · intro k hk
    exact (hr.accounted hs hl hd hn ha).holdings hr.store (hr.listed hs hl) hk

end Runs

/-! ## 3. A document with a toast below

The smallest case: a document without texts, one with a text below it, and the upper one is deleted.
-/

/-- A document without texts, and one with a text below it. -/
theorem create_below (env : Env A) : ∃ file n q,
    Reaches env (Call.Sweeping env) file ∧ (Call.delete n 0).Legal file ∧ Below file n q ∧
      (getDocumentHeader file q).firstToastIndex ≠ 0 := by
  obtain ⟨file1, n, es, own, hl1, hclean1, hexec1, hn0, -, -, hnext⟩ := create_two env
  obtain ⟨hl2, hclean2, file2, q, own2, hexec2, hi, hend⟩ :=
    hnext n keyB oneText (by simp) oneText_built (by decide)
  obtain ⟨t, rfl, -⟩ := hend.text (by decide)
  have hs := hi.store
  have htree : (onlySon n).insertUnder n q = .cons 0 (.cons n (.cons q .nil .nil) .nil) .nil := by
    simp [Forest.insertUnder, Ne.symm hn0]
  have hlive : ∀ k, k = 0 ∨ k = n → Live file2 k := fun k hk =>
    hs.live_iff.mpr (by rcases hk with rfl | rfl <;> simp [htree])
  have hn2 : n ∈ ((onlySon n).insertUnder n q).nodes := by simp [htree]
  have hroot2 : 0 ∈ ((onlySon n).insertUnder n q).nodes := by simp [htree]
  refine ⟨file2, n, q, ((Reaches.new 0).snoc hl1 ⟨⟨hclean1, trivial⟩, trivial⟩ hexec1).snoc hl2
    ⟨⟨hclean2, trivial⟩, trivial⟩ hexec2, ⟨hlive n (Or.inr rfl), hn0, hlive 0 (Or.inl rfl),
    (hs.sonOf_iff hroot2).mpr ?_⟩, (hs.below_iff hn2).mpr ?_, ?_⟩
  · simp [htree, Forest.sonsOf]
  · simp [htree, Forest.sonsOf, Ne.symm hn0]
  · obtain ⟨hfirst, h0, -⟩ := hi.list
    rw [hfirst]
    exact h0

/-- The text of the document below is lost with its toast, which stays ALIVE. -/
theorem toast_leaked : ∃ (file file' : ZgdbFile RecordPos) (n : Nat),
    Reaches recordEnv (Call.Sweeping recordEnv) file ∧ (Call.delete n 0).Legal file ∧
      deleteDocument (loopBound file) file (documentAt file n 0) = some file' ∧
      ¬ ReclaimsAll file file' n := by
  obtain ⟨file, n, q, hreach, hlegal, hbelow, hne⟩ := create_below recordEnv
  obtain ⟨T, es, own, hs, -⟩ := hreach.accounted
  obtain ⟨file', hrun, ts, hr⟩ : ∃ file', (Call.delete n 0).exec recordEnv file = some file' ∧ _ :=
    exec_delete _ hs hlegal
  exact ⟨file, file', n, hreach, hlegal, hrun, fun hall =>
    hne (hr.noToastBelow hs (hs.live_iff.mp hlegal.1) hall q hbelow)⟩

/-- A document with a text is deleted. -/
theorem deletion_reclaims_first : ∃ (file file' : ZgdbFile Nat) (n : Nat),
    deleteDocument (loopBound file) file (documentAt file n 0) = some file' ∧
      ReclaimsAll file file' n := by
  obtain ⟨hclean, file, n, own', hrun, hi, -⟩ :=
    create_first flatEnv 0 keyA oneText_built (by decide)
  have hs := hi.store
  have hn0 : n ≠ 0 := fun h0 => hi.fresh (h0 ▸ List.mem_cons_self)
  have htree : rootTree.insertUnder 0 n = .cons 0 (.cons n .nil .nil) .nil := by
    simp [Forest.insertUnder]
  have hl : (Call.create 0 0 keyA oneText).Legal (init 0 : ZgdbFile Nat) :=
    ⟨live_init 0, oneText_built, by decide⟩
  have hreach : Reaches flatEnv (Call.Sweeping flatEnv) file :=
    (Reaches.new 0).snoc hl ⟨⟨hclean, trivial⟩, trivial⟩ (by rw [Call.exec, hrun]; rfl)
  have hn : n ∈ (rootTree.insertUnder 0 n).nodes := by simp [htree]
  have hroot : 0 ∈ (rootTree.insertUnder 0 n).nodes := by simp [htree]
  have hdel : (Call.delete n 0).Legal file :=
    ⟨hs.live_iff.mpr hn, hn0, hs.live_iff.mpr hroot,
      (hs.sonOf_iff hroot).mpr (by simp [htree, Forest.sonsOf])⟩
  obtain ⟨file', hrun', hiff⟩ := deletion_reclaims hreach hdel
  refine ⟨file, file', n, hrun', hiff.mpr ?_⟩
  intro k hk
  rw [hs.below_iff hn] at hk
  simp [htree, Forest.sonsOf, Ne.symm hn0] at hk

end Zgdb
