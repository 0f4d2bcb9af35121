/-
# The store after a deletion of the root

A deletion of the root leaves a store whose links are in order exactly when the root had at most one
son (`root_deletion`).  With more sons the first one is freed and stays linked
(`root_link_dangles`).
-/
import Zgdb.Tree

namespace Zgdb

open Zgdb.Lib AddrSpace

/-! ## 1. A store whose links are in order

When links lead to DEAD indices there is no tree to speak of.  `LinksSound` says what can still be
asked of a store then: that what is linked is ALIVE and counted, and that clean creations can
follow. -/

section Linked

variable {A : Type} [BlockSpace A]

/-- `k` is reached from the root over son and brother links. -/
def Linked (file : ZgdbFile A) (k : Nat) : Prop :=
  Relation.ReflTransGen (fun j k => sonOf file j = some k ∨ brotherOf file j = some k) 0 k

/-- A creation. -/
def Call.IsCreate : Call → Prop
  | create .. => True
  | _ => False

/-- The links lead to ALIVE indices, the header counts what is linked, and later creations give a
finite tree, as long as they are clean: a creation that is not can break any store.  This is what a
store still has to offer when its links do not encode a tree any more. -/
structure LinksSound (env : Env A) (file : ZgdbFile A) : Prop where
  alive : ∀ k, Linked file k → Alive file k
  count : ∃ l : List Nat, l.Nodup ∧ (∀ k, k ∈ l ↔ Linked file k) ∧ file.header.nodes = l.length
  later : ∀ calls file', Run (Call.exec env)
    (fun file call => call.Legal file ∧ call.IsCreate ∧ call.Clean env file) file calls file' →
      ∃ T, Encodes file' T

variable {env : Env A} {file file' : ZgdbFile A} {T : Forest Nat} {es : Nat → List StoredElement}
  {own : Nat → List Nat}

/-- A son is linked behind its parent. -/
theorem Linked.son {p d : Nat} (hp : Linked file p) (h : SonOf file p d) : Linked file d := by
  induction h with
  | first hd => exact hp.tail (Or.inl hd)
  | next _ he ih => exact ih.tail (Or.inr he)

/-- **What is linked are the nodes of the tree.** -/
theorem Store.linked_iff (hs : Store file T es own) {k : Nat} : Linked file k ↔ k ∈ T.nodes := by
  constructor
  · intro hk
    induction hk with
    | refl => exact hs.root_mem
    | tail _ hl ih => exact hs.links.mem_of_link ih hl
  · intro hk
    obtain ⟨r, hr, hrk⟩ := hs.links.descends hk
    have hr0 : r = 0 := by
      rw [hs.tree_eq] at hr
      simpa using hr
    subst hr0
    clear hk
    induction hrk with
    | refl => exact .refl
    | tail _ hson ih => exact ih.son hson

/-! ## 2. The root with at most one son

A son without a brother is unlinked, and the root has no sons.  With several sons the last one is
taken out of the list, and what is freed hangs at the link of the root to the first one. -/

variable (env) in
/-- **The links of a sound store are in order.** -/
theorem Store.linksSound (hs : Store file T es own) : LinksSound env file where
  alive k hk := hs.alive (hs.linked_iff.mp hk)
  count := ⟨T.nodes, hs.nodup, fun _ => hs.linked_iff.symm, hs.nodes⟩
  later calls file' hrun := by
    have hsound : Sound file' := hrun.inv ⟨T, es, own, hs⟩ fun f call f' hf hcall he =>
      exec_sound hf hcall.1 hcall.2.2 he
    obtain ⟨T', es', own', hs'⟩ := hsound
    exact ⟨T', hs'.encodes⟩

/-- A root that has a son with a brother has several sons. -/
theorem Store.root_several (hs : Store file T es own) (h : ¬ Call.deleteRoot.Clean env file) :
    ∃ c mid d, (T.sonsOf 0).roots = c :: (mid ++ [d]) := by
  have hsons := hs.links.sonsOf hs.root_mem
  rcases chain_cases (T.sonsOf 0).roots with hr | ⟨d, hr⟩ | h'
  · refine absurd ?_ h
    intro d hd
    have hent := hsons.entry
    rw [hr, hd] at hent
    cases hent
  · refine absurd ?_ h
    intro e he
    cases hF : T.sonsOf 0 with
    | nil =>
      rw [hF] at hr
      cases hr
    | cons a s b =>
      rw [hF] at hsons hr
      obtain ⟨ha, -, hb⟩ := hsons
      rw [Forest.roots_cons, List.cons.injEq] at hr
      obtain rfl := Option.some.inj (he.symm.trans ha)
      have hent := hb.entry
      rw [hr.2] at hent
      exact hent
  · exact h'

variable (env) in
/-- A root with several sons keeps its link to the first, which is freed. -/
theorem Store.not_linksSound (hs : Store file T es own) {c d : Nat} {mid : List Nat}
    (hr : (T.sonsOf 0).roots = c :: (mid ++ [d])) :
    ∃ file', deleteDocument (loopBound file) file (documentAt file 0 0) = some file' ∧
      sonOf file' 0 = some c ∧ Dead file' c ∧ ¬ LinksSound env file' := by
  obtain ⟨file', hrun, hson, hdead⟩ := deleteRoot_many hs (Nat.lt_succ_self _) hr
  refine ⟨file', hrun, hson, hdead, ?_⟩
  intro h
  have halive := h.alive c (.tail .refl (Or.inl hson))
  have hflag := halive.2.symm.trans hdead.2
  cases hflag

/-- **A deletion of the root** leaves the links in order exactly when the first son, if there is
one, has no brother.  It comes back in any state of a clean run, whatever the root has below it.  In
order means that what is linked is ALIVE and counted, and that clean creations can follow
(`LinksSound`). -/
theorem root_deletion (h : Reaches env (Call.Clean env) file) :
    ∃ file', deleteDocument (loopBound file) file (documentAt file 0 0) = some file' ∧
      (LinksSound env file' ↔ ∀ d, sonOf file 0 = some d → brotherOf file d = none) := by
  obtain ⟨T, es, own, hs⟩ := h.sound fun _ _ _ hc => hc
  by_cases hone : Call.deleteRoot.Clean env file
  · obtain ⟨file', hrun, h⟩ := exec_deleteRoot hs hone
    refine ⟨file', hrun, fun _ => hone, ?_⟩
    intro _
    rcases h with ⟨rfl, -⟩ | ⟨h, -⟩
    · exact hs.linksSound env
    · exact h.linksSound env
  · obtain ⟨c, mid, d, hr⟩ := hs.root_several hone
    obtain ⟨file', hrun, -, -, hnot⟩ := hs.not_linksSound env hr
    exact ⟨file', hrun, fun h => absurd h hnot, fun h => absurd h hone⟩

end Linked

section Records

/-- The root has a son that has a son; it is deleted, and a document is created again. -/
theorem root_deletion_nested : ∃ (file file' file'' : ZgdbFile RecordPos) (n q : Nat),
    Reaches recordEnv (Call.Clean recordEnv) file ∧ Encodes file (nested n q) ∧
      deleteDocument (loopBound file) file (documentAt file 0 0) = some file' ∧
      Dead file' n ∧ Dead file' q ∧
      (Call.create 0 0 keyB (initSchema 0)).exec recordEnv file' = some file'' ∧
      ∃ T, Encodes file'' T := by
  obtain ⟨file, n, q, h, -, -⟩ := planted_nested recordEnv
  obtain ⟨es, own, hs⟩ := h.store
  have hone : Call.deleteRoot.Clean recordEnv file := by
    intro d hd
    have hlinks := hs.links
    obtain ⟨-, ⟨hson, -, hbrother⟩, -⟩ := hlinks
    obtain rfl := Option.some.inj (hson.symm.trans hd)
    exact hbrother
  obtain ⟨file', hrun, hiff⟩ := root_deletion h.reach
  obtain ⟨-, hT⟩ | ⟨hs', -, hr⟩ : file' = file ∧ nested n q = rootTree ∨
      Store file' rootTree es own ∧ _ ∧ Reclaimed file file' ((nested n q).sonsOf 0).nodes := by
    obtain ⟨file1, hrun1, h1⟩ := exec_deleteRoot hs hone
    obtain rfl := Option.some.inj (hrun1.symm.trans hrun)
    exact h1
  · simp at hT
  have hdead : ∀ k, k = n ∨ k = q → Dead file' k := by
    intro k hk
    have hmem : k ∈ (nested n q).nodes := by
      rcases hk with rfl | rfl <;> simp
    refine ⟨?_, ?_⟩
    · rw [hr.header]
      exact (hs.alive hmem).1
    · rw [hr.indexes, if_pos (by simpa [Forest.sonsOf] using hk)]
  -- the free list has as many NEW nodes as before, and two DEAD ones
  have hroom : file.freeList.newIndexesCount ≤ file'.freeList.newIndexesCount := by
    rw [hs.blocks.placed.sound.newIndexes, hs'.blocks.placed.sound.newIndexes,
      hr.freeList.countP_eq, List.countP_append]
    exact Nat.le_add_left _ _
  have hexp : needsExpansion file' = false := by
    have hmany := h.room
    have hnew : indexInitialCapacity - 1 = 49999 := rfl
    have heighth : indexInitialCapacity / 8 = 6250 := rfl
    simp only [needsExpansion, decide_eq_false_iff_not]
    omega
  obtain ⟨hl, hclean, file'', hexec⟩ :
      _ ∧ (Call.create 0 0 keyB (initSchema 0)).Clean recordEnv file' ∧ _ :=
    hs'.createPlain hexp List.mem_cons_self keyB noElements_built rfl rfl
  refine ⟨file, file', file'', n, q, h.reach, hs.encodes, hrun, hdead n (.inl rfl),
    hdead q (.inr rfl), hexec, (hiff.mpr hone).later [.create 0 0 keyB (initSchema 0)] file'' ?_⟩
  exact Run.snoc (.nil _) ⟨hl, trivial, hclean⟩ hexec

/-- Two documents under the root, and the root deleted. -/
theorem root_link_dangles : ∃ file file' : ZgdbFile RecordPos,
    Reaches recordEnv (Call.Clean recordEnv) file ∧
      deleteDocument (loopBound file) file (documentAt file 0 0) = some file' ∧
      ¬ LinksSound recordEnv file' := by
  obtain ⟨file1, n, es, own, hl1, hclean1, hexec1, -, -, -, hnext⟩ := create_two recordEnv
  obtain ⟨hl2, hclean2, file2, q, own2, hexec2, hi, -⟩ :=
    hnext 0 keyB (initSchema 0) (by simp) noElements_built rfl
  have hreach : Reaches recordEnv (Call.Clean recordEnv) file2 :=
    ((Reaches.new 0).snoc hl1 hclean1 hexec1).snoc hl2 hclean2 hexec2
  have htree : (onlySon n).insertUnder 0 q = .cons 0 (.cons q .nil (.cons n .nil .nil)) .nil := by
    simp [Forest.insertUnder]
  have hr : (((onlySon n).insertUnder 0 q).sonsOf 0).roots = q :: ([] ++ [n]) := by
    simp [htree, Forest.sonsOf]
  obtain ⟨file', hrun, -, -, hnot⟩ := hi.store.not_linksSound recordEnv hr
  exact ⟨file2, file', hreach, hrun, hnot⟩

end Records

end Zgdb
