/-
# The store refines an ordered tree

The links of the document headers, seen from index 0, encode a finite ordered tree of the live
documents (`Encodes`).  In every run of creations and deletions over records, a creation inserts a
new leaf in front of the sons of its parent, a deletion removes a document with its subtree, and
what the other documents say stays as it was.
-/
import Zgdb.First

namespace Zgdb

open Zgdb.Lib AddrSpace

section Encode

variable {A : Type} [BlockSpace A]

/-- The links encode the tree `T`: its root is index 0, its nodes are the live documents, each of
them once, and the header counts them.  This is what a client means by the contents of a store: a
finite ordered tree in which every document is reached from the root in one way only. -/
structure Encodes (file : ZgdbFile A) (T : Forest Nat) : Prop where
  root : T.roots = [0]
  links : T.Represents (sonOf file) (brotherOf file) (some 0)
  nodup : T.nodes.Nodup
  live : ∀ k, k ∈ T.nodes ↔ Live file k
  count : file.header.nodes = T.nodes.length

/-- The documents of `T` keep their names and their elements: all that a reader can see of them but
for their place in the tree. -/
def Untouched (file file' : ZgdbFile A) (T : Forest Nat) : Prop :=
  ∀ k ∈ T.nodes, (getDocumentHeader file' k).name = (getDocumentHeader file k).name ∧
    entries file' k = entries file k

variable {file file' : ZgdbFile A} {T : Forest Nat} {es : Nat → List StoredElement}
  {own : Nat → List Nat}

theorem Store.encodes (hs : Store file T es own) : Encodes file T where
  root := by rw [hs.tree_eq]; rfl
  links := hs.links
  nodup := hs.nodup
  live _ := hs.live_iff.symm
  count := hs.nodes

theorem Carried.untouched (h : Carried T own file file') {U : Forest Nat} (hs : Store file U es own)
    (hsub : ∀ k ∈ T.nodes, k ∈ U.nodes) : Untouched file file' T := by
  intro k hk
  refine ⟨h.name hk, ?_⟩
  exact (hs.doc k (hsub k hk)).entries_frame (h k hk).1 (hs.attached (hsub k hk))
    (fun t ht => ((h k hk).2 t ht).1) fun t ht => ((h k hk).2 t ht).2

end Encode

section Records

variable {env : Env RecordPos} {file : ZgdbFile RecordPos}

/-- Over records every structural call is clean. -/
theorem Call.Structural.clean {call : Call} (hexp : Expands env.expandIndexes) (hs : Sound file)
    (h : call.Structural) : call.Clean env file := by
  cases call with
  | create now p name schema =>
    obtain ⟨file1, he, hr, -⟩ := hs.room hexp
    intro file2 he2
    obtain rfl := Option.some.inj (he.symm.trans he2)
    exact ⟨hr, fun _ => noSpill_record _ _⟩
  | delete d p => trivial
  | deleteRoot => cases h
  | update k key input => cases h

/-- A run of structural calls is sound. -/
theorem Reaches.structural_sound (hexp : Expands env.expandIndexes)
    (h : Reaches env (fun _ call => call.Structural) file) : Sound file :=
  h.sound fun _ _ hs hc => hc.clean hexp hs

/-- **Creations and deletions refine the insertion of a leaf and the removal of a subtree.** In
every state of a run of such calls the links encode a finite ordered tree.  A legal creation returns
and puts a new document in front of the sons of its parent; a legal deletion returns and takes the
subtree of the document away; the documents that are left keep what they say.  The blocks are
records here, and the expansion is any that does what its callers rely on. -/
theorem structural_refines_tree (hexp : Expands env.expandIndexes)
    (h : Reaches env (fun _ call => call.Structural) file) :
    ∃ T, Encodes file T ∧
      (∀ now p name schema, (Call.create now p name schema).Legal file →
        ∃ n file', createDocument env.expandIndexes now file name schema (documentAt file p 0)
            = some (.createOk, file') ∧
          p ∈ T.nodes ∧ n ∉ T.nodes ∧ Encodes file' (T.insertUnder p n) ∧
          (getDocumentHeader file' n).name = name ∧ Untouched file file' T) ∧
      ∀ d p, (Call.delete d p).Legal file →
        ∃ file', deleteDocument (loopBound file) file (documentAt file d p) = some file' ∧
          d ∈ T.nodes ∧ Encodes file' (T.remove d) ∧ Untouched file file' (T.remove d) := by
  have hsound := h.structural_sound hexp
  obtain ⟨T, es, own, hs⟩ := id hsound
  refine ⟨T, hs.encodes, ?_, ?_⟩
  · intro now p name schema hl
    obtain ⟨file', hrun⟩ := exec_create_isSome hsound hexp hl
    have hc : (Call.create now p name schema).Structural := trivial
    have he : (Call.create now p name schema).exec env file = some file' := by
      rw [Call.exec, hrun]
      rfl
    obtain ⟨n, own', hi, -⟩ := exec_create hs hl (hc.clean hexp hsound) he
    exact ⟨n, file', hrun, hs.live_iff.mp hl.1, hi.fresh, hi.store.encodes, hi.name,
      hi.carried.untouched hs fun _ hk => hk⟩
  · intro d p hl
    obtain ⟨file', hrun, ts, hr⟩ : ∃ file', (Call.delete d p).exec env file = some file' ∧ _ :=
      exec_delete _ hs hl
    have hd := hs.live_iff.mp hl.1
    exact ⟨file', hrun, hd, hr.store.encodes, hr.carried.untouched hs fun k hk =>
      ((Forest.mem_nodes_remove hs.nodup hd).mp hk).1⟩

/-- Records that are expanded as they should be. -/
def recordEnv : Env RecordPos := ⟨expandRecords, fun _ => ⟨0, true, 0, false⟩⟩

/-- A run of several calls: of a root with two sons, the second with a son, that second one is
deleted with its son. -/
theorem structural_refines_tree_family : ∃ (file file' : ZgdbFile RecordPos) (n q r : Nat),
    Reaches recordEnv (fun _ call => call.Structural) file ∧ Encodes file (family n q r) ∧
      deleteDocument (loopBound file) file (documentAt file n 0) = some file' ∧
      Encodes file' (.cons 0 (.cons r .nil .nil) .nil) := by
  obtain ⟨file, n, q, r, es, own, hreach, hs⟩ := create_family recordEnv
  have hreach' : Reaches recordEnv (fun _ call => call.Structural) file :=
    hreach.mono fun _ _ hc => hc.2.1
  have hexp : Expands recordEnv.expandIndexes := expands_records
  have hnodup : (0 :: ([r] ++ ([n] ++ [q]))).Nodup := hs.nodup
  simp only [List.cons_append, List.nil_append, List.nodup_cons, List.mem_cons] at hnodup
  have hlive : ∀ k, k ∈ (family n q r).nodes → Live file k := fun k hk => hs.live_iff.mpr hk
  have hlegal : (Call.delete n 0).Legal file := by
    refine ⟨hlive n (by simp), fun h0 => hnodup.1 (by simp [h0]), hlive 0 (by simp), ?_⟩
    exact (hs.sonOf_iff hs.root_mem).mpr (by simp [Forest.sonsOf])
  obtain ⟨T, hT, -, hdelete⟩ := structural_refines_tree hexp hreach'
  obtain rfl : T = family n q r := hT.links.unique hs.links
  obtain ⟨file', hrun, -, hT', -⟩ := hdelete n 0 hlegal
  have htree : (family n q r).remove n = .cons 0 (.cons r .nil .nil) .nil := by
    have h0 : 0 ≠ n := fun h0 => hnodup.1 (by simp [h0])
    have hr : r ≠ n := fun hr => hnodup.2.1 (by simp [hr])
    simp [Forest.remove, h0, hr]
  exact ⟨file, file', n, q, r, hreach', hT, hrun, htree ▸ hT'⟩

end Records

end Zgdb
