/-
# Where a new leaf shows

A new leaf in front of the sons of `p` (`Forest.insertUnder`) shows below `p` and below what `p` is
below, and nowhere else: the sons of `p` are the old ones behind the new leaf, the sons of any other
node are the old ones with the leaf inserted below them, and whatever was visited is still visited.
The first descent stays what it was unless `p` is one of the roots.
-/
import Zgdb.Lib.Renaming

namespace Zgdb.Lib.Forest

variable {α : Type} [DecidableEq α] {F : Forest α} {p x q r k : α}

/-! ## 1. Nested forests

Where a node of a forest lies: in the first tree, or among the brothers; below a node, or beside it.
-/

section Sons

variable {a : α} {s b : Forest α}

theorem sonsOf_root : (cons a s b).sonsOf a = s := if_pos rfl

theorem sonsOf_inner (ha : a ≠ q) (hq : q ∈ s.nodes) : (cons a s b).sonsOf q = s.sonsOf q := by
  rw [sonsOf, if_neg ha, if_pos hq]

theorem sonsOf_outer (ha : a ≠ q) (hq : q ∉ s.nodes) : (cons a s b).sonsOf q = b.sonsOf q := by
  rw [sonsOf, if_neg ha, if_neg hq]

/-- A node is the root, below it, or behind it. -/
theorem mem_cons_cases (hq : q ∈ (cons a s b).nodes) :
    a = q ∨ a ≠ q ∧ q ∈ s.nodes ∨ a ≠ q ∧ q ∉ s.nodes ∧ q ∈ b.nodes := by
  by_cases ha : a = q
  · exact .inl ha
  · by_cases hs : q ∈ s.nodes
    · exact .inr (.inl ⟨ha, hs⟩)
    · have hsb := (List.mem_cons.mp hq).resolve_left (Ne.symm ha)
      exact .inr (.inr ⟨ha, hs, (List.mem_append.mp hsb).resolve_left hs⟩)

end Sons

/-- **The sons of a node below another one** are its sons. -/
theorem sonsOf_sonsOf (hn : F.nodes.Nodup) (hq : q ∈ F.nodes) (hr : r ∈ (F.sonsOf q).nodes) :
    (F.sonsOf q).sonsOf r = F.sonsOf r := by
  induction F with
  | nil => cases hr
  | cons a s b ihs ihb =>
    obtain ⟨has, hab, hsn, hbn, hsb⟩ := nodup_cons hn
    rcases mem_cons_cases hq with rfl | ⟨haq, hqs⟩ | ⟨haq, hqs, hqb⟩
    · rw [sonsOf_root] at hr ⊢
      have har : a ≠ r := fun h => has (h ▸ hr)
      rw [sonsOf_inner har hr]
    · rw [sonsOf_inner haq hqs] at hr ⊢
      have hrs := mem_nodes_of_mem_sonsOf hr
      have har : a ≠ r := fun h => has (h ▸ hrs)
      rw [sonsOf_inner har hrs, ihs hsn hqs hr]
    · rw [sonsOf_outer haq hqs] at hr ⊢
      have hrb := mem_nodes_of_mem_sonsOf hr
      have har : a ≠ r := fun h => hab (h ▸ hrb)
      rw [sonsOf_outer har (fun h => hsb r h hrb), ihb hbn hqb hr]

/-- Below is transitive. -/
theorem mem_sonsOf_trans (hn : F.nodes.Nodup) (hq : q ∈ F.nodes) (hr : r ∈ (F.sonsOf q).nodes)
    (hk : k ∈ (F.sonsOf r).nodes) : k ∈ (F.sonsOf q).nodes := by
  rw [← sonsOf_sonsOf hn hq hr] at hk
  exact mem_nodes_of_mem_sonsOf hk

/-- No root is below a node. -/
theorem notMem_roots_of_mem_sonsOf (hn : F.nodes.Nodup) (hr : r ∈ F.nodes)
    (hk : k ∈ (F.sonsOf r).nodes) : k ∉ F.roots := by
  induction F with
  | nil => cases hr
  | cons a s b ihs ihb =>
    obtain ⟨has, hab, hsn, hbn, hsb⟩ := nodup_cons hn
    rw [roots_cons, List.mem_cons, not_or]
    rcases mem_cons_cases hr with rfl | ⟨har, hrs⟩ | ⟨har, hrs, hrb⟩
    · rw [sonsOf_root] at hk
      exact ⟨fun h => has (h ▸ hk), fun h => hsb k hk (mem_nodes_of_mem_roots h)⟩
    · rw [sonsOf_inner har hrs] at hk
      have hks := mem_nodes_of_mem_sonsOf hk
      exact ⟨fun h => has (h ▸ hks), fun h => hsb k hks (mem_nodes_of_mem_roots h)⟩
    · rw [sonsOf_outer har hrs] at hk
      have hkb := mem_nodes_of_mem_sonsOf hk
      exact ⟨fun h => hab (h ▸ hkb), ihb hbn hrb hk⟩

omit [DecidableEq α] in
/-- The first descent leaves the roots. -/
theorem notMem_roots_of_firstBelow (hn : F.nodes.Nodup) {e : α × α} (he : F.firstBelow = some e) :
    e.1 ∉ F.roots := by
  induction F with
  | nil => cases he
  | cons a s b _ ihb =>
    obtain ⟨has, hab, hsn, hbn, hsb⟩ := nodup_cons hn
    rw [roots_cons, List.mem_cons, not_or]
    rw [firstBelow] at he
    cases hb : b.firstBelow with
    | some e' =>
      rw [hb] at he
      obtain rfl := Option.some.inj he
      exact ⟨fun h => hab (h ▸ (mem_of_firstBelow hb).1), ihb hbn hb⟩
    | none =>
      rw [hb] at he
      obtain ⟨k, hk, rfl⟩ := Option.map_eq_some_iff.mp he
      have hks := mem_nodes_of_mem_roots (List.mem_of_mem_head? hk)
      exact ⟨fun h => has (h ▸ hks), fun h => hsb k hks (mem_nodes_of_mem_roots h)⟩

/-! ## 2. Insertion

One rule for each question that is asked of the forest after the insertion: its roots, its visits,
and the sons of a node. -/

@[simp] theorem roots_insertUnder (F : Forest α) (p x : α) :
    (F.insertUnder p x).roots = F.roots := by
  induction F with
  | nil => rfl
  | cons a s b _ ihb =>
    rw [insertUnder]
    split <;> simp [ihb]

/-- The first descent is the same when `p` is no root. -/
theorem firstBelow_insertUnder (hp : p ∉ F.roots) :
    (F.insertUnder p x).firstBelow = F.firstBelow := by
  induction F with
  | nil => rfl
  | cons a s b _ ihb =>
    rw [roots_cons, List.mem_cons, not_or] at hp
    rw [insertUnder, if_neg (Ne.symm hp.1), firstBelow, firstBelow, ihb hp.2, roots_insertUnder]

/-- **What was visited is visited.** -/
theorem visit_insertUnder (q : α) (d : Nat) {e : α × α × Nat} (he : e ∈ F.visit q d) :
    e ∈ (F.insertUnder p x).visit q d := by
  induction F generalizing q d with
  | nil => cases he
  | cons a s b ihs ihb =>
    rw [visit, List.mem_cons, List.mem_append] at he
    rw [insertUnder]
    split
    · rw [visit, visit, List.mem_cons, List.mem_append, List.mem_cons, List.mem_append]
      exact he.imp_right fun h => h.imp_right fun h => .inr (.inl h)
    · rw [visit, List.mem_cons, List.mem_append]
      exact he.imp_right fun h => h.imp (ihb q d) (ihs a (d + 1))

/-- **The sons of `p`** are the old ones behind the new leaf. -/
theorem sonsOf_insertUnder_self (hn : F.nodes.Nodup) (hp : p ∈ F.nodes) :
    (F.insertUnder p x).sonsOf p = cons x nil (F.sonsOf p) := by
  induction F with
  | nil => cases hp
  | cons a s b ihs ihb =>
    obtain ⟨has, hab, hsn, hbn, hsb⟩ := nodup_cons hn
    rw [insertUnder]
    rcases mem_cons_cases hp with rfl | ⟨hap, hps⟩ | ⟨hap, hps, hpb⟩
    · rw [if_pos rfl, sonsOf_root, sonsOf_root]
    · have hps' : p ∈ (s.insertUnder p x).nodes := (mem_nodes_insertUnder hsn hps).mpr (.inr hps)
      rw [if_neg hap, sonsOf_inner hap hps', sonsOf_inner hap hps, ihs hsn hps]
    · rw [if_neg hap, insertUnder_of_notMem hps, sonsOf_outer hap hps, sonsOf_outer hap hps,
        ihb hbn hpb]

/-- **The sons of another node** are the old ones with the leaf inserted. -/
theorem sonsOf_insertUnder_of_ne (hn : F.nodes.Nodup) (hx : x ∉ F.nodes) (hqp : q ≠ p)
    (hq : q ∈ F.nodes) : (F.insertUnder p x).sonsOf q = (F.sonsOf q).insertUnder p x := by
  induction F with
  | nil => cases hq
  | cons a s b ihs ihb =>
    obtain ⟨has, hab, hsn, hbn, hsb⟩ := nodup_cons hn
    have hqx : q ≠ x := fun h => hx (h ▸ hq)
    simp only [nodes_cons, List.mem_cons, List.mem_append, not_or] at hx
    have hmem : q ∈ (s.insertUnder p x).nodes ↔ q ∈ s.nodes := by
      by_cases hps : p ∈ s.nodes
      · rw [mem_nodes_insertUnder hsn hps, or_iff_right hqx]
      · rw [insertUnder_of_notMem hps]
    rw [insertUnder]
    by_cases hap : a = p
    · -- the leaf goes in front of the sons of the root, where `q` is not looked for
      subst hap
      have hs : ∀ G : Forest α, a ∉ G.nodes → (G.sonsOf q).insertUnder a x = G.sonsOf q :=
        fun G hG => insertUnder_of_notMem fun h => hG (mem_nodes_of_mem_sonsOf h)
      rw [if_pos rfl]
      rcases mem_cons_cases hq with haq | ⟨haq, hqs⟩ | ⟨haq, hqs, -⟩
      · exact absurd haq.symm hqp
      · have hqs' : q ∈ (cons x nil s).nodes := List.mem_cons_of_mem _ hqs
        rw [sonsOf_inner haq hqs', sonsOf_outer (Ne.symm hqx) (by simp), sonsOf_inner haq hqs,
          hs s has]
      · have hqs' : q ∉ (cons x nil s).nodes := by simp [hqx, hqs]
        rw [sonsOf_outer haq hqs', sonsOf_outer haq hqs, hs b hab]
    · rw [if_neg hap]
      rcases mem_cons_cases hq with rfl | ⟨haq, hqs⟩ | ⟨haq, hqs, hqb⟩
      · rw [sonsOf_root, sonsOf_root]
      · rw [sonsOf_inner haq (hmem.mpr hqs), sonsOf_inner haq hqs, ihs hsn hx.2.1 hqs]
      · rw [sonsOf_outer haq (fun h => hqs (hmem.mp h)), sonsOf_outer haq hqs,
          ihb hbn hx.2.2 hqb]

end Zgdb.Lib.Forest
