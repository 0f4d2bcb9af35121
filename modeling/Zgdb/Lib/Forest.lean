/-
# Ordered forests in first-child / next-sibling links

A `Forest` is a finite ordered forest: a first tree, given by its root and the forest of that
root's sons, followed by the forest of the root's brothers.  `Represents` says that two link
functions `son` and `brother`, read from one entry link, encode exactly that forest.

The module gives the two edits a tree store makes -- a new leaf in front of the sons of a node
(`insertUnder`), the removal of a node with everything below it (`remove`) -- and for each the
rule that carries `Represents` across the corresponding change of links, plus the traversal that
follows brothers first and keeps the sons on a stack (`visit`).

The one fact that makes the edit rules local is `Represents.mem_of_link`: a link of a node of the
forest leads to nothing or to a node of the forest.
-/
import Mathlib.Data.List.Basic
import Mathlib.Data.List.Nodup
import Mathlib.Logic.Relation

namespace Zgdb.Lib

/-- A finite ordered forest. -/
inductive Forest (α : Type) where
  | nil : Forest α
  | cons (a : α) (sons brothers : Forest α) : Forest α
deriving DecidableEq, Repr

namespace Forest

variable {α : Type}

/-! ## 1. Nodes, roots, sons

The edits are defined on the tree itself, without links: what they do to the nodes is a permutation,
so that membership and distinctness follow from the rules for lists. -/

/-- Every node once, a root before its sons and these before its brothers. -/
def nodes : Forest α → List α
  | nil => []
  | cons a s b => a :: (s.nodes ++ b.nodes)

/-- The roots, in order: one sibling chain. -/
def roots : Forest α → List α
  | nil => []
  | cons a _ b => a :: b.roots

@[simp] theorem nodes_nil : (nil : Forest α).nodes = [] := rfl
@[simp] theorem nodes_cons (a : α) (s b : Forest α) :
    (cons a s b).nodes = a :: (s.nodes ++ b.nodes) := rfl
@[simp] theorem roots_nil : (nil : Forest α).roots = [] := rfl
@[simp] theorem roots_cons (a : α) (s b : Forest α) : (cons a s b).roots = a :: b.roots := rfl

theorem mem_nodes_of_mem_roots {x : α} : ∀ {F : Forest α}, x ∈ F.roots → x ∈ F.nodes
  | cons a s b, h => by
    rcases List.mem_cons.mp h with rfl | h
    · exact List.mem_cons_self
    · exact List.mem_cons_of_mem _ (List.mem_append_right _ (mem_nodes_of_mem_roots h))

theorem roots_sublist : ∀ F : Forest α, F.roots.Sublist F.nodes
  | nil => .slnil
  | cons _ s b => ((roots_sublist b).trans (List.sublist_append_right s.nodes b.nodes)).cons_cons _

theorem nodup_roots {F : Forest α} (h : F.nodes.Nodup) : F.roots.Nodup :=
    h.sublist (roots_sublist F)

theorem length_roots_le (F : Forest α) : F.roots.length ≤ F.nodes.length :=
  (roots_sublist F).length_le

/-- The parts of a duplicate-free forest. -/
theorem nodup_cons {a : α} {s b : Forest α} (h : (cons a s b).nodes.Nodup) :
    a ∉ s.nodes ∧ a ∉ b.nodes ∧ s.nodes.Nodup ∧ b.nodes.Nodup ∧
      ∀ x ∈ s.nodes, x ∉ b.nodes := by
  rw [nodes_cons, List.nodup_cons, List.mem_append, not_or] at h
  obtain ⟨⟨hs, hb⟩, hn⟩ := h
  have hd := List.nodup_append.mp hn
  exact ⟨hs, hb, hd.1, hd.2.1, fun x hx hxb => hd.2.2 x hx x hxb rfl⟩

section Edits

variable [DecidableEq α]

/-- The forest below node `p`; empty when `p` is not a node. -/
def sonsOf (p : α) : Forest α → Forest α
  | nil => nil
  | cons a s b => if a = p then s else if p ∈ s.nodes then s.sonsOf p else b.sonsOf p

/-- The new leaf `x` becomes the first son of `p`. -/
def insertUnder (p x : α) : Forest α → Forest α
  | nil => nil
  | cons a s b => if a = p then cons a (cons x nil s) b
      else cons a (s.insertUnder p x) (b.insertUnder p x)

/-- Node `d` goes, with everything below it; its brothers close up. -/
def remove (d : α) : Forest α → Forest α
  | nil => nil
  | cons a s b => if a = d then b else cons a (s.remove d) (b.remove d)

theorem insertUnder_of_notMem {p x : α} : ∀ {F : Forest α}, p ∉ F.nodes → F.insertUnder p x = F
  | nil, _ => rfl
  | cons a s b, h => by
    simp only [nodes_cons, List.mem_cons, List.mem_append, not_or] at h
    rw [insertUnder, if_neg (Ne.symm h.1), insertUnder_of_notMem h.2.1,
      insertUnder_of_notMem h.2.2]

theorem remove_of_notMem {d : α} : ∀ {F : Forest α}, d ∉ F.nodes → F.remove d = F
  | nil, _ => rfl
  | cons a s b, h => by
    simp only [nodes_cons, List.mem_cons, List.mem_append, not_or] at h
    rw [remove, if_neg (Ne.symm h.1), remove_of_notMem h.2.1, remove_of_notMem h.2.2]

/-- An insertion adds exactly the new node. -/
theorem perm_nodes_insertUnder {p x : α} : ∀ {F : Forest α}, F.nodes.Nodup → p ∈ F.nodes →
    (F.insertUnder p x).nodes.Perm (x :: F.nodes)
  | cons a s b, hn, hp => by
    obtain ⟨has, hab, hs, hb, hsb⟩ := nodup_cons hn
    by_cases hap : a = p
    · rw [insertUnder, if_pos hap]
      exact List.Perm.swap _ _ _
    · rw [insertUnder, if_neg hap]
      rcases List.mem_append.mp ((List.mem_cons.mp hp).resolve_left (Ne.symm hap)) with h | h
      · rw [insertUnder_of_notMem (hsb p h), nodes_cons, nodes_cons]
        have ih := perm_nodes_insertUnder (x := x) hs h
        exact ((ih.append_right _).cons a).trans (List.Perm.swap _ _ _)
      · have hps : p ∉ s.nodes := fun h' => hsb p h' h
        rw [insertUnder_of_notMem hps, nodes_cons, nodes_cons]
        have ih := perm_nodes_insertUnder (x := x) hb h
        exact (((ih.append_left _).trans List.perm_middle).cons a).trans (List.Perm.swap _ _ _)

/-- A removal takes away the node and the nodes below it, and nothing else. -/
theorem perm_nodes_remove {d : α} : ∀ {F : Forest α}, F.nodes.Nodup → d ∈ F.nodes →
    F.nodes.Perm (d :: ((F.sonsOf d).nodes ++ (F.remove d).nodes))
  | cons a s b, hn, hd => by
    obtain ⟨has, hab, hs, hb, hsb⟩ := nodup_cons hn
    by_cases had : a = d
    · rw [remove, if_pos had, sonsOf, if_pos had, nodes_cons, had]
    · rw [remove, if_neg had, sonsOf, if_neg had]
      rcases List.mem_append.mp ((List.mem_cons.mp hd).resolve_left (Ne.symm had)) with h | h
      · rw [if_pos h, remove_of_notMem (hsb d h), nodes_cons, nodes_cons]
        have ih := perm_nodes_remove hs h
        have h1 := (ih.append_right b.nodes).cons a
        refine h1.trans ((List.Perm.swap _ _ _).trans (List.Perm.cons d ?_))
        simp only [List.append_eq, List.append_assoc]
        exact List.perm_middle.symm
      · have hds : d ∉ s.nodes := fun h' => hsb d h' h
        rw [if_neg hds, remove_of_notMem hds, nodes_cons, nodes_cons]
        have ih := perm_nodes_remove hb h
        have h1 := ((ih.append_left s.nodes).trans List.perm_middle).cons a
        refine h1.trans ((List.Perm.swap _ _ _).trans (List.Perm.cons d ?_))
        refine (List.Perm.trans ?_ List.perm_middle.symm)
        refine List.Perm.cons a ?_
        rw [← List.append_assoc, ← List.append_assoc]
        exact List.perm_append_comm.append_right _

theorem mem_nodes_insertUnder {p x y : α} {F : Forest α} (hn : F.nodes.Nodup)
    (hp : p ∈ F.nodes) : y ∈ (F.insertUnder p x).nodes ↔ y = x ∨ y ∈ F.nodes := by
  rw [(perm_nodes_insertUnder hn hp).mem_iff, List.mem_cons]

theorem nodup_insertUnder {p x : α} {F : Forest α} (hn : F.nodes.Nodup) (hp : p ∈ F.nodes)
    (hx : x ∉ F.nodes) : (F.insertUnder p x).nodes.Nodup :=
  (perm_nodes_insertUnder hn hp).nodup_iff.mpr (List.nodup_cons.mpr ⟨hx, hn⟩)

theorem mem_nodes_of_mem_remove {d x : α} : ∀ {F : Forest α}, x ∈ (F.remove d).nodes → x ∈ F.nodes
  | cons a s b, h => by
    by_cases had : a = d
    · rw [remove, if_pos had] at h
      exact List.mem_cons_of_mem _ (List.mem_append_right _ h)
    · rw [remove, if_neg had, nodes_cons, List.mem_cons, List.mem_append] at h
      rw [nodes_cons, List.mem_cons, List.mem_append]
      rcases h with h | h | h
      · exact Or.inl h
      · exact Or.inr (Or.inl (mem_nodes_of_mem_remove h))
      · exact Or.inr (Or.inr (mem_nodes_of_mem_remove h))

theorem mem_nodes_of_mem_sonsOf {d x : α} : ∀ {F : Forest α}, x ∈ (F.sonsOf d).nodes → x ∈ F.nodes
  | cons a s b, h => by
    rw [nodes_cons, List.mem_cons, List.mem_append]
    rw [sonsOf] at h
    split at h
    · exact Or.inr (Or.inl h)
    · split at h
      · exact Or.inr (Or.inl (mem_nodes_of_mem_sonsOf h))
      · exact Or.inr (Or.inr (mem_nodes_of_mem_sonsOf h))

/-- What a removal from a duplicate-free forest leaves. -/
theorem mem_nodes_remove {d x : α} {F : Forest α} (hn : F.nodes.Nodup) (hd : d ∈ F.nodes) :
    x ∈ (F.remove d).nodes ↔ x ∈ F.nodes ∧ x ≠ d ∧ x ∉ (F.sonsOf d).nodes := by
  have hp := perm_nodes_remove hn hd
  have hnd := hp.nodup_iff.mp hn
  rw [List.nodup_cons, List.mem_append, not_or] at hnd
  obtain ⟨⟨hds, hdr⟩, hnd⟩ := hnd
  have hdis := (List.nodup_append.mp hnd).2.2
  constructor
  · intro hx
    refine ⟨mem_nodes_of_mem_remove hx, ?_, fun hxs => hdis x hxs x hx rfl⟩
    rintro rfl
    exact hdr hx
  · rintro ⟨hx, hxd, hxs⟩
    have h1 := (hp.mem_iff.mp hx)
    rw [List.mem_cons, List.mem_append] at h1
    exact (h1.resolve_left hxd).resolve_left hxs

theorem nodup_remove {d : α} : ∀ {F : Forest α}, F.nodes.Nodup → (F.remove d).nodes.Nodup := by
  intro F hn
  by_cases hd : d ∈ F.nodes
  · have h := (perm_nodes_remove hn hd).nodup_iff.mp hn
    exact (List.nodup_append.mp (List.nodup_cons.mp h).2).2.1
  · rwa [remove_of_notMem hd]

theorem notMem_sonsOf {d : α} {F : Forest α} (hn : F.nodes.Nodup) (hd : d ∈ F.nodes) :
    d ∉ (F.sonsOf d).nodes := by
  have h := List.nodup_cons.mp ((perm_nodes_remove hn hd).nodup_iff.mp hn)
  exact fun hs => h.1 (List.mem_append_left _ hs)

theorem nodup_sonsOf {d : α} {F : Forest α} (hn : F.nodes.Nodup) : (F.sonsOf d).nodes.Nodup := by
  by_cases hd : d ∈ F.nodes
  · have h := (perm_nodes_remove hn hd).nodup_iff.mp hn
    exact (List.nodup_append.mp (List.nodup_cons.mp h).2).1
  · suffices h : ∀ F : Forest α, d ∉ F.nodes → F.sonsOf d = nil by rw [h F hd]; exact List.nodup_nil
    intro F
    induction F with
    | nil => intro _; rfl
    | cons a s b _ ihb =>
      intro h
      simp only [nodes_cons, List.mem_cons, List.mem_append, not_or] at h
      rw [sonsOf, if_neg (Ne.symm h.1), if_neg h.2.1, ihb h.2.2]

end Edits

/-! ## 2. Links that encode a forest

`Represents son brother e F` follows the links from the entry `e` in the way a program does.  The
rules for the edits ask for the one link that changes and for the other links to be as they were;
distinct nodes make sure that a changed link is met once. -/

/-- The links `son` and `brother`, entered at `x`, encode exactly this forest. -/
def Represents (son brother : α → Option α) : Option α → Forest α → Prop
  | x, nil => x = none
  | x, cons a s b => x = some a ∧ Represents son brother (son a) s ∧
      Represents son brother (brother a) b

variable {son brother son' brother' : α → Option α}

/-- Where the encoding of a forest is entered. -/
theorem Represents.entry {x : Option α} {F : Forest α} (h : Represents son brother x F) :
    x = F.roots.head? := by
  cases F with
  | nil => exact h
  | cons a s b => exact h.1

theorem Represents.eq_nil {F : Forest α} (h : Represents son brother none F) : F = nil := by
  cases F with
  | nil => rfl
  | cons a s b => exact absurd h.1.symm (Option.some_ne_none a)

/-- The entry link leads to a node. -/
theorem Represents.entry_mem {x : Option α} {F : Forest α} (h : Represents son brother x F)
    {c : α} (hc : x = some c) : c ∈ F.nodes := by
  cases F with
  | nil => exact absurd (h.symm.trans hc) (Option.some_ne_none c).symm
  | cons a s b =>
    obtain rfl : a = c := Option.some.inj (h.1.symm.trans hc)
    exact List.mem_cons_self

/-- **Every link of a node leads to a node.** -/
theorem Represents.mem_of_link {F : Forest α} {x : Option α} (h : Represents son brother x F)
    {a : α} (ha : a ∈ F.nodes) {c : α} (hc : son a = some c ∨ brother a = some c) :
    c ∈ F.nodes := by
  induction F generalizing x with
  | nil => cases ha
  | cons r s b ihs ihb =>
    obtain ⟨_, hs, hb⟩ := h
    rw [nodes_cons, List.mem_cons, List.mem_append]
    rcases List.mem_cons.mp ha with rfl | ha
    · rcases hc with hc | hc
      · exact Or.inr (Or.inl (hs.entry_mem hc))
      · exact Or.inr (Or.inr (hb.entry_mem hc))
    · rcases List.mem_append.mp ha with ha | ha
      · exact Or.inr (Or.inl (ihs hs ha))
      · exact Or.inr (Or.inr (ihb hb ha))

/-- **The frame rule**: links that agree on the nodes encode the same forest. -/
theorem Represents.congr {F : Forest α} {x : Option α} (h : Represents son brother x F)
    (heq : ∀ a ∈ F.nodes, son' a = son a ∧ brother' a = brother a) :
    Represents son' brother' x F := by
  induction F generalizing x with
  | nil => exact h
  | cons a s b ihs ihb =>
    obtain ⟨hx, hs, hb⟩ := h
    have h0 := heq a List.mem_cons_self
    refine ⟨hx, ?_, ?_⟩
    · rw [h0.1]
      exact ihs hs fun c hc => heq c (List.mem_cons_of_mem _ (List.mem_append_left _ hc))
    · rw [h0.2]
      exact ihb hb fun c hc => heq c (List.mem_cons_of_mem _ (List.mem_append_right _ hc))

/-- **Links encode one forest.** -/
theorem Represents.unique {F F' : Forest α} {x : Option α} (h : Represents son brother x F)
    (h' : Represents son brother x F') : F = F' := by
  induction F generalizing x F' with
  | nil =>
    obtain rfl : x = none := h
    cases F' with
    | nil => rfl
    | cons a s b => cases h'.1
  | cons a s b ihs ihb =>
    obtain ⟨rfl, hs, hb⟩ := h
    cases F' with
    | nil => cases h'
    | cons a' s' b' =>
      obtain ⟨ha, hs', hb'⟩ := h'
      obtain rfl := Option.some.inj ha
      rw [ihs hs hs', ihb hb hb']

/-- One link: the `son` link of a node, or its `brother` link. -/
def Leads (son brother : α → Option α) (l : Bool × α) (d : α) : Prop :=
  (if l.1 then son l.2 else brother l.2) = some d

/-- **No two links lead to one node**, and none leads to the first root. -/
theorem Represents.leads_unique {F : Forest α} {x : Option α} (h : Represents son brother x F)
    (hn : F.nodes.Nodup) {d : α} :
    (∀ l, l.2 ∈ F.nodes → x = some d → ¬ Leads son brother l d) ∧
      ∀ l l', l.2 ∈ F.nodes → l'.2 ∈ F.nodes → Leads son brother l d → Leads son brother l' d →
        l = l' := by
  induction F generalizing x with
  | nil => exact ⟨fun l hl => absurd hl List.not_mem_nil, fun l l' hl => absurd hl List.not_mem_nil⟩
  | cons a s b ihs ihb =>
    obtain ⟨rfl, hs, hb⟩ := h
    obtain ⟨has, hab, hsn, hbn, hsb⟩ := nodup_cons hn
    obtain ⟨is1, is2⟩ := ihs hs hsn
    obtain ⟨ib1, ib2⟩ := ihb hb hbn
    -- a link into the sons comes from the root's `son` link or from a son, and so for the brothers
    have key : ∀ l, l.2 ∈ (cons a s b).nodes → Leads son brother l d →
        d ∈ s.nodes ∧ (l = (true, a) ∨ l.2 ∈ s.nodes) ∨
          d ∈ b.nodes ∧ (l = (false, a) ∨ l.2 ∈ b.nodes) := by
      rintro ⟨k, c⟩ hc hl
      have hl' : son c = some d ∨ brother c = some d := by
        unfold Leads at hl
        cases k with
        | true => exact Or.inl hl
        | false => exact Or.inr hl
      rcases List.mem_cons.mp hc with rfl | hc
      · cases k with
        | true => exact Or.inl ⟨hs.entry_mem hl, Or.inl rfl⟩
        | false => exact Or.inr ⟨hb.entry_mem hl, Or.inl rfl⟩
      · rcases List.mem_append.mp hc with hc | hc
        · exact Or.inl ⟨hs.mem_of_link hc hl', Or.inr hc⟩
        · exact Or.inr ⟨hb.mem_of_link hc hl', Or.inr hc⟩
    refine ⟨?_, ?_⟩
    · intro l hl he hld
      obtain rfl : a = d := Option.some.inj he
      rcases key l hl hld with ⟨h, -⟩ | ⟨h, -⟩
      · exact has h
      · exact hab h
    · intro l l' hl hl' hld hld'
      rcases key l hl hld with ⟨hd, h1⟩ | ⟨hd, h1⟩ <;>
        rcases key l' hl' hld' with ⟨hd', h2⟩ | ⟨hd', h2⟩
      · rcases h1 with rfl | h1 <;> rcases h2 with rfl | h2
        · rfl
        · exact absurd hld' (is1 l' h2 hld)
        · exact absurd hld (is1 l h1 hld')
        · exact is2 l l' h1 h2 hld hld'
      · exact absurd hd' (hsb d hd)
      · exact absurd hd (hsb d hd')
      · rcases h1 with rfl | h1 <;> rcases h2 with rfl | h2
        · rfl
        · exact absurd hld' (ib1 l' h2 hld)
        · exact absurd hld (ib1 l h1 hld')
        · exact ib2 l l' h1 h2 hld hld'

/-- No node links to itself. -/
theorem Represents.ne_of_leads {F : Forest α} {x : Option α} (h : Represents son brother x F)
    (hn : F.nodes.Nodup) {l : Bool × α} (hl : l.2 ∈ F.nodes) {d : α}
    (hld : Leads son brother l d) : l.2 ≠ d := by
  induction F generalizing x with
  | nil => cases hl
  | cons a s b ihs ihb =>
    obtain ⟨_, hs, hb⟩ := h
    obtain ⟨has, hab, hsn, hbn, _⟩ := nodup_cons hn
    rcases List.mem_cons.mp hl with hla | hl
    · rintro rfl
      obtain ⟨k, c⟩ := l
      obtain rfl : c = a := hla
      cases k with
      | true => exact has (hs.entry_mem hld)
      | false => exact hab (hb.entry_mem hld)
    · rcases List.mem_append.mp hl with hl | hl
      · exact ihs hs hsn hl
      · exact ihb hb hbn hl

theorem Leads.link {l : Bool × α} {d : α} (h : Leads son brother l d) :
    son l.2 = some d ∨ brother l.2 = some d := by
  unfold Leads at h
  split at h
  · exact Or.inl h
  · exact Or.inr h

/-- The chain of the roots: each is linked to the next. -/
theorem Represents.roots_cons {F : Forest α} {x : Option α} (h : Represents son brother x F)
    {a : α} {rest : List α} (hr : F.roots = a :: rest) :
    x = some a ∧ ∃ G, Represents son brother (brother a) G ∧ G.roots = rest ∧
      ∀ c ∈ G.nodes, c ∈ F.nodes := by
  cases F with
  | nil => cases hr
  | cons a' s b =>
    obtain ⟨hx, hs, hb⟩ := h
    obtain ⟨rfl, rfl⟩ := List.cons.inj hr
    exact ⟨hx, b, hb, rfl, fun c hc => List.mem_cons_of_mem _ (List.mem_append_right _ hc)⟩

/-- Neighbours in the chain of the roots are linked. -/
theorem Represents.brother_of_roots {pre rest : List α} {a d : α} {F : Forest α} {x : Option α}
    (h : Represents son brother x F) (hr : F.roots = pre ++ a :: d :: rest) :
    brother a = some d := by
  induction pre generalizing F x with
  | nil =>
    obtain ⟨_, G, hG, hr', _⟩ := h.roots_cons hr
    exact (hG.roots_cons hr').1
  | cons c pre ih =>
    obtain ⟨_, G, hG, hr', _⟩ := h.roots_cons hr
    exact ih hG hr'

section EditRules

variable [DecidableEq α]

/-- The sons of a node are what its `son` link encodes. -/
theorem Represents.sonsOf {F : Forest α} {x : Option α} {p : α} (h : Represents son brother x F)
    (hp : p ∈ F.nodes) : Represents son brother (son p) (F.sonsOf p) := by
  induction F generalizing x with
  | nil => cases hp
  | cons a s b ihs ihb =>
    obtain ⟨_, hs, hb⟩ := h
    rw [Forest.sonsOf]
    by_cases hap : a = p
    · rw [if_pos hap, ← hap]
      exact hs
    · rw [if_neg hap]
      by_cases hps : p ∈ s.nodes
      · rw [if_pos hps]
        exact ihs hs hps
      · rw [if_neg hps]
        rcases List.mem_append.mp ((List.mem_cons.mp hp).resolve_left (Ne.symm hap)) with h | h
        · exact absurd h hps
        · exact ihb hb h

/-- **A link to a node starts outside of what is below it.** -/
theorem Represents.leads_remove {F : Forest α} {x : Option α} (h : Represents son brother x F)
    (hn : F.nodes.Nodup) {d : α} (hd : d ∈ F.nodes) {l : Bool × α} (hl : l.2 ∈ F.nodes)
    (hld : Leads son brother l d) : l.2 ∈ (F.remove d).nodes := by
  refine (mem_nodes_remove hn hd).mpr ⟨hl, h.ne_of_leads hn hl hld, ?_⟩
  intro hls
  have hds := (h.sonsOf hd).mem_of_link hls hld.link
  have hnd := (perm_nodes_remove hn hd).nodup_iff.mp hn
  exact (List.nodup_cons.mp hnd).1 (List.mem_append_left _ hds)

/-- **Insertion**: the new leaf `x` takes over the `son` link of `p` as its `brother` link, and
`p` points to `x`. -/
theorem Represents.insertUnder {p x : α} (hsx : son' x = none) (hbx : brother' x = son p)
    (hsp : son' p = some x) (hbp : brother' p = brother p) {F : Forest α} {e : Option α}
    (h : Represents son brother e F) (hn : F.nodes.Nodup) (hxF : x ∉ F.nodes)
    (heq : ∀ a ∈ F.nodes, a ≠ p → son' a = son a ∧ brother' a = brother a) :
    Represents son' brother' e (F.insertUnder p x) := by
  induction F generalizing e with
  | nil => exact h
  | cons a s b ihs ihb =>
    obtain ⟨he, hs, hb⟩ := h
    obtain ⟨has, hab, hsn, hbn, hsb⟩ := nodup_cons hn
    simp only [nodes_cons, List.mem_cons, List.mem_append, not_or] at hxF
    have heqs : ∀ c ∈ s.nodes, c ≠ p → son' c = son c ∧ brother' c = brother c := fun c hc =>
      heq c (List.mem_cons_of_mem _ (List.mem_append_left _ hc))
    have heqb : ∀ c ∈ b.nodes, c ≠ p → son' c = son c ∧ brother' c = brother c := fun c hc =>
      heq c (List.mem_cons_of_mem _ (List.mem_append_right _ hc))
    rw [Forest.insertUnder]
    by_cases hap : a = p
    · subst hap
      rw [if_pos rfl]
      refine ⟨he, ?_, ?_⟩
      · rw [hsp]
        refine ⟨rfl, hsx, ?_⟩
        rw [hbx]
        exact hs.congr fun c hc => heqs c hc fun h => has (h ▸ hc)
      · rw [hbp]
        exact hb.congr fun c hc => heqb c hc fun h => hab (h ▸ hc)
    · rw [if_neg hap]
      have h0 := heq a List.mem_cons_self hap
      refine ⟨he, ?_, ?_⟩
      · rw [h0.1]
        exact ihs hs hsn hxF.2.1 heqs
      · rw [h0.2]
        exact ihb hb hbn hxF.2.2 heqb

/-- **Removal**: the one link that led to `d` now leads to the next brother of `d`. -/
theorem Represents.remove {d : α} {F : Forest α} {e : Option α} (h : Represents son brother e F)
    (hn : F.nodes.Nodup)
    (heq : ∀ a ∈ F.nodes, a ≠ d →
      son' a = (if son a = some d then brother d else son a) ∧
      brother' a = (if brother a = some d then brother d else brother a)) :
    Represents son' brother' (if e = some d then brother d else e) (F.remove d) := by
  induction F generalizing e with
  | nil =>
    obtain rfl : e = none := h
    rw [if_neg (Option.some_ne_none d).symm]
    rfl
  | cons a s b ihs ihb =>
    obtain ⟨rfl, hs, hb⟩ := h
    obtain ⟨has, hab, hsn, hbn, hsb⟩ := nodup_cons hn
    have heqs : ∀ c ∈ s.nodes, c ≠ d → _ := fun c hc =>
      heq c (List.mem_cons_of_mem _ (List.mem_append_left _ hc))
    have heqb : ∀ c ∈ b.nodes, c ≠ d → _ := fun c hc =>
      heq c (List.mem_cons_of_mem _ (List.mem_append_right _ hc))
    rw [Forest.remove]
    by_cases had : a = d
    · -- no link of the brothers leads to the removed node, so they keep their links
      subst had
      rw [if_pos rfl, if_pos rfl]
      refine hb.congr ?_
      intro c hc
      have h1 := heqb c hc fun h => hab (h ▸ hc)
      rwa [if_neg fun h => hab (hb.mem_of_link hc (Or.inl h)),
        if_neg fun h => hab (hb.mem_of_link hc (Or.inr h))] at h1
    · rw [if_neg had, if_neg fun h => had (Option.some.inj h)]
      have h0 := heq a List.mem_cons_self had
      refine ⟨rfl, ?_, ?_⟩
      · rw [h0.1]
        exact ihs hs hsn heqs
      · rw [h0.2]
        exact ihb hb hbn heqb

/-- **Removal by one link**: it is enough that the one link to `d` leads to the brother of `d` and
every other link is as before. -/
theorem Represents.remove_link {d : α} {F : Forest α} {e : Option α}
    (h : Represents son brother e F) (hn : F.nodes.Nodup) (hed : e ≠ some d) {l : Bool × α}
    (hl : l.2 ∈ F.nodes) (hld : Leads son brother l d)
    (hself : (if l.1 then son' l.2 else brother' l.2) = brother d)
    (hson : ∀ a ∈ F.nodes, a ≠ d → (true, a) ≠ l → son' a = son a)
    (hbrother : ∀ a ∈ F.nodes, a ≠ d → (false, a) ≠ l → brother' a = brother a) :
    Represents son' brother' e (F.remove d) := by
  have hu := (h.leads_unique hn (d := d)).2
  have hlinks : ∀ a ∈ F.nodes, a ≠ d →
      son' a = (if son a = some d then brother d else son a) ∧
      brother' a = (if brother a = some d then brother d else brother a) := by
    intro a ha had
    constructor
    · by_cases hs : son a = some d
      · rw [if_pos hs]
        obtain rfl : (true, a) = l := hu _ _ ha hl hs hld
        exact hself
      · rw [if_neg hs]
        exact hson a ha had fun he => hs (by subst he; exact hld)
    · by_cases hb : brother a = some d
      · rw [if_pos hb]
        obtain rfl : (false, a) = l := hu _ _ ha hl hb hld
        exact hself
      · rw [if_neg hb]
        exact hbrother a ha had fun he => hb (by subst he; exact hld)
  have := h.remove hn hlinks
  rwa [if_neg hed] at this

end EditRules

/-! ## 3. Who is below whom

`IsSon` is a statement on the links alone: the node is in the sibling chain that the son link of the
other begins.  Where the links encode a forest it says the same as the forest does. -/

/-- `d` is in the sibling chain behind the `son` link of `p`. -/
inductive IsSon (son brother : α → Option α) (p : α) : α → Prop
  | first {d : α} : son p = some d → IsSon son brother p d
  | next {d e : α} : IsSon son brother p d → brother d = some e → IsSon son brother p e

section Below

variable {son brother : α → Option α}

/-- The sibling chain stays in the roots. -/
theorem Represents.brother_mem_roots {F : Forest α} {x : Option α}
    (h : Represents son brother x F) {d e : α} (hd : d ∈ F.roots) (he : brother d = some e) :
    e ∈ F.roots := by
  induction F generalizing x with
  | nil => cases hd
  | cons a s b _ ihb =>
    obtain ⟨-, -, hb⟩ := h
    refine List.mem_cons_of_mem _ ?_
    rcases List.mem_cons.mp hd with rfl | hd
    · rw [he] at hb
      exact List.mem_of_head? hb.entry.symm
    · exact ihb hb hd

theorem Represents.isSon_of_mem_roots {F : Forest α} {x : Option α} {p : α}
    (h : Represents son brother x F) (hx : ∀ c, x = some c → IsSon son brother p c) {d : α}
    (hd : d ∈ F.roots) : IsSon son brother p d := by
  induction F generalizing x with
  | nil => cases hd
  | cons a s b _ ihb =>
    obtain ⟨ha, -, hb⟩ := h
    rcases List.mem_cons.mp hd with rfl | hd
    · exact hx d ha
    · exact ihb hb (fun c hc => (hx a ha).next hc) hd

/-- Every node is a root or below one. -/
theorem Represents.descends {F : Forest α} {x : Option α} (h : Represents son brother x F) {a : α}
    (ha : a ∈ F.nodes) : ∃ r ∈ F.roots, Relation.ReflTransGen (IsSon son brother) r a := by
  induction F generalizing x with
  | nil => cases ha
  | cons c s b ihs ihb =>
    obtain ⟨-, hs, hb⟩ := h
    rcases List.mem_cons.mp ha with rfl | ha
    · exact ⟨a, List.mem_cons_self, .refl⟩
    · rcases List.mem_append.mp ha with ha | ha
      · obtain ⟨r, hr, hra⟩ := ihs hs ha
        exact ⟨c, List.mem_cons_self, .head (hs.isSon_of_mem_roots (fun _ hc => .first hc) hr) hra⟩
      · obtain ⟨r, hr, hra⟩ := ihb hb ha
        exact ⟨r, List.mem_cons_of_mem _ hr, hra⟩

variable [DecidableEq α]

/-- **The sons of a node are the sibling chain behind its `son` link.** -/
theorem Represents.isSon_iff {F : Forest α} {x : Option α} (h : Represents son brother x F)
    {p d : α} (hp : p ∈ F.nodes) : IsSon son brother p d ↔ d ∈ (F.sonsOf p).roots := by
  have hs := h.sonsOf hp
  constructor
  · intro hd
    induction hd with
    | first hd => exact List.mem_of_head? (hs.entry.symm.trans hd)
    | next _ he ih => exact hs.brother_mem_roots ih he
  · exact fun hd => hs.isSon_of_mem_roots (fun c hc => .first hc) hd

/-- **What is below a node** are its sons, their sons, and so on. -/
theorem Represents.transGen_iff {F : Forest α} {x : Option α} (h : Represents son brother x F)
    {d e : α} (hd : d ∈ F.nodes) :
    Relation.TransGen (IsSon son brother) d e ↔ e ∈ (F.sonsOf d).nodes := by
  have hs := h.sonsOf hd
  constructor
  · intro he
    induction he with
    | single he => exact mem_nodes_of_mem_roots ((h.isSon_iff hd).mp he)
    | tail _ he ih =>
      induction he with
      | first hc => exact hs.mem_of_link ih (Or.inl hc)
      | next _ hc ihc => exact hs.mem_of_link ihc (Or.inr hc)
  · intro he
    obtain ⟨r, hr, hre⟩ := hs.descends he
    exact .head' ((h.isSon_iff hd).mpr hr) hre

end Below

/-! ## 4. Walking the links: brothers first, sons on a stack

The traversal goes along the brothers of a chain and pushes the first son of each, so that the son
pushed last is visited next.  `visit` is the same order by recursion on the forest, and
`Represents.walk` says that the loop over the links makes exactly these visits. -/

/-- The visits of a forest whose roots have parent `p` and depth `d`: the whole sibling chain of
a root comes before what is below that root. -/
def visit : Forest α → α → Nat → List (α × α × Nat)
  | nil, _, _ => []
  | cons a s b, p, d => (a, p, d) :: (b.visit p d ++ s.visit a (d + 1))

theorem perm_map_visit (F : Forest α) (p : α) (d : Nat) :
    ((F.visit p d).map Prod.fst).Perm F.nodes := by
  induction F generalizing p d with
  | nil => exact List.Perm.nil
  | cons a s b ihs ihb =>
    rw [visit, nodes_cons, List.map_cons, List.map_append]
    exact ((List.perm_append_comm).trans ((ihs a (d + 1)).append (ihb p d))).cons a

theorem length_visit (F : Forest α) (p : α) (d : Nat) : (F.visit p d).length = F.nodes.length := by
  rw [← (perm_map_visit F p d).length_eq, List.length_map]

section Walk

variable (son brother : α → Option α)

/-- Where the walk goes after `e`: the brother, then the sons; a son link met together with a
brother link waits on the stack. -/
def walkNext (e : α × α × Nat) (stack : List (α × α × Nat)) :
    Option ((α × α × Nat) × List (α × α × Nat)) :=
  match brother e.1, son e.1 with
  | none, none => stack.head?.map fun top => (top, stack.tail)
  | some b, some s => some ((b, e.2.1, e.2.2), (s, e.1, e.2.2 + 1) :: stack)
  | some b, none => some ((b, e.2.1, e.2.2), stack)
  | none, some s => some ((s, e.1, e.2.2 + 1), stack)

/-- The entries visited from `e`, in order; `none` when `fuel` visits do not suffice. -/
def walk : Nat → α × α × Nat → List (α × α × Nat) → Option (List (α × α × Nat))
  | 0, _, _ => none
  | fuel + 1, e, stack =>
    match walkNext son brother e stack with
    | none => some [e]
    | some (e', stack') => (walk fuel e' stack').map (e :: ·)

/-- What is left of the walk once the current forest is done. -/
def resume (fuel : Nat) : List (α × α × Nat) → Option (List (α × α × Nat))
  | [] => some []
  | top :: rest => walk son brother fuel top rest

variable {son brother}

/-- **The walk visits a forest exactly in the order `visit`**, then resumes from the stack. -/
theorem Represents.walk {F : Forest α} {x : α} (h : Represents son brother (some x) F) (n : Nat)
    (p : α) (d : Nat) (stack : List (α × α × Nat)) :
    Forest.walk son brother (F.nodes.length + n) (x, p, d) stack
      = (resume son brother n stack).map (F.visit p d ++ ·) := by
  induction F generalizing x n p d stack with
  | nil => exact absurd h (Option.some_ne_none x)
  | cons a s b ihs ihb =>
    obtain ⟨ha, hs, hb⟩ := h
    obtain rfl : x = a := Option.some.inj ha
    have hlen : (cons x s b).nodes.length + n = (b.nodes.length + (s.nodes.length + n)) + 1 := by
      simp only [nodes_cons, List.length_cons, List.length_append]; omega
    rw [hlen, Forest.walk, visit]
    cases hbx : brother x with
    | none =>
      obtain rfl := Represents.eq_nil (hbx ▸ hb)
      cases hsx : son x with
      | none =>
        obtain rfl := Represents.eq_nil (hsx ▸ hs)
        cases stack with
        | nil => simp [walkNext, hbx, hsx, resume, visit]
        | cons top rest => simp [walkNext, hbx, hsx, resume, visit]
      | some y =>
        have ih := ihs (hsx ▸ hs) n x (d + 1) stack
        simp only [walkNext, hbx, hsx, nodes_nil, List.length_nil, Nat.zero_add, ih, visit,
          List.nil_append, Option.map_map]
        rfl
    | some z =>
      cases hsx : son x with
      | none =>
        obtain rfl := Represents.eq_nil (hsx ▸ hs)
        have ih := ihb (hbx ▸ hb) n p d stack
        simp only [walkNext, hbx, hsx, nodes_nil, List.length_nil, Nat.zero_add, ih, visit,
          List.append_nil, Option.map_map]
        rfl
      | some y =>
        -- the sons wait on the stack until the brothers are done
        have hb' := ihb (hbx ▸ hb) (s.nodes.length + n) p d ((y, x, d + 1) :: stack)
        have hs' := ihs (hsx ▸ hs) n x (d + 1) stack
        simp only [walkNext, hbx, hsx, hb', resume, hs', Option.map_map]
        congr 1
        funext l
        simp only [Function.comp_apply, List.cons_append, List.append_assoc]

end Walk

/-! ## 5. The first visits below the roots

What comes right behind the roots in a visit: the first node below them, which is a first son.  It
is where a scan that should end with the roots goes one node too far. -/

section FirstBelow

/-- The visits below the roots; those below a later root come first. -/
def deeper : Forest α → Nat → List (α × α × Nat)
  | nil, _ => []
  | cons a s b, d => b.deeper d ++ s.visit a (d + 1)

/-- **The roots are visited before anything below them.** -/
theorem visit_eq (F : Forest α) (p : α) (d : Nat) :
    F.visit p d = F.roots.map (fun a => (a, p, d)) ++ F.deeper d := by
  induction F with
  | nil => rfl
  | cons a s b _ ihb => rw [visit, ihb, roots_cons, deeper, List.map_cons, List.append_assoc]; rfl

/-- The first visit below the roots, with its parent: the first son of the last root that has
sons. -/
def firstBelow : Forest α → Option (α × α)
  | nil => none
  | cons a s b => b.firstBelow <|> s.roots.head?.map fun k => (k, a)

theorem head?_visit (F : Forest α) (p : α) (d : Nat) :
    (F.visit p d).head? = F.roots.head?.map fun k => (k, p, d) := by
  cases F <;> rfl

theorem head?_deeper (F : Forest α) (d : Nat) :
    (F.deeper d).head? = F.firstBelow.map fun e => (e.1, e.2, d + 1) := by
  induction F with
  | nil => rfl
  | cons a s b _ ihb =>
    rw [deeper, List.head?_append, ihb, head?_visit, firstBelow]
    cases b.firstBelow with
    | none => simp [Option.map_map, Function.comp_def]
    | some e => rfl

/-- The depth a visit starts at only shows in the depths of the visits. -/
theorem map_visit_depth (F : Forest α) (p : α) (d d' : Nat) :
    (F.visit p d).map (fun e => (e.1, e.2.1)) = (F.visit p d').map fun e => (e.1, e.2.1) := by
  induction F generalizing p d d' with
  | nil => rfl
  | cons a s b ihs ihb =>
    simp only [visit, List.map_cons, List.map_append]
    rw [ihb p d d', ihs a (d + 1) (d' + 1)]

variable {son brother : α → Option α}

/-- What is visited stands below its parent. -/
theorem Represents.isSon_of_visit {F : Forest α} {x : Option α} {p : α}
    (h : Represents son brother x F) (hx : ∀ c, x = some c → IsSon son brother p c) {d : Nat}
    {e : α × α × Nat} (he : e ∈ F.visit p d) : IsSon son brother e.2.1 e.1 := by
  induction F generalizing x p d with
  | nil => cases he
  | cons a s b ihs ihb =>
    obtain ⟨ha, hs, hb⟩ := h
    rcases List.mem_cons.mp he with rfl | he
    · exact hx a ha
    · rcases List.mem_append.mp he with he | he
      · exact ihb hb (fun c hc => (hx a ha).next hc) he
      · exact ihs hs (fun c hc => .first hc) he

/-- A node is visited with its parent. -/
theorem parent_of_visit {F : Forest α} {p : α} {d : Nat} {e : α × α × Nat} (he : e ∈ F.visit p d) :
    e.2.1 = p ∨ e.2.1 ∈ F.nodes := by
  induction F generalizing p d with
  | nil => cases he
  | cons a s b ihs ihb =>
    rw [nodes_cons, List.mem_cons, List.mem_append]
    rcases List.mem_cons.mp he with rfl | he
    · exact Or.inl rfl
    · rcases List.mem_append.mp he with he | he
      · exact (ihb he).imp_right fun h => Or.inr (Or.inr h)
      · exact Or.inr ((ihs he).imp_right Or.inl)

theorem exists_mem_visit {F : Forest α} {p : α} {d : Nat} {k : α} (hk : k ∈ F.nodes) :
    ∃ e ∈ F.visit p d, e.1 = k := by
  have hmem := (perm_map_visit F p d).mem_iff.mpr hk
  obtain ⟨e, he, rfl⟩ := List.mem_map.mp hmem
  exact ⟨e, he, rfl⟩

theorem Represents.firstBelow_eq_none {F : Forest α} {x : Option α}
    (h : Represents son brother x F) : F.firstBelow = none ↔ ∀ c ∈ F.roots, son c = none := by
  induction F generalizing x with
  | nil => simp [firstBelow]
  | cons r s b _ ihb =>
    obtain ⟨-, hs, hb⟩ := h
    simp only [firstBelow, Option.orElse_eq_orElse, Option.orElse_eq_or, Option.or_eq_none_iff,
      Option.map_eq_none_iff, ← hs.entry, ihb hb, Forest.roots_cons,
      List.forall_mem_cons]
    exact and_comm

/-- **The first visit below the roots**, in terms of the links: the first son of a root behind which
no root has a son. -/
theorem Represents.firstBelow_iff {F : Forest α} {x : Option α} (h : Represents son brother x F)
    {k a : α} : F.firstBelow = some (k, a) ↔
      ∃ pre post, F.roots = pre ++ a :: post ∧ son a = some k ∧ ∀ c ∈ post, son c = none := by
  induction F generalizing x with
  | nil => simp [firstBelow]
  | cons r s b _ ihb =>
    obtain ⟨-, hs, hb⟩ := h
    simp only [firstBelow, Option.orElse_eq_orElse, Option.orElse_eq_or, Option.or_eq_some_iff,
      hb.firstBelow_eq_none, ← hs.entry, ihb hb, Forest.roots_cons]
    constructor
    · rintro (⟨pre, post, hr, hk, hpost⟩ | ⟨hnone, hson⟩)
      · exact ⟨r :: pre, post, by rw [hr, List.cons_append], hk, hpost⟩
      · obtain ⟨k', hk', he⟩ := Option.map_eq_some_iff.mp hson
        obtain ⟨rfl, rfl⟩ := Prod.mk.inj he
        exact ⟨[], b.roots, rfl, hk', hnone⟩
    · rintro ⟨pre, post, hr, hk, hpost⟩
      cases pre with
      | nil =>
        obtain ⟨rfl, rfl⟩ := List.cons.inj hr
        exact Or.inr ⟨hpost, by rw [hk]; rfl⟩
      | cons c pre =>
        exact Or.inl ⟨pre, post, (List.cons.inj hr).2, hk, hpost⟩

/-- A node stands below one node at most. -/
theorem Represents.isSon_unique {F : Forest α} {x : Option α} (h : Represents son brother x F)
    (hn : F.nodes.Nodup) {p q k : α} (hp : p ∈ F.nodes) (hq : q ∈ F.nodes)
    (hpk : IsSon son brother p k) (hqk : IsSon son brother q k) : p = q := by
  have hmem : ∀ {p d}, p ∈ F.nodes → IsSon son brother p d → d ∈ F.nodes := by
    intro p d hp hd
    induction hd with
    | first hc => exact h.mem_of_link hp (Or.inl hc)
    | next _ hc ih => exact h.mem_of_link ih (Or.inr hc)
  induction hpk with
  | @first d hd =>
    have huniq := (h.leads_unique hn (d := d)).2 (true, p)
    cases hqk with
    | first hd' => exact congrArg Prod.snd (huniq (true, q) hp hq hd hd')
    | @next e _ he hed =>
      exact absurd (huniq (false, e) hp (hmem hq he) hd hed) (by simp)
  | @next e d he hed ih =>
    have huniq := (h.leads_unique hn (d := d)).2 (false, e)
    cases hqk with
    | first hd' =>
      exact absurd (huniq (true, q) (hmem hp he) hq hed hd') (by simp)
    | @next e' _ he' hed' =>
      obtain rfl := congrArg Prod.snd (huniq (false, e') (hmem hp he) (hmem hq he') hed hed')
      exact ih he'

end FirstBelow

/-! ## 6. Parents and levels

A visit also tells the parent of a node and its level.  Both are determined by the links, since a
node of a forest is the son of one node only. -/

/-- `k` stands below `p` on level `n`, by the links from `x` on: a brother stands where its brother
does, a son one level below its parent.  The first chain is on level 0, below `q`. -/
inductive StandsBelow (son brother : α → Option α) (x : Option α) (q : α) : α → α → Nat → Prop
  | entry {k : α} : x = some k → StandsBelow son brother x q k q 0
  | brother {k b p : α} {n : Nat} : StandsBelow son brother x q k p n → brother k = some b →
      StandsBelow son brother x q b p n
  | son {k c p : α} {n : Nat} : StandsBelow son brother x q k p n → son k = some c →
      StandsBelow son brother x q c k (n + 1)

section Levels

variable {son brother : α → Option α} {x : Option α} {q : α}

/-- **A visit has the parent of its node, and the depth of its level.** -/
theorem Represents.standsBelow {F : Forest α} {y : Option α}
    (h : Represents son brother y F) {p : α}
    {n : Nat} (hy : ∀ c, y = some c → StandsBelow son brother x q c p n) {d : Nat} {e : α × α × Nat}
    (he : e ∈ F.visit p (d + n)) : ∃ m, StandsBelow son brother x q e.1 e.2.1 m ∧ e.2.2
      = d + m := by
  induction F generalizing y p n with
  | nil => cases he
  | cons a s b ihs ihb =>
    obtain ⟨ha, hs, hb⟩ := h
    have hstands := hy a ha
    rcases List.mem_cons.mp he with rfl | he
    · exact ⟨n, hstands, rfl⟩
    · rcases List.mem_append.mp he with he | he
      · exact ihb hb (fun c hc => hstands.brother hc) he
      · exact ihs hs (fun c hc => hstands.son hc) he

end Levels

end Forest

end Zgdb.Lib
