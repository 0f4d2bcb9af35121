/-
# Forests under other names

`map f` gives the nodes of a forest other names.  While `f` keeps the names apart, every question
about the renamed forest is the renamed question about the forest: its nodes, its sons, its visits,
and the two edits of a tree store.
-/
import Mathlib.Data.Set.Function
import Mathlib.Logic.Function.Basic
import Zgdb.Lib.Forest

namespace Zgdb.Lib.Forest

variable {α β : Type}

/-! ## 1. Names

Only the names of the nodes of the forest matter: two maps that agree on them give the same forest.
-/

/-- The forest with other names for its nodes. -/
def map (f : α → β) : Forest α → Forest β
  | nil => nil
  | cons a s b => cons (f a) (s.map f) (b.map f)

@[simp] theorem map_nil (f : α → β) : (nil : Forest α).map f = nil := rfl

@[simp] theorem map_cons (f : α → β) (a : α) (s b : Forest α) :
    (cons a s b).map f = cons (f a) (s.map f) (b.map f) := rfl

@[simp] theorem nodes_map (f : α → β) (F : Forest α) : (F.map f).nodes = F.nodes.map f := by
  induction F with
  | nil => rfl
  | cons a s b ihs ihb => simp [ihs, ihb]

@[simp] theorem roots_map (f : α → β) (F : Forest α) : (F.map f).roots = F.roots.map f := by
  induction F with
  | nil => rfl
  | cons a s b _ ihb => simp [ihb]

theorem map_congr {f g : α → β} {F : Forest α} (h : ∀ x ∈ F.nodes, f x = g x) :
    F.map f = F.map g := by
  induction F with
  | nil => rfl
  | cons a s b ihs ihb =>
    rw [nodes_cons] at h
    rw [map_cons, map_cons, h a List.mem_cons_self,
      ihs fun x hx => h x (List.mem_cons_of_mem _ (List.mem_append_left _ hx)),
      ihb fun x hx => h x (List.mem_cons_of_mem _ (List.mem_append_right _ hx))]

theorem map_id (F : Forest α) : F.map id = F := by
  induction F with
  | nil => rfl
  | cons a s b ihs ihb => rw [map_cons, ihs, ihb, id]

/-! ## 2. Visits

A visit of the renamed forest is the visit of the forest under the new names, in the same order. -/

theorem visit_map (f : α → β) (F : Forest α) (p : α) (d : Nat) :
    (F.map f).visit (f p) d = (F.visit p d).map fun e => (f e.1, f e.2.1, e.2.2) := by
  induction F generalizing p d with
  | nil => rfl
  | cons a s b ihs ihb => simp only [map_cons, visit, ihs, ihb, List.map_cons, List.map_append]

theorem firstBelow_map (f : α → β) (F : Forest α) :
    (F.map f).firstBelow = F.firstBelow.map fun e => (f e.1, f e.2) := by
  induction F with
  | nil => rfl
  | cons a s b _ ihb =>
    rw [map_cons, firstBelow, ihb, roots_map, firstBelow]
    cases b.firstBelow with
    | some e => rfl
    | none => cases s <;> rfl

/-- Both nodes of the first descent are nodes. -/
theorem mem_of_firstBelow {F : Forest α} {e : α × α} (he : F.firstBelow = some e) :
    e.1 ∈ F.nodes ∧ e.2 ∈ F.nodes := by
  induction F with
  | nil => cases he
  | cons a s b _ ihb =>
    rw [firstBelow] at he
    rw [nodes_cons]
    cases hb : b.firstBelow with
    | some e' =>
      rw [hb] at he
      obtain rfl := Option.some.inj he
      obtain ⟨h1, h2⟩ := ihb hb
      exact ⟨List.mem_cons_of_mem _ (List.mem_append_right _ h1),
        List.mem_cons_of_mem _ (List.mem_append_right _ h2)⟩
    | none =>
      rw [hb] at he
      obtain ⟨k, hk, rfl⟩ := Option.map_eq_some_iff.mp he
      have hks := mem_nodes_of_mem_roots (List.mem_of_mem_head? hk)
      exact ⟨List.mem_cons_of_mem _ (List.mem_append_left _ hks), List.mem_cons_self⟩

/-! ## 3. Sons and edits

Here the names have to be apart: a node is looked up by its name, and under a name that two nodes
share the first of them would be found for both. -/

/-- The names of the nodes stay apart. -/
def Apart (f : α → β) (F : Forest α) : Prop := Set.InjOn f {x | x ∈ F.nodes}

section Parts

variable {f : α → β} {a : α} {s b : Forest α}

theorem Apart.root (h : Apart f (cons a s b)) {x : α} (hx : x ∈ s.nodes ∨ x ∈ b.nodes)
    (he : f a = f x) : a = x :=
  h List.mem_cons_self (List.mem_cons_of_mem _ (List.mem_append.mpr hx)) he

theorem Apart.sons (h : Apart f (cons a s b)) : Apart f s :=
  h.mono fun _ hx => List.mem_cons_of_mem _ (List.mem_append_left _ hx)

theorem Apart.brothers (h : Apart f (cons a s b)) : Apart f b :=
  h.mono fun _ hx => List.mem_cons_of_mem _ (List.mem_append_right _ hx)

end Parts

variable {f : α → β} {F : Forest α} {p d : α}

/-- Names that are apart are met by one node. -/
theorem Apart.mem_map_iff (h : Set.InjOn f {x | x = p ∨ x ∈ F.nodes}) :
    f p ∈ (F.map f).nodes ↔ p ∈ F.nodes := by
  rw [nodes_map, List.mem_map]
  constructor
  · rintro ⟨x, hx, he⟩
    rwa [h (Or.inl rfl) (Or.inr hx) he.symm]
  · intro hp
    exact ⟨p, hp, rfl⟩

section Edits

variable [DecidableEq α] [DecidableEq β]

/-- **The sons of a node under its new name.** -/
theorem sonsOf_map (h : Apart f F) (hp : p ∈ F.nodes) :
    (F.map f).sonsOf (f p) = (F.sonsOf p).map f := by
  induction F with
  | nil => cases hp
  | cons a s b ihs ihb =>
    rw [map_cons, sonsOf, sonsOf]
    by_cases ha : a = p
    · rw [if_pos (congrArg f ha), if_pos ha]
    · have hrest : p ∈ s.nodes ∨ p ∈ b.nodes :=
        List.mem_append.mp ((List.mem_cons.mp hp).resolve_left fun he => ha he.symm)
      have hfa : f a ≠ f p := fun he => ha (h.root hrest he)
      have hmem : f p ∈ (s.map f).nodes ↔ p ∈ s.nodes := by
        refine Apart.mem_map_iff (h.mono ?_)
        rintro x (rfl | hx)
        · exact hp
        · exact List.mem_cons_of_mem _ (List.mem_append_left _ hx)
      rw [if_neg hfa, if_neg ha]
      by_cases hs : p ∈ s.nodes
      · rw [if_pos (hmem.mpr hs), if_pos hs, ihs h.sons hs]
      · rw [if_neg (mt hmem.mp hs), if_neg hs, ihb h.brothers (hrest.resolve_left hs)]

/-- **A removal** takes the node under its new name. -/
theorem remove_map (h : Set.InjOn f {x | x = d ∨ x ∈ F.nodes}) :
    (F.map f).remove (f d) = (F.remove d).map f := by
  induction F with
  | nil => rfl
  | cons a s b ihs ihb =>
    have hs : Set.InjOn f {x | x = d ∨ x ∈ s.nodes} := h.mono fun x hx =>
      hx.imp_right fun hx => List.mem_cons_of_mem _ (List.mem_append_left _ hx)
    have hb : Set.InjOn f {x | x = d ∨ x ∈ b.nodes} := h.mono fun x hx =>
      hx.imp_right fun hx => List.mem_cons_of_mem _ (List.mem_append_right _ hx)
    rw [map_cons, remove, remove]
    by_cases ha : a = d
    · rw [if_pos (congrArg f ha), if_pos ha]
    · have hfa : f a ≠ f d := fun he => ha (h (Or.inr List.mem_cons_self) (Or.inl rfl) he)
      rw [if_neg hfa, if_neg ha, ihs hs, ihb hb, map_cons]

/-- **An insertion** puts the new node under its new name. -/
theorem insertUnder_map (h : Apart f F) (hp : p ∈ F.nodes) (x : α) :
    (F.map f).insertUnder (f p) (f x) = (F.insertUnder p x).map f := by
  have hall : Set.InjOn f {y | y = p ∨ y ∈ F.nodes} :=
    h.mono (by rintro y (rfl | hy) <;> assumption)
  clear h hp
  induction F with
  | nil => rfl
  | cons a s b ihs ihb =>
    have hs : Set.InjOn f {y | y = p ∨ y ∈ s.nodes} := hall.mono fun y hy =>
      hy.imp_right fun hy => List.mem_cons_of_mem _ (List.mem_append_left _ hy)
    have hb : Set.InjOn f {y | y = p ∨ y ∈ b.nodes} := hall.mono fun y hy =>
      hy.imp_right fun hy => List.mem_cons_of_mem _ (List.mem_append_right _ hy)
    rw [map_cons, insertUnder, insertUnder]
    by_cases ha : a = p
    · rw [if_pos (congrArg f ha), if_pos ha]
      rfl
    · have hfa : f a ≠ f p := fun he => ha (hall (Or.inr List.mem_cons_self) (Or.inl rfl) he)
      rw [if_neg hfa, if_neg ha, ihs hs, ihb hb, map_cons]

end Edits

section Update

variable [DecidableEq α]

/-- A new node gets a name of its own. -/
theorem Apart.update (h : Apart f F) {x : α} (hx : x ∉ F.nodes) {y : β}
    (hy : y ∉ (F.map f).nodes) : Set.InjOn (Function.update f x y) {z | z = x ∨ z ∈ F.nodes} := by
  have hne : ∀ z ∈ F.nodes, z ≠ x ∧ f z ≠ y := by
    intro z hz
    refine ⟨fun he => hx (he ▸ hz), ?_⟩
    rintro rfl
    exact hy (by rw [nodes_map]; exact List.mem_map_of_mem hz)
  rintro z (rfl | hz) w (rfl | hw) he
  · rfl
  · rw [Function.update_self, Function.update_of_ne (hne w hw).1] at he
    exact absurd he.symm (hne w hw).2
  · rw [Function.update_self, Function.update_of_ne (hne z hz).1] at he
    exact absurd he (hne z hz).2
  · rw [Function.update_of_ne (hne z hz).1, Function.update_of_ne (hne w hw).1] at he
    exact h hz hw he

theorem map_update (h : p ∉ F.nodes) (y : β) : F.map (Function.update f p y) = F.map f :=
  map_congr fun x hx => Function.update_of_ne (fun he : x = p => h (he ▸ hx)) _ _

end Update

end Zgdb.Lib.Forest
