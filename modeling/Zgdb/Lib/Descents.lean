/-
# Picking downwards, step by step

A step picks some of what is below an element, and the next step starts from each of these picks, so
an end of the last step is listed once for every way to it.  Where everything above an element
stands in one line, an end is listed twice exactly if one step picks two elements, one below the
other, and the steps behind it lead from both to that end (`Descending.nodup_descents`).
-/
import Mathlib.Data.List.Lattice
import Mathlib.Data.List.Nodup
import Mathlib.Data.List.Pairwise

namespace Zgdb.Lib

section Descents

variable {σ α : Type} (pick : σ → α → List α)

/-! ## 1. Ends and ways

A way picks one element for each step.  The list of the ends has an element once for each way to it,
so whether the list has duplicates is a question about ways. -/

/-- The ends of the steps from `p` on, one for every way. -/
def descents : List σ → α → List α
  | [], p => [p]
  | s :: ss, p => (pick s p).flatMap (descents ss)

/-- The steps lead from `p` to `k`. -/
def LeadsTo : List σ → α → α → Prop
  | [], p, k => p = k
  | s :: ss, p, k => ∃ a ∈ pick s p, LeadsTo ss a k

/-- A step picks two elements, one below the other, and the steps behind it lead from both to one
end. -/
def Rejoins (below : α → α → Prop) : List σ → α → Prop
  | [], _ => False
  | s :: ss, p =>
    (∃ a ∈ pick s p, ∃ b ∈ pick s p, below a b ∧ ∃ k, LeadsTo pick ss a k ∧ LeadsTo pick ss b k) ∨
      ∃ a ∈ pick s p, Rejoins below ss a

/-- A step, but not the last, picks two elements, one below the other, and the steps behind it lead
on from the lower one. -/
def Nests (below : α → α → Prop) : List σ → α → Prop
  | [], _ => False
  | s :: ss, p =>
    (ss ≠ [] ∧ ∃ a ∈ pick s p, ∃ b ∈ pick s p, below a b ∧ ∃ k, LeadsTo pick ss b k) ∨
      ∃ a ∈ pick s p, Nests below ss a

variable {pick}

theorem mem_descents {ss : List σ} {p k : α} : k ∈ descents pick ss p ↔ LeadsTo pick ss p k := by
  induction ss generalizing p with
  | nil => exact List.mem_singleton.trans eq_comm
  | cons s ss ih => simp only [descents, LeadsTo, List.mem_flatMap, ih]

/-! ## 2. Ends that are listed twice

Two ways to one end part at some step: up to it they picked the same elements, and there two
different ones.  As both are above the end, one of them is above the other. -/

/-- Different elements are listed apart. -/
theorem nodup_flatMap_iff {β : Type} {l : List α} {f : α → List β} (hl : l.Nodup) :
    (l.flatMap f).Nodup ↔ (∀ a ∈ l, (f a).Nodup) ∧
      ∀ a ∈ l, ∀ b ∈ l, a ≠ b → List.Disjoint (f a) (f b) := by
  rw [List.nodup_flatMap]
  refine and_congr_right fun _ => ⟨?_, hl.pairwise_of_forall_ne⟩
  intro hpair
  have hsymm : Std.Symm (fun a b => List.Disjoint (f a) (f b)) := ⟨fun a b hd => hd.symm⟩
  exact fun a ha b hb => hpair.forall ha hb

/-- The steps pick, each element once, from what is below, and what is above an element stands in
one line; all of this for the elements in `dom`. -/
structure Descending (pick : σ → α → List α) (below : α → α → Prop) (dom : α → Prop) : Prop where
  picked : ∀ s p, dom p → ∀ a ∈ pick s p, dom a ∧ below p a
  nodup : ∀ s p, dom p → (pick s p).Nodup
  trans : ∀ a b c, below a b → below b c → below a c
  irrefl : ∀ a, dom a → ¬ below a a
  line : ∀ a b k, dom a → dom b → below a k → below b k → a = b ∨ below a b ∨ below b a

variable {below : α → α → Prop} {dom : α → Prop}

namespace Descending

/-- The end of a step or more is below. -/
theorem below_end (h : Descending pick below dom) {s : σ} {ss : List σ} {p k : α} (hp : dom p)
    (hk : LeadsTo pick (s :: ss) p k) : below p k := by
  induction ss generalizing s p with
  | nil =>
    obtain ⟨a, ha, rfl⟩ := hk
    exact (h.picked s p hp a ha).2
  | cons t ss ih =>
    obtain ⟨a, ha, hrest⟩ := hk
    obtain ⟨hda, hpa⟩ := h.picked s p hp a ha
    exact h.trans p a k hpa (ih hda hrest)

/-- Two elements that lead to one end are the same, or one is below the other. -/
theorem comparable (h : Descending pick below dom) {ss : List σ} {a b k : α} (ha : dom a)
    (hb : dom b) (hak : LeadsTo pick ss a k) (hbk : LeadsTo pick ss b k) :
    a = b ∨ below a b ∨ below b a := by
  cases ss with
  | nil => exact Or.inl (Eq.trans hak (Eq.symm hbk))
  | cons s ss => exact h.line a b k ha hb (h.below_end ha hak) (h.below_end hb hbk)

/-- **An end is listed twice** exactly if two ways to it leave one element, one of them over an
element below one of the other. -/
theorem nodup_descents (h : Descending pick below dom) {ss : List σ} {p : α} (hp : dom p) :
    (descents pick ss p).Nodup ↔ ¬ Rejoins pick below ss p := by
  induction ss generalizing p with
  | nil => simp [descents, Rejoins]
  | cons s ss ih =>
    have hda : ∀ a ∈ pick s p, dom a := fun a ha => (h.picked s p hp a ha).1
    rw [descents, nodup_flatMap_iff (h.nodup s p hp), Rejoins, not_or]
    constructor
    · rintro ⟨hnodup, hapart⟩
      refine ⟨?_, ?_⟩
      · rintro ⟨a, ha, b, hb, hab, k, hak, hbk⟩
        have hne : a ≠ b := by
          rintro rfl
          exact h.irrefl a (hda a ha) hab
        exact hapart a ha b hb hne (mem_descents.mpr hak) (mem_descents.mpr hbk)
      · rintro ⟨a, ha, hre⟩
        exact (ih (hda a ha)).mp (hnodup a ha) hre
    · rintro ⟨hapart, hrest⟩
      refine ⟨fun a ha => (ih (hda a ha)).mpr fun hre => hrest ⟨a, ha, hre⟩, ?_⟩
      intro a ha b hb hne k hka hkb
      have hak := mem_descents.mp hka
      have hbk := mem_descents.mp hkb
      rcases h.comparable (hda a ha) (hda b hb) hak hbk with hab | hab | hba
      · exact hne hab
      · exact hapart ⟨a, ha, b, hb, hab, k, hak, hbk⟩
      · exact hapart ⟨b, hb, a, ha, hba, k, hbk, hak⟩

/-- Where a step picks from an element all that it picks from those below, it is enough that the
lower pick leads on. -/
theorem rejoins_iff (h : Descending pick below dom) {ss : List σ}
    (hmono : ∀ s ∈ ss, ∀ a b, dom a → below a b → pick s b ⊆ pick s a) {p : α} (hp : dom p) :
    Rejoins pick below ss p ↔ Nests pick below ss p := by
  induction ss generalizing p with
  | nil => exact Iff.rfl
  | cons s ss ih =>
    have hda : ∀ a ∈ pick s p, dom a := fun a ha => (h.picked s p hp a ha).1
    have hmono' : ∀ t ∈ ss, ∀ a b, dom a → below a b → pick t b ⊆ pick t a :=
      fun t ht => hmono t (List.mem_cons_of_mem _ ht)
    rw [Rejoins, Nests]
    refine or_congr ⟨?_, ?_⟩ ?_
    · rintro ⟨a, ha, b, hb, hab, k, hak, hbk⟩
      refine ⟨?_, a, ha, b, hb, hab, k, hbk⟩
      rintro rfl
      obtain rfl : a = b := Eq.trans hak (Eq.symm hbk)
      exact h.irrefl a (hda a ha) hab
    · rintro ⟨hne, a, ha, b, hb, hab, k, hbk⟩
      refine ⟨a, ha, b, hb, hab, k, ?_, hbk⟩
      cases ss with
      | nil => exact absurd rfl hne
      | cons t ss =>
        obtain ⟨c, hc, hck⟩ := hbk
        exact ⟨c, hmono t (by simp) a b (hda a ha) hab hc, hck⟩
    · exact exists_congr fun a => and_congr_right fun ha => ih hmono' (hda a ha)

end Descending

end Descents

end Zgdb.Lib
