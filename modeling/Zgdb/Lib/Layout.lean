/-
# Blocks that lie apart

A `Layout` names some blocks of a memory, each with its start and its length, so that no two of
them overlap.  Under a layout a write inside one block is invisible in every other one
(`Layout.store_other`), and what a piece of code changes is a set of pairs (block, displacement):
`Layout.Only m m' W` says that nothing outside `W` changed.  Its rules compose such statements
and carry `Holds` across them.
-/
import Zgdb.Lib.Memory

namespace Zgdb.Lib

open AddrSpace

/-- Blocks with their starts and lengths, pairwise apart. -/
structure Layout (A : Type) [AddrSpace A] where
  mem : Nat → Prop
  pos : Nat → A
  len : Nat → Nat
  apart : ∀ {j k : Nat}, mem j → mem k → j ≠ k → Apart (pos j) (len j) (pos k) (len k)

namespace Layout

variable {A O α β : Type} [AddrSpace A] {K : Kind O α} {m m' m'' : Mem A O}

/-- The bytes of block `k`, by displacement. -/
def block (L : Layout A) (m : Mem A O) (k : Nat) : Mem Nat O := view m (L.pos k)

/-- Only the pairs (block, displacement) in `W` changed. -/
def Only (L : Layout A) (m m' : Mem A O) (W : Nat → Nat → Prop) : Prop :=
  ∀ k, L.mem k → ∀ d < L.len k, ¬ W k d → L.block m' k d = L.block m k d

/-- The pairs of one block in a range of displacements. -/
def span (k lo hi : Nat) : Nat → Nat → Prop := fun j d => j = k ∧ lo ≤ d ∧ d < hi

variable {L : Layout A} {W W' : Nat → Nat → Prop}

theorem only_refl : L.Only m m W := fun _ _ _ _ _ => rfl

theorem Only.trans (h : L.Only m m' W) (h' : L.Only m' m'' W') :
    L.Only m m'' fun k d => W k d ∨ W' k d := fun k hk d hd hw =>
  (h' k hk d hd fun hw' => hw (Or.inr hw')).trans (h k hk d hd fun hw' => hw (Or.inl hw'))

theorem Only.mono (h : L.Only m m' W) (hw : ∀ k d, W k d → W' k d) : L.Only m m' W' :=
  fun k hk d hd hn => h k hk d hd fun hw' => hn (hw k d hw')

/-- Two changes inside one set. -/
theorem Only.comp (h : L.Only m m' W) (h' : L.Only m' m'' W) : L.Only m m'' W :=
  (h.trans h').mono fun _ _ hw => hw.elim id id

theorem block_store (k d : Nat) (a : α) :
    L.block (store K m (add (L.pos k) d) a) k = store K (L.block m k) d a :=
  view_store _ _ _ _

/-- **A store inside one block is invisible in the others.** -/
theorem store_other {j k d : Nat} {a : α} (hj : L.mem j) (hk : L.mem k) (hjk : j ≠ k)
    (hd : d + K.size ≤ L.len k) {e : Nat} (he : e < L.len j) :
    L.block (store K m (add (L.pos k) d) a) j e = L.block m j e := by
  have hap : Apart (add (L.pos j) 0) (L.len j) (add (L.pos k) d) K.size :=
    (L.apart hj hk hjk).sub (by omega) hd
  rw [shift_zero] at hap
  exact view_store_of_apart hap he

theorem only_store {k d : Nat} {a : α} (hk : L.mem k) (hd : d + K.size ≤ L.len k) :
    L.Only m (store K m (add (L.pos k) d) a) (span k d (d + K.size)) := by
  intro j hj e he hw
  by_cases hjk : j = k
  · subst hjk
    rw [block_store]
    exact store_apply_nat (by unfold span at hw; omega)
  · exact store_other hj hk hjk hd he

theorem holds_block_store (k d : Nat) (a : α) :
    Holds K (L.block (store K m (add (L.pos k) d) a) k) d a := by
  rw [block_store]
  exact holds_store

/-- Some blocks of a layout, and as block `i` one byte outside of them. -/
def withByte (L : Layout A) (S : Nat → Prop) (i : Nat) (a : A) (hmem : ∀ j, S j → L.mem j)
    (hout : ∀ j, S j → ∀ d < L.len j, add (L.pos j) d ≠ a) : Layout A where
  mem j := S j ∧ j ≠ i ∨ j = i
  pos j := if j = i then a else L.pos j
  len j := if j = i then 1 else L.len j
  apart := by
    have hbyte : ∀ j, S j → Apart (L.pos j) (L.len j) a 1 := by
      intro j hj d hd e he h
      obtain rfl : e = 0 := by omega
      rw [shift_zero] at h
      exact hout j hj d hd h
    intro j k hj hk hjk
    by_cases hji : j = i
    · obtain ⟨hk, hki⟩ := hk.resolve_right fun h => hjk (hji.trans h.symm)
      rw [if_pos hji, if_pos hji, if_neg hki, if_neg hki]
      exact (hbyte k hk).symm
    · have hj := (hj.resolve_right hji).1
      rw [if_neg hji, if_neg hji]
      by_cases hki : k = i
      · rw [if_pos hki, if_pos hki]
        exact hbyte j hj
      · rw [if_neg hki, if_neg hki]
        exact L.apart (hmem j hj) (hmem k (hk.resolve_right hki).1) hjk

end Layout

end Zgdb.Lib
