/-
# A memory whose cells remember the object they are part of

A store file is read and written in whole C objects at computed positions.  This module is the
part of that discipline that knows no file format: an ADDRESS SPACE (positions with a
displacement), a memory of CELLS, each of which is the `idx`-th byte of some object, and typed
`load`/`store` at a `Kind` of object.

Loading an object that was stored whole gives that object back (`load_of_holds`), whatever the
width of its fields; loading anything else decodes the bytes the cells stand for, so an
overlapping or a misplaced store is visible and its effect is the one the layout gives.  The
frame rules are stated over `Holds`, the assertion that an object lies intact at a position.
-/
import Mathlib.Logic.Basic
import Mathlib.Data.Set.Basic

namespace Zgdb.Lib

/-! ## 1. Positions

Two spaces are wanted: the bytes of a file, where a position is a number, and a space in which every
block has bytes of its own, where nothing that is written to one block can reach another.  What is
proved over `AddrSpace` holds in both. -/

/-- Positions with a displacement: `add p n` is `n` bytes after `p`, and `disp p a` recovers `n`
when `a` lies after `p`. -/
class AddrSpace (A : Type) where
  add : A → Nat → A
  disp : A → A → Option Nat
  disp_eq_some : ∀ {p a : A} {n : Nat}, disp p a = some n ↔ add p n = a
  shift_zero : ∀ p : A, add p 0 = p
  shift_shift : ∀ (p : A) (m n : Nat), add (add p m) n = add p (m + n)

open AddrSpace

/-- The position space of a single file or of a single block: byte offsets. -/
instance : AddrSpace Nat where
  add := (· + ·)
  disp p a := if p ≤ a then some (a - p) else none
  disp_eq_some := by
    intro p a n
    by_cases h : p ≤ a
    · simp only [if_pos h, Option.some.injEq]; omega
    · simp only [if_neg h, reduceCtorEq, false_iff]; omega
  shift_zero := by intro p; rfl
  shift_shift := by intro p m n; omega

@[simp] theorem add_nat (p n : Nat) : add p n = p + n := rfl

section Space

variable {A : Type} [AddrSpace A]

@[simp] theorem disp_add (p : A) (n : Nat) : disp p (add p n) = some n :=
  disp_eq_some.mpr rfl

/-- A displacement is determined by the position it leads to. -/
theorem shift_inj {p : A} {m n : Nat} : add p m = add p n ↔ m = n := by
  constructor
  · intro h
    have hm : disp p (add p n) = some m := disp_eq_some.mpr h
    rw [disp_add] at hm
    exact (Option.some.inj hm).symm
  · rintro rfl; rfl

/-- `Apart p m q n`: the `m` bytes from `p` and the `n` bytes from `q` have no position in
common. -/
def Apart (p : A) (m : Nat) (q : A) (n : Nat) : Prop :=
  ∀ i < m, ∀ j < n, add p i ≠ add q j

theorem Apart.symm {p q : A} {m n : Nat} (h : Apart p m q n) : Apart q n p m :=
  fun j hj i hi he => h i hi j hj he.symm

theorem Apart.mono {p q : A} {m m' n n' : Nat} (h : Apart p m q n) (hm : m' ≤ m)
    (hn : n' ≤ n) : Apart p m' q n' :=
  fun i hi j hj => h i (by omega) j (by omega)

/-- Sub-ranges of two ranges that lie apart. -/
theorem Apart.sub {p q : A} {m n d e m' n' : Nat} (h : Apart p m q n) (hm : d + m' ≤ m)
    (hn : e + n' ≤ n) : Apart (add p d) m' (add q e) n' := by
  intro i hi j hj
  rw [shift_shift, shift_shift]
  exact h _ (by omega) _ (by omega)

/-- Apart from a range and from what follows it. -/
theorem Apart.append {p q : A} {m a b : Nat} (h : Apart p m q a) (h' : Apart p m (add q a) b) :
    Apart p m q (a + b) := by
  intro i hi j hj
  by_cases hja : j < a
  · exact h i hi j hja
  · have := h' i hi (j - a) (by omega)
    rwa [shift_shift, Nat.add_sub_cancel' (by omega)] at this

theorem apart_nat {p q m n : Nat} : Apart p m q n ↔ (m = 0 ∨ n = 0 ∨ p + m ≤ q ∨ q + n ≤ p) := by
  constructor
  · intro h
    by_contra hc
    simp only [not_or, not_le] at hc
    by_cases hpq : p ≤ q
    · exact h (q - p) (by omega) 0 (by omega) (by simp only [add_nat]; omega)
    · exact h 0 (by omega) (p - q) (by omega) (by simp only [add_nat]; omega)
  · intro h i hi j hj
    simp only [add_nat]
    omega

end Space

/-! ## 2. Cells, kinds of objects, load and store

A cell knows the object it belongs to and which byte of it, so that an object that was stored whole
is read back without a word on its layout.  The layout only comes in when a load meets cells of
another object: then the bytes of the cells are put together and decoded. -/

/-- One byte of memory: the `idx`-th byte of the representation of `obj`. -/
structure Cell (O : Type) where
  obj : O
  idx : Nat
deriving DecidableEq, Repr

/-- The contents of every position. -/
abbrev Mem (A O : Type) := A → Cell O

/-- A kind of object: its size, how it is tagged as an object of the memory, and what bytes that
are not one whole object of this kind are read as. -/
structure Kind (O α : Type) where
  size : Nat
  wrap : α → O
  unwrap : O → Option α
  decode : List (Cell O) → α
  size_pos : 0 < size
  unwrap_wrap : ∀ a, unwrap (wrap a) = some a

section Access

variable {A O α β : Type} [AddrSpace A] (k : Kind O α) (l : Kind O β)

/-- The object `a` lies intact at `p`. -/
def Holds (m : Mem A O) (p : A) (a : α) : Prop :=
  ∀ i < k.size, m (add p i) = ⟨k.wrap a, i⟩

instance [DecidableEq O] (m : Mem A O) (p : A) (a : α) : Decidable (Holds k m p a) :=
  inferInstanceAs (Decidable (∀ i < k.size, _))

/-- The `n` cells from `p`. -/
def cells (m : Mem A O) (p : A) (n : Nat) : List (Cell O) :=
  (List.range n).map fun i => m (add p i)

/-- `fread` of one object at `p`. -/
def load [DecidableEq O] (m : Mem A O) (p : A) : α :=
  match k.unwrap (m p).obj with
  | some a => if Holds k m p a then a else k.decode (cells m p k.size)
  | none => k.decode (cells m p k.size)

/-- `fwrite` of one object at `p`. -/
def store (m : Mem A O) (p : A) (a : α) : Mem A O := fun x =>
  match disp p x with
  | some i => if i < k.size then ⟨k.wrap a, i⟩ else m x
  | none => m x

/-- Fill `n` bytes from `p` with one cell. -/
def fill (m : Mem A O) (p : A) (n : Nat) (c : Cell O) : Mem A O := fun x =>
  match disp p x with
  | some i => if i < n then c else m x
  | none => m x

end Access

section Rules

variable {A O α β : Type} [AddrSpace A] {k : Kind O α} {l : Kind O β}
variable {m m' : Mem A O} {p q : A} {a : α} {b : β}

theorem store_apply_add (i : Nat) :
    store k m p a (add p i) = if i < k.size then ⟨k.wrap a, i⟩ else m (add p i) := by
  simp only [store, disp_add]

/-- A store changes no position outside the object. -/
theorem store_apply_of_ne {x : A} (h : ∀ i < k.size, add p i ≠ x) : store k m p a x = m x := by
  unfold store
  cases hd : disp p x with
  | none => rfl
  | some i =>
    have hx : add p i = x := disp_eq_some.mp hd
    by_cases hi : i < k.size
    · exact absurd hx (h i hi)
    · simp only [if_neg hi]

theorem fill_apply_add {n : Nat} {c : Cell O} (i : Nat) :
    fill m p n c (add p i) = if i < n then c else m (add p i) := by
  simp only [fill, disp_add]

theorem fill_apply_of_ne {n : Nat} {c : Cell O} {x : A} (h : ∀ i < n, add p i ≠ x) :
    fill m p n c x = m x := by
  unfold fill
  cases hd : disp p x with
  | none => rfl
  | some i =>
    have hx : add p i = x := disp_eq_some.mp hd
    by_cases hi : i < n
    · exact absurd hx (h i hi)
    · simp only [if_neg hi]

/-- What is stored lies intact where it was stored. -/
theorem holds_store : Holds k (store k m p a) p a := by
  intro i hi
  rw [store_apply_add, if_pos hi]

/-- **The frame rule**: an object stays intact while its own bytes do. -/
theorem Holds.congr (h : Holds k m p a) (heq : ∀ i < k.size, m' (add p i) = m (add p i)) :
    Holds k m' p a :=
  fun i hi => (heq i hi).trans (h i hi)

/-- Storing an object where it lies already changes nothing. -/
theorem store_of_holds (h : Holds k m p a) : Lib.store k m p a = m := by
  funext x
  unfold Lib.store
  cases hd : disp p x with
  | none => rfl
  | some i =>
    simp only
    split
    · rename_i hi
      rw [← disp_eq_some.mp hd, h i hi]
    · rfl

theorem Holds.store (h : Holds k m p a) (hap : Apart p k.size q l.size) :
    Holds k (store l m q b) p a :=
  h.congr fun i hi => store_apply_of_ne fun j hj => (hap i hi j hj).symm

theorem Holds.fill {n : Nat} {c : Cell O} (h : Holds k m p a) (hap : Apart p k.size q n) :
    Holds k (fill m q n c) p a :=
  h.congr fun i hi => fill_apply_of_ne fun j hj => (hap i hi j hj).symm

theorem cells_congr {n : Nat} (h : ∀ i < n, m' (add p i) = m (add p i)) :
    cells m' p n = cells m p n :=
  List.map_congr_left fun i hi => h i (List.mem_range.mp hi)

variable [DecidableEq O]

/-- **Loading gives back the object that lies there.** -/
theorem load_of_holds (h : Holds k m p a) : load k m p = a := by
  have h0 : (m p).obj = k.wrap a := by rw [← shift_zero p, h 0 k.size_pos]
  simp only [load, h0, k.unwrap_wrap, if_pos h]

/-- A load depends on nothing but the bytes of the object it reads. -/
theorem load_congr (h : ∀ i < k.size, m' (add p i) = m (add p i)) :
    load k m' p = load k m p := by
  have h0 : m' p = m p := by simpa only [shift_zero] using h 0 k.size_pos
  have hH : ∀ a, Holds k m' p a ↔ Holds k m p a := fun a =>
    ⟨fun hh => hh.congr fun i hi => (h i hi).symm, fun hh => hh.congr h⟩
  simp only [load, h0, hH, cells_congr h]

end Rules

/-! ## 3. A block as a memory of its own

The bytes of a block, seen from its start, form a memory over displacements, and every access to
the block is the same access to that view. -/

section View

variable {A O α : Type} [AddrSpace A] {k : Kind O α}

/-- The memory as seen from `p`. -/
def view (m : Mem A O) (p : A) : Mem Nat O := fun d => m (add p d)

theorem view_apply (m : Mem A O) (p : A) (d : Nat) : view m p d = m (add p d) := rfl

theorem disp_add_add (p : A) (d e : Nat) : disp (add p d) (add p e) = disp d e := by
  have h : ∀ n, disp (add p d) (add p e) = some n ↔ disp d e = some n := by
    intro n
    rw [disp_eq_some, disp_eq_some, shift_shift, shift_inj, add_nat]
  cases hd : disp (add p d) (add p e) with
  | some n => exact ((h n).mp hd).symm
  | none =>
    cases he : disp d e with
    | none => rfl
    | some n => rw [(h n).mpr he] at hd; cases hd

/-- **A store to a block is a store to its view.** -/
theorem view_store (m : Mem A O) (p : A) (d : Nat) (a : α) :
    view (store k m (add p d) a) p = store k (view m p) d a := by
  funext e
  simp only [view_apply, store, disp_add_add]

theorem view_fill (m : Mem A O) (p : A) (d n : Nat) (c : Cell O) :
    view (fill m (add p d) n c) p = fill (view m p) d n c := by
  funext e
  simp only [view_apply, fill, disp_add_add]

/-- A store that lies apart from the first `n` bytes of a block does not change them. -/
theorem view_store_of_apart {m : Mem A O} {p q : A} {n : Nat} {a : α} (h : Apart p n q k.size)
    {e : Nat} (he : e < n) : view (store k m q a) p e = view m p e :=
  store_apply_of_ne fun i hi => (h e he i hi).symm

theorem view_fill_of_apart {m : Mem A O} {p q : A} {n n' : Nat} {c : Cell O}
    (h : Apart p n q n') {e : Nat} (he : e < n) : view (fill m q n' c) p e = view m p e :=
  fill_apply_of_ne fun i hi => (h e he i hi).symm

theorem cells_view (m : Mem A O) (p : A) (d n : Nat) : cells (view m p) d n = cells m (add p d) n :=
  List.map_congr_left fun i _ => by rw [view_apply, shift_shift, add_nat]

variable [DecidableEq O]

/-- **A load from a block is a load from its view.** -/
theorem load_view (m : Mem A O) (p : A) (d : Nat) : load k (view m p) d = load k m (add p d) := by
  have hH : ∀ a, Holds k (view m p) d a ↔ Holds k m (add p d) a := by
    intro a
    unfold Holds
    simp only [view_apply, shift_shift, add_nat]
  simp only [load, hH, cells_view]
  rfl

end View

/-! ## 4. Stores inside one block -/

section Local

variable {O α β : Type} {k : Kind O α} {l : Kind O β} {m m' : Mem Nat O} {d e : Nat} {a : α} {b : β}

/-- An object at a displacement survives a store that does not overlap it. -/
theorem Holds.store_nat (h : Holds k m d a) (hap : d + k.size ≤ e ∨ e + l.size ≤ d) :
    Holds k (Lib.store l m e b) d a :=
  h.store (apart_nat.mpr (by omega))

theorem Holds.fill_nat {n : Nat} {c : Cell O} (h : Holds k m d a)
    (hap : d + k.size ≤ e ∨ e + n ≤ d) : Holds k (Lib.fill m e n c) d a :=
  h.fill (apart_nat.mpr (by omega))

theorem store_apply_nat {x : Nat} (h : x < d ∨ d + k.size ≤ x) : store k m d a x = m x :=
  store_apply_of_ne fun i hi he => by rw [add_nat] at he; omega

theorem fill_apply_nat {n x : Nat} {c : Cell O} (h : x < d ∨ d + n ≤ x) : fill m d n c x = m x :=
  fill_apply_of_ne fun i hi he => by rw [add_nat] at he; omega

/-- Two memories that agree on a range hold the same objects in it. -/
theorem Holds.of_eqOn {lo hi : Nat} (h : Holds k m d a) (hlo : lo ≤ d) (hhi : d + k.size ≤ hi)
    (heq : ∀ x, lo ≤ x → x < hi → m' x = m x) : Holds k m' d a :=
  h.congr fun i hi' => heq _ (by rw [add_nat]; omega) (by rw [add_nat]; omega)

end Local

end Zgdb.Lib
