/-
# Objects one behind another

`fwrite` in a loop, and `fread` of an array: a list of objects of one kind, each right behind the
one before it.  Reading as many objects as were written gives them back (`loadAll_storeAll`), and
nothing in front of the list changes (`storeAll_apply_nat`).
-/
import Zgdb.Lib.Memory

namespace Zgdb.Lib

open AddrSpace

variable {O α : Type} {k : Kind O α}

/-- Write the objects of a list, the first one at `p`. -/
def storeAll (k : Kind O α) (m : Mem Nat O) (p : Nat) : List α → Mem Nat O
  | [] => m
  | a :: as => storeAll k (store k m p a) (p + k.size) as

/-- Read `n` objects, the first one at `p`. -/
def loadAll [DecidableEq O] (k : Kind O α) (m : Mem Nat O) (p : Nat) : Nat → List α
  | 0 => []
  | n + 1 => load k m p :: loadAll k m (p + k.size) n

/-- The objects of a list lie intact one behind another. -/
def HoldsAll (k : Kind O α) (m : Mem Nat O) (p : Nat) : List α → Prop
  | [] => True
  | a :: as => Holds k m p a ∧ HoldsAll k m (p + k.size) as

/-- **The frame rule**: what lies in front of a list stays when the list is written. -/
theorem storeAll_apply_nat {as : List α} {m : Mem Nat O} {p x : Nat} (h : x < p) :
    storeAll k m p as x = m x := by
  induction as generalizing m p with
  | nil => rfl
  | cons a as ih =>
    rw [storeAll, ih (by omega)]
    exact store_apply_nat (Or.inl h)

theorem holdsAll_storeAll (as : List α) (m : Mem Nat O) (p : Nat) :
    HoldsAll k (storeAll k m p as) p as := by
  induction as generalizing m p with
  | nil => trivial
  | cons a as ih =>
    refine ⟨?_, ih _ _⟩
    have hstored : Holds k (store k m p a) p a := holds_store
    refine hstored.congr ?_
    intro i hi
    rw [storeAll, storeAll_apply_nat (by rw [add_nat]; omega)]

variable [DecidableEq O]

theorem HoldsAll.loadAll_eq {as : List α} {m : Mem Nat O} {p : Nat} (h : HoldsAll k m p as) :
    loadAll k m p as.length = as := by
  induction as generalizing p with
  | nil => rfl
  | cons a as ih =>
    rw [List.length_cons, loadAll, load_of_holds h.1, ih h.2]

/-- **A list that is written is read back.** -/
theorem loadAll_storeAll (as : List α) (m : Mem Nat O) (p : Nat) :
    loadAll k (storeAll k m p as) p as.length = as :=
  (holdsAll_storeAll as m p).loadAll_eq

end Zgdb.Lib
