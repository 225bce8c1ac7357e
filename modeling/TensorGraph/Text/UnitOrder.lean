import TensorGraph.Text.Units

/-!
# The order of 16-bit units

Sorted listings compare texts by their 16-bit code units. This differs from the
order of code points where characters beyond the basic plane are involved: their
first unit lies below the last characters of that plane.

## Main results

* `notAfter_refl` -- no list of units is after itself.
* `mem_sorted` -- sorting keeps the members.
-/

namespace TensorGraph.Text

/-- The order of two lists of units: the first difference decides, and a beginning
of a longer list comes before it. -/
def notAfter : List Nat → List Nat → Bool
  | [], _ => true
  | _ :: _, [] => false
  | x :: xs, y :: ys => x < y || (x == y && notAfter xs ys)

theorem notAfter_refl (us : List Nat) : notAfter us us = true := by
  induction us with
  | nil => rfl
  | cons u us ih => simp [notAfter, ih]

/-- Texts in the order of their units. -/
def sorted (xs : List String) : List String :=
  xs.mergeSort fun a b => notAfter (units a) (units b)

@[simp] theorem mem_sorted {x : String} {xs : List String} : x ∈ sorted xs ↔ x ∈ xs := by
  simp [sorted, List.mem_mergeSort]

end TensorGraph.Text
