import TensorGraph.Failure
import TensorGraph.Permutation.Checked
import TensorGraph.Shape

/-!
# Layout in doubles

Sizes, strides and offsets that nobody has checked may be negative, fractional or beyond all
bounds. The laws of layout are the same for them, but every step is rounded to a double, and
an address that is no natural number leads nowhere.

## Main results

* `Shape.length_roundedCoordinates` -- a linear index has a coordinate for each stride.
* `Shape.roundedAddress?_lt` -- an address that leads somewhere lies in the buffer.
* `Shape.measured_of_exact` -- a number of entries that is small enough at every step is
  measured exactly.
-/

namespace TensorGraph.Shape

/-- The row-major strides of a shape as doubles. -/
def roundedStrides (dims : List Number) : List Float := (strides dims).map Number.toFloat

/-- The largest whole number that is not above a double. What is not finite stays as it is. -/
def roundedDown (x : Float) : Float :=
  match (Number.real x).wholePart? with
  | none => x
  | some n =>
      let part := Float.ofInt n
      if x.isNaN || x == part then x
      else if x < part then part - 1.0
      else part

/-- The multi-index of a linear index, given row-major strides. -/
def roundedCoordinates : List Float → Float → List Float
  | [], _ => []
  | stride :: rest, remainder =>
      let coordinate := if stride == 0.0 then 0.0 else roundedDown (remainder / stride)
      coordinate :: roundedCoordinates rest (remainder - coordinate * stride)

@[simp] theorem length_roundedCoordinates (strides : List Float) (linear : Float) :
    (roundedCoordinates strides linear).length = strides.length := by
  induction strides generalizing linear with
  | nil => rfl
  | cons stride rest ih => simp [roundedCoordinates, ih]

/-- Where the element with a multi-index lies. A stride that is missing is no number, and the
place is none then. -/
def roundedPlace (offset : Float) : List Float → List Float → Float
  | [], _ => offset
  | coordinate :: rest, [] => roundedPlace (offset + coordinate * (0.0 / 0.0)) rest []
  | coordinate :: rest, stride :: strides =>
      roundedPlace (offset + coordinate * stride) rest strides

/-- The address in a buffer of some size that a double is, if it is one. -/
def roundedAddress? (size : Nat) (place : Float) : Option Nat :=
  (Number.ofFloat place).toNat?.filter fun address => address < size

theorem roundedAddress?_lt {size address : Nat} {place : Float}
    (h : roundedAddress? size place = some address) : address < size := by
  have := (Option.filter_eq_some_iff.1 h).2
  simpa using this

/-- A number as the length of a list, which has to be natural and below the limit. -/
def lengthOf (x : Number) : Except Failure Nat :=
  match x.toNat? with
  | some n => if n < Permutation.lengthLimit then .ok n else .error (.badLength x)
  | none => .error (.badLength x)

/-- A number as the length of a buffer, of which the whole part counts. -/
def bufferLengthOf (x : Number) : Except Failure Nat :=
  match x.wholePart? with
  | some n =>
      if 0 ≤ n ∧ n < Permutation.lengthLimit then .ok n.toNat else .error (.badLength x)
  | none => .error (.badLength x)

/-! ## How many entries there are -/

/-- A rounded natural number; what is too large for a double is infinite. -/
def ofRounded : Option Nat → Number
  | some n => .ofNat n
  | none => .infinity

/-- One more size multiplied into a count, in double arithmetic. -/
def measureStep (count : Number) (size : Nat) : Number :=
  match count with
  | .int n => ofRounded (roundToDouble (n.toNat * size))
  | .real x => if size = 0 then .nan else .real x

theorem ofRounded_roundToDouble (n : Nat) : ofRounded (roundToDouble n) = .ofInt n := by
  by_cases hn : n < exactRange
  · rw [roundToDouble_of_lt hn, Number.ofInt_of_small (by simpa using hn)]
    rfl
  · have hpos : ¬ (n : Int) < 0 := by omega
    unfold Number.ofInt
    rw [if_neg (by simpa using hn), Int.natAbs_natCast, if_neg hpos]
    cases roundToDouble n with
    | none => rfl
    | some m =>
        simp only [if_neg hpos]
        rfl

theorem measureStep_int (count size : Nat) :
    measureStep (.int count) size = .ofInt ((count * size : Nat) : Int) :=
  ofRounded_roundToDouble (count * size)

/-- The number of entries as it is compared with the entries at hand: the product of the
sizes, rounded to a double after each step. -/
def measured (dims : List Nat) : Number := dims.foldl measureStep (.int 1)

private theorem measured_from (dims : List Nat) (count : Nat)
    (h : ∀ k ≤ dims.length, count * size (dims.take k) < exactRange) :
    dims.foldl measureStep (.int count) = .int ((count * size dims : Nat) : Int) := by
  induction dims generalizing count with
  | nil => simp
  | cons d ds ih =>
      have hstep : count * d < exactRange := by
        have := h 1 (by simp)
        simpa using this
      have : measureStep (.int count) d = .int ((count * d : Nat) : Int) := by
        rw [measureStep_int, Number.ofInt_of_small (by rwa [Int.natAbs_natCast])]
      rw [List.foldl_cons, this, ih]
      · simp [Nat.mul_assoc]
      · intro k hk
        have := h (k + 1) (by simpa using hk)
        simpa [Nat.mul_assoc] using this

/-- As long as every product of leading sizes is in the exact range, nothing is rounded. -/
theorem measured_of_exact {dims : List Nat}
    (h : ∀ k ≤ dims.length, size (dims.take k) < exactRange) :
    measured dims = .int (size dims : Nat) := by
  have := measured_from dims 1 (by simpa using h)
  simpa [measured] using this

end TensorGraph.Shape
