import TensorGraph.Shape

/-!
# Scalars

What the kernels compute with. The kernels move elements around and apply the functions
named here; nothing else about the elements matters to them. Doubles are the scalars that
programs run on.

## Main results

* `combine_larger_nan` -- no number spreads through the larger of two doubles.
-/

namespace TensorGraph

/-- Functions of a single element. -/
inductive Elementwise where
  | abs | neg | exp | log | sqrt | tanh | reciprocal | floor | ceil
  | relu | sigmoid
  /-- Scales what is negative. -/
  | leakyRelu (slope : Number)
  deriving DecidableEq, Repr

/-- Functions of two elements. -/
inductive Combination where
  | add | sub | mul | div | max | min
  deriving DecidableEq, Repr

/-- Elements of tensors. -/
class Scalar (α : Type) where
  ofNumber : Number → α
  toNumber : α → Number
  apply : Elementwise → α → α
  combine : Combination → α → α → α

namespace Scalar

/-- What a kernel reads outside of the elements at hand. -/
def missing {α : Type} [Scalar α] : α := ofNumber .nan

/-- The element that sums start from. -/
def zero {α : Type} [Scalar α] : α := ofNumber (.int 0)

/-- A natural number as an element. -/
def ofNat {α : Type} [Scalar α] (n : Nat) : α := ofNumber (.ofNat n)

end Scalar

/-! ## Doubles -/

/-- The larger of two doubles. A result that is no number spreads, and of two zeros the
positive one is larger. -/
def largerFloat (x y : Float) : Float :=
  if x.isNaN || y.isNaN then 0.0 / 0.0
  else if x == 0.0 && y == 0.0 then if Binary64.signOf x.toBits then y else x
  else if x < y then y else x

/-- The smaller of two doubles, by the same rules. -/
def smallerFloat (x y : Float) : Float :=
  if x.isNaN || y.isNaN then 0.0 / 0.0
  else if x == 0.0 && y == 0.0 then if Binary64.signOf x.toBits then x else y
  else if y < x then y else x

instance : Scalar Float where
  ofNumber := Number.toFloat
  toNumber := Number.ofFloat
  apply
    | .abs, x => x.abs
    | .neg, x => -x
    | .exp, x => x.exp
    | .log, x => x.log
    | .sqrt, x => x.sqrt
    | .tanh, x => x.tanh
    | .reciprocal, x => 1.0 / x
    | .floor, x => x.floor
    | .ceil, x => x.ceil
    | .relu, x => if x > 0.0 then x else 0.0
    | .sigmoid, x => 1.0 / (1.0 + (-x).exp)
    | .leakyRelu slope, x => if x ≥ 0.0 then x else slope.toFloat * x
  combine
    | .add, x, y => x + y
    | .sub, x, y => x - y
    | .mul, x, y => x * y
    | .div, x, y => x / y
    | .max, x, y => largerFloat x y
    | .min, x, y => smallerFloat x y

theorem combine_larger_nan {x y : Float} (h : x.isNaN = true) :
    Scalar.combine .max x y = (0.0 / 0.0 : Float) := by
  show largerFloat x y = _
  simp only [largerFloat, h, Bool.true_or, if_true]

end TensorGraph
