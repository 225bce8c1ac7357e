import TensorGraph.Tensor.Elementwise
import TensorGraph.Tensor.Reduction
import TensorGraph.Tensor.Slices

/-!
# Operands

What kernels take and yield. The kernels of operators are stated over the operations named
here, so they run on tensors and on any other kind of value that offers the same.
-/

namespace TensorGraph

/-- What kernels do with the values that they are given. -/
class Operand (V : Type) where
  ofLiteral : Literal → Except Failure V
  /-- A value with a single element. -/
  scalar : DType → Number → V
  rank : V → Except Failure Nat
  /-- The elements in row-major order, as far as they are there. -/
  elements : V → Except Failure (List (Option Number))
  /-- The only element of a value, which is called by a text when it has more or none. -/
  single : V → String → Except Failure Number
  apply : Elementwise → V → Except Failure V
  combine : Combination → V → V → Except Failure V
  permute : V → List Number → Except Failure V
  contiguous : V → Except Failure V
  /-- The sizes of the axes. -/
  sizes : V → Except Failure V
  take : V → V → Except Failure V
  concat : List V → Number → Except Failure V
  sum : V → Tensor.ReduceOptions → Except Failure V
  mean : V → Tensor.ReduceOptions → Except Failure V
  /-- What an input of some name reads when it is fed nothing. -/
  unfed : String → Option V

namespace Tensor

variable {α : Type} [Scalar α]

/-- The single element of a tensor. -/
def single (t : Tensor α) (what : String) : Except Failure α :=
  if t.size = 1 then .ok (t.entry 0) else .error (.notSingle what (t.shape.map .ofNat))

/-- The tensor that a literal stands for. -/
def ofLiteral (l : Literal) : Except Failure (Tensor α) :=
  ofNumbers l.dtype l.dims (l.data.map Scalar.ofNumber).toArray

instance : Operand (Tensor α) where
  ofLiteral := ofLiteral
  scalar dtype x := .scalar dtype (Scalar.ofNumber x)
  rank t := .ok t.rank
  elements t := .ok (t.entries.toList.map fun x => some (Scalar.toNumber x))
  single t what := (t.single what).map Scalar.toNumber
  apply f t := .ok (t.apply f)
  combine := combine
  permute := permute
  contiguous t := .ok t.contiguous
  sizes t := .ok t.sizes
  take := take
  concat := concat
  sum := sum
  mean := mean
  unfed _ := none

end Tensor

end TensorGraph
