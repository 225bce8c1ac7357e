import TensorGraph.Tensor.Elementwise

/-!
# Reductions

Sums and means along axes. The elements are visited in row-major order, and each is added
to the cell of the result that agrees with it on the axes that are kept.

## Main results

* `Tensor.keptShape_length` -- a reduced axis has size one before it is dropped.
-/

namespace TensorGraph.Tensor

variable {α : Type} [Scalar α]

/-- Which axes a reduction goes along, and whether they stay with size one. -/
structure ReduceOptions where
  /-- All of them if none are given. -/
  axes : Option (List (Option Number)) := none
  keepDims : Bool := true

/-- The axes that numbers name; a negative number counts from the last axis. A number that is
missing names none. -/
def axesOf (rank : Nat) (axes : List (Option Number)) : Except Failure (List Nat) :=
  axes.mapM fun axis =>
    match axis.bind fun x => axisIndex? x rank with
    | some i => .ok i
    | none => .error (.axisOutOfRange axis (Number.ofNat rank))

/-- The shape with reduced axes of size one. -/
def keptShape {δ : Type} [Extent δ] (shape : List δ) (reduced : List Nat) : List δ :=
  shape.zipIdx.map fun (d, axis) => if reduced.contains axis then Extent.one else d

/-- What belongs to the axes that are not reduced. -/
def onKeptAxes {δ : Type} (xs : List δ) (reduced : List Nat) : List δ :=
  (xs.zipIdx.filter fun (_, axis) => !reduced.contains axis).map (·.1)

/-- The shape of the result of a reduction. -/
def reducedShape {δ : Type} [Extent δ] (keepDims : Bool) (shape : List δ) (reduced : List Nat) :
    List δ :=
  if keepDims then keptShape shape reduced else onKeptAxes shape reduced

@[simp] theorem keptShape_length {δ : Type} [Extent δ] (shape : List δ) (reduced : List Nat) :
    (keptShape shape reduced).length = shape.length := by
  simp [keptShape]

/-- The cell of the result that an element is added to. -/
def targetCell (shape reduced : List Nat) (linear : Nat) : Nat :=
  let index := (coordinates (Shape.strides shape) linear).zipIdx.map fun (i, axis) =>
    if reduced.contains axis then 0 else i
  Shape.distance index (Shape.strides (keptShape shape reduced))

/-- The axes that a reduction goes along. -/
def ReduceOptions.reduced (options : ReduceOptions) (rank : Nat) : Except Failure (List Nat) :=
  match options.axes with
  | none => .ok (List.range rank)
  | some axes => axesOf rank axes

/-- The sum along axes. -/
def sum (t : Tensor α) (options : ReduceOptions) : Except Failure (Tensor α) := do
  let reduced ← options.reduced t.rank
  let shape := reducedShape options.keepDims t.shape reduced
  let cells := (List.range t.size).foldl
    (fun (cells : Array α) linear =>
      cells.modify (targetCell t.shape reduced linear) fun total =>
        Scalar.combine .add total (t.entry linear))
    (Array.replicate (Shape.size shape) Scalar.zero)
  return packed t.dtype shape cells

/-- The mean along axes: the sum over the number of elements that went into it. -/
def mean (t : Tensor α) (options : ReduceOptions) : Except Failure (Tensor α) := do
  let total ← t.sum options
  let count := if total.size = 0 then 0 else t.size / total.size
  return total.map fun x => Scalar.combine .div x (Scalar.ofNat count)

end TensorGraph.Tensor
