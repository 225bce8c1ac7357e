import TensorGraph.Shape.Rounded
import TensorGraph.Tensor.Reduction
import TensorGraph.Tensor.Slices

/-!
# Loose tensors

A tensor whose sizes, strides and offset nobody has checked: they are any numbers, and there
may be fewer strides than axes. It is laid out in doubles, so sizes such as minus one, or a
half and four, describe buffers too. Each operation has its laws from the one on tensors
with natural sizes; in addition it is refused when a buffer cannot be as long as the sizes
say, or when what is computed does not fill it.

## Main results

* `LooseTensor.size_ofParts` -- a tensor that is put together has as many elements as its
  sizes say.
* `LooseTensor.length_permuteBy` -- a permuted view has a size for each axis named.
-/

namespace TensorGraph

/-- A view of a buffer with sizes, strides and an offset that are any numbers. -/
structure LooseTensor (α : Type) where
  dtype : DType
  shape : List Number
  strides : List Number
  offset : Number
  data : Array α

namespace LooseTensor

variable {α : Type}

/-! ## Elements -/

/-- The number of elements that the sizes say. -/
def size (t : LooseTensor α) : Number := Shape.size t.shape

/-- A tensor with its elements in row-major order in a buffer of its own. -/
def packed (dtype : DType) (shape : List Number) (data : Array α) : LooseTensor α :=
  { dtype, shape, strides := Shape.strides shape, offset := .int 0, data }

/-- A packed tensor of elements, of which there must be as many as the sizes say. -/
def ofParts (dtype : DType) (shape : List Number) (data : Array α) :
    Except Failure (LooseTensor α) :=
  if (Shape.size shape).same (.ofNat data.size) then .ok (packed dtype shape data)
  else .error (.dataLength data.size shape)

theorem size_ofParts {dtype : DType} {shape : List Number} {data : Array α} {t : LooseTensor α}
    (h : ofParts dtype shape data = .ok t) : t.size.same (.ofNat t.data.size) = true := by
  unfold ofParts at h
  split at h
  · obtain rfl := Except.ok.inj h
    assumption
  · cases h

/-- The element with a linear index, if it lies in the buffer. -/
def at? (t : LooseTensor α) (linear : Nat) : Option α :=
  let index := Shape.roundedCoordinates (Shape.roundedStrides t.shape) (Float.ofNat linear)
  let place := Shape.roundedPlace t.offset.toFloat index (t.strides.map Number.toFloat)
  (Shape.roundedAddress? t.data.size place).bind fun address => t.data[address]?

/-- The elements in row-major order. They can be listed when there may be a list of that
length. -/
def elements (t : LooseTensor α) : Except Failure (List (Option α)) :=
  (Shape.lengthOf t.size).map fun count => (List.range count).map t.at?

/-! ## Views -/

/-- Whether strides are those that are expected, where there is more than one element along
the axis. -/
def stridesAgree : List Number → List Number → List Number → Bool
  | d :: dims, [], _ :: expected => d.same (.int 1) && stridesAgree dims [] expected
  | d :: dims, stride :: strides, e :: expected =>
      (d.same (.int 1) || stride.same e) && stridesAgree dims strides expected
  | _, _, _ => true

/-- Whether the elements lie in row-major order from the offset on. -/
def isContiguous (t : LooseTensor α) : Bool :=
  stridesAgree t.shape t.strides (Shape.strides t.shape)

/-- The view whose axis `i` is the axis `p[i]`. -/
def permuteBy (t : LooseTensor α) (p : List Nat) : LooseTensor α :=
  { t with
    shape := p.map fun axis => t.shape.getD axis .nan
    strides := p.map fun axis => t.strides.getD axis .nan }

@[simp] theorem length_permuteBy (t : LooseTensor α) (p : List Nat) :
    (t.permuteBy p).shape.length = p.length := by
  simp [permuteBy]

/-- The view with its axes permuted by numbers, which must name each axis once. -/
def permute (t : LooseTensor α) (perm : List Number) : Except Failure (LooseTensor α) :=
  let rank := t.shape.length
  if perm.length = rank then (Tensor.distinctAxes rank [] perm).map t.permuteBy
  else .error (.permuteLength perm.length rank)

/-- The strides of a view stretched to a target shape of the same rank: an axis of size one
is repeated. -/
def stretchedStrides : List Number → List Number → List Number → Except Failure (List Number)
  | d :: dims, strides, target :: targets =>
      if d.same target then
        (stretchedStrides dims (strides.drop 1) targets).map (strides.headD .nan :: ·)
      else if d.same (.int 1) then
        (stretchedStrides dims (strides.drop 1) targets).map (.int 0 :: ·)
      else .error .stretchShape
  | _, _, _ => .ok []

/-- The view stretched to a target shape, axes aligned at the innermost end. -/
def stretchTo (t : LooseTensor α) (target : List Number) : Except Failure (LooseTensor α) :=
  let agree := t.shape.length == target.length && (t.shape.zip target).all fun (d, e) => d.same e
  if agree then .ok t
  else if target.length < t.shape.length then .error .stretchRank
  else
    let added := target.length - t.shape.length
    (stretchedStrides t.shape t.strides (target.drop added)).map fun strides =>
      { t with shape := target, strides := List.replicate added (.int 0) ++ strides }

/-! ## Contents -/

variable [Scalar α]

/-- The element with a linear index as a kernel reads it. -/
def entry (t : LooseTensor α) (linear : Nat) : α := (t.at? linear).getD Scalar.missing

/-- All elements in row-major order as kernels read them. -/
def entries (t : LooseTensor α) : Except Failure (List α) :=
  t.elements.map fun found => found.map fun x => x.getD Scalar.missing

/-- A packed tensor that is filled by linear index. -/
def filled (dtype : DType) (shape : List Number) (f : Nat → α) :
    Except Failure (LooseTensor α) := do
  let count ← Shape.bufferLengthOf (Shape.size shape)
  ofParts dtype shape ((Array.range count).map f)

/-- The same elements in a contiguous tensor: the tensor itself if it is contiguous, and a
copy otherwise. -/
def contiguous (t : LooseTensor α) : Except Failure (LooseTensor α) :=
  if t.isContiguous then .ok t else filled t.dtype t.shape t.entry

/-! ## Element by element -/

/-- The tensor with a function applied to each element. -/
def map (t : LooseTensor α) (f : α → α) : Except Failure (LooseTensor α) :=
  filled t.dtype t.shape fun linear => f (t.entry linear)

/-- The elements of two tensors, stretched to their common shape, combined by a
function. -/
def zipWith (f : α → α → α) (a b : LooseTensor α) : Except Failure (LooseTensor α) :=
  match Shape.broadcast? a.shape b.shape with
  | none => .error (.cannotBroadcast a.shape b.shape)
  | some shape => do
      let left ← a.stretchTo shape
      let right ← b.stretchTo shape
      filled a.dtype shape fun i => f (left.entry i) (right.entry i)

/-! ## Reductions -/

/-- The cell of the result that an element is added to, if there is one. -/
def targetCell? (shape : List Number) (reduced : List Nat) (count linear : Nat) : Option Nat :=
  let index := Shape.roundedCoordinates (Shape.roundedStrides shape) (Float.ofNat linear)
  let strides := Shape.roundedStrides (Tensor.keptShape shape reduced)
  Shape.roundedAddress? count
    (Shape.roundedPlace 0.0 (Tensor.onKeptAxes index reduced) (Tensor.onKeptAxes strides reduced))

/-- The sum along axes. -/
def sum (t : LooseTensor α) (options : Tensor.ReduceOptions) : Except Failure (LooseTensor α) := do
  let reduced ← options.reduced t.shape.length
  let shape := Tensor.reducedShape options.keepDims t.shape reduced
  let count ← Shape.bufferLengthOf (Shape.size shape)
  let cells := (List.range t.size.naturalsBelow).foldl
    (fun (cells : Array α) linear =>
      match targetCell? t.shape reduced count linear with
      | none => cells
      | some cell => cells.modify cell fun total => Scalar.combine .add total (t.entry linear))
    (Array.replicate count Scalar.zero)
  ofParts t.dtype shape cells

/-- The mean along axes: the sum over the number of elements that went into it. -/
def mean (t : LooseTensor α) (options : Tensor.ReduceOptions) : Except Failure (LooseTensor α) := do
  let total ← t.sum options
  let count := if total.size.same (.int 0) then .int 0 else t.size.dividedBy total.size
  total.map fun x => Scalar.combine .div x (Scalar.ofNumber count)

/-! ## Slices -/

/-- The border of a buffer that a number stands for. -/
def border (size : Nat) (address : Number) : Nat :=
  match address.wholePart? with
  | some n => Tensor.border size n
  | none => if address.below (.int 0) then 0 else size

/-- The elements between two borders of the buffer, counted from the offset. -/
def between (t : LooseTensor α) (start stop : Number) : Array α :=
  let place (x : Number) := border t.data.size (t.offset.plus x)
  t.data.extract (place start) (place stop)

/-- A buffer with a run of elements written into it at a place, where the run must fit. -/
def overwrite (buffer : Array α) (place : Number) (run : Array α) : Except Failure (Array α) :=
  match place.wholePart? with
  | some (.ofNat start) =>
      if start + run.size ≤ buffer.size then
        .ok (buffer.extract 0 start ++ run ++ buffer.extract (start + run.size) buffer.size)
      else .error (.badLength place)
  | _ => .error (.badLength place)

/-- Whether two shapes agree on all axes but one. -/
def agreeOff (axis : Nat) (a b : List Number) : Bool :=
  a.length == b.length &&
    ((a.zip b).zipIdx).all fun ((x, y), i) => i == axis || x.same y

/-- The axis that tensors are joined along; off it their shapes must agree. -/
def joinAxis (tensors : List (LooseTensor α)) (axis : Number) : Except Failure Nat :=
  match tensors with
  | [] => .error .concatNothing
  | first :: _ =>
      match axisIndex? axis first.shape.length with
      | none => .error (.axisOutOfRange axis (Number.ofNat first.shape.length))
      | some dim =>
          match tensors.find? fun t => !agreeOff dim t.shape first.shape with
          | some t => .error (.concatShapes t.shape first.shape)
          | none => .ok dim

/-- The tensors one after the other along an axis. -/
def concat (tensors : List (LooseTensor α)) (axis : Number) : Except Failure (LooseTensor α) := do
  let dim ← joinAxis tensors axis
  match tensors with
  | [] => .error .concatNothing
  | first :: _ =>
      let extent (t : LooseTensor α) : Number := t.shape.getD dim .nan
      let along := tensors.foldl (fun total t => total.plus (extent t)) (.int 0)
      let shape := first.shape.set dim along
      let outer : Number := Shape.size (first.shape.take dim)
      let inner : Number := Shape.size (first.shape.drop (dim + 1))
      let count ← Shape.bufferLengthOf (Shape.size shape)
      let parts ← tensors.mapM contiguous
      let steps := (List.range outer.naturalsBelow).flatMap fun o => parts.map fun part => (o, part)
      let (buffer, _) ← steps.foldlM
        (fun ((buffer, cursor) : Array α × Number) (o, part) => do
          let chunk : Number := Extent.mul (extent part) inner
          let start := Extent.mul (.ofNat o) chunk
          let stop := Extent.mul (.ofNat (o + 1)) chunk
          return (← overwrite buffer cursor (part.between start stop), cursor.plus chunk))
        (Array.replicate count Scalar.zero, .int 0)
      ofParts first.dtype shape buffer

/-- The row that a number names among `size` rows; a negative number counts from the
last one. -/
def rowIndex (size x : Number) : Except Failure Number :=
  match x.toInt? with
  | none => .error .indexNotWhole
  | some _ =>
      let index := if x.below (.int 0) then x.plus size else x
      if index.below (.int 0) || size.atMost index then .error (.indexOutOfRange x size)
      else .ok index

/-- The rows that the elements of another tensor name, in the shape of that tensor. -/
def take (t indices : LooseTensor α) : Except Failure (LooseTensor α) :=
  match t.shape with
  | [] => .error .takeFromScalar
  | rows :: rowShape => do
      let source ← t.contiguous
      let row : Number := Shape.size rowShape
      let picks ← indices.entries
      let count ← Shape.bufferLengthOf (Extent.mul (.ofNat picks.length) row)
      let buffer ← picks.zipIdx.foldlM
        (fun (buffer : Array α) (x, i) => do
          let index ← rowIndex rows (Scalar.toNumber x)
          let start := Extent.mul index row
          let stop := Extent.mul (index.plus (.int 1)) row
          overwrite buffer (Extent.mul (.ofNat i) row) (source.between start stop))
        (Array.replicate count Scalar.zero)
      ofParts t.dtype (indices.shape ++ rowShape) buffer

end LooseTensor

end TensorGraph
