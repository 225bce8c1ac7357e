import TensorGraph.Tensor.Basic

/-!
# Element by element

Kernels that treat every element by itself, alone or together with the element at the
same place of another tensor. The operands of a combination are first stretched to their
common shape.

## Main results

* `Tensor.shape_map` -- a map keeps the shape.
* `Tensor.shape_zipWith` -- a combination has the common shape.
-/

namespace TensorGraph.Tensor

variable {α : Type} [Scalar α]

/-- The tensor with a function applied to each element. -/
def map (t : Tensor α) (f : α → α) : Tensor α := packed t.dtype t.shape (t.entries.map f)

@[simp] theorem shape_map (t : Tensor α) (f : α → α) : (t.map f).shape = t.shape := rfl

/-- One of the named functions applied to each element. -/
def apply (f : Elementwise) (t : Tensor α) : Tensor α := t.map (Scalar.apply f)

/-- The elements of two tensors, stretched to their common shape, combined by a
function. -/
def zipWith (f : α → α → α) (a b : Tensor α) : Except Failure (Tensor α) :=
  match Shape.broadcast? a.shape b.shape with
  | none => .error (.cannotBroadcast (a.shape.map .ofNat) (b.shape.map .ofNat))
  | some shape => do
      let left ← a.stretchTo shape
      let right ← b.stretchTo shape
      return packed a.dtype shape
        ((Array.range (Shape.size shape)).map fun i => f (left.entry i) (right.entry i))

theorem shape_zipWith {f : α → α → α} {a b c : Tensor α} (h : zipWith f a b = .ok c) :
    Shape.broadcast? a.shape b.shape = some c.shape := by
  unfold zipWith at h
  split at h
  · cases h
  · rename_i shape hshape
    obtain ⟨left, -, h⟩ := bind_eq_ok h
    obtain ⟨right, -, h⟩ := bind_eq_ok h
    obtain rfl := Except.ok.inj h
    exact hshape

/-- One of the named combinations. -/
def combine (f : Combination) : Tensor α → Tensor α → Except Failure (Tensor α) :=
  zipWith (Scalar.combine f)

end TensorGraph.Tensor
