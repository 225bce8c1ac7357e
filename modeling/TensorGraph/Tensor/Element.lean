import TensorGraph.Tensor.Basic

/-!
# Elements by multi-index

A tensor seen as a function of multi-indices. The linear indices below the size of a shape
and the multi-indices within it correspond to each other.

## Main results

* `Tensor.at?_distance` -- an element by multi-index is the one by its linear index.
* `Shape.within_coordinates` -- the coordinates of a linear index lie within the shape.
* `Shape.distance_lt_size` -- a multi-index within the shape has a linear index below the
  size.
* `Shape.coordinates_distance` -- and is the coordinates of it.
-/

namespace TensorGraph

namespace Shape

/-- Whether a multi-index lies within a shape: one coordinate for each axis, below its
size. -/
def Within : List Nat → List Nat → Prop
  | [], [] => True
  | i :: index, d :: dims => i < d ∧ Within index dims
  | _, _ => False

theorem Within.length_eq {index dims : List Nat} (h : Within index dims) :
    index.length = dims.length := by
  induction index generalizing dims with
  | nil =>
      cases dims with
      | nil => rfl
      | cons d ds => exact h.elim
  | cons i index ih =>
      cases dims with
      | nil => exact h.elim
      | cons d ds => simp [ih h.2]

theorem within_coordinates {dims : List Nat} {linear : Nat} (h : linear < size dims) :
    Within (Tensor.coordinates (strides dims) linear) dims := by
  induction dims generalizing linear with
  | nil => trivial
  | cons d ds ih =>
      rw [size_cons] at h
      have hpos : 0 < size ds := Nat.pos_of_ne_zero fun hz => by simp [hz] at h
      rw [strides_cons, Tensor.coordinates, sizeFromInside_eq]
      exact ⟨Nat.div_lt_of_lt_mul (by rwa [Nat.mul_comm]), ih (Nat.mod_lt _ hpos)⟩

theorem distance_lt_size {index dims : List Nat} (h : Within index dims) :
    distance index (strides dims) < size dims := by
  induction dims generalizing index with
  | nil =>
      cases index with
      | nil => simp [distance]
      | cons => exact h.elim
  | cons d ds ih =>
      cases index with
      | nil => exact h.elim
      | cons i index =>
          have hrest := ih h.2
          have hfirst : (i + 1) * size ds ≤ d * size ds := Nat.mul_le_mul_right _ h.1
          rw [strides_cons, sizeFromInside_eq, distance, size_cons]
          rw [Nat.succ_mul] at hfirst
          omega

theorem coordinates_distance {index dims : List Nat} (h : Within index dims) :
    Tensor.coordinates (strides dims) (distance index (strides dims)) = index := by
  induction dims generalizing index with
  | nil =>
      cases index with
      | nil => rfl
      | cons => exact h.elim
  | cons d ds ih =>
      cases index with
      | nil => exact h.elim
      | cons i index =>
          have hrest := distance_lt_size h.2
          have hpos : 0 < size ds := by omega
          rw [strides_cons, sizeFromInside_eq, distance, Tensor.coordinates]
          rw [Nat.add_comm, Nat.add_mul_div_right _ _ hpos, Nat.div_eq_of_lt hrest, Nat.zero_add,
            Nat.add_mul_mod_self_right, Nat.mod_eq_of_lt hrest, ih h.2]

end Shape

namespace Tensor

variable {α : Type}

/-- The element with a multi-index is the one with its linear index. -/
theorem at?_distance {t : Tensor α} {index : List Nat} (h : Shape.Within index t.shape) :
    t.at? (Shape.distance index (Shape.strides t.shape)) = t.element? index := by
  rw [at?, Shape.coordinates_distance h]

end Tensor

end TensorGraph
