import TensorGraph.Failure
import TensorGraph.Graph.Basic
import TensorGraph.Permutation.Checked
import TensorGraph.Shape.Rounded
import TensorGraph.Tensor.Scalar

/-!
# Strided tensors

A tensor is a view of a buffer: the element with a multi-index lies at the offset plus the
multi-index times the strides. Permuting axes and repeating an axis change the view and
share the buffer, and a view with a negative stride runs through an axis backwards. The
linear index of an element is its rank in row-major order; it is taken apart into a
multi-index by dividing by the row-major strides of the shape.

## Main results

* `Tensor.coordinates_length` -- a linear index has a coordinate for each axis.
* `Tensor.displacement_strides` -- with row-major strides a multi-index lies as far from the
  offset as its linear index says.
* `Tensor.at?_packed` -- in a packed tensor the linear index is the address.
* `Tensor.contiguous_eq_self` -- a contiguous tensor is not copied.
* `Tensor.length_stretchedStrides` -- a stretched view has a stride for each axis.
-/

namespace TensorGraph

/-- A view of a buffer of elements, with a stride for each axis. -/
structure Tensor (α : Type) where
  dtype : DType
  shape : List Nat
  strides : List Int
  offset : Int
  data : Array α
  strided : strides.length = shape.length := by rfl

namespace Tensor

variable {α : Type}

/-- The number of elements. -/
def size (t : Tensor α) : Nat := Shape.size t.shape

/-- The number of axes. -/
def rank (t : Tensor α) : Nat := t.shape.length

/-- The strides of a shape whose elements follow one another in row-major order. -/
def rowMajor (shape : List Nat) : List Int := (Shape.strides shape).map Int.ofNat

/-- A tensor with its elements in row-major order in a buffer of its own. -/
def packed (dtype : DType) (shape : List Nat) (data : Array α) : Tensor α :=
  { dtype, shape, strides := rowMajor shape, offset := 0, data, strided := by simp [rowMajor] }

/-- A packed tensor of elements, of which there must be as many as the shape says. -/
def ofArray (dtype : DType) (shape : List Nat) (data : Array α) : Except Failure (Tensor α) :=
  if Shape.size shape = data.size then .ok (packed dtype shape data)
  else .error (.dataLength data.size (shape.map .ofNat))

/-- The tensor, if its buffer is as long as its sizes say. They are multiplied in doubles, one after
the other. -/
def constructed (t : Tensor α) : Except Failure (Tensor α) :=
  if Shape.measured t.shape = .ofNat t.data.size then .ok t
  else .error (.dataLength t.data.size (t.shape.map .ofNat))

/-- The natural sizes that numbers are, for a buffer of some length. -/
def sizesOf (length : Nat) (sizes : List Number) : Except Failure (List Nat) :=
  match sizes.mapM Number.toNat? with
  | some shape => .ok shape
  | none => .error (.dataLength length sizes)

/-- A packed tensor with its sizes given as numbers. -/
def ofNumbers (dtype : DType) (sizes : List Number) (data : Array α) :
    Except Failure (Tensor α) := do
  ofArray dtype (← sizesOf data.size sizes) data

/-- A tensor with a single element. -/
def scalar (dtype : DType) (x : α) : Tensor α := packed dtype [] #[x]

/-! ## Addresses -/

/-- The multi-index of a linear index, given row-major strides. Along an axis of stride
zero there is nothing to count. -/
def coordinates : List Nat → Nat → List Nat
  | [], _ => []
  | stride :: rest, linear => linear / stride :: coordinates rest (linear % stride)

@[simp] theorem coordinates_length (strides : List Nat) (linear : Nat) :
    (coordinates strides linear).length = strides.length := by
  induction strides generalizing linear with
  | nil => rfl
  | cons s rest ih => simp [coordinates, ih]

/-- How far from the offset the element with a multi-index lies. -/
def displacement : List Nat → List Int → Int
  | i :: index, stride :: strides => Int.ofNat i * stride + displacement index strides
  | _, _ => 0

/-- Where in the buffer the element with a multi-index lies. -/
def place (t : Tensor α) (index : List Nat) : Int := t.offset + displacement index t.strides

/-- The element with a multi-index, if it lies in the buffer. -/
def element? (t : Tensor α) (index : List Nat) : Option α :=
  (t.place index).toNat?.bind fun address => t.data[address]?

/-- The element with a linear index, if it lies in the buffer. -/
def at? (t : Tensor α) (linear : Nat) : Option α :=
  t.element? (coordinates (Shape.strides t.shape) linear)

/-- The element with a linear index as a kernel reads it. -/
def entry [Scalar α] (t : Tensor α) (linear : Nat) : α := (t.at? linear).getD Scalar.missing

/-- All elements in row-major order as kernels read them. -/
def entries [Scalar α] (t : Tensor α) : Array α := (Array.range t.size).map t.entry

/-- Taking a linear index apart and putting it together with the same strides gives it
back, when the innermost stride is one. -/
theorem distance_coordinates_strides (shape : List Nat) (linear : Nat)
    (h : linear < Shape.size shape) :
    Shape.distance (coordinates (Shape.strides shape) linear) (Shape.strides shape) = linear := by
  induction shape generalizing linear with
  | nil =>
      have : linear = 0 := by simpa using h
      simp [this, coordinates, Shape.strides, Shape.distance]
  | cons d ds ih =>
      have hpos : 0 < Shape.size ds := by
        apply Nat.pos_of_ne_zero
        intro hz
        simp [hz] at h
      have := ih (linear % Shape.size ds) (Nat.mod_lt _ hpos)
      simp only [Shape.strides, coordinates, Shape.sizeFromInside_eq, Shape.distance] at this ⊢
      rw [this, Nat.mul_comm]
      exact Nat.div_add_mod linear (Shape.size ds)

theorem displacement_map_ofNat (index strides : List Nat) :
    displacement index (strides.map Int.ofNat) = Int.ofNat (Shape.distance index strides) := by
  induction index generalizing strides with
  | nil => cases strides <;> rfl
  | cons i index ih =>
      cases strides with
      | nil => rfl
      | cons stride strides =>
          rw [List.map_cons, displacement, ih, Shape.distance]
          rfl

theorem displacement_strides (index shape : List Nat) :
    displacement index (rowMajor shape) =
      Int.ofNat (Shape.distance index (Shape.strides shape)) :=
  displacement_map_ofNat index (Shape.strides shape)

/-- In a packed tensor the element with a linear index is the one at that place of the
buffer. -/
theorem at?_packed (dtype : DType) (shape : List Nat) (data : Array α) (linear : Nat)
    (h : linear < Shape.size shape) : (packed dtype shape data).at? linear = data[linear]? := by
  unfold at? element? place packed
  simp only [displacement_strides, distance_coordinates_strides shape linear h]
  rw [Int.zero_add]
  rfl

/-! ## Contiguity -/

/-- Whether the elements lie in row-major order from the offset on. Strides along axes of
size one do not matter. -/
def isContiguous (t : Tensor α) : Bool :=
  (t.shape.zip (t.strides.zip (rowMajor t.shape))).all fun (d, actual, expected) =>
    d = 1 || actual = expected

/-- The same elements in a contiguous tensor: the tensor itself if it is contiguous, and a
copy otherwise. -/
def contiguous [Scalar α] (t : Tensor α) : Tensor α :=
  if t.isContiguous then t else packed t.dtype t.shape t.entries

theorem contiguous_eq_self [Scalar α] {t : Tensor α} (h : t.isContiguous = true) :
    t.contiguous = t := by
  simp [contiguous, h]

/-! ## Other views -/

/-- The view whose axis `i` is the axis `p[i]`. -/
def permuteBy (t : Tensor α) (p : List Nat) : Tensor α :=
  { t with
    shape := Permutation.arrange t.shape p, strides := Permutation.arrange t.strides p
    strided := by simp }

/-- The axes that numbers name in a tensor of some rank, each at most once; `before` are
those that have been named. -/
def distinctAxes (rank : Nat) : List Nat → List Number → Except Failure (List Nat)
  | _, [] => .ok []
  | before, x :: rest =>
      match x.toNat? with
      | none => .error (.permuteRange x rank)
      | some axis =>
          if rank ≤ axis then .error (.permuteRange x rank)
          else if before.contains axis then .error (.permuteTwice x)
          else (distinctAxes rank (axis :: before) rest).map (axis :: ·)

/-- The view with its axes permuted by numbers, which must name each axis once. -/
def permute (t : Tensor α) (perm : List Number) : Except Failure (Tensor α) :=
  if perm.length = t.rank then (distinctAxes t.rank [] perm).map t.permuteBy
  else .error (.permuteLength perm.length t.rank)

/-- The strides of a view stretched to a target shape of the same rank: an axis of size one
is repeated. -/
def stretchedStrides : List Nat → List Int → List Nat → Except Failure (List Int)
  | d :: dims, stride :: strides, target :: targets =>
      if d = target then (stretchedStrides dims strides targets).map (stride :: ·)
      else if d = 1 then (stretchedStrides dims strides targets).map (0 :: ·)
      else .error .stretchShape
  | _, _, _ => .ok []

theorem length_stretchedStrides {dims targets : List Nat} {strides found : List Int}
    (hstrides : strides.length = dims.length) (htargets : targets.length = dims.length)
    (h : stretchedStrides dims strides targets = .ok found) : found.length = dims.length := by
  induction dims generalizing strides targets found with
  | nil =>
      obtain rfl : [] = found := Except.ok.inj h
      rfl
  | cons d ds ih =>
      cases strides with
      | nil => cases hstrides
      | cons stride strides =>
          cases targets with
          | nil => cases htargets
          | cons target targets =>
              rw [stretchedStrides] at h
              split at h
              · obtain ⟨rest, hrest, rfl⟩ := map_eq_ok h
                exact congrArg Nat.succ (ih (Nat.succ.inj hstrides) (Nat.succ.inj htargets) hrest)
              · split at h
                · obtain ⟨rest, hrest, rfl⟩ := map_eq_ok h
                  exact congrArg Nat.succ (ih (Nat.succ.inj hstrides) (Nat.succ.inj htargets) hrest)
                · cases h

/-- Axes that are added outside have a stride each. -/
theorem length_stretched {t : Tensor α} {target : List Nat} {strides : List Int}
    (hrank : t.rank ≤ target.length)
    (h : stretchedStrides t.shape t.strides (target.drop (target.length - t.rank)) = .ok strides) :
    (List.replicate (target.length - t.rank) 0 ++ strides).length = target.length := by
  have hdropped : (target.drop (target.length - t.rank)).length = t.shape.length := by
    rw [List.length_drop]
    exact Nat.sub_sub_self hrank
  rw [List.length_append, List.length_replicate, length_stretchedStrides t.strided hdropped h]
  exact Nat.sub_add_cancel hrank

/-- The view stretched to a target shape, axes aligned at the innermost end. -/
def stretchTo (t : Tensor α) (target : List Nat) : Except Failure (Tensor α) :=
  if t.shape = target then .ok t
  else if hrank : target.length < t.rank then .error .stretchRank
  else
    let added := target.length - t.rank
    match h : stretchedStrides t.shape t.strides (target.drop added) with
    | .error e => .error e
    | .ok strides => .ok
        { t with
          shape := target, strides := List.replicate added 0 ++ strides
          strided := length_stretched (Nat.not_lt.1 hrank) h }

theorem stretchTo_of_shape {t : Tensor α} {target : List Nat} (h : t.shape = target) :
    t.stretchTo target = .ok t :=
  if_pos h

theorem stretchTo_of_strides {t : Tensor α} {target : List Nat} {strides : List Int}
    (hshape : t.shape ≠ target) (hrank : t.rank ≤ target.length)
    (h : stretchedStrides t.shape t.strides (target.drop (target.length - t.rank)) = .ok strides) :
    t.stretchTo target = .ok
      { t with
        shape := target, strides := List.replicate (target.length - t.rank) 0 ++ strides
        strided := length_stretched hrank h } := by
  rw [stretchTo, if_neg hshape, dif_neg (Nat.not_lt.2 hrank)]
  dsimp only
  split
  · rename_i e herror
    cases h.symm.trans herror
  · rename_i found hfound
    obtain rfl := Except.ok.inj (h.symm.trans hfound)
    rfl

theorem strides_of_stretchTo {t u : Tensor α} {target : List Nat} (hshape : t.shape ≠ target)
    (h : t.stretchTo target = .ok u) :
    ∃ strides, stretchedStrides t.shape t.strides (target.drop (target.length - t.rank)) =
      .ok strides := by
  rw [stretchTo, if_neg hshape] at h
  split at h
  · cases h
  · dsimp only at h
    split at h
    · cases h
    · rename_i strides hstrides
      exact ⟨strides, hstrides⟩

end Tensor

end TensorGraph
