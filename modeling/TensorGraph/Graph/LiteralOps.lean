import TensorGraph.Graph.Basic
import TensorGraph.Failure
import TensorGraph.Shape.Checked
import TensorGraph.Shape.Rounded

/-!
# Literal tensors

A literal tensor is rearranged entry by entry. The entries are addressed by
multi-indices in row-major order, and an entry of the rearranged tensor is looked up at
the multi-index that the permutation sends it to. Where nobody has checked that the sizes are
natural numbers and that there are enough entries, the layout is computed in doubles.

## Main results

* `Shape.length_indices` -- there are as many multi-indices as entries.
* `Literal.dims_permute`, `Literal.sizes_permute` -- the sizes are rearranged by the
  permutation.
* `Literal.length_data_permute` -- the number of entries is that of the new sizes.
* `Literal.eq_permute_of_transpose` -- what is transposed at all is transposed entry by entry.
-/

namespace TensorGraph

namespace Shape

/-- The multi-indices of a shape in row-major order. Nothing is counted before it is known
that no axis is empty. -/
def indices : List Nat → List (List Nat)
  | [] => [[]]
  | d :: ds =>
      if d = 0 then []
      else
        let inner := indices ds
        if inner.isEmpty then [] else (List.range d).flatMap fun i => inner.map (i :: ·)

theorem indices_cons (d : Nat) (ds : List Nat) :
    indices (d :: ds) = (List.range d).flatMap fun i => (indices ds).map (i :: ·) := by
  rw [indices]
  by_cases hd : d = 0
  · simp [hd]
  · cases h : indices ds with
    | nil => simp
    | cons => simp [hd]

theorem length_indices (dims : List Nat) : (indices dims).length = size dims := by
  induction dims with
  | nil => rfl
  | cons d ds ih =>
      have : ∀ n, ((List.range n).flatMap fun i => (indices ds).map (i :: ·)).length =
          n * (indices ds).length := by
        intro n
        induction n with
        | zero => simp
        | succ n ihn =>
            rw [List.range_succ, List.flatMap_append, List.length_append, ihn]
            simp [Nat.succ_mul]
      simp [indices_cons, this, ih]

end Shape

namespace Literal

/-- The literal transposed by a permutation of its axes. -/
def permute (t : Literal) (p : List Nat) : Literal :=
  let strides := Permutation.arrange (Shape.strides t.sizes) p
  let entries := t.data.toArray
  { dtype := t.dtype, dims := Permutation.arrange t.dims p
    data := (Shape.indices (Permutation.arrange t.sizes p)).map fun index =>
      entries.getD (Shape.distance index strides) .nan }

@[simp] theorem dims_permute (t : Literal) (p : List Nat) :
    (t.permute p).dims = Permutation.arrange t.dims p := rfl

@[simp] theorem dtype_permute (t : Literal) (p : List Nat) : (t.permute p).dtype = t.dtype := rfl

@[simp] theorem sizes_permute (t : Literal) (p : List Nat) :
    (t.permute p).sizes = Permutation.arrange t.sizes p := by
  simp only [sizes, dims_permute, Permutation.arrange, List.map_map]
  refine List.map_congr_left fun axis _ => ?_
  simp only [Function.comp_apply, List.getD_eq_getElem?_getD, List.getElem?_map]
  cases t.dims[axis]? <;> rfl

@[simp] theorem length_data_permute (t : Literal) (p : List Nat) :
    (t.permute p).data.length = Shape.size (Permutation.arrange t.sizes p) := by
  simp [permute, Shape.length_indices]

/-- The literal transposed by a permutation of its axes, unless its sizes in the new order are
beyond counting. -/
def transpose (t : Literal) (p : List Nat) : Except Failure Literal :=
  (Shape.lengthOf (Shape.measured (Permutation.arrange t.sizes p))).map fun _ => t.permute p

theorem eq_permute_of_transpose {t u : Literal} {p : List Nat} (h : t.transpose p = .ok u) :
    u = t.permute p := by
  unfold transpose at h
  cases hlength : Shape.lengthOf (Shape.measured (Permutation.arrange t.sizes p)) with
  | error => simp [hlength, Except.map] at h
  | ok =>
      simp only [hlength, Except.map, Except.ok.injEq] at h
      exact h.symm

/-- The literal with axes of size one put in front until it has `rank` axes. -/
def padToRank (t : Literal) (rank : Number) : Except Failure Literal :=
  if rank.same (.ofNat t.dims.length) then .ok t
  else (Shape.padToRank t.dims rank).map fun dims => { t with dims }

/-! ## Unchecked literals -/

/-- A literal of which some entries may be missing. -/
structure Incomplete where
  dtype : DType
  dims : List Number
  data : List (Option Number)
  deriving DecidableEq, Repr

/-- A literal with all of its entries. -/
def complete (t : Literal) : Incomplete :=
  { dtype := t.dtype, dims := t.dims, data := t.data.map some }

/-- Whether the sizes are natural numbers and there are as many entries as they multiply
to. -/
def isComplete (t : Literal) : Bool := t.sizes?.any fun sizes => Shape.size sizes = t.data.length

/-- The entries of a literal, transposed by places that need not be a permutation. The sizes
need not be natural numbers, so the layout is computed in doubles, and what is not there is
missing. -/
def entriesBy (t : Literal) (dims places : List Number) (count : Nat) : List (Option Number) :=
  let entries := t.data.toArray
  let across := Shape.roundedStrides dims
  let along := (Permutation.entriesAt (Shape.roundedStrides t.dims) places).map fun stride =>
    stride.getD (0.0 / 0.0)
  (List.range count).map fun linear =>
    (Shape.roundedAddress? entries.size
      (Shape.roundedPlace 0.0 (Shape.roundedCoordinates across (Float.ofNat linear)) along)).bind
        fun address => entries[address]?

/-- The literal transposed by places given as numbers, one for each axis. -/
def permuteBy (t : Literal) (places : List Number) : Except Failure Incomplete := do
  let dims := (← Permutation.permuteShape t.dims places).map fun dim => dim.getD .nan
  let count ← Shape.lengthOf (Shape.size dims)
  match Permutation.ofNumbers? places with
  | some p =>
      if t.isComplete then return (t.permute p).complete
      else return { dtype := t.dtype, dims, data := t.entriesBy dims places count }
  | none => return { dtype := t.dtype, dims, data := t.entriesBy dims places count }

end Literal

end TensorGraph
