import TensorGraph.Tensor.Basic

/-!
# Slices

Joining tensors along an axis, picking rows, and the sizes of a tensor. The first two
copy whole runs of elements out of contiguous tensors.

## Main results

* `Tensor.size_run` -- a run has the length that is asked for.
* `Tensor.run_ofNat` -- a run that lies in the buffer is a part of it.
-/

namespace TensorGraph.Tensor

variable {α : Type} [Scalar α]

/-- The border of a buffer that an address stands for: one before the first element counts
from the end, and none lies beyond the end. -/
def border (size : Nat) (address : Int) : Nat :=
  if address < 0 then (address + size).toNat else min address.toNat size

/-- A run of elements of a buffer. What the buffer does not have is zero. -/
def run (data : Array α) (start : Int) (length : Nat) : Array α :=
  let found := data.extract (border data.size start) (border data.size (start + length))
  found ++ Array.replicate (length - found.size) Scalar.zero

theorem border_ofNat (size address : Nat) : border size (Int.ofNat address) = min address size :=
  if_neg (Int.not_lt.2 (Int.natCast_nonneg address))

/-- A run has the length that is asked for, wherever it starts. -/
theorem size_run (data : Array α) (start : Int) (length : Nat) :
    (run data start length).size = length := by
  have hfound : border data.size (start + length) - border data.size start ≤ length := by
    unfold border
    split <;> split <;> omega
  simp only [run, Array.size_append, Array.size_extract, Array.size_replicate]
  omega

@[simp] theorem length_run (data : Array α) (start : Int) (length : Nat) :
    (run data start length).toList.length = length := by
  rw [Array.length_toList, size_run]

/-- A run that lies in the buffer is a part of it. -/
theorem run_ofNat {data : Array α} {start length : Nat} (h : start + length ≤ data.size) :
    run data (Int.ofNat start) length = data.extract start (start + length) := by
  have hend : Int.ofNat start + (length : Int) = Int.ofNat (start + length) := rfl
  have hstart : start ≤ data.size := by omega
  simp only [run, hend, border_ofNat, Nat.min_eq_left h, Nat.min_eq_left hstart]
  simp [Nat.min_eq_left h]

/-- Whether two shapes agree on all axes but one. -/
def agreeOff (axis : Nat) (a b : List Nat) : Bool :=
  a.length == b.length &&
    ((a.zip b).zipIdx).all fun ((x, y), i) => i == axis || x == y

/-- The tensors one after the other along an axis. Off that axis their shapes agree. -/
def concat (tensors : List (Tensor α)) (axis : Number) : Except Failure (Tensor α) :=
  match tensors with
  | [] => .error .concatNothing
  | first :: rest =>
      match axisIndex? axis first.rank with
      | none => .error (.axisOutOfRange axis (Number.ofNat first.rank))
      | some dim =>
          match (first :: rest).find? fun t => !agreeOff dim t.shape first.shape with
          | some t => .error (.concatShapes (t.shape.map .ofNat) (first.shape.map .ofNat))
          | none =>
              let along := (first :: rest).foldl (fun total t => total + t.shape.getD dim 0) 0
              let shape := first.shape.set dim along
              let outer := Shape.size (first.shape.take dim)
              let inner := Shape.size (first.shape.drop (dim + 1))
              let parts := (first :: rest).map contiguous
              let rows := (List.range outer).flatMap fun o =>
                parts.map fun part =>
                  let chunk := part.shape.getD dim 0 * inner
                  run part.data (part.offset + Int.ofNat (o * chunk)) chunk
              .ok (packed first.dtype shape (rows.foldl (· ++ ·) #[]))

/-- The row that a number names among `size` rows; a negative number counts from the
last one. -/
def rowIndex (size : Nat) (x : Number) : Except Failure Nat :=
  match x.toInt? with
  | none => .error .indexNotWhole
  | some n =>
      let index := if n < 0 then n + size else n
      if index < 0 || (size : Int) ≤ index then .error (.indexOutOfRange x (.ofNat size))
      else .ok index.toNat

/-- The rows that the elements of another tensor name, in the shape of that tensor. -/
def take (t indices : Tensor α) : Except Failure (Tensor α) :=
  match t.shape with
  | [] => .error .takeFromScalar
  | rows :: rowShape => do
      let source := t.contiguous
      let row := Shape.size rowShape
      let picked ← (List.range indices.size).mapM fun i =>
        rowIndex rows (Scalar.toNumber (indices.entry i))
      let data := picked.map fun index =>
        run source.data (source.offset + Int.ofNat (index * row)) row
      return packed t.dtype (indices.shape ++ rowShape) (data.foldl (· ++ ·) #[])

/-- The sizes of the axes as a tensor. -/
def sizes (t : Tensor α) : Tensor α :=
  packed .int64 [t.rank] (t.shape.map Scalar.ofNat).toArray

end TensorGraph.Tensor
