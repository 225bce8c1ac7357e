import TensorGraph.Failure
import TensorGraph.Permutation.Checked
import TensorGraph.Shape

/-!
# Shapes of plain numbers

The operations on shapes for callers whose sizes, ranks and axes are numbers that nobody
has checked. What cannot be done is refused with the shapes in question.

## Main results

* `Shape.broadcast_eq_ok_iff` -- shapes that go together have a broadcast.
-/

namespace TensorGraph

namespace Shape

/-- The broadcast of two shapes, checked. -/
def broadcast (a b : List Number) : Except Failure (List Number) :=
  match broadcast? a b with
  | some shape => .ok shape
  | none => .error (.cannotBroadcast a b)

theorem broadcast_eq_ok_iff {a b shape : List Number} :
    broadcast a b = .ok shape ↔ broadcast? a b = some shape := by
  unfold broadcast
  cases broadcast? a b <;> simp

/-- A shape with axes of size one in front up to a rank, checked. -/
def padToRank (dims : List Number) (rank : Number) : Except Failure (List Number) :=
  if rank.below (.ofNat dims.length) then .error (.cannotPad dims rank)
  else
    match (rank.toNat?.filter (· < Permutation.lengthLimit)).bind (padToRank? dims) with
    | some padded => .ok padded
    | none => .error (.badLength rank)

end Shape

/-- The axis that a number names, counted from the end if it is negative, checked. A number
that is not there names none. -/
def normalizeAxis (axis rank : Option Number) : Except Failure Number :=
  match normalizeAxis? (axis.getD .nan) (rank.getD .nan) with
  | some counted => .ok counted
  | none => .error (.axisOutOfRange axis rank)

end TensorGraph
