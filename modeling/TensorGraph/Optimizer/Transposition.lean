import TensorGraph.Graph.Scope
import TensorGraph.Optimizer.Capability
import TensorGraph.Permutation.Checked
import TensorGraph.Shape

/-!
# What a transposition does to a node

The permutation that a transposing node applies, and what becomes of the axes that an
operator names when a transposition moves from its input to its output.

A transposing node without a permutation turns the axes around, which needs the rank of
its input.

## Main results

* `resolvePermutation_isPermutation` -- a resolved permutation is one.
* `mapAxis?_mem` -- a mapped axis is an entry of the permutation.
-/

namespace TensorGraph

/-- The rank of a value as far as it is known. -/
def rank? (enclosing : List Graph) (g : Graph) (value : String) : Option Nat :=
  ((g.info? enclosing value).bind ValueInfo.shape).map List.length

/-- The permutation that a node applies to its input, if it is a transposition and the
permutation is known. The hint is the rank of the input where the caller knows it. -/
def resolvePermutation (enclosing : List Graph) (g : Graph) (n : Node) (rankHint : Option Nat) :
    Option (List Nat) :=
  if n.op = "Transpose" && n.inputs.length = 1 && n.outputs.length = 1 then
    match n.numbers? "perm" with
    | some xs => Permutation.ofNumbers? xs
    | none => (rankHint.or (rank? enclosing g (n.inputs.headD ""))).map Permutation.reversed
  else none

theorem resolvePermutation_isPermutation {enclosing : List Graph} {g : Graph} {n : Node}
    {rankHint : Option Nat} {p : List Nat}
    (h : resolvePermutation enclosing g n rankHint = some p) : Permutation.IsPermutation p := by
  unfold resolvePermutation at h
  split at h
  · split at h
    · exact Permutation.ofNumbers?_isPermutation h
    · obtain ⟨rank, _, rfl⟩ := Option.map_eq_some_iff.1 h
      exact Permutation.reversed_isPermutation rank
  · simp at h

/-- The entries of the permutation `p` of a node as numbers: as they are written, or else as
they are found. -/
def spelledPermutation (n : Node) (p : List Nat) : List Number :=
  (n.numbers? "perm").getD (Permutation.toNumbers p)

/-- The permutation of a node as numbers, with a rank hint that nobody has checked. The hint
does not matter to a node that says its permutation. -/
def resolveNumbers (enclosing : List Graph) (g : Graph) (n : Node) (rankHint : Option Number) :
    Except Failure (Option (List Number)) :=
  let resolved (rank : Option Nat) :=
    (resolvePermutation enclosing g n rank).map (spelledPermutation n)
  match rankHint with
  | none => .ok (resolved none)
  | some hint =>
      if (n.numbers? "perm").isSome || (resolved (some 0)).isNone then .ok (resolved none)
      else (Permutation.rankOf hint).map fun rank => resolved (some rank)

/-- The axis before a transposition by `p` that is the given axis after it. -/
def mapAxis? (axis : Number) (p : List Number) : Option Number :=
  (axisIndex? axis p.length).bind fun i => p[i]?

theorem mapAxis?_mem {axis a : Number} {p : List Number} (h : mapAxis? axis p = some a) :
    a ∈ p := by
  unfold mapAxis? at h
  obtain ⟨i, _, hi⟩ := Option.bind_eq_some_iff.1 h
  exact List.mem_of_getElem? hi

/-- The attributes of an operator that works along axes, after a transposition by `p` has
moved from its input to its output; nothing if it cannot move. -/
def remapAxes (n : Node) (rule : AxisRule) (p : List Number) :
    Option (List (String × Attribute)) :=
  let keeps := ((n.number? "keepdims").getD (.int 1)).same (.int 1)
  if rule.requiresKeepDims && !keeps then none
  else
    match rule.namedBy, n.attribute? rule.namedBy.key with
    -- Without a list of axes all are reduced; a single axis must be there.
    | .axes, none => some n.attributes
    | .axis, some (.number x) =>
        (mapAxis? x p).map fun axis => Attributes.set n.attributes "axis" (.number axis)
    | .axes, some (.numbers xs) =>
        (xs.mapM fun x => mapAxis? x p).map fun axes =>
          Attributes.set n.attributes "axes" (.numbers axes)
    | _, _ => none

end TensorGraph
