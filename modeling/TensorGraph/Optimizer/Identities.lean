import TensorGraph.Optimizer.Sweep

/-!
# Removing identities

An identity whose result stays inside its graph is always superfluous. One that yields an
output of the graph can go only if the name of the output can be kept: by giving it to
the producer of the identity's input, or, in a body, by letting the output slot take the
input itself. Two outputs never fall together, and an output of the root is never tied
directly to an input.

Every removal takes one node away, which bounds their number.

## Main results

* `Identities.eliminate_shape` -- only nodes with one input and one output are touched.
-/

namespace TensorGraph.Identities

/-- How an identity was removed. -/
inductive Removal where
  /-- Its readers read its input. -/
  | rewired
  /-- Its input has got the name of its output. -/
  | renamed
  /-- The output slot takes its input. -/
  | passthrough
  deriving DecidableEq, Repr

/-- The word for an outcome. -/
def Removal.text : Removal → String
  | .rewired => "rewired"
  | .renamed => "renamed"
  | .passthrough => "passthrough"

/-- The single input and the single output of a node, if they are there and differ. -/
def endpoints? (n : Node) : Option (String × String) :=
  match n.inputs, n.outputs with
  | [input], [output] => if input = "" || input == output then none else some (input, output)
  | _, _ => none

/-- Removes an identity, if it can go. -/
def eliminate (s : Surroundings) (g : Graph) (r : NodeRef) :
    Except Stopped (Option (Graph × Removal)) :=
  match endpoints? r.node with
  | none => .ok none
  | some (input, output) =>
      let rewired := g.replaceInputs output input
      let moved := r.afterRewiring output input
      if !g.isOutput output then do
        let removed ← rewired.orStop (rewired.removeNode moved)
        return some (removed.eraseInfo output, .rewired)
      else if g.isOutput input then .ok none
      else if (g.producer? input).isSome then do
        let removed ← g.orStop (g.removeNode r)
        let renamed ← removed.orStop (removed.renameValue input output)
        return some (renamed, .renamed)
      else if s.enclosing.isEmpty then .ok none
      else do
        let removed ← rewired.orStop (rewired.removeNode moved)
        let rebound ← removed.orStop (removed.rebindOutput s.enclosing output input)
        return some (rebound, .passthrough)

/-- A node without exactly one input and one output is left alone. -/
theorem eliminate_shape {s : Surroundings} {g : Graph} {r : NodeRef}
    (h : r.node.inputs.length ≠ 1 ∨ r.node.outputs.length ≠ 1) : eliminate s g r = .ok none := by
  have : endpoints? r.node = none := by
    unfold endpoints?
    split
    · simp_all
    · rfl
  simp [eliminate, this]

/-- Removes the first identity in the list that can go. -/
def removeFirst (s : Surroundings) (g : Graph) : List NodeRef →
    Except Stopped (Option (Graph × String))
  | [] => .ok none
  | r :: rest =>
      if r.node.op = "Identity" then do
        match ← eliminate s g r with
        | some (next, removal) =>
            let line := "identity: " ++ removal.text ++ " " ++ r.node.name ++ " in " ++ g.name
            return some (next, line)
        | none => removeFirst s g rest
      else removeFirst s g rest

/-- The nodes of a graph with their places. -/
def nodeRefs (g : Graph) : List NodeRef :=
  g.nodes.zipIdx.map fun (node, i) => { node, place := some i }

/-- Removes identities from one graph until none can go. -/
def sweepGraph (s : Surroundings) (g : Graph) : Sweep :=
  Sweep.untilClean "identity" (fun g => removeFirst s g (nodeRefs g)) (g.nodes.length + 1)
    { graph := g }

end TensorGraph.Identities
