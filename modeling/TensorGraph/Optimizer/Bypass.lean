import TensorGraph.Optimizer.Sweep

/-!
# Taking a node out of the flow

The steps that the passes share: letting another value stand in for the output of a
node, and removing a node that a rule has disconnected.

The name of a graph output must survive. So where the bypassed node yields an output of
the graph, either the producer of the replacement takes over the name, or the node
becomes an identity that hands the replacement on.

## Main results

* `Graph.removeDisconnected_ok` -- what is removed was not referenced.
-/

namespace TensorGraph

/-- How a node was bypassed. -/
inductive Bypass where
  /-- Its readers read the replacement. -/
  | rewired
  /-- The replacement has got the name of its output. -/
  | renamed
  /-- It hands the replacement on. -/
  | shimmed
  deriving DecidableEq, Repr

namespace Bypass

/-- The word for an outcome. -/
def text : Bypass → String
  | .rewired => "rewired"
  | .renamed => "renamed"
  | .shimmed => "shimmed"

end Bypass

namespace Graph

/-- The graph without a node, unless one of its outputs is still in use or the node is
gone already. -/
def removeIfUnreferenced (g : Graph) (r : NodeRef) : Option Graph :=
  r.place.bind g.removeUnreferenced?

/-- The graph without the first node of a name, if that can be removed. -/
def removeNamedIfUnreferenced (g : Graph) (name : String) : Graph :=
  ((g.place? name).bind g.removeUnreferenced?).getD g

/-- Removes a node that a rule has disconnected. That it is still referenced means that
the rule miscounted its readers. -/
def removeDisconnected (g : Graph) (r : NodeRef) : Except Stopped Graph :=
  match g.removeIfUnreferenced r with
  | some rest => .ok rest
  | none => .error { graph := g, cause := .stillReferenced r.node.name }

theorem removeDisconnected_ok {g rest : Graph} {r : NodeRef}
    (h : g.removeDisconnected r = .ok rest) : g.removeIfUnreferenced r = some rest := by
  unfold removeDisconnected at h
  cases hr : g.removeIfUnreferenced r with
  | none => simp [hr] at h
  | some rest' => simpa [hr] using h

/-- Takes a node out of the flow and lets `replacement` stand in for its first output. -/
def bypass (g : Graph) (r : NodeRef) (replacement : String) : Except Stopped (Graph × Bypass) :=
  match r.node.outputs.head? with
  | none =>
      match g.removeIfUnreferenced r with
      | some rest => .ok (rest, .rewired)
      | none => .error { graph := g, cause := .stillReadAfterRewiring r.node.name none }
  | some output =>
      let rewired := g.replaceInputs output replacement
      let moved := r.afterRewiring output replacement
      if !g.isOutput output then
        match rewired.removeIfUnreferenced moved with
        | some rest => .ok (rest, .rewired)
        | none =>
            .error { graph := rewired, cause := .stillReadAfterRewiring r.node.name (some output) }
      else if (g.producer? replacement).isSome && !g.isOutput replacement then do
        let removed ← rewired.orStop (rewired.removeNode moved)
        let renamed ← removed.orStop (removed.renameValue replacement output)
        return (renamed, .renamed)
      else do
        let shim : Node :=
          { name := r.node.name, op := "Identity", inputs := [replacement], outputs := [output] }
        let replaced ← g.orStop (g.replaceNode r shim)
        return (replaced, .shimmed)

end Graph

end TensorGraph
