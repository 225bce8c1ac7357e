import TensorGraph.Graph.Order
import TensorGraph.Optimizer.Sweep

/-!
# Removing dead nodes

A node none of whose outputs is read, by a node or a body, or is an output of the graph,
does nothing. Dead nodes are taken away from the end of the dependency order, so that
whole chains go at once; rounds are repeated until one removes nothing.

## Main results

* `DeadNodes.kept_subset` -- a round only takes nodes away.
* `DeadNodes.mem_of_dropped` -- what a round reports as dropped was kept before.
-/

namespace TensorGraph.DeadNodes

/-- Whether a value is an output of the graph or read by another one of the nodes that
are still kept. -/
def isNeeded (g : Graph) (kept : List Nat) (place : Nat) (value : String) : Bool :=
  g.isOutput value || (g.readers value).any fun reader => reader != place && kept.contains reader

/-- Whether some output of the node at a place is needed. -/
def isLive (g : Graph) (kept : List Nat) (place : Nat) : Bool :=
  match g.nodes[place]? with
  | none => true
  | some n => n.outputs.any (isNeeded g kept place)

/-- Goes through places and drops those that are not live: the places that are kept, and
those that were dropped, in the order in which they went. -/
def dropDead (g : Graph) : List Nat → List Nat → List Nat × List Nat
  | kept, [] => (kept, [])
  | kept, place :: rest =>
      if isLive g kept place then dropDead g kept rest
      else
        let (final, dropped) := dropDead g (kept.filter (· != place)) rest
        (final, place :: dropped)

theorem kept_subset (g : Graph) (kept places : List Nat) :
    ∀ place ∈ (dropDead g kept places).1, place ∈ kept := by
  induction places generalizing kept with
  | nil => simp [dropDead]
  | cons p rest ih =>
      intro place hmem
      unfold dropDead at hmem
      split at hmem
      · exact ih kept place hmem
      · exact (List.mem_filter.1 (ih _ place hmem)).1

theorem mem_of_dropped (g : Graph) (kept places : List Nat) :
    ∀ place ∈ (dropDead g kept places).2, place ∈ places := by
  induction places generalizing kept with
  | nil => simp [dropDead]
  | cons p rest ih =>
      intro place hmem
      unfold dropDead at hmem
      split at hmem
      · exact List.mem_cons_of_mem _ (ih kept place hmem)
      · rcases List.mem_cons.1 hmem with rfl | hmem
        · simp
        · exact List.mem_cons_of_mem _ (ih _ place hmem)

/-- The graph with only the kept nodes, and without what is known of the outputs of the
dropped ones. -/
def restrict (g : Graph) (kept dropped : List Nat) : Graph :=
  { g with
    nodes := g.nodesAt kept
    infos := ((g.nodesAt dropped).flatMap Node.outputs).foldl InfoTable.erase g.infos }

/-- The line that tells of a dropped node. -/
def dropLine (g : Graph) (n : Node) : String :=
  "dead-nodes: removed " ++ n.name ++ " (" ++ n.op ++ ") in " ++ g.name

/-- One round over a graph. -/
def round (g : Graph) : Sweep :=
  match g.topologicalOrder with
  | .error cause => { graph := g, failure := some cause }
  | .ok order =>
      let (kept, dropped) := dropDead g (List.range g.nodes.length) order.reverse
      { graph := restrict g kept dropped, changes := dropped.length
        log := (g.nodesAt dropped).map (dropLine g) }

/-- Rounds over a graph until one removes nothing. -/
def rounds : Nat → Graph → Sweep
  | 0, g => { graph := g, failure := some (.endless "dead-nodes") }
  | fuel + 1, g =>
      let first := round g
      if first.changes = 0 then first else first.andThen (rounds fuel)

/-- Removes dead nodes from one graph. Every round but the last takes a node away, which
bounds their number. -/
def sweepGraph (_ : Surroundings) (g : Graph) : Sweep := rounds (g.nodes.length + 1) g

end TensorGraph.DeadNodes
