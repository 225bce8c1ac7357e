import TensorGraph.Graph.Site

/-!
# Remembered lookups

The producers and the readers of a graph stand in an index, which is made when it is first asked for
and remembered until the graph changes. Who reads a value depends on what the bodies take from
outside, so when a body changes, the graphs around it forget their indices as well. Graphs beside
and below keep what they remember, and a body that is moved to another host takes it along. What is
noted of values is in no index.

## Main results

* `Indexed.outerReferences_eq` -- one step of the recursion through the bodies.
-/

namespace TensorGraph

/-- Where values are produced, and by which nodes they are read. -/
structure Index where
  producers : String → Option Nat
  readers : String → List Nat

/-- The index of a graph as its lookups say. -/
def Graph.index (g : Graph) : Index where
  producers := g.producerPlace?
  readers := g.readers

/-- A tree of graphs, and the indices that its graphs remember, by the trails to them. -/
structure Indexed where
  tree : Graph
  known : Trail → Option Index

namespace Indexed

/-- A body of the tree with what is remembered in it. -/
def inside (s : Indexed) (place : Nat) (key : String) (body : Graph) : Indexed where
  tree := body
  known rest := s.known ((place, key) :: rest)

/-- The graph at the end of a trail with what is remembered there and below. -/
def at? (s : Indexed) (trail : Trail) : Option Indexed :=
  (s.tree.bodyAt? trail).map fun g => { tree := g, known := fun rest => s.known (trail ++ rest) }

/-- The place of the node that produces a value, by the index if there is one. -/
def producerPlace? (s : Indexed) (value : String) : Option Nat :=
  match s.known [] with
  | some index => index.producers value
  | none => s.tree.producerPlace? value

/-- Whether the graph itself defines a name, by the index if there is one. -/
def defines (s : Indexed) (name : String) : Bool :=
  s.tree.isInput name || (s.producerPlace? name).isSome

/-- One graph's outer references, from what its bodies take from outside by what they remember. -/
def referencesStep (g : Graph) (below : List (List ((Trail → Option Index) → List String)))
    (known : Trail → Option Index) : List String :=
  let here : Indexed := { tree := g, known }
  let read := (List.zipWith (fun host inside => host.1.inputs ++
      (List.zipWith (fun body references =>
        references fun rest => known ((host.2, body.1) :: rest)) host.1.bodies inside).flatten)
    g.nodes.zipIdx below).flatten
  ((read ++ g.outputs).filter fun name => name != "" && !here.defines name).eraseDups

/-- The names that the graph, or a graph nested in it, reads without defining them, by the indices
that are remembered. -/
def outerReferences (s : Indexed) : List String := s.tree.fold referencesStep s.known

/-- The names that a node reads, itself or through its bodies. -/
def reads (s : Indexed) (place : Nat) (n : Node) : List String :=
  n.inputs.filter (· != "") ++
    n.bodies.flatMap fun body => (s.inside place body.1 body.2).outerReferences

/-- The index as it is made anew. -/
def makeIndex (s : Indexed) : Index where
  producers := s.tree.producerPlace?
  readers value := (List.range s.tree.nodes.length).filter fun place =>
    match s.tree.nodes[place]? with
    | some n => (s.reads place n).contains value
    | none => false

/-- The index: the one that is remembered, or else a new one. -/
def index (s : Indexed) : Index := (s.known []).getD s.makeIndex

/-- The places of the nodes that read a value, by the index. -/
def readers (s : Indexed) (value : String) : List Nat := s.index.readers value

/-- The tree when the graph at the end of a trail has been looked up in, and remembers its index. -/
def remember (s : Indexed) (trail : Trail) : Indexed where
  tree := s.tree
  known other := if other = trail then (s.at? trail).map index else s.known other

/-- The tree when the graph at the end of a trail has become another one: the graphs around it
forget, and those beside it do not. -/
def put (s : Indexed) (trail : Trail) (new : Indexed) : Indexed where
  tree := s.tree.putAt trail new.tree
  known other :=
    if trail <+: other then new.known (other.drop trail.length)
    else if other <+: trail then none
    else s.known other

/-- The tree when something else is noted of the values of the graph at the end of a trail. No index
depends on that, so none is forgotten. -/
def annotate (s : Indexed) (trail : Trail) (infos : InfoTable) : Indexed where
  tree := match s.tree.bodyAt? trail with
    | none => s.tree
    | some g => s.tree.putAt trail { g with infos }
  known := s.known

private theorem zipWith_references (known : Trail → Option Index) (nodes : List Node)
    (start : Nat) :
    List.zipWith (fun host inside => host.1.inputs ++
        (List.zipWith (fun body references =>
          references fun rest => known ((host.2, body.1) :: rest)) host.1.bodies inside).flatten)
      (nodes.zipIdx start)
        (nodes.map fun n => n.bodies.map fun body => body.2.fold referencesStep) =
    (nodes.zipIdx start).map fun host => host.1.inputs ++ host.1.bodies.flatMap fun body =>
      body.2.fold referencesStep fun rest => known ((host.2, body.1) :: rest) := by
  induction nodes generalizing start with
  | nil => rfl
  | cons n nodes ih =>
      simp only [List.zipIdx_cons, List.map_cons, List.zipWith_cons_cons, ih,
        List.zipWith_map_right, List.zipWith_self, List.flatMap_def]

theorem outerReferences_eq (s : Indexed) :
    s.outerReferences =
      ((s.tree.nodes.zipIdx.flatMap (fun host => host.1.inputs ++
          host.1.bodies.flatMap fun body => (s.inside host.2 body.1 body.2).outerReferences) ++
        s.tree.outputs).filter fun name => name != "" && !s.defines name).eraseDups := by
  unfold outerReferences
  rw [Graph.fold_eq, referencesStep, zipWith_references]
  simp only [List.flatMap_def]
  rfl

end Indexed

end TensorGraph
