import TensorGraph.Graph.Index
import TensorGraph.Graph.Order

/-!
# Changes to trees that remember lookups

A graph is changed by one of a few mutations. Each looks up what it needs by the indices that are
remembered, and when it has changed something the graph and all graphs around it forget their indices.
Bodies remember what they did, under whatever host and at whatever place they come to stand, except
those that a mutation goes on to change themselves: they and the graphs between forget as well.

What a mutation looks up on its way is not remembered here. To remember it is a step of its own, which
can come before and after every mutation.

## Main results

* `Indexed.substituteOuter_eq` -- one step of the recursion through the bodies.
-/

namespace TensorGraph

/-- A node, and the indices that the graphs in its bodies remember. -/
structure Host where
  node : Node
  known : String → Trail → Option Index

namespace Host

/-- A body of the node with what is remembered in it. -/
def inside (host : Host) (key : String) (body : Graph) : Indexed where
  tree := body
  known := host.known key

/-- The node that reads `new` where it read `old`, with the given bodies under its keys. -/
def rewired (old new : String) (host : Host) (bodies : List Indexed) : Host where
  node := host.node.rewired old new (bodies.map Indexed.tree)
  known key rest :=
    (((host.node.bodies.map Prod.fst).zip bodies).lookup key).bind fun body => body.known rest

end Host

namespace Indexed

/-- The nodes of the graph with what is remembered in their bodies. -/
def hosts (s : Indexed) : List Host :=
  s.tree.nodes.zipIdx.map fun host =>
    { node := host.1, known := fun key rest => s.known ((host.2, key) :: rest) }

@[simp] theorem map_node_hosts (s : Indexed) : s.hosts.map Host.node = s.tree.nodes := by
  rw [hosts, List.map_map]
  exact List.zipIdx_map_fst 0 s.tree.nodes

@[simp] theorem getElem?_hosts (s : Indexed) (place : Nat) :
    s.hosts[place]? = s.tree.nodes[place]?.map fun n =>
      { node := n, known := fun key rest => s.known ((place, key) :: rest) } := by
  rw [hosts, List.getElem?_map, List.getElem?_zipIdx]
  cases s.tree.nodes[place]? <;> simp

/-- A graph with the given nodes. It has no index yet. -/
def ofHosts (g : Graph) (hosts : List Host) : Indexed where
  tree := { g with nodes := hosts.map Host.node }
  known
    | [] => none
    | (place, key) :: rest => hosts[place]?.bind fun host => host.known key rest

@[simp] theorem tree_ofHosts (g : Graph) (hosts : List Host) :
    (ofHosts g hosts).tree = { g with nodes := hosts.map Host.node } := rfl

/-! ## Nodes -/

/-- The graph with one more node at the end. -/
def addNode (s : Indexed) (host : Host) : Indexed := ofHosts s.tree (s.hosts ++ [host])

/-- The graph with another node at a place. -/
def putNode (s : Indexed) (place : Nat) (host : Host) : Indexed :=
  ofHosts s.tree (s.hosts.set place host)

/-- The graph without the node at a place. -/
def dropNode (s : Indexed) (place : Nat) : Indexed := ofHosts s.tree (s.hosts.eraseIdx place)

/-- The graph with another node in the place of a node. -/
def replaceNode (s : Indexed) (r : NodeRef) (next : Host) : Except Failure Indexed :=
  (s.tree.placeOf r).map fun place => s.putNode place next

/-- The graph without a node. What the node produced is not looked at. -/
def removeNode (s : Indexed) (r : NodeRef) : Except Failure Indexed :=
  (s.tree.placeOf r).map s.dropNode

/-- Whether a value is an output of the graph or read by a node at another place, by the index. -/
def isUsedBeside (s : Indexed) (place : Nat) (value : String) : Bool :=
  s.tree.isOutput value || (s.readers value).any fun reader => reader != place

/-- The graph without the node at a place and without what is known of its outputs, unless one of the
outputs is still in use. -/
def removeUnreferenced? (s : Indexed) (place : Nat) : Option Indexed :=
  match s.tree.nodes[place]? with
  | none => none
  | some n =>
      if n.outputs.any (s.isUsedBeside place) then none
      else some ((s.dropNode place).annotate [] (n.outputs.foldl InfoTable.erase s.tree.infos))

/-! ## Values -/

/-- The nodes, those that read `old` by the index with the given bodies in place of their own. -/
def rewiredHosts (s : Indexed) (old new : String) (bodies : List (List Indexed)) : List Host :=
  List.zipWith (fun host bodies =>
    if (s.readers old).contains host.2 then host.1.rewired old new bodies else host.1)
    s.hosts.zipIdx bodies

/-- Whether the graph says a name in an output slot, or a node reads it by the index. -/
def mentions (s : Indexed) (name : String) : Bool :=
  !(s.readers name).isEmpty || s.tree.isOutput name

/-- One graph's part of `substituteOuter`. -/
def substituteStep (old new : String) (g : Graph)
    (below : List (List ((Trail → Option Index) → Indexed))) (known : Trail → Option Index) :
    Indexed :=
  let here : Indexed := { tree := g, known }
  if here.defines old || !here.mentions old then here
  else
    ofHosts { g with outputs := g.outputs.map (substituteName old new) }
      (here.rewiredHosts old new (List.zipWith (fun host inside =>
        List.zipWith (fun body replaced => replaced (host.known body.1)) host.node.bodies inside)
        here.hosts below))

/-- The graph with `new` in place of a name `old` that it takes from outside. A graph that defines
`old` itself means something else by it and stays, and so does one that does not mention it. -/
def substituteOuter (s : Indexed) (old new : String) : Indexed :=
  s.tree.fold (substituteStep old new) s.known

/-- The bodies of the nodes with `new` in place of a name `old` that they take from outside. -/
def substitutedBodies (s : Indexed) (old new : String) : List (List Indexed) :=
  s.hosts.map fun host =>
    host.node.bodies.map fun body => (host.inside body.1 body.2).substituteOuter old new

theorem substituteOuter_eq (s : Indexed) (old new : String) :
    s.substituteOuter old new =
      if s.defines old || !s.mentions old then s
      else
        ofHosts { s.tree with outputs := s.tree.outputs.map (substituteName old new) }
          (s.rewiredHosts old new (s.substitutedBodies old new)) := by
  have hbodies : List.zipWith (fun (host : Host) inside =>
        List.zipWith (fun (body : String × Graph) replaced => replaced (host.known body.1))
          host.node.bodies inside) s.hosts
        (s.tree.nodes.map fun n => n.bodies.map fun body => body.2.fold (substituteStep old new)) =
      s.substitutedBodies old new := by
    rw [← s.map_node_hosts, List.map_map, List.zipWith_map_right, List.zipWith_self]
    refine List.map_congr_left fun host _ => ?_
    simp only [Function.comp_apply, List.zipWith_map_right, List.zipWith_self]
    rfl
  unfold substituteOuter
  rw [Graph.fold_eq, substituteStep, hbodies]

/-- Makes every reader of `old` read `new`, bodies included. Outputs of the graph keep their names. -/
def replaceInputs (s : Indexed) (old new : String) : Indexed :=
  if old = new || (s.readers old).isEmpty then s
  else ofHosts s.tree (s.rewiredHosts old new (s.substitutedBodies old new))

/-- The producer of `old` produces `new` in its place. -/
def renameProduced (s : Indexed) (old new : String) : Indexed :=
  match (s.producerPlace? old).bind fun place => s.hosts[place]?.map (place, ·) with
  | none => s
  | some (place, host) =>
      s.putNode place { host with node :=
        { host.node with
          outputs := host.node.outputs.map (substituteName old new), bookmarks := [] } }

/-- Renames a value wherever it appears in the scope of the graph: at its producer, its readers, the
inputs and outputs, in bodies, and in the table. -/
def renameValue (s : Indexed) (old new : String) : Except Failure Indexed :=
  if old = new then .ok s
  else if s.defines new then .error (.renameOntoDefined old new)
  else
    let rewired := (s.renameProduced old new).replaceInputs old new
    .ok (ofHosts { rewired.tree with
      inputs := rewired.tree.inputs.map (substituteName old new)
      outputs := rewired.tree.outputs.map (substituteName old new)
      infos := Graph.movedInfos rewired.tree.infos old new } rewired.hosts)

/-- Lets every output slot named `old` take the value `new`. What is known of `old` is known of `new`
unless something is known of it already, and is forgotten for `old` when no node produces it. -/
def rebindOutput (enclosing : List Graph) (s : Indexed) (old new : String) :
    Except Failure Indexed :=
  if !s.tree.isOutput old then .error (.noSuchOutput s.tree.name old)
  else
    let outputs := s.tree.outputs.map (substituteName old new)
    let infos := match s.tree.infos.get? old, s.tree.info? enclosing new with
      | some info, none => s.tree.infos.set { info with name := new }
      | _, _ => s.tree.infos
    let infos := if outputs.contains old || (s.producerPlace? old).isSome then infos
      else infos.erase old
    .ok (ofHosts { s.tree with outputs, infos } s.hosts)

/-! ## Order -/

/-- For each node the places that it depends on, by the index. -/
def dependencies (s : Indexed) : List (List Nat) :=
  s.tree.nodes.zipIdx.map fun host =>
    ((s.reads host.2 host.1).filterMap s.index.producers).eraseDups

/-- The graph with its nodes in dependency order. -/
def sortTopologically (s : Indexed) : Except Failure Indexed :=
  let (order, left) := Worklist.run s.dependencies s.tree.nodes.length (.start s.dependencies)
  if order.length = s.tree.nodes.length then
    .ok (ofHosts s.tree (order.filterMap fun place => s.hosts[place]?))
  else .error (.malformed
    [{ graph := s.tree.name, problem := .cycle (s.tree.waitingNodes left.pending) }])

end Indexed

/-! ## Mutations of a tree -/

/-- What can be done to a graph. -/
inductive Mutation
  | add (host : Host)
  | replace (r : NodeRef) (next : Host)
  | remove (r : NodeRef)
  | removeUnreferenced (place : Nat)
  | replaceInputs (old new : String)
  | rename (old new : String)
  | rebind (old new : String)
  | sort
  | setInfo (info : ValueInfo)
  | eraseInfo (name : String)

/-- What a mutation makes of a graph that remembers nothing, in the graphs around it. -/
def Mutation.edit (enclosing : List Graph) (g : Graph) : Mutation → Except Failure Graph
  | .add host => .ok (g.addNode host.node)
  | .replace r next => g.replaceNode r next.node
  | .remove r => g.removeNode r
  | .removeUnreferenced place => .ok ((g.removeUnreferenced? place).getD g)
  | .replaceInputs old new => .ok (g.replaceInputs old new)
  | .rename old new => g.renameValue old new
  | .rebind old new => g.rebindOutput enclosing old new
  | .sort => g.sortTopologically
  | .setInfo info => .ok (g.setInfo info)
  | .eraseInfo name => .ok (g.eraseInfo name)

/-- The graphs around the one at the end of a trail, innermost first. -/
def Graph.enclosingAt (g : Graph) (trail : Trail) : List Graph :=
  (List.range trail.length).reverse.filterMap fun depth => g.bodyAt? (trail.take depth)

/-- The tree after a mutation of the graph at the end of a trail. -/
def Indexed.mutate (s : Indexed) (trail : Trail) (m : Mutation) : Except Failure Indexed :=
  match s.at? trail with
  | none => .ok s
  | some here =>
      match m with
      | .add host => .ok (s.put trail (here.addNode host))
      | .replace r next => (here.replaceNode r next).map (s.put trail)
      | .remove r => (here.removeNode r).map (s.put trail)
      | .removeUnreferenced place => .ok (((here.removeUnreferenced? place).map (s.put trail)).getD s)
      | .replaceInputs old new =>
          -- where nothing reads the value nothing is changed, and nothing forgotten
          if old = new || (here.readers old).isEmpty then .ok s
          else .ok (s.put trail (here.replaceInputs old new))
      | .rename old new =>
          if old = new then .ok s else (here.renameValue old new).map (s.put trail)
      | .rebind old new =>
          (here.rebindOutput (s.tree.enclosingAt trail) old new).map (s.put trail)
      | .sort => here.sortTopologically.map (s.put trail)
      | .setInfo info => .ok (s.annotate trail (here.tree.setInfo info).infos)
      | .eraseInfo name => .ok (s.annotate trail (here.tree.eraseInfo name).infos)

end TensorGraph
