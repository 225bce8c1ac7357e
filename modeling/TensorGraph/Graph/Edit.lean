import TensorGraph.Graph.Scope
import TensorGraph.Failure

/-!
# Editing a graph

The steps from which all changes of graphs are made. Each is a function from graphs to
graphs that keeps producers and readers consistent: rewiring the readers of a value
follows it into the bodies that read it from outside, down to the graph that defines
the name anew.

A node is addressed by a `NodeRef`: the node as it was looked up, and the place where it
stands. Replacing a node takes its place away from everyone who refers to it.

## Main results

* `Graph.replaceInputs_self` -- rewiring a value to itself changes nothing.
* `Graph.outputs_replaceInputs`, `Graph.inputs_replaceInputs` -- rewiring leaves the
  interface alone.
* `Graph.length_replaceInputs` -- and the number of nodes.
* `Graph.removeUnreferenced?_eq_none_iff` -- exactly the nodes that are still in use
  resist removal.
-/

namespace TensorGraph

/-- `new` in the place of `old`, and any other name as it is. -/
def substituteName (old new name : String) : String := if name == old then new else name

/-- A node that reads `new` where it read `old`, with the given bodies. It is a new node,
so it has no bookmarks. -/
def Node.rewired (old new : String) (n : Node) (bodies : List Graph) : Node :=
  { n with
    inputs := n.inputs.map (substituteName old new)
    attributes := Attributes.withBodies n.attributes bodies
    bookmarks := [] }

namespace Graph

/-- The graph with `new` in place of a name `old` that it takes from outside. A graph
that defines `old` itself means something else by it and stays. -/
def substituteOuter (old new : String) : Graph → Graph :=
  fold fun g below =>
    if g.defines old then g
    else
      { g with
        nodes := List.zipWith
          (fun n bodies => if n.reads.contains old then n.rewired old new bodies else n)
          g.nodes below
        outputs := g.outputs.map (substituteName old new) }

end Graph

/-- The node after its readings of `old` have become readings of `new`, in it and in its
bodies. A node that does not read `old` stays the same node. -/
def Node.replaceReads (old new : String) (n : Node) : Node :=
  if n.reads.contains old then
    n.rewired old new (n.bodies.map fun body => body.2.substituteOuter old new)
  else n

namespace Graph

theorem substituteOuter_eq (old new : String) (g : Graph) :
    g.substituteOuter old new =
      if g.defines old then g
      else { g with
        nodes := g.nodes.map (Node.replaceReads old new)
        outputs := g.outputs.map (substituteName old new) } := by
  unfold substituteOuter
  rw [fold_eq]
  simp only [List.zipWith_map_right, List.zipWith_self]
  rfl

/-- Makes every reader of `old` read `new`, bodies included. Outputs of the graph keep
their names. -/
def replaceInputs (g : Graph) (old new : String) : Graph :=
  if old = new then g else { g with nodes := g.nodes.map (Node.replaceReads old new) }

@[simp] theorem replaceInputs_self (g : Graph) (value : String) :
    g.replaceInputs value value = g := by
  simp [replaceInputs]

@[simp] theorem inputs_replaceInputs (g : Graph) (old new : String) :
    (g.replaceInputs old new).inputs = g.inputs := by
  unfold replaceInputs; split <;> rfl

@[simp] theorem outputs_replaceInputs (g : Graph) (old new : String) :
    (g.replaceInputs old new).outputs = g.outputs := by
  unfold replaceInputs; split <;> rfl

@[simp] theorem infos_replaceInputs (g : Graph) (old new : String) :
    (g.replaceInputs old new).infos = g.infos := by
  unfold replaceInputs; split <;> rfl

@[simp] theorem length_replaceInputs (g : Graph) (old new : String) :
    (g.replaceInputs old new).nodes.length = g.nodes.length := by
  unfold replaceInputs; split <;> simp

/-- The graph with one more node at the end. -/
def addNode (g : Graph) (n : Node) : Graph := { g with nodes := g.nodes ++ [n] }

/-- The graph with `n` at a place of its node list. -/
def putNode (g : Graph) (place : Nat) (n : Node) : Graph := { g with nodes := g.nodes.set place n }

/-- The graph without the node at a place. -/
def dropNode (g : Graph) (place : Nat) : Graph := { g with nodes := g.nodes.eraseIdx place }

/-- The graph in whose table `info` is the entry of its name. -/
def setInfo (g : Graph) (info : ValueInfo) : Graph := { g with infos := g.infos.set info }

/-- The graph without an entry for a name, unless the name is an input or an output. -/
def eraseInfo (g : Graph) (name : String) : Graph :=
  if g.isInput name || g.isOutput name then g else { g with infos := g.infos.erase name }

/-- Whether a value is an output of the graph or read by a node at another place. -/
def isUsedBeside (g : Graph) (place : Nat) (value : String) : Bool :=
  g.isOutput value || (g.readers value).any fun reader => reader != place

/-- The graph without the node at a place and without what is known of its outputs,
unless one of the outputs is still in use. -/
def removeUnreferenced? (g : Graph) (place : Nat) : Option Graph :=
  match g.nodes[place]? with
  | none => none
  | some n =>
      if n.outputs.any (g.isUsedBeside place) then none
      else some { g.dropNode place with infos := n.outputs.foldl InfoTable.erase g.infos }

theorem removeUnreferenced?_eq_none_iff {g : Graph} {place : Nat} {n : Node}
    (h : g.nodes[place]? = some n) :
    g.removeUnreferenced? place = none ↔
      ∃ value ∈ n.outputs, g.isUsedBeside place value = true := by
  simp [removeUnreferenced?, h]

/-- The table after a value has got a new name: its entry moves, unless the new name has
one already. -/
def movedInfos (infos : InfoTable) (old new : String) : InfoTable :=
  match infos.get? old with
  | none => infos
  | some info =>
      let rest := infos.erase old
      match rest.get? new with
      | some _ => rest
      | none => rest.set { info with name := new }

/-- The producer of `old` produces `new` in its place. -/
def renameProduced (g : Graph) (old new : String) : Graph :=
  match g.producerPlace? old, g.producer? old with
  | some place, some n =>
      g.putNode place
        { n with outputs := n.outputs.map (substituteName old new), bookmarks := [] }
  | _, _ => g

/-- Renames a value wherever it appears in the scope of the graph: at its producer, its
readers, the inputs and outputs, in bodies, and in the table. -/
def renameValue (g : Graph) (old new : String) : Except Failure Graph :=
  if old = new then .ok g
  else if g.defines new then .error (.renameOntoDefined old new)
  else
    let rewired := (g.renameProduced old new).replaceInputs old new
    .ok { rewired with
      inputs := rewired.inputs.map (substituteName old new)
      outputs := rewired.outputs.map (substituteName old new)
      infos := movedInfos rewired.infos old new }

/-- Lets every output slot named `old` take the value `new`. What is known of `old` is
known of `new` unless something is known of it already, and is forgotten for `old` when
no node produces it. -/
def rebindOutput (enclosing : List Graph) (g : Graph) (old new : String) : Except Failure Graph :=
  if !g.isOutput old then .error (.noSuchOutput g.name old)
  else
    let outputs := g.outputs.map (substituteName old new)
    let rebound := { g with outputs }
    let infos := match g.infos.get? old, rebound.info? enclosing new with
      | some info, none => g.infos.set { info with name := new }
      | _, _ => g.infos
    let infos := if outputs.contains old || (g.producer? old).isSome then infos
      else infos.erase old
    .ok { rebound with infos }

/-- A copy: the same graph from its parts, with new nodes. Inputs and outputs of which
nothing is known get an entry that says so. -/
def clone : Graph → Graph :=
  fold fun g below =>
    assemble g.name g.inputInfos g.outputInfos g.infos.entries
      (List.zipWith (fun n bodies => { n.withBodies bodies with bookmarks := [] }) g.nodes below)

end Graph

/-! ## References to nodes -/

/-- A node as it was when it was looked up, and the place where it stands, if it still
does. -/
structure NodeRef where
  node : Node
  place : Option Nat

namespace NodeRef

/-- The reference after the readers of `old` have been rewired to `new`: a node that read
`old` has been replaced. -/
def afterRewiring (r : NodeRef) (old new : String) : NodeRef :=
  if old ≠ new && r.node.reads.contains old then { r with place := none } else r

end NodeRef

namespace Graph

/-- The reference to the node at a place. -/
def nodeRef? (g : Graph) (place : Nat) : Option NodeRef :=
  g.nodes[place]?.map fun node => { node, place := some place }

/-- The place of a node that must still be there. -/
def placeOf (g : Graph) (r : NodeRef) : Except Failure Nat :=
  match r.place with
  | some place => .ok place
  | none => .error (.noSuchNode g.name r.node.name)

/-- The graph without a node. What the node produced is not looked at. -/
def removeNode (g : Graph) (r : NodeRef) : Except Failure Graph :=
  (g.placeOf r).map g.dropNode

/-- The graph with another node in the place of a node. -/
def replaceNode (g : Graph) (r : NodeRef) (next : Node) : Except Failure Graph :=
  (g.placeOf r).map fun place => g.putNode place next

/-! ## Bookmarks -/

/-- The graph with a bookmark on the node at a place. -/
def addBookmark (g : Graph) (place mark : Nat) : Graph :=
  match g.nodes[place]? with
  | none => g
  | some n => g.putNode place { n with bookmarks := mark :: n.bookmarks }

/-- The reference to the node that carries a bookmark. -/
def bookmarked? (g : Graph) (mark : Nat) : Option NodeRef :=
  (g.nodes.findIdx? fun n => n.bookmarks.contains mark).bind g.nodeRef?

/-! ## Bodies -/

/-- The graph with another body under `key` of the node at a place. The node stays the
same node. -/
def putBody (g : Graph) (place : Nat) (key : String) (body : Graph) : Graph :=
  match g.nodes[place]? with
  | none => g
  | some n =>
      g.putNode place
        { n with attributes := n.attributes.map fun (k, v) =>
            if k == key then (k, .body body) else (k, v) }

end Graph

end TensorGraph
