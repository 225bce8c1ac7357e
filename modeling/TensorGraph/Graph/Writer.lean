import TensorGraph.Graph.Scope
import TensorGraph.Json.Basic

/-!
# Graphs as JSON

The interchange form of a graph: its name, what comes in and goes out, the nodes in
order, and behind them what is known of the values that nodes produce. Numbers, texts
and lists of numbers stand for themselves among the attributes; literal tensors and
body graphs are wrapped in an object with a single member that says which they are.

## Main results

* `Graph.toJsonIn_eq` -- the form of a graph from the forms of its bodies.
-/

namespace TensorGraph

/-- The member for an element type, if it has a name. -/
def DType.toMember (d : DType) : List (String × Json) :=
  (d.name?.map fun name => ("dtype", Json.str name)).toList

/-- The form of what is known of a value; what is not known is left out. -/
def ValueInfo.toJson (info : ValueInfo) : Json :=
  let dtype := match info.dtype with
    | some d => d.toMember
    | none => []
  let shape := match info.shape with
    | some dims => [("shape", Json.arr (dims.map fun
        | some d => .num d
        | none => .null))]
    | none => []
  .obj (("name", .str info.name) :: dtype ++ shape)

/-- The form of a literal tensor. -/
def Literal.toJson (value : Literal) : Json :=
  .obj
    (value.dtype.toMember ++
      [("dims", .arr (value.dims.map .num)), ("data", .arr (value.data.map .num))])

/-- The form of the attributes of a node, given the forms of its bodies in order. -/
def Attributes.toJson : List (String × Attribute) → List Json → List (String × Json)
  | [], _ => []
  | (key, .number x) :: rest, bodies => (key, .num x) :: toJson rest bodies
  | (key, .text s) :: rest, bodies => (key, .str s) :: toJson rest bodies
  | (key, .numbers xs) :: rest, bodies => (key, .arr (xs.map .num)) :: toJson rest bodies
  | (key, .literal value) :: rest, bodies =>
      (key, .obj [("tensor", value.toJson)]) :: toJson rest bodies
  | (key, .body _) :: rest, body :: bodies => (key, .obj [("graph", body)]) :: toJson rest bodies
  | (_, .body _) :: rest, [] => toJson rest []

/-- The form of a node, given the forms of its bodies in order. -/
def Node.toJsonWith (n : Node) (bodies : List Json) : Json :=
  let attributes := Attributes.toJson n.attributes bodies
  .obj
    ([("name", .str n.name),
      ("op", .str n.op),
      ("inputs", .arr (n.inputs.map .str)),
      ("outputs", .arr (n.outputs.map .str))] ++
      if attributes.isEmpty then [] else [("attributes", .obj attributes)])

namespace Graph

/-- What is known of the values that the nodes of a graph produce, inputs and outputs of
the graph apart. -/
def producedInfos (enclosing : List Graph) (g : Graph) : List ValueInfo :=
  g.nodes.zipIdx.flatMap fun (n, i) =>
    n.outputs.filterMap fun output =>
      if g.isInput output || g.isOutput output then none
      else if g.producerPlace? output = some i then g.info? enclosing output
      else none

/-- The form of a graph, given the forms of its nodes. -/
def toJsonWith (enclosing : List Graph) (g : Graph) (nodes : List Json) : Json :=
  let produced := g.producedInfos enclosing
  .obj
    ([("name", .str g.name),
      ("inputs", .arr (g.inputInfos.map ValueInfo.toJson)),
      ("outputs", .arr (g.outputInfos.map ValueInfo.toJson)),
      ("nodes", .arr nodes)] ++
      if produced.isEmpty then [] else [("valueInfo", .arr (produced.map ValueInfo.toJson))])

/-- The form of a graph inside the given enclosing graphs. -/
def toJsonIn (enclosing : List Graph) (g : Graph) : Json :=
  g.fold (fun g below enclosing =>
    g.toJsonWith enclosing
      (List.zipWith (fun n bodies => n.toJsonWith (bodies.map fun body => body (g :: enclosing)))
        g.nodes below)) enclosing

theorem toJsonIn_eq (enclosing : List Graph) (g : Graph) :
    g.toJsonIn enclosing =
      g.toJsonWith enclosing
        (g.nodes.map fun n =>
          n.toJsonWith (n.bodies.map fun body => body.2.toJsonIn (g :: enclosing))) := by
  unfold toJsonIn
  rw [fold_eq]
  simp only [List.zipWith_map_right, List.zipWith_self, List.map_map]
  rfl

/-- The interchange form of a graph that stands by itself. -/
def toJson (g : Graph) : Json := g.toJsonIn []

end Graph

end TensorGraph
