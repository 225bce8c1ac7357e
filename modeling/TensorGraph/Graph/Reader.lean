import TensorGraph.Graph.Basic
import TensorGraph.Failure
import TensorGraph.Inherited
import TensorGraph.Shape.Rounded

/-!
# Graphs from JSON

The reader of the interchange form. It names the first place where the form is not as
expected; whether the graph makes sense is left to validation. Unknown members are
ignored.

Within a graph the value information is read first, then the name, the inputs, the
outputs and the nodes; within a node the attributes come before everything else.

## Main results

* `Json.sizeOf_lookup` -- a member is smaller than its object, so reading ends.
-/

namespace TensorGraph

/-! ## Parts of the form -/

namespace Json

/-- A text. Nothing at all is no text. -/
def expectString (path : Path) : Option Json → Except Failure String
  | some (.str s) => .ok s
  | _ => .error (.format path .string)

/-- An array. -/
def expectArray (path : Path) : Option Json → Except Failure (List Json)
  | some (.arr items) => .ok items
  | _ => .error (.format path .array)

/-- The members of an object. -/
def expectObject (path : Path) : Option Json → Except Failure (List (String × Json))
  | some (.obj members) => .ok members
  | _ => .error (.format path .object)

/-- A number that is finite. -/
def expectNumber (path : Path) : Option Json → Except Failure Number
  | some (.num x) => if x.isFinite then .ok x else .error (.format path .number)
  | _ => .error (.format path .number)

/-- Reads the items of a list one after the other, each with its path. -/
def eachItem {α : Type} (read : Path → Json → Except Failure α) (path : Path) (start : Nat) :
    List Json → Except Failure (List α)
  | [] => .ok []
  | item :: rest => do
      let first ← read (path ++ [.index start]) item
      let others ← eachItem read path (start + 1) rest
      return first :: others

/-- An array with items of one kind. -/
def expectItems {α : Type} (read : Path → Json → Except Failure α) (path : Path)
    (j : Option Json) : Except Failure (List α) := do
  eachItem read path 0 (← expectArray path j)

/-- A list of texts. -/
def expectStrings : Path → Option Json → Except Failure (List String) :=
  expectItems fun path j => expectString path (some j)

/-- A list of finite numbers. -/
def expectNumbers : Path → Option Json → Except Failure (List Number) :=
  expectItems fun path j => expectNumber path (some j)

/-- Numbers as sizes, the first of which stands at index `start` of its list. -/
def sizesOfNumbers (path : Path) (start : Nat) : List Number → Except Failure (List Nat)
  | [] => .ok []
  | x :: rest =>
      match x.toNat? with
      | none => .error (.format (path ++ [.index start]) .size)
      | some n => (sizesOfNumbers path (start + 1) rest).map (n :: ·)

/-- A list of sizes, as they are written and as natural numbers. All entries are numbers
before any of them is looked at as a size. -/
def expectSizes (path : Path) (j : Option Json) : Except Failure (List Number × List Nat) := do
  let written ← expectNumbers path j
  return (written, ← sizesOfNumbers path 0 written)

/-- An element type. -/
def expectDType (path : Path) : Option Json → Except Failure DType
  | some (.str s) =>
      match DType.ofText? s with
      | some d => .ok d
      | none => .error (.format path .elementType)
  | _ => .error (.format path .elementType)

/-- The size of an axis, or null where it is unknown. -/
def expectSizeOrUnknown (path : Path) (j : Json) : Except Failure (Option Number) :=
  match j with
  | .null => .ok none
  | other => do
      let x ← expectNumber path (some other)
      if x.toNat?.isSome then return some x else .error (.format path .sizeOrUnknown)

/-- Something that may be missing. -/
def optional {α : Type} (read : Option Json → Except Failure α) :
    Option Json → Except Failure (Option α)
  | none => .ok none
  | some j => (read (some j)).map some

theorem sizeOf_lookup {members : List (String × Json)} {key : String} {j : Json}
    (h : members.lookup key = some j) : sizeOf j < sizeOf members := by
  induction members with
  | nil => simp at h
  | cons entry rest ih =>
      obtain ⟨k, v⟩ := entry
      rw [List.lookup_cons] at h
      split at h
      · obtain rfl := Option.some.inj h
        simp only [List.cons.sizeOf_spec, Prod.mk.sizeOf_spec]
        omega
      · have := ih h
        simp only [List.cons.sizeOf_spec]
        omega

end Json

open Json

/-- What is known of a value. -/
def ValueInfo.ofJson (path : Path) (j : Json) : Except Failure ValueInfo := do
  let members ← expectObject path (some j)
  let name ← expectString (path ++ [.key "name"]) (members.lookup "name")
  let dtype ← optional (expectDType (path ++ [.key "dtype"])) (members.lookup "dtype")
  let shape ← optional (expectItems expectSizeOrUnknown (path ++ [.key "shape"]))
    (members.lookup "shape")
  return { name, dtype, shape }

/-- What is known of several values. -/
def ValueInfo.listOfJson : Path → Option Json → Except Failure (List ValueInfo) :=
  expectItems ValueInfo.ofJson

/-- A literal tensor, which has as many entries as its sizes multiply to. -/
def Literal.ofJson (path : Path) (j : Option Json) : Except Failure Literal := do
  let members ← expectObject path j
  let dtype ← expectDType (path ++ [.key "dtype"]) (members.lookup "dtype")
  let (dims, sizes) ← expectSizes (path ++ [.key "dims"]) (members.lookup "dims")
  let data ← expectNumbers (path ++ [.key "data"]) (members.lookup "data")
  if Shape.measured sizes = .ofInt data.length then
    return { dtype, dims, data }
  else
    .error (.format (path ++ [.key "data"]) (.entries (Shape.measured sizes) data.length))

mutual

/-- A graph at a path of the value that is read. -/
def Graph.ofJsonAt (path : Path) : Json → Except Failure Graph
  | .obj members => do
      let valueInfo ← match members.lookup "valueInfo" with
        | none => pure []
        | some j => ValueInfo.listOfJson (path ++ [.key "valueInfo"]) (some j)
      let name ← expectString (path ++ [.key "name"]) (members.lookup "name")
      let inputs ← ValueInfo.listOfJson (path ++ [.key "inputs"]) (members.lookup "inputs")
      let outputs ← ValueInfo.listOfJson (path ++ [.key "outputs"]) (members.lookup "outputs")
      let nodes ← match h : members.lookup "nodes" with
        | some (.arr items) =>
            have := sizeOf_lookup h
            Node.listOfJson (path ++ [.key "nodes"]) 0 items
        | _ => .error (.format (path ++ [.key "nodes"]) .array)
      return Graph.assemble name inputs outputs valueInfo nodes
  | _ => .error (.format path .object)
termination_by j => sizeOf j
decreasing_by
  simp only [Json.arr.sizeOf_spec] at this
  simp only [Json.obj.sizeOf_spec]
  omega

/-- Nodes, of which the first stands at index `start` of its list. -/
def Node.listOfJson (path : Path) (start : Nat) : List Json → Except Failure (List Node)
  | [] => .ok []
  | item :: rest => do
      let first ← Node.ofJson (path ++ [.index start]) item
      let others ← Node.listOfJson path (start + 1) rest
      return first :: others
termination_by items => sizeOf items

/-- A node. -/
def Node.ofJson (path : Path) : Json → Except Failure Node
  | .obj members => do
      let attributes ← match h : members.lookup "attributes" with
        | none => pure []
        | some (.obj entries) =>
            have := sizeOf_lookup h
            Attributes.ofJson (path ++ [.key "attributes"]) entries
        | some _ => .error (.format (path ++ [.key "attributes"]) .object)
      let name ← expectString (path ++ [.key "name"]) (members.lookup "name")
      let op ← expectString (path ++ [.key "op"]) (members.lookup "op")
      let inputs ← expectStrings (path ++ [.key "inputs"]) (members.lookup "inputs")
      let outputs ← expectStrings (path ++ [.key "outputs"]) (members.lookup "outputs")
      return { name, op, inputs, outputs, attributes }
  | _ => .error (.format path .object)
termination_by j => sizeOf j
decreasing_by
  simp only [Json.obj.sizeOf_spec] at this ⊢
  omega

/-- The attributes of a node. One under a name that keeps nothing is read and left out. -/
def Attributes.ofJson (path : Path) :
    List (String × Json) → Except Failure (List (String × Attribute))
  | [] => .ok []
  | (key, value) :: rest => do
      let first ← Attribute.ofJson (path ++ [.key key]) value
      let others ← Attributes.ofJson path rest
      return if Inherited.keeps key then (key, first) :: others else others
termination_by entries => sizeOf entries

/-- One attribute: a number, a text, a list of numbers, a literal tensor or a body. -/
def Attribute.ofJson (path : Path) : Json → Except Failure Attribute
  | .num x => (expectNumber path (some (.num x))).map .number
  | .str s => .ok (.text s)
  | .arr items => (expectNumbers path (some (.arr items))).map .numbers
  | .obj members =>
      if (members.lookup "tensor").isSome then
        (Literal.ofJson (path ++ [.key "tensor"]) (members.lookup "tensor")).map .literal
      else
        match h : members.lookup "graph" with
        | some j =>
            have := sizeOf_lookup h
            (Graph.ofJsonAt (path ++ [.key "graph"]) j).map .body
        | none => .error (.format path .attribute)
  | _ => .error (.format path .object)
termination_by j => sizeOf j
decreasing_by
  simp only [Json.obj.sizeOf_spec]
  omega

end

/-- The graph that a JSON value describes. -/
def Graph.ofJson : Option Json → Except Failure Graph
  | some j => Graph.ofJsonAt [] j
  | none => .error (.format [] .object)

end TensorGraph
