import TensorGraph.Json.Basic
import TensorGraph.Graph.Basic
import TensorGraph.Shape

/-!
# The interchange form of graphs

Which JSON values describe graphs, said without reading them: what members there have to be
and what may stand in them, through body graphs of any depth. Members that are not mentioned
do not matter.

## Main results

* `IsGraphForm.isObject` -- only objects describe graphs.
-/

namespace TensorGraph

/-! ## Parts -/

/-- A text that is there. -/
def IsTextForm (j : Option Json) : Prop := ∃ s, j = some (.str s)

/-- A finite number. -/
def IsNumberForm (j : Json) : Prop := ∃ x : Number, j = .num x ∧ x.isFinite = true

/-- The size of an axis. -/
def IsSizeForm (j : Json) : Prop :=
  ∃ (x : Number) (n : Nat), j = .num x ∧ x.isFinite = true ∧ x.toNat? = some n

/-- The name of a listed element type. -/
def IsDTypeForm (j : Json) : Prop := ∃ d ∈ DType.all, j = .str d.text

/-- A list that is there, of items of one kind. -/
def IsListForm (item : Json → Prop) (j : Option Json) : Prop :=
  ∃ items, j = some (.arr items) ∧ ∀ i ∈ items, item i

/-- Something that may be missing. -/
def IsOptionalForm (form : Json → Prop) (j : Option Json) : Prop :=
  ∀ inner, j = some inner → form inner

/-- What is known of a value: its name, and its element type and shape if they are known. -/
def IsInfoForm (j : Json) : Prop :=
  ∃ members, j = .obj members ∧
    IsTextForm (members.lookup "name") ∧
    IsOptionalForm IsDTypeForm (members.lookup "dtype") ∧
    IsOptionalForm (fun shape => IsListForm (fun d => d = .null ∨ IsSizeForm d) (some shape))
      (members.lookup "shape")

/-- Whether a list of numbers stands for given sizes, one for one. -/
def AreSizes : List Json → List Nat → Prop
  | [], [] => True
  | j :: items, d :: dims =>
      (∃ x : Number, j = .num x ∧ x.isFinite = true ∧ x.toNat? = some d) ∧ AreSizes items dims
  | _, _ => False

/-- A literal tensor: an element type, sizes, and as many finite entries as the sizes multiply
to, which is a number in the exact range. -/
def IsLiteralForm (j : Json) : Prop :=
  ∃ members dtype dims sizes data,
    j = .obj members ∧
    members.lookup "dtype" = some dtype ∧ IsDTypeForm dtype ∧
    members.lookup "dims" = some (.arr dims) ∧ AreSizes dims sizes ∧
    members.lookup "data" = some (.arr data) ∧ (∀ x ∈ data, IsNumberForm x) ∧
    data.length = Shape.size sizes ∧ Shape.size sizes < exactRange

/-! ## Graphs, nodes and attributes -/

mutual

/-- An attribute: a finite number, a text, a list of finite numbers, a literal tensor, or a
body graph. An object that has both counts as a literal tensor. -/
inductive IsAttributeForm : Json → Prop where
  | number {j : Json} : IsNumberForm j → IsAttributeForm j
  | text (s : String) : IsAttributeForm (.str s)
  | numbers {items : List Json} : (∀ j ∈ items, IsNumberForm j) → IsAttributeForm (.arr items)
  | literal {members : List (String × Json)} {j : Json} :
      members.lookup "tensor" = some j → IsLiteralForm j → IsAttributeForm (.obj members)
  | body {members : List (String × Json)} {j : Json} :
      members.lookup "tensor" = none → members.lookup "graph" = some j → IsGraphForm j →
      IsAttributeForm (.obj members)

/-- A node: its name, its operator, what it reads and yields, and its attributes if it has
any. -/
inductive IsNodeForm : Json → Prop where
  | bare {members : List (String × Json)} :
      IsTextForm (members.lookup "name") → IsTextForm (members.lookup "op") →
      IsListForm (fun j => IsTextForm (some j)) (members.lookup "inputs") →
      IsListForm (fun j => IsTextForm (some j)) (members.lookup "outputs") →
      members.lookup "attributes" = none → IsNodeForm (.obj members)
  | withAttributes {members attributes : List (String × Json)} :
      IsTextForm (members.lookup "name") → IsTextForm (members.lookup "op") →
      IsListForm (fun j => IsTextForm (some j)) (members.lookup "inputs") →
      IsListForm (fun j => IsTextForm (some j)) (members.lookup "outputs") →
      members.lookup "attributes" = some (.obj attributes) →
      (∀ entry ∈ attributes, IsAttributeForm entry.2) → IsNodeForm (.obj members)

/-- A graph: its name, what comes in and goes out, its nodes, and what is known of other
values if anything is. -/
inductive IsGraphForm : Json → Prop where
  | intro {members : List (String × Json)} {nodes : List Json} :
      IsTextForm (members.lookup "name") →
      IsListForm IsInfoForm (members.lookup "inputs") →
      IsListForm IsInfoForm (members.lookup "outputs") →
      IsOptionalForm (fun infos => IsListForm IsInfoForm (some infos))
        (members.lookup "valueInfo") →
      members.lookup "nodes" = some (.arr nodes) → (∀ j ∈ nodes, IsNodeForm j) →
      IsGraphForm (.obj members)

end

theorem IsGraphForm.isObject {j : Json} (h : IsGraphForm j) : ∃ members, j = .obj members := by
  cases h with
  | intro => exact ⟨_, rfl⟩

end TensorGraph
