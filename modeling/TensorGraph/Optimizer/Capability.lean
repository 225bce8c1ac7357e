import TensorGraph.Text.UnitOrder

/-!
# What operators allow

Whether a transposition of an input may be moved to the other side of an operator, and
how. Operators that are not listed do not let a transposition through.

## Main results

* `Capability.ofOp_of_not_mem` -- an operator that is not listed is a barrier.
* `Capability.isTransparent_iff_mem` -- the transparent operators are the listed ones.
-/

namespace TensorGraph

/-- The attribute that names the axes which an operator works along. -/
inductive AxisAttribute where
  | axis
  | axes
  deriving DecidableEq, Repr

namespace AxisAttribute

/-- The key of the attribute. -/
def key : AxisAttribute → String
  | .axis => "axis"
  | .axes => "axes"

end AxisAttribute

/-- An operator that works along axes. -/
structure AxisRule where
  namedBy : AxisAttribute
  /-- Whether the axes have to be kept in the result. -/
  requiresKeepDims : Bool
  /-- How many tensor inputs it may have, if there is a limit. -/
  maxInputs : Option Nat
  deriving DecidableEq, Repr

/-- How a transposition relates to an operator. -/
inductive Capability where
  /-- One input, every element by itself. -/
  | unary
  /-- Several inputs, element by element with broadcasting. -/
  | broadcast
  /-- The result is the list of sizes of the input. -/
  | shape
  /-- Works along axes that an attribute names. -/
  | axes (rule : AxisRule)
  /-- Lets no transposition through. -/
  | barrier
  deriving DecidableEq, Repr

namespace Capability

/-- Operators on single elements. -/
def unaryOps : List String :=
  ["Abs", "Acos", "Asin", "Atan", "Cast", "Ceil", "Cos", "Elu", "Erf", "Exp", "Floor",
    "HardSigmoid", "Identity", "IsInf", "IsNaN", "LeakyRelu", "Log", "Neg", "Not",
    "Reciprocal", "Relu", "Round", "Selu", "Sigmoid", "Sign", "Sin", "Softplus", "Softsign",
    "Sqrt", "Tan", "Tanh", "ThresholdedRelu"]

/-- Operators that combine elements. -/
def broadcastOps : List String :=
  ["Add", "And", "Div", "Equal", "Greater", "GreaterOrEqual", "Less", "LessOrEqual", "Max",
    "Mean", "Min", "Mul", "Or", "Pow", "PRelu", "Sub", "Sum", "Where", "Xor"]

/-- Operators that reduce along axes. -/
def reduceOps : List String :=
  ["ReduceMax", "ReduceMean", "ReduceMin", "ReduceProd", "ReduceSum"]

/-- Joining tensors along one axis, any number of them. -/
def joinRule : AxisRule :=
  { namedBy := .axis, requiresKeepDims := false, maxInputs := none }

/-- Reducing a single tensor along a list of axes. -/
def reduceRule : AxisRule :=
  { namedBy := .axes, requiresKeepDims := true, maxInputs := some 1 }

/-- The listed operators with what they allow. -/
def table : List (String × Capability) :=
  unaryOps.map (·, .unary) ++ broadcastOps.map (·, .broadcast) ++
    [("Shape", .shape), ("Concat", .axes joinRule)] ++ reduceOps.map (·, .axes reduceRule)

/-- What an operator allows. -/
def ofOp (op : String) : Capability := (table.lookup op).getD .barrier

/-- Whether a transposition may ever be moved across an operator. -/
def isTransparent (op : String) : Bool := ofOp op != .barrier

/-- The transparent operators in order. -/
def transparentOps : List String := Text.sorted (table.map Prod.fst)

theorem ofOp_of_not_mem {op : String} (h : op ∉ table.map Prod.fst) : ofOp op = .barrier := by
  have : table.lookup op = none := by
    rw [List.lookup_eq_none_iff]
    intro entry hentry
    have hne : op ≠ entry.1 := by
      rintro rfl
      exact h (List.mem_map_of_mem hentry)
    simpa using hne
  simp [ofOp, this]

private theorem table_not_barrier : ∀ entry ∈ table, entry.2 ≠ Capability.barrier := by
  decide

theorem isTransparent_iff_mem {op : String} :
    isTransparent op = true ↔ op ∈ table.map Prod.fst := by
  constructor
  · intro h
    apply Decidable.byContradiction
    intro hmem
    simp [isTransparent, ofOp_of_not_mem hmem] at h
  · intro h
    cases hlookup : table.lookup op with
    | none =>
        rw [List.lookup_eq_none_iff] at hlookup
        obtain ⟨entry, hentry, rfl⟩ := List.mem_map.1 h
        simpa using hlookup entry hentry
    | some capability =>
        obtain ⟨before, after, hsplit, -⟩ := List.lookup_eq_some_iff.1 hlookup
        have := table_not_barrier (op, capability) (by rw [hsplit]; simp)
        simpa [isTransparent, ofOp, hlookup] using this

end Capability

end TensorGraph
