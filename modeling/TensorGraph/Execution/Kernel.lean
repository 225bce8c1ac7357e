import TensorGraph.Execution.Operand

/-!
# Kernels of operators

What an operator computes from its operands, for all operators but those that run body
graphs. Absent inputs do not count as operands. A kernel may yield fewer values than the
node has outputs.

## Main results

* `kernel_of_notMem` -- an operator without a kernel is refused by name.
-/

namespace TensorGraph

open Operand

variable {V : Type} [Operand V]

/-- The function of an operator that treats single elements. -/
def unaryKernels : List (String × Elementwise) :=
  [("Abs", .abs), ("Neg", .neg), ("Exp", .exp), ("Log", .log), ("Sqrt", .sqrt), ("Tanh", .tanh),
    ("Reciprocal", .reciprocal), ("Floor", .floor), ("Ceil", .ceil)]

/-- The function of an operator that combines any number of tensors from the left. -/
def foldKernels : List (String × Combination) :=
  [("Add", .add), ("Sub", .sub), ("Mul", .mul), ("Div", .div), ("Max", .max), ("Min", .min),
    ("Sum", .add)]

/-- The slope of a leaky operator that does not name one. -/
def defaultSlope : Number := .real 0.01

/-- An operand that the kernel cannot do without. -/
def operand (n : Node) (inputs : List V) (i : Nat) : Except Failure V :=
  match inputs[i]? with
  | some t => .ok t
  | none => .error (.missingOperand n.name)

/-- The axes of a reduction: from a second operand, or else from the attribute. -/
def reductionAxes (n : Node) (inputs : List V) :
    Except Failure (Option (List (Option Number))) :=
  match inputs[1]? with
  | some axes => (elements axes).map some
  | none => .ok ((n.numbers? "axes").map fun axes => axes.map some)

/-- The options of a reducing node. -/
def reductionOptions (n : Node) (inputs : List V) : Except Failure Tensor.ReduceOptions :=
  (reductionAxes n inputs).map fun axes =>
    { axes, keepDims := ((n.number? "keepdims").getD (.int 1)).same (.int 1) }

/-- The kernels that look at more than their operands. -/
def namedKernel (n : Node) (inputs : List V) : Except Failure (List V) := do
  match n.op with
  | "Constant" =>
      match n.literal? "value" with
      | none => .error (.constantWithoutValue n.name)
      | some value => return [← ofLiteral value]
  | "Identity" => return inputs.take 1
  | "Transpose" =>
      let x ← operand n inputs 0
      let perm := (n.numbers? "perm").getD
        (Permutation.toNumbers (Permutation.reversed (← rank x)))
      return [← contiguous (← permute x perm)]
  | "Relu" => return [← apply .relu (← operand n inputs 0)]
  | "LeakyRelu" =>
      let slope := (n.number? "alpha").getD defaultSlope
      return [← apply (.leakyRelu slope) (← operand n inputs 0)]
  | "Sigmoid" => return [← apply .sigmoid (← operand n inputs 0)]
  | "Shape" => return [← sizes (← operand n inputs 0)]
  | "Gather" =>
      if !((n.number? "axis").getD (.int 0)).same (.int 0) then .error (.gatherAxis n.name)
      else
        let x ← operand n inputs 0
        if (← rank x) = 0 then .error .takeFromScalar
        else
          let source ← contiguous x
          return [← take source (← operand n inputs 1)]
  | "Concat" =>
      match n.number? "axis" with
      | none => .error (.concatWithoutAxis n.name)
      | some axis => return [← concat inputs axis]
  | "ReduceSum" =>
      let options ← reductionOptions n inputs
      return [← sum (← operand n inputs 0) options]
  | "ReduceMean" =>
      let options ← reductionOptions n inputs
      return [← mean (← operand n inputs 0) options]
  | op => .error (.noKernel op n.name)

/-- What a node without body graphs yields for its operands. -/
def kernel (n : Node) (inputs : List V) : Except Failure (List V) :=
  match unaryKernels.lookup n.op with
  | some f => do return [← apply f (← operand n inputs 0)]
  | none =>
      match foldKernels.lookup n.op with
      | some f =>
          match inputs with
          | [] => .error (.noOperands n.op n.name)
          | first :: rest => do return [← rest.foldlM (combine f) first]
      | none => namedKernel n inputs

/-- The operators whose kernels look at more than their operands. -/
def namedOps : List String :=
  ["Constant", "Identity", "Transpose", "Relu", "LeakyRelu", "Sigmoid", "Shape", "Gather",
    "Concat", "ReduceSum", "ReduceMean"]

/-- The operators that have a kernel. -/
def kernelOps : List String :=
  unaryKernels.map Prod.fst ++ foldKernels.map Prod.fst ++ namedOps

theorem kernel_of_notMem {n : Node} (inputs : List V) (h : n.op ∉ kernelOps) :
    kernel n inputs = .error (.noKernel n.op n.name) := by
  simp only [kernelOps, List.mem_append, not_or] at h
  obtain ⟨⟨hunary, hfold⟩, hnamed⟩ := h
  have hunary : unaryKernels.lookup n.op = none :=
    List.lookup_eq_none_iff.2 fun p hp => by
      simpa using fun e : n.op = p.1 => hunary (e ▸ List.mem_map_of_mem hp)
  have hfold : foldKernels.lookup n.op = none :=
    List.lookup_eq_none_iff.2 fun p hp => by
      simpa using fun e : n.op = p.1 => hfold (e ▸ List.mem_map_of_mem hp)
  simp only [kernel, hunary, hfold, namedKernel]
  split <;> simp_all [namedOps]

end TensorGraph
