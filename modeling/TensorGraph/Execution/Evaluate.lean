import TensorGraph.Execution.Kernel
import TensorGraph.Graph.Order
import TensorGraph.Inherited

/-!
# Running a graph

A graph is run by binding its inputs, computing its nodes in dependency order and reading
its outputs. A body graph reads names that it does not bind from the graphs around it, as
they are bound at that moment. A conditional runs one of its two bodies, a loop runs its
body again and again on the values that it carries.

What the other operators compute, and how many rounds a loop may take, is up to the machine
that runs the graph. A loop may be asked to run without end; running out of rounds is a
failure of its own, which stands for no result at all.

## Main results

* `Evaluation.run_eq` -- running a graph in terms of running its bodies.
-/

namespace TensorGraph.Evaluation

open Operand

variable {V : Type} [Operand V]

/-- What a graph is run on. -/
structure Machine (V : Type) where
  /-- What a node without body graphs yields for its operands. -/
  compute : Node → List V → Except Failure (List V)
  /-- How many rounds a loop may take. -/
  budget : Nat

/-- The machine with the kernels of this library. -/
def Machine.standard (budget : Nat) : Machine V := { compute := kernel, budget }

/-- The values that the names of one graph are bound to, latest first. -/
abbrev Bindings (V : Type) := List (String × V)

/-- What is bound in a graph and the graphs around it, innermost first. -/
abbrev Environment (V : Type) := List (Bindings V)

/-- The value of a name: its binding in the nearest graph that has one. -/
def lookup? (env : Environment V) (name : String) : Option V :=
  env.findSome? fun bindings => bindings.lookup name

/-- The value of a name that has to be bound. -/
def lookup (env : Environment V) (name : String) : Except Failure V :=
  match lookup? env name with
  | some t => .ok t
  | none => .error (.unbound name)

/-- What a graph does: from what is bound around it and the values fed to its inputs to
the values of its outputs. -/
abbrev Meaning (V : Type) :=
  Environment V → (String → Option V) → Except Failure (List V)

/-- A body of a node: its key, the graph, and what it does. -/
structure Body (V : Type) where
  key : String
  graph : Graph
  meaning : Meaning V

/-- Whether a condition holds. -/
def holds (x : Number) : Bool := !x.same (.int 0)

/-- A truth value as an element. -/
def truth (b : Bool) : V := scalar .bool (.ofNat (if b then 1 else 0))

/-! ## Bodies -/

/-- The name that the iteration or the condition is fed to when a body has no input for it. -/
def missingName : String := "undefined"

/-- What the inputs of a loop body are fed: the iteration, the condition and the carried
values. An input without a carried value is fed nothing; of inputs with one name the last
counts, or under a name that keeps nothing the last that has a value. -/
def loopFeeds (inputs : List String) (iteration : Nat) (condition : Bool)
    (carried : List V) (name : String) : Option V :=
  let values := scalar .int64 (.ofNat iteration) :: truth condition :: carried
  let names := inputs ++ List.replicate (2 - inputs.length) missingName
  let fed := (names.zipIdx.map fun (input, i) => (input, values[i]?)).reverse
  if Inherited.keeps name then (fed.lookup name).join
  else ((fed.filter fun (_, value) => value.isSome).lookup name).join.or (unfed name)

/-- The rounds of a loop, of which at most `budget` are run. -/
def rounds (n : Node) (body : Body V) (env : Environment V) (limit : Option Number) :
    Nat → Nat → Bool → List V → Except Failure (List V)
  | budget, iteration, condition, carried =>
      if condition && limit.all fun count => (Number.ofNat iteration).below count then
        match budget with
        | 0 => .error (.endless ("loop " ++ n.name))
        | budget + 1 => do
            match ← body.meaning env (loopFeeds body.graph.inputs iteration condition carried) with
            | [] => .error (.missingOperand n.name)
            | next :: state =>
                let value ← single next (n.name ++ " condition")
                rounds n body env limit budget (iteration + 1) (holds value) state
      else .ok carried

/-- Runs a loop. Its operands keep their slots; an absent one stands for no limit, or for
a condition that holds. -/
def runLoop (m : Machine V) (n : Node) (bodies : List (Body V)) (env : Environment V)
    (operands : List V) : Except Failure (List V) := do
  match bodies.find? fun body => body.key == "body" with
  | none => .error (.loopWithoutBody n.name)
  | some body =>
      let limit ←
        if n.inputs[0]? = some "" then pure none
        else do
          let value ← single (← operand n operands 0) (n.name ++ " trip count")
          pure (some value)
      let condition ←
        if n.inputs[1]? = some "" then pure true
        else do
          let value ← single (← operand n operands 1) (n.name ++ " condition")
          pure (holds value)
      let carried := operands.drop 2
      if body.graph.outputs.length = carried.length + 1 then
        rounds n body env limit m.budget 0 condition carried
      else .error (.loopScanOutputs n.name)

/-- Runs the branch of a conditional that its operand chooses. -/
def runBranch (n : Node) (bodies : List (Body V)) (env : Environment V)
    (operands : List V) : Except Failure (List V) := do
  let value ← single (← operand n operands 0) (n.name ++ " condition")
  let branch := if holds value then "then_branch" else "else_branch"
  match bodies.find? fun body => body.key == branch with
  | none => .error (.ifWithoutBranch n.name branch)
  | some body => body.meaning env unfed

/-! ## Nodes and graphs -/

/-- The values that a node yields. -/
def runNode (m : Machine V) (n : Node) (bodies : List (Body V)) (env : Environment V) :
    Except Failure (List V) := do
  let present ← (n.inputs.filter (· != "")).mapM (lookup env)
  if n.op = "Loop" then
    let slots ← n.inputs.mapM fun name =>
      if name = "" then pure (truth true) else lookup env name
    runLoop m n bodies env slots
  else if n.op = "If" then runBranch n bodies env present
  else m.compute n present

/-- The bindings with the outputs of a node bound to the values that it yields. -/
def bindOutputs (n : Node) :
    List String → List V → Bindings V → Except Failure (Bindings V)
  | [], _, bindings => .ok bindings
  | output :: rest, values, bindings =>
      if output = "" then bindOutputs n rest (values.drop 1) bindings
      else
        match values with
        | [] => .error (.nothingProduced n.name output)
        | value :: others => bindOutputs n rest others ((output, value) :: bindings)

/-- The bindings with the inputs of a graph bound to what they are fed. -/
def bindInputs (g : Graph) (feeds : String → Option V) :
    List String → Bindings V → Except Failure (Bindings V)
  | [], bindings => .ok bindings
  | input :: rest, bindings =>
      match feeds input with
      | none => .error (.missingFeed input g.name)
      | some value => bindInputs g feeds rest ((input, value) :: bindings)

/-- Runs the nodes at the given places one after the other. -/
def runPlaces (m : Machine V) (g : Graph) (bodies : List (List (Body V))) (outer : Environment V) :
    List Nat → Bindings V → Except Failure (Bindings V)
  | [], bindings => .ok bindings
  | place :: rest, bindings =>
      match g.nodes[place]? with
      | none => runPlaces m g bodies outer rest bindings
      | some n => do
          let values ← runNode m n (bodies.getD place []) (bindings :: outer)
          let bound ← bindOutputs n n.outputs values bindings
          runPlaces m g bodies outer rest bound

/-- Runs a graph, given what its bodies do, node by node. -/
def runWith (m : Machine V) (g : Graph) (below : List (List (Meaning V))) : Meaning V :=
  fun outer feeds => do
    let inputs ← bindInputs g feeds g.inputs []
    let order ← g.topologicalOrder
    let bodies := List.zipWith
      (fun n meanings => List.zipWith
        (fun (body : String × Graph) meaning => { key := body.1, graph := body.2, meaning })
        n.bodies meanings)
      g.nodes below
    let bindings ← runPlaces m g bodies outer order inputs
    g.outputs.mapM (lookup (bindings :: outer))

/-- What a graph does. -/
def run (m : Machine V) : Graph → Meaning V := Graph.fold (runWith m)

theorem run_eq (m : Machine V) (g : Graph) :
    run m g = runWith m g (g.nodes.map fun n => n.bodies.map fun body => run m body.2) :=
  Graph.fold_eq (runWith m) g

/-- Runs a graph that stands by itself on named values, and names its outputs. An output
under a name that keeps nothing is left out. -/
def execute (m : Machine V) (g : Graph) (feeds : Bindings V) :
    Except Failure (List (String × V)) := do
  let values ← run m g [] fun name => (feeds.lookup name).or (unfed name)
  return (g.outputs.zip values).filter fun (name, _) => Inherited.keeps name

end TensorGraph.Evaluation
