import TensorGraph.Graph.Order
import TensorGraph.Permutation.Checked

/-!
# Validity

The structural rules of graphs, checked scope by scope: names of nodes are distinct,
every value has one definition that no enclosing graph has already, everything that is
read is defined, the nodes have an order, and the operators with rules of their own
keep them. All issues of a scope are reported before those of its bodies.

## Main results

* `Graph.issuesIn_eq` -- the issues of a graph from those of its bodies.
* `Graph.assertValid_eq_ok_iff` -- exactly the graphs without issues are accepted.
-/

namespace TensorGraph

namespace Graph

/-- Nodes with a name, or a value, that another node had before. `seen` holds the names of
the nodes before, `produced` the values with their last producers, latest first. -/
def definitionProblems (g : Graph) : List String → List (String × String) → List Node → List Problem
  | _, _, [] => []
  | seen, produced, n :: rest =>
      let named := if seen.contains n.name then [Problem.duplicateNodeName n.name] else []
      let (problems, produced) := n.outputs.foldl
        (fun (found, produced) output =>
          if output = "" then (found, produced)
          else
            let found := match produced.lookup output with
              | some earlier => found ++ [Problem.duplicateProducer n.name output earlier]
              | none =>
                  if g.isInput output then found ++ [Problem.inputShadowed n.name output]
                  else found
            (found, (output, n.name) :: produced))
        (([] : List Problem), produced)
      named ++ problems ++ g.definitionProblems (n.name :: seen) produced rest

/-- Definitions of names that an enclosing graph defines already. -/
def shadowingProblems (enclosing : List Graph) (g : Graph) : List Problem :=
  let visible (name : String) : Bool :=
    (enclosing.findSome? fun scope => scope.localOrigin? name).isSome
  (g.inputs.filter visible).map Problem.outerShadowedByInput ++
    g.nodes.flatMap fun n =>
      (n.outputs.filter fun output => output != "" && visible output).map
        (Problem.outerShadowedByNode n.name)

/-- A permutation attribute has to be a permutation, of the rank of the input if that is
known. -/
def transposeProblems (enclosing : List Graph) (g : Graph) (n : Node) : List Problem :=
  match n.numbers? "perm" with
  | none => []
  | some perm =>
      if (Permutation.ofNumbers? perm).isNone then [.notPermutation n.name perm]
      else
        match (g.info? enclosing (n.inputs.headD "")).bind ValueInfo.shape with
        | some shape =>
            if shape.length = perm.length then []
            else [.permutationRank n.name perm shape.length]
        | none => []

/-- A loop takes a trip count, a condition and the carried values. Its body takes the
iteration, the condition and the carried values, and yields the condition, the carried
values and the scanned ones; the loop yields the last two. -/
def loopProblems (n : Node) : List Problem :=
  match n.body? "body" with
  | none => [.loopWithoutBody n.name]
  | some body =>
      if n.inputs.length < 2 then [.loopInputCount n.name n.inputs.length]
      else
        let expected := n.inputs.length
        let inputs :=
          if body.inputs.length = expected then []
          else [Problem.loopBodyInputs n.name body.inputs.length expected]
        let outputs :=
          if body.outputs.length < expected - 1 then
            [Problem.loopBodyOutputs n.name body.outputs.length (expected - 1)]
          else if n.outputs.length ≠ body.outputs.length - 1 then
            [Problem.loopOutputs n.name n.outputs.length (body.outputs.length - 1)]
          else []
        inputs ++ outputs

/-- A conditional has a graph for each branch. -/
def branchProblems (n : Node) : List Problem :=
  (["then_branch", "else_branch"].filter fun branch => (n.body? branch).isNone).map
    (Problem.branchMissing n.name)

/-- What is wrong with a single node, seen in its scope. -/
def nodeProblems (enclosing : List Graph) (g : Graph) (n : Node) : List Problem :=
  let dangling := n.inputs.filter fun input =>
    input != "" && (g.resolve enclosing input).isNone
  dangling.map (Problem.danglingInput n.name) ++
    (if n.op = "Transpose" then g.transposeProblems enclosing n else []) ++
    (if n.op = "Loop" then loopProblems n else []) ++
    (if n.op = "If" then branchProblems n else [])

/-- Outputs of the graph that nothing defines. -/
def outputProblems (enclosing : List Graph) (g : Graph) : List Problem :=
  (g.outputs.filter fun output => (g.resolve enclosing output).isNone).map Problem.danglingOutput

/-- The issues of one scope. -/
def scopeIssues (enclosing : List Graph) (g : Graph) : List Issue :=
  let problems :=
    g.definitionProblems [] [] g.nodes ++
      g.shadowingProblems enclosing ++
      g.nodes.flatMap (g.nodeProblems enclosing) ++
      g.outputProblems enclosing
  let cycles := match g.topologicalOrder with
    | .error (.malformed issues) => issues
    | _ => []
  problems.map (fun problem => { graph := g.name, problem }) ++ cycles

/-- The issues of a graph and of the graphs below it, inside the given enclosing
graphs. -/
def issuesIn (enclosing : List Graph) (g : Graph) : List Issue :=
  g.fold (fun g (below : List (List (List Graph → List Issue))) enclosing =>
    g.scopeIssues enclosing ++
      below.flatMap fun bodies => bodies.flatMap fun body => body (g :: enclosing)) enclosing

theorem issuesIn_eq (enclosing : List Graph) (g : Graph) :
    g.issuesIn enclosing =
      g.scopeIssues enclosing ++
        g.nodes.flatMap fun n => n.bodies.flatMap fun body =>
          body.2.issuesIn (g :: enclosing) := by
  unfold issuesIn
  rw [fold_eq]
  simp only [List.flatMap_map]

/-- All issues of a graph that stands by itself. -/
def issues (g : Graph) : List Issue := g.issuesIn []

/-- Whether a graph keeps all structural rules. -/
def IsValid (g : Graph) : Prop := g.issues = []

/-- Accepts a graph without issues. -/
def assertValid (g : Graph) : Except Failure Unit :=
  if g.issues.isEmpty then .ok () else .error (.malformed g.issues)

theorem assertValid_eq_ok_iff {g : Graph} : g.assertValid = .ok () ↔ g.IsValid := by
  unfold assertValid IsValid
  cases g.issues <;> simp

end Graph

end TensorGraph
