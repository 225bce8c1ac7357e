import TensorGraph.Number

/-!
# Issues of malformed graphs

What can be wrong with a graph, as a cause with its details. Code, node and wording of
an issue are computed from the cause; a `Report` is an issue as it is shown.

## Main results

* `Issue.reportText_nil` -- the heading of an empty listing.
* `Issue.node?_cycle` -- a cycle is no single node's issue.
-/

namespace TensorGraph

/-- What is wrong in a graph. -/
inductive Problem where
  | duplicateNodeName (node : String)
  | duplicateProducer (node value earlier : String)
  | inputShadowed (node value : String)
  | outerShadowedByInput (input : String)
  | outerShadowedByNode (node value : String)
  | danglingInput (node value : String)
  | danglingOutput (value : String)
  | cycle (nodes : List String)
  | notPermutation (node : String) (perm : List Number)
  | permutationRank (node : String) (perm : List Number) (rank : Nat)
  | loopWithoutBody (node : String)
  | loopInputCount (node : String) (count : Nat)
  | loopBodyInputs (node : String) (taken expected : Nat)
  | loopBodyOutputs (node : String) (yielded expected : Nat)
  | loopOutputs (node : String) (outputs yielded : Nat)
  | branchMissing (node branch : String)
  deriving DecidableEq, Repr

/-- A problem and the graph that has it. -/
structure Issue where
  graph : String
  problem : Problem
  deriving DecidableEq, Repr

namespace Problem

/-- The code of a problem. -/
def code : Problem → String
  | .duplicateNodeName .. => "duplicate-node-name"
  | .duplicateProducer .. => "duplicate-producer"
  | .inputShadowed .. => "input-shadowed"
  | .outerShadowedByInput .. => "outer-shadowed"
  | .outerShadowedByNode .. => "outer-shadowed"
  | .danglingInput .. => "dangling-input"
  | .danglingOutput .. => "dangling-output"
  | .cycle .. => "cycle"
  | .notPermutation .. => "invalid-permutation"
  | .permutationRank .. => "invalid-permutation"
  | .loopWithoutBody .. => "missing-subgraph"
  | .loopInputCount .. => "invalid-loop"
  | .loopBodyInputs .. => "invalid-loop"
  | .loopBodyOutputs .. => "invalid-loop"
  | .loopOutputs .. => "invalid-loop"
  | .branchMissing .. => "missing-subgraph"

/-- The node that a problem is about, if it is about one. -/
def node? : Problem → Option String
  | .duplicateNodeName node => some node
  | .duplicateProducer node _ _ => some node
  | .inputShadowed node _ => some node
  | .outerShadowedByInput _ => none
  | .outerShadowedByNode node _ => some node
  | .danglingInput node _ => some node
  | .danglingOutput _ => none
  | .cycle _ => none
  | .notPermutation node _ => some node
  | .permutationRank node _ _ => some node
  | .loopWithoutBody node => some node
  | .loopInputCount node _ => some node
  | .loopBodyInputs node _ _ => some node
  | .loopBodyOutputs node _ _ => some node
  | .loopOutputs node _ _ => some node
  | .branchMissing node _ => some node

/-- The wording of a problem. -/
def message : Problem → String
  | .duplicateNodeName node => "node name " ++ node ++ " is used more than once"
  | .duplicateProducer node value earlier =>
      "value " ++ value ++ " is produced by both " ++ earlier ++ " and " ++ node
  | .inputShadowed node value => "node " ++ node ++ " redefines graph input " ++ value
  | .outerShadowedByInput input =>
      "graph input " ++ input ++ " redefines a value of an enclosing graph"
  | .outerShadowedByNode node value =>
      "node " ++ node ++ " redefines " ++ value ++ ", a value of an enclosing graph"
  | .danglingInput node value => "node " ++ node ++ " reads " ++ value ++ ", which nothing defines"
  | .danglingOutput value =>
      "graph output " ++ value ++ " is not produced by any node or input"
  | .cycle nodes => "cycle through node(s) " ++ String.intercalate ", " nodes
  | .notPermutation node perm =>
      "node " ++ node ++ ": perm [" ++ Number.listText perm ++ "] is not a permutation"
  | .permutationRank node perm rank =>
      "node " ++ node ++ ": perm [" ++ Number.listText perm ++ "] has rank " ++
        toString perm.length ++ " but input has rank " ++ toString rank
  | .loopWithoutBody node => "node " ++ node ++ ": Loop has no body graph"
  | .loopInputCount node count =>
      "node " ++ node ++ ": expected at least 2 inputs, got " ++ toString count
  | .loopBodyInputs node taken expected =>
      "node " ++ node ++ ": body takes " ++ toString taken ++ " inputs, expected " ++
        toString expected
  | .loopBodyOutputs node yielded expected =>
      "node " ++ node ++ ": body yields " ++ toString yielded ++ " outputs, expected at least " ++
        toString expected
  | .loopOutputs node outputs yielded =>
      "node " ++ node ++ ": node has " ++ toString outputs ++ " outputs, body yields " ++
        toString yielded ++ " after the condition"
  | .branchMissing node branch => "node " ++ node ++ ": If has no " ++ branch ++ " graph"

end Problem

namespace Issue

/-- An issue as it is shown. -/
structure Report where
  code : String
  graph : String
  node : Option String
  message : String
  deriving DecidableEq, Repr

/-- How an issue is shown. -/
def report (issue : Issue) : Report :=
  { code := issue.problem.code, graph := issue.graph, node := issue.problem.node?,
    message := issue.problem.message }

@[simp] theorem node?_cycle (graph : String) (nodes : List String) :
    (report ⟨graph, .cycle nodes⟩).node = none := rfl

/-- An issue on one line. -/
def Report.line (r : Report) : String := "[" ++ r.code ++ "] " ++ r.graph ++ ": " ++ r.message

/-- A listing of issues with a heading that counts them. -/
def reportText (reports : List Report) : String :=
  match reports with
  | [] => "malformed graph"
  | _ =>
      let plural := if reports.length = 1 then "" else "s"
      "malformed graph (" ++ toString reports.length ++ " issue" ++ plural ++ "):\n" ++
        String.intercalate "\n" (reports.map fun r => "  " ++ r.line)

@[simp] theorem reportText_nil : reportText [] = "malformed graph" := rfl

end Issue

end TensorGraph
