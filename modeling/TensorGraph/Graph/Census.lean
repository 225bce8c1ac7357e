import TensorGraph.Graph.Basic
import TensorGraph.Inherited
import TensorGraph.Json.Basic
import TensorGraph.Text.UnitOrder

/-!
# Counting nodes

How many nodes of each operator a graph has, by itself or with all graphs below it.

Counts are handed out in an object of the interchange format, where an operator may have the
name of something inherited. Counting goes on from what the object answers with then: the
text of a function, behind which a one is written for every node. An operator whose name
keeps nothing is not counted.

## Main results

* `Graph.allNodes_own` -- without the bodies the nodes are those of the list.
* `Graph.census_counts` -- the census holds the count of each operator that occurs.
* `Census.count_ofNodes_of_plain` -- a name that is not inherited has a number as count.
* `Census.mem_ops` -- a comparison lists the operators of both sides.
-/

namespace TensorGraph.Graph

/-- The nodes of a graph, with those of the graphs below it if `recursive`, bodies
first. -/
def allNodes (g : Graph) (recursive : Bool) : List Node :=
  if recursive then g.walk.flatMap Graph.nodes else g.nodes

@[simp] theorem allNodes_own (g : Graph) : g.allNodes false = g.nodes := rfl

/-- How many nodes have an operator. -/
def countOp (g : Graph) (op : String) (recursive : Bool) : Nat :=
  ((g.allNodes recursive).filter fun n => n.op == op).length

/-- The operators that occur, each with its count, in the order of their first nodes. -/
def census (g : Graph) (recursive : Bool) : List (String × Nat) :=
  (((g.allNodes recursive).map Node.op).eraseDups).map fun op => (op, g.countOp op recursive)

theorem census_counts {g : Graph} {recursive : Bool} {op : String} {count : Nat} :
    (op, count) ∈ g.census recursive ↔
      op ∈ (g.allNodes recursive).map Node.op ∧ count = g.countOp op recursive := by
  unfold census
  rw [List.mem_map]
  constructor
  · rintro ⟨other, hmem, heq⟩
    obtain ⟨rfl, rfl⟩ := Prod.mk.inj heq
    exact ⟨by simpa using hmem, rfl⟩
  · rintro ⟨hmem, rfl⟩
    exact ⟨op, by simpa using hmem, rfl⟩

end TensorGraph.Graph

namespace TensorGraph.Census

/-! ## Counts -/

/-- A count in an object of counts. -/
inductive Count where
  | number (x : Number)
  | text (s : String)
  deriving DecidableEq, Repr

namespace Count

/-- How a count is shown. -/
def shown : Count → String
  | .number x => x.text
  | .text s => s

/-- Two counts together: numbers are added, and texts written one after the other. -/
def plus : Count → Count → Count
  | .number x, .number y => .number (x.plus y)
  | x, y => .text (x.shown ++ y.shown)

/-- The count of an operator that nothing has been put under. -/
def absent (op : String) : Count :=
  match Inherited.ofName? op with
  | some answer => .text answer.text
  | none => .number (.int 0)

/-- The count of an operator with some nodes. -/
def ofNodes (op : String) (nodes : Nat) : Count :=
  match absent op with
  | .number _ => .number (.ofNat nodes)
  | .text s => .text (s ++ String.ofList (List.replicate nodes '1'))

end Count

theorem count_ofNodes_of_plain {op : String} (h : Inherited.ofName? op = none) (nodes : Nat) :
    Count.ofNodes op nodes = .number (.ofNat nodes) := by
  simp [Count.ofNodes, Count.absent, h]

/-- The counts of a census as an object holds them. -/
def counts (census : List (String × Nat)) : List (String × Count) :=
  (census.filter fun entry => Inherited.keeps entry.1).map fun (op, nodes) =>
    (op, Count.ofNodes op nodes)

/-- All counts together. Operators that are array indices come first. -/
def total (counts : List (String × Count)) : Count :=
  (Json.orderMembers counts).foldl (fun sum entry => sum.plus entry.2) (.number (.int 0))

/-- The count of an operator. -/
def count (counts : List (String × Count)) (op : String) : Count :=
  (counts.lookup op).getD (Count.absent op)

/-! ## Comparing two censuses -/

/-- The operators of two censuses, each once, sorted. -/
def ops (before after : List (String × Count)) : List String :=
  Text.sorted ((before ++ after).map Prod.fst).eraseDups

theorem mem_ops {op : String} {before after : List (String × Count)} :
    op ∈ ops before after ↔ op ∈ before.map Prod.fst ∨ op ∈ after.map Prod.fst := by
  simp [ops]

/-- A line for each operator of two censuses, with its count in both. -/
def comparison (before after : List (String × Count)) : List String :=
  (ops before after).map fun op =>
    "  " ++ op ++ ": " ++ (count before op).shown ++ " -> " ++ (count after op).shown

end TensorGraph.Census

namespace TensorGraph.Graph

/-- The counts of the operators of a graph. -/
def counts (g : Graph) (recursive : Bool) : List (String × Census.Count) :=
  Census.counts (g.census recursive)

/-- How many nodes there are. -/
def nodeCount (g : Graph) (recursive : Bool) : Census.Count := Census.total (g.counts recursive)

end TensorGraph.Graph
