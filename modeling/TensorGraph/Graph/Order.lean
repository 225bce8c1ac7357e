import TensorGraph.Graph.Schedule
import TensorGraph.Graph.Scope
import TensorGraph.Failure

/-!
# Dependency order

A node depends on the producers of the names that it reads, itself or through its
bodies. The nodes are ordered by the worklist of these dependencies, and what is left
when no node can be taken lies on a cycle or behind one.

## Main results

* `Graph.mem_dependencies` -- the dependency lists hold exactly the dependency relation.
* `Graph.topologicalOrder_eq` -- the order is the schedule, if that has every place.
-/

namespace TensorGraph

theorem nodup_eraseDups {α : Type} [BEq α] [LawfulBEq α] (l : List α) : l.eraseDups.Nodup := by
  induction hk : l.length using Nat.strongRecOn generalizing l with
  | ind k ih =>
      subst hk
      cases l with
      | nil => simp
      | cons a l =>
          rw [List.eraseDups_cons]
          refine List.nodup_cons.2 ⟨by simp, ih _ ?_ _ rfl⟩
          exact Nat.lt_succ_of_le (List.length_filter_le _ _)

namespace Graph

/-- Node `i` depends on node `j` when `j` produces a name that `i` reads. -/
def DependsOn (g : Graph) (i j : Nat) : Prop :=
  ∃ n, g.nodes[i]? = some n ∧ ∃ value ∈ n.reads, g.producerPlace? value = some j

/-- For each node the places that it depends on. -/
def dependencies (g : Graph) : List (List Nat) :=
  g.nodes.map fun n => (n.reads.filterMap g.producerPlace?).eraseDups

theorem mem_dependencies {g : Graph} {i j : Nat} :
    j ∈ g.dependencies.getD i [] ↔ g.DependsOn i j := by
  unfold dependencies DependsOn
  rw [List.getD_eq_getElem?_getD, List.getElem?_map]
  cases h : g.nodes[i]? with
  | none => simp
  | some n => simp [List.mem_filterMap]

theorem nodup_dependencies (g : Graph) (i : Nat) : (g.dependencies.getD i []).Nodup := by
  unfold dependencies
  rw [List.getD_eq_getElem?_getD, List.getElem?_map]
  cases g.nodes[i]? with
  | none => simp
  | some n => exact nodup_eraseDups _

/-- The names of the nodes that still wait for something, in list order. -/
def waitingNodes (g : Graph) (pending : List Nat) : List String :=
  ((g.nodes.zipIdx).filter fun (_, i) => 0 < pending.getD i 0).map fun (n, _) => n.name

/-- The places of the nodes in dependency order, of several possible orders the one that
stays closest to the list; or the nodes that have no order. -/
def topologicalOrder (g : Graph) : Except Failure (List Nat) :=
  let (order, left) := Worklist.run g.dependencies g.nodes.length (.start g.dependencies)
  if order.length = g.nodes.length then .ok order
  else .error (.malformed [{ graph := g.name, problem := .cycle (g.waitingNodes left.pending) }])

/-- The names of the nodes that no order reaches, in list order. -/
def stuckNodes (g : Graph) (order : List Nat) : List String :=
  ((g.nodes.zipIdx).filter fun (_, i) => !order.contains i).map fun (n, _) => n.name

/-- The order is the schedule, if that has every place. -/
theorem topologicalOrder_eq (g : Graph) : g.topologicalOrder =
    if (schedule g.dependencies).length = g.nodes.length then .ok (schedule g.dependencies)
    else .error (.malformed
      [{ graph := g.name, problem := .cycle (g.stuckNodes (schedule g.dependencies)) }]) := by
  have hlength : g.nodes.length = g.dependencies.length := by simp [dependencies]
  obtain ⟨horder, hleft⟩ := Worklist.run_eq g.nodup_dependencies
  unfold topologicalOrder
  simp only [hlength, horder]
  split
  · rfl
  · rename_i hshort
    congr 5
    unfold waitingNodes stuckNodes
    congr 1
    refine List.filter_congr fun (n, i) hi => ?_
    have hi : i < g.nodes.length := by
      obtain ⟨hi, -⟩ := List.mem_zipIdx' hi
      exact hi
    dsimp only
    rw [decide_eq_decide.2 (hleft hshort i (hlength ▸ hi)), decide_not, List.contains_eq_mem]

/-- The nodes at the given places. -/
def nodesAt (g : Graph) (places : List Nat) : List Node := places.filterMap fun i => g.nodes[i]?

/-- The graph with its nodes in dependency order. -/
def sortTopologically (g : Graph) : Except Failure Graph := do
  let order ← g.topologicalOrder
  return { g with nodes := g.nodesAt order }

end Graph

end TensorGraph
