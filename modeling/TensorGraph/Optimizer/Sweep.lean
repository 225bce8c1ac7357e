import TensorGraph.Graph.Edit

/-!
# Sweeping a tree of graphs

A pass treats the graphs of a tree one at a time, bodies before the graph that owns
their hosts. What it has done so far is a `Sweep`: the graph as it stands, the number of
changes, a line for each of them, and the failure that ended it, if one did. A failure
leaves the graph as the last change made it.

## Main results

* `Sweep.andThen_of_failed` -- after a failure nothing more happens.
* `Sweep.unfailed_of_andThen` -- what ends without a failure has had none before.
* `everyGraph_leaf` -- a graph without bodies is only visited itself.
-/

namespace TensorGraph

/-- A rule that broke off, with the graph as it stood then. -/
structure Stopped where
  graph : Graph
  cause : Failure

/-- The result of a step on `g`; when the step fails, `g` is the graph as it stood. -/
def Graph.orStop {α : Type} (g : Graph) (step : Except Failure α) : Except Stopped α :=
  match step with
  | .ok a => .ok a
  | .error cause => .error { graph := g, cause }

/-- The result of treating a graph. -/
structure Sweep where
  graph : Graph
  changes : Nat := 0
  log : List String := []
  failure : Option Failure := none

namespace Sweep

/-- Goes on with a further treatment of the graph, unless there was a failure. -/
def andThen (first : Sweep) (next : Graph → Sweep) : Sweep :=
  if first.failure.isSome then first
  else
    let second := next first.graph
    { graph := second.graph, changes := first.changes + second.changes
      log := first.log ++ second.log, failure := second.failure }

theorem andThen_of_failed {first : Sweep} (h : first.failure.isSome = true)
    (next : Graph → Sweep) : first.andThen next = first := by
  simp [andThen, h]

/-- What ends without a failure has had none in its first part, and its second part leaves the
graph. -/
theorem unfailed_of_andThen {first : Sweep} {next : Graph → Sweep}
    (h : (first.andThen next).failure = none) :
    first.failure = none ∧ (next first.graph).failure = none ∧
      (first.andThen next).graph = (next first.graph).graph := by
  cases hfirst : first.failure with
  | some cause =>
      rw [andThen_of_failed (by simp [hfirst]), hfirst] at h
      cases h
  | none =>
      simp only [andThen, hfirst, Option.isSome_none, Bool.false_eq_true, if_false] at h ⊢
      exact ⟨trivial, h, trivial⟩

/-- Applies a rule until it no longer applies. The rule gives the changed graph and the
line that tells of the change. -/
def untilClean (what : String) (rule : Graph → Except Stopped (Option (Graph × String))) :
    Nat → Sweep → Sweep
  | 0, sweep => { sweep with failure := some (.endless what) }
  | fuel + 1, sweep =>
      match rule sweep.graph with
      | .error stopped => { sweep with graph := stopped.graph, failure := some stopped.cause }
      | .ok none => sweep
      | .ok (some (graph, line)) =>
          untilClean what rule fuel
            { sweep with graph, changes := sweep.changes + 1, log := sweep.log ++ [line] }

end Sweep

/-- The bodies of a graph by place and key, each with what belongs to it. -/
def bodySlots {α : Type} (g : Graph) (below : List (List α)) : List (Nat × String × α) :=
  ((List.zipWith (fun n results => n.bodies.zip results) g.nodes below).zipIdx).flatMap
    fun (entries, place) => entries.map fun ((key, _), result) => (place, key, result)

/-- Treats the body under a key of the node at a place. -/
def sweepBody (s : Surroundings) (slot : Nat × String × (Surroundings → Sweep)) (host : Graph) :
    Sweep :=
  let (place, key, treat) := slot
  let inner := treat (s.inside host place key)
  { inner with graph := host.putBody place key inner.graph }

/-- Treats the bodies of a graph in order, and then the graph itself. -/
def sweepWithBodies (visit : Surroundings → Graph → Sweep) (g : Graph)
    (below : List (List (Surroundings → Sweep))) (s : Surroundings) : Sweep :=
  let inside : Sweep := (bodySlots g below).foldl
    (fun (sweep : Sweep) slot => sweep.andThen (sweepBody s slot)) { graph := g }
  inside.andThen (visit s)

/-- Treats every graph of a tree, bodies before the graph that owns their hosts. -/
def everyGraph (visit : Surroundings → Graph → Sweep) (s : Surroundings) (g : Graph) : Sweep :=
  g.fold (sweepWithBodies visit) s

theorem everyGraph_eq (visit : Surroundings → Graph → Sweep) (s : Surroundings) (g : Graph) :
    everyGraph visit s g =
      sweepWithBodies visit g
        (g.nodes.map fun n => n.bodies.map fun body s => everyGraph visit s body.2) s := by
  unfold everyGraph
  rw [Graph.fold_eq]

private theorem bodySlots_of_no_bodies {α : Type} {g : Graph} (h : ∀ n ∈ g.nodes, n.bodies = [])
    (below : List (List α)) : bodySlots g below = [] := by
  unfold bodySlots
  rw [List.flatMap_eq_nil_iff]
  rintro ⟨entries, place⟩ hmem
  have hentries : entries = [] := by
    rw [(List.mem_zipIdx hmem).2.2]
    simp [h _ (List.getElem_mem _)]
  simp [hentries]

/-- Where no node has a body, the graph itself is all there is to visit. -/
theorem everyGraph_leaf (visit : Surroundings → Graph → Sweep) (s : Surroundings) {g : Graph}
    (h : ∀ n ∈ g.nodes, n.bodies = []) : everyGraph visit s g = visit s g := by
  rw [everyGraph_eq]
  simp [sweepWithBodies, bodySlots_of_no_bodies h, Sweep.andThen]

end TensorGraph
