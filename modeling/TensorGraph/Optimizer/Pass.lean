import TensorGraph.Log
import TensorGraph.Optimizer.DeadNodes
import TensorGraph.Optimizer.Identities
import TensorGraph.Optimizer.Transposes

/-!
# Passes

A pass changes a graph and counts its changes; none means that the graph is as it was.
Three passes are known by name. Other passes can be put into a pipeline too; what they do
may depend on the number of the sweep, and what they report may be any number.

## Main results

* `Pass.ofName_eq_ok_iff` -- a pass is found under its own name only.
* `Pass.ofName_of_mem_defaultNames` -- the passes that run by default are known.
-/

namespace TensorGraph

/-- The result of running a pass. -/
structure PassRun where
  graph : Graph
  changes : Number := .int 0
  log : List LogLine := []
  failure : Option Failure := none

/-- A pass: its name, and what it does with a graph in its surroundings in a sweep, the
first of which has number zero. -/
structure Pass where
  name : String
  run : Surroundings → Nat → Graph → PassRun

namespace Pass

/-- The pass that treats every graph of a tree in the same way. -/
def ofVisit (name : String) (visit : Surroundings → Graph → Sweep) : Pass where
  name
  run s _ g :=
    let sweep := everyGraph visit s g
    { graph := sweep.graph, changes := .ofNat sweep.changes, log := sweep.log.map Log.debug
      failure := sweep.failure }

/-- Moves transpositions until they cancel. -/
def transpose : Pass := ofVisit "transpose" Transposes.sweepGraph

/-- Removes identities. -/
def identity : Pass := ofVisit "identity" Identities.sweepGraph

/-- Removes nodes that nothing needs. -/
def deadNodes : Pass := ofVisit "dead-nodes" DeadNodes.sweepGraph

/-- The passes that are known by name. -/
def registry : List Pass := [transpose, identity, deadNodes]

/-- The names of the known passes. -/
def available : List String := registry.map Pass.name

/-- The passes that run when none are asked for, in their order. -/
def defaultNames : List String := ["transpose", "identity", "dead-nodes"]

/-- The pass of a name. -/
def ofName (name : String) : Except Failure Pass :=
  match registry.find? fun pass => pass.name == name with
  | some pass => .ok pass
  | none => .error (.unknownPass name available)

/-- A pass of the registry is found under its own name, and no other one is. -/
theorem ofName_eq_ok_iff {name : String} {pass : Pass} :
    ofName name = .ok pass ↔ pass ∈ registry ∧ pass.name = name := by
  constructor
  · intro h
    unfold ofName at h
    split at h
    · rename_i found hfind
      obtain rfl := Except.ok.inj h
      exact ⟨List.mem_of_find?_eq_some hfind, by simpa using List.find?_some hfind⟩
    · cases h
  · rintro ⟨hmem, rfl⟩
    simp only [registry, List.mem_cons, List.not_mem_nil, or_false] at hmem
    rcases hmem with rfl | rfl | rfl <;> rfl

/-- The passes that run when none are asked for are known. -/
theorem ofName_of_mem_defaultNames {name : String} (h : name ∈ defaultNames) :
    ∃ pass, ofName name = .ok pass := by
  simp only [defaultNames, List.mem_cons, List.not_mem_nil, or_false] at h
  rcases h with rfl | rfl | rfl <;> exact ⟨_, rfl⟩

end Pass

end TensorGraph
