import TensorGraph.Graph.Census
import TensorGraph.Graph.Validity
import TensorGraph.Optimizer.Pass
import TensorGraph.Settings

/-!
# Pipelines

A pipeline runs its passes over a graph again and again, until a whole sweep changes
nothing or the limit on sweeps is reached. `optimize` runs a pipeline on a copy of a valid
graph and checks the result once more.

## Main results

* `Tally.get_add` -- a tally counts each name by itself.
* `Pipeline.make_ok` -- a pipeline has a positive limit.
-/

namespace TensorGraph

/-! ## Counting changes by pass -/

/-- How many changes each pass has made. A name that keeps nothing has no place here. -/
abbrev Tally := List (String × Number)

namespace Tally

/-- No changes yet, for each of the names. -/
def start (names : List String) : Tally :=
  ((names.filter Inherited.keeps).eraseDups).map (·, .int 0)

/-- The count of a name. -/
def get (t : Tally) (name : String) : Number := (t.lookup name).getD (.int 0)

/-- More changes under a name. -/
def add (t : Tally) (name : String) (count : Number) : Tally :=
  t.map fun entry => (entry.1, if entry.1 = name then entry.2.plus count else entry.2)

private theorem lookup_add (t : Tally) (name other : String) (count : Number) :
    (t.add name count).lookup other =
      (t.lookup other).map fun n => if other = name then n.plus count else n := by
  unfold add
  induction t with
  | nil => rfl
  | cons entry rest ih =>
      rw [List.map_cons, List.lookup_cons, List.lookup_cons]
      split
      · rename_i h
        simp [eq_of_beq h]
      · exact ih

/-- Adding under a name changes the count of that name alone. -/
theorem get_add (t : Tally) (name other : String) (count : Number) :
    (t.add name count).get other =
      if other = name ∧ (t.lookup other).isSome then (t.get other).plus count
      else t.get other := by
  unfold get
  rw [lookup_add]
  cases t.lookup other with
  | none => simp
  | some n => by_cases h : other = name <;> simp [h]

end Tally

/-! ## Sweeps to a fixpoint -/

/-- Passes in order, and how many sweeps there may be. -/
structure Pipeline where
  passes : List Pass
  limit : Nat

/-- What a pipeline has done. -/
structure PipelineRun where
  graph : Graph
  converged : Bool := false
  /-- The number of sweeps, the last clean one included. -/
  iterations : Nat := 0
  tally : Tally := []
  warnings : List String := []
  log : List LogLine := []
  failure : Option Failure := none

namespace Pipeline

/-- A pipeline of passes with a limit on its sweeps, which has to be positive and whole. -/
def make (passes : List Pass) (limit : Number) : Except Failure Pipeline :=
  match limit.toInt? with
  | some (.ofNat (n + 1)) => .ok { passes, limit := n + 1 }
  | _ => .error (.sweepLimit limit.text)

theorem make_ok {passes : List Pass} {limit : Number} {p : Pipeline}
    (h : make passes limit = .ok p) : 0 < p.limit ∧ p.passes = passes := by
  unfold make at h
  split at h
  · obtain rfl := Except.ok.inj h
    exact ⟨Nat.succ_pos _, rfl⟩
  · cases h

/-- The names of the passes. -/
def passNames (p : Pipeline) : List String := p.passes.map Pass.name

/-- One sweep: every pass in turn, as long as none fails. Gives the number of changes. -/
def sweep (number : Nat) : List Pass → Number → PipelineRun → Number × PipelineRun
  | [], changes, run => (changes, run)
  | pass :: rest, changes, run =>
      let result := pass.run .root number run.graph
      let after : PipelineRun :=
        { run with
          graph := result.graph, log := run.log ++ result.log, failure := result.failure
          tally := if result.failure.isSome then run.tally
            else run.tally.add pass.name result.changes }
      if result.failure.isSome then (changes, after)
      else sweep number rest (changes.plus result.changes) after

/-- Sweeps until one is clean, at most as many as are left. -/
def sweeps (p : Pipeline) : Nat → PipelineRun → PipelineRun
  | 0, run =>
      let warning := "graph " ++ run.graph.name ++ " did not reach a fixpoint after " ++
        (Number.ofNat p.limit).text ++ " iteration(s)"
      { run with warnings := [warning], log := run.log ++ [Log.warn warning] }
  | left + 1, run =>
      let number := run.iterations + 1
      let (changes, after) :=
        sweep run.iterations p.passes (.int 0) { run with iterations := number }
      if after.failure.isSome then after
      else
        let line := "sweep " ++ toString number ++ ": " ++ changes.text ++ " rewrite(s)"
        let noted := { after with log := after.log ++ [Log.debug line] }
        if changes.same (.int 0) then { noted with converged := true } else sweeps p left noted

/-- Runs a pipeline over a graph. -/
def run (p : Pipeline) (g : Graph) : PipelineRun :=
  p.sweeps p.limit { graph := g, tally := Tally.start p.passNames }

end Pipeline

/-! ## Optimizing a graph -/

/-- A limit on sweeps as a caller states it. -/
inductive Limit where
  | number (x : Number)
  /-- Something that is no number, as it is shown. -/
  | text (s : String)
  deriving DecidableEq, Repr

/-- The number that a limit has to be. -/
def Limit.toNumber : Limit → Except Failure Number
  | .number x => .ok x
  | .text s => .error (.sweepLimit s)

/-- What a caller of the optimizer may ask for. -/
structure Request where
  /-- Passes to run. They count more than names. -/
  passes : Option (List Pass) := none
  /-- Names of passes to run. -/
  passNames : Option (List String) := none
  maxIterations : Option Limit := none

/-- The result of optimizing a graph. -/
structure Optimized where
  graph : Graph
  converged : Bool
  iterations : Nat
  warnings : List String
  nodesBefore : Census.Count
  nodesAfter : Census.Count
  tally : Tally

namespace Optimizer

/-- The pipeline that a request and the settings ask for. -/
def pipeline (environment : List (String × String)) (request : Request) :
    Except Failure Pipeline := do
  let settings ← Settings.load environment
  let passes ← match request.passes with
    | some passes => pure passes
    | none =>
        ((request.passNames.or settings.passes).getD Pass.defaultNames).mapM Pass.ofName
  Pipeline.make passes (← (request.maxIterations.getD (.number settings.maxIterations)).toNumber)

/-- The result of a run that has come to its end: the graph it leaves has to be valid. -/
def conclude (before : Graph) (run : PipelineRun) : Except Failure Optimized :=
  match run.failure with
  | some cause => .error cause
  | none =>
      if run.graph.issues.isEmpty then
        .ok
          { graph := run.graph, converged := run.converged, iterations := run.iterations
            warnings := run.warnings, tally := run.tally
            nodesBefore := before.nodeCount true
            nodesAfter := run.graph.nodeCount true }
      else .error (.invalidResult run.graph.issues)

/-- Optimizes a copy of a graph, which has to be valid. The log tells what was done, also
when there is no result. -/
def optimize (environment : List (String × String)) (request : Request) (g : Graph) :
    List LogLine × Except Failure Optimized :=
  match g.assertValid, pipeline environment request with
  | .error cause, _ => ([], .error cause)
  | .ok (), .error cause => ([], .error cause)
  | .ok (), .ok p =>
      let run := p.run g.clone
      (run.log, conclude g run)

end Optimizer

end TensorGraph
