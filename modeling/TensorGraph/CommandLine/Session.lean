import TensorGraph.CommandLine.Options
import TensorGraph.Graph.Document
import TensorGraph.Optimizer.Pipeline

/-!
# Sessions

A session is what a command does to the world around it, step by step: lines of output,
lines of complaint, and a file that is written. It ends with an exit code, zero for
success and one for any failure. A graph that has not reached a fixpoint is a success.

## Main results

* `session_of_no_input` -- a command that is accepted without a file does nothing and
  succeeds.
* `failed_code` -- a failure has the exit code one.
-/

namespace TensorGraph.CommandLine

/-- One visible step. -/
inductive Action where
  | output (line : String)
  | complaint (line : String)
  /-- A line of detail, for a console that shows it. -/
  | detail (line : String)
  | write (file text : String)
  deriving DecidableEq, Repr

/-- The steps of a command and its exit code. -/
structure Session where
  actions : List Action := []
  code : Nat := 0
  deriving DecidableEq, Repr

/-- The line for a failure. -/
def failureLine (cause : Failure) : String := "tgopt: " ++ cause.describe

/-- The session that ends with a failure. -/
def failed (actions : List Action) (cause : Failure) : Session :=
  { actions := actions ++ [.complaint (failureLine cause)], code := 1 }

@[simp] theorem failed_code (actions : List Action) (cause : Failure) :
    (failed actions cause).code = 1 := rfl

/-- The step for a line of the log. -/
def ofLogLine (line : LogLine) : Action :=
  match line.level with
  | .debug => .detail (Log.marked line.message)
  | .warn => .complaint (Log.marked line.message)

/-- The lines of statistics: the operators before and after, the sweeps, and the changes
of each pass. -/
def statistics (before : Graph) (result : Optimized) : List String :=
  "census (before -> after):" ::
    Census.comparison (before.counts true) (result.graph.counts true) ++
    ["iterations: " ++ toString result.iterations ++
        (if result.converged then " (converged)" else " (not converged)"),
      "rewrites: " ++ String.intercalate ", "
        (result.tally.map fun (name, count) => name ++ "=" ++ count.text)]

/-- The steps that deliver a result. With a file for the graph the output is free for
statistics; without one they are set apart from the graph. -/
def deliver (stats : Bool) (file : Option String) (before : Graph) (result : Optimized) :
    List Action :=
  let report := if stats then statistics before result else []
  match file with
  | none => .output result.graph.text :: report.map .complaint
  | some file => .write file result.graph.document :: report.map .output

/-- What a setting is that should have been the name of a file. -/
def kindOf : Setting → String
  | .one .group => "an instance of Object"
  | .many _ => "an instance of Array"
  | .one (.flag b) => "type boolean (" ++ (Item.flag b).shown ++ ")"
  | .one item => item.shown

/-- The file that the result goes to, if there is one. -/
def outputFile (o : Options) : Except Failure (Option String) :=
  match o.output with
  | .one .missing => .ok none
  | .one (.text file) => .ok (some file)
  | other =>
      .error (.wrongType ("The \"path\" argument must be of type string or an instance of " ++
        "Buffer or URL. Received " ++ kindOf other))

/-- What the options ask of the optimizer. -/
def request (o : Options) : Except Failure Request := do
  let passNames ← match o.passes with
    | .one .missing => pure none
    | .one (.text names) => pure (some (Settings.parsePassList names))
    | _ => .error (.wrongType "raw.split is not a function")
  let maxIterations := match o.maxIterations with
    | .one .missing => none
    | .one (.number x) => some (.number x)
    | other => some (.text other.shown)
  return { passNames, maxIterations }

/-- The session that optimizes a graph. -/
def optimizeGraph (environment : List (String × String)) (o : Options) (g : Graph) : Session :=
  match request o with
  | .error cause => failed [] cause
  | .ok wanted =>
      match Optimizer.optimize environment wanted g with
      | (log, .error cause) => failed (log.map ofLogLine) cause
      | (log, .ok result) =>
          match outputFile o with
          | .error cause => failed (log.map ofLogLine) cause
          | .ok file => { actions := log.map ofLogLine ++ deliver o.stats file g result }

/-- The session that optimizes the graph of a file. -/
def optimizeFile (environment : List (String × String)) (o : Options) (file : String)
    (content : Except Failure String) : Session :=
  match content.bind (Graph.ofText file) with
  | .error cause => failed [] cause
  | .ok g => optimizeGraph environment o g

/-- The session of a command, given the variables of the environment and the contents of
files. -/
def session (environment : List (String × String)) (read : String → Except Failure String)
    (args : List String) : Session :=
  match Options.parse args with
  | .error cause => failed [] cause
  | .ok o =>
      match o.input with
      | none => {}
      | some file => optimizeFile environment o file (read file)

theorem session_of_no_input {environment : List (String × String)}
    {read : String → Except Failure String} {args : List String} {o : Options}
    (h : Options.parse args = .ok o) (hi : o.input = none) :
    session environment read args = {} := by
  simp [session, h, hi]

end TensorGraph.CommandLine
