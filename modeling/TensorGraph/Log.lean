/-!
# Log lines

What the optimizer tells while it works: a line for every change, and warnings. On the
console each line is marked, and lines of detail are shown only when they are asked for.

## Main results

* `Log.onConsole_eq_some_iff` -- what is shown: warnings always, and detail if it is asked for.
-/

namespace TensorGraph

/-- How much a line matters. -/
inductive LogLevel where
  | debug
  | warn
  deriving DecidableEq, Repr

/-- A line of the log. -/
structure LogLine where
  level : LogLevel
  message : String
  deriving DecidableEq, Repr

namespace Log

/-- A line of detail. -/
def debug (message : String) : LogLine := { level := .debug, message }

/-- A warning. -/
def warn (message : String) : LogLine := { level := .warn, message }

/-- A message with the mark of the program. -/
def marked (message : String) : String := "[tgopt] " ++ message

/-- Whether lines of detail are shown, given the setting for it: any text but the empty
one asks for them. -/
def showsDetail (setting : Option String) : Bool := setting.any fun text => text != ""

/-- The line as the console shows it, if it does. -/
def onConsole (detail : Bool) (line : LogLine) : Option LogLine :=
  match line.level with
  | .debug => if detail then some { line with message := marked line.message } else none
  | .warn => some { line with message := marked line.message }

/-- A line is shown with the mark of the program, unless it is one of detail that nobody asked
for. -/
theorem onConsole_eq_some_iff {detail : Bool} {line shown : LogLine} :
    onConsole detail line = some shown ↔
      (line.level = .debug → detail = true) ∧ shown = { line with message := marked line.message } := by
  obtain ⟨level, message⟩ := line
  cases level <;> cases detail <;> simp [onConsole, eq_comm]

end Log

end TensorGraph
