import TensorGraph.CommandLine.Session

/-!
# The command

Runs a session against the files, the environment and the streams of the process. Lines of
detail are shown where the environment asks for them. What cannot be written ends the
session.
-/

namespace TensorGraph.CommandLine

/-- The variables that settings are read from. -/
def variableNames : List String := ["TGOPT_MAX_ITERATIONS", "TGOPT_PASSES", "TGOPT_DEBUG"]

/-- The variables that are set. -/
def readVariables : IO (List (String × String)) := do
  let found ← variableNames.mapM fun name => do
    return (← IO.getEnv name).map fun value => (name, Text.spelled value)
  return found.filterMap id

/-- The fault that an error of the system reports. -/
def faultOf : IO.Error → FileFault
  | .inappropriateType _ code _ => if code = 20 then .notDirectory else .isDirectory
  | .invalidArgument _ code _ => if code = 36 then .nameTooLong else .missing
  | .resourceExhausted _ code _ => if code = 36 then .nameTooLong else .missing
  | _ => .missing

/-- The text of a file. -/
def readText (file : String) : IO (Except Failure String) := do
  try
    return .ok (Text.spelled (← IO.FS.readFile (Text.plain file)))
  catch e =>
    match faultOf e with
    | .isDirectory => return .error .directoryRead
    | fault => return .error (.cannotOpen fault file)

/-- Carries out one step, and tells whether the session can go on. -/
def perform (showDetail : Bool) : Action → IO Bool
  | .output line => do
      IO.println (Text.plain line)
      return true
  | .complaint line => do
      IO.eprintln (Text.plain line)
      return true
  | .detail line => do
      if showDetail then IO.println (Text.plain line)
      return true
  | .write file text => do
      try
        IO.FS.writeFile (Text.plain file) (Text.plain text)
        return true
      catch e =>
        IO.eprintln (Text.plain (failureLine (.cannotOpen (faultOf e) file)))
        return false

/-- Carries out the steps of a session, and gives the exit code. -/
def performAll (showDetail : Bool) (code : Nat) : List Action → IO Nat
  | [] => return code
  | action :: rest => do
      if ← perform showDetail action then performAll showDetail code rest else return 1

end TensorGraph.CommandLine

open TensorGraph TensorGraph.CommandLine in
/-- The entry point. -/
def main (args : List String) : IO UInt32 := do
  let environment ← readVariables
  let args := args.map Text.spelled
  let content ← match Options.parse args with
    | .ok { input := some file, .. } => readText file
    | _ => pure (.ok "")
  let s := session environment (fun _ => content) args
  let showDetail := Log.showsDetail (environment.lookup "TGOPT_DEBUG")
  return UInt32.ofNat (← performAll showDetail s.code s.actions)
