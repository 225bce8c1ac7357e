import TensorGraph.CommandLine.Reading
import TensorGraph.Json.Basic

/-!
# Options of the optimizer's command

What a command asks for: the file of a graph, where the result goes, the passes, the limit
on sweeps, and whether statistics are wanted. A command needs a file, and knows no keys but
those that are declared, unless it asks for help, for the version or for completions. The word
for help as the last positional argument asks for it too. A command that asks for something is
carried out all the same if there is a file.

## Main results

* `Reading.check_eq_ok_iff` -- which commands are not refused.
-/

namespace TensorGraph.CommandLine

/-- A name in a complaint; a blank one is quoted. -/
def shown (name : String) : String :=
  if Text.trimmed name = "" then "\"" ++ name ++ "\"" else name

namespace Reading

/-! ## Positional arguments -/

/-- The words that ask for help in place of a positional argument. -/
def helpWords (r : Reading) : List String :=
  ("help" :: r.keys.othersOf "help").filter fun name => 1 < (Text.units name).length

/-- Whether the last positional argument asks for help. -/
def endsWithHelp (r : Reading) : Bool :=
  match r.get positionalKey with
  | .many items => items.getLast?.any fun item => r.helpWords.contains item.shown
  | .one _ => false

/-- The positional arguments without the word for help. -/
def positionals (r : Reading) : Setting :=
  match r.get positionalKey with
  | .many items => .many (if r.endsWithHelp then items.dropLast else items)
  | s => s

/-- Whether there is no positional argument at all. -/
def lacksInput (r : Reading) : Bool :=
  r.after.isEmpty &&
    match r.get positionalKey with
    | .many items => items.isEmpty
    | .one item => item == .text ""

/-- The key that asks how a command could be completed. -/
def completionKey : String := "get-yargs-completions"

/-- Whether completions are asked for. The arguments behind two hyphens stay apart then. -/
def asksCompletion (r : Reading) : Bool := (r.get? completionKey).isSome

/-- All positional arguments, those behind two hyphens last. -/
def allPositionals (r : Reading) : Except Failure Setting :=
  if r.after.isEmpty || r.asksCompletion || !r.positionals.isOn then .ok r.positionals
  else
    match r.positionals with
    | .many items => .ok (.many (items ++ r.after.map .text))
    | .one _ => .error (.wrongType "Cannot read properties of undefined (reading 'apply')")

/-- The first of the positional arguments. One that looks like a number is written as the
number if numbers are wanted; a text in place of the arguments stands for its characters. -/
def firstOf (numbers : Bool) : Setting → Except Failure (Option String)
  | .many [] => .ok none
  | .many (.text s :: _) =>
      .ok (some (((numberLike? s).filter fun _ => numbers).elim s Number.text))
  | .many (item :: _) => .ok (some item.shown)
  | .one (.text s) =>
      match (Text.units s).findIdx? fun u => numbers && isDigit u with
      | some i =>
          .error (.wrongType ("Cannot assign to read only property '" ++ toString i ++
            "' of string '" ++ s ++ "'"))
      | none => .ok (s.toList.head?.map Char.toString)
  | .one _ => .error (.wrongType "args._ is not iterable")

/-- The file that holds the graph. Where arguments behind two hyphens stay apart, numbers are
looked for among them alone. -/
def input? (r : Reading) : Except Failure (Option String) := do
  firstOf (r.after.isEmpty || !r.asksCompletion) (← r.allPositionals)

/-! ## What is refused -/

/-- Whether help, the version or completions are asked for. -/
def asks (r : Reading) : Bool :=
  r.endsWithHelp || (r.get "help").isOn || (r.get "version").isOn || r.asksCompletion

/-- The keys that are there without being declared. -/
def ownKeys : List String := ["$0", "--", positionalKey]

/-- The keys that are not known. -/
def unknown (r : Reading) : List String :=
  ((Json.orderMembers r.settings).map (·.1)).filter fun key =>
    !ownKeys.contains key && !r.keys.isKnown key

/-- Refuses what does not make a command. -/
def check (r : Reading) : Except Failure Unit :=
  if r.asks then .ok ()
  else if r.lacksInput then .error .missingInput
  else if r.unknown.isEmpty then .ok ()
  else .error (.unknownArguments (r.unknown.map shown))

/-- A command is not refused if it asks for something, or has a file and no unknown keys. -/
theorem check_eq_ok_iff {r : Reading} :
    r.check = .ok () ↔ r.asks = true ∨ r.lacksInput = false ∧ r.unknown = [] := by
  unfold check
  cases r.asks <;> cases r.lacksInput <;> simp

end Reading

/-! ## Options -/

/-- What a command asks for. -/
structure Options where
  /-- The file that holds the graph. -/
  input : Option String
  output : Setting
  passes : Setting
  maxIterations : Setting
  stats : Bool
  deriving DecidableEq, Repr

namespace Options

/-- The options of a reading. -/
def ofReading (r : Reading) : Except Failure Options := do
  r.check
  return {
    input := ← r.input?
    output := r.get "output"
    passes := r.get "passes"
    maxIterations := r.get "maxIterations"
    stats := (r.get "stats").isOn }

/-- The options of a command. -/
def parse (args : List String) : Except Failure Options := do
  ofReading (← Reading.ofArguments args)

end Options

end TensorGraph.CommandLine
