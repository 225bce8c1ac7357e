import TensorGraph.Decimal.Numeral
import TensorGraph.Failure

/-!
# Settings from the environment

Two variables set the defaults of the optimizer: a limit on the number of sweeps, and a
list of pass names separated by commas. A variable that is blank counts as not set.

## Main results

* `Settings.isPositiveWhole_of_load` -- whatever the variables say, the limit is whole and positive.
-/

namespace TensorGraph

/-- The settings of the optimizer. -/
structure Settings where
  maxIterations : Number
  /-- The passes to run, if they are set. -/
  passes : Option (List String)
  deriving DecidableEq, Repr

namespace Settings

/-- The limit on sweeps where none is set. -/
def defaultMaxIterations : Nat := 8

/-- Whether a number is whole and positive. -/
def isPositiveWhole (x : Number) : Bool := x.toInt?.any fun n => 0 < n

/-- The positive whole number that a text denotes. The label names the setting in the
complaint. -/
def parsePositive (text label : String) : Except Failure Number :=
  let value := Numeral.lenient text
  if isPositiveWhole value then .ok value else .error (.notPositive label text)

/-- The pieces of a list between commas. -/
def splitCommas : List Char → List (List Char)
  | [] => [[]]
  | c :: rest =>
      match splitCommas rest with
      | [] => [[c]]
      | piece :: pieces =>
          if c = ',' then [] :: piece :: pieces else (c :: piece) :: pieces

/-- The names in a list, blank space around them cut off and empty ones left out. -/
def parsePassList (text : String) : List String :=
  ((splitCommas text.toList).map fun piece => String.ofList (Text.trimmedChars piece)).filter
    fun name => name != ""

/-- The text of a variable, unless it is blank. -/
def nonBlank? (environment : List (String × String)) (name : String) : Option String :=
  (environment.lookup name).filter fun text => Text.trimmed text != ""

/-- The settings that the variables of an environment give. -/
def load (environment : List (String × String)) : Except Failure Settings := do
  let maxIterations ← match nonBlank? environment "TGOPT_MAX_ITERATIONS" with
    | some text => parsePositive text "TGOPT_MAX_ITERATIONS"
    | none => pure (.ofNat defaultMaxIterations)
  return { maxIterations, passes := (nonBlank? environment "TGOPT_PASSES").map parsePassList }

theorem isPositiveWhole_of_parsePositive {text label : String} {x : Number}
    (h : parsePositive text label = .ok x) : isPositiveWhole x = true := by
  simp only [parsePositive] at h
  split at h
  · rename_i hpositive
    exact Except.ok.inj h ▸ hpositive
  · cases h

/-- The limit is whole and positive, be it set or not. -/
theorem isPositiveWhole_of_load {environment : List (String × String)} {settings : Settings}
    (h : load environment = .ok settings) : isPositiveWhole settings.maxIterations = true := by
  unfold load at h
  cases htext : nonBlank? environment "TGOPT_MAX_ITERATIONS" with
  | none =>
      rw [htext] at h
      cases h
      rfl
  | some text =>
      rw [htext] at h
      cases hlimit : parsePositive text "TGOPT_MAX_ITERATIONS" with
      | error cause => simp [hlimit, bind, Except.bind] at h
      | ok limit =>
          simp only [hlimit, bind, Except.bind, pure, Except.pure, Except.ok.injEq] at h
          exact h ▸ isPositiveWhole_of_parsePositive hlimit

end Settings

end TensorGraph
