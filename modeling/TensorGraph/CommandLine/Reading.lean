import TensorGraph.CommandLine.Arguments
import TensorGraph.CommandLine.Keys
import TensorGraph.CommandLine.Setting
import TensorGraph.Failure

/-!
# Reading a command

The arguments of a command are read one after the other into settings. A value becomes a
number where it looks like one, unless its key is declared to hold texts, and a switch holds
nothing but truth or falsehood. The values of a repeated key replace each other, but a one
counts up what was there. Positional arguments are collected under a key of their own, which
a command may set like any other.

## Main results

* `Reading.advance_length_le` -- reading a value never adds arguments.
-/

namespace TensorGraph.CommandLine

/-- The keys that are on or off. -/
def switches : List String := ["stats", "help", "version"]

/-- The keys that hold texts. -/
def textKeys : List String := ["output", "passes"]

/-- The keys that hold numbers. -/
def numberKeys : List String := ["max-iterations"]

/-- The key of the positional arguments. -/
def positionalKey : String := "_"

/-- The declared keys with their other names. -/
def declared : Keys where
  others :=
    [("output", ["o"]), ("o", ["output"]), ("max-iterations", ["maxIterations"]),
      ("maxIterations", ["max-iterations"]), ("passes", []), ("stats", []), ("help", []),
      ("version", [])]
  madeUp := ["maxIterations"]

/-- What has been read of a command. -/
structure Reading where
  settings : List (String × Setting) := [(positionalKey, .many [])]
  keys : Keys := declared
  /-- The arguments behind two hyphens alone. -/
  after : List String := []

namespace Reading

/-- The setting of a key. -/
def get? (r : Reading) (key : String) : Option Setting := r.settings.lookup key

/-- What a key is set to; nothing if it is not set. -/
def get (r : Reading) (key : String) : Setting := (r.get? key).getD (.one .missing)

/-! ## Setting keys -/

/-- The reading with the setting of a key changed. The name of the ancestor is evaded. -/
def change (r : Reading) (key : String) (f : Option Setting → Setting) : Reading :=
  let key := if key = "__proto__" then "___proto___" else key
  { r with
    settings := if r.settings.any (·.1 == key) then
        r.settings.map fun (k, s) => (k, if k = key then f (some s) else s)
      else r.settings ++ [(key, f none)] }

/-- An item put in place of a setting. A one counts up what is there. -/
def replaced (item : Item) (before : Option Setting) : Setting :=
  match item with
  | .number x => .one (if x.same (.int 1) then (before.getD (.one .missing)).next else item)
  | _ => .one item

/-- What a key holds once something has been put into it behind a point. -/
def entered : Option Setting → Setting
  | none => .one .group
  | some (.one .missing) => .one .group
  | some (.one .group) => .one .group
  | some (.one item) => .many [item, .group]
  | some (.many items) => .many (items ++ [.group])

/-- The reading with an item put under a key whose parts are given. -/
def put (r : Reading) (item : Item) : List String → Reading
  | [] => r
  | [key] => r.change key (replaced item)
  | key :: _ => r.change key entered

/-- An item as its key wants it. -/
def processed (k : Keys) (key : String) (item : Item) : Item :=
  if k.isOneOf switches key then
    match item with
    | .text s => .flag (s == "true")
    | _ => item
  else if key = positionalKey || k.isOneOf textKeys key then item
  else
    match item with
    | .text s =>
        match numberLike? s with
        | some x => .number x
        | none => if k.isOneOf numberKeys key then .number (Numeral.lenient s) else item
    | .flag b => if k.isOneOf numberKeys key then .number (.int (if b then 1 else 0)) else item
    | _ => item

/-- The reading with a key set, under all of its names. A key with points in it is also put
under the other names of its first part. -/
def set (r : Reading) (key : String) (item : Item) : Reading :=
  let keys := r.keys.use key
  let item := processed keys key item
  let path := key.splitOn "."
  let others := keys.othersOf key
  let r := { r with keys }.put item path
  let r := others.foldl (fun r name => r.put item (name.splitOn ".")) r
  match path with
  | first :: second :: rest =>
      let paths := (keys.othersOf first).map fun name => name.splitOn "." ++ second :: rest
      (paths.filter fun path => !others.contains (String.intercalate "." path)).foldl
        (fun r path => r.put item path) r
  | _ => r

/-- What a key is set to when it has no value. -/
def unvalued (k : Keys) (key : String) : Item :=
  if k.isOneOf switches key then .flag true
  else if k.isOneOf numberKeys key then .missing
  else if k.isOneOf textKeys key then .text ""
  else .flag true

/-! ## Arguments -/

/-- The value of a key from the arguments behind it, and the arguments left. -/
def advance (k : Keys) (key : String) (follows : Follows) : List String → Item × List String
  | [] => (unvalued k key, [])
  | next :: rest =>
      if (follows next.toList && !k.isOneOf switches key) || next = "true" || next = "false" then
        (.text next, rest)
      else (unvalued k key, next :: rest)

theorem advance_length_le (k : Keys) (key : String) (follows : Follows) (args : List String) :
    (advance k key follows args).2.length ≤ args.length := by
  cases args with
  | nil => simp [advance]
  | cons next rest =>
      simp only [advance]
      split <;> simp

/-- The reading with one more positional argument. -/
def push (r : Reading) (arg : String) : Except Failure Reading :=
  match r.get positionalKey with
  | .many items => .ok (r.change positionalKey fun _ => .many (items ++ [.text arg]))
  | _ => .error (.wrongType "argv._.push is not a function")

/-- The reading with keys set that have their values, as far as they have any. -/
def setAll (r : Reading) (set : List (String × Option String)) : Reading :=
  set.foldl (fun r (key, value) =>
    r.set key ((value.map .text).getD (unvalued r.keys key))) r

/-- Reads the arguments of a command. -/
def read : List String → Reading → Except Failure Reading
  | [], r => .ok r
  | arg :: rest, r =>
      match form arg with
      | .finish => .ok { r with after := rest }
      | .positional => do read rest (← r.push arg)
      | .negated key => read rest (r.set key (.flag false))
      | .keys set none => read rest (r.setAll set)
      | .keys set (some (key, follows)) =>
          let r := r.setAll set
          read (advance r.keys key follows rest).2
            (r.set key (advance r.keys key follows rest).1)
termination_by args => args.length
decreasing_by
  · simp
  · simp
  · simp
  · exact Nat.lt_succ_of_le (advance_length_le ..)

/-- What the arguments of a command say. -/
def ofArguments (args : List String) : Except Failure Reading := do
  let r ← read args {}
  if (r.get? "stats").isSome then return r
  else return r.change "stats" fun _ => .one (.flag false)

end Reading

end TensorGraph.CommandLine
