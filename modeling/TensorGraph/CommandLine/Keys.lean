import TensorGraph.Text.Lowered

/-!
# Keys of a command

A key may have other names. A key with hyphens has another one without them, in which the
letters behind the hyphens are capitals. The names that are declared are known from the
start; a key that is used for the first time gets its other name then, and both count as
made up unless the other one was declared.

## Main results

* `Keys.isKnown_of_declared` -- a declared key that has not been made up is known.
* `camel_of_small` -- a key of small letters without hyphens and underscores has no other
  spelling.
-/

namespace TensorGraph.CommandLine

/-! ## Keys without hyphens -/

/-- The capitals of a letter that is a single unit; any other character is itself. -/
def capitalUnit (c : Char) : List Char := if c.toNat < 0x10000 then Text.capital c else [c]

/-- Drops hyphens and underscores, with a capital behind each. -/
def joinWords : Bool → List Char → List Char
  | _, [] => []
  | afterMark, c :: rest =>
      if c = '-' ∨ c = '_' then joinWords true rest
      else (if afterMark then capitalUnit c else [c]) ++ joinWords false rest

/-- The spelling of a part of a key without hyphens. Small letters are used unless the part
mixes both kinds. An underscore in front is dropped. -/
def camelChars (cs : List Char) : List Char :=
  let cs := if cs ≠ Text.lowered cs ∧ cs ≠ Text.raised cs then cs else Text.lowered cs
  if !cs.contains '-' && !cs.contains '_' then cs
  else if cs.head? = some '_' then joinWords false cs.tail
  else joinWords false (cs.dropWhile (· = '-'))

theorem camel_of_small {cs : List Char} (hsmall : Text.lowered cs = cs)
    (hhyphen : cs.contains '-' = false) (hlow : cs.contains '_' = false) :
    camelChars cs = cs := by
  simp only [camelChars, hsmall, ite_self, hhyphen, hlow, Bool.not_false, Bool.and_self, if_true]

/-- The spelling of a key without hyphens, part by part between points. -/
def camel (key : String) : String :=
  String.intercalate "." ((key.splitOn ".").map fun part =>
    String.ofList (camelChars part.toList))

/-! ## Names -/

/-- The names of keys, and which of them were made up on the way. -/
structure Keys where
  others : List (String × List String)
  madeUp : List String
  deriving DecidableEq, Repr

namespace Keys

/-- The other names of a key. -/
def othersOf (k : Keys) (key : String) : List String := (k.others.lookup key).getD []

/-- Whether a key or one of its other names is in a list. -/
def isOneOf (k : Keys) (names : List String) (key : String) : Bool :=
  (key :: k.othersOf key).any names.contains

/-- A name made up for a key that has no other yet. -/
def name (k : Keys) (key other : String) : Keys :=
  if (k.othersOf key).isEmpty then
    { others := (key, [other]) :: k.others, madeUp := other :: k.madeUp }
  else k

/-- The names once a key has been used: one with a hyphen gets another spelling, and the
other way around. -/
def use (k : Keys) (key : String) : Keys :=
  if key.toList.contains '-' then (k.name key (camel key)).name (camel key) key else k

/-- Whether a key is known: it has names, and not all of them are made up. -/
def isKnown (k : Keys) (key : String) : Bool :=
  match k.others.lookup key with
  | none => false
  | some others =>
      (key :: others).any fun name => !k.madeUp.contains name || !k.madeUp.contains key

theorem isKnown_of_declared {k : Keys} {key : String} {others : List String}
    (h : k.others.lookup key = some others) (hkey : key ∉ k.madeUp) : k.isKnown key = true := by
  simp [isKnown, h, hkey]

end Keys

end TensorGraph.CommandLine
