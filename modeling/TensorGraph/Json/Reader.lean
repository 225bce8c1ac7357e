import TensorGraph.Json.Basic
import TensorGraph.Decimal.Numeral
import TensorGraph.Text.Units

/-!
# Reading JSON

A strict reader: one value, blank space only where the format allows it, no trailing
commas, no comments. Numbers become the nearest double and escapes the characters
that they stand for; an escaped half of a pair is spelled as one.

Every call of the reader takes at least one character off the text before it goes
deeper, so the length of the text bounds the depth.

## Main results

* `Json.skipBlank_idem` -- blank space is skipped at once.
-/

namespace TensorGraph.Json

/-- The blank characters of the format. -/
def isBlank (c : Char) : Bool := c = ' ' || c = '\n' || c = '\r' || c = '\t'

/-- The text after leading blank space. -/
def skipBlank (cs : List Char) : List Char := cs.dropWhile isBlank

theorem skipBlank_idem (cs : List Char) : skipBlank (skipBlank cs) = skipBlank cs := by
  unfold skipBlank
  induction cs with
  | nil => rfl
  | cons c cs ih =>
      by_cases h : isBlank c = true
      · simpa [List.dropWhile, h] using ih
      · simp [List.dropWhile, h]

/-- The value of four digits in base sixteen. -/
def fourDigits? : List Char → Option (Nat × List Char)
  | a :: b :: c :: d :: rest => do
      let value ← Numeral.valueIn? 16 [a, b, c, d]
      some (value, rest)
  | _ => none

/-- The spelling of an escaped unit, together with a second escaped unit where the two
are a pair, and the rest of the text. -/
def escapedUnit? (cs : List Char) : Option (List Char × List Char) := do
  let (high, rest) ← fourDigits? cs
  if Text.isFirstHalf high then
    match rest with
    | '\\' :: 'u' :: more =>
        match fourDigits? more with
        | some (low, after) =>
            if Text.isSecondHalf low then
              some (Text.spelledChar (Text.joinedHalves high low), after)
            else some (Text.spelledUnit high, rest)
        | none => some (Text.spelledUnit high, rest)
    | _ => some (Text.spelledUnit high, rest)
  else some (Text.spelledUnit high, rest)

/-- The character of an escape without digits. -/
def simpleEscape? : Char → Option Char
  | '"' => some '"'
  | '\\' => some '\\'
  | '/' => some '/'
  | 'b' => some '\x08'
  | 'f' => some '\x0c'
  | 'n' => some '\n'
  | 'r' => some '\r'
  | 't' => some '\t'
  | _ => none

/-- The characters up to the closing quote, put behind those read before, which are in
reverse, and the rest of the text. -/
def readString? : Nat → List Char → List Char → Option (String × List Char)
  | 0, _, _ => none
  | _, _, [] => none
  | fuel + 1, before, c :: cs =>
      if c = '"' then some (String.ofList before.reverse, cs)
      else if c.toNat < 0x20 then none
      else if c = '\\' then
        match cs with
        | [] => none
        | 'u' :: digits =>
            match escapedUnit? digits with
            | none => none
            | some (spelling, rest) => readString? fuel (spelling.reverse ++ before) rest
        | e :: rest =>
            match simpleEscape? e with
            | none => none
            | some ch => readString? fuel (ch :: before) rest
      else readString? fuel (c :: before) cs

/-- The text after a given word. -/
def expectWord? (word : List Char) (cs : List Char) : Option (List Char) :=
  if word.isPrefixOf cs then some (cs.drop word.length) else none

mutual

/-- A value at the start of a text, and the rest. -/
def readValue? : Nat → List Char → Option (Json × List Char)
  | 0, _ => none
  | fuel + 1, cs =>
      match skipBlank cs with
      | [] => none
      | '\x7b' :: rest =>
          match skipBlank rest with
          | '\x7d' :: after => some (ofMembers [], after)
          | inner => (readMembers? fuel [] inner).map fun (members, after) =>
              (ofMembers members.reverse, after)
      | '[' :: rest =>
          match skipBlank rest with
          | ']' :: after => some (.arr [], after)
          | inner => (readItems? fuel [] inner).map fun (items, after) =>
              (.arr items.reverse, after)
      | '"' :: rest => (readString? (rest.length + 1) [] rest).map fun (s, after) => (.str s, after)
      | 't' :: rest => (expectWord? "rue".toList rest).map fun after => (.bool true, after)
      | 'f' :: rest => (expectWord? "alse".toList rest).map fun after => (.bool false, after)
      | 'n' :: rest => (expectWord? "ull".toList rest).map fun after => (.null, after)
      | other => (Numeral.strict? other).map fun (x, after) => (.num x, after)

/-- The items of an array up to its end, put before those read, in reverse. -/
def readItems? : Nat → List Json → List Char → Option (List Json × List Char)
  | 0, _, _ => none
  | fuel + 1, before, cs =>
      match readValue? fuel cs with
      | none => none
      | some (item, rest) =>
          match skipBlank rest with
          | ',' :: more => readItems? fuel (item :: before) more
          | ']' :: after => some (item :: before, after)
          | _ => none

/-- The members of an object up to its end, put before those read, in reverse. -/
def readMembers? : Nat → List (String × Json) → List Char →
    Option (List (String × Json) × List Char)
  | 0, _, _ => none
  | fuel + 1, before, cs =>
      match skipBlank cs with
      | '"' :: rest =>
          match readString? (rest.length + 1) [] rest with
          | none => none
          | some (key, afterKey) =>
              match skipBlank afterKey with
              | ':' :: afterColon =>
                  match readValue? fuel afterColon with
                  | none => none
                  | some (value, rest) =>
                      match skipBlank rest with
                      | ',' :: more => readMembers? fuel ((key, value) :: before) more
                      | '\x7d' :: after => some ((key, value) :: before, after)
                      | _ => none
              | _ => none
      | _ => none

end

/-- The value that is all of a text, blank space around it apart. -/
def readChars? (cs : List Char) : Option Json :=
  match readValue? (2 * cs.length + 2) cs with
  | some (value, rest) => if (skipBlank rest).isEmpty then some value else none
  | none => none

/-- The value that a text denotes. -/
def read? (text : String) : Option Json := readChars? text.toList

end TensorGraph.Json
