import TensorGraph.Json.Basic
import TensorGraph.Text.Halves

/-!
# Writing JSON

Two layouts: the compact one without any blank space, and the one in which each item
stands on a line of its own, two spaces deeper than what it belongs to. Empty arrays
and objects stay together in both. Characters below the space are escaped, the quote,
the backslash and lone halves of pairs too, and all others are written as they are.

The format has no infinite numbers: they are written as null.

## Main results

* `Json.escape_plain` -- a character that needs no escape is written as itself.
-/

namespace TensorGraph.Json

/-- A digit in base sixteen. -/
def sixteenthDigit (n : Nat) : Char := "0123456789abcdef".toList.getD n '0'

/-- How a character stands in a quoted text. -/
def escape (c : Char) : List Char :=
  if c = '"' then ['\\', '"']
  else if c = '\\' then ['\\', '\\']
  else if c = '\x08' then ['\\', 'b']
  else if c = '\x0c' then ['\\', 'f']
  else if c = '\n' then ['\\', 'n']
  else if c = '\r' then ['\\', 'r']
  else if c = '\t' then ['\\', 't']
  else if c.toNat < 0x20 then
    ['\\', 'u', '0', '0', sixteenthDigit (c.toNat / 16), sixteenthDigit (c.toNat % 16)]
  else [c]

theorem escape_plain {c : Char} (hquote : c ≠ '"') (hslash : c ≠ '\\') (hlow : ¬ c.toNat < 0x20) :
    escape c = [c] := by
  have low (d : Char) (hd : d.toNat < 0x20) : c ≠ d := by
    rintro rfl
    exact hlow hd
  simp [escape, hquote, hslash, hlow, low '\x08' (by decide), low '\x0c' (by decide),
    low '\n' (by decide), low '\r' (by decide), low '\t' (by decide)]

/-- How a piece of a spelled text stands in a quoted text. -/
def escapePiece : Text.Piece → List Char
  | .char c => if Text.isReserved c then Text.spelledChar c else escape c
  | .half unit =>
      ['\\', 'u', sixteenthDigit (unit / 0x1000), sixteenthDigit (unit / 0x100 % 0x10),
        sixteenthDigit (unit / 0x10 % 0x10), sixteenthDigit (unit % 0x10)]

/-- The characters of a spelled text between quotes. -/
def escapedChars (cs : List Char) : List Char :=
  if Text.isPlain cs then cs.flatMap escape else (Text.pieces cs).flatMap escapePiece

/-- A text in quotes. -/
def quoted (s : String) : String := "\"" ++ String.ofList (escapedChars s.toList) ++ "\""

/-- A number; the sign of zero is not written. -/
def numberText (x : Number) : String := if x.isFinite then x.text else "null"

mutual

/-- The compact layout. -/
def compact : Json → String
  | .null => "null"
  | .bool true => "true"
  | .bool false => "false"
  | .num x => numberText x
  | .str s => quoted s
  | .arr items => "[" ++ String.intercalate "," (compactItems items) ++ "]"
  | .obj members => "\x7b" ++ String.intercalate "," (compactMembers members) ++ "\x7d"

/-- The compact texts of the items. -/
def compactItems : List Json → List String
  | [] => []
  | item :: rest => compact item :: compactItems rest

/-- The compact texts of the members. -/
def compactMembers : List (String × Json) → List String
  | [] => []
  | (key, value) :: rest => (quoted key ++ ":" ++ compact value) :: compactMembers rest

end

/-- The start of a line at a given depth. -/
def newLine (depth : Nat) : String := "\n" ++ String.ofList (List.replicate (2 * depth) ' ')

/-- Lines between two brackets, one item a line. -/
def block (opening closing : String) (depth : Nat) (items : List String) : String :=
  if items.isEmpty then opening ++ closing
  else
    opening ++ newLine (depth + 1) ++ String.intercalate ("," ++ newLine (depth + 1)) items ++
      newLine depth ++ closing

mutual

/-- The layout with one item a line, inside something of the given depth. -/
def indentedAt (depth : Nat) : Json → String
  | .null => "null"
  | .bool true => "true"
  | .bool false => "false"
  | .num x => numberText x
  | .str s => quoted s
  | .arr items => block "[" "]" depth (indentedItems (depth + 1) items)
  | .obj members => block "\x7b" "\x7d" depth (indentedMembers (depth + 1) members)

/-- The texts of the items of an array. -/
def indentedItems (depth : Nat) : List Json → List String
  | [] => []
  | item :: rest => indentedAt depth item :: indentedItems depth rest

/-- The texts of the members of an object. -/
def indentedMembers (depth : Nat) : List (String × Json) → List String
  | [] => []
  | (key, value) :: rest =>
      (quoted key ++ ": " ++ indentedAt depth value) :: indentedMembers depth rest

end

/-- The layout with one item a line. -/
def indented (j : Json) : String := indentedAt 0 j

end TensorGraph.Json
