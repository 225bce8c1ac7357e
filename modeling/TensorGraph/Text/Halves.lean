/-!
# Halves of pairs

The interchange format writes a character beyond the basic plane as a pair of 16-bit units,
and it allows one half of such a pair to stand alone. No text can hold a lone half, so a
character of a private range stands for it. A character of that range that was meant itself
is written behind a mark, which keeps the two apart: a text is spelled in this way where it
comes in, and read back where it goes out.

## Main results

* `pieces_spelledChars` -- reading back what was spelled gives the same characters.
* `plainChars_spelledChars` -- a text without halves comes out as it came in.
* `pieces_of_isPlain` -- a text without reserved characters needs no reading back.
-/

namespace TensorGraph.Text

/-- What a spelled text is made of. -/
inductive Piece where
  | char (c : Char)
  | half (unit : Nat)
  deriving DecidableEq, Repr

/-- Whether a unit is half of a pair. -/
def isHalf (unit : Nat) : Bool := 0xD800 ≤ unit && unit < 0xE000

/-- The first character that stands for a half, less the first half. -/
def halfBase : Nat := 0x100000

/-- The character before one that stands for itself. -/
def mark : Char := Char.ofNat 0x10D7FF

/-- Whether a character is the mark or stands for a half. -/
def isReserved (c : Char) : Bool := 0x10D7FF ≤ c.toNat && c.toNat < 0x10E000

/-- How a character is spelled. -/
def spelledChar (c : Char) : List Char := if isReserved c then [mark, c] else [c]

/-- How a unit is spelled: a lone half, or a character of the basic plane. -/
def spelledUnit (unit : Nat) : List Char :=
  if isHalf unit then [Char.ofNat (halfBase + unit)] else spelledChar (Char.ofNat unit)

/-- How a text without halves is spelled. -/
def spelledChars (cs : List Char) : List Char := cs.flatMap spelledChar

/-- The piece that a character is when no mark stands before it. -/
def pieceOfChar (c : Char) : Piece :=
  if isReserved c then .half (c.toNat - halfBase) else .char c

/-- The pieces of a spelled text. -/
def pieces : List Char → List Piece
  | [] => []
  | [c] => [pieceOfChar c]
  | c :: d :: rest =>
      if c = mark then .char d :: pieces rest else pieceOfChar c :: pieces (d :: rest)

/-- The character that is shown for a piece: a lone half is replaced. -/
def Piece.shown : Piece → Char
  | .char c => c
  | .half _ => '\uFFFD'

/-- The characters of a spelled text, lone halves replaced. -/
def plainChars (cs : List Char) : List Char := (pieces cs).map Piece.shown

theorem isReserved_mark : isReserved mark = true := by decide

theorem pieces_cons_of_not_reserved {c : Char} (h : isReserved c = false) (cs : List Char) :
    pieces (c :: cs) = .char c :: pieces cs := by
  have hne : c ≠ mark := by
    rintro rfl
    simp [isReserved_mark] at h
  cases cs with
  | nil => simp [pieces, pieceOfChar, h]
  | cons d rest => simp [pieces, pieceOfChar, h, hne]

/-- Reading back what was spelled gives the same characters. -/
theorem pieces_spelledChars (cs : List Char) : pieces (spelledChars cs) = cs.map .char := by
  induction cs with
  | nil => rfl
  | cons c cs ih =>
      rw [spelledChars, List.flatMap_cons, ← spelledChars, spelledChar]
      cases h : isReserved c with
      | true => simp [pieces, ih]
      | false =>
          have := pieces_cons_of_not_reserved h (spelledChars cs)
          simpa [ih] using this

theorem plainChars_spelledChars (cs : List Char) : plainChars (spelledChars cs) = cs := by
  simp [plainChars, pieces_spelledChars, Function.comp_def, Piece.shown]

/-- Whether a text is spelled as it is shown. -/
def isPlain (cs : List Char) : Bool := cs.all fun c => !isReserved c

/-- A text of characters that are not reserved is in single pieces. -/
theorem pieces_of_isPlain {cs : List Char} (h : isPlain cs = true) : pieces cs = cs.map .char := by
  induction cs with
  | nil => rfl
  | cons c cs ih =>
      simp only [isPlain, List.all_cons, Bool.and_eq_true, Bool.not_eq_true'] at h
      rw [pieces_cons_of_not_reserved h.1, ih h.2, List.map_cons]

/-- A text as it is spelled inside the library. -/
def spelled (s : String) : String :=
  if isPlain s.toList then s else String.ofList (spelledChars s.toList)

/-- A spelled text as it is shown outside, lone halves replaced. -/
def plain (s : String) : String :=
  if isPlain s.toList then s else String.ofList (plainChars s.toList)

/-- A spelled text as it is read back after it has been outside. -/
def mended (s : String) : String := spelled (plain s)

end TensorGraph.Text
