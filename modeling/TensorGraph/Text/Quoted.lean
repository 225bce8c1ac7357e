import TensorGraph.Text.Units

/-!
# Texts in quotes

How a text is quoted in a message. It stands in single quotes; in double quotes where it holds
single ones, and in back quotes where it holds both. Control characters, backslashes, lone
halves and the quotes around it are escaped.

## Main results

* `escapedPiece_of_visible` -- a visible character stands for itself.
-/

namespace TensorGraph.Text

/-- The quotes that a text is put into. -/
def quoteFor (cs : List Char) : Char :=
  if !cs.contains '\x27' then '\x27'
  else if !cs.contains '\x22' then '\x22'
  else if !cs.contains '\x60' && !(cs.zip cs.tail).contains ('$', '\x7b') then '\x60'
  else '\x27'

/-- The control characters with a letter of their own. -/
def letterEscapes : List (Char × Char) :=
  [('\x08', 'b'), ('\t', 't'), ('\n', 'n'), ('\x0c', 'f'), ('\r', 'r')]

/-- Whether a character is a control character. -/
def isControl (c : Char) : Bool := c.toNat < 0x20 || (0x7F ≤ c.toNat && c.toNat < 0xA0)

/-- A number in two digits or more to the base sixteen. -/
def hexDigits (n : Nat) : List Char :=
  (if n < 16 then ['0'] else []) ++ Nat.toDigits 16 n

/-- How a piece of a text is written in quotes. -/
def escapedPiece (quote : Char) : Piece → List Char
  | .half unit => '\\' :: 'u' :: hexDigits unit
  | .char c =>
      if c = quote ∨ c = '\\' then ['\\', c]
      else
        match letterEscapes.lookup c with
        | some letter => ['\\', letter]
        | none =>
            if isControl c then '\\' :: 'x' :: (hexDigits c.toNat).map Char.toUpper
            else spelledChar c

/-- A text in quotes. -/
def quoted (s : String) : String :=
  let quote := quoteFor s.toList
  String.ofList (quote :: (pieces s.toList).flatMap (escapedPiece quote) ++ [quote])

theorem escapedPiece_of_visible {quote c : Char} (hquote : c ≠ quote) (hback : c ≠ '\\')
    (hcontrol : isControl c = false) : escapedPiece quote (.char c) = spelledChar c := by
  have hletter : letterEscapes.lookup c = none := by
    refine List.lookup_eq_none_iff.2 fun p hp => ?_
    have hall : ∀ p ∈ letterEscapes, isControl p.1 = true := by decide
    refine bne_iff_ne.2 fun e => ?_
    simp [e, hall p hp] at hcontrol
  simp [escapedPiece, hquote, hback, hletter, hcontrol]

/-- A text that is cut after some units. -/
def shortened (limit : Nat) (s : String) : String :=
  if limit < (units s).length then ofUnits ((units s).take limit) ++ "..." else s

end TensorGraph.Text
