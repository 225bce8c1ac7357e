import TensorGraph.Number
import TensorGraph.Text.Blank

/-!
# Texts that denote numbers

Two grammars for numbers. The strict one is that of interchange files: an optional
minus, digits without a leading zero, an optional fraction and an optional exponent,
each with at least one digit. The lenient one reads settings: blank space at the ends
is ignored, nothing at all is zero, a plus sign, a missing whole part or a missing
fraction are allowed, and so are the word for infinity and unsigned numerals with
base sixteen, eight or two. Both give the nearest double.

## Main results

* `takeDigits_append` -- splitting off the leading digits loses nothing.
* `digit_of_takeDigits` -- what is split off are digits.
-/

namespace TensorGraph.Numeral

/-- The leading decimal digits of a text, and the rest. -/
def takeDigits (cs : List Char) : List Char × List Char :=
  (cs.takeWhile Char.isDigit, cs.dropWhile Char.isDigit)

theorem takeDigits_append (cs : List Char) : (takeDigits cs).1 ++ (takeDigits cs).2 = cs :=
  List.takeWhile_append_dropWhile

theorem digit_of_takeDigits {c : Char} {cs : List Char} (h : c ∈ (takeDigits cs).1) :
    c.isDigit = true :=
  List.all_eq_true.1 (List.all_takeWhile (p := Char.isDigit) (l := cs)) c h

/-- The value of a digit in bases up to sixteen. -/
def digitValue? (c : Char) : Option Nat :=
  if c.isDigit then some (c.toNat - '0'.toNat)
  else if 'a' ≤ c && c ≤ 'f' then some (c.toNat - 'a'.toNat + 10)
  else if 'A' ≤ c && c ≤ 'F' then some (c.toNat - 'A'.toNat + 10)
  else none

/-- The value of a list of decimal digits. -/
def valueOf (digits : List Char) : Nat :=
  digits.foldl (fun value c => value * 10 + (c.toNat - '0'.toNat)) 0

/-- The value of digits in `base`, if all of them are digits of it. -/
def valueIn? (base : Nat) (digits : List Char) : Option Nat :=
  digits.foldlM (fun value c => do
    let digit ← digitValue? c
    if digit < base then some (value * base + digit) else none) 0

/-- An exponent part, if the text starts with a complete one: its value and the
rest. -/
def exponent? : List Char → Option (Int × List Char)
  | c :: cs =>
      if c = 'e' || c = 'E' then
        let (negative, body) := match cs with
          | '-' :: ds => (true, ds)
          | '+' :: ds => (false, ds)
          | ds => (false, ds)
        let (digits, rest) := takeDigits body
        if digits.isEmpty then none
        else
          let value : Int := valueOf digits
          some (if negative then -value else value, rest)
      else none
  | [] => none

/-- The double of a sign, the digits before and after the point, and an exponent. -/
def assemble (negative : Bool) (whole fraction : List Char) (exponent : Int) : Number :=
  let magnitude := Decimal.toFloat
    { digits := valueOf (whole ++ fraction), exponent := exponent - fraction.length }
  Number.ofFloat (if negative then -magnitude else magnitude)

/-- A number in the strict grammar at the start of a text, and the rest. -/
def strict? (cs : List Char) : Option (Number × List Char) :=
  let (negative, body) := match cs with
    | '-' :: ds => (true, ds)
    | ds => (false, ds)
  let (whole, rest) := takeDigits body
  if whole.isEmpty || (whole.head? == some '0' && whole.length != 1) then none
  else
    let afterPoint : Option (List Char × List Char) := match rest with
      | '.' :: ds =>
          let (fraction, rest) := takeDigits ds
          if fraction.isEmpty then none else some (fraction, rest)
      | ds => some ([], ds)
    match afterPoint with
    | none => none
    | some (fraction, rest) =>
        match rest with
        | c :: _ =>
            if c = 'e' || c = 'E' then
              (exponent? rest).map fun (power, rest) =>
                (assemble negative whole fraction power, rest)
            else some (assemble negative whole fraction 0, rest)
        | [] => some (assemble negative whole fraction 0, [])

/-- An unsigned decimal numeral that is all of a text, in the lenient grammar. -/
def lenientDecimal? (negative : Bool) (cs : List Char) : Option Number :=
  let (whole, rest) := takeDigits cs
  let (fraction, rest) := match rest with
    | '.' :: ds => takeDigits ds
    | ds => ([], ds)
  if whole.isEmpty && fraction.isEmpty then none
  else if rest.isEmpty then some (assemble negative whole fraction 0)
  else match exponent? rest with
    | some (power, []) => some (assemble negative whole fraction power)
    | _ => none

/-- A natural number as the nearest double. -/
def nearest (n : Nat) : Number := Number.ofFloat (Float.ofNat n)

/-- A signed numeral or a signed infinity that is all of a text. -/
def lenientSigned? (cs : List Char) : Option Number :=
  let (negative, body) := match cs with
    | '-' :: ds => (true, ds)
    | '+' :: ds => (false, ds)
    | ds => (false, ds)
  if body = "Infinity".toList then
    some (Number.ofFloat (if negative then -(1.0 / 0.0) else 1.0 / 0.0))
  else lenientDecimal? negative body

/-- Digits in `base` that are all of a text, at least one of them. -/
def based? (base : Nat) (cs : List Char) : Option Number :=
  if cs.isEmpty then none else (valueIn? base cs).map nearest

/-- The number that a text denotes in the lenient grammar; any other text denotes the
value that is no number. -/
def lenient (s : String) : Number :=
  let read : Option Number := match Text.trimmedChars s.toList with
    | [] => some (.int 0)
    | '0' :: c :: cs =>
        if c = 'x' || c = 'X' then based? 16 cs
        else if c = 'o' || c = 'O' then based? 8 cs
        else if c = 'b' || c = 'B' then based? 2 cs
        else lenientSigned? ('0' :: c :: cs)
    | cs => lenientSigned? cs
  read.getD Number.nan

end TensorGraph.Numeral
