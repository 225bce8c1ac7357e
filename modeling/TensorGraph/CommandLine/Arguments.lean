import TensorGraph.Decimal.Numeral
import TensorGraph.Text.Units

/-!
# Arguments of a command

An argument is positional or sets keys. A long key is written behind two hyphens, its value
after an equals sign or as the next argument; `no-` before its name negates it. Letters
behind one hyphen are keys of their own, of which the last may have a value, unless a point
follows the first one. A text that starts with a hyphen is no value unless it is a negative
number. Behind two hyphens alone all arguments are positional.

Letters are units of 16 bits, and a key ends where its line does.

## Main results

* `form_of_plain` -- an argument that does not start with a hyphen is positional.
-/

namespace TensorGraph.CommandLine

/-- Whether a text may be the value of the key in front of it. -/
abbrev Follows := List Char → Bool

/-- How one argument is to be read. -/
inductive Form where
  | finish
  | positional
  | negated (key : String)
  /-- Keys with their values, as far as they have any, and a key that may have its value in
  the next argument. -/
  | keys (set : List (String × Option String)) (last : Option (String × Follows))

/-! ## Numbers as values -/

/-- What is left of a text after a point and digits, if it starts so. -/
def dropFraction? : List Char → Option (List Char)
  | '.' :: cs =>
      let (digits, rest) := Numeral.takeDigits cs
      if digits.isEmpty then none else some rest
  | _ => none

/-- Whether a text is a minus with digits, a fraction, or both behind it. -/
def isNegative : List Char → Bool
  | '-' :: cs =>
      let (whole, rest) := Numeral.takeDigits cs
      match dropFraction? rest with
      | some rest => rest.isEmpty
      | none => !whole.isEmpty && rest.isEmpty
  | _ => false

/-- Whether a text is nothing, or an `e` with digits behind it. A sign of the list may stand
in front of the digits. -/
def isExponent (signs cs : List Char) : Bool :=
  match cs with
  | [] => true
  | 'e' :: rest =>
      let digits := if rest.head?.any signs.contains then rest.tail else rest
      !digits.isEmpty && digits.all Char.isDigit
  | _ => false

/-- What is left of a text after a point and any digits, if it starts with a point. -/
def dropPoint : List Char → List Char
  | '.' :: cs => (Numeral.takeDigits cs).2
  | cs => cs

/-- Whether a text is a numeral that may stand right behind a letter: digits, then a point with
digits and an exponent if there are any, behind a minus or not. -/
def isNumeral (cs : List Char) : Bool :=
  let (whole, rest) := Numeral.takeDigits (if cs.head? = some '-' then cs.tail else cs)
  !whole.isEmpty && isExponent ['-'] (dropPoint rest)

/-- Whether a text looks like a number: a numeral of base sixteen, or a decimal one without
needless zeros in front. -/
def looksNumeric (cs : List Char) : Bool :=
  match cs with
  | '0' :: c :: rest =>
      if (c = 'x' || c = 'X') && !rest.isEmpty && (Numeral.valueIn? 16 rest).isSome then true
      else c = '.' && isDecimal cs
  | _ => isDecimal cs
where
  /-- Whether a text is a decimal numeral. -/
  isDecimal (cs : List Char) : Bool :=
    let (whole, rest) := Numeral.takeDigits (if cs.head? = some '-' then cs.tail else cs)
    if whole.isEmpty then (dropFraction? rest).any (isExponent ['-', '+'])
    else isExponent ['-', '+'] (dropPoint rest)

/-- The number that a text looks like, if its whole part is exact. -/
def numberLike? (s : String) : Option Number :=
  if !looksNumeric s.toList then none
  else
    let x := Numeral.lenient s
    let isBased := s.toList.any fun c => c = 'x' || c = 'X'
    if isBased || x.wholePart?.any fun n => n.natAbs < exactRange then some x else none

/-! ## Values from the next argument -/

/-- Whether a text can be the value of a long key before it. -/
def followsLong : Follows := fun cs => cs.head? != some '-' || isNegative cs

/-- Whether a text can be the value of a key with a point before it. -/
def followsPoint : Follows := fun cs => cs.head? != some '-'

/-- Whether a text can be the value of a letter before it. Hyphens alone can. -/
def followsLetter : Follows
  | ['-'] => true
  | ['-', '-'] => true
  | '-' :: '-' :: '-' :: _ => true
  | cs => followsLong cs

/-! ## Forms -/

/-- Whether a character ends a line. -/
def isLineEnd (c : Char) : Bool := c = '\n' || c = '\r' || c = '\u2028' || c = '\u2029'

/-- The first line of a text. -/
def firstLine (cs : List Char) : List Char := cs.takeWhile fun c => !isLineEnd c

/-- Whether an equals sign stands in the first line of a text, but not in front. -/
def hasValue (cs : List Char) : Bool := ((firstLine cs).drop 1).contains '='

/-- The quotes that may stand around a value. -/
def quotes : List Char := "'\"".toList

/-- A text without the quotes around it, if it has the same at both ends. -/
def unquoted (cs : List Char) : List Char :=
  match cs with
  | [] => []
  | c :: rest =>
      if c ∈ quotes ∧ rest.getLast? = some c then rest.dropLast else cs

/-- The form that sets one key. -/
def setting (key value : List Char) : Form :=
  .keys [(String.ofList key, some (String.ofList value))] none

/-- Whether a text behind two hyphens has no key: only hyphens, or an equals sign right
behind three or more in all. -/
def lacksKey (body : List Char) : Bool :=
  body.head? = some '-' && (body.dropWhile (· = '-')).head?.all fun c => c = '='

/-- The form of an argument behind two hyphens. -/
def longForm (body : List Char) : Form :=
  if lacksKey body then .positional
  else if hasValue body then
    match body with
    | '=' :: rest => setting ['-'] (unquoted rest)
    | _ =>
        setting (body.takeWhile (· != '=')) (unquoted ((body.dropWhile (· != '=')).drop 1))
  else
    match firstLine body with
    | [] => .positional
    | 'n' :: 'o' :: '-' :: c :: rest => .negated (String.ofList (c :: rest))
    | key => .keys [] (some (String.ofList key, followsLong))

/-- Whether a unit is a letter of ASCII. -/
def isLetter (u : Nat) : Bool := u < 128 && (Char.ofNat u).isAlpha

/-- Whether a unit is a digit of ASCII. -/
def isDigit (u : Nat) : Bool := u < 128 && (Char.ofNat u).isDigit

/-- Whether a unit is a letter, a digit or an underscore of ASCII. -/
def isWord (u : Nat) : Bool := u < 128 && ((Char.ofNat u).isAlphanum || u = '_'.toNat)

/-- The keys that letters set, and the last letter if its value is still to be found. A
letter takes the rest as its value when an equals sign, a numeral or something else than a
letter, a digit or an underscore follows it. -/
def letters : List Nat → List (String × Option String) × Option String
  | [] => ([], none)
  | [u] => ([], some (Text.ofUnits [u]))
  | u :: v :: rest =>
      let key := Text.ofUnits [u]
      if v = '='.toNat && !rest.isEmpty then ([(key, some (Text.ofUnits rest))], none)
      else if v = '-'.toNat && rest.isEmpty then ([(key, some "-")], none)
      else if (isLetter u && isNumeral ((v :: rest).map Char.ofNat)) ||
          (!rest.isEmpty && !isWord v) then
        ([(key, some (Text.ofUnits (v :: rest)))], none)
      else
        let (others, last) := letters (v :: rest)
        ((key, none) :: others, last)

/-- The form of letters behind one hyphen. -/
def lettersForm (cs : List Char) : Form :=
  let (set, last) := letters (Text.unitsOfChars cs)
  .keys set (last.map (·, followsLetter))

/-- The form of a key with a point behind its first letter, if the argument is one. -/
def pointForm? (cs : List Char) : Option Form :=
  match cs with
  | c :: '.' :: rest =>
      if isLineEnd c || (Text.unitsOfChars [c]).length != 1 || (firstLine rest).isEmpty then none
      else if hasValue rest then
        if c = '=' then some (.keys [] none)
        else some (setting (cs.takeWhile (· != '=')) ((cs.dropWhile (· != '=')).drop 1))
      else if isNegative ('-' :: cs) then none
      else some (.keys [] (some (String.ofList (c :: '.' :: firstLine rest), followsPoint)))
  | _ => none

/-- The form of an argument. -/
def form (arg : String) : Form :=
  match arg.toList with
  | ['-', '-'] => .finish
  | '-' :: '-' :: body => longForm body
  | ['-'] => .positional
  | '-' :: cs =>
      match pointForm? cs with
      | some f => f
      | none => if isNegative ('-' :: cs) then .positional else lettersForm cs
  | _ => .positional

theorem form_of_plain {arg : String} (h : arg.toList.head? ≠ some '-') :
    form arg = .positional := by
  unfold form
  split <;> simp_all

end TensorGraph.CommandLine
