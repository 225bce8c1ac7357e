import TensorGraph.Decimal.Shortest

/-!
# Numbers

The numbers of a graph are doubles, but nearly all of them are axes, sizes and
counts. `Number` keeps a whole number as an `Int`, where it can be reasoned about,
and any other double as it is. `Number.ofFloat` puts each double into one of the
two forms; the negative zero, which is a whole number with a sign of its own, stays
a double.

A number is written with the fewest digits that read back, positionally when its
leading digit stands between `10 ^ (-7)` and `10 ^ 21`, both excluded, and with an
exponent otherwise.

## Main results

* `Number.toInt?_int` -- a whole number is read as itself.
* `Number.toNat?_ofNat` -- so is a natural number.
* `Number.plus_of_small` -- small whole numbers are added exactly.
* `Number.naturalsBelow_ofNat` -- there are `n` natural numbers below `n`.
* `Number.text_int_of_small` -- a small whole number is written as its digits.
-/

namespace TensorGraph

namespace Decimal

/-- The digits of a decimal as text. -/
def digitText (d : Decimal) : String := String.ofList (Nat.toDigits 10 d.digits)

/-- The zeros that fill up a positional text. -/
def zeros (count : Nat) : String := String.ofList (List.replicate count '0')

/-- The text of a positive decimal without trailing zeros. -/
def layout (d : Decimal) : String :=
  let digits := Nat.toDigits 10 d.digits
  let count := digits.length
  let point : Int := count + d.exponent
  if count ≤ point && point ≤ 21 then
    d.digitText ++ zeros (point - count).toNat
  else if 0 < point && point ≤ 21 then
    String.ofList (digits.take point.toNat) ++ "." ++ String.ofList (digits.drop point.toNat)
  else if -6 < point && point ≤ 0 then
    "0." ++ zeros (-point).toNat ++ d.digitText
  else
    let power := point - 1
    let sign := if power < 0 then "-" else "+"
    let head := String.ofList (digits.take 1)
    let tail := digits.drop 1
    let fraction := if tail.isEmpty then "" else "." ++ String.ofList tail
    head ++ fraction ++ "e" ++ sign ++ toString power.natAbs

/-- The double nearest to a decimal. Exponents beyond the reach of any double are
cut off before a power of ten is formed. -/
def toFloat (d : Decimal) : Float :=
  let magnitude : Int := decimalLength d.digits + d.exponent
  if d.digits = 0 then 0.0
  else if 400 < magnitude then 1.0 / 0.0
  else if magnitude < -400 then 0.0
  else Float.ofScientific d.digits (d.exponent < 0) d.exponent.natAbs

end Decimal

/-- A double: a whole number, or any other one. -/
inductive Number where
  | int (n : Int)
  | real (x : Float)
  deriving DecidableEq, Repr

instance : Inhabited Number := ⟨.int 0⟩

namespace Number

/-- The number that a double is. -/
def ofFloat (x : Float) : Number :=
  let bits := x.toBits
  if !Binary64.isFiniteBits bits then .real x
  else
    let negative := Binary64.signOf bits
    match (Binary64.ofBits bits).toNat? with
    | none => .real x
    | some 0 => if negative then .real x else .int 0
    | some n => .int (if negative then -(n : Int) else n)

/-- The double that a number is. -/
def toFloat : Number → Float
  | .int n => Float.ofInt n
  | .real x => x

/-- A natural number as a number. -/
def ofNat (n : Nat) : Number := .int n

/-- The value that is no number. -/
def nan : Number := .real (0.0 / 0.0)

/-- Positive infinity. -/
def infinity : Number := .real (1.0 / 0.0)

/-- The whole number that a number is, if it is one; both zeros are zero. -/
def toInt? : Number → Option Int
  | .int n => some n
  | .real x => if x == 0.0 then some 0 else none

/-- The natural number that a number is, if it is one. -/
def toNat? (x : Number) : Option Nat :=
  match x.toInt? with
  | some (.ofNat n) => some n
  | _ => none

@[simp] theorem toInt?_int (n : Int) : (Number.int n).toInt? = some n := rfl

@[simp] theorem toNat?_ofNat (n : Nat) : (ofNat n).toNat? = some n := rfl

/-- A whole number as a double: in the exact range itself, beyond it the nearest one. -/
def ofInt (n : Int) : Number :=
  if n.natAbs < exactRange then .int n
  else
    match roundToDouble n.natAbs with
    | some magnitude => .int (if n < 0 then -(magnitude : Int) else magnitude)
    | none => if n < 0 then .real (-(1.0 / 0.0)) else infinity

theorem ofInt_of_small {n : Int} (h : n.natAbs < exactRange) : ofInt n = .int n := if_pos h

/-- What is rounded from a negative number is not zero or above it. -/
theorem toInt?_ofInt_of_neg {n : Int} (h : n < 0) :
    (ofInt n).toInt? = none ∨ ∃ m < 0, (ofInt n).toInt? = some m := by
  unfold ofInt
  split
  · exact .inr ⟨n, h, rfl⟩
  · rename_i hbig
    split
    · rename_i magnitude hround
      have hpos : 0 < magnitude := roundToDouble_pos (by omega) hround
      refine .inr ⟨-(magnitude : Int), by omega, ?_⟩
      simp [toInt?]
    · exact .inl (by decide)

/-- The sum of two numbers, rounded to a double. -/
def plus : Number → Number → Number
  | .int m, .int n => ofInt (m + n)
  | x, y => ofFloat (x.toFloat + y.toFloat)

theorem plus_of_small {m n : Int} (h : (m + n).natAbs < exactRange) :
    plus (.int m) (.int n) = .int (m + n) := by
  simp only [plus, ofInt_of_small h]

/-- The whole part of a number, nearer to zero. An infinite number has none, and the value
that is no number has zero. -/
def wholePart? : Number → Option Int
  | .int n => some n
  | .real x =>
      if x.isNaN then some 0
      else if !x.isFinite then none
      else
        let magnitude := Binary64.ofBits x.toBits
        let part : Int := magnitude.numerator / magnitude.denominator
        some (if Binary64.signOf x.toBits then -part else part)

@[simp] theorem wholePart?_int (n : Int) : (Number.int n).wholePart? = some n := rfl

/-- Whether the number is neither infinite nor the value that is no number. -/
def isFinite : Number → Bool
  | .int _ => true
  | .real x => x.isFinite

/-- Equality of values: the two zeros are equal, and the value that is no number
differs from itself. -/
def same : Number → Number → Bool
  | .int m, .int n => m == n
  | x, y => x.toFloat == y.toFloat

@[simp] theorem same_int (m n : Int) : same (.int m) (.int n) = (m == n) := rfl

/-- The order of values; nothing is below or above the value that is no number. -/
def below : Number → Number → Bool
  | .int m, .int n => m < n
  | x, y => x.toFloat < y.toFloat

/-- The order of values, equal ones included. -/
def atMost : Number → Number → Bool
  | .int m, .int n => m ≤ n
  | x, y => x.toFloat ≤ y.toFloat

/-- The quotient of two numbers, rounded to a double. -/
def dividedBy (x y : Number) : Number := ofFloat (x.toFloat / y.toFloat)

/-- How many natural numbers are below a number that is finite. -/
def naturalsBelow (x : Number) : Nat :=
  match x.wholePart? with
  | some (.ofNat n) => if (ofNat n).below x then n + 1 else n
  | _ => 0

@[simp] theorem naturalsBelow_ofNat (n : Nat) : (ofNat n).naturalsBelow = n := by
  simp [naturalsBelow, ofNat, below]

/-- The text of a double. -/
def textOfFloat (x : Float) : String :=
  let bits := x.toBits
  if x.isNaN then "NaN"
  else
    let sign := if Binary64.signOf bits then "-" else ""
    if !Binary64.isFiniteBits bits then sign ++ "Infinity"
    else
      let magnitude := Binary64.ofBits bits
      if magnitude.mantissa = 0 then "0" else sign ++ magnitude.shortest.layout

/-- The text of a number. In the exact range the shortest decimal of a whole number is
its digits. -/
def text : Number → String
  | .int n => if n.natAbs < exactRange then toString n else textOfFloat (Float.ofInt n)
  | .real x => textOfFloat x

theorem text_int_of_small {n : Int} (h : n.natAbs < exactRange) :
    (Number.int n).text = toString n := by
  simp [text, h]

/-- The number rounded to `count` significant decimal digits; infinities and the
value that is no number stay as they are. -/
def toSignificant (count : Nat) (x : Number) : Number :=
  let value := x.toFloat
  let bits := value.toBits
  let magnitude := Binary64.ofBits bits
  if !Binary64.isFiniteBits bits || magnitude.mantissa = 0 then x
  else
    let rounded := (magnitude.significant count).toFloat
    ofFloat (if Binary64.signOf bits then -rounded else rounded)

/-- A list of numbers as it stands in messages: separated by commas alone. -/
def listText (xs : List Number) : String := String.intercalate "," (xs.map text)

end Number

end TensorGraph
