import TensorGraph.Decimal.Binary64

/-!
# The shortest decimal that reads back

A double stands for all the reals that round to it. Among the decimals in that
interval the ones with the fewest digits are preferred, and of those the one
closest to the double itself; an exact tie goes to the even digit.

For each number of digits there is a grid of decimals, and if any point of a grid
lies in the interval then so does one of the two grid points beside the value.
The search therefore looks at two candidates per grid, coarsest grid first, in
exact `Nat` arithmetic.

## Main results

* `Binary64.shortest_fallback` -- what the search returns when no grid has a
  candidate is the exact value on its finest grid.
* `Decimal.strip_digits` -- a decimal without trailing zeros keeps its value.
-/

namespace TensorGraph

/-- A decimal `digits * 10 ^ exponent`. -/
structure Decimal where
  digits : Nat
  exponent : Int
  deriving DecidableEq, Repr

/-- How many decimal digits `n` is written with. -/
def decimalLength (n : Nat) : Nat := (Nat.toDigits 10 n).length

/-- Compares `a * 10 ^ i` with `n * 2 ^ j`, exactly. -/
def compareScaled (a : Nat) (i : Int) (n : Nat) (j : Int) : Ordering :=
  compare (a * Nat.pow 10 i.toNat * Nat.pow 2 (-j).toNat)
    (n * Nat.pow 2 j.toNat * Nat.pow 10 (-i).toNat)

namespace Decimal

/-- Moves trailing zeros of the digits into the exponent, at most `fuel` of them. -/
def stripWithin : Nat → Decimal → Decimal
  | 0, d => d
  | fuel + 1, d =>
      if d.digits % 10 = 0 && d.digits != 0 then
        stripWithin fuel { digits := d.digits / 10, exponent := d.exponent + 1 }
      else d

/-- The same decimal with no trailing zero among its digits. -/
def strip (d : Decimal) : Decimal := stripWithin d.digits d

theorem stripWithin_digits (fuel : Nat) (d : Decimal) :
    ∃ k : Nat, d.digits = (stripWithin fuel d).digits * Nat.pow 10 k ∧
      (stripWithin fuel d).exponent = d.exponent + k := by
  induction fuel generalizing d with
  | zero => exact ⟨0, by simp [stripWithin]⟩
  | succ fuel ih =>
      simp only [stripWithin]
      split
      · rename_i h
        obtain ⟨k, hk, he⟩ := ih { digits := d.digits / 10, exponent := d.exponent + 1 }
        refine ⟨k + 1, ?_, ?_⟩
        · have hm : d.digits % 10 = 0 := by simp at h; exact h.1
          have hd : d.digits / 10 * 10 = d.digits := by omega
          simp only at hk
          show _ = _ * (Nat.pow 10 k * 10)
          rw [← Nat.mul_assoc, ← hk, hd]
        · simp at he ⊢
          omega
      · exact ⟨0, by simp⟩

/-- Stripping moves a power of ten from the digits to the exponent and changes
nothing else. -/
theorem strip_digits (d : Decimal) :
    ∃ k : Nat, d.digits = d.strip.digits * Nat.pow 10 k ∧ d.strip.exponent = d.exponent + k :=
  stripWithin_digits d.digits d

end Decimal

namespace Binary64

/-- Whether `d` lies among the reals that round to the value, ties to even. -/
def readsBack (b : Binary64) (d : Decimal) : Bool :=
  let low := if b.narrowBelow then 4 * b.mantissa - 1 else 4 * b.mantissa - 2
  let high := 4 * b.mantissa + 2
  let inclusive := b.mantissa % 2 == 0
  let below := compareScaled d.digits d.exponent low (b.exponent - 2)
  let above := compareScaled d.digits d.exponent high (b.exponent - 2)
  (below == .gt || (inclusive && below == .eq)) && (above == .lt || (inclusive && above == .eq))

/-- The power of ten of the leading decimal digit of a positive value. -/
def leadingExponent (b : Binary64) : Int :=
  if b.denominator ≤ b.numerator then
    (decimalLength (b.numerator / b.denominator) : Int) - 1
  else
    let places := decimalLength (b.denominator / b.numerator) - 1
    if b.denominator ≤ b.numerator * Nat.pow 10 places then -(places : Int)
    else -(places + 1 : Int)

/-- The value in units of `10 ^ unit`: the whole units, what is left of the last
one, and what a whole unit measures. -/
def inUnits (b : Binary64) (unit : Int) : Nat × Nat × Nat :=
  let above := b.numerator * Nat.pow 10 (-unit).toNat
  let below := b.denominator * Nat.pow 10 unit.toNat
  (above / below, above % below, below)

/-- The better of the two decimals beside the value on the grid of `10 ^ unit`,
if one of them reads back. -/
def onGrid (b : Binary64) (unit : Int) : Option Decimal :=
  let (whole, rest, size) := b.inUnits unit
  let lower : Decimal := { digits := whole, exponent := unit }
  let upper : Decimal := { digits := whole + 1, exponent := unit }
  match b.readsBack lower, b.readsBack upper with
  | false, false => none
  | true, false => some lower
  | false, true => some upper
  | true, true =>
      if 2 * rest < size then some lower
      else if size < 2 * rest then some upper
      else if whole % 2 = 0 then some lower else some upper

/-- The exact value as a decimal. -/
def exact (b : Binary64) : Decimal :=
  if 0 ≤ b.exponent then { digits := b.numerator, exponent := 0 }
  else { digits := b.mantissa * Nat.pow 5 (-b.exponent).toNat, exponent := b.exponent }

/-- The shortest decimal that reads back as the value, which is positive. -/
def shortest (b : Binary64) : Decimal :=
  let lead := b.leadingExponent
  let found := (List.range 17).findSome? fun n => b.onGrid (lead - (n : Nat))
  (found.getD b.exact).strip

theorem shortest_fallback (b : Binary64)
    (h : ∀ n < 17, b.onGrid (b.leadingExponent - (n : Nat)) = none) :
    b.shortest = b.exact.strip := by
  have : (List.range 17).findSome? (fun n => b.onGrid (b.leadingExponent - (n : Nat))) = none := by
    rw [List.findSome?_eq_none_iff]
    intro n hn
    exact h n (by simpa using hn)
  simp [shortest, this]

/-- The value rounded to `count` significant decimal digits, a half away from
zero. -/
def significant (b : Binary64) (count : Nat) : Decimal :=
  let unit := b.leadingExponent - ((count : Int) - 1)
  let (whole, rest, size) := b.inUnits unit
  { digits := if 2 * rest < size then whole else whole + 1, exponent := unit }

end Binary64

end TensorGraph
