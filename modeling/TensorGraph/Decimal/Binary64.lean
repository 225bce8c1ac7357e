/-!
# Doubles as exact fractions

Every finite double is a whole multiple of a power of two. This module reads
that fraction off the bits, so that the rest of the library can compute with it
in exact `Nat` arithmetic: which digits to print, whether a value is a whole
number, and what a large product rounds to.

## Main results

* `Binary64.toNat?_of_exponent_nonneg` -- a fraction whose exponent is not
  negative is a whole number.
* `roundToDouble_of_lt` -- a natural number in the exact range is a double as it is.
* `roundToDouble_pos` -- nothing but zero is rounded to zero.
* `exactRange_le_of_roundToDouble` -- what is beyond the exact range stays there.
-/

namespace TensorGraph

/-- A finite double without its sign: `mantissa * 2 ^ exponent`. -/
structure Binary64 where
  mantissa : Nat
  exponent : Int
  /-- The gap to the next smaller double is half the gap to the next larger. -/
  narrowBelow : Bool
  deriving DecidableEq, Repr

namespace Binary64

/-- The fraction behind the bits of a finite double, its sign left out. -/
def ofBits (bits : UInt64) : Binary64 :=
  let field := ((bits >>> 52) &&& 0x7FF).toNat
  let fraction := (bits &&& 0xFFFFFFFFFFFFF).toNat
  if field = 0 then
    { mantissa := fraction, exponent := -1074, narrowBelow := false }
  else
    { mantissa := Nat.pow 2 52 + fraction, exponent := (field : Int) - 1075,
      narrowBelow := fraction = 0 && 1 < field }

/-- Whether the sign bit is set, which it also is for the negative zero. -/
def signOf (bits : UInt64) : Bool := bits >>> 63 == 1

/-- Whether the bits stand for a number, and not for an infinity or no number. -/
def isFiniteBits (bits : UInt64) : Bool := (bits >>> 52) &&& 0x7FF != 0x7FF

/-- The numerator of the value over a denominator that is a power of two. -/
def numerator (b : Binary64) : Nat := b.mantissa * Nat.pow 2 b.exponent.toNat

/-- The denominator that goes with `numerator`. -/
def denominator (b : Binary64) : Nat := Nat.pow 2 (-b.exponent).toNat

theorem denominator_pos (b : Binary64) : 0 < b.denominator :=
  Nat.two_pow_pos _

/-- The value as a natural number, if it is one. -/
def toNat? (b : Binary64) : Option Nat :=
  if b.numerator % b.denominator = 0 then some (b.numerator / b.denominator) else none

theorem toNat?_of_exponent_nonneg (b : Binary64) (h : 0 ≤ b.exponent) :
    b.toNat? = some (b.mantissa * Nat.pow 2 b.exponent.toNat) := by
  have hd : b.denominator = 1 := by
    have : (-b.exponent).toNat = 0 := by omega
    simp [denominator, this]
  simp [toNat?, hd, numerator, Nat.mod_one]

end Binary64

/-- How many binary digits `n` has; zero has none. -/
def bitLength (n : Nat) : Nat := if n = 0 then 0 else Nat.log2 n + 1

/-- The quotient by a power of two, rounded to the nearest, a half to the even
neighbour. -/
def halfEvenShift (n drop : Nat) : Nat :=
  let size := Nat.pow 2 drop
  let quotient := n / size
  let rest := 2 * (n % size)
  if rest < size then quotient
  else if size < rest then quotient + 1
  else if quotient % 2 = 0 then quotient else quotient + 1

/-- Every double is smaller than two to this power. -/
def exponentRange : Nat := 1024

/-- Every double is smaller than this. -/
def doubleRange : Nat := Nat.pow 2 exponentRange

/-- Natural numbers smaller than this are doubles, with neighbours at distance one. -/
def exactRange : Nat := Nat.pow 2 53

/-- The double nearest to a natural number, again as a natural number, or
nothing when it is too large to be one. -/
def roundToDouble (n : Nat) : Option Nat :=
  let rounded :=
    if n < exactRange then n
    else halfEvenShift n (bitLength n - 53) * Nat.pow 2 (bitLength n - 53)
  if rounded < doubleRange then some rounded else none

@[simp] theorem roundToDouble_of_lt {n : Nat} (h : n < exactRange) : roundToDouble n = some n := by
  have range : exactRange < doubleRange := by
    have : 53 < exponentRange := by decide
    unfold exactRange doubleRange
    generalize exponentRange = k at this ⊢
    exact Nat.pow_lt_pow_right (by decide) this
  have : n < doubleRange := Nat.lt_trans h range
  unfold roundToDouble
  rw [if_pos h, if_pos this]

/-- Rounding does not go below the whole quotient. -/
theorem le_halfEvenShift (n drop : Nat) : n / Nat.pow 2 drop ≤ halfEvenShift n drop := by
  unfold halfEvenShift
  simp only
  split
  · exact Nat.le_refl _
  · split
    · exact Nat.le_succ _
    · split
      · exact Nat.le_refl _
      · exact Nat.le_succ _

private theorem halfEvenShift_pos {n drop : Nat} (h : Nat.pow 2 drop ≤ n) :
    0 < halfEvenShift n drop :=
  Nat.lt_of_lt_of_le (Nat.div_pos h (Nat.two_pow_pos drop)) (le_halfEvenShift n drop)

/-- Nothing but zero is rounded to zero. -/
theorem roundToDouble_pos {n m : Nat} (h : 0 < n) (hm : roundToDouble n = some m) : 0 < m := by
  unfold roundToDouble at hm
  generalize doubleRange = range at hm
  have pos : 0 < if n < exactRange then n
      else halfEvenShift n (bitLength n - 53) * Nat.pow 2 (bitLength n - 53) := by
    split
    · exact h
    · refine Nat.mul_pos (halfEvenShift_pos ?_) (Nat.two_pow_pos _)
      have hlog : bitLength n - 53 ≤ Nat.log2 n := by
        unfold bitLength
        split <;> omega
      exact Nat.le_trans (Nat.pow_le_pow_right (by decide) hlog) (Nat.log2_self_le (by omega))
  generalize (if n < exactRange then n
    else halfEvenShift n (bitLength n - 53) * Nat.pow 2 (bitLength n - 53)) = rounded at hm pos
  by_cases hrange : rounded < range
  · obtain rfl : rounded = m := by simpa [hrange] using hm
    exact pos
  · simp [hrange] at hm

/-- What is beyond the exact range is not rounded into it. -/
theorem exactRange_le_of_roundToDouble {n m : Nat} (hn : exactRange ≤ n)
    (hm : roundToDouble n = some m) : exactRange ≤ m := by
  have hpow : 2 ^ 53 ≤ n := hn
  have hlog : 53 ≤ Nat.log2 n := (Nat.le_log2 (by omega)).2 hpow
  have hlength : bitLength n - 53 = Nat.log2 n - 52 := by
    unfold bitLength
    rw [if_neg (by omega)]
    omega
  -- 53 binary digits are left, and the last one stands for two at least
  have hquotient : 2 ^ 52 ≤ n / Nat.pow 2 (Nat.log2 n - 52) := by
    refine (Nat.le_div_iff_mul_le (Nat.two_pow_pos _)).2 ?_
    have hself := Nat.log2_self_le (n := n) (by omega)
    rwa [show Nat.log2 n = 52 + (Nat.log2 n - 52) by omega, Nat.pow_add] at hself
  have hlast : Nat.pow 2 1 ≤ Nat.pow 2 (Nat.log2 n - 52) :=
    Nat.pow_le_pow_right (by decide) (by omega)
  have hrounded : exactRange ≤
      halfEvenShift n (Nat.log2 n - 52) * Nat.pow 2 (Nat.log2 n - 52) :=
    Nat.mul_le_mul (Nat.le_trans hquotient (le_halfEvenShift _ _)) hlast
  unfold roundToDouble at hm
  simp only [if_neg (Nat.not_lt.2 hn), hlength] at hm
  generalize doubleRange = range at hm
  split at hm
  · exact Option.some.inj hm ▸ hrounded
  · cases hm

end TensorGraph
