import TensorGraph.Optimizer.Pipeline

/-!
# Counts of changes

The changes of a sweep are added up as doubles. However many there are, and however the sum is
rounded, it is zero only when nothing was counted: rounding takes no positive number to zero, and
a sum that has left the range of doubles stays out of it.

## Main results

* `Number.Positive.plus` -- what has been counted is not lost by counting on.
* `Number.Positive.not_same_zero` -- a positive count is told apart from none.
-/

namespace TensorGraph

namespace Number

/-- The doubles that stand for no finite number. -/
def Unbounded (x : Float) : Prop := x = 0.0 / 0.0 ∨ x = 1.0 / 0.0 ∨ x = -(1.0 / 0.0)

/-- Whether a count is above zero, or beyond all numbers. -/
def Positive : Number → Prop
  | .int n => 0 < n
  | .real x => Unbounded x

namespace Unbounded

open Float.Model

variable {x : Float}

private theorem unpack (hx : Unbounded x) :
    x.toModel.unpack = .notANumber ∨ ∃ sign, x.toModel.unpack = .infinity sign := by
  rcases hx with rfl | rfl | rfl
  · exact .inl rfl
  · exact .inr ⟨_, rfl⟩
  · exact .inr ⟨_, rfl⟩

private theorem of_pack {u : UnpackedFloat} (hu : u = .notANumber ∨ ∃ sign, u = .infinity sign) :
    Unbounded ⟨pack u⟩ := by
  rcases hu with rfl | ⟨sign, rfl⟩
  · exact .inl (by decide)
  · cases sign
    · exact .inr (.inr (by decide))
    · exact .inr (.inl (by decide))

/-- A sum with an infinite operand, or one that is no number, is not finite. -/
theorem add (hx : Unbounded x) (y : Float) : Unbounded (x + y) := by
  refine of_pack (u := UnpackedFloat.add Format.binary64 x.toModel.unpack y.toModel.unpack) ?_
  unfold UnpackedFloat.add
  rcases hx.unpack with hnan | ⟨sign, hinf⟩
  · simp [hnan]
  · rw [hinf]
    cases y.toModel.unpack with
    | infinity other => cases h : sign == other <;> simp [h]
    | _ => simp

theorem ofFloat_eq (hx : Unbounded x) : ofFloat x = .real x := by
  rcases hx with rfl | rfl | rfl <;> decide

theorem ne_zero (hx : Unbounded x) : (x == Float.ofInt 0) = false := by
  rcases hx with rfl | rfl | rfl <;> decide

end Unbounded

private theorem int_plus_ofNat (m : Int) (n : Nat) :
    (Number.int m).plus (.ofNat n) = ofInt (m + n) := rfl

private theorem positive_ofInt {n : Int} (hn : 0 < n) : (ofInt n).Positive := by
  unfold ofInt
  split
  · exact hn
  · have hbelow : ¬ n < 0 := by omega
    split
    · rename_i magnitude hround
      have := roundToDouble_pos (by omega) hround
      simp only [hbelow, if_false, Positive]
      omega
    · rw [if_neg hbelow]
      exact .inr (.inl rfl)

/-- What has been counted is not lost by counting on. -/
theorem Positive.plus {x : Number} (hx : x.Positive) (n : Nat) : (x.plus (.ofNat n)).Positive := by
  cases x with
  | int m =>
      have hm : 0 < m := hx
      rw [int_plus_ofNat]
      exact positive_ofInt (by omega)
  | real x =>
      have hsum : Unbounded (x + Float.ofInt n) := Unbounded.add hx _
      rw [show (Number.real x).plus (.ofNat n) = ofFloat (x + Float.ofInt n) from rfl,
        hsum.ofFloat_eq]
      exact hsum

/-- Whoever counts something has counted something. -/
theorem positive_zero_plus {n : Nat} (hn : n ≠ 0) : ((Number.int 0).plus (.ofNat n)).Positive := by
  rw [int_plus_ofNat]
  exact positive_ofInt (by omega)

/-- A positive count is told apart from none. -/
theorem Positive.not_same_zero {x : Number} (hx : x.Positive) : x.same (.int 0) = false := by
  cases x with
  | int n =>
      have hn : 0 < n := hx
      rw [same_int, beq_eq_false_iff_ne]
      omega
  | real x => exact Unbounded.ne_zero hx

end Number

end TensorGraph
