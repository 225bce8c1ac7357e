import TensorGraph.Number

/-!
# Shapes

A shape lists the size of each axis, outermost first. The sizes are natural numbers
in a tensor at hand; where sizes come from outside unchecked they are arbitrary
numbers, and the same laws of layout are computed in double arithmetic. `Extent`
names what both kinds of size offer.

## Main results

* `Shape.size_cons` -- the number of elements is the product of the sizes.
* `Shape.strides_cons` -- a stride is the number of elements of the axes inside.
* `Shape.length_strides` -- every axis has a stride.
* `axisIndex?_lt` -- what is named is an axis.
-/

namespace TensorGraph

/-- What sizes of axes are computed with. -/
class Extent (α : Type) where
  /-- The size of an axis that repeats under broadcasting. -/
  one : α
  mul : α → α → α
  /-- Equality of sizes. -/
  agree : α → α → Bool
  larger : α → α → α

instance : Extent Nat := ⟨1, (· * ·), (· == ·), max⟩

namespace Number

/-- The larger of two numbers. A result that is no number spreads, and of two zeros
the positive one is larger. -/
def larger (x y : Number) : Number :=
  match x, y with
  | .int m, .int n => .int (max m n)
  | x, y =>
      let a := x.toFloat
      let b := y.toFloat
      if a.isNaN || b.isNaN then nan
      else if a == 0.0 && b == 0.0 then
        if Binary64.signOf a.toBits then y else x
      else if a < b then y else x

end Number

instance : Extent Number :=
  ⟨.int 1, fun x y => .ofFloat (x.toFloat * y.toFloat), Number.same, Number.larger⟩

namespace Shape

variable {α : Type} [Extent α]

/-- The number of elements: the product of the sizes, outermost axis first. -/
def size (dims : List α) : α := dims.foldl Extent.mul Extent.one

/-- The number of elements, innermost axis first. -/
def sizeFromInside : List α → α
  | [] => Extent.one
  | d :: ds => Extent.mul (sizeFromInside ds) d

/-- How far apart neighbours along each axis lie when the last axis varies fastest. -/
def strides : List α → List α
  | [] => []
  | _ :: ds => sizeFromInside ds :: strides ds

@[simp] theorem length_strides (dims : List α) : (strides dims).length = dims.length := by
  induction dims with
  | nil => rfl
  | cons d ds ih => simp [strides, ih]

theorem strides_cons (d : α) (ds : List α) :
    strides (d :: ds) = sizeFromInside ds :: strides ds := rfl

private theorem foldl_mul (dims : List Nat) (a : Nat) :
    dims.foldl Extent.mul a = a * dims.foldl Extent.mul Extent.one := by
  induction dims generalizing a with
  | nil => simp [Extent.one]
  | cons d ds ih =>
      rw [List.foldl_cons, List.foldl_cons, ih, ih (Extent.mul Extent.one d)]
      simp [Extent.mul, Extent.one, Nat.mul_assoc]

@[simp] theorem size_nil : size ([] : List Nat) = 1 := rfl

@[simp] theorem size_cons (d : Nat) (ds : List Nat) : size (d :: ds) = d * size ds := by
  show ds.foldl Extent.mul (Extent.mul Extent.one d) = _
  rw [foldl_mul]
  simp [size, Extent.mul, Extent.one]

/-- With natural numbers the two orders of multiplication agree. -/
theorem sizeFromInside_eq (dims : List Nat) : sizeFromInside dims = size dims := by
  induction dims with
  | nil => rfl
  | cons d ds ih => simp [sizeFromInside, ih, Extent.mul, Nat.mul_comm]

/-- How far an element lies from the first one, given its multi-index and the strides. -/
def distance : List Nat → List Nat → Nat
  | i :: index, stride :: strides => i * stride + distance index strides
  | _, _ => 0

/-- The broadcast of two shapes given innermost axis first: a missing size counts as
one, and two sizes go together when they are equal or one of them is one. -/
def broadcastInward : List α → List α → Option (List α)
  | [], bs => some (bs.map fun b => Extent.larger Extent.one b)
  | as, [] => some (as.map fun a => Extent.larger a Extent.one)
  | a :: as, b :: bs =>
      if Extent.agree a b || Extent.agree a Extent.one || Extent.agree b Extent.one then
        (broadcastInward as bs).map (Extent.larger a b :: ·)
      else none

/-- The shape that two operands are stretched to when they are combined element by
element, axes aligned at the innermost end. -/
def broadcast? (a b : List α) : Option (List α) :=
  (broadcastInward a.reverse b.reverse).map List.reverse

/-- The shape with axes of size one put in front until it has `rank` axes. -/
def padToRank? (dims : List α) (rank : Nat) : Option (List α) :=
  if rank < dims.length then none
  else some (List.replicate (rank - dims.length) Extent.one ++ dims)

/-- Whether every size is known and natural. -/
def isStatic (dims : List (Option Number)) : Bool :=
  dims.all fun d => (d.bind Number.toNat?).isSome

end Shape

/-- The axis that a number names in a tensor of `rank` axes: a negative one counts from
the end. -/
def normalizeAxis? (axis rank : Number) : Option Number :=
  let counted := if axis.below (.int 0) then rank.plus axis else axis
  match counted.toInt? with
  | none => none
  | some n => if n < 0 || rank.atMost (.int n) then none else some counted

/-- The same for a rank that is known to be a natural number. -/
def axisIndex? (axis : Number) (rank : Nat) : Option Nat :=
  (normalizeAxis? axis (.ofNat rank)).bind Number.toNat?

theorem axisIndex?_lt {axis : Number} {rank i : Nat} (h : axisIndex? axis rank = some i) :
    i < rank := by
  obtain ⟨counted, hcounted, hi⟩ := Option.bind_eq_some_iff.1 h
  simp only [normalizeAxis?] at hcounted
  split at hcounted
  · cases hcounted
  · rename_i n hn
    split at hcounted
    · cases hcounted
    · rename_i hrange
      rw [Option.some.inj hcounted] at hn
      rw [Number.toNat?, hn] at hi
      simp only [Bool.or_eq_true, decide_eq_true_eq, not_or, Number.ofNat, Number.atMost] at hrange
      cases n with
      | negSucc => cases hi
      | ofNat k =>
          obtain rfl : k = i := Option.some.inj hi
          have hlt := hrange.2
          simp at hlt
          exact hlt

/-- A whole number names an axis when it lies in the range of the rank, counted from
either end. -/
theorem axisIndex?_int (axis : Int) {rank : Nat} (hrank : rank < exactRange) :
    axisIndex? (.int axis) rank =
      if 0 ≤ axis ∧ axis < rank then some axis.toNat
      else if axis < 0 ∧ -(rank : Int) ≤ axis then some (rank + axis).toNat
      else none := by
  have toNat (n : Int) (h : 0 ≤ n) : (Number.int n).toNat? = some n.toNat := by
    obtain ⟨m, rfl⟩ := Int.eq_ofNat_of_zero_le h
    rfl
  unfold axisIndex? normalizeAxis?
  by_cases hneg : axis < 0
  · have hbelow : (Number.int axis).below (.int 0) = true := by simpa [Number.below] using hneg
    have hplus : (Number.ofNat rank).plus (.int axis) = .ofInt (rank + axis) := rfl
    rw [if_pos hbelow, hplus]
    by_cases hlow : -(rank : Int) ≤ axis
    · rw [Number.ofInt_of_small (by omega)]
      have h₁ : ¬ (rank : Int) + axis < 0 := by omega
      have h₂ : ¬ (rank : Int) ≤ rank + axis := by omega
      have h₃ : ¬ (0 ≤ axis ∧ axis < rank) := by omega
      have h₄ := toNat ((rank : Int) + axis) (by omega)
      simp [Number.atMost, Number.ofNat, h₁, h₂, hneg, hlow, h₃, h₄]
    · have h₃ : ¬ (0 ≤ axis ∧ axis < rank) := by omega
      rcases Number.toInt?_ofInt_of_neg (n := rank + axis) (by omega) with h | ⟨m, hm, h⟩
      · simp [h, hlow, h₃]
      · simp [h, hm, hlow, h₃]
  · by_cases hhigh : axis < rank
    · have h₀ : 0 ≤ axis := by omega
      have h₁ : ¬ (rank : Int) ≤ axis := by omega
      simp [Number.below, Number.atMost, Number.ofNat, hneg, hhigh, h₀, h₁, toNat axis h₀]
    · simp [Number.below, Number.atMost, Number.ofNat, hneg, hhigh]

end TensorGraph
