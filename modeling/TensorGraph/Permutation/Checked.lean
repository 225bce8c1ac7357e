import TensorGraph.Failure
import TensorGraph.Permutation

/-!
# Permutations given as numbers

Axes in files and settings are numbers of any kind. Here they are checked: a list of
numbers is a permutation when each of its entries is a natural number and these form
one. The operations on checked lists keep the numbers as they were given, so both zeros
stay what they are.

## Main results

* `ofNumbers?_isPermutation` -- what is read as a permutation is one.
* `ofNumbers?_ofNat` -- a permutation is read back from its numbers.
* `rankOf_ofNat` -- a natural number asks for itself as rank.
-/

namespace TensorGraph.Permutation

/-- The permutation that a list of numbers is, if it is one. -/
def ofNumbers? (xs : List Number) : Option (List Nat) :=
  match xs.mapM Number.toNat? with
  | some p => if isPermutation p then some p else none
  | none => none

/-- The numbers of a permutation. -/
def toNumbers (p : List Nat) : List Number := p.map Number.ofNat

theorem ofNumbers?_isPermutation {xs : List Number} {p : List Nat}
    (h : ofNumbers? xs = some p) : IsPermutation p := by
  unfold ofNumbers? at h
  split at h
  · split at h
    · obtain rfl := Option.some.inj h
      exact isPermutation_iff.1 (by assumption)
    · simp at h
  · simp at h

/-- Results for all entries of a list are as many as the entries. -/
theorem length_mapM {α β : Type} {f : α → Option β} {xs : List α} {ys : List β}
    (h : xs.mapM f = some ys) : ys.length = xs.length := by
  induction xs generalizing ys with
  | nil =>
      obtain rfl : [] = ys := by simpa using h
      rfl
  | cons x xs ih =>
      simp only [List.mapM_cons, Option.pure_def, Option.bind_eq_bind, Option.bind_eq_some_iff,
        Option.some.injEq] at h
      obtain ⟨y, -, rest, hrest, rfl⟩ := h
      simp [ih hrest]

/-- A permutation has as many entries as the numbers that it is read from. -/
theorem length_of_ofNumbers? {xs : List Number} {p : List Nat} (h : ofNumbers? xs = some p) :
    p.length = xs.length := by
  unfold ofNumbers? at h
  split at h
  · rename_i q hq
    split at h
    · obtain rfl := Option.some.inj h
      exact length_mapM hq
    · cases h
  · cases h

private theorem mapM_toNat?_ofNat (p : List Nat) :
    (p.map Number.ofNat).mapM Number.toNat? = some p := by
  induction p with
  | nil => rfl
  | cons n p ih => simp [ih]

theorem ofNumbers?_ofNat {p : List Nat} (h : IsPermutation p) :
    ofNumbers? (toNumbers p) = some p := by
  unfold ofNumbers? toNumbers
  rw [mapM_toNat?_ofNat]
  simp [isPermutation_iff.2 h]

/-- Whether two lists of numbers have the same values in the same order. -/
def sameNumbers (a b : List Number) : Bool :=
  a.length == b.length && (List.zipWith Number.same a b).all id

/-- Whether each number is its own place. -/
def isIdentityOfNumbers (xs : List Number) : Bool :=
  sameNumbers xs (toNumbers (identity xs.length))

/-- The entries of a list at places given by numbers; a number that is no place of the
list gives nothing. -/
def entriesAt {α : Type} (xs : List α) (places : List Number) : List (Option α) :=
  places.map fun place => place.toNat?.bind fun i => xs[i]?

/-- A list of numbers that has to be a permutation. -/
def require (context : String) (xs : List Number) : Except Failure (List Nat) :=
  match ofNumbers? xs with
  | some p => .ok p
  | none => .error (.notPermutation context xs)

/-- The permutation that does what `first` and then `second` do, checked. -/
def composeNumbers (first second : List Number) : Except Failure (List (Option Number)) := do
  let _ ← require "composePermutations: first" first
  let _ ← require "composePermutations: second" second
  if first.length = second.length then return entriesAt first second
  else .error (.composedRanks first.length second.length)

/-- The permutation that undoes a list of numbers, checked. -/
def invertNumbers (xs : List Number) : Except Failure (List Nat) :=
  (require "invertPermutation" xs).map invert

/-- Whether two lists of numbers are permutations that undo each other. -/
def areInverseNumbers (a b : List Number) : Bool :=
  match ofNumbers? a, ofNumbers? b with
  | some p, some q => areInverse p q
  | _, _ => false

/-- A shape rearranged by places, of which there must be one for each axis. -/
def permuteShape {α : Type} (shape : List α) (places : List Number) :
    Except Failure (List (Option α)) :=
  if shape.length = places.length then .ok (entriesAt shape places)
  else .error (.permutedRank shape.length places.length)

/-- A shape that may be unknown, rearranged by places; unknown if the ranks differ. -/
def permutePartialShape {α : Type} (shape : Option (List α)) (places : List Number) :
    Option (List (Option α)) :=
  shape.bind fun dims =>
    if dims.length = places.length then some (entriesAt dims places) else none

/-- No list is as long as this. -/
def lengthLimit : Nat := Nat.pow 2 32

/-- The rank that a number asks for: its whole part, none if it is negative or no number. What
no list is long enough for is refused. -/
def rankOf (x : Number) : Except Failure Nat :=
  match x.wholePart? with
  | some n => if n.toNat < lengthLimit then .ok n.toNat else .error (.badLength x)
  | none => if x.below (.int 0) then .ok 0 else .error (.badLength x)

theorem rankOf_ofNat {n : Nat} (h : n < lengthLimit) : rankOf (.ofNat n) = .ok n := by
  simp [rankOf, Number.ofNat, h]

end TensorGraph.Permutation
