/-!
# Permutations of axes

A permutation of rank `r` lists the numbers below `r`, each once. Rearranging a
list by `p` puts the entry at `p[i]` into place `i`, so a tensor of shape `s`
transposed by `p` has the shape `arrange s p`. Transposing by `p` and then by `q`
is one transposition by `compose p q`.

## Main results

* `isPermutation_iff` -- the test decides the definition.
* `length_arrange` -- rearranging gives one entry per axis.
* `compose_identity` -- the identity is neutral on the right.
-/

namespace TensorGraph.Permutation

/-- A list of axes that names every axis of its rank exactly once. -/
def IsPermutation (p : List Nat) : Prop := p.Nodup ∧ ∀ axis ∈ p, axis < p.length

instance (p : List Nat) : Decidable (IsPermutation p) :=
  inferInstanceAs (Decidable (p.Nodup ∧ ∀ axis ∈ p, axis < p.length))

/-- The test for a permutation. -/
def isPermutation (p : List Nat) : Bool := decide (IsPermutation p)

theorem isPermutation_iff {p : List Nat} : isPermutation p = true ↔ IsPermutation p := by
  simp [isPermutation]

/-- The permutation that moves nothing. -/
def identity (rank : Nat) : List Nat := List.range rank

/-- The permutation that turns the axes around. -/
def reversed (rank : Nat) : List Nat := (identity rank).reverse

/-- Whether a list of axes moves nothing. -/
def isIdentity (p : List Nat) : Bool := p == identity p.length

@[simp] theorem length_identity (rank : Nat) : (identity rank).length = rank := by
  simp [identity]

@[simp] theorem length_reversed (rank : Nat) : (reversed rank).length = rank := by
  simp [reversed]

theorem identity_isPermutation (rank : Nat) : IsPermutation (identity rank) := by
  simp [IsPermutation, identity, List.nodup_range]

theorem reversed_isPermutation (rank : Nat) : IsPermutation (reversed rank) := by
  refine ⟨?_, by simp [reversed, identity]⟩
  exact ((List.reverse_perm _).nodup_iff).2 List.nodup_range

/-- The list whose entry `i` is the entry `p[i]` of `xs`. -/
def arrange {α : Type} [Inhabited α] (xs : List α) (p : List Nat) : List α :=
  p.map fun axis => xs.getD axis default

@[simp] theorem length_arrange {α : Type} [Inhabited α] (xs : List α) (p : List Nat) :
    (arrange xs p).length = p.length := by
  simp [arrange]

/-- The single permutation that does what `first` and then `second` do. -/
def compose (first second : List Nat) : List Nat := arrange first second

/-- The permutation that undoes `p`. -/
def invert (p : List Nat) : List Nat := (List.range p.length).map p.idxOf

@[simp] theorem length_compose (p q : List Nat) : (compose p q).length = q.length :=
  length_arrange p q

@[simp] theorem length_invert (p : List Nat) : (invert p).length = p.length := by
  simp [invert]

/-- Rearranging by the identity of the right rank changes nothing. -/
theorem arrange_identity {α : Type} [Inhabited α] (xs : List α) :
    arrange xs (identity xs.length) = xs := by
  apply List.ext_getElem
  · simp
  · intro i h₁ h₂
    simp [arrange, identity, h₂]

theorem compose_identity (p : List Nat) : compose p (identity p.length) = p :=
  arrange_identity p

/-- Whether two permutations of one rank undo each other. -/
def areInverse (p q : List Nat) : Bool :=
  p.length == q.length && isPermutation p && isPermutation q && isIdentity (compose p q)

end TensorGraph.Permutation
