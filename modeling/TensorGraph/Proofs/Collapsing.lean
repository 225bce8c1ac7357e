import TensorGraph.Proofs.Views

/-!
# Collapsed axes

A reduction collapses axes: they get size one, and the coordinates along them become zero. What is left
is what belongs to the other axes, which may as well be written without the collapsed ones. Both forms
have the same elements at the same linear indices.

## Main results

* `axisIndex?_eq` -- an axis is found by a whole number exactly if it names one.
* `Tensor.size_eq_mul` -- an element of the result stands for as many as the reduced axes have.
* `Tensor.blanked_eq_iff` -- multi-indices collapse alike if they agree on the axes that are kept.
* `Tensor.distance_blanked` -- the linear index does not depend on whether axes of size one are kept.
* `Tensor.exists_blanked` -- a multi-index of the kept axes comes from one of all axes.
-/

namespace TensorGraph

/-! ## Places counted from either end -/

/-- Whether a whole number names one of `n` places, which may be counted from the end. -/
def NamesPlace (n : Nat) (k : Int) : Prop := -(n : Int) ≤ k ∧ k < n

instance (n : Nat) (k : Int) : Decidable (NamesPlace n k) :=
  inferInstanceAs (Decidable (-(n : Int) ≤ k ∧ k < n))

/-- The place that a whole number names among `n`; a negative one counts from the end. -/
def placeNamed (n : Nat) (k : Int) : Nat := (if k < 0 then k + n else k).toNat

theorem placeNamed_lt {n : Nat} {k : Int} (h : NamesPlace n k) : placeNamed n k < n := by
  unfold NamesPlace at h
  unfold placeNamed
  split <;> omega

/-- An axis is found by a whole number exactly if it names one. -/
theorem axisIndex?_eq {rank : Nat} (hrank : rank < exactRange) (k : Int) :
    axisIndex? (.int k) rank = if NamesPlace rank k then some (placeNamed rank k) else none := by
  rw [axisIndex?_int k hrank]
  by_cases hneg : k < 0
  · have hbelow : ¬ (0 ≤ k ∧ k < rank) := by omega
    rw [if_neg hbelow, placeNamed, if_pos hneg, Int.add_comm]
    refine if_congr ?_ rfl rfl
    unfold NamesPlace
    omega
  · have hend : ¬ (k < 0 ∧ -(rank : Int) ≤ k) := by omega
    rw [if_neg hend, placeNamed, if_neg hneg]
    refine if_congr ?_ rfl rfl
    unfold NamesPlace
    omega

namespace Tensor

/-! ## Collapsing -/

/-- A list with one value in the places of reduced axes. -/
def blanked (blank : Nat) (reduced xs : List Nat) : List Nat :=
  xs.zipIdx.map fun (x, axis) => if reduced.contains axis then blank else x

@[simp] theorem length_blanked (blank : Nat) (reduced xs : List Nat) :
    (blanked blank reduced xs).length = xs.length := by
  simp [blanked]

theorem getElem_blanked {blank i : Nat} {reduced xs : List Nat} (hi : i < xs.length)
    (hi' : i < (blanked blank reduced xs).length) :
    (blanked blank reduced xs)[i] = if i ∈ reduced then blank else xs[i] := by
  simp [blanked]

/-- A multi-index within a shape lies within the shape with reduced axes of size one once it is
collapsed. -/
theorem within_blanked {reduced index dims : List Nat} (h : Shape.Within index dims) :
    Shape.Within (blanked 0 reduced index) (blanked 1 reduced dims) := by
  rw [Shape.within_iff, List.forall₂_iff_get]
  refine ⟨by simp [h.length_eq], fun i h₁ h₂ => ?_⟩
  have hi : i < index.length := by simpa using h₁
  have hi' : i < dims.length := by simpa using h₂
  have hlt := (List.forall₂_iff_get.1 (Shape.within_iff.1 h)).2 i hi hi'
  rw [List.get_eq_getElem, List.get_eq_getElem, getElem_blanked hi, getElem_blanked hi']
  split
  · exact Nat.one_pos
  · exact hlt

/-- What belongs to the axes that are reduced. -/
def onReducedAxes (xs reduced : List Nat) : List Nat :=
  (xs.zipIdx.filter fun (_, axis) => reduced.contains axis).map (·.1)

/-! ## From the outermost axis inwards -/

/-- The axes inside of the outermost one, counted from the next one. -/
private def innerAxes (reduced : List Nat) : List Nat := (reduced.filter (0 < ·)).map Nat.pred

@[simp] private theorem mem_innerAxes {reduced : List Nat} {i : Nat} :
    i ∈ innerAxes reduced ↔ i + 1 ∈ reduced := by
  simp only [innerAxes, List.mem_map, List.mem_filter, decide_eq_true_eq]
  constructor
  · rintro ⟨k, ⟨hk, hpos⟩, rfl⟩
    rwa [Nat.pred_eq_sub_one, Nat.sub_add_cancel hpos]
  · intro h
    exact ⟨i + 1, ⟨h, Nat.succ_pos i⟩, rfl⟩

section Outermost

variable (reduced : List Nat) (x : Nat) (xs : List Nat)

private theorem blanked_cons (blank : Nat) :
    blanked blank reduced (x :: xs) =
      (if 0 ∈ reduced then blank else x) :: blanked blank (innerAxes reduced) xs := by
  simp [blanked, List.zipIdx_cons, List.zipIdx_succ]

private theorem onKeptAxes_cons :
    onKeptAxes (x :: xs) reduced =
      if 0 ∈ reduced then onKeptAxes xs (innerAxes reduced)
      else x :: onKeptAxes xs (innerAxes reduced) := by
  by_cases h : 0 ∈ reduced <;>
    simp [onKeptAxes, List.zipIdx_cons, List.zipIdx_succ, List.filter_map, h, Function.comp_def]

private theorem onReducedAxes_cons :
    onReducedAxes (x :: xs) reduced =
      if 0 ∈ reduced then x :: onReducedAxes xs (innerAxes reduced)
      else onReducedAxes xs (innerAxes reduced) := by
  by_cases h : 0 ∈ reduced <;>
    simp [onReducedAxes, List.zipIdx_cons, List.zipIdx_succ, List.filter_map, h, Function.comp_def]

end Outermost

/-! ## Kept axes -/

theorem size_blanked (reduced dims : List Nat) :
    Shape.size (blanked 1 reduced dims) = Shape.size (onKeptAxes dims reduced) := by
  induction dims generalizing reduced with
  | nil => rfl
  | cons d ds ih =>
      rw [blanked_cons, onKeptAxes_cons, Shape.size_cons, ih]
      by_cases h : 0 ∈ reduced
      · rw [if_pos h, if_pos h, Nat.one_mul]
      · rw [if_neg h, if_neg h, Shape.size_cons]

/-- The result of a reduction has as many elements with collapsed axes as without them. -/
theorem size_reducedShape (keepDims : Bool) (dims reduced : List Nat) :
    Shape.size (reducedShape keepDims dims reduced) = Shape.size (blanked 1 reduced dims) := by
  cases keepDims with
  | true => rfl
  | false => exact (size_blanked reduced dims).symm

theorem size_eq_mul (reduced dims : List Nat) :
    Shape.size dims =
      Shape.size (onKeptAxes dims reduced) * Shape.size (onReducedAxes dims reduced) := by
  induction dims generalizing reduced with
  | nil => rfl
  | cons d ds ih =>
      rw [Shape.size_cons, ih (innerAxes reduced), onKeptAxes_cons, onReducedAxes_cons]
      by_cases h : 0 ∈ reduced
      · rw [if_pos h, if_pos h, Shape.size_cons, Nat.mul_left_comm]
      · rw [if_neg h, if_neg h, Shape.size_cons, Nat.mul_assoc]

/-- Collapsing changes nothing where axes have collapsed already. -/
theorem blanked_of_within {reduced index dims : List Nat}
    (h : Shape.Within index (blanked 1 reduced dims)) : blanked 0 reduced index = index := by
  induction dims generalizing reduced index with
  | nil =>
      cases index with
      | nil => rfl
      | cons => exact h.elim
  | cons d ds ih =>
      rw [blanked_cons] at h
      cases index with
      | nil => exact h.elim
      | cons i index =>
          rw [blanked_cons, ih h.2]
          by_cases hzero : 0 ∈ reduced
          · have hlt := h.1
            rw [if_pos hzero] at hlt
            rw [if_pos hzero, Nat.lt_one_iff.1 hlt]
          · rw [if_neg hzero]

/-- Two lists agree once reduced axes are collapsed if they agree on the axes that are kept. -/
theorem blanked_eq_iff (blank : Nat) {reduced xs ys : List Nat} (hlength : xs.length = ys.length) :
    blanked blank reduced xs = blanked blank reduced ys ↔
      onKeptAxes xs reduced = onKeptAxes ys reduced := by
  induction xs generalizing reduced ys with
  | nil =>
      obtain rfl := List.length_eq_zero_iff.1 hlength.symm
      exact ⟨fun _ => rfl, fun _ => rfl⟩
  | cons x xs ih =>
      cases ys with
      | nil => cases hlength
      | cons y ys =>
          rw [blanked_cons, blanked_cons, onKeptAxes_cons, onKeptAxes_cons, List.cons_eq_cons,
            ih (Nat.succ.inj hlength)]
          by_cases h : 0 ∈ reduced
          · rw [if_pos h, if_pos h, if_pos h, if_pos h, and_iff_right rfl]
          · rw [if_neg h, if_neg h, if_neg h, if_neg h, List.cons_eq_cons]

theorem distance_blanked {reduced index dims : List Nat}
    (h : Shape.Within index (blanked 1 reduced dims)) :
    Shape.distance index (Shape.strides (blanked 1 reduced dims)) =
      Shape.distance (onKeptAxes index reduced) (Shape.strides (onKeptAxes dims reduced)) := by
  induction dims generalizing reduced index with
  | nil =>
      cases index with
      | nil => rfl
      | cons => exact h.elim
  | cons d ds ih =>
      rw [blanked_cons] at h ⊢
      cases index with
      | nil => exact h.elim
      | cons i index =>
          have hrest := ih h.2
          rw [onKeptAxes_cons, onKeptAxes_cons, Shape.strides_cons, Shape.distance, hrest]
          by_cases hzero : 0 ∈ reduced
          · have hlt := h.1
            rw [if_pos hzero] at hlt
            rw [if_pos hzero, if_pos hzero, Nat.lt_one_iff.1 hlt, Nat.zero_mul, Nat.zero_add]
          · rw [if_neg hzero, if_neg hzero, Shape.strides_cons, Shape.distance,
              Shape.sizeFromInside_eq, Shape.sizeFromInside_eq, size_blanked]

theorem exists_blanked {reduced index dims : List Nat}
    (h : Shape.Within index (onKeptAxes dims reduced)) :
    ∃ wide, Shape.Within wide (blanked 1 reduced dims) ∧ onKeptAxes wide reduced = index := by
  induction dims generalizing reduced index with
  | nil =>
      cases index with
      | nil => exact ⟨[], trivial, rfl⟩
      | cons => exact h.elim
  | cons d ds ih =>
      rw [onKeptAxes_cons] at h
      simp only [blanked_cons]
      by_cases hzero : 0 ∈ reduced
      · rw [if_pos hzero] at h
        obtain ⟨wide, hwithin, hkept⟩ := ih h
        refine ⟨0 :: wide, ⟨?_, hwithin⟩, ?_⟩
        · rw [if_pos hzero]
          exact Nat.one_pos
        · rw [onKeptAxes_cons, if_pos hzero, hkept]
      · rw [if_neg hzero] at h
        cases index with
        | nil => exact h.elim
        | cons i index =>
            obtain ⟨wide, hwithin, hkept⟩ := ih h.2
            refine ⟨i :: wide, ⟨?_, hwithin⟩, ?_⟩
            · rw [if_neg hzero]
              exact h.1
            · rw [onKeptAxes_cons, if_neg hzero, hkept]

end Tensor

end TensorGraph
