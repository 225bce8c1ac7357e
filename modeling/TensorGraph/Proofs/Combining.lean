import Mathlib.Data.List.GetD
import TensorGraph.Proofs.Broadcasting

/-!
# Combining two tensors

Two tensors are combined element by element if along each axis, counted from the innermost one, their
sizes are equal or one of them is one. An axis that only one of them has goes together with any size,
and the result has the other size where one is one. An axis of size one does not repeat along an empty
one, however: there the larger of the two sizes is asked for, which the empty axis cannot be brought to.
An element of the result combines the elements at its multi-index, wherever the two tensors keep them.

## Main results

* `Shape.forall₂_padded_iff` -- comparing aligned shapes is comparing axes counted from inside.
* `Tensor.zipWith_broadcasts` -- when two tensors are combined, and to which shape.
* `Tensor.element?_zipWith` -- which elements are combined.
-/

namespace TensorGraph

/-! ## Axes counted from inside -/

namespace Shape

/-- The size of an axis counted from the innermost one. A shape that lacks the axis has size one along
it. -/
def inwardSize (dims : List Nat) (i : Nat) : Nat := dims.reverse.getD i 1

theorem inwardSize_padded (rank : Nat) (dims : List Nat) (i : Nat) :
    inwardSize (padded rank dims) i = inwardSize dims i := by
  rw [inwardSize, padded, List.reverse_append, List.reverse_replicate, inwardSize]
  by_cases hi : i < dims.reverse.length
  · rw [List.getD_append _ _ _ _ hi]
  · have hbeyond := Nat.not_lt.1 hi
    rw [List.getD_append_right _ _ _ _ hbeyond, List.getD_eq_default _ _ hbeyond,
      List.getD_eq_getElem?_getD, List.getElem?_replicate]
    split <;> rfl

/-- Lists of one length are related entry by entry if they are so at every place, those beyond the end
included. -/
private theorem forall₂_iff_getD {R : Nat → Nat → Prop} {d : Nat} (hd : R d d) {xs ys : List Nat}
    (hlength : xs.length = ys.length) :
    List.Forall₂ R xs ys ↔ ∀ i, R (xs.getD i d) (ys.getD i d) := by
  induction xs generalizing ys with
  | nil =>
      obtain rfl := List.length_eq_zero_iff.1 hlength.symm
      simpa using hd
  | cons x xs ih =>
      cases ys with
      | nil => cases hlength
      | cons y ys =>
          rw [List.forall₂_cons, ih (Nat.succ.inj hlength)]
          constructor
          · rintro ⟨hfirst, hrest⟩ i
            cases i with
            | zero => exact hfirst
            | succ i => exact hrest i
          · intro h
            exact ⟨h 0, fun i => h (i + 1)⟩

variable {rank : Nat} {a b c : List Nat}

private theorem length_reverse_padded (ha : a.length ≤ rank) (hb : b.length ≤ rank) :
    (padded rank a).reverse.length = (padded rank b).reverse.length := by
  rw [List.length_reverse, List.length_reverse, length_padded ha, length_padded hb]

theorem forall₂_padded_iff {R : Nat → Nat → Prop} (hone : R 1 1) (ha : a.length ≤ rank)
    (hb : b.length ≤ rank) :
    List.Forall₂ R (padded rank a) (padded rank b) ↔ ∀ i, R (inwardSize a i) (inwardSize b i) := by
  rw [← List.forall₂_reverse_iff, forall₂_iff_getD hone (length_reverse_padded ha hb)]
  refine forall_congr' fun i => ?_
  rw [← inwardSize_padded rank a, ← inwardSize_padded rank b]
  rfl

private theorem getD_zipWith_max {xs ys : List Nat} (hlength : xs.length = ys.length) (i : Nat) :
    (List.zipWith max xs ys).getD i 1 = max (xs.getD i 1) (ys.getD i 1) := by
  by_cases hi : i < xs.length
  · have hi' : i < ys.length := hlength ▸ hi
    have hlt : i < (List.zipWith max xs ys).length := by
      rw [List.length_zipWith]
      exact Nat.lt_min.2 ⟨hi, hi'⟩
    rw [List.getD_eq_getElem _ _ hlt, List.getD_eq_getElem _ _ hi, List.getD_eq_getElem _ _ hi',
      List.getElem_zipWith]
  · have hi' : ¬ i < ys.length := hlength ▸ hi
    have hge : (List.zipWith max xs ys).length ≤ i := by
      rw [List.length_zipWith]
      omega
    rw [List.getD_eq_default _ _ hge, List.getD_eq_default _ _ (Nat.le_of_not_lt hi),
      List.getD_eq_default _ _ (Nat.le_of_not_lt hi'), Nat.max_self]

/-- The common shape has the larger of the two sizes along each axis. -/
theorem inwardSize_of_broadcast? (h : broadcast? a b = some c) (i : Nat) :
    inwardSize c i = max (inwardSize a i) (inwardSize b i) := by
  have ha : a.length ≤ max a.length b.length := Nat.le_max_left _ _
  have hb : b.length ≤ max a.length b.length := Nat.le_max_right _ _
  have hlength := length_reverse_padded ha hb
  rw [← inwardSize_padded (max a.length b.length) c, (broadcast?_eq_some ha hb h).2,
    ← inwardSize_padded (max a.length b.length) a, ← inwardSize_padded (max a.length b.length) b,
    inwardSize, List.reverse_zipWith (by simpa using hlength), getD_zipWith_max hlength]
  rfl

/-- Two sizes go together if they are equal, or one of them is one and the other axis is not empty. -/
theorem joins_iff {x y : Nat} : Joins x y ↔ x = y ∨ x = 1 ∧ y ≠ 0 ∨ y = 1 ∧ x ≠ 0 := by
  unfold Joins Fits
  omega

theorem Joins.max_eq {x y : Nat} (h : Joins x y) : max x y = if x = 1 then y else x := by
  unfold Joins Fits at h
  split <;> omega

end Shape

namespace Tensor

variable {α : Type} [Scalar α] {a b c : Tensor α}

theorem length_zipWith {f : α → α → α} (h : zipWith f a b = .ok c) :
    c.shape.length = max a.shape.length b.shape.length :=
  (Shape.broadcast?_eq_some (Nat.le_max_left _ _) (Nat.le_max_right _ _) (shape_zipWith h)).1

/-- Two operands are combined if their axes, counted from inside, go together. -/
private theorem exists_zipWith_iff (f : α → α → α) :
    (∃ c, zipWith f a b = .ok c) ↔
      ∀ i, Shape.Joins (Shape.inwardSize a.shape i) (Shape.inwardSize b.shape i) := by
  have hle := Nat.le_max_left a.shape.length b.shape.length
  have hle' := Nat.le_max_right a.shape.length b.shape.length
  rw [← Shape.forall₂_padded_iff (Shape.joins_iff.2 (.inl rfl)) hle hle']
  constructor
  · rintro ⟨c, hc⟩
    exact joins_of_zipWith hle hle' hc
  · intro h
    obtain ⟨c, hc, -⟩ := zipWith_eq_ok f hle hle' h
    exact ⟨c, hc⟩

/-- Two tensors are combined exactly if along each axis, counted from the innermost one, their sizes
are equal, or one of them is one and the other axis is not empty. The result has as many axes as the
longer of the two shapes, and along each the common size, or the other one where one of them is one. It
is constructed unless the number of its elements, computed in doubles, is none. -/
theorem zipWith_broadcasts (f : α → α → α) :
    ((∃ c, zipWith f a b = .ok c) ↔
      ∀ i, Shape.inwardSize a.shape i = Shape.inwardSize b.shape i ∨
        Shape.inwardSize a.shape i = 1 ∧ Shape.inwardSize b.shape i ≠ 0 ∨
        Shape.inwardSize b.shape i = 1 ∧ Shape.inwardSize a.shape i ≠ 0) ∧
    ∀ c, zipWith f a b = .ok c → c.shape.length = max a.shape.length b.shape.length ∧
      (∀ i, Shape.inwardSize c.shape i =
        if Shape.inwardSize a.shape i = 1 then Shape.inwardSize b.shape i
        else Shape.inwardSize a.shape i) ∧
      (c.size < exactRange → (c.constructed = .ok c ↔ Shape.measured c.shape ≠ .nan)) := by
  refine ⟨(exists_zipWith_iff f).trans (forall_congr' fun i => Shape.joins_iff),
    fun c hc => ⟨?_, fun i => ?_, (filled_zipWith hc).constructed_iff⟩⟩
  · exact length_zipWith hc
  · have hjoins := (exists_zipWith_iff f).1 ⟨c, hc⟩ i
    rw [Shape.inwardSize_of_broadcast? (shape_zipWith hc), hjoins.max_eq]

/-- Whole numbers on three axes, one of them of size one. -/
def sheets : Tensor Int := packed .int64 [2, 1, 3] #[1, 2, 3, 4, 5, 6]

/-- Whole numbers on two axes, the inner one of size one. -/
def column : Tensor Int := packed .int64 [4, 1] #[10, 20, 30, 40]

/-- Two whole numbers on one axis. -/
def couple : Tensor Int := packed .int64 [2] #[7, 8]

/-- The sheets repeat along the column and the column within the sheets, but three numbers in a row
do not go together with two. -/
theorem zipWith_broadcasts_sheets :
    (∃ c, zipWith (· + ·) sheets column = .ok c ∧ c.shape.length = 3 ∧
      ∀ i, Shape.inwardSize c.shape i = Shape.inwardSize [2, 4, 3] i) ∧
    ¬ ∃ c, zipWith (· + ·) sheets couple = .ok c := by
  have htogether : ∀ i, Shape.inwardSize sheets.shape i = Shape.inwardSize column.shape i ∨
      Shape.inwardSize sheets.shape i = 1 ∧ Shape.inwardSize column.shape i ≠ 0 ∨
      Shape.inwardSize column.shape i = 1 ∧ Shape.inwardSize sheets.shape i ≠ 0
    | 0 | 1 | 2 => by decide
    | i + 3 => .inl rfl
  obtain ⟨c, hc⟩ := (zipWith_broadcasts (a := sheets) (b := column) (· + ·)).1.2 htogether
  obtain ⟨hlength, hsizes, -⟩ := (zipWith_broadcasts (· + ·)).2 c hc
  refine ⟨⟨c, hc, hlength, fun i => (hsizes i).trans ?_⟩, fun hcouple => ?_⟩
  · match i with
    | 0 | 1 | 2 => decide
    | i + 3 => rfl
  · have hfirst := (zipWith_broadcasts (a := sheets) (b := couple) (· + ·)).1.1 hcouple 0
    revert hfirst
    decide

/-- A tensor without elements. -/
def vacant : Tensor Int := packed .float32 [0] #[]

/-- A tensor with one element on one axis. -/
def lone : Tensor Int := packed .float32 [1] #[5]

/-- An axis of size one and an empty one do not go together, although one of the sizes is one. -/
theorem not_zipWith_broadcasts_vacant :
    (∀ i, Shape.inwardSize vacant.shape i = Shape.inwardSize lone.shape i ∨
      Shape.inwardSize vacant.shape i = 1 ∨ Shape.inwardSize lone.shape i = 1) ∧
      zipWith (· + ·) vacant lone = .error .stretchShape := by
  refine ⟨fun i => ?_, rfl⟩
  match i with
  | 0 => decide
  | i + 1 => exact .inl rfl

/-! ## Which elements are combined -/

/-- Where an operand is read for a multi-index of the result: coordinates along axes that it lacks are
dropped, and those along axes of size one are zero. -/
def operandIndex (t : Tensor α) (index : List Nat) : List Nat :=
  Shape.source t.shape (index.drop (index.length - t.shape.length))

theorem readAt_length (t : Tensor α) (index : List Nat) :
    t.readAt index.length index = (t.element? (t.operandIndex index)).getD Scalar.missing := by
  rw [readAt, Shape.drop_source_padded, operandIndex]

omit [Scalar α] in
/-- An operand that is stretched to a shape is read within its own. -/
theorem within_operandIndex {t : Tensor α} {target index : List Nat}
    (hrank : t.shape.length ≤ target.length)
    (hfits : List.Forall₂ Shape.Fits (Shape.padded target.length t.shape) target)
    (hindex : Shape.Within index target) : Shape.Within (t.operandIndex index) t.shape := by
  have hsame : Shape.padded target.length target = target := Shape.padded_of_length rfl
  have hdropped := (Shape.fits_padded_iff hrank (Nat.le_refl _)).1 (hsame.symm ▸ hfits)
  rw [operandIndex, hindex.length_eq]
  exact Shape.within_source hdropped (Shape.within_drop hindex _)

/-- The element of the result at a multi-index combines the elements of the operands there, which lie
within their shapes. Where the buffer of an operand ends before the element, its place is taken by what
kernels read there. -/
theorem element?_zipWith {f : α → α → α} (hc : zipWith f a b = .ok c) {index : List Nat}
    (hindex : Shape.Within index c.shape) :
    Shape.Within (a.operandIndex index) a.shape ∧ Shape.Within (b.operandIndex index) b.shape ∧
      c.element? index = some (f ((a.element? (a.operandIndex index)).getD Scalar.missing)
        ((b.element? (b.operandIndex index)).getD Scalar.missing)) := by
  have hrank := length_zipWith hc
  have hle : a.shape.length ≤ c.shape.length := by omega
  have hle' : b.shape.length ≤ c.shape.length := by omega
  have hjoins := joins_of_zipWith hle hle' hc
  obtain ⟨d, hd, hcombines⟩ := zipWith_eq_ok f hle hle' hjoins
  obtain rfl : c = d := Except.ok.inj (hc.symm.trans hd)
  have hsame : Shape.padded c.shape.length c.shape = c.shape := Shape.padded_of_length rfl
  have hfits := (Shape.forall₂_joins_iff
    ((Shape.length_padded hle).trans (Shape.length_padded hle').symm)).1 hjoins
  rw [← hcombines.shape, hsame] at hfits
  have hread := hcombines.element index (hsame.symm ▸ hindex)
  rw [Nat.sub_self, List.drop_zero, ← hindex.length_eq, readAt_length, readAt_length] at hread
  exact ⟨within_operandIndex hle hfits.1 hindex, within_operandIndex hle' hfits.2 hindex, hread⟩

/-- A view that runs backwards along its first axis from the middle of its buffer. -/
def backwards : Tensor Int :=
  { dtype := .int64, shape := [2, 1, 2], strides := [-2, 7, 1], offset := 2, data := #[10, 20, 30, 40] }

theorem element?_zipWith_backwards :
    ∃ c, zipWith (· - ·) turned backwards = .ok c ∧ Shape.Within [1, 2, 0] c.shape ∧
      turned.operandIndex [1, 2, 0] = [2, 0] ∧ backwards.operandIndex [1, 2, 0] = [1, 0, 0] ∧
      c.element? [1, 2, 0] = some (3 - 10) := by
  obtain ⟨c, hc, hshape⟩ : ∃ c, zipWith (· - ·) turned backwards = .ok c ∧ c.shape = [2, 3, 2] :=
    ⟨_, rfl, rfl⟩
  have hindex : Shape.Within [1, 2, 0] c.shape := hshape ▸ ⟨by decide, by decide, by decide, trivial⟩
  refine ⟨c, hc, hindex, rfl, rfl, ?_⟩
  exact (element?_zipWith hc hindex).2.2.trans rfl

end Tensor

end TensorGraph
