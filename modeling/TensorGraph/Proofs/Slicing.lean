import TensorGraph.Proofs.Collapsing
import TensorGraph.Proofs.Joining
import TensorGraph.Proofs.Running

/-!
# Slices that are copied

Joining and picking copy slices out of tensors that may be views. A coordinate along the axis of a join
falls into exactly one operand, after the sizes of the operands before it, and the join has there the
element of that operand. A row of a pick is the row of the source that an index names, counted from the
end if it is negative.

## Main results

* `Tensor.concat_fails_iff`, `Tensor.take_fails_iff` -- when there is nothing to copy.
* `Tensor.exists_fallsInto`, `Tensor.FallsInto.unique` -- the operand that a coordinate falls into.
* `Tensor.concat_take_slices` -- joins and picks have exactly the elements of these slices.
-/

namespace TensorGraph

/-! ## Lists of results -/

section Results

variable {ε α β : Type}

theorem mapM_eq_ok_iff {f : α → Except ε β} {xs : List α} {ys : List β} :
    xs.mapM f = .ok ys ↔ List.Forall₂ (fun x y => f x = .ok y) xs ys := by
  simp only [← Evaluation.toOption_eq_some, Evaluation.toOption_mapM, Permutation.mapM_eq_some_iff]

/-- There is a result for all entries of a list if there is one for each. -/
theorem exists_mapM_eq_ok_iff {f : α → Except ε β} {xs : List α} :
    (∃ ys, xs.mapM f = .ok ys) ↔ ∀ x ∈ xs, ∃ y, f x = .ok y := by
  simp only [mapM_eq_ok_iff]
  induction xs with
  | nil => simp
  | cons x xs ih => simp [List.forall₂_cons_left_iff, ← ih]

end Results

namespace Tensor

variable {α : Type}

/-! ## The operand that a coordinate falls into -/

/-- Where a tensor starts among tensors that are laid one after the other along an axis. -/
def startAlong (dim : Nat) (tensors : List (Tensor α)) (k : Nat) : Nat :=
  ((tensors.take k).map (extent dim)).sum

/-- Whether a coordinate along the axis falls into a tensor, the one at place `k`. -/
structure FallsInto (dim : Nat) (tensors : List (Tensor α)) (j k : Nat) (u : Tensor α) : Prop where
  operand : tensors[k]? = some u
  start : startAlong dim tensors k ≤ j
  stop : j < startAlong dim tensors k + u.extent dim

section Operands

variable {dim j k : Nat} {t u : Tensor α} {tensors : List (Tensor α)}

theorem startAlong_succ :
    startAlong dim (t :: tensors) (k + 1) = t.extent dim + startAlong dim tensors k := rfl

theorem fallsInto_zero : FallsInto dim (t :: tensors) j 0 u ↔ t = u ∧ j < t.extent dim := by
  constructor
  · rintro ⟨hoperand, -, hstop⟩
    obtain rfl : t = u := Option.some.inj hoperand
    exact ⟨rfl, (Nat.zero_add (t.extent dim)) ▸ hstop⟩
  · rintro ⟨rfl, hlt⟩
    exact ⟨rfl, Nat.zero_le j, (Nat.zero_add (t.extent dim)).symm ▸ hlt⟩

theorem fallsInto_succ : FallsInto dim (t :: tensors) j (k + 1) u ↔
    t.extent dim ≤ j ∧ FallsInto dim tensors (j - t.extent dim) k u := by
  constructor
  · rintro ⟨hoperand, hstart, hstop⟩
    rw [startAlong_succ] at hstart hstop
    exact ⟨by omega, hoperand, by omega, by omega⟩
  · rintro ⟨hle, hoperand, hstart, hstop⟩
    refine ⟨hoperand, ?_, ?_⟩
    · rw [startAlong_succ]
      omega
    · rw [startAlong_succ]
      omega

/-- A coordinate before the end falls into a tensor. -/
theorem exists_fallsInto (h : j < (tensors.map (extent dim)).sum) :
    ∃ k u, FallsInto dim tensors j k u := by
  induction tensors generalizing j with
  | nil => cases h
  | cons t tensors ih =>
      rw [List.map_cons, List.sum_cons] at h
      by_cases hfirst : j < t.extent dim
      · exact ⟨0, t, fallsInto_zero.2 ⟨rfl, hfirst⟩⟩
      · obtain ⟨k, u, hlater⟩ := ih (j := j - t.extent dim) (by omega)
        exact ⟨k + 1, u, fallsInto_succ.2 ⟨Nat.not_lt.1 hfirst, hlater⟩⟩

/-- A coordinate falls into one tensor only. -/
theorem FallsInto.unique {k' : Nat} {u' : Tensor α} (h : FallsInto dim tensors j k u)
    (h' : FallsInto dim tensors j k' u') : k' = k := by
  induction tensors generalizing j k k' with
  | nil => cases h.operand
  | cons t tensors ih =>
      cases k with
      | zero =>
          have hlt := (fallsInto_zero.1 h).2
          cases k' with
          | zero => rfl
          | succ k' => exact absurd (fallsInto_succ.1 h').1 (Nat.not_le.2 hlt)
      | succ k =>
          obtain ⟨hle, hlater⟩ := fallsInto_succ.1 h
          cases k' with
          | zero => exact absurd (fallsInto_zero.1 h').2 (Nat.not_lt.2 hle)
          | succ k' => exact congrArg Nat.succ (ih hlater (fallsInto_succ.1 h').2)

/-- The walk along the axis stops at the tensor that the coordinate falls into. -/
theorem joined?_eq {index : List Nat} (h : FallsInto dim tensors (index.getD dim 0) k u)
    (hdim : dim < index.length) :
    joined? dim tensors index =
      u.element? (index.set dim (index.getD dim 0 - startAlong dim tensors k)) := by
  -- Each step carries the coordinate on, less the size of the tensor that it passes.
  induction tensors generalizing k index with
  | nil => cases h.operand
  | cons t tensors ih =>
      cases k with
      | zero =>
          obtain ⟨rfl, hlt⟩ := fallsInto_zero.1 h
          have hself : index.set dim (index.getD dim 0 - startAlong dim (t :: tensors) 0) = index :=
            Shape.set_getD_self index dim
          rw [joined?, if_pos hlt, hself]
      | succ k =>
          obtain ⟨hle, hlater⟩ := fallsInto_succ.1 h
          have hmoved : (index.set dim (index.getD dim 0 - t.extent dim)).getD dim 0 =
              index.getD dim 0 - t.extent dim := by
            simp [hdim]
          rw [joined?, if_neg (Nat.not_lt.2 hle), ih (by rwa [hmoved]) (by rwa [List.length_set]),
            hmoved, List.set_set, startAlong_succ, Nat.sub_sub]

end Operands

/-! ## Joins -/

/-- Whether two shapes have the same sizes off an axis. -/
def SameOff (dim : Nat) (a b : List Nat) : Prop :=
  a.length = b.length ∧ ∀ i, i ≠ dim → a[i]? = b[i]?

instance (dim : Nat) (a b : List Nat) : Decidable (SameOff dim a b) :=
  decidable_of_iff _ Shape.set_eq_set_iff

/-- Whether a tensor has, at each multi-index, the element of the one operand that the coordinate along
the axis falls into, at that coordinate less the sizes of the operands before. -/
structure JoinOf (dim : Nat) (tensors : List (Tensor α)) (t c : Tensor α) : Prop where
  dtype : c.dtype = t.dtype
  shape : c.shape = t.shape.set dim (tensors.map (extent dim)).sum
  element : (∀ u ∈ tensors, u.Sound) → ∀ index, Shape.Within index c.shape →
    ∃ k u, FallsInto dim tensors (index.getD dim 0) k u ∧
      (∀ k' u', FallsInto dim tensors (index.getD dim 0) k' u' → k' = k) ∧
      Shape.Within (index.set dim (index.getD dim 0 - startAlong dim tensors k)) u.shape ∧
      c.element? index =
        u.element? (index.set dim (index.getD dim 0 - startAlong dim tensors k))

theorem agreeOff_iff_sameOff {dim : Nat} {shape : List Nat} {tensors : List (Tensor α)} :
    AgreeOff dim shape tensors ↔ ∀ u ∈ tensors, SameOff dim u.shape shape :=
  forall₂_congr fun _ _ => Shape.set_eq_set_iff

section Joins

variable [Scalar α] {t c : Tensor α} {rest : List (Tensor α)} {axis : Int}

/-- Tensors are joined exactly if the axis names one and the shapes are the same off it. -/
theorem concat_eq_ok_iff (hrank : t.rank < exactRange) :
    (∃ c, concat (t :: rest) (.int axis) = .ok c) ↔
      NamesPlace t.rank axis ∧
        ∀ u ∈ t :: rest, SameOff (placeNamed t.rank axis) u.shape t.shape := by
  have haxis := axisIndex?_eq hrank axis
  by_cases hnamed : NamesPlace t.rank axis
  · rw [if_pos hnamed] at haxis
    rw [and_iff_right hnamed, ← agreeOff_iff_sameOff]
    constructor
    · rintro ⟨c, hc⟩
      obtain ⟨dim, hdim, hagree⟩ := agreeOff_of_concat hc
      obtain rfl := Option.some.inj (haxis.symm.trans hdim)
      exact hagree
    · intro hagree
      obtain ⟨data, hconcat⟩ := exists_concat haxis hagree
      exact ⟨_, hconcat⟩
  · rw [if_neg hnamed] at haxis
    refine iff_of_false ?_ fun h => hnamed h.1
    rintro ⟨c, hc⟩
    rw [concat, haxis] at hc
    cases hc

/-- Joining fails exactly if the axis names none or a shape is another one off the axis. -/
theorem concat_fails_iff (hrank : t.rank < exactRange) :
    (∃ e, concat (t :: rest) (.int axis) = .error e) ↔
      ¬ NamesPlace t.rank axis ∨
        ∃ u ∈ t :: rest, ¬ SameOff (placeNamed t.rank axis) u.shape t.shape := by
  rw [Evaluation.exists_error_iff, concat_eq_ok_iff hrank, not_and_or]
  simp only [not_forall, exists_prop]

/-- What is joined has exactly the elements of the operands, one after the other along the axis. -/
theorem joinOf_concat (hrank : t.rank < exactRange) (h : concat (t :: rest) (.int axis) = .ok c) :
    JoinOf (placeNamed t.rank axis) (t :: rest) t c := by
  obtain ⟨hnamed, hall⟩ := (concat_eq_ok_iff hrank).1 ⟨c, h⟩
  have haxis := axisIndex?_eq hrank axis
  rw [if_pos hnamed] at haxis
  have hdim : placeNamed t.rank axis < t.shape.length := placeNamed_lt hnamed
  have hagree := agreeOff_iff_sameOff.2 hall
  generalize placeNamed t.rank axis = dim at haxis hdim hagree
  obtain ⟨data, hconcat⟩ := exists_concat haxis hagree
  obtain rfl := Except.ok.inj (hconcat.symm.trans h)
  -- The sizes are these in any case; what is read needs operands with their elements in the buffers.
  refine ⟨rfl, rfl, fun hsound index hindex => ?_⟩
  obtain ⟨c, hc, -, -, hread⟩ := concat_eq_ok haxis hdim hagree hsound
  obtain rfl := Except.ok.inj (hc.symm.trans h)
  have hwithin : Shape.Within index (t.shape.set dim ((t :: rest).map (extent dim)).sum) := hindex
  have hlength : dim < index.length := by
    rw [hwithin.length_eq, List.length_set]
    exact hdim
  obtain ⟨k, u, hfalls⟩ := exists_fallsInto (Shape.getD_lt hwithin hdim)
  refine ⟨k, u, hfalls, fun _ _ => hfalls.unique, ?_, ?_⟩
  · rw [shape_eq_set (hagree u (List.mem_of_getElem? hfalls.operand))]
    refine Shape.within_set hwithin ?_
    have hstart := hfalls.start
    have hstop := hfalls.stop
    omega
  · rw [hread index hindex, joined?_eq hfalls hlength]

end Joins

/-! ## Picks -/

section Picks

variable [Scalar α] {u indices c : Tensor α} {n : Nat} {rowShape : List Nat}

/-- Whether an index tensor has a whole number at a multi-index. -/
def IndexAt (indices : Tensor α) (i : List Nat) (k : Int) : Prop :=
  (Scalar.toNumber ((indices.element? i).getD Scalar.missing)).toInt? = some k

instance (indices : Tensor α) (i : List Nat) (k : Int) : Decidable (indices.IndexAt i k) :=
  inferInstanceAs (Decidable (_ = some k))

/-- Whether a tensor has, at each multi-index of an index tensor and one of a row, the element of the row
of another tensor that the index names. -/
structure PickOf (n : Nat) (rowShape : List Nat) (indices u c : Tensor α) : Prop where
  dtype : c.dtype = u.dtype
  shape : c.shape = indices.shape ++ rowShape
  element : u.Sound → ∀ i j, Shape.Within i indices.shape → Shape.Within j rowShape →
    ∃ k, indices.IndexAt i k ∧ NamesPlace n k ∧ c.element? (i ++ j) = u.element? (placeNamed n k :: j)

/-- A number names a row exactly if it is whole and names a place. -/
theorem rowIndex_eq_ok_iff {x : Number} {r : Nat} :
    rowIndex n x = .ok r ↔ ∃ k, x.toInt? = some k ∧ NamesPlace n k ∧ placeNamed n k = r := by
  unfold rowIndex
  cases x.toInt? with
  | none => simp
  | some k =>
      have hborder : (if k < 0 then k + n else k) < 0 ∨ (n : Int) ≤ (if k < 0 then k + n else k) ↔
          ¬ NamesPlace n k := by
        unfold NamesPlace
        split <;> omega
      simp only [Bool.or_eq_true, decide_eq_true_eq, hborder, Option.some.injEq, exists_eq_left']
      by_cases hnamed : NamesPlace n k
      · rw [if_neg (not_not_intro hnamed), and_iff_right hnamed, Except.ok.injEq]
        rfl
      · simp [hnamed]

/-- The rows that the elements of an index tensor name, in row-major order. -/
private def picked (n : Nat) (indices : Tensor α) : Except Failure (List Nat) :=
  (Shape.indices indices.shape).mapM fun i =>
    rowIndex n (Scalar.toNumber ((indices.element? i).getD Scalar.missing))

/-- A run of the source for each row that is picked. -/
private def pickedRuns (u : Tensor α) (row : Nat) (rows : List Nat) : List (Array α) :=
  rows.map fun r => run u.contiguous.data (u.contiguous.offset + Int.ofNat (r * row)) row

private theorem take_eq (hshape : u.shape = n :: rowShape) :
    take u indices = (picked n indices).map fun rows =>
      packed u.dtype (indices.shape ++ rowShape)
        ((pickedRuns u (Shape.size rowShape) rows).foldl (· ++ ·) #[]) := by
  have hpicked : picked n indices =
      (List.range indices.size).mapM fun i => rowIndex n (Scalar.toNumber (indices.entry i)) := by
    rw [picked, Shape.indices_eq_map_coordinates, List.mapM_map]
    rfl
  rw [take, hshape, hpicked]
  rfl

/-- What is picked has a row for each index. -/
theorem filled_take (hshape : u.shape = n :: rowShape) (h : take u indices = .ok c) : c.Filled := by
  rw [take_eq hshape] at h
  obtain ⟨rows, hrows, rfl⟩ := map_eq_ok h
  have hcount : rows.length = Shape.size indices.shape := by
    rw [← (mapM_eq_ok_iff.1 hrows).length_eq, Shape.length_indices]
  have hlength : ((pickedRuns u (Shape.size rowShape) rows).foldl (· ++ ·) #[]).toList.length =
      rows.length * Shape.size rowShape := by
    rw [toList_foldl_append, List.toList_toArray, List.nil_append, List.length_flatMap, pickedRuns,
      List.map_map]
    simp only [Function.comp_def, Array.length_toList, size_run, List.map_const', List.sum_replicate_nat]
  rw [Filled, size, packed, ← Array.length_toList, hlength, hcount, Shape.size_append]

/-- Picking fails exactly if an index is no whole number that names a row. -/
theorem take_fails_iff (hshape : u.shape = n :: rowShape) :
    (∃ e, take u indices = .error e) ↔
      ∃ i, Shape.Within i indices.shape ∧ ¬ ∃ k, indices.IndexAt i k ∧ NamesPlace n k := by
  have hpicked : (∃ c, take u indices = .ok c) ↔ ∃ rows, picked n indices = .ok rows := by
    rw [take_eq hshape]
    cases picked n indices <;> simp [Except.map]
  rw [Evaluation.exists_error_iff, hpicked, picked, exists_mapM_eq_ok_iff]
  simp only [rowIndex_eq_ok_iff, Shape.mem_indices_iff, not_forall, exists_prop]
  refine exists_congr fun i => and_congr_right fun _ => not_congr ?_
  constructor
  · rintro ⟨_, k, hk, hnamed, -⟩
    exact ⟨k, hk, hnamed⟩
  · rintro ⟨k, hk, hnamed⟩
    exact ⟨_, k, hk, hnamed, rfl⟩

/-- The multi-index of an index is found at its distance. -/
private theorem getElem?_indices {i dims : List Nat} (h : Shape.Within i dims) :
    (Shape.indices dims)[Shape.distance i (Shape.strides dims)]? = some i := by
  rw [Shape.indices_eq_map_coordinates, List.getElem?_map,
    List.getElem?_range (Shape.distance_lt_size h), Option.map_some, Shape.coordinates_distance h]

/-- The rows that are picked are rows of the source, and each is found at the distance of its index. -/
private theorem row_of_picked {rows : List Nat} (h : picked n indices = .ok rows) :
    (∀ r ∈ rows, r < n) ∧ ∀ i, Shape.Within i indices.shape →
      ∃ k, indices.IndexAt i k ∧ NamesPlace n k ∧
        rows[Shape.distance i (Shape.strides indices.shape)]? = some (placeNamed n k) := by
  obtain ⟨hlength, hrows⟩ := List.forall₂_iff_get.1 (mapM_eq_ok_iff.1 h)
  refine ⟨fun r hr => ?_, fun i hi => ?_⟩
  · obtain ⟨place, hplace, rfl⟩ := List.getElem_of_mem hr
    obtain ⟨k, -, hnamed, hk⟩ := rowIndex_eq_ok_iff.1 (hrows place (hlength ▸ hplace) hplace)
    rw [List.get_eq_getElem] at hk
    exact hk ▸ placeNamed_lt hnamed
  · obtain ⟨hplace, hfound⟩ := List.getElem?_eq_some_iff.1 (getElem?_indices hi)
    obtain ⟨k, hk, hnamed, hr⟩ := rowIndex_eq_ok_iff.1 (hrows _ hplace (hlength ▸ hplace))
    rw [List.get_eq_getElem, hfound] at hk
    exact ⟨k, hk, hnamed, List.getElem?_eq_some_iff.2 ⟨hlength ▸ hplace, hr.symm⟩⟩

/-- A row of a source that has its elements in the buffer is found in one run. -/
private theorem run_row (hsound : u.Sound) (hshape : u.shape = n :: rowShape) {r : Nat} (hr : r < n)
    {j : List Nat} (hj : Shape.Within j rowShape) :
    (run u.contiguous.data (u.contiguous.offset + Int.ofNat (r * Shape.size rowShape))
      (Shape.size rowShape)).toList[Shape.distance j (Shape.strides rowShape)]? =
        u.element? (r :: j) := by
  have hfits : r * Shape.size rowShape + Shape.size rowShape ≤ u.size := by
    rw [size, hshape, Shape.size_cons, ← Nat.succ_mul]
    exact Nat.mul_le_mul_right _ hr
  have hwithin : Shape.Within (r :: j) u.shape := hshape ▸ ⟨hr, hj⟩
  rw [hsound.run_contiguous hfits (Shape.distance_lt_size hj), ← at?_distance hwithin, hshape, Shape.strides_cons,
    Shape.distance, Shape.sizeFromInside_eq]

/-- What is picked has exactly the elements of the rows that the indices name. -/
theorem pickOf_take (hshape : u.shape = n :: rowShape) (h : take u indices = .ok c) :
    PickOf n rowShape indices u c := by
  rw [take_eq hshape] at h
  cases hpicked : picked n indices with
  | error e =>
      rw [hpicked] at h
      cases h
  | ok rows =>
      rw [hpicked] at h
      obtain rfl := Except.ok.inj h
      refine ⟨rfl, rfl, fun hsound i j hi hj => ?_⟩
      obtain ⟨hrows, hfound⟩ := row_of_picked hpicked
      obtain ⟨k, hk, hnamed, hrow⟩ := hfound i hi
      refine ⟨k, hk, hnamed, ?_⟩
      -- The distance splits after the axes of the index tensor: a number of whole rows, and a place in one.
      rw [element?_packed, Shape.distance_append hi.length_eq, ← Array.getElem?_toList,
        toList_foldl_append, List.toList_toArray, List.nil_append, pickedRuns, List.flatMap_map,
        getElem?_flatMap_rows (fun r _ => length_run _ _ _) hrow (Shape.distance_lt_size hj)]
      exact run_row hsound hshape (placeNamed_lt hnamed) hj

end Picks

/-! ## Both together -/

section Both

variable [Scalar α]

/-- Joining and picking copy exactly the right slices. Joining fails only if the axis names none or a
shape is another one off the axis, and has otherwise the elements of the operands, one after the other
along the axis. Picking fails only if an index is no whole number that names a row, and has otherwise
the elements of the rows that the indices name. What comes out is constructed unless the number of its
elements, computed in doubles, is none. -/
theorem concat_take_slices {t : Tensor α} (rest : List (Tensor α)) (axis : Int) {u : Tensor α}
    (indices : Tensor α) {n : Nat} {rowShape : List Nat} (hrank : t.rank < exactRange)
    (hshape : u.shape = n :: rowShape) :
    ((∃ e, concat (t :: rest) (.int axis) = .error e) ↔
      ¬ NamesPlace t.rank axis ∨
        ∃ u ∈ t :: rest, ¬ SameOff (placeNamed t.rank axis) u.shape t.shape) ∧
    (∀ c, concat (t :: rest) (.int axis) = .ok c →
      JoinOf (placeNamed t.rank axis) (t :: rest) t c) ∧
    ((∃ e, take u indices = .error e) ↔
      ∃ i, Shape.Within i indices.shape ∧ ¬ ∃ k, indices.IndexAt i k ∧ NamesPlace n k) ∧
    (∀ c, take u indices = .ok c → PickOf n rowShape indices u c) ∧
    ∀ c, concat (t :: rest) (.int axis) = .ok c ∨ take u indices = .ok c → c.size < exactRange →
      (c.constructed = .ok c ↔ Shape.measured c.shape ≠ .nan) := by
  refine ⟨concat_fails_iff hrank, fun _ => joinOf_concat hrank, take_fails_iff hshape,
    fun _ => pickOf_take hshape, fun c hc hsmall => ?_⟩
  rcases hc with hc | hc
  · exact (filled_concat hc).constructed_iff hsmall
  · exact (filled_take hshape hc).constructed_iff hsmall

end Both

/-- A column of three numbers that stand at the end of a buffer. -/
def lateColumn : Tensor Int :=
  { dtype := .int64, shape := [3, 1], strides := [1, 1], offset := 2, data := #[0, 0, 7, 8, 9] }

/-- The indices of the last row and of the first one. -/
def outermost : Tensor Int := packed .int64 [2] #[-1, 0]

/-- A column is joined to three rows along the last axis, and rows are picked from both ends. -/
theorem concat_take_slices_turned :
    turned.rank < exactRange ∧ turned.shape = [3, 2] ∧
      (∃ c, concat [turned, lateColumn] (.int (-1)) = .ok c ∧ c.shape = [3, 3] ∧
        c.element? [2, 2] = some 9) ∧
      ∃ c, take turned outermost = .ok c ∧ c.shape = [2, 2] ∧ c.element? [0, 1] = some 6 := by
  have hrank : turned.rank < exactRange := by decide
  have hshape : turned.shape = 3 :: [2] := rfl
  obtain ⟨hfails, hjoin, hfails', hpick, -⟩ :=
    concat_take_slices [lateColumn] (-1) outermost hrank hshape
  refine ⟨hrank, hshape, ?_, ?_⟩
  · cases hconcat : concat [turned, lateColumn] (.int (-1)) with
    | error e => exact absurd (hfails.1 ⟨e, hconcat⟩) (by decide)
    | ok c =>
        obtain ⟨-, hthree, hread⟩ := hjoin c hconcat
        have hsizes : c.shape = [3, 3] := hthree
        obtain ⟨k, u, ⟨hoperand, -, -⟩, hunique, -, helement⟩ :=
          hread (by decide) [2, 2] (hsizes ▸ ⟨by decide, by decide, trivial⟩)
        obtain rfl : 1 = k := hunique 1 lateColumn ⟨rfl, by decide, by decide⟩
        obtain rfl : lateColumn = u := Option.some.inj hoperand
        exact ⟨c, rfl, hsizes, helement.trans (by decide)⟩
  · cases htake : take turned outermost with
    | error e =>
        obtain ⟨i, hi, hnone⟩ := hfails'.1 ⟨e, htake⟩
        have hplace : i ∈ [[0], [1]] := Shape.mem_indices_iff.2 hi
        obtain rfl | rfl := List.mem_pair.1 hplace
        · exact (hnone ⟨-1, by decide, by decide⟩).elim
        · exact (hnone ⟨0, by decide, by decide⟩).elim
    | ok c =>
        obtain ⟨-, htwo, hread⟩ := hpick c htake
        have hsizes : c.shape = [2, 2] := htwo
        obtain ⟨k, hk, -, helement⟩ :=
          hread (by decide) [0] [1] ⟨by decide, trivial⟩ ⟨by decide, trivial⟩
        obtain rfl : -1 = k := Option.some.inj hk
        exact ⟨c, rfl, hsizes, helement.trans (by decide)⟩

end Tensor

/-! ## Sizes that are not computed exactly -/

namespace LooseTensor

/-- A tensor without elements, whose sizes along the first two axes multiply to about as much as a
double can hold. -/
def brimming : LooseTensor Int :=
  .packed .float32 [.ofNat (2 ^ 423), .ofNat (2 ^ 600), .int 0] #[]

/-- Joined to itself, the tensor has twice the size along the axis, and the number of elements is no
number. -/
theorem not_concat_take_slices_brimming :
    ofParts .float32 [.ofNat (2 ^ 423), .ofNat (2 ^ 600), .int 0] #[] = .ok brimming ∧
      NamesPlace brimming.shape.length 0 ∧
      concat [brimming, brimming] (.int 0) =
        .error (.dataLength 0 [.ofNat (2 ^ 424), .ofNat (2 ^ 600), .int 0]) := by
  have hbuilt : (Shape.size [.ofNat (2 ^ 423), .ofNat (2 ^ 600), .int 0] : Number).same
      (.ofNat 0) = true := by decide +kernel
  have hfails : (concat [brimming, brimming] (.int 0)).map (fun s => s.shape) =
      .error (.dataLength 0 [.ofNat (2 ^ 424), .ofNat (2 ^ 600), .int 0]) := by
    decide +kernel
  exact ⟨if_pos hbuilt, by decide, Evaluation.eq_error_of_map hfails⟩

end LooseTensor

end TensorGraph
