import TensorGraph.Proofs.Alignment
import TensorGraph.Proofs.Constructing
import TensorGraph.Proofs.Running
import TensorGraph.Proofs.Summing

/-!
# What reductions compute

A sum along axes has in each cell the left fold of addition, from zero and in row-major order, over the
elements that agree with the cell on the axes that are kept, whether the reduced axes stay with size one
or are dropped. A mean divides it by the number of these elements, which is the product of the sizes of
the reduced axes. All of this is so for views as for packed tensors, and for tensors without elements.

## Main results

* `Tensor.reduced_along` -- whole numbers that name axes are accepted.
* `Tensor.sum_eq_total`, `Tensor.mean_eq_total` -- the cells of a sum and of a mean.
* `Tensor.reduces_to_total` -- both together, along axes that whole numbers name.
-/

namespace TensorGraph

namespace Tensor

variable {α : Type}

/-! ## Axes to reduce along -/

/-- A reduction along the axes that whole numbers name, or along all axes. -/
def ReduceOptions.along (axes : Option (List Int)) (keepDims : Bool) : ReduceOptions :=
  { axes := axes.map fun ks => ks.map fun k => some (.int k), keepDims }

/-- The axes that whole numbers name, or all axes. -/
def placesAlong (rank : Nat) : Option (List Int) → List Nat
  | none => List.range rank
  | some ks => ks.map (placeNamed rank)

private theorem axesOf_eq {rank : Nat} (hrank : rank < exactRange) {ks : List Int}
    (hks : ∀ k ∈ ks, NamesPlace rank k) :
    axesOf rank (ks.map fun k => some (.int k)) = .ok (ks.map (placeNamed rank)) := by
  induction ks with
  | nil => rfl
  | cons k ks ih =>
      obtain ⟨hk, hrest⟩ := List.forall_mem_cons.1 hks
      have hfirst : axisIndex? (.int k) rank = some (placeNamed rank k) := by
        rw [axisIndex?_eq hrank, if_pos hk]
      have hlater := ih hrest
      unfold axesOf at hlater ⊢
      rw [List.map_cons, List.map_cons, List.mapM_cons, hlater, Option.bind_some, hfirst]
      rfl

/-- Any list of whole numbers that name axes is accepted, repeated or not, and so is none. -/
theorem reduced_along {rank : Nat} (hrank : rank < exactRange) {axes : Option (List Int)}
    (haxes : ∀ ks, axes = some ks → ∀ k ∈ ks, NamesPlace rank k) (keepDims : Bool) :
    (ReduceOptions.along axes keepDims).reduced rank = .ok (placesAlong rank axes) := by
  cases axes with
  | none => rfl
  | some ks => exact axesOf_eq hrank (haxes ks rfl)

/-! ## Cells and kept coordinates -/

/-- The coordinates of a cell of the result on the axes that are kept. -/
def keptCoordinates (keepDims : Bool) (reduced index : List Nat) : List Nat :=
  if keepDims then onKeptAxes index reduced else index

/-- A cell of the result is the one of a collapsed multi-index with the same kept coordinates. -/
private theorem exists_collapsed {keepDims : Bool} {reduced index dims : List Nat}
    (h : Shape.Within index (reducedShape keepDims dims reduced)) :
    ∃ wide, Shape.Within wide (blanked 1 reduced dims) ∧
      onKeptAxes wide reduced = keptCoordinates keepDims reduced index ∧
      Shape.distance index (Shape.strides (reducedShape keepDims dims reduced)) =
        Shape.distance wide (Shape.strides (blanked 1 reduced dims)) := by
  cases keepDims with
  | true => exact ⟨index, h, rfl, rfl⟩
  | false =>
      obtain ⟨wide, hwide, rfl⟩ := exists_blanked h
      exact ⟨wide, hwide, rfl, (distance_blanked hwide).symm⟩

/-- Sizes that are roomy stay so when axes are reduced. -/
theorem roomy_reducedShape {dims : List Nat} (h : Shape.Roomy dims) (keepDims : Bool)
    (reduced : List Nat) : Shape.Roomy (reducedShape keepDims dims reduced) := by
  have hplaces : dims.zipIdx.map (·.1) = dims := List.zipIdx_map_fst 0 dims
  cases keepDims with
  | true =>
      refine Shape.Roomy.map_le (hplaces.symm ▸ h) fun place => ?_
      dsimp only
      split
      · exact Nat.le_max_right _ _
      · exact Nat.le_max_left _ _
  | false =>
      have hsub : (reducedShape false dims reduced).Sublist (dims.zipIdx.map (·.1)) :=
        List.filter_sublist.map _
      rw [hplaces] at hsub
      exact h.sublist hsub

variable [Scalar α]

/-- The left fold of addition, from zero and in row-major order, over the elements that have given
coordinates on the axes that are kept. -/
def total (t : Tensor α) (reduced kept : List Nat) : α :=
  ((Shape.indices t.shape).filter fun index => onKeptAxes index reduced = kept).foldl
    (fun sum index => Scalar.combine .add sum ((t.element? index).getD Scalar.missing)) Scalar.zero

theorem collected_eq_total {t : Tensor α} {reduced index : List Nat}
    (h : Shape.Within index (blanked 1 reduced t.shape)) :
    t.collected reduced index = t.total reduced (onKeptAxes index reduced) := by
  unfold collected total
  congr 1
  refine List.filter_congr fun inner hinner => decide_eq_decide.2 ?_
  have hlength : inner.length = index.length := by
    rw [(Shape.mem_indices_iff.1 hinner).length_eq, h.length_eq, length_blanked]
  rw [← blanked_eq_iff 0 hlength, blanked_of_within h]

variable {t : Tensor α} {options : ReduceOptions} {reduced : List Nat}

/-- A sum has in each cell the fold over the elements that agree with it on the kept axes. -/
theorem sum_eq_total (hreduced : options.reduced t.shape.length = .ok reduced) :
    ∃ s, t.sum options = .ok s ∧ s.dtype = t.dtype ∧
      s.shape = reducedShape options.keepDims t.shape reduced ∧
      ∀ index, Shape.Within index s.shape →
        s.element? index = some (t.total reduced (keptCoordinates options.keepDims reduced index)) := by
  refine ⟨_, sum_eq_cells hreduced, rfl, rfl, fun index hindex => ?_⟩
  obtain ⟨wide, hwide, hkept, hcell⟩ := exists_collapsed hindex
  rw [element?_packed, hcell, getElem?_cells hwide, collected_eq_total hwide, hkept]

/-- A mean has in each cell the sum divided by the number of elements that went into it. -/
theorem mean_eq_total (hreduced : options.reduced t.shape.length = .ok reduced) :
    ∃ m, t.mean options = .ok m ∧ m.dtype = t.dtype ∧
      m.shape = reducedShape options.keepDims t.shape reduced ∧
      ∀ index, Shape.Within index m.shape →
        m.element? index =
          some (Scalar.combine .div (t.total reduced (keptCoordinates options.keepDims reduced index))
            (Scalar.ofNat (Shape.size (onReducedAxes t.shape reduced)))) := by
  obtain ⟨s, hs, hdtype, hshape, hread⟩ := sum_eq_total hreduced
  have hmean : t.mean options = .ok (s.map fun x =>
      Scalar.combine .div x (Scalar.ofNat (if s.size = 0 then 0 else t.size / s.size))) := by
    simp only [mean, hs, bind, Except.bind]
    rfl
  refine ⟨_, hmean, hdtype, hshape, fun index hindex => ?_⟩
  have hwithin : Shape.Within index s.shape := hindex
  have hpos : 0 < s.size := Nat.zero_lt_of_lt (Shape.distance_lt_size hwithin)
  have hcells : s.size = Shape.size (onKeptAxes t.shape reduced) := by
    rw [size, hshape, size_reducedShape, size_blanked]
  have hshare : t.size / s.size = Shape.size (onReducedAxes t.shape reduced) := by
    rw [size, size_eq_mul reduced t.shape, ← hcells, Nat.mul_div_cancel_left _ hpos]
  rw [element?_map _ hwithin, hread index hwithin, if_neg (Nat.ne_of_gt hpos), hshare]
  rfl

omit [Scalar α] in
theorem keptShape_eq_mapIdx (dims reduced : List Nat) :
    keptShape dims reduced = dims.mapIdx fun axis d => if axis ∈ reduced then 1 else d := by
  rw [List.mapIdx_eq_zipIdx_map, keptShape]
  refine List.map_congr_left fun x hx => ?_
  simp [Extent.one]

/-- A sum along axes that whole numbers name, which may be counted from the end and named more than
once, or along all axes: it is always there, its reduced axes have size one or are dropped, and each
cell is the left fold of addition, from zero and in row-major order, over exactly the elements that
agree with it on the axes that are kept. The mean divides it by the product of the sizes of the reduced
axes. Both are constructed unless the number of their elements, computed in doubles, is none, and so
they are always if the sizes of the tensor are roomy. -/
theorem reduces_to_total (t : Tensor α) {axes : Option (List Int)} (keepDims : Bool)
    (hrank : t.rank < exactRange)
    (haxes : ∀ ks, axes = some ks → ∀ k ∈ ks, NamesPlace t.rank k) :
    ∃ s m, t.sum (.along axes keepDims) = .ok s ∧ t.mean (.along axes keepDims) = .ok m ∧
      s.dtype = t.dtype ∧ m.dtype = t.dtype ∧ m.shape = s.shape ∧
      s.shape = (if keepDims then
          t.shape.mapIdx fun axis d => if axis ∈ placesAlong t.rank axes then 1 else d
        else onKeptAxes t.shape (placesAlong t.rank axes)) ∧
      (s.size < exactRange → (s.constructed = .ok s ↔ Shape.measured s.shape ≠ .nan) ∧
        (m.constructed = .ok m ↔ Shape.measured s.shape ≠ .nan)) ∧
      (Shape.Roomy t.shape → s.constructed = .ok s ∧ m.constructed = .ok m) ∧
      ∀ index, Shape.Within index s.shape →
        s.element? index = some (t.total (placesAlong t.rank axes)
          (keptCoordinates keepDims (placesAlong t.rank axes) index)) ∧
        m.element? index = some (Scalar.combine .div (t.total (placesAlong t.rank axes)
          (keptCoordinates keepDims (placesAlong t.rank axes) index))
          (Scalar.ofNat (onReducedAxes t.shape (placesAlong t.rank axes)).prod)) := by
  have hreduced := reduced_along hrank haxes keepDims
  obtain ⟨s, hs, hdtype, hshape, hsum⟩ := sum_eq_total hreduced
  obtain ⟨m, hm, hdtype', hshape', hmean⟩ := mean_eq_total hreduced
  have hsame : m.shape = s.shape := hshape'.trans hshape.symm
  refine ⟨s, m, hs, hm, hdtype, hdtype', hsame, ?_, fun hsmall => ⟨?_, ?_⟩, fun hroomy => ?_,
    fun index hindex => ?_⟩
  · rw [hshape, reducedShape, keptShape_eq_mapIdx]
    rfl
  · exact (filled_sum hs).constructed_iff hsmall
  · rw [← hsame]
    exact (filled_mean hm).constructed_iff (by rwa [size, hsame])
  · have hroom : Shape.Roomy s.shape := hshape ▸ roomy_reducedShape hroomy keepDims _
    exact ⟨(filled_sum hs).constructed hroom, (filled_mean hm).constructed (hsame ▸ hroom)⟩
  · refine ⟨hsum index hindex, ?_⟩
    rw [← Shape.size_eq_prod]
    exact hmean index (by rwa [hshape', ← hshape])

/-- The last axis is named twice, from either end, and dropped. -/
theorem reduces_to_total_turned :
    turned.rank < exactRange ∧
      (∀ ks, some [-1, 1] = some ks → ∀ k ∈ ks, NamesPlace turned.rank k) ∧
      ∃ s m, turned.sum (.along (some [-1, 1]) false) = .ok s ∧
        turned.mean (.along (some [-1, 1]) false) = .ok m ∧ s.shape = [3] ∧
        s.element? [2] = some (0 + 3 + 6) ∧ m.element? [2] = some ((0 + 3 + 6) / 2) := by
  have hrank : turned.rank < exactRange := by decide
  have haxes : ∀ ks, some [-1, 1] = some ks → ∀ k ∈ ks, NamesPlace turned.rank k := by
    rintro ks ⟨⟩
    decide
  obtain ⟨s, m, hs, hm, -, -, -, hshape, -, -, hread⟩ := reduces_to_total turned false hrank haxes
  have hthree : s.shape = [3] := hshape.trans (by decide)
  obtain ⟨hsum, hmean⟩ := hread [2] (hthree ▸ ⟨by decide, trivial⟩)
  refine ⟨hrank, haxes, s, m, hs, hm, hthree, hsum.trans ?_, hmean.trans ?_⟩
  · decide
  · decide

end Tensor

/-! ## Sizes that are not computed exactly -/

namespace LooseTensor

/-- A tensor without elements, two of whose sizes may multiply to more than a double can hold. -/
def hollow (n : Nat) : LooseTensor Int :=
  .packed .float32 [.int 0, .ofNat n, .ofNat n, .int 0] #[]

/-- Once the axis in front of the two sizes is reduced, they meet before the other empty axis, and the
number of cells is no number. -/
theorem not_reduces_to_total_hollow :
    ofParts .float32 [.int 0, .ofNat (2 ^ 600), .ofNat (2 ^ 600), .int 0] #[] =
        .ok (hollow (2 ^ 600)) ∧
      NamesPlace (hollow (2 ^ 600)).shape.length 0 ∧
      (hollow (2 ^ 600)).sum (.along (some [0]) true) =
        .error (.dataLength 0 [.int 1, .ofNat (2 ^ 600), .ofNat (2 ^ 600), .int 0]) := by
  have hbuilt : (Shape.size [.int 0, .ofNat (2 ^ 600), .ofNat (2 ^ 600), .int 0] : Number).same
      (.ofNat 0) = true := by decide +kernel
  have hfails : ((hollow (2 ^ 600)).sum (.along (some [0]) true)).map (fun s => s.shape) =
      .error (.dataLength 0 [.int 1, .ofNat (2 ^ 600), .ofNat (2 ^ 600), .int 0]) := by
    decide +kernel
  exact ⟨if_pos hbuilt, by decide, Evaluation.eq_error_of_map hfails⟩

end LooseTensor

end TensorGraph
