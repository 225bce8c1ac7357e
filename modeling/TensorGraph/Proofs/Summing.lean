import Mathlib.Data.List.Perm.Basic
import TensorGraph.Proofs.Collapsing
import TensorGraph.Proofs.LiteralTensors

/-!
# Reducing along axes

A sum visits the elements in row-major order and adds each to the cell that agrees with it on the axes
that are kept. So a cell of the result is the sum of the elements whose multi-index collapses to that
of the cell, in row-major order. A transposition changes the order of the elements and moves the axes;
where addition is associative and commutative nothing else changes.

## Main results

* `Tensor.sum_eq_ok` -- the sums that the cells of the result are.
* `Tensor.blanked_arrange` -- collapsing the moved axes of what is rearranged.
* `Tensor.TransposeOf.sum`, `Tensor.TransposeOf.mean` -- reducing commutes with a transposition.
-/

namespace TensorGraph

open Permutation

/-- Different multi-indices within a shape have different linear indices. -/
theorem Shape.distance_inj {a b dims : List Nat} (ha : Within a dims) (hb : Within b dims) :
    distance a (strides dims) = distance b (strides dims) ↔ a = b := by
  refine ⟨fun h => ?_, fun h => h ▸ rfl⟩
  rw [← coordinates_distance ha, h, coordinates_distance hb]

namespace Tensor

variable {α : Type} {p : List Nat}

/-! ## Moved axes -/

/-- Whether the axes of a transposed tensor are those that axes are moved from. -/
def MovedAxes (p reduced reduced' : List Nat) : Prop :=
  ∀ i (hi : i < p.length), i ∈ reduced ↔ p[i] ∈ reduced'

theorem blanked_arrange {reduced reduced' xs : List Nat} (hp : IsPermutation p)
    (hlength : p.length = xs.length) (haxes : MovedAxes p reduced reduced') (blank : Nat) :
    blanked blank reduced (arrange xs p) = arrange (blanked blank reduced' xs) p := by
  refine List.ext_getElem (by simp) fun i h₁ h₂ => ?_
  have hi : i < p.length := by simpa using h₂
  have hlt : p[i] < xs.length := hlength ▸ hp.2 p[i] (List.getElem_mem hi)
  have hlt' : p[i] < (blanked blank reduced' xs).length := by simpa using hlt
  have hi' : i < (arrange xs p).length := by simpa using hi
  rw [getElem_blanked hi']
  simp [arrange, haxes i hi, hlt, getElem_blanked hlt hlt']

/-! ## Cells -/

/-- A fold that adds to one cell of a buffer at a time leaves in a cell the sum of what was added to
it. -/
theorem getElem?_foldl_modify {ι : Type} (add : α → α → α) (target : ι → Nat) (value : ι → α)
    (xs : List ι) (cells : Array α) (j : Nat) :
    (xs.foldl (fun cells x => cells.modify (target x) fun total => add total (value x)) cells)[j]? =
      cells[j]?.map fun total =>
        (xs.filter fun x => target x = j).foldl (fun total x => add total (value x)) total := by
  induction xs generalizing cells with
  | nil => simp
  | cons x xs ih =>
      rw [List.foldl_cons, ih, Array.getElem?_modify]
      by_cases hx : target x = j
      · rw [if_pos hx, List.filter_cons_of_pos (by simpa using hx), Option.map_map]
        rfl
      · rw [if_neg hx, List.filter_cons_of_neg (by simpa using hx)]

section Sums

variable [Scalar α]

/-- The sum of the elements of a tensor whose multi-index collapses to a given one. -/
def collected (t : Tensor α) (reduced index : List Nat) : α :=
  ((Shape.indices t.shape).filter fun inner => blanked 0 reduced inner = index).foldl
    (fun total inner => Scalar.combine .add total ((t.element? inner).getD Scalar.missing))
    Scalar.zero

/-- The cells of a sum, to which the elements are added one by one. -/
def cells (t : Tensor α) (reduced : List Nat) : Array α :=
  (Shape.indices t.shape).foldl
    (fun cells inner =>
      cells.modify (Shape.distance (blanked 0 reduced inner)
        (Shape.strides (blanked 1 reduced t.shape))) fun total =>
          Scalar.combine .add total ((t.element? inner).getD Scalar.missing))
    (Array.replicate (Shape.size (blanked 1 reduced t.shape)) Scalar.zero)

theorem sum_eq_cells {t : Tensor α} {options : ReduceOptions} {reduced : List Nat}
    (hreduced : options.reduced t.shape.length = .ok reduced) :
    t.sum options = .ok (packed t.dtype (reducedShape options.keepDims t.shape reduced)
      (t.cells reduced)) := by
  have hreduced' : options.reduced t.rank = .ok reduced := hreduced
  rw [cells, Shape.indices_eq_map_coordinates, List.foldl_map,
    ← size_reducedShape options.keepDims t.shape reduced]
  simp only [sum, hreduced', bind, Except.bind]
  rfl

theorem getElem?_cells {t : Tensor α} {reduced index : List Nat}
    (hindex : Shape.Within index (blanked 1 reduced t.shape)) :
    (t.cells reduced)[Shape.distance index (Shape.strides (blanked 1 reduced t.shape))]? =
      some (t.collected reduced index) := by
  have hlt := Shape.distance_lt_size hindex
  rw [cells, getElem?_foldl_modify, Array.getElem?_replicate, if_pos hlt, Option.map_some, collected]
  congr 2
  refine List.filter_congr fun inner hinner => ?_
  have hwithin : Shape.Within (blanked 0 reduced inner) (blanked 1 reduced t.shape) :=
    within_blanked (Shape.mem_indices_iff.1 hinner)
  exact decide_eq_decide.2 (Shape.distance_inj hwithin hindex)

/-- A sum that keeps the axes has in each cell the sum of the elements that collapse to it. -/
theorem sum_eq_ok {t : Tensor α} {options : ReduceOptions} {reduced : List Nat}
    (hkeep : options.keepDims = true) (hreduced : options.reduced t.shape.length = .ok reduced) :
    ∃ s, t.sum options = .ok s ∧ s.dtype = t.dtype ∧ s.shape = blanked 1 reduced t.shape ∧
      ∀ index, Shape.Within index s.shape → s.element? index = some (t.collected reduced index) := by
  rw [sum_eq_cells hreduced, hkeep]
  refine ⟨_, rfl, rfl, rfl, fun index hindex => ?_⟩
  rw [element?_packed]
  exact getElem?_cells hindex

theorem element?_map {t : Tensor α} {index : List Nat} (f : α → α)
    (h : Shape.Within index t.shape) :
    (t.map f).element? index = some (f ((t.element? index).getD Scalar.missing)) := by
  have hentries : t.entries.map f = (Array.range t.size).map fun linear => f (t.entry linear) := by
    rw [entries, Array.map_map]
    rfl
  rw [← entry_distance h, Tensor.map, hentries]
  exact element?_packed_range h _

/-! ## Transposed tensors -/

section Transposed

variable {a b : Tensor α}

theorem TransposeOf.map (h : a.TransposeOf p b) (hp : IsPermutation p) (f : α → α) :
    (a.map f).TransposeOf p (b.map f) := by
  refine transposeOf_of_elements hp h.rank h.dtype h.shape (fun _ => element?_map (t := a) f)
    (fun _ => element?_map (t := b) f) fun index hindex => ?_
  rw [h.element index hindex]

variable (hassoc : ∀ x y z : α, Scalar.combine .add (Scalar.combine .add x y) z =
    Scalar.combine .add x (Scalar.combine .add y z))
  (hcomm : ∀ x y : α, Scalar.combine .add x y = Scalar.combine .add y x)

include hassoc hcomm in
/-- What is collected from a transposed tensor is what is collected before the transposition, in
another order. -/
theorem TransposeOf.collected_eq (h : a.TransposeOf p b) (hp : IsPermutation p)
    {reduced reduced' index : List Nat} (haxes : MovedAxes p reduced reduced')
    (hindex : Shape.Within index (blanked 1 reduced' b.shape)) :
    a.collected reduced (arrange index p) = b.collected reduced' index := by
  have hadd (total : α) (x y : α) : Scalar.combine .add (Scalar.combine .add total x) y =
      Scalar.combine .add (Scalar.combine .add total y) x := by
    rw [hassoc, hcomm x y, ← hassoc]
  have hperm := ((Shape.indices_arrange hp h.rank).filter fun inner =>
    decide (blanked 0 reduced inner = arrange index p))
  rw [← h.shape, List.filter_map] at hperm
  have hlengths : ∀ inner ∈ Shape.indices b.shape, p.length = inner.length := fun inner hinner => by
    rw [(Shape.mem_indices_iff.1 hinner).length_eq, h.rank]
  -- the elements that collapse to the moved multi-index are those that collapse to the multi-index
  have hsame : (Shape.indices b.shape).filter ((fun inner =>
      decide (blanked 0 reduced inner = arrange index p)) ∘ (arrange · p)) =
        (Shape.indices b.shape).filter fun inner => blanked 0 reduced' inner = index := by
    refine List.filter_congr fun inner hinner => ?_
    have hinner' := hlengths inner hinner
    have hlength : p.length = index.length := by
      rw [hindex.length_eq, length_blanked, h.rank]
    refine decide_eq_decide.2 ?_
    rw [blanked_arrange hp hinner' haxes, arrange_inj hp (by simpa using hinner') hlength]
  rw [hsame] at hperm
  have : RightCommutative fun (total : α) inner =>
      Scalar.combine .add total ((a.element? inner).getD Scalar.missing) :=
    ⟨fun total x y => hadd total _ _⟩
  rw [collected, hperm.foldl_eq, List.foldl_map, collected]
  refine List.foldl_ext _ _ _ fun total inner hinner => ?_
  have hwithin := Shape.mem_indices_iff.1 (List.mem_of_mem_filter hinner)
  rw [h.element inner hwithin]

omit [Scalar α] in
theorem TransposeOf.size_eq (h : a.TransposeOf p b) (hp : IsPermutation p) : a.size = b.size := by
  rw [size, size, h.shape, Shape.size_arrange hp h.rank]

variable {options options' : ReduceOptions} {reduced reduced' : List Nat}

include hassoc hcomm in
/-- Summing a transposed tensor along axes is summing the tensor along the axes before the
transposition, and transposing the result. -/
theorem TransposeOf.sum (h : a.TransposeOf p b) (hp : IsPermutation p)
    (hkeep : options.keepDims = true) (hkeep' : options'.keepDims = true)
    (hreduced : options.reduced p.length = .ok reduced)
    (hreduced' : options'.reduced p.length = .ok reduced') (haxes : MovedAxes p reduced reduced') :
    ∃ s s', a.sum options = .ok s ∧ b.sum options' = .ok s' ∧ s.TransposeOf p s' := by
  have hrank : a.shape.length = p.length := by rw [h.shape, length_arrange]
  obtain ⟨s, hs, hdtype, hshape, hread⟩ := sum_eq_ok hkeep (hrank ▸ hreduced)
  obtain ⟨s', hs', hdtype', hshape', hread'⟩ := sum_eq_ok hkeep' (h.rank ▸ hreduced')
  have hlength : p.length = s'.shape.length := by rw [hshape', length_blanked, h.rank]
  have hmoved : s.shape = arrange s'.shape p := by
    rw [hshape, hshape', h.shape, blanked_arrange hp h.rank haxes]
  refine ⟨s, s', hs, hs', transposeOf_of_elements hp hlength ?_ hmoved hread hread'
    fun index hindex => ?_⟩
  · rw [hdtype, hdtype', h.dtype]
  · rw [h.collected_eq hassoc hcomm hp haxes (hshape' ▸ hindex)]

include hassoc hcomm in
/-- The same for means: as many elements go into each cell. -/
theorem TransposeOf.mean (h : a.TransposeOf p b) (hp : IsPermutation p)
    (hkeep : options.keepDims = true) (hkeep' : options'.keepDims = true)
    (hreduced : options.reduced p.length = .ok reduced)
    (hreduced' : options'.reduced p.length = .ok reduced') (haxes : MovedAxes p reduced reduced') :
    ∃ s s', a.mean options = .ok s ∧ b.mean options' = .ok s' ∧ s.TransposeOf p s' := by
  obtain ⟨s, s', hs, hs', hsum⟩ := h.sum hassoc hcomm hp hkeep hkeep' hreduced hreduced' haxes
  have hsize := h.size_eq hp
  have hcells := hsum.size_eq hp
  refine ⟨_, _, by simp only [Tensor.mean, hs, bind, Except.bind]; rfl,
    by simp only [Tensor.mean, hs', bind, Except.bind]; rfl, ?_⟩
  rw [hsize, hcells]
  exact hsum.map hp _

end Transposed

end Sums

end Tensor

end TensorGraph
