import TensorGraph.Proofs.Alignment
import TensorGraph.Proofs.Constructing

/-!
# Joining along an axis

Tensors that agree off an axis are joined by copying runs of elements: for each multi-index outside of
the axis a run of each tensor in turn. The element at a multi-index of the result is found by walking
along the axis, from one tensor to the next. Transposing all tensors moves the axis, and the walk is
the same along the axis that it is moved to.

## Main results

* `Tensor.concat_eq_ok` -- tensors that agree off the axis are joined, and to which elements.
* `Tensor.joined?_arrange` -- the walk goes along the moved axis if the tensors are transposed.
* `Tensor.concat_transposeOf` -- joining commutes with a transposition.
-/

namespace TensorGraph

open Permutation

namespace Shape

/-- A multi-index within a shape is split at an axis. -/
theorem within_split {index pre post : List Nat} {d : Nat} (h : Within index (pre ++ d :: post)) :
    ∃ outside i inside, index = outside ++ i :: inside ∧ Within outside pre ∧ i < d ∧
      Within inside post := by
  induction pre generalizing index with
  | nil =>
      cases index with
      | nil => exact h.elim
      | cons i index => exact ⟨[], i, index, rfl, trivial, h.1, h.2⟩
  | cons e pre ih =>
      cases index with
      | nil => exact h.elim
      | cons i index =>
          obtain ⟨outside, k, inside, rfl, houtside, hk, hinside⟩ := ih h.2
          exact ⟨i :: outside, k, inside, rfl, ⟨h.1, houtside⟩, hk, hinside⟩

theorem within_append {outside pre inside post : List Nat} (h : Within outside pre)
    (h' : Within inside post) : Within (outside ++ inside) (pre ++ post) :=
  within_iff.2 (List.rel_append (within_iff.1 h) (within_iff.1 h'))

theorem set_getD_self (xs : List Nat) (i : Nat) : xs.set i (xs.getD i 0) = xs := by
  refine List.ext_getElem (by simp) fun k h₁ h₂ => ?_
  rw [List.getElem_set]
  split
  · rename_i heq
    subst heq
    simp [h₂]
  · rfl

/-- Two shapes become equal once the size along an axis is the same exactly if they agree off it. -/
theorem set_eq_set_iff {axis : Nat} {a b : List Nat} :
    a.set axis 0 = b.set axis 0 ↔ a.length = b.length ∧ ∀ i, i ≠ axis → a[i]? = b[i]? := by
  constructor
  · intro h
    refine ⟨by simpa using congrArg List.length h, fun i hi => ?_⟩
    have hsame := congrArg (fun dims => dims[i]?) h
    rwa [List.getElem?_set_ne (Ne.symm hi), List.getElem?_set_ne (Ne.symm hi)] at hsame
  · rintro ⟨hlength, hoff⟩
    refine List.ext_getElem? fun i => ?_
    by_cases hi : i = axis
    · simp [hi, List.getElem?_set, hlength]
    · rw [List.getElem?_set_ne (Ne.symm hi), List.getElem?_set_ne (Ne.symm hi), hoff i hi]

/-- A coordinate may be changed together with the size of its axis. -/
theorem within_set {index dims : List Nat} {axis m n i : Nat} (h : Within index (dims.set axis m))
    (hi : i < n) : Within (index.set axis i) (dims.set axis n) := by
  induction dims generalizing index axis with
  | nil =>
      cases index with
      | nil => trivial
      | cons => exact h.elim
  | cons d ds ih =>
      cases index with
      | nil => cases axis <;> exact h.elim
      | cons k index =>
          cases axis with
          | zero => exact ⟨hi, h.2⟩
          | succ axis => exact ⟨h.1, ih h.2⟩

/-- The coordinate along an axis is less than the size of the axis. -/
theorem getD_lt {index dims : List Nat} {axis m : Nat} (h : Within index (dims.set axis m))
    (haxis : axis < dims.length) : index.getD axis 0 < m := by
  rw [List.set_eq_take_append_cons_drop, if_pos haxis] at h
  obtain ⟨outside, i, inside, rfl, houtside, hi, -⟩ := within_split h
  have hlength : outside.length = axis := by
    rw [houtside.length_eq, List.length_take]
    omega
  simpa [← hlength] using hi

theorem size_append (as bs : List Nat) : size (as ++ bs) = size as * size bs := by
  rw [size_eq_prod, size_eq_prod, size_eq_prod, List.prod_append]

/-- A linear index in the outer axes counts blocks of the inner ones. -/
theorem distance_append {index dims : List Nat} (h : index.length = dims.length)
    (index' dims' : List Nat) :
    distance (index ++ index') (strides (dims ++ dims')) =
      distance index (strides dims) * size dims' + distance index' (strides dims') := by
  induction dims generalizing index with
  | nil =>
      rw [List.length_nil, List.length_eq_zero_iff] at h
      subst h
      show distance index' (strides dims') = 0 * size dims' + _
      rw [Nat.zero_mul, Nat.zero_add]
  | cons d ds ih =>
      cases index with
      | nil => cases h
      | cons i index =>
          show i * sizeFromInside (ds ++ dims') + distance (index ++ index') (strides (ds ++ dims')) =
            (i * sizeFromInside ds + distance index (strides ds)) * size dims' + _
          rw [ih (Nat.succ.inj h), sizeFromInside_eq, sizeFromInside_eq, size_append, Nat.add_mul,
            Nat.mul_assoc, Nat.add_assoc]

end Shape

/-! ## Rows of equal length -/

/-- A place in one of the first rows lies before the end of them. -/
private theorem place_lt {o count s length : Nat} (ho : o < count) (hs : s < length) :
    o * length + s < count * length := by
  have hle := Nat.mul_le_mul_right length (Nat.succ_le_of_lt ho)
  rw [Nat.succ_mul] at hle
  omega

/-- In rows that are laid one after the other an entry is found by the number of its row and its place
in the row. -/
theorem getElem?_flatMap_rows {ι β : Type} {row : ι → List β} {length : Nat} {xs : List ι}
    (hrow : ∀ x ∈ xs, (row x).length = length) {o s : Nat} {x : ι} (hx : xs[o]? = some x)
    (hs : s < length) : (xs.flatMap row)[o * length + s]? = (row x)[s]? := by
  induction xs generalizing o with
  | nil => cases hx
  | cons first xs ih =>
      obtain ⟨hfirst, hrest⟩ := List.forall_mem_cons.1 hrow
      rw [List.flatMap_cons]
      cases o with
      | zero =>
          obtain rfl := Option.some.inj hx
          rw [Nat.zero_mul, Nat.zero_add, List.getElem?_append_left (by rwa [hfirst])]
      | succ o =>
          have hlater : (o + 1) * length + s - length = o * length + s := by
            rw [Nat.succ_mul]
            omega
          rw [List.getElem?_append_right (by rw [hfirst, Nat.succ_mul]; omega), hfirst, hlater]
          exact ih hrest hx

namespace Tensor

variable {α : Type}

/-! ## Runs of elements -/

section Runs

variable [Scalar α] {t : Tensor α}

/-- The element at a linear index is in the buffer of the contiguous tensor at that distance from its
offset. -/
theorem Sound.contiguous_at (ht : t.Sound) (linear : Nat) (h : linear < t.size) :
    ∃ x, t.at? linear = some x ∧
      (t.contiguous.offset + Int.ofNat linear).toNat?.bind (t.contiguous.data[·]?) = some x := by
  have hindex := Shape.within_coordinates h
  obtain ⟨x, hx⟩ := ht.element _ hindex
  refine ⟨x, hx, ?_⟩
  unfold contiguous
  by_cases hcontiguous : t.isContiguous = true
  · rw [if_pos hcontiguous]
    rw [element?, place, displacement_of_isContiguous hcontiguous hindex,
      distance_coordinates_strides t.shape linear h] at hx
    exact hx
  · rw [if_neg hcontiguous]
    have hread : (packed t.dtype t.shape t.entries).element? _ = _ := element?_packed_entries hindex
    rw [hx, element?_packed, distance_coordinates_strides t.shape linear h] at hread
    show (0 + Int.ofNat linear).toNat?.bind (t.entries[·]?) = some x
    rw [Int.zero_add]
    exact hread

/-- A run of a contiguous tensor has the elements with consecutive linear indices. -/
theorem Sound.run_contiguous (ht : t.Sound) {start length : Nat} (h : start + length ≤ t.size)
    {s : Nat} (hs : s < length) :
    (run t.contiguous.data (t.contiguous.offset + Int.ofNat start) length).toList[s]? =
      t.at? (start + s) := by
  obtain ⟨_, _, hfirst⟩ := ht.contiguous_at start (by omega)
  obtain ⟨address, haddress, -⟩ := Option.bind_eq_some_iff.1 hfirst
  have hplace : t.contiguous.offset + Int.ofNat start = Int.ofNat address :=
    Int.mem_toNat?.1 haddress
  have hread : ∀ s < length, t.at? (start + s) = t.contiguous.data[address + s]? := by
    intro s hs
    obtain ⟨x, hx, hfound⟩ := ht.contiguous_at (start + s) (by omega)
    have hshift : t.contiguous.offset + Int.ofNat (start + s) = Int.ofNat (address + s) := by
      have hsplit : Int.ofNat (start + s) = Int.ofNat start + Int.ofNat s := rfl
      rw [hsplit, ← Int.add_assoc, hplace]
      rfl
    rw [hshift] at hfound
    exact hx.trans hfound.symm
  have hfits : address + length ≤ t.contiguous.data.size := by
    obtain ⟨x, hx, -⟩ := ht.contiguous_at (start + (length - 1)) (by omega)
    rw [hread _ (by omega)] at hx
    have hlt := (Array.getElem?_eq_some_iff.1 hx).1
    omega
  rw [hplace, run_ofNat hfits, hread s hs, Array.getElem?_toList, Array.getElem?_extract]
  exact if_pos (by omega)

end Runs

/-! ## The walk along the axis -/

/-- The size of a tensor along an axis. -/
def extent (dim : Nat) (t : Tensor α) : Nat := t.shape.getD dim 0

/-- The element at a multi-index of tensors laid one after the other along an axis. -/
def joined? (dim : Nat) : List (Tensor α) → List Nat → Option α
  | [], _ => none
  | t :: rest, index =>
      if index.getD dim 0 < t.extent dim then t.element? index
      else joined? dim rest (index.set dim (index.getD dim 0 - t.extent dim))

/-- Whether tensors have the sizes of a shape off an axis. -/
def AgreeOff (dim : Nat) (shape : List Nat) (tensors : List (Tensor α)) : Prop :=
  ∀ t ∈ tensors, t.shape.set dim 0 = shape.set dim 0

theorem shape_eq_set {dim : Nat} {shape : List Nat} {t : Tensor α}
    (h : t.shape.set dim 0 = shape.set dim 0) : t.shape = shape.set dim (t.extent dim) := by
  have hself : t.shape.set dim (t.extent dim) = t.shape := Shape.set_getD_self t.shape dim
  calc t.shape = (t.shape.set dim 0).set dim (t.extent dim) := by rw [List.set_set, hself]
    _ = (shape.set dim 0).set dim (t.extent dim) := by rw [h]
    _ = shape.set dim (t.extent dim) := List.set_set ..

/-- Two shapes agree off an axis exactly if they are equal once the size along it is the same. -/
theorem agreeOff_iff {dim : Nat} {a b : List Nat} :
    agreeOff dim a b = true ↔ a.set dim 0 = b.set dim 0 := by
  rw [Shape.set_eq_set_iff, agreeOff, Bool.and_eq_true, beq_iff_eq, List.all_eq_true]
  refine and_congr_right fun hlength => ⟨fun h i hi => ?_, ?_⟩
  · by_cases hlt : i < a.length
    · have hlt' : i < b.length := hlength ▸ hlt
      have hboth : (a.zip b)[i]? = some (a[i], b[i]) :=
        List.getElem?_zip_eq_some.2 ⟨List.getElem?_eq_getElem hlt, List.getElem?_eq_getElem hlt'⟩
      have hsame := h ((a[i], b[i]), i) (List.mk_mem_zipIdx_iff_getElem?.2 hboth)
      simp only [hi, beq_iff_eq, Bool.or_eq_true, false_or] at hsame
      rw [List.getElem?_eq_getElem hlt, List.getElem?_eq_getElem hlt', hsame]
    · rw [List.getElem?_eq_none (Nat.not_lt.1 hlt),
        List.getElem?_eq_none (hlength ▸ Nat.not_lt.1 hlt)]
  · rintro h ⟨⟨x, y⟩, i⟩ hmem
    rw [List.mk_mem_zipIdx_iff_getElem?, List.getElem?_zip_eq_some] at hmem
    by_cases hi : i = dim
    · simp [hi]
    · have hxy : some x = some y := by rw [← hmem.1, ← hmem.2, h i hi]
      simp [Option.some.inj hxy]

theorem toList_foldl_append (rows : List (Array α)) (buffer : Array α) :
    (rows.foldl (· ++ ·) buffer).toList = buffer.toList ++ rows.flatMap Array.toList := by
  induction rows generalizing buffer with
  | nil => simp
  | cons row rows ih => simp [ih]

private theorem foldl_extent (dim : Nat) (tensors : List (Tensor α)) (total : Nat) :
    tensors.foldl (fun total t => total + t.shape.getD dim 0) total =
      total + (tensors.map (extent dim)).sum := by
  induction tensors generalizing total with
  | nil => rfl
  | cons t tensors ih =>
      rw [List.foldl_cons, ih, List.map_cons, List.sum_cons, Nat.add_assoc]
      rfl

section Joined

variable {pre post : List Nat}

private theorem chunk_fits {t : Tensor α} {d o : Nat} (hshape : t.shape = pre ++ d :: post)
    (ho : o < Shape.size pre) :
    o * (d * Shape.size post) + d * Shape.size post ≤ t.size := by
  rw [size, hshape, Shape.size_append, Shape.size_cons, ← Nat.succ_mul]
  exact Nat.mul_le_mul_right _ ho

variable [Scalar α]

/-- A row of the joined tensors: a run of each of them. -/
private def joinedRow (dim inner : Nat) (tensors : List (Tensor α)) (o : Nat) : List α :=
  tensors.flatMap fun t =>
    (run t.contiguous.data (t.contiguous.offset + Int.ofNat (o * (t.extent dim * inner)))
      (t.extent dim * inner)).toList

private theorem length_joinedRow (dim inner : Nat) (tensors : List (Tensor α)) (o : Nat) :
    (joinedRow dim inner tensors o).length = (tensors.map (extent dim)).sum * inner := by
  induction tensors with
  | nil => simp [joinedRow]
  | cons t tensors ih =>
      unfold joinedRow at ih ⊢
      rw [List.flatMap_cons, List.length_append, ih, Array.length_toList, size_run, List.map_cons,
        List.sum_cons, Nat.add_mul]

private theorem getElem?_joinedRow {dim j : Nat} {outside inside : List Nat}
    {tensors : List (Tensor α)} (hdim : outside.length = dim) (houtside : Shape.Within outside pre)
    (hinside : Shape.Within inside post) (hsound : ∀ t ∈ tensors, t.Sound)
    (hshapes : ∀ t ∈ tensors, t.shape = pre ++ t.extent dim :: post)
    (hj : j < (tensors.map (extent dim)).sum) :
    (joinedRow dim (Shape.size post) tensors (Shape.distance outside (Shape.strides pre)))[
        j * Shape.size post + Shape.distance inside (Shape.strides post)]? =
      joined? dim tensors (outside ++ j :: inside) := by
  induction tensors generalizing j with
  | nil => cases hj
  | cons t tensors ih =>
      obtain ⟨ht, hrest⟩ := List.forall_mem_cons.1 hsound
      obtain ⟨hshape, hshapes⟩ := List.forall_mem_cons.1 hshapes
      have ho := Shape.distance_lt_size houtside
      have hq := Shape.distance_lt_size hinside
      have hfits := chunk_fits hshape ho
      have hcoordinate : (outside ++ j :: inside).getD dim 0 = j := by simp [← hdim]
      rw [List.map_cons, List.sum_cons] at hj
      rw [joined?, hcoordinate, joinedRow, List.flatMap_cons]
      by_cases hfirst : j < t.extent dim
      · have hbefore := place_lt hfirst hq
        have hwithin : Shape.Within (outside ++ j :: inside) t.shape := by
          rw [hshape]
          exact Shape.within_append houtside ⟨hfirst, hinside⟩
        rw [List.getElem?_append_left (by rwa [length_run]), ht.run_contiguous hfits hbefore,
          if_pos hfirst,
          ← at?_distance hwithin, hshape, Shape.distance_append houtside.length_eq, Shape.size_cons,
          Shape.strides_cons, Shape.sizeFromInside_eq]
        rfl
      · have hlater : j - t.extent dim < (tensors.map (extent dim)).sum := by omega
        have hle := Nat.mul_le_mul_right (Shape.size post) (Nat.not_lt.1 hfirst)
        have hsplit : j * Shape.size post + Shape.distance inside (Shape.strides post) -
            t.extent dim * Shape.size post =
              (j - t.extent dim) * Shape.size post + Shape.distance inside (Shape.strides post) := by
          rw [Nat.sub_mul]
          omega
        have hset : (outside ++ j :: inside).set dim (j - t.extent dim) =
            outside ++ (j - t.extent dim) :: inside := by
          simp [← hdim]
        rw [List.getElem?_append_right (by rw [length_run]; omega), length_run, hsplit, if_neg hfirst, hset]
        exact ih hrest hshapes hlater

/-- Joining lays rows of runs one after the other. -/
private theorem concat_eq_rows {t : Tensor α} {rest : List (Tensor α)} {axis : Number} {dim : Nat}
    (haxis : axisIndex? axis t.shape.length = some dim)
    (hagree : AgreeOff dim t.shape (t :: rest)) :
    ∃ data : Array α, concat (t :: rest) axis =
        .ok (packed t.dtype (t.shape.set dim ((t :: rest).map (extent dim)).sum) data) ∧
      data.toList = (List.range (Shape.size (t.shape.take dim))).flatMap
        (joinedRow dim (Shape.size (t.shape.drop (dim + 1))) (t :: rest)) := by
  have hfits : (t :: rest).find? (fun u => !agreeOff dim u.shape t.shape) = none := by
    rw [List.find?_eq_none]
    intro u hu
    simp [agreeOff_iff.2 (hagree u hu)]
  have haxis' : axisIndex? axis t.rank = some dim := haxis
  have halong := foldl_extent dim (t :: rest) 0
  rw [Nat.zero_add] at halong
  refine ⟨_, by simp only [concat, haxis', hfits, halong]; rfl, ?_⟩
  rw [toList_foldl_append, List.toList_toArray, List.nil_append, List.flatMap_assoc]
  refine List.flatMap_congr fun o _ => ?_
  rw [List.flatMap_map, List.flatMap_map]
  simp only [shape_contiguous]
  rfl

/-- Tensors that are joined agree off an axis that the number names. -/
theorem agreeOff_of_concat {t c : Tensor α} {rest : List (Tensor α)} {axis : Number}
    (h : concat (t :: rest) axis = .ok c) :
    ∃ dim, axisIndex? axis t.shape.length = some dim ∧ AgreeOff dim t.shape (t :: rest) := by
  simp only [concat] at h
  split at h
  · cases h
  · rename_i dim haxis
    split at h
    · cases h
    · rename_i hfind
      refine ⟨dim, haxis, fun u hu => agreeOff_iff.1 ?_⟩
      simpa using List.find?_eq_none.1 hfind u hu

/-- What is joined has as many elements as its sizes say, wherever those of the operands lie. -/
theorem filled_concat {t c : Tensor α} {rest : List (Tensor α)} {axis : Number}
    (h : concat (t :: rest) axis = .ok c) : c.Filled := by
  obtain ⟨dim, haxis, hagree⟩ := agreeOff_of_concat h
  obtain ⟨data, hconcat, hdata⟩ := concat_eq_rows haxis hagree
  obtain rfl := Except.ok.inj (hconcat.symm.trans h)
  have hlength : data.toList.length = Shape.size (t.shape.take dim) *
      (((t :: rest).map (extent dim)).sum * Shape.size (t.shape.drop (dim + 1))) := by
    rw [hdata, List.length_flatMap]
    simp only [length_joinedRow, List.map_const', List.sum_replicate_nat, List.length_range]
  show data.size = Shape.size (t.shape.set dim _)
  rw [List.set_eq_take_append_cons_drop, if_pos (axisIndex?_lt haxis), Shape.size_append, Shape.size_cons, ← hlength,
    Array.length_toList]

/-- Tensors that agree off an axis are joined, wherever their elements lie. -/
theorem exists_concat {t : Tensor α} {rest : List (Tensor α)} {axis : Number} {dim : Nat}
    (haxis : axisIndex? axis t.shape.length = some dim)
    (hagree : AgreeOff dim t.shape (t :: rest)) :
    ∃ data : Array α, concat (t :: rest) axis =
      .ok (packed t.dtype (t.shape.set dim ((t :: rest).map (extent dim)).sum) data) := by
  obtain ⟨data, hconcat, -⟩ := concat_eq_rows haxis hagree
  exact ⟨data, hconcat⟩

/-- Tensors that agree off an axis are joined along it. -/
theorem concat_eq_ok {t : Tensor α} {rest : List (Tensor α)} {axis : Number} {dim : Nat}
    (haxis : axisIndex? axis t.shape.length = some dim) (hdim : dim < t.shape.length)
    (hagree : AgreeOff dim t.shape (t :: rest)) (hsound : ∀ u ∈ t :: rest, u.Sound) :
    ∃ c, concat (t :: rest) axis = .ok c ∧ c.dtype = t.dtype ∧
      c.shape = t.shape.set dim ((t :: rest).map (extent dim)).sum ∧
      ∀ index, Shape.Within index c.shape → c.element? index = joined? dim (t :: rest) index := by
  obtain ⟨data, hconcat, hdata⟩ := concat_eq_rows haxis hagree
  have hset : ∀ d, t.shape.set dim d = t.shape.take dim ++ d :: t.shape.drop (dim + 1) := fun d => by
    rw [List.set_eq_take_append_cons_drop, if_pos hdim]
  have hshapes : ∀ u ∈ t :: rest, u.shape =
      t.shape.take dim ++ u.extent dim :: t.shape.drop (dim + 1) := fun u hu => by
    rw [← hset]
    exact shape_eq_set (hagree u hu)
  have hlength : (t.shape.take dim).length = dim := by
    rw [List.length_take]
    omega
  refine ⟨_, hconcat, rfl, rfl, fun index hindex => ?_⟩
  have hsplit : Shape.Within index (t.shape.take dim ++ ((t :: rest).map (extent dim)).sum ::
      t.shape.drop (dim + 1)) := by
    rw [← hset]
    exact hindex
  obtain ⟨outside, j, inside, rfl, houtside, hj, hinside⟩ := Shape.within_split hsplit
  have hfound := getElem?_flatMap_rows (fun o _ => length_joinedRow _ _ (t :: rest) o)
    (List.getElem?_range (Shape.distance_lt_size houtside))
    (place_lt hj (Shape.distance_lt_size hinside))
  rw [element?_packed, hset, Shape.distance_append houtside.length_eq, Shape.strides_cons,
    Shape.sizeFromInside_eq, Shape.size_cons, Shape.distance, ← Array.getElem?_toList, hdata, hfound]
  exact getElem?_joinedRow (houtside.length_eq.trans hlength) houtside hinside hsound hshapes hj

end Joined

/-! ## Transposed tensors -/

section Transposed

variable {p : List Nat} {as bs : List (Tensor α)}

theorem TransposeOf.extent_eq {a b : Tensor α} (h : a.TransposeOf p b) {i : Nat} (hi : i < p.length) :
    a.extent i = b.extent p[i] := by
  rw [extent, h.shape, getD_arrange _ hi]
  rfl

theorem sum_extent_eq (hall : List.Forall₂ (TransposeOf p) as bs) {i : Nat} (hi : i < p.length) :
    (as.map (extent i)).sum = (bs.map (extent p[i])).sum := by
  induction hall with
  | nil => rfl
  | cons h _ ih => rw [List.map_cons, List.map_cons, List.sum_cons, List.sum_cons, h.extent_eq hi, ih]

/-- Transposed tensors agree off an axis if the tensors agree off the axis before the
transposition. -/
theorem agreeOff_of_arrange (hp : IsPermutation p) {i : Nat} (hi : i < p.length)
    (hall : List.Forall₂ (TransposeOf p) as bs) {shape : List Nat} (hrank : p.length = shape.length)
    (h : AgreeOff i (arrange shape p) as) : AgreeOff p[i] shape bs := by
  induction hall with
  | nil => exact List.forall_mem_nil _
  | @cons a b as bs hfirst _ ih =>
      obtain ⟨hset, hrest⟩ := List.forall_mem_cons.1 h
      refine List.forall_mem_cons.2 ⟨?_, ih hrest⟩
      rw [hfirst.shape, arrange_set hp hfirst.rank hi, arrange_set hp hrank hi] at hset
      exact (arrange_inj hp (by simp [hfirst.rank]) (by simp [hrank])).1 hset

/-- The walk along an axis of transposed tensors is the walk along the axis before the
transposition. -/
theorem joined?_arrange (hp : IsPermutation p) {i : Nat} (hi : i < p.length)
    (hall : List.Forall₂ (TransposeOf p) as bs) {shape index : List Nat} {m : Nat}
    (hagree : AgreeOff p[i] shape bs) (hrank : p.length = shape.length)
    (hindex : Shape.Within index (shape.set p[i] m)) :
    joined? i as (arrange index p) = joined? p[i] bs index := by
  induction hall generalizing index m with
  | nil => rfl
  | @cons a b as bs h _ ih =>
      obtain ⟨hfirst, hrest⟩ := List.forall_mem_cons.1 hagree
      have hlength : p.length = index.length := by
        rw [hindex.length_eq, List.length_set, hrank]
      have hcoordinate : (arrange index p).getD i 0 = index.getD p[i] 0 := getD_arrange index hi 0
      rw [joined?, joined?, hcoordinate, h.extent_eq hi]
      by_cases hlt : index.getD p[i] 0 < b.extent p[i]
      · rw [if_pos hlt, if_pos hlt]
        apply h.element
        rw [shape_eq_set hfirst]
        have hset := Shape.within_set hindex hlt
        rwa [Shape.set_getD_self] at hset
      · rw [if_neg hlt, if_neg hlt, arrange_set hp hlength hi]
        exact ih hrest (Shape.within_set hindex (Nat.lt_succ_self _))

variable [Scalar α]

/-- Joining transposed tensors along an axis is joining the tensors along the axis before the
transposition, and transposing the result. -/
theorem concat_transposeOf (hp : IsPermutation p) {a b : Tensor α} {axis axis' : Number} {i : Nat}
    (hi : i < p.length) (hall : List.Forall₂ (TransposeOf p) (a :: as) (b :: bs))
    (haxis : axisIndex? axis p.length = some i) (haxis' : axisIndex? axis' p.length = some p[i])
    (hagree : AgreeOff i a.shape (a :: as)) (hsound : ∀ t ∈ a :: as, t.Sound)
    (hsound' : ∀ t ∈ b :: bs, t.Sound) :
    ∃ c d, concat (a :: as) axis = .ok c ∧ concat (b :: bs) axis' = .ok d ∧ c.TransposeOf p d := by
  obtain ⟨hfirst, -⟩ := List.forall₂_cons.1 hall
  have hrank : a.shape.length = p.length := by rw [hfirst.shape, length_arrange]
  have hlt : p[i] < b.shape.length := hfirst.rank ▸ hp.2 p[i] (List.getElem_mem hi)
  have hagree' : AgreeOff p[i] b.shape (b :: bs) :=
    agreeOff_of_arrange hp hi hall hfirst.rank (hfirst.shape ▸ hagree)
  obtain ⟨c, hc, hdtype, hshape, hread⟩ :=
    concat_eq_ok (hrank ▸ haxis) (hrank ▸ hi) hagree hsound
  obtain ⟨d, hd, hdtype', hshape', hread'⟩ :=
    concat_eq_ok (hfirst.rank ▸ haxis') hlt hagree' hsound'
  refine ⟨c, d, hc, hd, transposeOf_of_elements hp ?_ ?_ ?_ hread hread'
    fun index hindex => ?_⟩
  · rw [hshape', List.length_set, hfirst.rank]
  · rw [hdtype, hdtype', hfirst.dtype]
  · rw [hshape, hshape', hfirst.shape, arrange_set hp hfirst.rank hi, sum_extent_eq hall hi]
  · rw [hshape'] at hindex
    exact joined?_arrange hp hi hall hagree' hfirst.rank hindex

end Transposed

end Tensor

end TensorGraph
