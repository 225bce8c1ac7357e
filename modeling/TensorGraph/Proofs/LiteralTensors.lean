import TensorGraph.Proofs.Views
import TensorGraph.Execution.Operand

/-!
# Literals as tensors

A literal is transposed entry by entry while a graph is optimized, and a tensor is transposed by
changing the view while it is run, with a copy made afterwards unless the elements still lie in
order. Both lead to the same elements. The one difference is in what can be counted: the number of
entries of the transposed literal is computed in doubles, size after size, and no number comes out
where an infinite product meets a size of zero.

## Main results

* `Shape.measured_eq` -- a count of sizes that do not multiply to too much is exact, or no number.
* `Tensor.data_contiguous` -- a tensor on a buffer of its own size has its elements in order once it is
  contiguous.
* `Literal.transpose_contiguous` -- the two transpositions agree wherever the entries can be counted.
* `Literal.not_transpose_contiguous` -- there are sizes whose entries cannot be counted.
-/

namespace TensorGraph

open Permutation

namespace Shape

/-! ## What is counted -/

private theorem foldl_measureStep_nan (dims : List Nat) : dims.foldl measureStep .nan = .nan := by
  induction dims with
  | nil => rfl
  | cons d ds ih =>
      have hstep : measureStep .nan d = .nan := by
        show (if d = 0 then Number.nan else Number.nan) = Number.nan
        by_cases hd : d = 0 <;> simp [hd]
      rw [List.foldl_cons, hstep, ih]

private theorem foldl_measureStep_infinity {dims : List Nat} (hzero : 0 ∈ dims) :
    dims.foldl measureStep .infinity = .nan := by
  induction dims with
  | nil => cases hzero
  | cons d ds ih =>
      rw [List.foldl_cons]
      by_cases hd : d = 0
      · subst hd
        exact foldl_measureStep_nan ds
      · have hstep : measureStep .infinity d = .infinity := if_neg hd
        rw [hstep, ih ((List.mem_cons.1 hzero).resolve_left (Ne.symm hd))]

/-- Counting ends at zero, or at no number, where a size is zero. -/
private theorem foldl_measureStep_of_zero {dims : List Nat} (hzero : 0 ∈ dims) (count : Nat) :
    dims.foldl measureStep (.int count) = .int 0 ∨ dims.foldl measureStep (.int count) = .nan := by
  induction dims generalizing count with
  | nil => cases hzero
  | cons d ds ih =>
      rw [List.foldl_cons, measureStep_int, ← ofRounded_roundToDouble]
      by_cases hd : d = 0
      · subst hd
        rw [Nat.mul_zero, roundToDouble_of_lt (by decide)]
        show ds.foldl measureStep (.int (0 : Nat)) = _ ∨ ds.foldl measureStep (.int (0 : Nat)) = _
        by_cases hagain : 0 ∈ ds
        · exact ih hagain 0
        · left
          clear ih hzero
          induction ds with
          | nil => rfl
          | cons d ds ih =>
              rw [List.foldl_cons, measureStep_int, Nat.zero_mul, Number.ofInt_of_small (by decide)]
              exact ih fun h => hagain (List.mem_cons_of_mem d h)
      · have hlater : 0 ∈ ds := (List.mem_cons.1 hzero).resolve_left (Ne.symm hd)
        cases hround : roundToDouble (count * d) with
        | none => exact .inr (foldl_measureStep_infinity hlater)
        | some m => exact ih hlater m

private theorem zero_mem_of_size_eq_zero {dims : List Nat} (h : size dims = 0) : 0 ∈ dims := by
  induction dims with
  | nil => cases h
  | cons d ds ih =>
      rw [size_cons] at h
      rcases Nat.mul_eq_zero.1 h with hd | hds
      · rw [hd]
        exact List.mem_cons_self
      · exact List.mem_cons_of_mem d (ih hds)

/-- A count in doubles is the number of entries, or it is no number at all, as long as that number
is in the exact range. -/
theorem measured_eq {dims : List Nat} (hsmall : size dims < exactRange) :
    measured dims = .int (size dims : Nat) ∨ measured dims = .nan := by
  by_cases hpos : size dims = 0
  · rw [hpos]
    exact foldl_measureStep_of_zero (zero_mem_of_size_eq_zero hpos) 1
  · exact .inl (measured_of_size hpos hsmall)

end Shape

namespace Literal

theorem sizes_of_sizes? {c : Literal} {shape : List Nat} (h : c.sizes? = some shape) :
    c.sizes = shape := by
  have hentries : List.Forall₂ (fun d n => (Number.toNat? d).getD 0 = n) c.dims shape :=
    (mapM_eq_some_iff.1 h).imp fun d n hd => by rw [hd]; rfl
  exact List.forall₂_eq_eq_eq ▸ List.forall₂_map_left_iff.2 hentries

theorem isComplete_iff {c : Literal} :
    c.isComplete = true ↔ c.sizes? = some c.sizes ∧ Shape.size c.sizes = c.data.length := by
  unfold isComplete
  cases hsizes : c.sizes? with
  | none => simp
  | some shape => simp [sizes_of_sizes? hsizes]

end Literal

/-! ## The elements of a contiguous tensor -/

namespace Tensor

variable {α : Type}

private theorem displacement_of_zip {index dims strides : List Nat} {found : List Int}
    (hwithin : Shape.Within index dims) (hlength : found.length = dims.length)
    (hstrides : strides.length = dims.length)
    (h : ((dims.zip (found.zip (strides.map Int.ofNat))).all fun (d, actual, expected) =>
      d = 1 || actual = expected) = true) :
    displacement index found = Int.ofNat (Shape.distance index strides) := by
  induction dims generalizing index found strides with
  | nil =>
      cases index with
      | nil => cases strides <;> rfl
      | cons => exact hwithin.elim
  | cons d ds ih =>
      cases index with
      | nil => exact hwithin.elim
      | cons i index =>
          cases found with
          | nil => cases hlength
          | cons actual found =>
              cases strides with
              | nil => cases hstrides
              | cons stride strides =>
                  simp only [List.map_cons, List.zip_cons_cons, List.all_cons, Bool.and_eq_true,
                    Bool.or_eq_true, decide_eq_true_eq] at h
                  have hrest := ih hwithin.2 (by simpa using hlength) (by simpa using hstrides) h.2
                  -- along an axis of size one there is only the coordinate zero
                  have hfirst : Int.ofNat i * actual = Int.ofNat (i * stride) := by
                    rcases h.1 with hone | hsame
                    · obtain rfl : i = 0 := by have := hwithin.1; omega
                      simp
                    · rw [hsame]
                      rfl
                  rw [displacement, hrest, hfirst]
                  rfl

/-- In a contiguous tensor an element lies as far from the offset as its linear index says. -/
theorem displacement_of_isContiguous {t : Tensor α} (h : t.isContiguous = true) {index : List Nat}
    (hindex : Shape.Within index t.shape) :
    displacement index t.strides =
      Int.ofNat (Shape.distance index (Shape.strides t.shape)) :=
  displacement_of_zip hindex t.strided (Shape.length_strides t.shape) h

theorem isContiguous_packed (dtype : DType) (shape : List Nat) (data : Array α) :
    (packed dtype shape data).isContiguous = true := by
  have hzip (dims : List Nat) (found : List Int) :
      ((dims.zip (found.zip found)).all fun (d, actual, expected) =>
        d = 1 || actual = expected) = true := by
    induction dims generalizing found with
    | nil => rfl
    | cons d ds ih =>
        cases found with
        | nil => rfl
        | cons stride found => simpa using ih found
  exact hzip shape (rowMajor shape)

section Entries

variable [Scalar α]

/-- The elements in row-major order, read at the multi-indices in their order. -/
theorem toList_entries (t : Tensor α) :
    t.entries.toList = (Shape.indices t.shape).map fun index =>
      (t.element? index).getD Scalar.missing := by
  rw [entries, Array.toList_map, Array.toList_range, Shape.indices_eq_map_coordinates, List.map_map]
  rfl

theorem entry_distance {t : Tensor α} {index : List Nat} (h : Shape.Within index t.shape) :
    t.entry (Shape.distance index (Shape.strides t.shape)) =
      (t.element? index).getD Scalar.missing := by
  rw [entry, at?_distance h]

theorem element?_packed_entries {t : Tensor α} {dtype : DType} {index : List Nat}
    (h : Shape.Within index t.shape) :
    (packed dtype t.shape t.entries).element? index =
      some ((t.element? index).getD Scalar.missing) := by
  rw [← entry_distance h]
  exact element?_packed_range h t.entry

/-- A tensor whose buffer has just its elements has them in row-major order once it is
contiguous. -/
theorem data_contiguous {t : Tensor α} (hoffset : t.offset = 0) (hsize : t.data.size = t.size) :
    t.contiguous.data.toList = t.entries.toList := by
  unfold contiguous
  by_cases h : t.isContiguous = true
  · rw [if_pos h, toList_entries, Shape.indices_eq_map_coordinates, List.map_map]
    apply List.ext_getElem
    · simpa [size] using hsize
    · intro i h₁ h₂
      have hi : i < Shape.size t.shape := by simpa using h₂
      have hindex := Shape.within_coordinates hi
      have hplace : t.place (coordinates (Shape.strides t.shape) i) = Int.ofNat i := by
        rw [place, displacement_of_isContiguous h hindex, hoffset,
          distance_coordinates_strides t.shape i hi, Int.zero_add]
      have hlt : i < t.data.size := by simpa using h₁
      have hread : t.element? (coordinates (Shape.strides t.shape) i) = some t.data[i] := by
        rw [element?, hplace]
        show t.data[i]? = _
        exact Array.getElem?_eq_getElem hlt
      rw [List.getElem_map, List.getElem_range, Function.comp_apply, hread]
      rfl
  · rw [if_neg h]
    rfl

@[simp] theorem dtype_contiguous (t : Tensor α) : t.contiguous.dtype = t.dtype := by
  unfold contiguous
  split <;> rfl

@[simp] theorem shape_contiguous (t : Tensor α) : t.contiguous.shape = t.shape := by
  unfold contiguous
  split <;> rfl

end Entries

/-! ## The tensor of a literal -/

/-- A literal is a packed tensor, if its sizes are natural and it has as many entries. -/
theorem ofLiteral_eq_ok_iff [Scalar α] {c : Literal} {t : Tensor α} :
    ofLiteral c = .ok t ↔ c.sizes? = some c.sizes ∧ Shape.size c.sizes = c.data.length ∧
      t = packed c.dtype c.sizes (c.data.map Scalar.ofNumber).toArray := by
  unfold ofLiteral ofNumbers sizesOf
  cases hsizes : c.dims.mapM Number.toNat? with
  | none =>
      have hnone : c.sizes? = none := hsizes
      simp [hnone, bind, Except.bind]
  | some shape =>
      have hsome : c.sizes? = some shape := hsizes
      obtain rfl := Literal.sizes_of_sizes? hsome
      simp only [hsome, bind, Except.bind, ofArray, List.size_toArray, List.length_map, true_and]
      by_cases hsize : Shape.size c.sizes = c.data.length
      · simp [hsize, eq_comm]
      · simp [hsize]

theorem exists_ofLiteral [Scalar α] {c : Literal} (h : c.isComplete = true) :
    ∃ t : Tensor α, ofLiteral c = .ok t := by
  obtain ⟨hsizes, hsize⟩ := Literal.isComplete_iff.1 h
  exact ⟨_, ofLiteral_eq_ok_iff.2 ⟨hsizes, hsize, rfl⟩⟩

theorem sound_of_ofLiteral [Scalar α] {c : Literal} {t : Tensor α} (h : ofLiteral c = .ok t) :
    t.Sound := by
  obtain ⟨-, hsize, rfl⟩ := ofLiteral_eq_ok_iff.1 h
  exact sound_packed (by simp [hsize])

end Tensor

namespace Literal

variable {α : Type} [Scalar α] {c u : Literal} {p : List Nat}

/-- The transposed literal has the elements of the transposed view of its tensor. -/
theorem data_permute_eq {t : Tensor α} (ht : Tensor.ofLiteral c = .ok t) (p : List Nat) :
    (c.permute p).data.map Scalar.ofNumber = (t.permuteBy p).entries.toList := by
  obtain ⟨-, -, rfl⟩ := Tensor.ofLiteral_eq_ok_iff.1 ht
  have hstrides : arrange (Tensor.rowMajor c.sizes) p =
      (arrange (Shape.strides c.sizes) p).map Int.ofNat := by
    unfold Tensor.rowMajor arrange
    rw [List.map_map]
    refine List.map_congr_left fun axis _ => ?_
    simp only [Function.comp_apply, List.getD_eq_getElem?_getD, List.getElem?_map]
    cases (Shape.strides c.sizes)[axis]? <;> rfl
  rw [Tensor.toList_entries, permute, List.map_map]
  refine List.map_congr_left fun index _ => ?_
  simp only [Function.comp_apply, Tensor.element?, Tensor.place, Tensor.permuteBy, Tensor.packed,
    hstrides, Tensor.displacement_map_ofNat, Int.zero_add]
  show _ = ((c.data.map Scalar.ofNumber).toArray[Shape.distance index
    (arrange (Shape.strides c.sizes) p)]?).getD Scalar.missing
  rw [List.getElem?_toArray, List.getElem?_map, Array.getD_eq_getD_getElem?, List.getElem?_toArray]
  cases c.data[Shape.distance index (arrange (Shape.strides c.sizes) p)]? <;> rfl

theorem sizes?_permute (hsizes : c.sizes? = some c.sizes) (hp : ∀ axis ∈ p, axis < c.dims.length) :
    (c.permute p).sizes? = some (c.permute p).sizes := by
  have hentries := mapM_eq_some_iff.1 hsizes
  refine mapM_eq_some_iff.2 ?_
  rw [sizes_permute, dims_permute]
  unfold arrange
  rw [List.forall₂_map_left_iff, List.forall₂_map_right_iff, List.forall₂_same]
  intro axis haxis
  have hlt := hp axis haxis
  have hlt' : axis < c.sizes.length := by rwa [length_sizes]
  have hentry := hentries.get hlt hlt'
  simpa [hlt, hlt'] using hentry

/-- The tensor of a transposed literal is the tensor of the literal transposed. -/
theorem transposeOf_transpose {t : Tensor α} (hp : IsPermutation p)
    (hrank : p.length = c.dims.length) (ht : Tensor.ofLiteral c = .ok t)
    (hu : c.transpose p = .ok u) :
    ∃ w : Tensor α, Tensor.ofLiteral u = .ok w ∧ w.TransposeOf p t := by
  have hdata := data_permute_eq ht p
  have hsound := Tensor.sound_of_ofLiteral ht
  obtain ⟨hsizes, -, heq⟩ := Tensor.ofLiteral_eq_ok_iff.1 ht
  obtain rfl := eq_permute_of_transpose hu
  have hshape : t.shape = c.sizes := by rw [heq]; rfl
  have hlength : p.length = t.shape.length := by rw [hshape, length_sizes, hrank]
  have hturned : (c.permute p).sizes? = some (c.permute p).sizes :=
    sizes?_permute hsizes (hrank ▸ hp.2)
  refine ⟨.packed c.dtype (arrange t.shape p) (t.permuteBy p).entries, ?_, hlength, ?_, rfl,
    fun index hindex => ?_⟩
  · refine Tensor.ofLiteral_eq_ok_iff.2 ⟨hturned, by simp, ?_⟩
    rw [hdata, Array.toArray_toList, sizes_permute, hshape]
    rfl
  · rw [heq]
    rfl
  · have hindex' : p.length = index.length := hlength.trans hindex.length_eq.symm
    have hmoved := (Shape.within_arrange_iff hp hindex' hlength).2 hindex
    obtain ⟨x, hx⟩ := hsound.element index hindex
    have hread := Tensor.element?_permuteBy hp hlength hindex'
    exact (Tensor.element?_packed_entries (t := t.permuteBy p) hmoved).trans (by rw [hread, hx]; rfl)

/-! ## Transposing before and while a graph is run -/

/-- A literal is transposed as long as its entries can be counted in the new order. -/
theorem transpose_eq_ok (hp : IsPermutation p) (hrank : p.length = c.dims.length)
    (hsize : Shape.size c.sizes = c.data.length) (hlimit : c.data.length < lengthLimit)
    (hcount : Shape.measured (arrange c.sizes p) ≠ .nan) : c.transpose p = .ok (c.permute p) := by
  have hlength : p.length = c.sizes.length := by rw [length_sizes, hrank]
  have hturned : Shape.size (arrange c.sizes p) = c.data.length := by
    rw [Shape.size_arrange hp hlength, hsize]
  have hexact : Shape.size (arrange c.sizes p) < exactRange := by
    rw [hturned]
    exact Nat.lt_trans hlimit (by decide)
  have hcounted := (Shape.measured_eq hexact).resolve_right hcount
  rw [hturned] at hcounted
  have hfits : Shape.lengthOf (.int (c.data.length : Nat)) = .ok c.data.length := if_pos hlimit
  rw [transpose, hcounted, hfits]
  rfl

/-- A literal with all of its entries is transposed by the numbers of a permutation to one with all of
its entries. -/
theorem permuteBy_eq {perm : List Number} {w : Incomplete} (hp : ofNumbers? perm = some p)
    (hcomplete : c.isComplete = true) (h : c.permuteBy perm = .ok w) : w = (c.permute p).complete := by
  simp only [permuteBy, bind, Except.bind] at h
  split at h
  · cases h
  · split at h
    · cases h
    · simp only [hp, hcomplete, if_true] at h
      exact (Except.ok.inj h).symm

/-- A literal that is transposed while a graph is optimized has the element type, the sizes and the
entries in order of the tensor that is transposed while the graph is run, and made contiguous. -/
theorem transpose_contiguous {perm : List Number} {t : Tensor α} (hp : ofNumbers? perm = some p)
    (hrank : p.length = c.dims.length) (ht : Tensor.ofLiteral c = .ok t)
    (hlimit : c.data.length < lengthLimit) (hcount : Shape.measured (arrange c.sizes p) ≠ .nan) :
    ∃ (u : Literal) (v : Tensor α), c.transpose p = .ok u ∧
      t.permute perm = .ok v ∧ v.contiguous.offset = 0 ∧ v.contiguous.isContiguous = true ∧
      u.dtype = v.contiguous.dtype ∧ u.dims = arrange c.dims p ∧
      u.sizes? = some v.contiguous.shape ∧
      u.data.map Scalar.ofNumber = v.contiguous.data.toList ∧
      ∀ w, c.permuteBy perm = .ok w → w = u.complete := by
  have hperm := ofNumbers?_isPermutation hp
  obtain ⟨hsizes, hsize, heq⟩ := Tensor.ofLiteral_eq_ok_iff.1 ht
  have hshape : t.shape = c.sizes := by rw [heq]; rfl
  have hlength : p.length = t.shape.length := by rw [hshape, length_sizes, hrank]
  have hoffset : t.offset = 0 := by rw [heq]; rfl
  have hbuffer : t.data.size = (t.permuteBy p).size := by
    show t.data.size = Shape.size (arrange t.shape p)
    rw [Shape.size_arrange hperm hlength, hshape, hsize, heq]
    simp [Tensor.packed]
  refine ⟨c.permute p, t.permuteBy p, transpose_eq_ok hperm hrank hsize hlimit hcount,
    Tensor.permute_eq hp hlength.symm, ?_, ?_, ?_, rfl, ?_, ?_, fun w hw => ?_⟩
  · unfold Tensor.contiguous
    split
    · exact hoffset
    · rfl
  · unfold Tensor.contiguous
    split
    · assumption
    · exact Tensor.isContiguous_packed _ _ _
  · rw [Tensor.dtype_contiguous, heq]
    rfl
  · rw [Tensor.shape_contiguous, sizes?_permute hsizes (hrank ▸ hperm.2), sizes_permute, ← hshape]
    rfl
  · rw [data_permute_eq ht, Tensor.data_contiguous (t := t.permuteBy p) hoffset hbuffer]
  · exact permuteBy_eq hp (isComplete_iff.2 ⟨hsizes, hsize⟩) hw

/-- A literal with two rows of three. -/
def wide : Literal :=
  { dtype := .int64, dims := [.int 2, .int 3]
    data := [.int 1, .int 2, .int 3, .int 4, .int 5, .int 6] }

theorem transpose_contiguous_wide :
    ofNumbers? [.int 1, .int 0] = some [1, 0] ∧ wide.data.length < lengthLimit ∧
      ∃ (t : Tensor Float) (u : Literal) (v : Tensor Float), Tensor.ofLiteral wide = .ok t ∧
        wide.transpose [1, 0] = .ok u ∧ t.permute [.int 1, .int 0] = .ok v ∧
        u.data = [.int 1, .int 4, .int 2, .int 5, .int 3, .int 6] ∧
        u.data.map Scalar.ofNumber = v.contiguous.data.toList := by
  have hp : ofNumbers? [.int 1, .int 0] = some [1, 0] := by decide
  have hcount : Shape.measured (arrange wide.sizes [1, 0]) = .int 6 := by decide +kernel
  have ht : Tensor.ofLiteral wide = .ok (Tensor.packed (α := Float) .int64 [2, 3]
      (wide.data.map Scalar.ofNumber).toArray) :=
    Tensor.ofLiteral_eq_ok_iff.2 ⟨by decide, by decide, rfl⟩
  obtain ⟨u, v, hu, hv, -, -, -, -, -, hdata, -⟩ :=
    transpose_contiguous (c := wide) hp rfl ht (by decide) (by rw [hcount]; exact Number.noConfusion)
  refine ⟨hp, by decide, _, u, v, ht, hu, hv, ?_, hdata⟩
  obtain rfl : wide.permute [1, 0] = u := (eq_permute_of_transpose hu).symm
  decide +kernel

/-- A literal without entries, with two sizes between two that are zero. -/
def hollow (n : Nat) : Literal :=
  { dtype := .float32, dims := [.int 0, .ofNat n, .ofNat n, .int 0], data := [] }

/-- Where the two sizes multiply to more than a double can hold, the literal is not transposed, but
the tensor is. -/
theorem not_transpose_contiguous :
    ofNumbers? [.int 1, .int 2, .int 0, .int 3] = some [1, 2, 0, 3] ∧
      (hollow (2 ^ 600)).transpose [1, 2, 0, 3] = .error (.badLength .nan) ∧
      ∃ t v : Tensor Float, Tensor.ofLiteral (hollow (2 ^ 600)) = .ok t ∧
        t.permute [.int 1, .int 2, .int 0, .int 3] = .ok v ∧
        v.contiguous.dtype = .float32 ∧ v.contiguous.shape = [2 ^ 600, 2 ^ 600, 0, 0] ∧
        v.contiguous.data.toList = [] := by
  have hp : ofNumbers? [.int 1, .int 2, .int 0, .int 3] = some [1, 2, 0, 3] := by decide
  have hcount : Shape.lengthOf (Shape.measured (arrange (hollow (2 ^ 600)).sizes [1, 2, 0, 3])) =
      .error (.badLength .nan) := by decide +kernel
  have hviews : ∀ n, ∃ t v : Tensor Float, Tensor.ofLiteral (hollow n) = .ok t ∧
      t.permute [.int 1, .int 2, .int 0, .int 3] = .ok v ∧ v.contiguous.dtype = .float32 ∧
      v.contiguous.shape = [n, n, 0, 0] ∧ v.contiguous.data.toList = [] := by
    intro n
    have ht : Tensor.ofLiteral (hollow n) =
        .ok (Tensor.packed (α := Float) .float32 [0, n, n, 0] #[]) :=
      Tensor.ofLiteral_eq_ok_iff.2 ⟨rfl, (Shape.size_cons 0 [n, n, 0]).trans (Nat.zero_mul _), rfl⟩
    refine ⟨_, _, ht, Tensor.permute_eq hp rfl, ?_, ?_, ?_⟩
    · rw [Tensor.dtype_contiguous]
      rfl
    · rw [Tensor.shape_contiguous]
      rfl
    · have hsize : Shape.size [n, n, 0, 0] = 0 := by simp
      have hdata := Tensor.data_contiguous (t := (Tensor.packed (α := Float) .float32 [0, n, n, 0]
        #[]).permuteBy [1, 2, 0, 3]) rfl hsize.symm
      rw [hdata, Tensor.entries, Tensor.size]
      show ((Array.range (Shape.size [n, n, 0, 0])).map _).toList = []
      simp [hsize]
  refine ⟨hp, ?_, hviews (2 ^ 600)⟩
  rw [transpose, hcount]
  rfl

end Literal

end TensorGraph
