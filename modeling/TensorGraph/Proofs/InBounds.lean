import Mathlib.Data.Set.Function
import TensorGraph.Proofs.AxisRemapping
import TensorGraph.Proofs.Combining
import TensorGraph.Proofs.ReadBack
import TensorGraph.Proofs.Reducing
import TensorGraph.Proofs.Rewriting
import TensorGraph.Proofs.Slicing

/-!
# Views that stay in their buffers

The buffer of a packed tensor has as many elements as the shape says, and nothing looks at it when views
are made of it or of each other. That all elements of a tensor lie in its buffer is kept by every
operation on tensors, whether it makes a view or a buffer of its own, so that whatever they make in turn
reads no element that is not there. A tensor without elements has nothing to read.

## Main results

* `Tensor.Sound.permute`, `Tensor.Sound.stretchTo` -- views keep to the buffer that they share.
* `Tensor.Obtained.sound` -- what operations make in turn has all of its elements in the buffer.
* `Tensor.Obtained.reads_in_bounds` -- linear indices lead into the buffer, and straight through it if the
  tensor is contiguous.
-/

namespace TensorGraph

open Permutation

/-- A multi-index within two shapes put together is split where the first one ends. -/
theorem Shape.exists_append {index pre post : List Nat} (h : Within index (pre ++ post)) :
    ∃ outside inside, index = outside ++ inside ∧ Within outside pre ∧ Within inside post := by
  have hall := within_iff.1 h
  exact ⟨index.take pre.length, index.drop pre.length, (List.take_append_drop ..).symm,
    within_iff.2 (List.forall₂_take_append _ _ _ hall),
    within_iff.2 (List.forall₂_drop_append _ _ _ hall)⟩

namespace Tensor

variable {α : Type}

/-! ## Transposed views -/

/-- The axes that are read off numbers are different ones of the rank. -/
theorem nodup_of_distinctAxes {rank : Nat} {before p : List Nat} {xs : List Number}
    (h : distinctAxes rank before xs = .ok p) :
    p.length = xs.length ∧ p.Nodup ∧ ∀ axis ∈ p, axis < rank ∧ axis ∉ before := by
  induction xs generalizing before p with
  | nil =>
      obtain rfl : [] = p := Except.ok.inj h
      simp
  | cons x xs ih =>
      rw [distinctAxes] at h
      split at h
      · cases h
      · rename_i axis _
        split at h
        · cases h
        · rename_i hrank
          split at h
          · cases h
          · rename_i hnew
            obtain ⟨rest, hrest, rfl⟩ := map_eq_ok h
            obtain ⟨hlength, hnodup, hall⟩ := ih hrest
            have haxis : axis ∉ rest := fun hmem => (hall axis hmem).2 List.mem_cons_self
            refine ⟨congrArg Nat.succ hlength, List.nodup_cons.2 ⟨haxis, hnodup⟩, ?_⟩
            refine List.forall_mem_cons.2 ⟨⟨Nat.not_le.1 hrank, by simpa using hnew⟩, ?_⟩
            exact fun k hk => ⟨(hall k hk).1, fun hmem => (hall k hk).2 (List.mem_cons_of_mem _ hmem)⟩

/-- Numbers by which a tensor is transposed form a permutation of its rank. -/
theorem eq_permuteBy_of_permute {t u : Tensor α} {perm : List Number} (h : t.permute perm = .ok u) :
    ∃ p, IsPermutation p ∧ p.length = t.shape.length ∧ u = t.permuteBy p := by
  unfold permute at h
  split at h
  · rename_i hlength
    obtain ⟨p, hp, rfl⟩ := map_eq_ok h
    obtain ⟨hsame, hnodup, hall⟩ := nodup_of_distinctAxes hp
    have hrank : p.length = t.shape.length := hsame.trans hlength
    exact ⟨p, ⟨hnodup, fun axis haxis => hrank ▸ (hall axis haxis).1⟩, hrank, rfl⟩
  · cases h

theorem Sound.permute {t u : Tensor α} {perm : List Number} (ht : t.Sound)
    (h : t.permute perm = .ok u) : u.Sound := by
  obtain ⟨p, hp, hrank, rfl⟩ := eq_permuteBy_of_permute h
  exact ht.permuteBy hp hrank

/-! ## Stretched views -/

theorem Sound.stretchTo {t u : Tensor α} {target : List Nat} (ht : t.Sound)
    (h : t.stretchTo target = .ok u) : u.Sound := by
  have hrank := rank_le_of_stretchTo h
  have hfits := fits_of_stretchTo hrank h
  obtain ⟨v, hv, rfl, hread⟩ := stretchTo_of_fits hrank hfits
  obtain rfl := Except.ok.inj (hv.symm.trans h)
  refine ⟨fun index hindex => ?_⟩
  rw [hread index hindex]
  exact ht.element _ (Shape.within_source hfits (Shape.within_drop hindex _))

/-! ## Buffers of their own -/

theorem sound_ofNumbers {dtype : DType} {sizes : List Number} {data : Array α} {t : Tensor α}
    (h : ofNumbers dtype sizes data = .ok t) : t.Sound := by
  obtain ⟨shape, -, h⟩ := bind_eq_ok h
  unfold ofArray at h
  split at h
  · rename_i hsize
    obtain rfl := Except.ok.inj h
    exact sound_packed (Nat.le_of_eq hsize)
  · cases h

variable [Scalar α]

theorem sound_map (t : Tensor α) (f : α → α) : (t.map f).Sound :=
  sound_packed (by simp [entries, size])

theorem sound_sizes (t : Tensor α) : t.sizes.Sound :=
  sound_packed (by simp [rank])

theorem Sound.contiguous {t : Tensor α} (ht : t.Sound) : t.contiguous.Sound := by
  unfold Tensor.contiguous
  split
  · exact ht
  · exact sound_packed (by simp [entries, size])

theorem sound_zipWith {f : α → α → α} {a b c : Tensor α} (h : zipWith f a b = .ok c) : c.Sound := by
  unfold zipWith at h
  split at h
  · cases h
  · obtain ⟨left, -, h⟩ := bind_eq_ok h
    obtain ⟨right, -, h⟩ := bind_eq_ok h
    obtain rfl := Except.ok.inj h
    exact sound_packed (by simp)

/-- A sum has all of its cells, whatever is summed. -/
theorem sound_sum {t s : Tensor α} {options : ReduceOptions} (h : t.sum options = .ok s) :
    s.Sound := by
  obtain ⟨reduced, hreduced, -⟩ := bind_eq_ok h
  obtain ⟨s', hs, -, -, hread⟩ := sum_eq_total hreduced
  obtain rfl := Except.ok.inj (hs.symm.trans h)
  exact ⟨fun index hindex => ⟨_, hread index hindex⟩⟩

theorem sound_mean {t m : Tensor α} {options : ReduceOptions} (h : t.mean options = .ok m) :
    m.Sound := by
  obtain ⟨s, -, h⟩ := bind_eq_ok h
  obtain rfl := Except.ok.inj h
  exact sound_map s _

theorem Sound.concat {tensors : List (Tensor α)} {c : Tensor α} {axis : Number}
    (hall : ∀ t ∈ tensors, t.Sound) (h : concat tensors axis = .ok c) : c.Sound := by
  cases tensors with
  | nil => cases h
  | cons t rest =>
      obtain ⟨dim, haxis, hagree⟩ := agreeOff_of_concat h
      have hdim := axisIndex?_lt haxis
      obtain ⟨c', hc, -, hshape, hread⟩ := concat_eq_ok haxis hdim hagree hall
      obtain rfl := Except.ok.inj (hc.symm.trans h)
      refine ⟨fun index hindex => ?_⟩
      rw [hread index hindex]
      rw [hshape] at hindex
      obtain ⟨k, u, hfalls⟩ := exists_fallsInto (Shape.getD_lt hindex hdim)
      have hlength : dim < index.length := by
        rwa [hindex.length_eq, List.length_set]
      have hu := List.mem_of_getElem? hfalls.operand
      rw [joined?_eq hfalls hlength]
      apply (hall u hu).element
      rw [shape_eq_set (hagree u hu)]
      refine Shape.within_set hindex ?_
      have hstart := hfalls.start
      have hstop := hfalls.stop
      omega

theorem Sound.take {t indices c : Tensor α} (ht : t.Sound) (h : take t indices = .ok c) :
    c.Sound := by
  cases hshape : t.shape with
  | nil =>
      rw [Tensor.take, hshape] at h
      cases h
  | cons n rowShape =>
      have hpick := pickOf_take hshape h
      refine ⟨fun index hindex => ?_⟩
      rw [hpick.shape] at hindex
      obtain ⟨i, j, rfl, hi, hj⟩ := Shape.exists_append hindex
      obtain ⟨k, -, hnamed, hread⟩ := hpick.element ht i j hi hj
      rw [hread]
      apply ht.element
      rw [hshape]
      exact ⟨placeNamed_lt hnamed, hj⟩

/-! ## What operations make in turn -/

/-- The tensors that operations make in turn, from packed ones with as many elements as their shapes
say. -/
inductive Obtained : Tensor α → Prop
  | ofNumbers {dtype : DType} {sizes : List Number} {data : Array α} {t : Tensor α}
      (h : Tensor.ofNumbers dtype sizes data = .ok t) : Obtained t
  | permute {t u : Tensor α} {perm : List Number} (ht : Obtained t) (h : t.permute perm = .ok u) :
      Obtained u
  | stretchTo {t u : Tensor α} {target : List Nat} (ht : Obtained t)
      (h : t.stretchTo target = .ok u) : Obtained u
  | contiguous {t : Tensor α} (ht : Obtained t) : Obtained t.contiguous
  | map {t : Tensor α} (f : α → α) (ht : Obtained t) : Obtained (t.map f)
  | zipWith {a b c : Tensor α} {f : α → α → α} (ha : Obtained a) (hb : Obtained b)
      (h : Tensor.zipWith f a b = .ok c) : Obtained c
  | sum {t s : Tensor α} {options : ReduceOptions} (ht : Obtained t) (h : t.sum options = .ok s) :
      Obtained s
  | mean {t m : Tensor α} {options : ReduceOptions} (ht : Obtained t) (h : t.mean options = .ok m) :
      Obtained m
  | concat {tensors : List (Tensor α)} {c : Tensor α} {axis : Number}
      (hall : ∀ t ∈ tensors, Obtained t) (h : Tensor.concat tensors axis = .ok c) : Obtained c
  | take {t indices c : Tensor α} (ht : Obtained t) (hi : Obtained indices)
      (h : Tensor.take t indices = .ok c) : Obtained c
  | sizes {t : Tensor α} (ht : Obtained t) : Obtained t.sizes

theorem Obtained.sound {t : Tensor α} (h : Obtained t) : t.Sound := by
  induction h with
  | ofNumbers h => exact sound_ofNumbers h
  | permute _ h ih => exact ih.permute h
  | stretchTo _ h ih => exact ih.stretchTo h
  | contiguous _ ih => exact ih.contiguous
  | map f _ _ => exact sound_map _ f
  | zipWith _ _ h _ _ => exact sound_zipWith h
  | sum _ h _ => exact sound_sum h
  | mean _ h _ => exact sound_mean h
  | concat _ h ih => exact Sound.concat ih h
  | take _ _ h ih _ => exact ih.take h
  | sizes _ _ => exact sound_sizes _

/-! ## Where linear indices lead -/

omit [Scalar α] in
/-- The linear indices below the size of a shape are taken apart into the multi-indices within it, each
into its own. -/
theorem bijOn_coordinates (dims : List Nat) :
    Set.BijOn (coordinates (Shape.strides dims)) {linear | linear < Shape.size dims}
      {index | Shape.Within index dims} := by
  refine ⟨fun linear hlinear => Shape.within_coordinates hlinear, fun i hi j hj hsame => ?_, ?_⟩
  · rw [← distance_coordinates_strides dims i hi, hsame, distance_coordinates_strides dims j hj]
  · intro index hindex
    exact ⟨_, Shape.distance_lt_size hindex, Shape.coordinates_distance hindex⟩

/-- Where in the buffer the element with a linear index lies. -/
def linearPlace (t : Tensor α) (linear : Nat) : Int :=
  t.place (coordinates (Shape.strides t.shape) linear)

omit [Scalar α] in
theorem Sound.linearPlace {t : Tensor α} (ht : t.Sound) {linear : Nat} (h : linear < t.size) :
    ∃ address, ∃ hlt : address < t.data.size, t.linearPlace linear = Int.ofNat address ∧
      t.at? linear = some t.data[address] := by
  obtain ⟨x, hx⟩ := ht.element _ (Shape.within_coordinates h)
  obtain ⟨address, haddress, hfound⟩ := Option.bind_eq_some_iff.1 hx
  obtain ⟨hlt, rfl⟩ := Array.getElem?_eq_some_iff.1 hfound
  exact ⟨address, hlt, Int.mem_toNat?.1 haddress, hx⟩

omit [Scalar α] in
theorem linearPlace_of_isContiguous {t : Tensor α} (h : t.isContiguous = true) {linear : Nat}
    (hlinear : linear < t.size) :
    t.linearPlace linear = t.offset + Int.ofNat linear := by
  rw [Tensor.linearPlace, place,
    displacement_of_isContiguous h (Shape.within_coordinates hlinear),
    distance_coordinates_strides t.shape linear hlinear]

/-- In a tensor that operations make in turn, the linear indices below the size are taken apart into the
multi-indices within the shape, each into its own, and lead to places in the buffer; if the tensor is
contiguous, the element with a linear index is the one at that distance from the offset. -/
theorem Obtained.reads_in_bounds {t : Tensor α} (h : Obtained t) :
    Set.BijOn (coordinates (Shape.strides t.shape)) {linear | linear < t.size}
      {index | Shape.Within index t.shape} ∧
    (∀ linear < t.size, ∃ address, ∃ hlt : address < t.data.size,
      t.linearPlace linear = Int.ofNat address ∧ t.at? linear = some t.data[address]) ∧
    (t.isContiguous = true → ∀ linear < t.size, ∃ address, ∃ hlt : address < t.data.size,
      Int.ofNat address = t.offset + Int.ofNat linear ∧ t.at? linear = some t.data[address]) := by
  have hsound := h.sound
  refine ⟨bijOn_coordinates t.shape, fun linear hlinear => hsound.linearPlace hlinear,
    fun hcontiguous linear hlinear => ?_⟩
  obtain ⟨address, hlt, hplace, hread⟩ := hsound.linearPlace hlinear
  have hstraight := linearPlace_of_isContiguous hcontiguous hlinear
  exact ⟨address, hlt, hplace.symm.trans hstraight, hread⟩

/-- A column read as a row, whose stride along the axis of size one is not the row-major one. -/
def flatColumn : Tensor Int := column.permuteBy [1, 0]

/-- The same column read as two rows, without a second copy. -/
def doubledColumn : Tensor Int := { flatColumn with shape := [2, 4], strides := [0, 1], strided := rfl }

/-- A column that is transposed passes for contiguous, and one that is stretched then does not. -/
theorem Obtained.reads_in_bounds_column :
    Obtained flatColumn ∧ flatColumn.isContiguous = true ∧
      (∃ address, ∃ hlt : address < flatColumn.data.size, Int.ofNat address = 0 + 2 ∧
        flatColumn.at? 2 = some flatColumn.data[address]) ∧
      Obtained doubledColumn ∧ doubledColumn.isContiguous = false ∧
      ∃ address, ∃ hlt : address < doubledColumn.data.size,
        doubledColumn.linearPlace 6 = Int.ofNat address ∧
          doubledColumn.at? 6 = some doubledColumn.data[address] := by
  have hbuilt : Tensor.ofNumbers .int64 [.int 4, .int 1] #[10, 20, 30, 40] = .ok column := rfl
  have hturned : column.permute [.int 1, .int 0] = .ok flatColumn := rfl
  have hstretched : flatColumn.stretchTo [2, 4] = .ok doubledColumn := rfl
  have hflat : Obtained flatColumn := (Obtained.ofNumbers hbuilt).permute hturned
  have hdoubled : Obtained doubledColumn := hflat.stretchTo hstretched
  obtain ⟨-, -, hstraight⟩ := hflat.reads_in_bounds
  obtain ⟨-, hplaces, -⟩ := hdoubled.reads_in_bounds
  exact ⟨hflat, rfl, hstraight rfl 2 (by decide), hdoubled, rfl, hplaces 6 (by decide)⟩

end Tensor

/-! ## Layouts that nobody has checked -/

namespace LooseTensor

/-- Two rows of one and a half numbers. -/
def fractional : LooseTensor Int := .packed .float32 [.int 2, .real 1.5] #[10, 20, 30]

/-- Two numbers that are looked for one place too late. -/
def late : LooseTensor Int := { packed .float32 [.int 2] #[10, 20] with offset := .int 1 }

/-- A row of three numbers. -/
def triple : LooseTensor Int := .packed .float32 [.int 3] #[10, 20, 30]

/-- A view of the row whose elements are too many to be counted exactly. -/
def uncounted : LooseTensor Int :=
  { triple with shape := [.ofNat (2 ^ 53), .int 3], strides := [.int 0, .int 1] }

/-- A buffer may have as many elements as the sizes say and still lack one of them: where a size is no
whole number, and where the elements do not start with the buffer. Both tensors pass for contiguous. So
may a view that repeats a whole buffer too often, where the quotient of a linear index is rounded up. -/
theorem not_reads_in_bounds :
    (ofParts .float32 [.int 2, .real 1.5] #[10, 20, 30] = .ok fractional ∧
      fractional.size = .int 3 ∧ fractional.isContiguous = true ∧ fractional.at? 2 = none) ∧
    ((ofParts .float32 [.int 2] #[10, 20]).map (fun t => { t with offset := .int 1 }) = .ok late ∧
      late.size = .int 2 ∧ late.isContiguous = true ∧ late.at? 1 = none) ∧
    ofParts .float32 [.int 3] #[10, 20, 30] = .ok triple ∧
      triple.stretchTo [.ofNat (2 ^ 53), .int 3] = .ok uncounted ∧
      uncounted.size = .ofNat (3 * 2 ^ 53) ∧ uncounted.at? (3 * 2 ^ 52 + 2) = none := by
  have hfractional : (Shape.size [.int 2, .real 1.5] : Number).same (.ofNat 3) = true := by
    decide +kernel
  have hpair : (Shape.size [.int 2] : Number).same (.ofNat 2) = true := by decide +kernel
  have htriple : (Shape.size [.int 3] : Number).same (.ofNat 3) = true := by decide +kernel
  refine ⟨⟨if_pos hfractional, by decide +kernel, by decide +kernel, by decide +kernel⟩,
    ⟨?_, by decide +kernel, by decide +kernel, by decide +kernel⟩,
    if_pos htriple, rfl, by decide +kernel, by decide +kernel⟩
  have hpacked : ofParts .float32 [.int 2] (#[10, 20] : Array Int) = .ok (packed _ _ _) :=
    if_pos hpair
  rw [hpacked]
  rfl

end LooseTensor

end TensorGraph
