import TensorGraph.Execution.Value
import TensorGraph.Proofs.LiteralTensors

/-!
# Results that are constructed

A kernel fills a buffer and hands it over together with the sizes, and the two are compared: the sizes
are multiplied in doubles, one after the other, and the product must be the length of the buffer. For
kernels that fill their buffers this fails where an infinite product meets a size of zero, and nowhere
else as long as the buffer is not too long. It does not fail for sizes that are roomy.

## Main results

* `Shape.Roomy.arrange_iff` -- whether sizes are roomy does not depend on their order.
* `Tensor.Filled.constructed_iff` -- a filled tensor is constructed exactly if its elements are counted.
* `Tensor.Filled.constructed` -- so it is if its sizes are roomy.
* `Value.made_eq_whole` -- what is filled and laid out exactly is kept in natural sizes.
-/

namespace TensorGraph

open Permutation

namespace Shape

/-- Whether sizes, those that are zero left aside, multiply to no more than a buffer can hold. -/
def Roomy (dims : List Nat) : Prop := size (dims.filter (· ≠ 0)) < lengthLimit

instance (dims : List Nat) : Decidable (Roomy dims) := inferInstanceAs (Decidable (_ < _))

variable {dims p : List Nat}

theorem size_filter_cons (d : Nat) (dims : List Nat) :
    size ((d :: dims).filter (· ≠ 0)) =
      (if d = 0 then 1 else d) * size (dims.filter (· ≠ 0)) := by
  by_cases hd : d = 0 <;> simp [hd]

/-- With fewer axes there is no more room taken. -/
theorem Roomy.sublist {others : List Nat} (h : Roomy dims) (hsub : others.Sublist dims) :
    Roomy others := by
  refine Nat.lt_of_le_of_lt ?_ h
  clear h
  induction hsub with
  | slnil => exact Nat.le_refl _
  | cons d _ ih =>
      rw [size_filter_cons]
      exact ih.trans (Nat.le_mul_of_pos_left _ (by split <;> omega))
  | cons_cons d _ ih =>
      rw [size_filter_cons, size_filter_cons]
      exact Nat.mul_le_mul_left _ ih

/-- Nor is there where no axis is longer, and none of size one is counted. -/
theorem Roomy.map_le {β : Type} {places : List β} {f g : β → Nat} (h : Roomy (places.map g))
    (hfg : ∀ place, f place ≤ max (g place) 1) : Roomy (places.map f) := by
  refine Nat.lt_of_le_of_lt ?_ h
  clear h
  induction places with
  | nil => exact Nat.le_refl _
  | cons place places ih =>
      have hfirst : (if f place = 0 then 1 else f place) ≤ if g place = 0 then 1 else g place := by
        have hle := hfg place
        split <;> split <;> omega
      rw [List.map_cons, List.map_cons, size_filter_cons, size_filter_cons]
      exact Nat.mul_le_mul hfirst ih

theorem Roomy.arrange_iff (hp : IsPermutation p) (hlength : p.length = dims.length) :
    Roomy (arrange dims p) ↔ Roomy dims := by
  unfold Roomy
  rw [size_perm ((arrange_perm hp hlength).filter _)]

theorem Roomy.size_lt (h : Roomy dims) : size dims < lengthLimit := by
  have hle := size_take_le_filter dims dims.length
  rw [List.take_length] at hle
  exact Nat.lt_of_le_of_lt hle h

theorem Roomy.measured (h : Roomy dims) : Shape.measured dims = .ofNat (size dims) :=
  measured_of_exact fun k _ =>
    Nat.lt_trans (Nat.lt_of_le_of_lt (size_take_le_filter dims k) h) (by decide)

theorem bufferLengthOf_ofNat {n : Nat} (h : n < lengthLimit) :
    bufferLengthOf (.ofNat n) = .ok n := by
  have hn : (0 : Int) ≤ n ∧ (n : Int) < (lengthLimit : Nat) :=
    ⟨Int.natCast_nonneg n, Int.ofNat_lt.2 h⟩
  unfold bufferLengthOf
  simp only [Number.ofNat, Number.wholePart?_int]
  rw [if_pos hn, Int.toNat_natCast]

end Shape

namespace Tensor

variable {α : Type} {t u : Tensor α}

theorem eq_of_constructed (h : t.constructed = .ok u) : t = u := by
  unfold constructed at h
  split at h
  · exact Except.ok.inj h
  · cases h

theorem constructed_eq_self_iff :
    t.constructed = .ok t ↔ Shape.measured t.shape = .ofNat t.data.size := by
  unfold constructed
  split <;> simp [*]

/-- Whether the buffer has just the elements that the sizes say. -/
def Filled (t : Tensor α) : Prop := t.data.size = t.size

/-- A filled tensor is constructed exactly if its elements are counted to a number. -/
theorem Filled.constructed_iff (h : t.Filled) (hsmall : t.size < exactRange) :
    t.constructed = .ok t ↔ Shape.measured t.shape ≠ .nan := by
  rw [constructed_eq_self_iff, h]
  constructor
  · intro hcount
    rw [hcount]
    exact Number.noConfusion
  · exact (Shape.measured_eq hsmall).resolve_right

theorem Filled.constructed (h : t.Filled) (hroomy : Shape.Roomy t.shape) : t.constructed = .ok t :=
  constructed_eq_self_iff.2 (by rw [h]; exact hroomy.measured)

/-! ## Kernels that fill their buffers -/

theorem filled_range (dtype : DType) (shape : List Nat) (f : Nat → α) :
    (packed dtype shape ((Array.range (Shape.size shape)).map f)).Filled := by
  simp [Filled, size, packed]

variable [Scalar α] {a b c s m : Tensor α} {options : ReduceOptions}

theorem filled_map (t : Tensor α) (f : α → α) : (t.map f).Filled := by
  simp [Filled, size, map, packed, entries]

theorem filled_zipWith {f : α → α → α} (h : zipWith f a b = .ok c) : c.Filled := by
  unfold zipWith at h
  split at h
  · cases h
  · obtain ⟨left, -, h⟩ := bind_eq_ok h
    obtain ⟨right, -, h⟩ := bind_eq_ok h
    exact Except.ok.inj h ▸ filled_range _ _ _

/-- A sum has a cell for each multi-index of its shape from the start. -/
theorem filled_sum (h : t.sum options = .ok s) : s.Filled := by
  obtain ⟨reduced, -, h⟩ := bind_eq_ok h
  obtain rfl := Except.ok.inj h
  have hmodify : ∀ (linears : List Nat) (cells : Array α), (linears.foldl
      (fun cells linear => cells.modify (targetCell t.shape reduced linear) fun total =>
        Scalar.combine .add total (t.entry linear)) cells).size = cells.size := by
    intro linears
    induction linears with
    | nil => exact fun _ => rfl
    | cons linear linears ih => exact fun cells => (ih _).trans Array.size_modify
  exact (hmodify _ _).trans Array.size_replicate

theorem filled_mean (h : t.mean options = .ok m) : m.Filled := by
  obtain ⟨s, -, h⟩ := bind_eq_ok h
  exact Except.ok.inj h ▸ filled_map s _

end Tensor

/-! ## Values that are kept in natural sizes -/

theorem LooseTensor.roomy_of_isExact {shape : List Nat} {strides : List Int} {offset : Int}
    (h : isExact shape strides offset = true) : Shape.Roomy shape := by
  simp only [isExact, Bool.and_eq_true, decide_eq_true_eq] at h
  have hall : (shape.map fun d => max d 1).filter (· ≠ 0) = shape.map fun d => max d 1 := by
    rw [List.filter_eq_self]
    intro d hd
    obtain ⟨d, -, rfl⟩ := List.mem_map.1 hd
    exact decide_eq_true (by omega)
  have hroomy : Shape.Roomy (shape.map fun d => max d 1) := by
    rw [Shape.Roomy, hall]
    exact h.1
  have hle : Shape.Roomy (shape.map id) := hroomy.map_le fun d =>
    (Nat.le_max_left d 1).trans (Nat.le_max_left _ 1)
  rwa [List.map_id] at hle

theorem LooseTensor.toTensor?_ofTensor {α : Type} {t : Tensor α}
    (h : isExact t.shape t.strides t.offset = true) : (ofTensor t).toTensor? = some t := by
  have hshape : (t.shape.map Number.ofNat).mapM plainSize? = some t.shape := by
    refine mapM_eq_some_iff.2 (List.forall₂_map_left_iff.2 (List.forall₂_same.2 fun _ _ => rfl))
  have hstrides : (t.strides.map Number.int).mapM Number.toInt? = some t.strides :=
    mapM_eq_some_iff.2 (List.forall₂_map_left_iff.2 (List.forall₂_same.2 fun _ _ => rfl))
  simp only [toTensor?, ofTensor, hshape, hstrides, Number.toInt?_int, Option.bind_eq_bind,
    Option.bind_some]
  exact dif_pos ⟨t.strided, h⟩

/-- What a kernel fills is kept in natural sizes, if its layout is exact. -/
theorem Value.made_eq_whole {α : Type} {t : Tensor α} (hfilled : t.Filled)
    (h : LooseTensor.isExact t.shape t.strides t.offset = true) : made t = .ok (.whole t) := by
  have hroomy := LooseTensor.roomy_of_isExact h
  have hcount : Shape.bufferLengthOf (Shape.measured t.shape) = .ok t.size := by
    rw [hroomy.measured]
    exact Shape.bufferLengthOf_ofNat hroomy.size_lt
  simp only [made, hcount, hfilled.constructed hroomy, ofLoose, LooseTensor.toTensor?_ofTensor h, bind,
    Except.bind]
  rfl

end TensorGraph
