import TensorGraph.Execution.Value
import TensorGraph.Proofs.Entering

/-!
# Kernels lack nothing

Kernels fail for many reasons, but never because a name is not bound, an input was fed nothing or an
output was not yielded. Only the run of a graph says that.

## Main results

* `LooseTensor.provided_concat`, `LooseTensor.provided_take` -- joining and picking rows.
* `provided_kernel` -- whatever the values are, a kernel lacks nothing if its steps do not.
* `Value.supplies_standard` -- the kernels of this library lack nothing on unchecked values.
-/

namespace TensorGraph

open Avoids

/-! ## Layout -/

theorem Shape.provided_lengthOf (x : Number) : Provided (lengthOf x) := by
  unfold lengthOf
  split
  · split
    · exact ok _
    · exact error rfl
  · exact error rfl

theorem Shape.provided_bufferLengthOf (x : Number) : Provided (bufferLengthOf x) := by
  unfold bufferLengthOf
  split
  · split
    · exact ok _
    · exact error rfl
  · exact error rfl

namespace Tensor

theorem provided_distinctAxes (rank : Nat) (before : List Nat) (perm : List Number) :
    Provided (distinctAxes rank before perm) := by
  induction perm generalizing before with
  | nil => exact ok _
  | cons x rest ih =>
      unfold distinctAxes
      split
      · exact error rfl
      · split
        · exact error rfl
        · split
          · exact error rfl
          · exact (ih _).map _

theorem provided_reduced (options : ReduceOptions) (rank : Nat) : Provided (options.reduced rank) := by
  unfold ReduceOptions.reduced
  split
  · exact ok _
  · refine mapM fun axis _ => ?_
    split
    · exact ok _
    · exact error rfl

variable {α : Type}

theorem provided_permute (t : Tensor α) (perm : List Number) : Provided (t.permute perm) := by
  unfold permute
  split
  · exact (provided_distinctAxes _ _ _).map _
  · exact error rfl

theorem provided_stretchedStrides (dims : List Nat) (strides : List Int) (targets : List Nat) :
    Provided (stretchedStrides dims strides targets) := by
  fun_induction stretchedStrides dims strides targets with
  | case1 _ _ _ _ _ ih => exact ih.map _
  | case2 _ _ _ _ _ _ ih => exact ih.map _
  | case3 => exact error rfl
  | case4 => exact ok _

theorem provided_stretchTo (t : Tensor α) (target : List Nat) : Provided (t.stretchTo target) := by
  unfold stretchTo
  split
  · exact ok _
  · split
    · exact error rfl
    · dsimp only
      split
      · rename_i e hstrides
        exact error (provided_stretchedStrides _ _ _ e hstrides)
      · exact ok _

variable [Scalar α]

theorem provided_zipWith (f : α → α → α) (a b : Tensor α) : Provided (zipWith f a b) := by
  unfold zipWith
  split
  · exact error rfl
  · exact (provided_stretchTo _ _).bind fun _ => (provided_stretchTo _ _).bind fun _ => ok _

theorem provided_sum (t : Tensor α) (options : ReduceOptions) : Provided (t.sum options) :=
  (provided_reduced _ _).bind fun _ => ok _

theorem provided_mean (t : Tensor α) (options : ReduceOptions) : Provided (t.mean options) :=
  (t.provided_sum options).bind fun _ => ok _

theorem provided_concat (tensors : List (Tensor α)) (axis : Number) :
    Provided (concat tensors axis) := by
  unfold concat
  split
  · exact error rfl
  · split
    · exact error rfl
    · split
      · exact error rfl
      · exact ok _

theorem provided_rowIndex (size : Nat) (x : Number) : Provided (rowIndex size x) := by
  unfold rowIndex
  split
  · exact error rfl
  · rename_i n _
    dsimp only
    generalize (if n < 0 then n + (size : Int) else n) = index
    split
    · exact error rfl
    · exact ok _

theorem provided_take (t indices : Tensor α) : Provided (t.take indices) := by
  unfold take
  split
  · exact error rfl
  · exact (mapM fun _ _ => provided_rowIndex _ _).bind fun _ => ok _

theorem provided_single (t : Tensor α) (what : String) : Provided (t.single what) := by
  unfold single
  split
  · exact ok _
  · exact error rfl

end Tensor

/-! ## Loose tensors -/

namespace LooseTensor

variable {α : Type}

theorem provided_ofParts (dtype : DType) (shape : List Number) (data : Array α) :
    Provided (ofParts dtype shape data) := by
  unfold ofParts
  split
  · exact ok _
  · exact error rfl

theorem provided_elements (t : LooseTensor α) : Provided t.elements :=
  (Shape.provided_lengthOf _).map _

theorem provided_permute (t : LooseTensor α) (perm : List Number) : Provided (t.permute perm) := by
  unfold permute
  dsimp only
  split
  · exact (Tensor.provided_distinctAxes _ _ _).map _
  · exact error rfl

theorem provided_stretchedStrides (dims strides targets : List Number) :
    Provided (stretchedStrides dims strides targets) := by
  fun_induction stretchedStrides dims strides targets with
  | case1 _ _ _ _ _ _ ih => exact ih.map _
  | case2 _ _ _ _ _ _ _ ih => exact ih.map _
  | case3 => exact error rfl
  | case4 => exact ok _

theorem provided_stretchTo (t : LooseTensor α) (target : List Number) :
    Provided (t.stretchTo target) := by
  unfold stretchTo
  dsimp only
  split
  · exact ok _
  · split
    · exact error rfl
    · exact (provided_stretchedStrides _ _ _).map _

theorem provided_overwrite (buffer : Array α) (place : Number) (run : Array α) :
    Provided (overwrite buffer place run) := by
  unfold overwrite
  split
  · split
    · exact ok _
    · exact error rfl
  · exact error rfl

theorem provided_joinAxis (tensors : List (LooseTensor α)) (axis : Number) :
    Provided (joinAxis tensors axis) := by
  unfold joinAxis
  split
  · exact error rfl
  · split
    · exact error rfl
    · split
      · exact error rfl
      · exact ok _

theorem provided_rowIndex (size x : Number) : Provided (rowIndex size x) := by
  unfold rowIndex
  split
  · exact error rfl
  · dsimp only
    generalize (if x.below (.int 0) then x.plus size else x) = index
    split
    · exact error rfl
    · exact ok _

theorem provided_filled (dtype : DType) (shape : List Number) (f : Nat → α) :
    Provided (filled dtype shape f) :=
  (Shape.provided_bufferLengthOf _).bind fun _ => provided_ofParts _ _ _

variable [Scalar α]

theorem provided_contiguous (t : LooseTensor α) : Provided t.contiguous := by
  unfold contiguous
  split
  · exact ok _
  · exact provided_filled _ _ _

theorem provided_zipWith (f : α → α → α) (a b : LooseTensor α) : Provided (zipWith f a b) := by
  unfold zipWith
  split
  · exact error rfl
  · exact (provided_stretchTo _ _).bind fun _ => (provided_stretchTo _ _).bind fun _ =>
      provided_filled _ _ _

theorem provided_sum (t : LooseTensor α) (options : Tensor.ReduceOptions) :
    Provided (t.sum options) :=
  (Tensor.provided_reduced _ _).bind fun _ => (Shape.provided_bufferLengthOf _).bind fun _ =>
    provided_ofParts _ _ _

theorem provided_mean (t : LooseTensor α) (options : Tensor.ReduceOptions) :
    Provided (t.mean options) :=
  (t.provided_sum options).bind fun _ => provided_filled _ _ _

theorem provided_concat (tensors : List (LooseTensor α)) (axis : Number) :
    Provided (concat tensors axis) := by
  unfold concat
  refine (provided_joinAxis _ _).bind fun dim => ?_
  split
  · exact error rfl
  · refine (Shape.provided_bufferLengthOf _).bind fun count =>
      (mapM fun t _ => t.provided_contiguous).bind fun parts =>
        (foldlM (fun cells step _ => ?_) _).bind fun _ => provided_ofParts _ _ _
    exact (provided_overwrite _ _ _).bind fun _ => ok _

theorem provided_take (t indices : LooseTensor α) : Provided (t.take indices) := by
  unfold take
  split
  · exact error rfl
  · refine (provided_contiguous _).bind fun source => ((provided_elements _).map _).bind fun picks =>
      (Shape.provided_bufferLengthOf _).bind fun count =>
        (foldlM (fun buffer pick _ => ?_) _).bind fun _ => provided_ofParts _ _ _
    exact (provided_rowIndex _ _).bind fun _ => provided_overwrite _ _ _

end LooseTensor

/-! ## Kernels -/

open Operand

/-- Whether what kernels do with values lacks nothing. -/
structure Operand.Supplies (V : Type) [Operand V] : Prop where
  ofLiteral : ∀ l, Provided (Operand.ofLiteral l : Except Failure V)
  rank : ∀ v : V, Provided (Operand.rank v)
  elements : ∀ v : V, Provided (Operand.elements v)
  apply : ∀ f (v : V), Provided (Operand.apply f v)
  combine : ∀ f (a b : V), Provided (Operand.combine f a b)
  permute : ∀ (v : V) perm, Provided (Operand.permute v perm)
  contiguous : ∀ v : V, Provided (Operand.contiguous v)
  sizes : ∀ v : V, Provided (Operand.sizes v)
  take : ∀ a b : V, Provided (Operand.take a b)
  concat : ∀ (values : List V) axis, Provided (Operand.concat values axis)
  sum : ∀ (v : V) options, Provided (Operand.sum v options)
  mean : ∀ (v : V) options, Provided (Operand.mean v options)

section

variable {V : Type} [Operand V] (hV : Operand.Supplies V)
include hV

theorem provided_reductionOptions (n : Node) (inputs : List V) :
    Provided (reductionOptions n inputs) := by
  refine map ?_ _
  unfold reductionAxes
  split
  · exact (hV.elements _).map _
  · exact ok _

theorem provided_namedKernel (n : Node) (inputs : List V) : Provided (namedKernel n inputs) := by
  have hoperand : ∀ i, Provided (operand n inputs i) := Evaluation.provided_operand inputs
  unfold namedKernel
  split
  · split
    · exact error rfl
    · exact (hV.ofLiteral _).bind fun _ => ok _
  · exact ok _
  · refine (hoperand 0).bind fun x => (hV.rank x).bind fun rank => (hV.permute x _).bind fun turned => ?_
    exact (hV.contiguous turned).bind fun _ => ok _
  · exact (hoperand 0).bind fun x => (hV.apply _ x).bind fun _ => ok _
  · exact (hoperand 0).bind fun x => (hV.apply _ x).bind fun _ => ok _
  · exact (hoperand 0).bind fun x => (hV.apply _ x).bind fun _ => ok _
  · exact (hoperand 0).bind fun x => (hV.sizes x).bind fun _ => ok _
  · split
    · exact error rfl
    · refine (hoperand 0).bind fun x => (hV.rank x).bind fun rank => ?_
      split
      · exact error rfl
      · exact (hV.contiguous x).bind fun source => (hoperand 1).bind fun indices =>
          (hV.take source indices).bind fun _ => ok _
  · split
    · exact error rfl
    · exact (hV.concat _ _).bind fun _ => ok _
  · exact (provided_reductionOptions hV n inputs).bind fun options => (hoperand 0).bind fun x =>
      (hV.sum x options).bind fun _ => ok _
  · exact (provided_reductionOptions hV n inputs).bind fun options => (hoperand 0).bind fun x =>
      (hV.mean x options).bind fun _ => ok _
  · exact error rfl

theorem provided_kernel (n : Node) (inputs : List V) : Provided (kernel n inputs) := by
  unfold kernel
  split
  · exact (Evaluation.provided_operand inputs 0).bind fun x => (hV.apply _ x).bind fun _ => ok _
  · split
    · split
      · exact error rfl
      · exact (foldlM (fun a b _ => hV.combine _ a b) _).bind fun _ => ok _
    · exact provided_namedKernel hV n inputs

end

/-! ## Unchecked values -/

namespace Value

variable {α : Type}

theorem provided_toLoose (v : Value α) : Provided v.toLoose := by
  cases v with
  | whole t => exact ok _
  | loose t => exact ok _
  | alien => exact error rfl

theorem provided_made (t : Tensor α) : Provided (made t) := by
  refine (Shape.provided_bufferLengthOf _).bind fun _ => .bind ?_ fun _ => ok _
  unfold Tensor.constructed
  split
  · exact ok _
  · exact error rfl

theorem provided_compute {whole : Tensor α → Except Failure (Tensor α)}
    {loose : LooseTensor α → Except Failure (LooseTensor α)} (hwhole : ∀ t, Provided (whole t))
    (hloose : ∀ t, Provided (loose t)) (v : Value α) : Provided (v.compute whole loose) := by
  cases v with
  | whole t => exact (hwhole t).map _
  | loose t => exact (hloose t).map _
  | alien => exact error rfl

theorem provided_compute₂ {whole : Tensor α → Tensor α → Except Failure (Tensor α)}
    {loose : LooseTensor α → LooseTensor α → Except Failure (LooseTensor α)}
    (hwhole : ∀ a b, Provided (whole a b)) (hloose : ∀ a b, Provided (loose a b)) (a b : Value α) :
    Provided (compute₂ whole loose a b) := by
  unfold compute₂
  split
  · exact (hwhole _ _).bind fun _ => provided_made _
  · exact (provided_toLoose _).bind fun _ => (provided_toLoose _).bind fun _ =>
      (hloose _ _).bind fun _ => ok _

theorem provided_elements (v : Value α) : Provided v.elements := by
  cases v with
  | whole t => exact ok _
  | loose t => exact t.provided_elements
  | alien => exact error rfl

variable [Scalar α]

theorem provided_concat (values : List (Value α)) (axis : Number) :
    Provided (concat values axis) := by
  unfold concat
  split
  · exact (Tensor.provided_concat _ _).bind fun _ => provided_made _
  · dsimp only
    split
    · exact error rfl
    · split
      · exact (LooseTensor.provided_concat _ _).bind fun _ => ok _
      · exact (LooseTensor.provided_joinAxis _ _).bind fun _ => error rfl

theorem provided_single (v : Value α) (what : String) : Provided (v.single what) := by
  unfold single
  split
  · exact (Tensor.provided_single _ _).map _
  · split
    · exact ok _
    · exact error rfl
  · exact error rfl

theorem supplies : Operand.Supplies (Value α) where
  ofLiteral _ := (LooseTensor.provided_ofParts _ _ _).map _
  rank v := v.provided_toLoose.map _
  elements v := v.provided_elements.map _
  apply _ := provided_compute (fun _ => ok _) fun _ => LooseTensor.provided_filled _ _ _
  combine _ := provided_compute₂ (Tensor.provided_zipWith _) (LooseTensor.provided_zipWith _)
  permute v perm := v.provided_compute (fun t => t.provided_permute perm) fun t => t.provided_permute perm
  contiguous := provided_compute (fun _ => ok _) LooseTensor.provided_contiguous
  sizes v := v.provided_toLoose.bind fun _ => ok _
  take := provided_compute₂ Tensor.provided_take LooseTensor.provided_take
  concat := provided_concat
  sum v options := v.provided_compute (fun t => t.provided_sum options) fun t => t.provided_sum options
  mean v options := v.provided_compute (fun t => t.provided_mean options) fun t => t.provided_mean options

/-- The kernels of this library lack nothing, whatever they are run on. -/
theorem supplies_standard (budget : Nat) :
    (Evaluation.Machine.standard budget : Evaluation.Machine (Value α)).Supplies where
  compute := provided_kernel supplies
  single := provided_single

end Value

end TensorGraph
