import TensorGraph.Execution.Operand
import TensorGraph.Inherited
import TensorGraph.Tensor.Loose

/-!
# Values

What a graph may be run on when nobody has checked its feeds. A value is a tensor where the
sizes are natural and everything lies in the exact range of doubles, a loose tensor where
they are not, and something alien where an input is fed nothing but has an inherited name.
Alien values are handed on; a kernel that looks at one fails.

## Main results

* `LooseTensor.toTensor?_dtype` -- the tensor of a loose one has its element type.
* `Value.unfed_eq_none_iff` -- an input reads something alien exactly when its name is
  inherited.
-/

namespace TensorGraph

namespace LooseTensor

variable {α : Type}

/-- A tensor as a loose one. -/
def ofTensor (t : Tensor α) : LooseTensor α :=
  { dtype := t.dtype, shape := t.shape.map .ofNat, strides := t.strides.map .int
    offset := .int t.offset, data := t.data }

/-- How far from the start of the buffer an element may lie. -/
def reach (shape : List Nat) (strides : List Int) (offset : Int) : Nat :=
  (shape.zip strides).foldl (fun total (d, stride) => total + max d 1 * stride.natAbs)
    offset.natAbs

/-- Whether a shape and what lies at its strides are small enough to count exactly. -/
def isExact (shape : List Nat) (strides : List Int) (offset : Int) : Bool :=
  Shape.size (shape.map fun d => max d 1) < Permutation.lengthLimit &&
    reach shape strides offset < exactRange

/-- The natural number that a size is, the negative zero apart. -/
def plainSize? : Number → Option Nat
  | .int n => n.toNat?
  | .real _ => none

/-- The tensor that a loose one is, if its layout is in natural sizes and exact. -/
def toTensor? (t : LooseTensor α) : Option (Tensor α) := do
  let shape ← t.shape.mapM plainSize?
  let strides ← t.strides.mapM Number.toInt?
  let offset ← t.offset.toInt?
  if h : strides.length = shape.length ∧ isExact shape strides offset then
    some { dtype := t.dtype, shape, strides, offset, data := t.data, strided := h.1 }
  else none

theorem toTensor?_dtype {t : LooseTensor α} {u : Tensor α} (h : t.toTensor? = some u) :
    u.dtype = t.dtype := by
  simp only [toTensor?, Option.bind_eq_bind, Option.bind_eq_some_iff] at h
  obtain ⟨shape, -, strides, -, offset, -, h⟩ := h
  split at h
  · obtain rfl := Option.some.inj h
    rfl
  · cases h

end LooseTensor

/-- What a graph is run on. -/
inductive Value (α : Type) where
  | whole (t : Tensor α)
  | loose (t : LooseTensor α)
  /-- Something that is no tensor. -/
  | alien

namespace Value

variable {α : Type}

/-- The value of a loose tensor. -/
def ofLoose (t : LooseTensor α) : Value α :=
  match t.toTensor? with
  | some u => .whole u
  | none => .loose t

/-- A value as a loose tensor. -/
def toLoose : Value α → Except Failure (LooseTensor α)
  | .whole t => .ok (.ofTensor t)
  | .loose t => .ok t
  | .alien => .error .notTensor

/-- The value of a tensor with a buffer of its own, which must be as long as the sizes say. -/
def made (t : Tensor α) : Except Failure (Value α) := do
  let _ ← Shape.bufferLengthOf (Shape.measured t.shape)
  return ofLoose (.ofTensor (← t.constructed))

/-- What is computed from a value, in natural sizes or in loose ones. The sizes that are not zero do
not multiply to more afterwards, so that exact ones stay exact. -/
def compute (whole : Tensor α → Except Failure (Tensor α))
    (loose : LooseTensor α → Except Failure (LooseTensor α)) : Value α → Except Failure (Value α)
  | .whole t => (whole t).map .whole
  | .loose t => (loose t).map ofLoose
  | .alien => .error .notTensor

/-- What is made of two values: in natural sizes if both have them. -/
def compute₂ (whole : Tensor α → Tensor α → Except Failure (Tensor α))
    (loose : LooseTensor α → LooseTensor α → Except Failure (LooseTensor α)) :
    Value α → Value α → Except Failure (Value α)
  | .whole a, .whole b => do made (← whole a b)
  | a, b => do return ofLoose (← loose (← a.toLoose) (← b.toLoose))

/-- The tensors with natural sizes, if all values are such. -/
def wholes? (values : List (Value α)) : Option (List (Tensor α)) :=
  values.mapM fun
    | .whole t => some t
    | _ => none

variable [Scalar α]

/-- The value put together from its parts. -/
def ofParts (dtype : DType) (shape : List Number) (data : Array α) : Except Failure (Value α) :=
  (LooseTensor.ofParts dtype shape data).map ofLoose

/-- The values one after the other along an axis. What comes before something alien is still
looked at. -/
def concat (values : List (Value α)) (axis : Number) : Except Failure (Value α) :=
  match wholes? values with
  | some tensors => do made (← Tensor.concat tensors axis)
  | none => do
      let known := ((values.map fun v => v.toLoose.toOption).takeWhile Option.isSome).filterMap id
      if known.isEmpty then .error .notTensor
      else if known.length = values.length then
        return ofLoose (← LooseTensor.concat known axis)
      else
        let _ ← LooseTensor.joinAxis known axis
        .error .notTensor

/-- The elements of a value in row-major order; one that lies outside of the buffer is
missing. -/
def elements : Value α → Except Failure (List (Option α))
  | .whole t => .ok ((List.range t.size).map t.at?)
  | .loose t => t.elements
  | .alien => .error .notTensor

/-- The only element of a value. -/
def single (v : Value α) (what : String) : Except Failure Number :=
  match v with
  | .whole t => (t.single what).map Scalar.toNumber
  | .loose t =>
      if t.size.same (.int 1) then .ok (Scalar.toNumber (t.entry 0))
      else .error (.notSingle what t.shape)
  | .alien => .error .notTensor

instance : Operand (Value α) where
  ofLiteral l := ofParts l.dtype l.dims (l.data.map Scalar.ofNumber).toArray
  scalar dtype x := .whole (.scalar dtype (Scalar.ofNumber x))
  rank v := v.toLoose.map fun t => t.shape.length
  elements v := v.elements.map fun found => found.map fun x => x.map Scalar.toNumber
  single := single
  apply f := compute (fun t => .ok (t.apply f)) (fun t => t.map (Scalar.apply f))
  combine f := compute₂ (Tensor.combine f) (LooseTensor.zipWith (Scalar.combine f))
  permute v perm := v.compute (fun t => t.permute perm) (fun t => t.permute perm)
  contiguous := compute (fun t => .ok t.contiguous) LooseTensor.contiguous
  sizes v := do
    let t ← v.toLoose
    return .whole (.packed .int64 [t.shape.length] (t.shape.map Scalar.ofNumber).toArray)
  take := compute₂ Tensor.take LooseTensor.take
  concat := concat
  sum v options := v.compute (fun t => t.sum options) (fun t => t.sum options)
  mean v options := v.compute (fun t => t.mean options) (fun t => t.mean options)
  unfed name := (Inherited.ofName? name).map fun _ => .alien

theorem unfed_eq_none_iff (name : String) :
    (Operand.unfed name : Option (Value α)) = none ↔ Inherited.ofName? name = none :=
  Option.map_eq_none_iff

end Value

end TensorGraph
