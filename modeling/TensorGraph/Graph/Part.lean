import TensorGraph.Failure
import TensorGraph.Graph.Form
import TensorGraph.Shape.Rounded

/-!
# Places of the interchange form

The interchange form place by place: what is to stand where in a value. A part of the form says
what can be seen at a place by itself, and which parts are below it; a path leads from part to
part. A place where nothing stands, though something has to, is a place too.

## Main results

* `AreSizes.unique` -- a list of numbers stands for one list of sizes only.
-/

namespace TensorGraph

/-- A list of numbers stands for one list of sizes only. -/
theorem AreSizes.unique {items : List Json} {dims dims' : List Nat} (h : AreSizes items dims)
    (h' : AreSizes items dims') : dims = dims' := by
  induction items generalizing dims dims' with
  | nil =>
      cases dims with
      | nil =>
          cases dims' with
          | nil => rfl
          | cons => exact h'.elim
      | cons => exact h.elim
  | cons j items ih =>
      cases dims with
      | nil => exact h.elim
      | cons d dims =>
          cases dims' with
          | nil => exact h'.elim
          | cons d' dims' =>
              obtain ⟨⟨x, hx, -, hd⟩, hrest⟩ := h
              obtain ⟨⟨x', hx', -, hd'⟩, hrest'⟩ := h'
              obtain rfl : x = x' := Json.num.inj (hx.symm.trans hx')
              obtain rfl : d = d' := Option.some.inj (hd.symm.trans hd')
              rw [ih hrest hrest']

/-! ## Parts -/

/-- What is to stand at a place. -/
inductive Part where
  | text
  | number
  | size
  | sizeOrUnknown
  | elementType
  | list (item : Part)
  | info
  | literal
  /-- The entries of a literal tensor that has these sizes. -/
  | entries (sizes : List Nat)
  | attribute
  | attributes
  | node
  | graph
  deriving DecidableEq, Repr

/-- What an attribute is by itself: a finite number, a text, an array, or an object that is marked
as a literal tensor or a body graph. -/
def IsAttributeKind : Json → Prop
  | .str _ | .arr _ => True
  | .obj members => (members.lookup "tensor").isSome ∨ (members.lookup "graph").isSome
  | j => IsNumberForm j

namespace Part

/-- Whether what stands at a place is right by itself, whatever is below it. -/
def Fits : Part → Option Json → Prop
  | .text, j => IsTextForm j
  | .number, j => ∃ inner, j = some inner ∧ IsNumberForm inner
  | .size, j => ∃ inner, j = some inner ∧ IsSizeForm inner
  | .sizeOrUnknown, j => ∃ inner, j = some inner ∧ (inner = .null ∨ IsSizeForm inner)
  | .elementType, j => ∃ inner, j = some inner ∧ IsDTypeForm inner
  | .list _, j => ∃ items, j = some (.arr items)
  | .entries sizes, j =>
      ∃ items, j = some (.arr items) ∧ items.length = Shape.size sizes ∧
        Shape.size sizes < exactRange
  | .attribute, j => ∃ inner, j = some inner ∧ IsAttributeKind inner
  | _, j => ∃ members, j = some (.obj members)

/-- The members that an object has in the form: the key, whether it has to be there, and what is to
stand under it. -/
def members : Part → List (String × Bool × Part)
  | .info =>
      [("name", true, .text), ("dtype", false, .elementType),
        ("shape", false, .list .sizeOrUnknown)]
  | .literal =>
      [("dtype", true, .elementType), ("dims", true, .list .size), ("data", true, .list .number)]
  | .node =>
      [("name", true, .text), ("op", true, .text), ("inputs", true, .list .text),
        ("outputs", true, .list .text), ("attributes", false, .attributes)]
  | .graph =>
      [("name", true, .text), ("inputs", true, .list .info), ("outputs", true, .list .info),
        ("valueInfo", false, .list .info), ("nodes", true, .list .node)]
  | _ => []

/-- What is to stand one step below a value that stands at a place. -/
inductive Leads : Part → Json → Json.Step → Part → Prop
  | item {part : Part} {items : List Json} {i : Nat} : i < items.length →
      Leads (.list part) (.arr items) (.index i) part
  | member {part below : Part} {written : List (String × Json)} {key : String} {needed : Bool} :
      (key, needed, below) ∈ part.members → needed = true ∨ (written.lookup key).isSome →
      Leads part (.obj written) (.key key) below
  | entries {written : List (String × Json)} {dims : List Json} {sizes : List Nat} :
      written.lookup "dims" = some (.arr dims) → AreSizes dims sizes →
      Leads .literal (.obj written) (.key "data") (.entries sizes)
  | entry {written : List (String × Json)} {key : String} : (written.lookup key).isSome →
      Leads .attributes (.obj written) (.key key) .attribute
  | numbers {items : List Json} {i : Nat} : i < items.length →
      Leads .attribute (.arr items) (.index i) .number
  | literal {written : List (String × Json)} : (written.lookup "tensor").isSome →
      Leads .attribute (.obj written) (.key "tensor") .literal
  | body {written : List (String × Json)} : written.lookup "tensor" = none →
      (written.lookup "graph").isSome → Leads .attribute (.obj written) (.key "graph") .graph

/-- What is to stand where a path leads, from a place of a part on. -/
inductive Reaches : Part → Option Json → Json.Path → Part → Prop
  | here {part : Part} {j : Option Json} : Reaches part j [] part
  | there {part next last : Part} {j : Json} {step : Json.Step} {rest : Json.Path} :
      Leads part j step next → Reaches next (j.step? step) rest last →
      Reaches part (some j) (step :: rest) last

/-- Whether the number of entries, computed in doubles, is no number. -/
def Uncounted (part : Part) : Prop := ∃ sizes, part = .entries sizes ∧ Shape.measured sizes = .nan

end Part

/-! ## Places in graphs -/

/-- Whether an expectation of the reader is met by what stands at a place. -/
def Expectation.IsMet : Expectation → Option Json → Prop
  | .object, j => ∃ members, j = some (.obj members)
  | .string, j => IsTextForm j
  | .array, j => ∃ items, j = some (.arr items)
  | .number, j => ∃ inner, j = some inner ∧ IsNumberForm inner
  | .size, j => ∃ inner, j = some inner ∧ IsSizeForm inner
  | .sizeOrUnknown, j => ∃ inner, j = some inner ∧ (inner = .null ∨ IsSizeForm inner)
  | .elementType, j => ∃ inner, j = some inner ∧ IsDTypeForm inner
  | .attribute, j => ∃ inner, j = some inner ∧ IsAttributeKind inner
  | .entries expected _, j => ∃ items, j = some (.arr items) ∧ expected = .ofInt items.length

/-- Whether a value that is to describe a graph violates the form where a path leads: what stands
there is not what is to stand there, nor what is expected there. -/
def Violates (j : Json) (path : Json.Path) (want : Expectation) : Prop :=
  ∃ part, Part.graph.Reaches (some j) path part ∧ ¬ part.Fits (j.at? path) ∧
    ¬ want.IsMet (j.at? path)

/-- Whether a path leads to the entries of a literal tensor whose number is no number in doubles. -/
def Overflows (j : Json) (path : Json.Path) : Prop :=
  ∃ part, Part.graph.Reaches (some j) path part ∧ part.Uncounted

end TensorGraph
