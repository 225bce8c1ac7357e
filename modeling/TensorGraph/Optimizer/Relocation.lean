import TensorGraph.Graph.LiteralOps
import TensorGraph.Optimizer.Bypass
import TensorGraph.Optimizer.Transposition

/-!
# Moving a transposition below an operator

An operator that reads a transposed value can be rebuilt on the layout before the
transposition when each of its operands is one of three: the transposed value itself,
another value transposed in the same way, or a constant, whose entries are rearranged.
The transposition is then put behind the operator. The operator takes over the name of
the transposed value, and the transposition keeps the name of its node, so that only the
wiring changes.

## Main results

* `Relocation.plan_length` -- a plan has an operand for each input.
-/

namespace TensorGraph.Relocation

/-- Which constants may be brought into the other layout. -/
inductive ConstantPolicy where
  | none
  /-- Constants that broadcast to the rank of the permutation. -/
  | broadcast
  /-- Constants of the rank of the permutation. -/
  | exact
  deriving DecidableEq, Repr

/-- What an operand is replaced by. -/
inductive Operand where
  | value (name : String)
  | constant (name : String) (place : Nat) (node : Node) (permuted : Literal)

/-- The operands of the rebuilt operator, and the names of transposing nodes that it no
longer needs. -/
structure Plan where
  operands : List Operand := []
  absorbed : List String := []

/-- The value before an equal transposition, and the name of the node that transposes. -/
def equallyTransposed? (s : Surroundings) (g : Graph) (perm : List Nat) (value : String) :
    Option (String × String) :=
  match g.producer? value with
  | none => none
  | some n =>
      let source := n.inputs.headD ""
      let rank := rank? s.enclosing g source
      if resolvePermutation s.enclosing g n none = some perm &&
          (rank = none || rank = some perm.length) then
        some (source, n.name)
      else none

/-- Whether a constant of some rank may be rearranged. -/
def ConstantPolicy.fits (policy : ConstantPolicy) (rank : Nat) (perm : List Nat) : Bool :=
  match policy with
  | .none => false
  | .broadcast => rank ≤ perm.length
  | .exact => rank = perm.length

/-- The constant that produces a value, rearranged into the layout before `perm`. -/
def rearrangedConstant? (g : Graph) (perm : List Nat) (policy : ConstantPolicy)
    (value : String) : Except Failure (Option Operand) :=
  match g.producerPlace? value, g.producer? value with
  | some place, some n =>
      match n.constant? with
      | none => .ok none
      | some literal =>
          if policy.fits literal.dims.length perm then do
            let padded ← literal.padToRank (.ofNat perm.length)
            return some (.constant value place n (← padded.transpose (Permutation.invert perm)))
          else .ok none
  | _, _ => .ok none

/-- What an operand is replaced by, and the transposing nodes that are no longer needed then.
There is nothing for an operand that would need a transposition of its own. -/
def operand? (s : Surroundings) (g : Graph) (source transposed : String) (perm : List Nat)
    (policy : ConstantPolicy) (value : String) :
    Except Failure (Option (Operand × List String)) :=
  if value = transposed then .ok (some (.value source, []))
  else if value = "" then .ok none
  else
    match equallyTransposed? s g perm value with
    | some (inner, name) => .ok (some (.value inner, [name]))
    | none => (rearrangedConstant? g perm policy value).map fun found => found.map (·, [])

/-- Plans the operands of an operator whose input `transposed` is `source` transposed by
`perm`. Without a replacement for each of them there is no plan. -/
def plan (s : Surroundings) (g : Graph) (source transposed : String) (perm : List Nat)
    (policy : ConstantPolicy) : List String → Except Failure (Option Plan)
  | [] => .ok (some {})
  | value :: rest => do
      match ← operand? s g source transposed perm policy value with
      | none => return none
      | some (operand, absorbed) =>
          return (← plan s g source transposed perm policy rest).map fun later =>
            { operands := operand :: later.operands, absorbed := absorbed ++ later.absorbed }

theorem plan_length {s : Surroundings} {g : Graph} {source transposed : String} {perm : List Nat}
    {policy : ConstantPolicy} {inputs : List String} {p : Plan}
    (h : plan s g source transposed perm policy inputs = .ok (some p)) :
    p.operands.length = inputs.length := by
  induction inputs generalizing p with
  | nil =>
      obtain rfl := Option.some.inj (Except.ok.inj h)
      rfl
  | cons value rest ih =>
      rw [plan] at h
      cases hvalue : operand? s g source transposed perm policy value with
      | error => simp [hvalue, bind, Except.bind] at h
      | ok found =>
          cases found with
          | none => simp [hvalue, bind, Except.bind, pure, Except.pure] at h
          | some found =>
              cases hrest : plan s g source transposed perm policy rest with
              | error => simp [hvalue, hrest, bind, Except.bind] at h
              | ok later? =>
                  simp only [hvalue, hrest, bind, Except.bind, pure, Except.pure,
                    Except.ok.injEq] at h
                  obtain ⟨later, rfl, rfl⟩ := Option.map_eq_some_iff.1 h
                  simp [ih hrest]

/-- The graph with rearranged constants, and under which names they are found. A constant
that something else uses too is copied, any other one is changed where it stands. -/
def placeConstants (s : Surroundings) :
    List Operand → Graph → List (String × String) → Graph × List (String × String)
  | [], g, placed => (g, placed)
  | .value _ :: rest, g, placed => placeConstants s rest g placed
  | .constant name place node permuted :: rest, g, placed =>
      if (placed.lookup name).isSome then placeConstants s rest g placed
      else
        let shared := 1 < (g.readers name).length || g.isOutput name
        let target := if shared then s.fresh g (name ++ "_permuted") else name
        let changed :=
          if shared then g.addNode (Node.constant target target permuted)
          else
            g.putNode place
              { node with
                attributes := Attributes.set node.attributes "value" (.literal permuted)
                bookmarks := [] }
        let info : ValueInfo :=
          { name := target, dtype := some permuted.dtype, shape := some (permuted.dims.map some) }
        placeConstants s rest (changed.setInfo info) (placed ++ [(name, target)])

/-- The name under which the rebuilt operator reads an operand. -/
def Operand.inputName (placed : List (String × String)) : Operand → String
  | .value name => name
  | .constant name _ _ _ => (placed.lookup name).getD name

/-- Where a place ends up when another one is taken out of the list. -/
def placeAfterDropping (dropped place : Nat) : Option Nat :=
  if dropped = place then none else some (if dropped < place then place - 1 else place)

/-- Removes nodes that an operator no longer needs, as far as nothing else needs them. The
place of the operator moves along. -/
def removeAbsorbed : List String → Graph → Option Nat → Graph × Option Nat
  | [], g, place => (g, place)
  | name :: rest, g, place =>
      match g.place? name with
      | none => removeAbsorbed rest g place
      | some found =>
          match g.removeUnreferenced? found with
          | none => removeAbsorbed rest g place
          | some smaller => removeAbsorbed rest smaller (place.bind (placeAfterDropping found))

/-- Rebuilds the operator at `consumerPlace` on the layout before the transposition at
`place`, and puts the transposition behind it. -/
def apply (s : Surroundings) (g : Graph) (place : Nat) (transpose : Node) (consumerPlace : Nat)
    (consumer : Node) (perm : List Nat) (attributes : List (String × Attribute)) (p : Plan) :
    Except Stopped Graph := do
  let transposed := transpose.outputs.headD ""
  let yielded := consumer.outputs.headD ""
  let yieldedInfo := g.info? s.enclosing yielded
  let (arranged, placed) := placeConstants s p.operands g []
  let rebuilt : Node :=
    { consumer with
      inputs := p.operands.map (Operand.inputName placed), attributes, bookmarks := [] }
  let detached ← (arranged.putNode consumerPlace rebuilt).removeDisconnected
    { node := transpose, place := some place }
  let (cleaned, rebuiltPlace) :=
    removeAbsorbed p.absorbed detached (placeAfterDropping place consumerPlace)
  let rewired ← cleaned.orStop
    (cleaned.replaceNode { node := rebuilt, place := rebuiltPlace }
      { rebuilt with outputs := [transposed] })
  let behind : Node :=
    { transpose with
      inputs := [transposed], outputs := [yielded]
      attributes :=
        Attributes.set transpose.attributes "perm" (.numbers (spelledPermutation transpose perm))
      bookmarks := [] }
  let moved := rewired.addNode behind
  match yieldedInfo with
  | some info =>
      let shape := info.shape.bind fun dims =>
        if dims.length = perm.length then
          some (Permutation.arrange dims (Permutation.invert perm))
        else none
      return moved.setInfo { name := transposed, dtype := info.dtype, shape }
  | none => return moved.eraseInfo transposed

end TensorGraph.Relocation
