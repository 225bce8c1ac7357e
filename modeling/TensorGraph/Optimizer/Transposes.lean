import TensorGraph.Graph.Order
import TensorGraph.Optimizer.Relocation

/-!
# Removing transpositions

Transpositions are moved towards the outputs until they meet and cancel. For each one,
in dependency order, five rules are tried in turn:

* one that moves nothing is bypassed;
* of two that do the same to one value, one is dropped;
* one that feeds another is composed with it, or the two cancel;
* the sizes of a transposed value are those of the value itself, rearranged;
* one with a single transparent reader moves behind that reader.

After each change the search starts anew. When nothing applies any more the nodes are
sorted, if anything was changed.

## Main results

* `Transposes.treat_not_transpose` -- a node without a known permutation is left alone.
-/

namespace TensorGraph.Transposes

/-- A transposition at work: where it stands, and what it does. -/
structure PlacedTranspose where
  place : Nat
  node : Node
  perm : List Nat

namespace PlacedTranspose

/-- The value that is transposed. -/
def source (t : PlacedTranspose) : String := t.node.inputs.headD ""

/-- The transposed value. -/
def output (t : PlacedTranspose) : String := t.node.outputs.headD ""

/-- The permutation as numbers. -/
def spelled (t : PlacedTranspose) : List Number := spelledPermutation t.node t.perm

end PlacedTranspose

/-- The outcome of a rule: nothing, or the changed graph and the words for the change. -/
abbrev Outcome := Except Stopped (Option (Graph × String))

/-- A transposition that moves nothing is bypassed. -/
def dropIdentity (g : Graph) (t : PlacedTranspose) : Outcome :=
  if Permutation.isIdentity t.perm then do
    let (next, how) ← g.bypass { node := t.node, place := some t.place } t.source
    return some (next, "identity-perm (" ++ how.text ++ ")")
  else .ok none

/-! ## Equal transpositions -/

/-- Another transposition of the same value by the same permutation, such that not both
yield outputs of the graph. -/
def twin? (s : Surroundings) (g : Graph) (t : PlacedTranspose) : Option (Nat × Node) :=
  (g.readers t.source).findSome? fun place =>
    match g.nodes[place]? with
    | none => none
    | some other =>
        if place = t.place || other.inputs.head? != some t.source then none
        else if resolvePermutation s.enclosing g other (some t.perm.length) != some t.perm then none
        else if g.isOutput t.output && g.isOutput (other.outputs.headD "") then none
        else some (place, other)

/-- Of two equal transpositions the one whose result is an output of the graph is kept, or
else the first. -/
def mergeTwin (s : Surroundings) (g : Graph) (t : PlacedTranspose) : Outcome :=
  match twin? s g t with
  | none => .ok none
  | some (place, other) => do
      let here : NodeRef := { node := t.node, place := some t.place }
      let there : NodeRef := { node := other, place := some place }
      let (kept, dropped) :=
        if g.isOutput (other.outputs.headD "") then (there, here) else (here, there)
      let old := dropped.node.outputs.headD ""
      let new := kept.node.outputs.headD ""
      let next ← (g.replaceInputs old new).removeDisconnected (dropped.afterRewiring old new)
      return some (next, "merge " ++ dropped.node.name ++ " into " ++ kept.node.name)

/-! ## Transpositions in a row -/

/-- A transposition that reads the transposed value, of the same rank. -/
def successor? (s : Surroundings) (g : Graph) (t : PlacedTranspose) :
    Option (Nat × Node × List Nat) :=
  (g.readers t.output).findSome? fun place =>
    match g.nodes[place]? with
    | none => none
    | some consumer =>
        if consumer.inputs.head? != some t.output then none
        else
          match resolvePermutation s.enclosing g consumer (some t.perm.length) with
          | none => none
          | some next =>
              if next.length = t.perm.length then some (place, consumer, next) else none

/-- A transposition of a transposed value is rebased onto the value itself, or bypassed
when the two cancel. -/
def composeSuccessor (s : Surroundings) (g : Graph) (t : PlacedTranspose) : Outcome :=
  match successor? s g t with
  | none => .ok none
  | some (place, consumer, next) =>
      let composed := Permutation.compose t.perm next
      if Permutation.isIdentity composed then do
        let (joined, how) ← g.bypass { node := consumer, place := some place } t.source
        return some (joined.removeNamedIfUnreferenced t.node.name,
          "cancel with " ++ consumer.name ++ " (" ++ how.text ++ ")")
      else
        let rebased : Node :=
          { consumer with
            inputs := [t.source]
            attributes := Attributes.set consumer.attributes "perm"
              (.numbers (Permutation.arrange t.spelled next))
            bookmarks := [] }
        .ok (some ((g.putNode place rebased).removeNamedIfUnreferenced t.node.name,
          "compose into " ++ consumer.name))

/-! ## Sizes of a transposed value -/

/-- Whether a node takes all sizes of the transposed value. -/
def takesSizes (t : PlacedTranspose) (n : Node) : Bool :=
  Capability.ofOp n.op == .shape && n.inputs == [t.output] && n.outputs.length == 1 &&
    (n.attribute? "start").isNone && (n.attribute? "end").isNone

/-- The sizes of a value if all of them are known. -/
def staticSizes? (s : Surroundings) (g : Graph) (value : String) : Option (List Number) :=
  ((g.info? s.enclosing value).bind ValueInfo.shape).bind fun dims =>
    if Shape.isStatic dims then dims.mapM id else none

/-- Lists of sizes and axes as literals. -/
def listLiteral (xs : List Number) : Literal :=
  { dtype := .int64, dims := [.ofNat xs.length], data := xs }

/-- Takes the sizes from the value before the transposition: as a constant when they are
known, and otherwise rearranged while the graph runs. -/
def rebaseSizes (s : Surroundings) (t : PlacedTranspose) (g : Graph) (place : Nat) (n : Node) :
    Graph :=
  let yielded := n.outputs.headD ""
  let dynamic :=
    let unpermuted := s.fresh g (yielded ++ "_unpermuted")
    let sized := (g.putNode place
      { n with inputs := [t.source], outputs := [unpermuted], bookmarks := [] }).setInfo
      { name := unpermuted, dtype := some .int64, shape := some [some (.ofNat t.perm.length)] }
    let indices := s.fresh sized (n.name ++ "_perm")
    let withIndices := sized.addNode (Node.constant indices indices (listLiteral t.spelled))
    let gather := s.fresh withIndices (n.name ++ "_gather")
    withIndices.addNode
      { name := gather, op := "Gather", inputs := [unpermuted, indices], outputs := [yielded]
        attributes := [("axis", .number (.int 0))] }
  match staticSizes? s g t.source with
  | some dims =>
      if dims.length = t.perm.length then
        g.putNode place
          (Node.constant n.name yielded (listLiteral (Permutation.arrange dims t.perm)))
      else dynamic
  | none => dynamic

/-- Rebases every node that takes the sizes of the transposed value. -/
def rebaseAllSizes (s : Surroundings) (g : Graph) (t : PlacedTranspose) : Outcome :=
  let takers := (g.readers t.output).filterMap fun place =>
    (g.nodes[place]?).bind fun n => if takesSizes t n then some (place, n) else none
  if takers.isEmpty then .ok none
  else
    let rebased := takers.foldl (fun (h : Graph) (place, n) => rebaseSizes s t h place n) g
    .ok (some (rebased.removeNamedIfUnreferenced t.node.name,
      "shape " ++ String.intercalate ", " (takers.map fun (_, n) => n.name)))

/-! ## Moving down -/

/-- How the operator `consumer` lets a transposition through: which constants may be
rearranged, and the attributes that it has afterwards. -/
def passage? (consumer : Node) (perm : List Number) :
    Option (Relocation.ConstantPolicy × List (String × Attribute)) :=
  match Capability.ofOp consumer.op with
  | .unary => if consumer.inputs.length = 1 then some (.none, consumer.attributes) else none
  | .broadcast => some (.broadcast, consumer.attributes)
  | .axes rule =>
      if rule.maxInputs.any fun limit => limit < consumer.inputs.length then none
      else
        (remapAxes consumer rule perm).map fun attributes =>
          (if rule.namedBy = .axis then .exact else .none, attributes)
  | .shape => none
  | .barrier => none

/-- Moves a transposition behind its only reader. A transposition that yields an output of
the graph fixes its layout and stays. -/
def pushDown (s : Surroundings) (g : Graph) (t : PlacedTranspose) : Outcome :=
  if g.isOutput t.output then .ok none
  else
    match g.readers t.output with
    | [place] =>
        match g.nodes[place]? with
        | none => .ok none
        | some consumer =>
            if consumer.outputs.length ≠ 1 || !consumer.inputs.contains t.output then .ok none
            else
              match passage? consumer t.spelled with
              | none => .ok none
              | some (policy, attributes) => do
                  match ← g.orStop
                    (Relocation.plan s g t.source t.output t.perm policy consumer.inputs) with
                  | none => return none
                  | some plan =>
                      let next ← Relocation.apply s g t.place t.node place consumer t.perm
                        attributes plan
                      return some (next, "push through " ++ consumer.name)
    | _ => .ok none

/-! ## The pass over one graph -/

/-- The first rule that applies, in the order of the list. -/
def firstOf : List (Unit → Outcome) → Outcome
  | [] => .ok none
  | rule :: rest => do
      match ← rule () with
      | some found => return some found
      | none => firstOf rest

/-- Applies the first rule that fits a node. -/
def treat (s : Surroundings) (g : Graph) (place : Nat) (n : Node) : Outcome :=
  match resolvePermutation s.enclosing g n none with
  | none => .ok none
  | some perm =>
      let t : PlacedTranspose := { place, node := n, perm }
      if t.source = "" then .ok none
      else
        firstOf
          [fun _ => dropIdentity g t, fun _ => mergeTwin s g t, fun _ => composeSuccessor s g t,
            fun _ => rebaseAllSizes s g t, fun _ => pushDown s g t]

theorem treat_not_transpose {s : Surroundings} {g : Graph} {place : Nat} {n : Node}
    (h : n.op ≠ "Transpose") : treat s g place n = .ok none := by
  simp [treat, resolvePermutation, h]

/-- Applies a rule to the first node of an order that has one. -/
def treatFirst (s : Surroundings) (g : Graph) : List Nat → Outcome
  | [] => .ok none
  | place :: rest =>
      match g.nodes[place]? with
      | none => treatFirst s g rest
      | some n => do
          match ← treat s g place n with
          | some (next, rule) =>
              return some (next, "transpose: " ++ rule ++ " at " ++ n.name ++ " in " ++ g.name)
          | none => treatFirst s g rest

/-- One change of a graph. -/
def step (s : Surroundings) (g : Graph) : Outcome :=
  match g.topologicalOrder with
  | .error cause => .error { graph := g, cause }
  | .ok order => treatFirst s g order

/-- How many changes a graph is given. Moving and cancelling transposes takes far fewer. -/
def budget (g : Graph) : Nat := Nat.pow (g.nodes.length + 2) 8

/-- Changes a graph until no rule applies, and sorts its nodes if anything was changed. -/
def sweepGraph (s : Surroundings) (g : Graph) : Sweep :=
  let clean := Sweep.untilClean "transpose" (step s) (budget g) { graph := g }
  if clean.failure.isSome || clean.changes = 0 then clean
  else
    match clean.graph.sortTopologically with
    | .ok sorted => { clean with graph := sorted }
    | .error cause => { clean with failure := some cause }

end TensorGraph.Transposes
