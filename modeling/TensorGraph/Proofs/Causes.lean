import TensorGraph.Optimizer.DeadNodes
import TensorGraph.Optimizer.Identities
import TensorGraph.Optimizer.Transposes
import TensorGraph.Proofs.Avoiding

/-!
# Causes of failures

Loops are given a bound, and a loop that reaches it fails as endless. No rule fails for this
reason: whatever else goes wrong in a rule, it is not that something has no end.

## Main results

* `Transposes.step_halts`, `Identities.removeFirst_halts` -- no rule fails as endless.
-/

namespace TensorGraph

/-- Whether a failure says that something did not come to an end. -/
def Failure.isEndless : Failure → Bool
  | .endless _ => true
  | _ => false

section Computations

variable {α β : Type}

/-- Whether a computation has another reason than endlessness when it fails. -/
abbrev Ends (x : Except Failure α) : Prop := Avoids Failure.isEndless x

/-- The same of a step that keeps the graph as it stood. -/
def Halts (x : Except Stopped α) : Prop :=
  ∀ stopped, x = .error stopped → stopped.cause.isEndless = false

theorem Halts.ok (a : α) : Halts (.ok a) := by
  intro stopped h
  cases h

theorem Halts.error {stopped : Stopped} (h : stopped.cause.isEndless = false) :
    Halts (.error stopped : Except Stopped α) := by
  rintro _ ⟨⟩
  exact h

theorem Halts.bind {x : Except Stopped α} {f : α → Except Stopped β} (hx : Halts x)
    (hf : ∀ a, Halts (f a)) : Halts (x >>= f) := by
  cases x with
  | error stopped => exact Halts.error (hx stopped rfl)
  | ok a => exact hf a

theorem Avoids.orStop {x : Except Failure α} (hx : Ends x) (g : Graph) : Halts (g.orStop x) := by
  cases x with
  | error cause => exact Halts.error (hx cause rfl)
  | ok a => exact Halts.ok a

end Computations

/-! ## Edits of graphs -/

namespace Graph

theorem placeOf_ends (g : Graph) (r : NodeRef) : Ends (g.placeOf r) := by
  unfold placeOf
  split
  · exact .ok _
  · exact .error rfl

theorem removeNode_ends (g : Graph) (r : NodeRef) : Ends (g.removeNode r) :=
  (g.placeOf_ends r).map _

theorem replaceNode_ends (g : Graph) (r : NodeRef) (next : Node) : Ends (g.replaceNode r next) :=
  (g.placeOf_ends r).map _

theorem renameValue_ends (g : Graph) (old new : String) : Ends (g.renameValue old new) := by
  unfold renameValue
  split
  · exact .ok _
  · split
    · exact .error rfl
    · exact .ok _

theorem rebindOutput_ends (enclosing : List Graph) (g : Graph) (old new : String) :
    Ends (g.rebindOutput enclosing old new) := by
  unfold rebindOutput
  split
  · exact .error rfl
  · exact .ok _

theorem topologicalOrder_ends (g : Graph) : Ends g.topologicalOrder :=
  avoids_topologicalOrder (fun _ => rfl) g

theorem sortTopologically_ends (g : Graph) : Ends g.sortTopologically :=
  g.topologicalOrder_ends.bind fun _ => .ok _

theorem removeDisconnected_halts (g : Graph) (r : NodeRef) : Halts (g.removeDisconnected r) := by
  unfold removeDisconnected
  split
  · exact .ok _
  · exact .error rfl

theorem bypass_halts (g : Graph) (r : NodeRef) (replacement : String) :
    Halts (g.bypass r replacement) := by
  unfold bypass
  split
  · split
    · exact .ok _
    · exact .error rfl
  · simp only
    split
    · split
      · exact .ok _
      · exact .error rfl
    · split
      · exact ((removeNode_ends _ _).orStop _).bind fun removed =>
          ((renameValue_ends _ _ _).orStop _).bind fun _ => .ok _
      · exact ((replaceNode_ends _ _ _).orStop _).bind fun _ => .ok _

end Graph

/-! ## Literals and relocation -/

theorem Shape.lengthOf_ends (x : Number) : Ends (Shape.lengthOf x) := by
  unfold Shape.lengthOf
  split
  · split
    · exact .ok _
    · exact .error rfl
  · exact .error rfl

theorem Shape.padToRank_ends (dims : List Number) (rank : Number) :
    Ends (Shape.padToRank dims rank) := by
  unfold Shape.padToRank
  split
  · exact .error rfl
  · split
    · exact .ok _
    · exact .error rfl

theorem Literal.padToRank_ends (t : Literal) (rank : Number) : Ends (t.padToRank rank) := by
  unfold Literal.padToRank
  split
  · exact .ok _
  · exact (Shape.padToRank_ends _ _).map _

namespace Relocation

variable (s : Surroundings) (g : Graph)

theorem rearrangedConstant?_ends (perm : List Nat) (policy : ConstantPolicy) (value : String) :
    Ends (rearrangedConstant? g perm policy value) := by
  unfold rearrangedConstant?
  split
  · split
    · exact .ok _
    · split
      · exact (Literal.padToRank_ends _ _).bind fun padded =>
          ((Shape.lengthOf_ends _).map _).bind fun _ => .ok _
      · exact .ok _
  · exact .ok _

theorem operand?_ends (source transposed : String) (perm : List Nat) (policy : ConstantPolicy)
    (value : String) : Ends (operand? s g source transposed perm policy value) := by
  unfold operand?
  split
  · exact .ok _
  · split
    · exact .ok _
    · split
      · exact .ok _
      · exact (rearrangedConstant?_ends g perm policy value).map _

theorem plan_ends (source transposed : String) (perm : List Nat) (policy : ConstantPolicy)
    (inputs : List String) : Ends (plan s g source transposed perm policy inputs) := by
  induction inputs with
  | nil => exact .ok _
  | cons value rest ih =>
      unfold plan
      refine (operand?_ends s g source transposed perm policy value).bind fun found => ?_
      split
      · exact .ok _
      · exact ih.bind fun _ => .ok _

theorem apply_halts (place : Nat) (transpose : Node) (consumerPlace : Nat) (consumer : Node)
    (perm : List Nat) (attributes : List (String × Attribute)) (p : Plan) :
    Halts (apply s g place transpose consumerPlace consumer perm attributes p) := by
  unfold apply
  refine Graph.removeDisconnected_halts _ _ |>.bind fun detached => ?_
  refine ((Graph.replaceNode_ends _ _ _).orStop _).bind fun rewired => ?_
  split <;> exact .ok _

end Relocation

/-! ## Rules -/

namespace Transposes

variable (s : Surroundings) (g : Graph) (t : PlacedTranspose)

theorem dropIdentity_halts : Halts (dropIdentity g t) := by
  unfold dropIdentity
  split
  · exact (g.bypass_halts _ _).bind fun _ => .ok _
  · exact .ok _

theorem mergeTwin_halts : Halts (mergeTwin s g t) := by
  unfold mergeTwin
  split
  · exact .ok _
  · exact (Graph.removeDisconnected_halts _ _).bind fun _ => .ok _

theorem composeSuccessor_halts : Halts (composeSuccessor s g t) := by
  unfold composeSuccessor
  split
  · exact .ok _
  · simp only
    split
    · exact (g.bypass_halts _ _).bind fun _ => .ok _
    · exact .ok _

theorem rebaseAllSizes_halts : Halts (rebaseAllSizes s g t) := by
  unfold rebaseAllSizes
  simp only
  split <;> exact .ok _

theorem pushDown_halts : Halts (pushDown s g t) := by
  unfold pushDown
  split
  · exact .ok _
  · split
    · split
      · exact .ok _
      · split
        · exact .ok _
        · split
          · exact .ok _
          · refine ((Relocation.plan_ends _ _ _ _ _ _ _).orStop _).bind fun planned => ?_
            split
            · exact .ok _
            · exact (Relocation.apply_halts _ _ _ _ _ _ _ _ _).bind fun _ => .ok _
    · exact .ok _

theorem firstOf_halts {rules : List (Unit → Outcome)} (h : ∀ rule ∈ rules, Halts (rule ())) :
    Halts (firstOf rules) := by
  induction rules with
  | nil => exact .ok _
  | cons rule rest ih =>
      unfold firstOf
      refine (h rule (by simp)).bind fun outcome => ?_
      split
      · exact .ok _
      · exact ih fun rule hrule => h rule (List.mem_cons_of_mem _ hrule)

theorem treat_halts (place : Nat) (n : Node) : Halts (treat s g place n) := by
  unfold treat
  split
  · exact .ok _
  · simp only
    split
    · exact .ok _
    · refine firstOf_halts fun rule hrule => ?_
      simp only [List.mem_cons, List.not_mem_nil, or_false] at hrule
      rcases hrule with rfl | rfl | rfl | rfl | rfl
      · exact dropIdentity_halts g _
      · exact mergeTwin_halts s g _
      · exact composeSuccessor_halts s g _
      · exact rebaseAllSizes_halts s g _
      · exact pushDown_halts s g _

theorem treatFirst_halts (places : List Nat) : Halts (treatFirst s g places) := by
  induction places with
  | nil => exact .ok _
  | cons place rest ih =>
      unfold treatFirst
      split
      · exact ih
      · refine (treat_halts s g place _).bind fun outcome => ?_
        split
        · exact .ok _
        · exact ih

/-- No rule for transpositions fails as endless. -/
theorem step_halts : Halts (step s g) := by
  unfold step
  have hends := g.topologicalOrder_ends
  split
  · rename_i cause hcause
    exact .error (hends cause hcause)
  · exact treatFirst_halts s g _

end Transposes

namespace Identities

variable (s : Surroundings) (g : Graph)

theorem eliminate_halts (r : NodeRef) : Halts (eliminate s g r) := by
  unfold eliminate
  split
  · exact .ok _
  · simp only
    split
    · exact ((Graph.removeNode_ends _ _).orStop _).bind fun _ => .ok _
    · split
      · exact .ok _
      · split
        · exact ((Graph.removeNode_ends _ _).orStop _).bind fun _ =>
            ((Graph.renameValue_ends _ _ _).orStop _).bind fun _ => .ok _
        · split
          · exact .ok _
          · exact ((Graph.removeNode_ends _ _).orStop _).bind fun _ =>
              ((Graph.rebindOutput_ends _ _ _ _).orStop _).bind fun _ => .ok _

/-- No removal of an identity fails as endless. -/
theorem removeFirst_halts (refs : List NodeRef) : Halts (removeFirst s g refs) := by
  induction refs with
  | nil => exact .ok _
  | cons r rest ih =>
      unfold removeFirst
      split
      · refine (eliminate_halts s g r).bind fun outcome => ?_
        split
        · exact .ok _
        · exact ih
      · exact ih

end Identities

end TensorGraph
