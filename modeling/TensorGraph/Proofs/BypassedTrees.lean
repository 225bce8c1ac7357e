import TensorGraph.Proofs.Bypassing
import TensorGraph.Proofs.Dependence

/-!
# Bypasses in a tree

Somewhere in a valid tree a node with one result is bypassed, so that a value which is seen from
there and does not draw on the node stands in for the result. The bypass succeeds, and the tree is
what it would be with an identity in the place of the node.

The identity may take its value from around the graph, so that all hosts on the way come to read it.
Only the rules on permutations can be broken, since what is known of the shapes of values does not
move with the readers.

## Main results

* `Evaluation.sameMeaning_putAt` -- a graph in a tree may be replaced by one of the same meaning.
* `Evaluation.bypass_as_identity` -- a bypass in a tree.
-/

namespace TensorGraph

open TensorGraph.Graph Relation

namespace Graph

variable {g scope : Graph} {trail : Trail} {place : Nat} {n : Node} {old new : String}

theorem outputs_putAt (hat : g.bodyAt? trail = some scope)
    {h : Graph} (houtputs : h.outputs = scope.outputs) : (g.putAt trail h).outputs = g.outputs := by
  cases trail with
  | nil =>
      obtain rfl := Option.some.inj hat
      exact houtputs
  | cons step rest =>
      unfold putAt
      split <;> simp

/-- An identity may take the place of a node in a well-formed tree, if it reads what is offered
there. -/
private theorem wellformedTree_putAt_shim {visible : String → Prop} (hg : WellformedTree visible g)
    (hkeyed : KeyedTree g) (hat : g.bodyAt? trail = some scope) (hn : scope.nodes[place]? = some n)
    (hout : n.outputs = [old]) (hoffered : g.OffersAt visible trail place new) :
    WellformedTree visible (g.putAt trail (scope.putNode place (shim n old new))) := by
  refine (wellformedTree_putAt_putNode (k := shim n old new) hg hkeyed hat hn rfl ?_ ?_ ?_ rfl
    fun value hread => ?_).1
  · simp [Node.results, shim, hout]
  · simp [Node.Keyed, shim]
  · exact ⟨fun hloop => by simp [shim] at hloop, fun hbranch => by simp [shim] at hbranch⟩
  · obtain ⟨hinput, -⟩ | ⟨body, hbody, -⟩ := Node.mem_reads.1 hread
    · obtain rfl : value = new := by simpa [shim] using hinput
      exact hoffered
    · simp [shim, Node.bodies] at hbody

end Graph

namespace Evaluation

variable {V : Type} [Operand V] {m : Machine V} {g scope old new : Graph} {trail : Trail}
  {place : Nat} {n : Node} {output value : String}

/-- A graph in a well-formed tree may be replaced by a well-formed one of the same meaning. -/
theorem sameMeaning_putAt (hm : m.Regular) {visible : String → Prop} (hg : WellformedTree visible g)
    (hat : g.bodyAt? trail = some old)
    (hsame : ∀ around, WellformedTree around old →
      WellformedTree around new ∧ SameMeaning m old new) :
    WellformedTree visible (g.putAt trail new) ∧ SameMeaning m g (g.putAt trail new) := by
  induction trail generalizing g visible with
  | nil =>
      obtain rfl := Option.some.inj hat
      exact hsame visible hg
  | cons step rest ih =>
      obtain ⟨place, key⟩ := step
      obtain ⟨body, hbody, hrest⟩ := (bodyAt?_cons hg.here.keyed).1 hat
      obtain ⟨host, hhost, hmem⟩ := id hbody
      obtain ⟨htree, hmeaning⟩ := ih (hg.body (List.mem_of_getElem? hhost) hmem) hrest
      rw [putAt, (hasBody_iff hg.here.keyed).1 hbody]
      exact ⟨WellformedTree.putBody hg hbody htree hmeaning.arity hmeaning.outer,
        .putBody hm hg hbody htree hmeaning⟩

/-- Bypassing a node of any graph in a valid tree succeeds when the node yields one value and the
value that stands in for it is seen there and does not draw on the node. The graph keeps the names
of its outputs, the checks find nothing to object to in the tree but perhaps permutations, and the
tree does what it would do with an identity in the place of the node. -/
theorem bypass_as_identity (hm : m.Regular) (hvalid : g.IsValid) (hkeyed : KeyedTree g)
    (hnamed : NamedInputs g) (hat : g.bodyAt? trail = some scope)
    (hn : scope.nodes[place]? = some n) (hout : n.outputs = [output]) (hpresent : output ≠ "")
    (hseen : (g.definition? trail value).isSome = true)
    (hfree : ¬ g.DrawsOn trail value (trail, place)) :
    ∃ h how, scope.bypass { node := n, place := some place } value = .ok (h, how) ∧
      h.outputs = scope.outputs ∧
      (∀ issue ∈ (g.putAt trail h).issues, issue.problem.code = "invalid-permutation") ∧
      ∀ feeds outputs, execute m (g.putAt trail h) feeds = .ok outputs ↔
        execute m (g.putAt trail (scope.putNode place (shim n output value))) feeds =
          .ok outputs := by
  have hg := hvalid.wellformedTree hkeyed hnamed
  obtain ⟨_, hscope⟩ := everywhere_bodyAt? hg hkeyed hat
  have hmem := List.mem_of_getElem? hn
  have hresult : output ∈ n.results := Node.mem_results.2 ⟨by simp [hout], hpresent⟩
  have hoffered := offersAt_of_definition? hg.scopedTree hkeyed hseen hfree
  have hvalue : value ≠ "" := by
    rintro rfl
    obtain ⟨found, hfound⟩ := Option.isSome_iff_exists.1 hseen
    obtain ⟨-, inner, hinner, hslot⟩ := mem_of_definition? hfound
    obtain ⟨_, htree⟩ := everywhere_bodyAt? hg hkeyed hinner
    exact htree.here.not_seenIn_empty (.inr (by rw [← isSome_slot?, hslot, Option.isSome_some]))
  have hne : output ≠ value := fun e => hoffered.free trail scope place (List.prefix_refl _) hat
    (e ▸ hscope.here.orderly.producerPlace?_eq hn hresult) .refl
  -- the tree with the identity, and what the bypass makes of it
  have hshimmed := wellformedTree_putAt_shim hg hkeyed hat hn hout hoffered
  have hput := bodyAt?_putAt (scope.putNode place (shim n output value)) hat
  obtain ⟨_, hinner⟩ := everywhere_bodyAt? hshimmed (WellformedTree.keyedTree hshimmed) hput
  have hbypass {around : String → Prop}
      (haround : WellformedTree around (scope.putNode place (shim n output value))) :=
    bypass_sameMeaning hm hn hout (hscope.here.orderly.not_mem_reads hmem hresult) hne hvalue
      hpresent haround
  obtain ⟨h, how, hok, houtputs, -⟩ := hbypass hinner
  obtain ⟨htree, hsame⟩ := sameMeaning_putAt hm hshimmed hput fun around haround => by
    obtain ⟨h', how', hok', -, htree, hsame⟩ := hbypass haround
    obtain ⟨rfl, rfl⟩ := Prod.mk.inj (Except.ok.inj (hok.symm.trans hok'))
    exact ⟨htree, hsame⟩
  rw [putAt_putAt] at htree hsame
  refine ⟨h, how, hok, houtputs, fun issue hissue => ?_, ?_⟩
  · exact WellformedTree.code_eq [] (definedBy_nil ▸ htree) hissue
  · have hnames := (outputs_putAt hat houtputs).trans
      (outputs_putAt (h := scope.putNode place (shim n output value)) hat rfl).symm
    exact hsame.execute_iff hshimmed hnames

/-- A branch that computes something from what it takes from around it. -/
def squeezed : Graph where
  outputs := ["last"]
  nodes := [{ name := "squeeze", op := "Relu", inputs := ["y"], outputs := ["last"] }]

/-- A graph in which two values come together and are read in both branches of a conditional. -/
def forked : Graph where
  inputs := ["condition", "x"]
  outputs := ["y", "z"]
  nodes := [
    { name := "left", op := "Relu", inputs := ["x"], outputs := ["a"] },
    { name := "right", op := "Relu", inputs := ["x"], outputs := ["b"] },
    { name := "join", op := "Add", inputs := ["a", "b"], outputs := ["y"] },
    { name := "choose", op := "If", inputs := ["condition"], outputs := ["z"]
      attributes := [("then_branch", .body { outputs := ["y"] }),
        ("else_branch", .body squeezed)] }]

/-- The nodes before the conditional need earlier nodes only. -/
private theorem needs_forked {i : Nat} (hi : i < 3) {target : Trail × Nat}
    (h : forked.Needs ([], i) target) : ∃ j < i, target = ([], j) := by
  have hdependencies : forked.dependencies = [[], [], [0, 1], [2]] := by decide +kernel
  cases h with
  | @reads _ scope _ j found depends =>
      obtain rfl := Option.some.inj found
      rw [← mem_dependencies, hdependencies] at depends
      refine ⟨j, ?_, rfl⟩
      have hcases : i = 0 ∨ i = 1 ∨ i = 2 := by omega
      rcases hcases with rfl | rfl | rfl <;> simp at depends
      omega
  | @inside _ key body _ j found lt =>
      have hnone : forked.bodyAt? ([] ++ [(i, key)]) = none := by
        have hcases : i = 0 ∨ i = 1 ∨ i = 2 := by omega
        rcases hcases with rfl | rfl | rfl <;> rfl
      rw [hnone] at found
      cases found

private theorem reaches_forked {i : Nat} (hi : i < 3) {target : Trail × Nat}
    (h : ReflTransGen forked.Needs ([], i) target) : ∃ j ≤ i, target = ([], j) := by
  induction h with
  | refl => exact ⟨i, le_refl i, rfl⟩
  | tail _ hstep ih =>
      obtain ⟨j, hj, rfl⟩ := ih
      obtain ⟨k, hk, rfl⟩ := needs_forked (by omega) hstep
      exact ⟨k, by omega, rfl⟩

theorem bypass_as_identity_forked :
    forked.IsValid ∧ KeyedTree forked ∧ NamedInputs forked ∧
      ∀ trail place value how, (trail, place, value, how) ∈
          [([], 1, "x", Bypass.rewired), ([], 2, "a", .renamed),
            ([(3, "else_branch")], 0, "y", .shimmed)] →
        ∃ scope n output h, forked.bodyAt? trail = some scope ∧ scope.nodes[place]? = some n ∧
          n.outputs = [output] ∧
          scope.bypass { node := n, place := some place } value = .ok (h, how) ∧
          h.outputs = scope.outputs ∧
          (∀ issue ∈ (forked.putAt trail h).issues, issue.problem.code = "invalid-permutation") ∧
          ∀ feeds outputs,
            execute (.standard 8 : Machine (Value Float)) (forked.putAt trail h) feeds =
                .ok outputs ↔
              execute (.standard 8 : Machine (Value Float))
                (forked.putAt trail (scope.putNode place (shim n output value))) feeds =
                  .ok outputs := by
  have hvalid : forked.IsValid := by
    unfold IsValid
    decide +kernel
  have hkeyed : KeyedTree forked := by decide +kernel
  have hnamed : NamedInputs forked := by decide +kernel
  have hfree {trail target : Trail} {value : String} {place made i : Nat} (hmade : made < 3)
      (hslot : forked.definition? trail value = some ([], .output made i))
      (hlater : ∀ j ≤ made, (target, place) ≠ ([], j)) :
      ¬ forked.DrawsOn trail value (target, place) := by
    rintro ⟨upper, made', i', hslot', hpath⟩
    rw [hslot] at hslot'
    cases hslot'
    obtain ⟨j, hj, heq⟩ := reaches_forked hmade hpath
    exact hlater j hj heq
  have hinput : forked.definition? [] "x" = some ([], .input 1) := by decide +kernel
  have hleft : forked.definition? [] "a" = some ([], .output 0 0) := by decide +kernel
  have hjoin : forked.definition? [(3, "else_branch")] "y" = some ([], .output 2 0) := by
    decide +kernel
  refine ⟨hvalid, hkeyed, hnamed, fun trail place value how hcase => ?_⟩
  suffices hwhere : ∃ scope n output, forked.bodyAt? trail = some scope ∧
      scope.nodes[place]? = some n ∧ n.outputs = [output] ∧ output ≠ "" ∧
      (forked.definition? trail value).isSome = true ∧
      ¬ forked.DrawsOn trail value (trail, place) ∧
      (scope.bypass { node := n, place := some place } value).toOption.map Prod.snd = some how by
    obtain ⟨scope, n, output, hat, hn, hout, hpresent, hseen, hfree, hhow⟩ := hwhere
    obtain ⟨h, how', hok, hrest⟩ := bypass_as_identity (V := Value Float)
      (Machine.standard_regular 8) hvalid hkeyed hnamed hat hn hout hpresent hseen hfree
    obtain rfl : how' = how := by simpa [hok] using hhow
    exact ⟨scope, n, output, h, hat, hn, hout, hok, hrest⟩
  simp only [List.mem_cons, List.not_mem_nil, or_false, Prod.mk.injEq] at hcase
  rcases hcase with ⟨rfl, rfl, rfl, rfl⟩ | ⟨rfl, rfl, rfl, rfl⟩ | ⟨rfl, rfl, rfl, rfl⟩
  · exact ⟨_, _, _, rfl, rfl, rfl, by decide, by rw [hinput]; rfl,
      fun ⟨_, _, _, hslot, _⟩ => by simp [hinput] at hslot, by decide +kernel⟩
  · exact ⟨_, _, _, rfl, rfl, rfl, by decide, by rw [hleft]; rfl,
      hfree (by decide) hleft fun j hj => by simp; omega, by decide +kernel⟩
  · exact ⟨_, _, _, rfl, rfl, rfl, by decide, by rw [hjoin]; rfl,
      hfree (by decide) hjoin fun j hj => by simp, by decide +kernel⟩

end Evaluation

end TensorGraph
