import TensorGraph.Proofs.IdentityRemoval
import TensorGraph.Proofs.Lineage
import TensorGraph.Proofs.Settling

/-!
# Identities that stay

What identities are left when they have been removed? In a body an identity stays only between two
values that are both put out; at the root one may also hand on what no node yields. A body is done
before its host, and the removals in graphs around it still put other names into it. They give up no
name that a body defines, and what they write for an input they write for an output as well, so the
form of a body survives them. Hence a second run finds nothing to remove, in whichever graph.

## Main results

* `Graph.RefinedBody.substituteOuter` -- the form survives substitutions from outside.
* `Identities.refined_everyGraph` -- every graph of a treated tree has the form.
* `Pass.identity_normalForm` -- removing identities reaches the form, and then there is nothing to do.
-/

namespace TensorGraph

open TensorGraph.Graph Evaluation

namespace Graph

/-- Whether every identity of a graph with a value to hand on has to stay: it yields an output of the
graph, and what it takes is one too, or the graph is not enclosed and no node yields it. -/
def Refined (enclosed : Prop) (g : Graph) : Prop :=
  ∀ n ∈ g.nodes, n.op = "Identity" → ∀ input output, n.inputs = [input] → n.outputs = [output] →
    input ≠ "" → output ∈ g.outputs ∧ (input ∈ g.outputs ∨ ¬ enclosed ∧ input ∉ g.results)

/-- Whether a body is refined, and its outputs have names. -/
structure RefinedBody (g : Graph) : Prop where
  refined : g.Refined True
  named : "" ∉ g.outputs

variable {g h : Graph} {enclosed : Prop}

/-- What a node takes whose reads are replaced stands for what it took. -/
private theorem exists_input_of_replaceReads {n : Node} {old new input : String}
    (hin : (n.replaceReads old new).inputs = [input]) (hpresent : input ≠ "") :
    ∃ before, n.inputs = [before] ∧ before ≠ "" ∧ substituteName old new before = input := by
  by_cases hread : old ∈ n.reads
  · rw [Node.replaceReads_of_mem hread] at hin
    obtain ⟨before, hbefore, hsame⟩ := List.map_eq_singleton_iff.1 hin
    refine ⟨before, hbefore, ?_, hsame⟩
    rintro rfl
    refine hpresent ?_
    rw [← hsame, substituteName_eq, if_neg (Node.ne_empty_of_mem_reads hread).symm]
  · rw [Node.replaceReads_of_not_mem new hread] at hin
    refine ⟨input, hin, hpresent, ?_⟩
    rw [substituteName_eq, if_neg]
    rintro rfl
    exact hread (Node.mem_reads.2 (.inl ⟨by simp [hin], hpresent⟩))

/-- The form of an enclosed graph survives a substitution from outside. -/
theorem RefinedBody.substituteOuter (hg : RefinedBody g) (old : String) {new : String}
    (hnew : new ≠ "") : RefinedBody (g.substituteOuter old new) := by
  by_cases hold : g.defines old = true
  · rw [substituteOuter_eq, if_pos hold]
    exact hg
  have houtputs : (g.substituteOuter old new).outputs = g.outputs.map (substituteName old new) := by
    rw [substituteOuter_eq, if_neg hold]
  refine ⟨fun k hk hop input output hin hout hpresent => ?_, fun hempty => ?_⟩
  · rw [nodes_substituteOuter, if_neg hold] at hk
    obtain ⟨n, hn, rfl⟩ := List.mem_map.1 hk
    rw [Node.op_replaceReads] at hop
    rw [Node.outputs_replaceReads] at hout
    obtain ⟨before, hbefore, hpresent', rfl⟩ := exists_input_of_replaceReads hin hpresent
    obtain ⟨hyielded, htaken⟩ := hg.refined n hn hop before output hbefore hout hpresent'
    have hne : output ≠ old := by
      rintro rfl
      refine hold (defines_iff.2 (.inr (mem_results.2 ⟨n, hn, Node.mem_results.2 ⟨?_, ?_⟩⟩)))
      · simp [hout]
      · rintro rfl
        exact hg.named hyielded
    rw [houtputs]
    refine ⟨List.mem_map.2 ⟨output, hyielded, by rw [substituteName_eq, if_neg hne]⟩, .inl ?_⟩
    exact List.mem_map_of_mem (htaken.resolve_right fun hfree => hfree.1 trivial)
  · rw [houtputs] at hempty
    rcases mem_map_substituteName hempty with ⟨rfl, -⟩ | ⟨hmem, -⟩
    · exact hnew rfl
    · exact hg.named hmem

/-- And so do the forms of all graphs below it. -/
theorem throughout_refinedBody_substituteOuter (hg : Throughout RefinedBody g) (old : String)
    {new : String} (hnew : new ≠ "") : Throughout RefinedBody (g.substituteOuter old new) :=
  (Lineal.substituteOuter (R := fun g h => RefinedBody g → RefinedBody h) (fun _ => id)
    (fun _ hg => hg.substituteOuter old hnew) g).throughout id hg

/-- Whether all graphs below a graph are refined. -/
def RefinedBelow (g : Graph) : Prop :=
  ∀ n ∈ g.nodes, ∀ body ∈ n.bodies, Throughout RefinedBody body.2

/-- Merging the two values of an identity leaves the graphs below refined. -/
theorem Merged.refinedBelow {place : Nat} {n : Node} {drop keep : String}
    (hm : Merged g place n drop keep h) (hg : RefinedBelow g) : RefinedBelow h := by
  intro k hk body hbody
  obtain ⟨m, -, hmem, rfl⟩ := hm.mem_nodes hk
  obtain ⟨before, hbefore, -, hsame | ⟨-, hsame⟩⟩ := mem_bodies_replaceReads hbody <;>
    rw [Node.bodies_renamed] at hbefore <;> rw [hsame]
  · exact hg m hmem before hbefore
  · exact throughout_refinedBody_substituteOuter (hg m hmem before hbefore) drop hm.present

end Graph

namespace Identities

variable {visible : String → Prop} {s : Surroundings} {g : Graph}

/-- No identity can go from a well-formed graph exactly when it is refined. -/
theorem removeFirst_eq_none_iff_refined (hg : Wellformed visible g) :
    removeFirst s g (nodeRefs g) = .ok none ↔ g.Refined (s.enclosing ≠ []) := by
  rw [removeFirst_eq_none_iff]
  have hends {n : Node} {input output : String} (hn : n ∈ g.nodes) (hin : n.inputs = [input])
      (hout : n.outputs = [output]) (hpresent : input ≠ "") :
      endpoints? n = some (input, output) := by
    have hne : input ≠ output := by
      rintro rfl
      exact hg.not_mem_reads hn (by simp [hout])
        (Node.mem_reads.2 (.inl ⟨by simp [hin], hpresent⟩))
    simp [endpoints?, hin, hout, hpresent, hne]
  have hstays (input output : String) : (g.isOutput output = true ∧ (g.isOutput input = true ∨
      (g.producer? input).isSome = false ∧ s.enclosing.isEmpty = true)) ↔
      output ∈ g.outputs ∧ (input ∈ g.outputs ∨ ¬ s.enclosing ≠ [] ∧ input ∉ g.results) := by
    rw [Bool.eq_false_iff, ne_eq, producer?_isSome_iff, List.isEmpty_iff, and_comm (a := ¬ _)]
    simp [isOutput]
  constructor
  · intro h n hn hop input output hin hout hpresent
    obtain ⟨place, hplace⟩ := List.getElem?_of_mem hn
    exact (hstays input output).1 ((eliminate_eq_none_iff
      (r := { node := n, place := some place }) (hends hn hin hout hpresent)).1 (h place n hplace hop))
  · intro h place n hplace hop
    have hn := List.mem_of_getElem? hplace
    cases hfound : endpoints? n with
    | none => simp [eliminate, hfound]
    | some ends =>
        obtain ⟨hin, hout, hpresent, -⟩ := endpoints?_eq_some hfound
        exact (eliminate_eq_none_iff (r := { node := n, place := some place }) hfound).2
          ((hstays _ _).2 (h n hn hop _ _ hin hout hpresent))

/-- Removing identities from a well-formed graph with refined graphs below it leaves it refined. -/
theorem refined_sweepGraph (hg : WellformedTree visible g) (hbelow : RefinedBelow g)
    (hnone : (sweepGraph s g).failure = none) :
    (sweepGraph s g).graph.Refined (s.enclosing ≠ []) ∧ RefinedBelow (sweepGraph s g).graph := by
  have hkept : WellformedTree visible (sweepGraph s g).graph ∧
      RefinedBelow (sweepGraph s g).graph := by
    refine Sweep.untilClean_keeps (fun h => WellformedTree visible h ∧ RefinedBelow h)
      (fun h h' line hh hstep => ?_) ⟨hg, hbelow⟩ hnone
    have hrefs : ∀ r ∈ nodeRefs h, ∃ place n, h.nodes[place]? = some n ∧
        r = { node := n, place := some place } := by
      intro r hr
      obtain ⟨⟨n, place⟩, hmem, rfl⟩ := List.mem_map.1 hr
      exact ⟨place, n, List.mem_zipIdx_iff_getElem?.1 hmem, rfl⟩
    rcases removeFirst_merged (s := s) hh.1.here hrefs with
      hnone | ⟨place, n, drop, keep, k, line', hsome, hmerged, -⟩
    · rw [hnone] at hstep
      cases hstep
    · rw [hsome] at hstep
      cases hstep
      exact ⟨hmerged.wellformedTree hh.1, hmerged.refinedBelow hh.2⟩
  exact ⟨(removeFirst_eq_none_iff_refined hkept.1.here).1 (Sweep.untilClean_eq_none hnone), hkept.2⟩

/-- Every graph of a tree of well-formed graphs is refined once its identities have been removed. -/
theorem refined_everyGraph (hg : WellformedTree visible g) :
    (everyGraph sweepGraph s g).graph.Refined (s.enclosing ≠ []) ∧
      RefinedBelow (everyGraph sweepGraph s g).graph := by
  -- that nothing fails and graphs stay well formed has been shown for whatever machine executes them
  have harmless {visible : String → Prop} (s : Surroundings) {g : Graph}
      (hg : WellformedTree visible g) :
      Harmless (.standard 8 : Machine (Value Float)) s visible g (everyGraph sweepGraph s g) :=
    harmless_everyGraph (Machine.standard_regular 8) s hg
  induction g using bodyInduction generalizing s visible with
  | step g ih =>
      have hnone := (harmless s hg).complete
      rw [everyGraph_eq_andThen] at hnone ⊢
      obtain ⟨hbodies, hlast, hgraph⟩ := Sweep.unfailed_of_andThen hnone
      rw [hgraph]
      have hput (h : Graph) (place : Nat) (key : String) (old : Graph) (hh : WellformedTree visible h)
          (hbody : h.HasBody place key old) : WellformedTree visible
            (h.putBody place key (everyGraph sweepGraph (s.inside h place key) old).graph) := by
        obtain ⟨n, hn, hold⟩ := id hbody
        have hinner := harmless (s.inside h place key) (hh.body (List.mem_of_getElem? hn) hold)
        exact WellformedTree.putBody hh hbody hinner.tree hinner.same.arity hinner.same.outer
      obtain ⟨hdone, houtcome⟩ := isOutcome_of_sweepBelow (WellformedTree visible)
        (fun h hh => hh.here.keyed) (fun h place key old hh hbody _ => hput h place key old hh hbody)
        hg hbodies
      refine refined_sweepGraph hdone (fun k hk body hbody => ?_) hlast
      obtain ⟨place, hplace⟩ := List.getElem?_of_mem hk
      obtain ⟨host, old, hhost, ⟨n, hn, hmem⟩, ⟨m, hm, hthere⟩, -, hresult⟩ :=
        houtcome place body.1 body.2 ⟨k, hplace, hbody⟩
      have hold := hhost.body (List.mem_of_getElem? hm) hthere
      obtain ⟨hrefined, hbelow⟩ := ih n (List.mem_of_getElem? hn) _ hmem
        (s := s.inside host place body.1) hold
      have htree := (harmless (s.inside host place body.1) hold).tree
      rw [hresult] at hrefined hbelow htree
      refine .intro ⟨?_, fun hempty => htree.here.ne_empty_of_mem_outputs hempty rfl⟩ hbelow
      simpa [Surroundings.inside] using hrefined

/-- A tree of which all graphs are refined is settled. -/
theorem settled_of_refined (hg : WellformedTree visible g) (hroot : g.Refined (s.enclosing ≠ []))
    (hbelow : RefinedBelow g) : Settled sweepGraph s g := by
  induction g using bodyInduction generalizing s visible with
  | step g ih =>
      refine .intro (sweepGraph_of_eq_none ((removeFirst_eq_none_iff_refined hg.here).2 hroot))
        fun place key body hbody => ?_
      obtain ⟨n, hn, hmem⟩ := hbody
      have hn := List.mem_of_getElem? hn
      have hbody := hbelow n hn (key, body) hmem
      refine ih n hn (key, body) hmem (hg.body hn hmem) ?_ fun k hk inner hinner => ?_
      · simpa [Surroundings.inside] using hbody.here.refined
      · obtain ⟨place, hplace⟩ := List.getElem?_of_mem hk
        exact hbody.inside ⟨k, hplace, hinner⟩

end Identities

/-- Once identities have been removed from a valid graph with named inputs, every identity with a
value to hand on that is left, in whichever graph of the tree, yields an output of its graph and takes
another one, or what no node of the root yields. So there is nothing to do in a second run. -/
theorem Pass.identity_normalForm {g : Graph} (hvalid : g.IsValid) (hkeyed : KeyedTree g)
    (hnamed : NamedInputs g) (number : Nat) :
    (Pass.identity.run .root number g).failure = none ∧
      (∀ path scope, (Pass.identity.run .root number g).graph.Holds path scope →
        scope.Refined (path ≠ [])) ∧
      Pass.identity.SettledAt (Pass.identity.run .root number g).graph := by
  have hg := hvalid.wellformedTree hkeyed hnamed
  have hharmless := Identities.harmless_everyGraph
    (m := (.standard 8 : Machine (Value Float))) (Machine.standard_regular 8) .root hg
  obtain ⟨hroot, hbelow⟩ := Identities.refined_everyGraph (s := .root) hg
  have hrun := (Faithful.everyGraph (fun _ _ => Identities.faithful_sweepGraph)
    (hvalid.tidyIn hkeyed)).run hharmless.complete
  change (everyGraph Identities.sweepGraph .root g).failure = none ∧
    (∀ path scope, (everyGraph Identities.sweepGraph .root g).graph.Holds path scope → _) ∧
    Pass.identity.SettledAt (everyGraph Identities.sweepGraph .root g).graph
  refine ⟨hharmless.complete, fun path scope hscope => ?_, Pass.settledAt_ofVisit _
    (hrun.tidyIn (hvalid.tidyIn hkeyed)).tree.keyedTree
    (Identities.settled_of_refined hharmless.tree hroot hbelow)⟩
  cases hscope with
  | here => simpa [Surroundings.root] using hroot
  | inside host slot below => simpa using (hbelow _ host _ slot _ _ below).refined

/-- A branch with an identity between two outputs. -/
def doubling : Graph where
  outputs := ["once", "again"]
  nodes := [
    { name := "clip", op := "Relu", inputs := ["held"], outputs := ["once"] },
    { name := "copy", op := "Identity", inputs := ["once"], outputs := ["again"] }]

/-- A graph with identities of which two stay: one that hands an input to an output, and one between
two outputs of a branch. -/
def retaining : Graph where
  inputs := ["condition", "x"]
  outputs := ["y", "left", "right"]
  nodes := [
    { name := "relay", op := "Identity", inputs := ["x"], outputs := ["held"] },
    { name := "hold", op := "Identity", inputs := ["x"], outputs := ["y"] },
    { name := "choose", op := "If", inputs := ["condition"], outputs := ["left", "right"]
      attributes := [("then_branch", .body doubling), ("else_branch", .body { outputs := ["x", "x"] })] }]

/-- What holds of `retaining` and its branches holds in the tree. -/
private theorem everywhere_retaining {P : Graph → Prop} (hroot : P retaining) (hdoubling : P doubling)
    (hplain : P { outputs := ["x", "x"] }) :
    Everywhere (fun _ taken => taken) (fun _ g => P g) (fun _ => True) retaining := by
  have hbodies : retaining.nodes.flatMap Node.bodies =
      [("then_branch", doubling), ("else_branch", { outputs := ["x", "x"] })] := rfl
  refine .intro hroot fun n hn body hbody => ?_
  have hbranch := List.mem_flatMap.2 ⟨n, hn, hbody⟩
  simp only [hbodies, List.mem_cons, List.not_mem_nil, or_false] at hbranch
  rcases hbranch with rfl | rfl
  · exact .intro hdoubling (by simp [doubling, Node.bodies])
  · exact .intro hplain (by simp)

theorem Pass.identity_normalForm_retaining :
    retaining.IsValid ∧ KeyedTree retaining ∧ NamedInputs retaining ∧
      (Pass.identity.run .root 0 retaining).changes = .ofNat 1 ∧
      (Pass.identity.run .root 0 retaining).failure = none ∧
      (∀ path scope, (Pass.identity.run .root 0 retaining).graph.Holds path scope →
        scope.Refined (path ≠ [])) ∧
      Pass.identity.SettledAt (Pass.identity.run .root 0 retaining).graph := by
  have hvalid : retaining.IsValid := by
    unfold IsValid
    decide +kernel
  have hkeyed : KeyedTree retaining := everywhere_retaining (by simp [retaining, Node.Keyed])
    (by simp [doubling, Node.Keyed]) (by simp)
  have hnamed : NamedInputs retaining :=
    everywhere_retaining (by simp [retaining]) (by simp [doubling]) (by simp)
  exact ⟨hvalid, hkeyed, hnamed, by decide +kernel, Pass.identity_normalForm hvalid hkeyed hnamed 0⟩

end TensorGraph
