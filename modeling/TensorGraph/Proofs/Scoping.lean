import TensorGraph.Proofs.Layering
import TensorGraph.Proofs.Substituting
import TensorGraph.Proofs.Sweeping

/-!
# Scopes in the course of rewriting

A valid graph in which only loops and branches own bodies is rewritten, in any of its scopes and in
any order. Only two things can ever go wrong with its names: a node that gathers sizes may come to
read the value that it yields, and an output slot may lose its name. As long as neither has happened
every graph of the tree is scoped.

## Main results

* `Rewriting.Run.steadyTree` -- what holds of every graph in the course of a run.
* `Rewriting.Run.scopedTree_iff` -- when the graphs after a run are scoped.
-/

namespace TensorGraph

namespace Graph

variable {taken visible : String → Prop} {g : Graph}

/-! ## Steady graphs -/

/-- What every rewrite keeps beside the rules on names: only loops and branches own bodies, and the
values can be put into layers. -/
structure Steady (g : Graph) : Prop where
  hosted : g.Hosted
  layered : g.Layered

/-- Every graph of a tree is steady. -/
abbrev SteadyTree : Graph → Prop :=
  Everywhere (fun _ taken => taken) (fun _ g => g.Steady) (fun _ => True)

/-- In every graph of a tree only loops and branches own bodies. -/
abbrev HostedTree : Graph → Prop :=
  Everywhere (fun _ taken => taken) (fun _ g => g.Hosted) (fun _ => True)

/-- A tree of scoped graphs in which only loops and branches own bodies is steady. -/
theorem ScopedTree.steadyTree (h : ScopedTree visible g) (ht : TidyTree taken g)
    (hosted : HostedTree g) : SteadyTree g := by
  induction h generalizing taken with
  | intro here _ ih =>
      obtain ⟨order, horder⟩ := here.ordered
      exact .intro ⟨hosted.here, .of_order ht.here here.once horder⟩ fun n hn body hbody =>
        ih n hn body hbody (ht.body hn hbody) (hosted.body hn hbody)

namespace SteadyTree

/-- A tree stays steady when a name that it takes from outside is replaced by another one. -/
theorem substituteOuter (h : SteadyTree g) (ht : TidyTree taken g) {old new : String}
    (hnew : new = "" ∨ taken new) : SteadyTree (g.substituteOuter old new) := by
  induction ht with
  | @intro taken g here inside ih =>
      by_cases hold : g.defines old = true
      · rw [substituteOuter_eq, if_pos hold]
        exact h
      have hnodes : (g.substituteOuter old new).nodes = g.nodes.map (Node.replaceReads old new) := by
        rw [nodes_substituteOuter, if_neg hold]
      have hresult : new ∉ g.results := fun hmem =>
        hnew.elim (ne_empty_of_mem_results hmem) (here.newResults new hmem)
      refine .intro ⟨h.here.hosted.of_nodes fun k hk => ?_, ?_⟩ fun k hk body hbody => ?_
      · rw [hnodes] at hk
        obtain ⟨m, hm, rfl⟩ := List.mem_map.1 hk
        refine .inr ⟨m, hm, by simp, fun hnone => ?_⟩
        rw [Node.bodies_replaceReads, hnone]
        split <;> rfl
      · -- the new name is not yielded here
        obtain ⟨layer, hlayer⟩ := h.here.layered
        refine ⟨layer, fun k hk read hread hproduced value hvalue => ?_⟩
        rw [hnodes] at hk
        obtain ⟨m, hm, rfl⟩ := List.mem_map.1 hk
        rw [results_substituteOuter] at hproduced
        rw [Node.results_replaceReads] at hvalue
        rw [Node.op_replaceReads]
        rcases Node.mem_reads_replaceReads hread with ⟨rfl, -⟩ | ⟨hread, -⟩
        · exact absurd hproduced hresult
        · exact hlayer m hm read hread hproduced value hvalue
      · rw [hnodes] at hk
        obtain ⟨m, hm, rfl⟩ := List.mem_map.1 hk
        obtain ⟨before, hbefore, -, hsame | ⟨-, hsame⟩⟩ := mem_bodies_replaceReads hbody
        · exact hsame ▸ h.body hm hbefore
        · exact hsame ▸ ih m hm before hbefore (h.body hm hbefore) (hnew.imp_right .inl)

theorem substituted {h : Graph} (hg : SteadyTree g) (ht : TidyTree taken g)
    (hsub : Substituted (fun _ new => new = "" ∨ taken new) g h) : SteadyTree h := by
  induction hsub with
  | refl => exact hg
  | tail hbefore hstep ih =>
      obtain ⟨old, new, hnew, rfl⟩ := hstep
      exact substituteOuter ih (ht.substituted hbefore) hnew

/-- A tree stays steady when a body of its root is replaced by one that takes no more from around
it. -/
theorem putBody (h : SteadyTree g) (hkeyed : ∀ n ∈ g.nodes, n.Keyed) {place : Nat} {key : String}
    {old new : Graph} (hbody : g.HasBody place key old) (hnew : SteadyTree new)
    (houter : new.outerReferences ⊆ old.outerReferences) : SteadyTree (g.putBody place key new) := by
  obtain ⟨n, hn, hold⟩ := hbody
  have hmem := List.mem_of_getElem? hn
  -- every node stays, or is the host with another body
  have hfrom (k : Node) (hk : k ∈ (g.putBody place key new).nodes) : ∃ m ∈ g.nodes,
      k.op = m.op ∧ k.results = m.results ∧ k.reads ⊆ m.reads ∧ (m.bodies = [] → k.bodies = []) ∧
        ∀ body ∈ k.bodies, SteadyTree body.2 := by
    rcases (mem_nodes_putBody hn).1 hk with rfl | ⟨j, -, hj⟩
    · refine ⟨n, hmem, rfl, rfl, Node.reads_rebodied (hkeyed n hmem) hold houter,
        fun hnone => ?_, fun body hbody => ?_⟩
      · rw [hnone] at hold
        cases hold
      · rcases (Node.mem_bodies_rebodied (hkeyed n hmem) hold).1 hbody with rfl | ⟨hbody, -⟩
        · exact hnew
        · exact h.body hmem hbody
    · have hk := List.mem_of_getElem? hj
      exact ⟨k, hk, rfl, rfl, fun _ => id, id, fun _ => h.body hk⟩
  refine .intro ⟨h.here.hosted.of_nodes fun k hk => ?_, ?_⟩ fun k hk => ?_
  · obtain ⟨m, hm, hop, -, -, hnone, -⟩ := hfrom k hk
    exact .inr ⟨m, hm, hop, hnone⟩
  · obtain ⟨layer, hlayer⟩ := h.here.layered
    refine ⟨layer, fun k hk read hread hproduced value hvalue => ?_⟩
    obtain ⟨m, hm, hop, hresults, hreads, -⟩ := hfrom k hk
    rw [results_putBody] at hproduced
    rw [hop]
    exact hlayer m hm read (hreads hread) hproduced value (hresults ▸ hvalue)
  · obtain ⟨m, hm, -, -, -, -, hbodies⟩ := hfrom k hk
    exact hbodies

end SteadyTree

end Graph

/-! ## Steps that keep trees steady -/

namespace Rewriting

open TensorGraph.Graph

variable {s : Surroundings} {g h : Graph} {kind : Kind}

theorem Edit.steadyTree (he : Edit s g kind h) (hg : TidyIn s g) (hs : SteadyTree g) :
    SteadyTree h := by
  have heffect := he.effect hg.tree.here
  refine .intro ⟨heffect.hosted hg.tree hg.covers hs.here.hosted,
    heffect.layered hg.tree hg.covers hs.here.hosted hs.here.layered⟩ fun n hn body hbody => ?_
  obtain ⟨m, hm, -, before, hbefore, -, hsub⟩ := heffect.keepsBodies hg.tree hg.covers n hn body hbody
  exact SteadyTree.substituted (hs.body hm hbefore) (hg.tree.body hm hbefore)
    (hsub.mono fun _ _ hnew => hnew.mentions.imp_right .inr)

/-- Whether steps keep tidy trees steady and have them take nothing more from around them. -/
def Steadying (R : Surroundings → Graph → Graph → Prop) : Prop :=
  ∀ s g h, R s g h → TidyIn s g → SteadyTree g →
    SteadyTree h ∧ h.outerReferences ⊆ g.outerReferences

theorem steadying_edit : Steadying fun s g h => ∃ kind, Edit s g kind h := by
  rintro s g h ⟨kind, he⟩ hg hs
  exact ⟨he.steadyTree hg hs,
    (he.effect hg.tree.here).outerReferences_subset hg.tree hg.covers hs.here.hosted⟩

private theorem steady_of_tidying (he : Tidying s g h) (hg : TidyIn s g) (hs : SteadyTree g) :
    SteadyTree h ∧ h.outerReferences ⊆ g.outerReferences := by
  induction he with
  | refl => exact ⟨hs, fun _ => id⟩
  | tail hbefore hstep ih =>
      obtain ⟨kind, -, hedit⟩ := hstep
      obtain ⟨hsteady, hsub⟩ := steadying_edit _ _ _ ⟨kind, hedit⟩ (Tidying.tidyIn hbefore hg) ih.1
      exact ⟨hsteady, List.Subset.trans hsub ih.2⟩

theorem steadying_rewrite : Steadying Rewrite := by
  intro s g h hr hg hs
  rcases hr.edits hg with ⟨-, htreated⟩ | ⟨kind, -, hedit⟩
  · obtain ⟨kind, between, -, hedit, hrest⟩ := htreated.edits
    obtain ⟨hbetween, hfirst⟩ := steadying_edit _ _ _ ⟨kind, hedit⟩ hg hs
    obtain ⟨hsteady, hsub⟩ := steady_of_tidying hrest (hedit.tidyIn hg) hbetween
    exact ⟨hsteady, List.Subset.trans hsub hfirst⟩
  · exact steadying_edit _ _ _ ⟨kind, hedit⟩ hg hs

theorem steadying_sorted : Steadying Sorted := by
  intro s g h hsort _ hs
  obtain ⟨nodes, hperm, rfl⟩ := sortTopologically_ok hsort
  obtain ⟨layer, hlayer⟩ := hs.here.layered
  exact ⟨.intro ⟨fun n hn => hs.here.hosted n (hperm.mem_iff.1 hn),
    layer, hlayer.of_subset fun n hn => hperm.mem_iff.1 hn⟩
    fun n hn body hbody => hs.body (hperm.mem_iff.1 hn) hbody, outerReferences_subset_of_perm hperm⟩

/-- Steps in bodies keep the whole tree steady. -/
theorem Steadying.within {R : Surroundings → Graph → Graph → Prop} (hR : Steadying R) :
    Steadying (Within R) := by
  intro s g h hstep
  induction hstep with
  | here step => exact hR _ _ _ step
  | @inside s g place key old new body shown step ih =>
      intro hg hs
      obtain ⟨n, hn, hmem⟩ := id body
      obtain ⟨hnew, hsub⟩ := ih (tidyIn_shown hg body) (hs.body (List.mem_of_getElem? hn) hmem)
      exact ⟨SteadyTree.putBody hs hg.tree.here.keyed body hnew hsub,
        outerReferences_putBody hg.tree.here.keyed body hsub⟩

/-- What holds of every graph in the course of a run. -/
theorem Run.steadyTree {count : Nat} (hr : Run s g count h) (hg : TidyIn s g) (hs : SteadyTree g) :
    SteadyTree h ∧ h.outerReferences ⊆ g.outerReferences := by
  induction hr with
  | start => exact ⟨hs, fun _ => id⟩
  | rewrite before step ih =>
      obtain ⟨hsteady, hsub⟩ := steadying_rewrite.within _ _ _ step (before.tidyIn hg) ih.1
      exact ⟨hsteady, List.Subset.trans hsub ih.2⟩
  | sort before step ih =>
      obtain ⟨hsteady, hsub⟩ := steadying_sorted.within _ _ _ step (before.tidyIn hg) ih.1
      exact ⟨hsteady, List.Subset.trans hsub ih.2⟩

end Rewriting

/-! ## Scopes -/

namespace Graph

variable {taken visible : String → Prop} {g : Graph}

/-- What a steady graph needs to be scoped: no gathering node reads what it yields, and an output
slot without a name has a value. -/
structure Intact (visible : String → Prop) (g : Graph) : Prop where
  unclashing : g.Unclashing
  nameless : "" ∈ g.outputs → g.seenIn visible ""

/-- Every graph of a tree is intact. -/
abbrev IntactTree : (String → Prop) → Graph → Prop := Everywhere seenIn Intact

/-- Without clashes every value of a tidy graph has one producer. -/
private theorem nodup_results (hg : Tidy taken g) (hclash : g.Unclashing) : g.results.Nodup := by
  refine List.nodup_flatMap.2 ⟨hg.distinct, ?_⟩
  refine (List.pairwise_map.1 hg.names).imp_of_mem fun {n m} hn hm hne => ?_
  rw [Function.onFun, List.disjoint_left]
  intro value hvn hvm
  exact hne ((hg.single value).resolve_right (hclash.not_spare value) n hn m hm hvn hvm)

/-- A steady and tidy tree is scoped if it is intact and takes nothing from outside but what is
defined there. -/
theorem IntactTree.scopedTree (h : IntactTree visible g) (ht : TidyTree taken g) (hs : SteadyTree g)
    (hvisible : ∀ value, visible value → taken value)
    (houter : ∀ value ∈ g.outerReferences, visible value) : ScopedTree visible g := by
  induction h generalizing taken with
  | @intro visible g here inside ih =>
      have htidy := ht.here
      have hseen {value : String} (hused : g.Uses value) : g.seenIn visible value := by
        cases hdef : g.defines value with
        | true => exact .inr hdef
        | false => exact .inl (houter value (mem_outerReferences_iff.2 ⟨hdef, hused⟩))
      refine .intro
        { names := htidy.names
          results := nodup_results htidy here.unclashing
          apart := htidy.apart
          newInputs := fun value hvalue hin => htidy.newInputs value hvalue (hvisible value hin)
          newResults := fun value hvalue hin => htidy.newResults value hvalue (hvisible value hin)
          taken := fun n hn value hin hne => hseen (.inr ⟨n, hn, Node.mem_reads.2 (.inl ⟨hin, hne⟩)⟩)
          yielded := fun value hout => ?_
          ordered := hs.here.layered.exists_order hs.here.hosted here.unclashing }
        fun n hn body hbody => ?_
      · by_cases hne : value = ""
        · exact hne ▸ here.nameless (hne ▸ hout)
        · exact hseen (.inl ⟨hout, hne⟩)
      · refine ih n hn body hbody (ht.body hn hbody) (hs.body hn hbody) (fun value hin => ?_)
          fun value hvalue => hseen (.inr ⟨n, hn, Node.mem_reads.2 (.inr ⟨body, hbody, hvalue⟩)⟩)
        exact hin.imp (hvisible value) fun hdef => .inl hdef

/-- A scoped tree is intact. -/
theorem ScopedTree.intactTree (h : ScopedTree visible g) (ht : TidyTree taken g) :
    IntactTree visible g := by
  induction h generalizing taken with
  | @intro visible g here _ ih =>
      obtain ⟨order, horder⟩ := here.ordered
      exact .intro ⟨.of_order ht.here here.once horder, here.yielded ""⟩
        fun n hn body hbody => ih n hn body hbody (ht.body hn hbody)

end Graph

namespace Rewriting

open TensorGraph.Graph

/-- After any rewrites of a valid graph in which only loops and branches own bodies every graph of the
tree is scoped, unless a node that gathers sizes reads what it yields or an output slot has lost its
name. -/
theorem Run.scopedTree_iff {g h : Graph} {count : Nat} (hvalid : g.IsValid) (hkeyed : KeyedTree g)
    (hosted : HostedTree g) (hr : Run .root g count h) :
    ScopedTree (fun _ => False) h ↔ IntactTree (fun _ => False) h := by
  have htidy := hvalid.tidyIn hkeyed
  have hscoped := hvalid.scopedTree
  have hafter := (hr.tidyIn htidy).tree
  obtain ⟨hsteady, hsub⟩ := hr.steadyTree htidy (hscoped.steadyTree htidy.tree hosted)
  refine ⟨fun h => ScopedTree.intactTree h hafter, fun h => ?_⟩
  exact IntactTree.scopedTree h hafter hsteady (fun _ hin => hin.elim) fun value hvalue =>
    ScopedTree.visible_of_mem_outerReferences hscoped (hsub hvalue)

/-- A graph in which the sizes of a transposed value get a name, and nothing reads them. -/
def measuring (value : String) : Graph where
  inputs := ["x"]
  outputs := ["z"]
  nodes := [
    { name := "turn", op := "Transpose", inputs := ["x"], outputs := ["y"]
      attributes := [("perm", .numbers [.int 1, .int 0])] },
    { name := "size", op := "Shape", inputs := ["y"], outputs := [value] },
    { name := "clip", op := "Relu", inputs := ["x"], outputs := ["z"] }]

private theorem keyedTree_measuring (value : String) : KeyedTree (measuring value) := by
  refine .intro ?_ ?_
  · simp [measuring, Node.Keyed]
  · simp [measuring, Node.bodies, Attribute.body?]

private theorem hostedTree_measuring (value : String) : HostedTree (measuring value) := by
  refine .intro ?_ ?_
  · simp [measuring, Hosted, Node.bodies, Attribute.body?]
  · simp [measuring, Node.bodies, Attribute.body?]

/-- What becomes of the graph in one rewrite. -/
private theorem run_measuring {value : String} (hvalid : (measuring value).IsValid)
    (hnone : (Transposes.sweepGraph .root (measuring value)).failure = none)
    (hchanges : (Transposes.sweepGraph .root (measuring value)).changes = 1) :
    Run .root (measuring value) 1 (Transposes.sweepGraph .root (measuring value)).graph :=
  hchanges ▸ (Transposes.faithful_sweepGraph (hvalid.tidyIn (keyedTree_measuring value))).run hnone

theorem Run.scopedTree_iff_measuring :
    (measuring "dims").IsValid ∧ KeyedTree (measuring "dims") ∧ HostedTree (measuring "dims") ∧
      ∃ h, Run .root (measuring "dims") 1 h ∧
        (ScopedTree (fun _ => False) h ↔ IntactTree (fun _ => False) h) := by
  have hvalid : (measuring "dims").IsValid := by
    unfold IsValid
    decide +kernel
  have hkeyed := keyedTree_measuring "dims"
  have hosted := hostedTree_measuring "dims"
  have hrun := run_measuring hvalid (by decide +kernel) (by decide +kernel)
  exact ⟨hvalid, hkeyed, hosted, _, hrun, Run.scopedTree_iff hvalid hkeyed hosted hrun⟩

/-- Where the sizes have the name that the order of the sizes is given, the graph does not stay
scoped. -/
theorem Run.not_scopedTree_measuring :
    (measuring "size_perm").IsValid ∧ HostedTree (measuring "size_perm") ∧
      ∃ h, Run .root (measuring "size_perm") 1 h ∧ ¬ ScopedTree (fun _ => False) h := by
  have hvalid : (measuring "size_perm").IsValid := by
    unfold IsValid
    decide +kernel
  have hrun := run_measuring hvalid (by decide +kernel) (by decide +kernel)
  refine ⟨hvalid, hostedTree_measuring _, _, hrun, fun h => ?_⟩
  have htwice : ¬ (Transposes.sweepGraph .root (measuring "size_perm")).graph.results.Nodup := by
    decide +kernel
  exact htwice h.here.results

end Rewriting

end TensorGraph
