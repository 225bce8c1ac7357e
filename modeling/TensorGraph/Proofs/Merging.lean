import Mathlib.Data.List.Nodup
import TensorGraph.Proofs.Substituting
import TensorGraph.Proofs.Upkeep

/-!
# Merging the two values of an identity

An identity yields what it takes in, so its two values can be merged into one: the identity goes,
and one of the two names is dropped in favour of the other. It may be the name of the output, whose
readers then read the input, or the name of the input, whose producer then yields the output. Both
are the same change of names, and both leave a tree of well-formed graphs well formed.

## Main results

* `Graph.Merged.mem_results` -- what the nodes yield afterwards.
* `Graph.Merged.outerReferences_subset` -- nothing more is taken from outside.
* `Graph.Merged.wellformedTree` -- a tree stays well formed.
-/

namespace TensorGraph

/-- Where the new name is not empty, every value that a node yielded keeps its place. -/
theorem Node.results_renamed_of_ne {old new : String} (hnew : new ≠ "") (n : Node) :
    (n.renamed old new).results = n.results.map (substituteName old new) := by
  rw [results_renamed, List.filter_eq_self]
  intro value hvalue
  obtain ⟨before, hbefore, rfl⟩ := List.mem_map.1 hvalue
  rw [bne_iff_ne, substituteName_eq]
  split
  · exact hnew
  · exact ne_empty_of_mem_results hbefore

/-- A node of a graph after the values `drop` and `keep` have become one. -/
def Node.merged (drop keep : String) (n : Node) : Node :=
  (n.renamed drop keep).replaceReads drop keep

namespace Node

variable {drop keep : String} {n : Node}

@[simp] theorem name_merged : (n.merged drop keep).name = n.name := by simp [merged]

theorem results_merged (hkeep : keep ≠ "") :
    (n.merged drop keep).results = n.results.map (substituteName drop keep) := by
  rw [merged, results_replaceReads, results_renamed_of_ne hkeep]

theorem mem_reads_merged {value : String} (h : value ∈ (n.merged drop keep).reads) :
    value = keep ∧ drop ∈ n.reads ∨ value ∈ n.reads ∧ value ≠ drop := by
  simpa using mem_reads_replaceReads h

theorem keyed_merged (h : n.Keyed) : (n.merged drop keep).Keyed := by
  unfold Keyed merged at *
  rw [keys_replaceReads, attributes_renamed]
  exact h

theorem sameInterface_merged (n : Node) : n.SameInterface (n.merged drop keep) := by
  refine SameInterface.trans ⟨name_renamed, op_renamed, by rw [inputs_renamed], ?_, ?_⟩
    ((n.renamed drop keep).sameInterface_replaceReads drop keep)
  · unfold renamed
    split <;> simp
  · intro key
    unfold body? attribute?
    rw [attributes_renamed]

end Node

namespace Graph

/-- A node and the nodes at other places. -/
theorem perm_eraseIdx {g : Graph} {place : Nat} {n : Node} (hn : g.nodes[place]? = some n) :
    (n :: g.nodes.eraseIdx place).Perm g.nodes := by
  obtain ⟨hlt, rfl⟩ := List.getElem?_eq_some_iff.1 hn
  exact List.getElem_cons_eraseIdx_perm hlt

/-- What the nodes at other places yield: all but what the node does. -/
theorem Wellformed.mem_results_eraseIdx {visible : String → Prop} {g : Graph}
    (hg : Wellformed visible g) {place : Nat} {n : Node} (hn : g.nodes[place]? = some n)
    {value : String} : value ∈ (g.nodes.eraseIdx place).flatMap Node.results ↔
      value ∈ g.results ∧ value ∉ n.outputs := by
  have hperm := (perm_eraseIdx hn).flatMap_right Node.results
  have hnodup := hperm.nodup_iff.2 hg.results
  rw [List.flatMap_cons] at hperm hnodup
  have hdisjoint := (List.nodup_append.1 hnodup).2.2
  unfold results
  rw [← hperm.mem_iff, List.mem_append, Node.mem_results]
  constructor
  · intro hrest
    refine ⟨.inr hrest, fun hout => ?_⟩
    obtain ⟨k, -, hvalue⟩ := List.mem_flatMap.1 hrest
    exact hdisjoint value (Node.mem_results.2 ⟨hout, Node.ne_empty_of_mem_results hvalue⟩) value
      hrest rfl
  · rintro ⟨⟨hout, -⟩ | hrest, hnot⟩
    · exact absurd hout hnot
    · exact hrest

/-- What is left of a graph when an identity is gone whose two values have become one: the name
`drop` has been given up for the name `keep`. -/
structure Merged (g : Graph) (place : Nat) (n : Node) (drop keep : String) (h : Graph) : Prop where
  node : g.nodes[place]? = some n
  op : n.op = "Identity"
  ends : n.inputs = [keep] ∧ n.outputs = [drop] ∨
    n.inputs = [drop] ∧ n.outputs = [keep] ∧ drop ∈ g.results
  distinct : drop ≠ keep
  present : keep ≠ ""
  inputs : h.inputs = g.inputs
  outputs : h.outputs = g.outputs.map (substituteName drop keep)
  nodes : h.nodes = (g.nodes.eraseIdx place).map (Node.merged drop keep)

namespace Merged

variable {visible : String → Prop} {g h : Graph} {place : Nat} {n : Node} {drop keep : String}

theorem mem_node (hm : Merged g place n drop keep h) : n ∈ g.nodes := List.mem_of_getElem? hm.node

/-- The nodes that stay. -/
theorem mem_nodes (hm : Merged g place n drop keep h) {k : Node} (hk : k ∈ h.nodes) :
    ∃ m ∈ g.nodes.eraseIdx place, m ∈ g.nodes ∧ k = m.merged drop keep := by
  rw [hm.nodes] at hk
  obtain ⟨m, hmem, rfl⟩ := List.mem_map.1 hk
  exact ⟨m, hmem, List.mem_of_mem_eraseIdx hmem, rfl⟩

private theorem nodup_rest (hm : Merged g place n drop keep h) (hg : Wellformed visible g) :
    ((g.nodes.eraseIdx place).flatMap Node.results).Nodup := by
  have hnodup := ((perm_eraseIdx hm.node).flatMap_right Node.results).nodup_iff.2 hg.results
  rw [List.flatMap_cons] at hnodup
  exact (List.nodup_append.1 hnodup).2.1

private theorem results_eq (hm : Merged g place n drop keep h) :
    h.results = ((g.nodes.eraseIdx place).flatMap Node.results).map (substituteName drop keep) := by
  unfold results
  rw [hm.nodes, List.flatMap_map, List.map_flatMap]
  exact congrArg (List.flatMap · _) (funext fun m => Node.results_merged hm.present)

/-- The nodes that stay do not yield both names. -/
private theorem not_both (hm : Merged g place n drop keep h) (hg : Wellformed visible g)
    (hdrop : drop ∈ (g.nodes.eraseIdx place).flatMap Node.results) :
    keep ∉ (g.nodes.eraseIdx place).flatMap Node.results := by
  rw [hg.mem_results_eraseIdx hm.node] at hdrop ⊢
  rcases hm.ends with ⟨-, hout⟩ | ⟨-, hout, -⟩
  · exact absurd (by simp [hout]) hdrop.2
  · exact fun hkeep => hkeep.2 (by simp [hout])

/-- What is yielded afterwards is what was, without the name that is dropped. -/
theorem mem_results (hm : Merged g place n drop keep h) (hg : Wellformed visible g)
    {value : String} : value ∈ h.results ↔ value ∈ g.results ∧ value ≠ drop := by
  have hdistinct := hm.distinct
  rw [hm.results_eq, List.mem_map]
  simp only [hg.mem_results_eraseIdx hm.node, substituteName_eq]
  rcases hm.ends with ⟨-, hout⟩ | ⟨-, hout, hproduced⟩ <;>
    simp only [hout, List.mem_singleton]
  · constructor
    · rintro ⟨value, ⟨hvalue, hne⟩, rfl⟩
      rw [if_neg hne]
      exact ⟨hvalue, hne⟩
    · rintro ⟨hvalue, hne⟩
      exact ⟨value, ⟨hvalue, hne⟩, if_neg hne⟩
  · have hkeep : keep ∈ g.results := Graph.mem_results.2
      ⟨n, hm.mem_node, Node.mem_results.2 ⟨by simp [hout], hm.present⟩⟩
    constructor
    · rintro ⟨value, ⟨hvalue, hne⟩, rfl⟩
      split
      · exact ⟨hkeep, hdistinct.symm⟩
      · rename_i hother
        exact ⟨hvalue, hother⟩
    · rintro ⟨hvalue, hne⟩
      by_cases hname : value = keep
      · exact ⟨drop, ⟨hproduced, hdistinct⟩, by rw [if_pos rfl, hname]⟩
      · exact ⟨value, ⟨hvalue, hname⟩, if_neg hne⟩

theorem nodup_results (hm : Merged g place n drop keep h) (hg : Wellformed visible g) :
    h.results.Nodup := by
  rw [hm.results_eq]
  exact nodup_map_substituteName (hm.nodup_rest hg) (hm.not_both hg)

theorem drop_not_mem_inputs (hm : Merged g place n drop keep h) (hg : Wellformed visible g) :
    drop ∉ g.inputs := by
  intro hinput
  rcases hm.ends with ⟨-, hout⟩ | ⟨-, -, hproduced⟩
  · have hne : drop ≠ "" := fun e => hg.named (e ▸ hinput)
    exact hg.apart drop (Graph.mem_results.2
      ⟨n, hm.mem_node, Node.mem_results.2 ⟨by simp [hout], hne⟩⟩) hinput
  · exact hg.apart drop hproduced hinput

/-- What is defined afterwards is what was, without the name that is dropped. -/
theorem defines_iff (hm : Merged g place n drop keep h) (hg : Wellformed visible g)
    {value : String} : h.defines value = true ↔ g.defines value = true ∧ value ≠ drop := by
  rw [Graph.defines_iff, Graph.defines_iff, hm.inputs, hm.mem_results hg]
  constructor
  · rintro (hinput | ⟨hresult, hne⟩)
    · exact ⟨.inl hinput, fun e => hm.drop_not_mem_inputs hg (e ▸ hinput)⟩
    · exact ⟨.inr hresult, hne⟩
  · rintro ⟨hinput | hresult, hne⟩
    · exact .inl hinput
    · exact .inr ⟨hresult, hne⟩

/-- What is used afterwards is the name that is kept, or was used before. -/
theorem uses (hm : Merged g place n drop keep h) {value : String} (hused : h.Uses value) :
    value = keep ∨ g.Uses value ∧ value ≠ drop := by
  rcases hused with ⟨hout, hne⟩ | ⟨k, hk, hread⟩
  · rw [hm.outputs] at hout
    rcases mem_map_substituteName hout with ⟨hkeep, -⟩ | ⟨hout, hdrop⟩
    · exact .inl hkeep
    · exact .inr ⟨.inl ⟨hout, hne⟩, hdrop⟩
  · obtain ⟨m, -, hmem, rfl⟩ := hm.mem_nodes hk
    rcases Node.mem_reads_merged hread with ⟨hkeep, -⟩ | ⟨hread, hdrop⟩
    · exact .inl hkeep
    · exact .inr ⟨.inr ⟨m, hmem, hread⟩, hdrop⟩

/-- The name that is dropped was defined, if it is one. -/
theorem defines_drop (hm : Merged g place n drop keep h) (hne : drop ≠ "") :
    g.defines drop = true := by
  refine Graph.defines_iff.2 (.inr ?_)
  rcases hm.ends with ⟨-, hout⟩ | ⟨-, -, hproduced⟩
  · exact Graph.mem_results.2 ⟨n, hm.mem_node, Node.mem_results.2 ⟨by simp [hout], hne⟩⟩
  · exact hproduced

/-- The name that is kept was defined, or taken from outside. -/
theorem defines_or_uses_keep (hm : Merged g place n drop keep h) :
    g.defines keep = true ∨ g.Uses keep := by
  rcases hm.ends with ⟨hin, -⟩ | ⟨-, hout, -⟩
  · exact .inr (.inr ⟨n, hm.mem_node, Node.mem_reads.2 (.inl ⟨by simp [hin], hm.present⟩)⟩)
  · refine .inl (Graph.defines_iff.2 (.inr (Graph.mem_results.2 ⟨n, hm.mem_node, ?_⟩)))
    exact Node.mem_results.2 ⟨by simp [hout], hm.present⟩

/-- Nothing more is taken from outside. -/
theorem outerReferences_subset (hm : Merged g place n drop keep h) (hg : Wellformed visible g) :
    h.outerReferences ⊆ g.outerReferences := by
  intro value hvalue
  obtain ⟨hdef, hused⟩ := mem_outerReferences_iff.1 hvalue
  have hnot {other : String} (hother : other ≠ drop) (hdef : h.defines other = false) :
      g.defines other = false := by
    rw [Bool.eq_false_iff] at hdef ⊢
    exact fun hbefore => hdef ((hm.defines_iff hg).2 ⟨hbefore, hother⟩)
  rcases hm.uses hused with rfl | ⟨hused, hne⟩
  · have hbefore := hnot hm.distinct.symm hdef
    refine mem_outerReferences_iff.2 ⟨hbefore, hm.defines_or_uses_keep.resolve_left ?_⟩
    simp [hbefore]
  · exact mem_outerReferences_iff.2 ⟨hnot hne hdef, hused⟩

/-- The values still ascend: the merged one has taken the level of what the identity took in. -/
private theorem exists_ascending (hm : Merged g place n drop keep h) (hg : Wellformed visible g) :
    ∃ level, h.Ascending level := by
  obtain ⟨level, hlevel⟩ := hg.exists_ascending
  obtain ⟨input, output, hin, hout, hpair⟩ : ∃ input output, n.inputs = [input] ∧
      n.outputs = [output] ∧
      (keep = input ∧ drop = output ∨ keep = output ∧ drop = input ∧ input ∈ g.results) := by
    rcases hm.ends with ⟨hin, hout⟩ | ⟨hin, hout, hproduced⟩
    · exact ⟨_, _, hin, hout, .inl ⟨rfl, rfl⟩⟩
    · exact ⟨_, _, hin, hout, .inr ⟨rfl, rfl, hproduced⟩⟩
  have hyields (hne : output ≠ "") : output ∈ n.results :=
    Node.mem_results.2 ⟨by simp [hout], hne⟩
  have hbelow (hinput : input ∈ g.results) (hne : output ≠ "") : level input < level output :=
    hlevel n hm.mem_node input
      (Node.mem_reads.2 (.inl ⟨by simp [hin], Graph.ne_empty_of_mem_results hinput⟩)) hinput output
      (hyields hne)
  let merged (value : String) : Nat := if value = keep then level input else level value
  refine ⟨merged, fun k hk read hread hresult value hvalue => ?_⟩
  obtain ⟨m, hrest, hmem, rfl⟩ := hm.mem_nodes hk
  have hbefore := ((hm.mem_results hg).1 hresult).1
  -- the node read a value before that does not lie below what it reads now
  obtain ⟨r, hr, hrproduced, hrlevel⟩ :
      ∃ r ∈ m.reads, r ∈ g.results ∧ merged read ≤ level r := by
    rcases Node.mem_reads_merged hread with ⟨rfl, hdrop⟩ | ⟨hread, hne⟩
    · refine ⟨drop, hdrop, ?_⟩
      rcases hpair with ⟨rfl, rfl⟩ | ⟨-, rfl, hproduced⟩
      · have hne := Node.ne_empty_of_mem_reads hdrop
        exact ⟨Graph.mem_results.2 ⟨n, hm.mem_node, hyields hne⟩,
          by simpa [merged] using Nat.le_of_lt (hbelow hbefore hne)⟩
      · exact ⟨hproduced, by simp [merged]⟩
    · refine ⟨read, hread, hbefore, ?_⟩
      by_cases hkeep : read = keep
      · rcases hpair with ⟨rfl, -⟩ | ⟨rfl, -, hproduced⟩
        · simp [merged, hkeep]
        · simpa [merged, hkeep] using Nat.le_of_lt (hbelow hproduced hm.present)
      · simp [merged, hkeep]
  -- and yielded one that does not lie above what it yields now
  obtain ⟨v, hv, hvlevel⟩ : ∃ v ∈ m.results, level v ≤ merged value := by
    rw [Node.results_merged hm.present] at hvalue
    obtain ⟨v, hv, rfl⟩ := List.mem_map.1 hvalue
    have hnot : v ≠ output := fun e =>
      ((hg.mem_results_eraseIdx hm.node).1 (List.mem_flatMap.2 ⟨m, hrest, hv⟩)).2 (by simp [hout, e])
    refine ⟨v, hv, ?_⟩
    rw [substituteName_eq]
    split
    · rename_i hdrop
      rcases hpair with ⟨-, rfl⟩ | ⟨-, rfl, -⟩
      · exact absurd hdrop hnot
      · simp [merged, hdrop]
    · by_cases hkeep : v = keep
      · rcases hpair with ⟨rfl, -⟩ | ⟨rfl, -⟩
        · simp [merged, hkeep]
        · exact absurd hkeep hnot
      · simp [merged, hkeep]
  calc merged read ≤ level r := hrlevel
    _ < level v := hlevel m hmem r hr hrproduced v hv
    _ ≤ merged value := hvlevel

/-- A tree stays well formed when the two values of an identity in its root become one. -/
theorem wellformedTree (hm : Merged g place n drop keep h) (hg : WellformedTree visible g) :
    WellformedTree visible h := by
  have here := hg.here
  have hseen {value : String} (hvalue : g.seenIn visible value) (hne : value ≠ drop) :
      h.seenIn visible value :=
    hvalue.imp_right fun hdef => (hm.defines_iff here).2 ⟨hdef, hne⟩
  have hkeep : g.seenIn visible keep := hm.defines_or_uses_keep.elim .inr hg.seenIn_of_uses
  have hused {value : String} (hvalue : h.Uses value) : h.seenIn visible value := by
    rcases hm.uses hvalue with rfl | ⟨hbefore, hne⟩
    · exact hseen hkeep hm.distinct.symm
    · exact hseen (hg.seenIn_of_uses hbefore) hne
  have hnodes := hm.nodes
  have hresults {value : String} (hvalue : value ∈ h.results) : value ∈ g.results :=
    ((hm.mem_results here).1 hvalue).1
  refine .intro
    { names := ?_, results := hm.nodup_results here, apart := ?_, newInputs := ?_,
      newResults := fun value hvalue => here.newResults value (hresults hvalue), taken := ?_,
      yielded := ?_, ordered := ?_, keyed := ?_, named := hm.inputs ▸ here.named,
      unseen := here.unseen, equipped := ?_ } ?_
  · rw [hnodes, List.map_map]
    refine here.names.sublist ?_
    simpa [Function.comp_def] using (List.eraseIdx_sublist g.nodes place).map Node.name
  · rw [hm.inputs]
    exact fun value hvalue => here.apart value (hresults hvalue)
  · rw [hm.inputs]
    exact here.newInputs
  · exact fun k hk value hvalue hne => hused (.inr ⟨k, hk, Node.mem_reads.2 (.inl ⟨hvalue, hne⟩)⟩)
  · intro value hvalue
    refine hused (.inl ⟨hvalue, ?_⟩)
    rw [hm.outputs] at hvalue
    rcases mem_map_substituteName hvalue with ⟨rfl, -⟩ | ⟨hmem, -⟩
    · exact hm.present
    · exact here.ne_empty_of_mem_outputs hmem
  · obtain ⟨level, hlevel⟩ := hm.exists_ascending here
    exact exists_order _ hlevel
  · intro k hk
    obtain ⟨m, -, hmem, rfl⟩ := hm.mem_nodes hk
    exact Node.keyed_merged (here.keyed m hmem)
  · intro k hk
    obtain ⟨m, -, hmem, rfl⟩ := hm.mem_nodes hk
    exact m.sameInterface_merged.equipped (here.equipped m hmem)
  · intro k hk body hbody
    obtain ⟨m, -, hmem, rfl⟩ := hm.mem_nodes hk
    have htree : WellformedTree (g.seenIn visible) body.2 := by
      refine WellformedTree.bodies_replaceReads (fun before hbefore => ?_) hbody
      rw [Node.bodies_renamed] at hbefore
      exact ⟨hg.body hmem hbefore, WellformedTree.substituteOuter (hg.body hmem hbefore) hkeep⟩
    refine htree.narrow (fun value => Or.imp_right fun hdef => ?_) fun value hvalue => ?_
    · exact ((hm.defines_iff here).1 hdef).1
    · exact hused (.inr ⟨_, hk, Node.mem_reads.2 (.inr ⟨body, hbody, hvalue⟩)⟩)

end Merged

end Graph

end TensorGraph
