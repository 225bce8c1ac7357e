import TensorGraph.Proofs.Upkeep

/-!
# Gathered sizes

Where the sizes of a transposed value are not known, they are gathered from those of the value
before while the graph runs. Two nodes join the graph for it, with names that are new.

The names are chosen when the sizes have lost their producer for a moment. If nothing reads
them, their name is free then, and the order in which the sizes are gathered may get it. This is
where spare values come from.

## Main results

* `Transposes.Gathered.tidyTree` -- a tree stays tidy when sizes are gathered in its root.
-/

namespace TensorGraph

namespace Graph

/-- The names in use beside those of the inputs and outputs of one node. -/
theorem mem_names_putNode_or {g : Graph} {place : Nat} {n k : Node} {name : String}
    (hn : g.nodes[place]? = some n) (hname : k.name = n.name) (hbodies : k.bodies = n.bodies)
    (h : name ∈ g.names) :
    name ∈ (g.putNode place k).names ∨ name ∈ n.inputs ∨ name ∈ n.outputs := by
  have hlt := (List.getElem?_eq_some_iff.1 hn).1
  rw [names_eq, List.mem_append] at h
  rcases h with h | h
  · left
    rw [names_eq, List.mem_append]
    exact .inl h
  · obtain ⟨m, hm, hused⟩ := List.mem_flatMap.1 h
    rcases eq_or_elsewhere hn hm with rfl | hother
    · have hk : k ∈ (g.putNode place k).nodes := (mem_set_iff hlt).2 (.inl rfl)
      simp only [List.mem_append, List.mem_cons] at hused
      rcases hused with ((hused | hused) | hused) | hused
      · exact .inl (mem_names_of_mem_node hk (.inl (hused.trans hname.symm)))
      · exact .inr (.inl hused)
      · exact .inr (.inr hused)
      · obtain ⟨body, hbody, hused⟩ := List.mem_flatMap.1 hused
        exact .inl (names_body hk (hbodies ▸ hbody) hused)
    · left
      rw [names_eq, List.mem_append]
      exact .inr (List.mem_flatMap.2 ⟨m, (mem_set_iff hlt).2 (.inr hother), hused⟩)

end Graph

namespace Transposes.Gathered

open TensorGraph.Graph

variable {taken : String → Prop} {s : Surroundings} {g h : Graph} {t : PlacedTranspose}
  {place : Nat} {n : Node} {sizes indices gather : String}

theorem mem_nodes (hs : Gathered s g t place n sizes indices gather h)
    (hn : g.nodes[place]? = some n) {k : Node} :
    k ∈ h.nodes ↔ (∃ j, j ≠ place ∧ g.nodes[j]? = some k) ∨ k = sizesNode t n sizes ∨
      k = indicesNode t indices ∨ k = gatherNode gather sizes indices (n.outputs.headD "") := by
  rw [hs.eq, List.mem_append, mem_set_iff (List.getElem?_eq_some_iff.1 hn).1]
  simp only [List.mem_cons, List.not_mem_nil, or_false]
  exact ⟨by rintro ((h | h) | h | h) <;> simp [h], by rintro (h | h | h | h) <;> simp [h]⟩

theorem mem_results_indicesNode {indices value : String} :
    value ∈ (indicesNode t indices).results ↔ value = indices ∧ value ≠ "" := by
  rw [Node.mem_results]
  simp [indicesNode, Node.constant]

@[simp] theorem reads_indicesNode (t : PlacedTranspose) (indices : String) :
    (indicesNode t indices).reads = [] := rfl

@[simp] theorem bodies_gatherNode (gather sizes indices yielded : String) :
    (gatherNode gather sizes indices yielded).bodies = [] := rfl

theorem mem_reads_gatherNode {gather sizes indices yielded value : String} :
    value ∈ (gatherNode gather sizes indices yielded).reads ↔
      (value = sizes ∨ value = indices) ∧ value ≠ "" := by
  rw [Node.mem_reads]
  simp [gatherNode, Node.bodies, Attribute.body?]

theorem mem_results_gatherNode {gather sizes indices yielded value : String} :
    value ∈ (gatherNode gather sizes indices yielded).results ↔ value = yielded ∧ value ≠ "" := by
  rw [Node.mem_results]
  simp [gatherNode]

theorem mem_results_sizesNode {value : String} :
    value ∈ (sizesNode t n sizes).results ↔ value = sizes ∧ value ≠ "" := by
  rw [Node.mem_results]
  simp [sizesNode]

theorem mem_reads_sizesNode {value : String} (h : value ∈ (sizesNode t n sizes).reads) :
    value = t.source ∨ value ∈ n.reads := by
  rcases Node.mem_reads.1 h with ⟨h, -⟩ | ⟨body, hbody, h⟩
  · exact .inl (by simpa [sizesNode] using h)
  · exact .inr (Node.mem_reads.2 (.inr ⟨body, hbody, h⟩))

/-- What the names that are given are new to. -/
private theorem mem_base (hn : g.nodes[place]? = some n) {j : Nat} (hj : j ≠ place) {m : Node}
    (hm : g.nodes[j]? = some m) :
    m ∈ (g.putNode place { n with inputs := [t.source], outputs := [] }).nodes :=
  (mem_set_iff (List.getElem?_eq_some_iff.1 hn).1).2 (.inr ⟨j, hj, hm⟩)

private theorem mem_base_self (hn : g.nodes[place]? = some n) :
    { n with inputs := [t.source], outputs := [] } ∈
      (g.putNode place { n with inputs := [t.source], outputs := [] }).nodes :=
  (mem_set_iff (List.getElem?_eq_some_iff.1 hn).1).2 (.inl rfl)

private theorem yielded_mem_outputs (houtputs : n.outputs = [n.outputs.headD ""]) :
    n.outputs.headD "" ∈ n.outputs := by
  rw [houtputs]
  exact List.mem_singleton_self _

/-- Only the node that takes the sizes of the value before yields them. -/
private theorem once_sizes (hs : Gathered s g t place n sizes indices gather h)
    (hn : g.nodes[place]? = some n) (houtputs : n.outputs = [n.outputs.headD ""]) :
    h.Once sizes := by
  refine .of_name n.name fun k hk hvk => ?_
  rcases (hs.mem_nodes hn).1 hk with ⟨j, -, hj⟩ | rfl | rfl | rfl
  · exact absurd (mem_names_of_mem_results (mem_results.2 ⟨k, List.mem_of_getElem? hj, hvk⟩))
      hs.newSizes.2
  · rfl
  · exact absurd (mem_results_indicesNode.1 hvk).1.symm hs.newIndices.2.1
  · have hmem := mem_names_of_mem_node (List.mem_of_getElem? hn)
      (.inr (.inr (yielded_mem_outputs houtputs)))
    exact absurd ((mem_results_gatherNode.1 hvk).1 ▸ hmem) hs.newSizes.2

/-- What yields the order: the constant, or the gathering node if it has got the name for its
result. -/
private theorem eq_of_indices_mem_results (hs : Gathered s g t place n sizes indices gather h)
    (hn : g.nodes[place]? = some n) {k : Node} (hk : k ∈ h.nodes) (hvk : indices ∈ k.results) :
    k.name = gather ∧ indices = n.outputs.headD "" ∨ k.name = indices ∧ k.op = "Constant" := by
  obtain ⟨-, hdistinct, hnew⟩ := hs.newIndices
  rcases (hs.mem_nodes hn).1 hk with ⟨j, hj, hk⟩ | rfl | rfl | rfl
  · exact absurd (mem_names_of_mem_results (mem_results.2 ⟨k, mem_base hn hj hk, hvk⟩)) hnew
  · exact absurd (mem_results_sizesNode.1 hvk).1 hdistinct
  · exact .inr ⟨rfl, rfl⟩
  · exact .inl ⟨rfl, (mem_results_gatherNode.1 hvk).1⟩

/-- Only the gathering node reads the order. -/
private theorem name_of_reads_indices (hs : Gathered s g t place n sizes indices gather h)
    (hn : g.nodes[place]? = some n) {k : Node} (hk : k ∈ h.nodes) (hread : indices ∈ k.reads) :
    k.name = gather := by
  have hnew := hs.newIndices.2.2
  rcases (hs.mem_nodes hn).1 hk with ⟨j, hj, hk⟩ | rfl | rfl | rfl
  · exact absurd (mem_names_of_mem_reads (mem_base (t := t) hn hj hk) hread) hnew
  · have hself := mem_base_self (t := t) hn
    refine absurd ?_ hnew
    rcases Node.mem_reads.1 hread with ⟨hin, -⟩ | ⟨body, hbody, hout⟩
    · exact mem_names_of_mem_node hself (.inr (.inl hin))
    · exact names_body hself hbody (mem_names_of_outerReferences hout)
  · simp at hread
  · rfl

private theorem single_indices (hs : Gathered s g t place n sizes indices gather h)
    (hn : g.nodes[place]? = some n) : h.Once indices ∨ h.Spare indices := by
  by_cases hv : indices = n.outputs.headD "" ∧ indices ≠ ""
  · -- the order has got the name of the gathered sizes
    right
    refine ⟨fun hout => ?_, gatherNode gather sizes indices (n.outputs.headD ""),
      (hs.mem_nodes hn).2 (.inr (.inr (.inr rfl))), rfl, by simp [gatherNode],
      mem_results_gatherNode.2 hv, fun k hk hread => hs.name_of_reads_indices hn hk hread, indices,
      fun k hk hvk => (hs.eq_of_indices_mem_results hn hk hvk).imp_left And.left⟩
    rw [hs.eq] at hout
    exact hs.newIndices.2.2 (mem_names_of_mem_outputs hout)
  · refine .inl (.of_name indices fun k hk hvk => ?_)
    rcases hs.eq_of_indices_mem_results hn hk hvk with ⟨-, hvk'⟩ | ⟨hname, -⟩
    · exact absurd ⟨hvk', Node.ne_empty_of_mem_results hvk⟩ hv
    · exact hname

/-- The gathered sizes have the name of the sizes before, which nothing else yielded. -/
private theorem once_yielded (hs : Gathered s g t place n sizes indices gather h) (hg : Tidy taken g)
    (hn : g.nodes[place]? = some n) (hop : n.op ≠ "Gather" ∧ n.op ≠ "Constant")
    (houtputs : n.outputs = [n.outputs.headD ""]) (hpresent : n.outputs.headD "" ≠ "")
    (hsizes : n.outputs.headD "" ≠ sizes) (hindices : n.outputs.headD "" ≠ indices) :
    h.Once (n.outputs.headD "") := by
  have hmem := List.mem_of_getElem? hn
  have hvn := Node.mem_results.2 ⟨yielded_mem_outputs houtputs, hpresent⟩
  have honce := hg.once hmem hvn hop.1 hop.2
  refine .of_name gather fun k hk hvk => ?_
  rcases (hs.mem_nodes hn).1 hk with ⟨j, hj, hk⟩ | rfl | rfl | rfl
  · exact absurd (hg.place_eq hk hn (honce k (List.mem_of_getElem? hk) n hmem hvk hvn)) hj
  · exact absurd (mem_results_sizesNode.1 hvk).1 hsizes
  · exact absurd (mem_results_indicesNode.1 hvk).1 hindices
  · rfl

/-- A value that none of the changed nodes yields keeps its producers. -/
private theorem single_of_others (hs : Gathered s g t place n sizes indices gather h)
    (hg : Tidy taken g) (ht : t.Stands s g) (hn : g.nodes[place]? = some n) (hop : n.op ≠ "Gather")
    {value : String} (hsizes : value ≠ sizes) (hindices : value ≠ indices)
    (hfrom : ∀ k ∈ h.nodes, value ∈ k.results → ∃ j, j ≠ place ∧ g.nodes[j]? = some k) :
    h.Once value ∨ h.Spare value := by
  rcases hg.single value with honce | hspare
  · left
    intro k hk l hl hvk hvl
    obtain ⟨j, -, hk⟩ := hfrom k hk hvk
    obtain ⟨j', -, hl⟩ := hfrom l hl hvl
    exact honce k (List.mem_of_getElem? hk) l (List.mem_of_getElem? hl) hvk hvl
  right
  obtain ⟨k, hk, hkop, hin, hout, hreaders, constant, hconstant⟩ := hspare.gather
  have hother := elsewhere_of_ne hn hk fun e => hop (e ▸ hkop)
  refine ⟨?_, k, (hs.mem_nodes hn).2 (.inl hother), hkop, hin, hout,
    fun l hl hread => ?_, constant, fun l hl hvl => ?_⟩
  · rw [hs.eq]
    exact hspare.inside
  · have hnot : ∀ m ∈ g.nodes, m.op ≠ "Gather" → value ∉ m.reads := fun m hm hmop hread =>
      hmop (hspare.op_of_reads hg.names hm hread)
    rcases (hs.mem_nodes hn).1 hl with ⟨j, hj, hl⟩ | rfl | rfl | rfl
    · exact hreaders l (List.mem_of_getElem? hl) hread
    · rcases mem_reads_sizesNode hread with rfl | hread
      · exact absurd ht.source_mem_reads (hnot t.node ht.mem (by rw [ht.op]; decide))
      · exact absurd hread (hnot n (List.mem_of_getElem? hn) hop)
    · simp at hread
    · exact ((mem_reads_gatherNode.1 hread).1.elim hsizes hindices).elim
  · obtain ⟨j, -, hl⟩ := hfrom l hl hvl
    exact hconstant l (List.mem_of_getElem? hl) hvl

/-- The name of the gathered sizes belongs to them alone, beside the order at the most. -/
private theorem single (hs : Gathered s g t place n sizes indices gather h) (hg : Tidy taken g)
    (ht : t.Stands s g) (hn : g.nodes[place]? = some n)
    (hop : n.op ≠ "Gather" ∧ n.op ≠ "Constant") (houtputs : n.outputs = [n.outputs.headD ""])
    (value : String) : h.Once value ∨ h.Spare value := by
  by_cases hsizes : value = sizes
  · exact .inl (hsizes ▸ hs.once_sizes hn houtputs)
  by_cases hindices : value = indices
  · exact hindices ▸ hs.single_indices hn
  by_cases hv : value = n.outputs.headD "" ∧ value ≠ ""
  · obtain ⟨rfl, hpresent⟩ := hv
    exact .inl (hs.once_yielded hg hn hop houtputs hpresent hsizes hindices)
  refine hs.single_of_others hg ht hn hop.1 hsizes hindices fun k hk hvk => ?_
  rcases (hs.mem_nodes hn).1 hk with hk | rfl | rfl | rfl
  · exact hk
  · exact absurd (mem_results_sizesNode.1 hvk).1 hsizes
  · exact absurd (mem_results_indicesNode.1 hvk).1 hindices
  · exact absurd (mem_results_gatherNode.1 hvk) hv

/-- The names of the nodes are in use when new ones are given. -/
private theorem name_mem_base (hn : g.nodes[place]? = some n) {name : String}
    (hname : name ∈ g.nodes.map Node.name) :
    name ∈ (g.putNode place { n with inputs := [t.source], outputs := [] }).names := by
  obtain ⟨m, hm, rfl⟩ := List.mem_map.1 hname
  rcases eq_or_elsewhere hn hm with rfl | ⟨j, hplace, hj⟩
  · exact mem_names_of_mem_node (mem_base_self hn) (.inl rfl)
  · exact mem_names_of_mem_node (mem_base hn hplace hj) (.inl rfl)

private theorem tidy (hs : Gathered s g t place n sizes indices gather h) (hg : Tidy taken g)
    (ht : t.Stands s g) (hcovers : ∀ value, taken value → value ∈ s.reserved)
    (hn : g.nodes[place]? = some n) (hop : n.op ≠ "Gather" ∧ n.op ≠ "Constant")
    (houtputs : n.outputs = [n.outputs.headD ""]) : Tidy taken h := by
  have hmem := List.mem_of_getElem? hn
  obtain ⟨hindicesTaken, -, hnewIndices⟩ := hs.newIndices
  obtain ⟨-, -, hgather, hnewGather⟩ := hs.newGather
  have hlt := (List.getElem?_eq_some_iff.1 hn).1
  have hset : (g.nodes.set place (sizesNode t n sizes)).map Node.name = g.nodes.map Node.name := by
    refine List.ext_getElem (by simp) fun i h₁ h₂ => ?_
    rw [List.getElem_map, List.getElem_map, List.getElem_set]
    split
    · rename_i hi
      subst hi
      rw [List.getElem?_eq_getElem hlt, Option.some.injEq] at hn
      rw [hn]
      rfl
    · rfl
  refine hg.of_nodes (by rw [hs.eq]) ?_ (fun k hk => ?_) (hs.single hg ht hn hop houtputs)
    (fun value hvalue => ?_) fun k hk => ?_
  · rw [hs.eq, List.map_append, hset]
    refine List.nodup_append.2 ⟨hg.names, ?_, ?_⟩
    · simp only [List.map_cons, List.map_nil, List.nodup_cons, List.mem_singleton,
        List.not_mem_nil, not_false_eq_true, List.nodup_nil, and_true]
      exact fun e => hgather e.symm
    · simp only [List.map_cons, List.map_nil, List.mem_cons, List.not_mem_nil, or_false]
      rintro name hname other (rfl | rfl) rfl
      · exact hnewIndices (name_mem_base hn hname)
      · exact hnewGather (name_mem_base hn hname)
  · rcases (hs.mem_nodes hn).1 hk with ⟨j, -, hk⟩ | rfl | rfl | rfl
    · exact hg.distinct k (List.mem_of_getElem? hk)
    all_goals exact (List.nodup_singleton _).filter _
  · obtain ⟨k, hk, hvk⟩ := mem_results.1 hvalue
    rcases (hs.mem_nodes hn).1 hk with ⟨j, -, hk⟩ | rfl | rfl | rfl
    · exact .inl (mem_results.2 ⟨k, List.mem_of_getElem? hk, hvk⟩)
    · right
      rw [(mem_results_sizesNode.1 hvk).1]
      exact ⟨fun hin => hs.newSizes.2 (mem_names_of_mem_inputs hin),
        fun htaken => hs.newSizes.1 (hcovers sizes htaken)⟩
    · right
      rw [(mem_results_indicesNode.1 hvk).1]
      exact ⟨fun hin => hnewIndices (mem_names_of_mem_inputs hin),
        fun htaken => hindicesTaken (hcovers indices htaken)⟩
    · obtain ⟨hv, hne⟩ := mem_results_gatherNode.1 hvk
      refine .inl (mem_results.2 ⟨n, hmem, Node.mem_results.2 ⟨?_, hne⟩⟩)
      rw [houtputs, hv]
      exact List.mem_singleton_self _
  · rcases (hs.mem_nodes hn).1 hk with ⟨j, -, hk⟩ | rfl | rfl | rfl
    · exact hg.keyed k (List.mem_of_getElem? hk)
    · exact hg.keyed n hmem
    all_goals exact List.nodup_singleton _

theorem keepsBodies (hs : Gathered s g t place n sizes indices gather h)
    (hn : g.nodes[place]? = some n) {allowed : String → String → Prop} :
    KeepsBodies allowed g h := by
  intro k hk body hbody
  rcases (hs.mem_nodes hn).1 hk with ⟨j, -, hk⟩ | rfl | rfl | rfl
  · exact ⟨k, List.mem_of_getElem? hk, rfl, body, hbody, rfl, .refl⟩
  · exact ⟨n, List.mem_of_getElem? hn, rfl, body, hbody, rfl, .refl⟩
  · cases hbody
  · cases hbody

/-- A tree stays tidy when the sizes of a value of its root are gathered. -/
theorem tidyTree (hs : Gathered s g t place n sizes indices gather h) (hg : TidyTree taken g)
    (ht : t.Stands s g) (hcovers : ∀ value, taken value → value ∈ s.reserved)
    (hn : g.nodes[place]? = some n) (hop : n.op ≠ "Gather" ∧ n.op ≠ "Constant")
    (houtputs : n.outputs = [n.outputs.headD ""]) : TidyTree taken h := by
  have hmem := List.mem_of_getElem? hn
  -- the order is mentioned nowhere else, or where the sizes were
  have hindices : indices ≠ "" → g.Mentions indices ∨ indices ∉ g.names := by
    intro hne
    by_cases hused : indices ∈ g.names
    · left
      rcases mem_names_putNode_or (k := { n with inputs := [t.source], outputs := [] }) hn rfl rfl
        hused with hbase | hin | hout
      · exact absurd hbase hs.newIndices.2.2
      · exact .inr ⟨hne, n, hmem, hin⟩
      · exact .inl (defines_iff.2 (.inr (mem_results.2 ⟨n, hmem, Node.mem_results.2 ⟨hout, hne⟩⟩)))
    · exact .inr hused
  refine hg.of_root (hs.tidy hg.here ht hcovers hn hop houtputs) (fun value hmention => ?_)
    (hs.keepsBodies hn)
  rcases hmention with hdef | ⟨hne, k, hk, hin⟩
  · rcases defines_iff.1 hdef with hin | hresult
    · rw [hs.eq] at hin
      exact .inl (.inl (defines_iff.2 (.inl hin)))
    · obtain ⟨k, hk, hvk⟩ := mem_results.1 hresult
      rcases (hs.mem_nodes hn).1 hk with ⟨j, -, hk⟩ | rfl | rfl | rfl
      · exact .inl (.inl (defines_iff.2
          (.inr (mem_results.2 ⟨k, List.mem_of_getElem? hk, hvk⟩))))
      · exact .inr ((mem_results_sizesNode.1 hvk).1 ▸ hs.newSizes.2)
      · obtain ⟨rfl, hne⟩ := mem_results_indicesNode.1 hvk
        exact hindices hne
      · obtain ⟨rfl, hne⟩ := mem_results_gatherNode.1 hvk
        refine .inl (.inl (defines_iff.2 (.inr (mem_results.2 ⟨n, hmem, ?_⟩))))
        refine Node.mem_results.2 ⟨?_, hne⟩
        rw [houtputs]
        exact List.mem_singleton_self _
  · rcases (hs.mem_nodes hn).1 hk with ⟨j, -, hk⟩ | rfl | rfl | rfl
    · exact .inl (.inr ⟨hne, k, List.mem_of_getElem? hk, hin⟩)
    · obtain rfl := List.mem_singleton.1 hin
      exact .inl (.inr ⟨hne, t.node, ht.mem, by simp [ht.inputs]⟩)
    · cases hin
    · rcases List.mem_cons.1 hin with rfl | hin
      · exact .inr hs.newSizes.2
      · obtain rfl := List.mem_singleton.1 hin
        exact hindices hne

end Transposes.Gathered

end TensorGraph
