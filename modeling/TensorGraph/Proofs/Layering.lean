import TensorGraph.Proofs.Resolving

/-!
# Layers

A graph stays free of cycles when its values can be put into layers such that every node reads values
of lower layers than it yields. After every edit there are layers again. The one exception is a
node that gathers sizes: if the order of the sizes has got the name of what the node yields, the
node reads that name itself.

## Main results

* `Graph.Layered.of_order` -- a graph with an order has layers.
* `Graph.Layered.exists_order` -- and back, if no gathering node reads what it yields.
* `Rewriting.Effect.layered` -- an edit leaves a graph with layers.
-/

namespace TensorGraph

/-- A node without bodies reads its inputs only. -/
theorem Node.mem_inputs_of_mem_reads {n : Node} (hbodies : n.bodies = []) {value : String}
    (hread : value ∈ n.reads) : value ∈ n.inputs := by
  rcases Node.mem_reads.1 hread with ⟨hin, -⟩ | ⟨body, hbody, -⟩
  · exact hin
  · rw [hbodies] at hbody
    cases hbody

namespace Graph

/-- Every node reads values of lower layers than those that it yields. Only a gathering node may
read what it yields itself. -/
def IsLayering (g : Graph) (layer : String → Nat) : Prop :=
  ∀ n ∈ g.nodes, ∀ read ∈ n.reads, read ∈ g.results → ∀ value ∈ n.results,
    layer read < layer value ∨ read = value ∧ n.op = "Gather"

/-- The values of a graph can be put into layers. -/
def Layered (g : Graph) : Prop := ∃ layer, g.IsLayering layer

/-- Whether no gathering node of a graph reads what it yields. -/
def Unclashing (g : Graph) : Prop :=
  ∀ n ∈ g.nodes, n.op = "Gather" → ∀ value ∈ n.results, value ∉ n.inputs

variable {taken : String → Prop} {g h : Graph} {layer : String → Nat}

theorem IsLayering.lt (hl : g.IsLayering layer) {n : Node} (hn : n ∈ g.nodes)
    (hop : n.op ≠ "Gather") {read value : String} (hread : read ∈ n.reads)
    (hproduced : read ∈ g.results) (hvalue : value ∈ n.results) : layer read < layer value :=
  (hl n hn read hread hproduced value hvalue).resolve_right fun h => hop h.2

/-! ## Layers and orders -/

/-- A graph with an order in which every value is yielded once has layers. -/
theorem Layered.of_order (hg : Tidy taken g) (honce : ∀ value, g.Once value) {order : List Nat}
    (h : g.topologicalOrder = .ok order) : g.Layered := by
  obtain ⟨level, hlevel⟩ := hg.exists_level h
  exact ⟨level, fun n hn read hread hproduced value hvalue =>
    .inl (hlevel n hn read hread hproduced value hvalue (honce value))⟩

/-- Where no gathering node reads what it yields, there are no spare values. -/
theorem Unclashing.not_spare (hg : g.Unclashing) (value : String) : ¬ g.Spare value := by
  intro hspare
  obtain ⟨k, hk, hop, hin, hout, -⟩ := hspare.gather
  exact hg k hk hop value hout hin

/-- A graph with layers has an order, if no gathering node reads what it yields. -/
theorem Layered.exists_order (hl : g.Layered) (hosted : g.Hosted) (hg : g.Unclashing) :
    ∃ order, g.topologicalOrder = .ok order := by
  obtain ⟨layer, hlayer⟩ := hl
  refine Acyclic.topologicalOrder ⟨layer, fun n hn read hread hproduced value hvalue _ => ?_⟩
    hg.not_spare
  refine (hlayer n hn read hread hproduced value hvalue).resolve_right ?_
  rintro ⟨rfl, hop⟩
  have hbodies := hosted.bodies_eq_nil hn (by rw [hop]; decide) (by rw [hop]; decide)
  exact hg n hn hop read hvalue (Node.mem_inputs_of_mem_reads hbodies hread)

/-- In a graph with an order no node reads what it yields, if every value is yielded once. -/
theorem Unclashing.of_order (hg : Tidy taken g) (honce : ∀ value, g.Once value) {order : List Nat}
    (h : g.topologicalOrder = .ok order) : g.Unclashing := by
  obtain ⟨level, hlevel⟩ := hg.exists_level h
  intro n hn _ value hvalue hin
  have := hlevel n hn value (Node.mem_reads.2 (.inl ⟨hin, Node.ne_empty_of_mem_results hvalue⟩))
    (mem_results.2 ⟨n, hn, hvalue⟩) value hvalue (honce value)
  omega

/-! ## Other layers -/

/-- There are layers in which a value lies below another one, when the only node that yields it reads
a value that a node reads which yields the other one. -/
theorem IsLayering.lowered (hl : g.IsLayering layer) {n m : Node} (hn : n ∈ g.nodes)
    (hm : m ∈ g.nodes) (hnop : n.op ≠ "Gather") (hmop : m.op ≠ "Gather") {source old new : String}
    (hnreads : source ∈ n.reads) (hmreads : ∀ read ∈ m.reads, read = source) (hold : old ∈ n.results)
    (hdistinct : old ≠ new) (honce : ∀ k ∈ g.nodes, new ∈ k.results → k = m) :
    ∃ layer, g.IsLayering layer ∧ (new ∈ g.results → layer new < layer old) := by
  refine ⟨fun value => if value = new then 2 * min (layer new) (layer old) else 2 * layer value + 1,
    fun k hk read hread hproduced value hvalue => ?_, fun _ => ?_⟩
  · by_cases hnew : value = new
    · -- the value that is lowered still lies above what its node reads
      subst hnew
      obtain rfl := honce k hk hvalue
      obtain rfl := hmreads read hread
      have h₁ := hl.lt hm hmop hread hproduced hvalue
      have h₂ := hl.lt hn hnop hnreads hproduced hold
      have hne : read ≠ value := fun e => by rw [e] at h₁; omega
      simp only [if_neg hne, if_true]
      omega
    · rcases hl k hk read hread hproduced value hvalue with hlt | hself
      · left
        simp only [if_neg hnew]
        split
        · rename_i hread
          rw [hread] at hlt
          omega
        · omega
      · exact .inr hself
  · simp only [if_true, if_neg hdistinct]
    omega

/-- There are layers in which what a node reads lies below what it yields, even if that is
nothing. -/
theorem IsLayering.above (hl : g.IsLayering layer) {n : Node} (hn : n ∈ g.nodes)
    (hop : n.op ≠ "Gather") {yielded : String} (houtputs : n.outputs = [yielded]) :
    ∃ layer, g.IsLayering layer ∧
      ∀ read ∈ n.reads, read ∈ g.results → layer read < layer yielded := by
  by_cases hempty : yielded = ""
  · subst hempty
    refine ⟨fun value => if value = "" then
      n.reads.foldr (fun read top => max (layer read + 1) top) 0 else layer value,
      fun k hk read hread hproduced value hvalue => ?_, fun read hread _ => ?_⟩
    · simp only [if_neg (Node.ne_empty_of_mem_reads hread),
        if_neg (Node.ne_empty_of_mem_results hvalue)]
      exact hl k hk read hread hproduced value hvalue
    · simp only [if_neg (Node.ne_empty_of_mem_reads hread), if_true]
      exact lt_foldr_max hread
  · exact ⟨layer, hl, fun read hread hproduced => hl.lt hn hop hread hproduced
      (Node.mem_results.2 ⟨by simp [houtputs], hempty⟩)⟩

/-- Layers in which the value `low` lies right below `high`, and names that are not in use at the
bottom. -/
def slipped (g : Graph) (layer : String → Nat) (low high value : String) : Nat :=
  if value = low then 2 * layer high - 1 else if value ∈ g.names then 2 * layer value else 0

section Slipped

variable (layer : String → Nat) {low value : String} (high : String)

theorem slipped_self : g.slipped layer low high low = 2 * layer high - 1 := if_pos rfl

theorem slipped_of_mem (hne : value ≠ low) (hvalue : value ∈ g.names) :
    g.slipped layer low high value = 2 * layer value := by
  rw [slipped, if_neg hne, if_pos hvalue]

theorem slipped_of_not_mem (hne : value ≠ low) (hvalue : value ∉ g.names) :
    g.slipped layer low high value = 0 := by
  rw [slipped, if_neg hne, if_neg hvalue]

end Slipped

/-! ## Layers after a change -/

/-- A graph has the same layers when it loses nodes, or has them in another order. -/
theorem IsLayering.of_subset (hl : g.IsLayering layer) (hnodes : h.nodes ⊆ g.nodes) :
    h.IsLayering layer := by
  intro n hn read hread hproduced
  obtain ⟨m, hm, hvm⟩ := mem_results.1 hproduced
  exact hl n (hnodes hn) read hread (mem_results.2 ⟨m, hnodes hm, hvm⟩)

/-- A value that has one producer, which is no gathering node, is read by no node that yields
it. -/
private theorem lt_of_read (hl : g.IsLayering layer) (hg : Tidy taken g) {n k : Node}
    (hn : n ∈ g.nodes) (hop : n.op ≠ "Gather" ∧ n.op ≠ "Constant") (hk : k ∈ g.nodes)
    {read value : String} (hproduced : read ∈ n.results) (hread : read ∈ k.reads)
    (hvalue : value ∈ k.results) : layer read < layer value := by
  refine (hl k hk read hread (mem_results.2 ⟨n, hn, hproduced⟩) value hvalue).resolve_right ?_
  rintro ⟨rfl, hgather⟩
  obtain rfl := hg.eq_of_mem_results hk hn (hg.once hn hproduced hop.1 hop.2) hvalue hproduced
  exact hop.1 hgather

theorem Bypassed.isLayering {place : Nat} {n : Node} {old new : String}
    (hb : Bypassed g place n old new h) (hg : Tidy taken g) (hl : g.IsLayering layer)
    (hlower : old ≠ "" → new ∈ g.results → layer new < layer old) : h.IsLayering layer := by
  intro k hk read hread hproduced value hvalue
  have hproduced := hb.results_subset hproduced
  obtain ⟨j, -, m, hm, rfl⟩ := hb.mem_nodes.1 hk
  have hm := List.mem_of_getElem? hm
  rw [Node.results_replaceReads] at hvalue
  rw [Node.op_replaceReads]
  rcases Node.mem_reads_replaceReads hread with ⟨rfl, hold⟩ | ⟨hread, -⟩
  · left
    have hne := Node.ne_empty_of_mem_reads hold
    have hyields : old ∈ n.results := Node.mem_results.2 ⟨by simp [hb.outputs], hne⟩
    exact Nat.lt_trans (hlower hne hproduced)
      (lt_of_read hl hg (List.mem_of_getElem? hb.node) hb.op hm hyields hold hvalue)
  · exact hl m hm read hread hproduced value hvalue

theorem Promoted.isLayering {place : Nat} {n : Node} {old new : String}
    (hp : Promoted g place n old new h) (hg : Tidy taken g) (hl : g.IsLayering layer)
    (hlower : old ≠ "" → new ∈ g.results → layer new < layer old) : h.Layered := by
  -- the value under its new name lies where it lay before
  refine ⟨fun value => if value = old then layer new else layer value, ?_⟩
  intro k hk read hread hproduced value hvalue
  have hproduced := hp.results_subset hproduced
  obtain ⟨before, hbefore, j, m, hj, hm, rfl⟩ := hp.mem_nodes hk
  have hmem := List.mem_of_getElem? hm
  obtain ⟨hneread, hread⟩ := hp.mem_reads_node hbefore hread
  have hvalue := (mem_results_node hbefore).1 hvalue
  rw [op_node hbefore]
  -- what the node read and yielded before
  obtain ⟨r, hr, hrproduced, hrle, hrsame⟩ : ∃ r ∈ m.reads, r ∈ g.results ∧
      (if read = old then layer new else layer read) ≤ layer r ∧
      (r = new ∧ read = old ∨ r = read) := by
    rcases hread with ⟨rfl, hnew⟩ | hread
    · exact ⟨new, hnew, hp.produced, by simp, .inl ⟨rfl, rfl⟩⟩
    · refine ⟨read, hread, hproduced, ?_, .inr rfl⟩
      split
      · rename_i hold
        rw [hold]
        exact Nat.le_of_lt (hlower (hold ▸ Node.ne_empty_of_mem_reads hread) hp.produced)
      · exact Nat.le_refl _
  obtain ⟨v, hv, hvsame, hvold⟩ : ∃ v ∈ m.results,
      (if value = old then layer new else layer value) = layer v ∧
      (v = new ∧ value = old ∨ v = value ∧ value ≠ old ∧ value ≠ new) := by
    rcases hvalue with ⟨-, rfl, hnew⟩ | ⟨hne, hvm⟩
    · exact ⟨new, hnew, by simp, .inl ⟨rfl, rfl⟩⟩
    · have hne' : value ≠ old := fun e => hp.old_not_mem_results hg hj hm (e ▸ hvm)
      exact ⟨value, hvm, by simp [hne'], .inr ⟨rfl, hne', hne⟩⟩
  rcases hl m hmem r hr hrproduced v hv with hlt | ⟨rfl, hgather⟩
  · left
    simp only [hvsame]
    omega
  · right
    refine ⟨?_, hgather⟩
    rcases hrsame with ⟨rfl, rfl⟩ | rfl
    · exact (hvold.elim (fun h => h.2) fun h => absurd h.1.symm h.2.2).symm
    · exact hvold.elim (fun h => absurd h.1 hneread) And.left

theorem Replaced.isLayering {place : Nat} {n k : Node} (hr : Replaced g place n k h)
    (hl : g.IsLayering layer)
    (hk : ∀ read ∈ k.reads, read ∈ g.results → ∀ value ∈ n.results, layer read < layer value) :
    h.IsLayering layer := by
  intro m hm read hread hproduced value hvalue
  have hproduced := hr.mem_results.1 hproduced
  rcases hr.mem_nodes.1 hm with rfl | ⟨j, -, hj⟩
  · rw [hr.results] at hvalue
    exact .inl (hk read hread hproduced value hvalue)
  · exact hl m (List.mem_of_getElem? hj) read hread hproduced value hvalue

end Graph

namespace Rewriting

open TensorGraph.Graph Transposes Relocation

variable {taken : String → Prop} {s : Surroundings} {g h : Graph} {kind : Kind}

private theorem bodies_of_transposition (hosted : g.Hosted) {n : Node} (hn : n ∈ g.nodes)
    (hop : n.op = "Transpose") : n.bodies = [] :=
  hosted.bodies_eq_nil hn (by rw [hop]; decide) (by rw [hop]; decide)

/-- There are layers in which what stands for the result of a node lies below it. -/
theorem StandsFor.exists_layering {n : Node} {old new : String} (hreason : StandsFor s g n new kind)
    (hg : Tidy taken g) (hosted : g.Hosted) (hl : g.Layered) (hn : n ∈ g.nodes)
    (houtputs : n.outputs = [old]) (hdistinct : old = new → old = "") :
    ∃ layer, g.IsLayering layer ∧ (old ≠ "" → new ∈ g.results → layer new < layer old) := by
  obtain ⟨layer, hlayer⟩ := hl
  by_cases hempty : old = ""
  · exact ⟨layer, hlayer, fun hne => absurd hempty hne⟩
  have hold : old ∈ n.results := Node.mem_results.2 ⟨by simp [houtputs], hempty⟩
  have hnop := hreason.op_ne.1
  -- what the node reads lies below its result
  have hbelow {read : String} (hin : n.inputs = [read]) (hproduced : read ∈ g.results) :
      layer read < layer old :=
    hlayer.lt hn hnop (Node.mem_reads.2 (.inl ⟨by simp [hin], ne_empty_of_mem_results hproduced⟩))
      hproduced hold
  -- of two nodes that read one value either may be the lower one
  have hswap {m : Node} {source : String} (hm : m ∈ g.nodes) (hmop : m.op = "Transpose")
      (hnin : n.inputs = [source]) (hmin : m.inputs = [source]) (hpresent : source ≠ "")
      (hmout : m.outputs = [new]) :
      ∃ layer, g.IsLayering layer ∧ (old ≠ "" → new ∈ g.results → layer new < layer old) := by
    have hne := transposition_ne hmop
    have honce : ∀ k ∈ g.nodes, new ∈ k.results → k = m := by
      intro k hk hvk
      have hvm : new ∈ m.results :=
        Node.mem_results.2 ⟨by simp [hmout], Node.ne_empty_of_mem_results hvk⟩
      exact hg.eq_of_mem_results hk hm (hg.once hm hvm hne.1 hne.2) hvk hvm
    have hmreads : ∀ read ∈ m.reads, read = source := fun read hread => by
      simpa [hmin] using Node.mem_inputs_of_mem_reads (bodies_of_transposition hosted hm hmop) hread
    obtain ⟨layer, hlayer, hlower⟩ := hlayer.lowered hn hm hnop hne.1
      (Node.mem_reads.2 (.inl ⟨by simp [hnin], hpresent⟩)) hmreads hold
      (fun e => hempty (hdistinct e)) honce
    exact ⟨layer, hlayer, fun _ => hlower⟩
  cases hreason with
  | forwarded op inputs present => exact ⟨layer, hlayer, fun _ => hbelow inputs⟩
  | unmoved stands node source perm =>
      exact ⟨layer, hlayer, fun _ => hbelow (by rw [node, source]; exact stands.inputs)⟩
  | undone stands resolved inputs source present rank perm =>
      refine ⟨layer, hlayer, fun _ hproduced => ?_⟩
      subst source
      have hmiddle := Node.mem_results.2 ⟨stands.outputs ▸ List.mem_singleton_self _, present⟩
      exact Nat.lt_trans
        (hlayer.lt stands.mem (transposition_ne stands.op).1 stands.source_mem_reads hproduced hmiddle)
        (hbelow inputs (Graph.mem_results.2 ⟨_, stands.mem, hmiddle⟩))
  | first stands resolved inputs source =>
      exact hswap stands.mem stands.op inputs stands.inputs stands.present (source ▸ stands.outputs)
  | second stands node mem resolved inputs outputs =>
      exact hswap mem (resolvePermutation_ok resolved).1 (node ▸ stands.inputs) inputs stands.present
        outputs

/-- Where sizes are gathered, the order of the sizes has a new name or that of the gathered sizes. -/
private theorem eq_of_indices_mem {t : PlacedTranspose} {place : Nat} {n : Node}
    {sizes indices gather : String} (hs : Gathered s g t place n sizes indices gather h)
    (ht : t.Stands s g) (hn : g.nodes[place]? = some n) (htakes : takesSizes t n = true)
    (hindices : indices ∈ g.names) : indices = n.outputs.headD "" := by
  obtain ⟨hop, hin, -⟩ := takesSizes_op htakes
  rcases mem_names_putNode_or (k := { n with inputs := [t.source], outputs := [] }) hn rfl rfl hindices
    with hbase | hmem | hmem
  · exact absurd hbase hs.newIndices.2.2
  · -- the transposition still stands in the graph without the sizes
    have hplace : t.place ≠ place := by
      rintro rfl
      obtain rfl := Option.some.inj (hn.symm.trans ht.node)
      rw [ht.op] at hop
      exact absurd hop (by decide)
    rw [hin, List.mem_singleton] at hmem
    refine absurd (mem_names_of_mem_node (n := t.node) ?_ (.inr (.inr ?_))) hs.newIndices.2.2
    · exact (mem_set_iff (List.getElem?_eq_some_iff.1 hn).1).2 (.inr ⟨t.place, hplace, ht.node⟩)
    · rw [hmem, ht.outputs]
      exact List.mem_singleton_self _
  · rw [(takesSizes_ne htakes).2.2] at hmem
    exact List.mem_singleton.1 hmem

/-- A name in use that is yielded once sizes have been gathered was yielded before. -/
private theorem mem_results_of_gathered {t : PlacedTranspose} {place : Nat} {n : Node}
    {sizes indices gather : String} (hs : Gathered s g t place n sizes indices gather h)
    (ht : t.Stands s g) (hn : g.nodes[place]? = some n) (htakes : takesSizes t n = true)
    {value : String} (hvalue : value ∈ h.results) (hname : value ∈ g.names) :
    value ∈ g.results := by
  have hyields : value = n.outputs.headD "" → value ∈ g.results := fun e =>
    Graph.mem_results.2 ⟨n, List.mem_of_getElem? hn, Node.mem_results.2
      ⟨(takesSizes_ne htakes).2.2 ▸ e ▸ List.mem_singleton_self _,
        Graph.ne_empty_of_mem_results hvalue⟩⟩
  obtain ⟨k, hk, hvk⟩ := Graph.mem_results.1 hvalue
  rcases (hs.mem_nodes hn).1 hk with ⟨j, -, hj⟩ | rfl | rfl | rfl
  · exact Graph.mem_results.2 ⟨k, List.mem_of_getElem? hj, hvk⟩
  · exact absurd ((Gathered.mem_results_sizesNode.1 hvk).1 ▸ hname) hs.newSizes.2
  · obtain rfl := (Gathered.mem_results_indicesNode.1 hvk).1
    exact hyields (eq_of_indices_mem hs ht hn htakes hname)
  · exact hyields (Gathered.mem_results_gatherNode.1 hvk).1

private theorem layered_of_gathered {t : PlacedTranspose} {place : Nat} {n : Node}
    {sizes indices gather : String} (hs : Gathered s g t place n sizes indices gather h)
    (ht : t.Stands s g) (hn : g.nodes[place]? = some n) (htakes : takesSizes t n = true)
    (hpresent : t.output ≠ "") (hl : g.Layered) : h.Layered := by
  have hmem := List.mem_of_getElem? hn
  obtain ⟨hgather, -, houtputs⟩ := takesSizes_ne htakes
  obtain ⟨-, hin, -⟩ := takesSizes_op htakes
  obtain ⟨_, hbefore⟩ := hl
  obtain ⟨layer, hlayer, habove⟩ := hbefore.above hmem hgather houtputs
  -- the value before the transposition lies two layers below the sizes
  have hmiddle : t.output ∈ t.node.results :=
    Node.mem_results.2 ⟨ht.outputs ▸ List.mem_singleton_self _, hpresent⟩
  have houtput : layer t.output < layer (n.outputs.headD "") :=
    habove _ (Node.mem_reads.2 (.inl ⟨by simp [hin], hpresent⟩))
      (Graph.mem_results.2 ⟨_, ht.mem, hmiddle⟩)
  have hsource (hproduced : t.source ∈ g.results) : layer t.source < layer t.output :=
    hlayer.lt ht.mem (transposition_ne ht.op).1 ht.source_mem_reads hproduced hmiddle
  have hresult {value : String} (hvalue : value ∈ h.results) (hname : value ∈ g.names) :=
    mem_results_of_gathered hs ht hn htakes hvalue hname
  have hold {value : String} (hvalue : value ∈ g.names) : value ≠ sizes :=
    fun e => hs.newSizes.2 (e ▸ hvalue)
  have hnamed {value : String} (hvalue : value ∈ g.names) :=
    slipped_of_mem layer (n.outputs.headD "") (hold hvalue) hvalue
  refine ⟨g.slipped layer sizes (n.outputs.headD ""),
    fun k hk read hread hproduced value hvalue => ?_⟩
  rcases (hs.mem_nodes hn).1 hk with ⟨j, -, hj⟩ | rfl | rfl | rfl
  · have hkmem := List.mem_of_getElem? hj
    have hrname := mem_names_of_mem_reads hkmem hread
    rw [hnamed hrname,
      hnamed (mem_names_of_mem_results (Graph.mem_results.2 ⟨k, hkmem, hvalue⟩))]
    refine (hlayer k hkmem read hread (hresult hproduced hrname) value hvalue).imp_left fun hlt => ?_
    omega
  · left
    obtain rfl := (Gathered.mem_results_sizesNode.1 hvalue).1
    rw [slipped_self]
    rcases Gathered.mem_reads_sizesNode hread with rfl | hread
    · have hrname := mem_names_of_mem_reads ht.mem ht.source_mem_reads
      have := hsource (hresult hproduced hrname)
      rw [hnamed hrname]
      omega
    · have hrname := mem_names_of_mem_reads hmem hread
      have := habove read hread (hresult hproduced hrname)
      rw [hnamed hrname]
      omega
  · cases hread
  · obtain ⟨rfl, hne⟩ := Gathered.mem_results_gatherNode.1 hvalue
    have hyielded : n.outputs.headD "" ∈ g.names :=
      mem_names_of_mem_node hmem (.inr (.inr (houtputs ▸ List.mem_singleton_self _)))
    rw [hnamed hyielded]
    rcases (Gathered.mem_reads_gatherNode.1 hread).1 with rfl | rfl
    · left
      rw [slipped_self]
      omega
    · -- the order lies at the bottom, unless it has the name of the sizes
      by_cases hindices : read ∈ g.names
      · exact .inr ⟨eq_of_indices_mem hs ht hn htakes hindices, rfl⟩
      · left
        rw [slipped_of_not_mem _ _ hs.newIndices.2.1 hindices]
        omega

section Relocated

variable {t : PlacedTranspose} {place : Nat} {consumer : Node} {policy : ConstantPolicy}
  {attributes : List (String × Attribute)} {p : Plan} {inputs : List String} {value : String}

/-- Only the transposition yields the transposed value. -/
private theorem eq_of_output_mem_results
    (hrel : Relocatable s g t place consumer policy attributes p) (hg : Tidy taken g) {n : Node}
    (hn : n ∈ g.nodes) (hvalue : t.output ∈ n.results) : n = t.node :=
  have hne := transposition_ne hrel.stands.op
  hg.eq_of_mem_results hn hrel.stands.mem (hg.once hrel.stands.mem hrel.mem_output hne.1 hne.2)
    hvalue hrel.mem_output

/-- A name in use that is yielded once an operator has been moved was yielded before. -/
private theorem mem_results_of_relocated
    (hrel : Relocatable s g t place consumer policy attributes p)
    (hr : Relocated s g t consumer attributes inputs h) (hvalue : value ∈ h.results)
    (hname : value ∈ g.names) : value ∈ g.results := by
  obtain ⟨k, hk, hvk⟩ := Graph.mem_results.1 hvalue
  rcases hr.origin k hk with ⟨n, hn, -, -, hlike⟩ | ⟨target, literal, hlike, -, -, hnew⟩ | rfl | rfl
  · exact Graph.mem_results.2 ⟨n, hn, hlike.results ▸ hvk⟩
  · rw [hlike.results] at hvk
    exact absurd (List.mem_singleton.1 (Node.mem_results.1 hvk).1 ▸ hname) hnew
  · rw [List.mem_singleton.1 (Node.mem_results.1 hvk).1]
    exact Graph.mem_results.2 ⟨_, hrel.stands.mem, hrel.mem_output⟩
  · obtain ⟨hyielded, hne⟩ := Node.mem_results.1 hvk
    exact Graph.mem_results.2
      ⟨consumer, hrel.mem, Node.mem_results.2 ⟨hrel.outputs ▸ hyielded, hne⟩⟩

/-- What an operator reads after the move lies below what it yields, and is not the transposed
value. -/
private theorem below_of_fed (hrel : Relocatable s g t place consumer policy attributes p)
    (hg : Tidy taken g) (hreaders : ∀ n ∈ g.nodes, t.output ∈ n.reads → n = consumer)
    {layer : String → Nat} (hlayer : g.IsLayering layer)
    (habove : ∀ read ∈ consumer.reads, read ∈ g.results →
      layer read < layer (consumer.outputs.headD ""))
    (hfed : Fed s g consumer value) (hproduced : value ∈ g.results) :
    value ≠ t.output ∧ layer value < layer (consumer.outputs.headD "") := by
  have hfirst {input : String} {n : Node} (hn : n ∈ g.nodes) (hin : input ∈ consumer.inputs)
      (hvalue : input ∈ n.results) : layer input < layer (consumer.outputs.headD "") :=
    habove _ (Node.mem_reads.2 (.inl ⟨hin, Node.ne_empty_of_mem_results hvalue⟩))
      (Graph.mem_results.2 ⟨n, hn, hvalue⟩)
  cases hfed with
  | before mem op inputs read result =>
      have hread := Node.mem_reads.2
        (.inl ⟨inputs ▸ List.mem_singleton_self _, Graph.ne_empty_of_mem_results hproduced⟩)
      refine ⟨?_, Nat.lt_trans
        (hlayer.lt mem (transposition_ne op).1 hread hproduced result) (hfirst mem read result)⟩
      rintro rfl
      exact hrel.op.1 (hreaders _ mem hread ▸ op)
  | constant mem op read result target =>
      rcases target with rfl | ⟨-, hnew⟩
      · refine ⟨?_, hfirst mem read result⟩
        rintro rfl
        have hconstant := eq_of_output_mem_results hrel hg mem result ▸ op
        exact (transposition_ne hrel.stands.op).2 hconstant
      · exact absurd (mem_names_of_mem_results hproduced) hnew

/-- The operator has no bodies where it is moved to. -/
private theorem bodies_front (hrel : Relocatable s g t place consumer policy attributes p)
    (hosted : g.Hosted) : (frontNode consumer attributes inputs t.output).bodies = [] := by
  have hsub := bodies_frontNode hrel inputs t.output
  rw [hosted.bodies_eq_nil_of_transparent hrel.mem (passage?_eq_some hrel.passage).1] at hsub
  exact List.eq_nil_of_subset_nil hsub

/-- The transposition has no bodies where it is moved to. -/
private theorem bodies_behind (hrel : Relocatable s g t place consumer policy attributes p)
    (hosted : g.Hosted) (yielded : String) :
    (behindNode t.node t.perm t.output yielded).bodies = [] := by
  have hsub := bodies_behindNode t.node t.perm t.output yielded
  rw [bodies_of_transposition hosted hrel.stands.mem hrel.stands.op] at hsub
  exact List.eq_nil_of_subset_nil hsub

private theorem layered_of_relocated (hrel : Relocatable s g t place consumer policy attributes p)
    (hr : Relocated s g t consumer attributes inputs h) (hg : Tidy taken g) (hosted : g.Hosted)
    (hreaders : ∀ n ∈ g.nodes, t.output ∈ n.reads → n = consumer) (hl : g.Layered) : h.Layered := by
  obtain ⟨_, hbefore⟩ := hl
  obtain ⟨layer, hlayer, habove⟩ := hbefore.above hrel.mem hrel.op.2.2 hrel.outputs
  have htransposed : t.output ∈ g.results :=
    Graph.mem_results.2 ⟨_, hrel.stands.mem, hrel.mem_output⟩
  have hpositive : layer t.output < layer (consumer.outputs.headD "") :=
    habove _ (Node.mem_reads.2 (.inl ⟨hrel.reads, hrel.present⟩)) htransposed
  have hnamed {value : String} (hvalue : value ∈ g.names) (hother : value ≠ t.output) :=
    slipped_of_mem layer (consumer.outputs.headD "") hother hvalue
  have hresult {value : String} (hvalue : value ∈ h.results) (hname : value ∈ g.names) :=
    mem_results_of_relocated hrel hr hvalue hname
  refine ⟨g.slipped layer t.output (consumer.outputs.headD ""),
    fun k hk read hread hproduced value hvalue => ?_⟩
  rcases hr.origin k hk with ⟨n, hn, hnt, hnc, hlike⟩ | ⟨target, literal, hlike, -⟩ | rfl | rfl
  · -- an old node neither reads nor yields the transposed value
    have hread := hlike.mem_reads.1 hread
    rw [hlike.results] at hvalue
    rw [hlike.op]
    have hrname := mem_names_of_mem_reads hn hread
    rw [hnamed hrname fun e => hnc (hreaders n hn (e ▸ hread)),
      hnamed (mem_names_of_mem_results (Graph.mem_results.2 ⟨n, hn, hvalue⟩))
        fun e => hnt (eq_of_output_mem_results hrel hg hn (e ▸ hvalue))]
    refine (hlayer n hn read hread (hresult hproduced hrname) value hvalue).imp_left fun hlt => ?_
    omega
  · have hread := hlike.mem_reads.1 hread
    cases hread
  · left
    have hvalue : value = t.output := List.mem_singleton.1 (Node.mem_results.1 hvalue).1
    have hin : read ∈ inputs := Node.mem_inputs_of_mem_reads (bodies_front hrel hosted) hread
    rw [hvalue, slipped_self]
    by_cases hrname : read ∈ g.names
    · obtain ⟨hother, hlt⟩ := below_of_fed hrel hg hreaders hlayer habove (hr.fed read hin)
        (hresult hproduced hrname)
      rw [hnamed hrname hother]
      omega
    · have hother : read ≠ t.output := by
        rintro rfl
        exact hrname (mem_names_of_mem_results htransposed)
      rw [slipped_of_not_mem _ _ hother hrname]
      omega
  · left
    have hvalue : value = consumer.outputs.headD "" :=
      List.mem_singleton.1 (Node.mem_results.1 hvalue).1
    have hin : read = t.output := List.mem_singleton.1
      (Node.mem_inputs_of_mem_reads (bodies_behind hrel hosted _) hread)
    have hother : consumer.outputs.headD "" ≠ t.output := fun e => by
      rw [e] at hpositive
      omega
    have hyielded : consumer.outputs.headD "" ∈ consumer.outputs :=
      hrel.outputs ▸ List.mem_singleton_self _
    rw [hin, hvalue, slipped_self,
      hnamed (mem_names_of_mem_node hrel.mem (.inr (.inr hyielded))) hother]
    omega

end Relocated

/-- An edit leaves a graph with layers. -/
theorem Effect.layered (he : Effect s g kind h) (hg : TidyTree taken g)
    (hcovers : ∀ value, taken value → value ∈ s.reserved) (hosted : g.Hosted) (hl : g.Layered) :
    h.Layered := by
  cases he with
  | @bypassed _ place n old new _ reason result =>
      obtain ⟨layer, hlayer, hlower⟩ := reason.exists_layering hg.here hosted hl
        (List.mem_of_getElem? result.node) result.outputs result.other
      exact ⟨layer, result.isLayering hg.here hlayer hlower⟩
  | @promoted _ place n old new _ reason result =>
      obtain ⟨layer, hlayer, hlower⟩ := reason.exists_layering hg.here hosted hl
        (List.mem_of_getElem? result.node) result.outputs (fun e => absurd e result.other)
      exact result.isLayering hg.here hlayer hlower
  | @replaced _ place n k _ reason result =>
      have hn := List.mem_of_getElem? result.node
      have hnone := reason.bodies_eq_nil hosted hn
      cases reason with
      | shim outputs distinct reason =>
          obtain ⟨layer, hlayer, hlower⟩ :=
            reason.exists_layering hg.here hosted hl hn outputs distinct
          refine ⟨layer, result.isLayering hlayer fun read hread hproduced value hvalue => ?_⟩
          obtain rfl := List.mem_singleton.1 (Node.mem_inputs_of_mem_reads hnone hread)
          obtain ⟨hmem, hne⟩ := Node.mem_results.1 hvalue
          rw [outputs, List.mem_singleton] at hmem
          exact hmem ▸ hlower (hmem ▸ hne) hproduced
      | rebase stands inputs present resolved rank =>
          obtain ⟨layer, hlayer⟩ := hl
          refine ⟨layer, result.isLayering hlayer fun read hread hproduced value hvalue => ?_⟩
          obtain rfl := List.mem_singleton.1 (Node.mem_inputs_of_mem_reads hnone hread)
          have hmiddle := Node.mem_results.2 ⟨stands.outputs ▸ List.mem_singleton_self _, present⟩
          exact Nat.lt_trans
            (hlayer.lt stands.mem (transposition_ne stands.op).1 stands.source_mem_reads hproduced
              hmiddle)
            (hlayer.lt hn (transposition_ne (resolvePermutation_ok resolved).1).1
              (Node.mem_reads.2 (.inl ⟨inputs ▸ List.mem_singleton_self _, present⟩))
              (Graph.mem_results.2 ⟨_, stands.mem, hmiddle⟩) hvalue)
      | sizes =>
          obtain ⟨layer, hlayer⟩ := hl
          refine ⟨layer, result.isLayering hlayer fun read hread => ?_⟩
          cases Node.mem_inputs_of_mem_reads hnone hread
  | gathered stands node takes present result =>
      exact layered_of_gathered result stands node takes present hl
  | @relocated t place consumer policy attributes p arranged detached cleaned moved h placed
      rebuiltPlace inside readers conditions result infos =>
      have hmoved := layered_of_relocated conditions (result.relocated conditions hg hcovers) hg.here
        hosted readers hl
      rw [infos]
      exact hmoved
  | removed result =>
      obtain ⟨layer, hlayer⟩ := hl
      obtain ⟨n, -, -, rfl⟩ := removeUnreferenced?_eq_some result
      exact ⟨layer, hlayer.of_subset (List.eraseIdx_sublist g.nodes _).subset⟩

end Rewriting

end TensorGraph
