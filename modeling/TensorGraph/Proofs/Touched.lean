import TensorGraph.Proofs.Bodies

/-!
# What rules for transpositions touch

A rule for transpositions changes little beside the transpositions themselves: what transpositions
yield and what transparent operators make of it may get another layout or another name, and so may a
value of the graph that a transposition reads, and a constant beside a value of another layout. Of
other values the same is known before and after, and bodies go on reading them. No rule touches more
than the one before, so what is not touched at first is never touched.

## Main results

* `Graph.not_touches` -- without transpositions nothing is touched.
* `Rewriting.Edit.touches` -- an edit leaves no other values to be touched.
* `Rewriting.Edit.get?_infos` -- an edit changes nothing that is known of values that are not touched.
* `Rewriting.Edit.keepsBodies_touched` -- nothing else is replaced in bodies than what is touched.
-/

namespace TensorGraph

open TensorGraph.Graph

namespace Graph

/-- The values of a graph that may get another layout: what a transposition yields, and what a
transparent operator makes of such a value. -/
inductive Shifts (g : Graph) : String → Prop
  | yielded {n : Node} {value : String} (mem : n ∈ g.nodes) (op : n.op = "Transpose")
      (output : value ∈ n.outputs) : Shifts g value
  | carried {n : Node} {input value : String} (mem : n ∈ g.nodes)
      (transparent : Capability.isTransparent n.op = true) (read : input ∈ n.inputs)
      (present : input ≠ "") (before : Shifts g input) (output : value ∈ n.outputs) :
      Shifts g value

/-- Whether a node is a transparent operator on a value that may get another layout. -/
def Passes (g : Graph) (n : Node) : Prop :=
  n ∈ g.nodes ∧ Capability.isTransparent n.op = true ∧
    ∃ input ∈ n.inputs, input ≠ "" ∧ g.Shifts input

/-- The values of a graph that a rule for transpositions may touch. -/
inductive Touches (g : Graph) (value : String) : Prop
  /-- It may get another layout. -/
  | shifted (shifts : g.Shifts value)
  /-- The graph yields it, and a transposition reads it. -/
  | turned {n : Node} (mem : n ∈ g.nodes) (op : n.op = "Transpose") (read : value ∈ n.inputs)
      (result : value ∈ g.results)
  /-- It is a constant that a transparent operator takes with a value that may get another layout. -/
  | beside {n m : Node} (passes : g.Passes n) (operand : value ∈ n.inputs) (constant : m ∈ g.nodes)
      (op : m.op = "Constant") (result : value ∈ m.results)

variable {g h : Graph} {value : String}

theorem Passes.shifts {n : Node} (hn : g.Passes n) (hvalue : value ∈ n.outputs) : g.Shifts value := by
  obtain ⟨hmem, htransparent, input, hread, hpresent, hbefore⟩ := hn
  exact .carried hmem htransparent hread hpresent hbefore hvalue

/-- What may be touched is a value of the graph, if it has a name at all. -/
theorem Touches.mem_results (ht : g.Touches value) (hne : value ≠ "") : value ∈ g.results := by
  have houtput : ∀ {n : Node}, n ∈ g.nodes → value ∈ n.outputs → value ∈ g.results := fun hn hmem =>
    Graph.mem_results.2 ⟨_, hn, Node.mem_results.2 ⟨hmem, hne⟩⟩
  cases ht with
  | shifted shifts =>
      cases shifts with
      | yielded mem _ output => exact houtput mem output
      | carried mem _ _ _ _ output => exact houtput mem output
  | turned _ _ _ result => exact result
  | beside _ _ constant _ result => exact Graph.mem_results.2 ⟨_, constant, result⟩

/-- Where there are no transpositions nothing is touched. -/
theorem not_touches (hg : ∀ n ∈ g.nodes, n.op ≠ "Transpose") (value : String) : ¬ g.Touches value := by
  have hshifts : ∀ {value}, ¬ g.Shifts value := fun hs => by
    induction hs with
    | yielded mem op => exact hg _ mem op
    | carried _ _ _ _ _ _ ih => exact ih
  rintro (shifts | ⟨mem, op, -, -⟩ | ⟨⟨-, -, _, -, -, shifts⟩, -⟩)
  · exact hshifts shifts
  · exact hg _ mem op
  · exact hshifts shifts

/-- No more is touched in a graph whose nodes all do what nodes of another graph do. -/
theorem Touches.of_nodes (hnodes : ∀ k ∈ h.nodes, ∃ n ∈ g.nodes,
    k.op = n.op ∧ k.inputs = n.inputs ∧ k.outputs = n.outputs) (ht : h.Touches value) :
    g.Touches value := by
  have hshifts : ∀ {value}, h.Shifts value → g.Shifts value := fun hs => by
    induction hs with
    | yielded mem op output =>
        obtain ⟨n, hn, hop, -, houtputs⟩ := hnodes _ mem
        exact .yielded hn (hop ▸ op) (houtputs ▸ output)
    | carried mem transparent read present _ output ih =>
        obtain ⟨n, hn, hop, hinputs, houtputs⟩ := hnodes _ mem
        exact .carried hn (hop ▸ transparent) (hinputs ▸ read) present ih (houtputs ▸ output)
  have hresults : ∀ {k : Node}, k ∈ h.nodes → value ∈ k.results → ∃ n ∈ g.nodes, k.op = n.op ∧
      value ∈ n.results := fun hk hvalue => by
    obtain ⟨n, hn, hop, -, houtputs⟩ := hnodes _ hk
    obtain ⟨hmem, hne⟩ := Node.mem_results.1 hvalue
    exact ⟨n, hn, hop, Node.mem_results.2 ⟨houtputs ▸ hmem, hne⟩⟩
  cases ht with
  | shifted shifts => exact .shifted (hshifts shifts)
  | turned mem op read result =>
      obtain ⟨n, hn, hop, hinputs, -⟩ := hnodes _ mem
      obtain ⟨k, hk, hvalue⟩ := Graph.mem_results.1 result
      obtain ⟨m, hm, -, hvalue⟩ := hresults hk hvalue
      exact .turned hn (hop ▸ op) (hinputs ▸ read) (Graph.mem_results.2 ⟨m, hm, hvalue⟩)
  | beside passes operand constant op result =>
      obtain ⟨mem, transparent, input, read, present, before⟩ := passes
      obtain ⟨n, hn, hop, hinputs, -⟩ := hnodes _ mem
      obtain ⟨m, hm, hmop, hvalue⟩ := hresults constant result
      exact .beside ⟨hn, hop ▸ transparent, input, hinputs ▸ read, present, hshifts before⟩
        (hinputs ▸ operand) hm (hmop ▸ op) hvalue

/-! ## Nodes that are bypassed -/

/-- An operator reads a value of another layout afterwards only if it has done so before. -/
private theorem Bypassed.passes {place : Nat} {n m : Node} {old new input : String}
    (hb : Bypassed g place n old new h) (hop : n.op = "Transpose") (hm : m ∈ g.nodes)
    (transparent : Capability.isTransparent m.op = true)
    (read : input ∈ (m.replaceReads old new).inputs) (present : input ≠ "")
    (hinput : g.Shifts input) : g.Passes m := by
  rcases Node.mem_inputs_replaceReads read with ⟨rfl, hread, hne⟩ | hread
  · exact ⟨hm, transparent, old, hread, hne,
      .yielded (List.mem_of_getElem? hb.node) hop (by simp [hb.outputs])⟩
  · exact ⟨hm, transparent, input, hread, present, hinput⟩

/-- No more is touched when a transposition is bypassed by a value that is touched if it is one of
the graph. -/
theorem Bypassed.touches {place : Nat} {n : Node} {old new : String} (hb : Bypassed g place n old new h)
    (hop : n.op = "Transpose") (hnew : new ∈ g.results → g.Touches new) (ht : h.Touches value) :
    g.Touches value := by
  have hfrom : ∀ {k}, k ∈ h.nodes → ∃ m ∈ g.nodes, m.replaceReads old new = k := fun hk => by
    obtain ⟨j, -, m, hm, rfl⟩ := hb.mem_nodes.1 hk
    exact ⟨m, List.mem_of_getElem? hm, rfl⟩
  have hshifts : ∀ {value}, h.Shifts value → g.Shifts value := fun hs => by
    induction hs with
    | yielded mem op output =>
        obtain ⟨m, hm, rfl⟩ := hfrom mem
        exact .yielded hm (by simpa using op) (by simpa using output)
    | carried mem transparent read present _ output ih =>
        obtain ⟨m, hm, rfl⟩ := hfrom mem
        rw [Node.op_replaceReads] at transparent
        exact (hb.passes hop hm transparent read present ih).shifts (by simpa using output)
  cases ht with
  | shifted shifts => exact .shifted (hshifts shifts)
  | turned mem op read result =>
      obtain ⟨m, hm, rfl⟩ := hfrom mem
      have hresult := hb.results_subset result
      rcases Node.mem_inputs_replaceReads read with ⟨rfl, -, -⟩ | hread
      · exact hnew hresult
      · exact .turned hm (by simpa using op) hread hresult
  | beside passes operand constant op result =>
      obtain ⟨mem, transparent, input, read, present, before⟩ := passes
      obtain ⟨k, hk, rfl⟩ := hfrom mem
      obtain ⟨m, hm, rfl⟩ := hfrom constant
      rw [Node.op_replaceReads] at transparent op
      rw [Node.results_replaceReads] at result
      rcases Node.mem_inputs_replaceReads operand with ⟨rfl, -, -⟩ | hread
      · exact hnew (Graph.mem_results.2 ⟨m, hm, result⟩)
      · exact .beside (hb.passes hop hk transparent read present (hshifts before)) hread hm op result

/-- An operator reads a value of another layout afterwards only if it has done so before, be it under
the name that the value had. -/
private theorem Promoted.passes {place : Nat} {n m : Node} {old new input : String}
    {before : Node → Node} (hp : Promoted g place n old new h)
    (hbefore : before = id ∨ before = Node.replaceReads old new) (hm : m ∈ g.nodes)
    (transparent : Capability.isTransparent m.op = true)
    (read : input ∈ (((before m).renamed new old).replaceReads new old).inputs) (present : input ≠ "")
    (hinput : g.Shifts input ∧ (input = old → old ≠ "" → g.Shifts new)) : g.Passes m := by
  have hother := (hp.mem_reads_node hbefore (Node.mem_reads.2 (.inl ⟨read, present⟩))).1
  rcases mem_inputs_node hbefore hother read with ⟨rfl, hread | hread⟩ | hread
  · exact ⟨hm, transparent, new, hread, ne_empty_of_mem_results hp.produced,
      hinput.2 rfl present⟩
  · exact ⟨hm, transparent, _, hread, present, hinput.1⟩
  · exact ⟨hm, transparent, _, hread, present, hinput.1⟩

/-- No more is touched when a value takes over the name of a transposed one. -/
theorem Promoted.touches {taken : String → Prop} {place : Nat} {n : Node} {old new : String}
    (hp : Promoted g place n old new h) (hg : Tidy taken g) (hop : n.op = "Transpose")
    (ht : h.Touches value) : g.Touches value := by
  have hold : g.Shifts old := .yielded (List.mem_of_getElem? hp.node) hop (by simp [hp.outputs])
  have hnew : new ≠ "" := ne_empty_of_mem_results hp.produced
  -- what a node yields afterwards it has yielded, or it is the old value in place of the new one
  have houtputs : ∀ {before : Node → Node} {m : Node} {value : String},
      (before = id ∨ before = Node.replaceReads old new) →
      value ∈ (((before m).renamed new old).replaceReads new old).outputs →
        value = old ∧ new ∈ m.outputs ∨ value ∈ m.outputs := by
    intro before m value hbefore hvalue
    rw [Node.outputs_replaceReads, Node.outputs_renamed hnew] at hvalue
    have hsame : (before m).outputs = m.outputs := by rcases hbefore with rfl | rfl <;> simp
    rw [hsame] at hvalue
    exact (mem_map_substituteName hvalue).imp_right And.left
  have hshifts : ∀ {value}, h.Shifts value →
      g.Shifts value ∧ (value = old → old ≠ "" → g.Shifts new) := fun hs => by
    induction hs with
    | yielded mem op output =>
        obtain ⟨before, hbefore, j, m, hj, hm, rfl⟩ := hp.mem_nodes mem
        have hmem := List.mem_of_getElem? hm
        rw [op_node hbefore] at op
        rcases houtputs hbefore output with ⟨rfl, hyields⟩ | hyields
        · exact ⟨hold, fun _ _ => .yielded hmem op hyields⟩
        · refine ⟨.yielded hmem op hyields, ?_⟩
          rintro rfl hne
          exact absurd (Node.mem_results.2 ⟨hyields, hne⟩) (hp.old_not_mem_results hg hj hm)
    | @carried k input value mem transparent read present before output ih =>
        obtain ⟨before, hbefore, j, m, hj, hm, rfl⟩ := hp.mem_nodes mem
        have hmem := List.mem_of_getElem? hm
        rw [op_node hbefore] at transparent
        have hpasses := hp.passes hbefore hmem transparent read present ih
        rcases houtputs hbefore output with ⟨rfl, hyields⟩ | hyields
        · exact ⟨hold, fun _ _ => hpasses.shifts hyields⟩
        · refine ⟨hpasses.shifts hyields, ?_⟩
          rintro rfl hne
          exact absurd (Node.mem_results.2 ⟨hyields, hne⟩) (hp.old_not_mem_results hg hj hm)
  cases ht with
  | shifted shifts => exact .shifted (hshifts shifts).1
  | turned mem op read result =>
      obtain ⟨before, hbefore, j, m, -, hm, rfl⟩ := hp.mem_nodes mem
      have hne := ne_empty_of_mem_results result
      have hother := (hp.mem_reads_node hbefore (Node.mem_reads.2 (.inl ⟨read, hne⟩))).1
      rw [op_node hbefore] at op
      rcases mem_inputs_node hbefore hother read with ⟨rfl, -⟩ | hread
      · exact .shifted hold
      · exact .turned (List.mem_of_getElem? hm) op hread (hp.results_subset result)
  | beside passes operand constant op result =>
      obtain ⟨mem, transparent, input, read, present, shifts⟩ := passes
      obtain ⟨before, hbefore, j, m, -, hm, rfl⟩ := hp.mem_nodes mem
      obtain ⟨before', hbefore', j', m', -, hm', rfl⟩ := hp.mem_nodes constant
      rw [op_node hbefore] at transparent
      rw [op_node hbefore'] at op
      have hpasses := hp.passes hbefore (List.mem_of_getElem? hm) transparent read present
        (hshifts shifts)
      have hne := Node.ne_empty_of_mem_results result
      have hother := (hp.mem_reads_node hbefore (Node.mem_reads.2 (.inl ⟨operand, hne⟩))).1
      rcases mem_inputs_node hbefore hother operand with ⟨rfl, -⟩ | hread
      · exact .shifted hold
      · rcases (mem_results_node hbefore').1 result with ⟨-, rfl, -⟩ | ⟨-, hresult⟩
        · exact .shifted hold
        · exact .beside hpasses hread (List.mem_of_getElem? hm') op hresult

/-! ## Nodes that are replaced -/

/-- No more is touched when another node yields the values of a node, if they may get another layout
and what it reads is touched. -/
theorem Replaced.touches {place : Nat} {n k : Node} (hr : Replaced g place n k h)
    (hyielded : ∀ output ∈ n.outputs, g.Shifts output)
    (hread : ∀ input ∈ k.inputs, input ∈ g.results → g.Touches input) (ht : h.Touches value) :
    g.Touches value := by
  have hnew : ∀ {value}, value ∈ k.outputs → g.Shifts value := fun hvalue =>
    hyielded _ (hr.outputs ▸ hvalue)
  have hshifts : ∀ {value}, h.Shifts value → g.Shifts value := fun hs => by
    induction hs with
    | yielded mem op output =>
        rcases hr.mem_nodes.1 mem with rfl | ⟨j, -, hj⟩
        · exact hnew output
        · exact .yielded (List.mem_of_getElem? hj) op output
    | carried mem transparent read present _ output ih =>
        rcases hr.mem_nodes.1 mem with rfl | ⟨j, -, hj⟩
        · exact hnew output
        · exact .carried (List.mem_of_getElem? hj) transparent read present ih output
  cases ht with
  | shifted shifts => exact .shifted (hshifts shifts)
  | turned mem op read result =>
      rw [hr.mem_results] at result
      rcases hr.mem_nodes.1 mem with rfl | ⟨j, -, hj⟩
      · exact hread _ read result
      · exact .turned (List.mem_of_getElem? hj) op read result
  | beside passes operand constant op result =>
      obtain ⟨mem, transparent, input, read, present, before⟩ := passes
      rcases hr.mem_nodes.1 constant with rfl | ⟨i, -, hi⟩
      · exact .shifted (hnew (Node.mem_results.1 result).1)
      rcases hr.mem_nodes.1 mem with rfl | ⟨j, -, hj⟩
      · exact hread _ operand (Graph.mem_results.2 ⟨_, List.mem_of_getElem? hi, result⟩)
      · exact .beside ⟨List.mem_of_getElem? hj, transparent, input, read, present, hshifts before⟩
          operand (List.mem_of_getElem? hi) op result

end Graph

/-! ## Sizes that are gathered -/

namespace Transposes.Gathered

variable {s : Surroundings} {g h : Graph} {t : PlacedTranspose} {place : Nat} {n : Node}
  {sizes indices gather value : String}

private theorem ne_sizes (hs : Gathered s g t place n sizes indices gather h)
    (hvalue : value = "" ∨ value ∈ g.names) : value ≠ sizes := by
  rintro rfl
  exact hvalue.elim hs.named.1 hs.newSizes.2

/-- If the order has got a name that was in use it is one of a value that may get another layout. -/
private theorem shifts_indices (hs : Gathered s g t place n sizes indices gather h)
    (hn : g.nodes[place]? = some n) (hread : ∀ input ∈ n.inputs, g.Shifts input)
    (hyielded : ∀ output ∈ n.outputs, g.Shifts output) (hvalue : indices = "" ∨ indices ∈ g.names) :
    g.Shifts indices := by
  rcases mem_names_putNode_or (k := { n with inputs := [t.source], outputs := [] }) hn rfl rfl
    (hvalue.resolve_left hs.named.2) with hbase | hin | hout
  · exact absurd hbase hs.newIndices.2.2
  · exact hread _ hin
  · exact hyielded _ hout

/-- No more is touched when the sizes of a transposed value are gathered. -/
theorem touches (hs : Gathered s g t place n sizes indices gather h) (ht : t.Stands s g)
    (hn : g.nodes[place]? = some n) (hop : n.op ≠ "Transpose")
    (houtputs : n.outputs = [n.outputs.headD ""]) (hread : ∀ input ∈ n.inputs, g.Shifts input)
    (hyielded : ∀ output ∈ n.outputs, g.Shifts output) (hvalue : value = "" ∨ value ∈ g.names)
    (htouched : h.Touches value) : g.Touches value := by
  have hgathered : g.Shifts (n.outputs.headD "") := hyielded _ (by rw [houtputs]; simp)
  have hsource : t.source ∈ g.results → g.Touches t.source :=
    .turned ht.mem ht.op (by simp [ht.inputs])
  have hshifts : ∀ {value}, h.Shifts value → value = "" ∨ value ∈ g.names → g.Shifts value :=
    fun hshifts => by
      induction hshifts with
      | yielded mem op output =>
          intro hvalue
          rcases (hs.mem_nodes hn).1 mem with ⟨j, -, hj⟩ | rfl | rfl | rfl
          · exact .yielded (List.mem_of_getElem? hj) op output
          · exact absurd op hop
          · exact absurd op (by decide : "Constant" ≠ "Transpose")
          · exact absurd op (by decide : "Gather" ≠ "Transpose")
      | carried mem transparent read present _ output ih =>
          intro hvalue
          rcases (hs.mem_nodes hn).1 mem with ⟨j, -, hj⟩ | rfl | rfl | rfl
          · have hmem := List.mem_of_getElem? hj
            exact .carried hmem transparent read present
              (ih (.inr (mem_names_of_mem_node hmem (.inr (.inl read))))) output
          · exact absurd (List.mem_singleton.1 output) (hs.ne_sizes hvalue)
          · exact absurd transparent (by decide : ¬ Capability.isTransparent "Constant" = true)
          · exact absurd transparent (by decide : ¬ Capability.isTransparent "Gather" = true)
  -- what is yielded afterwards was yielded by the same node, or it may get another layout
  have hresults : ∀ m ∈ h.nodes, value ∈ m.results → g.Shifts value ∨ m ∈ g.nodes := by
    intro m hm hresult
    rcases (hs.mem_nodes hn).1 hm with ⟨j, -, hj⟩ | rfl | rfl | rfl
    · exact .inr (List.mem_of_getElem? hj)
    · exact absurd (mem_results_sizesNode.1 hresult).1 (hs.ne_sizes hvalue)
    · obtain ⟨rfl, -⟩ := mem_results_indicesNode.1 hresult
      exact .inl (hs.shifts_indices hn hread hyielded hvalue)
    · exact .inl ((mem_results_gatherNode.1 hresult).1 ▸ hgathered)
  cases htouched with
  | shifted shifts => exact .shifted (hshifts shifts hvalue)
  | turned mem op read result =>
      obtain ⟨m, hm, hyields⟩ := Graph.mem_results.1 result
      rcases hresults m hm hyields with hshift | hm
      · exact .shifted hshift
      have hresult : value ∈ g.results := Graph.mem_results.2 ⟨m, hm, hyields⟩
      rcases (hs.mem_nodes hn).1 mem with ⟨j, -, hj⟩ | rfl | rfl | rfl
      · exact .turned (List.mem_of_getElem? hj) op read hresult
      · exact absurd op hop
      · exact absurd op (by decide : "Constant" ≠ "Transpose")
      · exact absurd op (by decide : "Gather" ≠ "Transpose")
  | beside passes operand constant op result =>
      obtain ⟨mem, transparent, input, read, present, before⟩ := passes
      rcases hresults _ constant result with hshift | hconstant
      · exact .shifted hshift
      rcases (hs.mem_nodes hn).1 mem with ⟨j, -, hj⟩ | rfl | rfl | rfl
      · have hmem := List.mem_of_getElem? hj
        have hinput := hshifts before (.inr (mem_names_of_mem_node hmem (.inr (.inl read))))
        exact .beside ⟨hmem, transparent, input, read, present, hinput⟩ operand hconstant op result
      · obtain rfl : value = t.source := List.mem_singleton.1 operand
        exact hsource (Graph.mem_results.2 ⟨_, hconstant, result⟩)
      · exact absurd transparent (by decide : ¬ Capability.isTransparent "Constant" = true)
      · exact absurd transparent (by decide : ¬ Capability.isTransparent "Gather" = true)

end Transposes.Gathered

/-! ## Transpositions behind operators -/

namespace Relocation.Relocated

open Transposes

variable {s : Surroundings} {g h : Graph} {t : PlacedTranspose} {place : Nat} {consumer : Node}
  {policy : ConstantPolicy} {attributes : List (String × Attribute)} {p : Plan}
  {inputs : List String} {value : String}

/-- No more is touched when a transposition has moved behind an operator. -/
theorem touches (hr : Relocated s g t consumer attributes inputs h)
    (hrel : Relocatable s g t place consumer policy attributes p)
    (hvalue : value = "" ∨ value ∈ g.names) (htouched : h.Touches value) : g.Touches value := by
  have htransposed : g.Shifts t.output :=
    .yielded hrel.stands.mem hrel.stands.op (by simp [hrel.stands.outputs])
  have hconsumer : g.Passes consumer :=
    ⟨hrel.mem, (passage?_eq_some hrel.passage).1, t.output, hrel.reads, hrel.present, htransposed⟩
  have hyielded : g.Shifts (consumer.outputs.headD "") :=
    hconsumer.shifts (by rw [hrel.outputs]; simp)
  have hcopied : ∀ {m : Node}, Copied s g m → value ∉ m.results := by
    rintro m ⟨target, literal, hlike, hne, -, hnew⟩ hresult
    rw [hlike.results] at hresult
    obtain ⟨hmem, -⟩ := Node.mem_results.1 hresult
    obtain rfl : value = target := List.mem_singleton.1 hmem
    exact hvalue.elim hne hnew
  have hshifts : ∀ {value}, h.Shifts value → value = "" ∨ value ∈ g.names → g.Shifts value :=
    fun hshifts => by
      induction hshifts with
      | yielded mem op output =>
          intro hvalue
          rcases hr.origin _ mem with ⟨n, hn, -, -, hlike⟩ | hcopied | rfl | rfl
          · exact .yielded hn (hlike.op ▸ op) (hlike.outputs ▸ output)
          · exact absurd (hcopied.op.symm.trans op) (by decide)
          · exact absurd op hrel.op.1
          · exact List.mem_singleton.1 output ▸ hyielded
      | carried mem transparent read present _ output ih =>
          intro hvalue
          rcases hr.origin _ mem with ⟨n, hn, -, -, hlike⟩ | hcopied | rfl | rfl
          · rw [hlike.inputs] at read
            exact .carried hn (hlike.op ▸ transparent) read present
              (ih (.inr (mem_names_of_mem_node hn (.inr (.inl read))))) (hlike.outputs ▸ output)
          · rw [hcopied.op] at transparent
            exact absurd transparent (by decide)
          · exact List.mem_singleton.1 output ▸ htransposed
          · exact List.mem_singleton.1 output ▸ hyielded
  -- what is yielded afterwards was yielded by a node like it, or it may get another layout
  have hresults : ∀ m ∈ h.nodes, value ∈ m.results →
      g.Shifts value ∨ ∃ n ∈ g.nodes, n.Like m ∧ value ∈ n.results := by
    intro m hm hresult
    rcases hr.origin m hm with ⟨n, hn, -, -, hlike⟩ | hcopy | rfl | rfl
    · exact .inr ⟨n, hn, hlike, hlike.results ▸ hresult⟩
    · exact absurd hresult (hcopied hcopy)
    · exact .inl (List.mem_singleton.1 (Node.mem_results.1 hresult).1 ▸ htransposed)
    · exact .inl (List.mem_singleton.1 (Node.mem_results.1 hresult).1 ▸ hyielded)
  cases htouched with
  | shifted shifts => exact .shifted (hshifts shifts hvalue)
  | turned mem op read result =>
      obtain ⟨m, hm, hyields⟩ := Graph.mem_results.1 result
      rcases hresults m hm hyields with hshift | ⟨k, hk, -, hyields⟩
      · exact .shifted hshift
      rcases hr.origin _ mem with ⟨n, hn, -, -, hlike⟩ | hcopy | rfl | rfl
      · exact .turned hn (hlike.op ▸ op) (hlike.inputs ▸ read)
          (Graph.mem_results.2 ⟨k, hk, hyields⟩)
      · exact absurd (hcopy.op.symm.trans op) (by decide)
      · exact absurd op hrel.op.1
      · exact .shifted (List.mem_singleton.1 read ▸ htransposed)
  | beside passes operand constant op result =>
      obtain ⟨mem, transparent, input, read, present, before⟩ := passes
      rcases hresults _ constant result with hshift | ⟨m, hm, hmlike, hyields⟩
      · exact .shifted hshift
      rcases hr.origin _ mem with ⟨n, hn, -, -, hlike⟩ | hcopy | rfl | rfl
      · rw [hlike.inputs] at read operand
        have hinput := hshifts before (.inr (mem_names_of_mem_node hn (.inr (.inl read))))
        exact .beside ⟨hn, hlike.op ▸ transparent, input, read, present, hinput⟩ operand hm
          (hmlike.op ▸ op) hyields
      · rw [hcopy.op] at transparent
        exact absurd transparent (by decide)
      · cases hr.fed value operand with
        | before mem op inputs _ _ =>
            exact .turned mem op (by simp [inputs]) (Graph.mem_results.2 ⟨m, hm, hyields⟩)
        | constant mem op read result target =>
            rcases target with rfl | ⟨-, hnew⟩
            · exact .beside hconsumer read mem op result
            · exact absurd (hvalue.resolve_left (Node.ne_empty_of_mem_results hyields)) hnew
      · exact .shifted (List.mem_singleton.1 operand ▸ htransposed)

end Relocation.Relocated

/-! ## Edits -/

namespace Rewriting

open Transposes Relocation

variable {s : Surroundings} {g h : Graph} {kind : Kind} {value : String}

/-- What stands for the result of a transposition is touched, if the graph yields it. -/
theorem StandsFor.touches {n : Node} {new : String} (hs : StandsFor s g n new kind)
    (hkind : kind ≠ .removal) (hresult : new ∈ g.results) : g.Touches new := by
  cases hs with
  | forwarded => exact absurd rfl hkind
  | unmoved stands _ source =>
      exact .turned stands.mem stands.op (by simp [stands.inputs, source]) hresult
  | undone stands _ _ source =>
      exact .turned stands.mem stands.op (by simp [stands.inputs, source]) hresult
  | first stands _ _ source =>
      exact .shifted (.yielded stands.mem stands.op (by simp [stands.outputs, source]))
  | second _ _ mem resolved _ outputs =>
      exact .shifted (.yielded mem (resolvePermutation_ok resolved).1 (by simp [outputs]))

/-- The node that takes the sizes of a transposed value is a transparent operator on it. -/
private theorem passes_of_takesSizes {t : PlacedTranspose} {n : Node} (ht : t.Stands s g)
    (hn : n ∈ g.nodes) (htakes : takesSizes t n = true) (hpresent : t.output ≠ "") :
    g.Passes n := by
  obtain ⟨hop, hinputs, -⟩ := takesSizes_op htakes
  refine ⟨hn, by rw [Capability.isTransparent, hop]; decide, t.output, by simp [hinputs], hpresent, ?_⟩
  exact .yielded ht.mem ht.op (by simp [ht.outputs])

theorem Effect.touches (he : Effect s g kind h) (hkind : kind ≠ .removal) (hg : TidyIn s g)
    (hvalue : value = "" ∨ value ∈ g.names) (ht : h.Touches value) : g.Touches value := by
  have hop : ∀ {n new}, StandsFor s g n new kind → n.op = "Transpose" := fun hreason =>
    (hreason.op.resolve_left fun hremoval => hkind hremoval.2).1
  cases he with
  | bypassed reason result => exact result.touches (hop reason) (reason.touches hkind) ht
  | promoted reason result => exact result.touches hg.tree.here (hop reason) ht
  | @replaced kind place n k h reason result =>
      have hmem := List.mem_of_getElem? result.node
      cases reason with
      | shim outputs distinct reason =>
          refine result.touches (fun output houtput => .yielded hmem (hop reason) houtput)
            (fun input hinput hresult => ?_) ht
          obtain rfl := List.mem_singleton.1 hinput
          exact reason.touches hkind hresult
      | rebase stands inputs present resolved rank =>
          refine result.touches (fun output houtput =>
            .yielded hmem (resolvePermutation_ok resolved).1 houtput)
            (fun input hinput hresult => ?_) ht
          obtain rfl := List.mem_singleton.1 hinput
          exact .turned stands.mem stands.op (by simp [stands.inputs]) hresult
      | sizes stands takes present static rank =>
          exact result.touches (fun output houtput =>
            (passes_of_takesSizes stands hmem takes present).shifts houtput)
            (fun input hinput => by cases hinput) ht
  | gathered stands node takes present result =>
      have hpasses := passes_of_takesSizes stands (List.mem_of_getElem? node) takes present
      obtain ⟨hgather, -, houtputs⟩ := takesSizes_ne takes
      obtain ⟨hshape, hinputs, -⟩ := takesSizes_op takes
      refine result.touches stands node (fun hop => ?_) houtputs (fun input hinput => ?_)
        (fun output => hpasses.shifts) hvalue ht
      · rw [hop] at hshape
        exact absurd hshape (by decide)
      · rw [hinputs, List.mem_singleton] at hinput
        exact hinput ▸ .yielded stands.mem stands.op (by simp [stands.outputs])
  | relocated inside readers conditions result infos =>
      rw [infos] at ht
      exact (result.relocated conditions hg.tree hg.covers).withInfos.touches conditions hvalue ht
  | removed result =>
      obtain ⟨_, -, -, rfl⟩ := removeUnreferenced?_eq_some result
      exact ht.of_nodes fun k hk => ⟨k, List.mem_of_mem_eraseIdx hk, rfl, rfl, rfl⟩

/-- What rules may touch after an edit they might have touched before, unless the name is new. -/
theorem Edit.touches (he : Edit s g kind h) (hkind : kind ≠ .removal) (hg : TidyIn s g)
    (hvalue : value = "" ∨ value ∈ g.names) (ht : h.Touches value) : g.Touches value :=
  (he.effect hg.tree.here).touches hkind hg hvalue ht

/-- In bodies an edit replaces nothing but values that are touched. -/
theorem Edit.keepsBodies_touched (he : Edit s g kind h) (hkind : kind ≠ .removal) (hg : TidyIn s g) :
    KeepsBodies (fun old new => old ≠ "" ∧ g.Touches old ∧ g.Handles new) g h :=
  (he.effect hg.tree.here).keepsBodies_of hg.tree hg.covers fun n hn old new houtputs hreason =>
    have hop := (hreason.op.resolve_left fun hremoval => hkind hremoval.2).1
    ⟨fun hne => ⟨hne, .shifted (.yielded hn hop (by simp [houtputs])), hreason.handles hn⟩,
      fun hresult => ⟨ne_empty_of_mem_results hresult, hreason.touches hkind hresult,
        n, hn, .inr (.inl houtputs)⟩⟩

/-- What is known of a value that is not touched stays when transpositions are moved or sizes are
taken from before them. -/
theorem Edit.get?_infos (he : Edit s g kind h) (hkind : kind = .move ∨ kind = .resize)
    (hg : TidyIn s g) (hvalue : value = "" ∨ value ∈ g.names) (hnot : ¬ g.Touches value) :
    h.infos.get? value = g.infos.get? value := by
  have hremoval : kind ≠ .removal := by rcases hkind with rfl | rfl <;> decide
  have hshifts : ∀ {output}, g.Shifts output → value ≠ output := fun houtput heq =>
    hnot (.shifted (heq ▸ houtput))
  have hyielded : ∀ {place n old new}, g.nodes[place]? = some n → n.outputs = [old] →
      StandsFor s g n new kind → value ≠ old := fun hn houtputs hreason => hshifts <|
    .yielded (List.mem_of_getElem? hn) (hreason.op.resolve_left fun h => hremoval h.2).1
      (by simp [houtputs])
  cases he with
  | redirect node outputs inside apart distinct reason infos_eq =>
      rcases infos_eq with rfl | ⟨rfl, -⟩
      · exact (InfoTable.get?_erase _ _ _).trans (if_neg (hyielded node outputs reason))
      · rfl
  | @promote _ place n old new between after node outputs yielded produced inside reason between_eq
      renamed =>
      have hne : new ≠ old := by
        rintro rfl
        exact absurd (inside.symm.trans yielded) (by decide)
      have hinfos : between.infos = g.infos := by
        rcases between_eq with rfl | rfl <;> simp
      obtain ⟨-, rfl⟩ := renameValue_eq_ok hne renamed
      refine (get?_movedInfos (fun heq => ?_) fun heq => ?_).trans
        (congrArg (InfoTable.get? · value) hinfos)
      · exact hnot (heq ▸ reason.touches hremoval produced)
      · exact absurd heq (hyielded node outputs reason)
  | shim => rfl
  | passthrough => exact absurd rfl hremoval
  | rebase => rfl
  | @resize t place n stands node takes present =>
      rcases rebaseSizes_resized s t g place n node with ⟨-, -, heq⟩ | ⟨names⟩
      · rw [heq]
        rfl
      · rw [names.eq]
        refine (InfoTable.get?_set _ _ _).trans (if_neg fun heq => ?_)
        obtain rfl : value = _ := heq
        exact hvalue.elim names.named.1 names.newSizes.2
  | relocate stands inside readers node outputs reads passage planned applied =>
      obtain ⟨hr, arranged, detached, cleaned, placed, rebuiltPlace, moved, hmoved, rfl⟩ :=
        moved_of_relocate stands readers node outputs reads passage planned applied
      have hconsumer : g.Passes _ := ⟨hr.mem, (passage?_eq_some passage).1, _, reads, hr.present,
        .yielded stands.mem stands.op (by simp [stands.outputs])⟩
      refine hmoved.get?_infos hr hg.tree hg.covers inside _ hvalue (fun n hn hop _ hmem => ?_)
        fun n hn hop name hread hne houtputs _ heq => ?_
      · exact hnot (.shifted (.yielded hn hop hmem))
      · subst heq
        exact hnot (.beside hconsumer hread hn hop (Node.mem_results.2 ⟨by simp [houtputs], hne⟩))
  | remove => rcases hkind with h | h <;> cases h

end Rewriting

end TensorGraph
