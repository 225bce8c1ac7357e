import TensorGraph.Graph.Census
import TensorGraph.Proofs.Upholding
import TensorGraph.Proofs.Usage

/-!
# Transpositions never multiply

Moving transpositions and removing identities give no graph of a tree more of either, nor more nodes
that take sizes, and leave the number of all operators that they do not work with. For a node that is
there after an edit was there before, under its name: it may have turned from a transposition into an
identity, and only constants and gathering nodes are new.

## Main results

* `Rewriting.Effect.traces` -- where the nodes are from that one edit leaves.
* `Graph.Traces.counts` -- what follows for their number.
* `Pass.keepsCounts` -- how two passes change the number of nodes in every graph of a tree.
-/

namespace TensorGraph

open TensorGraph.Graph

/-! ## Nodes and their number -/

namespace Graph

/-- The operators that two passes add, take away or replace. -/
def workedOps : List String := ["Transpose", "Identity", "Shape", "Constant", "Gather"]

/-- Whether a node with the operator `after` may stand for one with the operator `before`. -/
def Continues (before after : String) : Prop :=
  after = before ∨ before = "Transpose" ∧ after = "Identity"

/-- Whether nodes are there under the names that they had, apart from constants and gathering nodes
that may be new and from nodes that two passes may take away. -/
structure Traces (g h : Graph) : Prop where
  origin : ∀ m ∈ h.nodes, m.op ≠ "Constant" → m.op ≠ "Gather" →
    ∃ n ∈ g.nodes, n.name = m.name ∧ Continues n.op m.op
  stays : ∀ n ∈ g.nodes, n.op ∉ workedOps → ∃ m ∈ h.nodes, m.name = n.name ∧ m.op = n.op

/-- Whether there are no more transpositions, identities and nodes that take sizes, and as many nodes
with each of the operators that the passes do not work with. -/
structure KeepsCounts (g h : Graph) : Prop where
  transposes : h.countOp "Transpose" false ≤ g.countOp "Transpose" false
  forwarding : h.countOp "Transpose" false + h.countOp "Identity" false ≤
    g.countOp "Transpose" false + g.countOp "Identity" false
  shapes : h.countOp "Shape" false ≤ g.countOp "Shape" false
  others : ∀ op ∉ workedOps, h.countOp op false = g.countOp op false

theorem Continues.refl (op : String) : Continues op op := .inl rfl

theorem Continues.trans {first between last : String} (h₁ : Continues first between)
    (h₂ : Continues between last) : Continues first last := by
  rcases h₁ with rfl | ⟨rfl, rfl⟩
  · exact h₂
  · rcases h₂ with rfl | ⟨h, -⟩
    · exact .inr ⟨rfl, rfl⟩
    · exact absurd h (by decide)

/-- Constants and gathering nodes stand for no others. -/
theorem Continues.ne {before after : String} (hc : Continues before after)
    (hafter : after ≠ "Constant" ∧ after ≠ "Gather") : before ≠ "Constant" ∧ before ≠ "Gather" := by
  rcases hc with rfl | ⟨rfl, -⟩
  · exact hafter
  · decide

namespace Traces

variable {g h k : Graph}

theorem refl (g : Graph) : g.Traces g :=
  ⟨fun n hn _ _ => ⟨n, hn, rfl, .refl _⟩, fun n hn _ => ⟨n, hn, rfl, rfl⟩⟩

theorem trans (h₁ : g.Traces h) (h₂ : h.Traces k) : g.Traces k where
  origin l hl hconstant hgather := by
    obtain ⟨m, hm, hname, hlast⟩ := h₂.origin l hl hconstant hgather
    obtain ⟨hmconstant, hmgather⟩ := hlast.ne ⟨hconstant, hgather⟩
    obtain ⟨n, hn, hname', hfirst⟩ := h₁.origin m hm hmconstant hmgather
    exact ⟨n, hn, hname'.trans hname, hfirst.trans hlast⟩
  stays n hn hop := by
    obtain ⟨m, hm, hname, hsame⟩ := h₁.stays n hn hop
    obtain ⟨l, hl, hname', hsame'⟩ := h₂.stays m hm (hsame ▸ hop)
    exact ⟨l, hl, hname'.trans hname, hsame'.trans hsame⟩

/-- Nodes are traced through whatever keeps their names and operators. -/
theorem of_same {f : Node → Node} (hf : ∀ n, (f n).name = n.name ∧ (f n).op = n.op)
    (hfrom : ∀ m ∈ h.nodes, ∃ n ∈ g.nodes, f n = m)
    (hstays : ∀ n ∈ g.nodes, n.op ∉ workedOps → f n ∈ h.nodes) : g.Traces h where
  origin m hm _ _ := by
    obtain ⟨n, hn, rfl⟩ := hfrom m hm
    exact ⟨n, hn, (hf n).1.symm, .inl (hf n).2⟩
  stays n hn hop := ⟨f n, hstays n hn hop, hf n⟩

end Traces

/-- Where nodes have distinct names, there are no more of some kind if each had its name before and was
of a kind that counts. -/
theorem length_filter_le {nodes after : List Node} {p : Node → Bool}
    (hnames : (after.map Node.name).Nodup)
    (hfrom : ∀ m ∈ after, p m = true → ∃ n ∈ nodes, n.name = m.name ∧ p n = true) :
    (after.filter p).length ≤ (nodes.filter p).length := by
  have hnodup : ((after.filter p).map Node.name).Nodup :=
    hnames.sublist (List.filter_sublist.map Node.name)
  have hsubset : (after.filter p).map Node.name ⊆ (nodes.filter p).map Node.name := by
    intro name hname
    obtain ⟨m, hm, rfl⟩ := List.mem_map.1 hname
    obtain ⟨hm, hp⟩ := List.mem_filter.1 hm
    obtain ⟨n, hn, hsame, hpn⟩ := hfrom m hm hp
    exact List.mem_map.2 ⟨n, List.mem_filter.2 ⟨hn, hpn⟩, hsame⟩
  simpa using (List.subperm_of_subset hnodup hsubset).length_le

theorem countOp_add (g : Graph) {first second : String} (hne : first ≠ second) :
    g.countOp first false + g.countOp second false =
      (g.nodes.filter fun n => n.op == first || n.op == second).length := by
  simp only [countOp, allNodes_own, ← List.countP_eq_length_filter]
  induction g.nodes with
  | nil => rfl
  | cons n rest ih =>
      simp only [List.countP_cons]
      by_cases hfirst : n.op = first
      · simp [hfirst, hne]
        omega
      · by_cases hsecond : n.op = second <;> simp [hfirst, hsecond, hne.symm] <;> omega

/-- What no other operator turns into, and is never new, does not multiply. -/
theorem Traces.countOp_le {g h : Graph} (ht : g.Traces h) (hh : (h.nodes.map Node.name).Nodup)
    {op : String} (hop : op ∉ ["Identity", "Constant", "Gather"]) :
    h.countOp op false ≤ g.countOp op false := by
  simp only [List.mem_cons, List.not_mem_nil, or_false, not_or] at hop
  obtain ⟨hidentity, hconstant, hgather⟩ := hop
  refine length_filter_le hh fun m hm hmop => ?_
  obtain rfl := beq_iff_eq.1 hmop
  obtain ⟨n, hn, hname, hsame | ⟨-, hturned⟩⟩ := ht.origin m hm hconstant hgather
  · exact ⟨n, hn, hname, by simp [hsame]⟩
  · exact absurd hturned hidentity

/-- What is traced does not multiply. -/
theorem Traces.counts {g h : Graph} (ht : g.Traces h) (hg : (g.nodes.map Node.name).Nodup)
    (hh : (h.nodes.map Node.name).Nodup) : g.KeepsCounts h where
  transposes := ht.countOp_le hh (by decide)
  forwarding := by
    rw [countOp_add _ (by decide), countOp_add _ (by decide)]
    refine length_filter_le hh fun m hm hop => ?_
    simp only [Bool.or_eq_true, beq_iff_eq] at hop
    have hworked : m.op ≠ "Constant" ∧ m.op ≠ "Gather" := by
      rcases hop with hop | hop <;> rw [hop] <;> decide
    obtain ⟨n, hn, hname, hsame | ⟨htranspose, -⟩⟩ := ht.origin m hm hworked.1 hworked.2
    · exact ⟨n, hn, hname, by simpa [← hsame] using hop⟩
    · exact ⟨n, hn, hname, by simp [htranspose]⟩
  shapes := ht.countOp_le hh (by decide)
  others op hop := by
    refine Nat.le_antisymm (ht.countOp_le hh fun hmem => hop ?_)
      (length_filter_le hg fun n hn hnop => ?_)
    · simp only [List.mem_cons, List.not_mem_nil, or_false] at hmem
      rcases hmem with rfl | rfl | rfl <;> decide
    · rw [beq_iff_eq] at hnop
      obtain ⟨m, hm, hname, hsame⟩ := ht.stays n hn (hnop ▸ hop)
      exact ⟨m, hm, hname, by simp [hsame, hnop]⟩

end Graph

/-! ## Edits -/

namespace Graph

theorem traces_substituteOuter (old new : String) (g : Graph) : g.Traces (g.substituteOuter old new) := by
  rw [substituteOuter_eq]
  split
  · exact .refl g
  · exact .of_same (fun n => ⟨n.name_replaceReads old new, n.op_replaceReads old new⟩)
      (fun m hm => List.mem_map.1 hm) fun n hn _ => List.mem_map_of_mem hn

theorem traces_putBody {g old : Graph} {place : Nat} {key : String} (hbody : g.HasBody place key old)
    (new : Graph) : g.Traces (g.putBody place key new) := by
  obtain ⟨n, hn, -⟩ := hbody
  refine ⟨fun m hm _ _ => ?_, fun m hm _ => ?_⟩
  · rcases (mem_nodes_putBody hn).1 hm with rfl | ⟨j, -, hj⟩
    · exact ⟨n, List.mem_of_getElem? hn, rfl, .refl _⟩
    · exact ⟨m, List.mem_of_getElem? hj, rfl, .refl _⟩
  · rcases eq_or_elsewhere hn hm with rfl | hother
    · exact ⟨_, (mem_nodes_putBody hn).2 (.inl rfl), rfl, rfl⟩
    · exact ⟨m, (mem_nodes_putBody hn).2 (.inr hother), rfl, rfl⟩

end Graph

namespace Rewriting

open Transposes Relocation

variable {s : Surroundings} {g h : Graph} {kind : Kind} {n k : Node}

theorem StandsFor.mem_workedOps {new : String} (hr : StandsFor s g n new kind) : n.op ∈ workedOps := by
  rcases hr.op with ⟨hop, -⟩ | ⟨hop, -⟩ <;> rw [hop] <;> decide

theorem op_of_takesSizes {t : PlacedTranspose} (htakes : takesSizes t n = true) : n.op = "Shape" :=
  Capability.eq_shape_of_ofOp (takesSizes_op htakes).1

/-- What stands in the place of a node continues it, or is a constant. -/
theorem Exchange.continues (he : Exchange s g n kind k) :
    k.name = n.name ∧ n.op ∈ workedOps ∧ (Continues n.op k.op ∨ k.op = "Constant") := by
  cases he with
  | shim outputs distinct reason =>
      rcases reason.op with ⟨-, hkind⟩ | ⟨hop, -⟩
      · cases hkind
      · exact ⟨rfl, reason.mem_workedOps, .inl (.inr ⟨hop, rfl⟩)⟩
  | rebase _ _ _ resolved =>
      refine ⟨rfl, ?_, .inl (.refl _)⟩
      rw [(resolvePermutation_ok resolved).1]
      decide
  | sizes _ takes =>
      refine ⟨rfl, ?_, .inr rfl⟩
      rw [op_of_takesSizes takes]
      decide

/-- Where the nodes are from that an edit leaves, unless it takes away what nothing needs. -/
theorem Effect.traces (he : Effect s g kind h) (hg : TidyIn s g) (hkind : kind ≠ .cleanup) :
    g.Traces h := by
  cases he with
  | @bypassed _ place n old new _ reason result =>
      refine .of_same (fun m => ⟨m.name_replaceReads old new, m.op_replaceReads old new⟩)
        (fun k hk => ?_) fun m hm hop => ?_
      · obtain ⟨j, -, m, hm, rfl⟩ := result.mem_nodes.1 hk
        exact ⟨m, List.mem_of_getElem? hm, rfl⟩
      · obtain ⟨i, hplace, hi⟩ := elsewhere_of_ne result.node hm fun e => hop (e ▸ reason.mem_workedOps)
        exact result.mem_nodes.2 ⟨i, hplace, m, hi, rfl⟩
  | @promoted _ place n old new _ reason result =>
      obtain ⟨before, hbefore, hnodes⟩ := result.nodes
      refine .of_same (fun m => ⟨Promoted.name_node hbefore m, Promoted.op_node hbefore m⟩)
        (fun k hk => ?_) fun m hm hop => ?_
      · rw [hnodes, mem_map_eraseIdx_iff] at hk
        obtain ⟨j, -, m, hm, rfl⟩ := hk
        exact ⟨m, List.mem_of_getElem? hm, rfl⟩
      · obtain ⟨i, hplace, hi⟩ := elsewhere_of_ne result.node hm fun e => hop (e ▸ reason.mem_workedOps)
        rw [hnodes, mem_map_eraseIdx_iff]
        exact ⟨i, hplace, m, hi, rfl⟩
  | @replaced _ place n k _ reason result =>
      obtain ⟨hname, hworked, hcontinues⟩ := reason.continues
      refine ⟨fun m hm hconstant _ => ?_, fun m hm hop => ?_⟩
      · rcases result.mem_nodes.1 hm with rfl | ⟨j, -, hj⟩
        · exact ⟨n, List.mem_of_getElem? result.node, hname.symm, hcontinues.resolve_right hconstant⟩
        · exact ⟨m, List.mem_of_getElem? hj, rfl, .refl _⟩
      · have hother := elsewhere_of_ne result.node hm fun e => hop (e ▸ hworked)
        exact ⟨m, result.mem_nodes.2 (.inr hother), rfl, rfl⟩
  | @gathered t place n sizes indices gather _ stands node takes present result =>
      refine ⟨fun m hm hconstant hgather => ?_, fun m hm hop => ?_⟩
      · rcases (result.mem_nodes node).1 hm with ⟨j, -, hj⟩ | rfl | rfl | rfl
        · exact ⟨m, List.mem_of_getElem? hj, rfl, .refl _⟩
        · exact ⟨n, List.mem_of_getElem? node, rfl, .refl _⟩
        · exact absurd rfl hconstant
        · exact absurd rfl hgather
      · have hother := elsewhere_of_ne node hm fun e => hop (by rw [← e, op_of_takesSizes takes]; decide)
        exact ⟨m, (result.mem_nodes node).2 (.inl hother), rfl, rfl⟩
  | @relocated t place consumer policy attributes p _ _ _ moved _ _ _ inside readers conditions result
      infos =>
      have hrelocated := result.relocated conditions hg.tree hg.covers
      rw [infos]
      refine ⟨fun m hm hconstant _ => ?_, fun m hm hop => ?_⟩
      · rcases hrelocated.origin m hm with ⟨n, hn, -, -, hlike⟩ | hcopied | rfl | rfl
        · exact ⟨n, hn, hlike.name.symm, .inl hlike.op⟩
        · exact absurd hcopied.op hconstant
        · exact ⟨consumer, conditions.mem, rfl, .refl _⟩
        · exact ⟨t.node, conditions.stands.mem, rfl, .refl _⟩
      · by_cases heq : m = consumer
        · exact ⟨_, hrelocated.front, heq ▸ rfl, heq ▸ rfl⟩
        · refine ⟨m, result.stays conditions hg.tree hg.covers hm (fun e => hop ?_) (fun e => hop ?_)
            heq, rfl, rfl⟩ <;> rw [e] <;> decide
  | removed => exact absurd rfl hkind

/-- The removal of a transposition leaves a trace of what counts. -/
theorem traces_removed (hg : TidyIn s g) (htraces : g.Traces h) (hn : n ∈ g.nodes)
    (hop : n.op = "Transpose") : g.Traces (h.removeNamedIfUnreferenced n.name) where
  origin m hm := htraces.origin m (h.nodes_removeNamedIfUnreferenced_subset n.name hm)
  stays k hk hworked := by
    obtain ⟨m, hm, hname, hsame⟩ := htraces.stays k hk hworked
    refine ⟨m, mem_removeNamedIfUnreferenced hm fun hother => hworked ?_, hname, hsame⟩
    -- no other node has the name of the transposition
    rw [hg.tree.here.eq_of_name_eq hk hn (hname.symm.trans hother), hop]
    decide

theorem upheld_traces : Upheld TidyIn Traces where
  refl := .refl
  trans := .trans
  tidyIn hg := hg
  inside hg hbody := hg.inside hbody
  onward _ htidy _ := htidy
  substituteOuter _ _ old k := traces_substituteOuter old _ k
  putBody _ hbody new := traces_putBody hbody new
  edit hg he hkind := (he.effect hg.tree.here).traces hg hkind
  removed hg _ htraces hn hop := traces_removed hg htraces hn hop
  sorted _ hperm :=
    .of_same (f := id) (fun _ => ⟨rfl, rfl⟩) (fun m hm => ⟨m, hperm.mem_iff.1 hm, rfl⟩)
      fun _ hn _ => hperm.mem_iff.2 hn

end Rewriting

/-! ## Passes -/

namespace Graph

/-- What holds of every graph of a tree, wherever it stands. -/
theorem Everywhere.throughout {scope : Graph → (String → Prop) → String → Prop}
    {P : (String → Prop) → Graph → Prop} {Q : Graph → Prop} (hPQ : ∀ {visible g}, P visible g → Q g)
    {visible : String → Prop} {g : Graph} (hg : Everywhere scope P visible g) : Throughout Q g := by
  induction hg with
  | intro here _ ih => exact .intro (hPQ here) ih

end Graph

namespace Pass

/-- Moving transpositions and removing identities leaves no graph of a tree more transpositions, more
transpositions and identities together or more nodes that take sizes, and as many nodes with every
other operator, constants and gathering nodes apart. -/
theorem keepsCounts {pass : Pass} (hpass : pass = transpose ∨ pass = identity) {g : Graph}
    (hvalid : g.IsValid) (hkeyed : KeyedTree g) (number : Nat)
    (hnone : (pass.run .root number g).failure = none) :
    Lineal KeepsCounts g (pass.run .root number g).graph := by
  have hg := hvalid.tidyIn hkeyed
  obtain ⟨hafter, htraces⟩ := Rewriting.upheld_traces.pass hpass hg number hnone
  intro path inner hinner
  obtain ⟨outer, houter, htrace⟩ := htraces path inner hinner
  exact ⟨outer, houter, htrace.counts
    (hg.tree.throughout (fun h => h.names) path outer houter)
    (hafter.tree.throughout (fun h => h.names) path inner hinner)⟩

/-- Two transposed values are added, the sum is transposed back and measured, and a transposition that
moves nothing yields an output. -/
def adding : Graph where
  inputs := ["x", "y"]
  outputs := ["z", "sizes", "kept"]
  nodes := [
    { name := "turn", op := "Transpose", inputs := ["x"], outputs := ["xt"]
      attributes := [("perm", .numbers [.int 1, .int 0])] },
    { name := "return", op := "Transpose", inputs := ["y"], outputs := ["yt"]
      attributes := [("perm", .numbers [.int 1, .int 0])] },
    { name := "sum", op := "Add", inputs := ["xt", "yt"], outputs := ["added"] },
    { name := "back", op := "Transpose", inputs := ["added"], outputs := ["z"]
      attributes := [("perm", .numbers [.int 1, .int 0])] },
    { name := "measure", op := "Shape", inputs := ["added"], outputs := ["sizes"] },
    { name := "still", op := "Transpose", inputs := ["x"], outputs := ["kept"]
      attributes := [("perm", .numbers [.int 0, .int 1])] }]

theorem keepsCounts_adding :
    adding.IsValid ∧ KeyedTree adding ∧ (transpose.run .root 0 adding).failure = none ∧
      ((transpose.run .root 0 adding).graph.nodes.map fun n => (n.name, n.op)) =
        [("sum", "Add"), ("measure", "Shape"), ("still", "Identity"), ("measure_perm", "Constant"),
          ("measure_gather", "Gather")] ∧
      Lineal KeepsCounts adding (transpose.run .root 0 adding).graph := by
  have hvalid : adding.IsValid := by
    unfold IsValid
    decide +kernel
  have hkeyed : KeyedTree adding :=
    .intro (by simp [adding, Node.Keyed]) (by simp [adding, Node.bodies, Attribute.body?])
  have hnone : (transpose.run .root 0 adding).failure = none := by decide +kernel
  exact ⟨hvalid, hkeyed, hnone, by decide +kernel, keepsCounts (.inl rfl) hvalid hkeyed 0 hnone⟩

end Pass

end TensorGraph
