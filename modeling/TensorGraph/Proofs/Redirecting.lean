import TensorGraph.Proofs.Meaning

/-!
# Readers of an identity

Whoever reads the result of an identity may as well read what the identity takes in. The identity
stays, and yields what it did, perhaps to nobody but an output of the graph.

## Main results

* `Graph.WellformedTree.replaceInputs` -- readers of a result of a node may read what the node
  reads.
* `Evaluation.sameMeaning_replaceInputs` -- behind an identity this changes nothing.
-/

namespace TensorGraph

open TensorGraph.Graph

variable {visible : String → Prop} {g : Graph} {n : Node} {old new : String}

/-- A tree stays well formed when the readers of a result of a node read instead what the node
reads. -/
theorem Graph.WellformedTree.replaceInputs (h : WellformedTree visible g) (hn : n ∈ g.nodes)
    (hnew : new ∈ n.reads) (hold : old ∈ n.results) :
    WellformedTree visible (g.replaceInputs old new) := by
  have hne : old ≠ new := fun e => h.here.orderly.not_mem_reads hn hold (e ▸ hnew)
  have hseen : g.seenIn visible new := h.seenIn_of_uses (.inr ⟨n, hn, hnew⟩)
  rw [Graph.replaceInputs, if_neg hne]
  exact h.replaceReads rfl rfl (fun _ => .inr) hseen (fun _ => ⟨n, hn, hnew, hold⟩)
    fun k hk body hbody => WellformedTree.substituteOuter (h.body hk hbody) hseen

namespace Evaluation

variable {V : Type} [Operand V] {m : Machine V} {outer : Environment V} {feeds : String → Option V}
  {b : Bindings V}

section Identity

variable (hm : m.Regular) (hg : WellformedTree visible g) (hn : n ∈ g.nodes)
  (hop : n.op = "Identity") (hin : n.inputs = [new]) (hout : n.outputs = [old]) (hnew : new ≠ "")
  (hold : old ≠ "")
include hm hg hn hop hin hout hnew hold

omit hg hn in
/-- Where an identity has yielded, its two names mean the same. -/
private theorem renames_of_identity (hcomputed : ∃ values,
    runNode m n (bodiesOf m n) (b :: outer) = .ok values ∧ Yields n.outputs values b) :
    Renames old new (b :: outer) (b :: outer) := by
  obtain ⟨values, hvalues, hyields⟩ := hcomputed
  rw [← toOption_eq_some, runNode_identity hm hop hin hnew] at hvalues
  obtain ⟨value, hvalue, rfl⟩ := Option.map_eq_some_iff.1 hvalues
  rw [hout, yields_cons_cons hold] at hyields
  intro name _
  rw [substituteName_eq]
  split
  · rename_i hname
    rw [hvalue, hname, lookup?_cons, hyields.1, Option.some_or]
  · rfl

omit hop in
/-- The readers of an identity compute from a solution what they computed. -/
private theorem runNode_redirected (hrenames : Renames old new (b :: outer) (b :: outer)) {k : Node}
    (hk : k ∈ g.nodes) :
    (runNode m (k.replaceReads old new) (bodiesOf m (k.replaceReads old new))
        (b :: outer)).toOption =
      (runNode m k (bodiesOf m k) (b :: outer)).toOption := by
  have hread : new ∈ n.reads := Node.mem_reads.2 (.inl ⟨by simp [hin], hnew⟩)
  have hresult : old ∈ n.results := Node.mem_results.2 ⟨by simp [hout], hold⟩
  exact runNode_replaceReads hm hnew hrenames (fun body hbody => run_local (hg.body hk hbody))
    fun _ body hbody feeds => run_substituteOuter hm (hg.body hk hbody)
      (.inr (defines_iff.2 (.inr (Graph.mem_results.2 ⟨n, hn, hresult⟩))))
      (hg.seenIn_of_uses (.inr ⟨n, hn, hread⟩)) hrenames feeds

private theorem solves_replaceInputs_iff :
    Solves m (g.replaceInputs old new) outer feeds b ↔ Solves m g outer feeds b := by
  have hresult : old ∈ n.results := Node.mem_results.2 ⟨by simp [hout], hold⟩
  have hapart : old ∉ n.reads := hg.here.orderly.not_mem_reads hn hresult
  have hne : old ≠ new := fun e =>
    hapart (Node.mem_reads.2 (.inl ⟨by simp [hin, e], hold⟩))
  have hnodes : (g.replaceInputs old new).nodes = g.nodes.map (Node.replaceReads old new) := by
    rw [Graph.replaceInputs, if_neg hne]
  constructor
  · rintro ⟨hfed, hcomputed, honly⟩
    rw [hnodes, List.forall_mem_map] at hcomputed
    have hrenames : Renames old new (b :: outer) (b :: outer) := by
      have hidentity := hcomputed n hn
      rw [Node.replaceReads_of_not_mem new hapart] at hidentity
      exact renames_of_identity hm hop hin hout hnew hold hidentity
    refine ⟨by simpa using hfed, fun k hk => ?_, by simpa using honly⟩
    obtain ⟨values, hvalues, hyields⟩ := hcomputed k hk
    refine ⟨values, ?_, by simpa using hyields⟩
    rw [← toOption_eq_some, ← runNode_redirected hm hg hn hin hout hnew hold hrenames hk,
      hvalues, toOption_ok]
  · intro hb
    have hrenames := renames_of_identity hm hop hin hout hnew hold (hb.computed n hn)
    refine ⟨by simpa using hb.fed, ?_, by simpa using hb.only⟩
    rw [hnodes, List.forall_mem_map]
    intro k hk
    obtain ⟨values, hvalues, hyields⟩ := hb.computed k hk
    refine ⟨values, ?_, by simpa using hyields⟩
    rw [← toOption_eq_some, runNode_redirected hm hg hn hin hout hnew hold hrenames hk, hvalues,
      toOption_ok]

/-- Behind an identity nothing changes when its readers read what it takes in. -/
theorem sameMeaning_replaceInputs : SameMeaning m g (g.replaceInputs old new) := by
  have hread : new ∈ n.reads := Node.mem_reads.2 (.inl ⟨by simp [hin], hnew⟩)
  have hresult : old ∈ n.results := Node.mem_results.2 ⟨by simp [hout], hold⟩
  refine ⟨by simp, by simp, fun name hname => ?_, fun env feeds _ => Option.ext fun values => ?_⟩
  · obtain ⟨hdef, hused⟩ := mem_outerReferences_iff.1 hname
    refine mem_outerReferences_iff.2 ⟨by simpa using hdef, ?_⟩
    rcases hused with ⟨hyielded, hne⟩ | ⟨k, hk, hmem⟩
    · exact .inl ⟨by simpa using hyielded, hne⟩
    · unfold Graph.replaceInputs at hk
      split at hk
      · exact .inr ⟨k, hk, hmem⟩
      · obtain ⟨reader, hreader, rfl⟩ := List.mem_map.1 hk
        rcases Node.mem_reads_replaceReads hmem with ⟨rfl, -⟩ | ⟨hmem, -⟩
        · exact .inr ⟨n, hn, hread⟩
        · exact .inr ⟨reader, hreader, hmem⟩
  · rw [run_eq_some_iff hg, run_eq_some_iff (hg.replaceInputs hn hread hresult),
      outputs_replaceInputs]
    exact exists_congr fun b =>
      and_congr_left' (solves_replaceInputs_iff hm hg hn hop hin hout hnew hold)

end Identity

end Evaluation

end TensorGraph
