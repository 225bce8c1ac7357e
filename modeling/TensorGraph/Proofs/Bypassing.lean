import TensorGraph.Proofs.IdentityRemoval
import TensorGraph.Proofs.Redirecting

/-!
# Bypasses of one graph

A bypass lets a value stand in for the only result of a node. Whatever becomes of the node, the
graph does what it would do with an identity in its place that hands the value on: the identity may
go and its two values become one, under either name, or it stays.

Where the value takes over the name of the result, the readers of the result have been made to read
the value before, so the names change twice.

## Main results

* `Graph.bypass_eq` -- the three outcomes.
* `Evaluation.bypass_sameMeaning` -- each does what the identity would do.
-/

namespace TensorGraph

open TensorGraph.Graph

namespace Graph

variable {visible : String → Prop} {g : Graph} {place : Nat} {n k : Node} {old new : String}

/-! ## Outcomes -/

/-- A node whose only result nothing uses can be removed. -/
theorem removeUnreferenced?_of_unread {value : String} (hn : g.nodes[place]? = some n)
    (hout : n.outputs = [value]) (hinside : g.isOutput value = false)
    (hunread : ∀ m ∈ g.nodes, value ∉ m.reads) :
    g.removeUnreferenced? place =
      some { g.dropNode place with infos := g.infos.erase value } := by
  have hreaders : g.readers value = [] := by
    refine List.eq_nil_iff_forall_not_mem.2 fun reader hreader => ?_
    obtain ⟨k, hk, hread⟩ := mem_readers.1 hreader
    exact hunread k (List.mem_of_getElem? hk) hread
  simp [removeUnreferenced?, hn, hout, isUsedBeside, hinside, hreaders]

/-- A node whose result is no output can be removed once the readers of the result are rewired. -/
private theorem removeIfUnreferenced_redirected (hn : g.nodes[place]? = some n)
    (hout : n.outputs = [old]) (hapart : old ∉ n.reads) (hne : old ≠ new)
    (hinside : g.isOutput old = false) :
    (g.replaceInputs old new).removeIfUnreferenced { node := n, place := some place } =
      some (Rewriting.redirected g place old new (g.infos.erase old)) := by
  have hkept : (g.replaceInputs old new).nodes[place]? = some n :=
    getElem?_replaceInputs_of_not_mem new hn hapart
  have hunread : ∀ m ∈ (g.replaceInputs old new).nodes, old ∉ m.reads := by
    intro m hm hread
    rw [replaceInputs, if_neg hne] at hm
    obtain ⟨k, -, rfl⟩ := List.mem_map.1 hm
    rcases Node.mem_reads_replaceReads hread with ⟨e, -⟩ | ⟨-, e⟩
    · exact hne e
    · exact e rfl
  have hremoved := removeUnreferenced?_of_unread hkept hout (by simpa using hinside) hunread
  simpa [removeIfUnreferenced, Rewriting.redirected] using hremoved

/-- The identity that a bypass may leave. -/
def shim (n : Node) (old new : String) : Node :=
  { name := n.name, op := "Identity", inputs := [new], outputs := [old] }

/-- What a bypass of a node does that does not read its only result: the node goes, and the result
is forgotten or gives its name to the value, or the node becomes an identity. -/
theorem bypass_eq (hn : g.nodes[place]? = some n) (hout : n.outputs = [old])
    (hapart : old ∉ n.reads) (hne : old ≠ new) : g.bypass { node := n, place := some place } new =
      if g.isOutput old = false then
        .ok (Rewriting.redirected g place old new (g.infos.erase old), .rewired)
      else if (g.producer? new).isSome && !g.isOutput new then
        let removed := (g.replaceInputs old new).dropNode place
        (removed.orStop (removed.renameValue new old)).map fun h => (h, .renamed)
      else .ok (g.putNode place (shim n old new), .shimmed) := by
  have hkept : NodeRef.afterRewiring { node := n, place := some place } old new =
      { node := n, place := some place } := afterRewiring_of_not_mem new hapart
  unfold bypass
  simp only [hout, List.head?_cons, hkept]
  cases hyielded : g.isOutput old with
  | false =>
      simp only [Bool.not_false, if_true,
        removeIfUnreferenced_redirected hn hout hapart hne hyielded]
  | true =>
      simp only [Bool.not_true, Bool.false_eq_true, Bool.true_eq_false, if_false]
      split <;> rfl

/-! ## The identity in the place of the node -/

/-- What a graph is without a node does not depend on the node. -/
private theorem dropNode_replaceInputs_putNode (g : Graph) (place : Nat) (k : Node)
    (old new : String) : ((g.putNode place k).replaceInputs old new).dropNode place =
      (g.replaceInputs old new).dropNode place := by
  unfold replaceInputs dropNode putNode
  split <;> simp [List.eraseIdx_map, List.eraseIdx_set_eq]

section Identity

variable (hn : g.nodes[place]? = some n) (hout : n.outputs = [old]) (hne : old ≠ new)
include hn

private theorem getElem?_shim (old new : String) :
    (g.putNode place (shim n old new)).nodes[place]? = some (shim n old new) :=
  List.getElem?_set_self (List.getElem?_eq_some_iff.1 hn).1

include hne

/-- Where the result is no output, it is merged into the value. -/
private theorem merged_redirected (hg : Wellformed visible (g.putNode place (shim n old new)))
    (hnew : new ≠ "") (hinside : g.isOutput old = false) (infos : InfoTable) :
    Merged (g.putNode place (shim n old new)) place (shim n old new) old new
      (Rewriting.redirected g place old new infos) := by
  have hplace := getElem?_shim hn old new
  have hnot : old ∉ (g.putNode place (shim n old new)).outputs := by
    simpa [isOutput, putNode] using hinside
  refine ⟨hplace, rfl, .inl ⟨rfl, rfl⟩, hne, hnew, by simp [Rewriting.redirected, putNode], ?_, ?_⟩
  · rw [map_substituteName_of_not_mem new hnot]
    simp [Rewriting.redirected, putNode]
  · rw [← Identities.nodes_rewired hg hplace rfl hne]
    exact congrArg Graph.nodes (dropNode_replaceInputs_putNode g place _ old new).symm

include hout

/-- Where the result is an output and the value is a result that is none, the value is merged into
the result, once the readers read the value. -/
private theorem exists_merged_renamed
    (hg : WellformedTree visible (g.putNode place (shim n old new))) (hnew : new ≠ "")
    (hold : old ≠ "") (hyielded : g.isOutput old = true) (hinside : g.isOutput new = false)
    (hproduced : new ∈ g.results) :
    ∃ h, ((g.replaceInputs old new).dropNode place).renameValue new old = .ok h ∧
      h.outputs = g.outputs ∧
      Merged ((g.putNode place (shim n old new)).replaceInputs old new) place (shim n old new) new
        old h := by
  have hplace := getElem?_shim hn old new
  have hread : new ∈ (shim n old new).reads := Node.mem_reads.2 (.inl ⟨by simp [shim], hnew⟩)
  have hresult : old ∈ (shim n old new).results := Node.mem_results.2 ⟨by simp [shim], hold⟩
  have hmem := List.mem_of_getElem? hplace
  have hredirected := hg.replaceInputs hmem hread hresult
  have hstays : ((g.putNode place (shim n old new)).replaceInputs old new).nodes[place]? =
      some (shim n old new) :=
    getElem?_replaceInputs_of_not_mem new hplace (hg.here.orderly.not_mem_reads hmem hresult)
  have hresults : (shim n old new).results = n.results := by simp [Node.results, shim, hout]
  have hmade : new ∈ ((g.putNode place (shim n old new)).replaceInputs old new).results := by
    rwa [results_replaceInputs, results_putNode hn hresults]
  obtain ⟨h, hrenamed, hinputs, houtputs, hnodes, -⟩ := Identities.renameValue_dropNode
    hredirected.here hstays rfl hne.symm (by simpa [isOutput, putNode] using hyielded) hmade
  rw [dropNode_replaceInputs_putNode] at hrenamed
  refine ⟨h, hrenamed, ?_, hstays, rfl, .inr ⟨rfl, rfl, hmade⟩, hne.symm, hold, hinputs, houtputs,
    hnodes⟩
  have hnot : new ∉ g.outputs := by simpa [isOutput] using hinside
  rw [houtputs, outputs_replaceInputs]
  exact map_substituteName_of_not_mem old hnot

end Identity

end Graph

namespace Evaluation

variable {V : Type} [Operand V] {m : Machine V} {visible : String → Prop} {g : Graph} {place : Nat}
  {n : Node} {old new : String}

/-- A bypass of a node that does not read its only result succeeds, keeps the names of the outputs,
and leaves a well-formed tree that does what the graph would do with an identity in the place of the
node. -/
theorem bypass_sameMeaning (hm : m.Regular) (hn : g.nodes[place]? = some n)
    (hout : n.outputs = [old]) (hapart : old ∉ n.reads) (hne : old ≠ new) (hnew : new ≠ "")
    (hold : old ≠ "")
    (hg : WellformedTree visible (g.putNode place (shim n old new))) :
    ∃ h how, g.bypass { node := n, place := some place } new = .ok (h, how) ∧
      h.outputs = g.outputs ∧ WellformedTree visible h ∧
      SameMeaning m (g.putNode place (shim n old new)) h := by
  rw [bypass_eq hn hout hapart hne]
  cases hyielded : g.isOutput old with
  | false =>
      have hmerged := merged_redirected hn hne hg.here hnew hyielded (g.infos.erase old)
      exact ⟨_, _, rfl, by simp [Rewriting.redirected], hmerged.wellformedTree hg,
        sameMeaning_of_merged hm hg hmerged⟩
  | true =>
      rw [if_neg (by simp)]
      cases hproduced : (g.producer? new).isSome && !g.isOutput new with
      | true =>
          rw [Bool.and_eq_true, Bool.not_eq_true', producer?_isSome_iff] at hproduced
          obtain ⟨h, hrenamed, houtputs, hmerged⟩ := exists_merged_renamed hn hout hne hg hnew hold
            hyielded hproduced.2 hproduced.1
          have hplace := List.mem_of_getElem? (getElem?_shim hn old new)
          have hredirected := hg.replaceInputs hplace
            (Node.mem_reads.2 (.inl ⟨by simp [shim], hnew⟩))
            (Node.mem_results.2 ⟨by simp [shim], hold⟩)
          have hsame := sameMeaning_replaceInputs hm hg hplace rfl rfl rfl hnew hold
          refine ⟨h, .renamed, ?_, houtputs, hmerged.wellformedTree hredirected,
            hsame.trans (sameMeaning_of_merged hm hredirected hmerged)⟩
          simp [orStop, Except.map, hrenamed]
      | false => exact ⟨_, _, rfl, rfl, hg, .refl m _⟩

end Evaluation

end TensorGraph
