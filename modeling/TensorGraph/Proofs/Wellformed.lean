import TensorGraph.Proofs.Ordering
import TensorGraph.Proofs.ValidTrees

/-!
# Well-formed graphs

A graph is well formed when it keeps all structural rules but those on permutations, and when no
input of it bears the empty name. Nothing in these conditions depends on what is known of values,
so a change of a graph can be followed through them name by name.

## Main results

* `Graph.IsValid.wellformedTree` -- every graph of a valid tree is well formed.
* `Graph.WellformedTree.code_eq` -- and in a tree of well-formed graphs the checks find nothing but
  permutations.
* `Graph.exists_order` -- a graph in which values ascend has an order.
* `Graph.Scoped.orderly` -- in a scoped graph they do.
-/

namespace TensorGraph.Graph

/-- Whether every node reads values of lower levels than those that it yields. -/
def Ascending (g : Graph) (level : String → Nat) : Prop :=
  ∀ n ∈ g.nodes, ∀ read ∈ n.reads, read ∈ g.results → ∀ value ∈ n.results,
    level read < level value

/-- A graph in which values ascend has an order. -/
theorem exists_order {g : Graph} (level : String → Nat) (h : g.Ascending level) :
    ∃ order, g.topologicalOrder = .ok order := by
  refine Acyclic.topologicalOrder
    ⟨level, fun n hn read hread hmem value hvalue _ => h n hn read hread hmem value hvalue⟩
    fun value hspare => ?_
  obtain ⟨k, hk, -, hin, hout, -⟩ := hspare.gather
  have hread : value ∈ k.reads :=
    Node.mem_reads.2 (.inl ⟨hin, Node.ne_empty_of_mem_results hout⟩)
  exact Nat.lt_irrefl _ (h k hk value hread (mem_results.2 ⟨k, hk, hout⟩) value hout)

/-- What a run of a graph relies on: values are yielded once and are no inputs, and they ascend. -/
structure Orderly (g : Graph) : Prop where
  results : g.results.Nodup
  apart : ∀ value ∈ g.results, value ∉ g.inputs
  ascending : ∃ level, g.Ascending level

namespace Orderly

variable {g : Graph}

theorem exists_order (h : g.Orderly) : ∃ order, g.topologicalOrder = .ok order :=
  h.ascending.elim Graph.exists_order

/-- The producer of a value is the node that yields it. -/
theorem producerPlace?_eq (h : g.Orderly) {place : Nat} {n : Node} (hn : g.nodes[place]? = some n)
    {value : String} (hvalue : value ∈ n.results) : g.producerPlace? value = some place := by
  have hresult : value ∈ g.results := mem_results.2 ⟨n, List.mem_of_getElem? hn, hvalue⟩
  obtain ⟨found, hfound⟩ := Option.isSome_iff_exists.1 (producerPlace?_isSome_iff.2 hresult)
  obtain ⟨k, hk, hyields⟩ := producerPlace?_mem hfound
  rw [hfound]
  by_contra hne
  have hne : found ≠ place := fun e => hne (congrArg some e)
  obtain ⟨hfoundlt, rfl⟩ := List.getElem?_eq_some_iff.1 hk
  obtain ⟨hplacelt, rfl⟩ := List.getElem?_eq_some_iff.1 hn
  have hdisjoint := (List.nodup_flatMap.1 h.results).2
  rcases Nat.lt_or_gt_of_ne hne with hlt | hlt
  · exact List.pairwise_iff_getElem.1 hdisjoint found place hfoundlt hplacelt hlt hyields hvalue
  · exact List.pairwise_iff_getElem.1 hdisjoint place found hplacelt hfoundlt hlt hvalue hyields

/-- No node of an orderly graph reads what it yields. -/
theorem not_mem_reads (h : g.Orderly) {n : Node} (hn : n ∈ g.nodes) {value : String}
    (hvalue : value ∈ n.results) : value ∉ n.reads := by
  intro hread
  obtain ⟨level, hlevel⟩ := h.ascending
  exact Nat.lt_irrefl _ (hlevel n hn value hread (mem_results.2 ⟨n, hn, hvalue⟩) value hvalue)

end Orderly

/-- A scoped graph whose attributes are records is orderly. -/
theorem Scoped.orderly {visible : String → Prop} {g : Graph} (h : Scoped visible g)
    (hkeyed : ∀ n ∈ g.nodes, n.Keyed) : g.Orderly where
  results := h.results
  apart := h.apart
  ascending := by
    obtain ⟨order, horder⟩ := h.ordered
    obtain ⟨level, hlevel⟩ := (h.tidy hkeyed).exists_level horder
    exact ⟨level, fun n hn read hread hmem value hvalue =>
      hlevel n hn read hread hmem value hvalue (h.once value)⟩

/-- Whether a loop or a branch has the bodies that it needs. -/
def Equipped (n : Node) : Prop :=
  (n.op = "Loop" → loopProblems n = []) ∧ (n.op = "If" → branchProblems n = [])

/-- The structural rules apart from those on permutations, for a graph around which the names in
`visible` are defined. -/
structure Wellformed (visible : String → Prop) (g : Graph) : Prop extends Scoped visible g where
  /-- Attributes are records. -/
  keyed : ∀ n ∈ g.nodes, n.Keyed
  /-- Inputs have names. -/
  named : "" ∉ g.inputs
  /-- So has what is defined around the graph. -/
  unseen : ¬ visible ""
  /-- Loops and branches have the bodies that they need. -/
  equipped : ∀ n ∈ g.nodes, Equipped n

/-- Every graph of a tree is well formed. -/
abbrev WellformedTree : (String → Prop) → Graph → Prop := Everywhere seenIn Wellformed

/-- Whether no input of a graph in a tree bears the empty name. -/
abbrev NamedInputs : Graph → Prop :=
  Everywhere (fun _ taken => taken) (fun _ g => "" ∉ g.inputs) (fun _ => True)

namespace Wellformed

variable {visible : String → Prop} {g : Graph}

theorem not_seenIn_empty (h : Wellformed visible g) : ¬ g.seenIn visible "" := by
  rintro (hseen | hdef)
  · exact h.unseen hseen
  · exact (defines_iff.1 hdef).elim h.named fun hmem => ne_empty_of_mem_results hmem rfl

theorem ne_empty_of_mem_outputs (h : Wellformed visible g) {value : String}
    (hvalue : value ∈ g.outputs) : value ≠ "" := by
  rintro rfl
  exact h.not_seenIn_empty (h.yielded "" hvalue)

theorem orderly (h : Wellformed visible g) : g.Orderly := h.toScoped.orderly h.keyed

/-- The values of a well-formed graph ascend. -/
theorem exists_ascending (h : Wellformed visible g) : ∃ level, g.Ascending level :=
  h.orderly.ascending

/-- No node of a well-formed graph reads what it yields. -/
theorem not_mem_reads (h : Wellformed visible g) {n : Node} (hn : n ∈ g.nodes) {value : String}
    (hvalue : value ∈ n.outputs) : value ∉ n.reads := fun hread =>
  h.orderly.not_mem_reads hn
    (Node.mem_results.2 ⟨hvalue, Node.ne_empty_of_mem_reads hread⟩) hread

end Wellformed

namespace WellformedTree

variable {visible visible' : String → Prop} {g : Graph}

theorem congr (h : WellformedTree visible g) (hsame : ∀ value, visible value ↔ visible' value) :
    WellformedTree visible' g := by
  obtain rfl : visible = visible' := funext fun value => propext (hsame value)
  exact h

theorem scopedTree (h : WellformedTree visible g) : ScopedTree visible g :=
  h.imp fun _ _ => Wellformed.toScoped

theorem keyedTree (h : WellformedTree visible g) : KeyedTree g := by
  unfold KeyedTree
  generalize (fun _ => True : String → Prop) = anywhere
  induction h with
  | intro here _ ih => exact .intro here.keyed ih

/-- What a tree of well-formed graphs takes from outside is defined there. -/
theorem visible_of_mem_outerReferences (h : WellformedTree visible g) {value : String}
    (hvalue : value ∈ g.outerReferences) : visible value :=
  ScopedTree.visible_of_mem_outerReferences h.scopedTree hvalue

/-- A value that a graph of a well-formed tree uses is defined in it or around it. -/
theorem seenIn_of_uses (h : WellformedTree visible g) {value : String} (hused : g.Uses value) :
    g.seenIn visible value :=
  ScopedTree.seenIn_of_uses h.scopedTree hused

end WellformedTree

/-! ## Valid graphs -/

/-- A node keeps the rules of its operator if and only if it has the bodies that it needs and its
permutation is one. -/
theorem operatorProblems_eq_nil_iff {enclosing : List Graph} {g : Graph} {n : Node} :
    g.operatorProblems enclosing n = [] ↔
      Equipped n ∧ (n.op = "Transpose" → g.transposeProblems enclosing n = []) := by
  unfold operatorProblems Equipped
  by_cases htranspose : n.op = "Transpose" <;> by_cases hloop : n.op = "Loop" <;>
    by_cases hbranch : n.op = "If" <;> simp [htranspose, hloop, hbranch]

private theorem wellformedTree_of_issuesIn {enclosing : List Graph} {g : Graph}
    (h : g.issuesIn enclosing = []) {anywhere : String → Prop}
    (hkeyed : Everywhere (fun _ taken => taken) (fun _ g => ∀ n ∈ g.nodes, n.Keyed) anywhere g)
    (hnamed : Everywhere (fun _ taken => taken) (fun _ g => "" ∉ g.inputs) anywhere g)
    (hunseen : ¬ definedBy enclosing "") : WellformedTree (definedBy enclosing) g := by
  induction g using bodyInduction generalizing enclosing with
  | step g ih =>
      rw [issuesIn_eq, List.append_eq_nil_iff, List.flatMap_eq_nil_iff] at h
      have here : Wellformed (definedBy enclosing) g :=
        { Scoped.of_scopeIssues h.1 with
          keyed := hkeyed.here
          named := hnamed.here
          unseen := hunseen
          equipped := fun n hn =>
            (operatorProblems_eq_nil_iff.1 (operatorProblems_of_scopeIssues h.1 hn)).1 }
      refine .intro here fun n hn body hbody => ?_
      have hunseen := here.not_seenIn_empty
      rw [← definedBy_cons] at hunseen ⊢
      exact ih n hn body hbody (List.flatMap_eq_nil_iff.1 (h.2 n hn) body hbody)
        (hkeyed.body hn hbody) (hnamed.body hn hbody) hunseen

/-- Every graph of a valid tree is well formed. -/
theorem IsValid.wellformedTree {g : Graph} (h : g.IsValid) (hkeyed : KeyedTree g)
    (hnamed : NamedInputs g) : WellformedTree (fun _ => False) g :=
  definedBy_nil ▸ wellformedTree_of_issuesIn h hkeyed hnamed (by simp [definedBy_nil])

/-- What the rules of operators forbid in a well-formed graph is a matter of permutations. -/
private theorem code_of_mem_operatorProblems {enclosing : List Graph} {g : Graph} {n : Node}
    (h : Equipped n) {problem : Problem} (hproblem : problem ∈ g.operatorProblems enclosing n) :
    problem.code = "invalid-permutation" := by
  unfold operatorProblems at hproblem
  rw [List.mem_append, List.mem_append] at hproblem
  rcases hproblem with (htranspose | hloop) | hbranch
  · split at htranspose
    · unfold transposeProblems at htranspose
      split at htranspose
      · simp at htranspose
      · split at htranspose
        · obtain rfl := List.mem_singleton.1 htranspose
          rfl
        · split at htranspose
          · split at htranspose
            · simp at htranspose
            · obtain rfl := List.mem_singleton.1 htranspose
              rfl
          · simp at htranspose
    · simp at htranspose
  · split at hloop
    · rename_i hop
      simp [h.1 hop] at hloop
    · simp at hloop
  · split at hbranch
    · rename_i hop
      simp [h.2 hop] at hbranch
    · simp at hbranch

/-- In a tree of well-formed graphs the checks find nothing but permutations. -/
theorem WellformedTree.code_eq (enclosing : List Graph) {g : Graph}
    (h : WellformedTree (definedBy enclosing) g) {issue : Issue}
    (hissue : issue ∈ g.issuesIn enclosing) : issue.problem.code = "invalid-permutation" := by
  induction g using bodyInduction generalizing enclosing with
  | step g ih =>
      rw [issuesIn_eq, List.mem_append, List.mem_flatMap] at hissue
      rcases hissue with hhere | ⟨n, hn, hbelow⟩
      · obtain ⟨n, hn, hproblem⟩ := h.here.mem_scopeIssues hhere
        exact code_of_mem_operatorProblems (h.here.equipped n hn) hproblem
      · obtain ⟨body, hbody, hissue⟩ := List.mem_flatMap.1 hbelow
        exact ih n hn body hbody (g :: enclosing) (definedBy_cons g enclosing ▸ h.body hn hbody) hissue

end TensorGraph.Graph
