import Mathlib.Logic.Relation
import TensorGraph.Proofs.Bodies
import TensorGraph.Proofs.Wellformed

/-!
# Exchanging a node

A node may give way to another one of its name that yields the same values. The graph stays well
formed if what the new node reads and the old one did not is defined in the graph or around it, and
is not yielded by a node that depends on the one that is exchanged.

## Main results

* `Graph.Orderly.ascending_putNode` -- the values still ascend.
* `Graph.WellformedTree.putNode` -- and a well-formed tree stays one.
-/

namespace TensorGraph.Graph

open Relation

variable {visible : String → Prop} {g : Graph} {place : Nat} {n k : Node}

/-- Whether the node at a place may begin to read a value: it is seen from there, and what yields it
does not depend on the node. -/
def Offers (g : Graph) (visible : String → Prop) (place : Nat) (value : String) : Prop :=
  g.seenIn visible value ∧
    ∀ made, g.producerPlace? value = some made → ¬ ReflTransGen g.DependsOn made place

section PutNode

variable (hn : g.nodes[place]? = some n)
include hn

theorem mem_nodes_putNode {m : Node} :
    m ∈ (g.putNode place k).nodes ↔ m = k ∨ ∃ j, j ≠ place ∧ g.nodes[j]? = some m :=
  mem_set_iff (List.getElem?_eq_some_iff.1 hn).1

/-- What all nodes keep when one of them is exchanged. -/
theorem map_nodes_putNode {α : Type} {f : Node → α} (hf : f k = f n) :
    (g.putNode place k).nodes.map f = g.nodes.map f := by
  obtain ⟨hlt, rfl⟩ := List.getElem?_eq_some_iff.1 hn
  rw [putNode, List.map_set, hf, ← List.getElem_map f (h := by simpa using hlt),
    List.set_getElem_self]

variable (hresults : k.results = n.results)
include hresults

theorem results_putNode : (g.putNode place k).results = g.results := by
  unfold results
  rw [List.flatMap_def, List.flatMap_def, map_nodes_putNode hn hresults]

theorem defines_putNode (value : String) : (g.putNode place k).defines value = g.defines value := by
  refine defines_congr ?_ (fun _ => ?_) value
  · rfl
  · rw [results_putNode hn hresults]

/-- Only what the new node reads can be taken from outside in addition. -/
theorem mem_outerReferences_putNode {name : String}
    (h : name ∈ (g.putNode place k).outerReferences) :
    name ∈ g.outerReferences ∨ g.defines name = false ∧ name ∈ k.reads := by
  obtain ⟨hdef, hused⟩ := mem_outerReferences_iff.1 h
  rw [defines_putNode hn hresults] at hdef
  rcases hused with hout | ⟨m, hm, hread⟩
  · exact .inl (mem_outerReferences_iff.2 ⟨hdef, .inl hout⟩)
  · rcases (mem_nodes_putNode hn).1 hm with rfl | ⟨j, -, hj⟩
    · exact .inr ⟨hdef, hread⟩
    · exact .inl (mem_outerReferences_iff.2 ⟨hdef, .inr ⟨m, List.mem_of_getElem? hj, hread⟩⟩)

/-- The values still ascend when the new node reads nothing in addition that depends on the old one:
what does depend on it is lifted above everything else. -/
theorem Orderly.ascending_putNode (hg : g.Orderly)
    (hreads : ∀ value ∈ k.reads, value ∈ n.reads ∨
      ∀ made, g.producerPlace? value = some made → ¬ ReflTransGen g.DependsOn made place) :
    ∃ level, (g.putNode place k).Ascending level := by
  classical
  obtain ⟨level, hlevel⟩ := hg.ascending
  let top := (g.results.map level).max?.getD 0 + 1
  have htop {value : String} (hvalue : value ∈ g.results) : level value < top :=
    Nat.lt_succ_of_le (List.le_max?_getD_of_mem (List.mem_map_of_mem hvalue))
  let Behind (value : String) : Prop :=
    ∃ made, g.producerPlace? value = some made ∧ ReflTransGen g.DependsOn made place
  let lifted (value : String) : Nat := if Behind value then top + level value else level value
  -- what depends on something behind the node is behind it
  have hstep {j : Nat} {m : Node} (hj : g.nodes[j]? = some m) {read value : String}
      (hread : read ∈ m.reads) (hresult : read ∈ g.results) (hvalue : value ∈ m.results) :
      lifted read < lifted value := by
    have hless := hlevel m (List.mem_of_getElem? hj) read hread hresult value hvalue
    by_cases hbehind : Behind read
    · obtain ⟨made, hmade, hpath⟩ := id hbehind
      have habove : Behind value :=
        ⟨j, hg.producerPlace?_eq hj hvalue, .head ⟨m, hj, read, hread, hmade⟩ hpath⟩
      simp only [lifted, if_pos hbehind, if_pos habove]
      omega
    · simp only [lifted, if_neg hbehind]
      split <;> omega
  refine ⟨lifted, fun m hm read hread hresult value hvalue => ?_⟩
  rw [results_putNode hn hresults] at hresult
  rcases (mem_nodes_putNode hn).1 hm with rfl | ⟨j, -, hj⟩
  · rw [hresults] at hvalue
    rcases hreads read hread with hbefore | hfree
    · exact hstep hn hbefore hresult hvalue
    · have hbehind : ¬ Behind read := fun ⟨made, hmade, hpath⟩ => hfree made hmade hpath
      have hless := htop hresult
      simp only [lifted, if_neg hbehind, if_pos (show Behind value from
        ⟨place, hg.producerPlace?_eq hn hvalue, .refl⟩)]
      omega
  · exact hstep hj hread hresult hvalue

end PutNode

/-- A tree stays well formed when a node gives way to another one that yields the same values, reads
nothing in addition that it may not read, and has well-formed bodies. -/
theorem WellformedTree.putNode (h : WellformedTree visible g) (hn : g.nodes[place]? = some n)
    (hname : k.name = n.name) (hresults : k.results = n.results) (hkeyed : k.Keyed)
    (hequipped : Equipped k)
    (hreads : ∀ value ∈ k.reads, value ∈ n.reads ∨ g.Offers visible place value)
    (hbodies : ∀ body ∈ k.bodies, WellformedTree (g.seenIn visible) body.2) :
    WellformedTree visible (g.putNode place k) := by
  have here := h.here
  have hmem := List.mem_of_getElem? hn
  have hscope : (g.putNode place k).seenIn visible = g.seenIn visible := by
    funext value
    rw [seenIn, seenIn, defines_putNode hn hresults]
  have hfrom {m : Node} (hm : m ∈ (g.putNode place k).nodes) : m = k ∨ m ∈ g.nodes := by
    rcases (mem_nodes_putNode hn).1 hm with rfl | ⟨j, -, hj⟩
    · exact .inl rfl
    · exact .inr (List.mem_of_getElem? hj)
  refine .intro
    { names := ?_, results := ?_, apart := ?_, newInputs := here.newInputs, newResults := ?_,
      taken := ?_, yielded := ?_, ordered := ?_, keyed := ?_, named := here.named,
      unseen := here.unseen, equipped := ?_ } ?_
  · rw [map_nodes_putNode hn hname]
    exact here.names
  · rw [results_putNode hn hresults]
    exact here.results
  · rw [results_putNode hn hresults]
    exact here.apart
  · rw [results_putNode hn hresults]
    exact here.newResults
  · intro m hm value hvalue hne
    rw [hscope]
    rcases hfrom hm with rfl | hm
    · rcases hreads value (Node.mem_reads.2 (.inl ⟨hvalue, hne⟩)) with hread | hoffered
      · exact h.seenIn_of_uses (.inr ⟨n, hmem, hread⟩)
      · exact hoffered.1
    · exact here.taken m hm value hvalue hne
  · rw [hscope]
    exact here.yielded
  · obtain ⟨level, hlevel⟩ := here.orderly.ascending_putNode hn hresults fun value hvalue =>
      (hreads value hvalue).imp_right And.right
    exact exists_order level hlevel
  · intro m hm
    rcases hfrom hm with rfl | hm
    · exact hkeyed
    · exact here.keyed m hm
  · intro m hm
    rcases hfrom hm with rfl | hm
    · exact hequipped
    · exact here.equipped m hm
  · intro m hm body hbody
    rw [hscope]
    rcases hfrom hm with rfl | hm
    · exact hbodies body hbody
    · exact h.body hm hbody

end TensorGraph.Graph
