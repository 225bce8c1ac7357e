import TensorGraph.Proofs.Ordering

/-!
# Sorted graphs

Sorting puts the nodes of a graph in dependency order. Of several nodes that yield one value the
first in the list counts, so a value could get another producer that way. It does not: the only node
that yields a value which another node yields too reads that value itself, and it comes behind the
one that counts. So a sorted graph has an order again.

## Main results

* `Graph.Tidy.producer?_sorted` -- every value keeps its producer.
* `Graph.Tidy.exists_order_sorted` -- a sorted graph has an order.
-/

namespace TensorGraph.Graph

variable {taken : String → Prop} {g h : Graph} {order : List Nat}

/-- The graph with its nodes in a given order. -/
def inOrder (g : Graph) (order : List Nat) : Graph := { g with nodes := g.nodesAt order }

theorem sortTopologically_eq_ok_iff :
    g.sortTopologically = .ok h ↔ ∃ order, g.topologicalOrder = .ok order ∧ h = g.inOrder order := by
  unfold sortTopologically
  cases g.topologicalOrder with
  | error cause => simp [bind, Except.bind]
  | ok order => simp [bind, Except.bind, pure, Except.pure, inOrder, eq_comm]

private theorem getElem?_nodesAt {places : List Nat} (h : ∀ place ∈ places, place < g.nodes.length)
    (i : Nat) : (g.nodesAt places)[i]? = places[i]?.bind fun place => g.nodes[place]? := by
  induction places generalizing i with
  | nil => rfl
  | cons place rest ih =>
      have hlt := h place List.mem_cons_self
      have hplace : g.nodes[place]? = some g.nodes[place] := List.getElem?_eq_getElem hlt
      have hrest := ih fun other hother => h other (List.mem_cons_of_mem _ hother)
      rw [nodesAt, List.filterMap_cons_some hplace]
      cases i with
      | zero => exact hplace.symm
      | succ i => exact hrest i

section Ordered

variable (horder : g.topologicalOrder = .ok order)
include horder

theorem getElem?_inOrder (i : Nat) :
    (g.inOrder order).nodes[i]? = order[i]?.bind fun place => g.nodes[place]? :=
  getElem?_nodesAt (fun _ => (mem_order_iff horder).1) i

/-- Where a node stands in the sorted graph. -/
theorem getElem?_inOrder_idxOf {place : Nat} {n : Node} (hn : g.nodes[place]? = some n) :
    (g.inOrder order).nodes[order.idxOf place]? = some n := by
  have hmem := (mem_order_iff horder).2 (List.getElem?_eq_some_iff.1 hn).1
  rw [getElem?_inOrder horder, List.getElem?_idxOf hmem, Option.bind_some, hn]

/-- Where a node of the sorted graph stood before. -/
theorem exists_place_of_inOrder {i : Nat} {n : Node} (hn : (g.inOrder order).nodes[i]? = some n) :
    ∃ place, g.nodes[place]? = some n ∧ order.idxOf place = i := by
  rw [getElem?_inOrder horder] at hn
  obtain ⟨place, hplace, hn⟩ := Option.bind_eq_some_iff.1 hn
  obtain ⟨hlt, rfl⟩ := List.getElem?_eq_some_iff.1 hplace
  exact ⟨_, hn, (nodup_order horder).idxOf_getElem i hlt⟩

theorem idxOf_lt_idxOf {i j : Nat} (h : g.DependsOn i j) : order.idxOf j < order.idxOf i := by
  have hmem : i ∈ order := by
    obtain ⟨n, hn, -⟩ := h
    exact (mem_order_iff horder).2 (List.getElem?_eq_some_iff.1 hn).1
  rw [(topologicalOrder_ok horder).1] at hmem ⊢
  exact idxOf_lt_of_dependsOn hmem h

/-- The producer of a value comes before all other nodes that yield it. -/
theorem Tidy.idxOf_producer_lt (hg : Tidy taken g) {value : String} {first place : Nat} {n : Node}
    (hfirst : g.producerPlace? value = some first) (hn : g.nodes[place]? = some n)
    (hvalue : value ∈ n.results) (hne : place ≠ first) : order.idxOf first < order.idxOf place := by
  rcases hg.single value with honce | hspare
  · rw [hg.producerPlace?_eq honce hn hvalue] at hfirst
    exact absurd (Option.some.inj hfirst) hne
  obtain ⟨m, hm, hyields⟩ := producerPlace?_mem hfirst
  obtain ⟨k, hk, -, hin, hout, -, constant, hmakers⟩ := hspare.gather
  have hread : value ∈ k.reads :=
    Node.mem_reads.2 (.inl ⟨hin, Node.ne_empty_of_mem_results hout⟩)
  -- the node that gathers depends on the first producer, so it is not the first itself
  have hgather {j : Nat} {l : Node} (hl : g.nodes[j]? = some l) (hname : l.name = k.name) :
      order.idxOf first < order.idxOf j := by
    obtain rfl := hg.eq_of_name_eq (List.mem_of_getElem? hl) hk hname
    exact idxOf_lt_idxOf horder ⟨l, hl, value, hread, hfirst⟩
  rcases hmakers m (List.mem_of_getElem? hm) hyields with hname | ⟨hname, -⟩
  · exact absurd (hgather hm hname) (Nat.lt_irrefl _)
  rcases hmakers n (List.mem_of_getElem? hn) hvalue with hname' | ⟨hname', -⟩
  · exact hgather hn hname'
  · exact absurd (hg.place_eq hn hm (hname'.trans hname.symm)) hne

theorem Tidy.producerPlace?_sorted (hg : Tidy taken g) (value : String) :
    (g.inOrder order).producerPlace? value = (g.producerPlace? value).map order.idxOf := by
  cases hfirst : g.producerPlace? value with
  | none =>
      have hnot : value ∉ g.results := by
        rw [← producerPlace?_isSome_iff, hfirst]
        simp
      rw [Option.map_none, ← Option.not_isSome_iff_eq_none, producerPlace?_isSome_iff]
      exact fun hvalue => hnot
        (((nodesAt_perm horder).flatMap_right Node.results).mem_iff.1 hvalue)
  | some first =>
      obtain ⟨n, hn, hvalue⟩ := producerPlace?_mem hfirst
      have hplace := getElem?_inOrder_idxOf horder hn
      obtain ⟨hlt, hget⟩ := List.getElem?_eq_some_iff.1 hplace
      refine List.findIdx?_eq_some_iff_getElem.2 ⟨hlt, ?_, fun i hi => ?_⟩
      · rw [hget, Node.produces_iff]
        exact hvalue
      · rw [Node.produces_iff]
        intro hyields
        have hbefore : i < order.idxOf first := hi
        obtain ⟨place, hm, rfl⟩ := exists_place_of_inOrder horder
          (List.getElem?_eq_getElem (Nat.lt_trans hbefore hlt))
        have hne : place ≠ first := fun e => Nat.lt_irrefl _ (e ▸ hbefore)
        exact Nat.lt_asymm hbefore (hg.idxOf_producer_lt horder hfirst hm hyields hne)

/-- Sorting leaves every value its producer. -/
theorem Tidy.producer?_sorted (hg : Tidy taken g) (value : String) :
    (g.inOrder order).producer? value = g.producer? value := by
  rw [producer?_eq, producer?_eq, hg.producerPlace?_sorted horder]
  cases hfirst : g.producerPlace? value with
  | none => rfl
  | some first =>
      obtain ⟨n, hn, -⟩ := producerPlace?_mem hfirst
      rw [Option.map_some, Option.bind_some, Option.bind_some, getElem?_inOrder_idxOf horder hn, hn]

/-- A sorted graph has an order, that of its list. -/
theorem Tidy.exists_order_sorted (hg : Tidy taken g) :
    ∃ order', (g.inOrder order).topologicalOrder = .ok order' := by
  have hdown : ∀ i, ∀ j ∈ (g.inOrder order).dependencies.getD i [],
      j < i ∧ j < (g.inOrder order).dependencies.length := by
    intro i j hj
    obtain ⟨n, hn, value, hread, hproducer⟩ := mem_dependencies.1 hj
    obtain ⟨place, hplace, rfl⟩ := exists_place_of_inOrder horder hn
    rw [hg.producerPlace?_sorted horder, Option.map_eq_some_iff] at hproducer
    obtain ⟨first, hfirst, rfl⟩ := hproducer
    obtain ⟨m, hm, -⟩ := producerPlace?_mem hfirst
    rw [length_dependencies]
    exact ⟨idxOf_lt_idxOf horder ⟨n, hplace, value, hread, hfirst⟩,
      (List.getElem?_eq_some_iff.1 (getElem?_inOrder_idxOf horder hm)).1⟩
  have hlength := length_schedule id hdown
  rw [length_dependencies] at hlength
  exact ⟨_, by rw [topologicalOrder_eq]; exact if_pos hlength⟩

end Ordered

end TensorGraph.Graph
