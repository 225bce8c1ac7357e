import TensorGraph.Proofs.Settling
import TensorGraph.Proofs.Wellformed

/-!
# Live nodes

A node is live when an output of its graph can be reached from it, going from what a node yields to
the nodes that read it. What is left when the dead nodes of a graph are taken away, each of them with
the entries of its outputs, does not depend on the order in which they go: taking away a node that
nothing needs leaves alone which of the other nodes are live.

Liveness is a matter of names, as the removal is. Where the graph has an output of the empty name,
which then is some input, a node with an absent output counts as one that yields it.

## Main results

* `DeadNodes.pruned_of_removed` -- removing a node that nothing needs is removing a dead node.
* `DeadNodes.live_of_allLive` -- where every node is needed, every node is live.
* `DeadNodes.sweepGraph_pruned` -- removal in rounds leaves exactly the live nodes.
-/

namespace TensorGraph

open TensorGraph.Graph

/-! ## Tables without some names -/

namespace InfoTable

theorem entries_foldl_erase (names : List String) (t : InfoTable) :
    (names.foldl erase t).entries = t.entries.filter fun info => info.name ∉ names := by
  induction names generalizing t with
  | nil => simp
  | cons name rest ih =>
      rw [List.foldl_cons, ih, erase, List.filter_filter]
      refine List.filter_congr fun info _ => ?_
      by_cases hname : info.name = name <;> simp [hname]

/-- The order in which entries are erased does not matter. -/
theorem foldl_erase_congr {names names' : List String} (h : ∀ name, name ∈ names ↔ name ∈ names')
    (t : InfoTable) : names.foldl erase t = names'.foldl erase t := by
  refine ext ?_
  simp only [entries_foldl_erase, h]

end InfoTable

namespace Graph

/-! ## Live nodes -/

/-- Whether an output of the graph can be reached from a node. -/
inductive Live (g : Graph) : Node → Prop
  | yields {n : Node} {value : String} (hvalue : value ∈ n.outputs) (hout : value ∈ g.outputs) :
      g.Live n
  | feeds {n k : Node} {value : String} (hvalue : value ∈ n.outputs) (hk : k ∈ g.nodes)
      (hread : value ∈ k.reads) (hlive : g.Live k) : g.Live n

open scoped Classical in
/-- The nodes from which no output of the graph can be reached. -/
noncomputable def deadNodes (g : Graph) : List Node := g.nodes.filter fun n => ¬ g.Live n

open scoped Classical in
/-- The graph with its live nodes, and without what is known of the outputs of the dead ones. -/
noncomputable def pruned (g : Graph) : Graph :=
  { g with
    nodes := g.nodes.filter fun n => g.Live n
    infos := (g.deadNodes.flatMap Node.outputs).foldl InfoTable.erase g.infos }

theorem mem_deadNodes {g : Graph} {n : Node} : n ∈ g.deadNodes ↔ n ∈ g.nodes ∧ ¬ g.Live n := by
  simp [deadNodes]

@[simp] theorem mem_nodes_pruned {g : Graph} {n : Node} :
    n ∈ g.pruned.nodes ↔ n ∈ g.nodes ∧ g.Live n := by
  simp [pruned]

open scoped Classical in
/-- A graph without dead nodes stays as it is. -/
theorem pruned_eq_self {g : Graph} (h : ∀ n ∈ g.nodes, g.Live n) : g.pruned = g := by
  have hdead : g.deadNodes = [] :=
    List.eq_nil_iff_forall_not_mem.2 fun n hn => (mem_deadNodes.1 hn).2 (h n (mem_deadNodes.1 hn).1)
  have hlive : g.pruned.nodes = g.nodes :=
    List.filter_eq_self.2 fun n hn => decide_eq_true (h n hn)
  obtain ⟨name, inputs, outputs, infos, nodes⟩ := g
  simp only [pruned, hdead] at hlive ⊢
  simp [hlive]

/-- Fewer nodes that read less need no more. -/
theorem Live.mono {g h : Graph} {n : Node} (hn : h.Live n) (houtputs : h.outputs = g.outputs)
    (hnodes : ∀ k ∈ h.nodes, k ∈ g.nodes) : g.Live n := by
  induction hn with
  | yields hvalue hout => exact .yields hvalue (houtputs ▸ hout)
  | feeds hvalue hk hread _ ih => exact .feeds hvalue (hnodes _ hk) hread ih

/-- A graph with some of the nodes of an orderly one is orderly. -/
theorem Orderly.of_sublist {g h : Graph} (hg : g.Orderly) (hinputs : h.inputs = g.inputs)
    (hnodes : h.nodes.Sublist g.nodes) : h.Orderly := by
  have hresults : ∀ value ∈ h.results, value ∈ g.results := fun value hvalue => by
    obtain ⟨n, hn, hvalue⟩ := mem_results.1 hvalue
    exact mem_results.2 ⟨n, hnodes.subset hn, hvalue⟩
  obtain ⟨level, hlevel⟩ := hg.ascending
  exact
    { results := hg.results.sublist (hnodes.flatMap _)
      apart := fun value hvalue => hinputs ▸ hg.apart value (hresults value hvalue)
      ascending := ⟨level, fun n hn read hread hmem =>
        hlevel n (hnodes.subset hn) read hread (hresults read hmem)⟩ }

end Graph

/-! ## Removing what nothing needs -/

namespace DeadNodes

variable {s : Surroundings} {g h : Graph}

/-- A node that nothing needs is dead. -/
private theorem not_live_of_removed (hg : g.Orderly) {place : Nat} {n : Node}
    (hn : g.nodes[place]? = some n)
    (hunused : ∀ value ∈ n.outputs, g.isUsedBeside place value = false) : ¬ g.Live n := by
  intro hlive
  cases hlive with
  | yields hvalue hout =>
      have := hunused _ hvalue
      simp [isUsedBeside, isOutput, hout] at this
  | @feeds _ k value hvalue hk hread _ =>
      obtain ⟨j, hj, rfl⟩ := List.mem_iff_getElem.1 hk
      have hreader : j ∈ g.readers value :=
        mem_readers.2 ⟨_, List.getElem?_eq_getElem hj, hread⟩
      have := hunused _ hvalue
      simp only [isUsedBeside, Bool.or_eq_false_iff, List.any_eq_false, bne_iff_ne, ne_eq,
        Decidable.not_not] at this
      obtain rfl := this.2 j hreader
      obtain rfl : g.nodes[j] = n := by simpa [List.getElem?_eq_getElem hj] using hn
      exact hg.not_mem_reads hk
        (Node.mem_results.2 ⟨hvalue, Node.ne_empty_of_mem_reads hread⟩) hread

/-- When a dead node is gone the same other nodes are live. -/
private theorem live_dropNode_iff {place : Nat} {n : Node} (hn : g.nodes[place]? = some n)
    (hdead : ¬ g.Live n) {infos : InfoTable} {k : Node} :
    ({ g.dropNode place with infos } : Graph).Live k ↔ g.Live k := by
  constructor
  · exact fun hk => hk.mono rfl fun _ hmem => List.mem_of_mem_eraseIdx hmem
  · intro hk
    induction hk with
    | yields hvalue hout => exact .yields hvalue hout
    | @feeds _ k _ hvalue hmem hread hlive ih =>
        refine .feeds hvalue ?_ hread ih
        obtain ⟨j, hj, rfl⟩ := List.mem_iff_getElem.1 hmem
        refine List.mem_eraseIdx_iff_getElem?.2 ⟨j, ?_, List.getElem?_eq_getElem hj⟩
        rintro rfl
        rw [List.getElem?_eq_getElem hj] at hn
        exact hdead (Option.some.inj hn ▸ hlive)

private theorem exists_split {l : List Node} {place : Nat} {n : Node} (hn : l[place]? = some n) :
    ∃ before after, l = before ++ n :: after ∧ l.eraseIdx place = before ++ after := by
  obtain ⟨hlt, rfl⟩ := List.getElem?_eq_some_iff.1 hn
  refine ⟨l.take place, l.drop (place + 1), ?_, List.eraseIdx_eq_take_drop_succ _ _⟩
  rw [List.getElem_cons_drop, List.take_append_drop]

open scoped Classical in
/-- Removing a node that nothing needs is removing a dead node. -/
theorem pruned_of_removed (hg : g.Orderly) {place : Nat}
    (hremoved : g.removeUnreferenced? place = some h) :
    h.pruned = g.pruned ∧ g.deadNodes.length = h.deadNodes.length + 1 := by
  obtain ⟨n, hn, hunused, rfl⟩ := removeUnreferenced?_eq_some hremoved
  have hdead := not_live_of_removed hg hn hunused
  obtain ⟨before, after, hnodes, hrest⟩ := exists_split hn
  generalize hh : ({ g.dropNode place with
    infos := n.outputs.foldl InfoTable.erase g.infos } : Graph) = h
  have hlive (k : Node) : h.Live k ↔ g.Live k := hh ▸ live_dropNode_iff hn hdead
  have hkept : h.nodes = before ++ after := by
    rw [← hh, ← hrest]
    rfl
  have hgone : g.deadNodes = before.filter (fun k => ¬ g.Live k) ++
      n :: after.filter (fun k => ¬ g.Live k) := by
    simp only [deadNodes, hnodes, List.filter_append, List.filter_cons]
    simp [hdead]
  have hleft : h.deadNodes = before.filter (fun k => ¬ g.Live k) ++
      after.filter (fun k => ¬ g.Live k) := by
    simp only [deadNodes, hlive, hkept, List.filter_append]
  have hfilter : h.nodes.filter (fun k => h.Live k) = g.nodes.filter fun k => g.Live k := by
    simp only [hlive, hkept, hnodes, List.filter_append, List.filter_cons]
    simp [hdead]
  have hinfos : (h.deadNodes.flatMap Node.outputs).foldl InfoTable.erase h.infos =
      (g.deadNodes.flatMap Node.outputs).foldl InfoTable.erase g.infos := by
    have herased : h.infos = n.outputs.foldl InfoTable.erase g.infos := by rw [← hh]
    rw [herased, ← List.foldl_append]
    refine InfoTable.foldl_erase_congr (fun name => ?_) _
    simp only [hgone, hleft, List.flatMap_append, List.flatMap_cons, List.mem_append]
    exact or_left_comm
  refine ⟨?_, by simp [hgone, hleft]; omega⟩
  rw [pruned, pruned, hfilter, hinfos, ← hh]
  rfl

/-- Where so many nodes have been removed that nothing needs, as many dead nodes are gone. -/
theorem Dropped.pruned {count : Nat} (hd : Dropped count g h) (hg : g.Orderly) :
    h.Orderly ∧ h.pruned = g.pruned ∧ g.deadNodes.length = h.deadNodes.length + count := by
  induction hd with
  | none => exact ⟨hg, rfl, rfl⟩
  | one removed _ ih =>
      obtain ⟨hpruned, hlength⟩ := pruned_of_removed hg removed
      obtain ⟨n, -, -, rfl⟩ := removeUnreferenced?_eq_some removed
      obtain ⟨horderly, hpruned', hlength'⟩ :=
        ih (hg.of_sublist rfl (List.eraseIdx_sublist _ _))
      exact ⟨horderly, hpruned'.trans hpruned, by omega⟩

/-! ## Where every node is needed -/

/-- Where every node is needed, a node that is not live is read by another one, which yields only
values of higher levels. -/
private theorem exists_dead_above (hall : AllLive g) {level : String → Nat} (hlevel : g.Ascending level)
    {n : Node} (hn : n ∈ g.nodes) (hdead : ¬ g.Live n) :
    ∃ k ∈ g.nodes, ¬ g.Live k ∧ ∃ read ∈ n.results, ∀ value ∈ k.results, level read < level value := by
  obtain ⟨order, horder, hneeded⟩ := hall
  obtain ⟨place, hplace, rfl⟩ := List.mem_iff_getElem.1 hn
  have hneeded := hneeded place ((mem_order_iff horder).2 hplace)
  rw [isLive, List.getElem?_eq_getElem hplace] at hneeded
  obtain ⟨read, hread, hneeded⟩ := List.any_eq_true.1 hneeded
  rw [isNeeded, Bool.or_eq_true, List.any_eq_true] at hneeded
  rcases hneeded with hout | ⟨reader, hreader, -⟩
  · exact absurd (.yields hread (by simpa [isOutput] using hout)) hdead
  · obtain ⟨k, hk, hreads⟩ := mem_readers.1 hreader
    have hmem := List.mem_of_getElem? hk
    have hresult := Node.mem_results.2 ⟨hread, Node.ne_empty_of_mem_reads hreads⟩
    exact ⟨k, hmem, fun hlive => hdead (.feeds hread hmem hreads hlive), read, hresult,
      fun value hvalue => hlevel k hmem read hreads (mem_results.2 ⟨_, hn, hresult⟩) value hvalue⟩

/-- Where every node is needed, every node is live: from a dead one dead nodes would lead up without
end. -/
theorem live_of_allLive (hg : g.Orderly) (hall : AllLive g) : ∀ n ∈ g.nodes, g.Live n := by
  obtain ⟨level, hlevel⟩ := hg.ascending
  by_contra hsome
  push Not at hsome
  obtain ⟨n, hn, hdead⟩ := hsome
  have hclimb : ∀ height, ∃ k ∈ g.nodes, ¬ g.Live k ∧ ∀ value ∈ k.results, height ≤ level value := by
    intro height
    induction height with
    | zero => exact ⟨n, hn, hdead, fun _ _ => Nat.zero_le _⟩
    | succ height ih =>
        obtain ⟨k, hk, hkdead, hheight⟩ := ih
        obtain ⟨above, habove, hdead, read, hread, hhigher⟩ := exists_dead_above hall hlevel hk hkdead
        exact ⟨above, habove, hdead, fun value hvalue =>
          (hheight read hread).trans_lt (hhigher value hvalue)⟩
  obtain ⟨k, hk, hkdead, hheight⟩ :=
    hclimb (g.results.foldr (fun read top => max (level read + 1) top) 0)
  obtain ⟨-, -, -, read, hread, -⟩ := exists_dead_above hall hlevel hk hkdead
  exact Nat.lt_irrefl _ ((lt_foldr_max (mem_results.2 ⟨k, hk, hread⟩)).trans_le (hheight read hread))

/-! ## Rounds -/

theorem Dropped.trans {count more : Nat} {k : Graph} (hd : Dropped count g h)
    (hmore : Dropped more h k) : Dropped (count + more) g k := by
  induction hd with
  | none => exact (Nat.zero_add more).symm ▸ hmore
  | @one count place g h _ removed _ ih =>
      rw [show count + 1 + more = (count + more) + 1 by omega]
      exact .one removed (ih hmore)

/-- Rounds come to their end, and in the end every node is needed. -/
private theorem rounds_dropped (hg : g.Orderly) {fuel : Nat} (hfuel : g.nodes.length < fuel) :
    (rounds fuel g).failure = none ∧ AllLive (rounds fuel g).graph ∧
      Dropped (rounds fuel g).changes g (rounds fuel g).graph := by
  induction fuel generalizing g with
  | zero => exact absurd hfuel (Nat.not_lt_zero _)
  | succ fuel ih =>
      obtain ⟨order, horder⟩ := hg.exists_order
      have hnone : (round g).failure = none := by
        unfold round
        rw [horder]
      have hfirst := round_dropped hnone
      unfold rounds
      dsimp only
      split
      · rename_i hzero
        have hall := allLive_of_round ⟨hnone, hzero⟩
        refine ⟨hnone, ?_, hfirst⟩
        rwa [round_of_allLive hall]
      · rename_i hchanges
        have hlength := hfirst.length_eq
        obtain ⟨hend, hall, hrest⟩ := ih (hfirst.pruned hg).1 (by omega)
        simp only [Sweep.andThen, hnone, Option.isSome_none, Bool.false_eq_true, if_false]
        exact ⟨hend, hall, hfirst.trans hrest⟩

/-- Removal in rounds leaves the live nodes of an orderly graph, and counts the dead ones. In what
is left every node is needed. -/
theorem sweepGraph_pruned (hg : g.Orderly) :
    (sweepGraph s g).failure = none ∧ (sweepGraph s g).graph = g.pruned ∧
      (sweepGraph s g).changes = g.deadNodes.length ∧ AllLive g.pruned := by
  obtain ⟨hnone, hall, hdropped⟩ := rounds_dropped hg (Nat.lt_succ_self g.nodes.length)
  obtain ⟨horderly, hpruned, hlength⟩ := hdropped.pruned hg
  have hlive := live_of_allLive horderly hall
  have hdead : (rounds (g.nodes.length + 1) g).graph.deadNodes = [] :=
    List.eq_nil_iff_forall_not_mem.2 fun n hn =>
      (mem_deadNodes.1 hn).2 (hlive n (mem_deadNodes.1 hn).1)
  rw [pruned_eq_self hlive] at hpruned
  refine ⟨hnone, hpruned, ?_, hpruned ▸ hall⟩
  rw [hlength, hdead, List.length_nil, Nat.zero_add]
  rfl

end DeadNodes

end TensorGraph
