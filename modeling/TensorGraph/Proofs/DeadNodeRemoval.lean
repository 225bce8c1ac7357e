import TensorGraph.Execution.Value
import TensorGraph.Proofs.Liveness
import TensorGraph.Proofs.Meaning

/-!
# Removing dead nodes

What the pass over dead nodes leaves of a tree is told without saying how it goes about it: the bodies
of a graph are pruned first, so that a node that owns bodies reads only what they still take from
outside, and then the graph loses the nodes from which no output of it can be reached.

The order of what is left may be another one, and a node that used to fail may be gone. So a run of
the pruned tree has every result that a run of the tree has, and possibly one where that has none.

## Main results

* `DeadNodes.everyGraph_prunedTree` -- the pass leaves the pruned tree.
* `Evaluation.run_prunedTree` -- which has every result that the tree has.
* `Pass.deadNodes_prunes` -- both for valid graphs, and that a second run has nothing left to do.
-/

namespace TensorGraph

open TensorGraph.Graph Evaluation

/-! ## Changing all bodies -/

namespace Node

variable {f : Graph → Graph} {n : Node}

theorem mapBodies_eq (f : Graph → Graph) (n : Node) :
    n.mapBodies f =
      { n with attributes := n.attributes.map fun entry => (entry.1, entry.2.mapBody f) } :=
  congrArg (fun attributes => { n with attributes }) (Attributes.withBodies_map f n.attributes)

@[simp] theorem name_mapBodies : (n.mapBodies f).name = n.name := rfl

@[simp] theorem op_mapBodies : (n.mapBodies f).op = n.op := rfl

@[simp] theorem inputs_mapBodies : (n.mapBodies f).inputs = n.inputs := rfl

@[simp] theorem outputs_mapBodies : (n.mapBodies f).outputs = n.outputs := rfl

@[simp] theorem results_mapBodies : (n.mapBodies f).results = n.results := rfl

theorem bodies_mapBodies : (n.mapBodies f).bodies = n.bodies.map fun body => (body.1, f body.2) := by
  rw [mapBodies_eq]
  exact Attributes.bodies_mapBody f n.attributes

theorem keyed_mapBodies : (n.mapBodies f).Keyed ↔ n.Keyed := by
  rw [Keyed, mapBodies_eq, List.map_map]
  rfl

theorem parameters_mapBodies : (n.mapBodies f).parameters = n.parameters := by
  rw [parameters, mapBodies_eq, List.map_map]
  refine List.map_congr_left fun entry _ => ?_
  obtain ⟨key, value⟩ := entry
  cases value <;> rfl

/-- A node reads no more when its bodies take no more from outside. -/
theorem mem_reads_of_mapBodies
    (hf : ∀ body ∈ n.bodies, (f body.2).outerReferences ⊆ body.2.outerReferences) {value : String}
    (h : value ∈ (n.mapBodies f).reads) : value ∈ n.reads := by
  rcases mem_reads.1 h with hin | ⟨body, hbody, hvalue⟩
  · exact mem_reads.2 (.inl hin)
  · rw [bodies_mapBodies, List.mem_map] at hbody
    obtain ⟨body, hbody, rfl⟩ := hbody
    exact mem_reads.2 (.inr ⟨body, hbody, hf body hbody hvalue⟩)

end Node

namespace Graph

/-- The graph with every body in it changed by `f`. -/
def mapBodies (f : Graph → Graph) (g : Graph) : Graph :=
  { g with nodes := g.nodes.map (Node.mapBodies f) }

section MapBodies

variable {f : Graph → Graph} {g : Graph}

@[simp] theorem results_mapBodies : (g.mapBodies f).results = g.results := by
  unfold results Graph.mapBodies
  rw [List.flatMap_map]
  rfl

@[simp] theorem defines_mapBodies (value : String) :
    (g.mapBodies f).defines value = g.defines value := by
  have hinputs : (g.mapBodies f).inputs = g.inputs := rfl
  refine defines_congr hinputs (fun value => ?_) value
  rw [results_mapBodies]

/-- An orderly graph stays orderly when its bodies take no more from outside. -/
theorem Orderly.mapBodies (hg : g.Orderly)
    (hf : ∀ n ∈ g.nodes, ∀ body ∈ n.bodies, (f body.2).outerReferences ⊆ body.2.outerReferences) :
    (g.mapBodies f).Orderly := by
  obtain ⟨level, hlevel⟩ := hg.ascending
  have hresults : (g.mapBodies f).results = g.results := results_mapBodies
  refine ⟨hresults ▸ hg.results, fun value hvalue => hg.apart value (hresults ▸ hvalue), level, ?_⟩
  intro k hk read hread hmem value hvalue
  obtain ⟨n, hn, rfl⟩ := List.mem_map.1 hk
  exact hlevel n hn read (Node.mem_reads_of_mapBodies (hf n hn) hread) (hresults ▸ hmem) value hvalue

/-- A graph takes no more from outside when its bodies take no more. -/
theorem outerReferences_mapBodies
    (hf : ∀ n ∈ g.nodes, ∀ body ∈ n.bodies, (f body.2).outerReferences ⊆ body.2.outerReferences) :
    (g.mapBodies f).outerReferences ⊆ g.outerReferences := by
  intro value hvalue
  obtain ⟨hdef, hused⟩ := mem_outerReferences_iff.1 hvalue
  rw [defines_mapBodies] at hdef
  refine mem_outerReferences_iff.2 ⟨hdef, hused.imp_right fun ⟨k, hk, hread⟩ => ?_⟩
  obtain ⟨n, hn, rfl⟩ := List.mem_map.1 hk
  exact ⟨n, hn, Node.mem_reads_of_mapBodies (hf n hn) hread⟩

end MapBodies

/-! ## Pruned trees -/

/-- A tree of graphs, each of which has only its live nodes, its bodies being pruned before. -/
noncomputable def prunedTree : Graph → Graph :=
  fold fun g below => pruned { g with nodes := List.zipWith Node.withBodies g.nodes below }

theorem prunedTree_eq (g : Graph) : g.prunedTree = (g.mapBodies prunedTree).pruned := by
  unfold prunedTree
  rw [fold_eq, List.zipWith_map_right, List.zipWith_self]
  rfl

/-- How many nodes are dead in a tree: those of all bodies, also of the bodies of dead nodes, and
those of the graph when its bodies are pruned. -/
noncomputable def deadCount : Graph → Nat :=
  fold fun g below => (below.map List.sum).sum + (g.mapBodies prunedTree).deadNodes.length

theorem deadCount_eq (g : Graph) :
    g.deadCount = (g.nodes.map fun n => (n.bodies.map fun body => body.2.deadCount).sum).sum +
      (g.mapBodies prunedTree).deadNodes.length := by
  unfold deadCount
  rw [fold_eq, List.map_map]
  rfl

section Pruned

variable {g : Graph}

/-- What is used of a graph when its dead nodes are gone is still defined if it was before. -/
theorem defines_pruned_of_uses {value : String} (hused : g.pruned.Uses value)
    (hdef : g.defines value = true) : g.pruned.defines value = true := by
  refine defines_iff.2 ((defines_iff.1 hdef).imp_right fun hresult => ?_)
  obtain ⟨n, hn, hvalue⟩ := mem_results.1 hresult
  have hout := (Node.mem_results.1 hvalue).1
  refine mem_results.2 ⟨n, mem_nodes_pruned.2 ⟨hn, ?_⟩, hvalue⟩
  rcases hused with ⟨houtput, -⟩ | ⟨k, hk, hread⟩
  · exact .yields hout houtput
  · obtain ⟨hk, hlive⟩ := mem_nodes_pruned.1 hk
    exact .feeds hout hk hread hlive

theorem uses_of_pruned {value : String} (hused : g.pruned.Uses value) : g.Uses value :=
  hused.imp_right fun ⟨k, hk, hread⟩ => ⟨k, (mem_nodes_pruned.1 hk).1, hread⟩

theorem outerReferences_pruned : g.pruned.outerReferences ⊆ g.outerReferences := by
  intro value hvalue
  obtain ⟨hdef, hused⟩ := mem_outerReferences_iff.1 hvalue
  refine mem_outerReferences_iff.2 ⟨Bool.eq_false_iff.2 fun hdefined => ?_, uses_of_pruned hused⟩
  rw [defines_pruned_of_uses hused hdefined] at hdef
  cases hdef

theorem outerReferences_prunedTree (g : Graph) :
    g.prunedTree.outerReferences ⊆ g.outerReferences := by
  induction g using bodyInduction with
  | step g ih =>
      rw [prunedTree_eq]
      exact List.Subset.trans outerReferences_pruned (outerReferences_mapBodies ih)

@[simp] theorem inputs_prunedTree (g : Graph) : g.prunedTree.inputs = g.inputs := by
  rw [prunedTree_eq]
  rfl

@[simp] theorem outputs_prunedTree (g : Graph) : g.prunedTree.outputs = g.outputs := by
  rw [prunedTree_eq]
  rfl

theorem mem_nodes_prunedTree {k : Node} :
    k ∈ g.prunedTree.nodes ↔
      (∃ n ∈ g.nodes, n.mapBodies prunedTree = k) ∧ (g.mapBodies prunedTree).Live k := by
  rw [prunedTree_eq, mem_nodes_pruned]
  simp [mapBodies]

theorem Orderly.prunedTree (hg : g.Orderly) : g.prunedTree.Orderly := by
  rw [prunedTree_eq]
  exact (hg.mapBodies fun n _ body _ => outerReferences_prunedTree body.2).of_sublist rfl
    List.filter_sublist

/-- What holds of all graphs of a tree, and of an orderly graph when its tree is pruned, holds of all
graphs of the pruned tree. -/
private theorem everywhere_prunedTree {P : Graph → Prop}
    (hP : ∀ g : Graph, P g → P g.prunedTree) {anywhere : String → Prop}
    (h : Everywhere (fun _ taken => taken) (fun _ g => P g) anywhere g) :
    Everywhere (fun _ taken => taken) (fun _ g => P g) anywhere g.prunedTree := by
  induction h with
  | intro here _ ih =>
      refine .intro (hP _ here) fun k hk body hbody => ?_
      obtain ⟨⟨n, hn, rfl⟩, -⟩ := mem_nodes_prunedTree.1 hk
      rw [Node.bodies_mapBodies] at hbody
      obtain ⟨before, hbefore, rfl⟩ := List.mem_map.1 hbody
      exact ih n hn before hbefore

theorem keyedTree_prunedTree (h : KeyedTree g) : KeyedTree g.prunedTree := by
  refine everywhere_prunedTree (fun g hkeyed k hk => ?_) h
  obtain ⟨⟨n, hn, rfl⟩, -⟩ := mem_nodes_prunedTree.1 hk
  exact Node.keyed_mapBodies.2 (hkeyed n hn)

end Pruned

/-! ## Bodies that are treated one after the other -/

/-- The bodies of a graph with their places and keys. -/
def bodyPlaces (g : Graph) : List (Nat × String × Graph) :=
  g.nodes.zipIdx.flatMap fun (n, place) => n.bodies.map fun body => (place, body)

section BodyPlaces

variable {g : Graph}

theorem bodySlots_eq {α : Type} (f : String × Graph → α) :
    bodySlots g (g.nodes.map fun n => n.bodies.map f) =
      g.bodyPlaces.map fun slot => (slot.1, slot.2.1, f slot.2) := by
  rw [bodySlots_map, bodyPlaces, List.map_flatMap]
  simp only [List.map_map]
  rfl

theorem mem_bodyPlaces {place : Nat} {key : String} {body : Graph} :
    (place, key, body) ∈ g.bodyPlaces ↔ g.HasBody place key body := by
  simp only [bodyPlaces, List.mem_flatMap, List.mem_map, Prod.exists, HasBody,
    List.mem_zipIdx_iff_getElem?, Prod.mk.injEq]
  constructor
  · rintro ⟨n, _, hn, _, _, hbody, rfl, rfl, rfl⟩
    exact ⟨n, hn, hbody⟩
  · rintro ⟨n, hn, hbody⟩
    exact ⟨n, place, hn, key, body, hbody, rfl, rfl, rfl⟩

theorem sum_bodyPlaces (count : Graph → Nat) :
    (g.bodyPlaces.map fun slot => count slot.2.2).sum =
      (g.nodes.map fun n => (n.bodies.map fun body => count body.2).sum).sum := by
  rw [bodyPlaces, List.map_flatMap, List.flatMap_def, List.sum_flatten, List.map_map]
  conv_rhs => rw [← List.zipIdx_map_fst 0 g.nodes, List.map_map]
  simp only [Function.comp_def, List.map_map]

end BodyPlaces

/-- The node at a place with the bodies under some places and keys changed by `f`. -/
def touchedNode (f : Graph → Graph) (done : List (Nat × String)) (place : Nat) (n : Node) : Node :=
  { n with attributes := n.attributes.map fun (key, value) =>
      (key, if (place, key) ∈ done then value.mapBody f else value) }

/-- The graph with the bodies under some places and keys changed by `f`. -/
def touched (f : Graph → Graph) (done : List (Nat × String)) (g : Graph) : Graph :=
  { g with nodes := g.nodes.zipIdx.map fun (n, place) => touchedNode f done place n }

section Touched

variable {f : Graph → Graph} {g : Graph} {done : List (Nat × String)}

theorem getElem?_touched (place : Nat) :
    (g.touched f done).nodes[place]? = g.nodes[place]?.map (touchedNode f done place) := by
  rw [touched, List.getElem?_map, List.getElem?_zipIdx, Option.map_map, Nat.zero_add]
  rfl

private theorem touched_eq {h : Graph} (hinterface : h = { g with nodes := h.nodes })
    (hnodes : ∀ place, h.nodes[place]? = g.nodes[place]?.map (touchedNode f done place)) :
    g.touched f done = h := by
  have : (g.touched f done).nodes = h.nodes :=
    List.ext_getElem? fun place => (getElem?_touched place).trans (hnodes place).symm
  rw [hinterface, ← this]
  rfl

@[simp] theorem touched_nil : g.touched f [] = g := by
  have hsame (place : Nat) : touchedNode f [] place = id := by
    funext n
    obtain ⟨name, op, inputs, outputs, attributes⟩ := n
    simp [touchedNode]
  refine touched_eq (by cases g; rfl) fun place => ?_
  rw [hsame, Option.map_id, id]

/-- When all bodies have been changed, the bodies are changed. -/
theorem touched_all (h : ∀ place key body, g.HasBody place key body → (place, key) ∈ done) :
    g.touched f done = g.mapBodies f := by
  refine touched_eq rfl fun place => ?_
  rw [mapBodies, List.getElem?_map]
  refine Option.map_congr fun n hn => ?_
  rw [Node.mapBodies_eq, touchedNode]
  refine congrArg (fun attributes => { n with attributes }) (List.map_congr_left fun entry hentry => ?_)
  obtain ⟨key, value⟩ := entry
  cases value with
  | body body => simp [h place key body ⟨n, hn, Node.mem_bodies.2 hentry⟩]
  | _ => simp [Attribute.mapBody]

/-- One more body is changed. -/
theorem putBody_touched (hkeyed : ∀ n ∈ g.nodes, n.Keyed) {place : Nat} {key : String} {body : Graph}
    (hbody : g.HasBody place key body) :
    (g.touched f done).putBody place key (f body) = g.touched f (done ++ [(place, key)]) := by
  obtain ⟨n, hn, hmem⟩ := hbody
  have hnode : (g.touched f done).nodes[place]? = some (touchedNode f done place n) := by
    rw [getElem?_touched, hn, Option.map_some]
  rw [putBody_eq hnode]
  refine (touched_eq rfl fun other => ?_).symm
  rw [putNode, List.getElem?_set, getElem?_touched]
  by_cases hplace : place = other
  · subst hplace
    have hlt := (List.getElem?_eq_some_iff.1 hnode).1
    rw [if_pos rfl, if_pos hlt, hn, Option.map_some]
    refine congrArg some (congrArg (fun attributes => { n with attributes }) ?_)
    rw [touchedNode, List.map_map]
    refine List.map_congr_left fun entry hentry => ?_
    obtain ⟨k, value⟩ := entry
    by_cases hkey : k = key
    · subst hkey
      obtain rfl : value = .body body := (Prod.mk.inj (List.inj_on_of_nodup_map
        (hkeyed n (List.mem_of_getElem? hn)) hentry (Node.mem_bodies.1 hmem) rfl)).2
      simp [Attribute.mapBody]
    · simp [hkey]
  · rw [if_neg hplace]
    refine Option.map_congr fun k _ => ?_
    have hne : ∀ key', (other, key') ≠ (place, key) := fun key' e => hplace (Prod.mk.inj e).1.symm
    simp [touchedNode, hne]

end Touched

end Graph

/-! ## What a treatment of a tree ends with -/

/-- Whether a treatment comes to its end, with a graph and so many changes. -/
structure Sweep.Ends (sweep : Sweep) (h : Graph) (changes : Nat) : Prop where
  unfailed : sweep.failure = none
  left : sweep.graph = h
  counted : sweep.changes = changes

theorem Sweep.Ends.andThen {first : Sweep} {next : Graph → Sweep} {h k : Graph} {count more : Nat}
    (hfirst : first.Ends h count) (hnext : (next h).Ends k more) :
    (first.andThen next).Ends k (count + more) := by
  obtain ⟨hnone, rfl, rfl⟩ := hfirst
  obtain ⟨hnone', rfl, rfl⟩ := hnext
  unfold Sweep.andThen
  rw [hnone, Option.isSome_none, if_neg Bool.false_ne_true]
  exact ⟨hnone', rfl, rfl⟩

section Ends

variable {visit : Surroundings → Graph → Sweep} {s : Surroundings} {g h : Graph} {f : Graph → Graph}
  {count : Graph → Nat} {changes : Nat}

/-- When bodies are treated one after the other, and it does not matter what is around them, they
are changed one by one. -/
private theorem foldl_sweepBody_ends (hkeyed : ∀ n ∈ g.nodes, n.Keyed)
    {slots : List (Nat × String × Graph)}
    (hslots : ∀ slot ∈ slots, g.HasBody slot.1 slot.2.1 slot.2.2 ∧
      ∀ s, (everyGraph visit s slot.2.2).Ends (f slot.2.2) (count slot.2.2))
    {done : List (Nat × String)} {sweep : Sweep} (hsweep : sweep.Ends (g.touched f done) changes) :
    (slots.foldl (fun (sweep : Sweep) slot => sweep.andThen
        (sweepBody s (slot.1, slot.2.1, fun s => everyGraph visit s slot.2.2))) sweep).Ends
      (g.touched f (done ++ slots.map fun slot => (slot.1, slot.2.1)))
      (changes + (slots.map fun slot => count slot.2.2).sum) := by
  induction slots generalizing done sweep changes with
  | nil => simpa using hsweep
  | cons slot rest ih =>
      obtain ⟨place, key, body⟩ := slot
      obtain ⟨hbody, hends⟩ := hslots _ List.mem_cons_self
      obtain ⟨hnone, hleft, hcounted⟩ := hends (s.inside (g.touched f done) place key)
      have hstep : (sweepBody s (place, key, fun s => everyGraph visit s body) (g.touched f done)).Ends
          (g.touched f (done ++ [(place, key)])) (count body) := by
        refine ⟨hnone, ?_, hcounted⟩
        rw [← putBody_touched hkeyed hbody, ← hleft]
        rfl
      have hrest := ih (fun slot hslot => hslots slot (List.mem_cons_of_mem _ hslot))
        (hsweep.andThen hstep)
      rwa [List.append_assoc, Nat.add_assoc] at hrest

/-- A tree is treated by treating all bodies of its root and then the root with the bodies that it
has got, if it does not matter what is around them. -/
theorem everyGraph_ends (hkeyed : ∀ n ∈ g.nodes, n.Keyed)
    (hbodies : ∀ n ∈ g.nodes, ∀ body ∈ n.bodies, ∀ s,
      (everyGraph visit s body.2).Ends (f body.2) (count body.2))
    (hroot : (visit s (g.mapBodies f)).Ends h changes) :
    (everyGraph visit s g).Ends h
      ((g.nodes.map fun n => (n.bodies.map fun body => count body.2).sum).sum + changes) := by
  have hslots : ∀ slot ∈ g.bodyPlaces, g.HasBody slot.1 slot.2.1 slot.2.2 ∧
      ∀ s, (TensorGraph.everyGraph visit s slot.2.2).Ends (f slot.2.2) (count slot.2.2) := by
    rintro ⟨place, key, body⟩ hslot
    obtain ⟨n, hn, hmem⟩ := mem_bodyPlaces.1 hslot
    exact ⟨⟨n, hn, hmem⟩, hbodies n (List.mem_of_getElem? hn) _ hmem⟩
  have hfold := foldl_sweepBody_ends (s := s) hkeyed hslots
    (⟨rfl, touched_nil.symm, rfl⟩ : Sweep.Ends { graph := g } (g.touched f []) 0)
  rw [touched_all fun place key body hbody => List.mem_append_right _
    (List.mem_map.2 ⟨_, mem_bodyPlaces.2 hbody, rfl⟩), Nat.zero_add, sum_bodyPlaces] at hfold
  rw [everyGraph_eq, sweepWithBodies, bodySlots_eq, List.foldl_map]
  exact hfold.andThen hroot

end Ends

/-! ## What the pass leaves -/

namespace DeadNodes

variable {also : String → Prop} {s : Surroundings} {g : Graph}

theorem ends_sweepGraph (hg : g.Orderly) : (sweepGraph s g).Ends g.pruned g.deadNodes.length := by
  obtain ⟨hnone, hgraph, hchanges, -⟩ := sweepGraph_pruned (s := s) hg
  exact ⟨hnone, hgraph, hchanges⟩

/-- The graph with its bodies pruned is as orderly as it was. -/
private theorem orderly_mapBodies (hg : g.Orderly) : (g.mapBodies prunedTree).Orderly :=
  hg.mapBodies fun _ _ body _ => outerReferences_prunedTree body.2

/-- The pass leaves the pruned tree, and counts the nodes that are dead in the tree. -/
theorem everyGraph_prunedTree (hg : OrderlyTree also g) (hkeyed : KeyedTree g) :
    (everyGraph sweepGraph s g).Ends g.prunedTree g.deadCount := by
  induction g using bodyInduction generalizing s with
  | step g ih =>
      rw [prunedTree_eq, deadCount_eq]
      exact everyGraph_ends hkeyed.here
        (fun n hn body hbody s => ih n hn body hbody (hg.body hn hbody) (hkeyed.body hn hbody))
        (ends_sweepGraph (orderly_mapBodies hg.here.1))

/-- The pruned tree has nothing more to lose. -/
theorem settled_prunedTree (hg : OrderlyTree also g) : Settled sweepGraph s g.prunedTree := by
  induction g using bodyInduction generalizing s with
  | step g ih =>
      refine .intro ?_ fun place key body hbody => ?_
      · rw [prunedTree_eq]
        exact sweepGraph_of_allLive (sweepGraph_pruned (s := s) (orderly_mapBodies hg.here.1)).2.2.2
      · obtain ⟨k, hk, hmem⟩ := hbody
        obtain ⟨⟨n, hn, rfl⟩, -⟩ := mem_nodes_prunedTree.1 (List.mem_of_getElem? hk)
        rw [Node.bodies_mapBodies] at hmem
        obtain ⟨before, hbefore, hpruned⟩ := List.mem_map.1 hmem
        obtain ⟨rfl, rfl⟩ := Prod.mk.inj hpruned
        exact ih n hn before hbefore (hg.body hn hbefore)

end DeadNodes

/-! ## What comes out of pruned trees -/

namespace Evaluation

variable {V : Type} [Operand V] {m : Machine V} {also : String → Prop} {g : Graph}
  {env : Environment V} {feeds : String → Option V} {b : Bindings V}

/-- Of some bindings those of the names that the pruned tree of a graph defines. -/
noncomputable def keptBindings (g : Graph) (b : Bindings V) : Bindings V :=
  b.filter fun entry => g.prunedTree.defines entry.1

omit [Operand V] in
theorem lookup_keptBindings (g : Graph) (b : Bindings V) (name : String) :
    (keptBindings g b).lookup name = if g.prunedTree.defines name then b.lookup name else none :=
  lookup_filter _ b name

omit [Operand V] in
/-- What a pruned tree uses has the value that it had. -/
private theorem lookup?_keptBindings (hb : Binds g b) {name : String}
    (hused : g.prunedTree.Uses name ∨ name = "") :
    lookup? (keptBindings g b :: env) name = lookup? (b :: env) name := by
  rw [lookup?_cons, lookup?_cons, lookup_keptBindings]
  split
  · rfl
  · rename_i hgone
    have hundefined : g.defines name = false := by
      rw [Bool.eq_false_iff]
      intro hdef
      refine hgone ?_
      rcases hused with hused | rfl
      · rw [prunedTree_eq] at hused ⊢
        exact defines_pruned_of_uses hused ((defines_mapBodies name).trans hdef)
      · refine defines_iff.2 ((defines_iff.1 hdef).imp (fun hin => by simpa using hin) fun hmem => ?_)
        exact absurd rfl (ne_empty_of_mem_results hmem)
    have hnone : b.lookup name = none := by simpa [hundefined] using hb name
    rw [hnone]

/-- In a pruned tree absent outputs are where they were. -/
theorem OrderlyTree.prunedTree (hg : OrderlyTree also g) : OrderlyTree also g.prunedTree :=
  everywhere_prunedTree (fun g ⟨horderly, habsent⟩ =>
    ⟨horderly.prunedTree, fun hout => habsent (by simpa using hout)⟩) hg

/-- A node that reads the same values from other bindings yields what it did, when its bodies are
pruned and have the results that they had. -/
private theorem runNode_mapBodies (hm : m.Regular) {n : Node} {env' : Environment V}
    (hagree : ∀ name, name ∈ (n.mapBodies prunedTree).reads ∨ name = "" →
      lookup? env' name = lookup? env name)
    (hlocal : ∀ body ∈ n.bodies, OrderlyTree (· = "") body.2)
    (hbodies : ∀ body ∈ n.bodies, ∀ feeds,
      Refines (run m body.2 env feeds) (run m body.2.prunedTree env feeds)) :
    Refines (runNode m n (bodiesOf m n) env)
      (runNode m (n.mapBodies prunedTree) (bodiesOf m (n.mapBodies prunedTree)) env') := by
  refine runNode_refines
    { name := rfl
      op := rfl
      compute := fun operands =>
        .of_toOption (hm.functional n (n.mapBodies _) rfl rfl Node.parameters_mapBodies operands)
      inputs := List.forall₂_same.2 fun name hname => ⟨Iff.rfl, fun hne => ?_⟩
      bodies := ?_ }
  · exact hagree name (.inl (Node.mem_reads.2 (.inl ⟨hname, hne⟩)))
  · unfold bodiesOf
    rw [Node.bodies_mapBodies, List.map_map, List.forall₂_map_left_iff, List.forall₂_map_right_iff]
    refine List.forall₂_same.2 fun body hbody => ⟨rfl, by simp, by simp, fun feeds => ?_⟩
    -- the pruned body has the results of the body, and it does not see more of the new bindings
    refine (hbodies body hbody feeds).trans (.of_toOption ?_)
    refine run_localBeside (fun _ => id) (hlocal body hbody).prunedTree env env' feeds
      fun name hname => hagree name (hname.imp_left fun houter => Node.mem_reads.2 (.inr ?_))
    refine ⟨(body.1, body.2.prunedTree), ?_, houter⟩
    rw [Node.bodies_mapBodies]
    exact List.mem_map_of_mem hbody

/-- What solves the equations of a graph solves those of its pruned tree, as far as it is about
names that are defined there. -/
private theorem Solves.prunedTree (hm : m.Regular) (hg : OrderlyTree (· = "") g)
    (hbodies : ∀ n ∈ g.nodes, ∀ body ∈ n.bodies, ∀ env feeds,
      Refines (run m body.2 env feeds) (run m body.2.prunedTree env feeds))
    (hb : Solves m g env feeds b) : Solves m g.prunedTree env feeds (keptBindings g b) := by
  refine ⟨fun name hname => ?_, fun k hk => ?_, fun name hname => ?_⟩
  · rw [inputs_prunedTree] at hname
    rw [lookup_keptBindings, if_pos (defines_iff.2 (.inl (by simpa using hname)))]
    exact hb.fed name hname
  · obtain ⟨⟨n, hn, rfl⟩, -⟩ := mem_nodes_prunedTree.1 hk
    obtain ⟨values, hvalues, hyields⟩ := hb.computed n hn
    refine ⟨values, runNode_mapBodies hm (fun name hname => ?_) (fun body hbody => hg.body hn hbody)
      (fun body hbody => hbodies n hn body hbody _) values hvalues, ?_⟩
    · exact lookup?_keptBindings hb.isSome_lookup (hname.imp_left fun hread => .inr ⟨_, hk, hread⟩)
    · refine hyields.congr fun name hname hne => ?_
      rw [lookup_keptBindings, if_pos]
      exact defines_iff.2 (.inr (mem_results.2 ⟨_, hk, Node.mem_results.2 ⟨hname, hne⟩⟩))
  · rw [lookup_keptBindings] at hname
    split at hname
    · assumption
    · cases hname

/-- A pruned tree has every result that the tree has. -/
theorem run_prunedTree (hm : m.Regular) (hg : OrderlyTree (· = "") g) :
    Refines (run m g env feeds) (run m g.prunedTree env feeds) := by
  induction g using bodyInduction generalizing env feeds with
  | step g ih =>
      intro values hvalues
      obtain ⟨b, hb, houtputs⟩ :=
        (run_eq_some_iff_of_orderly (fun _ => id) hg).1 (toOption_eq_some.2 hvalues)
      have hkept : Solves m g.prunedTree env feeds (keptBindings g b) :=
        hb.prunedTree hm hg fun n hn body hbody env feeds => ih n hn body hbody (hg.body hn hbody)
      refine toOption_eq_some.1 ((run_eq_some_iff_of_orderly (fun _ => id) hg.prunedTree).2
        ⟨_, hkept, ?_⟩)
      rw [← houtputs, outputs_prunedTree]
      refine mapM_congr fun name hname => lookup?_keptBindings hb.isSome_lookup ?_
      by_cases hempty : name = ""
      · exact .inr hempty
      · exact .inl (.inl ⟨by simpa using hname, hempty⟩)

end Evaluation

/-! ## The pass -/

section Pass

variable {V : Type} [Operand V] {m : Machine V} {g : Graph}

/-- Removing dead nodes from a valid graph does not fail. It leaves the pruned tree, counts the nodes
that are dead in the tree, finds nothing more to remove when it is repeated, and whatever came out of
the graph still comes out. -/
theorem Pass.deadNodes_prunes (hm : m.Regular) (hvalid : g.IsValid) (hkeyed : KeyedTree g)
    (number : Nat) :
    (Pass.deadNodes.run .root number g).failure = none ∧
      (Pass.deadNodes.run .root number g).graph = g.prunedTree ∧
      (Pass.deadNodes.run .root number g).changes = .ofNat g.deadCount ∧
      (∀ again, Pass.deadNodes.run .root again g.prunedTree = { graph := g.prunedTree }) ∧
      ∀ feeds outputs, execute m g feeds = .ok outputs → execute m g.prunedTree feeds = .ok outputs := by
  have hg := orderlyTree_of_scopedTree hvalid.scopedTree hkeyed
  obtain ⟨hnone, hleft, hcounted⟩ := DeadNodes.everyGraph_prunedTree (s := .root) hg hkeyed
  refine ⟨hnone, hleft, congrArg Number.ofNat hcounted,
    settledAt_ofVisit _ (keyedTree_prunedTree hkeyed) (DeadNodes.settled_prunedTree hg),
    fun feeds outputs hexecute => ?_⟩
  unfold execute at hexecute ⊢
  rw [outputs_prunedTree]
  exact (run_prunedTree hm hg).bind (fun values => .refl _) outputs hexecute

/-- A branch that yields what it takes from around it, and computes something else in vain. -/
def wasteful : Graph where
  outputs := ["kept"]
  nodes := [
    { name := "waste", op := "Relu", inputs := ["extra"], outputs := ["wasted"] },
    { name := "keep", op := "Identity", inputs := ["held"], outputs := ["kept"] }]

/-- A branch that yields something else that it takes from around it. -/
def thrifty : Graph where
  outputs := ["same"]
  nodes := [{ name := "hand", op := "Identity", inputs := ["x"], outputs := ["same"] }]

/-- A graph with a value that only a branch reads, for nothing, and with one that nothing reads. -/
def cluttered : Graph where
  inputs := ["condition", "x"]
  outputs := ["y"]
  nodes := [
    { name := "spare", op := "Relu", inputs := ["x"], outputs := ["extra"] },
    { name := "hold", op := "Relu", inputs := ["x"], outputs := ["held"] },
    { name := "choose", op := "If", inputs := ["condition"], outputs := ["picked"]
      attributes := [("then_branch", .body wasteful), ("else_branch", .body thrifty)] },
    { name := "finish", op := "Relu", inputs := ["picked"], outputs := ["y"] },
    { name := "idle", op := "Relu", inputs := ["held"], outputs := ["unread"] }]

theorem Pass.deadNodes_prunes_cluttered :
    cluttered.IsValid ∧ KeyedTree cluttered ∧
      (Pass.deadNodes.run .root 0 cluttered).graph.nodes.map Node.name = ["hold", "choose", "finish"] ∧
      (Pass.deadNodes.run .root 0 cluttered).changes = .ofNat 3 ∧
      (Pass.deadNodes.run .root 0 cluttered).failure = none ∧
      (Pass.deadNodes.run .root 0 cluttered).graph = cluttered.prunedTree ∧
      (Pass.deadNodes.run .root 0 cluttered).changes = .ofNat cluttered.deadCount ∧
      (∀ again, Pass.deadNodes.run .root again cluttered.prunedTree =
        { graph := cluttered.prunedTree }) ∧
      ∀ feeds outputs, execute (.standard 8 : Machine (Value Float)) cluttered feeds = .ok outputs →
        execute (.standard 8 : Machine (Value Float)) cluttered.prunedTree feeds = .ok outputs := by
  have hvalid : cluttered.IsValid := by
    unfold IsValid
    decide +kernel
  have hkeyed : KeyedTree cluttered := by
    have hbodies : cluttered.nodes.flatMap Node.bodies =
        [("then_branch", wasteful), ("else_branch", thrifty)] := rfl
    refine .intro (by simp [cluttered, Node.Keyed]) fun n hn body hbody => ?_
    have hbranch := List.mem_flatMap.2 ⟨n, hn, hbody⟩
    simp only [hbodies, List.mem_cons, List.not_mem_nil, or_false] at hbranch
    rcases hbranch with rfl | rfl
    · exact .intro (by simp [wasteful, Node.Keyed]) (by simp [wasteful, Node.bodies])
    · exact .intro (by simp [thrifty, Node.Keyed]) (by simp [thrifty, Node.bodies])
  exact ⟨hvalid, hkeyed, by decide +kernel, by decide +kernel,
    Pass.deadNodes_prunes (Machine.standard_regular 8) hvalid hkeyed 0⟩

end Pass

end TensorGraph
