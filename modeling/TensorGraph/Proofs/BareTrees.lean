import TensorGraph.Optimizer.Identities
import TensorGraph.Proofs.Copying
import TensorGraph.Proofs.DeadNodeRemoval

/-!
# Passes that look at the wiring alone

A tree without its tables and bookmarks is its wiring. Identities and dead nodes are found by the
wiring, and what is done about them changes tables but never looks at one to decide what to do. So trees
with the same wiring are treated alike: as many changes are made, with the same lines and the same
failure, and the wiring is the same in the end.

## Main results

* `Graph.bare_clone` -- a copy has the same wiring.
* `Oblivious.everyGraph` -- treating a tree does not look at tables where treating a graph does not.
* `Pass.run_of_bare` -- so identities and dead nodes are removed alike in trees with the same wiring.
-/

namespace TensorGraph

open TensorGraph.Graph

/-! ## Trees without tables -/

namespace Graph

/-- The tree with empty tables and without bookmarks. -/
def bare (g : Graph) : Graph := g.retabled (fun _ _ => .empty) []

variable {g : Graph}

theorem retabled_empty (enclosing : List Graph) (g : Graph) :
    g.retabled (fun _ _ => .empty) enclosing = g.bare := by
  induction g using bodyInduction generalizing enclosing with
  | step g ih =>
      rw [bare, retabled_eq, retabled_eq]
      congr 1
      exact List.map_congr_left fun n hn => Node.recast_eq_recast_iff.2 fun body hbody =>
        (ih n hn body hbody _).trans (ih n hn body hbody _).symm

theorem bare_eq (g : Graph) :
    g.bare = { g with infos := .empty, nodes := g.nodes.map (Node.recast bare) } := by
  have hbodies : retabled (fun _ _ => .empty) [g] = bare := funext (retabled_empty [g])
  rw [bare, retabled_eq, hbodies]

@[simp] theorem name_bare : g.bare.name = g.name := name_retabled ..
@[simp] theorem inputs_bare : g.bare.inputs = g.inputs := inputs_retabled ..
@[simp] theorem outputs_bare : g.bare.outputs = g.outputs := outputs_retabled ..
@[simp] theorem infos_bare : g.bare.infos = .empty := infos_retabled ..

@[simp] theorem isInput_bare (name : String) : g.bare.isInput name = g.isInput name :=
  isInput_retabled ..

@[simp] theorem isOutput_bare (name : String) : g.bare.isOutput name = g.isOutput name :=
  isOutput_retabled ..

@[simp] theorem defines_bare (name : String) : g.bare.defines name = g.defines name :=
  defines_retabled ..

@[simp] theorem topologicalOrder_bare : g.bare.topologicalOrder = g.topologicalOrder :=
  topologicalOrder_retabled ..

@[simp] theorem producerPlace?_bare (value : String) :
    g.bare.producerPlace? value = g.producerPlace? value :=
  producerPlace?_retabled ..

@[simp] theorem nodes_bare : g.bare.nodes = g.nodes.map (Node.recast bare) := by
  rw [bare_eq]

@[simp] theorem reads_recast_bare (n : Node) : (n.recast bare).reads = n.reads := Node.reads_retabled ..

theorem nodesAt_bare (places : List Nat) :
    g.bare.nodesAt places = (g.nodesAt places).map (Node.recast bare) := by
  unfold nodesAt
  rw [nodes_bare, List.map_filterMap]
  exact List.filterMap_congr fun place _ => List.getElem?_map

@[simp] theorem readers_bare (value : String) : g.bare.readers value = g.readers value := by
  unfold readers
  rw [nodes_bare, List.length_map]
  refine List.filter_congr fun i _ => ?_
  rw [List.getElem?_map]
  cases g.nodes[i]? <;> simp

theorem bodyPlaces_bare :
    g.bare.bodyPlaces = g.bodyPlaces.map fun slot => (slot.1, slot.2.1, slot.2.2.bare) := by
  unfold bodyPlaces
  rw [nodes_bare, List.zipIdx_map, List.flatMap_map, List.map_flatMap]
  refine List.flatMap_congr fun entry _ => ?_
  simp only [Prod.map_fst, Prod.map_snd, id_eq, Node.bodies_recast, List.map_map]
  rfl

theorem producer?_bare (value : String) :
    g.bare.producer? value = (g.producer? value).map (Node.recast bare) := by
  unfold producer?
  rw [nodes_bare, List.find?_map]
  rfl

theorem bare_retabled (table : List Graph → Graph → InfoTable) (enclosing : List Graph) (g : Graph) :
    (g.retabled table enclosing).bare = g.bare := by
  induction g using bodyInduction generalizing enclosing with
  | step g ih =>
      rw [bare_eq, bare_eq g, nodes_retabled, List.map_map, retabled_eq]
      congr 1
      refine List.map_congr_left fun n hn => ?_
      rw [Function.comp_apply, Node.recast_recast]
      exact Node.recast_eq_recast_iff.2 fun body hbody => ih n hn body hbody _

/-- A copy has the same wiring. -/
@[simp] theorem bare_clone (g : Graph) : g.clone.bare = g.bare := by
  rw [clone_eq_retabled [], bare_retabled]

@[simp] theorem bare_bare (g : Graph) : g.bare.bare = g.bare := bare_retabled ..

section Same

variable {h : Graph} (hsame : g.bare = h.bare)

include hsame

theorem name_eq_of_bare : g.name = h.name := by
  rw [← name_bare, hsame, name_bare]

theorem inputs_eq_of_bare : g.inputs = h.inputs := by
  rw [← inputs_bare, hsame, inputs_bare]

theorem outputs_eq_of_bare : g.outputs = h.outputs := by
  rw [← outputs_bare, hsame, outputs_bare]

theorem isOutput_eq_of_bare (name : String) : g.isOutput name = h.isOutput name := by
  rw [isOutput, isOutput, outputs_eq_of_bare hsame]

theorem length_eq_of_bare : g.nodes.length = h.nodes.length := by
  simpa using congrArg (fun k : Graph => k.nodes.length) hsame

theorem isSome_producer?_eq_of_bare (name : String) :
    (g.producer? name).isSome = (h.producer? name).isSome := by
  simpa only [producer?_bare, Option.isSome_map] using congrArg (fun k => (k.producer? name).isSome) hsame

end Same

/-- Graphs have the same wiring if they differ in nothing but the tables and the bookmarks. -/
theorem bare_congr {h : Graph} (hname : g.name = h.name) (hinputs : g.inputs = h.inputs)
    (houtputs : g.outputs = h.outputs)
    (hnodes : g.nodes.map (Node.recast bare) = h.nodes.map (Node.recast bare)) : g.bare = h.bare := by
  rw [bare_eq, bare_eq h, hname, hinputs, houtputs, hnodes]

end Graph

/-! ## Edits -/

namespace Graph

variable {g : Graph} {old new : String}

theorem bare_dropNode (g : Graph) (place : Nat) : (g.dropNode place).bare = g.bare.dropNode place := by
  rw [bare_eq, dropNode, dropNode, bare_eq g, List.eraseIdx_map]

theorem bare_putNode (g : Graph) (place : Nat) (n : Node) :
    (g.putNode place n).bare = g.bare.putNode place (n.recast bare) := by
  rw [bare_eq, putNode, putNode, bare_eq g, List.map_set]

theorem bare_eraseInfo (g : Graph) (name : String) : (g.eraseInfo name).bare = g.bare := by
  unfold eraseInfo
  split
  · rfl
  · exact bare_congr rfl rfl rfl rfl

/-- A node that is rewired has other inputs and other bodies. -/
private theorem rewired_eq (f : Graph → Graph) (n : Node) :
    n.rewired old new (n.bodies.map fun body => f body.2) =
      { n.recast f with inputs := n.inputs.map (substituteName old new) } := by
  unfold Node.rewired Node.recast
  rw [← Attributes.withBodies_map]
  rfl

private theorem recast_replaceReads {n : Node}
    (hbodies : ∀ body ∈ n.bodies,
      (body.2.substituteOuter old new).bare = body.2.bare.substituteOuter old new) :
    (n.replaceReads old new).recast bare = (n.recast bare).replaceReads old new := by
  unfold Node.replaceReads
  rw [reads_recast_bare]
  split
  · have hrecast : (n.recast (substituteOuter old new)).recast bare =
        (n.recast bare).recast (substituteOuter old new) := by
      rw [Node.recast_recast, Node.recast_recast]
      exact Node.recast_eq_recast_iff.2 hbodies
    rw [rewired_eq, rewired_eq]
    exact congrArg (fun k : Node => { k with inputs := n.inputs.map (substituteName old new) }) hrecast
  · rfl

theorem bare_substituteOuter (old new : String) (g : Graph) :
    (g.substituteOuter old new).bare = g.bare.substituteOuter old new := by
  induction g using bodyInduction with
  | step g ih =>
      rw [substituteOuter_eq, substituteOuter_eq, defines_bare]
      split
      · rfl
      · rw [bare_eq, bare_eq g]
        simp only [List.map_map]
        congr 1
        exact List.map_congr_left fun n hn => recast_replaceReads (ih n hn)

theorem bare_replaceInputs (old new : String) (g : Graph) :
    (g.replaceInputs old new).bare = g.bare.replaceInputs old new := by
  unfold replaceInputs
  split
  · rfl
  · rw [bare_eq, bare_eq g]
    simp only [List.map_map]
    congr 1
    exact List.map_congr_left fun n _ =>
      recast_replaceReads fun body _ => bare_substituteOuter old new body.2

theorem bare_renameProduced (old new : String) (g : Graph) :
    (g.renameProduced old new).bare = g.bare.renameProduced old new := by
  unfold renameProduced
  rw [producerPlace?_bare, producer?_bare]
  cases g.producerPlace? old with
  | none => rfl
  | some place =>
      cases g.producer? old with
      | none => rfl
      | some n => exact bare_putNode ..

theorem bare_renameValue (old new : String) (g : Graph) :
    (g.bare.renameValue old new).map bare = (g.renameValue old new).map bare := by
  unfold renameValue
  rw [defines_bare, ← bare_renameProduced, ← bare_replaceInputs]
  split
  · exact congrArg Except.ok (bare_bare g)
  split
  · rfl
  · refine congrArg Except.ok (bare_congr ?_ ?_ ?_ ?_) <;>
      simp [Node.recast_recast, Function.comp_def]

theorem bare_rebindOutput (enclosing enclosing' : List Graph) (old new : String) (g : Graph) :
    (g.bare.rebindOutput enclosing' old new).map bare =
      (g.rebindOutput enclosing old new).map bare := by
  unfold rebindOutput
  rw [isOutput_bare, name_bare]
  split
  · rfl
  · refine congrArg Except.ok (bare_congr ?_ ?_ ?_ ?_) <;>
      simp [Node.recast_recast, Function.comp_def]

theorem bare_putBody (g body : Graph) (place : Nat) (key : String) :
    (g.putBody place key body).bare = g.bare.putBody place key body.bare := by
  unfold putBody
  rw [nodes_bare, List.getElem?_map]
  cases g.nodes[place]? with
  | none => rfl
  | some n =>
      simp only [Option.map_some]
      rw [bare_putNode]
      congr 1
      unfold Node.recast
      simp only [List.map_map]
      congr 1
      refine List.map_congr_left fun entry _ => ?_
      obtain ⟨k, value⟩ := entry
      by_cases hkey : k = key
      · simp [hkey, Attribute.mapBody]
      · simp [hkey]

end Graph

/-! ## Sweeps -/

/-- Whether the same came of two rules, tables apart. -/
inductive AlikeOutcomes {α : Type} :
    Except Stopped (Option (Graph × α)) → Except Stopped (Option (Graph × α)) → Prop
  | stopped {g h : Graph} (hsame : g.bare = h.bare) (cause : Failure) :
      AlikeOutcomes (.error ⟨g, cause⟩) (.error ⟨h, cause⟩)
  | nothing : AlikeOutcomes (.ok none) (.ok none)
  | changed {g h : Graph} (hsame : g.bare = h.bare) (found : α) :
      AlikeOutcomes (.ok (some (g, found))) (.ok (some (h, found)))

namespace Sweep

/-- What came of a treatment, without the tables. -/
def bare (sweep : Sweep) : Sweep := { sweep with graph := sweep.graph.bare }

variable {first second : Sweep}

theorem bare_andThen {next next' : Graph → Sweep} (h : first.bare = second.bare)
    (hnext : ∀ g h, g.bare = h.bare → (next g).bare = (next' h).bare) :
    (first.andThen next).bare = (second.andThen next').bare := by
  obtain ⟨hgraph, hchanges, hlog, hfailure⟩ := Sweep.mk.inj h
  have hthen := Sweep.mk.inj (hnext first.graph second.graph hgraph)
  unfold andThen
  rw [hfailure]
  split
  · exact h
  · simp only [bare, hchanges, hlog, hthen.1, hthen.2.1, hthen.2.2.1, hthen.2.2.2]

theorem bare_untilClean {what : String} {rule rule' : Graph → Except Stopped (Option (Graph × String))}
    (hrule : ∀ g h, g.bare = h.bare → AlikeOutcomes (rule g) (rule' h)) (fuel : Nat)
    (h : first.bare = second.bare) :
    (untilClean what rule fuel first).bare = (untilClean what rule' fuel second).bare := by
  induction fuel generalizing first second with
  | zero =>
      obtain ⟨hgraph, hchanges, hlog, -⟩ := Sweep.mk.inj h
      simp only [untilClean, bare, hgraph, hchanges, hlog]
  | succ fuel ih =>
      obtain ⟨hgraph, hchanges, hlog, hfailure⟩ := Sweep.mk.inj h
      have hsame := hrule first.graph second.graph hgraph
      unfold untilClean
      generalize rule first.graph = outcome, rule' second.graph = outcome' at hsame
      cases hsame with
      | stopped hsame cause => simp only [bare, hsame, hchanges, hlog]
      | nothing => exact h
      | changed hsame line =>
          refine ih ?_
          simp only [bare, hsame, hchanges, hlog, hfailure]

end Sweep

/-- Whether a treatment of graphs looks at no table to decide what to do. It may see whether the graph
is a root. -/
def Oblivious (visit : Surroundings → Graph → Sweep) : Prop :=
  ∀ s s' g h, s.enclosing.isEmpty = s'.enclosing.isEmpty → g.bare = h.bare →
    (visit s g).bare = (visit s' h).bare

/-! ## Identities -/

namespace NodeRef

/-- The reference to the node without tables and bookmarks. -/
def bare (r : NodeRef) : NodeRef := { r with node := r.node.recast Graph.bare }

theorem afterRewiring_bare (r : NodeRef) (old new : String) :
    r.bare.afterRewiring old new = (r.afterRewiring old new).bare := by
  unfold afterRewiring bare
  rw [reads_recast_bare]
  split <;> rfl

end NodeRef

namespace Identities

variable {s s' : Surroundings} {g h : Graph} {r r' : NodeRef}

/-- What comes of the removal of a node and of what follows on it. -/
private theorem alike_removeNode {α : Type} (hsame : g.bare = h.bare) (hr : r.bare = r'.bare)
    {next next' : Graph → Except Stopped (Option (Graph × α))}
    (hnext : ∀ g h, g.bare = h.bare → AlikeOutcomes (next g) (next' h)) :
    AlikeOutcomes (g.orStop (g.removeNode r) >>= next) (h.orStop (h.removeNode r') >>= next') := by
  have hnode : r.node.name = r'.node.name := (congrArg (fun r : NodeRef => r.node.name) hr :)
  have hplace : r.place = r'.place := (congrArg NodeRef.place hr :)
  unfold removeNode placeOf
  rw [hplace]
  cases r'.place with
  | none =>
      rw [name_eq_of_bare hsame, hnode]
      exact .stopped hsame _
  | some place =>
      refine hnext (g.dropNode place) (h.dropNode place) ?_
      rw [bare_dropNode, hsame, bare_dropNode]

/-- What comes of an edit that may fail and of what follows on it. -/
private theorem alike_edit {α : Type} (hsame : g.bare = h.bare) {edited edited' : Except Failure Graph}
    (hedited : edited.map Graph.bare = edited'.map Graph.bare) (found : α) :
    AlikeOutcomes (g.orStop edited >>= fun next => pure (some (next, found)))
      (h.orStop edited' >>= fun next => pure (some (next, found))) := by
  cases edited with
  | error cause =>
      cases edited' with
      | error cause' =>
          cases hedited
          exact .stopped hsame cause
      | ok next => cases hedited
  | ok next =>
      cases edited' with
      | error cause' => cases hedited
      | ok next' => exact .changed (Except.ok.inj hedited) found

theorem alike_eliminate (hs : s.enclosing.isEmpty = s'.enclosing.isEmpty) (hsame : g.bare = h.bare)
    (hr : r.bare = r'.bare) : AlikeOutcomes (eliminate s g r) (eliminate s' h r') := by
  have hends : endpoints? r.node = endpoints? r'.node :=
    (congrArg (fun r : NodeRef => endpoints? r.node) hr :)
  have hrewired (old new : String) :
      (g.replaceInputs old new).bare = (h.replaceInputs old new).bare := by
    rw [bare_replaceInputs, hsame, bare_replaceInputs]
  have hmoved (old new : String) :
      (r.afterRewiring old new).bare = (r'.afterRewiring old new).bare := by
    rw [← NodeRef.afterRewiring_bare, hr, NodeRef.afterRewiring_bare]
  unfold eliminate
  rw [hends]
  cases endpoints? r'.node with
  | none => exact .nothing
  | some ends =>
      obtain ⟨input, output⟩ := ends
      simp only [isOutput_eq_of_bare hsame, isSome_producer?_eq_of_bare hsame, hs]
      split
      · refine alike_removeNode (hrewired output input) (hmoved output input) fun g h hsame => ?_
        exact .changed (by rw [bare_eraseInfo, hsame, bare_eraseInfo]) _
      split
      · exact .nothing
      split
      · refine alike_removeNode hsame hr fun g h hsame => ?_
        refine alike_edit hsame ?_ Removal.renamed
        rw [← bare_renameValue, hsame, bare_renameValue]
      split
      · exact .nothing
      · refine alike_removeNode (hrewired output input) (hmoved output input) fun g h hsame => ?_
        refine alike_edit hsame ?_ Removal.passthrough
        rw [← bare_rebindOutput s.enclosing [], hsame, bare_rebindOutput s'.enclosing]

theorem alike_removeFirst (hs : s.enclosing.isEmpty = s'.enclosing.isEmpty) (hsame : g.bare = h.bare)
    {refs refs' : List NodeRef} (hrefs : refs.map NodeRef.bare = refs'.map NodeRef.bare) :
    AlikeOutcomes (removeFirst s g refs) (removeFirst s' h refs') := by
  induction refs generalizing refs' with
  | nil =>
      obtain rfl := List.map_eq_nil_iff.1 hrefs.symm
      exact .nothing
  | cons r rest ih =>
      obtain ⟨r', rest', rfl, hr, hrest⟩ := List.map_eq_cons_iff.1 hrefs.symm
      have hop : r.node.op = r'.node.op := (congrArg (fun r : NodeRef => r.node.op) hr.symm :)
      have hnode : r.node.name = r'.node.name := (congrArg (fun r : NodeRef => r.node.name) hr.symm :)
      have hremoved := alike_eliminate hs hsame hr.symm
      unfold removeFirst
      rw [hop, hnode, name_eq_of_bare hsame]
      generalize eliminate s g r = outcome, eliminate s' h r' = outcome' at hremoved
      split
      · cases hremoved with
        | stopped hsame cause => exact .stopped hsame cause
        | nothing => exact ih hrest.symm
        | changed hsame removal => exact .changed hsame _
      · exact ih hrest.symm

theorem oblivious_sweepGraph : Oblivious sweepGraph := by
  intro s s' g h hs hsame
  have hrefs (g : Graph) : nodeRefs g.bare = (nodeRefs g).map NodeRef.bare := by
    unfold nodeRefs
    rw [nodes_bare, List.zipIdx_map, List.map_map, List.map_map]
    rfl
  unfold sweepGraph
  rw [length_eq_of_bare hsame]
  refine Sweep.bare_untilClean (fun g h hsame => alike_removeFirst hs hsame ?_) _ ?_
  · rw [← hrefs, hsame, hrefs]
  · simp only [Sweep.bare, hsame]

end Identities

/-! ## Dead nodes -/

namespace DeadNodes

variable {g h : Graph}

private theorem isLive_congr (hsame : g.bare = h.bare) (kept : List Nat) (place : Nat) :
    isLive g kept place = isLive h kept place := by
  have hbare (g : Graph) : isLive g.bare kept place = isLive g kept place := by
    unfold isLive isNeeded
    rw [nodes_bare, List.getElem?_map]
    cases g.nodes[place]? <;> simp
  rw [← hbare g, hsame, hbare]

private theorem dropDead_congr (hsame : g.bare = h.bare) (kept places : List Nat) :
    dropDead g kept places = dropDead h kept places := by
  induction places generalizing kept with
  | nil => rfl
  | cons place rest ih =>
      unfold dropDead
      simp only [isLive_congr hsame, ih]

private theorem recast_nodesAt (hsame : g.bare = h.bare) (places : List Nat) :
    (g.nodesAt places).map (Node.recast bare) = (h.nodesAt places).map (Node.recast bare) := by
  rw [← nodesAt_bare, hsame, nodesAt_bare]

private theorem bare_restrict (hsame : g.bare = h.bare) (kept dropped : List Nat) :
    (restrict g kept dropped).bare = (restrict h kept dropped).bare := by
  have hname := name_eq_of_bare hsame
  have hinputs := inputs_eq_of_bare hsame
  have houtputs := outputs_eq_of_bare hsame
  exact bare_congr hname hinputs houtputs (recast_nodesAt hsame kept)

private theorem bare_round (hsame : g.bare = h.bare) : (round g).bare = (round h).bare := by
  have horder : g.topologicalOrder = h.topologicalOrder := by
    rw [← topologicalOrder_bare, hsame, topologicalOrder_bare]
  have hlines (places : List Nat) :
      (g.nodesAt places).map (dropLine g) = (h.nodesAt places).map (dropLine h) := by
    have hline : dropLine g ∘ Node.recast bare = dropLine g := rfl
    have hline' : dropLine h = dropLine g := by
      unfold dropLine
      rw [name_eq_of_bare hsame]
    rw [hline', ← hline, ← List.map_map, recast_nodesAt hsame, List.map_map]
  unfold round
  rw [horder]
  cases h.topologicalOrder with
  | error cause => simp only [Sweep.bare, hsame]
  | ok order =>
      simp only [dropDead_congr hsame, length_eq_of_bare hsame, hlines, Sweep.bare,
        bare_restrict hsame]

theorem oblivious_sweepGraph : Oblivious sweepGraph := by
  have hrounds : ∀ fuel (g h : Graph), g.bare = h.bare →
      (rounds fuel g).bare = (rounds fuel h).bare := by
    intro fuel
    induction fuel with
    | zero =>
        intro g h hsame
        simp only [rounds, Sweep.bare, hsame]
    | succ fuel ih =>
        intro g h hsame
        have hround := bare_round hsame
        have hchanges : (round g).changes = (round h).changes := (Sweep.mk.inj hround).2.1
        unfold rounds
        simp only [hchanges]
        split
        · exact hround
        · exact Sweep.bare_andThen hround ih
  intro s s' g h _ hsame
  unfold sweepGraph
  rw [length_eq_of_bare hsame]
  exact hrounds _ g h hsame

end DeadNodes

/-! ## Trees -/

/-- The bodies of trees with the same wiring are treated alike, one after the other, if each of them
is. -/
private theorem bare_foldl_sweepBody {visit : Surroundings → Graph → Sweep} {s s' : Surroundings}
    {slots slots' : List (Nat × String × Graph)}
    (hslots : slots.map (fun slot => (slot.1, slot.2.1, slot.2.2.bare)) =
      slots'.map fun slot => (slot.1, slot.2.1, slot.2.2.bare))
    (hbodies : ∀ slot ∈ slots, ∀ s s' body, s.enclosing.isEmpty = s'.enclosing.isEmpty →
      slot.2.2.bare = body.bare → (everyGraph visit s slot.2.2).bare = (everyGraph visit s' body).bare)
    {first second : Sweep} (hsame : first.bare = second.bare) :
    (slots.foldl (fun (sweep : Sweep) slot => sweep.andThen (sweepBody s
      (slot.1, slot.2.1, fun s => everyGraph visit s slot.2.2))) first).bare =
    (slots'.foldl (fun (sweep : Sweep) slot => sweep.andThen (sweepBody s'
      (slot.1, slot.2.1, fun s => everyGraph visit s slot.2.2))) second).bare := by
  induction slots generalizing slots' first second with
  | nil =>
      obtain rfl := List.map_eq_nil_iff.1 hslots.symm
      exact hsame
  | cons slot rest ih =>
      obtain ⟨slot', rest', rfl, hslot, hrest⟩ := List.map_eq_cons_iff.1 hslots.symm
      rw [List.forall_mem_cons] at hbodies
      obtain ⟨place, key, body⟩ := slot
      obtain ⟨place', key', body'⟩ := slot'
      simp only [Prod.mk.injEq] at hslot
      obtain ⟨rfl, rfl, hbody⟩ := hslot
      refine ih hrest.symm hbodies.2 (Sweep.bare_andThen hsame fun g h hsame => ?_)
      have hinner := Sweep.mk.inj <|
        hbodies.1 (s.inside g place' key') (s'.inside h place' key') body' rfl hbody.symm
      simp only [sweepBody, Sweep.bare, bare_putBody, hsame, hinner.1, hinner.2.1, hinner.2.2.1,
        hinner.2.2.2]

/-- A treatment that looks at no table in a graph looks at none in a tree. -/
theorem Oblivious.everyGraph {visit : Surroundings → Graph → Sweep} (hvisit : Oblivious visit) :
    Oblivious (everyGraph visit) := by
  intro s s' g h hs hsame
  induction g using bodyInduction generalizing s s' h with
  | step g ih =>
      have hslots : g.bodyPlaces.map (fun slot => (slot.1, slot.2.1, slot.2.2.bare)) =
          h.bodyPlaces.map fun slot => (slot.1, slot.2.1, slot.2.2.bare) := by
        rw [← bodyPlaces_bare, hsame, bodyPlaces_bare]
      rw [everyGraph_eq, everyGraph_eq]
      unfold sweepWithBodies
      rw [bodySlots_eq, bodySlots_eq, List.foldl_map, List.foldl_map]
      refine Sweep.bare_andThen (bare_foldl_sweepBody hslots ?_ ?_) fun g h hsame =>
        hvisit s s' g h hs hsame
      · intro slot hslot s s' body hs hsame
        obtain ⟨n, hn, hbody⟩ := mem_bodyPlaces.1 hslot
        exact ih n (List.mem_of_getElem? hn) (slot.2.1, slot.2.2) hbody s s' body hs hsame
      · simp only [Sweep.bare, hsame]

/-- What is left as it is is left so in any graph with the same wiring. -/
theorem Oblivious.eq_start {visit : Surroundings → Graph → Sweep} (hvisit : Oblivious visit)
    (hhonest : Honest visit) {s s' : Surroundings} {g h : Graph}
    (hs : s.enclosing.isEmpty = s'.enclosing.isEmpty) (hsame : g.bare = h.bare)
    (hleft : visit s g = { graph := g }) : visit s' h = { graph := h } := by
  obtain ⟨-, hchanges, -, hfailure⟩ := Sweep.mk.inj (hvisit s s' g h hs hsame)
  rw [hleft] at hchanges hfailure
  exact hhonest s' h ⟨hfailure.symm, hchanges.symm⟩

/-- Removing identities or dead nodes makes as many changes in trees with the same wiring, and leaves
the same wiring. -/
theorem Pass.run_of_bare {pass : Pass} (hpass : pass ∈ [identity, deadNodes]) {g h : Graph}
    (hsame : g.bare = h.bare) (number : Nat) :
    (pass.run .root number g).changes = (pass.run .root number h).changes ∧
      (pass.run .root number g).log = (pass.run .root number h).log ∧
      (pass.run .root number g).failure = (pass.run .root number h).failure ∧
      (pass.run .root number g).graph.bare = (pass.run .root number h).graph.bare := by
  have hvisit : ∀ {name : String} {visit : Surroundings → Graph → Sweep}, Oblivious visit →
      pass = ofVisit name visit →
      (pass.run .root number g).changes = (pass.run .root number h).changes ∧
        (pass.run .root number g).log = (pass.run .root number h).log ∧
        (pass.run .root number g).failure = (pass.run .root number h).failure ∧
        (pass.run .root number g).graph.bare = (pass.run .root number h).graph.bare := by
    rintro name visit hvisit rfl
    obtain ⟨hgraph, hchanges, hlog, hfailure⟩ :=
      Sweep.mk.inj (hvisit.everyGraph .root .root g h rfl hsame)
    exact ⟨congrArg Number.ofNat hchanges, congrArg (List.map Log.debug) hlog, hfailure, hgraph⟩
  simp only [List.mem_cons, List.not_mem_nil, or_false] at hpass
  rcases hpass with rfl | rfl
  · exact hvisit Identities.oblivious_sweepGraph rfl
  · exact hvisit DeadNodes.oblivious_sweepGraph rfl

end TensorGraph
