import TensorGraph.Proofs.Copying
import TensorGraph.Proofs.LegiblePasses
import TensorGraph.Proofs.ReadBack

/-!
# What copies answer

A copy is made from what a graph says of itself, and a graph says something of every input and output:
where its table has no entry it makes up one that holds nothing but the name. In the copy that entry
stands in the table, and hides what is known around the graph. So a copy always has the same wiring as
the graph itself. It knows the same of all values just if the entries that are made up hide nothing but
their like, and it is the graph itself just if none is made up. None is in a graph that was just read.

## Main results

* `Graph.everyScope_knownAlike_iff` -- when the graphs of a copy know the same as the graphs themselves.
* `Graph.Legible.clone_eq_self_iff` -- when a copy is the graph itself.
* `Graph.labelled_ofJson` -- it is where the graph was just read.
-/

namespace TensorGraph.Graph

variable {enclosing : List Graph} {g : Graph}

/-! ## Wiring -/

/-- Whether the copy of a graph has the same wiring, seen from it and from around it. -/
structure WiredAlike (enclosing : List Graph) (g : Graph) : Prop where
  outerReferences : g.clone.outerReferences = g.outerReferences
  readers : ∀ value, g.clone.readers value = g.readers value
  resolve : ∀ name, g.clone.resolve (enclosing.map clone) name =
    (g.resolve enclosing name).map Origin.copied

theorem wiredAlike (enclosing : List Graph) (g : Graph) : WiredAlike enclosing g where
  outerReferences := outerReferences_clone g
  readers := readers_clone g
  resolve := resolve_clone g enclosing

/-! ## Knowledge -/

/-- Whether the copy of a graph knows the same of every value. -/
def KnownAlike (enclosing : List Graph) (g : Graph) : Prop :=
  ∀ name, g.clone.info? (enclosing.map clone) name = g.info? enclosing name

/-- Whether what a graph says of its inputs and outputs is what is known of them. -/
def Frank (enclosing : List Graph) (g : Graph) : Prop :=
  ∀ name ∈ g.inputs ++ g.outputs, g.info? enclosing name = some (g.infoOf name)

instance (enclosing : List Graph) (g : Graph) : Decidable (Frank enclosing g) :=
  inferInstanceAs (Decidable (∀ name ∈ _, _))

theorem KnownAlike.frank (h : KnownAlike enclosing g) : Frank enclosing g := by
  intro name hname
  rw [← h name, info?, List.findSome?_cons, get?_clone, if_pos (List.mem_append.1 hname)]

/-- A graph in a copy knows the same if the graphs around it do. -/
theorem Frank.knownAlike (h : Frank enclosing g)
    (houter : ∀ name, ((enclosing.map clone).findSome? fun scope => scope.infos.get? name) =
      enclosing.findSome? fun scope => scope.infos.get? name) : KnownAlike enclosing g := by
  intro name
  by_cases hfront : name ∈ g.inputs ∨ name ∈ g.outputs
  · rw [h name (List.mem_append.2 hfront), info?, List.findSome?_cons, get?_clone, if_pos hfront]
  · rw [info?, List.findSome?_cons, get?_clone, if_neg hfront, houter]
    rfl

/-- The graphs of a copy know what the graphs themselves know just if these make nothing up. -/
theorem everyScope_knownAlike_iff : EveryScope KnownAlike [] g ↔ EveryScope Frank [] g := by
  refine ⟨fun h => h.imp fun _ _ hknown => hknown.frank, fun h => ?_⟩
  have hall : ∀ {enclosing g}, EveryScope Frank enclosing g →
      (∀ name, ((enclosing.map clone).findSome? fun scope => scope.infos.get? name) =
        enclosing.findSome? fun scope => scope.infos.get? name) →
      EveryScope KnownAlike enclosing g := by
    intro enclosing g h
    induction h with
    | intro here _ ih =>
        exact fun houter => .intro (here.knownAlike houter) fun n hn body hbody =>
          ih n hn body hbody (here.knownAlike houter)
  exact hall h fun _ => rfl

/-! ## What follows from knowledge -/

theorem KnownAlike.rank? (h : KnownAlike enclosing g) (value : String) :
    rank? (enclosing.map clone) g.clone value = rank? enclosing g value := by
  unfold TensorGraph.rank?
  rw [h]

theorem KnownAlike.resolvePermutation (h : KnownAlike enclosing g) (n : Node) (rankHint : Option Nat) :
    resolvePermutation (enclosing.map clone) g.clone n.copied rankHint =
      resolvePermutation enclosing g n rankHint := by
  unfold TensorGraph.resolvePermutation
  simp only [Node.op_copied, Node.inputs_copied, Node.outputs_copied, Node.numbers?_copied, h.rank?]
  rfl

theorem KnownAlike.transposeProblems (h : KnownAlike enclosing g) (n : Node) :
    g.clone.transposeProblems (enclosing.map clone) n.copied = g.transposeProblems enclosing n := by
  unfold Graph.transposeProblems
  rw [Node.numbers?_copied, Node.name_copied, Node.inputs_copied, h]

/-- Where a copy knows the same, it has the same issues. -/
theorem issuesIn_clone_of_knownAlike (h : EveryScope KnownAlike enclosing g) :
    g.clone.issuesIn (enclosing.map clone) = g.issuesIn enclosing := by
  induction h with
  | @intro enclosing g here _ ih =>
      rw [issuesIn_eq, issuesIn_eq,
        g.scopeIssues_clone enclosing fun n _ _ => here.transposeProblems n]
      simp only [nodes_clone, List.flatMap_map, Node.bodies_copied]
      congr 1
      exact List.flatMap_congr fun n hn => List.flatMap_congr fun body hbody => ih n hn body hbody

/-- And it is written in the same form. -/
theorem toJsonIn_clone_of_knownAlike (h : EveryScope KnownAlike enclosing g) :
    g.clone.toJsonIn (enclosing.map clone) = g.toJsonIn enclosing := by
  induction h with
  | intro here _ ih => exact toJsonIn_clone_of_bodies (fun value _ _ _ => here value) ih

/-! ## Copies that are the graph itself -/

/-- Whether the table of a graph has an entry for every input and output. -/
def Labelled (g : Graph) : Prop := ∀ name ∈ g.inputs ++ g.outputs, (g.infos.get? name).isSome = true

instance (g : Graph) : Decidable g.Labelled := inferInstanceAs (Decidable (∀ name ∈ _, _))

theorem copiedInfos_eq_infos_iff : g.copiedInfos = g.infos ↔ g.Labelled := by
  constructor
  · intro h name hname
    rw [← h, ← infos_clone, get?_clone, if_pos (List.mem_append.1 hname)]
    rfl
  · intro h
    unfold copiedInfos
    rw [List.append_assoc, InfoTable.ofList, List.foldl_append]
    change ((g.inputs.map g.infoOf ++ g.outputs.map g.infoOf).foldl InfoTable.set
      (InfoTable.ofList g.infos.entries)) = _
    rw [InfoTable.ofList_entries, ← List.map_append]
    refine InfoTable.foldl_set_of_get? fun info hinfo => ?_
    obtain ⟨name, hname, rfl⟩ := List.mem_map.1 hinfo
    obtain ⟨info, hfound⟩ := Option.isSome_iff_exists.1 (h name hname)
    rw [name_infoOf, infoOf, hfound]
    rfl

theorem clone_eq_self_split : g.clone = g ↔ g.Labelled ∧ ∀ n ∈ g.nodes, n.copied = n := by
  have hclone : g.clone = { g with infos := g.copiedInfos, nodes := g.nodes.map Node.copied } := by
    rw [← infos_clone, ← nodes_clone, clone_eq_retabled [], retabled_eq]
  have hnodes : g.nodes.map Node.copied = g.nodes ↔ ∀ n ∈ g.nodes, n.copied = n := by
    simpa using List.map_inj_left (l := g.nodes) (f := Node.copied) (g := id)
  rw [← copiedInfos_eq_infos_iff, ← hnodes]
  constructor
  · intro h
    rw [← infos_clone, ← nodes_clone, h]
    exact ⟨rfl, rfl⟩
  · rintro ⟨hinfos, hnodes⟩
    rw [hclone, hinfos, hnodes]
    cases g
    rfl

theorem Legible.copied_eq_self_iff {n : Node} (hn : n.Legible) :
    n.copied = n ↔ ∀ body ∈ n.bodies, body.2.clone = body.2 := by
  have hsame : n.recast clone = n.recast id ↔ ∀ body ∈ n.bodies, body.2.clone = body.2 :=
    Node.recast_eq_recast_iff
  rw [Node.recast_id hn.bookmarks] at hsame
  exact hsame

/-- A copy is the graph itself just if all that comes in and goes out of the graphs of the tree has
entries in their tables. -/
theorem Legible.clone_eq_self_iff (hg : g.Legible) (enclosing : List Graph) :
    g.clone = g ↔ EveryScope (fun _ => Labelled) enclosing g := by
  induction g using bodyInduction generalizing enclosing with
  | step g ih =>
      have hbody : ∀ n ∈ g.nodes, ∀ body ∈ n.bodies,
          (body.2.clone = body.2 ↔ EveryScope (fun _ => Labelled) (g :: enclosing) body.2) :=
        fun n hn body hbody => ih n hn body hbody ((hg.node hn).body hbody) _
      rw [clone_eq_self_split]
      constructor
      · rintro ⟨hlabelled, hnodes⟩
        exact .intro hlabelled fun n hn body hmem =>
          (hbody n hn body hmem).1 ((copied_eq_self_iff (hg.node hn)).1 (hnodes n hn) body hmem)
      · intro h
        exact ⟨h.here, fun n hn => (copied_eq_self_iff (hg.node hn)).2 fun body hmem =>
          (hbody n hn body hmem).2 (h.body hn hmem)⟩

/-- The reader makes an entry for every input and output. -/
theorem labelled_ofJson {j : Option Json} (h : ofJson j = .ok g) (enclosing : List Graph) :
    EveryScope (fun _ => Labelled) enclosing g := by
  have hread : HoldsOfRead False fun g => ∀ enclosing, EveryScope (fun _ => Labelled) enclosing g := by
    intro name inputs outputs valueInfo nodes _ hnodes enclosing
    refine .intro (fun value hvalue => ?_) fun n hn body hbody =>
      ((hnodes n hn).1.2 _ (Node.mem_bodies.1 hbody)).2 _
    refine InfoTable.isSome_get?_foldl_set.2 (.inl ?_)
    simp only [assemble, ← List.map_append, List.mem_map] at hvalue
    obtain ⟨info, hinfo, hname⟩ := hvalue
    exact ⟨info, by simpa [or_assoc] using .inr (List.mem_append.1 hinfo), hname⟩
  exact hread.ofJson h enclosing

end TensorGraph.Graph
