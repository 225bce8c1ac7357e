import TensorGraph.Graph.Writer
import TensorGraph.Proofs.Running

/-!
# Trees with other tables

What is known of values stands in a table beside each graph, and bookmarks stand on nodes. A tree in
which all tables are written anew and no bookmarks are left is the same tree in every other respect:
its names resolve to the same places, its nodes have the same order, and it does the same when it is
run, failures included.

## Main results

* `Graph.outerReferences_retabled`, `Graph.topologicalOrder_retabled` -- the wiring is the same.
* `Graph.toJsonIn_retabled` -- when the form of the tree is the same.
* `Evaluation.run_retabled` -- and so is what the graph does.
-/

namespace TensorGraph

/-! ## Nodes with other bodies -/

/-- The node with its body graphs changed by `f`. It is a new node, so it has no bookmarks. -/
def Node.recast (f : Graph → Graph) (n : Node) : Node :=
  { n with
    attributes := n.attributes.map fun entry => (entry.1, entry.2.mapBody f)
    bookmarks := [] }

namespace Node

variable (f : Graph → Graph) (n : Node) (key : String)

@[simp] theorem name_recast : (n.recast f).name = n.name := rfl
@[simp] theorem op_recast : (n.recast f).op = n.op := rfl
@[simp] theorem inputs_recast : (n.recast f).inputs = n.inputs := rfl
@[simp] theorem outputs_recast : (n.recast f).outputs = n.outputs := rfl

theorem attribute?_recast :
    (n.recast f).attribute? key = (n.attribute? key).map (Attribute.mapBody f) :=
  Attributes.lookup_mapBody _ _ _

@[simp] theorem numbers?_recast : (n.recast f).numbers? key = n.numbers? key := by
  unfold numbers?
  rw [attribute?_recast]
  cases n.attribute? key with
  | none => rfl
  | some value => cases value <;> rfl

@[simp] theorem number?_recast : (n.recast f).number? key = n.number? key := by
  unfold number?
  rw [attribute?_recast]
  cases n.attribute? key with
  | none => rfl
  | some value => cases value <;> rfl

@[simp] theorem literal?_recast : (n.recast f).literal? key = n.literal? key := by
  unfold literal?
  rw [attribute?_recast]
  cases n.attribute? key with
  | none => rfl
  | some value => cases value <;> rfl

theorem body?_recast : (n.recast f).body? key = (n.body? key).map f := by
  unfold body?
  rw [attribute?_recast]
  cases n.attribute? key with
  | none => rfl
  | some value => cases value <;> rfl

theorem bodies_recast : (n.recast f).bodies = n.bodies.map fun body => (body.1, f body.2) :=
  Attributes.bodies_mapBody f n.attributes

/-- Only what becomes of the bodies counts. -/
theorem recast_eq_recast_iff {f f' : Graph → Graph} {n : Node} :
    n.recast f = n.recast f' ↔ ∀ body ∈ n.bodies, f body.2 = f' body.2 := by
  constructor
  · intro h body hbody
    have hbodies := congrArg bodies h
    rw [bodies_recast, bodies_recast, List.map_inj_left] at hbodies
    exact congrArg Prod.snd (hbodies body hbody)
  · intro h
    unfold recast
    congr 1
    refine List.map_congr_left fun entry hentry => ?_
    obtain ⟨key, value⟩ := entry
    cases value with
    | body body => exact congrArg (fun g => (key, Attribute.body g)) (h _ (mem_bodies.2 hentry))
    | _ => rfl

theorem recast_recast (f f' : Graph → Graph) (n : Node) :
    (n.recast f).recast f' = n.recast (f' ∘ f) := by
  unfold recast
  rw [List.map_map]
  congr 1
  refine List.map_congr_left fun entry _ => ?_
  obtain ⟨key, value⟩ := entry
  cases value <;> rfl

theorem recast_id {n : Node} (h : n.bookmarks = []) : n.recast id = n := by
  have hid : ∀ value : Attribute, value.mapBody id = value := by
    intro value
    cases value <;> rfl
  obtain ⟨name, op, inputs, outputs, attributes, bookmarks⟩ := n
  obtain rfl : bookmarks = [] := h
  unfold recast
  simp only [hid, List.map_id']

theorem withBodies_eq_recast :
    { n.withBodies (n.bodies.map fun body => f body.2) with bookmarks := [] } = n.recast f := by
  unfold withBodies recast
  rw [← Attributes.withBodies_map]
  rfl

end Node

/-! ## Graphs with other tables -/

namespace Graph

/-- The tree without bookmarks, in which each graph has the table that is worked out from the graphs
around it and from the graph itself, as they were. -/
def retabled (table : List Graph → Graph → InfoTable) (enclosing : List Graph) (g : Graph) : Graph :=
  g.fold (fun (g : Graph) (below : List (List (List Graph → Graph))) (enclosing : List Graph) =>
    { g with
      infos := table enclosing g
      nodes := List.zipWith (fun (n : Node) bodies =>
        { n.withBodies (bodies.map fun body => body (g :: enclosing)) with bookmarks := [] })
        g.nodes below }) enclosing

variable (table : List Graph → Graph → InfoTable) (enclosing : List Graph) (g : Graph)

theorem retabled_eq :
    g.retabled table enclosing =
      { g with
        infos := table enclosing g
        nodes := g.nodes.map (Node.recast (retabled table (g :: enclosing))) } := by
  unfold retabled
  rw [fold_eq]
  simp only [List.zipWith_map_right, List.zipWith_self, List.map_map]
  congr 1
  exact List.map_congr_left fun n _ => Node.withBodies_eq_recast (retabled table (g :: enclosing)) n

@[simp] theorem name_retabled : (g.retabled table enclosing).name = g.name := by
  rw [retabled_eq]

@[simp] theorem inputs_retabled : (g.retabled table enclosing).inputs = g.inputs := by
  rw [retabled_eq]

@[simp] theorem outputs_retabled : (g.retabled table enclosing).outputs = g.outputs := by
  rw [retabled_eq]

@[simp] theorem infos_retabled : (g.retabled table enclosing).infos = table enclosing g := by
  rw [retabled_eq]

@[simp] theorem nodes_retabled :
    (g.retabled table enclosing).nodes =
      g.nodes.map (Node.recast (retabled table (g :: enclosing))) := by
  rw [retabled_eq]

@[simp] theorem results_retabled : (g.retabled table enclosing).results = g.results := by
  unfold results
  rw [nodes_retabled, List.flatMap_map]
  rfl

@[simp] theorem isInput_retabled (name : String) :
    (g.retabled table enclosing).isInput name = g.isInput name := by
  simp [isInput]

@[simp] theorem isOutput_retabled (name : String) :
    (g.retabled table enclosing).isOutput name = g.isOutput name := by
  simp [isOutput]

@[simp] theorem producerPlace?_retabled (value : String) :
    (g.retabled table enclosing).producerPlace? value = g.producerPlace? value := by
  unfold producerPlace?
  rw [nodes_retabled, List.findIdx?_map]
  rfl

theorem producer?_retabled (value : String) :
    (g.retabled table enclosing).producer? value =
      (g.producer? value).map (Node.recast (retabled table (g :: enclosing))) := by
  unfold producer?
  rw [nodes_retabled, List.find?_map]
  rfl

@[simp] theorem defines_retabled (name : String) :
    (g.retabled table enclosing).defines name = g.defines name := by
  simp [defines, producer?_retabled]

/-- A tree takes the same names from outside. -/
@[simp] theorem outerReferences_retabled :
    (g.retabled table enclosing).outerReferences = g.outerReferences := by
  induction g using bodyInduction generalizing enclosing with
  | step g ih =>
      have hread : ∀ n ∈ g.nodes,
          ((n.recast (retabled table (g :: enclosing))).inputs ++
            (n.recast (retabled table (g :: enclosing))).bodies.flatMap fun body =>
              body.2.outerReferences) =
            n.inputs ++ n.bodies.flatMap fun body => body.2.outerReferences := by
        intro n hn
        rw [Node.bodies_recast, List.flatMap_map, Node.inputs_recast,
          List.flatMap_congr fun body hbody => ih n hn body hbody (g :: enclosing)]
      rw [outerReferences_eq, outerReferences_eq, nodes_retabled, List.flatMap_map, outputs_retabled,
        List.flatMap_congr hread]
      simp only [defines_retabled]

end Graph

@[simp] theorem Node.reads_retabled (table : List Graph → Graph → InfoTable) (enclosing : List Graph)
    (n : Node) : (n.recast (Graph.retabled table enclosing)).reads = n.reads := by
  unfold reads
  rw [bodies_recast, List.flatMap_map, inputs_recast]
  simp only [Graph.outerReferences_retabled]

namespace Graph

variable (table : List Graph → Graph → InfoTable) (enclosing : List Graph) (g : Graph)

@[simp] theorem dependencies_retabled : (g.retabled table enclosing).dependencies = g.dependencies := by
  unfold dependencies
  rw [nodes_retabled, List.map_map]
  refine List.map_congr_left fun n _ => ?_
  simp only [Function.comp_apply, Node.reads_retabled]
  congr 1
  exact List.filterMap_congr fun value _ => g.producerPlace?_retabled table enclosing value

/-- The nodes of a tree have the same order. -/
@[simp] theorem topologicalOrder_retabled :
    (g.retabled table enclosing).topologicalOrder = g.topologicalOrder := by
  simp only [topologicalOrder_eq, stuckNodes, dependencies_retabled, nodes_retabled, List.length_map, name_retabled, List.zipIdx_map]
  rw [List.filter_map, List.map_map]
  rfl

theorem nodesAt_retabled (places : List Nat) :
    (g.retabled table enclosing).nodesAt places =
      (g.nodesAt places).map (Node.recast (retabled table (g :: enclosing))) := by
  unfold nodesAt
  rw [nodes_retabled, List.map_filterMap]
  exact List.filterMap_congr fun place _ => List.getElem?_map

end Graph

/-! ## As JSON -/

private theorem attributes_toJson_mapBody (f : Graph → Graph) (attributes : List (String × Attribute))
    (bodies : List Json) :
    Attributes.toJson (attributes.map fun entry => (entry.1, entry.2.mapBody f)) bodies =
      Attributes.toJson attributes bodies := by
  induction attributes generalizing bodies with
  | nil => rfl
  | cons entry rest ih =>
      obtain ⟨key, value⟩ := entry
      cases value with
      | body body =>
          cases bodies with
          | nil => exact ih []
          | cons first others => exact congrArg (List.cons _) (ih others)
      | _ => exact congrArg (List.cons _) (ih bodies)

@[simp] theorem Node.toJsonWith_recast (f : Graph → Graph) (n : Node) (bodies : List Json) :
    (n.recast f).toJsonWith bodies = n.toJsonWith bodies := by
  unfold toJsonWith
  rw [recast, attributes_toJson_mapBody]

namespace Graph

variable {table : List Graph → Graph → InfoTable} {enclosing scopes : List Graph} {g : Graph}

theorem mem_results_of_producerPlace? {value : String} {place : Nat}
    (h : g.producerPlace? value = some place) : value ∈ g.results := by
  obtain ⟨hlt, hproduces, -⟩ := List.findIdx?_eq_some_iff_getElem.1 h
  exact mem_results.2 ⟨_, List.getElem_mem hlt, Node.produces_iff.1 hproduces⟩

theorem producedInfos_retabled
    (h : ∀ value ∈ g.results, value ∉ g.inputs → value ∉ g.outputs →
      (g.retabled table enclosing).info? scopes value = g.info? enclosing value) :
    (g.retabled table enclosing).producedInfos scopes = g.producedInfos enclosing := by
  unfold producedInfos
  rw [nodes_retabled, List.zipIdx_map, List.flatMap_map]
  refine List.flatMap_congr fun entry _ => List.filterMap_congr fun output _ => ?_
  obtain ⟨n, i⟩ := entry
  simp only [id_eq, isInput_retabled, isOutput_retabled, producerPlace?_retabled]
  split
  · rfl
  · rename_i hinner
    simp only [isInput, isOutput, Bool.or_eq_true, List.contains_eq_mem, decide_eq_true_eq,
      not_or] at hinner
    split
    · rename_i hplace
      exact h output (mem_results_of_producerPlace? hplace) hinner.1 hinner.2
    · rfl

/-- A graph is written as it was if its bodies are, and if as much is known of what comes in, goes out
and is produced. -/
theorem toJsonIn_retabled
    (hfronts : ∀ name, name ∈ g.inputs ∨ name ∈ g.outputs →
      (g.retabled table enclosing).infoOf name = g.infoOf name)
    (hproduced : ∀ value ∈ g.results, value ∉ g.inputs → value ∉ g.outputs →
      (g.retabled table enclosing).info? scopes value = g.info? enclosing value)
    (hbodies : ∀ n ∈ g.nodes, ∀ body ∈ n.bodies,
      (body.2.retabled table (g :: enclosing)).toJsonIn (g.retabled table enclosing :: scopes) =
        body.2.toJsonIn (g :: enclosing)) :
    (g.retabled table enclosing).toJsonIn scopes = g.toJsonIn enclosing := by
  have hnodes : (g.retabled table enclosing).nodes.map (fun n : Node =>
      n.toJsonWith (n.bodies.map fun body => body.2.toJsonIn (g.retabled table enclosing :: scopes))) =
        g.nodes.map fun n => n.toJsonWith (n.bodies.map fun body => body.2.toJsonIn (g :: enclosing)) := by
    rw [nodes_retabled, List.map_map]
    refine List.map_congr_left fun n hn => ?_
    rw [Function.comp_apply, Node.toJsonWith_recast, Node.bodies_recast, List.map_map]
    exact congrArg n.toJsonWith (List.map_congr_left fun body hbody => hbodies n hn body hbody)
  rw [toJsonIn_eq, toJsonIn_eq, hnodes]
  unfold toJsonWith inputInfos outputInfos
  rw [producedInfos_retabled hproduced, inputs_retabled, outputs_retabled, name_retabled,
    List.map_congr_left fun name hname => hfronts name (.inl hname),
    List.map_congr_left fun name hname => hfronts name (.inr hname)]

end Graph

/-! ## Running -/

namespace Evaluation

variable {V : Type} [Operand V]

/-- Whether kernels look at nothing of the bodies and the bookmarks of a node. -/
def Machine.SparesBodies (m : Machine V) : Prop :=
  ∀ f n operands, m.compute (Node.recast f n) operands = m.compute n operands

theorem Machine.standard_sparesBodies (budget : Nat) :
    (Machine.standard budget : Machine V).SparesBodies := by
  intro f n operands
  simp only [standard, kernel, namedKernel, operand, reductionOptions, reductionAxes,
    Node.name_recast, Node.op_recast, Node.number?_recast, Node.numbers?_recast, Node.literal?_recast]

private theorem rounds_congr {n k : Node} {body : Body V} {graph : Graph} (hname : k.name = n.name)
    (hinputs : graph.inputs = body.graph.inputs) (env : Environment V) (limit : Option Number)
    (budget iteration : Nat) (condition : Bool) (carried : List V) :
    rounds k { body with graph } env limit budget iteration condition carried =
      rounds n body env limit budget iteration condition carried := by
  induction budget generalizing iteration condition carried with
  | zero =>
      unfold rounds
      rw [hname]
  | succ budget ih =>
      unfold rounds
      simp only [hname, hinputs, ih]

variable {m : Machine V} {n : Node} {f : Graph → Graph}

/-- A node does the same with other bodies of the same interface that do the same. -/
theorem runNode_recast (hm : m.SparesBodies)
    (hbodies : ∀ body ∈ n.bodies, (f body.2).inputs = body.2.inputs ∧
      (f body.2).outputs = body.2.outputs ∧ run m (f body.2) = run m body.2)
    (env : Environment V) :
    runNode m (n.recast f) (bodiesOf m (n.recast f)) env = runNode m n (bodiesOf m n) env := by
  have hbodiesOf : bodiesOf m (n.recast f) =
      (bodiesOf m n).map fun body => { body with graph := f body.graph } := by
    unfold bodiesOf
    rw [Node.bodies_recast, List.map_map, List.map_map]
    refine List.map_congr_left fun body hbody => ?_
    simp only [Function.comp_apply, (hbodies body hbody).2.2]
  have hfind (key : String) : (bodiesOf m (n.recast f)).find? (fun body => body.key == key) =
      ((bodiesOf m n).find? fun body => body.key == key).map fun body =>
        { body with graph := f body.graph } := by
    rw [hbodiesOf, List.find?_map]
    rfl
  have hinterface {key : String} {body : Body V}
      (hbody : (bodiesOf m n).find? (fun body => body.key == key) = some body) :
      (f body.graph).inputs = body.graph.inputs ∧ (f body.graph).outputs = body.graph.outputs := by
    obtain ⟨found, hfound, rfl⟩ := List.mem_map.1 (List.mem_of_find?_eq_some hbody)
    exact ⟨(hbodies found hfound).1, (hbodies found hfound).2.1⟩
  have hloop (operands : List V) :
      runLoop m (n.recast f) (bodiesOf m (n.recast f)) env operands =
        runLoop m n (bodiesOf m n) env operands := by
    rw [runLoop_eq, runLoop_eq, hfind]
    cases hbody : (bodiesOf m n).find? fun body => body.key == "body" with
    | none => rfl
    | some body =>
        obtain ⟨hinputs, houtputs⟩ := hinterface hbody
        have hrounds (limit : Option Number) (condition : Bool) :
            rounds (n.recast f) { body with graph := f body.graph } env limit m.budget 0 condition
              (operands.drop 2) = rounds n body env limit m.budget 0 condition (operands.drop 2) :=
          rounds_congr (n.name_recast f) hinputs env limit _ _ condition _
        simp only [Option.map_some, houtputs, hrounds]
        rfl
  have hbranch (operands : List V) :
      runBranch (n.recast f) (bodiesOf m (n.recast f)) env operands =
        runBranch n (bodiesOf m n) env operands := by
    unfold runBranch
    refine congrArg _ (funext fun value => ?_)
    simp only [hfind, Node.name_recast]
    refine congrArg _ (funext fun outcome => ?_)
    cases (bodiesOf m n).find? fun body =>
      body.key == if holds outcome = true then "then_branch" else "else_branch" <;> rfl
  unfold runNode
  simp only [hloop, hbranch, hm f n, Node.op_recast, Node.inputs_recast]

omit [Operand V] in
private theorem bindOutputs_recast (names : List String) (values : List V) (b : Bindings V) :
    bindOutputs (n.recast f) names values b = bindOutputs n names values b := by
  induction names generalizing values b with
  | nil => rfl
  | cons name rest ih =>
      unfold bindOutputs
      simp only [ih, Node.name_recast]

private theorem runNodes_recast {nodes : List Node}
    (hnodes : ∀ n ∈ nodes, ∀ env,
      runNode m (n.recast f) (bodiesOf m (n.recast f)) env = runNode m n (bodiesOf m n) env)
    (outer : Environment V) (b : Bindings V) :
    runNodes m outer (nodes.map (Node.recast f)) b = runNodes m outer nodes b := by
  unfold runNodes
  induction nodes generalizing b with
  | nil => rfl
  | cons n rest ih =>
      rw [List.forall_mem_cons] at hnodes
      simp only [List.map_cons, List.foldlM_cons, hnodes.1, bindOutputs_recast, Node.outputs_recast,
        ih hnodes.2]

omit [Operand V] in
private theorem bindInputs_retabled (table : List Graph → Graph → InfoTable) (enclosing : List Graph)
    (g : Graph) (feeds : String → Option V) (names : List String) (b : Bindings V) :
    bindInputs (g.retabled table enclosing) feeds names b = bindInputs g feeds names b := by
  induction names generalizing b with
  | nil => rfl
  | cons name rest ih =>
      unfold bindInputs
      simp only [ih, Graph.name_retabled]

/-- A tree does what it did, failures included. -/
theorem run_retabled (hm : m.SparesBodies) (table : List Graph → Graph → InfoTable)
    (enclosing : List Graph) (g : Graph) : run m (g.retabled table enclosing) = run m g := by
  induction g using Graph.bodyInduction generalizing enclosing with
  | step g ih =>
      have hnodes (outer : Environment V) (places : List Nat) (b : Bindings V) :
          runNodes m outer ((g.retabled table enclosing).nodesAt places) b =
            runNodes m outer (g.nodesAt places) b := by
        rw [Graph.nodesAt_retabled]
        refine runNodes_recast (fun n hn env => ?_) outer b
        obtain ⟨place, -, hplace⟩ := List.mem_filterMap.1 hn
        exact runNode_recast hm (fun body hbody =>
          ⟨by simp, by simp, ih n (List.mem_of_getElem? hplace) body hbody _⟩) env
      funext outer feeds
      simp only [run_eq_runNodes, hnodes, bindInputs_retabled, Graph.inputs_retabled,
        Graph.outputs_retabled, Graph.topologicalOrder_retabled]

theorem execute_retabled (hm : m.SparesBodies) (table : List Graph → Graph → InfoTable)
    (enclosing : List Graph) (g : Graph) (feeds : Bindings V) :
    execute m (g.retabled table enclosing) feeds = execute m g feeds := by
  unfold execute
  rw [run_retabled hm, Graph.outputs_retabled]

end Evaluation

end TensorGraph
