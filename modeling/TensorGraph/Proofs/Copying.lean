import TensorGraph.Optimizer.Transposition
import TensorGraph.Proofs.Retabling

/-!
# Copies of trees

A copy of a graph has the same names in the same places, in every graph of the tree. Only what is
known of values may differ, and only by less: an input or an output of which nothing is known gets an
entry that says so, and such an entry hides what a graph around it knows of the value. So where a copy
knows the shape of a value, it is the shape that the graph itself knows.

## Main results

* `Graph.shape?_clone` -- a copy knows no other shapes than the graph itself.
* `Graph.issuesIn_clone` -- a copy of a valid tree is valid.
* `Graph.toJson_clone` -- a copy of a valid tree is written like the tree.
-/

namespace TensorGraph

/-! ## Tables from lists -/

namespace InfoTable

theorem get?_foldl_set_of_not_mem {infos : List ValueInfo} {name : String}
    (hnot : ∀ info ∈ infos, info.name ≠ name) (t : InfoTable) :
    (infos.foldl set t).get? name = t.get? name := by
  induction infos generalizing t with
  | nil => rfl
  | cons info rest ih =>
      rw [List.foldl_cons, ih (fun other hother => hnot other (List.mem_cons_of_mem _ hother)),
        get?_set, if_neg fun e => hnot info (by simp) e.symm]

/-- An entry that is like all others of its name is found. -/
theorem get?_foldl_set_of_mem {infos : List ValueInfo} {name : String} {found : ValueInfo}
    (hmem : found ∈ infos) (hname : found.name = name)
    (hsame : ∀ info ∈ infos, info.name = name → info = found) (t : InfoTable) :
    (infos.foldl set t).get? name = some found := by
  induction infos generalizing t with
  | nil => cases hmem
  | cons info rest ih =>
      have hrest := fun other hother => hsame other (List.mem_cons_of_mem _ hother)
      by_cases hlater : found ∈ rest
      · exact ih hlater hrest _
      · obtain rfl : found = info := (List.mem_cons.1 hmem).resolve_right hlater
        rw [List.foldl_cons, get?_foldl_set_of_not_mem, get?_set, if_pos hname.symm]
        rintro other hother rfl
        exact hlater (hrest other hother rfl ▸ hother)

/-- A table has entries of the names from which it is made. -/
theorem isSome_get?_foldl_set {infos : List ValueInfo} {t : InfoTable} {name : String} :
    ((infos.foldl set t).get? name).isSome = true ↔
      (∃ info ∈ infos, info.name = name) ∨ (t.get? name).isSome = true := by
  induction infos generalizing t with
  | nil => simp
  | cons info rest ih =>
      rw [List.foldl_cons, ih, get?_set]
      by_cases hname : name = info.name
      · simp [hname]
      · have hother : info.name ≠ name := fun e => hname e.symm
        simp [hname, hother]

/-- Setting an entry that is there changes nothing. -/
theorem set_of_get? {t : InfoTable} {info : ValueInfo} (h : t.get? info.name = some info) :
    t.set info = t := by
  have hmem := List.mem_of_find?_eq_some h
  have hsame : ∀ other ∈ t.entries, (if other.name == info.name then info else other) = other := by
    intro other hother
    split
    · rename_i hname
      exact List.inj_on_of_nodup_map t.distinct hmem hother (eq_of_beq hname).symm
    · rfl
  have hany : t.entries.any (·.name == info.name) = true :=
    List.any_eq_true.2 ⟨info, hmem, beq_self_eq_true info.name⟩
  refine ext ((if_pos hany).trans ?_)
  rw [List.map_congr_left hsame, List.map_id']

theorem foldl_set_of_get? {t : InfoTable} {infos : List ValueInfo}
    (h : ∀ info ∈ infos, t.get? info.name = some info) : infos.foldl set t = t := by
  induction infos with
  | nil => rfl
  | cons info rest ih =>
      rw [List.forall_mem_cons] at h
      rw [List.foldl_cons, set_of_get? h.1, ih h.2]

/-- A table is the table of its entries. -/
theorem ofList_entries (t : InfoTable) : ofList t.entries = t := by
  have hfold : ∀ (infos : List ValueInfo) (u : InfoTable),
      ((u.entries ++ infos).map ValueInfo.name).Nodup →
        (infos.foldl set u).entries = u.entries ++ infos := by
    intro infos
    induction infos with
    | nil => simp
    | cons info rest ih =>
        intro u hdistinct
        have hnew : ¬ u.entries.any (·.name == info.name) = true := by
          intro hany
          obtain ⟨other, hother, hname⟩ := List.any_eq_true.1 hany
          rw [List.map_append, List.nodup_append] at hdistinct
          exact hdistinct.2.2 other.name (List.mem_map_of_mem hother) info.name (by simp)
            (eq_of_beq hname)
        have hset : (u.set info).entries = u.entries ++ [info] := if_neg hnew
        rw [List.foldl_cons, ih (u.set info) (by simpa [hset] using hdistinct), hset, List.append_assoc]
        rfl
  exact ext (hfold t.entries empty t.distinct)

end InfoTable

/-! ## Copies of nodes -/

/-- The node with copies of its bodies. It is a new node, so it has no bookmarks. -/
def Node.copied (n : Node) : Node :=
  { n with
    attributes := n.attributes.map fun entry => (entry.1, entry.2.mapBody Graph.clone)
    bookmarks := [] }

namespace Node

variable (n : Node) (key : String)

@[simp] theorem name_copied : n.copied.name = n.name := rfl
@[simp] theorem op_copied : n.copied.op = n.op := rfl
@[simp] theorem inputs_copied : n.copied.inputs = n.inputs := rfl
@[simp] theorem outputs_copied : n.copied.outputs = n.outputs := rfl

theorem attribute?_copied :
    n.copied.attribute? key = (n.attribute? key).map (Attribute.mapBody Graph.clone) :=
  n.attribute?_recast Graph.clone key

@[simp] theorem numbers?_copied : n.copied.numbers? key = n.numbers? key :=
  n.numbers?_recast Graph.clone key

@[simp] theorem number?_copied : n.copied.number? key = n.number? key :=
  n.number?_recast Graph.clone key

@[simp] theorem literal?_copied : n.copied.literal? key = n.literal? key :=
  n.literal?_recast Graph.clone key

@[simp] theorem constant?_copied : n.copied.constant? = n.constant? := by
  unfold constant?
  rw [op_copied, inputs_copied, outputs_copied, literal?_copied]

theorem body?_copied : n.copied.body? key = (n.body? key).map Graph.clone :=
  n.body?_recast Graph.clone key

theorem bodies_copied : n.copied.bodies = n.bodies.map fun body => (body.1, body.2.clone) :=
  n.bodies_recast Graph.clone

theorem keyed_copied (h : n.Keyed) : n.copied.Keyed := by
  unfold Keyed copied
  rw [List.map_map]
  exact h

end Node

/-! ## Copies of graphs -/

/-- The definition at the same place in a copy. -/
def Origin.copied : Origin → Origin
  | .input g => .input g.clone
  | .node g n => .node g.clone n.copied

namespace Graph

theorem clone_eq (g : Graph) :
    g.clone = assemble g.name g.inputInfos g.outputInfos g.infos.entries (g.nodes.map Node.copied) := by
  have hfold : g.clone = assemble g.name g.inputInfos g.outputInfos g.infos.entries
      (g.nodes.map fun n =>
        { n.withBodies (n.bodies.map fun body => body.2.clone) with bookmarks := [] }) := by
    unfold clone
    rw [fold_eq]
    simp only [List.zipWith_map_right, List.zipWith_self]
  rw [hfold]
  congr 1
  refine List.map_congr_left fun n _ => ?_
  unfold Node.withBodies Node.copied
  rw [← Attributes.withBodies_map]
  rfl

/-- The table of a copy: what is known in the graph, and an entry for every input and output. -/
def copiedInfos (g : Graph) : InfoTable :=
  .ofList (g.infos.entries ++ g.inputInfos ++ g.outputInfos)

/-- A copy is the same tree with other tables, wherever the graph stands. -/
theorem clone_eq_retabled (enclosing : List Graph) (g : Graph) :
    g.clone = g.retabled (fun _ => copiedInfos) enclosing := by
  induction g using bodyInduction generalizing enclosing with
  | step g ih =>
      have hnodes : g.nodes.map Node.copied =
          g.nodes.map (Node.recast (retabled (fun _ => copiedInfos) (g :: enclosing))) :=
        List.map_congr_left fun n hn => Node.recast_eq_recast_iff.2 fun body hbody =>
          ih n hn body hbody (g :: enclosing)
      rw [clone_eq, retabled_eq, hnodes]
      unfold assemble inputInfos outputInfos
      simp only [List.map_map, Function.comp_def, name_infoOf, List.map_id']
      rfl

variable (g : Graph)

@[simp] theorem name_clone : g.clone.name = g.name := by
  simp [clone_eq_retabled []]

@[simp] theorem nodes_clone : g.clone.nodes = g.nodes.map Node.copied := by
  rw [clone_eq]
  rfl

@[simp] theorem inputs_clone : g.clone.inputs = g.inputs := by
  simp [clone_eq_retabled []]

@[simp] theorem outputs_clone : g.clone.outputs = g.outputs := by
  simp [clone_eq_retabled []]

theorem infos_clone : g.clone.infos = g.copiedInfos := by
  rw [clone_eq_retabled [], infos_retabled]

/-- What is known of some values, entered into a table. -/
theorem get?_foldl_set_infoOf (names : List String) (t : InfoTable) (name : String) :
    ((names.map g.infoOf).foldl InfoTable.set t).get? name =
      if name ∈ names then some (g.infoOf name) else t.get? name := by
  split
  · rename_i hmem
    refine InfoTable.get?_foldl_set_of_mem (List.mem_map_of_mem hmem) (g.name_infoOf name) ?_ t
    intro info hinfo hname
    obtain ⟨other, -, rfl⟩ := List.mem_map.1 hinfo
    rw [name_infoOf] at hname
    rw [hname]
  · rename_i hnot
    refine InfoTable.get?_foldl_set_of_not_mem (fun info hinfo hname => ?_) t
    obtain ⟨other, hother, rfl⟩ := List.mem_map.1 hinfo
    rw [name_infoOf] at hname
    exact hnot (hname ▸ hother)

/-- The table of a copy: inputs and outputs have entries, anything else has one if it had one. -/
theorem get?_clone (name : String) :
    g.clone.infos.get? name =
      if name ∈ g.inputs ∨ name ∈ g.outputs then some (g.infoOf name) else g.infos.get? name := by
  rw [infos_clone]
  unfold copiedInfos InfoTable.ofList inputInfos outputInfos
  simp only [List.foldl_append, get?_foldl_set_infoOf]
  by_cases houtput : name ∈ g.outputs
  · simp [houtput]
  · by_cases hinput : name ∈ g.inputs
    · simp [houtput, hinput]
    · simp only [houtput, hinput, or_false, if_false]
      exact congrArg (InfoTable.get? · name) g.infos.ofList_entries

@[simp] theorem infoOf_clone (name : String) : g.clone.infoOf name = g.infoOf name := by
  unfold infoOf
  rw [get?_clone]
  split
  · rfl
  · rfl

@[simp] theorem isInput_clone (name : String) : g.clone.isInput name = g.isInput name := by
  simp [isInput]

@[simp] theorem isOutput_clone (name : String) : g.clone.isOutput name = g.isOutput name := by
  simp [isOutput]

theorem producer?_clone (value : String) :
    g.clone.producer? value = (g.producer? value).map Node.copied := by
  unfold producer?
  rw [nodes_clone, List.find?_map]
  rfl

@[simp] theorem outerReferences_clone : g.clone.outerReferences = g.outerReferences := by
  rw [clone_eq_retabled [], outerReferences_retabled]

end Graph

@[simp] theorem Node.reads_copied (n : Node) : n.copied.reads = n.reads := by
  unfold reads
  rw [bodies_copied, List.flatMap_map, inputs_copied]
  simp only [Graph.outerReferences_clone]

namespace Graph

variable (g : Graph)

theorem getElem?_nodes_clone (place : Nat) :
    g.clone.nodes[place]? = g.nodes[place]?.map Node.copied := by
  rw [nodes_clone, List.getElem?_map]

@[simp] theorem readers_clone (value : String) : g.clone.readers value = g.readers value := by
  unfold readers
  rw [nodes_clone, List.length_map]
  refine List.filter_congr fun i _ => ?_
  rw [List.getElem?_map]
  cases g.nodes[i]? <;> simp

@[simp] theorem topologicalOrder_clone : g.clone.topologicalOrder = g.topologicalOrder := by
  rw [clone_eq_retabled [], topologicalOrder_retabled]

theorem HasBody.clone {g : Graph} {place : Nat} {key : String} {body : Graph}
    (h : g.HasBody place key body) : g.clone.HasBody place key body.clone := by
  obtain ⟨n, hn, hbody⟩ := h
  refine ⟨n.copied, by rw [getElem?_nodes_clone, hn]; rfl, ?_⟩
  rw [Node.bodies_copied]
  exact List.mem_map_of_mem hbody

theorem hasBody_clone {g : Graph} {place : Nat} {key : String} {body : Graph}
    (h : g.clone.HasBody place key body) : ∃ old, g.HasBody place key old ∧ body = old.clone := by
  obtain ⟨n, hn, hbody⟩ := h
  rw [getElem?_nodes_clone] at hn
  obtain ⟨m, hm, rfl⟩ := Option.map_eq_some_iff.1 hn
  rw [Node.bodies_copied] at hbody
  obtain ⟨⟨k, old⟩, hold, heq⟩ := List.mem_map.1 hbody
  cases heq
  exact ⟨old, ⟨m, hm, hold⟩, rfl⟩

theorem keyedTree_clone {g : Graph} (h : KeyedTree g) : KeyedTree g.clone := by
  induction g using bodyInduction with
  | step g ih =>
      have hnodes : ∀ n ∈ g.clone.nodes, ∃ m ∈ g.nodes, m.copied = n := fun n hn =>
        List.mem_map.1 (g.nodes_clone ▸ hn)
      refine .intro (fun n hn => ?_) fun n hn body hbody => ?_
      · obtain ⟨m, hm, rfl⟩ := hnodes n hn
        exact m.keyed_copied (h.here m hm)
      · obtain ⟨m, hm, rfl⟩ := hnodes n hn
        rw [Node.bodies_copied] at hbody
        obtain ⟨old, hold, rfl⟩ := List.mem_map.1 hbody
        exact ih m hm old hold (h.body hm hold)

/-! ## What is known in a copy -/

variable (enclosing : List Graph)

/-- Where the copy of a graph knows the shape of a value, it is the shape that the graph knows. -/
theorem shape?_clone (value : String) :
    (g.clone.info? (enclosing.map clone) value).bind ValueInfo.shape = none ∨
      (g.clone.info? (enclosing.map clone) value).bind ValueInfo.shape =
        (g.info? enclosing value).bind ValueInfo.shape := by
  have hscopes : ∀ scopes : List Graph,
      ((scopes.map clone).findSome? fun scope => scope.infos.get? value).bind ValueInfo.shape = none ∨
        ((scopes.map clone).findSome? fun scope => scope.infos.get? value).bind ValueInfo.shape =
          (scopes.findSome? fun scope => scope.infos.get? value).bind ValueInfo.shape := by
    intro scopes
    induction scopes with
    | nil => exact .inl rfl
    | cons scope rest ih =>
        rw [List.map_cons, List.findSome?_cons, List.findSome?_cons, get?_clone]
        cases hinfo : scope.infos.get? value with
        | some info => exact .inr (by simp [infoOf, hinfo])
        | none =>
            by_cases hfront : value ∈ scope.inputs ∨ value ∈ scope.outputs
            · exact .inl (by simp [infoOf, hinfo, hfront])
            · simpa [hfront] using ih
  exact hscopes (g :: enclosing)

theorem rank?_clone (value : String) :
    rank? (enclosing.map clone) g.clone value = none ∨
      rank? (enclosing.map clone) g.clone value = rank? enclosing g value := by
  unfold rank?
  exact (g.shape?_clone enclosing value).imp (fun h => by rw [h]; rfl) fun h => by rw [h]

/-! ## Validity of a copy -/

theorem localOrigin?_clone (name : String) :
    g.clone.localOrigin? name = (g.localOrigin? name).map Origin.copied := by
  unfold localOrigin?
  rw [isInput_clone, producer?_clone]
  split
  · rfl
  · rw [Option.map_map, Option.map_map]
    rfl

private theorem findSome?_localOrigin?_clone (scopes : List Graph) (name : String) :
    ((scopes.map clone).findSome? fun scope => scope.localOrigin? name) =
      (scopes.findSome? fun scope => scope.localOrigin? name).map Origin.copied := by
  induction scopes with
  | nil => rfl
  | cons scope rest ih =>
      rw [List.map_cons, List.findSome?_cons, List.findSome?_cons, localOrigin?_clone, ih]
      cases scope.localOrigin? name <;> rfl

/-- Names have their definitions at the same places. -/
theorem resolve_clone (name : String) :
    g.clone.resolve (enclosing.map clone) name = (g.resolve enclosing name).map Origin.copied :=
  findSome?_localOrigin?_clone (g :: enclosing) name

private theorem isNone_resolve_clone (name : String) :
    (g.clone.resolve (enclosing.map clone) name).isNone = (g.resolve enclosing name).isNone := by
  rw [resolve_clone, Option.isNone_map]

private theorem definitionProblems_clone (seen : List String) (produced : List (String × String))
    (nodes : List Node) :
    g.clone.definitionProblems seen produced (nodes.map Node.copied) =
      g.definitionProblems seen produced nodes := by
  induction nodes generalizing seen produced with
  | nil => rfl
  | cons n rest ih =>
      simp only [List.map_cons, definitionProblems, Node.name_copied, Node.outputs_copied,
        isInput_clone, ih]
      rfl

private theorem shadowingProblems_clone :
    g.clone.shadowingProblems (enclosing.map clone) = g.shadowingProblems enclosing := by
  unfold shadowingProblems
  simp only [inputs_clone, nodes_clone, List.flatMap_map, findSome?_localOrigin?_clone,
    Option.isSome_map, Node.outputs_copied, Node.name_copied]

private theorem loopProblems_copied (n : Node) : loopProblems n.copied = loopProblems n := by
  unfold loopProblems
  rw [Node.body?_copied]
  cases n.body? "body" with
  | none => rfl
  | some body => simp

private theorem branchProblems_copied (n : Node) : branchProblems n.copied = branchProblems n := by
  unfold branchProblems
  simp [Node.body?_copied]

/-- What is wrong with a permutation in a copy is wrong with it in the graph itself. -/
private theorem transposeProblems_clone {n : Node} (h : g.transposeProblems enclosing n = []) :
    g.clone.transposeProblems (enclosing.map clone) n.copied = [] := by
  unfold transposeProblems at h ⊢
  rw [Node.numbers?_copied]
  split
  · rfl
  · rename_i perm hperm
    simp only [hperm] at h
    split at h
    · cases h
    · rename_i hpermutes
      rw [if_neg hpermutes, Node.inputs_copied]
      rcases g.shape?_clone enclosing (n.inputs.headD "") with hshape | hshape
      · rw [hshape]
      · rw [hshape]
        exact h

private theorem nodeProblems_clone {n : Node}
    (h : n.op = "Transpose" → g.clone.transposeProblems (enclosing.map clone) n.copied =
      g.transposeProblems enclosing n) :
    g.clone.nodeProblems (enclosing.map clone) n.copied = g.nodeProblems enclosing n := by
  have htranspose : (if n.copied.op = "Transpose" then
      g.clone.transposeProblems (enclosing.map clone) n.copied else []) =
        if n.op = "Transpose" then g.transposeProblems enclosing n else [] :=
    ite_congr rfl h fun _ => rfl
  unfold nodeProblems
  simp only [htranspose, Node.inputs_copied, Node.name_copied, isNone_resolve_clone,
    loopProblems_copied, branchProblems_copied]
  rfl

private theorem outputProblems_clone :
    g.clone.outputProblems (enclosing.map clone) = g.outputProblems enclosing := by
  unfold outputProblems
  simp only [outputs_clone, isNone_resolve_clone]

/-- A copy has the same issues if its transpositions have. -/
theorem scopeIssues_clone
    (h : ∀ n ∈ g.nodes, n.op = "Transpose" →
      g.clone.transposeProblems (enclosing.map clone) n.copied = g.transposeProblems enclosing n) :
    g.clone.scopeIssues (enclosing.map clone) = g.scopeIssues enclosing := by
  unfold scopeIssues
  rw [nodes_clone, definitionProblems_clone, shadowingProblems_clone, outputProblems_clone,
    topologicalOrder_clone, name_clone, List.flatMap_map,
    List.flatMap_congr fun n hn => g.nodeProblems_clone enclosing (h n hn)]

/-- A transposition without problems has none in a copy. -/
theorem transposeProblems_clone_of_scopeIssues (h : g.scopeIssues enclosing = []) {n : Node}
    (hn : n ∈ g.nodes) (hop : n.op = "Transpose") :
    g.clone.transposeProblems (enclosing.map clone) n.copied = g.transposeProblems enclosing n := by
  have hnone := (operatorProblems_eq_nil_iff.1 (operatorProblems_of_scopeIssues h hn)).2 hop
  rw [hnone, g.transposeProblems_clone enclosing hnone]

/-- A copy of a valid tree is valid. -/
theorem issuesIn_clone (h : g.issuesIn enclosing = []) :
    g.clone.issuesIn (enclosing.map clone) = [] := by
  induction g using bodyInduction generalizing enclosing with
  | step g ih =>
      rw [issuesIn_eq, List.append_eq_nil_iff] at h ⊢
      refine ⟨(g.scopeIssues_clone enclosing fun n hn =>
        g.transposeProblems_clone_of_scopeIssues enclosing h.1 hn).trans h.1, ?_⟩
      simp only [nodes_clone, List.flatMap_map, Node.bodies_copied, List.flatMap_eq_nil_iff]
      intro n hn body hbody
      exact ih n hn body hbody (g :: enclosing)
        (List.flatMap_eq_nil_iff.1 (List.flatMap_eq_nil_iff.1 h.2 n hn) body hbody)

theorem isValid_clone {g : Graph} (h : g.IsValid) : g.clone.IsValid := g.issuesIn_clone [] h

/-! ## A copy as JSON -/

variable {g enclosing} {visible : String → Prop}

/-- A name that comes in or goes out nowhere is known in the copies as it was. -/
private theorem info?_clone {value : String}
    (hinner : ∀ scope ∈ g :: enclosing, value ∉ scope.inputs ∧ value ∉ scope.outputs) :
    g.clone.info? (enclosing.map clone) value = g.info? enclosing value := by
  have hscopes : ∀ scopes : List Graph,
      (∀ scope ∈ scopes, value ∉ scope.inputs ∧ value ∉ scope.outputs) →
      ((scopes.map clone).findSome? fun scope => scope.infos.get? value) =
        scopes.findSome? fun scope => scope.infos.get? value := by
    intro scopes
    induction scopes with
    | nil => simp
    | cons scope rest ih =>
        intro hinner
        rw [List.forall_mem_cons] at hinner
        rw [List.map_cons, List.findSome?_cons, List.findSome?_cons, get?_clone, ih hinner.2,
          if_neg (not_or.2 hinner.1)]
  exact hscopes (g :: enclosing) hinner

/-- What comes in and goes out around a graph is visible in it, and so no node of it produces it. -/
theorem Scoped.not_fronts_of_mem_results (hg : Scoped visible g)
    (hfronts : ∀ scope ∈ enclosing, ∀ value, value ∈ scope.inputs ∨ value ∈ scope.outputs →
      visible value) {value : String} (hresult : value ∈ g.results) :
    ∀ scope ∈ enclosing, value ∉ scope.inputs ∧ value ∉ scope.outputs := by
  intro scope hscope
  have hhidden := hg.newResults value hresult
  exact ⟨fun h => hhidden (hfronts scope hscope value (.inl h)),
    fun h => hhidden (hfronts scope hscope value (.inr h))⟩

/-- The bodies of a scoped graph see what comes in and goes out of it and of the graphs around it. -/
theorem Scoped.seenIn_of_fronts (hg : Scoped visible g)
    (hfronts : ∀ scope ∈ enclosing, ∀ value, value ∈ scope.inputs ∨ value ∈ scope.outputs →
      visible value) :
    ∀ scope ∈ g :: enclosing, ∀ value, value ∈ scope.inputs ∨ value ∈ scope.outputs →
      g.seenIn visible value := by
  intro scope hscope value hvalue
  rcases List.mem_cons.1 hscope with rfl | hscope
  · rcases hvalue with hvalue | hvalue
    · exact .inr (defines_iff.2 (.inl hvalue))
    · exact hg.yielded value hvalue
  · exact .inl (hfronts scope hscope value hvalue)

/-- A copy is written like the graph if its bodies are, and if as much is known of what it produces. -/
theorem toJsonIn_clone_of_bodies
    (hproduced : ∀ value ∈ g.results, value ∉ g.inputs → value ∉ g.outputs →
      g.clone.info? (enclosing.map clone) value = g.info? enclosing value)
    (hbodies : ∀ n ∈ g.nodes, ∀ body ∈ n.bodies,
      body.2.clone.toJsonIn (g.clone :: enclosing.map clone) = body.2.toJsonIn (g :: enclosing)) :
    g.clone.toJsonIn (enclosing.map clone) = g.toJsonIn enclosing := by
  rw [clone_eq_retabled enclosing]
  refine toJsonIn_retabled (fun name _ => ?_) ?_ fun n hn body hbody => ?_
  · rw [← clone_eq_retabled, infoOf_clone]
  · rw [← clone_eq_retabled]
    exact hproduced
  · rw [← clone_eq_retabled, ← clone_eq_retabled]
    exact hbodies n hn body hbody

/-- A copy of a scoped tree is written like the tree. -/
theorem toJsonIn_clone (hg : ScopedTree visible g)
    (hfronts : ∀ scope ∈ enclosing, ∀ value, value ∈ scope.inputs ∨ value ∈ scope.outputs →
      visible value) :
    g.clone.toJsonIn (enclosing.map clone) = g.toJsonIn enclosing := by
  induction g using bodyInduction generalizing enclosing visible with
  | step g ih =>
      refine toJsonIn_clone_of_bodies (fun value hresult hinput houtput => ?_) fun n hn body hbody =>
        ih n hn body hbody (hg.body hn hbody) (hg.here.seenIn_of_fronts hfronts)
      exact info?_clone (List.forall_mem_cons.2
        ⟨⟨hinput, houtput⟩, hg.here.not_fronts_of_mem_results hfronts hresult⟩)

/-- A copy of a valid tree is written like the tree. -/
theorem toJson_clone (h : g.IsValid) : g.clone.toJson = g.toJson := by
  have hfronts : ∀ scope ∈ ([] : List Graph), ∀ value,
      value ∈ scope.inputs ∨ value ∈ scope.outputs → False := by simp
  exact toJsonIn_clone h.scopedTree hfronts

end Graph

end TensorGraph
