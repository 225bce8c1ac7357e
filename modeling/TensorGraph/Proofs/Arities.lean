import TensorGraph.Proofs.Alignment
import TensorGraph.Proofs.Providing
import TensorGraph.Proofs.Reading
import TensorGraph.Proofs.Slicing

/-!
# Arities of bodies

How many values a body takes and yields is checked before a run for loops, and for conditionals not at
all. Where the branches of conditionals take nothing and yield as many values as their hosts have
outputs for, every body that a run enters is fed whatever it takes, in every round, and yields a value
for every output of its host.

A branch that takes a value is fed nothing. Then a graph is accepted that cannot be run.

## Main results

* `Evaluation.Round.length_state` -- a loop carries as many values in each round as in the first one.
* `Evaluation.Active.fed` -- every input of an active frame is fed.
* `Evaluation.length_le_of_runNode` -- a loop or a conditional yields a value for every output.
* `Evaluation.execute_supplied` -- no run of a graph with such branches lacks a value at a body.
* `Evaluation.not_execute_supplied` -- a branch that takes a value is accepted, and not run.
-/

namespace TensorGraph

/-- Whether the bodies of a node take and yield as many values as the node has for them. -/
structure Node.Agrees (n : Node) : Prop where
  loop : n.op = "Loop" → ∃ body, n.body? "body" = some body ∧ 2 ≤ n.inputs.length ∧
    body.inputs.length = n.inputs.length ∧ body.outputs.length = n.outputs.length + 1
  branch : n.op = "If" → ∀ key ∈ ["then_branch", "else_branch"], ∃ body, n.body? key = some body ∧
    body.inputs = [] ∧ n.outputs.length ≤ body.outputs.length

/-- Whether the branches of a conditional take nothing and yield as many values as it has outputs
for. -/
def Node.BranchesAgree (n : Node) : Prop :=
  n.op = "If" → ∀ key ∈ ["then_branch", "else_branch"], ∀ body, n.body? key = some body →
    body.inputs = [] ∧ n.outputs.length ≤ body.outputs.length

namespace Graph

/-- Whether the branches of all conditionals in a tree do. -/
abbrev BranchesAgree (g : Graph) : Prop := EveryScope (fun _ g => ∀ n ∈ g.nodes, n.BranchesAgree) [] g

/-- A loop that keeps its rules has a body that agrees with it. -/
theorem exists_body_of_loopProblems {n : Node} (h : loopProblems n = []) :
    ∃ body, n.body? "body" = some body ∧ 2 ≤ n.inputs.length ∧
      body.inputs.length = n.inputs.length ∧ body.outputs.length = n.outputs.length + 1 := by
  unfold loopProblems at h
  cases hbody : n.body? "body" with
  | none => simp [hbody] at h
  | some body =>
      simp only [hbody] at h
      split at h
      · cases h
      · rename_i hcount
        obtain ⟨hinputs, houtputs⟩ := List.append_eq_nil_iff.1 h
        refine ⟨body, rfl, by omega, by by_contra hne; simp [hne] at hinputs, ?_⟩
        split at houtputs
        · cases houtputs
        · split at houtputs
          · cases houtputs
          · omega

/-- A conditional that keeps its rules has both branches. -/
theorem isSome_body?_of_branchProblems {n : Node} (h : branchProblems n = []) :
    ∀ key ∈ ["then_branch", "else_branch"], (n.body? key).isSome = true := by
  intro key hkey
  unfold branchProblems at h
  have := List.filter_eq_nil_iff.1 (List.map_eq_nil_iff.1 h) key hkey
  simpa [Option.isSome_iff_ne_none] using this

/-- In a graph without issues loops agree with their bodies, and conditionals if their branches do. -/
theorem everyScope_agrees {enclosing : List Graph} {g : Graph} (h : g.issuesIn enclosing = [])
    (hbranches : EveryScope (fun _ g => ∀ n ∈ g.nodes, n.BranchesAgree) enclosing g) :
    EveryScope (fun _ g => ∀ n ∈ g.nodes, n.Agrees) enclosing g := by
  induction hbranches with
  | @intro enclosing g here _ ih =>
      rw [issuesIn_eq, List.append_eq_nil_iff, List.flatMap_eq_nil_iff] at h
      refine .intro (fun n hn => ?_) fun n hn body hbody =>
        ih n hn body hbody (List.flatMap_eq_nil_iff.1 (h.2 n hn) body hbody)
      have hequipped := (operatorProblems_eq_nil_iff.1 (operatorProblems_of_scopeIssues h.1 hn)).1
      refine ⟨fun hop => exists_body_of_loopProblems (hequipped.1 hop), fun hop key hkey => ?_⟩
      obtain ⟨body, hbody⟩ := Option.isSome_iff_exists.1
        (isSome_body?_of_branchProblems (hequipped.2 hop) key hkey)
      exact ⟨body, hbody, here n hn hop key hkey body hbody⟩

end Graph

namespace Evaluation

open Operand TensorGraph.Graph

variable {V : Type} [Operand V] {m : Machine V} {n : Node} {env : Environment V}

/-! ## Counting values -/

theorem find?_bodiesOf {key : String} {g : Graph} (h : n.body? key = some g) :
    ((bodiesOf m n).find? fun body => body.key == key) = some ⟨key, g, run m g⟩ := by
  have hfound : (n.bodies.find? fun body => body.1 == key) = some (key, g) := by
    unfold Node.body? Node.attribute? at h
    unfold Node.bodies
    generalize n.attributes = attributes at h
    induction attributes with
    | nil => simp at h
    | cons entry rest ih =>
        obtain ⟨first, value⟩ := entry
        rw [List.lookup_cons] at h
        cases hkey : key == first with
        | true =>
            obtain rfl := beq_iff_eq.1 hkey
            have hvalue : value.body? = some g := by simpa using h
            simp [hvalue]
        | false =>
            have hother : (first == key) = false := by rwa [Bool.beq_comm] at hkey
            simp only [hkey] at h
            cases hvalue : value.body? <;> simp [hvalue, hother, ih h]
  unfold bodiesOf
  rw [List.find?_map, Function.comp_def]
  simp only [hfound, Option.map_some]

theorem length_of_run {g : Graph} {outer : Environment V} {feeds : String → Option V}
    {values : List V} (h : run m g outer feeds = .ok values) : values.length = g.outputs.length := by
  rw [run_eq_runNodes] at h
  obtain ⟨inputs, -, h⟩ := bind_eq_ok h
  obtain ⟨order, -, h⟩ := bind_eq_ok h
  obtain ⟨b, -, h⟩ := bind_eq_ok h
  exact (mapM_eq_ok_iff.1 h).length_eq.symm

omit [Operand V] in
/-- As many values as a node has outputs can be bound. -/
theorem exists_bindOutputs_of_le (n : Node) {outputs : List String} {values : List V}
    (h : outputs.length ≤ values.length) (b : Bindings V) :
    ∃ c, bindOutputs n outputs values b = .ok c := by
  induction outputs generalizing values b with
  | nil => exact ⟨b, rfl⟩
  | cons output rest ih =>
      cases values with
      | nil => simp at h
      | cons value others =>
          have hrest : rest.length ≤ others.length := by simpa using h
          unfold bindOutputs
          split
          · exact ih hrest b
          · exact ih hrest _

omit [Operand V] in
theorem exists_of_bindOutputs_error {outputs : List String} {values : List V} {b : Bindings V}
    {e : Failure} (h : bindOutputs n outputs values b = .error e) :
    ∃ value ∈ outputs, e = .nothingProduced n.name value := by
  induction outputs generalizing values b with
  | nil => cases h
  | cons output rest ih =>
      have hrest : ∀ {values : List V} {b : Bindings V}, bindOutputs n rest values b = .error e →
          ∃ value ∈ output :: rest, e = .nothingProduced n.name value := fun h => by
        obtain ⟨value, hvalue, he⟩ := ih h
        exact ⟨value, List.mem_cons_of_mem _ hvalue, he⟩
      unfold bindOutputs at h
      split at h
      · exact hrest h
      · cases values with
        | nil =>
            cases h
            exact ⟨output, List.mem_cons_self, rfl⟩
        | cons value others => exact hrest h

/-- A body is fed whatever it takes if it takes the iteration, the condition and the carried values. -/
theorem isSome_loopFeeds {inputs : List String} {carried : List V}
    (h : inputs.length = carried.length + 2) (iteration : Nat) (condition : Bool) {name : String}
    (hname : name ∈ inputs) : (loopFeeds inputs iteration condition carried name).isSome = true := by
  have hnone : 2 - inputs.length = 0 := by omega
  unfold loopFeeds
  simp only [hnone, List.replicate_zero, List.append_nil]
  generalize hvalues : scalar .int64 (.ofNat iteration) :: truth condition :: carried = values
  have hlength : values.length = inputs.length := by simp [← hvalues, h]
  generalize hfed : (List.map _ inputs.zipIdx).reverse = fed
  have hsome : ∀ entry ∈ fed, entry.2.isSome = true := by
    simp only [← hfed, List.mem_reverse, List.forall_mem_map]
    rintro ⟨input, i⟩ hi
    have hlt := List.snd_lt_of_mem_zipIdx hi
    simpa [hlength] using hlt
  have hfound : ((fed.lookup name).join).isSome = true := by
    obtain ⟨i, hi, rfl⟩ := List.getElem_of_mem hname
    have hbound : (fed.lookup inputs[i]).isSome = true := List.lookup_isSome_iff.2
      ⟨(inputs[i], values[i]?), by
        rw [← hfed, List.mem_reverse]
        exact List.mem_map_of_mem (List.mk_mem_zipIdx_iff_getElem?.2 (List.getElem?_eq_getElem hi)),
        beq_self_eq_true _⟩
    obtain ⟨value, hvalue⟩ := Option.isSome_iff_exists.1 hbound
    obtain ⟨before, after, hsplit, -⟩ := List.lookup_eq_some_iff.1 hvalue
    rw [hvalue]
    exact hsome (inputs[i], value) (by simp [hsplit])
  split
  · exact hfound
  · show (((fed.filter fun entry => entry.2.isSome).lookup name).join.or (unfed name)).isSome = true
    rw [List.filter_eq_self.2 hsome, Option.isSome_or, hfound, Bool.true_or]

section Rounds

variable {g : Graph} {key : String} {limit : Option Number} {start condition : Bool}
  {carried state : List V} {iteration : Nat}

/-- A loop carries as many values in each round as in the first one. -/
theorem Round.length_state
    (h : Round n ⟨key, g, run m g⟩ env limit start carried iteration condition state)
    (hcarried : g.outputs.length = carried.length + 1) : g.outputs.length = state.length + 1 := by
  induction h with
  | first => exact hcarried
  | next _ _ hvalues _ _ => exact (length_of_run hvalues).symm

/-- So it does at the end. -/
theorem length_of_rounds {budget : Nat} {values : List V}
    (hstate : g.outputs.length = state.length + 1)
    (h : rounds n ⟨key, g, run m g⟩ env limit budget iteration condition state = .ok values) :
    g.outputs.length = values.length + 1 := by
  induction budget generalizing iteration condition state with
  | zero =>
      unfold rounds at h
      split at h
      · cases h
      · cases h
        exact hstate
  | succ budget ih =>
      unfold rounds at h
      split at h
      · obtain ⟨yielded, hyielded, h⟩ := bind_eq_ok h
        have hlength := length_of_run hyielded
        cases yielded with
        | nil => cases h
        | cons value state' =>
            obtain ⟨x, -, h⟩ := bind_eq_ok h
            exact ih hlength.symm h
      · cases h
        exact hstate

end Rounds

/-- Every input of a body that a node enters is fed. -/
theorem Enters.fed {body : Body V} {feeds : String → Option V} (h : Enters m n env body feeds)
    (hn : n.Agrees) : ∀ name ∈ body.graph.inputs, (feeds name).isSome = true := by
  cases h with
  | @round values _ _ _ _ _ _ hop hslots hbody _ _ hlength hround _ =>
      obtain ⟨g, hg, htwo, hinputs, -⟩ := hn.loop hop
      obtain rfl := Option.some.inj ((find?_bodiesOf hg).symm.trans hbody)
      have hcount := (mapM_eq_ok_iff.1 hslots).length_eq
      have hstate := hround.length_state hlength
      intro name hname
      refine isSome_loopFeeds ?_ _ _ hname
      simp only [List.length_drop] at hlength hstate
      show g.inputs.length = _
      omega
  | @branch _ _ x _ hop _ _ _ hbody =>
      obtain ⟨g, hg, hinputs, -⟩ := hn.branch hop (if holds x then "then_branch" else "else_branch")
        (by split <;> simp)
      obtain rfl := Option.some.inj ((find?_bodiesOf hg).symm.trans hbody)
      intro name hname
      rw [show g.inputs = [] from hinputs] at hname
      cases hname

/-- The values that a body yields to its host, which in a loop come after the condition. -/
def handedOver (n : Node) (results : List V) : List V := if n.op = "Loop" then results.tail else results

/-- A body that a node enters yields a value for every output of the node. -/
theorem Enters.length_le {body : Body V} {feeds : String → Option V} {results : List V}
    (h : Enters m n env body feeds) (hn : n.Agrees) (hresults : body.meaning env feeds = .ok results) :
    n.outputs.length ≤ (handedOver n results).length := by
  unfold handedOver
  cases h with
  | @round _ _ _ _ _ _ _ hop _ hbody _ _ _ _ _ =>
      obtain ⟨g, hg, -, -, houtputs⟩ := hn.loop hop
      obtain rfl := Option.some.inj ((find?_bodiesOf hg).symm.trans hbody)
      rw [if_pos hop, List.length_tail, length_of_run hresults, houtputs]
      omega
  | @branch _ _ x _ hop _ _ _ hbody =>
      obtain ⟨g, hg, -, houtputs⟩ := hn.branch hop (if holds x then "then_branch" else "else_branch")
        (by split <;> simp)
      obtain rfl := Option.some.inj ((find?_bodiesOf hg).symm.trans hbody)
      have hnot : n.op ≠ "Loop" := by simp [hop]
      rw [if_neg hnot, length_of_run hresults]
      exact houtputs

/-- A loop or a conditional yields a value for every output. -/
theorem length_le_of_runNode {values : List V} (hn : n.Agrees) (hop : n.op = "Loop" ∨ n.op = "If")
    (h : runNode m n (bodiesOf m n) env = .ok values) : n.outputs.length ≤ values.length := by
  unfold runNode at h
  obtain ⟨present, hpresent, h⟩ := bind_eq_ok h
  split at h
  · rename_i hloop
    obtain ⟨g, hg, -, -, houtputs⟩ := hn.loop hloop
    obtain ⟨given, -, h⟩ := bind_eq_ok h
    rw [runLoop_eq, find?_bodiesOf hg] at h
    obtain ⟨limit, -, h⟩ := bind_eq_ok h
    obtain ⟨start, -, h⟩ := bind_eq_ok h
    split at h
    · rename_i hlength
      have hcount : g.outputs.length = values.length + 1 := length_of_rounds hlength h
      omega
    · cases h
  · rename_i hloop
    have hif := hop.resolve_left hloop
    rw [if_pos hif] at h
    unfold runBranch at h
    dsimp only at h
    obtain ⟨value, hvalue, h⟩ := bind_eq_ok h
    obtain ⟨x, hx, h⟩ := bind_eq_ok h
    generalize hbody : (bodiesOf m n).find? _ = found at h
    cases found with
    | none => cases h
    | some body =>
        have henters : Enters m n env body unfed := .branch hif hpresent hvalue hx hbody
        have hyields := henters.length_le hn h
        unfold handedOver at hyields
        rwa [if_neg hloop] at hyields

/-! ## Active frames -/

/-- Whether a frame is fed whatever it takes, and all bodies in it agree with their hosts. -/
structure Frame.Fits (f : Frame V) : Prop where
  agrees : ∃ enclosing, EveryScope (fun _ g => ∀ n ∈ g.nodes, n.Agrees) enclosing f.graph
  fed : ∀ name ∈ f.graph.inputs, (f.feeds name).isSome = true

theorem Frame.Fits.node {f : Frame V} (hf : f.Fits) {b : Bindings V} (hcomes : f.ComesTo m n b) :
    n.Agrees := by
  obtain ⟨enclosing, hagrees⟩ := hf.agrees
  exact hagrees.here n hcomes.mem_nodes

/-- A body that is entered from a frame that fits makes a frame that fits. -/
theorem Frame.Fits.enter {f : Frame V} (hf : f.Fits) {b : Bindings V} (hcomes : f.ComesTo m n b)
    {body : Body V} {feeds : String → Option V} (henters : Enters m n (b :: f.outer) body feeds) :
    Frame.Fits ⟨body.graph, b :: f.outer, feeds⟩ := by
  obtain ⟨enclosing, hagrees⟩ := hf.agrees
  obtain ⟨entry, hentry, rfl⟩ := List.mem_map.1 henters.mem_bodiesOf
  exact ⟨⟨_, hagrees.body hcomes.mem_nodes hentry⟩, henters.fed (hf.node hcomes)⟩

/-- Every frame that a run comes to fits if the first one does. -/
theorem Active.fits {root f : Frame V} (h : Active m root f) (hroot : root.Fits) : f.Fits := by
  induction h with
  | root => exact hroot
  | enter _ hcomes henters ih => exact ih.enter hcomes henters

/-- What a frame that fits lacks, some other node than a loop or a conditional does not yield. -/
theorem Frame.Fits.exists_of_unsupplied {f : Frame V} (hf : f.Fits) {e : Failure}
    (h : f.Unsupplied m e) : ∃ n b value, f.ComesTo m n b ∧ n.op ≠ "Loop" ∧ n.op ≠ "If" ∧
      value ∈ n.outputs ∧ e = .nothingProduced n.name value := by
  rcases h with hinputs | ⟨n, b, values, hcomes, hvalues, houtputs⟩
  · obtain ⟨c, hc⟩ := exists_bindInputs f.graph f.feeds [] hf.fed
    cases hc.symm.trans hinputs
  · have hop : ¬ (n.op = "Loop" ∨ n.op = "If") := fun hop => by
      obtain ⟨c, hc⟩ := exists_bindOutputs_of_le n (length_le_of_runNode (hf.node hcomes) hop hvalues) b
      cases hc.symm.trans houtputs
    obtain ⟨value, hvalue, rfl⟩ := exists_of_bindOutputs_error houtputs
    exact ⟨n, b, value, hcomes, fun hloop => hop (.inl hloop), fun hif => hop (.inr hif), hvalue, rfl⟩

/-! ## Executions -/

/-- The frame of a graph that stands by itself. -/
def Frame.ofFeeds (g : Graph) (feeds : Bindings V) : Frame V :=
  ⟨g, [], fun name => (feeds.lookup name).or (unfed name)⟩

theorem run_of_execute_error {g : Graph} {feeds : Bindings V} {e : Failure}
    (h : execute m g feeds = .error e) :
    run m g [] (Frame.ofFeeds g feeds).feeds = .error e := by
  rcases bind_eq_error h with hrun | ⟨values, -, h⟩
  · exact hrun
  · cases h

/-- In a run of a valid graph whose branches agree with their hosts, fed whatever it takes, every body
that is entered, at any depth and in any round, is fed whatever it takes and yields a value for every
output of its host, and so does the host. No input of a body is missing, and whenever a node yields
nothing for an output it is no loop and no conditional. -/
theorem execute_supplied {α : Type} [Scalar α] {g : Graph} (hg : g.IsValid) (hbranches : g.BranchesAgree)
    {feeds : Bindings (Value α)} (hfeeds : ∀ name ∈ g.inputs, (feeds.lookup name).isSome = true)
    (budget : Nat) :
    (∀ f, Active (.standard budget) (.ofFeeds g feeds) f →
      (∀ name ∈ f.graph.inputs, (f.feeds name).isSome = true) ∧
      ∀ n b, f.ComesTo (.standard budget) n b → n.op = "Loop" ∨ n.op = "If" →
        (∀ body fed results, Enters (.standard budget) n (b :: f.outer) body fed →
          body.meaning (b :: f.outer) fed = .ok results →
            n.outputs.length ≤ (handedOver n results).length) ∧
        ∀ values, runNode (.standard budget) n (bodiesOf (.standard budget) n) (b :: f.outer) =
          .ok values → n.outputs.length ≤ values.length) ∧
    (∀ input graph, execute (.standard budget) g feeds ≠ .error (.missingFeed input graph)) ∧
    ∀ node value, execute (.standard budget) g feeds = .error (.nothingProduced node value) →
      ∃ f n b, Active (.standard budget) (.ofFeeds g feeds) f ∧ f.ComesTo (.standard budget) n b ∧
        n.op ≠ "Loop" ∧ n.op ≠ "If" ∧ n.name = node ∧ value ∈ n.outputs := by
  have hroot : (Frame.ofFeeds g feeds).Fits := by
    refine ⟨⟨[], everyScope_agrees hg hbranches⟩, fun name hname => ?_⟩
    show ((feeds.lookup name).or (unfed name)).isSome = true
    rw [Option.isSome_or, hfeeds name hname, Bool.true_or]
  have hlacks : ∀ e, execute (.standard budget) g feeds = .error e → e.isSupply = true →
      ∃ f n b value, Active (.standard budget) (.ofFeeds g feeds) f ∧
        f.ComesTo (.standard budget) n b ∧ n.op ≠ "Loop" ∧ n.op ≠ "If" ∧ value ∈ n.outputs ∧
        e = .nothingProduced n.name value := fun e h he => by
    obtain ⟨f, hactive, hunsupplied⟩ :=
      exists_unsupplied (Value.supplies_standard budget) (run_of_execute_error h) he
    obtain ⟨n, b, value, hcomes, hloop, hif, hvalue, heq⟩ :=
      (hactive.fits hroot).exists_of_unsupplied hunsupplied
    exact ⟨f, n, b, value, hactive, hcomes, hloop, hif, hvalue, heq⟩
  refine ⟨fun f hactive => ?_, fun input graph h => ?_, fun node value h => ?_⟩
  · have hf := hactive.fits hroot
    exact ⟨hf.fed, fun n b hcomes hop => ⟨fun body fed results henters hresults =>
      henters.length_le (hf.node hcomes) hresults, fun values =>
        length_le_of_runNode (hf.node hcomes) hop⟩⟩
  · obtain ⟨_, _, _, _, -, -, -, -, -, heq⟩ := hlacks _ h rfl
    cases heq
  · obtain ⟨f, n, b, _, hactive, hcomes, hloop, hif, hvalue, ⟨⟩⟩ := hlacks _ h rfl
    exact ⟨f, n, b, hactive, hcomes, hloop, hif, rfl, hvalue⟩

/-- Branches inside of a loop. -/
theorem execute_supplied_pacing :
    pacing.IsValid ∧ pacing.BranchesAgree ∧
      (∀ name ∈ pacing.inputs, (threePaces.lookup name).isSome = true) ∧
      ∀ input graph, execute (.standard 8) pacing threePaces ≠ .error (.missingFeed input graph) := by
  have hvalid : pacing.IsValid := by
    unfold IsValid
    decide +kernel
  have hleaf : ∀ enclosing, ∀ g ∈ [stepping, staying],
      EveryScope (fun _ g => ∀ n ∈ g.nodes, n.BranchesAgree) enclosing g := fun enclosing g hg => by
    rcases List.mem_pair.1 hg with rfl | rfl <;>
      exact .intro (by simp [stepping, staying, Node.BranchesAgree])
        (by simp [stepping, staying, Node.bodies])
  have hbranches : pacing.BranchesAgree := by
    have hwalking : ∀ enclosing,
        EveryScope (fun _ g => ∀ n ∈ g.nodes, n.BranchesAgree) enclosing walking := fun enclosing => by
      refine .intro ?_ fun n hn body hbody => ?_
      · simp [walking, stepping, staying, Node.BranchesAgree, Node.body?, Node.attribute?,
          Attribute.body?, List.lookup_cons]
      · obtain rfl := List.mem_singleton.1 hn
        have hbranch : body ∈ [("then_branch", stepping), ("else_branch", staying)] := hbody
        rcases List.mem_pair.1 hbranch with rfl | rfl <;> exact hleaf _ _ (by simp)
    exact .intro (by simp [pacing, Node.BranchesAgree])
      (by simp [pacing, Node.bodies, Attribute.body?, hwalking])
  have hfeeds : ∀ name ∈ pacing.inputs, (threePaces.lookup name).isSome = true := by
    decide
  exact ⟨hvalid, hbranches, hfeeds, (execute_supplied hvalid hbranches hfeeds 8).2.1⟩

/-- A branch that takes a value that it does not need. -/
def asking : Graph where
  name := "asking"
  inputs := ["i"]
  outputs := ["r"]
  nodes := [{ name := "bend", op := "Relu", inputs := ["x"], outputs := ["r"] }]

/-- The same branch without an input. -/
def bending : Graph := { asking with inputs := [] }

/-- A conditional with some outputs and two branches that are alike. -/
def choosing (outputs : List String) (branch : Graph) : Graph where
  inputs := ["x", "c"]
  outputs := outputs
  nodes := [
    { name := "choose", op := "If", inputs := ["c"], outputs := outputs
      attributes := [("then_branch", .body branch), ("else_branch", .body branch)] }]

/-- A value and a condition that holds. -/
def chosen : Bindings (Value Int) :=
  [("x", Operand.scalar .int64 (.int 3)), ("c", Operand.scalar .bool (.int 1))]

/-- Where a branch takes a value, or yields too few, the graph is accepted, fed whatever it takes, and
not run. -/
theorem not_execute_supplied :
    (∀ outputs branch, ∀ name ∈ (choosing outputs branch).inputs,
      (chosen.lookup name).isSome = true) ∧
    ((choosing ["y"] asking).IsValid ∧
      execute (.standard 8) (choosing ["y"] asking) chosen = .error (.missingFeed "i" "asking")) ∧
    ((choosing ["y", "z"] bending).IsValid ∧
      execute (.standard 8) (choosing ["y", "z"] bending) chosen =
        .error (.nothingProduced "choose" "z")) := by
  have hfed : ∀ name ∈ ["x", "c"], (chosen.lookup name).isSome = true := by decide
  refine ⟨fun _ _ => hfed, ⟨?_, rfl⟩, ?_, rfl⟩ <;>
  · unfold IsValid
    decide +kernel

end Evaluation

end TensorGraph
