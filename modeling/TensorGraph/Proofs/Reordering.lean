import TensorGraph.Execution.Value
import TensorGraph.Proofs.Meaning
import TensorGraph.Proofs.Steps

/-!
# The order of node lists

The nodes of a graph stand in a list, but nothing depends on their order, in the graph or in the bodies
of its tree. The rules on names and on operators are about the nodes as a set, an order of computation
exists or not whatever the list is, and what comes out of a graph is the solution of equations that do
not mention places.

## Main results

* `Graph.isValid_iff` -- validity as rules on names and rules on operators.
* `Graph.Reordered.isValid` -- a valid graph stays valid when node lists are put in another order.
* `Evaluation.execute_reordered` -- and it does what it did.
-/

namespace TensorGraph

open TensorGraph.Graph

/-! ## Rules on operators -/

namespace Graph

/-- Whether the operators of a tree keep their own rules, inside some enclosing graphs. -/
inductive Ruled : List Graph → Graph → Prop
  | intro {enclosing : List Graph} {g : Graph}
      (here : ∀ n ∈ g.nodes, Equipped n ∧
        (n.op = "Transpose" → g.transposeProblems enclosing n = []))
      (inside : ∀ n ∈ g.nodes, ∀ body ∈ n.bodies, Ruled (g :: enclosing) body.2) :
      Ruled enclosing g

variable {enclosing enclosing' : List Graph} {g h : Graph}

/-- Of the graphs around a value only their tables count for what is known of it. -/
theorem info?_congr (hinfos : h.infos = g.infos)
    (henclosing : enclosing'.map infos = enclosing.map infos) (value : String) :
    h.info? enclosing' value = g.info? enclosing value := by
  have hfind : ∀ scopes : List Graph, (scopes.findSome? fun scope => scope.infos.get? value) =
      (scopes.map infos).findSome? fun table => table.get? value := fun scopes => by
    rw [List.findSome?_map]
    rfl
  unfold info?
  rw [hfind, hfind, List.map_cons, List.map_cons, hinfos, henclosing]

theorem Ruled.congr (hg : Ruled enclosing g)
    (henclosing : enclosing'.map infos = enclosing.map infos) : Ruled enclosing' g := by
  induction hg generalizing enclosing' with
  | @intro enclosing g here _ ih =>
      refine .intro (fun n hn => ⟨(here n hn).1, fun hop => ?_⟩) fun n hn body hbody =>
        ih n hn body hbody (by simp [henclosing])
      have hproblems := (here n hn).2 hop
      unfold transposeProblems at hproblems ⊢
      rwa [info?_congr rfl henclosing]

theorem issuesIn_eq_nil_iff : g.issuesIn enclosing = [] ↔
    ScopedTree (definedBy enclosing) g ∧ Ruled enclosing g := by
  induction g using bodyInduction generalizing enclosing with
  | step g ih =>
      rw [issuesIn_eq, List.append_eq_nil_iff, List.flatMap_eq_nil_iff, scopeIssues_eq_nil_iff]
      simp only [List.flatMap_eq_nil_iff]
      constructor
      · rintro ⟨⟨hscoped, hrules⟩, hbelow⟩
        have hbodies n hn body hbody := (ih n hn body hbody).1 (hbelow n hn body hbody)
        exact ⟨.intro hscoped fun n hn body hbody =>
            definedBy_cons g enclosing ▸ (hbodies n hn body hbody).1,
          .intro (fun n hn => operatorProblems_eq_nil_iff.1 (hrules n hn))
            fun n hn body hbody => (hbodies n hn body hbody).2⟩
      · rintro ⟨hscoped, hrules⟩
        cases hrules with
        | intro here inside =>
            refine ⟨⟨hscoped.here, fun n hn => operatorProblems_eq_nil_iff.2 (here n hn)⟩,
              fun n hn body hbody => (ih n hn body hbody).2 ⟨?_, inside n hn body hbody⟩⟩
            rw [definedBy_cons]
            exact hscoped.body hn hbody

/-- A graph is valid if and only if its names and its operators keep their rules. -/
theorem isValid_iff : g.IsValid ↔ ScopedTree (fun _ => False) g ∧ Ruled [] g := by
  unfold IsValid issues
  rw [issuesIn_eq_nil_iff, definedBy_nil]

/-! ## Other orders -/

/-- Whether a graph comes from another one when node lists are put in another order, any number of
times, in the graph itself and in the bodies of its tree. -/
inductive Reordered : Graph → Graph → Prop
  | permute {g : Graph} {nodes : List Node} (perm : nodes.Perm g.nodes) :
      Reordered g { g with nodes }
  | inside {g old new : Graph} {place : Nat} {key : String} (body : g.HasBody place key old)
      (below : Reordered old new) : Reordered g (g.putBody place key new)
  | trans {g h k : Graph} (first : Reordered g h) (second : Reordered h k) : Reordered g k

theorem results_permute {nodes : List Node} (perm : nodes.Perm g.nodes) :
    ({ g with nodes } : Graph).results.Perm g.results := perm.flatMap_right Node.results

theorem defines_permute {nodes : List Node} (perm : nodes.Perm g.nodes) (value : String) :
    ({ g with nodes } : Graph).defines value = g.defines value :=
  defines_congr (g := { g with nodes }) (h := g) rfl (fun _ => (results_permute perm).mem_iff) value

theorem seenIn_permute {nodes : List Node} (perm : nodes.Perm g.nodes) (visible : String → Prop) :
    ({ g with nodes } : Graph).seenIn visible = g.seenIn visible := by
  funext value
  rw [seenIn, seenIn, defines_permute perm]

theorem seenIn_putBody (g : Graph) (place : Nat) (key : String) (new : Graph)
    (visible : String → Prop) : (g.putBody place key new).seenIn visible = g.seenIn visible := by
  funext value
  simp [seenIn]

namespace Reordered

variable {visible : String → Prop}

theorem inputs (hr : Reordered g h) : h.inputs = g.inputs := by
  induction hr with
  | permute => rfl
  | inside => simp
  | trans _ _ ih₁ ih₂ => exact ih₂.trans ih₁

theorem outputs (hr : Reordered g h) : h.outputs = g.outputs := by
  induction hr with
  | permute => rfl
  | inside => simp
  | trans _ _ ih₁ ih₂ => exact ih₂.trans ih₁

theorem infos (hr : Reordered g h) : h.infos = g.infos := by
  induction hr with
  | permute => rfl
  | inside => simp
  | trans _ _ ih₁ ih₂ => exact ih₂.trans ih₁

theorem arity (hr : Reordered g h) : h.arity = g.arity := by
  rw [Graph.arity, Graph.arity, hr.inputs, hr.outputs]

theorem keyedTree (hr : Reordered g h) (hg : KeyedTree g) : KeyedTree h := by
  induction hr with
  | permute perm =>
      exact .intro (fun n hn => hg.here n (perm.mem_iff.1 hn))
        fun n hn body hbody => hg.body (perm.mem_iff.1 hn) hbody
  | @inside g old new place key body _ ih =>
      obtain ⟨n, hn, hold⟩ := body
      have hmem := List.mem_of_getElem? hn
      refine .intro (fun k hk => ?_) fun k hk body hbody => ?_
      · rcases (mem_nodes_putBody hn).1 hk with rfl | ⟨j, -, hj⟩
        · exact Node.keyed_rebodied.2 (hg.here n hmem)
        · exact hg.here k (List.mem_of_getElem? hj)
      · rcases (mem_nodes_putBody hn).1 hk with rfl | ⟨j, -, hj⟩
        · rcases (Node.mem_bodies_rebodied (hg.here n hmem) hold).1 hbody with rfl | ⟨hbody, -⟩
          · exact ih (hg.body hmem hold)
          · exact hg.body hmem hbody
        · exact hg.body (List.mem_of_getElem? hj) hbody
  | trans _ _ ih₁ ih₂ => exact ih₂ (ih₁ hg)

/-- A graph takes from outside what it took when lists had another order. -/
theorem outerReferences_subset (hr : Reordered g h) (hg : KeyedTree g) :
    h.outerReferences ⊆ g.outerReferences := by
  induction hr with
  | permute perm =>
      intro value hvalue
      obtain ⟨hdef, hused⟩ := mem_outerReferences_iff.1 hvalue
      rw [defines_permute perm] at hdef
      exact mem_outerReferences_iff.2 ⟨hdef, hused.imp id fun ⟨n, hn, hread⟩ =>
        ⟨n, perm.mem_iff.1 hn, hread⟩⟩
  | inside body _ ih =>
      refine outerReferences_putBody hg.here body (ih ?_)
      obtain ⟨n, hn, hold⟩ := body
      exact hg.body (List.mem_of_getElem? hn) hold
  | trans first _ ih₁ ih₂ => exact fun value hvalue => ih₁ hg (ih₂ (first.keyedTree hg) hvalue)

/-! ## Validity -/

private theorem scoped_permute {nodes : List Node} (perm : nodes.Perm g.nodes)
    (hg : Scoped visible g) (hkeyed : ∀ n ∈ g.nodes, n.Keyed) : Scoped visible { g with nodes } := by
  have hresults := results_permute perm
  have hseen := seenIn_permute perm visible
  refine
    { names := (perm.map Node.name).nodup_iff.2 hg.names
      results := hresults.nodup_iff.2 hg.results
      apart := fun value hvalue => hg.apart value (hresults.mem_iff.1 hvalue)
      newInputs := hg.newInputs
      newResults := fun value hvalue => hg.newResults value (hresults.mem_iff.1 hvalue)
      taken := fun n hn value hvalue hne => by
        rw [hseen]
        exact hg.taken n (perm.mem_iff.1 hn) value hvalue hne
      yielded := fun value hvalue => by
        rw [hseen]
        exact hg.yielded value hvalue
      ordered := ?_ }
  -- levels of values do not mention places
  obtain ⟨level, hlevel⟩ := (hg.orderly hkeyed).ascending
  exact exists_order level fun n hn read hread hresult value hvalue =>
    hlevel n (perm.mem_iff.1 hn) read hread (hresults.mem_iff.1 hresult) value hvalue

private theorem scoped_putBody {old new : Graph} {place : Nat} {key : String}
    (hbody : g.HasBody place key old) (houter : new.outerReferences ⊆ old.outerReferences)
    (hg : Scoped visible g) (hkeyed : ∀ n ∈ g.nodes, n.Keyed) :
    Scoped visible (g.putBody place key new) := by
  obtain ⟨n, hn, hold⟩ := hbody
  have hmem := List.mem_of_getElem? hn
  have hseen := seenIn_putBody g place key new visible
  refine
    { names := by
        rw [map_nodes_putBody fun _ => rfl]
        exact hg.names
      results := by simpa using hg.results
      apart := by simpa using hg.apart
      newInputs := by simpa using hg.newInputs
      newResults := by simpa using hg.newResults
      taken := fun k hk value hvalue hne => ?_
      yielded := fun value hvalue => by
        rw [hseen]
        exact hg.yielded value (by simpa using hvalue)
      ordered := ?_ }
  · rw [hseen]
    rcases (mem_nodes_putBody hn).1 hk with rfl | ⟨j, -, hj⟩
    · exact hg.taken n hmem value hvalue hne
    · exact hg.taken k (List.mem_of_getElem? hj) value hvalue hne
  · obtain ⟨level, hlevel⟩ := (hg.orderly hkeyed).ascending
    refine exists_order level fun k hk read hread hresult value hvalue => ?_
    rw [results_putBody] at hresult
    rcases (mem_nodes_putBody hn).1 hk with rfl | ⟨j, -, hj⟩
    · exact hlevel n hmem read (Node.reads_rebodied (hkeyed n hmem) hold houter hread) hresult value
        hvalue
    · exact hlevel k (List.mem_of_getElem? hj) read hread hresult value hvalue

theorem scopedTree (hr : Reordered g h) (hg : ScopedTree visible g) (hkeyed : KeyedTree g) :
    ScopedTree visible h := by
  induction hr generalizing visible with
  | permute perm =>
      refine .intro (scoped_permute perm hg.here hkeyed.here) fun n hn body hbody => ?_
      rw [seenIn_permute perm]
      exact hg.body (perm.mem_iff.1 hn) hbody
  | @inside g old new place key body below ih =>
      obtain ⟨n, hn, hold⟩ := id body
      have hmem := List.mem_of_getElem? hn
      refine .intro (scoped_putBody body (below.outerReferences_subset (hkeyed.body hmem hold)) hg.here
        hkeyed.here) fun k hk body hbody => ?_
      rw [seenIn_putBody]
      rcases (mem_nodes_putBody hn).1 hk with rfl | ⟨j, -, hj⟩
      · rcases (Node.mem_bodies_rebodied (hkeyed.here n hmem) hold).1 hbody with rfl | ⟨hbody, -⟩
        · exact ih (hg.body hmem hold) (hkeyed.body hmem hold)
        · exact hg.body hmem hbody
      · exact hg.body (List.mem_of_getElem? hj) hbody
  | trans first _ ih₁ ih₂ => exact ih₂ (ih₁ hg hkeyed) (first.keyedTree hkeyed)

theorem ruled (hr : Reordered g h) (hg : Ruled enclosing g) (hkeyed : KeyedTree g) :
    Ruled enclosing h := by
  induction hr generalizing enclosing with
  | permute perm =>
      cases hg with
      | intro here inside =>
          exact .intro (fun n hn => here n (perm.mem_iff.1 hn)) fun n hn body hbody =>
            (inside n (perm.mem_iff.1 hn) body hbody).congr rfl
  | @inside g old new place key body below ih =>
      obtain ⟨n, hn, hold⟩ := body
      have hmem := List.mem_of_getElem? hn
      have hnode := hkeyed.here n hmem
      cases hg with
      | intro here inside =>
          refine .intro (fun k hk => ?_) fun k hk body hbody => ?_
          · unfold transposeProblems
            rw [info?_congr (g := g) (by simp) rfl]
            rcases (mem_nodes_putBody hn).1 hk with rfl | ⟨j, -, hj⟩
            · refine ⟨(Node.sameInterface_rebodied hnode hold below.arity).equipped (here n hmem).1,
                fun hop => ?_⟩
              rw [Node.numbers?_rebodied hnode hold]
              exact (here n hmem).2 hop
            · exact here k (List.mem_of_getElem? hj)
          · have hruled : Ruled (g :: enclosing) body.2 := by
              rcases (mem_nodes_putBody hn).1 hk with rfl | ⟨j, -, hj⟩
              · rcases (Node.mem_bodies_rebodied hnode hold).1 hbody with rfl | ⟨hbody, -⟩
                · exact ih (inside n hmem _ hold) (hkeyed.body hmem hold)
                · exact inside n hmem body hbody
              · exact inside k (List.mem_of_getElem? hj) body hbody
            exact hruled.congr (by simp)
  | trans first _ ih₁ ih₂ => exact ih₂ (ih₁ hg hkeyed) (first.keyedTree hkeyed)

/-- A valid graph stays valid when node lists are put in another order. -/
theorem isValid (hr : Reordered g h) (hg : g.IsValid) (hkeyed : KeyedTree g) : h.IsValid := by
  obtain ⟨hscoped, hruled⟩ := isValid_iff.1 hg
  exact isValid_iff.2 ⟨hr.scopedTree hscoped hkeyed, hr.ruled hruled hkeyed⟩

end Reordered

end Graph

/-! ## What comes out -/

namespace Evaluation

variable {V : Type} [Operand V] {m : Machine V} {g h : Graph} {outer : Environment V}
  {feeds : String → Option V} {b : Bindings V}

/-- The equations of a graph do not mention the order of its nodes. -/
private theorem solves_permute_iff {nodes : List Node} (perm : nodes.Perm g.nodes) :
    Solves m { g with nodes } outer feeds b ↔ Solves m g outer feeds b := by
  have hdefines := defines_permute perm
  constructor
  · rintro ⟨hfed, hcomputed, honly⟩
    exact ⟨hfed, fun n hn => hcomputed n (perm.mem_iff.2 hn), fun name hname =>
      hdefines name ▸ honly name hname⟩
  · rintro ⟨hfed, hcomputed, honly⟩
    exact ⟨hfed, fun n hn => hcomputed n (perm.mem_iff.1 hn), fun name hname =>
      (hdefines name).symm ▸ honly name hname⟩

/-- A graph does what it did when node lists are put in another order. -/
theorem run_reordered (hm : m.Regular) (hr : Reordered g h) {visible : String → Prop}
    (hg : ScopedTree visible g) (hkeyed : KeyedTree g) (outer : Environment V)
    (feeds : String → Option V) :
    (run m h outer feeds).toOption = (run m g outer feeds).toOption := by
  induction hr generalizing visible outer feeds with
  | @permute g nodes perm =>
      have horderly := orderlyTree_of_scopedTree hg hkeyed
      have hreordered : Reordered g { g with nodes } := .permute perm
      have horderly' := orderlyTree_of_scopedTree (hreordered.scopedTree hg hkeyed)
        (hreordered.keyedTree hkeyed)
      refine Option.ext fun values => ?_
      rw [run_eq_some_iff_of_orderly (fun _ => id) horderly,
        run_eq_some_iff_of_orderly (fun _ => id) horderly']
      exact exists_congr fun b => and_congr_left' (solves_permute_iff perm)
  | @inside g old new place key body below ih =>
      have hreordered : Reordered g (g.putBody place key new) := .inside body below
      have horderly' := orderlyTree_of_scopedTree (hreordered.scopedTree hg hkeyed)
        (hreordered.keyedTree hkeyed)
      obtain ⟨n, hn, hold⟩ := id body
      have hmem := List.mem_of_getElem? hn
      refine run_congr_of_orderly (fun _ => id) (orderlyTree_of_scopedTree hg hkeyed) horderly' (by simp)
        (by simp) (fun b _ => ?_) fun b _ => ?_
      · exact yieldSame_putBody hm hkeyed.here body below.inputs (by rw [below.outputs]) fun feeds =>
          ih (hg.body hmem hold) (hkeyed.body hmem hold) _ feeds
      · rw [outputs_putBody]
        exact List.forall₂_same.2 fun _ _ => rfl
  | trans first _ ih₁ ih₂ =>
      exact (ih₂ (first.scopedTree hg hkeyed) (first.keyedTree hkeyed) outer feeds).trans
        (ih₁ hg hkeyed outer feeds)

/-- When node lists of a valid graph are put in another order, in the graph and in the bodies of its
tree, it stays valid, and neither whether it can be executed nor what comes out changes. -/
theorem execute_reordered (hm : m.Regular) (hr : Reordered g h) (hvalid : g.IsValid)
    (hkeyed : KeyedTree g) :
    h.IsValid ∧ ∀ feeds outputs, execute m h feeds = .ok outputs ↔ execute m g feeds = .ok outputs := by
  refine ⟨hr.isValid hvalid hkeyed, fun feeds outputs => ?_⟩
  unfold execute
  rw [← toOption_eq_some, ← toOption_eq_some, toOption_bind, toOption_bind,
    run_reordered hm hr hvalid.scopedTree hkeyed, hr.outputs]

/-- A branch whose nodes stand behind their readers. -/
def upended : Graph where
  outputs := ["last"]
  nodes := [
    { name := "hand", op := "Identity", inputs := ["clipped"], outputs := ["last"] },
    { name := "clip", op := "Relu", inputs := ["held"], outputs := ["clipped"] }]

/-- The branch in the order of computation. -/
def upright : Graph := { upended with nodes := upended.nodes.reverse }

/-- A graph whose nodes stand behind their readers, with such a branch. -/
def backward : Graph where
  inputs := ["condition", "x"]
  outputs := ["y"]
  nodes := [
    { name := "finish", op := "Relu", inputs := ["picked"], outputs := ["y"] },
    { name := "choose", op := "If", inputs := ["condition"], outputs := ["picked"]
      attributes := [("then_branch", .body upended), ("else_branch", .body upended)] },
    { name := "hold", op := "Relu", inputs := ["x"], outputs := ["held"] }]

/-- The graph in the order of computation, and with it the first branch. -/
def forward : Graph :=
  let inside := backward.putBody 1 "then_branch" upright
  { inside with nodes := inside.nodes.reverse }

theorem execute_reordered_backward :
    backward.IsValid ∧ KeyedTree backward ∧ Reordered backward forward ∧
      forward.nodes.map Node.name = ["hold", "choose", "finish"] ∧ forward.IsValid ∧
      ∀ feeds outputs, execute (.standard 8 : Machine (Value Float)) forward feeds = .ok outputs ↔
        execute (.standard 8 : Machine (Value Float)) backward feeds = .ok outputs := by
  have hvalid : backward.IsValid := by
    unfold IsValid
    decide +kernel
  have hbranch : KeyedTree upended :=
    .intro (by simp [upended, Node.Keyed]) (by simp [upended, Node.bodies, Attribute.body?])
  have hkeyed : KeyedTree backward := by
    have hbodies : backward.nodes.flatMap Node.bodies =
        [("then_branch", upended), ("else_branch", upended)] := rfl
    refine .intro (by simp [backward, Node.Keyed]) fun n hn body hbody => ?_
    have hmem := List.mem_flatMap.2 ⟨n, hn, hbody⟩
    simp only [hbodies, List.mem_cons, List.not_mem_nil, or_false] at hmem
    rcases hmem with rfl | rfl <;> exact hbranch
  have hslot : backward.HasBody 1 "then_branch" upended := ⟨_, rfl, .head _⟩
  have hreordered : Reordered backward forward :=
    .trans (.inside hslot (.permute (List.reverse_perm _))) (.permute (List.reverse_perm _))
  exact ⟨hvalid, hkeyed, hreordered, rfl,
    execute_reordered (Machine.standard_regular 8) hreordered hvalid hkeyed⟩

end Evaluation

end TensorGraph
