import TensorGraph.Proofs.Exchanging

/-!
# Well-formed bodies

What is done to a graph reaches into its bodies in two ways: a name that they take from outside is
replaced by another one, and a body is replaced by another body. Either way a tree of well-formed
graphs stays one.

## Main results

* `Graph.WellformedTree.narrow` -- a tree needs no more around it than it takes from outside.
* `Graph.WellformedTree.substituteOuter` -- a tree stays well formed under a substitution.
* `Graph.WellformedTree.replaceReads` -- and when its nodes read others of the values offered.
* `Graph.WellformedTree.putBody_offered` -- and when one of its bodies is replaced by another that
  takes only what is offered to it.
-/

namespace TensorGraph

/-! ## Operators that own bodies -/

/-- How many values a graph takes and yields. -/
def Graph.arity (g : Graph) : Nat × Nat := (g.inputs.length, g.outputs.length)

@[simp] theorem Graph.arity_substituteOuter (old new : String) (g : Graph) :
    (g.substituteOuter old new).arity = g.arity := by
  simp [arity]

namespace Node

/-- Two nodes with the same interface: one operator, as many values on both sides, and bodies of
the same arities under the same keys. -/
structure SameInterface (n k : Node) : Prop where
  name : k.name = n.name
  op : k.op = n.op
  inputs : k.inputs.length = n.inputs.length
  outputs : k.outputs.length = n.outputs.length
  bodies : ∀ key, (k.body? key).map Graph.arity = (n.body? key).map Graph.arity

theorem SameInterface.refl (n : Node) : n.SameInterface n := ⟨rfl, rfl, rfl, rfl, fun _ => rfl⟩

theorem SameInterface.trans {n m k : Node} (h₁ : n.SameInterface m) (h₂ : m.SameInterface k) :
    n.SameInterface k :=
  ⟨h₂.name.trans h₁.name, h₂.op.trans h₁.op, h₂.inputs.trans h₁.inputs,
    h₂.outputs.trans h₁.outputs, fun key => (h₂.bodies key).trans (h₁.bodies key)⟩

private theorem loopProblems_eq_nil {n k : Node} (h : n.SameInterface k)
    (hn : Graph.loopProblems n = []) : Graph.loopProblems k = [] := by
  have hbody := h.bodies "body"
  unfold Graph.loopProblems at hn ⊢
  cases hfound : n.body? "body" with
  | none => simp [hfound] at hn
  | some body =>
      rw [hfound] at hn hbody
      obtain ⟨body', hfound', harity⟩ := Option.map_eq_some_iff.1 hbody
      obtain ⟨hin, hout⟩ := Prod.mk.inj harity
      simpa only [hfound', h.name, h.inputs, h.outputs, hin, hout] using hn

private theorem branchProblems_eq_nil {n k : Node} (h : n.SameInterface k)
    (hn : Graph.branchProblems n = []) : Graph.branchProblems k = [] := by
  have hnone (key : String) : (k.body? key).isNone = (n.body? key).isNone := by
    rw [← Option.isNone_map (f := Graph.arity), h.bodies key, Option.isNone_map]
  unfold Graph.branchProblems at hn ⊢
  simpa only [hnone, h.name] using hn

/-- A node has the bodies that it needs if a node of the same interface has. -/
theorem SameInterface.equipped {n k : Node} (h : n.SameInterface k) (hn : Graph.Equipped n) :
    Graph.Equipped k :=
  ⟨fun hop => loopProblems_eq_nil h (hn.1 (h.op ▸ hop)),
    fun hop => branchProblems_eq_nil h (hn.2 (h.op ▸ hop))⟩

theorem sameInterface_replaceReads (n : Node) (old new : String) :
    n.SameInterface (n.replaceReads old new) := by
  by_cases hread : old ∈ n.reads
  · rw [replaceReads_of_mem hread]
    refine ⟨rfl, rfl, by simp, rfl, fun key => ?_⟩
    unfold body? attribute?
    simp only [Attributes.lookup_mapBody]
    cases n.attributes.lookup key with
    | none => rfl
    | some value => cases value <;> simp [Attribute.mapBody, Attribute.body?]
  · rw [replaceReads_of_not_mem new hread]
    exact .refl n

/-- A body is found under its key. -/
theorem body?_eq_some {n : Node} (hn : n.Keyed) {key : String} {body : Graph} :
    n.body? key = some body ↔ (key, body) ∈ n.bodies := by
  rw [mem_bodies]
  unfold Keyed at hn
  unfold body? attribute?
  generalize n.attributes = attributes at hn
  induction attributes with
  | nil => simp
  | cons entry rest ih =>
      obtain ⟨first, value⟩ := entry
      rw [List.map_cons, List.nodup_cons] at hn
      by_cases hkey : key = first
      · subst hkey
        have hnot : (key, Attribute.body body) ∉ rest := fun hmem =>
          hn.1 (List.mem_map.2 ⟨_, hmem, rfl⟩)
        cases value <;> simp [Attribute.body?, hnot, eq_comm]
      · rw [List.lookup_cons, beq_false_of_ne hkey]
        simpa [hkey] using ih hn.2

theorem sameInterface_rebodied {n : Node} (hn : n.Keyed) {key : String} {old new : Graph}
    (hold : (key, old) ∈ n.bodies) (harity : new.arity = old.arity) :
    n.SameInterface (n.rebodied key new) := by
  refine ⟨rfl, rfl, rfl, rfl, fun other => ?_⟩
  have hkeyed : (n.rebodied key new).Keyed := keyed_rebodied.2 hn
  by_cases hother : other = key
  · have hnew : (key, new) ∈ (n.rebodied key new).bodies :=
      (mem_bodies_rebodied hn hold).2 (.inl rfl)
    rw [hother, (body?_eq_some hkeyed).2 hnew, (body?_eq_some hn).2 hold, Option.map_some,
      Option.map_some, harity]
  · congr 1
    refine Option.ext fun body => ?_
    rw [body?_eq_some hkeyed, body?_eq_some hn, mem_bodies_rebodied hn hold]
    simp [hother]

end Node

/-- A node reads no more when one of its bodies takes no more from outside. -/
theorem Node.reads_rebodied {n : Node} (hn : n.Keyed) {key : String} {old new : Graph}
    (hold : (key, old) ∈ n.bodies) (houter : new.outerReferences ⊆ old.outerReferences) :
    (n.rebodied key new).reads ⊆ n.reads :=
  fun _ => mem_reads_of_rebodied hn hold (houter ·)

/-- What all nodes keep when one of them gets another body. -/
theorem Graph.map_nodes_putBody {α : Type} {g : Graph} {key : String} {new : Graph} {f : Node → α}
    (hf : ∀ n, f (n.rebodied key new) = f n) (place : Nat) :
    (g.putBody place key new).nodes.map f = g.nodes.map f := by
  cases hn : g.nodes[place]? with
  | none => simp [putBody, hn]
  | some n => rw [putBody_eq hn, map_nodes_putNode hn (hf n)]

@[simp] theorem Graph.results_putBody {g : Graph} {place : Nat} {key : String} {new : Graph} :
    (g.putBody place key new).results = g.results := by
  unfold results
  rw [List.flatMap_def, List.flatMap_def, map_nodes_putBody fun _ => Node.results_rebodied]

/-- Only what a new body takes from outside can be taken from outside in addition. -/
theorem Graph.mem_outerReferences_putBody {g : Graph} (hkeyed : ∀ n ∈ g.nodes, n.Keyed) {place : Nat}
    {key name : String} {old new : Graph} (hbody : g.HasBody place key old)
    (hname : name ∈ (g.putBody place key new).outerReferences) :
    name ∈ g.outerReferences ∨ name ∈ new.outerReferences ∧ name ∉ old.outerReferences := by
  obtain ⟨n, hn, hold⟩ := hbody
  have hmem := List.mem_of_getElem? hn
  rw [putBody_eq hn] at hname
  rcases mem_outerReferences_putNode hn Node.results_rebodied hname with hbefore | ⟨hdef, hread⟩
  · exact .inl hbefore
  · by_cases hbefore : name ∈ n.reads
    · exact .inl (mem_outerReferences_iff.2 ⟨hdef, .inr ⟨n, hmem, hbefore⟩⟩)
    · refine .inr ⟨?_, fun houter => hbefore (Node.mem_reads.2 (.inr ⟨_, hold, houter⟩))⟩
      by_contra hnot
      exact hbefore (Node.mem_reads_of_rebodied (hkeyed n hmem) hold (absurd · hnot) hread)

/-- A graph takes no more from outside when one of its bodies does not. -/
theorem Graph.outerReferences_putBody {g : Graph} (hkeyed : ∀ n ∈ g.nodes, n.Keyed) {place : Nat}
    {key : String} {old new : Graph} (hbody : g.HasBody place key old)
    (houter : new.outerReferences ⊆ old.outerReferences) :
    (g.putBody place key new).outerReferences ⊆ g.outerReferences := fun _ hname =>
  (mem_outerReferences_putBody hkeyed hbody hname).elim id fun hnew =>
    absurd (houter hnew.1) hnew.2

namespace Graph.WellformedTree

variable {visible visible' : String → Prop} {g : Graph}

/-- A tree needs no more around it than it takes from outside. -/
theorem narrow (h : WellformedTree visible g) (hsub : ∀ value, visible' value → visible value)
    (htaken : ∀ value ∈ g.outerReferences, visible' value) : WellformedTree visible' g := by
  induction h generalizing visible' with
  | @intro visible g here inside ih =>
      have htree : WellformedTree visible g := .intro here inside
      have hseen (value : String) (hused : g.Uses value) : g.seenIn visible' value := by
        cases hdef : g.defines value with
        | true => exact .inr hdef
        | false => exact .inl (htaken value (mem_outerReferences_iff.2 ⟨hdef, hused⟩))
      refine .intro { here with
        newInputs := ?_, newResults := ?_, taken := ?_, yielded := ?_, unseen := ?_ } ?_
      · exact fun value hvalue hvisible => here.newInputs value hvalue (hsub value hvisible)
      · exact fun value hvalue hvisible => here.newResults value hvalue (hsub value hvisible)
      · exact fun n hn value hvalue hne =>
          hseen value (.inr ⟨n, hn, Node.mem_reads.2 (.inl ⟨hvalue, hne⟩)⟩)
      · exact fun value hvalue => hseen value (.inl ⟨hvalue, here.ne_empty_of_mem_outputs hvalue⟩)
      · exact fun hvisible => here.unseen (hsub "" hvisible)
      · intro n hn body hbody
        refine ih n hn body hbody (fun value => Or.imp_left (hsub value)) fun value hvalue => ?_
        exact hseen value (.inr ⟨n, hn, Node.mem_reads.2 (.inr ⟨body, hbody, hvalue⟩)⟩)

/-- The bodies of a node after a substitution are well formed if those before it are, and stay so
under the substitution. -/
theorem bodies_replaceReads {n : Node} {old new : String}
    (hbodies : ∀ body ∈ n.bodies, WellformedTree visible body.2 ∧
      WellformedTree visible (body.2.substituteOuter old new))
    {body : String × Graph} (hbody : body ∈ (n.replaceReads old new).bodies) :
    WellformedTree visible body.2 := by
  obtain ⟨before, hbefore, -, hsame | ⟨-, hsame⟩⟩ := mem_bodies_replaceReads hbody
  · exact hsame ▸ (hbodies before hbefore).1
  · exact hsame ▸ (hbodies before hbefore).2

/-- A tree stays well formed when the readers of a name in its root read another one that is seen
there. What is yielded in the root may only be read where it was needed before. -/
theorem replaceReads (hg : WellformedTree visible g) {h : Graph} {old new : String}
    (hinputs : h.inputs = g.inputs) (hnodes : h.nodes = g.nodes.map (Node.replaceReads old new))
    (houtputs : ∀ value ∈ h.outputs, value = new ∨ value ∈ g.outputs) (hseen : g.seenIn visible new)
    (hbelow : new ∈ g.results → ∃ n ∈ g.nodes, new ∈ n.reads ∧ old ∈ n.results)
    (hbodies : ∀ n ∈ g.nodes, ∀ body ∈ n.bodies,
      WellformedTree (g.seenIn visible) (body.2.substituteOuter old new)) :
    WellformedTree visible h := by
  have here := hg.here
  have hresults : h.results = g.results := by
    unfold results
    rw [hnodes, results_map_replaceReads]
  have hscope : h.seenIn visible = g.seenIn visible := by
    funext value
    rw [seenIn, seenIn, defines_congr hinputs (fun _ => by rw [hresults])]
  have hread {m : Node} {value : String} (hvalue : value ∈ (m.replaceReads old new).reads) :
      value = new ∧ old ∈ m.reads ∨ value ∈ m.reads :=
    (Node.mem_reads_replaceReads hvalue).imp_right And.left
  refine .intro
    { names := ?_, results := hresults ▸ here.results, apart := ?_, newInputs := ?_,
      newResults := hresults ▸ here.newResults, taken := ?_, yielded := ?_, ordered := ?_,
      keyed := ?_, named := hinputs ▸ here.named, unseen := here.unseen, equipped := ?_ } ?_
  · rw [hnodes, List.map_map]
    simpa [Function.comp_def] using here.names
  · rw [hresults, hinputs]
    exact here.apart
  · rw [hinputs]
    exact here.newInputs
  · rw [hscope, hnodes, List.forall_mem_map]
    intro m hm value hvalue hne
    rcases hread (Node.mem_reads.2 (.inl ⟨hvalue, hne⟩)) with ⟨rfl, -⟩ | hmem
    · exact hseen
    · exact hg.seenIn_of_uses (.inr ⟨m, hm, hmem⟩)
  · rw [hscope]
    intro value hvalue
    rcases houtputs value hvalue with rfl | hmem
    · exact hseen
    · exact here.yielded value hmem
  · -- what the new name stands for lies below what is yielded where the old one was read
    obtain ⟨level, hlevel⟩ := here.exists_ascending
    refine exists_order level ?_
    unfold Ascending
    rw [hnodes, hresults, List.forall_mem_map]
    intro m hm read hmem hresult value hvalue
    rw [Node.results_replaceReads] at hvalue
    rcases hread hmem with ⟨rfl, hbefore⟩ | hmem
    · obtain ⟨n, hn, hnew, hold⟩ := hbelow hresult
      calc level read < level old := hlevel n hn read hnew hresult old hold
        _ < level value := hlevel m hm old hbefore (mem_results.2 ⟨n, hn, hold⟩) value hvalue
    · exact hlevel m hm read hmem hresult value hvalue
  · rw [hnodes]
    exact keyed_map_replaceReads here.keyed old new
  · rw [hnodes, List.forall_mem_map]
    exact fun m hm => (m.sameInterface_replaceReads old new).equipped (here.equipped m hm)
  · rw [hscope, hnodes, List.forall_mem_map]
    exact fun m hm body hbody => bodies_replaceReads (fun before hbefore =>
      ⟨hg.body hm hbefore, hbodies m hm before hbefore⟩) hbody

/-- A tree stays well formed when a name that it takes from outside is replaced by another one. -/
theorem substituteOuter (h : WellformedTree visible g) {old new : String} (hnew : visible new) :
    WellformedTree visible (g.substituteOuter old new) := by
  induction h with
  | @intro visible g here inside ih =>
      have htree : WellformedTree visible g := .intro here inside
      by_cases hold : g.defines old = true
      · rw [substituteOuter_eq, if_pos hold]
        exact htree
      rw [substituteOuter_eq, if_neg hold]
      refine htree.replaceReads rfl rfl (fun value hvalue => ?_) (.inl hnew)
        (fun hresult => absurd hnew (here.newResults new hresult))
        fun m hm body hbody => ih m hm body hbody (.inl hnew)
      exact (mem_map_substituteName hvalue).imp And.left And.left

/-- A tree stays well formed when a body of its root is replaced by one that takes from outside only
what the old one took, or what the host may begin to read. -/
theorem putBody_offered (h : WellformedTree visible g) {place : Nat} {key : String} {old new : Graph}
    (hbody : g.HasBody place key old) (hnew : WellformedTree (g.seenIn visible) new)
    (harity : new.arity = old.arity)
    (houter : ∀ value ∈ new.outerReferences,
      value ∈ old.outerReferences ∨ g.Offers visible place value) :
    WellformedTree visible (g.putBody place key new) := by
  obtain ⟨n, hn, hold⟩ := hbody
  have hmem := List.mem_of_getElem? hn
  have hkeyed := h.here.keyed n hmem
  rw [putBody_eq hn]
  refine WellformedTree.putNode h hn rfl Node.results_rebodied (Node.keyed_rebodied.2 hkeyed)
    ((Node.sameInterface_rebodied hkeyed hold harity).equipped (h.here.equipped n hmem))
    (fun value hread => ?_) fun body hbody => ?_
  · by_cases hoffered : g.Offers visible place value
    · exact .inr hoffered
    · exact .inl (Node.mem_reads_of_rebodied hkeyed hold
        (fun hvalue => (houter value hvalue).resolve_right hoffered) hread)
  · rcases (Node.mem_bodies_rebodied hkeyed hold).1 hbody with rfl | ⟨hbody, -⟩
    · exact hnew
    · exact h.body hmem hbody

/-- A tree stays well formed when a body of its root is replaced by one that takes no more from
around it. -/
theorem putBody (h : WellformedTree visible g) {place : Nat} {key : String} {old new : Graph}
    (hbody : g.HasBody place key old) (hnew : WellformedTree (g.seenIn visible) new)
    (harity : new.arity = old.arity) (houter : new.outerReferences ⊆ old.outerReferences) :
    WellformedTree visible (g.putBody place key new) :=
  putBody_offered h hbody hnew harity fun _ hvalue => .inl (houter hvalue)

end Graph.WellformedTree

end TensorGraph
