import TensorGraph.Proofs.CopiedPasses

/-!
# Optimizing twice

What is optimized a second time is a copy of the first result. A copy of a settled tree is settled, so
once a pipeline has converged there is nothing left to do in the copy.

## Main results

* `Optimizer.optimize_idempotent` -- optimizing a converged result again changes nothing.
-/

namespace TensorGraph

open TensorGraph.Graph Rewriting

/-- Every pass that is known by name has a place in a tally. -/
private theorem lookup_start {passes : List Pass} (hpasses : ∀ pass ∈ passes, pass ∈ Pass.registry)
    {pass : Pass} (hpass : pass ∈ passes) :
    (Tally.start (passes.map Pass.name)).lookup pass.name = some (.int 0) := by
  have hkeeps : ∀ pass ∈ Pass.registry, Inherited.keeps pass.name = true := by decide
  have hlookup : ∀ names : List String, pass.name ∈ names →
      (names.map (·, Number.int 0)).lookup pass.name = some (.int 0) := by
    intro names
    induction names with
    | nil => simp
    | cons name rest ih =>
        intro hmem
        rw [List.map_cons, List.lookup_cons]
        split
        · rfl
        · rename_i hne
          exact ih ((List.mem_cons.1 hmem).resolve_left (by simpa using hne))
  refine hlookup _ (List.mem_eraseDups.2 (List.mem_filter.2 ⟨List.mem_map_of_mem hpass, ?_⟩))
  exact hkeeps pass (hpasses pass hpass)

namespace Optimizer

variable {environment environment' : List (String × String)} {request request' : Request}
  {p p' : Pipeline} {g : Graph}

theorem limit_pos (h : pipeline environment request = .ok p) : 0 < p.limit := by
  unfold pipeline at h
  obtain ⟨settings, -, h⟩ := bind_eq_ok h
  split at h <;>
  · obtain ⟨passes, -, h⟩ := bind_eq_ok h
    obtain ⟨limit, -, h⟩ := bind_eq_ok h
    exact (Pipeline.make_ok h).1

/-- What an optimization that gives a result has done. -/
theorem optimize_ok {first : Optimized} (hp : pipeline environment request = .ok p)
    (h : (optimize environment request g).2 = .ok first) :
    g.IsValid ∧ (p.run g.clone).failure = none ∧ (p.run g.clone).graph.IsValid ∧
      first.graph = (p.run g.clone).graph ∧ first.converged = (p.run g.clone).converged := by
  unfold optimize at h
  rw [hp] at h
  cases hvalid : g.assertValid with
  | error cause =>
      rw [hvalid] at h
      cases h
  | ok _ =>
      rw [hvalid] at h
      simp only [conclude] at h
      split at h
      · cases h
      · rename_i hnone
        split at h
        · rename_i hissues
          cases h
          exact ⟨assertValid_eq_ok_iff.1 hvalid, hnone, List.isEmpty_iff.1 hissues, rfl, rfl⟩
        · cases h

/-- Optimizing a valid graph gives a result if no pass fails and what they leave is valid. -/
theorem optimize_eq_ok (hp : pipeline environment request = .ok p) (hvalid : g.IsValid)
    (hnone : (p.run g.clone).failure = none) (hresult : (p.run g.clone).graph.IsValid) :
    ∃ second, (optimize environment request g).2 = .ok second ∧
      second.graph = (p.run g.clone).graph ∧ second.converged = (p.run g.clone).converged ∧
      second.iterations = (p.run g.clone).iterations ∧ second.tally = (p.run g.clone).tally := by
  unfold optimize
  rw [hp, assertValid_eq_ok_iff.2 hvalid]
  simp only [conclude, hnone]
  rw [if_pos (List.isEmpty_iff.2 hresult)]
  exact ⟨_, rfl, rfl, rfl, rfl, rfl⟩

/-- Optimizing is idempotent once it has converged: when the result is optimized again with the same
passes, with whichever limit, the first sweep is clean, every pass counts no change, and the graph is
written as before. -/
theorem optimize_idempotent {first : Optimized} (hkeyed : KeyedTree g)
    (hp : pipeline environment request = .ok p) (hp' : pipeline environment' request' = .ok p')
    (hsame : p'.passes = p.passes) (hpasses : ∀ pass ∈ p.passes, pass ∈ Pass.registry)
    (hfirst : (optimize environment request g).2 = .ok first) (hconverged : first.converged = true) :
    ∃ second, (optimize environment' request' first.graph).2 = .ok second ∧
      second.converged = true ∧ second.iterations = 1 ∧
      (∀ pass ∈ p.passes, second.tally.lookup pass.name = some (.int 0)) ∧
      (∀ entry ∈ second.tally, entry.2 = .int 0) ∧
      second.graph.toJson = first.graph.toJson := by
  obtain ⟨hvalid, hnone, hresult, hgraph, hrun⟩ := optimize_ok hp hfirst
  obtain ⟨htidy, hsettled⟩ := Pipeline.settled_of_converged hpasses p.limit p.limit
    { graph := g.clone, tally := Tally.start p.passNames }
    ((isValid_clone hvalid).tidyIn (keyedTree_clone hkeyed)) rfl rfl (hrun.symm.trans hconverged)
  change TidyIn .root (p.run g.clone).graph at htidy
  change ∀ pass ∈ p.passes, ∃ visit ∈ Pass.treatments, pass = Pass.ofVisit pass.name visit ∧
    Settled visit .root (p.run g.clone).graph at hsettled
  rw [← hgraph] at htidy hsettled hresult
  have hcopies : ∀ pass ∈ p'.passes, pass.SettledAt first.graph.clone := by
    intro pass hpass
    have hpass := hsame ▸ hpass
    obtain ⟨visit, -, hvisit, hsettled⟩ := hsettled pass hpass
    have hkeyed := htidy.tree.keyedTree
    refine (Pass.SettledAt.clone (hpasses pass hpass) hresult hkeyed ?_)
    rw [hvisit]
    exact Pass.settledAt_ofVisit pass.name hkeyed hsettled
  obtain ⟨hgraph', hconverged', hiterations, htally, hnone'⟩ :=
    Pipeline.run_of_settled (limit_pos hp') hcopies
  obtain ⟨second, hsecond, hgraph₂, hconverged₂, hiterations₂, htally₂⟩ :=
    optimize_eq_ok hp' hresult hnone' (hgraph'.symm ▸ isValid_clone hresult)
  refine ⟨second, hsecond, hconverged₂.trans hconverged', hiterations₂.trans hiterations, ?_, ?_, ?_⟩
  · intro pass hpass
    rw [htally₂, htally, Pipeline.passNames, hsame]
    exact lookup_start hpasses hpass
  · intro entry hentry
    rw [htally₂, htally] at hentry
    obtain ⟨name, -, rfl⟩ := List.mem_map.1 hentry
    rfl
  · rw [hgraph₂, hgraph']
    exact toJson_clone hresult

/-- What is asked for, first with many sweeps and then with one. -/
def tidyRequest (limit : Int) : Request where
  passNames := some ["transpose", "dead-nodes"]
  maxIterations := some (.number (.int limit))

theorem optimize_idempotent_thereAndBack :
    KeyedTree Pipeline.thereAndBack ∧ ∃ first second,
      (optimize [] (tidyRequest 8) Pipeline.thereAndBack).2 = .ok first ∧ first.converged = true ∧
      first.iterations = 2 ∧ (optimize [] (tidyRequest 1) first.graph).2 = .ok second ∧
      second.converged = true ∧ second.iterations = 1 ∧
      second.graph.toJson = first.graph.toJson := by
  have hpipeline : ∀ limit ∈ [1, 8], ∃ n, pipeline [] (tidyRequest limit) =
      .ok ⟨[Pass.transpose, Pass.deadNodes], n⟩ := by
    intro limit hlimit
    simp only [List.mem_cons, List.not_mem_nil, or_false] at hlimit
    rcases hlimit with rfl | rfl
    · exact ⟨1, rfl⟩
    · exact ⟨8, rfl⟩
  have hresult : ((optimize [] (tidyRequest 8) Pipeline.thereAndBack).2.map fun first =>
      (first.converged, first.iterations)).toOption = some (true, 2) := by
    decide +kernel
  obtain ⟨n, hp⟩ := hpipeline 8 (by simp)
  obtain ⟨m, hp'⟩ := hpipeline 1 (by simp)
  have hkeyed : KeyedTree Pipeline.thereAndBack := by
    refine .intro ?_ ?_
    · simp [Pipeline.thereAndBack, Node.Keyed]
    · simp [Pipeline.thereAndBack, Node.bodies, Attribute.body?]
  cases hfirst : (optimize [] (tidyRequest 8) Pipeline.thereAndBack).2 with
  | error cause => simp [hfirst, Except.map, Except.toOption] at hresult
  | ok first =>
      rw [hfirst] at hresult
      obtain ⟨hconverged, hiterations⟩ : first.converged = true ∧ first.iterations = 2 := by
        simpa [Except.map, Except.toOption] using hresult
      obtain ⟨second, hsecond, hagain, honce, -, -, hsame⟩ := optimize_idempotent hkeyed hp hp' rfl
        (by simp [Pass.registry]) hfirst hconverged
      exact ⟨hkeyed, first, second, rfl, hconverged, hiterations, hsecond, hagain, honce, hsame⟩

end Optimizer

end TensorGraph
