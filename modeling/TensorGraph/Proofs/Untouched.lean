import TensorGraph.Graph.Writer
import TensorGraph.Proofs.Settling

/-!
# What counts no change

A pass that counts no change has been given a settled tree, and so leaves it as it is. The converse
needs more: that no sequence of changes leads back to where it began. What a graph is written as
tells its operators and the values between them, in every graph of the tree, and with them the rank
of the tree. A change lowers the rank, so after one the graph is written otherwise.

## Main results

* `Graph.total_eq_of_toJsonIn` -- trees that are written alike have the same totals.
* `Rewriting.Run.eq_zero_of_toJson` -- no sequence of rewrites leads back to what was written.
* `Pass.untouched_iff` -- a pass counts no change exactly when it leaves the written form, and where
  a pipeline has converged none of its passes changes anything.
-/

namespace TensorGraph

open TensorGraph.Graph Rewriting

/-! ## What is written -/

private theorem map_str_injective {xs ys : List String} (h : xs.map Json.str = ys.map Json.str) :
    xs = ys :=
  List.map_injective_iff.2 (fun _ _ e => Json.str.inj e) h

namespace Node

variable {F G : String × Graph → Json}

/-- The attributes that are written tell how the bodies among them are written. -/
private theorem map_bodies_eq_of_attributes {as bs : List (String × Attribute)}
    (h : Attributes.toJson as ((as.filterMap fun (key, value) => value.body?.map (key, ·)).map F) =
      Attributes.toJson bs ((bs.filterMap fun (key, value) => value.body?.map (key, ·)).map G)) :
    (as.filterMap fun (key, value) => value.body?.map (key, ·)).map F =
      (bs.filterMap fun (key, value) => value.body?.map (key, ·)).map G := by
  induction as generalizing bs with
  | nil =>
      cases bs with
      | nil => rfl
      | cons entry rest =>
          obtain ⟨key, value⟩ := entry
          cases value <;> simp [Attributes.toJson, Attribute.body?] at h
  | cons entry rest ih =>
      obtain ⟨key, value⟩ := entry
      cases bs with
      | nil => cases value <;> simp [Attributes.toJson, Attribute.body?] at h
      | cons entry' rest' =>
          obtain ⟨key', value'⟩ := entry'
          cases value <;> cases value' <;>
            simp only [Attributes.toJson, List.filterMap_cons, Attribute.body?, Option.map_some,
              Option.map_none, List.map_cons, List.cons.injEq, Prod.mk.injEq, Json.obj.injEq,
              reduceCtorEq, and_false, false_and] at h ⊢
          -- what is left are attributes of one kind
          all_goals first
            | exact ih h.2
            | exact ⟨by simpa using h.1.2, ih h.2⟩
            | simp at h

/-- What is written of a node, its bookmarks and most attributes apart. -/
theorem eq_of_toJsonWith {n m : Node}
    (h : n.toJsonWith (n.bodies.map F) = m.toJsonWith (m.bodies.map G)) :
    n.name = m.name ∧ n.op = m.op ∧ n.inputs = m.inputs ∧ n.outputs = m.outputs ∧
      n.bodies.map F = m.bodies.map G := by
  unfold toJsonWith at h
  simp only [Json.obj.injEq, List.cons_append, List.nil_append, List.cons.injEq, Prod.mk.injEq,
    Json.str.injEq, Json.arr.injEq, true_and] at h
  obtain ⟨hname, hop, hinputs, houtputs, hattributes⟩ := h
  refine ⟨hname, hop, map_str_injective hinputs, map_str_injective houtputs,
    map_bodies_eq_of_attributes ?_⟩
  unfold bodies at hattributes
  split at hattributes <;> split at hattributes
  · rename_i hn hm
    rw [List.isEmpty_iff.1 hn, List.isEmpty_iff.1 hm]
  · cases hattributes
  · cases hattributes
  · simpa using hattributes

end Node

namespace Graph

variable {g h : Graph} {enclosing enclosing' : List Graph} {f : Graph → Nat}

/-- Graphs that are written alike have nodes that are written alike. -/
private theorem getElem?_of_toJsonIn (heq : g.toJsonIn enclosing = h.toJsonIn enclosing') (i : Nat) :
    g.nodes[i]?.map (fun n => n.toJsonWith (n.bodies.map fun body => body.2.toJsonIn (g :: enclosing))) =
      h.nodes[i]?.map fun n =>
        n.toJsonWith (n.bodies.map fun body => body.2.toJsonIn (h :: enclosing')) := by
  rw [toJsonIn_eq, toJsonIn_eq] at heq
  unfold toJsonWith at heq
  simp only [Json.obj.injEq, List.cons_append, List.nil_append, List.cons.injEq, Prod.mk.injEq,
    Json.arr.injEq, true_and] at heq
  simpa using congrArg (·[i]?) heq.2.2.2.1

private theorem length_of_toJsonIn (heq : g.toJsonIn enclosing = h.toJsonIn enclosing') :
    h.nodes.length = g.nodes.length := by
  have hiff : ∀ i, h.nodes.length ≤ i ↔ g.nodes.length ≤ i := fun i => by
    simpa using iff_of_eq (congrArg (· = none) (getElem?_of_toJsonIn heq i).symm)
  exact Nat.le_antisymm ((hiff _).2 (Nat.le_refl _)) ((hiff _).1 (Nat.le_refl _))

/-- And so every node of one has its like in the other. -/
private theorem mirrors_of_toJsonIn (heq : g.toJsonIn enclosing = h.toJsonIn enclosing') :
    Mirrors g h := by
  intro k hk
  obtain ⟨i, hi⟩ := List.mem_iff_getElem?.1 hk
  have hnodes := getElem?_of_toJsonIn heq i
  rw [hi, Option.map_some] at hnodes
  obtain ⟨n, hn, hsame⟩ := Option.map_eq_some_iff.1 hnodes
  obtain ⟨hname, hop, hinputs, houtputs, -⟩ := Node.eq_of_toJsonWith hsame
  refine ⟨n, List.mem_of_getElem? hn, hname, hop, ?_, fun _ _ hvalue => hinputs ▸ hvalue⟩
  unfold Node.results
  rw [houtputs]

/-- Trees that are written alike have the same totals. -/
theorem total_eq_of_toJsonIn (hf : Inward f) (heq : g.toJsonIn enclosing = h.toJsonIn enclosing') :
    h.total f = g.total f := by
  induction g using bodyInduction generalizing h enclosing enclosing' with
  | step g ih =>
      have hlength := length_of_toJsonIn heq
      rw [total_eq, total_eq,
        hf g h (mirrors_of_toJsonIn heq) (mirrors_of_toJsonIn heq.symm) hlength]
      congr 1
      unfold underneath
      refine congrArg List.sum (List.ext_getElem (by simpa using hlength) fun i hi hi' => ?_)
      rw [List.length_map] at hi hi'
      have hnodes := getElem?_of_toJsonIn heq i
      rw [List.getElem?_eq_getElem hi, List.getElem?_eq_getElem hi'] at hnodes
      obtain ⟨-, -, -, -, hbodies⟩ := Node.eq_of_toJsonWith (Option.some.inj hnodes)
      rw [List.getElem_map, List.getElem_map, Node.beneath, Node.beneath]
      refine congrArg List.sum (List.ext_getElem ?_ fun j hj hj' => ?_)
      · simpa using (congrArg List.length hbodies).symm
      · rw [List.length_map] at hj hj'
        have hbody := congrArg (·[j]?) hbodies
        simp only [List.getElem?_map, List.getElem?_eq_getElem hj, List.getElem?_eq_getElem hj',
          Option.map_some, Option.some.injEq] at hbody
        rw [List.getElem_map, List.getElem_map]
        exact ih _ (List.getElem_mem hi') _ (List.getElem_mem hj') hbody

/-- Trees that are written alike have the same rank. -/
theorem rank_eq_of_toJson (heq : h.toJson = g.toJson) (k : Nat) : h.rank k = g.rank k := by
  rw [rank, rank, total_eq_of_toJsonIn (inward_weight k) heq.symm,
    total_eq_of_toJsonIn inward_length heq.symm]

end Graph

/-- A run that ends in what is written as before has no rewrite in it. -/
theorem Rewriting.Run.eq_zero_of_toJson {g h : Graph} {count : Nat} (hr : Run .root g count h)
    (hg : TidyIn .root g) (heq : h.toJson = g.toJson) : count = 0 := by
  by_contra hcount
  have hlt := (hr.descends hg (Nat.le_refl _)).2.2 hcount
  rw [rank_eq_of_toJson heq] at hlt
  exact lt_irrefl _ hlt

/-! ## Passes -/

namespace Pass

variable {pass : Pass} {g : Graph} {number : Nat}

/-- A pass that counts no change leaves the graph as it is. -/
theorem eq_of_changes_eq_zero (hpass : pass ∈ registry) (hkeyed : KeyedTree g)
    (hnone : (pass.run .root number g).failure = none)
    (hzero : (pass.run .root number g).changes = .int 0) :
    pass.run .root number g = { graph := g } := by
  obtain ⟨visit, hvisit, hname⟩ := eq_ofVisit hpass
  rw [hname] at hnone hzero ⊢
  have hclean : (everyGraph visit .root g).Clean :=
    ⟨hnone, Int.ofNat.inj (Number.int.inj hzero)⟩
  exact settledAt_ofVisit pass.name hkeyed
    (settled_of_clean (honest_of_mem_treatments hvisit) hkeyed hclean) number

/-- A pass that leaves the written form of a graph counts no change. -/
theorem changes_eq_zero_of_toJson (hpass : pass ∈ registry) (hg : TidyIn .root g)
    (hnone : (pass.run .root number g).failure = none)
    (heq : (pass.run .root number g).graph.toJson = g.toJson) :
    (pass.run .root number g).changes = .int 0 := by
  obtain ⟨sweep, hfaithful, hrun⟩ := faithful_of_mem_registry hpass number hg
  rw [hrun] at hnone heq ⊢
  have hcount := (hfaithful.run hnone).eq_zero_of_toJson hg heq
  rw [hcount]
  rfl

/-- A pass that comes to its end counts no change exactly when the graph is written as before. And so,
where a pipeline of known passes has converged, each of them counts no change in what is left and
leaves it as it is. -/
theorem untouched_iff (hvalid : g.IsValid) (hkeyed : KeyedTree g) :
    (∀ pass ∈ registry, ∀ number, (pass.run .root number g).failure = none →
      ((pass.run .root number g).changes = .int 0 ↔
        (pass.run .root number g).graph.toJson = g.toJson)) ∧
    ∀ p : Pipeline, (∀ pass ∈ p.passes, pass ∈ registry) → (p.run g).converged = true →
      ∀ pass ∈ p.passes, ∀ number,
        pass.run .root number (p.run g).graph = { graph := (p.run g).graph } := by
  have hg := hvalid.tidyIn hkeyed
  refine ⟨fun pass hpass number hnone => ⟨fun hzero => ?_, ?_⟩, fun p hpasses hconverged => ?_⟩
  · rw [eq_of_changes_eq_zero hpass hkeyed hnone hzero]
  · exact changes_eq_zero_of_toJson hpass hg hnone
  · obtain ⟨htidy, hsettled⟩ := Pipeline.settled_of_converged hpasses p.limit p.limit
      { graph := g, tally := Tally.start p.passNames } hg rfl rfl hconverged
    intro pass hpass
    obtain ⟨visit, -, hvisit, hleft⟩ := hsettled pass hpass
    rw [hvisit]
    exact settledAt_ofVisit pass.name htidy.tree.keyedTree hleft

/-- In the graph `thereAndBack` two transpositions cancel, and there is no identity before that. -/
theorem untouched_iff_thereAndBack :
    Pipeline.thereAndBack.IsValid ∧ KeyedTree Pipeline.thereAndBack ∧
    (transpose.run .root 0 Pipeline.thereAndBack).failure = none ∧
    (transpose.run .root 0 Pipeline.thereAndBack).graph.toJson ≠ Pipeline.thereAndBack.toJson ∧
    (identity.run .root 0 Pipeline.thereAndBack).failure = none ∧
    (identity.run .root 0 Pipeline.thereAndBack).graph.toJson = Pipeline.thereAndBack.toJson ∧
    ∃ left, ((⟨[transpose, identity], 8⟩ : Pipeline).run Pipeline.thereAndBack).graph = left ∧
      transpose.run .root 2 left = { graph := left } ∧
      identity.run .root 2 left = { graph := left } := by
  have hvalid : Pipeline.thereAndBack.IsValid := by
    unfold IsValid
    decide +kernel
  have hkeyed : KeyedTree Pipeline.thereAndBack := by
    refine .intro ?_ ?_
    · simp [Pipeline.thereAndBack, Node.Keyed]
    · simp [Pipeline.thereAndBack, Node.bodies, Attribute.body?]
  have hturned : (transpose.run .root 0 Pipeline.thereAndBack).failure = none ∧
      (transpose.run .root 0 Pipeline.thereAndBack).changes ≠ .int 0 := by decide +kernel
  have hkept : (identity.run .root 0 Pipeline.thereAndBack).failure = none ∧
      (identity.run .root 0 Pipeline.thereAndBack).changes = .int 0 := by decide +kernel
  have hconverged :
      ((⟨[transpose, identity], 8⟩ : Pipeline).run Pipeline.thereAndBack).converged = true := by
    decide +kernel
  obtain ⟨hcounts, hfixpoint⟩ := untouched_iff hvalid hkeyed
  have hleft := hfixpoint ⟨[transpose, identity], 8⟩ (by simp [registry]) hconverged
  refine ⟨hvalid, hkeyed, hturned.1, ?_, hkept.1, ?_, _, rfl, ?_, ?_⟩
  · exact fun heq =>
      hturned.2 ((hcounts transpose (by simp [registry]) 0 hturned.1).2 heq)
  · exact (hcounts identity (by simp [registry]) 0 hkept.1).1 hkept.2
  · exact hleft transpose (by simp) 2
  · exact hleft identity (by simp) 2

end Pass

end TensorGraph
