import TensorGraph.Proofs.Sheltering
import TensorGraph.Proofs.Sorting

/-!
# Treating transpositions twice

In a graph whose transpositions have been treated no rule fits any more, in whatever order its nodes
are put and whatever nodes there are around it. What is known around it still counts: bodies are
treated before the graph they stand in, and rules may change there what the bodies have relied on. So
a tree stays at rest after one treatment if its bodies are sheltered from such rules.

## Main results

* `Transposes.sweepGraph_settles` -- a graph that has been treated is left as it is.
* `Transposes.settled_everyGraph` -- so is a tree with sheltered bodies.
* `Pass.transpose_idempotent` -- a second run of the pass applies no rule to such a tree.
* `Pass.not_transpose_idempotent` -- it may where a body reads what rules touch around it.
-/

namespace TensorGraph

open TensorGraph.Graph Rewriting

namespace Transposes

variable {taken : String → Prop} {s : Surroundings} {g h : Graph}

/-! ## Graphs with the same nodes -/

/-- When no rule fits a graph, none fits it with its nodes in order. -/
theorem step_inOrder {order : List Nat} (hg : Tidy taken g) (horder : g.topologicalOrder = .ok order)
    (h : step s g = .ok none) : step s (g.inOrder order) = .ok none := by
  have hperm := nodesAt_perm horder
  have hsame : Resembling s g s (g.inOrder order) id id :=
    .of_same (fun _ => hperm.mem_iff) rfl (hg.producer?_sorted horder) fun _ _ _ _ _ => rfl
  exact step_eq_none_iff.2 ⟨hg.exists_order_sorted horder, fun _ _ hn =>
    hsame.treat_eq_none hg.names ((hperm.map Node.name).nodup_iff.2 hg.names)
      (step_eq_none_iff.1 h).2 hn⟩

/-- A graph whose transpositions have been treated is left as it is. -/
theorem sweepGraph_settles (hg : TidyIn s g) (hnone : (sweepGraph s g).failure = none) :
    sweepGraph s (sweepGraph s g).graph = { graph := (sweepGraph s g).graph } := by
  refine sweepGraph_of_eq_none ?_
  unfold sweepGraph at hnone ⊢
  simp only at hnone ⊢
  split at hnone
  · rename_i hdone
    rw [if_pos hdone]
    exact Sweep.untilClean_eq_none hnone
  · rename_i hdone
    rw [if_neg hdone]
    simp only [Bool.or_eq_true, Bool.not_eq_true, not_or, Option.isSome_eq_false_iff,
      Option.isNone_iff_eq_none] at hdone
    split at hnone
    · rename_i sorted hsorted
      obtain ⟨order, horder, rfl⟩ := sortTopologically_eq_ok_iff.1 hsorted
      have htidy := ((faithful_untilClean hg).run hdone.1).tidyIn hg
      exact step_inOrder htidy.tree.here horder (Sweep.untilClean_eq_none hdone.1)
    · cases hnone

/-- A graph without transpositions is left as it is. -/
theorem sweepGraph_of_still (hstill : ∀ n ∈ g.nodes, n.op ≠ "Transpose")
    (hnone : (sweepGraph s g).failure = none) : sweepGraph s g = { graph := g } := by
  cases horder : g.topologicalOrder with
  | ok order =>
      exact sweepGraph_of_eq_none (step_eq_none_iff.2 ⟨⟨order, horder⟩, fun place n hn =>
        treat_not_transpose (hstill n (List.mem_of_getElem? hn))⟩)
  | error cause =>
      have hstep : step s g = .error { graph := g, cause } := by rw [step, horder]
      obtain ⟨fuel, hfuel⟩ : ∃ fuel, budget g = fuel + 1 :=
        Nat.exists_eq_succ_of_ne_zero (Nat.ne_of_gt (Nat.pow_pos (Nat.succ_pos _)))
      have hfailed : Sweep.untilClean "transpose" (step s) (budget g) { graph := g } =
          { graph := g, failure := some cause } := by
        rw [hfuel, Sweep.untilClean]
        simp only [hstep]
      simp [sweepGraph, hfailed] at hnone

/-! ## Trees -/

/-- A tree without transpositions is left as it is. -/
theorem everyGraph_of_still (hg : StillTree g) (hkeyed : KeyedTree g)
    (hnone : (everyGraph sweepGraph s g).failure = none) :
    (everyGraph sweepGraph s g).graph = g := by
  induction g using bodyInduction generalizing s with
  | step g ih =>
      rw [everyGraph_eq_andThen] at hnone ⊢
      obtain ⟨hbodies, hlast, hgraph⟩ := Sweep.unfailed_of_andThen hnone
      have hsame : (sweepBelow sweepGraph s g).graph = g :=
        (isOutcome_of_sweepBelow (· = g) (fun h hh => hh ▸ hkeyed.here)
          (fun h place key old hh hbody htreated => by
            subst hh
            have ⟨n, hn, hmem⟩ := hbody
            have hn := List.mem_of_getElem? hn
            rw [ih n hn _ hmem (hg.body hn hmem) (hkeyed.body hn hmem) htreated]
            exact hbody.putBody_self hkeyed.here) rfl hbodies).1
      rw [hsame] at hlast hgraph
      rw [hgraph, sweepGraph_of_still hg.here hlast]

/-- What a graph is like while its bodies are treated: the same is known in it, and its bodies stay
sheltered. -/
private structure Steady (s : Surroundings) (g h : Graph) : Prop where
  tidy : TidyIn s h
  sameInfos : h.infos = g.infos
  sheltered : Sheltered h

private theorem Steady.putBody {place : Nat} {key : String} {old : Graph} (hh : Steady s g h)
    (hbody : h.HasBody place key old)
    (hnone : (everyGraph sweepGraph (s.inside h place key) old).failure = none) :
    Steady s g (h.putBody place key (everyGraph sweepGraph (s.inside h place key) old).graph) := by
  have hold := hh.tidy.inside hbody
  obtain ⟨hafter, hmore⟩ := ((Faithful.everyGraph (fun _ _ => faithful_sweepGraph)
    hold).run hnone).preserves hold
  refine ⟨hh.tidy.putBody hbody hafter hmore, infos_putBody.trans hh.sameInfos, ?_⟩
  obtain ⟨n, hn, hmem⟩ := hbody
  have htouches : ∀ value, (h.putBody place key
      (everyGraph sweepGraph (s.inside h place key) old).graph).Touches value → h.Touches value :=
    fun value ht => ht.of_nodes fun k hk => by
      rcases (mem_nodes_putBody hn).1 hk with rfl | ⟨j, -, hj⟩
      · exact ⟨n, List.mem_of_getElem? hn, rfl, rfl, rfl⟩
      · exact ⟨k, List.mem_of_getElem? hj, rfl, rfl, rfl⟩
  have hother : ∀ m ∈ h.nodes, ∀ body ∈ m.bodies, StillTree body.2 ∨ ∀ value,
      (h.putBody place key
        (everyGraph sweepGraph (s.inside h place key) old).graph).Touches value →
        value ≠ "" ∧ value ∉ body.2.outerReferences := fun m hm body hbody =>
    (hh.sheltered m hm body hbody).imp_right fun haway value ht => haway value (htouches value ht)
  intro k hk body hbody
  rcases (mem_nodes_putBody hn).1 hk with rfl | ⟨j, -, hj⟩
  · rcases (Node.mem_bodies_rebodied (hh.tidy.tree.here.keyed n (List.mem_of_getElem? hn)) hmem).1
      hbody with rfl | ⟨hbody, -⟩
    · rcases hh.sheltered n (List.mem_of_getElem? hn) _ hmem with hstill | haway
      · exact .inl ((everyGraph_of_still hstill hold.tree.keyedTree hnone).symm ▸ hstill)
      · -- what the treated body takes from around it the untreated one took as well
        refine .inr fun value ht => ?_
        obtain ⟨hne, houter⟩ := haway value (htouches value ht)
        exact ⟨hne, fun hout => houter (hmore value hout (Surroundings.mentions_inside.2
          (.inr (.inl (defines_iff.2 (.inr ((htouches value ht).mem_results hne)))))))⟩
    · exact hother n (List.mem_of_getElem? hn) body hbody
  · exact hother k (List.mem_of_getElem? hj) body hbody

/-- A tree with sheltered bodies is settled once it has been treated. -/
theorem settled_everyGraph (hg : TidyIn s g) (hsheltered : ShelteredTree g)
    (hnone : (everyGraph sweepGraph s g).failure = none) :
    Settled sweepGraph s (everyGraph sweepGraph s g).graph := by
  induction g using bodyInduction generalizing s with
  | step g ih =>
      rw [everyGraph_eq_andThen] at hnone ⊢
      obtain ⟨hbodies, hlast, hgraph⟩ := Sweep.unfailed_of_andThen hnone
      rw [hgraph]
      obtain ⟨hdone, houtcome⟩ := isOutcome_of_sweepBelow (Steady s g)
        (fun h hh => hh.tidy.tree.here.keyed) (fun h place key old hh => hh.putBody)
        ⟨hg, rfl, hsheltered.here⟩ hbodies
      -- the bodies have come to rest, each in what was known around it at its time
      have hcalm : Calm s (sweepBelow sweepGraph s g).graph := by
        refine ⟨hdone.tidy, hdone.sheltered, fun place key body hbody => ?_⟩
        obtain ⟨host, old, hhost, ⟨n, hn, hmem⟩, hthere, htreated, rfl⟩ :=
          houtcome place key body hbody
        have hsettled := ih n (List.mem_of_getElem? hn) _ hmem (hhost.tidy.inside hthere)
          (hsheltered.body (List.mem_of_getElem? hn) hmem) htreated
        exact settled_of_known hsettled (hdone.tidy.inside hbody).tree fun value _ => by
          simp [Surroundings.inside, List.findSome?_cons, hdone.sameInfos, hhost.sameInfos]
      exact .intro (sweepGraph_settles hdone.tidy hlast) (hcalm.sweepGraph hlast).settled

end Transposes

/-! ## The pass -/

namespace Pass

open Transposes

/-- The pass that moves transpositions is idempotent on valid trees with sheltered bodies: if its first
run does not fail, a second run applies no rule in any graph. -/
theorem transpose_idempotent {g : Graph} (hvalid : g.IsValid) (hkeyed : KeyedTree g)
    (hsheltered : ShelteredTree g) (number : Nat)
    (hnone : (transpose.run .root number g).failure = none) :
    transpose.SettledAt (transpose.run .root number g).graph := by
  have htidy := hvalid.tidyIn hkeyed
  have hrun := (Faithful.everyGraph (fun _ _ => faithful_sweepGraph) htidy).run hnone
  exact settledAt_ofVisit _ (hrun.tidyIn htidy).tree.keyedTree
    (settled_everyGraph htidy hsheltered hnone)

/-- A branch that transposes a value from outside there and back. -/
private def turning (value : String) : Graph where
  outputs := ["o"]
  nodes := [
    { name := "there", op := "Transpose", inputs := [value], outputs := ["p"] },
    { name := "back", op := "Transpose", inputs := ["p"], outputs := ["o"]
      attributes := [("perm", .numbers [.int 1, .int 0])] }]

/-- A branch without transpositions. -/
private def keeping : Graph where
  outputs := ["e"]
  nodes := [{ name := "hand", op := "Identity", inputs := ["x"], outputs := ["e"] }]

/-- A transposition that changes nothing. -/
def unmoving : Node where
  name := "still"
  op := "Transpose"
  inputs := ["x"]
  outputs := ["a"]
  attributes := [("perm", .numbers [.int 0, .int 1])]

/-- A conditional behind some nodes, one branch of which transposes a value there and back. The shape
of `x` is known. -/
def choosing (before : List Node) (value : String) : Graph where
  inputs := ["x", "condition"]
  outputs := ["picked"]
  infos := .ofList [{ name := "x", shape := some [some (.int 2), some (.int 3)] }]
  nodes := before ++ [
    { name := "choose", op := "If", inputs := ["condition"], outputs := ["picked"]
      attributes := [("then_branch", .body (turning value)), ("else_branch", .body keeping)] }]

/-- The conditional has the bodies of `choosing`. -/
private theorem mem_bodies_choosing {before : List Node} {value : String}
    (hbefore : ∀ n ∈ before, n.bodies = []) {n : Node} (hn : n ∈ (choosing before value).nodes)
    {body : String × Graph} (hbody : body ∈ n.bodies) :
    body = ("then_branch", turning value) ∨ body = ("else_branch", keeping) := by
  rcases List.mem_append.1 hn with hn | hn
  · rw [hbefore n hn] at hbody
    cases hbody
  · rw [List.mem_singleton.1 hn] at hbody
    simpa [Node.bodies, Attribute.body?] using hbody

/-- What holds of `choosing` and its branches holds in the tree. -/
private theorem everywhere_choosing {P : Graph → Prop} {before : List Node} {value : String}
    (hbefore : ∀ n ∈ before, n.bodies = []) (hroot : P (choosing before value))
    (hturning : P (turning value)) (hkeeping : P keeping) :
    Everywhere (fun _ taken => taken) (fun _ g => P g) (fun _ => True) (choosing before value) := by
  refine .intro hroot fun n hn body hbody => ?_
  rcases mem_bodies_choosing hbefore hn hbody with rfl | rfl
  · exact .intro hturning (by simp [turning, Node.bodies, Attribute.body?])
  · exact .intro hkeeping (by simp [keeping, Node.bodies])

theorem keyedTree_choosing : KeyedTree (choosing [] "x") := everywhere_choosing (by simp)
  (by simp [choosing, Node.Keyed]) (by simp [turning, Node.Keyed]) (by simp [keeping, Node.Keyed])

/-- Rules may touch nothing before the conditional but what `unmoving` yields. -/
private theorem eq_of_touches_choosing {value : String}
    (ht : (choosing [unmoving] "x").Touches value) : value = "a" := by
  have hops : ∀ n ∈ (choosing [unmoving] "x").nodes, n.op ≠ "Constant" ∧
      Capability.isTransparent n.op = false ∧ (n.op = "Transpose" → n = unmoving) := by
    intro n hn
    rcases List.mem_pair.1 hn with rfl | rfl
    · exact ⟨by decide, by decide, fun _ => rfl⟩
    · exact ⟨by decide, by decide, fun hop => absurd hop (by decide)⟩
  have hbarrier : ∀ {n}, n ∈ (choosing [unmoving] "x").nodes →
      ¬ Capability.isTransparent n.op = true := fun hn => by simp [(hops _ hn).2.1]
  rcases ht with shifts | ⟨mem, op, read, result⟩ | ⟨-, -, constant, op, -⟩
  · cases shifts with
    | yielded mem op output =>
        obtain rfl := (hops _ mem).2.2 op
        exact List.mem_singleton.1 output
    | carried mem transparent => exact absurd transparent (hbarrier mem)
  · obtain rfl := (hops _ mem).2.2 op
    obtain rfl := List.mem_singleton.1 read
    exact absurd result (by decide)
  · exact absurd op (hops _ constant).1

theorem transpose_idempotent_choosing :
    (choosing [unmoving] "x").IsValid ∧ KeyedTree (choosing [unmoving] "x") ∧
      ShelteredTree (choosing [unmoving] "x") ∧
      (transpose.run .root 0 (choosing [unmoving] "x")).failure = none ∧
      (transpose.run .root 0 (choosing [unmoving] "x")).changes = .ofNat 2 ∧
      transpose.SettledAt (transpose.run .root 0 (choosing [unmoving] "x")).graph := by
  have hvalid : (choosing [unmoving] "x").IsValid := by
    unfold IsValid
    decide +kernel
  have hbare : ∀ n ∈ [unmoving], n.bodies = [] := by simp [unmoving, Node.bodies, Attribute.body?]
  have hkeyed : KeyedTree (choosing [unmoving] "x") := everywhere_choosing hbare
    (by simp [choosing, unmoving, Node.Keyed]) (by simp [turning, Node.Keyed])
    (by simp [keeping, Node.Keyed])
  have hsheltered : ShelteredTree (choosing [unmoving] "x") := everywhere_choosing hbare
    (fun n hn body hbody => .inr fun value ht => by
      obtain rfl := eq_of_touches_choosing ht
      rcases mem_bodies_choosing hbare hn hbody with rfl | rfl
      · decide +kernel
      · decide +kernel)
    (by simp [Sheltered, turning, Node.bodies, Attribute.body?])
    (by simp [Sheltered, keeping, Node.bodies])
  have hnone : (transpose.run .root 0 (choosing [unmoving] "x")).failure = none := by decide +kernel
  exact ⟨hvalid, hkeyed, hsheltered, hnone, by decide +kernel,
    transpose_idempotent hvalid hkeyed hsheltered 0 hnone⟩

/-- Where a transposition that changes nothing stands before a conditional, a branch that reads what
it yields learns the shape only when it is gone: the second run has something left to do there. -/
theorem not_transpose_idempotent :
    ∃ g : Graph, g.IsValid ∧ (transpose.run .root 0 g).failure = none ∧
      (transpose.run .root 0 g).changes = .ofNat 1 ∧
      (transpose.run .root 1 (transpose.run .root 0 g).graph).changes = .ofNat 1 := by
  refine ⟨choosing [unmoving] "a", ?_⟩
  unfold IsValid
  decide +kernel

end Pass

end TensorGraph
