import TensorGraph.Proofs.Lineage
import TensorGraph.Proofs.Sweeping
import TensorGraph.Proofs.ValidTrees

/-!
# What two passes keep

The passes that move transpositions and remove identities make edits, take away transpositions that
nothing needs, and sort. What each of these keeps of a graph the passes keep in every graph of a tree.

## Main results

* `Upheld.pass` -- what edits keep is kept by the two passes.
-/

namespace TensorGraph

open TensorGraph.Graph Rewriting

/-- What edits keep of a graph, provided that it is `valid`, and what they keep valid. -/
structure Upheld (valid : Surroundings → Graph → Prop) (R : Graph → Graph → Prop) : Prop where
  refl : ∀ g, R g g
  trans : ∀ {g h k}, R g h → R h k → R g k
  tidyIn : ∀ {s g}, valid s g → TidyIn s g
  inside : ∀ {s g place key body}, valid s g → g.HasBody place key body →
    valid (s.inside g place key) body
  onward : ∀ {s g h}, valid s g → TidyIn s h → Lineal R g h → valid s h
  substituteOuter : ∀ {s g new}, valid s g → g.Handles new →
    ∀ old k, R k (k.substituteOuter old new)
  putBody : ∀ {s g place key old}, valid s g → g.HasBody place key old →
    ∀ new, R g (g.putBody place key new)
  edit : ∀ {s g kind h}, valid s g → Edit s g kind h → kind ≠ .cleanup → R g h
  removed : ∀ {s g h n}, valid s g → TidyIn s h → R g h → n ∈ g.nodes → n.op = "Transpose" →
    R g (h.removeNamedIfUnreferenced n.name)
  sorted : ∀ {s g nodes}, valid s g → nodes.Perm g.nodes → R g { g with nodes }

/-- Whether a sweep is faithful and keeps something throughout a tree, unless it fails. -/
structure Upholding (R : Graph → Graph → Prop) (s : Surroundings) (g : Graph) (sweep : Sweep) :
    Prop where
  faithful : Faithful s g sweep
  kept : sweep.failure = none → Lineal R g sweep.graph

namespace Graph

theorem nodes_removeNamedIfUnreferenced_subset (g : Graph) (name : String) :
    (g.removeNamedIfUnreferenced name).nodes ⊆ g.nodes := by
  rcases g.removeNamedIfUnreferenced_eq name with heq | ⟨place, hremoved⟩
  · rw [heq]
    exact List.Subset.refl _
  · obtain ⟨_, -, -, heq⟩ := removeUnreferenced?_eq_some hremoved
    rw [heq]
    exact (List.eraseIdx_sublist _ _).subset

/-- A node of another name stays. -/
theorem mem_removeNamedIfUnreferenced {g : Graph} {name : String} {n : Node} (hn : n ∈ g.nodes)
    (hname : n.name ≠ name) : n ∈ (g.removeNamedIfUnreferenced name).nodes := by
  unfold removeNamedIfUnreferenced
  cases hplace : g.place? name with
  | none => exact hn
  | some place =>
      cases hremoved : g.removeUnreferenced? place with
      | none => simpa [hremoved] using hn
      | some after =>
          obtain ⟨m, hm, hmname⟩ := Relocation.place?_eq_some hplace
          obtain ⟨_, -, -, rfl⟩ := removeUnreferenced?_eq_some hremoved
          simp only [Option.bind_some, hremoved, Option.getD_some, dropNode]
          exact List.mem_eraseIdx_iff_getElem?.2 (elsewhere_of_ne hm hn fun e => hname (e ▸ hmname))

end Graph

namespace Upheld

variable {valid : Surroundings → Graph → Prop} {R : Graph → Graph → Prop} (hR : Upheld valid R)
  {s : Surroundings} {g h : Graph}

include hR

/-! ## Rules -/

/-- What an edit keeps of a graph it keeps throughout the tree. -/
theorem lineal_edit {kind : Kind} (he : Edit s g kind h) (hg : valid s g) (hkind : kind ≠ .cleanup) :
    Lineal R g h :=
  have htidy := hR.tidyIn hg
  .of_keepsBodies hR.refl hR.trans (fun old _ hnew k => hR.substituteOuter hg hnew old k)
    (hR.edit hg he hkind) ((he.effect htidy.tree.here).keepsBodies htidy.tree htidy.covers)

theorem lineal_treated (ht : Treated s g h) (hg : valid s g) : Lineal R g h := by
  obtain ⟨kind, between, rebased, hkind, hfirst, hresizes, hlast⟩ := ht
  have hbetween : TidyIn s between := hfirst.tidyIn (hR.tidyIn hg)
  have hrebased : TidyIn s rebased ∧ Lineal R g rebased := by
    clear hlast
    induction hresizes with
    | refl =>
        refine ⟨hbetween, hR.lineal_edit hfirst hg ?_⟩
        rcases hkind with rfl | rfl <;> decide
    | tail _ hstep ih =>
        exact ⟨hstep.tidyIn ih.1, ih.2.trans hR.trans
          (hR.lineal_edit hstep (hR.onward hg ih.1 ih.2) (by decide))⟩
  rcases hlast with rfl | ⟨n, hn, hop, -, rfl⟩
  · exact hrebased.2
  · exact hrebased.2.of_subset (hR.removed hg hrebased.1 hrebased.2.here hn hop)
      (rebased.nodes_removeNamedIfUnreferenced_subset n.name)

theorem lineal_sort (hg : valid s g) (hsort : g.sortTopologically = .ok h) : Lineal R g h := by
  obtain ⟨nodes, hperm, rfl⟩ := sortTopologically_ok hsort
  exact (Lineal.refl hR.refl g).of_subset (hR.sorted hg hperm) hperm.subset

/-! ## Sweeps -/

/-- What every application of a rule keeps is kept at the end. -/
theorem lineal_untilClean {what : String} {rule : Graph → Except Stopped (Option (Graph × String))}
    (hrule : ∀ h h' line, valid s h → rule h = .ok (some (h', line)) →
      Rewrite s h h' ∧ Lineal R h h')
    (fuel : Nat) {sweep : Sweep} (hg : valid s sweep.graph)
    (hnone : (Sweep.untilClean what rule fuel sweep).failure = none) :
    Lineal R sweep.graph (Sweep.untilClean what rule fuel sweep).graph ∧
      valid s (Sweep.untilClean what rule fuel sweep).graph := by
  induction fuel generalizing sweep with
  | zero => cases hnone
  | succ fuel ih =>
      unfold Sweep.untilClean at hnone ⊢
      split at hnone
      · cases hnone
      · exact ⟨.refl hR.refl sweep.graph, hg⟩
      · rename_i after line hafter
        obtain ⟨hrewrite, hkept⟩ := hrule _ _ _ hg hafter
        have htidy := (preserving_rewrite _ _ _ hrewrite (hR.tidyIn hg)).1
        obtain ⟨hlater, hvalid⟩ := ih (hR.onward hg htidy hkept) hnone
        exact ⟨hkept.trans hR.trans hlater, hvalid⟩

theorem compositional : Compositional valid (Upholding R) where
  keyed hg := (hR.tidyIn hg).tree.here.keyed
  inside hg hbody := hR.inside hg hbody
  start _ := ⟨.start _ _, fun _ => .refl hR.refl _⟩
  andThen hg hfirst hnext := by
    have hvalid := fun hnone =>
      hR.onward hg ((hfirst.faithful.run hnone).tidyIn (hR.tidyIn hg)) (hfirst.kept hnone)
    refine ⟨hfirst.faithful.andThen (hR.tidyIn hg) fun hnone _ =>
      (hnext hnone (hvalid hnone)).faithful, fun hnone => ?_⟩
    obtain ⟨hfailure, hlater, hgraph⟩ := Sweep.unfailed_of_andThen hnone
    rw [hgraph]
    exact (hfirst.kept hfailure).trans hR.trans ((hnext hfailure (hvalid hfailure)).kept hlater)
  putBody hg hbody hinner :=
    ⟨Faithful.compositional.putBody (hR.tidyIn hg) hbody hinner.faithful, fun hnone =>
      .putBody hR.refl (hR.tidyIn hg).tree.here.keyed (hR.putBody hg hbody _) hbody
        (hinner.kept hnone)⟩

/-- Treating the transpositions of a graph keeps what edits keep. -/
theorem upholding_transposes (hg : valid s g) : Upholding R s g (Transposes.sweepGraph s g) := by
  refine ⟨Transposes.faithful_sweepGraph (hR.tidyIn hg), fun hnone => ?_⟩
  have hrule : ∀ h h' line, valid s h → Transposes.step s h = .ok (some (h', line)) →
      Rewrite s h h' ∧ Lineal R h h' := fun h h' line hh hstep => by
    obtain ⟨hrewrite, -, htreated⟩ := Transposes.step_treated (hR.tidyIn hh) hstep
    exact ⟨hrewrite, hR.lineal_treated htreated hh⟩
  have hclean := fun hnone =>
    (hR.lineal_untilClean hrule (Transposes.budget g) hg hnone :
      Lineal R g (Sweep.untilClean "transpose" (Transposes.step s) (Transposes.budget g)
        { graph := g }).graph ∧ _)
  unfold Transposes.sweepGraph at hnone ⊢
  simp only at hnone ⊢
  split at hnone
  · rename_i hdone
    rw [if_pos hdone]
    exact (hclean hnone).1
  · rename_i hdone
    rw [if_neg hdone]
    simp only [Bool.or_eq_true, Bool.not_eq_true, not_or, Option.isSome_eq_false_iff,
      Option.isNone_iff_eq_none] at hdone
    split at hnone
    · rename_i sorted hsorted
      obtain ⟨hkept, hvalid⟩ := hclean hdone.1
      exact hkept.trans hR.trans (hR.lineal_sort hvalid hsorted)
    · cases hnone

/-- And so does removing its identities. -/
theorem upholding_identities (hg : valid s g) : Upholding R s g (Identities.sweepGraph s g) := by
  refine ⟨Identities.faithful_sweepGraph (hR.tidyIn hg), fun hnone => ?_⟩
  refine (hR.lineal_untilClean (fun h h' line hh hstep => ?_) _ hg hnone).1
  obtain ⟨hrewrite, hedit⟩ := Identities.removeFirst_rewrites hstep
  exact ⟨hrewrite, hR.lineal_edit hedit hh (by decide)⟩

/-! ## Passes -/

/-- What edits keep is kept in every graph of a tree when transpositions are moved or identities are
removed, and the tree stays tidy. -/
theorem pass {pass : Pass} (hpass : pass = .transpose ∨ pass = .identity) (hg : valid .root g)
    (number : Nat) (hnone : (pass.run .root number g).failure = none) :
    TidyIn .root (pass.run .root number g).graph ∧ Lineal R g (pass.run .root number g).graph := by
  have hsweep : ∀ {visit}, (∀ s g, valid s g → Upholding R s g (visit s g)) →
      (everyGraph visit .root g).failure = none →
      TidyIn .root (everyGraph visit .root g).graph ∧ Lineal R g (everyGraph visit .root g).graph := by
    intro visit hvisit hnone
    have hupheld := hR.compositional.everyGraph hvisit hg
    exact ⟨(hupheld.faithful.run hnone).tidyIn (hR.tidyIn hg), hupheld.kept hnone⟩
  rcases hpass with rfl | rfl
  · exact hsweep (fun _ _ hg => hR.upholding_transposes hg) hnone
  · exact hsweep (fun _ _ hg => hR.upholding_identities hg) hnone

end Upheld

end TensorGraph
