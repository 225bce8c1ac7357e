import TensorGraph.Optimizer.Pass
import TensorGraph.Proofs.Causes
import TensorGraph.Proofs.Ranking

/-!
# Passes are runs

A pass that does not fail has made a run of as many rewrites as it counts. If it fails, it is not for
want of an end: the number of moves that a graph is given is more than its weight, and what only
takes nodes away has as many turns as there are nodes.

## Main results

* `Faithful.everyGraph` -- what is faithful in every graph is faithful in a tree.
* `Pass.faithful_of_mem_registry` -- every pass that is known by name is faithful.
-/

namespace TensorGraph

open TensorGraph.Graph Rewriting

/-- Whether a sweep is a run of as many rewrites as it counts, or fails for another reason than
that something has no end. -/
structure Faithful (s : Surroundings) (g : Graph) (sweep : Sweep) : Prop where
  run : sweep.failure = none → Run s g sweep.changes sweep.graph
  ends : ∀ cause, sweep.failure = some cause → cause.isEndless = false

namespace Faithful

variable {s : Surroundings} {g : Graph}

theorem start (s : Surroundings) (g : Graph) : Faithful s g { graph := g } where
  run _ := .start
  ends _ h := by cases h

theorem fail {sweep : Sweep} {cause : Failure} (hfailure : sweep.failure = some cause)
    (hcause : cause.isEndless = false) : Faithful s g sweep where
  run h := by rw [hfailure] at h; cases h
  ends other h := by
    rw [hfailure] at h
    cases h
    exact hcause

theorem andThen {first : Sweep} {next : Graph → Sweep} (hg : TidyIn s g)
    (hfirst : Faithful s g first)
    (hnext : first.failure = none → TidyIn s first.graph → Faithful s first.graph (next first.graph)) :
    Faithful s g (first.andThen next) := by
  cases hfailure : first.failure with
  | some cause =>
      rw [Sweep.andThen_of_failed (by simp [hfailure])]
      exact hfirst
  | none =>
      have hrun := hfirst.run hfailure
      have hsecond := hnext hfailure (hrun.tidyIn hg)
      unfold Sweep.andThen
      simp only [hfailure, Option.isSome_none, Bool.false_eq_true, if_false]
      exact ⟨fun h => hrun.trans (hsecond.run h), hsecond.ends⟩

/-- A rule that makes a graph smaller every time comes to an end. -/
theorem untilClean {what : String} {rule : Graph → Except Stopped (Option (Graph × String))}
    (inv : Graph → Prop) (size : Graph → Nat)
    (hrule : ∀ h h' line, TidyIn s h → inv h → rule h = .ok (some (h', line)) →
      Rewrite s h h' ∧ inv h' ∧ size h' < size h)
    (hhalts : ∀ h, Halts (rule h)) (hg : TidyIn s g) (fuel : Nat) {sweep : Sweep}
    (hsweep : Faithful s g sweep) (hnone : sweep.failure = none) (hinv : inv sweep.graph)
    (hfuel : size sweep.graph < fuel) :
    Faithful s g (Sweep.untilClean what rule fuel sweep) := by
  induction fuel generalizing sweep with
  | zero => exact absurd hfuel (Nat.not_lt_zero _)
  | succ fuel ih =>
      unfold Sweep.untilClean
      have hhalt := hhalts sweep.graph
      split
      · rename_i stopped hstopped
        exact .fail rfl (hhalt stopped hstopped)
      · exact hsweep
      · rename_i after line hafter
        have hrun := hsweep.run hnone
        obtain ⟨hrewrite, hinv, hsize⟩ := hrule _ _ _ (hrun.tidyIn hg) hinv hafter
        exact ih ⟨fun _ => .rewrite hrun (.here hrewrite), hsweep.ends⟩ hnone hinv
          (Nat.lt_of_lt_of_le hsize (Nat.le_of_lt_succ hfuel))

end Faithful

/-! ## Transpositions -/

namespace Transposes

variable {s : Surroundings} {g : Graph}

private theorem treatFirst_ok {places : List Nat} {after : Graph} {line : String}
    (h : treatFirst s g places = .ok (some (after, line))) :
    ∃ place n rule, g.nodes[place]? = some n ∧ treat s g place n = .ok (some (after, rule)) := by
  induction places with
  | nil => cases h
  | cons place rest ih =>
      unfold treatFirst at h
      split at h
      · exact ih h
      · rename_i n hn
        obtain ⟨outcome, houtcome, h⟩ := bind_eq_ok h
        cases outcome with
        | none => exact ih h
        | some found =>
            cases h
            exact ⟨place, n, found.2, hn, houtcome⟩

/-- A change of a graph is a rewrite by a rule for transpositions. -/
theorem step_treated {h : Graph} {line : String} (hg : TidyIn s g)
    (hstep : step s g = .ok (some (h, line))) : Rewrite s g h ∧ g.Acyclic ∧ Treated s g h := by
  unfold step at hstep
  split at hstep
  · cases hstep
  · rename_i order horder
    obtain ⟨place, n, rule, hn, htreat⟩ := treatFirst_ok hstep
    have ha := Acyclic.of_topologicalOrder hg.tree.here horder
    exact ⟨.transposition horder hn htreat, ha, treat_edits hg.tree.here ha hn htreat⟩

/-- And it makes the graph lighter. -/
theorem step_rewrites {h : Graph} {line : String} {k : Nat} (hg : TidyIn s g)
    (hk : g.movable.card ≤ k) (hstep : step s g = .ok (some (h, line))) :
    Rewrite s g h ∧ h.movable.card ≤ k ∧ h.weight k < g.weight k := by
  obtain ⟨hrewrite, ha, htreated⟩ := step_treated hg hstep
  have hlighter := htreated.lighter hg ha
  exact ⟨hrewrite, (Finset.card_le_card hlighter.movable).trans hk, hlighter.weight_lt hk⟩

theorem faithful_untilClean (hg : TidyIn s g) :
    Faithful s g (Sweep.untilClean "transpose" (step s) (budget g) { graph := g }) :=
  .untilClean (fun h => h.movable.card ≤ g.nodes.length) (weight g.nodes.length)
    (fun _ _ _ hh hk hstep => step_rewrites hh hk hstep) (step_halts s) hg _ (.start s g) rfl
    g.card_movable_le g.weight_lt_budget

theorem faithful_sweepGraph (hg : TidyIn s g) : Faithful s g (sweepGraph s g) := by
  have hclean := faithful_untilClean hg
  unfold sweepGraph
  simp only
  split
  · exact hclean
  · rename_i hdone
    simp only [Bool.or_eq_true, Bool.not_eq_true, not_or, Option.isSome_eq_false_iff,
      Option.isNone_iff_eq_none] at hdone
    have hrun := hclean.run hdone.1
    have hends := sortTopologically_ends
      (Sweep.untilClean "transpose" (step s) (budget g) { graph := g }).graph
    split
    · rename_i sorted hsorted
      exact ⟨fun _ => .sort hrun (.here hsorted), hclean.ends⟩
    · rename_i cause hcause
      exact .fail rfl (hends cause hcause)

end Transposes

/-! ## Identities -/

namespace Identities

variable {s : Surroundings} {g : Graph}

private theorem removeFirst_ok {refs : List NodeRef} {after : Graph} {line : String}
    (h : removeFirst s g refs = .ok (some (after, line))) :
    ∃ r ∈ refs, r.node.op = "Identity" ∧ ∃ how, eliminate s g r = .ok (some (after, how)) := by
  induction refs with
  | nil => cases h
  | cons r rest ih =>
      have hlater : removeFirst s g rest = .ok (some (after, line)) →
          ∃ r' ∈ r :: rest, r'.node.op = "Identity" ∧
            ∃ how, eliminate s g r' = .ok (some (after, how)) := fun h => by
        obtain ⟨r', hr', hfound⟩ := ih h
        exact ⟨r', List.mem_cons_of_mem _ hr', hfound⟩
      unfold removeFirst at h
      split at h
      · rename_i hop
        obtain ⟨outcome, houtcome, h⟩ := bind_eq_ok h
        cases outcome with
        | none => exact hlater h
        | some found =>
            cases h
            exact ⟨r, by simp, hop, found.2, houtcome⟩
      · exact hlater h

/-- Removing an identity is a rewrite. -/
theorem removeFirst_rewrites {h : Graph} {line : String}
    (hstep : removeFirst s g (nodeRefs g) = .ok (some (h, line))) :
    Rewrite s g h ∧ Edit s g .removal h := by
  obtain ⟨r, hr, hop, how, hfound⟩ := removeFirst_ok hstep
  obtain ⟨⟨n, i⟩, hmem, rfl⟩ := List.mem_map.1 hr
  have hn := List.mem_zipIdx_iff_getElem?.1 hmem
  exact ⟨.identity hn hop hfound, eliminate_edit hn hop hfound⟩

theorem faithful_sweepGraph (hg : TidyIn s g) : Faithful s g (sweepGraph s g) := by
  refine .untilClean (fun _ => True) (fun h => h.nodes.length)
    (fun h h' line hh _ hstep => ?_) (fun h => removeFirst_halts s h _) hg _ (.start s g) rfl trivial
    (Nat.lt_succ_self _)
  obtain ⟨hrewrite, hedit⟩ := removeFirst_rewrites hstep
  exact ⟨hrewrite, trivial, hedit.length_lt (.inl rfl) hh⟩

end Identities

/-! ## Dead nodes -/

namespace DeadNodes

variable {s : Surroundings} {g h : Graph} {count : Nat}

theorem Dropped.run (hd : Dropped count g h) (s : Surroundings) : Run s g count h := by
  induction hd with
  | none => exact .start
  | one removed _ ih =>
      have hfirst : Run s _ 1 _ := .rewrite .start (.here (.deadNode removed))
      rw [Nat.add_comm]
      exact hfirst.trans ih

theorem Dropped.length_eq (hd : Dropped count g h) : h.nodes.length + count = g.nodes.length := by
  induction hd with
  | none => rfl
  | one removed _ ih =>
      obtain ⟨n, hn, -, rfl⟩ := removeUnreferenced?_eq_some removed
      have hlt := (List.getElem?_eq_some_iff.1 hn).1
      simp only [dropNode, List.length_eraseIdx_of_lt hlt] at ih
      omega

theorem faithful_round (s : Surroundings) (g : Graph) : Faithful s g (round g) where
  run h := (round_dropped h).run s
  ends cause h := by
    unfold round at h
    have hends := g.topologicalOrder_ends
    split at h
    · rename_i found hfound
      cases h
      exact hends _ hfound
    · cases h

theorem faithful_rounds (hg : TidyIn s g) {fuel : Nat} (hfuel : g.nodes.length < fuel) :
    Faithful s g (rounds fuel g) := by
  induction fuel generalizing g with
  | zero => exact absurd hfuel (Nat.not_lt_zero _)
  | succ fuel ih =>
      unfold rounds
      simp only
      split
      · exact faithful_round s g
      · rename_i hchanges
        refine (faithful_round s g).andThen hg fun hnone htidy => ih htidy ?_
        have := (round_dropped hnone).length_eq
        omega

theorem faithful_sweepGraph (hg : TidyIn s g) : Faithful s g (sweepGraph s g) :=
  faithful_rounds hg (Nat.lt_succ_self _)

end DeadNodes

/-! ## Trees -/

/-- The slots of a graph whose bodies are treated in one way. -/
theorem bodySlots_map {α : Type} (g : Graph) (f : String × Graph → α) :
    bodySlots g (g.nodes.map fun n => n.bodies.map f) =
      g.nodes.zipIdx.flatMap fun (n, place) =>
        n.bodies.map fun body => (place, body.1, f body) := by
  unfold bodySlots
  rw [List.zipWith_map_right, List.zipWith_self, List.zipIdx_map, List.flatMap_map]
  refine List.flatMap_congr fun entry _ => ?_
  obtain ⟨n, place⟩ := entry
  simp only [Prod.map_apply, id_eq]
  induction n.bodies with
  | nil => rfl
  | cons body rest ih => simp [ih]

private theorem nodup_keys_bodies {n : Node} (hn : n.Keyed) : (n.bodies.map Prod.fst).Nodup := by
  refine hn.sublist ?_
  unfold Node.bodies
  induction n.attributes with
  | nil => exact .slnil
  | cons entry rest ih =>
      obtain ⟨key, value⟩ := entry
      cases value with
      | body body => exact ih.cons_cons _
      | _ => exact ih.cons _

private theorem nodup_slots {g : Graph} (hkeyed : ∀ n ∈ g.nodes, n.Keyed) :
    (g.nodes.zipIdx.flatMap fun (n, place) => n.bodies.map fun body => (place, body.1)).Nodup := by
  have hplaces : (g.nodes.zipIdx.map Prod.snd).Nodup := by
    rw [List.zipIdx_map_snd]
    exact List.nodup_range'
  refine List.nodup_flatMap.2 ⟨?_, (List.pairwise_map.1 hplaces).imp fun hne => ?_⟩
  · rintro ⟨n, place⟩ hmem
    have hn := hkeyed n (List.mem_of_getElem? (List.mem_zipIdx_iff_getElem?.1 hmem))
    have hkeys := (nodup_keys_bodies hn).map (f := fun key => (place, key)) fun _ _ e => by
      simpa using e
    simpa [Function.comp_def] using hkeys
  · intro slot hslot hother
    obtain ⟨body, -, rfl⟩ := List.mem_map.1 hslot
    obtain ⟨other, -, heq⟩ := List.mem_map.1 hother
    exact hne (congrArg Prod.fst heq).symm

/-- No slot of a graph occurs twice. -/
theorem nodup_bodySlots {α : Type} {g : Graph} (hkeyed : ∀ n ∈ g.nodes, n.Keyed)
    (f : String × Graph → α) :
    ((bodySlots g (g.nodes.map fun n => n.bodies.map f)).map fun slot => (slot.1, slot.2.1)).Nodup := by
  have hslots := nodup_slots hkeyed
  rw [bodySlots_map, List.map_flatMap]
  simpa [Function.comp_def] using hslots

/-- What may be said of sweeps over the graphs of a tree, provided that the graphs are `valid`: it holds
of sweeps that do nothing, of one sweep after another, and of a graph when it holds of a body. -/
structure Compositional (valid : Surroundings → Graph → Prop)
    (P : Surroundings → Graph → Sweep → Prop) : Prop where
  keyed : ∀ {s g}, valid s g → ∀ n ∈ g.nodes, n.Keyed
  inside : ∀ {s g place key body}, valid s g → g.HasBody place key body →
    valid (s.inside g place key) body
  start : ∀ {s g}, valid s g → P s g { graph := g }
  andThen : ∀ {s g first} {next : Graph → Sweep}, valid s g → P s g first →
    (first.failure = none → valid s first.graph → P s first.graph (next first.graph)) →
    P s g (first.andThen next)
  putBody : ∀ {s g place key body inner}, valid s g → g.HasBody place key body →
    P (s.inside g place key) body inner →
    P s g { inner with graph := g.putBody place key inner.graph }

namespace Compositional

variable {valid : Surroundings → Graph → Prop} {P : Surroundings → Graph → Sweep → Prop}
  {visit : Surroundings → Graph → Sweep} {s : Surroundings} {g : Graph}

/-- Treating bodies one after another, each of which stands in its slot. -/
private theorem foldl_slots (hP : Compositional valid P) (hg : valid s g)
    {slots : List (Nat × String × (Surroundings → Sweep))} {sweep : Sweep} (hsweep : P s g sweep)
    (hnodup : (slots.map fun slot => (slot.1, slot.2.1)).Nodup)
    (hslots : sweep.failure = none → ∀ slot ∈ slots, ∃ body,
      sweep.graph.HasBody slot.1 slot.2.1 body ∧ ∀ inner, valid inner body → P inner body (slot.2.2 inner)) :
    P s g (slots.foldl (fun sweep slot => sweep.andThen (sweepBody s slot)) sweep) := by
  induction slots generalizing sweep with
  | nil => exact hsweep
  | cons slot rest ih =>
      rw [List.map_cons, List.nodup_cons] at hnodup
      have hnext : sweep.failure = none → valid s sweep.graph →
          P s sweep.graph (sweepBody s slot sweep.graph) := by
        intro hnone hvalid
        obtain ⟨body, hbody, htreat⟩ := hslots hnone slot (by simp)
        exact hP.putBody hvalid hbody (htreat _ (hP.inside hvalid hbody))
      refine ih (hP.andThen hg hsweep hnext) hnodup.2 fun hnone other hother => ?_
      obtain ⟨hfirst, -, hgraph⟩ := Sweep.unfailed_of_andThen hnone
      obtain ⟨body, hbody, htreat⟩ := hslots hfirst other (List.mem_cons_of_mem _ hother)
      have hne : (other.1, other.2.1) ≠ (slot.1, slot.2.1) := fun e =>
        hnodup.1 (e ▸ List.mem_map_of_mem (f := fun slot => (slot.1, slot.2.1)) hother)
      refine ⟨body, ?_, htreat⟩
      rw [hgraph]
      refine hbody.putBody_of_ne ?_
      by_contra hboth
      push Not at hboth
      exact hne (Prod.ext hboth.1 hboth.2)

/-- What holds of the treatment of every graph holds of the treatment of a tree. -/
theorem everyGraph (hP : Compositional valid P) (hvisit : ∀ s g, valid s g → P s g (visit s g))
    (hg : valid s g) : P s g (everyGraph visit s g) := by
  induction g using bodyInduction generalizing s with
  | step g ih =>
      rw [everyGraph_eq, sweepWithBodies]
      refine hP.andThen hg (hP.foldl_slots hg (hP.start hg) (nodup_bodySlots (hP.keyed hg) _)
        fun _ slot hslot => ?_) fun _ hvalid => hvisit s _ hvalid
      · rw [bodySlots_map] at hslot
        obtain ⟨⟨n, place⟩, hmem, hslot⟩ := List.mem_flatMap.1 hslot
        obtain ⟨body, hbody, rfl⟩ := List.mem_map.1 hslot
        have hn := List.mem_zipIdx_iff_getElem?.1 hmem
        exact ⟨body.2, ⟨n, hn, hbody⟩,
          fun inner hinner => ih n (List.mem_of_getElem? hn) body hbody hinner⟩

end Compositional

theorem Faithful.compositional : Compositional TidyIn Faithful where
  keyed hg := hg.tree.here.keyed
  inside hg hbody := hg.inside hbody
  start _ := .start _ _
  andThen hg hfirst hnext := hfirst.andThen hg hnext
  putBody hg hbody hinner := ⟨fun h => (hinner.run h).inside hg hbody, hinner.ends⟩

/-- What is faithful in every graph is faithful in a tree. -/
theorem Faithful.everyGraph {visit : Surroundings → Graph → Sweep} {s : Surroundings} {g : Graph}
    (hvisit : ∀ s g, TidyIn s g → Faithful s g (visit s g)) (hg : TidyIn s g) :
    Faithful s g (everyGraph visit s g) :=
  Faithful.compositional.everyGraph hvisit hg

/-! ## Passes -/

namespace Pass

variable {g : Graph}

/-- What a pass that treats every graph of a tree does. -/
theorem ofVisit_run {visit : Surroundings → Graph → Sweep}
    (hvisit : ∀ s g, TidyIn s g → Faithful s g (visit s g)) (name : String) (number : Nat)
    (hg : TidyIn .root g) :
    ∃ sweep, Faithful .root g sweep ∧ (ofVisit name visit).run .root number g =
      { graph := sweep.graph, changes := .ofNat sweep.changes, log := sweep.log.map Log.debug
        failure := sweep.failure } :=
  ⟨everyGraph visit .root g, .everyGraph hvisit hg, rfl⟩

/-- Every pass that is known by name is faithful. -/
theorem faithful_of_mem_registry {pass : Pass} (hpass : pass ∈ registry) (number : Nat)
    (hg : TidyIn .root g) :
    ∃ sweep, Faithful .root g sweep ∧ pass.run .root number g =
      { graph := sweep.graph, changes := .ofNat sweep.changes, log := sweep.log.map Log.debug
        failure := sweep.failure } := by
  simp only [registry, List.mem_cons, List.not_mem_nil, or_false] at hpass
  rcases hpass with rfl | rfl | rfl
  · exact ofVisit_run (fun s g hg => Transposes.faithful_sweepGraph hg) _ number hg
  · exact ofVisit_run (fun s g hg => Identities.faithful_sweepGraph hg) _ number hg
  · exact ofVisit_run (fun s g hg => DeadNodes.faithful_sweepGraph hg) _ number hg

end Pass

end TensorGraph
