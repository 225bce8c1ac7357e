import TensorGraph.Optimizer.Pipeline
import TensorGraph.Proofs.Sweeping
import TensorGraph.Proofs.ValidTrees

/-!
# Fixpoints are reached

A sweep of a pipeline in which anything changes lowers the rank of the graph. So the number of
sweeps before one is clean is finite, and with a limit that is high enough a pipeline converges
unless a pass fails.

## Main results

* `Pipeline.reaches_fixpoint` -- rewriting a valid graph comes to an end.
-/

namespace TensorGraph

open TensorGraph.Graph Rewriting

namespace Pipeline

variable {passes : List Pass}

/-- What a sweep over a graph does: as many rewrites as it takes, and when there is none it counts
none. -/
theorem sweep_runs (hpasses : ∀ pass ∈ passes, pass ∈ Pass.registry) (number : Nat)
    (changes : Number) (run : PipelineRun) (hg : TidyIn .root run.graph)
    (hnone : run.failure = none) :
    (∀ cause, (sweep number passes changes run).2.failure = some cause → cause.isEndless = false) ∧
    ((sweep number passes changes run).2.failure = none →
      ∃ count, Run .root run.graph count (sweep number passes changes run).2.graph ∧
        (count = 0 → changes = .int 0 → (sweep number passes changes run).1 = .int 0)) := by
  induction passes generalizing changes run with
  | nil =>
      refine ⟨fun cause hcause => ?_, fun _ => ⟨0, .start, fun _ h => h⟩⟩
      rw [sweep, hnone] at hcause
      cases hcause
  | cons pass rest ih =>
      obtain ⟨done, hdone, hresult⟩ :=
        Pass.faithful_of_mem_registry (hpasses pass (by simp)) number hg
      unfold sweep
      simp only [hresult]
      cases hfailure : done.failure with
      | some cause =>
          simp only [Option.isSome_some, if_true]
          refine ⟨fun other hother => ?_, fun h => by cases h⟩
          cases hother
          exact hdone.ends cause hfailure
      | none =>
          simp only [Option.isSome_none, Bool.false_eq_true, if_false]
          have hrun := hdone.run hfailure
          obtain ⟨hends, hlater⟩ := ih (fun pass hpass => hpasses pass (List.mem_cons_of_mem _ hpass))
            (changes.plus (.ofNat done.changes))
            { run with
              graph := done.graph, log := run.log ++ done.log.map Log.debug, failure := none
              tally := run.tally.add pass.name (.ofNat done.changes) }
            (hrun.tidyIn hg) rfl
          refine ⟨hends, fun h => ?_⟩
          obtain ⟨count, hcount, hclean⟩ := hlater h
          refine ⟨done.changes + count, hrun.trans hcount, fun hzero hstart => hclean (by omega) ?_⟩
          rw [hstart, show done.changes = 0 by omega]
          rfl

/-- A sweep that counts changes has made one. -/
private theorem sweep_descends (hpasses : ∀ pass ∈ passes, pass ∈ Pass.registry) (number : Nat)
    (run : PipelineRun) (hg : TidyIn .root run.graph) (hnone : run.failure = none)
    {changes : Number} {after : PipelineRun}
    (hsweep : sweep number passes (.int 0) run = (changes, after))
    (hafter : after.failure = none) {k : Nat} (hk : run.graph.movables ≤ k) :
    TidyIn .root after.graph ∧ after.graph.movables ≤ k ∧
      (changes.same (.int 0) = false → after.graph.rank k < run.graph.rank k) := by
  obtain ⟨-, hruns⟩ := sweep_runs hpasses number (.int 0) run hg hnone
  simp only [hsweep] at hruns
  obtain ⟨count, hcount, hclean⟩ := hruns hafter
  obtain ⟨hmovables, -, hlt⟩ := hcount.descends hg hk
  refine ⟨hcount.tidyIn hg, hmovables.trans hk, fun hchanged => hlt ?_⟩
  rintro rfl
  rw [hclean rfl trivial] at hchanged
  cases hchanged

/-- What a run has done, with a line that tells of a sweep. -/
def noted (number : Nat) (changes : Number) (after : PipelineRun) : PipelineRun :=
  { after with
    log := after.log ++
      [Log.debug ("sweep " ++ toString number ++ ": " ++ changes.text ++ " rewrite(s)")] }

/-- One turn of a pipeline. -/
theorem sweeps_succ {limit left : Nat} {run after : PipelineRun} {changes : Number}
    (hsweep : sweep run.iterations passes (.int 0) { run with iterations := run.iterations + 1 } =
      (changes, after)) :
    sweeps ⟨passes, limit⟩ (left + 1) run =
      if after.failure.isSome then after
      else if changes.same (.int 0) then
        { noted (run.iterations + 1) changes after with converged := true }
      else sweeps ⟨passes, limit⟩ left (noted (run.iterations + 1) changes after) := by
  rw [sweeps]
  simp only [hsweep]
  rfl

/-- No loop in a pass runs out of turns. -/
theorem sweeps_ends (hpasses : ∀ pass ∈ passes, pass ∈ Pass.registry) (limit left : Nat)
    (run : PipelineRun) (hg : TidyIn .root run.graph) (hnone : run.failure = none) {cause : Failure}
    (hcause : (sweeps ⟨passes, limit⟩ left run).failure = some cause) : cause.isEndless = false := by
  induction left generalizing run with
  | zero =>
      rw [sweeps, hnone] at hcause
      cases hcause
  | succ left ih =>
      obtain ⟨⟨changes, after⟩, hsweep⟩ :
          ∃ out, sweep run.iterations passes (.int 0) { run with iterations := run.iterations + 1 } =
            out := ⟨_, rfl⟩
      have hruns := sweep_runs hpasses run.iterations (.int 0)
        { run with iterations := run.iterations + 1 } hg hnone
      simp only [hsweep] at hruns
      rw [sweeps_succ hsweep] at hcause
      cases hafter : after.failure with
      | some found =>
          rw [if_pos (by simp [hafter])] at hcause
          exact hruns.1 cause hcause
      | none =>
          obtain ⟨count, hcount, -⟩ := hruns.2 hafter
          rw [hafter] at hcause
          simp only [Option.isSome_none, Bool.false_eq_true, if_false] at hcause
          split at hcause
          · rw [show after.failure = some cause from hcause] at hafter
            cases hafter
          · exact ih (noted (run.iterations + 1) changes after) (hcount.tidyIn hg) hafter hcause

/-- Sweeps of which none fails are a run. -/
theorem sweeps_runs (hpasses : ∀ pass ∈ passes, pass ∈ Pass.registry) (limit left : Nat)
    (run : PipelineRun) (hg : TidyIn .root run.graph) (hnone : run.failure = none)
    (hend : (sweeps ⟨passes, limit⟩ left run).failure = none) :
    ∃ count, Run .root run.graph count (sweeps ⟨passes, limit⟩ left run).graph := by
  induction left generalizing run with
  | zero => exact ⟨0, .start⟩
  | succ left ih =>
      obtain ⟨⟨changes, after⟩, hsweep⟩ :
          ∃ out, sweep run.iterations passes (.int 0) { run with iterations := run.iterations + 1 } =
            out := ⟨_, rfl⟩
      obtain ⟨-, hruns⟩ := sweep_runs hpasses run.iterations (.int 0)
        { run with iterations := run.iterations + 1 } hg hnone
      simp only [hsweep] at hruns
      rw [sweeps_succ hsweep] at hend ⊢
      cases hafter : after.failure with
      | some found =>
          simp [hafter] at hend
      | none =>
          obtain ⟨count, hcount, -⟩ := hruns hafter
          simp only [hafter, Option.isSome_none, Bool.false_eq_true, if_false] at hend ⊢
          split at hend
          · rename_i hsame
            rw [if_pos hsame]
            exact ⟨count, hcount⟩
          · rename_i hchanged
            rw [if_neg hchanged]
            obtain ⟨more, hmore⟩ := ih (noted (run.iterations + 1) changes after) (hcount.tidyIn hg)
              hafter hend
            exact ⟨count + more, hcount.trans hmore⟩

/-- With sweeps enough a pipeline comes to a clean one. -/
theorem sweeps_converge (hpasses : ∀ pass ∈ passes, pass ∈ Pass.registry) {k : Nat}
    (run : PipelineRun) (hg : TidyIn .root run.graph) (hk : run.graph.movables ≤ k)
    (hnone : run.failure = none) :
    ∃ bound, ∀ limit, ∀ left ≥ bound, (sweeps ⟨passes, limit⟩ left run).failure = none →
      (sweeps ⟨passes, limit⟩ left run).converged = true := by
  generalize hrank : run.graph.rank k = r
  induction r using WellFoundedLT.induction generalizing run with
  | _ r ih =>
      subst hrank
      obtain ⟨⟨changes, after⟩, hsweep⟩ :
          ∃ out, sweep run.iterations passes (.int 0) { run with iterations := run.iterations + 1 } =
            out := ⟨_, rfl⟩
      have hafter : ∀ limit left, (sweeps ⟨passes, limit⟩ (left + 1) run).failure = none →
          after.failure = none := by
        intro limit left hfailure
        rw [sweeps_succ hsweep] at hfailure
        split at hfailure
        · exact hfailure
        · rename_i hsome
          simpa using hsome
      cases hchanged : changes.same (.int 0) with
      | true =>
          refine ⟨1, fun limit left hleft hfailure => ?_⟩
          obtain ⟨left, rfl⟩ := Nat.exists_eq_add_of_le' hleft
          rw [sweeps_succ hsweep, hafter limit left hfailure, hchanged]
          rfl
      | false =>
          cases hended : after.failure with
          | some cause =>
              refine ⟨1, fun limit left hleft hfailure => ?_⟩
              obtain ⟨left, rfl⟩ := Nat.exists_eq_add_of_le' hleft
              rw [hafter limit left hfailure] at hended
              cases hended
          | none =>
              obtain ⟨htidy, hmovables, hlt⟩ := sweep_descends hpasses run.iterations
                { run with iterations := run.iterations + 1 } hg hnone hsweep hended hk
              obtain ⟨bound, hbound⟩ := ih _ (hlt hchanged)
                (noted (run.iterations + 1) changes after) htidy hmovables hended rfl
              refine ⟨bound + 1, fun limit left hleft => ?_⟩
              obtain ⟨left, rfl⟩ := Nat.exists_eq_add_of_le' (Nat.le_of_add_left_le hleft)
              rw [sweeps_succ hsweep, hended, hchanged]
              exact hbound limit left (by omega)

/-- Rewriting a valid graph comes to an end. With a limit on sweeps that is high enough a pipeline of
known passes converges unless a pass fails, no loop over the rewrites of a graph is endless whatever
the limit, and there is no infinite sequence of rewrites, in whichever graphs of the tree they are
made. -/
theorem reaches_fixpoint {g : Graph} (hvalid : g.IsValid) (hkeyed : KeyedTree g)
    (hpasses : ∀ pass ∈ passes, pass ∈ Pass.registry) :
    (∃ bound, ∀ limit ≥ bound, ((⟨passes, limit⟩ : Pipeline).run g).failure = none →
      ((⟨passes, limit⟩ : Pipeline).run g).converged = true) ∧
    (∀ limit what, ((⟨passes, limit⟩ : Pipeline).run g).failure ≠ some (.endless what)) ∧
    ¬ ∃ stages : Nat → Graph, stages 0 = g ∧ ∀ i, Run .root (stages i) 1 (stages (i + 1)) := by
  have hg := hvalid.tidyIn hkeyed
  refine ⟨?_, fun limit what hwhat => ?_, not_endless_runs hg⟩
  · obtain ⟨bound, hbound⟩ := sweeps_converge hpasses
      { graph := g, tally := Tally.start (passes.map Pass.name) } hg (Nat.le_refl _) rfl
    exact ⟨bound, fun limit hlimit => hbound limit limit hlimit⟩
  · have := sweeps_ends hpasses limit limit _ hg rfl hwhat
    cases this

/-- A graph in which two transpositions cancel. -/
def thereAndBack : Graph where
  inputs := ["x"]
  outputs := ["y"]
  nodes := [
    { name := "there", op := "Transpose", inputs := ["x"], outputs := ["turned"]
      attributes := [("perm", .numbers [.int 1, .int 0])] },
    { name := "back", op := "Transpose", inputs := ["turned"], outputs := ["y"]
      attributes := [("perm", .numbers [.int 1, .int 0])] }]

theorem reaches_fixpoint_thereAndBack :
    thereAndBack.IsValid ∧ KeyedTree thereAndBack ∧
    (∀ pass ∈ [Pass.transpose, Pass.identity], pass ∈ Pass.registry) ∧
    (∃ bound, ∀ limit ≥ bound,
      ((⟨[Pass.transpose, Pass.identity], limit⟩ : Pipeline).run thereAndBack).failure = none →
      ((⟨[Pass.transpose, Pass.identity], limit⟩ : Pipeline).run thereAndBack).converged = true) := by
  have hvalid : thereAndBack.IsValid := by
    unfold IsValid
    decide +kernel
  have hkeyed : KeyedTree thereAndBack := by
    refine .intro ?_ ?_
    · simp [thereAndBack, Node.Keyed]
    · simp [thereAndBack, Node.bodies, Attribute.body?]
  have hpasses : ∀ pass ∈ [Pass.transpose, Pass.identity], pass ∈ Pass.registry := by
    simp [Pass.registry]
  exact ⟨hvalid, hkeyed, hpasses, (reaches_fixpoint hvalid hkeyed hpasses).1⟩

end Pipeline

end TensorGraph
