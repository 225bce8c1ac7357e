import TensorGraph.Proofs.Counting
import TensorGraph.Proofs.Termination

/-!
# Settled trees

A tree is settled for a treatment of graphs when the treatment leaves every graph of it as it is. A
pass that counts no change has been given a settled tree, and on a settled tree a pass counts no
change. What settles a single graph is told apart for each pass: no rule fits a transposition, no
identity can go, every node is needed.

## Main results

* `Settled.everyGraph` -- a settled tree stays as it is.
* `settled_of_clean` -- a tree in which nothing was changed is settled.
* `isOutcome_of_sweepBelow` -- every body is the outcome of its treatment.
* `Pipeline.settled_of_converged` -- where a pipeline has converged all its passes are settled.
-/

namespace TensorGraph

open TensorGraph.Graph Rewriting

/-- Whether a treatment has come to its end and has counted no change. -/
structure Sweep.Clean (sweep : Sweep) : Prop where
  unfailed : sweep.failure = none
  unchanged : sweep.changes = 0

/-- Whether a treatment that counts no change leaves the graph as it is. -/
def Honest (visit : Surroundings → Graph → Sweep) : Prop :=
  ∀ s g, (visit s g).Clean → visit s g = { graph := g }

/-- Whether a treatment leaves a graph and all graphs below it as they are. -/
inductive Settled (visit : Surroundings → Graph → Sweep) : Surroundings → Graph → Prop
  | intro {s : Surroundings} {g : Graph} (here : visit s g = { graph := g })
      (below : ∀ place key body, g.HasBody place key body →
        Settled visit (s.inside g place key) body) : Settled visit s g

theorem Sweep.clean_start (g : Graph) : Sweep.Clean { graph := g } := ⟨rfl, rfl⟩

theorem Sweep.Clean.of_andThen {first : Sweep} {next : Graph → Sweep}
    (h : (first.andThen next).Clean) : first.Clean ∧ (next first.graph).Clean := by
  obtain ⟨hfirst, hnext, -⟩ := Sweep.unfailed_of_andThen h.unfailed
  have hchanges := h.unchanged
  simp only [Sweep.andThen, hfirst, Option.isSome_none, Bool.false_eq_true, if_false,
    Nat.add_eq_zero_iff] at hchanges
  exact ⟨⟨hfirst, hchanges.1⟩, hnext, hchanges.2⟩

/-- After nothing has been done, what comes next is all that is done. -/
theorem Sweep.andThen_start (g : Graph) (next : Graph → Sweep) :
    ({ graph := g } : Sweep).andThen next = next g := by
  simp [Sweep.andThen]

/-! ## Trees -/

/-- What holds everywhere in a tree holds in the tree under a body. -/
theorem Graph.Everywhere.hasBody {scope : Graph → (String → Prop) → String → Prop}
    {P : (String → Prop) → Graph → Prop} {visible : String → Prop} {g : Graph} {place : Nat}
    {key : String} {body : Graph} (h : Everywhere scope P visible g)
    (hbody : g.HasBody place key body) : Everywhere scope P (scope g visible) body := by
  obtain ⟨n, hn, hmem⟩ := hbody
  exact h.body (List.mem_of_getElem? hn) hmem

/-- The attributes of a tidy tree are records. -/
theorem Graph.TidyTree.keyedTree {taken : String → Prop} {g : Graph} (h : TidyTree taken g) :
    KeyedTree g := by
  induction h with
  | intro here _ ih => exact .intro here.keyed ih

section Trees

variable {visit : Surroundings → Graph → Sweep} {s : Surroundings} {g : Graph}

/-- The slots of a graph are the places of its bodies. -/
theorem mem_bodySlots {α : Type} {f : String × Graph → α} {place : Nat} {key : String} {a : α} :
    (place, key, a) ∈ bodySlots g (g.nodes.map fun n => n.bodies.map f) ↔
      ∃ body, g.HasBody place key body ∧ f (key, body) = a := by
  rw [bodySlots_map]
  simp only [List.mem_flatMap, List.mem_map, Prod.exists]
  constructor
  · rintro ⟨n, i, hmem, k, body, hbody, heq⟩
    cases heq
    exact ⟨body, ⟨n, List.mem_zipIdx_iff_getElem?.1 hmem, hbody⟩, rfl⟩
  · rintro ⟨body, ⟨n, hn, hbody⟩, rfl⟩
    exact ⟨n, place, List.mem_zipIdx_iff_getElem?.2 hn, key, body, hbody, rfl⟩

private theorem sweepBody_of_start {place : Nat} {key : String} {treat : Surroundings → Sweep}
    {body : Graph} (hbody : g.HasBody place key body) (hkeyed : ∀ n ∈ g.nodes, n.Keyed)
    (hstart : treat (s.inside g place key) = { graph := body }) :
    sweepBody s (place, key, treat) g = { graph := g } := by
  simp only [sweepBody, hstart, hbody.putBody_self hkeyed]

private theorem foldl_sweepBody {slots : List (Nat × String × (Surroundings → Sweep))}
    (hslots : ∀ slot ∈ slots, sweepBody s slot g = { graph := g }) :
    slots.foldl (fun (sweep : Sweep) slot => sweep.andThen (sweepBody s slot)) { graph := g } =
      { graph := g } := by
  induction slots with
  | nil => rfl
  | cons slot rest ih =>
      rw [List.foldl_cons, Sweep.andThen_start, hslots slot (by simp)]
      exact ih fun other hother => hslots other (List.mem_cons_of_mem _ hother)

/-- A settled tree stays as it is. -/
theorem Settled.everyGraph (h : Settled visit s g) (hkeyed : KeyedTree g) :
    everyGraph visit s g = { graph := g } := by
  induction h with
  | @intro s g here _ ih =>
      rw [everyGraph_eq, sweepWithBodies, foldl_sweepBody fun slot hslot => ?_]
      · rw [Sweep.andThen_start, here]
      · obtain ⟨place, key, treat⟩ := slot
        obtain ⟨body, hbody, rfl⟩ := mem_bodySlots.1 hslot
        exact sweepBody_of_start hbody hkeyed.here (ih _ _ _ hbody (hkeyed.hasBody hbody))

private theorem clean_of_foldl {slots : List (Nat × String × (Surroundings → Sweep))} {sweep : Sweep}
    (h : (slots.foldl (fun (sweep : Sweep) slot => sweep.andThen (sweepBody s slot)) sweep).Clean) :
    sweep.Clean := by
  induction slots generalizing sweep with
  | nil => exact h
  | cons slot rest ih => exact (ih h).of_andThen.1

/-- Where nothing was changed in the course of the bodies, nothing was changed in any of them. -/
private theorem clean_of_foldl_start {slots : List (Nat × String × (Surroundings → Sweep))}
    (hslots : ∀ slot ∈ slots, (sweepBody s slot g).Clean → sweepBody s slot g = { graph := g })
    (h : (slots.foldl (fun (sweep : Sweep) slot => sweep.andThen (sweepBody s slot)) { graph := g }).Clean) :
    ∀ slot ∈ slots, (sweepBody s slot g).Clean := by
  induction slots with
  | nil => simp
  | cons slot rest ih =>
      rw [List.foldl_cons, Sweep.andThen_start] at h
      have hfirst := clean_of_foldl h
      rw [hslots slot (by simp) hfirst] at h
      have hrest := ih (fun other hother => hslots other (List.mem_cons_of_mem _ hother)) h
      simpa [hfirst] using hrest

/-- A tree in which nothing was changed is settled. -/
theorem settled_of_clean (hvisit : Honest visit) (hkeyed : KeyedTree g)
    (h : (everyGraph visit s g).Clean) : Settled visit s g := by
  induction g using bodyInduction generalizing s with
  | step g ih =>
      rw [everyGraph_eq, sweepWithBodies] at h
      have hbelow : ∀ place key body, g.HasBody place key body →
          (TensorGraph.everyGraph visit (s.inside g place key) body).Clean →
          Settled visit (s.inside g place key) body := by
        rintro place key body ⟨n, hn, hmem⟩ hclean
        exact ih n (List.mem_of_getElem? hn) _ hmem
          (hkeyed.body (List.mem_of_getElem? hn) hmem) hclean
      have hslots : ∀ slot ∈ bodySlots g (g.nodes.map fun n => n.bodies.map fun body s =>
          TensorGraph.everyGraph visit s body.2), (sweepBody s slot g).Clean →
            sweepBody s slot g = { graph := g } := by
        rintro ⟨place, key, treat⟩ hslot ⟨hnone, hzero⟩
        obtain ⟨body, hbody, rfl⟩ := mem_bodySlots.1 hslot
        exact sweepBody_of_start hbody hkeyed.here
          ((hbelow _ _ _ hbody ⟨hnone, hzero⟩).everyGraph (hkeyed.hasBody hbody))
      obtain ⟨hbodies, hlast⟩ := h.of_andThen
      have hclean := clean_of_foldl_start hslots hbodies
      rw [foldl_sweepBody fun slot hslot => hslots slot hslot (hclean slot hslot)] at hlast
      refine .intro (hvisit s g hlast) fun place key body hbody => hbelow place key body hbody ?_
      obtain ⟨hnone, hzero⟩ := hclean _ (mem_bodySlots.2 ⟨body, hbody, rfl⟩)
      exact ⟨hnone, hzero⟩

end Trees

/-! ## What becomes of the bodies -/

/-- The treatment of the bodies of a graph, which comes before that of the graph. -/
def sweepBelow (visit : Surroundings → Graph → Sweep) (s : Surroundings) (g : Graph) : Sweep :=
  (bodySlots g (g.nodes.map fun n => n.bodies.map fun body s => everyGraph visit s body.2)).foldl
    (fun (sweep : Sweep) slot => sweep.andThen (sweepBody s slot)) { graph := g }

theorem everyGraph_eq_andThen (visit : Surroundings → Graph → Sweep) (s : Surroundings) (g : Graph) :
    everyGraph visit s g = (sweepBelow visit s g).andThen (visit s) := by
  rw [everyGraph_eq, sweepWithBodies, sweepBelow]

section Below

variable {visit : Surroundings → Graph → Sweep} {valid : Graph → Prop} {s : Surroundings}
  {g h : Graph}

/-- Whether a body is what a treatment has made of a body of `g`, when the graph around it had come to
some valid graph. -/
def IsOutcome (visit : Surroundings → Graph → Sweep) (valid : Graph → Prop) (s : Surroundings)
    (g : Graph) (place : Nat) (key : String) (body : Graph) : Prop :=
  ∃ host old, valid host ∧ g.HasBody place key old ∧ host.HasBody place key old ∧
    (everyGraph visit (s.inside host place key) old).failure = none ∧
    (everyGraph visit (s.inside host place key) old).graph = body

/-- Some bodies of a graph have been treated, and some are left to do. -/
private structure Underway (visit : Surroundings → Graph → Sweep) (valid : Graph → Prop)
    (s : Surroundings) (g : Graph) (todo : List (Nat × String)) (h : Graph) : Prop where
  keeps : valid h
  left : ∀ place key body, (place, key) ∈ todo → g.HasBody place key body → h.HasBody place key body
  done : ∀ place key body, h.HasBody place key body →
    (place, key) ∈ todo ∨ IsOutcome visit valid s g place key body

private theorem unfailed_of_foldl {slots : List (Nat × String × (Surroundings → Sweep))}
    {sweep : Sweep}
    (h : (slots.foldl (fun (sweep : Sweep) slot => sweep.andThen (sweepBody s slot)) sweep).failure =
      none) : sweep.failure = none := by
  induction slots generalizing sweep with
  | nil => exact h
  | cons slot rest ih => exact (Sweep.unfailed_of_andThen (ih h)).1

variable (valid) (hkeyed : ∀ h, valid h → ∀ n ∈ h.nodes, n.Keyed)
  (hput : ∀ h place key old, valid h → h.HasBody place key old →
    (everyGraph visit (s.inside h place key) old).failure = none →
      valid (h.putBody place key (everyGraph visit (s.inside h place key) old).graph))

include hkeyed hput

private theorem Underway.next {todo : List (Nat × String)} {place : Nat} {key : String} {old : Graph}
    (hh : Underway visit valid s g ((place, key) :: todo) h) (hbody : g.HasBody place key old)
    (hnot : (place, key) ∉ todo)
    (hnone : (everyGraph visit (s.inside h place key) old).failure = none) :
    Underway visit valid s g todo
      (h.putBody place key (everyGraph visit (s.inside h place key) old).graph) := by
  have hold := hh.left place key old List.mem_cons_self hbody
  refine ⟨hput h place key old hh.keeps hold hnone, fun place' key' body hmem hbody => ?_,
    fun place' key' body hbody' => ?_⟩
  · refine (hh.left place' key' body (List.mem_cons_of_mem _ hmem) hbody).putBody_of_ne ?_
    by_contra hboth
    push Not at hboth
    obtain ⟨rfl, rfl⟩ := hboth
    exact hnot hmem
  · rcases hold.of_putBody (hkeyed h hh.keeps) hbody' with ⟨rfl, rfl, rfl⟩ | ⟨hne, hbody'⟩
    · exact .inr ⟨h, old, hh.keeps, hbody, hold, hnone, rfl⟩
    · refine (hh.done place' key' body hbody').imp_left fun hmem => ?_
      refine (List.mem_cons.1 hmem).resolve_left fun heq => ?_
      cases heq
      exact hne.elim (fun h => h rfl) fun h => h rfl

private theorem Underway.foldl {slots : List (Nat × String × (Surroundings → Sweep))} {sweep : Sweep}
    (hh : Underway visit valid s g (slots.map fun slot => (slot.1, slot.2.1)) sweep.graph)
    (hnodup : (slots.map fun slot => (slot.1, slot.2.1)).Nodup)
    (hslots : ∀ place key treat, (place, key, treat) ∈ slots → ∃ body,
      g.HasBody place key body ∧ treat = fun s => everyGraph visit s body)
    (hnone : (slots.foldl (fun (sweep : Sweep) slot => sweep.andThen (sweepBody s slot))
      sweep).failure = none) :
    Underway visit valid s g [] (slots.foldl (fun (sweep : Sweep) slot =>
      sweep.andThen (sweepBody s slot)) sweep).graph := by
  induction slots generalizing sweep with
  | nil => exact hh
  | cons slot rest ih =>
      obtain ⟨place, key, treat⟩ := slot
      obtain ⟨body, hbody, rfl⟩ := hslots place key treat List.mem_cons_self
      rw [List.map_cons] at hh hnodup
      rw [List.nodup_cons] at hnodup
      obtain ⟨-, htreated, hgraph⟩ := Sweep.unfailed_of_andThen (unfailed_of_foldl hnone)
      refine ih ?_ hnodup.2 (fun p k t h => hslots p k t (List.mem_cons_of_mem _ h)) hnone
      rw [hgraph]
      exact hh.next valid hkeyed hput hbody hnodup.1 htreated

/-- After the bodies of a graph have been treated each of them is the outcome of its treatment. -/
theorem isOutcome_of_sweepBelow (hg : valid g) (hnone : (sweepBelow visit s g).failure = none) :
    valid (sweepBelow visit s g).graph ∧ ∀ place key body,
      (sweepBelow visit s g).graph.HasBody place key body →
        IsOutcome visit valid s g place key body := by
  have hstart : Underway visit valid s g ((bodySlots g (g.nodes.map fun n =>
      n.bodies.map fun body s => everyGraph visit s body.2)).map fun slot => (slot.1, slot.2.1))
        ({ graph := g } : Sweep).graph :=
    { keeps := hg
      left := fun _ _ _ _ hbody => hbody
      done := fun place key body hbody => .inl
        (List.mem_map.2 ⟨(place, key, _), mem_bodySlots.2 ⟨body, hbody, rfl⟩, rfl⟩) }
  have hdone := hstart.foldl valid hkeyed hput (nodup_bodySlots (hkeyed g hg) _) ?_ hnone
  · exact ⟨hdone.keeps, fun place key body hbody =>
      (hdone.done place key body hbody).resolve_left (by simp)⟩
  · intro place key treat hslot
    obtain ⟨body, hbody, rfl⟩ := mem_bodySlots.1 hslot
    exact ⟨body, hbody, rfl⟩

end Below

/-! ## Rules that no longer apply -/

namespace Sweep

variable {what : String} {rule : Graph → Except Stopped (Option (Graph × String))} {fuel : Nat}

theorem changes_le_untilClean (what : String)
    (rule : Graph → Except Stopped (Option (Graph × String))) (fuel : Nat) (sweep : Sweep) :
    sweep.changes ≤ (untilClean what rule fuel sweep).changes := by
  induction fuel generalizing sweep with
  | zero => exact Nat.le_refl _
  | succ fuel ih =>
      unfold untilClean
      split
      · exact Nat.le_refl _
      · exact Nat.le_refl _
      · rename_i after line _
        exact (Nat.le_succ _).trans
          (ih { sweep with graph := after, changes := sweep.changes + 1, log := sweep.log ++ [line] })

/-- A rule that was never applied does not fit. -/
theorem eq_none_of_untilClean {sweep : Sweep} (hnone : (untilClean what rule fuel sweep).failure = none)
    (hchanges : (untilClean what rule fuel sweep).changes = sweep.changes) :
    rule sweep.graph = .ok none := by
  cases fuel with
  | zero => cases hnone
  | succ fuel =>
      unfold untilClean at hnone hchanges
      split at hnone
      · cases hnone
      · assumption
      · rename_i after line hafter
        rw [hafter] at hchanges
        have hmore := changes_le_untilClean what rule fuel
          { sweep with graph := after, changes := sweep.changes + 1, log := sweep.log ++ [line] }
        simp only at hmore hchanges
        omega

/-- Where a rule is applied until it no longer fits, it does not fit in the end. -/
theorem untilClean_eq_none {sweep : Sweep}
    (hnone : (untilClean what rule fuel sweep).failure = none) :
    rule (untilClean what rule fuel sweep).graph = .ok none := by
  induction fuel generalizing sweep with
  | zero => cases hnone
  | succ fuel ih =>
      rw [untilClean] at hnone ⊢
      cases hrule : rule sweep.graph with
      | error stopped =>
          rw [hrule] at hnone
          cases hnone
      | ok found =>
          cases found with
          | none => exact hrule
          | some found =>
              rw [hrule] at hnone
              exact ih hnone

/-- What every application of a rule keeps is kept in the end. -/
theorem untilClean_keeps (inv : Graph → Prop)
    (hrule : ∀ h h' line, inv h → rule h = .ok (some (h', line)) → inv h') {sweep : Sweep}
    (hsweep : inv sweep.graph) (hnone : (untilClean what rule fuel sweep).failure = none) :
    inv (untilClean what rule fuel sweep).graph := by
  induction fuel generalizing sweep with
  | zero => cases hnone
  | succ fuel ih =>
      unfold untilClean at hnone ⊢
      split at hnone
      · cases hnone
      · exact hsweep
      · rename_i after line hafter
        exact ih (hrule _ _ _ hsweep hafter) hnone

theorem untilClean_of_eq_none {sweep : Sweep} (hfuel : 0 < fuel) (h : rule sweep.graph = .ok none) :
    untilClean what rule fuel sweep = sweep := by
  obtain ⟨fuel, rfl⟩ := Nat.exists_eq_succ_of_ne_zero (Nat.ne_of_gt hfuel)
  rw [untilClean, h]

end Sweep

namespace Transposes

variable {s : Surroundings} {g : Graph}

theorem sweepGraph_of_eq_none (h : step s g = .ok none) : sweepGraph s g = { graph := g } := by
  have hclean : Sweep.untilClean "transpose" (step s) (budget g) { graph := g } = { graph := g } :=
    Sweep.untilClean_of_eq_none (Nat.pow_pos (Nat.succ_pos _)) h
  simp [sweepGraph, hclean]

theorem eq_none_of_clean (h : (sweepGraph s g).Clean) : step s g = .ok none := by
  have hgoal : (Sweep.untilClean "transpose" (step s) (budget g) { graph := g }).Clean := by
    obtain ⟨hnone, hzero⟩ := h
    unfold sweepGraph at hnone hzero
    simp only at hnone hzero
    split at hnone
    · rename_i hdone
      rw [if_pos hdone] at hzero
      exact ⟨hnone, hzero⟩
    · rename_i hdone
      rw [if_neg hdone] at hzero
      simp only [Bool.or_eq_true, Bool.not_eq_true, not_or, decide_eq_true_eq] at hdone
      split at hzero
      · exact absurd hzero hdone.2
      · exact absurd hzero hdone.2
  exact Sweep.eq_none_of_untilClean hgoal.unfailed hgoal.unchanged

theorem honest_sweepGraph : Honest sweepGraph := fun _ _ h => sweepGraph_of_eq_none (eq_none_of_clean h)

/-- No rule fits a graph exactly when it has an order and no rule fits any of its nodes. -/
theorem step_eq_none_iff :
    step s g = .ok none ↔ (∃ order, g.topologicalOrder = .ok order) ∧
      ∀ place n, g.nodes[place]? = some n → treat s g place n = .ok none := by
  have hfirst : ∀ places, treatFirst s g places = .ok none ↔
      ∀ place ∈ places, ∀ n, g.nodes[place]? = some n → treat s g place n = .ok none := by
    intro places
    induction places with
    | nil => simp [treatFirst]
    | cons place rest ih =>
        rw [treatFirst]
        cases hn : g.nodes[place]? with
        | none => simp [ih, hn]
        | some n =>
            simp only [List.forall_mem_cons, hn, Option.some.injEq, forall_eq']
            rw [← ih]
            cases htreat : treat s g place n with
            | error stopped => simp [bind, Except.bind]
            | ok found => cases found <;> simp [bind, Except.bind, pure, Except.pure]
  unfold step
  cases horder : g.topologicalOrder with
  | error cause => simp
  | ok order =>
      simp only [hfirst, Except.ok.injEq, exists_eq', true_and]
      exact ⟨fun h place n hn =>
        h place ((mem_order_iff horder).2 (List.getElem?_eq_some_iff.1 hn).1) n hn,
        fun h place _ n hn => h place n hn⟩

end Transposes

/-- A rule that ends with a change is not without one. -/
theorem bind_ne_none {α β : Type} (x : Except Stopped α)
    {f : α → Except Stopped (Option β)} (hf : ∀ a, f a ≠ .ok none) : (x >>= f) ≠ .ok none := fun h => by
  obtain ⟨a, -, ha⟩ := bind_eq_ok h
  exact hf a ha

namespace Identities

variable {s : Surroundings} {g : Graph}

theorem sweepGraph_of_eq_none (h : removeFirst s g (nodeRefs g) = .ok none) :
    sweepGraph s g = { graph := g } :=
  Sweep.untilClean_of_eq_none (Nat.succ_pos _) h

theorem eq_none_of_clean (h : (sweepGraph s g).Clean) : removeFirst s g (nodeRefs g) = .ok none :=
  Sweep.eq_none_of_untilClean h.unfailed h.unchanged

theorem honest_sweepGraph : Honest sweepGraph := fun _ _ h => sweepGraph_of_eq_none (eq_none_of_clean h)

/-- No identity can go from a graph exactly when none of its nodes is one that can go. -/
theorem removeFirst_eq_none_iff :
    removeFirst s g (nodeRefs g) = .ok none ↔
      ∀ place n, g.nodes[place]? = some n → n.op = "Identity" →
        eliminate s g { node := n, place := some place } = .ok none := by
  have hrefs : ∀ refs, removeFirst s g refs = .ok none ↔
      ∀ r ∈ refs, r.node.op = "Identity" → eliminate s g r = .ok none := by
    intro refs
    induction refs with
    | nil => simp [removeFirst]
    | cons r rest ih =>
        rw [removeFirst, List.forall_mem_cons, ← ih]
        by_cases hop : r.node.op = "Identity"
        · simp only [hop, if_true, forall_const]
          cases heliminate : eliminate s g r with
          | error stopped => simp [bind, Except.bind]
          | ok found => cases found <;> simp [bind, Except.bind, pure, Except.pure]
        · simp [hop]
  rw [hrefs]
  simp only [nodeRefs, List.mem_map, Prod.exists, List.mem_zipIdx_iff_getElem?,
    forall_exists_index, and_imp]
  constructor
  · intro h place n hn
    exact h _ n place hn rfl
  · rintro h r n place hn rfl
    exact h place n hn

/-- An identity with two ends stays when it yields an output of the graph whose name nothing else can
take over. -/
theorem eliminate_eq_none_iff {r : NodeRef} {input output : String}
    (hends : endpoints? r.node = some (input, output)) :
    eliminate s g r = .ok none ↔ g.isOutput output = true ∧ (g.isOutput input = true ∨
      (g.producer? input).isSome = false ∧ s.enclosing.isEmpty = true) := by
  unfold eliminate
  simp only [hends]
  cases houtput : g.isOutput output with
  | false => exact iff_of_false (bind_ne_none _ fun removed h => by cases h) (by simp)
  | true =>
      cases hinput : g.isOutput input with
      | true => simp
      | false =>
          cases hproducer : (g.producer? input).isSome with
          | true =>
              exact iff_of_false
                (bind_ne_none _ fun removed => bind_ne_none _ fun renamed h => by cases h) (by simp)
          | false =>
              cases henclosing : s.enclosing.isEmpty with
              | true => simp
              | false =>
                  exact iff_of_false
                    (bind_ne_none _ fun removed => bind_ne_none _ fun rebound h => by cases h)
                    (by simp)

end Identities

namespace DeadNodes

variable {s : Surroundings} {g : Graph}

/-- Nothing is dropped exactly when everything is live. -/
theorem dropDead_eq_self_iff {kept places : List Nat} :
    (dropDead g kept places).2 = [] ↔ ∀ place ∈ places, isLive g kept place = true := by
  induction places with
  | nil => simp [dropDead]
  | cons place rest ih =>
      rw [dropDead]
      by_cases hlive : isLive g kept place = true
      · simp [hlive, ih]
      · simp [hlive]

theorem dropDead_of_live {kept places : List Nat}
    (h : ∀ place ∈ places, isLive g kept place = true) : dropDead g kept places = (kept, []) := by
  induction places with
  | nil => rfl
  | cons place rest ih =>
      rw [dropDead, if_pos (h place (by simp))]
      exact ih fun other hother => h other (List.mem_cons_of_mem _ hother)

/-- Whether all nodes are needed, in an order in which they can be looked at. -/
def AllLive (g : Graph) : Prop :=
  ∃ order, g.topologicalOrder = .ok order ∧
    ∀ place ∈ order, isLive g (List.range g.nodes.length) place = true

theorem round_of_allLive (h : AllLive g) : round g = { graph := g } := by
  obtain ⟨order, horder, hlive⟩ := h
  unfold round
  rw [horder]
  simp only
  rw [dropDead_of_live fun place hplace => hlive place (List.mem_reverse.1 hplace)]
  simp only [restrict, g.nodesAt_range]
  cases g
  simp [nodesAt]

theorem sweepGraph_of_allLive (h : AllLive g) : sweepGraph s g = { graph := g } := by
  simp [sweepGraph, rounds, round_of_allLive h]

/-- Where a round removes nothing every node is needed. -/
theorem allLive_of_round (h : (round g).Clean) : AllLive g := by
  obtain ⟨hnone, hzero⟩ := h
  unfold round at hnone hzero
  cases horder : g.topologicalOrder with
  | error cause =>
      rw [horder] at hnone
      cases hnone
  | ok order =>
      rw [horder] at hzero
      refine ⟨order, horder, fun place hplace => ?_⟩
      exact dropDead_eq_self_iff.1 (List.eq_nil_of_length_eq_zero hzero) place
        (List.mem_reverse.2 hplace)

theorem allLive_of_clean (h : (sweepGraph s g).Clean) : AllLive g := by
  refine allLive_of_round ?_
  unfold sweepGraph rounds at h
  simp only at h
  split at h
  · exact h
  · exact h.of_andThen.1

theorem honest_sweepGraph : Honest sweepGraph := fun _ _ h => sweepGraph_of_allLive (allLive_of_clean h)

end DeadNodes

/-! ## Passes -/

namespace Pass

/-- The treatments of single graphs of the passes that are known by name. -/
def treatments : List (Surroundings → Graph → Sweep) :=
  [Transposes.sweepGraph, Identities.sweepGraph, DeadNodes.sweepGraph]

/-- A pass that is known by name treats every graph of a tree in one of three ways. -/
theorem eq_ofVisit {pass : Pass} (hpass : pass ∈ registry) :
    ∃ visit ∈ treatments, pass = ofVisit pass.name visit := by
  simp only [registry, List.mem_cons, List.not_mem_nil, or_false] at hpass
  rcases hpass with rfl | rfl | rfl
  · exact ⟨Transposes.sweepGraph, by simp [treatments], rfl⟩
  · exact ⟨Identities.sweepGraph, by simp [treatments], rfl⟩
  · exact ⟨DeadNodes.sweepGraph, by simp [treatments], rfl⟩

theorem honest_of_mem_treatments {visit : Surroundings → Graph → Sweep} (h : visit ∈ treatments) :
    Honest visit := by
  simp only [treatments, List.mem_cons, List.not_mem_nil, or_false] at h
  rcases h with rfl | rfl | rfl
  · exact Transposes.honest_sweepGraph
  · exact Identities.honest_sweepGraph
  · exact DeadNodes.honest_sweepGraph

/-- Whether a pass leaves a tree as it is, in whichever sweep it comes. -/
def SettledAt (g : Graph) (pass : Pass) : Prop :=
  ∀ number, pass.run .root number g = { graph := g }

theorem settledAt_ofVisit {visit : Surroundings → Graph → Sweep} (name : String) {g : Graph}
    (hkeyed : KeyedTree g) (h : Settled visit .root g) : (ofVisit name visit).SettledAt g := by
  intro number
  simp only [ofVisit, h.everyGraph hkeyed]
  rfl

/-- A pass leaves a tree as it is just if it leaves every graph in it. -/
theorem settledAt_ofVisit_iff {visit : Surroundings → Graph → Sweep} {name : String} {g : Graph}
    (hvisit : Honest visit) (hkeyed : KeyedTree g) :
    (ofVisit name visit).SettledAt g ↔ Settled visit .root g := by
  refine ⟨fun h => settled_of_clean hvisit hkeyed ⟨?_, ?_⟩, settledAt_ofVisit name hkeyed⟩
  · exact congrArg PassRun.failure (h 0)
  · exact Int.ofNat.inj (Number.int.inj (congrArg PassRun.changes (h 0)))

end Pass

/-! ## Clean sweeps -/

/-- No changes under a name add nothing to a tally that has counted none. -/
theorem Tally.add_zero {t : Tally} {name : String} (h : ∀ entry ∈ t, entry.2 = .int 0) :
    t.add name (.int 0) = t := by
  refine (List.map_congr_left fun entry hentry => ?_).trans (List.map_id t)
  have hzero := h entry hentry
  obtain ⟨other, count⟩ := entry
  subst hzero
  simp only [id_eq]
  split <;> rfl

namespace Pipeline

variable {passes : List Pass} {g : Graph}

/-- What has been counted in a sweep is not lost by its later passes. -/
theorem sweep_positive (hpasses : ∀ pass ∈ passes, pass ∈ Pass.registry) (number : Nat)
    {changes : Number} (run : PipelineRun) (hchanges : changes.Positive) :
    (sweep number passes changes run).1.Positive := by
  induction passes generalizing changes run with
  | nil => exact hchanges
  | cons pass rest ih =>
      obtain ⟨visit, -, hvisit⟩ := Pass.eq_ofVisit (hpasses pass (by simp))
      rw [sweep]
      split
      · exact hchanges
      · refine ih (fun other hother => hpasses other (List.mem_cons_of_mem _ hother)) _ ?_
        rw [hvisit]
        exact hchanges.plus _

/-- A sweep does not decide whether a pipeline has converged. -/
theorem sweep_converged (passes : List Pass) (number : Nat) (changes : Number) (run : PipelineRun) :
    (sweep number passes changes run).2.converged = run.converged := by
  induction passes generalizing changes run with
  | nil => rfl
  | cons pass rest ih =>
      rw [sweep]
      split
      · rfl
      · rw [ih]

/-- In a clean sweep every pass has left the graph as it was. -/
theorem settled_of_sweep (hpasses : ∀ pass ∈ passes, pass ∈ Pass.registry) (number : Nat)
    (run : PipelineRun) (hkeyed : KeyedTree run.graph) {changes : Number} {after : PipelineRun}
    (hsweep : sweep number passes (.int 0) run = (changes, after)) (hnone : after.failure = none)
    (hclean : changes.same (.int 0) = true) :
    after.graph = run.graph ∧ ∀ pass ∈ passes, ∃ visit ∈ Pass.treatments,
      pass = Pass.ofVisit pass.name visit ∧ Settled visit .root run.graph := by
  induction passes generalizing run with
  | nil =>
      cases hsweep
      exact ⟨rfl, by simp⟩
  | cons pass rest ih =>
      obtain ⟨visit, hmem, hvisit⟩ := Pass.eq_ofVisit (hpasses pass (by simp))
      have hlater := fun other hother => hpasses other (List.mem_cons_of_mem pass hother)
      rw [sweep] at hsweep
      split at hsweep
      · rename_i hfailed
        cases hsweep
        simp only at hnone
        rw [hnone] at hfailed
        cases hfailed
      · rename_i hunfailed
        have hdone : (everyGraph visit .root run.graph).Clean := by
          refine ⟨?_, ?_⟩
          · rw [hvisit, Option.not_isSome_iff_eq_none] at hunfailed
            exact hunfailed
          · by_contra hchanged
            have hpositive : ((Number.int 0).plus (pass.run .root number run.graph).changes).Positive := by
              rw [hvisit]
              exact Number.positive_zero_plus hchanged
            have hcounted : (changes, after).1.Positive :=
              hsweep ▸ sweep_positive hlater number _ hpositive
            rw [hcounted.not_same_zero] at hclean
            cases hclean
        have hsettled := settled_of_clean (Pass.honest_of_mem_treatments hmem) hkeyed hdone
        have hrun := Pass.settledAt_ofVisit pass.name hkeyed hsettled number
        rw [← hvisit] at hrun
        rw [hrun, show (Number.int 0).plus (.int 0) = .int 0 from rfl] at hsweep
        obtain ⟨hgraph, hrest⟩ := (fun hkeyed => ih hlater _ hkeyed hsweep) hkeyed
        exact ⟨hgraph, List.forall_mem_cons.2 ⟨⟨visit, hmem, hvisit, hsettled⟩, hrest⟩⟩

/-- Where a pipeline has converged all its passes are settled. -/
theorem settled_of_converged (hpasses : ∀ pass ∈ passes, pass ∈ Pass.registry) (limit left : Nat)
    (run : PipelineRun) (hg : TidyIn .root run.graph) (hnone : run.failure = none)
    (hrun : run.converged = false) (h : (sweeps ⟨passes, limit⟩ left run).converged = true) :
    TidyIn .root (sweeps ⟨passes, limit⟩ left run).graph ∧
    ∀ pass ∈ passes, ∃ visit ∈ Pass.treatments, pass = Pass.ofVisit pass.name visit ∧
      Settled visit .root (sweeps ⟨passes, limit⟩ left run).graph := by
  induction left generalizing run with
  | zero =>
      rw [sweeps, hrun] at h
      cases h
  | succ left ih =>
      obtain ⟨⟨changes, after⟩, hsweep⟩ :
          ∃ out, sweep run.iterations passes (.int 0) { run with iterations := run.iterations + 1 } =
            out := ⟨_, rfl⟩
      have hkept := sweep_converged passes run.iterations (.int 0)
        { run with iterations := run.iterations + 1 }
      rw [hsweep] at hkept
      rw [sweeps_succ hsweep] at h ⊢
      split at h
      · rw [hkept, hrun] at h
        cases h
      · rename_i hunfailed
        rw [Option.not_isSome_iff_eq_none] at hunfailed
        rw [if_neg (by simp [hunfailed])]
        split at h
        · rename_i hclean
          obtain ⟨hgraph, hsettled⟩ := settled_of_sweep hpasses run.iterations
            { run with iterations := run.iterations + 1 } hg.tree.keyedTree hsweep hunfailed hclean
          rw [if_pos hclean]
          simp only [noted, hgraph]
          exact ⟨hg, hsettled⟩
        · rename_i hchanged
          rw [if_neg hchanged]
          have hruns := sweep_runs hpasses run.iterations (.int 0)
            { run with iterations := run.iterations + 1 } hg hnone
          simp only [hsweep] at hruns
          obtain ⟨count, hcount, -⟩ := hruns.2 hunfailed
          exact ih (noted (run.iterations + 1) changes after) (hcount.tidyIn hg) hunfailed
            (hkept.trans hrun) h

/-- A sweep of settled passes does nothing. -/
theorem sweep_of_settled (hpasses : ∀ pass ∈ passes, pass.SettledAt g) (number : Nat)
    (run : PipelineRun) (hgraph : run.graph = g) (hnone : run.failure = none)
    (htally : ∀ entry ∈ run.tally, entry.2 = .int 0) :
    sweep number passes (.int 0) run = (.int 0, run) := by
  induction passes with
  | nil => rfl
  | cons pass rest ih =>
      have hfirst := hpasses pass (by simp) number
      rw [← hgraph] at hfirst
      rw [sweep]
      have hsame : { run with failure := none } = run := by
        rw [← hnone]
      simp only [hfirst, Option.isSome_none, Bool.false_eq_true, if_false, List.append_nil,
        show (Number.int 0).plus (.int 0) = .int 0 from rfl, Tally.add_zero htally, hsame]
      exact ih fun other hother => hpasses other (List.mem_cons_of_mem _ hother)

/-- A pipeline of settled passes converges in its first sweep, and leaves the graph as it is. -/
theorem run_of_settled {p : Pipeline} (hlimit : 0 < p.limit)
    (hpasses : ∀ pass ∈ p.passes, pass.SettledAt g) :
    (p.run g).graph = g ∧ (p.run g).converged = true ∧ (p.run g).iterations = 1 ∧
      (p.run g).tally = Tally.start p.passNames ∧ (p.run g).failure = none := by
  obtain ⟨passes, limit⟩ := p
  obtain ⟨left, rfl⟩ := Nat.exists_eq_succ_of_ne_zero (Nat.ne_of_gt hlimit)
  have hsweep := sweep_of_settled hpasses 0
    { graph := g, iterations := 1, tally := Tally.start (passes.map Pass.name) } rfl rfl
    fun entry hentry => by
      obtain ⟨name, -, rfl⟩ := List.mem_map.1 hentry
      rfl
  unfold run
  rw [sweeps_succ hsweep]
  exact ⟨rfl, rfl, rfl, rfl, rfl⟩

end Pipeline

end TensorGraph
