import TensorGraph.Proofs.Scoping
import TensorGraph.Proofs.Sinking

/-!
# Sweeps over chains

Every transposition of a chain can be changed until it yields the output and does move something. A
chain is well formed as long as its names are tidy and its values can be put into layers, and every
rewrite keeps both. So a sweep over a chain comes to its end, and leaves one transposition at the most,
with the composition of all.

## Main results

* `Graph.Chained.wellformedTree` -- tidy chains in layers are well formed.
* `Transposes.step_eq_none_iff_atEnd` -- when no rule fits a chain.
* `Transposes.sweepGraph_finished` -- what a sweep over a chain leaves.
-/

namespace TensorGraph

open TensorGraph.Graph Transposes

/-! ## Chains are well formed -/

namespace Graph.Chained

variable {rank : Nat} {x y : String} {links : List Link} {perms : List (List Nat)} {g : Graph}

theorem defines_iff_mem (h : g.Chained rank x y links perms) {value : String} :
    g.defines value = true ↔ value = x ∨ value ∈ linkResults links := by
  have hresults : g.results.Perm (linkResults links) := h.nodes.flatMap_right Node.results
  rw [defines_iff, h.inputs, List.mem_singleton, hresults.mem_iff]

/-- What a chain uses it defines. -/
theorem defines_of_uses (h : g.Chained rank x y links perms) {value : String} (hused : g.Uses value) :
    g.defines value = true := by
  rcases hused with ⟨hout, -⟩ | ⟨n, hn, hread⟩
  · rw [h.outputs] at hout
    exact List.mem_singleton.1 hout ▸ h.defines_iff_mem.2 h.chain.target_mem
  · exact h.defines_iff_mem.2 (h.chain.taken (h.nodes.mem_iff.1 hn) ((h.mem_reads hn).1 hread).1)

/-- A chain that is tidy, and whose values can be put into layers, is well formed. -/
theorem wellformedTree (h : g.Chained rank x y links perms) (hx : x ≠ "") (ht : TidyIn .root g)
    (hs : SteadyTree g) : WellformedTree (fun _ => False) g := by
  have hintact : IntactTree (fun _ => False) g := by
    refine .intro ⟨fun n hn hop => absurd hop (h.op_ne (by decide) hn), fun hempty => .inr ?_⟩
      fun n hn body hbody => ?_
    · rw [h.outputs, List.mem_singleton] at hempty
      exact hempty ▸ h.defines_iff_mem.2 h.chain.target_mem
    · rw [h.bodyless n hn] at hbody
      cases hbody
  have houter : ∀ value ∈ g.outerReferences, False := by
    intro value hvalue
    obtain ⟨hdef, hused⟩ := mem_outerReferences_iff.1 hvalue
    simp [h.defines_of_uses hused] at hdef
  have hscoped := IntactTree.scopedTree hintact ht.tree hs (fun _ hin => hin.elim) houter
  refine .intro { hscoped.here with
    keyed := ht.tree.here.keyed
    named := by simpa [h.inputs] using hx.symm
    unseen := id
    equipped := fun n hn => ⟨fun hop => ?_, fun hop => ?_⟩ } fun n hn body hbody => ?_
  · exact absurd hop (h.op_ne (by decide) hn)
  · exact absurd hop (h.op_ne (by decide) hn)
  · rw [h.bodyless n hn] at hbody
    cases hbody

end Graph.Chained

/-! ## One change -/

theorem Link.Leads.transposes_or {rank : Nat} {source target : String} {l : Link}
    {perms : List (List Nat)} (h : l.Leads rank source target perms) :
    (∃ n p, l = ⟨n, []⟩ ∧ perms = [p]) ∨ l.node.op ≠ "Transpose" ∧ perms = [] := by
  cases h with
  | transposing => exact .inl ⟨_, _, rfl, rfl⟩
  | elementwise _ capability =>
      refine .inr ⟨fun hop => ?_, rfl⟩
      have hop : _ = "Transpose" := hop
      rw [hop] at capability
      exact absurd capability (by decide)
  | combining _ capability =>
      refine .inr ⟨fun hop => ?_, rfl⟩
      have hop : _ = "Transpose" := hop
      rw [hop] at capability
      exact absurd capability (by decide)

namespace Transposes

/-- Whether a transposition of a chain has come to its end: it yields the output of the chain, and it
does move something. -/
def AtEnd (y : String) (t : PlacedTranspose) : Prop :=
  t.output = y ∧ Permutation.isIdentity t.perm = false

section FirstOf

variable {rule : Unit → Outcome} {rest : List (Unit → Outcome)} {rank : Nat} {x y : String}
  {p : List Nat}

theorem firstOf_of_none (h : rule () = .ok none) : firstOf (rule :: rest) = firstOf rest := by
  simp [firstOf, h, bind, Except.bind]

theorem Outcome.Turns.firstOf (h : (rule ()).Turns rank x y p) :
    (firstOf (rule :: rest)).Turns rank x y p := by
  obtain ⟨next, line, hsome, hturns⟩ := h
  refine ⟨next, line, ?_, hturns⟩
  simp [Transposes.firstOf, hsome, bind, Except.bind, pure, Except.pure]

end FirstOf

section Treat

variable {visible : String → Prop} {s : Surroundings} {rank : Nat} {x y : String} {g : Graph}
  {t : PlacedTranspose} {before after : List Link} {ps qs : List (List Nat)}
  (ha : Amid s rank x y g t before after ps qs) (hg : Wellformed visible g)

include ha

theorem treat_eq : treat s g t.place t.node = firstOf
    [fun _ => dropIdentity g t, fun _ => mergeTwin s g t, fun _ => composeSuccessor s g t,
      fun _ => rebaseAllSizes s g t, fun _ => pushDown s g t] := by
  unfold treat
  rw [ha.stands.perm]
  exact if_neg ha.stands.present

include hg

/-- A transposition that has not come to its end is changed, and the chain turns the axes as
before. -/
theorem treat_turns (hmore : ¬ AtEnd y t) : (treat s g t.place t.node).Turns rank x y
    (Permutation.composition rank (ps ++ ([t.perm] ++ qs))) := by
  rw [treat_eq ha]
  cases hid : Permutation.isIdentity t.perm with
  | true => exact (dropIdentity_turns ha hg hid).firstOf
  | false =>
      rw [firstOf_of_none (dropIdentity_eq_none_iff.2 hid), firstOf_of_none (mergeTwin_eq_none ha hg)]
      have hafter : after ≠ [] := fun hlast =>
        hmore ⟨ha.eq_of_isOutput.1 ((ha.isOutput_iff hg).2 hlast), hid⟩
      obtain ⟨l, rest, place, target, us, vs, rfl, rfl, hf⟩ := ha.exists_followed hafter
      rcases hf.link.transposes_or with ⟨n, q, rfl, rfl⟩ | ⟨hother, rfl⟩
      · exact (composeSuccessor_turns ha hg hf).firstOf
      · rw [firstOf_of_none (composeSuccessor_of_other ha hg hf hother),
          firstOf_of_none (rebaseAllSizes_eq_none ha)]
        exact (pushDown_turns ha hg hf).firstOf

/-- One that has is left alone. -/
theorem treat_of_atEnd (hend : AtEnd y t) : treat s g t.place t.node = .ok none := by
  have hyielded : g.isOutput t.output = true := ha.eq_of_isOutput.2 hend.1
  have hlast := (ha.isOutput_iff hg).1 hyielded
  have hpush : pushDown s g t = .ok none := by
    unfold pushDown
    rw [if_pos hyielded]
  rw [treat_eq ha, firstOf_of_none (dropIdentity_eq_none_iff.2 hend.2),
    firstOf_of_none (mergeTwin_eq_none ha hg), firstOf_of_none (composeSuccessor_of_last ha hg hlast),
    firstOf_of_none (rebaseAllSizes_eq_none ha), firstOf_of_none hpush]
  rfl

end Treat

section Step

variable {visible : String → Prop} {s : Surroundings} {rank : Nat} {x y : String} {g : Graph}
  {links : List Link} {perms : List (List Nat)} (hc : g.Chained rank x y links perms)
  (hg : Wellformed visible g)

include hc hg

/-- A rule that fits a transposition of a chain turns the axes as before. -/
theorem treat_chained {place : Nat} {n : Node} (hn : g.nodes[place]? = some n) :
    treat s g place n = .ok none ∨
      (treat s g place n).Turns rank x y (Permutation.composition rank perms) := by
  cases hperm : resolvePermutation s.enclosing g n none with
  | none => exact .inl (by simp [treat, hperm])
  | some perm =>
      let t : PlacedTranspose := { place, node := n, perm }
      by_cases hsource : t.source = ""
      · refine .inl ?_
        unfold treat
        rw [hperm]
        exact if_pos hsource
      obtain ⟨before, after, ps, qs, ha, rfl, rfl⟩ := exists_amid hc (t := t) ⟨hn, hperm, hsource⟩
      by_cases hend : AtEnd y t
      · exact .inl (treat_of_atEnd ha hg hend)
      · exact .inr (treat_turns ha hg hend)

private theorem treatFirst_chained (places : List Nat) :
    treatFirst s g places = .ok none ∨
      (treatFirst s g places).Turns rank x y (Permutation.composition rank perms) := by
  induction places with
  | nil => exact .inl rfl
  | cons place rest ih =>
      unfold treatFirst
      cases hn : g.nodes[place]? with
      | none => exact ih
      | some n =>
          have htreat : treat s g place n = .ok none ∨ _ := treat_chained hc hg hn
          rcases htreat with hnone | ⟨next, line, hsome, hturns⟩
          · simp only [hnone]
            exact ih
          · simp only [hsome]
            exact .inr ⟨next, _, rfl, hturns⟩

/-- A change of a chain does not fail and turns the axes as before. -/
theorem step_chained : step s g = .ok none ∨
    (step s g).Turns rank x y (Permutation.composition rank perms) := by
  obtain ⟨order, horder⟩ := hg.orderly.exists_order
  unfold step
  rw [horder]
  exact treatFirst_chained hc hg order

/-- No rule fits exactly when every transposition of the chain has come to its end. -/
theorem step_eq_none_iff_atEnd : step s g = .ok none ↔ ∀ t, t.Stands s g → AtEnd y t := by
  rw [step_eq_none_iff]
  constructor
  · rintro ⟨-, hnone⟩ t ht
    obtain ⟨before, after, ps, qs, ha, rfl, rfl⟩ := exists_amid hc ht
    by_contra hmore
    obtain ⟨next, line, hsome, -⟩ := treat_turns ha hg hmore
    cases (hnone t.place t.node ht.node).symm.trans hsome
  · intro hends
    refine ⟨hg.orderly.exists_order, fun place n hn => ?_⟩
    cases hperm : resolvePermutation s.enclosing g n none with
    | none => simp [treat, hperm]
    | some perm =>
        let t : PlacedTranspose := { place, node := n, perm }
        by_cases hsource : t.source = ""
        · unfold treat
          rw [hperm]
          exact if_pos hsource
        · have ht : t.Stands s g := ⟨hn, hperm, hsource⟩
          obtain ⟨before, after, ps, qs, ha, rfl, rfl⟩ := exists_amid hc ht
          exact treat_of_atEnd ha hg (hends t ht)

end Step

end Transposes

/-! ## Chains that have come to their end -/

/-- What is left of a permutation: nothing of one that moves nothing. -/
def Permutation.reduced (p : List Nat) : List (List Nat) := if isIdentity p then [] else [p]

/-- Whether a chain has no transposition but one that moves something and yields the output. -/
structure Graph.Finished (rank : Nat) (x y : String) (p : List Nat) (g : Graph) : Prop where
  chained : ∃ links, g.Chained rank x y links (Permutation.reduced p)
  last : ∀ n ∈ g.nodes, n.op = "Transpose" → n.outputs = [y]

theorem Chain.perms_eq_nil {rank : Nat} {source target : String} {links : List Link}
    {perms : List (List Nat)} (h : Chain rank source links target perms)
    (hnone : ∀ l ∈ links, l.node.op ≠ "Transpose") : perms = [] := by
  induction h with
  | nil => rfl
  | cons link _ ih =>
      obtain ⟨hfirst, hrest⟩ := List.forall_mem_cons.1 hnone
      rw [ih hrest, List.append_nil]
      rcases link.transposes_or with ⟨n, p, rfl, rfl⟩ | ⟨-, rfl⟩
      · exact absurd link.transposes.1 hfirst
      · rfl

/-- Where every transposition of a chain yields the output there is no second one. -/
theorem Transposes.Amid.eq_nil {visible : String → Prop} {s : Surroundings} {rank : Nat} {x y : String}
    {g : Graph} {t : PlacedTranspose} {before after : List Link} {ps qs : List (List Nat)}
    (ha : Amid s rank x y g t before after ps qs) (hg : Wellformed visible g)
    (hlast : ∀ n ∈ g.nodes, n.op = "Transpose" → n.outputs = [y]) : ps = [] ∧ qs = [] := by
  have hyields : t.output = y :=
    List.singleton_inj.1 (ha.stands.outputs.symm.trans (hlast t.node ha.stands.mem ha.stands.op))
  obtain rfl : after = [] := (ha.isOutput_iff hg).1 (ha.eq_of_isOutput.2 hyields)
  refine ⟨ha.before.perms_eq_nil fun k hk hop => ?_, ?_⟩
  · have hk' : k.node ∈ g.nodes :=
      ha.chained.mem_nodes.2 ⟨k, List.mem_append_left _ hk, List.mem_cons_self⟩
    have hvalue : t.output ∈ k.node.results := by
      rw [hyields]
      exact Node.mem_results.2 ⟨by simp [hlast k.node hk' hop], hyields ▸ ha.named.2⟩
    have hearlier : t.output ∈ linkResults before :=
      List.mem_flatMap.2 ⟨k.node, List.mem_flatMap.2 ⟨k, hk, List.mem_cons_self⟩, hvalue⟩
    have hapart := (ha.chained.apart hg.toScoped).2.2.2.1 _ (List.mem_cons_of_mem _ hearlier)
    exact hapart.1 ha.link.target_mem
  · have hrest := ha.after
    cases hrest
    rfl

namespace Graph.Chained

variable {visible : String → Prop} {s : Surroundings} {rank : Nat} {x y : String} {g h : Graph}
  {links : List Link} {perms : List (List Nat)}

/-- The nodes of a chain may be listed in another order. -/
theorem of_perm (hc : g.Chained rank x y links perms) {nodes : List Node} (hperm : nodes.Perm g.nodes) :
    { g with nodes }.Chained rank x y links perms :=
  { inputs := hc.inputs, outputs := hc.outputs, chain := hc.chain, nodes := hperm.trans hc.nodes
    bodyless := fun n hn => hc.bodyless n (hperm.mem_iff.1 hn), ranked := hc.ranked }

/-- Every transposition of a chain has a permutation. -/
theorem exists_stands (hc : g.Chained rank x y links perms) (s : Surroundings) {n : Node}
    (hn : n ∈ g.nodes) (hop : n.op = "Transpose") : ∃ t : PlacedTranspose, t.node = n ∧ t.Stands s g := by
  obtain ⟨l, hl, hmem⟩ := hc.mem_nodes.1 hn
  obtain ⟨_, _, source, target, _, _, _, -, -, link, -, -⟩ := hc.chain.exists_cut hl
  obtain ⟨xs, p, rfl, rfl, hinputs, -⟩ := link.of_transpose hmem hop
  obtain ⟨place, hplace⟩ := List.getElem?_of_mem hn
  refine ⟨⟨place, n, p⟩, rfl, hplace, link.resolvePermutation_eq s.enclosing g none, ?_⟩
  simpa [PlacedTranspose.source, hinputs] using link.named.1

/-- When all transpositions of a chain have come to their end there is at most one. -/
theorem finished (hc : g.Chained rank x y links perms) (hg : Wellformed visible g)
    (hends : ∀ t : PlacedTranspose, t.Stands s g → AtEnd y t) :
    g.Finished rank x y (Permutation.composition rank perms) := by
  have hlast : ∀ n ∈ g.nodes, n.op = "Transpose" → n.outputs = [y] := by
    intro n hn hop
    obtain ⟨t, rfl, ht⟩ := hc.exists_stands s hn hop
    rw [ht.outputs, (hends t ht).1]
  refine ⟨⟨links, ?_⟩, hlast⟩
  by_cases hnone : ∀ l ∈ links, l.node.op ≠ "Transpose"
  · obtain rfl := hc.chain.perms_eq_nil hnone
    have hid : Permutation.isIdentity (Permutation.composition rank []) = true :=
      (Permutation.isIdentity_iff (Permutation.length_identity rank)).2 rfl
    rw [Permutation.reduced, if_pos hid]
    exact hc
  · push Not at hnone
    obtain ⟨l, hl, hop⟩ := hnone
    have hmem : l.node ∈ g.nodes := hc.mem_nodes.2 ⟨l, hl, List.mem_cons_self⟩
    obtain ⟨t, -, ht⟩ := hc.exists_stands s hmem hop
    obtain ⟨before, after, ps, qs, ha, rfl, rfl⟩ := exists_amid hc ht
    obtain ⟨rfl, rfl⟩ := ha.eq_nil hg hlast
    have hone : Permutation.composition rank ([] ++ ([t.perm] ++ [])) = t.perm :=
      Permutation.composition_singleton ha.link.ofRank
    rw [hone, Permutation.reduced, (hends t ht).2]
    exact hc

end Graph.Chained

theorem Graph.Finished.of_perm {rank : Nat} {x y : String} {p : List Nat} {g : Graph}
    (hg : g.Finished rank x y p) {nodes : List Node} (hperm : nodes.Perm g.nodes) :
    { g with nodes }.Finished rank x y p :=
  ⟨hg.chained.imp fun _ hc => hc.of_perm hperm, fun n hn => hg.last n (hperm.mem_iff.1 hn)⟩

/-! ## A sweep over a chain -/

/-- A rule that never fails on graphs of a kind, and leaves such a graph, is applied until it no longer
fits, unless there is no end. -/
theorem Sweep.untilClean_ends {what : String}
    {rule : Graph → Except Stopped (Option (Graph × String))} {fuel : Nat} {inv : Graph → Prop}
    (hrule : ∀ g, inv g → rule g = .ok none ∨ ∃ h line, rule g = .ok (some (h, line)) ∧ inv h)
    {sweep : Sweep} (hsweep : inv sweep.graph) (hnone : sweep.failure = none)
    (hends : (untilClean what rule fuel sweep).failure ≠ some (.endless what)) :
    (untilClean what rule fuel sweep).failure = none ∧
      inv (untilClean what rule fuel sweep).graph ∧
      rule (untilClean what rule fuel sweep).graph = .ok none := by
  induction fuel generalizing sweep with
  | zero => exact absurd rfl hends
  | succ fuel ih =>
      unfold untilClean at hends ⊢
      rcases hrule sweep.graph hsweep with hclean | ⟨h, line, hsome, hinv⟩
      · rw [hclean]
        exact ⟨hnone, hsweep, hclean⟩
      · rw [hsome] at hends ⊢
        exact ih hinv hnone hends

/-- What is faithful does not fail for want of an end. -/
theorem Faithful.ne_endless {s : Surroundings} {g : Graph} {sweep : Sweep} (h : Faithful s g sweep)
    (what : String) : sweep.failure ≠ some (.endless what) := by
  intro hendless
  have hends := h.ends _ hendless
  simp [Failure.isEndless] at hends

/-- What a sweep over a chain keeps: it stays a chain with the same composition, its names stay tidy,
and its values can be put into layers. -/
structure Graph.TurnsSteadily (rank : Nat) (x y : String) (p : List Nat) (g : Graph) : Prop where
  turns : g.Turns rank x y p
  tidy : TidyIn .root g
  steady : SteadyTree g

namespace Transposes

variable {rank : Nat} {x y : String} {p : List Nat} {g : Graph}

/-- A change of a chain leaves one. -/
theorem step_steadily (hx : x ≠ "") (hg : g.TurnsSteadily rank x y p) :
    step .root g = .ok none ∨
      ∃ h line, step .root g = .ok (some (h, line)) ∧ h.TurnsSteadily rank x y p := by
  obtain ⟨links, perms, hc, rfl⟩ := hg.turns
  have hwell := (hc.wellformedTree hx hg.tidy hg.steady).here
  refine (step_chained hc hwell).imp_right ?_
  rintro ⟨h, line, hstep, hturns⟩
  obtain ⟨hrewrite, -, -⟩ := step_treated hg.tidy hstep
  exact ⟨h, line, hstep, hturns, (Rewriting.preserving_rewrite _ _ _ hrewrite hg.tidy).1,
    (Rewriting.steadying_rewrite _ _ _ hrewrite hg.tidy hg.steady).1⟩

/-- A sweep that does not fail sorts the graph if it has changed anything. -/
theorem sweepGraph_eq {s : Surroundings} {sorted : Graph} {clean : Sweep}
    (hclean : Sweep.untilClean "transpose" (step s) (budget g) { graph := g } = clean)
    (hcomplete : clean.failure = none) (hsorted : clean.graph.sortTopologically = .ok sorted) :
    sweepGraph s g = if clean.changes = 0 then clean else { clean with graph := sorted } := by
  unfold sweepGraph
  rw [hclean]
  simp [hcomplete, hsorted]

/-- A sweep over a chain does not fail, and no transposition is left but one at the end. -/
theorem sweepGraph_finished (hx : x ≠ "") (hg : g.TurnsSteadily rank x y p) :
    (sweepGraph .root g).failure = none ∧
      ((sweepGraph .root g).graph.Finished rank x y p ∧
        TidyIn .root (sweepGraph .root g).graph ∧ SteadyTree (sweepGraph .root g).graph) := by
  obtain ⟨clean, hclean⟩ :
      ∃ clean, Sweep.untilClean "transpose" (step .root) (budget g) { graph := g } = clean := ⟨_, rfl⟩
  have hfaithful := faithful_untilClean hg.tidy
  rw [hclean] at hfaithful
  obtain ⟨hcomplete, hkept, hstep⟩ : clean.failure = none ∧
      clean.graph.TurnsSteadily rank x y p ∧ step .root clean.graph = .ok none := by
    have hends := hfaithful.ne_endless "transpose"
    rw [← hclean] at hends ⊢
    exact Sweep.untilClean_ends (fun h hh => step_steadily hx hh) hg rfl hends
  obtain ⟨links, perms, hc, rfl⟩ := hkept.turns
  have hwell := (hc.wellformedTree hx hkept.tidy hkept.steady).here
  have hdone := hc.finished hwell ((step_eq_none_iff_atEnd hc hwell).1 hstep)
  obtain ⟨order, horder⟩ := hwell.orderly.exists_order
  obtain ⟨sorted, hsorted⟩ : ∃ sorted, clean.graph.sortTopologically = .ok sorted :=
    ⟨_, by rw [sortTopologically, horder]; rfl⟩
  have hsweep := sweepGraph_eq hclean hcomplete hsorted
  have hresult : (sweepGraph .root g).failure = none ∧
      (sweepGraph .root g).graph.Finished rank x y (Permutation.composition rank perms) := by
    obtain ⟨nodes, hperm, rfl⟩ := sortTopologically_ok hsorted
    rw [hsweep]
    split
    · exact ⟨hcomplete, hdone⟩
    · exact ⟨hcomplete, hdone.of_perm hperm⟩
  have hrun := (faithful_sweepGraph hg.tidy).run hresult.1
  exact ⟨hresult.1, hresult.2, hrun.tidyIn hg.tidy, (hrun.steadyTree hg.tidy hg.steady).1⟩

end Transposes

end TensorGraph
