import TensorGraph.Proofs.Resting
import TensorGraph.Proofs.Touched

/-!
# Sheltered bodies

A body without transpositions stays as it is, and one that takes nothing from outside which a rule for
transpositions may touch does not notice what rules do around it. Where every body is of the one kind
or the other, bodies that have come to rest stay at rest while the transpositions around them move.

## Main results

* `Transposes.settled_of_known` -- of what surrounds a settled tree only what is known in it counts.
* `Transposes.Calm.treated` -- rules for transpositions leave settled bodies settled.
-/

namespace TensorGraph

open TensorGraph.Graph Rewriting

namespace Graph

/-! ## Trees without transpositions -/

/-- In no graph of a tree there are transpositions. -/
abbrev StillTree : Graph → Prop :=
  Everywhere (fun _ taken => taken) (fun _ g => ∀ n ∈ g.nodes, n.op ≠ "Transpose") fun _ => True

/-- The nodes of every graph of a tree have an order. -/
abbrev OrderedTree : Graph → Prop :=
  Everywhere (fun _ taken => taken) (fun _ g => ∃ order, g.topologicalOrder = .ok order) fun _ => True

variable {taken : String → Prop} {g h : Graph} {old new : String}

theorem StillTree.substituteOuter (hg : StillTree g) : StillTree (g.substituteOuter old new) := by
  induction g using bodyInduction with
  | step g ih =>
      have hfrom : ∀ k ∈ (g.substituteOuter old new).nodes, ∃ m ∈ g.nodes,
          k = m ∨ k = m.replaceReads old new := by
        intro k hk
        rw [nodes_substituteOuter] at hk
        split at hk
        · exact ⟨k, hk, .inl rfl⟩
        · obtain ⟨m, hm, rfl⟩ := List.mem_map.1 hk
          exact ⟨m, hm, .inr rfl⟩
      refine .intro (fun k hk => ?_) fun k hk body hbody => ?_
      · obtain ⟨m, hm, rfl | rfl⟩ := hfrom k hk
        · exact hg.here k hm
        · simpa using hg.here m hm
      · obtain ⟨m, hm, rfl | rfl⟩ := hfrom k hk
        · exact hg.body hm hbody
        · obtain ⟨before, hbefore, -, hsame | ⟨-, hsame⟩⟩ := mem_bodies_replaceReads hbody
          · exact hsame ▸ hg.body hm hbefore
          · exact hsame ▸ ih m hm before hbefore (hg.body hm hbefore)

/-- A graph keeps its order when a name that it takes from outside is replaced by another one. -/
theorem dependsOn_substituteOuter (hold : g.defines old ≠ true) (hnew : new ∉ g.results) (i j : Nat) :
    (g.substituteOuter old new).DependsOn i j ↔ g.DependsOn i j := by
  have hresult : ∀ value, g.producerPlace? value = some j → value ∈ g.results := fun value hplace => by
    rw [← producerPlace?_isSome_iff, hplace]
    rfl
  have hproducer : ∀ value, (g.substituteOuter old new).producerPlace? value =
      g.producerPlace? value := fun value => by
    unfold producerPlace?
    rw [nodes_substituteOuter, if_neg hold, List.findIdx?_map]
    congr 1
    funext n
    simp [Node.produces]
  unfold DependsOn
  simp only [hproducer, nodes_substituteOuter, if_neg hold, List.getElem?_map,
    Option.map_eq_some_iff]
  constructor
  · rintro ⟨_, ⟨n, hn, rfl⟩, value, hread, hplace⟩
    rcases Node.mem_reads_replaceReads hread with ⟨rfl, -⟩ | ⟨hread, -⟩
    · exact absurd (hresult _ hplace) hnew
    · exact ⟨n, hn, value, hread, hplace⟩
  · rintro ⟨n, hn, value, hread, hplace⟩
    have hne : value ≠ old := by
      rintro rfl
      exact hold (defines_iff.2 (.inr (hresult _ hplace)))
    exact ⟨_, ⟨n, hn, rfl⟩, value, Node.mem_reads_replaceReads_of_ne hne hread, hplace⟩

theorem OrderedTree.substituteOuter (hg : OrderedTree g) (ht : TidyTree taken g)
    (hnew : new = "" ∨ taken new) : OrderedTree (g.substituteOuter old new) := by
  induction ht with
  | @intro taken g here inside ih =>
      by_cases hold : g.defines old = true
      · rwa [substituteOuter_eq, if_pos hold]
      have hnodes : (g.substituteOuter old new).nodes = g.nodes.map (Node.replaceReads old new) := by
        rw [nodes_substituteOuter, if_neg hold]
      refine .intro ?_ fun k hk body hbody => ?_
      · obtain ⟨order, horder⟩ := hg.here
        have hresult : new ∉ g.results := fun hmem =>
          hnew.elim (ne_empty_of_mem_results hmem) (here.newResults new hmem)
        have hsame := topologicalOrder_congr (g := g) (h := g.substituteOuter old new)
          (by simp [hnodes]) (dependsOn_substituteOuter hold hresult)
        rw [horder] at hsame
        cases hafter : (g.substituteOuter old new).topologicalOrder with
        | ok after => exact ⟨after, rfl⟩
        | error cause => simp [hafter, Except.toOption] at hsame
      · rw [hnodes] at hk
        obtain ⟨m, hm, rfl⟩ := List.mem_map.1 hk
        obtain ⟨before, hbefore, -, hsame | ⟨-, hsame⟩⟩ := mem_bodies_replaceReads hbody
        · exact hsame ▸ hg.body hm hbefore
        · exact hsame ▸ ih m hm before hbefore (hg.body hm hbefore) (hnew.imp_right .inl)

/-- A tree without transpositions has none after substitutions, and it keeps its orders. -/
theorem StillTree.substituted (hg : StillTree g) (hordered : OrderedTree g) (ht : TidyTree taken g)
    (hsub : Substituted (fun _ new => new = "" ∨ taken new) g h) : StillTree h ∧ OrderedTree h := by
  induction hsub with
  | refl => exact ⟨hg, hordered⟩
  | tail hbefore hstep ih =>
      obtain ⟨old, new, hnew, rfl⟩ := hstep
      exact ⟨ih.1.substituteOuter, ih.2.substituteOuter (ht.substituted hbefore) hnew⟩

/-- A graph stays as it is when nothing is replaced that it takes from outside. -/
theorem Substituted.eq_of_not_mem {allowed : String → String → Prop}
    (hsub : Substituted allowed g h)
    (hallowed : ∀ old new, allowed old new → old ≠ "" ∧ old ∉ g.outerReferences) : h = g := by
  induction hsub with
  | refl => rfl
  | tail _ hstep ih =>
      obtain ⟨old, new, hold, rfl⟩ := hstep
      subst ih
      exact substituteOuter_of_not_mem new (hallowed old new hold).1 (hallowed old new hold).2

end Graph

namespace Transposes

variable {taken : String → Prop} {s s' : Surroundings} {g h : Graph}

theorem orderedTree_of_settled (hsettled : Settled sweepGraph s g) : OrderedTree g := by
  induction hsettled with
  | @intro s g here below ih =>
      refine .intro (step_eq_none_iff.1 (eq_none_of_clean (here ▸ Sweep.clean_start g))).1
        fun n hn body hbody => ?_
      obtain ⟨place, hplace⟩ := List.getElem?_of_mem hn
      exact ih place body.1 body.2 ⟨n, hplace, hbody⟩

/-- A tree without transpositions in which all nodes have an order is settled. -/
theorem settled_of_still (hg : StillTree g) (hordered : OrderedTree g) : Settled sweepGraph s g := by
  induction g using bodyInduction generalizing s with
  | step g ih =>
      refine .intro (sweepGraph_of_eq_none (step_eq_none_iff.2 ⟨hordered.here, fun place n hn =>
        treat_not_transpose (hg.here n (List.mem_of_getElem? hn))⟩)) fun place key body hbody => ?_
      obtain ⟨n, hn, hmem⟩ := hbody
      have hn := List.mem_of_getElem? hn
      exact ih n hn (key, body) hmem (hg.body hn hmem) (hordered.body hn hmem)

/-- Of what surrounds a settled tree only what is known in it counts, and of that only what is known of
absent values, of what the tree takes from outside, and of names that are used in it alone. -/
theorem settled_of_known (hsettled : Settled sweepGraph s g) (hg : TidyTree taken g)
    (hknown : ∀ value, value = "" ∨ value ∈ g.outerReferences ∨ value ∈ g.names ∧ ¬ taken value →
      (s'.enclosing.findSome? fun outer => outer.infos.get? value) =
        s.enclosing.findSome? fun outer => outer.infos.get? value) : Settled sweepGraph s' g := by
  induction hsettled generalizing s' taken with
  | @intro s g here below ih =>
      have hinfo : ∀ {value}, value = "" ∨ value ∈ g.outerReferences ∨ value ∈ g.names ∧ ¬ taken value →
          g.info? s'.enclosing value = g.info? s.enclosing value := fun hvalue => by
        rw [info?, info?, List.findSome?_cons, List.findSome?_cons, hknown _ hvalue]
      -- what is used in a graph is defined there or taken from outside
      have hused : ∀ value, g.Uses value →
          value ∈ g.outerReferences ∨ value ∈ g.names ∧ ¬ taken value := by
        intro value huses
        by_cases hdef : g.defines value = true
        · refine .inr ⟨mem_names_of_defines hdef, fun htaken => ?_⟩
          exact (defines_iff.1 hdef).elim (hg.here.newInputs value · htaken)
            (hg.here.newResults value · htaken)
        · exact .inl (mem_outerReferences_iff.2 ⟨by simpa using hdef, huses⟩)
      obtain ⟨horder, hrest⟩ := step_eq_none_iff.1 (eq_none_of_clean (here ▸ Sweep.clean_start g))
      have hsame : Resembling s g s' g id id := .of_same (fun _ => .rfl) rfl (fun _ => rfl)
        fun n hn _ value hread => hinfo <| or_iff_not_imp_left.2 fun hne =>
          hused value (.inr ⟨n, hn, Node.mem_reads.2 (.inl ⟨hread, hne⟩)⟩)
      refine .intro (sweepGraph_of_eq_none (step_eq_none_iff.2 ⟨horder, fun _ _ hn =>
        hsame.treat_eq_none hg.here.names hg.here.names hrest hn⟩)) fun place key body hbody => ?_
      obtain ⟨n, hn, hmem⟩ := hbody
      have hn' := List.mem_of_getElem? hn
      refine ih place key body ⟨n, hn, hmem⟩ (hg.body hn' hmem) fun value hvalue => hinfo ?_
      rcases hvalue with hempty | houter | ⟨hname, hnew⟩
      · exact .inl hempty
      · exact .inr (hused value (.inr ⟨n, hn', Node.mem_reads.2 (.inr ⟨_, hmem, houter⟩)⟩))
      · exact .inr (.inr ⟨names_body hn' hmem hname, fun htaken => hnew (.inl htaken)⟩)

/-! ## Bodies at rest -/

/-- Whether every body in a graph holds no transpositions, at no depth, or takes nothing from outside
that rules for the transpositions of the graph may touch. -/
def Sheltered (g : Graph) : Prop :=
  ∀ n ∈ g.nodes, ∀ body ∈ n.bodies, StillTree body.2 ∨
    ∀ value, g.Touches value → value ≠ "" ∧ value ∉ body.2.outerReferences

/-- In every graph of a tree the bodies are sheltered. -/
abbrev ShelteredTree : Graph → Prop :=
  Everywhere (fun _ taken => taken) (fun _ g => Sheltered g) fun _ => True

/-- What holds of a graph, the bodies of which are at rest, while its transpositions are moved. -/
structure Calm (s : Surroundings) (g : Graph) : Prop where
  tidy : TidyIn s g
  sheltered : Sheltered g
  settled : ∀ place key body, g.HasBody place key body → Settled sweepGraph (s.inside g place key) body

namespace Calm

/-- Bodies stay at rest when nothing is changed but what is touched. -/
theorem onward (hg : Calm s g) (hh : TidyIn s h)
    (hbodies : KeepsBodies (fun old new => old ≠ "" ∧ g.Touches old ∧ g.Handles new) g h)
    (htouches : ∀ value, value = "" ∨ value ∈ g.names → h.Touches value → g.Touches value)
    (hinfos : ∀ value, value = "" ∨ value ∈ g.names → ¬ g.Touches value →
      h.infos.get? value = g.infos.get? value) : Calm s h := by
  have hfrom : ∀ place key body, h.HasBody place key body →
      (StillTree body ∨ ∀ value, h.Touches value → value ≠ "" ∧ value ∉ body.outerReferences) ∧
        Settled sweepGraph (s.inside h place key) body := by
    rintro place key body ⟨n, hn, hmem⟩
    obtain ⟨m, hm, -, ⟨_, before⟩, hbefore, rfl, hsub⟩ :=
      hbodies n (List.mem_of_getElem? hn) _ hmem
    obtain ⟨i, hi⟩ := List.getElem?_of_mem hm
    have hsettled := hg.settled i _ before ⟨m, hi, hbefore⟩
    have htree : TidyTree (g.takenIn s.mentions) before := hg.tidy.tree.body hm hbefore
    rcases hg.sheltered m hm _ hbefore with hstill | haway
    · obtain ⟨hstill, hordered⟩ := hstill.substituted (orderedTree_of_settled hsettled) htree
        (hsub.mono fun old new hallowed => hallowed.2.2.mentions.imp_right .inr)
      exact ⟨.inl hstill, settled_of_still hstill hordered⟩
    · -- the body takes from outside nothing that is replaced
      obtain rfl : before = body := (hsub.eq_of_not_mem fun old new hallowed =>
        haway old hallowed.2.1).symm
      have hnames : ∀ {value}, value ∈ before.names → value ∈ g.names := names_body hm hbefore
      refine ⟨.inr fun value htouched => ?_, settled_of_known hsettled htree fun value hvalue => ?_⟩
      · by_contra hused
        rw [not_and_or, not_not, not_not] at hused
        obtain ⟨hne, houter⟩ := haway value (htouches value
          (hused.imp_right fun hmem => hnames (mem_names_of_outerReferences hmem)) htouched)
        exact hused.elim hne houter
      · simp only [Surroundings.inside, List.findSome?_cons]
        rw [hinfos]
        · exact hvalue.imp_right fun hused =>
            hnames (hused.elim mem_names_of_outerReferences And.left)
        · intro htouched
          obtain ⟨hne, houter⟩ := haway value htouched
          rcases hvalue with hempty | hused | ⟨-, hnew⟩
          · exact hne hempty
          · exact houter hused
          · exact hnew (.inr (.inl (defines_iff.2 (.inr (htouched.mem_results hne)))))
  refine ⟨hh, fun n hn body hbody => ?_, fun place key body hbody => (hfrom place key body hbody).2⟩
  obtain ⟨place, hplace⟩ := List.getElem?_of_mem hn
  exact (hfrom place body.1 body.2 ⟨n, hplace, hbody⟩).1

theorem edit {kind : Kind} (hg : Calm s g) (he : Edit s g kind h)
    (hkind : kind = .move ∨ kind = .resize) : Calm s h := by
  have hremoval : kind ≠ .removal := by rcases hkind with rfl | rfl <;> decide
  exact hg.onward (he.tidyIn hg.tidy) (he.keepsBodies_touched hremoval hg.tidy)
    (fun _ => he.touches hremoval hg.tidy) fun _ => he.get?_infos hkind hg.tidy

/-- Bodies stay at rest when a transposition goes that nothing needs. -/
theorem removed (hg : Calm s g) {n : Node} (hn : n ∈ g.nodes) (hop : n.op = "Transpose") :
    Calm s (g.removeNamedIfUnreferenced n.name) := by
  unfold removeNamedIfUnreferenced
  cases hplace : g.place? n.name with
  | none => exact hg
  | some place =>
      rw [Option.bind_some]
      cases hremoved : g.removeUnreferenced? place with
      | none => exact hg
      | some after =>
          have hedit : Edit s g .cleanup after := .remove hremoved
          refine hg.onward (hedit.tidyIn hg.tidy) (hedit.keepsBodies_touched (by decide) hg.tidy)
            (fun _ => hedit.touches (by decide) hg.tidy) fun value _ hnot => ?_
          obtain ⟨m, hm, hname⟩ := Relocation.place?_eq_some hplace
          obtain ⟨k, hk, -, rfl⟩ := removeUnreferenced?_eq_some hremoved
          obtain rfl : m = k := Option.some.inj (hm.symm.trans hk)
          obtain rfl : n = m :=
            hg.tidy.tree.here.eq_of_name_eq hn (List.mem_of_getElem? hm) hname.symm
          exact get?_foldl_erase (fun hmem => hnot (.shifted (.yielded hn hop hmem))) _

/-- Rules for transpositions leave bodies at rest. -/
theorem treated (hg : Calm s g) (ht : Treated s g h) : Calm s h := by
  obtain ⟨kind, between, rebased, hkind, hedit, hresizes, hlast⟩ := ht
  have hrebased : Calm s rebased := by
    clear hlast
    induction hresizes with
    | refl => exact hg.edit hedit hkind
    | tail _ hstep ih => exact ih.edit hstep (.inr rfl)
  rcases hlast with rfl | ⟨n, -, -, ⟨m, hm, hname, hop⟩, rfl⟩
  · exact hrebased
  · exact hname ▸ hrebased.removed hm hop

theorem sorted (hg : Calm s g) (hsort : g.sortTopologically = .ok h) : Calm s h := by
  obtain ⟨htidy, -⟩ := preserving_sorted s g h hsort hg.tidy
  obtain ⟨nodes, hperm, rfl⟩ := sortTopologically_ok hsort
  exact hg.onward htidy (.of_subset hperm.subset)
    (fun value _ ht => ht.of_nodes fun k hk => ⟨k, hperm.subset hk, rfl, rfl, rfl⟩) fun _ _ _ => rfl

/-- When the transpositions of a graph have been treated its bodies are still at rest. -/
theorem sweepGraph (hg : Calm s g) (hnone : (sweepGraph s g).failure = none) :
    Calm s (sweepGraph s g).graph := by
  have hclean : (Sweep.untilClean "transpose" (step s) (budget g) { graph := g }).failure = none →
      Calm s (Sweep.untilClean "transpose" (step s) (budget g) { graph := g }).graph :=
    Sweep.untilClean_keeps (Calm s)
      (fun k k' line hk hstep => hk.treated (step_treated hk.tidy hstep).2.2) hg
  unfold Transposes.sweepGraph at hnone ⊢
  simp only at hnone ⊢
  split at hnone
  · rename_i hdone
    rw [if_pos hdone]
    exact hclean hnone
  · rename_i hdone
    rw [if_neg hdone]
    simp only [Bool.or_eq_true, Bool.not_eq_true, not_or, Option.isSome_eq_false_iff,
      Option.isNone_iff_eq_none] at hdone
    split at hnone
    · rename_i sorted hsorted
      exact (hclean hdone.1).sorted hsorted
    · cases hnone

end Calm

end Transposes

end TensorGraph
