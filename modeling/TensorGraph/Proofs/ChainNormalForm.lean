import TensorGraph.Proofs.ChainSweeps
import TensorGraph.Proofs.Idempotence
import TensorGraph.Proofs.Liveness
import TensorGraph.Proofs.Reordering

/-!
# The normal form of a chain

A chain that is optimized keeps one transposition at the most, which turns the axes as all of them did.
The first sweep leaves the transposition behind everything else, removing identities does not bring
another one back, and every node of a chain is needed. So the second sweep finds nothing to do.

## Main results

* `Identities.sweepGraph_finished` -- identities go from a chain, and nothing else changes.
* `DeadNodes.allLive_of_chained` -- every node of a chain is needed.
* `Optimizer.optimize_chain` -- what becomes of a chain.
-/

namespace TensorGraph

open TensorGraph.Graph

/-! ## Identities in chains -/

/-- An identity is a link by itself, and turns nothing. -/
theorem Link.Leads.of_identity {rank : Nat} {source target : String} {l : Link}
    {perms : List (List Nat)} (h : l.Leads rank source target perms) {n : Node} (hn : n ∈ l.nodes)
    (hop : n.op = "Identity") : l = ⟨n, []⟩ ∧ perms = [] ∧ n.inputs = [source] := by
  have hunary : Capability.ofOp n.op = .unary := by
    rw [hop]
    decide
  cases h with
  | transposing _ op =>
      obtain rfl := List.mem_singleton.1 hn
      exact absurd (op.symm.trans hop) (by decide)
  | elementwise _ _ inputs =>
      obtain rfl := List.mem_singleton.1 hn
      exact ⟨rfl, rfl, inputs⟩
  | combining _ capability _ _ literal =>
      rcases List.mem_cons.1 hn with rfl | hn
      · cases capability.symm.trans hunary
      · obtain rfl := List.mem_singleton.1 hn
        exact absurd ((Relocation.constant?_eq_some literal).1.symm.trans hop) (by decide)

/-- The two values that become one are those at the ends of the identity. -/
theorem Graph.Merged.eq_ends {g h : Graph} {place : Nat} {n : Node} {drop keep source target : String}
    (hm : Merged g place n drop keep h) (hinputs : n.inputs = [source])
    (houtputs : n.outputs = [target]) :
    drop = target ∧ keep = source ∨ drop = source ∧ keep = target := by
  rcases hm.ends with ⟨hin, hout⟩ | ⟨hin, hout, -⟩
  · exact .inl ⟨List.singleton_inj.1 (hout.symm.trans houtputs),
      List.singleton_inj.1 (hin.symm.trans hinputs)⟩
  · exact .inr ⟨List.singleton_inj.1 (hin.symm.trans hinputs),
      List.singleton_inj.1 (hout.symm.trans houtputs)⟩

namespace Identities

variable {visible : String → Prop} {s : Surroundings} {rank : Nat} {x y drop keep : String}
  {p : List Nat} {g h : Graph} {place : Nat} {n : Node}

/-- Removing an identity leaves a chain that has come to its end as it is but for the identity. -/
theorem finished_of_merged (hg : g.Finished rank x y p) (hw : Wellformed visible g)
    (hm : Merged g place n drop keep h) (houtputs : h.outputs = g.outputs)
    (hinfos : Retells g drop keep h) : h.Finished rank x y p := by
  obtain ⟨links, hc⟩ := hg.chained
  obtain ⟨l, hl, hmem⟩ := hc.mem_nodes.1 hm.mem_node
  obtain ⟨before, after, source, target, ps, us, qs, rfl, hbefore, link, hafter, hperms⟩ :=
    hc.chain.exists_cut hl
  obtain ⟨rfl, rfl, hinputs⟩ := link.of_identity hmem hm.op
  have htarget : n.outputs = [target] := link.outputs
  have hends := hm.eq_ends hinputs htarget
  have hpresent : drop ≠ "" ∧ keep ≠ "" := by
    rcases hends with ⟨rfl, rfl⟩ | ⟨rfl, rfl⟩
    · exact link.named.symm
    · exact link.named
  have hx : x ≠ drop := fun e => hm.drop_not_mem_inputs hw (by simp [hc.inputs, e])
  have hy : y ≠ drop := by
    rintro rfl
    have hkept := hm.outputs
    rw [houtputs, hc.outputs, List.map_singleton, substituteName_eq, if_pos rfl] at hkept
    exact hm.distinct (List.singleton_inj.1 hkept)
  have hj : Joined g [n] drop keep h :=
    ⟨hm.inputs, houtputs, ⟨_, (perm_eraseIdx hm.node).symm, .of_eq hm.nodes⟩, hinfos⟩
  have hpart : g.Chained rank x y (before ++ ([⟨n, []⟩] ++ after)) (Permutation.reduced p) := hc
  have hranked : g.RankedAs rank target :=
    hc.ranked target (.inr ⟨⟨n, []⟩, by simp, by simp [htarget]⟩)
  refine ⟨⟨_, hperms ▸ hpart.joined hbefore hafter hranked (.refl _) hj hends hpresent hx hy⟩,
    fun k hk hop => ?_⟩
  obtain ⟨m, -, hmem, rfl⟩ := hm.mem_nodes hk
  have hspelled := m.respelled_merged keep (hc.bodyless m hmem) hpresent.1
  rw [hspelled.outputs, hg.last m hmem (hspelled.op ▸ hop), List.map_singleton, substituteName_eq,
    if_neg hy]

/-- Removing the identities of a chain that has come to its end does not fail, and leaves such a
chain. -/
theorem sweepGraph_finished (hg : g.Finished rank x y p) (ht : TidyIn .root g)
    (hw : WellformedTree visible g) : (sweepGraph .root g).failure = none ∧
      (sweepGraph .root g).graph.Finished rank x y p ∧
      WellformedTree visible (sweepGraph .root g).graph ∧
      removeFirst .root (sweepGraph .root g).graph (nodeRefs (sweepGraph .root g).graph) = .ok none := by
  have hrule (h : Graph) (hh : h.Finished rank x y p ∧ WellformedTree visible h) :
      removeFirst .root h (nodeRefs h) = .ok none ∨
        ∃ h' line, removeFirst .root h (nodeRefs h) = .ok (some (h', line)) ∧
          h'.Finished rank x y p ∧ WellformedTree visible h' := by
    have hrefs : ∀ r ∈ nodeRefs h, ∃ place n, h.nodes[place]? = some n ∧
        r = { node := n, place := some place } := by
      intro r hr
      obtain ⟨⟨n, place⟩, hmem, rfl⟩ := List.mem_map.1 hr
      exact ⟨place, n, List.mem_zipIdx_iff_getElem?.1 hmem, rfl⟩
    refine (removeFirst_merged hh.2.here hrefs).imp_right ?_
    rintro ⟨place, n, drop, keep, h', line, hsome, hmerged, hroot⟩
    obtain ⟨houtputs, hinfos⟩ := hroot rfl
    exact ⟨h', line, hsome, finished_of_merged hh.1 hh.2.here hmerged houtputs hinfos,
      hmerged.wellformedTree hh.2⟩
  obtain ⟨hcomplete, ⟨hfinished, htree⟩, hnone⟩ := Sweep.untilClean_ends hrule ⟨hg, hw⟩ rfl
    ((faithful_sweepGraph ht).ne_endless "identity")
  exact ⟨hcomplete, hfinished, htree, hnone⟩

end Identities

/-! ## Dead nodes in chains -/

/-- What a constant of a link yields is read by the node of the link. -/
theorem Link.Leads.constant_read {rank : Nat} {source target : String} {l : Link}
    {perms : List (List Nat)} (h : l.Leads rank source target perms) {c : Node}
    (hc : c ∈ l.constants) : ∃ value ∈ c.outputs, value ∈ l.node.reads := by
  cases h with
  | transposing => cases hc
  | elementwise => cases hc
  | @combining _ operand _ constant _ _ _ inputs _ _ yields present =>
      obtain rfl := List.mem_singleton.1 hc
      refine ⟨operand, by simp [yields], Node.mem_reads.2 (.inl ⟨?_, present⟩)⟩
      rcases inputs with hin | hin <;> simp [hin]

namespace DeadNodes

variable {visible : String → Prop} {s : Surroundings} {rank : Nat} {x y : String} {g : Graph}
  {links : List Link} {perms : List (List Nat)} {place : Nat} {n m : Node}

/-- A node is needed when another one reads what it yields. -/
theorem isLive_of_reader (hg : Wellformed visible g) (hn : g.nodes[place]? = some n) {value : String}
    (hvalue : value ∈ n.outputs) (hm : m ∈ g.nodes) (hread : value ∈ m.reads) :
    isLive g (List.range g.nodes.length) place = true := by
  obtain ⟨reader, hreader⟩ := List.getElem?_of_mem hm
  have hne : reader ≠ place := by
    rintro rfl
    obtain rfl : m = n := Option.some.inj (hreader.symm.trans hn)
    exact hg.not_mem_reads hm hvalue hread
  have hlt : reader < g.nodes.length := (List.getElem?_eq_some_iff.1 hreader).1
  simp only [isLive, hn, List.any_eq_true, isNeeded, Bool.or_eq_true, Bool.and_eq_true, bne_iff_ne,
    List.contains_eq_mem, List.mem_range, decide_eq_true_eq]
  exact ⟨value, hvalue, .inr ⟨reader, mem_readers.2 ⟨m, hreader, hread⟩, hne, hlt⟩⟩

theorem isLive_of_isOutput (hn : g.nodes[place]? = some n) {value : String}
    (hvalue : value ∈ n.outputs) (hyielded : g.isOutput value = true) (kept : List Nat) :
    isLive g kept place = true := by
  simp only [isLive, hn, List.any_eq_true, isNeeded, Bool.or_eq_true]
  exact ⟨value, hvalue, .inl hyielded⟩

/-- Every node of a chain is needed. -/
theorem allLive_of_chained (hc : g.Chained rank x y links perms) (hg : Wellformed visible g) :
    AllLive g := by
  obtain ⟨order, horder⟩ := hg.orderly.exists_order
  refine ⟨order, horder, fun place _ => ?_⟩
  cases hn : g.nodes[place]? with
  | none => simp [isLive, hn]
  | some n =>
      obtain ⟨l, hl, hmem⟩ := hc.mem_nodes.1 (List.mem_of_getElem? hn)
      obtain ⟨before, after, source, target, ps, us, qs, rfl, hbefore, link, hafter, -⟩ :=
        hc.chain.exists_cut hl
      have hhere {m : Node} (hm : m ∈ l.nodes) : m ∈ g.nodes := hc.mem_nodes.2 ⟨l, by simp, hm⟩
      rcases List.mem_cons.1 hmem with rfl | hconstant
      · have hvalue : target ∈ l.node.outputs := by simp [link.outputs]
        cases after with
        | nil => exact isLive_of_isOutput hn hvalue ((hc.isOutput_target hg.toScoped link hafter).2 rfl) _
        | cons next rest =>
            obtain ⟨_, _, _, hnext, -, -⟩ := Chain.cons_iff.1 hafter
            exact isLive_of_reader hg hn hvalue
              (hc.mem_nodes.2 ⟨next, by simp, List.mem_cons_self⟩) hnext.source_mem_reads
      · obtain ⟨value, hvalue, hread⟩ := link.constant_read hconstant
        exact isLive_of_reader hg hn hvalue (hhere List.mem_cons_self) hread

end DeadNodes

/-! ## Chains that are done -/

/-- The transpositions of a graph. -/
def Graph.transpositions (g : Graph) : List Node := g.nodes.filter fun n => n.op = "Transpose"

namespace Graph.Finished

variable {visible : String → Prop} {rank : Nat} {x y : String} {p : List Nat} {g : Graph}
  (hg : g.Finished rank x y p)

include hg

theorem bodyless : ∀ n ∈ g.nodes, n.bodies = [] := hg.chained.elim fun _ hc => hc.bodyless

/-- A transposition that is left does what is left to do, and yields the output. -/
theorem of_stands {s : Surroundings} {t : Transposes.PlacedTranspose} (ht : t.Stands s g) :
    t.perm = p ∧ Permutation.isIdentity p = false ∧ t.node.outputs = [y] := by
  obtain ⟨links, hc⟩ := hg.chained
  obtain ⟨before, after, ps, qs, -, -, hperms⟩ := Transposes.exists_amid hc ht
  have hmem : t.perm ∈ Permutation.reduced p := by
    rw [hperms]
    simp
  unfold Permutation.reduced at hmem
  split at hmem
  · cases hmem
  · rename_i hmoving
    exact ⟨List.mem_singleton.1 hmem, by simpa using hmoving, hg.last t.node ht.mem ht.op⟩

theorem atEnd {s : Surroundings} {t : Transposes.PlacedTranspose} (ht : t.Stands s g) :
    Transposes.AtEnd y t := by
  obtain ⟨hperm, hmoving, houtputs⟩ := hg.of_stands ht
  exact ⟨List.singleton_inj.1 (ht.outputs.symm.trans houtputs), hperm ▸ hmoving⟩

/-- In a chain that is done nothing is left to change. -/
theorem settledAt (hw : WellformedTree visible g)
    (hidentities : Identities.removeFirst .root g (Identities.nodeRefs g) = .ok none) :
    ∀ pass ∈ Pass.registry, pass.SettledAt g := by
  obtain ⟨links, hc⟩ := hg.chained
  have hkeyed : KeyedTree g := .intro hw.here.keyed fun n hn body hbody => by
    rw [hg.bodyless n hn] at hbody
    cases hbody
  have hsettled {visit : Surroundings → Graph → Sweep} (name : String)
      (hvisit : visit .root g = { graph := g }) : (Pass.ofVisit name visit).SettledAt g := by
    refine Pass.settledAt_ofVisit name hkeyed (.intro hvisit fun place key body hbody => ?_)
    obtain ⟨n, hn, hmem⟩ := hbody
    rw [hg.bodyless n (List.mem_of_getElem? hn)] at hmem
    cases hmem
  simp only [Pass.registry, List.forall_mem_cons, List.not_mem_nil, false_imp_iff, implies_true,
    and_true]
  refine ⟨hsettled _ (Transposes.sweepGraph_of_eq_none ?_),
    hsettled _ (Identities.sweepGraph_of_eq_none hidentities),
    hsettled _ (DeadNodes.sweepGraph_of_allLive (DeadNodes.allLive_of_chained hc hw.here))⟩
  exact (Transposes.step_eq_none_iff_atEnd hc hw.here).2 fun t ht => hg.atEnd ht

/-- A chain that is done is valid. -/
theorem isValid (hw : WellformedTree (fun _ => False) g) : g.IsValid := by
  obtain ⟨links, hc⟩ := hg.chained
  refine isValid_iff.2 ⟨hw.scopedTree, .intro (fun n hn => ⟨hw.here.equipped n hn, fun hop => ?_⟩)
    fun n hn body hbody => ?_⟩
  · obtain ⟨t, rfl, ht⟩ := hc.exists_stands .root hn hop
    obtain ⟨before, after, ps, qs, ha, -, -⟩ := Transposes.exists_amid hc ht
    obtain ⟨-, hinputs, xs, hspelled, hperm⟩ := ha.link.transposes
    have hranked : g.RankedAs rank t.source := ha.chained.rankedAs ha.before
    unfold transposeProblems
    simp only [hspelled, hperm, Option.isNone_some, Bool.false_eq_true, if_false, hinputs,
      List.headD_cons]
    split
    · rename_i shape hshape
      obtain ⟨info, hinfo, hdims⟩ := Option.bind_eq_some_iff.1 hshape
      have hlength := hranked info (by simpa [info?] using hinfo) shape hdims
      rw [if_pos (by rw [hlength, ← ha.rank_eq, Permutation.length_of_ofNumbers? hperm])]
    · rfl
  · rw [hg.bodyless n hn] at hbody
    cases hbody

/-- What is left of permutations that move nothing together. -/
theorem transpositions_eq_nil (hid : Permutation.isIdentity p = true) : g.transpositions = [] := by
  obtain ⟨links, hc⟩ := hg.chained
  refine List.filter_eq_nil_iff.2 fun n hn hop => ?_
  obtain ⟨t, -, ht⟩ := hc.exists_stands .root hn (by simpa using hop)
  rw [(hg.of_stands ht).2.1] at hid
  cases hid

/-- And of others. -/
theorem exists_transposition (hw : Wellformed visible g) (hmoving : Permutation.isIdentity p = false) :
    ∃ n xs, g.transpositions = [n] ∧ n.outputs = [y] ∧ n.numbers? "perm" = some xs ∧
      Permutation.ofNumbers? xs = some p := by
  obtain ⟨links, hc⟩ := hg.chained
  have hsome : ∃ l ∈ links, l.node.op = "Transpose" := by
    by_contra hnone
    push Not at hnone
    have hnil := hc.chain.perms_eq_nil hnone
    simp [Permutation.reduced, hmoving] at hnil
  obtain ⟨l, hl, hop⟩ := hsome
  have hmem : l.node ∈ g.nodes := hc.mem_nodes.2 ⟨l, hl, List.mem_cons_self⟩
  obtain ⟨t, htnode, ht⟩ := hc.exists_stands .root hmem hop
  obtain ⟨before, after, ps, qs, ha, -, -⟩ := Transposes.exists_amid hc ht
  obtain ⟨-, -, xs, hspelled, hperm⟩ := ha.link.transposes
  obtain ⟨heq, -, houtputs⟩ := hg.of_stands ht
  have hyields : y ∈ t.node.results := by
    refine Node.mem_results.2 ⟨by simp [houtputs], ?_⟩
    exact (hg.atEnd ht).1 ▸ ha.named.2
  have honly {m : Node} (hm : m ∈ g.nodes) (hop : m.op = "Transpose") : m = t.node := by
    have hvalue : y ∈ m.results :=
      Node.mem_results.2 ⟨by simp [hg.last m hm hop], Node.ne_empty_of_mem_results hyields⟩
    exact List.inj_on_of_nodup_map hw.names hm ht.mem (hw.once y m hm t.node ht.mem hvalue hyields)
  refine ⟨t.node, xs, ?_, houtputs, hspelled, heq ▸ hperm⟩
  refine List.perm_singleton.1 ((List.perm_ext_iff_of_nodup
    ((List.Nodup.of_map _ hw.names).filter _) (List.nodup_singleton _)).2 fun m => ?_)
  simp only [List.mem_filter, decide_eq_true_eq, List.mem_singleton]
  constructor
  · rintro ⟨hm, hop⟩
    exact honly hm hop
  · rintro rfl
    exact ⟨ht.mem, ht.op⟩

end Graph.Finished

/-! ## Pipelines over chains -/

/-- Where no node has a body a pass treats the graph itself. -/
theorem Pass.run_of_bodyless (name : String) (visit : Surroundings → Graph → Sweep) (number : Nat)
    {g : Graph} (hg : ∀ n ∈ g.nodes, n.bodies = []) (hnone : (visit .root g).failure = none) :
    ((ofVisit name visit).run .root number g).graph = (visit .root g).graph ∧
      ((ofVisit name visit).run .root number g).failure = none := by
  simp only [ofVisit, everyGraph_leaf visit .root hg, hnone, and_self]

/-- Whether a run has come without a failure to another one, of which the graph is known. -/
structure PipelineRun.Reaches (run after : PipelineRun) (h : Graph) : Prop where
  graph : after.graph = h
  unfailed : after.failure = none
  iterations : after.iterations = run.iterations

theorem PipelineRun.Reaches.trans {run next after : PipelineRun} {h k : Graph}
    (hfirst : run.Reaches next h) (hlast : next.Reaches after k) : run.Reaches after k :=
  ⟨hlast.graph, hlast.unfailed, hlast.iterations.trans hfirst.iterations⟩

namespace Pipeline

variable {number : Nat} {changes : Number} {run : PipelineRun} {rank : Nat} {x y : String}
  {p : List Nat} {g h : Graph} {passes : List Pass}

theorem sweep_cons (number : Nat) (pass : Pass) (changes : Number) (passes : List Pass)
    (hgraph : (pass.run .root number run.graph).graph = h)
    (hnone : (pass.run .root number run.graph).failure = none) : ∃ next,
    sweep number (pass :: passes) changes run =
      sweep number passes (changes.plus (pass.run .root number run.graph).changes) next ∧
    run.Reaches next h := by
  rw [sweep]
  simp only [hnone, Option.isSome_none, Bool.false_eq_true, if_false]
  exact ⟨_, rfl, hgraph, rfl, rfl⟩

/-- A sweep comes to its end when it does after its first pass. -/
theorem exists_sweep_cons {pass : Pass} {k : Graph} (hrun : run.graph = g)
    (hgraph : (pass.run .root number g).graph = h) (hnone : (pass.run .root number g).failure = none)
    (hrest : ∀ changes (next : PipelineRun), next.graph = h → next.failure = none →
      ∃ total after, sweep number passes changes next = (total, after) ∧ next.Reaches after k)
    (changes : Number) :
    ∃ total after, sweep number (pass :: passes) changes run = (total, after) ∧ run.Reaches after k := by
  subst hrun
  obtain ⟨next, hnext, hreaches⟩ := sweep_cons number pass changes passes hgraph hnone
  obtain ⟨total, after, hafter, hlast⟩ := hrest _ next hreaches.graph hreaches.unfailed
  exact ⟨total, after, hnext.trans hafter, hreaches.trans hlast⟩

/-- A sweep of settled passes makes no change. -/
theorem exists_sweep_of_settled (number : Nat) (run : PipelineRun)
    (hpasses : ∀ pass ∈ passes, pass.SettledAt g) (hgraph : run.graph = g) (hnone : run.failure = none) :
    ∃ after, sweep number passes (.int 0) run = (.int 0, after) ∧ run.Reaches after g := by
  induction passes generalizing run with
  | nil => exact ⟨run, rfl, hgraph, hnone, rfl⟩
  | cons pass rest ih =>
      obtain ⟨hfirst, hrest⟩ := List.forall_mem_cons.1 hpasses
      have hsettled : pass.run .root number run.graph = { graph := g } := hgraph ▸ hfirst number
      obtain ⟨next, hnext, hreaches⟩ := sweep_cons number pass (.int 0) rest
        (congrArg PassRun.graph hsettled) (congrArg PassRun.failure hsettled)
      obtain ⟨after, hafter, hlast⟩ := ih next hrest hreaches.graph hreaches.unfailed
      rw [hsettled] at hnext
      exact ⟨after, hnext.trans hafter, hreaches.trans hlast⟩

/-- A sweep over a chain does not fail, and leaves a chain in which nothing is left to change. -/
theorem sweep_chain (number : Nat) (hx : x ≠ "") (hg : g.TurnsSteadily rank x y p)
    (hgraph : run.graph = g) : ∃ changes after h,
      sweep number Pass.registry (.int 0) run = (changes, after) ∧ run.Reaches after h ∧
      h.Finished rank x y p ∧ WellformedTree (fun _ => False) h ∧
      ∀ pass ∈ Pass.registry, pass.SettledAt h := by
  obtain ⟨links, perms, hc, -⟩ := hg.turns
  obtain ⟨hcomplete, hdone, htidy, hsteady⟩ := Transposes.sweepGraph_finished hx hg
  obtain ⟨links', hc'⟩ := hdone.chained
  have hwell := hc'.wellformedTree hx htidy hsteady
  obtain ⟨hcomplete', hdone', hwell', hidentities⟩ :=
    Identities.sweepGraph_finished hdone htidy hwell
  have hsettled := hdone'.settledAt hwell' hidentities
  have hfirst : (Pass.transpose.run .root number g).graph = _ ∧
      (Pass.transpose.run .root number g).failure = none :=
    Pass.run_of_bodyless "transpose" Transposes.sweepGraph number hc.bodyless hcomplete
  have hsecond : (Pass.identity.run .root number (Transposes.sweepGraph .root g).graph).graph = _ ∧
      (Pass.identity.run .root number (Transposes.sweepGraph .root g).graph).failure = none :=
    Pass.run_of_bodyless "identity" Identities.sweepGraph number hdone.bodyless hcomplete'
  have hthird := hsettled Pass.deadNodes (by simp [Pass.registry]) number
  obtain ⟨changes, after, hsweep, hreaches⟩ : ∃ changes after,
      sweep number Pass.registry (.int 0) run = (changes, after) ∧ run.Reaches after
        (Identities.sweepGraph .root (Transposes.sweepGraph .root g).graph).graph := by
    refine exists_sweep_cons hgraph hfirst.1 hfirst.2 (fun _ run₁ hrun₁ _ => ?_) _
    refine exists_sweep_cons hrun₁ hsecond.1 hsecond.2 (fun _ run₂ hrun₂ _ => ?_) _
    refine exists_sweep_cons hrun₂ ?_ (by rw [hthird])
      (fun changes run₃ hrun₃ hnone => ⟨changes, run₃, rfl, hrun₃, hnone, rfl⟩) _
    rw [hthird]
  exact ⟨changes, after, _, hsweep, hreaches, hdone', hwell', hsettled⟩

/-- A pipeline of all passes comes to its end on a chain in two sweeps. -/
theorem run_chain (hx : x ≠ "") (hg : g.TurnsSteadily rank x y p) {limit : Nat} (hlimit : 2 ≤ limit) :
    ∃ after, (⟨Pass.registry, limit⟩ : Pipeline).run g = after ∧ after.failure = none ∧
      after.converged = true ∧ after.iterations ≤ 2 ∧ after.graph.Finished rank x y p ∧
      WellformedTree (fun _ => False) after.graph := by
  obtain ⟨left, rfl⟩ := Nat.exists_eq_add_of_le' hlimit
  let start : PipelineRun :=
    { graph := g, iterations := 1, tally := Tally.start (Pass.registry.map Pass.name) }
  have hstart : start.graph = g := rfl
  obtain ⟨changes, first, h, hsweep, hreaches, hdone, hwell, hsettled⟩ := sweep_chain 0 hx hg hstart
  let again : PipelineRun := noted 1 changes first
  obtain ⟨second, hsweep', hreaches'⟩ := exists_sweep_of_settled again.iterations
    { again with iterations := again.iterations + 1 } hsettled hreaches.graph hreaches.unfailed
  have hfirst : first.iterations = 1 := hreaches.iterations
  have hsecond : second.iterations = 2 := hreaches'.iterations.trans (congrArg (· + 1) hfirst)
  have hrun : (⟨Pass.registry, left + 2⟩ : Pipeline).run g =
      if changes.same (.int 0) then { again with converged := true }
      else { noted (again.iterations + 1) (.int 0) second with converged := true } := by
    unfold Pipeline.run
    rw [sweeps_succ hsweep, hreaches.unfailed, sweeps_succ hsweep', hreaches'.unfailed]
    rfl
  refine ⟨_, hrun, ?_⟩
  split
  · refine ⟨hreaches.unfailed, rfl, hfirst.trans_le (by decide), ?_⟩
    exact ⟨hreaches.graph ▸ hdone, hreaches.graph ▸ hwell⟩
  · refine ⟨hreaches'.unfailed, rfl, Nat.le_of_eq hsecond, ?_⟩
    exact ⟨hreaches'.graph ▸ hdone, hreaches'.graph ▸ hwell⟩

end Pipeline

/-! ## Optimizing a chain -/

/-- A copy of a node without bodies does what the node does. -/
theorem Node.respelled_copied {n : Node} (hbodies : n.bodies = []) : n.Respelled id n.copied :=
  ⟨rfl, by simp, by simp, map_mapBody hbodies Graph.clone⟩

namespace Graph.Chained

variable {rank : Nat} {x y : String} {links : List Link} {perms : List (List Nat)} {g : Graph}

/-- A copy of a chain is one. -/
theorem clone (hc : g.Chained rank x y links perms) :
    g.clone.Chained rank x y (links.map (Link.map Node.copied)) perms := by
  have hspelled : ∀ n ∈ links.flatMap Link.nodes, n.Respelled id n.copied := fun n hn =>
    Node.respelled_copied (hc.bodyless n (hc.nodes.mem_iff.2 hn))
  refine ⟨by simp [hc.inputs], by simp [hc.outputs], hc.chain.map (fun _ => id) hspelled, ?_,
    fun n hn => ?_, fun value hvalue info hinfo dims hdims => ?_⟩
  · rw [nodes_clone, Link.nodes_map]
    exact hc.nodes.map _
  · rw [nodes_clone] at hn
    obtain ⟨m, hm, rfl⟩ := List.mem_map.1 hn
    rw [(Node.respelled_copied (hc.bodyless m hm)).bodies, hc.bodyless m hm]
  · have hranked : g.RankedAs rank value := by
      refine hc.ranked value (hvalue.imp_right ?_)
      rintro ⟨l, hl, hmem⟩
      obtain ⟨k, hk, rfl⟩ := List.mem_map.1 hl
      exact ⟨k, hk, hmem⟩
    rw [get?_clone] at hinfo
    split at hinfo
    · cases hinfo
      unfold infoOf at hdims
      cases hknown : g.infos.get? value with
      | none =>
          rw [hknown] at hdims
          cases hdims
      | some known =>
          rw [hknown] at hdims
          exact hranked known hknown dims hdims
    · exact hranked info hinfo dims hdims

/-- A valid chain is tidy, and its values can be put into layers. -/
theorem turnsSteadily (hc : g.Chained rank x y links perms) (hvalid : g.IsValid)
    (hkeyed : KeyedTree g) : g.TurnsSteadily rank x y (Permutation.composition rank perms) := by
  have htidy := hvalid.tidyIn hkeyed
  have hosted : HostedTree g := by
    refine .intro (fun n hn hbodies => absurd (hc.bodyless n hn) hbodies) fun n hn body hbody => ?_
    rw [hc.bodyless n hn] at hbody
    cases hbody
  exact ⟨⟨links, perms, hc, rfl⟩, htidy, ScopedTree.steadyTree hvalid.scopedTree htidy.tree hosted⟩

end Graph.Chained

namespace Optimizer

variable {environment : List (String × String)} {rank : Nat} {x y : String} {links : List Link}
  {perms : List (List Nat)} {g : Graph}

/-- What is run when nothing is asked for and nothing is set. -/
theorem pipeline_default (hlimit : environment.lookup "TGOPT_MAX_ITERATIONS" = none)
    (hpasses : environment.lookup "TGOPT_PASSES" = none) :
    pipeline environment {} = .ok ⟨Pass.registry, 8⟩ := by
  simp only [pipeline, Settings.load, Settings.nonBlank?, hlimit, hpasses, Option.filter_none,
    Option.map_none, bind, Except.bind, pure, Except.pure, Option.none_or, Option.getD_none]
  rfl

/-- A chain keeps one transposition at the most. When a valid chain is optimized and nothing else is
asked for there is a result after two sweeps at the most; if all permutations of the chain together move
nothing then no transposition is left in it, and otherwise there is one, which does what all did, and
yields the output. -/
theorem optimize_chain (hvalid : g.IsValid) (hkeyed : KeyedTree g) (hx : x ≠ "")
    (hc : g.Chained rank x y links perms)
    (hlimit : environment.lookup "TGOPT_MAX_ITERATIONS" = none)
    (hpasses : environment.lookup "TGOPT_PASSES" = none) :
    ∃ result, (optimize environment {} g).2 = .ok result ∧ result.converged = true ∧
      result.iterations ≤ 2 ∧ result.graph.inputs = [x] ∧ result.graph.outputs = [y] ∧
      (∀ n ∈ result.graph.nodes, n.bodies = []) ∧
      (Permutation.composition rank perms = Permutation.identity rank →
        result.graph.transpositions = []) ∧
      (Permutation.composition rank perms ≠ Permutation.identity rank →
        ∃ n xs, result.graph.transpositions = [n] ∧ n.outputs = [y] ∧ n.numbers? "perm" = some xs ∧
          Permutation.ofNumbers? xs = some (Permutation.composition rank perms)) := by
  have hlength := (Permutation.composition_ofRank hc.chain.ofRank).2
  obtain ⟨after, hrun, hnone, hconverged, hiterations, hdone, hwell⟩ := Pipeline.run_chain hx
    (hc.clone.turnsSteadily (isValid_clone hvalid) (keyedTree_clone hkeyed)) (by decide : 2 ≤ 8)
  subst hrun
  obtain ⟨result, hresult, hgraph, hconverged', hiterations', -⟩ :=
    optimize_eq_ok (pipeline_default hlimit hpasses) hvalid hnone (hdone.isValid hwell)
  rw [← hgraph] at hdone hwell
  obtain ⟨links', hc'⟩ := hdone.chained
  refine ⟨result, hresult, hconverged'.trans hconverged, hiterations'.trans_le hiterations,
    hc'.inputs, hc'.outputs, hdone.bodyless, fun hid => ?_, fun hmoving => ?_⟩
  · exact hdone.transpositions_eq_nil ((Permutation.isIdentity_iff hlength).2 hid)
  · refine hdone.exists_transposition hwell.here (Bool.eq_false_iff.2 fun hid => ?_)
    exact hmoving ((Permutation.isIdentity_iff hlength).1 hid)

/-- A transposition of the input, whose axes change their places in a circle. -/
def turning : Node :=
  { name := "turn", op := "Transpose", inputs := ["x"], outputs := ["turned"]
    attributes := [("perm", .numbers [.int 1, .int 2, .int 0])] }

/-- A constant with certain sizes and elements. -/
def addend (dims data : List Number) : Node :=
  { name := "bias", op := "Constant", inputs := [], outputs := ["b"]
    attributes := [("value", .literal { dtype := .float32, dims, data })] }

/-- The addition of a constant to the transposed input. -/
def adding : Node := { name := "add", op := "Add", inputs := ["turned", "b"], outputs := ["y"] }

/-- A graph that transposes its input, and then adds a constant. -/
def biased (dims data : List Number) : Graph where
  name := "main"
  inputs := ["x"]
  outputs := ["y"]
  infos := InfoTable.empty.set
    { name := "x", dtype := some .float32, shape := some [some (.int 2), some (.int 3), some (.int 4)] }
  nodes := [turning, addend dims data, adding]

theorem chained_biased (dims data : List Number)
    (hturnable : ({ dtype := .float32, dims, data } : Literal).Turnable 3) :
    (biased dims data).Chained 3 "x" "y" [⟨turning, []⟩, ⟨adding, [addend dims data]⟩]
      [[1, 2, 0]] := by
  have hturn : Link.Leads 3 "x" ⟨turning, []⟩ "turned" [[1, 2, 0]] :=
    .transposing (by decide) rfl rfl rfl rfl (by decide) rfl
  have hadd : Link.Leads 3 "turned" ⟨adding, [addend dims data]⟩ "y" [] :=
    .combining (by decide) (by decide) (.inl rfl) rfl (by rfl) rfl (by decide) hturnable
  refine ⟨rfl, rfl, .cons hturn (.cons hadd .nil), .cons _ (.swap ..), ?_, ?_⟩
  · simp [biased, turning, addend, adding, Node.bodies, Attribute.body?]
  · rintro value - info hinfo axes haxes
    simp only [biased, InfoTable.get?_set, InfoTable.get?_empty] at hinfo
    split at hinfo
    · cases hinfo
      cases haxes
      rfl
    · cases hinfo

theorem optimize_chain_biased :
    (biased [.int 2] [.int 5, .int 7]).IsValid ∧ KeyedTree (biased [.int 2] [.int 5, .int 7]) ∧
      (biased [.int 2] [.int 5, .int 7]).Chained 3 "x" "y"
        [⟨turning, []⟩, ⟨adding, [addend [.int 2] [.int 5, .int 7]]⟩] [[1, 2, 0]] ∧
      ∃ result, (optimize [] {} (biased [.int 2] [.int 5, .int 7])).2 = .ok result ∧
        result.converged = true ∧ result.iterations ≤ 2 ∧
        ∃ n xs, result.graph.transpositions = [n] ∧ n.outputs = ["y"] ∧
          n.numbers? "perm" = some xs ∧ Permutation.ofNumbers? xs = some [1, 2, 0] := by
  have hvalid : (biased [.int 2] [.int 5, .int 7]).IsValid := by
    unfold IsValid
    decide +kernel
  have hkeyed : KeyedTree (biased [.int 2] [.int 5, .int 7]) :=
    .intro (by simp [biased, turning, addend, adding, Node.Keyed])
      (by simp [biased, turning, addend, adding, Node.bodies, Attribute.body?])
  have hc := chained_biased [.int 2] [.int 5, .int 7]
    (Literal.turnable_of_small (by decide) (by decide) (by decide))
  have hunset : ∀ key, ([] : List (String × String)).lookup key = none := fun _ => rfl
  obtain ⟨result, hresult, hconverged, hiterations, -, -, -, -, hmoving⟩ :=
    optimize_chain hvalid hkeyed (by decide) hc (hunset _) (hunset _)
  exact ⟨hvalid, hkeyed, hc, result, hresult, hconverged, hiterations, hmoving (by decide)⟩

/-- An empty constant is turned to sizes that overflow when they are multiplied in their new order. -/
theorem not_optimize_chain :
    (biased [.int (2 ^ 1000), .int 0, .int (2 ^ 1000)] []).IsValid ∧
      ∀ result, (optimize [] {} (biased [.int (2 ^ 1000), .int 0, .int (2 ^ 1000)] [])).2 ≠
        .ok result := by
  have hfails : (optimize [] {} (biased [.int (2 ^ 1000), .int 0, .int (2 ^ 1000)] [])).2.isOk =
      false := by decide +kernel
  refine ⟨?_, fun result hresult => ?_⟩
  · unfold IsValid
    decide +kernel
  · rw [hresult] at hfails
    cases hfails

end Optimizer

end TensorGraph
